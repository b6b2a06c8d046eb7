import PolyCheck.Proofs.Subst.MostGeneral

/-! Variables that later cells leave alone. Cells grow by new variables, which changes no resolved
type, and by unification, which solves only what the two types are made of; a variable is spared
when its cell stays and no type takes it up that was without it. -/
namespace PolyCheck.Subst

variable {subst middle after : Subst}

section Growth

/-- The same cells, and new ones behind them. -/
structure Grown (subst after : Subst) : Prop where
  tame : after.Tame
  size_le : subst.size ≤ after.size
  cells : ∀ {v : TyVar}, v.index < subst.size → after.cell v = subst.cell v

theorem Grown.root (grown : subst.Grown after) (tame : subst.Tame) {v : TyVar}
    (inside : v.index < subst.size) : after.root v = subst.root v := by
  induction v using tame.linkInduction with
  | unlinked v notLink =>
    have notLink' : ∀ w, after.cell v ≠ .link w := fun w => by
      rw [grown.cells inside]
      exact notLink w
    rw [root_of_not_link notLink, root_of_not_link notLink']
  | linked v w cell ih =>
    have cell' : after.cell v = .link w := by rw [grown.cells inside, cell]
    rw [tame.root_of_link cell, grown.tame.root_of_link cell', ih (tame.linked cell)]

theorem Grown.rootCell (grown : subst.Grown after) (tame : subst.Tame) {v : TyVar}
    (inside : v.index < subst.size) : after.rootCell v = subst.rootCell v := by
  rw [Subst.rootCell, Subst.rootCell, grown.root tame inside, grown.cells (tame.root_inside inside)]

theorem Grown.zonk (grown : subst.Grown after) (tame : subst.Tame) {ty : Ty}
    (plain : ty.FirstOrder subst.size) : after.zonk ty = subst.zonk ty := by
  have wider : ∀ {ty : Ty}, ty.FirstOrder subst.size → ty.FirstOrder after.size :=
    fun plain => plain.mono grown.size_le
  induction plain using tame.resolveInduction with
  | free v inside free =>
    have free' : ∀ ty, after.rootCell v ≠ .bound ty := fun ty => by
      rw [grown.rootCell tame inside]
      exact free ty
    rw [tame.zonk_free inside free, grown.tame.zonk_free (Nat.lt_of_lt_of_le inside grown.size_le)
      free', grown.root tame inside]
  | solved v ty inside plain cell _ ih =>
    have cell' : after.rootCell v = .bound ty := by rw [grown.rootCell tame inside, cell]
    rw [tame.zonk_solved inside cell,
      grown.tame.zonk_solved (Nat.lt_of_lt_of_le inside grown.size_le) cell', ih]
  | arrow param result fst snd ihParam ihResult =>
    rw [tame.zonk_arrow fst snd, grown.tame.zonk_arrow (wider fst) (wider snd), ihParam, ihResult]
  | tuple elems each ih =>
    rw [tame.zonk_tuple each, grown.tame.zonk_tuple fun t member => wider (each t member),
      List.map_congr_left ih]
  | nominal template args each ih =>
    rw [tame.zonk_nominal each, grown.tame.zonk_nominal fun t member => wider (each t member),
      List.map_congr_left ih]

theorem Grown.later (grown : subst.Grown after) (tame : subst.Tame) : subst.Extends after where
  size_le := grown.size_le
  rigid inside := by rw [grown.cells inside]
  resolved plain := by
    rw [grown.zonk tame (tame.zonk_firstOrder plain), tame.zonk_zonk plain, grown.zonk tame plain]

theorem Tame.grown_refl (tame : subst.Tame) : subst.Grown subst :=
  ⟨tame, Nat.le_refl _, fun _ => rfl⟩

theorem Grown.trans (first : subst.Grown middle) (second : middle.Grown after) :
    subst.Grown after where
  tame := second.tame
  size_le := Nat.le_trans first.size_le second.size_le
  cells inside := by
    rw [second.cells (Nat.lt_of_lt_of_le inside first.size_le), first.cells inside]

theorem Tame.grown_push (tame : subst.Tame) {cell : Cell}
    (new : cell = .unbound ∨ ∃ name, cell = .rigid name) : subst.Grown (subst.push cell).2 where
  tame := tame.push new
  size_le := by simp
  cells inside := by rw [cell_push, if_neg (Nat.ne_of_lt inside)]

theorem Unsolved.of_cell {v : TyVar} (unsolved : subst.Unsolved v) (tame : subst.Tame)
    (size_le : subst.size ≤ after.size) (cell : after.cell v = subst.cell v) :
      after.Unsolved v := by
  obtain ⟨inside, root, notBound⟩ := unsolved
  have notLink : ∀ target, after.cell v ≠ .link target := fun target => by
    rw [cell]
    have := tame.cell_root_ne_link v target
    rwa [root] at this
  exact ⟨Nat.lt_of_lt_of_le inside size_le, root_of_not_link notLink, fun ty => by
    rw [cell]
    exact notBound ty⟩

theorem unsolved_push (subst : Subst) : (subst.push .unbound).2.Unsolved ⟨subst.size⟩ := by
  have cell : (subst.push .unbound).2.cell ⟨subst.size⟩ = .unbound := by rw [cell_push, if_pos rfl]
  refine ⟨by simp, root_of_not_link fun w => ?_, fun ty => ?_⟩
  · rw [cell]
    simp
  · rw [cell]
    simp

theorem Tame.pushMany (tame : subst.Tame) (count : Nat) :
    subst.Grown (subst.pushMany .unbound count).2 ∧
      (subst.pushMany .unbound count).1.length = count ∧
      ∀ v ∈ (subst.pushMany .unbound count).1,
        subst.size ≤ v.index ∧ (subst.pushMany .unbound count).2.Unsolved v := by
  induction count generalizing subst with
  | zero => exact ⟨tame.grown_refl, rfl, nofun⟩
  | succ count ih =>
    have grown := tame.grown_push (.inl rfl)
    obtain ⟨grown', length, each⟩ := ih grown.tame
    refine ⟨grown.trans grown', congrArg Nat.succ length, List.forall_mem_cons.mpr ⟨?_, ?_⟩⟩
    · have new := unsolved_push subst
      exact ⟨Nat.le_refl _, new.of_cell grown.tame grown'.size_le (grown'.cells new.1)⟩
    · intro v member
      obtain ⟨le, unsolved⟩ := each v member
      exact ⟨Nat.le_trans grown.size_le le, unsolved⟩

end Growth

section Sparing

variable {v w : TyVar} {ty : Ty}

theorem Extends.mem_leaves (later : subst.Extends after) (tame : subst.Tame) (tame' : after.Tame)
    (plain : ty.FirstOrder subst.size) : v ∈ (after.zonk ty).leaves ↔
      ∃ w ∈ (subst.zonk ty).leaves, v ∈ (after.zonk (.var w)).leaves := by
  rw [← later.resolved plain]
  exact tame'.mem_leaves_zonk ((tame.zonk_firstOrder plain).mono later.size_le)

/-- The cell of a variable stays, and no type takes the variable up that was without it. -/
structure Spares (v : TyVar) (subst after : Subst) : Prop where
  cell : after.cell v = subst.cell v
  avoids : ∀ {ty : Ty}, ty.FirstOrder subst.size → v ∉ (subst.zonk ty).leaves →
    v ∉ (after.zonk ty).leaves

theorem spares_refl (v : TyVar) (subst : Subst) : Spares v subst subst := ⟨rfl, fun _ => id⟩

theorem Spares.trans (first : Spares v subst middle) (second : Spares v middle after)
    (size_le : subst.size ≤ middle.size) : Spares v subst after where
  cell := by rw [second.cell, first.cell]
  avoids plain absent := second.avoids (plain.mono size_le) (first.avoids plain absent)

theorem Grown.spares (grown : subst.Grown after) (tame : subst.Tame)
    (inside : v.index < subst.size) : Spares v subst after where
  cell := grown.cells inside
  avoids plain absent := by rwa [grown.zonk tame plain]

theorem Unified.spares {left right : Ty} (unified : subst.Unified [(left, right)] after)
    (absent : v ∉ (subst.zonk left).leaves) (absent' : v ∉ (subst.zonk right).leaves) :
    Spares v subst after := by
  have notInvolved : ¬ subst.Involves [(left, right)] v := by
    rintro ⟨pair, member, inPair⟩
    rw [List.mem_singleton.mp member] at inPair
    exact inPair.elim absent absent'
  refine ⟨unified.untouched notInvolved, fun plain outside inside => ?_⟩
  exact (unified.leaves plain inside).elim outside notInvolved

theorem Tame.unified_of_unify (tame : subst.Tame) {left right : Ty}
    (plain : left.FirstOrder subst.size) (plain' : right.FirstOrder subst.size)
    (result : Subst.unify left right subst = .ok () after) :
    subst.Unified [(left, right)] after := by
  have outcome := tame.outcome_unify plain plain'
  rw [result] at outcome
  exact outcome.1

end Sparing

section Gathering

def Gathers (walk : StateT Gathered Option PUnit) (leaf : TyVar → Prop) : Prop :=
  ∀ gathered, ∃ after, walk gathered = some ((), after) ∧ after.binders = gathered.binders ∧
    ∀ v, v ∈ after.leaves ↔ v ∈ gathered.leaves ∨ leaf v

theorem gathers_forM {items : List Ty} {walk : Ty → StateT Gathered Option PUnit}
    {leaf : Ty → TyVar → Prop} (each : ∀ t ∈ items, Gathers (walk t) (leaf t)) :
    Gathers (forM items walk) fun v => ∃ t ∈ items, leaf t v := by
  induction items with
  | nil => exact fun gathered => ⟨gathered, rfl, rfl, by simp⟩
  | cons t ts ih =>
    intro gathered
    obtain ⟨middle, first, binders, leaves⟩ := each t List.mem_cons_self gathered
    obtain ⟨after, rest, binders', leaves'⟩ :=
      ih (fun u member => each u (List.mem_cons_of_mem t member)) middle
    refine ⟨after, ?_, binders'.trans binders, fun v => ?_⟩
    · rw [List.forM_cons]
      change (walk t gathered).bind _ = _
      rw [first]
      exact rest
    · rw [leaves', leaves]
      simp [or_assoc]

theorem gather_self {ty : Ty} {bound : Nat} (plain : ty.FirstOrder bound)
    (notVar : ty.isVar = false) (depth : Nat) (gathered : Gathered) :
    subst.gather (depth + 1) ty gathered = some (ty.children, gathered) := by
  rw [gather, shallowWithin_self plain notVar]
  cases plain with
  | var _ => simp at notVar
  | arrow _ _ => rfl
  | tuple _ => rfl
  | nominal _ => rfl

theorem gathers_parts {ty : Ty} {bound : Nat} (plain : ty.FirstOrder bound)
    (notVar : ty.isVar = false) {depth : Nat} {leaf : Ty → TyVar → Prop}
    (each : ∀ t ∈ ty.children,
      Gathers (Agenda.descend (fun _ => none) subst.gather depth t) (leaf t)) :
    Gathers (Agenda.descend (fun _ => none) subst.gather (depth + 1) ty)
      fun v => ∃ t ∈ ty.children, leaf t v := by
  intro gathered
  obtain ⟨after, walk, rest⟩ := gathers_forM each gathered
  refine ⟨after, ?_, rest⟩
  rw [Agenda.descend]
  change (subst.gather (depth + 1) ty gathered).bind _ = _
  rw [gather_self plain notVar]
  exact walk

theorem Tame.gathers_leaves (tame : subst.Tame) {ty : Ty} (plain : ty.FirstOrder subst.size) :
    ∀ depth, (subst.zonk ty).height < depth →
      Gathers (Agenda.descend (fun _ => none) subst.gather depth ty)
        fun v => v ∈ (subst.zonk ty).leaves := by
  intro depth enough
  refine tame.walkInduction
    (motive := fun depth ty => Gathers (Agenda.descend (fun _ => none) subst.gather depth ty)
    fun v => v ∈ (subst.zonk ty).leaves) (fun depth v inside free gathered => ?_)
    (fun depth v ty inside plain cell notVar below gathered => ?_)
      (fun depth ty plain notVar each => ?_) plain enough
  · refine ⟨{ gathered with leaves := gathered.leaves.insert (subst.root v) }, ?_, rfl, fun w => ?_⟩
    · rw [Agenda.descend]
      change (subst.gather (depth + 1) (.var v) gathered).bind _ = _
      rw [gather, shallowWithin_free free]
      rfl
    · rw [tame.zonk_free inside free]
      simp [Ty.leaves, or_comm]
  · have same : subst.gather (depth + 2) (.var v) = subst.gather (depth + 2) ty := by
      funext gathered
      rw [gather, gather, tame.shallowWithin_solved cell, shallowWithin_self plain notVar]
    have below := below gathered
    rw [Agenda.descend] at below ⊢
    rwa [same, tame.zonk_solved inside cell]
  · simp only [tame.mem_leaves_zonk_iff_child plain notVar]
    exact gathers_parts plain notVar each

theorem Tame.exists_freeVars? (tame : subst.Tame) {ty : Ty} (plain : ty.FirstOrder subst.size) :
    ∃ vars, subst.freeVars? ty = some vars ∧ ∀ v, v ∈ vars ↔ v ∈ (subst.zonk ty).leaves := by
  have height := tame.height_zonk_le subst.solutionsWithin_mass plain
  have enough := subst.height_bound_lt_depthBound ty.size
  obtain ⟨after, walk, binders, leaves⟩ :=
    tame.gathers_leaves plain (subst.depthBound ty.size) (by omega) ⟨[], []⟩
  refine ⟨_, by rw [freeVars?, freeVarsWithin, Agenda.walk_singleton, walk], fun v => ?_⟩
  simp [binders, leaves]

theorem Tame.mem_freeVars (tame : subst.Tame) {ty : Ty} (plain : ty.FirstOrder subst.size)
    {v : TyVar} : v ∈ subst.freeVars ty ↔ v ∈ (subst.zonk ty).leaves := by
  obtain ⟨vars, walk, leaves⟩ := tame.exists_freeVars? plain
  rw [freeVars, walk]
  exact leaves v

theorem Tame.isSome_freeVars? (tame : subst.Tame) {ty : Ty} (plain : ty.FirstOrder subst.size) :
    (subst.freeVars? ty).isSome = true := by
  obtain ⟨vars, walk, -⟩ := tame.exists_freeVars? plain
  rw [walk]
  rfl

theorem Tame.exists_shallow? (tame : subst.Tame) {ty : Ty} (plain : ty.FirstOrder subst.size) :
    ∃ head, subst.shallow? ty = some head ∧ head.FirstOrder subst.size ∧
      subst.zonk head = subst.zonk ty := by
  have small : subst.SolutionsWithin (subst.mass + ty.size) := fun cell =>
    Nat.le_trans (subst.solutionsWithin_mass cell) (Nat.le_add_right _ _)
  obtain ⟨head, shallow, isHead⟩ := (ready_of_size_le plain (Nat.le_refl _)).head tame small
  exact ⟨head, shallow, isHead.plain, isHead.zonk⟩

theorem Tame.unsolved_of_shallow? (tame : subst.Tame) {ty : Ty} {v : TyVar}
    (plain : ty.FirstOrder subst.size) (walk : subst.shallow? ty = some (.var v)) :
      subst.Unsolved v := by
  have small : subst.SolutionsWithin (subst.mass + ty.size) := fun cell =>
    Nat.le_trans (subst.solutionsWithin_mass cell) (Nat.le_add_right _ _)
  obtain ⟨head, shallow, isHead⟩ := (ready_of_size_le plain (Nat.le_refl _)).head tame small
  exact isHead.unsolved (Option.some.inj (shallow.symm.trans walk))

theorem Tame.shallow_firstOrder (tame : subst.Tame) {ty : Ty} (plain : ty.FirstOrder subst.size) :
    (subst.shallow ty).FirstOrder subst.size ∧ subst.zonk (subst.shallow ty) = subst.zonk ty := by
  obtain ⟨head, walk, result⟩ := tame.exists_shallow? plain
  rw [Subst.shallow, walk]
  exact result

theorem Tame.opens_firstOrder (tame : subst.Tame) {ty : Ty} (plain : ty.FirstOrder subst.size) :
    subst.opens ty = true := by
  obtain ⟨head, walk, isHead, -⟩ := tame.exists_shallow? plain
  rw [opens, walk]
  cases isHead <;> rfl

end Gathering

end PolyCheck.Subst
