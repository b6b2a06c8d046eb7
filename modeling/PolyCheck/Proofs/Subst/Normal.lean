import PolyCheck.Proofs.Subst.Confined
import PolyCheck.Proofs.Subst.Sparing

/-! Types in normal form: all their variables are unsolved, and no function on types in them has
arguments that it could take. Resolution gives types in normal form. Resolving such a type again
changes nothing, as long as its variables stay unsolved, and the search for its free variables finds
them all. -/
namespace PolyCheck

namespace Subst

inductive Normal (subst : Subst) : Ty → Prop where
  | var {v : TyVar} (isNew : (subst.cell v).IsNew) : Normal subst (.var v)
  | arrow {param result : Ty} (fst : Normal subst param) (snd : Normal subst result) :
    Normal subst (.arrow param result)
  | tuple {elems : List Ty} (each : ∀ t ∈ elems, Normal subst t) : Normal subst (.tuple elems)
  | nominal {template : TemplateId} {args : List Ty} (each : ∀ t ∈ args, Normal subst t) :
    Normal subst (.nominal template args)
  | quantified {params : List TyVar} {body : Ty} (inside : Normal subst body) :
    Normal subst (.quantified params body)
  | app {head : Ty} {args : List Ty} (stuck : head.IsStuck) (fst : Normal subst head)
    (some : args ≠ []) (each : ∀ t ∈ args, Normal subst t) : Normal subst (.app head args)

variable {subst after : Subst} {binder free : TyVar → Prop} {ty head result : Ty} {args : List Ty}
  {depth : Nat} {v : TyVar}

theorem shallowWithin_isNew (isNew : (subst.cell v).IsNew) (depth : Nat) :
    subst.shallowWithin (depth + 1) (.var v) = some (.var v) := by
  have root := root_of_isNew isNew
  rw [shallowWithin, rootCell, root]
  cases cell : subst.cell v with
  | unbound | rigid _ => rfl
  | link _ | bound _ => exact absurd isNew (by simp [cell, Cell.IsNew])

section Again

theorem shallowWithin_stuck (stuck : head.IsStuck)
    (unsolved : ∀ x, head = .var x → (subst.cell x).IsNew) (depth : Nat) :
    subst.shallowWithin (depth + 1) head = some head := by
  cases head with
  | var x => exact shallowWithin_isNew (unsolved x rfl) depth
  | arrow _ _ | tuple _ | nominal _ _ => rfl
  | quantified _ _ | app _ _ => exact stuck.elim

theorem shallowWithin_stuck_app (stuck : head.IsStuck)
    (unsolved : ∀ x, head = .var x → (subst.cell x).IsNew)
    (args : List Ty) (depth : Nat) : subst.shallowWithin (depth + 2) (.app head args) = some
    (.app head args) := by
  rw [shallowWithin, shallowWithin_stuck stuck unsolved]
  cases head with
  | var _ | arrow _ _ | tuple _ | nominal _ _ => rfl
  | quantified _ _ | app _ _ => exact stuck.elim

theorem Normal.unsolved (normal : subst.Normal ty) : ∀ x, ty = .var x → (subst.cell x).IsNew := by
  rintro x rfl
  cases normal with
  | var isNew => exact isNew

theorem Normal.shallowWithin_stuck (normal : subst.Normal ty) (stuck : ty.IsStuck) (depth : Nat) :
    subst.shallowWithin (depth + 1) ty = some ty :=
  Subst.shallowWithin_stuck stuck normal.unsolved depth

theorem Normal.shallowWithin (normal : subst.Normal ty) (depth : Nat) :
    subst.shallowWithin (depth + 2) ty = some ty := by
  cases normal with
  | var isNew => exact shallowWithin_isNew isNew _
  | arrow _ _ | tuple _ | nominal _ | quantified _ => rfl
  | app stuck fst _ _ => exact shallowWithin_stuck_app stuck fst.unsolved _ depth

theorem apply_stuck (stuck : head.IsStuck) (some : args ≠ []) :
    head.apply args = .app head args := by
  cases args with
  | nil => exact absurd rfl some
  | cons arg args =>
    cases head with
    | var _ | arrow _ _ | tuple _ | nominal _ _ => rw [Ty.apply] <;> simp
    | quantified _ _ | app _ _ => exact stuck.elim

mutual

theorem height_le_size : ∀ ty : Ty, ty.height ≤ ty.size
  | .var _ => Nat.le_refl _
  | .arrow param result => by
    have := height_le_size param
    have := height_le_size result
    simp only [Ty.height, Ty.size]
    omega
  | .tuple elems => Nat.succ_le_succ (heightAll_le_sizeAll elems)
  | .nominal _ args => Nat.succ_le_succ (heightAll_le_sizeAll args)
  | .quantified _ body => Nat.succ_le_succ (height_le_size body)
  | .app head args => by
    have := height_le_size head
    have := heightAll_le_sizeAll args
    simp only [Ty.height, Ty.size]
    omega

theorem heightAll_le_sizeAll : ∀ types : List Ty, Ty.heightAll types ≤ Ty.sizeAll types
  | [] => Nat.le_refl _
  | ty :: types => by
    have := height_le_size ty
    have := heightAll_le_sizeAll types
    simp only [Ty.heightAll, Ty.sizeAll]
    omega

end

theorem Normal.zonkWithin (normal : subst.Normal ty) (enough : ty.height ≤ depth) :
    subst.zonkWithin depth ty = some ty := by
  induction depth generalizing ty with
  | zero => exact absurd enough (Nat.not_le_of_gt ty.height_pos)
  | succ depth ih =>
    have all : ∀ {types : List Ty}, (∀ t ∈ types, subst.Normal t) → Ty.heightAll types ≤ depth →
        List.Forall₂ (fun t r => subst.zonkWithin depth t = some r) types types :=
          fun each enough =>
      List.forall₂_same.mpr fun t member =>
        ih (each t member) ((Ty.height_le_heightAll member).trans enough)
    rw [zonkWithin_eq_some_iff]
    cases normal with
    | var isNew => exact ⟨_, shallowWithin_isNew isNew _, .var _⟩
    | arrow fst snd =>
      obtain ⟨low, low'⟩ := max_le_iff.mp (Nat.le_of_succ_le_succ enough)
      exact ⟨_, rfl, .arrow (ih fst low) (ih snd low')⟩
    | tuple each => exact ⟨_, rfl, .tuple (all each (Nat.le_of_succ_le_succ enough))⟩
    | nominal each => exact ⟨_, rfl, .nominal (all each (Nat.le_of_succ_le_succ enough))⟩
    | quantified inside => exact ⟨_, rfl, .quantified (ih inside (Nat.le_of_succ_le_succ enough))⟩
    | @app function args stuck fst some each =>
      obtain ⟨low, low'⟩ := max_le_iff.mp (Nat.le_of_succ_le_succ enough)
      obtain ⟨lower, rfl⟩ : ∃ lower, depth = lower + 1 :=
        Nat.exists_eq_succ_of_ne_zero (by have := function.height_pos; omega)
      have rebuilt := Rebuilt.app (ih fst low) (all each low')
      rw [apply_stuck stuck some] at rebuilt
      exact ⟨_, shallowWithin_stuck_app stuck fst.unsolved args lower, rebuilt⟩

theorem size_lt_depthBound (subst : Subst) (size : Nat) : size < subst.depthBound size := by
  have := subst.height_bound_lt_depthBound size
  omega

theorem Normal.zonk? (normal : subst.Normal ty) : subst.zonk? ty = some ty := by
  have enough := subst.size_lt_depthBound ty.size
  have low := height_le_size ty
  exact normal.zonkWithin (by omega)

theorem Normal.zonk (normal : subst.Normal ty) : subst.zonk ty = ty := by
  rw [Subst.zonk, normal.zonk?, Option.getD_some]

/-- The normal form lasts while the variables stay unsolved. -/
theorem Normal.of_cells (normal : subst.Normal ty) (confined : ty.Confined binder free)
    (unsolved : ∀ v, free v ∨ binder v → (subst.cell v).IsNew → (after.cell v).IsNew) :
    after.Normal ty := by
  induction confined with
  | var holds =>
    cases normal with
    | var isNew => exact .var (unsolved _ (.inl holds) isNew)
  | arrow _ _ ihParam ihResult =>
    cases normal with
    | arrow fst snd => exact .arrow (ihParam fst unsolved) (ihResult snd unsolved)
  | tuple _ ih =>
    cases normal with
    | tuple each => exact .tuple fun t member => ih t member (each t member) unsolved
  | nominal _ ih =>
    cases normal with
    | nominal each => exact .nominal fun t member => ih t member (each t member) unsolved
  | quantified params _ ih =>
    cases normal with
    | quantified inside =>
      refine .quantified (ih inside fun v shown => unsolved v ?_)
      rcases shown with (holds | member) | isBinder
      · exact .inl holds
      · exact .inr (params v member)
      · exact .inr isBinder
  | app _ _ ihHead ih =>
    cases normal with
    | app stuck fst some each =>
      exact .app stuck (ihHead fst unsolved) some fun t member =>
        ih t member (each t member) unsolved

end Again

section Results

theorem zonkWithin_isStuck (stuck : head.IsStuck)
    (unsolved : ∀ x, head = .var x → (subst.cell x).IsNew)
    (walk : subst.zonkWithin depth head = some result) : result.IsStuck := by
  cases depth with
  | zero => cases walk
  | succ depth =>
    obtain ⟨other, shallow, rebuilt⟩ := zonkWithin_eq_some_iff.mp walk
    obtain rfl := Option.some.inj (shallow.symm.trans (shallowWithin_stuck stuck unsolved depth))
    cases rebuilt with
    | var _ | arrow _ _ | tuple _ | nominal _ => trivial
    | quantified _ | app _ _ => exact stuck.elim

theorem LinksEnd.isStuck_of_head (ends : subst.LinksEnd) {outer : Nat}
    (shallow : subst.shallowWithin outer ty = some (.app head args))
    (walk : subst.zonkWithin depth head = some result) :
    result.IsStuck := by
  obtain ⟨stuck, unsolved⟩ := (ends.shallowWithin_head shallow).2 _ _ rfl
  exact zonkWithin_isStuck stuck unsolved walk

theorem LinksEnd.normal_zonkWithin (ends : subst.LinksEnd)
    (walk : subst.zonkWithin depth ty = some result) : subst.Normal result := by
  induction depth generalizing ty result with
  | zero => cases walk
  | succ depth ih =>
    obtain ⟨head, shallow, rebuilt⟩ := zonkWithin_eq_some_iff.mp walk
    have all : ∀ {types results : List Ty},
        List.Forall₂ (fun t r => subst.zonkWithin depth t = some r) types results → ∀ t ∈ results,
        subst.Normal t :=
      fun walks => forall_of_forall₂ walks (fun _ _ => trivial) fun _ _ _ => ih
    cases rebuilt with
    | var x => exact .var ((ends.shallowWithin_head shallow).1 x rfl)
    | arrow first second => exact .arrow (ih first) (ih second)
    | tuple walks => exact .tuple (all walks)
    | nominal walks => exact .nominal (all walks)
    | quantified within => exact .quantified (ih within)
    | @app _ function _ results first walks =>
      rcases eq_or_ne results [] with rfl | some
      · rw [Ty.apply]
        exact ih first
      · have stuck := ends.isStuck_of_head shallow first
        rw [apply_stuck stuck some]
        exact .app stuck (ih first) some (all walks)

/-- A walk of a given depth gives types of no more levels, whatever the type. -/
theorem LinksEnd.height_zonkWithin (ends : subst.LinksEnd)
    (walk : subst.zonkWithin depth ty = some result) : result.height ≤ depth := by
  induction depth generalizing ty result with
  | zero => cases walk
  | succ depth ih =>
    obtain ⟨head, shallow, rebuilt⟩ := zonkWithin_eq_some_iff.mp walk
    have all : ∀ {types results : List Ty},
        List.Forall₂ (fun t r => subst.zonkWithin depth t = some r) types results →
        Ty.heightAll results ≤ depth :=
      fun walks => Ty.heightAll_le (forall_of_forall₂ walks (fun _ _ => trivial) fun _ _ _ => ih)
    cases rebuilt with
    | var _ => exact Nat.succ_le_succ (Nat.zero_le _)
    | arrow first second => exact Nat.succ_le_succ (max_le (ih first) (ih second))
    | tuple walks => exact Nat.succ_le_succ (all walks)
    | nominal walks => exact Nat.succ_le_succ (all walks)
    | quantified within => exact Nat.succ_le_succ (ih within)
    | @app _ function _ results first walks =>
      rcases eq_or_ne results [] with rfl | some
      · rw [Ty.apply]
        exact Nat.le_succ_of_le (ih first)
      · rw [apply_stuck (ends.isStuck_of_head shallow first) some]
        exact Nat.succ_le_succ (max_le (ih first) (all walks))

/-- A type whose resolution has ended is resolved, when it can be told that it has. -/
theorem LinksEnd.normal_zonk (ends : subst.LinksEnd)
    (ended : subst.zonkWithin (subst.depthBound (subst.zonk ty).size) (subst.zonk ty) ≠ none) :
    subst.Normal (subst.zonk ty) := by
  cases walk : subst.zonkWithin (subst.depthBound ty.size) ty with
  | some result =>
    rw [Subst.zonk, Subst.zonk?, walk]
    exact ends.normal_zonkWithin walk
  | none =>
    have same : subst.zonk ty = ty := by rw [Subst.zonk, Subst.zonk?, walk]; rfl
    rw [same] at ended
    exact absurd walk ended

/-- A type that can be resolved when it has been resolved twice was in normal form the first
time. -/
theorem LinksEnd.normal_zonk_twice (ends : subst.LinksEnd)
    (ended : subst.zonkWithin (subst.depthBound (subst.zonk (subst.zonk ty)).size)
      (subst.zonk (subst.zonk ty)) ≠ none) : subst.Normal (subst.zonk ty) := by
  refine ends.normal_zonk fun walk => ?_
  have same : subst.zonk (subst.zonk ty) = subst.zonk ty := by
    conv_lhs => rw [Subst.zonk, Subst.zonk?, walk]
    rfl
  rw [same] at ended
  exact ended walk

end Results

section Cells

variable (same : after.cells = subst.cells)
include same

theorem root_of_cells (v : TyVar) : after.root v = subst.root v := by
  rw [root, root, size, size, same]
  exact rootWithin_congr (fun v w => by rw [cell, cell, same]) _ v

theorem rootCell_of_cells (v : TyVar) : after.rootCell v = subst.rootCell v := by
  rw [rootCell, rootCell, root_of_cells same, cell, cell, same]

theorem zonkWithin_of_cells (depth : Nat) (ty : Ty) :
    after.zonkWithin depth ty = subst.zonkWithin depth ty :=
  zonkWithin_congr (root_of_cells same) (fun v _ => by rw [rootCell_of_cells same v]) depth ty

theorem depthBound_of_cells (size : Nat) : after.depthBound size = subst.depthBound size := by
  rw [depthBound, depthBound, Subst.size, Subst.size, after.mass_eq, subst.mass_eq, same]

end Cells

section Search

/-- What has been noted: free variables and parameters of the quantifiers met, of which each is
one. -/
structure Noted (binder free : TyVar → Prop) (gathered : Gathered) : Prop where
  leaves : ∀ v ∈ gathered.leaves, free v ∨ v ∈ gathered.binders
  binders : ∀ v ∈ gathered.binders, binder v

theorem Confines.gather (confines : subst.Confines binder free) {gathered noted : Gathered}
    {below : List Ty} (known : Noted binder free gathered)
    (confined : ty.Confined binder fun v => free v ∨ v ∈ gathered.binders)
    (run : subst.gather depth ty gathered = some (below, noted)) :
    Noted binder free noted ∧ gathered.binders ⊆ noted.binders ∧
      ∀ t ∈ below, t.Confined binder fun v => free v ∨ v ∈ noted.binders := by
  have confines' := confines.extend fun v member => confines.binders (known.binders v member)
  rw [Subst.gather] at run
  cases walk : subst.shallowWithin depth ty with
  | none => simp [walk] at run
  | some head =>
    rw [walk] at run
    cases confines'.shallowWithin confined walk with
    | var holds =>
      obtain ⟨rfl, rfl⟩ := Prod.mk.inj (Option.some.inj run)
      refine ⟨⟨fun w member => ?_, known.binders⟩, List.Subset.refl _, List.forall_mem_nil _⟩
      rcases List.mem_insert_iff.mp member with same | old
      · exact same ▸ holds
      · exact known.leaves w old
    | arrow fst snd =>
      obtain ⟨rfl, rfl⟩ := Prod.mk.inj (Option.some.inj run)
      exact ⟨known, List.Subset.refl _, by simp [Ty.children, fst, snd]⟩
    | tuple each | nominal each =>
      obtain ⟨rfl, rfl⟩ := Prod.mk.inj (Option.some.inj run)
      exact ⟨known, List.Subset.refl _, each⟩
    | @quantified _ params body binders inside =>
      obtain ⟨rfl, rfl⟩ := Prod.mk.inj (Option.some.inj run)
      have roots : params.map subst.root = params :=
        (List.map_congr_left fun v member =>
          root_of_isNew (confines.binders (binders v member))).trans (List.map_id params)
      rw [roots]
      refine ⟨⟨fun v member => ?_, fun v member => ?_⟩, List.subset_append_right _ _,
        List.forall_mem_singleton.mpr (inside.imp fun v shown => ?_)⟩
      · exact (known.leaves v member).imp_right (List.mem_append_right _)
      · exact (List.mem_append.mp member).elim (binders v) (known.binders v)
      · rcases shown with (holds | old) | own
        · exact .inl holds
        · exact .inr (List.mem_append_right _ old)
        · exact .inr (List.mem_append_left _ own)
    | app fst each =>
      obtain ⟨rfl, rfl⟩ := Prod.mk.inj (Option.some.inj run)
      exact ⟨known, List.Subset.refl _, List.forall_mem_cons.mpr ⟨fst, each⟩⟩

theorem Confines.descend (confines : subst.Confines binder free) {gathered noted : Gathered}
    (known : Noted binder free gathered)
    (confined : ty.Confined binder fun v => free v ∨ v ∈ gathered.binders)
    (run : Agenda.descend (fun _ => none) subst.gather depth ty gathered = some ((), noted)) :
    Noted binder free noted ∧ gathered.binders ⊆ noted.binders := by
  induction depth generalizing ty gathered noted with
  | zero => cases run
  | succ depth ih =>
    rw [Agenda.descend] at run
    obtain ⟨⟨below, middle⟩, first, rest⟩ := Option.bind_eq_some_iff.mp run
    obtain ⟨known', subset, each⟩ := confines.gather known confined first
    clear run first known confined
    induction below generalizing middle with
    | nil =>
      obtain ⟨-, rfl⟩ := Prod.mk.inj (Option.some.inj rest)
      exact ⟨known', subset⟩
    | cons t below ihBelow =>
      dsimp only at rest
      rw [List.forM_cons] at rest
      obtain ⟨⟨⟨⟩, next⟩, here, others⟩ := Option.bind_eq_some_iff.mp rest
      obtain ⟨confined, each'⟩ := List.forall_mem_cons.mp each
      obtain ⟨known', subset'⟩ := ih known' confined here
      refine ihBelow next others known' (fun v member => subset' (subset member)) fun u member => ?_
      exact (each' u member).imp fun v => Or.imp_right fun inside => subset' inside

theorem Confines.mem_freeVars (confines : subst.Confines binder free)
    (confined : ty.Confined binder free) (member : v ∈ subst.freeVars ty) : free v := by
  rw [freeVars, freeVars?, freeVarsWithin, Agenda.walk_singleton] at member
  cases run : Agenda.descend (fun _ => none) subst.gather (subst.depthBound ty.size) ty
    ⟨[], []⟩ with
  | none => simp [run] at member
  | some result =>
    obtain ⟨⟨⟩, noted⟩ := result
    obtain ⟨known, -⟩ := confines.descend ⟨by simp, by simp⟩ (confined.imp fun _ => .inl) run
    simp only [run, Option.getD_some, List.mem_filter, List.mem_reverse] at member
    exact (known.leaves v member.1).resolve_right (by simpa using member.2)

/-- A walk that ends, keeps what was noted before, and notes all free variables of a type. -/
def Finds (binder free : TyVar → Prop) (walk : StateT Gathered Option PUnit) (ty : Ty) : Prop :=
  ∀ gathered, ∃ noted, walk gathered = some ((), noted) ∧ gathered.leaves ⊆ noted.leaves ∧
    (∀ v ∈ noted.binders, v ∈ gathered.binders ∨ binder v) ∧
    ty.Confined binder fun v => free v ∧ v ∈ noted.leaves

theorem finds_forM {walk : Ty → StateT Gathered Option PUnit} {types : List Ty}
    (each : ∀ t ∈ types, Finds binder free (walk t) t) (gathered : Gathered) :
    ∃ noted, forM types walk gathered = some ((), noted) ∧ gathered.leaves ⊆ noted.leaves ∧
      (∀ v ∈ noted.binders, v ∈ gathered.binders ∨ binder v) ∧
      ∀ t ∈ types, t.Confined binder fun v => free v ∧ v ∈ noted.leaves := by
  induction types generalizing gathered with
  | nil => exact ⟨gathered, rfl, List.Subset.refl _, fun _ => .inl, nofun⟩
  | cons t types ih =>
    obtain ⟨middle, first, subset, binders, here⟩ := each t List.mem_cons_self gathered
    obtain ⟨noted, rest, subset', binders', others⟩ :=
      ih (fun other member => each other (List.mem_cons_of_mem t member)) middle
    refine ⟨noted, ?_, fun v member => subset' (subset member), fun v member => ?_,
      List.forall_mem_cons.mpr ⟨?_, others⟩⟩
    · rw [List.forM_cons]
      change (walk t gathered).bind _ = _
      rw [first]
      exact rest
    · exact (binders' v member).elim (binders v) .inr
    · exact here.imp fun v => And.imp_right fun member => subset' member

theorem finds_parts {gathered middle noted : Gathered} {below : List Ty}
    (first : subst.gather (depth + 1) ty gathered = some (below, middle))
    (rest : forM below (Agenda.descend (fun _ => none) subst.gather depth) middle =
      some ((), noted)) :
    Agenda.descend (fun _ => none) subst.gather (depth + 1) ty gathered = some ((), noted) := by
  rw [Agenda.descend]
  change (subst.gather (depth + 1) ty gathered).bind _ = _
  rw [first]
  exact rest

theorem Normal.finds (normal : subst.Normal ty) (binders : ∀ v, binder v → (subst.cell v).IsNew)
    (confined : ty.Confined binder free) (enough : ty.size < depth) :
    Finds binder free (Agenda.descend (fun _ => none) subst.gather depth ty) ty := by
  intro gathered
  induction confined generalizing depth gathered with
  | @var free v holds =>
    obtain ⟨rest, rfl⟩ : ∃ rest, depth = rest + 1 := ⟨depth - 1, by omega⟩
    cases normal with
    | var isNew =>
      have first : subst.gather (rest + 1) (.var v) gathered =
          some ([], { gathered with leaves := gathered.leaves.insert v }) := by
        rw [Subst.gather, shallowWithin_isNew isNew]
      refine ⟨_, finds_parts first rfl, fun w => List.mem_insert_of_mem, fun _ => .inl,
        .var ⟨holds, ?_⟩⟩
      exact List.mem_insert_self
  | @arrow free param result fst snd ihParam ihResult =>
    simp only [Ty.size] at enough
    obtain ⟨rest, rfl⟩ : ∃ rest, depth = rest + 1 := ⟨depth - 1, by omega⟩
    cases normal with
    | arrow normal normal' =>
      have each : ∀ t ∈ [param, result],
          Finds binder free (Agenda.descend (fun _ => none) subst.gather rest t) t := by
        refine List.forall_mem_cons.mpr ⟨?_, List.forall_mem_singleton.mpr ?_⟩
        · exact fun gathered => ihParam normal (by omega) gathered
        · exact fun gathered => ihResult normal' (by omega) gathered
      obtain ⟨noted, walk, subset, params, found⟩ := finds_forM each gathered
      exact ⟨noted, finds_parts rfl walk, subset, params,
        .arrow (found _ (by simp)) (found _ (by simp))⟩
  | @tuple free elems each ih =>
    simp only [Ty.size] at enough
    obtain ⟨rest, rfl⟩ : ∃ rest, depth = rest + 1 := ⟨depth - 1, by omega⟩
    have lower : ∀ t ∈ elems, t.size < rest := fun t member => by
      have := Ty.size_le_sizeAll member
      omega
    cases normal with
    | tuple normal =>
      obtain ⟨noted, walk, subset, params, found⟩ := finds_forM (fun t member gathered =>
        ih t member (normal t member) (lower t member) gathered) gathered
      exact ⟨noted, finds_parts rfl walk, subset, params, .tuple found⟩
  | @nominal free template args each ih =>
    simp only [Ty.size] at enough
    obtain ⟨rest, rfl⟩ : ∃ rest, depth = rest + 1 := ⟨depth - 1, by omega⟩
    have lower : ∀ t ∈ args, t.size < rest := fun t member => by
      have := Ty.size_le_sizeAll member
      omega
    cases normal with
    | nominal normal =>
      obtain ⟨noted, walk, subset, params, found⟩ := finds_forM (fun t member gathered =>
        ih t member (normal t member) (lower t member) gathered) gathered
      exact ⟨noted, finds_parts rfl walk, subset, params, .nominal found⟩
  | @quantified free params body isBinder inside ih =>
    simp only [Ty.size] at enough
    obtain ⟨rest, rfl⟩ : ∃ rest, depth = rest + 1 := ⟨depth - 1, by omega⟩
    cases normal with
    | quantified normal =>
      obtain ⟨noted, walk, subset, params', found⟩ := ih normal (by omega : body.size < rest)
        { gathered with binders := params.map subst.root ++ gathered.binders }
      have rest : forM [body] (Agenda.descend (fun _ => none) subst.gather rest)
          { gathered with binders := params.map subst.root ++ gathered.binders } =
          some ((), noted) := by
        rw [List.forM_cons]
        change (Agenda.descend (fun _ => none) subst.gather rest body _).bind _ = _
        rw [walk]
        rfl
      refine ⟨noted, finds_parts rfl rest, subset, fun v member => ?_, .quantified isBinder ?_⟩
      · rcases params' v member with new | old
        · rcases List.mem_append.mp new with own | old
          · obtain ⟨param, isParam, rfl⟩ := List.mem_map.mp own
            rw [root_of_isNew (binders param (isBinder param isParam))]
            exact .inr (isBinder param isParam)
          · exact .inl old
        · exact .inr old
      · exact found.imp fun v shown => shown.1.imp_left fun holds => ⟨holds, shown.2⟩
  | @app free head args fst each ihHead ih =>
    simp only [Ty.size] at enough
    obtain ⟨rest, rfl⟩ : ∃ rest, depth = rest + 2 := ⟨depth - 2, by omega⟩
    have first : subst.gather (rest + 1 + 1) (.app head args) gathered = some (head :: args,
        gathered) := by
      rw [Subst.gather, normal.shallowWithin]
      rfl
    cases normal with
    | app stuck normal some normal' =>
      have parts : ∀ t ∈ head :: args,
          Finds binder free (Agenda.descend (fun _ => none) subst.gather (rest + 1) t) t := by
        refine List.forall_mem_cons.mpr ⟨fun gathered => ihHead normal (by omega) gathered, ?_⟩
        exact fun t member gathered =>
          ih t member (normal' t member) (by have := Ty.size_le_sizeAll member; omega) gathered
      obtain ⟨noted, walk, subset, params, found⟩ := finds_forM parts gathered
      obtain ⟨found, found'⟩ := List.forall_mem_cons.mp found
      exact ⟨noted, finds_parts first walk, subset, params, .app found found'⟩

theorem Normal.confined_isNew (normal : subst.Normal ty) (confined : ty.Confined binder free) :
    ty.Confined binder fun v => free v ∧ (subst.cell v).IsNew := by
  induction confined with
  | var holds =>
    cases normal with
    | var isNew => exact .var ⟨holds, isNew⟩
  | arrow _ _ ihParam ihResult =>
    cases normal with
    | arrow fst snd => exact .arrow (ihParam fst) (ihResult snd)
  | tuple _ ih =>
    cases normal with
    | tuple each => exact .tuple fun t member => ih t member (each t member)
  | nominal _ ih =>
    cases normal with
    | nominal each => exact .nominal fun t member => ih t member (each t member)
  | quantified params _ ih =>
    cases normal with
    | quantified inside =>
      exact .quantified params ((ih inside).imp fun v shown =>
        shown.1.imp_left fun holds => ⟨holds, shown.2⟩)
  | app _ _ ihHead ih =>
    cases normal with
    | app _ fst _ each => exact .app (ihHead fst) fun t member => ih t member (each t member)

theorem confines_isNew (binders : ∀ v, binder v → (subst.cell v).IsNew) {free : TyVar → Prop}
    (unsolved : ∀ v, free v → (subst.cell v).IsNew) : subst.Confines binder free where
  linked {v w} holds cell := by
    have isNew := unsolved v holds
    rw [cell] at isNew
    exact isNew.elim
  solved {v ty} holds cell := by
    have isNew := unsolved v holds
    rw [cell] at isNew
    exact isNew.elim
  binders := binders _

theorem Normal.confined_freeVars (normal : subst.Normal ty)
    (binders : ∀ v, binder v → (subst.cell v).IsNew ∧ ¬ free v)
    (confined : ty.Confined binder free) :
    ty.Confined binder (· ∈ subst.freeVars ty) := by
  obtain ⟨noted, walk, -, params, found⟩ :=
    normal.finds (fun v isBinder => (binders v isBinder).1) confined
      (subst.size_lt_depthBound ty.size) ⟨[], []⟩
  refine found.imp fun v shown => ?_
  have open_ : v ∉ noted.binders := fun member =>
    (params v member).elim List.not_mem_nil fun isBinder => (binders v isBinder).2 shown.1
  rw [freeVars, freeVars?, freeVarsWithin, Agenda.walk_singleton, walk]
  simpa using ⟨shown.2, open_⟩

end Search

end Subst

end PolyCheck
