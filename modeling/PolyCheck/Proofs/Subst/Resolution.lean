import PolyCheck.Proofs.Subst.Acyclic
import PolyCheck.Proofs.Subst.Walks

/-! First-order types seen through cells without cycles. The bounds on depth that the walks take are
never reached there, so full resolution is the plain recursion over solutions: it is determined by
what it makes of the variables, its leaves are unsolved roots, and the occurs test asks for one of
them. -/
namespace PolyCheck.Subst

variable {subst : Subst}

/-- Every solution has at most so many nodes. -/
def SolutionsWithin (subst : Subst) (bound : Nat) : Prop :=
  ∀ {v : TyVar} {ty : Ty}, subst.cell v = .bound ty → ty.size ≤ bound

theorem solutionsWithin_mass (subst : Subst) : subst.SolutionsWithin subst.mass := by
  intro v ty cell
  have inside := inside_of_cell cell (by simp)
  have inList : v.index < (subst.cells.toList.map Cell.size).length := by
    simpa [size] using inside
  have entry := getElem_le_total (subst.cells.toList.map Cell.size) v.index inList
  rw [Subst.cell, Array.getElem?_eq_getElem inside, Option.getD_some] at cell
  rw [List.getElem_map, Array.getElem_toList] at entry
  rw [subst.mass_eq, cellMass]
  exact Nat.le_trans (Nat.le_of_eq (congrArg Cell.size cell).symm) entry

section Head

theorem shallowWithin_self {ty : Ty} {bound : Nat} (plain : ty.FirstOrder bound)
    (notVar : ty.isVar = false) (depth : Nat) : subst.shallowWithin (depth + 1) ty = some ty := by
  cases plain with
  | var _ => simp at notVar
  | arrow _ _ => rfl
  | tuple _ => rfl
  | nominal _ => rfl

theorem shallowWithin_free {v : TyVar} (free : ∀ ty, subst.rootCell v ≠ .bound ty) (depth : Nat) :
    subst.shallowWithin (depth + 1) (.var v) = some (.var (subst.root v)) := by
  rw [shallowWithin]
  split
  · rename_i solved cell
    exact absurd cell (free solved)
  · rfl

theorem shallow?_of_head {ty : Ty} (head : ∀ depth, subst.shallowWithin (depth + 1) ty = some ty) :
    subst.shallow? ty = some ty := by
  obtain ⟨depth, bound⟩ : ∃ depth, subst.depthBound ty.size = depth + 1 :=
    Nat.exists_eq_succ_of_ne_zero (by simp [depthBound, reductionAllowance])
  rw [shallow?, bound, head]

theorem Tame.shallowWithin_solved (tame : subst.Tame) {v : TyVar} {ty : Ty}
    (cell : subst.rootCell v = .bound ty) (depth : Nat) :
    subst.shallowWithin (depth + 2) (.var v) = some ty := by
  obtain ⟨plain, notVar⟩ := tame.solved cell
  rw [shallowWithin, cell]
  exact shallowWithin_self plain notVar depth

end Head

section Depth

variable {ty result : Ty} {depth depth' : Nat}

/-- A walk that has ended goes the same way when it may go deeper. -/
theorem shallowWithin_mono (le : depth ≤ depth')
    (walk : subst.shallowWithin depth ty = some result) :
    subst.shallowWithin depth' ty = some result := by
  induction depth generalizing ty result depth' with
  | zero => simp [shallowWithin] at walk
  | succ depth ih =>
    obtain ⟨deeper, rfl⟩ : ∃ deeper, depth' = deeper + 1 := ⟨depth' - 1, by omega⟩
    have le' : depth ≤ deeper := by omega
    cases ty with
    | var v =>
      rw [shallowWithin] at walk ⊢
      cases cell : subst.rootCell v with
      | bound solved =>
        simp only [cell] at walk ⊢
        exact ih le' walk
      | unbound | rigid _ | link _ =>
        simp only [cell] at walk ⊢
        exact walk
    | app head args =>
      rw [shallowWithin] at walk ⊢
      cases inner : subst.shallowWithin depth head with
      | none => simp [inner] at walk
      | some function =>
        rw [inner] at walk
        rw [ih le' inner]
        cases function with
        | quantified params body => exact ih le' walk
        | var _ | arrow _ _ | tuple _ | nominal _ _ | app _ _ => exact walk
    | arrow _ _ | tuple _ | nominal _ _ | quantified _ _ => exact walk

theorem shallowWithin_unique {result' : Ty} (walk : subst.shallowWithin depth ty = some result)
    (walk' : subst.shallowWithin depth' ty = some result') : result = result' := by
  have first := shallowWithin_mono (Nat.le_max_left depth depth') walk
  have second := shallowWithin_mono (Nat.le_max_right depth depth') walk'
  exact Option.some.inj (first.symm.trans second)

theorem zonkWithin_mono (le : depth ≤ depth') (walk : subst.zonkWithin depth ty = some result) :
    subst.zonkWithin depth' ty = some result := by
  induction depth generalizing ty result depth' with
  | zero => cases walk
  | succ depth ih =>
    obtain ⟨deeper, rfl⟩ : ∃ deeper, depth' = deeper + 1 := ⟨depth' - 1, by omega⟩
    obtain ⟨head, shallow, rebuilt⟩ := zonkWithin_eq_some_iff.mp walk
    exact zonkWithin_eq_some_iff.mpr ⟨head, shallowWithin_mono le shallow,
      rebuilt.mono fun _ _ => ih (by omega)⟩

end Depth

section Zonk

theorem mapM_eq_some_map {α β : Type} {f : α → Option β} {g : α → β} {items : List α}
    (each : ∀ item ∈ items, f item = some (g item)) : items.mapM f = some (items.map g) := by
  induction items with
  | nil => rfl
  | cons item items ih =>
    rw [List.mapM_cons, each item List.mem_cons_self,
      ih fun other member => each other (List.mem_cons_of_mem item member)]
    rfl

theorem mapM_eventually {types : List Ty} {slack : Nat} {walk : Nat → Ty → Option Ty}
    (each : ∀ t ∈ types, ∃ result : Ty, result.height ≤ t.size + slack ∧
      ∀ depth, t.size + slack < depth → walk depth t = some result) :
    ∃ results : List Ty, Ty.heightAll results ≤ Ty.sizeAll types + slack ∧
      ∀ depth, Ty.sizeAll types + slack < depth → types.mapM (walk depth) = some results := by
  induction types with
  | nil => exact ⟨[], Nat.zero_le _, fun _ _ => rfl⟩
  | cons t ts ih =>
    obtain ⟨first, heightFirst, walkFirst⟩ := each t List.mem_cons_self
    obtain ⟨rest, heightRest, walkRest⟩ :=
      ih fun u member => each u (List.mem_cons_of_mem t member)
    refine ⟨first :: rest, by simp only [Ty.heightAll, Ty.sizeAll]; omega, fun depth enough => ?_⟩
    simp only [Ty.sizeAll] at enough
    rw [List.mapM_cons, walkFirst depth (by omega), walkRest depth (by omega)]
    rfl

/-- From some depth on the walk gives one result. The depth grows with the rank of the leaves: each
solution on the way adds at most its own size. -/
theorem Tame.zonkWithin_eventually (tame : subst.Tame) {mass : Nat}
    (small : subst.SolutionsWithin mass) {ty : Ty} (plain : ty.FirstOrder subst.size) :
    ∀ rank, (∀ v ∈ ty.leaves, subst.rank v < rank) →
      ∃ result : Ty, result.height ≤ ty.size + rank * mass ∧
        ∀ depth, ty.size + rank * mass < depth → subst.zonkWithin depth ty = some result := by
  induction plain using tame.resolveInduction with
  | free v inside free =>
    intro rank _
    refine ⟨.var (subst.root v), by simp [Ty.height, Ty.size], fun depth enough => ?_⟩
    obtain ⟨rest, rfl⟩ : ∃ rest, depth = rest + 1 := ⟨depth - 1, by omega⟩
    rw [zonkWithin, shallowWithin_free free]
    rfl
  | solved v ty inside plain cell notVar ih =>
    intro rank ranked
    have own := ranked v (by simp [Ty.leaves])
    have root := tame.rank_root_le v
    obtain ⟨below, rfl⟩ : ∃ below, rank = below + 1 := ⟨rank - 1, by omega⟩
    obtain ⟨result, height, walk⟩ := ih below fun w member => by
      have := tame.rank_lt (uses_of_bound cell member)
      omega
    have size : ty.size ≤ mass := small cell
    have sizePos := ty.size_pos
    have product : (below + 1) * mass = below * mass + mass := Nat.succ_mul _ _
    refine ⟨result, by omega, fun depth enough => ?_⟩
    obtain ⟨rest, rfl⟩ : ∃ rest, depth = rest + 2 := ⟨depth - 2, by omega⟩
    rw [← walk (rest + 2) (by omega), zonkWithin, zonkWithin, tame.shallowWithin_solved cell,
      shallowWithin_self plain notVar]
  | arrow param result fst snd ihParam ihResult =>
    intro rank ranked
    obtain ⟨p, heightParam, walkParam⟩ :=
      ihParam rank fun v member => ranked v (by simp [Ty.leaves, member])
    obtain ⟨r, heightResult, walkResult⟩ :=
      ihResult rank fun v member => ranked v (by simp [Ty.leaves, member])
    refine ⟨.arrow p r, by simp only [Ty.height, Ty.size]; omega, fun depth enough => ?_⟩
    simp only [Ty.size] at enough
    obtain ⟨rest, rfl⟩ : ∃ rest, depth = rest + 1 := ⟨depth - 1, by omega⟩
    rw [zonkWithin, shallowWithin_self (.arrow fst snd) rfl]
    simp [walkParam rest (by omega), walkResult rest (by omega)]
  | tuple elems each ih =>
    intro rank ranked
    obtain ⟨results, heights, walk⟩ := mapM_eventually fun t member =>
      ih t member rank fun v inLeaves =>
        ranked v (by rw [Ty.leaves]; exact Ty.mem_leavesAll.mpr ⟨t, member, inLeaves⟩)
    refine ⟨.tuple results, by simp only [Ty.height, Ty.size]; omega, fun depth enough => ?_⟩
    simp only [Ty.size] at enough
    obtain ⟨rest, rfl⟩ : ∃ rest, depth = rest + 1 := ⟨depth - 1, by omega⟩
    rw [zonkWithin, shallowWithin_self (.tuple each) rfl]
    simp [walk rest (by omega)]
  | nominal template args each ih =>
    intro rank ranked
    obtain ⟨results, heights, walk⟩ := mapM_eventually fun t member =>
      ih t member rank fun v inLeaves =>
        ranked v (by rw [Ty.leaves]; exact Ty.mem_leavesAll.mpr ⟨t, member, inLeaves⟩)
    refine ⟨.nominal template results, by simp only [Ty.height, Ty.size]; omega,
      fun depth enough => ?_⟩
    simp only [Ty.size] at enough
    obtain ⟨rest, rfl⟩ : ∃ rest, depth = rest + 1 := ⟨depth - 1, by omega⟩
    rw [zonkWithin, shallowWithin_self (.nominal each) rfl]
    simp [walk rest (by omega)]

theorem Tame.rank_leaf_lt (tame : subst.Tame) {ty : Ty} (plain : ty.FirstOrder subst.size) :
    ∀ v ∈ ty.leaves, subst.rank v < subst.size :=
  fun v member => tame.rank_lt_size (plain.inside v member)

theorem height_bound_lt_depthBound (subst : Subst) (size : Nat) :
    size + subst.size * subst.mass < subst.depthBound size := by
  have allowance : 0 < reductionAllowance := by decide
  rw [depthBound]
  simp only [Nat.succ_mul, Nat.mul_add]
  omega

theorem Tame.zonkWithin_eq (tame : subst.Tame) {ty : Ty} (plain : ty.FirstOrder subst.size)
    (depth : Nat) (enough : ty.size + subst.size * subst.mass < depth) :
    subst.zonkWithin depth ty = some (subst.zonk ty) := by
  obtain ⟨result, -, walk⟩ := tame.zonkWithin_eventually subst.solutionsWithin_mass plain
    subst.size (tame.rank_leaf_lt plain)
  rw [zonk, zonk?, walk _ (subst.height_bound_lt_depthBound ty.size), walk _ enough]
  rfl

theorem Tame.zonk?_eq (tame : subst.Tame) {ty : Ty} (plain : ty.FirstOrder subst.size) :
    subst.zonk? ty = some (subst.zonk ty) :=
  tame.zonkWithin_eq plain _ (subst.height_bound_lt_depthBound ty.size)

theorem Tame.height_zonk_le (tame : subst.Tame) {mass : Nat} (small : subst.SolutionsWithin mass)
    {ty : Ty} (plain : ty.FirstOrder subst.size) :
    (subst.zonk ty).height ≤ ty.size + subst.size * mass := by
  obtain ⟨result, height, walk⟩ := tame.zonkWithin_eventually small plain
    subst.size (tame.rank_leaf_lt plain)
  have same : subst.zonk ty = result := by
    have here := walk (ty.size + subst.size * mass + (ty.size + subst.size * subst.mass) + 1)
      (by omega)
    rw [tame.zonkWithin_eq plain _ (by omega)] at here
    exact Option.some.inj here
  rwa [same]

theorem Tame.zonk_solved (tame : subst.Tame) {v : TyVar} {ty : Ty} (inside : v.index < subst.size)
    (cell : subst.rootCell v = .bound ty) : subst.zonk (.var v) = subst.zonk ty := by
  obtain ⟨plain, notVar⟩ := tame.solved cell
  let depth := (Ty.var v).size + ty.size + subst.size * subst.mass
  have left := tame.zonkWithin_eq (.var inside) (depth + 2) (by omega)
  have right := tame.zonkWithin_eq plain (depth + 2) (by omega)
  rw [zonkWithin, tame.shallowWithin_solved cell] at left
  rw [zonkWithin, shallowWithin_self plain notVar] at right
  exact Option.some.inj (left.symm.trans right)

theorem Tame.zonk_free (tame : subst.Tame) {v : TyVar} (inside : v.index < subst.size)
    (free : ∀ ty, subst.rootCell v ≠ .bound ty) : subst.zonk (.var v) = .var (subst.root v) := by
  have walk := tame.zonkWithin_eq (.var inside) _ (Nat.lt_succ_self _)
  rw [zonkWithin, shallowWithin_free free] at walk
  exact (Option.some.inj walk).symm

theorem Tame.zonk_arrow (tame : subst.Tame) {param result : Ty}
    (fst : param.FirstOrder subst.size) (snd : result.FirstOrder subst.size) :
    subst.zonk (.arrow param result) = .arrow (subst.zonk param) (subst.zonk result) := by
  let depth := (Ty.arrow param result).size + subst.size * subst.mass
  have walk := tame.zonkWithin_eq (.arrow fst snd) (depth + 1) (by omega)
  have sizes : (Ty.arrow param result).size = param.size + result.size + 1 := rfl
  rw [zonkWithin, shallowWithin_self (.arrow fst snd) rfl] at walk
  simp only [Option.bind_eq_bind, Option.bind_some,
    tame.zonkWithin_eq fst depth (by omega),
    tame.zonkWithin_eq snd depth (by omega)] at walk
  exact (Option.some.inj walk).symm

theorem Tame.zonkWithin_mapM (tame : subst.Tame) {types : List Ty}
    (each : ∀ t ∈ types, t.FirstOrder subst.size) (depth : Nat)
    (enough : Ty.sizeAll types + subst.size * subst.mass < depth) :
    types.mapM (subst.zonkWithin depth) = some (types.map subst.zonk) := by
  refine mapM_eq_some_map fun t member => tame.zonkWithin_eq (each t member) depth ?_
  have := Ty.size_le_sizeAll member
  omega

theorem Tame.zonk_tuple (tame : subst.Tame) {elems : List Ty}
    (each : ∀ t ∈ elems, t.FirstOrder subst.size) :
    subst.zonk (.tuple elems) = .tuple (elems.map subst.zonk) := by
  let depth := (Ty.tuple elems).size + subst.size * subst.mass
  have walk := tame.zonkWithin_eq (.tuple each) (depth + 1) (by omega)
  have sizes : (Ty.tuple elems).size = Ty.sizeAll elems + 1 := rfl
  rw [zonkWithin, shallowWithin_self (.tuple each) rfl] at walk
  simp only [Option.bind_eq_bind, Option.bind_some,
    tame.zonkWithin_mapM each depth (by omega)] at walk
  exact (Option.some.inj walk).symm

theorem Tame.zonk_nominal (tame : subst.Tame) {template : TemplateId} {args : List Ty}
    (each : ∀ t ∈ args, t.FirstOrder subst.size) :
    subst.zonk (.nominal template args) = .nominal template (args.map subst.zonk) := by
  let depth := (Ty.nominal template args).size + subst.size * subst.mass
  have plain : (Ty.nominal template args).FirstOrder subst.size := .nominal each
  have walk := tame.zonkWithin_eq plain (depth + 1) (by omega)
  have sizes : (Ty.nominal template args).size = Ty.sizeAll args + 1 := rfl
  rw [zonkWithin, shallowWithin_self (.nominal each) rfl] at walk
  simp only [Option.bind_eq_bind, Option.bind_some,
    tame.zonkWithin_mapM each depth (by omega)] at walk
  exact (Option.some.inj walk).symm

theorem Tame.zonk_under (tame : subst.Tame) {ty : Ty} {images : TyVar → Ty} {bound : Nat}
    (plain : ty.FirstOrder bound) (each : ∀ v ∈ ty.leaves, (images v).FirstOrder subst.size) :
    subst.zonk (ty.under images) = ty.under fun v => subst.zonk (images v) := by
  induction plain with
  | var _ => rfl
  | arrow fst snd ihParam ihResult =>
    have left : ∀ v ∈ Ty.leaves _, (images v).FirstOrder subst.size := fun v member =>
      each v (by rw [Ty.leaves]; exact List.mem_append_left _ member)
    have right : ∀ v ∈ Ty.leaves _, (images v).FirstOrder subst.size := fun v member =>
      each v (by rw [Ty.leaves]; exact List.mem_append_right _ member)
    rw [Ty.under, Ty.under, tame.zonk_arrow (fst.under left) (snd.under right), ihParam left,
      ihResult right]
  | tuple plains ih =>
    have below : ∀ t ∈ _, ∀ v ∈ Ty.leaves t, (images v).FirstOrder subst.size :=
      fun t member v inLeaves =>
        each v (by rw [Ty.leaves]; exact Ty.mem_leavesAll.mpr ⟨t, member, inLeaves⟩)
    rw [Ty.under, Ty.under, Ty.underAll_eq_map, Ty.underAll_eq_map, tame.zonk_tuple, List.map_map]
    · exact congrArg Ty.tuple (List.map_congr_left fun t member => ih t member (below t member))
    · intro t member
      obtain ⟨u, inElems, rfl⟩ := List.mem_map.mp member
      exact (plains u inElems).under (below u inElems)
  | nominal plains ih =>
    have below : ∀ t ∈ _, ∀ v ∈ Ty.leaves t, (images v).FirstOrder subst.size :=
      fun t member v inLeaves =>
        each v (by rw [Ty.leaves]; exact Ty.mem_leavesAll.mpr ⟨t, member, inLeaves⟩)
    rw [Ty.under, Ty.under, Ty.underAll_eq_map, Ty.underAll_eq_map, tame.zonk_nominal,
      List.map_map]
    · exact congrArg (Ty.nominal _)
        (List.map_congr_left fun t member => ih t member (below t member))
    · intro t member
      obtain ⟨u, inArgs, rfl⟩ := List.mem_map.mp member
      exact (plains u inArgs).under (below u inArgs)

theorem Tame.zonk_eq_under (tame : subst.Tame) {ty : Ty} (plain : ty.FirstOrder subst.size) :
    subst.zonk ty = ty.under fun v => subst.zonk (.var v) := by
  have whole := tame.zonk_under plain fun v member => .var (plain.inside v member)
  rwa [plain.under_var] at whole

/-- A variable that nothing is known about, flexible or rigid. -/
def Unsolved (subst : Subst) (v : TyVar) : Prop :=
  v.index < subst.size ∧ subst.root v = v ∧ ∀ ty, subst.cell v ≠ .bound ty

theorem Tame.zonk_var_of_unsolved (tame : subst.Tame) {v : TyVar} (unsolved : subst.Unsolved v) :
    subst.zonk (.var v) = .var v := by
  obtain ⟨inside, root, free⟩ := unsolved
  have rootFree : ∀ ty, subst.rootCell v ≠ .bound ty := by rwa [rootCell, root]
  rw [tame.zonk_free inside rootFree, root]

theorem Tame.unsolved_root (tame : subst.Tame) {v : TyVar} (inside : v.index < subst.size)
    (free : ∀ ty, subst.rootCell v ≠ .bound ty) : subst.Unsolved (subst.root v) :=
  ⟨tame.root_inside inside, tame.root_root v, free⟩

theorem Tame.zonk_resolved (tame : subst.Tame) {ty : Ty} (plain : ty.FirstOrder subst.size) :
    (subst.zonk ty).FirstOrder subst.size ∧ ∀ v ∈ (subst.zonk ty).leaves, subst.Unsolved v := by
  induction plain using tame.resolveInduction with
  | free v inside free =>
    rw [tame.zonk_free inside free]
    refine ⟨.var (tame.root_inside inside), fun w member => ?_⟩
    rw [List.mem_singleton.mp member]
    exact tame.unsolved_root inside free
  | solved v ty inside plain cell notVar ih =>
    rwa [tame.zonk_solved inside cell]
  | arrow param result fst snd ihParam ihResult =>
    rw [tame.zonk_arrow fst snd]
    exact ⟨.arrow ihParam.1 ihResult.1, fun v member =>
      (List.mem_append.mp member).elim (ihParam.2 v) (ihResult.2 v)⟩
  | tuple elems each ih =>
    rw [tame.zonk_tuple each]
    refine ⟨.tuple fun t member => ?_, fun v member => ?_⟩
    · obtain ⟨u, inElems, rfl⟩ := List.mem_map.mp member
      exact (ih u inElems).1
    · obtain ⟨t, mapped, inLeaves⟩ := Ty.mem_leavesAll.mp member
      obtain ⟨u, inElems, rfl⟩ := List.mem_map.mp mapped
      exact (ih u inElems).2 v inLeaves
  | nominal template args each ih =>
    rw [tame.zonk_nominal each]
    refine ⟨.nominal fun t member => ?_, fun v member => ?_⟩
    · obtain ⟨u, inArgs, rfl⟩ := List.mem_map.mp member
      exact (ih u inArgs).1
    · obtain ⟨t, mapped, inLeaves⟩ := Ty.mem_leavesAll.mp member
      obtain ⟨u, inArgs, rfl⟩ := List.mem_map.mp mapped
      exact (ih u inArgs).2 v inLeaves

theorem Tame.zonk_firstOrder (tame : subst.Tame) {ty : Ty} (plain : ty.FirstOrder subst.size) :
    (subst.zonk ty).FirstOrder subst.size :=
  (tame.zonk_resolved plain).1

theorem Tame.unsolved_of_mem (tame : subst.Tame) {ty : Ty} (plain : ty.FirstOrder subst.size)
    {v : TyVar} (member : v ∈ (subst.zonk ty).leaves) : subst.Unsolved v :=
  (tame.zonk_resolved plain).2 v member

theorem Tame.zonk_zonk (tame : subst.Tame) {ty : Ty} (plain : ty.FirstOrder subst.size) :
    subst.zonk (subst.zonk ty) = subst.zonk ty := by
  obtain ⟨resolved, unsolved⟩ := tame.zonk_resolved plain
  rw [tame.zonk_eq_under resolved]
  exact resolved.under_fixed fun v member => tame.zonk_var_of_unsolved (unsolved v member)

section Children

variable {ty child : Ty} {depth : Nat}

/-- The parts of a type that is no variable have fewer levels when all is resolved. -/
theorem Tame.height_zonk_child (tame : subst.Tame) (plain : ty.FirstOrder subst.size)
    (notVar : ty.isVar = false)
    (member : child ∈ ty.children) : (subst.zonk child).height < (subst.zonk ty).height := by
  have lower : ∀ {types : List Ty}, child ∈ types → (subst.zonk child).height <
      Ty.heightAll (types.map subst.zonk) + 1 :=
    fun member => Nat.lt_succ_of_le (Ty.height_le_heightAll (List.mem_map_of_mem member))
  cases plain with
  | var _ => simp at notVar
  | arrow fst snd =>
    rw [tame.zonk_arrow fst snd, Ty.height]
    rcases List.mem_pair.mp member with rfl | rfl
    · exact Nat.lt_succ_of_le (Nat.le_max_left _ _)
    · exact Nat.lt_succ_of_le (Nat.le_max_right _ _)
  | tuple each =>
    rw [tame.zonk_tuple each]
    exact lower member
  | nominal each =>
    rw [tame.zonk_nominal each]
    exact lower member

theorem Tame.mem_leaves_zonk_iff_child (tame : subst.Tame) (plain : ty.FirstOrder subst.size)
    (notVar : ty.isVar = false)
    {v : TyVar} : v ∈ (subst.zonk ty).leaves ↔ ∃ t ∈ ty.children, v ∈ (subst.zonk t).leaves := by
  cases plain with
  | var _ => simp at notVar
  | arrow fst snd => simp [tame.zonk_arrow fst snd, Ty.children, Ty.leaves]
  | tuple each => simp [tame.zonk_tuple each, Ty.children, Ty.leaves, Ty.mem_leavesAll]
  | nominal each => simp [tame.zonk_nominal each, Ty.children, Ty.leaves, Ty.mem_leavesAll]

/-- Induction along a walk that may go deeper than the resolved type has levels: a solved variable
is looked through at no cost, and every other type is left for its parts. -/
theorem Tame.walkInduction (tame : subst.Tame) {motive : Nat → Ty → Prop}
    (free : ∀ (depth : Nat) {v : TyVar}, v.index < subst.size →
      (∀ ty, subst.rootCell v ≠ .bound ty) → motive (depth + 1) (.var v))
    (solved : ∀ (depth : Nat) {v : TyVar} {ty : Ty}, v.index < subst.size →
      ty.FirstOrder subst.size →
      subst.rootCell v = .bound ty → ty.isVar = false → motive (depth + 2) ty →
        motive (depth + 2) (.var v))
    (parts : ∀ (depth : Nat) {ty : Ty}, ty.FirstOrder subst.size → ty.isVar = false →
      (∀ t ∈ ty.children, motive depth t) → motive (depth + 1) ty)
    (plain : ty.FirstOrder subst.size) : ∀ {depth : Nat}, (subst.zonk ty).height < depth →
      motive depth ty := by
  have compose : ∀ {ty : Ty}, ty.FirstOrder subst.size → ty.isVar = false →
      (∀ t ∈ ty.children, ∀ {depth : Nat}, (subst.zonk t).height < depth → motive depth t) →
      ∀ {depth : Nat}, (subst.zonk ty).height < depth → motive depth ty := by
    intro ty plain notVar each depth enough
    obtain ⟨rest, rfl⟩ : ∃ rest, depth = rest + 1 := ⟨depth - 1, by omega⟩
    refine parts rest plain notVar fun t member => each t member ?_
    have := tame.height_zonk_child plain notVar member
    omega
  induction plain using tame.resolveInduction with
  | free v inside unsolved =>
    intro depth enough
    obtain ⟨rest, rfl⟩ : ∃ rest, depth = rest + 1 := ⟨depth - 1, by omega⟩
    exact free rest inside unsolved
  | solved v ty inside plain cell notVar ih =>
    intro depth enough
    rw [tame.zonk_solved inside cell] at enough
    have positive := (subst.zonk ty).height_pos
    obtain ⟨rest, rfl⟩ : ∃ rest, depth = rest + 2 := ⟨depth - 2, by omega⟩
    exact solved rest inside plain cell notVar (ih enough)
  | arrow param result fst snd ihParam ihResult =>
    intro depth enough
    refine compose (.arrow fst snd) rfl (fun t member => ?_) enough
    rcases List.mem_pair.mp member with rfl | rfl
    · exact ihParam
    · exact ihResult
  | tuple elems each ih => exact compose (.tuple each) rfl fun t member => ih t member
  | nominal template args each ih => exact compose (.nominal each) rfl fun t member => ih t member

end Children

end Zonk

section Occurs

def Reports (outcome : Except SearchEnd PUnit) (hit : Prop) : Prop :=
  hit ∧ outcome = .error .found ∨ ¬ hit ∧ outcome = .ok ()

theorem reports_forM {items : List Ty} {search : Ty → Except SearchEnd PUnit} {hit : Ty → Prop}
    (each : ∀ t ∈ items, Reports (search t) (hit t)) :
    Reports (forM items search) (∃ t ∈ items, hit t) := by
  induction items with
  | nil => exact .inr ⟨by simp, rfl⟩
  | cons t ts ih =>
    rw [List.forM_cons]
    rcases each t List.mem_cons_self with ⟨here, outcome⟩ | ⟨notHere, outcome⟩
    · exact .inl ⟨⟨t, List.mem_cons_self, here⟩, by rw [outcome]; rfl⟩
    · rw [outcome]
      rcases ih fun u member => each u (List.mem_cons_of_mem t member) with ⟨later,
        rest⟩ | ⟨none, rest⟩
      · obtain ⟨u, member, hit⟩ := later
        exact .inl ⟨⟨u, List.mem_cons_of_mem t member, hit⟩, rest⟩
      · refine .inr ⟨?_, rest⟩
        rintro ⟨u, member, hit⟩
        rcases List.mem_cons.mp member with rfl | member
        · exact notHere hit
        · exact none ⟨u, member, hit⟩

theorem seek_self {root : TyVar} {ty : Ty} {bound : Nat} (plain : ty.FirstOrder bound)
    (notVar : ty.isVar = false) (depth : Nat) :
    subst.seek root (depth + 1) ty = .ok ty.children.reverse := by
  rw [seek, shallowWithin_self plain notVar]
  cases plain with
  | var _ => simp at notVar
  | arrow _ _ => rfl
  | tuple _ => rfl
  | nominal _ => rfl

theorem reports_parts {root : TyVar} {ty : Ty} {bound : Nat} (plain : ty.FirstOrder bound)
    (notVar : ty.isVar = false) {depth : Nat} {hit : Ty → Prop}
    (each : ∀ t ∈ ty.children,
      Reports (Agenda.descend (.error .unfinished) (subst.seek root) depth t) (hit t)) :
    Reports (Agenda.descend (.error .unfinished) (subst.seek root) (depth + 1) ty)
      (∃ t ∈ ty.children, hit t) := by
  have parts := reports_forM fun t member => each t (List.mem_reverse.mp member)
  simp only [List.mem_reverse] at parts
  rw [Agenda.descend, seek_self plain notVar]
  exact parts

/-- The search for a root finds it exactly at the leaves of the resolved type. -/
theorem Tame.reports_seek (tame : subst.Tame) (root : TyVar) {ty : Ty}
    (plain : ty.FirstOrder subst.size) :
    ∀ depth, (subst.zonk ty).height < depth →
      Reports (Agenda.descend (.error .unfinished) (subst.seek root) depth ty)
        (root ∈ (subst.zonk ty).leaves) := by
  intro depth enough
  refine tame.walkInduction
    (motive := fun depth ty =>
    Reports (Agenda.descend (.error .unfinished) (subst.seek root) depth ty)
    (root ∈ (subst.zonk ty).leaves)) (fun depth v inside free => ?_)
      (fun depth v ty inside plain cell notVar below => ?_)
    (fun depth ty plain notVar each => ?_) plain enough
  · rw [Agenda.descend, seek, shallowWithin_free free, tame.zonk_free inside free]
    by_cases same : subst.root v = root
    · exact .inl ⟨by simp [same, Ty.leaves], by simp only [same, if_true]; rfl⟩
    · exact .inr ⟨by simp [Ne.symm same, Ty.leaves], by simp only [same, if_false]; rfl⟩
  · rw [Agenda.descend, seek, shallowWithin_self plain notVar] at below
    rwa [tame.zonk_solved inside cell, Agenda.descend, seek, tame.shallowWithin_solved cell]
  · rw [tame.mem_leaves_zonk_iff_child plain notVar]
    exact reports_parts plain notVar each

theorem Tame.occursWithin_eq (tame : subst.Tame) (root : TyVar) {ty : Ty}
    (plain : ty.FirstOrder subst.size) {depth : Nat} (enough : (subst.zonk ty).height < depth) :
    subst.occursWithin root depth ty = some (decide (root ∈ (subst.zonk ty).leaves)) := by
  rw [occursWithin, Agenda.walk_singleton]
  rcases tame.reports_seek root plain depth enough with ⟨hit, outcome⟩ | ⟨miss, outcome⟩
  · simp [outcome, hit]
  · simp [outcome, miss]

end Occurs

end PolyCheck.Subst
