import PolyCheck.Proofs.Subst.Unification

/-! Most general unifiers. Cells that come from new variables and earlier unifications of
first-order types are tame, so unification of two more first-order types ends with an answer: it
succeeds exactly when some images of the flexible variables make the types equal, and then every
such choice of images goes through the cells it leaves. -/
namespace PolyCheck.Subst

variable {subst after : Subst}

section Push

theorem cell_push (subst : Subst) (cell : Cell) (v : TyVar) :
    (subst.push cell).2.cell v = if v.index = subst.size then cell else subst.cell v := by
  by_cases last : v.index = subst.cells.size
  · simp [push, Subst.cell, size, last]
  · simp [push, Subst.cell, size, last, Array.getElem?_push]

@[simp] theorem size_push (subst : Subst) (cell : Cell) :
    (subst.push cell).2.size = subst.size + 1 := by
  simp [push, size]

theorem Tame.push (tame : subst.Tame) {cell : Cell}
    (new : cell = .unbound ∨ ∃ name, cell = .rigid name) : (subst.push cell).2.Tame := by
  have old : ∀ {v : TyVar} {other : Cell}, (subst.push cell).2.cell v = other →
      other ≠ cell → subst.cell v = other := by
    intro v other found different
    rw [cell_push] at found
    split at found
    · exact absurd found.symm different
    · exact found
  have uses : ∀ {v w : TyVar}, (subst.push cell).2.Uses v w → subst.Uses v w := by
    intro v w used
    rw [Uses, cell_push] at used
    by_cases last : v.index = subst.size
    · rw [if_pos last] at used
      rcases new with rfl | ⟨name, rfl⟩ <;> exact used.elim
    · rwa [if_neg last] at used
  refine ⟨fun {v w} linked => ?_, fun {v ty} solved => ?_, ?_⟩
  · have inside := tame.linked (old linked (by rcases new with rfl | ⟨name, rfl⟩ <;> simp))
    rw [size_push]
    omega
  · have plain := tame.solved (old solved (by rcases new with rfl | ⟨name, rfl⟩ <;> simp))
    rw [size_push]
    exact ⟨plain.1.mono (Nat.le_succ _), plain.2⟩
  · exact Subrelation.wf (fun used => uses used) tame.acyclic

end Push

/-- Cells made by new variables and by unifications of first-order types, successful or not. -/
inductive Reachable : Subst → Prop where
  | empty : Reachable .empty
  | fresh {subst : Subst} (before : Reachable subst) : Reachable subst.fresh.2
  | freshRigid {subst : Subst} (before : Reachable subst) (name : Name) :
    Reachable (subst.freshRigid name).2
  | freshSkolem {subst : Subst} (before : Reachable subst) : Reachable subst.freshSkolem.2
  | unify {subst after : Subst} (before : Reachable subst) {left right : Ty}
    (plain : left.FirstOrder subst.size) (plain' : right.FirstOrder subst.size)
    (result : Subst.unify left right subst = .ok () after ∨
      ∃ error, Subst.unify left right subst = .error error after) : Reachable after

theorem tame_empty : empty.Tame := by
  have unbound : ∀ v, empty.cell v = .unbound := fun v => cell_of_size_le (Nat.zero_le _)
  refine ⟨fun {v w} linked => ?_, fun {v ty} solved => ?_, ⟨fun v => ⟨v, fun w uses => ?_⟩⟩⟩
  · simp [unbound] at linked
  · simp [unbound] at solved
  · simp [Uses, unbound] at uses

theorem Reachable.tame (reachable : subst.Reachable) : subst.Tame := by
  induction reachable with
  | empty => exact tame_empty
  | fresh _ tame => exact tame.push (.inl rfl)
  | freshRigid _ name tame => exact tame.push (.inr ⟨_, rfl⟩)
  | freshSkolem _ tame => exact tame.push (.inr ⟨_, rfl⟩)
  | unify _ plain plain' result tame =>
    have outcome := tame.outcome_unify plain plain'
    rcases result with result | ⟨error, result⟩
    · rw [result] at outcome
      exact outcome.1.tame
    · rw [result] at outcome
      exact outcome.1.1

theorem Unified.solver {pairs : List (Ty × Ty)} (unified : subst.Unified pairs after)
    (tame : subst.Tame)
    (plain : ∀ pair ∈ pairs, pair.1.FirstOrder subst.size ∧ pair.2.FirstOrder subst.size) :
    subst.Solver pairs fun v => after.zonk (.var v) := by
  have through : ∀ {ty : Ty}, ty.FirstOrder subst.size →
      (subst.zonk ty).under (fun v => after.zonk (.var v)) = after.zonk ty := by
    intro ty plainTy
    have resolved : (subst.zonk ty).FirstOrder after.size :=
      unified.size ▸ tame.zonk_firstOrder plainTy
    rw [← unified.tame.zonk_eq_under resolved, unified.later.resolved plainTy]
  refine ⟨fun {v name} cell => ?_, fun pair member => ?_⟩
  · have inside := inside_of_cell cell (by simp)
    have cell' := (unified.later.rigid inside).mpr cell
    refine unified.tame.zonk_var_of_unsolved ⟨unified.size ▸ inside, ?_, by simp [cell']⟩
    exact root_of_not_link (by simp [cell'])
  · rw [through (plain pair member).1, through (plain pair member).2, unified.equal pair member]

theorem Solver.swap {left right : Ty} {images : TyVar → Ty}
    (solver : subst.Solver [(left, right)] images) : subst.Solver [(right, left)] images where
  rigid := solver.rigid
  equal pair member := by
    rw [List.mem_singleton.mp member]
    exact (solver.equal (left, right) (List.mem_singleton_self _)).symm

theorem Tame.unify_ok_iff (tame : subst.Tame) {left right : Ty}
    (plain : left.FirstOrder subst.size) (plain' : right.FirstOrder subst.size) :
    (∃ after, Subst.unify left right subst = .ok () after) ↔
      ∃ images, subst.Solver [(left, right)] images := by
  have outcome := tame.outcome_unify plain plain'
  cases result : Subst.unify left right subst with
  | ok _ after =>
    rw [result] at outcome
    have solver := outcome.1.solver tame fun pair member => by
      rw [List.mem_singleton.mp member]
      exact ⟨plain, plain'⟩
    exact ⟨fun _ => ⟨_, solver⟩, fun _ => ⟨after, rfl⟩⟩
  | error error after =>
    rw [result] at outcome
    exact ⟨fun ⟨_, ok⟩ => by simp at ok, fun ⟨images, solver⟩ => absurd solver (outcome.2.2 images)⟩

/-- Unification of first-order types over reachable cells ends with a most general unifier if there
is any unifier, and with an error otherwise; the order of the two types is of no account. -/
theorem unify_principal (reachable : subst.Reachable) {left right : Ty}
    (plain : left.FirstOrder subst.size) (plain' : right.FirstOrder subst.size) :
    (∀ after, Subst.unify left right subst ≠ .error .exhausted after) ∧
      ((∃ after, Subst.unify left right subst = .ok () after) ↔
        ∃ images, subst.Solver [(left, right)] images) ∧
      (∀ after, Subst.unify left right subst = .ok () after →
        after.zonk left = after.zonk right ∧
          subst.Solver [(left, right)] (fun v => after.zonk (.var v)) ∧
          ∀ images, subst.Solver [(left, right)] images → ∀ ty : Ty, ty.FirstOrder subst.size →
            (after.zonk ty).under images = (subst.zonk ty).under images) ∧
      ((∃ after, Subst.unify left right subst = .ok () after) ↔
        ∃ after, Subst.unify right left subst = .ok () after) := by
  have tame := reachable.tame
  have outcome := tame.outcome_unify plain plain'
  refine ⟨fun after result => ?_, tame.unify_ok_iff plain plain', fun after result => ?_, ?_⟩
  · rw [result] at outcome
    exact outcome.2.1 rfl
  · rw [result] at outcome
    have unified := outcome.1
    refine ⟨unified.equal _ (List.mem_singleton_self _), unified.solver tame fun pair member => ?_,
      fun images solver ty plainTy => unified.general solver plainTy⟩
    rw [List.mem_singleton.mp member]
    exact ⟨plain, plain'⟩
  · rw [tame.unify_ok_iff plain plain', tame.unify_ok_iff plain' plain]
    exact ⟨fun ⟨images, solver⟩ => ⟨images, solver.swap⟩, fun ⟨images, solver⟩ =>
      ⟨images, solver.swap⟩⟩

/-- A variable, and a function from another variable to a rigid one. -/
theorem unify_var_arrow :
    ∃ after, Subst.unify (.var ⟨0⟩) (.arrow (.var ⟨1⟩) (.var ⟨2⟩))
        empty.fresh.2.fresh.2.freshSkolem.2 = .ok () after ∧
      after.zonk (.var ⟨0⟩) = after.zonk (.arrow (.var ⟨1⟩) (.var ⟨2⟩)) := by
  have reachable : empty.fresh.2.fresh.2.freshSkolem.2.Reachable :=
    .freshSkolem (.fresh (.fresh .empty))
  have plain : (Ty.var ⟨0⟩).FirstOrder empty.fresh.2.fresh.2.freshSkolem.2.size := .var (by decide)
  have plain' : (Ty.arrow (.var ⟨1⟩) (.var ⟨2⟩)).FirstOrder
      empty.fresh.2.fresh.2.freshSkolem.2.size := .arrow (.var (by decide)) (.var (by decide))
  obtain ⟨-, answers, general, -⟩ := unify_principal reachable plain plain'
  obtain ⟨after, result⟩ := answers.mpr ⟨Ty.single ⟨0⟩ (.arrow (.var ⟨1⟩) (.var ⟨2⟩)), by
    refine ⟨fun {v name} cell => ?_, fun pair member => ?_⟩
    · refine Ty.single_of_ne (fun same => ?_) _
      have unbound : empty.fresh.2.fresh.2.freshSkolem.2.cell ⟨0⟩ = .unbound := by decide
      simp [same, unbound] at cell
    · rw [List.mem_singleton.mp member]
      decide⟩
  exact ⟨after, result, (general after result).1⟩

end PolyCheck.Subst
