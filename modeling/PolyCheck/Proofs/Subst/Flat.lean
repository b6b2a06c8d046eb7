import PolyCheck.Proofs.Subst.Excerpt

/-! Variables that stand for types without quantifiers. They make an excerpt of any cells: the other
cells may be hidden behind rigid variables, since no link and no solution of such a variable leads
to them. -/
namespace PolyCheck.Subst

open Ty

variable {subst : Subst} {ty : Ty} {v w : TyVar}

/-- The variable is unsolved, or what it is linked to or solved by leads to no quantifier. -/
inductive Flat (subst : Subst) : TyVar → Prop where
  | isNew {v : TyVar} (inside : v.index < subst.size) (isNew : (subst.cell v).IsNew) : Flat subst v
  | link {v w : TyVar} (cell : subst.cell v = .link w) (target : Flat subst w) : Flat subst v
  | bound {v : TyVar} {ty : Ty} (cell : subst.cell v = .bound ty) (plain : ty.Unquantified fun w =>
      w ∈ ty.leaves) (each : ∀ w ∈ ty.leaves, Flat subst w) : Flat subst v

theorem Flat.inside (flat : subst.Flat v) : v.index < subst.size := by
  cases flat with
  | isNew inside _ => exact inside
  | link cell _ => exact inside_of_cell cell (by simp)
  | bound cell _ _ => exact inside_of_cell cell (by simp)

theorem Flat.linked (flat : subst.Flat v) (cell : subst.cell v = .link w) : subst.Flat w := by
  cases flat with
  | isNew _ isNew =>
    rw [cell] at isNew
    exact isNew.elim
  | link cell' target =>
    obtain rfl := Cell.link.inj (cell.symm.trans cell')
    exact target
  | bound cell' _ _ => cases cell.symm.trans cell'

theorem Flat.solved (flat : subst.Flat v) (cell : subst.cell v = .bound ty) :
    ty.Unquantified subst.Flat := by
  cases flat with
  | isNew _ isNew =>
    rw [cell] at isNew
    exact isNew.elim
  | link cell' _ => cases cell.symm.trans cell'
  | bound cell' plain each =>
    obtain rfl := Cell.bound.inj (cell.symm.trans cell')
    exact plain.mono each

theorem linksEnd_of_acyclic (acyclic : WellFounded fun w v => subst.Uses v w) : subst.LinksEnd := by
  classical
  let next (v : TyVar) (lower : ∀ w, subst.Uses v w → Nat) : Nat :=
    if linked : ∃ w,
    subst.cell v = .link w then lower linked.choose (uses_of_link linked.choose_spec) + 1 else 0
  refine ⟨acyclic.fix next, fun v w cell => ?_⟩
  have linked : ∃ w, subst.cell v = .link w := ⟨w, cell⟩
  have same : linked.choose = w := Cell.link.inj (linked.choose_spec.symm.trans cell)
  have ranked : acyclic.fix next v = acyclic.fix next linked.choose + 1 :=
    (acyclic.fix_eq next v).trans (dif_pos linked)
  rw [ranked, same]
  exact Nat.lt_succ_self _

section Hidden

open Classical in
/-- The cells with rigid variables instead of those that are not flat. -/
noncomputable def flattened (subst : Subst) : Subst :=
  let cells := subst.cells.mapIdx fun index cell => if subst.Flat ⟨index⟩ then cell else .rigid none
  { subst with cells, mass := cellMass cells, mass_eq := rfl }

@[simp] theorem size_flattened (subst : Subst) : subst.flattened.size = subst.size :=
  Array.size_mapIdx

theorem cell_flattened (flat : subst.Flat v) : subst.flattened.cell v = subst.cell v := by
  have inside := flat.inside
  rw [Subst.size] at inside
  simp [flattened, Subst.cell, inside, flat]

theorem isNew_flattened (hidden : ¬ subst.Flat v) : (subst.flattened.cell v).IsNew := by
  by_cases inside : v.index < subst.size
  · rw [Subst.size] at inside
    simp [flattened, Subst.cell, inside, hidden, Cell.IsNew]
  · rw [cell_of_size_le (by simpa using inside)]
    trivial

theorem flat_of_link (cell : subst.flattened.cell v = .link w) : subst.Flat v ∧ subst.Flat w := by
  have flat : subst.Flat v := by
    by_contra hidden
    have isNew := isNew_flattened hidden
    rw [cell] at isNew
    exact isNew
  rw [cell_flattened flat] at cell
  exact ⟨flat, flat.linked cell⟩

theorem flat_of_bound (cell : subst.flattened.cell v = .bound ty) : subst.Flat v ∧
    ty.Unquantified subst.Flat := by
  have flat : subst.Flat v := by
    by_contra hidden
    have isNew := isNew_flattened hidden
    rw [cell] at isNew
    exact isNew
  rw [cell_flattened flat] at cell
  exact ⟨flat, flat.solved cell⟩

theorem acyclic_flattened (subst : Subst) : WellFounded fun w v => subst.flattened.Uses v w := by
  have flat : ∀ v, subst.Flat v → Acc (fun w v => subst.flattened.Uses v w) v := by
    intro v flat
    induction flat with
    | @isNew v inside isNew =>
      refine .intro v fun w uses => absurd uses (not_uses_of_isNew ?_)
      rwa [cell_flattened (.isNew inside isNew)]
    | @link v target cell flat ih =>
      refine .intro v fun w uses => ?_
      rw [Uses, cell_flattened (.link cell flat), cell] at uses
      exact uses ▸ ih
    | @bound v ty cell plain each ih =>
      refine .intro v fun w uses => ?_
      rw [Uses, cell_flattened (.bound cell plain each), cell] at uses
      exact ih w uses
  refine ⟨fun v => ?_⟩
  by_cases shown : subst.Flat v
  · exact flat v shown
  · exact .intro v fun w uses => absurd uses (not_uses_of_isNew (isNew_flattened shown))

def inWorld (subst : Subst) : World := ⟨fun v => v.index < subst.size, fun _ => False⟩

theorem shaped_flattened (subst : Subst) : subst.flattened.Shaped subst.inWorld where
  confines := by
    refine ⟨fun _ cell => (flat_of_link cell).2.inside, fun _ cell => ?_, False.elim⟩
    exact ((flat_of_bound cell).2.mono fun _ => Flat.inside).sectional.confined
  ends := linksEnd_of_acyclic (acyclic_flattened subst)
  size_le := Nat.zero_le _
  cells inside := absurd inside (Nat.not_lt_zero _)
  inPlay own := ⟨Nat.zero_le _, (size_flattened subst).symm ▸ own⟩
  bound := False.elim
  rigid := False.elim
  total inside := .inl (Nat.lt_of_lt_of_eq inside (size_flattened subst))
  sections cell := ((flat_of_bound cell).2.mono fun _ => Flat.inside).sectional
  acyclic := acyclic_flattened subst

def Seen (subst : Subst) (v : TyVar) : Prop := subst.Flat v ∨ subst.size ≤ v.index

theorem Seen.flat {cell : Cell} (seen : subst.Seen v) (known : subst.cell v = cell)
    (written : cell ≠ .unbound) : subst.Flat v :=
  seen.resolve_right (Nat.not_le_of_lt (inside_of_cell known written))

theorem excerpt_flattened (subst : Subst) : subst.flattened.Excerpt subst.Seen subst where
  size := size_flattened subst
  cells {v} seen := by
    rcases seen with flat | outside
    · exact cell_flattened flat
    · rw [cell_of_size_le outside, cell_of_size_le (by simpa using outside)]
  linked seen cell := .inl ((seen.flat cell (by simp)).linked cell)
  solved seen cell :=
    (((seen.flat cell (by simp)).solved cell).mono fun _ => .inl).sectional.confined
  new := .inr

end Hidden

end PolyCheck.Subst
