import PolyCheck.Proofs.Subst.Acyclic
import PolyCheck.Proofs.Subst.MostGeneral

/-! Chains of links, whatever the solved cells hold. Where links have a rank along which they go
down, no chain visits a cell twice, so it ends within as many steps as there are cells, at a
variable that is not linked. -/
namespace PolyCheck

def Cell.IsNew : Cell → Prop
  | unbound | rigid _ => True
  | _ => False

theorem Cell.isNew_unbound : Cell.IsNew .unbound := trivial

theorem Cell.isNew_rigid (name : Option Name) : Cell.IsNew (.rigid name) := trivial

namespace Subst

def LinksEnd (subst : Subst) : Prop :=
  ∃ rank : TyVar → Nat, ∀ v w, subst.cell v = .link w → rank w < rank v

variable {subst : Subst} {v w x y : TyVar}

theorem rootWithin_succ (subst : Subst) (steps : Nat) (v : TyVar) :
    (∃ w, subst.cell (subst.rootWithin steps v) = .link w ∧ subst.rootWithin (steps + 1) v = w) ∨
      (∀ w, subst.cell (subst.rootWithin steps v) ≠ .link w) ∧
        subst.rootWithin (steps + 1) v = subst.rootWithin steps v := by
  induction steps generalizing v with
  | zero =>
    by_cases link : ∃ w, subst.cell v = .link w
    · obtain ⟨w, cell⟩ := link
      exact .inl ⟨w, cell, rootWithin_of_link cell 0⟩
    · have notLink : ∀ w, subst.cell v ≠ .link w := fun w cell => link ⟨w, cell⟩
      exact .inr ⟨notLink, rootWithin_of_not_link notLink 1⟩
  | succ steps ih =>
    by_cases link : ∃ w, subst.cell v = .link w
    · obtain ⟨w, cell⟩ := link
      rw [rootWithin_of_link cell, rootWithin_of_link cell]
      exact ih w
    · have notLink : ∀ w, subst.cell v ≠ .link w := fun w cell => link ⟨w, cell⟩
      rw [rootWithin_of_not_link notLink, rootWithin_of_not_link notLink]
      exact .inr ⟨notLink, rfl⟩

theorem LinksEnd.cell_root_ne (ends : subst.LinksEnd) (v w : TyVar) :
    subst.cell (subst.root v) ≠ .link w := by
  obtain ⟨rank, lower⟩ := ends
  intro last
  -- Otherwise the chain is at a link all the way, at more places than there are cells.
  have linked : ∀ steps ≤ subst.size, ∃ target, subst.cell (subst.rootWithin steps v) =
      .link target := by
    intro steps le
    induction le using Nat.decreasingInduction with
    | self => exact ⟨w, last⟩
    | of_succ steps le ih =>
      rcases rootWithin_succ subst steps v with ⟨target, cell, -⟩ | ⟨-, same⟩
      · exact ⟨target, cell⟩
      · rwa [same] at ih
  have down : ∀ steps more, steps + more ≤ subst.size →
      rank (subst.rootWithin (steps + more) v) + more ≤ rank (subst.rootWithin steps v) := by
    intro steps more
    induction more with
    | zero => exact fun _ => Nat.le_refl _
    | succ more ih =>
      intro le
      have before := ih (by omega)
      obtain ⟨target, cell⟩ := linked (steps + more) (by omega)
      have less := lower _ _ cell
      rcases rootWithin_succ subst (steps + more) v with ⟨target', cell', next⟩ | ⟨absent, -⟩
      · obtain rfl := Cell.link.inj (cell.symm.trans cell')
        rw [show steps + (more + 1) = steps + more + 1 by omega, next]
        omega
      · exact absurd cell (absent target)
  obtain ⟨first, inFirst, second, inSecond, different, same⟩ :=
    Finset.exists_ne_map_eq_of_card_lt_of_maps_to
      (s := Finset.range (subst.size + 1)) (t := Finset.range subst.size)
      (f := fun steps => (subst.rootWithin steps v).index) (by simp) fun steps member => by
        obtain ⟨target, cell⟩ := linked steps (Nat.le_of_lt_succ (Finset.mem_range.mp member))
        exact Finset.mem_coe.mpr (Finset.mem_range.mpr (inside_of_cell cell (by simp)))
  have same' : subst.rootWithin first v = subst.rootWithin second v := congrArg TyVar.mk same
  have inFirst := Finset.mem_range.mp inFirst
  have inSecond := Finset.mem_range.mp inSecond
  rcases Nat.lt_or_gt_of_ne different with less | less
  · have apart := down first (second - first) (by omega)
    rw [show first + (second - first) = second by omega, same'] at apart
    omega
  · have apart := down second (first - second) (by omega)
    rw [show second + (first - second) = first by omega, same'] at apart
    omega

theorem LinksEnd.root_of_link (ends : subst.LinksEnd) (cell : subst.cell v = .link w) :
    subst.root v = subst.root w := by
  have step := rootWithin_of_link cell subst.size
  rcases rootWithin_succ subst subst.size v with ⟨target, found, -⟩ | ⟨-, same⟩
  · exact absurd found (ends.cell_root_ne v target)
  · exact same.symm.trans step

theorem root_of_isNew (isNew : (subst.cell v).IsNew) : subst.root v = v :=
  root_of_not_link fun w cell => by
    rw [cell] at isNew
    exact isNew

theorem rootWithin_congr {after : Subst}
    (links : ∀ v w, after.cell v = .link w ↔ subst.cell v = .link w) (steps : Nat)
    (v : TyVar) : after.rootWithin steps v = subst.rootWithin steps v := by
  induction steps generalizing v with
  | zero => rfl
  | succ steps ih =>
    by_cases link : ∃ w, subst.cell v = .link w
    · obtain ⟨w, cell⟩ := link
      rw [rootWithin_of_link cell, rootWithin_of_link ((links v w).mpr cell), ih]
    · have notLink : ∀ w, subst.cell v ≠ .link w := fun w cell => link ⟨w, cell⟩
      rw [rootWithin_of_not_link notLink, rootWithin_of_not_link fun w cell =>
        notLink w ((links v w).mp cell)]

theorem root_mem {holds : TyVar → Prop}
    (closed : ∀ v w, holds v → subst.cell v = .link w → holds w) (here : holds v) :
    holds (subst.root v) := by
  have within : ∀ steps v, holds v → holds (subst.rootWithin steps v) := by
    intro steps
    induction steps with
    | zero => exact fun _ => id
    | succ steps ih =>
      intro v here
      rw [rootWithin]
      split
      · rename_i w cell
        exact ih w (closed v w here cell)
      · exact here
  exact within _ v here

section Heads

variable {ty head : Ty} {depth : Nat}

theorem LinksEnd.shallowWithin_head (ends : subst.LinksEnd)
    (walk : subst.shallowWithin depth ty = some head) :
    (∀ x, head = .var x → (subst.cell x).IsNew) ∧
      ∀ function args, head = .app function args →
        function.IsStuck ∧ ∀ x, function = .var x → (subst.cell x).IsNew := by
  replace walk := heads_of_walk walk
  induction walk with
  | @unsolved v free =>
    refine ⟨fun x same => ?_, nofun⟩
    obtain rfl := Ty.var.inj same
    cases cell : subst.cell (subst.root v) with
    | unbound | rigid _ => trivial
    | link w => exact absurd cell (ends.cell_root_ne v w)
    | bound solution => exact absurd cell (free solution)
  | solved _ _ ih => exact ih
  | arrow | tuple | nominal | quantified => exact ⟨nofun, nofun⟩
  | applied _ _ _ ih => exact ih
  | collected _ ih =>
    refine ⟨nofun, fun function args same => ?_⟩
    obtain ⟨rfl, -⟩ := Ty.app.inj same
    exact ih.2 _ _ rfl
  | stuck _ stuck ih =>
    refine ⟨nofun, fun function args same => ?_⟩
    obtain ⟨rfl, -⟩ := Ty.app.inj same
    exact ⟨stuck, ih.1⟩

theorem LinksEnd.shallowWithin_var (ends : subst.LinksEnd)
    (walk : subst.shallowWithin depth ty = some (.var x)) :
    subst.root x = x ∧ ∀ solved, subst.cell x ≠ .bound solved := by
  have isNew := (ends.shallowWithin_head walk).1 x rfl
  refine ⟨root_of_isNew isNew, fun solved cell => ?_⟩
  rw [cell] at isNew
  exact isNew

end Heads

theorem linksEnd_empty : empty.LinksEnd :=
  ⟨fun _ => 0, fun v w cell => by simp [cell_of_size_le, size, empty] at cell⟩

theorem LinksEnd.push (ends : subst.LinksEnd) {cell : Cell} (isNew : cell.IsNew) :
    (subst.push cell).2.LinksEnd := by
  obtain ⟨rank, lower⟩ := ends
  refine ⟨rank, fun v w linked => lower v w ?_⟩
  rw [cell_push] at linked
  split at linked
  · rw [linked] at isNew
    exact isNew.elim
  · exact linked

theorem cell_write_cases (subst : Subst) (x v : TyVar) (cell : Cell) :
    (subst.write x cell).cell v = subst.cell v ∨ v = x ∧ (subst.write x cell).cell v = cell := by
  by_cases same : v = x
  · subst same
    by_cases inside : v.index < subst.size
    · exact .inr ⟨rfl, cell_write_self inside cell⟩
    · have outside := Nat.le_of_not_lt inside
      rw [cell_of_size_le outside, cell_of_size_le (by simpa using outside)]
      exact .inl rfl
  · exact .inl (cell_write_of_ne same cell)

theorem LinksEnd.bind (ends : subst.LinksEnd) (x : TyVar) (ty : Ty) :
    (subst.bind x ty).LinksEnd := by
  obtain ⟨rank, lower⟩ := ends
  refine ⟨rank, fun v w linked => ?_⟩
  rcases subst.cell_write_cases x v (.bound ty) with kept | ⟨-, written⟩
  · exact lower v w (kept ▸ linked)
  · cases written.symm.trans linked

theorem LinksEnd.link (ends : subst.LinksEnd) (rootX : subst.root x = x) (rootY : subst.root y = y)
    (different : x ≠ y) : (subst.link x y).LinksEnd := by
  obtain ⟨rank, lower⟩ := id ends
  refine ⟨fun v => if subst.root v = x then rank v + rank y + 1 else rank v, fun v w linked => ?_⟩
  rcases subst.cell_write_cases x v (.link y) with kept | ⟨rfl, written⟩
  · have cell : subst.cell v = .link w := kept ▸ linked
    have less := lower v w cell
    simp only [ends.root_of_link cell]
    split <;> omega
  · obtain rfl := Cell.link.inj (written.symm.trans linked)
    simp only [rootX, rootY, if_pos, if_neg different.symm]
    omega

end Subst

end PolyCheck
