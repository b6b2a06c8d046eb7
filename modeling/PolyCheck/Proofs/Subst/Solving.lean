import PolyCheck.Proofs.Subst.Resolution

/-! What solving one variable does. An unbound variable is linked to another one or bound to a type;
as long as it is no leaf of what it comes to stand for, the cells stay free of cycles, and
resolution afterwards is resolution before with that variable replaced. -/
namespace PolyCheck.Subst

variable {subst after : Subst}

@[simp] theorem size_write (subst : Subst) (v : TyVar) (cell : Cell) :
    (subst.write v cell).size = subst.size := by
  simp [write, size]

theorem cell_write_self {v : TyVar} (inside : v.index < subst.size) (cell : Cell) :
    (subst.write v cell).cell v = cell := by
  rw [Subst.cell, write, Array.getElem?_setIfInBounds_self_of_lt inside]
  rfl

theorem cell_write_of_ne {v w : TyVar} (different : w ≠ v) (cell : Cell) :
    (subst.write v cell).cell w = subst.cell w := by
  have indices : v.index ≠ w.index := fun same => different (congrArg TyVar.mk same.symm)
  rw [Subst.cell, write, Array.getElem?_setIfInBounds_ne indices, Subst.cell]

section Leaves

theorem Tame.zonk_var_congr (tame : subst.Tame) {v w : TyVar} (inside : v.index < subst.size)
    (inside' : w.index < subst.size) (same : subst.root v = subst.root w) :
    subst.zonk (.var v) = subst.zonk (.var w) := by
  have cells : subst.rootCell v = subst.rootCell w := by rw [rootCell, rootCell, same]
  by_cases bound : ∃ ty, subst.rootCell v = .bound ty
  · obtain ⟨ty, cell⟩ := bound
    rw [tame.zonk_solved inside cell, tame.zonk_solved inside' (cells ▸ cell)]
  · have free : ∀ ty, subst.rootCell v ≠ .bound ty := fun ty cell => bound ⟨ty, cell⟩
    rw [tame.zonk_free inside free, tame.zonk_free inside' (cells ▸ free), same]

theorem Tame.mem_leaves_zonk (tame : subst.Tame) {ty : Ty} (plain : ty.FirstOrder subst.size)
    {v : TyVar} :
    v ∈ (subst.zonk ty).leaves ↔ ∃ w ∈ ty.leaves, v ∈ (subst.zonk (.var w)).leaves := by
  rw [tame.zonk_eq_under plain, plain.mem_leaves_under]

theorem Tame.leaves_of_uses (tame : subst.Tame) {v w u : TyVar} (uses : subst.Uses v w)
    (member : u ∈ (subst.zonk (.var w)).leaves) : u ∈ (subst.zonk (.var v)).leaves := by
  have inside' := tame.inside_of_uses uses
  unfold Uses at uses
  split at uses
  · rename_i target cell
    have inside := inside_of_cell cell (by simp)
    rw [uses] at member inside'
    rwa [tame.zonk_var_congr inside inside' (tame.root_of_link cell)]
  · rename_i ty cell
    have inside := inside_of_cell cell (by simp)
    have root : subst.root v = v := root_of_not_link fun target link => by simp [cell] at link
    rw [tame.zonk_solved inside (by rw [rootCell, root]; exact cell)]
    exact (tame.mem_leaves_zonk (tame.solved cell).1).mpr ⟨w, uses, member⟩
  · exact uses.elim

end Leaves

/-- No cycle arises where one variable gets another cell, when nothing it then uses led back to
it. -/
theorem acyclic_of_apart {x : TyVar} (acyclic : WellFounded fun w v => subst.Uses v w)
    (others : ∀ {v w}, v ≠ x → after.Uses v w → subst.Uses v w)
    (apart : ∀ w, after.Uses x w → ¬ Relation.ReflTransGen subst.Uses w x) :
      WellFounded fun w v => after.Uses v w := by
  have avoiding : ∀ v, ¬ Relation.ReflTransGen subst.Uses v x →
      Acc (fun w v => after.Uses v w) v := by
    intro v
    induction v using acyclic.induction with
    | h v ih =>
      intro avoids
      refine Acc.intro v fun w uses => ?_
      have different : v ≠ x := fun same => avoids (same ▸ .refl)
      have before := others different uses
      exact ih w before fun reaches => avoids (.head before reaches)
  refine ⟨fun v => ?_⟩
  induction v using acyclic.induction with
  | h v ih =>
    by_cases same : v = x
    · exact same ▸ Acc.intro x fun w uses => avoiding w (apart w uses)
    · exact Acc.intro v fun w uses => ih w (others same uses)

/-- An unbound variable that comes to stand for a type in which it is no leaf. -/
structure Solves (subst : Subst) (x : TyVar) (image : Ty) (after : Subst) : Prop where
  inside : x.index < subst.size
  unbound : subst.cell x = .unbound
  plain : image.FirstOrder subst.size
  apart : x ∉ (subst.zonk image).leaves
  size : after.size = subst.size
  others : ∀ {w : TyVar}, w ≠ x → after.cell w = subst.cell w
  own : (∃ y, image = .var y ∧ after.cell x = .link y) ∨
    image.isVar = false ∧ after.cell x = .bound image

namespace Solves

variable {x : TyVar} {image : Ty}

theorem unsolved (solves : subst.Solves x image after) : subst.Unsolved x :=
  ⟨solves.inside, root_of_not_link fun w => by simp [solves.unbound], fun ty => by
    simp [solves.unbound]⟩

theorem uses_self (solves : subst.Solves x image after) {w : TyVar} (uses : after.Uses x w) :
    w ∈ image.leaves := by
  unfold Uses at uses
  rcases solves.own with ⟨y, rfl, cell⟩ | ⟨-, cell⟩
  · simpa [cell, Ty.leaves] using uses
  · simpa [cell] using uses

theorem uses_other (solves : subst.Solves x image after) {v w : TyVar} (different : v ≠ x)
    (uses : after.Uses v w) : subst.Uses v w := by
  unfold Uses at uses ⊢
  rwa [solves.others different] at uses

/-- No cycle arises: what the new solution is made of does not lead back to the variable. -/
theorem acyclic (tame : subst.Tame) (solves : subst.Solves x image after) :
    WellFounded fun w v => after.Uses v w := by
  have resolved : ∀ {v}, Relation.ReflTransGen subst.Uses v x → x ∈ (subst.zonk (.var v)).leaves :=
      fun reaches => by
    induction reaches using Relation.ReflTransGen.head_induction_on with
    | refl =>
      rw [tame.zonk_var_of_unsolved solves.unsolved]
      exact List.mem_singleton_self x
    | head before _ ih => exact tame.leaves_of_uses before ih
  refine acyclic_of_apart tame.acyclic solves.uses_other fun w uses reaches => solves.apart ?_
  exact (tame.mem_leaves_zonk solves.plain).mpr ⟨w, solves.uses_self uses, resolved reaches⟩

theorem tame (tame : subst.Tame) (solves : subst.Solves x image after) : after.Tame where
  linked {v w} cell := by
    rw [solves.size]
    by_cases same : v = x
    · subst same
      rcases solves.own with ⟨y, rfl, own⟩ | ⟨-, own⟩
      · rw [own, Cell.link.injEq] at cell
        rw [← cell]
        exact solves.plain.inside y (by simp [Ty.leaves])
      · simp [own] at cell
    · exact tame.linked (solves.others same ▸ cell)
  solved {v ty} cell := by
    rw [solves.size]
    by_cases same : v = x
    · subst same
      rcases solves.own with ⟨y, -, own⟩ | ⟨notVar, own⟩
      · simp [own] at cell
      · rw [own, Cell.bound.injEq] at cell
        exact cell ▸ ⟨solves.plain, notVar⟩
    · exact tame.solved (solves.others same ▸ cell)
  acyclic := solves.acyclic tame

theorem root_root (tame : subst.Tame) (solves : subst.Solves x image after) (v : TyVar) :
    after.root v = after.root (subst.root v) := by
  induction v using tame.linkInduction with
  | unlinked v notLink => rw [root_of_not_link notLink]
  | linked v w cell ih =>
    have different : v ≠ x := fun same => by simp [same, solves.unbound] at cell
    have link : after.cell v = .link w := (solves.others different).trans cell
    rw [(solves.tame tame).root_of_link link, ih, tame.root_of_link cell]

theorem rootCell_other (tame : subst.Tame) (solves : subst.Solves x image after) {v : TyVar}
    (different : subst.root v ≠ x) :
    after.root v = subst.root v ∧ after.rootCell v = subst.rootCell v := by
  have cell := solves.others different
  have root : after.root v = subst.root v := by
    rw [solves.root_root tame]
    exact root_of_not_link fun w => by rw [cell]; exact tame.cell_root_ne_link v w
  exact ⟨root, by rw [rootCell, root, cell, rootCell]⟩

theorem zonk_self (tame : subst.Tame) (solves : subst.Solves x image after) :
    after.zonk (.var x) = after.zonk image := by
  have tame' := solves.tame tame
  have inside : x.index < after.size := by rw [solves.size]; exact solves.inside
  rcases solves.own with ⟨y, rfl, cell⟩ | ⟨-, cell⟩
  · exact tame'.zonk_var_congr inside (tame'.linked cell) (tame'.root_of_link cell)
  · have root : after.root x = x := root_of_not_link fun w link => by simp [cell] at link
    exact tame'.zonk_solved inside (by rw [rootCell, root]; exact cell)

theorem zonk_eq_single (tame : subst.Tame) (solves : subst.Solves x image after) {ty : Ty}
    (plain : ty.FirstOrder subst.size) :
    after.zonk ty = (subst.zonk ty).under (Ty.single x (after.zonk (.var x))) := by
  have tame' := solves.tame tame
  have size := solves.size
  induction plain using tame.resolveInduction with
  | free v inside free =>
    rw [tame.zonk_free inside free, Ty.under]
    by_cases same : subst.root v = x
    · rw [same, Ty.single_self]
      refine tame'.zonk_var_congr (size ▸ inside) (size ▸ solves.inside) ?_
      rw [solves.root_root tame, same]
    · obtain ⟨root, cell⟩ := solves.rootCell_other tame same
      rw [Ty.single_of_ne same, tame'.zonk_free (size ▸ inside) (cell ▸ free), root]
  | solved v ty inside plain cell notVar ih =>
    have different : subst.root v ≠ x := fun same => by
      rw [rootCell, same, solves.unbound] at cell
      simp at cell
    have cell' := (solves.rootCell_other tame different).2.trans cell
    rw [tame.zonk_solved inside cell, tame'.zonk_solved (size ▸ inside) cell', ih]
  | arrow param result fst snd ihParam ihResult =>
    rw [tame.zonk_arrow fst snd, tame'.zonk_arrow (size ▸ fst) (size ▸ snd), ihParam, ihResult,
      Ty.under]
  | tuple elems each ih =>
    rw [tame.zonk_tuple each, tame'.zonk_tuple (size ▸ each), Ty.under, Ty.underAll_eq_map,
      List.map_map]
    exact congrArg Ty.tuple (List.map_congr_left ih)
  | nominal template args each ih =>
    rw [tame.zonk_nominal each, tame'.zonk_nominal (size ▸ each), Ty.under, Ty.underAll_eq_map,
      List.map_map]
    exact congrArg (Ty.nominal template) (List.map_congr_left ih)

theorem zonk_var (tame : subst.Tame) (solves : subst.Solves x image after) :
    after.zonk (.var x) = subst.zonk image := by
  rw [solves.zonk_self tame, solves.zonk_eq_single tame solves.plain]
  refine (tame.zonk_firstOrder solves.plain).under_fixed fun v member => ?_
  have different : v ≠ x := fun same => solves.apart (same ▸ member)
  exact Ty.single_of_ne different _

theorem zonk (tame : subst.Tame) (solves : subst.Solves x image after) {ty : Ty}
    (plain : ty.FirstOrder subst.size) :
    after.zonk ty = (subst.zonk ty).under (Ty.single x (subst.zonk image)) := by
  rw [solves.zonk_eq_single tame plain, solves.zonk_var tame]

end Solves

theorem solves_link {x y : TyVar} (inside : x.index < subst.size)
    (unbound : subst.cell x = .unbound)
    (unsolved : subst.Unsolved y) (tame : subst.Tame) (different : x ≠ y) :
    subst.Solves x (.var y) (subst.link x y) where
  inside := inside
  unbound := unbound
  plain := .var unsolved.1
  apart := by
    rw [tame.zonk_var_of_unsolved unsolved]
    simpa [Ty.leaves] using different
  size := size_write _ _ _
  others different := cell_write_of_ne different _
  own := .inl ⟨y, rfl, cell_write_self inside _⟩

theorem solves_bind {x : TyVar} {ty : Ty} (inside : x.index < subst.size)
    (unbound : subst.cell x = .unbound) (plain : ty.FirstOrder subst.size)
    (notVar : ty.isVar = false) (apart : x ∉ (subst.zonk ty).leaves) :
    subst.Solves x ty (subst.bind x ty) where
  inside := inside
  unbound := unbound
  plain := plain
  apart := apart
  size := size_write _ _ _
  others different := cell_write_of_ne different _
  own := .inr ⟨notVar, cell_write_self inside _⟩

end PolyCheck.Subst
