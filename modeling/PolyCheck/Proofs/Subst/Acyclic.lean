import Mathlib.Data.Finset.Card
import Mathlib.Logic.Relation
import PolyCheck.Proofs.Ty.FirstOrder
import PolyCheck.Subst

/-! Cells in which no variable is reached from itself. A variable uses another one when it is linked
to it or solved by a type with that leaf. Where this relation has no cycle, every variable has a
rank below which all it uses lies; so chains of links end at their root within as many steps as
there are cells, and properties of types can be proved along their solutions. -/
namespace PolyCheck.Subst

/-- One variable is looked through to another one, by a link or as a leaf of its solution. -/
def Uses (subst : Subst) (v w : TyVar) : Prop :=
  match subst.cell v with
  | .link target => w = target
  | .bound ty => w ∈ ty.leaves
  | _ => False

/-- Cells with first-order solutions over the variables in use, without cycles. Solutions are no
variables, since two variables are linked instead. -/
structure Tame (subst : Subst) : Prop where
  linked : ∀ {v w : TyVar}, subst.cell v = .link w → w.index < subst.size
  solved : ∀ {v : TyVar} {ty : Ty}, subst.cell v = .bound ty →
    ty.FirstOrder subst.size ∧ ty.isVar = false
  acyclic : WellFounded fun w v => subst.Uses v w

variable {subst : Subst}

theorem uses_of_link {v w : TyVar} (cell : subst.cell v = .link w) : subst.Uses v w := by
  simp [Uses, cell]

theorem uses_of_bound {v w : TyVar} {ty : Ty} (cell : subst.cell v = .bound ty)
    (member : w ∈ ty.leaves) : subst.Uses v w := by
  simpa [Uses, cell] using member

theorem cell_of_size_le {v : TyVar} (outside : subst.size ≤ v.index) :
    subst.cell v = .unbound := by
  rw [cell, Array.getElem?_eq_none outside]
  rfl

theorem inside_of_cell {v : TyVar} {cell : Cell} (found : subst.cell v = cell)
    (different : cell ≠ .unbound) : v.index < subst.size := by
  refine Nat.lt_of_not_le fun outside => different ?_
  rw [← found, cell_of_size_le outside]

theorem Tame.inside_of_uses (tame : subst.Tame) {v w : TyVar} (uses : subst.Uses v w) :
    w.index < subst.size := by
  unfold Uses at uses
  split at uses
  · rename_i target cell
    rw [uses]
    exact tame.linked cell
  · rename_i ty cell
    exact (tame.solved cell).1.inside w uses
  · exact uses.elim

section Rank

open Classical in
noncomputable def usedBelow (subst : Subst) (v : TyVar) : Finset Nat :=
  (Finset.range subst.size).filter fun index => Relation.TransGen subst.Uses v ⟨index⟩

noncomputable def rank (subst : Subst) (v : TyVar) : Nat :=
  (subst.usedBelow v).card

theorem mem_usedBelow {v : TyVar} {index : Nat} :
    index ∈ subst.usedBelow v ↔
      index < subst.size ∧ Relation.TransGen subst.Uses v ⟨index⟩ := by
  simp [usedBelow]

theorem rank_le_size (subst : Subst) (v : TyVar) : subst.rank v ≤ subst.size := by
  have inRange : subst.usedBelow v ⊆ Finset.range subst.size := fun index member =>
    Finset.mem_range.mpr (mem_usedBelow.mp member).1
  simpa [rank] using Finset.card_le_card inRange

theorem Tame.not_transGen_self (tame : subst.Tame) (v : TyVar) :
    ¬ Relation.TransGen subst.Uses v v := by
  intro cycle
  have reversed := Relation.transGen_swap.mpr cycle
  exact tame.acyclic.transGen.asymmetric _ _ reversed reversed

theorem Tame.rank_lt_size (tame : subst.Tame) {v : TyVar} (inside : v.index < subst.size) :
    subst.rank v < subst.size := by
  have strict : subst.usedBelow v ⊂ Finset.range subst.size := by
    refine Finset.ssubset_iff_of_subset (fun index member => ?_) |>.mpr
      ⟨v.index, Finset.mem_range.mpr inside, fun member => ?_⟩
    · exact Finset.mem_range.mpr (mem_usedBelow.mp member).1
    · exact tame.not_transGen_self v (mem_usedBelow.mp member).2
  simpa [rank] using Finset.card_lt_card strict

theorem Tame.rank_lt (tame : subst.Tame) {v w : TyVar} (uses : subst.Uses v w) :
    subst.rank w < subst.rank v := by
  refine Finset.card_lt_card (Finset.ssubset_iff_of_subset ?_ |>.mpr ⟨w.index, ?_, ?_⟩)
  · intro index member
    rw [mem_usedBelow] at member ⊢
    exact ⟨member.1, Relation.TransGen.head uses member.2⟩
  · exact mem_usedBelow.mpr ⟨tame.inside_of_uses uses, Relation.TransGen.single uses⟩
  · intro member
    exact tame.not_transGen_self w (mem_usedBelow.mp member).2

end Rank

section Root

theorem rootWithin_of_not_link {v : TyVar} (notLink : ∀ w, subst.cell v ≠ .link w)
    (steps : Nat) : subst.rootWithin steps v = v := by
  cases steps with
  | zero => rfl
  | succ steps =>
    rw [rootWithin]
    split
    · rename_i w cell
      exact absurd cell (notLink w)
    · rfl

theorem rootWithin_of_link {v w : TyVar} (cell : subst.cell v = .link w) (steps : Nat) :
    subst.rootWithin (steps + 1) v = subst.rootWithin steps w := by
  rw [rootWithin, cell]

theorem Tame.rootWithin_not_link (tame : subst.Tame) {steps : Nat} {v : TyVar}
    (enough : subst.rank v ≤ steps) (w : TyVar) :
    subst.cell (subst.rootWithin steps v) ≠ .link w := by
  induction steps generalizing v with
  | zero =>
    intro cell
    have lt := tame.rank_lt (uses_of_link cell)
    simp only [rootWithin] at lt
    omega
  | succ steps ih =>
    by_cases link : ∃ target, subst.cell v = .link target
    · obtain ⟨target, cell⟩ := link
      have lt := tame.rank_lt (uses_of_link cell)
      rw [rootWithin_of_link cell]
      exact ih (by omega)
    · have notLink : ∀ target, subst.cell v ≠ .link target := fun target cell =>
        link ⟨target, cell⟩
      rw [rootWithin_of_not_link notLink]
      exact notLink w

theorem Tame.rootWithin_eq (tame : subst.Tame) {steps steps' : Nat} {v : TyVar}
    (enough : subst.rank v ≤ steps) (enough' : subst.rank v ≤ steps') :
    subst.rootWithin steps v = subst.rootWithin steps' v := by
  induction steps generalizing v steps' with
  | zero =>
    have notLink : ∀ w, subst.cell v ≠ .link w := fun w => tame.rootWithin_not_link enough w
    rw [rootWithin_of_not_link notLink, rootWithin_of_not_link notLink]
  | succ steps ih =>
    by_cases link : ∃ target, subst.cell v = .link target
    · obtain ⟨target, cell⟩ := link
      have lt := tame.rank_lt (uses_of_link cell)
      obtain ⟨rest, rfl⟩ : ∃ rest, steps' = rest + 1 := ⟨steps' - 1, by omega⟩
      rw [rootWithin_of_link cell, rootWithin_of_link cell]
      exact ih (by omega) (by omega)
    · have notLink : ∀ target, subst.cell v ≠ .link target := fun target cell =>
        link ⟨target, cell⟩
      rw [rootWithin_of_not_link notLink, rootWithin_of_not_link notLink]

theorem root_of_not_link {v : TyVar} (notLink : ∀ w, subst.cell v ≠ .link w) :
    subst.root v = v :=
  rootWithin_of_not_link notLink _

theorem Tame.root_of_link (tame : subst.Tame) {v w : TyVar} (cell : subst.cell v = .link w) :
    subst.root v = subst.root w := by
  have lt := tame.rank_lt (uses_of_link cell)
  have size := subst.rank_le_size v
  have longer : subst.rank v ≤ subst.size + 1 := by omega
  rw [root, tame.rootWithin_eq size longer, rootWithin_of_link cell]
  rfl

theorem Tame.cell_root_ne_link (tame : subst.Tame) (v w : TyVar) :
    subst.cell (subst.root v) ≠ .link w :=
  tame.rootWithin_not_link (subst.rank_le_size v) w

theorem Tame.root_root (tame : subst.Tame) (v : TyVar) :
    subst.root (subst.root v) = subst.root v :=
  root_of_not_link (tame.cell_root_ne_link v)

theorem Tame.linkInduction (tame : subst.Tame) {motive : TyVar → Prop}
    (unlinked : ∀ v, (∀ w, subst.cell v ≠ .link w) → motive v)
    (linked : ∀ v w, subst.cell v = .link w → motive w → motive v) (v : TyVar) : motive v := by
  induction v using tame.acyclic.induction with
  | h v ih =>
    by_cases link : ∃ target, subst.cell v = .link target
    · obtain ⟨target, cell⟩ := link
      exact linked v target cell (ih target (uses_of_link cell))
    · exact unlinked v fun target cell => link ⟨target, cell⟩

theorem Tame.rank_root_le (tame : subst.Tame) (v : TyVar) :
    subst.rank (subst.root v) ≤ subst.rank v := by
  induction v using tame.linkInduction with
  | unlinked v notLink => rw [root_of_not_link notLink]
  | linked v w cell ih =>
    have lt := tame.rank_lt (uses_of_link cell)
    rw [tame.root_of_link cell]
    omega

theorem Tame.root_inside (tame : subst.Tame) {v : TyVar} (inside : v.index < subst.size) :
    (subst.root v).index < subst.size := by
  induction v using tame.linkInduction with
  | unlinked v notLink => rwa [root_of_not_link notLink]
  | linked v w cell ih =>
    rw [tame.root_of_link cell]
    exact ih (tame.linked cell)

end Root

/-- Induction along solutions: a solved variable takes over what holds of its solution, and any
other type what holds of its parts. -/
theorem Tame.resolveInduction (tame : subst.Tame)
    {motive : ∀ ty : Ty, ty.FirstOrder subst.size → Prop}
    (free : ∀ v (inside : v.index < subst.size), (∀ ty, subst.rootCell v ≠ .bound ty) →
      motive (.var v) (.var inside))
    (solved : ∀ v ty (inside : v.index < subst.size) (plain : ty.FirstOrder subst.size),
      subst.rootCell v = .bound ty → ty.isVar = false → motive ty plain →
      motive (.var v) (.var inside))
    (arrow : ∀ param result (fst : param.FirstOrder subst.size)
      (snd : result.FirstOrder subst.size), motive param fst → motive result snd →
      motive (.arrow param result) (.arrow fst snd))
    (tuple : ∀ elems (each : ∀ t ∈ elems, t.FirstOrder subst.size),
      (∀ t (member : t ∈ elems), motive t (each t member)) → motive (.tuple elems) (.tuple each))
    (nominal : ∀ template args (each : ∀ t ∈ args, t.FirstOrder subst.size),
      (∀ t (member : t ∈ args), motive t (each t member)) →
      motive (.nominal template args) (.nominal each))
    {ty : Ty} (plain : ty.FirstOrder subst.size) : motive ty plain := by
  -- A type follows from its leaves, and a leaf from the leaves of its solution, which rank lower.
  have ofLeaves : ∀ {ty : Ty} (plain : ty.FirstOrder subst.size),
      (∀ v ∈ ty.leaves, ∀ inside, motive (.var v) (.var inside)) → motive ty plain := by
    intro ty plain
    induction plain with
    | var inside => exact fun leaves => leaves _ (by simp [Ty.leaves]) inside
    | arrow fst snd ihParam ihResult =>
      exact fun leaves => arrow _ _ fst snd
        (ihParam fun v member => leaves v (by simp [Ty.leaves, member]))
        (ihResult fun v member => leaves v (by simp [Ty.leaves, member]))
    | tuple each ih =>
      refine fun leaves => tuple _ each fun t inElems => ih t inElems fun v member => ?_
      exact leaves v (by rw [Ty.leaves]; exact Ty.mem_leavesAll.mpr ⟨t, inElems, member⟩)
    | nominal each ih =>
      refine fun leaves => nominal _ _ each fun t inArgs => ih t inArgs fun v member => ?_
      exact leaves v (by rw [Ty.leaves]; exact Ty.mem_leavesAll.mpr ⟨t, inArgs, member⟩)
  have ofVar : ∀ rank v, subst.rank v = rank → ∀ inside, motive (.var v) (.var inside) := by
    intro rank
    induction rank using Nat.strongRecOn with
    | ind rank ih =>
      intro v same inside
      by_cases bound : ∃ ty, subst.rootCell v = .bound ty
      · obtain ⟨ty, cell⟩ := bound
        obtain ⟨plain, notVar⟩ := tame.solved cell
        refine solved v ty inside plain cell notVar (ofLeaves plain fun w member => ?_)
        have lower := tame.rank_lt (uses_of_bound cell member)
        have le := tame.rank_root_le v
        exact ih (subst.rank w) (by omega) w rfl
      · exact free v inside fun ty cell => bound ⟨ty, cell⟩
  exact ofLeaves plain fun v _ => ofVar _ v rfl

end PolyCheck.Subst
