import Mathlib.Algebra.BigOperators.Group.Finset.Basic
import Mathlib.Algebra.BigOperators.Intervals
import PolyCheck.Proofs.Kind.Table

/-! What kinds stand for in the end. No variable is solved by a kind that mentions it, not even
through other solutions, so a walk from a kind meets every solution at most once on each of its
paths and ends within the depth that is granted. The kinds that are given to variables in the end
then agree with all solutions, and kinds that have been made equal stand for the same kind. -/
namespace PolyCheck

theorem total_eq_sum (sizes : List Nat) : total sizes = ∑ index ∈ Finset.range sizes.length,
    sizes[index]?.getD 0 := by
  induction sizes with
  | nil => rfl
  | cons size sizes ih =>
    rw [total_cons, List.length_cons, Finset.sum_range_succ', Nat.add_comm, ih]
    rfl

namespace Kind

def under (values : Nat → Kind) : Kind → Kind
  | star => star
  | arrow param result => arrow (under values param) (under values result)
  | var index => values index

def Below (bound : Nat) : Kind → Prop
  | star => True
  | arrow param result => param.Below bound ∧ result.Below bound
  | var index => index < bound

abbrev Closed (kind : Kind) : Prop := kind.Below 0

variable {kind result : Kind} {params : List Kind} {values values' : Nat → Kind} {bound : Nat}

theorem Below.mono {larger : Nat} (below : kind.Below bound) (le : bound ≤ larger) :
    kind.Below larger := by
  induction kind with
  | star => trivial
  | arrow param result ihParam ihResult => exact ⟨ihParam below.1, ihResult below.2⟩
  | var index => exact Nat.lt_of_lt_of_le below le

theorem Closed.under_eq (closed : kind.Closed) (values : Nat → Kind) :
    kind.under values = kind := by
  induction kind with
  | star => rfl
  | arrow param result ihParam ihResult => rw [under, ihParam closed.1, ihResult closed.2]
  | var index => exact absurd closed (Nat.not_lt_zero index)

theorem map_under_of_closed {kinds : List Kind} (closed : ∀ kind ∈ kinds, kind.Closed)
    (values : Nat → Kind) : kinds.map (under values) = kinds :=
  (List.map_congr_left fun kind member => (closed kind member).under_eq values).trans
    (List.map_id kinds)

theorem closed_under (closed : ∀ index, (values index).Closed) : (kind.under values).Closed := by
  induction kind with
  | star => trivial
  | arrow param result ihParam ihResult => exact ⟨ihParam, ihResult⟩
  | var index => exact closed index

theorem below_function : (function params result).Below bound ↔ (∀ p ∈ params, p.Below bound) ∧
    result.Below bound := by
  induction params with
  | nil => simp [function]
  | cons param params ih =>
    rw [List.forall_mem_cons, and_assoc, ← ih]
    rfl

theorem under_function (values : Nat → Kind) (params : List Kind) (result : Kind) :
    (function params result).under values = function (params.map (under values))
    (result.under values) := by
  induction params with
  | nil => rfl
  | cons param params ih => exact congrArg (arrow (param.under values)) ih

end Kind

namespace KindTable

variable {table after : KindTable} {kind solution left right : Kind} {index other depth : Nat}
  {values : Nat → Kind}

/-- The values of the variables are those of their solutions. -/
def SatisfiedBy (table : KindTable) (values : Nat → Kind) : Prop :=
  ∀ index kind, table.solution? index = some kind → values index = kind.under values

inductive Mentions (table : KindTable) : Kind → Nat → Prop where
  | here (index : Nat) : Mentions table (.var index) index
  | param {param result : Kind} {index : Nat} (mentions : Mentions table param index) :
    Mentions table (.arrow param result) index
  | result {param result : Kind} {index : Nat} (mentions : Mentions table result index) :
    Mentions table (.arrow param result) index
  | solved {index other : Nat} {kind : Kind} (known : table.solution? index = some kind)
    (mentions : Mentions table kind other) : Mentions table (.var index) other

structure Tame (table : KindTable) : Prop where
  ends : table.Ends
  acyclic : ∀ {index kind}, table.solution? index = some kind → ¬ table.Mentions kind index
  inside : ∀ {index kind}, table.solution? index = some kind → kind.Below table.count

theorem Mentions.trans (mentions : table.Mentions kind index)
    (known : table.solution? index = some solution)
    (further : table.Mentions solution other) : table.Mentions kind other := by
  induction mentions with
  | here index => exact .solved known further
  | param _ ih => exact .param (ih known)
  | result _ ih => exact .result (ih known)
  | solved through _ ih => exact .solved through (ih known)

theorem Mentions.congr (same : ∀ index, after.solution? index = table.solution? index)
    (mentions : after.Mentions kind index) : table.Mentions kind index := by
  induction mentions with
  | here index => exact .here index
  | param _ ih => exact .param ih
  | result _ ih => exact .result ih
  | solved known _ ih => exact .solved ((same _).symm.trans known) ih

theorem index_lt_of_solution? (known : table.solution? index = some kind) :
    index < table.count := by
  by_contra outside
  rw [solution?, Array.getElem?_eq_none (Nat.le_of_not_lt outside)] at known
  cases known

section Head

theorem head_free (unsolved : table.solution? index = none) :
    table.head (.var index) = .var index :=
  headWithin_of_final fun _ same => Kind.var.inj same ▸ unsolved

theorem Ends.head_solved (ends : table.Ends) (known : table.solution? index = some kind) :
    table.head (.var index) = table.head kind := by
  obtain ⟨more, same⟩ := Nat.exists_eq_add_of_le table.solved_le_count
  rw [head, headWithin, known, head]
  dsimp only
  rw [same, headWithin_add (ends kind) more, Nat.add_assoc, headWithin_add (ends kind)]

theorem headWithin_zero (table : KindTable) (kind : Kind) : table.headWithin 0 kind = kind := by
  cases kind with
  | star | arrow _ _ | var _ => rfl

theorem SatisfiedBy.under_headWithin (satisfied : table.SatisfiedBy values) (steps : Nat)
    (kind : Kind) : (table.headWithin steps kind).under values = kind.under values := by
  induction steps generalizing kind with
  | zero => rw [headWithin_zero]
  | succ steps ih =>
    cases kind with
    | star | arrow _ _ => rfl
    | var index =>
      rw [headWithin]
      cases known : table.solution? index with
      | none => rfl
      | some kind => exact (ih kind).trans (satisfied index kind known).symm

theorem Tame.below_headWithin (tame : table.Tame) (steps : Nat) (below : kind.Below table.count) :
    (table.headWithin steps kind).Below table.count := by
  induction steps generalizing kind with
  | zero => rwa [headWithin_zero]
  | succ steps ih =>
    cases kind with
    | star | arrow _ _ => exact below
    | var index =>
      rw [headWithin]
      cases known : table.solution? index with
      | none => exact below
      | some kind => exact ih (tame.inside known)

end Head

section Walk

inductive Enough (table : KindTable) : Nat → Kind → Prop where
  | star (depth : Nat) : Enough table (depth + 1) .star
  | free {index : Nat} (unsolved : table.solution? index = none) (depth : Nat) :
    Enough table (depth + 1) (.var index)
  | arrow {depth : Nat} {param result : Kind} (fst : Enough table depth param)
      (snd : Enough table depth result) : Enough table (depth + 1) (.arrow param result)
  | solved {depth index : Nat} {kind : Kind} (known : table.solution? index = some kind)
    (enough : Enough table depth kind) : Enough table depth (.var index)

def weight (table : KindTable) (vars : Finset Nat) : Nat :=
  ∑ index ∈ vars, ((table.solution? index).map Kind.size).getD 0

theorem weight_range (table : KindTable) : table.weight (Finset.range table.count) =
    table.mass := by
  rw [mass, total_eq_sum, weight]
  rw [List.length_map, Array.length_toList]
  refine Finset.sum_congr rfl fun index member => ?_
  have inside : index < table.solutions.size := Finset.mem_range.mp member
  simp [solution?, inside]

theorem Tame.enough (tame : table.Tame) (vars : Finset Nat) :
    ∀ {kind : Kind} {depth : Nat},
    (∀ index, table.Mentions kind index → (table.solution? index).isSome → index ∈ vars) →
      table.weight vars + kind.size ≤ depth → table.Enough depth kind := by
  induction vars using Finset.strongInduction with
  | H vars ihVars =>
    intro kind depth mentioned le
    induction kind generalizing depth with
    | star =>
      obtain ⟨depth, rfl⟩ :=
        Nat.exists_eq_succ_of_ne_zero (n := depth) (by simp only [Kind.size] at le; omega)
      exact .star depth
    | arrow param result ihParam ihResult =>
      simp only [Kind.size] at le
      obtain ⟨depth, rfl⟩ := Nat.exists_eq_succ_of_ne_zero (n := depth) (by omega)
      exact .arrow (ihParam (fun index mentions => mentioned index (.param mentions)) (by omega))
        (ihResult (fun index mentions => mentioned index (.result mentions)) (by omega))
    | var index =>
      simp only [Kind.size] at le
      cases known : table.solution? index with
      | none =>
        obtain ⟨depth, rfl⟩ := Nat.exists_eq_succ_of_ne_zero (n := depth) (by omega)
        exact .free known depth
      | some solution =>
        have member : index ∈ vars := mentioned index (.here index) (by rw [known]; rfl)
        have split : solution.size + table.weight (vars.erase index) = table.weight vars := by
          have sum := Finset.add_sum_erase vars
            (fun index => ((table.solution? index).map Kind.size).getD 0) member
          rwa [known] at sum
        refine .solved known
          (ihVars _ (Finset.erase_ssubset member) (fun other mentions isSolved => ?_) (by omega))
        refine Finset.mem_erase.mpr ⟨?_, mentioned other (.solved known mentions) isSolved⟩
        rintro rfl
        exact tame.acyclic known mentions

theorem Tame.enough_depthBound (tame : table.Tame) (kind : Kind) :
    table.Enough (table.depthBound kind.size) kind := by
  refine tame.enough (Finset.range table.count) (fun index _ isSolved => ?_) ?_
  · obtain ⟨solution, known⟩ := Option.isSome_iff_exists.mp isSolved
    exact Finset.mem_range.mpr (index_lt_of_solution? known)
  · rw [weight_range, depthBound]
    exact Nat.le_succ _

theorem Ends.defaultedWithin_solved (ends : table.Ends) (known : table.solution? index = some kind)
    (depth : Nat) :
    table.defaultedWithin depth (.var index) = table.defaultedWithin depth kind := by
  cases depth with
  | zero => rfl
  | succ depth => rw [defaultedWithin, defaultedWithin, ends.head_solved known]

theorem defaultedWithin_arrow (table : KindTable) (depth : Nat) (param result : Kind) :
    table.defaultedWithin (depth + 1) (.arrow param result) =
      .arrow (table.defaultedWithin depth param) (table.defaultedWithin depth result) := by
  rw [defaultedWithin, head_arrow]

theorem Ends.occursWithin_solved (ends : table.Ends) (known : table.solution? index = some kind)
    (depth : Nat) :
    table.occursWithin other depth (.var index) = table.occursWithin other depth kind := by
  cases depth with
  | zero => rfl
  | succ depth => rw [occursWithin, occursWithin, ends.head_solved known]

theorem Enough.defaultedWithin_eq (ends : table.Ends) (enough : table.Enough depth kind)
    {depth' : Nat}
    (enough' : table.Enough depth' kind) :
      table.defaultedWithin depth kind = table.defaultedWithin depth' kind := by
  induction enough generalizing depth' with
  | star depth =>
    cases enough' with
    | star depth' => rfl
  | free unsolved depth =>
    cases enough' with
    | free _ depth' => rw [defaultedWithin, defaultedWithin, head_free unsolved]
    | solved known _ => cases unsolved.symm.trans known
  | arrow _ _ ihParam ihResult =>
    cases enough' with
    | arrow fst snd => rw [defaultedWithin_arrow, defaultedWithin_arrow, ihParam fst, ihResult snd]
  | solved known _ ih =>
    cases enough' with
    | free unsolved _ => cases unsolved.symm.trans known
    | solved known' enough' =>
      obtain rfl := Option.some.inj (known.symm.trans known')
      rw [ends.defaultedWithin_solved known, ends.defaultedWithin_solved known, ih enough']

theorem Enough.not_mentions (ends : table.Ends) (unsolved : table.solution? index = none)
    (enough : table.Enough depth kind) (absent : table.occursWithin index depth kind = false) :
    ¬ table.Mentions kind index := by
  induction enough with
  | star _ =>
    intro mentions
    cases mentions
  | free unsolved' _ =>
    rw [occursWithin, head_free unsolved'] at absent
    rintro (_ | _ | _ | ⟨known, _⟩)
    · simp at absent
    · cases unsolved'.symm.trans known
  | arrow _ _ ihParam ihResult =>
    rw [occursWithin, head_arrow] at absent
    obtain ⟨noParam, noResult⟩ := Bool.or_eq_false_iff.mp absent
    rintro (_ | mentions | mentions | _)
    · exact ihParam noParam mentions
    · exact ihResult noResult mentions
  | solved known _ ih =>
    rw [ends.occursWithin_solved known] at absent
    rintro (_ | _ | _ | ⟨known', mentions⟩)
    · cases unsolved.symm.trans known
    · obtain rfl := Option.some.inj (known.symm.trans known')
      exact ih absent mentions

end Walk

section Defaults

def defaults (table : KindTable) (index : Nat) : Kind := table.defaulted (.var index)

theorem closed_defaultedWithin (table : KindTable) (depth : Nat) (kind : Kind) :
    (table.defaultedWithin depth kind).Closed := by
  induction depth generalizing kind with
  | zero => trivial
  | succ depth ih =>
    rw [defaultedWithin]
    split
    · exact ⟨ih _, ih _⟩
    · trivial

theorem closed_defaults (table : KindTable) (index : Nat) : (table.defaults index).Closed :=
  closed_defaultedWithin table _ _

theorem Tame.defaulted_eq_under (tame : table.Tame) (kind : Kind) :
    table.defaulted kind = kind.under table.defaults := by
  induction kind with
  | star => rw [defaulted, depthBound]; rfl
  | var index => rfl
  | arrow param result ihParam ihResult =>
    have enough := tame.enough_depthBound (.arrow param result)
    rw [defaulted]
    generalize table.depthBound (Kind.arrow param result).size = depth at enough ⊢
    cases enough with
    | arrow fst snd =>
      rw [defaultedWithin_arrow, Kind.under, ← ihParam, ← ihResult, defaulted, defaulted]
      rw [fst.defaultedWithin_eq tame.ends (tame.enough_depthBound param),
        snd.defaultedWithin_eq tame.ends (tame.enough_depthBound result)]

theorem Tame.satisfiedBy_defaults (tame : table.Tame) : table.SatisfiedBy table.defaults := by
  intro index kind known
  have enough := tame.enough_depthBound (.var index)
  rw [← tame.defaulted_eq_under, defaults, defaulted, tame.ends.defaultedWithin_solved known,
    defaulted]
  generalize table.depthBound (Kind.var index).size = depth at enough ⊢
  cases enough with
  | free unsolved _ => cases unsolved.symm.trans known
  | solved known' enough =>
    obtain rfl := Option.some.inj (known.symm.trans known')
    exact enough.defaultedWithin_eq tame.ends (tame.enough_depthBound kind)

end Defaults

section Fresh

theorem tame_empty : empty.Tame where
  ends := ends_empty
  acyclic known := by cases known
  inside known := by cases known

theorem Tame.fresh (tame : table.Tame) : table.fresh.2.Tame where
  ends := tame.ends.fresh
  acyclic known mentions :=
    tame.acyclic ((solution?_fresh table _).symm.trans known)
      (mentions.congr (solution?_fresh table))
  inside known := by
    refine (tame.inside ((solution?_fresh table _).symm.trans known)).mono ?_
    simp [KindTable.fresh, count]

theorem SatisfiedBy.of_fresh (satisfied : table.fresh.2.SatisfiedBy values) :
    table.SatisfiedBy values :=
  fun index kind known => satisfied index kind ((solution?_fresh table index).trans known)

end Fresh

section Unify

theorem mentions_of_solve (mentions : (table.solve index solution).Mentions kind other) :
    table.Mentions kind other ∨ table.Mentions kind index ∧ table.Mentions solution other := by
  induction mentions with
  | here other => exact .inl (.here other)
  | param _ ih => exact ih.imp .param fun both => ⟨.param both.1, both.2⟩
  | result _ ih => exact ih.imp .result fun both => ⟨.result both.1, both.2⟩
  | solved known _ ih =>
    rw [solution?_solve] at known
    split at known
    · rename_i same
      obtain rfl := Option.some.inj known
      obtain ⟨rfl, -⟩ := same
      exact .inr ⟨.here _, ih.elim id And.right⟩
    · exact ih.imp (.solved known) fun both => ⟨.solved known both.1, both.2⟩

theorem Tame.solve (tame : table.Tame) (unsolved : table.solution? index = none)
    (final : table.Final solution)
    (below : solution.Below table.count) (apart : ¬ table.Mentions solution index) :
    (table.solve index solution).Tame where
  ends := by
    refine tame.ends.solve unsolved fun other same => ?_
    subst same
    have different : other ≠ index := fun same => apart (same ▸ .here other)
    rw [solution?_solve, if_neg fun both => different both.1]
    exact final other rfl
  acyclic {other kind} known mentions := by
    rw [solution?_solve] at known
    split at known
    · rename_i same
      obtain rfl := Option.some.inj known
      obtain ⟨rfl, -⟩ := same
      exact apart ((mentions_of_solve mentions).elim id And.left)
    · rcases mentions_of_solve mentions with before | ⟨toIndex, back⟩
      · exact tame.acyclic known before
      · exact apart (back.trans known toIndex)
  inside {other kind} known := by
    have same : (table.solve index solution).count = table.count := by simp [KindTable.solve, count]
    rw [solution?_solve] at known
    split at known
    · exact same ▸ Option.some.inj known ▸ below
    · exact same ▸ tame.inside known

/-- The kinds stand for the same in every reading of the later table, which is one of the earlier
table. -/
structure Equates (table : KindTable) (left right : Kind) (after : KindTable) : Prop where
  tame : after.Tame
  count : after.count = table.count
  kept : ∀ {values}, after.SatisfiedBy values → table.SatisfiedBy values
  equal : ∀ {values}, after.SatisfiedBy values → left.under values = right.under values

theorem Equates.symm (equates : table.Equates left right after) : table.Equates right left after :=
  ⟨equates.tame, equates.count, equates.kept, fun satisfied => (equates.equal satisfied).symm⟩

theorem Tame.equates_refl (tame : table.Tame) (kind : Kind) : table.Equates kind kind table :=
  ⟨tame, rfl, id, fun _ => rfl⟩

theorem Equates.of_heads (equates : table.Equates (table.head left) (table.head right) after) :
    table.Equates left right after where
  tame := equates.tame
  count := equates.count
  kept := equates.kept
  equal satisfied := by
    have before := equates.kept satisfied
    have same := equates.equal satisfied
    rwa [head, head, before.under_headWithin, before.under_headWithin] at same

theorem Tame.equates_assign (tame : table.Tame) (below : index < table.count)
    (unsolved : table.solution? index = none) (final : table.Final kind)
    (below' : kind.Below table.count)
    (run : table.assign index kind = (true, after)) : table.Equates (.var index) kind after := by
  have absent : table.occurs index kind = false := by
    rw [assign] at run
    split at run
    · cases run
    · exact eq_false_of_ne_true ‹_›
  obtain rfl := eq_solve_of_assign run
  have apart := (tame.enough_depthBound kind).not_mentions tame.ends unsolved absent
  refine ⟨tame.solve unsolved final below' apart,
    by simp [KindTable.solve, KindTable.count], ?_, ?_⟩
  · intro values satisfied other found known
    have different : other ≠ index := by
      rintro rfl
      cases unsolved.symm.trans known
    refine satisfied other found ?_
    rwa [solution?_solve, if_neg fun both => different both.1]
  · intro values satisfied
    refine satisfied index kind ?_
    rw [solution?_solve, if_pos ⟨rfl, below⟩]

theorem Tame.equates_unifyWithin (tame : table.Tame) (below : left.Below table.count)
    (below' : right.Below table.count) (run : unifyWithin depth table left right = (true, after)) :
    table.Equates left right after := by
  induction depth generalizing table left right after with
  | zero => cases run
  | succ depth ih =>
    refine .of_heads ?_
    have final := tame.ends.final_head left
    have final' := tame.ends.final_head right
    have below : (table.head left).Below table.count := tame.below_headWithin _ below
    have below' : (table.head right).Below table.count := tame.below_headWithin _ below'
    rw [unifyWithin] at run
    generalize table.head left = left at final below run ⊢
    generalize table.head right = right at final' below' run ⊢
    split at run
    · obtain rfl := (Prod.mk.inj run).2
      exact tame.equates_refl _
    · rename_i x y
      split at run
      · rename_i same
        obtain rfl := (Prod.mk.inj run).2
        exact same ▸ tame.equates_refl _
      · exact tame.equates_assign below (final x rfl) final' below' run
    · exact tame.equates_assign below (final _ rfl) final' below' run
    · exact (tame.equates_assign below' (final' _ rfl) final below run).symm
    · rename_i p r q s
      split at run
      · rename_i middle results
        have results := ih tame below.2 below'.2 results
        have params := ih results.tame (results.count ▸ below.1) (results.count ▸ below'.1) run
        refine ⟨params.tame, params.count.trans results.count,
          fun satisfied => results.kept (params.kept satisfied), fun satisfied => ?_⟩
        rw [Kind.under, Kind.under, params.equal satisfied, results.equal (params.kept satisfied)]
      · rename_i failed
        exact absurd run (failed after)
    · cases run

theorem Tame.equates_unify (tame : table.Tame) (below : left.Below table.count)
    (below' : right.Below table.count)
    (run : table.unify left right = (true, after)) : table.Equates left right after :=
  tame.equates_unifyWithin below below' run

end Unify

end KindTable

end PolyCheck
