import Mathlib.Algebra.Order.BigOperators.Group.Finset
import PolyCheck.Proofs.Kind.Solutions

/-! Most general kinds. Comparing kinds is stated once more without a budget, with an occurs check
that sees through all solutions. New solutions are heads of kinds that were there before, so no
solution outgrows those kinds and the solutions of the table; this bounds how deep a comparison can
go, also after variables have been solved on the way, and the budget is above the bound. A
comparison succeeds exactly when some values of the variables agree with the solutions and make the
kinds equal, and all such values agree with the solutions that it leaves. The table may come from
any earlier calls, failed ones included, which leave what they had solved. -/
namespace PolyCheck.KindTable

variable {table middle after : KindTable} {kind left right : Kind} {index depth bound : Nat}
  {values : Nat → Kind} {agreed : Bool}

inductive Compares : KindTable → Kind → Kind → Bool → KindTable → Prop where
  | heads {table after : KindTable} {left right : Kind} {agreed : Bool}
      (final : table.Final (table.head left)) (final' : table.Final (table.head right))
    (compares : Compares table (table.head left) (table.head right) agreed after) :
    Compares table left right agreed after
  | star (table : KindTable) : Compares table .star .star true table
  | same (table : KindTable) (index : Nat) : Compares table (.var index) (.var index) true table
  | solve {table : KindTable} {index : Nat} {kind : Kind} (inside : index < table.count)
    (unsolved : table.solution? index = none) (final : table.Final kind)
      (absent : ¬ table.Mentions kind index) :
    Compares table (.var index) kind true (table.solve index kind)
  | cyclic {table : KindTable} {index : Nat} {kind : Kind} (unsolved : table.solution? index = none)
    (final : table.Final kind) (different : kind ≠ .var index)
      (mentions : table.Mentions kind index) :
    Compares table (.var index) kind false table
  | flip {table after : KindTable} {index : Nat} {kind : Kind} {agreed : Bool} (solid : ∀ other,
      kind ≠ .var other)
    (compares : Compares table (.var index) kind agreed after) : Compares table kind (.var index)
      agreed after
  | starArrow (table : KindTable) (param result : Kind) : Compares table .star
      (.arrow param result) false table
  | arrowStar (table : KindTable) (param result : Kind) : Compares table (.arrow param result)
      .star false table
  | failed {table after : KindTable} {p r q s : Kind} (results : Compares table r s false after) :
    Compares table (.arrow p r) (.arrow q s) false after
  | arrow {table middle after : KindTable} {p r q s : Kind} {agreed : Bool}
      (results : Compares table r s true middle)
    (params : Compares middle p q agreed after) : Compares table (.arrow p r) (.arrow q s)
      agreed after

section Occurs

theorem Mentions.of_headWithin {steps : Nat}
    (mentions : table.Mentions (table.headWithin steps kind) index) :
    table.Mentions kind index := by
  induction steps generalizing kind with
  | zero => rwa [headWithin_zero] at mentions
  | succ steps ih =>
    cases kind with
    | star | arrow _ _ => exact mentions
    | var other =>
      rw [headWithin] at mentions
      cases known : table.solution? other with
      | none => rwa [known] at mentions
      | some next =>
        rw [known] at mentions
        exact .solved known (ih mentions)

theorem mentions_of_occursWithin (found : table.occursWithin index depth kind = true) :
    table.Mentions kind index := by
  induction depth generalizing kind with
  | zero => cases found
  | succ depth ih =>
    have inHead : table.Mentions (table.head kind) index := by
      rw [occursWithin] at found
      split at found
      · rename_i other same
        rw [same, eq_of_beq found]
        exact .here index
      · rename_i param result same
        rw [same]
        rcases Bool.or_eq_true_iff.mp found with inParam | inResult
        · exact .param (ih inParam)
        · exact .result (ih inResult)
      · cases found
    exact inHead.of_headWithin

theorem Enough.occursWithin_iff (ends : table.Ends) (unsolved : table.solution? index = none)
    (enough : table.Enough depth kind) : table.occursWithin index depth kind = true ↔
      table.Mentions kind index := by
  refine ⟨mentions_of_occursWithin, fun mentions => ?_⟩
  by_contra absent
  exact enough.not_mentions ends unsolved (eq_false_of_ne_true absent) mentions

theorem Tame.occurs_iff (tame : table.Tame) (unsolved : table.solution? index = none) :
    table.occurs index kind = true ↔ table.Mentions kind index :=
  (tame.enough_depthBound kind).occursWithin_iff tame.ends unsolved

theorem SatisfiedBy.size_le (satisfied : table.SatisfiedBy values)
    (mentions : table.Mentions kind index) : (values index).size ≤ (kind.under values).size := by
  induction mentions with
  | here index => exact Nat.le_refl _
  | param _ ih | result _ ih =>
    rw [Kind.under, Kind.size]
    omega
  | solved known _ ih =>
    rw [Kind.under, satisfied _ _ known]
    exact ih

theorem SatisfiedBy.value_ne (satisfied : table.SatisfiedBy values) (final : table.Final kind)
    (different : kind ≠ .var index) (mentions : table.Mentions kind index) :
      values index ≠ kind.under values := by
  intro same
  have size : (values index).size = (kind.under values).size := congrArg Kind.size same
  cases mentions with
  | here => exact different rfl
  | param mentions | result mentions =>
    have le := satisfied.size_le mentions
    rw [Kind.under, Kind.size] at size
    omega
  | solved known _ => cases (final _ rfl).symm.trans known

end Occurs

section Grows

/-- A tame table with further solutions, none of them larger than the bound. -/
structure Grows (table : KindTable) (bound : Nat) (after : KindTable) : Prop where
  tame : after.Tame
  count : after.count = table.count
  kept : ∀ {index kind}, table.solution? index = some kind → after.solution? index = some kind
  small : ∀ {index kind}, after.solution? index = some kind → kind.size ≤ bound

theorem Grows.trans (first : table.Grows bound middle) (second : middle.Grows bound after) :
    table.Grows bound after where
  tame := second.tame
  count := second.count.trans first.count
  kept known := second.kept (first.kept known)
  small := second.small

theorem Grows.size_headWithin (grows : table.Grows bound table) (steps : Nat)
    (small : kind.size ≤ bound) : (table.headWithin steps kind).size ≤ bound := by
  induction steps generalizing kind with
  | zero => rwa [headWithin_zero]
  | succ steps ih =>
    cases kind with
    | star | arrow _ _ => exact small
    | var index =>
      rw [headWithin]
      cases known : table.solution? index with
      | none => exact small
      | some next => exact ih (grows.small known)

theorem Grows.solve (grows : table.Grows bound table) (unsolved : table.solution? index = none)
    (final : table.Final kind) (below : kind.Below table.count)
    (absent : ¬ table.Mentions kind index)
    (small : kind.size ≤ bound) : table.Grows bound (table.solve index kind) where
  tame := grows.tame.solve unsolved final below absent
  count := by simp [KindTable.solve, KindTable.count]
  kept {other known} found := by
    have different : other ≠ index := by
      rintro rfl
      cases unsolved.symm.trans found
    rw [solution?_solve, if_neg fun both => different both.1, found]
  small {other known} found := by
    rw [solution?_solve] at found
    split at found
    · exact Option.some.inj found ▸ small
    · exact grows.small found

/-- Whether a comparison succeeds or not, what it solves stays without cycles and no larger than
what it compares. -/
theorem Compares.grows (compares : table.Compares left right agreed after)
    (grows : table.Grows bound table)
    (below : left.Below table.count) (below' : right.Below table.count) (small : left.size ≤ bound)
    (small' : right.size ≤ bound) : table.Grows bound after := by
  induction compares with
  | heads _ _ _ ih =>
    exact ih grows (grows.tame.below_headWithin _ below) (grows.tame.below_headWithin _ below')
      (grows.size_headWithin _ small) (grows.size_headWithin _ small')
  | star | same | cyclic | starArrow | arrowStar => exact grows
  | solve _ unsolved final absent => exact grows.solve unsolved final below' absent small'
  | flip _ _ ih => exact ih grows below' below small' small
  | failed _ ih =>
    rw [Kind.size] at small small'
    exact ih grows below.2 below'.2 (by omega) (by omega)
  | arrow _ _ ihResults ihParams =>
    rw [Kind.size] at small small'
    have results := ihResults grows below.2 below'.2 (by omega) (by omega)
    have grows' := Grows.mk results.tame rfl id results.small
    exact results.trans
      (ihParams grows' (results.count ▸ below.1) (results.count ▸ below'.1) (by omega) (by omega))

end Grows

section Budget

/-- What is found at the head of a kind needs no more depth, also when more has been solved. -/
theorem Enough.headWithin (enough : after.Enough depth kind)
    (kept : ∀ {index kind}, table.solution? index = some kind → after.solution? index = some kind)
    (steps : Nat) :
    after.Enough depth (table.headWithin steps kind) := by
  induction steps generalizing kind with
  | zero => rwa [headWithin_zero]
  | succ steps ih =>
    cases kind with
    | star | arrow _ _ => exact enough
    | var index =>
      rw [KindTable.headWithin]
      cases known : table.solution? index with
      | none => exact enough
      | some next =>
        cases enough with
        | free unsolved _ => cases unsolved.symm.trans (kept known)
        | solved known' enough =>
          obtain rfl := Option.some.inj ((kept known).symm.trans known')
          exact ih enough

theorem not_enough_zero : ¬ table.Enough 0 kind := by
  intro enough
  generalize none : 0 = depth at enough
  induction enough with
  | star | free | arrow => cases none
  | solved _ _ ih => exact ih none

theorem size_le_mass (known : table.solution? index = some kind) : kind.size ≤ table.mass := by
  rw [← weight_range, weight]
  have member : index ∈ Finset.range table.count :=
    Finset.mem_range.mpr (index_lt_of_solution? known)
  have le := Finset.single_le_sum (f := fun index => ((table.solution? index).map Kind.size).getD 0)
    (fun _ _ => Nat.zero_le _) member
  rwa [known] at le

theorem Grows.enough (grows : table.Grows bound after) (le : (table.count + 1) * bound ≤ depth)
    (small : kind.size ≤ bound) : after.Enough depth kind := by
  refine grows.tame.enough (Finset.range after.count) (fun index _ isSolved => ?_) ?_
  · obtain ⟨solution, known⟩ := Option.isSome_iff_exists.mp isSolved
    exact Finset.mem_range.mpr (index_lt_of_solution? known)
  · have each : ∀ index ∈ Finset.range after.count,
        ((after.solution? index).map Kind.size).getD 0 ≤ bound := by
      intro index _
      cases known : after.solution? index with
      | none => exact Nat.zero_le _
      | some solution => exact grows.small known
    have sum := Finset.sum_le_card_nsmul _ _ bound each
    rw [Finset.card_range, Nat.nsmul_eq_mul, grows.count] at sum
    rw [weight, grows.count]
    rw [Nat.succ_mul] at le
    exact Nat.le_trans (Nat.add_le_add sum small) le

end Budget

section Runs

theorem Tame.compares_assign (tame : table.Tame) (inside : index < table.count)
    (unsolved : table.solution? index = none) (final : table.Final kind)
    (different : kind ≠ .var index) :
    table.Compares (.var index) kind (table.assign index kind).1 (table.assign index kind).2 := by
  rw [assign]
  split
  · rename_i found
    exact .cyclic unsolved final different ((tame.occurs_iff unsolved).mp found)
  · rename_i absent
    exact .solve inside unsolved final fun mentions =>
      absent ((tame.occurs_iff unsolved).mpr mentions)

/-- A run with enough depth, now and after whatever it solves, is a comparison. -/
theorem Grows.compares_unifyWithin (grows : table.Grows bound table)
    (below : left.Below table.count)
    (below' : right.Below table.count) (small : left.size ≤ bound) (small' : right.size ≤ bound)
    (enough : ∀ {after}, table.Grows bound after → after.Enough depth left) :
    table.Compares left right (unifyWithin depth table left right).1
    (unifyWithin depth table left right).2 := by
  induction depth generalizing table left right with
  | zero => exact absurd (enough grows) not_enough_zero
  | succ depth ih =>
    have tame := grows.tame
    have final := tame.ends.final_head left
    have final' := tame.ends.final_head right
    refine .heads final final' ?_
    have below : (table.head left).Below table.count := tame.below_headWithin _ below
    have below' : (table.head right).Below table.count := tame.below_headWithin _ below'
    have small : (table.head left).size ≤ bound := grows.size_headWithin _ small
    have small' : (table.head right).size ≤ bound := grows.size_headWithin _ small'
    have enough : ∀ {after}, table.Grows bound after → after.Enough (depth + 1) (table.head left) :=
      fun later => (enough later).headWithin later.kept _
    rw [unifyWithin]
    generalize table.head left = left at final below small enough ⊢
    generalize table.head right = right at final' below' small' ⊢
    split
    · exact .star table
    · rename_i x y
      split
      · rename_i same
        exact same ▸ .same table x
      · rename_i different
        exact tame.compares_assign below (final x rfl) final' fun same =>
          different (Kind.var.inj same).symm
    · rename_i x solid
      exact tame.compares_assign below (final x rfl) final' (solid x)
    · rename_i x solid
      exact .flip solid (tame.compares_assign below' (final' x rfl) final (solid x))
    · rename_i p r q s
      rw [Kind.size] at small small'
      have deeper : ∀ {after}, table.Grows bound after → after.Enough depth p ∧
          after.Enough depth r := by
        intro after later
        cases enough later with
        | arrow fst snd => exact ⟨fst, snd⟩
      have results := ih grows below.2 below'.2 (by omega) (by omega) fun later => (deeper later).2
      split
      · rename_i middle run
        rw [run] at results
        have later := results.grows grows below.2 below'.2 (by omega) (by omega)
        refine .arrow results (ih ⟨later.tame, rfl, id, later.small⟩ (later.count ▸ below.1)
          (later.count ▸ below'.1) (by omega) (by omega) fun last => (deeper (later.trans last)).1)
      · rename_i notTrue
        obtain run : (unifyWithin depth table r s).1 = false :=
          eq_false_of_ne_true fun isTrue => notTrue _ (Prod.ext isTrue rfl)
        rw [run] at results ⊢
        exact .failed results
    · rename_i solid solid' notStars _ notArrows
      cases left with
      | var x => exact absurd rfl (solid x)
      | star =>
        cases right with
        | var y => exact absurd rfl (solid' y)
        | star => exact absurd rfl (notStars rfl)
        | arrow q s => exact .starArrow table q s
      | arrow p r =>
        cases right with
        | var y => exact absurd rfl (solid' y)
        | star => exact .arrowStar table p r
        | arrow q s => exact absurd rfl (notArrows p r q s rfl)

theorem Tame.grows (tame : table.Tame) (le : table.mass ≤ bound) : table.Grows bound table where
  tame := tame
  count := rfl
  kept := id
  small known := Nat.le_trans (size_le_mass known) le

theorem Tame.compares_unify (tame : table.Tame) (below : left.Below table.count)
    (below' : right.Below table.count) :
    table.Compares left right (table.unify left right).1 (table.unify left right).2 := by
  have grows : table.Grows (table.mass + left.size + right.size) table := tame.grows (by omega)
  refine grows.compares_unifyWithin below below' (by omega) (by omega) fun later =>
    later.enough ?_ (by omega)
  exact Nat.mul_le_mul_left _ (by rw [depthBound]; omega)

theorem Tame.unify (tame : table.Tame) (below : left.Below table.count)
    (below' : right.Below table.count) : (table.unify left right).2.Tame := by
  have grows : table.Grows (table.mass + left.size + right.size) table := tame.grows (by omega)
  exact ((tame.compares_unify below below').grows grows below below' (by omega) (by omega)).tame

end Runs

section Complete

theorem Compares.complete (compares : table.Compares left right agreed after)
    (satisfied : table.SatisfiedBy values)
    (same : left.under values = right.under values) : agreed = true ∧ after.SatisfiedBy values := by
  induction compares with
  | heads _ _ _ ih =>
    refine ih satisfied ?_
    rw [head, head, satisfied.under_headWithin, satisfied.under_headWithin, same]
  | star | same => exact ⟨rfl, satisfied⟩
  | solve _ _ _ _ =>
    refine ⟨rfl, fun other kind known => ?_⟩
    rw [solution?_solve] at known
    split at known
    · rename_i here
      rw [here.1, ← Option.some.inj known]
      exact same
    · exact satisfied other kind known
  | cyclic _ final different mentions =>
    exact absurd same (satisfied.value_ne final different mentions)
  | flip _ _ ih => exact ih satisfied same.symm
  | starArrow | arrowStar => cases same
  | failed _ ih => exact absurd (ih satisfied (Kind.arrow.inj same).2).1 Bool.false_ne_true
  | arrow _ _ ihResults ihParams =>
    obtain ⟨params, results⟩ := Kind.arrow.inj same
    exact ihParams (ihResults satisfied results).2 params

end Complete

section Resolve

theorem Ends.resolveWithin_solved (ends : table.Ends) {solution : Kind}
    (known : table.solution? index = some solution)
    (depth : Nat) : table.resolveWithin (depth + 1) (.var index) = table.resolveWithin
    (depth + 1) solution := by
  rw [resolveWithin, resolveWithin, ends.head_solved known]

theorem resolveWithin_arrow (table : KindTable) (depth : Nat) (param result : Kind) :
    table.resolveWithin (depth + 1) (.arrow param result) =
      .arrow (table.resolveWithin depth param) (table.resolveWithin depth result) := by
  rw [resolveWithin, head_arrow]

theorem Enough.resolveWithin_eq (ends : table.Ends) (enough : table.Enough depth kind)
    {depth' : Nat}
    (enough' : table.Enough depth' kind) :
      table.resolveWithin depth kind = table.resolveWithin depth' kind := by
  induction enough generalizing depth' with
  | star depth =>
    cases enough' with
    | star depth' => rfl
  | free unsolved depth =>
    cases enough' with
    | free _ depth' => rw [resolveWithin, resolveWithin, head_free unsolved]
    | solved known _ => cases unsolved.symm.trans known
  | arrow _ _ ihParam ihResult =>
    cases enough' with
    | arrow fst snd => rw [resolveWithin_arrow, resolveWithin_arrow, ihParam fst, ihResult snd]
  | @solved depth _ _ known enough ih =>
    cases enough' with
    | free unsolved _ => cases unsolved.symm.trans known
    | solved known' enough' =>
      obtain rfl := Option.some.inj (known.symm.trans known')
      cases depth with
      | zero => exact absurd enough not_enough_zero
      | succ depth =>
        cases depth' with
        | zero => exact absurd enough' not_enough_zero
        | succ depth' =>
          rw [ends.resolveWithin_solved known, ends.resolveWithin_solved known, ih enough']

theorem SatisfiedBy.under_resolveWithin (satisfied : table.SatisfiedBy values) (depth : Nat)
    (kind : Kind) : (table.resolveWithin depth kind).under values = kind.under values := by
  induction depth generalizing kind with
  | zero => rfl
  | succ depth ih =>
    rw [← satisfied.under_headWithin (table.count + 1) kind, resolveWithin]
    change _ = (table.head kind).under values
    split
    · rename_i param result same
      rw [same, Kind.under, Kind.under, ih, ih]
    · rfl

theorem SatisfiedBy.under_resolve (satisfied : table.SatisfiedBy values) (kind : Kind) :
    (table.resolve kind).under values = kind.under values :=
  satisfied.under_resolveWithin _ kind

theorem Tame.resolve_eq_under (tame : table.Tame) (kind : Kind) :
    table.resolve kind = kind.under fun index => table.resolve (.var index) := by
  induction kind with
  | star => rfl
  | var index => rfl
  | arrow param result ihParam ihResult =>
    have enough := tame.enough_depthBound (.arrow param result)
    rw [resolve]
    generalize table.depthBound (Kind.arrow param result).size = depth at enough ⊢
    cases enough with
    | arrow fst snd =>
      rw [resolveWithin_arrow, Kind.under, ← ihParam, ← ihResult, resolve, resolve]
      rw [fst.resolveWithin_eq tame.ends (tame.enough_depthBound param),
        snd.resolveWithin_eq tame.ends (tame.enough_depthBound result)]

theorem Tame.resolve_solved (tame : table.Tame) (known : table.solution? index = some kind) :
    table.resolve (.var index) = table.resolve kind := by
  have enough := tame.enough_depthBound (.var index)
  cases enough with
  | free unsolved _ => cases unsolved.symm.trans known
  | solved known' enough =>
    obtain rfl := Option.some.inj (known.symm.trans known')
    rw [resolve, depthBound, tame.ends.resolveWithin_solved known]
    exact enough.resolveWithin_eq tame.ends (tame.enough_depthBound kind)

theorem Tame.satisfiedBy_resolve (tame : table.Tame) : table.SatisfiedBy fun index => table.resolve
    (.var index) :=
  fun _ kind known => (tame.resolve_solved known).trans (tame.resolve_eq_under kind)

theorem Enough.mono (enough : table.Enough depth kind) {depth' : Nat} (le : depth ≤ depth') :
    table.Enough depth' kind := by
  induction enough generalizing depth' with
  | star depth =>
    obtain ⟨more, rfl⟩ := Nat.exists_eq_add_of_lt le
    exact .star _
  | free unsolved depth =>
    obtain ⟨more, rfl⟩ := Nat.exists_eq_add_of_lt le
    exact .free unsolved _
  | arrow _ _ ihParam ihResult =>
    obtain ⟨more, rfl⟩ := Nat.exists_eq_add_of_lt le
    exact .arrow (ihParam (by omega)) (ihResult (by omega))
  | solved known _ ih => exact .solved known (ih le)

end Resolve

/-- Tables made by new variables and by comparisons, successful or not, of kinds with variables of
the table. -/
inductive Reachable : KindTable → Prop where
  | empty : Reachable .empty
  | fresh {table : KindTable} (before : Reachable table) : Reachable table.fresh.2
  | unify {table : KindTable} (before : Reachable table) {left right : Kind}
      (below : left.Below table.count)
    (below' : right.Below table.count) : Reachable (table.unify left right).2

/-- Solutions mention neither the variable they are for nor one that is not there, so every walk
through them ends: more depth finds nothing else. -/
structure Traversable (table : KindTable) : Prop where
  acyclic : ∀ {index kind}, table.solution? index = some kind → ¬ table.Mentions kind index
  inside : ∀ {index kind}, table.solution? index = some kind → kind.Below table.count
  head : ∀ kind, table.Final (table.head kind)
  occurs : ∀ {index} kind depth, table.solution? index = none → table.depthBound kind.size ≤ depth →
    table.occursWithin index depth kind = table.occurs index kind
  resolve : ∀ kind depth, table.depthBound kind.size ≤ depth → table.resolveWithin depth kind =
    table.resolve kind
  defaulted : ∀ kind depth, table.depthBound kind.size ≤ depth → table.defaultedWithin depth kind =
    table.defaulted kind

theorem Reachable.tame (reachable : table.Reachable) : table.Tame := by
  induction reachable with
  | empty => exact tame_empty
  | fresh _ tame => exact tame.fresh
  | unify _ below below' tame => exact tame.unify below below'

theorem Tame.traversable (tame : table.Tame) : table.Traversable where
  acyclic := tame.acyclic
  inside := tame.inside
  head := tame.ends.final_head
  occurs kind _ unsolved le := by
    have enough := (tame.enough_depthBound kind).mono le
    exact Bool.eq_iff_iff.mpr
      ((enough.occursWithin_iff tame.ends unsolved).trans (tame.occurs_iff unsolved).symm)
  resolve kind _ le :=
    ((tame.enough_depthBound kind).mono le).resolveWithin_eq tame.ends (tame.enough_depthBound kind)
  defaulted kind _ le :=
    ((tame.enough_depthBound kind).mono le).defaultedWithin_eq tame.ends
      (tame.enough_depthBound kind)

/-- Comparing two kinds ends without a cycle among the solutions, succeeds exactly when some values
of the variables agree with the solutions so far and make the kinds equal, and then leaves the most
general solutions. -/
theorem unify_mostGeneral (reachable : table.Reachable) (below : left.Below table.count)
    (below' : right.Below table.count) :
    ∃ agreed after, table.unify left right = (agreed, after) ∧
      table.Compares left right agreed after ∧ after.Reachable ∧ after.Traversable ∧
      (agreed = true ↔ ∃ values, table.SatisfiedBy values ∧
        left.under values = right.under values) ∧
      (agreed = true → after.resolve left = after.resolve right ∧
        ∀ values, table.SatisfiedBy values → left.under values = right.under values →
          after.SatisfiedBy values ∧ ∀ kind,
          (after.resolve kind).under values = kind.under values) := by
  have tame := reachable.tame
  have compares := tame.compares_unify below below'
  have later : (table.unify left right).2.Reachable := .unify reachable below below'
  cases run : table.unify left right with
  | mk agreed after =>
    rw [run] at compares later
    refine ⟨agreed, after, rfl, compares, later, later.tame.traversable, ⟨?_, ?_⟩,
      fun isTrue => ⟨?_, ?_⟩⟩
    · rintro rfl
      have equates := tame.equates_unify below below' run
      have satisfied := later.tame.satisfiedBy_resolve
      exact ⟨_, equates.kept satisfied, equates.equal satisfied⟩
    · rintro ⟨values, satisfied, same⟩
      exact (compares.complete satisfied same).1
    · have equates := tame.equates_unify below below' (isTrue ▸ run)
      rw [later.tame.resolve_eq_under, later.tame.resolve_eq_under right]
      exact equates.equal later.tame.satisfiedBy_resolve
    · intro values satisfied same
      have satisfied' := (compares.complete satisfied same).2
      exact ⟨satisfied', satisfied'.under_resolve⟩

/-- A variable and a function of another variable. -/
theorem unify_variable_function :
    ∃ after, empty.fresh.2.fresh.2.unify (.var 0) (.arrow (.var 1) .star) = (true, after) ∧
      after.resolve (.var 0) = after.resolve (.arrow (.var 1) .star) := by
  have reachable : empty.fresh.2.fresh.2.Reachable := .fresh (.fresh .empty)
  obtain ⟨agreed, after, result, -, -, -, answers, general⟩ := @unify_mostGeneral _ (.var 0)
    (.arrow (.var 1) .star) reachable (by decide : 0 < 2) ⟨(by decide : 1 < 2), trivial⟩
  have unsolved : ∀ index kind, empty.fresh.2.fresh.2.solution? index ≠ some kind := by
    intro index kind
    rw [solution?_fresh, solution?_fresh]
    nofun
  have values : ∃ values, empty.fresh.2.fresh.2.SatisfiedBy values ∧
      (Kind.var 0).under values = (Kind.arrow (.var 1) .star).under values :=
    ⟨fun index => if index = 0 then .arrow .star .star else .star,
      fun index kind known => absurd known (unsolved index kind), rfl⟩
  obtain rfl := answers.mpr values
  exact ⟨after, result, (general rfl).1⟩

end PolyCheck.KindTable
