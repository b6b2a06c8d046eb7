import PolyCheck.Proofs.Kind.MostGeneral
import PolyCheck.Proofs.Session.Meanings

/-! Written types that have a kind are read. Kinds for all type variables under which a type has a
kind are never lost while it is read: each comparison of kinds leaves them possible and so
succeeds. -/
namespace PolyCheck

open Run

theorem Kind.Below.under_congr {kind : Kind} {bound : Nat} {values values' : Nat → Kind}
    (below : kind.Below bound)
    (same : ∀ index < bound, values' index = values index) :
      kind.under values' = kind.under values := by
  induction kind with
  | star => rfl
  | arrow param result ihParam ihResult => rw [under, under, ihParam below.1, ihResult below.2]
  | var index => exact same index below

theorem KindTable.SatisfiedBy.fresh {table : KindTable} {values : Nat → Kind}
    (satisfied : table.SatisfiedBy values)
    (tame : table.Tame) (kind : Kind) : table.fresh.2.SatisfiedBy
    (Function.update values table.count kind) := by
  intro index solution known
  rw [solution?_fresh] at known
  have inside := index_lt_of_solution? known
  rw [Function.update_of_ne (Nat.ne_of_lt inside), satisfied index solution known]
  exact ((tame.inside known).under_congr fun other less =>
    Function.update_of_ne (Nat.ne_of_lt less) ..).symm

namespace Elaborate

open Surface

/-- The names in scope and those used so far have the kinds that are given to them. -/
structure Rated (free rates : Name → Kind) (values : Nat → Kind) (state : Elaborator) : Prop where
  satisfied : state.kinds.SatisfiedBy values
  inScope : ∀ {name binding}, state.scope.find? (·.name = name) = some binding →
    rates name = binding.kind.under values
  used : ∀ {name binding}, (state.free.getD []).find? (·.name = name) = some binding →
    free name = binding.kind.under values
  outside : ∀ {name}, state.scope.find? (·.name = name) = none → rates name = free name
  opened : state.free.isSome

/-- There are further kind variables with values, and the earlier ones keep theirs. -/
structure Prolongs (state : Elaborator) (values : Nat → Kind) (last : Elaborator)
    (values' : Nat → Kind) : Prop where
  count : state.kinds.count ≤ last.kinds.count
  same : ∀ index < state.kinds.count, values' index = values index

theorem Prolongs.refl (state : Elaborator) (values : Nat → Kind) :
    Prolongs state values state values :=
  ⟨le_rfl, fun _ _ => rfl⟩

theorem Prolongs.trans {state middle last : Elaborator} {values values' values'' : Nat → Kind}
    (first : Prolongs state values middle values')
    (second : Prolongs middle values' last values'') :
    Prolongs state values last values'' :=
  ⟨first.count.trans second.count, fun index less =>
    (second.same index (Nat.lt_of_lt_of_le less first.count)).trans (first.same index less)⟩

theorem Prolongs.under_eq {state last : Elaborator} {values values' : Nat → Kind}
    {sorting : Sorting false} {kind : Kind}
    (prolongs : Prolongs state values last values') (kinds : state.Sorted sorting)
    (below : kind.Below sorting.table.count) :
    kind.under values' = kind.under values :=
  below.under_congr fun index less => prolongs.same index (kinds.table ▸ less)

/-- The run succeeds, and the values of kind variables can be chosen further. -/
def Succeeds {α : Type} (state : Elaborator) (session : Session) (free rates : Name → Kind)
    (values : Nat → Kind) (said : (Nat → Kind) → α → Prop) (run : Elaborate α) : Prop :=
  ∃ result last after values', run state session = .ok (result, last) after ∧
    Prolongs state values last values' ∧ Rated free rates values' last ∧ said values' result

variable {α β : Type} {state : Elaborator} {session : Session} {free rates rates' : Name → Kind}
  {values : Nat → Kind}
  {said : (Nat → Kind) → α → Prop} {said' : (Nat → Kind) → β → Prop} {run : Elaborate α}
    {next : α → Elaborate β}

theorem Succeeds.bind (first : Succeeds state session free rates values said run)
    (then_ : ∀ {result last after values'}, run state session = .ok (result, last) after →
      Prolongs state values last values' → Rated free rates values' last → said values' result →
      Succeeds last after free rates' values' said' (next result)) :
    Succeeds state session free rates' values said' (run >>= next) := by
  obtain ⟨result, middle, between, values', ran, prolongs, rated, holds⟩ := first
  obtain ⟨result', last, after, values'', ran', prolongs', rest⟩ := then_ ran prolongs rated holds
  exact ⟨result', last, after, values'', state_bind_eq_ok.mpr ⟨_, _, _, ran, ran'⟩,
    prolongs.trans prolongs', rest⟩

theorem Succeeds.pure {result : α} (rated : Rated free rates values state)
    (holds : said values result) : Succeeds state session free rates values said (pure result) :=
  ⟨result, state, session, values, rfl, .refl state values, rated, holds⟩

theorem Succeeds.own {next : Elaborator → Elaborate α}
    (rest : Succeeds state session free rates values said (next state)) :
    Succeeds state session free rates values said (get >>= next) := rest

variable {sorting : Sorting false} {kind : Kind}

theorem prolongs_fresh (state : Elaborator) (values : Nat → Kind) (kind : Kind) :
    Prolongs state values { state with kinds := state.kinds.fresh.2 }
    (Function.update values state.kinds.count kind) where
  count := by simp [KindTable.fresh, KindTable.count]
  same index less := Function.update_of_ne (Nat.ne_of_lt less) ..

theorem Rated.fresh (rated : Rated free rates values state) (kinds : state.Sorted sorting)
    (kind : Kind) :
    Rated free rates (Function.update values state.kinds.count kind)
    { state with kinds := state.kinds.fresh.2 } := by
  have old : ∀ binding : TypeBinding, sorting.Sorts (.var binding.var) binding.kind →
      binding.kind.under (Function.update values state.kinds.count kind) =
      binding.kind.under values := fun binding sorts =>
    (prolongs_fresh state values kind).under_eq kinds sorts.below
  refine ⟨rated.satisfied.fresh (kinds.table ▸ kinds.tame) kind, fun known => ?_, fun known => ?_,
    rated.outside, rated.opened⟩
  · exact (rated.inScope known).trans (old _ (kinds.scope _ (List.mem_of_find?_eq_some known))).symm
  · obtain ⟨made, same⟩ := Option.isSome_iff_exists.mp rated.opened
    refine (rated.used known).trans (old _ (kinds.free same _ ?_)).symm
    have member := List.mem_of_find?_eq_some known
    simp only at member
    rwa [same] at member

theorem succeeds_freshKind (rated : Rated free rates values state) (kinds : state.Sorted sorting)
    (kind : Kind) :
    Succeeds state session free rates values
    (fun values' found => found.under values' = kind) freshKind :=
  ⟨_, _, _, _, rfl, prolongs_fresh state values kind, rated.fresh kinds kind,
    Function.update_self ..⟩

theorem succeeds_expectKind (rated : Rated free rates values state) (kinds : state.Sorted sorting)
    {expected found : Kind}
    (below : expected.Below sorting.table.count) (below' : found.Below sorting.table.count)
    (same : expected.under values = found.under values) (span : Span) :
    Succeeds state session free rates values (fun values' _ => values' = values)
    (expectKind expected found span) := by
  have compares := kinds.tame.compares_unify below below'
  rw [← kinds.table] at compares
  obtain ⟨agreed, satisfied⟩ := compares.complete rated.satisfied same
  have unified : state.kinds.unify expected found = (true, (state.kinds.unify expected found).2) :=
    Prod.ext agreed rfl
  have equates := kinds.tame.equates_unify below below' (kinds.table ▸ unified)
  have ran : expectKind expected found span state session =
      .ok ((), { state with kinds := (state.kinds.unify expected found).2 }) session := by
    unfold expectKind
    refine state_bind_eq_ok.mpr ⟨state, state, session, rfl, ?_⟩
    simp only [agreed]
    rfl
  refine ⟨_, _, _, values, ran, ⟨?_, fun _ _ => rfl⟩,
    ⟨satisfied, rated.inScope, rated.used, rated.outside, rated.opened⟩, rfl⟩
  rw [kinds.table]
  exact equates.count.ge

theorem succeeds_typeName {name : Name} (rated : Rated free rates values state)
    (tables : session.registry.Sorted (fun _ => False) sorting)
    (known : session.registry.kind? name = some kind)
    (span : Span) :
    Succeeds state session free rates values (fun values' found => found.2.under values' = kind)
    (typeName name span) := by
  have closed := tables.closed_kind? known
  suffices given : ∃ ty after, typeName name span state session = .ok ((ty, kind), state) after by
    obtain ⟨ty, after, ran⟩ := given
    exact ⟨_, _, _, values, ran, .refl state values, rated, closed.under_eq values⟩
  rw [Registry.kind?] at known
  unfold typeName
  suffices rest : ∃ ty after, _ = EStateM.Result.ok ((ty, kind), state) after by
    obtain ⟨ty, after, ran⟩ := rest
    exact ⟨ty, after, state_lift_bind_eq_ok.mpr ⟨session, session, rfl, ran⟩⟩
  cases found : session.registry.types.get? name with
  | none =>
    simp only [found] at known ⊢
    obtain ⟨width, spelled, rfl⟩ := Option.map_eq_some_iff.mp known
    simp only [spelled]
    exact ⟨_, _, rfl⟩
  | some entry =>
    cases entry with
    | synonym ty other =>
      simp only [found] at known ⊢
      obtain rfl := Option.some.inj known
      exact ⟨_, _, rfl⟩
    | data id =>
      simp only [found] at known ⊢
      obtain ⟨template, defined, rfl⟩ := Option.map_eq_some_iff.mp known
      simp only [defined]
      split
      · rename_i empty
        rw [Template.kind, List.isEmpty_iff.mp empty]
        exact ⟨_, _, rfl⟩
      · exact ⟨_, _, rfl⟩

theorem succeeds_typeVar (rated : Rated free rates values state) (kinds : state.Sorted sorting)
    (name : Name) (span : Span) :
    Succeeds state session free rates values
    (fun values' found => found.2.under values' = rates name) (typeVar name span) := by
  refine .own ?_
  cases inScope : state.scope.find? (·.name = name) with
  | some binding => exact .pure rated (rated.inScope inScope).symm
  | none =>
    obtain ⟨made, same⟩ := Option.isSome_iff_exists.mp rated.opened
    have unbound := rated.outside inScope
    cases found : made.find? (·.name = name) with
    | some binding =>
      simp only [same, found]
      have used : free name = binding.kind.under values := rated.used (by rw [same]; exact found)
      exact .pure rated (unbound.trans used).symm
    | none =>
      simp only [same, found]
      refine (succeeds_freshKind rated kinds (rates name)).bind fun {kind middle after values'} ran
        _ rated' value => ?_
      obtain ⟨both, rfl⟩ := EStateM.Result.ok.inj ran
      obtain ⟨rfl, rfl⟩ := Prod.mk.inj both
      refine ⟨_, _, _, values', rfl, ⟨le_rfl, fun _ _ => rfl⟩,
        ⟨rated'.satisfied, rated'.inScope, fun {other binding} known => ?_, rated'.outside,
          rfl⟩, value⟩
      rw [Option.getD_some, List.find?_cons] at known
      split at known
      · rename_i same
        obtain rfl : name = other := of_decide_eq_true same
        obtain rfl := Option.some.inj known
        exact unbound.symm.trans value.symm
      · refine rated'.used ?_
        simp only [same]
        exact known

theorem succeeds_bindParam (rated : Rated free rates values state) (kinds : state.Sorted sorting)
    (name : Name) (kind : Kind) :
    Succeeds state session free (Function.update rates name kind) values
    (fun values' var => var.2.under values' = kind) (bindParam name) := by
  have rated' := rated.fresh kinds kind
  have prolongs := prolongs_fresh state values kind
  refine ⟨_, _, _, Function.update values state.kinds.count kind, rfl,
    ⟨prolongs.count, prolongs.same⟩,
    ⟨rated'.satisfied, fun {other binding} known => ?_, rated'.used, fun {other} absent => ?_,
      rated'.opened⟩,
    Function.update_self ..⟩
  · rw [List.find?_cons] at known
    split at known
    · rename_i same
      obtain rfl : name = other := of_decide_eq_true same
      obtain rfl := Option.some.inj known
      rw [Function.update_self, Kind.under, Function.update_self]
    · rename_i differs
      rw [Function.update_of_ne fun same => of_decide_eq_false differs same.symm]
      exact rated'.inScope known
  · rw [List.find?_cons] at absent
    split at absent
    · cases absent
    · rename_i differs
      rw [Function.update_of_ne fun same => of_decide_eq_false differs same.symm]
      exact rated'.outside absent

variable {base : Ledger} {insight : Insight} {scope : List TypeBinding} {params : List Name}
  {wanted : List Kind} {written : TypeExpr} {others : List TypeExpr}

theorem succeeds_bindParams (rated : Rated free rates values state) (kinds : state.Sorted sorting)
    (sorted : session.Sorted (fun _ => none) (fun _ => False) sorting)
    (length : params.length = wanted.length) :
    Succeeds state session free (given params wanted rates) values
      (fun values' vars => vars.map (·.2.under values') = wanted) (params.mapM bindParam) := by
  induction params generalizing wanted rates values state session sorting with
  | nil =>
    obtain rfl := List.length_eq_zero_iff.mp length.symm
    exact .pure rated rfl
  | cons name params ih =>
    obtain ⟨kind, wanted, rfl⟩ := List.exists_cons_of_length_eq_add_one length.symm
    rw [List.mapM_cons]
    refine (succeeds_bindParam rated kinds name kind).bind fun {var middle _ _} ran _
      rated' value => ?_
    obtain ⟨later, -, sorted', sorts, kinds', -⟩ := (sorted_bindParam kinds name).ok sorted ran
    refine (ih rated' kinds' sorted' (Nat.succ.inj length)).bind fun _ prolongs rated'' rest =>
      .pure rated'' ?_
    rw [List.map_cons, rest, prolongs.under_eq kinds' sorts.below, value]

theorem succeeds_expectStar (rated : Rated free rates values state) (kinds : state.Sorted sorting)
    {result : Ty × Kind}
    (below : result.2.Below sorting.table.count) (star : result.2.under values = .star)
    (span : Span) :
    Succeeds state session free rates values (fun _ _ => True) (expectStar result span) :=
  have below' : Kind.star.Below sorting.table.count := trivial
  (succeeds_expectKind rated kinds below' below star.symm span).bind fun _ _ rated' _ =>
    .pure rated' trivial

theorem Rated.leave {last : Elaborator} {values' : Nat → Kind}
    (inner : Rated free rates' values' last)
    (outer : Rated free rates values state) (kinds : state.Sorted sorting)
    (prolongs : Prolongs state values last values') :
    Rated free rates values' { last with scope := state.scope } where
  satisfied := inner.satisfied
  inScope known := by
    have below := (kinds.scope _ (List.mem_of_find?_eq_some known)).below
    exact (outer.inScope known).trans (prolongs.under_eq kinds below).symm
  used := inner.used
  outside := outer.outside
  opened := inner.opened

theorem Succeeds.distinct {next : PUnit → Elaborate α} (once : params.Nodup) (span : Span)
    (rest : Succeeds state session free rates values said (next ())) :
    Succeeds state session free rates values said
    (liftM (Check.distinct .typeVar params span) >>= next) := by
  obtain ⟨result, last, after, values', ran, rest⟩ := rest
  exact ⟨result, last, after, values',
    state_lift_bind_eq_ok.mpr ⟨(), session, distinct_eq_ok_iff.mpr ⟨once, rfl⟩, ran⟩, rest⟩

theorem Succeeds.leave {next : PUnit → Elaborate α} {outer : List TypeBinding}
    (rest : Succeeds { state with scope := outer } session free rates values said (next ())) :
    Succeeds state session free rates values said
    ((modify fun state => { state with scope := outer }) >>= next) := by
  obtain ⟨result, last, after, values', ran, prolongs, rest⟩ := rest
  exact ⟨result, last, after, values', state_bind_eq_ok.mpr ⟨_, _, _, rfl, ran⟩,
    ⟨prolongs.count, prolongs.same⟩, rest⟩

/-- Names keep their kinds while types are read. -/
theorem Around.kind?_eq {later : Insight} (around : Around base insight session)
    (grown : insight ≤ later) : later.2.2.kind? = insight.2.2.kind? := by
  have sorted := around.2.1.registry
  rw [show session.registry = insight.2.2 from around.2.2] at sorted
  exact sorted.kind?_le grown.2.2

theorem Succeeds.star {next : Ty → Elaborate β}
    (first : Succeeds state session free rates values (fun values' found => found.2.under values' =
        .star) (type written))
    (complete : written.Complete) (here : Here scope insight state)
    (around : Around base insight session) (span : Span)
    (then_ : ∀ {ty last after values' later}, insight ≤ later → Around base later after →
      Read scope state later written ((ty, .star), last) → Rated free rates values' last →
      Prolongs state values last values' → Succeeds last after free rates' values' said'
      (next ty)) :
    Succeeds state session free rates' values said'
    (type written >>= fun result => expectStar result span >>= next) := by
  refine first.bind fun ran prolongs rated star => ?_
  obtain ⟨later, grown, around', read⟩ := (read_type written complete here).ok around ran
  refine (succeeds_expectStar rated read.here.kinds read.sorts.below star span).bind fun ran'
    prolongs' rated' _ => ?_
  obtain ⟨last, grown', around'', read'⟩ := (read.expectStar span).ok around' ran'
  exact then_ (grown.trans grown') around'' read' rated' (prolongs.trans prolongs')

mutual

theorem succeeds_type : ∀ (written : TypeExpr) {insight : Insight} {scope : List TypeBinding}
    {state : Elaborator}
    {session : Session} {rates : Name → Kind} {values : Nat → Kind} {kind : Kind},
    written.Complete → Here scope insight state → Around base insight session →
      Rated free rates values state →
    written.Kinds insight.2.2.kind? rates kind →
    Succeeds state session free rates values (fun values' found => found.2.under values' = kind)
    (type written)
  | .name span name, insight, _, _, _, _, _, _, _, here, around, rated, has => by
    cases has with
    | name _ known =>
      unfold type
      have same : _ = _ := around.2.2
      exact succeeds_typeName rated around.2.1.registry (same ▸ known) span
  | .var span name, _, _, _, _, _, _, _, _, here, _, rated, has => by
    cases has with
    | var =>
      unfold type
      exact succeeds_typeVar rated here.kinds name span
  | .app span head args, insight, _, state, _, rates, _, kind, complete, here, around,
      rated, has => by
    cases has with
    | @app _ _ _ wanted _ _ fst length each =>
      unfold type
      refine (succeeds_type head complete.1 here around rated fst).bind fun ran same rated'
        function => ?_
      obtain ⟨second, grown, around', headRead⟩ := (read_type head complete.1 here).ok around ran
      rw [← around.kind?_eq grown] at each
      refine (succeeds_types args complete.2 headRead.here around' rated' length each).bind
        fun ran' same' rated'' given => ?_
      obtain ⟨third, grown', around'', argsRead⟩ :=
        (read_types args complete.2 headRead.here).ok around' ran'
      refine (succeeds_freshKind rated'' argsRead.here.kinds kind).bind fun ran'' same'' rated'''
        result => ?_
      obtain ⟨fourth, grown'', _, fresh⟩ := argsRead.here.freshKind.ok around'' ran''
      have sorts := headRead.sorts.grow grown'.2.1
      have argKinds :=
        List.forall_mem_map.mpr fun entry member =>
          ((argsRead.sorts entry member).grow grown''.2.1).below
      have below := Kind.below_function.mpr ⟨argKinds, fresh.2.2⟩
      refine (succeeds_expectKind rated''' fresh.1.kinds below (sorts.grow grown''.2.1).below
        ?_ span).bind fun _ _ rated'''' same => .pure rated'''' (same ▸ result)
      rw [Kind.under_function, List.map_map, result,
        same''.under_eq argsRead.here.kinds sorts.below,
        same'.under_eq headRead.here.kinds headRead.sorts.below, function, ← given]
      refine congrArg (Kind.function · kind) (List.map_congr_left fun entry member => ?_)
      exact same''.under_eq argsRead.here.kinds (argsRead.sorts entry member).below
  | .arrow span param result, _, _, _, _, _, _, _, complete, here, around, rated, has => by
    cases has with
    | arrow _ fst snd =>
      unfold type
      refine (succeeds_type param complete.1 here around rated fst).star complete.1 here around _
        fun grown around' read rated' _ => ?_
      rw [← around.kind?_eq grown] at snd
      exact (succeeds_type result complete.2 read.here around' rated' snd).star complete.2
        read.here around' _ fun _ _ _ rated'' _ => .pure rated'' rfl
  | .tuple span [inner], _, _, _, _, _, _, _, complete, here, around, rated, has => by
    cases has with
    | group _ inside =>
      unfold type
      exact succeeds_type inner complete.1 here around rated inside
    | tuple _ several _ => exact absurd rfl several
  | .tuple span [], _, _, _, _, _, _, _, complete, here, around, rated, has => by
    cases has with
    | tuple _ _ each =>
      unfold type
      exact (succeeds_starTypes [] complete here around rated each).bind fun _ _ rated' _ =>
        .pure rated' rfl
  | .tuple span (first :: second :: rest), _, _, _, _, _, _, _, complete, here, around,
      rated, has => by
    cases has with
    | tuple _ _ each =>
      unfold type
      exact (succeeds_starTypes (first :: second :: rest) complete here around rated each).bind
          fun _ _ rated' _ =>
        .pure rated' rfl
  | .quantified span params body, insight, scope, state, _, _, _, _, complete, here, around,
      rated, has => by
    cases has with
    | quantified _ once length inside =>
      unfold type
      refine .distinct once span (.own ?_)
      refine (succeeds_bindParams rated here.kinds around.2.1 length).bind fun ran prolongs
        rated' _ => ?_
      obtain ⟨later, grown, around', here', -⟩ := (here.bindParams params).ok around ran
      rw [← around.kind?_eq grown] at inside
      refine (succeeds_type body complete here' around' rated' inside).star complete here' around' _
        fun _ _ _ rated'' prolongs' => ?_
      have left := rated''.leave rated here.kinds (prolongs.trans prolongs')
      refine .leave ?_
      split
      · exact .pure left rfl
      · exact .pure left rfl
  | .hole _, _, _, _, _, _, _, _, complete, _, _, _, _ => False.elim complete

theorem succeeds_types : ∀ (written : List TypeExpr) {insight : Insight} {scope : List TypeBinding}
    {state : Elaborator}
    {session : Session} {rates : Name → Kind} {values : Nat → Kind} {wanted : List Kind},
    TypeExpr.CompleteAll written → Here scope insight state → Around base insight session →
      Rated free rates values state →
    written.length = wanted.length →
      (∀ entry ∈ written.zip wanted, entry.1.Kinds insight.2.2.kind? rates entry.2) →
    Succeeds state session free rates values (fun values' found => found.map (·.2.under values') =
      wanted) (types written)
  | [], _, _, _, _, _, _, _, _, _, _, rated, length, _ => by
    obtain rfl := List.length_eq_zero_iff.mp length.symm
    unfold types
    exact .pure rated rfl
  | written :: rest, insight, _, _, _, rates, _, wanted, complete, here, around, rated,
      length, each => by
    obtain ⟨kind, wanted, rfl⟩ := List.exists_cons_of_length_eq_add_one length.symm
    obtain ⟨fst, each⟩ := List.forall_mem_cons.mp each
    unfold types
    refine (succeeds_type written complete.1 here around rated fst).bind fun ran _
      rated' value => ?_
    obtain ⟨later, grown, around', read⟩ := (read_type written complete.1 here).ok around ran
    rw [← around.kind?_eq grown] at each
    refine (succeeds_types rest complete.2 read.here around' rated' (Nat.succ.inj length) each).bind
      fun _ prolongs rated'' others => .pure rated'' ?_
    rw [List.map_cons, others, prolongs.under_eq read.here.kinds read.sorts.below, value]

theorem succeeds_starTypes : ∀ (written : List TypeExpr) {insight : Insight}
    {scope : List TypeBinding} {state : Elaborator}
    {session : Session} {rates : Name → Kind} {values : Nat → Kind},
    TypeExpr.CompleteAll written → Here scope insight state → Around base insight session →
      Rated free rates values state →
    (∀ element ∈ written, element.Kinds insight.2.2.kind? rates .star) →
    Succeeds state session free rates values (fun _ _ => True) (starTypes written)
  | [], _, _, _, _, _, _, _, _, _, rated, _ => by
    unfold starTypes
    exact .pure rated trivial
  | written :: rest, _, _, _, _, _, _, complete, here, around, rated, each => by
    unfold starTypes
    obtain ⟨fst, each⟩ := List.forall_mem_cons.mp each
    refine (succeeds_type written complete.1 here around rated fst).star complete.1 here around _
      fun grown around' read rated' _ => ?_
    rw [← around.kind?_eq grown] at each
    exact (succeeds_starTypes rest complete.2 read.here around' rated' each).bind fun _ _ rated''
      _ => .pure rated'' trivial

end

theorem succeeds_starType (complete : written.Complete) (here : Here scope insight state)
    (around : Around base insight session) (rated : Rated free rates values state)
    (has : written.Kinds insight.2.2.kind? rates .star) :
    Succeeds state session free rates values (fun _ _ => True) (starType written) := by
  refine (succeeds_type written complete here around rated has).bind fun ran _ rated' star => ?_
  obtain ⟨_, _, _, read⟩ := (read_type written complete here).ok around ran
  exact succeeds_expectStar rated' read.here.kinds read.sorts.below star _

end Elaborate

end PolyCheck
