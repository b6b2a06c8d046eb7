import PolyCheck.Proofs.Session.Sorted
import PolyCheck.Proofs.Session.Waiting
import PolyCheck.Proofs.Surface.Expansion
import PolyCheck.Proofs.Ty.Lambda

/-! What written types mean. A type that has been read is the lambda term that is written, where
every type name stands for its definition, and it has a kind that is written; so two written types
that are the same term are read as types that are the same function, or the same type, whatever was
applied on the way. -/
namespace PolyCheck

open Run

namespace Registry

variable {registry later : Registry} {name : Name} {meaning : Ty × Kind}

/-- The type that a type name stands for, and its kind. The integers of a width have to be there
already. -/
def meaning? (registry : Registry) (name : Name) : Option (Ty × Kind) :=
  match registry.types.get? name with
  | some (.data id) => (registry.template? id).map fun template =>
      if template.params.isEmpty then (.named id, .star)
      else (.quantified template.paramVars (template.selfTy id), template.kind)
  | some (.synonym ty kind) => some (ty, kind)
  | none => (Elaborate.intWidth? name).bind fun width => (registry.ints.get? width).map fun id =>
    (.named id, .star)

theorem kind?_of_meaning? (known : registry.meaning? name = some meaning) :
    registry.kind? name = some meaning.2 := by
  rw [meaning?] at known
  rw [kind?]
  cases found : registry.types.get? name with
  | none =>
    simp only [found] at known
    obtain ⟨width, spelled, known⟩ := Option.bind_eq_some_iff.mp known
    obtain ⟨id, -, rfl⟩ := Option.map_eq_some_iff.mp known
    exact congrArg (Option.map _) spelled
  | some entry =>
    cases entry with
    | synonym ty kind =>
      simp only [found] at known
      obtain rfl := Option.some.inj known
      rfl
    | data id =>
      simp only [found] at known
      obtain ⟨template, defined, rfl⟩ := Option.map_eq_some_iff.mp known
      simp only [defined, Option.map_some]
      split
      · rename_i empty
        rw [Template.kind, List.isEmpty_iff.mp empty]
        rfl
      · rfl

theorem meaning?_later (types : later.types.get? name = registry.types.get? name)
    (grows : registry.Grows later)
    (ints : ∀ {width id}, registry.ints.get? width = some id → later.ints.get? width = some id)
    (known : registry.meaning? name = some meaning) : later.meaning? name = some meaning := by
  rw [meaning?] at known ⊢
  rw [types]
  cases found : registry.types.get? name with
  | none =>
    simp only [found] at known ⊢
    obtain ⟨width, spelled, known⟩ := Option.bind_eq_some_iff.mp known
    obtain ⟨id, there, rfl⟩ := Option.map_eq_some_iff.mp known
    rw [spelled, Option.bind_some, ints there]
    rfl
  | some entry =>
    cases entry with
    | synonym ty kind =>
      simp only [found] at known ⊢
      exact known
    | data id =>
      simp only [found] at known ⊢
      obtain ⟨template, defined, rfl⟩ := Option.map_eq_some_iff.mp known
      rw [grows id template defined]
      rfl

theorem meaning?_le (grown : registry ≤ later) (known : registry.meaning? name = some meaning) :
    later.meaning? name = some meaning :=
  meaning?_later (by rw [grown.1]) grown.2.1 grown.2.2 known

end Registry

/-- What a name stands for in scope or, where names need no declaration, among the names used so
far. -/
def Elaborator.binding? (state : Elaborator) (name : Name) : Option TypeBinding :=
  (state.scope ++ state.free.getD []).find? (·.name = name)

/-- The names in scope are the same, and names used so far stand for what they stood for. -/
structure Elaborator.Retains (state later : Elaborator) : Prop where
  scope : later.scope = state.scope
  free : ∀ {name binding}, (state.free.getD []).find? (·.name = name) = some binding →
    (later.free.getD []).find? (·.name = name) = some binding

theorem Elaborator.Retains.binding? {state later : Elaborator} (retains : state.Retains later)
    {name : Name}
    {binding : TypeBinding} (known : state.binding? name = some binding) :
      later.binding? name = some binding := by
  rw [Elaborator.binding?, List.find?_append, retains.scope] at *
  cases inScope : state.scope.find? (·.name = name) with
  | some _ => rwa [inScope] at known
  | none =>
    rw [inScope] at known
    exact retains.free known

theorem Elaborator.Retains.trans {state middle later : Elaborator} (first : state.Retains middle)
    (second : middle.Retains later) : state.Retains later :=
  ⟨second.scope.trans first.scope, fun known => second.free (first.free known)⟩

theorem Elaborator.retains_kinds (state : Elaborator) (kinds : KindTable) :
    state.Retains { state with kinds } :=
  ⟨rfl, id⟩

namespace Elaborate

variable {registry : Registry} {state : Elaborator}

def Tables (registry : Registry) (session : Session) : Prop := session.registry = registry

theorem tables_freshKind : Reaches Tables registry (fun later result => later = registry ∧
    (∃ kinds, result.2 = { state with kinds })) (freshKind state) :=
  .pure ⟨rfl, _, rfl⟩

theorem tables_expectKind (expected found : Kind) (span : Span) :
    Reaches Tables registry
    (fun later result => later = registry ∧ ∃ kinds, result.2 = { state with kinds })
      (expectKind expected found span state) := by
  refine reaches_of_ok fun session after result same ended => ?_
  obtain ⟨value, state'⟩ := result
  obtain ⟨rfl, kinds, rfl⟩ := expectKind_eq_ok ended
  exact ⟨registry, le_rfl, same, rfl, kinds, rfl⟩

theorem tables_bindParam (name : Name) :
    Reaches Tables registry (fun later result => later = registry ∧
      ∃ kinds, result.2 =
      { state with kinds, scope := ⟨name, result.1.1, result.1.2⟩ :: state.scope })
      (bindParam name state) := by
  refine reaches_of_ok fun session after result same ended => ?_
  obtain ⟨value, state'⟩ := result
  obtain ⟨both, rfl⟩ := EStateM.Result.ok.inj ended
  obtain ⟨rfl, rfl⟩ := Prod.mk.inj both
  exact ⟨registry, le_rfl, same, rfl, _, rfl⟩

theorem tables_bindParams (params : List Name) :
    Reaches Tables registry
    (fun later result => later = registry ∧ params.length = result.1.length ∧
      ∃ kinds, result.2 = { state with kinds, scope := bindings params result.1 ++ state.scope })
      (params.mapM bindParam state) := by
  induction params generalizing state with
  | nil => exact .pure ⟨rfl, rfl, state.kinds, rfl⟩
  | cons name params ih =>
    rw [List.mapM_cons]
    refine .state_bind (tables_bindParam name) fun {_ var middle} _ first => ?_
    obtain ⟨rfl, kinds, same⟩ := first
    obtain rfl : middle = { state with kinds, scope := ⟨name, var.1, var.2⟩ :: state.scope } := same
    refine .state_bind ih fun {_ vars last} _ rest => .state_pure ?_
    obtain ⟨rfl, length, kinds, same⟩ := rest
    obtain rfl : last =
      { state with kinds, scope := bindings params vars ++ ⟨name, var.1, var.2⟩ :: state.scope } :=
        same
    refine ⟨rfl, congrArg Nat.succ length, kinds, ?_⟩
    rw [bindings, bindings, List.zip_cons_cons, List.map_cons, List.reverse_cons, List.append_assoc]
    rfl

theorem tables_typeName (data : ∀ {name id}, registry.types.get? name = some (.data id) →
      ∃ template, registry.template? id = some template) (name : Name) (span : Span) :
    Reaches Tables registry
    (fun later result => later.meaning? name = some result.1 ∧ result.2 = state)
      (typeName name span state) := by
  refine .state_get fun session same => ?_
  obtain rfl : session.registry = registry := same
  cases known : session.registry.types.get? name with
  | none =>
    cases spelled : intWidth? name with
    | none => exact .state_throw _
    | some width =>
      have taken : Reaches Tables session.registry (fun later ty => later.meaning? name =
        some (ty, .star)) (Check.intTy width) := by
        refine .modifyGet fun {before} same => ?_
        obtain same : before.registry = session.registry := same
        refine ⟨_, session.registry.le_intTemplate width,
          congrArg (fun registry => (Registry.intTemplate registry width).2) same, ?_⟩
        rw [Registry.meaning?, (session.registry.le_intTemplate width).1, known]
        simp only [spelled]
        rw [Option.bind_some, Registry.get?_intTemplate, same]
        rfl
      exact .state_lift taken fun _ read => .state_pure ⟨read, rfl⟩
  | some entry =>
    cases entry with
    | synonym ty kind => exact .state_pure ⟨by rw [Registry.meaning?, known], rfl⟩
    | data id =>
      obtain ⟨template, defined⟩ := data known
      simp only [defined]
      split
      · rename_i empty
        exact .state_pure
          ⟨by simp [Registry.meaning?, known, defined, List.isEmpty_iff.mp empty], rfl⟩
      · rename_i some
        exact .state_pure
          ⟨by simp [Registry.meaning?, known, defined, mt List.isEmpty_iff.mpr some], rfl⟩

theorem tables_typeVar (name : Name) (span : Span) :
    Reaches Tables registry (fun later result => later = registry ∧ state.Retains result.2 ∧
      ∃ binding, result.2.binding? name = some binding ∧
        result.1 = (.var binding.var, binding.kind))
      (typeVar name span state) := by
  refine .state_own ?_
  cases inScope : state.scope.find? (·.name = name) with
  | some binding =>
    refine .state_pure ⟨rfl, ⟨rfl, id⟩, binding, ?_, rfl⟩
    rw [Elaborator.binding?, List.find?_append, inScope, Option.some_or]
  | none =>
    cases known : state.free with
    | none => exact .state_throw _
    | some made =>
      cases found : made.find? (·.name = name) with
      | some binding =>
        simp only [found]
        refine .state_pure ⟨rfl, ⟨rfl, id⟩, binding, ?_, rfl⟩
        rw [Elaborator.binding?, List.find?_append, inScope, Option.none_or, known,
          Option.getD_some, found]
      | none =>
        simp only [found]
        have pushed : ∀ later,
            Reaches Tables later (fun last _ => last = later) (Check.onSubst Subst.fresh) :=
            fun later =>
          .modifyGet fun same => ⟨later, le_rfl, same, rfl⟩
        refine .state_bind tables_freshKind fun {later kind middle} _ fresh => ?_
        obtain ⟨rfl, kinds, rfl⟩ := fresh
        refine .state_lift (pushed _) fun {_ var} _ same => .state_modify (.state_pure ?_)
        obtain rfl := same
        refine ⟨rfl, ⟨rfl, fun {other binding} old => ?_⟩, ⟨name, var, kind⟩, ?_, rfl⟩
        · rw [known, Option.getD_some] at old
          rw [Option.getD_some, List.find?_cons]
          split
          · rename_i same
            obtain rfl : name = other := of_decide_eq_true same
            cases found.symm.trans old
          · exact old
        · rw [Elaborator.binding?, List.find?_append, inScope, Option.none_or, Option.getD_some,
            List.find?_cons, decide_eq_true rfl]

section Views

open Lambda Surface

/-- Terms and kinds for names, for type variables and for what is written in their place. -/
structure View where
  names : Name → Lambda
  ranks : Name → Option Kind
  terms : TyVar → Lambda
  env : Name → Lambda
  values : Nat → Kind
  rates : Name → Kind

/-- The view agrees with the tables and with what the elaborator has found out. -/
structure View.Fits (view : View) (registry : Registry) (state : Elaborator) : Prop where
  name : ∀ {name ty kind}, registry.meaning? name = some (ty, kind) →
    ty.Orderly ∧ (∀ terms, ty.lambda terms = view.names name) ∧
    view.ranks name = some (kind.under view.values)
  satisfied : state.kinds.SatisfiedBy view.values
  binding : ∀ {name binding}, state.binding? name = some binding →
    view.env name = view.terms binding.var ∧ view.rates name = binding.kind.under view.values

structure View.Reads (view : View) (written : TypeExpr) (result : Ty × Kind) : Prop where
  orderly : result.1.Orderly
  equal : Equal (result.1.lambda view.terms) (written.lambda view.names view.env)
  kinds : written.Kinds view.ranks view.rates (result.2.under view.values)

/-- What is known while a type is read: the variables that are bound, the kinds, and the tables. -/
abbrev Insight := Ledger × Sorting false × Registry

abbrev Around (base : Ledger) (insight : Insight) (session : Session) : Prop :=
  base.Keeps insight.1 session ∧ session.Sorted (fun _ => none) (fun _ => False) insight.2.1 ∧
  Tables insight.2.2 session

structure Here (scope : List TypeBinding) (insight : Insight) (state : Elaborator) : Prop where
  names : insight.1.Names scope state
  kinds : state.Sorted insight.2.1

/-- A written type has been read: whatever agrees with what is found in the end, it is read as what
it means. -/
structure Read (scope : List TypeBinding) (state : Elaborator) (insight : Insight)
    (written : TypeExpr) (result : (Ty × Kind) × Elaborator) : Prop where
  here : Here scope insight result.2
  retains : state.Retains result.2
  shown : insight.1.Shows result.1.1
  sorts : insight.2.1.Sorts result.1.1 result.1.2
  reads : ∀ {view : View}, view.Fits insight.2.2 result.2 → view.Reads written result.1

variable {base : Ledger} {insight later : Insight} {scope scope' : List TypeBinding}
  {last : Elaborator} {view : View}

theorem exists_admits {strict : Bool} {sorting : Sorting strict} {values : Nat → Kind}
    (satisfied : sorting.table.SatisfiedBy values) :
    ∃ reading, sorting.Admits reading ∧ reading.values = values := by
  refine ⟨⟨values, fun v => (sorting.kinds v).under values,
      fun id => (sorting.declared id).map (·.map (Kind.under values))⟩,
    ⟨satisfied, fun _ _ => rfl, fun known => ?_⟩, rfl⟩
  exact congrArg (Option.map _) known

theorem satisfiedBy_of_le {strict : Bool} {sorting later : Sorting strict} (grown : sorting ≤ later)
    {values : Nat → Kind}
    (satisfied : later.table.SatisfiedBy values) : sorting.table.SatisfiedBy values := by
  obtain ⟨reading, admits, rfl⟩ := exists_admits satisfied
  exact (grown.2.2 reading admits).values

theorem Here.under_eq (here : Here scope insight state) {left right : Kind}
    (agree : insight.2.1.Agree left right)
    {values : Nat → Kind} (satisfied : state.kinds.SatisfiedBy values) :
      left.under values = right.under values := by
  rw [here.kinds.table] at satisfied
  obtain ⟨reading, admits, rfl⟩ := exists_admits satisfied
  exact agree reading admits

theorem View.Fits.before (fits : view.Fits later.2.2 last) (grown : insight ≤ later)
    (retains : state.Retains last)
    (here : Here scope insight state) (there : Here scope' later last) :
      view.Fits insight.2.2 state where
  name known := fits.name (Registry.meaning?_le grown.2.2 known)
  satisfied := by
    rw [here.kinds.table]
    exact satisfiedBy_of_le grown.2.1 (there.kinds.table ▸ fits.satisfied)
  binding known := fits.binding (retains.binding? known)

theorem Here.freshKind (here : Here scope insight state) :
    Reaches (Around base) insight
    (fun later result => Here scope later result.2 ∧ state.Retains result.2 ∧
      result.1.Below later.2.1.table.count) (freshKind state) := by
  refine (reaches_both (named_freshKind here.names)
    (reaches_both (sorted_freshKind here.kinds) tables_freshKind)).imp
    fun {later result} _ all => ?_
  obtain ⟨value, last⟩ := result
  obtain ⟨⟨-, names⟩, ⟨below, kinds⟩, -, table, rfl⟩ := all
  exact ⟨⟨names, kinds⟩, state.retains_kinds table, below⟩

theorem Here.expectKind (here : Here scope insight state) {expected found : Kind}
    (below : expected.Below insight.2.1.table.count) (below' : found.Below insight.2.1.table.count)
    (span : Span) :
    Reaches (Around base) insight
    (fun later result => Here scope later result.2 ∧ state.Retains result.2 ∧
        later.2.1.Agree expected found) (expectKind expected found span state) := by
  refine (reaches_both (named_expectKind here.names expected found span)
    (reaches_both (sorted_expectKind here.kinds below below' span)
      (tables_expectKind expected found span))).imp
    fun {later result} _ all => ?_
  obtain ⟨value, last⟩ := result
  obtain ⟨⟨-, names⟩, ⟨agree, kinds⟩, -, table, rfl⟩ := all
  exact ⟨⟨names, kinds⟩, state.retains_kinds table, agree⟩

theorem Read.expectStar {written : TypeExpr} {result : Ty × Kind}
    (read : Read scope state insight written (result, last)) (span : Span) :
    Reaches (Around base) insight
    (fun later checked => Read scope state later written ((checked.1, .star), checked.2))
      (expectStar result span last) := by
  have below : Kind.star.Below insight.2.1.table.count := trivial
  refine .state_bind (read.here.expectKind below read.sorts.below span) fun {later _ checked} grown
    agree => .state_pure ?_
  obtain ⟨here, retains, agree⟩ := agree
  refine ⟨here, read.retains.trans retains, read.shown.later grown.1,
    (read.sorts.grow grown.2.1).convert trivial agree.symm, fun {view} fits => ?_⟩
  have reads := read.reads (fits.before grown retains read.here here)
  exact ⟨reads.orderly, reads.equal, (here.under_eq agree fits.satisfied).symm ▸ reads.kinds⟩

theorem Here.bindParams (here : Here scope insight state) (params : List Name) :
    Reaches (Around base) insight
    (fun later result => Here (bindings params result.1 ++ scope) later result.2 ∧
        params.length = result.1.length ∧ (∀ v ∈ result.1.map (·.1), insight.1.size ≤ v.index) ∧
        result.2.free = state.free) (params.mapM bindParam state) := by
  refine (reaches_both (named_bindParams here.names params)
    (reaches_both (sorted_bindParams here.kinds params) (tables_bindParams params))).imp
      fun {later result} _ all => ?_
  obtain ⟨vars, last⟩ := result
  obtain ⟨⟨new, made, -, names⟩, ⟨-, kinds, -⟩, -, length, table, same⟩ := all
  obtain rfl : last = { state with kinds := table, scope := bindings params vars ++ state.scope } :=
    same
  have entered : bindings params vars ++ state.scope = made ++ scope := names.same
  rw [here.names.same] at entered
  obtain rfl := List.append_cancel_right entered
  exact ⟨⟨names, kinds⟩, length, new, rfl⟩

theorem fits_bindings {params : List Name} {vars : List (TyVar × Kind)} {rest : List TypeBinding}
    {env : Name → Lambda}
    {terms : TyVar → Lambda} {rates : Name → Kind} {values : Nat → Kind}
    (length : params.length = vars.length)
    (once : (vars.map (·.1)).Nodup) (apart : ∀ v ∈ vars.map (·.1), v ∉ rest.map (·.var))
    (outside : ∀ {name binding}, rest.find? (·.name = name) = some binding →
      env name = terms binding.var ∧ rates name = binding.kind.under values) {name : Name}
      {binding : TypeBinding}
    (known : (bindings params vars ++ rest).find? (·.name = name) = some binding) :
    enterAll params env name = enterAll (vars.map (·.1)) terms binding.var ∧
      given params (vars.map fun var => var.2.under values) rates name =
        binding.kind.under values := by
  induction params generalizing vars rest env terms rates with
  | nil =>
    obtain rfl := List.length_eq_zero_iff.mp length.symm
    exact outside known
  | cons p params ih =>
    obtain ⟨⟨v, kind⟩, vars, rfl⟩ := List.exists_cons_of_length_eq_add_one length.symm
    obtain ⟨different, once⟩ := List.nodup_cons.mp once
    obtain ⟨new, others⟩ := List.forall_mem_cons.mp apart
    rw [bindings, List.zip_cons_cons, List.map_cons, List.reverse_cons, List.append_assoc] at known
    refine @ih vars (⟨p, v, kind⟩ :: rest) _ _ _ (Nat.succ.inj length) once
      (fun w member inside => ?_) ?_ known
    · rcases List.mem_cons.mp inside with same | inside
      · exact different (same ▸ member)
      · exact others w member inside
    · intro name binding known
      rw [List.find?_cons] at known
      split at known
      · rename_i same
        obtain rfl : p = name := of_decide_eq_true same
        obtain rfl := Option.some.inj known
        exact ⟨(if_pos rfl).trans (if_pos rfl).symm, Function.update_self ..⟩
      · rename_i differs
        have differs : name ≠ p := fun same => of_decide_eq_false differs same.symm
        obtain ⟨same, rate⟩ := outside known
        have old : binding.var ≠ v :=
          fun same => new (same ▸ List.mem_map_of_mem (List.mem_of_find?_eq_some known))
        rw [enter, if_neg differs, enter, if_neg old, Function.update_of_ne differs, same]
        exact ⟨rfl, rate⟩

structure ReadAll (scope : List TypeBinding) (state : Elaborator) (insight : Insight)
    (written : List TypeExpr) (results : List (Ty × Kind) × Elaborator) : Prop where
  here : Here scope insight results.2
  retains : state.Retains results.2
  shown : ∀ result ∈ results.1, insight.1.Shows result.1
  sorts : ∀ result ∈ results.1, insight.2.1.Sorts result.1 result.2
  reads : ∀ {view : View}, view.Fits insight.2.2 results.2 →
    List.Forall₂ view.Reads written results.1

variable {written : TypeExpr} {others : List TypeExpr} {result : Ty × Kind}
  {results : List (Ty × Kind)} {middle : Elaborator}

theorem readAll_nil (here : Here scope insight state) : ReadAll scope state insight []
    ([], state) :=
  ⟨here, ⟨rfl, id⟩, List.forall_mem_nil _, List.forall_mem_nil _, fun _ => .nil⟩

theorem Read.cons (first : Read scope state insight written (result, middle))
    (grown : insight ≤ later) (rest : ReadAll scope middle later others (results, last)) :
    ReadAll scope state later (written :: others) (result :: results, last) where
  here := rest.here
  retains := first.retains.trans rest.retains
  shown := List.forall_mem_cons.mpr ⟨first.shown.later grown.1, rest.shown⟩
  sorts := List.forall_mem_cons.mpr ⟨first.sorts.grow grown.2.1, rest.sorts⟩
  reads fits := .cons (first.reads (fits.before grown rest.retains first.here rest.here))
    (rest.reads fits)

theorem forall₂_lambdas_of_reads (each : List.Forall₂ view.Reads others results) :
    List.Forall₂ Equal (Ty.lambdas (results.map (·.1)) view.terms)
    (TypeExpr.lambdas view.names others view.env) := by
  induction each with
  | nil => exact .nil
  | cons first _ ih => exact .cons first.equal ih

theorem orderly_of_reads (each : List.Forall₂ view.Reads others results) : ∀ result ∈ results,
    result.1.Orderly := by
  induction each with
  | nil => exact List.forall_mem_nil _
  | cons first _ ih => exact List.forall_mem_cons.mpr ⟨first.orderly, ih⟩

theorem kinds_of_reads (each : List.Forall₂ view.Reads others results) :
    ∀ entry ∈ others.zip (results.map fun result => result.2.under view.values),
      entry.1.Kinds view.ranks view.rates entry.2 := by
  induction each with
  | nil => exact List.forall_mem_nil _
  | cons first _ ih => exact List.forall_mem_cons.mpr ⟨first.kinds, ih⟩

theorem Read.app {first second : Insight} {head : TypeExpr} {kind : Kind} {own own' : Elaborator}
    (span : Span) (headRead : Read scope state first head (result, middle)) (grown : first ≤ second)
    (argsRead : ReadAll scope middle second others (results, own)) (grown' : second ≤ insight)
    (fresh : Here scope insight own' ∧ own.Retains own' ∧ kind.Below insight.2.1.table.count)
    (grown'' : insight ≤ later)
    (agree : Here scope later last ∧ own'.Retains last ∧
      later.2.1.Agree (.function (results.map (·.2)) kind) result.2) :
    Read scope state later (.app span head others)
    ((result.1.apply (results.map (·.1)), kind), last) := by
  obtain ⟨-, retains, below⟩ := fresh
  obtain ⟨here, retains', agree⟩ := agree
  have more := grown'.trans grown''
  have retains := retains.trans retains'
  have shown := fun entry member => (argsRead.shown entry member).later more.1
  have sorts := fun entry member => (argsRead.sorts entry member).grow more.2.1
  have headShown := headRead.shown.later (grown.trans more).1
  have whole := Kind.below_function.mpr
    ⟨List.forall_mem_map.mpr fun entry member => (sorts entry member).below,
      below.mono grown''.2.1.1⟩
  refine ⟨here, headRead.retains.trans (argsRead.retains.trans retains),
    headShown.apply (List.forall_mem_map.mpr shown),
    .apply ((headRead.sorts.grow (grown.trans more).2.1).convert whole agree.symm) sorts,
      fun {view} fits => ?_⟩
  have fits' := fits.before more retains argsRead.here here
  have head := headRead.reads (fits'.before grown argsRead.retains headRead.here argsRead.here)
  have args := argsRead.reads fits'
  refine ⟨head.orderly.apply (List.forall_mem_map.mpr (orderly_of_reads args)), ?_, ?_⟩
  · have confined := List.forall_mem_map.mpr fun entry member => (shown entry member).confined
    have takes := headShown.confined.takes confined fun v free => free.2
    refine .trans (.symm (takes.equal_apply headShown.distinct ?_ view.terms))
      (head.equal.spine (forall₂_lambdas_of_reads args))
    exact List.forall_mem_map.mpr fun entry member => (shown entry member).distinct
  · have function := head.kinds
    rw [← here.under_eq agree fits.satisfied, Kind.under_function, List.map_map] at function
    refine .app span function ?_ (kinds_of_reads args)
    rw [List.length_map, args.length_eq]

theorem Read.arrow {param : TypeExpr} {ty ty' : Ty} (span : Span)
    (fst : Read scope state insight param ((ty, .star), middle)) (grown : insight ≤ later)
    (snd : Read scope middle later written ((ty', .star), last)) :
    Read scope state later (.arrow span param written) ((.arrow ty ty', .star), last) where
  here := snd.here
  retains := fst.retains.trans snd.retains
  shown := .arrow (fst.shown.later grown.1) snd.shown
  sorts := .arrow (fst.sorts.grow grown.2.1) snd.sorts
  reads fits := by
    have param := fst.reads (fits.before grown snd.retains fst.here snd.here)
    have result := snd.reads fits
    exact ⟨.arrow param.orderly result.orderly, .app (.app (.refl _) param.equal) result.equal,
      .arrow span param.kinds result.kinds⟩

theorem ReadAll.tuple {types : List Ty} (span : Span) (several : others.length ≠ 1)
    (read : ReadAll scope state insight others (types.map fun ty => (ty, .star), last)) :
    Read scope state insight (.tuple span others) ((.tuple types, .star), last) where
  here := read.here
  retains := read.retains
  shown := .tuple fun ty member => read.shown _ (List.mem_map_of_mem member)
  sorts := .tuple fun ty member => read.sorts _ (List.mem_map_of_mem member)
  reads {view} fits := by
    have each := read.reads fits
    have same : (types.map fun ty => (ty, Kind.star)).map (·.1) = types := by
      rw [List.map_map]
      exact List.map_id types
    have count : others.length = types.length := by rw [each.length_eq, List.length_map]
    refine ⟨.tuple fun ty member => orderly_of_reads each _ (List.mem_map_of_mem member), ?_,
      .tuple span several fun element member => ?_⟩
    · have terms := forall₂_lambdas_of_reads each
      rw [same] at terms
      rw [Ty.lambda, TypeExpr.lambda, tupled_of_ne (by rwa [TypeExpr.length_lambdas]),
        TypeExpr.length_lambdas, count]
      exact .spine (.refl _) terms
    · obtain ⟨index, inside, rfl⟩ := List.getElem_of_mem member
      refine kinds_of_reads each (others[index], .star) (List.mem_iff_getElem.mpr ⟨index, ?_, ?_⟩)
      · rw [List.length_zip, List.length_map, List.length_map, ← count]
        omega
      · rw [List.getElem_zip, List.getElem_map, List.getElem_map]
        rfl

theorem Read.group (span : Span) (read : Read scope state insight written (result, last)) :
    Read scope state insight (.tuple span [written]) (result, last) where
  here := read.here
  retains := read.retains
  shown := read.shown
  sorts := read.sorts
  reads fits :=
    ⟨(read.reads fits).orderly, (read.reads fits).equal, .group span (read.reads fits).kinds⟩

theorem vars_bindings {params : List Name} {vars : List (TyVar × Kind)}
    (length : params.length = vars.length) :
    vars.map (·.1) = ((bindings params vars).map (·.var)).reverse := by
  have second : (params.zip vars).map Prod.snd = vars := List.map_snd_zip length.ge
  rw [bindings, List.map_reverse, List.reverse_reverse, List.map_map]
  exact (congrArg (List.map _) second.symm).trans (List.map_map ..)

def View.below (view : View) (params : List Name) (vars : List (TyVar × Kind)) : View :=
  { view with
    terms := enterAll (vars.map (·.1)) view.terms
    env := enterAll params view.env
    rates := given params (vars.map fun var => var.2.under view.values) view.rates }

/-- What is known below a quantifier when its scope has been left. -/
def Insight.leave (insight : Insight) (vars : List (TyVar × Kind)) : Insight :=
  (insight.1.bind (vars.map (·.1)), insight.2)

theorem View.Fits.below {params : List Name} {vars : List (TyVar × Kind)} {registry : Registry}
    (fits : view.Fits registry { state with scope }) (length : params.length = vars.length)
    (inner : state.scope = bindings params vars ++ scope)
    (once : ((state.scope ++ state.free.getD []).map (·.var)).Nodup) :
    (view.below params vars).Fits registry state where
  name known := fits.name known
  satisfied := fits.satisfied
  binding known := by
    rw [inner, List.append_assoc, List.map_append] at once
    obtain ⟨once, -, apart⟩ := List.nodup_append.mp once
    rw [Elaborator.binding?, inner, List.append_assoc] at known
    have vars_eq := vars_bindings length
    refine fits_bindings length ?_ ?_ fits.binding known
    · rw [vars_eq]
      exact List.nodup_reverse.mpr once
    · intro v member inside
      rw [vars_eq] at member
      exact apart v (List.mem_reverse.mp member) v inside rfl

theorem Read.quantified {params : List Name} {vars : List (TyVar × Kind)} {ty : Ty}
    {inside : Insight} (span : Span)
    (here : Here scope insight state) (grown : insight ≤ inside)
    (length : params.length = vars.length)
    (free : middle.free = state.free) (once : params.Nodup)
    (body : Read (bindings params vars ++ scope) middle inside written ((ty, .star), last)) :
    Read scope state (inside.leave vars) (.quantified span params written)
      (if vars.isEmpty then (ty, .star) else (.quantified (vars.map (·.1)) ty, .star),
        { last with scope }) := by
  obtain ⟨distinct, -, names⟩ := body.here.names.leave (vars_bindings length)
  have outer : ∀ binding ∈ scope, inside.2.1.Sorts (.var binding.var) binding.kind :=
      fun binding member =>
    (here.kinds.scope binding (here.names.same.symm ▸ member)).grow grown.2.1
  have retains : state.Retains { last with scope } :=
    ⟨here.names.same.symm, fun known => body.retains.free (free.symm ▸ known)⟩
  have below : ∀ {view : View}, view.Fits inside.2.2 { last with scope } →
      (view.below params vars).Reads written (ty, .star) := fun fits =>
    body.reads (fits.below length body.here.names.same body.here.names.once)
  have kinds : ∀ {view : View}, view.Fits inside.2.2 { last with scope } →
      (TypeExpr.quantified span params written).Kinds view.ranks view.rates .star := fun fits =>
    .quantified span once (by rw [List.length_map, length]) (below fits).kinds
  cases vars with
  | nil =>
    obtain rfl := List.length_eq_zero_iff.mp length
    rw [List.map_nil, Ledger.bind_nil] at names
    have same : inside.leave [] = inside := by
      rw [Insight.leave, List.map_nil, Ledger.bind_nil]
    rw [same]
    exact ⟨⟨names, body.here.kinds.inScope outer⟩, retains, body.shown, body.sorts,
      fun fits => ⟨(below fits).orderly, (below fits).equal, kinds fits⟩⟩
  | cons var vars =>
    refine ⟨⟨names, body.here.kinds.inScope outer⟩, retains, body.shown.bind distinct,
      .quantified (fun _ _ _ _ => nofun) body.sorts,
      fun fits => ?_⟩
    refine ⟨.quantified (List.cons_ne_nil _ _) distinct (below fits).orderly, ?_, kinds fits⟩
    rw [if_neg (by simp), Ty.lambda, TypeExpr.lambda,
      lams_of_length (length.trans (List.length_map _).symm)]
    exact (below fits).equal.lams _

mutual

theorem read_type : ∀ (written : TypeExpr) {insight : Insight} {scope : List TypeBinding}
    {state : Elaborator}, written.Complete → Here scope insight state →
    Reaches (Around base) insight (fun later result => Read scope state later written result)
    (type written state)
  | .name span name, insight, scope, state, _, here => by
    unfold type
    refine reaches_of_ok fun session after result kept ended => ?_
    have tables : insight.2.2.Sorted (fun _ => False) insight.2.1 := kept.2.2 ▸ kept.2.1.registry
    obtain ⟨later, grown, there, ⟨shown, names⟩, ⟨⟨sorts, -⟩, kinds, -⟩, known, same⟩ :=
      (reaches_both (named_typeName here.names name span)
        (reaches_both (sorted_typeName here.kinds name span)
        (tables_typeName (fun found => tables.data found) name span))).ok kept ended
    refine ⟨later, grown, there, ⟨names, kinds⟩, same ▸ ⟨rfl, id⟩, shown, sorts, fun fits => ?_⟩
    obtain ⟨orderly, term, rank⟩ := fits.name known
    exact ⟨orderly, .of_eq (term _), .name span rank⟩
  | .var span name, _, _, _, _, here => by
    unfold type
    refine (reaches_both (named_typeVar here.names name span)
      (reaches_both (sorted_typeVar here.kinds name span) (tables_typeVar name span))).imp
        fun {later result} _ all => ?_
    obtain ⟨⟨shown, names⟩, ⟨⟨sorts, -⟩, kinds, -⟩, -, retains, binding, known, same⟩ := all
    refine ⟨⟨names, kinds⟩, retains, shown, sorts, fun {view} fits => ?_⟩
    obtain ⟨term, rate⟩ := fits.binding known
    rw [same]
    exact ⟨.var _, .of_eq term.symm, rate ▸ .var span name⟩
  | .app span head args, _, _, _, complete, here => by
    unfold type
    refine .state_bind (read_type head complete.1 here) fun {_ _ _} _ headRead => ?_
    refine .state_bind (read_types args complete.2 headRead.here) fun {_ _ _} grown argsRead => ?_
    refine .state_bind argsRead.here.freshKind fun {third kind _} grown' fresh => ?_
    have below := Kind.below_function.mpr
      ⟨List.forall_mem_map.mpr fun entry member =>
        ((argsRead.sorts entry member).grow grown'.2.1).below, fresh.2.2⟩
    have below' := ((headRead.sorts.grow grown.2.1).grow grown'.2.1).below
    exact .state_bind (fresh.1.expectKind below below' span) fun grown'' agree =>
      .state_pure (headRead.app span grown argsRead grown' fresh grown'' agree)
  | .arrow span param result, _, _, _, complete, here => by
    unfold type
    refine .state_bind (read_type param complete.1 here) fun _ read => ?_
    refine .state_bind (read.expectStar _) fun _ fst => ?_
    refine .state_bind (read_type result complete.2 fst.here) fun grown read => ?_
    exact .state_bind (read.expectStar _) fun grown' snd =>
      .state_pure (fst.arrow span (grown.trans grown') snd)
  | .tuple span [inner], _, _, _, complete, here => by
    unfold type
    exact (read_type inner complete.1 here).imp fun _ read => read.group span
  | .tuple span [], _, _, _, complete, here => by
    unfold type
    exact .state_bind (read_starTypes [] complete here) fun _ read =>
      .state_pure (read.tuple span (by simp))
  | .tuple span (first :: second :: rest), _, _, _, complete, here => by
    unfold type
    exact .state_bind (read_starTypes (first :: second :: rest) complete here) fun _ read =>
      .state_pure (read.tuple span (by simp))
  | .quantified span params body, insight, scope, state, complete, here => by
    unfold type
    -- Parameters become bound when their scope is left, so the steps are taken one by one.
    refine reaches_of_ok fun session after result kept ended => ?_
    obtain ⟨found, state'⟩ := result
    obtain ⟨_, start, distinct, rest⟩ := state_lift_bind_eq_ok.mp ended
    obtain ⟨once, rfl⟩ := distinct_eq_ok_iff.mp distinct
    clear ended
    obtain ⟨_, _, _, same, ended⟩ := state_bind_eq_ok.mp rest
    obtain ⟨rfl, rfl, rfl⟩ := state_pure_eq_ok.mp same
    clear rest
    obtain ⟨vars, opened, _, bound, ended⟩ := state_bind_eq_ok.mp ended
    obtain ⟨first, grown, kept', inner, length, new, free⟩ := (here.bindParams params).ok kept bound
    obtain ⟨typed, _, _, read, ended⟩ := state_bind_eq_ok.mp ended
    obtain ⟨second, grown', kept', typedRead⟩ := (read_type body complete inner).ok kept' read
    obtain ⟨ty, last, final, checked, ended⟩ := state_bind_eq_ok.mp ended
    obtain ⟨third, grown'', kept', inside⟩ := (typedRead.expectStar _).ok kept' checked
    obtain ⟨_, _, _, left, ended⟩ := state_bind_eq_ok.mp ended
    obtain ⟨same, rfl⟩ := EStateM.Result.ok.inj left
    obtain ⟨-, rfl⟩ := Prod.mk.inj same
    have opened := grown.trans (grown'.trans grown'')
    have result :
      (if vars.isEmpty then (ty, Kind.star) else (.quantified (vars.map (·.1)) ty, .star)) = found ∧
        { last with scope := state.scope } = state' ∧ final = after := by
      by_cases none : vars.isEmpty = true
      · rw [if_pos none] at ended ⊢
        exact state_pure_eq_ok.mp ended
      · rw [if_neg none] at ended ⊢
        exact state_pure_eq_ok.mp ended
    obtain ⟨rfl, rfl, rfl⟩ := result
    obtain ⟨-, unbound, -⟩ := inside.here.names.leave (vars_bindings length)
    have fresh : ∀ v ∈ vars.map (·.1), base.size ≤ v.index :=
      fun v member => Nat.le_trans kept.1.earlier.1 (new v member)
    refine ⟨third.leave vars, ⟨Ledger.le_bind opened.1 new, opened.2⟩,
      ⟨kept'.1.bind unbound fresh, kept'.2⟩, ?_⟩
    rw [here.names.same]
    exact inside.quantified span here opened length free once
  | .hole _, _, _, _, complete, _ => False.elim complete

theorem read_types : ∀ (written : List TypeExpr) {insight : Insight} {scope : List TypeBinding}
    {state : Elaborator}, TypeExpr.CompleteAll written → Here scope insight state →
    Reaches (Around base) insight (fun later results => ReadAll scope state later written results)
      (types written state)
  | [], _, _, _, _, here => by
    unfold types
    exact .state_pure (readAll_nil here)
  | written :: rest, _, _, _, complete, here => by
    unfold types
    refine .state_bind (read_type written complete.1 here) fun _ first => ?_
    exact .state_bind (read_types rest complete.2 first.here) fun grown others =>
      .state_pure (first.cons grown others)

theorem read_starTypes : ∀ (written : List TypeExpr) {insight : Insight} {scope : List TypeBinding}
    {state : Elaborator}, TypeExpr.CompleteAll written → Here scope insight state →
    Reaches (Around base) insight
      (fun later types => ReadAll scope state later written (types.1.map fun ty => (ty, .star),
          types.2))
      (starTypes written state)
  | [], _, _, _, _, here => by
    unfold starTypes
    exact .state_pure (readAll_nil here)
  | written :: rest, _, _, _, complete, here => by
    unfold starTypes
    refine .state_bind (read_type written complete.1 here) fun _ read => ?_
    refine .state_bind (read.expectStar _) fun _ first => ?_
    exact .state_bind (read_starTypes rest complete.2 first.here) fun grown others =>
      .state_pure (first.cons grown others)

end

theorem read_starType {insight : Insight} {scope : List TypeBinding} {state : Elaborator}
    (complete : written.Complete) (here : Here scope insight state) :
    Reaches (Around base) insight
    (fun later checked => Read scope state later written ((checked.1, .star), checked.2))
      (starType written state) :=
  .state_bind (read_type written complete here) fun _ read => read.expectStar _

end Views

end Elaborate

end PolyCheck
