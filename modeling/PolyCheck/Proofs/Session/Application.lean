import PolyCheck.Proofs.Session.Waiting

/-! Type application is curried. A type that is applied to some arguments and then to others is read
as the same type as one that is applied to all of them at once, wherever such applications stand in
what is written, unless a parameter of a definition is in scope: within the group that defines it.
The readings differ in kinds only, which neither the types nor the session depend on. -/
namespace PolyCheck

open Run

namespace Surface.TypeExpr

mutual

/-- The same written type, with any applications to some arguments and then to others put
together. -/
inductive Flattens : TypeExpr → TypeExpr → Prop where
  | name (span : Span) (name : Name) : Flattens (.name span name) (.name span name)
  | var (span : Span) (name : Name) : Flattens (.var span name) (.var span name)
  | hole (span : Span) : Flattens (.hole span) (.hole span)
  | app {span : Span} {head head' : TypeExpr} {args args' : List TypeExpr}
      (first : Flattens head head')
    (each : FlattensAll args args') : Flattens (.app span head args) (.app span head' args')
  | merge {span inner : Span} {head head' : TypeExpr} {xs xs' ys ys' : List TypeExpr}
      (first : Flattens head head') (some : FlattensAll xs xs') (others : FlattensAll ys ys') :
    Flattens (.app span (.app inner head xs) ys) (.app span head' (xs' ++ ys'))
  | arrow {span : Span} {param param' result result' : TypeExpr} (fst : Flattens param param')
    (snd : Flattens result result') : Flattens (.arrow span param result)
      (.arrow span param' result')
  | tuple {span : Span} {elements elements' : List TypeExpr}
      (each : FlattensAll elements elements') :
    Flattens (.tuple span elements) (.tuple span elements')
  | quantified {span : Span} {params : List Name} {body body' : TypeExpr}
      (inside : Flattens body body') :
    Flattens (.quantified span params body) (.quantified span params body')

inductive FlattensAll : List TypeExpr → List TypeExpr → Prop where
  | nil : FlattensAll [] []
  | cons {first first' : TypeExpr} {rest rest' : List TypeExpr} (head : Flattens first first')
    (tail : FlattensAll rest rest') : FlattensAll (first :: rest) (first' :: rest')

end

end Surface.TypeExpr

/-- The name and the variable of a parameter, without its kind. -/
def TypeBinding.named (binding : TypeBinding) : Name × TyVar := (binding.name, binding.var)

/-- Elaborators that differ in kinds only. -/
structure Elaborator.Alike (state state' : Elaborator) : Prop where
  scope : state.scope.map TypeBinding.named = state'.scope.map TypeBinding.named
  free : state.free.map (·.map TypeBinding.named) = state'.free.map (·.map TypeBinding.named)

theorem Elaborator.Alike.inScope {state state' : Elaborator} (alike : state.Alike state')
    {scope scope' : List TypeBinding}
    (same : scope.map TypeBinding.named = scope'.map TypeBinding.named) (kinds kinds' : KindTable) :
    Elaborator.Alike { state with kinds, scope } { state' with kinds := kinds', scope := scope' } :=
  ⟨same, alike.free⟩

namespace Elaborate

variable {base ledger : Ledger} {scope : List TypeBinding} {α β γ δ : Type} {said : Ledger →
  α → β → Prop}
  {said' : Ledger → γ → δ → Prop} {run : Elaborate α} {run' : Elaborate β} {next : α → Elaborate γ}
  {next' : β → Elaborate δ}

/-- Where both runs succeed, from elaborators that differ in kinds only, they lead to the same
session and again to such elaborators, with results as described. -/
def Agrees (base ledger : Ledger) (scope : List TypeBinding) (said : Ledger → α → β → Prop)
    (run : Elaborate α) (run' : Elaborate β) : Prop :=
  ∀ (state state' : Elaborator) (session : Session), base.Keeps ledger session →
    ledger.Names scope state →
    state.Alike state' → ∀ value last after value' last' after',
      run state session = .ok (value, last) after →
      run' state' session = .ok (value', last') after' →
      after' = after ∧ last.Alike last' ∧ ∃ later, ledger ≤ later ∧ base.Keeps later after ∧
        later.Names scope last ∧ said later value value'

theorem Agrees.pure {value : α} {value' : β} (holds : said ledger value value') :
    Agrees base ledger scope said (Pure.pure value) (Pure.pure value') := by
  intro state state' session keeps names alike _ _ _ _ _ _ ended ended'
  obtain ⟨rfl, rfl, rfl⟩ := state_pure_eq_ok.mp ended
  obtain ⟨rfl, rfl, rfl⟩ := state_pure_eq_ok.mp ended'
  exact ⟨rfl, alike, ledger, le_rfl, keeps, names, holds⟩

theorem Agrees.bind (first : Agrees base ledger scope said run run')
    (then_ : ∀ {later value value'}, ledger ≤ later → said later value value' →
      Agrees base later scope said' (next value) (next' value')) :
    Agrees base ledger scope said' (run >>= next) (run' >>= next') := by
  intro state state' session keeps names alike _ _ _ _ _ _ ended ended'
  obtain ⟨value, own, middle, here, rest⟩ := state_bind_eq_ok.mp ended
  obtain ⟨value', own', middle', here', rest'⟩ := state_bind_eq_ok.mp ended'
  obtain ⟨rfl, alike, later, grown, keeps, names, holds⟩ :=
    first _ _ _ keeps names alike _ _ _ _ _ _ here here'
  obtain ⟨same, alike, last, grown', keeps, names, holds⟩ :=
    then_ grown holds _ _ _ keeps names alike _ _ _ _ _ _ rest rest'
  exact ⟨same, alike, last, grown.trans grown', keeps, names, holds⟩

/-- A step that has to do with kinds only. -/
def Silent (run : Elaborate α) : Prop :=
  ∀ (state : Elaborator) (session : Session) (value last after),
  run state session = .ok (value, last) after →
    after = session ∧ ∃ kinds, last = { state with kinds }

theorem silent_freshKind : Silent freshKind := by
  intro state session value last after ended
  obtain ⟨same, rfl⟩ := EStateM.Result.ok.inj ended
  obtain ⟨-, rfl⟩ := Prod.mk.inj same
  exact ⟨rfl, _, rfl⟩

theorem silent_expectKind (expected found : Kind) (span : Span) :
    Silent (expectKind expected found span) :=
  fun _ _ _ _ _ ended => expectKind_eq_ok ended

theorem Agrees.silent {first : Elaborate δ} {next : δ → Elaborate α} (silent : Silent first)
    (then_ : ∀ value, Agrees base ledger scope said (next value) run') :
    Agrees base ledger scope said (first >>= next) run' := by
  intro state state' session keeps names alike _ _ _ _ _ _ ended ended'
  obtain ⟨value, own, middle, here, rest⟩ := state_bind_eq_ok.mp ended
  obtain ⟨rfl, kinds, rfl⟩ := silent _ _ _ _ _ here
  exact then_ value _ _ _ keeps (names.kinds kinds) ⟨alike.scope, alike.free⟩ _ _ _ _ _
    _ rest ended'

theorem Agrees.silent' {first : Elaborate δ} {next : δ → Elaborate β} (silent : Silent first)
    (then_ : ∀ value, Agrees base ledger scope said run (next value)) :
    Agrees base ledger scope said run (first >>= next) := by
  intro state state' session keeps names alike _ _ _ _ _ _ ended ended'
  obtain ⟨value, own, middle, here, rest⟩ := state_bind_eq_ok.mp ended'
  obtain ⟨rfl, kinds, rfl⟩ := silent _ _ _ _ _ here
  exact then_ value _ { state' with kinds } _ keeps names ⟨alike.scope, alike.free⟩ _ _ _ _ _
    _ ended rest

theorem Agrees.of_named {shown : Ledger → α → Prop} {same : α → β → Prop}
    (named : ∀ {state}, ledger.Names scope state →
      Reaches base.Keeps ledger (Named scope shown) (run state))
    (agree : ∀ state state' session, base.Keeps ledger session → ledger.Names scope state →
      state.Alike state' →
      ∀ value last after value' last' after', run state session = .ok (value, last) after →
        run' state' session = .ok (value', last') after' → after' = after ∧ last.Alike last' ∧
          same value value') :
    Agrees base ledger scope (fun later value value' => shown later value ∧ same value value')
      run run' := by
  intro state state' session keeps names alike _ _ _ _ _ _ ended ended'
  obtain ⟨same, alike', holds⟩ := agree _ _ _ keeps names alike _ _ _ _ _ _ ended ended'
  obtain ⟨later, grown, keeps, shown, names⟩ := (named names).ok keeps ended
  exact ⟨same, alike', later, grown, keeps, names, shown, holds⟩

/-- Two readings of a type. -/
def Same (ledger : Ledger) (result result' : Ty × Kind) : Prop :=
  ledger.Shows result.1 ∧ result.1 = result'.1

theorem agrees_expectStar {result result' : Ty × Kind} (same : Same ledger result result')
    (span span' : Span) :
    Agrees base ledger scope (fun later ty ty' => later.Shows ty ∧ ty = ty')
    (expectStar result span) (expectStar result' span') :=
  Agrees.silent (silent_expectKind _ _ _) fun _ => Agrees.silent' (silent_expectKind _ _ _) fun _ =>
    Agrees.pure same

theorem agrees_freshVar :
    Agrees base ledger scope (fun later ty ty' => later.Shows ty ∧ ty = ty')
    (liftM Check.freshVar : Elaborate Ty) (liftM Check.freshVar : Elaborate Ty) := by
  refine Agrees.of_named (fun names => .state_lifted named_freshVar fun grown shown =>
    ⟨shown, names.later grown⟩)
    fun state state' session _ _ alike value last after value' last' after' ended ended' => ?_
  obtain ⟨same, rfl⟩ := EStateM.Result.ok.inj ended
  obtain ⟨rfl, rfl⟩ := Prod.mk.inj same
  obtain ⟨same, rfl⟩ := EStateM.Result.ok.inj ended'
  obtain ⟨rfl, rfl⟩ := Prod.mk.inj same
  exact ⟨rfl, alike, rfl⟩

theorem typeName_eq_ok {name : Name} {span : Span} {state last : Elaborator}
    {session after : Session}
    {value : Ty × Kind} (run : typeName name span state session = .ok (value, last) after) :
    last = state ∧ ∀ other, typeName name span other session = .ok (value, other) after := by
  unfold typeName at run ⊢
  obtain ⟨_, _, read, rest⟩ := state_lift_bind_eq_ok.mp run
  obtain ⟨rfl, rfl⟩ := EStateM.Result.ok.inj read
  suffices given : last = state ∧ ∀ other, _ by
    exact ⟨given.1, fun other => state_lift_bind_eq_ok.mpr ⟨_, _, rfl, given.2 other⟩⟩
  cases known : session.registry.types.get? name with
  | none =>
    cases width : intWidth? name with
    | none =>
      simp only [known, width] at rest
      cases rest
    | some width =>
      simp only [known, width] at rest ⊢
      obtain ⟨ty, middle, taken, rest⟩ := state_lift_bind_eq_ok.mp rest
      obtain ⟨rfl, rfl, rfl⟩ := state_pure_eq_ok.mp rest
      exact ⟨rfl, fun other => state_lift_bind_eq_ok.mpr ⟨ty, _, taken, rfl⟩⟩
  | some entry =>
    cases entry with
    | synonym ty kind =>
      simp only [known] at rest ⊢
      obtain ⟨rfl, rfl, rfl⟩ := state_pure_eq_ok.mp rest
      exact ⟨rfl, fun _ => rfl⟩
    | data id =>
      cases defined : session.registry.template? id with
      | none =>
        simp only [known, defined] at rest ⊢
        obtain ⟨rfl, rfl, rfl⟩ := state_pure_eq_ok.mp rest
        exact ⟨rfl, fun _ => rfl⟩
      | some template =>
        simp only [known, defined] at rest ⊢
        by_cases plain : template.params.isEmpty = true
        · rw [if_pos plain] at rest ⊢
          obtain ⟨rfl, rfl, rfl⟩ := state_pure_eq_ok.mp rest
          exact ⟨rfl, fun _ => rfl⟩
        · rw [if_neg plain] at rest ⊢
          obtain ⟨rfl, rfl, rfl⟩ := state_pure_eq_ok.mp rest
          exact ⟨rfl, fun _ => rfl⟩

theorem agrees_typeName (name : Name) (span : Span) :
    Agrees base ledger scope Same (typeName name span) (typeName name span) := by
  refine Agrees.of_named (fun names => named_typeName names name span) fun state state' session _
    _ alike => ?_
  intro value last after value' last' after' ended ended'
  obtain ⟨rfl, always⟩ := typeName_eq_ok ended
  obtain ⟨same, rfl⟩ := EStateM.Result.ok.inj ((always state').symm.trans ended')
  obtain ⟨rfl, rfl⟩ := Prod.mk.inj same
  exact ⟨rfl, alike, rfl⟩

/-- A name stands for the same variable in lists of names that differ in kinds only. -/
theorem find?_alike {params params' : List TypeBinding}
    (alike : params.map TypeBinding.named = params'.map TypeBinding.named) (name : Name) :
    (params.find? (·.name = name) = none ∧ params'.find? (·.name = name) = none) ∨
      ∃ binding binding', params.find? (·.name = name) = some binding ∧
        params'.find? (·.name = name) = some binding' ∧ binding.var = binding'.var := by
  have looked : ∀ params : List TypeBinding, (params.find? (·.name = name)).map TypeBinding.named =
      (params.map TypeBinding.named).find? (·.1 = name) := fun params => by
    rw [List.find?_map]
    rfl
  have same := (looked params).trans ((congrArg _ alike).trans (looked params').symm)
  cases found : params.find? (·.name = name) with
  | none =>
    rw [found] at same
    exact .inl ⟨rfl, Option.map_eq_none_iff.mp same.symm⟩
  | some binding =>
    rw [found] at same
    obtain ⟨binding', found', named⟩ := Option.map_eq_some_iff.mp same.symm
    exact .inr ⟨binding, binding', rfl, found', (congrArg Prod.snd named).symm⟩

theorem agrees_typeVar (name : Name) (span : Span) :
    Agrees base ledger scope Same (typeVar name span) (typeVar name span) := by
  refine Agrees.of_named (fun names => named_typeVar names name span) fun state state' session _
    _ alike => ?_
  intro value last after value' last' after' ended ended'
  unfold typeVar at ended ended'
  obtain ⟨_, _, _, same, ended⟩ := state_bind_eq_ok.mp ended
  obtain ⟨rfl, rfl, rfl⟩ := state_pure_eq_ok.mp same
  obtain ⟨_, _, _, same, ended'⟩ := state_bind_eq_ok.mp ended'
  obtain ⟨rfl, rfl, rfl⟩ := state_pure_eq_ok.mp same
  rcases find?_alike alike.scope name with ⟨inScope, inScope'⟩ | ⟨binding, binding', inScope,
    inScope', same⟩
  · simp only [inScope, inScope'] at ended ended'
    cases known : state.free with
    | none =>
      rw [known] at ended
      cases ended
    | some made =>
      have free := alike.free
      rw [known] at free
      obtain ⟨made', known', named⟩ := Option.map_eq_some_iff.mp free.symm
      simp only [known, known'] at ended ended'
      rcases find?_alike named.symm name with ⟨new, new'⟩ | ⟨binding, binding', old, old', same⟩
      · simp only [new, new'] at ended ended'
        obtain ⟨kind, _, _, fresh, ended⟩ := state_bind_eq_ok.mp ended
        obtain ⟨kind', _, _, fresh', ended'⟩ := state_bind_eq_ok.mp ended'
        obtain ⟨rfl, kinds, rfl⟩ := silent_freshKind _ _ _ _ _ fresh
        obtain ⟨rfl, kinds', rfl⟩ := silent_freshKind _ _ _ _ _ fresh'
        obtain ⟨var, _, pushed, ended⟩ := state_lift_bind_eq_ok.mp ended
        obtain ⟨var', _, pushed', ended'⟩ := state_lift_bind_eq_ok.mp ended'
        obtain ⟨rfl, rfl⟩ := EStateM.Result.ok.inj (pushed.symm.trans pushed')
        obtain ⟨same, rfl⟩ := EStateM.Result.ok.inj ended
        obtain ⟨rfl, rfl⟩ := Prod.mk.inj same
        obtain ⟨same, rfl⟩ := EStateM.Result.ok.inj ended'
        obtain ⟨rfl, rfl⟩ := Prod.mk.inj same
        exact ⟨rfl, ⟨alike.scope, congrArg some (congrArg (List.cons _) named.symm)⟩, rfl⟩
      · simp only [old, old'] at ended ended'
        obtain ⟨rfl, rfl, rfl⟩ := state_pure_eq_ok.mp ended
        obtain ⟨rfl, rfl, rfl⟩ := state_pure_eq_ok.mp ended'
        exact ⟨rfl, alike, congrArg Ty.var same⟩
  · simp only [inScope, inScope'] at ended ended'
    obtain ⟨rfl, rfl, rfl⟩ := state_pure_eq_ok.mp ended
    obtain ⟨rfl, rfl, rfl⟩ := state_pure_eq_ok.mp ended'
    exact ⟨rfl, alike, congrArg Ty.var same⟩

theorem bindParams_alike {state state' last last' : Elaborator} {session after after' : Session}
    {params : List Name} {vars vars' : List (TyVar × Kind)} (alike : state.Alike state')
    (ended : params.mapM bindParam state session = .ok (vars, last) after)
    (ended' : params.mapM bindParam state' session = .ok (vars', last') after') :
    after' = after ∧ last.Alike last' ∧ vars.map (·.1) = vars'.map (·.1) := by
  induction params generalizing state state' session vars vars' with
  | nil =>
    obtain ⟨rfl, rfl, rfl⟩ := state_pure_eq_ok.mp ended
    obtain ⟨rfl, rfl, rfl⟩ := state_pure_eq_ok.mp ended'
    exact ⟨rfl, alike, rfl⟩
  | cons name params ih =>
    rw [List.mapM_cons] at ended ended'
    obtain ⟨first, _, _, bound, ended⟩ := state_bind_eq_ok.mp ended
    obtain ⟨first', _, _, bound', ended'⟩ := state_bind_eq_ok.mp ended'
    obtain ⟨same, rfl⟩ := EStateM.Result.ok.inj bound
    obtain ⟨rfl, rfl⟩ := Prod.mk.inj same
    obtain ⟨same, rfl⟩ := EStateM.Result.ok.inj bound'
    obtain ⟨rfl, rfl⟩ := Prod.mk.inj same
    obtain ⟨others, _, _, rest, ended⟩ := state_bind_eq_ok.mp ended
    obtain ⟨others', _, _, rest', ended'⟩ := state_bind_eq_ok.mp ended'
    obtain ⟨rfl, rfl, rfl⟩ := state_pure_eq_ok.mp ended
    obtain ⟨rfl, rfl, rfl⟩ := state_pure_eq_ok.mp ended'
    have scopes := congrArg (List.cons (name, (⟨session.subst.size⟩ : TyVar))) alike.scope
    obtain ⟨rfl, alike, same⟩ := ih (alike.inScope (by exact scopes) _ _) rest rest'
    exact ⟨rfl, alike, congrArg (List.cons (⟨session.subst.size⟩ : TyVar)) same⟩

theorem types_append (xs ys : List Surface.TypeExpr) :
    types (xs ++ ys) = types xs >>= fun first => types ys >>= fun rest => pure (first ++ rest) := by
  induction xs with
  | nil => simp [types]
  | cons x xs ih => simp [types, ih]

def SameAll (ledger : Ledger) (results results' : List (Ty × Kind)) : Prop :=
  (∀ result ∈ results, ledger.Shows result.1) ∧ results.map (·.1) = results'.map (·.1)

open Surface.TypeExpr (Flattens FlattensAll)

mutual

theorem agrees_type : ∀ {written written' : Surface.TypeExpr}, Flattens written written' →
    ∀ {ledger : Ledger} {scope : List TypeBinding}, Agrees base ledger scope Same (type written)
    (type written')
  | _, _, .name span name, _, _ => agrees_typeName name span
  | _, _, .var span name, _, _ => agrees_typeVar name span
  | _, _, .hole span, _, _ => by
    unfold type
    refine Agrees.silent silent_freshKind fun _ => Agrees.silent' silent_freshKind fun _ => ?_
    exact agrees_freshVar.bind fun _ read => Agrees.pure read
  | _, _, .app first each, _, _ => by
    unfold type
    refine (agrees_type first).bind fun _ head => ?_
    refine (agrees_types each).bind fun grown args => ?_
    refine Agrees.silent silent_freshKind fun _ => Agrees.silent' silent_freshKind fun _ => ?_
    refine Agrees.silent (silent_expectKind _ _ _) fun _ =>
      Agrees.silent' (silent_expectKind _ _ _) fun _ => ?_
    refine Agrees.pure ⟨(head.1.later grown).apply (List.forall_mem_map.mpr args.1), ?_⟩
    exact congrArg₂ Ty.apply head.2 args.2
  | _, _, .merge first fst snd, _, _ => by
    simp only [type, types_append, bind_assoc, pure_bind]
    refine (agrees_type first).bind fun _ head => ?_
    refine (agrees_types fst).bind fun grown xs => ?_
    refine Agrees.silent silent_freshKind fun _ =>
      Agrees.silent (silent_expectKind _ _ _) fun _ => ?_
    refine (agrees_types snd).bind fun grown' ys => ?_
    refine Agrees.silent silent_freshKind fun _ => Agrees.silent' silent_freshKind fun _ => ?_
    refine Agrees.silent (silent_expectKind _ _ _) fun _ =>
      Agrees.silent' (silent_expectKind _ _ _) fun _ => ?_
    have head' := head.1.later grown
    have given := List.forall_mem_map.mpr xs.1
    have given' := List.forall_mem_map.mpr ys.1
    refine Agrees.pure ⟨((head'.apply given).later grown').apply given', ?_⟩
    calc Ty.apply (Ty.apply _ _) _
      _ = Ty.apply _ (_ ++ _) := head'.apply_apply given _
      _ = Ty.apply _ _ := by rw [head.2, xs.2, ys.2, List.map_append]
  | _, _, .arrow fst snd, _, _ => by
    unfold type
    refine (agrees_type fst).bind fun _ read => ?_
    refine (agrees_expectStar read _ _).bind fun _ param => ?_
    refine (agrees_type snd).bind fun grown read => ?_
    refine (agrees_expectStar read _ _).bind fun grown' result => Agrees.pure ?_
    exact ⟨.arrow (param.1.later (grown.trans grown')) result.1,
      congrArg₂ Ty.arrow param.2 result.2⟩
  | _, _, .tuple .nil, _, _ => by
    unfold type
    exact (agrees_starTypes .nil).bind fun _ read =>
      Agrees.pure ⟨.tuple read.1, congrArg Ty.tuple read.2⟩
  | _, _, .tuple (.cons inner .nil), _, _ => by
    unfold type
    exact agrees_type inner
  | _, _, .tuple (.cons first (.cons second rest)), _, _ => by
    unfold type
    exact (agrees_starTypes (.cons first (.cons second rest))).bind fun _ read =>
      Agrees.pure ⟨.tuple read.1, congrArg Ty.tuple read.2⟩
  | _, _, @Surface.TypeExpr.Flattens.quantified span params body _ inside, _, scope => by
    refine Agrees.of_named (fun names => named_type _ names) fun state state' session keeps
      names alike => ?_
    intro value last after value' last' after' ended ended'
    unfold type at ended ended'
    obtain ⟨_, _, distinct, rest⟩ := state_lift_bind_eq_ok.mp ended
    obtain ⟨_, _, distinct', rest'⟩ := state_lift_bind_eq_ok.mp ended'
    obtain rfl := Session.distinct_eq_ok distinct
    obtain rfl := Session.distinct_eq_ok distinct'
    clear ended ended'
    obtain ⟨_, _, _, same, ended⟩ := state_bind_eq_ok.mp rest
    obtain ⟨rfl, rfl, rfl⟩ := state_pure_eq_ok.mp same
    obtain ⟨_, _, _, same, ended'⟩ := state_bind_eq_ok.mp rest'
    obtain ⟨rfl, rfl, rfl⟩ := state_pure_eq_ok.mp same
    clear rest rest'
    obtain ⟨vars, _, _, bound, ended⟩ := state_bind_eq_ok.mp ended
    obtain ⟨vars', _, _, bound', ended'⟩ := state_bind_eq_ok.mp ended'
    obtain ⟨first, -, keeps, -, made, -, names'⟩ := (named_bindParams names params).ok keeps bound
    obtain ⟨rfl, inner, binders⟩ := bindParams_alike alike bound bound'
    obtain ⟨typed, _, _, read, ended⟩ := state_bind_eq_ok.mp ended
    obtain ⟨typed', _, _, read', ended'⟩ := state_bind_eq_ok.mp ended'
    obtain ⟨rfl, inner, second, -, keeps, names', same⟩ :=
      agrees_type inside _ _ _ keeps names' inner _ _ _ _ _ _ read read'
    obtain ⟨ty, _, _, checked, ended⟩ := state_bind_eq_ok.mp ended
    obtain ⟨ty', _, _, checked', ended'⟩ := state_bind_eq_ok.mp ended'
    obtain ⟨rfl, inner, third, -, keeps, names', -, rfl⟩ :=
      agrees_expectStar same _ _ _ _ _ keeps names' inner _ _ _ _ _ _ checked checked'
    obtain ⟨_, _, _, left, ended⟩ := state_bind_eq_ok.mp ended
    obtain ⟨_, _, _, left', ended'⟩ := state_bind_eq_ok.mp ended'
    obtain ⟨same, rfl⟩ := EStateM.Result.ok.inj left
    obtain ⟨-, rfl⟩ := Prod.mk.inj same
    obtain ⟨same, rfl⟩ := EStateM.Result.ok.inj left'
    obtain ⟨-, rfl⟩ := Prod.mk.inj same
    have outer := inner.inScope alike.scope
    have empty : vars.isEmpty = vars'.isEmpty := by
      rw [← List.isEmpty_map (f := (·.1)), binders, List.isEmpty_map]
    rw [← empty, ← binders] at ended'
    by_cases none : vars.isEmpty = true
    · rw [if_pos none] at ended ended'
      obtain ⟨rfl, rfl, rfl⟩ := state_pure_eq_ok.mp ended
      obtain ⟨rfl, rfl, rfl⟩ := state_pure_eq_ok.mp ended'
      exact ⟨rfl, outer _ _, rfl⟩
    · rw [if_neg none] at ended ended'
      obtain ⟨rfl, rfl, rfl⟩ := state_pure_eq_ok.mp ended
      obtain ⟨rfl, rfl, rfl⟩ := state_pure_eq_ok.mp ended'
      exact ⟨rfl, outer _ _, rfl⟩

theorem agrees_types : ∀ {written written' : List Surface.TypeExpr}, FlattensAll written written' →
    ∀ {ledger : Ledger} {scope : List TypeBinding},
    Agrees base ledger scope SameAll (types written) (types written')
  | _, _, .nil, _, _ => by
    unfold types
    exact Agrees.pure ⟨nofun, rfl⟩
  | _, _, .cons head tail, _, _ => by
    unfold types
    refine (agrees_type head).bind fun _ first => ?_
    refine (agrees_types tail).bind fun grown rest => Agrees.pure ?_
    exact ⟨List.forall_mem_cons.mpr ⟨first.1.later grown, rest.1⟩,
      congrArg₂ List.cons first.2 rest.2⟩

theorem agrees_starTypes : ∀ {written written' : List Surface.TypeExpr},
    FlattensAll written written' → ∀ {ledger : Ledger} {scope : List TypeBinding},
    Agrees base ledger scope (fun later types types' => (∀ ty ∈ types, later.Shows ty) ∧
      types = types') (starTypes written) (starTypes written')
  | _, _, .nil, _, _ => by
    unfold starTypes
    exact Agrees.pure ⟨nofun, rfl⟩
  | _, _, .cons head tail, _, _ => by
    unfold starTypes
    refine (agrees_type head).bind fun _ read => ?_
    refine (agrees_expectStar read _ _).bind fun _ first => ?_
    refine (agrees_starTypes tail).bind fun grown rest => Agrees.pure ?_
    exact ⟨List.forall_mem_cons.mpr ⟨first.1.later grown, rest.1⟩,
      congrArg₂ List.cons first.2 rest.2⟩

end

end Elaborate

theorem Elaborator.alike_refl (state : Elaborator) : state.Alike state := ⟨rfl, rfl⟩

namespace Elaborate

theorem writtenType_flattens {ledger : Ledger} {session after after' : Session}
    {written written' : Surface.TypeExpr}
    {ty ty' : Ty} (keeps : ledger.Keeps ledger session) (flattens : written.Flattens written')
    (ended : Check.writtenType written session = .ok ty after)
    (ended' : Check.writtenType written' session = .ok ty' after') : ty' = ty ∧ after' = after := by
  have agrees : Agrees ledger ledger [] (fun later ty ty' => later.Shows ty ∧ ty = ty')
      (starType written) (starType written') :=
    (agrees_type flattens).bind fun _ same => agrees_expectStar same _ _
  have names : ledger.Names [] .forUse := ⟨rfl, List.forall_mem_nil _, List.nodup_nil⟩
  obtain ⟨⟨_, last⟩, read, rfl⟩ := map_eq_ok.mp ended
  obtain ⟨⟨_, last'⟩, read', rfl⟩ := map_eq_ok.mp ended'
  obtain ⟨same, -, _, -, -, -, -, same'⟩ :=
    agrees _ _ _ keeps names (Elaborator.alike_refl _) _ _ _ _ _ _ read read'
  exact ⟨same'.symm, same⟩

/-- Where no parameter of a definition is in scope, written types that differ in how applications
are put together are read as the same type, with the same effect on the session; the kinds that are
found on the way may differ. A type that is given arguments in turn is the type that is given all of
them, unless the first ones mention a parameter that still waits. -/
theorem applications_curried {state : Elaborator} {session : Session} :
    (∀ {base ledger : Ledger} {scope : List TypeBinding},
      base.Keeps ledger session → ledger.Names scope state →
      ∀ {written written' : Surface.TypeExpr}, written.Flattens written' →
      ∀ {read read' : Ty × Kind} {last last' : Elaborator} {after after' : Session},
      type written state session = .ok (read, last) after →
      type written' state session = .ok (read', last') after' →
      read'.1 = read.1 ∧ after' = after ∧ last.Alike last') ∧
    ∀ {head : Ty} {xs : List Ty} (ys : List Ty), head.Distinct → (∀ x ∈ xs, x.Distinct) →
      (∀ waiting body, head.apply xs = .quantified waiting body → Ty.Spared waiting xs) →
      (head.apply xs).apply ys = head.apply (xs ++ ys) := by
  refine ⟨fun {_ _ _} keeps names {_ _} flattens {_ _ _ _ _ _} ended ended' => ?_,
    fun {_ _} ys distinct distinct' spared => Ty.apply_apply distinct distinct' spared⟩
  obtain ⟨same, alike, later, -, -, -, -, same'⟩ :=
    agrees_type flattens _ _ _ keeps names state.alike_refl _ _ _ _ _ _ ended ended'
  exact ⟨same'.symm, same, alike⟩

def ownParams : List (TyVar × Kind) := [(⟨0⟩, .var 0), (⟨1⟩, .var 1)]

def ownSession : Session :=
  { Session.start .standard with
    subst := ((Subst.empty.freshRigid "a").2.freshRigid "b").2
    registry := (Registry.initial.alloc (.openWith "t" ownParams)).2.defineType "t" (.data ⟨2⟩) }

def ownState : Elaborator where
  kinds := KindTable.empty.fresh.2.fresh.2
  scope := [⟨"b", ⟨1⟩, .var 1⟩, ⟨"a", ⟨0⟩, .var 0⟩]
  free := none

/-- `t` applied to one type and then to another. -/
def inTurn (x y : Surface.TypeExpr) : Surface.TypeExpr :=
  .app default (.app default (.name default "t") [x]) [y]

def atOnce (x y : Surface.TypeExpr) : Surface.TypeExpr := .app default (.name default "t") [x, y]

theorem flattens_inTurn {x y : Surface.TypeExpr} (fst : x.Flattens x) (snd : y.Flattens y) :
    (inTurn x y).Flattens (atOnce x y) :=
  .merge (.name _ _) (.cons fst .nil) (.cons snd .nil)

def ownLedger : Ledger := ⟨2, fun v => v.index < 2⟩

theorem keeps_own : ownLedger.Keeps ownLedger ownSession where
  size := rfl
  inside _ := id
  earlier := le_rfl
  registry := (Ledger.knows_initial _).enter "t" (by decide)
    (by simp [Template.openWith, Template.paramVars, ownParams, ownLedger]) _

/-- In the fields of another type of the group, which has no parameters, `t` may take its arguments
in turn. -/
theorem applications_curried_outside : ∃ read read' last last' after after',
    type (inTurn (.name default "bool") (.name default "string"))
    { ownState with scope := [] } ownSession = .ok (read, last) after ∧
      type (atOnce (.name default "bool") (.name default "string"))
      { ownState with scope := [] } ownSession = .ok (read', last') after' ∧
      read'.1 = read.1 ∧ after' = after := by
  have shown : gives (fun _ _ => true)
      (type (inTurn (.name default "bool") (.name default "string")) { ownState with scope := [] }
        ownSession) = true := by cbv
  have shown' : gives (fun _ _ => true)
      (type (atOnce (.name default "bool") (.name default "string")) { ownState with scope := [] }
        ownSession) = true := by cbv
  obtain ⟨⟨read, last⟩, after, ended, -⟩ := exists_of_gives shown
  obtain ⟨⟨read', last'⟩, after', ended', -⟩ := exists_of_gives shown'
  have names : ownLedger.Names [] { ownState with scope := [] } :=
    ⟨rfl, List.forall_mem_nil _, List.nodup_nil⟩
  obtain ⟨same, same', -⟩ :=
    applications_curried.1 keeps_own names (flattens_inTurn (.name _ _) (.name _ _)) ended ended'
  exact ⟨read, read', last, last', after, after', ended, ended', same, same'⟩

/-- Within its own group the first argument `b` of `t` is caught by the parameter `b` that still
waits, and what comes next takes its place. -/
theorem own_application_caught :
    ¬ ∀ (state : Elaborator) (session : Session) {written written' : Surface.TypeExpr}
    {read read' : Ty × Kind}
      {last last' : Elaborator} {after after' : Session}, written.Flattens written' →
      type written state session = .ok (read, last) after → type written' state session = .ok
      (read', last') after' →
      ∀ v : TyVar, v.index < session.subst.size →
        (read.1.Confined (fun _ => True) (· ≠ v) ↔ read'.1.Confined (fun _ => True) (· ≠ v)) := by
  intro curried
  have shown : gives (fun result _ => result.1.1 == .nominal ⟨2⟩ [.var ⟨0⟩, .var ⟨0⟩])
      (type (inTurn (.var default "b") (.var default "a")) ownState ownSession) = true := by cbv
  have shown' : gives (fun result _ => result.1.1 == .nominal ⟨2⟩ [.var ⟨1⟩, .var ⟨0⟩])
      (type (atOnce (.var default "b") (.var default "a")) ownState ownSession) = true := by cbv
  obtain ⟨⟨⟨read, kind⟩, last⟩, after, ended, is⟩ := exists_of_gives shown
  obtain ⟨⟨⟨read', kind'⟩, last'⟩, after', ended', is'⟩ := exists_of_gives shown'
  obtain rfl := eq_of_beq is
  obtain rfl := eq_of_beq is'
  have same := curried _ _ (flattens_inTurn (.var _ _) (.var _ _)) ended ended' ⟨1⟩ (by decide)
  have spared : Ty.Confined (fun _ => True) (· ≠ ⟨1⟩) (.nominal ⟨2⟩ [.var ⟨0⟩, .var ⟨0⟩]) :=
    .nominal (List.forall_mem_cons.mpr ⟨.var (by decide),
        List.forall_mem_singleton.mpr (.var (by decide))⟩)
  have caught := (same.mp spared).nominal_inv (.var ⟨1⟩) List.mem_cons_self
  cases caught with
  | var different => exact different rfl

end Elaborate

end PolyCheck
