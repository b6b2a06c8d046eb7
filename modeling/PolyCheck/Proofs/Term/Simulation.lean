import PolyCheck.Proofs.Term.Lowering

/-! Lowering keeps what a term evaluates to. Evaluating a typed term and what it is lowered to gives
values that go together, or stops both for the same reason. The proof goes down the term for one
level of calls, and then along the levels; a value of a type is needed at every match, so types are
kept on the way. -/
namespace PolyCheck

variable {subst : Subst} {registry : Registry}

/-- The same outcome up to a relation of results. -/
inductive Agree {α β : Type} (related : α → β → Prop) : Except Stop α → Except Stop β → Prop where
  | ok {result : α} {result' : β} (holds : related result result') :
    Agree related (.ok result) (.ok result')
  | error (stop : Stop) : Agree related (.error stop) (.error stop)

namespace Agree

variable {α β γ δ : Type} {related : α → β → Prop} {related' : γ → δ → Prop}
  {outcome : Except Stop α} {outcome' : Except Stop β}

theorem bind {next : α → Except Stop γ} {next' : β → Except Stop δ}
    (agree : Agree related outcome outcome')
    (then_ : ∀ {result result'}, outcome = .ok result → related result result' →
      Agree related' (next result) (next' result')) :
    Agree related' (outcome >>= next) (outcome' >>= next') := by
  cases agree with
  | ok holds => exact then_ rfl holds
  | error stop => exact .error stop

theorem mono {weaker : α → β → Prop} (agree : Agree related outcome outcome')
    (imp : ∀ {result result'}, outcome = .ok result → related result result' →
      weaker result result') :
    Agree weaker outcome outcome' := by
  cases agree with
  | ok holds => exact .ok (imp rfl holds)
  | error stop => exact .error stop

end Agree

def Value.Refines (subst : Subst) (registry : Registry) (ty : Ty) (value value' : Value) : Prop :=
  value.Typed subst registry ty ∧ value.Lowers subst registry value'

structure Bindings.Refines (subst : Subst) (registry : Registry) (images : TyVar → Ty)
    (context : Context) (env env' : Bindings) : Prop where
  typed : env.Typed subst registry images context
  lowers : env.Lowers subst registry env'

namespace Term

variable {images : TyVar → Ty} {context : Context} {env env' : Bindings}

/-- A term evaluates to what its lowered form evaluates to, at every choice of types for
variables. -/
def Simulated (subst : Subst) (registry : Registry) (call : Term → Bindings → Outcome)
    (context : Context) (term : Term) : Prop :=
  ∀ {lowered : Term} {images : TyVar → Ty} {env env' : Bindings},
    Lowers subst registry term lowered → Bindings.Refines subst registry images context env env' →
    Agree (Value.Refines subst registry (term.ty.under images)) (call term env) (call lowered env')

def Simulates (subst : Subst) (registry : Registry) (call : Term → Bindings → Outcome) : Prop :=
  ∀ {context : Context} {term : Term}, Typed subst registry context term →
    Simulated subst registry call context term

abbrev evaluating (call : Term → Bindings → Outcome) : Term → Bindings → Outcome :=
  fun term env => evalWith call env term

variable {call : Term → Bindings → Outcome}

theorem simulated_all {elems elems' : List Term}
    (each : ∀ term ∈ elems, Simulated subst registry (evaluating call) context term)
    (lowers : List.Forall₂ (Lowers subst registry) elems elems')
    (scopes : Bindings.Refines subst registry images context env env') :
    Agree (fun values values' =>
        List.Forall₂ (Value.Typed subst registry) values
        ((elems.map Term.ty).map (·.under images)) ∧
          List.Forall₂ (Value.Lowers subst registry) values values')
      (evalAllWith call env elems) (evalAllWith call env' elems') := by
  induction lowers with
  | nil => exact .ok ⟨.nil, .nil⟩
  | cons first _ ih =>
    obtain ⟨here, others⟩ := List.forall_mem_cons.mp each
    refine (here first scopes).bind fun _ ⟨typed, related⟩ => ?_
    refine (ih others).bind fun _ ⟨typedRest, relatedRest⟩ => ?_
    exact .ok ⟨.cons typed typedRest, .cons related relatedRest⟩

theorem simulated_var {name : Name} {ty : Ty} {scheme : Scheme} (named : name.Apart)
    (known : context name = some scheme) (resolved : subst.Resolved scheme.ty)
    (isInstance : scheme.Instance ty) :
    Simulated subst registry (evaluating call) context (.var name ty) := by
  intro lowered images env env' lowers scopes
  obtain ⟨supply, rfl⟩ := lowers
  obtain ⟨own, fixed, rfl⟩ := isInstance
  have related := scopes.lowers name named
  change Agree _ (evalWith call env (.var name _)) (evalWith call env' (.var name _))
  rw [evalWith, evalWith]
  cases found : env.value? name with
  | none =>
    rw [found] at related
    generalize env'.value? name = found' at related
    cases related with
    | none => exact .error .failure
  | some value =>
    rw [found] at related
    generalize env'.value? name = found' at related
    cases related with
    | some holds =>
      refine .ok ⟨?_, holds⟩
      have typed := scopes.typed name scheme value known found (fun v => (own v).under images)
        fun v free => congrArg (Ty.under images) (fixed v free)
      change Value.Typed subst registry value ((scheme.ty.under own).under images)
      rwa [resolved.1.under_under]

theorem typed_constant {id : TemplateId} {index : Nat} {dataCase : DataCase} {args : List Ty}
    (declares : registry.Declares id index dataCase args) (empty : dataCase.fields = []) :
    Value.Typed subst registry (.ctor index none) ((Ty.nominal id args).under images) := by
  have declares' := declares.change (·.under images)
  have none : registry.fieldsAt id index (args.map (·.under images)) = [] :=
    List.eq_nil_of_length_eq_zero (declares'.length_fieldsAt.trans (by rw [empty]; rfl))
  have each : List.Forall₂ (Value.Typed subst registry) []
      (registry.fieldsAt id index (args.map (·.under images))) := by
    rw [none]
    exact .nil
  rw [Ty.under, Ty.underAll_eq_map]
  exact Value.typed_ctor declares' each

theorem typed_applied (plain : registry.Plain) {id : TemplateId} {index : Nat} {dataCase : DataCase}
    {args : List Ty} (declares : registry.Declares id index dataCase args)
    (nonempty : dataCase.fields ≠ []) {value : Value}
    (typed : value.Typed subst registry
      ((Ty.tupled (registry.fieldsAt id index args)).under images)) :
    Value.Typed subst registry (.ctor index (some value)) ((Ty.nominal id args).under images) := by
  have length := declares.length_fieldsAt
  have fields := declares.fieldsAt_under plain images
  have declares' := declares.change (·.under images)
  rw [Ty.under, Ty.underAll_eq_map]
  generalize registry.fieldsAt id index args = types at typed length fields
  match types, typed, length with
  | [], _, length => exact absurd (List.eq_nil_of_length_eq_zero length.symm) nonempty
  | [only], typed, _ =>
    have each : List.Forall₂ (Value.Typed subst registry) [value]
        (registry.fieldsAt id index (args.map (·.under images))) := by
      rw [fields]
      exact .cons typed .nil
    exact Value.typed_ctor declares' each
  | first :: second :: rest, typed, _ =>
    obtain ⟨values, rfl, each⟩ := Value.Typed.tuple_inv typed
    rw [Ty.underAll_eq_map, ← fields] at each
    rw [← Value.pack_eq_tuple (by rw [each.length_eq, fields]; simp)]
    exact Value.typed_ctor declares' each

theorem simulated_app {func arg : Term} {ty : Ty} (calls : Simulates subst registry call)
    (fits : func.ty = .arrow arg.ty ty)
    (function : Simulated subst registry (evaluating call) context func)
    (argument : Simulated subst registry (evaluating call) context arg) :
    Simulated subst registry (evaluating call) context (.app func arg ty) := by
  intro lowered images env env' lowers scopes
  obtain ⟨func', arg', rfl, lowersFunc, lowersArg⟩ := lowers.app_inv
  change Agree _ (evalWith call env (.app func arg ty)) (evalWith call env' (.app func' arg' ty))
  rw [evalWith, evalWith]
  refine (function lowersFunc scopes).bind fun _ both => ?_
  obtain ⟨typed, related⟩ := both
  rw [fits, Ty.under] at typed
  obtain ⟨param, body, inner, own, paramTy, images', rfl, typedBody, typedInner, sameParam,
      sameResult⟩ :=
    typed.arrow_inv
  obtain ⟨body', inner', rfl, lowersBody, lowersInner⟩ := Value.lowers_closure_iff.mp related
  refine (argument lowersArg scopes).bind fun {value value'} _ refines => ?_
  obtain ⟨typedArg, relatedArg⟩ := refines
  change Agree (Value.Refines subst registry (ty.under images)) _ _
  rw [sameResult]
  refine calls typedBody lowersBody ⟨?_, ?_⟩
  · have captured : Pat.Captured subst registry images' [(param, paramTy)] [(param, value)] := by
      intro entry member
      obtain rfl := List.mem_singleton.mp member
      exact ⟨paramTy, List.mem_singleton_self _, sameParam ▸ typedArg⟩
    exact typedInner.captures captured (.refl _) (List.nodup_singleton _)
  · have each : Bindings.LowersEach subst registry [(param, value)] [(param, value')] :=
      .cons ⟨rfl, relatedArg⟩ .nil
    exact lowersInner.append fun name _ => each.value? name

theorem simulated_lambda {param : Name} {paramTy : Ty} {body : Term}
    (typed : Typed subst registry (context.extend [(param, .mono paramTy)]) body) :
    Simulated subst registry (evaluating call) context
      (.lambda param paramTy body (.arrow paramTy body.ty)) := by
  intro lowered images env env' lowers scopes
  obtain ⟨body', rfl, lowersBody⟩ := lowers.lambda_inv
  change Agree _ (evalWith call env (.lambda _ _ _ _)) (evalWith call env' (.lambda _ _ _ _))
  rw [evalWith, evalWith]
  exact .ok ⟨.closure typed scopes.typed,
    Value.lowers_closure_iff.mpr ⟨body', env', rfl, lowersBody, scopes.lowers⟩⟩

/-- The values of a group, one by one. Each has all the types that its scheme gives, because the
value is the same at all types for the variables that the scheme quantifies. -/
theorem simulated_definitions {definitions definitions' : List Definition}
    (values : ∀ definition ∈ definitions,
      Simulated subst registry (evaluating call) context definition.value)
    (types : ∀ definition ∈ definitions, definition.value.ty = definition.scheme.ty)
    (general : ∀ definition ∈ definitions, ∀ v ∈ definition.scheme.vars, context.Closed v)
    (lowers : List.Forall₂ (LowersDefinition subst registry) definitions definitions')
    (scopes : Bindings.Refines subst registry images context env env') :
    Agree (fun found found' =>
        List.Forall₂ (fun binding entry => binding.1 = entry.1 ∧
          ∀ images', SameOutside binding.2.vars images images' →
            Value.Typed subst registry entry.2 (binding.2.ty.under images'))
          (Definition.schemes definitions) found ∧
        Bindings.LowersEach subst registry found found')
      (evalDefinitionsWith call env definitions) (evalDefinitionsWith call env' definitions') := by
  induction lowers with
  | nil => exact .ok ⟨.nil, .nil⟩
  | @cons definition definition' rest rest' first _ ih =>
    obtain ⟨name, scheme, term⟩ := definition
    obtain ⟨name', scheme', term'⟩ := definition'
    obtain ⟨same, lowersValue⟩ := first
    obtain rfl : name' = name := same
    obtain ⟨here, others⟩ := List.forall_mem_cons.mp values
    obtain ⟨type, otherTypes⟩ := List.forall_mem_cons.mp types
    obtain ⟨closed, otherGeneral⟩ := List.forall_mem_cons.mp general
    refine (here lowersValue scopes).bind fun {value value'} found ⟨_, related⟩ => ?_
    refine (ih others otherTypes otherGeneral).bind fun _ ⟨typedRest, relatedRest⟩ => ?_
    refine .ok ⟨.cons ⟨rfl, fun images' same => ?_⟩ typedRest, .cons ⟨rfl, related⟩ relatedRest⟩
    have again := here lowersValue ⟨scopes.typed.change closed same, scopes.lowers⟩
    rw [found] at again
    generalize evaluating call term' env' = outcome at again
    cases again with
    | ok holds => exact type ▸ holds.1

theorem simulated_letIn {definitions : List Definition} {body : Term}
    (values : ∀ definition ∈ definitions,
      Simulated subst registry (evaluating call) context definition.value)
    (types : ∀ definition ∈ definitions, definition.value.ty = definition.scheme.ty)
    (general : ∀ definition ∈ definitions, ∀ v ∈ definition.scheme.vars, context.Closed v)
    (simulated : Simulated subst registry (evaluating call)
      (context.extend (Definition.schemes definitions)) body) :
    Simulated subst registry (evaluating call) context (.letIn false definitions body body.ty) := by
  intro lowered images env env' lowers scopes
  obtain ⟨definitions', body', rfl, lowersDefinitions, lowersBody⟩ := lowers.letIn_inv
  change Agree _ (evalWith call env (.letIn false _ _ _)) (evalWith call env' (.letIn false _ _ _))
  rw [evalWith, evalWith]
  refine (simulated_definitions values types general lowersDefinitions scopes).bind fun _ both => ?_
  obtain ⟨typed, related⟩ := both
  refine simulated lowersBody ⟨?_, ?_⟩
  · exact scopes.typed.append fun name => rel_lookup (List.forall₂_reverse_iff.mpr typed) name
  · exact scopes.lowers.append fun name _ => related.value? name

section Matches

open Decision

theorem firstArm?_lowers {arms arms' : List Arm}
    (lowers : List.Forall₂ (LowersArm subst registry) arms arms')
    {value value' : Value} (related : value.Lowers subst registry value') :
    Option.Rel (fun found found' => LowersArm subst registry found.1 found'.1 ∧
        Bindings.LowersEach subst registry found.2 found'.2)
      (firstArm? value arms) (firstArm? value' arms') := by
  induction lowers with
  | nil => exact .none
  | @cons arm arm' _ _ first _ ih =>
    rw [firstArm?, firstArm?, List.findSome?_cons, List.findSome?_cons, first.1]
    have here := Pat.match?_lowers arm.pat related
    generalize arm.pat.match? value = found at here
    generalize arm.pat.match? value' = found' at here
    cases here with
    | some each => exact .some ⟨first, each⟩
    | none => exact ih

theorem eval_compile_error {scrutinee : Term} {stop : Stop}
    (stopped : evalWith call env scrutinee = .error stop) (arms : List Arm) (ty : Ty)
    (supply : NameSupply) :
    evalWith call env (compile subst registry scrutinee arms ty supply).1 = .error stop := by
  change evalWith call env (.letIn false [⟨_, _, scrutinee⟩] _ ty) = _
  rw [evalWith, evalDefinitionsWith, stopped]
  rfl

theorem LowersEach.names {more more' : Bindings}
    (each : Bindings.LowersEach subst registry more more') : more'.map (·.1) = more.map (·.1) := by
  induction each with
  | nil => rfl
  | cons first _ ih => rw [List.map_cons, List.map_cons, ih, first.1]

theorem Resolved.zonk_eq {ty : Ty} (resolved : subst.Resolved ty) (tame : subst.Tame) :
    subst.zonk ty = ty := by
  rw [tame.zonk_eq_under resolved.1]
  exact resolved.1.under_fixed fun v member => tame.zonk_var_of_unsolved (resolved.2 v member)

theorem simulated_matchOn (tame : subst.Tame) (plain : registry.Plain) {scrutinee : Term}
    {arms : List Arm} {ty : Ty} (captures : Arm → List (Name × Ty))
    (resolved : subst.Resolved scrutinee.ty)
    (simulated : Simulated subst registry (evaluating call) context scrutinee)
    (pats : ∀ arm ∈ arms, Pat.Typed registry arm.pat scrutinee.ty (captures arm))
    (distinct : ∀ arm ∈ arms, ((captures arm).map (·.1)).Nodup)
    (bodies : ∀ arm ∈ arms, Simulated subst registry (evaluating call)
      (context.extend (Scheme.monos (captures arm))) arm.body)
    (results : ∀ arm ∈ arms, arm.body.ty = ty) :
    Simulated subst registry (evaluating call) context (.matchOn scrutinee arms ty) := by
  intro lowered images env env' lowers scopes
  obtain ⟨scrutinee', arms', supply, rfl, lowersScrutinee, lowersArms⟩ := lowers.matchOn_inv
  have zonked : subst.zonk scrutinee'.ty = scrutinee.ty := by
    rw [lowersScrutinee.ty_eq]
    exact Resolved.zonk_eq resolved tame
  have whole := simulated lowersScrutinee scopes
  change Agree _ (evalWith call env (.matchOn scrutinee arms ty))
    (evalWith call env' (compile subst registry scrutinee' arms' ty supply).1)
  rw [evalWith]
  change Agree _ (evalWith call env scrutinee) (evalWith call env' scrutinee') at whole
  generalize outcome : evalWith call env scrutinee = found at whole
  generalize outcome' : evalWith call env' scrutinee' = found' at whole
  cases whole with
  | error stop =>
    rw [eval_compile_error outcome']
    exact .error stop
  | @ok value value' refines =>
    obtain ⟨typed, related⟩ := refines
    have selects :=
      @eval_compile subst registry ty supply call env' value' arms' scrutinee' outcome'
      (by rw [zonked]; exact related.hasType (typed.hasType plain resolved rfl))
      (fun arm' member => by
        obtain ⟨arm, inArms, lowersArm⟩ := forall₂_of_mem lowersArms.flip member
        rw [zonked, lowersArm.1]
        exact (pats arm inArms).hasType subst)
    have both := firstArm?_lowers lowersArms related
    change Agree _ (evalArmsWith call env value arms) _
    rw [evalArms_eq]
    generalize first : firstArm? value arms = chosen at both
    generalize firstArm? value' arms' = chosen' at both selects
    cases both with
    | none =>
      rw [selects]
      exact .error .failure
    | @some here here' same =>
      obtain ⟨arm, bindings⟩ := here
      obtain ⟨arm', bindings'⟩ := here'
      obtain ⟨lowersArm, each⟩ := same
      obtain ⟨hidden, captured, minted, perm, result⟩ := selects
      obtain ⟨inArms, matched⟩ := mem_of_firstArm? first
      have typedPat := pats arm inArms
      obtain ⟨names, uniform⟩ := typedPat.captured
      have sameNames : (bindings.map (·.1)).Perm ((captures arm).map (·.1)) :=
        (Pat.names_of_match? uniform matched).trans names.symm
      have distinct' : (bindings'.map (·.1)).Nodup := by
        rw [LowersEach.names each]
        exact sameNames.nodup_iff.mpr (distinct arm inArms)
      rw [result]
      change Agree (Value.Refines subst registry (ty.under images)) _ _
      rw [← results arm inArms]
      refine bodies arm inArms lowersArm.2 ⟨?_, ?_⟩
      · exact scopes.typed.captures (typedPat.captures_typed plain typed matched) sameNames
          (distinct arm inArms)
      · refine (scopes.lowers.hide minted).append fun name _ => ?_
        rw [← Bindings.value?_perm perm.symm distinct']
        exact each.value? name

end Matches

theorem simulates_evaluating (tame : subst.Tame) (plain : registry.Plain)
    (calls : Simulates subst registry call) : Simulates subst registry (evaluating call) := by
  intro context term typed
  induction typed with
  | var named known resolved isInstance _ => exact simulated_var named known resolved isInstance
  | bool provided value =>
    intro lowered images env env' lowers scopes
    obtain ⟨supply, rfl⟩ := lowers
    refine .ok ⟨?_, .bool value⟩
    rw [Term.ty, provided.under]
    exact .bool provided value
  | int provided range =>
    intro lowered images env env' lowers scopes
    obtain ⟨supply, rfl⟩ := lowers
    refine .ok ⟨?_, .int _⟩
    rw [Term.ty, provided.under]
    exact .int provided range
  | str provided bytes =>
    intro lowered images env env' lowers scopes
    obtain ⟨supply, rfl⟩ := lowers
    refine .ok ⟨?_, .str bytes⟩
    rw [Term.ty, provided.under]
    exact .str provided bytes
  | tuple _ ih =>
    intro lowered images env env' lowers scopes
    obtain ⟨elems', rfl, lowersElems⟩ := lowers.tuple_inv
    change Agree _ (evalWith _ env (.tuple _ _)) (evalWith _ env' (.tuple _ _))
    rw [evalWith, evalWith]
    refine (simulated_all ih lowersElems scopes).bind fun _ both => .ok ?_
    obtain ⟨typed, related⟩ := both
    refine ⟨?_, ?_⟩
    · rw [Term.ty, Ty.under, Ty.underAll_eq_map]
      exact Value.typed_tuple_iff.mpr typed
    · exact Value.lowers_tuple_iff.mpr related
  | constant declares empty _ =>
    intro lowered images env env' lowers scopes
    obtain ⟨supply, rfl⟩ := lowers
    refine .ok ⟨?_, .constant _⟩
    exact typed_constant declares empty
  | ctor declares nonempty _ _ fields ih =>
    intro lowered images env env' lowers scopes
    obtain ⟨arg', rfl, lowersArg⟩ := lowers.ctor_inv
    change Agree _ (evalWith _ env (.ctor _ _ _ _ _)) (evalWith _ env' (.ctor _ _ _ _ _))
    rw [evalWith, evalWith, evalOptionWith, evalOptionWith]
    have arg := ih lowersArg scopes
    rw [fields] at arg
    refine (arg.bind fun _ both => .ok ?_).bind fun _ holds => .ok holds
    obtain ⟨typed, related⟩ := both
    exact ⟨typed_applied plain declares nonempty typed, .ctor _ related⟩
  | lambda _ _ typed _ => exact simulated_lambda typed
  | app _ _ fits ihFunction ihArgument => exact simulated_app calls fits ihFunction ihArgument
  | @letIn context recursive definitions body _ _ types general _ ihValues ihBody =>
    cases recursive with
    | true =>
      intro lowered images env env' lowers scopes
      obtain ⟨definitions', body', rfl, -⟩ := lowers.letIn_inv
      change Agree _ (evalWith _ env (.letIn true _ _ _)) (evalWith _ env' (.letIn true _ _ _))
      rw [evalWith, evalWith]
      exact .error .unsupported
    | false => exact simulated_letIn ihValues types general ihBody
  | matchOn captures typed pats distinct _ _ results _ ihScrutinee ihBodies =>
    exact simulated_matchOn tame plain captures typed.resolved ihScrutinee pats distinct ihBodies
      results

theorem simulates_eval (tame : subst.Tame) (plain : registry.Plain) (depth : Nat) :
    Simulates subst registry (eval depth) := by
  induction depth with
  | zero =>
    refine simulates_evaluating tame plain fun {context term} _ => ?_
    intro lowered images env env' _ _
    exact .error .unfinished
  | succ depth ih => exact simulates_evaluating tame plain ih

end Term

end PolyCheck
