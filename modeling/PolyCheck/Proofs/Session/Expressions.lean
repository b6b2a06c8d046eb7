import PolyCheck.Proofs.Session.Groups
import PolyCheck.Proofs.Session.Lasting

/-! Every expression without annotations that is accepted becomes a term that is well typed in every
later state. -/
namespace PolyCheck.Session

open Run

variable {before middle after : Session} {types : List Ty} {claim : Claim} {term : Term}

section Matches

variable {final : Subst} {registry : Registry} {context : Context}

def ArmTyped (final : Subst) (registry : Registry) (context : Context) (scrutineeTy result : Ty)
    (arm : Arm) : Prop :=
  ∃ captures : Captures, Pat.Typed registry arm.pat (final.zonk scrutineeTy) captures ∧
    (captures.map (·.1)).Nodup ∧ (∀ capture ∈ captures, capture.1.Apart) ∧
    Term.Typed final registry (context.extend (Scheme.monos captures)) (arm.body.zonk final) ∧
    final.zonk result = final.zonk arm.body.ty

theorem typed_matchOn {scrutinee : Term} {arms : List Arm} {result : Ty}
    (typed : Term.Typed final registry context (scrutinee.zonk final))
    (each : ∀ arm ∈ arms, ArmTyped final registry context scrutinee.ty result arm)
    (resolved : final.Resolved (final.zonk result)) :
    Term.Typed final registry context ((Term.matchOn scrutinee arms result).zonk final) := by
  classical
  have exist : ∀ arm : Arm, ∃ captures : Captures, arm ∈ Term.zonkArms final arms →
      Pat.Typed registry arm.pat (scrutinee.zonk final).ty captures ∧
        (captures.map (·.1)).Nodup ∧ (∀ capture ∈ captures, capture.1.Apart) ∧
        Term.Typed final registry (context.extend (Scheme.monos captures)) arm.body ∧
        arm.body.ty = final.zonk result := by
    intro arm
    by_cases inside : arm ∈ Term.zonkArms final arms
    · have member := inside
      rw [Term.zonkArms_eq_map] at member
      obtain ⟨source, inArms, rfl⟩ := List.mem_map.mp member
      obtain ⟨captures, pat, distinct, named, body, equal⟩ := each source inArms
      refine ⟨captures, fun _ => ⟨?_, distinct, named, body, ?_⟩⟩
      · rwa [Term.ty_zonk]
      · rw [Term.ty_zonk, equal]
    · exact ⟨[], fun member => absurd member inside⟩
  choose captures holds using exist
  rw [Term.zonk]
  exact .matchOn captures typed (fun arm member => (holds arm member).1)
    (fun arm member => (holds arm member).2.1) (fun arm member => (holds arm member).2.2.1)
    (fun arm member => (holds arm member).2.2.2.1) (fun arm member => (holds arm member).2.2.2.2)
    resolved

/-- What checking the cases of a match gives, for types among those checked so far. -/
def YieldsArms (scrutineeTy result : Ty) (arms : Check (List Arm)) : Prop :=
  ∀ {before middle after : Session} {types : List Ty} {claim : Claim} {found : List Arm},
    before.Sound → Yields before middle types claim → scrutineeTy ∈ types → result ∈ types →
    arms middle = .ok found after →
    Yields before after types fun final registry context => claim final registry context ∧
      ∀ arm ∈ found, ArmTyped final registry context scrutineeTy result arm

theorem yields_armWith {written : Surface.Pattern} (bare : written.Bare) {body : Check Term}
    (here : ∀ {before after : Session} {term : Term}, before.Sound → body before = .ok term after →
      YieldsTerm before after term) (sound : before.Sound)
      (yields : Yields before middle types claim)
    {scrutineeTy result : Ty} (inTypes : scrutineeTy ∈ types) (inTypes' : result ∈ types)
    {span : Span}
    {arm : Arm} (run : Check.armWith scrutineeTy result written span body middle = .ok arm after) :
    Yields before after types fun final registry context => claim final registry context ∧
      ArmTyped final registry context scrutineeTy result arm := by
  obtain ⟨⟨⟨pat, patTy⟩, captures⟩, matched, pattern, rest⟩ := bind_eq_ok.mp run
  obtain ⟨⟨⟩, equal, unify, rest'⟩ := bind_eq_ok.mp rest
  obtain ⟨term, last, entered, finish⟩ := bind_eq_ok.mp rest'
  obtain ⟨rfl, rfl⟩ := pure_eq_ok.mp finish
  obtain ⟨_, ⟨rfl, written, distinct⟩, one⟩ := yields_pattern _ bare yields.advance.sound pattern
  have both := yields.seq one sound
  have unified := both.unify sound (both.covers (List.mem_append_left _ inTypes))
    (both.covers (List.mem_append_right _ List.mem_cons_self)) unify
  obtain ⟨inside, checked, against⟩ := inScope_against entered
  have opens := unified.opens_monos
    (fun capture member => List.mem_append_right _
      (List.mem_cons_of_mem _ (List.mem_map_of_mem member)))
    fun capture member => NameSupply.past_of_not_minted (written capture member)
  have whole := unified.against_inScope sound opens (here (opens.sound sound unified) checked)
    (unified.covers (List.mem_append_left _ inTypes')) against
  refine (whole.reorder (List.subset_append_left _ _)).imp
    fun {final registry context} _ ⟨⟨⟨holds, typed⟩, same⟩, bodyTyped, result⟩ => ⟨holds, ?_⟩
  refine ⟨_, same ▸ typed, ?_, fun capture member => ?_, ?_, result⟩
  · rw [names_resolvedCaptures]
    exact distinct List.nodup_nil
  · obtain ⟨source, inOwn, rfl⟩ := List.mem_map.mp member
    exact Name.apart_of_not_minted (written source inOwn)
  · rwa [← resolvedBindings_monos]

theorem Yields.reportCoverage (yields : Yields before middle types claim)
    {cases : List Surface.Case} {arms : List Arm} {ty : Ty} {span : Span} {value : Unit}
    (run : Check.reportCoverage cases arms ty span middle = .ok value after) :
    Yields before after types claim := by
  obtain ⟨-, reported⟩ := Check.ending_bind_eq_ok.mp run
  obtain ⟨-, rfl⟩ := EStateM.Result.ok.inj reported
  obtain ⟨pending, same⟩ :=
    Check.foldl_warn (Coverage.warnings middle.options middle.subst middle.registry
    ((arms.zip cases).map fun entry => (entry.1.pat, entry.2.span)) ty span) middle
  obtain ⟨sound, env, names, later, spares, registry⟩ := yields.advance
  obtain ⟨tame, envSound, coherent, past⟩ := sound
  change Yields before (List.foldl Session.warn middle _) types claim
  rw [same]
  refine ⟨⟨⟨tame, envSound, coherent, past⟩, env, names, later, spares, registry⟩, yields.plain,
    yields.avoids, fun outlook => yields.holds ?_⟩
  exact ⟨outlook.tame, outlook.later, outlook.hidden, outlook.quantified, outlook.registry,
    outlook.context⟩

theorem Outlook.add_param (outlook : Outlook before after types final registry context)
    {param : Name} (absent : after.env.lookup? param = none) {ty : Ty} (inTypes : ty ∈ types)
    (plain : ty.FirstOrder after.subst.size) :
    Outlook before after types final registry
      (context.extend [(param, .mono (final.zonk ty))]) where
  tame := outlook.tame
  later := outlook.later
  hidden v isHidden := by
    obtain ⟨spares, closed⟩ := outlook.hidden v isHidden
    refine ⟨spares, fun name scheme known inside => ?_⟩
    rcases Option.or_eq_some_iff.mp known with bound | ⟨-, outside⟩
    · obtain ⟨-, rfl⟩ : name = param ∧ Scheme.mono (final.zonk ty) = scheme := by
        by_cases same : name = param
        · simpa [same] using bound
        · simp [List.lookup, beq_false_of_ne same] at bound
      exact absurd inside (spares.avoids plain (isHidden.2.2 ty inTypes))
    · exact closed name scheme outside inside
  quantified := outlook.quantified
  registry := outlook.registry
  context {name scheme} found := by
    have different : name ≠ param := fun same => by simp [same, absent] at found
    rw [Context.extend, List.reverse_singleton]
    simp [List.lookup, beq_false_of_ne different, outlook.context found]

theorem yields_matchingLambda (sound : before.Sound) {paramTy result : Ty} {param : Name}
    (yields : Yields before middle [paramTy, result] claim) {next : Session}
    (mint : Check.mint "a" middle = .ok param next) {arms : List Arm}
    (typed : Yields before after [paramTy, result] fun final registry context =>
      ∀ arm ∈ arms, ArmTyped final registry context paramTy result arm) :
    YieldsTerm before after (Check.matchingLambda param paramTy arms result) := by
  obtain ⟨rfl, -, -⟩ := yields_mint yields.advance.sound mint
  have named : Name.Apart (middle.names.mint "a").1 :=
    NameSupply.apart_mint _ (by decide) (by decide)
  have absent : after.env.lookup? (middle.names.mint "a").1 = none := by
    rw [typed.advance.env]
    by_contra found
    obtain ⟨scheme, found⟩ := Option.ne_none_iff_exists'.mp found
    exact sound.names found middle.names.next yields.advance.names rfl
  have plain := typed.plain paramTy List.mem_cons_self
  have plain' := typed.plain result (List.mem_cons_of_mem _ List.mem_cons_self)
  have covers := typed.advance.sound.tame.covers_arrow (typed.covers List.mem_cons_self)
    (typed.covers (List.mem_cons_of_mem paramTy List.mem_cons_self))
  have whole : Yields before after [paramTy, result] fun final registry context =>
      Term.Typed final registry context
        ((Check.matchingLambda (middle.names.mint "a").1 paramTy arms result).zonk final) := by
    refine ⟨typed.advance, typed.plain, typed.avoids, fun {final registry context} outlook => ?_⟩
    have size := outlook.later.size_le
    have argument := @typed_param final registry context _ _ named (outlook.resolved plain)
    rw [← Term.zonk] at argument
    have body := typed_matchOn argument
      (typed.holds (outlook.add_param absent List.mem_cons_self plain)) (outlook.resolved plain')
    have lambda := Term.Typed.lambda named (outlook.resolved plain) body
    rw [Check.matchingLambda, Term.zonk,
      outlook.tame.zonk_arrow (plain.mono size) (plain'.mono size)]
    rwa [Term.ty_zonk] at lambda
  exact whole.narrow (List.forall_mem_singleton.mpr covers) fun _ holds => holds

end Matches

section Applications

theorem appliedCtor?_eq_ok {func : Surface.Expr} {known : Option CtorInfo}
    (run : Check.appliedCtor? func before = .ok known after) :
    after = before ∧ ∀ info ∈ known, ∃ name, before.registry.ctors.get? name = some info := by
  cases func with
  | ident span name =>
    obtain ⟨rfl, rfl⟩ := lookupCtor?_eq_ok run
    exact ⟨rfl, fun info found => ⟨name, found⟩⟩
  | _ =>
    obtain ⟨rfl, rfl⟩ := pure_eq_ok.mp run
    exact ⟨rfl, nofun⟩

theorem acceptsArgument_eq_ok {info : CtorInfo} {arg : Surface.Expr} {span : Span} {value : Unit}
    (run : Check.acceptsArgument info arg span before = .ok value after) :
    after = before ∧ info.arity ≠ 0 := by
  unfold Check.acceptsArgument at run
  split at run
  · simp [Check.fail, throw_apply] at run
  · rename_i accepted
    obtain ⟨-, rfl⟩ := pure_eq_ok.mp run
    exact ⟨rfl, fun empty => accepted (.inl empty)⟩

theorem yields_applied (sound : before.Sound) {info : CtorInfo}
    (registers : before.registry.Registers info) (nonempty : info.arity ≠ 0) {fields : List Ty}
    {result : Ty} (instance_ : Check.ctorInstance info before = .ok (fields, result) middle)
    {next : Session} {arg : Term} (here : YieldsTerm middle next arg) {span : Span}
    (run : Check.unify (Ty.tupled fields) arg.ty span next = .ok () after) :
    YieldsTerm before after (.ctor info.name info.template info.index (some arg) result) := by
  obtain ⟨dataCase, args, atNew, rfl, rfl, yields, covers⟩ :=
    yields_ctorInstance sound registers instance_
  have tupled := yields.advance.sound.tame.covers_tupled covers
  have whole := yields.against sound here tupled run
  have both := yields.seq here sound
  have covered := yields.covers_later tupled here.advance.sound here.advance.later
    (List.subset_append_left _ [arg.ty])
  have covered' :=
    both.covers (List.mem_append_right [Ty.nominal info.template args] List.mem_cons_self)
  have grows := here.advance.registry.trans (both.grows_unify covered covered' run)
  have later := here.advance.later.trans yields.advance.sound.tame
    (both.unify_later covered covered' run)
  have same := atNew.declares.fieldsAt_grow grows args
  refine whole.imp fun outlook ⟨_, typed, equal⟩ => ?_
  refine outlook.typed_applied whole.advance.sound ⟨atNew.declares.grow grows, atNew.name,
    atNew.arity⟩ (whole.plain _ List.mem_cons_self) nonempty (fun field member => ?_) typed ?_
  · rw [same] at member
    exact (covers field member).1.mono later.size_le
  · rw [same, equal]

theorem yields_application (sound : before.Sound) {func arg : Term} {opened result : Ty}
    (function : YieldsTerm before middle func) {middle' next next' : Session}
    {span : Span} (opening : Check.openFlexible func.ty span middle = .ok opened middle')
    (argument : YieldsTerm middle' next arg) (fresh : Check.freshVar next = .ok result next')
    (run : Check.unify opened (.arrow arg.ty result) span next' = .ok () after) :
    YieldsTerm before after (.app func arg result) := by
  obtain ⟨rfl, plain, same⟩ := openFlexible_firstOrder function.advance.sound
    (function.plain _ List.mem_cons_self) opening
  have new := yields_freshVar argument.advance.sound fresh
  have rest := argument.seq new function.advance.sound
  have both := function.seq rest sound
  have covers : middle'.subst.Covers [func.ty] opened :=
    ⟨plain, fun v inside => ⟨func.ty, List.mem_cons_self, same ▸ inside⟩⟩
  have covered := function.covers_later covers rest.advance.sound rest.advance.later
    (List.subset_append_left _ ([arg.ty] ++ [result]))
  have arrow := both.advance.sound.tame.covers_arrow
    (both.covers (by simp : arg.ty ∈ [func.ty] ++ ([arg.ty] ++ [result])))
    (both.covers (by simp : result ∈ [func.ty] ++ ([arg.ty] ++ [result])))
  have whole := both.unify sound covered arrow run
  refine (whole.reorder (by simp : [result] ⊆ [func.ty] ++ ([arg.ty] ++ [result]))).imp
    fun {final registry context} outlook ⟨⟨typed, typed', _⟩, equal⟩ => ?_
  have size := outlook.later.size_le
  rw [Term.zonk]
  refine .app typed typed' ?_
  have later := (rest.advance.later.trans function.advance.sound.tame
    (both.unify_later covered arrow run)).trans function.advance.sound.tame outlook.later
  have functionTy : final.zonk func.ty = final.zonk opened := by
    rw [← later.resolved (function.plain _ List.mem_cons_self), ← same, later.resolved plain]
  rw [Term.ty_zonk, Term.ty_zonk, functionTy, equal]
  exact outlook.tame.zonk_arrow ((whole.plain _ (by simp)).mono size)
    ((whole.plain _ (by simp)).mono size)

end Applications

section Functions

theorem plainParam?_eq_ok {written : Surface.Pattern} (bare : written.Bare) (sound : before.Sound)
    {known : Option Name} (run : Check.plainParam? written before = .ok known after) :
    (Yields before after [] fun _ _ _ => True) ∧
      ∀ param ∈ known, param.Apart ∧ after.names.Past "a" param := by
  have start := @Yields.refl before (fun _ _ _ => True) sound fun _ _ _ => trivial
  cases written with
  | wild span =>
    rw [Check.plainParam?, map_eq_pure_bind] at run
    obtain ⟨param, middle, mint, finish⟩ := bind_eq_ok.mp run
    obtain ⟨rfl, rfl⟩ := pure_eq_ok.mp finish
    obtain ⟨rfl, names, yields⟩ := yields_mint sound mint
    refine ⟨yields, fun param found => ?_⟩
    obtain rfl := Option.some.inj found
    refine ⟨NameSupply.apart_mint _ (by decide) (by decide), ?_⟩
    rw [names]
    exact NameSupply.past_mint _ (by decide)
  | bind span name =>
    unfold Surface.Pattern.Bare at bare
    obtain ⟨ctor, middle, look, rest⟩ := bind_eq_ok.mp run
    obtain ⟨rfl, -⟩ := lookupCtor?_eq_ok look
    cases ctor with
    | some info =>
      obtain ⟨rfl, rfl⟩ := pure_eq_ok.mp rest
      exact ⟨start, fun param found => absurd found (Option.not_mem_none param)⟩
    | none =>
      obtain ⟨rfl, rfl⟩ := pure_eq_ok.mp rest
      refine ⟨start, fun param found => ?_⟩
      obtain rfl := Option.some.inj found
      exact ⟨Name.apart_of_not_minted bare, NameSupply.past_of_not_minted bare⟩
  | _ =>
    obtain ⟨rfl, rfl⟩ := pure_eq_ok.mp run
    exact ⟨start, fun param found => absurd found (Option.not_mem_none param)⟩

theorem yields_lambda (sound : before.Sound) {paramTy result : Ty}
    (yields : Yields before middle [paramTy, result] claim) {param : Name} (named : param.Apart)
    (past : middle.names.Past "a" param) {body : Check Term}
    (here : ∀ {before after : Session} {term : Term}, before.Sound → body before = .ok term after →
      YieldsTerm before after term) {span : Span} {found : Term}
    (run : Check.inScope [(param, .mono paramTy)] (body >>= Check.against result span) middle =
      .ok found after) :
    YieldsTerm before after (.lambda param paramTy found (.arrow paramTy result)) := by
  have member : paramTy ∈ [paramTy, result] := List.mem_cons_self
  have member' : result ∈ [paramTy, result] := List.mem_cons_of_mem _ List.mem_cons_self
  obtain ⟨inside, checked, unify⟩ := inScope_against run
  have opens : MayEnter before middle [paramTy, result] (Scheme.monos [(param, paramTy)]) :=
    yields.opens_monos (List.forall_mem_singleton.mpr member) (List.forall_mem_singleton.mpr past)
  have whole := yields.against_inScope sound opens (here (opens.sound sound yields) checked)
    (yields.covers member') unify
  have tame := whole.advance.sound.tame
  refine whole.narrow (List.forall_mem_singleton.mpr
    (tame.covers_arrow (whole.covers member) (whole.covers member')))
    fun {final registry context} outlook ⟨_, typed, equal⟩ => ?_
  have plain := whole.plain paramTy member
  have size := outlook.later.size_le
  have lambda := Term.Typed.lambda named (outlook.resolved plain) typed
  rw [Term.ty_zonk, ← equal] at lambda
  rw [Term.zonk, outlook.tame.zonk_arrow (plain.mono size) ((whole.plain result member').mono size)]
  exact lambda

theorem yields_freshPair (sound : before.Sound) {first second : Ty}
    (run : Check.freshVar before = .ok first middle)
    (run' : Check.freshVar middle = .ok second after) :
    Yields before after [first, second] fun _ _ _ => True := by
  have new := yields_freshVar sound run
  exact (new.seq (yields_freshVar new.advance.sound run') sound).imp fun _ _ => trivial

theorem yields_casesLambda {cases : List Surface.Case} {span : Span}
    (each : ∀ {paramTy result : Ty},
      YieldsArms paramTy result (Check.inferCases paramTy result cases)) (sound : before.Sound)
    (run : (do
      let paramTy ← Check.freshVar
      let result ← Check.freshVar
      let param ← Check.mint "a"
      let arms ← Check.inferCases paramTy result cases
      Check.reportCoverage cases arms paramTy span
      pure (Check.matchingLambda param paramTy arms result) : Check Term) before = .ok term after) :
    YieldsTerm before after term := by
  obtain ⟨paramTy, middle, fresh, rest⟩ := bind_eq_ok.mp run
  obtain ⟨result, middle', fresh', rest'⟩ := bind_eq_ok.mp rest
  obtain ⟨param, next, mint, rest''⟩ := bind_eq_ok.mp rest'
  obtain ⟨arms, last, found, reported⟩ := bind_eq_ok.mp rest''
  obtain ⟨⟨⟩, last', report, finish⟩ := bind_eq_ok.mp reported
  obtain ⟨rfl, rfl⟩ := pure_eq_ok.mp finish
  have new := yields_freshPair sound fresh fresh'
  obtain ⟨-, -, minted⟩ := yields_mint new.advance.sound mint
  have typed := each sound (new.seq minted sound) (by simp) (by simp) found
  exact (yields_matchingLambda sound new mint (typed.imp fun _ holds => holds.2)).reportCoverage
    report

end Functions

section Expressions

def YieldsExpr (expr : Surface.Expr) : Prop :=
  ∀ {before after : Session} {term : Term}, before.Sound → Check.infer expr before =
  .ok term after → YieldsTerm before after term

theorem written_of_bareBindings : ∀ {bindings : List Surface.Binding},
    Surface.Expr.BareBindings bindings →
      (∀ binding ∈ bindings, binding.name.isMinted = false) ∧
        ∀ binding ∈ bindings, binding.type = none
  | [], _ => ⟨nofun, nofun⟩
  | ⟨_, _, _, _⟩ :: _, bare => by
    unfold Surface.Expr.BareBindings at bare
    obtain ⟨written, none, -, rest⟩ := bare
    obtain ⟨writtens, nones⟩ := written_of_bareBindings rest
    exact ⟨List.forall_mem_cons.mpr ⟨written, writtens⟩, List.forall_mem_cons.mpr ⟨none, nones⟩⟩

theorem yields_letIn (sound : before.Sound) {recursive : Bool} {definitions : List Definition}
    (group : YieldsGroup before middle recursive definitions) {body : Surface.Expr}
    (here : YieldsExpr body) {term : Term}
    (run : Check.inScope (definitions.map fun definition => (definition.name, definition.scheme))
      (Check.infer body) middle = .ok term after) :
    YieldsTerm before after (.letIn recursive definitions term term.ty) := by
  obtain ⟨opens, yields⟩ := group
  obtain ⟨inside, checked, rfl⟩ := inScope_eq_ok.mp run
  have inner := here (opens.sound sound yields) checked
  refine (yields.inScope sound opens inner).imp fun {final registry context} _ ⟨typed,
    bodyTyped⟩ => ?_
  have names : resolvedBindings final (Definition.schemes definitions) =
      Definition.schemes (Term.zonkDefinitions final definitions) := by
    rw [Term.zonkDefinitions_eq_map, resolvedBindings, Definition.schemes, Definition.schemes,
      List.map_map, List.map_map]
    rfl
  rw [names] at bodyTyped
  have whole := Term.Typed.letIn typed.named typed.values typed.types typed.general bodyTyped
  rw [Term.ty_zonk] at whole
  rw [Term.zonk]
  exact whole

theorem yields_tuple {terms : List Term}
    (yields : Yields before after (terms.map Term.ty) fun final registry context =>
      ∀ term ∈ terms, Term.Typed final registry context (term.zonk final)) :
    YieldsTerm before after (.tuple terms (.tuple (terms.map Term.ty))) := by
  have covers := yields.advance.sound.tame.covers_tuple fun ty member => yields.covers member
  refine yields.narrow (List.forall_mem_singleton.mpr covers) fun {final registry context}
    outlook typed => ?_
  have whole : Term.Typed final registry context
      (.tuple (terms.map (Term.zonk final))
        (.tuple ((terms.map (Term.zonk final)).map Term.ty))) := by
    refine .tuple fun term member => ?_
    obtain ⟨source, inTerms, rfl⟩ := List.mem_map.mp member
    exact typed source inTerms
  rw [Term.zonk, Term.zonkAll_eq_map, outlook.tame.zonk_tuple fun ty member =>
    (yields.plain ty member).mono outlook.later.size_le]
  simpa [Function.comp_def] using whole

theorem yields_matchOn (sound : before.Sound) {scrutinee : Term} {result : Ty}
    {arms : Check (List Arm)}
    (here : YieldsTerm before middle scrutinee) (each : YieldsArms scrutinee.ty result arms)
    {next : Session} (fresh : Check.freshVar middle = .ok result next) {found : List Arm}
    (run : arms next = .ok found after) :
    YieldsTerm before after (.matchOn scrutinee found result) := by
  have both := here.seq (yields_freshVar here.advance.sound fresh) sound
  have whole := each sound both (by simp) (by simp) run
  refine (whole.reorder (by simp [Term.ty])).imp fun outlook ⟨⟨typed, _⟩, cases⟩ => ?_
  exact typed_matchOn typed cases (outlook.resolved (whole.plain result (by simp)))

mutual

theorem yields_infer : ∀ expr : Surface.Expr, expr.Bare → YieldsExpr expr
  | .lit span value, _ => by
    intro sound run
    unfold Check.infer at run
    obtain ⟨⟨constant, ty⟩, middle, literal, finish⟩ := bind_eq_ok.mp run
    obtain ⟨rfl, rfl⟩ := pure_eq_ok.mp finish
    exact yields_lit sound literal
  | .ident span name, bare => by
    intro sound run
    unfold Check.infer at run
    unfold Surface.Expr.Bare at bare
    exact yields_identifier sound bare run
  | .app span func arg, bare => by
    intro sound run
    unfold Check.infer at run
    unfold Surface.Expr.Bare at bare
    obtain ⟨known, middle, look, rest⟩ := bind_eq_ok.mp run
    obtain ⟨rfl, registered⟩ := appliedCtor?_eq_ok look
    cases known with
    | some info =>
      obtain ⟨name, found⟩ := registered info rfl
      obtain ⟨⟨⟩, middle', accepts, rest'⟩ := bind_eq_ok.mp rest
      obtain ⟨rfl, nonempty⟩ := acceptsArgument_eq_ok accepts
      obtain ⟨⟨fields, result⟩, next, instance_, argument⟩ := bind_eq_ok.mp rest'
      obtain ⟨term, next', inferred, against⟩ := bind_eq_ok.mp argument
      obtain ⟨term', last, checked, finish⟩ := bind_eq_ok.mp against
      obtain ⟨rfl, rfl⟩ := pure_eq_ok.mp finish
      obtain ⟨⟨⟩, last', unify, finish'⟩ := bind_eq_ok.mp checked
      obtain ⟨rfl, rfl⟩ := pure_eq_ok.mp finish'
      obtain ⟨-, -, -, -, -, instanceYields, -⟩ :=
        yields_ctorInstance sound (sound.registry.ctor found).2 instance_
      exact yields_applied sound (sound.registry.ctor found).2 nonempty instance_
        (yields_infer arg bare.2 instanceYields.advance.sound inferred) unify
    | none =>
      obtain ⟨function, middle', inferred, rest'⟩ := bind_eq_ok.mp rest
      have functionYields := yields_infer func bare.1 sound inferred
      obtain ⟨opened, next, opening, rest''⟩ := bind_eq_ok.mp rest'
      obtain ⟨argument, next', inferred', unified⟩ := bind_eq_ok.mp rest''
      obtain ⟨result, last, fresh, unified'⟩ := bind_eq_ok.mp unified
      obtain ⟨⟨⟩, last', unify, finish⟩ := bind_eq_ok.mp unified'
      obtain ⟨rfl, rfl⟩ := pure_eq_ok.mp finish
      obtain ⟨same, -⟩ := openFlexible_firstOrder functionYields.advance.sound
        (functionYields.plain _ List.mem_cons_self) opening
      have argumentYields := yields_infer arg bare.2 (same ▸ functionYields.advance.sound) inferred'
      exact yields_application sound functionYields opening argumentYields fresh unify
  | .tuple _ [inner], bare => by
    intro sound run
    unfold Check.infer at run
    unfold Surface.Expr.Bare Surface.Expr.BareAll at bare
    exact yields_infer inner bare.1 sound run
  | .tuple _ [], bare => by
    intro sound run
    unfold Check.infer at run
    unfold Surface.Expr.Bare at bare
    obtain ⟨terms, middle, inferred, finish⟩ := bind_eq_ok.mp run
    obtain ⟨rfl, rfl⟩ := pure_eq_ok.mp finish
    exact yields_tuple (yields_inferAll [] bare sound inferred)
  | .tuple _ (first :: second :: rest), bare => by
    intro sound run
    unfold Check.infer at run
    unfold Surface.Expr.Bare at bare
    obtain ⟨terms, middle, inferred, finish⟩ := bind_eq_ok.mp run
    obtain ⟨rfl, rfl⟩ := pure_eq_ok.mp finish
    exact yields_tuple (yields_inferAll (first :: second :: rest) bare sound inferred)
  | .lambda span [⟨caseSpan, written, body⟩], bare => by
    intro sound run
    unfold Check.infer at run
    unfold Surface.Expr.Bare Surface.Expr.BareCases at bare
    obtain ⟨paramTy, middle, fresh, rest⟩ := bind_eq_ok.mp run
    obtain ⟨result, middle', fresh', rest'⟩ := bind_eq_ok.mp rest
    obtain ⟨known, next, plain, rest''⟩ := bind_eq_ok.mp rest'
    have new := yields_freshPair sound fresh fresh'
    obtain ⟨plainYields, names⟩ := plainParam?_eq_ok bare.1 new.advance.sound plain
    have both := (new.seq plainYields sound).imp fun _ _ => trivial
    cases known with
    | some param =>
      obtain ⟨named, past⟩ := names param rfl
      obtain ⟨found, last, entered, finish⟩ := bind_eq_ok.mp rest''
      obtain ⟨rfl, rfl⟩ := pure_eq_ok.mp finish
      exact yields_lambda sound both named past (yields_infer body bare.2.1) entered
    | none =>
      obtain ⟨param, next', mint, rest'''⟩ := bind_eq_ok.mp rest''
      obtain ⟨arm, last, found, reported⟩ := bind_eq_ok.mp rest'''
      obtain ⟨⟨⟩, last', report, finish⟩ := bind_eq_ok.mp reported
      obtain ⟨rfl, rfl⟩ := pure_eq_ok.mp finish
      obtain ⟨-, -, minted⟩ := yields_mint both.advance.sound mint
      have typed := yields_armWith bare.1 (yields_infer body bare.2.1) sound (both.seq minted sound)
        (by simp) (by simp) found
      refine (yields_matchingLambda sound both mint (typed.imp fun _ ⟨_, one⟩ => ?_)).reportCoverage
        report
      exact List.forall_mem_singleton.mpr one
  | .lambda span [], bare => by
    intro sound run
    unfold Check.infer at run
    unfold Surface.Expr.Bare at bare
    exact yields_casesLambda (yields_inferCases [] bare) sound run
  | .lambda span (⟨caseSpan, written, body⟩ :: second :: rest), bare => by
    intro sound run
    unfold Check.infer at run
    unfold Surface.Expr.Bare at bare
    exact yields_casesLambda (yields_inferCases (⟨caseSpan, written, body⟩ :: second :: rest) bare)
      sound run
  | .letIn _ recursive bindings body, bare => by
    intro sound run
    unfold Check.infer at run
    unfold Surface.Expr.Bare at bare
    obtain ⟨written, none⟩ := written_of_bareBindings bare.1
    obtain ⟨definitions, middle, group, rest⟩ := bind_eq_ok.mp run
    obtain ⟨term, last, checked, finish⟩ := bind_eq_ok.mp rest
    obtain ⟨rfl, rfl⟩ := pure_eq_ok.mp finish
    exact yields_letIn sound
      (yields_groupWith (yields_inferValues bindings bare.1) sound written none group)
      (yields_infer body bare.2) checked
  | .matchOn span scrutinee cases, bare => by
    intro sound run
    unfold Check.infer at run
    unfold Surface.Expr.Bare at bare
    obtain ⟨term, middle, inferred, rest⟩ := bind_eq_ok.mp run
    obtain ⟨result, next, fresh, rest'⟩ := bind_eq_ok.mp rest
    obtain ⟨arms, last, found, rest''⟩ := bind_eq_ok.mp rest'
    obtain ⟨⟨⟩, last', report, finish⟩ := bind_eq_ok.mp rest''
    obtain ⟨rfl, rfl⟩ := pure_eq_ok.mp finish
    exact (yields_matchOn sound (yields_infer scrutinee bare.1 sound inferred)
      (yields_inferCases cases bare.2) fresh found).reportCoverage report
  | .ascribed _ _ _, bare => by
    unfold Surface.Expr.Bare at bare
    exact bare.elim

theorem yields_inferAll : ∀ exprs : List Surface.Expr, Surface.Expr.BareAll exprs →
    ∀ {before after : Session} {terms : List Term}, before.Sound →
      Check.inferAll exprs before = .ok terms after →
      Yields before after (terms.map Term.ty) fun final registry context =>
        ∀ term ∈ terms, Term.Typed final registry context (term.zonk final)
  | [], _, _, _, _, sound, run => by
    unfold Check.inferAll at run
    obtain ⟨rfl, rfl⟩ := pure_eq_ok.mp run
    exact .refl sound fun _ _ _ => nofun
  | expr :: rest, bare, _, _, _, sound, run => by
    unfold Check.inferAll at run
    unfold Surface.Expr.BareAll at bare
    obtain ⟨first, middle, inferred, others⟩ := bind_eq_ok.mp run
    obtain ⟨terms, last, inferred', finish⟩ := bind_eq_ok.mp others
    obtain ⟨rfl, rfl⟩ := pure_eq_ok.mp finish
    have here := yields_infer expr bare.1 sound inferred
    have there := yields_inferAll rest bare.2 here.advance.sound inferred'
    exact (here.seq there sound).imp fun _ ⟨typed, each⟩ => List.forall_mem_cons.mpr ⟨typed, each⟩

theorem yields_inferCases : ∀ cases : List Surface.Case, Surface.Expr.BareCases cases →
    ∀ {scrutineeTy result : Ty},
      YieldsArms scrutineeTy result (Check.inferCases scrutineeTy result cases)
  | [], _, _, _ => by
    intro sound yields _ _ run
    unfold Check.inferCases at run
    obtain ⟨rfl, rfl⟩ := pure_eq_ok.mp run
    exact yields.imp fun _ holds => ⟨holds, nofun⟩
  | ⟨_, written, body⟩ :: rest, bare, _, _ => by
    intro sound yields inTypes inTypes' run
    unfold Check.inferCases at run
    unfold Surface.Expr.BareCases at bare
    obtain ⟨first, middle, here, others⟩ := bind_eq_ok.mp run
    obtain ⟨arms, last, there, finish⟩ := bind_eq_ok.mp others
    obtain ⟨rfl, rfl⟩ := pure_eq_ok.mp finish
    have one := yields_armWith bare.1 (yields_infer body bare.2.1) sound yields inTypes
      inTypes' here
    exact (yields_inferCases rest bare.2.2 sound one inTypes inTypes' there).imp
      fun _ ⟨⟨holds, typed⟩, each⟩ => ⟨holds, List.forall_mem_cons.mpr ⟨typed, each⟩⟩

theorem yields_inferValues : ∀ bindings : List Surface.Binding, Surface.Expr.BareBindings bindings →
    YieldsValues bindings fun types => Check.inferValues types bindings
  | [], _ => by
    intro sound yields _ length run
    obtain rfl := List.eq_nil_of_length_eq_zero length
    unfold Check.inferValues at run
    obtain ⟨rfl, rfl⟩ := pure_eq_ok.mp run
    exact ⟨rfl, yields.imp fun _ holds => ⟨holds, nofun⟩⟩
  | ⟨_, _, _, value⟩ :: rest, bare => by
    intro sound yields inTypes length run
    obtain ⟨ty, types, rfl⟩ := List.exists_cons_of_length_eq_add_one length
    unfold Check.inferValues at run
    unfold Surface.Expr.BareBindings at bare
    obtain ⟨inType, inTypes⟩ := List.forall_mem_cons.mp inTypes
    obtain ⟨first, middle, inferred, others⟩ := bind_eq_ok.mp run
    obtain ⟨first', next, checked, others'⟩ := bind_eq_ok.mp others
    obtain ⟨terms, last, there, finish⟩ := bind_eq_ok.mp others'
    obtain ⟨rfl, rfl⟩ := pure_eq_ok.mp finish
    obtain ⟨⟨⟩, next', unify, finish'⟩ := bind_eq_ok.mp checked
    obtain ⟨rfl, rfl⟩ := pure_eq_ok.mp finish'
    have here := yields_infer value bare.2.2.1 yields.advance.sound inferred
    have one := yields.against sound here (yields.covers inType) unify
    obtain ⟨length', each⟩ := yields_inferValues rest bare.2.2.2 sound one inTypes
      (Nat.succ.inj length) there
    refine ⟨congrArg (· + 1) length', each.imp fun _ ⟨⟨holds, typed⟩, others⟩ => ⟨holds, ?_⟩⟩
    exact List.forall_mem_cons.mpr ⟨typed, others⟩

end

end Expressions

end PolyCheck.Session
