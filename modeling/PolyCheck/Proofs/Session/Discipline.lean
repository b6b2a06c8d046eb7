import PolyCheck.Proofs.Reaches
import PolyCheck.Proofs.Session.Lasting
import PolyCheck.Proofs.Session.Scope
import PolyCheck.Proofs.Surface
import PolyCheck.Proofs.Term.Everywhere

/-! Inference under a discipline of types. A discipline says which types may be compared, which
schemes may be in scope and which constructors may be used, and that the elementary checks keep to
it. Then every pattern and every expression keeps to it as well, with all the types of its term, by
recursion over what is written. -/
namespace PolyCheck

open Run Check

/-- Types, schemes and constructors that are in order in a world, and an invariant of sessions under
which the elementary checks lead to such types only. Where failures count, failing checks keep the
invariant too. -/
structure Discipline (ω : Type) [Preorder ω] where
  failures : Prop
  inv : Env → ω → Session → Prop
  owns : ω → Ty → Prop
  binds : ω → Scheme → Prop
  knows : ω → CtorInfo → Prop
  /-- Types that may be written. -/
  allowed : Surface.TypeExpr → Prop
  lasts_owns : Lasts owns
  lasts_binds : Lasts binds
  lasts_knows : Lasts knows
  owns_arrow {world param result} (fst : owns world param) (snd : owns world result) :
    owns world (.arrow param result)
  owns_tuple {world elems} (each : ∀ ty ∈ elems, owns world ty) : owns world (.tuple elems)
  binds_mono {world ty} (own : owns world ty) : binds world (.mono ty)
  env_eq {env world session} (here : inv env world session) : session.env = env
  binds_of_mem {env world session} (here : inv env world session) {scheme}
    (member : scheme ∈ session.env.schemes) : binds world scheme
  knows_of_get? {env world session} (here : inv env world session) {name info}
    (known : session.registry.ctors.get? name = some info) : knows world info
  owns_shallow {env world session ty} (here : inv env world session) (own : owns world ty) :
    owns world (session.subst.shallow ty)
  binds_generalize {env world session ty} (here : inv env world session) (own : owns world ty)
    (fixed : List TyVar) : binds world (.generalize session.subst fixed ty)
  /-- Findings and minted names do not matter. -/
  quiet {env world session} (here : inv env world session) (names : NameSupply)
    (pending : List Diagnostic) : inv env world { session with names, pending }
  enter {env world session} (here : inv env world session) {bindings}
    (each : ∀ binding ∈ bindings, binds world binding.2) :
    inv (env.enter bindings) world { session with env := env.enter bindings }
  leave {env world next session inside bindings} (here : inv env world session)
    (grown : world ≤ next) (there : inv (env.enter bindings) next inside) :
    inv env next { inside with env := inside.env.pop.2 }
  freshVar {env world} : Arrives failures (inv env) world owns freshVar
  unify {env world expected found} (own : owns world expected) (own' : owns world found) (span) :
    Arrives failures (inv env) world unsaid (unify expected found span)
  openFlexible {env world ty span} (own : owns world ty) :
    Arrives failures (inv env) world owns (openFlexible ty span)
  openRigid {env world vars body span} (own : owns world (.quantified vars body)) :
    Arrives failures (inv env) world (fun later opened => owns later opened.2)
      (openRigid vars body span)
  instantiate {env world scheme} (bound : binds world scheme) :
    Arrives failures (inv env) world owns (onSubst scheme.instantiate)
  literal {env world} (value : Literal) (span : Span) :
    Arrives failures (inv env) world (fun later found => owns later found.2) (literal value span)
  ctorInstance {env world info} (known : knows world info) :
    Arrives failures (inv env) world (fun later found => (∀ ty ∈ found.1, owns later ty) ∧
      owns later found.2) (ctorInstance info)
  writtenType {env world written} (allows : allowed written) :
    Arrives failures (inv env) world owns (writtenType written)

theorem Check.inScope_apply {α : Type} (bindings : List (Name × Scheme)) (body : Check α)
    (session : Session) : inScope bindings body session =
      match body { session with env := session.env.enter bindings } with
      | .ok result after => .ok result { after with env := after.env.pop.2 }
      | .error error after => .error error { after with env := after.env.pop.2 } := rfl

namespace Discipline

variable {ω : Type} [Preorder ω] (rules : Discipline ω) {env : Env} {world later : ω} {ty : Ty}
  {captures shared : Captures} {α : Type} {post : ω → α → Prop}

abbrev Checks (env : Env) (world : ω) (post : ω → α → Prop) (check : Check α) : Prop :=
  Arrives rules.failures (rules.inv env) world post check

def Holds (world : ω) (captures : Captures) : Prop :=
  ∀ capture ∈ captures, rules.owns world capture.2

def Types (world : ω) (term : Term) : Prop :=
  term.Everywhere (rules.owns world) (rules.binds world)

def Defines (world : ω) (definition : Definition) : Prop :=
  rules.binds world definition.scheme ∧ rules.Types world definition.value

theorem holds_nil : rules.Holds world [] := nofun

theorem lasts_holds : Lasts rules.Holds :=
  fun grown holds capture member => rules.lasts_owns grown (holds capture member)

theorem lasts_types : Lasts rules.Types :=
  fun grown types => types.imp (fun _ => rules.lasts_owns grown) fun _ => rules.lasts_binds grown

theorem lasts_defines : Lasts rules.Defines :=
  fun grown defines => ⟨rules.lasts_binds grown defines.1, rules.lasts_types grown defines.2⟩

theorem owns_all {types : List Ty} (grown : world ≤ later)
    (each : ∀ ty ∈ types, rules.owns world ty) : ∀ ty ∈ types, rules.owns later ty :=
  fun ty member => rules.lasts_owns grown (each ty member)

theorem owns_tupled {types : List Ty} (each : ∀ ty ∈ types, rules.owns world ty) :
    rules.owns world (.tupled types) := by
  unfold Ty.tupled
  split
  · exact each _ (List.mem_singleton_self _)
  · exact rules.owns_tuple each

theorem binds_monos (holds : rules.Holds world captures) :
    ∀ binding ∈ captures.map (fun (name, ty) => (name, Scheme.mono ty)),
      rules.binds world binding.2 :=
  List.forall_mem_map.mpr fun capture member => rules.binds_mono (holds capture member)

section Basic

theorem checks_fail (cause : ErrorCause) (span : Span) : rules.Checks env world post
    (fail cause span) :=
  .throw _

theorem checks_mint (stem : String) : rules.Checks env world unsaid (mint stem) :=
  .modifyGet fun here => ⟨world, le_rfl, rules.quiet here _ _, trivial⟩

theorem checks_lookupCtor? (name : Name) :
    rules.Checks env world (fun later found => ∀ info ∈ found, rules.knows later info)
    (lookupCtor? name) :=
  .get fun _ here => .pure fun _ known => rules.knows_of_get? here known

theorem checks_against {expected : Ty} {span : Span} {term : Term} (own : rules.owns world expected)
    (types : rules.Types world term) : rules.Checks env world rules.Types
    (against expected span term) :=
  (rules.unify own types.ty span).bind fun grown _ => .pure (rules.lasts_types grown types)

theorem checks_inScope {bindings : List (Name × Scheme)} {body : Check α}
    (each : ∀ binding ∈ bindings, rules.binds world binding.2)
    (checks : rules.Checks (env.enter bindings) world post body) :
    rules.Checks env world post (inScope bindings body) := by
  intro session here
  have same := rules.env_eq here
  subst same
  have arrived := checks _ (rules.enter here each)
  rw [inScope_apply]
  cases result : body { session with env := session.env.enter bindings } with
  | ok value after =>
    rw [result] at arrived
    obtain ⟨later, grown, there, holds⟩ := arrived
    exact ⟨later, grown, rules.leave here grown there, holds⟩
  | error error after =>
    rw [result] at arrived
    intro count
    obtain ⟨later, grown, there⟩ := arrived count
    exact ⟨later, grown, rules.leave here grown there⟩

theorem checks_noEscape (rigid fixed : List TyVar) (span : Span) :
    rules.Checks env world unsaid (noEscape rigid fixed span) := by
  unfold noEscape
  split
  · exact .get fun _ _ => rules.checks_fail _ _
  · exact .pure trivial

theorem checks_reportCoverage (cases : List Surface.Case) (arms : List Arm) (ty : Ty)
    (span : Span) : rules.Checks env world unsaid (reportCoverage cases arms ty span) := by
  refine .ensure (.modifyGet fun {session} here => ?_)
  obtain ⟨pending, same⟩ := foldl_warn (Coverage.warnings session.options session.subst
    session.registry ((arms.zip cases).map fun entry => (entry.1.pat, entry.2.span)) ty
      span) session
  refine ⟨world, le_rfl, ?_, trivial⟩
  simp only [same]
  exact rules.quiet here session.names pending

end Basic

section Pattern

theorem checks_addCapture (own : rules.owns world ty) (holds : rules.Holds world captures)
    (name : Name) (span : Span) :
    rules.Checks env world (fun later result => rules.Holds later result.2)
    (addCapture name ty span captures) := by
  refine .state_own ?_
  split
  · exact .state_throw _
  · exact .pure (List.forall_mem_append.mpr ⟨holds, List.forall_mem_singleton.mpr own⟩)

theorem checks_agree (holds : rules.Holds world shared) (holds' : rules.Holds world captures)
    (span : Span) : rules.Checks env world unsaid (agree shared captures span) := by
  unfold agree
  split
  · exact rules.checks_fail _ _
  · refine .forM (fun later capture => rules.owns later capture.2 ∧ rules.Holds later shared)
      (fun grown both => ⟨rules.lasts_owns grown both.1, rules.lasts_holds grown both.2⟩)
      (fun capture member => ⟨holds' capture member, holds⟩) fun {later capture} _ both => ?_
    obtain ⟨name, ty⟩ := capture
    dsimp only
    cases found : shared.lookup name with
    | none => exact .pure trivial
    | some sharedTy =>
      obtain ⟨before, rest, entries, -⟩ := List.lookup_eq_some_iff.mp found
      exact rules.unify (both.2 (name, sharedTy) (by simp [entries])) both.1 span

theorem checks_wildFields (span : Span) {fields : List Ty}
    (each : ∀ ty ∈ fields, rules.owns world ty) :
    rules.Checks env world unsaid (wildFields span fields) := by
  induction fields generalizing world with
  | nil => exact .pure trivial
  | cons field fields ih =>
    obtain ⟨own, others⟩ := List.forall_mem_cons.mp each
    refine rules.freshVar.bind fun grown fresh => ?_
    refine (rules.unify (rules.lasts_owns grown own) fresh span).bind fun grown' _ => ?_
    exact (ih (rules.owns_all (grown.trans grown') others)).bind fun _ _ => .pure trivial

theorem checks_ctorPattern (name : Name) (span : Span) :
    rules.Checks env world
      (fun later found => (∀ ty ∈ found.2.1, rules.owns later ty) ∧ rules.owns later found.2.2)
      (ctorPattern name span) := by
  refine (rules.checks_lookupCtor? name).bind fun {_ found} _ knows => ?_
  cases found with
  | none => exact rules.checks_fail _ _
  | some info => exact (rules.ctorInstance (knows info rfl)).bind fun _ found => .pure found

theorem checks_expectFields (name : Name) (expected found : Nat) (span : Span) :
    rules.Checks env world unsaid (expectFields name expected found span) := by
  unfold expectFields
  split
  · exact .pure trivial
  · exact rules.checks_fail _ _

/-- A pattern and what it has captured so far have types in order. -/
def Matches (world : ω) (found : (Pat × Ty) × Captures) : Prop :=
  rules.owns world found.1.2 ∧ rules.Holds world found.2

mutual

theorem checks_pattern : ∀ (written : Surface.Pattern) {world : ω} {captures : Captures},
    (∀ type ∈ written.annotations, rules.allowed type) → rules.Holds world captures →
    rules.Checks env world rules.Matches (pattern written captures)
  | .wild _, _, _, _, holds => by
    unfold pattern
    exact .state_lift rules.freshVar fun grown own =>
      .state_pure ⟨own, rules.lasts_holds grown holds⟩
  | .lit span value, _, _, _, holds => by
    unfold pattern
    exact .state_lift (rules.literal value span)
      fun grown own => .state_pure ⟨own, rules.lasts_holds grown holds⟩
  | .bind span name, _, _, _, holds => by
    unfold pattern
    refine .state_lift (rules.checks_lookupCtor? name) fun {_ known} grown _ => ?_
    have holds := rules.lasts_holds grown holds
    cases known with
    | some _ =>
      refine .state_lift (rules.checks_ctorPattern name span) fun grown' found => ?_
      refine .state_lift (rules.checks_expectFields _ _ _ _) fun further _ => .state_pure ?_
      exact ⟨rules.lasts_owns further found.2, rules.lasts_holds (grown'.trans further) holds⟩
    | none =>
      refine .state_lift rules.freshVar fun grown' own => ?_
      refine .state_bind (rules.checks_addCapture own (rules.lasts_holds grown' holds) _ _)
        fun further captured => ?_
      exact .state_pure ⟨rules.lasts_owns further own, captured⟩
  | .tuple _ [inner], _, _, allowed, holds => by
    unfold pattern
    unfold Surface.Pattern.annotations Surface.Pattern.annotationsAll at allowed
    exact checks_pattern inner (List.forall_mem_append.mp allowed).1 holds
  | .tuple _ [], _, _, allowed, holds => by
    unfold pattern
    unfold Surface.Pattern.annotations at allowed
    refine .state_bind (checks_elementPatterns [] allowed holds) fun _ found => .state_pure ?_
    exact ⟨rules.owns_tuple (List.forall_mem_map.mpr found.1), found.2⟩
  | .tuple _ (first :: second :: rest), _, _, allowed, holds => by
    unfold pattern
    unfold Surface.Pattern.annotations at allowed
    refine .state_bind (checks_elementPatterns (first :: second :: rest) allowed holds)
      fun _ found => .state_pure ?_
    exact ⟨rules.owns_tuple (List.forall_mem_map.mpr found.1), found.2⟩
  | .ctor span name args, _, _, allowed, holds => by
    unfold pattern
    unfold Surface.Pattern.annotations at allowed
    refine .state_lift (rules.checks_ctorPattern name span) fun {_ found} grown inOrder => ?_
    obtain ⟨info, fields, result⟩ := found
    obtain ⟨each, own⟩ := inOrder
    have holds := rules.lasts_holds grown holds
    dsimp only
    split
    · split
      · unfold Surface.Pattern.annotationsAll Surface.Pattern.annotations at allowed
        exact .state_bind
          (checks_fieldPatterns _ _ (List.forall_mem_append.mp allowed).1 each holds)
          fun grown' captured => .state_pure ⟨rules.lasts_owns grown' own, captured⟩
      · refine .state_lift (rules.checks_expectFields _ _ _ _) fun grown' _ => ?_
        have each := rules.owns_all grown' each
        exact .state_bind (checks_fieldPatterns _ _ allowed each (rules.lasts_holds grown' holds))
          fun further captured =>
            .state_pure ⟨rules.lasts_owns (grown'.trans further) own, captured⟩
    · split
      · exact .state_lift (rules.checks_wildFields _ each) fun grown' _ =>
          .state_pure ⟨rules.lasts_owns grown' own, rules.lasts_holds grown' holds⟩
      · refine .state_lift (rules.checks_expectFields _ _ _ _) fun grown' _ => ?_
        refine .state_lift (rules.checks_wildFields _ (rules.owns_all grown' each)) fun further _ =>
          .state_pure ?_
        have later := grown'.trans further
        exact ⟨rules.lasts_owns later own, rules.lasts_holds later holds⟩
    · refine .state_lift (rules.checks_expectFields _ _ _ _) fun grown' _ => ?_
      have each := rules.owns_all grown' each
      exact .state_bind (checks_fieldPatterns _ _ allowed each (rules.lasts_holds grown' holds))
        fun further captured => .state_pure ⟨rules.lasts_owns (grown'.trans further) own, captured⟩
  | .ascribed span inner type, _, _, allowed, holds => by
    unfold pattern
    unfold Surface.Pattern.annotations at allowed
    obtain ⟨within, allows⟩ := List.forall_mem_append.mp allowed
    refine .state_bind (checks_pattern inner within holds) fun _ found => ?_
    refine .state_lift (rules.writtenType (List.forall_mem_singleton.mp allows)) fun grown
      expected => ?_
    refine .state_lift (rules.unify expected (rules.lasts_owns grown found.1) _) fun grown' _ =>
      .state_pure ?_
    exact ⟨rules.lasts_owns grown' expected, rules.lasts_holds (grown.trans grown') found.2⟩
  | .oneOf _ [], _, _, _, holds => by
    unfold pattern
    exact .state_lift rules.freshVar fun grown own =>
      .state_pure ⟨own, rules.lasts_holds grown holds⟩
  | .oneOf span (first :: rest), _, _, allowed, holds => by
    unfold pattern
    unfold Surface.Pattern.annotations Surface.Pattern.annotationsAll at allowed
    obtain ⟨allowed, others⟩ := List.forall_mem_append.mp allowed
    refine .state_lift (checks_pattern first allowed rules.holds_nil) fun {_ found} grown
      inOrder => ?_
    obtain ⟨⟨pat, ty⟩, shared⟩ := found
    obtain ⟨own, captured⟩ := inOrder
    refine .state_lift (checks_alternativePatterns rest others own captured) fun grown' _ => ?_
    refine .state_bind
      (.state_forM (fun later (capture : Name × Ty) => rules.owns later capture.2) rules.Holds
      (fun grown own => rules.lasts_owns grown own) (rules.lasts_holds grown' captured)
      (rules.lasts_holds (grown.trans grown') holds)
      fun {_ capture _} _ own holds => ?_) fun further added => ?_
    · obtain ⟨name, captureTy⟩ := capture
      exact rules.checks_addCapture own holds name span
    · have own := rules.lasts_owns (grown'.trans further) own
      split
      · exact .state_pure ⟨own, added⟩
      · exact .state_pure ⟨own, added⟩
termination_by written => sizeOf written

theorem checks_elementPatterns : ∀ (written : List Surface.Pattern) {world : ω}
    {captures : Captures},
    (∀ type ∈ Surface.Pattern.annotationsAll written, rules.allowed type) →
      rules.Holds world captures →
    rules.Checks env world
      (fun later found => (∀ element ∈ found.1, rules.owns later element.2) ∧
        rules.Holds later found.2)
      (elementPatterns written captures)
  | [], _, _, _, holds => by
    unfold elementPatterns
    exact .state_pure ⟨nofun, holds⟩
  | first :: rest, _, _, allowed, holds => by
    unfold elementPatterns
    unfold Surface.Pattern.annotationsAll at allowed
    obtain ⟨allowed, others⟩ := List.forall_mem_append.mp allowed
    refine .state_bind (checks_pattern first allowed holds) fun _ found => ?_
    refine .state_bind (checks_elementPatterns rest others found.2) fun grown others =>
      .state_pure ?_
    exact ⟨List.forall_mem_cons.mpr ⟨rules.lasts_owns grown found.1, others.1⟩, others.2⟩
termination_by written => sizeOf written

theorem checks_fieldPatterns : ∀ (written : List Surface.Pattern) (fields : List Ty) {world : ω}
    {captures : Captures}, (∀ type ∈ Surface.Pattern.annotationsAll written, rules.allowed type) →
    (∀ ty ∈ fields, rules.owns world ty) → rules.Holds world captures →
    rules.Checks env world (fun later found => rules.Holds later found.2)
      (fieldPatterns written fields captures)
  | [], _, _, _, _, _, holds => by
    unfold fieldPatterns
    exact .state_pure holds
  | _ :: _, [], _, _, _, _, holds => by
    unfold fieldPatterns
    exact .state_pure holds
  | arg :: args, field :: fields, _, _, allowed, each, holds => by
    unfold fieldPatterns
    unfold Surface.Pattern.annotationsAll at allowed
    obtain ⟨allowed, others⟩ := List.forall_mem_append.mp allowed
    obtain ⟨own, each⟩ := List.forall_mem_cons.mp each
    refine .state_bind (checks_pattern arg allowed holds) fun grown found => ?_
    refine .state_lift (rules.unify (rules.lasts_owns grown own) found.1 _) fun grown' _ => ?_
    refine .state_bind
      (checks_fieldPatterns args fields others (rules.owns_all (grown.trans grown') each)
      (rules.lasts_holds grown' found.2)) fun _ rest => ?_
    exact .state_pure rest
termination_by written => sizeOf written

theorem checks_alternativePatterns : ∀ (written : List Surface.Pattern) {world : ω} {ty : Ty}
    {shared : Captures}, (∀ type ∈ Surface.Pattern.annotationsAll written, rules.allowed type) →
    rules.owns world ty → rules.Holds world shared →
    rules.Checks env world unsaid (alternativePatterns ty shared written)
  | [], _, _, _, _, _, _ => by
    unfold alternativePatterns
    exact .pure trivial
  | alternative :: rest, _, _, _, allowed, own, holds => by
    unfold alternativePatterns
    unfold Surface.Pattern.annotationsAll at allowed
    obtain ⟨allowed, others⟩ := List.forall_mem_append.mp allowed
    refine (checks_pattern alternative allowed rules.holds_nil).bind fun grown found => ?_
    refine (rules.unify (rules.lasts_owns grown own) found.1 _).bind fun grown' _ => ?_
    have later := grown.trans grown'
    refine (rules.checks_agree (rules.lasts_holds later holds)
      (rules.lasts_holds grown' found.2) _).bind fun further _ => ?_
    have later := later.trans further
    exact (checks_alternativePatterns rest others (rules.lasts_owns later own)
      (rules.lasts_holds later holds)).bind fun _ _ => .pure trivial
termination_by written => sizeOf written

end

end Pattern

section Steps

theorem types_tuple {terms : List Term} (each : ∀ term ∈ terms, rules.Types world term) :
    rules.Types world (.tuple terms (.tuple (terms.map Term.ty))) :=
  ⟨Term.everywhereAll_iff.mpr each,
    rules.owns_tuple (List.forall_mem_map.mpr fun term member => (each term member).ty)⟩

theorem types_matchingLambda {param : Name} {paramTy result : Ty} {arms : List Arm}
    (own : rules.owns world paramTy) (own' : rules.owns world result)
    (each : ∀ arm ∈ arms, rules.Types world arm.body) :
    rules.Types world (matchingLambda param paramTy arms result) :=
  ⟨own, ⟨own, Term.everywhereArms_iff.mpr each, own'⟩, rules.owns_arrow own own'⟩

/-- A check of an expression, in whatever scope: all the types of its term are in order. -/
def Infers (check : Check Term) : Prop :=
  ∀ {env world}, rules.Checks env world rules.Types check

theorem checks_appliedCtor? (func : Surface.Expr) :
    rules.Checks env world (fun later found => ∀ info ∈ found, rules.knows later info)
    (appliedCtor? func) := by
  unfold appliedCtor?
  split
  · exact rules.checks_lookupCtor? _
  · exact .pure nofun

theorem checks_acceptsArgument (info : CtorInfo) (arg : Surface.Expr) (span : Span) :
    rules.Checks env world unsaid (acceptsArgument info arg span) := by
  unfold acceptsArgument
  split
  · exact rules.checks_fail _ _
  · exact .pure trivial

theorem checks_plainParam? (written : Surface.Pattern) :
    rules.Checks env world unsaid (plainParam? written) := by
  unfold plainParam?
  split
  · exact (rules.checks_mint _).map fun _ _ => trivial
  · refine (rules.checks_lookupCtor? _).bind fun {_ known} _ _ => ?_
    cases known with
    | some _ => exact .pure trivial
    | none => exact .pure trivial
  · exact .pure trivial

theorem checks_ctorValue {info : CtorInfo} (knows : rules.knows world info) :
    rules.Checks env world rules.Types (ctorValue info) := by
  refine (rules.ctorInstance knows).bind fun {_ found} _ inOrder => ?_
  obtain ⟨fields, result⟩ := found
  dsimp only
  split
  · exact .pure ⟨trivial, inOrder.2⟩
  · refine (rules.checks_mint _).bind fun grown _ => .pure ?_
    have field := rules.lasts_owns grown (rules.owns_tupled inOrder.1)
    have result := rules.lasts_owns grown inOrder.2
    exact ⟨field, ⟨field, result⟩, rules.owns_arrow field result⟩

theorem infers_identifier (name : Name) (span : Span) : rules.Infers (identifier name span) := by
  intro env world
  refine (rules.checks_lookupCtor? name).bind fun {_ known} _ knows => ?_
  cases known with
  | some info => exact rules.checks_ctorValue (knows info rfl)
  | none =>
    refine .get fun session here => ?_
    cases found : session.env.lookup? name with
    | none => exact rules.checks_fail _ _
    | some scheme =>
      have inScope := rules.binds_of_mem here (Env.mem_schemes_of_lookup? found)
      refine .ensure ((rules.instantiate inScope).bind fun _ own => ?_)
      exact (rules.openFlexible own).bind fun _ own => .pure own

variable {rules} in
theorem Infers.against_inScope {body : Check Term} (infers : rules.Infers body)
    {bindings : List (Name × Scheme)} (each : ∀ binding ∈ bindings, rules.binds world binding.2)
    {expected : Ty} (own : rules.owns world expected) (span : Span) :
    rules.Checks env world rules.Types (inScope bindings do against expected span (← body)) :=
  rules.checks_inScope each
    (infers.bind fun grown types => rules.checks_against (rules.lasts_owns grown own) types)

theorem checks_armWith {scrutineeTy result : Ty} (own : rules.owns world scrutineeTy)
    (own' : rules.owns world result) {written : Surface.Pattern}
    (allowed : ∀ type ∈ written.annotations, rules.allowed type) (span : Span) {body : Check Term}
    (infers : rules.Infers body) :
    rules.Checks env world (fun later arm => rules.Types later arm.body)
      (armWith scrutineeTy result written span body) := by
  refine (rules.checks_pattern written allowed rules.holds_nil).bind fun {_ found} grown
    inOrder => ?_
  obtain ⟨⟨pat, patTy⟩, captures⟩ := found
  refine (rules.unify (rules.lasts_owns grown own) inOrder.1 _).bind fun grown' _ => ?_
  refine (infers.against_inScope (rules.binds_monos (rules.lasts_holds grown' inOrder.2))
    (rules.lasts_owns (grown.trans grown') own') span).bind fun _ types => .pure types

theorem checks_placeholder {binding : Surface.Binding}
    (allowed : ∀ type ∈ binding.type, rules.allowed type) :
    rules.Checks env world (fun later found => rules.owns later found.1) (placeholder binding) := by
  unfold placeholder
  cases written : binding.type with
  | none => exact rules.freshVar.bind fun _ own => .pure own
  | some type =>
    refine (rules.writtenType (allowed type written)).bind fun {_ ty} _ own => ?_
    split
    · exact (rules.openRigid own).bind fun _ own => .pure own
    · exact .pure own

theorem checks_distinctBindings (seen : List Name) (bindings : List Surface.Binding) :
    rules.Checks env world unsaid (distinctBindings seen bindings) := by
  induction bindings generalizing seen with
  | nil => exact .pure trivial
  | cons binding bindings ih =>
    unfold distinctBindings
    split
    · exact rules.checks_fail _ _
    · exact ih _

theorem checks_generalizeGroup (fixed : List TyVar)
    {group : List (Surface.Binding × (Ty × List TyVar) × Term)}
    (each : ∀ entry ∈ group, rules.owns world entry.2.1.1 ∧ rules.Types world entry.2.2) :
    rules.Checks env world
    (fun later definitions => ∀ definition ∈ definitions, rules.Defines later definition)
      (generalizeGroup fixed group) := by
  induction group generalizing world with
  | nil => exact .pure nofun
  | cons entry group ih =>
    obtain ⟨binding, ⟨ty, rigid⟩, value⟩ := entry
    obtain ⟨⟨own, types⟩, others⟩ := List.forall_mem_cons.mp each
    refine (rules.checks_noEscape _ _ _).bind fun grown _ => .ensure (.get fun session here => ?_)
    have bound := rules.binds_generalize here (rules.lasts_owns grown own) fixed
    have others : ∀ entry ∈ group, rules.owns _ entry.2.1.1 ∧ rules.Types _ entry.2.2 :=
        fun entry member =>
      ⟨rules.lasts_owns grown (others entry member).1,
        rules.lasts_types grown (others entry member).2⟩
    refine (ih others).bind fun grown' rest => .pure (List.forall_mem_cons.mpr ⟨?_, rest⟩)
    exact rules.lasts_defines grown' ⟨bound, rules.lasts_types grown types⟩

theorem checks_groupWith {recursive : Bool} {bindings : List Surface.Binding}
    (allowed : ∀ type ∈ Surface.Expr.annotationsBindings bindings, rules.allowed type)
    {values : List Ty → Check (List Term)}
    (checks : ∀ types {env world}, (∀ ty ∈ types, rules.owns world ty) →
      rules.Checks env world (fun later terms => ∀ term ∈ terms, rules.Types later term)
      (values types)) :
    rules.Checks env world
    (fun later definitions => ∀ definition ∈ definitions, rules.Defines later definition)
      (groupWith recursive bindings values) := by
  have inferred : ∀ types outer span {env world}, (∀ ty ∈ types, rules.owns world ty) →
      rules.Checks env world (fun later found => ∀ term ∈ found.1, rules.Types later term) (do
        let terms ← values types
        ending .endless (fun session => session.env.walkableBelow outer session.subst) span
        let session ← get
        pure (terms, session.env.freeVarsBelow outer session.subst)) :=
          fun types outer span env world each =>
    (checks types each).bind fun _ types => .ensure (.get fun _ _ => .pure types)
  have placed : ∀ {world}, rules.Checks env world
      (fun later found => ∀ placeholder ∈ found, rules.owns later placeholder.1)
        (bindings.mapM placeholder) :=
    .mapM (fun _ binding => binding ∈ bindings) (fun _ member => member)
      (fun grown own => rules.lasts_owns grown own) (fun _ member => member) fun _ member =>
        rules.checks_placeholder fun type written =>
          allowed type (Surface.Expr.mem_annotationsBindings member written)
  refine (rules.checks_distinctBindings [] bindings).bind fun _ _ =>
    placed.bind fun {middle placeholders} _ owns => ?_
  refine .get fun session here => ?_
  have each : ∀ ty ∈ placeholders.map (·.1), rules.owns _ ty := List.forall_mem_map.mpr owns
  have generalized : ∀ {world later terms} fixed, world ≤ later →
      (∀ placeholder ∈ placeholders, rules.owns world placeholder.1) →
      (∀ term ∈ terms, rules.Types later term) →
      rules.Checks env later (fun later definitions => ∀ definition ∈ definitions,
        rules.Defines later definition)
        (generalizeGroup fixed (bindings.zip (placeholders.zip terms))) := by
    intro world later terms fixed grown owns types
    refine rules.checks_generalizeGroup fixed fun entry member => ?_
    have inside := List.of_mem_zip (List.of_mem_zip member).2
    exact ⟨rules.lasts_owns grown (owns _ inside.1), types _ inside.2⟩
  cases recursive with
  | false =>
    refine (inferred _ _ _ each).bind fun grown types => ?_
    exact (generalized _ grown owns types).bind fun _ defines => .pure defines
  | true =>
    have monos : ∀ binding ∈ (bindings.map (·.name)).zip ((placeholders.map (·.1)).map Scheme.mono),
        rules.binds middle binding.2 := by
      intro binding member
      obtain ⟨ty, inTypes, same⟩ := List.mem_map.mp (List.of_mem_zip member).2
      exact same ▸ rules.binds_mono (each ty inTypes)
    refine (rules.checks_inScope monos (inferred _ _ _ each)).bind fun grown types => ?_
    refine (generalized _ grown owns types).bind fun _ defines => ?_
    simp only [if_true]
    split
    · exact .throw _
    · exact .pure defines

theorem infers_matchingLambda {written : List Surface.Case} {span : Span}
    (checks : ∀ {scrutineeTy result env world}, rules.owns world scrutineeTy →
      rules.owns world result →
      rules.Checks env world (fun later arms => ∀ arm ∈ arms, rules.Types later arm.body)
        (inferCases scrutineeTy result written)) :
    rules.Infers (do
      let paramTy ← Check.freshVar
      let result ← Check.freshVar
      let param ← mint "a"
      let arms ← inferCases paramTy result written
      reportCoverage written arms paramTy span
      pure (matchingLambda param paramTy arms result)) := by
  intro env world
  refine rules.freshVar.bind fun _ param => rules.freshVar.bind fun grown result => ?_
  refine (rules.checks_mint "a").bind fun grown' _ => ?_
  have param := rules.lasts_owns (grown.trans grown') param
  have result := rules.lasts_owns grown' result
  refine (checks param result).bind fun grown arms => ?_
  refine (rules.checks_reportCoverage _ _ _ _).bind fun grown' _ => .pure ?_
  exact rules.types_matchingLambda (rules.lasts_owns (grown.trans grown') param)
    (rules.lasts_owns (grown.trans grown') result) fun arm member =>
      rules.lasts_types grown' (arms arm member)

end Steps

section Inference

mutual

theorem infers : ∀ written : Surface.Expr, (∀ type ∈ written.annotations, rules.allowed type) →
    rules.Infers (infer written)
  | .lit span value, _ => by
    unfold infer
    exact (rules.literal value span).bind fun _ own => .pure own
  | .ident span name, _ => by
    unfold infer
    exact rules.infers_identifier name span
  | .app span func arg, allowed => by
    unfold infer
    unfold Surface.Expr.annotations at allowed
    obtain ⟨allowed, allowed'⟩ := List.forall_mem_append.mp allowed
    refine (rules.checks_appliedCtor? func).bind fun {_ applied} _ knows => ?_
    cases applied with
    | some info =>
      refine (rules.checks_acceptsArgument info arg span).bind fun grown _ => ?_
      refine (rules.ctorInstance (rules.lasts_knows grown (knows info rfl))).bind fun _
        inOrder => ?_
      refine (infers arg allowed').bind fun grown types => ?_
      refine (rules.checks_against (rules.lasts_owns grown (rules.owns_tupled inOrder.1))
        types).bind fun grown' types => .pure ?_
      exact ⟨types, rules.lasts_owns (grown.trans grown') inOrder.2⟩
    | none =>
      refine (infers func allowed).bind fun _ function => ?_
      refine (rules.openFlexible function.ty).bind fun opens opened => ?_
      refine (infers arg allowed').bind fun grown argument =>
        rules.freshVar.bind fun grown' fresh => ?_
      have argument := rules.lasts_types grown' argument
      refine (rules.unify (rules.lasts_owns (grown.trans grown') opened)
        (rules.owns_arrow argument.ty fresh) span).bind fun further _ => .pure ?_
      exact ⟨rules.lasts_types (opens.trans (grown.trans (grown'.trans further))) function,
        rules.lasts_types further argument, rules.lasts_owns further fresh⟩
  | .tuple _ [inner], allowed => by
    unfold infer
    unfold Surface.Expr.annotations Surface.Expr.annotationsAll at allowed
    exact infers inner (List.forall_mem_append.mp allowed).1
  | .tuple _ [], allowed => by
    unfold infer
    unfold Surface.Expr.annotations at allowed
    exact (infersAll [] allowed).bind fun _ each => .pure (rules.types_tuple each)
  | .tuple _ (first :: second :: rest), allowed => by
    unfold infer
    unfold Surface.Expr.annotations at allowed
    exact (infersAll (first :: second :: rest) allowed).bind fun _ each =>
      .pure (rules.types_tuple each)
  | .lambda span [⟨caseSpan, written, body⟩], allowed => by
    unfold infer
    unfold Surface.Expr.annotations Surface.Expr.annotationsCases at allowed
    obtain ⟨patternAllowed, bodyAllowed⟩ :=
      List.forall_mem_append.mp (List.forall_mem_append.mp allowed).1
    refine rules.freshVar.bind fun _ param => rules.freshVar.bind fun grown result => ?_
    have param := rules.lasts_owns grown param
    refine (rules.checks_plainParam? written).bind fun {_ plain} grown _ => ?_
    have param := rules.lasts_owns grown param
    have result := rules.lasts_owns grown result
    cases plain with
    | some name =>
      refine (Infers.against_inScope (infers body bodyAllowed)
        (List.forall_mem_singleton.mpr (rules.binds_mono param)) result body.span).bind fun grown
          types => .pure ?_
      have param := rules.lasts_owns grown param
      exact ⟨param, types, rules.owns_arrow param (rules.lasts_owns grown result)⟩
    | none =>
      refine (rules.checks_mint "a").bind fun grown _ => ?_
      have param := rules.lasts_owns grown param
      have result := rules.lasts_owns grown result
      refine (rules.checks_armWith param result patternAllowed body.span
        (infers body bodyAllowed)).bind fun grown arm => ?_
      refine (rules.checks_reportCoverage _ _ _ _).bind fun grown' _ => .pure ?_
      exact rules.types_matchingLambda (rules.lasts_owns (grown.trans grown') param)
        (rules.lasts_owns (grown.trans grown') result)
        (List.forall_mem_singleton.mpr (rules.lasts_types grown' arm))
  | .lambda span [], allowed => by
    unfold infer
    unfold Surface.Expr.annotations at allowed
    exact rules.infers_matchingLambda (infersCases [] allowed)
  | .lambda span (⟨_, written, body⟩ :: second :: rest), allowed => by
    unfold infer
    unfold Surface.Expr.annotations at allowed
    exact rules.infers_matchingLambda (infersCases (⟨_, written, body⟩ :: second :: rest) allowed)
  | .letIn _ recursive bindings body, allowed => by
    unfold infer
    unfold Surface.Expr.annotations at allowed
    obtain ⟨allowed, allowed'⟩ := List.forall_mem_append.mp allowed
    refine (rules.checks_groupWith allowed (infersValues · bindings allowed)).bind fun _
      defines => ?_
    refine (rules.checks_inScope (List.forall_mem_map.mpr fun definition member =>
        (defines definition member).1) (infers body allowed')).bind fun grown types => .pure ?_
    refine ⟨Term.everywhereDefinitions_iff.mpr fun definition member => ?_, types, types.ty⟩
    exact rules.lasts_defines grown (defines definition member)
  | .matchOn span scrutinee cases, allowed => by
    unfold infer
    unfold Surface.Expr.annotations at allowed
    obtain ⟨allowed, allowed'⟩ := List.forall_mem_append.mp allowed
    refine (infers scrutinee allowed).bind fun _ types => rules.freshVar.bind fun grown result => ?_
    have types := rules.lasts_types grown types
    refine (infersCases cases allowed' types.ty result).bind fun grown arms => ?_
    refine (rules.checks_reportCoverage _ _ _ _).bind fun grown' _ => .pure ?_
    have later := grown.trans grown'
    exact ⟨rules.lasts_types later types,
      Term.everywhereArms_iff.mpr fun arm member => rules.lasts_types grown' (arms arm member),
      rules.lasts_owns later result⟩
  | .ascribed span inner written, allowed => by
    unfold infer
    unfold Surface.Expr.annotations at allowed
    obtain ⟨allowed, allows⟩ := List.forall_mem_append.mp allowed
    refine (rules.writtenType (List.forall_mem_singleton.mp allows)).bind fun _ own => .ensure ?_
    refine .get fun session here => ?_
    have shallow := rules.owns_shallow here own
    split
    · rename_i vars body head
      rw [head] at shallow
      refine (rules.openRigid shallow).bind fun grown rigid => ?_
      refine (infers inner allowed).bind fun grown' types => ?_
      refine (rules.checks_against (rules.lasts_owns grown' rigid) types).bind
        fun further types => ?_
      refine .ensure (.get fun _ _ => (rules.checks_noEscape _ _ _).bind fun last _ => ?_)
      have outer := rules.lasts_owns (grown.trans (grown'.trans (further.trans last))) shallow
      refine (rules.openFlexible outer).bind fun opens own => .pure ?_
      exact (rules.lasts_types (last.trans opens) types).withTy own
    · exact (infers inner allowed).bind fun grown types =>
        rules.checks_against (rules.lasts_owns grown own) types
termination_by structural written => written

theorem infersAll : ∀ (written : List Surface.Expr),
    (∀ type ∈ Surface.Expr.annotationsAll written, rules.allowed type) → ∀ {env world},
    rules.Checks env world (fun later terms => ∀ term ∈ terms, rules.Types later term)
      (inferAll written)
  | [], _, _, _ => by
    unfold inferAll
    exact .pure nofun
  | first :: rest, allowed, _, _ => by
    unfold inferAll
    unfold Surface.Expr.annotationsAll at allowed
    obtain ⟨allowed, allowed'⟩ := List.forall_mem_append.mp allowed
    refine (infers first allowed).bind fun _ types => (infersAll rest allowed').bind fun grown
      others => ?_
    exact .pure (List.forall_mem_cons.mpr ⟨rules.lasts_types grown types, others⟩)
termination_by structural written => written

theorem infersCases : ∀ (written : List Surface.Case),
    (∀ type ∈ Surface.Expr.annotationsCases written, rules.allowed type) →
    ∀ {scrutineeTy result : Ty} {env world}, rules.owns world scrutineeTy →
      rules.owns world result →
    rules.Checks env world (fun later arms => ∀ arm ∈ arms, rules.Types later arm.body)
      (inferCases scrutineeTy result written)
  | [], _, _, _, _, _, _, _ => by
    unfold inferCases
    exact .pure nofun
  | ⟨_, written, body⟩ :: rest, allowed, _, _, _, _, own, own' => by
    unfold inferCases
    unfold Surface.Expr.annotationsCases at allowed
    obtain ⟨allowed, allowed'⟩ := List.forall_mem_append.mp allowed
    obtain ⟨patternAllowed, bodyAllowed⟩ := List.forall_mem_append.mp allowed
    refine (rules.checks_armWith own own' patternAllowed body.span (infers body bodyAllowed)).bind
      fun grown arm => ?_
    refine (infersCases rest allowed' (rules.lasts_owns grown own)
      (rules.lasts_owns grown own')).bind fun grown' arms => .pure ?_
    exact List.forall_mem_cons.mpr ⟨rules.lasts_types grown' arm, arms⟩
termination_by structural written => written

theorem infersValues : ∀ (types : List Ty) (bindings : List Surface.Binding),
    (∀ type ∈ Surface.Expr.annotationsBindings bindings, rules.allowed type) →
    ∀ {env world}, (∀ ty ∈ types, rules.owns world ty) →
    rules.Checks env world (fun later terms => ∀ term ∈ terms, rules.Types later term)
      (inferValues types bindings)
  | [], _, _, _, _, _ => by
    unfold inferValues
    exact .pure nofun
  | _ :: _, [], _, _, _, _ => by
    unfold inferValues
    exact .pure nofun
  | ty :: types, ⟨_, _, _, value⟩ :: rest, allowed, _, _, each => by
    unfold inferValues
    unfold Surface.Expr.annotationsBindings at allowed
    obtain ⟨allowed, allowed'⟩ := List.forall_mem_append.mp allowed
    obtain ⟨own, others⟩ := List.forall_mem_cons.mp each
    refine (infers value (List.forall_mem_append.mp allowed).2).bind fun grown found => ?_
    refine (rules.checks_against (rules.lasts_owns grown own) found).bind fun grown' found => ?_
    refine (infersValues types rest allowed' (rules.owns_all (grown.trans grown') others)).bind
      fun further rest => .pure ?_
    exact List.forall_mem_cons.mpr ⟨rules.lasts_types further found, rest⟩
termination_by structural _ bindings => bindings

end

end Inference

theorem checks_group (recursive : Bool) (bindings : List Surface.Binding)
    (allowed : ∀ type ∈ Surface.Expr.annotationsBindings bindings, rules.allowed type) :
    rules.Checks env world
    (fun later definitions => ∀ definition ∈ definitions, rules.Defines later definition)
      (group recursive bindings) :=
  rules.checks_groupWith allowed (rules.infersValues · bindings allowed)

end Discipline

end PolyCheck
