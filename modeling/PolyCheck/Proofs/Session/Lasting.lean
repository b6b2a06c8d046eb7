import PolyCheck.Proofs.Session.Traversal

/-! Every check keeps what lasts, function by function: types, patterns, expressions, declarations
and whole units. -/
namespace PolyCheck

open Run

variable {inv : Subst → Registry → Prop} {own : TemplateId → Prop}

theorem Growing.pushMany (growing : Growing inv) {cell : Cell} (isNew : cell.IsNew) {subst : Subst}
    {registry : Registry} (holds : inv subst registry) (count : Nat) :
    inv (subst.pushMany cell count).2 registry :=
  @Subst.pushMany_induction (inv · registry) cell (growing.push isNew) subst holds count

namespace Check

section Basic

theorem steady_lookupCtor? (name : Name) : Steady inv anything (lookupCtor? name) :=
  Steady.get.bind fun _ => .pure trivial

theorem steady_distinct (what : NameKind) (names : List Name) (span : Span) :
    Steady inv anything (distinct what names span) := by
  unfold distinct
  split
  · exact .fail _ _
  · exact .pure trivial

section Growing

variable (growing : Growing inv)
include growing

theorem steady_freshVar : Steady inv anything freshVar :=
  .onSubst fun holds => growing.push Cell.isNew_unbound holds

theorem steady_freshVars (count : Nat) : Steady inv anything (freshVars count) :=
  .onSubst fun holds => growing.pushMany Cell.isNew_unbound holds count

theorem steady_intTy (width : Nat) : Steady inv anything (intTy width) :=
  .onRegistry fun holds => ⟨growing.int width holds, trivial⟩

end Growing

variable (solving : Solving inv)
include solving

theorem steady_unify (expected found : Ty) (span : Span) :
    Steady inv anything (unify expected found span) := by
  intro env options names session ⟨sameEnv, sameOptions, later, holds⟩
  have keeps : Keeps (inv · session.registry) anything (Subst.unify expected found) :=
    Subst.keeps_unify solving.push solving.write expected found
  have after := keeps session.subst holds
  simp only [unify]
  cases result : Subst.unify expected found session.subst with
  | ok _ subst =>
    rw [result] at after
    exact ⟨⟨sameEnv, sameOptions, later, after.1⟩, trivial⟩
  | error error subst =>
    rw [result] at after
    exact ⟨sameEnv, sameOptions, later, after⟩

theorem steady_literal (value : Literal) (span : Span) :
    Steady inv anything (literal value span) := by
  unfold literal
  split
  · exact .pure trivial
  · refine Steady.get.bind fun _ => ?_
    dsimp only
    split
    · exact .fail _ _
    · exact (steady_intTy solving.toGrowing _).bind fun _ => .pure trivial
  · split
    · exact .fail _ _
    · exact .pure trivial

theorem steady_ctorInstance (info : CtorInfo) : Steady inv anything (ctorInstance info) :=
  Steady.get.bind fun _ => (steady_freshVars solving.toGrowing _).bind fun _ => .pure trivial

end Basic

end Check

namespace Elaborate

open Check

theorem steady_fail {α : Type} {post : α → Prop} (cause : ErrorCause) (span : Span) :
    SteadyWith inv post (fail cause span) :=
  .lift (.fail cause span)

theorem steady_freshKind : SteadyWith inv anything freshKind := .modifyGet _

theorem steady_expectKind (expected found : Kind) (span : Span) :
    SteadyWith inv anything (expectKind expected found span) := by
  refine SteadyWith.get.bind fun {state} _ => ?_
  rcases state.kinds.unify expected found with ⟨equal, kinds⟩
  refine (SteadyWith.set _).bind fun _ => ?_
  split
  · exact .pure trivial
  · exact steady_fail _ _

theorem steady_expectStar (result : Ty × Kind) (span : Span) :
    SteadyWith inv anything (expectStar result span) :=
  (steady_expectKind _ _ _).bind fun _ => .pure trivial

section Names

variable (growing : Growing inv)
include growing

theorem steady_typeName (name : Name) (span : Span) :
    SteadyWith inv anything (typeName name span) := by
  refine (SteadyWith.lift Steady.get).bind fun {session} _ => ?_
  dsimp only
  split
  · split
    · split
      · exact .pure trivial
      · exact .pure trivial
    · exact .pure trivial
  · exact .pure trivial
  · split
    · exact (SteadyWith.lift (steady_intTy growing _)).bind fun _ => .pure trivial
    · exact steady_fail _ _

theorem steady_typeVar (name : Name) (span : Span) :
    SteadyWith inv anything (typeVar name span) := by
  refine SteadyWith.get.bind fun {state} _ => ?_
  split
  · exact .pure trivial
  · split
    · exact steady_fail _ _
    · split
      · exact .pure trivial
      · refine steady_freshKind.bind fun _ => ?_
        refine (SteadyWith.lift (.onSubst fun holds => growing.push Cell.isNew_unbound holds)).bind
          fun _ => ?_
        exact (SteadyWith.modify _).bind fun _ => .pure trivial

theorem steady_bindParam (name : Name) : SteadyWith inv anything (bindParam name) := by
  refine (SteadyWith.lift (.onSubst fun holds => growing.push (Cell.isNew_rigid _) holds)).bind
    fun _ => ?_
  exact steady_freshKind.bind fun _ => (SteadyWith.modify _).bind fun _ => .pure trivial

end Names

mutual

theorem steady_type (growing : Growing inv) : ∀ written : Surface.TypeExpr,
    SteadyWith inv anything (type written)
  | .name span name => steady_typeName growing name span
  | .var span name => steady_typeVar growing name span
  | .app span head args => by
    unfold type
    refine (steady_type growing head).bind fun _ => (steady_types growing args).bind fun _ => ?_
    exact steady_freshKind.bind fun _ => (steady_expectKind _ _ _).bind fun _ => .pure trivial
  | .arrow _ param result => by
    unfold type
    refine (steady_type growing param).bind fun _ => (steady_expectStar _ _).bind fun _ => ?_
    refine (steady_type growing result).bind fun _ => (steady_expectStar _ _).bind fun _ => ?_
    exact .pure trivial
  | .tuple _ [inner] => by
    unfold type
    exact steady_type growing inner
  | .tuple _ [] => by
    unfold type
    exact (steady_starTypes growing []).bind fun _ => .pure trivial
  | .tuple _ (first :: second :: rest) => by
    unfold type
    exact (steady_starTypes growing (first :: second :: rest)).bind fun _ => .pure trivial
  | .quantified span params body => by
    unfold type
    refine (SteadyWith.lift (steady_distinct _ _ _)).bind fun _ => SteadyWith.get.bind fun _ => ?_
    refine (SteadyWith.mapM fun name _ => steady_bindParam growing name).bind fun _ => ?_
    refine (steady_type growing body).bind fun _ => (steady_expectStar _ _).bind fun _ => ?_
    refine (SteadyWith.modify _).bind fun _ => ?_
    split
    · exact .pure trivial
    · exact .pure trivial
  | .hole _ => by
    unfold type
    refine steady_freshKind.bind fun _ => ?_
    exact (SteadyWith.lift (steady_freshVar growing)).bind fun _ => .pure trivial
termination_by structural written => written

theorem steady_types (growing : Growing inv) :
    ∀ written : List Surface.TypeExpr, SteadyWith inv anything (types written)
  | [] => by
    unfold types
    exact .pure trivial
  | first :: rest => by
    unfold types
    exact (steady_type growing first).bind fun _ => (steady_types growing rest).bind fun _ =>
      .pure trivial
termination_by structural written => written

theorem steady_starTypes (growing : Growing inv) :
    ∀ written : List Surface.TypeExpr, SteadyWith inv anything (starTypes written)
  | [] => by
    unfold starTypes
    exact .pure trivial
  | first :: rest => by
    unfold starTypes
    refine (steady_type growing first).bind fun _ => (steady_expectStar _ _).bind fun _ => ?_
    exact (steady_starTypes growing rest).bind fun _ => .pure trivial
termination_by structural written => written

end

theorem steady_starType (growing : Growing inv) (written : Surface.TypeExpr) :
    SteadyWith inv anything (starType written) :=
  (steady_type growing written).bind fun _ => steady_expectStar _ _

end Elaborate

namespace Check

section Pattern

theorem steady_addCapture (name : Name) (ty : Ty) (span : Span) :
    SteadyWith inv anything (addCapture name ty span) := by
  refine SteadyWith.get.bind fun {captures} _ => ?_
  split
  · exact .lift (.fail _ _)
  · exact .set _

theorem steady_expectFields (name : Name) (expected found : Nat) (span : Span) :
    Steady inv anything (expectFields name expected found span) := by
  unfold expectFields
  split
  · exact .pure trivial
  · exact .fail _ _

section Names

variable (solving : Solving inv)
include solving

theorem steady_writtenType (written : Surface.TypeExpr) :
    Steady inv anything (writtenType written) :=
  (Elaborate.steady_starType solving.toGrowing written).run' _

theorem steady_agree (shared own' : Captures) (span : Span) :
    Steady inv anything (agree shared own' span) := by
  unfold agree
  split
  · exact .fail _ _
  · refine .forM fun capture _ => ?_
    dsimp only
    split
    · exact steady_unify solving _ _ _
    · exact .pure trivial

theorem steady_wildFields (span : Span) (fields : List Ty) :
    Steady inv anything (wildFields span fields) := by
  induction fields with
  | nil => exact .pure trivial
  | cons field fields ih =>
    refine (steady_freshVar solving.toGrowing).bind fun _ =>
      (steady_unify solving _ _ _).bind fun _ => ?_
    exact ih.bind fun _ => .pure trivial

theorem steady_ctorPattern (name : Name) (span : Span) :
    Steady inv anything (ctorPattern name span) := by
  refine (steady_lookupCtor? name).bind fun {info} _ => ?_
  cases info with
  | none => exact .fail _ _
  | some info => exact (steady_ctorInstance solving info).bind fun _ => .pure trivial

end Names

mutual

theorem steady_pattern (solving : Solving inv) :
    ∀ written : Surface.Pattern, SteadyWith inv anything (pattern written)
  | .wild _ => by
    unfold pattern
    exact (SteadyWith.lift (steady_freshVar solving.toGrowing)).bind fun _ => .pure trivial
  | .lit span value => by
    unfold pattern
    exact (SteadyWith.lift (steady_literal solving value span)).bind fun _ => .pure trivial
  | .bind span name => by
    unfold pattern
    refine (SteadyWith.lift (steady_lookupCtor? name)).bind fun {known} _ => ?_
    cases known with
    | some _ =>
      refine (SteadyWith.lift (steady_ctorPattern solving name span)).bind fun _ => ?_
      exact (SteadyWith.lift (steady_expectFields _ _ _ _)).bind fun _ => .pure trivial
    | none =>
      refine (SteadyWith.lift (steady_freshVar solving.toGrowing)).bind fun _ => ?_
      exact (steady_addCapture _ _ _).bind fun _ => .pure trivial
  | .tuple _ [inner] => by
    unfold pattern
    exact steady_pattern solving inner
  | .tuple _ [] => by
    unfold pattern
    exact (steady_elementPatterns solving []).bind fun _ => .pure trivial
  | .tuple _ (first :: second :: rest) => by
    unfold pattern
    exact (steady_elementPatterns solving (first :: second :: rest)).bind fun _ => .pure trivial
  | .ctor span name args => by
    unfold pattern
    refine (SteadyWith.lift (steady_ctorPattern solving name span)).bind fun {found} _ => ?_
    obtain ⟨info, fields, result⟩ := found
    dsimp only
    split
    · split
      · exact (steady_fieldPatterns solving _ _).bind fun _ => .pure trivial
      · refine (SteadyWith.lift (steady_expectFields _ _ _ _)).bind fun _ => ?_
        exact (steady_fieldPatterns solving _ _).bind fun _ => .pure trivial
    · split
      · exact (SteadyWith.lift (steady_wildFields solving _ _)).bind fun _ => .pure trivial
      · refine (SteadyWith.lift (steady_expectFields _ _ _ _)).bind fun _ => ?_
        exact (SteadyWith.lift (steady_wildFields solving _ _)).bind fun _ => .pure trivial
    · refine (SteadyWith.lift (steady_expectFields _ _ _ _)).bind fun _ => ?_
      exact (steady_fieldPatterns solving _ _).bind fun _ => .pure trivial
  | .ascribed span inner type => by
    unfold pattern
    refine (steady_pattern solving inner).bind fun _ => ?_
    refine (SteadyWith.lift (steady_writtenType solving type)).bind fun _ => ?_
    exact (SteadyWith.lift (steady_unify solving _ _ _)).bind fun _ => .pure trivial
  | .oneOf _ [] => by
    unfold pattern
    exact (SteadyWith.lift (steady_freshVar solving.toGrowing)).bind fun _ => .pure trivial
  | .oneOf span (first :: rest) => by
    unfold pattern
    refine (SteadyWith.lift ((steady_pattern solving first).run [])).bind fun {found} _ => ?_
    obtain ⟨⟨pat, ty⟩, shared⟩ := found
    refine (SteadyWith.lift (steady_alternativePatterns solving ty shared rest)).bind fun _ => ?_
    refine (SteadyWith.forM fun _ _ => steady_addCapture _ _ _).bind fun _ => ?_
    split
    · exact .pure trivial
    · exact .pure trivial
termination_by written => sizeOf written

theorem steady_elementPatterns (solving : Solving inv) :
    ∀ written : List Surface.Pattern, SteadyWith inv anything (elementPatterns written)
  | [] => by
    unfold elementPatterns
    exact .pure trivial
  | first :: rest => by
    unfold elementPatterns
    refine (steady_pattern solving first).bind fun _ => ?_
    exact (steady_elementPatterns solving rest).bind fun _ => .pure trivial
termination_by written => sizeOf written

theorem steady_fieldPatterns (solving : Solving inv) :
    ∀ (written : List Surface.Pattern) (fields : List Ty),
      SteadyWith inv anything (fieldPatterns written fields)
  | [], fields => by
    unfold fieldPatterns
    exact .pure trivial
  | _ :: _, [] => by
    unfold fieldPatterns
    exact .pure trivial
  | arg :: args, field :: fields => by
    unfold fieldPatterns
    refine (steady_pattern solving arg).bind fun _ => ?_
    refine (SteadyWith.lift (steady_unify solving _ _ _)).bind fun _ => ?_
    exact (steady_fieldPatterns solving args fields).bind fun _ => .pure trivial
termination_by written => sizeOf written

theorem steady_alternativePatterns (solving : Solving inv) (ty : Ty) (shared : Captures) :
    ∀ written : List Surface.Pattern, Steady inv anything (alternativePatterns ty shared written)
  | [] => by
    unfold alternativePatterns
    exact .pure trivial
  | alternative :: rest => by
    unfold alternativePatterns
    refine ((steady_pattern solving alternative).run []).bind fun _ => ?_
    refine (steady_unify solving _ _ _).bind fun _ => (steady_agree solving _ _ _).bind fun _ => ?_
    exact (steady_alternativePatterns solving ty shared rest).bind fun _ => .pure trivial
termination_by written => sizeOf written

end

end Pattern

section Inference

theorem steady_noEscape (rigid fixed : List TyVar) (span : Span) :
    Steady inv anything (noEscape rigid fixed span) := by
  unfold noEscape
  split
  · exact Steady.get.bind fun _ => .fail _ _
  · exact .pure trivial

theorem steady_ending (cause : ErrorCause) (ends : Session → Bool) (span : Span) :
    Steady inv anything (ending cause ends span) := by
  refine Steady.get.bind fun _ => ?_
  split
  · exact .pure trivial
  · exact .fail _ _

theorem steady_appliedCtor? (func : Surface.Expr) : Steady inv anything (appliedCtor? func) := by
  unfold appliedCtor?
  split
  · exact steady_lookupCtor? _
  · exact .pure trivial

theorem steady_acceptsArgument (info : CtorInfo) (arg : Surface.Expr) (span : Span) :
    Steady inv anything (acceptsArgument info arg span) := by
  unfold acceptsArgument
  split
  · exact .fail _ _
  · exact .pure trivial

theorem steady_plainParam? (written : Surface.Pattern) :
    Steady inv anything (plainParam? written) := by
  unfold plainParam?
  split
  · exact (Steady.mint _).map _
  · refine (steady_lookupCtor? _).bind fun {known} _ => ?_
    cases known with
    | some _ => exact .pure trivial
    | none => exact .pure trivial
  · exact .pure trivial

theorem foldl_warn_eq (findings : List Diagnostic) (session : Session) :
    findings.foldl Session.warn session =
    { session with pending := session.pending ++ findings } := by
  induction findings generalizing session with
  | nil => rw [List.foldl_nil, List.append_nil]
  | cons finding findings ih =>
    rw [List.foldl_cons, ih, Session.warn, List.append_assoc, List.singleton_append]

theorem foldl_warn (findings : List Diagnostic) (session : Session) :
    ∃ pending, findings.foldl Session.warn session = { session with pending } :=
  ⟨_, foldl_warn_eq findings session⟩

theorem steady_reportCoverage (cases : List Surface.Case) (arms : List Arm) (ty : Ty)
    (span : Span) : Steady inv anything (reportCoverage cases arms ty span) := by
  refine (steady_ending _ _ _).bind fun _ env options names session around => ?_
  obtain ⟨pending, same⟩ := foldl_warn (Coverage.warnings session.options session.subst
    session.registry ((arms.zip cases).map fun entry => (entry.1.pat, entry.2.span)) ty
      span) session
  refine ⟨?_, trivial⟩
  simp only [same]
  exact ⟨around.env, around.options, around.names, around.holds⟩

theorem steady_distinctBindings (seen : List Name) (bindings : List Surface.Binding) :
    Steady inv anything (distinctBindings seen bindings) := by
  induction bindings generalizing seen with
  | nil => exact .pure trivial
  | cons binding bindings ih =>
    unfold distinctBindings
    split
    · exact .fail _ _
    · exact ih _

theorem steady_generalizeGroup (fixed : List TyVar)
    (group : List (Surface.Binding × (Ty × List TyVar) × Term)) :
    Steady inv anything (generalizeGroup fixed group) := by
  induction group with
  | nil => exact .pure trivial
  | cons entry group ih =>
    obtain ⟨binding, ⟨ty, rigid⟩, value⟩ := entry
    refine (steady_noEscape rigid fixed binding.span).bind fun _ => ?_
    refine (steady_ending _ _ _).bind fun _ => Steady.get.bind fun _ => ?_
    exact ih.bind fun _ => .pure trivial

section Steps

variable (solving : Solving inv)
include solving

theorem steady_openFlexible (ty : Ty) (span : Span) :
    Steady inv anything (openFlexible ty span) := by
  refine (steady_ending _ _ _).bind fun _ => .onSubst fun {subst registry} holds => ?_
  split
  · exact solving.pushMany Cell.isNew_unbound holds _
  · exact holds

theorem Solving.rigidCopies (vars : List TyVar) {subst : Subst} {registry : Registry}
    (holds : inv subst registry) : inv (rigidCopies subst vars).2 registry := by
  induction vars generalizing subst with
  | nil => exact holds
  | cons var vars ih => exact ih (solving.push (Cell.isNew_rigid _) holds)

theorem steady_openRigid (vars : List TyVar) (body : Ty) (span : Span) :
    Steady inv anything (openRigid vars body span) :=
  (steady_ending _ _ _).bind fun _ => .onSubst fun holds => Solving.rigidCopies solving vars holds

theorem steady_against (expected : Ty) (span : Span) (term : Term) :
    Steady inv anything (against expected span term) :=
  (steady_unify solving _ _ _).bind fun _ => .pure trivial

theorem steady_ctorValue (info : CtorInfo) : Steady inv anything (ctorValue info) := by
  refine (steady_ctorInstance solving info).bind fun {found} _ => ?_
  dsimp only
  split
  · exact .pure trivial
  · exact (Steady.mint _).bind fun _ => .pure trivial

theorem steady_instantiate (scheme : Scheme) :
    Steady inv anything (onSubst scheme.instantiate) := by
  refine .onSubst fun {subst registry} holds => ?_
  unfold Scheme.instantiate
  dsimp only
  split
  · exact holds
  · exact solving.pushMany Cell.isNew_unbound holds _

theorem steady_identifier (name : Name) (span : Span) :
    Steady inv anything (identifier name span) := by
  refine (steady_lookupCtor? name).bind fun {known} _ => ?_
  cases known with
  | some info => exact steady_ctorValue solving info
  | none =>
    refine Steady.get.bind fun {session} _ => ?_
    split
    · exact .fail _ _
    · refine (steady_ending _ _ _).bind fun _ => (steady_instantiate solving _).bind fun _ => ?_
      exact (steady_openFlexible solving _ _).bind fun _ => .pure trivial

theorem steady_armWith (scrutineeTy result : Ty) (written : Surface.Pattern) (span : Span)
    {body : Check Term} (steady : Steady inv anything body) :
    Steady inv anything (armWith scrutineeTy result written span body) := by
  refine ((steady_pattern solving written).run []).bind fun _ => ?_
  refine (steady_unify solving _ _ _).bind fun _ => ?_
  refine (Steady.inScope (steady.bind fun _ => steady_against solving _ _ _) _).bind fun _ => ?_
  exact .pure trivial

theorem steady_placeholder (binding : Surface.Binding) :
    Steady inv anything (placeholder binding) := by
  unfold placeholder
  split
  · exact (steady_freshVar solving.toGrowing).bind fun _ => .pure trivial
  · refine (steady_writtenType solving _).bind fun {ty} _ => ?_
    split
    · exact (steady_openRigid solving _ _ _).bind fun _ => .pure trivial
    · exact .pure trivial

theorem steady_groupWith (recursive : Bool) (bindings : List Surface.Binding)
    {values : List Ty → Check (List Term)} (steady : ∀ types, Steady inv anything (values types)) :
    Steady inv anything (groupWith recursive bindings values) := by
  have inferred : ∀ types outer span, Steady inv anything (do
      let terms ← values types
      ending .endless (fun session => session.env.walkableBelow outer session.subst) span
      let session ← get
      pure (terms, session.env.freeVarsBelow outer session.subst)) := fun types outer span =>
    (steady types).bind fun _ => (steady_ending _ _ _).bind fun _ => Steady.get.bind fun _ =>
      .pure trivial
  refine (steady_distinctBindings [] bindings).bind fun _ => ?_
  refine (Steady.mapM fun binding _ => steady_placeholder solving binding).bind fun _ => ?_
  refine Steady.get.bind fun _ => ?_
  cases recursive with
  | true =>
    refine (Steady.inScope (inferred _ _ _) _).bind fun _ => ?_
    refine (steady_generalizeGroup _ _).bind fun _ => ?_
    simp only [if_true]
    split
    · exact .throw _
    · exact .pure trivial
  | false =>
    exact (inferred _ _ _).bind fun _ => (steady_generalizeGroup _ _).bind fun _ => .pure trivial

end Steps

mutual

theorem steady_infer (solving : Solving inv) :
    ∀ written : Surface.Expr, Steady inv anything (infer written)
  | .lit span value => by
    unfold infer
    exact (steady_literal solving value span).bind fun _ => .pure trivial
  | .ident span name => by
    unfold infer
    exact steady_identifier solving name span
  | .app span func arg => by
    unfold infer
    refine (steady_appliedCtor? func).bind fun {applied} _ => ?_
    cases applied with
    | some info =>
      refine (steady_acceptsArgument info arg span).bind fun _ => ?_
      refine (steady_ctorInstance solving info).bind fun _ => ?_
      refine (steady_infer solving arg).bind fun _ => ?_
      exact (steady_against solving _ _ _).bind fun _ => .pure trivial
    | none =>
      refine (steady_infer solving func).bind fun _ => ?_
      refine (steady_openFlexible solving _ _).bind fun _ => ?_
      refine (steady_infer solving arg).bind fun _ =>
        (steady_freshVar solving.toGrowing).bind fun _ => ?_
      exact (steady_unify solving _ _ _).bind fun _ => .pure trivial
  | .tuple _ [inner] => by
    unfold infer
    exact steady_infer solving inner
  | .tuple _ [] => by
    unfold infer
    exact (steady_inferAll solving []).bind fun _ => .pure trivial
  | .tuple _ (first :: second :: rest) => by
    unfold infer
    exact (steady_inferAll solving (first :: second :: rest)).bind fun _ => .pure trivial
  | .lambda span [⟨caseSpan, written, body⟩] => by
    unfold infer
    refine (steady_freshVar solving.toGrowing).bind fun _ =>
      (steady_freshVar solving.toGrowing).bind fun _ => ?_
    refine (steady_plainParam? written).bind fun {plain} _ => ?_
    cases plain with
    | some param =>
      refine (Steady.inScope ((steady_infer solving body).bind fun _ =>
        steady_against solving _ _ _) _).bind fun _ => ?_
      exact .pure trivial
    | none =>
      refine (Steady.mint _).bind fun _ => ?_
      refine (steady_armWith solving _ _ _ _ (steady_infer solving body)).bind fun _ => ?_
      exact (steady_reportCoverage _ _ _ _).bind fun _ => .pure trivial
  | .lambda span [] => by
    unfold infer
    refine (steady_freshVar solving.toGrowing).bind fun _ =>
      (steady_freshVar solving.toGrowing).bind fun _ => ?_
    refine (Steady.mint _).bind fun _ => (steady_inferCases solving _ _ []).bind fun _ => ?_
    exact (steady_reportCoverage _ _ _ _).bind fun _ => .pure trivial
  | .lambda span (⟨_, written, body⟩ :: second :: rest) => by
    unfold infer
    refine (steady_freshVar solving.toGrowing).bind fun _ =>
      (steady_freshVar solving.toGrowing).bind fun _ => ?_
    refine (Steady.mint _).bind fun _ =>
      (steady_inferCases solving _ _ (⟨_, written, body⟩ :: second :: rest)).bind fun _ => ?_
    exact (steady_reportCoverage _ _ _ _).bind fun _ => .pure trivial
  | .letIn _ recursive bindings body => by
    unfold infer
    refine (steady_groupWith solving recursive bindings fun types =>
      steady_inferValues solving types bindings).bind fun _ => ?_
    exact (Steady.inScope (steady_infer solving body) _).bind fun _ => .pure trivial
  | .matchOn span scrutinee cases => by
    unfold infer
    refine (steady_infer solving scrutinee).bind fun _ =>
      (steady_freshVar solving.toGrowing).bind fun _ => ?_
    refine (steady_inferCases solving _ _ cases).bind fun _ => ?_
    exact (steady_reportCoverage _ _ _ _).bind fun _ => .pure trivial
  | .ascribed span inner written => by
    unfold infer
    refine (steady_writtenType solving written).bind fun _ => (steady_ending _ _ _).bind fun _ => ?_
    refine Steady.get.bind fun _ => ?_
    split
    · refine (steady_openRigid solving _ _ _).bind fun _ => ?_
      refine (steady_infer solving inner).bind fun _ =>
        (steady_against solving _ _ _).bind fun _ => ?_
      refine (steady_ending _ _ _).bind fun _ => Steady.get.bind fun _ =>
        (steady_noEscape _ _ _).bind fun _ => ?_
      exact (steady_openFlexible solving _ _).bind fun _ => .pure trivial
    · exact (steady_infer solving inner).bind fun _ => steady_against solving _ _ _
termination_by structural written => written

theorem steady_inferAll (solving : Solving inv) :
    ∀ written : List Surface.Expr, Steady inv anything (inferAll written)
  | [] => by
    unfold inferAll
    exact .pure trivial
  | first :: rest => by
    unfold inferAll
    refine (steady_infer solving first).bind fun _ => ?_
    exact (steady_inferAll solving rest).bind fun _ => .pure trivial
termination_by structural written => written

theorem steady_inferCases (solving : Solving inv) (scrutineeTy result : Ty) :
    ∀ written : List Surface.Case, Steady inv anything (inferCases scrutineeTy result written)
  | [] => by
    unfold inferCases
    exact .pure trivial
  | ⟨_, written, body⟩ :: rest => by
    unfold inferCases
    refine (steady_armWith solving _ _ _ _ (steady_infer solving body)).bind fun _ => ?_
    exact (steady_inferCases solving scrutineeTy result rest).bind fun _ => .pure trivial
termination_by structural written => written

theorem steady_inferValues (solving : Solving inv) :
    ∀ (types : List Ty) (bindings : List Surface.Binding),
      Steady inv anything (inferValues types bindings)
  | [], _ => by
    unfold inferValues
    exact .pure trivial
  | _ :: _, [] => by
    unfold inferValues
    exact .pure trivial
  | ty :: types, ⟨_, _, _, value⟩ :: rest => by
    unfold inferValues
    refine (steady_infer solving value).bind fun _ =>
      (steady_against solving _ _ _).bind fun _ => ?_
    exact (steady_inferValues solving types rest).bind fun _ => .pure trivial
termination_by structural _ bindings => bindings

end

theorem steady_group (solving : Solving inv) (recursive : Bool)
    (bindings : List Surface.Binding) : Steady inv anything (group recursive bindings) :=
  steady_groupWith solving recursive bindings fun types => steady_inferValues solving types bindings

end Inference

end Check

namespace Elaborate

open Check

variable (declaring : Declaring inv own)
include declaring

omit declaring in
theorem Template.revises_addCase? {old new : Template} {name : Name} {fields : List Ty}
    (added : old.addCase? name fields = some new) : old.Revises new := by
  rw [Template.addCase?] at added
  split at added
  · simp at added
  · rename_i isOpen
    obtain rfl := Option.some.inj added
    exact ⟨rfl, rfl, fun isSealed => absurd isSealed (by simp_all)⟩

omit declaring in
theorem mapM_bindParam_eq_ok {names : List Name} {state state' : Elaborator}
    {session after : Session} {params : List (TyVar × Kind)}
    (run : names.mapM bindParam state session = .ok (params, state') after) :
    (params.map (·.1)).Nodup ∧ ∀ v ∈ params.map (·.1), session.subst.size ≤ v.index := by
  induction names generalizing state state' session after params with
  | nil =>
    rw [List.mapM_nil] at run
    obtain ⟨rfl, -⟩ := state_pure_eq_ok.mp run
    exact ⟨List.nodup_nil, nofun⟩
  | cons name names ih =>
    rw [List.mapM_cons] at run
    obtain ⟨first, _, middle, bound, run⟩ := state_bind_eq_ok.mp run
    obtain ⟨rest, _, _, others, run⟩ := state_bind_eq_ok.mp run
    obtain ⟨rfl, -⟩ := state_pure_eq_ok.mp run
    have one : first.1 = ⟨session.subst.size⟩ ∧ middle.subst.size = session.subst.size + 1 := by
      obtain ⟨same, rfl⟩ := EStateM.Result.ok.inj bound
      obtain ⟨rfl, -⟩ := Prod.mk.inj same
      exact ⟨rfl, Array.size_push _⟩
    obtain ⟨nodup, newer⟩ := ih others
    rw [one.2] at newer
    refine ⟨List.nodup_cons.mpr ⟨fun member => ?_, nodup⟩,
      List.forall_mem_cons.mpr ⟨?_, fun v member => ?_⟩⟩
    · have later : session.subst.size + 1 ≤ first.1.index := newer _ member
      rw [one.1] at later
      exact Nat.not_succ_le_self _ later
    · exact Nat.le_of_eq (congrArg TyVar.index one.1).symm
    · exact Nat.le_of_succ_le (newer v member)

theorem steady_enterData (decl : Surface.DataDecl) : SteadyWith inv own (enterData decl) := by
  refine (SteadyWith.lift (steady_distinct _ _ _)).bind fun _ => ?_
  refine ((SteadyWith.mapM fun name _ => steady_bindParam declaring.toGrowing name).describe
    fun run => (mapM_bindParam_eq_ok run).1).bind fun {params} nodup => ?_
  refine (SteadyWith.modify _).bind fun _ => .lift (.onRegistry fun holds => ?_)
  have openNone : (Template.openWith decl.name params).builtin = none := rfl
  obtain ⟨entered, isOwn⟩ := declaring.alloc openNone nodup holds
  exact ⟨declaring.defineData _ _ entered, isOwn⟩

theorem steady_addCase {id : TemplateId} (isOwn : own id) (decl : Surface.CaseDecl) :
    SteadyWith inv anything (addCase id decl) := by
  refine (steady_starTypes declaring.toGrowing decl.fields).bind fun {fields} _ => ?_
  -- The definition that is changed is the one that was read, so the step is taken as a whole.
  refine SteadyWith.getSession fun session state => ?_
  cases found : (session.registry.template? id).bind (·.addCase? decl.name fields) with
  | none => exact fun _ _ _ around => around
  | some template =>
    refine fun _ _ _ around => ⟨⟨around.env, around.options, around.names,
      declaring.modify isOwn (fun old known => ?_) around.holds⟩, trivial⟩
    rw [known, Option.bind_some] at found
    exact Template.revises_addCase? found

theorem steady_fillData (decl : Surface.DataDecl) {id : TemplateId} (isOwn : own id) :
    SteadyWith inv anything (fillData decl id) := by
  refine (SteadyWith.lift Steady.get).bind fun {session} _ => (SteadyWith.modify _).bind fun _ => ?_
  exact .forM fun case_ _ => steady_addCase declaring isOwn case_

theorem steady_sealData {id : TemplateId} (isOwn : own id) :
    SteadyWith inv anything (sealData id) := by
  refine SteadyWith.get.bind fun _ => ?_
  refine .lift
    (.onRegistry fun holds => ⟨declaring.modify isOwn (fun template _ => ?_) holds, trivial⟩)
  exact ⟨rfl, by simp [Template.paramVars, Template.mapKinds, Template.freeze], fun _ => ⟨rfl, rfl⟩⟩

theorem steady_dataGroup (group : List Surface.DataDecl) :
    SteadyWith inv (fun ids => ∀ id ∈ ids, own id) (dataGroup group) := by
  refine (SteadyWith.mapM fun decl _ => steady_enterData declaring decl).bind fun {ids} isOwn => ?_
  refine (SteadyWith.forM fun entry member => ?_).bind fun _ => ?_
  · exact steady_fillData declaring entry.1 (isOwn entry.2 (List.of_mem_zip member).2)
  · refine (SteadyWith.forM fun id member => ?_).bind fun _ => .pure isOwn
    exact steady_sealData declaring (isOwn id member)

end Elaborate

namespace Check

theorem steady_synonym (growing : Growing inv) (name : Name)
    (defines : ∀ {subst registry} (ty : Ty) (kind : Kind),
      inv subst registry → inv subst (registry.defineType name (.synonym ty kind)))
      (params : List Name)
    (body : Surface.TypeExpr) (span : Span) :
    Steady inv anything (synonym name params body span) := by
  have read : SteadyWith inv anything (do
      let params ← params.mapM Elaborate.bindParam
      let body ← Elaborate.type body
      pure (params, body) : Elaborate _) :=
    (SteadyWith.mapM fun name _ => Elaborate.steady_bindParam growing name).bind fun _ =>
      (Elaborate.steady_type growing body).bind fun _ => .pure trivial
  refine (steady_distinct _ _ _).bind fun _ => (read.run _).bind fun _ => ?_
  exact .onRegistry fun holds => ⟨defines _ _ holds, trivial⟩

theorem steady_defineCtors (defines : ∀ {subst registry} (info : CtorInfo), inv subst registry →
      inv subst (registry.defineCtor info)) (id : TemplateId) :
        Steady inv anything (defineCtors id) := by
  refine .onRegistry fun {subst registry} holds => ⟨?_, trivial⟩
  dsimp only
  generalize ((registry.template? id).map (·.ctors id)).getD [] = ctors
  induction ctors generalizing registry with
  | nil => exact holds
  | cons info ctors ih => exact ih (defines info holds)

theorem steady_data (declaring : Declaring inv own)
    (defines : ∀ {subst registry} (info : CtorInfo), inv subst registry →
      inv subst (registry.defineCtor info)) (group : List Surface.DataDecl) :
        Steady inv anything (data group) := by
  have rest : Steady inv anything (do
      let ids ← (Elaborate.dataGroup group).run' .forDeclaration
      ids.forM defineCtors
      pure ids) := by
    refine ((Elaborate.steady_dataGroup declaring group).run' _).bind fun _ => ?_
    exact (Steady.forM fun id _ => steady_defineCtors defines id).bind fun _ => .pure trivial
  unfold data
  split
  · exact (steady_distinct _ _ _).bind fun _ => (steady_distinct _ _ _).bind fun _ => rest
  · exact rest

theorem steady_unit (lasting : Lasting inv own) (written : Surface.Decl) :
    Steady inv anything (unit written) := by
  cases written with
  | data _ types => exact (steady_data lasting.toDeclaring lasting.defineCtor types).map _
  | synonym span name params body =>
    exact (steady_synonym lasting.toGrowing name (lasting.defineSynonym name) params body span).bind
      fun _ => .pure trivial
  | define _ recursive bindings => exact (steady_group lasting.toSolving recursive bindings).map _
  | eval _ expr => exact (steady_infer lasting.toSolving expr).map _

end Check

end PolyCheck
