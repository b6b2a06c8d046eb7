import PolyCheck.Proofs.Session.Reflected
import PolyCheck.Proofs.Session.Rollback
import PolyCheck.Proofs.Surface
import PolyCheck.Session.Toplevel

/-! Inference in two mirrored runs. A pattern captures the same names in both, because a program
cannot spell a minted name; a term of the second run is that of the first under the other names,
with the same types. -/
namespace PolyCheck

open Run Check

theorem Pat.renameAll_of_each {naming : Renaming} {pats : List Pat}
    (each : ∀ pat ∈ pats, pat.rename naming = pat) : renameAll naming pats = pats := by
  rw [renameAll_eq_map]
  exact (List.map_congr_left each).trans (List.map_id pats)

namespace Mirror

variable (mirror : Mirror)

/-- Names that are the same in both runs. -/
def Keeps (names : List Name) : Prop := ∀ name ∈ names, mirror.naming name = name

/-- A pattern that captures the same names in both runs. -/
def KeepsPat (pat : Pat) : Prop := pat.rename mirror.naming = pat

def KeepsCaptures (captures : Captures) : Prop :=
  ∀ capture ∈ captures, mirror.naming capture.1 = capture.1

def KeepsFound (found : (Pat × Ty) × Captures) : Prop :=
  mirror.KeepsPat found.1.1 ∧ mirror.KeepsCaptures found.2

variable {mirror} {captures shared : Captures}

theorem Follows.pure_of {α γ : Type} {said : α → Prop} {image : α → γ} {value : α} {value' : γ}
    (holds : said value)
    (same : value' = image value) : mirror.Follows said image (Pure.pure value)
    (Pure.pure value') := by
  rw [same]
  exact .pure holds

section Pattern

theorem keepsPat_tuple {pats : List Pat} (each : ∀ pat ∈ pats, mirror.KeepsPat pat) :
    mirror.KeepsPat (.tuple pats) :=
  congrArg Pat.tuple (Pat.renameAll_of_each each)

theorem keepsPat_ctor {name : Name} {id : TemplateId} {index : Nat} {pats : List Pat}
    (each : ∀ pat ∈ pats, mirror.KeepsPat pat) : mirror.KeepsPat (.ctor name id index pats) :=
  congrArg (Pat.ctor name id index) (Pat.renameAll_of_each each)

theorem keepsPat_oneOf {pats : List Pat} (each : ∀ pat ∈ pats, mirror.KeepsPat pat) :
    mirror.KeepsPat (.oneOf pats) :=
  congrArg Pat.oneOf (Pat.renameAll_of_each each)

theorem keepsPat_capturing {name : Name} (kept : mirror.naming name = name) :
    mirror.KeepsPat (.capturing name) :=
  congrArg (fun name => Pat.wild (some name)) kept

theorem keepsPat_ofConstant (constant : Constant) : mirror.KeepsPat (.ofConstant constant) := by
  cases constant <;> rfl

theorem gives_addCapture {name : Name} (kept : mirror.naming name = name)
    (holds : mirror.KeepsCaptures captures) (ty : Ty) (span : Span) :
    mirror.Gives (fun result => mirror.KeepsCaptures result.2)
    (addCapture name ty span captures) := by
  refine .state_own ?_
  split
  · exact .state_throw _
  · exact Follows.pure (List.forall_mem_append.mpr ⟨holds, List.forall_mem_singleton.mpr kept⟩)

theorem fixes_agree (shared own : Captures) (span : Span) :
    mirror.Fixes (agree shared own span) := by
  unfold agree
  split
  · exact follows_fail _ _
  · refine .forM fun capture _ => ?_
    obtain ⟨name, ty⟩ := capture
    dsimp only
    split
    · exact fixes_unify _ _ _
    · exact .pure trivial

theorem gives_wildFields (span : Span) (fields : List Ty) :
    mirror.Gives (fun pats => ∀ pat ∈ pats, mirror.KeepsPat pat) (wildFields span fields) := by
  induction fields with
  | nil => exact .pure (List.forall_mem_nil _)
  | cons field fields ih =>
    refine fixes_freshVar.bind fun _ => (fixes_unify _ _ _).bind fun _ => ?_
    exact ih.bind fun each => .pure (List.forall_mem_cons.mpr ⟨rfl, each⟩)

theorem fixes_ctorPattern (name : Name) (span : Span) : mirror.Fixes (ctorPattern name span) := by
  refine (fixes_lookupCtor? name).bind fun {known} _ => ?_
  cases known with
  | none => exact follows_fail _ _
  | some info => exact (fixes_ctorInstance info).bind fun _ => .pure trivial

theorem fixes_expectFields (name : Name) (expected found : Nat) (span : Span) :
    mirror.Fixes (expectFields name expected found span) := by
  unfold expectFields
  split
  · exact .pure trivial
  · exact follows_fail _ _

mutual

theorem gives_pattern : ∀ (written : Surface.Pattern) {captures : Captures},
    mirror.Keeps written.names →
    mirror.KeepsCaptures captures → mirror.Gives mirror.KeepsFound (pattern written captures)
  | .wild _, _, _, holds => by
    unfold pattern
    exact .state_lift fixes_freshVar fun _ => .state_pure ⟨rfl, holds⟩
  | .lit span value, _, _, holds => by
    unfold pattern
    exact .state_lift (fixes_literal value span) fun _ => .state_pure ⟨keepsPat_ofConstant _, holds⟩
  | .bind span name, _, kept, holds => by
    unfold pattern
    have kept := kept name (List.mem_singleton_self _)
    refine .state_lift (fixes_lookupCtor? name) fun {known} _ => ?_
    cases known with
    | some _ =>
      refine .state_lift (fixes_ctorPattern name span) fun _ => ?_
      exact .state_lift (fixes_expectFields _ _ _ _) fun _ => .state_pure ⟨rfl, holds⟩
    | none =>
      refine .state_lift fixes_freshVar fun _ => ?_
      exact .state_bind (gives_addCapture kept holds _ _) fun captured =>
        .state_pure ⟨keepsPat_capturing kept, captured⟩
  | .tuple _ [inner], _, kept, holds => by
    unfold pattern
    unfold Surface.Pattern.names Surface.Pattern.namesAll at kept
    exact gives_pattern inner (List.forall_mem_append.mp kept).1 holds
  | .tuple _ [], _, kept, holds => by
    unfold pattern
    unfold Surface.Pattern.names at kept
    exact .state_bind (gives_elementPatterns [] kept holds) fun found =>
      .state_pure ⟨keepsPat_tuple (List.forall_mem_map.mpr found.1), found.2⟩
  | .tuple _ (first :: second :: rest), _, kept, holds => by
    unfold pattern
    unfold Surface.Pattern.names at kept
    exact .state_bind (gives_elementPatterns (first :: second :: rest) kept holds) fun found =>
      .state_pure ⟨keepsPat_tuple (List.forall_mem_map.mpr found.1), found.2⟩
  | .ctor span name args, _, kept, holds => by
    unfold pattern
    unfold Surface.Pattern.names at kept
    refine .state_lift (fixes_ctorPattern name span) fun {found} _ => ?_
    obtain ⟨info, fields, result⟩ := found
    dsimp only
    split
    · split
      · unfold Surface.Pattern.namesAll Surface.Pattern.names at kept
        exact .state_bind (gives_fieldPatterns _ _ (List.forall_mem_append.mp kept).1 holds)
          fun found =>
          .state_pure ⟨keepsPat_ctor found.1, found.2⟩
      · refine .state_lift (fixes_expectFields _ _ _ _) fun _ => ?_
        exact .state_bind (gives_fieldPatterns _ _ kept holds) fun found =>
          .state_pure ⟨keepsPat_ctor found.1, found.2⟩
    · split
      · exact .state_lift (gives_wildFields _ _) fun each => .state_pure ⟨keepsPat_ctor each, holds⟩
      · refine .state_lift (fixes_expectFields _ _ _ _) fun _ => ?_
        exact .state_lift (gives_wildFields _ _) fun each => .state_pure ⟨keepsPat_ctor each, holds⟩
    · refine .state_lift (fixes_expectFields _ _ _ _) fun _ => ?_
      exact .state_bind (gives_fieldPatterns _ _ kept holds) fun found =>
        .state_pure ⟨keepsPat_ctor found.1, found.2⟩
  | .ascribed span inner type, _, kept, holds => by
    unfold pattern
    unfold Surface.Pattern.names at kept
    refine .state_bind (gives_pattern inner kept holds) fun found => ?_
    refine .state_lift (fixes_writtenType type) fun _ => .state_lift (fixes_unify _ _ _) fun _ => ?_
    exact .state_pure found
  | .oneOf _ [], _, _, holds => by
    unfold pattern
    exact .state_lift fixes_freshVar fun _ => .state_pure ⟨rfl, holds⟩
  | .oneOf span (first :: rest), _, kept, holds => by
    unfold pattern
    unfold Surface.Pattern.names Surface.Pattern.namesAll at kept
    obtain ⟨kept, others⟩ := List.forall_mem_append.mp kept
    refine .state_lift (gives_pattern first kept (List.forall_mem_nil _)) fun {found} keeps => ?_
    obtain ⟨⟨pat, ty⟩, shared⟩ := found
    refine .state_lift (gives_alternativePatterns rest others) fun {pats} each => ?_
    refine .state_bind (.state_forM mirror.KeepsCaptures holds fun capture member _ holds => ?_)
      fun captured => ?_
    · obtain ⟨name, captureTy⟩ := capture
      exact gives_addCapture (keeps.2 _ member) holds captureTy span
    · split
      · exact .state_pure ⟨keeps.1, captured⟩
      · exact .state_pure ⟨keepsPat_oneOf (List.forall_mem_cons.mpr ⟨keeps.1, each⟩), captured⟩
termination_by written => sizeOf written

theorem gives_elementPatterns : ∀ (written : List Surface.Pattern) {captures : Captures},
    mirror.Keeps (Surface.Pattern.namesAll written) → mirror.KeepsCaptures captures →
    mirror.Gives (fun found => (∀ element ∈ found.1, mirror.KeepsPat element.1) ∧
      mirror.KeepsCaptures found.2) (elementPatterns written captures)
  | [], _, _, holds => by
    unfold elementPatterns
    exact .state_pure ⟨nofun, holds⟩
  | first :: rest, _, kept, holds => by
    unfold elementPatterns
    unfold Surface.Pattern.namesAll at kept
    obtain ⟨kept, others⟩ := List.forall_mem_append.mp kept
    refine .state_bind (gives_pattern first kept holds) fun found => ?_
    exact .state_bind (gives_elementPatterns rest others found.2) fun rest =>
      .state_pure ⟨List.forall_mem_cons.mpr ⟨found.1, rest.1⟩, rest.2⟩
termination_by written => sizeOf written

theorem gives_fieldPatterns : ∀ (written : List Surface.Pattern) (fields : List Ty)
    {captures : Captures},
    mirror.Keeps (Surface.Pattern.namesAll written) → mirror.KeepsCaptures captures →
    mirror.Gives (fun found => (∀ pat ∈ found.1, mirror.KeepsPat pat) ∧
      mirror.KeepsCaptures found.2) (fieldPatterns written fields captures)
  | [], _, _, _, holds => by
    unfold fieldPatterns
    exact .state_pure ⟨nofun, holds⟩
  | _ :: _, [], _, _, holds => by
    unfold fieldPatterns
    exact .state_pure ⟨nofun, holds⟩
  | arg :: args, field :: fields, _, kept, holds => by
    unfold fieldPatterns
    unfold Surface.Pattern.namesAll at kept
    obtain ⟨kept, others⟩ := List.forall_mem_append.mp kept
    refine .state_bind (gives_pattern arg kept holds) fun found =>
      .state_lift (fixes_unify _ _ _) fun _ => ?_
    exact .state_bind (gives_fieldPatterns args fields others found.2) fun rest =>
      .state_pure ⟨List.forall_mem_cons.mpr ⟨found.1, rest.1⟩, rest.2⟩
termination_by written => sizeOf written

theorem gives_alternativePatterns : ∀ (written : List Surface.Pattern) {ty : Ty}
    {shared : Captures}, mirror.Keeps (Surface.Pattern.namesAll written) →
    mirror.Gives (fun pats => ∀ pat ∈ pats, mirror.KeepsPat pat)
      (alternativePatterns ty shared written)
  | [], _, _, _ => by
    unfold alternativePatterns
    exact .pure nofun
  | alternative :: rest, _, _, kept => by
    unfold alternativePatterns
    unfold Surface.Pattern.namesAll at kept
    obtain ⟨kept, others⟩ := List.forall_mem_append.mp kept
    refine (gives_pattern alternative kept (List.forall_mem_nil _)).bind fun found => ?_
    refine (fixes_unify _ _ _).bind fun _ => (fixes_agree _ _ _).bind fun _ => ?_
    exact (gives_alternativePatterns rest others).bind fun each =>
      .pure (List.forall_mem_cons.mpr ⟨found.1, each⟩)
termination_by written => sizeOf written

end

end Pattern

section Steps

variable (mirror) in
/-- The second run gives the term of the first under the other names. -/
abbrev Infers (check check' : Check Term) : Prop :=
  mirror.Follows anything (Term.rename mirror.naming) check check'

variable (mirror) in
abbrev InfersAll (check check' : Check (List Term)) : Prop :=
  mirror.Follows anything (List.map (Term.rename mirror.naming)) check check'

variable (mirror) in
def KeepsArm (arm : Arm) : Prop := mirror.KeepsPat arm.pat

variable (mirror) in
def KeepsDefinition (definition : Definition) : Prop :=
  mirror.naming definition.name = definition.name

theorem infers_against (expected : Ty) (span : Span) (term : Term) :
    mirror.Infers (against expected span term)
    (against expected span (term.rename mirror.naming)) := by
  rw [against, against, Term.ty_rename]
  exact (fixes_unify _ _ _).bind fun _ => .pure trivial

theorem fixes_noEscape (rigid fixed : List TyVar) (span : Span) :
    mirror.Fixes (noEscape rigid fixed span) := by
  unfold noEscape
  split
  · exact .get fun _ _ => follows_fail _ _
  · exact .pure trivial

theorem fixes_openFlexible (ty : Ty) (span : Span) : mirror.Fixes (openFlexible ty span) :=
  (fixes_ending fun _ => rfl).bind fun _ => gives_onSubst _

theorem fixes_openRigid (vars : List TyVar) (body : Ty) (span : Span) :
    mirror.Fixes (openRigid vars body span) :=
  (fixes_ending fun _ => rfl).bind fun _ => gives_onSubst _

theorem infers_ctorValue (info : CtorInfo) : mirror.Infers (ctorValue info) (ctorValue info) := by
  refine (fixes_ctorInstance info).bind fun {found} _ => ?_
  obtain ⟨fields, result⟩ := found
  dsimp only [id]
  split
  · exact .pure trivial
  · exact (follows_mint (by decide)).bind fun _ => .pure trivial

theorem infers_identifier {name : Name} (kept : mirror.naming name = name) (span : Span) :
    mirror.Infers (identifier name span) (identifier name span) := by
  refine (fixes_lookupCtor? name).bind fun {known} _ => ?_
  cases known with
  | some info => exact infers_ctorValue info
  | none =>
    refine .get fun session _ => ?_
    have same : (mirror.session session).env.lookup? name = session.env.lookup? name :=
      session.env.lookup?_rename mirror.distinct kept
    simp only [same]
    cases session.env.lookup? name with
    | none => exact follows_fail _ _
    | some scheme =>
      refine (fixes_ending fun _ => rfl).bind fun _ => (gives_onSubst _).bind fun {ty} _ => ?_
      refine (fixes_openFlexible _ _).bind fun {ty} _ => .pure_of trivial ?_
      rw [Term.rename, kept]
      rfl

theorem fixes_appliedCtor? (func : Surface.Expr) : mirror.Fixes (appliedCtor? func) := by
  unfold appliedCtor?
  split
  · exact fixes_lookupCtor? _
  · exact .pure trivial

theorem fixes_acceptsArgument (info : CtorInfo) (arg : Surface.Expr) (span : Span) :
    mirror.Fixes (acceptsArgument info arg span) := by
  unfold acceptsArgument
  split
  · exact follows_fail _ _
  · exact .pure trivial

theorem follows_plainParam? {written : Surface.Pattern} (kept : mirror.Keeps written.names) :
    mirror.Follows anything (Option.map mirror.naming) (plainParam? written)
    (plainParam? written) := by
  unfold plainParam?
  split
  · exact (follows_mint (by decide)).map fun _ => ⟨trivial, rfl⟩
  · rename_i name
    refine (fixes_lookupCtor? _).bind fun {known} _ => ?_
    cases known with
    | some _ => exact .pure trivial
    | none =>
      have kept := kept name (List.mem_singleton_self _)
      exact .pure_of trivial (congrArg some kept.symm)
  · exact .pure trivial

theorem infers_inScope {body body' : Check Term} (infers : mirror.Infers body body')
    {bindings bindings' : List (Name × Scheme)}
    (renamed : bindings' = bindings.map fun (name, scheme) => (mirror.naming name, scheme))
    (expected : Ty)
    (span : Span) :
    mirror.Infers (inScope bindings do against expected span (← body))
      (inScope bindings' do against expected span (← body')) :=
  follows_inScope renamed (infers.bind fun _ => infers_against _ _ _)

theorem renamed_of_kept {α : Type} {entries : List α} {name : α → Name} {scheme : α → Scheme}
    (kept : ∀ entry ∈ entries, mirror.naming (name entry) = name entry) :
    (entries.map fun entry => (name entry, scheme entry)) =
      (entries.map fun entry => (name entry, scheme entry)).map fun (name, scheme) =>
      (mirror.naming name, scheme) := by
  rw [List.map_map]
  exact List.map_congr_left fun entry member => Prod.ext (kept entry member).symm rfl

theorem follows_armWith {written : Surface.Pattern} (kept : mirror.Keeps written.names)
    {body body' : Check Term}
    (infers : mirror.Infers body body') (scrutineeTy result : Ty) (span : Span) :
    mirror.Follows mirror.KeepsArm (Arm.rename mirror.naming)
    (armWith scrutineeTy result written span body)
      (armWith scrutineeTy result written span body') := by
  refine (gives_pattern written kept (List.forall_mem_nil _)).bind fun {found} keeps => ?_
  obtain ⟨⟨pat, patTy⟩, captures⟩ := found
  refine (fixes_unify _ _ _).bind fun _ => ?_
  refine (infers_inScope infers (renamed_of_kept keeps.2) _ _).bind fun _ => .pure_of keeps.1 ?_
  have same : pat.rename mirror.naming = pat := keeps.1
  rw [Arm.rename, same]

theorem rename_tuple (naming : Renaming) (terms : List Term) :
    (Term.tuple terms (.tuple (terms.map Term.ty))).rename naming =
      .tuple (terms.map (Term.rename naming))
      (.tuple ((terms.map (Term.rename naming)).map Term.ty)) := by
  rw [Term.rename, Term.renameAll_eq_map, List.map_map]
  exact congrArg (Term.tuple _)
    (congrArg Ty.tuple (List.map_congr_left fun term _ => (Term.ty_rename term).symm))

theorem rename_matchingLambda (naming : Renaming) (param : Name) (paramTy : Ty) (arms : List Arm)
    (result : Ty) : (matchingLambda param paramTy arms result).rename naming =
      matchingLambda (naming param) paramTy (arms.map (Arm.rename naming)) result := by
  rw [matchingLambda, Term.rename, Term.rename, Term.rename, Term.renameArms_eq_map]
  rfl

theorem follows_report {found found' : Session → List Diagnostic}
    (some : ∀ session, mirror.Admits session → found' (mirror.session session) =
      (found session).filter mirror.shows) :
    mirror.Follows anything id (modify fun session => (found session).foldl Session.warn session)
      (modify fun session => (found' session).foldl Session.warn session) := by
  intro session admits
  have mirrored : mirror.session ((found session).foldl Session.warn session) =
      (found' (mirror.session session)).foldl Session.warn (mirror.session session) := by
    rw [foldl_warn_eq, foldl_warn_eq, some session admits]
    simp only [Mirror.session, List.drop_append_of_le_length admits.since, List.filter_append,
      List.append_assoc]
  have leads : mirror.Leads session ((found session).foldl Session.warn session) := by
    rw [foldl_warn_eq]
    refine ⟨Nat.le_refl _, admits.options, ?_⟩
    rw [List.length_append]
    exact Nat.le_add_right_of_le admits.since
  exact ⟨leads, trivial, fun _ => congrArg (EStateM.Result.ok _) mirrored.symm⟩

/-- The second run looks for fewer findings, so it comes to an end where the first one does. -/
theorem follows_searching (pats : List Pat) (ty : Ty) (span : Span) :
    let searching := ending .endlessCoverage (fun session =>
      Coverage.ends session.options session.subst session.registry pats ty) span
    mirror.Follows anything id searching searching := by
  intro searching session admits
  have options : (mirror.session session).options = mirror.options' := rfl
  have subst : (mirror.session session).subst = session.subst := rfl
  have registry : (mirror.session session).registry = session.registry := rfl
  simp only [searching, ending_apply, options, subst, registry, admits.options]
  cases first : Coverage.ends mirror.options session.subst session.registry pats ty with
  | true =>
    rw [mirror.searches _ _ _ _ first]
    exact ⟨.refl admits, trivial, fun _ => rfl⟩
  | false =>
    refine ⟨.refl admits, fun counts _ => if_neg fun second => ?_⟩
    exact Bool.false_ne_true (first.symm.trans (mirror.refuses counts _ _ _ _ second))

theorem follows_reportCoverage (cases : List Surface.Case) {arms : List Arm}
    (kept : ∀ arm ∈ arms, mirror.KeepsArm arm) (scrutineeTy : Ty) (span : Span) :
    mirror.Follows anything id (reportCoverage cases arms scrutineeTy span)
      (reportCoverage cases (arms.map (Arm.rename mirror.naming)) scrutineeTy span) := by
  have pats : ((arms.map (Arm.rename mirror.naming)).zip cases).map
    (fun entry => (entry.1.pat, entry.2.span)) =
      (arms.zip cases).map fun entry => (entry.1.pat, entry.2.span) := by
    rw [List.zip_map_left, List.map_map]
    refine List.map_congr_left fun entry member => ?_
    have same : (entry.1.rename mirror.naming).pat = entry.1.pat :=
      kept _ (List.of_mem_zip member).1
    simp only [Function.comp_apply, Prod.map, id, same]
  unfold reportCoverage
  simp only [pats]
  refine (follows_searching _ _ _).bind fun _ => follows_report fun session admits => ?_
  rw [admits.options]
  exact mirror.warnings _ _ _ _ _

theorem fixes_placeholder (binding : Surface.Binding) : mirror.Fixes (placeholder binding) := by
  unfold placeholder
  split
  · exact fixes_freshVar.bind fun _ => .pure trivial
  · refine (fixes_writtenType _).bind fun {ty} _ => ?_
    dsimp only [id]
    split
    · exact (fixes_openRigid _ _ _).bind fun _ => .pure trivial
    · exact .pure trivial

theorem fixes_distinctBindings (seen : List Name) (bindings : List Surface.Binding) :
    mirror.Fixes (distinctBindings seen bindings) := by
  induction bindings generalizing seen with
  | nil => exact .pure trivial
  | cons binding bindings ih =>
    unfold distinctBindings
    split
    · exact follows_fail _ _
    · exact ih _

theorem follows_generalizeGroup (fixed : List TyVar)
    {group : List (Surface.Binding × (Ty × List TyVar) × Term)}
    (kept : ∀ entry ∈ group, mirror.naming entry.1.name = entry.1.name) :
    mirror.Follows
    (fun definitions => ∀ definition ∈ definitions, mirror.KeepsDefinition definition)
      (List.map (Definition.rename mirror.naming)) (generalizeGroup fixed group)
      (generalizeGroup fixed
        (group.map fun (binding, placeholder, value) =>
          (binding, placeholder, value.rename mirror.naming))) := by
  induction group with
  | nil => exact .pure nofun
  | cons entry group ih =>
    obtain ⟨binding, ⟨ty, rigid⟩, value⟩ := entry
    obtain ⟨here, others⟩ := List.forall_mem_cons.mp kept
    refine (fixes_noEscape _ _ _).bind fun _ => (fixes_ending fun _ => rfl).bind fun _ =>
      .get fun session _ => ?_
    refine (ih others).bind fun rest => .pure_of (List.forall_mem_cons.mpr ⟨here, rest⟩) ?_
    rw [List.map_cons, Definition.rename, here]
    rfl

/-- A group whose values are followed, with the definitions under their own names. -/
theorem follows_groupWith (recursive : Bool) {bindings : List Surface.Binding}
    (kept : ∀ binding ∈ bindings, mirror.naming binding.name = binding.name)
    {values values' : List Ty → Check (List Term)}
    (follows : ∀ types, mirror.InfersAll (values types) (values' types)) :
    mirror.Follows
    (fun definitions => ∀ definition ∈ definitions, mirror.KeepsDefinition definition)
      (List.map (Definition.rename mirror.naming)) (groupWith recursive bindings values)
      (groupWith recursive bindings values') := by
  have inferred : ∀ types outer span, mirror.Follows anything
      (Prod.map (List.map (Term.rename mirror.naming)) id)
      (do
        let terms ← values types
        ending .endless (fun session => session.env.walkableBelow outer session.subst) span
        let session ← get
        pure (terms, session.env.freeVarsBelow outer session.subst))
      (do
        let terms ← values' types
        ending .endless (fun session => session.env.walkableBelow outer session.subst) span
        let session ← get
        pure (terms, session.env.freeVarsBelow outer session.subst)) := fun types outer span =>
    (follows types).bind fun _ =>
      (fixes_ending fun session => session.env.walkableBelow_rename _ _).bind
      fun _ => .get fun session _ =>
        .pure_of trivial (Prod.ext rfl (session.env.freeVarsBelow_rename _ _))
  have generalized : ∀ fixed (placeholders : List (Ty × List TyVar)) (terms : List Term),
    mirror.Follows
      (fun definitions => ∀ definition ∈ definitions, mirror.KeepsDefinition definition)
      (List.map (Definition.rename mirror.naming))
      (generalizeGroup fixed (bindings.zip (placeholders.zip terms)))
      (generalizeGroup fixed
        (bindings.zip (placeholders.zip (terms.map (Term.rename mirror.naming))))) := by
    intro fixed placeholders terms
    have entries : bindings.zip (placeholders.zip (terms.map (Term.rename mirror.naming))) =
        (bindings.zip (placeholders.zip terms)).map
          fun (binding, placeholder, value) =>
            (binding, placeholder, value.rename mirror.naming) := by
      rw [List.zip_map_right, List.zip_map_right]
      rfl
    rw [entries]
    exact follows_generalizeGroup fixed fun entry member => kept _ (List.of_mem_zip member).1
  refine (fixes_distinctBindings [] bindings).bind fun _ => ?_
  refine (Follows.mapM fun _ _ => fixes_placeholder _).bind fun {placeholders} _ =>
    .get fun session _ => ?_
  have depth : (mirror.session session).env.depth = session.env.depth := session.env.depth_rename
  simp only [depth]
  cases recursive with
  | false =>
    refine (inferred _ _ _).bind fun _ => (generalized _ _ _).bind fun keeps => .pure keeps
  | true =>
    have renamed : (bindings.map (·.name)).zip ((placeholders.map (·.1)).map Scheme.mono) =
        ((bindings.map (·.name)).zip ((placeholders.map (·.1)).map Scheme.mono)).map
          fun (name, scheme) => (mirror.naming name, scheme) := by
      refine ((List.map_congr_left fun entry member => ?_).trans (List.map_id _)).symm
      obtain ⟨name, scheme⟩ := entry
      obtain ⟨binding, inside, rfl⟩ := List.mem_map.mp (List.of_mem_zip member).1
      exact Prod.ext (kept binding inside) rfl
    refine (follows_inScope renamed (inferred _ _ _)).bind fun _ => (generalized _ _ _).bind
      fun keeps => ?_
    simp only [if_true, Term.validateGroup_rename mirror.distinct keeps]
    split
    · exact .throw _
    · exact .pure keeps

theorem infers_matchingLambda {written : List Surface.Case} {span : Span}
    (follows : ∀ scrutineeTy result, mirror.Follows (fun arms => ∀ arm ∈ arms, mirror.KeepsArm arm)
      (List.map (Arm.rename mirror.naming)) (inferCases scrutineeTy result written)
      (inferCases scrutineeTy result written)) :
    let check : Check Term := do
      let paramTy ← Check.freshVar
      let result ← Check.freshVar
      let param ← mint "a"
      let arms ← inferCases paramTy result written
      reportCoverage written arms paramTy span
      pure (matchingLambda param paramTy arms result)
    mirror.Infers check check := by
  refine fixes_freshVar.bind fun _ => fixes_freshVar.bind fun _ =>
    (follows_mint (by decide)).bind fun _ => ?_
  refine (follows _ _).bind fun kept => (follows_reportCoverage _ kept _ _).bind fun _ => ?_
  exact .pure_of trivial (rename_matchingLambda _ _ _ _ _).symm

end Steps

section Inference

mutual

theorem infers : ∀ written : Surface.Expr, mirror.Keeps written.names →
    mirror.Infers (infer written) (infer written)
  | .lit span value, _ => by
    unfold infer
    exact (fixes_literal value span).bind fun _ => .pure trivial
  | .ident span name, kept => by
    unfold infer
    exact infers_identifier (kept name (List.mem_singleton_self _)) span
  | .app span func arg, kept => by
    unfold infer
    unfold Surface.Expr.names at kept
    obtain ⟨kept, kept'⟩ := List.forall_mem_append.mp kept
    refine (fixes_appliedCtor? func).bind fun {applied} _ => ?_
    cases applied with
    | some info =>
      refine (fixes_acceptsArgument info arg span).bind fun _ =>
        (fixes_ctorInstance info).bind fun _ => ?_
      exact (infers arg kept').bind fun _ => (infers_against _ _ _).bind fun _ => .pure trivial
    | none =>
      refine (infers func kept).bind fun {function} _ => ?_
      simp only [Term.ty_rename]
      refine (fixes_openFlexible _ _).bind fun _ => (infers arg kept').bind fun {argument} _ => ?_
      simp only [Term.ty_rename]
      exact fixes_freshVar.bind fun _ => (fixes_unify _ _ _).bind fun _ => .pure trivial
  | .tuple _ [inner], kept => by
    unfold infer
    unfold Surface.Expr.names Surface.Expr.namesAll at kept
    exact infers inner (List.forall_mem_append.mp kept).1
  | .tuple _ [], kept => by
    unfold infer
    unfold Surface.Expr.names at kept
    exact (infersAll [] kept).bind fun _ => .pure_of trivial (rename_tuple _ _).symm
  | .tuple _ (first :: second :: rest), kept => by
    unfold infer
    unfold Surface.Expr.names at kept
    exact (infersAll (first :: second :: rest) kept).bind fun _ =>
      .pure_of trivial (rename_tuple _ _).symm
  | .lambda span [⟨caseSpan, written, body⟩], kept => by
    unfold infer
    unfold Surface.Expr.names Surface.Expr.namesCases at kept
    obtain ⟨patternKept, bodyKept⟩ := List.forall_mem_append.mp (List.forall_mem_append.mp kept).1
    refine fixes_freshVar.bind fun _ => fixes_freshVar.bind fun _ => ?_
    refine (follows_plainParam? patternKept).bind fun {plain} _ => ?_
    cases plain with
    | some name => exact (infers_inScope (infers body bodyKept) rfl _ _).bind fun _ => .pure trivial
    | none =>
      refine (follows_mint (by decide)).bind fun _ => ?_
      refine (follows_armWith patternKept (infers body bodyKept) _ _ _).bind fun {arm} keeps => ?_
      refine (follows_reportCoverage _ (List.forall_mem_singleton.mpr keeps) _ _).bind fun _ =>
        .pure_of trivial ?_
      rw [rename_matchingLambda]
      rfl
  | .lambda span [], kept => by
    unfold infer
    unfold Surface.Expr.names at kept
    exact infers_matchingLambda (infersCases [] kept)
  | .lambda span (⟨_, written, body⟩ :: second :: rest), kept => by
    unfold infer
    unfold Surface.Expr.names at kept
    exact infers_matchingLambda (infersCases (⟨_, written, body⟩ :: second :: rest) kept)
  | .letIn _ recursive bindings body, kept => by
    unfold infer
    unfold Surface.Expr.names at kept
    obtain ⟨kept, kept'⟩ := List.forall_mem_append.mp kept
    refine (follows_groupWith recursive
      (fun binding member => kept _ (Surface.Expr.mem_namesBindings member))
      (infersValues · bindings kept)).bind fun {definitions} keeps => ?_
    have renamed : ((definitions.map (Definition.rename mirror.naming)).map fun definition =>
        (definition.name, definition.scheme)) = (definitions.map fun definition =>
          (definition.name, definition.scheme)).map fun (name, scheme) =>
            (mirror.naming name, scheme) := by
      rw [List.map_map, List.map_map]
      rfl
    refine (follows_inScope renamed (infers body kept')).bind fun _ => .pure_of trivial ?_
    rw [Term.rename, Term.renameDefinitions_eq_map, Term.ty_rename]
  | .matchOn span scrutinee cases, kept => by
    unfold infer
    unfold Surface.Expr.names at kept
    obtain ⟨kept, kept'⟩ := List.forall_mem_append.mp kept
    refine (infers scrutinee kept).bind fun _ => fixes_freshVar.bind fun _ => ?_
    simp only [Term.ty_rename]
    refine (infersCases cases kept' _ _).bind fun keeps =>
      (follows_reportCoverage _ keeps _ _).bind fun _ => ?_
    refine .pure_of trivial ?_
    rw [Term.rename, Term.renameArms_eq_map]
    rfl
  | .ascribed span inner written, kept => by
    unfold infer
    unfold Surface.Expr.names at kept
    refine (fixes_writtenType written).bind fun _ => (fixes_ending fun _ => rfl).bind fun _ => ?_
    refine .get fun session _ => ?_
    have same : (mirror.session session).subst = session.subst := rfl
    simp only [id, same]
    split
    · refine (fixes_openRigid _ _ _).bind fun _ => (infers inner kept).bind fun _ => ?_
      have walkable : ∀ session,
      (mirror.session session).env.walkableBelow (mirror.session session).env.depth
          (mirror.session session).subst = session.env.walkableBelow session.env.depth
            session.subst :=
        fun session => by
          rw [← session.env.walkableBelow_rename, ← session.env.depth_rename]
          rfl
      refine (infers_against _ _ _).bind fun _ => (fixes_ending walkable).bind fun _ =>
        .get fun session _ => ?_
      have free : (mirror.session session).env.freeVars (mirror.session session).subst =
          session.env.freeVars session.subst := session.env.freeVars_rename _
      rw [free]
      refine (fixes_noEscape _ _ _).bind fun _ => (fixes_openFlexible _ _).bind fun _ =>
        .pure_of trivial ?_
      exact Term.withTy_rename _ _
    · exact (infers inner kept).bind fun _ => infers_against _ _ _
termination_by structural written => written

theorem infersAll : ∀ written : List Surface.Expr, mirror.Keeps (Surface.Expr.namesAll written) →
    mirror.InfersAll (inferAll written) (inferAll written)
  | [], _ => by
    unfold inferAll
    exact .pure trivial
  | first :: rest, kept => by
    unfold inferAll
    unfold Surface.Expr.namesAll at kept
    obtain ⟨kept, kept'⟩ := List.forall_mem_append.mp kept
    exact (infers first kept).bind fun _ => (infersAll rest kept').bind fun _ => .pure trivial
termination_by structural written => written

theorem infersCases : ∀ written : List Surface.Case,
    mirror.Keeps (Surface.Expr.namesCases written) →
    ∀ scrutineeTy result, mirror.Follows (fun arms => ∀ arm ∈ arms, mirror.KeepsArm arm)
      (List.map (Arm.rename mirror.naming)) (inferCases scrutineeTy result written)
      (inferCases scrutineeTy result written)
  | [], _, _, _ => by
    unfold inferCases
    exact .pure nofun
  | ⟨_, written, body⟩ :: rest, kept, _, _ => by
    unfold inferCases
    unfold Surface.Expr.namesCases at kept
    obtain ⟨kept, others⟩ := List.forall_mem_append.mp kept
    obtain ⟨patternKept, bodyKept⟩ := List.forall_mem_append.mp kept
    refine (follows_armWith patternKept (infers body bodyKept) _ _ _).bind fun keeps => ?_
    exact (infersCases rest others _ _).bind fun rest =>
      .pure (List.forall_mem_cons.mpr ⟨keeps, rest⟩)
termination_by structural written => written

theorem infersValues : ∀ (types : List Ty) (bindings : List Surface.Binding),
    mirror.Keeps (Surface.Expr.namesBindings bindings) →
    mirror.InfersAll (inferValues types bindings) (inferValues types bindings)
  | [], _, _ => by
    unfold inferValues
    exact .pure trivial
  | _ :: _, [], _ => by
    unfold inferValues
    exact .pure trivial
  | ty :: types, ⟨_, name, _, value⟩ :: rest, kept => by
    unfold inferValues
    unfold Surface.Expr.namesBindings at kept
    obtain ⟨kept, others⟩ := List.forall_mem_append.mp kept
    refine (infers value (List.forall_mem_cons.mp kept).2).bind fun _ =>
      (infers_against _ _ _).bind fun _ => ?_
    exact (infersValues types rest others).bind fun _ => .pure trivial
termination_by structural _ bindings => bindings

end

end Inference

section Units

variable (mirror) in
def KeepsDefinitions (checked : CheckedDecl) : Prop :=
  ∀ definition ∈ checked.definitions, mirror.KeepsDefinition definition

theorem follows_unit {written : Surface.Decl} (kept : mirror.Keeps written.names) :
    mirror.Follows mirror.KeepsDefinitions (CheckedDecl.rename mirror.naming) (unit written)
    (unit written) := by
  cases written with
  | data span types => exact (fixes_data types).map fun _ => ⟨List.forall_mem_nil _, rfl⟩
  | synonym span name params body =>
    exact (fixes_synonym name params body span).bind fun _ => .pure (List.forall_mem_nil _)
  | define span recursive bindings =>
    exact (follows_groupWith recursive
      (fun _ member => kept _ (Surface.Expr.mem_namesBindings member))
      (infersValues · bindings kept)).map fun keeps => ⟨keeps, rfl⟩
  | eval span expr => exact (infers expr kept).map fun _ => ⟨List.forall_mem_nil _, rfl⟩

theorem follows_resolvedUnit {written : Surface.Decl} (kept : mirror.Keeps written.names) :
    mirror.Follows mirror.KeepsDefinitions (CheckedDecl.rename mirror.naming) (resolvedUnit written)
      (resolvedUnit written) := by
  refine (follows_unit kept).bind fun {checked} keeps => ?_
  simp only [CheckedDecl.resolves_rename]
  exact (fixes_ending fun _ => rfl).bind fun _ => .pure keeps

theorem rename_truncate (naming : Renaming) (env : Env) (depth : Nat) :
    (env.truncate depth).rename naming = (env.rename naming).truncate depth := by
  rw [Env.truncate, Env.truncate, Env.depth_rename, Env.rename, Env.rename, List.map_drop]

/-- The definitions of a unit enter the top level under the names that they have in both runs. -/
theorem rename_bindGlobals {definitions : List Definition}
    (keeps : ∀ definition ∈ definitions, mirror.KeepsDefinition definition) (env : Env) :
    (definitions.foldl (fun env definition => env.bindGlobal definition.name definition.scheme)
      env).rename mirror.naming =
      (definitions.map (Definition.rename mirror.naming)).foldl
        (fun env definition => env.bindGlobal definition.name definition.scheme)
        (env.rename mirror.naming) := by
  induction definitions generalizing env with
  | nil => rfl
  | cons definition definitions ih =>
    obtain ⟨here, others⟩ := List.forall_mem_cons.mp keeps
    rw [List.foldl_cons, List.map_cons, List.foldl_cons, ih others]
    have same : (definition.rename mirror.naming).name = definition.name := here
    rw [same]
    rfl

theorem keepsDefinitions_zonk {checked : CheckedDecl} (keeps : mirror.KeepsDefinitions checked)
    (subst : Subst) : mirror.KeepsDefinitions (checked.zonk subst) := by
  cases checked with
  | data _ | synonym _ | eval _ => exact keeps
  | define recursive definitions =>
    have each : ∀ definitions : List Definition,
      (∀ definition ∈ definitions, mirror.KeepsDefinition definition) →
        ∀ definition ∈ Term.zonkDefinitions subst definitions,
        mirror.KeepsDefinition definition := by
      intro definitions
      induction definitions with
      | nil => exact fun _ => List.forall_mem_nil _
      | cons definition definitions ih =>
        intro keeps
        obtain ⟨here, others⟩ := List.forall_mem_cons.mp keeps
        obtain ⟨name, scheme, value⟩ := definition
        exact List.forall_mem_cons.mpr ⟨here, ih others⟩
    exact each definitions keeps

/-- A unit in two mirrored sessions: both accept it, with the same answer under other names, or both
refuse it for the same reason, and the sessions are mirrored again. -/
theorem follows_decl {written : Surface.Decl} (kept : mirror.Keeps written.names) :
    mirror.Follows anything (CheckedDecl.rename mirror.naming) (decl written) (decl written) := by
  intro session admits
  have followed := follows_resolvedUnit kept (opened session) ⟨admits.options, admits.since⟩
  have same : mirror.session (opened session) = opened (mirror.session session) := rfl
  rw [same] at followed
  cases run : resolvedUnit written (opened session) with
  | ok found reached =>
    rw [run] at followed
    obtain ⟨leads, keeps, mirrored⟩ := followed
    rw [decl_of_ok run]
    refine ⟨⟨leads.names, leads.admits.options, leads.admits.since⟩, trivial, fun shifts => ?_⟩
    rw [decl_of_ok (mirrored shifts)]
    have answer : (found.rename mirror.naming).zonk (mirror.session reached).subst =
        (found.zonk reached.subst).rename mirror.naming := found.zonk_rename reached.subst
    rw [answer, CheckedDecl.definitions_rename]
    refine congrArg (EStateM.Result.ok _) ?_
    simp only [Mirror.session, rename_bindGlobals (keepsDefinitions_zonk keeps reached.subst)]
  | error error reached =>
    rw [run] at followed
    obtain ⟨leads, mirrored⟩ := followed
    rw [decl_of_error run]
    refine ⟨⟨leads.names, leads.admits.options, leads.admits.since⟩, fun counts shifts => ?_⟩
    rw [decl_of_error (mirrored counts shifts)]
    refine congrArg (EStateM.Result.error _) ?_
    simp only [Mirror.session, rename_truncate, Env.depth_rename]

end Units

end Mirror

end PolyCheck
