import PolyCheck.Proofs.Session.Reading
import PolyCheck.Proofs.Session.Relabelled

/-! Inference in relabelled sessions. The terms have other variables in their types and are
otherwise the same. A type is instantiated, a quantifier opened and a binding generalized after the
walks have come to an end, and what they find corresponds. -/
namespace PolyCheck.Check

open Run

variable {label : TyVar → TyVar}

section Pattern

/-- What has been captured, at types over other variables. -/
def relabelCaptures (label : TyVar → TyVar) : Captures → Captures :=
  List.map (Prod.map id (Ty.relabel label))

/-- A pattern and its type over other variables. -/
def relabelFound (label : TyVar → TyVar) : Pat × Ty → Pat × Ty := Prod.map id (Ty.relabel label)

abbrev CapturingMatches (label : TyVar → TyVar) {α γ : Type} (image : α → γ) (check : Capturing α)
    (check' : Capturing γ) : Prop :=
  StateMatches label image (relabelCaptures label) check check'

theorem any_relabelCaptures (captures : Captures) (name : Name) :
    (relabelCaptures label captures).any (·.1 = name) = captures.any (·.1 = name) := by
  rw [relabelCaptures, List.any_map]
  rfl

theorem matches_addCapture (name : Name) (ty : Ty) (span : Span) :
    CapturingMatches label id (addCapture name ty span)
    (addCapture name (ty.relabel label) span) := by
  refine .get fun captures => ?_
  rw [any_relabelCaptures]
  split
  · exact StateMatches.lift (.fail _ _ _ _) captures
  · refine StateMatches.replaced ?_ captures
    rw [relabelCaptures, List.map_append]
    rfl

theorem unsharedCapture?_eq (shared own : Captures) : unsharedCapture? shared own =
    ((shared.find? fun capture => !own.any (·.1 = capture.1)).or
      (own.find? fun capture => !shared.any (·.1 = capture.1))).map (·.1) := rfl

theorem unsharedCapture?_relabel (shared own : Captures) :
    unsharedCapture? (relabelCaptures label shared) (relabelCaptures label own) =
      unsharedCapture? shared own := by
  have missing : ∀ captures others : Captures,
      ((relabelCaptures label captures).find? fun capture => !others.any (·.1 = capture.1)) =
        (captures.find? fun capture => !others.any (·.1 = capture.1)).map
          (Prod.map id (Ty.relabel label)) :=
    fun captures others => List.find?_map
  simp only [unsharedCapture?_eq, any_relabelCaptures, missing, ← Option.map_or, Option.map_map]
  rfl

theorem lookup_relabelCaptures (captures : Captures) (name : Name) :
    (relabelCaptures label captures).lookup name = (captures.lookup name).map
    (Ty.relabel label) := by
  induction captures with
  | nil => rfl
  | cons capture captures ih =>
    obtain ⟨other, ty⟩ := capture
    change List.lookup name ((other, ty.relabel label) :: _) =
      (List.lookup name ((other, ty) :: _)).map _
    rw [List.lookup_cons, List.lookup_cons]
    cases name == other with
    | true => rfl
    | false => exact ih

theorem matches_agree (shared own : Captures) (span : Span) :
    Matches label id (agree shared own span)
    (agree (relabelCaptures label shared) (relabelCaptures label own) span) := by
  unfold agree
  rw [unsharedCapture?_relabel]
  cases unsharedCapture? shared own with
  | some name => exact .fail _ _ _ _
  | none =>
    refine .forM fun capture _ => ?_
    obtain ⟨name, ty⟩ := capture
    dsimp only [Prod.map, id]
    rw [lookup_relabelCaptures]
    cases shared.lookup name with
    | some sharedTy => exact matches_unify _ _ _
    | none => exact .pure ()

theorem matches_wildFields (span : Span) (fields : List Ty) :
    Matches label id (wildFields span fields)
    (wildFields span (fields.map (Ty.relabel label))) := by
  induction fields with
  | nil => exact .pure []
  | cons field fields ih =>
    refine matches_freshVar.bind fun _ => (matches_unify _ _ _).bind fun _ => ?_
    exact ih.bind fun rest => .pure (Pat.any :: rest)

/-- A constructor with the types of its fields and of its result, over other variables. -/
def relabelCtor (label : TyVar → TyVar) : CtorInfo × List Ty × Ty → CtorInfo × List Ty × Ty :=
  Prod.map id (Prod.map (List.map (Ty.relabel label)) (Ty.relabel label))

theorem matches_ctorPattern (name : Name) (span : Span) :
    Matches label (relabelCtor label) (ctorPattern name span) (ctorPattern name span) := by
  refine (matches_lookupCtor? name).bind fun known => ?_
  cases known with
  | none => exact .fail _ _ _ _
  | some info => exact (matches_ctorInstance info).bind fun (fields, result) => .pure (info,
      fields, result)

theorem matches_expectFields (name : Name) (expected found : Nat) (span : Span) :
    Matches label id (expectFields name expected found span)
    (expectFields name expected found span) := by
  unfold expectFields
  split
  · exact .pure ()
  · exact .fail _ _ _ _

theorem matches_fields {name : Name} (info : CtorInfo) (result : Ty)
    {check check' : Capturing (List Pat)}
    (matched : CapturingMatches label id check check') : CapturingMatches label (relabelFound label)
      (check >>= fun pats => pure (.ctor name info.template info.index pats, result))
      (check' >>= fun pats =>
        pure (.ctor name info.template info.index pats, result.relabel label)) :=
  matched.bind fun pats => .pure (Pat.ctor name info.template info.index pats, result)

theorem relabelFound_tuple (elems : List (Pat × Ty)) :
    (Pat.tuple ((elems.map (relabelFound label)).map (·.1)),
      Ty.tuple ((elems.map (relabelFound label)).map (·.2))) =
      relabelFound label (Pat.tuple (elems.map (·.1)), Ty.tuple (elems.map (·.2))) := by
  rw [relabelFound, Prod.map, Ty.relabel, Ty.relabelAll_eq_map, List.map_map, List.map_map,
    List.map_map]
  rfl

mutual

theorem matches_pattern : ∀ written : Surface.Pattern,
    CapturingMatches label (relabelFound label) (pattern written) (pattern written)
  | .wild _ => by
    unfold pattern
    exact (StateMatches.lift matches_freshVar).bind fun ty => .pure (Pat.any, ty)
  | .lit span value => by
    unfold pattern
    exact (StateMatches.lift (matches_literal value span)).bind fun (constant, ty) =>
      .pure (Pat.ofConstant constant, ty)
  | .bind span name => by
    unfold pattern
    refine (StateMatches.lift (matches_lookupCtor? name)).bind fun known => ?_
    cases known with
    | some _ =>
      refine (StateMatches.lift (matches_ctorPattern name span)).bind fun (info, fields,
        result) => ?_
      simp only [relabelCtor, Prod.map, List.length_map, id]
      exact (StateMatches.lift (matches_expectFields _ _ _ _)).bind fun _ =>
        .pure (Pat.ctor name info.template info.index [], result)
    | none =>
      refine (StateMatches.lift matches_freshVar).bind fun ty =>
        (matches_addCapture name ty span).bind fun _ => ?_
      exact .pure (Pat.capturing name, ty)
  | .tuple _ [inner] => by
    unfold pattern
    exact matches_pattern inner
  | .tuple _ [] => by
    unfold pattern
    exact (matches_elementPatterns []).bind fun elems => .pure_of (relabelFound_tuple elems)
  | .tuple _ (first :: second :: rest) => by
    unfold pattern
    exact (matches_elementPatterns (first :: second :: rest)).bind fun elems =>
      .pure_of (relabelFound_tuple elems)
  | .ctor span name args => by
    unfold pattern
    refine (StateMatches.lift (matches_ctorPattern name span)).bind fun (info, fields, result) => ?_
    simp only [relabelCtor, Prod.map, List.length_map, id]
    split
    · split
      · exact matches_fields info result (matches_fieldPatterns _ _)
      · refine (StateMatches.lift (matches_expectFields _ _ _ _)).bind fun _ => ?_
        exact matches_fields info result (matches_fieldPatterns _ _)
    · split
      · exact matches_fields info result (.lift (matches_wildFields _ _))
      · refine (StateMatches.lift (matches_expectFields _ _ _ _)).bind fun _ => ?_
        exact matches_fields info result (.lift (matches_wildFields _ _))
    · refine (StateMatches.lift (matches_expectFields _ _ _ _)).bind fun _ => ?_
      exact matches_fields info result (matches_fieldPatterns _ _)
  | .ascribed span inner type => by
    unfold pattern
    refine (matches_pattern inner).bind fun (pat, found) => ?_
    refine (StateMatches.lift (matches_writtenType type)).bind fun expected => ?_
    exact (StateMatches.lift (matches_unify _ _ _)).bind fun _ => .pure (pat, expected)
  | .oneOf _ [] => by
    unfold pattern
    exact (StateMatches.lift matches_freshVar).bind fun ty => .pure (Pat.oneOf [], ty)
  | .oneOf span (first :: rest) => by
    unfold pattern
    refine (StateMatches.lift (matches_pattern first [])).bind fun ((pat, ty), shared) => ?_
    refine (StateMatches.lift (matches_alternativePatterns rest ty shared)).bind fun pats => ?_
    refine (StateMatches.forM fun (name, captureTy) _ => matches_addCapture name captureTy
      span).bind fun _ => ?_
    simp only [id]
    split
    · exact .pure (pat, ty)
    · exact .pure (Pat.oneOf (pat :: pats), ty)
termination_by written => sizeOf written

theorem matches_elementPatterns : ∀ written : List Surface.Pattern,
    CapturingMatches label (List.map (relabelFound label)) (elementPatterns written)
      (elementPatterns written)
  | [] => by
    unfold elementPatterns
    exact .pure []
  | first :: rest => by
    unfold elementPatterns
    exact (matches_pattern first).bind
      fun first => (matches_elementPatterns rest).bind fun rest => .pure (first :: rest)
termination_by written => sizeOf written

theorem matches_fieldPatterns : ∀ (written : List Surface.Pattern) (fields : List Ty),
    CapturingMatches label id (fieldPatterns written fields)
      (fieldPatterns written (fields.map (Ty.relabel label)))
  | [], _ => by
    unfold fieldPatterns
    exact .pure []
  | _ :: _, [] => by
    unfold fieldPatterns
    exact .pure []
  | arg :: args, field :: fields => by
    unfold fieldPatterns
    refine (matches_pattern arg).bind fun (pat, ty) =>
      (StateMatches.lift (matches_unify _ _ _)).bind fun _ => ?_
    exact (matches_fieldPatterns args fields).bind fun rest => .pure (pat :: rest)
termination_by written => sizeOf written

theorem matches_alternativePatterns : ∀ (written : List Surface.Pattern) (ty : Ty)
    (shared : Captures), Matches label id (alternativePatterns ty shared written)
      (alternativePatterns (ty.relabel label) (relabelCaptures label shared) written)
  | [], _, _ => by
    unfold alternativePatterns
    exact .pure []
  | alternative :: rest, ty, shared => by
    unfold alternativePatterns
    refine (matches_pattern alternative []).bind fun ((pat, ownTy), own) => ?_
    refine (matches_unify _ _ _).bind fun _ => (matches_agree _ _ _).bind fun _ => ?_
    exact (matches_alternativePatterns rest ty shared).bind fun rest => .pure (pat :: rest)
termination_by written => sizeOf written

end

end Pattern

section Steps

variable {subst subst' : Subst} {ty : Ty}

theorem zonk_relabel (here : subst.Corresponds label subst')
    (ended : (subst.zonk? ty).isSome = true)
    (ended' : (subst'.zonk? (ty.relabel label)).isSome = true) :
    subst'.zonk (ty.relabel label) = (subst.zonk ty).relabel label := by
  obtain ⟨resolved, walk⟩ := Option.isSome_iff_exists.mp ended
  obtain ⟨resolved', walk'⟩ := Option.isSome_iff_exists.mp ended'
  rw [Subst.zonk, Subst.zonk, walk, walk', Option.getD_some, Option.getD_some,
    here.zonk_eq walk walk']

theorem instance_relabel (here : subst.Relabelled label subst') {after after' : Subst}
    (longer : subst.Lengthened after)
    (longer' : subst'.Lengthened after') (ended : (subst.zonk? ty).isSome = true)
    (ended' : (subst'.zonk? (ty.relabel label)).isSome = true) (vars : List TyVar)
    {fresh fresh' : List TyVar}
    (same : fresh' = fresh.map label) :
    (after'.zonk (ty.relabel label)).substitute (.ofLists (vars.map label) (fresh'.map .var)) =
      ((after.zonk ty).substitute (.ofLists vars (fresh.map .var))).relabel label := by
  obtain ⟨resolved, walk⟩ := Option.isSome_iff_exists.mp ended
  obtain ⟨resolved', walk'⟩ := Option.isSome_iff_exists.mp ended'
  rw [longer.zonk here.ends walk, longer'.zonk here.ends' walk', here.zonk_eq walk walk',
    Ty.relabel_instance here.injective, Ty.relabel_vars, same]

theorem matched_onSubst {α γ : Type} {image : α → γ} {change : Subst → α × Subst}
    {change' : Subst → γ × Subst}
    {session session' : Session} (here : session.Relabelled label session')
    (there : (change session.subst).2.Relabelled label (change' session'.subst).2)
    (same : (change' session'.subst).1 = image (change session.subst).1) :
    Mirrored label image (onSubst change session) (onSubst change' session') := by
  change Mirrored label image (.ok _ _) (.ok _ _)
  rw [same]
  exact .ok ⟨there, here.registry, here.fixed, here.env, here.names, here.options⟩

theorem matches_openFlexible (ty : Ty) (span : Span) :
    Matches label (Ty.relabel label) (openFlexible ty span)
    (openFlexible (ty.relabel label) span) := by
  refine .ending rfl fun {session session'} here opens opens' => ?_
  rw [Subst.opens] at opens opens'
  cases walk : session.subst.shallow? ty with
  | none => simp [walk] at opens
  | some head =>
    cases walk' : session'.subst.shallow? (ty.relabel label) with
    | none => simp [walk'] at opens'
    | some head' =>
      obtain rfl := here.subst.shallow_eq walk walk'
      rw [walk] at opens
      rw [walk'] at opens'
      cases head with
      | quantified vars body =>
        obtain ⟨there, fresh⟩ := here.subst.pushMany Cell.isNew_unbound rfl vars.length
        obtain ⟨longer, -⟩ := session.subst.lengthened_pushMany Cell.isNew_unbound vars.length
        obtain ⟨longer', -⟩ := session'.subst.lengthened_pushMany Cell.isNew_unbound vars.length
        refine matched_onSubst here ?_ ?_
        · simpa only [Subst.shallow, walk, walk', Option.getD_some, Ty.relabel,
            List.length_map] using there
        · simp only [Subst.shallow, walk, walk', Option.getD_some, Ty.relabel, List.length_map]
          exact instance_relabel here.subst longer longer' opens opens' vars fresh
      | var | arrow | tuple | nominal | app =>
        refine matched_onSubst here ?_ ?_
        · simpa only [Subst.shallow, walk, walk', Option.getD_some, Ty.relabel] using here.subst
        · simp only [Subst.shallow, walk, walk', Option.getD_some, Ty.relabel]

theorem rigidCopies_relabel (here : subst.Relabelled label subst') (vars : List TyVar) :
    (rigidCopies subst vars).2.Relabelled label (rigidCopies subst' (vars.map label)).2 ∧
      (rigidCopies subst' (vars.map label)).1 = (rigidCopies subst vars).1.map label := by
  induction vars generalizing subst subst' with
  | nil => exact ⟨here, rfl⟩
  | cons v vars ih =>
    rw [List.map_cons, rigidCopies, rigidCopies, here.rigidName?]
    obtain ⟨there, first⟩ := here.push (Cell.isNew_rigid (subst.rigidName? v)) rfl
    obtain ⟨there, rest⟩ := ih there
    exact ⟨there, List.cons_eq_cons.mpr ⟨first, rest⟩⟩

/-- A type with rigid variables, over other variables. -/
def relabelOpened (label : TyVar → TyVar) : List TyVar × Ty → List TyVar × Ty :=
  Prod.map (List.map label) (Ty.relabel label)

theorem matches_openRigid (vars : List TyVar) (body : Ty) (span : Span) :
    Matches label (relabelOpened label) (openRigid vars body span)
      (openRigid (vars.map label) (body.relabel label) span) := by
  refine .ending rfl fun {session session'} here ended ended' => ?_
  obtain ⟨there, copies⟩ := rigidCopies_relabel here.subst vars
  refine matched_onSubst here there ?_
  obtain ⟨longer, -⟩ := rigidCopies_lengthened vars session.subst
  obtain ⟨longer', -⟩ := rigidCopies_lengthened (vars.map label) session'.subst
  exact Prod.ext copies (instance_relabel here.subst longer longer' ended ended' vars copies)

theorem matches_noEscape (injective : Function.Injective label) (rigid fixed : List TyVar)
    (span : Span) :
    Matches label id (noEscape rigid fixed span)
    (noEscape (rigid.map label) (fixed.map label) span) := by
  have found : (rigid.map label).find? ((fixed.map label).contains ·) =
      (rigid.find? (fixed.contains ·)).map label := by
    rw [List.find?_map]
    refine congrArg (Option.map label) (congrArg (List.find? · rigid) (funext fun v => ?_))
    simp [injective.eq_iff]
  unfold noEscape
  rw [found]
  cases rigid.find? (fixed.contains ·) with
  | some v => exact .get fun _ => .fail _ _ _ _
  | none => exact .pure ()

theorem matches_against (expected : Ty) (span : Span) (term : Term) :
    Matches label (Term.relabel label) (against expected span term)
      (against (expected.relabel label) span (term.relabel label)) := by
  unfold against
  rw [Term.ty_relabel]
  exact (matches_unify _ _ _).bind fun _ => .pure term

theorem matches_ctorValue (info : CtorInfo) : Matches label (Term.relabel label) (ctorValue info)
    (ctorValue info) := by
  refine (matches_ctorInstance info).bind fun (fields, result) => ?_
  simp only [Prod.map]
  split
  · exact .pure (Term.ctor info.name info.template info.index none result)
  · refine (matches_mint _).bind fun param => ?_
    refine .pure_of ?_
    simp only [id, Term.relabel, Term.relabelOption, Ty.relabel, Ty.relabel_tupled]

theorem matched_instantiate {session session' : Session} (here : session.Relabelled label session')
    {scheme : Scheme} (ended : (session.subst.zonk? scheme.ty).isSome = true)
    (ended' : (session'.subst.zonk? (scheme.ty.relabel label)).isSome = true) :
    Mirrored label (Ty.relabel label) (onSubst scheme.instantiate session)
      (onSubst (scheme.relabel label).instantiate session') := by
  obtain ⟨vars, ty⟩ := scheme
  cases vars with
  | nil => exact matched_onSubst here here.subst (zonk_relabel here.subst.toCorresponds
      ended ended')
  | cons v vars =>
    obtain ⟨there, fresh⟩ := here.subst.pushMany Cell.isNew_unbound rfl (v :: vars).length
    have whole := instance_relabel here.subst (Subst.lengthened_refl _) (Subst.lengthened_refl _)
      ended ended' (v :: vars) fresh
    refine matched_onSubst here ?_ ?_
    · simpa only [Scheme.instantiate, Scheme.relabel, List.isEmpty_map, List.isEmpty_cons,
        List.length_map, Bool.false_eq_true, if_false] using there
    · simpa only [Scheme.instantiate, Scheme.relabel, List.isEmpty_map, List.isEmpty_cons,
        List.length_map, Bool.false_eq_true, if_false] using whole

theorem matches_identifier (name : Name) (span : Span) :
    Matches label (Term.relabel label) (identifier name span) (identifier name span) := by
  refine (matches_lookupCtor? name).bind fun known => ?_
  cases known with
  | some info => exact matches_ctorValue info
  | none =>
    refine .get fun {session session'} here => ?_
    simp only [here.env, Env.lookup?_relabel]
    cases session.env.lookup? name with
    | none => exact .fail _ _ _ _
    | some scheme =>
      refine .ending rfl fun here ended ended' => ?_
      refine (matched_instantiate here ended ended').bind fun {ty _ _} there => ?_
      exact ((matches_openFlexible ty span).bind fun ty => .pure (Term.var name ty)) _ _ there

theorem matches_appliedCtor? (func : Surface.Expr) : Matches label id (appliedCtor? func)
    (appliedCtor? func) := by
  unfold appliedCtor?
  split
  · exact matches_lookupCtor? _
  · exact .pure none

theorem matches_acceptsArgument (info : CtorInfo) (arg : Surface.Expr) (span : Span) :
    Matches label id (acceptsArgument info arg span) (acceptsArgument info arg span) := by
  unfold acceptsArgument
  split
  · exact .fail _ _ _ _
  · exact .pure ()

theorem matches_plainParam? (written : Surface.Pattern) :
    Matches label id (plainParam? written) (plainParam? written) := by
  unfold plainParam?
  split
  · exact (matches_mint _).map fun _ => rfl
  · refine (matches_lookupCtor? _).bind fun known => ?_
    cases known with
    | some _ => exact .pure none
    | none => exact .pure (some _)
  · exact .pure none

theorem matches_armWith (scrutineeTy result : Ty) (written : Surface.Pattern) (span : Span)
    {body : Check Term}
    (infers : Matches label (Term.relabel label) body body) : Matches label (Arm.relabel label)
      (armWith scrutineeTy result written span body)
      (armWith (scrutineeTy.relabel label) (result.relabel label) written span body) := by
  refine (matches_pattern written []).bind fun ((pat, patTy), captures) => ?_
  refine (matches_unify _ _ _).bind fun _ => ?_
  have bindings : relabelBindings label (captures.map fun capture => (capture.1, .mono capture.2)) =
      (relabelCaptures label captures).map fun capture => (capture.1, .mono capture.2) := by
    rw [relabelCaptures, relabelBindings, List.map_map, List.map_map]
    rfl
  have inside : Matches label (Term.relabel label) (do against result span (← body))
      (do against (result.relabel label) span (← body)) :=
        infers.bind fun term => matches_against _ _ term
  have around := matches_inScope inside (captures.map fun capture => (capture.1, .mono capture.2))
  rw [bindings] at around
  exact around.bind fun body => .pure (Arm.mk pat body)

theorem relabel_matchingLambda (param : Name) (paramTy : Ty) (arms : List Arm) (result : Ty) :
    matchingLambda param (paramTy.relabel label) (arms.map (Arm.relabel label))
    (result.relabel label) = (matchingLambda param paramTy arms result).relabel label := by
  rw [matchingLambda, matchingLambda, Term.relabel, Term.relabel, Term.relabel,
    Term.relabelArms_eq_map, Ty.relabel]

theorem matches_reportCoverage (cases : List Surface.Case) (arms : List Arm) (scrutineeTy : Ty)
    (span : Span) : Matches label id (reportCoverage cases arms scrutineeTy span)
      (reportCoverage cases (arms.map (Arm.relabel label)) (scrutineeTy.relabel label) span) := by
  refine .ending rfl fun {session session'} here _ _ => ?_
  change Mirrored label id (.ok PUnit.unit _) (.ok PUnit.unit _)
  refine .ok ?_
  dsimp only
  rw [foldl_warn_eq, foldl_warn_eq]
  exact ⟨here.subst, here.registry, here.fixed, here.env, here.names, here.options⟩

theorem matches_matchingLambda {written : List Surface.Case} {span : Span}
    (matched : ∀ scrutineeTy result, Matches label (List.map (Arm.relabel label))
      (inferCases scrutineeTy result written)
      (inferCases (scrutineeTy.relabel label) (result.relabel label) written)) :
    let check : Check Term := do
      let paramTy ← freshVar
      let result ← freshVar
      let param ← mint "a"
      let arms ← inferCases paramTy result written
      reportCoverage written arms paramTy span
      pure (matchingLambda param paramTy arms result)
    Matches label (Term.relabel label) check check := by
  refine matches_freshVar.bind fun paramTy => matches_freshVar.bind fun result =>
    (matches_mint _).bind fun param => ?_
  refine (matched _ _).bind fun arms => (matches_reportCoverage _ _ _ _).bind fun _ => ?_
  exact .pure_of (relabel_matchingLambda param paramTy arms result)

def relabelPlaceholder (label : TyVar → TyVar) : Ty × List TyVar → Ty × List TyVar :=
  Prod.map (Ty.relabel label) (List.map label)

theorem matches_placeholder (binding : Surface.Binding) :
    Matches label (relabelPlaceholder label) (placeholder binding) (placeholder binding) := by
  unfold placeholder
  split
  · exact matches_freshVar.bind fun ty => .pure (ty, [])
  · refine (matches_writtenType _).bind fun ty => ?_
    cases ty with
    | quantified vars body =>
      exact (matches_openRigid _ _ _).bind fun (rigid, body) => .pure (body, rigid)
    | var | arrow | tuple | nominal | app => exact .pure (_, [])

theorem matches_distinctBindings (seen : List Name) (bindings : List Surface.Binding) :
    Matches label id (distinctBindings seen bindings) (distinctBindings seen bindings) := by
  induction bindings generalizing seen with
  | nil => exact .pure ()
  | cons binding bindings ih =>
    unfold distinctBindings
    split
    · exact .fail _ _ _ _
    · exact ih _

theorem generalize_relabel (here : subst.Corresponds label subst')
    (resolves : (subst.zonk? ty).isSome = true)
    (searches : (subst.freeVars? (subst.zonk ty)).isSome = true)
    (resolves' : (subst'.zonk? (ty.relabel label)).isSome = true)
    (searches' : (subst'.freeVars? (subst'.zonk (ty.relabel label))).isSome = true)
    (fixed : List TyVar) :
    Scheme.generalize subst' (fixed.map label) (ty.relabel label) =
    (Scheme.generalize subst fixed ty).relabel label := by
  have whole := zonk_relabel here resolves resolves'
  rw [whole] at searches'
  obtain ⟨free, search⟩ := Option.isSome_iff_exists.mp searches
  obtain ⟨free', search'⟩ := Option.isSome_iff_exists.mp searches'
  obtain rfl := here.freeVars_eq search search'
  rw [Scheme.generalize, Scheme.generalize, Scheme.relabel, whole, Subst.freeVars, Subst.freeVars,
    search, search', Option.getD_some, Option.getD_some, List.filter_map]
  refine congrArg (Scheme.mk · _)
    (congrArg (List.map label) (List.filter_congr fun v _ => congrArg not ?_))
  simp [here.injective.eq_iff]

theorem matches_generalizeGroup (injective : Function.Injective label) (fixed : List TyVar)
    (group : List (Surface.Binding × (Ty × List TyVar) × Term)) :
    Matches label (List.map (Definition.relabel label)) (generalizeGroup fixed group)
      (generalizeGroup (fixed.map label)
        (group.map (Prod.map id (Prod.map (relabelPlaceholder label) (Term.relabel label))))) := by
  induction group with
  | nil => exact .pure []
  | cons entry group ih =>
    obtain ⟨binding, ⟨ty, rigid⟩, value⟩ := entry
    refine (matches_noEscape injective rigid fixed _).bind fun _ =>
      .ending rfl fun {session session'} here ended ended' => ?_
    obtain ⟨resolves, searches⟩ := Bool.and_eq_true_iff.mp ended
    obtain ⟨resolves', searches'⟩ := Bool.and_eq_true_iff.mp ended'
    rw [bind_apply, bind_apply, get_apply, get_apply]
    dsimp only
    rw [generalize_relabel here.subst.toCorresponds resolves searches resolves' searches']
    exact (ih.bind fun rest => .pure (Definition.mk binding.name _ value :: rest)) _ _ here

theorem matches_groupWith (recursive : Bool) (bindings : List Surface.Binding)
    {values : List Ty → Check (List Term)}
    (matched : ∀ types, Matches label (List.map (Term.relabel label)) (values types)
      (values (types.map (Ty.relabel label)))) :
    Matches label (List.map (Definition.relabel label)) (groupWith recursive bindings values)
      (groupWith recursive bindings values) := by
  have inferred : ∀ types outer span,
    Matches label (Prod.map (List.map (Term.relabel label)) (List.map label)) (do
        let terms ← values types
        ending .endless (fun session => session.env.walkableBelow outer session.subst) span
        let session ← get
        pure (terms, session.env.freeVarsBelow outer session.subst))
      (do
        let terms ← values (types.map (Ty.relabel label))
        ending .endless (fun session => session.env.walkableBelow outer session.subst) span
        let session ← get
        pure (terms, session.env.freeVarsBelow outer session.subst)) := by
    intro types outer span
    refine (matched types).bind fun terms => .ending rfl fun {session session'} here walkable
      walkable' => ?_
    rw [here.env] at walkable'
    change Mirrored label _ (.ok _ session)
      (.ok (_, session'.env.freeVarsBelow outer session'.subst) session')
    rw [here.env, Env.freeVarsBelow_relabel here.subst.toCorresponds _ walkable walkable']
    exact .ok here
  have generalized : ∀ (injective : Function.Injective label) (fixed : List TyVar)
    (placeholders : List (Ty × List TyVar))
      (terms : List Term), Matches label (List.map (Definition.relabel label))
        (generalizeGroup fixed (bindings.zip (placeholders.zip terms)))
        (generalizeGroup (fixed.map label)
          (bindings.zip
            ((placeholders.map (relabelPlaceholder label)).zip
              (terms.map (Term.relabel label))))) := by
    intro injective fixed placeholders terms
    have entries :
      bindings.zip
        ((placeholders.map (relabelPlaceholder label)).zip (terms.map (Term.relabel label))) =
        (bindings.zip (placeholders.zip terms)).map
          (Prod.map id (Prod.map (relabelPlaceholder label) (Term.relabel label))) := by
      rw [List.zip_map, List.zip_map_right]
    rw [entries]
    exact matches_generalizeGroup injective fixed _
  refine (matches_distinctBindings [] bindings).bind fun _ => ?_
  refine (Matches.mapM matches_placeholder).bind fun placeholders =>
    .get fun {session session'} here => ?_
  have types : (placeholders.map (relabelPlaceholder label)).map (·.1) =
      (placeholders.map (·.1)).map (Ty.relabel label) := by
    rw [List.map_map, List.map_map]
    rfl
  simp only [here.env, Env.depth_relabel, types]
  cases recursive with
  | false =>
    exact (inferred _ _ _).bind fun (terms, fixed) => (generalized here.subst.injective _ _ _).bind
        fun definitions =>
      .pure definitions
  | true =>
    have scope : (bindings.map (·.name)).zip (((placeholders.map (·.1)).map (Ty.relabel label)).map
      Scheme.mono) =
        relabelBindings label
          ((bindings.map (·.name)).zip ((placeholders.map (·.1)).map Scheme.mono)) := by
      have monos : ((placeholders.map (·.1)).map (Ty.relabel label)).map Scheme.mono =
          ((placeholders.map (·.1)).map Scheme.mono).map (Scheme.relabel label) := by
        simp only [List.map_map]
        rfl
      rw [monos, List.zip_map_right]
      rfl
    simp only [if_true, scope]
    refine (matches_inScope (inferred _ _ _) _).bind fun (terms, fixed) => ?_
    refine (generalized here.subst.injective _ _ _).bind fun definitions => ?_
    rw [Term.validateGroup_relabel]
    split
    · exact .throw _ _
    · exact .pure definitions

theorem relabel_tuple (terms : List Term) :
    Term.tuple (terms.map (Term.relabel label))
    (.tuple ((terms.map (Term.relabel label)).map Term.ty)) =
      (Term.tuple terms (.tuple (terms.map Term.ty))).relabel label := by
  rw [Term.relabel, Ty.relabel, Term.relabelAll_eq_map, Ty.relabelAll_eq_map, List.map_map,
    List.map_map]
  exact congrArg (Term.tuple _)
    (congrArg Ty.tuple (List.map_congr_left fun term _ => Term.ty_relabel term))

mutual

theorem matches_infer : ∀ written : Surface.Expr, Matches label (Term.relabel label) (infer written)
    (infer written)
  | .lit span value => by
    unfold infer
    exact (matches_literal value span).bind fun (constant, ty) => .pure (Term.lit constant ty)
  | .ident span name => by
    unfold infer
    exact matches_identifier name span
  | .app span func arg => by
    unfold infer
    refine (matches_appliedCtor? func).bind fun applied => ?_
    cases applied with
    | some info =>
      refine (matches_acceptsArgument info arg span).bind fun _ => ?_
      refine (matches_ctorInstance info).bind fun (fields, result) =>
        (matches_infer arg).bind fun _ => ?_
      simp only [← Ty.relabel_tupled]
      refine (matches_against _ _ _).bind fun arg => ?_
      exact .pure (Term.ctor info.name info.template info.index (some arg) result)
    | none =>
      refine (matches_infer func).bind fun func => ?_
      rw [Term.ty_relabel]
      refine (matches_openFlexible _ _).bind fun funcTy => (matches_infer arg).bind fun arg => ?_
      rw [Term.ty_relabel]
      refine matches_freshVar.bind fun result => ?_
      exact (matches_unify funcTy (.arrow arg.ty result) span).bind fun _ =>
        .pure (Term.app func arg result)
  | .tuple _ [inner] => by
    unfold infer
    exact matches_infer inner
  | .tuple _ [] => by
    unfold infer
    exact (matches_inferAll []).bind fun elems => .pure_of (relabel_tuple elems)
  | .tuple _ (first :: second :: rest) => by
    unfold infer
    exact (matches_inferAll (first :: second :: rest)).bind fun elems =>
      .pure_of (relabel_tuple elems)
  | .lambda span [⟨caseSpan, written, body⟩] => by
    unfold infer
    refine matches_freshVar.bind fun paramTy => matches_freshVar.bind fun result => ?_
    refine (matches_plainParam? written).bind fun plain => ?_
    cases plain with
    | some name =>
      have inside : Matches label (Term.relabel label) (do against result body.span (← infer body))
          (do against (result.relabel label) body.span (← infer body)) :=
        (matches_infer body).bind fun term => matches_against _ _ term
      exact (matches_inScope inside [(name, .mono paramTy)]).bind fun body =>
        .pure (Term.lambda name paramTy body (.arrow paramTy result))
    | none =>
      refine (matches_mint _).bind fun param => ?_
      refine (matches_armWith paramTy result written body.span (matches_infer body)).bind
        fun arm => ?_
      exact (matches_reportCoverage _ [arm] _ _).bind fun _ =>
        .pure_of (relabel_matchingLambda param paramTy [arm] result)
  | .lambda span [] => by
    unfold infer
    exact matches_matchingLambda (matches_inferCases [])
  | .lambda span (⟨_, written, body⟩ :: second :: rest) => by
    unfold infer
    exact matches_matchingLambda (matches_inferCases (⟨_, written, body⟩ :: second :: rest))
  | .letIn _ recursive bindings body => by
    unfold infer
    refine (matches_groupWith recursive bindings (matches_inferValues · bindings)).bind
      fun definitions => ?_
    have entries : ((definitions.map (Definition.relabel label)).map fun definition =>
        (definition.name, definition.scheme)) =
          relabelBindings label (definitions.map fun definition =>
            (definition.name, definition.scheme)) := by
      rw [relabelBindings, List.map_map, List.map_map]
      rfl
    rw [entries]
    refine (matches_inScope (matches_infer body) _).bind fun body => .pure_of ?_
    rw [Term.relabel, Term.relabelDefinitions_eq_map, Term.ty_relabel]
  | .matchOn span scrutinee cases => by
    unfold infer
    refine (matches_infer scrutinee).bind fun scrutinee => matches_freshVar.bind fun result => ?_
    rw [Term.ty_relabel]
    refine (matches_inferCases cases _ _).bind fun arms => (matches_reportCoverage _ _ _ _).bind
      fun _ => .pure_of ?_
    rw [Term.relabel, Term.relabelArms_eq_map]
  | .ascribed span inner written => by
    unfold infer
    refine (matches_writtenType written).bind fun expected => .ending rfl fun {session session'}
      here ended ended' => ?_
    obtain ⟨head, walk⟩ := Option.isSome_iff_exists.mp ended
    obtain ⟨head', walk'⟩ := Option.isSome_iff_exists.mp ended'
    obtain rfl := here.subst.shallow_eq walk walk'
    rw [bind_apply, bind_apply, get_apply, get_apply]
    simp only [Subst.shallow, walk, walk', Option.getD_some]
    cases head with
    | quantified vars body =>
      refine ((matches_openRigid vars body span).bind fun (rigid, opened) =>
        (matches_infer inner).bind fun _ => ?_) _ _ here
      refine (matches_against _ _ _).bind fun term => .ending rfl fun {session session'} here
        walkable walkable' => ?_
      have free : session'.env.freeVars session'.subst =
          (session.env.freeVars session.subst).map label := by
        rw [here.env, Env.depth_relabel] at walkable'
        rw [here.env, Env.freeVars, Env.freeVars, Env.depth_relabel,
          Env.freeVarsBelow_relabel here.subst.toCorresponds _ walkable walkable']
      rw [bind_apply, bind_apply, get_apply, get_apply]
      dsimp only
      rw [free]
      refine ((matches_noEscape here.subst.injective rigid _ span).bind fun _ => ?_) _ _ here
      refine (matches_openFlexible (.quantified vars body) span).bind fun ty => .pure_of ?_
      exact Term.withTy_relabel ty term
    | var | arrow | tuple | nominal | app =>
      exact ((matches_infer inner).bind fun _ => matches_against _ _ _) _ _ here

theorem matches_inferAll : ∀ written : List Surface.Expr,
    Matches label (List.map (Term.relabel label)) (inferAll written) (inferAll written)
  | [] => by
    unfold inferAll
    exact .pure []
  | first :: rest => by
    unfold inferAll
    exact (matches_infer first).bind
      fun first => (matches_inferAll rest).bind fun rest => .pure (first :: rest)

theorem matches_inferCases : ∀ (written : List Surface.Case) (scrutineeTy result : Ty),
    Matches label (List.map (Arm.relabel label)) (inferCases scrutineeTy result written)
      (inferCases (scrutineeTy.relabel label) (result.relabel label) written)
  | [], _, _ => by
    unfold inferCases
    exact .pure []
  | ⟨_, written, body⟩ :: rest, scrutineeTy, result => by
    unfold inferCases
    refine (matches_armWith scrutineeTy result written body.span (matches_infer body)).bind
      fun first => ?_
    exact (matches_inferCases rest _ _).bind fun rest => .pure (first :: rest)

theorem matches_inferValues : ∀ (types : List Ty) (bindings : List Surface.Binding),
    Matches label (List.map (Term.relabel label)) (inferValues types bindings)
      (inferValues (types.map (Ty.relabel label)) bindings)
  | [], _ => by
    unfold inferValues
    exact .pure []
  | _ :: _, [] => by
    unfold inferValues
    exact .pure []
  | ty :: types, ⟨_, _, _, value⟩ :: rest => by
    unfold inferValues
    refine (matches_infer value).bind fun _ => (matches_against _ _ _).bind fun first => ?_
    exact (matches_inferValues types rest).bind fun rest => .pure (first :: rest)

end

theorem matches_expectExpr (value : Surface.Expr) (expected : Ty) :
    Matches label (Term.relabel label) (expectExpr value expected)
    (expectExpr value (expected.relabel label)) :=
  (matches_infer value).bind fun _ => matches_against _ _ _

end Steps

end PolyCheck.Check
