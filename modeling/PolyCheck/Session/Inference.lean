import PolyCheck.Session.Pattern
import PolyCheck.Session.Warning
import PolyCheck.Surface
import PolyCheck.Term.Recursion

/-! Inference of types. Every expression becomes a typed term; where a type is required, the
inferred type is made equal to it. A group of bindings is checked against its annotations or new
variables, then every binding is generalized over what is free in its type and not in the scope
around the group. The quantifier at the head of an annotation is opened with rigid variables, so the
value must be as polymorphic as it says. -/
namespace PolyCheck.Check

def openFlexible (ty : Ty) (span : Span) : Check Ty := do
  ending .endless (·.subst.opens ty) span
  onSubst fun subst =>
    match subst.shallow ty with
    | .quantified vars body =>
      let (fresh, subst) := subst.pushMany .unbound vars.length
      ((subst.zonk body).substitute (.ofLists vars (fresh.map .var)), subst)
    | other => (other, subst)

/-- A new rigid variable for each quantified one, under the same names. -/
def rigidCopies (subst : Subst) : List TyVar → List TyVar × Subst
  | [] => ([], subst)
  | var :: vars =>
    let (copy, subst) := subst.push (.rigid (subst.rigidName? var))
    let (copies, subst) := rigidCopies subst vars
    (copy :: copies, subst)

def openRigid (vars : List TyVar) (body : Ty) (span : Span) : Check (List TyVar × Ty) := do
  ending .endless (fun session => (session.subst.zonk? body).isSome) span
  onSubst fun subst =>
    let (copies, subst) := rigidCopies subst vars
    ((copies, (subst.zonk body).substitute (.ofLists vars (copies.map .var))), subst)

def noEscape (rigid fixed : List TyVar) (span : Span) : Check Unit := do
  match rigid.find? (fixed.contains ·) with
  | some var => fail (.scopeEscape ((← get).display (.var var)) none) span
  | none => pure ()

def against (expected : Ty) (span : Span) (term : Term) : Check Term := do
  unify expected term.ty span
  pure term

/-- A constructor as a value: a function unless it has no fields. -/
def ctorValue (info : CtorInfo) : Check Term := do
  let (fields, result) ← ctorInstance info
  if info.arity = 0 then
    pure (.ctor info.name info.template info.index none result)
  else
    let fieldTy := Ty.tupled fields
    let param ← mint "c"
    pure (.lambda param fieldTy
      (.ctor info.name info.template info.index (some (.var param fieldTy)) result)
      (.arrow fieldTy result))

def identifier (name : Name) (span : Span) : Check Term := do
  match ← lookupCtor? name with
  | some info => ctorValue info
  | none =>
    match (← get).env.lookup? name with
    | none => fail (.undeclaredName .value name) span
    | some scheme =>
      ending .endless (fun session => (session.subst.zonk? scheme.ty).isSome) span
      let ty ← onSubst scheme.instantiate
      let ty ← openFlexible ty span
      pure (.var name ty)

def appliedCtor? : Surface.Expr → Check (Option CtorInfo)
  | .ident _ name => lookupCtor? name
  | _ => pure none

def givenFields : Surface.Expr → Nat
  | .tuple _ [_] => 1
  | .tuple _ elements => elements.length
  | _ => 1

def isTuple : Surface.Expr → Bool
  | .tuple _ _ => true
  | _ => false

def acceptsArgument (info : CtorInfo) (arg : Surface.Expr) (span : Span) : Check Unit :=
  if info.arity = 0 ∨ (1 < info.arity ∧ isTuple arg ∧ givenFields arg ≠ info.arity) then
    fail (.malformedConstructor info.name info.arity (givenFields arg)) span
  else
    pure ()

/-- The parameter of a function whose only pattern does not test the argument. -/
def plainParam? : Surface.Pattern → Check (Option Name)
  | .wild _ => some <$> mint "a"
  | .bind _ name => do
    match ← lookupCtor? name with
    | some _ => pure none
    | none => pure (some name)
  | _ => pure none

/-- A case of a match on values of one type with results of another, whose body is inferred by the
given check. -/
def armWith (scrutineeTy result : Ty) (written : Surface.Pattern) (bodySpan : Span)
    (body : Check Term) : Check Arm := do
  let ((pat, patTy), captures) ← (pattern written).run []
  unify scrutineeTy patTy written.span
  let body ← inScope (captures.map fun (name, ty) => (name, .mono ty)) do
    against result bodySpan (← body)
  pure ⟨pat, body⟩

def matchingLambda (param : Name) (paramTy : Ty) (arms : List Arm) (result : Ty) : Term :=
  .lambda param paramTy (.matchOn (.var param paramTy) arms result) (.arrow paramTy result)

def reportCoverage (cases : List Surface.Case) (arms : List Arm) (scrutineeTy : Ty) (span : Span) :
    Check Unit := do
  let pats := (arms.zip cases).map fun (arm, written) => (arm.pat, written.span)
  ending .endlessCoverage (fun session =>
    Coverage.ends session.options session.subst session.registry (pats.map (·.1)) scrutineeTy) span
  modify fun session =>
    (Coverage.warnings session.options session.subst session.registry pats scrutineeTy
      span).foldl Session.warn session

/-- The type that a binding is checked against, with the rigid variables of its annotation. -/
def placeholder (binding : Surface.Binding) : Check (Ty × List TyVar) :=
  match binding.type with
  | none => do
    let ty ← freshVar
    pure (ty, [])
  | some written => do
    match ← writtenType written with
    | .quantified vars body =>
      let (rigid, body) ← openRigid vars body binding.span
      pure (body, rigid)
    | ty => pure (ty, [])

def distinctBindings : List Name → List Surface.Binding → Check Unit
  | _, [] => pure ()
  | seen, binding :: rest =>
    if seen.contains binding.name then
      fail (.duplicateName .value binding.name) binding.span
    else
      distinctBindings (binding.name :: seen) rest

def generalizeGroup (fixed : List TyVar) :
    List (Surface.Binding × (Ty × List TyVar) × Term) → Check (List Definition)
  | [] => pure []
  | (binding, (ty, rigid), value) :: rest => do
    noEscape rigid fixed binding.span
    ending .endless (Scheme.generalizes ·.subst ty) binding.span
    let scheme := Scheme.generalize (← get).subst fixed ty
    let rest ← generalizeGroup fixed rest
    pure (⟨binding.name, scheme, value⟩ :: rest)

/-- Checks a group whose values are inferred by the given check. The bindings of a recursive group
are in scope of its values at their own types, not generalized. -/
def groupWith (recursive : Bool) (bindings : List Surface.Binding)
    (values : List Ty → Check (List Term)) : Check (List Definition) := do
  distinctBindings [] bindings
  let placeholders ← bindings.mapM placeholder
  let types := placeholders.map (·.1)
  let outer := (← get).env.depth
  let span := (bindings.head?.map (·.span)).getD default
  let scope := if recursive then (bindings.map (·.name)).zip (types.map Scheme.mono) else []
  let inferred : Check (List Term × List TyVar) := do
    let terms ← values types
    ending .endless (fun session => session.env.walkableBelow outer session.subst) span
    let session ← get
    pure (terms, session.env.freeVarsBelow outer session.subst)
  let (terms, fixed) ← if recursive then inScope scope inferred else inferred
  let definitions ← generalizeGroup fixed (bindings.zip (placeholders.zip terms))
  if recursive then
    match Term.validateGroup definitions (bindings.map (·.span)) with
    | .error error => throw error
    | .ok _ => pure definitions
  else
    pure definitions

mutual

def infer : Surface.Expr → Check Term
  | .lit span value => do
    let (constant, ty) ← literal value span
    pure (.lit constant ty)
  | .ident span name => identifier name span
  | .app span func arg => do
    match ← appliedCtor? func with
    | some info =>
      acceptsArgument info arg span
      let (fields, result) ← ctorInstance info
      let arg ← against (Ty.tupled fields) arg.span (← infer arg)
      pure (.ctor info.name info.template info.index (some arg) result)
    | none =>
      let func ← infer func
      let funcTy ← openFlexible func.ty span
      let arg ← infer arg
      let result ← freshVar
      unify funcTy (.arrow arg.ty result) span
      pure (.app func arg result)
  | .tuple _ [inner] => infer inner
  | .tuple _ elements => do
    let elems ← inferAll elements
    pure (.tuple elems (.tuple (elems.map Term.ty)))
  | .lambda span [⟨caseSpan, written, body⟩] => do
    let paramTy ← freshVar
    let result ← freshVar
    match ← plainParam? written with
    | some param =>
      let body ← inScope [(param, .mono paramTy)] do
        against result body.span (← infer body)
      pure (.lambda param paramTy body (.arrow paramTy result))
    | none =>
      let param ← mint "a"
      let arm ← armWith paramTy result written body.span (infer body)
      reportCoverage [⟨caseSpan, written, body⟩] [arm] paramTy span
      pure (matchingLambda param paramTy [arm] result)
  | .lambda span cases => do
    let paramTy ← freshVar
    let result ← freshVar
    let param ← mint "a"
    let arms ← inferCases paramTy result cases
    reportCoverage cases arms paramTy span
    pure (matchingLambda param paramTy arms result)
  | .letIn _ recursive bindings body => do
    let definitions ← groupWith recursive bindings fun types => inferValues types bindings
    let body ← inScope (definitions.map fun definition => (definition.name, definition.scheme))
      (infer body)
    pure (.letIn recursive definitions body body.ty)
  | .matchOn span scrutinee cases => do
    let scrutinee ← infer scrutinee
    let result ← freshVar
    let arms ← inferCases scrutinee.ty result cases
    reportCoverage cases arms scrutinee.ty span
    pure (.matchOn scrutinee arms result)
  | .ascribed span inner written => do
    let expected ← writtenType written
    ending .endless (fun session => (session.subst.shallow? expected).isSome) span
    match (← get).subst.shallow expected with
    | .quantified vars body =>
      let (rigid, rigidBody) ← openRigid vars body span
      let term ← against rigidBody inner.span (← infer inner)
      ending .endless (fun session => session.env.walkableBelow session.env.depth
        session.subst) span
      let session ← get
      noEscape rigid (session.env.freeVars session.subst) span
      let ty ← openFlexible (.quantified vars body) span
      pure (term.withTy ty)
    | _ => against expected inner.span (← infer inner)

def inferAll : List Surface.Expr → Check (List Term)
  | [] => pure []
  | expr :: rest => do
    let first ← infer expr
    let rest ← inferAll rest
    pure (first :: rest)

def inferCases (scrutineeTy result : Ty) : List Surface.Case → Check (List Arm)
  | [] => pure []
  | ⟨_, written, body⟩ :: rest => do
    let first ← armWith scrutineeTy result written body.span (infer body)
    let rest ← inferCases scrutineeTy result rest
    pure (first :: rest)

/-- The values of a group against the types they must have. -/
def inferValues : List Ty → List Surface.Binding → Check (List Term)
  | ty :: types, ⟨_, _, _, value⟩ :: rest => do
    let first ← against ty value.span (← infer value)
    let rest ← inferValues types rest
    pure (first :: rest)
  | _, _ => pure []

end

def expectExpr (expr : Surface.Expr) (expected : Ty) : Check Term := do
  against expected expr.span (← infer expr)

/-- Checks a group of bindings, which its caller brings into scope. -/
def group (recursive : Bool) (bindings : List Surface.Binding) : Check (List Definition) :=
  groupWith recursive bindings fun types => inferValues types bindings

end PolyCheck.Check
