import PolyCheck.Diagnostic
import PolyCheck.Env
import PolyCheck.Literal.Escape
import PolyCheck.Literal.Integer
import PolyCheck.Options
import PolyCheck.Subst.Unify
import PolyCheck.Ty.Printer
import PolyCheck.TypeError

/-! The state of a checking session and the steps that checks are made of. A failing check keeps the
state it has reached; taking a failed unit back is left to its caller. -/
namespace PolyCheck

structure Session where
  subst : Subst
  registry : Registry
  env : Env
  names : NameSupply
  options : Options
  pending : List Diagnostic

abbrev Check := EStateM TypeError Session

namespace Session

def start (options : Options) : Session :=
  ⟨.empty, .initial, .empty, .empty, options, []⟩

/-- The text of a type as far as it is known. -/
def display (session : Session) (ty : Ty) : String :=
  ty.display session.subst session.registry

def warn (session : Session) (diagnostic : Diagnostic) : Session :=
  { session with pending := session.pending ++ [diagnostic] }

/-- The findings so far, and the session without them. -/
def takePending (session : Session) : List Diagnostic × Session :=
  (session.pending, { session with pending := [] })

end Session

namespace Check

def fail {α : Type} (cause : ErrorCause) (span : Span) : Check α :=
  throw ⟨cause, span⟩

def ending (cause : ErrorCause) (ends : Session → Bool) (span : Span) : Check Unit := do
  if ends (← get) then pure () else fail cause span

theorem ending_apply (cause : ErrorCause) (ends : Session → Bool) (span : Span)
    (session : Session) : ending cause ends span session =
      if ends session then .ok () session else .error ⟨cause, span⟩ session := by
  change (if ends session then pure () else fail cause span : Check Unit) session = _
  split <;> rfl

theorem ending_bind_eq_ok {α : Type} {cause : ErrorCause} {ends : Session → Bool} {span : Span}
    {next : Unit → Check α} {session after : Session} {value : α} :
    (ending cause ends span >>= next) session = .ok value after ↔
      ends session = true ∧ next () session = .ok value after := by
  simp only [bind, EStateM.bind, ending_apply]
  cases ends session <;> simp

def onSubst {α : Type} (change : Subst → α × Subst) : Check α :=
  modifyGet fun session =>
    let (result, subst) := change session.subst
    (result, { session with subst })

def onRegistry {α : Type} (change : Registry → α × Registry) : Check α :=
  modifyGet fun session =>
    let (result, registry) := change session.registry
    (result, { session with registry })

def freshVar : Check Ty := onSubst fun subst =>
  let (var, subst) := subst.fresh
  (.var var, subst)

def freshVars (count : Nat) : Check (List Ty) := onSubst fun subst =>
  let (vars, subst) := subst.pushMany .unbound count
  (vars.map .var, subst)

def mint (stem : String) : Check Name :=
  modifyGet fun session =>
    let (name, names) := session.names.mint stem
    (name, { session with names })

def lookupCtor? (name : Name) : Check (Option CtorInfo) := do
  return (← get).registry.ctors.get? name

def intTy (width : Nat) : Check Ty := onRegistry fun registry =>
  let (template, registry) := registry.intTemplate width
  (.named template, registry)

/-- The error for a failed comparison of the type required with the type found. Distinct rigid
variables are reported as a mismatch of both types in full. -/
def unifyCause (session : Session) (expected found : Ty) : UnifyError → ErrorCause
  | .mismatch _ _ | .rigidRigid _ _ =>
    .mismatch (session.display expected) (session.display found)
  | .occurs var ty => .infiniteType (session.display (.var var)) (session.display ty)
  | .rigidConcrete var ty => .scopeEscape (session.display (.var var)) (some (session.display ty))
  | .exhausted => .unfinished (session.display expected) (session.display found)

/-- Makes the type required and the type found equal. -/
def unify (expected found : Ty) (span : Span) : Check Unit := fun session =>
  match Subst.unify expected found session.subst with
  | .ok _ subst => .ok () { session with subst }
  | .error error subst =>
    let session := { session with subst }
    .error ⟨unifyCause session expected found error, span⟩ session

/-- Runs a check in a new innermost scope, which is left afterwards in any case. -/
def inScope {α : Type} (bindings : List (Name × Scheme)) (body : Check α) : Check α :=
  fun session =>
    let env := bindings.foldl (fun env (name, scheme) => env.bind name scheme) session.env.push
    match body { session with env } with
    | .ok result after => .ok result { after with env := after.env.pop.2 }
    | .error error after => .error error { after with env := after.env.pop.2 }

def firstRepeated? : List Name → Option Name :=
  go []
where
  go (seen : List Name) : List Name → Option Name
    | [] => none
    | name :: rest => if seen.contains name then some name else go (name :: seen) rest

def distinct (what : NameKind) (names : List Name) (span : Span) : Check Unit :=
  match firstRepeated? names with
  | some name => fail (.duplicateName what name) span
  | none => pure ()

def literal (value : Literal) (span : Span) : Check (Constant × Ty) :=
  match value with
  | .bool b => pure (.bool b, Registry.boolTy)
  | .int magnitude width => do
    let width := width.getD (← get).options.defaultIntWidth
    match intValue magnitude width with
    | .error fault => fail (.invalidLiteral fault) span
    | .ok number => return (.int width number, ← intTy width)
  | .str raw =>
    match Escape.decode raw with
    | .error fault => fail (.invalidLiteral fault) span
    | .ok bytes => pure (.str bytes, Registry.stringTy)

/-- The instance of a constructor at new variables: the types of its fields and its result. -/
def ctorInstance (info : CtorInfo) : Check (List Ty × Ty) := do
  let registry := (← get).registry
  let args ← freshVars (registry.paramCount info.template)
  pure (registry.fieldsAt info.template info.index args, .nominal info.template args)

end Check

end PolyCheck
