import PolyCheck.Kind.Table
import PolyCheck.Session
import PolyCheck.Surface

/-! Written types become types of the checker, and their kinds are inferred on the way. In a
declaration only the declared parameters are in scope; elsewhere an unknown type variable stands for
a new flexible variable, the same one at each of its occurrences. -/
namespace PolyCheck

structure TypeBinding where
  name : Name
  var : TyVar
  kind : Kind

/-- The scope lists the innermost variable first. `free` holds the variables made on first use,
where that is allowed. -/
structure Elaborator where
  kinds : KindTable
  scope : List TypeBinding
  free : Option (List TypeBinding)

namespace Elaborator

def forDeclaration : Elaborator := ⟨.empty, [], none⟩

def forUse : Elaborator := ⟨.empty, [], some []⟩

end Elaborator

abbrev Elaborate := StateT Elaborator Check

namespace Elaborate

def fail {α : Type} (cause : ErrorCause) (span : Span) : Elaborate α :=
  (Check.fail cause span : Check α)

def freshKind : Elaborate Kind :=
  modifyGet fun state =>
    let (kind, kinds) := state.kinds.fresh
    (kind, { state with kinds })

def expectKind (expected found : Kind) (span : Span) : Elaborate Unit := do
  let state ← get
  let (equal, kinds) := state.kinds.unify expected found
  set { state with kinds }
  if equal then
    pure ()
  else
    fail (.kindMismatch (kinds.resolve expected).display (kinds.resolve found).display) span

/-- The type, if it has values. -/
def expectStar (result : Ty × Kind) (span : Span) : Elaborate Ty := do
  expectKind .star result.2 span
  pure result.1

def intWidth? (name : Name) : Option Nat :=
  match name.toList with
  | 'i' :: digits =>
    if digits.isEmpty || !digits.all Char.isDigit || digits.head? == some '0' then none
    else
      let width := digits.foldl (fun value c => 10 * value + (c.toNat - '0'.toNat)) 0
      if 1 ≤ width ∧ width ≤ maxIntWidth then some width else none
  | _ => none

def typeName (name : Name) (span : Span) : Elaborate (Ty × Kind) := do
  let registry := (← getThe Session).registry
  match registry.types.get? name with
  | some (.data id) =>
    match registry.template? id with
    | some template =>
      if template.params.isEmpty then
        pure (.named id, .star)
      else
        pure (.quantified template.paramVars (template.selfTy id), template.kind)
    | none => pure (.named id, .star)
  | some (.synonym ty kind) => pure (ty, kind)
  | none =>
    match intWidth? name with
    | some width => return (← Check.intTy width, .star)
    | none => fail (.undeclaredName .type name) span

/-- The variable of a name in scope, or a new one where names need no declaration. -/
def typeVar (name : Name) (span : Span) : Elaborate (Ty × Kind) := do
  let state ← get
  match state.scope.find? (·.name = name) with
  | some binding => pure (.var binding.var, binding.kind)
  | none =>
    match state.free with
    | none => fail (.undeclaredName .typeVar name) span
    | some free =>
      match free.find? (·.name = name) with
      | some binding => pure (.var binding.var, binding.kind)
      | none =>
        let kind ← freshKind
        let var ← Check.onSubst Subst.fresh
        modify fun state => { state with free := some (⟨name, var, kind⟩ :: free) }
        pure (.var var, kind)

/-- Brings a new rigid variable of a new kind into scope. -/
def bindParam (name : Name) : Elaborate (TyVar × Kind) := do
  let var ← Check.onSubst (·.freshRigid name)
  let kind ← freshKind
  modify fun state => { state with scope := ⟨name, var, kind⟩ :: state.scope }
  pure (var, kind)

mutual

def type : Surface.TypeExpr → Elaborate (Ty × Kind)
  | .name span name => typeName name span
  | .var span name => typeVar name span
  | .app span head args => do
    let (headTy, headKind) ← type head
    let args ← types args
    let result ← freshKind
    expectKind (.function (args.map (·.2)) result) headKind span
    pure (Ty.apply headTy (args.map (·.1)), result)
  | .arrow _ param result => do
    let param ← expectStar (← type param) param.span
    let result ← expectStar (← type result) result.span
    pure (.arrow param result, .star)
  | .tuple _ [inner] => type inner
  | .tuple _ elements => do
    let elems ← starTypes elements
    pure (.tuple elems, .star)
  | .quantified span params body => do
    Check.distinct .typeVar params span
    let outer := (← get).scope
    let vars ← params.mapM bindParam
    let body ← expectStar (← type body) body.span
    modify fun state => { state with scope := outer }
    if vars.isEmpty then pure (body, .star)
    else pure (.quantified (vars.map (·.1)) body, .star)
  | .hole _ => do
    let kind ← freshKind
    let ty ← Check.freshVar
    pure (ty, kind)

def types : List Surface.TypeExpr → Elaborate (List (Ty × Kind))
  | [] => pure []
  | written :: rest => do
    let first ← type written
    let rest ← types rest
    pure (first :: rest)

def starTypes : List Surface.TypeExpr → Elaborate (List Ty)
  | [] => pure []
  | written :: rest => do
    let first ← expectStar (← type written) written.span
    let rest ← starTypes rest
    pure (first :: rest)

end

def starType (written : Surface.TypeExpr) : Elaborate Ty := do
  expectStar (← type written) written.span

end Elaborate

def Check.writtenType (written : Surface.TypeExpr) : Check Ty :=
  (Elaborate.starType written).run' .forUse

end PolyCheck
