import PolyCheck.Session.Declaration
import PolyCheck.Session.Inference
import PolyCheck.Term.Lowering

/-! Top-level units. A unit takes effect as a whole or not at all: when it fails, its definitions,
type variables and solutions are taken back, and only findings and minted names remain. -/
namespace PolyCheck

namespace Check

def unit : Surface.Decl → Check CheckedDecl
  | .data _ types => .data <$> data types
  | .synonym span name params body => do
    synonym name params body span
    pure (.synonym name)
  | .define _ recursive bindings => .define recursive <$> group recursive bindings
  | .eval _ expr => .eval <$> infer expr

def resolvedUnit (written : Surface.Decl) : Check CheckedDecl := do
  let checked ← unit written
  ending .endless (fun session => checked.resolves session.subst) written.span
  pure checked

/-- Checks a unit. The names it defines enter the outermost scope. -/
def decl (written : Surface.Decl) : Check CheckedDecl := fun session =>
  let (registryMark, registry) := session.registry.checkpoint
  let (substMark, subst) := session.subst.snapshot
  match resolvedUnit written { session with registry, subst } with
  | .ok checked after =>
    let checked := checked.zonk after.subst
    .ok checked { after with
      env := checked.definitions.foldl (fun env definition =>
        env.bindGlobal definition.name definition.scheme) after.env
      registry := after.registry.commit
      subst := after.subst.commit }
  | .error error after =>
    .error error { after with
      registry := after.registry.rollback registryMark
      subst := after.subst.rollback substMark
      env := after.env.truncate session.env.depth }

end Check

namespace Session

def minting {α : Type} (session : Session) (action : StateM NameSupply α) : α × Session :=
  let (result, names) := action.run session.names
  (result, { session with names })

/-- Turns every match of a term into a decision tree. -/
def lower (session : Session) (term : Term) : Term × Session :=
  session.minting (term.lower session.subst session.registry)

def compileMatch (session : Session) (scrutinee : Term) (arms : List Arm) (ty : Ty) :
    Term × Session :=
  session.minting (Decision.compile session.subst session.registry scrutinee arms ty)

end Session

end PolyCheck
