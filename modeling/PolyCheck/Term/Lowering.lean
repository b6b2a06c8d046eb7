import PolyCheck.Term.Decision

/-! Terms without nested patterns: every match becomes a decision tree. Parts are lowered before the
match that holds them, so the switches of a tree are not compiled again. -/
namespace PolyCheck.Term

mutual

def lower (subst : Subst) (registry : Registry) : Term → StateM NameSupply Term
  | var name ty => pure (var name ty)
  | lit value ty => pure (lit value ty)
  | failure ty => pure (failure ty)
  | tuple elems ty => do
    let elems ← lowerAll subst registry elems
    pure (tuple elems ty)
  | ctor name template index arg ty => do
    let arg ← lowerOption subst registry arg
    pure (ctor name template index arg ty)
  | lambda param paramTy body ty => do
    let body ← lower subst registry body
    pure (lambda param paramTy body ty)
  | app func arg ty => do
    let func ← lower subst registry func
    let arg ← lower subst registry arg
    pure (app func arg ty)
  | letIn recursive definitions body ty => do
    let definitions ← lowerDefinitions subst registry definitions
    let body ← lower subst registry body
    pure (letIn recursive definitions body ty)
  | matchOn scrutinee arms ty => do
    let scrutinee ← lower subst registry scrutinee
    let arms ← lowerArms subst registry arms
    Decision.compile subst registry scrutinee arms ty

def lowerAll (subst : Subst) (registry : Registry) : List Term → StateM NameSupply (List Term)
  | [] => pure []
  | term :: terms => do
    let term ← lower subst registry term
    let terms ← lowerAll subst registry terms
    pure (term :: terms)

def lowerOption (subst : Subst) (registry : Registry) :
    Option Term → StateM NameSupply (Option Term)
  | none => pure none
  | some term => do
    let term ← lower subst registry term
    pure (some term)

def lowerDefinitions (subst : Subst) (registry : Registry) :
    List Definition → StateM NameSupply (List Definition)
  | [] => pure []
  | ⟨name, scheme, value⟩ :: rest => do
    let value ← lower subst registry value
    let rest ← lowerDefinitions subst registry rest
    pure (⟨name, scheme, value⟩ :: rest)

def lowerArms (subst : Subst) (registry : Registry) : List Arm → StateM NameSupply (List Arm)
  | [] => pure []
  | ⟨pat, body⟩ :: rest => do
    let body ← lower subst registry body
    let rest ← lowerArms subst registry rest
    pure (⟨pat, body⟩ :: rest)

end

end PolyCheck.Term
