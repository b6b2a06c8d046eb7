import PolyCheck.Pat
import PolyCheck.Scheme

/-! Typed terms, the result of checking. Every node carries its type. A match may hold nested
patterns, as it comes from the checker, or only shallow ones, after it has been turned into a
decision tree. -/
namespace PolyCheck

mutual

inductive Term where
  | var (name : Name) (ty : Ty)
  | lit (value : Constant) (ty : Ty)
  | tuple (elems : List Term) (ty : Ty)
  | ctor (name : Name) (template : TemplateId) (index : Nat) (arg : Option Term) (ty : Ty)
  | lambda (param : Name) (paramTy : Ty) (body : Term) (ty : Ty)
  | app (func arg : Term) (ty : Ty)
  | letIn (recursive : Bool) (definitions : List Definition) (body : Term) (ty : Ty)
  | matchOn (scrutinee : Term) (arms : List Arm) (ty : Ty)
  | failure (ty : Ty)

/-- One name of a group with its scheme and its value. -/
structure Definition where
  name : Name
  scheme : Scheme
  value : Term

structure Arm where
  pat : Pat
  body : Term

end

namespace Term

instance : Inhabited Term := ⟨failure .unit⟩

def ty : Term → Ty
  | var _ ty | lit _ ty | tuple _ ty | ctor _ _ _ _ ty | lambda _ _ _ ty | app _ _ ty
  | letIn _ _ _ ty | matchOn _ _ ty | failure ty => ty

def withTy (newTy : Ty) : Term → Term
  | var name _ => var name newTy
  | lit value _ => lit value newTy
  | tuple elems _ => tuple elems newTy
  | ctor name template index arg _ => ctor name template index arg newTy
  | lambda param paramTy body _ => lambda param paramTy body newTy
  | app func arg _ => app func arg newTy
  | letIn recursive definitions body _ => letIn recursive definitions body newTy
  | matchOn scrutinee arms _ => matchOn scrutinee arms newTy
  | failure _ => failure newTy

mutual

def zonk (subst : Subst) : Term → Term
  | var name ty => var name (subst.zonk ty)
  | lit value ty => lit value (subst.zonk ty)
  | tuple elems ty => tuple (zonkAll subst elems) (subst.zonk ty)
  | ctor name template index arg ty =>
    ctor name template index (zonkOption subst arg) (subst.zonk ty)
  | lambda param paramTy body ty =>
    lambda param (subst.zonk paramTy) (zonk subst body) (subst.zonk ty)
  | app func arg ty => app (zonk subst func) (zonk subst arg) (subst.zonk ty)
  | letIn recursive definitions body ty =>
    letIn recursive (zonkDefinitions subst definitions) (zonk subst body) (subst.zonk ty)
  | matchOn scrutinee arms ty =>
    matchOn (zonk subst scrutinee) (zonkArms subst arms) (subst.zonk ty)
  | failure ty => failure (subst.zonk ty)

def zonkAll (subst : Subst) : List Term → List Term
  | [] => []
  | term :: terms => zonk subst term :: zonkAll subst terms

def zonkOption (subst : Subst) : Option Term → Option Term
  | none => none
  | some term => some (zonk subst term)

def zonkDefinitions (subst : Subst) : List Definition → List Definition
  | [] => []
  | ⟨name, scheme, value⟩ :: rest =>
    ⟨name, scheme.zonk subst, zonk subst value⟩ :: zonkDefinitions subst rest

def zonkArms (subst : Subst) : List Arm → List Arm
  | [] => []
  | ⟨pat, body⟩ :: rest => ⟨pat, zonk subst body⟩ :: zonkArms subst rest

end

mutual

/-- Whether the reductions in all types of a term end. -/
def resolves (subst : Subst) : Term → Bool
  | var _ ty | lit _ ty | failure ty => (subst.zonk? ty).isSome
  | tuple elems ty => resolvesAll subst elems && (subst.zonk? ty).isSome
  | ctor _ _ _ arg ty => resolvesOption subst arg && (subst.zonk? ty).isSome
  | lambda _ paramTy body ty =>
    (subst.zonk? paramTy).isSome && resolves subst body && (subst.zonk? ty).isSome
  | app func arg ty => resolves subst func && resolves subst arg && (subst.zonk? ty).isSome
  | letIn _ definitions body ty =>
    resolvesDefinitions subst definitions && resolves subst body && (subst.zonk? ty).isSome
  | matchOn scrutinee arms ty =>
    resolves subst scrutinee && resolvesArms subst arms && (subst.zonk? ty).isSome

def resolvesAll (subst : Subst) : List Term → Bool
  | [] => true
  | term :: terms => resolves subst term && resolvesAll subst terms

def resolvesOption (subst : Subst) : Option Term → Bool
  | none => true
  | some term => resolves subst term

def resolvesDefinitions (subst : Subst) : List Definition → Bool
  | [] => true
  | ⟨_, scheme, value⟩ :: rest =>
    (subst.zonk? scheme.ty).isSome && resolves subst value && resolvesDefinitions subst rest

def resolvesArms (subst : Subst) : List Arm → Bool
  | [] => true
  | ⟨_, body⟩ :: rest => resolves subst body && resolvesArms subst rest

end

end Term

/-- A checked top-level unit. -/
inductive CheckedDecl where
  | data (templates : List TemplateId)
  | synonym (name : Name)
  | define (recursive : Bool) (definitions : List Definition)
  | eval (term : Term)

namespace CheckedDecl

def definitions : CheckedDecl → List Definition
  | define _ definitions => definitions
  | _ => []

def terms : CheckedDecl → List Term
  | define _ definitions => definitions.map (·.value)
  | eval term => [term]
  | _ => []

def zonk (subst : Subst) : CheckedDecl → CheckedDecl
  | define recursive definitions => define recursive (Term.zonkDefinitions subst definitions)
  | eval term => eval (term.zonk subst)
  | other => other

def resolves (subst : Subst) : CheckedDecl → Bool
  | define _ definitions => Term.resolvesDefinitions subst definitions
  | eval term => term.resolves subst
  | _ => true

end CheckedDecl

end PolyCheck
