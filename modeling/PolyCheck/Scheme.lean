import PolyCheck.Subst.Resolve

/-! Types with quantified variables, as environments hold them. Quantified variables may be flexible
or rigid; an instance has new flexible variables in their place. -/
namespace PolyCheck

structure Scheme where
  vars : List TyVar
  ty : Ty
deriving DecidableEq, Inhabited

namespace Scheme

def mono (ty : Ty) : Scheme := ⟨[], ty⟩

def isMono (scheme : Scheme) : Bool := scheme.vars.isEmpty

/-- The resolved type with new flexible variables for the quantified ones. -/
def instantiate (scheme : Scheme) (subst : Subst) : Ty × Subst :=
  let ty := subst.zonk scheme.ty
  if scheme.vars.isEmpty then
    (ty, subst)
  else
    let (fresh, subst) := subst.pushMany .unbound scheme.vars.length
    (ty.substitute (.ofLists scheme.vars (fresh.map .var)), subst)

def freeVars (scheme : Scheme) (subst : Subst) : List TyVar :=
  (subst.freeVars scheme.ty).filter fun v => !scheme.vars.contains v

def zonk (scheme : Scheme) (subst : Subst) : Scheme :=
  { scheme with ty := subst.zonk scheme.ty }

/-- Whether the walks for generalizing a type come to an end. -/
def generalizes (subst : Subst) (ty : Ty) : Bool :=
  (subst.zonk? ty).isSome && (subst.freeVars? (subst.zonk ty)).isSome

def generalize (subst : Subst) (fixed : List TyVar) (ty : Ty) : Scheme :=
  let ty := subst.zonk ty
  ⟨(subst.freeVars ty).filter fun v => !fixed.contains v, ty⟩

end Scheme

end PolyCheck
