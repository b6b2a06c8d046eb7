import PolyCheck.Agenda
import PolyCheck.Subst

/-! Types seen through the cells of their variables. Functions on types are not kinded here, so
their reduction need not end; every walk therefore takes a bound on its depth and gives nothing when
it does not finish within it. For types without functions on types the bound chosen from the size of
the cells is never reached. -/
namespace PolyCheck

namespace Subst

/-- Levels granted for reductions of functions on types, more than can be gone through in
practice. -/
def reductionAllowance : Nat := 1 <<< 40

def depthBound (subst : Subst) (size : Nat) : Nat :=
  reductionAllowance + (subst.size + 1) * (subst.mass + size + 1)

/-- The head of a type: solved variables are looked through and functions on types reduced until
the head is a constructor or an unsolved variable, which is given by its root. -/
def shallowWithin (subst : Subst) : Nat → Ty → Option Ty
  | 0, _ => none
  | depth + 1, ty =>
    match ty with
    | .var v =>
      match subst.rootCell v with
      | .bound solved => shallowWithin subst depth solved
      | _ => some (.var (subst.root v))
    | .app head args =>
      match shallowWithin subst depth head with
      | none => none
      | some (.quantified params body) =>
        shallowWithin subst depth (Ty.apply (.quantified params body) args)
      | some (.app inner first) => some (.app inner (first ++ args))
      | some other => some (.app other args)
    | other => some other

def zonkWithin (subst : Subst) : Nat → Ty → Option Ty
  | 0, _ => none
  | depth + 1, ty => do
    match ← subst.shallowWithin (depth + 1) ty with
    | .var v => some (.var v)
    | .arrow param result =>
      some (.arrow (← zonkWithin subst depth param) (← zonkWithin subst depth result))
    | .tuple elems => some (.tuple (← elems.mapM (zonkWithin subst depth)))
    | .nominal template args =>
      some (.nominal template (← args.mapM (zonkWithin subst depth)))
    | .quantified params body => some (.quantified params (← zonkWithin subst depth body))
    | .app head args =>
      some (Ty.apply (← zonkWithin subst depth head) (← args.mapM (zonkWithin subst depth)))

inductive SearchEnd where
  | found
  | unfinished
deriving DecidableEq

/-- Ends a search at a root; otherwise the parts of the head come next, the last one first. -/
def seek (subst : Subst) (root : TyVar) (depth : Nat) (ty : Ty) : Except SearchEnd (List Ty) :=
  match subst.shallowWithin depth ty with
  | none => .error .unfinished
  | some (.var v) => if v = root then .error .found else .ok []
  | some other => .ok other.children.reverse

def occursWithin (subst : Subst) (root : TyVar) (depth : Nat) (ty : Ty) : Option Bool :=
  match Agenda.walk (.error .unfinished) (subst.seek root) [(depth, ty)] with
  | .ok _ => some false
  | .error .found => some true
  | .error .unfinished => none

/-- Unsolved variables met so far, the latest one first, and the roots of quantified parameters. -/
structure Gathered where
  leaves : List TyVar
  binders : List TyVar

def gather (subst : Subst) (depth : Nat) (ty : Ty) : StateT Gathered Option (List Ty) :=
  fun gathered =>
    match subst.shallowWithin depth ty with
    | none => none
    | some (.var v) => some ([], { gathered with leaves := gathered.leaves.insert v })
    | some (.quantified params body) =>
      some ([body], { gathered with binders := params.map subst.root ++ gathered.binders })
    | some other => some (other.children, gathered)

/-- Variables of a type in order of first occurrence, without those that some quantifier in it
binds. -/
def freeVarsWithin (subst : Subst) (depth : Nat) (ty : Ty) : Option (List TyVar) :=
  match Agenda.walk (fun _ => none) subst.gather [(depth, ty)] ⟨[], []⟩ with
  | none => none
  | some (_, gathered) =>
    some (gathered.leaves.reverse.filter fun v => !gathered.binders.contains v)

/-- The head of a type, if its reduction ends. -/
def shallow? (subst : Subst) (ty : Ty) : Option Ty :=
  subst.shallowWithin (subst.depthBound ty.size) ty

/-- The resolved type, if the reductions in it end. -/
def zonk? (subst : Subst) (ty : Ty) : Option Ty :=
  subst.zonkWithin (subst.depthBound ty.size) ty

def occurs? (subst : Subst) (var : TyVar) (ty : Ty) : Option Bool :=
  subst.occursWithin (subst.root var) (subst.depthBound ty.size) ty

def freeVars? (subst : Subst) (ty : Ty) : Option (List TyVar) :=
  subst.freeVarsWithin (subst.depthBound ty.size) ty

def opens (subst : Subst) (ty : Ty) : Bool :=
  match subst.shallow? ty with
  | none => false
  | some (.quantified _ body) => (subst.zonk? body).isSome
  | some _ => true

/-! What a walk finds in a type where it ends. Inference makes sure of that first and stops with an
outcome of its own where it does not; what is said here about such types only keeps the functions
total. -/

def shallow (subst : Subst) (ty : Ty) : Ty :=
  (subst.shallow? ty).getD ty

def zonk (subst : Subst) (ty : Ty) : Ty :=
  (subst.zonk? ty).getD ty

def occurs (subst : Subst) (var : TyVar) (ty : Ty) : Bool :=
  (subst.occurs? var ty).getD true

def freeVars (subst : Subst) (ty : Ty) : List TyVar :=
  (subst.freeVars? ty).getD []

end Subst

end PolyCheck
