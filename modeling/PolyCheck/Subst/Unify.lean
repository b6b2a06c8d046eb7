import PolyCheck.Subst.Resolve

/-! Unification: two types are made equal by solving flexible variables, parts from left to right.
What was solved before a failure stays solved. Two applications are compared from their last
arguments, and a type with components counts as an application of a function on types to as many of
its last components as needed. -/
namespace PolyCheck

/-- Why two types cannot be made equal. The sides keep the order of the comparison; `exhausted`
says that the comparison went too deep to be finished. -/
inductive UnifyError where
  | mismatch (left right : Ty)
  | occurs (var : TyVar) (ty : Ty)
  | rigidConcrete (var : TyVar) (ty : Ty)
  | rigidRigid (left right : TyVar)
  | exhausted
deriving DecidableEq

abbrev Unify := EStateM UnifyError Subst

namespace Unify

def finished {α : Type} : Option α → Unify α
  | some value => pure value
  | none => throw .exhausted

/-- Makes two roots the same variable. A flexible root becomes an alias of the other one. -/
def vars (x y : TyVar) : Unify Unit := do
  let subst ← get
  if x = y then
    pure ()
  else if !subst.isRigid x then
    set (subst.link x y)
  else if !subst.isRigid y then
    set (subst.link y x)
  else
    throw (.rigidRigid x y)

def varWith (depth : Nat) (x : TyVar) (ty : Ty) : Unify Unit := do
  let subst ← get
  if subst.isRigid x then
    throw (.rigidConcrete x ty)
  else if ← finished (subst.occursWithin x depth ty) then
    throw (.occurs x ty)
  else
    set (subst.bind x ty)

def skolems (count : Nat) : Unify (List TyVar) :=
  modifyGet fun subst => subst.pushMany (.rigid none) count

/-- The head and the arguments of two applications, with the first arguments of the longer one put
back to its head so that both have equally many. -/
def splitApps (head : Ty) (args : List Ty) (head' : Ty) (args' : List Ty) :
    (Ty × List Ty) × (Ty × List Ty) :=
  let surplus := args.length - args'.length
  let surplus' := args'.length - args.length
  (if surplus = 0 then (head, args) else (.app head (args.take surplus), args.drop surplus),
    if surplus' = 0 then (head', args') else (.app head' (args'.take surplus'),
      args'.drop surplus'))

def components? : Ty → Option (List Ty × (List Ty → Ty))
  | .nominal template args => some (args, .nominal template)
  | .tuple elems => some (elems, .tuple)
  | .arrow param result =>
    some ([param, result], fun
      | [p, r] => .arrow p r
      | _ => .arrow param result)
  | _ => none

/-- A type as a function on types over its last `count` components, beside these components. -/
def etaExpand? (ty : Ty) (count : Nat) : Unify (Option (Ty × List Ty)) := do
  match components? ty with
  | none => pure none
  | some (parts, build) =>
    if count = 0 ∨ parts.length < count then
      pure none
    else
      let kept := parts.length - count
      let params ← skolems count
      pure (some (.quantified params (build (parts.take kept ++ params.map .var)), parts.drop kept))

/-- Compares the heads of two types and gives the pairs of parts that have to be made equal next. -/
def step (depth : Nat) (pair : Ty × Ty) : Unify (List (Ty × Ty)) := do
  let subst ← get
  let left ← finished (subst.shallowWithin depth pair.1)
  let right ← finished (subst.shallowWithin depth pair.2)
  match left, right with
  | .var x, .var y =>
    vars x y
    pure []
  | .var x, ty =>
    varWith depth x ty
    pure []
  | ty, .var x =>
    varWith depth x ty
    pure []
  | .arrow p r, .arrow q s => pure [(p, q), (r, s)]
  | .tuple es, .tuple fs =>
    if es.length = fs.length then pure (es.zip fs) else throw (.mismatch left right)
  | .nominal t as, .nominal u bs =>
    if t = u ∧ as.length = bs.length then pure (as.zip bs) else throw (.mismatch left right)
  | .quantified ps b, .quantified qs c =>
    if ps.length = qs.length then
      let rigid := (← skolems ps.length).map Ty.var
      let subst ← get
      let b ← finished (subst.zonkWithin depth b)
      let c ← finished (subst.zonkWithin depth c)
      pure [(b.substitute (.ofLists ps rigid), c.substitute (.ofLists qs rigid))]
    else
      throw (.mismatch left right)
  | .app h as, .app k bs =>
    let ((h, as), (k, bs)) := splitApps h as k bs
    pure ((h, k) :: as.zip bs)
  | .app h as, ty =>
    match ← etaExpand? ty as.length with
    | some (function, parts) => pure ((h, function) :: as.zip parts)
    | none => throw (.mismatch left right)
  | ty, .app k bs =>
    match ← etaExpand? ty bs.length with
    | some (function, parts) => pure ((function, k) :: parts.zip bs)
    | none => throw (.mismatch left right)
  | _, _ => throw (.mismatch left right)

def within (depth : Nat) (left right : Ty) : Unify Unit :=
  Agenda.walk (throw .exhausted) step [(depth, (left, right))]

end Unify

/-- Makes two types equal by solving flexible variables. -/
def Subst.unify (left right : Ty) : Unify Unit := do
  let subst ← get
  Unify.within (subst.depthBound (left.size + right.size)) left right

end PolyCheck
