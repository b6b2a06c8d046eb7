/-! Types inside the checker. A type variable is a number; whether it is rigid or flexible and what
it stands for is kept elsewhere. A quantified type doubles as a function on types: applied to
arguments, it puts them in place of its parameters. -/
namespace PolyCheck

structure TyVar where
  index : Nat
deriving DecidableEq, Inhabited

def TyVar.display (var : TyVar) : String :=
  "?" ++ toString var.index

/-- Number of a type definition. -/
structure TemplateId where
  index : Nat
deriving DecidableEq, Inhabited

inductive Ty where
  | var (var : TyVar)
  | arrow (param result : Ty)
  | tuple (elems : List Ty)
  | nominal (template : TemplateId) (args : List Ty)
  | quantified (params : List TyVar) (body : Ty)
  | app (head : Ty) (args : List Ty)
deriving Inhabited

/-- Types to put in place of variables. The first entry of a variable counts. -/
abbrev Assignment := List (TyVar × Ty)

/-- Pairs variables with types; of two types for one variable the later one counts. -/
def Assignment.ofLists (vars : List TyVar) (types : List Ty) : Assignment :=
  (vars.zip types).reverse

def Assignment.without (assignment : Assignment) (vars : List TyVar) : Assignment :=
  assignment.filter fun entry => !vars.contains entry.1

namespace Ty

mutual

def beq : Ty → Ty → Bool
  | var v, var w => v == w
  | arrow p r, arrow q s => beq p q && beq r s
  | tuple es, tuple fs => beqAll es fs
  | nominal t as, nominal u bs => t == u && beqAll as bs
  | quantified ps b, quantified qs c => ps == qs && beq b c
  | app h as, app k bs => beq h k && beqAll as bs
  | _, _ => false

def beqAll : List Ty → List Ty → Bool
  | [], [] => true
  | t :: ts, u :: us => beq t u && beqAll ts us
  | _, _ => false

end

mutual

theorem beq_refl : ∀ t : Ty, beq t t = true
  | var _ => by simp [beq]
  | arrow p r => by simp [beq, beq_refl p, beq_refl r]
  | tuple es => by simp [beq, beqAll_refl es]
  | nominal _ as => by simp [beq, beqAll_refl as]
  | quantified _ b => by simp [beq, beq_refl b]
  | app h as => by simp [beq, beq_refl h, beqAll_refl as]

theorem beqAll_refl : ∀ ts : List Ty, beqAll ts ts = true
  | [] => rfl
  | t :: ts => by simp [beqAll, beq_refl t, beqAll_refl ts]

end

mutual

theorem eq_of_beq : ∀ {t u : Ty}, beq t u = true → t = u
  | var _, u, h => by cases u <;> simp_all [beq]
  | arrow p r, u, h => by
    cases u <;> simp only [beq, Bool.and_eq_true, Bool.false_eq_true] at h
    rw [eq_of_beq h.1, eq_of_beq h.2]
  | tuple es, u, h => by
    cases u <;> simp only [beq, Bool.false_eq_true] at h
    rw [eq_of_beqAll h]
  | nominal _ as, u, h => by
    cases u <;> simp only [beq, Bool.and_eq_true, Bool.false_eq_true, beq_iff_eq] at h
    rw [h.1, eq_of_beqAll h.2]
  | quantified _ b, u, h => by
    cases u <;> simp only [beq, Bool.and_eq_true, Bool.false_eq_true, beq_iff_eq] at h
    rw [h.1, eq_of_beq h.2]
  | app k as, u, h => by
    cases u <;> simp only [beq, Bool.and_eq_true, Bool.false_eq_true] at h
    rw [eq_of_beq h.1, eq_of_beqAll h.2]

theorem eq_of_beqAll : ∀ {ts us : List Ty}, beqAll ts us = true → ts = us
  | [], us, h => by cases us <;> simp_all [beqAll]
  | t :: ts, us, h => by
    cases us <;> simp only [beqAll, Bool.and_eq_true, Bool.false_eq_true] at h
    rw [eq_of_beq h.1, eq_of_beqAll h.2]

end

instance : DecidableEq Ty := fun t u =>
  decidable_of_iff (beq t u = true) ⟨eq_of_beq, fun h => h ▸ beq_refl t⟩

def unit : Ty := tuple []

/-- The tuple of some types; a single type stands for itself. -/
def tupled : List Ty → Ty
  | [only] => only
  | elems => tuple elems

def named (template : TemplateId) : Ty := nominal template []

def asVar? : Ty → Option TyVar
  | var v => some v
  | _ => none

def children : Ty → List Ty
  | var _ => []
  | arrow param result => [param, result]
  | tuple elems => elems
  | nominal _ args => args
  | quantified _ body => [body]
  | app head args => head :: args

mutual

def size : Ty → Nat
  | var _ => 1
  | arrow param result => size param + size result + 1
  | tuple elems => sizeAll elems + 1
  | nominal _ args => sizeAll args + 1
  | quantified _ body => size body + 1
  | app head args => size head + sizeAll args + 1

def sizeAll : List Ty → Nat
  | [] => 0
  | t :: ts => size t + sizeAll ts

end

mutual

/-- Puts types in place of variables. A quantifier hides its parameters from the assignment; its
names are not changed. -/
def substitute (assignment : Assignment) : Ty → Ty
  | var v => (assignment.lookup v).getD (var v)
  | arrow param result => arrow (substitute assignment param) (substitute assignment result)
  | tuple elems => tuple (substituteAll assignment elems)
  | nominal template args => nominal template (substituteAll assignment args)
  | quantified params body => quantified params (substitute (assignment.without params) body)
  | app head args => app (substitute assignment head) (substituteAll assignment args)

def substituteAll (assignment : Assignment) : List Ty → List Ty
  | [] => []
  | t :: ts => substitute assignment t :: substituteAll assignment ts

end

theorem substituteAll_eq_map (assignment : Assignment) (types : List Ty) :
    substituteAll assignment types = types.map (substitute assignment) := by
  induction types with
  | nil => rfl
  | cons t ts ih => rw [substituteAll, ih, List.map_cons]

/-- Applies a function on types. A quantified type takes as many arguments as it has parameters:
with fewer it keeps the other parameters, and what is left over is applied to the result. Any other
head collects its arguments. -/
def apply (head : Ty) (args : List Ty) : Ty :=
  match head, args with
  | head, [] => head
  | quantified [] body, args => apply body args
  | quantified (p :: ps) body, a :: as =>
    let result := substitute (Assignment.ofLists (p :: ps) (a :: as)) body
    if (a :: as).length < (p :: ps).length then
      quantified ((p :: ps).drop (a :: as).length) result
    else
      apply result ((a :: as).drop (p :: ps).length)
  | app inner first, args => app inner (first ++ args)
  | other, args => app other args
termination_by (args.length, sizeOf head)
decreasing_by
  · simp_wf
    apply Prod.Lex.right
    omega
  · apply Prod.Lex.left
    simp only [List.length_drop, List.length_cons]
    omega

end Ty

end PolyCheck
