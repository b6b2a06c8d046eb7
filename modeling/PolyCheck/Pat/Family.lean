import PolyCheck.Pat
import PolyCheck.Registry

/-! The heads that the values of a type can have. The integers of a width are never listed: whether
some values are all of them is a matter of counting, and a missing value is looked for among as many
candidates as there are values, plus one. -/
namespace PolyCheck

/-- The heads of one type. Functions and unresolved types show no head at all. -/
inductive Family where
  | bool
  | tuple (elems : List Ty)
  | enum (template : TemplateId) (args : List Ty)
  | int (width : Nat)
  | str
  | unknown
deriving DecidableEq, Inhabited

namespace Family

def ofHead (registry : Registry) : Ty → Family
  | .tuple elems => tuple elems
  | .nominal template args =>
    match registry.template? template with
    | some ⟨_, _, _, _, some .bool⟩ => bool
    | some ⟨_, _, _, _, some .str⟩ => str
    | some ⟨_, _, _, _, some (.int width)⟩ => int width
    | some ⟨_, _, _, _, none⟩ => enum template args
    | none => unknown
  | _ => unknown

/-- The heads of a type, if its own head can be found. -/
def of? (ty : Ty) (subst : Subst) (registry : Registry) : Option Family :=
  (subst.shallow? ty).map (ofHead registry)

def of (ty : Ty) (subst : Subst) (registry : Registry) : Family :=
  ofHead registry (subst.shallow ty)

def isOpen : Family → Bool
  | str | unknown => true
  | _ => false

def spannedBy (registry : Registry) (seen : List Head) : Family → Bool
  | bool => seen.contains (.bool true) && seen.contains (.bool false)
  | tuple _ => !seen.isEmpty
  | enum template _ =>
    (List.range (registry.caseCount template)).all fun index => seen.contains (.variant index)
  | int width => width < maxIntWidth && intCount width ≤ seen.length
  | str | unknown => false

def firstUnseen (seen : List Head) (candidates : List Head) : Option Head :=
  candidates.find? fun candidate => !seen.contains candidate

/-- A value of the width that is not in `seen`: zero if possible, else the least one. -/
def missingInt? (width : Nat) (seen : List Head) : Option Head :=
  if width = 0 ∨ maxIntWidth < width then
    none
  else if seen.contains (.int 0) then
    let least : Int := -intCount (width - 1)
    let count := min (seen.length + 1) (intCount width)
    firstUnseen seen ((List.range count).map fun (offset : Nat) => .int (least + offset))
  else
    some (.int 0)

def missing? (registry : Registry) (seen : List Head) : Family → Option Head
  | bool => firstUnseen seen [.bool true, .bool false]
  | tuple elems => if seen.isEmpty then some (.tuple elems.length) else none
  | enum template _ =>
    firstUnseen seen ((List.range (registry.caseCount template)).map .variant)
  | int width => missingInt? width seen
  | str =>
    firstUnseen seen ((List.range (seen.length + 1)).map fun length =>
      .str (List.replicate length 97))
  | unknown => none

def arity (registry : Registry) (head : Head) : Family → Nat
  | tuple elems => elems.length
  | enum template _ =>
    match head with
    | .variant index => ((registry.case? template index).map (·.fields.length)).getD 0
    | _ => 0
  | _ => 0

def fieldTypes (registry : Registry) (head : Head) : Family → List Ty
  | tuple elems => elems
  | enum template args =>
    match head with
    | .variant index => registry.fieldsAt template index args
    | _ => []
  | _ => []

def pattern (registry : Registry) (head : Head) (family : Family) : Pat :=
  let fields := Pat.anys (family.arity registry head)
  match family, head with
  | _, .bool value => .bool value
  | int width, .int value => .int width value
  | _, .str bytes => .str bytes
  | _, .tuple _ => .tuple fields
  | enum template _, .variant index =>
    match registry.case? template index with
    | some dataCase => .ctor dataCase.name template index fields
    | none => .any
  | _, _ => .any

end Family

end PolyCheck
