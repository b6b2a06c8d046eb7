import PolyCheck.Kind
import PolyCheck.Name
import PolyCheck.Ty

/-! Definitions of nominal types. A definition is open while its declaration is being checked and
takes new cases only then; afterwards it is sealed. Its parameters are rigid variables, and the
fields of its cases are types over them. -/
namespace PolyCheck

inductive Builtin where
  | bool
  | str
  | int (width : Nat)
deriving DecidableEq, Inhabited

structure DataCase where
  name : Name
  fields : List Ty
deriving DecidableEq, Inhabited

structure Template where
  name : Name
  params : List (TyVar × Kind)
  cases : List DataCase
  isSealed : Bool
  builtin : Option Builtin
deriving DecidableEq

namespace Template

def openWith (name : Name) (params : List (TyVar × Kind)) : Template :=
  ⟨name, params, [], false, none⟩

def ofBuiltin (name : Name) (builtin : Builtin) : Template :=
  ⟨name, [], [], true, some builtin⟩

def caseIndex? (template : Template) (name : Name) : Option Nat :=
  template.cases.findIdx? fun dataCase => dataCase.name = name

/-- Appends a case, unless the definition is sealed or has a case of that name. -/
def addCase? (template : Template) (name : Name) (fields : List Ty) : Option Template :=
  if template.isSealed || (template.caseIndex? name).isSome then
    none
  else
    some { template with cases := template.cases ++ [⟨name, fields⟩] }

def freeze (template : Template) : Template :=
  { template with isSealed := true }

def paramVars (template : Template) : List TyVar :=
  template.params.map (·.1)

def kind (template : Template) : Kind :=
  .function (template.params.map (·.2)) .star

def selfTy (template : Template) (id : TemplateId) : Ty :=
  .nominal id (template.paramVars.map .var)

def fieldsAt? (template : Template) (index : Nat) (args : List Ty) : Option (List Ty) :=
  template.cases[index]?.map fun dataCase =>
    dataCase.fields.map (Ty.substitute (.ofLists template.paramVars args))

def mapKinds (template : Template) (change : Kind → Kind) : Template :=
  { template with params := template.params.map fun (var, kind) => (var, change kind) }

end Template

end PolyCheck
