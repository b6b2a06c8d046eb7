import PolyCheck.Arena
import PolyCheck.Scheme
import PolyCheck.Table
import PolyCheck.Template

/-! Type names, definitions and constructors. While a checkpoint is open every change of a table is
journaled; definitions are only ever appended, so a rollback replays the journal and cuts the
definitions back. -/
namespace PolyCheck

/-- What a type name stands for. An alias with parameters is a quantified type. -/
inductive TypeDef where
  | synonym (ty : Ty) (kind : Kind)
  | data (template : TemplateId)
deriving DecidableEq, Inhabited

/-- A constructor. Its scheme is that of a function from its field, or from the tuple of its
fields. -/
structure CtorInfo where
  name : Name
  template : TemplateId
  index : Nat
  arity : Nat
  scheme : Scheme
deriving DecidableEq, Inhabited

inductive RegistryUndo where
  | type (name : Name) (old : Option TypeDef)
  | ctor (name : Name) (old : Option CtorInfo)
  | int (width : Nat)
deriving DecidableEq

structure RegistryMark where
  templates : ArenaMark
  journal : Nat
deriving DecidableEq, Inhabited

/-- The journal holds the latest change first; `opened` counts the open checkpoints. -/
structure Registry where
  templates : Arena Template
  types : Table Name TypeDef
  ctors : Table Name CtorInfo
  ints : Table Nat TemplateId
  journal : List RegistryUndo
  opened : Nat

namespace Registry

def boolId : TemplateId := ⟨0⟩

def stringId : TemplateId := ⟨1⟩

def initial : Registry where
  templates :=
    (Arena.empty.alloc (.ofBuiltin "bool" .bool)).alloc (.ofBuiltin "string" .str)
  types := (Table.empty.insert "bool" (.data boolId)).insert "string" (.data stringId)
  ctors := .empty
  ints := .empty
  journal := []
  opened := 0

instance : Inhabited Registry := ⟨initial⟩

def boolTy : Ty := .named boolId

def stringTy : Ty := .named stringId

def template? (registry : Registry) (id : TemplateId) : Option Template :=
  registry.templates.get? id.index

/-- Name of a definition, or its number when there is none. -/
def typeName (registry : Registry) (id : TemplateId) : String :=
  match registry.template? id with
  | some template => template.name
  | none => "#" ++ toString id.index

def paramCount (registry : Registry) (id : TemplateId) : Nat :=
  ((registry.template? id).map (·.params.length)).getD 0

def caseCount (registry : Registry) (id : TemplateId) : Nat :=
  ((registry.template? id).map (·.cases.length)).getD 0

def case? (registry : Registry) (id : TemplateId) (index : Nat) : Option DataCase :=
  (registry.template? id).bind (·.cases[index]?)

/-- Field types of a case at the given arguments; an unknown case has none. -/
def fieldsAt (registry : Registry) (id : TemplateId) (index : Nat) (args : List Ty) : List Ty :=
  ((registry.template? id).bind (·.fieldsAt? index args)).getD []

def record (registry : Registry) (undo : RegistryUndo) : Registry :=
  if registry.opened = 0 then registry else { registry with journal := undo :: registry.journal }

def alloc (registry : Registry) (template : Template) : TemplateId × Registry :=
  (⟨registry.templates.nextSlot⟩,
    { registry with templates := registry.templates.alloc template })

def modifyTemplate (registry : Registry) (id : TemplateId) (change : Template → Template) :
    Registry :=
  { registry with templates := registry.templates.modify id.index change }

/-- The definition of the integers of a width, made on first use. -/
def intTemplate (registry : Registry) (width : Nat) : TemplateId × Registry :=
  match registry.ints.get? width with
  | some id => (id, registry)
  | none =>
    let (id, registry) := registry.alloc (.ofBuiltin ("i" ++ toString width) (.int width))
    (id, { registry with ints := registry.ints.insert width id }.record (.int width))

def defineType (registry : Registry) (name : Name) (meaning : TypeDef) : Registry :=
  { registry with types := registry.types.insert name meaning }.record
    (.type name (registry.types.get? name))

/-- Registers a constructor, which hides an earlier one of its name. -/
def defineCtor (registry : Registry) (info : CtorInfo) : Registry :=
  { registry with ctors := registry.ctors.insert info.name info }.record
    (.ctor info.name (registry.ctors.get? info.name))

def checkpoint (registry : Registry) : RegistryMark × Registry :=
  (⟨registry.templates.mark, registry.journal.length⟩,
    { registry with opened := registry.opened + 1 })

def close (registry : Registry) : Registry :=
  { registry with
    opened := registry.opened - 1
    journal := if registry.opened - 1 = 0 then [] else registry.journal }

def commit (registry : Registry) : Registry := registry.close

def takeBack (registry : Registry) : RegistryUndo → Registry
  | .type name old => { registry with types := registry.types.restore name old }
  | .ctor name old => { registry with ctors := registry.ctors.restore name old }
  | .int width => { registry with ints := registry.ints.erase width }

/-- Takes back every change since the checkpoint, the latest first. -/
def rollback (registry : Registry) (mark : RegistryMark) : Registry :=
  let count := registry.journal.length - mark.journal
  let undone := (registry.journal.take count).foldl takeBack registry
  { undone with
    templates := undone.templates.cutTo mark.templates
    journal := registry.journal.drop count }.close

end Registry

end PolyCheck
