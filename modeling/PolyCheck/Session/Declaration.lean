import PolyCheck.Session.Elaboration

/-! Declarations of data types and aliases. The types of a group are entered before their fields are
read, so fields may mention any of them; kinds that stay open become `*`. -/
namespace PolyCheck

namespace Elaborate

def enterData (decl : Surface.DataDecl) : Elaborate TemplateId := do
  Check.distinct .typeVar decl.params decl.span
  let params ← decl.params.mapM bindParam
  modify fun state => { state with scope := [] }
  Check.onRegistry fun registry =>
    let (id, registry) := registry.alloc (.openWith decl.name params)
    (id, registry.defineType decl.name (.data id))

def addCase (id : TemplateId) (decl : Surface.CaseDecl) : Elaborate Unit := do
  let fields ← starTypes decl.fields
  let registry := (← getThe Session).registry
  match (registry.template? id).bind (·.addCase? decl.name fields) with
  | some template => Check.onRegistry fun registry =>
      ((), registry.modifyTemplate id fun _ => template)
  | none => fail (.duplicateName .constructor decl.name) decl.span

/-- Reads the constructors of one type of a group, with its parameters in scope. -/
def fillData (decl : Surface.DataDecl) (id : TemplateId) : Elaborate Unit := do
  let registry := (← getThe Session).registry
  let params := ((registry.template? id).map (·.params)).getD []
  let scope := (decl.params.zip params).map fun (name, var, kind) => TypeBinding.mk name var kind
  modify fun state => { state with scope := scope.reverse }
  decl.cases.forM (addCase id)

def sealData (id : TemplateId) : Elaborate Unit := do
  let kinds := (← get).kinds
  Check.onRegistry fun registry =>
    ((), registry.modifyTemplate id fun template => (template.mapKinds kinds.defaulted).freeze)

/-- Reads a group of data types up to their closed definitions. -/
def dataGroup (group : List Surface.DataDecl) : Elaborate (List TemplateId) := do
  let ids ← group.mapM enterData
  (group.zip ids).forM fun (decl, id) => fillData decl id
  ids.forM sealData
  pure ids

end Elaborate

def ctorTy (fields : List Ty) (result : Ty) : Ty :=
  match fields with
  | [] => result
  | fields => .arrow (Ty.tupled fields) result

def Template.ctors (template : Template) (id : TemplateId) : List CtorInfo :=
  template.cases.zipIdx.map fun (dataCase, index) =>
    ⟨dataCase.name, id, index, dataCase.fields.length,
      ⟨template.paramVars, ctorTy dataCase.fields (template.selfTy id)⟩⟩

namespace Check

def defineCtors (id : TemplateId) : Check Unit :=
  onRegistry fun registry =>
    let ctors := ((registry.template? id).map (·.ctors id)).getD []
    ((), ctors.foldl Registry.defineCtor registry)

def data (group : List Surface.DataDecl) : Check (List TemplateId) := do
  if let first :: _ := group then
    distinct .type (group.map (·.name)) first.span
    distinct .constructor (group.flatMap fun decl => decl.cases.map (·.name)) first.span
  let ids ← (Elaborate.dataGroup group).run' .forDeclaration
  ids.forM defineCtors
  pure ids

/-- Checks and registers an alias, which is not in scope in its own body. -/
def synonym (name : Name) (params : List Name) (body : Surface.TypeExpr) (span : Span) :
    Check Unit := do
  distinct .typeVar params span
  let read : Elaborate (List (TyVar × Kind) × Ty × Kind) := do
    let params ← params.mapM Elaborate.bindParam
    let body ← Elaborate.type body
    pure (params, body)
  let ((params, body, bodyKind), state) ← read.run .forDeclaration
  let kind := Kind.function (params.map fun (_, kind) => state.kinds.defaulted kind)
    (state.kinds.defaulted bodyKind)
  let ty := if params.isEmpty then body else .quantified (params.map (·.1)) body
  onRegistry fun registry => ((), registry.defineType name (.synonym ty kind))

end Check

end PolyCheck
