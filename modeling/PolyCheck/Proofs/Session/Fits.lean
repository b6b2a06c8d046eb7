import PolyCheck.Proofs.Session.Declarations
import PolyCheck.Proofs.Session.Discipline
import PolyCheck.Proofs.Session.Rollback
import PolyCheck.Proofs.Session.Soundness
import PolyCheck.Proofs.Subst.Fits

/-! Sessions that refer to nothing that is missing. Cells, schemes, definitions and tables only
mention variables that have a cell and definitions that are there, at as many arguments as they have
parameters. Every check leaves the session so, wherever it stops, and gives types of that kind; a
failed unit is taken back as a whole, so nothing that survives it refers to what was dropped. -/
namespace PolyCheck

open Run Check

variable {shape larger : Shape}

/-- Number of parameters of a definition, if there is one. -/
def Registry.arity? (registry : Registry) (id : TemplateId) : Option Nat :=
  (registry.template? id).map (·.params.length)

structure Template.Fits (shape : Shape) (template : Template) : Prop where
  params : ∀ v ∈ template.paramVars, v.index < shape.cells
  fields : ∀ dataCase ∈ template.cases, ∀ field ∈ dataCase.fields, field.Fits shape

inductive TypeDef.Fits (shape : Shape) : TypeDef → Prop where
  | synonym {ty : Ty} (fits : ty.Fits shape) (kind : Kind) : Fits shape (.synonym ty kind)
  | data {id : TemplateId} (known : (shape.arity? id).isSome) : Fits shape (.data id)

structure CtorInfo.Fits (shape : Shape) (info : CtorInfo) : Prop where
  template : (shape.arity? info.template).isSome
  scheme : info.scheme.Fits shape

/-- Definitions with the parameters that the shape says, and tables that refer to nothing that is
missing. -/
structure Registry.Fits (shape : Shape) (registry : Registry) : Prop where
  arity : registry.arity? = shape.arity?
  template : ∀ {id template}, registry.template? id = some template → template.Fits shape
  type : ∀ {name meaning}, registry.types.get? name = some meaning → meaning.Fits shape
  ctor : ∀ {name info}, registry.ctors.get? name = some info → info.Fits shape
  bool : shape.arity? boolId = some 0
  str : shape.arity? stringId = some 0
  int : ∀ {width id}, registry.ints.get? width = some id → shape.arity? id = some 0

/-- A session in the given scopes, none of whose parts refers to anything that is missing. -/
structure Session.Fits (env : Env) (shape : Shape) (session : Session) : Prop where
  subst : session.subst.Fits shape
  scopes : session.env = env
  schemes : ∀ scheme ∈ env.schemes, scheme.Fits shape
  registry : session.registry.Fits shape

section Grow

theorem Template.Fits.grow {template : Template} (fits : template.Fits shape)
    (grown : shape ≤ larger) : template.Fits larger :=
  ⟨fun v member => Nat.lt_of_lt_of_le (fits.params v member) grown.1,
    fun dataCase inCases field inFields => (fits.fields dataCase inCases field inFields).grow grown⟩

theorem TypeDef.Fits.grow {meaning : TypeDef} (fits : meaning.Fits shape) (grown : shape ≤ larger) :
    meaning.Fits larger := by
  cases fits with
  | synonym fits kind => exact .synonym (fits.grow grown) kind
  | data known => exact .data (Shape.isSome_arity? grown known)

theorem CtorInfo.Fits.grow {info : CtorInfo} (fits : info.Fits shape) (grown : shape ≤ larger) :
    info.Fits larger :=
  ⟨Shape.isSome_arity? grown fits.template, fits.scheme.grow grown⟩

theorem Scheme.Fits.mono {ty : Ty} (fits : ty.Fits shape) : (Scheme.mono ty).Fits shape :=
  ⟨List.forall_mem_nil _, fits⟩

end Grow

namespace Registry

variable {registry after : Registry} {id : TemplateId} {template : Template}

theorem arity?_of_template? (known : registry.template? id = some template) :
    registry.arity? id = some template.params.length := by
  rw [arity?, known, Option.map_some]

namespace Fits

theorem isSome_arity? (fits : registry.Fits shape) (known : registry.template? id = some template) :
    shape.arity? id = some template.params.length := by
  rw [← fits.arity, arity?_of_template? known]

theorem grow (fits : registry.Fits shape) (grown : shape ≤ larger)
    (same : larger.arity? = shape.arity?) : registry.Fits larger where
  arity := fits.arity.trans same.symm
  template known := (fits.template known).grow grown
  type known := (fits.type known).grow grown
  ctor known := (fits.ctor known).grow grown
  bool := same ▸ fits.bool
  str := same ▸ fits.str
  int known := same ▸ fits.int known

theorem alloc (fits : registry.Fits shape) {template : Template} (made : template.Fits shape) :
    ∃ larger, shape ≤ larger ∧ larger.cells = shape.cells ∧
    (registry.alloc template).2.Fits larger ∧
      larger.arity? (registry.alloc template).1 = some template.params.length := by
  have known : (registry.alloc template).2.template? (registry.alloc template).1 = some template :=
    (template?_alloc registry template _).trans (if_pos rfl)
  have grown : shape ≤ ⟨shape.cells, (registry.alloc template).2.arity?⟩ := by
    refine ⟨Nat.le_refl _, fun id count found => ?_⟩
    rw [← fits.arity, Registry.arity?] at found
    obtain ⟨old, before, same⟩ := Option.map_eq_some_iff.mp found
    exact (arity?_of_template? (grows_alloc registry template id old before)).trans
      (congrArg some same)
  refine ⟨_, grown, rfl,
    ⟨rfl, fun {id found} known => ?_, fun known => (fits.type known).grow grown,
    fun known => (fits.ctor known).grow grown, grown.2 _ _ fits.bool, grown.2 _ _ fits.str,
    fun known => grown.2 _ _ (fits.int known)⟩, arity?_of_template? known⟩
  rw [template?_alloc] at known
  split at known
  · obtain rfl := Option.some.inj known
    exact made.grow grown
  · exact (fits.template known).grow grown

theorem of_templates (fits : registry.Fits shape) (templates : after.templates = registry.templates)
    (type : ∀ {name meaning}, after.types.get? name = some meaning → meaning.Fits shape)
    (ctor : ∀ {name info}, after.ctors.get? name = some info → info.Fits shape)
    (int : ∀ {width id}, after.ints.get? width = some id → shape.arity? id = some 0) :
    after.Fits shape := by
  have same : after.template? = registry.template? := by
    funext id
    rw [template?, template?, templates]
  refine ⟨?_, fun known => fits.template (same ▸ known), type, ctor, fits.bool, fits.str, int⟩
  rw [← fits.arity]
  funext id
  rw [arity?, arity?, same]

theorem intTemplate (fits : registry.Fits shape) (width : Nat) :
    ∃ larger, shape ≤ larger ∧ larger.cells = shape.cells ∧
    (registry.intTemplate width).2.Fits larger ∧
      larger.arity? (registry.intTemplate width).1 = some 0 := by
  cases known : registry.ints.get? width with
  | some id =>
    rw [intTemplate_of_some known]
    exact ⟨shape, le_rfl, rfl, fits, fits.int known⟩
  | none =>
    have made : (Template.ofBuiltin ("i" ++ toString width) (.int width)).Fits shape :=
      ⟨List.forall_mem_nil _, List.forall_mem_nil _⟩
    obtain ⟨larger, grown, cells, there, arity⟩ := fits.alloc made
    rw [intTemplate_of_none known]
    refine ⟨larger, grown, cells,
      there.of_templates (templates_record _ _) (fun {name meaning} found => ?_)
      (fun {name info} found => ?_) (fun {width' id} found => ?_), arity⟩
    · rw [types_record] at found
      exact there.type found
    · rw [ctors_record] at found
      exact there.ctor found
    · rw [ints_record, Table.get?_insert] at found
      split at found
      · obtain rfl := Option.some.inj found
        exact arity
      · exact there.int found

theorem modifyTemplate (fits : registry.Fits shape) {change : Template → Template}
    (changed : ∀ template, registry.template? id = some template →
      (change template).Fits shape ∧ (change template).params.length = template.params.length) :
    (registry.modifyTemplate id change).Fits shape where
  arity := by
    rw [← fits.arity]
    funext other
    rw [arity?, arity?, template?_modify]
    split
    · rename_i same
      subst same
      cases known : registry.template? id with
      | none => rfl
      | some template => simp [(changed template known).2]
    · rfl
  template {other template} known := by
    rw [template?_modify] at known
    split at known
    · rename_i same
      subst same
      obtain ⟨old, there, rfl⟩ := Option.map_eq_some_iff.mp known
      exact (changed old there).1
    · exact fits.template known
  type := fits.type
  ctor := fits.ctor
  bool := fits.bool
  str := fits.str
  int := fits.int

theorem defineType (fits : registry.Fits shape) (name : Name) {meaning : TypeDef}
    (made : meaning.Fits shape) : (registry.defineType name meaning).Fits shape := by
  refine fits.of_templates (templates_record _ _) (fun {other found} known => ?_)
    (fun {other info} known => ?_) fun {width id} known => ?_
  · rw [Registry.defineType, types_record, Table.get?_insert] at known
    split at known
    · exact Option.some.inj known ▸ made
    · exact fits.type known
  · rw [Registry.defineType, ctors_record] at known
    exact fits.ctor known
  · rw [Registry.defineType, ints_record] at known
    exact fits.int known

theorem defineCtor (fits : registry.Fits shape) {info : CtorInfo} (made : info.Fits shape) :
    (registry.defineCtor info).Fits shape := by
  refine fits.of_templates (templates_record _ _) (fun {other found} known => ?_)
    (fun {other found} known => ?_) fun {width id} known => ?_
  · rw [Registry.defineCtor, types_record] at known
    exact fits.type known
  · rw [Registry.defineCtor, ctors_record, Table.get?_insert] at known
    split at known
    · exact Option.some.inj known ▸ made
    · exact fits.ctor known
  · rw [Registry.defineCtor, ints_record] at known
    exact fits.int known

theorem foldl_defineCtor (fits : registry.Fits shape) {infos : List CtorInfo}
    (each : ∀ info ∈ infos, info.Fits shape) :
    (infos.foldl Registry.defineCtor registry).Fits shape := by
  induction infos generalizing registry with
  | nil => exact fits
  | cons info infos ih =>
    obtain ⟨first, rest⟩ := List.forall_mem_cons.mp each
    exact ih (fits.defineCtor first) rest

theorem fieldsAt (fits : registry.Fits shape) (grown : shape ≤ larger) (id : TemplateId)
    (index : Nat) {args : List Ty} (each : ∀ t ∈ args, t.Fits larger) :
    ∀ t ∈ registry.fieldsAt id index args, t.Fits larger := by
  refine Registry.forall_mem_fieldsAt fun known inside field member =>
    Ty.Fits.substitute_ofLists ?_ each
  exact ((fits.template known).fields _ (List.mem_of_getElem? inside) field member).grow grown

end Fits

end Registry

namespace Session

variable {env : Env} {session inside : Session} {bindings : List (Name × Scheme)}

theorem Fits.withSubst (here : session.Fits env shape) (grown : shape ≤ larger)
    (same : larger.arity? = shape.arity?) {subst : Subst} (fits : subst.Fits larger) :
    { session with subst }.Fits env larger :=
  ⟨fits, here.scopes, fun scheme member => (here.schemes scheme member).grow grown,
    here.registry.grow grown same⟩

theorem Fits.withRegistry (here : session.Fits env shape) (grown : shape ≤ larger)
    (same : larger.cells = shape.cells) {registry : Registry} (fits : registry.Fits larger) :
    { session with registry }.Fits env larger :=
  ⟨⟨here.subst.size.trans same.symm, fun v => (here.subst.cell v).grow grown⟩, here.scopes,
    fun scheme member => (here.schemes scheme member).grow grown, fits⟩

theorem Fits.enter (here : session.Fits env shape)
    (each : ∀ binding ∈ bindings, binding.2.Fits shape) :
    { session with env := env.enter bindings }.Fits (env.enter bindings) shape where
  subst := here.subst
  scopes := rfl
  schemes := Env.forall_mem_schemes_enter here.schemes each
  registry := here.registry

theorem Fits.leave (outer : session.Fits env shape) (grown : shape ≤ larger)
    (here : inside.Fits (env.enter bindings) larger) :
    { inside with env := inside.env.pop.2 }.Fits env larger where
  subst := here.subst
  scopes := by rw [here.scopes, Env.pop_enter]
  schemes scheme member := (outer.schemes scheme member).grow grown
  registry := here.registry

end Session

namespace Check

variable {env : Env} {α : Type} {post : Shape → α → Prop}

theorem stays_onSubst {change : Subst → α × Subst}
    (changed : ∀ {subst}, subst.Fits shape → ∃ larger, shape ≤ larger ∧
      larger.arity? = shape.arity? ∧ (change subst).2.Fits larger ∧ post larger (change subst).1) :
    Stays (Session.Fits env) shape post (onSubst change) :=
  .modifyGet fun here => by
    obtain ⟨larger, grown, same, there, holds⟩ := changed here.subst
    exact ⟨larger, grown, here.withSubst grown same there, holds⟩

theorem stays_onRegistry {change : Registry → α × Registry}
    (changed : ∀ {registry}, registry.Fits shape → ∃ larger, shape ≤ larger ∧
      larger.cells = shape.cells ∧
      (change registry).2.Fits larger ∧ post larger (change registry).1) :
    Stays (Session.Fits env) shape post (onRegistry change) :=
  .modifyGet fun here => by
    obtain ⟨larger, grown, same, there, holds⟩ := changed here.registry
    exact ⟨larger, grown, here.withRegistry grown same there, holds⟩

theorem stays_fresh {change : Subst → TyVar × Subst} {cell : Cell} (isNew : cell.IsNew)
    (pushes : ∀ subst, change subst = subst.push cell) :
    Stays (Session.Fits env) shape (fun later v => v.index < later.cells) (onSubst change) :=
  stays_onSubst fun {subst} here => by
    rw [pushes]
    refine ⟨_, Shape.le_withCells (Nat.le_succ _), rfl, here.push isNew, ?_⟩
    exact Nat.lt_succ_of_le (Nat.le_of_eq here.size)

theorem stays_freshVar : Stays (Session.Fits env) shape (fun later ty => ty.Fits later) freshVar :=
  stays_onSubst fun here =>
    ⟨_, Shape.le_withCells (Nat.le_succ _), rfl, here.push Cell.isNew_unbound,
      .var (Nat.lt_succ_of_le (Nat.le_of_eq here.size))⟩

theorem stays_freshVars (count : Nat) :
    Stays (Session.Fits env) shape
    (fun later types => types.length = count ∧ ∀ ty ∈ types, ty.Fits later) (freshVars count) :=
  stays_onSubst fun here => by
    obtain ⟨larger, grown, same, there, length, each⟩ := here.pushMany Cell.isNew_unbound count
    exact ⟨larger, grown, same, there, (List.length_map _).trans length,
      List.forall_mem_map.mpr fun v member => .var (each v member)⟩

theorem stays_unify {expected found : Ty} (fits : expected.Fits shape) (fits' : found.Fits shape)
    (span : Span) : Stays (Session.Fits env) shape unsaid (unify expected found span) := by
  intro session here
  have arrived := Subst.stays_unify fits fits' session.subst ⟨here.subst, rfl⟩
  simp only [unify]
  cases result : Subst.unify expected found session.subst with
  | ok value subst =>
    rw [result] at arrived
    obtain ⟨larger, grown, there, -⟩ := arrived
    exact ⟨larger, grown, here.withSubst grown there.same there.toFits, trivial⟩
  | error error subst =>
    rw [result] at arrived
    intro _
    obtain ⟨larger, grown, there⟩ := arrived trivial
    exact ⟨larger, grown, here.withSubst grown there.same there.toFits⟩

theorem stays_openFlexible {ty : Ty} {span : Span} (fits : ty.Fits shape) :
    Stays (Session.Fits env) shape (fun later ty => ty.Fits later) (openFlexible ty span) := by
  refine .ensure (stays_onSubst fun {subst} here => ?_)
  have shallow := here.shallow fits
  split
  · rename_i vars body found
    rw [found] at shallow
    obtain ⟨larger, grown, same, there, -, each⟩ := here.pushMany Cell.isNew_unbound vars.length
    refine ⟨larger, grown, same, there, Ty.Fits.substitute_ofLists ?_ ?_⟩
    · exact there.zonk (shallow.quantified_inv.2.grow grown)
    · exact List.forall_mem_map.mpr fun v member => .var (each v member)
  · exact ⟨shape, le_rfl, rfl, here, shallow⟩

theorem rigidCopies_fits {vars : List TyVar} {subst : Subst} (here : subst.Fits shape) :
    ∃ larger, shape ≤ larger ∧ larger.arity? = shape.arity? ∧
    (rigidCopies subst vars).2.Fits larger ∧
      ∀ v ∈ (rigidCopies subst vars).1, v.index < larger.cells := by
  induction vars generalizing subst shape with
  | nil => exact ⟨shape, le_rfl, rfl, here, List.forall_mem_nil _⟩
  | cons var vars ih =>
    obtain ⟨larger, grown, same, there, each⟩ :=
      ih (here.push (Cell.isNew_rigid (subst.rigidName? var)))
    refine ⟨larger, (Shape.le_withCells (Nat.le_succ _)).trans grown, same, there, ?_⟩
    refine List.forall_mem_cons.mpr ⟨Nat.lt_of_lt_of_le ?_ grown.1, each⟩
    exact Nat.lt_succ_of_le (Nat.le_of_eq here.size)

theorem stays_openRigid {vars : List TyVar} {body : Ty} {span : Span}
    (fits : Ty.Fits shape (.quantified vars body)) :
    Stays (Session.Fits env) shape (fun later opened => opened.2.Fits later)
    (openRigid vars body span) := by
  refine .ensure (stays_onSubst fun {subst} here => ?_)
  obtain ⟨larger, grown, same, there, each⟩ := rigidCopies_fits here
  refine ⟨larger, grown, same, there, Ty.Fits.substitute_ofLists ?_ ?_⟩
  · exact there.zonk (fits.quantified_inv.2.grow grown)
  · exact List.forall_mem_map.mpr fun v member => .var (each v member)

theorem stays_instantiate {scheme : Scheme} (fits : scheme.Fits shape) :
    Stays (Session.Fits env) shape (fun later ty => ty.Fits later)
    (onSubst scheme.instantiate) := by
  refine stays_onSubst fun {subst} here => ?_
  have resolved := here.zonk fits.ty
  unfold Scheme.instantiate
  dsimp only
  split
  · exact ⟨shape, le_rfl, rfl, here, resolved⟩
  · obtain ⟨larger, grown, same, there, -, each⟩ :=
      here.pushMany Cell.isNew_unbound scheme.vars.length
    refine ⟨larger, grown, same, there, (resolved.grow grown).substitute_ofLists ?_⟩
    exact List.forall_mem_map.mpr fun v member => .var (each v member)

theorem stays_intTy (width : Nat) :
    Stays (Session.Fits env) shape (fun later ty => ty.Fits later) (intTy width) :=
  stays_onRegistry fun here => by
    obtain ⟨larger, grown, same, there, arity⟩ := here.intTemplate width
    exact ⟨larger, grown, same, there, .nominal arity (List.forall_mem_nil _)⟩

theorem stays_literal (value : Literal) (span : Span) :
    Stays (Session.Fits env) shape (fun later result => result.2.Fits later)
    (literal value span) := by
  unfold literal
  split
  · exact fun session here =>
      ⟨shape, le_rfl, here, .nominal here.registry.bool (List.forall_mem_nil _)⟩
  · refine .get fun session _ => ?_
    dsimp only
    split
    · exact .throw _
    · exact (stays_intTy _).bind fun _ fits => .pure fits
  · split
    · exact .throw _
    · exact fun session here =>
        ⟨shape, le_rfl, here, .nominal here.registry.str (List.forall_mem_nil _)⟩

theorem stays_ctorInstance {info : CtorInfo} (fits : info.Fits shape) :
    Stays (Session.Fits env) shape
      (fun later result => (∀ ty ∈ result.1, ty.Fits later) ∧ result.2.Fits later)
      (ctorInstance info) := by
  refine .get fun session here => ?_
  obtain ⟨count, arity⟩ := Option.isSome_iff_exists.mp fits.template
  have same : session.registry.paramCount info.template = count := by
    rw [← here.registry.arity] at arity
    exact congrArg (Option.getD · 0) arity
  refine (stays_freshVars _).bind fun grown fresh => ?_
  obtain ⟨length, each⟩ := fresh
  exact .pure ⟨here.registry.fieldsAt grown _ _ each,
    .nominal (by rw [grown.2 _ _ arity, length, same]) each⟩

end Check

end PolyCheck
