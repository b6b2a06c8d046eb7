import PolyCheck.Proofs.Session.Committed
import PolyCheck.Proofs.Session.InRange

/-! No dangling references. Declarations leave a session without missing parts, and so does every
unit, also one that fails and is taken back. What is met on any walk from a type of such a session
is there. -/
namespace PolyCheck

open Run Check

variable {shape larger : Shape} {env : Env}

section Definitions

variable {template : Template}

theorem Template.Fits.addCase? (fits : template.Fits shape) {name : Name} {fields : List Ty}
    (each : ∀ field ∈ fields, field.Fits shape) {changed : Template}
    (added : template.addCase? name fields = some changed) :
    changed.Fits shape ∧ changed.params = template.params := by
  rw [Template.addCase?] at added
  split at added
  · cases added
  · obtain rfl := Option.some.inj added
    exact ⟨⟨fits.params,
        List.forall_mem_append.mpr ⟨fits.fields, List.forall_mem_singleton.mpr each⟩⟩, rfl⟩

theorem Template.Fits.settle (fits : template.Fits shape) (change : Kind → Kind) :
    ((template.mapKinds change).freeze).Fits shape := by
  have same : ((template.mapKinds change).freeze).paramVars = template.paramVars := by
    simp [Template.mapKinds, Template.freeze, Template.paramVars]
  exact ⟨same ▸ fits.params, fits.fields⟩

theorem fits_ctorTy {fields : List Ty} {result : Ty} (each : ∀ field ∈ fields, field.Fits shape)
    (fits : result.Fits shape) : (ctorTy fields result).Fits shape := by
  unfold ctorTy
  split
  · exact fits
  · exact .arrow (.tupled each) fits

theorem Template.Fits.ctors (fits : template.Fits shape) {id : TemplateId}
    (arity : shape.arity? id = some template.params.length) {info : CtorInfo}
    (member : info ∈ template.ctors id) : info.Fits shape := by
  rw [Template.ctors] at member
  obtain ⟨⟨dataCase, index⟩, inside, rfl⟩ := List.mem_map.mp member
  have self : (template.selfTy id).Fits shape := by
    refine .nominal ?_ (List.forall_mem_map.mpr fun v member => .var (fits.params v member))
    rw [arity, List.length_map, Template.paramVars, List.length_map]
  refine ⟨?_, fits.params,
    fits_ctorTy (fits.fields dataCase (List.fst_mem_of_mem_zipIdx inside)) self⟩
  rw [arity]
  rfl

end Definitions

namespace Elaborate

variable {state : Elaborator}

def Entered (shape : Shape) (id : TemplateId) : Prop := (shape.arity? id).isSome

theorem lasts_entered : Lasts Entered := fun grown entered => Shape.isSome_arity? grown entered

theorem stays_enterData (decl : Surface.DataDecl) (here : state.Fits shape) :
    Stays (Session.Fits env) shape (Reads Entered) (enterData decl state) := by
  refine .state_lift (stays_distinct _ _ _) fun grown _ => ?_
  refine .state_bind (stays_bindParams (here.grow grown) decl.params) fun {later bound _} _
    params => ?_
  have made : (Template.openWith decl.name bound).Fits later :=
    ⟨List.forall_mem_map.mpr params.1, List.forall_mem_nil _⟩
  have entered : Stays (Session.Fits env) later Entered (onRegistry fun registry =>
      let allocated := registry.alloc (.openWith decl.name bound)
      (allocated.1, allocated.2.defineType decl.name (.data allocated.1))) :=
    stays_onRegistry fun around => by
      obtain ⟨larger, grown, same, there, arity⟩ := around.alloc made
      have isSome : Entered larger _ := Option.isSome_iff_exists.mpr ⟨_, arity⟩
      exact ⟨larger, grown, same, there.defineType _ (.data isSome), isSome⟩
  refine .state_modify (.state_lifted entered fun grown entered => ⟨entered, ?_⟩)
  exact (params.2.inScope (List.forall_mem_nil _)).grow grown

theorem stays_addCase (id : TemplateId) (decl : Surface.CaseDecl) (here : state.Fits shape) :
    Stays (Session.Fits env) shape (fun later result => result.2.Fits later)
    (addCase id decl state) := by
  refine .state_bind (stays_starTypes decl.fields here) fun {later fields _} _ read => ?_
  refine .state_get fun session around => ?_
  cases found : (session.registry.template? id).bind (·.addCase? decl.name fields) with
  | none => exact stays_fail _ _
  | some changed =>
    obtain ⟨template, known, added⟩ := Option.bind_eq_some_iff.mp found
    obtain ⟨fits, params⟩ := (around.registry.template known).addCase? read.1 added
    have arity := around.registry.isSome_arity? known
    have extended : Stays (Session.Fits env) later unsaid
        (onRegistry fun registry => ((), registry.modifyTemplate id fun _ => changed)) :=
      stays_onRegistry fun there => by
        refine ⟨later, le_rfl, rfl, there.modifyTemplate fun other known' => ⟨fits, ?_⟩, trivial⟩
        rw [params]
        exact Option.some.inj (arity.symm.trans (there.isSome_arity? known'))
    exact .state_lifted extended fun grown _ => read.2.grow grown

theorem stays_fillData (decl : Surface.DataDecl) (id : TemplateId) (here : state.Fits shape) :
    Stays (Session.Fits env) shape (fun later result => result.2.Fits later)
    (fillData decl id state) := by
  refine .state_get fun session around => .state_modify ?_
  have inScope : ∀ param ∈ ((decl.params.zip
      (((session.registry.template? id).map (·.params)).getD [])).map fun entry =>
        TypeBinding.mk entry.1 entry.2.1 entry.2.2).reverse, param.var.index < shape.cells := by
    intro param member
    obtain ⟨⟨name, var, kind⟩, inside, rfl⟩ := List.mem_map.mp (List.mem_reverse.mp member)
    have inside := (List.of_mem_zip inside).2
    cases known : session.registry.template? id with
    | none => simp [known] at inside
    | some template =>
      rw [known, Option.map_some, Option.getD_some] at inside
      exact (around.registry.template known).params var (List.mem_map_of_mem inside)
  exact .state_forM unsaid (fun later (state : Elaborator) => state.Fits later) (fun _ _ => trivial)
    (fun _ _ => trivial) (here.inScope inScope) fun _ _ here => stays_addCase id _ here

theorem stays_sealData (id : TemplateId) (here : state.Fits shape) :
    Stays (Session.Fits env) shape (fun later result => result.2.Fits later)
    (sealData id state) := by
  have settled : Stays (Session.Fits env) shape unsaid (onRegistry fun registry =>
      ((), registry.modifyTemplate id fun template =>
        (template.mapKinds state.kinds.defaulted).freeze)) :=
    stays_onRegistry fun around => ⟨shape, le_rfl, rfl, around.modifyTemplate fun template known =>
      ⟨(around.template known).settle _, by simp [Template.mapKinds, Template.freeze]⟩, trivial⟩
  exact .state_own (.state_lifted settled fun grown _ => here.grow grown)

theorem stays_dataGroup (group : List Surface.DataDecl) (here : state.Fits shape) :
    Stays (Session.Fits env) shape (Reads unsaid) (dataGroup group state) := by
  refine .state_bind
    (.state_mapM unsaid Entered (fun later (state : Elaborator) => state.Fits later)
    (fun _ _ => trivial) lasts_entered (fun _ _ => trivial) here
    fun _ _ here => stays_enterData _ here) fun {_ ids _} _ entered => ?_
  refine .state_bind (.state_forM unsaid (fun later (state : Elaborator) => state.Fits later)
    (fun _ _ => trivial)
    (fun _ _ => trivial) entered.2 fun {_ entry _} _ _ here => stays_fillData entry.1 entry.2 here)
    fun _ here => ?_
  refine .state_bind (.state_forM unsaid (fun later (state : Elaborator) => state.Fits later)
    (fun _ _ => trivial)
    (fun _ _ => trivial) here fun _ _ here => stays_sealData _ here) fun _ here => ?_
  exact .state_pure ⟨trivial, here⟩

end Elaborate

namespace Check

theorem stays_defineCtors (id : TemplateId) :
    Stays (Session.Fits env) shape unsaid (defineCtors id) :=
  stays_onRegistry fun {registry} around => by
    refine ⟨shape, le_rfl, rfl, around.foldl_defineCtor fun info member => ?_, trivial⟩
    cases known : registry.template? id with
    | none => simp [known] at member
    | some template =>
      rw [known, Option.map_some, Option.getD_some] at member
      exact (around.template known).ctors (around.isSome_arity? known) member

theorem stays_data (group : List Surface.DataDecl) :
    Stays (Session.Fits env) shape unsaid (data group) := by
  have rest : ∀ {shape : Shape}, Stays (Session.Fits env) shape unsaid (do
      let ids ← (Elaborate.dataGroup group).run' .forDeclaration
      ids.forM defineCtors
      pure ids) := by
    intro shape
    have declared : Stays (Session.Fits env) shape unsaid
        ((Elaborate.dataGroup group).run' .forDeclaration) :=
      (Elaborate.stays_dataGroup group Elaborator.fits_forDeclaration).map fun _ _ => trivial
    refine declared.bind fun _ _ => ?_
    refine (Arrives.forM unsaid (fun _ _ => trivial) (fun _ _ => trivial)
      fun _ _ => stays_defineCtors _).bind fun _ _ => .pure trivial
  unfold data
  split
  · exact (stays_distinct _ _ _).bind fun _ _ => (stays_distinct _ _ _).bind fun _ _ => rest
  · exact rest

theorem stays_synonym (name : Name) (params : List Name) (body : Surface.TypeExpr) (span : Span) :
    Stays (Session.Fits env) shape unsaid (synonym name params body span) := by
  refine (stays_distinct _ _ _).bind fun {middle _} _ _ => ?_
  have read : Stays (Session.Fits env) middle
      (Elaborate.Reads fun later result =>
        (∀ param ∈ result.1, param.1.index < later.cells) ∧ Elaborate.FitsType later result.2)
      ((do
        let params ← params.mapM Elaborate.bindParam
        let body ← Elaborate.type body
        pure (params, body) : Elaborate (List (TyVar × Kind) × Ty × Kind)) .forDeclaration) := by
    refine .state_bind (Elaborate.stays_bindParams Elaborator.fits_forDeclaration params)
      fun _ bound => ?_
    refine .state_bind (Elaborate.stays_type body bound.2) fun grown read =>
      .state_pure ⟨⟨?_, read.1⟩, read.2⟩
    exact fun param member => Nat.lt_of_lt_of_le (bound.1 param member) grown.1
  refine read.bind fun {last result} _ fits => ?_
  obtain ⟨⟨vars, ty, bodyKind⟩, state⟩ := result
  obtain ⟨⟨binders, fits⟩, -⟩ := fits
  refine stays_onRegistry fun around => ⟨last, le_rfl, rfl, around.defineType name (.synonym ?_ _),
    trivial⟩
  split
  · exact fits
  · exact .quantified (List.forall_mem_map.mpr binders) fits

/-- What a unit gives: definitions and terms with types that fit. -/
def Yields (shape : Shape) : CheckedDecl → Prop
  | .define _ definitions => ∀ definition ∈ definitions, Shape.discipline.Defines shape definition
  | .eval term => Shape.discipline.Types shape term
  | .data _ | .synonym _ => True

theorem stays_unit (written : Surface.Decl) :
    Stays (Session.Fits env) shape Yields (unit written) := by
  cases written with
  | data span group => exact (stays_data group).map fun _ _ => trivial
  | synonym span name params body =>
    exact (stays_synonym name params body span).bind fun _ _ => .pure trivial
  | define span recursive bindings =>
    exact (Shape.discipline.checks_group recursive bindings fun _ _ => trivial).map fun _
      defines => defines
  | eval span expr =>
    exact (Shape.discipline.infers expr fun _ _ => trivial).map fun _ types => types

end Check

section Units

variable {options : Options} {session after : Session}

theorem Subst.Fits.of_cells {subst after : Subst} (fits : subst.Fits shape)
    (same : after.cells = subst.cells) : after.Fits shape where
  size := by rw [Subst.size, same, ← fits.size, Subst.size]
  cell v := by
    rw [Subst.cell, same]
    exact fits.cell v

theorem Registry.Fits.of_tables {registry after : Registry} (fits : registry.Fits shape)
    (templates : after.templates = registry.templates) (types : after.types = registry.types)
    (ctors : after.ctors = registry.ctors) (ints : after.ints = registry.ints) : after.Fits shape :=
  fits.of_templates templates (fun known => fits.type (types ▸ known))
    (fun known => fits.ctor (ctors ▸ known)) fun known => fits.int (ints ▸ known)

namespace Session

theorem fits_start (options : Options) :
    (Session.start options).Fits Env.empty ⟨0, Registry.initial.arity?⟩ where
  subst := ⟨rfl, fun _ => .unbound⟩
  scopes := rfl
  schemes _ member := by cases member
  registry :=
    { arity := rfl
      template := fun known => by
        obtain ⟨name, builtin, rfl⟩ := Registry.template?_initial known
        exact ⟨List.forall_mem_nil _, List.forall_mem_nil _⟩
      type := fun known => by
        rcases Registry.types_initial known with rfl | rfl
        · exact .data rfl
        · exact .data rfl
      ctor := fun known => by cases known
      bool := rfl
      str := rfl
      int := fun known => by cases known }

theorem Fits.opened (fits : session.Fits env shape) : (opened session).Fits env shape :=
  ⟨fits.subst.of_cells rfl, fits.scopes, fits.schemes, fits.registry.of_tables rfl rfl rfl rfl⟩

theorem Fits.accepted (fits : session.Fits session.env shape) {written : Surface.Decl}
    {checked : CheckedDecl} (accepted : Check.decl written session = .ok checked after) :
    ∃ larger, shape ≤ larger ∧ after.Fits after.env larger ∧ Check.Yields larger checked := by
  have arrived := Check.stays_unit written (Check.opened session) fits.opened
  obtain ⟨found, reached, run, rfl, rfl⟩ := Check.exists_unit_of_ok accepted
  rw [run] at arrived
  obtain ⟨larger, grown, there, yields⟩ := arrived
  have resolved : Check.Yields larger (found.zonk reached.subst) := by
    cases found with
    | data _ | synonym _ => trivial
    | define recursive definitions =>
      refine Term.everywhereDefinitions_iff.mp
        (Term.EverywhereDefinitions.zonk (fun ty => there.subst.zonk)
        (fun scheme fits => ⟨fits.vars, there.subst.zonk fits.ty⟩)
          (Term.everywhereDefinitions_iff.mpr yields))
    | eval term =>
      exact Term.Everywhere.zonk (fun ty => there.subst.zonk)
        (fun scheme fits => ⟨fits.vars, there.subst.zonk fits.ty⟩) yields
  refine ⟨larger, grown, ⟨there.subst.of_cells rfl, rfl, fun scheme member => ?_,
    there.registry.of_tables rfl rfl rfl rfl⟩, resolved⟩
  rw [there.scopes] at member
  refine Env.forall_mem_schemes_bindGlobal there.schemes (fun definition inside => ?_) scheme member
  cases found with
  | data _ | synonym _ | eval _ => cases inside
  | define recursive definitions => exact (resolved definition inside).1

theorem Reachable.fits (reachable : session.Reachable options) : ∃ shape,
    session.Fits session.env shape := by
  refine reachable.keeps (fun session => ∃ shape, session.Fits session.env shape)
    ⟨_, fits_start options⟩ (fun ⟨shape, fits⟩ accepted => ?_)
    fun _ _ ⟨shape, fits⟩ => ⟨shape, fits.subst, rfl, fits.schemes, fits.registry⟩
  obtain ⟨larger, -, there, -⟩ := fits.accepted accepted
  exact ⟨larger, there⟩

end Session

end Units

section Occurrences

mutual

/-- Every variable in a type, parameters of quantifiers included. -/
def Ty.everyVar : Ty → List TyVar
  | var v => [v]
  | arrow param result => everyVar param ++ everyVar result
  | tuple elems => everyVarAll elems
  | nominal _ args => everyVarAll args
  | quantified params body => params ++ everyVar body
  | app head args => everyVar head ++ everyVarAll args

def Ty.everyVarAll : List Ty → List TyVar
  | [] => []
  | t :: ts => everyVar t ++ everyVarAll ts

end

mutual

def Ty.everyDefinition : Ty → List TemplateId
  | var _ => []
  | arrow param result => everyDefinition param ++ everyDefinition result
  | tuple elems => everyDefinitionAll elems
  | nominal id args => id :: everyDefinitionAll args
  | quantified _ body => everyDefinition body
  | app head args => everyDefinition head ++ everyDefinitionAll args

def Ty.everyDefinitionAll : List Ty → List TemplateId
  | [] => []
  | t :: ts => everyDefinition t ++ everyDefinitionAll ts

end

/-- All that a type refers to is below the given numbers of variables and definitions. -/
structure Ty.InRange (cells templates : Nat) (ty : Ty) : Prop where
  vars : ∀ v ∈ ty.everyVar, v.index < cells
  definitions : ∀ id ∈ ty.everyDefinition, id.index < templates

structure Scheme.InRange (cells templates : Nat) (scheme : Scheme) : Prop where
  vars : ∀ v ∈ scheme.vars, v.index < cells
  ty : scheme.ty.InRange cells templates

/-- All that a session refers to, anywhere, has a cell or a definition. -/
structure Session.InRange (session : Session) : Prop where
  link : ∀ v target, session.subst.cell v = .link target → target.index < session.subst.size
  solution : ∀ v ty, session.subst.cell v = .bound ty →
    ty.InRange session.subst.size session.registry.templates.size
  scheme : ∀ scheme ∈ session.env.schemes,
    scheme.InRange session.subst.size session.registry.templates.size
  param : ∀ id template, session.registry.template? id = some template →
    ∀ v ∈ template.paramVars, v.index < session.subst.size
  field : ∀ id template, session.registry.template? id = some template →
    ∀ dataCase ∈ template.cases,
    ∀ field ∈ dataCase.fields, field.InRange session.subst.size session.registry.templates.size
  ctor : ∀ name info, session.registry.ctors.get? name = some info →
    info.template.index < session.registry.templates.size ∧
      info.scheme.InRange session.subst.size session.registry.templates.size
  synonym : ∀ name ty kind, session.registry.types.get? name = some (.synonym ty kind) →
    ty.InRange session.subst.size session.registry.templates.size
  data : ∀ name id, session.registry.types.get? name = some (.data id) →
    id.index < session.registry.templates.size
  int : ∀ width id, session.registry.ints.get? width = some id →
    id.index < session.registry.templates.size

variable {ty : Ty} {templates : Nat}

theorem Ty.mem_everyVarAll {types : List Ty} {v : TyVar} :
    v ∈ everyVarAll types ↔ ∃ t ∈ types, v ∈ t.everyVar := by
  induction types with
  | nil => simp [everyVarAll]
  | cons t ts ih => simp [everyVarAll, ih]

theorem Ty.mem_everyDefinitionAll {types : List Ty} {id : TemplateId} :
    id ∈ everyDefinitionAll types ↔ ∃ t ∈ types, id ∈ t.everyDefinition := by
  induction types with
  | nil => simp [everyDefinitionAll]
  | cons t ts ih => simp [everyDefinitionAll, ih]

theorem Ty.Fits.everyVar_lt (fits : ty.Fits shape) : ∀ v ∈ ty.everyVar, v.index < shape.cells := by
  induction fits with
  | var inside => exact List.forall_mem_singleton.mpr inside
  | arrow _ _ ihParam ihResult => exact List.forall_mem_append.mpr ⟨ihParam, ihResult⟩
  | tuple _ ih | nominal _ _ ih =>
    intro v member
    obtain ⟨t, inside, member⟩ := mem_everyVarAll.mp member
    exact ih t inside v member
  | quantified binders _ ih => exact List.forall_mem_append.mpr ⟨binders, ih⟩
  | app _ _ ihHead ih =>
    refine List.forall_mem_append.mpr ⟨ihHead, fun v member => ?_⟩
    obtain ⟨t, inside, member⟩ := mem_everyVarAll.mp member
    exact ih t inside v member

theorem Ty.Fits.everyDefinition_isSome (fits : ty.Fits shape) :
    ∀ id ∈ ty.everyDefinition, (shape.arity? id).isSome := by
  induction fits with
  | var _ => exact List.forall_mem_nil _
  | arrow _ _ ihParam ihResult => exact List.forall_mem_append.mpr ⟨ihParam, ihResult⟩
  | tuple _ ih =>
    intro id member
    obtain ⟨t, inside, member⟩ := mem_everyDefinitionAll.mp member
    exact ih t inside id member
  | nominal arity _ ih =>
    refine List.forall_mem_cons.mpr ⟨by rw [arity]; rfl, fun id member => ?_⟩
    obtain ⟨t, inside, member⟩ := mem_everyDefinitionAll.mp member
    exact ih t inside id member
  | quantified _ _ ih => exact ih
  | app _ _ ihHead ih =>
    refine List.forall_mem_append.mpr ⟨ihHead, fun id member => ?_⟩
    obtain ⟨t, inside, member⟩ := mem_everyDefinitionAll.mp member
    exact ih t inside id member

theorem Registry.Fits.index_lt {registry : Registry} (fits : registry.Fits shape) {id : TemplateId}
    (known : (shape.arity? id).isSome) : id.index < registry.templates.size := by
  rw [← fits.arity, Registry.arity?, Option.isSome_map] at known
  obtain ⟨template, known⟩ := Option.isSome_iff_exists.mp known
  exact Registry.index_lt_of_template? known

theorem Session.Fits.inRange {session : Session} (fits : session.Fits env shape) :
    session.InRange := by
  have known : ∀ {id}, (shape.arity? id).isSome → id.index < session.registry.templates.size :=
    fits.registry.index_lt
  have types : ∀ {ty : Ty}, ty.Fits shape →
      ty.InRange session.subst.size session.registry.templates.size := fun there =>
    ⟨fun v member => fits.subst.size ▸ there.everyVar_lt v member,
      fun id member => known (there.everyDefinition_isSome id member)⟩
  have schemes : ∀ {scheme : Scheme}, scheme.Fits shape →
      scheme.InRange session.subst.size session.registry.templates.size := fun there =>
    ⟨fun v member => fits.subst.size ▸ there.vars v member, types there.ty⟩
  have cell := fits.subst.cell
  refine ⟨fun v target same => ?_, fun v ty same => ?_, fun scheme member => ?_,
    fun id template found v member => ?_,
    fun id template found dataCase inCases field inFields => ?_, fun name info found => ?_,
    fun name ty kind found => ?_, fun name id found => ?_, fun width id found => known ?_⟩
  · cases same ▸ cell v with
    | link inside => exact fits.subst.size ▸ inside
  · cases same ▸ cell v with
    | bound there => exact types there
  · exact schemes (fits.schemes scheme (fits.scopes ▸ member))
  · exact fits.subst.size ▸ (fits.registry.template found).params v member
  · exact types ((fits.registry.template found).fields dataCase inCases field inFields)
  · exact ⟨known (fits.registry.ctor found).template, schemes (fits.registry.ctor found).scheme⟩
  · cases fits.registry.type found with
    | synonym there _ => exact types there
  · cases fits.registry.type found with
    | data isSome => exact known isSome
  · rw [fits.registry.int found]
    rfl

/-- What a walk from a type meets: its parts, what its variables stand for, what its functions
reduce to, and the fields of its definitions. -/
inductive Session.Meets (session : Session) (ty : Ty) : Ty → Prop where
  | here : Meets session ty ty
  | part {t child : Ty} (met : Meets session ty t) (member : child ∈ t.children) :
      Meets session ty child
  | param {params : List TyVar} {body : Ty} {v : TyVar}
      (met : Meets session ty (.quantified params body))
    (member : v ∈ params) : Meets session ty (.var v)
  | link {v target : TyVar} (met : Meets session ty (.var v))
      (cell : session.subst.cell v = .link target) : Meets session ty (.var target)
  | solution {v : TyVar} {t : Ty} (met : Meets session ty (.var v))
      (cell : session.subst.cell v = .bound t) : Meets session ty t
  | reduct {head : Ty} {args : List Ty} (met : Meets session ty head) (each : ∀ arg ∈ args,
      Meets session ty arg) : Meets session ty (head.apply args)
  | field {id : TemplateId} {args : List Ty} {t : Ty} (index : Nat)
      (met : Meets session ty (.nominal id args))
    (member : t ∈ session.registry.fieldsAt id index args) : Meets session ty t

theorem Session.Meets.fits {session : Session} {met : Ty} (meets : session.Meets ty met)
    (here : session.Fits env shape) (fits : ty.Fits shape) : met.Fits shape := by
  induction meets with
  | here => exact fits
  | part _ member ih => exact ih.children _ member
  | param _ member ih => exact .var (ih.quantified_inv.1 _ member)
  | @link v target _ cell _ =>
    cases cell ▸ here.subst.cell v with
    | link inside => exact .var inside
  | @solution v t _ cell _ =>
    cases cell ▸ here.subst.cell v with
    | bound there => exact there
  | reduct _ _ ih ihAll => exact ih.apply ihAll
  | field index _ member ih =>
    refine here.registry.fieldsAt le_rfl _ index (fun t inside => ?_) _ member
    exact ih.children t inside

/-- Every lookup on a walk from the type succeeds: variables have cells, and definitions are there,
with as many parameters as they are given arguments. -/
def Session.Finds (session : Session) (ty : Ty) : Prop :=
  ∀ met, session.Meets ty met → (∀ v, met = .var v → v.index < session.subst.size) ∧
    ∀ id args, met = .nominal id args →
      ∃ template, session.registry.template? id = some template ∧
      template.params.length = args.length

theorem Session.Fits.finds {session : Session} (here : session.Fits env shape)
    (fits : ty.Fits shape) : session.Finds ty := by
  refine fun met meets => ⟨?_, ?_⟩
  · rintro v rfl
    exact here.subst.size ▸ (meets.fits here fits).index_lt
  · rintro id args rfl
    cases meets.fits here fits with
    | nominal arity _ =>
      rw [← here.registry.arity, Registry.arity?] at arity
      exact Option.map_eq_some_iff.mp arity

end Occurrences

namespace Session

variable {options : Options} {session : Session}

/-- After any units, accepted or refused, all that a session refers to is there. The next unit
starts from such a session, and each of its checks, of expressions, patterns, written types and
comparisons, leads from such sessions to such sessions, whether it gives a result or fails, and to
types of which the same holds. So whatever is looked up on the way, from any type at hand, is
found. -/
theorem no_dangling_references (reachable : session.Reachable options) :
    session.InRange ∧ (∃ shape, (opened session).Fits session.env shape) ∧
      ∀ (env : Env) (shape : Shape),
        (∀ during : Session, during.Fits env shape →
          during.InRange ∧ ∀ ty : Ty, ty.Fits shape → during.Finds ty) ∧
        (∀ written, Stays (Session.Fits env) shape Check.Yields (unit written)) ∧
        (∀ written, Stays (Session.Fits env) shape
          (fun later term => term.Everywhere (·.Fits later) (·.Fits later)) (infer written)) ∧
        (∀ written captures, (∀ capture ∈ captures, capture.2.Fits shape) →
          Stays (Session.Fits env) shape
            (fun later found => found.1.2.Fits later ∧ ∀ capture ∈ found.2, capture.2.Fits later)
            (pattern written captures)) ∧
        (∀ written, Stays (Session.Fits env) shape (fun later ty => ty.Fits later)
          (writtenType written)) ∧
        ∀ expected found span, expected.Fits shape → found.Fits shape →
          Stays (Session.Fits env) shape unsaid (unify expected found span) := by
  obtain ⟨shape, fits⟩ := reachable.fits
  refine ⟨fits.inRange, ⟨shape, fits.opened⟩,
    fun env shape => ⟨fun during here => ?_, ?_, ?_, ?_, ?_, ?_⟩⟩
  · exact ⟨here.inRange, fun ty => here.finds⟩
  · exact stays_unit
  · exact fun written => Shape.discipline.infers written fun _ _ => trivial
  · exact fun written captures holds => Shape.discipline.checks_pattern written
      (fun _ _ => trivial) holds
  · exact stays_writtenType
  · exact fun expected found span fits fits' => stays_unify fits fits' span

/-- The unit that asks for a box of a truth value and gives a number. -/
def boxedNumber : Surface.Decl :=
  .eval default (.ascribed default (.lit default (.int 1 none))
    (.app default (.name default "box") [.name default "bool"]))

/-- The unit is refused after the definition of `box`, whose references are all there then. -/
theorem boxedNumber_in_range : ∃ checked middle error after,
    Check.decl boxDecl (Session.start .standard) = .ok checked middle ∧
      Check.decl boxedNumber middle = .error error after ∧ after.InRange := by
  have shown : gives (fun _ middle => !gives (fun _ _ => true) (Check.decl boxedNumber middle))
      (Check.decl boxDecl (Session.start .standard)) = true := by cbv
  obtain ⟨checked, middle, accepted, refused⟩ := exists_of_gives shown
  cases result : Check.decl boxedNumber middle with
  | ok found after => simp [result, gives] at refused
  | error error after =>
    have reachable : Reachable .standard after :=
      .decl (.decl .start boxDecl (.inl ⟨checked, accepted⟩)) boxedNumber (.inr ⟨error, result⟩)
    exact ⟨checked, middle, error, after, accepted, result, (no_dangling_references reachable).1⟩

end Session

end PolyCheck
