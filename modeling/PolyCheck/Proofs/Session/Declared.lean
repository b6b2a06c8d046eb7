import PolyCheck.Proofs.Session.Declarations
import PolyCheck.Proofs.Session.InPlay

/-! Declared types. What a unit declares without leaving anything open is closed: fields are types
over the parameters of their own definition, aliases have no free variables, and the signatures of
constructors quantify what they mention. Everything else in the tables stays as it is. -/
namespace PolyCheck

open Run

def Surface.Decl.typeNames : Surface.Decl → List Name
  | .data _ types => types.map (·.name)
  | .synonym _ name _ _ => [name]
  | .define _ _ _ | .eval _ _ => []

def Surface.Decl.ctorNames : Surface.Decl → List Name
  | .data _ types => types.flatMap fun type => type.cases.map (·.name)
  | .synonym _ _ _ _ | .define _ _ _ | .eval _ _ => []

def Surface.Decl.valueNames : Surface.Decl → List Name
  | .define _ _ bindings => bindings.map (·.name)
  | .data _ _ | .synonym _ _ _ _ | .eval _ _ => []

namespace Registry

variable {first registry after : Registry} {types ctors : List Name} {id : TemplateId}
  {binder : TyVar → Prop}

/-- Tables in which only the given names of types and constructors may have changed; the
constructors of new definitions have given names. -/
structure Keeps (first : Registry) (types ctors : List Name) (registry : Registry) : Prop where
  size_le : first.templates.size ≤ registry.templates.size
  template : ∀ {id : TemplateId}, id.index < first.templates.size →
    registry.template? id = first.template? id
  cases : ∀ {id : TemplateId} {template : Template}, first.templates.size ≤ id.index →
    registry.template? id = some template → ∀ dataCase ∈ template.cases, dataCase.name ∈ ctors
  types : ∀ {name : Name}, name ∉ types → registry.types.get? name = first.types.get? name
  ctors : ∀ {name : Name}, name ∉ ctors → registry.ctors.get? name = first.ctors.get? name

theorem keeps_refl (registry : Registry) (types ctors : List Name) :
    registry.Keeps types ctors registry where
  size_le := Nat.le_refl _
  template _ := rfl
  cases outside known := absurd (index_lt_of_template? known) (Nat.not_lt_of_ge outside)
  types _ := rfl
  ctors _ := rfl

namespace Keeps

theorem alloc (keeps : first.Keeps types ctors registry) {template : Template}
    (empty : template.cases = []) : first.Keeps types ctors (registry.alloc template).2 where
  size_le := Nat.le_trans keeps.size_le (by simp [Registry.alloc, Arena.alloc, Arena.size])
  template {id} inside := by
    rw [template?_alloc, if_neg, keeps.template inside]
    intro same
    exact Nat.not_lt_of_ge keeps.size_le (same ▸ inside)
  cases {id found} outside known := by
    rw [template?_alloc] at known
    split at known
    · obtain rfl := Option.some.inj known
      rw [empty]
      exact List.forall_mem_nil _
    · exact keeps.cases outside known
  types := keeps.types
  ctors := keeps.ctors

theorem of_templates (keeps : first.Keeps types ctors registry)
    (templates : after.templates = registry.templates)
    (same : ∀ {name}, name ∉ types → after.types.get? name = registry.types.get? name)
    (same' : ∀ {name}, name ∉ ctors → after.ctors.get? name = registry.ctors.get? name) :
    first.Keeps types ctors after where
  size_le := by
    rw [templates]
    exact keeps.size_le
  template inside := by
    rw [template?, templates]
    exact keeps.template inside
  cases outside known := by
    rw [template?, templates] at known
    exact keeps.cases outside known
  types absent := (same absent).trans (keeps.types absent)
  ctors absent := (same' absent).trans (keeps.ctors absent)

theorem takesInts : TakesInts (first.Keeps types ctors) := by
  intro registry width keeps
  cases known : registry.ints.get? width with
  | some id => rwa [intTemplate_of_some known]
  | none =>
    rw [intTemplate_of_none known]
    have noCases : (Template.ofBuiltin ("i" ++ toString width) (.int width)).cases = [] := rfl
    have allocated := keeps.alloc noCases
    exact allocated.of_templates (templates_record _ _) (fun _ => by rw [types_record]; rfl)
      fun _ => by rw [ctors_record]; rfl

theorem defineType (keeps : first.Keeps types ctors registry) {name : Name} (own : name ∈ types)
    (meaning : TypeDef) : first.Keeps types ctors (registry.defineType name meaning) := by
  refine keeps.of_templates (templates_record _ _) (fun {other} absent => ?_) fun _ => ?_
  · have different : other ≠ name := fun same => absent (same ▸ own)
    rw [Registry.defineType, types_record, Table.get?_insert, if_neg different]
  · rw [Registry.defineType, ctors_record]

theorem defineCtor (keeps : first.Keeps types ctors registry) {info : CtorInfo}
    (own : info.name ∈ ctors) : first.Keeps types ctors (registry.defineCtor info) := by
  refine keeps.of_templates (templates_record _ _) (fun _ => ?_) fun {other} absent => ?_
  · rw [Registry.defineCtor, types_record]
  · have different : other ≠ info.name := fun same => absent (same ▸ own)
    rw [Registry.defineCtor, ctors_record, Table.get?_insert, if_neg different]

theorem modifyTemplate (keeps : first.Keeps types ctors registry)
    (outside : first.templates.size ≤ id.index)
    {change : Template → Template} (names : ∀ template, registry.template? id = some template →
      ∀ dataCase ∈ (change template).cases, dataCase.name ∈ ctors) :
    first.Keeps types ctors (registry.modifyTemplate id change) where
  size_le := Nat.le_trans keeps.size_le
    (by simp [Registry.modifyTemplate, Arena.modify, Arena.size])
  template {other} inside := by
    rw [template?_modify, if_neg, keeps.template inside]
    rintro rfl
    omega
  cases {other template} outside' known := by
    rw [template?_modify] at known
    split at known
    · rename_i same
      subst same
      obtain ⟨old, there, rfl⟩ := Option.map_eq_some_iff.mp known
      exact names old there
    · exact keeps.cases outside' known
  types := keeps.types
  ctors := keeps.ctors

end Keeps

end Registry

namespace Session

variable {closed : Prop} {base : Subst} {env : Env} {kept kept' : Registry → Prop} {world : World}
  {session : Session}

theorem Local.withRegistry (here : session.Local closed base env kept world) {registry : Registry}
    (tables : registry.Closed world.binder (world.Loose closed)) (holds : kept' registry) :
    { session with registry }.Local closed base env kept' world :=
  ⟨here.subst, here.scopes, here.schemes, tables, holds⟩

theorem Local.weaken (here : session.Local closed base env kept world)
    (holds : kept' session.registry) : session.Local closed base env kept' world :=
  ⟨here.subst, here.scopes, here.schemes, here.registry, holds⟩

end Session

section Closing

variable {binder loose : TyVar → Prop} {registry after : Registry} {id : TemplateId}
  {template : Template}

theorem Template.Closed.addCase? (closed : template.Closed binder loose) {name : Name}
    {fields : List Ty}
    (each : ∀ field ∈ fields, field.Confined binder fun v => loose v ∨ v ∈ template.paramVars)
    {changed : Template}
    (added : template.addCase? name fields = some changed) :
    changed.Closed binder loose ∧ changed.paramVars = template.paramVars ∧
      changed.cases = template.cases ++ [⟨name, fields⟩] := by
  rw [Template.addCase?] at added
  split at added
  · cases added
  · obtain rfl := Option.some.inj added
    refine ⟨⟨closed.params, ?_⟩, rfl, rfl⟩
    exact List.forall_mem_append.mpr ⟨closed.fields, List.forall_mem_singleton.mpr each⟩

theorem Template.paramVars_mapKinds (template : Template) (change : Kind → Kind) :
    (template.mapKinds change).paramVars = template.paramVars := by
  rw [Template.mapKinds, Template.paramVars, Template.paramVars, List.map_map]
  rfl

theorem Template.Closed.settle (closed : template.Closed binder loose) (change : Kind → Kind) :
    ((template.mapKinds change).freeze).Closed binder loose := by
  have same : ((template.mapKinds change).freeze).paramVars = template.paramVars :=
    template.paramVars_mapKinds change
  exact ⟨same ▸ closed.params, same ▸ closed.fields⟩

theorem Registry.Closed.modifyTemplate (closed : registry.Closed binder loose)
    {change : Template → Template}
    (changed : ∀ template, registry.template? id = some template →
      (change template).Closed binder loose) :
    (registry.modifyTemplate id change).Closed binder loose := by
  refine closed.of_tables (fun {other template} known => ?_) rfl rfl
  rw [Registry.template?_modify] at known
  split at known
  · rename_i same
    subst same
    obtain ⟨old, there, rfl⟩ := Option.map_eq_some_iff.mp known
    exact .inr (changed old there)
  · exact .inl known

theorem Registry.Closed.alloc (closed : registry.Closed binder loose)
    (made : template.Closed binder loose) : (registry.alloc template).2.Closed binder loose := by
  refine closed.of_tables (fun {other found} known => ?_) rfl rfl
  rw [Registry.template?_alloc] at known
  split at known
  · obtain rfl := Option.some.inj known
    exact .inr made
  · exact .inl known

theorem Registry.Closed.defineType (closed : registry.Closed binder loose) (name : Name)
    {meaning : TypeDef} (made : ∀ ty kind, meaning = .synonym ty kind → ty.Confined binder loose) :
    (registry.defineType name meaning).Closed binder loose where
  template known := by
    rw [Registry.defineType, Registry.template?_record] at known
    exact closed.template known
  synonym {other ty kind} known := by
    rw [Registry.defineType, Registry.types_record, Table.get?_insert] at known
    split at known
    · exact made ty kind (Option.some.inj known)
    · exact closed.synonym known
  ctor known := by
    rw [Registry.defineType, Registry.ctors_record] at known
    exact closed.ctor known

theorem Registry.Closed.defineCtor (closed : registry.Closed binder loose) {info : CtorInfo}
    (made : info.scheme.Closed binder loose) : (registry.defineCtor info).Closed binder loose where
  template known := by
    rw [Registry.defineCtor, Registry.template?_record] at known
    exact closed.template known
  synonym known := by
    rw [Registry.defineCtor, Registry.types_record] at known
    exact closed.synonym known
  ctor {other found} known := by
    rw [Registry.defineCtor, Registry.ctors_record, Table.get?_insert] at known
    split at known
    · obtain rfl := Option.some.inj known
      exact made
    · exact closed.ctor known

theorem confined_ctorTy {free : TyVar → Prop} {fields : List Ty} {result : Ty}
    (each : ∀ field ∈ fields, field.Confined binder free) (confined : result.Confined binder free) :
    (ctorTy fields result).Confined binder free := by
  unfold ctorTy
  split
  · exact confined
  · refine .arrow ?_ confined
    unfold Ty.tupled
    split
    · exact each _ (List.mem_singleton_self _)
    · exact .tuple each

theorem Template.Closed.ctors (closed : template.Closed binder loose) {info : CtorInfo}
    (member : info ∈ template.ctors id) :
    info.scheme.Closed binder loose ∧ ∃ dataCase ∈ template.cases, dataCase.name = info.name := by
  rw [Template.ctors] at member
  obtain ⟨⟨dataCase, index⟩, inside, rfl⟩ := List.mem_map.mp member
  have inCases := List.fst_mem_of_mem_zipIdx inside
  refine ⟨⟨closed.params, confined_ctorTy (closed.fields dataCase inCases) (.nominal ?_)⟩,
    dataCase, inCases, rfl⟩
  exact List.forall_mem_map.mpr fun v member => .var (.inr member)

end Closing

namespace Elaborate

variable {closed : Prop} {base : Subst} {env : Env} {world : World} {first : Registry}
  {types ctors : List Name} {state : Elaborator}

def Declares (closed : Prop) (world : World) (state : Elaborator) : Prop :=
  ∃ scope, state.Local closed scope world

def Offers (id : TemplateId) (vars : List TyVar) (registry : Registry) : Prop :=
  vars = [] ∨ ∃ template, registry.template? id = some template ∧ vars ⊆ template.paramVars

theorem takesInts_offers {id : TemplateId} {vars : List TyVar} :
    Registry.TakesInts fun registry => first.Keeps types ctors registry ∧
      Offers id vars registry := by
  intro registry width holds
  refine ⟨Registry.Keeps.takesInts _ _ holds.1, ?_⟩
  rcases holds.2 with none | ⟨template, known, subset⟩
  · exact .inl none
  · exact .inr ⟨template, Registry.grows_intTemplate registry width _ _ known, subset⟩

theorem reaches_enterData (decl : Surface.DataDecl) (own : decl.name ∈ types)
    (declares : Declares closed world state) :
    Reaches (Session.Local closed base env (first.Keeps types ctors)) world
      (fun later result => first.templates.size ≤ result.1.index ∧ Declares closed later result.2)
      (enterData decl state) := by
  obtain ⟨scope, here⟩ := declares
  refine .state_lift (Check.reaches_distinct _ _ _) fun grown _ => ?_
  refine .state_bind (reaches_bindParams (here.later grown) decl.params) fun {later bound _} _
    params => ?_
  obtain ⟨binders, scope', -, inner⟩ := params
  have entered : Reaches (Session.Local closed base env (first.Keeps types ctors)) later
      (fun _ id => first.templates.size ≤ id.index)
      (Check.onRegistry fun registry =>
        let allocated := registry.alloc (.openWith decl.name bound)
        (allocated.1, allocated.2.defineType decl.name (.data allocated.1))) := by
    refine .modifyGet fun around => ?_
    have made : (Template.openWith decl.name bound).Closed later.binder (later.Loose closed) :=
      ⟨List.forall_mem_map.mpr binders, List.forall_mem_nil _⟩
    exact ⟨later, le_rfl, around.withRegistry ((around.registry.alloc made).defineType _ nofun)
      ((around.kept.alloc rfl).defineType own _), around.kept.size_le⟩
  refine .state_modify (.state_lifted entered fun grown outside => ⟨outside, [], ?_⟩)
  have none : ∀ param ∈ ([] : List TypeBinding), later.binder param.var := List.forall_mem_nil _
  exact (inner.inScope none).later grown

theorem reaches_addCase {id : TemplateId} (outside : first.templates.size ≤ id.index)
    (decl : Surface.CaseDecl) (own : decl.name ∈ ctors)
    (complete : closed → Surface.TypeExpr.CompleteAll decl.fields) {scope : List TypeBinding}
    (here : state.Local closed scope world) :
    Reaches (Session.Local closed base env fun registry =>
        first.Keeps types ctors registry ∧ Offers id (scope.map (·.var)) registry) world
      (fun later result => result.2.Local closed scope later) (addCase id decl state) := by
  refine .state_bind (reaches_starTypes (fun isClosed => isClosed) takesInts_offers decl.fields
    complete here) fun {later fields _} _ read => ?_
  obtain ⟨each, here⟩ := read
  -- The definition that is changed is the one that was read, so the step is taken as a whole.
  refine reaches_of_ok fun session after result around ended => ?_
  obtain ⟨⟨⟩, last⟩ := result
  obtain ⟨read, middle, same, rest⟩ := state_lift_bind_eq_ok.mp ended
  obtain ⟨rfl, rfl⟩ := EStateM.Result.ok.inj same
  cases found : (session.registry.template? id).bind (·.addCase? decl.name fields) with
  | none =>
    rw [found] at rest
    cases rest
  | some changed =>
    rw [found] at rest
    obtain ⟨same, rfl⟩ := EStateM.Result.ok.inj rest
    obtain ⟨-, rfl⟩ := Prod.mk.inj same
    obtain ⟨template, known, added⟩ := Option.bind_eq_some_iff.mp found
    obtain ⟨keeps, offers⟩ := around.kept
    have inScope : ∀ param ∈ scope, param.var ∈ template.paramVars := by
      intro param member
      rcases offers with none | ⟨template', known', subset⟩
      · rw [List.map_eq_nil_iff.mp none] at member
        exact absurd member List.not_mem_nil
      · obtain rfl := Option.some.inj (known.symm.trans known')
        exact subset (List.mem_map_of_mem member)
    have fieldsClosed : ∀ field ∈ fields, field.Confined later.binder fun v =>
        later.Loose closed v ∨ v ∈ template.paramVars := by
      refine fun field member => (each field member).imp ?_
      rintro v (isLoose | ⟨param, inside, rfl⟩)
      · exact .inl isLoose
      · exact .inr (inScope param inside)
    obtain ⟨closed', params, cases'⟩ := (around.registry.template known).addCase? fieldsClosed added
    refine ⟨later, le_rfl,
      around.withRegistry (around.registry.modifyTemplate fun _ _ => closed') ⟨?_, ?_⟩, here⟩
    · refine keeps.modifyTemplate outside fun _ _ => ?_
      rw [cases']
      exact List.forall_mem_append.mpr ⟨keeps.cases outside known,
        List.forall_mem_singleton.mpr own⟩
    · refine .inr ⟨changed, ?_, params ▸ List.forall_mem_map.mpr inScope⟩
      rw [Registry.template?_modify, if_pos rfl, known]
      rfl

theorem reaches_fillData (decl : Surface.DataDecl)
    (own : ∀ dataCase ∈ decl.cases, dataCase.name ∈ ctors)
    (complete : closed → ∀ dataCase ∈ decl.cases, Surface.TypeExpr.CompleteAll dataCase.fields)
    {id : TemplateId}
    (outside : first.templates.size ≤ id.index) (declares : Declares closed world state) :
    Reaches (Session.Local closed base env (first.Keeps types ctors)) world
      (fun later result => Declares closed later result.2) (fillData decl id state) := by
  obtain ⟨outer, here⟩ := declares
  refine reaches_of_ok fun session after result around ended => ?_
  obtain ⟨read, middle, same, rest⟩ := state_lift_bind_eq_ok.mp ended
  obtain ⟨rfl, rfl⟩ := EStateM.Result.ok.inj same
  clear ended same
  let params := ((session.registry.template? id).map (·.params)).getD []
  let scope :=
    ((decl.params.zip params).map fun entry => TypeBinding.mk entry.1 entry.2.1 entry.2.2).reverse
  have vars : ∀ param ∈ scope, ∃ kind, (param.var, kind) ∈ params := by
    intro param member
    obtain ⟨⟨name, var, kind⟩, inside, rfl⟩ := List.mem_map.mp (List.mem_reverse.mp member)
    exact ⟨kind, (List.of_mem_zip inside).2⟩
  have offers : Offers id (scope.map (·.var)) session.registry := by
    cases known : session.registry.template? id with
    | none =>
      have empty : params = [] := by simp only [params, known]; rfl
      exact .inl (by simp [scope, empty])
    | some template =>
      refine .inr ⟨template, known, List.forall_mem_map.mpr fun param member => ?_⟩
      obtain ⟨kind, inside⟩ := vars param member
      simp only [params, known, Option.map_some, Option.getD_some] at inside
      exact List.mem_map_of_mem inside
  have binders : ∀ param ∈ scope, world.binder param.var := by
    intro param member
    rcases offers with none | ⟨template, known, subset⟩
    · rw [List.map_eq_nil_iff.mp none] at member
      exact absurd member List.not_mem_nil
    · exact (around.registry.template known).params _ (subset (List.mem_map_of_mem member))
  have filled : Reaches (Session.Local closed base env fun registry =>
        first.Keeps types ctors registry ∧ Offers id (scope.map (·.var)) registry) world
      (fun later result => result.2.Local closed scope later)
      (decl.cases.forM (addCase id) { state with scope }) :=
    .state_forM (fun _ dataCase => dataCase ∈ decl.cases)
      (fun later (state : Elaborator) => state.Local closed scope later)
      (fun _ member => member) (fun _ member => member) (here.inScope binders) fun _ member here =>
        reaches_addCase outside _ (own _ member) (fun isClosed => complete isClosed _ member) here
  obtain ⟨later, grown, there, inner⟩ := filled.ok (around.weaken ⟨around.kept, offers⟩) rest
  exact ⟨later, grown, there.weaken there.kept.1, scope, inner⟩

theorem reaches_sealData {id : TemplateId} (outside : first.templates.size ≤ id.index)
    (declares : Declares closed world state) :
    Reaches (Session.Local closed base env (first.Keeps types ctors)) world
      (fun later result => Declares closed later result.2) (sealData id state) := by
  obtain ⟨scope, here⟩ := declares
  have changed : Reaches (Session.Local closed base env (first.Keeps types ctors)) world unsaid
      (Check.onRegistry fun registry => ((), registry.modifyTemplate id fun template =>
        (template.mapKinds state.kinds.defaulted).freeze)) :=
    .modifyGet fun around => ⟨world, le_rfl,
      around.withRegistry (around.registry.modifyTemplate fun _ known =>
        (around.registry.template known).settle _)
        (around.kept.modifyTemplate outside fun _ known dataCase member =>
          around.kept.cases outside known dataCase member), trivial⟩
  exact .state_own (.state_lifted changed fun grown _ => ⟨scope, here.later grown⟩)

theorem reaches_dataGroup {group : List Surface.DataDecl} (own : ∀ decl ∈ group, decl.name ∈ types)
    (own' : ∀ decl ∈ group, ∀ dataCase ∈ decl.cases, dataCase.name ∈ ctors)
    (complete : closed → ∀ decl ∈ group, ∀ dataCase ∈ decl.cases,
      Surface.TypeExpr.CompleteAll dataCase.fields)
    (declares : Declares closed world state) :
    Reaches (Session.Local closed base env (first.Keeps types ctors)) world
      (fun _ result => ∀ id ∈ result.1, first.templates.size ≤ id.index)
      (dataGroup group state) := by
  refine .state_bind (.state_mapM (fun _ decl => decl ∈ group)
    (fun _ id => first.templates.size ≤ id.index) (Declares closed) (fun _ member => member)
    (fun _ outside => outside) (fun _ member => member) declares fun _ member declares =>
      reaches_enterData _ (own _ member) declares)
    fun {_ ids _} _ entered => ?_
  obtain ⟨outside, declares⟩ := entered
  refine .state_bind (.state_forM (fun _ entry => entry ∈ group.zip ids) (Declares closed)
    (fun _ member => member)
    (fun _ member => member) declares fun {_ entry _} _ member declares => ?_) fun _ declares => ?_
  · obtain ⟨decl, id⟩ := entry
    obtain ⟨inGroup, inIds⟩ := List.of_mem_zip member
    exact reaches_fillData decl (own' decl inGroup)
      (fun isClosed => complete isClosed decl inGroup) (outside id inIds) declares
  refine .state_bind (.state_forM (fun _ id => id ∈ ids) (Declares closed) (fun _ member => member)
    (fun _ member => member) declares fun _ member declares =>
      reaches_sealData (outside _ member) declares) fun _ _ => ?_
  exact .state_pure outside

end Elaborate

namespace Check

variable {closed : Prop} {base : Subst} {env : Env} {world : World} {first : Registry}
  {types ctors : List Name}

theorem reaches_defineCtors {id : TemplateId} (outside : first.templates.size ≤ id.index) :
    Reaches (Session.Local closed base env (first.Keeps types ctors)) world unsaid
    (defineCtors id) := by
  refine .modifyGet fun {session} around => ?_
  dsimp only
  have each : ∀ info ∈ ((session.registry.template? id).map (·.ctors id)).getD [],
      info.scheme.Closed world.binder (world.Loose closed) ∧ info.name ∈ ctors := by
    intro info member
    cases known : session.registry.template? id with
    | none => simp [known] at member
    | some template =>
      rw [known, Option.map_some, Option.getD_some] at member
      obtain ⟨made, dataCase, inCases, same⟩ := (around.registry.template known).ctors member
      exact ⟨made, same ▸ around.kept.cases outside known dataCase inCases⟩
  generalize ((session.registry.template? id).map (·.ctors id)).getD [] = infos at each ⊢
  have defined : ∀ {registry : Registry}, registry.Closed world.binder (world.Loose closed) →
    first.Keeps types ctors registry →
      (infos.foldl Registry.defineCtor registry).Closed world.binder (world.Loose closed) ∧
        first.Keeps types ctors (infos.foldl Registry.defineCtor registry) := by
    induction infos with
    | nil => exact fun tables keeps => ⟨tables, keeps⟩
    | cons info infos ih =>
      intro registry tables keeps
      obtain ⟨⟨made, own⟩, others⟩ := List.forall_mem_cons.mp each
      exact ih others (tables.defineCtor made) (keeps.defineCtor own)
  obtain ⟨tables, keeps⟩ := defined around.registry around.kept
  exact ⟨world, le_rfl, around.withRegistry tables keeps, trivial⟩

theorem reaches_data {group : List Surface.DataDecl} (own : ∀ decl ∈ group, decl.name ∈ types)
    (own' : ∀ decl ∈ group, ∀ dataCase ∈ decl.cases, dataCase.name ∈ ctors)
    (complete : closed → ∀ decl ∈ group, ∀ dataCase ∈ decl.cases,
      Surface.TypeExpr.CompleteAll dataCase.fields) :
    Reaches (Session.Local closed base env (first.Keeps types ctors)) world unsaid
    (data group) := by
  have rest : ∀ {world : World}, Reaches (Session.Local closed base env (first.Keeps types ctors))
      world unsaid (do
      let ids ← (Elaborate.dataGroup group).run' .forDeclaration
      ids.forM defineCtors
      pure ids) := by
    intro world
    have declared : Reaches (Session.Local closed base env (first.Keeps types ctors)) world
        (fun _ ids => ∀ id ∈ ids, first.templates.size ≤ id.index)
        ((Elaborate.dataGroup group).run' .forDeclaration) :=
      (Elaborate.reaches_dataGroup own own' complete ⟨[], Elaborator.local_forDeclaration⟩).map
        fun _ outside => outside
    refine declared.bind fun {_ ids} _ outside => ?_
    refine (Arrives.forM (fun _ id => id ∈ ids) (fun _ member => member) (fun _ member => member)
      fun _ member => reaches_defineCtors (outside _ member)).bind fun _ _ => ?_
    exact .pure trivial
  unfold data
  split
  · refine (reaches_distinct _ _ _).bind fun _ _ => (reaches_distinct _ _ _).bind fun _ _ => ?_
    exact rest
  · exact rest

theorem reaches_synonym {name : Name} (own : name ∈ types) (params : List Name)
    {body : Surface.TypeExpr} (complete : closed → body.Complete) (span : Span) :
    Reaches (Session.Local closed base env (first.Keeps types ctors)) world unsaid
      (synonym name params body span) := by
  refine (reaches_distinct _ _ _).bind fun {later _} _ _ => ?_
  have start : Elaborator.forDeclaration.Local closed [] later := Elaborator.local_forDeclaration
  have read : Reaches (Session.Local closed base env (first.Keeps types ctors)) later
      (fun last result => (∀ param ∈ result.1.1, last.binder param.1) ∧
        result.1.2.1.Confined last.binder fun v => last.Loose closed v ∨ v ∈ result.1.1.map (·.1))
      (StateT.run (do
        let params ← params.mapM Elaborate.bindParam
        let body ← Elaborate.type body
        pure (params, body) : Elaborate (List (TyVar × Kind) × Ty × Kind)) .forDeclaration) := by
    refine .state_bind (Elaborate.reaches_bindParams start params) fun _ bound => ?_
    obtain ⟨binders, scope, among, here⟩ := bound
    refine .state_bind (Elaborate.reaches_type id Registry.Keeps.takesInts body complete here)
      fun grown reads => .state_pure ⟨fun param member => grown.2 _ (binders param member), ?_⟩
    refine reads.1.imp ?_
    rintro v (isLoose | ⟨param, inside, rfl⟩)
    · exact .inl isLoose
    · exact .inr ((among param inside).resolve_left List.not_mem_nil)
  refine read.bind fun {last result} _ confined => ?_
  obtain ⟨⟨vars, ty, bodyKind⟩, state⟩ := result
  obtain ⟨binders, confined⟩ := confined
  refine .modifyGet fun around =>
    ⟨last, le_rfl, around.withRegistry (around.registry.defineType name ?_)
    (around.kept.defineType own _), trivial⟩
  rintro ty' kind ⟨⟩
  split
  · rename_i empty
    rw [List.isEmpty_iff.mp empty] at confined
    exact confined.imp fun v shown => shown.resolve_right List.not_mem_nil
  · exact .quantified (List.forall_mem_map.mpr binders) confined

/-- A whole unit; where the tables have to be closed it leaves nothing open in what it declares.
What it defines generalizes types in play. -/
theorem local_unit {written : Surface.Decl} (complete : closed → written.Complete)
    {session after : Session} {checked : CheckedDecl}
    (here : session.Local closed base env (first.Keeps written.typeNames written.ctorNames) world)
    (run : unit written session = .ok checked after) :
    ∃ later, world ≤ later ∧ after.Local closed base env
    (first.Keeps written.typeNames written.ctorNames) later ∧
      ∀ definition ∈ checked.definitions, definition.name ∈ written.valueNames ∧ ∃ ty,
        later.Owns ty ∧
        definition.scheme = .generalize after.subst (env.freeVars after.subst) ty := by
  let rules := World.discipline closed base
    (Registry.Keeps.takesInts :
      Registry.TakesInts (first.Keeps written.typeNames written.ctorNames))
  cases written with
  | data span group =>
    obtain ⟨ids, ran, rfl⟩ := map_eq_ok.mp run
    have own : ∀ decl ∈ group, decl.name ∈ group.map (·.name) := fun _ => List.mem_map_of_mem
    have own' : ∀ decl ∈ group, ∀ dataCase ∈ decl.cases,
        dataCase.name ∈ group.flatMap fun type => type.cases.map (·.name) :=
          fun decl member _ inside =>
      List.mem_flatMap.mpr ⟨decl, member, List.mem_map_of_mem inside⟩
    obtain ⟨later, grown, there, -⟩ := (reaches_data own own' complete).ok here ran
    exact ⟨later, grown, there, nofun⟩
  | synonym span name params body =>
    obtain ⟨_, middle, ran, finish⟩ := bind_eq_ok.mp run
    obtain ⟨rfl, rfl⟩ := pure_eq_ok.mp finish
    obtain ⟨later, grown, there, -⟩ :=
      (reaches_synonym (List.mem_singleton_self name) params complete span).ok here ran
    exact ⟨later, grown, there, nofun⟩
  | define span recursive bindings =>
    obtain ⟨definitions, ran, rfl⟩ := map_eq_ok.mp run
    refine local_groupWith Registry.Keeps.takesInts (fun types env world each => ?_) here ran
    exact (rules.infersValues types bindings (fun _ _ => trivial) each).imp fun _ _ => trivial
  | eval span expr =>
    obtain ⟨term, ran, rfl⟩ := map_eq_ok.mp run
    obtain ⟨later, grown, there, -⟩ := (rules.infers expr fun _ _ => trivial).ok here ran
    exact ⟨later, grown, there, nofun⟩

end Check

end PolyCheck
