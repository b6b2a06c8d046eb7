import PolyCheck.Proofs.Session.Lasting
import PolyCheck.Proofs.Session.Outlook

/-! Declarations of types keep a session sound. A group of data types changes only definitions of
its own before its constructors are registered, so what the tables said before is still true; the
constructors then stand for cases of definitions that are not changed any more. -/
namespace PolyCheck

open Run

theorem Subst.Tame.grown_of_cells {subst after : Subst} (tame : subst.Tame)
    (cells : after.cells = subst.cells) : subst.Grown after := by
  have same : ∀ v, after.cell v = subst.cell v := fun v => by rw [cell, cell, cells]
  have size : after.size = subst.size := by rw [Subst.size, Subst.size, cells]
  have uses : after.Uses = subst.Uses := by
    funext v w
    rw [Uses, Uses, same]
  refine ⟨⟨fun found => ?_, fun found => ?_, ?_⟩, Nat.le_of_eq size.symm, fun _ => same _⟩
  · rw [size]
    exact tame.linked ((same _).symm.trans found)
  · rw [size]
    exact tame.solved ((same _).symm.trans found)
  · rw [uses]
    exact tame.acyclic

namespace Registry

variable {base registry : Registry} {id : TemplateId} {template : Template} {info : CtorInfo}

theorem template?_modify (registry : Registry) (id other : TemplateId)
    (change : Template → Template) : (registry.modifyTemplate id change).template? other =
      if id = other then (registry.template? other).map change else registry.template? other := by
  obtain ⟨slot⟩ := id
  obtain ⟨slot'⟩ := other
  rw [modifyTemplate, template?, template?, Arena.modify, Arena.get?, Arena.get?,
    Array.getElem?_modify]
  simp only [TemplateId.mk.injEq]

theorem index_lt_of_template? (known : registry.template? id = some template) :
    id.index < registry.templates.size := by
  obtain ⟨inside, -⟩ := Array.getElem?_eq_some_iff.mp known
  exact inside

theorem template?_initial (known : initial.template? id = some template) :
    ∃ name builtin, template = .ofBuiltin name builtin := by
  have inside : id.index < 2 := index_lt_of_template? known
  obtain ⟨_ | _ | slot⟩ := id
  · exact ⟨_, _, (Option.some.inj known).symm⟩
  · exact ⟨_, _, (Option.some.inj known).symm⟩
  · simp only at inside
    omega

theorem types_initial {name : Name} {meaning : TypeDef}
    (known : initial.types.get? name = some meaning) :
    meaning = .data stringId ∨ meaning = .data boolId := by
  rw [initial, Table.get?_insert, Table.get?_insert] at known
  split at known
  · exact .inl (Option.some.inj known).symm
  · split at known
    · exact .inr (Option.some.inj known).symm
    · cases known

/-- Tables after definitions have been added to, and before constructors are. -/
structure Adding (base registry : Registry) : Prop where
  grows : base.Grows registry
  size_le : base.templates.size ≤ registry.templates.size
  ctors : registry.ctors = base.ctors

theorem adding_refl (base : Registry) : base.Adding base :=
  ⟨grows_refl base, Nat.le_refl _, rfl⟩

theorem templates_record (registry : Registry) (undo : RegistryUndo) :
    (registry.record undo).templates = registry.templates := by
  rw [record]
  split <;> rfl

namespace Adding

theorem alloc (adding : base.Adding registry) (template : Template) :
    base.Adding (registry.alloc template).2 where
  grows := adding.grows.trans (grows_alloc registry template)
  size_le := by
    have size_le := adding.size_le
    simp only [Arena.size, Registry.alloc, Arena.alloc, Array.size_push] at size_le ⊢
    omega
  ctors := adding.ctors

theorem sameTemplates (adding : base.Adding registry) {after : Registry}
    (templates : after.templates = registry.templates) (ctors : after.ctors = registry.ctors) :
    base.Adding after where
  grows id template known := by
    rw [template?, templates]
    exact adding.grows id template known
  size_le := by
    rw [templates]
    exact adding.size_le
  ctors := ctors.trans adding.ctors

/-- Only a definition that is not among the old ones is changed. -/
theorem modifyTemplate (adding : base.Adding registry) (new : base.templates.size ≤ id.index)
    (change : Template → Template) : base.Adding (registry.modifyTemplate id change) where
  grows other template known := by
    have different : id ≠ other := by
      rintro rfl
      have inside := index_lt_of_template? known
      omega
    rw [template?_modify, if_neg different]
    exact adding.grows other template known
  size_le := by
    have size_le := adding.size_le
    simpa only [Arena.size, Registry.modifyTemplate, Arena.modify, Array.size_modify] using size_le
  ctors := adding.ctors

theorem defineType (adding : base.Adding registry) (name : Name) (meaning : TypeDef) :
    base.Adding (registry.defineType name meaning) :=
  adding.sameTemplates (templates_record _ _) (ctors_record _ _)

end Adding

structure Filling (base registry : Registry) : Prop extends Adding base registry where
  int : ∀ {width id}, registry.ints.get? width = some id →
    registry.Provides (.int width) (.named id)
  empty : ∀ {id template}, base.templates.size ≤ id.index → registry.template? id = some template →
    template.builtin ≠ none → template.isSealed = true ∧ template.cases = []

theorem Coherent.filling (coherent : base.Coherent) : base.Filling base where
  toAdding := adding_refl base
  int := coherent.int
  empty new known _ := absurd (index_lt_of_template? known) (Nat.not_lt_of_ge new)

namespace Filling

theorem alloc (filling : base.Filling registry) {template : Template}
    (empty : template.builtin ≠ none → template.isSealed = true ∧ template.cases = []) :
    base.Filling (registry.alloc template).2 where
  toAdding := filling.toAdding.alloc template
  int known := (filling.int known).grow (grows_alloc registry template)
  empty {id found} new known builtin := by
    rw [template?_alloc] at known
    split at known
    · obtain rfl := Option.some.inj known
      exact empty builtin
    · exact filling.empty new known builtin

theorem sameTemplates (filling : base.Filling registry) {after : Registry}
    (templates : after.templates = registry.templates) (ctors : after.ctors = registry.ctors)
    (int : ∀ {width id}, after.ints.get? width = some id →
      after.Provides (.int width) (.named id)) :
    base.Filling after where
  toAdding := filling.toAdding.sameTemplates templates ctors
  int := int
  empty new known := by
    rw [template?, templates] at known
    exact filling.empty new known

theorem provides_of_templates {builtin : Builtin} {ty : Ty} {after : Registry}
    (templates : after.templates = registry.templates) (provides : registry.Provides builtin ty) :
    after.Provides builtin ty := by
  refine provides.grow fun id template known => ?_
  rw [template?, templates]
  exact known

theorem intTemplate (filling : base.Filling registry) (width : Nat) :
    base.Filling (registry.intTemplate width).2 := by
  rw [Registry.intTemplate]
  cases known : registry.ints.get? width with
  | some id => exact filling
  | none =>
    let template := Template.ofBuiltin ("i" ++ toString width) (.int width)
    have allocated : base.Filling (registry.alloc template).2 := filling.alloc fun _ => ⟨rfl, rfl⟩
    refine allocated.sameTemplates (templates_record _ _) (ctors_record _ _)
      fun {width' id} entry => ?_
    refine provides_of_templates (templates_record _ _) ?_
    rw [ints_record, Table.get?_insert] at entry
    split at entry
    · rename_i same
      obtain rfl := Option.some.inj entry
      subst same
      exact ⟨_, template, rfl, (template?_alloc registry template _).trans (if_pos rfl), rfl⟩
    · exact allocated.int entry

theorem defineType (filling : base.Filling registry) (name : Name) (meaning : TypeDef) :
    base.Filling (registry.defineType name meaning) := by
  refine filling.sameTemplates (templates_record _ _) (ctors_record _ _) fun {width id} entry => ?_
  rw [Registry.defineType, ints_record] at entry
  exact provides_of_templates (templates_record _ _) (filling.int entry)

/-- Only a definition that is not among the old ones is changed. -/
theorem modifyTemplate (filling : base.Filling registry) (new : base.templates.size ≤ id.index)
    {change : Template → Template}
    (revises : ∀ template, registry.template? id = some template →
      template.Revises (change template)) :
    base.Filling (registry.modifyTemplate id change) where
  toAdding := filling.toAdding.modifyTemplate new change
  int {width other} entry := by
    obtain ⟨found, template, same, known, builtin⟩ := filling.int entry
    by_cases changed : id = found
    · subst changed
      refine ⟨id, change template, same, ?_, (revises template known).builtin.trans builtin⟩
      rw [template?_modify, if_pos rfl, known, Option.map_some]
    · refine ⟨found, template, same, ?_, builtin⟩
      rw [template?_modify, if_neg changed, known]
  empty {other template} isNew known builtin := by
    rw [template?_modify] at known
    split at known
    · rename_i same
      subst same
      obtain ⟨old, before, rfl⟩ := Option.map_eq_some_iff.mp known
      have revised := revises old before
      rw [revised.builtin] at builtin
      obtain ⟨isSealed, none⟩ := filling.empty isNew before builtin
      exact ⟨(revised.isSealed isSealed).1, (revised.isSealed isSealed).2.trans none⟩
    · exact filling.empty isNew known builtin

theorem coherent (filling : base.Filling registry) (coherent : base.Coherent)
    (plain : registry.Plain) : registry.Coherent where
  bool := coherent.bool.grow filling.grows
  str := coherent.str.grow filling.grows
  int := filling.int
  ctor {name info} entry := by
    rw [filling.ctors] at entry
    obtain ⟨same, registers⟩ := coherent.ctor entry
    exact ⟨same, registers.grow filling.grows⟩
  plain := plain

end Filling

theorem Plain.of_templates {after : Registry} (plain : registry.Plain)
    (templates : after.templates = registry.templates) : after.Plain := by
  intro id template known
  rw [template?, templates] at known
  exact plain id template known

theorem Coherent.of_tables {after : Registry} (coherent : registry.Coherent)
    (templates : after.templates = registry.templates) (ctors : after.ctors = registry.ctors)
    (ints : after.ints = registry.ints) : after.Coherent where
  bool := Filling.provides_of_templates templates coherent.bool
  str := Filling.provides_of_templates templates coherent.str
  int entry := Filling.provides_of_templates templates (coherent.int (ints ▸ entry))
  ctor {name info} entry := by
    obtain ⟨same, registers⟩ := coherent.ctor (ctors ▸ entry)
    refine ⟨same, registers.grow fun id template known => ?_⟩
    rw [template?, templates]
    exact known
  plain := coherent.plain.of_templates templates

theorem Coherent.defineCtor (coherent : registry.Coherent) (registers : registry.Registers info) :
    (registry.defineCtor info).Coherent := by
  have templates : (registry.defineCtor info).templates = registry.templates :=
    templates_record _ _
  have grows : registry.Grows (registry.defineCtor info) := fun id template known => by
    rw [template?, templates]
    exact known
  refine ⟨coherent.bool.grow grows, coherent.str.grow grows, fun {width id} entry => ?_,
    fun {name found} entry => ?_, coherent.plain.of_templates templates⟩
  · rw [Registry.defineCtor, ints_record] at entry
    exact (coherent.int entry).grow grows
  · rw [Registry.defineCtor, ctors_record, Table.get?_insert] at entry
    split at entry
    · rename_i same
      obtain rfl := Option.some.inj entry
      exact ⟨same.symm, registers.grow grows⟩
    · obtain ⟨same, known⟩ := coherent.ctor entry
      exact ⟨same, known.grow grows⟩

theorem registers_of_mem_ctors (known : registry.template? id = some template)
    (declared : template.builtin ≠ none → template.cases = [])
    (member : info ∈ template.ctors id) : registry.Registers info := by
  obtain ⟨⟨dataCase, index⟩, inCases, rfl⟩ := List.mem_map.mp member
  have inside : template.cases[index]? = some dataCase := by
    simpa using List.mem_zipIdx_iff_getElem?.mp inCases
  refine ⟨template, dataCase, known, ?_, inside, rfl, rfl⟩
  by_contra builtin
  rw [declared builtin] at inside
  simp at inside

theorem templates_foldl_defineCtor (registry : Registry) (ctors : List CtorInfo) :
    (ctors.foldl Registry.defineCtor registry).templates = registry.templates := by
  induction ctors generalizing registry with
  | nil => rfl
  | cons info ctors ih =>
    rw [List.foldl_cons, ih]
    exact templates_record _ _

/-- The constructors of some definitions, in the order in which they are registered. -/
def declaredCtors (registry : Registry) (ids : List TemplateId) : List CtorInfo :=
  ids.flatMap fun id => ((registry.template? id).map (·.ctors id)).getD []

theorem mem_declaredCtors {ids : List TemplateId} :
    info ∈ registry.declaredCtors ids ↔
      ∃ id ∈ ids, ∃ template, registry.template? id = some template ∧ info ∈ template.ctors id := by
  simp only [declaredCtors, List.mem_flatMap]
  refine exists_congr fun id => and_congr_right fun _ => ?_
  cases registry.template? id <;> simp

theorem declaredCtors_of_templates {after : Registry}
    (templates : after.templates = registry.templates)
    (ids : List TemplateId) : after.declaredCtors ids = registry.declaredCtors ids := by
  simp only [declaredCtors, template?, templates]

theorem Registers.of_templates {after : Registry} (registers : registry.Registers info)
    (templates : after.templates = registry.templates) : after.Registers info := by
  refine registers.grow fun id template known => ?_
  rw [template?, templates]
  exact known

theorem Coherent.foldl_defineCtor (coherent : registry.Coherent) {ctors : List CtorInfo}
    (registers : ∀ info ∈ ctors, registry.Registers info) :
    (ctors.foldl Registry.defineCtor registry).Coherent := by
  induction ctors generalizing registry with
  | nil => exact coherent
  | cons info ctors ih =>
    obtain ⟨first, rest⟩ := List.forall_mem_cons.mp registers
    refine ih (coherent.defineCtor first) fun other member => ?_
    exact (rest other member).of_templates (templates_record _ _)

end Registry

namespace Check

variable {base : Subst} {tables : Registry}

/-- Cells to which some have been added, and tables whose definitions have been added to. -/
theorem declaring_filling :
    Declaring (fun subst registry => base.Grown subst ∧ tables.Filling registry)
      (fun id => tables.templates.size ≤ id.index) where
  push {subst registry cell} isNew holds := by
    refine ⟨holds.1.trans (holds.1.tame.grown_push ?_), holds.2⟩
    cases cell with
    | unbound => exact .inl rfl
    | rigid name => exact .inr ⟨name, rfl⟩
    | link _ => exact isNew.elim
    | bound _ => exact isNew.elim
  int width holds := ⟨holds.1, holds.2.intTemplate width⟩
  alloc isOpen _ holds :=
    ⟨⟨holds.1, holds.2.alloc fun builtin => absurd isOpen builtin⟩, holds.2.size_le⟩
  modify isOwn revises holds := ⟨holds.1, holds.2.modifyTemplate isOwn revises⟩
  defineData name id holds := ⟨holds.1, holds.2.defineType name (.data id)⟩

end Check

namespace Session

variable {before after : Session}

/-- Cells that are only added to do not touch what is in scope. -/
theorem Sound.advance_grown (sound : before.Sound) (env : after.env = before.env)
    (names : before.names.next ≤ after.names.next) (grown : before.subst.Grown after.subst)
    (coherent : after.registry.Coherent) (grows : before.registry.Grows after.registry) :
    before.Advance after :=
  sound.advance env names grown.tame (grown.later sound.tame)
    (fun _ dead => grown.spares sound.tame dead.1.1) coherent grows

theorem distinct_eq_ok {what : NameKind} {names : List Name} {span : Span} {value : Unit}
    (run : Check.distinct what names span before = .ok value after) : after = before := by
  unfold Check.distinct at run
  cases found : Check.firstRepeated? names with
  | some name =>
    rw [found] at run
    cases run
  | none =>
    rw [found] at run
    obtain ⟨-, rfl⟩ := pure_eq_ok.mp run
    rfl

theorem defineCtors_eq_ok {ids : List TemplateId} {value : PUnit}
    (run : (forM ids Check.defineCtors : Check PUnit) before = .ok value after) :
    after = { before with
      registry := (before.registry.declaredCtors ids).foldl Registry.defineCtor
        before.registry } := by
  induction ids generalizing before with
  | nil =>
    obtain ⟨-, rfl⟩ := pure_eq_ok.mp run
    rfl
  | cons id ids ih =>
    rw [List.forM_cons] at run
    obtain ⟨⟨⟩, middle, first, rest⟩ := bind_eq_ok.mp run
    let ctors := ((before.registry.template? id).map (·.ctors id)).getD []
    have registered : middle = { before with
        registry := ctors.foldl Registry.defineCtor before.registry } :=
      (EStateM.Result.ok.inj first).2.symm
    subst registered
    have same := Registry.templates_foldl_defineCtor before.registry ctors
    rw [ih rest, Registry.declaredCtors_of_templates same]
    simp only [Registry.declaredCtors, List.flatMap_cons, List.foldl_append, ctors]

/-- An accepted group is read up to its closed definitions, whose constructors are then
registered. -/
theorem data_eq_ok {group : List Surface.DataDecl} {ids : List TemplateId}
    (run : Check.data group before = .ok ids after) :
    ∃ middle, (Elaborate.dataGroup group).run' .forDeclaration before = .ok ids middle ∧
      after = { middle with
        registry := (middle.registry.declaredCtors ids).foldl Registry.defineCtor
          middle.registry } := by
  have rest : (do
      let ids ← (Elaborate.dataGroup group).run' .forDeclaration
      ids.forM Check.defineCtors
      pure ids : Check (List TemplateId)) before = .ok ids after := by
    unfold Check.data at run
    split at run
    · obtain ⟨⟨⟩, middle, distinct, run'⟩ := bind_eq_ok.mp run
      obtain ⟨⟨⟩, middle', distinct', run''⟩ := bind_eq_ok.mp run'
      obtain rfl := distinct_eq_ok distinct
      obtain rfl := distinct_eq_ok distinct'
      exact run''
    · exact run
  obtain ⟨found, middle, filled, others⟩ := bind_eq_ok.mp rest
  obtain ⟨⟨⟩, last, registered, finish⟩ := bind_eq_ok.mp others
  obtain ⟨rfl, rfl⟩ := pure_eq_ok.mp finish
  exact ⟨middle, filled, defineCtors_eq_ok registered⟩

/-- A group of data types whose fields are first-order types over their parameters. -/
theorem Sound.advance_data (sound : before.Sound) {group : List Surface.DataDecl}
    {ids : List TemplateId} (run : Check.data group before = .ok ids after)
    (plain : after.registry.Plain) : before.Advance after := by
  obtain ⟨middle, filled, rfl⟩ := data_eq_ok run
  have steady :=
    ((Elaborate.steady_dataGroup (@Check.declaring_filling before.subst before.registry) group).run'
      .forDeclaration) before.env before.options before.names
    before ⟨rfl, rfl, Nat.le_refl _, sound.tame.grown_refl, sound.registry.filling⟩
  rw [filled] at steady
  obtain ⟨⟨env, -, names, grown, filling⟩, isOwn⟩ := steady
  have templates :=
    Registry.templates_foldl_defineCtor middle.registry (middle.registry.declaredCtors ids)
  have coherent := filling.coherent sound.registry (plain.of_templates templates.symm)
  have registered := coherent.foldl_defineCtor fun info member => by
    obtain ⟨id, inside, template, known, inCtors⟩ := Registry.mem_declaredCtors.mp member
    exact Registry.registers_of_mem_ctors known
      (fun builtin => (filling.empty (isOwn id inside) known builtin).2) inCtors
  refine sound.advance_grown env names grown registered ?_
  refine filling.grows.trans fun id template known => ?_
  rw [Registry.template?, templates]
  exact known

theorem Sound.advance_synonym (sound : before.Sound) {name : Name} {params : List Name}
    {body : Surface.TypeExpr} {span : Span} {value : Unit}
    (run : Check.synonym name params body span before = .ok value after)
    (plain : after.registry.Plain) : before.Advance after := by
  have steady :=
    Check.steady_synonym (@Check.declaring_filling before.subst before.registry).toGrowing name
    (fun ty kind holds => ⟨holds.1, holds.2.defineType name (.synonym ty kind)⟩) params body span
    before.env before.options before.names before ⟨rfl, rfl, Nat.le_refl _, sound.tame.grown_refl,
      sound.registry.filling⟩
  rw [run] at steady
  obtain ⟨⟨env, -, names, grown, filling⟩, -⟩ := steady
  exact sound.advance_grown env names grown (filling.coherent sound.registry plain) filling.grows

end Session

end PolyCheck
