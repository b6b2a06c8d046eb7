import PolyCheck.Proofs.Template

/-! Tables that agree with the definitions they point to. A definition stays what it is while
further ones are made, and so does everything that is said about its cases and their fields. -/
namespace PolyCheck.Registry

variable {registry middle after : Registry} {id : TemplateId} {index : Nat} {dataCase : DataCase}
  {args : List Ty} {ty : Ty} {builtin : Builtin} {info : CtorInfo}

def Grows (registry after : Registry) : Prop :=
  ∀ id template, registry.template? id = some template → after.template? id = some template

theorem grows_refl (registry : Registry) : registry.Grows registry := fun _ _ => id

theorem Grows.trans (first : registry.Grows middle) (second : middle.Grows after) :
    registry.Grows after :=
  fun id template known => second id template (first id template known)

theorem Declares.grow (declares : registry.Declares id index dataCase args)
    (grows : registry.Grows after) : after.Declares id index dataCase args := by
  obtain ⟨template, known, rest⟩ := declares
  exact ⟨template, grows id template known, rest⟩

theorem Provides.grow (provides : registry.Provides builtin ty) (grows : registry.Grows after) :
    after.Provides builtin ty := by
  obtain ⟨id, template, same, known, rest⟩ := provides
  exact ⟨id, template, same, grows id template known, rest⟩

theorem Declares.fieldsAt_grow (declares : registry.Declares id index dataCase args)
    (grows : registry.Grows after) (args' : List Ty) :
    after.fieldsAt id index args' = registry.fieldsAt id index args' := by
  obtain ⟨template, known, -⟩ := declares
  rw [fieldsAt, fieldsAt, known, grows id template known]

/-- A constructor that stands for a case of a declared type. -/
def Registers (registry : Registry) (info : CtorInfo) : Prop :=
  ∃ template dataCase, registry.template? info.template = some template ∧ template.builtin = none ∧
    template.cases[info.index]? = some dataCase ∧ dataCase.name = info.name ∧
    info.arity = dataCase.fields.length

theorem Registers.grow (registers : registry.Registers info) (grows : registry.Grows after) :
    after.Registers info := by
  obtain ⟨template, dataCase, known, rest⟩ := registers
  exact ⟨template, dataCase, grows _ template known, rest⟩

theorem Registers.declares (registers : registry.Registers info)
    (length : args.length = registry.paramCount info.template) :
    ∃ dataCase, registry.Declares info.template info.index dataCase args ∧
      dataCase.name = info.name ∧ info.arity = dataCase.fields.length := by
  obtain ⟨template, dataCase, known, declared, inside, name, arity⟩ := registers
  refine ⟨dataCase, ⟨template, known, declared, inside, ?_⟩, name, arity⟩
  rw [length, paramCount, known, Option.map_some, Option.getD_some, Template.paramVars,
    List.length_map]

structure Coherent (registry : Registry) : Prop where
  bool : registry.Provides .bool boolTy
  str : registry.Provides .str stringTy
  int : ∀ {width id}, registry.ints.get? width = some id →
    registry.Provides (.int width) (.named id)
  ctor : ∀ {name info}, registry.ctors.get? name = some info →
    info.name = name ∧ registry.Registers info
  plain : registry.Plain

theorem template?_alloc (registry : Registry) (template : Template) (id : TemplateId) :
    (registry.alloc template).2.template? id =
      if id.index = registry.templates.size then some template else registry.template? id := by
  simp only [alloc, template?, Arena.get?, Arena.alloc, Arena.size, Array.getElem?_push]
  rfl

theorem grows_alloc (registry : Registry) (template : Template) :
    registry.Grows (registry.alloc template).2 := by
  intro id old known
  have inside : id.index < registry.templates.size := by
    obtain ⟨inside, -⟩ := Array.getElem?_eq_some_iff.mp known
    exact inside
  rw [template?_alloc, if_neg (Nat.ne_of_lt inside), known]

theorem template?_record (registry : Registry) (undo : RegistryUndo) (id : TemplateId) :
    (registry.record undo).template? id = registry.template? id := by
  rw [record]
  split <;> rfl

theorem types_record (registry : Registry) (undo : RegistryUndo) :
    (registry.record undo).types = registry.types := by
  rw [record]
  split <;> rfl

theorem ctors_record (registry : Registry) (undo : RegistryUndo) :
    (registry.record undo).ctors = registry.ctors := by
  rw [record]
  split <;> rfl

theorem ints_record (registry : Registry) (undo : RegistryUndo) :
    (registry.record undo).ints = registry.ints := by
  rw [record]
  split <;> rfl

theorem Coherent.intTemplate (coherent : registry.Coherent) (width : Nat) :
    (registry.intTemplate width).2.Coherent ∧ registry.Grows (registry.intTemplate width).2 ∧
      (registry.intTemplate width).2.Provides (.int width)
        (.named (registry.intTemplate width).1) := by
  rw [Registry.intTemplate]
  cases known : registry.ints.get? width with
  | some id => exact ⟨coherent, grows_refl registry, coherent.int known⟩
  | none =>
    let template := Template.ofBuiltin ("i" ++ toString width) (.int width)
    let after : Registry := { (registry.alloc template).2 with
      ints := registry.ints.insert width (registry.alloc template).1 }.record (.int width)
    have found : ∀ id, after.template? id = (registry.alloc template).2.template? id :=
      fun id => template?_record _ _ id
    have grows : registry.Grows after := fun id old before => by
      rw [found]
      exact grows_alloc registry template id old before
    have provides : after.Provides (.int width) (.named (registry.alloc template).1) :=
      ⟨_, template, rfl, (found _).trans ((template?_alloc registry template _).trans (if_pos rfl)),
        rfl⟩
    change after.Coherent ∧ registry.Grows after ∧
      after.Provides (.int width) (.named (registry.alloc template).1)
    refine ⟨⟨coherent.bool.grow grows, coherent.str.grow grows, fun {width' id} entry => ?_,
      fun {name info} entry => ?_, fun id old before dataCase member => ?_⟩, grows, provides⟩
    · rw [ints_record, Table.get?_insert] at entry
      split at entry
      · rename_i same
        obtain rfl := Option.some.inj entry
        exact same.symm ▸ provides
      · exact (coherent.int entry).grow grows
    · rw [ctors_record] at entry
      obtain ⟨same, registers⟩ := coherent.ctor entry
      exact ⟨same, registers.grow grows⟩
    · rw [found, template?_alloc] at before
      split at before
      · obtain rfl := Option.some.inj before
        simp [template, Template.ofBuiltin] at member
      · exact coherent.plain id old before dataCase member

section Integers

variable {other : Registry} {width : Nat} {widths : List Nat}

/-- The tables once the integers of some widths have been asked for. -/
def providing (registry : Registry) (widths : List Nat) : Registry :=
  widths.foldl (fun registry width => (registry.intTemplate width).2) registry

theorem providing_append (registry : Registry) (widths widths' : List Nat) :
    registry.providing (widths ++ widths') = (registry.providing widths).providing widths' :=
  List.foldl_append

/-- Tables with no constructors and no integers but those of another registry. -/
structure Below (registry other : Registry) : Prop where
  ints : ∀ {width id}, registry.ints.get? width = some id → other.ints.get? width = some id
  ctors : ∀ {name}, other.ctors.get? name = none → registry.ctors.get? name = none

theorem below_refl (registry : Registry) : registry.Below registry := ⟨id, id⟩

theorem Below.trans (first : registry.Below middle) (second : middle.Below after) :
    registry.Below after :=
  ⟨fun known => second.ints (first.ints known), fun absent => first.ctors (second.ctors absent)⟩

theorem intTemplate_of_none (none : registry.ints.get? width = none) :
    registry.intTemplate width =
      (⟨registry.templates.nextSlot⟩,
        { registry with
          templates := registry.templates.alloc (.ofBuiltin ("i" ++ toString width) (.int width))
          ints := registry.ints.insert width ⟨registry.templates.nextSlot⟩ }.record
          (.int width)) := by
  rw [Registry.intTemplate, none]
  rfl

theorem intTemplate_of_some (known : registry.ints.get? width = some id) :
    registry.intTemplate width = (id, registry) := by
  rw [Registry.intTemplate, known]

theorem grows_intTemplate (registry : Registry) (width : Nat) :
    registry.Grows (registry.intTemplate width).2 := by
  cases known : registry.ints.get? width with
  | some id =>
    rw [intTemplate_of_some known]
    exact grows_refl registry
  | none =>
    rw [intTemplate_of_none known]
    intro id template before
    rw [template?_record]
    exact grows_alloc registry _ id template before

theorem get?_intTemplate (registry : Registry) (width : Nat) :
    (registry.intTemplate width).2.ints.get? width = some (registry.intTemplate width).1 := by
  cases known : registry.ints.get? width with
  | some id => rw [intTemplate_of_some known, known]
  | none => rw [intTemplate_of_none known, ints_record, Table.get?_insert, if_pos rfl]

theorem ctors_intTemplate (registry : Registry) (width : Nat) :
    (registry.intTemplate width).2.ctors = registry.ctors := by
  cases known : registry.ints.get? width with
  | some id => rw [intTemplate_of_some known]
  | none => rw [intTemplate_of_none known, ctors_record]

theorem ctors_providing (registry : Registry) (widths : List Nat) :
    (registry.providing widths).ctors = registry.ctors := by
  induction widths generalizing registry with
  | nil => rfl
  | cons width widths ih => exact (ih _).trans (ctors_intTemplate registry width)

theorem below_intTemplate (registry : Registry) (width : Nat) :
    registry.Below (registry.intTemplate width).2 where
  ints {width' id} found := by
    cases known : registry.ints.get? width with
    | some id => rwa [intTemplate_of_some known]
    | none =>
      have different : width' ≠ width := fun same => by simp [same, known] at found
      rw [intTemplate_of_none known, ints_record, Table.get?_insert, if_neg different, found]
  ctors absent := by rwa [ctors_intTemplate] at absent

theorem below_providing (registry : Registry) (widths : List Nat) :
    registry.Below (registry.providing widths) := by
  induction widths generalizing registry with
  | nil => exact below_refl registry
  | cons width widths ih => exact (below_intTemplate registry width).trans (ih _)

/-- Two registries that give the same definitions to the integers. -/
structure Alike (registry other : Registry) : Prop where
  ints : registry.ints = other.ints
  slots : registry.templates.nextSlot = other.templates.nextSlot

theorem Alike.intTemplate (alike : registry.Alike other) (width : Nat) :
    (registry.intTemplate width).2.Alike (other.intTemplate width).2 := by
  have templates_record : ∀ (registry : Registry) (undo : RegistryUndo),
      (registry.record undo).templates = registry.templates := fun registry undo => by
    rw [record]
    split <;> rfl
  cases known : registry.ints.get? width with
  | some id =>
    rw [intTemplate_of_some known, intTemplate_of_some (alike.ints ▸ known)]
    exact alike
  | none =>
    rw [intTemplate_of_none known, intTemplate_of_none (alike.ints ▸ known)]
    refine ⟨?_, ?_⟩
    · rw [ints_record, ints_record, alike.ints, alike.slots]
    · have slots := alike.slots
      rw [Arena.nextSlot, Arena.nextSlot] at slots
      simp [templates_record, Arena.nextSlot, Arena.alloc, slots]

theorem Alike.providing (alike : registry.Alike other) (widths : List Nat) :
    (registry.providing widths).Alike (other.providing widths) := by
  induction widths generalizing registry other with
  | nil => exact alike
  | cons width widths ih => exact ih (alike.intTemplate width)

end Integers

section Grounding

/-- The types that need no declaration are defined; nothing is said of the declared ones. -/
structure Grounded (registry : Registry) : Prop where
  bool : registry.Provides .bool boolTy
  str : registry.Provides .str stringTy
  int : ∀ {width id}, registry.ints.get? width = some id →
    registry.Provides (.int width) (.named id)

def blank (registry : Registry) : Registry :=
  { registry with
    templates := ⟨registry.templates.slots.map fun template => { template with cases := [] }⟩
    ctors := .empty }

theorem template?_blank (registry : Registry) (id : TemplateId) :
    registry.blank.template? id =
      (registry.template? id).map fun template => { template with cases := [] } := by
  simp [blank, template?, Arena.get?]

theorem Provides.blank (provides : registry.Provides builtin ty) :
    registry.blank.Provides builtin ty := by
  obtain ⟨id, template, rfl, known, same⟩ := provides
  refine ⟨id, { template with cases := [] }, rfl, ?_, same⟩
  rw [template?_blank, known, Option.map_some]

/-- Whatever the declared types are, without them the tables agree with the definitions. -/
theorem Grounded.coherent_blank (grounded : registry.Grounded) : registry.blank.Coherent where
  bool := grounded.bool.blank
  str := grounded.str.blank
  int known := (grounded.int known).blank
  ctor entry := by cases entry
  plain id template known dataCase member := by
    rw [template?_blank] at known
    obtain ⟨source, -, rfl⟩ := Option.map_eq_some_iff.mp known
    cases member

theorem alike_blank (registry : Registry) : registry.blank.Alike registry :=
  ⟨rfl, by simp [blank, Arena.nextSlot]⟩

theorem Below.blank {other : Registry} {widths : List Nat}
    (below : (registry.providing widths).Below other) :
    (registry.blank.providing widths).Below other where
  ints known := below.ints ((registry.alike_blank.providing widths).ints ▸ known)
  ctors _ := by
    rw [ctors_providing]
    rfl

end Grounding

end PolyCheck.Registry
