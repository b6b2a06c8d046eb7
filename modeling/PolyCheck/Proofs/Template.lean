import PolyCheck.Proofs.Ty.FirstOrder
import PolyCheck.Registry

/-! Field types at the arguments of a definition. Where fields are first-order types over the
parameters, taking the fields at some arguments commutes with every substitution into the
arguments. -/
namespace PolyCheck

section Assignment

variable {bound : Nat} {ty : Ty} {vars : List TyVar} {types : List Ty} {v : TyVar}

def Assignment.image (assignment : Assignment) (v : TyVar) : Ty :=
  (assignment.lookup v).getD (.var v)

theorem Ty.FirstOrder.substitute_eq (plain : ty.FirstOrder bound) (assignment : Assignment) :
    ty.substitute assignment = ty.under assignment.image := by
  induction plain with
  | var _ => rfl
  | arrow _ _ ihParam ihResult => rw [Ty.substitute, Ty.under, ihParam, ihResult]
  | tuple _ ih =>
    rw [Ty.substitute, Ty.under, Ty.substituteAll_eq_map, Ty.underAll_eq_map,
      List.map_congr_left ih]
  | nominal _ ih =>
    rw [Ty.substitute, Ty.under, Ty.substituteAll_eq_map, Ty.underAll_eq_map,
      List.map_congr_left ih]

theorem Assignment.image_of_not_mem (absent : v ∉ vars) :
    (Assignment.ofLists vars types).image v = .var v := by
  have none : (Assignment.ofLists vars types).lookup v = none := by
    rw [List.lookup_eq_none_iff]
    intro entry member
    rw [bne_iff_ne]
    rintro rfl
    exact absent (List.of_mem_zip (List.mem_reverse.mp member)).1
  rw [image, none, Option.getD_none]

/-- A variable with a type to be put in its place, also when the types are changed beforehand. -/
theorem Assignment.image_of_mem (member : v ∈ vars) (length : types.length = vars.length) :
    (Assignment.ofLists vars types).image v ∈ types ∧ ∀ change : Ty → Ty,
      (Assignment.ofLists vars (types.map change)).image v =
        change ((Assignment.ofLists vars types).image v) := by
  have changed : ∀ change : Ty → Ty, Assignment.ofLists vars (types.map change) =
      (Assignment.ofLists vars types).map (Prod.map id change) := by
    intro change
    rw [ofLists, ofLists, List.zip_map_right, List.map_reverse]
  have found : ∃ ty, (Assignment.ofLists vars types).lookup v = some ty := by
    rw [← Option.isSome_iff_exists, Option.isSome_iff_ne_none, Ne, List.lookup_eq_none_iff]
    intro none
    obtain ⟨index, inside, rfl⟩ := List.getElem_of_mem member
    have entry : (vars[index], types[index]) ∈ Assignment.ofLists vars types := by
      refine List.mem_reverse.mpr (List.mem_iff_getElem.mpr ⟨index, ?_, ?_⟩)
      · rw [List.length_zip, length, Nat.min_self]
        exact inside
      · simp
    simpa using none _ entry
  obtain ⟨ty, found⟩ := found
  have same : (Assignment.ofLists vars types).image v = ty := by rw [image, found, Option.getD_some]
  rw [same]
  refine ⟨?_, fun change => ?_⟩
  · obtain ⟨first, rest, split, -⟩ := List.lookup_eq_some_iff.mp found
    have entry : (v, ty) ∈ Assignment.ofLists vars types := by
      rw [split]
      simp
    exact (List.of_mem_zip (List.mem_reverse.mp entry)).2
  · have shown : ∀ entries : Assignment,
        (entries.map (Prod.map id change)).lookup v = (entries.lookup v).map change := by
      intro entries
      induction entries with
      | nil => rfl
      | cons entry entries ih =>
        obtain ⟨w, t⟩ := entry
        by_cases same : v = w
        · simp [same]
        · simp [List.lookup, beq_false_of_ne same, ih]
    rw [image, changed, shown, found]
    rfl

theorem Ty.FirstOrder.substitute_change (plain : ty.FirstOrder bound)
    (inside : ∀ v ∈ ty.leaves, v ∈ vars) (length : types.length = vars.length)
    (change : Ty → Ty) :
    ty.substitute (.ofLists vars (types.map change)) =
      ty.under fun v => change ((Assignment.ofLists vars types).image v) := by
  rw [plain.substitute_eq]
  exact plain.under_congr fun v member =>
    (Assignment.image_of_mem (inside v member) length).2 change

end Assignment

namespace Registry

variable {registry : Registry} {id : TemplateId} {index : Nat} {dataCase : DataCase}
  {args : List Ty}

/-- Every field is a first-order type over the parameters of its definition. -/
def Plain (registry : Registry) : Prop :=
  ∀ id template, registry.template? id = some template → ∀ dataCase ∈ template.cases,
    ∀ field ∈ dataCase.fields,
      (∃ bound, field.FirstOrder bound) ∧ ∀ v ∈ field.leaves, v ∈ template.paramVars

/-- A case of a declared type, with as many arguments as the type has parameters. -/
def Declares (registry : Registry) (id : TemplateId) (index : Nat) (dataCase : DataCase)
    (args : List Ty) : Prop :=
  ∃ template, registry.template? id = some template ∧ template.builtin = none ∧
    template.cases[index]? = some dataCase ∧ args.length = template.paramVars.length

def Provides (registry : Registry) (builtin : Builtin) (ty : Ty) : Prop :=
  ∃ id template, ty = .named id ∧ registry.template? id = some template ∧
    template.builtin = some builtin

theorem Provides.under {builtin : Builtin} {ty : Ty} (provides : registry.Provides builtin ty)
    (images : TyVar → Ty) : ty.under images = ty := by
  obtain ⟨id, template, rfl, -⟩ := provides
  rfl

theorem Declares.case? (declares : registry.Declares id index dataCase args) :
    registry.case? id index = some dataCase := by
  obtain ⟨template, known, -, inside, -⟩ := declares
  rw [Registry.case?, known]
  exact inside

theorem Declares.change (declares : registry.Declares id index dataCase args) (change : Ty → Ty) :
    registry.Declares id index dataCase (args.map change) := by
  obtain ⟨template, known, declared, inside, length⟩ := declares
  exact ⟨template, known, declared, inside, by rw [List.length_map, length]⟩

theorem Declares.length_fieldsAt (declares : registry.Declares id index dataCase args) :
    (registry.fieldsAt id index args).length = dataCase.fields.length := by
  obtain ⟨template, known, -, inside, -⟩ := declares
  rw [fieldsAt, known, Option.bind_some, Template.fieldsAt?, inside]
  simp

theorem forall_mem_fieldsAt {holds : Ty → Prop}
    (each : ∀ {template : Template} {dataCase : DataCase},
      registry.template? id = some template → template.cases[index]? = some dataCase →
      ∀ field ∈ dataCase.fields, holds (field.substitute (.ofLists template.paramVars args))) :
    ∀ t ∈ registry.fieldsAt id index args, holds t := by
  rw [fieldsAt]
  cases known : registry.template? id with
  | none => exact List.forall_mem_nil _
  | some template =>
    rw [Option.bind_some, Template.fieldsAt?]
    cases inside : template.cases[index]? with
    | none => exact List.forall_mem_nil _
    | some dataCase => exact List.forall_mem_map.mpr (each known inside)

theorem Declares.fieldsAt_change (declares : registry.Declares id index dataCase args)
    (plain : registry.Plain) {change : Ty → Ty}
    (through : ∀ {ty : Ty} {bound : Nat} {images : TyVar → Ty}, ty.FirstOrder bound →
      (∀ v ∈ ty.leaves, images v ∈ args) →
      change (ty.under images) = ty.under fun v => change (images v)) :
    registry.fieldsAt id index (args.map change) =
      (registry.fieldsAt id index args).map change := by
  obtain ⟨template, known, -, inside, length⟩ := declares
  have each := plain id template known dataCase (List.mem_of_getElem? inside)
  rw [fieldsAt, fieldsAt, known, Option.bind_some, Option.bind_some, Template.fieldsAt?,
    Template.fieldsAt?, inside]
  simp only [Option.map_some, Option.getD_some, List.map_map]
  refine List.map_congr_left fun field member => ?_
  obtain ⟨⟨bound, firstOrder⟩, params⟩ := each field member
  rw [firstOrder.substitute_change params length change, Function.comp_apply,
    firstOrder.substitute_eq]
  exact (through firstOrder fun v inLeaves =>
    (Assignment.image_of_mem (params v inLeaves) length).1).symm

theorem Declares.fieldsAt_under (declares : registry.Declares id index dataCase args)
    (plain : registry.Plain) (images : TyVar → Ty) :
    registry.fieldsAt id index (args.map (·.under images)) =
      (registry.fieldsAt id index args).map (·.under images) :=
  declares.fieldsAt_change plain fun firstOrder _ => firstOrder.under_under _ images

theorem Declares.firstOrder_fieldsAt (declares : registry.Declares id index dataCase args)
    (plain : registry.Plain) {bound : Nat} (firstOrder : ∀ arg ∈ args, arg.FirstOrder bound)
    {field : Ty} (member : field ∈ registry.fieldsAt id index args) :
    field.FirstOrder bound ∧ ∀ v ∈ field.leaves, ∃ arg ∈ args, v ∈ arg.leaves := by
  obtain ⟨template, known, -, inside, length⟩ := declares
  have each := plain id template known dataCase (List.mem_of_getElem? inside)
  rw [fieldsAt, known, Option.bind_some, Template.fieldsAt?, inside] at member
  obtain ⟨source, inFields, rfl⟩ := List.mem_map.mp member
  obtain ⟨⟨_, sourcePlain⟩, params⟩ := each source inFields
  have images : ∀ v ∈ source.leaves, (Assignment.ofLists template.paramVars args).image v ∈ args :=
    fun v inLeaves => (Assignment.image_of_mem (params v inLeaves) length).1
  rw [sourcePlain.substitute_eq]
  refine ⟨sourcePlain.under fun v inLeaves => firstOrder _ (images v inLeaves), fun w inUnder => ?_⟩
  obtain ⟨v, inLeaves, inImage⟩ := sourcePlain.mem_leaves_under.mp inUnder
  exact ⟨_, images v inLeaves, inImage⟩

end Registry

end PolyCheck
