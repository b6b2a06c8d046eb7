import Mathlib
import PolyCheck.Proofs.Value

/-! Types of values and of patterns, by the families of heads. A value has a head of the family of
its type over values of the types of its fields; the values of functions and unresolved types show
no head, so any value counts as theirs, and only patterns without a test are for them. -/
namespace PolyCheck

def InWidth (width : Nat) (value : Int) : Prop :=
  (0 < width ∧ width ≤ maxIntWidth) ∧ -2 ^ (width - 1) ≤ value ∧ value < 2 ^ (width - 1)

theorem intCount_eq (width : Nat) : intCount width = 2 ^ width := Nat.one_shiftLeft width

theorem cast_intCount (width : Nat) : (intCount width : Int) = 2 ^ width := by
  rw [intCount_eq]
  norm_cast

theorem intCount_double {width : Nat} (positive : 0 < width) :
    intCount width = 2 * intCount (width - 1) := by
  rw [intCount_eq, intCount_eq, ← Nat.pow_succ', Nat.succ_eq_add_one, Nat.sub_add_cancel positive]

inductive Value.HasType (subst : Subst) (registry : Registry) : Value → Ty → Prop where
  | bool {ty : Ty} (family : Family.of ty subst registry = .bool) (value : Bool) :
    HasType subst registry (.bool value) ty
  | int {ty : Ty} {width : Nat} {value : Int} (family : Family.of ty subst registry = .int width)
    (range : InWidth width value) : HasType subst registry (.int value) ty
  | str {ty : Ty} (family : Family.of ty subst registry = .str) (bytes : Bytes) :
    HasType subst registry (.str bytes) ty
  | tuple {ty : Ty} {types : List Ty} {elems : List Value}
    (family : Family.of ty subst registry = .tuple types)
    (each : List.Forall₂ (HasType subst registry) elems types) :
    HasType subst registry (.tuple elems) ty
  | ctor {ty : Ty} {template : TemplateId} {args : List Ty} {index : Nat} {fields : List Value}
    (family : Family.of ty subst registry = .enum template args)
    (inside : index < registry.caseCount template)
    (each : List.Forall₂ (HasType subst registry) fields (registry.fieldsAt template index args)) :
    HasType subst registry (.ctor index (Value.pack fields)) ty
  | unknown {ty : Ty} (family : Family.of ty subst registry = .unknown) (value : Value) :
    HasType subst registry value ty

inductive Pat.HasType (subst : Subst) (registry : Registry) : Pat → Ty → Prop where
  | wild (capture : Option Name) (ty : Ty) : HasType subst registry (.wild capture) ty
  | bool {ty : Ty} (family : Family.of ty subst registry = .bool) (value : Bool) :
    HasType subst registry (.bool value) ty
  | int {ty : Ty} {width : Nat} {value : Int} (family : Family.of ty subst registry = .int width)
    (range : InWidth width value) : HasType subst registry (.int width value) ty
  | str {ty : Ty} (family : Family.of ty subst registry = .str) (bytes : Bytes) :
    HasType subst registry (.str bytes) ty
  | tuple {ty : Ty} {types : List Ty} {elems : List Pat}
    (family : Family.of ty subst registry = .tuple types)
    (each : List.Forall₂ (HasType subst registry) elems types) :
    HasType subst registry (.tuple elems) ty
  | ctor {ty : Ty} {template : TemplateId} {typeArgs : List Ty} {index : Nat} {dataCase : DataCase}
    {args : List Pat} (family : Family.of ty subst registry = .enum template typeArgs)
    (known : registry.case? template index = some dataCase)
    (each : List.Forall₂ (HasType subst registry) args
      (registry.fieldsAt template index typeArgs)) :
    HasType subst registry (.ctor dataCase.name template index args) ty
  | oneOf {ty : Ty} {alternatives : List Pat}
    (each : ∀ p ∈ alternatives, HasType subst registry p ty) :
    HasType subst registry (.oneOf alternatives) ty

variable {subst : Subst} {registry : Registry}

namespace Family

def Has (registry : Registry) (head : Head) : Family → Prop
  | bool => ∃ value, head = .bool value
  | tuple types => head = .tuple types.length
  | enum template _ => ∃ index < registry.caseCount template, head = .variant index
  | int width => ∃ value, InWidth width value ∧ head = .int value
  | str => ∃ bytes, head = .str bytes
  | unknown => False

variable {family : Family} {head : Head}

theorem length_fieldsAt (registry : Registry) (template : TemplateId) (index : Nat)
    (args : List Ty) : (registry.fieldsAt template index args).length =
      ((registry.case? template index).map (·.fields.length)).getD 0 := by
  rw [Registry.fieldsAt, Registry.case?]
  cases registry.template? template with
  | none => rfl
  | some definition =>
    simp only [Option.bind_some, Template.fieldsAt?]
    cases definition.cases[index]? with
    | none => rfl
    | some dataCase => simp

theorem length_fieldTypes (registry : Registry) (head : Head) (family : Family) :
    (family.fieldTypes registry head).length = family.arity registry head := by
  cases family with
  | tuple types => rfl
  | enum template args =>
    cases head with
    | variant index => exact length_fieldsAt registry template index args
    | bool _ => rfl
    | int _ => rfl
    | str _ => rfl
    | tuple _ => rfl
  | bool => rfl
  | int _ => rfl
  | str => rfl
  | unknown => rfl

theorem case?_of_lt {template : TemplateId} {index : Nat}
    (inside : index < registry.caseCount template) :
    ∃ dataCase, registry.case? template index = some dataCase := by
  rw [Registry.caseCount] at inside
  rw [Registry.case?]
  cases known : registry.template? template with
  | none => simp [known] at inside
  | some definition =>
    simp only [known, Option.map_some, Option.getD_some] at inside
    exact ⟨_, List.getElem?_eq_getElem inside⟩

theorem lt_of_case? {template : TemplateId} {index : Nat} {dataCase : DataCase}
    (known : registry.case? template index = some dataCase) :
    index < registry.caseCount template := by
  rw [Registry.case?] at known
  rw [Registry.caseCount]
  cases found : registry.template? template with
  | none => simp [found] at known
  | some definition =>
    rw [found] at known
    exact (List.getElem?_eq_some_iff.mp known).1

theorem Has.arity (has : family.Has registry head) {count : Nat} (tuple : head = .tuple count) :
    family.arity registry head = count := by
  subst tuple
  cases family with
  | tuple types => exact (Head.tuple.inj has).symm
  | bool | int _ | str | enum _ _ | unknown => simp [Has] at has

end Family

namespace Value

theorem HasType.hasHead {value : Value} {ty : Ty} (typed : value.HasType subst registry ty) :
    Family.of ty subst registry = .unknown ∨ ∃ head fields, value = build head fields ∧
      (Family.of ty subst registry).Has registry head ∧
      List.Forall₂ (HasType subst registry) fields
        ((Family.of ty subst registry).fieldTypes registry head) := by
  cases typed with
  | bool family value =>
    refine .inr ⟨.bool value, [], rfl, ?_, ?_⟩ <;> simp [family, Family.Has, Family.fieldTypes]
  | int family range =>
    refine .inr ⟨.int _, [], rfl, ?_, ?_⟩ <;> rw [family]
    · exact ⟨_, range, rfl⟩
    · exact .nil
  | str family bytes =>
    refine .inr ⟨.str bytes, [], rfl, ?_, ?_⟩ <;> simp [family, Family.Has, Family.fieldTypes]
  | tuple family each =>
    rename_i types elems
    refine .inr ⟨.tuple types.length, elems, rfl, ?_, ?_⟩ <;> rw [family]
    · rfl
    · exact each
  | ctor family inside each =>
    refine .inr ⟨.variant _, _, rfl, ?_, ?_⟩ <;> rw [family]
    · exact ⟨_, inside, rfl⟩
    · exact each
  | unknown family _ => exact .inl family

theorem hasType_build {ty : Ty} {head : Head} {fields : List Value}
    (has : (Family.of ty subst registry).Has registry head)
    (each : List.Forall₂ (HasType subst registry) fields
      ((Family.of ty subst registry).fieldTypes registry head)) :
    (build head fields).HasType subst registry ty := by
  cases family : Family.of ty subst registry with
  | bool =>
    simp only [family, Family.Has] at has
    obtain ⟨value, rfl⟩ := has
    exact .bool family value
  | int width =>
    simp only [family, Family.Has] at has
    obtain ⟨value, range, rfl⟩ := has
    exact .int family range
  | str =>
    simp only [family, Family.Has] at has
    obtain ⟨bytes, rfl⟩ := has
    exact .str family bytes
  | tuple types =>
    simp only [family, Family.Has] at has
    subst has
    simp only [family, Family.fieldTypes] at each
    exact .tuple family each
  | enum template args =>
    simp only [family, Family.Has] at has
    obtain ⟨index, inside, rfl⟩ := has
    simp only [family, Family.fieldTypes] at each
    exact .ctor family inside each
  | unknown => simp [family, Family.Has] at has

end Value

namespace Pat

variable {p : Pat} {ty : Ty} {head : Head}

theorem HasType.hasHead (typed : p.HasType subst registry ty) (own : p.head? = some head) :
    (Family.of ty subst registry).Has registry head ∧
      List.Forall₂ (HasType subst registry) p.fields
        ((Family.of ty subst registry).fieldTypes registry head) := by
  cases typed with
  | wild _ _ => simp [head?] at own
  | oneOf _ => simp [head?] at own
  | bool family value =>
    obtain rfl := Option.some.inj own
    rw [family]
    exact ⟨⟨value, rfl⟩, .nil⟩
  | int family range =>
    obtain rfl := Option.some.inj own
    rw [family]
    exact ⟨⟨_, range, rfl⟩, .nil⟩
  | str family bytes =>
    obtain rfl := Option.some.inj own
    rw [family]
    exact ⟨⟨bytes, rfl⟩, .nil⟩
  | tuple family each =>
    obtain rfl := Option.some.inj own
    rw [family]
    exact ⟨congrArg Head.tuple each.length_eq, each⟩
  | ctor family known each =>
    obtain rfl := Option.some.inj own
    rw [family]
    exact ⟨⟨_, Family.lt_of_case? known, rfl⟩, each⟩

theorem HasType.build_of_matches (typed : p.HasType subst registry ty) (own : p.head? = some head)
    {value : Value} (typedValue : value.HasType subst registry ty) (found : p.Matches value) :
    ∃ fields, value = .build head fields ∧ Row.Matches p.fields fields ∧
      List.Forall₂ (Value.HasType subst registry) fields
        ((Family.of ty subst registry).fieldTypes registry head) := by
  obtain ⟨has, each⟩ := typed.hasHead own
  rcases typedValue.hasHead with unknown | ⟨other, fields, rfl, hasOther, eachValue⟩
  · rw [unknown] at has
    exact has.elim
  have length : ∀ {count}, other = .tuple count → fields.length = count := fun tuple => by
    rw [eachValue.length_eq, Family.length_fieldTypes, hasOther.arity tuple]
  by_cases same : head = other
  · subst same
    refine ⟨fields, rfl, ?_, eachValue⟩
    exact (Row.matches_build own (each.length_eq.trans eachValue.length_eq.symm)).mp found
  · simp [Matches, match?_build_of_ne own same fun _ => length] at found

theorem head?_of_not_wild (notWild : p.isWild = false) (notOneOf : p.isOneOf = false) :
    ∃ head, p.head? = some head := by
  cases p <;> simp_all [isWild, isOneOf, head?]

mutual

theorem not_oneOf_of_mem_alternatives :
    ∀ {p q : Pat}, q ∈ p.alternatives → q.isOneOf = false
  | .oneOf ps, q, member => by
    rw [alternatives] at member
    exact not_oneOf_of_mem_alternativesAll member
  | .wild _, q, member => by simp_all [alternatives, isOneOf]
  | .bool _, q, member => by simp_all [alternatives, isOneOf]
  | .int _ _, q, member => by simp_all [alternatives, isOneOf]
  | .str _, q, member => by simp_all [alternatives, isOneOf]
  | .tuple _, q, member => by simp_all [alternatives, isOneOf]
  | .ctor _ _ _ _, q, member => by simp_all [alternatives, isOneOf]

theorem not_oneOf_of_mem_alternativesAll :
    ∀ {ps : List Pat} {q : Pat}, q ∈ alternativesAll ps → q.isOneOf = false
  | [], q, member => by simp [alternativesAll] at member
  | p :: ps, q, member => by
    rw [alternativesAll] at member
    rcases List.mem_append.mp member with member | member
    · exact not_oneOf_of_mem_alternatives member
    · exact not_oneOf_of_mem_alternativesAll member

end

mutual

theorem forall_alternatives {motive : Pat → Prop}
    (each : ∀ {ps}, motive (.oneOf ps) → ∀ p ∈ ps, motive p) :
    ∀ {p q : Pat}, motive p → q ∈ p.alternatives → motive q
  | .oneOf ps, q, holds, member => by
    rw [alternatives] at member
    exact forall_alternativesAll each (each holds) member
  | .wild _, q, holds, member => by simp_all [alternatives]
  | .bool _, q, holds, member => by simp_all [alternatives]
  | .int _ _, q, holds, member => by simp_all [alternatives]
  | .str _, q, holds, member => by simp_all [alternatives]
  | .tuple _, q, holds, member => by simp_all [alternatives]
  | .ctor _ _ _ _, q, holds, member => by simp_all [alternatives]

theorem forall_alternativesAll {motive : Pat → Prop}
    (each : ∀ {ps}, motive (.oneOf ps) → ∀ p ∈ ps, motive p) :
    ∀ {ps : List Pat} {q : Pat}, (∀ p ∈ ps, motive p) → q ∈ alternativesAll ps → motive q
  | [], q, _, member => by simp [alternativesAll] at member
  | p :: ps, q, holds, member => by
    rw [alternativesAll] at member
    rcases List.mem_append.mp member with member | member
    · exact forall_alternatives each (holds p List.mem_cons_self) member
    · exact forall_alternativesAll each
        (fun other inside => holds other (List.mem_cons_of_mem p inside)) member

end

theorem HasType.alternatives (typed : p.HasType subst registry ty) {q : Pat}
    (member : q ∈ p.alternatives) : q.HasType subst registry ty := by
  refine @forall_alternatives (HasType subst registry · ty) (fun {ps} typed => ?_) p q typed member
  cases typed with
  | oneOf each => exact each

theorem hasType_pattern {ps : List Pat} (has : (Family.of ty subst registry).Has registry head)
    (each : List.Forall₂ (HasType subst registry) ps
      ((Family.of ty subst registry).fieldTypes registry head)) :
    (((Family.of ty subst registry).pattern registry head).withFields ps).HasType
      subst registry ty := by
  cases family : Family.of ty subst registry with
  | bool =>
    simp only [family, Family.Has] at has
    obtain ⟨value, rfl⟩ := has
    exact .bool family value
  | int width =>
    simp only [family, Family.Has] at has
    obtain ⟨value, range, rfl⟩ := has
    exact .int family range
  | str =>
    simp only [family, Family.Has] at has
    obtain ⟨bytes, rfl⟩ := has
    exact .str family bytes
  | tuple types =>
    simp only [family, Family.Has] at has
    subst has
    simp only [family, Family.fieldTypes] at each
    exact .tuple family each
  | enum template args =>
    simp only [family, Family.Has] at has
    obtain ⟨index, inside, rfl⟩ := has
    obtain ⟨dataCase, known⟩ := Family.case?_of_lt inside
    simp only [family, Family.fieldTypes] at each
    simp only [Family.pattern, known]
    exact .ctor family known each
  | unknown => simp [family, Family.Has] at has

theorem withFields_pattern {family : Family} (has : family.Has registry head) {ps : List Pat}
    (length : ps.length = family.arity registry head) :
    ((family.pattern registry head).withFields ps).head? = some head ∧
      ((family.pattern registry head).withFields ps).fields = ps := by
  have empty : family.arity registry head = 0 → ps = [] := fun none =>
    List.eq_nil_of_length_eq_zero (length.trans none)
  cases family with
  | bool =>
    obtain ⟨value, rfl⟩ := has
    exact ⟨rfl, (empty rfl).symm⟩
  | int width =>
    obtain ⟨value, -, rfl⟩ := has
    exact ⟨rfl, (empty rfl).symm⟩
  | str =>
    obtain ⟨bytes, rfl⟩ := has
    exact ⟨rfl, (empty rfl).symm⟩
  | tuple types =>
    obtain rfl := has
    exact ⟨congrArg (some ∘ Head.tuple) length, rfl⟩
  | enum template args =>
    obtain ⟨index, inside, rfl⟩ := has
    obtain ⟨dataCase, known⟩ := Family.case?_of_lt inside
    simp only [Family.pattern, known]
    exact ⟨rfl, rfl⟩
  | unknown => exact has.elim

end Pat

end PolyCheck
