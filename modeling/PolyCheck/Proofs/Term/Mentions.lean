import Mathlib
import PolyCheck.Term.Recursion

/-! Names that are free in terms. A term mentions a group of names, where some names are hidden,
when one of the group that is not hidden is free in it. -/
namespace PolyCheck.Term

mutual

def Reads (name : Name) : Term → Prop
  | var other _ => name = other
  | lit _ _ => False
  | failure _ => False
  | tuple elems _ => ReadsAny name elems
  | ctor _ _ _ arg _ => ReadsOption name arg
  | app func arg _ => Reads name func ∨ Reads name arg
  | lambda param _ body _ => name ≠ param ∧ Reads name body
  | letIn recursive definitions body _ =>
    (recursive = true → name ∉ definitions.map (·.name)) ∧ ReadsDefinitions name definitions ∨
      name ∉ definitions.map (·.name) ∧ Reads name body
  | matchOn scrutinee arms _ => Reads name scrutinee ∨ ReadsArms name arms

def ReadsAny (name : Name) : List Term → Prop
  | [] => False
  | term :: terms => Reads name term ∨ ReadsAny name terms

def ReadsOption (name : Name) : Option Term → Prop
  | none => False
  | some term => Reads name term

def ReadsDefinitions (name : Name) : List Definition → Prop
  | [] => False
  | ⟨_, _, value⟩ :: rest => Reads name value ∨ ReadsDefinitions name rest

def ReadsArms (name : Name) : List Arm → Prop
  | [] => False
  | ⟨pat, body⟩ :: rest => name ∉ pat.captures ∧ Reads name body ∨ ReadsArms name rest

end

variable {name : Name}

theorem readsAny_iff {terms : List Term} : ReadsAny name terms ↔ ∃ term ∈ terms,
    term.Reads name := by
  induction terms with
  | nil => simp [ReadsAny]
  | cons term terms ih => simp [ReadsAny, ih]

theorem readsDefinitions_iff {definitions : List Definition} :
    ReadsDefinitions name definitions ↔ ∃ definition ∈ definitions,
      definition.value.Reads name := by
  induction definitions with
  | nil => simp [ReadsDefinitions]
  | cons definition definitions ih =>
    obtain ⟨other, scheme, value⟩ := definition
    simp [ReadsDefinitions, ih]

theorem readsArms_iff {arms : List Arm} :
    ReadsArms name arms ↔ ∃ arm ∈ arms, name ∉ arm.pat.captures ∧ arm.body.Reads name := by
  induction arms with
  | nil => simp [ReadsArms]
  | cons arm arms ih =>
    obtain ⟨pat, body⟩ := arm
    simp [ReadsArms, ih]

def AnyOf (group hidden : List Name) (holds : Name → Prop) : Prop :=
  ∃ name ∈ group, name ∉ hidden ∧ holds name

theorem anyOf_false {group hidden : List Name} : AnyOf group hidden (fun _ => False) ↔ False := by
  simp [AnyOf]

theorem anyOf_or {group hidden : List Name} {first second : Name → Prop} :
    AnyOf group hidden (fun name => first name ∨ second name) ↔
      AnyOf group hidden first ∨ AnyOf group hidden second := by
  simp only [AnyOf, and_or_left, exists_or]

theorem anyOf_append {group names hidden : List Name} {holds : Name → Prop} :
    AnyOf group (names ++ hidden) holds ↔ AnyOf group hidden fun name => name ∉ names ∧
      holds name := by
  simp only [AnyOf, List.mem_append, not_or]
  exact exists_congr fun name => and_congr_right fun _ => by
    rw [and_comm (a := name ∉ names), and_assoc]

mutual

theorem mentions_iff : ∀ (term : Term) (group hidden : List Name),
    term.mentions group hidden = true ↔ AnyOf group hidden fun name => term.Reads name
  | var name _, group, hidden => by
    simp [mentions, Reads, AnyOf]
  | lit _ _, group, hidden => by simp [mentions, Reads, anyOf_false]
  | failure _, group, hidden => by simp [mentions, Reads, anyOf_false]
  | tuple elems _, group, hidden => by
    simp only [mentions, Reads]
    exact mentionsAny_iff elems group hidden
  | ctor _ _ _ none _, group, hidden => by
    simp [mentions, mentionsOption, Reads, ReadsOption, anyOf_false]
  | ctor _ _ _ (some arg) _, group, hidden => by
    simp only [mentions, mentionsOption, Reads, ReadsOption]
    exact mentions_iff arg group hidden
  | app func arg _, group, hidden => by
    simp only [mentions, Reads, Bool.or_eq_true, mentions_iff func group hidden,
      mentions_iff arg group hidden, anyOf_or]
  | lambda param _ body _, group, hidden => by
    have inside := mentions_iff body group ([param] ++ hidden)
    rw [anyOf_append] at inside
    simpa only [mentions, Reads, List.mem_singleton, List.singleton_append, ne_eq] using inside
  | letIn recursive definitions body _, group, hidden => by
    have inside := mentions_iff body group (definitions.map (·.name) ++ hidden)
    rw [anyOf_append] at inside
    simp only [mentions, Reads, Bool.or_eq_true, inside, anyOf_or]
    refine or_congr_left ?_
    cases recursive with
    | true =>
      rw [if_pos rfl, mentionsDefinitions_iff definitions group, anyOf_append]
      simp only [true_imp_iff]
    | false =>
      rw [if_neg Bool.false_ne_true, mentionsDefinitions_iff definitions group]
      simp
  | matchOn scrutinee arms _, group, hidden => by
    simp only [mentions, Reads, Bool.or_eq_true, mentions_iff scrutinee group hidden,
      mentionsArms_iff arms group hidden, anyOf_or]

theorem mentionsAny_iff : ∀ (terms : List Term) (group hidden : List Name),
    mentionsAny group hidden terms = true ↔ AnyOf group hidden fun name => ReadsAny name terms
  | [], group, hidden => by simp [mentionsAny, ReadsAny, anyOf_false]
  | term :: terms, group, hidden => by
    simp only [mentionsAny, ReadsAny, Bool.or_eq_true, mentions_iff term group hidden,
      mentionsAny_iff terms group hidden, anyOf_or]

theorem mentionsDefinitions_iff : ∀ (definitions : List Definition) (group hidden : List Name),
    mentionsDefinitions group hidden definitions = true ↔
      AnyOf group hidden fun name => ReadsDefinitions name definitions
  | [], group, hidden => by simp [mentionsDefinitions, ReadsDefinitions, anyOf_false]
  | ⟨_, _, value⟩ :: rest, group, hidden => by
    simp only [mentionsDefinitions, ReadsDefinitions, Bool.or_eq_true,
      mentions_iff value group hidden, mentionsDefinitions_iff rest group hidden, anyOf_or]

theorem mentionsArms_iff : ∀ (arms : List Arm) (group hidden : List Name),
    mentionsArms group hidden arms = true ↔ AnyOf group hidden fun name => ReadsArms name arms
  | [], group, hidden => by simp [mentionsArms, ReadsArms, anyOf_false]
  | ⟨pat, body⟩ :: rest, group, hidden => by
    have inside := mentions_iff body group (pat.captures ++ hidden)
    rw [anyOf_append] at inside
    simp only [mentionsArms, ReadsArms, Bool.or_eq_true, inside, mentionsArms_iff rest group hidden,
      anyOf_or]

end

theorem not_reads_of_not_mentions {term : Term} {names : List Name}
    (absent : term.mentions names [] = false)
    (reads : term.Reads name) : name ∉ names := fun member =>
  Bool.false_ne_true
    (absent ▸ (mentions_iff term names []).mpr ⟨name, member, List.not_mem_nil, reads⟩)

end PolyCheck.Term
