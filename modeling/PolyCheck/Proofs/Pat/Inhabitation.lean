import PolyCheck.Proofs.Pat.Typing

/-! Patterns that match something. Where a type has values, and the types of their fields have too,
a typed pattern without a choice between no alternatives matches one of them. -/
namespace PolyCheck

namespace Pat

mutual

def Every (holds : Pat → Prop) : Pat → Prop
  | tuple elems => holds (tuple elems) ∧ EveryAll holds elems
  | ctor name template index args => holds (ctor name template index args) ∧ EveryAll holds args
  | oneOf ps => holds (oneOf ps) ∧ EveryAll holds ps
  | wild capture => holds (wild capture)
  | bool value => holds (bool value)
  | int width value => holds (int width value)
  | str bytes => holds (str bytes)

def EveryAll (holds : Pat → Prop) : List Pat → Prop
  | [] => True
  | p :: ps => Every holds p ∧ EveryAll holds ps

end

mutual

/-- The integers that a pattern names. -/
def ints : Pat → List Int
  | int _ value => [value]
  | tuple elems => intsAll elems
  | ctor _ _ _ args => intsAll args
  | oneOf ps => intsAll ps
  | _ => []

def intsAll : List Pat → List Int
  | [] => []
  | p :: ps => ints p ++ intsAll ps

end

/-- No choice between no alternatives. -/
def Proper (p : Pat) : Prop := p.Every (· ≠ oneOf [])

def OrFree (p : Pat) : Prop := p.Every (·.isOneOf = false)

/-- All integers in a pattern are among known ones. -/
def Names (known : List Int) (p : Pat) : Prop :=
  p.Every fun q => ∀ width value, q = int width value → value ∈ known

section Every

variable {holds : Pat → Prop} {p q : Pat} {ps : List Pat}

theorem everyAll_iff : EveryAll holds ps ↔ ∀ p ∈ ps, p.Every holds := by
  induction ps with
  | nil => simp [EveryAll]
  | cons p ps ih => simp [EveryAll, ih]

theorem Every.self (every : p.Every holds) : holds p := by
  cases p with
  | tuple _ | ctor _ _ _ _ | oneOf _ => exact every.1
  | wild _ | bool _ | int _ _ | str _ => exact every

theorem Every.fields (every : p.Every holds) (member : q ∈ p.fields) : q.Every holds := by
  cases p with
  | tuple _ | ctor _ _ _ _ => exact everyAll_iff.mp every.2 q member
  | wild _ | bool _ | int _ _ | str _ | oneOf _ => simp [Pat.fields] at member

theorem Every.choice (every : (oneOf ps).Every holds) (member : p ∈ ps) : p.Every holds :=
  everyAll_iff.mp every.2 p member

theorem Every.alternatives (every : p.Every holds) (member : q ∈ p.alternatives) :
    q.Every holds :=
  @forall_alternatives (·.Every holds) (fun every _ => every.choice) p q every member

theorem every_of_fields {head : Head} (own : p.head? = some head) (here : holds p)
    (inside : ∀ q ∈ p.fields, q.Every holds) : p.Every holds := by
  cases p with
  | tuple _ | ctor _ _ _ _ => exact ⟨here, everyAll_iff.mpr inside⟩
  | bool _ | int _ _ | str _ => exact here
  | wild _ | oneOf _ => simp [Pat.head?] at own

mutual

theorem names_of_ints {known : List Int} :
    ∀ {p : Pat}, (∀ value ∈ p.ints, value ∈ known) → p.Names known
  | .int _ _, inside => by
    simp only [Names, Every, int.injEq, and_imp]
    rintro _ value rfl rfl
    exact inside _ (by simp [ints])
  | .tuple elems, inside => ⟨nofun, everyAll_names_of_ints (by simpa [ints] using inside)⟩
  | .ctor _ _ _ args, inside => ⟨nofun, everyAll_names_of_ints (by simpa [ints] using inside)⟩
  | .oneOf ps, inside => ⟨nofun, everyAll_names_of_ints (by simpa [ints] using inside)⟩
  | .wild _, _ => nofun
  | .bool _, _ => nofun
  | .str _, _ => nofun

theorem everyAll_names_of_ints {known : List Int} :
    ∀ {ps : List Pat}, (∀ value ∈ intsAll ps, value ∈ known) →
      EveryAll (fun q => ∀ width value, q = int width value → value ∈ known) ps
  | [], _ => trivial
  | p :: ps, inside => by
    simp only [intsAll, List.mem_append] at inside
    exact ⟨names_of_ints fun value member => inside value (.inl member),
      everyAll_names_of_ints fun value member => inside value (.inr member)⟩

end

end Every

end Pat

inductive Component (subst : Subst) (registry : Registry) (ty : Ty) : Ty → Prop where
  | self : Component subst registry ty ty
  | field {inner part : Ty} {head : Head} (inside : Component subst registry ty inner)
    (has : (Family.of inner subst registry).Has registry head)
    (member : part ∈ (Family.of inner subst registry).fieldTypes registry head) :
    Component subst registry ty part

/-- A type that has values, and so do the types of all fields in them. -/
def Populated (subst : Subst) (registry : Registry) (ty : Ty) : Prop :=
  ∀ part, Component subst registry ty part → ∃ value : Value, value.HasType subst registry part

variable {subst : Subst} {registry : Registry}

theorem Populated.field {ty part : Ty} {head : Head} (populated : Populated subst registry ty)
    (has : (Family.of ty subst registry).Has registry head)
    (member : part ∈ (Family.of ty subst registry).fieldTypes registry head) :
    Populated subst registry part := by
  intro inner component
  refine populated inner ?_
  induction component with
  | self => exact .field .self has member
  | field _ has member ih => exact .field ih has member

mutual

theorem exists_match {ty : Ty} : ∀ {p : Pat}, p.HasType subst registry ty → p.Proper →
    Populated subst registry ty → ∃ value : Value, value.HasType subst registry ty ∧ p.Matches value
  | .wild capture, _, _, populated => by
    obtain ⟨value, typed⟩ := populated ty .self
    exact ⟨value, typed, Pat.matches_wild capture value⟩
  | .oneOf [], _, proper, _ => absurd rfl proper.self
  | .oneOf (p :: ps), .oneOf each, proper, populated => by
    obtain ⟨value, typed, found⟩ :=
      exists_match (each p List.mem_cons_self) (proper.choice List.mem_cons_self) populated
    exact ⟨value, typed, Pat.matches_oneOf.mpr ⟨p, List.mem_cons_self, found⟩⟩
  | .bool value, .bool family _, _, _ => ⟨_, .bool family value, by simp [Pat.Matches, Pat.match?]⟩
  | .int _ value, .int family range, _, _ =>
    ⟨_, .int family range, by simp [Pat.Matches, Pat.match?]⟩
  | .str bytes, .str family _, _, _ => ⟨_, .str family bytes, by simp [Pat.Matches, Pat.match?]⟩
  | .tuple elems, typed, proper, populated => by
    have ⟨has, each⟩ := typed.hasHead rfl
    obtain ⟨values, typedValues, found⟩ := exists_matchAll each
      (fun p member => proper.fields member) fun part member => populated.field has member
    exact ⟨_, Value.hasType_build has typedValues, (Row.matches_build rfl found.length).mpr found⟩
  | .ctor name template index args, typed, proper, populated => by
    have ⟨has, each⟩ := typed.hasHead rfl
    obtain ⟨values, typedValues, found⟩ := exists_matchAll each
      (fun p member => proper.fields member) fun part member => populated.field has member
    exact ⟨_, Value.hasType_build has typedValues, (Row.matches_build rfl found.length).mpr found⟩

theorem exists_matchAll : ∀ {row : Row} {types : List Ty},
    List.Forall₂ (Pat.HasType subst registry) row types → (∀ p ∈ row, p.Proper) →
    (∀ ty ∈ types, Populated subst registry ty) →
    ∃ values, List.Forall₂ (Value.HasType subst registry) values types ∧ row.Matches values
  | [], [], .nil, _, _ => ⟨[], .nil, rfl⟩
  | p :: row, ty :: types, .cons first rest, proper, populated => by
    obtain ⟨value, typed, found⟩ := exists_match first (proper p List.mem_cons_self)
      (populated ty List.mem_cons_self)
    obtain ⟨values, typedRest, foundRest⟩ := exists_matchAll rest
      (fun q member => proper q (List.mem_cons_of_mem p member))
      fun other member => populated other (List.mem_cons_of_mem ty member)
    exact ⟨value :: values, .cons typed typedRest, Row.matches_cons.mpr ⟨found, foundRest⟩⟩

end

end PolyCheck
