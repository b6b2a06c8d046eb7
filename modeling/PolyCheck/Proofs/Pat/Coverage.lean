import PolyCheck.Pat.Coverage
import PolyCheck.Proofs.Pat.Family
import PolyCheck.Proofs.Pat.Inhabitation

/-! Coverage is exact. A problem misses values that its query matches and none of its rows does; the
parts of a problem miss some values exactly when the problem does, and a row found for a part is put
together to one for the whole. So the search finds an answer if and only if something is missed, and
every value that the answer matches is missed. -/
namespace PolyCheck.Coverage

variable {subst : Subst} {registry : Registry}

section Rows

variable {rows : List Row} {row : Row} {p : Pat} {value : Value} {values fields rest : List Value}
  {head : Head} {ty : Ty} {types : List Ty}

theorem mem_expandRow {result : Row} (member : result ∈ expandRow row) :
    row = [] ∧ result = [] ∨
      ∃ p ps q, row = p :: ps ∧ q ∈ p.alternatives ∧ result = q :: ps := by
  cases row with
  | nil => exact .inl ⟨rfl, List.mem_singleton.mp member⟩
  | cons p ps =>
    obtain ⟨q, inside, rfl⟩ := List.mem_map.mp member
    exact .inr ⟨p, ps, q, rfl, inside, rfl⟩

theorem matches_expandRow :
    (∃ result ∈ expandRow row, result.Matches values) ↔ row.Matches values := by
  cases row with
  | nil => simp [expandRow]
  | cons p ps =>
    cases values with
    | nil =>
      constructor
      · rintro ⟨result, member, found⟩
        obtain ⟨q, -, rfl⟩ := List.mem_map.mp member
        exact absurd found.length (by simp)
      · intro found
        exact absurd found.length (by simp)
    | cons value values =>
      simp only [expandRow, List.mem_map, exists_exists_and_eq_and, Row.matches_cons,
        @Pat.matches_iff_alternatives p]
      constructor
      · rintro ⟨q, member, found, rest⟩
        exact ⟨⟨q, member, found⟩, rest⟩
      · rintro ⟨⟨q, member, found⟩, rest⟩
        exact ⟨q, member, found, rest⟩

theorem matches_expand :
    (∃ row ∈ expand rows, row.Matches values) ↔ ∃ row ∈ rows, row.Matches values := by
  simp only [expand, List.mem_flatMap]
  constructor
  · rintro ⟨result, ⟨row, member, inside⟩, found⟩
    exact ⟨row, member, matches_expandRow.mp ⟨result, inside, found⟩⟩
  · rintro ⟨row, member, found⟩
    obtain ⟨result, inside, found⟩ := matches_expandRow.mpr found
    exact ⟨result, ⟨row, member, inside⟩, found⟩

/-- What holds of rows and goes down to alternatives holds of the expanded rows, which have none at
their heads. -/
theorem forall_expand {motive : Row → Prop}
    (each : ∀ {p q : Pat} {ps : Row}, q ∈ p.alternatives → motive (p :: ps) → motive (q :: ps))
    (holds : ∀ row ∈ rows, motive row) (member : row ∈ expand rows) :
    motive row ∧ ∀ p ps, row = p :: ps → p.isOneOf = false := by
  obtain ⟨source, inside, expanded⟩ := List.mem_flatMap.mp member
  rcases mem_expandRow expanded with ⟨rfl, rfl⟩ | ⟨p, ps, q, rfl, alternative, rfl⟩
  · exact ⟨holds _ inside, nofun⟩
  · refine ⟨each alternative (holds _ inside), fun p' ps' same => ?_⟩
    obtain ⟨rfl, rfl⟩ := List.cons.inj same
    exact Pat.not_oneOf_of_mem_alternatives alternative

theorem mem_heads : head ∈ heads rows ↔ ∃ p ps, p :: ps ∈ rows ∧ p.head? = some head := by
  simp only [heads, List.mem_eraseDups, List.mem_filterMap]
  constructor
  · rintro ⟨row, member, found⟩
    cases row with
    | nil => simp at found
    | cons p ps => exact ⟨p, ps, member, by simpa using found⟩
  · rintro ⟨p, ps, member, found⟩
    exact ⟨p :: ps, member, by simpa using found⟩

/-- The row that is left for a head matches the fields exactly when the row matches the value. -/
theorem matches_specializeRow (notOneOf : p.isOneOf = false)
    (has : (Family.of ty subst registry).Has registry head)
    (typed : p.HasType subst registry ty)
    (length : fields.length = (Family.of ty subst registry).arity registry head) :
    Row.Matches (p :: row) (.build head fields :: rest) ↔
      ∃ result, specializeRow head ((Family.of ty subst registry).arity registry head) (p :: row) =
        some result ∧ result.Matches (fields ++ rest) := by
  have arity : ∀ count, head = .tuple count → fields.length = count := fun count tuple =>
    length.trans (has.arity tuple)
  rw [Row.matches_cons, specializeRow]
  cases wild : p.isWild with
  | true =>
    cases p with
    | wild capture =>
      rw [← length]
      simp [Pat.matches_wild, Row.matches_anys_append]
    | bool _ | int _ _ | str _ | tuple _ | ctor _ _ _ _ | oneOf _ => simp [Pat.isWild] at wild
  | false =>
    obtain ⟨own, found⟩ := Pat.head?_of_not_wild wild notOneOf
    by_cases same : own = head
    · subst same
      have fieldsLength : p.fields.length = fields.length := by
        rw [length, ← Family.length_fieldTypes, (typed.hasHead found).2.length_eq]
      simp [found, Row.matches_build found fieldsLength, Row.matches_append fieldsLength]
    · simp [found, same, Pat.Matches, Pat.match?_build_of_ne found same arity]

/-- A pattern for values of a type, with integers among known ones. -/
def Fits (subst : Subst) (registry : Registry) (known : List Int) (p : Pat) (ty : Ty) : Prop :=
  p.HasType subst registry ty ∧ p.Names known

variable {known : List Int}

theorem fits_any (ty : Ty) : Fits subst registry known .any ty :=
  ⟨.wild none ty, nofun⟩

theorem fits_anys (types : List Ty) :
    List.Forall₂ (Fits subst registry known) (Pat.anys types.length) types := by
  induction types with
  | nil => exact .nil
  | cons ty types ih => exact .cons (fits_any ty) ih

theorem fits_expand
    (fits : ∀ row ∈ rows, List.Forall₂ (Fits subst registry known) row (ty :: types))
    (member : row ∈ expand rows) : ∃ p ps, row = p :: ps ∧ p.isOneOf = false ∧
      Fits subst registry known p ty ∧ List.Forall₂ (Fits subst registry known) ps types := by
  obtain ⟨fitsRow, notOneOf⟩ := @forall_expand rows row
    (List.Forall₂ (Fits subst registry known) · (ty :: types)) (fun alternative fits => by
      cases fits with
      | cons first rest =>
        exact .cons ⟨first.1.alternatives alternative, first.2.alternatives alternative⟩ rest)
    fits member
  cases fitsRow with
  | cons first rest => exact ⟨_, _, rfl, notOneOf _ _ rfl, first, rest⟩

theorem has_of_mem_heads
    (fits : ∀ row ∈ rows, List.Forall₂ (Fits subst registry known) row (ty :: types))
    (member : head ∈ heads (expand rows)) : (Family.of ty subst registry).Has registry head := by
  obtain ⟨p, ps, inside, own⟩ := mem_heads.mp member
  obtain ⟨_, _, same, -, first, -⟩ := fits_expand fits inside
  obtain ⟨rfl, rfl⟩ := List.cons.inj same
  exact (first.1.hasHead own).1

theorem length_le_known {width : Nat} (family : Family.of ty subst registry = .int width)
    {seen : List Head} (nodup : seen.Nodup)
    (each : ∀ head ∈ seen, ∃ p, Fits subst registry known p ty ∧ p.head? = some head) :
    seen.length ≤ known.length := by
  have inside : seen ⊆ known.map Head.int := fun head member => by
    obtain ⟨p, fits, own⟩ := each head member
    have has := (fits.1.hasHead own).1
    rw [family] at has
    obtain ⟨value, -, rfl⟩ := has
    cases p with
    | int width' value' =>
      obtain rfl := Head.int.inj (Option.some.inj own)
      exact List.mem_map_of_mem (fits.2 width' value' rfl)
    | wild _ | bool _ | str _ | tuple _ | ctor _ _ _ _ | oneOf _ => simp [Pat.head?] at own
  have := (nodup.subperm inside).length_le
  rwa [List.length_map] at this

theorem length_heads_le {width : Nat} (family : Family.of ty subst registry = .int width)
    (fits : ∀ row ∈ rows, List.Forall₂ (Fits subst registry known) row (ty :: types)) :
    (heads (expand rows)).length ≤ known.length := by
  refine length_le_known family (Family.nodup_eraseDups _) fun head member => ?_
  obtain ⟨p, ps, inside, own⟩ := mem_heads.mp member
  obtain ⟨_, _, same, -, first, -⟩ := fits_expand fits inside
  obtain ⟨rfl, rfl⟩ := List.cons.inj same
  exact ⟨p, first, own⟩

theorem fits_specialize
    (fits : ∀ row ∈ rows, List.Forall₂ (Fits subst registry known) row (ty :: types))
    (member : row ∈ specialize (expand rows) head
      ((Family.of ty subst registry).arity registry head)) :
    List.Forall₂ (Fits subst registry known) row
      ((Family.of ty subst registry).fieldTypes registry head ++ types) := by
  obtain ⟨source, inside, found⟩ := List.mem_filterMap.mp member
  obtain ⟨p, ps, rfl, notOneOf, first, rest⟩ := fits_expand fits inside
  simp only [specializeRow] at found
  split at found
  · obtain rfl := Option.some.inj found
    rw [← Family.length_fieldTypes]
    exact List.rel_append (fits_anys _) rest
  · split at found
    · rename_i own
      obtain rfl := Option.some.inj found
      refine List.rel_append (List.forall₂_iff_zip.mpr ?_) rest
      have each := List.forall₂_iff_zip.mp (first.1.hasHead own).2
      exact ⟨each.1, fun inZip => ⟨each.2 inZip, first.2.fields (List.of_mem_zip inZip).1⟩⟩
    · simp at found

theorem fits_defaults
    (fits : ∀ row ∈ rows, List.Forall₂ (Fits subst registry known) row (ty :: types))
    (member : row ∈ defaults (expand rows)) :
    List.Forall₂ (Fits subst registry known) row types := by
  obtain ⟨source, inside, found⟩ := List.mem_filterMap.mp member
  obtain ⟨p, ps, rfl, notOneOf, first, rest⟩ := fits_expand fits inside
  simp only [defaultRow] at found
  split at found
  · obtain rfl := Option.some.inj found
    exact rest
  · simp at found

theorem matches_specialize
    (fits : ∀ row ∈ rows, List.Forall₂ (Fits subst registry known) row (ty :: types))
    (has : (Family.of ty subst registry).Has registry head)
    (length : fields.length = (Family.of ty subst registry).arity registry head) :
    (∃ row ∈ specialize (expand rows) head ((Family.of ty subst registry).arity registry head),
      row.Matches (fields ++ rest)) ↔ ∃ row ∈ rows, row.Matches (.build head fields :: rest) := by
  rw [← @matches_expand rows (.build head fields :: rest)]
  simp only [specialize, List.mem_filterMap]
  constructor
  · rintro ⟨result, ⟨row, member, found⟩, matched⟩
    obtain ⟨p, ps, rfl, notOneOf, first, -⟩ := fits_expand fits member
    exact ⟨_, member, (matches_specializeRow notOneOf has first.1 length).mpr ⟨result,
        found, matched⟩⟩
  · rintro ⟨row, member, matched⟩
    obtain ⟨p, ps, rfl, notOneOf, first, -⟩ := fits_expand fits member
    obtain ⟨result, found, matched⟩ :=
      (matches_specializeRow notOneOf has first.1 length).mp matched
    exact ⟨result, ⟨_, member, found⟩, matched⟩

theorem matches_of_defaults (found : ∃ row ∈ defaults (expand rows), row.Matches values)
    (value : Value) : ∃ row ∈ rows, row.Matches (value :: values) := by
  rw [← matches_expand]
  obtain ⟨result, member, matched⟩ := found
  obtain ⟨row, inside, found⟩ := List.mem_filterMap.mp member
  refine ⟨row, inside, ?_⟩
  cases row with
  | nil => simp [defaultRow] at found
  | cons p ps =>
    cases p with
    | wild capture =>
      simp only [defaultRow, Pat.isWild, if_true, Option.some.injEq] at found
      exact Row.matches_cons.mpr ⟨Pat.matches_wild capture value, found ▸ matched⟩
    | bool _ | int _ _ | str _ | tuple _ | ctor _ _ _ _ | oneOf _ =>
      simp [defaultRow, Pat.isWild] at found

theorem matches_defaults {value : Value}
    (unnamed : ∀ p ps, p :: ps ∈ expand rows → p.Matches value → p.isWild = true)
    (found : ∃ row ∈ rows, row.Matches (value :: values)) :
    ∃ row ∈ defaults (expand rows), row.Matches values := by
  obtain ⟨row, member, matched⟩ := matches_expand.mpr found
  cases row with
  | nil => exact absurd matched.length (by simp)
  | cons p ps =>
    obtain ⟨first, rest⟩ := Row.matches_cons.mp matched
    refine ⟨ps, List.mem_filterMap.mpr ⟨_, member, ?_⟩, rest⟩
    rw [defaultRow, if_pos (unnamed p ps member first)]

end Rows

namespace Problem

/-- A problem about typed patterns over types with values. -/
structure Posed (subst : Subst) (registry : Registry) (known : List Int) (problem : Problem) :
    Prop where
  rows : ∀ row ∈ problem.rows, List.Forall₂ (Fits subst registry known) row problem.types
  query : List.Forall₂ (Pat.HasType subst registry) problem.query problem.types
  proper : ∀ p ∈ problem.query, p.Proper
  populated : ∀ ty ∈ problem.types, Populated subst registry ty

/-- Values that the query matches and none of the rows does. -/
def Missed (subst : Subst) (registry : Registry) (problem : Problem) (values : List Value) : Prop :=
  List.Forall₂ (Value.HasType subst registry) values problem.types ∧
    problem.query.Matches values ∧ ¬ ∃ row ∈ problem.rows, row.Matches values

/-- A typed row for values that are missed, without alternatives where the query makes no test. -/
structure Answers (subst : Subst) (registry : Registry) (problem : Problem) (result : Row) :
    Prop where
  typed : List.Forall₂ (Pat.HasType subst registry) result problem.types
  proper : ∀ p ∈ result, p.Proper
  missed : ∀ {values : List Value},
    List.Forall₂ (Value.HasType subst registry) values problem.types → Row.Matches result values →
      problem.Missed subst registry values
  orFree : (∀ p ∈ problem.query, p.isWild = true) → ∀ p ∈ result, p.OrFree

variable {known : List Int} {rows : List Row} {q : Pat} {query : Row} {ty : Ty} {types : List Ty}
  {head : Head} {result : Row}

section Leaf

theorem firstAlternative_spec : ∀ {p : Pat}, p.HasType subst registry ty → p.Proper →
    (firstAlternative p).HasType subst registry ty ∧ (firstAlternative p).Proper ∧
      ∀ {value : Value}, (firstAlternative p).Matches value → p.Matches value
  | .oneOf [], _, proper => absurd rfl proper.self
  | .oneOf (p :: ps), .oneOf each, proper => by
    have ⟨typed, proper', found⟩ := firstAlternative_spec (each p List.mem_cons_self)
      (proper.choice List.mem_cons_self)
    rw [firstAlternative]
    exact ⟨typed, proper', fun matched =>
      Pat.matches_oneOf.mpr ⟨p, List.mem_cons_self, found matched⟩⟩
  | .wild _, typed, proper => ⟨typed, proper, id⟩
  | .bool _, typed, proper => ⟨typed, proper, id⟩
  | .int _ _, typed, proper => ⟨typed, proper, id⟩
  | .str _, typed, proper => ⟨typed, proper, id⟩
  | .tuple _, typed, proper => ⟨typed, proper, id⟩
  | .ctor _ _ _ _, typed, proper => ⟨typed, proper, id⟩

theorem firstAlternative_row {row : Row}
    (typed : List.Forall₂ (Pat.HasType subst registry) row types) (proper : ∀ p ∈ row, p.Proper) :
    List.Forall₂ (Pat.HasType subst registry) (row.map firstAlternative) types ∧
      (∀ p ∈ row.map firstAlternative, p.Proper) ∧
      ∀ {values : List Value}, Row.Matches (row.map firstAlternative) values →
        row.Matches values := by
  induction typed with
  | nil => exact ⟨.nil, nofun, id⟩
  | @cons p ty ps types first _ ih =>
    obtain ⟨typed, proper₁, found₁⟩ := firstAlternative_spec first (proper p List.mem_cons_self)
    obtain ⟨rest, proper₂, found₂⟩ := ih fun q member => proper q (List.mem_cons_of_mem p member)
    refine ⟨.cons typed rest, fun q member => ?_, fun {values} matched => ?_⟩
    · rcases List.mem_cons.mp member with rfl | member
      · exact proper₁
      · exact proper₂ q member
    · cases values with
      | nil => exact absurd matched.length (by simp)
      | cons value values =>
        obtain ⟨here, there⟩ := Row.matches_cons.mp matched
        exact Row.matches_cons.mpr ⟨found₁ here, found₂ there⟩

theorem Posed.answers_query {problem : Problem} (posed : problem.Posed subst registry known)
    (none : problem.rows = []) :
    problem.Answers subst registry (problem.query.map firstAlternative) := by
  obtain ⟨typed, proper, found⟩ := firstAlternative_row posed.query posed.proper
  refine ⟨typed, proper, fun typedValues matched => ⟨typedValues, found matched, by simp [none]⟩,
    fun wild p member => ?_⟩
  obtain ⟨source, inside, rfl⟩ := List.mem_map.mp member
  cases source with
  | wild capture => rfl
  | bool _ | int _ _ | str _ | tuple _ | ctor _ _ _ _ | oneOf _ =>
    exact absurd (wild _ inside) (by simp [Pat.isWild])

end Leaf

section Alternative

variable {ps : List Pat} {p : Pat}

theorem Posed.alternative
    (posed : Posed subst registry known ⟨rows, .oneOf ps :: query, ty :: types⟩) (member : p ∈ ps) :
    (alternative ⟨rows, .oneOf ps :: query, ty :: types⟩ p).2.Posed subst registry known := by
  obtain ⟨rowsFit, typed, proper, populated⟩ := posed
  refine ⟨fun row inside => ?_, ?_, fun other inside => ?_, populated⟩
  · obtain ⟨first, rest, rfl, -, fits, fitsRest⟩ := fits_expand rowsFit inside
    exact .cons fits fitsRest
  · cases typed with
    | cons first rest =>
      cases first with
      | oneOf each => exact .cons (each p member) rest
  · rcases List.mem_cons.mp inside with rfl | inside
    · exact (proper _ List.mem_cons_self).choice member
    · exact proper other (List.mem_cons_of_mem _ inside)

theorem missed_alternative {values : List Value} :
    Missed subst registry ⟨rows, .oneOf ps :: query, ty :: types⟩ values ↔
      ∃ p ∈ ps, (alternative ⟨rows, .oneOf ps :: query, ty :: types⟩ p).2.Missed
        subst registry values := by
  simp only [Missed, alternative, List.tail_cons, matches_expand]
  cases values with
  | nil => simp
  | cons value values =>
    simp only [Row.matches_cons, Pat.matches_oneOf]
    constructor
    · rintro ⟨typed, ⟨⟨p, member, found⟩, rest⟩, missed⟩
      exact ⟨p, member, typed, ⟨found, rest⟩, missed⟩
    · rintro ⟨p, member, typed, ⟨found, rest⟩, missed⟩
      exact ⟨typed, ⟨⟨p, member, found⟩, rest⟩, missed⟩

theorem Answers.alternative (member : p ∈ ps)
    (answers : (alternative ⟨rows, .oneOf ps :: query, ty :: types⟩ p).2.Answers subst registry
      result) : Answers subst registry ⟨rows, .oneOf ps :: query, ty :: types⟩ result :=
  ⟨answers.typed, answers.proper, fun typed matched =>
    missed_alternative.mpr ⟨p, member, answers.missed typed matched⟩,
    fun wild => absurd (wild _ List.mem_cons_self) (by simp [Pat.isWild])⟩

end Alternative

section Specialized

/-- The patterns by which a query matches the fields under a head. -/
structure Reads (subst : Subst) (registry : Registry) (ty : Ty) (q : Pat) (head : Head)
    (fields : Row) : Prop where
  has : (Family.of ty subst registry).Has registry head
  typed : List.Forall₂ (Pat.HasType subst registry) fields
    ((Family.of ty subst registry).fieldTypes registry head)
  proper : ∀ p ∈ fields, p.Proper
  found : ∀ {values : List Value},
    values.length = (Family.of ty subst registry).arity registry head →
      (q.Matches (.build head values) ↔ fields.Matches values)
  wild : q.isWild = true → ∀ p ∈ fields, p.isWild = true

theorem reads_wild (capture : Option Name) (has : (Family.of ty subst registry).Has registry head) :
    Reads subst registry ty (.wild capture) head
      (Pat.anys ((Family.of ty subst registry).arity registry head)) where
  has := has
  typed := by
    rw [← Family.length_fieldTypes]
    exact (@fits_anys subst registry [] _).imp fun _ _ => And.left
  proper p member := by
    rw [List.eq_of_mem_replicate member]
    exact nofun
  found length := by
    rw [← length]
    exact iff_of_true (Pat.matches_wild capture _) (Row.matches_anys _)
  wild _ p member := by
    rw [List.eq_of_mem_replicate member]
    rfl

theorem reads_head (typed : q.HasType subst registry ty) (proper : q.Proper)
    (own : q.head? = some head) : Reads subst registry ty q head q.fields where
  has := (typed.hasHead own).1
  typed := (typed.hasHead own).2
  proper _ member := proper.fields member
  found length := Row.matches_build own (by
    rw [length, (typed.hasHead own).2.length_eq, Family.length_fieldTypes])
  wild wild := by
    cases q with
    | wild _ => simp [Pat.head?] at own
    | bool _ | int _ _ | str _ | tuple _ | ctor _ _ _ _ | oneOf _ => simp [Pat.isWild] at wild

variable {fields : Row}

theorem Posed.specialized (posed : Posed subst registry known ⟨rows, q :: query, ty :: types⟩)
    (reads : Reads subst registry ty q head fields) :
    (specialized ⟨rows, q :: query, ty :: types⟩ subst registry head fields).2.Posed
      subst registry known := by
  obtain ⟨rowsFit, typed, proper, populated⟩ := posed
  refine ⟨fun row inside => fits_specialize rowsFit inside, ?_, fun p inside => ?_,
    fun part inside => ?_⟩
  · cases typed with
    | cons _ rest => exact List.rel_append reads.typed rest
  · rcases List.mem_append.mp inside with inside | inside
    · exact reads.proper p inside
    · exact proper p (List.mem_cons_of_mem _ inside)
  · rcases List.mem_append.mp inside with inside | inside
    · exact (populated ty List.mem_cons_self).field reads.has inside
    · exact populated part (List.mem_cons_of_mem _ inside)

/-- Under a head, the fields are missed exactly when the value is. -/
theorem missed_specialized
    (rowsFit : ∀ row ∈ rows, List.Forall₂ (Fits subst registry known) row (ty :: types))
    (reads : Reads subst registry ty q head fields) {values rest : List Value}
    (typed : List.Forall₂ (Value.HasType subst registry) values
      ((Family.of ty subst registry).fieldTypes registry head)) :
    (specialized ⟨rows, q :: query, ty :: types⟩ subst registry head fields).2.Missed
        subst registry (values ++ rest) ↔
      Missed subst registry ⟨rows, q :: query, ty :: types⟩ (.build head values :: rest) := by
  have length := typed.length_eq.trans (Family.length_fieldTypes registry head _)
  have sameLength : List.length fields = values.length :=
    reads.typed.length_eq.trans typed.length_eq.symm
  simp only [Missed, Problem.specialized, Problem.family, List.headD_cons, List.tail_cons,
    Row.matches_append sameLength, matches_specialize rowsFit reads.has length, Row.matches_cons,
    reads.found length]
  refine and_congr_left fun _ => ⟨fun both => ?_, fun both => ?_⟩
  · have tail := List.forall₂_drop_append _ _ _ both
    rw [← typed.length_eq, List.drop_left] at tail
    exact .cons (Value.hasType_build reads.has typed) tail
  · cases both with
    | cons _ tail => exact List.rel_append typed tail

theorem Answers.specialized
    (rowsFit : ∀ row ∈ rows, List.Forall₂ (Fits subst registry known) row (ty :: types))
    (reads : Reads subst registry ty q head fields)
    (answers : (specialized ⟨rows, q :: query, ty :: types⟩ subst registry head fields).2.Answers
      subst registry result) :
    Answers subst registry ⟨rows, q :: query, ty :: types⟩
      ((specialized ⟨rows, q :: query, ty :: types⟩ subst registry head fields).1.apply
        result) := by
  obtain ⟨typed, proper, missed, orFree⟩ := answers
  have typedFields := List.forall₂_take_append _ _ _ typed
  have typedRest := List.forall₂_drop_append _ _ _ typed
  have arity := Family.length_fieldTypes registry head (Family.of ty subst registry)
  simp only [Problem.family, List.headD_cons, List.tail_cons] at typedFields typedRest
  rw [arity] at typedFields typedRest
  obtain ⟨own, inside⟩ := Pat.withFields_pattern reads.has (typedFields.length_eq.trans arity)
  have typedHead := Pat.hasType_pattern reads.has typedFields
  simp only [Problem.specialized, Problem.family, List.headD_cons, Rebuild.apply, wrap]
  have every : ∀ {holds : Pat → Prop}, (∀ p ∈ result, p.Every holds) →
      (∀ p : Pat, p.head? = some head → holds p) →
      ∀ p ∈ ((Family.of ty subst registry).pattern registry head).withFields
        (result.take ((Family.of ty subst registry).arity registry head)) ::
          result.drop ((Family.of ty subst registry).arity registry head), p.Every holds := by
    intro holds each here p member
    rcases List.mem_cons.mp member with rfl | member
    · refine Pat.every_of_fields own (here _ own) fun other other' => ?_
      rw [inside] at other'
      exact each other (List.mem_of_mem_take other')
    · exact each p (List.mem_of_mem_drop member)
  refine ⟨.cons typedHead typedRest, every proper fun p own same => ?_,
    fun {values} typedValues matched => ?_, fun wild => every (orFree fun p member => ?_) ?_⟩
  · simp [same, Pat.head?] at own
  · cases typedValues with
    | @cons value _ rest _ first others =>
      obtain ⟨here, there⟩ := Row.matches_cons.mp matched
      obtain ⟨parts, rfl, found, typedParts⟩ := typedHead.build_of_matches own first here
      rw [inside] at found
      have both := (Row.matches_append (found.length)).mpr ⟨found, there⟩
      rw [List.take_append_drop] at both
      exact (missed_specialized rowsFit reads typedParts).mp
        (missed (List.rel_append typedParts others) both)
  · rcases List.mem_append.mp member with member | member
    · exact reads.wild (wild q List.mem_cons_self) p member
    · exact wild p (List.mem_cons_of_mem _ member)
  · intro p own
    cases p with
    | oneOf _ => simp [Pat.head?] at own
    | wild _ | bool _ | int _ _ | str _ | tuple _ | ctor _ _ _ _ => rfl

end Specialized

section Defaulted

theorem withFields_anys (family : Family) (head : Head) :
    (family.pattern registry head).withFields (Pat.anys (family.arity registry head)) =
      family.pattern registry head := by
  cases family with
  | enum template args =>
    cases head with
    | variant index =>
      simp only [Family.pattern]
      cases registry.case? template index <;> rfl
    | bool _ | int _ | str _ | tuple _ => rfl
  | bool | tuple _ | int _ | str | unknown => cases head <;> rfl

def missingPattern (subst : Subst) (registry : Registry) (ty : Ty) (rows : List Row) : Pat :=
  ((Family.of ty subst registry).missing? registry (heads (expand rows))).elim .any
    ((Family.of ty subst registry).pattern registry)

theorem spannedBy_of_isOpen {family : Family} {seen : List Head}
    (uncovered : (family.isOpen || !family.spannedBy registry seen) = true) :
    family.spannedBy registry seen = false := by
  rcases Bool.or_eq_true_iff.mp uncovered with isOpen | unspanned
  · cases family with
    | str | unknown => rfl
    | bool | tuple _ | enum _ _ | int _ => simp [Family.isOpen] at isOpen
  · simpa using unspanned

/-- Only rows without a test match what the missing pattern matches. -/
theorem missingPattern_spec (populated : Populated subst registry ty)
    (rowsFit : ∀ row ∈ rows, List.Forall₂ (Fits subst registry known) row (ty :: types))
    (few : known.length < 2 ^ maxIntWidth)
    (unspanned : (Family.of ty subst registry).spannedBy registry (heads (expand rows)) = false) :
    (missingPattern subst registry ty rows).HasType subst registry ty ∧
      (missingPattern subst registry ty rows).Proper ∧
      (missingPattern subst registry ty rows).OrFree ∧
      ∀ {value : Value}, value.HasType subst registry ty →
        (missingPattern subst registry ty rows).Matches value →
        ∀ p ps, p :: ps ∈ expand rows → p.Matches value → p.isWild = true := by
  obtain ⟨sample, typedSample⟩ := populated ty .self
  rcases typedSample.hasHead with unknown | ⟨sampleHead, _, -, has, -⟩
  · have any : missingPattern subst registry ty rows = .any := by
      simp [missingPattern, unknown, Family.missing?]
    rw [any]
    refine ⟨.wild none ty, nofun, rfl, fun {value} _ _ p ps member _ => ?_⟩
    obtain ⟨_, _, same, notOneOf, fits, -⟩ := fits_expand rowsFit member
    obtain ⟨rfl, rfl⟩ := List.cons.inj same
    by_contra notWild
    obtain ⟨head, own⟩ := Pat.head?_of_not_wild (Bool.eq_false_iff.mpr notWild) notOneOf
    have has := (fits.1.hasHead own).1
    rw [unknown] at has
    exact has
  · obtain ⟨head, missing, has, fresh⟩ := Family.missing?_eq_some ⟨sampleHead, has⟩
      (fun width family => Nat.lt_of_le_of_lt (length_heads_le family rowsFit) few) unspanned
    have arity := Family.length_fieldTypes registry head (Family.of ty subst registry)
    have typedFields : List.Forall₂ (Pat.HasType subst registry)
        (Pat.anys ((Family.of ty subst registry).arity registry head))
        ((Family.of ty subst registry).fieldTypes registry head) := by
      rw [← arity]
      exact (@fits_anys subst registry [] _).imp fun _ _ => And.left
    have named : missingPattern subst registry ty rows =
        (Family.of ty subst registry).pattern registry head := by
      simp [missingPattern, missing]
    have typed := Pat.hasType_pattern has typedFields
    obtain ⟨own, inside⟩ := Pat.withFields_pattern has (typedFields.length_eq.trans arity)
    rw [withFields_anys] at typed own inside
    rw [named]
    refine ⟨typed, Pat.every_of_fields own ?_ ?_, Pat.every_of_fields own ?_ ?_,
      fun {value} typedValue matched p ps member found => ?_⟩
    · intro same
      simp [same, Pat.head?] at own
    · intro p member
      rw [inside] at member
      rw [List.eq_of_mem_replicate member]
      exact nofun
    · generalize (Family.of ty subst registry).pattern registry head = p at own
      cases p with
      | oneOf _ => simp [Pat.head?] at own
      | wild _ | bool _ | int _ _ | str _ | tuple _ | ctor _ _ _ _ => rfl
    · intro p member
      rw [inside] at member
      rw [List.eq_of_mem_replicate member]
      rfl
    · obtain ⟨_, _, same, notOneOf, fits, -⟩ := fits_expand rowsFit member
      obtain ⟨rfl, rfl⟩ := List.cons.inj same
      by_contra notWild
      obtain ⟨head', own'⟩ := Pat.head?_of_not_wild (Bool.eq_false_iff.mpr notWild) notOneOf
      obtain ⟨parts, rfl, -, typedParts⟩ := typed.build_of_matches own typedValue matched
      have different : head' ≠ head := fun same =>
        fresh (mem_heads.mpr ⟨p, ps, member, same ▸ own'⟩)
      have none := Pat.match?_build_of_ne own' different fun count tuple => by
        rw [typedParts.length_eq, arity, has.arity tuple]
      simp [Pat.Matches, none] at found

variable {capture : Option Name}

theorem Posed.defaulted
    (posed : Posed subst registry known ⟨rows, .wild capture :: query, ty :: types⟩) :
    (defaulted ⟨rows, .wild capture :: query, ty :: types⟩ subst registry).2.Posed
      subst registry known := by
  obtain ⟨rowsFit, typed, proper, populated⟩ := posed
  refine ⟨fun row inside => fits_defaults rowsFit inside, ?_,
    fun p inside => proper p (List.mem_cons_of_mem _ inside),
    fun part inside => populated part (List.mem_cons_of_mem _ inside)⟩
  cases typed with
  | cons _ rest => exact rest

theorem Missed.defaulted {value : Value} {values : List Value}
    (missed : Missed subst registry ⟨rows, .wild capture :: query, ty :: types⟩ (value :: values)) :
    (defaulted ⟨rows, .wild capture :: query, ty :: types⟩ subst registry).2.Missed
      subst registry values := by
  obtain ⟨typed, found, none⟩ := missed
  refine ⟨?_, (Row.matches_cons.mp found).2,
    fun covered => none (matches_of_defaults covered value)⟩
  cases typed with
  | cons _ rest => exact rest

theorem Answers.defaulted
    (posed : Posed subst registry known ⟨rows, .wild capture :: query, ty :: types⟩)
    (few : known.length < 2 ^ maxIntWidth)
    (unspanned : (Family.of ty subst registry).spannedBy registry (heads (expand rows)) = false)
    (answers : (defaulted ⟨rows, .wild capture :: query, ty :: types⟩ subst registry).2.Answers
      subst registry result) :
    Answers subst registry ⟨rows, .wild capture :: query, ty :: types⟩
      ((defaulted ⟨rows, .wild capture :: query, ty :: types⟩ subst registry).1.apply result) := by
  obtain ⟨typedMissing, properMissing, orFreeMissing, unnamed⟩ :=
    missingPattern_spec (posed.populated ty List.mem_cons_self) posed.rows few unspanned
  obtain ⟨typed, proper, missed, orFree⟩ := answers
  refine ⟨.cons typedMissing typed, fun p member => ?_, fun {values} typedValues matched => ?_,
    fun wild p member => ?_⟩
  · rcases List.mem_cons.mp member with rfl | member
    · exact properMissing
    · exact proper p member
  · cases typedValues with
    | @cons value _ rest _ first others =>
      obtain ⟨here, there⟩ := Row.matches_cons.mp matched
      obtain ⟨-, found, none⟩ := missed others there
      exact ⟨.cons first others, Row.matches_cons.mpr ⟨Pat.matches_wild capture value, found⟩,
        fun covered => none (matches_defaults (unnamed first here) covered)⟩
  · rcases List.mem_cons.mp member with rfl | member
    · exact orFreeMissing
    · exact orFree (fun q inside => wild q (List.mem_cons_of_mem _ inside)) p member

end Defaulted

section Exact

/-- The parts of a problem are problems of the kind of the whole; an answer to a part becomes one to
the whole, and what the whole misses shows in a part. -/
structure Splits (subst : Subst) (registry : Registry) (known : List Int) (problem : Problem)
    (parts : List (Rebuild × Problem)) : Prop where
  sound : ∀ {rebuild part}, (rebuild, part) ∈ parts → part.Posed subst registry known ∧
    ∀ {result}, part.Answers subst registry result →
      problem.Answers subst registry (rebuild.apply result)
  complete : ∀ {values}, problem.Missed subst registry values →
    ∃ entry ∈ parts, ∃ values', entry.2.Missed subst registry values'

theorem splits_alternatives {ps : List Pat}
    (posed : Posed subst registry known ⟨rows, .oneOf ps :: query, ty :: types⟩) :
    Splits subst registry known ⟨rows, .oneOf ps :: query, ty :: types⟩
      (ps.map (alternative ⟨rows, .oneOf ps :: query, ty :: types⟩)) where
  sound member := by
    obtain ⟨p, inside, same⟩ := List.mem_map.mp member
    obtain ⟨rfl, rfl⟩ := Prod.mk.inj same
    exact ⟨posed.alternative inside, fun answers => answers.alternative inside⟩
  complete missed := by
    obtain ⟨p, inside, missed⟩ := missed_alternative.mp missed
    exact ⟨_, List.mem_map_of_mem inside, _, missed⟩

theorem splits_concrete (posed : Posed subst registry known ⟨rows, q :: query, ty :: types⟩)
    (own : q.head? = some head) :
    Splits subst registry known ⟨rows, q :: query, ty :: types⟩
      [specialized ⟨rows, q :: query, ty :: types⟩ subst registry head q.fields] := by
  have typed : q.HasType subst registry ty := by
    cases posed.query with
    | cons first _ => exact first
  have reads := reads_head typed (posed.proper q List.mem_cons_self) own
  refine ⟨fun member => ?_, fun {values} missed => ⟨_, List.mem_singleton_self _, ?_⟩⟩
  · obtain ⟨rfl, rfl⟩ := Prod.mk.inj (List.mem_singleton.mp member)
    exact ⟨posed.specialized reads, fun answers => answers.specialized posed.rows reads⟩
  · cases missed.1 with
    | @cons value _ rest _ first others =>
      obtain ⟨here, -⟩ := Row.matches_cons.mp missed.2.1
      obtain ⟨parts, rfl, -, typedParts⟩ := typed.build_of_matches own first here
      exact ⟨_, (missed_specialized posed.rows reads typedParts).mpr missed⟩

variable {capture : Option Name}

theorem splits_defaulted
    (posed : Posed subst registry known ⟨rows, .wild capture :: query, ty :: types⟩)
    (few : known.length < 2 ^ maxIntWidth)
    (unspanned : (Family.of ty subst registry).spannedBy registry (heads (expand rows)) = false) :
    Splits subst registry known ⟨rows, .wild capture :: query, ty :: types⟩
      [defaulted ⟨rows, .wild capture :: query, ty :: types⟩ subst registry] := by
  refine ⟨fun member => ?_, fun {values} missed => ⟨_, List.mem_singleton_self _, ?_⟩⟩
  · obtain ⟨rfl, rfl⟩ := Prod.mk.inj (List.mem_singleton.mp member)
    exact ⟨posed.defaulted, fun answers => answers.defaulted posed few unspanned⟩
  · cases missed.1 with
    | cons _ _ => exact ⟨_, missed.defaulted⟩

theorem splits_heads
    (posed : Posed subst registry known ⟨rows, .wild capture :: query, ty :: types⟩)
    (closed : (Family.of ty subst registry).isOpen = false)
    (spanned : (Family.of ty subst registry).spannedBy registry (heads (expand rows)) = true) :
    Splits subst registry known ⟨rows, .wild capture :: query, ty :: types⟩
      ((heads (expand rows)).map fun head =>
        specialized ⟨rows, .wild capture :: query, ty :: types⟩ subst registry head
          (Pat.anys ((Family.of ty subst registry).arity registry head))) := by
  refine ⟨fun member => ?_, fun {values} missed => ?_⟩
  · obtain ⟨head, inside, same⟩ := List.mem_map.mp member
    obtain ⟨rfl, rfl⟩ := Prod.mk.inj same
    have reads := reads_wild capture (has_of_mem_heads posed.rows inside)
    exact ⟨posed.specialized reads, fun answers => answers.specialized posed.rows reads⟩
  · cases missed.1 with
    | @cons value _ rest _ first others =>
      rcases first.hasHead with unknown | ⟨head, parts, rfl, has, typedParts⟩
      · simp [unknown, Family.isOpen] at closed
      · have inside := Family.mem_of_spannedBy (Family.nodup_eraseDups _)
          (fun other member => has_of_mem_heads posed.rows member) spanned has
        exact ⟨_, List.mem_map_of_mem inside, _,
          (missed_specialized posed.rows (reads_wild capture has) typedParts).mpr missed⟩

theorem Posed.splits {problem : Problem} (posed : problem.Posed subst registry known)
    (few : known.length < 2 ^ maxIntWidth) (some : problem.rows ≠ []) :
    problem.Splits subst registry known (problem.parts subst registry) := by
  obtain ⟨rows, query, types⟩ := problem
  cases posed.query with
  | nil =>
    refine ⟨nofun, fun {values} missed => absurd ?_ missed.2.2⟩
    obtain ⟨row, rest, rfl⟩ := List.exists_cons_of_ne_nil some
    cases missed.1
    cases posed.rows row List.mem_cons_self
    exact ⟨[], List.mem_cons_self, rfl⟩
  | @cons q ty query types first rest =>
    have concrete : ∀ {head}, q.head? = Option.some head → _ := splits_concrete posed
    cases q with
    | oneOf ps => exact splits_alternatives posed
    | wild capture =>
      simp only [parts]
      split
      · rename_i uncovered
        exact splits_defaulted posed few (spannedBy_of_isOpen uncovered)
      · rename_i covered
        simp only [Bool.or_eq_true, Bool.not_eq_true', not_or, Bool.not_eq_true,
          Bool.not_eq_false] at covered
        exact splits_heads posed covered.1 covered.2
    | bool _ | int _ _ | str _ | tuple _ | ctor _ _ _ _ => exact concrete rfl

theorem Posed.uncovered?_exact {problem : Problem} (posed : problem.Posed subst registry known)
    (few : known.length < 2 ^ maxIntWidth) :
    match problem.uncovered? subst registry with
    | some result => problem.Answers subst registry result
    | none => ∀ values, ¬ problem.Missed subst registry values := by
  induction problem using Problem.uncovered?.induct subst registry with
  | case1 problem empty =>
    rw [uncovered?, if_pos empty]
    exact posed.answers_query (by simpa using empty)
  | case2 problem nonempty ih =>
    have splits := posed.splits few (by simpa using nonempty)
    cases found : problem.uncovered? subst registry with
    | some result =>
      rw [uncovered?, if_neg nonempty] at found
      obtain ⟨⟨⟨rebuild, part⟩, member⟩, -, found⟩ := List.exists_of_findSome?_eq_some found
      obtain ⟨result, foundPart, rfl⟩ := Option.map_eq_some_iff.mp found
      obtain ⟨posedPart, whole⟩ := splits.sound member
      have answers := ih rebuild part member posedPart
      rw [foundPart] at answers
      exact whole answers
    | none =>
      intro values missed
      rw [uncovered?, if_neg nonempty, List.findSome?_eq_none_iff] at found
      obtain ⟨⟨rebuild, part⟩, member, values', missedPart⟩ := splits.complete missed
      have nothing := found ⟨_, member⟩ (List.mem_attach _ _)
      have covered := ih rebuild part member (splits.sound member).1
      rw [Option.map_eq_none_iff.mp nothing] at covered
      exact covered values' missedPart

end Exact

end Problem

section Single

variable {pats : List Pat} {pat : Pat} {ty : Ty}

def single (pats : List Pat) (pat : Pat) (ty : Ty) : Problem :=
  ⟨pats.map ([·]), [pat], [ty]⟩

theorem posed_single (populated : Populated subst registry ty)
    (typed : ∀ p ∈ pats, p.HasType subst registry ty) (typedPat : pat.HasType subst registry ty)
    (proper : pat.Proper) :
    (single pats pat ty).Posed subst registry (pats.flatMap Pat.ints) where
  rows row member := by
    obtain ⟨p, inside, rfl⟩ := List.mem_map.mp member
    have names := Pat.names_of_ints fun value member =>
      List.mem_flatMap.mpr ⟨p, inside, member⟩
    exact .cons ⟨typed p inside, names⟩ .nil
  query := .cons typedPat .nil
  proper p member := List.mem_singleton.mp member ▸ proper
  populated other member := List.mem_singleton.mp member ▸ populated

theorem missed_single {value : Value} :
    (single pats pat ty).Missed subst registry [value] ↔
      value.HasType subst registry ty ∧ pat.Matches value ∧ ∀ p ∈ pats, ¬ p.Matches value := by
  have alone : ∀ p : Pat, Row.Matches [p] [value] ↔ p.Matches value := fun p =>
    Row.matches_cons.trans (and_iff_left rfl)
  simp [Problem.Missed, single, alone]

theorem uncovered?_single (populated : Populated subst registry ty)
    (typed : ∀ p ∈ pats, p.HasType subst registry ty) (typedPat : pat.HasType subst registry ty)
    (proper : pat.Proper) (few : (pats.flatMap Pat.ints).length < 2 ^ maxIntWidth) :
    match (single pats pat ty).uncovered? subst registry with
    | some result => ∃ p, result = [p] ∧ (single pats pat ty).Answers subst registry [p] ∧
        ∃ value, (single pats pat ty).Missed subst registry [value]
    | none => ∀ value, ¬ (single pats pat ty).Missed subst registry [value] := by
  have exact := (posed_single populated typed typedPat proper).uncovered?_exact few
  cases found : (single pats pat ty).uncovered? subst registry with
  | none =>
    rw [found] at exact
    exact fun value => exact [value]
  | some result =>
    rw [found] at exact
    obtain ⟨values, typedValues, matched⟩ := exists_matchAll exact.typed exact.proper
      fun other member => List.mem_singleton.mp member ▸ populated
    have missed := exact.missed typedValues matched
    cases typedValues with
    | cons _ others =>
      cases others
      cases exact.typed with
      | cons _ others =>
        cases others
        exact ⟨_, rfl, exact, _, missed⟩

end Single

/-- A case is useful exactly when some value reaches it; nothing is reported missing exactly when
every value is taken; and what is reported missing is a pattern, without alternatives, of which no
value is taken. The only bound is one that lists in memory keep: they name fewer integers than there
are of the greatest width. -/
theorem coverage_exact {pats : List Pat} {pat : Pat} {ty : Ty}
    (populated : Populated subst registry ty) (typed : ∀ p ∈ pats, p.HasType subst registry ty)
    (typedPat : pat.HasType subst registry ty) (proper : ∀ p ∈ pat :: pats, p.Proper)
    (few : (pats.flatMap Pat.ints).length < 2 ^ maxIntWidth) :
    (useful subst registry pats pat ty = true ↔ ∃ value : Value, value.HasType subst registry ty ∧
        pat.Matches value ∧ ∀ p ∈ pats, ¬ p.Matches value) ∧
      (witness? subst registry pats ty = none ↔ ∀ value : Value, value.HasType subst registry ty →
        ∃ p ∈ pats, p.Matches value) ∧
      ∀ missing, witness? subst registry pats ty = some missing →
        missing.OrFree ∧ missing.HasType subst registry ty ∧
          ∀ value : Value, value.HasType subst registry ty → missing.Matches value →
            ∀ p ∈ pats, ¬ p.Matches value := by
  have reached := uncovered?_single populated typed typedPat (proper pat List.mem_cons_self) few
  have taken :=
    @uncovered?_single subst registry pats .any ty populated typed (.wild none ty) nofun few
  refine ⟨?_, ?_, ?_⟩
  · simp only [← missed_single]
    change (Option.isSome ((single pats pat ty).uncovered? subst registry)) = true ↔ _
    cases found : (single pats pat ty).uncovered? subst registry with
    | none =>
      rw [found] at reached
      exact iff_of_false (by simp) fun ⟨value, missed⟩ => reached value missed
    | some result =>
      rw [found] at reached
      obtain ⟨_, -, -, value, missed⟩ := reached
      exact iff_of_true rfl ⟨value, missed⟩
  · change ((single pats .any ty).uncovered? subst registry).bind List.getLast? = none ↔ _
    cases found : (single pats .any ty).uncovered? subst registry with
    | none =>
      rw [found] at taken
      refine iff_of_true rfl fun value typedValue => ?_
      by_contra missed
      refine taken value (missed_single.mpr ⟨typedValue, Pat.matches_wild none value, ?_⟩)
      exact fun p member matched => missed ⟨p, member, matched⟩
    | some result =>
      rw [found] at taken
      obtain ⟨p, rfl, -, value, missed⟩ := taken
      obtain ⟨typedValue, -, none⟩ := missed_single.mp missed
      refine iff_of_false (by simp) fun all => ?_
      obtain ⟨q, member, matched⟩ := all value typedValue
      exact none q member matched
  · intro missing
    change ((single pats .any ty).uncovered? subst registry).bind List.getLast? = some missing → _
    cases found : (single pats .any ty).uncovered? subst registry with
    | none => nofun
    | some result =>
      rw [found] at taken
      obtain ⟨p, rfl, answers, -⟩ := taken
      rintro same
      obtain rfl : p = missing := by simpa using same
      have orFree := answers.orFree (fun q member => by
        rw [List.mem_singleton.mp member]
        rfl) p List.mem_cons_self
      have typedMissing : p.HasType subst registry ty := by
        cases answers.typed with
        | cons first _ => exact first
      refine ⟨orFree, typedMissing, fun value typedValue matched => ?_⟩
      have missed := answers.missed (.cons typedValue .nil)
        (Row.matches_cons.mpr ⟨matched, rfl⟩)
      exact (missed_single.mp missed).2.2

section Booleans

theorem family_bool : Family.of Registry.boolTy .empty .initial = .bool := rfl

theorem family_pair :
    Family.of (.tuple [Registry.boolTy, Registry.boolTy]) .empty .initial =
      .tuple [Registry.boolTy, Registry.boolTy] := rfl

theorem component_pair {part : Ty}
    (component : Component .empty .initial (.tuple [Registry.boolTy, Registry.boolTy]) part) :
    part = .tuple [Registry.boolTy, Registry.boolTy] ∨ part = Registry.boolTy := by
  induction component with
  | self => exact .inl rfl
  | field _ _ member ih =>
    rcases ih with rfl | rfl
    · rw [family_pair] at member
      exact .inr (by simpa [Family.fieldTypes] using member)
    · rw [family_bool] at member
      simp [Family.fieldTypes] at member

theorem populated_pair :
    Populated .empty .initial (.tuple [Registry.boolTy, Registry.boolTy]) := by
  have bool : Value.HasType .empty .initial (.bool true) Registry.boolTy := .bool family_bool true
  intro part component
  rcases component_pair component with rfl | rfl
  · exact ⟨_, .tuple family_pair (.cons bool (.cons bool .nil))⟩
  · exact ⟨_, bool⟩

/-- Of the pairs of booleans, the cases `(true, _)` and `(_, true | true)` leave
`(false, false)`. -/
theorem useful_pair :
    useful .empty .initial
      [.tuple [.bool true, .any], .tuple [.any, .oneOf [.bool true, .bool true]]]
      (.tuple [.any, .bool false]) (.tuple [Registry.boolTy, Registry.boolTy]) = true := by
  have bool : ∀ value, Pat.HasType .empty .initial (.bool value) Registry.boolTy := fun value =>
    .bool family_bool value
  have any : Pat.HasType .empty .initial .any Registry.boolTy := .wild none _
  refine (coverage_exact populated_pair ?_ ?_ ?_ ?_).1.mpr ⟨.tuple [.bool false, .bool false],
    ?_, ?_, ?_⟩
  · intro p member
    simp only [List.mem_cons, List.not_mem_nil, or_false] at member
    rcases member with rfl | rfl
    · exact .tuple family_pair (.cons (bool true) (.cons any .nil))
    · refine .tuple family_pair (.cons any (.cons (.oneOf fun q inside => ?_) .nil))
      simp only [List.mem_cons, List.not_mem_nil, or_false, or_self] at inside
      exact inside ▸ bool true
  · exact .tuple family_pair (.cons any (.cons (bool false) .nil))
  · simp [Pat.Proper, Pat.Every, Pat.EveryAll, Pat.any]
  · simp [Pat.ints, Pat.intsAll, Pat.any, maxIntWidth]
  · exact .tuple family_pair
      (.cons (.bool family_bool false) (.cons (.bool family_bool false) .nil))
  · simp [Pat.Matches, Pat.match?, Pat.matchAll?, Pat.any]
  · simp [Pat.Matches, Pat.match?, Pat.matchAll?, Pat.matchFirst?, Pat.any]

end Booleans

end PolyCheck.Coverage
