import PolyCheck.Proofs.Pat.Coverage
import PolyCheck.Proofs.Term.Selection

/-! The leaves of decision trees. A tree is looked at with its actions left open, as numbers. What
can be reached in it is what can happen: a leaf with an action for every action that some values
lead to, and a failure when some values are matched by no line. Values have the types of the time
when coverage is looked at; the tree is built later, when more may be known of these types. Both
times see the same heads, since a head in a column is that of a pattern, which is typed at both. -/
namespace PolyCheck.Decision

/-- A decision tree over numbered actions. -/
inductive Tree where
  | failure
  | action (index : Nat)
  | switch (source : Term) (cases : List (Pat × Tree))

namespace Tree

mutual

def fill (actions : Nat → Term) (ty : Ty) : Tree → Term
  | failure => .failure ty
  | action index => actions index
  | switch source cases => .matchOn source (fillCases actions ty cases) ty

def fillCases (actions : Nat → Term) (ty : Ty) : List (Pat × Tree) → List Arm
  | [] => []
  | (pat, tree) :: cases => ⟨pat, fill actions ty tree⟩ :: fillCases actions ty cases

end

/-- The leaves of a tree: failures, and actions by their numbers. -/
inductive Leaf : Tree → Option Nat → Prop where
  | failure : Leaf .failure none
  | action (index : Nat) : Leaf (.action index) (some index)
  | switch {source : Term} {cases : List (Pat × Tree)} {pat : Pat} {tree : Tree} {leaf : Option Nat}
    (member : (pat, tree) ∈ cases) (below : Leaf tree leaf) : Leaf (.switch source cases) leaf

variable {source : Term} {cases : List (Pat × Tree)} {leaf : Option Nat}

theorem leaf_failure : Leaf .failure leaf ↔ leaf = none :=
  ⟨fun found => by cases found; rfl, fun same => same ▸ .failure⟩

theorem leaf_action {index : Nat} : Leaf (.action index) leaf ↔ leaf = some index :=
  ⟨fun found => by cases found; rfl, fun same => same ▸ .action index⟩

theorem leaf_switch : Leaf (.switch source cases) leaf ↔ ∃ entry ∈ cases, entry.2.Leaf leaf := by
  constructor
  · rintro (_ | _ | ⟨member, below⟩)
    exact ⟨_, member, below⟩
  · rintro ⟨entry, member, below⟩
    exact .switch member below

end Tree

section Taking

variable {values values' others fields : List Value} {value : Value} {lines : List Line}
  {line : Line} {row row' : Row} {p : Pat} {source : Term} {head : Head}

def taken? (values : List Value) (lines : List Line) : Option Nat :=
  (lines.find? fun line => (Pat.matchAll? line.pats values).isSome).map Line.action

theorem taken?_cons_of_matches (found : Row.Matches line.pats values) (lines : List Line) :
    taken? values (line :: lines) = some line.action := by
  have shown : (Pat.matchAll? line.pats values).isSome = true := found
  rw [taken?, List.find?_cons, shown]
  rfl

theorem taken?_cons_of_not_matches (missed : ¬ Row.Matches line.pats values) (lines : List Line) :
    taken? values (line :: lines) = taken? values lines := by
  have shown : (Pat.matchAll? line.pats values).isSome = false := Bool.eq_false_iff.mpr missed
  rw [taken?, List.find?_cons, shown]
  rfl

theorem taken?_append {front : List Line} {action : Nat}
    (same : ∀ line ∈ front, line.action = action) (rest : List Line) :
    (∃ line ∈ front, Row.Matches line.pats values) ∧
        taken? values (front ++ rest) = some action ∨
      (∀ line ∈ front, ¬ Row.Matches line.pats values) ∧
        taken? values (front ++ rest) = taken? values rest := by
  induction front with
  | nil => exact .inr ⟨nofun, rfl⟩
  | cons line front ih =>
    by_cases found : Row.Matches line.pats values
    · refine .inl ⟨⟨line, List.mem_cons_self, found⟩, ?_⟩
      rw [List.cons_append, taken?_cons_of_matches found, same line List.mem_cons_self]
    · rw [List.cons_append, taken?_cons_of_not_matches found]
      rcases ih fun other member => same other (List.mem_cons_of_mem line member) with
        ⟨⟨other, member, matched⟩, shown⟩ | ⟨none, shown⟩
      · exact .inl ⟨⟨other, List.mem_cons_of_mem line member, matched⟩, shown⟩
      · exact .inr ⟨List.forall_mem_cons.mpr ⟨found, none⟩, shown⟩

theorem taken?_flatMap {change : Line → List Line}
    (each : ∀ line ∈ lines, (∀ result ∈ change line, result.action = line.action) ∧
      ((∃ result ∈ change line, Row.Matches result.pats values') ↔ Row.Matches line.pats values)) :
    taken? values' (lines.flatMap change) = taken? values lines := by
  induction lines with
  | nil => rfl
  | cons line lines ih =>
    obtain ⟨same, here⟩ := each line List.mem_cons_self
    have rest := ih fun other member => each other (List.mem_cons_of_mem line member)
    rw [List.flatMap_cons]
    rcases taken?_append same (lines.flatMap change) with ⟨some, shown⟩ | ⟨none, shown⟩
    · rw [shown, taken?_cons_of_matches (here.mp some)]
    · rw [shown, taken?_cons_of_not_matches (fun found => ?_), rest]
      obtain ⟨result, member, matched⟩ := here.mpr found
      exact none result member matched

def Line.Leaves (values values' : List Value) (line : Line) (left : Option Line) : Prop :=
  (∀ result ∈ left, result.action = line.action) ∧
    ((∃ result ∈ left, Row.Matches result.pats values') ↔ Row.Matches line.pats values)

theorem taken?_filterMap {change : Line → Option Line}
    (each : ∀ line ∈ lines, line.Leaves values values' (change line)) :
    taken? values' (lines.filterMap change) = taken? values lines := by
  rw [List.filterMap_eq_flatMap_toList]
  refine taken?_flatMap fun line member => ?_
  simpa [Line.Leaves] using each line member

theorem matches_column (length : List.length row = values.length) :
    Row.Matches (row ++ p :: row') (values ++ value :: others) ↔
      row.Matches values ∧ p.Matches value ∧ row'.Matches others := by
  rw [Row.matches_append length, Row.matches_cons]

theorem matches_splice {inserted : Row} (length : List.length row = values.length)
    (length' : List.length inserted = fields.length) :
    Row.Matches (row ++ inserted ++ row') (values ++ fields ++ others) ↔
      row.Matches values ∧ inserted.Matches fields ∧ row'.Matches others := by
  rw [List.append_assoc, List.append_assoc, Row.matches_append length, Row.matches_append length']

theorem matches_expand (pats : line.pats = row ++ p :: row') (length : row.length = values.length) :
    (∀ result ∈ line.expand row.length, result.action = line.action) ∧
      ((∃ result ∈ line.expand row.length, Row.Matches result.pats (values ++ value :: others)) ↔
        Row.Matches line.pats (values ++ value :: others)) := by
  rw [Line.expand, Line.at_column pats]
  refine ⟨fun result member => ?_, ?_⟩
  · obtain ⟨q, -, rfl⟩ := List.mem_map.mp member
    rfl
  · have shown : ∀ q, line.pats.set row.length q = row ++ q :: row' := fun q => by simp [pats]
    simp only [List.mem_map, exists_exists_and_eq_and, shown, matches_column length]
    rw [pats, matches_column length, Pat.matches_iff_alternatives]
    constructor
    · rintro ⟨q, member, first, here, last⟩
      exact ⟨first, ⟨q, member, here⟩, last⟩
    · rintro ⟨first, ⟨q, member, here⟩, last⟩
      exact ⟨q, member, first, here, last⟩

theorem leaves_replace {inserted : Row} (pats : line.pats = row ++ p :: row')
    (length : row.length = values.length) (length' : inserted.length = fields.length)
    (same : inserted.Matches fields ↔ p.Matches value) :
    line.Leaves (values ++ value :: others) (values ++ fields ++ others)
      (some (line.replace row.length source inserted)) := by
  refine ⟨fun result member => ?_, ?_⟩
  · obtain rfl := Option.mem_some.mp member
    rfl
  · simp only [Option.mem_def, Option.some.injEq, exists_eq_left']
    rw [Line.pats_replace pats, matches_splice length length', pats, matches_column length, same]

theorem leaves_none (pats : line.pats = row ++ p :: row') (length : row.length = values.length)
    (missed : ¬ p.Matches value) : line.Leaves (values ++ value :: others) values' none := by
  refine ⟨nofun, iff_of_false (by simp) fun found => missed ?_⟩
  rw [pats, matches_column length] at found
  exact found.2.1

variable {subst : Subst} {registry : Registry} {ty : Ty}

theorem leaves_specialize? (pats : line.pats = row ++ p :: row')
    (length : row.length = values.length) (single : p.isOneOf = false)
    (typed : p.HasType subst registry ty) (has : (Family.of ty subst registry).Has registry head)
    (arity : fields.length = (Family.of ty subst registry).arity registry head) :
    line.Leaves (values ++ .build head fields :: others) (values ++ fields ++ others)
      (line.specialize? row.length source head fields.length) := by
  rw [Line.specialize?, Line.at_column pats]
  split
  · rename_i wild
    cases p with
    | wild capture =>
      refine leaves_replace pats length (by simp [Pat.anys]) (iff_of_true ?_ ?_)
      · exact Row.matches_anys fields
      · exact Pat.matches_wild capture _
    | bool _ | int _ _ | str _ | tuple _ | ctor _ _ _ _ | oneOf _ => simp [Pat.isWild] at wild
  · rename_i tested
    obtain ⟨own, found⟩ := Pat.head?_of_not_wild (Bool.eq_false_iff.mpr tested) single
    rw [found]
    split
    · rename_i same
      obtain rfl := Option.some.inj same
      have length' : p.fields.length = fields.length := by
        rw [arity, ← Family.length_fieldTypes, (typed.hasHead found).2.length_eq]
      exact leaves_replace pats length length' (Row.matches_build found length').symm
    · rename_i different
      refine leaves_none pats length ?_
      simp [Pat.Matches, Pat.match?_build_of_ne found (by simpa using different) fun count tuple =>
        arity.trans (has.arity tuple)]

theorem leaves_default? (pats : line.pats = row ++ p :: row')
    (length : row.length = values.length) (single : p.isOneOf = false)
    (unnamed : p.head? ≠ some head) (arity : ∀ count, head = .tuple count → fields.length = count) :
    line.Leaves (values ++ .build head fields :: others) (values ++ others)
      (line.default? row.length source) := by
  rw [Line.default?, Line.at_column pats]
  split
  · rename_i wild
    cases p with
    | wild capture =>
      have left := @leaves_replace values others [] (.build head fields) line row row' _ source []
        pats length rfl (iff_of_true rfl (Pat.matches_wild capture _))
      rwa [List.append_nil] at left
    | bool _ | int _ _ | str _ | tuple _ | ctor _ _ _ _ | oneOf _ => simp [Pat.isWild] at wild
  · rename_i tested
    obtain ⟨own, found⟩ := Pat.head?_of_not_wild (Bool.eq_false_iff.mpr tested) single
    rw [found] at unnamed
    refine leaves_none pats length ?_
    simp [Pat.Matches, Pat.match?_build_of_ne found (by simpa using unnamed) arity]

end Taking

section Columns

variable {subst subst' : Subst} {registry : Registry} {known : List Int} {p : Pat}
  {column : Ty × Ty} {columns before after : List (Ty × Ty)} {line : Line} {lines : List Line}
  {head : Head} {source : Term} {sources sources' fieldSources : List Term}
  {values others fields : List Value} {value : Value}

/-- A pattern for a column that has one type when coverage is looked at and one when the tree is
built. -/
def Meets (subst subst' : Subst) (registry : Registry) (known : List Int) (p : Pat)
    (column : Ty × Ty) : Prop :=
  Coverage.Fits subst registry known p column.1 ∧ p.HasType subst' registry column.2

/-- Lines over columns whose earlier types have values. -/
structure Problem.Posed (subst subst' : Subst) (registry : Registry) (known : List Int)
    (problem : Problem) (columns : List (Ty × Ty)) : Prop where
  sources : problem.sources.map Term.ty = columns.map Prod.snd
  lines : ∀ line ∈ problem.lines, List.Forall₂ (Meets subst subst' registry known) line.pats columns
  populated : ∀ column ∈ columns, Populated subst registry column.1

def Fill (subst : Subst) (registry : Registry) : List Value → List (Ty × Ty) → Prop :=
  List.Forall₂ fun value column => value.HasType subst registry column.1

def LeadsTo (subst : Subst) (registry : Registry) (columns : List (Ty × Ty)) (lines : List Line)
    (leaf : Option Nat) : Prop :=
  ∃ values, Fill subst registry values columns ∧ taken? values lines = leaf

def fieldColumns (subst subst' : Subst) (registry : Registry) (head : Head) (column : Ty × Ty) :
    List (Ty × Ty) :=
  ((Family.of column.1 subst registry).fieldTypes registry head).zip
    ((Family.of column.2 subst' registry).fieldTypes registry head)

theorem meets_any (column : Ty × Ty) : Meets subst subst' registry known .any column :=
  ⟨Coverage.fits_any column.1, .wild none column.2⟩

theorem Meets.alternatives (meets : Meets subst subst' registry known p column) {q : Pat}
    (member : q ∈ p.alternatives) : Meets subst subst' registry known q column :=
  ⟨⟨meets.1.1.alternatives member, meets.1.2.alternatives member⟩, meets.2.alternatives member⟩

theorem Meets.length (meets : Meets subst subst' registry known p column)
    (own : p.head? = some head) :
    ((Family.of column.1 subst registry).fieldTypes registry head).length =
      ((Family.of column.2 subst' registry).fieldTypes registry head).length := by
  rw [← (meets.1.1.hasHead own).2.length_eq, ← (meets.2.hasHead own).2.length_eq]

theorem Meets.inFields (meets : Meets subst subst' registry known p column)
    (own : p.head? = some head) :
    List.Forall₂ (Meets subst subst' registry known) p.fields
      (fieldColumns subst subst' registry head column) := by
  have earlier := (meets.1.1.hasHead own).2
  have later := (meets.2.hasHead own).2
  have names : ∀ q ∈ p.fields, q.Names known := fun q member => meets.1.2.fields member
  rw [fieldColumns]
  generalize (Family.of column.1 subst registry).fieldTypes registry head = types at earlier
  generalize (Family.of column.2 subst' registry).fieldTypes registry head = types' at later
  generalize p.fields = row at earlier later names
  induction earlier generalizing types' with
  | nil =>
    cases later
    exact .nil
  | @cons q ty row types first rest ih =>
    cases later with
    | cons first' rest' =>
      exact .cons ⟨⟨first, names q List.mem_cons_self⟩, first'⟩
        (ih _ rest' fun other member => names other (List.mem_cons_of_mem q member))

theorem Meets.spans (meets : Meets subst subst' registry known p column)
    (own : p.head? = some head) (seen : List Head) :
    ((Family.of column.2 subst' registry).isOpen ||
        !(Family.of column.2 subst' registry).spannedBy registry seen) =
      ((Family.of column.1 subst registry).isOpen ||
        !(Family.of column.1 subst registry).spannedBy registry seen) := by
  obtain ⟨⟨earlier, -⟩, later⟩ := meets
  cases earlier with
  | wild _ _ => simp [Pat.head?] at own
  | oneOf _ => simp [Pat.head?] at own
  | bool family _ =>
    cases later with
    | bool family' _ => rw [family, family']
  | int family _ =>
    cases later with
    | int family' _ => rw [family, family']
  | str family _ =>
    cases later with
    | str family' _ => rw [family, family']
  | tuple family _ =>
    cases later with
    | tuple family' _ =>
      rw [family, family']
      rfl
  | @ctor _ _ _ _ dataCase _ family _ _ =>
    generalize dataCase.name = name at later
    cases later with
    | ctor family' _ _ =>
      rw [family, family']
      rfl

theorem mem_fieldColumns {part : Ty × Ty}
    (member : part ∈ fieldColumns subst subst' registry head column) :
    part.1 ∈ (Family.of column.1 subst registry).fieldTypes registry head :=
  (List.of_mem_zip member).1

theorem meets_anys (columns : List (Ty × Ty)) :
    List.Forall₂ (Meets subst subst' registry known) (Pat.anys columns.length) columns := by
  induction columns with
  | nil => exact .nil
  | cons column columns ih => exact .cons (meets_any column) ih

theorem Problem.Posed.sourceColumn
    (posed : Posed subst subst' registry known ⟨sources, lines⟩ (before ++ column :: after)) :
    ∃ first source last, sources = first ++ source :: last ∧ first.length = before.length ∧
      source.ty = column.2 ∧ first.map Term.ty = before.map Prod.snd ∧
      last.map Term.ty = after.map Prod.snd := by
  have types := posed.sources
  rw [List.map_append, List.map_cons] at types
  obtain ⟨first, rest, rfl, inFirst, inRest⟩ := List.map_eq_append_iff.mp types
  obtain ⟨source, last, rfl, here, inLast⟩ := List.map_eq_cons_iff.mp inRest
  refine ⟨first, source, last, rfl, ?_, here, inFirst, inLast⟩
  simpa using congrArg List.length inFirst

theorem Problem.Posed.expand {problem : Problem}
    (posed : problem.Posed subst subst' registry known (before ++ column :: after)) :
    (problem.expand before.length).Posed subst subst' registry known
    (before ++ column :: after) where
  sources := posed.sources
  lines line member := by
    obtain ⟨line', inside, expanded⟩ := List.mem_flatMap.mp member
    exact Line.rel_expand (posed.lines line' inside) (fun here => here.alternatives) expanded
  populated := posed.populated

theorem taken?_expand {problem : Problem}
    (posed : problem.Posed subst subst' registry known (before ++ column :: after))
    (length : values.length = before.length) :
    taken? (values ++ value :: others) (problem.expand before.length).lines =
      taken? (values ++ value :: others) problem.lines := by
  refine taken?_flatMap fun line member => ?_
  obtain ⟨row, p, row', pats, length', -⟩ := Line.split_column (posed.lines line member)
  rw [← length']
  exact matches_expand pats (length'.trans length.symm)

theorem length_fieldColumns
    (same : ((Family.of column.1 subst registry).fieldTypes registry head).length =
      ((Family.of column.2 subst' registry).fieldTypes registry head).length) :
    (fieldColumns subst subst' registry head column).length =
        ((Family.of column.1 subst registry).fieldTypes registry head).length ∧
      (fieldColumns subst subst' registry head column).map Prod.fst =
        (Family.of column.1 subst registry).fieldTypes registry head ∧
      (fieldColumns subst subst' registry head column).map Prod.snd =
        (Family.of column.2 subst' registry).fieldTypes registry head := by
  refine ⟨?_, List.map_fst_zip (Nat.le_of_eq same), List.map_snd_zip (Nat.le_of_eq same.symm)⟩
  rw [fieldColumns, List.length_zip, ← same, Nat.min_self]

theorem Problem.Posed.specialize {problem : Problem}
    (posed : problem.Posed subst subst' registry known (before ++ column :: after))
    (has : (Family.of column.1 subst registry).Has registry head)
    (same : ((Family.of column.1 subst registry).fieldTypes registry head).length =
      ((Family.of column.2 subst' registry).fieldTypes registry head).length)
    (fieldTypes : fieldSources.map Term.ty =
      (Family.of column.2 subst' registry).fieldTypes registry head) :
    (problem.specialize before.length head fieldSources).Posed subst subst' registry known
      (before ++ fieldColumns subst subst' registry head column ++ after) := by
  obtain ⟨sources, lines⟩ := problem
  obtain ⟨length, -, later⟩ := length_fieldColumns same
  refine ⟨?_, fun line member => ?_, fun part member => ?_⟩
  · obtain ⟨first, source, last, rfl, length', -, inFirst, inLast⟩ := posed.sourceColumn
    rw [Problem.specialize, ← length', splice_column, List.map_append, List.map_append, inFirst,
      inLast, fieldTypes, ← later, List.map_append, List.map_append]
  · obtain ⟨line', inside, found⟩ := List.mem_filterMap.mp member
    have each := posed.lines line' inside
    obtain ⟨row, p, row', pats, length', -, here, -⟩ := Line.split_column each
    have atColumn : line'.at before.length = p := length' ▸ Line.at_column pats
    rw [Line.specialize?, atColumn] at found
    split at found
    · obtain rfl := Option.some.inj found
      have count : fieldSources.length =
      (fieldColumns subst subst' registry head column).length := by
        rw [length, same, ← fieldTypes, List.length_map]
      rw [count]
      exact Line.rel_replace each (meets_anys _)
    · split at found
      · rename_i own
        obtain rfl := Option.some.inj found
        exact Line.rel_replace each (here.inFields own)
      · simp at found
  · rcases List.mem_append.mp member with member | member
    · rcases List.mem_append.mp member with member | member
      · exact posed.populated part (List.mem_append_left _ member)
      · exact (posed.populated column (by simp)).field has (mem_fieldColumns member)
    · exact posed.populated part (by simp [member])

theorem Problem.Posed.default {problem : Problem}
    (posed : problem.Posed subst subst' registry known (before ++ column :: after)) :
    (problem.default before.length).Posed subst subst' registry known (before ++ after) := by
  obtain ⟨sources, lines⟩ := problem
  refine ⟨?_, fun line member => ?_, fun part member => posed.populated part ?_⟩
  · obtain ⟨first, source, last, rfl, length, -, inFirst, inLast⟩ := posed.sourceColumn
    rw [Problem.default, ← length, splice_column, List.append_nil, List.map_append, List.map_append,
      inFirst, inLast]
  · obtain ⟨line', inside, found⟩ := List.mem_filterMap.mp member
    rw [Line.default?] at found
    split at found
    · obtain rfl := Option.some.inj found
      have replaced := @Line.rel_replace _ _ _ _ _ _ _
        (Problem.sourceAt ⟨sources, lines⟩ before.length) [] (posed.lines line' inside) .nil
      rwa [List.append_nil] at replaced
    · simp at found
  · rcases List.mem_append.mp member with member | member
    · exact List.mem_append_left _ member
    · exact List.mem_append_right _ (List.mem_cons_of_mem _ member)

theorem taken?_specialize {problem : Problem}
    (posed : problem.Posed subst subst' registry known (before ++ column :: after))
    (single : ∀ line ∈ problem.lines, (line.at before.length).isOneOf = false)
    (length : values.length = before.length)
    (has : (Family.of column.1 subst registry).Has registry head)
    (arity : fields.length = (Family.of column.1 subst registry).arity registry head)
    (count : fieldSources.length = fields.length) :
    taken? (values ++ fields ++ others) (problem.specialize before.length head fieldSources).lines =
      taken? (values ++ .build head fields :: others) problem.lines := by
  refine taken?_filterMap fun line member => ?_
  obtain ⟨row, p, row', pats, length', -, here, -⟩ := Line.split_column (posed.lines line member)
  have alone := single line member
  rw [← length', Line.at_column pats] at alone
  rw [← length', count]
  exact leaves_specialize? pats (length'.trans length.symm) alone here.1.1 has arity

theorem taken?_default {problem : Problem}
    (posed : problem.Posed subst subst' registry known (before ++ column :: after))
    (single : ∀ line ∈ problem.lines, (line.at before.length).isOneOf = false)
    (length : values.length = before.length) (unnamed : head ∉ problem.heads before.length)
    (has : (Family.of column.1 subst registry).Has registry head)
    (arity : fields.length = (Family.of column.1 subst registry).arity registry head) :
    taken? (values ++ others) (problem.default before.length).lines =
      taken? (values ++ .build head fields :: others) problem.lines := by
  refine taken?_filterMap fun line member => ?_
  obtain ⟨row, p, row', pats, length', -⟩ := Line.split_column (posed.lines line member)
  have atColumn : line.at before.length = p := length' ▸ Line.at_column pats
  have alone := single line member
  have other : p.head? ≠ some head := fun own =>
    unnamed (mem_heads.mpr ⟨line, member, atColumn ▸ own⟩)
  rw [atColumn] at alone
  rw [← length']
  exact leaves_default? pats (length'.trans length.symm) alone other fun count tuple =>
    arity.trans (has.arity tuple)

theorem exists_values {types : List Ty} (populated : ∀ ty ∈ types, Populated subst registry ty) :
    ∃ values, List.Forall₂ (Value.HasType subst registry) values types := by
  have proper : ∀ p ∈ Pat.anys types.length, p.Proper := fun p member => by
    rw [List.eq_of_mem_replicate member]
    exact nofun
  obtain ⟨values, typed, -⟩ := exists_matchAll (hasType_anys types) proper populated
  exact ⟨values, typed⟩

theorem fill_iff : Fill subst registry values columns ↔
    List.Forall₂ (Value.HasType subst registry) values (columns.map Prod.fst) :=
  List.forall₂_map_right_iff.symm

theorem exists_fill (populated : ∀ column ∈ columns, Populated subst registry column.1) :
    ∃ values, Fill subst registry values columns := by
  obtain ⟨values, typed⟩ := @exists_values subst registry (columns.map Prod.fst)
    fun ty member => by
      obtain ⟨column, inside, rfl⟩ := List.mem_map.mp member
      exact populated column inside
  exact ⟨values, fill_iff.mpr typed⟩

theorem meets_of_mem_heads {problem : Problem}
    (posed : problem.Posed subst subst' registry known (before ++ column :: after))
    (member : head ∈ problem.heads before.length) :
    ∃ p, Meets subst subst' registry known p column ∧ p.head? = some head := by
  obtain ⟨line, inside, own⟩ := mem_heads.mp member
  obtain ⟨row, p, row', pats, length, -, here, -⟩ := Line.split_column (posed.lines line inside)
  rw [← length, Line.at_column pats] at own
  exact ⟨p, here, own⟩

/-- Heads that do not span the column leave out a head of some value. -/
theorem Problem.Posed.exists_unnamed {problem : Problem}
    (posed : problem.Posed subst subst' registry known (before ++ column :: after))
    (few : known.length < 2 ^ maxIntWidth) (some : head ∈ problem.heads before.length)
    (unspanned : (Family.of column.1 subst registry).spannedBy registry
      (problem.heads before.length) = false) :
    ∃ missing parts, (Family.of column.1 subst registry).Has registry missing ∧
      missing ∉ problem.heads before.length ∧ List.Forall₂ (Value.HasType subst registry) parts
        ((Family.of column.1 subst registry).fieldTypes registry missing) := by
  have each : ∀ other ∈ problem.heads before.length,
      ∃ p, Coverage.Fits subst registry known p column.1 ∧ p.head? = Option.some other :=
    fun other member =>
      let ⟨p, meets, own⟩ := meets_of_mem_heads posed member
      ⟨p, meets.1, own⟩
  obtain ⟨p, fits, own⟩ := each head some
  obtain ⟨missing, -, has, unnamed⟩ := Family.missing?_eq_some ⟨head, (fits.1.hasHead own).1⟩
    (fun width family => Nat.lt_of_le_of_lt
      (Coverage.length_le_known family (Family.nodup_eraseDups _) each) few) unspanned
  obtain ⟨parts, typed⟩ := @exists_values subst registry _ fun ty member =>
    (posed.populated column (by simp)).field has member
  exact ⟨missing, parts, has, unnamed, typed⟩

end Columns

section Splitting

variable {subst subst' : Subst} {registry : Registry} {known : List Int} {column : Ty × Ty}
  {columns before after : List (Ty × Ty)} {problem : Problem} {leaf : Option Nat} {head : Head}
  {parts tested : List (Pat × Problem)} {supply supply' : NameSupply}

structure Splits (subst subst' : Subst) (registry : Registry) (known : List Int) (problem : Problem)
    (columns : List (Ty × Ty)) (parts : List (Pat × Problem)) : Prop where
  sound : ∀ part ∈ parts, ∃ columns', part.2.Posed subst subst' registry known columns' ∧
    ∀ leaf, LeadsTo subst registry columns' part.2.lines leaf →
      LeadsTo subst registry columns problem.lines leaf
  complete : ∀ leaf, LeadsTo subst registry columns problem.lines leaf →
    ∃ part ∈ parts, ∃ columns', part.2.Posed subst subst' registry known columns' ∧
      LeadsTo subst registry columns' part.2.lines leaf

theorem fill_column {values : List Value}
    (fill : Fill subst registry values (before ++ column :: after)) :
    ∃ first value last, values = first ++ value :: last ∧ first.length = before.length ∧
      Fill subst registry first before ∧ value.HasType subst registry column.1 ∧
      Fill subst registry last after := by
  obtain ⟨first, value, last, rfl, inFirst, here, inLast⟩ := forall₂_column fill.flip
  exact ⟨first, value, last, rfl, inFirst.length_eq.symm, inFirst.flip, here, inLast.flip⟩

theorem fill_append {values : List Value} (fill : Fill subst registry values (before ++ after)) :
    ∃ first last, values = first ++ last ∧ Fill subst registry first before ∧
      Fill subst registry last after :=
  ⟨_, _, (List.take_append_drop _ _).symm, List.forall₂_take_append _ _ _ fill,
    List.forall₂_drop_append _ _ _ fill⟩

theorem fill_splice {values : List Value} {middle : List (Ty × Ty)}
    (fill : Fill subst registry values (before ++ middle ++ after)) :
    ∃ first fields last, values = first ++ fields ++ last ∧ first.length = before.length ∧
      Fill subst registry first before ∧ Fill subst registry fields middle ∧
      Fill subst registry last after := by
  obtain ⟨front, last, rfl, inFront, inLast⟩ := fill_append fill
  obtain ⟨first, fields, rfl, inFirst, inFields⟩ := fill_append inFront
  exact ⟨first, fields, last, rfl, inFirst.length_eq, inFirst, inFields, inLast⟩

theorem Problem.Posed.branch
    (posed : problem.Posed subst subst' registry known (before ++ column :: after))
    (single : ∀ line ∈ problem.lines, (line.at before.length).isOneOf = false)
    (occurs : head ∈ problem.heads before.length) {part : Pat × Problem}
    (branch : IsBranch registry (.of column.2 subst' registry) problem before.length supply supply'
      head part) :
    ∃ columns', part.2.Posed subst subst' registry known columns' ∧
      ∀ leaf, LeadsTo subst registry columns' part.2.lines leaf ↔
        ∃ first fields last, Fill subst registry first before ∧ Fill subst registry last after ∧
          List.Forall₂ (Value.HasType subst registry) fields
            ((Family.of column.1 subst registry).fieldTypes registry head) ∧
          taken? (first ++ .build head fields :: last) problem.lines = leaf := by
  obtain ⟨names, length, -, rfl⟩ := branch
  obtain ⟨p, meets, own⟩ := meets_of_mem_heads posed occurs
  have has := (meets.1.1.hasHead own).1
  have same := meets.length own
  have types := types_fields length
  have earlier := (length_fieldColumns same).2.1
  have count : ∀ {fields : List Value}, List.Forall₂ (Value.HasType subst registry) fields
      ((Family.of column.1 subst registry).fieldTypes registry head) →
      fields.length = (Family.of column.1 subst registry).arity registry head ∧
        (names.zipWith Term.var
          ((Family.of column.2 subst' registry).fieldTypes registry head)).length =
          fields.length := by
    intro fields typed
    refine ⟨typed.length_eq.trans (Family.length_fieldTypes ..), ?_⟩
    rw [typed.length_eq, same, List.length_zipWith, length, Nat.min_self]
  refine ⟨_, posed.specialize has same types, fun leaf => ⟨?_, ?_⟩⟩
  · rintro ⟨values, fill, shown⟩
    obtain ⟨first, fields, last, rfl, atFirst, inFirst, inFields, inLast⟩ := fill_splice fill
    rw [fill_iff, earlier] at inFields
    obtain ⟨arity, many⟩ := count inFields
    refine ⟨first, fields, last, inFirst, inLast, inFields, ?_⟩
    rw [← shown]
    exact (taken?_specialize posed single atFirst has arity many).symm
  · rintro ⟨first, fields, last, inFirst, inLast, typed, shown⟩
    obtain ⟨arity, many⟩ := count typed
    refine ⟨first ++ fields ++ last, ?_, ?_⟩
    · refine List.rel_append (List.rel_append inFirst ?_) inLast
      exact fill_iff.mpr (earlier ▸ typed)
    · rw [← shown]
      exact taken?_specialize posed single inFirst.length_eq has arity many

theorem Problem.Posed.splits
    (posed : problem.Posed subst subst' registry known (before ++ column :: after))
    (few : known.length < 2 ^ maxIntWidth)
    (single : ∀ line ∈ problem.lines, (line.at before.length).isOneOf = false)
    (named : ∃ line ∈ problem.lines, (line.at before.length).isWild = false)
    (each : List.Forall₂ (IsBranch registry (.of column.2 subst' registry) problem before.length
      supply supply') (problem.heads before.length) tested) :
    Splits subst subst' registry known problem (before ++ column :: after)
      (tested ++ fallback registry (.of column.2 subst' registry) problem before.length) := by
  obtain ⟨line, member, test⟩ := named
  obtain ⟨occurring, own⟩ := Pat.head?_of_not_wild test (single line member)
  have occurs : occurring ∈ problem.heads before.length := mem_heads.mpr ⟨line, member, own⟩
  obtain ⟨p, meets, own⟩ := meets_of_mem_heads posed occurs
  have spans := meets.spans own (problem.heads before.length)
  refine ⟨fun part inParts => ?_, fun leaf outcome => ?_⟩
  · rcases List.mem_append.mp inParts with inTested | inFallback
    · obtain ⟨head, inHeads, branch⟩ := forall₂_of_mem each.flip inTested
      obtain ⟨columns', posed', outcomes⟩ := posed.branch single inHeads branch
      obtain ⟨q, meets, own⟩ := meets_of_mem_heads posed inHeads
      refine ⟨columns', posed', fun leaf outcome => ?_⟩
      obtain ⟨first, fields, last, inFirst, inLast, typed, shown⟩ := (outcomes leaf).mp outcome
      exact ⟨_, List.rel_append inFirst
        (.cons (Value.hasType_build (meets.1.1.hasHead own).1 typed) inLast), shown⟩
    · rw [fallback] at inFallback
      split at inFallback
      · rename_i uncovered
        obtain rfl := List.mem_singleton.mp inFallback
        rw [spans] at uncovered
        obtain ⟨missing, fields, has, unnamed, typed⟩ :=
          posed.exists_unnamed few occurs (Coverage.Problem.spannedBy_of_isOpen uncovered)
        refine ⟨before ++ after, posed.default, ?_⟩
        rintro leaf ⟨values, fill, shown⟩
        obtain ⟨first, last, rfl, inFirst, inLast⟩ := fill_append fill
        refine ⟨first ++ .build missing fields :: last,
          List.rel_append inFirst (.cons (Value.hasType_build has typed) inLast), ?_⟩
        rw [← shown]
        exact (taken?_default posed single inFirst.length_eq unnamed has
          (typed.length_eq.trans (Family.length_fieldTypes ..))).symm
      · simp at inFallback
  · obtain ⟨values, fill, shown⟩ := outcome
    obtain ⟨first, value, last, rfl, length, inFirst, typed, inLast⟩ := fill_column fill
    rcases typed.hasHead with unknown | ⟨head, fields, rfl, has, typedFields⟩
    · -- a column with a test has known heads
      have has := (meets.1.1.hasHead own).1
      rw [unknown] at has
      exact has.elim
    by_cases inHeads : head ∈ problem.heads before.length
    · obtain ⟨part, inTested, branch⟩ := forall₂_of_mem each inHeads
      obtain ⟨columns', posed', outcomes⟩ := posed.branch single inHeads branch
      exact ⟨part, List.mem_append_left _ inTested, columns', posed', (outcomes leaf).mpr
        ⟨first, fields, last, inFirst, inLast, typedFields, shown⟩⟩
    · by_cases uncovered : ((Family.of column.1 subst registry).isOpen ||
        !(Family.of column.1 subst registry).spannedBy registry
          (problem.heads before.length)) = true
      · refine ⟨(.any, problem.default before.length), List.mem_append_right _ ?_, before ++ after,
          posed.default, first ++ last, List.rel_append inFirst inLast, ?_⟩
        · rw [fallback, spans, if_pos uncovered]
          exact List.mem_singleton_self _
        · rw [← shown]
          exact taken?_default posed single length inHeads has
            (typedFields.length_eq.trans (Family.length_fieldTypes ..))
      · simp only [Bool.or_eq_true, Bool.not_eq_true', not_or, Bool.not_eq_false] at uncovered
        refine absurd (Family.mem_of_spannedBy (Family.nodup_eraseDups _) (fun other member => ?_)
          uncovered.2 has) inHeads
        obtain ⟨q, meets, own⟩ := meets_of_mem_heads posed member
        exact (meets.1.1.hasHead own).1

end Splitting

section Construction

variable {subst subst' : Subst} {registry : Registry} {ty : Ty} {known : List Int}

def numbered (actions : List Term) (ty : Ty) (index : Nat) : Term :=
  actions[index]?.getD (.failure ty)

/-- The tree that is built whatever the actions are. -/
def Outlines (subst : Subst) (registry : Registry) (ty : Ty) (problem : Problem)
    (supply supply' : NameSupply) (tree : Tree) : Prop :=
  ∀ actions, build subst registry actions ty problem supply =
    (tree.fill (numbered actions ty) ty, supply')

theorem outlines_parts {shows : Pat × Problem → Tree → Prop} {parts : List (Pat × Problem)}
    (each : ∀ part ∈ parts, ∀ supply, ∃ tree supply',
      Outlines subst registry ty part.2 supply supply' tree ∧ shows part tree)
    (supply : NameSupply) :
    ∃ cases supply', (∀ actions, (parts.mapM fun part => do
        let body ← build subst registry actions ty part.2
        pure (Arm.mk part.1 body) : StateM NameSupply (List Arm)) supply =
          (Tree.fillCases (numbered actions ty) ty cases, supply')) ∧
      List.Forall₂ (fun part entry => shows part entry.2) parts cases := by
  induction parts generalizing supply with
  | nil => exact ⟨[], supply, fun _ => rfl, .nil⟩
  | cons part parts ih =>
    obtain ⟨tree, middle, outlines, here⟩ := each part List.mem_cons_self supply
    obtain ⟨cases, supply', rest, others⟩ :=
      ih (fun other member => each other (List.mem_cons_of_mem part member)) middle
    refine ⟨(part.1, tree) :: cases, supply', fun actions => ?_, .cons here others⟩
    rw [List.mapM_cons, Tree.fillCases]
    simp only [bind, StateT.bind, pure, StateT.pure, outlines actions]
    have shown := rest actions
    simp only [bind, pure] at shown
    rw [shown]

theorem exists_leaf (sources : List Term) (line : Line) :
    ∃ tree : Tree, (∀ actions, leafTerm actions ty sources line =
        tree.fill (numbered actions ty) ty) ∧
      ∀ leaf, tree.Leaf leaf ↔ leaf = some line.action := by
  have below : ∀ (source : Term) (pat : Pat) (leaf : Option Nat),
      (Tree.switch source [(pat, .action line.action)]).Leaf leaf ↔ leaf = some line.action := by
    intro source pat leaf
    rw [Tree.leaf_switch]
    simp [Tree.leaf_action]
  unfold leafTerm
  generalize line.allCaptured sources = captured
  match captured with
  | [] => exact ⟨.action line.action, fun _ => rfl, fun _ => Tree.leaf_action⟩
  | [(name, source)] =>
    exact ⟨.switch source [(.capturing name, .action line.action)], fun _ => rfl, below _ _⟩
  | (name, source) :: (name', source') :: rest =>
    exact ⟨.switch _ [(_, .action line.action)], fun _ => rfl, below _ _⟩

theorem taken?_of_column_none {line : Line} {values : List Value}
    (none : Problem.column? line = none) (length : line.pats.length = values.length)
    (lines : List Line) : taken? values (line :: lines) = some line.action := by
  refine taken?_cons_of_matches ?_ lines
  have wild : ∀ p ∈ line.pats, p.isWild = true := by
    simpa [Problem.column?, List.findIdx?_eq_none_iff] using none
  generalize line.pats = row at length wild
  induction row generalizing values with
  | nil =>
    obtain rfl := List.eq_nil_of_length_eq_zero length.symm
    rfl
  | cons p row ih =>
    cases values with
    | nil => simp at length
    | cons value values =>
      have rest := ih (Nat.succ.inj length) fun q member => wild q (List.mem_cons_of_mem p member)
      have here := wild p List.mem_cons_self
      cases p with
      | wild capture => exact Row.matches_cons.mpr ⟨Pat.matches_wild capture value, rest⟩
      | bool _ | int _ _ | str _ | tuple _ | ctor _ _ _ _ | oneOf _ => simp [Pat.isWild] at here

theorem leaf_splits {problem : Problem} {columns : List (Ty × Ty)} {parts : List (Pat × Problem)}
    {source : Term} {cases : List (Pat × Tree)} {leaf : Option Nat}
    (splits : Splits subst subst' registry known problem columns parts)
    (each : List.Forall₂ (fun part entry => ∀ columns',
      part.2.Posed subst subst' registry known columns' → ∀ leaf,
        entry.2.Leaf leaf ↔ LeadsTo subst registry columns' part.2.lines leaf) parts cases) :
    (Tree.switch source cases).Leaf leaf ↔ LeadsTo subst registry columns problem.lines leaf := by
  rw [Tree.leaf_switch]
  constructor
  · rintro ⟨entry, member, below⟩
    obtain ⟨part, inParts, leaves⟩ := forall₂_of_mem each.flip member
    obtain ⟨columns', posed, whole⟩ := splits.sound part inParts
    exact whole leaf ((leaves columns' posed leaf).mp below)
  · intro outcome
    obtain ⟨part, inParts, columns', posed, here⟩ := splits.complete leaf outcome
    obtain ⟨entry, member, leaves⟩ := forall₂_of_mem each inParts
    exact ⟨entry, member, (leaves columns' posed leaf).mpr here⟩

theorem Problem.Posed.tested {sources : List Term} {first : Line} {lines : List Line} {col : Nat}
    {columns : List (Ty × Ty)}
    (posed : Posed subst subst' registry known ⟨sources, first :: lines⟩ columns)
    (column : Problem.column? first = some col) :
    ∃ before part after, columns = before ++ part :: after ∧ before.length = col := by
  obtain ⟨inside, -⟩ := List.findIdx?_eq_some_iff_getElem.mp column
  rw [(posed.lines first List.mem_cons_self).length_eq] at inside
  exact exists_column inside

theorem exists_tree (few : known.length < 2 ^ maxIntWidth) (problem : Problem)
    (supply : NameSupply) :
    ∃ tree supply', Outlines subst' registry ty problem supply supply' tree ∧
      ∀ columns, problem.Posed subst subst' registry known columns → ∀ leaf,
        tree.Leaf leaf ↔ LeadsTo subst registry columns problem.lines leaf := by
  induction weight : problem.weight using Nat.strongRecOn generalizing problem supply with
  | ind bound ih =>
    subst weight
    obtain ⟨sources, lines⟩ := problem
    cases lines with
    | nil =>
      refine ⟨.failure, supply, fun actions => by rw [build_eq]; rfl, fun columns posed leaf => ?_⟩
      obtain ⟨values, fill⟩ := exists_fill posed.populated
      rw [Tree.leaf_failure]
      exact ⟨fun none => ⟨values, fill, none.symm⟩, fun ⟨_, _, shown⟩ => shown.symm⟩
    | cons first lines =>
      cases column : Problem.column? first with
      | none =>
        obtain ⟨tree, outlines, leaves⟩ := @exists_leaf ty sources first
        refine ⟨tree, supply, fun actions => ?_, fun columns posed leaf => ?_⟩
        · rw [build_eq, ← outlines actions]
          simp only [Problem.step, column]
          rfl
        · have taken : ∀ {values}, Fill subst registry values columns →
              taken? values (first :: lines) = some first.action := fun fill =>
            taken?_of_column_none column
              ((posed.lines first List.mem_cons_self).length_eq.trans fill.length_eq.symm) lines
          obtain ⟨values, fill⟩ := exists_fill posed.populated
          rw [leaves]
          exact ⟨fun same => ⟨values, fill, same ▸ taken fill⟩,
            fun ⟨_, fill, shown⟩ => shown.symm.trans (taken fill)⟩
      | some col =>
        have named : ∃ line ∈ first :: lines, (line.at col).isWild = false :=
          ⟨first, List.mem_cons_self, isWild_at_column column⟩
        by_cases some : (first :: lines).any fun line => (line.at col).isOneOf
        · obtain ⟨tree, supply', outlines, leaves⟩ := ih _ (weight_expand (by simpa using some))
            (Problem.expand ⟨sources, first :: lines⟩ col) supply rfl
          refine ⟨tree, supply', fun actions => ?_, fun columns posed leaf => ?_⟩
          · rw [build_eq]
            simp only [Problem.step, column, some, if_true]
            exact outlines actions
          · obtain ⟨before, part, after, rfl, rfl⟩ := posed.tested column
            rw [leaves _ posed.expand]
            refine exists_congr fun values => and_congr_right fun fill => ?_
            obtain ⟨front, value, last, rfl, length, -⟩ := fill_column fill
            rw [taken?_expand posed length]
        · have single : ∀ line ∈ first :: lines, (line.at col).isOneOf = false := by
            simpa using some
          obtain ⟨tested, middle, run, each, -⟩ := split_spec registry
            (.of (Problem.sourceAt ⟨sources, first :: lines⟩ col).ty subst' registry)
            ⟨sources, first :: lines⟩ col supply
          have below := split_below registry
            (.of (Problem.sourceAt ⟨sources, first :: lines⟩ col).ty subst' registry)
            ⟨sources, first :: lines⟩ col supply named
          rw [run] at below
          obtain ⟨cases, supply', fills, leaves⟩ := @outlines_parts subst' registry ty
            (fun part tree => ∀ columns',
              part.2.Posed subst subst' registry known columns' → ∀ leaf,
              tree.Leaf leaf ↔ LeadsTo subst registry columns' part.2.lines leaf) _
            (fun part member start => ih _ (below part member) part.2 start rfl) middle
          refine ⟨.switch (Problem.sourceAt ⟨sources, first :: lines⟩ col) cases, supply',
            fun actions => ?_, fun columns posed leaf => ?_⟩
          · rw [build_eq]
            simp only [Problem.step, column, some, Bool.false_eq_true, if_false]
            rw [run]
            have shown := fills actions
            simp only [StateT.run]
            rw [shown, Tree.fill]
          · obtain ⟨before, part, after, rfl, rfl⟩ := posed.tested column
            have atColumn : (Problem.sourceAt ⟨sources, first :: lines⟩ before.length).ty =
            part.2 := by
              obtain ⟨front, source, last, rfl, length, here, -⟩ := posed.sourceColumn
              rw [← length, sourceAt_column, here]
            rw [atColumn] at each leaves
            exact leaf_splits (posed.splits few single named each) leaves

end Construction

end PolyCheck.Decision
