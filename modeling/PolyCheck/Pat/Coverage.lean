import PolyCheck.Pat.Family
import PolyCheck.Pat.Weight

/-! Coverage of patterns. Whether a case is useless and whether a match misses values are one
question: is there a value that a query row matches and none of the given rows does? The first
column is split by its heads until no row is left, or no column. The answer, if there is one, is put
together from the heads on the way. -/
namespace PolyCheck.Coverage

def expandRow : Row → List Row
  | [] => [[]]
  | p :: ps => p.alternatives.map (· :: ps)

def expand (rows : List Row) : List Row :=
  rows.flatMap expandRow

def heads (rows : List Row) : List Head :=
  (rows.filterMap fun row => row.head?.bind Pat.head?).eraseDups

/-- What is left of a row for the values with a head: the fields come in place of the first
pattern. -/
def specializeRow (head : Head) (arity : Nat) : Row → Option Row
  | [] => none
  | p :: ps =>
    if p.isWild then some (Pat.anys arity ++ ps)
    else if p.head? = some head then some (p.fields ++ ps)
    else none

def specialize (rows : List Row) (head : Head) (arity : Nat) : List Row :=
  rows.filterMap (specializeRow head arity)

def defaultRow : Row → Option Row
  | [] => none
  | p :: ps => if p.isWild then some ps else none

def defaults (rows : List Row) : List Row :=
  rows.filterMap defaultRow

def firstAlternative : Pat → Pat
  | .oneOf [] => .any
  | .oneOf (p :: _) => firstAlternative p
  | other => other

def wrap (head : Pat) (arity : Nat) (row : Row) : Row :=
  head.withFields (row.take arity) :: row.drop arity

section Weight

open Pat

theorem rowsWeight_expandRow (row : Row) : rowsWeight (expandRow row) ≤ rowWeight row := by
  cases row with
  | nil => simp [expandRow, rowsWeight, rowWeight]
  | cons p ps =>
    have scale : ∀ as : List Pat,
        rowsWeight (as.map (· :: ps)) = totalWeight as * rowWeight ps := by
      intro as
      induction as with
      | nil => simp [rowsWeight, totalWeight]
      | cons a as ih =>
        simp only [rowsWeight, List.map_cons, total_cons, rowWeight, totalWeight] at ih ⊢
        rw [ih, Nat.add_mul]
    rw [expandRow, scale, rowWeight]
    exact Nat.mul_le_mul_right _ (totalWeight_alternatives p)

theorem rowsWeight_append (rows rows' : List Row) :
    rowsWeight (rows ++ rows') = rowsWeight rows + rowsWeight rows' := by
  simp [rowsWeight]

theorem rowsWeight_expand (rows : List Row) : rowsWeight (expand rows) ≤ rowsWeight rows := by
  induction rows with
  | nil => simp [expand]
  | cons row rows ih =>
    have := rowsWeight_expandRow row
    rw [expand] at ih
    rw [expand, List.flatMap_cons, rowsWeight_append]
    simp only [rowsWeight, List.map_cons, total_cons] at *
    omega

theorem rowWeight_specializeRow {head : Head} {arity : Nat} {row result : Row}
    (found : specializeRow head arity row = some result) : rowWeight result ≤ rowWeight row := by
  cases row with
  | nil => simp [specializeRow] at found
  | cons p ps =>
    simp only [specializeRow] at found
    split at found
    · simp only [Option.some.injEq] at found
      rw [← found, rowWeight_append, rowWeight_anys, rowWeight]
      exact Nat.mul_le_mul_right _ (weight_pos p)
    · split at found
      · rename_i same
        simp only [Option.some.injEq] at found
        rw [← found]
        exact Nat.le_of_lt (rowWeight_cons_lt (rowWeight_fields_lt same))
      · simp at found

theorem rowWeight_defaultRow {row result : Row} (found : defaultRow row = some result) :
    rowWeight result ≤ rowWeight row := by
  cases row with
  | nil => simp [defaultRow] at found
  | cons p ps =>
    simp only [defaultRow] at found
    split at found
    · simp only [Option.some.injEq] at found
      subst found
      rw [rowWeight]
      exact Nat.le_mul_of_pos_left _ (weight_pos p)
    · simp at found

theorem rowsWeight_filterMap {shrink : Row → Option Row}
    (le : ∀ {row result}, shrink row = some result → rowWeight result ≤ rowWeight row)
    (rows : List Row) : rowsWeight (rows.filterMap shrink) ≤ rowsWeight rows := by
  induction rows with
  | nil => simp
  | cons row rows ih =>
    cases found : shrink row with
    | none =>
      rw [List.filterMap_cons_none found]
      simp only [rowsWeight, List.map_cons, total_cons] at *
      omega
    | some result =>
      have := le found
      rw [List.filterMap_cons_some found]
      simp only [rowsWeight, List.map_cons, total_cons] at *
      omega

theorem rowsWeight_specialize (rows : List Row) (head : Head) (arity : Nat) :
    rowsWeight (specialize rows head arity) ≤ rowsWeight rows :=
  rowsWeight_filterMap rowWeight_specializeRow rows

theorem rowsWeight_defaults (rows : List Row) : rowsWeight (defaults rows) ≤ rowsWeight rows :=
  rowsWeight_filterMap rowWeight_defaultRow rows

theorem rowsWeight_specialize_lt {rows : List Row} {head : Head} (arity : Nat)
    (occurs : head ∈ heads rows) : rowsWeight (specialize rows head arity) < rowsWeight rows := by
  have mem : head ∈ rows.filterMap fun row => row.head?.bind Pat.head? := by
    simpa [heads] using occurs
  clear occurs
  induction rows with
  | nil => simp at mem
  | cons row rows ih =>
    have rest := rowsWeight_specialize rows head arity
    rw [specialize] at rest
    by_cases here : (row.head?.bind Pat.head?) = some head
    · cases row with
      | nil => simp at here
      | cons p ps =>
        simp only [List.head?_cons, Option.bind_some] at here
        have notWild : p.isWild = false := by
          cases p <;> simp_all [Pat.head?, Pat.isWild]
        have taken : specializeRow head arity (p :: ps) = some (p.fields ++ ps) := by
          simp [specializeRow, notWild, here]
        have lighter := @rowWeight_cons_lt p ps _ (rowWeight_fields_lt here)
        rw [specialize, List.filterMap_cons_some taken]
        simp only [rowsWeight, List.map_cons, total_cons] at *
        omega
    · have mem' : head ∈ rows.filterMap fun row => row.head?.bind Pat.head? := by
        rcases List.mem_filterMap.mp mem with ⟨row', member, found⟩
        rcases List.mem_cons.mp member with rfl | member
        · exact absurd found here
        · exact List.mem_filterMap.mpr ⟨row', member, found⟩
      have smaller := ih mem'
      rw [specialize] at smaller
      rw [specialize]
      cases found : specializeRow head arity row with
      | none =>
        rw [List.filterMap_cons_none found]
        simp only [rowsWeight, List.map_cons, total_cons] at *
        omega
      | some result =>
        have := rowWeight_specializeRow found
        rw [List.filterMap_cons_some found]
        simp only [rowsWeight, List.map_cons, total_cons] at *
        omega

end Weight

/-- Is there a value that the query matches and none of the rows does? The columns have the given
types. -/
structure Problem where
  rows : List Row
  query : Row
  types : List Ty

/-- How the answer to a part becomes an answer to the whole. -/
inductive Rebuild where
  | keep
  | prepend (missing : Pat)
  | wrap (head : Pat) (arity : Nat)

def Rebuild.apply : Rebuild → Row → Row
  | keep, row => row
  | prepend missing, row => missing :: row
  | wrap head arity, row => Coverage.wrap head arity row

namespace Problem

def family (problem : Problem) (subst : Subst) (registry : Registry) : Family :=
  .of (problem.types.headD .unit) subst registry

/-- The part for the values with a head, whose fields the query matches by the given patterns. -/
def specialized (problem : Problem) (subst : Subst) (registry : Registry) (head : Head)
    (fields : Row) : Rebuild × Problem :=
  let family := problem.family subst registry
  let arity := family.arity registry head
  (.wrap (family.pattern registry head) arity,
    { rows := specialize (expand problem.rows) head arity
      query := fields ++ problem.query.tail
      types := family.fieldTypes registry head ++ problem.types.tail })

/-- The part for the values whose head no row names. -/
def defaulted (problem : Problem) (subst : Subst) (registry : Registry) : Rebuild × Problem :=
  let family := problem.family subst registry
  let missing := family.missing? registry (heads (expand problem.rows))
  (.prepend (missing.elim .any (family.pattern registry)),
    { rows := defaults (expand problem.rows)
      query := problem.query.tail
      types := problem.types.tail })

def alternative (problem : Problem) (p : Pat) : Rebuild × Problem :=
  (.keep, { problem with rows := expand problem.rows, query := p :: problem.query.tail })

/-- The parts of a problem with rows. The rows cover the query if they do so in every part. -/
def parts (problem : Problem) (subst : Subst) (registry : Registry) : List (Rebuild × Problem) :=
  match problem.query with
  | [] => []
  | .oneOf ps :: _ => ps.map problem.alternative
  | .wild _ :: _ =>
    let family := problem.family subst registry
    let seen := heads (expand problem.rows)
    if family.isOpen || !family.spannedBy registry seen then
      [problem.defaulted subst registry]
    else
      seen.map fun head =>
        problem.specialized subst registry head (Pat.anys (family.arity registry head))
  | concrete :: _ =>
    match concrete.head? with
    | some head => [problem.specialized subst registry head concrete.fields]
    | none => []

def weight (problem : Problem) : Nat :=
  Pat.rowsWeight problem.rows + Pat.rowWeight problem.query

theorem parts_smaller {problem part : Problem} {rebuild : Rebuild} {subst : Subst}
    {registry : Registry} (mem : (rebuild, part) ∈ problem.parts subst registry) :
    part.weight < problem.weight ∨
      part.weight = problem.weight ∧ part.query.length < problem.query.length := by
  obtain ⟨rows, query, types⟩ := problem
  have expanded := rowsWeight_expand rows
  cases query with
  | nil => simp [parts] at mem
  | cons head tail =>
    have concrete : ∀ h, head.head? = some h →
        (rebuild, part) = specialized ⟨rows, head :: tail, types⟩ subst registry h head.fields →
        part.weight < weight ⟨rows, head :: tail, types⟩ := by
      intro h same eq
      simp only [specialized, Prod.mk.injEq] at eq
      rw [eq.2]
      have lighter := @Pat.rowWeight_cons_lt head tail _ (Pat.rowWeight_fields_lt same)
      have := rowsWeight_specialize (expand rows) h
        (family ⟨rows, head :: tail, types⟩ subst registry |>.arity registry h)
      simp only [weight, List.tail_cons] at *
      omega
    cases head with
    | oneOf ps =>
      left
      simp only [parts, List.mem_map, alternative, Prod.mk.injEq, List.tail_cons] at mem
      obtain ⟨p, member, -, rfl⟩ := mem
      have lighter : Pat.rowWeight ([p] ++ tail) < Pat.rowWeight (.oneOf ps :: tail) := by
        apply Pat.rowWeight_cons_lt
        have := Pat.weight_le_totalWeight member
        simp only [Pat.rowWeight, Pat.weight, Nat.mul_one]
        omega
      simp only [weight, List.singleton_append] at *
      omega
    | wild capture =>
      simp only [parts] at mem
      split at mem
      · simp only [List.mem_singleton, defaulted, Prod.mk.injEq] at mem
        rw [mem.2]
        have := rowsWeight_defaults (expand rows)
        simp only [weight, List.tail_cons, List.length_cons, Pat.rowWeight, Pat.weight,
          Nat.one_mul]
        omega
      · left
        simp only [List.mem_map, specialized, Prod.mk.injEq] at mem
        obtain ⟨h, member, -, rfl⟩ := mem
        have := rowsWeight_specialize_lt
          (family ⟨rows, .wild capture :: tail, types⟩ subst registry |>.arity registry h) member
        simp only [weight, List.tail_cons, Pat.rowWeight_append, Pat.rowWeight_anys,
          Pat.rowWeight, Pat.weight, Nat.one_mul] at *
        omega
    | _ =>
      left
      simp only [parts, Pat.head?, List.mem_singleton] at mem
      exact concrete _ rfl mem

/-- A row of patterns that the query matches and the rows do not, or nothing if the rows cover the
query. -/
def uncovered? (subst : Subst) (registry : Registry) (problem : Problem) : Option Row :=
  if problem.rows.isEmpty then
    some (problem.query.map firstAlternative)
  else
    (problem.parts subst registry).attach.findSome? fun ⟨(rebuild, part), mem⟩ =>
      have := parts_smaller mem
      (uncovered? subst registry part).map rebuild.apply
termination_by (problem.weight, problem.query.length)
decreasing_by
  rcases parts_smaller mem with lighter | ⟨same, fewer⟩
  · exact Prod.Lex.left _ _ lighter
  · rw [same]
    exact Prod.Lex.right _ fewer

def looks (problem : Problem) : Bool :=
  match problem.query with
  | [] | .oneOf _ :: _ => false
  | _ => true

/-- Whether the search stands still here, as the type of the first column has no head. -/
def stands (subst : Subst) (registry : Registry) (problem : Problem) : Bool :=
  problem.looks && (Family.of? (problem.types.headD .unit) subst registry).isNone

/-- The search as it is run: its answer, or nothing if it comes to no end. -/
def search? (subst : Subst) (registry : Registry) (problem : Problem) : Option (Option Row) :=
  if problem.rows.isEmpty then
    some (some (problem.query.map firstAlternative))
  else if problem.stands subst registry then
    none
  else
    (problem.parts subst registry).attach.findSomeM? fun ⟨(rebuild, part), mem⟩ =>
      have := parts_smaller mem
      (search? subst registry part).map (·.map rebuild.apply)
termination_by (problem.weight, problem.query.length)
decreasing_by
  rcases parts_smaller mem with lighter | ⟨same, fewer⟩
  · exact Prod.Lex.left _ _ lighter
  · rw [same]
    exact Prod.Lex.right _ fewer

end Problem

/-- Whether a pattern matches some value of a type that none of the earlier patterns match. -/
def useful (subst : Subst) (registry : Registry) (earlier : List Pat) (pat : Pat) (ty : Ty) :
    Bool :=
  (Problem.uncovered? subst registry ⟨earlier.map ([·]), [pat], [ty]⟩).isSome

/-- A pattern for values of a type that none of the patterns match, if there are any. -/
def witness? (subst : Subst) (registry : Registry) (pats : List Pat) (ty : Ty) : Option Pat :=
  (Problem.uncovered? subst registry ⟨pats.map ([·]), [.any], [ty]⟩).bind List.getLast?

end PolyCheck.Coverage
