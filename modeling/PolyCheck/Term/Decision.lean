import PolyCheck.Pat.Family
import PolyCheck.Pat.Weight
import PolyCheck.Term

/-! Decision trees for matches. Each switch of a tree tests one source against heads whose fields
are bound to minted names, with a wildcard at the end when the heads are not all of the type. The
column to split is the first one in which the first row needs a test. What a row captures is
collected on the way and bound by one match in front of its action. -/
namespace PolyCheck.Decision

/-- A row with the names it has captured so far and the number of its action. -/
structure Line where
  pats : Row
  captured : List (Name × Term)
  action : Nat

/-- Rows over one source per column. -/
structure Problem where
  sources : List Term
  lines : List Line

def Line.at (line : Line) (col : Nat) : Pat :=
  line.pats[col]?.getD .any

def splice {α : Type} (items : List α) (col : Nat) (inserted : List α) : List α :=
  items.take col ++ inserted ++ items.drop (col + 1)

/-- The line with a column replaced by several patterns. What a wildcard there captures is recorded
as the source of the column. -/
def Line.replace (line : Line) (col : Nat) (source : Term) (inserted : Row) : Line :=
  { line with
    pats := splice line.pats col inserted
    captured :=
      match line.at col with
      | .wild (some name) => line.captured ++ [(name, source)]
      | _ => line.captured }

def Line.expand (col : Nat) (line : Line) : List Line :=
  (line.at col).alternatives.map fun p => { line with pats := line.pats.set col p }

def Line.specialize? (col : Nat) (source : Term) (head : Head) (arity : Nat) (line : Line) :
    Option Line :=
  if (line.at col).isWild then some (line.replace col source (Pat.anys arity))
  else if (line.at col).head? = some head then
    some (line.replace col source (line.at col).fields)
  else none

def Line.default? (col : Nat) (source : Term) (line : Line) : Option Line :=
  if (line.at col).isWild then some (line.replace col source []) else none

namespace Problem

def sourceAt (problem : Problem) (col : Nat) : Term :=
  problem.sources[col]?.getD default

def expand (problem : Problem) (col : Nat) : Problem :=
  { problem with lines := problem.lines.flatMap (Line.expand col) }

/-- The problem for the values with a head, whose fields become sources. -/
def specialize (problem : Problem) (col : Nat) (head : Head) (fields : List Term) : Problem where
  sources := splice problem.sources col fields
  lines := problem.lines.filterMap
    (Line.specialize? col (problem.sourceAt col) head fields.length)

/-- The problem for the values with a head that no line names. -/
def default (problem : Problem) (col : Nat) : Problem where
  sources := splice problem.sources col []
  lines := problem.lines.filterMap (Line.default? col (problem.sourceAt col))

/-- The different heads of a column in order of appearance. -/
def heads (problem : Problem) (col : Nat) : List Head :=
  (problem.lines.filterMap fun line => (line.at col).head?).eraseDups

/-- The column in which the first line needs a test first. -/
def column? (line : Line) : Option Nat :=
  line.pats.findIdx? fun p => !p.isWild

def weight (problem : Problem) : Nat :=
  Pat.rowsWeight (problem.lines.map (·.pats))

end Problem

def mintFields : List Ty → StateM NameSupply (List Term)
  | [] => pure []
  | ty :: types => do
    let name ← modifyGet (·.mint "f")
    let rest ← mintFields types
    pure (.var name ty :: rest)

def binder : Term → Pat
  | .var name _ => .capturing name
  | _ => .any

def branches (registry : Registry) (family : Family) (problem : Problem) (col : Nat) :
    List Head → StateM NameSupply (List (Pat × Problem))
  | [] => pure []
  | head :: heads => do
    let fields ← mintFields (family.fieldTypes registry head)
    let rest ← branches registry family problem col heads
    pure (((family.pattern registry head).withFields (fields.map binder),
      problem.specialize col head fields) :: rest)

inductive Step where
  | fail
  | leaf (line : Line)
  | again (problem : Problem)
  | switch (source : Term) (branches : List (Pat × Problem))

/-- Whether all that a step leaves to be done is lighter than a bound. -/
def Step.Below (bound : Nat) : Step → Prop
  | fail => True
  | leaf _ => True
  | again rest => rest.weight < bound
  | switch _ parts => ∀ part ∈ parts, part.2.weight < bound

def Problem.split (registry : Registry) (family : Family) (problem : Problem) (col : Nat) :
    StateM NameSupply Step := do
  let heads := problem.heads col
  let tested ← branches registry family problem col heads
  if family.isOpen || !family.spannedBy registry heads then
    pure (.switch (problem.sourceAt col) (tested ++ [(.any, problem.default col)]))
  else
    pure (.switch (problem.sourceAt col) tested)

/-- The next step: give up without lines, stop at a first line without tests, remove alternatives
from the column to be split, or split it. -/
def Problem.step (subst : Subst) (registry : Registry) (problem : Problem) :
    StateM NameSupply Step :=
  match problem.lines with
  | [] => pure .fail
  | first :: _ =>
    match Problem.column? first with
    | none => pure (.leaf first)
    | some col =>
      if problem.lines.any fun line => (line.at col).isOneOf then
        pure (.again (problem.expand col))
      else
        problem.split registry (.of (problem.sourceAt col).ty subst registry) col

section Weight

open Pat

theorem rowWeight_splice (row : Row) (col : Nat) (inserted : Row) :
    rowWeight (splice row col inserted) =
      rowWeight (row.take col) * rowWeight inserted * rowWeight (row.drop (col + 1)) := by
  simp [splice, Nat.mul_assoc]

theorem rowWeight_at (row : Row) (col : Nat) :
    rowWeight row = rowWeight (row.take col) * (row[col]?.getD any).weight *
      rowWeight (row.drop (col + 1)) := by
  induction row generalizing col with
  | nil => simp [rowWeight, any, Pat.weight]
  | cons p ps ih =>
    cases col with
    | zero => simp [rowWeight]
    | succ col =>
      simp only [List.take_succ_cons, List.drop_succ_cons, List.getElem?_cons_succ, rowWeight]
      rw [ih col, Nat.mul_assoc, Nat.mul_assoc, Nat.mul_assoc]

theorem rowWeight_splice_le {row inserted : Row} {col : Nat}
    (le : rowWeight inserted ≤ (row[col]?.getD any).weight) :
    rowWeight (splice row col inserted) ≤ rowWeight row := by
  rw [rowWeight_splice, rowWeight_at row col]
  exact Nat.mul_le_mul_right _ (Nat.mul_le_mul_left _ le)

theorem rowWeight_splice_lt {row inserted : Row} {col : Nat}
    (lt : rowWeight inserted < (row[col]?.getD any).weight) :
    rowWeight (splice row col inserted) < rowWeight row := by
  rw [rowWeight_splice, rowWeight_at row col]
  exact Nat.mul_lt_mul_of_pos_right
    (Nat.mul_lt_mul_of_pos_left lt (rowWeight_pos _)) (rowWeight_pos _)

/-- The lines weigh less after a step that shrinks every line it keeps and at least one of them, or
drops that one. -/
theorem weight_filterMap {shrink : Line → Option Line} {lines : List Line}
    (le : ∀ {line result}, shrink line = some result → rowWeight result.pats ≤ rowWeight line.pats)
    (lt : ∃ line ∈ lines, ∀ result, shrink line = some result →
      rowWeight result.pats < rowWeight line.pats) :
    rowsWeight ((lines.filterMap shrink).map (·.pats)) < rowsWeight (lines.map (·.pats)) := by
  have le' : ∀ lines : List Line,
      rowsWeight ((lines.filterMap shrink).map (·.pats)) ≤ rowsWeight (lines.map (·.pats)) := by
    intro lines
    induction lines with
    | nil => simp
    | cons line lines ih =>
      cases found : shrink line with
      | none =>
        rw [List.filterMap_cons_none found]
        simp only [rowsWeight, List.map_cons, total_cons] at *
        omega
      | some result =>
        have := le found
        rw [List.filterMap_cons_some found]
        simp only [rowsWeight, List.map_cons, total_cons] at *
        omega
  induction lines with
  | nil => simp at lt
  | cons line lines ih =>
    have rest := le' lines
    obtain ⟨chosen, member, smaller⟩ := lt
    cases found : shrink line with
    | none =>
      have := rowWeight_pos line.pats
      rw [List.filterMap_cons_none found]
      simp only [rowsWeight, List.map_cons, total_cons] at *
      omega
    | some result =>
      rw [List.filterMap_cons_some found]
      rcases List.mem_cons.mp member with rfl | member
      · have := smaller result found
        simp only [rowsWeight, List.map_cons, total_cons] at *
        omega
      · have := ih ⟨chosen, member, smaller⟩
        have := le found
        simp only [rowsWeight, List.map_cons, total_cons] at *
        omega

theorem rowWeight_specialize? {col arity : Nat} {source : Term} {head : Head}
    {line result : Line} (found : line.specialize? col source head arity = some result) :
    rowWeight result.pats ≤ rowWeight line.pats := by
  simp only [Line.specialize?] at found
  split at found
  · simp only [Option.some.injEq] at found
    rw [← found]
    exact rowWeight_splice_le (by rw [rowWeight_anys]; exact weight_pos _)
  · split at found
    · rename_i same
      simp only [Option.some.injEq] at found
      rw [← found]
      exact Nat.le_of_lt (rowWeight_splice_lt (rowWeight_fields_lt same))
    · simp at found

theorem weight_specialize {problem : Problem} {col : Nat} {head : Head} (fields : List Term)
    (occurs : head ∈ problem.heads col) :
    (problem.specialize col head fields).weight < problem.weight := by
  have mem : head ∈ problem.lines.filterMap fun line => (line.at col).head? := by
    simpa [Problem.heads] using occurs
  obtain ⟨line, member, same⟩ := List.mem_filterMap.mp mem
  refine weight_filterMap rowWeight_specialize? ⟨line, member, fun result found => ?_⟩
  have notWild : (line.at col).isWild = false := by
    cases shape : line.at col <;> simp_all [Pat.head?, Pat.isWild]
  simp only [Line.specialize?, notWild, Bool.false_eq_true, if_false, same, if_true,
    Option.some.injEq] at found
  rw [← found]
  exact rowWeight_splice_lt (rowWeight_fields_lt same)

theorem weight_default {problem : Problem} {col : Nat}
    (tested : ∃ line ∈ problem.lines, (line.at col).isWild = false) :
    (problem.default col).weight < problem.weight := by
  obtain ⟨line, member, notWild⟩ := tested
  refine weight_filterMap (fun {line result} found => ?_) ⟨line, member, fun result found => ?_⟩
  · simp only [Line.default?] at found
    split at found
    · simp only [Option.some.injEq] at found
      rw [← found]
      exact rowWeight_splice_le (by rw [rowWeight]; exact weight_pos _)
    · simp at found
  · simp [Line.default?, notWild] at found

theorem rowWeight_set (row : Row) (col : Nat) (inside : col < row.length) (p : Pat) :
    rowWeight (row.set col p) =
      rowWeight (row.take col) * p.weight * rowWeight (row.drop (col + 1)) := by
  rw [List.set_eq_take_append_cons_drop, if_pos inside]
  simp [rowWeight, Nat.mul_assoc]

theorem rowsWeight_expand (col : Nat) (line : Line) :
    rowsWeight ((line.expand col).map (·.pats)) ≤ rowWeight line.pats ∧
      ((line.at col).isOneOf = true →
        rowsWeight ((line.expand col).map (·.pats)) < rowWeight line.pats) := by
  by_cases inside : col < line.pats.length
  · have scale : ∀ ps : List Pat,
        rowsWeight ((ps.map fun p => { line with pats := line.pats.set col p }).map (·.pats)) =
          rowWeight (line.pats.take col) * totalWeight ps *
            rowWeight (line.pats.drop (col + 1)) := by
      intro ps
      induction ps with
      | nil => simp [rowsWeight, totalWeight]
      | cons p ps ih =>
        simp only [rowsWeight, List.map_cons, total_cons, totalWeight] at *
        rw [ih, rowWeight_set line.pats col inside, ← Nat.add_mul, ← Nat.mul_add]
    rw [Line.expand, scale, rowWeight_at line.pats col]
    constructor
    · exact Nat.mul_le_mul_right _ (Nat.mul_le_mul_left _ (totalWeight_alternatives _))
    · intro isOneOf
      have lt : totalWeight (line.at col).alternatives < (line.pats[col]?.getD any).weight := by
        change _ < (line.at col).weight
        cases shape : line.at col <;> simp_all [Pat.isOneOf]
        rename_i ps
        have := totalWeight_alternativesAll ps
        simp only [alternatives, Pat.weight]
        omega
      exact Nat.mul_lt_mul_of_pos_right
        (Nat.mul_lt_mul_of_pos_left lt (rowWeight_pos _)) (rowWeight_pos _)
  · have outside : line.at col = any := by
      simp [Line.at, List.getElem?_eq_none (Nat.le_of_not_lt inside)]
    have same : line.pats.set col any = line.pats :=
      List.set_eq_of_length_le (Nat.le_of_not_lt inside)
    have only : (line.expand col).map (·.pats) = [line.pats] := by
      rw [Line.expand, outside]
      simp only [any, alternatives, List.map_cons, List.map_nil]
      exact congrArg (fun row => [row]) same
    rw [only, outside]
    simp [rowsWeight, any, Pat.isOneOf]

theorem weight_expand {problem : Problem} {col : Nat}
    (some : ∃ line ∈ problem.lines, (line.at col).isOneOf = true) :
    (problem.expand col).weight < problem.weight := by
  have general : ∀ lines : List Line,
      rowsWeight ((lines.flatMap (Line.expand col)).map (·.pats)) ≤
          rowsWeight (lines.map (·.pats)) ∧
        ((∃ line ∈ lines, (line.at col).isOneOf = true) →
          rowsWeight ((lines.flatMap (Line.expand col)).map (·.pats)) <
            rowsWeight (lines.map (·.pats))) := by
    intro lines
    induction lines with
    | nil => simp
    | cons line lines ih =>
      have here := rowsWeight_expand col line
      have sum : rowsWeight (((line :: lines).flatMap (Line.expand col)).map (·.pats)) =
          rowsWeight ((line.expand col).map (·.pats)) +
            rowsWeight ((lines.flatMap (Line.expand col)).map (·.pats)) := by
        simp [rowsWeight]
      rw [sum]
      simp only [rowsWeight, List.map_cons, total_cons] at *
      refine ⟨by omega, fun ⟨chosen, member, isOneOf⟩ => ?_⟩
      rcases List.mem_cons.mp member with rfl | member
      · have := here.2 isOneOf
        omega
      · have := ih.2 ⟨chosen, member, isOneOf⟩
        omega
  exact (general problem.lines).2 some

theorem branches_smaller {registry : Registry} {family : Family} {problem : Problem} {col : Nat}
    {heads : List Head} (occur : ∀ head ∈ heads, head ∈ problem.heads col)
    {supply : NameSupply} {branch : Pat × Problem}
    (mem : branch ∈ ((branches registry family problem col heads).run supply).1) :
    branch.2.weight < problem.weight := by
  induction heads generalizing supply with
  | nil =>
    change branch ∈ [] at mem
    simp at mem
  | cons head heads ih =>
    simp only [branches, StateT.run_bind, StateT.run_pure] at mem
    rcases List.mem_cons.mp mem with rfl | mem
    · exact weight_specialize _ (occur head List.mem_cons_self)
    · exact ih (fun h member => occur h (List.mem_cons_of_mem _ member)) mem

theorem isWild_at_column {line : Line} {col : Nat} (found : Problem.column? line = some col) :
    (line.at col).isWild = false := by
  obtain ⟨inside, tested, -⟩ := List.findIdx?_eq_some_iff_getElem.mp found
  simpa [Line.at, List.getElem?_eq_getElem inside] using tested

theorem split_below (registry : Registry) (family : Family) (problem : Problem) (col : Nat)
    (supply : NameSupply) (tested : ∃ line ∈ problem.lines, (line.at col).isWild = false) :
    (((problem.split registry family col).run supply).1).Below problem.weight := by
  have heads := @branches_smaller registry family problem col (problem.heads col)
    (fun head member => member) supply
  unfold Problem.split
  simp only [StateT.run_bind]
  split
  · intro part member
    rcases List.mem_append.mp member with member | member
    · exact heads member
    · rw [List.mem_singleton.mp member]
      exact weight_default tested
  · intro part member
    exact heads member

theorem step_below (subst : Subst) (registry : Registry) (problem : Problem)
    (supply : NameSupply) :
    (((problem.step subst registry).run supply).1).Below problem.weight := by
  unfold Problem.step
  split
  · trivial
  · rename_i first rest lines
    split
    · trivial
    · rename_i col column
      split
      · rename_i alternatives
        refine weight_expand ?_
        simpa using alternatives
      · exact split_below registry _ problem col supply
          ⟨first, by simp [lines], isWild_at_column column⟩

end Weight

/-- The captured names of a selected line: those of its way, then those of its columns. -/
def Line.allCaptured (line : Line) (sources : List Term) : List (Name × Term) :=
  line.captured ++ (line.pats.zip sources).filterMap fun
    | (.wild (some name), source) => some (name, source)
    | _ => none

/-- The action of a selected line behind one match that binds what the line captures. -/
def leafTerm (actions : List Term) (ty : Ty) (sources : List Term) (line : Line) : Term :=
  let body := actions[line.action]?.getD (.failure ty)
  match line.allCaptured sources with
  | [] => body
  | [(name, source)] => .matchOn source [⟨.capturing name, body⟩] ty
  | captured =>
    let values := captured.map (·.2)
    .matchOn (.tuple values (.tuple (values.map Term.ty)))
      [⟨.tuple (captured.map fun (name, _) => .capturing name), body⟩] ty

def build (subst : Subst) (registry : Registry) (actions : List Term) (ty : Ty)
    (problem : Problem) : StateM NameSupply Term := fun supply =>
  match (problem.step subst registry).run supply, step_below subst registry problem supply with
  | (.fail, supply), _ => (.failure ty, supply)
  | (.leaf line, supply), _ => (leafTerm actions ty problem.sources line, supply)
  | (.again rest, supply), lighter =>
    have : rest.weight < problem.weight := lighter
    build subst registry actions ty rest supply
  | (.switch source parts, supply), lighter =>
    let arm (entry : { part // part ∈ parts }) : StateM NameSupply Arm := do
      have : entry.1.2.weight < problem.weight := lighter entry.1 entry.2
      let body ← build subst registry actions ty entry.1.2
      pure ⟨entry.1.1, body⟩
    let (arms, supply) := (parts.attach.mapM arm).run supply
    (.matchOn source arms ty, supply)
termination_by problem.weight

/-- Turns a match into a decision tree over a minted name for the scrutinee. -/
def compile (subst : Subst) (registry : Registry) (scrutinee : Term) (arms : List Arm) (ty : Ty) :
    StateM NameSupply Term := do
  let scrutineeTy := subst.zonk scrutinee.ty
  let name ← modifyGet (·.mint "m")
  let lines := arms.zipIdx.map fun (arm, action) => Line.mk [arm.pat] [] action
  let tree ← build subst registry (arms.map (·.body)) ty ⟨[.var name scrutineeTy], lines⟩
  pure (.letIn false [⟨name, .mono scrutineeTy, scrutinee⟩] tree ty)

end PolyCheck.Decision
