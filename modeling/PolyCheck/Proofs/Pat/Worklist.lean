import PolyCheck.Pat.Coverage
import PolyCheck.Proofs.Pat.Inhabitation
import PolyCheck.Proofs.Pat.Refinement
import PolyCheck.Proofs.Turns
import PolyCheck.Proofs.Ty.Confined

/-! Coverage with a list of open problems instead of the recursion. Parts of the problem that is
next go to the front of the list, each with the way on which it was come to, and the first problem
without rows ends the search: what its query matches is put together along that way. Parts are
lighter than the whole, or as heavy with fewer columns, so the list is worked off. What the types of
the columns are does not matter, as long as the reduction of their heads comes to an end; a problem
on a type where it does not is never left. -/
namespace PolyCheck

section Heads

variable {subst : Subst} {registry : Registry} {ty part : Ty} {head : Head}

/-- The reduction of the head of a type comes to an end, and so it does for the types of all fields
in its values. -/
def Headed (subst : Subst) (registry : Registry) (ty : Ty) : Prop :=
  ∀ part, Component subst registry ty part → (subst.shallow? part).isSome = true

theorem Family.has_of_fieldTypes {family : Family}
    (member : part ∈ family.fieldTypes registry head) :
    ∃ head', family.Has registry head' ∧ part ∈ family.fieldTypes registry head' := by
  cases family with
  | tuple elems => exact ⟨.tuple elems.length, rfl, member⟩
  | enum template args =>
    cases head with
    | variant index =>
      refine ⟨.variant index, ⟨index, ?_, rfl⟩, member⟩
      have some : 0 < (registry.fieldsAt template index args).length :=
        List.length_pos_of_mem member
      rw [Family.length_fieldsAt] at some
      cases known : registry.case? template index with
      | none => simp [known] at some
      | some dataCase => exact Family.lt_of_case? known
    | bool _ | int _ | str _ | tuple _ => cases member
  | bool | int _ | str | unknown => cases member

theorem Headed.field (headed : Headed subst registry ty)
    (member : part ∈ (Family.of ty subst registry).fieldTypes registry head) :
    Headed subst registry part := by
  obtain ⟨head', has, inside⟩ := Family.has_of_fieldTypes member
  intro inner component
  refine headed inner ?_
  induction component with
  | self => exact .field .self has inside
  | field _ has member ih => exact .field ih has member

theorem headed_unit (subst : Subst) (registry : Registry) : Headed subst registry .unit := by
  have head : subst.shallow? .unit = some .unit := Subst.shallow?_of_head fun _ => rfl
  intro part component
  have same : part = .unit := by
    induction component with
    | self => rfl
    | field _ _ member ih =>
      rw [ih, Family.of, Subst.shallow, head] at member
      cases member
  rw [same, head]
  rfl

theorem Headed.isSome_of? (headed : Headed subst registry ty) :
    (Family.of? ty subst registry).isSome = true := by
  rw [Family.of?, Option.isSome_map]
  exact headed ty .self

/-- Where fields are first-order, so is every type that a first-order type leads to. -/
theorem Subst.Tame.headed (tame : subst.Tame) (plain : registry.Plain)
    (params : registry.ParamsWithin subst.size) (firstOrder : ty.FirstOrder subst.size) :
    Headed subst registry ty := by
  have inside : ∀ part, Component subst registry ty part → part.FirstOrder subst.size := by
    intro part component
    induction component with
    | self => exact firstOrder
    | field _ _ member ih => exact tame.firstOrder_fieldTypes plain params ih member
  intro part component
  obtain ⟨head, walk, -⟩ := tame.exists_shallow? (inside part component)
  rw [walk]
  rfl

def Ty.twice : Ty := .quantified [⟨0⟩] (.app (.var ⟨0⟩) [.var ⟨0⟩])

def Ty.selfApplied : Ty := .app .twice [.twice]

/-- No head is found for the function applied to itself, however far its reduction is followed. -/
theorem Subst.shallowWithin_selfApplied (subst : Subst) (depth : Nat) :
    subst.shallowWithin depth .selfApplied = none := by
  have again : Ty.apply Ty.twice [Ty.twice] = .selfApplied := by cbv
  induction depth with
  | zero => rfl
  | succ depth ih =>
    cases depth with
    | zero => rfl
    | succ depth =>
      have head : subst.shallowWithin (depth + 1) .twice = some .twice := rfl
      rw [Ty.selfApplied, shallowWithin, head]
      exact (congrArg (subst.shallowWithin (depth + 1)) again).trans ih

theorem Subst.shallow?_selfApplied (subst : Subst) : subst.shallow? .selfApplied = none :=
  subst.shallowWithin_selfApplied _

end Heads

namespace Coverage

section Rows

end Rows

/-- An open problem, and how an answer to it becomes an answer to the whole, the last step first. -/
structure Task where
  problem : Problem
  trail : List Rebuild

def rebuild (trail : List Rebuild) (row : Row) : Row :=
  trail.foldl (fun row step => step.apply row) row

def Task.parts (subst : Subst) (registry : Registry) (task : Task) : List Task :=
  (task.problem.parts subst registry).map fun part => ⟨part.2, part.1 :: task.trail⟩

inductive Search where
  | opened (tasks : List Task)
  | answered (row : Row)

namespace Search

variable {subst : Subst} {registry : Registry}

def turn (subst : Subst) (registry : Registry) : Search → Search
  | opened (task :: rest) =>
    if task.problem.rows.isEmpty then answered
      (rebuild task.trail (task.problem.query.map firstAlternative))
    else if task.problem.stands subst registry then opened (task :: rest)
    else opened (task.parts subst registry ++ rest)
  | opened [] => opened []
  | answered row => answered row

/-- The search behind a problem: it is over with an answer, and otherwise goes on. -/
def settled (trail : List Rebuild) (rest : List Task) : Option Row → Search
  | some row => answered (rebuild trail row)
  | none => opened rest

inductive Leads (subst : Subst) (registry : Registry) (trail : List Rebuild) (rest : List Task)
    (first : Search) : Option (Option Row) → Prop where
  | settled {answer : Option Row}
      (turns : Turns (turn subst registry) first (settled trail rest answer)) :
    Leads subst registry trail rest first (some answer)
  | standing {task : Task} {others : List Task}
      (turns : Turns (turn subst registry) first (opened (task :: others)))
    (rows : task.problem.rows.isEmpty = false)
      (stands : task.problem.stands subst registry = true) :
    Leads subst registry trail rest first none

theorem Leads.after {trail : List Rebuild} {rest : List Task} {first middle : Search}
    {outcome : Option (Option Row)} (turns : Turns (turn subst registry) first middle)
    (leads : Leads subst registry trail rest middle outcome) :
      Leads subst registry trail rest first outcome := by
  cases leads with
  | settled turns' => exact .settled (turns.trans turns')
  | standing turns' rows stands => exact .standing (turns.trans turns') rows stands

/-- The answers to some parts, up to the first part that is not covered or never left. -/
def partsSearch? (subst : Subst) (registry : Registry) :
    List (Rebuild × Problem) → Option (Option Row)
  | [] => some none
  | (step, part) :: parts =>
    match part.search? subst registry with
    | none => none
    | some (some row) => some (some (step.apply row))
    | some none => partsSearch? subst registry parts

theorem search?_eq (problem : Problem) : problem.search? subst registry =
    if problem.rows.isEmpty then some (some (problem.query.map firstAlternative))
    else if problem.stands subst registry then none
    else partsSearch? subst registry (problem.parts subst registry) := by
  have parts : ∀ (parts : List (Rebuild × Problem)) (holds : Rebuild × Problem → Prop)
      (each : ∀ part ∈ parts, holds part),
      ((parts.attachWith holds each).findSomeM? fun part : { part // holds part } =>
        (part.1.2.search? subst registry).map (·.map part.1.1.apply)) =
          partsSearch? subst registry parts := by
    intro parts holds each
    induction parts with
    | nil => rfl
    | cons part parts ih =>
      obtain ⟨step, part⟩ := part
      rw [List.attachWith_cons, List.findSomeM?, partsSearch?, ih]
      rcases part.search? subst registry with _ | _ | row <;> rfl
  rw [Problem.search?]
  refine if_congr Iff.rfl rfl (if_congr Iff.rfl rfl ?_)
  exact parts _ _ fun _ member => member

theorem uncovered?_eq (problem : Problem) : problem.uncovered? subst registry =
    if problem.rows.isEmpty then some (problem.query.map firstAlternative)
    else (problem.parts subst registry).findSome? fun part =>
    (part.2.uncovered? subst registry).map part.1.apply := by
  rw [Problem.uncovered?]
  refine if_congr Iff.rfl rfl ?_
  rw [List.findSome?_subtype (g := fun part : Rebuild × Problem =>
    (part.2.uncovered? subst registry).map part.1.apply) fun _ _ => rfl, List.unattach_attach]

theorem uncovered?_of_search? {problem : Problem} {answer : Option Row}
    (found : problem.search? subst registry = some answer) :
      problem.uncovered? subst registry = answer := by
  induction problem using Problem.uncovered?.induct subst registry generalizing answer with
  | case1 problem empty =>
    rw [search?_eq, if_pos empty] at found
    rw [uncovered?_eq, if_pos empty, ← Option.some.inj found]
  | case2 problem nonempty ih =>
    rw [search?_eq, if_neg nonempty] at found
    split at found
    · cases found
    rw [uncovered?_eq, if_neg nonempty]
    have each : ∀ part ∈ problem.parts subst registry, ∀ {answer}, part.2.search? subst registry =
      some answer →
        part.2.uncovered? subst registry = answer := fun part member _ => ih part.1 part.2 member
    generalize problem.parts subst registry = parts at found each
    induction parts with
    | nil => exact Option.some.inj found
    | cons part parts ihParts =>
      obtain ⟨here, others⟩ := List.forall_mem_cons.mp each
      rw [partsSearch?] at found
      rw [List.findSome?_cons]
      split at found
      · cases found
      next row search =>
        rw [here search]
        exact Option.some.inj found
      next search =>
        rw [here search]
        exact ihParts found others

end Search

/-- The heads of all types that the search may look at can be found. -/
def Problem.Headed (subst : Subst) (registry : Registry) (problem : Problem) : Prop :=
  ∀ ty ∈ problem.types, PolyCheck.Headed subst registry ty

section Headed

variable {subst : Subst} {registry : Registry} {problem : Problem}

theorem Problem.Headed.headD (headed : problem.Headed subst registry) :
    PolyCheck.Headed subst registry (problem.types.headD .unit) := by
  cases same : problem.types with
  | nil => exact headed_unit subst registry
  | cons ty types => exact headed ty (same ▸ List.mem_cons_self)

theorem Problem.Headed.moves (headed : problem.Headed subst registry) :
    problem.stands subst registry = false := by
  rw [Problem.stands, Bool.and_eq_false_iff, Option.isNone_eq_false_iff]
  exact .inr headed.headD.isSome_of?

theorem Problem.Headed.part (headed : problem.Headed subst registry) {part : Problem}
    {step : Rebuild}
    (member : (step, part) ∈ problem.parts subst registry) : part.Headed subst registry := by
  have behind : ∀ ty ∈ problem.types.tail, PolyCheck.Headed subst registry ty :=
    fun ty inside => headed ty (List.mem_of_mem_tail inside)
  have inFields : ∀ head, ∀ ty ∈ (problem.family subst registry).fieldTypes registry head,
      PolyCheck.Headed subst registry ty := fun head ty inside => headed.headD.field inside
  have specialized : ∀ head fields, (problem.specialized subst registry head fields).2.Headed
      subst registry :=
    fun head fields ty inside => (List.mem_append.mp inside).elim (inFields head ty) (behind ty)
  unfold Problem.parts at member
  split at member
  · cases member
  · obtain ⟨p, -, same⟩ := List.mem_map.mp member
    obtain rfl := (Prod.mk.inj same).2
    exact headed
  · dsimp only at member
    split at member
    · obtain rfl := (Prod.mk.inj (List.mem_singleton.mp member)).2
      exact behind
    · obtain ⟨head, -, same⟩ := List.mem_map.mp member
      exact (Prod.mk.inj same).2 ▸ specialized head _
  · split at member
    · exact (Prod.mk.inj (List.mem_singleton.mp member)).2 ▸ specialized _ _
    · cases member

theorem Problem.Headed.search?_eq (headed : problem.Headed subst registry) :
    problem.search? subst registry = some (problem.uncovered? subst registry) := by
  have ends : (problem.search? subst registry).isSome = true := by
    induction problem using Problem.uncovered?.induct subst registry with
    | case1 problem empty =>
      rw [Search.search?_eq, if_pos empty]
      rfl
    | case2 problem nonempty ih =>
      rw [Search.search?_eq, if_neg nonempty, if_neg (Bool.eq_false_iff.mp headed.moves)]
      have each : ∀ part ∈ problem.parts subst registry,
          (part.2.search? subst registry).isSome = true :=
        fun part member => ih part.1 part.2 member (headed.part member)
      generalize problem.parts subst registry = parts at each
      induction parts with
      | nil => rfl
      | cons part parts ihParts =>
        obtain ⟨here, others⟩ := List.forall_mem_cons.mp each
        obtain ⟨answer, found⟩ := Option.isSome_iff_exists.mp here
        rw [Search.partsSearch?, found]
        cases answer with
        | none => exact ihParts others
        | some row => rfl
  obtain ⟨answer, found⟩ := Option.isSome_iff_exists.mp ends
  rw [found, Search.uncovered?_of_search? found]

theorem stands_selfApplied (subst : Subst) (registry : Registry) (rows : List Row) (query : Row)
    (types : List Ty) :
    Problem.stands subst registry ⟨rows, .any :: query, .selfApplied :: types⟩ = true := by
  rw [Problem.stands, Family.of?, List.headD_cons, subst.shallow?_selfApplied]
  rfl

/-- The search never gets past a column on a type without a head. -/
theorem turn_selfApplied (subst : Subst) (registry : Registry) (row : Row) (rows : List Row)
    (query : Row) (types : List Ty) (trail : List Rebuild) (rest : List Task) :
    Search.turn subst registry
    (.opened (⟨⟨row :: rows, .any :: query, .selfApplied :: types⟩, trail⟩ :: rest)) =
      .opened (⟨⟨row :: rows, .any :: query, .selfApplied :: types⟩, trail⟩ :: rest) := by
  rw [Search.turn, if_neg (by simp), if_pos (stands_selfApplied subst registry _ _ _)]

end Headed

/-- What an open problem gives way to when the search goes on behind an answer. -/
def Task.next (subst : Subst) (registry : Registry) (task : Task) : List Task :=
  if task.problem.rows.isEmpty then []
  else if task.problem.stands subst registry then [task]
  else task.parts subst registry

end Coverage

end PolyCheck
