import PolyCheck.Kind
import PolyCheck.Total

/-! Solutions of kind variables. A solution may mention further variables; it is looked through on
demand, and no variable is ever solved by a kind that contains it, so chasing solutions ends. The
budgets below exceed every depth that a table without such a cycle can reach. -/
namespace PolyCheck

structure KindTable where
  solutions : Array (Option Kind)

namespace KindTable

def empty : KindTable := ⟨#[]⟩

def count (table : KindTable) : Nat := table.solutions.size

def fresh (table : KindTable) : Kind × KindTable :=
  (.var table.count, ⟨table.solutions.push none⟩)

def solution? (table : KindTable) (index : Nat) : Option Kind :=
  table.solutions[index]?.join

def solve (table : KindTable) (index : Nat) (kind : Kind) : KindTable :=
  ⟨table.solutions.setIfInBounds index (some kind)⟩

def headWithin (table : KindTable) : Nat → Kind → Kind
  | steps + 1, .var index =>
    match table.solution? index with
    | some kind => headWithin table steps kind
    | none => .var index
  | _, kind => kind

/-- The kind with solved variables at its head looked through. -/
def head (table : KindTable) (kind : Kind) : Kind :=
  table.headWithin (table.count + 1) kind

def mass (table : KindTable) : Nat :=
  total (table.solutions.toList.map fun solution => (solution.map Kind.size).getD 0)

/-- Levels that a walk from a kind of this size through all solutions can have. -/
def depthBound (table : KindTable) (size : Nat) : Nat :=
  table.mass + size + 1

def resolveWithin (table : KindTable) : Nat → Kind → Kind
  | 0, kind => kind
  | depth + 1, kind =>
    match table.head kind with
    | .arrow param result =>
      .arrow (resolveWithin table depth param) (resolveWithin table depth result)
    | other => other

def resolve (table : KindTable) (kind : Kind) : Kind :=
  table.resolveWithin (table.depthBound kind.size) kind

def defaultedWithin (table : KindTable) : Nat → Kind → Kind
  | 0, _ => .star
  | depth + 1, kind =>
    match table.head kind with
    | .arrow param result =>
      .arrow (defaultedWithin table depth param) (defaultedWithin table depth result)
    | _ => .star

/-- The kind with every solved variable replaced, and `*` for the unsolved ones. -/
def defaulted (table : KindTable) (kind : Kind) : Kind :=
  table.defaultedWithin (table.depthBound kind.size) kind

def occursWithin (table : KindTable) (index : Nat) : Nat → Kind → Bool
  | 0, _ => false
  | depth + 1, kind =>
    match table.head kind with
    | .var other => other == index
    | .arrow param result =>
      occursWithin table index depth param || occursWithin table index depth result
    | .star => false

/-- Whether an unsolved variable is part of a kind. -/
def occurs (table : KindTable) (index : Nat) (kind : Kind) : Bool :=
  table.occursWithin index (table.depthBound kind.size) kind

def assign (table : KindTable) (index : Nat) (kind : Kind) : Bool × KindTable :=
  if table.occurs index kind then (false, table) else (true, table.solve index kind)

/-- Makes two kinds equal, results before parameters. What was solved before a failure stays. -/
def unifyWithin : Nat → KindTable → Kind → Kind → Bool × KindTable
  | 0, table, _, _ => (false, table)
  | depth + 1, table, left, right =>
    match table.head left, table.head right with
    | .star, .star => (true, table)
    | .var x, .var y => if x = y then (true, table) else table.assign x (.var y)
    | .var x, kind => table.assign x kind
    | kind, .var x => table.assign x kind
    | .arrow p r, .arrow q s =>
      match unifyWithin depth table r s with
      | (true, table) => unifyWithin depth table p q
      | failed => failed
    | _, _ => (false, table)

/-- Makes two kinds equal by solving variables; tells whether that is possible. -/
def unify (table : KindTable) (left right : Kind) : Bool × KindTable :=
  unifyWithin ((table.count + 1) * table.depthBound (left.size + right.size)) table left right

end KindTable

end PolyCheck
