import PolyCheck.Name
import PolyCheck.Total
import PolyCheck.Ty

/-! The cells of type variables. A cell is unbound, rigid, a link to another variable, or bound to a
type. While a snapshot is open, the previous content of every cell that is written goes to a
journal, so that a rollback gives back exactly the cells of the snapshot. -/
namespace PolyCheck

inductive Cell where
  | unbound
  | rigid (name : Option Name)
  | link (target : TyVar)
  | bound (ty : Ty)
deriving DecidableEq, Inhabited

def Cell.size : Cell → Nat
  | .bound ty => ty.size
  | _ => 0

def cellMass (cells : Array Cell) : Nat :=
  total (cells.toList.map Cell.size)

theorem cellMass_push (cells : Array Cell) (cell : Cell) :
    cellMass (cells.push cell) = cellMass cells + cell.size := by
  simp [cellMass]

structure SubstMark where
  cells : Nat
  journal : Nat
deriving DecidableEq, Inhabited

/-- The journal holds the latest write first; `opened` counts the open snapshots. The mass of the
cells is kept because every bound on a walk over types needs it. -/
structure Subst where
  cells : Array Cell
  journal : List (TyVar × Cell)
  opened : Nat
  mass : Nat
  mass_eq : mass = cellMass cells
deriving DecidableEq

namespace Subst

theorem ext_parts {subst subst' : Subst} (cells : subst.cells = subst'.cells)
    (journal : subst.journal = subst'.journal) (opened : subst.opened = subst'.opened) :
    subst = subst' := by
  obtain ⟨cs, js, o, mass, eq⟩ := subst
  obtain ⟨cs', js', o', mass', eq'⟩ := subst'
  simp only at cells journal opened
  subst cells journal opened eq eq'
  rfl

def empty : Subst := ⟨#[], [], 0, 0, rfl⟩

instance : Inhabited Subst := ⟨empty⟩

def size (subst : Subst) : Nat := subst.cells.size

def push (subst : Subst) (cell : Cell) : TyVar × Subst :=
  (⟨subst.size⟩,
    { subst with
      cells := subst.cells.push cell
      mass := subst.mass + cell.size
      mass_eq := by rw [cellMass_push, subst.mass_eq] })

def fresh (subst : Subst) : TyVar × Subst := subst.push .unbound

/-- A new rigid variable with the name of its quantifier. -/
def freshRigid (subst : Subst) (name : Name) : TyVar × Subst := subst.push (.rigid (some name))

def freshSkolem (subst : Subst) : TyVar × Subst := subst.push (.rigid none)

def pushMany (subst : Subst) (cell : Cell) : Nat → List TyVar × Subst
  | 0 => ([], subst)
  | count + 1 =>
    let (var, subst) := subst.push cell
    let (vars, subst) := pushMany subst cell count
    (var :: vars, subst)

/-- The cell of a variable, without following links. -/
def cell (subst : Subst) (var : TyVar) : Cell :=
  subst.cells[var.index]?.getD .unbound

def massAfter (subst : Subst) (var : TyVar) (cell : Cell) : Nat :=
  if var.index < subst.cells.size then subst.mass - (subst.cell var).size + cell.size
  else subst.mass

theorem massAfter_eq (subst : Subst) (var : TyVar) (cell : Cell) :
    subst.massAfter var cell = cellMass (subst.cells.setIfInBounds var.index cell) := by
  rw [massAfter, subst.mass_eq]
  split
  · rename_i inside
    rw [cellMass, cellMass, Array.toList_setIfInBounds, List.map_set,
      total_set _ _ (by simpa using inside)]
    simp [Subst.cell, inside]
  · rename_i outside
    rw [Array.setIfInBounds_eq_of_size_le (Nat.le_of_not_lt outside)]

def write (subst : Subst) (var : TyVar) (cell : Cell) : Subst :=
  { subst with
    cells := subst.cells.setIfInBounds var.index cell
    journal := if subst.opened = 0 then subst.journal else (var, subst.cell var) :: subst.journal
    mass := subst.massAfter var cell
    mass_eq := subst.massAfter_eq var cell }

def rootWithin (subst : Subst) : Nat → TyVar → TyVar
  | 0, var => var
  | steps + 1, var =>
    match subst.cell var with
    | .link target => rootWithin subst steps target
    | _ => var

/-- The end of the chain of links that starts at a variable. A chain without a cycle visits every
cell once at most. -/
def root (subst : Subst) (var : TyVar) : TyVar :=
  subst.rootWithin subst.size var

def compressWithin (root : TyVar) : Nat → TyVar → Subst → Subst
  | 0, _, subst => subst
  | steps + 1, var, subst =>
    match subst.cell var with
    | .link target =>
      compressWithin root steps target
        (if target = root then subst else subst.write var (.link root))
    | _ => subst

/-- The root of a variable; every link on the way is pointed at it. -/
def find (subst : Subst) (var : TyVar) : TyVar × Subst :=
  (subst.root var, compressWithin (subst.root var) subst.size var subst)

def rootCell (subst : Subst) (var : TyVar) : Cell :=
  subst.cell (subst.root var)

def isRigid (subst : Subst) (var : TyVar) : Bool :=
  match subst.rootCell var with
  | .rigid _ => true
  | _ => false

def isUnbound (subst : Subst) (var : TyVar) : Bool :=
  subst.rootCell var = .unbound

def rigidName? (subst : Subst) (var : TyVar) : Option Name :=
  match subst.rootCell var with
  | .rigid name => name
  | _ => none

/-- Makes an unbound root an alias of another variable. -/
def link (subst : Subst) (var target : TyVar) : Subst :=
  subst.write var (.link target)

def bind (subst : Subst) (var : TyVar) (ty : Ty) : Subst :=
  subst.write var (.bound ty)

def snapshot (subst : Subst) : SubstMark × Subst :=
  (⟨subst.size, subst.journal.length⟩, { subst with opened := subst.opened + 1 })

def close (subst : Subst) : Subst :=
  { subst with
    opened := subst.opened - 1
    journal := if subst.opened - 1 = 0 then [] else subst.journal }

def commit (subst : Subst) : Subst := subst.close

/-- Writes journaled contents back, the latest first. -/
def undo (cells : Array Cell) (journal : List (TyVar × Cell)) : Array Cell :=
  journal.foldl (fun cells (var, old) => cells.setIfInBounds var.index old) cells

/-- Undoes every write and drops every variable since the snapshot. -/
def rollback (subst : Subst) (mark : SubstMark) : Subst :=
  let count := subst.journal.length - mark.journal
  let cells := (undo subst.cells (subst.journal.take count)).take mark.cells
  { subst with
    cells
    journal := subst.journal.drop count
    mass := cellMass cells
    mass_eq := rfl }.close

end Subst

end PolyCheck
