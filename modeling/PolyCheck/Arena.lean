/-! Append-only storage addressed by position. Values leave an arena only as a suffix: cutting it
back to a mark drops what was stored after the mark and nothing else. -/
namespace PolyCheck

structure Arena (α : Type) where
  slots : Array α

structure ArenaMark where
  length : Nat
deriving DecidableEq, Inhabited

namespace Arena

variable {α : Type}

def empty : Arena α := ⟨#[]⟩

instance : Inhabited (Arena α) := ⟨empty⟩

def size (arena : Arena α) : Nat := arena.slots.size

def isEmpty (arena : Arena α) : Bool := arena.slots.isEmpty

def alloc (arena : Arena α) (value : α) : Arena α := ⟨arena.slots.push value⟩

def nextSlot (arena : Arena α) : Nat := arena.slots.size

def get? (arena : Arena α) (slot : Nat) : Option α := arena.slots[slot]?

def contains (arena : Arena α) (slot : Nat) : Bool := slot < arena.slots.size

/-- Changes the value of a slot in use; any other slot is left out. -/
def modify (arena : Arena α) (slot : Nat) (change : α → α) : Arena α :=
  ⟨arena.slots.modify slot change⟩

def set (arena : Arena α) (slot : Nat) (value : α) : Arena α :=
  ⟨arena.slots.setIfInBounds slot value⟩

def mark (arena : Arena α) : ArenaMark := ⟨arena.slots.size⟩

/-- Drops what was stored after the mark. A mark beyond the present length drops nothing. -/
def cutTo (arena : Arena α) (mark : ArenaMark) : Arena α :=
  ⟨arena.slots.take mark.length⟩

/-- Slots with their values, in order of allocation. -/
def entries (arena : Arena α) : List (Nat × α) :=
  arena.slots.toList.zipIdx.map fun (value, slot) => (slot, value)

def slotLabel (element : String) (slot : Nat) : String :=
  "Idx::<" ++ element ++ ">(" ++ toString slot ++ ")"

end Arena

end PolyCheck
