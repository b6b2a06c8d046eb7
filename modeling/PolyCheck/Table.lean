/-! Finite maps as lists of entries with pairwise different keys. A new key goes to the end and a
known one keeps its place, so undoing an insertion gives back the very same list. -/
namespace PolyCheck

structure Table (κ β : Type) where
  entries : List (κ × β)
deriving DecidableEq

namespace Table

variable {κ β : Type} [DecidableEq κ]

def empty : Table κ β := ⟨[]⟩

instance : Inhabited (Table κ β) := ⟨empty⟩

def get? (table : Table κ β) (key : κ) : Option β :=
  table.entries.lookup key

def contains (table : Table κ β) (key : κ) : Bool :=
  (table.get? key).isSome

def insertEntry (key : κ) (value : β) : List (κ × β) → List (κ × β)
  | [] => [(key, value)]
  | (k, v) :: rest => if k = key then (key, value) :: rest else (k, v) :: insertEntry key value rest

def insert (table : Table κ β) (key : κ) (value : β) : Table κ β :=
  ⟨insertEntry key value table.entries⟩

def erase (table : Table κ β) (key : κ) : Table κ β :=
  ⟨table.entries.filter fun entry => entry.1 ≠ key⟩

/-- Puts back what a key was mapped to before. -/
def restore (table : Table κ β) (key : κ) : Option β → Table κ β
  | some value => table.insert key value
  | none => table.erase key

def values (table : Table κ β) : List β :=
  table.entries.map (·.2)

theorem lookup_insertEntry (key : κ) (value : β) (entries : List (κ × β)) (k : κ) :
    (insertEntry key value entries).lookup k =
      if k = key then some value else entries.lookup k := by
  induction entries with
  | nil =>
    by_cases h : k = key
    · simp [insertEntry, h]
    · simp [insertEntry, List.lookup_cons, h, beq_false_of_ne h]
  | cons entry rest ih =>
    obtain ⟨k', v'⟩ := entry
    by_cases h : k' = key
    · subst h
      by_cases hk : k = k'
      · simp [insertEntry, hk]
      · simp [insertEntry, List.lookup_cons, hk, beq_false_of_ne hk]
    · by_cases hk : k = k'
      · subst hk
        simp [insertEntry, h]
      · simp [insertEntry, h, List.lookup_cons, beq_false_of_ne hk, ih]

@[simp] theorem get?_insert (table : Table κ β) (key : κ) (value : β) (k : κ) :
    (table.insert key value).get? k = if k = key then some value else table.get? k :=
  lookup_insertEntry key value table.entries k

end Table

end PolyCheck
