import Mathlib
import PolyCheck.Name

/-! Minted names never come back. A name is made of a percent sign, a stem without digits and a
number, so it tells its stem and its number; a supply that has moved on mints other names. -/
namespace PolyCheck

theorem lookup_eq_some_iff {β : Type} {entries : List (Name × β)}
    (distinct : (entries.map (·.1)).Nodup) {name : Name} {value : β} :
    entries.lookup name = some value ↔ (name, value) ∈ entries := by
  induction entries with
  | nil => simp
  | cons entry rest ih =>
    obtain ⟨first, found⟩ := entry
    rw [List.map_cons, List.nodup_cons] at distinct
    by_cases same : name = first
    · subst same
      have absent : (name, value) ∉ rest :=
        fun member => distinct.1 (List.mem_map.mpr ⟨_, member, rfl⟩)
      simp [absent, eq_comm]
    · simp [List.lookup_cons, beq_false_of_ne same, ih distinct.2, same]

theorem rel_lookup {α β : Type} {related : α → β → Prop} {entries : List (Name × α)}
    {entries' : List (Name × β)}
    (each : List.Forall₂ (fun entry entry' => entry.1 = entry'.1 ∧ related entry.2 entry'.2)
      entries entries') (name : Name) :
    Option.Rel related (entries.lookup name) (entries'.lookup name) := by
  induction each with
  | nil => exact .none
  | @cons entry entry' _ _ first _ ih =>
    obtain ⟨known, value⟩ := entry
    obtain ⟨known', value'⟩ := entry'
    obtain ⟨rfl, holds⟩ := first
    by_cases same : name = known
    · simpa [same] using holds
    · simpa [List.lookup, beq_false_of_ne same] using ih

/-- A text that ends before the number begins. -/
def IsStem (stem : String) : Prop := ∀ c ∈ stem.toList, c.isDigit = false

instance (stem : String) : Decidable (IsStem stem) :=
  @List.decidableBAll Char (fun c => c.isDigit = false) _ stem.toList

theorem filter_digits {stem : List Char} (plain : ∀ c ∈ stem, c.isDigit = false) (number : Nat) :
    (stem ++ Nat.toDigits 10 number).filter Char.isDigit = Nat.toDigits 10 number ∧
      (stem ++ Nat.toDigits 10 number).filter (fun c => !c.isDigit) = stem := by
  have all : ∀ c ∈ Nat.toDigits 10 number, c.isDigit = true := fun c member =>
    Nat.isDigit_of_mem_toDigits (by decide) (by decide) member
  constructor
  · rw [List.filter_append, List.filter_eq_self.mpr all,
      List.filter_eq_nil_iff.mpr fun c member => by simp [plain c member], List.nil_append]
  · rw [List.filter_append, List.filter_eq_self.mpr fun c member => by simp [plain c member],
      List.filter_eq_nil_iff.mpr fun c member => by simp [all c member], List.append_nil]

theorem append_digits_inj {first second : List Char} {number number' : Nat}
    (plain : ∀ c ∈ first, c.isDigit = false) (plain' : ∀ c ∈ second, c.isDigit = false)
    (same : first ++ Nat.toDigits 10 number = second ++ Nat.toDigits 10 number') :
    first = second ∧ number = number' := by
  have numbers : Nat.toDigits 10 number = Nat.toDigits 10 number' := by
    rw [← (filter_digits plain number).1, same, (filter_digits plain' number').1]
  constructor
  · rw [← (filter_digits plain number).2, same, (filter_digits plain' number').2]
  · rw [← @Nat.ofDigitChars_ten_toDigits number, numbers, Nat.ofDigitChars_ten_toDigits]

theorem minted_inj {stem stem' : String} {index index' : Nat} (plain : IsStem stem)
    (plain' : IsStem stem')
    (same : "%" ++ stem ++ toString index = "%" ++ stem' ++ toString index') :
    stem = stem' ∧ index = index' := by
  have chars := congrArg String.toList same
  simp only [String.toList_append, List.append_assoc, Nat.toString_eq_repr, Nat.toList_repr,
    List.append_cancel_left_eq] at chars
  obtain ⟨stems, indices⟩ := append_digits_inj plain plain' chars
  exact ⟨String.toList_injective stems, indices⟩

namespace Name

/-- What a name has for a stem, if it is minted. -/
def stem (name : Name) : String := String.ofList ((name.toList.drop 1).filter fun c => !c.isDigit)

/-- What a name has for a number, if it is minted. -/
def number (name : Name) : Nat := Nat.ofDigitChars 10 ((name.toList.drop 1).filter Char.isDigit) 0

/-- A minted name with another number. Other names stay. -/
def renumber (numbering : Nat → Nat) (name : Name) : Name :=
  if name = "%" ++ name.stem ++ toString name.number then
    "%" ++ name.stem ++ toString (numbering name.number)
  else name

variable {numbering : Nat → Nat}

theorem isStem_stem (name : Name) : IsStem name.stem := by
  intro c member
  rw [stem, String.toList_ofList] at member
  simpa using (List.mem_filter.mp member).2

theorem stem_number_minted {stem : String} (plain : IsStem stem) (index : Nat) :
    Name.stem ("%" ++ stem ++ toString index) = stem ∧
      Name.number ("%" ++ stem ++ toString index) = index := by
  have chars : (("%" ++ stem ++ toString index).toList.drop 1) = stem.toList ++
      Nat.toDigits 10 index := by
    simp [String.toList_append, Nat.toString_eq_repr, Nat.toList_repr]
  obtain ⟨digits, rest⟩ := filter_digits plain index
  rw [Name.stem, Name.number, chars, digits, rest, String.ofList_toList,
    Nat.ofDigitChars_ten_toDigits]
  exact ⟨rfl, rfl⟩

theorem renumber_minted {stem : String} (plain : IsStem stem) (index : Nat) :
    Name.renumber numbering ("%" ++ stem ++ toString index) = "%" ++ stem ++ toString
    (numbering index) := by
  obtain ⟨same, same'⟩ := stem_number_minted plain index
  rw [renumber, same, same', if_pos rfl]

theorem renumber_of_not_minted {name : Name} (written : name.isMinted = false) :
    name.renumber numbering = name := by
  refine if_neg fun minted => ?_
  rw [minted] at written
  simp [isMinted] at written

theorem renumber_injective (distinct : Function.Injective numbering) :
    Function.Injective (renumber numbering) := by
  -- A name that stays is not minted, so it is not what a minted name becomes.
  have apart : ∀ {first second : Name}, first = "%" ++ first.stem ++ toString first.number →
      second ≠ "%" ++ second.stem ++ toString second.number →
      first.renumber numbering ≠ second.renumber numbering := by
    intro first second minted other same
    rw [renumber, if_pos minted, renumber, if_neg other] at same
    rw [← same] at other
    obtain ⟨stems, numbers⟩ := stem_number_minted first.isStem_stem (numbering first.number)
    exact other (by rw [stems, numbers])
  intro first second same
  by_cases minted : first = "%" ++ first.stem ++ toString first.number
  · by_cases minted' : second = "%" ++ second.stem ++ toString second.number
    · rw [renumber, if_pos minted, renumber, if_pos minted'] at same
      obtain ⟨stems, numbers⟩ := minted_inj first.isStem_stem second.isStem_stem same
      rw [minted, minted', stems, distinct numbers]
    · exact absurd same (apart minted minted')
  · by_cases minted' : second = "%" ++ second.stem ++ toString second.number
    · exact absurd same.symm (apart minted' minted)
    · rwa [renumber, if_neg minted, renumber, if_neg minted'] at same

end Name

def treeStems : List String := ["m", "f"]

theorem isStem_of_tree {stem : String} (inTree : stem ∈ treeStems) : IsStem stem := by
  have all : ∀ stem ∈ treeStems, IsStem stem := by decide
  exact all stem inTree

def Name.Apart (name : Name) : Prop :=
  ∀ stem ∈ treeStems, ∀ index : Nat, name ≠ "%" ++ stem ++ toString index

theorem Name.apart_of_not_minted {name : Name} (written : name.isMinted = false) : name.Apart := by
  rintro stem - index rfl
  simp [Name.isMinted] at written

namespace NameSupply

variable {supply later : NameSupply} {name : Name} {stem : String}

theorem apart_mint (supply : NameSupply) (plain : IsStem stem) (other : stem ∉ treeStems) :
    Name.Apart (supply.mint stem).1 := by
  intro stem' inTree index same
  obtain ⟨rfl, -⟩ := minted_inj plain (isStem_of_tree inTree) same
  exact other inTree

def Past (stem : String) (supply : NameSupply) (name : Name) : Prop :=
  ∀ index, supply.next ≤ index → name ≠ "%" ++ stem ++ toString index

theorem Past.mono (past : Past stem supply name) (le : supply.next ≤ later.next) :
    Past stem later name :=
  fun index after => past index (Nat.le_trans le after)

theorem past_of_not_minted (written : name.isMinted = false) : Past stem supply name := by
  rintro index - rfl
  simp [Name.isMinted] at written

theorem past_mint (supply : NameSupply) (plain : IsStem stem) :
    Past stem (supply.mint stem).2 (supply.mint stem).1 := by
  intro index after same
  obtain ⟨-, rfl⟩ := minted_inj plain plain same
  exact absurd after (by simp)

def Spent (supply : NameSupply) (name : Name) : Prop :=
  ∀ stem ∈ treeStems, Past stem supply name

theorem spent_of_apart (apart : Name.Apart name) : supply.Spent name :=
  fun stem inTree index _ => apart stem inTree index

theorem Spent.mono (spent : supply.Spent name) (le : supply.next ≤ later.next) :
    later.Spent name :=
  fun stem inTree => (spent stem inTree).mono le

theorem not_spent_mint (supply : NameSupply) (inTree : stem ∈ treeStems) :
    ¬ supply.Spent (supply.mint stem).1 :=
  fun spent => spent stem inTree supply.next (Nat.le_refl _) rfl

theorem spent_mint (supply : NameSupply) (inTree : stem ∈ treeStems) :
    (supply.mint stem).2.Spent (supply.mint stem).1 := by
  intro stem' inTree' index after same
  obtain ⟨-, rfl⟩ := minted_inj (isStem_of_tree inTree) (isStem_of_tree inTree') same
  exact absurd after (by simp)

end NameSupply

end PolyCheck
