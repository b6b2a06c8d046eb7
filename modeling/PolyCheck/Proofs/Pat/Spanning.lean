import PolyCheck.Proofs.Pat.Family

/-! Spanning and missing heads side by side. A list of different heads spans its family exactly when
nothing is missing, and a missing head is a head of the family that is not in the list. The integers
of a width are counted and searched in 128 bits: the count of a width is a shift, and the search
goes up from the least integer through the sorted list to the first gap. No step of either leaves
the 128 bits, and the answers are the same. -/
namespace PolyCheck

namespace Int128

def signed? (value : Int) : Option Int :=
  if -2 ^ 127 ≤ value ∧ value < 2 ^ 127 then some value else none

def unsigned? (value : Nat) : Option Nat :=
  if value < 2 ^ 128 then some value else none

/-- The least and the greatest integer of a width. The widest ones are the bounds of the 128
bits. -/
def bounds? (width : Nat) : Option (Int × Int) :=
  if width = maxIntWidth then
    some (-2 ^ 127, 2 ^ 127 - 1)
  else do
    let half ← signed? (2 ^ (width - 1))
    let least ← signed? (-half)
    let greatest ← signed? (half - 1)
    pure (least, greatest)

def gap? : Int → List Int → Option Int
  | candidate, [] => some candidate
  | candidate, value :: values =>
    if candidate < value then
      some candidate
    else if value = candidate then do
      let next ← signed? (candidate + 1)
      gap? next values
    else
      gap? candidate values

/-- Whether as many heads are seen as there are integers of the width; a shift by all 128 bits
counts nothing. -/
def spanned? (width : Nat) (seen : List Head) : Option Bool :=
  if width < maxIntWidth then do
    let count ← unsigned? (intCount width)
    let length ← unsigned? seen.length
    pure (decide (count ≤ length))
  else
    some false

def values (seen : List Head) : List Int :=
  seen.filterMap fun
    | .int value => some value
    | _ => none

/-- An integer of the width that is not seen: zero if possible, else the first gap above the least
one. -/
def missing? (width : Nat) (seen : List Head) : Option (Option Int) := do
  let (least, greatest) ← bounds? width
  if (values seen).contains 0 then
    let candidate ← gap? least ((values seen).mergeSort fun a b => decide (a ≤ b))
    pure (if candidate ≤ greatest then some candidate else none)
  else
    pure (some 0)

theorem signed?_eq_some {value : Int} (low : -2 ^ 127 ≤ value) (high : value < 2 ^ 127) :
    signed? value = some value :=
  if_pos ⟨low, high⟩

theorem unsigned?_eq_some {value : Nat} (high : value < 2 ^ 128) : unsigned? value = some value :=
  if_pos high

theorem mem_values {seen : List Head} {value : Int} : value ∈ values seen ↔ .int value ∈ seen := by
  rw [values, List.mem_filterMap]
  constructor
  · rintro ⟨head, member, same⟩
    cases head with
    | int other =>
      obtain rfl := Option.some.inj same
      exact member
    | bool _ | str _ | tuple _ | variant _ => cases same
  · exact fun member => ⟨_, member, rfl⟩

theorem nodup_values {seen : List Head} (nodup : seen.Nodup) : (values seen).Nodup := by
  refine nodup.filterMap fun first second value inFirst inSecond => ?_
  cases first with
  | int _ =>
    cases second with
    | int _ => exact congrArg Head.int ((Option.some.inj inFirst).trans
        (Option.some.inj inSecond).symm)
    | bool _ | str _ | tuple _ | variant _ => cases inSecond
  | bool _ | str _ | tuple _ | variant _ => cases inFirst

theorem bounds?_eq_some {width : Nat} (positive : 0 < width) (within : width ≤ maxIntWidth) :
    bounds? width = some (-(intCount (width - 1) : Int), (intCount (width - 1) : Int) - 1) := by
  rw [bounds?, cast_intCount]
  split
  · rename_i full
    subst full
    rfl
  · rename_i narrower
    have narrow : width - 1 ≤ 126 := by
      simp only [maxIntWidth] at within narrower
      omega
    have small : (2 : Int) ^ (width - 1) ≤ 2 ^ 126 := pow_le_pow_right₀ (by decide) narrow
    have large : (0 : Int) < 2 ^ (width - 1) := pow_pos (by decide) _
    rw [signed?_eq_some (by omega) (by omega)]
    simp only [Option.bind_eq_bind, Option.bind_some]
    rw [signed?_eq_some (by omega) (by omega), signed?_eq_some (by omega) (by omega)]
    rfl

/-- The search stops at the least integer that is left out, after one step at most for each one in
the list. -/
theorem gap?_eq_some {candidate : Int} {values : List Int} (rising : values.Pairwise (· < ·))
    (above : ∀ value ∈ values, candidate ≤ value) (low : -2 ^ 127 ≤ candidate)
    (high : candidate + values.length < 2 ^ 127) :
    ∃ found, gap? candidate values = some found ∧ candidate ≤ found ∧
      found ≤ candidate + values.length ∧
      found ∉ values ∧ ∀ value, candidate ≤ value → value < found → value ∈ values := by
  induction values generalizing candidate with
  | nil => exact ⟨candidate, rfl, by simp, by simp, List.not_mem_nil,
      fun value lower upper => by omega⟩
  | cons first rest ih =>
    obtain ⟨smaller, rising⟩ := List.pairwise_cons.mp rising
    obtain ⟨here, above⟩ := List.forall_mem_cons.mp above
    rw [List.length_cons, Nat.cast_succ] at high
    rw [gap?]
    by_cases apart : candidate < first
    · refine ⟨candidate, if_pos apart, by omega, by simp; omega, fun member => ?_,
        fun value lower upper => by omega⟩
      rcases List.mem_cons.mp member with rfl | member
      · omega
      · have := smaller candidate member
        omega
    · obtain rfl : first = candidate := by omega
      rw [if_neg apart, if_pos rfl, signed?_eq_some (by omega) (by omega)]
      obtain ⟨found, search, lower, upper, absent, present⟩ :=
        ih rising (fun value member => smaller value member) (by omega) (by omega)
      refine ⟨found, search, by omega, by rw [List.length_cons, Nat.cast_succ]; omega,
        fun member => ?_, fun value from_ below => ?_⟩
      · rcases List.mem_cons.mp member with rfl | member
        · omega
        · exact absent member
      · rcases Int.lt_or_eq_of_le from_ with later | rfl
        · exact List.mem_cons_of_mem _ (present value later below)
        · exact List.mem_cons_self

theorem rising_sorted {values : List Int} (nodup : values.Nodup) :
    (values.mergeSort fun a b => decide (a ≤ b)).Pairwise (· < ·) := by
  have sorted := @List.pairwise_mergeSort Int (fun a b => decide (a ≤ b))
    (by intro a b c; simpa using le_trans) (by intro a b; simpa using le_total a b) values
  have different : (values.mergeSort fun a b => decide (a ≤ b)).Nodup :=
    (List.mergeSort_perm values _).nodup_iff.mpr nodup
  refine (sorted.and different).imp fun both => ?_
  have le : _ ≤ _ := of_decide_eq_true both.1
  exact lt_of_le_of_ne le both.2

end Int128

namespace Family

variable {registry : Registry} {family : Family} {seen : List Head} {width : Nat}

theorem firstUnseen_range {least found : Int} (lower : least ≤ found) (absent : .int found ∉ seen)
    (present : ∀ value, least ≤ value → value < found → .int value ∈ seen) (count : Nat) :
    firstUnseen seen ((List.range count).map fun (offset : Nat) => .int (least + offset)) =
      if found < least + count then some (.int found) else none := by
  rw [firstUnseen, List.find?_map]
  split
  · rename_i inside
    have place : least + ((found - least).toNat : Int) = found := by omega
    have first : (List.range count).find? ((fun candidate => !seen.contains candidate) ∘
        fun (offset : Nat) =>
        Head.int (least + offset)) = some (found - least).toNat := by
      refine List.find?_range_eq_some.mpr ⟨?_, List.mem_range.mpr (by omega),
        fun offset before => ?_⟩
      · rw [Function.comp_apply, place]
        simpa using absent
      · simpa using present (least + offset) (by omega) (by omega)
    rw [first, Option.map_some, place]
  · rename_i outside
    have none : (List.range count).find? ((fun candidate => !seen.contains candidate) ∘
      fun (offset : Nat) =>
        Head.int (least + offset)) = none := by
      refine List.find?_range_eq_none.mpr fun offset before => ?_
      simpa using present (least + offset) (by omega) (by omega)
    rw [none, Option.map_none]

section Machine

variable (positive : 0 < width) (within : width ≤ maxIntWidth) (few : seen.length < 2 ^ 64)
include few

theorem spanned?_eq (registry : Registry) (width : Nat) :
    Int128.spanned? width seen = some ((int width).spannedBy registry seen) := by
  rw [Int128.spanned?, spannedBy]
  by_cases narrow : width < maxIntWidth
  · have fits : intCount width < 2 ^ 128 := by
      rw [intCount_eq]
      exact Nat.pow_lt_pow_right (by decide) narrow
    rw [if_pos narrow, Int128.unsigned?_eq_some fits, Int128.unsigned?_eq_some (by omega)]
    simp [narrow]
  · simp [narrow]

include positive within

theorem missing?_eq (nodup : seen.Nodup) (known : ∀ head ∈ seen, (int width).Has registry head) :
    ∃ found, Int128.missing? width seen = some found ∧ missingInt? width seen = found.map .int := by
  have bounds : ¬ (width = 0 ∨ maxIntWidth < width) := by omega
  rw [Int128.missing?, Int128.bounds?_eq_some positive within, missingInt?, if_neg bounds]
  have zeros : (Int128.values seen).contains 0 = seen.contains (.int 0) := by
    rw [Bool.eq_iff_iff, List.contains_iff_mem, List.contains_iff_mem, Int128.mem_values]
  simp only [Option.bind_eq_bind, Option.bind_some, zeros]
  by_cases zero : seen.contains (.int 0)
  · -- The sorted list lies between the bounds, so the search has room for all its steps.
    have half : (intCount (width - 1) : Int) ≤ 2 ^ 127 := by
      rw [cast_intCount]
      refine pow_le_pow_right₀ (by decide) ?_
      simp only [maxIntWidth] at within
      omega
    have someInt : (0 : Int) < intCount (width - 1) := by
      rw [cast_intCount]
      exact pow_pos (by decide) _
    have above : ∀ value ∈ (Int128.values seen).mergeSort (fun a b => decide (a ≤ b)),
        -(intCount (width - 1) : Int) ≤ value := by
      intro value member
      obtain ⟨other, ⟨-, low, -⟩, same⟩ :=
        known _ (Int128.mem_values.mp (List.mem_mergeSort.mp member))
      obtain rfl := Head.int.inj same
      rwa [cast_intCount]
    have short : ((Int128.values seen).mergeSort fun a b => decide (a ≤ b)).length ≤
        seen.length := by
      rw [List.length_mergeSort]
      exact List.length_filterMap_le _ _
    obtain ⟨found, search, lower, upper, absent, present⟩ := Int128.gap?_eq_some
      (Int128.rising_sorted (Int128.nodup_values nodup)) above (by omega) (by omega)
    have unseen : Head.int found ∉ seen := fun member =>
      absent (List.mem_mergeSort.mpr (Int128.mem_values.mpr member))
    have before : ∀ value, -(intCount (width - 1) : Int) ≤ value → value < found →
        .int value ∈ seen :=
      fun value low high => Int128.mem_values.mp (List.mem_mergeSort.mp (present value low high))
    have double := intCount_double positive
    rw [if_pos zero, if_pos zero, search, firstUnseen_range lower unseen before]
    refine ⟨_, rfl, ?_⟩
    by_cases inside : found ≤ intCount (width - 1) - 1
    · rw [if_pos inside, if_pos (by omega)]
      rfl
    · rw [if_neg inside, if_neg (by omega)]
      rfl
  · rw [if_neg zero, if_neg zero]
    exact ⟨_, rfl, rfl⟩

end Machine

/-- A family whose heads can be told: any but the one without heads, and integers of a width there
is. -/
def Listed : Family → Prop
  | int width => 0 < width ∧ width ≤ maxIntWidth
  | unknown => False
  | bool | tuple _ | enum _ _ | str => True

theorem Listed.exists_head (listed : family.Listed)
    (unspanned : family.spannedBy registry seen = false) : ∃ head, family.Has registry head := by
  cases family with
  | bool => exact ⟨_, true, rfl⟩
  | tuple types => exact ⟨_, rfl⟩
  | enum template args =>
    simp only [spannedBy, List.all_eq_false, List.mem_range] at unspanned
    obtain ⟨index, inside, -⟩ := unspanned
    exact ⟨_, index, inside, rfl⟩
  | int width => exact ⟨_, 0, ⟨listed, by simp, by simp⟩, rfl⟩
  | str => exact ⟨_, [], rfl⟩
  | unknown => exact listed.elim

theorem firstUnseen_spec {candidates : List Head} {head : Head}
    (found : firstUnseen seen candidates = some head) : head ∈ candidates ∧ head ∉ seen :=
  ⟨List.mem_of_find?_eq_some found, by simpa using List.find?_some found⟩

theorem missing?_spec {head : Head} (listed : family.Listed)
    (found : family.missing? registry seen = some head) :
    family.Has registry head ∧ head ∉ seen := by
  cases family with
  | bool =>
    obtain ⟨member, unseen⟩ := firstUnseen_spec found
    simp only [List.mem_cons, List.not_mem_nil, or_false] at member
    rcases member with rfl | rfl <;> exact ⟨⟨_, rfl⟩, unseen⟩
  | tuple types =>
    rw [missing?] at found
    split at found
    · rename_i empty
      obtain rfl := Option.some.inj found
      rw [List.isEmpty_iff.mp empty]
      exact ⟨rfl, List.not_mem_nil⟩
    · cases found
  | enum template args =>
    obtain ⟨member, unseen⟩ := firstUnseen_spec found
    obtain ⟨index, inRange, rfl⟩ := List.mem_map.mp member
    exact ⟨⟨index, List.mem_range.mp inRange, rfl⟩, unseen⟩
  | int width =>
    obtain ⟨positive, within⟩ := listed
    have double := intCount_double positive
    rw [missing?, missingInt?, if_neg (by omega)] at found
    split at found
    · obtain ⟨member, unseen⟩ := firstUnseen_spec found
      obtain ⟨offset, inRange, rfl⟩ := List.mem_map.mp member
      have below := List.mem_range.mp inRange
      refine ⟨⟨_, ⟨⟨positive, within⟩, ?_, ?_⟩, rfl⟩, unseen⟩
      · rw [← cast_intCount]
        omega
      · rw [← cast_intCount]
        omega
    · rename_i zero
      obtain rfl := Option.some.inj found
      exact ⟨⟨0, ⟨⟨positive, within⟩, by simp, by simp⟩, rfl⟩, by simpa using zero⟩
  | str =>
    obtain ⟨member, unseen⟩ := firstUnseen_spec found
    obtain ⟨length, -, rfl⟩ := List.mem_map.mp member
    exact ⟨⟨_, rfl⟩, unseen⟩
  | unknown => exact listed.elim

/-- Different heads span a family exactly when they are all of it and when none is missing; a
missing head is one of the family that is not there. For integers both questions are answered in 128
bits without an overflow. -/
theorem spanning_exact (listed : family.Listed) (nodup : seen.Nodup)
    (known : ∀ head ∈ seen, family.Has registry head) (few : seen.length < 2 ^ 64) :
    (family.spannedBy registry seen = true ↔ ∀ head, family.Has registry head → head ∈ seen) ∧
      (family.missing? registry seen = none ↔ family.spannedBy registry seen = true) ∧
      (∀ head, family.missing? registry seen = some head → family.Has registry head ∧ head ∉ seen) ∧
      ∀ width, family = .int width → Int128.spanned? width seen = some
      (family.spannedBy registry seen) ∧
        ∃ found, Int128.missing? width seen = some found ∧
          family.missing? registry seen = found.map .int := by
  have all : family.spannedBy registry seen = true → ∀ head, family.Has registry head →
      head ∈ seen :=
    fun spanned _ => mem_of_spannedBy nodup known spanned
  have some_missing : family.spannedBy registry seen = false →
      ∃ head, family.missing? registry seen = some head ∧ family.Has registry head ∧ head ∉ seen :=
        fun unspanned =>
    missing?_eq_some (listed.exists_head unspanned)
      (fun _ _ => few.trans (Nat.pow_lt_pow_right (by decide) (by decide))) unspanned
  refine ⟨⟨all, fun covered => ?_⟩, ⟨fun none => ?_, fun spanned => ?_⟩,
    fun _ => missing?_spec listed, ?_⟩
  · by_contra unspanned
    obtain ⟨head, -, has, unseen⟩ := some_missing (Bool.eq_false_of_not_eq_true unspanned)
    exact unseen (covered head has)
  · by_contra unspanned
    obtain ⟨head, found, -⟩ := some_missing (Bool.eq_false_of_not_eq_true unspanned)
    exact absurd (none.symm.trans found) (by simp)
  · by_contra found
    obtain ⟨head, found⟩ := Option.ne_none_iff_exists'.mp found
    obtain ⟨has, unseen⟩ := missing?_spec listed found
    exact unseen (all spanned head has)
  · rintro width rfl
    exact ⟨spanned?_eq few registry width, missing?_eq listed.1 listed.2 few nodup known⟩

/-- Of the integers of two bits the greatest is missing. -/
theorem spanning_twoBits :
    (int 2).missing? default [.int 0, .int (-1), .int (-2)] = some (.int 1) ∧
      (int 2).spannedBy default [.int 0, .int (-1), .int (-2)] = false ∧
      Int128.missing? 2 [.int 0, .int (-1), .int (-2)] = some (some 1) := by
  have known : ∀ head ∈ [Head.int 0, .int (-1), .int (-2)], (int 2).Has default head := by
    intro head member
    simp only [List.mem_cons, List.not_mem_nil, or_false] at member
    rcases member with rfl | rfl | rfl <;> exact ⟨_, ⟨by decide, by decide⟩, rfl⟩
  obtain ⟨-, answers, -, machine⟩ :=
    @spanning_exact default (.int 2) [.int 0, .int (-1), .int (-2)] ⟨by decide, by decide⟩
    (by decide) known (by decide)
  have missing : (int 2).missing? default [.int 0, .int (-1), .int (-2)] =
    some (.int 1) := by decide
  obtain ⟨found, search, same⟩ := (machine 2 rfl).2
  refine ⟨missing, ?_, ?_⟩
  · rw [Bool.eq_false_iff, ne_eq, ← answers, missing]
    simp
  · rw [missing] at same
    obtain ⟨value, rfl, one⟩ := Option.map_eq_some_iff.mp same.symm
    rw [search, Head.int.inj one]

end Family

end PolyCheck
