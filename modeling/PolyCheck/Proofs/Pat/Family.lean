import PolyCheck.Proofs.Pat.Typing

/-! Heads that are seen and heads that are missing. Different heads that span a family are all of
it; where they do not, a missing head is found. Both questions are settled for integers by
counting. -/
namespace PolyCheck.Family

variable {registry : Registry} {family : Family} {seen candidates : List Head}

section Unseen

theorem nodup_eraseDups (heads : List Head) : heads.eraseDups.Nodup := by
  induction length : heads.length using Nat.strong_induction_on generalizing heads with
  | _ count ih =>
    cases heads with
    | nil => exact List.nodup_nil
    | cons head heads =>
      rw [List.eraseDups_cons, List.nodup_cons]
      refine ⟨by simp [List.mem_eraseDups], ih _ ?_ _ rfl⟩
      have := heads.length_filter_le fun other => !other == head
      simp only [List.length_cons] at length
      omega

theorem exists_unseen (nodup : candidates.Nodup) (more : seen.length < candidates.length) :
    ∃ candidate ∈ candidates, candidate ∉ seen := by
  by_contra none
  have inside : candidates ⊆ seen := fun candidate member => by
    by_contra unseen
    exact none ⟨candidate, member, unseen⟩
  have := (nodup.subperm inside).length_le
  omega

theorem firstUnseen_eq_some (unseen : ∃ candidate ∈ candidates, candidate ∉ seen) :
    ∃ head, firstUnseen seen candidates = some head ∧ head ∈ candidates ∧ head ∉ seen := by
  have found : (firstUnseen seen candidates).isSome := by
    obtain ⟨candidate, member, fresh⟩ := unseen
    rw [firstUnseen, List.find?_isSome]
    exact ⟨candidate, member, by simpa using fresh⟩
  obtain ⟨head, first⟩ := Option.isSome_iff_exists.mp found
  refine ⟨head, first, List.mem_of_find?_eq_some first, ?_⟩
  simpa using List.find?_some first

end Unseen

section Integers

variable {width : Nat}

def intHeads (width : Nat) : List Head :=
  (List.range (intCount width)).map fun (offset : Nat) => .int (-intCount (width - 1) + offset)

theorem mem_intHeads {head : Head} (has : (int width).Has registry head) :
    head ∈ intHeads width := by
  obtain ⟨value, ⟨⟨positive, -⟩, range⟩, rfl⟩ := has
  have double := intCount_double positive
  rw [← cast_intCount] at range
  refine List.mem_map.mpr ⟨(value + intCount (width - 1)).toNat, List.mem_range.mpr (by omega), ?_⟩
  exact congrArg Head.int (by omega)

theorem mem_of_all_ints (nodup : seen.Nodup) (known : ∀ head ∈ seen, (int width).Has registry head)
    (many : intCount width ≤ seen.length) {head : Head} (has : (int width).Has registry head) :
    head ∈ seen := by
  have inside : seen ⊆ intHeads width := fun other member => mem_intHeads (known other member)
  have all := (nodup.subperm inside).perm_of_length_le (by simpa [intHeads] using many)
  exact all.mem_iff.mpr (mem_intHeads has)

theorem missingInt?_eq_some (positive : 0 < width) (within : width ≤ maxIntWidth)
    (few : seen.length < intCount width) :
    ∃ head, missingInt? width seen = some head ∧ (int width).Has registry head ∧ head ∉ seen := by
  have bounds : ¬ (width = 0 ∨ maxIntWidth < width) := by omega
  have double := intCount_double positive
  have inWidth : ∀ value : Int, -intCount (width - 1) ≤ value → value < intCount (width - 1) →
      (int width).Has registry (.int value) := fun value low high =>
    ⟨value, ⟨⟨positive, within⟩, by rwa [← cast_intCount], by rwa [← cast_intCount]⟩, rfl⟩
  rw [missingInt?, if_neg bounds]
  by_cases zero : seen.contains (.int 0)
  · rw [if_pos zero]
    have count : min (seen.length + 1) (intCount width) = seen.length + 1 := by omega
    simp only [count]
    have nodup : ((List.range (seen.length + 1)).map fun (offset : Nat) =>
        Head.int (-intCount (width - 1) + offset)).Nodup := by
      refine List.nodup_range.map fun a b same => ?_
      simp only [Head.int.injEq] at same
      omega
    obtain ⟨head, first, member, fresh⟩ :=
      firstUnseen_eq_some (@exists_unseen seen _ nodup (by simp))
    obtain ⟨offset, inRange, rfl⟩ := List.mem_map.mp member
    have below := List.mem_range.mp inRange
    exact ⟨_, first, inWidth _ (by omega) (by omega), fresh⟩
  · rw [if_neg zero]
    exact ⟨_, rfl, inWidth 0 (by omega) (by omega), by simpa using zero⟩

end Integers

theorem mem_of_spannedBy (nodup : seen.Nodup) (known : ∀ head ∈ seen, family.Has registry head)
    (spanned : family.spannedBy registry seen = true) {head : Head}
    (has : family.Has registry head) : head ∈ seen := by
  cases family with
  | bool =>
    obtain ⟨value, rfl⟩ := has
    simp only [spannedBy, Bool.and_eq_true, List.contains_iff_mem] at spanned
    cases value with
    | true => exact spanned.1
    | false => exact spanned.2
  | tuple types =>
    obtain rfl := has
    cases seen with
    | nil => simp [spannedBy] at spanned
    | cons first rest =>
      obtain rfl := known first List.mem_cons_self
      exact List.mem_cons_self
  | enum template args =>
    obtain ⟨index, inside, rfl⟩ := has
    simp only [spannedBy, List.all_eq_true, List.mem_range, List.contains_iff_mem] at spanned
    exact spanned index inside
  | int width =>
    simp only [spannedBy, Bool.and_eq_true, decide_eq_true_eq] at spanned
    exact mem_of_all_ints nodup known spanned.2 has
  | str => simp [spannedBy] at spanned
  | unknown => exact has.elim

theorem missing?_eq_some (inhabited : ∃ head, family.Has registry head)
    (few : ∀ width, family = .int width → seen.length < 2 ^ maxIntWidth)
    (unspanned : family.spannedBy registry seen = false) :
    ∃ head, family.missing? registry seen = some head ∧ family.Has registry head ∧ head ∉ seen := by
  cases family with
  | bool =>
    have unseen : ∃ candidate ∈ [Head.bool true, .bool false], candidate ∉ seen := by
      by_contra all
      simp only [List.mem_cons, List.not_mem_nil, or_false, exists_eq_or_imp, exists_eq_left,
        not_or, not_not] at all
      simp [spannedBy, all] at unspanned
    obtain ⟨head, first, member, fresh⟩ := firstUnseen_eq_some unseen
    refine ⟨head, first, ?_, fresh⟩
    simp only [List.mem_cons, List.not_mem_nil, or_false] at member
    rcases member with rfl | rfl <;> exact ⟨_, rfl⟩
  | tuple types =>
    have none : seen = [] := by simpa [spannedBy] using unspanned
    subst none
    exact ⟨_, rfl, rfl, List.not_mem_nil⟩
  | enum template args =>
    simp only [spannedBy, List.all_eq_false, List.mem_range, List.contains_iff_mem] at unspanned
    obtain ⟨index, inside, fresh⟩ := unspanned
    have candidate : Head.variant index ∈ (List.range (registry.caseCount template)).map .variant :=
      List.mem_map_of_mem (List.mem_range.mpr inside)
    obtain ⟨head, first, member, fresh⟩ := firstUnseen_eq_some ⟨_, candidate, fresh⟩
    obtain ⟨other, inRange, rfl⟩ := List.mem_map.mp member
    exact ⟨_, first, ⟨other, List.mem_range.mp inRange, rfl⟩, fresh⟩
  | int width =>
    obtain ⟨_, value, range, -⟩ := inhabited
    obtain ⟨⟨positive, within⟩, -⟩ := range
    refine missingInt?_eq_some positive within ?_
    simp only [spannedBy, Bool.and_eq_false_iff, decide_eq_false_iff_not] at unspanned
    by_cases full : width = maxIntWidth
    · rw [full, intCount_eq]
      exact few width rfl
    · omega
  | str =>
    have nodup : ((List.range (seen.length + 1)).map fun length =>
        Head.str (List.replicate length 97)).Nodup := by
      refine List.nodup_range.map fun a b same => ?_
      simpa using congrArg List.length (Head.str.inj same)
    obtain ⟨head, first, member, fresh⟩ :=
      firstUnseen_eq_some (@exists_unseen seen _ nodup (by simp))
    obtain ⟨length, -, rfl⟩ := List.mem_map.mp member
    exact ⟨_, first, ⟨_, rfl⟩, fresh⟩
  | unknown => exact inhabited.choose_spec.elim

end PolyCheck.Family
