import PolyCheck.Proofs.Pat.Inhabitation

/-! The names that a match binds. Where all alternatives of every choice capture the same names, a
match binds the names that the pattern captures, in some order, whichever alternatives are taken. -/
namespace PolyCheck.Pat

/-- All alternatives of every choice capture the same names. -/
def Uniform (p : Pat) : Prop :=
  p.Every fun q => ∀ first rest, q = oneOf (first :: rest) →
    ∀ other ∈ rest, other.captures.Perm first.captures

/-- No name is captured twice, whichever alternatives are taken. -/
structure Linear (p : Pat) : Prop where
  uniform : p.Uniform
  distinct : p.captures.Nodup

mutual

theorem names_of_match? : ∀ {p : Pat} {value : Value} {bindings : Bindings}, p.Uniform →
    p.match? value = some bindings → (bindings.map (·.1)).Perm p.captures
  | .wild capture, value, bindings, _, found => by
    rw [match?_wild] at found
    obtain rfl := Option.some.inj found
    cases capture with
    | none => exact .refl _
    | some name => exact .refl _
  | .bool _, value, bindings, _, found => by
    cases value <;> simp only [match?, reduceCtorEq] at found
    split at found
    · obtain rfl := Option.some.inj found
      exact .refl _
    · simp at found
  | .int _ _, value, bindings, _, found => by
    cases value <;> simp only [match?, reduceCtorEq] at found
    split at found
    · obtain rfl := Option.some.inj found
      exact .refl _
    · simp at found
  | .str _, value, bindings, _, found => by
    cases value <;> simp only [match?, reduceCtorEq] at found
    split at found
    · obtain rfl := Option.some.inj found
      exact .refl _
    · simp at found
  | .tuple elems, value, bindings, uniform, found => by
    cases value <;> simp only [match?, reduceCtorEq] at found
    rw [captures]
    exact names_of_matchAll? (fun p member => uniform.fields member) found
  | .ctor _ _ _ args, value, bindings, uniform, found => by
    cases value <;> simp only [match?, reduceCtorEq] at found
    split at found
    · obtain ⟨fields, -, found⟩ := Option.bind_eq_some_iff.mp found
      rw [captures]
      exact names_of_matchAll? (fun p member => uniform.fields member) found
    · simp at found
  | .oneOf [], value, bindings, _, found => by simp [match?, matchFirst?] at found
  | .oneOf (first :: rest), value, bindings, uniform, found => by
    rw [match?, matchFirst?, Option.or_eq_some_iff] at found
    rw [captures, capturesFirst]
    rcases found with found | ⟨-, found⟩
    · exact names_of_match? (uniform.choice List.mem_cons_self) found
    · obtain ⟨other, member, perm⟩ := names_of_matchFirst?
        (fun p member => uniform.choice (List.mem_cons_of_mem first member)) found
      exact perm.trans (uniform.self first rest rfl other member)

theorem names_of_matchAll? : ∀ {ps : List Pat} {values : List Value} {bindings : Bindings},
    (∀ p ∈ ps, p.Uniform) → matchAll? ps values = some bindings →
      (bindings.map (·.1)).Perm (capturesAll ps)
  | [], [], bindings, _, found => by
    rw [matchAll?] at found
    obtain rfl := Option.some.inj found
    exact .refl _
  | [], _ :: _, _, _, found => by simp [matchAll?] at found
  | _ :: _, [], _, _, found => by simp [matchAll?] at found
  | p :: ps, value :: values, bindings, uniform, found => by
    simp only [matchAll?, Option.bind_eq_bind, Option.bind_eq_some_iff] at found
    obtain ⟨first, foundFirst, rest, foundRest, found⟩ := found
    obtain rfl := Option.some.inj found
    rw [List.map_append, capturesAll]
    exact (names_of_match? (uniform p List.mem_cons_self) foundFirst).append
      (names_of_matchAll? (fun q member => uniform q (List.mem_cons_of_mem p member)) foundRest)

theorem names_of_matchFirst? : ∀ {ps : List Pat} {value : Value} {bindings : Bindings},
    (∀ p ∈ ps, p.Uniform) → matchFirst? ps value = some bindings →
      ∃ p ∈ ps, (bindings.map (·.1)).Perm p.captures
  | [], _, _, _, found => by simp [matchFirst?] at found
  | p :: ps, value, bindings, uniform, found => by
    rw [matchFirst?, Option.or_eq_some_iff] at found
    rcases found with found | ⟨-, found⟩
    · exact ⟨p, List.mem_cons_self, names_of_match? (uniform p List.mem_cons_self) found⟩
    · obtain ⟨other, member, perm⟩ := names_of_matchFirst?
        (fun q member => uniform q (List.mem_cons_of_mem p member)) found
      exact ⟨other, List.mem_cons_of_mem p member, perm⟩

end

theorem Linear.distinct_match {p : Pat} (linear : p.Linear) {value : Value} {bindings : Bindings}
    (found : p.match? value = some bindings) : (bindings.map (·.1)).Nodup :=
  (names_of_match? linear.uniform found).nodup_iff.mpr linear.distinct

end PolyCheck.Pat
