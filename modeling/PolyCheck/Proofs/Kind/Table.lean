import PolyCheck.Kind.Table

/-! Solutions of kinds are kept. Chains of kind variables that stand for kind variables end, as only
unsolved variables are solved, and never by themselves; so comparing kinds adds solutions and
changes none. How many arguments a kind takes can then be read off what its variables stand for in
the end. -/
namespace PolyCheck

/-- Whether something of the kind can be given that many arguments, for all that is known of the
kind. -/
def Kind.Admits : Kind → Nat → Prop
  | _, 0 => True
  | .star, _ + 1 => False
  | .arrow _ result, count + 1 => result.Admits count
  | .var _, _ + 1 => True

namespace Kind

variable {count : Nat}

theorem admits_zero (kind : Kind) : kind.Admits 0 := by
  cases kind <;> exact trivial

theorem admits_var (index : Nat) : (var index).Admits count := by
  cases count <;> exact trivial

theorem admits_function {params : List Kind} {result : Kind}
    (admits : (function params result).Admits count) :
    ∃ rest, result.Admits rest ∧ count ≤ params.length + rest := by
  induction params generalizing count with
  | nil => exact ⟨count, admits, by simp⟩
  | cons param params ih =>
    cases count with
    | zero => exact ⟨0, result.admits_zero, Nat.zero_le _⟩
    | succ count =>
      obtain ⟨rest, admits, le⟩ := ih admits
      exact ⟨rest, admits, by simp only [List.length_cons]; omega⟩

end Kind

namespace KindTable

variable {table after : KindTable} {kind left right : Kind} {index steps depth count : Nat}

/-- Nothing is left to be looked through at the head of a kind. -/
def Final (table : KindTable) (kind : Kind) : Prop :=
  ∀ index, kind = .var index → table.solution? index = none

def solved (table : KindTable) : Nat :=
  table.solutions.countP Option.isSome

/-- Every chain of variables ends, after as many solutions as there are. -/
def Ends (table : KindTable) : Prop :=
  ∀ kind, table.Final (table.headWithin table.solved kind)

theorem head_arrow (table : KindTable) (param result : Kind) :
    table.head (.arrow param result) = .arrow param result :=
  rfl

theorem headWithin_of_final (final : table.Final kind) : table.headWithin steps kind = kind := by
  cases steps with
  | zero => rw [headWithin]; nofun
  | succ steps =>
    cases kind with
    | var index => rw [headWithin, final index rfl]
    | star | arrow _ _ => rfl

theorem headWithin_add (final : table.Final (table.headWithin steps kind)) (more : Nat) :
    table.headWithin (steps + more) kind = table.headWithin steps kind := by
  induction steps generalizing kind with
  | zero =>
    have same : table.headWithin 0 kind = kind := by rw [headWithin]; nofun
    rw [same] at final ⊢
    exact headWithin_of_final final
  | succ steps ih =>
    rw [Nat.add_right_comm]
    cases kind with
    | star | arrow _ _ => rfl
    | var index =>
      rw [headWithin] at final
      rw [headWithin, headWithin]
      cases known : table.solution? index with
      | none => rfl
      | some next =>
        rw [known] at final
        exact ih final

theorem solved_le_count (table : KindTable) : table.solved ≤ table.count :=
  Array.countP_le_size

theorem Ends.final_head (ends : table.Ends) (kind : Kind) : table.Final (table.head kind) := by
  obtain ⟨more, same⟩ := Nat.exists_eq_add_of_le (Nat.le_succ_of_le table.solved_le_count)
  rw [head, ← Nat.succ_eq_add_one, same, headWithin_add (ends kind) more]
  exact ends kind

section Fresh

theorem ends_empty : empty.Ends := by
  intro kind
  have none : ∀ index, empty.solution? index = none := fun _ => rfl
  exact fun index _ => none index

theorem solution?_fresh (table : KindTable) (index : Nat) :
    table.fresh.2.solution? index = table.solution? index := by
  rw [solution?, solution?, fresh, Array.getElem?_push]
  split
  · rename_i last
    rw [last, Array.getElem?_eq_none (Nat.le_refl _)]
    rfl
  · rfl

theorem headWithin_fresh (table : KindTable) (steps : Nat) (kind : Kind) :
    table.fresh.2.headWithin steps kind = table.headWithin steps kind := by
  induction steps generalizing kind with
  | zero => rw [headWithin, headWithin] <;> nofun
  | succ steps ih =>
    cases kind with
    | star | arrow _ _ => rfl
    | var index =>
      rw [headWithin, headWithin, solution?_fresh]
      cases table.solution? index with
      | none => rfl
      | some next => exact ih next

theorem Ends.fresh (ends : table.Ends) : table.fresh.2.Ends := by
  have same : table.fresh.2.solved = table.solved := by simp [solved, KindTable.fresh]
  intro kind index head
  rw [same, headWithin_fresh] at head
  rw [solution?_fresh]
  exact ends kind index head

end Fresh

section Solve

variable (unsolved : table.solution? index = none)

theorem solution?_solve (table : KindTable) (index : Nat) (kind : Kind) (other : Nat) :
    (table.solve index kind).solution? other =
      if other = index ∧ index < table.count then some kind else table.solution? other := by
  rw [solution?, solution?, solve, Array.getElem?_setIfInBounds, count]
  by_cases same : index = other
  · subst same
    by_cases inside : index < table.solutions.size
    · simp [inside]
    · simp [inside]
  · simp [same, Ne.symm same]

include unsolved

theorem solved_solve (inside : index < table.count) (kind : Kind) :
    (table.solve index kind).solved = table.solved + 1 := by
  have inside : index < table.solutions.size := inside
  have known : table.solutions[index] = none := by
    rw [solution?, Array.getElem?_eq_getElem inside] at unsolved
    exact unsolved
  have written : (table.solve index kind).solutions = table.solutions.set index (some kind)
    inside := dif_pos inside
  rw [solved, written, Array.countP_set, known]
  simp [solved]

theorem headWithin_solve_of_ne (apart : table.headWithin steps left ≠ .var index) :
    (table.solve index kind).headWithin steps left = table.headWithin steps left := by
  induction steps generalizing left with
  | zero => rw [headWithin, headWithin] <;> nofun
  | succ steps ih =>
    cases left with
    | star | arrow _ _ => rfl
    | var other =>
      rw [headWithin] at apart
      have different : other ≠ index := by
        rintro rfl
        rw [unsolved] at apart
        exact apart rfl
      rw [headWithin, headWithin, solution?_solve, if_neg fun both => different both.1]
      cases known : table.solution? other with
      | none => rfl
      | some next =>
        rw [known] at apart
        exact ih apart

omit unsolved in
theorem headWithin_solve_of_eq (inside : index < table.count)
    (final : (table.solve index kind).Final kind)
    (reaches : table.headWithin steps left = .var index) :
    (table.solve index kind).headWithin (steps + 1) left = kind := by
  have here : ∀ steps, (table.solve index kind).headWithin (steps + 1) (.var index) = kind := by
    intro steps
    rw [headWithin, solution?_solve, if_pos ⟨rfl, inside⟩]
    exact headWithin_of_final final
  induction steps generalizing left with
  | zero =>
    have same : left = .var index := by rwa [headWithin] at reaches; nofun
    rw [same, here]
  | succ steps ih =>
    cases left with
    | star | arrow _ _ => cases reaches
    | var other =>
      by_cases same : other = index
      · rw [same, here]
      · rw [headWithin] at reaches
        rw [headWithin, solution?_solve, if_neg fun both => same both.1]
        cases known : table.solution? other with
        | none =>
          rw [known] at reaches
          exact absurd (Kind.var.inj reaches) same
        | some next =>
          rw [known] at reaches
          exact ih reaches

theorem Ends.solve (ends : table.Ends) (final : (table.solve index kind).Final kind) :
    (table.solve index kind).Ends := by
  by_cases inside : index < table.count
  · intro left
    rw [solved_solve unsolved inside]
    by_cases reaches : table.headWithin table.solved left = .var index
    · rw [headWithin_solve_of_eq inside final reaches]
      exact final
    · have same : (table.solve index kind).headWithin table.solved left =
          table.headWithin table.solved left :=
        headWithin_solve_of_ne unsolved reaches
      have kept : (table.solve index kind).Final
          ((table.solve index kind).headWithin table.solved left) := by
        rw [same]
        rintro other found
        have different : other ≠ index := by
          rintro rfl
          exact reaches found
        rw [solution?_solve, if_neg fun both => different both.1]
        exact ends left other found
      rw [headWithin_add kept]
      exact kept
  · have same : table.solve index kind = table := by
      rw [KindTable.solve, Array.setIfInBounds_eq_of_size_le (Nat.le_of_not_lt inside)]
    exact same.symm ▸ ends

end Solve

/-- A table whose chains end and that keeps the solutions of another. -/
structure Extends (table after : KindTable) : Prop where
  ends : after.Ends
  kept : ∀ index kind, table.solution? index = some kind → after.solution? index = some kind

theorem Ends.extends (ends : table.Ends) : table.Extends table := ⟨ends, fun _ _ => id⟩

theorem Extends.trans {last : KindTable} (first : table.Extends after)
    (second : after.Extends last) : table.Extends last :=
  ⟨second.ends, fun index kind known => second.kept index kind (first.kept index kind known)⟩

theorem Ends.assign (ends : table.Ends) (unsolved : table.solution? index = none)
    (final : (table.solve index kind).Final kind) : table.Extends (table.assign index kind).2 := by
  rw [KindTable.assign]
  split
  · exact ends.extends
  · refine ⟨ends.solve unsolved final, fun other known found => ?_⟩
    have different : other ≠ index := fun same => nomatch (same ▸ unsolved).symm.trans found
    rw [solution?_solve, if_neg fun both => different both.1, found]

theorem Ends.unifyWithin (ends : table.Ends) {agreed : Bool}
    (run : unifyWithin depth table left right = (agreed, after)) : table.Extends after := by
  have extends_ : table.Extends (KindTable.unifyWithin depth table left right).2 := by
    clear run
    induction depth generalizing table left right with
    | zero => exact ends.extends
    | succ depth ih =>
      have final := ends.final_head left
      have final' := ends.final_head right
      rw [KindTable.unifyWithin]
      split
      · exact ends.extends
      · rename_i x y headX headY
        split
        · exact ends.extends
        · rename_i different
          refine ends.assign (final x headX) ?_
          rintro other ⟨⟩
          rw [solution?_solve, if_neg fun both => different both.1.symm]
          exact final' y headY
      · rename_i other x headX notVar
        exact ends.assign (final x headX) fun y same => absurd same (notVar y)
      · rename_i other y headY notVar
        exact ends.assign (final' y headY) fun x same => absurd same (notVar x)
      · rename_i p r q s _ _
        have results : table.Extends (KindTable.unifyWithin depth table r s).2 := ih ends
        split
        · rename_i middle run
          rw [run] at results
          exact results.trans (ih results.ends)
        · exact results
      · exact ends.extends
  rwa [run] at extends_

theorem Ends.unify (ends : table.Ends) {agreed : Bool}
    (run : table.unify left right = (agreed, after)) : table.Extends after :=
  ends.unifyWithin run

section Admits

theorem admits_of_defaultedWithin (admits : (table.defaultedWithin depth kind).Admits count) :
    kind.Admits count := by
  induction depth generalizing kind count with
  | zero =>
    cases count with
    | zero => exact kind.admits_zero
    | succ count => exact admits.elim
  | succ depth ih =>
    cases kind with
    | var index => exact Kind.admits_var index
    | star => exact admits
    | arrow param result =>
      cases count with
      | zero => exact Kind.admits_zero _
      | succ count =>
        have below : (table.defaultedWithin depth result).Admits count := admits
        have taken : result.Admits count := ih below
        exact taken

theorem defaulted_of_unsolved (unsolved : table.solution? index = none) :
    table.defaulted (.var index) = .star := by
  have alone : table.head (.var index) = .var index :=
    headWithin_of_final fun _ same => Kind.var.inj same ▸ unsolved
  rw [defaulted, depthBound, defaultedWithin, alone]

theorem admits_of_defaulted (admits : (table.defaulted kind).Admits count) : kind.Admits count :=
  admits_of_defaultedWithin admits

theorem admits_of_solution? {solution : Kind} (known : table.solution? index = some solution)
    (concrete : ∀ other, solution ≠ .var other)
    (admits : (table.defaulted (.var index)).Admits count) :
    solution.Admits count := by
  have final : table.Final solution := fun other same => absurd same (concrete other)
  have head : table.head (.var index) = table.head solution := by
    rw [KindTable.head, KindTable.head, headWithin, known]
    exact (headWithin_of_final final).trans (headWithin_of_final final).symm
  have same : table.defaulted (.var index) =
      table.defaultedWithin (table.depthBound (Kind.var index).size) solution := by
    rw [defaulted, depthBound, defaultedWithin, defaultedWithin, head]
  rw [same] at admits
  exact admits_of_defaultedWithin admits

theorem eq_solve_of_assign (assigned : table.assign index kind = (true, after)) :
    after = table.solve index kind := by
  rw [assign] at assigned
  split at assigned
  · cases assigned
  · exact (Prod.mk.inj assigned).2.symm

theorem unifyWithin_arrow {p r q s : Kind}
    (run : unifyWithin (depth + 1) table (.arrow p r) (.arrow q s) = (true, after)) :
    ∃ middle, unifyWithin depth table r s = (true, middle) ∧
      unifyWithin depth middle p q = (true, after) := by
  rw [unifyWithin] at run
  simp only [head_arrow] at run
  split at run
  · rename_i middle results
    exact ⟨middle, results, run⟩
  · rename_i failed
    exact absurd run (failed after)

theorem Ends.result_of_unifyWithin (ends : table.Ends) (unsolved : table.solution? index = none)
    (inside : index < table.count) {params : List Kind}
    (run : KindTable.unifyWithin depth table (.function params (.var index)) kind = (true, after)) :
    (∀ count, kind.Admits (params.length + count)) ∨ ∃ rest, (∀ other, rest ≠ .var other) ∧
      after.solution? index = some rest ∧ ∀ count, rest.Admits count →
        kind.Admits (params.length + count) := by
  induction params generalizing kind depth after with
  | nil =>
    have alone : table.head (.var index) = .var index :=
      headWithin_of_final fun _ same => Kind.var.inj same ▸ unsolved
    cases depth with
    | zero => cases run
    | succ depth =>
      rw [KindTable.unifyWithin, Kind.function, List.foldr_nil, alone] at run
      cases kind with
      | var other => exact .inl fun count => Kind.admits_var other
      | star | arrow _ _ =>
        obtain rfl := eq_solve_of_assign run
        refine .inr ⟨_, by rintro _ ⟨⟩,
          (solution?_solve table index _ index).trans (if_pos ⟨rfl, inside⟩),
          fun count admits => ?_⟩
        rwa [List.length_nil, Nat.zero_add]
  | cons param params ih =>
    cases kind with
    | var other => exact .inl fun count => Kind.admits_var other
    | star =>
      cases depth with
      | zero => cases run
      | succ depth => cases (show (false, table) = (true, after) from run)
    | arrow first result =>
      have deeper : ∀ count, result.Admits (params.length + count) →
          (Kind.arrow first result).Admits ((param :: params).length + count) := by
        intro count admits
        rwa [List.length_cons, Nat.add_right_comm]
      cases depth with
      | zero => cases run
      | succ depth =>
        obtain ⟨middle, results, params'⟩ := unifyWithin_arrow run
        have between := (ends.unifyWithin results).ends
        refine (ih results).imp (fun all count => deeper count (all count)) ?_
        rintro ⟨rest, concrete, known, admits⟩
        exact ⟨rest, concrete, (between.unifyWithin params').kept index rest known,
          fun count taken => deeper count (admits count taken)⟩

/-- A kind that agrees with a function takes the parameters, and then what the result takes in the
end. -/
theorem Ends.admits_of_unify (ends : table.Ends) (unsolved : table.solution? index = none)
    (inside : index < table.count) {params : List Kind}
    (run : table.unify (.function params (.var index)) kind = (true, after))
    (admits : (after.defaulted (.var index)).Admits count) :
      kind.Admits (params.length + count) := by
  rcases ends.result_of_unifyWithin unsolved inside run with all | ⟨rest, concrete, known, taken⟩
  · exact all count
  · exact taken count (admits_of_solution? known concrete admits)

end Admits

end KindTable

end PolyCheck
