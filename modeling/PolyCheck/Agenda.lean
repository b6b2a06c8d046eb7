/-! Depth-first work on a list instead of the stack. An agenda lists items, each with the number of
levels that may still come below it; the items below the first one take its place with one level
less. `walk_eq_forM` says that this is the recursion into the items, one after the other. -/
namespace PolyCheck

abbrev Agenda (α : Type) := List (Nat × α)

namespace Agenda

structure Levels where
  toList : List Nat

/-- The first entry gives way to any number of lower ones. -/
inductive Lower : Levels → Levels → Prop where
  | replace {level : Nat} {below rest : List Nat} (lower : ∀ l ∈ below, l < level) :
    Lower ⟨below ++ rest⟩ ⟨level :: rest⟩

theorem acc_cons (level : Nat) :
    ∀ rest, Acc Lower ⟨rest⟩ → Acc Lower ⟨level :: rest⟩ := by
  induction level using Nat.strongRecOn with
  | ind level ih =>
    intro rest finite
    refine Acc.intro _ fun levels smaller => ?_
    obtain @⟨_, below, _, lower⟩ := smaller
    induction below with
    | nil => exact finite
    | cons l ls ihBelow =>
      exact ih l (lower l List.mem_cons_self) _
        (ihBelow fun k member => lower k (List.mem_cons_of_mem l member))

theorem acc_lower : ∀ levels, Acc Lower levels
  | ⟨[]⟩ => Acc.intro _ fun _ smaller => nomatch smaller
  | ⟨level :: rest⟩ => acc_cons level rest (acc_lower ⟨rest⟩)

instance : WellFoundedRelation Levels := ⟨Lower, ⟨acc_lower⟩⟩

theorem lower_below (level : Nat) {α : Type} (below : List α) (rest : Agenda α) :
    Lower ⟨(below.map (level, ·) ++ rest).map (·.1)⟩ ⟨(level + 1) :: rest.map (·.1)⟩ := by
  rw [List.map_append, List.map_map]
  refine Lower.replace fun l member => ?_
  obtain ⟨_, _, rfl⟩ := List.mem_map.mp member
  exact Nat.lt_succ_self level

variable {m : Type → Type} [Monad m] {α : Type}

/-- Visits the items of an agenda in order, and what is below an item before the items behind it.
`stop` is done about an item without a level left. -/
@[specialize] def walk (stop : m Unit) (visit : Nat → α → m (List α)) : Agenda α → m Unit
  | [] => pure ()
  | (0, _) :: rest => do
    stop
    walk stop visit rest
  | (level + 1, item) :: rest => do
    let below ← visit (level + 1) item
    walk stop visit (below.map (level, ·) ++ rest)
termination_by agenda => Levels.mk (agenda.map (·.1))
decreasing_by
  · exact @Lower.replace 0 [] (rest.map (·.1)) (fun _ member => nomatch member)
  · exact lower_below level below rest

def descend (stop : m Unit) (visit : Nat → α → m (List α)) : Nat → α → m Unit
  | 0, _ => stop
  | level + 1, item => do
    let below ← visit (level + 1) item
    forM below (descend stop visit level)

theorem walk_eq_forM [LawfulMonad m] (stop : m Unit) (visit : Nat → α → m (List α))
    (agenda : Agenda α) :
    walk stop visit agenda = forM agenda fun entry => descend stop visit entry.1 entry.2 := by
  fun_induction walk stop visit agenda with
  | case1 => rfl
  | case2 _ rest ih => rw [ih, List.forM_cons, descend]
  | case3 level item rest ih =>
    rw [List.forM_cons, descend, bind_assoc]
    congr 1
    funext below
    rw [ih below, List.forM_append, List.forM_map]

theorem walk_singleton [LawfulMonad m] (stop : m Unit) (visit : Nat → α → m (List α))
    (level : Nat) (item : α) :
    walk stop visit [(level, item)] = descend stop visit level item := by
  rw [walk_eq_forM, List.forM_cons, List.forM_nil]
  exact bind_pure_unit

end Agenda

end PolyCheck
