import Mathlib

/-! Loops that take turns. A turn takes the first open item and puts what is left of it in its
place, so an item is worked off before the ones behind it are looked at. Where every item gives way
to lighter ones, a loop comes to its end. -/
namespace PolyCheck

variable {σ τ α : Type}

def Turns (turn : σ → σ) (first last : σ) : Prop := ∃ count, turn^[count] first = last

namespace Turns

variable {turn : σ → σ} {first middle last : σ}

theorem refl (turn : σ → σ) (state : σ) : Turns turn state state := ⟨0, rfl⟩

theorem trans (before : Turns turn first middle) (after : Turns turn middle last) :
    Turns turn first last := by
  obtain ⟨count, rfl⟩ := before
  obtain ⟨count', rfl⟩ := after
  exact ⟨count' + count, Function.iterate_add_apply turn count' count first⟩

theorem next (turn : σ → σ) (after : Turns turn (turn first) last) : Turns turn first last := by
  obtain ⟨count, rfl⟩ := after
  exact ⟨count + 1, Function.iterate_succ_apply turn count first⟩

theorem all {state : List α → τ → σ} {result : τ → α → τ} {items : List α}
    (each : ∀ item ∈ items, ∀ rest so,
      Turns turn (state (item :: rest) so) (state rest (result so item)))
    (rest : List α) (so : τ) : Turns turn (state (items ++ rest) so)
    (state rest (items.foldl result so)) := by
  induction items generalizing so with
  | nil => exact .refl _ _
  | cons item items ih =>
    obtain ⟨here, others⟩ := List.forall_mem_cons.mp each
    exact (here (items ++ rest) so).trans (ih others _)

end Turns

def advance (parts : α → List α) : List α → List α
  | [] => []
  | item :: rest => parts item ++ rest

end PolyCheck
