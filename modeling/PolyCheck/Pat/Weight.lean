import PolyCheck.Pat
import PolyCheck.Total

/-! A weight for rows of patterns that falls when a row is split. A row weighs the product of its
patterns: a wildcard weighs one, a head one more than the row of its fields, and alternatives one
more than all of them together. So taking the fields of a head or the alternatives of a pattern
makes a row lighter, and filling up with wildcards does not change it. -/
namespace PolyCheck

abbrev Row := List Pat

namespace Pat

mutual

def weight : Pat → Nat
  | wild _ => 1
  | bool _ => 2
  | int _ _ => 2
  | str _ => 2
  | tuple elems => rowWeight elems + 1
  | ctor _ _ _ args => rowWeight args + 1
  | oneOf ps => totalWeight ps + 1

def rowWeight : List Pat → Nat
  | [] => 1
  | p :: ps => weight p * rowWeight ps

def totalWeight : List Pat → Nat
  | [] => 0
  | p :: ps => weight p + totalWeight ps

end

def rowsWeight (rows : List Row) : Nat :=
  total (rows.map rowWeight)

mutual

theorem weight_pos : ∀ p : Pat, 0 < weight p
  | wild _ => by simp [weight]
  | bool _ => by simp [weight]
  | int _ _ => by simp [weight]
  | str _ => by simp [weight]
  | tuple _ => by simp [weight]
  | ctor _ _ _ _ => by simp [weight]
  | oneOf _ => by simp [weight]

theorem rowWeight_pos : ∀ ps : List Pat, 0 < rowWeight ps
  | [] => by simp [rowWeight]
  | p :: ps => by
    rw [rowWeight]
    exact Nat.mul_pos (weight_pos p) (rowWeight_pos ps)

end

@[simp] theorem rowWeight_append (ps qs : List Pat) :
    rowWeight (ps ++ qs) = rowWeight ps * rowWeight qs := by
  induction ps with
  | nil => simp [rowWeight]
  | cons p ps ih => simp [rowWeight, ih, Nat.mul_assoc]

@[simp] theorem rowWeight_anys (count : Nat) : rowWeight (anys count) = 1 := by
  induction count with
  | zero => rfl
  | succ count ih =>
    rw [anys] at ih
    rw [anys, List.replicate_succ, rowWeight, ih]
    rfl

theorem rowWeight_fields_lt {p : Pat} {h : Head} (head : p.head? = some h) :
    rowWeight p.fields < weight p := by
  cases p <;> simp_all [head?, fields, weight, rowWeight]

theorem rowWeight_cons_lt {p : Pat} {ps qs : List Pat} (lt : rowWeight qs < weight p) :
    rowWeight (qs ++ ps) < rowWeight (p :: ps) := by
  rw [rowWeight_append, rowWeight]
  exact Nat.mul_lt_mul_of_pos_right lt (rowWeight_pos ps)

mutual

theorem totalWeight_alternatives : ∀ p : Pat, totalWeight p.alternatives ≤ weight p
  | oneOf ps => by
    have := totalWeight_alternativesAll ps
    simp only [alternatives, weight]
    omega
  | wild _ => by simp [alternatives, totalWeight]
  | bool _ => by simp [alternatives, totalWeight]
  | int _ _ => by simp [alternatives, totalWeight]
  | str _ => by simp [alternatives, totalWeight]
  | tuple _ => by simp [alternatives, totalWeight]
  | ctor _ _ _ _ => by simp [alternatives, totalWeight]

theorem totalWeight_alternativesAll :
    ∀ ps : List Pat, totalWeight (alternativesAll ps) ≤ totalWeight ps
  | [] => by simp [alternativesAll, totalWeight]
  | p :: ps => by
    have head := totalWeight_alternatives p
    have tail := totalWeight_alternativesAll ps
    have split : ∀ as bs : List Pat,
        totalWeight (as ++ bs) = totalWeight as + totalWeight bs := by
      intro as bs
      induction as with
      | nil => simp [totalWeight]
      | cons a as ih => simp [totalWeight, ih, Nat.add_assoc]
    rw [alternativesAll, split, totalWeight]
    omega

end

theorem weight_le_totalWeight {p : Pat} {ps : List Pat} (mem : p ∈ ps) :
    weight p ≤ totalWeight ps := by
  induction ps with
  | nil => simp at mem
  | cons q qs ih =>
    rw [totalWeight]
    rcases List.mem_cons.mp mem with rfl | mem
    · omega
    · have := ih mem
      omega

end Pat

end PolyCheck
