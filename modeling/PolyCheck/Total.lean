/-! Sums of sizes, which bound walks over types and kinds and measure matrices of patterns. -/
namespace PolyCheck

def total : List Nat → Nat
  | [] => 0
  | size :: sizes => size + total sizes

@[simp] theorem total_nil : total [] = 0 := rfl

@[simp] theorem total_cons (size : Nat) (sizes : List Nat) :
    total (size :: sizes) = size + total sizes := rfl

@[simp] theorem total_append (sizes sizes' : List Nat) :
    total (sizes ++ sizes') = total sizes + total sizes' := by
  induction sizes with
  | nil => simp
  | cons size sizes ih => simp [ih, Nat.add_assoc]

theorem getElem_le_total (sizes : List Nat) (index : Nat) (inside : index < sizes.length) :
    sizes[index] ≤ total sizes := by
  induction sizes generalizing index with
  | nil => simp at inside
  | cons first rest ih =>
    cases index with
    | zero => simp
    | succ index =>
      have := ih index (by simpa using inside)
      simp only [List.getElem_cons_succ, total_cons]
      omega

theorem total_set (sizes : List Nat) (index : Nat) (inside : index < sizes.length) (size : Nat) :
    total (sizes.set index size) = total sizes - sizes[index] + size := by
  induction sizes generalizing index with
  | nil => simp at inside
  | cons first rest ih =>
    cases index with
    | zero =>
      simp only [List.set_cons_zero, total_cons, List.getElem_cons_zero]
      omega
    | succ index =>
      have inside' : index < rest.length := by simpa using inside
      have := getElem_le_total rest index inside'
      simp only [List.set_cons_succ, total_cons, List.getElem_cons_succ]
      rw [ih index inside']
      omega

end PolyCheck
