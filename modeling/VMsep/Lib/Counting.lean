import Mathlib.Algebra.BigOperators.Intervals
import Mathlib.Algebra.Order.BigOperators.Group.Finset

/-! A counter that mirrors a family of objects `f 0, …, f (n - 1)` is the sum of a weight over the
family. These lemmas say how the sum moves when one object changes or a new one is created. -/

namespace VMsep.Lib

open Finset

variable {β M : Type*} [AddCommMonoid M]

section Parties

variable {ι : Type*} [Fintype ι] [DecidableEq ι]

theorem sum_point {f g : ι → M} {x : ι} (h : ∀ y, y ≠ x → g y = f y) :
    ∑ y, g y + f x = ∑ y, f y + g x := by
  have hrest : ∀ y ∈ univ.erase x, g y = f y := fun y hy => h y (ne_of_mem_erase hy)
  rw [← add_sum_erase _ g (mem_univ x), ← add_sum_erase _ f (mem_univ x),
    sum_congr rfl hrest, add_right_comm, add_comm (g x), add_right_comm]

theorem eq_zero_of_sum_le {f : ι → ℕ} {x y : ι} (h : ∑ z, f z ≤ f x) (hy : y ≠ x) : f y = 0 := by
  have hsum := add_sum_erase univ f (mem_univ x)
  have hle := single_le_sum (fun z _ => Nat.zero_le (f z))
    (mem_erase.mpr ⟨hy, mem_univ y⟩)
  omega

end Parties

/-- The total weight of the first `n` objects of a family. -/
def total (w : β → M) (n : ℕ) (f : ℕ → β) : M := ∑ i ∈ Finset.range n, w (f i)

variable {w : β → ℤ} {n i : ℕ} {f : ℕ → β}

theorem total_update {w : β → M} (hi : i < n) (x : β) :
    total w n (Function.update f i x) + w (f i) = total w n f + w x := by
  have hmem : i ∈ range n := mem_range.mpr hi
  have hrest : ∀ k ∈ (range n).erase i, w (Function.update f i x k) = w (f k) :=
    fun k hk => by rw [Function.update_of_ne (ne_of_mem_erase hk)]
  unfold total
  rw [← add_sum_erase _ _ hmem, ← add_sum_erase _ (fun k => w (f k)) hmem,
    sum_congr rfl hrest, Function.update_self]
  exact add_right_comm _ _ _ |>.trans (by rw [add_comm (w x), add_right_comm])

theorem total_update_of_le {w : β → M} (hi : n ≤ i) (x : β) :
    total w n (Function.update f i x) = total w n f :=
  sum_congr rfl fun k hk => by
    rw [Function.update_of_ne (by have := mem_range.mp hk; omega)]

theorem total_succ (w : β → M) (n : ℕ) (f : ℕ → β) : total w (n + 1) f = total w n f + w (f n) :=
  sum_range_succ _ _

theorem total_eq_zero_iff (h : ∀ x, 0 ≤ w x) : total w n f = 0 ↔ ∀ i, i < n → w (f i) = 0 := by
  unfold total
  rw [sum_eq_zero_iff_of_nonneg fun i _ => h (f i)]
  simp

theorem total_nonneg (h : ∀ x, 0 ≤ w x) : 0 ≤ total w n f :=
  sum_nonneg fun i _ => h (f i)

theorem weight_le_total {w : β → ℕ} (hi : i < n) : w (f i) ≤ total w n f :=
  single_le_sum (f := fun i => w (f i)) (fun _ _ => Nat.zero_le _) (mem_range.mpr hi)

end VMsep.Lib
