import Mathlib.Algebra.Order.Group.Nat
import Mathlib.Data.List.Nodup
import Mathlib.Data.List.Range
import Mathlib.Data.List.Flatten
import VMsep.Lib.Branches

/-! Blocks of `n` pointers each. The pointers at the bottom of a tree in order, and the blocks above
them with every block behind those below it. -/

namespace VMsep.Lib.Branches.Pointers

open List

variable (n : ℕ) (s : Pointers)

/-- The pointers `d` levels below `v`, in order; all 0 below no pointer. -/
def values : (d v : ℕ) → List ℕ
  | 0, v => [v]
  | d + 1, v =>
    if v = 0 then replicate (n ^ (d + 1)) 0
    else (range n).flatMap fun i => values d (s.slot v i)

/-- The path of `d` slots to the pointer number `x`. -/
def digits : (d x : ℕ) → List ℕ
  | 0, _ => []
  | d + 1, x => x / n ^ d :: digits d (x % n ^ d)

theorem getElem?_flatMap_range {f : ℕ → List ℕ} {m : ℕ} (hf : ∀ i, (f i).length = m) (k : ℕ) {x : ℕ}
    (hx : x < k * m) : ((range k).flatMap f)[x]? = (f (x / m))[x % m]? := by
  induction k with
  | zero => omega
  | succ k ih =>
    have hlen : ((range k).flatMap f).length = k * m := by
      rw [length_flatMap, map_congr_left fun i _ => hf i, map_const',
        length_range, sum_replicate_nat]
    rw [range_succ, flatMap_append, flatMap_singleton]
    by_cases hlt : x < k * m
    · rw [getElem?_append_left (by omega), ih hlt]
    have hdiv : x / m = k := Nat.div_eq_of_lt_le (by omega) hx
    have hmod : x % m = x - k * m := by
      rw [Nat.mod_eq_sub_mul_div, hdiv, Nat.mul_comm]
    rw [getElem?_append_right (by omega), hlen, hdiv, hmod]

@[simp] theorem length_values (d v : ℕ) : (s.values n d v).length = n ^ d := by
  induction d generalizing v with
  | zero => rfl
  | succ _ ih =>
    rw [values]
    split
    · exact length_replicate
    · rw [length_flatMap, map_congr_left fun i _ => ih (s.slot v i), map_const',
        length_range, sum_replicate_nat, Nat.pow_succ, Nat.mul_comm]

theorem pow_pos_of_lt {n d x : ℕ} (hx : x < n ^ (d + 1)) : 0 < n ^ d := by
  refine Nat.pos_of_ne_zero fun h0 => ?_
  rw [Nat.pow_succ, h0, Nat.zero_mul] at hx
  exact Nat.not_lt_zero x hx

theorem getElem?_values {d x : ℕ} (v : ℕ) (hx : x < n ^ d) :
    (s.values n d v)[x]? = some (s.follow v (digits n d x)) := by
  induction d generalizing v x with
  | zero =>
    obtain rfl : x = 0 := by
      rw [Nat.pow_zero] at hx
      omega
    rfl
  | succ d ih =>
    rw [values, digits, follow]
    split
    · exact getElem?_replicate_of_lt hx
    · rw [getElem?_flatMap_range (fun i => s.length_values n d (s.slot v i)) n
        (by rw [Nat.mul_comm, ← Nat.pow_succ]; exact hx), ih _ (Nat.mod_lt x (pow_pos_of_lt hx))]

theorem digits_split {n a k x : ℕ} (hx : x < n ^ (a + k)) : digits n (a + k) x =
    digits n a (x / n ^ k) ++ digits n k (x % n ^ k) := by
  induction a generalizing x with
  | zero =>
    rw [Nat.zero_add] at hx ⊢
    rw [Nat.mod_eq_of_lt hx]
    rfl
  | succ a ih =>
    have hpow : n ^ (a + k) = n ^ k * n ^ a := by rw [Nat.pow_add, Nat.mul_comm]
    rw [Nat.succ_add] at hx ⊢
    rw [digits, ih (Nat.mod_lt x (pow_pos_of_lt hx)), digits, hpow,
      Nat.mod_mul_right_div_self, Nat.mod_mul_right_mod, Nat.div_div_eq_div_mul]
    rfl

theorem digits_add {n a k x i : ℕ} (hx : x < n ^ (a + k)) (hi : x % n ^ k + i < n ^ k) :
    x + i < n ^ (a + k) ∧ digits n (a + k) (x + i) =
      digits n a (x / n ^ k) ++ digits n k (x % n ^ k + i) := by
  have hpow : n ^ (a + k) = n ^ a * n ^ k := Nat.pow_add n a k
  have hsplit := Nat.div_add_mod x (n ^ k)
  have hpos : 0 < n ^ k := Nat.lt_of_le_of_lt (Nat.zero_le _) hi
  have hq : x / n ^ k < n ^ a := Nat.div_lt_of_lt_mul (by rwa [hpow, Nat.mul_comm] at hx)
  have hnext : (x / n ^ k + 1) * n ^ k ≤ n ^ a * n ^ k := Nat.mul_le_mul_right _ hq
  rw [Nat.succ_mul, Nat.mul_comm (x / n ^ k)] at hnext
  have hlt : x + i < n ^ (a + k) := by omega
  have heq : x + i = n ^ k * (x / n ^ k) + (x % n ^ k + i) := by omega
  have hdiv : (x + i) / n ^ k = x / n ^ k := by
    rw [heq, Nat.mul_add_div hpos, Nat.div_eq_of_lt hi, Nat.add_zero]
  have hmod : (x + i) % n ^ k = x % n ^ k + i := by
    rw [heq, Nat.mul_add_mod, Nat.mod_eq_of_lt hi]
  exact ⟨hlt, by rw [digits_split hlt, hdiv, hmod]⟩

theorem length_digits (n d x : ℕ) : (digits n d x).length = d := by
  induction d generalizing x with
  | zero => rfl
  | succ _ ih => rw [digits, length_cons, ih]

theorem follow_of_zero {v : ℕ} {χ : List ℕ} (h : s.follow v χ = 0) (τ : List ℕ) :
    s.follow v (χ ++ τ) = 0 := by
  induction χ generalizing v with
  | nil =>
    rw [follow] at h
    rw [h]
    exact s.follow_zero τ
  | cons _ _ ih =>
    rw [cons_append, follow]
    rw [follow] at h
    split
    · rfl
    next hv =>
    rw [if_neg hv] at h
    exact ih h

/-- The blocks of pointers in the tree with `d` levels below `v`, every block behind those below
it. -/
def blocks : (d v : ℕ) → List ℕ
  | 0, v => [v]
  | d + 1, v =>
    ((range n).flatMap fun i => if s.slot v i = 0 then [] else blocks d (s.slot v i)) ++ [v]

/-- The paths of at most `d` slots, in the same order. -/
def paths : (d : ℕ) → List (List ℕ)
  | 0 => [[]]
  | d + 1 => ((range n).flatMap fun i => (paths d).map (i :: ·)) ++ [[]]

theorem mem_paths {d : ℕ} {π : List ℕ} : π ∈ paths n d ↔ π.length ≤ d ∧ ∀ i ∈ π, i < n := by
  induction d generalizing π with
  | zero =>
    rw [paths, mem_singleton, Nat.le_zero, length_eq_zero_iff]
    constructor
    · rintro rfl
      exact ⟨rfl, fun i hi => absurd hi not_mem_nil⟩
    · exact fun h => h.1
  | succ _ ih =>
    rw [paths, mem_append, mem_flatMap, mem_singleton]
    constructor
    · rintro (⟨i, hi, hπ⟩ | rfl)
      · obtain ⟨χ, hχ, rfl⟩ := mem_map.mp hπ
        obtain ⟨hlen, hdigits⟩ := ih.mp hχ
        refine ⟨Nat.succ_le_succ hlen, fun j hj => ?_⟩
        obtain rfl | hj := mem_cons.mp hj
        · exact mem_range.mp hi
        · exact hdigits j hj
      · exact ⟨Nat.zero_le _, fun i hi => absurd hi not_mem_nil⟩
    · rintro ⟨hlen, hdigits⟩
      cases π with
      | nil => exact .inr rfl
      | cons i χ =>
        refine .inl ⟨i, mem_range.mpr (hdigits i mem_cons_self), mem_map.mpr
          ⟨χ, ih.mpr ⟨Nat.le_of_succ_le_succ hlen, fun j hj => ?_⟩, rfl⟩⟩
        exact hdigits j (mem_cons_of_mem i hj)

theorem nodup_paths (d : ℕ) : (paths n d).Nodup := by
  induction d with
  | zero => exact nodup_singleton _
  | succ _ ih =>
    rw [paths]
    refine nodup_append.mpr ⟨nodup_flatMap.mpr ⟨fun i _ => ?_, ?_⟩, nodup_singleton _, ?_⟩
    · exact ih.map (cons_injective)
    · refine nodup_range.imp fun {i j} hij => ?_
      intro π hi hj
      obtain ⟨χ, -, rfl⟩ := mem_map.mp hi
      obtain ⟨χ', -, heq⟩ := mem_map.mp hj
      exact hij (cons_eq_cons.mp heq).1.symm
    · intro π hπ π' hnil
      rw [mem_singleton.mp hnil]
      obtain ⟨i, -, hπ⟩ := mem_flatMap.mp hπ
      obtain ⟨χ, -, rfl⟩ := mem_map.mp hπ
      exact cons_ne_nil i χ

theorem blocks_eq {v : ℕ} (hv : v ≠ 0) (d : ℕ) :
    s.blocks n d v = ((paths n d).map (s.follow v)).filter (· ≠ 0) := by
  induction d generalizing v with
  | zero => simp [blocks, paths, follow, hv]
  | succ _ ih =>
    rw [blocks, paths, map_append, filter_append, map_flatMap, filter_flatMap]
    congr 1
    · refine flatMap_congr fun i _ => ?_
      rw [map_map]
      have hfollow : (s.follow v) ∘ (i :: ·) = s.follow (s.slot v i) := by
        funext π
        exact if_neg hv
      rw [hfollow]
      split
      case isTrue h0 =>
        rw [h0]
        symm
        rw [filter_eq_nil_iff]
        intro b hb
        obtain ⟨π, -, rfl⟩ := mem_map.mp hb
        simp [follow_zero]
      case isFalse h0 => exact ih h0
    · simp [follow, hv]

end VMsep.Lib.Branches.Pointers
