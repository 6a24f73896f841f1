import Mathlib.Data.List.Basic

/-! The positions from `first` up to `last`, where `first` follows the last one. -/

namespace VMsep.Lib.Circular

variable (first last : ℕ)

/-- The position after `p`. -/
def next (p : ℕ) : ℕ := if p + 1 = last then first else p + 1

/-- The number of positions from `a` up to `b`, without `b`. -/
def forward (a b : ℕ) : ℕ := if a ≤ b then b - a else last - first + b - a

/-- The `k` positions from `a` on. -/
def segment : (a k : ℕ) → List ℕ
  | _, 0 => []
  | a, k + 1 => a :: segment (next first last a) k

def On (p : ℕ) : Prop := first ≤ p ∧ p < last

instance (p : ℕ) : Decidable (On first last p) :=
  inferInstanceAs (Decidable (first ≤ p ∧ p < last))

variable {first last} {a b c x k : ℕ}

theorem On.next (ha : On first last a) : On first last (next first last a) := by
  unfold On Circular.next at *
  split_ifs <;> omega

theorem On.forward_lt (ha : On first last a) (hb : On first last b) :
    forward first last a b < last - first := by
  unfold On forward at *
  split_ifs <;> omega

theorem forward_self : forward first last a a = 0 := by
  rw [forward, if_pos (Nat.le_refl a), Nat.sub_self]

section

variable (ha : On first last a)

include ha

theorem On.eq_of_forward (hb : On first last b) (h : forward first last a b = 0) : a = b := by
  unfold On forward at *
  split_ifs at h <;> omega

theorem On.forward_start (hb : On first last b) (hne : a ≠ b) :
    forward first last a b = forward first last (Circular.next first last a) b + 1 := by
  unfold On forward Circular.next at *
  split_ifs <;> omega

theorem On.forward_next (hb : On first last b) (h : forward first last a b + 1 < last - first) :
    forward first last a (Circular.next first last b) = forward first last a b + 1 := by
  unfold On forward Circular.next at *
  split_ifs at * <;> omega

theorem On.forward_add (hb : On first last b) (hc : On first last c)
    (h : forward first last a b ≤ forward first last a c) :
    forward first last a b + forward first last b c = forward first last a c := by
  unfold On forward at *
  split_ifs at * <;> omega

theorem On.mem_segment (hk : k ≤ last - first) :
    x ∈ segment first last a k ↔ On first last x ∧ forward first last a x < k := by
  induction k generalizing a with
  | zero => simp [segment]
  | succ k ih =>
    rw [segment, List.mem_cons, ih ha.next (by omega)]
    constructor
    · rintro (rfl | ⟨hx, hlt⟩)
      · exact ⟨ha, by rw [forward_self]; exact Nat.succ_pos k⟩
      refine ⟨hx, ?_⟩
      by_cases hax : a = x
      · rw [hax, forward_self]
        exact Nat.succ_pos k
      · rw [ha.forward_start hx hax]
        exact Nat.succ_lt_succ hlt
    · rintro ⟨hx, hlt⟩
      by_cases hax : a = x
      · exact .inl hax.symm
      · rw [ha.forward_start hx hax] at hlt
        exact .inr ⟨hx, Nat.lt_of_succ_lt_succ hlt⟩

end

theorem length_segment (a k : ℕ) : (segment first last a k).length = k := by
  induction k generalizing a with
  | zero => rfl
  | succ k ih => rw [segment, List.length_cons, ih]

theorem On.segment_nodup (ha : On first last a) (hk : k ≤ last - first) :
    (segment first last a k).Nodup := by
  induction k generalizing a with
  | zero => exact List.nodup_nil
  | succ k ih =>
    refine List.nodup_cons.mpr ⟨?_, ih ha.next (by omega)⟩
    -- `a` is the last position of a whole turn from the one after it
    rw [ha.next.mem_segment (by omega)]
    rintro ⟨-, hlt⟩
    unfold On forward Circular.next at *
    split_ifs at hlt <;> omega

theorem On.segment_append (ha : On first last a) (hb : On first last b)
    (h : forward first last a b + k < last - first) :
    segment first last a (forward first last a b) ++ segment first last b k =
      segment first last a (forward first last a b + k) := by
  induction hd : forward first last a b generalizing a with
  | zero =>
    obtain rfl := ha.eq_of_forward hb hd
    rw [segment, List.nil_append, Nat.zero_add]
  | succ d ih =>
    have hne : a ≠ b := by
      rintro rfl
      rw [forward_self] at hd
      exact absurd hd (Nat.succ_ne_zero d).symm
    have hstart := ha.forward_start hb hne
    have hd' : forward first last (Circular.next first last a) b = d := by omega
    rw [Nat.succ_add, segment, segment, List.cons_append, ih ha.next (by omega) hd']

end VMsep.Lib.Circular
