import Mathlib.Logic.Function.Basic
import Mathlib.Data.Nat.Notation

/-! A party that wants to hold a register writes a token, waits and reads it back. A holder writes
another value before a deadline. There is one holder at most if every claim waits until the
deadlines of the holders have passed, and if tokens are not written by anybody else. -/

namespace VMsep.Lib.TimedClaim

open Function

inductive Party (ν : Type) where
  | out
  | claiming (token : ν) (wakeAt : ℕ)
  | holding (deadline : ℕ)

structure Register (ι ν : Type) where
  now : ℕ
  value : ν
  party : ι → Party ν

variable {ι ν : Type} [DecidableEq ι] {s s' : Register ι ν} {i : ι} {v : ν} {t d : ℕ}

def Alive (s : Register ι ν) : Prop := ∀ i d, s.party i = .holding d → s.now < d

def Fresh (s : Register ι ν) (v : ν) : Prop := ∀ i w t, s.party i = .claiming w t → w ≠ v

/-- One holder at most, and no claim can be taken up before the deadlines of the others. -/
structure Inv (s : Register ι ν) : Prop where
  tokens : ∀ i j v t t', s.party i = .claiming v t → s.party j = .claiming v t' → i = j
  waits : ∀ i j v t d, s.party i = .claiming v t → s.party j = .holding d → s.value = v → d ≤ t
  one : ∀ i j d d', s.party i = .holding d → s.party j = .holding d' → i = j

omit [DecidableEq ι] in
theorem inv_of_out (h : ∀ i, s.party i = .out) : Inv s where
  tokens i j v t t' hi := by rw [h i] at hi; cases hi
  waits i j v t d hi := by rw [h i] at hi; cases hi
  one i j d d' hi := by rw [h i] at hi; cases hi

theorem update_cases {f : ι → Party ν} {j : ι} {x y : Party ν} (h : update f i x j = y) :
    j = i ∧ x = y ∨ j ≠ i ∧ f j = y := by
  rw [update_apply] at h
  split at h
  case isTrue hj => exact .inl ⟨hj, h⟩
  case isFalse hj => exact .inr ⟨hj, h⟩

omit [DecidableEq ι] in
theorem Inv.write (h : Inv s) (hv : Fresh s v) : Inv { s with value := v } where
  tokens := h.tokens
  waits i _ w t _ hi _ hw := absurd hw.symm (hv i w t hi)
  one := h.one

theorem Inv.claim (h : Inv s) (hv : Fresh s v)
    (ht : ∀ j d, j ≠ i → s.party j = .holding d → d ≤ t) :
    Inv { s with value := v, party := update s.party i (.claiming v t) } := by
  refine ⟨fun j k w u u' hj hk => ?_, fun j k w u d hj hk hw => ?_, fun j k d d' hj hk => ?_⟩
  · obtain ⟨hji, hj⟩ | ⟨-, hj⟩ := update_cases hj
    · cases hj
      obtain ⟨hki, -⟩ | ⟨-, hk⟩ := update_cases hk
      · rw [hji, hki]
      · exact absurd rfl (hv k v u' hk)
    · obtain ⟨-, hk⟩ | ⟨-, hk⟩ := update_cases hk
      · cases hk
        exact absurd rfl (hv j v u hj)
      · exact h.tokens j k w u u' hj hk
  · obtain ⟨-, hk⟩ | ⟨hki, hk⟩ := update_cases hk
    · cases hk
    obtain ⟨-, hj⟩ | ⟨-, hj⟩ := update_cases hj
    · cases hj
      exact ht k d hki hk
    · exact absurd hw.symm (hv j w u hj)
  · obtain ⟨-, hj⟩ | ⟨-, hj⟩ := update_cases hj
    · cases hj
    obtain ⟨-, hk⟩ | ⟨-, hk⟩ := update_cases hk
    · cases hk
    · exact h.one j k d d' hj hk

omit [DecidableEq ι] in
theorem Inv.no_holder (h : Inv s) (hi : s.party i = .claiming v t) (hv : s.value = v)
    (ht : t ≤ s.now) (halive : Alive s) (j : ι) (d : ℕ) : s.party j ≠ .holding d := by
  intro hj
  have hdeadline := halive j d hj
  have hwait := h.waits i j v t d hi hj hv
  omega

theorem Inv.hold (h : Inv s) (hi : s.party i = .claiming v t) (hv : s.value = v) (ht : t ≤ s.now)
    (halive : Alive s) : Inv { s with party := update s.party i (.holding d) } := by
  have hnone := h.no_holder hi hv ht halive
  refine ⟨fun j k w u u' hj hk => ?_, fun j k w u d' hj hk hw => ?_, fun j k e e' hj hk => ?_⟩
  · obtain ⟨-, hj⟩ | ⟨-, hj⟩ := update_cases hj
    · cases hj
    obtain ⟨-, hk⟩ | ⟨-, hk⟩ := update_cases hk
    · cases hk
    · exact h.tokens j k w u u' hj hk
  · -- the value is the token of this claim
    obtain ⟨-, hj⟩ | ⟨hji, hj⟩ := update_cases hj
    · cases hj
    · refine absurd (h.tokens j i w u t hj ?_) hji
      rw [hi, ← hv, ← hw]
  · obtain ⟨hji, -⟩ | ⟨-, hj⟩ := update_cases hj
    · obtain ⟨hki, -⟩ | ⟨-, hk⟩ := update_cases hk
      · rw [hji, hki]
      · exact absurd hk (hnone k e')
    · exact absurd hj (hnone j e)

theorem Inv.refresh (h : Inv s) {d' : ℕ} (hi : s.party i = .holding d') (hv : Fresh s v) :
    Inv { s with value := v, party := update s.party i (.holding d) } := by
  refine ⟨fun j k w u u' hj hk => ?_, fun j k w u e hj hk hw => ?_, fun j k e e' hj hk => ?_⟩
  · obtain ⟨-, hj⟩ | ⟨-, hj⟩ := update_cases hj
    · cases hj
    obtain ⟨-, hk⟩ | ⟨-, hk⟩ := update_cases hk
    · cases hk
    · exact h.tokens j k w u u' hj hk
  · obtain ⟨-, hj⟩ | ⟨-, hj⟩ := update_cases hj
    · cases hj
    · exact absurd hw.symm (hv j w u hj)
  · obtain ⟨hji, -⟩ | ⟨-, hj⟩ := update_cases hj
    · obtain ⟨hki, -⟩ | ⟨-, hk⟩ := update_cases hk
      · rw [hji, hki]
      · rw [hji]
        exact h.one i k d' e' hi hk
    · obtain ⟨hki, -⟩ | ⟨-, hk⟩ := update_cases hk
      · rw [hki]
        exact h.one j i e d' hj hi
      · exact h.one j k e e' hj hk

theorem Inv.leave (h : Inv s) (i : ι) :
    Inv { s with party := update s.party i .out } := by
  have hold : ∀ j (p : Party ν), p ≠ .out → update s.party i .out j = p →
      s.party j = p := by
    intro j p hp hj
    obtain ⟨-, hj⟩ | ⟨-, hj⟩ := update_cases hj
    · exact absurd hj.symm hp
    · exact hj
  exact ⟨fun j k w u u' hj hk => h.tokens j k w u u' (hold j _ (by simp) hj)
      (hold k _ (by simp) hk),
    fun j k w u d hj hk hw => h.waits j k w u d (hold j _ (by simp) hj) (hold k _ (by simp) hk) hw,
    fun j k d d' hj hk => h.one j k d d' (hold j _ (by simp) hj) (hold k _ (by simp) hk)⟩

end VMsep.Lib.TimedClaim
