import VMsep.Lib.BitScan
import Mathlib.Tactic.SplitIfs

/-! `mb_clear_bits`, `ext4_set_bits` and `mb_test_and_clear_bits` on the bits of the memory, where
bit `k` of the byte at address `a` is bit `8 * a + k`. -/

namespace VMsep.Ext4.Mballoc

open Function Lib

def mbCorrectAddrAndBit (bit addr : ℕ) : ℕ × ℕ := (addr - addr % 8, bit + addr % 8 * 8)

/-- The bit of the memory that an operation on bit `bit` at an address works on. -/
def bitPos (bit addr : ℕ) : ℕ :=
  let (addr, bit) := mbCorrectAddrAndBit bit addr
  8 * addr + bit

def mbFindNextZeroBit (mem : ℕ → Bool) (addr max start : ℕ) : ℕ :=
  let (addr, fix) := mbCorrectAddrAndBit 0 addr
  let tmpmax := max + fix
  let start := start + fix
  let ret := findFrom (fun k => mem (8 * addr + k) = false) start (tmpmax - start) - fix
  if ret > max then max else ret

def storeWord (mem : ℕ → Bool) (addr : ℕ) (v : Bool) : ℕ → Bool :=
  fun k => if 8 * addr ≤ k ∧ k < 8 * addr + 32 then v else mem k

/-- The loop of `mb_clear_bits` and of `ext4_set_bits`, up to bit `stop`. -/
def fillBits (v : Bool) (bm stop cur : ℕ) (mem : ℕ → Bool) : ℕ → Bool :=
  if cur < stop then
    if cur % 32 = 0 ∧ stop - cur ≥ 32 then
      fillBits v bm stop (cur + 32) (storeWord mem (bm + cur / 8) v)
    else fillBits v bm stop (cur + 1) (update mem (bitPos cur bm) v)
  else mem
termination_by stop - cur

def mbClearBits (bm cur len : ℕ) : (ℕ → Bool) → ℕ → Bool := fillBits false bm (cur + len) cur

def setBits (bm cur len : ℕ) : (ℕ → Bool) → ℕ → Bool := fillBits true bm (cur + len) cur

def testAndClearLoop (bm stop cur : ℕ) (zeroBit : ℤ) (mem : ℕ → Bool) : ℤ × (ℕ → Bool) :=
  if cur < stop then
    if cur % 32 = 0 ∧ stop - cur ≥ 32 then
      let addr := bm + cur / 8
      let zeroBit := if (∃ k < 32, mem (8 * addr + k) = false) ∧ zeroBit = -1 then
        (cur + mbFindNextZeroBit mem addr 32 0 : ℤ) else zeroBit
      testAndClearLoop bm stop (cur + 32) zeroBit (storeWord mem addr false)
    else
      let zeroBit := if mem (bitPos cur bm) = false ∧ zeroBit = -1 then (cur : ℤ) else zeroBit
      testAndClearLoop bm stop (cur + 1) zeroBit (update mem (bitPos cur bm) false)
  else (zeroBit, mem)
termination_by stop - cur

def mbTestAndClearBits (bm cur len : ℕ) : (ℕ → Bool) → ℤ × (ℕ → Bool) :=
  testAndClearLoop bm (cur + len) cur (-1)

variable {bm start stop cur : ℕ} {z : ℤ} {mem : ℕ → Bool}

theorem bitPos_eq (bit addr : ℕ) : bitPos bit addr = 8 * addr + bit := by
  unfold bitPos mbCorrectAddrAndBit
  dsimp only
  omega

theorem fillBits_apply (v : Bool) (bm stop cur : ℕ) (mem : ℕ → Bool) (x : ℕ) :
    fillBits v bm stop cur mem x = if 8 * bm + cur ≤ x ∧ x < 8 * bm + stop then v else mem x := by
  fun_induction fillBits v bm stop cur mem with
  | case1 cur mem _ hword ih =>
    rw [ih, storeWord]
    split_ifs <;> first | rfl | omega
  | case2 cur mem _ _ ih =>
    rw [ih, bitPos_eq, update_apply]
    split_ifs <;> first | rfl | omega
  | case3 => exact (if_neg (by omega)).symm

/-- The first clear bit among those from `start` to `cur`, or `-1`. -/
def FirstClear (bm start cur : ℕ) (mem : ℕ → Bool) (z : ℤ) : Prop :=
  (z = -1 ∧ ∀ k, start ≤ k → k < cur → mem (8 * bm + k) = true) ∨
    ∃ j : ℕ, z = j ∧ start ≤ j ∧ j < cur ∧ mem (8 * bm + j) = false ∧
      ∀ k, start ≤ k → k < j → mem (8 * bm + k) = true

theorem FirstClear.next {j n : ℕ} (h : FirstClear bm start cur mem z) (hcur : start ≤ cur)
    (hj : cur ≤ j) (hn : j ≤ n) (hset : ∀ k, cur ≤ k → k < j → mem (8 * bm + k) = true)
    (hclear : j < n → mem (8 * bm + j) = false) :
    FirstClear bm start n mem (if j < n ∧ z = -1 then j else z) := by
  obtain ⟨rfl, hset'⟩ | ⟨i, rfl, h1, h2, h3, h4⟩ := h
  · have hall : ∀ k, start ≤ k → k < j → mem (8 * bm + k) = true := by
      intro k hk hlt
      by_cases hkc : k < cur
      · exact hset' k hk hkc
      · exact hset k (not_lt.mp hkc) hlt
    split_ifs with hlt
    · exact .inr ⟨j, rfl, hcur.trans hj, hlt.1, hclear hlt.1, hall⟩
    · exact .inl ⟨rfl, fun k hk h => hall k hk (by omega)⟩
  · rw [if_neg (by omega)]
    exact .inr ⟨i, rfl, h1, by omega, h3, h4⟩

theorem mbFindNextZeroBit_spec (mem : ℕ → Bool) (addr : ℕ) :
    ∃ j ≤ 32, mbFindNextZeroBit mem addr 32 0 = j ∧ (∀ k < j, mem (8 * addr + k) = true) ∧
      (j < 32 → mem (8 * addr + j) = false) := by
  obtain ⟨fix, hfix⟩ : ∃ fix, fix = 0 + addr % 8 * 8 := ⟨_, rfl⟩
  obtain ⟨h1, h2, hnot, hp⟩ := findFrom_spec
    (fun k => mem (8 * (addr - addr % 8) + k) = false) (0 + fix) (32 + fix - (0 + fix))
  rw [mbFindNextZeroBit, mbCorrectAddrAndBit]
  dsimp only
  rw [← hfix]
  generalize findFrom (fun k => mem (8 * (addr - addr % 8) + k) = false) (0 + fix)
    (32 + fix - (0 + fix)) = r at *
  obtain ⟨j, rfl⟩ := Nat.exists_eq_add_of_le h1
  have hpos : ∀ k, 8 * (addr - addr % 8) + (0 + fix + k) = 8 * addr + k := by omega
  refine ⟨j, by omega, by split_ifs <;> omega, fun k hk => ?_, fun hj => ?_⟩
  · rw [← hpos]
    exact (Bool.not_eq_false _).mp (hnot _ (by omega) (by omega))
  · rw [← hpos]
    exact hp (by omega)

theorem testAndClearLoop_spec {mem₀ : ℕ → Bool} (h : FirstClear bm start cur mem₀ z)
    (hcur : start ≤ cur) (hstop : cur ≤ stop)
    (hsame : ∀ k, cur ≤ k → mem (8 * bm + k) = mem₀ (8 * bm + k)) :
    (testAndClearLoop bm stop cur z mem).2 = fillBits false bm stop cur mem ∧
      FirstClear bm start stop mem₀ (testAndClearLoop bm stop cur z mem).1 := by
  fun_induction testAndClearLoop bm stop cur z mem with
  | case1 cur z mem hlt hword addr z' ih =>
    have hpos : ∀ k, mem (8 * addr + k) = mem₀ (8 * bm + (cur + k)) :=
      fun k => (congrArg mem (by omega)).trans (hsame (cur + k) (by omega))
    obtain ⟨j, hj, heq, hset, hclear⟩ := mbFindNextZeroBit_spec mem addr
    rw [fillBits, if_pos hlt, if_pos hword]
    refine ih ?_ (by omega) (by omega) fun k hk => (if_neg (by omega)).trans (hsame k (by omega))
    have hiff : (∃ k < 32, mem (8 * addr + k) = false) ↔ cur + j < cur + 32 := by
      constructor
      · rintro ⟨k, hk, hbit⟩
        by_contra hge
        simp [hset k (by omega)] at hbit
      · exact fun hlt => ⟨j, by omega, hclear (by omega)⟩
    unfold z'
    simp only [hiff, heq]
    clear hiff
    simp only [hpos] at hset hclear
    refine h.next hcur (Nat.le_add_right cur j) (by omega) (fun k hk hlt => ?_) fun hlt => ?_
    · obtain ⟨i, rfl⟩ := Nat.exists_eq_add_of_le hk
      exact hset i (by omega)
    · exact hclear (by omega)
  | case2 cur z mem hlt hword z' ih =>
    rw [fillBits, if_pos hlt, if_neg hword]
    refine ih ?_ (by omega) hlt fun k hk => ?_
    · unfold z'
      rw [bitPos_eq, hsame cur le_rfl]
      cases hbit : mem₀ (8 * bm + cur) with
      | false =>
        simpa using h.next (n := cur + 1) hcur le_rfl cur.le_succ (by intros; omega) fun _ => hbit
      | true =>
        simpa using h.next (n := cur + 1) hcur cur.le_succ le_rfl
          (fun k hk hlt => (show cur = k by omega) ▸ hbit) (by simp)
    · rw [update_of_ne (by rw [bitPos_eq]; omega)]
      exact hsame k (by omega)
  | case3 cur z mem hge =>
    rw [fillBits, if_neg hge]
    obtain rfl : cur = stop := by omega
    exact ⟨rfl, h⟩

/-- The operations by words change the bits of the range and no others, and the test finds the first
bit that was clear. -/
theorem wordBits_exact (bm cur len : ℕ) (mem : ℕ → Bool) :
    (∀ x, mbClearBits bm cur len mem x =
      if 8 * bm + cur ≤ x ∧ x < 8 * bm + (cur + len) then false else mem x) ∧
    (∀ x, setBits bm cur len mem x =
      if 8 * bm + cur ≤ x ∧ x < 8 * bm + (cur + len) then true else mem x) ∧
    (mbTestAndClearBits bm cur len mem).2 = mbClearBits bm cur len mem ∧
    FirstClear bm cur (cur + len) mem (mbTestAndClearBits bm cur len mem).1 :=
  ⟨fillBits_apply false bm (cur + len) cur mem, fillBits_apply true bm (cur + len) cur mem,
    testAndClearLoop_spec (.inl ⟨rfl, fun _ hk hlt => absurd hlt (not_lt.mpr hk)⟩) le_rfl
      (Nat.le_add_right cur len) fun _ _ => rfl⟩

end VMsep.Ext4.Mballoc
