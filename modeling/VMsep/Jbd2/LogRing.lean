import VMsep.Jbd2.LogWriter
import VMsep.Lib.Circular
import VMsep.Lib.Transition

/-! `j_head`, `j_tail` and `j_free` from `journal_reset` on. An `unsigned long` has `w` bits, and
the fields of the superblock are 32-bit numbers. -/

namespace VMsep.Jbd2

open Lib Circular Option

/-- The log in `struct journal_s`. -/
structure LogRing where
  jFirst : ℕ
  jLast : ℕ
  jHead : ℕ
  jTail : ℕ
  jFree : ℕ
  jTailSequence : Tid
  deriving DecidableEq

namespace LogRing

def minJournalBlocks : ℕ := 1024

/-- `journal_reset`; `none` for a journal that is too short. -/
def journalReset (sFirst sMaxlen : BitVec 32) (jTransactionSequence : Tid) : Option LogRing :=
  let first := sFirst.toNat
  let last := sMaxlen.toNat
  if last + 1 < first + minJournalBlocks then none
  else some
    { jFirst := first, jLast := last, jHead := first, jTail := first, jFree := last - first
      jTailSequence := jTransactionSequence }

/-- `jbd2_vmsep_journal_next_log_block` with the block it asks `bmap` for; `none` if the assertion
on `j_free` fails. -/
def nextLogBlock (s : LogRing) : Option (ℕ × LogRing) :=
  if 1 < s.jFree then
    some (s.jHead,
      { s with
        jHead := if s.jHead + 1 = s.jLast then s.jFirst else s.jHead + 1
        jFree := s.jFree - 1 })
  else none

/-- `freed` in `__jbd2_vmsep_update_log_tail`. -/
def freed (w : ℕ) (s : LogRing) (block : ℕ) : ℕ :=
  let freed := (block + 2 ^ w - s.jTail) % 2 ^ w
  if block < s.jTail then (freed + (s.jLast - s.jFirst)) % 2 ^ w else freed

/-- `__jbd2_vmsep_update_log_tail`, where `ret` is what the update of the superblock returns. -/
def updateLogTail (w : ℕ) (s : LogRing) (ret : ℤ) (tid : Tid) (block : ℕ) : LogRing :=
  if ret ≠ 0 then s
  else
    { s with
      jFree := (s.jFree + s.freed w block) % 2 ^ w
      jTailSequence := tid
      jTail := block }

/-- `freed` in the commit routine, a signed `long`. -/
def commitFreed (w : ℕ) (s : LogRing) (firstBlock : ℕ) : ℤ :=
  let freed := ((firstBlock : ℤ) - s.jTail).bmod (2 ^ w)
  if firstBlock < s.jTail then (freed + (s.jLast - s.jFirst)).bmod (2 ^ w) else freed

inductive Action where
  | nextLogBlock
  | updateLogTail (ret : ℤ) (tid : Tid) (block : ℕ)
  deriving DecidableEq

def step (w : ℕ) (s : LogRing) : Action → Option LogRing
  | .nextLogBlock => s.nextLogBlock.map (·.2)
  | .updateLogTail ret tid block => some (s.updateLogTail w ret tid block)

/-- Calls of `next_log_block`, one after the other, with the blocks they give. -/
def allocate : ℕ → LogRing → Option (List ℕ × LogRing)
  | 0, s => some ([], s)
  | k + 1, s =>
    s.nextLogBlock.bind fun (b, m) => (m.allocate k).map fun (bs, s') => (b :: bs, s')

def ringDistance (s : LogRing) (a b : ℕ) : ℕ := forward s.jFirst s.jLast a b

def used (s : LogRing) : List ℕ :=
  segment s.jFirst s.jLast s.jTail (s.ringDistance s.jTail s.jHead)

def Between (s : LogRing) (block : ℕ) : Prop :=
  On s.jFirst s.jLast block ∧ s.ringDistance s.jTail block ≤ s.ringDistance s.jTail s.jHead

def TailBetween (s : LogRing) : Action → Prop
  | .nextLogBlock => True
  | .updateLogTail _ _ block => s.Between block

instance (s : LogRing) (a : Action) : Decidable (s.TailBetween a) :=
  match a with
  | .nextLogBlock => .isTrue trivial
  | .updateLogTail _ _ block =>
    inferInstanceAs (Decidable (On s.jFirst s.jLast block ∧
      s.ringDistance s.jTail block ≤ s.ringDistance s.jTail s.jHead))

structure Accounted (s : LogRing) : Prop where
  head : On s.jFirst s.jLast s.jHead
  tail : On s.jFirst s.jLast s.jTail
  free : s.jFree = s.jLast - s.jFirst - s.ringDistance s.jTail s.jHead
  last_lt : s.jLast < 2 ^ 32

variable {w k block : ℕ} {s s' : LogRing}

theorem nextLogBlock_logHead (area : LogArea) (h : LogHead) (tail : ℕ) (seq : Tid) :
    (h.nextLogBlock area).map (fun r => (r.1, r.2.jHead, r.2.jFree)) =
      (nextLogBlock ⟨area.jFirst, area.jLast, h.jHead, tail, h.jFree, seq⟩).map
        fun r => (r.1, r.2.jHead, r.2.jFree) := by
  unfold LogHead.nextLogBlock nextLogBlock
  split_ifs <;> rfl

theorem accounted_journalReset {sFirst sMaxlen : BitVec 32} {seq : Tid}
    (h : journalReset sFirst sMaxlen seq = some s) : s.Accounted := by
  unfold journalReset minJournalBlocks at h
  have hlt := sMaxlen.isLt
  simp only [ite_none_left_eq_some, some.injEq] at h
  obtain ⟨hlen, rfl⟩ := h
  have hon : On sFirst.toNat sMaxlen.toNat sFirst.toNat := ⟨Nat.le_refl _, by omega⟩
  exact ⟨hon, hon, by rw [ringDistance, forward_self]; rfl, hlt⟩

theorem nextLogBlock_eq_some {b : ℕ} (h : s.nextLogBlock = some (b, s')) :
    1 < s.jFree ∧ b = s.jHead ∧
      s' = { s with jHead := next s.jFirst s.jLast s.jHead, jFree := s.jFree - 1 } := by
  unfold nextLogBlock at h
  by_cases hfree : 1 < s.jFree
  · rw [if_pos hfree, some.injEq, Prod.mk.injEq] at h
    exact ⟨hfree, h.1.symm, h.2.symm⟩
  · rw [if_neg hfree] at h
    cases h

section

variable (hs : s.Accounted)

include hs

/-- The assertion keeps one block free, so the head does not reach the tail. -/
theorem Accounted.forward_next (hfree : 1 < s.jFree) :
    s.ringDistance s.jTail (next s.jFirst s.jLast s.jHead) =
      s.ringDistance s.jTail s.jHead + 1 := by
  have := hs.free
  exact hs.tail.forward_next hs.head (by unfold ringDistance at this; omega)

theorem Accounted.nextLogBlock {b : ℕ} (h : s.nextLogBlock = some (b, s')) : s'.Accounted := by
  obtain ⟨hfree, -, rfl⟩ := nextLogBlock_eq_some h
  refine ⟨hs.head.next, hs.tail, ?_, hs.last_lt⟩
  have := hs.forward_next hfree
  have := hs.free
  unfold ringDistance at *
  dsimp only
  omega

theorem Accounted.allocate {bs : List ℕ} (h : s.allocate k = some (bs, s')) :
    s.ringDistance s.jTail s.jHead + k < s.jLast - s.jFirst ∧
      bs = segment s.jFirst s.jLast s.jHead k ∧
      s'.used = segment s.jFirst s.jLast s.jTail (s.ringDistance s.jTail s.jHead + k) := by
  induction k generalizing s bs with
  | zero =>
    obtain ⟨rfl, rfl⟩ := h
    exact ⟨hs.tail.forward_lt hs.head, rfl, rfl⟩
  | succ k ih =>
    simp only [LogRing.allocate, bind_eq_some_iff, map_eq_some_iff, Prod.exists, Prod.mk.injEq] at h
    obtain ⟨b, m, hm, bs', s'', hrest, rfl, rfl⟩ := h
    obtain ⟨hlt, hbs, hused⟩ := ih (hs.nextLogBlock hm) hrest
    obtain ⟨hfree, rfl, rfl⟩ := nextLogBlock_eq_some hm
    have hdist := hs.forward_next hfree
    have hmove : ∀ d, d = s.ringDistance s.jTail s.jHead + 1 →
        d + k = s.ringDistance s.jTail s.jHead + (k + 1) := by
      intro d hd
      omega
    refine ⟨?_, ?_, ?_⟩
    · rw [← hmove _ hdist]
      exact hlt
    · rw [hbs]
      rfl
    · rw [← hmove _ hdist]
      exact hused

/-- The subtraction without sign, corrected after the fact, is the distance. -/
theorem Accounted.freed_eq (hw : 32 ≤ w) (hb : On s.jFirst s.jLast block) :
    s.freed w block = s.ringDistance s.jTail block := by
  have hpow : 2 ^ 32 ≤ 2 ^ w := Nat.pow_le_pow_right Nat.two_pos hw
  obtain ⟨ht1, ht2⟩ := hs.tail
  obtain ⟨hb1, hb2⟩ := hb
  have hlast := hs.last_lt
  generalize hp : 2 ^ w = p at hpow
  unfold freed ringDistance forward
  rw [hp]
  by_cases hlt : block < s.jTail
  · have hsub : (block + p - s.jTail) % p = block + p - s.jTail := Nat.mod_eq_of_lt (by omega)
    have hsum : block + p - s.jTail + (s.jLast - s.jFirst) =
        s.jLast - s.jFirst + block - s.jTail + p := by omega
    rw [if_pos hlt, if_neg (by omega), hsub, hsum, Nat.add_mod_right,
      Nat.mod_eq_of_lt (by omega)]
  · have hsub : block + p - s.jTail = block - s.jTail + p := by omega
    rw [if_neg hlt, if_pos (by omega), hsub, Nat.add_mod_right, Nat.mod_eq_of_lt (by omega)]

/-- The signed copy of the commit routine is the same number of `w` bits. -/
theorem Accounted.commitFreed_eq (hb : On s.jFirst s.jLast block) :
    s.commitFreed w block = (s.ringDistance s.jTail block : ℤ).bmod (2 ^ w) := by
  obtain ⟨-, ht2⟩ := hs.tail
  obtain ⟨hb1, hb2⟩ := hb
  unfold commitFreed ringDistance forward
  by_cases hlt : block < s.jTail
  · have hsum : (block : ℤ) - s.jTail + (s.jLast - s.jFirst) =
        ((s.jLast - s.jFirst + block - s.jTail : ℕ) : ℤ) := by omega
    rw [if_pos hlt, if_neg (by omega), Int.bmod_add_bmod, hsum]
  · have hsub : (block : ℤ) - s.jTail = ((block - s.jTail : ℕ) : ℤ) := by omega
    rw [if_neg hlt, if_pos (by omega), hsub]

theorem Accounted.updateLogTail {ret : ℤ} {tid : Tid} (hw : 32 ≤ w) (hb : s.Between block) :
    (s.updateLogTail w ret tid block).Accounted := by
  unfold LogRing.updateLogTail
  split_ifs with hret
  · exact hs
  refine ⟨hs.head, hb.1, ?_, hs.last_lt⟩
  have hpow : 2 ^ 32 ≤ 2 ^ w := Nat.pow_le_pow_right Nat.two_pos hw
  have hadd := hs.tail.forward_add hb.1 hs.head hb.2
  have hlt := hs.tail.forward_lt hs.head
  have hlast := hs.last_lt
  have hfree := hs.free
  unfold ringDistance at hfree
  change (s.jFree + s.freed w block) % 2 ^ w =
    s.jLast - s.jFirst - forward s.jFirst s.jLast block s.jHead
  rw [hs.freed_eq hw hb.1, ringDistance, Nat.mod_eq_of_lt (by omega)]
  omega

/-- Every step keeps `j_free` the number of blocks outside of the log. -/
theorem Accounted.step {a : Action} (hw : 32 ≤ w) (hb : s.TailBetween a) (h : s.step w a = some s')
    : s'.Accounted := by
  cases a with
  | nextLogBlock =>
    obtain ⟨⟨b, m⟩, hm, rfl⟩ := map_eq_some_iff.mp h
    exact hs.nextLogBlock hm
  | updateLogTail =>
    obtain rfl := some.inj h
    exact hs.updateLogTail hw hb

end

/-- In every state after `journal_reset` the accounts of the log are right, blocks taken one after
the other are distinct and not in use, and `freed` is the distance to the new tail. -/
theorem log_accounting {w : ℕ} (hw : 32 ≤ w) {sFirst sMaxlen : BitVec 32} {seq : Tid}
    {s₀ s : LogRing} (as : List Action) (h₀ : journalReset sFirst sMaxlen seq = some s₀)
    (hex : exec (step w) s₀ as = some s)
    (hal : Along (step w) TailBetween s₀ as) :
    s.Accounted ∧
    (∀ k bs s', s.allocate k = some (bs, s') →
      bs.length = k ∧ bs.Nodup ∧ (∀ b ∈ bs, On s.jFirst s.jLast b ∧ b ∉ s.used) ∧
        s'.used = s.used ++ bs) ∧
    ∀ block, s.Between block →
      s.freed w block = s.ringDistance s.jTail block ∧
      s.commitFreed w block = (s.ringDistance s.jTail block : ℤ).bmod (2 ^ w) ∧
      (32 < w → s.commitFreed w block = s.ringDistance s.jTail block) := by
  have hs : s.Accounted := exec_invariant (I := Accounted)
    (fun s a s' hs hb h => hs.step hw hb h) as (accounted_journalReset h₀) hex hal
  refine ⟨hs, ?_, ?_⟩
  · intro k bs s' h
    obtain ⟨hlt, rfl, hused⟩ := hs.allocate h
    have hk : k ≤ s.jLast - s.jFirst := by omega
    have happend := hs.tail.segment_append hs.head hlt
    have hnodup := hs.tail.segment_nodup (Nat.le_of_lt hlt)
    rw [ringDistance, ← happend, List.nodup_append] at hnodup
    refine ⟨length_segment _ _, hnodup.2.1, ?_, hused.trans happend.symm⟩
    intro b hb
    exact ⟨((hs.head.mem_segment hk).mp hb).1, fun hu => hnodup.2.2 b hu b hb rfl⟩
  · intro block hb
    refine ⟨hs.freed_eq hw hb.1, hs.commitFreed_eq hb.1, ?_⟩
    intro hw'
    have hlt := hs.tail.forward_lt hb.1
    have hlast := hs.last_lt
    have hpow : 2 ^ 33 ≤ 2 ^ w := Nat.pow_le_pow_right Nat.two_pos hw'
    rw [hs.commitFreed_eq hb.1]
    unfold ringDistance
    exact Int.bmod_eq_of_le (by omega) (by omega)

/-- A log of 1100 blocks: three are taken and two of them given back. -/
theorem log_accounting_threeBlocks :
    let s : LogRing := ⟨1, 1101, 4, 3, 1099, 9⟩
    s.used = [3] ∧ s.Accounted := by
  have h₀ : journalReset 1 1101 7 = some ⟨1, 1101, 1, 1, 1100, 7⟩ := by decide
  exact ⟨by decide, (log_accounting (w := 64) (by decide)
    [.nextLogBlock, .nextLogBlock, .nextLogBlock, .updateLogTail 0 9 3] h₀
    (by decide +kernel) (by decide +kernel)).1⟩

end LogRing

end VMsep.Jbd2
