import Mathlib.Algebra.Order.Group.Nat
import Mathlib.Algebra.Ring.Int.Defs

/-! The times of an inode. The low 32 bits of the seconds are in a field of their own, and the epoch
bits share a second field with the nanoseconds. -/

namespace VMsep.Ext4

/-- `struct timespec` with seconds of 64 bits. -/
structure Timespec where
  tvSec : ℤ
  tvNsec : ℕ
  deriving DecidableEq

def encodeExtraTime (time : Timespec) : ℕ :=
  (((time.tvSec - time.tvSec.bmod (2 ^ 32)) / 2 ^ 32 % 4).toNat + time.tvNsec * 4) % 2 ^ 32

/-- `ext4_decode_extra_time` as it is compiled before version 4.20. -/
def decodeExtraTime (tvSec : ℤ) (extra : ℕ) : Timespec :=
  let extraBits : ℤ := extra % 4
  let extraBits := if extraBits = 3 ∧ 2 ^ 31 ≤ tvSec % 2 ^ 32 then 0 else extraBits
  { tvSec := tvSec + extraBits * 2 ^ 32, tvNsec := extra / 4 }

/-- `EXT4_INODE_SET_XTIME`, with the two fields of the raw inode. -/
def setXtime (time : Timespec) : ℕ × ℕ := ((time.tvSec % 2 ^ 32).toNat, encodeExtraTime time)

def getXtime (raw : ℕ × ℕ) : Timespec := decodeExtraTime ((raw.1 : ℤ).bmod (2 ^ 32)) raw.2

/-- The times of the documented table. -/
structure Timespec.Valid (time : Timespec) : Prop where
  lower : -2 ^ 31 ≤ time.tvSec
  upper : time.tvSec ≤ 0x37fffffff
  nsec : time.tvNsec < 10 ^ 9

theorem Timespec.Valid.setXtime_eq {time : Timespec} (h : time.Valid) :
    ∃ epoch low : ℤ, 0 ≤ epoch ∧ epoch < 4 ∧ -2 ^ 31 ≤ low ∧ low < 2 ^ 31 ∧
      time.tvSec = low + epoch * 2 ^ 32 ∧
      setXtime time = ((low % 2 ^ 32).toNat, epoch.toNat + time.tvNsec * 4) := by
  obtain ⟨hlo, hhi, hnsec⟩ := h
  refine ⟨(time.tvSec + 2 ^ 31) / 2 ^ 32, (time.tvSec + 2 ^ 31) % 2 ^ 32 - 2 ^ 31, by omega,
    by omega, by omega, by omega, by omega, Prod.ext ?_ ?_⟩
  · change (time.tvSec % 2 ^ 32).toNat = _
    omega
  · change encodeExtraTime time = _
    unfold encodeExtraTime
    rw [Int.bmod_def]
    split_ifs <;> omega

/-- The times of the table survive but for the years 2310 to 2378, and no two of them are stored
alike. -/
theorem getXtime_setXtime :
    (∀ time : Timespec, time.Valid → (getXtime (setXtime time) = time ↔
      ¬ (0x280000000 ≤ time.tvSec ∧ time.tvSec ≤ 0x2ffffffff))) ∧
    ∀ time time' : Timespec, time.Valid → time'.Valid → setXtime time = setXtime time' →
      time = time' := by
  constructor
  · intro time h
    obtain ⟨epoch, low, h0, h4, hlo, hhi, hsec, hset⟩ := h.setXtime_eq
    have hlow : (((low % 2 ^ 32).toNat : ℕ) : ℤ).bmod (2 ^ 32) = low := by
      rw [Int.bmod_def]
      split_ifs <;> omega
    have hbits : ((epoch.toNat + time.tvNsec * 4 : ℕ) : ℤ) % 4 = epoch := by omega
    have hnsec : (epoch.toNat + time.tvNsec * 4) / 4 = time.tvNsec := by omega
    rw [hset, getXtime, decodeExtraTime]
    simp only [hlow, hbits, hnsec]
    cases time
    simp only [Timespec.mk.injEq, and_true] at hsec ⊢
    -- the rule for old dates takes the last epoch when the low word is negative
    split_ifs <;> omega
  · intro time time' h h' heq
    obtain ⟨epoch, low, h0, h4, hlo, hhi, hsec, hset⟩ := h.setXtime_eq
    obtain ⟨epoch', low', h0', h4', hlo', hhi', hsec', hset'⟩ := h'.setXtime_eq
    rw [hset, hset', Prod.mk.injEq] at heq
    cases time
    cases time'
    rw [Timespec.mk.injEq]
    dsimp only at *
    omega

/-- A time in 2310 is read as one in 1901. -/
theorem getXtime_setXtime_2310 :
    Timespec.Valid ⟨0x280000000, 0⟩ ∧
      getXtime (setXtime ⟨0x280000000, 0⟩) = ⟨-0x80000000, 0⟩ := by
  refine ⟨⟨?_, ?_, ?_⟩, ?_⟩ <;> decide

theorem getXtime_setXtime_2038 :
    getXtime (setXtime ⟨0x80000000, 999999999⟩) = ⟨0x80000000, 999999999⟩ :=
  (getXtime_setXtime.1 _ ⟨by decide, by decide, by decide⟩).mpr (by decide)

end VMsep.Ext4
