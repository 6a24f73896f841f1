import Mathlib.Data.Finset.Basic
import VMsep.Lib.Transition

/-! `ext4_bio_write_page` marks the buffers of a page, adds them to bios one by one and cleans up
when that fails. `ext4_finish_bio` runs for each part of the page at any time after the submission.
-/

namespace VMsep.Ext4.PageIo

open Lib Finset

/-- Where `ext4_bio_write_page` is, with the buffer it comes to next. -/
inductive Stage where
  | encrypt
  | submit (i : ℕ)
  | clean (i : ℕ)
  | unlock
  | done
  deriving DecidableEq

/-- A page with the buffers in `io_bio` and those in bios that have not completed. -/
structure Page where
  count : ℕ
  asyncWrite : Finset ℕ
  ioBio : Finset ℕ
  flight : Finset ℕ
  nrSubmitted : ℕ
  stage : Stage
  /-- The calls of `end_page_writeback`. -/
  ended : ℕ

/-- The encryption, a round of each loop and the end of `ext4_bio_write_page`, `ext4_io_submit`,
and `ext4_finish_bio` for one segment. -/
inductive Act where
  | encrypt (ok : Bool)
  | addBh (ok : Bool)
  | ioSubmit
  | clean
  | unlock
  | finishBio (segment : Finset ℕ)

namespace Page

variable (s : Page)

/-- `io_submit_add_bh`, if it succeeds. -/
def addBh (i : ℕ) : Page :=
  { s with
    ioBio := insert i s.ioBio
    nrSubmitted := s.nrSubmitted + 1
    stage := .submit (i + 1) }

def cleanBh (i : ℕ) : Page :=
  { s with
    asyncWrite := s.asyncWrite.erase i
    stage := if i + 1 < s.count then .clean (i + 1) else .unlock }

def finishBio (segment : Finset ℕ) : Page :=
  { s with
    asyncWrite := s.asyncWrite \ segment
    flight := s.flight \ segment
    ended := if s.asyncWrite \ segment = ∅ then s.ended + 1 else s.ended }

end Page

def step (s : Page) (a : Act) : Option Page :=
  match a, s.stage with
  | .encrypt ok, .encrypt =>
    if ok then some { s with stage := .submit 0 }
    else if s.asyncWrite = ∅ then none
    else some { s with stage := .clean 0 }
  | .addBh ok, .submit i =>
    if s.count ≤ i then some { s with stage := .unlock }
    else if i ∉ s.asyncWrite then some { s with stage := .submit (i + 1) }
    else if ok then some (s.addBh i)
    -- only `io_submit_init_bio` fails
    else if s.ioBio = ∅ then some { s with stage := .clean i }
    else none
  | .ioSubmit, _ => some { s with ioBio := ∅, flight := s.flight ∪ s.ioBio }
  | .clean, .clean i => some (s.cleanBh i)
  | .unlock, .unlock =>
    some { s with
      stage := .done
      ended := if s.nrSubmitted = 0 then s.ended + 1 else s.ended }
  | .finishBio segment, _ =>
    if segment ≠ ∅ ∧ segment ⊆ s.flight then some (s.finishBio segment) else none
  | _, _ => none

/-- The cleanup runs before the last submitted buffer completes. -/
def InTime (s : Page) : Act → Prop
  | .clean => s.nrSubmitted = 0 ∨ s.flight ≠ ∅
  | _ => True

instance (s : Page) (a : Act) : Decidable (InTime s a) :=
  match a with
  | .clean => inferInstanceAs (Decidable (_ ∨ _))
  | .encrypt _ | .addBh _ | .ioSubmit | .unlock | .finishBio _ => .isTrue trivial

def Page.next (s : Page) : ℕ :=
  match s.stage with
  | .encrypt => 0
  | .submit i | .clean i => i
  | .unlock | .done => s.count

/-- The buffers in bios are the marked ones that the call is done with; the writeback ends when the
last mark goes, or with the call if nothing was submitted. -/
structure Inv (s : Page) : Prop where
  lt : ∀ i ∈ s.asyncWrite, i < s.count
  pending : ∀ i, i ∈ s.ioBio ∨ i ∈ s.flight ↔ i ∈ s.asyncWrite ∧ i < s.next
  apart : ∀ i ∈ s.ioBio, i ∉ s.flight
  submitted : ∀ i, i ∈ s.ioBio ∨ i ∈ s.flight → 0 < s.nrSubmitted
  ended : s.ended = if s.asyncWrite = ∅ ∧ (0 < s.nrSubmitted ∨ s.stage = .done) then 1 else 0

variable {s s' : Page} {i : ℕ}

/-- The call goes on without a change of a mark. -/
theorem Inv.move (h : Inv s) {stage : Stage} (hs : s.stage ≠ .done) (hs' : stage ≠ .done)
    (hnext : ∀ i ∈ s.asyncWrite, i < s.next ↔ i < { s with stage := stage : Page }.next) :
    Inv { s with stage := stage } where
  lt := h.lt
  pending i := (h.pending i).trans (and_congr_right (hnext i))
  apart := h.apart
  submitted := h.submitted
  ended := by
    have hend := h.ended
    simpa only [hs, hs', or_false] using hend

theorem Inv.addBh (h : Inv s) (hs : s.stage = .submit i) (hi : i ∈ s.asyncWrite) :
    Inv (s.addBh i) := by
  have hnext : s.next = i := by rw [Page.next, hs]
  refine ⟨h.lt, fun j => ?_, fun j hj hf => ?_, fun _ _ => Nat.succ_pos _, ?_⟩
  · change j ∈ insert i s.ioBio ∨ j ∈ s.flight ↔ j ∈ s.asyncWrite ∧ j < i + 1
    rw [mem_insert, or_assoc, h.pending, hnext, Nat.lt_succ_iff_lt_or_eq]
    constructor
    · rintro (rfl | ⟨hj, hlt⟩)
      · exact ⟨hi, .inr rfl⟩
      · exact ⟨hj, .inl hlt⟩
    · rintro ⟨hj, hlt | rfl⟩
      · exact .inr ⟨hj, hlt⟩
      · exact .inl rfl
  · rcases mem_insert.mp hj with rfl | hj
    · exact absurd ((h.pending j).mp (.inr hf)).2 (by omega)
    · exact h.apart j hj hf
  · have hend := h.ended
    simpa only [Page.addBh, ne_empty_of_mem hi, false_and, if_false] using hend

theorem Inv.cleanBh (h : Inv s) (hs : s.stage = .clean i) (ht : InTime s .clean) :
    Inv (s.cleanBh i) := by
  have hnext : s.next = i := by rw [Page.next, hs]
  have herase : Inv { s with asyncWrite := s.asyncWrite.erase i } := by
    refine ⟨fun j hj => h.lt j (mem_of_mem_erase hj), fun j => ?_, h.apart, h.submitted, ?_⟩
    · rw [h.pending]
      change _ ↔ j ∈ s.asyncWrite.erase i ∧ j < s.next
      refine and_congr_left fun hlt => ?_
      rw [mem_erase, and_iff_right (show j ≠ i by omega)]
    have hend := h.ended
    simp only [hs, reduceCtorEq, or_false] at hend ⊢
    rcases ht with h0 | hflight
    · simpa [h0] using hend
    · obtain ⟨j, hj⟩ := nonempty_iff_ne_empty.mpr hflight
      obtain ⟨hmem, hlt⟩ := (h.pending j).mp (.inr hj)
      have hmem' : j ∈ s.asyncWrite.erase i := mem_erase.mpr ⟨by omega, hmem⟩
      simpa [ne_empty_of_mem hmem, ne_empty_of_mem hmem'] using hend
  refine herase.move (by simp [hs]) (by split_ifs <;> simp) fun j hj => ?_
  have hne := (mem_erase.mp hj).1
  have hlt := h.lt j (mem_of_mem_erase hj)
  change j < s.next ↔ _
  rw [hnext]
  by_cases hlast : i + 1 < s.count <;> simp only [Page.next, hlast, if_true, if_false] <;> omega

theorem Inv.finishBio (h : Inv s) {segment : Finset ℕ} (hne : segment ≠ ∅)
    (hsub : segment ⊆ s.flight) : Inv (s.finishBio segment) := by
  obtain ⟨i, hi⟩ := nonempty_iff_ne_empty.mpr hne
  have hpos := h.submitted i (.inr (hsub hi))
  have hend : s.ended = 0 := by
    rw [h.ended, if_neg fun h0 => ne_empty_of_mem ((h.pending i).mp (.inr (hsub hi))).1 h0.1]
  refine ⟨fun j hj => h.lt j (mem_sdiff.mp hj).1, fun j => ?_,
    fun j hj hf => h.apart j hj (mem_sdiff.mp hf).1, fun _ _ => hpos, ?_⟩
  · have hout : j ∈ s.ioBio → j ∉ segment := fun hj hseg => h.apart j hj (hsub hseg)
    change j ∈ s.ioBio ∨ j ∈ s.flight \ segment ↔ j ∈ s.asyncWrite \ segment ∧ j < s.next
    rw [mem_sdiff, mem_sdiff, and_right_comm, ← h.pending]
    tauto
  · simp [Page.finishBio, hend, hpos]

/-- A step in time keeps the marks, the bios and the writeback in agreement. -/
theorem Inv.step {a : Act} (h : Inv s) (ht : InTime s a) (hs : step s a = some s') : Inv s' := by
  unfold PageIo.step at hs
  split at hs
  next hst =>
    split_ifs at hs <;> cases hs
    · exact h.move (by simp [hst]) (by simp) (by simp [Page.next, hst])
    · exact h.move (by simp [hst]) (by simp) (by simp [Page.next, hst])
  next i hst =>
    have hnext : s.next = i := by rw [Page.next, hst]
    split_ifs at hs with hend hout <;> cases hs
    · refine h.move (by simp [hst]) (by simp) fun j hj => ?_
      have hlt := h.lt j hj
      change j < s.next ↔ j < s.count
      omega
    · exact h.addBh hst hout
    · exact h.move (by simp [hst]) (by simp) fun j _ => by rw [hnext]; rfl
    · refine h.move (by simp [hst]) (by simp) fun j hj => ?_
      have hne : j ≠ i := fun heq => hout (heq ▸ hj)
      change j < s.next ↔ j < i + 1
      omega
  next =>
    cases hs
    have hiff : ∀ i, (i ∈ (∅ : Finset ℕ) ∨ i ∈ s.flight ∪ s.ioBio) ↔
        i ∈ s.ioBio ∨ i ∈ s.flight := by
      simp [or_comm]
    exact ⟨h.lt, fun i => (hiff i).trans (h.pending i), by simp,
      fun i hi => h.submitted i ((hiff i).mp hi), h.ended⟩
  next hst =>
    cases hs
    exact h.cleanBh hst ht
  next hst =>
    cases hs
    have hnext : s.next = s.count := by rw [Page.next, hst]
    refine ⟨h.lt, fun i => hnext ▸ h.pending i, h.apart, h.submitted, ?_⟩
    have hend := h.ended
    rw [hst] at hend
    rcases Nat.eq_zero_or_pos s.nrSubmitted with h0 | hpos
    · have hnone : s.asyncWrite = ∅ := eq_empty_of_forall_notMem fun i hi => by
        have := h.submitted i ((h.pending i).mpr ⟨hi, hnext ▸ h.lt i hi⟩)
        omega
      simpa [h0, hnone] using hend
    · simpa [hpos, hpos.ne'] using hend
  next =>
    obtain ⟨hseg, hs⟩ := Option.ite_none_right_eq_some.mp hs
    cases hs
    exact h.finishBio hseg.1 hseg.2
  next => cases hs

end VMsep.Ext4.PageIo
