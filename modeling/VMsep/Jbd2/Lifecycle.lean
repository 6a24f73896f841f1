import VMsep.Jbd2.Spine

/-! In a run in which no transaction is created while a commit has `j_running_transaction` cleared,
transactions are created, committed and numbered one after the other: `Shape s n` says, phase by
phase, which transactions the pointers of the journal and the local variables of the commit routine
name once `n` commits have finished. -/

namespace VMsep.Jbd2

/-- The sequence number of the `t`-th transaction. -/
def tidOf (tid0 : Tid) (t : ℕ) : Tid := tid0 + BitVec.ofNat 32 t

variable {tid0 : Tid} {t u : ℕ}

theorem tidOf_succ (t : ℕ) : tidOf tid0 (t + 1) = tidOf tid0 t + 1 := by
  simp [tidOf, BitVec.ofNat_add, BitVec.add_assoc]

theorem tidOf_sub (h : t ≤ u) : tidOf tid0 u - tidOf tid0 t = BitVec.ofNat 32 (u - t) := by
  obtain ⟨d, rfl⟩ := Nat.exists_eq_add_of_le h
  rw [Nat.add_sub_cancel_left, tidOf, tidOf, BitVec.ofNat_add]
  generalize BitVec.ofNat 32 t = x
  generalize BitVec.ofNat 32 d = y
  bv_omega

theorem toInt_ofNat_of_lt {d : ℕ} (h : d < 2 ^ 31) : (BitVec.ofNat 32 d).toInt = d := by
  rw [BitVec.toInt_eq_toNat_cond, BitVec.toNat_ofNat, Nat.mod_eq_of_lt (by omega)]
  rw [if_pos (by omega)]

theorem tidGt_tidOf (h : t < u) (hw : u - t < 2 ^ 31) :
    tidGt (tidOf tid0 u) (tidOf tid0 t) = true := by
  rw [tidGt, tidOf_sub h.le, toInt_ofNat_of_lt hw, decide_eq_true_eq]
  omega

theorem tidGt_add_one (x y : Tid) : tidGt (x + 1) (y + 1) = tidGt x y := by
  rw [tidGt, tidGt, show x + 1 - (y + 1) = x - y by bv_omega]

theorem tidGeq_tidOf (h : t ≤ u) (hw : u - t < 2 ^ 31) :
    tidGeq (tidOf tid0 u) (tidOf tid0 t) = true := by
  rw [tidGeq, tidOf_sub h, toInt_ofNat_of_lt hw, decide_eq_true_eq]
  omega

/-- Which transactions the journal knows after `n` finished commits. -/
def Shape (s : Spine) (n : ℕ) : Prop :=
  match s.phase with
  | .idle =>
    s.committing = none ∧
      (s.running = none ∧ s.nextTx = 0 ∧ n = 0 ∨ s.running = some n ∧ s.nextTx = n + 1)
  | .entered | .ready =>
    s.committing = none ∧ s.running = some n ∧ s.nextTx = n + 1
  | .allocated | .waitUpdates | .switching =>
    s.committing = none ∧ s.running = some (n + 1) ∧ s.commitTx = n ∧ s.nextRunning = n + 1 ∧
      s.nextTx = n + 2
  | .flushing | .logging | .tailKnown =>
    s.committing = some n ∧ s.running = none ∧ s.commitTx = n ∧ s.nextRunning = n + 1 ∧
      s.nextTx = n + 2
  | .installed | .jflush | .recorded | .forgetting =>
    s.committing = some n ∧ s.running = some (n + 1) ∧ s.commitTx = n ∧
      s.nextRunning = n + 1 ∧ s.nextTx = n + 2
  | .callback =>
    s.committing = none ∧ s.running = some n ∧ s.commitTx + 1 = n ∧ s.nextTx = n + 1

namespace Shape

variable {s : Spine} {n t : ℕ}

theorem le_nextTx (h : Shape s n) : n ≤ s.nextTx ∧ s.nextTx ≤ n + 2 := by
  unfold Shape at h
  split at h <;> omega

theorem committing_eq (h : Shape s n) (ht : s.committing = some t) : t = n ∧ s.nextTx = n + 2 := by
  unfold Shape at h
  split at h <;> simp_all

theorem running_eq (h : Shape s n) (ht : s.running = some t) : s.nextTx = t + 1 := by
  unfold Shape at h
  split at h <;> simp_all

theorem running_ge (h : Shape s n) (ht : s.running = some t) : n ≤ t := by
  unfold Shape at h
  split at h <;> simp_all <;> omega

theorem running_next (h : Shape s n) (ht : s.running = some t) (hcom : s.committing = none)
    (hph : s.phase.lockedDown = false) : t = n := by
  unfold Shape at h
  split at h <;> simp_all [CommitPhase.lockedDown]

theorem empty (h : Shape s n) (hrun : s.running = none) (hph : s.phase.inWindow = false) :
    s.phase = .idle ∧ s.committing = none ∧ s.nextTx = 0 ∧ n = 0 := by
  unfold Shape at h
  split at h <;> simp_all [CommitPhase.inWindow]

end Shape

/-- `n` commits have finished, and the sequence numbers are in step with it. -/
structure Lifecycle (tid0 : Tid) (s : Spine) (n : ℕ) : Prop where
  shape : Shape s n
  sequence : s.transactionSequence = tidOf tid0 s.nextTx
  tid : ∀ t, t < s.nextTx → s.tid t = tidOf tid0 t
  commitSequence : s.commitSequence + 1 = tidOf tid0 n
  idleRequest : s.nextTx = 0 → s.commitRequest = s.commitSequence

variable {s s' : Spine} {n : ℕ}

section

variable (hl : Lifecycle tid0 s n)

include hl

theorem Lifecycle.keep (hshape : Shape s' n) (hnext : s'.nextTx = s.nextTx)
    (hseq : s'.transactionSequence = s.transactionSequence) (htid : s'.tid = s.tid)
    (hcs : s'.commitSequence = s.commitSequence)
    (hreq : s.nextTx = 0 → s'.commitRequest = s.commitRequest) : Lifecycle tid0 s' n where
  shape := hshape
  sequence := by rw [hseq, hnext, hl.sequence]
  tid := fun t ht => by rw [htid, hl.tid t (hnext ▸ ht)]
  commitSequence := by rw [hcs, hl.commitSequence]
  idleRequest := fun h0 => by
    rw [hnext] at h0
    rw [hcs, hreq h0, hl.idleRequest h0]

theorem Lifecycle.client (h : s.Client s') : Lifecycle tid0 s' n := by
  have hbusy {t : ℕ} (ht : s.running = some t) : s.nextTx ≠ 0 := by
    have := hl.shape.running_eq ht
    omega
  cases h with
  | same => exact hl
  | request ht | timeout ht | abortRequest ht =>
    exact hl.keep hl.shape rfl rfl rfl rfl fun h0 => absurd h0 (hbusy ht)
  | abort | dropCheckpoint | cleanupUpdateTail =>
    exact hl.keep hl.shape rfl rfl rfl rfl fun _ => rfl

theorem Lifecycle.create_tid : s.create.transactionSequence = tidOf tid0 s.create.nextTx ∧
      ∀ t, t < s.create.nextTx → s.create.tid t = tidOf tid0 t := by
  refine ⟨by simp [Spine.create, hl.sequence, tidOf_succ], fun t ht => ?_⟩
  by_cases hnew : t = s.nextTx
  · simp [Spine.create, hnew, hl.sequence]
  have hlt : t < s.nextTx := by
    simp only [Spine.create] at ht
    omega
  simpa [Spine.create, hnew] using hl.tid t hlt

theorem Lifecycle.create (hrun : s.running = none) (hwin : s.phase.inWindow = false) :
    Lifecycle tid0 s.create n := by
  obtain ⟨hidle, hcom, hzero, rfl⟩ := hl.shape.empty hrun hwin
  obtain ⟨hseq, htid⟩ := hl.create_tid
  exact ⟨by simp [Shape, Spine.create, hidle, hcom, hzero], hseq, htid, hl.commitSequence,
    by simp [Spine.create]⟩

theorem Lifecycle.commit {a : CommitAct} (h : s.Commit a s') :
    Lifecycle tid0 s' (if a = .finish then n + 1 else n) := by
  have hshape := hl.shape
  cases h with
  | kjournald hph hreq =>
    simp only [Shape, hph] at hshape
    obtain ⟨hcom, ⟨-, hzero, -⟩ | hrun⟩ := hshape
    · exact absurd (hl.idleRequest hzero).symm hreq
    · exact hl.keep ⟨hcom, hrun⟩ rfl rfl rfl rfl fun _ => rfl
  | destroy hph hrun =>
    simp only [Shape, hph, hrun, false_and, false_or] at hshape
    exact hl.keep hshape rfl rfl rfl rfl fun _ => rfl
  | allocNew hph hrun hcom =>
    simp only [Shape, hph, hrun, Option.some.injEq] at hshape
    obtain ⟨-, rfl, hnext⟩ := hshape
    obtain ⟨hseq, htid⟩ := hl.create_tid
    exact ⟨by simp [Shape, Spine.create, hcom, hnext], hseq, htid, hl.commitSequence,
      fun h0 => absurd h0 (Nat.succ_ne_zero _)⟩
  | lockDown hph _ hwait =>
    simp only [Shape, hph] at hshape
    rcases hwait with rfl | rfl <;> exact hl.keep hshape rfl rfl rfl rfl fun _ => rfl
  | switchTransaction hph =>
    simp only [Shape, hph] at hshape
    obtain ⟨-, -, hct, hnr, hnext⟩ := hshape
    exact hl.keep ⟨congrArg some hct, rfl, hct, hnr, hnext⟩ rfl rfl rfl rfl fun _ => rfl
  | install hph =>
    simp only [Shape, hph] at hshape
    obtain ⟨hcom, -, hct, hnr, hnext⟩ := hshape
    exact hl.keep ⟨hcom, congrArg some hnr, hct, hnr, hnext⟩ rfl rfl rfl rfl fun _ => rfl
  | finish hph =>
    simp only [Shape, hph] at hshape
    obtain ⟨-, hrun, hct, -, hnext⟩ := hshape
    refine ⟨⟨rfl, hrun, by simp [Spine.setState, hct], hnext⟩, hl.sequence, hl.tid, ?_,
      fun h0 => ?_⟩
    · simp [hct, hl.tid n (by omega), tidOf_succ]
    · have : s.nextTx = 0 := h0
      omega
  | callback hph =>
    simp only [Shape, hph] at hshape
    exact hl.keep ⟨hshape.1, .inr ⟨hshape.2.1, hshape.2.2.2⟩⟩ rfl rfl rfl rfl fun _ => rfl
  | ready hph | restoreSuperblock hph | wakeUpdates hph | setCommit hph | getTail hph
  | setJflush hph | record hph | keepTail hph | updateTail hph =>
    simp only [Shape, hph] at hshape
    exact hl.keep hshape rfl rfl rfl rfl fun _ => rfl
  | credit => exact hl

/-- One step of the abstract machine, as long as it orphans no transaction. -/
theorem Lifecycle.step {e : Event} (hc : s.NoOrphan e) (hs : s.Step e s') :
    Lifecycle tid0 s' (if e = .commit .finish then n + 1 else n) := by
  cases hs with
  | client h => exact hl.client h
  | create hrun => exact hl.create hrun (hc rfl)
  | noCleanup => exact hl
  | cleanup => exact hl.keep hl.shape rfl rfl rfl rfl fun _ => rfl
  | commit h => simpa using hl.commit h

end

end VMsep.Jbd2
