import VMsep.Jbd2.Lifecycle

/-! The numbers that the journal keeps beside those of its transactions, in runs that orphan no
transaction. -/

namespace VMsep.Jbd2

open CommitPhase Spine

variable {tid0 : Tid} {s s' : Spine} {n : ℕ} {a : CommitAct} {e : Event}

def TailOk (tid0 : Tid) (n : ℕ) (tail : LogTail) : Prop :=
  tail.tx ≤ n ∧ tail.tid = tidOf tid0 tail.tx

structure Tails (tid0 : Tid) (s : Spine) (n : ℕ) : Prop where
  tail : TailOk tid0 n s.tail
  first : TailOk tid0 n s.firstTail
  cleanup : ∀ c, s.cleanup = some c → TailOk tid0 n c
  checkpoints : ∀ t ∈ s.checkpoints, t < n

theorem TailOk.succ {tail : LogTail} (h : TailOk tid0 n tail) : TailOk tid0 (n + 1) tail :=
  ⟨h.1.trans n.le_succ, h.2⟩

theorem getLogTail_ok (hl : Lifecycle tid0 s n) (ht : Tails tid0 s n)
    (hph : ¬ (s.phase.lockedDown = true ∧ s.checkpoints = [])) : TailOk tid0 n s.getLogTail := by
  have hle := hl.shape.le_nextTx
  unfold getLogTail
  split
  · rename_i t rest hcp
    have hlt := ht.checkpoints t (by simp [hcp])
    exact ⟨hlt.le, hl.tid t (by omega)⟩
  · rename_i t hcp hcom
    obtain ⟨rfl, hnext⟩ := hl.shape.committing_eq hcom
    exact ⟨le_rfl, hl.tid t (by omega)⟩
  · rename_i t hcp hcom hrun
    have hfree : s.phase.lockedDown = false := by simpa [hcp] using hph
    obtain rfl := hl.shape.running_next hrun hcom hfree
    have hnext := hl.shape.running_eq hrun
    exact ⟨le_rfl, hl.tid t (by omega)⟩
  · rename_i hcp hcom hrun
    have hwin : s.phase.inWindow = false := by
      have hshape := hl.shape
      unfold Shape at hshape
      split at hshape <;> simp_all [inWindow]
    obtain ⟨-, -, hzero, rfl⟩ := hl.shape.empty hrun hwin
    exact ⟨hzero.le, hl.sequence⟩

theorem Tails.client (ht : Tails tid0 s n) (h : s.Client s') : Tails tid0 s' n := by
  cases h with
  | same => exact ht
  | request | timeout | abort | abortRequest =>
    exact ⟨ht.tail, ht.first, ht.cleanup, ht.checkpoints⟩
  | dropCheckpoint =>
    exact ⟨ht.tail, ht.first, ht.cleanup, fun t h => ht.checkpoints t (List.mem_of_mem_erase h)⟩
  | cleanupUpdateTail htail =>
    exact ⟨ht.cleanup _ htail, ht.first, (by simp), ht.checkpoints⟩

theorem Tails.commit (hl : Lifecycle tid0 s n) (ht : Tails tid0 s n) (h : s.Commit a s') :
    Tails tid0 s' (if a = .finish then n + 1 else n) := by
  cases h with
  | getTail hph =>
    exact ⟨ht.tail, getLogTail_ok hl ht (by simp [hph, lockedDown]), ht.cleanup,
      ht.checkpoints⟩
  | updateTail => exact ⟨ht.first, ht.first, ht.cleanup, ht.checkpoints⟩
  | finish _ _ hcom =>
    have hct := (hl.shape.committing_eq hcom).1
    refine ⟨ht.tail.succ, ht.first.succ, fun c hc => (ht.cleanup c hc).succ, fun t hmem => ?_⟩
    simp only [if_true]
    rcases List.mem_append.mp hmem with hmem | hmem
    · exact (ht.checkpoints t hmem).trans n.lt_succ_self
    · rw [List.mem_singleton] at hmem
      omega
  | @callback drop =>
    refine ⟨ht.tail, ht.first, ht.cleanup, fun t hmem => ht.checkpoints t ?_⟩
    cases drop with
    | true => exact List.mem_of_mem_erase hmem
    | false => exact hmem
  | kjournald | destroy | ready | restoreSuperblock | allocNew | lockDown | wakeUpdates
  | switchTransaction | setCommit | credit | install | setJflush | record | keepTail =>
    exact ⟨ht.tail, ht.first, ht.cleanup, ht.checkpoints⟩

/-- The number of commit records once `n` commits have finished. -/
def recordsDue (n : ℕ) : CommitPhase → ℕ
  | .recorded | .forgetting => n + 1
  | _ => n

theorem Shape.recordsDue_le (h : Shape s n) : recordsDue n s.phase ≤ s.nextTx := by
  unfold Shape at h
  split at h <;> rename_i hph <;> rw [hph] <;> simp only [recordsDue] <;> omega

def RecordsOk (s : Spine) (n : ℕ) : Prop :=
  ∃ k, s.records = List.range k ∧ k ≤ recordsDue n s.phase ∧
    (s.aborted = false → k = recordsDue n s.phase)

theorem RecordsOk.client (hr : RecordsOk s n) (h : s.Client s') : RecordsOk s' n := by
  obtain ⟨k, hk, hle, heq⟩ := hr
  cases h with
  | abort | abortRequest => exact ⟨k, hk, hle, (by simp)⟩
  | same | request | timeout | dropCheckpoint | cleanupUpdateTail => exact ⟨k, hk, hle, heq⟩

theorem RecordsOk.commit (hl : Lifecycle tid0 s n) (hr : RecordsOk s n) (h : s.Commit a s') :
    RecordsOk s' (if a = .finish then n + 1 else n) := by
  obtain ⟨k, hk, hle, heq⟩ := hr
  cases h with
  | record hph =>
    simp only [hph, recordsDue] at hle heq
    have hct : s.commitTx = n := by
      have hshape := hl.shape
      simp only [Shape, hph] at hshape
      exact hshape.2.2.1
    cases hab : s.aborted with
    | true =>
      exact ⟨k, by simpa [hab] using hk, hle.trans n.le_succ, by simp⟩
    | false =>
      obtain rfl := heq hab
      exact ⟨k + 1, by simp [hk, hct, List.range_succ], le_rfl, fun _ => rfl⟩
  | lockDown hph _ hwait =>
    simp only [hph, recordsDue] at hle heq
    rcases hwait with rfl | rfl <;> exact ⟨k, hk, hle, heq⟩
  | credit => exact ⟨k, hk, hle, heq⟩
  | kjournald hph | destroy hph | ready hph | restoreSuperblock hph | allocNew hph
  | wakeUpdates hph | switchTransaction hph | setCommit hph | getTail hph | install hph
  | setJflush hph | keepTail hph | updateTail hph | finish hph | callback hph =>
    simp only [hph, recordsDue] at hle heq
    exact ⟨k, hk, hle, heq⟩

structure Numbering (tid0 : Tid) (s : Spine) (n : ℕ) : Prop where
  lifecycle : Lifecycle tid0 s n
  tails : Tails tid0 s n
  records : RecordsOk s n

/-- A step that orphans no transaction keeps the numbers in order. -/
theorem Numbering.step (h : Numbering tid0 s n) (hc : s.NoOrphan e ∧ s.NoLockedCleanup e)
    (hs : s.Step e s') : Numbering tid0 s' (if e = .commit .finish then n + 1 else n) := by
  refine ⟨h.lifecycle.step hc.1 hs, ?_, ?_⟩
  · cases hs with
    | client hcl => exact h.tails.client hcl
    | create | noCleanup =>
      exact ⟨h.tails.tail, h.tails.first, h.tails.cleanup, h.tails.checkpoints⟩
    | cleanup =>
      refine ⟨h.tails.tail, h.tails.first, ?_, h.tails.checkpoints⟩
      rintro c ⟨⟩
      exact getLogTail_ok h.lifecycle h.tails (hc.2 rfl)
    | commit hcm => simpa using h.tails.commit h.lifecycle hcm
  · cases hs with
    | client hcl => exact h.records.client hcl
    | create | noCleanup | cleanup => exact h.records
    | commit hcm => simpa using h.records.commit h.lifecycle hcm

def CommitPhase.requested : CommitPhase → Bool
  | .idle | .callback => false
  | _ => true

def RequestOk (tid0 : Tid) (s : Spine) (n : ℕ) : Prop :=
  ∃ q, (if s.phase.requested then n + 1 else n) ≤ q ∧ q ≤ s.nextTx ∧
    s.commitRequest + 1 = tidOf tid0 q

theorem RequestOk.client (hl : Lifecycle tid0 s n) (hr : RequestOk tid0 s n)
    (h : s.Client s') : RequestOk tid0 s' n := by
  obtain ⟨q, hlow, hhigh, hq⟩ := hr
  cases h with
  | request ht | timeout ht | abortRequest ht =>
    have hrun := hl.shape.running_eq ht
    refine ⟨s.nextTx, ?_, le_rfl, by rw [hl.tid _ (by omega), hrun, tidOf_succ]⟩
    split_ifs with hph
    · have h := hl.shape
      unfold Shape at h
      split at h <;> simp_all [requested] <;> omega
    · exact hl.shape.le_nextTx.1
  | same | abort | dropCheckpoint | cleanupUpdateTail => exact ⟨q, hlow, hhigh, hq⟩

theorem RequestOk.commit (hl : Lifecycle tid0 s n) (hr : RequestOk tid0 s n) (ha : a ≠ .destroy)
    (h : s.Commit a s') : RequestOk tid0 s' (if a = .finish then n + 1 else n) := by
  obtain ⟨q, hlow, hhigh, hq⟩ := hr
  cases h with
  | kjournald hph hreq =>
    simp only [hph, requested] at hlow
    have hne : q ≠ n := by
      rintro rfl
      exact hreq (by simpa using hl.commitSequence.trans hq.symm)
    refine ⟨q, ?_, hhigh, hq⟩
    simp [requested] at hlow ⊢
    omega
  | destroy => exact absurd rfl ha
  | allocNew hph =>
    simp only [hph, requested] at hlow
    exact ⟨q, hlow, hhigh.trans s.nextTx.le_succ, hq⟩
  | lockDown hph _ hwait =>
    simp only [hph, requested] at hlow
    rcases hwait with rfl | rfl <;> exact ⟨q, hlow, hhigh, hq⟩
  | credit => exact ⟨q, hlow, hhigh, hq⟩
  | ready hph | restoreSuperblock hph | wakeUpdates hph | switchTransaction hph
  | setCommit hph | getTail hph | install hph | setJflush hph | record hph | keepTail hph
  | updateTail hph | finish hph | callback hph =>
    simp only [hph, requested] at hlow
    exact ⟨q, hlow, hhigh, hq⟩

theorem RequestOk.step (hl : Lifecycle tid0 s n) (hr : RequestOk tid0 s n)
    (he : e ≠ .commit .destroy) (hs : s.Step e s') :
    RequestOk tid0 s' (if e = .commit .finish then n + 1 else n) := by
  cases hs with
  | client h => exact hr.client hl h
  | create =>
    obtain ⟨q, hlow, hhigh, hq⟩ := hr
    exact ⟨q, hlow, hhigh.trans s.nextTx.le_succ, hq⟩
  | noCleanup | cleanup => exact hr
  | commit h => simpa using hr.commit hl (by simpa using he) h

def Spine.Committed (s : Spine) (t : ℕ) : Prop :=
  s.state t = .commitCallback ∨ s.state t = .finished

theorem committed_step (hl : Lifecycle tid0 s n) (hc : ∀ t, t < n → s.Committed t)
    (hs : s.Step e s') : ∀ t, t < (if e = .commit .finish then n + 1 else n) → s'.Committed t := by
  have hle := hl.shape.le_nextTx
  cases hs with
  | client h => cases h <;> exact hc
  | create =>
    intro t ht
    have hne : t ≠ s.nextTx := by
      simp at ht
      omega
    simpa [Spine.Committed, create, hne] using hc t (by simpa using ht)
  | noCleanup | cleanup => exact hc
  | commit h =>
    have hshape := hl.shape
    cases h with
    | finish _ _ hcom =>
      intro t ht
      have hct := (hl.shape.committing_eq hcom).1
      by_cases hte : t = s.commitTx
      · simp [Spine.Committed, setState, hte]
      · simpa [Spine.Committed, setState, hte] using hc t (by simp at ht; omega)
    | callback =>
      intro t ht
      by_cases hte : t = s.commitTx
      · simp [Spine.Committed, setState, hte]
      · simpa [Spine.Committed, setState, hte] using hc t (by simpa using ht)
    | allocNew =>
      intro t ht
      have hne : t ≠ s.nextTx := by
        simp at ht
        omega
      simpa [Spine.Committed, create, hne] using hc t (by simpa using ht)
    | lockDown hph =>
      simp only [Shape, hph] at hshape
      intro t ht
      have h1 : t ≠ s.commitTx := by simp at ht; omega
      have h2 : t ≠ s.nextRunning := by simp at ht; omega
      simpa [Spine.Committed, setState, h1, h2] using hc t (by simpa using ht)
    | switchTransaction hph | setCommit hph | install hph | setJflush hph =>
      simp only [Shape, hph] at hshape
      intro t ht
      have h1 : t ≠ s.commitTx := by simp at ht; omega
      simpa [Spine.Committed, setState, h1] using hc t (by simpa using ht)
    | kjournald | destroy | ready | restoreSuperblock | wakeUpdates | credit | getTail | record
    | keepTail | updateTail => exact hc

end VMsep.Jbd2
