import VMsep.Jbd2.Refinement
import VMsep.Jbd2.Sequence

/-! What a commit that preallocates its successor leaves of two rules of the journal: that a
transaction is created only when there is no running one and is never lost, and that the sequence
numbers of the journal are in order. -/

namespace VMsep.Jbd2

open Lib

namespace Journal

/-- `start_this_handle` creates no transaction while a commit has `j_running_transaction`
cleared. -/
def NoOrphan (j : Journal) (a : Act) : Prop := j.spine.NoOrphan (j.event a)

/-- `cleanup_journal_tail` does not run on an empty checkpoint list while the transaction to
commit is locked down. -/
def NoLockedCleanup (j : Journal) (a : Act) : Prop := j.spine.NoLockedCleanup (j.event a)

/-- The step does not reach `alloc_new_transaction`. -/
def NoAlloc (_ : Journal) (a : Act) : Prop := a ≠ .commit .allocNew

/-- The step is not the final commit of `journal_destroy`. -/
def NoDestroy (_ : Journal) (a : Act) : Prop := a ≠ .commit .destroy

instance (j : Journal) (a : Act) : Decidable (j.NoOrphan a) :=
  inferInstanceAs (Decidable (j.spine.NoOrphan (j.event a)))

instance (j : Journal) (a : Act) : Decidable (j.NoLockedCleanup a) :=
  inferInstanceAs (Decidable (j.spine.NoLockedCleanup (j.event a)))

instance (j : Journal) (a : Act) : Decidable (j.NoAlloc a) :=
  inferInstanceAs (Decidable (a ≠ .commit .allocNew))

instance (j : Journal) (a : Act) : Decidable (j.NoDestroy a) :=
  inferInstanceAs (Decidable (a ≠ .commit .destroy))

theorem event_finish {j : Journal} {a : Act} :
    j.event a = .commit .finish ↔ a = .commit .finish := by
  cases a with
  | getTransaction => simp only [event]; split_ifs <;> simp
  | _ => simp [event]

theorem event_destroy {j : Journal} {a : Act} (ha : j.NoDestroy a) :
    j.event a ≠ .commit .destroy := by
  cases a with
  | getTransaction => simp only [event]; split_ifs <;> simp
  | commit => simpa [event, NoDestroy] using ha
  | _ => simp [event]

end Journal

structure Orderly (cfg : Config) (j : Journal) (n : ℕ) : Prop where
  lifecycle : Lifecycle cfg.tid0 j.spine n
  committed : ∀ t, t < n → j.spine.Committed t

variable {cfg : Config} {j j' : Journal}

/-- A step that orphans no transaction accounts for all of them. -/
theorem Orderly.step {n : ℕ} {a : Act} (h : Orderly cfg j n) (hc : j.NoOrphan a)
    (hs : j.step a = some j') : Orderly cfg j' (if a = .commit .finish then n + 1 else n) := by
  have hst := Journal.step_spine hs
  have hl := h.lifecycle.step hc hst
  have hcm := committed_step h.lifecycle h.committed hst
  simp only [Journal.event_finish] at hl hcm
  exact ⟨hl, hcm⟩

theorem lifecycle_reset (cfg : Config) : Lifecycle cfg.tid0 (journalReset cfg).spine 0 := by
  refine ⟨?_, ?_, (by intros; contradiction), ?_, fun _ => rfl⟩
  · exact ⟨rfl, .inl ⟨rfl, rfl, rfl⟩⟩
  · simp [Journal.spine, journalReset, tidOf]
  · simp [Journal.spine, journalReset, tidOf]

/-- No commit has reached `alloc_new_transaction` yet. -/
structure BeforeCommit (cfg : Config) (j : Journal) : Prop where
  orderly : Orderly cfg j 0
  phase : j.phase = .idle ∨ j.phase = .entered ∨ j.phase = .ready

theorem BeforeCommit.noOrphan (h : BeforeCommit cfg j) (a : Act) : j.NoOrphan a := by
  intro _
  rcases h.phase with hp | hp | hp <;> simp [Journal.spine, hp, CommitPhase.inWindow]

theorem BeforeCommit.pointers (h : BeforeCommit cfg j) : j.jCommittingTransaction = none ∧
      (j.jRunningTransaction = none ∧ j.nextTx = 0 ∨
        j.jRunningTransaction = some 0 ∧ j.nextTx = 1) := by
  have hshape := h.orderly.lifecycle.shape
  rcases h.phase with hp | hp | hp <;> simp only [Shape, Journal.spine, hp] at hshape
  · exact ⟨hshape.1, hshape.2.imp (fun h => ⟨h.1, h.2.1⟩) id⟩
  · exact ⟨hshape.1, .inr hshape.2⟩
  · exact ⟨hshape.1, .inr hshape.2⟩

/-- Without `alloc_new_transaction` no commit gets further. -/
theorem BeforeCommit.step {a : Act} (h : BeforeCommit cfg j) (ha : j.NoAlloc a)
    (hs : j.step a = some j') : BeforeCommit cfg j' := by
  have hst := Journal.step_spine hs
  have hord := h.orderly.step (h.noOrphan a) hs
  by_cases hcm : ∃ c, a = .commit c
  · obtain ⟨c, rfl⟩ := hcm
    obtain ⟨hsrc, htgt⟩ := (Journal.commitStep_spine hs).phases
    have hsrc : j.phase = c.source := hsrc
    have hne : c ≠ .allocNew := by
      rintro rfl
      exact ha rfl
    have hphase := h.phase
    rw [hsrc] at hphase
    have hcase : c = .kjournald ∨ c = .destroy ∨ c = .restoreSuperblock := by
      cases c <;> simp_all [CommitAct.source]
    rcases hcase with rfl | rfl | rfl
    · exact ⟨hord, .inr (.inl (htgt.resolve_right (by simp)))⟩
    · exact ⟨hord, .inr (.inl (htgt.resolve_right (by simp)))⟩
    · exact ⟨hord, .inr (.inr (htgt.resolve_right (by simp)))⟩
  · have hev : ∀ c, j.event a ≠ .commit c := by
      intro c hc
      cases a with
      | commit c' => exact hcm ⟨c', rfl⟩
      | getTransaction => simp only [Journal.event] at hc; split_ifs at hc
      | _ => simp [Journal.event] at hc
    have hph : j'.phase = j.phase := hst.phase_eq hev
    have hne : a ≠ .commit .finish := fun heq => hcm ⟨_, heq⟩
    rw [if_neg hne] at hord
    exact ⟨hord, by rw [hph]; exact h.phase⟩

theorem beforeCommit_reset (cfg : Config) : BeforeCommit cfg (journalReset cfg) :=
  ⟨⟨lifecycle_reset cfg, nofun⟩, .inl rfl⟩

namespace Journal

/-- The step calls `jbd2_get_transaction`. -/
def getsTransaction (j : Journal) : Act → Bool
  | .commit .allocNew => true
  | .getTransaction h => j.createsTransaction h
  | _ => false

def Committed (j : Journal) (t : ℕ) : Prop :=
  (j.txs t).tState = .commitCallback ∨ (j.txs t).tState = .finished

/-- The commit routine holds a transaction in its variable `running_transaction`. -/
def pending (j : Journal) : Bool := j.phase.lockedDown || j.phase.inWindow

def Accounted (j : Journal) (t : ℕ) : Prop :=
  j.jRunningTransaction = some t ∨ j.jCommittingTransaction = some t ∨
    (j.pending = true ∧ j.runningTransaction = t) ∨ j.Committed t

/-- A transaction is created only when none is running, and after the step every transaction
is accounted for. -/
def KeepsTransactions (j : Journal) (a : Act) : Prop :=
  (j.getsTransaction a = true → j.jRunningTransaction = none) ∧
    ∀ j', j.step a = some j' → ∀ t, t < j'.nextTx → j'.Accounted t

end Journal

theorem BeforeCommit.keeps_iff {a : Act} (h : BeforeCommit cfg j) (hs : j.step a = some j') :
    j.KeepsTransactions a ↔ j.NoAlloc a := by
  constructor
  · rintro ⟨hget, -⟩ rfl
    have hrun := hget rfl
    simp [Journal.step, Journal.commitStep, Journal.allocNewTransaction, hrun] at hs
  · intro ha
    refine ⟨fun hget => ?_, fun j2 hs2 t ht => ?_⟩
    · cases a with
      | getTransaction =>
        simp only [Journal.getsTransaction, Journal.createsTransaction, Bool.and_eq_true,
          beq_iff_eq] at hget
        exact hget.1.2
      | commit c =>
        cases c with
        | allocNew => exact absurd rfl ha
        | _ => cases hget
      | _ => cases hget
    · obtain ⟨-, ⟨-, hzero⟩ | ⟨hrun, hone⟩⟩ := (h.step ha hs2).pointers
      · omega
      · exact .inl (by rw [hrun]; congr 1; omega)

theorem Orderly.accounted {n t : ℕ} (h : Orderly cfg j n) (ht : t < j.nextTx) :
    j.Accounted t ∨ (j.phase.lockedDown = true ∧ j.commitTransaction = t) := by
  by_cases htn : t < n
  · exact .inl (.inr (.inr (.inr (h.committed t htn))))
  have hshape := h.lifecycle.shape
  unfold Shape at hshape
  unfold Journal.Accounted Journal.pending
  simp only [Journal.spine] at hshape
  split at hshape <;> rename_i hph <;>
    simp only [hph, CommitPhase.lockedDown, CommitPhase.inWindow] <;> simp <;> grind

/-- Every call of `jbd2_get_transaction` finds no running transaction, and every transaction
stays reachable until it has been committed, exactly in the runs in which no commit gets as
far as `alloc_new_transaction`. In runs that orphan no transaction, every transaction is the
running, the committing or the pending one or the one that the commit has locked down, until
it has been committed, and the store at the end of the commit overwrites none. -/
theorem running_transaction_kept (cfg : Config) (as : List Act) (j : Journal)
    (hex : exec Journal.step (journalReset cfg) as = some j) :
    (Along Journal.step Journal.KeepsTransactions (journalReset cfg) as ↔
      Along Journal.step Journal.NoAlloc (journalReset cfg) as) ∧
    (Along Journal.step Journal.NoOrphan (journalReset cfg) as →
      (∀ t, t < j.nextTx →
        j.Accounted t ∨ (j.phase.lockedDown = true ∧ j.commitTransaction = t)) ∧
      (j.phase = .tailKnown → j.jRunningTransaction = none)) := by
  constructor
  · refine along_iff_of_invariant (I := BeforeCommit cfg) (C := fun _ _ => True) ?_ as
      (beforeCommit_reset cfg) hex (along_of_forall fun _ _ _ => trivial)
    intro j a j' h _ hs
    exact ⟨h.keeps_iff hs, fun ha => h.step ha hs⟩
  · intro hal
    obtain ⟨n, h⟩ : ∃ n, Orderly cfg j n := by
      refine exec_invariant (I := fun j => ∃ n, Orderly cfg j n) ?_ as
        ⟨0, lifecycle_reset cfg, (by simp)⟩ hex hal
      rintro j a j' ⟨n, h⟩ hc hs
      exact ⟨_, h.step hc hs⟩
    refine ⟨fun t ht => h.accounted ht, fun hph => ?_⟩
    have hshape := h.lifecycle.shape
    simp only [Shape, Journal.spine, hph] at hshape
    exact hshape.2.1

/-- A handle starts, creates the first transaction and stops; the commit of that transaction
is requested and runs up to the loop over its buffers. -/
def commitToLoop : List Act :=
  [.handle (.start 1 0), .handle (.startRepeat 0 true), .getTransaction 0,
    .handle (.startRepeat 0 true), .handle (.stop 0), .requestCommit 0 0, .commit .kjournald,
    .commit .restoreSuperblock, .commit .allocNew, .commit .lockDown,
    .commit .switchTransaction, .commit .setCommit]

/-- A handle that starts while the commit has no running transaction creates one, and the
commit then stores the preallocated one over it. -/
def orphanRun : List Act :=
  commitToLoop ++
    [.handle (.start 1 0), .handle (.startRepeat 2 true), .getTransaction 2,
      .handle (.startRepeat 2 true), .commit .getTail, .commit (.install false)]

def sampleConfig : Config := { tid0 := 0, maxTransactionBuffers := 64, errno := false }

instance (j : Journal) (t : ℕ) : Decidable (j.Accounted t) := by
  unfold Journal.Accounted Journal.Committed
  infer_instance

/-- The assertion of `jbd2_get_transaction` fails in the commit, and the transaction of the
second handle is lost while the handle is attached to it. -/
theorem orphanRun_loses_transaction :
    (exec Journal.step (journalReset sampleConfig) (commitToLoop.take 8)).map
      (fun j => (j.jRunningTransaction, j.getsTransaction (.commit .allocNew))) =
        some (some 0, true) ∧
    (exec Journal.step (journalReset sampleConfig) orphanRun).map
      (fun j => (decide (j.Accounted 2), (j.txs 2).tUpdates, (j.handles 2).hTransaction,
        j.phase.lockedDown)) = some (false, 1, some 2, false) := by
  decide +kernel

theorem running_transaction_kept_orphanRun :
    ∃ j, exec Journal.step (journalReset sampleConfig) orphanRun = some j ∧
      ¬ Along Journal.step Journal.KeepsTransactions (journalReset sampleConfig) orphanRun := by
  obtain ⟨j, hj⟩ := Option.isSome_iff_exists.mp
    (by decide +kernel : (exec Journal.step (journalReset sampleConfig) orphanRun).isSome = true)
  refine ⟨j, hj, fun h => ?_⟩
  exact absurd ((running_transaction_kept sampleConfig orphanRun j hj).1.mp h) (by decide +kernel)

end VMsep.Jbd2
