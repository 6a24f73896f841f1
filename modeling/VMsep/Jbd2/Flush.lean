import VMsep.Jbd2.Pointers

/-! `journal_flush` and `journal_destroy` commit the running transaction, wait until everything is
checkpointed, and mark the journal as empty in its superblock. Both hold `j_checkpoint_mutex` while
they write; a commit and `cleanup_journal_tail` take it for their own updates of the tail. The
commit record is written in two sections here, the test for an abort and the submission. -/

namespace VMsep.Jbd2

open Lib Option

/-- Where a call of `journal_flush` is: waiting for a commit, in the loop that checkpoints, past
the test for an abort, with the mutex before and after `cleanup_journal_tail`, before
`mark_journal_empty`, before the assertions at its end. -/
inductive FlushStage where
  | wait (tid : Tid)
  | checkpoint
  | lock
  | cleanup
  | tail
  | markEmpty
  | check
  | done (err : Bool)
  deriving DecidableEq

/-- Where `journal_destroy` is. -/
inductive DestroyStage where
  | unused
  | killing
  | commit
  | check
  | lock
  | markEmpty
  | done (err : Bool)
  deriving DecidableEq

inductive FlushAct where
  | begin
  | waited (c : ℕ)
  | checkpointed (c : ℕ)
  | lock (c : ℕ)
  | cleanup (c : ℕ)
  | writeTail (c : ℕ)
  | markEmpty (c : ℕ)
  | check (c : ℕ)
  deriving DecidableEq

inductive DestroyAct where
  | begin
  | commit
  | checkpointed
  | check
  | lock
  | markEmpty
  deriving DecidableEq

/-- Where the commit is with `journal_submit_commit_record`: before the call, past its test for an
abort, behind the submission, or behind a call that has found an abort. -/
inductive RecordStage where
  | before
  | tested
  | submitted
  | skipped
  deriving DecidableEq

inductive MountAct where
  | journal (a : Act)
  | testRecord
  | submitRecord
  | flush (a : FlushAct)
  | destroy (a : DestroyAct)
  deriving DecidableEq

/-- The two fields of the superblock on disk that say where recovery starts; `s_start` is zero for
an empty journal. -/
structure Superblock where
  sSequence : Tid
  sStart : Option ℕ
  deriving DecidableEq

/-- A journal with its calls of `flush`, in the order of their start, and of `destroy`. `mutex` is
set while one of them holds `j_checkpoint_mutex`, `emptySequence` is the `s_sequence` of a
superblock with `s_start` zero, `asyncCommit` the feature of that name. -/
structure Mount where
  j : Journal
  asyncCommit : Bool
  record : RecordStage
  mutex : Bool
  flushes : List FlushStage
  destroy : DestroyStage
  emptySequence : Tid

/-- The assertions at the end of `journal_flush`. -/
structure Journal.FlushAssertions (j : Journal) : Prop where
  running : j.jRunningTransaction = none
  committing : j.jCommittingTransaction = none
  checkpoints : j.jCheckpointTransactions = []
  head : j.jHead = j.jTail.block
  sequence : j.jTail.tid = j.jTransactionSequence

/-- The assertions of `journal_destroy`. -/
structure Journal.DestroyAssertions (j : Journal) : Prop where
  running : j.jRunningTransaction = none
  committing : j.jCommittingTransaction = none
  checkpoints : j.jCheckpointTransactions = []

instance (j : Journal) : Decidable j.FlushAssertions :=
  decidable_of_iff (j.jRunningTransaction = none ∧ j.jCommittingTransaction = none ∧
    j.jCheckpointTransactions = [] ∧ j.jHead = j.jTail.block ∧
    j.jTail.tid = j.jTransactionSequence)
    ⟨fun ⟨h1, h2, h3, h4, h5⟩ => ⟨h1, h2, h3, h4, h5⟩, fun ⟨h1, h2, h3, h4, h5⟩ =>
      ⟨h1, h2, h3, h4, h5⟩⟩

instance (j : Journal) : Decidable j.DestroyAssertions :=
  decidable_of_iff (j.jRunningTransaction = none ∧ j.jCommittingTransaction = none ∧
    j.jCheckpointTransactions = [])
    ⟨fun ⟨h1, h2, h3⟩ => ⟨h1, h2, h3⟩, fun ⟨h1, h2, h3⟩ => ⟨h1, h2, h3⟩⟩

namespace Mount

def reset (cfg : Config) (asyncCommit : Bool) : Mount :=
  { j := journalReset cfg, asyncCommit := asyncCommit, record := .before, mutex := false,
    flushes := [], destroy := .unused, emptySequence := cfg.tid0 }

def superblock (m : Mount) : Superblock :=
  match m.j.sbTail with
  | some tail => { sSequence := tail.tid, sStart := some tail.block }
  | none => { sSequence := m.emptySequence, sStart := none }

def setFlush (m : Mount) (c : ℕ) (st : FlushStage) : Mount :=
  { m with flushes := m.flushes.set c st }

/-- `journal_submit_commit_record` has returned. -/
def recordDone (m : Mount) : Bool := m.record = .submitted || m.record = .skipped

/-- What other threads may do while `flush` or `destroy` holds the mutex. The commit thread is
stopped, and the final commit made, by `destroy` only; it goes on when the call for the commit
record has returned. -/
def allows (m : Mount) : Act → Bool
  | .killThread | .commit .destroy => false
  | .cleanupGetTail | .cleanupUpdateTail => !m.mutex
  | .commit .restoreSuperblock => !(m.mutex && m.j.jFlushed)
  | .commit .updateTail => !(m.mutex && m.j.updateTail)
  | .commit .setJflush => !m.asyncCommit || m.recordDone
  | .commit .record => m.recordDone
  | _ => true

def markJournalEmpty (m : Mount) : Mount :=
  if m.j.sbTail = none then m
  else
    { m with
      j := { m.j with sbTail := none, jFlushed := true }
      emptySequence := m.j.jTail.tid }

/-- The first section of `journal_flush`. -/
def flushBegin (m : Mount) : Mount :=
  match m.j.jRunningTransaction, m.j.jCommittingTransaction with
  | some t, _ =>
    { m with
      j := m.j.logStartCommit (m.j.txs t).tTid 0
      flushes := m.flushes ++ [.wait (m.j.txs t).tTid] }
  | none, some t => { m with flushes := m.flushes ++ [.wait (m.j.txs t).tTid] }
  | none, none => { m with flushes := m.flushes ++ [.checkpoint] }

/-- The sections of `journal_flush`. `log_do_checkpoint` fails only with the journal aborted; its
work is done by the actions of the journal. -/
def flushStep (m : Mount) : FlushAct → Option Mount
  | .begin => if !m.j.stateLockFree then none else some m.flushBegin
  | .waited c =>
    match m.flushes[c]? with
    | some (.wait tid) =>
      if !m.j.stateLockFree ∨ tidGt tid m.j.jCommitSequence then none
      else some (m.setFlush c .checkpoint)
    | _ => none
  | .checkpointed c =>
    if m.flushes[c]? ≠ some .checkpoint then none
    else if m.j.jAborted then some (m.setFlush c (.done true))
    else if m.j.jCheckpointTransactions ≠ [] then none
    else some (m.setFlush c .lock)
  | .lock c =>
    if m.flushes[c]? ≠ some .lock ∨ m.mutex ∨ m.j.cleanup ≠ none then none
    else some { m.setFlush c .cleanup with mutex := true }
  | .cleanup c =>
    if m.flushes[c]? ≠ some .cleanup then none
    else if m.j.jAborted then some { m.setFlush c (.done true) with mutex := false }
    else m.j.cleanupGetTail.map fun j => { m.setFlush c .tail with j := j }
  | .writeTail c =>
    if m.flushes[c]? ≠ some .tail then none
    else if m.j.cleanup = none then some (m.setFlush c .markEmpty)
    else m.j.cleanupUpdateTail.map fun j => { m.setFlush c .markEmpty with j := j }
  | .markEmpty c =>
    if m.flushes[c]? ≠ some .markEmpty ∨ !m.j.stateLockFree then none
    else some { m.markJournalEmpty.setFlush c .check with mutex := false }
  | .check c =>
    if m.flushes[c]? ≠ some .check ∨ !m.j.stateLockFree ∨ ¬ m.j.FlushAssertions then none
    else some (m.setFlush c (.done false))

/-- The sections of `journal_destroy`. -/
def destroyStep (m : Mount) : DestroyAct → Option Mount
  | .begin =>
    if m.destroy ≠ .unused then none
    else some { m with j := { m.j with jUnmount := true }, destroy := .killing }
  | .commit =>
    if m.destroy ≠ .killing ∨ m.j.phase ≠ .idle then none
    else if m.j.jRunningTransaction = none then some { m with destroy := .commit }
    else m.j.destroyCommit.map fun j => { m with j := j, destroy := .commit }
  | .checkpointed =>
    if m.destroy ≠ .commit ∨ m.j.phase ≠ .idle then none
    else if m.j.jAborted then
      some { m with j := { m.j with jCheckpointTransactions := [] }, destroy := .check }
    else if m.j.jCheckpointTransactions ≠ [] then none
    else some { m with destroy := .check }
  | .check =>
    if m.destroy ≠ .check ∨ ¬ m.j.DestroyAssertions then none
    else if m.j.jAborted then some { m with destroy := .done true }
    else some { m with destroy := .lock }
  | .lock =>
    if m.destroy ≠ .lock ∨ m.mutex ∨ m.j.cleanup ≠ none then none
    else
      some { m with
        j := { m.j with
          jTransactionSequence := m.j.jTransactionSequence + 1
          jTail := { m.j.jTail with tid := m.j.jTransactionSequence + 1 } }
        mutex := true
        destroy := .markEmpty }
  | .markEmpty =>
    if m.destroy ≠ .markEmpty then none
    else some { m.markJournalEmpty with mutex := false, destroy := .done false }

/-- The test of `journal_submit_commit_record`, which is called before the log blocks are waited
for, with the feature, or after that. -/
def testRecord (m : Mount) : Option Mount :=
  if m.record ≠ .before ∨ m.j.phase ≠ (if m.asyncCommit then .installed else .jflush) then none
  else some { m with record := if m.j.jAborted then .skipped else .tested }

/-- `submit_bh` of the commit record. -/
def submitRecord (m : Mount) : Option Mount :=
  if m.record ≠ .tested then none
  else
    some { m with
      j := { m.j with commitRecords := m.j.commitRecords ++ [m.j.commitTransaction] }
      record := .submitted }

/-- The wait for the commit record, which writes no further one. -/
def waitRecord (m : Mount) : Option Mount :=
  (({ m.j with jAborted := true } : Journal).step (.commit .record)).map fun j =>
    { m with j := { j with jAborted := m.j.jAborted }, record := .before }

def step (m : Mount) : MountAct → Option Mount
  | .journal a =>
    if m.allows a then
      if a = .commit .record then m.waitRecord else (m.j.step a).map fun j => { m with j := j }
    else none
  | .testRecord => m.testRecord
  | .submitRecord => m.submitRecord
  | .flush a => m.flushStep a
  | .destroy a => m.destroyStep a

end Mount

/-- What `flush` and `destroy` do to the journal. -/
inductive Journal.Shutdown (j : Journal) : Journal → Prop
  | same : j.Shutdown j
  | request (tid : Tid) : j.Shutdown (j.logStartCommit tid 0)
  | step {c : Act} {j' : Journal}
      (hc : c = .cleanupGetTail ∨ c = .cleanupUpdateTail ∨ c = .commit .destroy)
      (hs : j.step c = some j') : j.Shutdown j'
  | markEmpty : j.Shutdown { j with sbTail := none, jFlushed := true }
  | unmount : j.Shutdown { j with jUnmount := true }
  | destroyCheckpoint : j.Shutdown { j with jCheckpointTransactions := [] }
  | lastSequence : j.Shutdown { j with
      jTransactionSequence := j.jTransactionSequence + 1
      jTail := { j.jTail with tid := j.jTransactionSequence + 1 } }

namespace Mount

variable {m m' : Mount}

end Mount

end VMsep.Jbd2
