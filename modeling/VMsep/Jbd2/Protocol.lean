import VMsep.Jbd2.Handles
import VMsep.Jbd2.Spine
import VMsep.Lib.Transition

/-! Commit requests, the sections of `jbd2_vmsep_journal_commit_transaction` under `j_state_lock`,
the log tail, and the step function that interleaves all of them with the handle calls. What the
commit does to buffers between these sections is in the memory model; the timer, the room in the log
and I/O errors are inputs. -/

namespace VMsep.Jbd2

namespace Journal

/-- `kjournald2` finds that requests differ and calls the commit routine. -/
def kjournald (j : Journal) : Option Journal :=
  if j.phase ≠ .idle ∨ j.jUnmount ∨ j.jCommitSequence = j.jCommitRequest then none
  else some { j with phase := .entered }

/-- `kjournald2` wakes after the running transaction has expired. -/
def commitTimeout (j : Journal) : Option Journal :=
  match j.jRunningTransaction with
  | none => none
  | some t =>
    if j.phase ≠ .idle ∨ j.jUnmount then none
    else some { j with jCommitRequest := (j.txs t).tTid }

/-- The final commit of `journal_destroy`, after the commit thread has gone. -/
def destroyCommit (j : Journal) : Option Journal :=
  if j.phase ≠ .idle ∨ !j.jUnmount ∨ j.jRunningTransaction = none then none
  else some { j with phase := .entered }

def updateSbLogTail (j : Journal) (tail : LogTail) : Journal :=
  { j with sbTail := some tail, jFlushed := false }

def restoreSuperblock (j : Journal) : Option Journal :=
  if j.phase ≠ .entered then none
  else if !j.jFlushed then some { j with phase := .ready }
  else if j.cleanup ≠ none then none
  else some { j.updateSbLogTail j.jTail with phase := .ready }

/-- The two stores at the top of the commit, made without `j_state_lock`: the running
transaction becomes the one to commit and `alloc_new_transaction` replaces it. -/
def allocNewTransaction (j : Journal) : Option Journal :=
  match j.jRunningTransaction with
  | none => none
  | some t =>
    if j.phase ≠ .ready ∨ j.jCommittingTransaction ≠ none then none
    else
      some { j.jbd2GetTransaction with
        commitTransaction := t
        runningTransaction := j.nextTx
        phase := .allocated }

def setState (j : Journal) (t : ℕ) (st : TState) : Journal :=
  j.setTx t fun x => { x with tState := st }

/-- The commit goes on with `j_state_lock` held once no update is left. -/
def beginSwitch (j : Journal) : Option Journal :=
  if j.jMaxTransactionBuffers < (j.txs j.commitTransaction).tOutstandingCredits then none
  else some { j with phase := .switching }

/-- The commit takes `j_state_lock`, locks the old transaction down and looks at its
updates. -/
def lockDown (j : Journal) : Option Journal :=
  if j.phase ≠ .allocated ∨ (j.txs j.commitTransaction).tState ≠ .running then none
  else
    let j' := (j.setState j.commitTransaction .locked).setState j.runningTransaction .running
    if (j'.txs j'.commitTransaction).tUpdates = 0 then j'.beginSwitch
    else some { j' with phase := .waitUpdates }

def wakeUpdates (j : Journal) : Option Journal :=
  if j.phase ≠ .waitUpdates ∨ (j.txs j.commitTransaction).tUpdates ≠ 0 then none
  else j.beginSwitch

/-- The old transaction becomes the committing one and `j_running_transaction` is cleared. -/
def switchTransaction (j : Journal) : Option Journal :=
  if j.phase ≠ .switching then none
  else
    some { j.setTx j.commitTransaction fun x =>
        { x with
          tState := .flush
          tOutstandingCredits := x.tOutstandingCredits - j.jReservedCredits
          tLogStart := j.jHead } with
      jHead := j.jHead + 1
      jCommittingTransaction := some j.commitTransaction
      jRunningTransaction := none
      phase := .flushing }

def setCommit (j : Journal) : Option Journal :=
  if j.phase ≠ .flushing then none
  else some { j.setState j.commitTransaction .commit with phase := .logging }

def commitCredit (j : Journal) : Option Journal :=
  if j.phase ≠ .logging then none
  else
    some (j.setTx j.commitTransaction fun x =>
      { x with tOutstandingCredits := x.tOutstandingCredits - 1 })

/-- `get_log_tail`: the oldest transaction of the log and where it starts. -/
def getLogTail (j : Journal) : LogTail :=
  match j.jCheckpointTransactions, j.jCommittingTransaction, j.jRunningTransaction with
  | t :: _, _, _ => { tid := (j.txs t).tTid, tx := t, block := (j.txs t).tLogStart }
  | [], some t, _ => { tid := (j.txs t).tTid, tx := t, block := (j.txs t).tLogStart }
  | [], none, some t => { tid := (j.txs t).tTid, tx := t, block := j.jHead }
  | [], none, none => { tid := j.jTransactionSequence, tx := j.nextTx, block := j.jHead }

def commitGetTail (j : Journal) : Option Journal :=
  if j.phase ≠ .logging then none
  else
    some { j with
      firstTail := j.getLogTail
      updateTail := tidGt j.getLogTail.tid j.jTail.tid
      phase := .tailKnown }

/-- The preallocated transaction is stored into `j_running_transaction`; `keep` says whether
enough of the log would be freed to move the tail. -/
def installRunning (j : Journal) (keep : Bool) : Option Journal :=
  if j.phase ≠ .tailKnown ∨ (j.txs j.commitTransaction).tState ≠ .commit then none
  else
    some { j.setState j.commitTransaction .commitDflush with
      jRunningTransaction := some j.runningTransaction
      updateTail := j.updateTail && keep
      phase := .installed }

def setJflush (j : Journal) : Option Journal :=
  if j.phase ≠ .installed ∨ (j.txs j.commitTransaction).tState ≠ .commitDflush then none
  else some { j.setState j.commitTransaction .commitJflush with phase := .jflush }

/-- `journal_submit_commit_record` and the wait for it; an aborted journal writes nothing. -/
def submitCommitRecord (j : Journal) : Option Journal :=
  if j.phase ≠ .jflush then none
  else
    some { j with
      commitRecords :=
        if j.jAborted then j.commitRecords else j.commitRecords ++ [j.commitTransaction]
      phase := .recorded }

/-- `update_log_tail`, which takes the checkpoint mutex. -/
def commitUpdateTail (j : Journal) : Option Journal :=
  if j.phase ≠ .recorded then none
  else if !j.updateTail then some { j with phase := .forgetting }
  else if j.cleanup ≠ none then none
  else if tidGt j.firstTail.tid j.jTail.tid then
    some { j.updateSbLogTail j.firstTail with jTail := j.firstTail, phase := .forgetting }
  else some { j with phase := .forgetting }

def finishCommit (j : Journal) : Option Journal :=
  if j.phase ≠ .forgetting ∨ (j.txs j.commitTransaction).tState ≠ .commitJflush ∨
      j.jCommittingTransaction ≠ some j.commitTransaction then none
  else
    some { j.setState j.commitTransaction .commitCallback with
      jCheckpointTransactions := j.jCheckpointTransactions ++ [j.commitTransaction]
      jCommitSequence := (j.txs j.commitTransaction).tTid
      jCommittingTransaction := none
      phase := .callback }

def dropTransaction (j : Journal) (t : ℕ) : Journal :=
  { j with jCheckpointTransactions := j.jCheckpointTransactions.erase t }

/-- The end of the commit; `drop` says that nothing was left to checkpoint. -/
def commitCallback (j : Journal) (drop : Bool) : Option Journal :=
  if j.phase ≠ .callback then none
  else
    let j' := { j.setState j.commitTransaction .finished with phase := .idle }
    some (if drop then j'.dropTransaction j.commitTransaction else j')

def dropCheckpoint (j : Journal) (t : ℕ) : Option Journal :=
  if t ∉ j.jCheckpointTransactions ∨ (j.txs t).tState ≠ .finished then none
  else some (j.dropTransaction t)

/-- `cleanup_journal_tail` under the checkpoint mutex, up to the superblock write. -/
def cleanupGetTail (j : Journal) : Option Journal :=
  if !j.stateLockFree ∨ j.jAborted ∨ j.cleanup ≠ none then none
  else if tidGt j.getLogTail.tid j.jTail.tid then some { j with cleanup := some j.getLogTail }
  else some j

def cleanupUpdateTail (j : Journal) : Option Journal :=
  match j.cleanup with
  | none => none
  | some tail =>
    if !j.stateLockFree then none
    else some { j.updateSbLogTail tail with jTail := tail, cleanup := none }

/-- `jbd2_vmsep_log_start_commit`. -/
def requestCommit (j : Journal) (target : Tid) (inoSync : ℕ) : Option Journal :=
  if !j.stateLockFree then none else some (j.logStartCommit target inoSync)

/-- `__journal_abort_hard`. -/
def abort (j : Journal) : Option Journal :=
  if j.jAborted then some j
  else if !j.stateLockFree then none
  else
    let j' := { j with jAborted := true, jErrno := true }
    match j.jRunningTransaction with
    | none => some j'
    | some t => some (j'.logStartCommit (j.txs t).tTid 0)

/-- `ext4_sync_file` with the tid of transaction `n` as `commit_tid`; `vm` says whether the
inode is registered as the image of a virtual machine. -/
def syncFile (j : Journal) (ino : ℕ) (n : ℕ) (vm : Bool) : Option Journal :=
  if j.nextTx ≤ n then none
  else
    some { j with
      syncs := Function.update j.syncs j.nextSync
        { stage := .check, ino := ino, commitTx := n, inoSync := if vm then ino else 0 }
      nextSync := j.nextSync + 1 }

/-- The first section of `complete_transaction`. -/
def completeCheck (j : Journal) (c : ℕ) : Option Journal :=
  let tid := (j.txs (j.syncs c).commitTx).tTid
  if (j.syncs c).stage ≠ .check ∨ !j.stateLockFree then none
  else if j.jRunningTransaction.map (fun t => (j.txs t).tTid) = some tid then
    some (j.setSync c (if j.jCommitRequest = tid then .wait else .request))
  else if j.jCommittingTransaction.map (fun t => (j.txs t).tTid) = some tid then
    some (j.setSync c .wait)
  else some (j.setSync c (.done false))

/-- `complete_transaction` requests the commit. -/
def completeRequest (j : Journal) (c : ℕ) : Option Journal :=
  if (j.syncs c).stage ≠ .request ∨ !j.stateLockFree then none
  else
    some ((j.logStartCommit (j.txs (j.syncs c).commitTx).tTid (j.syncs c).inoSync).setSync c .wait)

/-- `log_wait_commit` returns. -/
def waitCommit (j : Journal) (c : ℕ) : Option Journal :=
  if (j.syncs c).stage ≠ .wait ∨ !j.stateLockFree ∨
      tidGt (j.txs (j.syncs c).commitTx).tTid j.jCommitSequence then none
  else some (j.setSync c (.done j.jAborted))

end Journal

inductive HandleAct where
  | start (nblocks rsv : ℕ)
  | startRepeat (h : ℕ) (room : Bool)
  | startNomem (h : ℕ)
  | nest (h : ℕ)
  | stop (h : ℕ)
  | stopRelease (h : ℕ)
  | extend (h : ℕ) (nblocks : ℕ) (room : Bool)
  | restart (h : ℕ) (nblocks : ℕ)
  | takeReserved (h : ℕ)
  | startReserved (r : ℕ)
  | freeReserved (r : ℕ)
  | useCredit (h : ℕ)
  | returnCredit (h : ℕ)
  deriving DecidableEq

inductive BarrierAct where
  | lock
  | reserved (c : ℕ)
  | check (c : ℕ)
  | mutex (c : ℕ)
  | unlock (c : ℕ)
  | unlockCount (c : ℕ)
  deriving DecidableEq

inductive SyncAct where
  | begin (ino : ℕ) (n : ℕ) (vm : Bool)
  | check (c : ℕ)
  | request (c : ℕ)
  | wait (c : ℕ)
  deriving DecidableEq

inductive Act where
  | handle (a : HandleAct)
  | getTransaction (h : ℕ)
  | barrier (a : BarrierAct)
  | sync (a : SyncAct)
  | commit (a : CommitAct)
  | requestCommit (target : Tid) (inoSync : ℕ)
  | timeout
  | abort
  | killThread
  | dropCheckpoint (t : ℕ)
  | cleanupGetTail
  | cleanupUpdateTail
  deriving DecidableEq

namespace Journal

def handleStep (j : Journal) : HandleAct → Option Journal
  | .start n r => some (j.journalStart n r)
  | .startRepeat h room => j.startRepeat h room
  | .startNomem h => j.startNomem h
  | .nest h => j.nestHandle h
  | .stop h => j.journalStop h
  | .stopRelease h => j.stopRelease h
  | .extend h n room => j.journalExtend h n room
  | .restart h n => j.journalRestart h n
  | .takeReserved h => j.takeReserved h
  | .startReserved r => j.startReserved r
  | .freeReserved r => j.freeReserved r
  | .useCredit h => j.useCredit h
  | .returnCredit h => j.returnCredit h

def barrierStep (j : Journal) : BarrierAct → Option Journal
  | .lock => j.lockUpdates
  | .reserved c => j.lockUpdatesReserved c
  | .check c => j.lockUpdatesCheck c
  | .mutex c => j.lockUpdatesMutex c
  | .unlock c => j.unlockUpdates c
  | .unlockCount c => j.unlockUpdatesCount c

def syncStep (j : Journal) : SyncAct → Option Journal
  | .begin ino n vm => j.syncFile ino n vm
  | .check c => j.completeCheck c
  | .request c => j.completeRequest c
  | .wait c => j.waitCommit c

def commitStep (j : Journal) : CommitAct → Option Journal
  | .kjournald => j.kjournald
  | .destroy => j.destroyCommit
  | .restoreSuperblock => j.restoreSuperblock
  | .allocNew => j.allocNewTransaction
  | .lockDown => j.lockDown
  | .wakeUpdates => j.wakeUpdates
  | .switchTransaction => j.switchTransaction
  | .setCommit => j.setCommit
  | .credit => j.commitCredit
  | .getTail => j.commitGetTail
  | .install keep => j.installRunning keep
  | .setJflush => j.setJflush
  | .record => j.submitCommitRecord
  | .updateTail => j.commitUpdateTail
  | .finish => j.finishCommit
  | .callback drop => j.commitCallback drop

def step (j : Journal) : Act → Option Journal
  | .handle a => j.handleStep a
  | .getTransaction h => j.startGetTransaction h
  | .barrier a => j.barrierStep a
  | .sync a => j.syncStep a
  | .commit a => j.commitStep a
  | .requestCommit target inoSync => j.requestCommit target inoSync
  | .timeout => j.commitTimeout
  | .abort => j.abort
  | .killThread => some { j with jUnmount := true }
  | .dropCheckpoint t => j.dropCheckpoint t
  | .cleanupGetTail => j.cleanupGetTail
  | .cleanupUpdateTail => j.cleanupUpdateTail

end Journal

end VMsep.Jbd2
