import Mathlib.Data.BitVec

/-! The in-memory `journal_t` as the commit routine, the handle calls and the checkpoint code see
it. Transactions, handles and calls are numbered in the order of their creation, so a pointer of the
source is a number here; `nextTx` and `nextHandle` are the first unused ones. Inodes are numbers,
atomic counters integers. The log is addressed by the number of transactions started in it, which is
where `j_head` stands whenever the source reads it as a transaction boundary. -/

namespace VMsep.Jbd2

open Function

/-- `tid_t`: sequence numbers wrap around at `2 ^ 32`. -/
abbrev Tid := BitVec 32

/-- `tid_gt`: the difference is read as a signed 32-bit number. -/
def tidGt (x y : Tid) : Bool := decide (0 < (x - y).toInt)

def tidGeq (x y : Tid) : Bool := decide (0 ≤ (x - y).toInt)

inductive TState where
  | running
  | locked
  | flush
  | commit
  | commitDflush
  | commitJflush
  | commitCallback
  | finished
  deriving DecidableEq

/-- The fields of `transaction_t` that the protocol reads; its buffer lists are part of the
memory model. -/
structure Transaction where
  tTid : Tid
  tState : TState
  tUpdates : ℕ
  tOutstandingCredits : ℤ
  tHandleCount : ℕ
  inoSync : ℕ
  tLogStart : ℕ
  deriving DecidableEq

inductive Errno where
  | erofs
  | enospc
  | enomem
  | einval
  | euclean
  deriving DecidableEq

/-- How far a handle is. `starting` is the label `repeat` of `start_this_handle`,
`needTransaction` the point where it has seen no running transaction and is about to take
the state lock for writing, `stopping` the point of `journal_stop` where `t_updates` has been
dropped and the reserved handle is still to be freed. `owned` is a reserved handle that its
parent still holds in `h_rsv_handle`, `reserved` one that the caller has taken over. -/
inductive HandleStage where
  | unused
  | starting
  | needTransaction
  | attached
  | stopping
  | owned
  | reserved
  | stopped
  | failed (e : Errno)
  deriving DecidableEq

/-- `handle_t`. `accounted` records whether the credits of a reserved handle are at present
part of `j_reserved_credits`. -/
structure Handle where
  stage : HandleStage
  hTransaction : Option ℕ
  hBufferCredits : ℕ
  hReserved : Bool
  hRsvHandle : Option ℕ
  hRef : ℕ
  accounted : Bool
  deriving DecidableEq

/-- A call of `lock_updates`: waiting for reserved credits, for open updates, for the barrier
mutex, returned, or in `unlock_updates` after the mutex was released. -/
inductive BarrierStage where
  | unused
  | waitReserved
  | waitUpdates
  | waitMutex
  | held
  | unlocking
  | released
  deriving DecidableEq

/-- A call of `complete_transaction` made by `ext4_sync_file`. -/
inductive SyncStage where
  | unused
  | check
  | request
  | wait
  | done (err : Bool)
  deriving DecidableEq

/-- The inode, the number of the transaction whose tid is `commit_tid`, and the `ino_sync`
argument of a sync call. -/
structure SyncCall where
  stage : SyncStage
  ino : ℕ
  commitTx : ℕ
  inoSync : ℕ
  deriving DecidableEq

/-- The position of `commit_transaction`. `entered` and `ready` precede and follow the
superblock update, `switching` is the part that holds `j_state_lock` with no update left,
`flushing` writes data and revoke records, `logging` is the loop over `t_buffers`, `tailKnown`
follows `get_log_tail`, `installed` waits for the log blocks, `jflush` and `recorded` surround
the commit record, `forgetting` is the loop over `t_forget` and `callback` the end. -/
inductive CommitPhase where
  | idle
  | entered
  | ready
  | allocated
  | waitUpdates
  | switching
  | flushing
  | logging
  | tailKnown
  | installed
  | jflush
  | recorded
  | forgetting
  | callback
  deriving DecidableEq

structure LogTail where
  tid : Tid
  tx : ℕ
  block : ℕ
  deriving DecidableEq

/-- `journal_t`, with the local variables of the commit routine and of
`cleanup_journal_tail`, the tail fields of the superblock on disk and the list of the commit
records written so far. -/
structure Journal where
  jAborted : Bool
  jErrno : Bool
  jAckErr : Bool
  jUnmount : Bool
  jFlushed : Bool
  jBarrierCount : ℕ
  jBarrier : Option ℕ
  jRunningTransaction : Option ℕ
  jCommittingTransaction : Option ℕ
  jCheckpointTransactions : List ℕ
  jHead : ℕ
  jTail : LogTail
  jTransactionSequence : Tid
  jCommitSequence : Tid
  jCommitRequest : Tid
  jReservedCredits : ℤ
  jMaxTransactionBuffers : ℤ
  txs : ℕ → Transaction
  nextTx : ℕ
  handles : ℕ → Handle
  nextHandle : ℕ
  barriers : ℕ → BarrierStage
  nextBarrier : ℕ
  syncs : ℕ → SyncCall
  nextSync : ℕ
  phase : CommitPhase
  commitTransaction : ℕ
  runningTransaction : ℕ
  firstTail : LogTail
  updateTail : Bool
  cleanup : Option LogTail
  sbTail : Option LogTail
  commitRecords : List ℕ

/-- `kmem_cache_zalloc`. -/
def Transaction.zero : Transaction :=
  { tTid := 0, tState := .running, tUpdates := 0, tOutstandingCredits := 0,
    tHandleCount := 0, inoSync := 0, tLogStart := 0 }

def Handle.unused : Handle :=
  { stage := .unused, hTransaction := none, hBufferCredits := 0, hReserved := false,
    hRsvHandle := none, hRef := 0, accounted := false }

/-- What `journal_reset` finds: the next sequence number, the transaction size limit and the
error flag of the superblock. -/
structure Config where
  tid0 : Tid
  maxTransactionBuffers : ℤ
  errno : Bool
  deriving DecidableEq

/-- The journal after `journal_reset` on a clean superblock (`s_start == 0`). -/
def journalReset (cfg : Config) : Journal :=
  { jAborted := false, jErrno := cfg.errno, jAckErr := false, jUnmount := false,
    jFlushed := true, jBarrierCount := 0, jBarrier := none,
    jRunningTransaction := none, jCommittingTransaction := none,
    jCheckpointTransactions := [], jHead := 0,
    jTail := { tid := cfg.tid0, tx := 0, block := 0 },
    jTransactionSequence := cfg.tid0, jCommitSequence := cfg.tid0 - 1,
    jCommitRequest := cfg.tid0 - 1, jReservedCredits := 0,
    jMaxTransactionBuffers := cfg.maxTransactionBuffers,
    txs := fun _ => Transaction.zero, nextTx := 0,
    handles := fun _ => Handle.unused, nextHandle := 0,
    barriers := fun _ => .unused, nextBarrier := 0,
    syncs := fun _ => { stage := .unused, ino := 0, commitTx := 0, inoSync := 0 },
    nextSync := 0, phase := .idle, commitTransaction := 0, runningTransaction := 0,
    firstTail := { tid := cfg.tid0, tx := 0, block := 0 }, updateTail := false,
    cleanup := none, sbTail := none, commitRecords := [] }

namespace Journal

def setTx (j : Journal) (t : ℕ) (f : Transaction → Transaction) : Journal :=
  { j with txs := update j.txs t (f (j.txs t)) }

def setHandle (j : Journal) (h : ℕ) (f : Handle → Handle) : Journal :=
  { j with handles := update j.handles h (f (j.handles h)) }

def setBarrier (j : Journal) (c : ℕ) (b : BarrierStage) : Journal :=
  { j with barriers := update j.barriers c b }

def setSync (j : Journal) (c : ℕ) (st : SyncStage) : Journal :=
  { j with syncs := update j.syncs c { j.syncs c with stage := st } }

/-- The commit routine holds `j_state_lock` for writing exactly in the phase `switching`. -/
def stateLockFree (j : Journal) : Bool := j.phase != .switching

/-- `is_journal_aborted`, or an error that has not been acknowledged. -/
def readOnly (j : Journal) : Bool := j.jAborted || (j.jErrno && !j.jAckErr)

end Journal

end VMsep.Jbd2
