import VMsep.Jbd2.Access
import VMsep.Jbd2.Protocol
import VMsep.Jbd2.Revoke

/-! The protocol together with what the handle calls, the commit and the checkpoint code do to
buffers between the sections of the protocol. A section under the lock of a buffer or under
`j_list_lock` is one action; the unlocked reads of a list head and of its tag belong to the section
that follows them. A log block is read by the device when its I/O completes. -/

namespace VMsep.Jbd2

open Function

/-- What a task that owns a handle is doing: a pass of `do_get_write_access` is due, with or
without a buffer for the frozen data, or the locked section of `get_create_access`,
`cancel_revoke` or `put_journal_head`, or `revoke` has marked the buffer and is about to forget
it and to insert the record. -/
inductive ClientOp where
  | idle
  | access (b : ℕ) (frozenBuffer : Bool)
  | create (b : ℕ)
  | cancel (b : ℕ)
  | put (b : ℕ)
  | revoking (b : ℕ) (forget : Bool)
  deriving DecidableEq

/-- Where the commit routine is between two sections of the protocol. `deferring` is the point
between `unfile_buffer` and `file_buffer`, `copying` the allocation in
`write_metadata_buffer`. -/
inductive CommitSub where
  | idle
  | revokeCleared
  | revokeSwitched
  | revokesWritten
  | deferring (b : ℕ) (jlist : Jlist)
  | copying (b : ℕ)
  deriving DecidableEq

/-- A log block has its tag, its I/O is on the way, or it is on disk. -/
inductive LogIo where
  | tagged
  | submitted
  | done
  deriving DecidableEq

/-- A metadata block in the log. `copy` is the frozen data it is written from, if not from the
buffer itself; `data` is what is on disk when the I/O is done. -/
structure LogBlock where
  blocknr : ℕ
  escaped : Bool
  copy : Option Content
  io : LogIo
  data : Content
  deriving DecidableEq

structure LogTx where
  tx : ℕ
  revokes : List ℕ
  blocks : List LogBlock
  committed : Bool
  deriving DecidableEq

/-- A call of `dirty_metadata` that succeeded. -/
structure DirtyCall where
  handle : ℕ
  tx : ℕ
  blocknr : ℕ
  ino : ℕ
  deriving DecidableEq

/-- The whole system. `home` is the file system on disk, `log` is addressed by `t_log_start`
and `batch` is `j_chkpt_bhs`. The last three fields record what was done: the blocks a handle
has modified without a call of `dirty_metadata` since, the calls of `dirty_metadata`, and the
blocks revoked and not since cancelled by handles of a transaction. -/
structure System where
  j : Journal
  m : Memory
  rv : Revoke
  sub : CommitSub
  ops : ℕ → ClientOp
  home : ℕ → Content
  log : ℕ → LogTx
  batch : List ℕ
  unmarked : ℕ → List ℕ
  dirtied : List DirtyCall
  revs : ℕ → List ℕ

/-- A buffer as `getblk` and a read from disk leave it. -/
def BufferHead.read (c : Content) : BufferHead :=
  { bData := c, dirty := false, jbddirty := false, shadow := false, bPrivate := none }

/-- The system at mount time, on a clean journal and a file system with the given blocks. -/
def System.reset (cfg : Config) (disk : ℕ → BitVec 32 × List (BitVec 8)) : System :=
  let home := fun b => { word := (disk b).1, rest := (disk b).2, hist := [] }
  { j := journalReset cfg
    m :=
      { bufs := fun b => .read (home b), lists := fun _ => [], tNrBuffers := fun _ => 0
        tCheckpointList := fun _ => [], tCheckpointIoList := fun _ => [] }
    rv := .empty, sub := .idle, ops := fun _ => .idle, home := home
    log := fun _ => { tx := 0, revokes := [], blocks := [], committed := false }
    batch := [], unmarked := fun _ => [], dirtied := [], revs := fun _ => [] }

/-- The actions of the system: the sections of the protocol, what handles do to buffers and to
the revoke tables, the steps of the commit between the sections of the protocol, and I/O and
checkpointing. -/
inductive SysAct where
  | proto (a : Act)
  | accessBegin (h b : ℕ)
  | accessLock (h : ℕ)
  | createBegin (h b : ℕ)
  | createLock (h : ℕ)
  | accessCancel (h : ℕ)
  | accessPut (h : ℕ)
  | modify (h b : ℕ) (word : BitVec 32) (rest : List (BitVec 8))
  | dirty (h b ino : ℕ)
  | forget (h b : ℕ)
  | revoke (h b : ℕ) (bhIn : Bool)
  | revokeForget (h : ℕ)
  | revokeInsert (h : ℕ)
  | refileReserved
  | clearRevoked
  | switchRevoke
  | writeRevokes
  | deferUnfile
  | deferFile
  | releaseAborted
  | write (full : Bool)
  | writeCopy (full : Bool)
  | copyFailed
  | waitIo
  | forgetBuffer
  | ioDone (i : ℕ)
  | writeback (b : ℕ)
  | tryToFree (b : ℕ)
  | cpQueue
  | cpFlush
  | cpIoRemove
  | getblk (b : ℕ)
  | discard (b : ℕ)
  deriving DecidableEq

namespace Memory

/-- `__buffer_unlink`: off the checkpoint lists of its transaction, if there is one. -/
def uncheckpoint (m : Memory) (b : ℕ) : Option ℕ → Memory
  | none => m
  | some t =>
    { m with
      tCheckpointList := update m.tCheckpointList t ((m.tCheckpointList t).erase b)
      tCheckpointIoList :=
        update m.tCheckpointIoList t ((m.tCheckpointIoList t).erase b) }

/-- To the head of the checkpoint list of transaction `t`. -/
def checkpoint (m : Memory) (b t : ℕ) : Memory :=
  { m with tCheckpointList := update m.tCheckpointList t (b :: m.tCheckpointList t) }

def relinkIo (m : Memory) (b t : ℕ) : Memory :=
  let m := m.uncheckpoint b (some t)
  { m with tCheckpointIoList := update m.tCheckpointIoList t (b :: m.tCheckpointIoList t) }

/-- Nothing of transaction `t` is left to checkpoint. -/
def checkpointed (m : Memory) (t : ℕ) : Bool :=
  (m.tCheckpointList t).isEmpty && (m.tCheckpointIoList t).isEmpty

end Memory

def LogTx.submit (l : LogTx) : LogTx :=
  { l with blocks := l.blocks.map fun x =>
      if x.io = .tagged then { x with io := .submitted } else x }

def LogTx.submitIf (l : LogTx) (c : Bool) : LogTx := if c then l.submit else l

def LogTx.tag (l : LogTx) (x : LogBlock) : LogTx := { l with blocks := l.blocks ++ [x] }

/-- The I/O of a block that is written from `copy` or else from the contents `c` is done. -/
def LogBlock.finish (l : LogBlock) (c : Content) : LogBlock :=
  { l with io := .done, data := l.copy.getD c }

def LogTx.setBlock (l : LogTx) (i : ℕ) (x : LogBlock) : LogTx :=
  { l with blocks := l.blocks.set i x }

namespace System

def commitTx (s : System) : ℕ := s.j.commitTransaction

def txOf (s : System) (h : ℕ) : Option ℕ :=
  if (s.j.handles h).stage = .attached then (s.j.handles h).hTransaction else none

def setOp (s : System) (h : ℕ) (op : ClientOp) : System :=
  { s with ops := update s.ops h op }

def mapLog (s : System) (f : LogTx → LogTx) : System :=
  let p := (s.j.txs s.commitTx).tLogStart
  { s with log := update s.log p (f (s.log p)) }

def dropCheckpointed (s : System) : Option ℕ → System
  | none => s
  | some t => if s.m.checkpointed t then { s with j := (s.j.dropCheckpoint t).getD s.j } else s

/-- What has to hold for a section of the protocol apart from the protocol's own tests: the
calls of a handle come one after the other and a handle reports what it modified, and the
commit routine has done its work on buffers. -/
def ready (s : System) : Act → Bool
  | .handle (.stop h) =>
    s.ops h = .idle ∧ (s.unmarked h = [] ∨ 1 < (s.j.handles h).hRef ∨ s.j.jAborted)
  | .handle (.restart h _) => s.ops h = .idle ∧ (s.unmarked h = [] ∨ s.j.jAborted)
  | .handle (.useCredit _) | .handle (.returnCredit _) | .commit .credit | .dropCheckpoint _ =>
    false
  | .commit .switchTransaction => s.sub = .revokeSwitched
  | .commit .setCommit =>
    s.sub = .revokesWritten ∧
      s.m.tNrBuffers s.commitTx ≤ (s.j.txs s.commitTx).tOutstandingCredits
  | .commit .getTail => s.sub = .idle ∧ s.m.lists (s.commitTx, .metadata) = []
  | .commit .setJflush => s.m.lists (s.commitTx, .shadow) = []
  | .commit .updateTail =>
    s.m.lists (s.commitTx, .metadata) = [] ∧ s.m.tCheckpointList s.commitTx = [] ∧
      s.m.lists (s.commitTx, .shadow) = []
  | .commit .finish => s.m.lists (s.commitTx, .forget) = []
  | .commit (.callback drop) => drop = s.m.checkpointed s.commitTx
  | _ => true

def after (s : System) : Act → System
  | .commit .switchTransaction =>
    { s with
      sub := .idle
      log := update s.log s.j.jHead
        { tx := s.commitTx, revokes := [], blocks := [], committed := false } }
  | .commit .setCommit => { s with sub := .idle }
  | .commit .record =>
    if s.j.jAborted then s else s.mapLog fun l => { l with committed := true }
  | _ => s

def proto (s : System) (a : Act) : Option System :=
  if s.ready a then (s.j.step a).map fun j => { s.after a with j := j } else none

/-- `get_write_access` up to `do_get_write_access`. -/
def accessBegin (s : System) (h b : ℕ) : Option System :=
  match s.txOf h with
  | none => none
  | some t =>
    if s.ops h ≠ .idle ∨ s.j.jAborted ∨ !s.rv.cached b ∨ (s.m.bufs b).writeAccessGranted t then none
    else
      some ({ s with m := s.m.put b (s.m.bufs b).addJournalHead }.setOp h (.access b false))

/-- A pass through the locked section of `do_get_write_access`. -/
def accessLock (s : System) (h : ℕ) : Option System :=
  match s.txOf h, s.ops h with
  | some t, .access b frozenBuffer =>
    match (s.m.bufs b).doGetWriteAccess s.j.jAborted t s.j.jCommittingTransaction frozenBuffer with
    | none => none
    | some (x, r) =>
      some ({ s with m := s.m.put b x }.setOp h
        (match r with
          | .again frozenBuffer => .access b frozenBuffer
          | .done => .cancel b
          | .error => .put b))
  | _, _ => none

/-- `get_create_access` up to its locked section. -/
def createBegin (s : System) (h b : ℕ) : Option System :=
  match s.txOf h with
  | none => none
  | some _ =>
    if s.ops h ≠ .idle ∨ !s.rv.cached b then none
    else some ({ s with m := s.m.put b (s.m.bufs b).addJournalHead }.setOp h (.create b))

def createLock (s : System) (h : ℕ) : Option System :=
  match s.txOf h, s.ops h with
  | some t, .create b =>
    match (s.m.bufs b).getCreateAccess s.j.jAborted t s.j.jCommittingTransaction with
    | none => none
    | some (x, goesOn) =>
      some ({ s with m := s.m.put b x }.setOp h (if goesOn then .cancel b else .put b))
  | _, _ => none

/-- `cancel_revoke` at the end of `do_get_write_access` and of `get_create_access`. -/
def accessCancel (s : System) (h : ℕ) : Option System :=
  match s.txOf h, s.ops h with
  | some t, .cancel b =>
    some ({ s with
      rv := s.rv.cancelRevoke b
      revs := update s.revs t ((s.revs t).filter (· ≠ b)) }.setOp h (.put b))
  | _, _ => none

/-- The end of `get_write_access` and of `get_create_access`. -/
def accessPut (s : System) (h : ℕ) : Option System :=
  match s.txOf h, s.ops h with
  | some _, .put b =>
    (s.m.apply b BufferHead.putJournalHead).map fun m => { s with m := m }.setOp h .idle
  | _, _ => none

def modify (s : System) (h b : ℕ) (word : BitVec 32) (rest : List (BitVec 8)) : Option System :=
  match s.txOf h with
  | none => none
  | some t =>
    let x := s.m.bufs b
    if s.ops h ≠ .idle ∨ !x.accessible t then none
    else
      let c := { word := word, rest := rest, hist := (h, t) :: x.bData.hist }
      some { s with
        m := s.m.put b { x with bData := c }
        unmarked := update s.unmarked h (b :: s.unmarked h) }

/-- `dirty_metadata`. -/
def dirty (s : System) (h b ino : ℕ) : Option System :=
  match s.txOf h with
  | none => none
  | some t =>
    if s.ops h ≠ .idle ∨ !s.rv.cached b then none
    else
      match (s.m.bufs b).dirtyMetadata s.j.jAborted t s.j.jRunningTransaction
          s.j.jCommittingTransaction (s.j.handles h).hBufferCredits ino with
      | none => none
      | some (x, r) =>
        let s' := { s with
          j := if r.credit then (s.j.useCredit h).getD s.j else s.j
          m := s.m.put b x }
        if r.err = none then
          some { s' with
            unmarked := update s.unmarked h ((s.unmarked h).filter (· ≠ b))
            dirtied := { handle := h, tx := t, blocknr := b, ino := ino } :: s.dirtied }
        else some s'

/-- `journal_forget` of a buffer. -/
def forgetBlock (s : System) (h t b : ℕ) : Option System :=
  match s.m.journalForget s.j.jAborted t s.j.jCommittingTransaction b with
  | none => none
  | some (m, credit) =>
    some { s with
      j := if credit then (s.j.returnCredit h).getD s.j else s.j
      m := m
      unmarked := update s.unmarked h ((s.unmarked h).filter (· ≠ b)) }

def forget (s : System) (h b : ℕ) : Option System :=
  match s.txOf h with
  | none => none
  | some t => if s.ops h ≠ .idle ∨ !s.rv.cached b then none else s.forgetBlock h t b

/-- `journal_revoke` up to the mark on the buffer. -/
def revoke (s : System) (h b : ℕ) (bhIn : Bool) : Option System :=
  match s.txOf h with
  | none => none
  | some _ =>
    if s.ops h ≠ .idle ∨ (bhIn ∧ !s.rv.cached b) then none
    else
      match s.rv.markRevoked b with
      | none => some s
      | some rv => some ({ s with rv := rv }.setOp h (.revoking b bhIn))

/-- `journal_revoke` forgets the buffer it was given. -/
def revokeForget (s : System) (h : ℕ) : Option System :=
  match s.txOf h, s.ops h with
  | some t, .revoking b true => (s.forgetBlock h t b).map fun s => s.setOp h (.revoking b false)
  | _, _ => none

/-- `journal_revoke` inserts the record. -/
def revokeInsert (s : System) (h : ℕ) : Option System :=
  match s.txOf h, s.ops h with
  | some t, .revoking b false =>
    some ({ s with
      rv := s.rv.insertRevokeHash b (s.j.txs t).tTid
      revs := update s.revs t (b :: s.revs t) }.setOp h .idle)
  | _, _ => none

def nextRunning (s : System) (b : ℕ) : Bool :=
  match (s.m.bufs b).bPrivate.bind JournalHead.bNextTransaction with
  | none => true
  | some r => (s.j.txs r).tState = .running

/-- One round of the loop over `t_reserved_list`. -/
def refileReserved (s : System) : Option System :=
  match s.m.lists (s.commitTx, .reserved) with
  | [] => none
  | b :: _ =>
    if s.j.phase ≠ .switching ∨ s.sub ≠ .idle then none
    else (s.m.refileBuffer s.j.jAborted (s.nextRunning b) b).map fun m => { s with m := m }

def clearRevoked (s : System) : Option System :=
  if s.j.phase ≠ .switching ∨ s.sub ≠ .idle ∨ s.m.lists (s.commitTx, .reserved) ≠ [] then none
  else some { s with rv := s.rv.clearBufferRevokedFlags, sub := .revokeCleared }

def switchRevoke (s : System) : Option System :=
  if s.j.phase ≠ .switching ∨ s.sub ≠ .revokeCleared then none
  else some { s with rv := s.rv.switchRevokeTable, sub := .revokeSwitched }

/-- `write_revoke_records`; an aborted journal writes nothing. -/
def writeRevokes (s : System) : Option System :=
  if s.j.phase ≠ .flushing ∨ s.sub ≠ .idle then none
  else
    some { s.mapLog fun l =>
        { l with revokes := if s.j.jAborted then [] else Revoke.blocks s.rv.other } with
      rv := s.rv.dropOther
      sub := .revokesWritten }

/-- The head of `t_buffers` when the commit routine looks for the next buffer to log. -/
def nextBuffer (s : System) : Option (ℕ × JournalHead) :=
  match s.m.lists (s.commitTx, .metadata) with
  | [] => none
  | b :: _ =>
    if s.j.phase ≠ .logging ∨ s.sub ≠ .idle then none
    else (s.m.bufs b).bPrivate.map fun jh => (b, jh)

def tagMatches (s : System) (jh : JournalHead) : Bool :=
  jh.ino = (s.j.txs s.commitTx).inoSync

def deferUnfile (s : System) : Option System :=
  match s.nextBuffer with
  | none => none
  | some (b, jh) =>
    if s.tagMatches jh then none
    else
      (s.m.unfileBuffer s.j.jAborted b).map fun m =>
        { s with m := m, sub := .deferring b jh.bJlist }

def deferFile (s : System) : Option System :=
  match s.sub with
  | .deferring b jlist =>
    (s.m.fileBuffer s.j.jAborted b s.j.runningTransaction jlist).map fun m =>
      { s with m := m, sub := .idle }
  | _ => none

/-- The blocks that wait for `submit_bh` get it when `t_buffers` is empty or `full` says that the
descriptor is. -/
def submits (s : System) (full : Bool) : Bool :=
  full || (s.m.lists (s.commitTx, .metadata)).isEmpty

def releaseAborted (s : System) : Option System :=
  match s.nextBuffer with
  | none => none
  | some (b, jh) =>
    if !s.tagMatches jh ∨ !s.j.jAborted then none
    else
      ((s.m.put b { s.m.bufs b with jbddirty := false }).refileBuffer s.j.jAborted
        (s.nextRunning b) b).map fun m =>
          let s' := { s with m := m }
          s'.mapLog fun l => l.submitIf (s'.submits false)

def logBlock (s : System) (b : ℕ) (escaped : Bool) : LogBlock :=
  let x := s.m.bufs b
  { blocknr := b, escaped := escaped, copy := x.bPrivate.bind JournalHead.bFrozenData
    io := .tagged, data := x.bData }

def tagBlock (s : System) (b : ℕ) (escaped full : Bool) : System :=
  s.mapLog fun l => (l.tag (s.logBlock b escaped)).submitIf (s.submits full)

/-- The head of `t_buffers` is written to the log. -/
def write (s : System) (full : Bool) : Option System :=
  match s.nextBuffer with
  | none => none
  | some (b, jh) =>
    if !s.tagMatches jh ∨ s.j.jAborted then none
    else
      match s.j.commitCredit, (s.m.bufs b).writeMetadataBuffer s.j.jAborted s.commitTx with
      | some j, some (x, some escaped) =>
        some ({ s with j := j, m := s.m.put b x }.tagBlock b escaped full)
      | some j, some (_, none) => some { s with j := j, sub := .copying b }
      | _, _ => none

/-- `write_metadata_buffer` goes on with memory for the copy. -/
def writeCopy (s : System) (full : Bool) : Option System :=
  match s.sub with
  | .copying b =>
    ((s.m.apply b (BufferHead.writeEscapedCopy s.j.jAborted s.commitTx))).map fun m =>
      { s with m := m, sub := .idle }.tagBlock b true full
  | _ => none

def copyFailed (s : System) : Option System :=
  match s.sub with
  | .copying _ => s.j.abort.map fun j => { s with j := j, sub := .idle }
  | _ => none

/-- The I/O of the last buffer on `t_shadow_list` is over. -/
def waitIo (s : System) : Option System :=
  match (s.m.lists (s.commitTx, .shadow)).getLast? with
  | none => none
  | some b =>
    if s.j.phase ≠ .installed ∨ !(s.m.bufs b).jbddirty ∨ (s.m.bufs b).shadow then none
    else (s.m.fileBuffer s.j.jAborted b s.commitTx .forget).map fun m => { s with m := m }

/-- One round of the loop over `t_forget`. -/
def forgetBuffer (s : System) : Option System :=
  match s.m.lists (s.commitTx, .forget) with
  | [] => none
  | b :: _ =>
    let x := s.m.bufs b
    if s.j.phase ≠ .forgetting then none
    else
      match x.commitForget s.j.jAborted (s.nextRunning b) s.commitTx with
      | none => none
      | some y =>
        let old := x.bPrivate.bind JournalHead.bCpTransaction
        let s' := { s with m := (s.m.put b y).uncheckpoint b old }.dropCheckpointed old
        some (if x.jbddirty then { s' with m := s'.m.checkpoint b s.commitTx } else s')

def ioDone (s : System) (i : ℕ) : Option System :=
  match (s.log (s.j.txs s.commitTx).tLogStart).blocks[i]? with
  | none => none
  | some l =>
    if s.j.jCommittingTransaction ≠ some s.commitTx ∨ l.io ≠ .submitted then none
    else
      let x := s.m.bufs l.blocknr
      some { s.mapLog fun t => t.setBlock i (l.finish x.bData) with
        m := s.m.put l.blocknr { x with shadow := false } }

def writeHome (s : System) (b : ℕ) : System :=
  let x := s.m.bufs b
  { s with m := s.m.put b { x with dirty := false }, home := update s.home b x.bData }

def writeback (s : System) (b : ℕ) : Option System :=
  if (s.m.bufs b).dirty then some (s.writeHome b) else none

def removeCheckpoint (s : System) (b t : ℕ) : Option System :=
  (s.m.bufs b).removeCheckpoint.map fun x =>
    { s with m := (s.m.put b x).uncheckpoint b (some t) }.dropCheckpointed (some t)

/-- `__try_to_free_cp_buf`, and the same test in `log_do_checkpoint`. -/
def tryToFree (s : System) (b : ℕ) : Option System :=
  match (s.m.bufs b).bPrivate with
  | none => none
  | some jh =>
    match jh.bCpTransaction with
    | none => none
    | some t =>
      if jh.bTransaction ≠ none ∨ (s.m.bufs b).dirty then none else s.removeCheckpoint b t

/-- `log_do_checkpoint` takes the next dirty buffer of the oldest transaction. -/
def cpQueue (s : System) : Option System :=
  match s.j.jCheckpointTransactions with
  | [] => none
  | t :: _ =>
    match s.m.tCheckpointList t with
    | [] => none
    | b :: _ =>
      if s.j.cleanup ≠ none ∨ !(s.m.bufs b).dirty ∨
          (s.m.bufs b).bPrivate.bind JournalHead.bTransaction ≠ none then none
      else some { s with m := s.m.relinkIo b t, batch := s.batch ++ [b] }

/-- `__flush_batch`, for one buffer: `write_dirty_buffer`. -/
def cpFlush (s : System) : Option System :=
  match s.batch with
  | [] => none
  | b :: rest =>
    if (s.m.bufs b).dirty then some { s.writeHome b with batch := rest }
    else some { s with batch := rest }

/-- `log_do_checkpoint` removes a buffer that was queued, in whatever state it is. -/
def cpIoRemove (s : System) : Option System :=
  match s.j.jCheckpointTransactions with
  | [] => none
  | t :: _ =>
    match s.m.tCheckpointIoList t with
    | [] => none
    | b :: _ =>
      if s.j.cleanup ≠ none ∨ s.batch ≠ [] ∨ s.m.tCheckpointList t ≠ [] then none
      else s.removeCheckpoint b t

def getblk (s : System) (b : ℕ) : Option System :=
  if s.rv.cached b then none
  else some { s with m := s.m.put b (.read (s.home b)), rv := s.rv.readBlock b }

/-- A clean buffer without `journal_head` is reclaimed. -/
def discard (s : System) (b : ℕ) : Option System :=
  if !s.rv.cached b ∨ (s.m.bufs b).bPrivate ≠ none ∨ (s.m.bufs b).dirty then none
  else some { s with rv := s.rv.discardBlock b }

def step (s : System) : SysAct → Option System
  | .proto a => s.proto a
  | .accessBegin h b => s.accessBegin h b
  | .accessLock h => s.accessLock h
  | .createBegin h b => s.createBegin h b
  | .createLock h => s.createLock h
  | .accessCancel h => s.accessCancel h
  | .accessPut h => s.accessPut h
  | .modify h b word rest => s.modify h b word rest
  | .dirty h b ino => s.dirty h b ino
  | .forget h b => s.forget h b
  | .revoke h b bhIn => s.revoke h b bhIn
  | .revokeForget h => s.revokeForget h
  | .revokeInsert h => s.revokeInsert h
  | .refileReserved => s.refileReserved
  | .clearRevoked => s.clearRevoked
  | .switchRevoke => s.switchRevoke
  | .writeRevokes => s.writeRevokes
  | .deferUnfile => s.deferUnfile
  | .deferFile => s.deferFile
  | .releaseAborted => s.releaseAborted
  | .write full => s.write full
  | .writeCopy full => s.writeCopy full
  | .copyFailed => s.copyFailed
  | .waitIo => s.waitIo
  | .forgetBuffer => s.forgetBuffer
  | .ioDone i => s.ioDone i
  | .writeback b => s.writeback b
  | .tryToFree b => s.tryToFree b
  | .cpQueue => s.cpQueue
  | .cpFlush => s.cpFlush
  | .cpIoRemove => s.cpIoRemove
  | .getblk b => s.getblk b
  | .discard b => s.discard b

end System

end VMsep.Jbd2
