import VMsep.Jbd2.System
import VMsep.Lib.Rings

/-! The lists of buffers as the source keeps them: `b_tnext`, `b_tprev`, `b_cpnext` and `b_cpprev`
of the journal heads, and the pointers of the transactions to the first buffer of each list. A
failed assertion, or a `NULL` pointer that is followed, is `none`. -/

namespace VMsep.Jbd2

open Lib Function

/-- Buffers with the pointers of their journal heads. `list` holds `t_buffers`, `t_forget`,
`t_shadow_list` and `t_reserved_list`; `checkpoint (t, false)` is `t_checkpoint_list` and
`checkpoint (t, true)` is `t_checkpoint_io_list`. -/
structure Heap where
  bufs : ℕ → BufferHead
  bTnext : ℕ → Option ℕ
  bTprev : ℕ → Option ℕ
  bCpnext : ℕ → Option ℕ
  bCpprev : ℕ → Option ℕ
  list : ℕ × Jlist → Option ℕ
  tNrBuffers : ℕ → ℤ
  checkpoint : ℕ × Bool → Option ℕ

namespace Heap

def setBuf (h : Heap) (b : ℕ) (x : BufferHead) : Heap :=
  { h with bufs := update h.bufs b x }

def addNr (h : Heap) (t : ℕ) (n : ℤ) : Heap :=
  { h with tNrBuffers := update h.tNrBuffers t (h.tNrBuffers t + n) }

def blistAddBuffer (h : Heap) (list : ℕ × Jlist) (b : ℕ) : Option Heap :=
  match h.list list with
  | none =>
    some { h with
      bTnext := update h.bTnext b (some b)
      bTprev := update h.bTprev b (some b)
      list := update h.list list (some b) }
  | some first =>
    (h.bTprev first).map fun last =>
      { h with
        bTprev := update (update h.bTprev b (some last)) first (some b)
        bTnext := update (update h.bTnext b (some first)) last (some b) }

def blistDelBuffer (h : Heap) (list : ℕ × Jlist) (b : ℕ) : Option Heap :=
  (h.bTnext b).bind fun tnext =>
    (h.bTprev b).map fun tprev =>
      { h with
        list :=
          if h.list list = some b then
            update h.list list (if tnext = b then none else some tnext)
          else h.list
        bTnext := update h.bTnext tprev (some tnext)
        bTprev := update h.bTprev tnext (some tprev) }

def tempUnlinkBuffer (h : Heap) (aborted : Bool) (b : ℕ) : Option Heap :=
  let x := h.bufs b
  match x.bPrivate with
  | none => none
  | some jh =>
    if jh.bJlist = .none then some h
    else
      match jh.bTransaction with
      | none => none
      | some t =>
        let h := if jh.bJlist = .metadata then h.addNr t (-1) else h
        if jh.bJlist = .metadata ∧ h.tNrBuffers t < 0 then none
        else
          (h.blistDelBuffer (t, jh.bJlist) b).map fun h =>
            h.setBuf b { x with
              dirty := x.dirty || (x.jbddirty && !aborted)
              jbddirty := false
              bPrivate := some { jh with bJlist := .none } }

def putJournalHead (h : Heap) (b : ℕ) : Option Heap := (h.bufs b).putJournalHead.map (h.setBuf b)

/-- `jbd2_vmsep_journal_add_journal_head`; a new journal head is zeroed. -/
def addJournalHead (h : Heap) (b : ℕ) : Heap :=
  let h :=
    if (h.bufs b).bPrivate = none then
      { h with
        bTnext := update h.bTnext b none
        bTprev := update h.bTprev b none
        bCpnext := update h.bCpnext b none
        bCpprev := update h.bCpprev b none }
    else h
  h.setBuf b (h.bufs b).addJournalHead

def grabJournalHead (h : Heap) (b : ℕ) : Heap :=
  match (h.bufs b).bPrivate with
  | none => h
  | some jh =>
    h.setBuf b { h.bufs b with bPrivate := some { jh with bJcount := jh.bJcount + 1 } }

def mapJh (h : Heap) (b : ℕ) (f : JournalHead → JournalHead) : Heap :=
  h.setBuf b ((h.bufs b).mapJh f)

def unfileBuffer (h : Heap) (aborted : Bool) (b : ℕ) : Option Heap :=
  (h.tempUnlinkBuffer aborted b).bind fun h =>
    (h.mapJh b fun jh => { jh with bTransaction := none }).putJournalHead b

/-- The end of `__jbd2_vmsep_journal_file_buffer`, when `b_transaction` has been set. -/
def linkBuffer (h : Heap) (b t : ℕ) (jlist : Jlist) (wasDirty : Bool) : Option Heap :=
  let h := if jlist = .metadata then h.addNr t 1 else h
  (h.blistAddBuffer (t, jlist) b).map fun h =>
    let h := h.mapJh b fun jh => { jh with bJlist := jlist }
    h.setBuf b { h.bufs b with jbddirty := (h.bufs b).jbddirty || wasDirty }

def fileBuffer (h : Heap) (aborted : Bool) (b t : ℕ) (jlist : Jlist) : Option Heap :=
  let x := h.bufs b
  match x.bPrivate with
  | none => none
  | some jh =>
    if jh.bTransaction ≠ none ∧ jh.bTransaction ≠ some t then none
    else if jh.bTransaction ≠ none ∧ jh.bJlist = jlist then some h
    else
      -- the test of `BH_JBDDirty` is not reached when `BH_Dirty` is set
      let h :=
        if jlist = .none then h
        else h.setBuf b { x with dirty := false, jbddirty := x.dirty && x.jbddirty }
      (if jh.bTransaction ≠ none then h.tempUnlinkBuffer aborted b
        else some (h.grabJournalHead b)).bind fun h =>
          let h := h.mapJh b fun jh => { jh with bTransaction := some t }
          if jlist = .none then if jh.bFrozenData ≠ none then none else some h
          else h.linkBuffer b t jlist (x.dirty || x.jbddirty)

/-- `__jbd2_vmsep_journal_refile_buffer`; `freed` is `buffer_freed`, and `running` says that the
next transaction is in `T_RUNNING`. -/
def refileBuffer (h : Heap) (aborted running freed : Bool) (b : ℕ) : Option Heap :=
  let x := h.bufs b
  match x.bPrivate with
  | none => none
  | some jh =>
    match jh.bNextTransaction with
    | none => h.unfileBuffer aborted b
    | some r =>
      ((h.setBuf b { x with jbddirty := false }).tempUnlinkBuffer aborted b).bind fun h =>
        let h := h.mapJh b fun jh => { jh with bTransaction := some r, bNextTransaction := none }
        (h.fileBuffer aborted b r
          (if freed then .forget else if jh.bModified then .metadata else .reserved)).bind fun h =>
            if running then
              some (h.setBuf b { h.bufs b with jbddirty := (h.bufs b).jbddirty || x.jbddirty })
            else none

def checkpointAdd (h : Heap) (list : ℕ × Bool) (b : ℕ) : Option Heap :=
  match h.checkpoint list with
  | none =>
    some { h with
      bCpnext := update h.bCpnext b (some b)
      bCpprev := update h.bCpprev b (some b)
      checkpoint := update h.checkpoint list (some b) }
  | some first =>
    (h.bCpprev first).map fun last =>
      { h with
        bCpnext := update (update h.bCpnext b (some first)) last (some b)
        bCpprev := update (update h.bCpprev b (some last)) first (some b)
        checkpoint := update h.checkpoint list (some b) }

/-- The pointers of a checkpoint ring without `b`, as `__buffer_unlink_first` leaves them. -/
def checkpointCut (h : Heap) (b : ℕ) : Option (ℕ × Heap) :=
  (h.bCpnext b).bind fun cpnext =>
    (h.bCpprev b).map fun cpprev =>
      (cpnext, { h with
        bCpprev := update h.bCpprev cpnext (some cpprev)
        bCpnext := update h.bCpnext cpprev (some cpnext) })

/-- The pointer to a checkpoint list moves on if `b` is its first buffer. -/
def checkpointSkip (h : Heap) (list : ℕ × Bool) (b cpnext : ℕ) : Heap :=
  if h.checkpoint list = some b then
    { h with
      checkpoint := update h.checkpoint list (if cpnext = b then none else some cpnext) }
  else h

def bufferUnlink (h : Heap) (t b : ℕ) : Option Heap :=
  (h.checkpointCut b).map fun (cpnext, h) =>
    (h.checkpointSkip (t, false) b cpnext).checkpointSkip (t, true) b cpnext

/-- `__buffer_relink_io` of the first buffer of `t_checkpoint_list`. -/
def bufferRelinkIo (h : Heap) (t : ℕ) : Option Heap :=
  (h.checkpoint (t, false)).bind fun b =>
    (h.checkpointCut b).bind fun (cpnext, h) =>
      (h.checkpointSkip (t, false) b cpnext).checkpointAdd (t, true) b

def insertCheckpoint (h : Heap) (b t : ℕ) : Option Heap :=
  ((h.bufs b).insertCheckpoint t).bind fun x => (h.setBuf b x).checkpointAdd (t, false) b

/-- `__jbd2_vmsep_journal_drop_transaction` asserts that the transaction has no buffers. -/
def dropTransaction (h : Heap) (t : ℕ) : Option Heap :=
  if h.list (t, .metadata) = none ∧ h.list (t, .forget) = none ∧ h.list (t, .shadow) = none then
    some h
  else none

/-- `__jbd2_vmsep_journal_remove_checkpoint`; `finished` says that the transaction is in
`T_FINISHED`. -/
def removeCheckpoint (h : Heap) (finished : Bool) (b : ℕ) : Option Heap :=
  match (h.bufs b).bPrivate with
  | none => none
  | some jh =>
    match jh.bCpTransaction with
    | none => some h
    | some t =>
      (h.bufferUnlink t b).bind fun h =>
        ((h.mapJh b fun jh => { jh with bCpTransaction := none }).putJournalHead b).bind fun h =>
          if h.checkpoint (t, false) ≠ none ∨ h.checkpoint (t, true) ≠ none then some h
          else if finished then h.dropTransaction t
          else some h

end Heap

/-- The calls on journal heads. `touch` stands for the code that sets the bits of a buffer and
`b_modified`, `b_frozen_data` and `b_next_transaction` of its journal head. -/
inductive HeadAct where
  | file (aborted : Bool) (b t : ℕ) (jlist : Jlist)
  | unlinkFile (aborted : Bool) (b t : ℕ) (jlist : Jlist)
  | unfile (aborted : Bool) (b : ℕ)
  | refile (aborted running freed : Bool) (b : ℕ)
  | insertCheckpoint (b t : ℕ)
  | removeCheckpoint (finished : Bool) (b : ℕ)
  | relinkIo (t : ℕ)
  | add (b : ℕ)
  | grab (b : ℕ)
  | put (b : ℕ)
  | touch (b : ℕ) (dirty jbddirty modified : Bool) (frozen : Option Content) (next : Option ℕ)
  deriving DecidableEq

/-- The bits and fields that `touch` sets. -/
def BufferHead.touch (x : BufferHead) (dirty jbddirty modified : Bool) (frozen : Option Content)
    (next : Option ℕ) : BufferHead :=
  { x.mapJh fun jh =>
      { jh with bModified := modified, bFrozenData := frozen, bNextTransaction := next } with
    dirty := dirty
    jbddirty := jbddirty }

def Heap.step (h : Heap) : HeadAct → Option Heap
  | .file aborted b t jlist => h.fileBuffer aborted b t jlist
  | .unlinkFile aborted b t jlist =>
    (h.tempUnlinkBuffer aborted b).bind fun h => h.fileBuffer aborted b t jlist
  | .unfile aborted b => h.unfileBuffer aborted b
  | .refile aborted running freed b => h.refileBuffer aborted running freed b
  | .insertCheckpoint b t => h.insertCheckpoint b t
  | .removeCheckpoint finished b => h.removeCheckpoint finished b
  | .relinkIo t => h.bufferRelinkIo t
  | .add b => some (h.addJournalHead b)
  | .grab b => some (h.grabJournalHead b)
  | .put b => h.putJournalHead b
  | .touch b dirty jbddirty modified frozen next =>
    some (h.setBuf b ((h.bufs b).touch dirty jbddirty modified frozen next))

/-! What the calls are for: a buffer that is filed goes to the end of its list, and a buffer that is
checkpointed to the head. -/

/-- `__jbd2_vmsep_journal_file_buffer` with `BJ_None`. -/
def BufferHead.fileNone (aborted : Bool) (t : ℕ) (x : BufferHead) : Option BufferHead :=
  match x.bPrivate with
  | none => none
  | some jh =>
    if jh.bTransaction ≠ none ∧ jh.bTransaction ≠ some t then none
    else if jh.bTransaction ≠ none ∧ jh.bJlist = .none then some x
    else if jh.bFrozenData ≠ none then none
    else
      (if jh.bTransaction ≠ none then x.tempUnlinkBuffer aborted else some x.addJournalHead).map
        fun y => y.mapJh fun jh => { jh with bTransaction := some t }

/-- `__jbd2_vmsep_journal_file_buffer` with any list. -/
def BufferHead.file (aborted : Bool) (t : ℕ) (jlist : Jlist) (x : BufferHead) :
    Option BufferHead :=
  if jlist = .none then x.fileNone aborted t else x.fileBuffer aborted t jlist

/-- `__jbd2_vmsep_journal_refile_buffer` up to the call that files the buffer again. -/
def BufferHead.refileUnlink (aborted : Bool) (r : ℕ) (x : BufferHead) : Option BufferHead :=
  (tempUnlinkBuffer aborted { x with jbddirty := false }).map fun y =>
    y.mapJh fun jh => { jh with bTransaction := some r, bNextTransaction := none }

/-- The rest of `__jbd2_vmsep_journal_refile_buffer`. -/
def BufferHead.refileFile (aborted running : Bool) (r : ℕ) (jlist : Jlist) (wasDirty : Bool)
    (x : BufferHead) : Option BufferHead :=
  (x.file aborted r jlist).bind fun y =>
    if running then some { y with jbddirty := y.jbddirty || wasDirty } else none

/-- `__jbd2_vmsep_journal_refile_buffer`, with `buffer_freed`. -/
def Memory.refile (m : Memory) (aborted running freed : Bool) (b : ℕ) : Option Memory :=
  match (m.bufs b).bPrivate with
  | none => none
  | some jh =>
    match jh.bNextTransaction with
    | none => m.apply b (BufferHead.unfileBuffer aborted)
    | some r =>
      (m.apply b (BufferHead.refileUnlink aborted r)).bind fun m' =>
        m'.apply b (BufferHead.refileFile aborted running r
          (if freed then .forget else if jh.bModified then .metadata else .reserved)
          (m.bufs b).jbddirty)

/-- `jbd2_vmsep_journal_grab_journal_head`. -/
def BufferHead.grab (x : BufferHead) : BufferHead :=
  x.mapJh fun jh => { jh with bJcount := jh.bJcount + 1 }

def BufferHead.cp (x : BufferHead) : Option ℕ := x.bPrivate.bind JournalHead.bCpTransaction

def Memory.headStep (m : Memory) : HeadAct → Option Memory
  | .file aborted b t jlist => m.apply b (BufferHead.file aborted t jlist)
  | .unlinkFile aborted b t jlist =>
    (m.apply b (BufferHead.tempUnlinkBuffer aborted)).bind fun m =>
      m.apply b (BufferHead.file aborted t jlist)
  | .unfile aborted b => m.apply b (BufferHead.unfileBuffer aborted)
  | .refile aborted running freed b => m.refile aborted running freed b
  | .insertCheckpoint b t =>
    (m.apply b (BufferHead.insertCheckpoint t)).map fun m => m.checkpoint b t
  | .removeCheckpoint finished b =>
    ((m.uncheckpoint b (m.bufs b).cp).apply b BufferHead.removeCheckpoint).bind fun m' =>
      match (m.bufs b).cp with
      | none => some m'
      | some t =>
        if m'.checkpointed t ∧ finished ∧ ¬ (m'.lists (t, .metadata) = [] ∧
            m'.lists (t, .forget) = [] ∧ m'.lists (t, .shadow) = []) then none
        else some m'
  | .relinkIo t => (m.tCheckpointList t).head?.map fun b => m.relinkIo b t
  | .add b => some (m.put b (m.bufs b).addJournalHead)
  | .grab b => some (m.put b (m.bufs b).grab)
  | .put b => m.apply b BufferHead.putJournalHead
  | .touch b dirty jbddirty modified frozen next =>
    some (m.put b ((m.bufs b).touch dirty jbddirty modified frozen next))

end VMsep.Jbd2
