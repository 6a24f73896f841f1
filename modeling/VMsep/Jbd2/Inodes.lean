import VMsep.Jbd2.Quiet
import VMsep.Lib.Cursor
import VMsep.Lib.Filing

/-! `jbd2_inode` and what `data=ordered` does with it: handles file inodes with their transaction,
the commit routine submits and waits for the data of the inodes on `t_inode_list` and moves them on,
and an inode that goes out of memory is released. A section under `j_list_lock` is one action. A
task that files an inode holds a reference to it, so the inode is not released then and not filed
later. -/

namespace VMsep.Jbd2

open Lib

/-- `struct jbd2_inode` with the bits `JI_WRITE_DATA`, `JI_WAIT_DATA` and `JI_COMMIT_RUNNING` of
`i_flags`; `released` records that `release_jbd_inode` was called. -/
structure Jinode where
  iTransaction : Option ℕ
  iNextTransaction : Option ℕ
  writeData : Bool
  waitData : Bool
  commitRunning : Bool
  released : Bool
  deriving DecidableEq

/-- `jbd2_vmsep_journal_init_jbd_inode`. -/
def Jinode.init : Jinode :=
  { iTransaction := none, iNextTransaction := none, writeData := false, waitData := false
    commitRunning := false, released := false }

/-- Where the commit routine is on `t_inode_list`: it submits or waits for the data of the inode
it stands on, if it has started, or has moved all inodes on. -/
inductive InodeWalk where
  | submit (cursor : Option ℕ)
  | wait (cursor : Option ℕ)
  | done
  deriving DecidableEq

/-- A call of `inode_add_write`, or `inode_add_wait`, that returned without an error. -/
structure Filing where
  inode : ℕ
  tx : ℕ
  write : Bool
  deriving DecidableEq

/-- The journal with its inodes. `ops` holds the calls that are about to take `j_list_lock`. The
last three fields record what was done: the inodes filed, and for each transaction those whose
data was submitted and waited for. -/
structure Ordered where
  j : Journal
  inodes : ℕ → Jinode
  tInodeList : ℕ → List ℕ
  walk : InodeWalk
  ops : ℕ → Option (ℕ × Bool)
  filed : List Filing
  submitted : List (ℕ × ℕ)
  waited : List (ℕ × ℕ)

def Ordered.reset (cfg : Config) : Ordered :=
  { j := journalReset cfg, inodes := fun _ => .init, tInodeList := fun _ => [], walk := .done
    ops := fun _ => none, filed := [], submitted := [], waited := [] }

inductive OrderedAct where
  | proto (a : Act)
  | fileCheck (h i : ℕ) (write : Bool)
  | fileLocked (h : ℕ)
  | release (i : ℕ)
  | submitNext
  | waitNext
  deriving DecidableEq

namespace Jinode

/-- The inode is filed with transaction `t` or claimed by it. -/
def on (t : ℕ) (x : Jinode) : Bool := x.iTransaction = some t ∨ x.iNextTransaction = some t

/-- `i_flags |= flags` for `inode_add_write`, or for `inode_add_wait`. -/
def addFlags (write : Bool) (x : Jinode) : Jinode :=
  { x with writeData := x.writeData || write, waitData := true }

/-- `(i_flags & flags) == flags`. -/
def hasFlags (write : Bool) (x : Jinode) : Bool := (!write || x.writeData) && x.waitData

def moveOn (x : Jinode) : Jinode :=
  { x with iTransaction := x.iNextTransaction, iNextTransaction := none }

end Jinode

namespace Ordered

def commitTx (s : Ordered) : ℕ := s.j.commitTransaction

def txOf (s : Ordered) (h : ℕ) : Option ℕ :=
  if (s.j.handles h).stage = .attached then (s.j.handles h).hTransaction else none

def setInode (s : Ordered) (i : ℕ) (x : Jinode) : Ordered :=
  { s with inodes := Function.update s.inodes i x }

def record (s : Ordered) (i t : ℕ) (write : Bool) : Ordered :=
  { s with filed := { inode := i, tx := t, write := write } :: s.filed }

/-- What has to hold for a section of the protocol: the commit routine is through with its walks
and the calls of a handle come one after the other. -/
def ready (s : Ordered) : Act → Bool
  | .commit .setCommit => s.walk = .wait none
  | .commit .getTail => s.walk = .done
  | .handle (.stop h) | .handle (.restart h _) => s.ops h = none
  | _ => true

def proto (s : Ordered) (a : Act) : Option Ordered :=
  if s.ready a then
    (s.j.step a).map fun j =>
      { s with j := j, walk := if a = .commit .switchTransaction then .submit none else s.walk }
  else none

/-- `jbd2_journal_file_inode` up to `j_list_lock`. -/
def fileCheck (s : Ordered) (h i : ℕ) (write : Bool) : Option Ordered :=
  match s.txOf h with
  | none => none
  | some t =>
    let x := s.inodes i
    if s.ops h ≠ none ∨ x.released then none
    else if s.j.jAborted then some s
    else if x.on t ∧ x.hasFlags write then some (s.record i t write)
    else some { s with ops := Function.update s.ops h (some (i, write)) }

/-- `jbd2_journal_file_inode` under `j_list_lock`. -/
def fileLocked (s : Ordered) (h : ℕ) : Option Ordered :=
  match s.txOf h, s.ops h with
  | some t, some (i, write) =>
    let x := (s.inodes i).addFlags write
    let s' := { s with ops := Function.update s.ops h none }.record i t write
    if x.on t then some (s'.setInode i x)
    else
      match x.iTransaction with
      | some u =>
        if x.iNextTransaction ≠ none ∨ s.j.jCommittingTransaction ≠ some u then none
        else some (s'.setInode i { x with iNextTransaction := some t })
      | none =>
        if x.iNextTransaction ≠ none then none
        else
          some { s'.setInode i { x with iTransaction := some t } with
            tInodeList := push s.tInodeList i t }
  | _, _ => none

def unused (s : Ordered) (i : ℕ) : Bool :=
  (List.range s.j.nextHandle).all fun h => (s.ops h).map Prod.fst ≠ some i

/-- `jbd2_vmsep_journal_release_jbd_inode`. -/
def release (s : Ordered) (i : ℕ) : Option Ordered :=
  let x := s.inodes i
  if x.released ∨ x.commitRunning ∨ !s.unused i then none
  else
    some { s.setInode i { x with iTransaction := none, released := true } with
      tInodeList := unlist s.tInodeList i x.iTransaction }

/-- The lock is taken again after the data of the inode `cursor` has been worked on. -/
def relock (s : Ordered) : Option ℕ → Ordered
  | none => s
  | some c => s.setInode c { s.inodes c with commitRunning := false }

/-- `JI_COMMIT_RUNNING` protects the inode while the lock is dropped. -/
def hold (s : Ordered) (i : ℕ) : Ordered :=
  s.setInode i { s.inodes i with commitRunning := true }

def passed (s : Ordered) (cursor : Option ℕ) : List (ℕ × ℕ) :=
  cursor.toList.map fun c => (s.commitTx, c)

/-- One round of `journal_submit_data_buffers`. -/
def submitNext (s : Ordered) : Option Ordered :=
  match s.walk with
  | .submit cursor =>
    if ∃ c ∈ cursor, (s.inodes c).iTransaction ≠ some s.commitTx then none
    else
      let s' := { s.relock cursor with submitted := s.passed cursor ++ s.submitted }
      match advance (fun i => (s.inodes i).writeData) (s.tInodeList s.commitTx) cursor with
      | some i => some { s'.hold i with walk := .submit (some i) }
      | none => some { s' with walk := .wait none }
  | _ => none

def refileInode (s : Ordered) (i : ℕ) : Ordered :=
  let x := s.inodes i
  let lists := unlist s.tInodeList i (some s.commitTx)
  { s.setInode i x.moveOn with
    tInodeList :=
      match x.iNextTransaction with
      | none => lists
      | some r => push lists i r }

/-- One round of `journal_finish_inode_data_buffers`; the last one moves the inodes on. -/
def waitNext (s : Ordered) : Option Ordered :=
  match s.walk with
  | .wait cursor =>
    if s.j.phase ≠ .logging then none
    else
      let s' := { s.relock cursor with waited := s.passed cursor ++ s.waited }
      match advance (fun i => (s.inodes i).waitData) (s.tInodeList s.commitTx) cursor with
      | some i => some { s'.hold i with walk := .wait (some i) }
      | none =>
        some { (s.tInodeList s.commitTx).foldl refileInode s' with walk := .done }
  | _ => none

def step (s : Ordered) : OrderedAct → Option Ordered
  | .proto a => s.proto a
  | .fileCheck h i write => s.fileCheck h i write
  | .fileLocked h => s.fileLocked h
  | .release i => s.release i
  | .submitNext => s.submitNext
  | .waitNext => s.waitNext

end Ordered

end VMsep.Jbd2
