import VMsep.Jbd2.Quiet

/-! `ext4_free_blocks` on a journaled file system puts the clusters into `bb_free_root` of their
group and on `s_freed_data_list`; the commit callback gives them to the buddy. The red-black tree is
the list of its entries in order, and a section under a group lock is one action. -/

namespace VMsep.Ext4

open Lib Jbd2

/-- `struct ext4_free_data`. -/
structure FreeData where
  efdGroup : ℕ
  efdStartCluster : ℕ
  efdCount : ℕ
  efdTid : Tid
  deriving DecidableEq

abbrev FreedCluster := Tid × ℕ × ℕ

namespace FreeData

def stop (e : FreeData) : ℕ := e.efdStartCluster + e.efdCount

def clusters (e : FreeData) : List FreedCluster :=
  (List.range' e.efdStartCluster e.efdCount).map fun c => (e.efdTid, e.efdGroup, c)

end FreeData

/-- `ext4_try_merge_freed_extent`: the new entry with the old one in it. -/
def tryMergeFreedExtent (entry new : FreeData) : Option FreeData :=
  if entry.efdTid ≠ new.efdTid ∨ entry.efdGroup ≠ new.efdGroup then none
  else if entry.stop = new.efdStartCluster then
    some { new with
      efdStartCluster := entry.efdStartCluster, efdCount := new.efdCount + entry.efdCount }
  else if new.stop = entry.efdStartCluster then
    some { new with efdCount := new.efdCount + entry.efdCount }
  else none

/-- The merge with the entry before the new one: what stays before it, the new entry, and the entry
that is gone. -/
def mergePrev (left : List FreeData) (new : FreeData) :
    List FreeData × FreeData × Option FreeData :=
  match left.getLast? with
  | none => (left, new, none)
  | some entry =>
    match tryMergeFreedExtent entry new with
    | none => (left, new, none)
    | some merged => (left.dropLast, merged, some entry)

def mergeNext (right : List FreeData) (new : FreeData) :
    List FreeData × FreeData × Option FreeData :=
  match right with
  | [] => ([], new, none)
  | entry :: rest =>
    match tryMergeFreedExtent entry new with
    | none => (entry :: rest, new, none)
    | some merged => (rest, merged, some entry)

/-- The new entry gets its place in the tree, unless its first cluster is on it already, and is
merged: the tree, the new entry and the entries that are gone. -/
def insertFreed (root : List FreeData) (new : FreeData) :
    Option (List FreeData × FreeData × List FreeData) :=
  let left := root.takeWhile fun e => e.stop ≤ new.efdStartCluster
  let right := root.dropWhile fun e => e.stop ≤ new.efdStartCluster
  -- "Block already on to-be-freed list"
  if right.head?.any fun e => e.efdStartCluster ≤ new.efdStartCluster then none
  else
    let (left, merged, prev) := mergePrev left new
    let (right, merged, next) := mergeNext right merged
    some (left ++ merged :: right, merged, prev.toList ++ next.toList)

/-- Where `ext4_process_freed_data` is: the entries on its private list, and the one that it has
taken off `s_mb_free_pending` and not yet given to the buddy. -/
inductive Callback where
  | idle
  | running (rest : List FreeData)
  | inBuddy (entry : FreeData) (rest : List FreeData)
  deriving DecidableEq

namespace Callback

/-- `list_del` of an entry on the private list. -/
def erase (c : Callback) (e : FreeData) : Callback :=
  match c with
  | .idle => .idle
  | .running rest => .running (rest.erase e)
  | .inBuddy entry rest => .inBuddy entry (rest.erase e)

def entries : Callback → List FreeData
  | .idle => []
  | .running rest => rest
  | .inBuddy entry rest => entry :: rest

end Callback

/-- The journal with the clusters that wait. The last two fields record the clusters that were
freed by handles and those that were passed to `mb_free_blocks`. -/
structure Freeing where
  j : Journal
  bbFreeRoot : ℕ → List FreeData
  freedDataList : List FreeData
  mbFreePending : BitVec 32
  callback : Callback
  freed : List FreedCluster
  passed : List FreedCluster

def Freeing.reset (cfg : Config) : Freeing :=
  { j := journalReset cfg, bbFreeRoot := fun _ => [], freedDataList := [], mbFreePending := 0
    callback := .idle, freed := [], passed := [] }

inductive FreeingAct where
  | proto (a : Act)
  | freeBlocks (h group start count : ℕ)
  | cutList
  | subPending
  | freeInBuddy
  deriving DecidableEq

namespace Freeing

def txOf (s : Freeing) (h : ℕ) : Option ℕ :=
  if (s.j.handles h).stage = .attached then (s.j.handles h).hTransaction else none

def commitTid (s : Freeing) : Tid := (s.j.txs s.j.commitTransaction).tTid

def afterCallback : Act → Bool
  | .commit (.callback _) => true
  | _ => false

def proto (s : Freeing) (a : Act) : Option Freeing :=
  if afterCallback a ∧ s.callback ≠ .running [] then none
  else
    (s.j.step a).map fun j =>
      { s with j := j, callback := if afterCallback a then .idle else s.callback }

/-- `list_del(&entry->efd_list)` of an entry that was merged. -/
def listDel (s : Freeing) (e : FreeData) : Freeing :=
  { s with freedDataList := s.freedDataList.erase e, callback := s.callback.erase e }

def mbFreeMetadata (s : Freeing) (new : FreeData) : Freeing :=
  match insertFreed (s.bbFreeRoot new.efdGroup) new with
  | none => s
  | some (root, merged, gone) =>
    let s := gone.foldl listDel s
    { s with
      bbFreeRoot := Function.update s.bbFreeRoot new.efdGroup root
      freedDataList := s.freedDataList ++ [merged]
      mbFreePending := s.mbFreePending + BitVec.ofNat 32 new.efdCount }

def overlapsPending (s : Freeing) (new : FreeData) : Bool :=
  (s.bbFreeRoot new.efdGroup).any fun e =>
    !(e.stop ≤ new.efdStartCluster || new.stop ≤ e.efdStartCluster)

/-- The part of `ext4_free_blocks` for one group, under its lock. The clusters are in use, so that
none of them waits. -/
def freeBlocks (s : Freeing) (h group start count : ℕ) : Option Freeing :=
  match s.txOf h with
  | none => none
  | some t =>
    let new : FreeData :=
      { efdGroup := group, efdStartCluster := start, efdCount := count
        efdTid := (s.j.txs t).tTid }
    if count = 0 ∨ s.overlapsPending new then none
    else some { s.mbFreeMetadata new with freed := new.clusters ++ s.freed }

/-- `ext4_process_freed_data` takes the entries at the head of the list that have its id. -/
def cutList (s : Freeing) : Option Freeing :=
  if s.j.phase ≠ .callback ∨ s.callback ≠ .idle then none
  else
    some { s with
      callback := .running (s.freedDataList.takeWhile fun e => e.efdTid == s.commitTid)
      freedDataList := s.freedDataList.dropWhile fun e => e.efdTid == s.commitTid }

/-- `ext4_free_data_in_buddy` up to the group lock. -/
def subPending (s : Freeing) : Option Freeing :=
  match s.callback with
  | .running (e :: rest) =>
    some { s with
      mbFreePending := s.mbFreePending - BitVec.ofNat 32 e.efdCount, callback := .inBuddy e rest }
  | _ => none

/-- `ext4_free_data_in_buddy` under the group lock. -/
def freeInBuddy (s : Freeing) : Option Freeing :=
  match s.callback with
  | .inBuddy e rest =>
    some { s with
      bbFreeRoot := Function.update s.bbFreeRoot e.efdGroup ((s.bbFreeRoot e.efdGroup).erase e)
      passed := e.clusters ++ s.passed, callback := .running rest }
  | _ => none

def step (s : Freeing) : FreeingAct → Option Freeing
  | .proto a => s.proto a
  | .freeBlocks h group start count => s.freeBlocks h group start count
  | .cutList => s.cutList
  | .subPending => s.subPending
  | .freeInBuddy => s.freeInBuddy

end Freeing

end VMsep.Ext4
