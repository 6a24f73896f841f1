import VMsep.Lib.Ranges
import VMsep.Lib.SearchTree
import Mathlib.Data.BitVec

/-! The tree of `extents_status.c` with its cached node and its counters. How the red-black tree is
balanced is left to a parameter, a failed `BUG_ON` is `none`, and what `__es_shrink` does after a
failed allocation comes with the call. -/

namespace VMsep.Ext4

open Lib

/-- `EXT_MAX_BLOCKS`. -/
def extMaxBlocks : ℕ := 0xffffffff

/-- The type flags of an extent, in the combinations that are stored. -/
inductive EsType where
  | written
  | unwritten
  | delayed
  | hole
  | unwrittenDelayed
  deriving DecidableEq

namespace EsType

def isDelayed : EsType → Bool
  | .delayed | .unwrittenDelayed => true
  | _ => false

/-- `ext4_es_is_written(es) || ext4_es_is_unwritten(es)`. -/
def isMapped : EsType → Bool
  | .written | .unwritten | .unwrittenDelayed => true
  | _ => false

end EsType

/-- `struct extent_status`. The word `es_pblk` holds the block in its low `ES_SHIFT` bits and the
flags above. -/
structure ExtentStatus where
  esLblk : ℕ
  esLen : ℕ
  esPblk : BitVec 59
  esType : EsType
  referenced : Bool
  deriving DecidableEq

structure EsNode extends ExtentStatus where
  addr : ℕ
  deriving DecidableEq

/-- `i_es_tree` and the counters of an inode. -/
structure EsInode where
  root : BinaryTree EsNode
  cacheEs : Option ℕ
  iEsAllNr : ℕ
  iEsShkNr : ℕ
  iEsShrinkLblk : ℕ
  nextAddr : ℕ
  deriving DecidableEq

def esInitTree : EsInode :=
  { root := .nil, cacheEs := none, iEsAllNr := 0, iEsShkNr := 0, iEsShrinkLblk := 0, nextAddr := 0 }

/-- `ext4_es_end`, with its `BUG_ON` for an end that wraps around. -/
def esEnd (es : ExtentStatus) : Option ℕ :=
  if 2 ^ 32 ≤ es.esLblk + es.esLen then none else some (es.esLblk + es.esLen - 1)

def esCompare (lblk : ℕ) (es : EsNode) : Option Ordering :=
  if lblk < es.esLblk then some .lt
  else (esEnd es.toExtentStatus).bind fun stop => if lblk > stop then some .gt else some .eq

def esCanBeMerged (es1 es2 : ExtentStatus) : Bool :=
  if es1.esType ≠ es2.esType then false
  else if es1.esLen + es2.esLen > extMaxBlocks then false
  else if es1.esLblk + es1.esLen ≠ es2.esLblk then false
  else if es1.esType.isMapped ∧ es1.esPblk.toNat + es1.esLen = es2.esPblk.toNat then true
  else if es1.esType = .hole then true
  else es1.esType = .delayed

/-- Where `__es_insert_extent` ends its descent: at a node that the new extent can be merged with,
which comes after or before it, or below the tree. -/
inductive EsPlace where
  | before (es : EsNode)
  | after (es : EsNode)
  | vacant
  deriving DecidableEq

/-- The descent of `__es_insert_extent`. -/
def esPlace (newes : ExtentStatus) : BinaryTree EsNode → Option EsPlace
  | .nil => some .vacant
  | .node es l r =>
    if newes.esLblk < es.esLblk then
      if esCanBeMerged newes es.toExtentStatus then some (.before es) else esPlace newes l
    else
      (esEnd es.toExtentStatus).bind fun stop =>
        if newes.esLblk > stop then
          if esCanBeMerged es.toExtentStatus newes then some (.after es) else esPlace newes r
        -- BUG_ON(1)
        else none

inductive EsErr where
  | ok
  | enomem
  deriving DecidableEq

/-- What `__es_shrink` does after a failed allocation: it takes `n` extents of other inodes, or
turns to this inode with a number of extents to scan. -/
inductive Shrink where
  | others (n : ℕ)
  | own (nrToScan : ℕ)
  deriving DecidableEq

namespace EsInode

def nodes (s : EsInode) : List EsNode := inorder s.root

def write (s : EsInode) (es : EsNode) : EsInode :=
  { s with root := s.root.map fun e => if e.addr = es.addr then es else e }

def esTreeSearch (s : EsInode) (lblk : ℕ) : Option (Option EsNode) :=
  (descend (esCompare lblk) s.root none).bind fun
    | (_, none) => some none
    | (true, some es) => some (some es)
    | (false, some es) =>
      if lblk < es.esLblk then some (some es)
      else (esEnd es.toExtentStatus).bind fun stop =>
        if lblk > stop then some (nextOf (fun e => e.addr = es.addr) s.nodes) else some none

/-- `rb_erase` and `ext4_es_free_extent`. -/
def freeExtent (s : EsInode) (rb : Balance EsNode) (es : EsNode) : Option EsInode :=
  let s := { s with
    root := rb.shape (s.nodes.filter fun e => e.addr ≠ es.addr), iEsAllNr := s.iEsAllNr - 1 }
  if es.esType.isDelayed then some s
  -- BUG_ON(EXT4_I(inode)->i_es_shk_nr == 0)
  else if s.iEsShkNr = 0 then none
  else some { s with iEsShkNr := s.iEsShkNr - 1 }

/-- `ext4_es_alloc_extent`, `rb_link_node` and `rb_insert_color`. -/
def linkExtent (s : EsInode) (rb : Balance EsNode) (newes : ExtentStatus) : EsInode :=
  let es : EsNode := { newes with addr := s.nextAddr }
  { s with
    root := rb.shape (inorder (linkNode (fun e => newes.esLblk < e.esLblk) es s.root))
    cacheEs := some es.addr
    iEsAllNr := s.iEsAllNr + 1
    iEsShkNr := if newes.esType.isDelayed then s.iEsShkNr else s.iEsShkNr + 1
    nextAddr := s.nextAddr + 1 }

def tryToMergeLeft (s : EsInode) (rb : Balance EsNode) (es : EsNode) : Option (EsInode × EsNode) :=
  match prevOf (fun e => e.addr = es.addr) s.nodes with
  | none => some (s, es)
  | some es1 =>
    if esCanBeMerged es1.toExtentStatus es.toExtentStatus then
      let es1 := { es1 with
        esLen := es1.esLen + es.esLen, referenced := es1.referenced || es.referenced }
      ((s.write es1).freeExtent rb es).map fun s => (s, es1)
    else some (s, es)

def tryToMergeRight (s : EsInode) (rb : Balance EsNode) (es : EsNode) :
    Option (EsInode × EsNode) :=
  match nextOf (fun e => e.addr = es.addr) s.nodes with
  | none => some (s, es)
  | some es1 =>
    if esCanBeMerged es.toExtentStatus es1.toExtentStatus then
      let es := { es with
        esLen := es.esLen + es1.esLen, referenced := es.referenced || es1.referenced }
      ((s.write es).freeExtent rb es1).map fun s => (s, es)
    else some (s, es)

/-- `__es_insert_extent`; `fail` is a failure of the allocation, if there is one. -/
def insertExtent (s : EsInode) (rb : Balance EsNode) (fail : Bool) (newes : ExtentStatus) :
    Option (EsErr × EsInode) := do
  match ← esPlace newes s.root with
  | .before es =>
    let es := { es with
      esLblk := newes.esLblk, esLen := es.esLen + newes.esLen
      esPblk := if es.esType.isMapped then newes.esPblk else es.esPblk }
    let (s, es) ← (s.write es).tryToMergeLeft rb es
    some (.ok, { s with cacheEs := some es.addr })
  | .after es =>
    let es := { es with esLen := es.esLen + newes.esLen }
    let (s, es) ← (s.write es).tryToMergeRight rb es
    some (.ok, { s with cacheEs := some es.addr })
  | .vacant => if fail then some (.enomem, s) else some (.ok, s.linkExtent rb newes)

/-- The loop of `__es_remove_extent` over the extents that end in the range, with the extent it
stops at. -/
def removeWhole (rb : Balance EsNode) (stop : ℕ) :
    List EsNode → EsInode → Option (EsInode × Option EsNode)
  | [], s => some (s, none)
  | es :: rest, s => do
    let esStop ← esEnd es.toExtentStatus
    if esStop ≤ stop then removeWhole rb stop rest (← s.freeExtent rb es) else some (s, some es)

def cutFront (es : EsNode) (stop len : ℕ) : EsNode :=
  { es with
    esLblk := stop + 1, esLen := len
    esPblk := if es.esType.isMapped then
      es.esPblk + BitVec.ofNat 59 es.esLen - BitVec.ofNat 59 len else es.esPblk }

/-- The last part of `__es_remove_extent`: an extent that starts in the range. -/
def cutNext (s : EsInode) (stop : ℕ) : Option EsNode → Option EsInode
  | none => some s
  | some es =>
    if es.esLblk < stop + 1 then
      (esEnd es.toExtentStatus).map fun esStop => s.write (cutFront es stop (esStop - stop))
    else some s

/-- `__es_remove_extent` for a range inside an extent: the extent keeps its first `len1` blocks, and
its last `len2` ones become a new extent. -/
def removeInside (s : EsInode) (rb : Balance EsNode) (fail : Bool) (es : EsNode)
    (len1 len2 stop : ℕ) : Option (EsErr × EsInode) := do
  let newes : ExtentStatus :=
    { esLblk := stop + 1, esLen := len2
      esPblk := if es.esType.isMapped then
        es.esPblk + BitVec.ofNat 59 es.esLen - BitVec.ofNat 59 len2 else 0x7FDEADBEEF
      esType := es.esType, referenced := es.referenced }
  match ← (s.write { es with esLen := len1 }).insertExtent rb fail newes with
  | (.ok, s) => some (.ok, s)
  | (.enomem, s) => some (.enomem, s.write es)

/-- `__es_remove_extent` for a range that the first extent does not go beyond. -/
def removeFrom (s : EsInode) (rb : Balance EsNode) (es : EsNode) (len1 stop : ℕ) :
    Option EsInode := do
  let rest := s.nodes.dropWhile fun e => e.addr ≠ es.addr
  if 0 < len1 then
    let (s, next) ← removeWhole rb stop rest.tail (s.write { es with esLen := len1 })
    s.cutNext stop next
  else
    let (s, next) ← removeWhole rb stop rest s
    s.cutNext stop next

/-- `__es_remove_extent` between two retries. -/
def removeOnce (s : EsInode) (rb : Balance EsNode) (fail : Bool) (lblk stop : ℕ) :
    Option (EsErr × EsInode) := do
  match ← s.esTreeSearch lblk with
  | none => some (.ok, s)
  | some es =>
    if es.esLblk > stop then some (.ok, s)
    else
      let s := { s with cacheEs := none }
      let esStop ← esEnd es.toExtentStatus
      let len1 := lblk - es.esLblk
      let len2 := esStop - stop
      if 0 < len2 then
        if 0 < len1 then s.removeInside rb fail es len1 len2 stop
        else some (.ok, s.write (cutFront es stop len2))
      else (s.removeFrom rb es len1 stop).map fun s => (.ok, s)

/-- The loop of `es_do_reclaim_extents` over the extents from the one found on: whether the number
to scan is used up, that number and the number of extents that were freed. -/
def doReclaimLoop (rb : Balance EsNode) (stop : ℕ) :
    List EsNode → ℕ → ℕ → EsInode → Option (Bool × ℕ × ℕ × EsInode)
  | [], nr, shrunk, s => some (false, nr, shrunk, { s with iEsShrinkLblk := 0 })
  | es :: rest, nr, shrunk, s =>
    if nr = 0 then some (true, nr, shrunk, { s with iEsShrinkLblk := es.esLblk })
    else if es.esLblk > stop then
      some (false, nr, shrunk, { s with iEsShrinkLblk := (stop + 1) % 2 ^ 32 })
    else if es.esType.isDelayed then doReclaimLoop rb stop rest (nr - 1) shrunk s
    else if es.referenced then
      doReclaimLoop rb stop rest (nr - 1) shrunk (s.write { es with referenced := false })
    else (s.freeExtent rb es).bind fun s => doReclaimLoop rb stop rest (nr - 1) (shrunk + 1) s

def doReclaimExtents (s : EsInode) (rb : Balance EsNode) (stop nr shrunk : ℕ) :
    Option (Bool × ℕ × ℕ × EsInode) :=
  (s.esTreeSearch s.iEsShrinkLblk).bind fun
    | none => some (false, nr, shrunk, { s with iEsShrinkLblk := 0 })
    | some es =>
      doReclaimLoop rb stop (s.nodes.dropWhile fun e => e.addr ≠ es.addr) nr shrunk s

def reclaimExtents (s : EsInode) (rb : Balance EsNode) (nr : ℕ) : Option (ℕ × EsInode) :=
  if s.iEsShkNr = 0 then some (0, s)
  else do
    let start := s.iEsShrinkLblk
    let (more, nr, shrunk, s) ← s.doReclaimExtents rb extMaxBlocks nr 0
    if more = false ∧ start ≠ 0 then
      let (_, _, shrunk, s) ← s.doReclaimExtents rb (start - 1) nr shrunk
      some (shrunk, { s with cacheEs := none })
    else some (shrunk, { s with cacheEs := none })

/-- `__es_shrink` called for this inode, with the number of extents it has freed. -/
def esShrink (s : EsInode) (rb : Balance EsNode) : Shrink → Option (ℕ × EsInode)
  | .others n => some (n, s)
  | .own nr => s.reclaimExtents rb nr

/-- `__es_remove_extent`: an allocation fails as long as there are failures left, which are passed
on. -/
def removeExtent (rb : Balance EsNode) (lblk stop : ℕ) :
    List Shrink → EsInode → Option (EsErr × EsInode × List Shrink)
  | [], s => (s.removeOnce rb false lblk stop).map fun r => (r.1, r.2, [])
  | f :: fails, s => do
    match ← s.removeOnce rb true lblk stop with
    | (.ok, s) => some (.ok, s, f :: fails)
    | (.enomem, s) =>
      let (shrunk, s) ← s.esShrink rb f
      if shrunk = 0 then some (.enomem, s, fails) else removeExtent rb lblk stop fails s

/-- The loop `retry` of `ext4_es_insert_extent`. -/
def insertRetry (rb : Balance EsNode) (newes : ExtentStatus) :
    List Shrink → EsInode → Option (EsErr × EsInode)
  | [], s => s.insertExtent rb false newes
  | f :: fails, s => do
    match ← s.insertExtent rb true newes with
    | (.ok, s) => some (.ok, s)
    | (.enomem, s) =>
      let (shrunk, s) ← s.esShrink rb f
      if shrunk = 0 then some (.enomem, s) else insertRetry rb newes fails s

end EsInode

/-- What a call returns. `dropped` is the 0 that `ext4_es_insert_extent` returns without having
stored the extent. -/
inductive EsReply where
  | done
  | dropped
  | enomem
  | found (es : ExtentStatus)
  | missing
  deriving DecidableEq

namespace EsInode

def esInsertExtent (s : EsInode) (rb : Balance EsNode) (fails : List Shrink) (lblk len : ℕ)
    (pblk : BitVec 64) (status : EsType) : Option (EsReply × EsInode) :=
  let stop := (lblk + len + 2 ^ 32 - 1) % 2 ^ 32
  if len = 0 then some (.done, s)
  -- BUG_ON(end < lblk)
  else if stop < lblk then none
  else do
    let newes : ExtentStatus :=
      { esLblk := lblk, esLen := len, esPblk := pblk.setWidth 59, esType := status
        referenced := false }
    match ← removeExtent rb lblk stop fails s with
    | (.enomem, s, _) => some (.enomem, s)
    | (.ok, s, fails) =>
      match ← insertRetry rb newes fails s with
      | (.ok, s) => some (.done, s)
      | (.enomem, s) => some (if status.isDelayed then .enomem else .dropped, s)

def esCacheExtent (s : EsInode) (rb : Balance EsNode) (fail : Bool) (lblk len : ℕ)
    (pblk : BitVec 64) (status : EsType) : Option (EsReply × EsInode) :=
  let stop := (lblk + len + 2 ^ 32 - 1) % 2 ^ 32
  if len = 0 then some (.done, s)
  else if stop < lblk then none
  else do
    let newes : ExtentStatus :=
      { esLblk := lblk, esLen := len, esPblk := pblk.setWidth 59, esType := status
        referenced := false }
    let es ← s.esTreeSearch lblk
    if es.all fun es => es.esLblk > stop then
      let (_, s) ← s.insertExtent rb fail newes
      some (.done, s)
    else some (.done, s)

def esRemoveExtent (s : EsInode) (rb : Balance EsNode) (fails : List Shrink) (lblk len : ℕ) :
    Option (EsReply × EsInode) :=
  let stop := (lblk + len + 2 ^ 32 - 1) % 2 ^ 32
  if len = 0 then some (.done, s)
  else if stop < lblk then none
  else (removeExtent rb lblk stop fails s).map fun
    | (.ok, s, _) => (.done, s)
    | (.enomem, s, _) => (.enomem, s)

/-- The node that `ext4_es_lookup_extent` finds, through `cache_es` or in the tree. A `cache_es`
that points to no node is read after free. -/
def esLookupNode (s : EsInode) (lblk : ℕ) : Option (Option EsNode) := do
  let cached ←
    match s.cacheEs with
    | none => some none
    | some a => (s.nodes.find? fun e => e.addr = a).map some
  match cached.filter fun es => es.esLblk ≤ lblk ∧ lblk ≤ es.esLblk + es.esLen - 1 with
  | some es => some (some es)
  | none =>
    (descend (esCompare lblk) s.root none).map fun
      | (true, es) => es
      | (false, _) => none

def esLookupExtent (s : EsInode) (lblk : ℕ) : Option (EsReply × EsInode) :=
  (s.esLookupNode lblk).map fun
    | none => (.missing, s)
    | some es => (.found es.toExtentStatus, s.write { es with referenced := true })

end EsInode

/-- A call, with the failures of allocations that it meets. -/
inductive EsAct where
  | insert (lblk len : ℕ) (pblk : BitVec 64) (status : EsType) (fails : List Shrink)
  | cache (lblk len : ℕ) (pblk : BitVec 64) (status : EsType) (fail : Bool)
  | remove (lblk len : ℕ) (fails : List Shrink)
  | lookup (lblk : ℕ)
  | shrink (nrToScan : ℕ)
  deriving DecidableEq

def EsInode.step (s : EsInode) (rb : Balance EsNode) : EsAct → Option (EsReply × EsInode)
  | .insert lblk len pblk status fails => s.esInsertExtent rb fails lblk len pblk status
  | .cache lblk len pblk status fail => s.esCacheExtent rb fail lblk len pblk status
  | .remove lblk len fails => s.esRemoveExtent rb fails lblk len
  | .lookup lblk => s.esLookupExtent lblk
  | .shrink nr => (s.reclaimExtents rb nr).map fun r => (.done, r.2)

/-- A sequence of calls, each with its way to balance the tree: the replies and the tree. -/
def EsInode.run : EsInode → List (Balance EsNode × EsAct) → Option (List EsReply × EsInode)
  | s, [] => some ([], s)
  | s, (rb, a) :: as => do
    let (reply, s) ← s.step rb a
    let (replies, s) ← s.run as
    some (reply :: replies, s)

end VMsep.Ext4
