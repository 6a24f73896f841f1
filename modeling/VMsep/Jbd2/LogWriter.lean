import VMsep.Jbd2.LogFormat

/-! What the commit routine puts in the log: the revoke records, the descriptor blocks with the
metadata they describe, and the commit record. Each block goes to the next position of the circular
log. `none` is a failed assertion on `j_free`. -/

namespace VMsep.Jbd2

open Lib LogFormat

/-- The area of the log; `j_last` is `s_maxlen` and `j_maxlen`. -/
structure LogArea where
  jFirst : ℕ
  jLast : ℕ
  first_pos : 0 < jFirst
  first_lt : jFirst < jLast
  last_lt : jLast < 2 ^ 32

structure LogHead where
  jHead : ℕ
  jFree : ℕ
  deriving DecidableEq

def LogHead.nextLogBlock (area : LogArea) (h : LogHead) : Option (ℕ × LogHead) :=
  if 1 < h.jFree then
    some (h.jHead,
      { jHead := if h.jHead + 1 = area.jLast then area.jFirst else h.jHead + 1
        jFree := h.jFree - 1 })
  else none

/-- A buffer on `t_buffers`. -/
structure LogBuffer (n : ℕ) where
  bBlocknr : BitVec 64
  bData : Block n
  ino : ℕ

variable {n : ℕ}

structure RevokeWriter (n : ℕ) where
  head : LogHead
  descriptor : Option (ℕ × Block n)
  offset : ℕ
  submitted : List (ℕ × Block n)

namespace RevokeWriter

def recordLen (fmt : LogFormat) : ℕ := if fmt.f64bit then 8 else 4

def flushDescriptor (fmt : LogFormat) (s : RevokeWriter n) : RevokeWriter n :=
  match s.descriptor with
  | none => s
  | some (pos, b) =>
    { s with
      descriptor := none
      submitted := s.submitted ++ [(pos, fmt.descriptorBlockCsumSet (b.put 12 4 s.offset))] }

def writeOneRevokeRecord (fmt : LogFormat) (area : LogArea) (tid : Tid) (s : RevokeWriter n)
    (blocknr : BitVec 64) : Option (RevokeWriter n) :=
  let sz := recordLen fmt
  let s := if n - fmt.csumSize < s.offset + sz then s.flushDescriptor fmt else s
  match s.descriptor with
  | some (pos, b) =>
    some { s with
      descriptor := some (pos, b.put s.offset sz blocknr.toNat), offset := s.offset + sz }
  | none =>
    (s.head.nextLogBlock area).map fun (pos, head) =>
      { s with
        head := head, offset := 16 + sz
        descriptor :=
          some (pos, (header revokeBlock tid).put 16 sz blocknr.toNat) }

def writeAll (fmt : LogFormat) (area : LogArea) (tid : Tid) :
    RevokeWriter n → List (BitVec 64) → Option (RevokeWriter n)
  | s, [] => some s
  | s, blocknr :: rest =>
    (s.writeOneRevokeRecord fmt area tid blocknr).bind fun s => writeAll fmt area tid s rest

end RevokeWriter

/-- `jbd2_vmsep_journal_write_revoke_records` for the records of the committing transaction, in the
order of the hash table. -/
def writeRevokeRecords (fmt : LogFormat) (area : LogArea) (tid : Tid) (head : LogHead)
    (records : List (BitVec 64)) : Option (LogHead × List (ℕ × Block n)) :=
  (RevokeWriter.writeAll fmt area tid
      { head := head, descriptor := none, offset := 0, submitted := [] } records).map fun s =>
    let s := s.flushDescriptor fmt
    (s.head, s.submitted)

structure Descriptor (n : ℕ) where
  blocknr : ℕ
  bData : Block n
  tagp : ℕ
  tag : ℕ
  spaceLeft : ℤ
  firstTag : Bool

/-- The state of the loop over `t_buffers`. `wbuf` holds the data blocks that follow the descriptor
block; a batch is what `start_journal_io` submits. -/
structure CommitLoop (n : ℕ) where
  head : LogHead
  descriptor : Option (Descriptor n)
  wbuf : List (ℕ × Block n)
  batches : List (Descriptor n × List (ℕ × Block n))
  crc32Sum : BitVec 32
  deferred : List (LogBuffer n)

namespace Descriptor

def new (tid : Tid) (pos : ℕ) : Descriptor n :=
  { blocknr := pos, bData := header descriptorBlock tid, tagp := 12, tag := 12
    spaceLeft := n - 12, firstTag := true }

def addTag (fmt : LogFormat) (tid : Tid) (d : Descriptor n) (block : BitVec 64) (escaped : Bool)
    (data : Block n) : Descriptor n :=
  let tagFlag := (if escaped then flagEscape else 0) |||
    (if d.firstTag then 0 else flagSameUuid)
  let b := (fmt.writeTagBlock d.bData d.tagp block).put (d.tagp + 6) 2 tagFlag
  let b := fmt.blockTagCsumSet b d.tagp data tid
  let tagp := d.tagp + fmt.tagBytes
  let spaceLeft := d.spaceLeft - fmt.tagBytes
  if d.firstTag then
    { d with
      bData := b.patch tagp 16 fmt.jUuid.byte, tagp := tagp + 16, tag := d.tagp
      spaceLeft := spaceLeft - 16, firstTag := false }
  else { d with bData := b, tagp := tagp, tag := d.tagp, spaceLeft := spaceLeft }

def close (fmt : LogFormat) (d : Descriptor n) : Descriptor n :=
  let flags := d.bData.be (d.tag + 6) 2 ||| flagLastTag
  { d with bData := fmt.descriptorBlockCsumSet (d.bData.put (d.tag + 6) 2 flags) }

end Descriptor

namespace CommitLoop

def getDescriptor (area : LogArea) (tid : Tid) (s : CommitLoop n) :
    Option (Descriptor n × CommitLoop n) :=
  match s.descriptor with
  | some d => some (d, s)
  | none =>
    (s.head.nextLogBlock area).map fun (pos, head) => (.new tid pos, { s with head := head })

def startJournalIo (fmt : LogFormat) (s : CommitLoop n) (d : Descriptor n) : CommitLoop n :=
  let crc := (d.bData :: s.wbuf.map Prod.snd).foldl
    (fun crc b => fmt.crc32Be crc (List.ofFn b)) s.crc32Sum
  { s with
    descriptor := none, wbuf := [], batches := s.batches ++ [(d, s.wbuf)]
    crc32Sum := if fmt.checksum then crc else s.crc32Sum }

/-- The round of the loop that logs a buffer; `last` says that `t_buffers` is empty then. -/
def logBuffer (fmt : LogFormat) (area : LogArea) (tid : Tid) (s : CommitLoop n) (x : LogBuffer n)
    (last : Bool) : Option (CommitLoop n) :=
  (s.getDescriptor area tid).bind fun (d, s) =>
    (s.head.nextLogBlock area).map fun (pos, head) =>
      let (escaped, data) := escape x.bData
      let d := d.addTag fmt tid x.bBlocknr escaped data
      let s := { s with head := head, descriptor := some d, wbuf := s.wbuf ++ [(pos, data)] }
      if s.wbuf.length + 1 = wbufsize n ∨ last ∨
          d.spaceLeft < fmt.tagBytes + 16 + fmt.csumSize then
        s.startJournalIo fmt (d.close fmt)
      else s

/-- The loop over `t_buffers`. A buffer of another inode than `ino_sync` goes to the next
transaction. -/
def run (fmt : LogFormat) (area : LogArea) (tid : Tid) (inoSync : ℕ) :
    CommitLoop n → List (LogBuffer n) → Option (CommitLoop n)
  | s, [] => some s
  | s, x :: rest =>
    if x.ino ≠ inoSync then run fmt area tid inoSync { s with deferred := s.deferred ++ [x] } rest
    else
      (s.logBuffer fmt area tid x rest.isEmpty).bind fun s => run fmt area tid inoSync s rest

def start (head : LogHead) : CommitLoop n :=
  { head := head, descriptor := none, wbuf := [], batches := [], crc32Sum := -1, deferred := [] }

def blocks (s : CommitLoop n) : List (ℕ × Block n) :=
  s.batches.flatMap fun (d, data) => (d.blocknr, d.bData) :: data

end CommitLoop

/-- A transaction as the commit routine finds it; the last two fields are the time that the commit
record gets. -/
structure LoggedTx (n : ℕ) where
  revoked : List (BitVec 64)
  buffers : List (LogBuffer n)
  inoSync : ℕ
  sec : ℕ
  nsec : ℕ

def writeTransaction (fmt : LogFormat) (area : LogArea) (tid : Tid) (record : Bool)
    (head : LogHead) (tx : LoggedTx n) : Option (LogHead × List (ℕ × Block n)) :=
  (writeRevokeRecords fmt area tid head tx.revoked).bind fun (head, revokes) =>
    (CommitLoop.run fmt area tid tx.inoSync (.start head) tx.buffers).bind fun s =>
      if record then
        (s.head.nextLogBlock area).map fun (pos, head) =>
          (head, revokes ++ s.blocks ++ [(pos, fmt.commitRecord tid s.crc32Sum tx.sec tx.nsec)])
      else some (s.head, revokes ++ s.blocks)

def storeBlocks (log : ℕ → Block n) (blocks : List (ℕ × Block n)) : ℕ → Block n :=
  blocks.foldl (fun log p => Function.update log p.1 p.2) log

end VMsep.Jbd2
