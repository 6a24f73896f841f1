import VMsep.Jbd2.LogWriter
import VMsep.Jbd2.Revoke

/-! `fs/jbd2/recovery.c`. A function that reads the bytes of a block is `none` if it reads outside
the block, and a loop is `none` if it is not given enough rounds. -/

namespace VMsep.Jbd2

open Lib

inductive LogErrno where
  | eio
  | efscorrupted
  | efsbadcrc
  | einval
  deriving DecidableEq

inductive Pass where
  | scan
  | revoke
  | replay
  deriving DecidableEq

/-- What recovery finds in the superblock and does not change. `readable` says which blocks of
the log can be read, and `inLog` which block of the log a block of the file system device is, for
a journal on that device. The last two fields are what `sync_blockdev` and `blkdev_issue_flush`
return. -/
structure RecoveryConfig extends LogFormat, LogArea where
  sSequence : Tid
  sStart : ℕ
  readable : ℕ → Bool
  inLog : BitVec 64 → Option ℕ
  syncBlockdev : Option LogErrno
  issueFlush : Option LogErrno

structure LogDisk (n : ℕ) where
  log : ℕ → Block n
  home : BitVec 64 → Block n

structure RecoveryInfo where
  startTransaction : Tid
  endTransaction : Tid
  nrReplays : ℕ
  nrRevokes : ℕ
  nrRevokeHits : ℕ
  deriving DecidableEq

/-- The variables of `do_one_pass` and what it changes. The last three fields record what it did:
the blocks that were read as headers, with the id that was expected, the tags that were read and
the blocks that were written. -/
structure PassState (n : ℕ) where
  nextCommitId : Tid
  nextLogBlock : ℕ
  crc32Sum : BitVec 32
  success : Option LogErrno
  blockError : Bool
  info : RecoveryInfo
  jRevoke : List RevokeRecord
  jFailedCommit : Tid
  disk : LogDisk n
  visited : List (ℕ × Tid)
  tags : List (BitVec 64 × Bool)
  writes : List (BitVec 64 × Block n)

/-- How a round of the loop of `do_one_pass` ends. -/
inductive PassStep (n : ℕ) where
  | again (s : PassState n)
  | done (s : PassState n)
  | failed (e : LogErrno) (s : PassState n)

variable {n : ℕ}

def LogDisk.write (inLog : BitVec 64 → Option ℕ) (d : LogDisk n) (blocknr : BitVec 64)
    (b : Block n) : LogDisk n :=
  match inLog blocknr with
  | none => { d with home := Function.update d.home blocknr b }
  | some pos => { d with log := Function.update d.log pos b }

def setRevoke (table : List RevokeRecord) (blocknr : BitVec 64) (sequence : Tid) :
    List RevokeRecord :=
  match table.find? (·.blocknr == blocknr.toNat) with
  | some record =>
    if tidGt sequence record.sequence then
      table.map fun r => if r.blocknr == blocknr.toNat then { r with sequence := sequence } else r
    else table
  | none => { blocknr := blocknr.toNat, sequence := sequence } :: table

def testRevoke (table : List RevokeRecord) (blocknr : BitVec 64) (sequence : Tid) : Bool :=
  match table.find? (·.blocknr == blocknr.toNat) with
  | some record => !tidGt sequence record.sequence
  | none => false

namespace RecoveryConfig

variable (cfg : RecoveryConfig)

def wrap (pos : ℕ) : ℕ := if cfg.jLast ≤ pos then pos - (cfg.jLast - cfg.jFirst) else pos

def jread (d : LogDisk n) (pos : ℕ) : Except LogErrno (Block n) :=
  let offset := pos % 2 ^ 32
  if cfg.jLast ≤ offset then .error .efscorrupted
  else if cfg.readable offset then .ok (d.log offset)
  else .error .eio

/-- The loop of `count_tags`, with the number of rounds it may take. -/
def countTagsLoop (b : Block n) : ℕ → ℕ → ℕ → Option ℕ
  | 0, _, _ => none
  | rounds + 1, tagp, nr =>
    if tagp + cfg.tagBytes ≤ n - cfg.csumSize then do
      let flags ← b.read (tagp + 6) 2
      let next := if flags.testBit 1 then tagp + cfg.tagBytes else tagp + cfg.tagBytes + 16
      if flags.testBit 3 then some (nr + 1) else countTagsLoop b rounds next (nr + 1)
    else some nr

def countTags (b : Block n) : Option ℕ := cfg.countTagsLoop b (n + 1) 12 0

/-- The loop of `calc_chksums` over the blocks of a descriptor block. -/
def calcChksumsLoop (d : LogDisk n) : ℕ → ℕ → BitVec 32 → ℕ × BitVec 32
  | 0, pos, crc => (pos, crc)
  | blocks + 1, pos, crc =>
    let next := cfg.wrap (pos + 1)
    match cfg.jread d pos with
    | .error _ => (next, crc)
    | .ok obh => calcChksumsLoop d blocks next (cfg.crc32Be crc (List.ofFn obh))

/-- `calc_chksums`. After an error the loop of `do_one_pass` goes on as after success. -/
def calcChksums (bh : Block n) (s : PassState n) : Option (PassState n) := do
  let numBlks ← cfg.countTags bh
  let (pos, crc) := cfg.calcChksumsLoop s.disk numBlks s.nextLogBlock
    (cfg.crc32Be s.crc32Sum (List.ofFn bh))
  some { s with nextLogBlock := pos, crc32Sum := crc }

def replayBlock (bh : Block n) (tagp flags : ℕ) (obh : Block n) (s : PassState n) :
    Option (PassState n) := do
  let blocknr ← cfg.readTagBlock bh tagp
  let s := { s with tags := s.tags ++ [(blocknr, flags.testBit 0)] }
  if testRevoke s.jRevoke blocknr s.nextCommitId then
    some { s with info := { s.info with nrRevokeHits := s.info.nrRevokeHits + 1 } }
  else
    let sequence ← bh.read 8 4
    let ok ← cfg.blockTagCsumVerify bh tagp obh (BitVec.ofNat 32 sequence)
    if !ok then some { s with success := some .efsbadcrc, blockError := true }
    else
      let data := if flags.testBit 0 then obh.put 0 4 jbd2MagicNumber.toNat else obh
      some { s with
        disk := s.disk.write cfg.inLog blocknr data
        info := { s.info with nrReplays := s.info.nrReplays + 1 }
        writes := s.writes ++ [(blocknr, data)] }

def replayIo (bh : Block n) (tagp flags : ℕ) (s : PassState n) : Option (PassState n) :=
  let s' := { s with nextLogBlock := cfg.wrap (s.nextLogBlock + 1) }
  match cfg.jread s.disk s.nextLogBlock with
  | .error e => some { s' with success := some e }
  | .ok obh => cfg.replayBlock bh tagp flags obh s'

/-- The loop over the tags of a descriptor block in the last pass. The block is in the buffer
cache, so a write to it is seen by the next round. -/
def replayTags (pos : ℕ) : ℕ → ℕ → PassState n → Option (PassState n)
  | 0, _, _ => none
  | rounds + 1, tagp, s =>
    let bh := s.disk.log pos
    if tagp + cfg.tagBytes ≤ n - cfg.csumSize then do
      let flags ← bh.read (tagp + 6) 2
      let s ← cfg.replayIo bh tagp flags s
      let next := if flags.testBit 1 then tagp + cfg.tagBytes else tagp + cfg.tagBytes + 16
      if flags.testBit 3 then some s else replayTags pos rounds next s
    else some s

/-- The case of a descriptor block, which is the one at `pos`. -/
def descriptorStep (pass : Pass) (pos : ℕ) (bh : Block n) (s : PassState n) :
    Option (PassStep n) := do
  let ok ← cfg.descriptorBlockCsumVerify bh
  if !ok then some (.failed .efsbadcrc s)
  else
    match pass with
    | .replay => (cfg.replayTags pos (n + 1) 12 s).map .again
    | .scan =>
      if cfg.checksum ∧ s.info.endTransaction = 0 then (cfg.calcChksums bh s).map .again
      else
        (cfg.countTags bh).map fun nr =>
          .again { s with nextLogBlock := cfg.wrap (s.nextLogBlock + nr) }
    | .revoke =>
      (cfg.countTags bh).map fun nr =>
        .again { s with nextLogBlock := cfg.wrap (s.nextLogBlock + nr) }

/-- The checksum of the transaction, which `calc_chksums` has computed, in its commit record. -/
def chksumErr (bh : Block n) (crc32Sum : BitVec 32) : Option Bool := do
  let type ← bh.read 12 1
  let size ← bh.read 13 1
  let found ← bh.read 16 4
  let seen := crc32Sum.toNat = found ∧ type = 1 ∧ size = 4
  some (!(decide seen || decide (type = 0 ∧ size = 0 ∧ found = 0)))

def nextTransaction (s : PassState n) : PassState n := { s with nextCommitId := s.nextCommitId + 1 }

def commitCsum (bh : Block n) (s : PassState n) : Option (PassStep n) := do
  let ok ← cfg.commitBlockCsumVerify bh
  if ok then some (.again (nextTransaction s))
  else
    let s := { s with info := { s.info with endTransaction := s.nextCommitId } }
    if cfg.asyncCommit then some (.again (nextTransaction s))
    else some (.again { s with jFailedCommit := s.nextCommitId })

/-- The case of a commit block. The `break` after an error only leaves the `switch`. -/
def commitStep (pass : Pass) (bh : Block n) (s : PassState n) : Option (PassStep n) :=
  match pass with
  | .scan =>
    if cfg.checksum then
      if s.info.endTransaction ≠ 0 then
        some (.again { s with jFailedCommit := s.info.endTransaction })
      else do
        let err ← chksumErr bh s.crc32Sum
        if err then
          let s := { s with info := { s.info with endTransaction := s.nextCommitId } }
          if cfg.asyncCommit then cfg.commitCsum bh { s with crc32Sum := -1 }
          else some (.again { s with jFailedCommit := s.nextCommitId })
        else cfg.commitCsum bh { s with crc32Sum := -1 }
    else cfg.commitCsum bh s
  | _ => some (.again (nextTransaction s))

/-- The loop of `scan_revoke_records`. -/
def scanRevokeLoop (bh : Block n) (max : ℕ) : ℕ → ℕ → PassState n → Option (PassState n)
  | 0, _, _ => none
  | rounds + 1, offset, s =>
    let recordLen := RevokeWriter.recordLen cfg.toLogFormat
    if offset + recordLen ≤ max then do
      let blocknr ← bh.read offset recordLen
      scanRevokeLoop bh max rounds (offset + recordLen)
        { s with
          jRevoke := setRevoke s.jRevoke (BitVec.ofNat 64 blocknr) s.nextCommitId
          info := { s.info with nrRevokes := s.info.nrRevokes + 1 } }
    else some s

def scanRevokeRecords (bh : Block n) (s : PassState n) : Option (PassStep n) := do
  let rcount ← bh.read 12 4
  let ok ← cfg.descriptorBlockCsumVerify bh
  if !ok then some (.failed .efsbadcrc s)
  else if n - cfg.csumSize < rcount then some (.failed .einval s)
  else (cfg.scanRevokeLoop bh rcount (n + 1) 16 s).map .again

def headerStep (pass : Pass) (pos : ℕ) (bh : Block n) (s : PassState n) :
    Option (PassStep n) := do
  let magic ← bh.read 0 4
  if magic ≠ jbd2MagicNumber.toNat then some (.done s)
  else
    let blocktype ← bh.read 4 4
    let sequence ← bh.read 8 4
    if sequence ≠ s.nextCommitId.toNat then some (.done s)
    else if blocktype = LogFormat.descriptorBlock then cfg.descriptorStep pass pos bh s
    else if blocktype = LogFormat.commitBlock then cfg.commitStep pass bh s
    else if blocktype = LogFormat.revokeBlock then
      if pass = .revoke then cfg.scanRevokeRecords bh s else some (.again s)
    else some (.done s)

/-- One round of the loop of `do_one_pass`. -/
def passStep (pass : Pass) (s : PassState n) : Option (PassStep n) :=
  if pass ≠ .scan ∧ tidGeq s.nextCommitId s.info.endTransaction then some (.done s)
  else
    match cfg.jread s.disk s.nextLogBlock with
    | .error e => some (.failed e s)
    | .ok bh =>
      cfg.headerStep pass (s.nextLogBlock % 2 ^ 32) bh
        { s with
          nextLogBlock := cfg.wrap (s.nextLogBlock + 1)
          visited := s.visited ++ [(s.nextLogBlock, s.nextCommitId)] }

/-- The loop of `do_one_pass`, with the number of rounds it may take. -/
def passLoop (pass : Pass) : ℕ → PassState n → Option (Option LogErrno × PassState n)
  | 0, _ => none
  | rounds + 1, s =>
    (cfg.passStep pass s).bind fun r =>
      match r with
      | .again s => passLoop pass rounds s
      | .done s => some (none, s)
      | .failed e s => some (some e, s)

/-- The end of `do_one_pass` after `done`. -/
def passDone (pass : Pass) (s : PassState n) : Option LogErrno × PassState n :=
  let s :=
    if pass = .scan then
      if s.info.endTransaction = 0 then
        { s with info := { s.info with endTransaction := s.nextCommitId } }
      else s
    else if s.info.endTransaction ≠ s.nextCommitId ∧ s.success = none then
      { s with success := some .eio }
    else s
  let success := if s.blockError ∧ s.success = none then some .eio else s.success
  (success, { s with success := success })

/-- The variables of `do_one_pass` at its start; the rest is what the earlier passes left. -/
def passStart (pass : Pass) (s : PassState n) : PassState n :=
  { s with
    nextCommitId := cfg.sSequence, nextLogBlock := cfg.sStart, crc32Sum := -1, success := none
    blockError := false, visited := []
    info :=
      if pass = .scan then { s.info with startTransaction := cfg.sSequence } else s.info }

def doOnePass (rounds : ℕ) (pass : Pass) (s : PassState n) :
    Option (Option LogErrno × PassState n) :=
  (cfg.passLoop pass rounds (cfg.passStart pass s)).map fun r =>
    match r with
    | (some e, s) => (some e, s)
    | (none, s) => passDone pass s

def infoStart (d : LogDisk n) : PassState n :=
  { nextCommitId := 0, nextLogBlock := 0, crc32Sum := 0, success := none, blockError := false
    info :=
      { startTransaction := 0, endTransaction := 0, nrReplays := 0, nrRevokes := 0
        nrRevokeHits := 0 }
    jRevoke := [], jFailedCommit := 0, disk := d, visited := [], tags := [], writes := [] }

/-- The passes after one that returned `r`. -/
def andThen (r : Option (Option LogErrno × PassState n))
    (pass : PassState n → Option (Option LogErrno × PassState n)) :
    Option (Option LogErrno × PassState n) :=
  r.bind fun r =>
    match r with
    | (some e, s) => some (some e, s)
    | (none, s) => pass s

def threePasses (rounds : ℕ) (d : LogDisk n) : Option (Option LogErrno × PassState n) :=
  andThen (andThen (cfg.doOnePass rounds .scan (infoStart d)) (cfg.doOnePass rounds .revoke))
    (cfg.doOnePass rounds .replay)

end RecoveryConfig

/-- What `jbd2_vmsep_journal_recover` returns and leaves behind, with the blocks it wrote. -/
structure Recovered (n : ℕ) where
  err : Option LogErrno
  jTransactionSequence : Tid
  disk : LogDisk n
  writes : List (BitVec 64 × Block n)

/-- `jbd2_vmsep_journal_recover`, where each pass may take a number of rounds. -/
def RecoveryConfig.recover (cfg : RecoveryConfig) (rounds : ℕ) (d : LogDisk n) :
    Option (Recovered n) :=
  if cfg.sStart = 0 then
    some { err := none, jTransactionSequence := cfg.sSequence + 1, disk := d, writes := [] }
  else
    (cfg.threePasses rounds d).map fun (err, s) =>
      { err := (err <|> cfg.syncBlockdev) <|> cfg.issueFlush
        jTransactionSequence := s.info.endTransaction + 1, disk := s.disk, writes := s.writes }

end VMsep.Jbd2
