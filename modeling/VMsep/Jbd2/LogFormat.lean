import VMsep.Jbd2.Buffers
import VMsep.Jbd2.Journal
import VMsep.Lib.Bytes

/-! Layout of descriptor, revoke and commit blocks, from `include/linux/jbd2.h`. `n` is
`j_blocksize`. Checksums are functions that the format is given. -/

namespace VMsep.Jbd2

open Lib

/-- The features of a journal that `journal_get_superblock` accepts. -/
structure Features where
  f64bit : Bool
  csum2 : Bool
  csum3 : Bool
  checksum : Bool
  asyncCommit : Bool
  v2orV3 : ¬ (csum2 = true ∧ csum3 = true)
  v1OrLater : ¬ ((csum2 = true ∨ csum3 = true) ∧ checksum = true)
  deriving DecidableEq

/-- What the layout of a log depends on; `jbd2Chksum` is the driver for `crc32c`. -/
structure LogFormat extends Features where
  jUuid : Block 16
  jCsumSeed : BitVec 32
  jbd2Chksum : BitVec 32 → List (BitVec 8) → BitVec 32
  crc32Be : BitVec 32 → List (BitVec 8) → BitVec 32

namespace LogFormat

variable {n : ℕ} (fmt : LogFormat)

def hasCsumV2or3 : Bool := fmt.csum2 || fmt.csum3

def tagBytes : ℕ :=
  if fmt.csum3 then 16
  else
    let sz := if fmt.csum2 then 12 + 2 else 12
    if fmt.f64bit then sz else sz - 4

/-- The size of `struct jbd2_journal_block_tail`, where there is one. -/
def csumSize : ℕ := if fmt.hasCsumV2or3 then 4 else 0

/-- `j_wbufsize`: the block size over `sizeof(journal_block_tag_t)`. -/
def wbufsize (n : ℕ) : ℕ := n / 12

def descriptorBlock : ℕ := 1
def commitBlock : ℕ := 2
def revokeBlock : ℕ := 5

def flagEscape : ℕ := 1
def flagSameUuid : ℕ := 2
def flagLastTag : ℕ := 8

/-- The block of `jbd2_vmsep_journal_get_descriptor_buffer`. -/
def header (type : ℕ) (tid : Tid) : Block n :=
  ((Block.zero.put 0 4 jbd2MagicNumber.toNat).put 4 4 type).put 8 4 tid.toNat

def writeTagBlock (b : Block n) (tagp : ℕ) (block : BitVec 64) : Block n :=
  let b := b.put tagp 4 (block.toNat % 2 ^ 32)
  if fmt.f64bit then b.put (tagp + 8) 4 (block.toNat / 2 ^ 31 / 2) else b

def blockChksum (data : Block n) (sequence : Tid) : BitVec 32 :=
  let seq := List.ofFn ((Block.zero : Block 4).put 0 4 sequence.toNat)
  fmt.jbd2Chksum (fmt.jbd2Chksum fmt.jCsumSeed seq) (List.ofFn data)

def blockTagCsumSet (b : Block n) (tagp : ℕ) (data : Block n) (sequence : Tid) : Block n :=
  if !fmt.hasCsumV2or3 then b
  else if fmt.csum3 then b.put (tagp + 12) 4 (fmt.blockChksum data sequence).toNat
  else b.put (tagp + 4) 2 (fmt.blockChksum data sequence).toNat

def wholeChksum (b : Block n) (o : ℕ) : BitVec 32 :=
  fmt.jbd2Chksum fmt.jCsumSeed (List.ofFn (b.put o 4 0))

def descriptorBlockCsumSet (b : Block n) : Block n :=
  if !fmt.hasCsumV2or3 then b else b.put (n - 4) 4 (fmt.wholeChksum b (n - 4)).toNat

def commitBlockCsumSet (b : Block n) : Block n :=
  if !fmt.hasCsumV2or3 then b
  else
    let b := (b.put 12 1 0).put 13 1 0
    b.put 16 4 (fmt.wholeChksum b 16).toNat

/-- The block of `journal_submit_commit_record`. -/
def commitRecord (tid : Tid) (crc32Sum : BitVec 32) (sec nsec : ℕ) : Block n :=
  let b := ((header commitBlock tid).put 48 8 sec).put 56 4 nsec
  let b := if fmt.checksum then ((b.put 12 1 1).put 13 1 4).put 16 4 crc32Sum.toNat else b
  fmt.commitBlockCsumSet b

/-- The data that `jbd2_vmsep_journal_write_metadata_buffer` puts in the log, and whether it had
to be escaped. -/
def escape (data : Block n) : Bool × Block n :=
  if data.be 0 4 = jbd2MagicNumber.toNat then (true, data.put 0 4 0) else (false, data)

def descriptorBlockCsumVerify (b : Block n) : Option Bool :=
  if !fmt.hasCsumV2or3 then some true
  else
    (b.read (n - 4) 4).map fun provided => provided = (fmt.wholeChksum b (n - 4)).toNat

def commitBlockCsumVerify (b : Block n) : Option Bool :=
  if !fmt.hasCsumV2or3 then some true
  else (b.read 16 4).map fun provided => provided = (fmt.wholeChksum b 16).toNat

def readTagBlock (b : Block n) (tagp : ℕ) : Option (BitVec 64) :=
  (b.read tagp 4).bind fun block =>
    if fmt.f64bit then
      (b.read (tagp + 8) 4).map fun high => BitVec.ofNat 64 (high * 2 ^ 32 + block)
    else some (BitVec.ofNat 64 block)

def blockTagCsumVerify (b : Block n) (tagp : ℕ) (data : Block n) (sequence : Tid) : Option Bool :=
  if !fmt.hasCsumV2or3 then some true
  else if fmt.csum3 then
    (b.read (tagp + 12) 4).map fun csum => csum = (fmt.blockChksum data sequence).toNat
  else
    (b.read (tagp + 4) 2).map fun csum => csum = (fmt.blockChksum data sequence).toNat % 2 ^ 16

end LogFormat

end VMsep.Jbd2
