import VMsep.Ext4.XattrExact
import VMsep.Lib.Transition

/-! A small file keeps its contents in the inode: sixty bytes in `i_block` and the rest in the value
of the attribute `system.data`, whose entry is addressed through `i_inline_off`. -/

namespace VMsep.Ext4.Inline

open VMsep.Lib VMsep.Lib.Block VMsep.Ext4.Xattr

def eNodata : ℤ := -61
def eRange : ℤ := -34

/-- `EXT4_MIN_INLINE_DATA_SIZE`. -/
def minInlineDataSize : ℕ := 60

/-- The offset of `i_block` in the raw inode. -/
def iBlock : ℕ := 40

def xattrMagic : ℕ := 0xEA020000

/-- The key of `system.data`. -/
def dataKey : NameKey := nameKey 7 [100, 97, 116, 97]

/-- An inode of `N` bytes with its cached fields. -/
structure Inode (N : ℕ) where
  raw : Block N
  iExtraIsize : ℕ
  iInlineOff : ℕ
  iInlineSize : ℕ
  /-- `EXT4_STATE_XATTR`. -/
  stateXattr : Bool
  /-- `EXT4_STATE_MAY_INLINE_DATA`. -/
  mayInlineData : Bool
  size_dvd : 4 ∣ N
  size_le : N ≤ 2 ^ 16
  extra_dvd : 4 ∣ iExtraIsize
  room : 128 + iExtraIsize + 4 < N

variable {N : ℕ}

namespace Inode

/-- `IHDR`. -/
def header (s : Inode N) : ℕ := 128 + s.iExtraIsize

/-- `IFIRST`. -/
def first (s : Inode N) : ℕ := 128 + s.iExtraIsize + 4

def area (s : Inode N) : Area where
  size := N - s.first
  first := 0
  isBlock := false
  eaInode := false
  first_eq := Area.first_inode
  size_dvd := by
    have hdvd := s.size_dvd
    have hextra := s.extra_dvd
    unfold first
    omega
  first_lt := by
    have hroom := s.room
    unfold first
    omega
  size_le := Nat.le_trans (Nat.sub_le _ _) s.size_le

def body (s : Inode N) : Block s.area.size := fun j => s.raw.byte (s.first + j.val)

def setBody (s : Inode N) (c : Block s.area.size) : Inode N :=
  { s with raw := fun j => if s.first ≤ j.val then c.byte (j.val - s.first) else s.raw j }

/-- `xattr_check_inode`; there is room for the header and one word. -/
def checkInode (s : Inode N) : ℤ :=
  if s.raw.le s.header 4 ≠ xattrMagic then eFscorrupted else checkEntries 0 s.body

/-- `ext4_xattr_ibody_find`: the place in the area and `not_found`. -/
def ibodyFind (k : NameKey) (s : Inode N) : Option (Except ℤ (ℕ × Bool)) :=
  if s.iExtraIsize = 0 ∨ s.stateXattr = false then some (.ok (0, true))
  else if s.checkInode ≠ 0 then some (.error s.checkInode)
  else (findEntry false k s.body s.area.size 0).map .ok

/-- `ext4_xattr_ibody_get` of a value in the area, with a buffer. -/
def ibodyGet (k : NameKey) (bufferSize : ℕ) (s : Inode N) :
    Option (Except ℤ (List (BitVec 8))) :=
  if s.stateXattr = false then some (.error eNodata)
  else if s.checkInode ≠ 0 then some (.error s.checkInode)
  else
    (findEntry false k s.body s.area.size 0).map fun r =>
      let e := readEntry s.body r.1
      if r.2 then .error eNodata
      else if e.valueSize > bufferSize then .error eRange
      else .ok (s.body.slice e.valueOffs e.valueSize)

def markHeader (s : Inode N) : Option (Inode N) :=
  if isLast s.body 0 then
    (s.raw.putLe s.header 4 0).map fun raw => { s with raw := raw, stateXattr := false }
  else
    (s.raw.putLe s.header 4 xattrMagic).map fun raw => { s with raw := raw, stateXattr := true }

end Inode

/-- Calls that leave the attribute area of the inode: values in inodes of their own, the eviction of
inline data, and the move of attributes to a block when an inode cannot grow in place. -/
structure Calls (N : ℕ) where
  ea : EaCalls
  tryToEvict : ℕ → Inode N → Option (ℤ × Inode N)
  makeSpace : ℕ → Inode N → Option (ℤ × Inode N)

namespace Inode

def ibodySet (c : Calls N) (i : Info) (here : ℕ) (notFound : Bool) (s : Inode N) :
    Option (ℤ × Inode N) :=
  if s.iExtraIsize = 0 then some (eNospc, s)
  else
    (setEntry s.area c.ea i here notFound s.body).bind fun r =>
      if r.1 ≠ 0 then some (r.1, s.setBody r.2)
      else (s.setBody r.2).markHeader.map fun s => (0, s)

/-- `ext4_xattr_ibody_inline_set`, which evicts the inline data if there is no space. -/
def ibodyInlineSet (c : Calls N) (i : Info) (here : ℕ) (notFound : Bool) (s : Inode N) :
    Option (ℤ × Inode N) :=
  (s.ibodySet c i here notFound).bind fun r =>
    if r.1 = eNospc ∧ s.iExtraIsize ≠ 0 ∧ s.iInlineOff ≠ 0 then
      (c.tryToEvict (xattrLen (i.name.length + i.newSize)) r.2).bind fun r =>
        if r.1 ≠ 0 then some r
        else
          (r.2.ibodyFind i.key).bind fun
            | .error err => some (err, r.2)
            | .ok (here, notFound) => r.2.ibodySet c i here notFound
    else some r

/-- The attribute `system.data` with a value. -/
def systemData (value : Option Value) : Info where
  nameIndex := 7
  name := [100, 97, 116, 97]
  value := value
  inInode := false
  nameIndex_lt := by decide
  name_length := by decide

/-- `get_max_inline_xattr_value_size`; sizes are `int`. -/
def maxInlineValueSize (s : Inode N) : Option ℤ :=
  if s.stateXattr = false then
    some (xattrSize (s.area.size - xattrLen 4 - 3 - 4) : ℕ)
  else
    (scanEntries s.body s.area.size 0 s.area.size).map fun scan =>
      let free : ℤ := scan.1 - scan.2 - 4
      if s.iInlineOff ≠ 0 then
        free + xattrSize32 (s.raw.le (s.iInlineOff + 8) 4)
      else
        let free := free - xattrLen 4
        if free > 3 then xattrSize (free - 3).toNat else 0

def maxInlineSize (s : Inode N) : Option ℤ :=
  if s.iExtraIsize = 0 then some 0
  else s.maxInlineValueSize.map fun size => if size = 0 then 0 else size + minInlineDataSize

def createInlineData (c : Calls N) (len : ℕ) (s : Inode N) : Option (ℤ × Inode N) :=
  let value := if len > minInlineDataSize then .zero (len - minInlineDataSize) else .bytes []
  (s.ibodyFind dataKey).bind fun
    | .error err => some (err, s)
    | .ok (here, notFound) =>
      if notFound = false then none
      else
        (s.ibodyInlineSet c (systemData (some value)) here notFound).bind fun r =>
          if r.1 = eNospc then some (r.1, { r.2 with mayInlineData := false })
          else if r.1 ≠ 0 then some r
          else
            (r.2.raw.clear iBlock minInlineDataSize).map fun raw =>
              (0, { r.2 with
                raw := raw, iInlineOff := s.first + here
                iInlineSize := (len - minInlineDataSize) + minInlineDataSize })

def updateInlineData (c : Calls N) (len : ℕ) (s : Inode N) : Option (ℤ × Inode N) :=
  if len ≤ s.iInlineSize then some (0, s)
  else
    (s.ibodyFind dataKey).bind fun
      | .error err => some (err, s)
      | .ok (here, notFound) =>
        if notFound then none
        else
          let len := len - minInlineDataSize
          (s.ibodyGet dataKey len).bind fun got =>
            let store := fun value =>
              (s.ibodyInlineSet c (systemData (some (.bytes value))) here notFound).map fun r =>
                if r.1 ≠ 0 then r
                else
                  (0, { r.2 with
                    iInlineOff := s.first + here
                    iInlineSize := minInlineDataSize + r.2.raw.le (s.first + here + 8) 4
                    mayInlineData := true })
            match got with
            | .ok old => store (old ++ List.replicate (len - old.length) 0)
            -- any other error leaves the zeroes of kzalloc
            | .error err => if err = eNodata then some (err, s) else store (List.replicate len 0)

def prepareInlineData (c : Calls N) (len : ℕ) (s : Inode N) : Option (ℤ × Inode N) :=
  if s.mayInlineData = false then some (eNospc, s)
  else
    s.maxInlineSize.bind fun size =>
      if size < len then some (eNospc, s)
      else if s.iInlineOff ≠ 0 then s.updateInlineData c len
      else s.createInlineData c len

def writeInlineData (pos : ℕ) (l : List (BitVec 8)) (s : Inode N) : Option (Inode N) :=
  if s.iInlineOff = 0 ∨ pos + l.length > s.iInlineSize then none
  else do
    let cpLen := if pos < minInlineDataSize then min l.length (minInlineDataSize - pos) else 0
    let raw ←
      (if pos < minInlineDataSize then s.raw.store (iBlock + pos) (l.take cpLen) else some s.raw)
    if l.length - cpLen = 0 then some { s with raw := raw }
    else do
      let raw ← raw.store
        (s.first + raw.le (s.iInlineOff + 2) 2 + (pos + cpLen - minInlineDataSize)) (l.drop cpLen)
      some { s with raw := raw }

def readInlineData (len : ℕ) (s : Inode N) : Option (List (BitVec 8)) :=
  if len > s.iInlineSize then none
  else
    let cpLen := min len minInlineDataSize
    let rest := min (len - cpLen) (s.raw.le (s.iInlineOff + 8) 4)
    some (s.raw.slice iBlock cpLen ++
      if len - cpLen = 0 then []
      else s.raw.slice (s.first + s.raw.le (s.iInlineOff + 2) 2) rest)

/-- The value of `system.data` is cut off; an error is `goto out_error` with what is returned
then. -/
def truncateValue (c : Calls N) (size : ℕ) (s : Inode N) :
    Option (Except (ℤ × Inode N) (Inode N)) :=
  (s.ibodyFind dataKey).bind fun
    | .error err => some (.error (err, s))
    | .ok (here, notFound) =>
      if notFound then none
      else
        (s.ibodyGet dataKey (readEntry s.body here).valueSize).bind fun
          | .error err => some (.error (err, s))
          | .ok value =>
            if value.length = 0 then some (.error (0, s))
            else
              (s.ibodyInlineSet c
                (systemData (some (.bytes (value.take (size - minInlineDataSize)))))
                here notFound).map fun r => if r.1 ≠ 0 then .error r else .ok r.2

/-- `ext4_inline_data_truncate` to the size `size`. -/
def inlineDataTruncate (c : Calls N) (size : ℕ) (s : Inode N) : Option (ℤ × Inode N) :=
  if s.iInlineOff = 0 ∨ s.iInlineSize ≤ size then some (0, s)
  else
    (if s.iInlineSize > minInlineDataSize then s.truncateValue c size
      else some (.ok s)).bind fun
      | .error r => some r
      | .ok s =>
        (if size < minInlineDataSize then s.raw.clear (iBlock + size) (minInlineDataSize - size)
          else some s.raw).map fun raw =>
          (0, { s with raw := raw, iInlineSize := max size minInlineDataSize })

/-- The loop of `ext4_xattr_shift_entries`: the value offsets get lower. -/
def shiftOffs {n : ℕ} (diff : ℕ) : ℕ → ℕ → Block n → Option (Block n)
  | 0, _, _ => none
  | fuel + 1, o, b =>
    if n < o + 4 then none
    else if isLast b o then some b
    else
      let e := readEntry b o
      (if e.Stored then b.putLe (o + 2) 2 (e.valueOffs + (2 ^ 16 - diff))
        else some b).bind (shiftOffs diff fuel (o + e.len))

/-- The entries are moved ahead to a new `i_extra_isize`. -/
def shiftEntries (new total : ℕ) (s : Inode N) : Option (Inode N) :=
  if h : 4 ∣ new ∧ 128 + new + 4 < N then
    (shiftOffs (new - s.iExtraIsize) s.area.size 0 s.body).bind fun c =>
      ((s.setBody c).raw.move (128 + new) s.header total).map fun raw =>
        { s with raw := raw, iExtraIsize := new, extra_dvd := h.1, room := h.2 }
  else none

def expandExtraIsizeEa (c : Calls N) (new : ℕ) (s : Inode N) : Option (ℤ × Inode N) :=
  if s.iExtraIsize ≥ new then some (0, s)
  else if s.checkInode ≠ 0 then some (s.checkInode, s)
  else
    (scanEntries s.body s.area.size 0 s.area.size).bind fun scan =>
      if sub64 (sub64 scan.1 scan.2) 4 ≥ new - s.iExtraIsize then
        (s.shiftEntries new (4 + scan.2)).map fun s => (0, s)
      else c.makeSpace new s

end Inode

inductive Op where
  /-- `ext4_prepare_inline_data` and `ext4_write_inline_data`. -/
  | write (pos : ℕ) (l : List (BitVec 8))
  | truncate (size : ℕ)
  /-- `ext4_xattr_ibody_set` behind `ext4_xattr_ibody_find`. -/
  | set (i : Info)
  | expand (new : ℕ)

def stepRet (c : Calls N) (s : Inode N) : Op → Option (ℤ × Inode N)
  | .write pos l =>
    (s.prepareInlineData c (pos + l.length)).bind fun r =>
      if r.1 ≠ 0 then some r else (r.2.writeInlineData pos l).map fun s => (0, s)
  | .truncate size => s.inlineDataTruncate c size
  | .set i =>
    (s.ibodyFind i.key).bind fun
      | .error err => some (err, s)
      | .ok (here, notFound) =>
        if i.value.isNone ∧ notFound then some (0, s) else s.ibodySet c i here notFound
  | .expand new => s.expandExtraIsizeEa c new

/-- The contents of a file: all bytes behind those that were written are zero. -/
abbrev Contents := ℕ → BitVec 8

def Contents.apply (data : Contents) : Op → Contents
  | .write pos l => fun j => if pos ≤ j ∧ j < pos + l.length then l.getD (j - pos) 0 else data j
  | .truncate size => fun j => if j < size then data j else 0
  | .set _ => data
  | .expand _ => data

def step (c : Calls N) (s : Inode N × Contents) (op : Op) : Option (Inode N × Contents) :=
  (stepRet c s.1 op).map fun r => (r.2, if r.1 = 0 then s.2.apply op else s.2)

end VMsep.Ext4.Inline
