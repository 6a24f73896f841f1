import VMsep.Lib.Memory
import Mathlib.Data.List.Lex
import Mathlib.Data.Prod.Lex

/-! `ext4_xattr_check_entries`, `ext4_xattr_find_entry` and `ext4_xattr_set_entry` on the bytes of
an area: entries with names grow up from its start, values grow down from its end. -/

namespace VMsep.Ext4.Xattr

open VMsep.Lib

def eNospc : ℤ := -28
def eFscorrupted : ℤ := -117

/-- `EXT4_XATTR_LEN`. -/
def xattrLen (nameLen : ℕ) : ℕ := (nameLen + 3 + 16) / 4 * 4

/-- `EXT4_XATTR_SIZE` of a `size_t`. -/
def xattrSize (size : ℕ) : ℕ := (size + 3) / 4 * 4

/-- `EXT4_XATTR_SIZE` of a `u32`. -/
def xattrSize32 (size : ℕ) : ℕ := (size + 3) % 2 ^ 32 / 4 * 4

/-- Names are compared by index, then by length and then by their bytes. -/
abbrev NameKey := ℕ ×ₗ (ℕ ×ₗ List ℕ)

def nameKey (nameIndex : ℕ) (name : List (BitVec 8)) : NameKey :=
  toLex (nameIndex, toLex (name.length, name.map BitVec.toNat))

/-- The area of a search, as offsets from `s->base`: inside the inode, or in a block behind its
header. -/
structure Area where
  size : ℕ
  first : ℕ
  isBlock : Bool
  /-- The feature `ea_inode`. -/
  eaInode : Bool
  first_eq : first = if isBlock then 32 else 0
  size_dvd : 4 ∣ size
  first_lt : first < size
  size_le : size ≤ 2 ^ 16

theorem Area.first_inode : 0 = if false then 32 else 0 := rfl

structure Entry where
  nameIndex : ℕ
  valueOffs : ℕ
  valueInum : ℕ
  valueSize : ℕ
  hash : ℕ
  name : List (BitVec 8)
  deriving DecidableEq

namespace Entry

def key (e : Entry) : NameKey := nameKey e.nameIndex e.name

def len (e : Entry) : ℕ := xattrLen e.name.length

def Stored (e : Entry) : Prop := e.valueInum = 0 ∧ e.valueSize ≠ 0

instance (e : Entry) : Decidable e.Stored := inferInstanceAs (Decidable (_ ∧ _))

end Entry

section

variable {n : ℕ}

/-- `IS_LAST_ENTRY`. -/
def isLast (b : Block n) (o : ℕ) : Bool := b.le o 4 = 0

def readEntry (b : Block n) (o : ℕ) : Entry where
  nameIndex := (b.byte (o + 1)).toNat
  valueOffs := b.le (o + 2) 2
  valueInum := b.le (o + 4) 4
  valueSize := b.le (o + 8) 4
  hash := b.le (o + 12) 4
  name := b.slice (o + 16) (b.byte o).toNat

/-- The loop that finds the end of the names. Offsets are multiples of four, so that the word at
an offset below the end lies inside. -/
def checkNames (b : Block n) : ℕ → ℕ → Option ℕ
  | 0, _ => none
  | fuel + 1, o =>
    if isLast b o then some o
    else
      let next := o + (readEntry b o).len
      if next ≥ n then none else checkNames b fuel next

def valueOk (n last : ℕ) (e : Entry) : Bool :=
  ¬ (e.valueSize ≠ 0 ∧ e.valueInum = 0 ∧
    (e.valueOffs > n ∨ e.valueOffs < last + 4 ∨ e.valueSize > n - e.valueOffs ∨
      xattrSize32 e.valueSize > n - e.valueOffs))

def checkValues (b : Block n) (last : ℕ) : ℕ → ℕ → Bool
  | 0, _ => false
  | fuel + 1, o =>
    if isLast b o then true
    else valueOk n last (readEntry b o) && checkValues b last fuel (o + (readEntry b o).len)

def checkEntries (first : ℕ) (b : Block n) : ℤ :=
  match checkNames b n first with
  | none => eFscorrupted
  | some last => if checkValues b last n first then 0 else eFscorrupted

/-- `ext4_xattr_find_entry`: the place of the entry, or where it would be, and `not_found`. -/
def findEntry (sorted : Bool) (k : NameKey) (b : Block n) : ℕ → ℕ → Option (ℕ × Bool)
  | 0, _ => none
  | fuel + 1, o =>
    if n < o + 4 then none
    else if isLast b o then some (o, true)
    else
      let e := readEntry b o
      if k ≤ e.key ∧ (sorted ∨ k = e.key) then some (o, k ≠ e.key)
      else findEntry sorted k b fuel (o + e.len)

def scanEntries (b : Block n) : ℕ → ℕ → ℕ → Option (ℕ × ℕ)
  | 0, _, _ => none
  | fuel + 1, o, minOffs =>
    if n < o + 4 then none
    else if isLast b o then some (minOffs, o)
    else
      let e := readEntry b o
      scanEntries b fuel (o + e.len)
        (if e.Stored ∧ e.valueOffs < minOffs then e.valueOffs else minOffs)

/-- The loop that adjusts the value offsets after a value at `offs` has been removed. -/
def adjustOffs (offs oldSize : ℕ) : ℕ → ℕ → Block n → Option (Block n)
  | 0, _, _ => none
  | fuel + 1, o, b =>
    if n < o + 4 then none
    else if isLast b o then some b
    else
      let e := readEntry b o
      (if e.Stored ∧ e.valueOffs < offs then b.putLe (o + 2) 2 (e.valueOffs + oldSize)
        else some b).bind (adjustOffs offs oldSize fuel (o + e.len))

/-- `ext4_xattr_hash_entry`; characters are signed. -/
def hashEntry (name : List (BitVec 8)) (value : List (BitVec 32)) : BitVec 32 :=
  let hash := name.foldl (fun (h : BitVec 32) c => (h <<< 5) ^^^ (h >>> 27) ^^^ c.signExtend 32) 0
  value.foldl (fun h w => (h <<< 16) ^^^ (h >>> 16) ^^^ w) hash

/-- The loop of `ext4_xattr_rehash`. -/
def rehashLoop (b : Block n) : ℕ → ℕ → BitVec 32 → Option (BitVec 32)
  | 0, _, _ => none
  | fuel + 1, o, hash =>
    if n < o + 4 then none
    else if isLast b o then some hash
    else
      let e := readEntry b o
      if e.hash = 0 then some 0
      else
        rehashLoop b fuel (o + e.len)
          ((hash <<< 16) ^^^ (hash >>> 16) ^^^ BitVec.ofNat 32 e.hash)

/-- `ext4_xattr_rehash`; `h_hash` is at offset 12. -/
def rehash (first : ℕ) (b : Block n) : Option (Block n) :=
  (rehashLoop b n first 0).bind fun hash => b.putLe 12 4 hash.toNat

end

/-- A new value; `zero` is `EXT4_ZERO_XATTR_VALUE`. -/
inductive Value where
  | zero (len : ℕ)
  | bytes (l : List (BitVec 8))
  deriving DecidableEq

namespace Value

def length : Value → ℕ
  | zero len => len
  | bytes l => l.length

def content : Value → List (BitVec 8)
  | zero len => List.replicate len 0
  | bytes l => l

/-- The value is stored at `val` and padded with zeros. -/
def store {n : ℕ} (v : Value) (val newSize : ℕ) (b : Block n) : Option (Block n) :=
  match v with
  | zero _ => b.clear val newSize
  | bytes l => (b.store val l).bind fun b => b.clear (val + l.length) (newSize - l.length)

end Value

/-- `ext4_xattr_info`; the handlers have indices below 256, and names are not longer than 255. -/
structure Info where
  nameIndex : ℕ
  name : List (BitVec 8)
  value : Option Value
  inInode : Bool
  nameIndex_lt : nameIndex < 256
  name_length : name.length < 256

namespace Info

def key (i : Info) : NameKey := nameKey i.nameIndex i.name

def nameLen (i : Info) : ℕ := xattrLen i.name.length

def newSize (i : Info) : ℕ :=
  match i.value with
  | none => 0
  | some v => if i.inInode then 0 else xattrSize v.length

end Info

/-- The calls for values in inodes of their own: an inode of an old value is taken and released,
that of a new value is found or created. -/
structure EaCalls where
  inodeIget : ℕ → ℤ
  inodeDecRef : ℕ → ℤ
  allocQuota : ℕ → ℤ
  lookupCreate : List (BitVec 8) → Except ℤ (ℕ × BitVec 32)

def newEaInode (ea : EaCalls) (i : Info) : Except ℤ (Option (ℕ × BitVec 32)) :=
  match i.value with
  | none => .ok none
  | some v =>
    if i.inInode = false then .ok none
    else if ea.allocQuota v.length ≠ 0 then .error (ea.allocQuota v.length)
    else (ea.lookupCreate v.content).map some

def prepareEa (ea : EaCalls) (i : Info) (notFound : Bool) (h : Entry) :
    Except ℤ (Option (ℕ × BitVec 32)) :=
  if notFound = false ∧ h.valueInum ≠ 0 then
    if ea.inodeIget h.valueInum ≠ 0 then .error (ea.inodeIget h.valueInum)
    else do
      let new ← newEaInode ea i
      if ea.inodeDecRef h.valueInum ≠ 0 then .error (ea.inodeDecRef h.valueInum) else .ok new
  else newEaInode ea i

section

variable {n : ℕ}

def noSpace (A : Area) (i : Info) (notFound : Bool) (oldSize minOffs last : ℕ) : Bool :=
  let free := sub64 (sub64 minOffs last) 4
  let free := if notFound then free else free + (i.nameLen + oldSize)
  i.value.isSome ∧
    (free < i.nameLen + i.newSize ∨
      (A.eaInode ∧ i.newSize ≠ 0 ∧ A.isBlock ∧
        sub64 (minOffs + oldSize) i.newSize < min (A.size / 8) 1024))

def replaceValue (i : Info) (here offs : ℕ) (b : Block n) : Option (Block n) :=
  match i.value with
  | none => some b
  | some v => (b.putLe (here + 8) 4 v.length).bind (v.store offs i.newSize)

/-- Remove the old value and adjust all value offsets; returns the new `min_offs`. -/
def removeValue (first offs oldSize minOffs : ℕ) (b : Block n) : Option (ℕ × Block n) := do
  let b ← b.move (minOffs + oldSize) minOffs (sub64 offs minOffs)
  let b ← b.clear minOffs oldSize
  let b ← adjustOffs offs oldSize n first b
  some (minOffs + oldSize, b)

def changeName (i : Info) (here last : ℕ) (notFound : Bool) (b : Block n) : Option (Block n) :=
  if i.value.isNone then do
    let last := sub64 last i.nameLen
    let b ← b.move here (here + i.nameLen) ((sub64 last here + 4) % 2 ^ 64)
    b.clear last i.nameLen
  else if notFound then do
    let b ← b.move (here + i.nameLen) here (sub64 last here + 4)
    let b ← b.clear here i.nameLen
    let b ← b.putLe (here + 1) 1 i.nameIndex
    let b ← b.putLe here 1 i.name.length
    b.store (here + 16) i.name
  else do
    let b ← b.putLe (here + 4) 4 0
    let b ← b.putLe (here + 2) 2 0
    b.putLe (here + 8) 4 0

def insertValue (i : Info) (here minOffs : ℕ) (newEa : Option (ℕ × BitVec 32)) (b : Block n) :
    Option (Block n) :=
  match i.value with
  | none => some b
  | some v => do
    let b ←
      (match newEa with
      | some new => b.putLe (here + 4) 4 new.1
      | none =>
        if v.length = 0 then some b
        else do
          let b ← b.putLe (here + 2) 2 (sub64 minOffs i.newSize)
          v.store (sub64 minOffs i.newSize) i.newSize b)
    b.putLe (here + 8) 4 v.length

def valueWords (b : Block n) (o count : ℕ) : List (BitVec 32) :=
  (List.range count).map fun j => BitVec.ofNat 32 (b.le (o + 4 * j) 4)

/-- The code from `update_hash` on. -/
def updateHash (A : Area) (i : Info) (here : ℕ) (newEa : Option (ℕ × BitVec 32))
    (b : Block A.size) : Option (ℤ × Block A.size) := do
  let e := readEntry b here
  let hash : BitVec 32 :=
    match newEa with
    | some new => hashEntry e.name [new.2]
    | none =>
      if A.isBlock then hashEntry e.name (valueWords b e.valueOffs (i.newSize / 4)) else 0
  let b ← (if i.value.isSome then b.putLe (here + 12) 4 hash.toNat else some b)
  let b ← (if A.isBlock then rehash A.first b else some b)
  some (0, b)

def setEntry (A : Area) (ea : EaCalls) (i : Info) (here : ℕ) (notFound : Bool)
    (b : Block A.size) : Option (ℤ × Block A.size) :=
  let h := readEntry b here
  let oldSize := if notFound = false ∧ h.valueInum = 0 then xattrSize32 h.valueSize else 0
  if i.newSize ≠ 0 ∧ i.newSize = oldSize then
    (replaceValue i here h.valueOffs b).bind (updateHash A i here none)
  else do
    let scan ← scanEntries b A.size A.first A.size
    if noSpace A i notFound oldSize scan.1 scan.2 then some (eNospc, b)
    else
      match prepareEa ea i notFound h with
      | .error err => some (err, b)
      | .ok newEa => do
        let moved ←
          (if notFound = false ∧ h.valueOffs ≠ 0 then
            removeValue A.first h.valueOffs oldSize scan.1 b
          else some (scan.1, b))
        let b ← changeName i here scan.2 notFound moved.2
        let b ← insertValue i here moved.1 newEa b
        updateHash A i here newEa b

end

end VMsep.Ext4.Xattr
