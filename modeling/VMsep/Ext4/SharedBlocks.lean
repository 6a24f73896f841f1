import VMsep.Lib.Transition
import Mathlib.Algebra.BigOperators.Group.Finset.Basic

/-! `ext4_xattr_block_set`, `ext4_xattr_release_block` and the inserts of readers into the cache of
attribute blocks, as calls on inodes whose sections interleave. A section under a buffer lock is one
step, and `xattr_sem` excludes other calls on the same inode. -/

namespace VMsep.Ext4.Shared

/-- `EXT4_XATTR_REFCOUNT_MAX`. -/
def refcountMax : ℕ := 1024

structure Entries (κ : Type*) where
  /-- `h_hash`. -/
  hash : κ → ℕ
  /-- `IS_LAST_ENTRY` of the first entry. -/
  isLast : κ → Bool
  /-- `ext4_xattr_cmp` returns 0. -/
  cmp : κ → κ → Bool
  /-- The entries of a new block. -/
  blank : κ

/-- An attribute block: its `h_refcount` and the rest. -/
structure Buf (κ : Type*) where
  refcount : ℕ
  body : κ

/-- `mb_cache_entry`; an entry that is deleted and created again is another object. -/
structure CacheEntry where
  id : ℕ
  hash : ℕ
  block : ℕ
  reusable : Bool
  deriving DecidableEq

/-- What `ext4_xattr_block_cache_insert` has read from a block. -/
structure Insert where
  block : ℕ
  hash : ℕ
  reusable : Bool
  deriving DecidableEq

/-- Where a call on an inode is. A change of the entries by `ext4_xattr_set_entry` is a function
with no result if it fails. -/
inductive Call (κ : Type*) where
  | idle
  /-- `ext4_xattr_block_set` before its first section. -/
  | set (upd : κ → Option κ)
  /-- The block is shared and will be copied. -/
  | clone (upd : κ → Option κ)
  /-- At the label `inserted`, with the entries and whether they were changed in place. -/
  | inserted (base : κ) (inPlace : Bool)
  /-- An entry of the cache has been found, its block will be compared. -/
  | found (base : κ) (inPlace : Bool) (ce : CacheEntry)
  /-- The block of the entry will be locked. -/
  | reuse (base : κ) (inPlace : Bool) (ce : CacheEntry)
  /-- There is no block to share and a new one will be allocated. -/
  | allocate (base : κ)
  /-- `ext4_xattr_block_cache_insert` of the block that the inode will get. -/
  | insert (block : ℕ)
  | create (p : Insert)
  /-- `i_file_acl` will be set. -/
  | update (new : Option ℕ)
  /-- `ext4_xattr_release_block`, after an update or for an inode that is deleted. -/
  | release (block : ℕ) (deleting : Bool)
  /-- The lock has been dropped, `ext4_free_blocks` comes next. -/
  | freeing (block : ℕ) (deleting : Bool)
  /-- `i_file_acl` of a deleted inode will be cleared. -/
  | clear

namespace Call

variable {κ : Type*}

def isIdle : Call κ → Bool
  | idle => true
  | _ => false

def between : Call κ → Bool
  | idle => false
  | set _ => false
  | release _ true => false
  | _ => true

/-- The references to `b` that an inode with this `i_file_acl` holds in this state of its call. -/
def held (acl : Option ℕ) (b : ℕ) : Call κ → ℕ
  | insert n | create ⟨n, _, _⟩ | update (some n) =>
    (if acl = some b then 1 else 0) + (if n = b ∧ acl ≠ some b then 1 else 0)
  | release old false => (if acl = some b then 1 else 0) + (if old = b then 1 else 0)
  | freeing _ true | clear => 0
  | _ => if acl = some b then 1 else 0

end Call

structure State (ι κ : Type*) where
  /-- The attribute blocks. -/
  bufs : ℕ → Option (Buf κ)
  /-- `i_file_acl`. -/
  acl : ι → Option ℕ
  calls : ι → Call κ
  /-- The inserts that readers of an inode have begun. -/
  readers : List (ι × Insert)
  cache : List CacheEntry
  nextId : ℕ

variable {ι κ : Type*} [DecidableEq ι]

namespace State

def setCall (x : ι) (c : Call κ) (s : State ι κ) : State ι κ :=
  { s with calls := Function.update s.calls x c }

def setBuf (b : ℕ) (buf : Option (Buf κ)) (s : State ι κ) : State ι κ :=
  { s with bufs := Function.update s.bufs b buf }

def setAcl (x : ι) (b : Option ℕ) (s : State ι κ) : State ι κ :=
  { s with acl := Function.update s.acl x b }

/-- `mb_cache_entry_create`, without effect if there is such an entry. -/
def cacheCreate (p : Insert) (s : State ι κ) : State ι κ :=
  if s.cache.any fun e => e.hash = p.hash ∧ e.block = p.block then s
  else
    { s with
      cache := ⟨s.nextId, p.hash, p.block, p.reusable⟩ :: s.cache
      nextId := s.nextId + 1 }

/-- `mb_cache_entry_delete`. -/
def cacheDelete (hash block : ℕ) (s : State ι κ) : State ι κ :=
  { s with cache := s.cache.filter fun e => ¬ (e.hash = hash ∧ e.block = block) }

/-- `e_reusable` of the entry is set. -/
def cacheReusable (hash block : ℕ) (s : State ι κ) : State ι κ :=
  { s with
    cache := s.cache.map fun e =>
      if e.hash = hash ∧ e.block = block then { e with reusable := true } else e }

/-- `e_reusable` of an object is cleared. -/
def cacheFull (id : ℕ) (s : State ι κ) : State ι κ :=
  { s with cache := s.cache.map fun e => if e.id = id then { e with reusable := false } else e }

/-- No call holds the `xattr_sem` of the inode. -/
def unlocked (x : ι) (s : State ι κ) : Bool :=
  (s.calls x).isIdle && s.readers.all fun r => r.1 ≠ x

end State

/-- What `ext4_xattr_block_cache_insert` reads. -/
def readInsert (ops : Entries κ) (b : ℕ) (buf : Buf κ) : Insert :=
  ⟨b, ops.hash buf.body, buf.refcount < refcountMax⟩

/-- The first section of `ext4_xattr_block_set`. -/
def setSection (ops : Entries κ) (x : ι) (upd : κ → Option κ) (s : State ι κ) :
    Option (State ι κ) :=
  match s.acl x with
  | none =>
    match upd ops.blank with
    | none => some (s.setCall x .idle)
    | some base => some (s.setCall x (.inserted base false))
  | some b =>
    (s.bufs b).map fun buf =>
      if buf.refcount = 1 then
        let s := s.cacheDelete (ops.hash buf.body) b
        match upd buf.body with
        | none => s.setCall x .idle
        | some base => (s.setBuf b (some { buf with body := base })).setCall x (.inserted base true)
      else s.setCall x (.clone upd)

def cloneSection (x : ι) (upd : κ → Option κ) (s : State ι κ) : Option (State ι κ) :=
  (s.acl x).bind fun b =>
    (s.bufs b).map fun buf =>
      match upd buf.body with
      | none => s.setCall x .idle
      | some base => s.setCall x (.inserted base false)

def reuseSection (x : ι) (base : κ) (inPlace : Bool) (ce : CacheEntry) (s : State ι κ) :
    Option (State ι κ) :=
  match s.cache.find? fun e => e.id = ce.id with
  | none => some (s.setCall x (.inserted base inPlace))
  | some e =>
    if e.reusable = false then some (s.setCall x (.inserted base inPlace))
    else
      (s.bufs ce.block).map fun buf =>
        let ref := buf.refcount + 1
        let s := s.setBuf ce.block (some { buf with refcount := ref })
        let s := if ref ≥ refcountMax then s.cacheFull ce.id else s
        s.setCall x (.update (some ce.block))

def updateSection (x : ι) (new : Option ℕ) (s : State ι κ) : State ι κ :=
  match s.acl x with
  | none => (s.setAcl x new).setCall x .idle
  | some old =>
    if new = some old then (s.setAcl x new).setCall x .idle
    else (s.setAcl x new).setCall x (.release old false)

/-- Behind `ext4_xattr_release_block`. -/
def released (x : ι) (deleting : Bool) (s : State ι κ) : State ι κ :=
  s.setCall x (if deleting then .clear else .idle)

/-- The locked section of `ext4_xattr_release_block`. -/
def releaseSection (ops : Entries κ) (x : ι) (b : ℕ) (deleting : Bool) (s : State ι κ) :
    Option (State ι κ) :=
  (s.bufs b).map fun buf =>
    if buf.refcount = 1 then
      (s.cacheDelete (ops.hash buf.body) b).setCall x (.freeing b deleting)
    else
      let ref := buf.refcount - 1
      let s := s.setBuf b (some { buf with refcount := ref })
      let s := if ref = refcountMax - 1 then s.cacheReusable (ops.hash buf.body) b else s
      released x deleting s

def runSection (ops : Entries κ) (x : ι) (s : State ι κ) : Option (State ι κ) :=
  match s.calls x with
  | .set upd => setSection ops x upd s
  | .clone upd => cloneSection x upd s
  | .inserted base _ => if ops.isLast base then some (s.setCall x (.update none)) else none
  | .reuse base inPlace ce => reuseSection x base inPlace ce s
  | .insert b => (s.bufs b).map fun buf => s.setCall x (.create (readInsert ops b buf))
  | .create p => some ((s.cacheCreate p).setCall x (.update (some p.block)))
  | .update new => some (updateSection x new s)
  | .release b deleting => releaseSection ops x b deleting s
  | .freeing b deleting => some (released x deleting (s.setBuf b none))
  | .clear => some ((s.setAcl x none).setCall x .idle)
  | _ => none

/-- `mb_cache_entry_find_first` and `mb_cache_entry_find_next` return an entry with the hash, or
none. -/
def findSection (ops : Entries κ) (x : ι) (id : Option ℕ) (s : State ι κ) : Option (State ι κ) :=
  match s.calls x with
  | .inserted base inPlace =>
    if ops.isLast base then none
    else
      match id with
      | some id =>
        (s.cache.find? fun e => e.id = id).bind fun e =>
          if ops.hash base ≠ 0 ∧ e.hash = ops.hash base ∧ e.reusable = true then
            some (s.setCall x (.found base inPlace e))
          else none
      | none =>
        if inPlace then (s.acl x).map fun b => s.setCall x (.insert b)
        else some (s.setCall x (.allocate base))
  | _ => none

/-- `ext4_xattr_cmp` without the lock. If the entry of the block has been deleted, the block may
have been changed or freed meanwhile and the result may be anything. -/
def compareSection (ops : Entries κ) (x : ι) (equal : Bool) (s : State ι κ) : Option (State ι κ) :=
  match s.calls x with
  | .found base inPlace ce =>
    if (s.cache.any fun e => e.id = ce.id) ∧
        (s.bufs ce.block).map (fun buf => ops.cmp base buf.body) ≠ some equal then none
    else if equal = false then some (s.setCall x (.inserted base inPlace))
    else if s.acl x = some ce.block then some (s.setCall x (.update (some ce.block)))
    else some (s.setCall x (.reuse base inPlace ce))
  | _ => none

def allocateSection (x : ι) (b : ℕ) (s : State ι κ) : Option (State ι κ) :=
  match s.calls x with
  | .allocate base =>
    if (s.bufs b).isSome then none
    else some ((s.setBuf b (some ⟨1, base⟩)).setCall x (.insert b))
  | _ => none

inductive Action (ι κ : Type*) where
  | beginSet (x : ι) (upd : κ → Option κ)
  /-- `ext4_xattr_release_block` for an inode that is deleted. -/
  | beginDelete (x : ι)
  | run (x : ι)
  | find (x : ι) (id : Option ℕ)
  | compare (x : ι) (equal : Bool)
  | allocate (x : ι) (b : ℕ)
  /-- A reader of the inode begins an insert. -/
  | read (x : ι)
  | readerCreate (x : ι) (p : Insert)

def step (ops : Entries κ) (s : State ι κ) : Action ι κ → Option (State ι κ)
  | .beginSet x upd => if s.unlocked x then some (s.setCall x (.set upd)) else none
  | .beginDelete x =>
    if s.unlocked x then (s.acl x).map fun b => s.setCall x (.release b true) else none
  | .run x => runSection ops x s
  | .find x id => findSection ops x id s
  | .compare x equal => compareSection ops x equal s
  | .allocate x b => allocateSection x b s
  | .read x =>
    if (s.calls x).isIdle then
      (s.acl x).bind fun b =>
        (s.bufs b).map fun buf => { s with readers := (x, readInsert ops b buf) :: s.readers }
    else none
  | .readerCreate x p =>
    if (x, p) ∈ s.readers then
      some ({ s with readers := s.readers.erase (x, p) }.cacheCreate p)
    else none

end VMsep.Ext4.Shared
