import VMsep.Jbd2.Buffers
import VMsep.Jbd2.Journal

/-! `do_get_write_access`, `get_create_access`, `dirty_metadata` and `forget` for a handle of
transaction `t`, and `write_metadata_buffer` and the end of a buffer's commit for the committing
transaction. `running` and `committing` are `j_running_transaction` and
`j_committing_transaction`. -/

namespace VMsep.Jbd2

/-- How a pass through the locked section of `do_get_write_access` ends: the loop goes round
again, with or without a buffer for the frozen data, or the function goes on or fails. -/
inductive AccessResult where
  | again (frozenBuffer : Bool)
  | done
  | error
  deriving DecidableEq

/-- The result of `dirty_metadata` and whether a credit of the handle was used. -/
structure DirtyResult where
  err : Option Errno
  credit : Bool
  deriving DecidableEq

namespace BufferHead

/-- `buffer_dirty` found in `do_get_write_access`: clear it and set `BH_JBDDirty`. -/
def journalDirty (x : BufferHead) : BufferHead :=
  { x with dirty := false, jbddirty := x.jbddirty || x.dirty }

/-- `jh->b_next_transaction = transaction`. -/
def attachNext (x : BufferHead) (t : ℕ) : BufferHead :=
  x.mapJh fun jh => { jh with bNextTransaction := some t }

/-- `jbd2_freeze_jh_data`. -/
def freeze (x : BufferHead) : BufferHead :=
  x.mapJh fun jh => { jh with bFrozenData := some x.bData }

/-- One pass through the locked section of `do_get_write_access`. -/
def doGetWriteAccess (aborted : Bool) (t : ℕ) (committing : Option ℕ) (frozenBuffer : Bool)
    (x : BufferHead) : Option (BufferHead × AccessResult) :=
  match x.bPrivate with
  | none => none
  | some jh =>
    if x.dirty ∧ jh.bTransaction ≠ none ∧
        ((jh.bTransaction ≠ some t ∧ jh.bTransaction ≠ committing) ∨
          (jh.bNextTransaction ≠ none ∧ jh.bNextTransaction ≠ some t)) then none
    else if aborted then some (x.journalDirty, .error)
    else if jh.bTransaction = some t ∨ jh.bNextTransaction = some t then
      some (x.journalDirty, .done)
    else
      let y := x.journalDirty.mapJh fun jh => { jh with bModified := false }
      if jh.bNextTransaction ≠ none then none
      else
        match jh.bTransaction with
        | none => (y.fileBuffer aborted t .reserved).map fun z => (z, .done)
        | some u =>
          if jh.bFrozenData ≠ none then some (y.attachNext t, .done)
          else if committing ≠ some u then none
          else if x.shadow then some (y, .again frozenBuffer)
          else if jh.bJlist = .metadata then
            if frozenBuffer then some (y.freeze.attachNext t, .done) else some (y, .again true)
          else some (y.attachNext t, .done)

/-- The locked section of `jbd2_vmsep_journal_get_create_access`, for a block that was just
allocated, and whether the function goes on. -/
def getCreateAccess (aborted : Bool) (t : ℕ) (committing : Option ℕ) (x : BufferHead) :
    Option (BufferHead × Bool) :=
  if aborted then some (x, false)
  else
    match x.bPrivate with
    | none => none
    | some jh =>
      let y := x.mapJh fun jh => { jh with bModified := false }
      if jh.bNextTransaction ≠ none then none
      else
        match jh.bTransaction with
        | none =>
          (fileBuffer aborted t .reserved { y with dirty := false }).map fun z => (z, true)
        | some u =>
          if u ≠ t ∧ (committing ≠ some u ∨ jh.bJlist ≠ .forget) then none
          else some (if committing = some u then y.attachNext t else x, true)

/-- The buffer belongs to transaction `t` or is claimed by it. -/
def accessible (t : ℕ) (x : BufferHead) : Bool :=
  match x.bPrivate with
  | none => false
  | some jh => jh.bTransaction == some t || jh.bNextTransaction == some t

def writeAccessGranted (t : ℕ) (x : BufferHead) : Bool := !x.dirty && x.accessible t

/-- `jbd2_vmsep_journal_dirty_metadata` by a handle with `credits` left. -/
def dirtyMetadata (aborted : Bool) (t : ℕ) (running committing : Option ℕ) (credits ino : ℕ)
    (x : BufferHead) : Option (BufferHead × DirtyResult) :=
  if aborted then some (x, ⟨some .erofs, false⟩)
  else
    match x.bPrivate with
    | none => some (x, ⟨some .euclean, false⟩)
    | some jh =>
      if jh.bTransaction ≠ some t ∧ jh.bNextTransaction ≠ some t then none
      else if jh.bModified then
        if jh.bTransaction = some t ∧ jh.bJlist ≠ .metadata then none
        else some (x, ⟨none, false⟩)
      else
        let y := x.mapJh fun jh => { jh with bModified := true }
        if credits = 0 then some (y, ⟨some .enospc, false⟩)
        else if jh.bTransaction = some t ∧ jh.bJlist = .metadata then
          some (y, ⟨if running = some t then none else some .einval, true⟩)
        else
          let z := { y.mapJh fun jh => { jh with ino := ino } with jbddirty := true }
          if jh.bTransaction ≠ some t then
            some (z, ⟨if jh.bTransaction = committing ∧ jh.bNextTransaction = some t then none
              else some .einval, true⟩)
          else if jh.bFrozenData ≠ none then none
          else (z.fileBuffer aborted t .metadata).map fun w => (w, ⟨none, true⟩)

/-- The end of `write_metadata_buffer`: the buffer goes to `BJ_Shadow`. -/
def fileShadow (aborted : Bool) (t : ℕ) (x : BufferHead) : Option BufferHead :=
  (x.fileBuffer aborted t .shadow).map fun y => { y with shadow := true }

/-- `jbd2_vmsep_journal_write_metadata_buffer`. The second component says whether the block was
escaped; it is `none` when the lock has to be dropped to allocate the copy. -/
def writeMetadataBuffer (aborted : Bool) (t : ℕ) (x : BufferHead) :
    Option (BufferHead × Option Bool) :=
  match x.bPrivate with
  | none => none
  | some jh =>
    if !x.jbddirty then none
    else
      match jh.bFrozenData with
      | some c =>
        if c.word = jbd2MagicNumber then
          ((x.mapJh fun jh => { jh with bFrozenData := some { c with word := 0 } }).fileShadow
            aborted t).map fun y => (y, some true)
        else (x.fileShadow aborted t).map fun y => (y, some false)
      | none =>
        if x.bData.word = jbd2MagicNumber then some (x, none)
        else (x.fileShadow aborted t).map fun y => (y, some false)

/-- `write_metadata_buffer` after the copy has been allocated. -/
def writeEscapedCopy (aborted : Bool) (t : ℕ) (x : BufferHead) : Option BufferHead :=
  match x.bPrivate with
  | none => none
  | some jh =>
    let c := jh.bFrozenData.getD x.bData
    (x.mapJh fun jh => { jh with bFrozenData := some { c with word := 0 } }).fileShadow aborted t

/-- The body of the loop over `t_forget`, apart from the checkpoint lists. -/
def commitForget (aborted running : Bool) (t : ℕ) (x : BufferHead) : Option BufferHead :=
  match x.bPrivate with
  | none => none
  | some jh =>
    if jh.bTransaction ≠ some t then none
    else
      match (x.mapJh fun jh => { jh with bFrozenData := none }).removeCheckpoint with
      | none => none
      | some y =>
        if y.jbddirty then
          match y.insertCheckpoint t with
          | none => none
          | some z => refileBuffer aborted running { z with jbddirty := !aborted }
        else if y.dirty then none
        else y.refileBuffer aborted running

end BufferHead

namespace Memory

/-- `jbd2_vmsep_journal_forget`; the second component says whether the credit of the buffer goes
back to the handle. -/
def journalForget (m : Memory) (aborted : Bool) (t : ℕ) (committing : Option ℕ) (b : ℕ) :
    Option (Memory × Bool) :=
  let x := m.bufs b
  if aborted then some (m, false)
  else
    match x.bPrivate with
    | none => some (m, false)
    | some jh =>
      let y := x.mapJh fun jh => { jh with bModified := false }
      if jh.bTransaction = some t then
        if jh.bFrozenData ≠ none then none
        else
          let z := { y with dirty := false, jbddirty := false }
          let m' :=
            if jh.bCpTransaction ≠ none then
              ((z.tempUnlinkBuffer aborted).map (m.put b)).bind fun m =>
                m.apply b (BufferHead.fileBuffer aborted t .forget)
            else (z.unfileBuffer aborted).map (m.put b)
          m'.map fun m => (m, jh.bModified)
      else
        match jh.bTransaction with
        | none => some (m.put b y, false)
        | some u =>
          if committing ≠ some u then none
          else
            match jh.bNextTransaction with
            | none => some (m.put b y, false)
            | some r =>
              if r ≠ t then none
              else
                some (m.put b (y.mapJh fun jh => { jh with bNextTransaction := none }),
                  jh.bModified)

def unfileBuffer (m : Memory) (aborted : Bool) (b : ℕ) : Option Memory :=
  m.apply b (BufferHead.unfileBuffer aborted)

def fileBuffer (m : Memory) (aborted : Bool) (b t : ℕ) (jlist : Jlist) : Option Memory :=
  m.apply b (BufferHead.fileBuffer aborted t jlist)

def refileBuffer (m : Memory) (aborted running : Bool) (b : ℕ) : Option Memory :=
  m.apply b (BufferHead.refileBuffer aborted running)

end Memory

end VMsep.Jbd2
