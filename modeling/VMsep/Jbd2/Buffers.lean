import VMsep.Lib.Filing
import Mathlib.Data.Int.Notation

/-! A `buffer_head` with its `journal_head`, and the functions that file buffers on the lists of
transactions. A function on one buffer returns `none` where an assertion of the source fails or a
`journal_head` that is not there is used. `aborted` is `is_journal_aborted`. -/

namespace VMsep.Jbd2

/-- The contents of a block: its first word, where a magic number has to be escaped, and the
rest. `hist` records the handles that modified it and their transactions. -/
structure Content where
  word : BitVec 32
  rest : List (BitVec 8)
  hist : List (ℕ × ℕ)
  deriving DecidableEq

/-- `JBD2_MAGIC_NUMBER`. -/
def jbd2MagicNumber : BitVec 32 := 0xc03b3998#32

/-- The lists of a transaction a buffer can be on: `BJ_None`, `BJ_Metadata`, `BJ_Forget`,
`BJ_Shadow` and `BJ_Reserved`. -/
inductive Jlist where
  | none
  | metadata
  | forget
  | shadow
  | reserved
  deriving DecidableEq

structure JournalHead where
  bJcount : ℕ
  bJlist : Jlist
  bModified : Bool
  bFrozenData : Option Content
  bTransaction : Option ℕ
  bNextTransaction : Option ℕ
  bCpTransaction : Option ℕ
  ino : ℕ
  deriving DecidableEq

/-- `kmem_cache_zalloc` for a `journal_head`. -/
def JournalHead.zero : JournalHead :=
  { bJcount := 0, bJlist := .none, bModified := false, bFrozenData := none,
    bTransaction := none, bNextTransaction := none, bCpTransaction := none, ino := 0 }

/-- A buffer; `bPrivate` is its `journal_head`, present while `BH_JBD` is set. -/
structure BufferHead where
  bData : Content
  dirty : Bool
  jbddirty : Bool
  shadow : Bool
  bPrivate : Option JournalHead
  deriving DecidableEq

namespace BufferHead

def place (x : BufferHead) : Option (ℕ × Jlist) :=
  match x.bPrivate with
  | none => none
  | some jh => if jh.bJlist = .none then none else jh.bTransaction.map fun t => (t, jh.bJlist)

/-- Change the `journal_head`. -/
def mapJh (x : BufferHead) (f : JournalHead → JournalHead) : BufferHead :=
  { x with bPrivate := x.bPrivate.map f }

def addJournalHead (x : BufferHead) : BufferHead :=
  let jh := x.bPrivate.getD .zero
  { x with bPrivate := some { jh with bJcount := jh.bJcount + 1 } }

/-- `jbd2_vmsep_journal_put_journal_head`; the last reference frees the `journal_head`. -/
def putJournalHead (x : BufferHead) : Option BufferHead :=
  match x.bPrivate with
  | none => none
  | some jh =>
    if jh.bJcount = 0 then none
    else if jh.bJcount = 1 then
      if jh.bTransaction ≠ none ∨ jh.bNextTransaction ≠ none ∨ jh.bCpTransaction ≠ none ∨
          jh.bJlist ≠ .none then none
      else some { x with bPrivate := none }
    else some { x with bPrivate := some { jh with bJcount := jh.bJcount - 1 } }

/-- `__jbd2_journal_temp_unlink_buffer`: off its list, with `BH_JBDDirty` turned into
`BH_Dirty`. -/
def tempUnlinkBuffer (aborted : Bool) (x : BufferHead) : Option BufferHead :=
  match x.bPrivate with
  | none => none
  | some jh =>
    if jh.bJlist = .none then some x
    else if jh.bTransaction = none then none
    else
      some { x with
        dirty := x.dirty || (x.jbddirty && !aborted)
        jbddirty := false
        bPrivate := some { jh with bJlist := .none } }

def unfileBuffer (aborted : Bool) (x : BufferHead) : Option BufferHead :=
  match x.tempUnlinkBuffer aborted with
  | none => none
  | some y => putJournalHead (y.mapJh fun jh => { jh with bTransaction := none })

/-- `__jbd2_vmsep_journal_file_buffer` with a list other than `BJ_None`. When `BH_Dirty` is set
the test of `BH_JBDDirty` is not reached and that bit stays. -/
def fileBuffer (aborted : Bool) (t : ℕ) (jlist : Jlist) (x : BufferHead) : Option BufferHead :=
  match x.bPrivate with
  | none => none
  | some jh =>
    if jh.bTransaction ≠ none ∧ jh.bTransaction ≠ some t then none
    else if jh.bTransaction = some t ∧ jh.bJlist = jlist then some x
    else
      let wasDirty := x.dirty || x.jbddirty
      let y := { x with dirty := false, jbddirty := x.dirty && x.jbddirty }
      let z :=
        if jh.bTransaction = some t then y.tempUnlinkBuffer aborted
        else some y.addJournalHead
      z.map fun z =>
        { z.mapJh fun jh => { jh with bTransaction := some t, bJlist := jlist } with
          jbddirty := z.jbddirty || wasDirty }

/-- `__jbd2_vmsep_journal_refile_buffer`; `running` says that the next transaction is in
`T_RUNNING`. -/
def refileBuffer (aborted running : Bool) (x : BufferHead) : Option BufferHead :=
  match x.bPrivate with
  | none => none
  | some jh =>
    match jh.bNextTransaction with
    | none => x.unfileBuffer aborted
    | some r =>
      match tempUnlinkBuffer aborted { x with jbddirty := false } with
      | none => none
      | some y =>
        let z := y.mapJh fun jh => { jh with bTransaction := some r, bNextTransaction := none }
        match z.fileBuffer aborted r (if jh.bModified then .metadata else .reserved) with
        | none => none
        | some w =>
          if running then some { w with jbddirty := w.jbddirty || x.jbddirty } else none

/-- `__jbd2_vmsep_journal_insert_checkpoint`, apart from the list. -/
def insertCheckpoint (t : ℕ) (x : BufferHead) : Option BufferHead :=
  match x.bPrivate with
  | none => none
  | some jh =>
    if (!x.dirty && !x.jbddirty) ∨ jh.bCpTransaction ≠ none then none
    else
      let jh := { jh with bJcount := jh.bJcount + 1, bCpTransaction := some t }
      some { x with bPrivate := some jh }

/-- `__jbd2_vmsep_journal_remove_checkpoint`, apart from the list. -/
def removeCheckpoint (x : BufferHead) : Option BufferHead :=
  match x.bPrivate with
  | none => none
  | some jh =>
    if jh.bCpTransaction = none then some x
    else putJournalHead { x with bPrivate := some { jh with bCpTransaction := none } }

variable {x x' : BufferHead} {k : JournalHead} {aborted : Bool} {t : ℕ} {l : Jlist}

theorem place_eq_some (hp : x.bPrivate = some k) (ht : k.bTransaction = some t)
    (hl : k.bJlist ≠ .none) : x.place = some (t, k.bJlist) := by
  simp [place, hp, ht, hl]

theorem place_cases (h : x.place = some (t, l)) :
    ∃ k, x.bPrivate = some k ∧ k.bTransaction = some t ∧ k.bJlist = l ∧ l ≠ .none := by
  unfold place at h
  split at h
  · cases h
  rename_i k hk
  split_ifs at h with hl
  obtain ⟨u, hu, heq⟩ := Option.map_eq_some_iff.mp h
  cases heq
  exact ⟨k, hk, hu, rfl, hl⟩

theorem unfileBuffer_eq (hp : x.bPrivate = some k) (ht : k.bTransaction ≠ none)
    (hl : k.bJlist ≠ .none) : x.unfileBuffer aborted =
      putJournalHead { x with
        dirty := x.dirty || (x.jbddirty && !aborted)
        jbddirty := false
        bPrivate := some { k with bJlist := .none, bTransaction := none } } := by
  simp [unfileBuffer, tempUnlinkBuffer, mapJh, hp, ht, hl]

theorem fileBuffer_new (hp : x.bPrivate = some k) (ht : k.bTransaction = none) :
    x.fileBuffer aborted t l =
      some { x with
        dirty := false
        jbddirty := x.dirty || x.jbddirty
        bPrivate :=
          some { k with bJcount := k.bJcount + 1, bTransaction := some t, bJlist := l } } := by
  simp only [fileBuffer, hp, ht, addJournalHead, mapJh]
  cases x.dirty <;> cases x.jbddirty <;> simp

theorem fileBuffer_move (hp : x.bPrivate = some k) (ht : k.bTransaction = some t)
    (hne : k.bJlist ≠ l) (hdirty : x.dirty = false) :
    x.fileBuffer aborted t l = some { x with bPrivate := some { k with bJlist := l } } := by
  by_cases hl : k.bJlist = .none
  · have hne' : Jlist.none ≠ l := hl ▸ hne
    simp [fileBuffer, tempUnlinkBuffer, mapJh, hp, ht, hne', hl, hdirty]
  · simp [fileBuffer, tempUnlinkBuffer, mapJh, hp, ht, hne, hl, hdirty]

theorem fileBuffer_same (hp : x.bPrivate = some k) (ht : k.bTransaction = some t)
    (hl : k.bJlist = l) : x.fileBuffer aborted t l = some x := by
  simp [fileBuffer, hp, ht, hl]

end BufferHead

/-- Buffers, the lists of the transactions they are filed on with `t_nr_buffers`, and the
checkpoint lists. -/
structure Memory where
  bufs : ℕ → BufferHead
  lists : ℕ × Jlist → List ℕ
  tNrBuffers : ℕ → ℤ
  tCheckpointList : ℕ → List ℕ
  tCheckpointIoList : ℕ → List ℕ

namespace Memory

/-- Store a buffer; `__blist_del_buffer` and `__blist_add_buffer` follow when it has changed
lists. -/
def put (m : Memory) (b : ℕ) (x : BufferHead) : Memory :=
  let p := (m.bufs b).place
  let q := x.place
  { m with
    bufs := Function.update m.bufs b x
    lists := Lib.relist m.lists b p q
    tNrBuffers := fun t =>
      m.tNrBuffers t + (if q = some (t, .metadata) then 1 else 0) -
        (if p = some (t, .metadata) then 1 else 0) }

def apply (m : Memory) (b : ℕ) (f : BufferHead → Option BufferHead) : Option Memory :=
  (f (m.bufs b)).map (m.put b)

/-- The lists hold the buffers that are filed on them, each once, and `t_nr_buffers` is the
length of `t_buffers`. -/
structure Filed (m : Memory) : Prop where
  listed : Lib.Listed (fun b => (m.bufs b).place) m.lists
  nr : ∀ t, m.tNrBuffers t = (m.lists (t, .metadata)).length

variable {m m' : Memory} {b c t : ℕ} {l : Jlist} {x : BufferHead}

@[simp]
theorem bufs_put_self (m : Memory) (b : ℕ) (x : BufferHead) : (m.put b x).bufs b = x := by
  simp [put]

theorem bufs_put_of_ne (h : c ≠ b) : (m.put b x).bufs c = m.bufs c := by
  simp [put, h]

theorem put_bufs (m : Memory) (b : ℕ) : m.put b (m.bufs b) = m := by
  simp [put, Lib.relist]

theorem Filed.mem_iff (h : m.Filed) : b ∈ m.lists (t, l) ↔ (m.bufs b).place = some (t, l) :=
  h.listed.mem_iff (t, l) b

theorem length_relist (h : m.Filed) (t : ℕ) (q : Option (ℕ × Jlist)) :
    ((Lib.relist m.lists b (m.bufs b).place q (t, .metadata)).length : ℤ) =
      (m.lists (t, .metadata)).length + (if q = some (t, .metadata) then 1 else 0) -
        (if (m.bufs b).place = some (t, .metadata) then 1 else 0) := by
  by_cases hpq : (m.bufs b).place = q
  · simp [Lib.relist, hpq]
  by_cases hp : (m.bufs b).place = some (t, .metadata)
  · have hmem := h.mem_iff.mpr hp
    have hq : q ≠ some (t, .metadata) := fun hq => hpq (hp.trans hq.symm)
    have hpos := List.length_pos_of_mem hmem
    rw [hp, Lib.relist_leave hq, List.length_erase_of_mem hmem, if_neg hq, if_pos rfl]
    omega
  · by_cases hq : q = some (t, .metadata)
    · rw [hq, Lib.relist_enter hp, if_neg hp]
      simp
    · rw [Lib.relist_of_ne hp hq, if_neg hp, if_neg hq]
      simp

theorem Filed.put (h : m.Filed) (b : ℕ) (x : BufferHead) : (m.put b x).Filed where
  listed := by
    refine (h.listed.relist b x.place).congr fun c => ?_
    by_cases hc : c = b
    · subst hc
      rw [bufs_put_self, Function.update_self]
    · rw [bufs_put_of_ne hc, Function.update_of_ne hc]
  nr := fun t => by
    change m.tNrBuffers t + _ - _ = _
    rw [h.nr t]
    exact (length_relist h t x.place).symm

theorem apply_eq_some {f : BufferHead → Option BufferHead} (h : m.apply b f = some m') :
    ∃ x, f (m.bufs b) = some x ∧ m' = m.put b x := by
  obtain ⟨x, hx, rfl⟩ := Option.map_eq_some_iff.mp h
  exact ⟨x, hx, rfl⟩

end Memory

end VMsep.Jbd2
