import VMsep.Jbd2.BufferSpecs

/-! `jbd2_vmsep_journal_dirty_metadata` marks a buffer as modified before it looks at the credits of
the handle and at the owner of the buffer. A call that fails there leaves a modified buffer on
another list than `BJ_Metadata`. -/

namespace VMsep.Jbd2

open BufferHead

/-- A call of `dirty_metadata` by a handle of transaction `tx`; `aborted` is
`is_handle_aborted`. -/
structure DirtyRequest where
  aborted : Bool
  tx : ℕ
  running : Option ℕ
  committing : Option ℕ
  hBufferCredits : ℤ
  ino : ℕ

namespace DirtyRequest

def run (c : DirtyRequest) (x : BufferHead) : Option (BufferHead × Option Errno × ℤ) :=
  (x.dirtyMetadata c.aborted c.tx c.running c.committing c.hBufferCredits.toNat c.ino).map
    fun (y, r) => (y, r.err, if r.credit then c.hBufferCredits - 1 else c.hBufferCredits)

/-- A call that marks the buffer as modified has a credit, and the buffer is where a handle of the
running transaction may find it. -/
def Permitted (c : DirtyRequest) (x : BufferHead) : Prop :=
  ∀ k, x.bPrivate = some k → c.aborted = false → k.bModified = false →
    0 < c.hBufferCredits ∧
    (k.bTransaction = some c.tx → k.bJlist = .metadata → c.running = some c.tx) ∧
    (k.bTransaction ≠ some c.tx → k.bTransaction = c.committing)

/-- A buffer of the transaction that is not on `BJ_Metadata` is unmodified and has no frozen
copy. -/
def Fileable (k : JournalHead) : Prop :=
  k.bJlist ≠ .metadata → k.bModified = false ∧ k.bFrozenData = none

variable {c : DirtyRequest} {x y : BufferHead} {k : JournalHead} {e : Errno} {credits : ℤ}

/-- A call that returns an error has either changed nothing, or it came to the mark without being
permitted and has set `b_modified`. -/
theorem run_error (h : c.run x = some (y, some e, credits)) :
    (c.Permitted x ∧ y = x ∧ credits = c.hBufferCredits) ∨
      (¬ c.Permitted x ∧ y.bPrivate.map (·.bModified) ≠ x.bPrivate.map (·.bModified)) := by
  obtain ⟨⟨y', r⟩, hr, heq⟩ := Option.map_eq_some_iff.mp h
  simp only [Prod.mk.injEq] at heq
  obtain ⟨rfl, herr, rfl⟩ := heq
  unfold dirtyMetadata at hr
  split at hr
  · rename_i hab
    cases hr
    refine .inl ⟨?_, rfl, rfl⟩
    intro k _ hno
    rw [hab] at hno
    cases hno
  rename_i hab
  cases hk : x.bPrivate with
  | none =>
    rw [hk] at hr
    cases hr
    refine .inl ⟨?_, rfl, rfl⟩
    intro k hsome
    rw [hk] at hsome
    cases hsome
  | some k =>
    rw [hk] at hr
    dsimp only at hr
    split at hr
    · cases hr
    rename_i hacc
    by_cases hmod : k.bModified = true
    · rw [if_pos hmod] at hr
      split at hr
      · cases hr
      · cases hr
        cases herr
    -- what follows comes after the mark
    have hpermitted : c.Permitted x → 0 < c.hBufferCredits ∧
        (k.bTransaction = some c.tx → k.bJlist = .metadata → c.running = some c.tx) ∧
        (k.bTransaction ≠ some c.tx → k.bTransaction = c.committing) := by
      intro hp
      exact hp k hk (by simpa using hab) (by simpa using hmod)
    refine .inr ?_
    rw [if_neg hmod] at hr
    split at hr
    · rename_i hcredits
      cases hr
      refine ⟨?_, by simp [mapJh, hk, hmod]⟩
      intro hp
      have := (hpermitted hp).1
      omega
    split at hr
    · rename_i hown
      cases hr
      refine ⟨?_, by simp [mapJh, hk, hmod]⟩
      intro hp
      rw [if_pos ((hpermitted hp).2.1 hown.1 hown.2)] at herr
      cases herr
    split at hr
    · rename_i hother
      cases hr
      refine ⟨?_, by simp [mapJh, hk, hmod]⟩
      intro hp
      have hnext : k.bNextTransaction = some c.tx := by
        by_contra hne
        exact hacc ⟨hother, hne⟩
      rw [if_pos ⟨(hpermitted hp).2.2 hother, hnext⟩] at herr
      cases herr
    split at hr
    · cases hr
    obtain ⟨z, -, hz⟩ := Option.map_eq_some_iff.mp hr
    cases hz
    cases herr

theorem fileBuffer_metadata {t : ℕ} (hk : x.bPrivate = some k) (ht : k.bTransaction = some t) :
    ∃ z, x.fileBuffer false t .metadata = some z ∧ z.place = some (t, .metadata) := by
  by_cases hl : k.bJlist = .metadata
  · exact ⟨x, fileBuffer_same hk ht hl, by simp [place, hk, ht, hl]⟩
  by_cases hn : k.bJlist = .none
  · simp [fileBuffer, tempUnlinkBuffer, mapJh, place, hk, ht, hn]
  · simp [fileBuffer, tempUnlinkBuffer, mapJh, place, hk, ht, hn, hl]

/-- A call by a handle of the running transaction with credits, on a buffer of the transaction,
returns 0 with the buffer on `BJ_Metadata` unless it runs into an assertion. -/
theorem run_files_iff (hk : x.bPrivate = some k) (ht : k.bTransaction = some c.tx)
    (hab : c.aborted = false) (hpos : 0 < c.hBufferCredits) (hrun : c.running = some c.tx) :
    (∃ z credits, c.run x = some (z, none, credits) ∧ z.place = some (c.tx, .metadata)) ↔
      Fileable k := by
  have hcred : c.hBufferCredits.toNat ≠ 0 := by omega
  unfold DirtyRequest.run dirtyMetadata Fileable
  rw [hab, hk]
  simp only [Bool.false_eq_true, if_false, ht, ne_eq, not_true_eq_false, false_and, true_and,
    hcred, hrun, if_true]
  by_cases hl : k.bJlist = .metadata
  · by_cases hmod : k.bModified = true
    · simp [hmod, hl, place, hk, ht]
    · simp [hmod, hl, place, mapJh, hk, ht]
  by_cases hmod : k.bModified = true
  · simp [hmod, hl]
  by_cases hfrozen : k.bFrozenData = none
  · obtain ⟨z, hz, hplace⟩ := fileBuffer_metadata (t := c.tx)
      (x := { x with
        jbddirty := true
        bPrivate := some { k with bModified := true, ino := c.ino } }) rfl ht
    rw [hfrozen] at hz
    simpa [hmod, hl, hfrozen, mapJh, hk] using ⟨z, hz, hplace⟩
  · simp [hmod, hl, hfrozen]

end DirtyRequest

/-- A call that returns an error leaves the buffer and the credits of the handle as they were if and
only if it was permitted, and then a later call by a handle of the transaction files the buffer on
`BJ_Metadata` if and only if the buffer was fileable before. -/
theorem dirtyMetadata_error_unchanged {c : DirtyRequest} {x y : BufferHead} {e : Errno}
    {credits : ℤ} (h : c.run x = some (y, some e, credits)) :
    (y = x ∧ credits = c.hBufferCredits ↔ c.Permitted x) ∧
      (c.Permitted x → ∀ (d : DirtyRequest) (k : JournalHead), d.tx = c.tx →
        x.bPrivate = some k → k.bTransaction = some c.tx →
        d.aborted = false → 0 < d.hBufferCredits → d.running = some d.tx →
        ((∃ z credits', d.run y = some (z, none, credits') ∧ z.place = some (d.tx, .metadata)) ↔
          DirtyRequest.Fileable k)) := by
  rcases DirtyRequest.run_error h with ⟨hp, rfl, hcredits⟩ | ⟨hp, hmark⟩
  · refine ⟨iff_of_true ⟨rfl, hcredits⟩ hp, ?_⟩
    intro _ d k htx hk ht hab hpos hrun
    exact DirtyRequest.run_files_iff hk (htx ▸ ht) hab hpos hrun
  · refine ⟨iff_of_false ?_ hp, fun hp' => absurd hp' hp⟩
    rintro ⟨rfl, -⟩
    exact hmark rfl

/-- A buffer on `BJ_Reserved` of transaction 1, as `get_write_access` leaves it. -/
def reservedBuffer : BufferHead :=
  { bData := ⟨0, [], []⟩, dirty := false, jbddirty := false, shadow := false
    bPrivate := some { JournalHead.zero with
      bJcount := 1, bTransaction := some 1, bJlist := .reserved } }

/-- A call for `reservedBuffer` by an aborted handle. -/
theorem dirtyMetadata_error_unchanged_aborted :
    DirtyRequest.run ⟨true, 1, some 1, none, 3, 5⟩ reservedBuffer =
        some (reservedBuffer, some .erofs, 3) ∧
      ∃ z credits, DirtyRequest.run ⟨false, 1, some 1, none, 1, 5⟩ reservedBuffer =
        some (z, none, credits) ∧ z.place = some (1, .metadata) := by
  have h : DirtyRequest.run ⟨true, 1, some 1, none, 3, 5⟩ reservedBuffer =
      some (reservedBuffer, some .erofs, 3) := by decide
  have hp : DirtyRequest.Permitted ⟨true, 1, some 1, none, 3, 5⟩ reservedBuffer := by
    intro k _ hab
    cases hab
  have hlater := (dirtyMetadata_error_unchanged h).2 hp ⟨false, 1, some 1, none, 1, 5⟩ _ rfl rfl rfl
    rfl (by decide) rfl
  exact ⟨h, hlater.mpr fun _ => ⟨rfl, rfl⟩⟩

/-- `get_write_access` for a buffer, `dirty_metadata` by a handle without credits, and then by a
handle of the same transaction that has one: the first call returns `-ENOSPC` with `b_modified`
set, the second runs into the assertion. -/
theorem dirtyMetadata_enospc_marks :
    let fresh : BufferHead := { reservedBuffer with bPrivate := some { JournalHead.zero with
      bJcount := 0 } }
    ∃ x y, fresh.doGetWriteAccess false 1 none false = some (x, .done) ∧
      DirtyRequest.run ⟨false, 1, some 1, none, 0, 5⟩ x = some (y, some .enospc, 0) ∧
      x.bPrivate.map (·.bModified) = some false ∧ y.bPrivate.map (·.bModified) = some true ∧
      DirtyRequest.run ⟨false, 1, some 1, none, 1, 5⟩ y = none :=
  ⟨_, _, rfl, rfl, rfl, rfl, rfl⟩

end VMsep.Jbd2
