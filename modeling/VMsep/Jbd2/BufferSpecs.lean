import VMsep.Jbd2.Access

/-! One lemma for each function of the source that changes a buffer, for a journal that is not
aborted. A buffer that belongs to a transaction is not `BH_Dirty`; the lemmas assume this and say in
turn where it goes. -/

namespace VMsep.Jbd2

open Function BufferHead Option

/-- The `journal_head` after one reference to `k` has been dropped. -/
def JournalHead.Released (k : JournalHead) (p : Option JournalHead) : Prop :=
  p = some { k with bJcount := k.bJcount - 1 } ∨
    (p = none ∧ k.bTransaction = none ∧ k.bNextTransaction = none ∧ k.bCpTransaction = none ∧
      k.bJlist = .none)

theorem JournalHead.Released.tx {k : JournalHead} {p : Option JournalHead} (h : k.Released p) :
    (p.getD .zero).bTransaction = k.bTransaction := by
  rcases h with rfl | ⟨rfl, h, -⟩
  · rfl
  · exact h.symm

namespace BufferHead

/-- The fields of the `journal_head`, those of a new one if there is none. -/
def jh (x : BufferHead) : JournalHead := x.bPrivate.getD .zero

variable {x y : BufferHead} {k : JournalHead} {t : ℕ} {l : Jlist} {committing : Option ℕ}
  {running : Bool} {credits ino : ℕ} {r : DirtyResult}

theorem jh_eq (hk : x.bPrivate = some k) : x.jh = k := by
  simp [jh, hk]

theorem place_eq (x : BufferHead) : x.place =
      if x.jh.bJlist = .none then none else x.jh.bTransaction.map fun t => (t, x.jh.bJlist) := by
  unfold place jh
  cases x.bPrivate <;> rfl

theorem place_eq_some_iff :
    x.place = some (t, l) ↔ x.jh.bTransaction = some t ∧ x.jh.bJlist = l ∧ l ≠ .none := by
  rw [place_eq]
  constructor
  · intro h
    split_ifs at h with hl
    obtain ⟨u, hu, heq⟩ := map_eq_some_iff.mp h
    cases heq
    exact ⟨hu, rfl, hl⟩
  · rintro ⟨ht, hl, hne⟩
    rw [if_neg (hl ▸ hne), ht, hl]
    rfl

theorem jh_released {p : Option JournalHead} (h : k.Released p) :
    ({ x with bPrivate := p }.jh).bTransaction = k.bTransaction ∧
      ({ x with bPrivate := p }.jh).bNextTransaction = k.bNextTransaction ∧
      ({ x with bPrivate := p }.jh).bCpTransaction = k.bCpTransaction ∧
      ({ x with bPrivate := p }.jh).bJlist = k.bJlist := by
  rcases h with rfl | ⟨rfl, h1, h2, h3, h4⟩
  · exact ⟨rfl, rfl, rfl, rfl⟩
  · exact ⟨h1.symm, h2.symm, h3.symm, h4.symm⟩

theorem putJournalHead_eq (hk : x.bPrivate = some k) (h : x.putJournalHead = some y) :
    ∃ p, y = { x with bPrivate := p } ∧ k.Released p := by
  simp only [putJournalHead, hk] at h
  split_ifs at h with h0 h1 h2
  · cases h
    simp only [ne_eq, not_or, not_not] at h2
    exact ⟨none, rfl, .inr ⟨rfl, h2.1, h2.2.1, h2.2.2.1, h2.2.2.2⟩⟩
  · cases h
    exact ⟨_, rfl, .inl rfl⟩

theorem unfileBuffer_cases (hk : x.bPrivate = some k) (ht : k.bTransaction ≠ none)
    (hl : k.bJlist ≠ .none) (h : x.unfileBuffer false = some y) :
    ∃ p, y = { x with dirty := x.dirty || x.jbddirty, jbddirty := false, bPrivate := p } ∧
      JournalHead.Released { k with bJlist := .none, bTransaction := none } p := by
  rw [unfileBuffer_eq hk ht hl] at h
  obtain ⟨p, rfl, hp⟩ := putJournalHead_eq rfl h
  exact ⟨p, by simp, hp⟩

theorem journalDirty_clean (h : x.dirty = false) : x.journalDirty = x := by
  cases x
  simp_all [journalDirty]

/-- The ways a pass of `do_get_write_access` ends: the handle had access already, the buffer is
filed on `BJ_Reserved`, it is claimed for the next transaction, or the pass is repeated. -/
theorem doGetWriteAccess_cases {fb : Bool} {r : AccessResult} (hk : x.bPrivate = some k)
    (hclean : k.bTransaction ≠ none → x.dirty = false)
    (hnext : k.bNextTransaction ≠ none → k.bTransaction ≠ none)
    (h : x.doGetWriteAccess false t committing fb = some (y, r)) :
    ((k.bTransaction = some t ∨ k.bNextTransaction = some t) ∧ y = x) ∨ (k.bTransaction = none ∧
      y = { x with
        dirty := false
        jbddirty := x.dirty || x.jbddirty
        bPrivate := some { k with
          bModified := false
          bJcount := k.bJcount + 1
          bTransaction := some t
          bJlist := .reserved } }) ∨
    (∃ u f, k.bTransaction = some u ∧ u ≠ t ∧ k.bNextTransaction = none ∧
      (k.bFrozenData ≠ none ∧ f = k.bFrozenData ∨
        k.bFrozenData = none ∧ committing = some u ∧ x.shadow = false ∧
          f = if k.bJlist = .metadata then some x.bData else none) ∧
      y = { x with
        bPrivate := some { k with
          bModified := false
          bFrozenData := f
          bNextTransaction := some t } }) ∨
    (∃ u, k.bTransaction = some u ∧ u ≠ t ∧ k.bNextTransaction = none ∧ k.bFrozenData = none ∧
      committing = some u ∧ y = { x with bPrivate := some { k with bModified := false } }) := by
  simp only [doGetWriteAccess, hk, Bool.false_eq_true, if_false] at h
  split at h
  · cases h
  split at h
  · rename_i hacc
    cases h
    refine .inl ⟨hacc, journalDirty_clean (hclean ?_)⟩
    rcases hacc with h | h
    · simp [h]
    · exact hnext (by simp [h])
  · rename_i hacc
    simp only [not_or] at hacc
    split at h
    · cases h
    rename_i hn
    simp only [ne_eq, not_not] at hn
    cases htx : k.bTransaction with
    | none =>
      have hk' : (x.journalDirty.mapJh fun jh => { jh with bModified := false }).bPrivate =
          some { k with bModified := false } := by simp [mapJh, journalDirty, hk]
      rw [htx] at h
      simp only [fileBuffer_new hk' htx, map_some] at h
      cases h
      refine .inr (.inl ⟨rfl, ?_⟩)
      simp [mapJh, journalDirty, Bool.or_comm]
    | some u =>
      have hut : u ≠ t := fun heq => hacc.1 (by rw [htx, heq])
      rw [htx] at h
      simp only [journalDirty_clean (hclean (by simp [htx]))] at h
      refine .inr (.inr ?_)
      split at h
      · rename_i hf
        cases h
        exact .inl ⟨u, k.bFrozenData, rfl, hut, hn, .inl ⟨hf, rfl⟩, by
          simp [mapJh, attachNext, hk, htx]⟩
      rename_i hf
      simp only [ne_eq, not_not] at hf
      split at h
      · cases h
      rename_i hcom
      simp only [ne_eq, not_not] at hcom
      split at h
      · cases h
        exact .inr ⟨u, rfl, hut, hn, hf, hcom, by simp [mapJh, hk, htx]⟩
      rename_i hsh
      have hsh' : x.shadow = false := by simpa using hsh
      split at h
      · rename_i hl
        split at h
        · cases h
          exact .inl ⟨u, some x.bData, rfl, hut, hn, .inr ⟨hf, hcom, hsh', by simp [hl]⟩, by
            simp [mapJh, freeze, attachNext, hk, htx]⟩
        · cases h
          exact .inr ⟨u, rfl, hut, hn, hf, hcom, by simp [mapJh, hk, htx]⟩
      · rename_i hl
        cases h
        exact .inl ⟨u, none, rfl, hut, hn, .inr ⟨hf, hcom, hsh', by simp [hl]⟩, by
          simp [mapJh, attachNext, hk, hf, htx]⟩

/-- The ways the locked section of `get_create_access` ends: the transaction had the buffer already,
it is filed on `BJ_Reserved`, or it is claimed while the committing transaction forgets it. -/
theorem getCreateAccess_cases {goesOn : Bool} (hk : x.bPrivate = some k)
    (h : x.getCreateAccess false t committing = some (y, goesOn)) :
    (k.bTransaction = some t ∧ y = x) ∨ (k.bTransaction = none ∧
      y = { x with
        dirty := false
        bPrivate := some { k with
          bModified := false
          bJcount := k.bJcount + 1
          bTransaction := some t
          bJlist := .reserved } }) ∨
    (∃ u, k.bTransaction = some u ∧ committing = some u ∧ k.bNextTransaction = none ∧
      (u ≠ t → k.bJlist = .forget) ∧
      y = { x with
        bPrivate := some { k with bModified := false, bNextTransaction := some t } }) := by
  simp only [getCreateAccess, hk, Bool.false_eq_true, if_false] at h
  split at h
  · cases h
  rename_i hn
  simp only [ne_eq, not_not] at hn
  cases htx : k.bTransaction with
  | none =>
    have hk' : ({ x.mapJh fun jh => { jh with bModified := false } with
        dirty := false } : BufferHead).bPrivate = some { k with bModified := false } := by
      simp [mapJh, hk]
    rw [htx] at h
    simp only [fileBuffer_new hk' htx, map_some] at h
    cases h
    refine .inr (.inl ⟨rfl, ?_⟩)
    simp [mapJh]
  | some u =>
    rw [htx] at h
    obtain ⟨hg, h⟩ := ite_none_left_eq_some.mp h
    cases h
    by_cases hcom : committing = some u
    · refine .inr (.inr ⟨u, rfl, hcom, hn, fun hut => ?_, ?_⟩)
      · by_contra hl
        exact hg ⟨hut, .inr hl⟩
      · rw [if_pos hcom]
        simp [mapJh, attachNext, hk, htx]
    · have hut : u = t := by
        by_contra hut
        exact hg ⟨hut, .inl hcom⟩
      subst hut
      exact .inl ⟨rfl, if_neg hcom⟩

/-- The ways `dirty_metadata` ends for a buffer with a `journal_head`: nothing is left to do, the
buffer is only marked as modified, it is tagged for the next transaction, or it is tagged and
filed on `BJ_Metadata`. -/
theorem dirtyMetadata_cases {running : Option ℕ} (hk : x.bPrivate = some k)
    (hclean : k.bTransaction ≠ none → x.dirty = false)
    (h : x.dirtyMetadata false t running committing credits ino = some (y, r)) :
    (k.bTransaction = some t ∨ k.bNextTransaction = some t) ∧
    (r.credit = true ↔ k.bModified = false ∧ credits ≠ 0) ∧
    ((k.bModified = true ∧ (k.bTransaction = some t → k.bJlist = .metadata) ∧ y = x) ∨
    (k.bModified = false ∧ y = { x with bPrivate := some { k with bModified := true } } ∧
      (r.err ≠ none ∧ credits = 0 ∨ k.bTransaction = some t ∧ k.bJlist = .metadata)) ∨
    (k.bModified = false ∧ k.bTransaction ≠ some t ∧ k.bNextTransaction = some t ∧
      (k.bTransaction = committing → r.err = none) ∧
      y = { x with
        jbddirty := true
        bPrivate := some { k with bModified := true, ino := ino } }) ∨
    (k.bModified = false ∧ k.bTransaction = some t ∧ k.bJlist ≠ .metadata ∧
      k.bFrozenData = none ∧ r.err = none ∧
      y = { x with
        jbddirty := true
        bPrivate := some { k with bModified := true, ino := ino, bJlist := .metadata } })) := by
  simp only [dirtyMetadata, hk, Bool.false_eq_true, if_false] at h
  split at h
  · cases h
  rename_i hacc
  have hacc' : k.bTransaction = some t ∨ k.bNextTransaction = some t := by
    by_contra hno
    simp only [not_or] at hno
    exact hacc hno
  refine ⟨hacc', ?_⟩
  split at h
  · rename_i hmod
    split at h
    · cases h
    rename_i hl
    cases h
    refine ⟨by simp [hmod], .inl ⟨hmod, fun ht => ?_, rfl⟩⟩
    by_contra hne
    exact hl ⟨ht, hne⟩
  rename_i hmod
  simp only [hmod, true_and]
  split at h
  · rename_i hzero
    cases h
    exact ⟨by simp [hzero], .inr (.inl ⟨by simp [mapJh, hk], .inl ⟨by simp, hzero⟩⟩)⟩
  rename_i hzero
  split at h
  · rename_i hown
    cases h
    exact ⟨by simp [hzero], .inr (.inl ⟨by simp [mapJh, hk], .inr hown⟩)⟩
  rename_i hown
  split at h
  · rename_i hne
    cases h
    have hn := hacc'.resolve_left hne
    exact ⟨by simp [hzero], .inr (.inr (.inl ⟨hne, hn, fun hcom => if_pos ⟨hcom, hn⟩,
      by simp [mapJh, hk]⟩))⟩
  rename_i hne
  simp only [ne_eq, not_not] at hne
  have hl : k.bJlist ≠ .metadata := fun heq => hown ⟨hne, heq⟩
  split at h
  · cases h
  rename_i hf
  simp only [ne_eq, not_not] at hf
  obtain ⟨w, hw, heq⟩ := map_eq_some_iff.mp h
  cases heq
  have hdirty := hclean (by simp [hne])
  rw [fileBuffer_move (k := { k with bModified := true, ino := ino }) (by simp [mapJh, hk]) hne hl
    (by simpa [mapJh] using hdirty)] at hw
  cases hw
  exact ⟨by simp [hzero], .inr (.inr (.inr ⟨hne, hl, hf, rfl, by simp [mapJh]⟩))⟩

theorem dirtyMetadata_none {running : Option ℕ} (hk : x.bPrivate = none)
    (h : x.dirtyMetadata false t running committing credits ino = some (y, r)) :
    y = x ∧ r.err ≠ none := by
  simp only [dirtyMetadata, hk, Bool.false_eq_true, if_false] at h
  cases h
  exact ⟨rfl, (by simp)⟩

theorem accessible_cases (h : x.accessible t = true) :
    ∃ k, x.bPrivate = some k ∧ (k.bTransaction = some t ∨ k.bNextTransaction = some t) := by
  cases hk : x.bPrivate with
  | none => simp [accessible, hk] at h
  | some k => exact ⟨k, rfl, by simpa [accessible, hk] using h⟩

theorem fileBuffer_cases (hk : x.bPrivate = some k)
    (hclean : k.bTransaction ≠ none → x.dirty = false) (h : x.fileBuffer false t l = some y) :
    (k.bTransaction = none ∨ k.bTransaction = some t) ∧ ∃ n,
      y = { x with
        dirty := false
        jbddirty := x.dirty || x.jbddirty
        bPrivate := some { k with bJcount := n, bTransaction := some t, bJlist := l } } := by
  cases htx : k.bTransaction with
  | none =>
    rw [fileBuffer_new hk htx] at h
    cases h
    exact ⟨.inl rfl, _, rfl⟩
  | some u =>
    have hdirty := hclean (by simp [htx])
    by_cases hut : u = t
    · subst hut
      refine ⟨.inr rfl, k.bJcount, ?_⟩
      by_cases hl : k.bJlist = l
      · rw [fileBuffer_same hk htx hl] at h
        cases h
        cases x
        cases k
        simp_all
      · rw [fileBuffer_move hk htx hl hdirty] at h
        cases h
        simp [hdirty, htx]
    · simp [fileBuffer, hk, htx, hut] at h

theorem refileBuffer_cases {u : ℕ} (h : x.refileBuffer false running = some y)
    (hk : x.bPrivate = some k) (ht : k.bTransaction = some u) (hl : k.bJlist ≠ .none)
    (hdirty : x.dirty = false) : (k.bNextTransaction = none ∧ ∃ p,
      y = { x with dirty := x.jbddirty, jbddirty := false, bPrivate := p } ∧
      JournalHead.Released { k with bJlist := .none, bTransaction := none } p) ∨
    ∃ r, k.bNextTransaction = some r ∧
      y = { x with
        bPrivate := some { k with
          bTransaction := some r
          bNextTransaction := none
          bJlist := if k.bModified then .metadata else .reserved } } := by
  cases hn : k.bNextTransaction with
  | none =>
    simp only [refileBuffer, hk, hn] at h
    obtain ⟨p, rfl, hp⟩ := unfileBuffer_cases hk (by simp [ht]) hl h
    exact .inl ⟨rfl, p, by simp [hdirty], hn ▸ hp⟩
  | some r =>
    have hne : (if k.bModified then Jlist.metadata else .reserved) ≠ .none := by
      split_ifs <;> simp
    simp only [refileBuffer, hk, hn, tempUnlinkBuffer, hl, ht, if_false, reduceCtorEq] at h
    rw [fileBuffer_move (k := { k with
        bJlist := .none, bTransaction := some r, bNextTransaction := none })
      (by simp [mapJh]) rfl (Ne.symm hne) (by simp [mapJh, hdirty])] at h
    simp only at h
    refine .inr ⟨r, rfl, ?_⟩
    split_ifs at h
    all_goals
      cases h
      cases x
      simp_all [mapJh]

section

variable (hk : x.bPrivate = some k)

include hk

theorem fileShadow_eq (ht : k.bTransaction = some t) (hl : k.bJlist ≠ .shadow)
    (hdirty : x.dirty = false) (f : Option Content) :
    (x.mapJh fun jh => { jh with bFrozenData := f }).fileShadow false t =
      some { x with
        shadow := true, bPrivate := some { k with bFrozenData := f, bJlist := .shadow } } := by
  have hmap : (x.mapJh fun jh => { jh with bFrozenData := f }) =
      { x with bPrivate := some { k with bFrozenData := f } } := by
    simp [mapJh, hk]
  rw [hmap, fileShadow,
    fileBuffer_move (x := { x with bPrivate := some { k with bFrozenData := f } })
      (k := { k with bFrozenData := f }) rfl ht hl hdirty]
  rfl

theorem fileShadow_self (ht : k.bTransaction = some t) (hl : k.bJlist ≠ .shadow)
    (hdirty : x.dirty = false) : x.fileShadow false t =
      some { x with shadow := true, bPrivate := some { k with bJlist := .shadow } } := by
  have h0 := fileShadow_eq hk ht hl hdirty k.bFrozenData
  have hmap : (x.mapJh fun jh => { jh with bFrozenData := k.bFrozenData }) = x := by
    obtain ⟨data, dirty, jbddirty, shadow, priv⟩ := x
    have hpriv : priv = some k := hk
    simp [mapJh, hpriv]
  rwa [hmap] at h0

theorem writeMetadataBuffer_cases {escaped : Bool} (ht : k.bTransaction = some t)
    (hl : k.bJlist ≠ .shadow) (hdirty : x.dirty = false)
    (h : x.writeMetadataBuffer false t = some (y, some escaped)) :
    x.jbddirty = true ∧ ∃ f, y = { x with
        shadow := true, bPrivate := some { k with bFrozenData := f, bJlist := .shadow } } ∧
      (k.bFrozenData = none ∧ f = none ∧ escaped = false ∧ x.bData.word ≠ jbd2MagicNumber ∨
      ∃ c, k.bFrozenData = some c ∧
        (c.word = jbd2MagicNumber ∧ escaped = true ∧ f = some { c with word := 0 } ∨
          c.word ≠ jbd2MagicNumber ∧ escaped = false ∧ f = some c)) := by
  simp only [writeMetadataBuffer, hk] at h
  split at h
  · cases h
  rename_i hjbd
  refine ⟨by simpa using hjbd, ?_⟩
  cases hf : k.bFrozenData with
  | none =>
    simp only [hf] at h
    split at h
    · cases h
    rename_i hw
    rw [fileShadow_self hk ht hl hdirty] at h
    cases h
    exact ⟨none, by rw [hf], .inl ⟨rfl, rfl, rfl, hw⟩⟩
  | some c =>
    simp only [hf] at h
    split at h
    · rename_i hw
      rw [fileShadow_eq hk ht hl hdirty] at h
      cases h
      exact ⟨_, rfl, .inr ⟨c, rfl, .inl ⟨hw, rfl, rfl⟩⟩⟩
    · rename_i hw
      rw [fileShadow_self hk ht hl hdirty] at h
      cases h
      exact ⟨some c, by rw [hf], .inr ⟨c, rfl, .inr ⟨hw, rfl, rfl⟩⟩⟩

theorem writeMetadataBuffer_none (h : x.writeMetadataBuffer false t = some (y, none)) :
    x.jbddirty = true ∧ k.bFrozenData = none ∧ x.bData.word = jbd2MagicNumber := by
  simp only [writeMetadataBuffer, hk] at h
  split at h
  · cases h
  rename_i hjbd
  refine ⟨by simpa using hjbd, ?_⟩
  cases hf : k.bFrozenData with
  | none =>
    simp only [hf] at h
    split at h
    · rename_i hw
      exact ⟨rfl, hw⟩
    · obtain ⟨z, -, hz⟩ := map_eq_some_iff.mp h
      cases hz
  | some =>
    simp only [hf] at h
    split at h
    all_goals
      obtain ⟨z, -, hz⟩ := map_eq_some_iff.mp h
      cases hz

theorem writeEscapedCopy_eq (ht : k.bTransaction = some t) (hl : k.bJlist ≠ .shadow)
    (hdirty : x.dirty = false) :
    x.writeEscapedCopy false t = some { x with
      shadow := true
      bPrivate := some { k with
        bFrozenData := some { k.bFrozenData.getD x.bData with word := 0 }
        bJlist := .shadow } } := by
  simp only [writeEscapedCopy, hk]
  exact fileShadow_eq hk ht hl hdirty _

theorem removeCheckpoint_eq (h : x.removeCheckpoint = some y) : k.bCpTransaction = none ∧ y = x ∨
      ∃ p, y = { x with bPrivate := p } ∧
        JournalHead.Released { k with bCpTransaction := none } p := by
  simp only [removeCheckpoint, hk] at h
  split at h
  · rename_i hcp
    cases h
    exact .inl ⟨hcp, rfl⟩
  · obtain ⟨p, rfl, hp⟩ := putJournalHead_eq rfl h
    exact .inr ⟨p, rfl, hp⟩

/-- The end of a buffer's commit. Without a next transaction the buffer is unfiled; it stays on
the checkpoint list if it has to be written home. -/
theorem commitForget_cases (hl : k.bJlist ≠ .none) (hdirty : x.dirty = false)
    (h : x.commitForget false running t = some y) : k.bTransaction = some t ∧ ∃ n,
      ((k.bNextTransaction = none ∧ ∃ p,
        y = { x with dirty := x.jbddirty, jbddirty := false, bPrivate := p } ∧
        JournalHead.Released { k with
          bFrozenData := none
          bCpTransaction := if x.jbddirty then some t else none
          bJcount := n
          bJlist := .none
          bTransaction := none } p) ∨ ∃ r, k.bNextTransaction = some r ∧
        y = { x with
          bPrivate := some { k with
            bFrozenData := none
            bCpTransaction := if x.jbddirty then some t else none
            bJcount := n
            bTransaction := some r
            bNextTransaction := none
            bJlist := if k.bModified then .metadata else .reserved } }) := by
  simp only [commitForget, hk] at h
  split at h
  · cases h
  rename_i ht
  simp only [ne_eq, not_not] at ht
  refine ⟨ht, ?_⟩
  have hk0 : (x.mapJh fun jh => { jh with bFrozenData := none }) =
      { x with bPrivate := some { k with bFrozenData := none } } := by simp [mapJh, hk]
  rw [hk0] at h
  split at h
  · cases h
  rename_i z hz
  obtain ⟨n0, rfl⟩ : ∃ n0, z = { x with
      bPrivate := some { k with bFrozenData := none, bCpTransaction := none, bJcount := n0 } } := by
    rcases removeCheckpoint_eq rfl hz with ⟨hcp, rfl⟩ | ⟨p, rfl, rfl | ⟨-, hnone, -⟩⟩
    · exact ⟨k.bJcount, by simp only at hcp; rw [← hcp]⟩
    · exact ⟨k.bJcount - 1, rfl⟩
    · exact absurd (ht.symm.trans hnone) (by simp)
  split at h
  · rename_i hjbd
    simp only at hjbd
    simp only [insertCheckpoint, hjbd] at h
    split at h
    · cases h
    rename_i w hw
    split_ifs at hw
    cases hw
    refine ⟨n0 + 1, ?_⟩
    rcases refileBuffer_cases h rfl ht hl hdirty with ⟨hn, p, rfl, hp⟩ | ⟨r, hr, rfl⟩
    · exact .inl ⟨hn, p, by simp [hjbd], by simpa [hjbd] using hp⟩
    · exact .inr ⟨r, hr, by simp [hjbd]⟩
  · rename_i hjbd
    simp only [Bool.not_eq_true] at hjbd
    split at h
    · cases h
    refine ⟨n0, ?_⟩
    rcases refileBuffer_cases h rfl ht hl hdirty with ⟨hn, p, rfl, hp⟩ | ⟨r, hr, rfl⟩
    · exact .inl ⟨hn, p, by simp [hjbd], by simpa [hjbd] using hp⟩
    · exact .inr ⟨r, hr, by simp [hjbd]⟩

end

end BufferHead

namespace Memory

variable {m m' : Memory} {b c t : ℕ} {x y : BufferHead} {k : JournalHead}
  {P : ℕ → BufferHead → Prop}

/-- `m'` is `m` with another buffer `b`, and its lists are in order if those of `m` are. -/
structure Stores (m : Memory) (b : ℕ) (x : BufferHead) (m' : Memory) : Prop where
  bufs : m'.bufs = update m.bufs b x
  filed : m.Filed → m'.Filed

theorem stores_put (m : Memory) (b : ℕ) (x : BufferHead) : m.Stores b x (m.put b x) :=
  ⟨rfl, fun h => h.put b x⟩

theorem Stores.self (h : m.Stores b x m') : m'.bufs b = x := by
  rw [h.bufs, update_self]

theorem Stores.of_ne (h : m.Stores b x m') (hc : c ≠ b) : m'.bufs c = m.bufs c := by
  rw [h.bufs, update_of_ne hc]

theorem Stores.forall_of_ne (h : m.Stores b x m') (hb : P b x) (hc : ∀ c, c ≠ b → P c (m.bufs c))
    (c : ℕ) : P c (m'.bufs c) := by
  by_cases hcb : c = b
  · subst hcb
    rwa [h.self]
  · rw [h.of_ne hcb]
    exact hc c hcb

theorem Stores.forall_of (h : m.Stores b x m') (hb : P b x) (hc : ∀ c, P c (m.bufs c)) (c : ℕ) :
    P c (m'.bufs c) :=
  h.forall_of_ne hb (fun c _ => hc c) c

/-- The ways `forget` ends for a buffer with a `journal_head`: the buffer of the handle's own
transaction goes to `BJ_Forget` or is unfiled, and the claim on another one is given up. -/
theorem journalForget_cases {committing : Option ℕ} {credit : Bool}
    (hm : m.journalForget false t committing b = some (m', credit))
    (hk : (m.bufs b).bPrivate = some k) (hl : k.bTransaction ≠ none → k.bJlist ≠ .none)
    (hnone : k.bTransaction = none → k.bNextTransaction = none) :
    (k.bTransaction = some t ∧ k.bFrozenData = none ∧ k.bCpTransaction ≠ none ∧
      m.Stores b { m.bufs b with
        dirty := false
        jbddirty := false
        bPrivate := some { k with bModified := false, bJlist := .forget } } m') ∨
    (k.bTransaction = some t ∧ k.bFrozenData = none ∧ k.bCpTransaction = none ∧ ∃ p,
      JournalHead.Released
        { k with bModified := false, bJlist := .none, bTransaction := none } p ∧
      m.Stores b { m.bufs b with dirty := false, jbddirty := false, bPrivate := p } m') ∨
    (k.bTransaction ≠ some t ∧ (k.bNextTransaction = none ∨ k.bNextTransaction = some t) ∧
      m.Stores b { m.bufs b with
        bPrivate := some { k with bModified := false, bNextTransaction := none } } m') := by
  simp only [journalForget, hk, Bool.false_eq_true, if_false] at hm
  split at hm
  · rename_i ht
    have hl' := hl (by simp [ht])
    split at hm
    · cases hm
    rename_i hf
    simp only [ne_eq, not_not] at hf
    split at hm
    · rename_i hcp
      simp only [tempUnlinkBuffer, mapJh, hk, map_some, hl', ht,
        if_false, reduceCtorEq, bind_some, Memory.apply, bufs_put_self] at hm
      rw [fileBuffer_move (k := { k with bModified := false, bJlist := .none })
        (by simp [ht]) ht (by simp) (by simp)] at hm
      cases hm
      exact .inl ⟨ht, hf, hcp, ⟨update_idem _ _ _, fun h => (h.put b _).put b _⟩⟩
    · rename_i hcp
      simp only [ne_eq, not_not] at hcp
      obtain ⟨m1, h1, heq⟩ := map_eq_some_iff.mp hm
      obtain ⟨z, hz, rfl⟩ := map_eq_some_iff.mp h1
      cases heq
      obtain ⟨p, rfl, hp⟩ := unfileBuffer_cases (k := { k with bModified := false })
        (by simp [mapJh, hk]) (by simp [ht]) hl' hz
      exact .inr (.inl ⟨ht, hf, hcp, p, hp, stores_put _ _ _⟩)
  · rename_i ht
    refine .inr (.inr ⟨ht, ?_⟩)
    have hkeep (hn : k.bNextTransaction = none) :
        (m.bufs b).mapJh (fun jh => { jh with bModified := false }) = { m.bufs b with
          bPrivate := some { k with bModified := false, bNextTransaction := none } } := by
      simp only [mapJh, hk, map_some]
      rw [← hn]
    split at hm
    · rename_i hu
      cases hm
      rw [hkeep (hnone hu)]
      exact ⟨.inl (hnone hu), stores_put _ _ _⟩
    · split at hm
      · cases hm
      split at hm
      · rename_i hn
        cases hm
        rw [hkeep hn]
        exact ⟨.inl hn, stores_put _ _ _⟩
      · rename_i r hr
        split at hm
        · cases hm
        rename_i hrt
        simp only [ne_eq, not_not] at hrt
        cases hm
        refine ⟨.inr (hrt ▸ hr), ?_⟩
        simp only [mapJh, hk, map_some]
        exact stores_put _ _ _

end Memory

end VMsep.Jbd2
