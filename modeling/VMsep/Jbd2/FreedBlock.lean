import VMsep.Jbd2.CompleteCommit

/-! A buffer that is neither `BH_Dirty` nor `BH_JBDDirty` stays so until `dirty_metadata` is called
on it. `forget` leaves such a buffer behind only if it belongs to the transaction of the handle. -/

namespace VMsep.Jbd2

open Lib Memory Jbd2.System Option

namespace BufferHead

/-- Neither `BH_Dirty` nor `BH_JBDDirty`: nothing of the buffer will be written home. -/
def Clean (x : BufferHead) : Prop := x.dirty = false ∧ x.jbddirty = false

instance (x : BufferHead) : Decidable x.Clean := inferInstanceAs (Decidable (_ ∧ _))

variable {x y : BufferHead} {aborted running : Bool} {t : ℕ} {l : Jlist}

section

variable (h : x.Clean)

include h

theorem Clean.mapJh (f : JournalHead → JournalHead) : (x.mapJh f).Clean := h

theorem Clean.of_putJournalHead (hp : x.putJournalHead = some y) : y.Clean := by
  simp only [putJournalHead] at hp
  split at hp
  · cases hp
  · split_ifs at hp <;> cases hp <;> exact h

theorem Clean.of_tempUnlinkBuffer (hp : x.tempUnlinkBuffer aborted = some y) : y.Clean := by
  simp only [tempUnlinkBuffer] at hp
  split at hp
  · cases hp
  split_ifs at hp <;> cases hp
  · exact h
  · exact ⟨by simp [h.1, h.2], rfl⟩

theorem Clean.of_unfileBuffer (hp : x.unfileBuffer aborted = some y) : y.Clean := by
  simp only [unfileBuffer] at hp
  split at hp
  · cases hp
  · rename_i z hz
    exact ((h.of_tempUnlinkBuffer hz).mapJh _).of_putJournalHead hp

theorem Clean.of_fileBuffer (hp : x.fileBuffer aborted t l = some y) : y.Clean := by
  obtain ⟨hd, hj⟩ := h
  simp only [fileBuffer] at hp
  split at hp
  · cases hp
  split at hp
  · cases hp
  split at hp
  · cases hp
    exact ⟨hd, hj⟩
  obtain ⟨z, hz, rfl⟩ := map_eq_some_iff.mp hp
  have hc : z.Clean := by
    split_ifs at hz
    · exact Clean.of_tempUnlinkBuffer ⟨rfl, by simp [hd]⟩ hz
    · cases hz
      exact ⟨rfl, by simp [addJournalHead, hd]⟩
  exact ⟨hc.1, by simp [hc.2, hd, hj]⟩

theorem Clean.of_refileBuffer (hp : x.refileBuffer aborted running = some y) : y.Clean := by
  simp only [refileBuffer] at hp
  split at hp
  · cases hp
  split at hp
  · exact h.of_unfileBuffer hp
  split at hp
  · cases hp
  rename_i z hz
  split at hp
  · cases hp
  rename_i w hw
  have hx : ({ x with jbddirty := false } : BufferHead).Clean := ⟨h.1, rfl⟩
  have hw := ((hx.of_tempUnlinkBuffer hz).mapJh _).of_fileBuffer hw
  split_ifs at hp
  cases hp
  exact ⟨hw.1, by simp [hw.2, h.2]⟩

theorem Clean.of_removeCheckpoint (hp : x.removeCheckpoint = some y) : y.Clean := by
  simp only [removeCheckpoint] at hp
  split at hp
  · cases hp
  split_ifs at hp
  · cases hp
    exact h
  · have hx : ∀ p, ({ x with bPrivate := p } : BufferHead).Clean := fun _ => h
    exact (hx _).of_putJournalHead hp

theorem Clean.of_commitForget (hp : x.commitForget aborted running t = some y) : y.Clean := by
  simp only [commitForget] at hp
  split at hp
  · cases hp
  split_ifs at hp
  split at hp
  · cases hp
  rename_i z hz
  have hz : z.Clean := (h.mapJh _).of_removeCheckpoint hz
  rw [if_neg (by simp [hz.2]), if_neg (by simp [hz.1])] at hp
  exact hz.of_refileBuffer hp

theorem Clean.of_doGetWriteAccess {committing : Option ℕ} {fb : Bool} {r : AccessResult}
    (hp : x.doGetWriteAccess aborted t committing fb = some (y, r)) : y.Clean := by
  have hd : x.journalDirty.Clean := ⟨rfl, by simp [journalDirty, h.1, h.2]⟩
  simp only [doGetWriteAccess] at hp
  split at hp
  · cases hp
  split at hp
  · cases hp
  split at hp
  · cases hp
    exact hd
  split at hp
  · cases hp
    exact hd
  split at hp
  · cases hp
  split at hp
  · obtain ⟨z, hz, heq⟩ := map_eq_some_iff.mp hp
    cases heq
    exact (hd.mapJh _).of_fileBuffer hz
  · split_ifs at hp <;> cases hp <;> exact hd

theorem Clean.of_getCreateAccess {committing : Option ℕ} {goesOn : Bool}
    (hp : x.getCreateAccess aborted t committing = some (y, goesOn)) : y.Clean := by
  simp only [getCreateAccess] at hp
  split at hp
  · cases hp
    exact h
  split at hp
  · cases hp
  split at hp
  · cases hp
  split at hp
  · obtain ⟨z, hz, heq⟩ := map_eq_some_iff.mp hp
    cases heq
    have hy : ∀ f, ({ x.mapJh f with dirty := false } : BufferHead).Clean := fun _ => ⟨rfl, h.2⟩
    exact (hy _).of_fileBuffer hz
  · split_ifs at hp <;> cases hp <;> exact h

theorem Clean.of_writeEscapedCopy (hp : x.writeEscapedCopy aborted t = some y) : y.Clean := by
  simp only [writeEscapedCopy] at hp
  split at hp
  · cases hp
  · obtain ⟨z, hz, rfl⟩ := map_eq_some_iff.mp hp
    have hc : z.Clean := (h.mapJh _).of_fileBuffer hz
    exact hc

theorem Clean.not_written {r : Option Bool} : x.writeMetadataBuffer aborted t ≠ some (y, r) := by
  intro hp
  simp only [writeMetadataBuffer, h.2] at hp
  split at hp <;> simp at hp

end

end BufferHead

namespace Memory

variable {m m' : Memory} {b c t : ℕ} {aborted : Bool}

theorem clean_put {x : BufferHead} (h : (m.bufs c).Clean) (hx : (m.bufs b).Clean → x.Clean) :
    ((m.put b x).bufs c).Clean := by
  by_cases hc : c = b
  · subst hc
    rw [bufs_put_self]
    exact hx h
  · rwa [bufs_put_of_ne hc]

@[simp]
theorem uncheckpoint_bufs (m : Memory) (b : ℕ) (t : Option ℕ) :
    (m.uncheckpoint b t).bufs = m.bufs := by
  cases t <;> rfl

theorem clean_journalForget {committing : Option ℕ} {credit : Bool}
    (hf : m.journalForget aborted t committing b = some (m', credit)) (h : (m.bufs c).Clean ∨
      c = b ∧ aborted = false ∧ (m.bufs b).bPrivate.bind JournalHead.bTransaction = some t) :
    (m'.bufs c).Clean := by
  -- every branch stores one buffer, which is clean if the old one was
  have stored : ∀ x, ((m.bufs b).Clean ∨ aborted = false ∧
      (m.bufs b).bPrivate.bind JournalHead.bTransaction = some t → x.Clean) →
      ((m.put b x).bufs c).Clean := by
    intro x hx
    by_cases hc : c = b
    · subst hc
      rw [bufs_put_self]
      exact hx (h.imp id And.right)
    · rw [bufs_put_of_ne hc]
      exact h.resolve_right fun h => hc h.1
  simp only [journalForget] at hf
  split at hf
  · rename_i hab
    cases hf
    exact h.resolve_right fun h => absurd (hab.symm.trans h.2.1) (by simp)
  · split at hf
    · rename_i hp
      cases hf
      refine h.resolve_right fun h => ?_
      rw [hp] at h
      exact absurd h.2.2 (by simp)
    · rename_i jh hp
      split at hf
      · split at hf
        · cases hf
        obtain ⟨m1, hm1, heq⟩ := map_eq_some_iff.mp hf
        cases heq
        have hz : ∀ f, ({ (m.bufs b).mapJh f with dirty := false, jbddirty := false } :
            BufferHead).Clean := fun _ => ⟨rfl, rfl⟩
        split at hm1
        · obtain ⟨m2, hm2, hm1⟩ := bind_eq_some_iff.mp hm1
          obtain ⟨x, hx, rfl⟩ := map_eq_some_iff.mp hm2
          obtain ⟨y, hy, rfl⟩ := apply_eq_some hm1
          exact clean_put (stored x fun _ => (hz _).of_tempUnlinkBuffer hx) fun h =>
            h.of_fileBuffer hy
        · obtain ⟨x, hx, rfl⟩ := map_eq_some_iff.mp hm1
          exact stored x fun _ => (hz _).of_unfileBuffer hx
      · rename_i htx
        have hold : ∀ f g, ((m.put b (((m.bufs b).mapJh f).mapJh g)).bufs c).Clean ∧
            ((m.put b ((m.bufs b).mapJh f)).bufs c).Clean := by
          intro f g
          have hclean : (m.bufs b).Clean ∨ aborted = false ∧
              (m.bufs b).bPrivate.bind JournalHead.bTransaction = some t → (m.bufs b).Clean :=
            fun h => h.resolve_right fun h => htx (by simpa [hp] using h.2)
          exact ⟨stored _ fun h => ((hclean h).mapJh f).mapJh g,
            stored _ fun h => (hclean h).mapJh f⟩
        split at hf
        · cases hf
          exact (hold _ id).2
        split at hf
        · cases hf
        split at hf
        · cases hf
          exact (hold _ id).2
        split at hf
        · cases hf
        · cases hf
          exact (hold _ _).1

end Memory

namespace System

variable {s s' : System} {a : SysAct} {b : ℕ}

theorem Step.clean (h : s.Step a s') (ha : ∀ i ino, a ≠ .dirty i b ino)
    (hb : (s.m.bufs b).Clean) : (s'.m.bufs b).Clean := by
  cases h with
  | proto =>
    change ((s.after _).m.bufs b).Clean
    rwa [after_m]
  | accessBegin | createBegin | modify | ioDone => exact clean_put hb id
  | accessLock _ _ hx => exact clean_put hb fun h => h.of_doGetWriteAccess hx
  | createLock _ _ hx => exact clean_put hb fun h => h.of_getCreateAccess hx
  | accessPut _ _ hx => exact clean_put hb fun h => h.of_putJournalHead hx
  | @dirty i c _ ino | @dirtyFails i c _ ino =>
    have hne : b ≠ c := fun h => ha i ino (h ▸ rfl)
    change ((s.m.put _ _).bufs b).Clean
    rwa [bufs_put_of_ne hne]
  | forget _ _ hm | revokeForget _ _ hm => exact clean_journalForget hm (.inl hb)
  | refileReserved _ _ _ hx => exact clean_put hb fun h => h.of_refileBuffer hx
  | deferUnfile _ _ hx => exact clean_put hb fun h => h.of_unfileBuffer hx
  | releaseAborted _ _ hm =>
    obtain ⟨x, hx, rfl⟩ := apply_eq_some hm
    exact clean_put (clean_put hb fun h => ⟨h.1, rfl⟩) fun h => h.of_refileBuffer hx
  | write _ _ _ _ hx => exact clean_put hb fun h => absurd hx h.not_written
  | writeCopy _ hx => exact clean_put hb fun h => h.of_writeEscapedCopy hx
  | deferFile _ hx | waitIo _ _ _ _ hx => exact clean_put hb fun h => h.of_fileBuffer hx
  | @forgetBuffer _ _ _ m' _ _ hy _ hm =>
    have hput : (m'.bufs b).Clean := by
      rw [hm, uncheckpoint_bufs]
      exact clean_put hb fun h => h.of_commitForget hy
    change ((if _ then m'.checkpoint _ _ else m').bufs b).Clean
    split_ifs <;> exact hput
  | writeback | cpFlush => exact clean_put hb fun h => ⟨rfl, h.2⟩
  | tryToFree _ _ _ _ hx | cpIoRemove hx => exact clean_put hb fun h => h.of_removeCheckpoint hx
  | getblk => exact clean_put hb fun _ => ⟨rfl, rfl⟩
  | _ => exact hb

theorem Step.home_eq (h : s.Step a s') (hb : (s.m.bufs b).Clean) : s'.home b = s.home b := by
  have written : ∀ c, (s.m.bufs c).dirty = true → (s.writeHome c).home b = s.home b := by
    intro c hd
    have hne : b ≠ c := by
      rintro rfl
      exact absurd (hb.1.symm.trans hd) (by simp)
    exact Function.update_of_ne hne _ _
  cases h with
  | @proto c =>
    obtain ⟨log, sub, hafter⟩ := after_frame s c
    rw [hafter]
  | writeback hd => exact written _ hd
  | cpFlush _ hd => exact written _ hd
  | _ => rfl

/-- The buffer belongs to the transaction of the handle, or there is nothing to write home. -/
def FreesOwn (s : System) (i b : ℕ) : Prop :=
  s.j.jAborted = false ∧ (s.m.bufs b).bPrivate.bind JournalHead.bTransaction = s.txOf i ∨
    (s.m.bufs b).Clean

instance (s : System) (i b : ℕ) : Decidable (s.FreesOwn i b) := by
  unfold FreesOwn
  infer_instance

theorem clean_revokeForget {i : ℕ} (hop : s.ops i = .revoking b true) (hown : s.FreesOwn i b)
    (hs : s.step (.revokeForget i) = some s') : (s'.m.bufs b).Clean := by
  cases step_cases hs with
  | revokeForget ht hop' hm =>
    obtain rfl : b = _ := (ClientOp.revoking.inj (hop.symm.trans hop')).1
    refine clean_journalForget hm (hown.symm.imp id fun h => ⟨rfl, h.1, ?_⟩)
    rw [h.2, ht]

end System

/-- From the moment `revoke` has called `forget` for a block whose buffer belongs to its
transaction or is clean, the buffer stays clean and nothing is written to the block, until
`dirty_metadata` is called on it. -/
theorem freed_block_not_resurrected (s₁ s₂ s₃ : System) (i b : ℕ) (bs : List SysAct)
    (hop : s₁.ops i = .revoking b true) (hown : s₁.FreesOwn i b)
    (hfree : s₁.step (.revokeForget i) = some s₂) (hex : exec step s₂ bs = some s₃)
    (hno : ∀ i' ino, .dirty i' b ino ∉ bs) :
    (s₃.m.bufs b).dirty = false ∧ (s₃.m.bufs b).jbddirty = false ∧ s₃.home b = s₂.home b := by
  have hinv := exec_invariant (I := fun s => (s.m.bufs b).Clean ∧ s.home b = s₂.home b)
    (C := fun _ a => ∀ i' ino, a ≠ .dirty i' b ino)
    (fun s a s' hi ha hs => ⟨(step_cases hs).clean ha hi.1,
      ((step_cases hs).home_eq hi.1).trans hi.2⟩)
    bs ⟨clean_revokeForget hop hown hfree, rfl⟩ hex
    (along_of_forall fun a ha _ i' ino => by
      rintro rfl
      exact hno i' ino ha)
  exact ⟨hinv.1.1, hinv.1.2, hinv.2⟩

/-- Block 1 has been committed by the first transaction and is on its checkpoint list; a handle of
the second one revokes it and stops, and the second transaction is committed. -/
def revokeCheckpointedRun : List SysAct :=
  firstHandle ++ [.getblk 1] ++ journalBlock 0 1 7 0 ++ [.proto (.handle (.stop 0))] ++
    commitToBuffers 0 0 ++ [.write false] ++ commitToEnd [0] false ++ secondHandle ++
    [.revoke 2 1 true, .revokeForget 2, .revokeInsert 2, .proto (.handle (.stop 2))] ++
    commitToBuffers 1 0 ++ commitToEnd [] true

/-- After the commit the buffer is dirty with the contents of the first transaction, and writeback
writes them to the freed block. -/
theorem revokeCheckpointedRun_resurrects :
    ((exec step sampleSystem revokeCheckpointedRun).bind fun s =>
      (s.step (.writeback 1)).map fun s' =>
        ((s.j.commitRecords, (s.m.bufs 1).dirty), (s.home 1).hist, (s'.home 1).hist)) =
      some (([0, 1], true), [], [(0, 0)]) := by
  decide +kernel

/-- A handle of the second transaction gets write access to block 1, which the first one has
committed, and revokes it. -/
def revokeOwnRun : List SysAct :=
  firstHandle ++ [.getblk 1] ++ journalBlock 0 1 7 0 ++ [.proto (.handle (.stop 0))] ++
    commitToBuffers 0 0 ++ [.write false] ++ commitToEnd [0] false ++ secondHandle ++
    journalBlock 2 1 8 0 ++ [.revoke 2 1 true]

/-- The revoke record is inserted, the handle stops and the second transaction is committed, with
block 1 on its `t_forget`. -/
def revokeOwnEnd : List SysAct :=
  [.revokeInsert 2, .proto (.handle (.stop 2))] ++ commitToBuffers 1 0 ++
    [.proto (.commit .getTail), .proto (.commit (.install false)), .proto (.commit .setJflush),
      .proto (.commit .record), .proto (.commit .updateTail), .forgetBuffer,
      .proto (.commit .finish), .proto (.commit (.callback true))]

theorem freed_block_not_resurrected_revokeOwn :
    ∃ s₁ s₂ s₃, exec step sampleSystem revokeOwnRun = some s₁ ∧
      s₁.step (.revokeForget 2) = some s₂ ∧ exec step s₂ revokeOwnEnd = some s₃ ∧
      s₃.j.commitRecords = [0, 1] ∧ (s₃.m.bufs 1).dirty = false ∧
      (s₃.m.bufs 1).jbddirty = false ∧ s₃.home 1 = s₂.home 1 := by
  obtain ⟨s₁, hs₁, h₁⟩ := map_eq_some_iff.mp
    (by decide +kernel : (exec step sampleSystem revokeOwnRun).map
      (fun s => (decide (s.ops 2 = .revoking 1 true), decide (s.FreesOwn 2 1),
        ((s.step (.revokeForget 2)).bind fun s => exec step s revokeOwnEnd).map
          fun s => s.j.commitRecords)) = some (true, true, some [0, 1]))
  simp only [Prod.mk.injEq, decide_eq_true_eq] at h₁
  obtain ⟨hop, hown, hrun⟩ := h₁
  obtain ⟨s₃, hs₃, hrec⟩ := map_eq_some_iff.mp hrun
  obtain ⟨s₂, hs₂, hs₃⟩ := bind_eq_some_iff.mp hs₃
  exact ⟨s₁, s₂, s₃, hs₁, hs₂, hs₃, hrec, freed_block_not_resurrected s₁ s₂ s₃ 2 1 revokeOwnEnd
    hop hown hs₂ hs₃ (by simp [revokeOwnEnd, commitToBuffers])⟩

end VMsep.Jbd2
