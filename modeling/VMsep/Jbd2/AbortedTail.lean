import VMsep.Jbd2.Flush
import VMsep.Jbd2.Bookkeeping

/-! Which writes of the superblock are still to come when the journal is aborted, and that without
them neither the superblock nor the list of commit records changes any more. -/

namespace VMsep.Jbd2

open Lib Option

def CommitPhase.tailDecided : CommitPhase → Bool
  | .installed | .jflush | .recorded => true
  | _ => false

structure Spine.TailSettled (s : Spine) : Prop where
  flushed : s.flushed = false
  cleanup : s.cleanup = none
  commit : s.phase.tailDecided = true → s.updateTail = false

theorem Spine.Client.keeps_tail {s s' : Spine} (h : s.Client s') (hset : s.TailSettled) :
    s'.TailSettled ∧ s'.sbTail = s.sbTail ∧ s'.records = s.records := by
  obtain ⟨hfl, hcl, hup⟩ := hset
  cases h with
  | cleanupUpdateTail htail => exact absurd (hcl.symm.trans htail) (by simp)
  | _ => exact ⟨⟨hfl, hcl, hup⟩, rfl, rfl⟩

theorem Spine.Step.keeps_tail {s s' : Spine} {e : Event} (h : s.Step e s')
    (hab : s.aborted = true) (hset : s.TailSettled) (hclean : e = .cleanup → s' = s)
    (hkeep : e = .commit (.install true) → s.updateTail = false) :
    s'.TailSettled ∧ s'.sbTail = s.sbTail ∧ s'.records = s.records := by
  obtain ⟨hfl, hcl, hup⟩ := hset
  cases h with
  | client h => exact h.keeps_tail ⟨hfl, hcl, hup⟩
  | create | noCleanup => exact ⟨⟨hfl, hcl, hup⟩, rfl, rfl⟩
  | cleanup =>
    rw [hclean rfl]
    exact ⟨⟨hfl, hcl, hup⟩, rfl, rfl⟩
  | commit h =>
    cases h with
    | restoreSuperblock _ h => exact absurd (hfl.symm.trans h) (by simp)
    | updateTail hph h => exact absurd ((hup (by rw [hph]; rfl)).symm.trans h) (by simp)
    | @install keep =>
      refine ⟨⟨hfl, hcl, fun _ => ?_⟩, rfl, rfl⟩
      cases keep
      · exact Bool.and_false _
      · exact (Bool.and_true _).trans (hkeep rfl)
    | setJflush hph | record hph =>
      refine ⟨⟨hfl, hcl, fun _ => hup (by rw [hph]; rfl)⟩, rfl, ?_⟩
      first | rfl | exact if_pos hab
    | lockDown _ _ hwait =>
      rcases hwait with rfl | rfl <;> exact ⟨⟨hfl, hcl, (by intros; contradiction)⟩, rfl, rfl⟩
    | credit => exact ⟨⟨hfl, hcl, hup⟩, rfl, rfl⟩
    | _ => exact ⟨⟨hfl, hcl, (by intros; contradiction)⟩, rfl, rfl⟩

theorem Journal.step_aborted {j j' : Journal} {c : Act} (hs : j.step c = some j')
    (hc : c ≠ .abort) : j'.jAborted = j.jAborted := by
  have requested : ∀ tid ino, (j.logStartCommit tid ino).jAborted = j.jAborted := by
    intro tid ino
    obtain h | ⟨t, -, -, -, h⟩ := j.logStartCommit_cases tid ino <;> rw [h]
    rfl
  cases c with
  | abort => exact absurd rfl hc
  | handle => exact congrArg Spine.aborted (handleStep_spine hs)
  | barrier => exact congrArg Spine.aborted (barrierStep_spine hs)
  | commit a =>
    have kept : ∀ s', j.spine.Commit a s' → s'.aborted = j.spine.aborted := by
      intro s' h
      cases h <;> rfl
    exact kept _ (commitStep_spine hs)
  | sync a =>
    cases a with
    | request =>
      simp only [step, syncStep, completeRequest] at hs
      split_ifs at hs
      cases hs
      exact requested _ _
    | begin | check | wait =>
      simp only [step, syncStep, syncFile, completeCheck, waitCommit] at hs
      split_ifs at hs <;> cases hs <;> rfl
  | requestCommit =>
    simp only [step, requestCommit] at hs
    split_ifs at hs
    cases hs
    exact requested _ _
  | timeout =>
    simp only [step, commitTimeout] at hs
    split at hs
    · cases hs
    split_ifs at hs
    cases hs
    rfl
  | cleanupUpdateTail =>
    simp only [step, cleanupUpdateTail] at hs
    split at hs
    · cases hs
    split_ifs at hs
    cases hs
    rfl
  | killThread =>
    cases hs
    rfl
  | getTransaction | dropCheckpoint | cleanupGetTail =>
    simp only [step, startGetTransaction, dropCheckpoint, cleanupGetTail] at hs
    split_ifs at hs <;> cases hs <;> rfl

theorem Journal.Shutdown.aborted {j j' : Journal} (h : j.Shutdown j') :
    j'.jAborted = j.jAborted := by
  cases h with
  | request tid =>
    obtain h | ⟨t, -, -, -, h⟩ := j.logStartCommit_cases tid 0 <;> rw [h]
    rfl
  | step hc hs => exact Journal.step_aborted hs (by rcases hc with rfl | rfl | rfl <;> simp)
  | _ => rfl

namespace Mount

variable {m m' : Mount} {a : MountAct}

structure Settled (m : Mount) : Prop where
  tail : m.j.spine.TailSettled
  flush : ∀ st ∈ m.flushes, st ≠ .tail ∧ st ≠ .markEmpty
  destroy : m.destroy ≠ .lock ∧ m.destroy ≠ .markEmpty
  record : m.record ≠ .tested

/-- The journal is aborted only when no thread is past its last test for an abort, and the commit of
an aborted journal finds less than a quarter of the log to free. -/
def AbortSafe (m : Mount) : MountAct → Prop
  | .journal .abort => m.j.jAborted = false → m.Settled
  | .journal (.commit (.install true)) => m.j.jAborted = true → m.j.updateTail = false
  | _ => True

def SameLog (m m' : Mount) : Prop :=
  m'.superblock = m.superblock ∧ m'.j.commitRecords = m.j.commitRecords

theorem superblock_congr (hsb : m'.j.sbTail = m.j.sbTail)
    (hseq : m'.emptySequence = m.emptySequence) : m'.superblock = m.superblock := by
  simp only [superblock, hsb, hseq]

theorem SameLog.refl (m : Mount) : m.SameLog m := ⟨rfl, rfl⟩

theorem SameLog.trans {m'' : Mount} (h : m.SameLog m') (h' : m'.SameLog m'') : m.SameLog m'' :=
  ⟨h'.1.trans h.1, h'.2.trans h.2⟩

instance (s : Spine) : Decidable s.TailSettled :=
  decidable_of_iff (s.flushed = false ∧ s.cleanup = none ∧
    (s.phase.tailDecided = true → s.updateTail = false))
    ⟨fun ⟨h1, h2, h3⟩ => ⟨h1, h2, h3⟩, fun ⟨h1, h2, h3⟩ => ⟨h1, h2, h3⟩⟩

instance (m : Mount) : Decidable m.Settled :=
  decidable_of_iff (m.j.spine.TailSettled ∧ (∀ st ∈ m.flushes, st ≠ .tail ∧ st ≠ .markEmpty) ∧
    (m.destroy ≠ .lock ∧ m.destroy ≠ .markEmpty) ∧ m.record ≠ .tested)
    ⟨fun ⟨h1, h2, h3, h4⟩ => ⟨h1, h2, h3, h4⟩, fun ⟨h1, h2, h3, h4⟩ => ⟨h1, h2, h3, h4⟩⟩

instance (m : Mount) (a : MountAct) : Decidable (m.AbortSafe a) := by
  unfold AbortSafe
  split <;> infer_instance

theorem Settled.setFlush (hset : m.Settled) (c : ℕ) {st : FlushStage} (ht : st ≠ .tail)
    (hm : st ≠ .markEmpty) : (m.setFlush c st).Settled where
  tail := hset.tail
  flush := fun d hd => by
    rcases List.mem_or_eq_of_mem_set hd with hd | rfl
    · exact hset.flush d hd
    · exact ⟨ht, hm⟩
  destroy := hset.destroy
  record := hset.record

theorem Settled.journal {c : Act} {j' : Journal} (hab : m.j.jAborted = true) (hset : m.Settled)
    (hsafe : m.AbortSafe (.journal c)) (hj : m.j.step c = some j') :
    ({ m with j := j' } : Mount).Settled ∧ j'.jAborted = true ∧
      m.SameLog { m with j := j' } := by
  have hsp := Journal.step_spine hj
  have hclean : m.j.event c = .cleanup → j'.spine = m.j.spine := by
    intro he
    cases c with
    | cleanupGetTail => simp [Journal.step, Journal.cleanupGetTail, hab] at hj
    | getTransaction =>
      simp only [Journal.event] at he
      split_ifs at he
    | _ => cases he
  have hkeep : m.j.event c = .commit (.install true) → m.j.spine.updateTail = false := by
    intro he
    cases c with
    | commit d =>
      obtain rfl : d = .install true := Event.commit.inj he
      exact hsafe hab
    | getTransaction =>
      simp only [Journal.event] at he
      split_ifs at he
    | _ => cases he
  obtain ⟨htail, hsb, hrec⟩ := hsp.keeps_tail hab hset.tail hclean hkeep
  exact ⟨⟨htail, hset.flush, hset.destroy, hset.record⟩, hsp.aborted hab, superblock_congr hsb rfl,
    hrec⟩

/-- A section of `journal_flush` writes nothing after an abort. -/
theorem Settled.flush_step {f : FlushAct} (hab : m.j.jAborted = true) (hset : m.Settled)
    (hs : m.flushStep f = some m') : m'.Settled ∧ m'.j.jAborted = true ∧ m.SameLog m' := by
  -- a section that only moves the call on
  have moved : ∀ (c : ℕ) (st : FlushStage) (b : Bool), st ≠ .tail → st ≠ .markEmpty →
      ({ m.setFlush c st with mutex := b } : Mount).Settled ∧ m.j.jAborted = true ∧
        m.SameLog { m.setFlush c st with mutex := b } := fun c st b ht hm =>
    ⟨⟨(hset.setFlush c ht hm).tail, (hset.setFlush c ht hm).flush,
      (hset.setFlush c ht hm).destroy, hset.record⟩, hab, superblock_congr rfl rfl, rfl⟩
  cases f with
  | begin =>
    simp only [flushStep] at hs
    split_ifs at hs
    cases hs
    have hlog : ∀ tid, (m.j.logStartCommit tid 0).spine.TailSettled ∧
        (m.j.logStartCommit tid 0).jAborted = true ∧
        (m.j.logStartCommit tid 0).sbTail = m.j.sbTail ∧
        (m.j.logStartCommit tid 0).commitRecords = m.j.commitRecords := by
      intro tid
      obtain h | ⟨t, -, -, -, h⟩ := Journal.logStartCommit_cases m.j tid 0 <;> rw [h]
      · exact ⟨hset.tail, hab, rfl, rfl⟩
      · exact ⟨⟨hset.tail.flushed, hset.tail.cleanup, hset.tail.commit⟩, hab, rfl, rfl⟩
    have hcall : ∀ st : FlushStage, st ≠ .tail → st ≠ .markEmpty →
        ∀ st' ∈ m.flushes ++ [st], st' ≠ .tail ∧ st' ≠ .markEmpty := by
      intro st ht hm st' hmem
      rcases List.mem_append.mp hmem with hmem | hmem
      · exact hset.flush st' hmem
      · rw [List.mem_singleton.mp hmem]
        exact ⟨ht, hm⟩
    simp only [flushBegin]
    split
    · obtain ⟨h1, h2, h3, h4⟩ := hlog _
      exact ⟨⟨h1, hcall _ (by simp) (by simp), hset.destroy, hset.record⟩, h2,
        superblock_congr h3 rfl, h4⟩
    all_goals exact ⟨⟨hset.tail, hcall _ (by simp) (by simp), hset.destroy, hset.record⟩, hab,
      .refl _⟩
  | waited c =>
    simp only [flushStep] at hs
    split at hs
    · split_ifs at hs
      cases hs
      exact moved c .checkpoint m.mutex (by simp) (by simp)
    · cases hs
  | checkpointed c =>
    simp only [flushStep, hab, if_true] at hs
    split_ifs at hs
    cases hs
    exact moved c (.done true) m.mutex (by simp) (by simp)
  | lock c =>
    simp only [flushStep] at hs
    split_ifs at hs
    cases hs
    exact moved c .cleanup true (by simp) (by simp)
  | cleanup c =>
    simp only [flushStep, hab, if_true] at hs
    split_ifs at hs
    cases hs
    exact moved c (.done true) false (by simp) (by simp)
  | writeTail =>
    simp only [flushStep] at hs
    rw [if_pos fun h => (hset.flush _ (List.mem_of_getElem? h)).1 rfl] at hs
    cases hs
  | markEmpty =>
    simp only [flushStep] at hs
    rw [if_pos (.inl fun h => (hset.flush _ (List.mem_of_getElem? h)).2 rfl)] at hs
    cases hs
  | check c =>
    simp only [flushStep] at hs
    split_ifs at hs
    cases hs
    exact moved c (.done false) m.mutex (by simp) (by simp)

theorem Settled.destroy_step {d : DestroyAct} (hab : m.j.jAborted = true) (hset : m.Settled)
    (hs : m.destroyStep d = some m') : m'.Settled ∧ m'.j.jAborted = true ∧ m.SameLog m' := by
  cases d with
  | begin | checkpointed | check =>
    simp only [destroyStep, if_pos hab] at hs
    split_ifs at hs
    cases hs
    exact ⟨⟨⟨hset.tail.flushed, hset.tail.cleanup, hset.tail.commit⟩, hset.flush, (by simp),
      hset.record⟩, hab, superblock_congr rfl rfl, rfl⟩
  | commit =>
    simp only [destroyStep] at hs
    split_ifs at hs with hg hrun
    · cases hs
      exact ⟨⟨hset.tail, hset.flush, (by simp), hset.record⟩, hab, superblock_congr rfl rfl, rfl⟩
    obtain ⟨j', hj, rfl⟩ := map_eq_some_iff.mp hs
    obtain ⟨h1, h2, h3⟩ := hset.journal (c := .commit .destroy) hab trivial hj
    exact ⟨⟨h1.tail, h1.flush, (by simp), h1.record⟩, h2, h3⟩
  | lock =>
    simp only [destroyStep] at hs
    rw [if_pos (.inl hset.destroy.1)] at hs
    cases hs
  | markEmpty =>
    simp only [destroyStep, if_pos hset.destroy.2] at hs
    cases hs

theorem Settled.waitRecord (hab : m.j.jAborted = true) (hset : m.Settled)
    (hs : m.waitRecord = some m') : m'.Settled ∧ m'.j.jAborted = true ∧ m.SameLog m' := by
  have haborted : ∀ j : Journal, j.jAborted = true →
      ({ j with jAborted := true } : Journal) = j := by
    rintro ⟨⟩ rfl
    rfl
  unfold Mount.waitRecord at hs
  rw [haborted m.j hab] at hs
  obtain ⟨j', hj, rfl⟩ := map_eq_some_iff.mp hs
  obtain ⟨h1, h2, h3⟩ := hset.journal (c := .commit .record) hab trivial hj
  rw [hab, haborted j' h2]
  exact ⟨⟨h1.tail, h1.flush, h1.destroy, (by simp)⟩, rfl, h3⟩

/-- A step after the abort that is safe leaves the log as it is. -/
theorem Settled.step (hab : m.j.jAborted = true) (hset : m.Settled) (hsafe : m.AbortSafe a)
    (hs : m.step a = some m') : m'.Settled ∧ m'.j.jAborted = true ∧ m.SameLog m' := by
  cases a with
  | journal =>
    simp only [Mount.step] at hs
    split_ifs at hs
    · exact hset.waitRecord hab hs
    · obtain ⟨j', hj, rfl⟩ := map_eq_some_iff.mp hs
      exact hset.journal hab hsafe hj
  | testRecord =>
    simp only [Mount.step, Mount.testRecord, if_pos hab] at hs
    split_ifs at hs
    all_goals
      cases hs
      exact ⟨⟨hset.tail, hset.flush, hset.destroy, (by simp)⟩, hab, superblock_congr rfl rfl, rfl⟩
  | submitRecord =>
    simp only [Mount.step, Mount.submitRecord, if_pos hset.record] at hs
    cases hs
  | flush => exact hset.flush_step hab hs
  | destroy => exact hset.destroy_step hab hs

end Mount

end VMsep.Jbd2
