import VMsep.Jbd2.Snapshot

/-! The commit writes the blocks and the contents of the moment when the last handle of its
transaction stopped, whatever the handles of the next transaction do. -/

namespace VMsep.Jbd2

open Lib Jbd2.System

namespace System

variable {s s' : System} {a : SysAct}

theorem phase_of_step (hs : s.step a = some s') (ha : ∀ d, a ≠ .proto (.commit d)) :
    s'.j.phase = s.j.phase := by
  have h := step_cases hs
  by_cases hp : ∃ c, a = .proto c
  · obtain ⟨c, rfl⟩ := hp
    cases h with
    | proto hready hj => exact (Journal.step_phase hj fun d hd => ha d (hd ▸ rfl)).1
  · by_cases hf : a = .copyFailed
    · subst hf
      cases h with
      | copyFailed _ hj => exact (Journal.step_phase (a := .abort) hj (by simp)).1
    · obtain ⟨hcr, tcr, cps, heq⟩ := (h.calm (fun c hc => hp ⟨c, hc⟩) hf).frame
      rw [heq]

theorem upToRecord_of_step (hs : s.step a = some s') (ha : a ≠ .proto (.commit .allocNew))
    (hup : s'.j.phase.upToRecord = true) : s.j.phase.upToRecord = true := by
  by_cases hd : ∃ d, a = .proto (.commit d)
  · obtain ⟨d, rfl⟩ := hd
    cases step_cases hs with
    | @proto _ j' _ hj =>
      obtain ⟨hsrc, htgt⟩ := (Journal.commitStep_spine hj).phases
      change s.j.phase = d.source at hsrc
      change j'.phase = d.target ∨ d = .lockDown ∧ _ at htgt
      change j'.phase.upToRecord = true at hup
      rw [hsrc]
      rcases htgt with htgt | ⟨rfl, -⟩
      · rw [htgt] at hup
        cases d <;> first | rfl | exact absurd rfl ha | cases hup
      · rfl
  · rwa [phase_of_step hs fun d hda => hd ⟨d, hda⟩] at hup

theorem snap_lockedDown (hi : Sound s) (hab : s.j.jAborted = false)
    (hlock : s.j.phase.lockedDown = true) (hzero : s.j.upd s.commitTx = 0) :
    Snap s.ToLog (fun b => (s.m.bufs b).bData) s := by
  have hcom : s.j.phase.committing ≠ true := by
    revert hlock
    cases s.j.phase <;> simp [CommitPhase.lockedDown, CommitPhase.committing]
  have hblocks : s.logBlocks = [] := if_neg hcom
  refine ⟨hzero, ?_, fun b => ?_, fun b hb => ?_⟩
  · rw [hblocks]
    exact List.nodup_nil
  · have hok := (hi.placed hab).ok b
    have hf : (s.m.bufs b).jh.bFrozenData = none := by
      by_contra hf
      exact hcom (hok.frozen hf).2
    have hn : (s.m.bufs b).jh.bNextTransaction = none := by
      by_contra hn
      obtain ⟨r, hr⟩ := Option.ne_none_iff_exists'.mp hn
      exact hcom (hok.next r hr).2.1
    rw [hblocks]
    refine ⟨fun hp => ⟨⟨fun hi => ⟨hp, hi⟩, And.right⟩, ?_, fun h => absurd hn h, (by simp)⟩,
      fun hD => .inl hD.1, (by simp)⟩
    rw [BufferHead.toWrite, hf]
    rfl
  · have hsub := hi.sub
    rw [hb] at hsub
    revert hlock hsub
    cases s.j.phase <;> simp [CommitPhase.lockedDown, subOk]

theorem logsSnapshot_of_snap {s₁ : System} (hi : Sound s) (hab : s.j.jAborted = false)
    (hrec : s.j.phase = .recorded)
    (hsnap : Snap s₁.ToLog (fun b => (s₁.m.bufs b).bData) s) : LogsSnapshot s₁ s := by
  have hstage : ∀ b l, (s.m.bufs b).place = some (s.commitTx, l) → l ≠ .metadata ∧ l ≠ .shadow := by
    intro b l hp
    obtain ⟨htx, hl, -⟩ := BufferHead.place_eq_some_iff.mp hp
    have hst := ((hi.placed hab).ok b).stage (by rw [hrec]; rfl) htx
    rw [hrec, hl] at hst
    constructor <;> rintro rfl <;> cases hst
  have hdone : ∀ l ∈ s.logBlocks, l.io = .done := by
    intro l hl
    by_contra hne
    obtain ⟨hsh, -⟩ := ((hsnap.bufs l.blocknr).entry l hl rfl).2.2 hne
    obtain ⟨htx, hlist, -⟩ := ((hi.placed hab).ok l.blocknr).shadow (.inl hsh)
    exact (hstage l.blocknr .shadow
      (BufferHead.place_eq_some_iff.mpr ⟨htx, hlist, (by simp)⟩)).2 rfl
  refine ⟨hdone, fun l hl => ?_, fun b => ?_, hsnap.nodup⟩
  · exact ((hsnap.bufs l.blocknr).entry l hl rfl).2.1 (hdone l hl)
  rw [List.mem_map]
  constructor
  · rintro ⟨l, hl, rfl⟩
    exact ((hsnap.bufs l.blocknr).entry l hl rfl).1
  · intro hD
    exact ((hsnap.bufs b).logged hD).resolve_left fun hp => (hstage b .metadata hp).1 rfl

end System

/-- In every run whose steps defer no claimed or frozen buffer and keep the tags of the buffers to
commit on their side of the test, the commit record of a transaction closes a log with the blocks
and the contents of the moment when the last handle of the transaction had stopped. -/
theorem commit_snapshot (cfg : Config) (disk : ℕ → BitVec 32 × List (BitVec 8))
    (as bs : List SysAct) (s₁ s₂ : System)
    (hex₁ : exec step (reset cfg disk) as = some s₁)
    (hex₂ : exec step s₁ bs = some s₂)
    (hal₁ : Along step System.DefersUnclaimed (reset cfg disk) as)
    (hal₂ : Along step (fun s a => s.DefersUnclaimed a ∧ s.KeepsTags a) s₁ bs)
    (hlock : s₁.j.phase.lockedDown = true) (hstop : (s₁.j.txs s₁.commitTx).tUpdates = 0)
    (hone : .proto (.commit .allocNew) ∉ bs) (hrec : s₂.j.phase = .recorded)
    (hab : s₂.j.jAborted = false) : System.LogsSnapshot s₁ s₂ := by
  have hal : Along step (fun s a => (s.DefersUnclaimed a ∧ s.KeepsTags a) ∧
      a ≠ .proto (.commit .allocNew)) s₁ bs := by
    refine hal₂.and (along_of_forall fun a ha _ => ?_)
    rintro rfl
    exact hone ha
  have hsound : Sound s₁ := exec_invariant (fun _ _ _ hi hun hs => hi.step hun hs) as
    (sound_reset cfg disk) hex₁ hal₁
  obtain ⟨hi, hsnap⟩ := exec_invariant (I := fun s => Sound s ∧
      (s.j.jAborted = false → s.j.phase.upToRecord = true →
        Snap s₁.ToLog (fun b => (s₁.m.bufs b).bData) s))
    (fun s a s' hi hc hs => ⟨hi.1.step hc.1.1 hs, fun hab' hup' => by
      have hab := not_aborted_of_step hs hab'
      have hup := upToRecord_of_step hs hc.2 hup'
      exact (live_cases hi.1 hc.1.1 hs hab hab').snap hi.1 hab hc.1.2 hup hup'
        (hi.2 hab hup)⟩)
    bs ⟨hsound, fun hab _ => snap_lockedDown hsound hab hlock hstop⟩ hex₂ hal
  exact logsSnapshot_of_snap hi hab hrec (hsnap hab (by rw [hrec]; rfl))

/-- The running transaction is locked for a commit for `ino`; handle 2 joins the next one. -/
def lockWithNext (tid : Tid) (ino : ℕ) : List SysAct :=
  [.proto (.requestCommit tid ino), .proto (.commit .kjournald),
    .proto (.commit .restoreSuperblock), .proto (.commit .allocNew), .proto (.commit .lockDown),
    .proto (.handle (.start 4 0)), .proto (.handle (.startRepeat 2 true))]

/-- The rest of the commit up to the loop over `t_buffers`. -/
def lockedToBuffers : List SysAct :=
  [.proto (.commit .wakeUpdates), .clearRevoked, .switchRevoke,
    .proto (.commit .switchTransaction), .writeRevokes, .proto (.commit .setCommit)]

/-- The commit from the loop over `t_buffers`, with log blocks `ios`, to its commit record. -/
def writeToRecord (ios : List ℕ) : List SysAct :=
  ios.map (fun _ => SysAct.write false) ++
    [.proto (.commit .getTail), .proto (.commit (.install false))] ++ ios.map SysAct.ioDone ++
    ios.map (fun _ => SysAct.waitIo) ++ [.proto (.commit .setJflush), .proto (.commit .record)]

/-- Handle 0 has reported block 1 for inode `ino` and stops when its transaction has been locked
for a commit for inode 5. -/
def lockedRun (ino : ℕ) : List SysAct :=
  firstHandle ++ [.getblk 1] ++ journalBlock 0 1 7 ino ++ lockWithNext 0 5 ++
    [.proto (.handle (.stop 0))]

/-- Handle 2, of the next transaction, gets write access to block 1 with a frozen copy, modifies it
and reports it for inode `ino`. -/
def claimBlock (ino : ℕ) : List SysAct :=
  [.accessBegin 2 1, .accessLock 2, .accessLock 2, .accessCancel 2, .accessPut 2, .modify 2 1 8 [],
    .dirty 2 1 ino]

/-- The commit after the last handle has stopped, with a claim before the loop over `t_buffers`. -/
def retagRun (ino : ℕ) : List SysAct :=
  lockedToBuffers ++ claimBlock ino ++ writeToRecord [0]

/-- Block 1 was not to be logged when the last handle stopped, and is logged after a handle of the
next transaction has stored the tag of the commit. -/
theorem retagRun_adds_block :
    ((exec step sampleSystem (lockedRun 6)).bind fun s₁ =>
      (exec step s₁ (retagRun 5)).map fun s₂ =>
        ((s₁.j.phase.lockedDown, (s₁.j.txs s₁.commitTx).tUpdates, decide (s₁.ToLog 1)),
          s₂.j.phase, s₂.j.jAborted, s₂.logBlocks.map LogBlock.blocknr)) =
      some ((true, 0, false), .recorded, false, [1]) := by
  decide +kernel

/-- The modification by the next transaction does not reach the log. -/
theorem commit_snapshot_retagRun :
    ∃ s₁ s₂, exec step sampleSystem (lockedRun 5) = some s₁ ∧
      exec step s₁ (retagRun 5) = some s₂ ∧ System.LogsSnapshot s₁ s₂ := by
  obtain ⟨s₁, hs₁, h₁⟩ := Option.map_eq_some_iff.mp
    (by decide +kernel : (exec step sampleSystem (lockedRun 5)).map
      (fun s => (s.j.phase.lockedDown, (s.j.txs s.commitTx).tUpdates,
        (exec step s (retagRun 5)).map fun s => (s.j.phase, s.j.jAborted),
        decide (Along step (fun s a => s.DefersUnclaimed a ∧ s.KeepsTags a) s
          (retagRun 5)))) = some (true, 0, some (.recorded, false), true))
  simp only [Prod.mk.injEq, decide_eq_true_eq] at h₁
  obtain ⟨hlock, hstop, hrest, hal⟩ := h₁
  obtain ⟨s₂, hs₂, h₂⟩ := Option.map_eq_some_iff.mp hrest
  simp only [Prod.mk.injEq] at h₂
  exact ⟨s₁, s₂, hs₁, hs₂, commit_snapshot sampleConfig _ (lockedRun 5) (retagRun 5) s₁ s₂ hs₁ hs₂
    (by decide +kernel) hal hlock hstop (by decide +kernel) h₂.1 h₂.2⟩

/-- `t_updates` counts the handles of a transaction; one in commit has none. -/
theorem updates_counted {cfg : Config} {disk as} {s : System}
    (hex : exec step (reset cfg disk) as = some s) :
    (∀ t, s.j.upd t = total (attached t) s.j.nextHandle s.j.att) ∧
    (s.j.phase.quiet = true → ∀ h, s.j.att h ≠ some s.commitTx) := by
  have hi := exec_invariant_all (I := (QuietInv ·.j)) (fun _ _ _ hi hs => quietInv_step hs hi) as
    (quietInv_reset cfg) hex
  exact ⟨hi.counts, fun hph h hatt => hi.att_ne hph hatt rfl⟩

/-- At the commit record the handle of the next transaction is the only one. -/
theorem updates_counted_retagRun :
    ∃ s, exec step sampleSystem (lockedRun 5 ++ retagRun 5) = some s ∧ s.j.phase.quiet = true ∧
      s.j.att 2 = some 1 ∧ (∀ t, s.j.upd t = total (attached t) s.j.nextHandle s.j.att) ∧
      ∀ h, s.j.att h ≠ some s.commitTx := by
  obtain ⟨s, hs, hend⟩ := Option.map_eq_some_iff.mp
    (by decide +kernel : (exec step sampleSystem (lockedRun 5 ++ retagRun 5)).map
      (fun s => (s.j.phase.quiet, s.j.att 2)) = some (true, some 1))
  simp only [Prod.mk.injEq] at hend
  obtain ⟨hcounts, hquiet⟩ := updates_counted hs
  exact ⟨s, hs, hend.1, hend.2, hcounts, hquiet hend.1⟩

end VMsep.Jbd2
