import VMsep.Jbd2.Updates

/-! Once the commit routine holds `j_state_lock` with no update left, no handle is attached to the
transaction it commits, and none joins it: `start_this_handle` joins `j_running_transaction`, which
names another transaction from `alloc_new_transaction` on. -/

namespace VMsep.Jbd2

open Lib Function

def CommitPhase.quiet : CommitPhase → Bool
  | .switching | .callback => true
  | ph => ph.committing

variable {ph : CommitPhase} {s s' : Spine} {e : Event}

theorem CommitPhase.quiet_of_committing (h : ph.committing = true) : ph.quiet = true := by
  cases ph <;> first | rfl | cases h

theorem CommitPhase.quiet_busy (h : ph.quiet = true) : ph.busy = true := by
  cases ph <;> first | rfl | cases h

def CommitPhase.pastRecord : CommitPhase → Bool
  | .recorded | .forgetting | .callback => true
  | _ => false

theorem Spine.Step.commitTx_eq (hs : s.Step e s') (he : e ≠ .commit .allocNew) :
    s'.commitTx = s.commitTx ∧ s'.nextRunning = s.nextRunning := by
  cases hs with
  | client h => cases h <;> exact ⟨rfl, rfl⟩
  | create | noCleanup | cleanup => exact ⟨rfl, rfl⟩
  | commit h => cases h <;> first | exact ⟨rfl, rfl⟩ | exact absurd rfl he

theorem Spine.Step.records_subset (hs : s.Step e s') : s.records ⊆ s'.records := by
  cases hs with
  | client h => cases h <;> exact List.Subset.refl _
  | create | noCleanup | cleanup => exact List.Subset.refl _
  | commit h =>
    cases h with
    | record =>
      change s.records ⊆ if s.aborted then s.records else s.records ++ [s.commitTx]
      split_ifs
      · exact List.Subset.refl _
      · exact List.subset_append_left _ _
    | _ => exact List.Subset.refl _

def Spine.RecordDone (s : Spine) : Prop :=
  s.aborted = false → s.phase.pastRecord = true → s.commitTx ∈ s.records

theorem Spine.RecordDone.step (h : s.RecordDone) (hs : s.Step e s') : s'.RecordDone := by
  intro hab hph
  cases hs with
  | client hc => cases hc <;> first | exact h hab hph | cases hab
  | create | noCleanup | cleanup => exact h hab hph
  | commit hc =>
    cases hc with
    | record =>
      change s.commitTx ∈ if s.aborted then s.records else s.records ++ [s.commitTx]
      rw [if_neg (by simpa using hab)]
      simp
    | credit => exact h hab hph
    | lockDown _ _ hwait => rcases hwait with rfl | rfl <;> cases hph
    | keepTail hph0 | updateTail hph0 | finish hph0 => exact h hab (by rw [hph0]; rfl)
    | _ => cases hph

theorem Spine.Step.committed (hs : s.Step e s') (h : s.RecordDone) (hab : s.aborted = false)
    (hb : s.phase.busy = true) :
    s'.commitTx = s.commitTx ∧ s'.phase.busy = true ∨ s.commitTx ∈ s'.records := by
  cases hs with
  | client hc => cases hc <;> exact .inl ⟨rfl, hb⟩
  | create | noCleanup | cleanup => exact .inl ⟨rfl, hb⟩
  | commit hc =>
    cases hc with
    | kjournald hph | destroy hph | ready hph | restoreSuperblock hph | allocNew hph =>
      rw [hph] at hb
      cases hb
    | callback hph => exact .inr (h hab (by rw [hph]; rfl))
    | lockDown _ _ hwait => rcases hwait with rfl | rfl <;> exact .inl ⟨rfl, rfl⟩
    | credit => exact .inl ⟨rfl, hb⟩
    | _ => exact .inl ⟨rfl, rfl⟩

theorem Pointers.running_ne_commitTx (hp : Pointers s) (hb : s.phase.busy = true) {t : ℕ}
    (ht : s.running = some t) : t ≠ s.commitTx := by
  have hlt := (hp.order hb).1
  cases hw : s.phase.inWindow with
  | true =>
    have := hp.orphan hw t ht
    omega
  | false =>
    cases (hp.running_eq hb hw).symm.trans ht
    omega

theorem Spine.Step.commit_fields (hs : s.Step e s') (hp : Pointers s) (hb : s.phase.busy = true) :
    s'.inoSync s.commitTx = s.inoSync s.commitTx ∧
      (e ≠ .commit .switchTransaction → s'.logStart s.commitTx = s.logStart s.commitTx) := by
  have hlt : s.commitTx < s.nextTx := (hp.order hb).1.trans (hp.order hb).2
  cases hs with
  | client h =>
    cases h with
    | request ht | abortRequest ht =>
      have hne := hp.running_ne_commitTx hb ht
      exact ⟨update_of_ne (Ne.symm hne) _ _, fun _ => rfl⟩
    | _ => exact ⟨rfl, fun _ => rfl⟩
  | create =>
    exact ⟨update_of_ne hlt.ne _ _, fun _ => update_of_ne hlt.ne _ _⟩
  | noCleanup | cleanup => exact ⟨rfl, fun _ => rfl⟩
  | commit h =>
    cases h with
    | allocNew hph =>
      rw [hph] at hb
      cases hb
    | switchTransaction => exact ⟨rfl, fun h => absurd rfl h⟩
    | _ => exact ⟨rfl, fun _ => rfl⟩

namespace Journal

variable {j j' : Journal} {a : Act}

def Quiet (j : Journal) : Prop := j.phase.quiet = true → j.upd j.commitTransaction = 0

theorem event_ne_commit (ha : ∀ c, a ≠ .commit c) (c : CommitAct) : j.event a ≠ .commit c := by
  cases a with
  | commit d => exact absurd rfl (ha d)
  | getTransaction =>
    simp only [event]
    split_ifs <;> simp
  | _ => simp [event]

theorem step_phase (hs : j.step a = some j') (ha : ∀ c, a ≠ .commit c) :
    j'.phase = j.phase ∧ j'.commitTransaction = j.commitTransaction ∧
      j'.runningTransaction = j.runningTransaction := by
  have hne := event_ne_commit (j := j) ha
  have hsp := step_spine hs
  exact ⟨hsp.phase_eq hne, hsp.commitTx_eq (hne .allocNew)⟩

theorem commitTransaction_eq (hs : j.step a = some j') (hb : j.phase.busy = true) :
    j'.commitTransaction = j.commitTransaction := by
  have hsp := step_spine hs
  refine (hsp.commitTx_eq fun he => ?_).1
  have hcm : j.spine.Commit .allocNew j'.spine := by
    rw [he] at hsp
    cases hsp with
    | commit h => exact h
  have hph : j.phase = .ready := hcm.phases.1
  rw [hph] at hb
  cases hb

theorem Quiet.commitStep {c : CommitAct} (hq : j.Quiet) (hs : j.commitStep c = some j') :
    j'.Quiet := by
  intro hph
  have hsp := commitStep_spine hs
  by_cases halloc : c = .allocNew
  · subst halloc
    have hph' : j'.phase = .allocated := by
      rcases hsp.phases.2 with h | ⟨h, -⟩
      · exact h
      · cases h
    rw [hph'] at hph
    cases hph
  · have hupd := commitStep_upd hs halloc
    have hct : j'.commitTransaction = j.commitTransaction :=
      (Spine.Step.commit hsp).commitTx_eq (by simpa using halloc) |>.1
    cases c with
    | lockDown =>
      simp only [Journal.commitStep, lockDown] at hs
      split_ifs at hs with hg hu
      · rw [beginSwitch_eq hs]
        exact hu
      · cases hs
        cases hph
    | wakeUpdates =>
      simp only [Journal.commitStep, wakeUpdates] at hs
      split_ifs at hs with hg
      simp only [ne_eq, not_or, not_not] at hg
      rw [beginSwitch_eq hs]
      exact hg.2
    | _ =>
      rw [hupd, hct]
      refine hq ?_
      have hsrc : j.phase = _ := hsp.phases.1
      rcases hsp.phases.2 with h | ⟨h, -⟩
      · have htgt : j'.phase = _ := h
        rw [htgt] at hph
        rw [hsrc]
        first | rfl | cases hph
      · cases h

end Journal

/-- A transaction to commit that has lost its last update gets no new one. -/
theorem UpdatesInv.upd_zero {j j' : Journal} {a : Act} (hi : UpdatesInv j)
    (hbusy : j.phase.busy = true) (hzero : j.upd j.commitTransaction = 0)
    (hs : j.step a = some j') : j'.upd j.commitTransaction = 0 := by
  have hlt : j.commitTransaction < j.nextTx :=
    (hi.pointers.order hbusy).1.trans (hi.pointers.order hbusy).2
  cases Journal.step_attachment hs with
  | same _ hupd => rw [hupd, hzero]
  | start _ hupd => rw [hupd, hzero]
  | create _ hupd => rw [hupd, update_of_ne hlt.ne, hzero]
  | join _ t _ hrun _ _ _ hupd =>
    have hne : t ≠ j.commitTransaction := hi.pointers.running_ne_commitTx hbusy hrun
    rw [hupd, update_of_ne (Ne.symm hne), hzero]
  | leave _ t hatt0 _ hupd =>
    have hne : t ≠ j.commitTransaction := by
      rintro rfl
      have := hi.upd_pos hatt0
      omega
    rw [hupd, update_of_ne (Ne.symm hne), hzero]

/-- `UpdatesInv` with the facts that the committing transaction is quiet and gets its commit
record. -/
structure QuietInv (j : Journal) : Prop extends UpdatesInv j where
  quiet : j.Quiet
  recorded : j.spine.RecordDone

namespace QuietInv

variable {j j' : Journal} {a : Act}

theorem att_ne (hi : QuietInv j) (hph : j.phase.quiet = true) {h t : ℕ}
    (hatt : j.att h = some t) : t ≠ j.commitTransaction := by
  rintro rfl
  have hpos := hi.upd_pos hatt
  have hzero := hi.quiet hph
  omega

/-- Every step keeps the transaction in commit without handles. -/
theorem step (hi : QuietInv j) (hs : j.step a = some j') : QuietInv j' := by
  refine ⟨hi.toUpdatesInv.step hs, ?_, hi.recorded.step (Journal.step_spine hs)⟩
  by_cases hcom : ∃ c, a = .commit c
  · obtain ⟨c, rfl⟩ := hcom
    exact hi.quiet.commitStep hs
  obtain ⟨hph, hct, -⟩ := Journal.step_phase hs fun c hc => hcom ⟨c, hc⟩
  intro hq
  rw [hph] at hq
  rw [hct]
  exact hi.upd_zero (CommitPhase.quiet_busy hq) (hi.quiet hq) hs

end QuietInv

theorem quietInv_reset (cfg : Config) : QuietInv (journalReset cfg) :=
  ⟨updatesInv_reset cfg, nofun, nofun⟩

end VMsep.Jbd2
