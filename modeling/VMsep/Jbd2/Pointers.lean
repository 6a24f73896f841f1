import VMsep.Jbd2.TransactionOrder

/-! What the pointers of the journal name in every run, orphaned transactions included. Once a first
transaction exists, `j_running_transaction` is null in no other state than inside the window of a
commit. -/

namespace VMsep.Jbd2

open Lib

structure Pointers (s : Spine) : Prop where
  running_lt : ∀ t, s.running = some t → t < s.nextTx
  running_ne : s.nextTx ≠ 0 → s.phase.inWindow = false → s.running ≠ none
  committing : s.committing = if s.phase.committing then some s.commitTx else none
  order : s.phase.busy = true → s.commitTx < s.nextRunning ∧ s.nextRunning < s.nextTx
  running_eq : s.phase.busy = true → s.phase.inWindow = false → s.running = some s.nextRunning
  orphan : s.phase.inWindow = true → ∀ t, s.running = some t → s.nextRunning < t

namespace Pointers

variable {s s' : Spine}

theorem keep (hp : Pointers s) (hrun : s'.running = s.running) (hnext : s'.nextTx = s.nextTx)
    (hcom : s'.committing = s.committing) (hct : s'.commitTx = s.commitTx)
    (hnr : s'.nextRunning = s.nextRunning) (hwin : s'.phase.inWindow = s.phase.inWindow)
    (hcph : s'.phase.committing = s.phase.committing) (hbusy : s'.phase.busy = s.phase.busy) :
    Pointers s' := by
  constructor
  all_goals simp only [hrun, hnext, hcom, hct, hnr, hwin, hcph, hbusy]
  · exact hp.running_lt
  · exact hp.running_ne
  · exact hp.committing
  · exact hp.order
  · exact hp.running_eq
  · exact hp.orphan

theorem client (hp : Pointers s) (h : s.Client s') : Pointers s' := by
  cases h <;> exact hp.keep rfl rfl rfl rfl rfl rfl rfl rfl

theorem create (hp : Pointers s) (hrun : s.running = none) : Pointers s.create where
  running_lt := fun t ht => by
    cases ht
    exact Nat.lt_succ_self _
  running_ne := fun _ _ => nofun
  committing := hp.committing
  order := fun hb => ⟨(hp.order hb).1, Nat.lt_succ_of_lt (hp.order hb).2⟩
  running_eq := fun hb hw => absurd ((hp.running_eq hb hw).symm.trans hrun) nofun
  orphan := fun hw t ht => by
    cases ht
    exact (hp.order (by cases hph : s.phase <;> simp_all [CommitPhase.inWindow, Spine.create,
      CommitPhase.busy])).2

theorem commit {a : CommitAct} (hp : Pointers s) (h : s.Commit a s') : Pointers s' := by
  have hlt := hp.running_lt
  have hne := hp.running_ne
  have hcom := hp.committing
  have hord := hp.order
  have hrun := hp.running_eq
  cases h with
  | allocNew _ hr hc =>
    refine ⟨?_, fun _ _ => (by intro h; cases h), hc, fun _ => ⟨hlt _ hr, Nat.lt_succ_self _⟩,
      fun _ _ => rfl,
      (by intros; contradiction)⟩
    intro t ht
    cases ht
    exact Nat.lt_succ_self _
  | lockDown hph _ hwait =>
    rcases hwait with rfl | rfl <;>
      exact hp.keep rfl rfl rfl rfl rfl (by simp [hph, CommitPhase.inWindow])
        (by simp [hph, CommitPhase.committing]) (by simp [hph, CommitPhase.busy])
  | switchTransaction hph =>
    exact ⟨(by intros; contradiction), (by intros; contradiction), rfl,
      fun _ => hord (by simp [hph, CommitPhase.busy]), (by intros; contradiction),
      (by intros; contradiction)⟩
  | install hph =>
    simp only [hph, CommitPhase.committing, if_true] at hcom
    have ho := hord (by simp [hph, CommitPhase.busy])
    refine ⟨?_, fun _ _ => (by intro h; cases h), hcom, fun _ => ho, fun _ _ => rfl,
      (by intro h; cases h)⟩
    intro t ht
    cases ht
    exact ho.2
  | finish hph =>
    have hb : s.phase.busy = true := by simp [hph, CommitPhase.busy]
    have hw : s.phase.inWindow = false := by simp [hph, CommitPhase.inWindow]
    exact ⟨hlt, fun hz _ => hne hz hw, rfl, fun _ => hord hb, fun _ _ => hrun hb hw,
      (by intros; contradiction)⟩
  | callback hph =>
    have hw : s.phase.inWindow = false := by simp [hph, CommitPhase.inWindow]
    simp only [hph, CommitPhase.committing, Bool.false_eq_true, if_false] at hcom
    exact ⟨hlt, fun hz _ => hne hz hw, hcom,
      (by intros; contradiction), (by intros; contradiction), (by intros; contradiction)⟩
  | credit => exact hp
  | kjournald hph | destroy hph | ready hph | restoreSuperblock hph | wakeUpdates hph
  | setCommit hph | getTail hph | setJflush hph | record hph | keepTail hph | updateTail hph =>
    exact hp.keep rfl rfl rfl rfl rfl (by simp [hph, CommitPhase.inWindow])
      (by simp [hph, CommitPhase.committing]) (by simp [hph, CommitPhase.busy])

/-- Every step keeps the pointers. -/
theorem step {e : Event} (hp : Pointers s) (hs : s.Step e s') : Pointers s' := by
  cases hs with
  | client h => exact hp.client h
  | create hrun => exact hp.create hrun
  | noCleanup => exact hp
  | cleanup => exact hp.keep rfl rfl rfl rfl rfl rfl rfl rfl
  | commit h => exact hp.commit h

end Pointers

theorem pointers_reset (cfg : Config) : Pointers (journalReset cfg).spine :=
  ⟨nofun, fun h => absurd rfl h, rfl, nofun, nofun, nofun⟩

/-- Every step keeps the pointers in line with the phase. -/
theorem pointers_step {j j' : Journal} {a : Act} (hp : Pointers j.spine)
    (hs : j.step a = some j') : Pointers j'.spine :=
  hp.step (Journal.step_spine hs)

/-- In every state of every run the pointers name what the phase of the commit says. -/
theorem pointers_run {cfg : Config} {j : Journal} {as : List Act}
    (hex : exec Journal.step (journalReset cfg) as = some j) : Pointers j.spine :=
  exec_invariant_all (I := fun j => Pointers j.spine) (fun _ _ _ hp hs => pointers_step hp hs) as
    (pointers_reset cfg) hex

/-- In the window the transaction of the second handle is running; behind it, the preallocated one
is. -/
theorem pointers_run_orphanRun :
    (∃ j, exec Journal.step (journalReset sampleConfig) (orphanRun.take 17) = some j ∧
      Pointers j.spine ∧ j.spine.phase.inWindow = true ∧ j.spine.running = some 2 ∧
      j.spine.committing = some 0) ∧
    ∃ j, exec Journal.step (journalReset sampleConfig) orphanRun = some j ∧ Pointers j.spine ∧
      j.spine.phase.busy = true ∧ j.spine.phase.inWindow = false ∧ j.spine.running = some 1 ∧
      j.spine.committing = some 0 := by
  have hwindow : (exec Journal.step (journalReset sampleConfig) (orphanRun.take 17)).any (fun j =>
      j.spine.phase.inWindow = true ∧ j.spine.running = some 2 ∧ j.spine.committing = some 0) := by
    decide +kernel
  have hbehind : (exec Journal.step (journalReset sampleConfig) orphanRun).any (fun j =>
      j.spine.phase.busy = true ∧ j.spine.phase.inWindow = false ∧ j.spine.running = some 1 ∧
        j.spine.committing = some 0) := by
    decide +kernel
  obtain ⟨j, hj, hwindow⟩ := (Option.any_eq_true _ _).mp hwindow
  obtain ⟨j', hj', hbehind⟩ := (Option.any_eq_true _ _).mp hbehind
  exact ⟨⟨j, hj, pointers_run hj, of_decide_eq_true hwindow⟩,
    j', hj', pointers_run hj', of_decide_eq_true hbehind⟩

end VMsep.Jbd2
