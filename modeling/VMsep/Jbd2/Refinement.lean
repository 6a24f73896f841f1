import VMsep.Jbd2.Protocol

/-! Every step of the protocol is a step of the abstract machine on the spine of the journal. Handle
and barrier calls do not touch the spine, and the commit routine touches neither handles nor
barriers. -/

namespace VMsep.Jbd2

namespace Journal

def spine (j : Journal) : Spine :=
  { aborted := j.jAborted, running := j.jRunningTransaction
    committing := j.jCommittingTransaction, checkpoints := j.jCheckpointTransactions
    head := j.jHead, tail := j.jTail, transactionSequence := j.jTransactionSequence
    commitSequence := j.jCommitSequence, commitRequest := j.jCommitRequest
    nextTx := j.nextTx, tid := fun t => (j.txs t).tTid, state := fun t => (j.txs t).tState
    inoSync := fun t => (j.txs t).inoSync, logStart := fun t => (j.txs t).tLogStart
    phase := j.phase, commitTx := j.commitTransaction, nextRunning := j.runningTransaction
    firstTail := j.firstTail, updateTail := j.updateTail, cleanup := j.cleanup
    sbTail := j.sbTail, flushed := j.jFlushed, records := j.commitRecords }

variable {j j' : Journal} {a : BarrierAct}

/-- What a handle call can do. -/
inductive HandleMove (j : Journal) : HandleAct → Journal → Prop
  | same (a : HandleAct) : j.HandleMove a j
  | start (n r : ℕ) : j.HandleMove (.start n r) (j.journalStart n r)
  | fail {a : HandleAct} {h : ℕ} (e : Errno)
      (hst : (j.handles h).stage = .starting ∨ (j.handles h).stage = .needTransaction)
      (hres : (j.handles h).hReserved = false) :
      j.HandleMove a (j.setHandle h fun x => { x with stage := .failed e })
  | need {h : ℕ} {room : Bool} (hst : (j.handles h).stage = .starting) :
      j.HandleMove (.startRepeat h room)
        (j.setHandle h fun x => { x with stage := .needTransaction })
  | joinReserved {h t : ℕ} {room : Bool} (hst : (j.handles h).stage = .starting)
      (hfree : j.stateLockFree = true) (hrun : j.jRunningTransaction = some t)
      (hres : (j.handles h).hReserved = true) :
      j.HandleMove (.startRepeat h room) ((({ j with
        jReservedCredits := j.jReservedCredits - (j.handles h).hBufferCredits }
          ).setAccounted (some h) false).attachHandle h t)
  | join {h t : ℕ} {room : Bool} (hst : (j.handles h).stage = .starting)
      (hfree : j.stateLockFree = true) (hrun : j.jRunningTransaction = some t)
      (hres : (j.handles h).hReserved = false) (hbar : j.jBarrierCount = 0)
      (hmax : (j.txs t).tOutstandingCredits + (((j.handles h).hBufferCredits : ℤ) + j.rsvBlocks h) ≤
        j.jMaxTransactionBuffers)
      (hhalf : j.rsvBlocks h ≠ 0 →
        j.jReservedCredits + j.rsvBlocks h ≤ j.jMaxTransactionBuffers / 2) :
      j.HandleMove (.startRepeat h room) ((({ j.setTx t (fun x => { x with
          tOutstandingCredits := (j.txs t).tOutstandingCredits +
            (((j.handles h).hBufferCredits : ℤ) + j.rsvBlocks h) }) with
        jReservedCredits := j.jReservedCredits + j.rsvBlocks h }
          ).setAccounted (j.handles h).hRsvHandle true).attachHandle h t)
  | ref {a : HandleAct} {h : ℕ} (n : ℕ) (hst : (j.handles h).stage = .attached) :
      j.HandleMove a (j.setHandle h fun x => { x with hRef := n })
  | credit {a : HandleAct} {h : ℕ} (c : ℕ) (ha : a = .useCredit h ∨ a = .returnCredit h)
      (hst : (j.handles h).stage = .attached) :
      j.HandleMove a (j.setHandle h fun x => { x with hBufferCredits := c })
  | stop {h t : ℕ} (hst : (j.handles h).stage = .attached)
      (htx : (j.handles h).hTransaction = some t) (href : (j.handles h).hRef ≤ 1) :
      j.HandleMove (.stop h) ((j.leaveTransaction h t).setHandle h fun x => { x with
        stage := if x.hRsvHandle = none then .stopped else .stopping, hTransaction := none })
  | stopRelease {h r : ℕ} (hst : (j.handles h).stage = .stopping)
      (hr : (j.handles h).hRsvHandle = some r) :
      j.HandleMove (.stopRelease h)
        ((j.releaseReserved r).setHandle h fun x => { x with stage := .stopped })
  | extend {h n t : ℕ} {room : Bool} (hst : (j.handles h).stage = .attached)
      (htx : (j.handles h).hTransaction = some t)
      (hmax : (j.txs t).tOutstandingCredits + n ≤ j.jMaxTransactionBuffers) :
      j.HandleMove (.extend h n room) ((j.setTx t fun x =>
          { x with tOutstandingCredits := x.tOutstandingCredits + n }).setHandle h
        fun x => { x with hBufferCredits := x.hBufferCredits + n })
  | restart {h n t : ℕ} {st : HandleStage} (hst : (j.handles h).stage = .attached)
      (htx : (j.handles h).hTransaction = some t) (hab : j.jAborted = false)
      (hnew : st = .failed .enospc ∨ st = .starting) :
      j.HandleMove (.restart h n) ((({ j.leaveTransaction h t with
          jReservedCredits := j.jReservedCredits - j.rsvBlocks h }
            ).setAccounted (j.handles h).hRsvHandle false).setHandle h fun x =>
        { x with stage := st, hTransaction := none, hBufferCredits := n })
  | takeReserved {h r : ℕ} (hst : (j.handles h).stage = .attached)
      (hr : (j.handles h).hRsvHandle = some r) :
      j.HandleMove (.takeReserved h) ((j.setHandle r fun x =>
        { x with stage := .reserved }).setHandle h fun x => { x with hRsvHandle := none })
  | startReserved {r : ℕ} (hst : (j.handles r).stage = .reserved) :
      j.HandleMove (.startReserved r) (j.setHandle r fun x => { x with stage := .starting })
  | freeReserved {r : ℕ} (hst : (j.handles r).stage = .reserved) :
      j.HandleMove (.freeReserved r) (j.releaseReserved r)

theorem startRepeat_move {h : ℕ} {room : Bool} (hs : j.startRepeat h room = some j') :
    j.HandleMove (.startRepeat h room) j' := by
  unfold startRepeat at hs
  dsimp only at hs
  split at hs
  · cases hs
  rename_i hguard
  simp only [ne_eq, not_or, not_not, Bool.not_eq_true', Bool.not_eq_false] at hguard
  split at hs
  · simp only [startFail] at hs
    split_ifs at hs with hres
    cases hs
    exact .fail _ (.inl hguard.1) (by simpa using hres)
  split at hs
  · cases hs
    exact .same _
  rename_i hbar
  split at hs
  · cases hs
    exact .need hguard.1
  rename_i t hrun
  split at hs
  · rename_i hres
    cases hs
    exact .joinReserved hguard.1 hguard.2.1 hrun hres
  rename_i hres
  have hres : (j.handles h).hReserved = false := by simpa using hres
  split at hs
  · cases hs
    exact .same _
  rename_i hadd
  simp only [addTransactionCredits] at hadd
  split_ifs at hadd with _ hmax _ hhalf
  cases hadd
  cases hs
  refine .join hguard.1 hguard.2.1 hrun hres (by simpa [hres] using hbar) (not_lt.mp hmax) ?_
  exact fun hr => not_lt.mp fun hlt => hhalf ⟨hr, hlt⟩

theorem handleStep_move {a : HandleAct} (hs : j.handleStep a = some j') : j.HandleMove a j' := by
  cases a with
  | start n r =>
    cases hs
    exact .start n r
  | startRepeat => exact startRepeat_move hs
  | startNomem =>
    simp only [handleStep, startNomem, startFail] at hs
    split_ifs at hs with hst hres
    cases hs
    exact .fail _ (.inr (not_not.mp hst)) (by simpa using hres)
  | nest =>
    simp only [handleStep, nestHandle] at hs
    split_ifs at hs with hst
    cases hs
    exact .ref _ (not_not.mp hst)
  | stop h =>
    simp only [handleStep, journalStop] at hs
    split at hs
    · rename_i t hst htx
      split_ifs at hs with hu href <;> cases hs
      · exact .ref _ hst
      · exact .stop hst htx (not_lt.mp href)
    · cases hs
  | stopRelease h =>
    simp only [handleStep, stopRelease] at hs
    split at hs
    · rename_i hst hr
      cases hs
      exact .stopRelease hst hr
    · cases hs
  | extend h n room =>
    simp only [handleStep, journalExtend] at hs
    split at hs
    · rename_i t hst htx
      split_ifs at hs with h1 h2 h3 hmax <;> cases hs
      · exact .same _
      · exact .same _
      · exact .same _
      · exact .extend hst htx (not_lt.mp fun hlt => hmax (.inl hlt))
    · cases hs
  | restart h n =>
    simp only [handleStep, journalRestart] at hs
    split at hs
    · rename_i t hst htx
      split_ifs at hs with hab <;> cases hs
      · exact .same _
      · exact .restart hst htx (by simpa using hab) (.inl rfl)
      · exact .restart hst htx (by simpa using hab) (.inr rfl)
    · cases hs
  | takeReserved h =>
    simp only [handleStep, takeReserved] at hs
    split at hs
    · rename_i hst hr
      cases hs
      exact .takeReserved hst hr
    · cases hs
  | startReserved =>
    simp only [handleStep, startReserved] at hs
    split_ifs at hs with hst
    cases hs
    exact .startReserved (by_contra fun hne => hst (.inl hne))
  | freeReserved =>
    simp only [handleStep, freeReserved] at hs
    split_ifs at hs with hst
    cases hs
    exact .freeReserved (not_not.mp hst)
  | useCredit =>
    simp only [handleStep, useCredit] at hs
    split_ifs at hs with hst
    cases hs
    exact .credit _ (.inl rfl) (by_contra fun hne => hst (.inl hne))
  | returnCredit =>
    simp only [handleStep, returnCredit] at hs
    split_ifs at hs with hst
    cases hs
    exact .credit _ (.inr rfl) (not_not.mp hst)

@[simp]
theorem spine_setHandle (j : Journal) (h : ℕ) (f : Handle → Handle) :
    (j.setHandle h f).spine = j.spine := rfl

@[simp]
theorem spine_setBarrier (j : Journal) (c : ℕ) (b : BarrierStage) :
    (j.setBarrier c b).spine = j.spine := rfl

@[simp]
theorem spine_setSync (j : Journal) (c : ℕ) (st : SyncStage) :
    (j.setSync c st).spine = j.spine := rfl

@[simp]
theorem spine_setAccounted (j : Journal) (r : Option ℕ) (b : Bool) :
    (j.setAccounted r b).spine = j.spine := by
  cases r <;> rfl

@[simp]
theorem spine_reservedCredits (j : Journal) (n : ℤ) :
    ({ j with jReservedCredits := n } : Journal).spine = j.spine := rfl

theorem spine_setTx (j : Journal) (t : ℕ) {f : Transaction → Transaction}
    (hf : ∀ x, (f x).tTid = x.tTid ∧ (f x).tState = x.tState ∧ (f x).inoSync = x.inoSync ∧
      (f x).tLogStart = x.tLogStart) : (j.setTx t f).spine = j.spine := by
  obtain ⟨h1, h2, h3, h4⟩ := hf (j.txs t)
  apply Spine.ext <;> try rfl
  all_goals
    funext u
    by_cases hu : u = t <;> simp [spine, setTx, hu, h1, h2, h3, h4]

@[simp]
theorem spine_setState (j : Journal) (t : ℕ) (st : TState) :
    (j.setState t st).spine = j.spine.setState t st := by
  apply Spine.ext <;> try rfl
  all_goals
    funext u
    by_cases hu : u = t <;> simp [spine, setState, setTx, Spine.setState, hu]

theorem spine_setInoSync (j : Journal) (t ino : ℕ) :
    (j.setTx t fun x => { x with inoSync := ino }).spine =
      { j.spine with inoSync := Function.update j.spine.inoSync t ino } := by
  apply Spine.ext <;> try rfl
  all_goals
    funext u
    by_cases hu : u = t <;> simp [spine, setTx, hu]

@[simp]
theorem spine_jbd2GetTransaction (j : Journal) : j.jbd2GetTransaction.spine = j.spine.create := by
  apply Spine.ext <;> try rfl
  all_goals
    funext u
    by_cases hu : u = j.nextTx <;>
      simp [spine, jbd2GetTransaction, Spine.create, Transaction.zero, hu]

@[simp]
theorem spine_attachHandle (j : Journal) (h : ℕ) (t : ℕ) :
    (j.attachHandle h t).spine = j.spine := by
  simp [attachHandle, spine_setTx]

@[simp]
theorem spine_leaveTransaction (j : Journal) (h : ℕ) (t : ℕ) :
    (j.leaveTransaction h t).spine = j.spine := by
  simp [leaveTransaction, spine_setTx]

@[simp]
theorem spine_releaseReserved (j : Journal) (r : ℕ) : (j.releaseReserved r).spine = j.spine := rfl

theorem handleStep_spine {a : HandleAct} (hs : j.handleStep a = some j') : j'.spine = j.spine := by
  cases handleStep_move hs with
  | joinReserved | join | stop | extend | restart => simp [spine_setTx]
  | _ => rfl

theorem barrierStep_frame (hs : j.barrierStep a = some j') :
    ∃ n m bs k, j' = { j with
      jBarrierCount := n, jBarrier := m, barriers := bs, nextBarrier := k } := by
  cases a with
  | check =>
    simp only [barrierStep, lockUpdatesCheck] at hs
    split_ifs at hs
    split at hs
    · cases hs
      exact ⟨_, _, _, _, rfl⟩
    · split_ifs at hs <;> cases hs <;> exact ⟨_, _, _, _, rfl⟩
  | _ =>
    simp only [barrierStep, lockUpdates, lockUpdatesReserved, lockUpdatesMutex, unlockUpdates,
      unlockUpdatesCount] at hs
    split_ifs at hs
    all_goals
      cases hs
      exact ⟨_, _, _, _, rfl⟩

theorem barrierStep_spine (hs : j.barrierStep a = some j') : j'.spine = j.spine := by
  obtain ⟨n, m, bs, k, rfl⟩ := barrierStep_frame hs
  rfl

theorem beginSwitch_eq (hs : j.beginSwitch = some j') : j' = { j with phase := .switching } := by
  simp only [beginSwitch] at hs
  split_ifs at hs
  exact (Option.some.inj hs).symm

theorem lockDown_eq (hs : j.lockDown = some j') :
    j.phase = .allocated ∧ (j.txs j.commitTransaction).tState = .running ∧
      ∃ ph, (ph = .switching ∨ ph = .waitUpdates) ∧
        j' = { (j.setState j.commitTransaction .locked).setState j.runningTransaction .running
          with phase := ph } := by
  simp only [lockDown] at hs
  split_ifs at hs with hg hu
  · simp only [ne_eq, not_or, not_not] at hg
    exact ⟨hg.1, hg.2, .switching, .inl rfl, beginSwitch_eq hs⟩
  · simp only [ne_eq, not_or, not_not] at hg
    exact ⟨hg.1, hg.2, .waitUpdates, .inr rfl, (Option.some.inj hs).symm⟩

theorem logStartCommit_cases (j : Journal) (target : Tid) (ino : ℕ) :
    j.logStartCommit target ino = j ∨
      ∃ t, j.jRunningTransaction = some t ∧ (j.txs t).tTid = target ∧ j.jCommitRequest ≠ target ∧
        j.logStartCommit target ino =
          { j.setTx t (fun x => { x with inoSync := ino }) with jCommitRequest := target } := by
  unfold logStartCommit
  split_ifs with h1
  · exact .inl rfl
  split
  · exact .inl rfl
  rename_i t ht
  split_ifs with h2
  · exact .inr ⟨t, ht, h2, h1, rfl⟩
  · exact .inl rfl

theorem logStartCommit_spine (j : Journal) (target : Tid) (ino : ℕ) :
    (j.logStartCommit target ino).spine = j.spine ∨ ∃ t, j.spine.running = some t ∧
        (j.logStartCommit target ino).spine =
          { j.spine with
            commitRequest := j.spine.tid t
            inoSync := Function.update j.spine.inoSync t ino } := by
  obtain h | ⟨t, ht, htid, -, h⟩ := j.logStartCommit_cases target ino
  · exact .inl (by rw [h])
  refine .inr ⟨t, ht, ?_⟩
  rw [h, ← htid]
  exact congrArg (fun s : Spine => { s with commitRequest := (j.txs t).tTid })
    (spine_setInoSync j t ino)

theorem commitStep_spine {a : CommitAct} (hs : j.commitStep a = some j') :
    j.spine.Commit a j'.spine := by
  cases a with
  | kjournald =>
    simp only [commitStep, kjournald] at hs
    split_ifs at hs with hg
    cases hs
    simp only [ne_eq, not_or, not_not] at hg
    exact .kjournald hg.1 hg.2.2
  | destroy =>
    simp only [commitStep, destroyCommit] at hs
    split_ifs at hs with hg
    cases hs
    simp only [ne_eq, not_or, not_not] at hg
    exact .destroy hg.1 hg.2.2
  | restoreSuperblock =>
    simp only [commitStep, restoreSuperblock] at hs
    split_ifs at hs with hg hfl <;> cases hs
    · exact .ready (not_not.mp hg) (by simpa [spine] using hfl)
    · exact .restoreSuperblock (not_not.mp hg) (by simpa [spine] using hfl)
  | allocNew =>
    simp only [commitStep, allocNewTransaction] at hs
    split at hs
    · cases hs
    rename_i t ht
    split_ifs at hs with hg
    cases hs
    simp only [ne_eq, not_or, not_not] at hg
    have h := Spine.Commit.allocNew (s := j.spine) hg.1 ht hg.2
    rw [← spine_jbd2GetTransaction] at h
    exact h
  | lockDown =>
    obtain ⟨hph, hst, ph, hwait, rfl⟩ := lockDown_eq hs
    have h := Spine.Commit.lockDown (s := j.spine) hph hst hwait
    change j.spine.Commit _ { ((j.setState _ _).setState _ _).spine with phase := ph }
    rw [spine_setState, spine_setState]
    exact h
  | wakeUpdates =>
    simp only [commitStep, wakeUpdates] at hs
    split_ifs at hs with hg
    simp only [ne_eq, not_or, not_not] at hg
    rw [beginSwitch_eq hs]
    exact .wakeUpdates hg.1
  | switchTransaction =>
    simp only [commitStep, switchTransaction] at hs
    split_ifs at hs with hg
    cases hs
    convert Spine.Commit.switchTransaction (s := j.spine) (not_not.mp hg) using 1
    apply Spine.ext <;> try rfl
    all_goals
      funext u
      by_cases hu : u = j.commitTransaction <;> simp [spine, setTx, Spine.setState, hu]
  | setCommit =>
    simp only [commitStep, setCommit] at hs
    split_ifs at hs with hg
    cases hs
    have h := Spine.Commit.setCommit (s := j.spine) (not_not.mp hg)
    rw [← spine_setState] at h
    exact h
  | credit =>
    simp only [commitStep, commitCredit] at hs
    split_ifs at hs with hg
    cases hs
    rw [spine_setTx]
    · exact .credit (not_not.mp hg)
    · exact fun _ => ⟨rfl, rfl, rfl, rfl⟩
  | getTail =>
    simp only [commitStep, commitGetTail] at hs
    split_ifs at hs with hg
    cases hs
    exact .getTail (not_not.mp hg)
  | install keep =>
    simp only [commitStep, installRunning] at hs
    split_ifs at hs with hg
    cases hs
    simp only [ne_eq, not_or, not_not] at hg
    have h := @Spine.Commit.install j.spine keep hg.1 hg.2
    rw [← spine_setState] at h
    exact h
  | setJflush =>
    simp only [commitStep, setJflush] at hs
    split_ifs at hs with hg
    cases hs
    simp only [ne_eq, not_or, not_not] at hg
    have h := Spine.Commit.setJflush (s := j.spine) hg.1 hg.2
    rw [← spine_setState] at h
    exact h
  | record =>
    simp only [commitStep, submitCommitRecord] at hs
    split at hs
    · cases hs
    rename_i hg
    cases hs
    exact .record (not_not.mp hg)
  | updateTail =>
    simp only [commitStep, commitUpdateTail] at hs
    split_ifs at hs with hg hup hcl hgt <;> cases hs
    · exact .keepTail (not_not.mp hg)
    · exact .updateTail (not_not.mp hg) (by simpa [spine] using hup) hgt
    · exact .keepTail (not_not.mp hg)
  | finish =>
    simp only [commitStep, finishCommit] at hs
    split_ifs at hs with hg
    cases hs
    simp only [ne_eq, not_or, not_not] at hg
    have h := Spine.Commit.finish (s := j.spine) hg.1 hg.2.1 hg.2.2
    rw [← spine_setState] at h
    exact h
  | callback drop =>
    simp only [commitStep, commitCallback] at hs
    split at hs
    · cases hs
    rename_i hg
    have h := @Spine.Commit.callback j.spine drop (not_not.mp hg)
    rw [← spine_setState] at h
    cases hs
    cases drop <;> exact h

/-- `start_this_handle` is about to call `jbd2_get_transaction`. -/
def createsTransaction (j : Journal) (h : ℕ) : Bool :=
  (j.handles h).stage == .needTransaction && j.stateLockFree &&
    j.jRunningTransaction == none && ((j.handles h).hReserved || j.jBarrierCount == 0)

def event (j : Journal) : Act → Event
  | .commit a => .commit a
  | .getTransaction h => if j.createsTransaction h then .create else .client
  | .cleanupGetTail => .cleanup
  | _ => .client

theorem syncStep_spine {a : SyncAct} (hs : j.syncStep a = some j') : j.spine.Client j'.spine := by
  cases a with
  | request c =>
    simp only [syncStep, completeRequest] at hs
    split_ifs at hs
    cases hs
    rw [spine_setSync]
    obtain h | ⟨t, ht, h⟩ := logStartCommit_spine j (j.txs (j.syncs c).commitTx).tTid
      (j.syncs c).inoSync <;> rw [h]
    · exact .same
    · exact .request ht
  | begin | check | wait =>
    simp only [syncStep, syncFile, completeCheck, waitCommit] at hs
    split_ifs at hs <;> cases hs <;> exact .same

theorem step_spine {a : Act} (hs : j.step a = some j') : j.spine.Step (j.event a) j'.spine := by
  cases a with
  | handle =>
    rw [handleStep_spine hs]
    exact .client .same
  | barrier =>
    rw [barrierStep_spine hs]
    exact .client .same
  | sync => exact .client (syncStep_spine hs)
  | commit => exact .commit (commitStep_spine hs)
  | getTransaction h =>
    simp only [step, startGetTransaction] at hs
    split_ifs at hs with hg hcreate
    · cases hs
      simp only [ne_eq, Bool.not_eq_true', not_or, not_not, Bool.not_eq_false] at hg
      have hev : j.createsTransaction h = true := by
        simpa [createsTransaction, hg.1, hg.2, hcreate.1] using hcreate.2
      simp only [event, hev, if_true, spine_jbd2GetTransaction, spine_setHandle]
      exact .create hcreate.1
    · cases hs
      have hev : j.createsTransaction h = false := by
        rw [Bool.eq_false_iff]
        intro hev
        simp [createsTransaction] at hev
        exact hcreate ⟨hev.1.2, hev.2⟩
      simp only [event, hev]
      exact .client .same
  | requestCommit target ino =>
    simp only [step, requestCommit] at hs
    split_ifs at hs
    cases hs
    obtain h | ⟨t, ht, h⟩ := logStartCommit_spine j target ino <;> rw [h]
    · exact .client .same
    · exact .client (.request ht)
  | timeout =>
    simp only [step, commitTimeout] at hs
    split at hs
    · cases hs
    rename_i t ht
    split_ifs at hs
    cases hs
    exact .client (.timeout ht)
  | abort =>
    simp only [step, abort] at hs
    split_ifs at hs
    · cases hs
      exact .client .same
    split at hs
    · cases hs
      exact .client .abort
    cases hs
    obtain h | ⟨t, ht, h⟩ := logStartCommit_spine
      { j with jAborted := true, jErrno := true } _ 0 <;> rw [h]
    · exact .client .abort
    · exact .client (.abortRequest ht)
  | killThread =>
    cases hs
    exact .client .same
  | dropCheckpoint =>
    simp only [step, dropCheckpoint] at hs
    split_ifs at hs with hg
    cases hs
    simp only [ne_eq, not_or, not_not] at hg
    exact .client (.dropCheckpoint hg.1 hg.2)
  | cleanupGetTail =>
    simp only [step, cleanupGetTail] at hs
    split_ifs at hs with hg <;> cases hs
    · simp only [Bool.not_eq_true', not_or, Bool.not_eq_false] at hg
      exact .cleanup (by simpa [stateLockFree, spine] using hg.1)
    · exact .noCleanup
  | cleanupUpdateTail =>
    simp only [step, cleanupUpdateTail] at hs
    split at hs
    · cases hs
    rename_i tail htail
    split_ifs at hs
    cases hs
    exact .client (.cleanupUpdateTail htail)

end Journal

structure Clients where
  barrierCount : ℕ
  barrier : Option ℕ
  reserved : ℤ
  handles : ℕ → Handle
  nextHandle : ℕ
  barriers : ℕ → BarrierStage
  nextBarrier : ℕ

def Journal.clients (j : Journal) : Clients :=
  { barrierCount := j.jBarrierCount, barrier := j.jBarrier, reserved := j.jReservedCredits
    handles := j.handles, nextHandle := j.nextHandle, barriers := j.barriers
    nextBarrier := j.nextBarrier }

def Journal.counts (j : Journal) : Clients × ℕ × ℤ × (ℕ → ℕ × ℤ) :=
  (j.clients, j.nextTx, j.jMaxTransactionBuffers,
    fun t => ((j.txs t).tUpdates, (j.txs t).tOutstandingCredits))

def Act.isClient : Act → Bool
  | .handle _ | .getTransaction _ | .barrier _ => true
  | _ => false

namespace Journal

variable {j j' : Journal}

theorem counts_of_txs {t : ℕ} {x : Transaction}
    (hsame : (j'.clients, j'.nextTx, j'.jMaxTransactionBuffers) =
      (j.clients, j.nextTx, j.jMaxTransactionBuffers)) (htxs : j'.txs = Function.update j.txs t x)
    (hx : (x.tUpdates, x.tOutstandingCredits) =
      ((j.txs t).tUpdates, (j.txs t).tOutstandingCredits)) : j'.counts = j.counts := by
  simp only [Prod.mk.injEq] at hsame hx
  simp only [counts, hsame, htxs, Prod.mk.injEq, true_and]
  funext u
  by_cases hu : u = t <;> simp [hu, hx]

theorem commitStep_counts {a : CommitAct} (hs : j.commitStep a = some j') (halloc : a ≠ .allocNew)
    (hswitch : a ≠ .switchTransaction) (hcredit : a ≠ .credit) : j'.counts = j.counts := by
  cases a with
  | allocNew => exact absurd rfl halloc
  | switchTransaction => exact absurd rfl hswitch
  | credit => exact absurd rfl hcredit
  | lockDown =>
    obtain ⟨-, -, ph, -, rfl⟩ := lockDown_eq hs
    exact Eq.trans (b := (j.setState j.commitTransaction .locked).counts)
      (counts_of_txs rfl rfl rfl) (counts_of_txs rfl rfl rfl)
  | wakeUpdates =>
    simp only [commitStep, wakeUpdates] at hs
    split_ifs at hs
    rw [beginSwitch_eq hs]
    rfl
  | setCommit | install | setJflush | finish | callback =>
    simp only [commitStep, setCommit, installRunning, setJflush, finishCommit, commitCallback] at hs
    split_ifs at hs
    all_goals
      cases hs
      exact counts_of_txs rfl rfl rfl
  | _ =>
    simp only [commitStep, kjournald, destroyCommit, restoreSuperblock, commitGetTail,
      submitCommitRecord, commitUpdateTail] at hs
    split_ifs at hs <;> cases hs <;> rfl

theorem commitStep_clients {a : CommitAct} (hs : j.commitStep a = some j') :
    j'.clients = j.clients := by
  cases a with
  | allocNew =>
    simp only [commitStep, allocNewTransaction] at hs
    split at hs
    · cases hs
    split_ifs at hs
    cases hs
    rfl
  | switchTransaction | credit =>
    simp only [commitStep, switchTransaction, commitCredit] at hs
    split_ifs at hs
    cases hs
    rfl
  | _ => exact congrArg Prod.fst (commitStep_counts hs (by simp) (by simp) (by simp))

theorem logStartCommit_frame (j : Journal) (target : Tid) (ino : ℕ) :
    ∃ i : ℕ → ℕ, ∃ n, j.logStartCommit target ino =
      { j with txs := fun t => { j.txs t with inoSync := i t }, jCommitRequest := n } := by
  obtain h | ⟨t, -, -, -, h⟩ := j.logStartCommit_cases target ino
  · exact ⟨fun t => (j.txs t).inoSync, _, h⟩
  refine ⟨Function.update (fun u => (j.txs u).inoSync) t ino, target, h.trans ?_⟩
  refine congrArg (fun txs => ({ j with txs := txs, jCommitRequest := target } : Journal)) ?_
  funext u
  by_cases hu : u = t <;> simp [setTx, hu]

theorem step_frame {a : Act} (hs : j.step a = some j') (ha : a.isClient = false)
    (hc : ∀ c, a ≠ .commit c) :
    ∃ i : ℕ → ℕ, ∃ req ab er sy ns un cps tail cl sb fl, j' = { j with
      txs := fun t => { j.txs t with inoSync := i t }, jCommitRequest := req, jAborted := ab
      jErrno := er, syncs := sy, nextSync := ns, jUnmount := un, jCheckpointTransactions := cps
      jTail := tail, cleanup := cl, sbTail := sb, jFlushed := fl } := by
  cases a with
  | handle => cases ha
  | getTransaction => cases ha
  | barrier => cases ha
  | commit a => exact absurd rfl (hc a)
  | sync a =>
    cases a with
    | request c =>
      simp only [step, syncStep, completeRequest] at hs
      split_ifs at hs
      cases hs
      obtain ⟨i, n, h⟩ :=
        j.logStartCommit_frame (j.txs (j.syncs c).commitTx).tTid (j.syncs c).inoSync
      rw [h]
      exact ⟨i, _, _, _, _, _, _, _, _, _, _, _, rfl⟩
    | begin | check | wait =>
      simp only [step, syncStep, syncFile, completeCheck, waitCommit] at hs
      split_ifs at hs <;> cases hs <;> exact ⟨_, _, _, _, _, _, _, _, _, _, _, _, rfl⟩
  | requestCommit target ino =>
    simp only [step, requestCommit] at hs
    split_ifs at hs
    cases hs
    obtain ⟨i, n, h⟩ := j.logStartCommit_frame target ino
    rw [h]
    exact ⟨i, _, _, _, _, _, _, _, _, _, _, _, rfl⟩
  | abort =>
    simp only [step, abort] at hs
    split_ifs at hs
    · cases hs
      exact ⟨_, _, _, _, _, _, _, _, _, _, _, _, rfl⟩
    split at hs
    · cases hs
      exact ⟨_, _, _, _, _, _, _, _, _, _, _, _, rfl⟩
    rename_i t _
    cases hs
    obtain ⟨i, n, h⟩ := logStartCommit_frame
      { j with jAborted := true, jErrno := true } (j.txs t).tTid 0
    rw [h]
    exact ⟨i, _, _, _, _, _, _, _, _, _, _, _, rfl⟩
  | timeout | cleanupUpdateTail =>
    simp only [step, commitTimeout, cleanupUpdateTail] at hs
    split at hs
    · cases hs
    split_ifs at hs
    cases hs
    exact ⟨_, _, _, _, _, _, _, _, _, _, _, _, rfl⟩
  | killThread | dropCheckpoint | cleanupGetTail =>
    simp only [step, dropCheckpoint, cleanupGetTail] at hs
    try split_ifs at hs
    all_goals
      cases hs
      exact ⟨_, _, _, _, _, _, _, _, _, _, _, _, rfl⟩

theorem step_clients {a : Act} (hs : j.step a = some j') (ha : a.isClient = false) :
    j'.clients = j.clients := by
  by_cases hc : ∃ c, a = .commit c
  · obtain ⟨c, rfl⟩ := hc
    exact commitStep_clients hs
  · obtain ⟨_, _, _, _, _, _, _, _, _, _, _, _, rfl⟩ := step_frame hs ha (not_exists.mp hc)
    rfl

theorem setAccounted_eq (j : Journal) (r : Option ℕ) (b : Bool) :
    j.setAccounted r b = { j with handles := (j.setAccounted r b).handles } := by
  cases r <;> rfl

theorem handleStep_frame {a : HandleAct} (hs : j.handleStep a = some j') :
    ∃ txs handles n r, j' = { j with
      txs := txs, handles := handles, nextHandle := n, jReservedCredits := r } := by
  cases handleStep_move hs with
  | join | restart =>
    rw [setAccounted_eq]
    exact ⟨_, _, _, _, rfl⟩
  | _ => exact ⟨_, _, _, _, rfl⟩

end Journal

end VMsep.Jbd2
