import VMsep.Jbd2.Journal

/-! The abstract machine of the transactions: the pointers to them, the sequence numbers and the
position of the commit, without handles and credits. `Spine.Step` says what may happen to them; that
every step of the protocol is such a step is proved with the protocol. -/

namespace VMsep.Jbd2

open Function

/-- The steps of the commit routine between two points where other threads can run. -/
inductive CommitAct where
  | kjournald
  | destroy
  | restoreSuperblock
  | allocNew
  | lockDown
  | wakeUpdates
  | switchTransaction
  | setCommit
  | credit
  | getTail
  | install (keep : Bool)
  | setJflush
  | record
  | updateTail
  | finish
  | callback (drop : Bool)
  deriving DecidableEq

def CommitAct.source : CommitAct → CommitPhase
  | .kjournald | .destroy => .idle
  | .restoreSuperblock => .entered
  | .allocNew => .ready
  | .lockDown => .allocated
  | .wakeUpdates => .waitUpdates
  | .switchTransaction => .switching
  | .setCommit => .flushing
  | .credit | .getTail => .logging
  | .install _ => .tailKnown
  | .setJflush => .installed
  | .record => .jflush
  | .updateTail => .recorded
  | .finish => .forgetting
  | .callback _ => .callback

/-- The phase a step of the commit routine leads to; `lockDown` may also have to wait. -/
def CommitAct.target : CommitAct → CommitPhase
  | .kjournald | .destroy => .entered
  | .restoreSuperblock => .ready
  | .allocNew => .allocated
  | .lockDown | .wakeUpdates => .switching
  | .switchTransaction => .flushing
  | .setCommit | .credit => .logging
  | .getTail => .tailKnown
  | .install _ => .installed
  | .setJflush => .jflush
  | .record => .recorded
  | .updateTail => .forgetting
  | .finish => .callback
  | .callback _ => .idle

@[ext]
structure Spine where
  aborted : Bool
  running : Option ℕ
  committing : Option ℕ
  checkpoints : List ℕ
  head : ℕ
  tail : LogTail
  transactionSequence : Tid
  commitSequence : Tid
  commitRequest : Tid
  nextTx : ℕ
  tid : ℕ → Tid
  state : ℕ → TState
  inoSync : ℕ → ℕ
  logStart : ℕ → ℕ
  phase : CommitPhase
  commitTx : ℕ
  nextRunning : ℕ
  firstTail : LogTail
  updateTail : Bool
  cleanup : Option LogTail
  sbTail : Option LogTail
  flushed : Bool
  records : List ℕ

def Spine.getLogTail (s : Spine) : LogTail :=
  match s.checkpoints, s.committing, s.running with
  | t :: _, _, _ => { tid := s.tid t, tx := t, block := s.logStart t }
  | [], some t, _ => { tid := s.tid t, tx := t, block := s.logStart t }
  | [], none, some t => { tid := s.tid t, tx := t, block := s.head }
  | [], none, none => { tid := s.transactionSequence, tx := s.nextTx, block := s.head }

/-- What the clients of the journal do to the spine, apart from creating a transaction. -/
inductive Spine.Client (s : Spine) : Spine → Prop
  | same : s.Client s
  | request {t ino : ℕ} (ht : s.running = some t) :
    s.Client { s with
      commitRequest := s.tid t, inoSync := update s.inoSync t ino }
  | timeout {t : ℕ} (ht : s.running = some t) : s.Client { s with commitRequest := s.tid t }
  | abort : s.Client { s with aborted := true }
  | abortRequest {t : ℕ} (ht : s.running = some t) :
    s.Client { s with
      aborted := true, commitRequest := s.tid t, inoSync := update s.inoSync t 0 }
  | dropCheckpoint {t : ℕ} (ht : t ∈ s.checkpoints) (hfin : s.state t = .finished) :
    s.Client { s with checkpoints := s.checkpoints.erase t }
  | cleanupUpdateTail {tail : LogTail} (htail : s.cleanup = some tail) :
    s.Client { s with tail := tail, sbTail := some tail, flushed := false, cleanup := none }

/-- `jbd2_get_transaction`. -/
def Spine.create (s : Spine) : Spine :=
  { s with
    tid := update s.tid s.nextTx s.transactionSequence
    state := update s.state s.nextTx .running
    inoSync := update s.inoSync s.nextTx 0
    logStart := update s.logStart s.nextTx 0
    nextTx := s.nextTx + 1
    transactionSequence := s.transactionSequence + 1
    running := some s.nextTx }

def Spine.setState (s : Spine) (t : ℕ) (st : TState) : Spine :=
  { s with state := update s.state t st }

/-- What the commit routine does to the spine. -/
inductive Spine.Commit (s : Spine) : CommitAct → Spine → Prop
  | kjournald (hph : s.phase = .idle) (hreq : s.commitSequence ≠ s.commitRequest) :
    s.Commit .kjournald { s with phase := .entered }
  | destroy (hph : s.phase = .idle) (hrun : s.running ≠ none) :
    s.Commit .destroy { s with phase := .entered }
  | ready (hph : s.phase = .entered) (hfl : s.flushed = false) :
    s.Commit .restoreSuperblock { s with phase := .ready }
  | restoreSuperblock (hph : s.phase = .entered) (hfl : s.flushed = true) :
    s.Commit .restoreSuperblock
      { s with sbTail := some s.tail, flushed := false, phase := .ready }
  | allocNew {t : ℕ} (hph : s.phase = .ready) (hrun : s.running = some t)
      (hcom : s.committing = none) :
    s.Commit .allocNew
      { s.create with commitTx := t, nextRunning := s.nextTx, phase := .allocated }
  | lockDown {ph : CommitPhase} (hph : s.phase = .allocated)
      (hst : s.state s.commitTx = .running) (hwait : ph = .switching ∨ ph = .waitUpdates) :
    s.Commit .lockDown
      { (s.setState s.commitTx .locked).setState s.nextRunning .running with phase := ph }
  | wakeUpdates (hph : s.phase = .waitUpdates) :
    s.Commit .wakeUpdates { s with phase := .switching }
  | switchTransaction (hph : s.phase = .switching) :
    s.Commit .switchTransaction
      { s.setState s.commitTx .flush with
        logStart := update s.logStart s.commitTx s.head
        head := s.head + 1
        committing := some s.commitTx
        running := none
        phase := .flushing }
  | setCommit (hph : s.phase = .flushing) :
    s.Commit .setCommit { s.setState s.commitTx .commit with phase := .logging }
  | credit (hph : s.phase = .logging) : s.Commit .credit s
  | getTail (hph : s.phase = .logging) :
    s.Commit .getTail
      { s with
        firstTail := s.getLogTail
        updateTail := tidGt s.getLogTail.tid s.tail.tid
        phase := .tailKnown }
  | install {keep : Bool} (hph : s.phase = .tailKnown) (hst : s.state s.commitTx = .commit) :
    s.Commit (.install keep)
      { s.setState s.commitTx .commitDflush with
        running := some s.nextRunning
        updateTail := s.updateTail && keep
        phase := .installed }
  | setJflush (hph : s.phase = .installed) (hst : s.state s.commitTx = .commitDflush) :
    s.Commit .setJflush { s.setState s.commitTx .commitJflush with phase := .jflush }
  | record (hph : s.phase = .jflush) :
    s.Commit .record
      { s with
        records := if s.aborted then s.records else s.records ++ [s.commitTx]
        phase := .recorded }
  | keepTail (hph : s.phase = .recorded) : s.Commit .updateTail { s with phase := .forgetting }
  | updateTail (hph : s.phase = .recorded) (hup : s.updateTail = true)
      (hgt : tidGt s.firstTail.tid s.tail.tid = true) :
    s.Commit .updateTail
      { s with
        tail := s.firstTail
        sbTail := some s.firstTail
        flushed := false
        phase := .forgetting }
  | finish (hph : s.phase = .forgetting) (hst : s.state s.commitTx = .commitJflush)
      (hcom : s.committing = some s.commitTx) :
    s.Commit .finish
      { s.setState s.commitTx .commitCallback with
        checkpoints := s.checkpoints ++ [s.commitTx]
        commitSequence := s.tid s.commitTx
        committing := none
        phase := .callback }
  | callback {drop : Bool} (hph : s.phase = .callback) :
    s.Commit (.callback drop)
      { s.setState s.commitTx .finished with
        checkpoints := if drop then s.checkpoints.erase s.commitTx else s.checkpoints
        phase := .idle }

inductive Event where
  | client
  | create
  | cleanup
  | commit (a : CommitAct)
  deriving DecidableEq

inductive Spine.Step (s : Spine) : Event → Spine → Prop
  | client {s' : Spine} (h : s.Client s') : s.Step .client s'
  | create (hrun : s.running = none) : s.Step .create s.create
  | noCleanup : s.Step .cleanup s
  | cleanup (hfree : s.phase ≠ .switching) : s.Step .cleanup { s with cleanup := some s.getLogTail }
  | commit {a : CommitAct} {s' : Spine} (h : s.Commit a s') : s.Step (.commit a) s'

theorem Spine.Step.aborted {s s' : Spine} {e : Event} (h : s.Step e s') (hab : s.aborted = true) :
    s'.aborted = true := by
  cases h with
  | client h => cases h <;> first | exact hab | rfl
  | create | noCleanup | cleanup => exact hab
  | commit h => cases h <;> exact hab

/-- The phases in which the commit routine has cleared `j_running_transaction`. -/
def CommitPhase.inWindow : CommitPhase → Bool
  | .flushing | .logging | .tailKnown => true
  | _ => false

def CommitPhase.lockedDown : CommitPhase → Bool
  | .allocated | .waitUpdates | .switching => true
  | _ => false

/-- The phases in which `j_committing_transaction` is set. -/
def CommitPhase.committing : CommitPhase → Bool
  | .flushing | .logging | .tailKnown | .installed | .jflush | .recorded | .forgetting => true
  | _ => false

def CommitPhase.busy : CommitPhase → Bool
  | .idle | .entered | .ready => false
  | _ => true

/-- No transaction is created while the commit has `j_running_transaction` cleared. -/
def Spine.NoOrphan (s : Spine) (e : Event) : Prop :=
  e = .create → s.phase.inWindow = false

/-- `cleanup_journal_tail` does not ask for the log tail while the transaction to commit is
named by a local variable of the commit routine only and nothing is on the checkpoint list. -/
def Spine.NoLockedCleanup (s : Spine) (e : Event) : Prop :=
  e = .cleanup → ¬ (s.phase.lockedDown = true ∧ s.checkpoints = [])

instance (s : Spine) (e : Event) : Decidable (s.NoOrphan e) := by
  unfold Spine.NoOrphan
  infer_instance

instance (s : Spine) (e : Event) : Decidable (s.NoLockedCleanup e) := by
  unfold Spine.NoLockedCleanup
  infer_instance

theorem Spine.Commit.phases {s s' : Spine} {a : CommitAct} (h : s.Commit a s') :
    s.phase = a.source ∧ (s'.phase = a.target ∨ a = .lockDown ∧ s'.phase = .waitUpdates) := by
  cases h with
  | lockDown hph _ hwait =>
    rcases hwait with rfl | rfl
    · exact ⟨hph, .inl rfl⟩
    · exact ⟨hph, .inr ⟨rfl, rfl⟩⟩
  | credit hph => exact ⟨hph, .inl hph⟩
  | kjournald hph | destroy hph | ready hph | restoreSuperblock hph | allocNew hph
  | wakeUpdates hph | switchTransaction hph | setCommit hph | getTail hph | install hph
  | setJflush hph | record hph | keepTail hph | updateTail hph | finish hph | callback hph =>
    exact ⟨hph, .inl rfl⟩

theorem Spine.Step.phase_eq {s s' : Spine} {e : Event} (h : s.Step e s')
    (he : ∀ a, e ≠ .commit a) : s'.phase = s.phase := by
  cases h with
  | client h => cases h <;> rfl
  | create | noCleanup | cleanup => rfl
  | commit => exact absurd rfl (he _)

end VMsep.Jbd2
