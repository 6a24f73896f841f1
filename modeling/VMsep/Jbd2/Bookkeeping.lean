import VMsep.Jbd2.TransactionOrder

/-! The order of `j_tail_sequence`, `j_commit_sequence`, the sequence numbers of the committing and
the running transaction, `j_transaction_sequence`, `j_commit_request` and the commit records. -/

namespace VMsep.Jbd2

open Lib

structure Bookkeeping (j : Journal) : Prop where
  tail : tidGeq (j.jCommitSequence + 1) j.jTail.tid = true
  committing : ∀ t, j.jCommittingTransaction = some t →
    tidGt (j.txs t).tTid j.jCommitSequence = true ∧
      tidGt j.jTransactionSequence (j.txs t).tTid = true
  running : ∀ t, j.jRunningTransaction = some t →
    tidGt (j.txs t).tTid j.jCommitSequence = true ∧
      tidGt j.jTransactionSequence (j.txs t).tTid = true
  order : ∀ t u, j.jCommittingTransaction = some t → j.jRunningTransaction = some u →
    tidGt (j.txs u).tTid (j.txs t).tTid = true
  records : j.commitRecords.IsChain fun t u => (j.txs u).tTid = (j.txs t).tTid + 1

/-- `j_commit_request` is `j_commit_sequence`, the committing or the running transaction. -/
def RequestKnown (j : Journal) : Prop :=
  j.jCommitRequest = j.jCommitSequence ∨
    ∃ t, (j.jCommittingTransaction = some t ∨ j.jRunningTransaction = some t) ∧
      j.jCommitRequest = (j.txs t).tTid

/-- The request may also be a transaction that only a local variable of the commit routine
names. -/
def RequestHeld (j : Journal) : Prop :=
  RequestKnown j ∨
    (j.phase.lockedDown = true ∧ j.jCommitRequest = (j.txs j.commitTransaction).tTid) ∨
    (j.phase.inWindow = true ∧ j.jCommitRequest = (j.txs j.runningTransaction).tTid)

/-- The log holds fewer than `2 ^ 31` sequence numbers at a time. -/
def TidWindow (j : Journal) : Prop := j.nextTx - j.jTail.tx < 2 ^ 31

instance (j : Journal) : Decidable (TidWindow j) :=
  inferInstanceAs (Decidable (_ < _))

variable {cfg : Config} {j j' : Journal} {n : ℕ}

theorem Lifecycle.live_between {t : ℕ} (hl : Lifecycle cfg.tid0 j.spine n) (hnt : n ≤ t)
    (ht : t < j.nextTx) : tidGt (j.txs t).tTid j.jCommitSequence = true ∧
      tidGt j.jTransactionSequence (j.txs t).tTid = true := by
  have hle : n ≤ j.nextTx ∧ j.nextTx ≤ n + 2 := hl.shape.le_nextTx
  have hseq : j.jTransactionSequence = tidOf cfg.tid0 j.nextTx := hl.sequence
  have hcs : j.jCommitSequence + 1 = tidOf cfg.tid0 n := hl.commitSequence
  have htid : (j.txs t).tTid = tidOf cfg.tid0 t := hl.tid t ht
  constructor
  · rw [← tidGt_add_one, hcs, htid, ← tidOf_succ]
    exact tidGt_tidOf (by omega) (by omega)
  · rw [hseq, htid]
    exact tidGt_tidOf ht (by omega)

theorem Numbering.bookkeeping (h : Numbering cfg.tid0 j.spine n) (hw : TidWindow j) :
    Bookkeeping j := by
  have hl := h.lifecycle
  have hle : n ≤ j.nextTx ∧ j.nextTx ≤ n + 2 := hl.shape.le_nextTx
  refine ⟨?_, fun t ht => ?_, fun t ht => ?_, fun t u ht hu => ?_, ?_⟩
  · have hcs : j.jCommitSequence + 1 = tidOf cfg.tid0 n := hl.commitSequence
    have htail : TailOk cfg.tid0 n j.jTail := h.tails.tail
    unfold TidWindow at hw
    rw [hcs, htail.2]
    exact tidGeq_tidOf htail.1 (by omega)
  · obtain ⟨rfl, hnext⟩ := hl.shape.committing_eq ht
    have hnext : j.nextTx = t + 2 := hnext
    exact hl.live_between le_rfl (by omega)
  · have hnext : j.nextTx = t + 1 := hl.shape.running_eq ht
    exact hl.live_between (hl.shape.running_ge ht) (by omega)
  · obtain ⟨rfl, hnext⟩ := hl.shape.committing_eq ht
    have hnext : j.nextTx = t + 2 := hnext
    have hrun : j.nextTx = u + 1 := hl.shape.running_eq hu
    have e1 : (j.txs u).tTid = tidOf cfg.tid0 u := hl.tid u (show u < j.nextTx by omega)
    have e2 : (j.txs t).tTid = tidOf cfg.tid0 t := hl.tid t (show t < j.nextTx by omega)
    rw [e1, e2]
    exact tidGt_tidOf (by omega) (by omega)
  · obtain ⟨k, hk, hkle, -⟩ := h.records
    have hk : j.commitRecords = List.range k := hk
    have hklt : k ≤ j.nextTx := hkle.trans hl.shape.recordsDue_le
    rw [hk, List.isChain_iff_getElem]
    intro i hi
    rw [List.length_range] at hi
    simp only [List.getElem_range]
    have e1 : (j.txs (i + 1)).tTid = tidOf cfg.tid0 (i + 1) :=
      hl.tid _ (show i + 1 < j.nextTx by omega)
    have e2 : (j.txs i).tTid = tidOf cfg.tid0 i := hl.tid _ (show i < j.nextTx by omega)
    rw [e1, e2, tidOf_succ]

theorem numbering_reset (cfg : Config) : Numbering cfg.tid0 (journalReset cfg).spine 0 where
  lifecycle := lifecycle_reset cfg
  tails := ⟨⟨le_rfl, by simp [Journal.spine, journalReset, tidOf]⟩,
    ⟨le_rfl, by simp [Journal.spine, journalReset, tidOf]⟩, nofun, nofun⟩
  records := ⟨0, rfl, le_rfl, fun _ => rfl⟩

theorem requestOk_reset (cfg : Config) : RequestOk cfg.tid0 (journalReset cfg).spine 0 :=
  ⟨0, le_rfl, le_rfl, by simp [Journal.spine, journalReset, tidOf]⟩

theorem numbering_step {a : Act} (h : Numbering cfg.tid0 j.spine n)
    (hc : j.NoOrphan a ∧ j.NoLockedCleanup a) (hs : j.step a = some j') :
    Numbering cfg.tid0 j'.spine (if a = .commit .finish then n + 1 else n) := by
  have h' := h.step hc (Journal.step_spine hs)
  simpa only [Journal.event_finish] using h'

theorem requestOk_step {a : Act} (hl : Lifecycle cfg.tid0 j.spine n)
    (hr : RequestOk cfg.tid0 j.spine n) (ha : j.NoDestroy a) (hs : j.step a = some j') :
    RequestOk cfg.tid0 j'.spine (if a = .commit .finish then n + 1 else n) := by
  have h' := hr.step hl (Journal.event_destroy ha) (Journal.step_spine hs)
  simpa only [Journal.event_finish] using h'

theorem RequestOk.held (hl : Lifecycle cfg.tid0 j.spine n)
    (hr : RequestOk cfg.tid0 j.spine n) : RequestHeld j := by
  obtain ⟨q, hlow, hhigh, hq⟩ := hr
  have hlow : n ≤ q := by
    split_ifs at hlow <;> omega
  have hhigh : q ≤ j.nextTx := hhigh
  have hle : n ≤ j.nextTx ∧ j.nextTx ≤ n + 2 := hl.shape.le_nextTx
  have hreq : j.jCommitRequest + 1 = tidOf cfg.tid0 q := hq
  have hcs : j.jCommitSequence + 1 = tidOf cfg.tid0 n := hl.commitSequence
  have htid {t : ℕ} (ht : q = t + 1) : j.jCommitRequest = (j.txs t).tTid := by
    have e : (j.txs t).tTid = tidOf cfg.tid0 t := hl.tid t (show t < j.nextTx by omega)
    rw [ht, tidOf_succ, ← e] at hreq
    simpa using hreq
  have hshape := hl.shape
  by_cases hqn : q = n
  · rw [hqn, ← hcs] at hreq
    exact .inl (.inl (by simpa using hreq))
  -- the request is transaction `n`, the next one to commit, or its successor
  · unfold Shape at hshape
    simp only [Journal.spine] at hshape
    split at hshape <;> rename_i hph
    case h_1 =>
      obtain ⟨-, ⟨-, hzero, -⟩ | ⟨hrun, hnext⟩⟩ := hshape
      · omega
      · exact .inl (.inr ⟨n, .inr hrun, htid (by omega)⟩)
    case h_2 | h_3 => exact .inl (.inr ⟨n, .inr hshape.2.1, htid (by omega)⟩)
    case h_14 => exact .inl (.inr ⟨n, .inr hshape.2.1, htid (by omega)⟩)
    case h_4 | h_5 | h_6 =>
      obtain ⟨-, hrun, hct, -, hnext⟩ := hshape
      by_cases hq1 : q = n + 1
      · refine .inr (.inl ⟨by rw [hph]; rfl, ?_⟩)
        rw [hct]
        exact htid hq1
      · exact .inl (.inr ⟨n + 1, .inr hrun, htid (by omega)⟩)
    case h_7 | h_8 | h_9 =>
      obtain ⟨hcom, -, -, hnr, hnext⟩ := hshape
      by_cases hq1 : q = n + 1
      · exact .inl (.inr ⟨n, .inl hcom, htid hq1⟩)
      refine .inr (.inr ⟨by rw [hph]; rfl, ?_⟩)
      rw [hnr]
      exact htid (by omega)
    case h_10 | h_11 | h_12 | h_13 =>
      obtain ⟨hcom, hrun, -, -, hnext⟩ := hshape
      by_cases hq1 : q = n + 1
      · exact .inl (.inr ⟨n, .inl hcom, htid hq1⟩)
      · exact .inl (.inr ⟨n + 1, .inr hrun, htid (by omega)⟩)

/-- The numbers before the first commit reaches `alloc_new_transaction`. -/
structure FirstNumbers (cfg : Config) (j : Journal) : Prop where
  before : BeforeCommit cfg j
  numbering : Numbering cfg.tid0 j.spine 0
  request : RequestOk cfg.tid0 j.spine 0

theorem FirstNumbers.requestKnown (h : FirstNumbers cfg j) : RequestKnown j := by
  rcases h.request.held h.numbering.lifecycle with hk | ⟨hph, -⟩ | ⟨hph, -⟩
  · exact hk
  all_goals
    exfalso
    rcases h.before.phase with hp | hp | hp <;>
      simp [hp, CommitPhase.lockedDown, CommitPhase.inWindow] at hph

/-- Without `alloc_new_transaction` the numbers are those of the reset. -/
theorem FirstNumbers.step {a : Act} (h : FirstNumbers cfg j) (ha : j.NoAlloc a)
    (hd : j.NoDestroy a) (hs : j.step a = some j') : FirstNumbers cfg j' := by
  have hbefore := h.before.step ha hs
  have hfin : a ≠ .commit .finish := by
    rintro rfl
    have hph : j.phase = .forgetting := (Journal.commitStep_spine (a := .finish) hs).phases.1
    rcases h.before.phase with hp | hp | hp <;> rw [hph] at hp <;> cases hp
  have hlock : j.NoLockedCleanup a := by
    rintro - ⟨hph, -⟩
    rcases h.before.phase with hp | hp | hp <;>
      simp [Journal.spine, hp, CommitPhase.lockedDown] at hph
  have hnum := numbering_step h.numbering ⟨h.before.noOrphan a, hlock⟩ hs
  have hreq := requestOk_step h.numbering.lifecycle h.request hd hs
  rw [if_neg hfin] at hnum hreq
  exact ⟨hbefore, hnum, hreq⟩

/-- Right after `alloc_new_transaction` the request is a transaction that neither pointer of
the journal names. -/
theorem FirstNumbers.alloc_request (h : FirstNumbers cfg j)
    (hs : j.step (.commit .allocNew) = some j') : TidWindow j' ∧ ¬ RequestKnown j' := by
  have hl := h.numbering.lifecycle
  obtain ⟨q, hlow, hhigh, hq⟩ := h.request
  simp only [Journal.step, Journal.commitStep, Journal.allocNewTransaction] at hs
  split at hs
  · cases hs
  rename_i t ht
  split_ifs at hs with hg
  cases hs
  simp only [ne_eq, not_or, not_not] at hg
  have hnext : j.nextTx = 1 := by
    rcases h.before.pointers.2 with ⟨hnone, -⟩ | ⟨-, hone⟩
    · simp [hnone] at ht
    · exact hone
  have hph : j.spine.phase = .ready := hg.1
  have hq1 : q = 1 := by
    have hsp : j.spine.nextTx = j.nextTx := rfl
    simp only [hph, CommitPhase.requested, if_true] at hlow
    omega
  have hreq : j.jCommitRequest = tidOf cfg.tid0 0 := by
    have e : j.jCommitRequest + 1 = tidOf cfg.tid0 1 := hq1 ▸ hq
    rw [tidOf_succ] at e
    simpa using e
  have hcs : j.jCommitSequence + 1 = tidOf cfg.tid0 0 := hl.commitSequence
  have hseq : j.jTransactionSequence = tidOf cfg.tid0 1 := hnext ▸ hl.sequence
  refine ⟨?_, ?_⟩
  · simp only [TidWindow, Journal.jbd2GetTransaction]
    omega
  rintro (hbad | ⟨u, hu | hu, hbad⟩)
  · have hbad : j.jCommitRequest = j.jCommitSequence := hbad
    rw [hreq, ← hcs] at hbad
    revert hbad
    generalize j.jCommitSequence = x
    bv_omega
  · simp [Journal.jbd2GetTransaction, hg.2] at hu
  · simp only [Journal.jbd2GetTransaction, Option.some.injEq] at hu
    subst hu
    simp only [Journal.jbd2GetTransaction, Function.update_self, hreq, hseq, tidOf_succ] at hbad
    revert hbad
    generalize tidOf cfg.tid0 0 = x
    bv_omega

def KeepsNumbers (j : Journal) (a : Act) : Prop :=
  ∀ j', j.step a = some j' → TidWindow j' → Bookkeeping j' ∧ RequestKnown j'

/-- In runs without the final commit of `journal_destroy` the numbers of the journal are in
order in every state exactly if no commit gets as far as `alloc_new_transaction`. If no
transaction is orphaned and the tail is not cleaned up while a transaction is locked down,
all of it still holds once the request may be a transaction that the commit routine holds. -/
theorem tid_bookkeeping (cfg : Config) (as : List Act) (j : Journal)
    (hex : exec Journal.step (journalReset cfg) as = some j)
    (hd : Along Journal.step Journal.NoDestroy (journalReset cfg) as) :
    (Along Journal.step KeepsNumbers (journalReset cfg) as ↔
      Along Journal.step Journal.NoAlloc (journalReset cfg) as) ∧
    (Along Journal.step (fun j a => j.NoOrphan a ∧ j.NoLockedCleanup a) (journalReset cfg) as →
      TidWindow j → Bookkeeping j ∧ RequestHeld j) := by
  constructor
  · refine along_iff_of_invariant (I := FirstNumbers cfg) ?_ as
      ⟨beforeCommit_reset cfg, numbering_reset cfg, requestOk_reset cfg⟩ hex hd
    intro j a j' h hda hs
    refine ⟨⟨fun hk ha => ?_, fun ha j2 hs2 hw => ?_⟩, fun ha => h.step ha hda hs⟩
    · subst ha
      obtain ⟨hw, hno⟩ := h.alloc_request hs
      exact hno (hk j' hs hw).2
    · have h2 := h.step ha hda hs2
      exact ⟨h2.numbering.bookkeeping hw, h2.requestKnown⟩
  · intro hal hw
    have hinv := exec_invariant
      (I := fun j => ∃ n, Numbering cfg.tid0 j.spine n ∧ RequestOk cfg.tid0 j.spine n)
      (C := fun j a => (j.NoOrphan a ∧ j.NoLockedCleanup a) ∧ j.NoDestroy a)
      (fun j a j' ⟨n, hnum, hreq⟩ hc hs => ⟨_, numbering_step hnum hc.1 hs,
        requestOk_step hnum.lifecycle hreq hc.2 hs⟩)
      as ⟨0, numbering_reset cfg, requestOk_reset cfg⟩ hex (hal.and hd)
    obtain ⟨n, hnum, hreq⟩ := hinv
    exact ⟨hnum.bookkeeping hw, hreq.held hnum.lifecycle⟩

def commitEnd : List Act :=
  [.commit .setJflush, .commit .record, .commit .updateTail, .commit .finish,
    .commit (.callback true)]

def wholeCommit (tid : Tid) : List Act :=
  [.requestCommit tid 0, .commit .kjournald, .commit .restoreSuperblock, .commit .allocNew,
    .commit .lockDown, .commit .switchTransaction, .commit .setCommit, .commit .getTail,
    .commit (.install false)] ++ commitEnd

def skipRun : List Act := orphanRun ++ commitEnd ++ wholeCommit 1 ++ wholeCommit 3

/-- The tail is cleaned up between `alloc_new_transaction` and the switch. -/
def lockedCleanupRun : List Act :=
  commitToLoop.take 9 ++ [.cleanupGetTail, .cleanupUpdateTail]

/-- The request is unknown after `alloc_new_transaction`, the commit records skip the number of
the orphaned transaction, and a cleanup moves the tail past a transaction that has not been
committed. -/
theorem bookkeeping_violated :
    (exec Journal.step (journalReset sampleConfig) (commitToLoop.take 9)).map
      (fun j => (j.jCommitSequence + 1, j.jCommittingTransaction,
        j.jRunningTransaction.map fun t => (j.txs t).tTid, j.jCommitRequest)) =
        some (0, none, some 1, 0) ∧
    (exec Journal.step (journalReset sampleConfig) skipRun).map
      (fun j => j.commitRecords.map fun t => (j.txs t).tTid) = some [0, 1, 3] ∧
    (exec Journal.step (journalReset sampleConfig) lockedCleanupRun).map
      (fun j => (tidGeq (j.jCommitSequence + 1) j.jTail.tid, j.commitRecords)) =
        some (false, []) := by
  decide +kernel

theorem tid_bookkeeping_wholeCommit :
    ∃ j, exec Journal.step (journalReset sampleConfig)
        (commitToLoop ++ [.commit .getTail, .commit (.install false)] ++ commitEnd) = some j ∧
      Bookkeeping j ∧ RequestHeld j := by
  obtain ⟨j, hj⟩ := Option.isSome_iff_exists.mp (by decide +kernel :
    (exec Journal.step (journalReset sampleConfig)
      (commitToLoop ++ [.commit .getTail, .commit (.install false)] ++ commitEnd)).isSome = true)
  have hw : TidWindow j := by
    have h : (exec Journal.step (journalReset sampleConfig)
        (commitToLoop ++ [.commit .getTail, .commit (.install false)] ++ commitEnd)).all
          (fun j => decide (TidWindow j)) = true := by decide +kernel
    rw [hj] at h
    simpa using h
  exact ⟨j, hj, (tid_bookkeeping sampleConfig _ j hj (by decide +kernel)).2
    (by decide +kernel) hw⟩

end VMsep.Jbd2
