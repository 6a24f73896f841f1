import VMsep.Jbd2.Updates
import VMsep.Jbd2.TransactionOrder

/-! While a call of `journal_lock_updates` has its barrier up, reserved credits can only fall and no
ordinary handle can join. The call waits for the reserved credits and for the updates of the running
transaction, so it keeps every update out unless another transaction has some. -/

namespace VMsep.Jbd2

open Lib Function Journal BarrierStage

/-- The share of a call in `j_barrier_count`. -/
def BarrierStage.raised : BarrierStage → ℕ
  | .unused | .released => 0
  | _ => 1

def BarrierStage.pastReserved : BarrierStage → Bool
  | .waitUpdates | .waitMutex | .held => true
  | _ => false

def BarrierStage.pastUpdates : BarrierStage → Bool
  | .waitMutex | .held => true
  | _ => false

theorem Journal.handleStep_reserved_le {j j' : Journal} {a : HandleAct}
    (hs : j.handleStep a = some j') (hbar : j.jBarrierCount ≠ 0) :
    j'.jReservedCredits ≤ j.jReservedCredits := by
  cases handleStep_move hs with
  | joinReserved | stopRelease | freeReserved => exact Int.sub_le_self _ (Int.natCast_nonneg _)
  | join _ _ _ _ hzero => exact absurd hzero hbar
  | restart =>
    rw [setAccounted_eq]
    exact Int.sub_le_self _ (Int.natCast_nonneg _)
  | _ => exact le_rfl

theorem Journal.step_barriers {j j' : Journal} {a : Act} (hs : j.step a = some j')
    (ha : ∀ b, a ≠ .barrier b) : j'.barriers = j.barriers ∧ j'.nextBarrier = j.nextBarrier ∧
      j'.jBarrierCount = j.jBarrierCount ∧
      (j.jBarrierCount ≠ 0 → j'.jReservedCredits ≤ j.jReservedCredits) := by
  cases a with
  | barrier b => exact absurd rfl (ha b)
  | handle =>
    have hle := handleStep_reserved_le hs
    obtain ⟨txs, handles, n, r, rfl⟩ := handleStep_frame hs
    exact ⟨rfl, rfl, rfl, hle⟩
  | getTransaction =>
    simp only [step, startGetTransaction] at hs
    split_ifs at hs <;> cases hs <;> exact ⟨rfl, rfl, rfl, fun _ => le_rfl⟩
  | _ =>
    have h := step_clients hs rfl
    exact ⟨congrArg Clients.barriers h, congrArg Clients.nextBarrier h,
      congrArg Clients.barrierCount h, fun _ => (congrArg Clients.reserved h).le⟩

structure BarrierInv (j : Journal) : Prop where
  updates : UpdatesInv j
  fresh : ∀ c, j.nextBarrier ≤ c → j.barriers c = .unused
  count : j.jBarrierCount = total BarrierStage.raised j.nextBarrier j.barriers
  reserved : ∀ c, (j.barriers c).pastReserved = true → j.jReservedCredits = 0
  drained : ∀ c, (j.barriers c).pastUpdates = true → ∀ t, j.upd t = 0

namespace BarrierInv

variable {j j' : Journal} {c : ℕ}

theorem lt (hi : BarrierInv j) (hc : j.barriers c ≠ .unused) : c < j.nextBarrier := by
  by_contra hge
  exact hc (hi.fresh c (not_lt.mp hge))

theorem count_ne (hi : BarrierInv j) (hc : (j.barriers c).raised = 1) : j.jBarrierCount ≠ 0 := by
  have hlt := hi.lt (c := c) (by
    intro h
    simp [h, raised] at hc)
  have hle := weight_le_total (w := raised) (f := j.barriers) hlt
  rw [hi.count]
  omega

/-- Past the wait for the reserved credits no handle at all can join a transaction. -/
theorem no_join (hi : BarrierInv j) (hc : (j.barriers c).pastReserved = true) {h : ℕ}
    (hstage : (j.handles h).stage = .starting) :
    ¬ ((j.handles h).hReserved = false → j.jBarrierCount = 0) := by
  intro hbar
  have hraised : (j.barriers c).raised = 1 := by
    cases hb : j.barriers c <;> simp_all [pastReserved, raised]
  cases hres : (j.handles h).hReserved with
  | false => exact hi.count_ne hraised (hbar hres)
  | true =>
    have hacc := (hi.updates.handles.ok h).reserved
      (.inr ⟨hres, by simp [hstage, HandleStage.joining]⟩)
    have hnone := hi.updates.handles.none_accounted (hi.reserved c hc) h
    rw [hacc] at hnone
    cases hnone

theorem client (hi : BarrierInv j) {a : Act} (hs : j.step a = some j')
    (ha : ∀ b, a ≠ .barrier b) : BarrierInv j' := by
  obtain ⟨hbs, hnext, hcount, hres⟩ := step_barriers hs ha
  have hu' := hi.updates.step hs
  refine ⟨hu', by rw [hbs, hnext]; exact hi.fresh, by rw [hcount, hnext, hbs, hi.count], ?_, ?_⟩
  · intro c hc
    rw [hbs] at hc
    have hraised : (j.barriers c).raised = 1 := by
      cases hb : j.barriers c <;> simp_all [pastReserved, raised]
    have hle := hres (hi.count_ne hraised)
    rw [hi.reserved c hc] at hle
    exact le_antisymm hle hu'.handles.reserved_nonneg
  · intro c hc t
    rw [hbs] at hc
    have hzero := hi.drained c hc
    cases step_attachment hs with
    | same _ hupd => rw [hupd, hzero]
    | start _ hupd => rw [hupd, hzero]
    | create _ hupd =>
      rw [hupd]
      by_cases ht : t = j.nextTx <;> simp [ht, hzero]
    | leave _ u _ _ hupd =>
      rw [hupd]
      by_cases ht : t = u <;> simp [ht, hzero]
    | join _ _ hstage _ _ hbar =>
      refine absurd hbar (hi.no_join (c := c) ?_ hstage)
      cases hb : j.barriers c <;> simp_all [pastUpdates, pastReserved]

theorem move (hi : BarrierInv j) {a : BarrierAct} {st : BarrierStage}
    (hs : j.barrierStep a = some j') (hbs : j'.barriers = update j.barriers c st)
    (hnext : j'.nextBarrier = j.nextBarrier) (hused : j.barriers c ≠ .unused)
    (hcount : j'.jBarrierCount + (j.barriers c).raised = j.jBarrierCount + st.raised)
    (hres : st.pastReserved = true → j.jReservedCredits = 0)
    (hdr : st.pastUpdates = true → ∀ t, j.upd t = 0) : BarrierInv j' := by
  have hlt := hi.lt hused
  have hsum := total_update (w := raised) (f := j.barriers) hlt st
  have hu' := hi.updates.step (a := .barrier a) hs
  have hframe : j'.jReservedCredits = j.jReservedCredits ∧ j'.upd = j.upd := by
    obtain ⟨n, m, bs, k, rfl⟩ := barrierStep_frame hs
    exact ⟨rfl, rfl⟩
  refine ⟨hu', fun u hu => ?_, ?_, fun u hu => ?_, fun u hu => ?_⟩
  · rw [hnext] at hu
    rw [hbs, update_of_ne (by omega), hi.fresh u hu]
  · have := hi.count
    rw [hnext, hbs]
    omega
  · rw [hbs] at hu
    rw [hframe.1]
    by_cases huc : u = c
    · rw [huc, update_self] at hu
      exact hres hu
    · exact hi.reserved u (by simpa [huc] using hu)
  · rw [hbs] at hu
    rw [hframe.2]
    by_cases huc : u = c
    · rw [huc, update_self] at hu
      exact hdr hu
    · exact hi.drained u (by simpa [huc] using hu)

end BarrierInv

/-- A round of the wait of `journal_lock_updates` that finds no update of the running
transaction finds none of any other transaction either. -/
def Journal.ChecksAll (j : Journal) : Act → Prop
  | .barrier (.check _) =>
    (∀ t < j.nextTx, j.jRunningTransaction = some t → (j.txs t).tUpdates = 0) →
      ∀ t < j.nextTx, (j.txs t).tUpdates = 0
  | _ => True

instance (j : Journal) (a : Act) : Decidable (j.ChecksAll a) := by
  unfold Journal.ChecksAll
  split <;> infer_instance

theorem BarrierInv.barrier {j j' : Journal} {a : BarrierAct} (hi : BarrierInv j)
    (hc : j.ChecksAll (.barrier a)) (hs : j.barrierStep a = some j') : BarrierInv j' := by
  have hs0 := hs
  cases a with
  | lock =>
    simp only [barrierStep, lockUpdates] at hs
    split_ifs at hs
    all_goals
      rename_i hres
      have hu' := hi.updates.step (a := .barrier .lock) hs0
      cases hs
      refine ⟨hu', fun u hu => ?_, ?_, fun u hu => ?_, fun u hu => ?_⟩
      · simp only [setBarrier] at hu ⊢
        rw [update_of_ne (by omega), hi.fresh u (by omega)]
      · simp only [setBarrier]
        rw [total_succ, total_update_of_le le_rfl, update_self, hi.count]
        rfl
      · simp only [setBarrier] at hu ⊢
        by_cases huc : u = j.nextBarrier
        · first
            | exact hres
            | simp [huc, pastReserved] at hu
        · exact hi.reserved u (by simpa [huc] using hu)
      · simp only [setBarrier] at hu ⊢
        by_cases huc : u = j.nextBarrier
        · simp [huc, pastUpdates] at hu
        · exact hi.drained u (by simpa [huc] using hu)
  | reserved =>
    simp only [barrierStep, lockUpdatesReserved] at hs
    split_ifs at hs with hg
    simp only [ne_eq, not_or, not_not] at hg
    cases hs
    exact hi.move hs0 rfl rfl (by simp [hg.1]) (by rw [hg.1]; rfl) (fun _ => hg.2)
      (by intros; contradiction)
  | check c =>
    -- The call may leave the loop: here the condition on the other transactions is used.
    have hpass (hg : j.barriers c = .waitUpdates)
        (hz : ∀ t < j.nextTx, j.jRunningTransaction = some t → (j.txs t).tUpdates = 0)
        (hs1 : some (j.setBarrier c .waitMutex) = some j') : BarrierInv j' := by
      cases hs1
      refine hi.move hs0 rfl rfl (by simp [hg]) (by rw [hg]; rfl)
        (fun _ => hi.reserved c (by simp [hg, pastReserved])) fun _ t => ?_
      by_cases ht : t < j.nextTx
      · exact hc hz t ht
      rw [hi.updates.counts t]
      refine Finset.sum_eq_zero fun h _ => ?_
      refine if_neg fun hatt => ht (hi.updates.known h t hatt)
    simp only [barrierStep, lockUpdatesCheck] at hs
    split_ifs at hs with hg
    simp only [ne_eq, not_or, not_not] at hg
    split at hs
    · rename_i hrun
      exact hpass hg.1 (fun t _ ht => by simp [hrun] at ht) hs
    rename_i t hrun
    split_ifs at hs with hz
    · refine hpass hg.1 (fun u _ hu => ?_) hs
      rw [hrun, Option.some.injEq] at hu
      exact hu ▸ hz
    · cases hs
      exact hi
  | mutex c =>
    simp only [barrierStep, lockUpdatesMutex] at hs
    split_ifs at hs with hg
    simp only [ne_eq, not_or, not_not] at hg
    cases hs
    exact hi.move hs0 rfl rfl (by simp [hg.1]) (by rw [hg.1]; rfl)
      (fun _ => hi.reserved c (by simp [hg.1, pastReserved]))
      (fun _ => hi.drained c (by simp [hg.1, pastUpdates]))
  | unlock =>
    simp only [barrierStep, unlockUpdates] at hs
    split_ifs at hs with hg
    simp only [ne_eq, not_or, not_not] at hg
    cases hs
    exact hi.move hs0 rfl rfl (by simp [hg.1]) (by rw [hg.1]; rfl)
      (by intros; contradiction) (by intros; contradiction)
  | unlockCount c =>
    simp only [barrierStep, unlockUpdatesCount] at hs
    split_ifs at hs with hg
    simp only [ne_eq, not_or, not_not] at hg
    have hne := hi.count_ne (c := c) (by rw [hg.1]; rfl)
    cases hs
    refine hi.move hs0 rfl rfl (by simp [hg.1]) ?_
      (by intros; contradiction) (by intros; contradiction)
    simp only [hg.1, raised]
    omega

/-- A step that checks all transactions keeps the barrier. -/
theorem BarrierInv.step {j j' : Journal} {a : Act} (hi : BarrierInv j) (hc : j.ChecksAll a)
    (hs : j.step a = some j') : BarrierInv j' := by
  cases a with
  | barrier => exact hi.barrier hc hs
  | _ => exact hi.client hs (by simp)

theorem barrierInv_reset (cfg : Config) : BarrierInv (journalReset cfg) :=
  ⟨updatesInv_reset cfg, fun _ _ => rfl, rfl, nofun, nofun⟩

structure Journal.Barred (j : Journal) : Prop where
  handles : ∀ h, (j.handles h).hTransaction = none
  updates : ∀ t, (j.txs t).tUpdates = 0
  joins : ∀ a j', j.step a = some j' →
    ∀ h, (j.handles h).hReserved = false → (j'.handles h).hTransaction = none

/-- From the return of `journal_lock_updates` to the call of `journal_unlock_updates` no handle
is attached to any transaction and no ordinary handle can become attached, in every run in
which the wait for the updates of the running transaction never ends while another transaction
has updates. -/
theorem update_barrier (cfg : Config) (as : List Act) (j : Journal)
    (hex : exec step (journalReset cfg) as = some j)
    (hal : Along step Journal.ChecksAll (journalReset cfg) as)
    (c : ℕ) (hheld : j.barriers c = .held) : j.Barred := by
  have hi := exec_invariant (I := BarrierInv) (C := Journal.ChecksAll)
    (fun _ _ _ hi hc hs => hi.step hc hs) as (barrierInv_reset cfg) hex hal
  have hzero := hi.drained c (by simp [hheld, pastUpdates])
  have hnone := hi.updates.att_none hzero
  refine ⟨hnone, hzero, fun a j' hs h _ => ?_⟩
  cases step_attachment hs with
  | same hatt | create hatt => exact (congrFun hatt h).trans (hnone h)
  | start hatt =>
    refine (congrFun hatt h).trans ?_
    by_cases h1 : h = j.nextHandle
    · simp [h1]
    · by_cases h2 : h = j.nextHandle + 1 <;> simp [h1, h2, hnone h]
  | leave u _ hatt0 =>
    rw [hnone u] at hatt0
    cases hatt0
  | join _ _ hstage _ _ hbar =>
    exact absurd hbar (hi.no_join (c := c) (by simp [hheld, pastReserved]) hstage)

/-- A handle is open on the first transaction when its commit locks it down; then a call of
`journal_lock_updates` finds the preallocated transaction running and returns. -/
def earlyBarrierRun : List Act :=
  [.handle (.start 1 0), .handle (.startRepeat 0 true), .getTransaction 0,
    .handle (.startRepeat 0 true), .requestCommit 0 0, .commit .kjournald,
    .commit .restoreSuperblock, .commit .allocNew, .commit .lockDown,
    .barrier .lock, .barrier (.check 0), .barrier (.mutex 0)]

/-- `journal_lock_updates` has returned while the handle is attached to the transaction that the
commit waits for. -/
theorem earlyBarrierRun_attached :
    (exec step (journalReset sampleConfig) earlyBarrierRun).map
      (fun j => (j.barriers 0, (j.handles 0).hTransaction, (j.txs 0).tUpdates)) =
        some (.held, some 0, 1) := by
  decide +kernel

def barrierRun : List Act :=
  [.handle (.start 1 0), .handle (.startRepeat 0 true), .getTransaction 0,
    .handle (.startRepeat 0 true), .requestCommit 0 0, .commit .kjournald,
    .commit .restoreSuperblock, .commit .allocNew, .commit .lockDown, .handle (.stop 0),
    .barrier .lock, .barrier (.check 0), .barrier (.mutex 0)]

theorem update_barrier_barrierRun :
    ∃ j, exec step (journalReset sampleConfig) barrierRun = some j ∧
      j.barriers 0 = .held ∧ j.Barred := by
  obtain ⟨j, hj, hheld⟩ := Option.map_eq_some_iff.mp
    (by decide +kernel : (exec step (journalReset sampleConfig) barrierRun).map
      (fun j => j.barriers 0) = some .held)
  refine ⟨j, hj, hheld, update_barrier sampleConfig barrierRun j hj ?_ 0 hheld⟩
  decide +kernel

end VMsep.Jbd2
