import VMsep.Jbd2.Pointers
import VMsep.Jbd2.Reserved

/-! Which handles are attached to which transaction, and that `t_updates` counts them. A step
attaches a handle to the running transaction, detaches one, creates a transaction or a handle, or
leaves all attachments alone (`Attachment`); every invariant about open updates follows from this.
-/

namespace VMsep.Jbd2

open Lib Function

namespace Journal

def att (j : Journal) : ℕ → Option ℕ := fun h => (j.handles h).hTransaction

def upd (j : Journal) : ℕ → ℕ := fun t => (j.txs t).tUpdates

@[simp]
theorem upd_setHandle (j : Journal) (h : ℕ) (f : Handle → Handle) :
    (j.setHandle h f).upd = j.upd := rfl

theorem att_setHandle (j : Journal) (h : ℕ) (f : Handle → Handle) :
    (j.setHandle h f).att = update j.att h (f (j.handles h)).hTransaction := by
  funext u
  by_cases hu : u = h <;> simp [att, setHandle, hu]

theorem upd_setTx (j : Journal) (t : ℕ) (f : Transaction → Transaction) :
    (j.setTx t f).upd = update j.upd t (f (j.txs t)).tUpdates := by
  funext u
  by_cases hu : u = t <;> simp [upd, setTx, hu]

theorem att_of_handles {j j' : Journal} {h : ℕ} {x : Handle}
    (hhandles : j'.handles = update j.handles h x)
    (hx : x.hTransaction = (j.handles h).hTransaction) : j'.att = j.att := by
  funext u
  by_cases hu : u = h <;> simp [att, hhandles, hu, hx]

theorem upd_of_txs {j j' : Journal} {t : ℕ} {x : Transaction}
    (htxs : j'.txs = update j.txs t x) (hx : x.tUpdates = (j.txs t).tUpdates) : j'.upd = j.upd := by
  funext u
  by_cases hu : u = t <;> simp [upd, htxs, hu, hx]

@[simp]
theorem att_setAccounted (j : Journal) (r : Option ℕ) (b : Bool) :
    (j.setAccounted r b).att = j.att := by
  cases r with
  | none => rfl
  | some => exact att_of_handles rfl rfl

@[simp]
theorem upd_setAccounted (j : Journal) (r : Option ℕ) (b : Bool) :
    (j.setAccounted r b).upd = j.upd := by
  cases r <;> rfl

@[simp]
theorem att_attachHandle (j : Journal) (h t : ℕ) :
    (j.attachHandle h t).att = update j.att h (some t) := by
  rw [attachHandle, att_setHandle]
  rfl

@[simp]
theorem upd_attachHandle (j : Journal) (h t : ℕ) :
    (j.attachHandle h t).upd = update j.upd t (j.upd t + 1) := by
  rw [attachHandle, upd_setHandle, upd_setTx]
  rfl

@[simp]
theorem upd_leaveTransaction (j : Journal) (h t : ℕ) :
    (j.leaveTransaction h t).upd = update j.upd t (j.upd t - 1) := by
  rw [leaveTransaction, upd_setTx]
  rfl

end Journal

/-- What a step can do to the attachments of handles. -/
inductive Attachment (j : Journal) (a : Act) (j' : Journal) : Prop
  | same (hatt : j'.att = j.att) (hupd : j'.upd = j.upd) (hnext : j'.nextHandle = j.nextHandle)
  | join (h t : ℕ) (hstage : (j.handles h).stage = .starting)
      (hrun : j.jRunningTransaction = some t)
      (hfree : j.stateLockFree = true)
      (hbar : (j.handles h).hReserved = false → j.jBarrierCount = 0)
      (hatt : j'.att = update j.att h (some t))
      (hupd : j'.upd = update j.upd t (j.upd t + 1))
      (hnext : j'.nextHandle = j.nextHandle)
  | leave (h t : ℕ) (hatt0 : j.att h = some t)
      (hatt : j'.att = update j.att h none)
      (hupd : j'.upd = update j.upd t (j.upd t - 1))
      (hnext : j'.nextHandle = j.nextHandle)
      (ha : a = .handle (.stop h) ∧ (j.handles h).hRef ≤ 1 ∨
        (∃ n, a = .handle (.restart h n)) ∧ j.jAborted = false)
  | start (hatt : j'.att =
        update (update j.att (j.nextHandle + 1) none) j.nextHandle none)
      (hupd : j'.upd = j.upd) (hnext : j'.nextHandle = j.nextHandle + 2)
  | create (hatt : j'.att = j.att) (hupd : j'.upd = update j.upd j.nextTx 0)
      (hnext : j'.nextHandle = j.nextHandle)

namespace Journal

variable {j j' : Journal} {h : ℕ} {a : CommitAct}

theorem leave_attachment {a : Act} {t : ℕ} (hatt0 : j.att h = some t)
    (hatt : j'.att = update j.att h none) (hupd : j'.upd = (j.leaveTransaction h t).upd)
    (hnext : j'.nextHandle = j.nextHandle) (ha : a = .handle (.stop h) ∧ (j.handles h).hRef ≤ 1 ∨
      (∃ n, a = .handle (.restart h n)) ∧ j.jAborted = false) : Attachment j a j' :=
  .leave h t hatt0 hatt (by rw [hupd, upd_leaveTransaction]) hnext ha

theorem handleStep_attachment {a : HandleAct} (hs : j.handleStep a = some j') :
    Attachment j (.handle a) j' := by
  cases handleStep_move hs with
  | same => exact .same rfl rfl rfl
  | start =>
    refine .start ?_ rfl rfl
    funext u
    by_cases h1 : u = j.nextHandle
    · simp [att, journalStart, h1]
    · by_cases h2 : u = j.nextHandle + 1 <;> simp [att, journalStart, h1, h2]
  | fail | need | ref | credit | startReserved | freeReserved =>
    exact .same (att_of_handles rfl rfl) rfl rfl
  | @joinReserved h t _ hst hfree hrun hres =>
    refine .join h t hst hrun hfree (by simp [hres]) ?_ ?_ rfl
    · rw [att_attachHandle, att_setAccounted]
      rfl
    · rw [upd_attachHandle, upd_setAccounted]
      rfl
  | @join h t _ hst hfree hrun _ hbar =>
    have hupd : (j.setTx t fun x => { x with tOutstandingCredits :=
        (j.txs t).tOutstandingCredits + (((j.handles h).hBufferCredits : ℤ) + j.rsvBlocks h) }).upd
        = j.upd := upd_of_txs rfl rfl
    refine .join h t hst hrun hfree (fun _ => hbar) ?_ ?_ (by simp [setTx])
    · rw [att_attachHandle, att_setAccounted]
      rfl
    · rw [upd_attachHandle, upd_setAccounted, ← hupd]
      rfl
  | @stop h _ _ htx href =>
    exact leave_attachment htx (att_setHandle _ h _) rfl rfl (.inl ⟨rfl, href⟩)
  | @stopRelease _ r =>
    have hr : (j.releaseReserved r).att = j.att := att_of_handles rfl rfl
    refine .same (Eq.trans ?_ hr) rfl rfl
    exact att_of_handles rfl rfl
  | extend =>
    refine .same (att_of_handles rfl rfl) ?_ rfl
    rw [upd_setHandle]
    exact upd_of_txs rfl rfl
  | @restart _ n _ _ _ htx hab =>
    refine leave_attachment htx ?_ ?_ ?_ (.inr ⟨⟨n, rfl⟩, hab⟩)
    · rw [att_setHandle, att_setAccounted]
      rfl
    · rw [upd_setHandle, upd_setAccounted]
      rfl
    · rw [nextHandle_setHandle, nextHandle_setAccounted]
      rfl
  | @takeReserved _ r =>
    have hr : (j.setHandle r fun x => { x with stage := .reserved }).att = j.att :=
      att_of_handles rfl rfl
    refine .same (Eq.trans ?_ hr) rfl rfl
    exact att_of_handles rfl rfl

@[simp]
theorem upd_jbd2GetTransaction (j : Journal) :
    j.jbd2GetTransaction.upd = update j.upd j.nextTx 0 := by
  funext u
  by_cases hu : u = j.nextTx <;> simp [upd, jbd2GetTransaction, Transaction.zero, hu]

theorem commitStep_upd (hs : j.commitStep a = some j') (ha : a ≠ .allocNew) : j'.upd = j.upd := by
  cases a with
  | allocNew => exact absurd rfl ha
  | switchTransaction | credit =>
    simp only [commitStep, switchTransaction, commitCredit] at hs
    split_ifs at hs
    cases hs
    exact upd_of_txs rfl rfl
  | _ =>
    exact congrArg (fun c t => (c.2.2.2 t).1) (commitStep_counts hs ha (by simp) (by simp))

theorem commitStep_attachment (hs : j.commitStep a = some j') : Attachment j (.commit a) j' := by
  have hatt : j'.att = j.att :=
    congrArg (fun (c : Clients) h => (c.handles h).hTransaction) (commitStep_clients hs)
  by_cases ha : a = .allocNew
  · subst ha
    simp only [commitStep, allocNewTransaction] at hs
    split at hs
    · cases hs
    split_ifs at hs
    cases hs
    exact .create hatt (upd_jbd2GetTransaction j) rfl
  · exact .same hatt (commitStep_upd hs ha) (congrArg Clients.nextHandle (commitStep_clients hs))

theorem step_attachment {a : Act} (hs : j.step a = some j') : Attachment j a j' := by
  cases a with
  | handle => exact handleStep_attachment hs
  | commit => exact commitStep_attachment hs
  | barrier =>
    obtain ⟨n, m, bs, k, rfl⟩ := barrierStep_frame hs
    exact .same rfl rfl rfl
  | getTransaction =>
    simp only [step, startGetTransaction] at hs
    split_ifs at hs <;> cases hs
    · exact .create (att_of_handles rfl rfl) (upd_jbd2GetTransaction _) rfl
    · exact .same (att_of_handles rfl rfl) rfl rfl
  | sync | requestCommit | timeout | abort | killThread | dropCheckpoint | cleanupGetTail
  | cleanupUpdateTail =>
    obtain ⟨_, _, _, _, _, _, _, _, _, _, _, _, rfl⟩ := step_frame hs rfl (by simp)
    exact .same rfl rfl rfl

end Journal

/-- The weight of a handle in the update count of transaction `t`. -/
def attached (t : ℕ) (x : Option ℕ) : ℕ := if x = some t then 1 else 0

@[simp]
theorem attached_self (t : ℕ) : attached t (some t) = 1 := if_pos rfl

@[simp]
theorem attached_none (t : ℕ) : attached t none = 0 := rfl

theorem attached_of_ne {t u : ℕ} (h : t ≠ u) : attached t (some u) = 0 :=
  if_neg fun heq => h (Option.some.inj heq).symm

/-- `t_updates` counts the handles attached to the transaction. -/
structure UpdatesInv (j : Journal) : Prop where
  handles : HandlesInv j
  pointers : Pointers j.spine
  counts : ∀ t, j.upd t = total (attached t) j.nextHandle j.att
  known : ∀ h t, j.att h = some t → t < j.nextTx

namespace UpdatesInv

variable {j j' : Journal} {h t : ℕ}

section

variable (hi : UpdatesInv j)

include hi

theorem lt_nextHandle (hatt : j.att h = some t) : h < j.nextHandle := by
  by_contra hge
  simp [Journal.att, hi.handles.fresh h (not_lt.mp hge), Handle.unused] at hatt

theorem upd_pos (hatt : j.att h = some t) : 0 < j.upd t := by
  have hle := weight_le_total (w := attached t) (f := j.att) (hi.lt_nextHandle hatt)
  rw [hi.counts t]
  rw [hatt, attached_self] at hle
  omega

theorem att_none (hzero : ∀ t, j.upd t = 0) (h : ℕ) : j.att h = none := by
  cases hatt : j.att h with
  | none => rfl
  | some t =>
    have := hi.upd_pos hatt
    rw [hzero t] at this
    omega

theorem upd_new : total (attached j.nextTx) j.nextHandle j.att = 0 := by
  refine Finset.sum_eq_zero fun h _ => ?_
  unfold attached
  rw [if_neg]
  intro hatt
  exact absurd (hi.known h _ hatt) (lt_irrefl _)

theorem att_kept {j' : Journal} {a : Act} (hs : j.step a = some j') (hatt : j.att h = some t)
    (hstop : a = .handle (.stop h) → 1 < (j.handles h).hRef)
    (hrestart : ∀ n, a = .handle (.restart h n) → j.jAborted = true) : j'.att h = some t := by
  cases Journal.step_attachment hs with
  | same hatt' | create hatt' => rw [hatt', hatt]
  | join i _ hstage _ _ _ hatt' =>
    have hne : h ≠ i := by
      rintro rfl
      have := (hi.handles.ok h).attached.mp (by
        change (j.att h).isSome = true
        rw [hatt]
        rfl)
      rw [hstage] at this
      cases this
    rw [hatt', update_of_ne hne, hatt]
  | leave i _ _ hatt' _ _ ha =>
    have hne : h ≠ i := by
      rintro rfl
      rcases ha with ⟨ha, href⟩ | ⟨⟨n, ha⟩, hab⟩
      · have := hstop ha
        omega
      · exact absurd (hab.symm.trans (hrestart n ha)) (by simp)
    rw [hatt', update_of_ne hne, hatt]
  | start hatt' =>
    have hlt := hi.lt_nextHandle hatt
    rw [hatt', update_of_ne (by omega), update_of_ne (by omega), hatt]

end

end UpdatesInv

theorem updatesInv_reset (cfg : Config) : UpdatesInv (journalReset cfg) where
  handles :=
    { ok := fun h => by constructor <;> simp [journalReset, Handle.unused]
      fresh := fun _ _ => rfl
      reserved := rfl }
  pointers := pointers_reset cfg
  counts := fun _ => rfl
  known := nofun

theorem Spine.Step.nextTx_le {s s' : Spine} {e : Event} (hs : s.Step e s') :
    s.nextTx ≤ s'.nextTx := by
  cases hs with
  | client h => cases h <;> exact le_rfl
  | create => exact Nat.le_succ _
  | noCleanup => exact le_rfl
  | cleanup => exact le_rfl
  | commit h => cases h <;> first | exact le_rfl | exact Nat.le_succ _

/-- Every step keeps `t_updates` the number of handles. -/
theorem UpdatesInv.step {j j' : Journal} {a : Act} (hi : UpdatesInv j)
    (hs : j.step a = some j') : UpdatesInv j' := by
  refine ⟨hi.handles.step hs, pointers_step hi.pointers hs, ?_, ?_⟩
  · intro t
    have ht := hi.counts t
    cases Journal.step_attachment hs with
    | same hatt hupd hnext => rw [hupd, hatt, hnext, ht]
    | create hatt hupd hnext =>
      rw [hupd, hatt, hnext]
      by_cases hnew : t = j.nextTx
      · rw [hnew, update_self, hi.upd_new]
      · rw [update_of_ne hnew, ht]
    | start hatt hupd hnext =>
      rw [hupd, hatt, hnext, total_succ, total_succ, total_update_of_le (by omega),
        total_update_of_le (by omega), ht]
      simp [attached]
    | join h u hstage _ _ _ hatt hupd hnext =>
      have hlt := hi.handles.lt (h := h) (by simp [hstage])
      have hnone : j.att h = none := (hi.handles.ok h).noTransaction (by simp [hstage])
      have hsum := total_update (w := attached t) (f := j.att) hlt (some u)
      rw [hupd, hatt, hnext]
      by_cases htu : t = u
      · subst htu
        rw [hnone, attached_self, attached_none] at hsum
        rw [update_self]
        omega
      · rw [hnone, attached_of_ne htu, attached_none] at hsum
        rw [update_of_ne htu]
        omega
    | leave _ u hatt0 hatt hupd hnext =>
      have hsum := total_update (w := attached t) (f := j.att) (hi.lt_nextHandle hatt0) none
      rw [hupd, hatt, hnext]
      by_cases htu : t = u
      · subst htu
        rw [hatt0, attached_self, attached_none] at hsum
        rw [update_self]
        omega
      · rw [hatt0, attached_of_ne htu, attached_none] at hsum
        rw [update_of_ne htu]
        omega
  · intro h t hatt'
    have hle : j.nextTx ≤ j'.nextTx := (Journal.step_spine hs).nextTx_le
    have hkeep : j.att h = some t → t < j'.nextTx := fun h0 => (hi.known h t h0).trans_le hle
    cases Journal.step_attachment hs with
    | same hatt | create hatt => exact hkeep (hatt ▸ hatt')
    | start hatt =>
      rw [hatt] at hatt'
      by_cases h1 : h = j.nextHandle
      · simp [h1] at hatt'
      by_cases h2 : h = j.nextHandle + 1
      · simp [h2] at hatt'
      · exact hkeep (by simpa [h1, h2] using hatt')
    | join u _ _ hrun _ _ hatt =>
      rw [hatt] at hatt'
      by_cases hu : h = u
      · subst hu
        rw [update_self] at hatt'
        cases hatt'
        exact (hi.pointers.running_lt t hrun).trans_le hle
      · exact hkeep (by simpa [hu] using hatt')
    | leave u _ _ hatt =>
      rw [hatt] at hatt'
      by_cases hu : h = u
      · simp [hu] at hatt'
      · exact hkeep (by simpa [hu] using hatt')

end VMsep.Jbd2
