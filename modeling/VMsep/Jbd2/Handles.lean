import VMsep.Jbd2.Journal

/-! `start_this_handle` and its callers, `journal_stop`, `journal_extend`, `journal_restart`, the
reserved handles and the update barrier. Every function is one section under `j_state_lock` (or one
group of atomic counter updates); `none` is a section that cannot be entered in this state, a failed
assertion or a dereferenced null pointer. A call that only waits returns the state unchanged.
Whether the log has room is an input, `room`. -/

namespace VMsep.Jbd2.Journal

/-- `jbd2_get_transaction`, with its assertion that there is no running transaction taken as
a no-op. -/
def jbd2GetTransaction (j : Journal) : Journal :=
  { j with
    txs := Function.update j.txs j.nextTx
      { Transaction.zero with
        tTid := j.jTransactionSequence, tOutstandingCredits := j.jReservedCredits }
    nextTx := j.nextTx + 1
    jTransactionSequence := j.jTransactionSequence + 1
    jRunningTransaction := some j.nextTx }

def logStartCommit (j : Journal) (target : Tid) (inoSync : ℕ) : Journal :=
  if j.jCommitRequest = target then j
  else
    match j.jRunningTransaction with
    | none => j
    | some t =>
      if (j.txs t).tTid = target then
        { j.setTx t (fun x => { x with inoSync := inoSync }) with jCommitRequest := target }
      else j

def rsvBlocks (j : Journal) (h : ℕ) : ℕ :=
  match (j.handles h).hRsvHandle with
  | none => 0
  | some r => (j.handles r).hBufferCredits

/-- The credit limits at the top of `start_this_handle`. -/
def tooManyCredits (j : Journal) (blocks rsv : ℕ) : Bool :=
  decide (j.jMaxTransactionBuffers / 2 < (rsv : ℤ)) ||
    decide (j.jMaxTransactionBuffers < (rsv : ℤ) + blocks)

/-- `add_transaction_credits`; `none` when the caller has to wait and retry. -/
def addTransactionCredits (j : Journal) (t : ℕ) (blocks rsv : ℕ) (room : Bool) :
    Option Journal :=
  let x := j.txs t
  let needed := x.tOutstandingCredits + ((blocks : ℤ) + rsv)
  if x.tState = .locked then none
  else if j.jMaxTransactionBuffers < needed then none
  else if !room then none
  else if rsv ≠ 0 ∧ j.jMaxTransactionBuffers / 2 < j.jReservedCredits + rsv then none
  else
    some { j.setTx t (fun x => { x with tOutstandingCredits := needed }) with
      jReservedCredits := j.jReservedCredits + rsv }

/-- The credits of a reserved handle become part of `j_reserved_credits`, or stop being so. -/
def setAccounted (j : Journal) (r : Option ℕ) (b : Bool) : Journal :=
  match r with
  | none => j
  | some r => j.setHandle r fun x => { x with accounted := b }

/-- The end of `start_this_handle`: the handle joins the transaction. -/
def attachHandle (j : Journal) (h : ℕ) (t : ℕ) : Journal :=
  (j.setTx t fun x =>
      { x with tUpdates := x.tUpdates + 1, tHandleCount := x.tHandleCount + 1 }).setHandle h
    fun x => { x with stage := .attached, hTransaction := some t, hReserved := false }

/-- An error return of `start_this_handle`. For a reserved handle `start_reserved` then calls
`free_reserved` after it has cleared `h_journal`, so there is no next state. -/
def startFail (j : Journal) (h : ℕ) (e : Errno) : Option Journal :=
  if (j.handles h).hReserved then none
  else some (j.setHandle h fun x => { x with stage := .failed e })

/-- `jbd2_vmsep__journal_start` up to the label `repeat`. Handles are numbered in pairs, the
second being the reserved one. -/
def journalStart (j : Journal) (nblocks rsv : ℕ) : Journal :=
  let h := j.nextHandle
  let x : Handle :=
    { stage := if j.tooManyCredits nblocks rsv then .failed .enospc else .starting
      hTransaction := none, hBufferCredits := nblocks, hReserved := false
      hRsvHandle := if rsv = 0 then none else some (h + 1), hRef := 1, accounted := false }
  let r : Handle :=
    { stage := if rsv = 0 then .unused else .owned
      hTransaction := none, hBufferCredits := rsv, hReserved := rsv != 0
      hRsvHandle := none, hRef := 1, accounted := false }
  { j with handles := Function.update (Function.update j.handles (h + 1) r) h x
           nextHandle := h + 2 }

/-- The section of `start_this_handle` that starts at `repeat`. -/
def startRepeat (j : Journal) (h : ℕ) (room : Bool) : Option Journal :=
  let x := j.handles h
  if x.stage ≠ .starting ∨ !j.stateLockFree ∨ j.jUnmount then none
  else if j.readOnly then j.startFail h .erofs
  else if !x.hReserved ∧ j.jBarrierCount ≠ 0 then some j
  else
    match j.jRunningTransaction with
    | none => some (j.setHandle h fun x => { x with stage := .needTransaction })
    | some t =>
      if x.hReserved then
        some ((({ j with jReservedCredits := j.jReservedCredits - x.hBufferCredits }
          ).setAccounted (some h) false).attachHandle h t)
      else
        match j.addTransactionCredits t x.hBufferCredits (j.rsvBlocks h) room with
        | none => some j
        | some j' => some ((j'.setAccounted x.hRsvHandle true).attachHandle h t)

/-- The section of `start_this_handle` under the write lock, which creates a transaction if
there still is none. -/
def startGetTransaction (j : Journal) (h : ℕ) : Option Journal :=
  let x := j.handles h
  if x.stage ≠ .needTransaction ∨ !j.stateLockFree then none
  else
    let j' := j.setHandle h fun x => { x with stage := .starting }
    if j.jRunningTransaction = none ∧ (x.hReserved ∨ j.jBarrierCount = 0) then
      some j'.jbd2GetTransaction
    else some j'

def startNomem (j : Journal) (h : ℕ) : Option Journal :=
  if (j.handles h).stage ≠ .needTransaction then none else j.startFail h .enomem

/-- A nested `journal_start` by the task that owns the handle. -/
def nestHandle (j : Journal) (h : ℕ) : Option Journal :=
  if (j.handles h).stage ≠ .attached then none
  else some (j.setHandle h fun x => { x with hRef := x.hRef + 1 })

/-- Leave a transaction: `t_updates` and the unused credits go back. -/
def leaveTransaction (j : Journal) (h : ℕ) (t : ℕ) : Journal :=
  j.setTx t fun x =>
    { x with
      tUpdates := x.tUpdates - 1
      tOutstandingCredits := x.tOutstandingCredits - (j.handles h).hBufferCredits }

/-- `journal_stop` up to the point where `t_updates` is dropped. -/
def journalStop (j : Journal) (h : ℕ) : Option Journal :=
  let x := j.handles h
  match x.stage, x.hTransaction with
  | .attached, some t =>
    if !j.jAborted ∧ (j.txs t).tUpdates = 0 then none
    else if 1 < x.hRef then some (j.setHandle h fun x => { x with hRef := x.hRef - 1 })
    else
      some ((j.leaveTransaction h t).setHandle h fun x =>
        { x with
          stage := if x.hRsvHandle = none then .stopped else .stopping
          hTransaction := none })
  | _, _ => none

/-- `sub_reserved_credits` for a reserved handle that is given up. -/
def releaseReserved (j : Journal) (r : ℕ) : Journal :=
  ({ j with jReservedCredits := j.jReservedCredits - (j.handles r).hBufferCredits }).setHandle r
    fun x => { x with stage := .stopped, accounted := false }

/-- The end of `journal_stop`, where the reserved handle is freed. -/
def stopRelease (j : Journal) (h : ℕ) : Option Journal :=
  let x := j.handles h
  match x.stage, x.hRsvHandle with
  | .stopping, some r =>
    some ((j.releaseReserved r).setHandle h fun x => { x with stage := .stopped })
  | _, _ => none

def journalExtend (j : Journal) (h : ℕ) (nblocks : ℕ) (room : Bool) : Option Journal :=
  let x := j.handles h
  match x.stage, x.hTransaction with
  | .attached, some t =>
    if j.jAborted then some j
    else if !j.stateLockFree then none
    else if (j.txs t).tState ≠ .running then some j
    else if j.jMaxTransactionBuffers < (j.txs t).tOutstandingCredits + nblocks ∨ !room then some j
    else
      some ((j.setTx t fun x =>
          { x with tOutstandingCredits := x.tOutstandingCredits + nblocks }).setHandle h
        fun x => { x with hBufferCredits := x.hBufferCredits + nblocks })
  | _, _ => none

/-- `journal_restart` up to the label `repeat` of the new `start_this_handle`. -/
def journalRestart (j : Journal) (h : ℕ) (nblocks : ℕ) : Option Journal :=
  let x := j.handles h
  match x.stage, x.hTransaction with
  | .attached, some t =>
    if j.jAborted then some j
    else if (j.txs t).tUpdates = 0 ∨ !j.stateLockFree then none
    else
      let j' := ({ j.leaveTransaction h t with
        jReservedCredits := j.jReservedCredits - j.rsvBlocks h }).setAccounted x.hRsvHandle false
      some (j'.setHandle h fun x =>
        { x with
          stage := if j.tooManyCredits nblocks (j.rsvBlocks h) then .failed .enospc else .starting
          hTransaction := none
          hBufferCredits := nblocks })
  | _, _ => none

def takeReserved (j : Journal) (h : ℕ) : Option Journal :=
  let x := j.handles h
  match x.stage, x.hRsvHandle with
  | .attached, some r =>
    some ((j.setHandle r fun x => { x with stage := .reserved }).setHandle h
      fun x => { x with hRsvHandle := none })
  | _, _ => none

/-- `journal_start_reserved` up to the label `repeat`. -/
def startReserved (j : Journal) (r : ℕ) : Option Journal :=
  let x := j.handles r
  if x.stage ≠ .reserved ∨ j.tooManyCredits x.hBufferCredits 0 then none
  else some (j.setHandle r fun x => { x with stage := .starting })

def freeReserved (j : Journal) (r : ℕ) : Option Journal :=
  if (j.handles r).stage ≠ .reserved then none else some (j.releaseReserved r)

def useCredit (j : Journal) (h : ℕ) : Option Journal :=
  let x := j.handles h
  if x.stage ≠ .attached ∨ x.hBufferCredits = 0 then none
  else some (j.setHandle h fun x => { x with hBufferCredits := x.hBufferCredits - 1 })

/-- `journal_forget` gives the credit of a dropped buffer back. -/
def returnCredit (j : Journal) (h : ℕ) : Option Journal :=
  if (j.handles h).stage ≠ .attached then none
  else some (j.setHandle h fun x => { x with hBufferCredits := x.hBufferCredits + 1 })

/-- `journal_lock_updates`: raise the barrier count. -/
def lockUpdates (j : Journal) : Option Journal :=
  if !j.stateLockFree then none
  else
    some { j.setBarrier j.nextBarrier
        (if j.jReservedCredits = 0 then .waitUpdates else .waitReserved) with
      jBarrierCount := j.jBarrierCount + 1
      nextBarrier := j.nextBarrier + 1 }

def lockUpdatesReserved (j : Journal) (c : ℕ) : Option Journal :=
  if j.barriers c ≠ .waitReserved ∨ j.jReservedCredits ≠ 0 then none
  else some (j.setBarrier c .waitUpdates)

def lockUpdatesCheck (j : Journal) (c : ℕ) : Option Journal :=
  if j.barriers c ≠ .waitUpdates ∨ !j.stateLockFree then none
  else
    match j.jRunningTransaction with
    | none => some (j.setBarrier c .waitMutex)
    | some t => if (j.txs t).tUpdates = 0 then some (j.setBarrier c .waitMutex) else some j

/-- `mutex_lock(&journal->j_barrier)`, after which `lock_updates` returns. -/
def lockUpdatesMutex (j : Journal) (c : ℕ) : Option Journal :=
  if j.barriers c ≠ .waitMutex ∨ j.jBarrier ≠ none then none
  else some { j.setBarrier c .held with jBarrier := some c }

/-- `journal_unlock_updates` up to the release of the mutex. -/
def unlockUpdates (j : Journal) (c : ℕ) : Option Journal :=
  if j.barriers c ≠ .held ∨ j.jBarrierCount = 0 then none
  else some { j.setBarrier c .unlocking with jBarrier := none }

/-- The end of `journal_unlock_updates`. -/
def unlockUpdatesCount (j : Journal) (c : ℕ) : Option Journal :=
  if j.barriers c ≠ .unlocking ∨ !j.stateLockFree then none
  else some { j.setBarrier c .released with jBarrierCount := j.jBarrierCount - 1 }

end VMsep.Jbd2.Journal
