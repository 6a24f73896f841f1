import VMsep.Jbd2.Refinement
import VMsep.Lib.Counting

/-! `j_reserved_credits` is the sum of the credits of the reserved handles that are accounted for,
and a reserved handle is accounted for from the time its parent joins a transaction until it is
started itself or given up. -/

namespace VMsep.Jbd2

open Lib Function HandleStage Handle

/-- Inside `start_this_handle`. -/
def HandleStage.joining : HandleStage → Bool
  | .starting | .needTransaction => true
  | _ => false

/-- Between the successful start and the end of `journal_stop`. -/
def HandleStage.active : HandleStage → Bool
  | .attached | .stopping => true
  | _ => false

/-- What holds of handle `x` with number `h` and the handle `y` that follows it. -/
structure HandleOk (h : ℕ) (x y : Handle) : Prop where
  attached : x.hTransaction.isSome = true ↔ x.stage = .attached
  accounted : x.accounted = true →
    0 < x.hBufferCredits ∧ x.hReserved = true ∧
      (x.stage = .owned ∨ x.stage = .reserved ∨ x.stage.joining = true)
  reserved : x.stage = .reserved ∨ (x.hReserved = true ∧ x.stage.joining = true) →
    x.accounted = true
  noRsv : x.hReserved = true → x.hRsvHandle = none
  started : x.stage.active = true → x.hReserved = false
  rsv : ∀ r, x.hRsvHandle = some r → x.stage.joining = true ∨ x.stage.active = true →
    r = h + 1 ∧ y.stage = .owned ∧ y.hReserved = true ∧ 0 < y.hBufferCredits ∧
      (y.accounted = true ↔ x.stage.active = true)

/-- The credits a handle contributes to `j_reserved_credits`. -/
def Handle.reservedCredits (x : Handle) : ℤ := if x.accounted then x.hBufferCredits else 0

structure HandlesInv (j : Journal) : Prop where
  ok : ∀ h, HandleOk h (j.handles h) (j.handles (h + 1))
  fresh : ∀ h, j.nextHandle ≤ h → j.handles h = Handle.unused
  reserved : j.jReservedCredits = total Handle.reservedCredits j.nextHandle j.handles

variable {j j' : Journal} {h : ℕ} {x y y' x' : Handle} {room : Bool} {n : ℕ}

theorem HandlesInv.lt (hi : HandlesInv j) (hst : (j.handles h).stage ≠ .unused) :
    h < j.nextHandle := by
  by_contra hge
  exact hst (by rw [hi.fresh h (not_lt.mp hge)]; rfl)

theorem HandlesInv.reserved_nonneg (hi : HandlesInv j) : 0 ≤ j.jReservedCredits := by
  rw [hi.reserved]
  refine total_nonneg fun x => ?_
  unfold reservedCredits
  split_ifs <;> omega

theorem HandleOk.of_not_owned (hk : HandleOk h x y) (hy : y.stage ≠ .owned) : HandleOk h x y' :=
  ⟨hk.attached, hk.accounted, hk.reserved, hk.noRsv, hk.started,
    fun r hr hst => absurd (hk.rsv r hr hst).2.1 hy⟩

theorem HandlesInv.one (hi : HandlesInv j) (hhandles : j'.handles = update j.handles h x)
    (hnext : j'.nextHandle = j.nextHandle) (hown : (j.handles h).stage ≠ .owned)
    (hused : (j.handles h).stage ≠ .unused) (hx : HandleOk h x (j.handles (h + 1)))
    (hres : j'.jReservedCredits + (j.handles h).reservedCredits =
      j.jReservedCredits + x.reservedCredits) : HandlesInv j' where
  ok := by
    intro u
    rw [hhandles]
    by_cases hu : u = h
    · subst hu
      simpa using hx
    rw [update_of_ne hu]
    by_cases hs : u + 1 = h
    · subst hs
      rw [update_self]
      exact (hi.ok u).of_not_owned hown
    · rw [update_of_ne hs]
      exact hi.ok u
  fresh := fun u hu => by
    rw [hnext] at hu
    have hlt := hi.lt hused
    rw [hhandles, update_of_ne (by omega), hi.fresh u hu]
  reserved := by
    have ht := total_update (w := reservedCredits) (f := j.handles) (hi.lt hused) x
    have hr := hi.reserved
    rw [hnext, hhandles]
    omega

theorem HandlesInv.two (hi : HandlesInv j)
    (hhandles : j'.handles = update (update j.handles (h + 1) y) h x)
    (hnext : j'.nextHandle = j.nextHandle) (hown : (j.handles h).stage ≠ .owned)
    (hused : (j.handles h).stage ≠ .unused) (hused' : (j.handles (h + 1)).stage ≠ .unused)
    (hx : HandleOk h x y) (hy : HandleOk (h + 1) y (j.handles (h + 2)))
    (hres : j'.jReservedCredits + (j.handles h).reservedCredits +
        (j.handles (h + 1)).reservedCredits =
      j.jReservedCredits + x.reservedCredits + y.reservedCredits) : HandlesInv j' where
  ok := fun u => by
    rw [hhandles]
    by_cases hu : u = h
    · subst hu
      simpa using hx
    rw [update_of_ne hu]
    by_cases hs : u + 1 = h
    · subst hs
      rw [update_of_ne (by omega), update_self]
      exact (hi.ok u).of_not_owned hown
    · rw [update_of_ne hs]
      by_cases hr : u = h + 1
      · subst hr
        rw [update_self, update_of_ne (by omega)]
        exact hy
      · rw [update_of_ne hr, update_of_ne (by omega)]
        exact hi.ok u
  fresh := fun u hu => by
    rw [hnext] at hu
    have h2 := hi.lt hused'
    rw [hhandles, update_of_ne (by omega), update_of_ne (by omega),
      hi.fresh u hu]
  reserved := by
    have h1 := total_update (w := reservedCredits) (f := j.handles) (hi.lt hused') y
    have h2 := total_update (w := reservedCredits)
      (f := update j.handles (h + 1) y) (hi.lt hused) x
    rw [update_of_ne (by omega)] at h2
    have hr := hi.reserved
    rw [hnext, hhandles]
    omega

theorem HandlesInv.same (hi : HandlesInv j) (hhandles : j'.handles = j.handles)
    (hnext : j'.nextHandle = j.nextHandle) (hres : j'.jReservedCredits = j.jReservedCredits) :
    HandlesInv j' where
  ok := by
    rw [hhandles]
    exact hi.ok
  fresh := by
    rw [hhandles, hnext]
    exact hi.fresh
  reserved := by rw [hres, hnext, hhandles, hi.reserved]

theorem HandlesInv.journalStart (hi : HandlesInv j) (n r : ℕ) :
    HandlesInv (j.journalStart n r) where
  ok := fun u => by
    simp only [Journal.journalStart]
    have hu1 := hi.fresh j.nextHandle le_rfl
    have hu3 := hi.fresh (j.nextHandle + 2) (by omega)
    by_cases hu : u = j.nextHandle
    · subst hu
      rw [update_self, update_of_ne (by omega), update_self]
      refine ⟨by split_ifs <;> simp, by simp, by split_ifs <;> simp, by simp, by simp,
        fun q hq hst => ?_⟩
      have hr : r ≠ 0 := by
        rintro rfl
        simp at hq
      have hact : (if j.tooManyCredits n r then failed .enospc else .starting).active
          = false := by split_ifs <;> rfl
      simp only [hr, if_false, Option.some.injEq] at hq ⊢
      exact ⟨hq.symm, trivial, by simpa using hr, by omega, by simp [hact]⟩
    · rw [update_of_ne hu]
      by_cases hs : u + 1 = j.nextHandle
      · rw [hs, update_self, update_of_ne (by omega)]
        refine (hi.ok u).of_not_owned ?_
        rw [hs, hu1]
        rintro ⟨⟩
      · rw [update_of_ne hs]
        by_cases hr : u = j.nextHandle + 1
        · subst hr
          rw [update_self, update_of_ne (by omega), hu3]
          refine ⟨by split_ifs <;> simp, by simp, fun hst => ?_, by simp, fun hst => ?_, by simp⟩
          · split_ifs at hst <;> simp [joining] at hst
          · split_ifs at hst <;> simp [active] at hst
        · rw [update_of_ne hr, update_of_ne (by omega)]
          exact hi.ok u
  fresh := fun u hu => by
    simp only [Journal.journalStart] at hu ⊢
    rw [update_of_ne (by omega), update_of_ne (by omega), hi.fresh u (by omega)]
  reserved := by
    simp only [Journal.journalStart]
    rw [total_succ, total_succ, total_update_of_le (by omega), total_update_of_le (by omega)]
    simp [reservedCredits, hi.reserved]

theorem HandleOk.retire (hk : HandleOk h x y) (hacc : x'.accounted = false)
    (htx : x'.hTransaction = none) (hj : x'.stage.joining = false) (ha : x'.stage.active = false)
    (hr : x'.stage ≠ .reserved) (hres : x'.hReserved = x.hReserved)
    (hrsv : x'.hRsvHandle = x.hRsvHandle) : HandleOk h x' y' where
  attached := by
    have : x'.stage ≠ .attached := fun hst => by simp [hst, active] at ha
    simp [htx, this]
  accounted := by simp [hacc]
  reserved := by simp [hj, hr]
  noRsv := by
    rw [hres, hrsv]
    exact hk.noRsv
  started := by simp [ha]
  rsv := by simp [hj, ha]

theorem HandleOk.attach (hacc : x'.accounted = false) (hst : x'.stage = .attached)
    (htx : x'.hTransaction.isSome = true) (hres : x'.hReserved = false)
    (hrsv : ∀ r, x'.hRsvHandle = some r → r = h + 1 ∧ y.stage = .owned ∧ y.hReserved = true ∧
      0 < y.hBufferCredits ∧ y.accounted = true) : HandleOk h x' y where
  attached := by simp [hst, htx]
  accounted := by simp [hacc]
  reserved := by simp [hres, hst]
  noRsv := by simp [hres]
  started := fun _ => hres
  rsv := fun r hr _ => by
    obtain ⟨h1, h2, h3, h4, h5⟩ := hrsv r hr
    exact ⟨h1, h2, h3, h4, by simp [h5, hst, active]⟩

theorem HandleOk.active_accounted (hk : HandleOk h x y) (hst : x.stage.active = true) :
    x.accounted = false := by
  by_contra hacc
  have := (hk.accounted (by simpa using hacc)).2.2
  cases hs : x.stage <;> simp_all [active, joining]

theorem HandleOk.not_accounted (hk : HandleOk h x y) (hres : x.hReserved = false) :
    x.accounted = false := by
  by_contra hacc
  have := (hk.accounted (by simpa using hacc)).2.1
  simp [hres] at this

theorem HandleOk.noTransaction (hk : HandleOk h x y) (hst : x.stage ≠ .attached) :
    x.hTransaction = none := by
  simpa [hst] using hk.attached

theorem HandleOk.rejoin {st : HandleStage} (hk : HandleOk h x y) (hx : x.stage.joining = true)
    (hst : st.joining = true) : HandleOk h { x with stage := st } y := by
  have hxa : x.stage ≠ .attached ∧ x.stage.active = false := by
    cases hs : x.stage <;> simp_all [joining, active]
  have hsa : st ≠ .attached ∧ st.active = false := by
    cases st <;> simp_all [joining, active]
  refine ⟨?_, fun ha => ?_, ?_, hk.noRsv, by simp [hsa.2],
    fun r hr _ => ?_⟩
  · simp [hk.noTransaction hxa.1, hsa.1]
  · obtain ⟨h1, h2, -⟩ := hk.accounted ha
    exact ⟨h1, h2, .inr (.inr hst)⟩
  · rintro (hr | ⟨hr, -⟩)
    · simp only at hr
      simp [hr, joining] at hst
    · exact hk.reserved (.inr ⟨hr, hx⟩)
  · obtain ⟨h1, h2, h3, h4, h5⟩ := hk.rsv r hr (.inl hx)
    exact ⟨h1, h2, h3, h4, by rw [h5, hxa.2, hsa.2]⟩

@[simp]
theorem Journal.nextHandle_setAccounted (j : Journal) (r : Option ℕ) (b : Bool) :
    (j.setAccounted r b).nextHandle = j.nextHandle := by
  cases r <;> rfl

@[simp]
theorem Journal.nextHandle_setHandle (j : Journal) (h : ℕ) (f : Handle → Handle) :
    (j.setHandle h f).nextHandle = j.nextHandle := rfl

@[simp]
theorem Journal.nextHandle_attachHandle (j : Journal) (h t : ℕ) :
    (j.attachHandle h t).nextHandle = j.nextHandle := rfl

theorem HandleOk.released (hk : HandleOk h x y) (hst : x.stage ≠ .attached) :
    HandleOk h { x with stage := .stopped, accounted := false } y :=
  hk.retire rfl (hk.noTransaction hst) rfl rfl (by simp) rfl rfl

section

variable (hi : HandlesInv j)

include hi

theorem HandlesInv.startGetTransaction (hs : j.startGetTransaction h = some j') :
    HandlesInv j' := by
  simp only [Journal.startGetTransaction] at hs
  split_ifs at hs with hguard hnew
  all_goals
    have hst : (j.handles h).stage = .needTransaction := by
      by_contra hne
      exact hguard (.inl hne)
    have hjoin : (j.handles h).stage.joining = true := by simp [hst, joining]
    cases hs
    exact hi.one rfl rfl (by simp [hst]) (by simp [hst]) ((hi.ok h).rejoin hjoin rfl) rfl

theorem HandlesInv.attached {c : ℕ} (hhandles : j'.handles = update j.handles h
      { j.handles h with hBufferCredits := c, hRef := n }) (hnext : j'.nextHandle = j.nextHandle)
    (hst : (j.handles h).stage = .attached) (hres : j'.jReservedCredits = j.jReservedCredits) :
    HandlesInv j' := by
  have hk := hi.ok h
  have hacc := hk.active_accounted (by simp [hst, active])
  refine hi.one hhandles hnext (by simp [hst]) (by simp [hst])
    ⟨hk.attached, by simp [hacc], hk.reserved, hk.noRsv, hk.started, hk.rsv⟩ ?_
  simp [reservedCredits, hacc, hres]

theorem HandlesInv.rsv_active {r : ℕ} (hst : (j.handles h).stage.active = true)
    (hr : (j.handles h).hRsvHandle = some r) : r = h + 1 ∧ (j.handles (h + 1)).stage = .owned ∧
      (j.handles (h + 1)).hReserved = true ∧ (j.handles (h + 1)).accounted = true := by
  obtain ⟨h1, h2, h3, -, h5⟩ := (hi.ok h).rsv r hr (.inr hst)
  exact ⟨h1, h2, h3, h5.mpr hst⟩

theorem HandlesInv.join {t : ℕ} {txs : ℕ → Transaction} (hst : (j.handles h).stage = .starting)
    (hres : (j.handles h).hReserved = false) :
    HandlesInv ((({ j with txs := txs, jReservedCredits := j.jReservedCredits + j.rsvBlocks h }
      ).setAccounted (j.handles h).hRsvHandle true).attachHandle h t) := by
  have hk := hi.ok h
  have hacc := hk.not_accounted hres
  cases hr : (j.handles h).hRsvHandle with
  | none =>
    refine hi.one (h := h) (x := { j.handles h with
      stage := .attached, hTransaction := some t, hReserved := false })
      rfl rfl (by simp [hst]) (by simp [hst]) (.attach hacc rfl rfl rfl (by simp [hr])) ?_
    simp [Journal.attachHandle, Journal.setAccounted, Journal.setHandle, Journal.setTx,
      Journal.rsvBlocks, reservedCredits, hacc, hr]
  | some r =>
    obtain ⟨rfl, hstr, hresr, hpos, haccr⟩ := hk.rsv r hr (.inl (by simp [hst, joining]))
    have haccr : (j.handles (h + 1)).accounted = false := by
      simpa [hst, active] using haccr
    have hkr := hi.ok (h + 1)
    refine hi.two (h := h) (x := { j.handles h with
        stage := .attached, hTransaction := some t, hReserved := false })
      (y := { j.handles (h + 1) with accounted := true }) ?_ rfl (by simp [hst]) (by simp [hst])
      (by simp [hstr]) (.attach hacc rfl rfl rfl ?_) ?_ ?_
    · simp [Journal.attachHandle, Journal.setAccounted, Journal.setHandle, Journal.setTx]
    · intro r' hr'
      rw [hr, Option.some.injEq] at hr'
      exact ⟨hr'.symm, hstr, hresr, hpos, rfl⟩
    · exact ⟨hkr.attached, fun _ => ⟨hpos, hresr, .inl hstr⟩, fun _ => rfl, hkr.noRsv,
        hkr.started, hkr.rsv⟩
    · simp [Journal.attachHandle, Journal.setAccounted, Journal.setHandle, Journal.setTx,
        Journal.rsvBlocks, reservedCredits, hacc, haccr, hr]

theorem HandlesInv.restart {st : HandleStage} {txs : ℕ → Transaction}
    (hst : (j.handles h).stage = .attached) (hnew : st = .failed .enospc ∨ st = .starting) :
    HandlesInv ((({ j with txs := txs, jReservedCredits := j.jReservedCredits - j.rsvBlocks h }
      ).setAccounted (j.handles h).hRsvHandle false).setHandle h fun x =>
        { x with stage := st, hTransaction := none, hBufferCredits := n }) := by
  have hact : (j.handles h).stage.active = true := by simp [hst, active]
  have hk := hi.ok h
  have hacc := hk.active_accounted hact
  have hres := hk.started hact
  have hna : st ≠ .attached ∧ st ≠ .reserved ∧ st.active = false := by
    rcases hnew with rfl | rfl <;> simp [active]
  cases hr : (j.handles h).hRsvHandle with
  | none =>
    refine hi.one (h := h) (x := { j.handles h with
      stage := st, hTransaction := none, hBufferCredits := n }) rfl rfl
      (by simp [hst]) (by simp [hst])
      ⟨by simp [hna.1], by simp [hacc], by simp [hres, hna.2.1], by simp [hres],
        by simp [hna.2.2], by simp [hr]⟩ ?_
    simp [Journal.setAccounted, Journal.setHandle, Journal.rsvBlocks, reservedCredits, hr, hacc]
  | some =>
    obtain ⟨rfl, hstr, hresr, haccr⟩ := hi.rsv_active hact hr
    have hkr := hi.ok (h + 1)
    have hpos := (hkr.accounted haccr).1
    refine hi.two (h := h) (x := { j.handles h with
        stage := st, hTransaction := none, hBufferCredits := n })
      (y := { j.handles (h + 1) with accounted := false }) ?_ rfl
      (by simp [hst]) (by simp [hst]) (by simp [hstr])
      ⟨by simp [hna.1], by simp [hacc], by simp [hres, hna.2.1], by simp [hres],
        by simp [hna.2.2], ?_⟩
      ⟨hkr.attached, by simp, ?_, hkr.noRsv, hkr.started, by simp [hkr.noRsv hresr]⟩ ?_
    · simp [Journal.setAccounted, Journal.setHandle]
    · intro r' hr' _
      have hr' : (j.handles h).hRsvHandle = some r' := hr'
      rw [hr, Option.some.injEq] at hr'
      exact ⟨hr'.symm, hstr, hresr, hpos, by simp [hna.2.2]⟩
    · simp [hstr, joining]
    · simp [Journal.setAccounted, Journal.setHandle, Journal.rsvBlocks, reservedCredits, hr,
        hacc, haccr]

theorem HandlesInv.handleStep {a : HandleAct} (hs : j.handleStep a = some j') : HandlesInv j' := by
  cases Journal.handleStep_move hs with
  | same => exact hi
  | start n r => exact hi.journalStart n r
  | @fail _ h _ hst hres =>
    have hk := hi.ok h
    have hacc := hk.not_accounted hres
    have hne : (j.handles h).stage ≠ .owned ∧ (j.handles h).stage ≠ .unused ∧
        (j.handles h).stage ≠ .attached := by rcases hst with hst | hst <;> simp [hst]
    exact hi.one rfl rfl hne.1 hne.2.1
      (hk.retire hacc (hk.noTransaction hne.2.2) rfl rfl (by simp) rfl rfl)
      (by simp [Journal.setHandle, reservedCredits, hacc])
  | @need h _ hst =>
    exact hi.one rfl rfl (by simp [hst]) (by simp [hst])
      ((hi.ok h).rejoin (by simp [hst, joining]) rfl) rfl
  | @joinReserved h t _ hst _ _ hres =>
    have hk := hi.ok h
    have hacc := hk.reserved (.inr ⟨hres, by simp [hst, joining]⟩)
    refine hi.one (h := h) (x := { j.handles h with
      stage := .attached, hTransaction := some t, hReserved := false, accounted := false })
      ?_ rfl (by simp [hst]) (by simp [hst]) (.attach rfl rfl rfl rfl ?_) ?_
    · simp [Journal.attachHandle, Journal.setAccounted, Journal.setHandle, Journal.setTx]
    · simp [hk.noRsv hres]
    · simp [Journal.attachHandle, Journal.setAccounted, Journal.setHandle, Journal.setTx,
        reservedCredits, hacc]
  | join hst _ _ hres => exact hi.join hst hres
  | ref _ hst | credit _ _ hst | extend hst => exact hi.attached rfl rfl hst rfl
  | @stop h _ hst =>
    have hk := hi.ok h
    have hact : (j.handles h).stage.active = true := by simp [hst, active]
    have hacc := hk.active_accounted hact
    refine hi.one (h := h) (x := { j.handles h with
        stage := if (j.handles h).hRsvHandle = none then .stopped else .stopping
        hTransaction := none }) rfl rfl (by simp [hst]) (by simp [hst]) ?_
      (by simp [Journal.setHandle, Journal.leaveTransaction, Journal.setTx,
        reservedCredits, hacc])
    cases hr : (j.handles h).hRsvHandle with
    | none => exact hk.retire hacc rfl rfl rfl (by simp) rfl rfl
    | some =>
      refine ⟨by simp, by simp [hacc], by simp [joining], by simp [hk.started hact],
        fun _ => hk.started hact, fun r' hr' _ => ?_⟩
      obtain ⟨h1, h2, h3, h4, h5⟩ := hk.rsv r' hr' (.inr hact)
      exact ⟨h1, h2, h3, h4, by simp [h5, hst, active]⟩
  | @stopRelease h _ hst hr =>
    have hk := hi.ok h
    have hact : (j.handles h).stage.active = true := by simp [hst, active]
    have hacc := hk.active_accounted hact
    obtain ⟨rfl, hstr, -, haccr⟩ := hi.rsv_active hact hr
    refine hi.two (h := h) (x := { j.handles h with stage := .stopped })
      (y := { j.handles (h + 1) with stage := .stopped, accounted := false }) ?_ rfl
      (by simp [hst]) (by simp [hst]) (by simp [hstr]) ?_
      ((hi.ok (h + 1)).released (by simp [hstr])) ?_
    · simp [Journal.releaseReserved, Journal.setHandle]
    · exact hk.retire hacc (hk.noTransaction (by simp [hst])) rfl rfl (by simp) rfl rfl
    · simp [Journal.releaseReserved, Journal.setHandle, reservedCredits, hacc, haccr]
  | restart hst _ _ hnew => exact hi.restart hst hnew
  | @takeReserved h _ hst hr =>
    have hact : (j.handles h).stage.active = true := by simp [hst, active]
    have hk := hi.ok h
    have hkr := hi.ok (h + 1)
    obtain ⟨rfl, hstr, hresr, haccr⟩ := hi.rsv_active hact hr
    refine hi.two (h := h) (x := { j.handles h with hRsvHandle := none })
      (y := { j.handles (h + 1) with stage := .reserved }) ?_ rfl
      (by simp [hst]) (by simp [hst]) (by simp [hstr])
      ⟨hk.attached, hk.accounted, hk.reserved, by simp, hk.started, by simp⟩
      ⟨?_, fun _ => ⟨(hkr.accounted haccr).1, hresr, .inr (.inl rfl)⟩, fun _ => haccr,
        hkr.noRsv, by simp [active], by simp [hkr.noRsv hresr]⟩ ?_
    · simp [Journal.setHandle]
    · simp [hkr.noTransaction (by simp [hstr])]
    · simp [Journal.setHandle, reservedCredits]
  | @startReserved h hst =>
    have hk := hi.ok h
    have hacc := hk.reserved (.inl hst)
    obtain ⟨hpos, hres, -⟩ := hk.accounted hacc
    refine hi.one rfl rfl (by simp [hst]) (by simp [hst])
      ⟨?_, fun _ => ⟨hpos, hres, .inr (.inr rfl)⟩, fun _ => hacc, hk.noRsv, ?_, ?_⟩ rfl
    · simp [hk.noTransaction (by simp [hst])]
    · simp [active]
    · simp [hk.noRsv hres]
  | @freeReserved h hst =>
    refine hi.one rfl rfl (by simp [hst]) (by simp [hst])
      ((hi.ok h).released (by simp [hst])) ?_
    simp [Journal.releaseReserved, Journal.setHandle, reservedCredits,
      (hi.ok h).reserved (.inl hst)]

/-- Every step keeps the handles and their reservations in order. -/
theorem HandlesInv.step {a : Act} (hs : j.step a = some j') : HandlesInv j' := by
  cases hc : a.isClient with
  | false =>
    have h := Journal.step_clients hs hc
    exact hi.same (congrArg Clients.handles h) (congrArg Clients.nextHandle h)
      (congrArg Clients.reserved h)
  | true =>
    cases a with
    | handle => exact hi.handleStep hs
    | getTransaction => exact hi.startGetTransaction hs
    | barrier =>
      obtain ⟨n, m, bs, k, rfl⟩ := Journal.barrierStep_frame hs
      exact hi.same rfl rfl rfl
    | _ => cases hc

theorem HandlesInv.none_accounted (hzero : j.jReservedCredits = 0) (h : ℕ) :
    (j.handles h).accounted = false := by
  by_contra hacc
  have hacc : (j.handles h).accounted = true := by simpa using hacc
  have hpos := ((hi.ok h).accounted hacc).1
  have hlt : h < j.nextHandle := hi.lt (by
    intro hst
    simpa [hst, joining] using ((hi.ok h).accounted hacc).2.2)
  have hall := (total_eq_zero_iff fun x => by
    unfold reservedCredits
    split_ifs <;> omega).mp (hi.reserved.symm.trans hzero) h hlt
  simp [reservedCredits, hacc] at hall
  omega

end

end VMsep.Jbd2
