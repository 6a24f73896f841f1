import VMsep.Jbd2.SoundStep

/-! What a step that is not the commit's own work can do to a buffer of the transaction that is
being committed, and that every step keeps the whole invariant of the buffers. -/

namespace VMsep.Jbd2

open Lib Function Jbd2.System BufferHead

def SysAct.commitWork : SysAct → Bool
  | .refileReserved | .deferUnfile | .write _ | .writeCopy _ | .waitIo | .forgetBuffer => true
  | _ => false

/-- What another thread may do to buffer `b` of the committing transaction in a step `a`: claim
it, with a copy of its contents if they are still to be written, and once it is claimed modify
it, retag it and give it up. -/
structure BufferHead.Foreign (a : SysAct) (b : ℕ) (x x' : BufferHead) : Prop where
  tx : x'.jh.bTransaction = x.jh.bTransaction
  jlist : x'.jh.bJlist = x.jh.bJlist
  jbddirty : x.jbddirty = true → x'.jbddirty = true
  shadow : x'.shadow = x.shadow ∨ ∃ i, a = .ioDone i
  data : x'.bData = x.bData ∨ x.jh.bNextTransaction ≠ none
  frozen : x'.jh.bFrozenData = x.jh.bFrozenData ∨
    x.jh.bFrozenData = none ∧ x.jh.bJlist = .metadata ∧ x'.bData = x.bData ∧
      x'.jh.bFrozenData = some x.bData
  next : x'.jh.bNextTransaction ≠ none → x.jh.bNextTransaction ≠ none ∨
    x'.jh.bFrozenData ≠ none ∨ x.jh.bJlist ≠ .metadata ∧ x.shadow = false
  ino : x'.jh.ino = x.jh.ino ∨ x.jh.bNextTransaction ≠ none ∧ x.jh.bModified = false ∧
    ∃ h, a = .dirty h b x'.jh.ino

namespace BufferHead.Foreign

variable {a : SysAct} {b : ℕ} {x x' : BufferHead}

theorem of_eq (htx : x'.jh.bTransaction = x.jh.bTransaction) (hl : x'.jh.bJlist = x.jh.bJlist)
    (hj : x'.jbddirty = x.jbddirty) (hs : x'.shadow = x.shadow) (hd : x'.bData = x.bData)
    (hf : x'.jh.bFrozenData = x.jh.bFrozenData)
    (hn : x'.jh.bNextTransaction = x.jh.bNextTransaction ∨ x'.jh.bNextTransaction = none)
    (hi : x'.jh.ino = x.jh.ino) : x.Foreign a b x' where
  tx := htx
  jlist := hl
  jbddirty := fun h => hj.trans h
  shadow := .inl hs
  data := .inl hd
  frozen := .inl hf
  next := fun h => .inl fun h0 => by
    rcases hn with hn | hn <;> rw [hn] at h
    · exact h h0
    · exact h rfl
  ino := .inl hi

theorem refl (x : BufferHead) : x.Foreign a b x :=
  of_eq rfl rfl rfl rfl rfl rfl (.inl rfl) rfl

section

variable {k k' : JournalHead} (hk : x.bPrivate = some k)

include hk

theorem of_head (htx : k'.bTransaction = k.bTransaction) (hl : k'.bJlist = k.bJlist)
    (hf : k'.bFrozenData = k.bFrozenData)
    (hn : k'.bNextTransaction = k.bNextTransaction ∨ k'.bNextTransaction = none)
    (hi : k'.ino = k.ino) : x.Foreign a b { x with bPrivate := some k' } := by
  obtain rfl := jh_eq hk
  exact of_eq htx hl rfl rfl rfl hf hn hi

/-- The buffer is claimed; if it is still to be written, with a copy. -/
theorem claim {f : Option Content} {t : ℕ}
    (hf : k.bFrozenData ≠ none ∧ f = k.bFrozenData ∨ k.bFrozenData = none ∧ x.shadow = false ∧
      f = if k.bJlist = .metadata then some x.bData else none) :
    x.Foreign a b { x with
      bPrivate := some { k with
        bModified := false
        bFrozenData := f
        bNextTransaction := some t } } := by
  obtain rfl := jh_eq hk
  refine ⟨rfl, rfl, id, .inl rfl, .inl rfl, ?_, ?_, .inl rfl⟩
  · rcases hf with ⟨-, rfl⟩ | ⟨hf, -, rfl⟩
    · exact .inl rfl
    by_cases hl : x.jh.bJlist = .metadata
    · exact .inr ⟨hf, hl, rfl, if_pos hl⟩
    · exact .inl ((if_neg hl).trans hf.symm)
  · rcases hf with ⟨hf, rfl⟩ | ⟨-, hs, rfl⟩
    · exact fun _ => .inr (.inl hf)
    by_cases hl : x.jh.bJlist = .metadata
    · refine fun _ => .inr (.inl ?_)
      change (if x.jh.bJlist = .metadata then some x.bData else none) ≠ none
      rw [if_pos hl]
      simp
    · exact fun _ => .inr (.inr ⟨hl, hs⟩)

/-- The buffer, which is claimed, is reported for another inode. -/
theorem retag {h t ino : ℕ} (hn : k.bNextTransaction = some t) (hmod : k.bModified = false) :
    x.Foreign (.dirty h b ino) b { x with
      jbddirty := true
      bPrivate := some { k with bModified := true, ino := ino } } := by
  obtain rfl := jh_eq hk
  exact ⟨rfl, rfl, fun _ => rfl, .inl rfl, .inl rfl, .inl rfl, fun h => .inl h,
    .inr ⟨by simp [hn], hmod, h, rfl⟩⟩

end

theorem of_released {k : JournalHead} {p : Option JournalHead} (hk : x.jh.bTransaction ≠ none)
    (hp : k.Released p) (htx : k.bTransaction = x.jh.bTransaction)
    (hl : k.bJlist = x.jh.bJlist) (hf : k.bFrozenData = x.jh.bFrozenData)
    (hn : k.bNextTransaction = x.jh.bNextTransaction) (hi : k.ino = x.jh.ino) :
    x.Foreign a b { x with bPrivate := p } := by
  rcases hp with rfl | ⟨-, h0, -⟩
  · exact of_eq htx hl rfl rfl rfl hf (.inl hn) hi
  · exact absurd (htx.symm.trans h0) hk

end BufferHead.Foreign

namespace System

variable {s s' : System} {a : SysAct}

theorem after_m (s : System) (c : Act) : (s.after c).m = s.m := by
  obtain ⟨log, sub, h⟩ := after_frame s c
  rw [h]

/-- Other threads leave the buffers of the committing transaction on their lists, and claim them
before they change them. -/
theorem Live.foreign (hi : Sound s) (hab : s.j.jAborted = false) (h : s.Live a s')
    (hbusy : s.j.phase.busy = true) (hno : ∀ h, s.txOf h ≠ some s.commitTx)
    (ha : a.commitWork = false) {c : ℕ} (hc : (s.m.bufs c).jh.bTransaction = some s.commitTx) :
    (s.m.bufs c).Foreign a c (s'.m.bufs c) := by
  -- the step stores one buffer; if it is another one there is nothing to show
  have stored : ∀ {b : ℕ} {x : BufferHead} {m' : Memory}, s.m.Stores b x m' →
      ((s.m.bufs b).jh.bTransaction = some s.commitTx → (s.m.bufs b).Foreign a b x) →
      (s.m.bufs c).Foreign a c (m'.bufs c) := by
    intro b x m' hm hx
    by_cases hcb : c = b
    · subst hcb
      rw [hm.self]
      exact hx hc
    · rw [hm.of_ne hcb]
      exact .refl _
  have own : ∀ {h t : ℕ} {k : JournalHead}, s.txOf h = some t → k.bTransaction = some t →
      k.bTransaction ≠ some s.commitTx := by
    intro h t k ht hk hT
    exact hno h (ht.trans (hk.symm.trans hT))
  cases h with
  | @proto d =>
    change (s.m.bufs c).Foreign _ c ((s.after d).m.bufs c)
    rw [after_m]
    exact .refl _
  | accessGranted | accessCancel | revokeFails | revoke | revokeInsert | cpFlushClean | discard
  | cpQueue | forgetBare | clearRevoked | switchRevoke | writeRevokes => exact .refl _
  | unreserve | deferUnfile | write | writeNeedsCopy | writeCopy | waitIo | forgetRelease
  | forgetRefile => cases ha
  | accessBegin _ _ _ hm | writeHome _ _ hm =>
    exact stored hm fun _ => .of_eq rfl rfl rfl rfl rfl rfl (.inl rfl) rfl
  | accessFile _ _ hk htx _ hm =>
    refine stored hm fun hT => ?_
    rw [jh_eq hk, htx] at hT
    cases hT
  | accessClaim _ _ hk _ _ _ _ hf hm => exact stored hm fun _ => .claim hk hf
  | accessRetry _ _ hk _ _ _ _ hm =>
    exact stored hm fun _ => .of_head hk rfl rfl rfl (.inl rfl) rfl
  | accessPut _ hk hp hm =>
    refine stored hm fun hT => ?_
    have hjh := jh_eq hk
    exact .of_released (by simp [hT]) hp (by rw [hjh]) (by rw [hjh]) (by rw [hjh]) (by rw [hjh])
      (by rw [hjh])
  | modify ht hk hacc hm =>
    refine stored hm fun hT => ?_
    have hjh := jh_eq hk
    rw [hjh] at hT
    have hn := hacc.resolve_left fun h => own ht h hT
    refine ⟨rfl, rfl, id, .inl rfl, .inr ?_, .inl rfl, fun h => .inl h, .inl rfl⟩
    rw [hjh, hn]
    simp
  | dirty ht hk hacc _ hcases hm =>
    refine stored hm fun hT => ?_
    rw [jh_eq hk] at hT
    have hn := hacc.resolve_left fun h => own ht h hT
    rcases hcases with ⟨rfl, rfl, -, -⟩ | ⟨rfl, hmod, -, rfl⟩ | ⟨-, -, htx, -⟩
    · exact .of_head hk rfl rfl rfl (.inl rfl) rfl
    · exact .retag hk hn hmod
    · exact absurd hT (own ht htx)
  | @dirtyFails _ b _ _ _ _ _ _ _ hp hm =>
    refine stored hm fun hT => ?_
    cases hk : (s.m.bufs b).bPrivate with
    | none =>
      rw [jh, hk] at hT
      cases hT
    | some =>
      rcases hp with rfl | rfl
      · exact .refl _
      · rw [hk]
        exact .of_head hk rfl rfl rfl (.inl rfl) rfl
  | forgetOwn _ ht _ hk htx _ hm | forgetUnfile _ ht _ hk htx _ _ _ hm =>
    refine stored hm fun hT => ?_
    rw [jh_eq hk] at hT
    exact absurd hT (own ht htx)
  | forgetOther _ _ _ hk _ _ hm =>
    exact stored hm fun _ => .of_head hk rfl rfl rfl (.inr rfl) rfl
  | deferFile _ hk htx hm =>
    refine stored hm fun hT => ?_
    rw [jh_eq hk] at hT
    have hlt := (hi.quiet.pointers.order (s := s.j.spine) hbusy).1
    rcases htx with htx | htx <;> rw [htx] at hT
    · cases hT
    · exact absurd (Option.some.inj hT) (ne_of_gt hlt)
  | ioDone _ _ _ hm =>
    exact stored hm fun _ => ⟨rfl, rfl, id, .inr ⟨_, rfl⟩, .inl rfl, .inl rfl, fun h => .inl h,
      .inl rfl⟩
  | uncheckpoint _ hk _ hp hm =>
    refine stored hm fun hT => ?_
    have hjh := jh_eq hk
    rcases hp with rfl | hp
    · exact .of_head hk rfl rfl rfl (.inl rfl) rfl
    · exact .of_released (by simp [hT]) hp (by rw [hjh]) (by rw [hjh]) (by rw [hjh]) (by rw [hjh])
        (by rw [hjh])
  | getblk hcache hm =>
    refine stored hm fun hT => ?_
    have := (hi.placed hab).cached _ (.inl fun h0 => by rw [jh, h0] at hT; cases hT)
    rw [hcache] at this
    cases this

/-- No buffer joins a transaction that is being committed and has no update left. -/
theorem Live.enters (hi : Sound s) (hab : s.j.jAborted = false) (h : s.Live a s')
    (hbusy : s.j.phase.busy = true) (hno : ∀ h, s.txOf h ≠ some s.commitTx) {c : ℕ}
    (hc : (s'.m.bufs c).jh.bTransaction = some s.commitTx) :
    (s.m.bufs c).jh.bTransaction = some s.commitTx := by
  have stored : ∀ {b : ℕ} {x : BufferHead} {m' : Memory}, s.m.Stores b x m' →
      (x.jh.bTransaction = some s.commitTx → (s.m.bufs b).jh.bTransaction = some s.commitTx) →
      (m'.bufs c).jh.bTransaction = some s.commitTx →
      (s.m.bufs c).jh.bTransaction = some s.commitTx := by
    intro b x m' hm hx
    exact hm.forall_of (P := fun b x => x.jh.bTransaction = some s.commitTx →
      (s.m.bufs b).jh.bTransaction = some s.commitTx) hx (fun _ h => h) c
  have same : ∀ {b : ℕ} {x : BufferHead} {k : JournalHead} {u : Option ℕ} {m' : Memory},
      s.m.Stores b x m' → (s.m.bufs b).bPrivate = some k → x.jh.bTransaction = u →
      u = k.bTransaction ∨ u ≠ some s.commitTx →
      (m'.bufs c).jh.bTransaction = some s.commitTx →
      (s.m.bufs c).jh.bTransaction = some s.commitTx := by
    intro b x k u m' hm hk hx hu
    refine stored hm fun h => ?_
    rw [jh_eq hk]
    rcases hu with hu | hu
    · rw [← hu, ← hx, h]
    · exact absurd (hx.symm.trans h) hu
  cases h with
  | @proto d =>
    change ((s.after d).m.bufs c).jh.bTransaction = _ at hc
    rwa [after_m] at hc
  | accessGranted | accessCancel | revokeFails | revoke | revokeInsert | cpFlushClean | discard
  | cpQueue | forgetBare | clearRevoked | switchRevoke | writeRevokes | writeNeedsCopy => exact hc
  | accessFile _ ht hk _ _ hm =>
    exact same hm hk rfl (.inr fun h => hno _ (ht.trans h)) hc
  | accessPut _ hk hp hm => exact same hm hk hp.tx (.inl rfl) hc
  | dirty _ hk _ _ hcases hm =>
    refine same hm hk rfl (.inl ?_) hc
    rcases hcases with ⟨-, rfl, -⟩ | ⟨-, -, -, rfl⟩ | ⟨-, -, -, -, rfl⟩ <;> rfl
  | @dirtyFails h b _ _ _ _ _ _ _ hp hm =>
    refine stored hm (fun h => ?_) hc
    rcases hp with rfl | rfl
    · exact h
    cases hk : (s.m.bufs b).bPrivate with
    | none =>
      rw [hk] at h
      cases h
    | some =>
      rw [hk] at h
      rw [jh_eq hk]
      exact h
  | forgetUnfile _ _ _ hk _ _ _ hp hm | unreserve hk _ _ _ _ _ hp hm
  | deferUnfile hk _ _ _ _ _ _ _ _ hp hm | forgetRelease hk _ _ _ _ _ hp hm =>
    exact same hm hk hp.tx (.inr (by simp)) hc
  | deferFile _ hk _ hm =>
    have hlt := (hi.quiet.pointers.order (s := s.j.spine) hbusy).1
    exact same hm hk rfl (.inr fun h => absurd (Option.some.inj h) (ne_of_gt hlt)) hc
  | accessClaim _ _ hk _ _ _ _ _ hm | accessRetry _ _ hk _ _ _ _ hm | forgetOwn _ _ _ hk _ _ hm
  | forgetOther _ _ _ hk _ _ hm | write hk _ _ _ _ _ _ _ _ _ hm | writeCopy hk _ _ _ _ hm
  | waitIo hk _ _ _ _ _ hm => exact same hm hk rfl (.inl rfl) hc
  | @forgetRefile b _ r _ _ _ hk _ _ _ hn _ hm =>
    have hne := ((((hi.placed hab).ok b).of hk).next r hn).2.2
    exact same hm hk rfl (.inr fun h => hne (Option.some.inj h)) hc
  | accessBegin _ _ _ hm | modify _ _ _ hm | ioDone _ _ _ hm | writeHome _ _ hm =>
    exact stored hm (fun h => h) hc
  | uncheckpoint _ hk _ hp hm =>
    rcases hp with rfl | hp
    · exact same hm hk rfl (.inl rfl) hc
    · exact same hm hk hp.tx (.inl rfl) hc
  | getblk _ hm =>
    refine stored hm (fun h => ?_) hc
    cases h

theorem Live.stores (hp : Placed s) (h : s.Live a s') :
    (s'.m.bufs = s.m.bufs ∧ (s.m.Filed → s'.m.Filed)) ∨
      ∃ b x, s.m.Stores b x s'.m ∧ (x.bPrivate ≠ none ∨ x.dirty = true →
        s.rv.cached b = true ∨ s'.rv.cached b = true) := by
  have head : ∀ {b : ℕ} {k : JournalHead}, (s.m.bufs b).bPrivate = some k →
      s.rv.cached b = true :=
    fun hk => hp.cached _ (.inl (by simp [hk]))
  cases h with
  | @proto c =>
    left
    change (s.after c).m.bufs = _ ∧ (_ → (s.after c).m.Filed)
    rw [after_m]
    exact ⟨rfl, id⟩
  | accessGranted | accessCancel | revokeFails | revoke | revokeInsert | cpFlushClean | discard
  | forgetBare | clearRevoked | switchRevoke | writeRevokes | writeNeedsCopy =>
    exact .inl ⟨rfl, id⟩
  | cpQueue => exact .inl ⟨rfl, fun hf => ⟨hf.listed, hf.nr⟩⟩
  | accessBegin _ ht hcache hm => exact .inr ⟨_, _, hm, fun _ => .inl hcache⟩
  | accessFile _ ht hk htx _ hm | accessClaim _ ht hk htx hne hph hn hf hm
  | accessRetry ht hop hk htx hne hph hn hm | accessPut ht hk hp hm | modify ht hk hacc hm
  | dirty _ hk _ _ _ hm | forgetOwn _ _ _ hk _ _ hm | forgetUnfile _ _ _ hk _ _ _ _ hm
  | forgetOther _ _ _ hk _ _ hm | unreserve hk _ _ _ _ _ _ hm
  | deferUnfile hk _ _ _ _ _ _ _ _ _ hm | deferFile _ hk _ hm | write hk _ _ _ _ _ _ _ _ _ hm
  | writeCopy hk _ _ _ _ hm | waitIo hk _ _ _ _ _ hm | forgetRelease hk _ _ _ _ _ _ hm
  | forgetRefile hk _ _ _ _ _ hm | uncheckpoint _ hk _ _ hm =>
    exact .inr ⟨_, _, hm, fun _ => .inl (head hk)⟩
  | dirtyFails _ _ hfail hm =>
    refine .inr ⟨_, _, hm, fun h => .inl (hp.cached _ (h.imp (fun h => ?_) id))⟩
    rcases hfail with rfl | rfl
    · exact h
    · exact fun h0 => h (by simp [h0])
  | ioDone hl hcom hio hm => exact .inr ⟨_, _, hm, fun h => .inl (hp.cached _ h)⟩
  | writeHome ha hd hm => exact .inr ⟨_, _, hm, fun _ => .inl (hp.cached _ (.inr hd))⟩
  | getblk hnc hm => exact .inr ⟨_, _, hm, fun _ => .inr (update_self ..)⟩

theorem Live.filed (hp : Placed s) (h : s.Live a s') : s'.m.Filed := by
  rcases h.stores hp with ⟨-, hf⟩ | ⟨b, x, hm, -⟩
  · exact hf hp.filed
  · exact hm.filed hp.filed

@[simp]
theorem cached_cancelRevoke (r : Revoke) (b : ℕ) : (r.cancelRevoke b).cached = r.cached := by
  simp only [Revoke.cancelRevoke]
  split_ifs <;> rfl

theorem Live.still_cached (h : s.Live a s') (c : ℕ) (hc : s.rv.cached c = true)
    (hs : (s'.m.bufs c).bPrivate ≠ none ∨ (s'.m.bufs c).dirty = true) : s'.rv.cached c = true := by
  cases h with
  | @proto d =>
    obtain ⟨log, sub, heq⟩ := after_frame s d
    rw [heq]
    exact hc
  | accessCancel =>
    change (s.rv.cancelRevoke _).cached c = true
    rwa [cached_cancelRevoke]
  | @revoke _ _ _ rv' hrv =>
    simp only [Revoke.markRevoked] at hrv
    split_ifs at hrv <;> cases hrv <;> exact hc
  | @getblk b =>
    change update s.rv.cached b true c = true
    by_cases hcb : c = b
    · rw [hcb, update_self]
    · rwa [update_of_ne hcb]
  | @discard b hnone hd =>
    have hcb : c ≠ b := by
      rintro rfl
      simp [hnone, hd] at hs
    change update s.rv.cached b false c = true
    rwa [update_of_ne hcb]
  | _ => exact hc

theorem Live.cached (hp : Placed s) (h : s.Live a s') (c : ℕ)
    (hc : (s'.m.bufs c).bPrivate ≠ none ∨ (s'.m.bufs c).dirty = true) : s'.rv.cached c = true := by
  have hkept : s.rv.cached c = true ∨ s'.rv.cached c = true := by
    rcases h.stores hp with ⟨hb, -⟩ | ⟨b, x, hm, hx⟩
    · exact .inl (hp.cached c (hb ▸ hc))
    · exact hm.forall_of (P := fun b x => x.bPrivate ≠ none ∨ x.dirty = true →
        s.rv.cached b = true ∨ s'.rv.cached b = true) hx (fun b hb => .inl (hp.cached b hb)) c hc
  exact hkept.elim (fun h0 => h.still_cached c h0 hc) id

theorem Live.deferring (hp : Placed s) (hok : subOk s.j.phase s.sub = true) (h : s.Live a s')
    (b : ℕ) (l : Jlist) (hb : s'.sub = .deferring b l) : l = .metadata := by
  cases h with
  | @proto c _ hready hj =>
    by_cases hc : ∃ d, c = .commit d
    · obtain ⟨d, rfl⟩ := hc
      exact absurd ((sub_after_commit hok hready hj).symm.trans hb) (by simp)
    · rw [after_of_not_commit fun d hd => hc ⟨d, hd⟩] at hb
      exact hp.deferring b l hb
  | deferUnfile =>
    cases hb
    rfl
  | clearRevoked | switchRevoke | writeRevokes | deferFile | writeNeedsCopy | writeCopy => cases hb
  | _ => exact hp.deferring b l hb

theorem Live.copying (hi : Sound s) (hab : s.j.jAborted = false) (h : s.Live a s') (b : ℕ)
    (hb : s'.sub = .copying b) : (s'.m.bufs b).place = some (s'.commitTx, .metadata) := by
  have hp := hi.placed hab
  -- another thread takes a step while the buffer is being copied
  have foreign : s.sub = .copying b → a.commitWork = false → s'.commitTx = s.commitTx →
      (s'.m.bufs b).place = some (s'.commitTx, .metadata) := by
    intro hsub ha hct
    obtain ⟨htx, hl, -⟩ := place_eq_some_iff.mp (hp.copying b hsub)
    have hq : s.j.phase.quiet = true := by
      have hok := hi.sub
      rw [hsub] at hok
      cases hph : s.j.phase <;> rw [hph] at hok <;> first | rfl | cases hok
    have hfor := h.foreign hi hab (CommitPhase.quiet_busy hq)
      (fun i ht => txOf_ne hi.quiet ht hq rfl) ha htx
    rw [hct]
    exact place_eq_some_iff.mpr
      ⟨hfor.tx.trans htx, hfor.jlist.trans hl, (by simp)⟩
  cases h with
  | @proto c _ hready hj =>
    by_cases hc : ∃ d, c = .commit d
    · obtain ⟨d, rfl⟩ := hc
      exact absurd ((sub_after_commit hi.sub hready hj).symm.trans hb) (by simp)
    have hc' : ∀ d, c ≠ .commit d := fun d hd => hc ⟨d, hd⟩
    rw [after_of_not_commit hc'] at hb
    exact foreign hb rfl (Journal.step_phase hj hc').2.1
  | writeNeedsCopy hk _ _ _ _ htx hl _ _ _ hj =>
    obtain ⟨hcr, tcr, cps, rfl⟩ := hj.frame
    cases hb
    exact place_eq_some_iff.mpr
      ⟨by rw [jh_eq hk]; exact htx, by rw [jh_eq hk]; exact hl, (by simp)⟩
  | clearRevoked | switchRevoke | writeRevokes | deferFile | deferUnfile | writeCopy => cases hb
  | unreserve _ _ hsub | write _ _ hsub => exact absurd (hsub.symm.trans hb) (by simp)
  | waitIo _ hph | forgetRelease _ hph | forgetRefile _ hph =>
    have hok := hi.sub
    rw [hph, show s.sub = .copying b from hb] at hok
    cases hok
  | dirty _ _ _ hj | dirtyFails _ hj | forgetBare ha _ hj | forgetOwn ha _ hj
  | forgetUnfile ha _ hj | forgetOther ha _ hj | uncheckpoint ha _ hj =>
    obtain ⟨hcr, tcr, cps, rfl⟩ := hj.frame
    refine foreign hb ?_ rfl
    first | rfl | (rcases ha with rfl | rfl <;> rfl) | (rcases ha with rfl | ⟨rfl, -⟩ <;> rfl)
  | writeHome ha | accessBegin ha =>
    refine foreign hb ?_ rfl
    rcases ha with rfl | rfl <;> rfl
  | accessGranted ha | accessFile ha | accessClaim ha =>
    refine foreign hb ?_ rfl
    rcases ha with ⟨_, rfl, -⟩ | ⟨rfl, -⟩ <;> rfl
  | _ => exact foreign hb rfl rfl

end System

/-- A step that defers no claimed buffer keeps the system sound. -/
theorem Sound.step {s s' : System} {a : SysAct} (hi : Sound s) (hun : s.DefersUnclaimed a)
    (hs : s.step a = some s') : Sound s' where
  quiet := quietInv_step hs hi.quiet
  sub := subOk_step hs hi.sub
  placed := fun hab' => by
    have hab := not_aborted_of_step hs hab'
    have hlive := live_cases hi hun hs hab hab'
    have hp := hi.placed hab
    exact ⟨hlive.filed hp, hlive.cached hp, hlive.ok hi hab, hlive.deferring hp hi.sub,
      hlive.copying hi hab⟩

theorem sound_reset (cfg : Config) (disk : ℕ → BitVec 32 × List (BitVec 8)) :
    Sound (reset cfg disk) where
  quiet := quietInv_reset cfg
  sub := rfl
  placed := fun _ =>
    { filed := ⟨⟨fun _ _ => iff_of_false List.not_mem_nil nofun, fun _ => List.nodup_nil⟩,
        fun _ => rfl⟩
      cached := fun _ h => by simp [reset, BufferHead.read] at h
      ok := fun _ => .of_unfiled rfl rfl rfl rfl rfl rfl
      deferring := nofun
      copying := nofun }

end VMsep.Jbd2
