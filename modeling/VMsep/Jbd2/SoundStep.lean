import VMsep.Jbd2.Live

/-! The invariant `Sound` is preserved by every step that defers no claimed and no frozen buffer. -/

namespace VMsep.Jbd2

open Lib

namespace JournalHead.Ok

variable {ph ph' : CommitPhase} {sub sub' : CommitSub} {T T' : ℕ} {d j sh : Bool}
  {k : JournalHead}

theorem advance (h : k.Ok ph sub T d j sh) (hcom : ph.committing = true → ph'.committing = true)
    (hstage : ph'.busy = true → k.bTransaction = some T → ph'.holds sub' k.bJlist = true) :
    k.Ok ph' sub' T d j sh where
  unfiled := h.unfiled
  filed := h.filed
  next := fun r hr => ⟨(h.next r hr).1, hcom (h.next r hr).2.1, (h.next r hr).2.2⟩
  frozen := fun hf => ⟨(h.frozen hf).1, hcom (h.frozen hf).2⟩
  shadow := fun hs => ⟨(h.shadow hs).1, (h.shadow hs).2.1, hcom (h.shadow hs).2.2⟩
  stage := hstage

theorem of_plain (h : k.Ok ph sub T d j sh)
    (hp : k.bNextTransaction = none ∧ k.bFrozenData = none ∧ sh = false ∧ k.bJlist ≠ .shadow)
    (hstage : ph'.busy = true → k.bTransaction = some T' → ph'.holds sub' k.bJlist = true) :
    k.Ok ph' sub' T' d j sh where
  unfiled := h.unfiled
  filed := h.filed
  next := fun r hr => absurd (hp.1.symm.trans hr) nofun
  frozen := fun h => absurd hp.2.1 h
  shadow := by
    rintro (h | h)
    · exact absurd (hp.2.2.1.symm.trans h) (by simp)
    · exact absurd h hp.2.2.2
  stage := hstage

theorem shadowed (h : k.Ok ph sub T d j sh) (hph : ph = .logging) (htx : k.bTransaction = some T)
    (f : Option Content) :
    JournalHead.Ok ph sub' T d j true { k with bFrozenData := f, bJlist := .shadow } := by
  subst hph
  exact ⟨fun h0 => absurd (htx.symm.trans h0) (by simp), fun _ =>
    ⟨by simp, h.clean (by simp [htx])⟩, h.next, fun _ => ⟨htx, rfl⟩,
    fun _ => ⟨htx, rfl, rfl⟩, fun _ _ => rfl⟩

theorem plain_of_not_committing (h : k.Ok ph sub T d j sh) (hph : ph.committing = false) :
    k.bNextTransaction = none ∧ k.bFrozenData = none ∧ sh = false ∧ k.bJlist ≠ .shadow := by
  have hsh : ¬ (sh = true ∨ k.bJlist = .shadow) := fun hs =>
    absurd ((h.shadow hs).2.2.symm.trans hph) (by simp)
  exact ⟨h.next_none hph, h.frozen_none hph, by simpa using fun hs => hsh (.inl hs),
    fun hl => hsh (.inr hl)⟩

theorem tx_ne_of_forgotten (h : k.Ok .forgetting sub T d j sh)
    (hl : k.bTransaction = some T → k.bJlist ≠ .forget) : k.bTransaction ≠ some T := by
  intro ht
  have hhold := h.stage rfl ht
  have hne := hl ht
  have hfiled := (h.filed (by simp [ht])).1
  cases hjl : k.bJlist with
  | none => exact hfiled hjl
  | forget => exact hne hjl
  | metadata | shadow | reserved =>
    rw [hjl] at hhold
    cases hhold

theorem commit {c : CommitAct} (h : k.Ok c.source sub T d j sh)
    (hph : ph' = c.target ∨ c = .lockDown ∧ ph' = .waitUpdates) (hcredit : c ≠ .credit)
    (hT : c ≠ .allocNew → T' = T) (hswitch : c = .switchTransaction → sub = .revokeSwitched)
    (hempty : k.bTransaction = some T →
      (c = .getTail → k.bJlist ≠ .metadata) ∧ (c = .setJflush → k.bJlist ≠ .shadow) ∧
        (c = .finish → k.bJlist ≠ .forget)) : k.Ok ph' .idle T' d j sh := by
  cases c with
  | credit => exact absurd rfl hcredit
  | kjournald | destroy | restoreSuperblock | callback =>
    obtain rfl := hph.resolve_right (by simp)
    exact h.of_plain (h.plain_of_not_committing rfl) fun hb => absurd hb Bool.false_ne_true
  | allocNew =>
    obtain rfl := hph.resolve_right (by simp)
    have hp := h.plain_of_not_committing rfl
    refine h.of_plain hp fun _ _ => ?_
    cases hjl : k.bJlist with
    | shadow => exact absurd hjl hp.2.2.2
    | _ => rfl
  | finish =>
    obtain rfl := hph.resolve_right (by simp)
    obtain rfl := hT (by simp)
    have hne := h.tx_ne_of_forgotten fun ht => (hempty ht).2.2 rfl
    exact h.of_plain (h.plain hne) fun _ ht => absurd ht hne
  | lockDown =>
    obtain rfl := hT (by simp)
    rcases hph with rfl | ⟨-, rfl⟩
    all_goals
      refine h.advance (by intros; contradiction) fun _ ht => ?_
      have hl := h.stage rfl ht
      cases hjl : k.bJlist <;> rw [hjl] at hl <;> first | rfl | cases hl
  | wakeUpdates | setCommit | install | record | updateTail =>
    obtain rfl := hph.resolve_right (by simp)
    obtain rfl := hT (by simp)
    refine h.advance (fun _ => by first | rfl | contradiction) fun _ ht => ?_
    have hl := h.stage rfl ht
    cases hjl : k.bJlist <;> rw [hjl] at hl <;> first | rfl | cases hl
  | switchTransaction =>
    obtain rfl := hph.resolve_right (by simp)
    obtain rfl := hT (by simp)
    obtain rfl := hswitch rfl
    refine h.advance (fun _ => rfl) fun _ ht => ?_
    have hl := h.stage rfl ht
    cases hjl : k.bJlist <;> rw [hjl] at hl <;> first | rfl | cases hl
  | getTail =>
    obtain rfl := hph.resolve_right (by simp)
    obtain rfl := hT (by simp)
    refine h.advance (fun _ => rfl) fun _ ht => ?_
    have hl := h.stage rfl ht
    cases hjl : k.bJlist with
    | metadata => exact absurd hjl ((hempty ht).1 rfl)
    | reserved => rw [hjl] at hl; cases hl
    | none | shadow | forget => rfl
  | setJflush =>
    obtain rfl := hph.resolve_right (by simp)
    obtain rfl := hT (by simp)
    refine h.advance (fun _ => rfl) fun _ ht => ?_
    have hl := h.stage rfl ht
    cases hjl : k.bJlist with
    | shadow => exact absurd hjl ((hempty ht).2.1 rfl)
    | metadata | reserved => rw [hjl] at hl; cases hl
    | none | forget => rfl

end JournalHead.Ok

namespace System

variable {s s' : System} {a : SysAct}

theorem not_aborted_of_step (hs : s.step a = some s') (hab : s'.j.jAborted = false) :
    s.j.jAborted = false := by
  by_contra hne
  have : s'.j.jAborted = true :=
    step_preserves (I := fun j => j.jAborted = true)
      (fun j c j' h hj => (Journal.step_spine hj).aborted h) hs (by simpa using hne)
  rw [this] at hab
  cases hab

theorem ok_after {c : Act} {j' : Journal} (hi : Sound s) (hab : s.j.jAborted = false)
    (hready : s.ready c = true) (hj : s.j.step c = some j') (b : ℕ) :
    (s.m.bufs b).Ok j'.phase (s.after c).sub j'.commitTransaction := by
  have hok := (hi.placed hab).ok b
  by_cases hc : ∃ d, c = .commit d
  · obtain ⟨d, rfl⟩ := hc
    rw [sub_after_commit hi.sub hready hj]
    have hsp := Journal.commitStep_spine hj
    have hlist : ∀ l, l ≠ .none → s.m.lists (s.commitTx, l) = [] →
        (s.m.bufs b).jh.bTransaction = some s.commitTx → (s.m.bufs b).jh.bJlist ≠ l := by
      intro l hl hnil ht hjl
      have := (hi.placed hab).filed.mem_iff.mpr (BufferHead.place_eq_some_iff.mpr ⟨ht, hjl, hl⟩)
      rw [hnil] at this
      cases this
    have hsrc : s.j.phase = d.source := hsp.phases.1
    rw [hsrc] at hok
    refine JournalHead.Ok.commit hok hsp.phases.2 ?_ ?_ ?_ ?_
    · rintro rfl
      cases hready
    · exact fun hne => ((Spine.Step.commit hsp).commitTx_eq (by simpa using hne)).1
    · rintro rfl
      exact of_decide_eq_true hready
    · refine fun ht => ⟨?_, ?_, ?_⟩ <;> rintro rfl
      · exact hlist _ (by simp) (of_decide_eq_true hready).2 ht
      · exact hlist _ (by simp) (of_decide_eq_true hready) ht
      · exact hlist _ (by simp) (of_decide_eq_true hready) ht
  · have hc' : ∀ d, c ≠ .commit d := fun d hd => hc ⟨d, hd⟩
    obtain ⟨hph, hct, -⟩ := Journal.step_phase hj hc'
    rw [after_of_not_commit hc', hph, hct]
    exact hok

theorem calm_phase {j' : Journal} (h : s.j.Calm j') :
    j'.phase = s.j.phase ∧ j'.commitTransaction = s.commitTx := by
  obtain ⟨hcr, tcr, cps, rfl⟩ := h.frame
  exact ⟨rfl, rfl⟩

theorem ok_put {b : ℕ} {x : BufferHead} (hok : ∀ c, (s.m.bufs c).Ok s.j.phase s.sub s.commitTx)
    (hm : s.m.Stores b x s'.m) (hj : s.j.Calm s'.j)
    (hsub : s'.sub = s.sub ∨ s.j.phase ≠ .switching) (hx : x.Ok s.j.phase s'.sub s.commitTx) :
    ∀ c, (s'.m.bufs c).Ok s'.j.phase s'.sub s'.commitTx := by
  obtain ⟨hph, hct⟩ := calm_phase hj
  have hct : s'.commitTx = s.commitTx := hct
  rw [hph, hct]
  refine hm.forall_of (P := fun _ x => x.Ok _ _ _) hx fun c => ?_
  rcases hsub with hsub | hph
  · rw [hsub]
    exact hok c
  · exact (hok c).change_sub hph

theorem ok_clearRevoked (hi : Sound s) (hab : s.j.jAborted = false)
    (hph : s.j.phase = .switching) (hl : s.m.lists (s.commitTx, .reserved) = []) (c : ℕ) :
    (s.m.bufs c).Ok s.j.phase .revokeCleared s.commitTx := by
  have hok := (hi.placed hab).ok c
  refine hok.advance id fun hb ht => ?_
  have hhold := hok.stage hb ht
  rw [hph] at hhold ⊢
  cases hjl : (s.m.bufs c).jh.bJlist with
  | reserved =>
    have hmem := (hi.placed hab).filed.mem_iff.mpr
      (BufferHead.place_eq_some_iff.mpr ⟨ht, hjl, (by simp)⟩)
    rw [hl] at hmem
    cases hmem
  | shadow => rw [hjl] at hhold; cases hhold
  | none | metadata | forget => rfl

theorem running_ne_of_deferring (hi : Sound s) {b : ℕ} {l : Jlist} (hsub : s.sub = .deferring b l) :
    s.j.phase = .logging ∧ s.j.runningTransaction ≠ s.commitTx := by
  have hph : s.j.phase = .logging := by
    have := hi.sub
    rw [hsub] at this
    cases hph : s.j.phase <;> rw [hph] at this <;> first | rfl | cases this
  refine ⟨hph, ne_of_gt (hi.quiet.pointers.order (s := s.j.spine) ?_).1⟩
  change s.j.phase.busy = true
  rw [hph]
  rfl

/-- Every step keeps the buffers in order. -/
theorem Live.ok (hi : Sound s) (hab : s.j.jAborted = false) (h : s.Live a s') :
    ∀ c, (s'.m.bufs c).Ok s'.j.phase s'.sub s'.commitTx := by
  have hok := (hi.placed hab).ok
  cases h with
  | @proto c _ hready hj =>
    obtain ⟨log, sub, heq⟩ := after_frame s c
    have := ok_after hi hab hready hj
    rw [heq] at this ⊢
    exact this
  | @accessBegin _ h b _ _ _ _ _ _ hm =>
    have h := hok b
    exact ok_put hok hm .same (.inl rfl) { h with }
  | accessGranted | accessCancel | revokeFails | revoke | revokeInsert | cpFlushClean | discard
  | cpQueue => exact hok
  | @accessFile _ _ b _ _ _ _ _ _ ht hk htx _ hm =>
    obtain ⟨-, hn, hf, -, hs⟩ := ((hok b).of hk).unfiled htx
    exact ok_put hok hm .same (.inl rfl)
      (.of_filed rfl (txOf_ne hi.quiet ht) (.inl rfl) hn hf rfl hs)
  | @accessClaim _ h b _ _ _ _ _ _ _ hk htx hne hph _ _ hm =>
    have h := (hok b).of hk
    refine ok_put hok hm .same (.inl rfl) ?_
    exact ⟨fun h0 => absurd (htx.symm.trans h0) (by simp), h.filed,
      fun r hr => ⟨htx, hph, by cases hr; exact hne⟩, fun _ => ⟨htx, hph⟩, h.shadow, h.stage⟩
  | @accessRetry h b _ _ _ _ _ _ _ hk _ _ _ _ hm =>
    have h := (hok b).of hk
    exact ok_put hok hm .same (.inl rfl) { h with }
  | @accessPut _ b _ _ _ _ _ hk hp hm =>
    exact ok_put hok hm .same (.inl rfl) (.release hp ((hok b).of hk))
  | @modify _ b _ _ _ _ _ _ _ _ hm => exact ok_put hok hm .same (.inl rfl) (hok b)
  | @dirty h b _ _ _ _ _ _ _ ht hk hacc hj hcases hm =>
    have h := (hok b).of hk
    refine ok_put hok hm hj (.inl rfl) ?_
    rcases hcases with ⟨rfl, rfl, -, -⟩ | ⟨rfl, -, htx, rfl⟩ | ⟨rfl, -, htx, -, rfl⟩
    · exact { h with }
    · have hT := (h.next _ (hacc.resolve_left htx)).1
      exact { h with unfiled := fun h0 => absurd (hT.symm.trans h0) (by simp) }
    · obtain ⟨hn, hf, hs, -⟩ := h.own htx (txOf_ne hi.quiet ht)
      exact .of_filed htx (txOf_ne hi.quiet ht) (.inr (.inl rfl)) hn hf (h.clean (by simp [htx])) hs
  | @dirtyFails h b _ _ _ _ _ _ hj hp hm =>
    refine ok_put hok hm hj (.inl rfl) ?_
    have h := hok b
    rcases hp with rfl | rfl
    · exact h
    cases hk : (s.m.bufs b).bPrivate with
    | none =>
      rw [BufferHead.Ok, BufferHead.jh, hk] at h
      exact h
    | some =>
      have h := h.of hk
      exact { h with }
  | forgetBare _ _ hj =>
    obtain ⟨hcr, tcr, cps, rfl⟩ := hj.frame
    exact hok
  | @forgetOwn _ b _ _ _ _ _ _ _ ht hj hk htx _ hm =>
    obtain ⟨hn, hf, hs, -⟩ := ((hok b).of hk).own htx (txOf_ne hi.quiet ht)
    exact ok_put hok hm hj (.inl rfl)
      (.of_filed htx (txOf_ne hi.quiet ht) (.inr (.inr rfl)) hn hf rfl hs)
  | @forgetUnfile _ b _ _ _ _ _ _ _ _ ht hj hk htx hf _ hp hm =>
    obtain ⟨hn, -, hs, -⟩ := ((hok b).of hk).own htx (txOf_ne hi.quiet ht)
    exact ok_put hok hm hj (.inl rfl) (.release hp (.of_unfiled rfl rfl hn hf rfl hs))
  | @forgetOther h b _ _ _ _ _ _ _ _ hj hk _ _ hm =>
    have h := (hok b).of hk
    refine ok_put hok hm hj (.inl rfl) ?_
    refine ⟨fun h0 => ?_, h.filed, (by intros; contradiction), h.frozen, h.shadow, h.stage⟩
    obtain ⟨h1, -, h3⟩ := h.unfiled h0
    exact ⟨h1, rfl, h3⟩
  | @unreserve b _ _ _ hk hph _ _ _ hn hp hm =>
    obtain ⟨-, hf, hs, -⟩ := ((hok b).of hk).plain_of_not_committing (by rw [hph]; rfl)
    exact ok_put hok hm .same (.inl rfl) (.release hp (.of_unfiled rfl rfl hn hf rfl hs))
  | clearRevoked hph _ hl =>
    have h := ok_clearRevoked hi hab hph hl
    exact h
  | switchRevoke hph hsub =>
    intro c
    refine (hok c).advance id fun hb ht => ?_
    have hhold := (hok c).stage hb ht
    rw [hph, hsub] at hhold
    rw [hph]
    cases hjl : (s.m.bufs c).jh.bJlist <;> rw [hjl] at hhold <;> first | rfl | cases hhold
  | writeRevokes hph hsub => exact fun c => (hok c).change_sub (by simp [hph])
  | @deferUnfile b _ _ _ hk hph _ _ _ _ hl hn hf hp hm =>
    have hs := ((hok b).of hk).shadow_false (by simp [hl])
    exact ok_put hok hm .same (.inr (by simp [hph]))
      (.release hp (.of_unfiled rfl rfl hn hf rfl hs))
  | @deferFile b _ _ _ hsub hk htx hm =>
    obtain ⟨hph, hne⟩ := running_ne_of_deferring hi hsub
    obtain ⟨hn, hf, hs, -⟩ := ((hok b).of hk).plain (by
      rcases htx with htx | htx <;> rw [htx]
      · simp
      · simpa using hne)
    exact ok_put hok hm .same (.inr (by simp [hph]))
      (.of_filed rfl (fun _ => hne) (.inr (.inl rfl)) hn hf rfl hs)
  | @write b _ f _ _ _ _ hk hph _ _ _ htx _ _ _ hj hm =>
    exact ok_put hok hm hj (.inl rfl) (((hok b).of hk).shadowed hph htx f)
  | writeNeedsCopy _ hph _ _ _ _ _ _ _ _ hj =>
    obtain ⟨hcr, tcr, cps, rfl⟩ := hj.frame
    exact fun c => (hok c).change_sub (by simp [hph])
  | @writeCopy b _ _ _ hk hph _ htx _ hm =>
    exact ok_put hok hm .same (.inr (by simp [hph])) (((hok b).of hk).shadowed hph htx _)
  | @waitIo b _ _ hk hph htx _ _ hsh hm =>
    have h := (hok b).of hk
    refine ok_put hok hm .same (.inl rfl) ?_
    refine ⟨fun h0 => absurd (htx.symm.trans h0) (by simp),
      fun _ => ⟨fun h0 => (by cases h0), h.clean (by simp [htx])⟩, h.next, h.frozen, ?_,
      fun _ _ => ?_⟩
    · rintro (h0 | h0)
      · exact absurd (hsh.symm.trans h0) (by simp)
      · cases h0
    · rw [hph]
      rfl
  | @forgetRelease b _ _ _ _ _ hk _ _ hl hn hj hp hm =>
    have hs := ((hok b).of hk).shadow_false (by simp [hl])
    exact ok_put hok hm hj (.inl rfl) (.release hp (.of_unfiled rfl rfl hn rfl rfl hs))
  | @forgetRefile b _ r k _ _ hk _ htx hl hn hj hm =>
    have h := (hok b).of hk
    refine ok_put hok hm hj (.inl rfl) (.of_filed rfl (fun _ => (h.next r hn).2.2) ?_ rfl rfl
      (h.clean (by simp [htx])) (h.shadow_false (by simp [hl])))
    cases k.bModified
    · exact .inl rfl
    · exact .inr (.inl rfl)
  | @ioDone _ l _ _ _ _ hm =>
    have h := hok l.blocknr
    refine ok_put hok hm .same (.inl rfl) ?_
    refine { h with unfiled := fun h0 => ?_, shadow := fun h0 => ?_ }
    · obtain ⟨h1, h2, h3, h4, -⟩ := h.unfiled h0
      exact ⟨h1, h2, h3, h4, rfl⟩
    · exact h.shadow (.inr (h0.resolve_left (by simp)))
  | @writeHome b _ _ _ _ _ hm =>
    have h := hok b
    exact ok_put hok hm .same (.inl rfl) { h with filed := fun h0 => ⟨(h.filed h0).1, rfl⟩ }
  | @uncheckpoint b _ _ _ _ _ _ hk hj hp hm =>
    have h := (hok b).of hk
    refine ok_put hok hm hj (.inl rfl) ?_
    rcases hp with rfl | hp
    · exact h
    · exact .release hp { h with }
  | getblk _ hm =>
    exact ok_put hok hm .same (.inl rfl) (.of_unfiled rfl rfl rfl rfl rfl rfl)

end System

end VMsep.Jbd2
