import VMsep.Jbd2.Foreign
import VMsep.Jbd2.RevokeCommit

/-! A buffer with modifications whose transaction has no commit record yet is not dirty, in every
run in which the commit defers no buffer and handles neither forget nor take over what belongs to a
transaction that is not committed. -/

namespace VMsep.Jbd2

open Lib Function BufferHead Jbd2.System Option

namespace System

def WriteAhead (s : System) : Prop :=
  ∀ b, (s.m.bufs b).dirty = true → ∀ p ∈ (s.m.bufs b).bData.hist, p.2 ∈ s.j.commitRecords

/-- Transaction `u` has its commit record, or gets it no later than transaction `t`. -/
def InTurn (s : System) (t u : ℕ) : Prop :=
  u ∈ s.j.commitRecords ∨ u = t ∨ s.j.phase.busy = true ∧ u = s.commitTx

/-- The handle does not forget a buffer of another transaction that its own has modified. -/
def ForgetSafe (s : System) (h b : ℕ) : Prop :=
  match s.txOf h with
  | none => True
  | some t => (s.m.bufs b).jh.bTransaction ≠ some t → ∀ p ∈ (s.m.bufs b).bData.hist, p.2 ≠ t

def WriteAheadSafe (s : System) : SysAct → Prop
  | .deferUnfile => False
  | .accessLock h | .createLock h =>
    match s.txOf h, s.ops h with
    | some t, .access b _ | some t, .create b =>
      (s.m.bufs b).jh.bTransaction = none → ∀ p ∈ (s.m.bufs b).bData.hist, s.InTurn t p.2
    | _, _ => True
  | .forget h b => s.ForgetSafe h b
  | .revokeForget h =>
    match s.ops h with
    | .revoking b _ => s.ForgetSafe h b
    | _ => True
  | _ => True

instance (s : System) (t u : ℕ) : Decidable (s.InTurn t u) := by
  unfold InTurn
  infer_instance

instance (s : System) (h b : ℕ) : Decidable (s.ForgetSafe h b) :=
  decidable_of_iff (∀ t ∈ s.txOf h, (s.m.bufs b).jh.bTransaction ≠ some t →
    ∀ p ∈ (s.m.bufs b).bData.hist, p.2 ≠ t) (by cases ht : s.txOf h <;> simp [ForgetSafe, ht])

instance (s : System) : ∀ a, Decidable (s.WriteAheadSafe a)
  | .deferUnfile => .isFalse id
  | .accessLock h | .createLock h =>
    match ht : s.txOf h, ho : s.ops h with
    | some t, .access b _ | some t, .create b =>
      decidable_of_iff ((s.m.bufs b).jh.bTransaction = none →
        ∀ p ∈ (s.m.bufs b).bData.hist, s.InTurn t p.2) (by simp [WriteAheadSafe, ht, ho])
    | none, _ | some _, .idle | some _, .cancel _ | some _, .put _ | some _, .revoking .. =>
      .isTrue (by simp [WriteAheadSafe, ht, ho])
  | .forget h b => inferInstanceAs (Decidable (s.ForgetSafe h b))
  | .revokeForget h =>
    match ho : s.ops h with
    | .revoking b _ => decidable_of_iff (s.ForgetSafe h b) (by simp [WriteAheadSafe, ho])
    | .idle | .access .. | .create _ | .cancel _ | .put _ => .isTrue (by simp [WriteAheadSafe, ho])
  | .proto .. | .accessBegin .. | .createBegin .. | .accessCancel .. | .accessPut ..
  | .modify .. | .dirty .. | .revoke .. | .revokeInsert .. | .refileReserved | .clearRevoked
  | .switchRevoke | .writeRevokes | .deferFile | .releaseAborted | .write .. | .writeCopy ..
  | .copyFailed | .waitIo | .forgetBuffer | .ioDone .. | .writeback .. | .tryToFree .. | .cpQueue
  | .cpFlush | .cpIoRemove | .getblk .. | .discard .. => .isTrue trivial

variable {s s' : System} {a : SysAct}

theorem WriteAheadSafe.defersUnclaimed (h : s.WriteAheadSafe a) : s.DefersUnclaimed a := by
  cases a with
  | deferUnfile => exact absurd h id
  | _ => trivial

/-- A handle of transaction `t` has modified block `b` and still has to report it. -/
def Unreported (s : System) (t b : ℕ) : Prop := ∃ i, s.j.att i = some t ∧ b ∈ s.unmarked i

end System

/-- Where the modifications of buffer `b` go. -/
structure AheadOk (s : System) (b : ℕ) (x : BufferHead) : Prop where
  dirty : x.dirty = true → ∀ p ∈ x.bData.hist, p.2 ∈ s.j.commitRecords
  owned : ∀ t, x.jh.bTransaction = some t → ∀ p ∈ x.bData.hist,
    s.InTurn t p.2 ∨ x.jh.bNextTransaction = some p.2
  reserved : ∀ t, x.jh.bTransaction = some t → x.jh.bJlist = .reserved → x.jbddirty = true →
    ∀ p ∈ x.bData.hist, p.2 ∈ s.j.commitRecords ∨ s.Unreported t b
  claimed : ∀ r, x.jh.bNextTransaction = some r → x.jh.bModified = false →
    ∀ p ∈ x.bData.hist, p.2 ∈ s.j.commitRecords ∨ p.2 = s.commitTx ∨ s.Unreported r b

structure Ahead (s : System) : Prop where
  sub : ∀ b l, s.sub ≠ .deferring b l
  bufs : ∀ b, AheadOk s b (s.m.bufs b)

namespace AheadOk

variable {s s' : System} {b : ℕ} {x : BufferHead} {x' : BufferHead}

theorem frame (h : AheadOk s b x) (hrec : s.j.commitRecords ⊆ s'.j.commitRecords)
    (hturn : ∀ t u, s.InTurn t u → s'.InTurn t u) (hunr : ∀ t, s.Unreported t b → s'.Unreported t b)
    (hct : x.jh.bNextTransaction ≠ none → s'.commitTx = s.commitTx) : AheadOk s' b x where
  dirty := fun hd p hp => hrec (h.dirty hd p hp)
  owned := fun t ht p hp => (h.owned t ht p hp).imp (hturn t p.2) id
  reserved := fun t ht hl hj p hp => (h.reserved t ht hl hj p hp).imp (@hrec _) (hunr t)
  claimed := fun r hr hm p hp =>
    (h.claimed r hr hm p hp).imp (@hrec _)
      (Or.imp (fun hu => hu.trans (hct (by simp [hr])).symm) (hunr r))

theorem of_unfiled (ht : x.jh.bTransaction = none) (hn : x.jh.bNextTransaction = none)
    (hd : x.dirty = true → ∀ p ∈ x.bData.hist, p.2 ∈ s.j.commitRecords) : AheadOk s b x where
  dirty := hd
  owned := fun _ h => absurd (ht.symm.trans h) nofun
  reserved := fun _ h => absurd (ht.symm.trans h) nofun
  claimed := fun _ h => absurd (hn.symm.trans h) nofun

theorem of {p : Option JournalHead} (h : AheadOk s b x) (hk : x.bPrivate = p) :
    AheadOk s b { x with bPrivate := p } := by
  rw [← hk]
  exact h

theorem congr (h : AheadOk s b x) (hd : x'.dirty = true → x.dirty = true)
    (hdata : x'.bData = x.bData) (htx : x'.jh.bTransaction = x.jh.bTransaction)
    (hn : x'.jh.bNextTransaction = x.jh.bNextTransaction)
    (hl : x'.jh.bJlist = .reserved → x.jh.bJlist = .reserved ∧ x'.jbddirty = x.jbddirty)
    (hm : x'.jh.bModified = false → x.jh.bNextTransaction ≠ none → x.jh.bModified = false) :
    AheadOk s b x' where
  dirty := fun h' => by
    rw [hdata]
    exact h.dirty (hd h')
  owned := fun t => by
    rw [hdata, htx, hn]
    exact h.owned t
  reserved := fun t ht hres => by
    obtain ⟨hr, hj⟩ := hl hres
    rw [hdata, hj]
    exact h.reserved t (htx ▸ ht) hr
  claimed := fun r hr hmod => by
    rw [hn] at hr
    rw [hdata]
    exact h.claimed r hr (hm hmod (by simp [hr]))

end AheadOk

namespace System

variable {s s' : System} {a : SysAct} {j' : Journal} {t u b c : ℕ} {x : BufferHead}

theorem InTurn.calm (hj : s.j.Calm j') (h : s.InTurn t u) :
    ({ s with j := j' } : System).InTurn t u := by
  obtain ⟨hcr, tcr, cps, rfl⟩ := hj.frame
  exact h

theorem Unreported.mono (h : s.Unreported t b) (hatt : s'.j.att = s.j.att)
    (hun : ∀ i, b ∈ s.unmarked i → b ∈ s'.unmarked i) : s'.Unreported t b := by
  obtain ⟨i, hi, hb⟩ := h
  exact ⟨i, hatt ▸ hi, hun i hb⟩

theorem mem_unmarked_filter {h i : ℕ} (hc : c ≠ b) (hm : c ∈ s.unmarked i) :
    c ∈ update s.unmarked h ((s.unmarked h).filter (· ≠ b)) i := by
  by_cases hih : i = h
  · subst hih
    rw [update_self]
    exact List.mem_filter.mpr ⟨hm, by simpa using hc⟩
  · rwa [update_of_ne hih]

theorem ahead_after {c : Act} (hi : Sound s) (hab : s.j.jAborted = false)
    (hready : s.ready c = true) (hj : s.j.step c = some j') (hx : x.Ok s.j.phase s.sub s.commitTx)
    (h : AheadOk s b x) : AheadOk { s.after c with j := j' } b x := by
  obtain ⟨log, sub, hafter⟩ := after_frame s c
  rw [hafter]
  have hsp := Journal.step_spine hj
  have hrec : s.j.commitRecords ⊆ j'.commitRecords := hsp.records_subset
  refine h.frame hrec ?_ ?_ ?_
  · rintro t u (hu | hu | ⟨hb, rfl⟩)
    · exact .inl (hrec hu)
    · exact .inr (.inl hu)
    · rcases hsp.committed hi.quiet.recorded hab hb with ⟨hct, hbusy⟩ | hu
      · exact .inr (.inr ⟨hbusy, hct.symm⟩)
      · exact .inl hu
  · -- a handle leaves its transaction only when it has reported everything
    rintro t ⟨i, hatt, hmem⟩
    refine ⟨i, hi.quiet.att_kept hj hatt ?_ ?_, hmem⟩
    · rintro rfl
      obtain ⟨-, hnil | href | hab'⟩ := of_decide_eq_true hready
      · rw [hnil] at hmem
        cases hmem
      · exact href
      · exact absurd (hab.symm.trans hab') (by simp)
    · rintro n rfl
      obtain ⟨-, hnil | hab'⟩ := of_decide_eq_true hready
      · rw [hnil] at hmem
        cases hmem
      · exact hab'
  · -- a claimed buffer exists only during a commit, which keeps its transaction
    intro hn
    obtain ⟨r, hr⟩ := ne_none_iff_exists'.mp hn
    exact Journal.commitTransaction_eq hj
      (CommitPhase.quiet_busy (CommitPhase.quiet_of_committing (hx.next r hr).2.1))

theorem ahead_keep (h : AheadOk s c x) (hj : s.j.Calm s'.j)
    (hun : ∀ i, c ∈ s.unmarked i → c ∈ s'.unmarked i) : AheadOk s' c x := by
  obtain ⟨hcr, tcr, cps, heq⟩ := hj.frame
  have hrec : s'.j.commitRecords = s.j.commitRecords := by rw [heq]
  have hct : s'.commitTx = s.commitTx := by rw [commitTx, heq]; rfl
  have hph : s'.j.phase = s.j.phase := by rw [heq]
  have hatt : s'.j.att = s.j.att := by rw [heq]; rfl
  refine h.frame (by rw [hrec]; exact List.Subset.refl _) ?_ (fun t ht => ht.mono hatt hun)
    fun _ => hct
  intro t u hu
  rw [InTurn, hrec, hph, hct]
  exact hu

theorem ahead_store (hah : Ahead s) (hm : s.m.Stores b x s'.m) (hj : s.j.Calm s'.j)
    (hun : ∀ c, c ≠ b → ∀ i, c ∈ s.unmarked i → c ∈ s'.unmarked i) (hb : AheadOk s' b x) :
    ∀ c, AheadOk s' c (s'.m.bufs c) :=
  hm.forall_of_ne (P := fun c x => AheadOk s' c x) hb
    fun c hc => ahead_keep (hah.bufs c) hj (hun c hc)

theorem ahead_put (hah : Ahead s) (hm : s.m.Stores b x s'.m) (hj : s.j.Calm s'.j)
    (hun : s'.unmarked = s.unmarked) (hb : AheadOk s b x) : ∀ c, AheadOk s' c (s'.m.bufs c) :=
  ahead_store hah hm hj (fun _ _ i h => by rwa [hun]) (ahead_keep hb hj fun i h => by rwa [hun])

theorem ahead_released {k k' : JournalHead} {p : Option JournalHead} (hah : Ahead s)
    (hk : (s.m.bufs b).bPrivate = some k) (hp : k'.Released p)
    (htx : k'.bTransaction = k.bTransaction) (hn : k'.bNextTransaction = k.bNextTransaction)
    (hl : k'.bJlist = k.bJlist) (hmod : k'.bModified = k.bModified) :
    AheadOk s b { s.m.bufs b with bPrivate := p } := by
  obtain ⟨h1, h2, -, h4⟩ := jh_released (x := s.m.bufs b) hp
  refine ((hah.bufs b).of hk).congr id rfl (h1.trans htx) (h2.trans hn)
    (fun h => ⟨(h4.trans hl).symm.trans h, rfl⟩) ?_
  rcases hp with rfl | ⟨-, -, hnone, -⟩
  · exact fun h _ => hmod.symm.trans h
  · exact fun _ hne => absurd (hn.symm.trans hnone) hne

theorem InTurn.recorded (hi : Sound s) (hab : s.j.jAborted = false)
    (hph : s.j.phase.pastRecord = true) (h : s.InTurn s.commitTx u) : u ∈ s.j.commitRecords := by
  have hT : s.commitTx ∈ s.j.commitRecords := hi.quiet.recorded hab hph
  rcases h with h | rfl | ⟨-, rfl⟩
  · exact h
  · exact hT
  · exact hT

section

variable {h : ℕ} {k : JournalHead} {m' : Memory} (hi : Sound s) (hab : s.j.jAborted = false)
  (hah : Ahead s) (hk : (s.m.bufs b).bPrivate = some k)

include hi hab hah hk

/-- The handle that modifies a buffer has not reported it yet. -/
theorem ahead_modify (ht : s.txOf h = some t)
    (hacc : k.bTransaction = some t ∨ k.bNextTransaction = some t) {d : Content}
    (hd : d.hist = (h, t) :: (s.m.bufs b).bData.hist) :
    AheadOk { s with m := m', unmarked := update s.unmarked h (b :: s.unmarked h) } b
      { s.m.bufs b with bData := d } := by
  have hjh := jh_eq hk
  have hok := ((hi.placed hab).ok b).of hk
  have hmem : b ∈ update s.unmarked h (b :: s.unmarked h) h := by
    rw [update_self]
    exact List.mem_cons_self
  refine ⟨fun hd => absurd (hd.symm.trans (hok.clean_of_access hacc)) (by simp), ?_, ?_, ?_⟩
  · intro u hu p hp
    rcases List.mem_cons.mp (hd ▸ hp) with rfl | hold
    · rcases hacc with hacc | hacc
      · have hu : k.bTransaction = some u := hjh ▸ hu
        cases hacc.symm.trans hu
        exact .inl (.inr (.inl rfl))
      · exact .inr ((congrArg _ hjh).trans hacc)
    · exact (hah.bufs b).owned u hu p hold
  · intro u hu hl _ p _
    have hu : k.bTransaction = some u := hjh ▸ hu
    have hl : k.bJlist = .reserved := hjh ▸ hl
    rcases hacc with hacc | hacc
    · cases hacc.symm.trans hu
      exact .inr ⟨h, att_of_txOf ht, hmem⟩
    · obtain ⟨htx, hph, -⟩ := hok.next t hacc
      exact absurd hl (hok.not_reserved htx hph)
  · intro r hr _ p _
    have hr : k.bNextTransaction = some r := hjh ▸ hr
    rcases hacc with hacc | hacc
    · obtain ⟨htx, hph, -⟩ := hok.next r hr
      have hne := txOf_ne hi.quiet ht (CommitPhase.quiet_of_committing hph)
      exact absurd (some.inj (hacc.symm.trans htx)) hne
    · cases hacc.symm.trans hr
      exact .inr (.inr ⟨h, att_of_txOf ht, hmem⟩)

/-- A buffer that is reported goes to a metadata list, or `b_modified` says that it will. -/
theorem ahead_dirty (hj : s.j.Calm s'.j)
    (hacc : k.bTransaction = some t ∨ k.bNextTransaction = some t) {k' : JournalHead} {jbd : Bool}
    (htx : k'.bTransaction = k.bTransaction) (hn : k'.bNextTransaction = k.bNextTransaction)
    (hmod : k'.bModified = true) (hl : k'.bJlist ≠ .reserved) :
    AheadOk s' b { s.m.bufs b with jbddirty := jbd, bPrivate := some k' } := by
  have hok := ((hi.placed hab).ok b).of hk
  refine ⟨fun hd => absurd (hd.symm.trans (hok.clean_of_access hacc)) (by simp),
    fun u hu p hmem => ?_, fun u _ hres => absurd hres hl,
    fun r _ h => absurd (hmod.symm.trans h) (by simp)⟩
  refine (((hah.bufs b).of hk).owned u (htx.symm.trans hu) p hmem).imp (fun h => ?_) hn.trans
  have hturn := h.calm hj
  exact hturn

omit hi hab in
/-- A handle that gives a buffer of another transaction up has not modified it. -/
theorem ahead_forget {ops' : ℕ → ClientOp} (hj : s.j.Calm j') (ht : s.txOf h = some t)
    (htx : k.bTransaction ≠ some t)
    (hn : k.bNextTransaction = none ∨ k.bNextTransaction = some t) (hsafe : s.ForgetSafe h b) :
    AheadOk { s with
        j := j', m := m', ops := ops'
        unmarked := update s.unmarked h ((s.unmarked h).filter (· ≠ b)) } b
      { s.m.bufs b with
        bPrivate := some { k with bModified := false, bNextTransaction := none } } := by
  simp only [ForgetSafe, ht, jh_eq hk] at hsafe
  obtain ⟨hcr, tcr, cps, rfl⟩ := hj.frame
  refine ⟨(hah.bufs b).dirty, fun u hu p hmem => .inl ?_, fun u hu hl hjbd p hmem => ?_,
    (by intros; contradiction)⟩
  · refine (((hah.bufs b).of hk).owned u hu p hmem).resolve_right fun h => ?_
    rcases hn with hn | hn
    · cases hn.symm.trans h
    · exact hsafe htx p hmem (some.inj (hn.symm.trans h)).symm
  · refine (((hah.bufs b).of hk).reserved u hu hl hjbd p hmem).imp id ?_
    rintro ⟨i, hatt, hmem'⟩
    refine ⟨i, hatt, ?_⟩
    have hne : i ≠ h := by
      rintro rfl
      exact htx (hu.trans (hatt.symm.trans (att_of_txOf ht)))
    change b ∈ update s.unmarked h _ i
    rwa [update_of_ne hne]

/-- A buffer that is filed again was claimed, and its transaction has its commit record. -/
theorem ahead_refile {r : ℕ} (hph : s.j.phase = .forgetting)
    (htx : k.bTransaction = some s.commitTx) (hn : k.bNextTransaction = some r) {k' : JournalHead}
    (hk' : k'.bTransaction = some r ∧ k'.bNextTransaction = none)
    (hl : k'.bJlist = .reserved → k.bModified = false) :
    AheadOk s b { s.m.bufs b with bPrivate := some k' } := by
  have hpast : s.j.phase.pastRecord = true := by rw [hph]; rfl
  have hT : s.commitTx ∈ s.j.commitRecords := hi.quiet.recorded hab hpast
  have hok := ((hi.placed hab).ok b).of hk
  refine ⟨fun hd => absurd (hd.symm.trans (hok.clean (by simp [htx]))) (by simp), ?_, ?_,
    fun u hu => absurd (hk'.2.symm.trans hu) nofun⟩
  · intro u hu p hmem
    cases hk'.1.symm.trans hu
    rcases ((hah.bufs b).of hk).owned _ htx p hmem with h | h
    · exact .inl (.inl (h.recorded hi hab hpast))
    · exact .inl (.inr (.inl (some.inj (hn.symm.trans h)).symm))
  · intro u hu hres _ p hmem
    cases hk'.1.symm.trans hu
    rcases ((hah.bufs b).of hk).claimed r hn (hl hres) p hmem with h | h | h
    · exact .inl h
    · exact .inl (h ▸ hT)
    · exact .inr h

end

/-- Every step that is safe keeps the modifications of the buffers in turn. -/
theorem Live.ahead (hi : Sound s) (hab : s.j.jAborted = false) (hsafe : s.WriteAheadSafe a)
    (h : s.Live a s') (hah : Ahead s) : ∀ c, AheadOk s' c (s'.m.bufs c) := by
  have hp := hi.placed hab
  have hbufs := hah.bufs
  cases h with
  | proto hready hj =>
    intro c
    have := ahead_after hi hab hready hj (hp.ok c) (hbufs c)
    rw [after_m]
    exact this
  | accessGranted | accessCancel | revokeFails | revoke | revokeInsert | cpFlushClean | discard
  | cpQueue | clearRevoked | switchRevoke | writeRevokes =>
    exact fun c => ahead_keep (hbufs c) .same fun _ h => h
  | writeNeedsCopy _ _ _ _ _ _ _ _ _ _ hj =>
    exact fun c => ahead_keep (hbufs c) hj fun _ h => h
  | deferUnfile => exact absurd hsafe id
  | deferFile hsub => exact absurd hsub (hah.sub _ _)
  | @accessBegin _ h b _ _ _ _ _ _ hm =>
    refine ahead_put hah hm .same rfl ?_
    exact (hbufs b).congr id rfl rfl rfl (fun h => ⟨h, rfl⟩) fun h _ => h
  | @accessFile _ _ b t k _ _ _ ha ht hk htx hjbd hm =>
    refine ahead_put hah hm .same rfl ?_
    have hjh := jh_eq hk
    have hn : k.bNextTransaction = none := (((hp.ok b).of hk).unfiled htx).2.1
    have hturn : ∀ p ∈ (s.m.bufs b).bData.hist, s.InTurn t p.2 := by
      rcases ha with ⟨_, rfl, hop⟩ | ⟨rfl, hop⟩ <;>
        simp only [WriteAheadSafe, ht, hop, hjh] at hsafe <;> exact hsafe htx
    refine ⟨(by simp), ?_, ?_, fun r hr => absurd (hn.symm.trans hr) (by simp)⟩
    · rintro u hu p hmem
      cases hu
      exact .inl (hturn p hmem)
    · intro u _ _ hd p hmem
      exact .inl ((hbufs b).dirty (hjbd hd) p hmem)
  | @accessClaim _ h b _ _ _ _ _ _ _ hk htx _ _ hn _ hm =>
    -- the modifications of a buffer without a claim are those of its own transaction
    refine ahead_put hah hm .same rfl ?_
    have h := (hbufs b).of hk
    have howned : ∀ p ∈ (s.m.bufs b).bData.hist, s.InTurn s.commitTx p.2 := fun p hmem =>
      (h.owned _ htx p hmem).resolve_right fun hr => absurd (hn.symm.trans hr) (by simp)
    refine ⟨h.dirty, ?_, h.reserved, ?_⟩
    · intro u hu p hmem
      cases htx.symm.trans hu
      exact .inl (howned p hmem)
    · intro r hr _ p hmem
      rcases howned p hmem with hp' | hp' | ⟨-, hp'⟩
      · exact .inl hp'
      · exact .inr (.inl hp')
      · exact .inr (.inl hp')
  | @accessRetry h b _ _ _ _ _ _ _ hk _ hne _ hn hm =>
    refine ahead_put hah hm .same rfl ?_
    exact ((hbufs b).of hk).congr id rfl rfl rfl (fun h => ⟨h, rfl⟩) fun _ hne => absurd hn hne
  | accessPut _ hk hrel hm =>
    exact ahead_put hah hm .same rfl (ahead_released hah hk hrel rfl rfl rfl rfl)
  | @modify h b t k _ _ _ ht hk hacc hm =>
    have hun : ∀ c i, c ∈ s.unmarked i → c ∈ update s.unmarked h (b :: s.unmarked h) i := by
      intro c i hc
      by_cases hih : i = h
      · subst hih
        rw [update_self]
        exact List.mem_cons_of_mem _ hc
      · rwa [update_of_ne hih]
    exact ahead_store hah hm .same (fun c _ i hc => hun c i hc)
      (ahead_modify hi hab hah hk ht hacc rfl)
  | @dirty h b t _ k k' _ _ _ _ hk hacc hj hcases hm =>
    have hok := (hp.ok b).of hk
    have hk' : k'.bTransaction = k.bTransaction ∧ k'.bNextTransaction = k.bNextTransaction ∧
        k'.bModified = true ∧ k'.bJlist ≠ .reserved := by
      rcases hcases with ⟨-, rfl, hl, -⟩ | ⟨-, -, htx, rfl⟩ | ⟨-, -, -, -, rfl⟩
      · refine ⟨rfl, rfl, rfl, ?_⟩
        rcases hacc with hacc | hacc
        · exact fun h => absurd ((hl hacc).symm.trans h) (by simp)
        · exact hok.not_reserved (hok.next t hacc).1 (hok.next t hacc).2.1
      · have hn := hok.next t (hacc.resolve_left htx)
        exact ⟨rfl, rfl, rfl, hok.not_reserved hn.1 hn.2.1⟩
      · exact ⟨rfl, rfl, rfl, (by simp)⟩
    obtain ⟨htx, hn, hmod, hl⟩ := hk'
    exact ahead_store hah hm hj (fun c hc i => mem_unmarked_filter hc)
      (ahead_dirty hi hab hah hk hj hacc htx hn hmod hl)
  | @dirtyFails h b _ _ _ _ _ _ hj hfail hm =>
    refine ahead_put hah hm hj rfl ?_
    rcases hfail with rfl | rfl
    · exact hbufs b
    cases hk : (s.m.bufs b).bPrivate with
    | none =>
      exact ((hbufs b).of hk).congr id rfl rfl rfl (fun h => ⟨h, rfl⟩) fun _ h => absurd rfl h
    | some =>
      exact ((hbufs b).of hk).congr id rfl rfl rfl (fun h => ⟨h, rfl⟩) fun h => (by cases h)
  | @forgetBare _ b _ _ _ _ _ _ hj hk =>
    intro c
    by_cases hcb : c = b
    · subst hcb
      have hjh : (s.m.bufs c).jh = .zero := by rw [jh, hk]; rfl
      refine .of_unfiled (by rw [hjh]; rfl) (by rw [hjh]; rfl) ?_
      obtain ⟨hcr, tcr, cps, rfl⟩ := hj.frame
      exact (hbufs c).dirty
    · exact ahead_keep (hbufs c) hj fun _ => mem_unmarked_filter hcb
  | @forgetOwn h b _ _ _ _ _ _ _ ht hj hk htx _ hm =>
    refine ahead_store hah hm hj (fun c hc i => mem_unmarked_filter hc) ?_
    have hn := (((hp.ok b).of hk).own htx (txOf_ne hi.quiet ht)).1
    refine ⟨(by simp), fun u hu p hmem => ?_, (by simp),
      fun r hr => absurd (hn.symm.trans hr) (by simp)⟩
    exact (((hbufs b).of hk).owned u hu p hmem).imp (fun h => h.calm hj) id
  | @forgetUnfile _ b _ _ _ _ _ _ _ _ ht hj hk htx _ _ hrel hm =>
    refine ahead_store hah hm hj (fun c hc i => mem_unmarked_filter hc) ?_
    have hn := (((hp.ok b).of hk).own htx (txOf_ne hi.quiet ht)).1
    obtain ⟨h1, h2, -, -⟩ := jh_released
      (x := { s.m.bufs b with dirty := false, jbddirty := false }) hrel
    exact .of_unfiled h1 (h2.trans hn) (by simp)
  | @forgetOther h b _ _ _ _ _ _ ha ht hj hk htx hn hm =>
    have hforget : s.ForgetSafe h b := by
      rcases ha with rfl | ⟨rfl, hop⟩
      · exact hsafe
      · simpa only [WriteAheadSafe, hop] using hsafe
    exact ahead_store hah hm hj (fun c hc i => mem_unmarked_filter hc)
      (ahead_forget hah hk hj ht htx hn hforget)
  | @unreserve b _ p _ hk hph _ htx hl hn hrel hm =>
    refine ahead_put hah hm .same rfl ?_
    obtain ⟨h1, h2, -, -⟩ := jh_released
      (x := { s.m.bufs b with dirty := (s.m.bufs b).jbddirty, jbddirty := false }) hrel
    refine .of_unfiled h1 (h2.trans hn) fun hd p hmem => ?_
    refine (((hbufs b).of hk).reserved _ htx hl hd p hmem).resolve_right ?_
    rintro ⟨i, hatt, -⟩
    exact hi.quiet.att_ne (by rw [hph]; rfl) hatt rfl
  | @write b _ _ _ _ _ _ hk _ _ _ _ _ _ _ _ hj hm =>
    refine ahead_put hah hm hj rfl ?_
    exact ((hbufs b).of hk).congr id rfl rfl rfl (by intro h; cases h) fun h _ => h
  | @writeCopy b _ _ _ hk _ _ _ _ hm | @waitIo b _ _ hk _ _ _ _ _ hm =>
    refine ahead_put hah hm .same rfl ?_
    exact ((hbufs b).of hk).congr id rfl rfl rfl (by intro h; cases h) fun h _ => h
  | @forgetRelease b _ _ p _ _ hk hph htx _ hn hj hrel hm =>
    refine ahead_put hah hm hj rfl ?_
    obtain ⟨h1, h2, -, -⟩ := jh_released
      (x := { s.m.bufs b with dirty := (s.m.bufs b).jbddirty, jbddirty := false }) hrel
    refine .of_unfiled h1 (h2.trans hn) fun _ p hmem => ?_
    have hturn := (((hbufs b).of hk).owned _ htx p hmem).resolve_right
      fun h => absurd (hn.symm.trans h) (by simp)
    exact hturn.recorded hi hab (by rw [hph]; rfl)
  | @forgetRefile b _ r k _ _ hk hph htx _ hn hj hm =>
    refine ahead_put hah hm hj rfl (ahead_refile hi hab hah hk hph htx hn ⟨rfl, rfl⟩ fun hl => ?_)
    by_contra hne
    have hl : (if k.bModified then Jlist.metadata else Jlist.reserved) = .reserved := hl
    rw [if_pos (by simpa using hne)] at hl
    cases hl
  | ioDone _ _ _ hm =>
    refine ahead_put hah hm .same rfl ?_
    exact (hbufs _).congr id rfl rfl rfl (fun h => ⟨h, rfl⟩) fun h _ => h
  | @writeHome b _ _ _ _ _ hm =>
    refine ahead_put hah hm .same rfl ?_
    exact (hbufs b).congr (by simp) rfl rfl rfl (fun h => ⟨h, rfl⟩) fun h _ => h
  | @uncheckpoint b _ _ _ _ _ _ hk hj hrel hm =>
    refine ahead_put hah hm hj rfl ?_
    rcases hrel with rfl | hrel
    · rw [← hk]
      exact hbufs b
    · exact ahead_released hah hk hrel rfl rfl rfl rfl
  | getblk _ hm =>
    exact ahead_put hah hm .same rfl (.of_unfiled rfl rfl (by intros; contradiction))

theorem Live.sub_deferring (hok : subOk s.j.phase s.sub = true) (h : s.Live a s') {l : Jlist}
    (hb : s'.sub = .deferring b l) : a = .deferUnfile ∨ s.sub = .deferring b l := by
  cases h with
  | @proto c _ hready hj =>
    by_cases hc : ∃ d, c = .commit d
    · obtain ⟨d, rfl⟩ := hc
      exact absurd ((sub_after_commit hok hready hj).symm.trans hb) (by simp)
    · rw [after_of_not_commit fun d hd => hc ⟨d, hd⟩] at hb
      exact .inr hb
  | deferUnfile => exact .inl rfl
  | clearRevoked | switchRevoke | writeRevokes | deferFile | writeNeedsCopy | writeCopy => cases hb
  | _ => exact .inr hb

end System

/-- A safe step keeps the modifications in turn. -/
theorem Ahead.step {s s' : System} {a : SysAct} (hi : Sound s) (hah : Ahead s)
    (hsafe : s.WriteAheadSafe a) (hs : s.step a = some s') (hab' : s'.j.jAborted = false) :
    Ahead s' := by
  have hab := not_aborted_of_step hs hab'
  have hlive := live_cases hi hsafe.defersUnclaimed hs hab hab'
  refine ⟨fun b l hb => ?_, hlive.ahead hi hab hsafe hah⟩
  rcases hlive.sub_deferring hi.sub hb with rfl | hsub
  · exact hsafe
  · exact hah.sub b l hsub

theorem ahead_reset (cfg : Config) (disk : ℕ → BitVec 32 × List (BitVec 8)) :
    Ahead (reset cfg disk) :=
  ⟨nofun, fun _ => .of_unfiled rfl rfl nofun⟩

/-- In every run of safe steps a journal that is not aborted obeys the write-ahead rule. -/
theorem write_ahead_rule (cfg : Config) (disk : ℕ → BitVec 32 × List (BitVec 8))
    (as : List SysAct) (s : System)
    (hex : exec step (reset cfg disk) as = some s)
    (hal : Along step System.WriteAheadSafe (reset cfg disk) as)
    (hab : s.j.jAborted = false) : s.WriteAhead := by
  have hinv : Sound s ∧ (s.j.jAborted = false → Ahead s) :=
    exec_invariant (I := fun s => Sound s ∧ (s.j.jAborted = false → Ahead s))
      (C := System.WriteAheadSafe)
      (fun s a s' hi hsafe hs =>
        ⟨hi.1.step hsafe.defersUnclaimed hs, fun hab' =>
          (hi.2 (not_aborted_of_step hs hab')).step hi.1 hsafe hs hab'⟩)
      as ⟨sound_reset cfg disk, fun _ => ahead_reset cfg disk⟩ hex hal
  exact fun b hd => ((hinv.2 hab).bufs b).dirty hd

def firstHandle : List SysAct :=
  [.proto (.handle (.start 4 0)), .proto (.handle (.startRepeat 0 true)),
    .proto (.getTransaction 0), .proto (.handle (.startRepeat 0 true))]

/-- Handle `h` gets write access to block `b`, which is in the cache, modifies it and reports it
for inode `ino`. -/
def journalBlock (h b : ℕ) (word : BitVec 32) (ino : ℕ) : List SysAct :=
  [.accessBegin h b, .accessLock h, .accessCancel h, .accessPut h, .modify h b word [],
    .dirty h b ino]

/-- A commit of the running transaction up to the loop over `t_buffers`. -/
def commitToBuffers (tid : Tid) (ino : ℕ) : List SysAct :=
  [.proto (.requestCommit tid ino), .proto (.commit .kjournald),
    .proto (.commit .restoreSuperblock), .proto (.commit .allocNew), .proto (.commit .lockDown),
    .clearRevoked, .switchRevoke, .proto (.commit .switchTransaction), .writeRevokes,
    .proto (.commit .setCommit)]

/-- The rest of a commit whose log blocks are `ios`. -/
def commitToEnd (ios : List ℕ) (drop : Bool) : List SysAct :=
  [.proto (.commit .getTail), .proto (.commit (.install false))] ++ ios.map SysAct.ioDone ++
    ios.map (fun _ => SysAct.waitIo) ++
    [.proto (.commit .setJflush), .proto (.commit .record), .proto (.commit .updateTail)] ++
    ios.map (fun _ => SysAct.forgetBuffer) ++
    [.proto (.commit .finish), .proto (.commit (.callback drop))]

/-- A block reported for inode 5 is deferred by a commit for inode 0. -/
def deferralGapRun : List SysAct :=
  firstHandle ++ [.getblk 1] ++ journalBlock 0 1 7 5 ++ [.proto (.handle (.stop 0))] ++
    commitToBuffers 0 0 ++ [.deferUnfile]

/-- Between `unfile_buffer` and `file_buffer` the buffer is dirty with the modification of a
transaction that has no commit record. -/
theorem deferralGapRun_dirty :
    (exec step sampleSystem deferralGapRun).map
      (fun s => (s.j.jAborted, (s.m.bufs 1).dirty, (s.m.bufs 1).bData.hist,
        s.j.commitRecords)) = some (false, true, [(0, 0)], []) := by
  decide +kernel

def writeAheadRun : List SysAct :=
  firstHandle ++ [.getblk 1] ++ journalBlock 0 1 7 5 ++ [.proto (.handle (.stop 0))] ++
    commitToBuffers 0 5 ++ [.write false] ++ commitToEnd [0] false

theorem write_ahead_rule_writeAheadRun :
    ∃ s, exec step sampleSystem writeAheadRun = some s ∧ (s.m.bufs 1).dirty = true ∧
      (s.m.bufs 1).bData.hist = [(0, 0)] ∧ s.WriteAhead := by
  obtain ⟨s, hs, heq⟩ := map_eq_some_iff.mp
    (by decide +kernel : (exec step sampleSystem writeAheadRun).map
      (fun s => (s.j.jAborted, (s.m.bufs 1).dirty, (s.m.bufs 1).bData.hist)) =
        some (false, true, [(0, 0)]))
  simp only [Prod.mk.injEq] at heq
  exact ⟨s, hs, heq.2.1, heq.2.2,
    write_ahead_rule sampleConfig _ writeAheadRun s hs (by decide +kernel) heq.1⟩

end VMsep.Jbd2
