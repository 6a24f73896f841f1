import VMsep.Jbd2.Steps
import VMsep.Jbd2.TransactionOrder

/-! At every time the table `j_revoke` belongs to one transaction: the one whose commit will find it
as the other table. A revoke by a handle of another transaction goes to the wrong commit. -/

namespace VMsep.Jbd2

open Lib Function Jbd2.System CommitPhase Revoke

/-- The transaction that `j_revoke` belongs to. -/
def Spine.revokeOwner (s : Spine) (sub : CommitSub) : Option ℕ :=
  if s.phase.busy then
    if s.phase.lockedDown ∧ sub ≠ .revokeSwitched then some s.commitTx else some s.nextRunning
  else s.running

theorem Spine.Step.revokeOwner {s s' : Spine} {e : Event} {sub : CommitSub} (hs : s.Step e s')
    (he : ∀ c, e ≠ .commit c) :
    s'.revokeOwner sub = s.revokeOwner sub ∨ s.revokeOwner sub = none := by
  cases hs with
  | client h => cases h <;> exact .inl rfl
  | noCleanup | cleanup => exact .inl rfl
  | create hrun =>
    cases hb : s.phase.busy
    · exact .inr (by simp [Spine.revokeOwner, hb, hrun])
    refine .inl ?_
    have hb' : s.create.phase.busy = true := hb
    rw [Spine.revokeOwner, Spine.revokeOwner, if_pos hb, if_pos hb']
    rfl
  | commit => exact absurd rfl (he _)

theorem Spine.Commit.revokeOwner {s s' : Spine} {c : CommitAct} {sub : CommitSub}
    (hp : Pointers s) (h : s.Commit c s') (hok : subOk s.phase sub = true)
    (hsub : c = .switchTransaction → sub = .revokeSwitched) :
    s'.revokeOwner .idle = s.revokeOwner sub := by
  have hrun := hp.running_eq
  cases h with
  | lockDown hph _ hwait =>
    have hne : sub ≠ .revokeSwitched := by
      rintro rfl
      rw [hph] at hok
      cases hok
    rcases hwait with rfl | rfl <;>
      simp [Spine.revokeOwner, Spine.setState, hph, hne, busy, lockedDown]
  | wakeUpdates hph =>
    have hne : sub ≠ .revokeSwitched := by
      rintro rfl
      rw [hph] at hok
      cases hok
    simp [Spine.revokeOwner, hph, hne, busy, lockedDown]
  | switchTransaction hph =>
    simp [Spine.revokeOwner, Spine.setState, hph, hsub rfl, busy, lockedDown]
  | callback hph =>
    have := hrun (by simp [hph, busy]) (by simp [hph, inWindow])
    simp [Spine.revokeOwner, Spine.setState, hph, this, busy, lockedDown]
  | allocNew hph hr =>
    simp [Spine.revokeOwner, hph, hr, busy, lockedDown]
  | kjournald hph | destroy hph | ready hph | restoreSuperblock hph | credit hph
  | setCommit hph | getTail hph | install hph | setJflush hph | record hph | keepTail hph
  | updateTail hph | finish hph =>
    simp [Spine.revokeOwner, Spine.setState, hph, busy, lockedDown]

namespace Revoke

variable {r : Revoke} {b c : ℕ}

@[simp]
theorem current_setCurrent (r : Revoke) (l : List RevokeRecord) : (r.setCurrent l).current = l := by
  simp [setCurrent, current]

@[simp]
theorem other_setCurrent (r : Revoke) (l : List RevokeRecord) :
    (r.setCurrent l).other = r.other := by
  simp [setCurrent, other]

theorem blocks_eraseP (l : List RevokeRecord) (b : ℕ) :
    blocks (l.eraseP fun x => x.blocknr == b) = (blocks l).erase b := by
  rw [blocks, blocks, List.erase_eq_eraseP', List.eraseP_map]
  rfl

theorem mem_blocks_cancelRevoke (hnd : (blocks r.current).Nodup)
    (hvalid : r.revokevalid b = true → r.revoked b = false → b ∉ blocks r.current) :
    c ∈ blocks (r.cancelRevoke b).current ↔ c ∈ blocks r.current ∧ c ≠ b := by
  simp only [cancelRevoke]
  split_ifs with hneed
  · rw [current_setCurrent, blocks_eraseP, hnd.mem_erase_iff, and_comm]
  simp only [Bool.or_eq_true, Bool.not_eq_true', not_or, Bool.not_eq_false,
    Bool.not_eq_true] at hneed
  have hnot := hvalid hneed.1 hneed.2
  change c ∈ blocks r.current ↔ _
  constructor
  · rintro hc
    exact ⟨hc, fun heq => hnot (heq ▸ hc)⟩
  · exact And.left

theorem nodup_cancelRevoke (hnd : (blocks r.current).Nodup) :
    (blocks (r.cancelRevoke b).current).Nodup := by
  simp only [cancelRevoke]
  split_ifs
  · rw [current_setCurrent, blocks_eraseP]
    exact hnd.erase b
  · exact hnd

@[simp]
theorem other_cancelRevoke (r : Revoke) (b : ℕ) : (r.cancelRevoke b).other = r.other := by
  simp only [cancelRevoke]
  split_ifs
  · rw [other_setCurrent]
    rfl
  · rfl

theorem revokevalid_cancelRevoke (r : Revoke) (b : ℕ) :
    (r.cancelRevoke b).revokevalid = update r.revokevalid b true ∧
      (r.cancelRevoke b).revoked = update r.revoked b false := by
  simp only [cancelRevoke]
  split_ifs <;> exact ⟨rfl, rfl⟩

@[simp]
theorem blocks_insertRevokeHash (r : Revoke) (b : ℕ) (seq : Tid) :
    blocks (r.insertRevokeHash b seq).current = b :: blocks r.current := by
  simp [insertRevokeHash, blocks]

@[simp]
theorem other_insertRevokeHash (r : Revoke) (b : ℕ) (seq : Tid) :
    (r.insertRevokeHash b seq).other = r.other := by
  simp [insertRevokeHash]

@[simp]
theorem current_switchRevokeTable (r : Revoke) : r.switchRevokeTable.current = [] := by
  simp [switchRevokeTable, current]

@[simp]
theorem other_switchRevokeTable (r : Revoke) : r.switchRevokeTable.other = r.current := by
  simp [switchRevokeTable, other, current]

@[simp]
theorem current_dropOther (r : Revoke) : r.dropOther.current = r.current := by
  simp [dropOther, current]

theorem markRevoked_eq {r' : Revoke} (h : r.markRevoked b = some r') :
    r'.current = r.current ∧ r'.other = r.other ∧
      ∀ c, r'.revokevalid c = true → r'.revoked c = false →
        r.revokevalid c = true ∧ r.revoked c = false := by
  simp only [markRevoked] at h
  split_ifs at h
  · cases h
    exact ⟨rfl, rfl, fun _ h1 h2 => ⟨h1, h2⟩⟩
  cases h
  refine ⟨rfl, rfl, fun c h1 h2 => ?_⟩
  by_cases hc : c = b
  · subst hc
    simp at h2
  · simp only [update_of_ne hc] at h1 h2
    exact ⟨h1, h2⟩

end Revoke

namespace System

/-- The transaction that `j_revoke` belongs to. -/
def revokeOwner (s : System) : Option ℕ := s.j.spine.revokeOwner s.sub

/-- Handles of a transaction revoke and cancel revokes while `j_revoke` belongs to it. A cancel
that finds no record is harmless, and a block is revoked again only after its revoke was
cancelled. -/
def RevokesInTurn (s : System) : SysAct → Prop
  | .accessCancel h =>
    match s.txOf h, s.ops h with
    | some t, .cancel b => s.revokeOwner = some t ∨ b ∉ blocks s.rv.current
    | _, _ => True
  | .revokeInsert h =>
    match s.txOf h, s.ops h with
    | some t, .revoking b false =>
      s.revokeOwner = some t ∧ b ∉ blocks s.rv.current ∧
        (s.rv.revokevalid b = true → s.rv.revoked b = true)
    | _, _ => True
  | _ => True

instance (s : System) : ∀ a, Decidable (s.RevokesInTurn a)
  | .accessCancel h =>
    match ht : s.txOf h, ho : s.ops h with
    | some t, .cancel b =>
      decidable_of_iff (s.revokeOwner = some t ∨ b ∉ blocks s.rv.current)
        (by simp [RevokesInTurn, ht, ho])
    | none, _ | some _, .idle | some _, .access .. | some _, .create _ | some _, .put _
    | some _, .revoking .. => .isTrue (by simp [RevokesInTurn, ht, ho])
  | .revokeInsert h =>
    match ht : s.txOf h, ho : s.ops h with
    | some t, .revoking b false =>
      decidable_of_iff (s.revokeOwner = some t ∧ b ∉ blocks s.rv.current ∧
        (s.rv.revokevalid b = true → s.rv.revoked b = true)) (by simp [RevokesInTurn, ht, ho])
    | none, _ | some _, .idle | some _, .access .. | some _, .create _ | some _, .put _
    | some _, .cancel _ | some _, .revoking _ true => .isTrue (by simp [RevokesInTurn, ht, ho])
  | .proto .. | .accessBegin .. | .accessLock .. | .createBegin .. | .createLock ..
  | .accessPut .. | .modify .. | .dirty .. | .forget .. | .revoke .. | .revokeForget ..
  | .refileReserved | .clearRevoked | .switchRevoke | .writeRevokes | .deferUnfile | .deferFile
  | .releaseAborted | .write ..
  | .writeCopy .. | .copyFailed | .waitIo | .forgetBuffer | .ioDone .. | .writeback ..
  | .tryToFree .. | .cpQueue | .cpFlush | .cpIoRemove | .getblk .. | .discard .. => .isTrue trivial

def revokesPending (s : System) : Bool :=
  s.sub = .revokeSwitched ∨ (s.j.phase = .flushing ∧ s.sub = .idle)

end System

/-- `j_revoke` holds what its owner has revoked, and the other table, until it is written, what
the committing transaction has. -/
structure RevokeInv (s : System) : Prop where
  quiet : QuietInv s.j
  sub : subOk s.j.phase s.sub = true
  owned : ∀ b, b ∈ blocks s.rv.current ↔ ∃ o, s.revokeOwner = some o ∧ b ∈ s.revs o
  nodup : (blocks s.rv.current).Nodup
  valid : s.sub ≠ .revokeCleared → ∀ b, s.rv.revokevalid b = true → s.rv.revoked b = false →
    b ∉ blocks s.rv.current
  later : ∀ t, (∀ o, s.revokeOwner = some o → o < t) → s.revs t = []
  pending : s.revokesPending = true → ∀ b, b ∈ blocks s.rv.other ↔ b ∈ s.revs s.commitTx

namespace RevokeInv

variable {s s' : System} {a : SysAct}

section

variable (hi : RevokeInv s)

include hi

theorem revs_of_none (hnone : s.revokeOwner = none) (t : ℕ) : s.revs t = [] :=
  hi.later t fun _ ho => absurd (hnone.symm.trans ho) nofun

theorem keep (hq : QuietInv s'.j) (hsub : subOk s'.j.phase s'.sub = true)
    (hrv : s'.rv = s.rv) (hrevs : s'.revs = s.revs)
    (howner : s'.revokeOwner = s.revokeOwner ∨ s.revokeOwner = none)
    (hclear : s.sub = .revokeCleared → s'.sub = .revokeCleared)
    (hpend : s'.revokesPending = true → s.revokesPending = true ∧ s'.commitTx = s.commitTx) :
    RevokeInv s' := by
  refine ⟨hq, hsub, ?_, hrv ▸ hi.nodup, ?_, ?_, ?_⟩
  · intro b
    rw [hrv, hrevs]
    rcases howner with h | hnone
    · rw [h]
      exact hi.owned b
    · rw [hi.owned b]
      simp [hi.revs_of_none hnone]
  · intro hne
    rw [hrv]
    exact hi.valid fun h => hne (hclear h)
  · intro t ht
    rw [hrevs]
    rcases howner with h | hnone
    · exact hi.later t (h ▸ ht)
    · exact hi.revs_of_none hnone t
  · intro hp
    obtain ⟨hp', hct⟩ := hpend hp
    rw [hrv, hrevs, hct]
    exact hi.pending hp'

theorem proto {c : Act} {j' : Journal} (hready : s.ready c = true) (hj : s.j.step c = some j')
    (hsub : subOk j'.phase (s.after c).sub = true) :
    RevokeInv { s.after c with j := j' } := by
  have hq := hi.quiet.step hj
  by_cases hc : ∃ d, c = .commit d
  · obtain ⟨d, rfl⟩ := hc
    have hidle := sub_after_commit hi.sub hready hj
    have hsp := Journal.commitStep_spine hj
    obtain ⟨log, sub, heq⟩ := s.after_frame (.commit d)
    have hsw : d = .switchTransaction → s.sub = .revokeSwitched := by
      rintro rfl
      exact of_decide_eq_true hready
    have hsrc : s.j.phase = d.source := hsp.phases.1
    rw [heq] at hidle hsub ⊢
    change sub = .idle at hidle
    subst hidle
    refine hi.keep hq hsub rfl rfl (.inl (hsp.revokeOwner hi.quiet.pointers hi.sub hsw)) ?_ ?_
    · intro hcl
      have hok := hi.sub
      rw [hcl, hsrc] at hok
      cases d with
      | switchTransaction => exact absurd (hcl.symm.trans (hsw rfl)) (by simp)
      | _ => cases hok
    · intro hp
      have hph : j'.phase = .flushing := by simpa [revokesPending] using hp
      have hd : d = .switchTransaction := by
        rcases hsp.phases.2 with h | ⟨-, h⟩
        · have htgt : d.target = .flushing := h.symm.trans hph
          cases d <;> first | rfl | cases htgt
        · exact absurd (h.symm.trans hph) (by simp)
      subst hd
      exact ⟨by simp [revokesPending, hsw rfl],
        ((Spine.Step.commit hsp).commitTx_eq (by simp)).1⟩
  · have hc' : ∀ d, c ≠ .commit d := fun d hd => hc ⟨d, hd⟩
    have hne := Journal.event_ne_commit (j := s.j) hc'
    obtain ⟨hph, hct, -⟩ := Journal.step_phase hj hc'
    rw [after_of_not_commit hc'] at hsub ⊢
    refine hi.keep hq hsub rfl rfl ((Journal.step_spine hj).revokeOwner hne) id ?_
    intro hp
    simp only [revokesPending, hph] at hp
    exact ⟨hp, hct⟩

theorem ne_commitTx {h t : ℕ} (ht : s.txOf h = some t) (hph : s.j.phase.quiet = true) :
    t ≠ s.commitTx :=
  hi.quiet.att_ne hph (att_of_txOf ht)

theorem quiet_of_sub (hsub : s.sub = .revokeCleared ∨ s.revokesPending = true) :
    s.j.phase.quiet = true := by
  have hok := hi.sub
  have hcases : s.sub = .revokeCleared ∨ s.sub = .revokeSwitched ∨ s.j.phase = .flushing := by
    rcases hsub with h | h
    · exact .inl h
    rcases of_decide_eq_true h with h | h
    · exact .inr (.inl h)
    · exact .inr (.inr h.1)
  rcases hcases with h | h | h
  · rw [h] at hok
    cases hph : s.j.phase <;> first | rfl | (rw [hph] at hok; cases hok)
  · rw [h] at hok
    cases hph : s.j.phase <;> first | rfl | (rw [hph] at hok; cases hok)
  · rw [h]
    rfl

theorem owner_of_cleared (hsub : s.sub = .revokeCleared) : s.revokeOwner = some s.commitTx := by
  have hok := hi.sub
  have hph : s.j.spine.phase = .switching := by
    change s.j.phase = _
    rw [hsub] at hok
    cases hph : s.j.phase <;> first | rfl | (rw [hph] at hok; cases hok)
  simp only [revokeOwner, Spine.revokeOwner, hph, hsub]
  rfl

theorem cancel {h b t : ℕ} (ht : s.txOf h = some t)
    (hturn : s.revokeOwner = some t ∨ b ∉ blocks s.rv.current) :
    RevokeInv ({ s with
      rv := s.rv.cancelRevoke b
      revs := update s.revs t ((s.revs t).filter (· ≠ b)) }.setOp h (.put b)) := by
  have hvalid : s.rv.revokevalid b = true → s.rv.revoked b = false →
      b ∉ blocks s.rv.current := by
    rcases hturn with ho | hnot
    · refine hi.valid (fun hcl => ?_) b
      have hne := hi.ne_commitTx ht (hi.quiet_of_sub (.inl hcl))
      exact hne (Option.some.inj (ho.symm.trans (hi.owner_of_cleared hcl)))
    · exact fun _ _ => hnot
  have hmem := fun c => mem_blocks_cancelRevoke (c := c) hi.nodup hvalid
  refine ⟨hi.quiet, hi.sub, fun c => ?_, nodup_cancelRevoke hi.nodup, ?_, ?_, ?_⟩
  · change c ∈ blocks (s.rv.cancelRevoke b).current ↔ ∃ o, s.revokeOwner = some o ∧ _
    rw [hmem c, hi.owned c]
    constructor
    · rintro ⟨⟨o, ho, hc⟩, hne⟩
      refine ⟨o, ho, ?_⟩
      change c ∈ update s.revs t _ o
      by_cases hot : o = t
      · subst hot
        rw [update_self]
        exact List.mem_filter.mpr ⟨hc, by simpa using hne⟩
      · rwa [update_of_ne hot]
    · rintro ⟨o, ho, hc⟩
      change c ∈ update s.revs t _ o at hc
      by_cases hot : o = t
      · subst hot
        rw [update_self] at hc
        obtain ⟨hc, hne⟩ := List.mem_filter.mp hc
        exact ⟨⟨o, ho, hc⟩, by simpa using hne⟩
      · rw [update_of_ne hot] at hc
        refine ⟨⟨o, ho, hc⟩, ?_⟩
        rintro rfl
        rcases hturn with ho' | hnot
        · exact hot (Option.some.inj (ho.symm.trans ho'))
        · exact hnot ((hi.owned c).mpr ⟨o, ho, hc⟩)
  · intro hcl c hval hrev hc
    obtain ⟨h1, h2⟩ := revokevalid_cancelRevoke s.rv b
    obtain ⟨hc, hne⟩ := (hmem c).mp hc
    change (s.rv.cancelRevoke b).revokevalid c = true at hval
    change (s.rv.cancelRevoke b).revoked c = false at hrev
    rw [h1, update_of_ne hne] at hval
    rw [h2, update_of_ne hne] at hrev
    exact hi.valid hcl c hval hrev hc
  · intro u hu
    have hnil := hi.later u hu
    change update s.revs t _ u = []
    by_cases hut : u = t
    · subst hut
      rw [update_self, hnil]
      rfl
    · rwa [update_of_ne hut]
  · intro hp c
    have hne := hi.ne_commitTx ht (hi.quiet_of_sub (.inr hp))
    change c ∈ blocks (s.rv.cancelRevoke b).other ↔ c ∈ update s.revs t _ s.commitTx
    rw [other_cancelRevoke, update_of_ne (Ne.symm hne)]
    exact hi.pending hp c

theorem insert {h b t : ℕ} (ht : s.txOf h = some t) (howner : s.revokeOwner = some t)
    (hnot : b ∉ blocks s.rv.current)
    (hrevoked : s.rv.revokevalid b = true → s.rv.revoked b = true) (seq : Tid) :
    RevokeInv ({ s with
      rv := s.rv.insertRevokeHash b seq
      revs := update s.revs t (b :: s.revs t) }.setOp h .idle) := by
  have hblocks := blocks_insertRevokeHash s.rv b seq
  refine ⟨hi.quiet, hi.sub, fun c => ?_, ?_, ?_, ?_, ?_⟩
  · change c ∈ blocks (s.rv.insertRevokeHash b seq).current ↔
      ∃ o, s.revokeOwner = some o ∧ c ∈ update s.revs t _ o
    rw [hblocks, List.mem_cons, hi.owned c]
    simp [howner]
  · change (blocks (s.rv.insertRevokeHash b seq).current).Nodup
    rw [hblocks]
    exact List.nodup_cons.mpr ⟨hnot, hi.nodup⟩
  · intro hcl c hval hrev hc
    change c ∈ blocks (s.rv.insertRevokeHash b seq).current at hc
    rw [hblocks] at hc
    rcases List.mem_cons.mp hc with rfl | hc
    · exact absurd (hrevoked hval) (by simp [show s.rv.revoked c = false from hrev])
    · exact hi.valid hcl c hval hrev hc
  · intro u hu
    have hlt := hu t howner
    change update s.revs t _ u = []
    rw [update_of_ne hlt.ne']
    exact hi.later u hu
  · intro hp c
    have hne := hi.ne_commitTx ht (hi.quiet_of_sub (.inr hp))
    change c ∈ blocks (s.rv.insertRevokeHash b seq).other ↔
      c ∈ update s.revs t _ s.commitTx
    rw [other_insertRevokeHash, update_of_ne (Ne.symm hne)]
    exact hi.pending hp c

theorem switch (hph : s.j.phase = .switching) (hsub : s.sub = .revokeCleared) :
    RevokeInv { s with rv := s.rv.switchRevokeTable, sub := .revokeSwitched } := by
  have hold := hi.owner_of_cleared hsub
  have hnew : revokeOwner
      { s with rv := s.rv.switchRevokeTable, sub := .revokeSwitched } =
        some s.j.runningTransaction := by
    simp only [revokeOwner, Spine.revokeOwner, show s.j.spine.phase = .switching from hph]
    rfl
  have hlt : s.commitTx < s.j.runningTransaction :=
    (hi.quiet.pointers.order (by
      rw [show s.j.spine.phase = .switching from hph]
      rfl)).1
  have hnil : s.revs s.j.runningTransaction = [] :=
    hi.later _ fun o ho => by
      cases hold.symm.trans ho
      exact hlt
  refine ⟨hi.quiet, ?_, ?_, ?_, ?_, ?_, ?_⟩
  · change subOk s.j.phase .revokeSwitched = true
    rw [hph]
    rfl
  · intro b
    rw [hnew]
    simp [blocks, hnil]
  · simp [blocks]
  · intro _ b _ _
    simp [blocks]
  · intro t ht
    refine hi.later t fun o ho => ?_
    cases hold.symm.trans ho
    exact hlt.trans (ht _ hnew)
  · intro _ b
    change b ∈ blocks s.rv.switchRevokeTable.other ↔ b ∈ s.revs s.commitTx
    rw [other_switchRevokeTable, hi.owned b]
    simp [hold]

theorem phase_of_sub (hsub : (∃ b l, s.sub = .deferring b l) ∨ ∃ b, s.sub = .copying b) :
    s.j.phase = .logging := by
  have hok := hi.sub
  rcases hsub with ⟨b, l, h⟩ | ⟨b, h⟩ <;>
  · rw [h] at hok
    cases hph : s.j.phase <;> first | rfl | (rw [hph] at hok; cases hok)

theorem logging (hph : s.j.phase = .logging) (hq : QuietInv s'.j)
    (hsub : subOk s'.j.phase s'.sub = true) (hrv : s'.rv = s.rv) (hrevs : s'.revs = s.revs)
    (hph' : s'.j.phase = s.j.phase) (hrt : s'.j.runningTransaction = s.j.runningTransaction) :
    RevokeInv s' := by
  have hsp : s.j.spine.phase = .logging := hph
  have hsp' : s'.j.spine.phase = .logging := hph'.trans hph
  refine hi.keep hq hsub hrv hrevs (.inl ?_) ?_ ?_
  · simp only [revokeOwner, Spine.revokeOwner, hsp, hsp']
    exact congrArg some hrt
  · intro h
    have hok := hi.sub
    rw [h, hph] at hok
    cases hok
  · intro hp
    rw [hph', hph] at hsub
    rcases of_decide_eq_true hp with h | h
    · rw [h] at hsub
      cases hsub
    · exact absurd (h.1.symm.trans hsp') (by simp)

/-- A step in turn keeps the revokes with their transaction. -/
theorem step (hturn : s.RevokesInTurn a) (hs : s.step a = some s') : RevokeInv s' := by
  have hq := quietInv_step hs hi.quiet
  have hsub := subOk_step hs hi.sub
  cases step_cases hs with
  | proto hready hj => exact hi.proto hready hj hsub
  | accessCancel ht hop =>
    simp only [System.RevokesInTurn, ht, hop] at hturn
    exact hi.cancel ht hturn
  | revokeInsert ht hop =>
    simp only [System.RevokesInTurn, ht, hop] at hturn
    exact hi.insert ht hturn.1 hturn.2.1 hturn.2.2 _
  | switchRevoke hph hcl => exact hi.switch hph hcl
  | revoke _ _ hrv =>
    obtain ⟨hcur, hoth, hbits⟩ := markRevoked_eq hrv
    refine ⟨hi.quiet, hi.sub, fun b => ?_, ?_, fun hcl b h1 h2 => ?_, hi.later, fun hp b => ?_⟩
    · exact hcur ▸ hi.owned b
    · exact hcur ▸ hi.nodup
    · obtain ⟨h1, h2⟩ := hbits b h1 h2
      exact hcur ▸ hi.valid hcl b h1 h2
    · exact hoth ▸ hi.pending hp b
  | clearRevoked hph hidle =>
    have howner : revokeOwner
        { s with rv := s.rv.clearBufferRevokedFlags, sub := .revokeCleared } = s.revokeOwner := by
      simp [revokeOwner, Spine.revokeOwner, show s.j.spine.phase = .switching from hph,
        hidle]
    refine ⟨hi.quiet, hsub, fun b => ?_, hi.nodup, fun h => absurd rfl h, ?_, fun hp => ?_⟩
    · rw [howner]
      exact hi.owned b
    · rw [howner]
      exact hi.later
    · simp [revokesPending, hph] at hp
  | writeRevokes hph hidle =>
    have hcur := current_dropOther s.rv
    have howner : s.j.spine.revokeOwner .revokesWritten = s.revokeOwner := by
      simp [revokeOwner, Spine.revokeOwner, show s.j.spine.phase = .flushing from hph,
        busy, lockedDown]
    refine ⟨hi.quiet, hsub, fun b => ?_, hcur.symm ▸ hi.nodup, fun _ b h1 h2 => ?_, ?_,
      fun hp => ?_⟩
    · change b ∈ blocks s.rv.dropOther.current ↔
        ∃ o, s.j.spine.revokeOwner .revokesWritten = some o ∧ b ∈ s.revs o
      rw [howner, hcur]
      exact hi.owned b
    · exact hcur.symm ▸ hi.valid (by simp [hidle]) b h1 h2
    · intro t ht
      exact hi.later t (howner ▸ ht)
    · simp [revokesPending] at hp
  | getblk => exact ⟨hi.quiet, hi.sub, hi.owned, hi.nodup, hi.valid, hi.later, hi.pending⟩
  | @discard b =>
    refine ⟨hi.quiet, hi.sub, hi.owned, hi.nodup, fun hcl c h1 h2 => ?_, hi.later, hi.pending⟩
    by_cases hc : c = b
    · subst hc
      simp [discardBlock] at h1
    · simp only [discardBlock, update_of_ne hc] at h1 h2
      exact hi.valid hcl c h1 h2
  | copyFailed hcopy hj =>
    obtain ⟨hph, -, hrt⟩ := Journal.step_phase (a := .abort) hj (by simp)
    exact hi.logging (hi.phase_of_sub (.inr ⟨_, hcopy⟩)) hq hsub rfl rfl hph hrt
  | deferUnfile hb => exact hi.logging (nextBuffer_eq hb).2.1 hq hsub rfl rfl rfl rfl
  | deferFile hdef =>
    exact hi.logging (hi.phase_of_sub (.inl ⟨_, _, hdef⟩)) hq hsub rfl rfl rfl rfl
  | writeNeedsCopy hb _ _ hj =>
    obtain ⟨hcr, tcr, cps, rfl⟩ := (Journal.Calm.logCredit hj).frame
    exact hi.logging (nextBuffer_eq hb).2.1 hq hsub rfl rfl rfl rfl
  | writeCopy hcopy =>
    exact hi.logging (hi.phase_of_sub (.inr ⟨_, hcopy⟩)) hq hsub rfl rfl rfl rfl
  | dirty | dirtyFails | forget | revokeForget | forgetBuffer | tryToFree | cpIoRemove =>
    obtain ⟨hcr, tcr, cps, hj⟩ := ((step_cases hs).calm (by simp) (by simp)).frame
    subst hj
    exact hi.keep hq hsub rfl rfl (.inl rfl) id fun hp => ⟨hp, rfl⟩
  | write _ _ _ hj =>
    obtain ⟨hcr, tcr, cps, rfl⟩ := (Journal.Calm.logCredit hj).frame
    exact hi.keep hq hsub rfl rfl (.inl rfl) id fun hp => ⟨hp, rfl⟩
  | _ => exact hi.keep hq hsub rfl rfl (.inl rfl) id fun hp => ⟨hp, rfl⟩

end

end RevokeInv

theorem revokeInv_reset (cfg : Config) (disk : ℕ → BitVec 32 × List (BitVec 8)) :
    RevokeInv (reset cfg disk) where
  quiet := quietInv_reset cfg
  sub := rfl
  owned := fun b => by simp [reset, empty, current, blocks]
  nodup := List.nodup_nil
  valid := fun _ _ _ _ => List.not_mem_nil
  later := fun _ _ => rfl
  pending := nofun

/-- What `write_revoke_records` would write for the committing transaction is what its handles
have revoked and not cancelled, and the revokes of the running transaction and of the one that
the commit will install are in `j_revoke`. -/
structure System.RevokesKept (s : System) : Prop where
  written : ∀ s', s.step .writeRevokes = some s' → s.j.jAborted = false →
    ∀ b, b ∈ (s'.log (s.j.txs s.commitTx).tLogStart).revokes ↔ b ∈ s.revs s.commitTx
  left : ∀ t, s.j.jRunningTransaction = some t ∨
      (s.j.phase.busy = true ∧ t = s.j.runningTransaction) →
    ∀ b ∈ s.revs t, b ∈ blocks s.rv.current

theorem RevokeInv.owner_le {s : System} (hi : RevokeInv s) {o t : ℕ} (ho : s.revokeOwner = some o)
    (ht : s.j.jRunningTransaction = some t ∨
      (s.j.phase.busy = true ∧ t = s.j.runningTransaction)) : o ≤ t := by
  have hp := hi.quiet.pointers
  by_cases hb : s.j.spine.phase.busy = true
  · have hor : o ≤ s.j.spine.nextRunning := by
      have hlt := (hp.order hb).1
      have hcases : o = s.j.spine.commitTx ∨ o = s.j.spine.nextRunning := by
        rw [revokeOwner, Spine.revokeOwner, if_pos hb] at ho
        split_ifs at ho <;> cases ho
        · exact .inl rfl
        · exact .inr rfl
      omega
    rcases ht with h | ⟨-, rfl⟩
    · cases hw : s.j.spine.phase.inWindow with
      | true => exact hor.trans (hp.orphan hw t h).le
      | false =>
        cases (hp.running_eq hb hw).symm.trans h
        exact hor
    · exact hor
  · rcases ht with h | ⟨h, -⟩
    · rw [revokeOwner, Spine.revokeOwner, if_neg hb] at ho
      cases ho.symm.trans h
      exact le_rfl
    · exact absurd h hb

theorem RevokeInv.kept {s : System} (hi : RevokeInv s) : s.RevokesKept where
  written := by
    intro s' hs hab b
    cases step_cases hs with
    | writeRevokes hph hsub =>
      simp only [mapLog, update_self, hab, Bool.false_eq_true, if_false]
      exact hi.pending (by simp [revokesPending, hph, hsub]) b
  left := by
    intro t ht b hb
    obtain ⟨o, ho, hle⟩ : ∃ o, s.revokeOwner = some o ∧ t ≤ o := by
      by_contra hno
      refine absurd (hi.later t fun o ho => ?_) (List.ne_nil_of_mem hb)
      by_contra hlt
      exact hno ⟨o, ho, not_lt.mp hlt⟩
    obtain rfl : t = o := hle.antisymm (hi.owner_le ho ht)
    exact (hi.owned b).mpr ⟨t, ho, hb⟩

/-- Revoke records commit with the transaction that made them, in every run in which handles
touch the table only while it belongs to their transaction. -/
theorem revokes_commit_with_transaction (cfg : Config)
    (disk : ℕ → BitVec 32 × List (BitVec 8)) (as : List SysAct) (s : System)
    (hex : exec step (reset cfg disk) as = some s)
    (hal : Along step System.RevokesInTurn (reset cfg disk) as) : s.RevokesKept := by
  have hi : RevokeInv s := exec_invariant (C := System.RevokesInTurn)
    (fun _ _ _ hi hturn hs => hi.step hturn hs) as (revokeInv_reset cfg disk) hex hal
  exact hi.kept

def sampleSystem : System := reset sampleConfig fun _ => (0, [])

/-- Handle 0 is open on the first transaction while its commit locks it down; handle 2 joins the
next transaction and revokes block 7 before handle 0 stops. -/
def lockedRevokeRun : List SysAct :=
  [.proto (.handle (.start 4 0)), .proto (.handle (.startRepeat 0 true)),
    .proto (.getTransaction 0), .proto (.handle (.startRepeat 0 true)),
    .proto (.requestCommit 0 0), .proto (.commit .kjournald),
    .proto (.commit .restoreSuperblock), .proto (.commit .allocNew), .proto (.commit .lockDown),
    .proto (.handle (.start 4 0)), .proto (.handle (.startRepeat 2 true)),
    .revoke 2 7 false, .revokeInsert 2, .proto (.handle (.stop 0)),
    .proto (.commit .wakeUpdates), .clearRevoked, .switchRevoke,
    .proto (.commit .switchTransaction)]

/-- The record of transaction 1 is written for transaction 0, which has revoked nothing, and is
gone from `j_revoke`. -/
theorem lockedRevokeRun_writes_next :
    (exec step sampleSystem lockedRevokeRun).bind
      (fun s => (s.step .writeRevokes).map fun s' =>
        (s.commitTx, (s'.log (s.j.txs s.commitTx).tLogStart).revokes, s.revs 0, s.revs 1,
          blocks s'.rv.current)) = some (0, [7], [], [7], []) := by
  decide +kernel

def revokeRun : List SysAct :=
  [.proto (.handle (.start 4 0)), .proto (.handle (.startRepeat 0 true)),
    .proto (.getTransaction 0), .proto (.handle (.startRepeat 0 true)),
    .revoke 0 7 false, .revokeInsert 0, .revoke 0 8 false, .revokeInsert 0,
    .getblk 8, .accessBegin 0 8, .accessLock 0, .accessCancel 0, .accessPut 0,
    .proto (.handle (.stop 0)), .proto (.requestCommit 0 0), .proto (.commit .kjournald),
    .proto (.commit .restoreSuperblock), .proto (.commit .allocNew), .proto (.commit .lockDown),
    .refileReserved, .clearRevoked, .switchRevoke, .proto (.commit .switchTransaction)]

theorem revokes_commit_with_transaction_revokeRun :
    ∃ s, exec step sampleSystem revokeRun = some s ∧ s.revs 0 = [7] ∧ s.RevokesKept := by
  obtain ⟨s, hs, hrevs⟩ := Option.map_eq_some_iff.mp
    (by decide +kernel :
      (exec step sampleSystem revokeRun).map (fun s => s.revs 0) = some [7])
  refine ⟨s, hs, hrevs, revokes_commit_with_transaction sampleConfig _ revokeRun s hs ?_⟩
  decide +kernel

end VMsep.Jbd2
