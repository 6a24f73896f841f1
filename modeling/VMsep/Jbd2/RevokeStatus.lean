import VMsep.Jbd2.RevokeCommit

/-! `BH_RevokeValid` lets `cancel_revoke` trust `BH_Revoked` and skip the search of the table. The
two bits tell the truth through revokes of blocks with and without a buffer, evictions, and the
switch of the tables, which clears the bits of buffers that are in the cache. -/

namespace VMsep.Jbd2

open Lib Function

/-- The table with the bits of the buffers; `outstanding` records the blocks that were revoked and
neither cancelled nor left behind with a table. -/
structure RevokeState where
  rv : Revoke
  outstanding : List ℕ

inductive RevokeAct where
  | revoke (blocknr : ℕ) (tid : Tid)
  | cancelRevoke (blocknr : ℕ)
  /-- `clear_buffer_revoked_flags`, then `switch_revoke_table`. -/
  | switchTable
  | evict (blocknr : ℕ)
  | create (blocknr : ℕ)
  deriving DecidableEq

namespace RevokeState

/-- `jbd2_vmsep_journal_revoke`, with `-EIO` for a buffer that is revoked already. -/
def revoke (s : RevokeState) (b : ℕ) (tid : Tid) : RevokeState :=
  match s.rv.markRevoked b with
  | none => s
  | some r => { rv := r.insertRevokeHash b tid, outstanding := b :: s.outstanding }

def step (s : RevokeState) : RevokeAct → Option RevokeState
  | .revoke b tid => some (s.revoke b tid)
  | .cancelRevoke b =>
    if s.rv.cached b then
      some { rv := s.rv.cancelRevoke b, outstanding := s.outstanding.filter (· ≠ b) }
    else none
  | .switchTable =>
    some { rv := s.rv.clearBufferRevokedFlags.switchRevokeTable, outstanding := [] }
  | .evict b => some { s with rv := s.rv.discardBlock b }
  | .create b => if s.rv.cached b then none else some { s with rv := s.rv.readBlock b }

def init : RevokeState := { rv := .empty, outstanding := [] }

def NotTwice (s : RevokeState) : RevokeAct → Prop
  | .revoke b _ => b ∉ s.outstanding
  | _ => True

instance (s : RevokeState) (a : RevokeAct) : Decidable (s.NotTwice a) :=
  match a with
  | .revoke b _ => inferInstanceAs (Decidable (b ∉ s.outstanding))
  | .cancelRevoke _ | .switchTable | .evict _ | .create _ => .isTrue trivial

/-- The bits of a valid buffer say whether its block has a record, and there is one record for
each outstanding revoke. -/
structure Truthful (s : RevokeState) : Prop where
  status : ∀ b, s.rv.revokevalid b = true →
    (s.rv.revoked b = true ↔ b ∈ Revoke.blocks s.rv.current)
  once : (Revoke.blocks s.rv.current).Nodup
  records : ∀ b, b ∈ Revoke.blocks s.rv.current ↔ b ∈ s.outstanding
  revoked : ∀ b, s.rv.revoked b = true → s.rv.revokevalid b = true
  cached : ∀ b, s.rv.revokevalid b = true → s.rv.cached b = true

variable {s s' : RevokeState} {b c : ℕ}

theorem truthful_init : init.Truthful where
  status _ h := by cases h
  once := List.nodup_nil
  records _ := Iff.rfl
  revoked _ h := by cases h
  cached _ h := by cases h

theorem Truthful.mem_cancelRevoke (hs : s.Truthful) (b : ℕ) :
    c ∈ Revoke.blocks (s.rv.cancelRevoke b).current ↔ c ∈ Revoke.blocks s.rv.current ∧ c ≠ b := by
  refine Revoke.mem_blocks_cancelRevoke hs.once ?_
  intro hvalid hr hmem
  rw [(hs.status b hvalid).mpr hmem] at hr
  cases hr

theorem markRevoked_bits {rv r : Revoke} (h : rv.markRevoked b = some r) : r.cached = rv.cached ∧
    (∀ c, r.revokevalid c = true ↔ rv.revokevalid c = true ∨ c = b ∧ rv.cached b = true) ∧
    ∀ c, r.revoked c = true ↔ rv.revoked c = true ∨ c = b ∧ rv.cached b = true := by
  unfold Revoke.markRevoked at h
  split_ifs at h with hc hr
  · cases h
    have hno : rv.cached b = false := by simpa using hc
    simp [hno]
  · cases h
    have hin : rv.cached b = true := by simpa using hc
    have hbit : ∀ (f : ℕ → Bool) c, update f b true c = true ↔
        f c = true ∨ c = b ∧ rv.cached b = true := by
      intro f c
      by_cases hcb : c = b
      · simp [hcb, hin]
      · simp [hcb]
    exact ⟨rfl, hbit rv.revokevalid, hbit rv.revoked⟩

section

variable (hs : s.Truthful)

include hs

theorem Truthful.revoke_eq (hb : b ∉ s.outstanding) (tid : Tid) : ∃ r, s.rv.markRevoked b = some r ∧
      s.revoke b tid = { rv := r.insertRevokeHash b tid, outstanding := b :: s.outstanding } := by
  have hr : s.rv.revoked b = false := by
    by_contra hr
    have hr := (Bool.not_eq_false _).mp hr
    exact hb ((hs.records b).mp ((hs.status b (hs.revoked b hr)).mp hr))
  unfold revoke Revoke.markRevoked
  by_cases hc : s.rv.cached b = true
  · simp [hc, hr]
  · simp [hc]

theorem Truthful.revoke (hb : b ∉ s.outstanding) (tid : Tid) : (s.revoke b tid).Truthful := by
  obtain ⟨r, hmark, heq⟩ := hs.revoke_eq hb tid
  have hnot : b ∉ Revoke.blocks s.rv.current := fun hmem => hb ((hs.records b).mp hmem)
  obtain ⟨hcur, -, -⟩ := Revoke.markRevoked_eq hmark
  rw [heq]
  obtain ⟨hcached, hvalid, hrevoked⟩ := markRevoked_bits hmark
  have hblocks := Revoke.blocks_insertRevokeHash r b tid
  rw [hcur] at hblocks
  refine ⟨?_, ?_, ?_, ?_, ?_⟩
  · intro c hc
    rw [hblocks, List.mem_cons]
    refine (hrevoked c).trans ?_
    by_cases hcb : c = b
    · subst hcb
      have hin : s.rv.cached c = true := ((hvalid c).mp hc).elim (hs.cached c) And.right
      exact iff_of_true (.inr ⟨rfl, hin⟩) (.inl rfl)
    · have hc' : s.rv.revokevalid c = true := ((hvalid c).mp hc).resolve_right fun h => hcb h.1
      rw [hs.status c hc']
      constructor
      · exact fun h => .inr (h.resolve_right fun h => hcb h.1)
      · exact fun h => .inl (h.resolve_left hcb)
  · rw [hblocks]
    exact List.nodup_cons.mpr ⟨hnot, hs.once⟩
  · intro c
    rw [hblocks, List.mem_cons, List.mem_cons, hs.records c]
  · intro c hc
    exact (hvalid c).mpr (((hrevoked c).mp hc).imp (hs.revoked c) id)
  · intro c hc
    refine (congrFun hcached c).trans ?_
    exact ((hvalid c).mp hc).elim (hs.cached c) fun h => h.1 ▸ h.2

theorem Truthful.cancelRevoke (hb : s.rv.cached b = true) :
    Truthful { rv := s.rv.cancelRevoke b, outstanding := s.outstanding.filter (· ≠ b) } := by
  obtain ⟨hvalid, hrevoked⟩ := Revoke.revokevalid_cancelRevoke s.rv b
  have hcached : (s.rv.cancelRevoke b).cached = s.rv.cached := by
    unfold Revoke.cancelRevoke
    dsimp only
    split_ifs <;> rfl
  refine ⟨?_, Revoke.nodup_cancelRevoke hs.once, ?_, ?_, ?_⟩
  · intro c hc
    rw [hs.mem_cancelRevoke b, hrevoked]
    rw [hvalid] at hc
    by_cases hcb : c = b
    · simp [hcb]
    rw [update_of_ne hcb] at hc ⊢
    rw [hs.status c hc]
    exact ⟨fun h => ⟨h, hcb⟩, And.left⟩
  · intro c
    rw [hs.mem_cancelRevoke b, hs.records c]
    simp
  · intro c hc
    rw [hrevoked] at hc
    rw [hvalid]
    by_cases hcb : c = b
    · simp [hcb]
    · rw [update_of_ne hcb] at hc ⊢
      exact hs.revoked c hc
  · intro c hc
    rw [hvalid] at hc
    rw [hcached]
    by_cases hcb : c = b
    · exact hcb ▸ hb
    · rw [update_of_ne hcb] at hc
      exact hs.cached c hc

/-- Every bit that is set belongs to a record, so the buffers found for the records are all that
have to be cleared. -/
theorem Truthful.switchTable :
    Truthful { rv := s.rv.clearBufferRevokedFlags.switchRevokeTable, outstanding := [] } := by
  have hclear : ∀ c, s.rv.clearBufferRevokedFlags.revoked c = false := by
    intro c
    cases hr : s.rv.revoked c with
    | false => simp [Revoke.clearBufferRevokedFlags, hr]
    | true =>
      have hvalid := hs.revoked c hr
      have hmem := (hs.status c hvalid).mp hr
      simp [Revoke.clearBufferRevokedFlags, hr, hs.cached c hvalid, hmem]
  refine ⟨?_, ?_, ?_, ?_, hs.cached⟩
  · intro c hc
    rw [Revoke.current_switchRevokeTable]
    exact ⟨fun h => absurd ((hclear c).symm.trans h) (by decide), fun h => by cases h⟩
  · rw [Revoke.current_switchRevokeTable]
    exact List.nodup_nil
  · intro c
    rw [Revoke.current_switchRevokeTable]
    exact Iff.rfl
  · intro c hc
    exact absurd ((hclear c).symm.trans hc) (by decide)

theorem Truthful.evict : Truthful { s with rv := s.rv.discardBlock b } := by
  have hbit : ∀ {f : ℕ → Bool} {c}, update f b false c = true → c ≠ b ∧ f c = true := by
    intro f c h
    by_cases hcb : c = b
    · simp [hcb] at h
    · exact ⟨hcb, by simpa [hcb] using h⟩
  refine ⟨?_, hs.once, hs.records, ?_, ?_⟩
  · intro c hc
    obtain ⟨hcb, hc⟩ := hbit hc
    rw [← show s.rv.revoked c = (s.rv.discardBlock b).revoked c by simp [Revoke.discardBlock, hcb]]
    exact hs.status c hc
  · intro c hc
    obtain ⟨hcb, hc⟩ := hbit hc
    simpa [Revoke.discardBlock, hcb] using hs.revoked c hc
  · intro c hc
    obtain ⟨hcb, hc⟩ := hbit hc
    simpa [Revoke.discardBlock, hcb] using hs.cached c hc

theorem Truthful.create : Truthful { s with rv := s.rv.readBlock b } := by
  refine ⟨hs.status, hs.once, hs.records, hs.revoked, ?_⟩
  intro c hc
  by_cases hcb : c = b
  · simp [Revoke.readBlock, hcb]
  · simpa [Revoke.readBlock, hcb] using hs.cached c hc

/-- A step that revokes no block twice keeps the bits true. -/
theorem Truthful.step {a : RevokeAct} (hn : s.NotTwice a) (h : s.step a = some s') :
    s'.Truthful := by
  cases a with
  | revoke _ tid =>
    cases h
    exact hs.revoke hn tid
  | cancelRevoke =>
    obtain ⟨hb, heq⟩ := Option.ite_none_right_eq_some.mp h
    cases heq
    exact hs.cancelRevoke hb
  | switchTable =>
    cases h
    exact hs.switchTable
  | evict =>
    cases h
    exact hs.evict
  | create =>
    obtain ⟨-, heq⟩ := Option.ite_none_left_eq_some.mp h
    cases heq
    exact hs.create

end

/-- In every run in which no block is revoked twice in a row, the cached status of every buffer is
right, no block has two records, no revoke fails, and a cancelled one leaves no record. -/
theorem cached_revoke_status {s : RevokeState} (as : List RevokeAct)
    (hex : exec RevokeState.step init as = some s) (hal : Along RevokeState.step NotTwice init as) :
    s.Truthful ∧
    (∀ b, b ∉ s.outstanding → s.rv.markRevoked b ≠ none) ∧
    ∀ b, s.rv.cached b = true → b ∉ Revoke.blocks (s.rv.cancelRevoke b).current := by
  have hs : s.Truthful := exec_invariant (I := Truthful)
    (fun s a s' hs hn h => hs.step hn h) as truthful_init hex hal
  refine ⟨hs, ?_, ?_⟩
  · intro b hb hnone
    obtain ⟨r, hr, -⟩ := hs.revoke_eq hb 0
    rw [hnone] at hr
    cases hr
  · intro b _ hmem
    exact ((hs.mem_cancelRevoke b).mp hmem).2 rfl

/-- Block 7 is revoked without a buffer, read again, and its revoke cancelled; then it is revoked
with its buffer and the table is switched. -/
def revokedTwiceRun : List RevokeAct :=
  [.revoke 7 1, .create 7, .cancelRevoke 7, .revoke 7 1, .switchTable, .revoke 7 2]

theorem cached_revoke_status_revokedTwice :
    ∃ s, exec RevokeState.step init revokedTwiceRun = some s ∧ s.Truthful :=
  ⟨_, rfl, (cached_revoke_status revokedTwiceRun rfl (by decide)).1⟩

end RevokeState

end VMsep.Jbd2
