import VMsep.Jbd2.CommitLog

/-! Without checksums, and with a log that can be read, what a pass does at a header block depends
on the log and on the expected id only. All three passes are the same walk, which the later two
leave at the end of the log that the first one found. -/

namespace VMsep.Jbd2

open Lib Option

variable {n : ℕ} {b : Block n}

/-- What a block is for a pass that expects the id of a transaction. -/
inductive HeaderKind where
  | descriptor
  | commit
  | revoke
  | other
  deriving DecidableEq

def kindOf (b : Block n) (id : Tid) : HeaderKind :=
  if b.be 0 4 ≠ jbd2MagicNumber.toNat then .other
  else if b.be 8 4 ≠ id.toNat then .other
  else if b.be 4 4 = LogFormat.descriptorBlock then .descriptor
  else if b.be 4 4 = LogFormat.commitBlock then .commit
  else if b.be 4 4 = LogFormat.revokeBlock then .revoke
  else .other

theorem kindOf_commit {tid : Tid} (h : LogFormat.HeaderAt b LogFormat.commitBlock tid) :
    kindOf b tid = .commit := by
  simp [kindOf, h.magic, h.sequence, h.type, LogFormat.commitBlock, LogFormat.descriptorBlock]

theorem kindOf_other {id : Tid} (h : b.be 0 4 = jbd2MagicNumber.toNat → b.be 8 4 ≠ id.toNat) :
    kindOf b id = .other := by
  unfold kindOf
  split_ifs with h1 h2
  · rfl
  · rfl
  all_goals exact absurd (not_not.mp h2) (h (not_not.mp h1))

namespace RecoveryConfig

variable (cfg : RecoveryConfig)

def walkNext (log : ℕ → Block n) (w : ℕ × Tid) : Option (ℕ × Tid) :=
  let next := cfg.wrap (w.1 + 1)
  match kindOf (log w.1) w.2 with
  | .descriptor => some (cfg.wrap (next + (cfg.tagOffsets (log w.1)).length), w.2)
  | .commit => some (next, w.2 + 1)
  | .revoke => some (next, w.2)
  | .other => none

inductive Walk (log : ℕ → Block n) : ℕ × Tid → List (ℕ × Tid) → ℕ × Tid → Prop where
  | nil (w : ℕ × Tid) : Walk log w [] w
  | cons {w w' w'' : ℕ × Tid} {l : List (ℕ × Tid)} (hnext : cfg.walkNext log w = some w')
    (hrest : Walk log w' l w'') : Walk log w (w :: l) w''

variable {cfg} {log : ℕ → Block n} {w w' : ℕ × Tid} {l l' : List (ℕ × Tid)} {e id : Tid}
  {pos k rounds : ℕ} {s s' : PassState n} {pass : Pass}

theorem Walk.rest {e : ℕ × Tid} (h : cfg.Walk log w l e) (hend : cfg.walkNext log e = none)
    (h' : cfg.Walk log w l' w') : ∃ l2, cfg.Walk log w' l2 e ∧ l = l' ++ l2 := by
  induction h' generalizing l with
  | nil => exact ⟨l, h, rfl⟩
  | cons hnext _ ih =>
    cases h with
    | nil => exact absurd (hend.symm.trans hnext) (by simp)
    | cons hnext' hrest =>
      cases hnext.symm.trans hnext'
      obtain ⟨l2, hl2, rfl⟩ := ih hrest
      exact ⟨l2, hl2, rfl⟩

def distance (e id : Tid) : ℕ := (e - id).toNat

theorem tidGeq_iff : tidGeq id e = true ↔ distance e id = 0 ∨ 2 ^ 31 < distance e id := by
  rw [tidGeq, decide_eq_true_iff, distance, BitVec.toInt_eq_toNat_cond, BitVec.toNat_sub,
    BitVec.toNat_sub]
  split_ifs <;> omega

theorem distance_eq_zero : distance e id = 0 ↔ id = e := by
  rw [distance, BitVec.toNat_sub, ← BitVec.toNat_inj]
  omega

theorem distance_succ (h : distance e id ≠ 0) : distance e (id + 1) + 1 = distance e id := by
  rw [distance, BitVec.toNat_sub] at h ⊢
  have hone : (1 : Tid).toNat = 1 := rfl
  rw [distance, BitVec.toNat_sub, BitVec.toNat_add, hone]
  omega

theorem Walk.distance_le (h : cfg.Walk log w l w') (hl : ∀ v ∈ l, tidGeq v.2 e = false)
    (hw : distance e w.2 ≤ 2 ^ 31) : distance e w'.2 ≤ 2 ^ 31 := by
  induction h with
  | nil => exact hw
  | @cons w _ _ _ hnext _ ih =>
    refine ih (fun v hv => hl v (List.mem_cons_of_mem _ hv)) ?_
    have hne : distance e w.2 ≠ 0 := fun h0 => by
      have := tidGeq_iff.mpr (.inl h0)
      rw [hl w List.mem_cons_self] at this
      cases this
    unfold walkNext at hnext
    split at hnext
    · cases hnext
      exact hw
    · cases hnext
      have := distance_succ hne
      change distance e (w.2 + 1) ≤ 2 ^ 31
      omega
    · cases hnext
      exact hw
    · cases hnext

theorem Walk.takeWhile {wm : ℕ × Tid} (h : cfg.Walk log w l wm) (hend : cfg.walkNext log wm = none)
    (he : wm.2 = e) (hw : distance e w.2 ≤ 2 ^ 31) (h' : cfg.Walk log w l' w')
    (hl : ∀ v ∈ l', tidGeq v.2 e = false)
    (hstop : tidGeq w'.2 e = true ∨ cfg.walkNext log w' = none) :
    w'.2 = e ∧ (l ++ [wm]).takeWhile (fun v => v.2 ≠ e) = l' := by
  obtain ⟨l2, hl2, rfl⟩ := h.rest hend h'
  have hid : w'.2 = e := by
    rcases hstop with hge | hnone
    · have hle := h'.distance_le hl hw
      exact distance_eq_zero.mp ((tidGeq_iff.mp hge).resolve_right (by omega))
    cases hl2 with
    | nil => exact he
    | cons hnext => exact absurd (hnone.symm.trans hnext) (by simp)
  refine ⟨hid, ?_⟩
  have hne : ∀ v ∈ l', decide (v.2 ≠ e) = true := fun v hv => by
    refine decide_eq_true fun heq => ?_
    have := tidGeq_iff.mpr (.inl (distance_eq_zero.mpr heq))
    rw [hl v hv] at this
    cases this
  rw [List.append_assoc, List.takeWhile_append_of_pos hne]
  have hhead : (l2 ++ [wm]).takeWhile (fun v => decide (v.2 ≠ e)) = [] := by
    cases hl2 with
    | nil => simp [he]
    | cons => simp [hid]
  rw [hhead, List.append_nil]

theorem tagsFrom_length (b : Block n) (rounds tagp : ℕ) :
    (cfg.tagsFrom b rounds tagp).length * cfg.tagBytes ≤ n - tagp := by
  induction rounds generalizing tagp with
  | zero => simp [tagsFrom]
  | succ _ ih =>
    rw [tagsFrom]
    split_ifs with hle hlast
    · rw [List.length_singleton]
      omega
    · have hnext : tagp + cfg.tagBytes ≤ cfg.nextTag b tagp := by
        unfold nextTag
        split_ifs <;> omega
      have := ih (cfg.nextTag b tagp)
      rw [List.length_cons, Nat.add_mul]
      omega
    · simp

theorem tagOffsets_length (b : Block n) : (cfg.tagOffsets b).length ≤ (n - 12) / cfg.tagBytes :=
  (Nat.le_div_iff_mul_le (by have := cfg.tagBytes_ge; omega)).mpr
    (tagsFrom_length b (n + 1) 12)

theorem wrap_iterate (hpos : pos < cfg.jLast) (hk : k < cfg.jLast - cfg.jFirst) :
    (fun p => cfg.wrap (p + 1))^[k] pos = cfg.wrap (pos + k) := by
  induction k with
  | zero =>
    rw [Nat.add_zero, wrap, if_neg (by omega)]
    rfl
  | succ _ ih =>
    rw [Function.iterate_succ_apply', ih (by omega)]
    unfold wrap
    split_ifs <;> omega

theorem replayRounds_frame (b : Block n) (l : List ℕ) (s : PassState n) :
    let s' := l.foldl (fun t o => cfg.replayRound b o t) s
    s'.nextCommitId = s.nextCommitId ∧ s'.visited = s.visited ∧
      s'.info.endTransaction = s.info.endTransaction ∧
      s'.nextLogBlock = (fun p => cfg.wrap (p + 1))^[l.length] s.nextLogBlock := by
  induction l generalizing s with
  | nil => exact ⟨rfl, rfl, rfl, rfl⟩
  | cons o _ ih =>
    have hround : (cfg.replayRound b o s).nextCommitId = s.nextCommitId ∧
        (cfg.replayRound b o s).visited = s.visited ∧
        (cfg.replayRound b o s).info.endTransaction = s.info.endTransaction ∧
        (cfg.replayRound b o s).nextLogBlock = cfg.wrap (s.nextLogBlock + 1) := by
      rw [replayRound]
      cases cfg.jread s.disk s.nextLogBlock with
      | error => exact ⟨rfl, rfl, rfl, rfl⟩
      | ok =>
        simp only [replayTo]
        split_ifs <;> exact ⟨rfl, rfl, rfl, rfl⟩
    obtain ⟨h1, h2, h3, h4⟩ := hround
    obtain ⟨g1, g2, g3, g4⟩ := ih (cfg.replayRound b o s)
    exact ⟨g1.trans h1, g2.trans h2, g3.trans h3, by rw [List.foldl_cons, g4, h4]; rfl⟩

theorem replayTags_pos (hn : 12 ≤ n) {tagp : ℕ} (hpos : s.nextLogBlock < cfg.jLast)
    (hs : cfg.replayTags pos rounds tagp s = some s') : s'.nextLogBlock < cfg.jLast := by
  induction rounds generalizing tagp s with
  | zero => cases hs
  | succ _ ih =>
    have hround : (cfg.replayRound (s.disk.log pos) tagp s).nextLogBlock < cfg.jLast := by
      exact (replayRounds_frame _ [tagp] s).2.2.2.trans_lt (wrap_lt hpos)
    simp only [cfg.replayTags_succ hn] at hs
    split_ifs at hs
    · cases hs
      exact hround
    · exact ih hround hs
    · cases hs
      exact hpos

def visit (cfg : RecoveryConfig) (s : PassState n) : PassState n :=
  { s with
    nextLogBlock := cfg.wrap (s.nextLogBlock + 1)
    visited := s.visited ++ [(s.nextLogBlock, s.nextCommitId)] }

theorem headerStep_eq (hn : 12 ≤ n) (pass : Pass) (pos : ℕ) (b : Block n) (s : PassState n) :
    cfg.headerStep pass pos b s =
      match kindOf b s.nextCommitId with
      | .descriptor => cfg.descriptorStep pass pos b s
      | .commit => cfg.commitStep pass b s
      | .revoke => if pass = .revoke then cfg.scanRevokeRecords b s else some (.again s)
      | .other => some (.done s) := by
  simp only [headerStep, Block.read_eq (show 0 + 4 ≤ n by omega),
    Block.read_eq (show 4 + 4 ≤ n by omega), Block.read_eq (show 8 + 4 ≤ n by omega),
    bind_eq_bind, bind_some, kindOf]
  split_ifs <;> rfl

structure Plain (cfg : RecoveryConfig) : Prop where
  csum2 : cfg.csum2 = false
  csum3 : cfg.csum3 = false
  checksum : cfg.checksum = false

theorem Plain.hasCsumV2or3 (h : cfg.Plain) : cfg.hasCsumV2or3 = false := by
  rw [LogFormat.hasCsumV2or3, h.csum2, h.csum3]
  rfl

theorem Plain.commitStep (h : cfg.Plain) (pass : Pass) (b : Block n) (s : PassState n) :
    cfg.commitStep pass b s = some (.again (nextTransaction s)) := by
  have hok : cfg.commitBlockCsumVerify b = some true := by
    rw [LogFormat.commitBlockCsumVerify, h.hasCsumV2or3]
    rfl
  cases pass with
  | scan =>
    simp only [RecoveryConfig.commitStep, h.checksum, Bool.false_eq_true, if_false, commitCsum,
      hok, bind_eq_bind, bind_some, if_true]
  | revoke | replay => rfl

theorem Plain.descriptorStep (h : cfg.Plain) (pass : Pass) (pos : ℕ) (b : Block n)
    (s : PassState n) : cfg.descriptorStep pass pos b s =
      if pass = .replay then (cfg.replayTags pos (n + 1) 12 s).map .again
      else some (.again
        { s with nextLogBlock := cfg.wrap (s.nextLogBlock + (cfg.tagOffsets b).length) }) := by
  have hok : cfg.descriptorBlockCsumVerify b = some true := by
    rw [LogFormat.descriptorBlockCsumVerify, h.hasCsumV2or3]
    rfl
  simp only [RecoveryConfig.descriptorStep, hok, bind_eq_bind, bind_some,
    Bool.not_true, Bool.false_eq_true, if_false]
  cases pass with
  | scan =>
    simp only [h.checksum, Bool.false_eq_true, false_and, if_false, countTags_eq]
    rfl
  | revoke =>
    simp only [countTags_eq]
    rfl
  | replay => rfl

def Stops (pass : Pass) (s : PassState n) : Prop :=
  pass ≠ .scan ∧ tidGeq s.nextCommitId s.info.endTransaction = true

theorem passStep_of_stops (h : Stops pass s) : cfg.passStep pass s = some (.done s) := if_pos h

theorem passStep_eq (hn : 12 ≤ n) (hread : ∀ p < cfg.jLast, cfg.readable p = true)
    (hpos : s.nextLogBlock < cfg.jLast) (hstop : ¬ Stops pass s) : cfg.passStep pass s =
      let b := s.disk.log s.nextLogBlock
      match kindOf b s.nextCommitId with
      | .descriptor => cfg.descriptorStep pass s.nextLogBlock b (cfg.visit s)
      | .commit => cfg.commitStep pass b (cfg.visit s)
      | .revoke =>
        if pass = .revoke then cfg.scanRevokeRecords b (cfg.visit s)
        else some (.again (cfg.visit s))
      | .other => some (.done (cfg.visit s)) := by
  have hmod : s.nextLogBlock % 2 ^ 32 = s.nextLogBlock :=
    Nat.mod_eq_of_lt (hpos.trans cfg.last_lt)
  have hstop' : ¬ (pass ≠ .scan ∧ tidGeq s.nextCommitId s.info.endTransaction = true) := hstop
  rw [passStep, if_neg hstop', jread_ok hread hpos, hmod]
  exact headerStep_eq hn pass _ _ (cfg.visit s)

structure GoesOn (cfg : RecoveryConfig) (s s' : PassState n) : Prop where
  next : cfg.walkNext s.disk.log (s.nextLogBlock, s.nextCommitId) =
    some (s'.nextLogBlock, s'.nextCommitId)
  visited : s'.visited = s.visited ++ [(s.nextLogBlock, s.nextCommitId)]
  endTransaction : s'.info.endTransaction = s.info.endTransaction
  log : s'.disk.log = s.disk.log

/-- The assumptions on the log under which the passes are compared. -/
structure Comparable (cfg : RecoveryConfig) (n : ℕ) : Prop where
  block : 16 ≤ n
  plain : cfg.Plain
  readable : ∀ p < cfg.jLast, cfg.readable p = true
  room : (n - 12) / cfg.tagBytes < cfg.jLast - cfg.jFirst

theorem passStep_again (hc : cfg.Comparable n) (hpos : s.nextLogBlock < cfg.jLast)
    (hs : cfg.passStep pass s = some (.again s')) :
    s.writes ⊆ s'.writes ∧ (pass ≠ .replay → s'.writes = s.writes) ∧ s'.nextLogBlock < cfg.jLast ∧
      ((∀ w ∈ s'.writes, cfg.inLog w.1 = none) → GoesOn cfg s s') := by
  have hn := hc.block
  have hstop : ¬ Stops pass s := fun h => by
    rw [passStep_of_stops h] at hs
    cases hs
  rw [passStep_eq (by omega) hc.readable hpos hstop] at hs
  have hk := (@tagOffsets_length n cfg (s.disk.log s.nextLogBlock)).trans_lt hc.room
  have hwrap := wrap_lt hpos
  cases hkind : kindOf (s.disk.log s.nextLogBlock) s.nextCommitId with
  | descriptor =>
    have hnext : cfg.walkNext s.disk.log (s.nextLogBlock, s.nextCommitId) =
        some (cfg.wrap (cfg.wrap (s.nextLogBlock + 1) +
          (cfg.tagOffsets (s.disk.log s.nextLogBlock)).length), s.nextCommitId) := by
      simp only [walkNext, hkind]
    simp only [hkind, hc.plain.descriptorStep] at hs
    -- the blocks of the descriptor block are skipped, or replayed one by one
    split_ifs at hs with hrep
    · obtain ⟨t, ht, heq⟩ := map_eq_some_iff.mp hs
      cases heq
      refine ⟨cfg.replayTags_writes (s := cfg.visit s) (by omega) ht, fun h => absurd hrep h,
        replayTags_pos (by omega) (s := cfg.visit s) hwrap ht, fun hclean => ?_⟩
      obtain ⟨hfold, hlog⟩ := cfg.replayTags_clean (by omega) ht hclean
      obtain ⟨h1, h2, h3, h4⟩ := @replayRounds_frame n cfg (s.disk.log s.nextLogBlock)
        (cfg.tagOffsets (s.disk.log s.nextLogBlock)) (cfg.visit s)
      have hfold : s' = (cfg.tagOffsets (s.disk.log s.nextLogBlock)).foldl
        (fun t o => cfg.replayRound (s.disk.log s.nextLogBlock) o t) (cfg.visit s) := hfold
      rw [← hfold] at h1 h2 h3 h4
      refine ⟨hnext.trans ?_, h2, h3, hlog⟩
      rw [h4.trans (wrap_iterate hwrap hk), h1]
      rfl
    · cases hs
      refine ⟨List.Subset.refl _, fun _ => rfl, ?_, fun _ => ⟨hnext, rfl, rfl, rfl⟩⟩
      change cfg.wrap (cfg.wrap (s.nextLogBlock + 1) + _) < _
      rw [wrap]
      split_ifs <;> omega
  | commit =>
    simp only [hkind, hc.plain.commitStep] at hs
    cases hs
    refine ⟨List.Subset.refl _, fun _ => rfl, hwrap, fun _ => ⟨?_, rfl, rfl, rfl⟩⟩
    simp only [walkNext, hkind]
    rfl
  | revoke =>
    have hnext : cfg.walkNext s.disk.log (s.nextLogBlock, s.nextCommitId) =
        some (cfg.wrap (s.nextLogBlock + 1), s.nextCommitId) := by
      simp only [walkNext, hkind]
    simp only [hkind, cfg.scanRevokeRecords_eq hn] at hs
    split_ifs at hs <;> cases hs <;>
      exact ⟨List.Subset.refl _, fun _ => rfl, hwrap, fun _ => ⟨hnext, rfl, rfl, rfl⟩⟩
  | other =>
    simp only [hkind] at hs
    cases hs

theorem passStep_done (hc : cfg.Comparable n) (hpos : s.nextLogBlock < cfg.jLast)
    (hstop : ¬ Stops pass s) (hs : cfg.passStep pass s = some (.done s')) :
    s' = cfg.visit s ∧ cfg.walkNext s.disk.log (s.nextLogBlock, s.nextCommitId) = none := by
  have hn := hc.block
  rw [passStep_eq (by omega) hc.readable hpos hstop] at hs
  cases hkind : kindOf (s.disk.log s.nextLogBlock) s.nextCommitId with
  | descriptor =>
    simp only [hkind, hc.plain.descriptorStep] at hs
    split_ifs at hs
    · obtain ⟨t, -, heq⟩ := map_eq_some_iff.mp hs
      cases heq
    · cases hs
  | commit =>
    simp only [hkind, hc.plain.commitStep] at hs
    cases hs
  | revoke =>
    simp only [hkind, cfg.scanRevokeRecords_eq hn] at hs
    split_ifs at hs <;> cases hs
  | other =>
    simp only [hkind] at hs
    cases hs
    refine ⟨rfl, ?_⟩
    simp only [walkNext, hkind]

structure Walked (cfg : RecoveryConfig) (pass : Pass) (s s' : PassState n) : Prop where
  walk : ∃ l w, cfg.Walk s.disk.log (s.nextLogBlock, s.nextCommitId) l w ∧
    (∀ v ∈ l, pass ≠ .scan → tidGeq v.2 s.info.endTransaction = false) ∧
    s'.nextCommitId = w.2 ∧
    (pass ≠ .scan ∧ tidGeq w.2 s.info.endTransaction = true ∧ s'.visited = s.visited ++ l ∨
      (pass ≠ .scan → tidGeq w.2 s.info.endTransaction = false) ∧
        cfg.walkNext s.disk.log w = none ∧ s'.visited = s.visited ++ (l ++ [w]))
  endTransaction : s'.info.endTransaction = s.info.endTransaction
  log : s'.disk.log = s.disk.log

theorem passLoop_walked (hc : cfg.Comparable n) (hpos : s.nextLogBlock < cfg.jLast)
    (hs : cfg.passLoop pass rounds s = some (none, s')) :
    s.writes ⊆ s'.writes ∧ (pass ≠ .replay → s'.writes = s.writes) ∧
      ((∀ w ∈ s'.writes, cfg.inLog w.1 = none) → cfg.Walked pass s s') := by
  induction rounds generalizing s with
  | zero => cases hs
  | succ _ ih =>
    rw [passLoop] at hs
    obtain ⟨r, hr, hs⟩ := bind_eq_some_iff.mp hs
    cases r with
    | failed => cases hs
    | done =>
      cases hs
      by_cases hstop : Stops pass s
      · rw [passStep_of_stops hstop] at hr
        cases hr
        refine ⟨List.Subset.refl _, fun _ => rfl,
          fun _ => ⟨⟨[], _, .nil _, (by simp), rfl, .inl ?_⟩, rfl, rfl⟩⟩
        exact ⟨hstop.1, hstop.2, by simp⟩
      · obtain ⟨rfl, hnone⟩ := passStep_done hc hpos hstop hr
        refine ⟨List.Subset.refl _, fun _ => rfl,
          fun _ => ⟨⟨[], _, .nil _, (by simp), rfl, .inr ?_⟩, rfl, rfl⟩⟩
        exact ⟨fun hp => Bool.eq_false_iff.mpr fun h => hstop ⟨hp, h⟩, hnone, rfl⟩
    | again =>
      have hstop : ¬ Stops pass s := fun h => by
        rw [passStep_of_stops h] at hr
        cases hr
      obtain ⟨hw1, hsame1, hpos1, hon⟩ := passStep_again hc hpos hr
      obtain ⟨hw2, hsame2, hrest⟩ := ih hpos1 hs
      refine ⟨List.Subset.trans hw1 hw2, fun h => (hsame2 h).trans (hsame1 h), fun hclean => ?_⟩
      have hg := hon fun w hw => hclean w (hw2 hw)
      obtain ⟨⟨l, w, hwalk, hl, hid, hend⟩, he, hlog⟩ := hrest hclean
      rw [hg.log] at hwalk hend hlog
      rw [hg.endTransaction] at hl hend he
      rw [hg.visited] at hend
      refine ⟨⟨_ :: l, w, .cons hg.next hwalk, fun v hv hp => ?_, hid, ?_⟩, he, hlog⟩
      · rcases List.mem_cons.mp hv with rfl | hv
        · exact Bool.eq_false_iff.mpr fun h => hstop ⟨hp, h⟩
        · exact hl v hv hp
      · simpa using hend

end RecoveryConfig

end VMsep.Jbd2
