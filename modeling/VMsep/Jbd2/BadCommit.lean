import VMsep.Jbd2.RecoveryRestart

/-! `info->end_transaction` is both the mark that a commit record has failed its checksum and the
limit of the later passes. A second bad record moves the limit up. -/

namespace VMsep.Jbd2

open Lib RecoveryConfig LogFormat Option List

variable {n : ℕ}

namespace RecoveryConfig

variable (cfg : RecoveryConfig)

def states (pass : Pass) : ℕ → PassState n → List (PassState n)
  | 0, _ => []
  | rounds + 1, s =>
    s :: match cfg.passStep pass s with
      | some (.again t) => states pass rounds t
      | _ => []

def failsTest (b : Block n) (s : PassState n) : Bool :=
  if cfg.checksum then s.info.endTransaction == 0 && chksumErr b s.crc32Sum == some true
  else cfg.commitBlockCsumVerify b == some false

def badCommit (s : PassState n) : Bool :=
  match cfg.jread s.disk s.nextLogBlock with
  | .error _ => false
  | .ok b =>
    match kindOf b s.nextCommitId with
    | .commit => cfg.failsTest b s
    | _ => false

/-- The transactions whose commit blocks fail in the first pass, in the order of the log. -/
def badTids (rounds : ℕ) (s : PassState n) : List Tid :=
  ((cfg.states .scan rounds s).filter cfg.badCommit).map (·.nextCommitId)

def roundWrites (s : PassState n) : List (BitVec 64 × Block n) :=
  match cfg.passStep .replay s with
  | none => []
  | some r => (stateOf r).writes.drop s.writes.length

variable {cfg} {pass : Pass} {s s' : PassState n} {r : PassStep n} {b : Block n} {c : Tid}
  {pos rounds : ℕ} {e : Option LogErrno}

theorem replayTags_ids (hn : 12 ≤ n) {tagp : ℕ} (h : cfg.replayTags pos rounds tagp s = some s') :
    s'.info.endTransaction = s.info.endTransaction ∧ s'.nextCommitId = s.nextCommitId := by
  induction rounds generalizing tagp s with
  | zero => cases h
  | succ _ ih =>
    have hframe := @replayRounds_frame n cfg (s.disk.log pos) [tagp] s
    rw [replayTags_succ cfg hn] at h
    dsimp only at h
    split_ifs at h
    · cases h
      exact ⟨hframe.2.2.1, hframe.1⟩
    · obtain ⟨h1, h2⟩ := ih h
      exact ⟨h1.trans hframe.2.2.1, h2.trans hframe.1⟩
    · cases h
      exact ⟨rfl, rfl⟩

theorem descriptorStep_ids (hn : 12 ≤ n) (h : cfg.descriptorStep pass pos b s = some r) :
    (stateOf r).info.endTransaction = s.info.endTransaction ∧
      (stateOf r).nextCommitId = s.nextCommitId := by
  obtain ⟨ok, -, h⟩ := bind_eq_some_iff.mp h
  cases ok with
  | false =>
    cases h
    exact ⟨rfl, rfl⟩
  | true =>
    simp only [Bool.not_true, Bool.false_eq_true, if_false] at h
    cases pass with
    | replay =>
      obtain ⟨t, ht, rfl⟩ := map_eq_some_iff.mp h
      exact replayTags_ids hn ht
    | scan =>
      simp only at h
      split_ifs at h
      · obtain ⟨t, ht, rfl⟩ := map_eq_some_iff.mp h
        obtain ⟨nr, -, ht⟩ := bind_eq_some_iff.mp ht
        cases ht
        exact ⟨rfl, rfl⟩
      · obtain ⟨nr, -, rfl⟩ := map_eq_some_iff.mp h
        exact ⟨rfl, rfl⟩
    | revoke =>
      obtain ⟨nr, -, rfl⟩ := map_eq_some_iff.mp h
      exact ⟨rfl, rfl⟩

theorem commitCsum_endTransaction (h : cfg.commitCsum b s = some r) :
    (stateOf r).info.endTransaction =
      if cfg.commitBlockCsumVerify b = some false then s.nextCommitId
      else s.info.endTransaction := by
  obtain ⟨ok, hok, h⟩ := bind_eq_some_iff.mp h
  rw [hok]
  cases ok with
  | true =>
    cases h
    rfl
  | false =>
    simp only [Bool.false_eq_true, if_false] at h
    split_ifs at h <;> cases h <;> rfl

theorem commitStep_endTransaction (h : cfg.commitStep .scan b s = some r) :
    (stateOf r).info.endTransaction =
      if cfg.failsTest b s then s.nextCommitId else s.info.endTransaction := by
  unfold commitStep at h
  unfold failsTest
  by_cases hv1 : cfg.checksum = true
  · have hcsum : cfg.hasCsumV2or3 = false := by
      have := cfg.v1OrLater
      unfold hasCsumV2or3
      cases h2 : cfg.csum2 <;> cases h3 : cfg.csum3 <;> simp_all
    have hverify : cfg.commitBlockCsumVerify b = some true := by
      rw [commitBlockCsumVerify, hcsum]
      rfl
    simp only [hv1, if_true] at h ⊢
    by_cases hend : s.info.endTransaction = 0
    · rw [if_neg (by simpa using hend)] at h
      obtain ⟨err, herr, h⟩ := bind_eq_some_iff.mp h
      simp only [hend, herr, beq_self_eq_true, Bool.true_and]
      cases err with
      | true =>
        simp only [if_true] at h
        split_ifs at h
        · rw [commitCsum_endTransaction h, hverify]
          rfl
        · cases h
          rfl
      | false =>
        rw [commitCsum_endTransaction h, hverify]
        exact hend
    · rw [if_pos hend] at h
      cases h
      have hno : (s.info.endTransaction == 0) = false := by simpa using hend
      rw [hno, Bool.false_and]
      rfl
  · simp only [hv1, Bool.false_eq_true, if_false] at h ⊢
    rw [commitCsum_endTransaction h]
    simp only [beq_iff_eq]

theorem scanStep_endTransaction (hn : 12 ≤ n) (h : cfg.passStep .scan s = some r) :
    (stateOf r).info.endTransaction =
      if cfg.badCommit s then s.nextCommitId else s.info.endTransaction := by
  unfold passStep at h
  rw [if_neg fun hs => hs.1 rfl] at h
  cases hread : cfg.jread s.disk s.nextLogBlock with
  | error =>
    have hgood : cfg.badCommit s = false := by rw [badCommit, hread]
    rw [hread] at h
    cases h
    rw [hgood]
    rfl
  | ok b =>
    rw [hread] at h
    dsimp only at h
    rw [headerStep_eq hn] at h
    cases hk : kindOf b s.nextCommitId with
    | other | revoke =>
      have hgood : cfg.badCommit s = false := by rw [badCommit, hread]; simp only [hk]
      rw [hk] at h
      cases h
      rw [hgood]
      rfl
    | commit =>
      have htest : cfg.badCommit s = cfg.failsTest b s := by rw [badCommit, hread]; simp only [hk]
      rw [hk] at h
      rw [htest]
      exact commitStep_endTransaction (s := cfg.visit s) h
    | descriptor =>
      have hgood : cfg.badCommit s = false := by rw [badCommit, hread]; simp only [hk]
      rw [hk] at h
      rw [hgood]
      exact (descriptorStep_ids (s := cfg.visit s) hn h).1

theorem scanLoop_endTransaction (hn : 12 ≤ n) (h : cfg.passLoop .scan rounds s = some (e, s')) :
    s'.info.endTransaction = (cfg.badTids rounds s).getLast?.getD s.info.endTransaction := by
  induction rounds generalizing s with
  | zero => cases h
  | succ rounds ih =>
    rw [passLoop] at h
    obtain ⟨r, hr, h⟩ := bind_eq_some_iff.mp h
    have hend := scanStep_endTransaction hn hr
    have hcons : ∀ l : List (PassState n), (((s :: l).filter cfg.badCommit).map
        (·.nextCommitId)).getLast?.getD s.info.endTransaction =
          ((l.filter cfg.badCommit).map (·.nextCommitId)).getLast?.getD
            (stateOf r).info.endTransaction := by
      intro l
      rw [hend, filter_cons]
      split_ifs with hb
      · rw [map_cons, getLast?_cons]
        rfl
      · rfl
    rw [badTids, states, hr, hcons]
    cases r with
    | done | failed =>
      cases h
      rfl
    | again => exact ih h

theorem laterStep_ids (hn : 16 ≤ n) (hpass : pass ≠ .scan) (h : cfg.passStep pass s = some r) :
    (stateOf r).info.endTransaction = s.info.endTransaction ∧
      ((stateOf r).nextCommitId = s.nextCommitId ∨
        (stateOf r).nextCommitId = s.nextCommitId + 1) := by
  unfold passStep at h
  split_ifs at h
  · cases h
    exact ⟨rfl, .inl rfl⟩
  cases hread : cfg.jread s.disk s.nextLogBlock with
  | error =>
    rw [hread] at h
    cases h
    exact ⟨rfl, .inl rfl⟩
  | ok b =>
    rw [hread] at h
    dsimp only at h
    rw [headerStep_eq (by omega)] at h
    cases hk : kindOf b s.nextCommitId with
    | other =>
      rw [hk] at h
      cases h
      exact ⟨rfl, .inl rfl⟩
    | revoke =>
      rw [hk] at h
      rw [cfg.scanRevokeRecords_eq hn] at h
      split_ifs at h <;> cases h <;> exact ⟨rfl, .inl rfl⟩
    | commit =>
      rw [hk] at h
      cases pass with
      | scan => exact absurd rfl hpass
      | revoke | replay =>
        cases h
        exact ⟨rfl, .inr rfl⟩
    | descriptor =>
      rw [hk] at h
      obtain ⟨h1, h2⟩ := descriptorStep_ids (s := cfg.visit s) (by omega) h
      exact ⟨h1, .inl h2⟩

theorem laterLoop_endTransaction (hn : 16 ≤ n) (hpass : pass ≠ .scan)
    (h : cfg.passLoop pass rounds s = some (e, s')) :
    s'.info.endTransaction = s.info.endTransaction := by
  induction rounds generalizing s with
  | zero => cases h
  | succ _ ih =>
    rw [passLoop] at h
    obtain ⟨r, hr, h⟩ := bind_eq_some_iff.mp h
    have hend := (laterStep_ids hn hpass hr).1
    cases r with
    | done | failed =>
      cases h
      exact hend
    | again => exact (ih h).trans hend

theorem laterStates_distance (hn : 16 ≤ n) (hpass : pass ≠ .scan) (hend : s.info.endTransaction = c)
    {t : PassState n} (ht : t ∈ cfg.states pass rounds s) : t.info.endTransaction = c ∧
      (distance c t.nextCommitId ≤ distance c s.nextCommitId ∨ Stops pass t) := by
  induction rounds generalizing s with
  | zero => cases ht
  | succ _ ih =>
    rw [states] at ht
    rcases mem_cons.mp ht with rfl | ht
    · exact ⟨hend, .inl (Nat.le_refl _)⟩
    cases hr : cfg.passStep pass s with
    | none =>
      rw [hr] at ht
      cases ht
    | some r =>
      rw [hr] at ht
      cases r with
      | done | failed => cases ht
      | again =>
        obtain ⟨hend', hid⟩ := laterStep_ids hn hpass hr
        obtain ⟨h1, h2⟩ := ih (hend'.trans hend) ht
        refine ⟨h1, h2.imp_left fun hle => hle.trans ?_⟩
        rcases hid with hid | hid
        · exact Nat.le_of_eq (congrArg (distance c) hid)
        -- the pass does not go on at the end itself
        have hne : distance c s.nextCommitId ≠ 0 := by
          intro h0
          have hstop : Stops pass s := ⟨hpass, by rw [hend]; exact tidGeq_iff.mpr (.inl h0)⟩
          rw [passStep_of_stops hstop] at hr
          cases hr
        have hsucc := distance_succ hne
        rw [hid]
        omega

/-- The limit of the later passes is the first bad commit record, just when the last bad one is of
the same transaction; as the id 0 also means that none is bad, the scan has to end there then. With
this limit nothing at or after the first bad record is replayed: the last pass writes only in rounds
with ids from the first one of the log up to, and without, the bad one. -/
theorem bad_commit_not_replayed (cfg : RecoveryConfig) (hn : 16 ≤ n) (d : LogDisk n)
    {scanRounds revokeRounds : ℕ} {s₁ s₂ : PassState n}
    (hscan : cfg.doOnePass scanRounds .scan (infoStart d) = some (none, s₁))
    (hrevoke : cfg.doOnePass revokeRounds .revoke s₁ = some (none, s₂))
    (hc : (cfg.badTids scanRounds (cfg.passStart .scan (infoStart d))).head? = some c) :
    let last := (cfg.badTids scanRounds (cfg.passStart .scan (infoStart d))).getLast?
    (s₁.info.endTransaction = c ↔
        last = some c ∧ c ≠ 0 ∨ last = some 0 ∧ s₁.nextCommitId = c) ∧
      (s₁.info.endTransaction = c → ∀ replayRounds,
        ∀ t ∈ cfg.states .replay replayRounds (cfg.passStart .replay s₂), cfg.roundWrites t ≠ [] →
          distance c t.nextCommitId ≠ 0 ∧
            distance c t.nextCommitId ≤ distance c cfg.sSequence) := by
  dsimp only
  constructor
  · obtain ⟨⟨e, f⟩, hloop, heq⟩ := map_eq_some_iff.mp hscan
    have hf := scanLoop_endTransaction (by omega) hloop
    obtain ⟨last, hlast⟩ : ∃ last, (cfg.badTids scanRounds
        (cfg.passStart .scan (infoStart d))).getLast? = some last := by
      rw [← isSome_iff_exists, getLast?_isSome]
      rintro hnil
      rw [hnil] at hc
      cases hc
    rw [hlast] at hf ⊢
    cases e with
    | some => cases heq
    | none =>
      have hdone : passDone .scan f = (none, s₁) := heq
      obtain ⟨-, -, -, hid, -, hinfo⟩ := passDone_frame .scan f
      rw [hdone] at hid hinfo
      dsimp only at hid hinfo
      rw [hinfo, hid, hf, getD_some, some.injEq, some.injEq]
      by_cases h0 : last = 0
      · subst h0
        rw [if_pos ⟨rfl, rfl⟩]
        refine ⟨fun h => .inr ⟨rfl, h⟩, ?_⟩
        rintro (⟨h, hc⟩ | ⟨-, h⟩)
        · exact absurd h.symm hc
        · exact h
      · simp only [h0, and_false, if_false, false_and, or_false]
        refine ⟨fun h => ⟨h, h ▸ h0⟩, And.left⟩
  · intro hend₁
    have hend₂ : s₂.info.endTransaction = c := by
      obtain ⟨⟨e, f⟩, hloop, heq⟩ := map_eq_some_iff.mp hrevoke
      have hf := (laterLoop_endTransaction hn (by decide) hloop).trans hend₁
      cases e with
      | some => cases heq
      | none =>
        have hdone : passDone .revoke f = (none, s₂) := heq
        have hinfo := (passDone_frame .revoke f).2.2.2.2.2
        rwa [hdone, hf, if_neg fun h => absurd h.1 (by decide)] at hinfo
    intro replayRounds t ht hwrites
    have hpass : Pass.replay ≠ .scan := by decide
    obtain ⟨hend, hdist⟩ := laterStates_distance (s := cfg.passStart .replay s₂) hn hpass
      hend₂ ht
    have hgo : ¬ Stops .replay t := by
      intro hstop
      refine hwrites ?_
      rw [roundWrites, passStep_of_stops hstop]
      exact drop_length
    refine ⟨?_, hdist.resolve_right hgo⟩
    intro h0
    exact hgo ⟨hpass, by rw [hend]; exact tidGeq_iff.mpr (.inl h0)⟩

end RecoveryConfig

def asyncConfig : RecoveryConfig :=
  { plainConfig 1 sampleArea with
    csum3 := true, asyncCommit := true
    v2orV3 := fun h => Bool.false_ne_true h.1
    v1OrLater := fun h => Bool.false_ne_true h.2 }

/-- A descriptor block of transaction 7 for block 5, the block, and commit records of the
transactions from 7 on with checksums in them. -/
def commitsLog (chksums : List ℕ) : LogDisk 1024 where
  log p :=
    if p = 1 then
      ((header descriptorBlock 7).put 12 4 5).put 18 2
        (flagSameUuid + flagLastTag)
    else if p = 2 then Block.zero
    else
      match chksums[p - 3]? with
      | none => Block.zero
      | some chksum =>
        (header commitBlock (BitVec.ofNat 32 (p + 4))).put 16 4 chksum
  home _ := Block.zero

def badAndReplayed (cfg : RecoveryConfig) (d : LogDisk n) :
    Option (List Tid × List (Tid × List (BitVec 64))) :=
  (cfg.doOnePass 9 .scan (infoStart d)).bind fun s₁ =>
    (cfg.doOnePass 9 .revoke s₁.2).map fun s₂ =>
      (cfg.badTids 9 (cfg.passStart .scan (infoStart d)),
        ((cfg.states .replay 9 (cfg.passStart .replay s₂.2)).filter
          fun t => !(cfg.roundWrites t).isEmpty).map
            fun t => (t.nextCommitId, (cfg.roundWrites t).map (·.1)))

/-- With bad commit records of the transactions 7 and 8, transaction 7 is replayed. -/
theorem bad_commits_replayed :
    badAndReplayed asyncConfig (commitsLog [1, 1]) = some ([7, 8], [(7, [5])]) := by
  decide +kernel

/-- With a good record of transaction 7 and a bad one of transaction 8, only transaction 7 is
replayed. -/
theorem bad_commit_not_replayed_second :
    ∃ s₁ s₂ : PassState 1024,
      asyncConfig.doOnePass 9 .scan (infoStart (commitsLog [0, 1])) =
        some (none, s₁) ∧ asyncConfig.doOnePass 9 .revoke s₁ = some (none, s₂) ∧
      ∀ t ∈ asyncConfig.states .replay 9 (asyncConfig.passStart .replay s₂),
        asyncConfig.roundWrites t ≠ [] → distance 8 t.nextCommitId ≠ 0 := by
  have hrun : ((asyncConfig.doOnePass 9 .scan (infoStart (commitsLog [0, 1]))).bind
      fun s₁ => (asyncConfig.doOnePass 9 .revoke s₁.2).map fun s₂ => (s₁.1, s₂.1)) =
        some (none, none) := by decide +kernel
  obtain ⟨⟨e₁, s₁⟩, hscan, h⟩ := bind_eq_some_iff.mp hrun
  obtain ⟨⟨e₂, s₂⟩, hrevoke, h⟩ := map_eq_some_iff.mp h
  obtain ⟨rfl, rfl⟩ := Prod.mk.inj h
  have hbad : asyncConfig.badTids 9 (asyncConfig.passStart .scan
      (infoStart (commitsLog [0, 1]))) = [8] := by decide +kernel
  obtain ⟨hlimit, hreplay⟩ := bad_commit_not_replayed asyncConfig (by decide) _ hscan hrevoke
    (by rw [hbad]; rfl)
  exact ⟨s₁, s₂, hscan, hrevoke, fun u hu hw =>
    (hreplay (hlimit.mpr (.inl ⟨by rw [hbad]; rfl, by decide⟩)) 9 u hu hw).1⟩

end VMsep.Jbd2
