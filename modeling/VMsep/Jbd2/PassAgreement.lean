import VMsep.Jbd2.RecoveryWalk

/-! The second and third pass visit the headers of the first one up to the end that it found, if the
log has no more than half of all ids and no block of it is written. -/

namespace VMsep.Jbd2

open Lib RecoveryConfig Option

variable {n : ℕ}

namespace RecoveryConfig

variable {cfg : RecoveryConfig}

theorem passDone_frame (pass : Pass) (t : PassState n) : let s := (passDone pass t).2
    s.disk = t.disk ∧ s.visited = t.visited ∧ s.writes = t.writes ∧
      s.nextCommitId = t.nextCommitId ∧ s.jRevoke = t.jRevoke ∧
      s.info.endTransaction = if pass = .scan ∧ t.info.endTransaction = 0 then t.nextCommitId
        else t.info.endTransaction := by
  by_cases hp : pass = .scan
  · simp only [passDone, hp, if_true, true_and]
    split_ifs <;> exact ⟨rfl, rfl, rfl, rfl, rfl, rfl⟩
  · simp only [passDone, hp, if_false, false_and]
    split_ifs <;> exact ⟨rfl, rfl, rfl, rfl, rfl, rfl⟩

theorem scan_walked (hc : cfg.Comparable n) (hstart : cfg.sStart < cfg.jLast) {d : LogDisk n}
    {rounds : ℕ} {s : PassState n}
    (hs : cfg.doOnePass rounds .scan (infoStart d) = some (none, s)) :
    s.disk.log = d.log ∧ s.writes = [] ∧
      ∃ l w, cfg.Walk d.log (cfg.sStart, cfg.sSequence) l w ∧ cfg.walkNext d.log w = none ∧
        w.2 = s.info.endTransaction ∧ s.visited = l ++ [w] := by
  obtain ⟨⟨e, t⟩, ht, hend⟩ := map_eq_some_iff.mp hs
  cases e with
  | some => cases hend
  | none =>
    obtain ⟨-, hwrites, hwalked⟩ := passLoop_walked hc (s := cfg.passStart .scan (infoStart d))
      hstart ht
    have hw : t.writes = [] := hwrites (by simp)
    obtain ⟨⟨l, w, hwalk, -, hid, hcase⟩, he, hlog⟩ := hwalked (by rw [hw]; simp)
    have he : t.info.endTransaction = 0 := he
    have hlog : t.disk.log = d.log := hlog
    obtain ⟨-, hnone, hvis⟩ := hcase.resolve_left fun h => h.1 rfl
    obtain ⟨hd, hv, hws, -, -, hes⟩ := passDone_frame .scan t
    have hend : passDone .scan t = (none, s) := hend
    rw [hend] at hd hv hws hes
    rw [if_pos ⟨rfl, he⟩, hid] at hes
    refine ⟨?_, hws.trans hw, l, w, hwalk, hnone, hes.symm, hv.trans hvis⟩
    rw [show s.disk = t.disk from hd, hlog]

theorem later_walked (hc : cfg.Comparable n) (hstart : cfg.sStart < cfg.jLast) {pass : Pass}
    (hpass : pass ≠ .scan) {rounds : ℕ} {log : ℕ → Block n} {l : List (ℕ × Tid)} {w : ℕ × Tid}
    {s s' : PassState n} (hlog : s.disk.log = log)
    (hwalk : cfg.Walk log (cfg.sStart, cfg.sSequence) l w) (hend : cfg.walkNext log w = none)
    (hw : w.2 = s.info.endTransaction)
    (hcount : (s.info.endTransaction - cfg.sSequence).toNat ≤ 2 ^ 31)
    (hs : cfg.passLoop pass rounds (cfg.passStart pass s) = some (none, s'))
    (hclean : ∀ v ∈ s'.writes, cfg.inLog v.1 = none) : s'.nextCommitId = s.info.endTransaction ∧
      s'.visited = (l ++ [w]).takeWhile (fun v => v.2 ≠ s.info.endTransaction) ∧
      s'.disk.log = log ∧ s'.info.endTransaction = s.info.endTransaction := by
  have hinfo : (cfg.passStart pass s).info = s.info := if_neg hpass
  obtain ⟨-, -, hwalked⟩ := passLoop_walked hc (s := cfg.passStart pass s) hstart hs
  obtain ⟨⟨l', w', hwalk', hl, hid, hcase⟩, he, hlog'⟩ := hwalked hclean
  rw [hinfo] at hl hcase he
  change cfg.Walk s.disk.log (cfg.sStart, cfg.sSequence) l' w' at hwalk'
  rw [hlog] at hwalk'
  obtain ⟨hid', htake⟩ := hwalk.takeWhile hend hw hcount hwalk' (fun v hv => hl v hv hpass)
    (hcase.imp (fun h => h.2.1) fun h => hlog ▸ h.2.1)
  refine ⟨hid.trans hid', ?_, hlog'.trans hlog, he⟩
  rcases hcase with ⟨-, -, hvis⟩ | ⟨hlt, -, -⟩
  · rw [htake]
    exact hvis
  · have hge := tidGeq_iff.mpr (.inl (distance_eq_zero.mpr hid'))
    exact absurd (hge.symm.trans (hlt hpass)) (by simp)

end RecoveryConfig

/-- The second and third pass, when they return without an error, have visited the headers that the
first one visited before the end of the log, and stop at the transaction where it stopped. -/
theorem passes_agree (cfg : RecoveryConfig) (hc : cfg.Comparable n)
    (hstart : cfg.sStart < cfg.jLast) (d : LogDisk n) (rounds1 : ℕ) (s1 : PassState n)
    (hscan : cfg.doOnePass rounds1 .scan (infoStart d) = some (none, s1))
    (hcount : (s1.info.endTransaction - cfg.sSequence).toNat ≤ 2 ^ 31) :
    let e := s1.info.endTransaction
    (∀ rounds2 s2, cfg.passLoop .revoke rounds2 (cfg.passStart .revoke s1) = some (none, s2) →
      s2.nextCommitId = e ∧ s2.visited = s1.visited.takeWhile fun v => v.2 ≠ e) ∧
    ∀ rounds2 s2 rounds3 s3, cfg.doOnePass rounds2 .revoke s1 = some (none, s2) →
      cfg.passLoop .replay rounds3 (cfg.passStart .replay s2) = some (none, s3) →
      (∀ v ∈ s3.writes, cfg.inLog v.1 = none) →
      s3.nextCommitId = e ∧ s3.visited = s1.visited.takeWhile fun v => v.2 ≠ e := by
  obtain ⟨hlog, hw1, l, w, hwalk, hend, hw, hvis⟩ := scan_walked hc hstart hscan
  have hrevoke : ∀ rounds2 s2,
      cfg.passLoop .revoke rounds2 (cfg.passStart .revoke s1) = some (none, s2) →
      s2.writes = [] ∧ s2.nextCommitId = s1.info.endTransaction ∧
        s2.visited = s1.visited.takeWhile (fun v => v.2 ≠ s1.info.endTransaction) ∧
        s2.disk.log = d.log ∧ s2.info.endTransaction = s1.info.endTransaction := by
    intro rounds2 s2 hs2
    have hw2 : s2.writes = [] :=
      ((passLoop_walked hc (s := cfg.passStart .revoke s1) hstart hs2).2.1
        (by simp)).trans hw1
    rw [hvis]
    exact ⟨hw2, later_walked hc hstart (by decide) hlog hwalk hend hw hcount hs2
      (by rw [hw2]; simp)⟩
  refine ⟨fun rounds2 s2 hs2 => ?_, fun rounds2 s2 rounds3 s3 hs2 hs3 hclean => ?_⟩
  · obtain ⟨-, hid, hv, -⟩ := hrevoke rounds2 s2 hs2
    exact ⟨hid, hv⟩
  obtain ⟨⟨e, t⟩, ht, hdone⟩ := map_eq_some_iff.mp hs2
  cases e with
  | some => cases hdone
  | none =>
    obtain ⟨-, -, -, hlog2, he2⟩ := hrevoke rounds2 t ht
    obtain ⟨hd, -, -, -, -, hes⟩ := passDone_frame .revoke t
    have hdone : passDone .revoke t = (none, s2) := hdone
    rw [hdone] at hd hes
    have hes : s2.info.endTransaction = s1.info.endTransaction := hes.trans he2
    have hd : s2.disk.log = d.log := (congrArg LogDisk.log hd).trans hlog2
    obtain ⟨hid, hv, -⟩ := later_walked hc hstart (by decide) hd hwalk hend
      (hw.trans hes.symm) (by rw [hes]; exact hcount) hs3 hclean
    rw [hes] at hid hv
    rw [hvis]
    exact ⟨hid, hv⟩

namespace RecoveryConfig

variable {cfg : RecoveryConfig}

theorem scan_of_walk (hc : cfg.Comparable n) {log : ℕ → Block n} {w e : ℕ × Tid}
    {l : List (ℕ × Tid)} (hwalk : cfg.Walk log w l e) (hend : cfg.walkNext log e = none)
    {s : PassState n} (hlog : s.disk.log = log) (hw : (s.nextLogBlock, s.nextCommitId) = w)
    (hpos : s.nextLogBlock < cfg.jLast) (hclean : s.writes = []) :
    ∃ s', cfg.passLoop .scan (l.length + 1) s = some (none, s') ∧ s'.nextCommitId = e.2 ∧
      s'.info = s.info ∧ s'.success = s.success ∧ s'.blockError = s.blockError := by
  have hn := hc.block
  have hstop : ∀ t : PassState n, ¬ Stops .scan t := fun t h => h.1 rfl
  induction hwalk generalizing s with
  | nil =>
    refine ⟨cfg.visit s, ?_, congrArg Prod.snd hw, rfl, rfl, rfl⟩
    rw [passLoop, passStep_eq (by omega) hc.readable hpos (hstop s)]
    rw [← hw, walkNext, ← hlog] at hend
    cases hkind : kindOf (s.disk.log s.nextLogBlock) s.nextCommitId with
    | other =>
      simp only [hkind]
      rfl
    | _ =>
      simp only [hkind] at hend
      cases hend
  | cons hnext _ ih =>
    -- one round of the pass is one step of the walk
    have hround : ∃ t, cfg.passStep .scan s = some (.again t) ∧ t.info = s.info ∧
        t.success = s.success ∧ t.blockError = s.blockError := by
      rw [passStep_eq (by omega) hc.readable hpos (hstop s)]
      rw [← hw, walkNext, ← hlog] at hnext
      cases hkind : kindOf (s.disk.log s.nextLogBlock) s.nextCommitId with
      | descriptor =>
        simp only [hkind, hc.plain.descriptorStep]
        exact ⟨_, rfl, rfl, rfl, rfl⟩
      | commit =>
        simp only [hkind, hc.plain.commitStep]
        exact ⟨_, rfl, rfl, rfl, rfl⟩
      | revoke =>
        simp only [hkind]
        exact ⟨_, rfl, rfl, rfl, rfl⟩
      | other =>
        simp only [hkind] at hnext
        cases hnext
    obtain ⟨t, ht, hinfo, hsucc, hberr⟩ := hround
    obtain ⟨-, hsame, hpos1, hon⟩ := passStep_again hc hpos ht
    have hclean1 : t.writes = [] := (hsame (by decide)).trans hclean
    have hg := hon (by rw [hclean1]; simp)
    have hnext1 := hg.next
    rw [hw, hlog, hnext] at hnext1
    obtain ⟨s', hs', hid, hinfo', hsucc', hberr'⟩ := ih hend (hg.log.trans hlog)
      (some.inj hnext1).symm hpos1 hclean1
    refine ⟨s', ?_, hid, hinfo'.trans hinfo, hsucc'.trans hsucc, hberr'.trans hberr⟩
    rw [List.length_cons, passLoop, ht]
    exact hs'

theorem threePasses_of_past (rounds : ℕ) {d : LogDisk n} {s : PassState n}
    (hs : cfg.doOnePass (rounds + 1) .scan (infoStart d) = some (none, s))
    (hge : tidGeq cfg.sSequence s.info.endTransaction = true)
    (hne : s.info.endTransaction ≠ cfg.sSequence) : (cfg.threePasses (rounds + 1) d).map
        (fun r => (r.1, r.2.nextCommitId, r.2.info.endTransaction)) =
      some (some .eio, cfg.sSequence, s.info.endTransaction) := by
  have hinfo : (cfg.passStart .revoke s).info = s.info := rfl
  have hstop : Stops .revoke (cfg.passStart .revoke s) := by
    refine ⟨by decide, ?_⟩
    rw [hinfo]
    exact hge
  have hne' : (cfg.passStart .revoke s).info.endTransaction ≠
      (cfg.passStart .revoke s).nextCommitId := by
    rw [hinfo]
    exact hne
  have hdone : passDone .revoke (cfg.passStart .revoke s) =
      (some .eio, { cfg.passStart .revoke s with success := some .eio }) := by
    have hsucc : (cfg.passStart .revoke s).success = none := rfl
    simp only [passDone, if_neg (show Pass.revoke ≠ .scan by decide),
      if_pos (And.intro hne' hsucc)]
    simp
  have hrevoke : cfg.doOnePass (rounds + 1) .revoke s =
      some (some .eio, { cfg.passStart .revoke s with success := some .eio }) := by
    rw [doOnePass, passLoop, passStep_of_stops hstop, ← hdone]
    rfl
  rw [threePasses, hs]
  simp only [andThen, bind_some, hrevoke, map_some, hinfo]
  rfl

end RecoveryConfig

def crowdedArea : LogArea where
  jFirst := 1
  jLast := 2 ^ 31 + 3
  first_pos := Nat.one_pos
  first_lt := by decide
  last_lt := by decide

def crowdedLog : LogDisk 1024 where
  log := fun pos => LogFormat.header LogFormat.commitBlock (BitVec.ofNat 32 (pos + 6))
  home := fun _ => Block.zero

theorem plainConfig_comparable (start : ℕ) {area : LogArea} (h : 126 < area.jLast - area.jFirst) :
    (plainConfig start area).Comparable 1024 where
  block := by decide
  plain := ⟨rfl, rfl, rfl⟩
  readable := fun _ _ => rfl
  room := by
    have htag : (plainConfig start area).tagBytes = 8 := rfl
    rw [htag]
    exact h

theorem crowdedLog_kindOf (pos : ℕ) (id : Tid) : kindOf (crowdedLog.log pos) id =
    if id = BitVec.ofNat 32 (pos + 6) then .commit else .other := by
  have hat : LogFormat.HeaderAt (crowdedLog.log pos) _ _ :=
    LogFormat.headerAt_header (by decide) (by decide)
  split_ifs with hid
  · rw [hid]
    exact kindOf_commit hat
  · refine kindOf_other fun _ hseq => hid (BitVec.eq_of_toNat_eq ?_)
    rw [← hseq, hat.sequence]

theorem crowdedLog_walk (k : ℕ) (hk : k + 1 < crowdedArea.jLast) :
    ∃ l, (plainConfig 1 crowdedArea).Walk crowdedLog.log
      (crowdedArea.jLast - 1 - k, BitVec.ofNat 32 (crowdedArea.jLast + 5 - k)) l
      (1, BitVec.ofNat 32 (crowdedArea.jLast + 6)) := by
  induction k with
  | zero =>
    refine ⟨_, .cons ?_ (.nil _)⟩
    simp only [walkNext, crowdedLog_kindOf]
    rfl
  | succ k ih =>
    obtain ⟨l, hl⟩ := ih (by omega)
    refine ⟨_, .cons ?_ hl⟩
    have hid : BitVec.ofNat 32 (crowdedArea.jLast + 5 - (k + 1)) =
        BitVec.ofNat 32 (crowdedArea.jLast - 1 - (k + 1) + 6) := congrArg _ (by omega)
    have hwrap : (plainConfig 1 crowdedArea).wrap (crowdedArea.jLast - 1 - (k + 1) + 1) =
        crowdedArea.jLast - 1 - k := by
      rw [wrap, if_neg (by change ¬ crowdedArea.jLast ≤ _; omega)]
      omega
    simp only [walkNext, crowdedLog_kindOf, if_pos hid, hwrap, some.injEq, Prod.mk.injEq, true_and]
    rw [show (1 : Tid) = BitVec.ofNat 32 1 from rfl, ← BitVec.ofNat_add]
    exact congrArg _ (by omega)

theorem crowdedLog_stops : ∃ rounds, ((plainConfig 1 crowdedArea).threePasses rounds crowdedLog).map
    (fun r => (r.1, r.2.nextCommitId, r.2.info.endTransaction)) =
      some (some .eio, 7, BitVec.ofNat 32 (crowdedArea.jLast + 6)) := by
  obtain ⟨l, hl⟩ := crowdedLog_walk (crowdedArea.jLast - 2) (by decide)
  have hend : (plainConfig 1 crowdedArea).walkNext crowdedLog.log
      (1, BitVec.ofNat 32 (crowdedArea.jLast + 6)) = none := by
    simp only [walkNext, crowdedLog_kindOf]
    rfl
  obtain ⟨s, hs, hid, hinfo, hsucc, hberr⟩ := scan_of_walk
    (plainConfig_comparable 1 (by decide)) hl hend
    (s := (plainConfig 1 crowdedArea).passStart .scan (infoStart crowdedLog))
    rfl rfl (by decide) rfl
  have hend0 : s.info.endTransaction = 0 := by
    rw [hinfo]
    rfl
  have hnone : (passDone .scan s).1 = none := by
    have h1 : s.success = none := hsucc
    have h2 : s.blockError = false := hberr
    simp [passDone, hend0, h1, h2]
  have he := (passDone_frame .scan s).2.2.2.2.2
  rw [if_pos ⟨rfl, hend0⟩, hid] at he
  have hscan : (plainConfig 1 crowdedArea).doOnePass (l.length + 1) .scan
      (infoStart crowdedLog) = some (none, (passDone .scan s).2) := by
    rw [doOnePass, hs]
    exact congrArg some (Prod.ext hnone rfl)
  refine ⟨l.length + 1, ?_⟩
  rw [threePasses_of_past l.length hscan (by rw [he]; decide)
    (by rw [he]; decide), he]
  rfl

def aliasArea : LogArea where
  jFirst := 1
  jLast := 201
  first_pos := Nat.one_pos
  first_lt := by decide
  last_lt := by decide

def aliasConfig : RecoveryConfig :=
  { plainConfig 1 aliasArea with inLog := fun block => if block = 9 then some 3 else none }

def aliasLog : Option (LogDisk 1024) :=
  (writeTransaction aliasConfig.toLogFormat aliasArea 7 true { jHead := 1, jFree := 200 }
    { revoked := [], buffers := [sampleBuffer 9], inoSync := 0, sec := 0, nsec := 0 }).map
    fun w => { log := storeBlocks (fun _ => Block.zero) w.2, home := fun _ => Block.zero }

theorem passes_disagree :
    (∃ rounds, ((plainConfig 1 crowdedArea).threePasses rounds crowdedLog).map
      (fun r => (r.1, r.2.nextCommitId, r.2.info.endTransaction)) =
        some (some .eio, 7, BitVec.ofNat 32 (crowdedArea.jLast + 6))) ∧
    (aliasLog.bind fun d => (aliasConfig.threePasses 9 d).map
      fun r => (r.1, r.2.nextCommitId, r.2.info.endTransaction)) = some (some .eio, 7, 8) :=
  ⟨crowdedLog_stops, by decide +kernel⟩

def oneTransactionLog : Option (LogDisk 1024) :=
  (writeTransaction (plainConfig 1 aliasArea).toLogFormat aliasArea 7 true
    { jHead := 1, jFree := 200 }
    { revoked := [], buffers := [sampleBuffer 5], inoSync := 0, sec := 0, nsec := 0 }).map
    fun w => { log := storeBlocks (fun _ => Block.zero) w.2, home := fun _ => Block.zero }

theorem passes_agree_oneTransactionLog :
    ∃ d s1 s2 s3, oneTransactionLog = some d ∧
      (plainConfig 1 aliasArea).doOnePass 9 .scan (infoStart d) = some (none, s1) ∧
      (plainConfig 1 aliasArea).doOnePass 9 .revoke s1 = some (none, s2) ∧
      (plainConfig 1 aliasArea).passLoop .replay 9
          ((plainConfig 1 aliasArea).passStart .replay s2) =
        some (none, s3) ∧
      s3.nextCommitId = 8 ∧ s3.visited = s1.visited.takeWhile fun v => v.2 ≠ 8 := by
  have hrun : (oneTransactionLog.bind fun d =>
      ((plainConfig 1 aliasArea).doOnePass 9 .scan (infoStart d)).bind fun r1 =>
        ((plainConfig 1 aliasArea).doOnePass 9 .revoke r1.2).bind fun r2 =>
          ((plainConfig 1 aliasArea).passLoop .replay 9
            ((plainConfig 1 aliasArea).passStart .replay r2.2)).map fun r3 =>
              (r1.1, r2.1, r3.1, r1.2.info.endTransaction)) = some (none, none, none, 8) := by
    decide +kernel
  obtain ⟨d, hd, hrun⟩ := bind_eq_some_iff.mp hrun
  obtain ⟨⟨e1, s1⟩, h1, hrun⟩ := bind_eq_some_iff.mp hrun
  obtain ⟨⟨e2, s2⟩, h2, hrun⟩ := bind_eq_some_iff.mp hrun
  obtain ⟨⟨e3, s3⟩, h3, hrun⟩ := map_eq_some_iff.mp hrun
  simp only [Prod.mk.injEq] at hrun
  obtain ⟨rfl, rfl, rfl, he⟩ := hrun
  have hagree := (passes_agree (plainConfig 1 aliasArea) (plainConfig_comparable 1 (by decide))
    (by decide) d 9 s1 h1 (by rw [he]; decide)).2 9 s2 9 s3 h2 h3 fun _ _ => rfl
  rw [he] at hagree
  exact ⟨d, s1, s2, s3, hd, h1, h2, h3, hagree⟩

end VMsep.Jbd2
