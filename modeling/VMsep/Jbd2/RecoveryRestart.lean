import VMsep.Jbd2.PassAgreement

/-! Recovery writes the blocks of the file system and never reads them, so what it does depends on
the log only. -/

namespace VMsep.Jbd2

open Lib Function List Option

variable {n : ℕ} {inLog : BitVec 64 → Option ℕ} {writes : List (BitVec 64 × Block n)}
  {block : BitVec 64}

def homeAfter (inLog : BitVec 64 → Option ℕ) (home : BitVec 64 → Block n)
    (writes : List (BitVec 64 × Block n)) : BitVec 64 → Block n :=
  writes.foldl (fun h w => if inLog w.1 = none then update h w.1 w.2 else h) home

theorem homeAfter_of_mem (hlog : inLog block = none) (hmem : ∃ w ∈ writes, w.1 = block)
    (home home' : BitVec 64 → Block n) :
    homeAfter inLog home writes block = homeAfter inLog home' writes block := by
  induction writes using reverseRecOn with
  | nil => simp at hmem
  | append_singleton writes w ih =>
    simp only [homeAfter, foldl_append, foldl_cons, foldl_nil]
    by_cases hw : w.1 = block
    · rw [hw, if_pos hlog, if_pos hlog, update_self, update_self]
    have hmem' : ∃ v ∈ writes, v.1 = block := by
      obtain ⟨v, hv, hvb⟩ := hmem
      rcases mem_append.mp hv with hv | hv
      · exact ⟨v, hv, hvb⟩
      · rw [mem_singleton.mp hv] at hvb
        exact absurd hvb hw
    have hrest := ih hmem'
    unfold homeAfter at hrest
    split_ifs with hin
    · rw [update_of_ne (Ne.symm hw), update_of_ne (Ne.symm hw), hrest]
    · exact hrest

theorem homeAfter_of_not_mem (hmem : ∀ w ∈ writes, w.1 = block → inLog block ≠ none)
    (home : BitVec 64 → Block n) : homeAfter inLog home writes block = home block := by
  induction writes generalizing home with
  | nil => rfl
  | cons w _ ih =>
    rw [homeAfter, foldl_cons]
    refine (ih (fun v hv => hmem v (mem_cons_of_mem _ hv)) _).trans ?_
    split_ifs with hin
    · have hne : block ≠ w.1 := by
        intro h
        exact hmem w mem_cons_self h.symm (h ▸ hin)
      exact update_of_ne hne _ _
    · rfl

namespace PassState

/-- The same pass on a device whose blocks were `home` before recovery. -/
def rebase (inLog : BitVec 64 → Option ℕ) (home : BitVec 64 → Block n) (s : PassState n) :
    PassState n :=
  { s with disk := { s.disk with home := homeAfter inLog home s.writes } }

end PassState

def PassStep.rebase (inLog : BitVec 64 → Option ℕ) (home : BitVec 64 → Block n) :
    PassStep n → PassStep n
  | .again s => .again (s.rebase inLog home)
  | .done s => .done (s.rebase inLog home)
  | .failed e s => .failed e (s.rebase inLog home)

namespace RecoveryConfig

variable (cfg : RecoveryConfig) (home : BitVec 64 → Block n)

theorem calcChksumsLoop_congr {d d' : LogDisk n} (h : d.log = d'.log) (blocks pos : ℕ)
    (crc : BitVec 32) :
    cfg.calcChksumsLoop d blocks pos crc = cfg.calcChksumsLoop d' blocks pos crc := by
  have hread : ∀ p, cfg.jread d p = cfg.jread d' p := by
    intro p
    rw [jread, jread, h]
  induction blocks generalizing pos crc with
  | zero => rfl
  | succ _ ih =>
    simp only [calcChksumsLoop, hread, ih]

structure Keeps (s s' : PassState n) : Prop where
  writes : s.writes ⊆ s'.writes
  log : (∀ w ∈ s'.writes, cfg.inLog w.1 = none) → s'.disk.log = s.disk.log

def stateOf : PassStep n → PassState n
  | .again s | .done s | .failed _ s => s

def rebaseResult (r : Option LogErrno × PassState n) : Option LogErrno × PassState n :=
  (r.1, r.2.rebase cfg.inLog home)

/-- A part of recovery that starts in `s` and returns `o`, or `o'` on the other device: it does the
same on both, and changes the log by its writes only. -/
structure Agrees {α : Type} (re : α → α) (st : α → PassState n) (s : PassState n)
    (o o' : Option α) : Prop where
  same : o' = o.map re
  keeps : ∀ r, o = some r → cfg.Keeps s (st r)

section Parts

variable {cfg} {α β : Type} {re : α → α} {st : α → PassState n} {s s' s'' : PassState n}
  {o o' : Option α}

theorem Keeps.of_same (hw : s'.writes = s.writes) (hd : s'.disk = s.disk) : cfg.Keeps s s' :=
  ⟨by rw [hw]; exact List.Subset.refl _, fun _ => by rw [hd]⟩

theorem Keeps.trans (h : cfg.Keeps s s') (h' : cfg.Keeps s' s'') : cfg.Keeps s s'' :=
  ⟨List.Subset.trans h.writes h'.writes,
    fun hclean => (h'.log hclean).trans (h.log fun w hw => hclean w (h'.writes hw))⟩

theorem Agrees.of_same {r : α} (hw : (st r).writes = s.writes) (hd : (st r).disk = s.disk) :
    cfg.Agrees re st s (some r) (some (re r)) := by
  refine ⟨rfl, ?_⟩
  intro r' hr
  cases hr
  exact .of_same hw hd

theorem Agrees.after (h : cfg.Agrees re st s' o o') (hw : s'.writes = s.writes)
    (hd : s'.disk = s.disk) : cfg.Agrees re st s o o' :=
  ⟨h.same, fun r hr => (Keeps.of_same hw hd).trans (h.keeps r hr)⟩

theorem Agrees.ite {c : Prop} [Decidable c] {p p' : Option α} (h : cfg.Agrees re st s o o')
    (h' : cfg.Agrees re st s p p') :
    cfg.Agrees re st s (if c then o else p) (if c then o' else p') := by
  split_ifs
  · exact h
  · exact h'

theorem Agrees.read {v : Option β} {k k' : β → Option α}
    (h : ∀ b, cfg.Agrees re st s (k b) (k' b)) : cfg.Agrees re st s (v.bind k) (v.bind k') := by
  cases v with
  | none => exact ⟨rfl, fun r hr => by cases hr⟩
  | some b => exact h b

theorem Agrees.bind {re' : β → β} {st' : β → PassState n} {k : α → Option β}
    (h : cfg.Agrees re st s o o') (hk : ∀ r, cfg.Agrees re' st' (st r) (k r) (k (re r))) :
    cfg.Agrees re' st' s (o.bind k) (o'.bind k) := by
  obtain ⟨rfl, hkeeps⟩ := h
  cases o with
  | none => exact ⟨rfl, fun r hr => by cases hr⟩
  | some r => exact ⟨(hk r).same, fun r' hr' => (hkeeps r rfl).trans ((hk r).keeps r' hr')⟩

theorem Agrees.again {p p' : Option (PassState n)}
    (h : cfg.Agrees (PassState.rebase cfg.inLog home) id s p p') :
    cfg.Agrees (PassStep.rebase cfg.inLog home) stateOf s (p.map .again) (p'.map .again) := by
  rw [map_eq_bind, map_eq_bind]
  exact h.bind fun t => .of_same rfl rfl

end Parts

theorem calcChksums_agrees (bh : Block n) (s : PassState n) :
    cfg.Agrees (PassState.rebase cfg.inLog home) id s (cfg.calcChksums bh s)
      (cfg.calcChksums bh (s.rebase cfg.inLog home)) := by
  simp only [calcChksums,
    cfg.calcChksumsLoop_congr (show (s.rebase cfg.inLog home).disk.log = s.disk.log from rfl)]
  exact .read fun nr => .of_same rfl rfl

theorem rebase_write (s : PassState n) (blocknr : BitVec 64) (data : Block n)
    (info : RecoveryInfo) :
    ({ s.rebase cfg.inLog home with
        disk := (s.rebase cfg.inLog home).disk.write cfg.inLog blocknr data
        info := info, writes := s.writes ++ [(blocknr, data)] } : PassState n) =
      PassState.rebase cfg.inLog home
        { s with
          disk := s.disk.write cfg.inLog blocknr data, info := info
          writes := s.writes ++ [(blocknr, data)] } := by
  unfold PassState.rebase LogDisk.write
  cases hin : cfg.inLog blocknr <;> simp [homeAfter, hin]

theorem replayBlock_agrees (bh : Block n) (tagp flags : ℕ) (obh : Block n) (s : PassState n) :
    cfg.Agrees (PassState.rebase cfg.inLog home) id s (cfg.replayBlock bh tagp flags obh s)
      (cfg.replayBlock bh tagp flags obh (s.rebase cfg.inLog home)) := by
  refine .read fun blocknr => .ite (.of_same rfl rfl) ?_
  refine .read fun sequence => .read fun ok => .ite (.of_same rfl rfl) ?_
  constructor
  · exact congrArg some (cfg.rebase_write home
      { s with tags := s.tags ++ [(blocknr, flags.testBit 0)] } blocknr _ _)
  intro r hr
  cases hr
  refine ⟨subset_append_left _ _, fun hclean => ?_⟩
  have hin : cfg.inLog blocknr = none :=
    hclean _ (mem_append_right _ (mem_singleton_self _))
  simp only [id, LogDisk.write, hin]

theorem replayTags_agrees (pos rounds tagp : ℕ) (s : PassState n) :
    cfg.Agrees (PassState.rebase cfg.inLog home) id s (cfg.replayTags pos rounds tagp s)
      (cfg.replayTags pos rounds tagp (s.rebase cfg.inLog home)) := by
  induction rounds generalizing tagp s with
  | zero => exact ⟨rfl, fun r hr => by cases hr⟩
  | succ _ ih =>
    have hio : ∀ flags, cfg.Agrees (PassState.rebase cfg.inLog home) id s
        (cfg.replayIo (s.disk.log pos) tagp flags s)
        (cfg.replayIo (s.disk.log pos) tagp flags (s.rebase cfg.inLog home)) := by
      intro flags
      have hread : cfg.jread (s.rebase cfg.inLog home).disk
          (s.rebase cfg.inLog home).nextLogBlock = cfg.jread s.disk s.nextLogBlock := rfl
      unfold replayIo
      rw [hread]
      cases cfg.jread s.disk s.nextLogBlock with
      | error => exact .of_same rfl rfl
      | ok obh =>
        exact (cfg.replayBlock_agrees home (s.disk.log pos) tagp flags obh
          { s with nextLogBlock := cfg.wrap (s.nextLogBlock + 1) }).after rfl rfl
    refine .ite (.read fun flags => (hio flags).bind fun t => ?_) (.of_same rfl rfl)
    exact .ite (.of_same rfl rfl) (ih _ t)

theorem descriptorStep_agrees (pass : Pass) (pos : ℕ) (bh : Block n) (s : PassState n) :
    cfg.Agrees (PassStep.rebase cfg.inLog home) stateOf s (cfg.descriptorStep pass pos bh s)
      (cfg.descriptorStep pass pos bh (s.rebase cfg.inLog home)) := by
  refine .read fun ok => .ite (.of_same rfl rfl) ?_
  have hskip : cfg.Agrees (PassStep.rebase cfg.inLog home) stateOf s
      ((cfg.countTags bh).map fun nr => .again
        { s with nextLogBlock := cfg.wrap (s.nextLogBlock + nr) })
      ((cfg.countTags bh).map fun nr => .again
        { s.rebase cfg.inLog home with
          nextLogBlock := cfg.wrap ((s.rebase cfg.inLog home).nextLogBlock + nr) }) := by
    rw [map_eq_bind, map_eq_bind]
    exact .read fun nr => .of_same rfl rfl
  cases pass with
  | replay => exact (cfg.replayTags_agrees home pos _ _ s).again
  | scan => exact .ite (cfg.calcChksums_agrees home bh s).again hskip
  | revoke => exact hskip

theorem commitStep_agrees (pass : Pass) (bh : Block n) (s : PassState n) :
    cfg.Agrees (PassStep.rebase cfg.inLog home) stateOf s (cfg.commitStep pass bh s)
      (cfg.commitStep pass bh (s.rebase cfg.inLog home)) := by
  have hcsum : ∀ t : PassState n, cfg.Agrees (PassStep.rebase cfg.inLog home) stateOf t
      (cfg.commitCsum bh t) (cfg.commitCsum bh (t.rebase cfg.inLog home)) := by
    intro t
    refine .read fun ok => .ite (.of_same rfl rfl) ?_
    exact .ite (.of_same rfl rfl) (.of_same rfl rfl)
  cases pass with
  | revoke | replay => exact .of_same rfl rfl
  | scan =>
    refine .ite (.ite (.of_same rfl rfl) (.read fun err => ?_)) (hcsum s)
    have hasync := (hcsum { s with
      info := { s.info with endTransaction := s.nextCommitId }, crc32Sum := -1 }).after
        (s := s) rfl rfl
    exact .ite (.ite hasync (.of_same rfl rfl))
      ((hcsum { s with crc32Sum := -1 }).after rfl rfl)

theorem scanRevokeLoop_agrees (bh : Block n) (max rounds offset : ℕ) (s : PassState n) :
    cfg.Agrees (PassState.rebase cfg.inLog home) id s (cfg.scanRevokeLoop bh max rounds offset s)
      (cfg.scanRevokeLoop bh max rounds offset (s.rebase cfg.inLog home)) := by
  induction rounds generalizing offset s with
  | zero => exact ⟨rfl, fun r hr => by cases hr⟩
  | succ _ ih =>
    refine .ite (.read fun blocknr => ?_) (.of_same rfl rfl)
    exact (ih _ { s with
      jRevoke := setRevoke s.jRevoke (BitVec.ofNat 64 blocknr) s.nextCommitId
      info := { s.info with nrRevokes := s.info.nrRevokes + 1 } }).after rfl rfl

theorem headerStep_agrees (pass : Pass) (pos : ℕ) (bh : Block n) (s : PassState n) :
    cfg.Agrees (PassStep.rebase cfg.inLog home) stateOf s (cfg.headerStep pass pos bh s)
      (cfg.headerStep pass pos bh (s.rebase cfg.inLog home)) := by
  have hrevoke : cfg.Agrees (PassStep.rebase cfg.inLog home) stateOf s
      (cfg.scanRevokeRecords bh s) (cfg.scanRevokeRecords bh (s.rebase cfg.inLog home)) := by
    refine .read fun rcount => .read fun ok => .ite (.of_same rfl rfl) ?_
    exact .ite (.of_same rfl rfl) (cfg.scanRevokeLoop_agrees home bh rcount _ _ s).again
  refine .read fun magic => .ite (.of_same rfl rfl) ?_
  refine .read fun blocktype => .read fun sequence => .ite (.of_same rfl rfl) ?_
  refine .ite (cfg.descriptorStep_agrees home pass pos bh s) ?_
  refine .ite (cfg.commitStep_agrees home pass bh s) ?_
  exact .ite (.ite hrevoke (.of_same rfl rfl)) (.of_same rfl rfl)

theorem passStep_agrees (pass : Pass) (s : PassState n) :
    cfg.Agrees (PassStep.rebase cfg.inLog home) stateOf s (cfg.passStep pass s)
      (cfg.passStep pass (s.rebase cfg.inLog home)) := by
  refine .ite (.of_same rfl rfl) ?_
  have hread : cfg.jread (s.rebase cfg.inLog home).disk (s.rebase cfg.inLog home).nextLogBlock =
      cfg.jread s.disk s.nextLogBlock := rfl
  rw [hread]
  cases cfg.jread s.disk s.nextLogBlock with
  | error => exact .of_same rfl rfl
  | ok bh =>
    exact (cfg.headerStep_agrees home pass (s.nextLogBlock % 2 ^ 32) bh
      { s with
        nextLogBlock := cfg.wrap (s.nextLogBlock + 1)
        visited := s.visited ++ [(s.nextLogBlock, s.nextCommitId)] }).after rfl rfl

theorem passLoop_agrees (pass : Pass) (rounds : ℕ) (s : PassState n) :
    cfg.Agrees (cfg.rebaseResult home) Prod.snd s (cfg.passLoop pass rounds s)
      (cfg.passLoop pass rounds (s.rebase cfg.inLog home)) := by
  induction rounds generalizing s with
  | zero => exact ⟨rfl, fun r hr => by cases hr⟩
  | succ _ ih =>
    refine (cfg.passStep_agrees home pass s).bind fun r => ?_
    cases r with
    | again t => exact ih t
    | done => exact .of_same rfl rfl
    | failed => exact .of_same rfl rfl

theorem passDone_rebase (pass : Pass) (s : PassState n) :
    passDone pass (s.rebase cfg.inLog home) = cfg.rebaseResult home (passDone pass s) := by
  unfold passDone rebaseResult PassState.rebase
  by_cases hp : pass = .scan
  · simp only [hp, if_true]
    by_cases he : s.info.endTransaction = 0
    · simp only [he, if_true]
    · simp only [he, if_false]
  · simp only [hp, if_false]
    by_cases he : s.info.endTransaction ≠ s.nextCommitId ∧ s.success = none
    · rw [if_pos he, if_pos he]
    · rw [if_neg he, if_neg he]

theorem doOnePass_agrees (rounds : ℕ) (pass : Pass) (s : PassState n) :
    cfg.Agrees (cfg.rebaseResult home) Prod.snd s (cfg.doOnePass rounds pass s)
      (cfg.doOnePass rounds pass (s.rebase cfg.inLog home)) := by
  rw [doOnePass, doOnePass, map_eq_bind, map_eq_bind]
  have hloop := (cfg.passLoop_agrees home pass rounds (cfg.passStart pass s)).after (s := s) rfl rfl
  refine hloop.bind ?_
  rintro ⟨e, t⟩
  cases e with
  | some => exact .of_same rfl rfl
  | none =>
    obtain ⟨hd, -, hw, -⟩ := passDone_frame pass t
    have hdone : cfg.Agrees (cfg.rebaseResult home) Prod.snd t (some (passDone pass t))
        (some (cfg.rebaseResult home (passDone pass t))) := .of_same hw hd
    rwa [← passDone_rebase] at hdone

theorem andThen_agrees {s : PassState n} {r r' : Option (Option LogErrno × PassState n)}
    (h : cfg.Agrees (cfg.rebaseResult home) Prod.snd s r r') (rounds : ℕ) (pass : Pass) :
    cfg.Agrees (cfg.rebaseResult home) Prod.snd s (andThen r (cfg.doOnePass rounds pass))
      (andThen r' (cfg.doOnePass rounds pass)) := by
  refine h.bind ?_
  rintro ⟨e, t⟩
  cases e with
  | some => exact .of_same rfl rfl
  | none => exact cfg.doOnePass_agrees home rounds pass t

theorem threePasses_agrees (rounds : ℕ) (d : LogDisk n) :
    cfg.Agrees (cfg.rebaseResult home) Prod.snd (infoStart d) (cfg.threePasses rounds d)
      (cfg.threePasses rounds { d with home := home }) :=
  cfg.andThen_agrees home (cfg.andThen_agrees home
    (cfg.doOnePass_agrees home rounds .scan (infoStart d)) rounds .revoke) rounds .replay

theorem recover_home {rounds : ℕ} {d : LogDisk n} {r : Recovered n}
    (hr : cfg.recover rounds d = some r) :
    cfg.recover rounds { d with home := home } =
      some { r with disk := { r.disk with home := homeAfter cfg.inLog home r.writes } } := by
  unfold recover at hr ⊢
  split_ifs at hr ⊢ with hs
  · cases hr
    rfl
  obtain ⟨⟨e, s⟩, hs, rfl⟩ := map_eq_some_iff.mp hr
  rw [(cfg.threePasses_agrees home rounds d).same, hs]
  rfl

end RecoveryConfig

/-- What is on the device when some of the writes of a recovery have reached it, in any order. -/
def PartlyWritten (d : LogDisk n) (writes : List (BitVec 64 × Block n))
    (home : BitVec 64 → Block n) : Prop :=
  ∀ block, home block = d.home block ∨ (block, home block) ∈ writes

theorem PartlyWritten.homeAfter_eq {d : LogDisk n} {home : BitVec 64 → Block n}
    (h : PartlyWritten d writes home) (hclean : ∀ w ∈ writes, inLog w.1 = none) :
    homeAfter inLog home writes = homeAfter inLog d.home writes := by
  funext block
  by_cases hmem : ∃ w ∈ writes, w.1 = block
  · have hin : inLog block = none := by
      obtain ⟨w, hw, rfl⟩ := hmem
      exact hclean w hw
    exact homeAfter_of_mem hin hmem _ _
  · have hnot : ∀ w ∈ writes, w.1 = block → inLog block ≠ none := by
      intro w hw hwb
      exact absurd ⟨w, hw, hwb⟩ hmem
    rw [homeAfter_of_not_mem hnot, homeAfter_of_not_mem hnot]
    exact (h block).resolve_right fun hw => hmem ⟨_, hw, rfl⟩

theorem partlyWritten_homeAfter (inLog : BitVec 64 → Option ℕ) (d : LogDisk n)
    (writes : List (BitVec 64 × Block n)) :
    PartlyWritten d writes (homeAfter inLog d.home writes) := by
  intro block
  induction writes using reverseRecOn with
  | nil => exact .inl rfl
  | append_singleton _ w ih =>
    simp only [homeAfter, foldl_append, foldl_cons, foldl_nil]
    split_ifs
    · by_cases hw : block = w.1
      · rw [hw, update_self]
        exact .inr (by simp)
      · rw [update_of_ne hw]
        exact ih.imp id fun h => mem_append_left _ h
    · exact ih.imp id fun h => mem_append_left _ h

/-- Recovery from the same log ends with the same blocks, whatever part of the writes of an earlier
one has reached the device, and recovery after recovery changes nothing. -/
theorem recovery_restartable (cfg : RecoveryConfig) (rounds : ℕ) (d : LogDisk n) (r : Recovered n)
    (hr : cfg.recover rounds d = some r) (hclean : ∀ w ∈ r.writes, cfg.inLog w.1 = none) :
    (∀ home, PartlyWritten d r.writes home →
      cfg.recover rounds { d with home := home } = some r) ∧
    cfg.recover rounds r.disk = some r := by
  have hhome : r.disk.home = homeAfter cfg.inLog d.home r.writes := by
    have hself := cfg.recover_home d.home hr
    have heq : some r = some _ := hr.symm.trans hself
    exact congrArg (fun r => r.disk.home) (some.inj heq)
  have hagain : ∀ home, PartlyWritten d r.writes home →
      cfg.recover rounds { d with home := home } = some r := by
    intro home hpart
    rw [cfg.recover_home home hr, hpart.homeAfter_eq hclean, ← hhome]
  refine ⟨hagain, ?_⟩
  have hlog : r.disk.log = d.log := by
    unfold RecoveryConfig.recover at hr
    split_ifs at hr
    · cases hr
      rfl
    · obtain ⟨⟨e, s⟩, hs, rfl⟩ := map_eq_some_iff.mp hr
      exact ((cfg.threePasses_agrees d.home rounds d).keeps _ hs).log hclean
  have hdisk : r.disk = { d with home := r.disk.home } := by
    rw [← hlog]
  rw [hdisk]
  apply hagain
  rw [hhome]
  exact partlyWritten_homeAfter cfg.inLog d r.writes

def twoBlocksLog : Option (LogDisk 1024) :=
  (writeTransaction (plainConfig 1 aliasArea).toLogFormat aliasArea 7 true
    { jHead := 1, jFree := 200 }
    { revoked := []
      buffers := [{ sampleBuffer 5 with bData := Block.zero.put 100 4 77 }, sampleBuffer 9]
      inoSync := 0, sec := 0, nsec := 0 }).map
    fun w => { log := storeBlocks (fun _ => Block.zero) w.2, home := fun _ => Block.zero }

def ownRecordConfig : RecoveryConfig :=
  { plainConfig 1 aliasArea with inLog := fun block => if block = 9 then some 4 else none }

/-- If only the write over the commit record has reached the device, nothing is replayed again. -/
theorem recovery_not_restartable :
    (twoBlocksLog.bind fun d => (ownRecordConfig.recover 9 d).bind fun r =>
      r.writes.getLast?.bind fun w =>
        (ownRecordConfig.recover 9 (d.write ownRecordConfig.inLog w.1 w.2)).map fun r' =>
          (w.1, (r.disk.home 5).be 100 4, (r'.disk.home 5).be 100 4)) = some (9, 77, 0) := by
  decide +kernel

/-- With the first of the two writes on the device, and with both, recovery ends as before. -/
theorem recovery_restartable_twoBlocksLog :
    ∃ d r w, twoBlocksLog = some d ∧ (plainConfig 1 aliasArea).recover 9 d = some r ∧
      r.writes.length = 2 ∧ r.writes.head? = some w ∧
      (plainConfig 1 aliasArea).recover 9 { d with home := update d.home w.1 w.2 } =
        some r ∧
      (plainConfig 1 aliasArea).recover 9 r.disk = some r := by
  have hrun : (twoBlocksLog.bind fun d => ((plainConfig 1 aliasArea).recover 9 d).map fun r =>
      r.writes.length) = some 2 := by decide +kernel
  obtain ⟨d, hd, hrun⟩ := bind_eq_some_iff.mp hrun
  obtain ⟨r, hr, hlen⟩ := map_eq_some_iff.mp hrun
  obtain ⟨w, ws, hws⟩ : ∃ w ws, r.writes = w :: ws := exists_cons_of_length_eq_add_one hlen
  obtain ⟨hpart, hwhole⟩ :=
    recovery_restartable (plainConfig 1 aliasArea) 9 d r hr fun _ _ => rfl
  refine ⟨d, r, w, hd, hr, hlen, by rw [hws]; rfl, hpart _ fun block => ?_, hwhole⟩
  by_cases hb : block = w.1
  · rw [hb, update_self, hws]
    exact .inr mem_cons_self
  · exact .inl (update_of_ne hb _ _)

end VMsep.Jbd2
