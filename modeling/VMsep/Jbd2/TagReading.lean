import VMsep.Jbd2.Recovery

/-! Every loop over the bytes of a block ends and reads bytes of the block only, whatever the block
contains. `count_tags` and the loop of the last pass stop at the same tags. -/

namespace VMsep.Jbd2

open Lib Option Block

namespace LogFormat

variable (fmt : LogFormat)

theorem tagBytes_ge : 8 ≤ fmt.tagBytes := by
  unfold tagBytes
  split_ifs <;> decide

theorem tagBytes_le : fmt.tagBytes ≤ 16 := by
  unfold tagBytes
  split_ifs <;> decide

theorem tagBytes_f64bit (h : fmt.f64bit = true) : 12 ≤ fmt.tagBytes := by
  unfold tagBytes
  split_ifs <;> decide

theorem tagBytes_csum3 (h : fmt.csum3 = true) : fmt.tagBytes = 16 := by
  unfold tagBytes
  rw [if_pos h]

theorem csumSize_le : fmt.csumSize ≤ 4 := by
  unfold csumSize
  split_ifs <;> decide

variable {n : ℕ} {b : Block n} {tagp : ℕ}

def tagBlock (b : Block n) (tagp : ℕ) : BitVec 64 :=
  if fmt.f64bit then BitVec.ofNat 64 (b.be (tagp + 8) 4 * 2 ^ 32 + b.be tagp 4)
  else BitVec.ofNat 64 (b.be tagp 4)

theorem readTagBlock_eq (h : tagp + fmt.tagBytes ≤ n) :
    fmt.readTagBlock b tagp = some (fmt.tagBlock b tagp) := by
  have hge := fmt.tagBytes_ge
  rw [readTagBlock, read_eq (by omega), bind_some, tagBlock]
  split_ifs with h64
  · have := fmt.tagBytes_f64bit h64
    rw [read_eq (by omega)]
    rfl
  · rfl

def tagCsumOk (b : Block n) (tagp : ℕ) (data : Block n) (sequence : Tid) : Bool :=
  if !fmt.hasCsumV2or3 then true
  else if fmt.csum3 then b.be (tagp + 12) 4 = (fmt.blockChksum data sequence).toNat
  else b.be (tagp + 4) 2 = (fmt.blockChksum data sequence).toNat % 2 ^ 16

theorem blockTagCsumVerify_eq (h : tagp + fmt.tagBytes ≤ n) (data : Block n) (sequence : Tid) :
    fmt.blockTagCsumVerify b tagp data sequence = some (fmt.tagCsumOk b tagp data sequence) := by
  have hge := fmt.tagBytes_ge
  unfold blockTagCsumVerify tagCsumOk
  split_ifs with hv h3
  · rfl
  · have := fmt.tagBytes_csum3 h3
    rw [read_eq (by omega)]
    rfl
  · rw [read_eq (by omega)]
    rfl

def tailCsumOk (b : Block n) : Bool :=
  if !fmt.hasCsumV2or3 then true else b.be (n - 4) 4 = (fmt.wholeChksum b (n - 4)).toNat

theorem descriptorBlockCsumVerify_eq (h : 4 ≤ n) :
    fmt.descriptorBlockCsumVerify b = some (fmt.tailCsumOk b) := by
  unfold descriptorBlockCsumVerify tailCsumOk
  split_ifs
  · rfl
  · rw [read_eq (by omega)]
    rfl

end LogFormat

namespace RecoveryConfig

variable (cfg : RecoveryConfig) {n : ℕ} {b : Block n} {rounds tagp pos : ℕ} {s s' : PassState n}

/-- Where the tag after the one at `tagp` is. -/
def nextTag (b : Block n) (tagp : ℕ) : ℕ :=
  if (b.be (tagp + 6) 2).testBit 1 then tagp + cfg.tagBytes else tagp + cfg.tagBytes + 16

def tagsFrom (b : Block n) : ℕ → ℕ → List ℕ
  | 0, _ => []
  | rounds + 1, tagp =>
    if tagp + cfg.tagBytes ≤ n - cfg.csumSize then
      tagp :: if (b.be (tagp + 6) 2).testBit 3 then [] else tagsFrom b rounds (cfg.nextTag b tagp)
    else []

def tagOffsets (b : Block n) : List ℕ := cfg.tagsFrom b (n + 1) 12

def Enough (n rounds tagp : ℕ) : Prop := 0 < rounds ∧ n < tagp + rounds

theorem Enough.next (h : Enough n (rounds + 1) tagp) (hle : tagp + cfg.tagBytes ≤ n - cfg.csumSize)
    : Enough n rounds (cfg.nextTag b tagp) := by
  have hge := cfg.tagBytes_ge
  have hnext : tagp + 8 ≤ cfg.nextTag b tagp := by
    unfold nextTag
    split_ifs <;> omega
  obtain ⟨-, h⟩ := h
  exact ⟨by omega, by omega⟩

theorem countTagsLoop_eq (h : Enough n rounds tagp) (nr : ℕ) :
    cfg.countTagsLoop b rounds tagp nr = some (nr + (cfg.tagsFrom b rounds tagp).length) := by
  induction rounds generalizing tagp nr with
  | zero => exact absurd h.1 (lt_irrefl 0)
  | succ _ ih =>
    have hge := cfg.tagBytes_ge
    rw [countTagsLoop, tagsFrom]
    split_ifs with hle hlast
    · rw [read_eq (by omega), bind_eq_bind, bind_some, if_pos hlast]
      rfl
    · rw [read_eq (by omega), bind_eq_bind, bind_some, if_neg hlast]
      refine (ih (h.next cfg hle) (nr + 1)).trans ?_
      rw [List.length_cons]
      congr 1
      omega
    · rfl

theorem enough_start : Enough n (n + 1) 12 := ⟨by omega, by omega⟩

theorem countTags_eq (b : Block n) : cfg.countTags b = some (cfg.tagOffsets b).length := by
  rw [countTags, countTagsLoop_eq cfg enough_start, Nat.zero_add]
  rfl

def replayTo (b : Block n) (tagp : ℕ) (obh : Block n) (s : PassState n) : PassState n :=
  let blocknr := cfg.tagBlock b tagp
  let escaped := (b.be (tagp + 6) 2).testBit 0
  let s := { s with tags := s.tags ++ [(blocknr, escaped)] }
  if testRevoke s.jRevoke blocknr s.nextCommitId then
    { s with info := { s.info with nrRevokeHits := s.info.nrRevokeHits + 1 } }
  else if cfg.tagCsumOk b tagp obh (BitVec.ofNat 32 (b.be 8 4)) then
    let data := if escaped then obh.put 0 4 jbd2MagicNumber.toNat else obh
    { s with
      disk := s.disk.write cfg.inLog blocknr data
      info := { s.info with nrReplays := s.info.nrReplays + 1 }
      writes := s.writes ++ [(blocknr, data)] }
  else { s with success := some .efsbadcrc, blockError := true }

def replayRound (b : Block n) (tagp : ℕ) (s : PassState n) : PassState n :=
  let s' := { s with nextLogBlock := cfg.wrap (s.nextLogBlock + 1) }
  match cfg.jread s.disk s.nextLogBlock with
  | .error e => { s' with success := some e }
  | .ok obh => cfg.replayTo b tagp obh s'

theorem replayTags_succ (hn : 12 ≤ n) (s : PassState n) : cfg.replayTags pos (rounds + 1) tagp s =
      if tagp + cfg.tagBytes ≤ n - cfg.csumSize then
        let b := s.disk.log pos
        if (b.be (tagp + 6) 2).testBit 3 then some (cfg.replayRound b tagp s)
        else cfg.replayTags pos rounds (cfg.nextTag b tagp) (cfg.replayRound b tagp s)
      else some s := by
  have hge := cfg.tagBytes_ge
  rw [replayTags]
  split_ifs with hle
  · have hround : cfg.replayIo (s.disk.log pos) tagp ((s.disk.log pos).be (tagp + 6) 2) s =
        some (cfg.replayRound (s.disk.log pos) tagp s) := by
      rw [replayIo, replayRound]
      cases cfg.jread s.disk s.nextLogBlock with
      | error => rfl
      | ok =>
        simp only [replayBlock, cfg.readTagBlock_eq (show tagp + cfg.tagBytes ≤ n by omega),
          bind_eq_bind, bind_some, read_eq (show 8 + 4 ≤ n by omega),
          cfg.blockTagCsumVerify_eq (show tagp + cfg.tagBytes ≤ n by omega), replayTo]
        split_ifs <;> simp_all
    simp only [read_eq (show tagp + 6 + 2 ≤ n by omega), bind_eq_bind,
      bind_some, hround]
    rfl
  · rfl

theorem replayTags_isSome (hn : 12 ≤ n) (h : Enough n rounds tagp) (s : PassState n) :
    (cfg.replayTags pos rounds tagp s).isSome := by
  induction rounds generalizing tagp s with
  | zero => exact absurd h.1 (lt_irrefl 0)
  | succ _ ih =>
    rw [cfg.replayTags_succ hn]
    split_ifs with hle
    · simp only
      split_ifs
      · rfl
      · exact ih (h.next cfg hle) _
    · rfl

/-- The loop is one round after the other for the tags of the block, as long as no round writes to
the block itself. -/
theorem replayTags_eq_foldl (hn : 12 ≤ n) (h : Enough n rounds tagp) (s : PassState n)
    (hlog : ∀ l, l <+: cfg.tagsFrom b rounds tagp →
      (l.foldl (fun s o => cfg.replayRound b o s) s).disk.log pos = b) :
    cfg.replayTags pos rounds tagp s =
      some ((cfg.tagsFrom b rounds tagp).foldl (fun s o => cfg.replayRound b o s) s) := by
  induction rounds generalizing tagp s with
  | zero => exact absurd h.1 (lt_irrefl 0)
  | succ _ ih =>
    have hb : s.disk.log pos = b := hlog [] (List.nil_prefix)
    simp only [cfg.replayTags_succ hn, hb]
    rw [tagsFrom] at hlog ⊢
    split_ifs at hlog ⊢ with hle hlast
    · rfl
    · rw [List.foldl_cons]
      refine ih (h.next cfg hle) _ fun l hl => ?_
      exact hlog (tagp :: l) (List.cons_prefix_cons.mpr ⟨rfl, hl⟩)
    · rfl

theorem replayRound_log (h : cfg.inLog (cfg.tagBlock b tagp) = none) (s : PassState n) :
    (cfg.replayRound b tagp s).disk.log = s.disk.log := by
  rw [replayRound]
  cases cfg.jread s.disk s.nextLogBlock with
  | error => rfl
  | ok =>
    simp only [replayTo]
    split_ifs <;> simp only [LogDisk.write, h]

theorem replayRounds_log {l : List ℕ} (h : ∀ o ∈ l, cfg.inLog (cfg.tagBlock b o) = none)
    (s : PassState n) : (l.foldl (fun s o => cfg.replayRound b o s) s).disk.log = s.disk.log := by
  induction l generalizing s with
  | nil => rfl
  | cons o _ ih =>
    rw [List.foldl_cons, ih fun o' ho' => h o' (List.mem_cons_of_mem _ ho')]
    exact cfg.replayRound_log (h o List.mem_cons_self) s

theorem replayTags_home (hn : 12 ≤ n) (hlog : s.disk.log pos = b)
    (hclean : ∀ o ∈ cfg.tagOffsets b, cfg.inLog (cfg.tagBlock b o) = none) :
    cfg.replayTags pos (n + 1) 12 s =
      some ((cfg.tagOffsets b).foldl (fun s o => cfg.replayRound b o s) s) := by
  refine cfg.replayTags_eq_foldl hn enough_start s fun l hl => ?_
  rw [cfg.replayRounds_log fun o ho => hclean o (hl.subset ho), hlog]

theorem replayRound_writes (tagp : ℕ) (s : PassState n) :
    (cfg.replayRound b tagp s).writes = s.writes ∧ (cfg.replayRound b tagp s).disk = s.disk ∨
      ∃ data, (cfg.replayRound b tagp s).writes = s.writes ++ [(cfg.tagBlock b tagp, data)] ∧
        (cfg.replayRound b tagp s).disk = s.disk.write cfg.inLog (cfg.tagBlock b tagp) data := by
  rw [replayRound]
  cases cfg.jread s.disk s.nextLogBlock with
  | error => exact .inl ⟨rfl, rfl⟩
  | ok =>
    simp only [replayTo]
    split_ifs
    · exact .inl ⟨rfl, rfl⟩
    · exact .inr ⟨_, rfl, rfl⟩
    · exact .inr ⟨_, rfl, rfl⟩
    · exact .inl ⟨rfl, rfl⟩

theorem replayTags_writes (hn : 12 ≤ n) (hs : cfg.replayTags pos rounds tagp s = some s') :
    s.writes ⊆ s'.writes := by
  induction rounds generalizing tagp s with
  | zero => cases hs
  | succ _ ih =>
    have hround : s.writes ⊆ (cfg.replayRound (s.disk.log pos) tagp s).writes := by
      rcases cfg.replayRound_writes tagp s with ⟨h, -⟩ | ⟨data, h, -⟩ <;> rw [h]
      · exact List.Subset.refl _
      · exact List.subset_append_left _ _
    simp only [cfg.replayTags_succ hn] at hs
    split_ifs at hs
    · cases hs
      exact hround
    · exact List.Subset.trans hround (ih hs)
    · cases hs
      exact List.Subset.refl _

theorem replayTags_clean (hn : 12 ≤ n) (hs : cfg.replayTags pos rounds tagp s = some s')
    (hclean : ∀ w ∈ s'.writes, cfg.inLog w.1 = none) :
    s' = (cfg.tagsFrom (s.disk.log pos) rounds tagp).foldl
        (fun t o => cfg.replayRound (s.disk.log pos) o t) s ∧ s'.disk.log = s.disk.log := by
  induction rounds generalizing tagp s with
  | zero => cases hs
  | succ _ ih =>
    have hlog : (∀ w ∈ (cfg.replayRound (s.disk.log pos) tagp s).writes, cfg.inLog w.1 = none) →
        (cfg.replayRound (s.disk.log pos) tagp s).disk.log = s.disk.log := fun hw => by
      rcases cfg.replayRound_writes tagp s with ⟨-, h⟩ | ⟨data, h, hd⟩
      · rw [h]
      · have := hw (cfg.tagBlock (s.disk.log pos) tagp, data) (by rw [h]; simp)
        rw [hd, LogDisk.write, this]
    simp only [cfg.replayTags_succ hn] at hs
    rw [tagsFrom]
    split_ifs at hs ⊢
    · cases hs
      exact ⟨rfl, hlog hclean⟩
    · have hl := hlog fun w hw => hclean w (cfg.replayTags_writes hn hs hw)
      obtain ⟨h1, h2⟩ := ih hs
      rw [hl] at h1 h2
      exact ⟨h1, h2⟩
    · cases hs
      exact ⟨rfl, rfl⟩

def revokesFrom (b : Block n) (max : ℕ) : ℕ → ℕ → List (BitVec 64)
  | 0, _ => []
  | rounds + 1, offset =>
    let recordLen := RevokeWriter.recordLen cfg.toLogFormat
    if offset + recordLen ≤ max then
      BitVec.ofNat 64 (b.be offset recordLen) :: revokesFrom b max rounds (offset + recordLen)
    else []

def revokesOf (b : Block n) : List (BitVec 64) := cfg.revokesFrom b (b.be 12 4) (n + 1) 16

def setRevokes (s : PassState n) (blocks : List (BitVec 64)) : PassState n :=
  { s with
    jRevoke := blocks.foldl (fun t blocknr => setRevoke t blocknr s.nextCommitId) s.jRevoke
    info := { s.info with nrRevokes := s.info.nrRevokes + blocks.length } }

theorem recordLen_pos (fmt : LogFormat) : 0 < RevokeWriter.recordLen fmt := by
  unfold RevokeWriter.recordLen
  split_ifs <;> decide

theorem scanRevokeLoop_eq {max offset : ℕ} (hmax : max ≤ n) (h : Enough n rounds offset)
    (s : PassState n) : cfg.scanRevokeLoop b max rounds offset s =
      some (setRevokes s (cfg.revokesFrom b max rounds offset)) := by
  induction rounds generalizing offset s with
  | zero => exact absurd h.1 (lt_irrefl 0)
  | succ _ ih =>
    have hpos := recordLen_pos cfg.toLogFormat
    rw [scanRevokeLoop, revokesFrom]
    simp only
    split_ifs with hle
    · rw [read_eq (by omega), bind_eq_bind, bind_some,
        ih ⟨by have := h.2; omega, by have := h.2; omega⟩]
      simp only [setRevokes, List.foldl_cons, List.length_cons]
      congr 3
      omega
    · rfl

theorem scanRevokeRecords_eq (hn : 16 ≤ n) (b : Block n) (s : PassState n) :
    cfg.scanRevokeRecords b s =
      some (if !cfg.tailCsumOk b then .failed .efsbadcrc s
        else if n - cfg.csumSize < b.be 12 4 then .failed .einval s
        else .again (setRevokes s (cfg.revokesOf b))) := by
  simp only [scanRevokeRecords, read_eq (show 12 + 4 ≤ n by omega), bind_eq_bind,
    bind_some, cfg.descriptorBlockCsumVerify_eq (show 4 ≤ n by omega)]
  split_ifs with hok hlen
  · rfl
  · rfl
  · rw [cfg.scanRevokeLoop_eq (by omega) ⟨by omega, by omega⟩]
    rfl

end RecoveryConfig

end VMsep.Jbd2
