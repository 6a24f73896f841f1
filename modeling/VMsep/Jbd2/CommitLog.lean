import VMsep.Jbd2.DescriptorCodec

/-! The buffers go to the log in batches of a descriptor block and the blocks it describes, at
consecutive positions. Recovery reads the tags back as they were written, and no loop over a block
reads outside it. -/

namespace VMsep.Jbd2

open Lib List LogBuffer

variable {n : ℕ} {area : LogArea} {h h' h'' : LogHead}

inductive LogHead.Takes (area : LogArea) : LogHead → List ℕ → LogHead → Prop where
  | nil (h : LogHead) : Takes area h [] h
  | cons {h h' h'' : LogHead} {pos : ℕ} {ps : List ℕ} (hnext : h.nextLogBlock area = some (pos, h'))
    (hrest : Takes area h' ps h'') : Takes area h (pos :: ps) h''

theorem LogHead.Takes.append {ps qs : List ℕ} (h1 : LogHead.Takes area h ps h')
    (h2 : LogHead.Takes area h' qs h'') : LogHead.Takes area h (ps ++ qs) h'' := by
  induction h1 with
  | nil => exact h2
  | cons hnext _ ih => exact .cons hnext (ih h2)

theorem LogHead.Takes.concat {ps : List ℕ} {pos : ℕ} (h1 : LogHead.Takes area h ps h')
    (hnext : h'.nextLogBlock area = some (pos, h'')) : LogHead.Takes area h (ps ++ [pos]) h'' :=
  h1.append (.cons hnext (.nil _))

namespace CommitLoop

variable {fmt : LogFormat} {area : LogArea} {tid : Tid} {s s' : CommitLoop n} {x : LogBuffer n}
  {last : Bool} {d : Descriptor n} {head h0 : LogHead} {done bufs : List (LogBuffer n)}
  {inoSync : ℕ}

/-- The blocks that wait for `start_journal_io`. -/
def pending (s : CommitLoop n) : List (ℕ × Block n) :=
  match s.descriptor with
  | none => []
  | some d => (d.blocknr, d.bData) :: s.wbuf

inductive Current (area : LogArea) (tid : Tid) (s : CommitLoop n) : Descriptor n → LogHead → Prop
  | old {d : Descriptor n} (hd : s.descriptor = some d) : Current area tid s d s.head
  | new {pos : ℕ} {head : LogHead} (hd : s.descriptor = none)
    (hnext : s.head.nextLogBlock area = some (pos, head)) :
    Current area tid s (Descriptor.new tid pos) head

theorem logBuffer_cases (hs : s.logBuffer fmt area tid x last = some s') :
    ∃ d head pos head', s.Current area tid d head ∧ head.nextLogBlock area = some (pos, head') ∧
      let d' := d.addTag fmt tid x.tag.block x.tag.escaped x.tag.data
      let s1 := { s with
        head := head', descriptor := some d', wbuf := s.wbuf ++ [(pos, x.tag.data)] }
      (s' = s1.startJournalIo fmt (d'.close fmt) ∨
        s' = s1 ∧ last = false ∧ fmt.tagBytes + 16 + fmt.csumSize ≤ d'.spaceLeft) := by
  obtain ⟨⟨d, s0⟩, hd, hs⟩ := Option.bind_eq_some_iff.mp hs
  obtain ⟨⟨pos, head'⟩, hnext, rfl⟩ := Option.map_eq_some_iff.mp hs
  have hcur : ∃ head, s0 = { s with head := head } ∧ s.Current area tid d head := by
    unfold getDescriptor at hd
    split at hd
    · cases hd
      exact ⟨s.head, rfl, .old ‹_›⟩
    obtain ⟨⟨p, head⟩, hp, heq⟩ := Option.map_eq_some_iff.mp hd
    cases heq
    exact ⟨head, rfl, .new ‹_› hp⟩
  obtain ⟨head, rfl, hcur⟩ := hcur
  refine ⟨d, head, pos, head', hcur, hnext, ?_⟩
  simp only [tag]
  split_ifs with hsub
  · exact .inl rfl
  · simp only [not_or, Bool.not_eq_true, not_lt] at hsub
    exact .inr ⟨rfl, hsub.2.1, hsub.2.2⟩

structure BatchOk (fmt : LogFormat) (tid : Tid) (batch : Descriptor n × List (ℕ × Block n))
    (part : List (LogBuffer n)) : Prop where
  encodes : fmt.Encodes tid batch.1.bData (part.map LogBuffer.tag)
  tail : batch.1.tagp ≤ n - fmt.csumSize
  data : batch.2.map Prod.snd = part.map fun x => x.tag.data

def CurrentOk (fmt : LogFormat) (tid : Tid) (s : CommitLoop n) (cur : List (LogBuffer n)) : Prop :=
  match s.descriptor with
  | none => cur = [] ∧ s.wbuf = []
  | some d => d.Holds fmt tid (cur.map LogBuffer.tag) ∧ d.Room fmt ∧
    s.wbuf.map Prod.snd = cur.map fun x => x.tag.data

/-- The checksum that the commit record gets, with the feature `checksum`. -/
def crcOf (fmt : LogFormat) (bs : List (Block n)) : BitVec 32 :=
  if fmt.checksum then bs.foldl (fun crc b => fmt.crc32Be crc (ofFn b)) (-1) else -1

/-- The loop, started at `h0`, has logged the buffers `done`. -/
structure LoopOk (fmt : LogFormat) (area : LogArea) (tid : Tid) (h0 : LogHead) (s : CommitLoop n)
    (done : List (LogBuffer n)) : Prop where
  split : ∃ parts cur, done = parts.flatten ++ cur ∧
    List.Forall₂ (BatchOk fmt tid) s.batches parts ∧ s.CurrentOk fmt tid cur
  takes : h0.Takes area ((s.blocks ++ s.pending).map Prod.fst) s.head
  crc : s.crc32Sum = crcOf fmt (s.blocks.map Prod.snd)

theorem loopOk_start (h0 : LogHead) : LoopOk fmt area tid h0 (.start h0 : CommitLoop n) [] where
  split := ⟨[], [], rfl, .nil, rfl, rfl⟩
  takes := .nil h0
  crc := by
    unfold crcOf
    split_ifs <;> rfl

theorem Current.holds {cur : List (LogBuffer n)} (hn : 48 ≤ n) (hc : s.Current area tid d head)
    (hcur : s.CurrentOk fmt tid cur) : d.Holds fmt tid (cur.map LogBuffer.tag) ∧ d.Room fmt ∧
      s.wbuf.map Prod.snd = cur.map fun x => x.tag.data := by
  unfold CurrentOk at hcur
  cases hc with
  | old hd =>
    rw [hd] at hcur
    exact hcur
  | new hd =>
    rw [hd] at hcur
    obtain ⟨rfl, hw⟩ := hcur
    have hle := fmt.tagBytes_le
    have hcs := fmt.csumSize_le
    refine ⟨Descriptor.holds_new (by omega) _, ?_, by rw [hw]; rfl⟩
    change 12 + fmt.tagBytes + 16 + fmt.csumSize ≤ n
    omega

theorem startJournalIo_blocks (s : CommitLoop n) (d : Descriptor n) :
    (s.startJournalIo fmt d).blocks = s.blocks ++ (d.blocknr, d.bData) :: s.wbuf := by
  simp [blocks, startJournalIo]

theorem startJournalIo_crc (h : s.crc32Sum = crcOf fmt (s.blocks.map Prod.snd)) :
    (s.startJournalIo fmt d).crc32Sum =
      crcOf fmt ((s.startJournalIo fmt d).blocks.map Prod.snd) := by
  rw [startJournalIo_blocks, map_append, map_cons, crcOf, startJournalIo]
  unfold crcOf at h
  split_ifs at h ⊢ with hc
  · rw [foldl_append, ← h]
  · exact h

theorem addTag_blocknr (d : Descriptor n) (block : BitVec 64) (escaped : Bool) (data : Block n) :
    (d.addTag fmt tid block escaped data).blocknr = d.blocknr := by
  unfold Descriptor.addTag
  split_ifs <;> rfl

theorem Current.takes {head' : LogHead} {pos : ℕ} (hc : s.Current area tid d head)
    (hw : s.descriptor = none → s.wbuf = [])
    (ht : h0.Takes area ((s.blocks ++ s.pending).map Prod.fst) s.head)
    (hnext : head.nextLogBlock area = some (pos, head')) : h0.Takes area
      (s.blocks.map Prod.fst ++ d.blocknr :: (s.wbuf.map Prod.fst ++ [pos])) head' := by
  unfold pending at ht
  cases hc with
  | old hd =>
    rw [hd] at ht
    simpa using ht.concat hnext
  | new hd hnew =>
    rw [hd] at ht
    simpa [hw hd, Descriptor.new] using (ht.concat hnew).concat hnext

theorem LoopOk.logBuffer (hn : 48 ≤ n) (hok : LoopOk fmt area tid h0 s done)
    (hs : s.logBuffer fmt area tid x last = some s') :
    LoopOk fmt area tid h0 s' (done ++ [x]) ∧ (last = true → s'.descriptor = none) := by
  obtain ⟨d, head, pos, head', hc, hnext, hcase⟩ := logBuffer_cases hs
  obtain ⟨parts, cur, rfl, hparts, hcur⟩ := hok.split
  obtain ⟨hold, hroom, hwbuf⟩ := hc.holds hn hcur
  have hw : s.descriptor = none → s.wbuf = [] := fun hd => by
    unfold CurrentOk at hcur
    rw [hd] at hcur
    exact hcur.2
  have htakes := hc.takes hw hok.takes hnext
  have hadd := hold.addTag hroom x.tag
  have hmap : cur.map tag ++ [x.tag] = (cur ++ [x]).map tag := by simp
  have hdata : (s.wbuf ++ [(pos, x.tag.data)]).map Prod.snd =
      (cur ++ [x]).map fun x => x.tag.data := by simp [hwbuf]
  rw [hmap] at hadd
  have htagp : (d.addTag fmt tid x.tag.block x.tag.escaped x.tag.data).tagp ≤
      n - fmt.csumSize := by
    have hsucc := fmt.tagOffset_succ (cur.map tag).length
    have hold' := hold.tagp
    unfold Descriptor.Room at hroom
    rw [hadd.tagp, length_map, length_append, length_singleton,
      ← show (cur.map tag).length = cur.length from length_map _, hsucc]
    split_ifs <;> omega
  rcases hcase with rfl | ⟨rfl, hlast, hspace⟩
  · refine ⟨⟨⟨parts ++ [cur ++ [x]], [], by simp, ?_, rfl, rfl⟩, ?_, ?_⟩, fun _ => rfl⟩
    · refine rel_append hparts (.cons ⟨?_, htagp, hdata⟩ .nil)
      exact hadd.close (by simp) htagp (by omega)
    · rw [startJournalIo_blocks]
      simpa [pending, startJournalIo, Descriptor.close, addTag_blocknr, blocks] using htakes
    · exact startJournalIo_crc hok.crc
  · refine ⟨⟨⟨parts, cur ++ [x], by simp, hparts, hadd, ?_, hdata⟩, ?_, hok.crc⟩, ?_⟩
    · unfold Descriptor.Room
      have := hadd.space
      omega
    · simpa [pending, addTag_blocknr, blocks] using htakes
    · exact fun h => absurd (hlast.symm.trans h) (by simp)

/-- The loop logs every buffer and closes its last descriptor. -/
theorem LoopOk.run (hn : 48 ≤ n) (hino : ∀ x ∈ bufs, x.ino = inoSync)
    (hok : LoopOk fmt area tid h0 s done) (hs : run fmt area tid inoSync s bufs = some s') :
    LoopOk fmt area tid h0 s' (done ++ bufs) ∧
      (s.descriptor = none ∨ bufs ≠ [] → s'.descriptor = none) := by
  induction bufs generalizing s done with
  | nil =>
    cases hs
    rw [append_nil]
    exact ⟨hok, fun h => h.resolve_right fun h => h rfl⟩
  | cons x rest ih =>
    rw [CommitLoop.run, if_neg (not_not.mpr (hino x mem_cons_self))] at hs
    obtain ⟨s1, hs1, hs⟩ := Option.bind_eq_some_iff.mp hs
    obtain ⟨hok1, hlast⟩ := hok.logBuffer hn hs1
    obtain ⟨hok', hnone⟩ := ih (fun y hy => hino y (mem_cons_of_mem _ hy)) hok1 hs
    refine ⟨by simpa using hok', fun _ => hnone ?_⟩
    cases rest with
    | nil => exact .inl (hlast rfl)
    | cons => exact .inr (by simp)

theorem run_start (hn : 48 ≤ n) (hino : ∀ x ∈ bufs, x.ino = inoSync)
    (hs : run fmt area tid inoSync (.start h0) bufs = some s) :
    s.descriptor = none ∧ h0.Takes area (s.blocks.map Prod.fst) s.head ∧
      s.crc32Sum = crcOf fmt (s.blocks.map Prod.snd) ∧
      ∃ parts, bufs = parts.flatten ∧ List.Forall₂ (BatchOk fmt tid) s.batches parts := by
  obtain ⟨hok, hnone⟩ := (loopOk_start h0).run hn hino hs
  have hd := hnone (.inl rfl)
  obtain ⟨parts, cur, hsplit, hparts, hcur⟩ := hok.split
  unfold CurrentOk at hcur
  rw [hd] at hcur
  have htakes := hok.takes
  rw [pending, hd, append_nil] at htakes
  refine ⟨hd, htakes, hok.crc, parts, ?_, hparts⟩
  rw [hcur.1, append_nil] at hsplit
  simpa using hsplit

end CommitLoop

def LogFormat.Fits (fmt : LogFormat) (block : BitVec 64) : Prop :=
  fmt.f64bit = true ∨ block.toNat < 2 ^ 32

theorem LogFormat.Fits.stored {fmt : LogFormat} {block : BitVec 64} (h : fmt.Fits block) :
    fmt.storedBlock block = block := by
  unfold storedBlock
  split_ifs with h64
  · rfl
  · rw [Nat.mod_eq_of_lt (h.resolve_left h64)]
    exact BitVec.eq_of_toNat_eq (by simp)

def LogBuffer.entry (x : LogBuffer n) : BitVec 64 × Bool := (x.bBlocknr, x.tag.escaped)

namespace RecoveryConfig

variable {cfg : RecoveryConfig} {tid : Tid} {b : Block n} {s : PassState n}

theorem wrap_lt {pos : ℕ} (h : pos < cfg.jLast) : cfg.wrap (pos + 1) < cfg.jLast := by
  have := cfg.first_lt
  unfold wrap
  split_ifs <;> omega

section

variable (hread : ∀ p < cfg.jLast, cfg.readable p = true)

include hread

theorem jread_ok {pos : ℕ} (h : pos < cfg.jLast) (d : LogDisk n) :
    cfg.jread d pos = .ok (d.log pos) := by
  have hmod : pos % 2 ^ 32 = pos := Nat.mod_eq_of_lt (h.trans cfg.last_lt)
  simp only [jread, hmod]
  rw [if_neg (not_le.mpr h), if_pos (hread pos h)]

theorem replayRound_tags {o : ℕ} (h : s.nextLogBlock < cfg.jLast) : (cfg.replayRound b o s).tags =
        s.tags ++ [(cfg.tagBlock b o, (b.be (o + 6) 2).testBit 0)] ∧
      (cfg.replayRound b o s).nextLogBlock = cfg.wrap (s.nextLogBlock + 1) := by
  simp only [replayRound, jread_ok hread h, replayTo]
  split_ifs <;> exact ⟨rfl, rfl⟩

theorem replayRounds_tags {l : List ℕ} (h : s.nextLogBlock < cfg.jLast) :
    (l.foldl (fun s o => cfg.replayRound b o s) s).tags =
      s.tags ++ l.map fun o => (cfg.tagBlock b o, (b.be (o + 6) 2).testBit 0) := by
  induction l generalizing s with
  | nil => simp
  | cons o _ ih =>
    obtain ⟨htags, hnext⟩ := replayRound_tags (b := b) (o := o) hread h
    rw [foldl_cons, ih (hnext ▸ wrap_lt h), htags]
    simp

end

structure ReadsBack (cfg : RecoveryConfig) (d : Descriptor n) (part : List (LogBuffer n)) :
    Prop where
  count : cfg.countTags d.bData = some part.length
  tail : d.tagp ≤ n - cfg.csumSize
  replay : ∀ pos (s : PassState n), s.disk.log pos = d.bData →
    (∀ p < cfg.jLast, cfg.readable p = true) → s.nextLogBlock < cfg.jLast →
    (∀ x ∈ part, cfg.inLog x.bBlocknr = none) →
    ∃ s', cfg.replayTags pos (n + 1) 12 s = some s' ∧ s'.tags = s.tags ++ part.map LogBuffer.entry

theorem readsBack_of_batchOk {batch : Descriptor n × List (ℕ × Block n)}
    {part : List (LogBuffer n)} (hn : 12 ≤ n)
    (h : CommitLoop.BatchOk cfg.toLogFormat tid batch part)
    (hfits : ∀ x ∈ part, cfg.Fits x.bBlocknr) : cfg.ReadsBack batch.1 part := by
  have henc := h.encodes
  have hoff := henc.tagOffsets
  have hlen : (part.map tag).length = part.length := length_map _
  have hblock : ∀ i (hi : i < part.length),
      cfg.tagBlock batch.1.bData (cfg.tagOffset i) = part[i].bBlocknr := fun i hi => by
    have := (henc.tags i (hlen ▸ hi)).block
    rw [getElem_map] at this
    exact this.trans (hfits _ (getElem_mem hi)).stored
  refine ⟨?_, h.tail, fun pos s hlog hread hpos hhome => ?_⟩
  · rw [countTags_eq, hoff, length_map, length_range, hlen]
  have hclean : ∀ o ∈ cfg.tagOffsets batch.1.bData,
      cfg.inLog (cfg.tagBlock batch.1.bData o) = none := fun o ho => by
    rw [hoff, hlen] at ho
    obtain ⟨i, hi, rfl⟩ := mem_map.mp ho
    have hi := mem_range.mp hi
    rw [hblock i hi]
    exact hhome _ (getElem_mem hi)
  refine ⟨_, cfg.replayTags_home hn hlog hclean, ?_⟩
  refine (replayRounds_tags hread hpos).trans (congrArg (s.tags ++ ·) ?_)
  rw [hoff, hlen, map_map]
  refine ext_getElem (by simp) fun i h1 h2 => ?_
  have hi : i < part.length := by simpa using h2
  have hflags := henc.flags i (hlen ▸ hi)
  simp only [getElem_map, getElem_range, Function.comp_apply, entry, hblock i hi]
  rw [hflags, (Descriptor.closedFlags_testBit _ _ _).1, getElem_map]

theorem readsBack_batches {batches : List (Descriptor n × List (ℕ × Block n))}
    {parts : List (List (LogBuffer n))} (hn : 12 ≤ n)
    (h : List.Forall₂ (CommitLoop.BatchOk cfg.toLogFormat tid) batches parts)
    (hfits : ∀ x ∈ parts.flatten, cfg.Fits x.bBlocknr) :
    List.Forall₂ (fun batch part => cfg.ReadsBack batch.1 part) batches parts := by
  induction h with
  | nil => exact .nil
  | cons hb _ ih =>
    rw [flatten_cons] at hfits
    exact .cons (readsBack_of_batchOk hn hb fun x hx => hfits x (mem_append_left _ hx))
      (ih fun x hx => hfits x (mem_append_right _ hx))

end RecoveryConfig

/-- The descriptor blocks that the loop over `t_buffers` writes are read back as the buffers they
were written for, and no loop over a block of the log reads outside it, whatever it contains. -/
theorem descriptor_blocks_read_back (cfg : RecoveryConfig) (hn : 1024 ≤ n) (tid : Tid) (inoSync : ℕ)
    (h0 : LogHead) (bufs : List (LogBuffer n)) (s : CommitLoop n)
    (hino : ∀ x ∈ bufs, x.ino = inoSync) (hfits : ∀ x ∈ bufs, cfg.Fits x.bBlocknr)
    (hrun : CommitLoop.run cfg.toLogFormat cfg.toLogArea tid inoSync (.start h0) bufs = some s) :
    (s.descriptor = none ∧ ∃ parts, bufs = parts.flatten ∧
      List.Forall₂ (fun batch part => cfg.ReadsBack batch.1 part) s.batches parts) ∧
    ∀ b : Block n, (cfg.countTags b).isSome ∧ (∀ st, (cfg.scanRevokeRecords b st).isSome) ∧
      (∀ pos st, st.disk.log pos = b → (cfg.replayTags pos (n + 1) 12 st).isSome) ∧
      ∀ tagp, tagp + cfg.tagBytes ≤ n - cfg.csumSize → (cfg.readTagBlock b tagp).isSome := by
  refine ⟨?_, fun b => ⟨?_, fun st => ?_, fun pos st _ => ?_, fun tagp h => ?_⟩⟩
  · obtain ⟨hd, -, -, parts, rfl, hparts⟩ := CommitLoop.run_start (by omega) hino hrun
    exact ⟨hd, parts, rfl, RecoveryConfig.readsBack_batches (by omega) hparts hfits⟩
  · rw [cfg.countTags_eq]
    rfl
  · rw [cfg.scanRevokeRecords_eq (by omega)]
    rfl
  · exact cfg.replayTags_isSome (by omega) RecoveryConfig.enough_start st
  · rw [cfg.readTagBlock_eq (by omega)]
    rfl

def plainConfig (start : ℕ) (area : LogArea) : RecoveryConfig where
  f64bit := false
  csum2 := false
  csum3 := false
  checksum := false
  asyncCommit := false
  v2orV3 := nofun
  v1OrLater := nofun
  jUuid := Block.zero
  jCsumSeed := 0
  jbd2Chksum := fun _ _ => 0
  crc32Be := fun _ _ => 0
  toLogArea := area
  sSequence := 7
  sStart := start
  readable := fun _ => true
  inLog := fun _ => none
  syncBlockdev := none
  issueFlush := none

def sampleArea : LogArea where
  jFirst := 1
  jLast := 31
  first_pos := Nat.one_pos
  first_lt := by decide
  last_lt := by decide

def sampleHead : LogHead := { jHead := 1, jFree := 30 }

def sampleBuffer (block : BitVec 64) : LogBuffer 1024 :=
  { bBlocknr := block, bData := Block.zero, ino := 0 }

def tagsReadBack (bufs : List (LogBuffer 1024)) : Option (List (List (BitVec 64 × Bool))) :=
  let cfg := plainConfig 1 sampleArea
  (CommitLoop.run cfg.toLogFormat cfg.toLogArea 7 0 (.start sampleHead) bufs).bind fun s =>
    s.batches.mapM fun batch =>
      (cfg.replayTags 0 1025 12
        (RecoveryConfig.infoStart
          { log := fun _ => batch.1.bData, home := fun _ => Block.zero })).map
        PassState.tags

/-- Without the feature `64bit` a tag has the low half of a block number only. -/
theorem tagsReadBack_truncated :
    tagsReadBack [sampleBuffer (2 ^ 32 + 5), sampleBuffer 6] =
      some [[(5, false), (6, false)]] := by
  decide +kernel

theorem descriptor_blocks_read_back_sample :
    ∃ s : CommitLoop 1024, CommitLoop.run (plainConfig 1 sampleArea).toLogFormat sampleArea 7 0
        (.start sampleHead) [sampleBuffer 5, sampleBuffer 6] = some s ∧
      ∃ parts, [sampleBuffer 5, sampleBuffer 6] = parts.flatten ∧
        List.Forall₂ (fun batch part => (plainConfig 1 sampleArea).ReadsBack batch.1 part)
          s.batches parts := by
  obtain ⟨s, hs⟩ := Option.isSome_iff_exists.mp
    (by decide +kernel : (CommitLoop.run (plainConfig 1 sampleArea).toLogFormat sampleArea 7 0
      (.start sampleHead) [sampleBuffer 5, sampleBuffer 6]).isSome = true)
  refine ⟨s, hs, (descriptor_blocks_read_back (plainConfig 1 sampleArea) (by decide) 7 0 sampleHead
    _ s (fun x hx => ?_) (fun x hx => ?_) hs).1.2⟩ <;>
    simp only [mem_cons, not_mem_nil, or_false] at hx
  · rcases hx with rfl | rfl <;> rfl
  · rcases hx with rfl | rfl <;> exact .inr (by decide)

end VMsep.Jbd2
