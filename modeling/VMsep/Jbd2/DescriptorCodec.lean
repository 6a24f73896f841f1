import VMsep.Jbd2.TagReading

/-! The tags of a descriptor block lie one after the other, with the uuid after the first one. What
the commit routine writes is what recovery reads. -/

namespace VMsep.Jbd2

open Lib LogFormat Block

variable {n : ℕ}

structure Tag (n : ℕ) where
  block : BitVec 64
  escaped : Bool
  data : Block n

def LogBuffer.tag (x : LogBuffer n) : Tag n :=
  { block := x.bBlocknr, escaped := (escape x.bData).1
    data := (escape x.bData).2 }

namespace LogFormat

variable (fmt : LogFormat) {b : Block n} {tid : Tid} {t : Tag n} {o flags type : ℕ}

/-- Where the tag number `i` is. -/
def tagOffset (i : ℕ) : ℕ := if i = 0 then 12 else 28 + i * fmt.tagBytes

theorem tagOffset_zero : fmt.tagOffset 0 = 12 := if_pos rfl

theorem tagOffset_succ (i : ℕ) :
    fmt.tagOffset (i + 1) = fmt.tagOffset i + fmt.tagBytes + if i = 0 then 16 else 0 := by
  unfold tagOffset
  cases i with
  | zero =>
    simp only [Nat.zero_add, Nat.one_ne_zero, if_false, if_true]
    omega
  | succ =>
    simp only [Nat.succ_ne_zero, if_false]
    ring

theorem tagOffset_mono {i j : ℕ} (h : i < j) :
    fmt.tagOffset i + fmt.tagBytes ≤ fmt.tagOffset j := by
  induction j with
  | zero => cases h
  | succ j ih =>
    have hstep := fmt.tagOffset_succ j
    rcases Nat.lt_succ_iff_lt_or_eq.mp h with hlt | rfl
    · have := ih hlt
      omega
    · omega

/-- What `write_tag_block` keeps of a block number. -/
def storedBlock (block : BitVec 64) : BitVec 64 :=
  if fmt.f64bit then block else BitVec.ofNat 64 (block.toNat % 2 ^ 32)

structure TagAt (b : Block n) (tid : Tid) (o : ℕ) (t : Tag n) : Prop where
  block : fmt.tagBlock b o = fmt.storedBlock t.block
  csum : fmt.tagCsumOk b o t.data tid = true

theorem TagAt.congr {b' : Block n} (h : fmt.TagAt b tid o t)
    (hb : ∀ p k, o ≤ p → p + k ≤ o + fmt.tagBytes → p + k ≤ o + 6 ∨ o + 8 ≤ p →
      b'.be p k = b.be p k) : fmt.TagAt b' tid o t := by
  have hge := fmt.tagBytes_ge
  constructor
  · rw [← h.block]
    unfold tagBlock
    split_ifs with h64
    · have := fmt.tagBytes_f64bit h64
      rw [hb (o + 8) 4 (by omega) (by omega) (by omega), hb o 4 (by omega) (by omega) (by omega)]
    · rw [hb o 4 (by omega) (by omega) (by omega)]
  · rw [← h.csum]
    unfold tagCsumOk
    split_ifs with hv h3
    · rfl
    · have := fmt.tagBytes_csum3 h3
      rw [hb (o + 12) 4 (by omega) (by omega) (by omega)]
    · rw [hb (o + 4) 2 (by omega) (by omega) (by omega)]

/-- A tag is stored at `o`. -/
def putTag (b : Block n) (tid : Tid) (o : ℕ) (t : Tag n) (flags : ℕ) : Block n :=
  fmt.blockTagCsumSet ((fmt.writeTagBlock b o t.block).put (o + 6) 2 flags) o t.data tid

theorem be_putTag_of_disjoint {p k : ℕ} (h : p + k ≤ o ∨ o + fmt.tagBytes ≤ p) :
    (fmt.putTag b tid o t flags).be p k = b.be p k := by
  have hge := fmt.tagBytes_ge
  have h64 := fmt.tagBytes_f64bit
  have h3 := fmt.tagBytes_csum3
  unfold putTag blockTagCsumSet writeTagBlock
  simp only
  split_ifs with hv h64' h3' h64' h64'
  · have := h64 h64'
    simp (disch := omega) only [be_put_of_disjoint]
  · simp (disch := omega) only [be_put_of_disjoint]
  · have := h3 h3'
    simp (disch := omega) only [be_put_of_disjoint]
  · have := h3 h3'
    simp (disch := omega) only [be_put_of_disjoint]
  · have := h64 h64'
    simp (disch := omega) only [be_put_of_disjoint]
  · simp (disch := omega) only [be_put_of_disjoint]

theorem be_putTag_flags (h : o + fmt.tagBytes ≤ n) (hf : flags < 2 ^ 16) :
    (fmt.putTag b tid o t flags).be (o + 6) 2 = flags := by
  have hge := fmt.tagBytes_ge
  have hlt : flags % 256 ^ 2 = flags := Nat.mod_eq_of_lt hf
  unfold putTag blockTagCsumSet
  split_ifs <;> simp (disch := omega) only [be_put_of_disjoint, be_put, hlt]

theorem be_putTag_low (h : o + fmt.tagBytes ≤ n) :
    (fmt.putTag b tid o t flags).be o 4 = t.block.toNat % 2 ^ 32 := by
  have hge := fmt.tagBytes_ge
  have hlt : t.block.toNat % 2 ^ 32 % 256 ^ 4 = t.block.toNat % 2 ^ 32 := Nat.mod_mod _ _
  unfold putTag blockTagCsumSet writeTagBlock
  simp only
  split_ifs <;> simp (disch := omega) only [be_put_of_disjoint, be_put, hlt]

theorem be_putTag_high (h : o + fmt.tagBytes ≤ n) (h64 : fmt.f64bit = true) :
    (fmt.putTag b tid o t flags).be (o + 8) 4 = t.block.toNat / 2 ^ 32 := by
  have hge := fmt.tagBytes_f64bit h64
  have hlt : t.block.toNat / 2 ^ 31 / 2 % 256 ^ 4 = t.block.toNat / 2 ^ 32 := by
    omega
  unfold putTag blockTagCsumSet writeTagBlock
  simp only
  split_ifs <;> simp (disch := omega) only [be_put_of_disjoint, be_put, hlt]

theorem tagAt_putTag (h : o + fmt.tagBytes ≤ n) :
    fmt.TagAt (fmt.putTag b tid o t flags) tid o t where
  block := by
    rw [tagBlock, storedBlock, fmt.be_putTag_low h]
    split_ifs with h64
    · rw [fmt.be_putTag_high h h64]
      refine BitVec.eq_of_toNat_eq ?_
      rw [BitVec.toNat_ofNat]
      omega
    · rfl
  csum := by
    have hge := fmt.tagBytes_ge
    rw [tagCsumOk]
    split_ifs with hv h3
    · rfl
    · have := fmt.tagBytes_csum3 h3
      rw [putTag, blockTagCsumSet, if_neg hv, if_pos h3, be_put _ (by omega)]
      exact decide_eq_true (Nat.mod_eq_of_lt ((blockChksum _ _ _).isLt.trans_le (by norm_num)))
    · rw [putTag, blockTagCsumSet, if_neg hv, if_neg h3, be_put _ (by omega)]
      exact decide_eq_true rfl

structure HeaderAt (b : Block n) (type : ℕ) (tid : Tid) : Prop where
  magic : b.be 0 4 = jbd2MagicNumber.toNat
  type : b.be 4 4 = type
  sequence : b.be 8 4 = tid.toNat

theorem HeaderAt.congr {b b' : Block n} (h : HeaderAt b type tid)
    (hb : ∀ p k, p + k ≤ 12 → b'.be p k = b.be p k) : HeaderAt b' type tid :=
  ⟨(hb 0 4 (by omega)).trans h.magic, (hb 4 4 (by omega)).trans h.type,
    (hb 8 4 (by omega)).trans h.sequence⟩

theorem headerAt_header (hn : 12 ≤ n) (ht : type < 2 ^ 32) :
    HeaderAt (header type tid : Block n) type tid := by
  have hmagic : jbd2MagicNumber.toNat % 256 ^ 4 = jbd2MagicNumber.toNat := by decide
  have htype : type % 256 ^ 4 = type := Nat.mod_eq_of_lt ht
  have htid : tid.toNat % 256 ^ 4 = tid.toNat := Nat.mod_eq_of_lt tid.isLt
  constructor <;> unfold header <;>
    simp (disch := omega) only [be_put_of_disjoint, be_put, hmagic, htype, htid]

end LogFormat

namespace Descriptor

variable {fmt : LogFormat} {tid : Tid} {d : Descriptor n} {ts : List (Tag n)}

/-- The flags of tag number `i`, before the last one is marked. -/
def openFlags (t : Tag n) (i : ℕ) : ℕ :=
  (if t.escaped then flagEscape else 0) |||
    (if i = 0 then 0 else flagSameUuid)

structure Holds (fmt : LogFormat) (tid : Tid) (d : Descriptor n) (ts : List (Tag n)) : Prop where
  header : LogFormat.HeaderAt d.bData descriptorBlock tid
  tagp : d.tagp = fmt.tagOffset ts.length
  tag : d.tag = fmt.tagOffset (ts.length - 1)
  space : d.spaceLeft = n - d.tagp
  first : d.firstTag = decide (ts.length = 0)
  flags : ∀ i (h : i < ts.length), d.bData.be (fmt.tagOffset i + 6) 2 = openFlags ts[i] i
  tags : ∀ i (h : i < ts.length), fmt.TagAt d.bData tid (fmt.tagOffset i) ts[i]

def Room (fmt : LogFormat) (d : Descriptor n) : Prop :=
  d.tagp + fmt.tagBytes + 16 + fmt.csumSize ≤ n

theorem holds_new (hn : 12 ≤ n) (pos : ℕ) : Holds fmt tid (new tid pos : Descriptor n) [] where
  header := headerAt_header hn (by decide)
  tagp := fmt.tagOffset_zero.symm
  tag := fmt.tagOffset_zero.symm
  space := rfl
  first := rfl
  flags := nofun
  tags := nofun

theorem openFlags_lt (t : Tag n) (i : ℕ) : openFlags t i < 2 ^ 16 := by
  unfold openFlags
  split_ifs <;> decide

def nextData (fmt : LogFormat) (tid : Tid) (d : Descriptor n) (t : Tag n) (i : ℕ) : Block n :=
  let b := fmt.putTag d.bData tid d.tagp t (openFlags t i)
  if i = 0 then b.patch (d.tagp + fmt.tagBytes) 16 fmt.jUuid.byte else b

theorem be_nextData {t : Tag n} {i p k : ℕ} (hle : p + k ≤ d.tagp + fmt.tagBytes) :
    (nextData fmt tid d t i).be p k = (fmt.putTag d.bData tid d.tagp t (openFlags t i)).be p k := by
  unfold nextData
  split_ifs
  · exact be_patch_of_disjoint (.inl hle)
  · rfl

theorem Holds.addTag_eq (h : Holds fmt tid d ts) (t : Tag n) :
    d.addTag fmt tid t.block t.escaped t.data =
      { d with
        bData := nextData fmt tid d t ts.length, tagp := fmt.tagOffset (ts.length + 1)
        tag := d.tagp, spaceLeft := n - fmt.tagOffset (ts.length + 1), firstTag := false } := by
  have hsucc := fmt.tagOffset_succ ts.length
  have htagp := h.tagp
  have hspace := h.space
  by_cases hz : ts.length = 0
  · have hfirst : d.firstTag = true := by rw [h.first, hz]; rfl
    rw [if_pos hz] at hsucc
    simp only [addTag, nextData, openFlags, putTag, hfirst, hz, if_true,
      Descriptor.mk.injEq, true_and, and_true]
    rw [hz] at hsucc htagp
    refine ⟨by omega, ?_⟩
    rw [hspace]
    push_cast [hsucc, htagp]
    ring
  · have hfirst : d.firstTag = false := by rw [h.first]; exact decide_eq_false hz
    rw [if_neg hz] at hsucc
    simp only [addTag, nextData, openFlags, putTag, hfirst, hz, if_false,
      Bool.false_eq_true, Descriptor.mk.injEq, true_and, and_true]
    refine ⟨by omega, ?_⟩
    rw [hspace]
    push_cast [hsucc, htagp]
    ring

theorem Holds.addTag (h : Holds fmt tid d ts) (hr : Room fmt d) (t : Tag n) :
    Holds fmt tid (d.addTag fmt tid t.block t.escaped t.data) (ts ++ [t]) := by
  have hge := fmt.tagBytes_ge
  have hroom : d.tagp + fmt.tagBytes ≤ n := by
    unfold Room at hr
    omega
  have hlen : (ts ++ [t]).length = ts.length + 1 := by simp
  have hkeep : ∀ p k, p + k ≤ d.tagp →
      (nextData fmt tid d t ts.length).be p k = d.bData.be p k := fun p k hpk => by
    rw [be_nextData (by omega), fmt.be_putTag_of_disjoint (.inl hpk)]
  have hbefore : ∀ i, i < ts.length → fmt.tagOffset i + fmt.tagBytes ≤ d.tagp := fun i hi => by
    rw [h.tagp]
    exact fmt.tagOffset_mono hi
  have hstart : 12 ≤ d.tagp := by
    rw [h.tagp]
    unfold tagOffset
    split_ifs <;> omega
  rw [h.addTag_eq]
  refine
    { header := h.header.congr fun p k hpk => hkeep p k (by omega), tagp := by rw [hlen]
      tag := by rw [hlen]; exact h.tagp, space := rfl, first := by simp, flags := fun i hi => ?_
      tags := fun i hi => ?_ }
  · rcases Nat.lt_succ_iff_lt_or_eq.mp (hlen ▸ hi) with hlt | rfl
    · have := hbefore i hlt
      rw [List.getElem_append_left hlt, hkeep _ _ (by omega)]
      exact h.flags i hlt
    · rw [List.getElem_concat_length rfl, ← h.tagp, be_nextData (by omega)]
      exact fmt.be_putTag_flags hroom (openFlags_lt t _)
  · rcases Nat.lt_succ_iff_lt_or_eq.mp (hlen ▸ hi) with hlt | rfl
    · have := hbefore i hlt
      rw [List.getElem_append_left hlt]
      exact (h.tags i hlt).congr fmt fun p k _ hpk _ => hkeep p k (by omega)
    · rw [List.getElem_concat_length rfl, ← h.tagp]
      exact (fmt.tagAt_putTag hroom).congr fmt fun p k _ hpk _ => be_nextData hpk

/-- The flags of tag number `i` of `k`. -/
def closedFlags (t : Tag n) (i k : ℕ) : ℕ :=
  openFlags t i ||| if i + 1 = k then flagLastTag else 0

theorem flags_testBit : ∀ escaped first last : Bool,
    let flags := (if escaped then flagEscape else 0) |||
      (if first then 0 else flagSameUuid) ||| if last then flagLastTag else 0
    flags.testBit 0 = escaped ∧ flags.testBit 1 = !first ∧ flags.testBit 3 = last := by
  decide

theorem closedFlags_testBit (t : Tag n) (i k : ℕ) :
    (closedFlags t i k).testBit 0 = t.escaped ∧ (closedFlags t i k).testBit 1 = !decide (i = 0) ∧
      (closedFlags t i k).testBit 3 = decide (i + 1 = k) := by
  have h := flags_testBit t.escaped (decide (i = 0)) (decide (i + 1 = k))
  simp only [decide_eq_true_eq] at h
  exact h

end Descriptor

structure LogFormat.Encodes (fmt : LogFormat) (tid : Tid) (b : Block n) (ts : List (Tag n)) :
    Prop where
  header : HeaderAt b descriptorBlock tid
  nonempty : ts ≠ []
  fits : fmt.tagOffset ts.length ≤ n - fmt.csumSize
  flags : ∀ i (h : i < ts.length),
    b.be (fmt.tagOffset i + 6) 2 = Descriptor.closedFlags ts[i] i ts.length
  tags : ∀ i (h : i < ts.length), fmt.TagAt b tid (fmt.tagOffset i) ts[i]
  csum : fmt.tailCsumOk b = true

namespace LogFormat

variable (fmt : LogFormat) {b : Block n}

theorem be_descriptorBlockCsumSet {p k : ℕ} (h : p + k ≤ n - fmt.csumSize) :
    (fmt.descriptorBlockCsumSet b).be p k = b.be p k := by
  rw [descriptorBlockCsumSet]
  split_ifs with hv
  · rfl
  · have hcs : fmt.csumSize = 4 := if_pos (by simpa using hv)
    exact be_put_of_disjoint (.inl (by omega))

theorem tailCsumOk_descriptorBlockCsumSet (hn : 4 ≤ n) :
    fmt.tailCsumOk (fmt.descriptorBlockCsumSet b) = true := by
  rw [tailCsumOk, descriptorBlockCsumSet]
  split_ifs with hv
  · rfl
  have hlt : (fmt.wholeChksum b (n - 4)).toNat % 256 ^ 4 = (fmt.wholeChksum b (n - 4)).toNat :=
    Nat.mod_eq_of_lt (BitVec.isLt _)
  rw [be_put _ (by omega), hlt]
  refine decide_eq_true (congrArg BitVec.toNat ?_)
  rw [wholeChksum, wholeChksum, put_put]

end LogFormat

namespace Descriptor

variable {fmt : LogFormat} {tid : Tid} {d : Descriptor n} {ts : List (Tag n)}

theorem Holds.close (h : Holds fmt tid d ts) (hne : ts ≠ []) (hfit : d.tagp ≤ n - fmt.csumSize)
    (hn : 4 ≤ n) : fmt.Encodes tid (d.close fmt).bData ts := by
  have hge := fmt.tagBytes_ge
  have hlen : 0 < ts.length := List.length_pos_of_ne_nil hne
  have hlast : ts.length - 1 < ts.length := by omega
  have hafter : ∀ i, i < ts.length → fmt.tagOffset i + fmt.tagBytes ≤ d.tagp := fun i hi => by
    rw [h.tagp]
    exact fmt.tagOffset_mono hi
  have hstart : ∀ i, 12 ≤ fmt.tagOffset i := fun i => by
    unfold tagOffset
    split_ifs <;> omega
  have htag := hafter _ hlast
  rw [← h.tag] at htag
  -- all bytes but the flags of the last tag and the checksum are the same
  have hkeep : ∀ p k, p + k ≤ n - fmt.csumSize → p + k ≤ d.tag + 6 ∨ d.tag + 8 ≤ p →
      (d.close fmt).bData.be p k = d.bData.be p k := fun p k hpk hdis => by
    rw [Descriptor.close, fmt.be_descriptorBlockCsumSet hpk, be_put_of_disjoint hdis]
  have htag12 : 12 ≤ d.tag := by
    rw [h.tag]
    exact hstart _
  refine
    { header := h.header.congr fun p k hpk => hkeep p k (by omega) (by omega)
      nonempty := hne, fits := h.tagp ▸ hfit, flags := fun i hi => ?_, tags := fun i hi => ?_
      csum := fmt.tailCsumOk_descriptorBlockCsumSet hn }
  · have hi' := hafter i hi
    by_cases hil : i + 1 = ts.length
    · have hoff : fmt.tagOffset i = d.tag := by
        rw [h.tag]
        congr 1
        omega
      have hlt : (openFlags ts[i] i ||| flagLastTag) % 256 ^ 2 =
          openFlags ts[i] i ||| flagLastTag := by
        refine Nat.mod_eq_of_lt (Nat.or_lt_two_pow (n := 16) (openFlags_lt _ _) (by decide))
      rw [closedFlags, if_pos hil, hoff, Descriptor.close,
        fmt.be_descriptorBlockCsumSet (by omega), be_put _ (by omega), ← hoff,
        h.flags i hi, hlt]
    · have hbef : fmt.tagOffset i + fmt.tagBytes ≤ d.tag := by
        rw [h.tag]
        exact fmt.tagOffset_mono (by omega)
      rw [closedFlags, if_neg hil, hkeep _ _ (by omega) (by omega), h.flags i hi, Nat.or_zero]
  · have hi' := hafter i hi
    refine (h.tags i hi).congr fmt fun p k hp hpk hdis => hkeep p k (by omega) ?_
    by_cases hil : i + 1 = ts.length
    · have hoff : fmt.tagOffset i = d.tag := by
        rw [h.tag]
        congr 1
        omega
      omega
    · have hbef : fmt.tagOffset i + fmt.tagBytes ≤ d.tag := by
        rw [h.tag]
        exact fmt.tagOffset_mono (by omega)
      omega

end Descriptor

namespace LogFormat.Encodes

variable {cfg : RecoveryConfig} {tid : Tid} {b : Block n} {ts : List (Tag n)}

theorem nextTag (h : cfg.Encodes tid b ts) {i : ℕ} (hi : i < ts.length) :
    cfg.nextTag b (cfg.tagOffset i) = cfg.tagOffset (i + 1) := by
  rw [RecoveryConfig.nextTag, h.flags i hi, (Descriptor.closedFlags_testBit _ _ _).2.1,
    cfg.tagOffset_succ]
  by_cases hz : i = 0 <;> simp [hz]

theorem tagsFrom (h : cfg.Encodes tid b ts) (j : ℕ) {i rounds : ℕ} (hij : i + (j + 1) = ts.length)
    (hr : RecoveryConfig.Enough n rounds (cfg.tagOffset i)) :
    cfg.tagsFrom b rounds (cfg.tagOffset i) = (List.range' i (j + 1)).map cfg.tagOffset := by
  have hi : i < ts.length := by omega
  have hle : cfg.tagOffset i + cfg.tagBytes ≤ n - cfg.csumSize :=
    (cfg.tagOffset_mono hi).trans h.fits
  obtain ⟨rounds, rfl⟩ : ∃ r, rounds = r + 1 := ⟨rounds - 1, by have := hr.1; omega⟩
  rw [RecoveryConfig.tagsFrom, if_pos hle, h.flags i hi,
    (Descriptor.closedFlags_testBit _ _ _).2.2, h.nextTag hi]
  induction j generalizing i rounds with
  | zero =>
    rw [if_pos (decide_eq_true hij)]
    rfl
  | succ _ ih =>
    have hnext : RecoveryConfig.Enough n rounds (cfg.tagOffset (i + 1)) :=
      h.nextTag hi ▸ hr.next cfg hle
    obtain ⟨rounds, rfl⟩ : ∃ r, rounds = r + 1 := ⟨rounds - 1, by have := hnext.1; omega⟩
    have hi' : i + 1 < ts.length := by omega
    have hle' : cfg.tagOffset (i + 1) + cfg.tagBytes ≤ n - cfg.csumSize :=
      (cfg.tagOffset_mono hi').trans h.fits
    rw [if_neg (by simp; omega), List.range'_succ, List.map_cons, RecoveryConfig.tagsFrom,
      if_pos hle', h.flags _ hi', (Descriptor.closedFlags_testBit _ _ _).2.2, h.nextTag hi',
      ih (by omega) hi' hle' rounds hnext]

theorem tagOffsets (h : cfg.Encodes tid b ts) :
    cfg.tagOffsets b = (List.range ts.length).map cfg.tagOffset := by
  have hpos : 0 < ts.length := List.length_pos_of_ne_nil h.nonempty
  have hstart := RecoveryConfig.enough_start (n := n)
  rw [← cfg.tagOffset_zero] at hstart
  have := h.tagsFrom (ts.length - 1) (by omega) hstart
  rw [RecoveryConfig.tagOffsets, ← cfg.tagOffset_zero, this, List.range_eq_range']
  congr 2
  omega

end LogFormat.Encodes

end VMsep.Jbd2
