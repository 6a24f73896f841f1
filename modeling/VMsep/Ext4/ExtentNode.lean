import VMsep.Ext4.SystemZone

/-! A node of the extent tree as it is read from disk, the check it has to pass, and the binary
search that relies on the check. -/

namespace VMsep.Ext4

open Lib List

/-- Twelve bytes of a node: a `struct ext4_extent` in a leaf, a `struct ext4_extent_idx` above. -/
structure ExtentSlot where
  eeBlock : BitVec 32
  eeLen : BitVec 16
  eeStartHi : BitVec 16
  eeStartLo : BitVec 32
  deriving DecidableEq

structure ExtentNode where
  ehMagic : BitVec 16
  ehEntries : BitVec 16
  ehMax : BitVec 16
  ehDepth : BitVec 16
  slots : ℕ → ExtentSlot

namespace ExtentSlot

def extInitMaxLen : ℕ := 2 ^ 15

/-- `ee_block`, and `ei_block` of an index. -/
def lblock (e : ExtentSlot) : ℕ := e.eeBlock.toNat

def actualLen (e : ExtentSlot) : ℕ :=
  if e.eeLen.toNat ≤ extInitMaxLen then e.eeLen.toNat else e.eeLen.toNat - extInitMaxLen

def pblock (e : ExtentSlot) : ℕ := (e.eeStartHi ++ e.eeStartLo).toNat

/-- `ext4_idx_pblock`: `ei_leaf_lo` and `ei_leaf_hi` are the bytes after `ei_block`. -/
def idxPblock (e : ExtentSlot) : ℕ :=
  (e.eeStartLo.extractLsb' 0 16 ++ (e.eeStartHi ++ e.eeLen)).toNat

end ExtentSlot

open ExtentSlot

/-- What the check knows of the inode and the file system; `csumOk` says whether the checksum of
the node is right. -/
structure NodeContext where
  blocksize : ℕ
  extDepth : ℕ
  csumOk : Bool

def NodeContext.maxEntries (c : NodeContext) (depth : ℕ) : ℕ :=
  if depth = c.extDepth then (60 - 12) / 12 else (c.blocksize - 12) / 12

def validExtent (sbi : ZoneInfo) (e : ExtentSlot) : Bool × ZoneInfo :=
  if (e.lblock + e.actualLen) % 2 ^ 32 ≤ e.lblock then (false, sbi)
  else dataBlockValid sbi e.pblock e.actualLen

def validExtentIdx (sbi : ZoneInfo) (e : ExtentSlot) : Bool × ZoneInfo :=
  dataBlockValid sbi e.idxPblock 1

/-- The loop of `ext4_valid_extent_entries` over a leaf; `prev` is the last block of the extent
before, and zero at the start. -/
def validLeaf (sbi : ZoneInfo) (prev : ℕ) : List ExtentSlot → Bool × ZoneInfo
  | [] => (true, sbi)
  | e :: rest =>
    let r := validExtent sbi e
    if r.1 then
      if e.lblock ≤ prev ∧ prev ≠ 0 then (false, { r.2 with sLastErrorBlock := e.pblock })
      else validLeaf r.2 ((e.lblock + e.actualLen + (2 ^ 32 - 1)) % 2 ^ 32) rest
    else r

def validIndex (sbi : ZoneInfo) : List ExtentSlot → Bool × ZoneInfo
  | [] => (true, sbi)
  | e :: rest =>
    let r := validExtentIdx sbi e
    if r.1 then validIndex r.2 rest else r

def ExtentNode.entries (eh : ExtentNode) : List ExtentSlot :=
  (List.range eh.ehEntries.toNat).map eh.slots

def validExtentEntries (sbi : ZoneInfo) (eh : ExtentNode) (depth : ℕ) : Bool × ZoneInfo :=
  if eh.ehEntries = 0 then (true, sbi)
  else if depth = 0 then validLeaf sbi 0 eh.entries
  else validIndex sbi eh.entries

/-- `EFSBADCRC` for the checksum and `EFSCORRUPTED` otherwise. -/
inductive NodeErrno where
  | efscorrupted
  | efsbadcrc
  deriving DecidableEq

/-- The error that is returned, and what is printed. -/
structure NodeError where
  err : NodeErrno
  errorMsg : String
  deriving DecidableEq

def ext4ExtMagic : BitVec 16 := 0xf30a#16

def extCheck (c : NodeContext) (sbi : ZoneInfo) (eh : ExtentNode) (depth : ℕ) :
    Except NodeError Unit × ZoneInfo :=
  if eh.ehMagic ≠ ext4ExtMagic then (.error ⟨.efscorrupted, "invalid magic"⟩, sbi)
  else if eh.ehDepth.toNat ≠ depth then
    (.error ⟨.efscorrupted, "unexpected eh_depth"⟩, sbi)
  else if eh.ehMax = 0 then (.error ⟨.efscorrupted, "invalid eh_max"⟩, sbi)
  else if c.maxEntries depth < eh.ehMax.toNat then
    (.error ⟨.efscorrupted, "too large eh_max"⟩, sbi)
  else if eh.ehMax.toNat < eh.ehEntries.toNat then
    (.error ⟨.efscorrupted, "invalid eh_entries"⟩, sbi)
  else
    let r := validExtentEntries sbi eh depth
    if r.1 = false then (.error ⟨.efscorrupted, "invalid extent entries"⟩, r.2)
    else if 32 < depth then (.error ⟨.efscorrupted, "too large eh_depth"⟩, r.2)
    else if c.extDepth ≠ depth ∧ c.csumOk = false then
      (.error ⟨.efsbadcrc, "extent tree corrupted"⟩, r.2)
    else (.ok (), r.2)

/-- The loop of the binary searches between the pointers `l` and `r`; `hi` is one more than `r`. -/
def binsearchLoop (key : ℕ → ℕ) (block : ℕ) (l hi : ℕ) : ℕ :=
  if l < hi then
    let m := l + (hi - 1 - l) / 2
    if block < key m then binsearchLoop key block l m else binsearchLoop key block (m + 1) hi
  else l
termination_by hi - l

/-- `ext4_ext_binsearch_idx`: the entry that is selected. -/
def extBinsearchIdx (eh : ExtentNode) (block : ℕ) : ℕ :=
  binsearchLoop (fun i => (eh.slots i).lblock) block 1 eh.ehEntries.toNat - 1

/-- `ext4_ext_binsearch`, which does nothing on an empty leaf. -/
def extBinsearch (eh : ExtentNode) (block : ℕ) : Option ℕ :=
  if eh.ehEntries = 0 then none
  else some (binsearchLoop (fun i => (eh.slots i).lblock) block 1 eh.ehEntries.toNat - 1)

structure LeafSorted (l : List ExtentSlot) : Prop where
  pos : ∀ e ∈ l, 0 < e.actualLen
  noWrap : ∀ e ∈ l, e.lblock + e.actualLen < 2 ^ 32
  disjoint : l.Pairwise fun a b => a.lblock + a.actualLen ≤ b.lblock

variable {sbi : ZoneInfo} {e : ExtentSlot} {l : List ExtentSlot} {prev : ℕ} {eh : ExtentNode}

theorem actualLen_le (e : ExtentSlot) : e.actualLen ≤ 2 ^ 15 := by
  unfold actualLen ExtentSlot.extInitMaxLen
  split_ifs <;> omega

theorem dataBlockValid_state {s c : ℕ} (h : (dataBlockValid sbi s c).1 = true) :
    (dataBlockValid sbi s c).2 = sbi := by
  unfold dataBlockValid at h ⊢
  split_ifs at h ⊢
  rfl

theorem validExtent_spec (h : (validExtent sbi e).1 = true) :
    (validExtent sbi e).2 = sbi ∧ 0 < e.actualLen ∧ e.lblock + e.actualLen < 2 ^ 32 ∧
      (dataBlockValid sbi e.pblock e.actualLen).1 = true := by
  unfold validExtent at h ⊢
  have hlen := actualLen_le e
  have hblk : e.lblock < 2 ^ 32 := e.eeBlock.isLt
  split_ifs at h ⊢ with hwrap
  refine ⟨dataBlockValid_state h, ?_, ?_, h⟩
  · by_contra hzero
    rw [Nat.eq_zero_of_not_pos hzero, Nat.add_zero, Nat.mod_eq_of_lt hblk] at hwrap
    exact hwrap le_rfl
  · by_contra hge
    refine hwrap ?_
    rw [show e.lblock + e.actualLen = e.lblock + e.actualLen - 2 ^ 32 + 2 ^ 32 by omega,
      Nat.add_mod_right, Nat.mod_eq_of_lt (by omega)]
    omega

theorem validLeaf_cons (h : (validLeaf sbi prev (e :: l)).1 = true) :
    0 < e.actualLen ∧ e.lblock + e.actualLen < 2 ^ 32 ∧
      (dataBlockValid sbi e.pblock e.actualLen).1 = true ∧ (prev ≠ 0 → prev < e.lblock) ∧
      (validLeaf sbi (e.lblock + e.actualLen - 1) l).1 = true := by
  unfold validLeaf at h
  dsimp only at h
  split_ifs at h with hvalid hover
  · obtain ⟨hsame, hpos, hwrap, hdata⟩ := validExtent_spec hvalid
    have hlast : (e.lblock + e.actualLen + (2 ^ 32 - 1)) % 2 ^ 32 =
        e.lblock + e.actualLen - 1 := by
      rw [show e.lblock + e.actualLen + (2 ^ 32 - 1) = e.lblock + e.actualLen - 1 + 2 ^ 32 by
        omega, Nat.add_mod_right, Nat.mod_eq_of_lt (by omega)]
    rw [hsame, hlast] at h
    refine ⟨hpos, hwrap, hdata, fun hne => ?_, h⟩
    by_contra hle
    exact hover ⟨by omega, hne⟩
  · exact absurd h hvalid

theorem LeafSorted.cons (hpos : 0 < e.actualLen) (hwrap : e.lblock + e.actualLen < 2 ^ 32)
    (hafter : ∀ f ∈ l, e.lblock + e.actualLen ≤ f.lblock) (h : LeafSorted l) :
    LeafSorted (e :: l) :=
  ⟨forall_mem_cons.mpr ⟨hpos, h.pos⟩, forall_mem_cons.mpr ⟨hwrap, h.noWrap⟩,
    pairwise_cons.mpr ⟨hafter, h.disjoint⟩⟩

theorem validLeaf_after (h : (validLeaf sbi prev l).1 = true) (hprev : prev ≠ 0) :
    LeafSorted l ∧ (∀ e ∈ l, prev < e.lblock) ∧
      ∀ e ∈ l, (dataBlockValid sbi e.pblock e.actualLen).1 = true := by
  induction l generalizing prev with
  | nil => exact ⟨⟨by simp, by simp, .nil⟩, by simp, by simp⟩
  | cons e l ih =>
    obtain ⟨hpos, hwrap, hdata, hlt, hrest⟩ := validLeaf_cons h
    have hlt := hlt hprev
    obtain ⟨hsorted, hafter, hvalid⟩ := ih hrest (by omega)
    refine ⟨hsorted.cons hpos hwrap fun f hf => ?_, ?_, forall_mem_cons.mpr ⟨hdata, hvalid⟩⟩
    · have := hafter f hf
      omega
    refine forall_mem_cons.mpr ⟨hlt, fun f hf => ?_⟩
    have := hafter f hf
    omega

/-- An accepted leaf is sorted, if its second extent does not start at block `0`. -/
theorem validLeaf_spec (h : (validLeaf sbi 0 l).1 = true)
    (hsecond : ∀ e f m, l = e :: f :: m → f.lblock ≠ 0) :
    LeafSorted l ∧ ∀ e ∈ l, (dataBlockValid sbi e.pblock e.actualLen).1 = true := by
  cases l with
  | nil => exact ⟨⟨by simp, by simp, .nil⟩, by simp⟩
  | cons e l =>
    obtain ⟨hpos, hwrap, hdata, -, hrest⟩ := validLeaf_cons h
    by_cases hlast : e.lblock + e.actualLen - 1 = 0
    · -- the first extent is block `0`, and the second one is not compared with it
      cases l with
      | nil =>
        refine ⟨LeafSorted.cons hpos hwrap (by simp) ⟨by simp, by simp, .nil⟩, ?_⟩
        exact forall_mem_cons.mpr ⟨hdata, by simp⟩
      | cons f m =>
        have hf := hsecond e f m rfl
        obtain ⟨hpos', hwrap', hdata', -, hrest'⟩ := validLeaf_cons hrest
        obtain ⟨hsorted, hafter, hvalid⟩ := validLeaf_after hrest' (by omega)
        have hsorted' : LeafSorted (f :: m) := by
          refine hsorted.cons hpos' hwrap' fun g hg => ?_
          have := hafter g hg
          omega
        refine ⟨hsorted'.cons hpos hwrap ?_, ?_⟩
        · refine forall_mem_cons.mpr ⟨by omega, fun g hg => ?_⟩
          have := hafter g hg
          omega
        · exact forall_mem_cons.mpr ⟨hdata, forall_mem_cons.mpr ⟨hdata', hvalid⟩⟩
    · obtain ⟨hsorted, hafter, hvalid⟩ := validLeaf_after hrest hlast
      refine ⟨hsorted.cons hpos hwrap fun f hf => ?_, forall_mem_cons.mpr ⟨hdata, hvalid⟩⟩
      have := hafter f hf
      omega

theorem validIndex_spec (h : (validIndex sbi l).1 = true) :
    ∀ e ∈ l, (dataBlockValid sbi e.idxPblock 1).1 = true := by
  induction l generalizing sbi with
  | nil => simp
  | cons e l ih =>
    unfold validIndex validExtentIdx at h
    dsimp only at h
    split_ifs at h with hvalid
    · rw [dataBlockValid_state hvalid] at h
      exact forall_mem_cons.mpr ⟨hvalid, ih h⟩
    · exact absurd h hvalid

/-- The entry that a search has to select: the last one whose first block is not after `block`, or
the first one. -/
def Selects (eh : ExtentNode) (block i : ℕ) : Prop :=
  i < eh.ehEntries.toNat ∧ (i = 0 ∨ (eh.slots i).lblock ≤ block) ∧
    ∀ j, i < j → j < eh.ehEntries.toNat → block < (eh.slots j).lblock

theorem binsearchLoop_spec {key : ℕ → ℕ} {block n l hi : ℕ}
    (hkey : ∀ i j, i < j → j < n → key i < key j) (hl : 0 < l) (hlh : l ≤ hi) (hn : hi ≤ n)
    (hleft : l = 1 ∨ key (l - 1) ≤ block) (hright : ∀ j, hi ≤ j → j < n → block < key j) :
    0 < binsearchLoop key block l hi ∧ binsearchLoop key block l hi ≤ n ∧
      (binsearchLoop key block l hi = 1 ∨ key (binsearchLoop key block l hi - 1) ≤ block) ∧
      ∀ j, binsearchLoop key block l hi ≤ j → j < n → block < key j := by
  fun_induction binsearchLoop key block l hi with
  | case1 l hi hlt m hm ih =>
    refine ih hl (by omega) (by omega) hleft fun j hj hjn => ?_
    rcases Nat.eq_or_lt_of_le hj with rfl | hmj
    · exact hm
    · exact hm.trans (hkey m j hmj hjn)
  | case2 l hi hlt m hm ih =>
    refine ih (by omega) (by omega) hn (.inr ?_) hright
    rw [Nat.add_sub_cancel]
    omega
  | case3 l hi hge =>
    obtain rfl : l = hi := by omega
    exact ⟨hl, hn, hleft, hright⟩

def Increasing (eh : ExtentNode) : Prop :=
  ∀ i j, i < j → j < eh.ehEntries.toNat → (eh.slots i).lblock < (eh.slots j).lblock

theorem binsearch_selects (hinc : Increasing eh) (hpos : 0 < eh.ehEntries.toNat) (block : ℕ) :
    Selects eh block
      (binsearchLoop (fun i => (eh.slots i).lblock) block 1 eh.ehEntries.toNat - 1) := by
  obtain ⟨h0, hn, hleft, hright⟩ := binsearchLoop_spec hinc Nat.one_pos hpos le_rfl (.inl rfl)
    (fun j hj hjn => absurd hjn (Nat.not_lt.mpr hj) : ∀ j, _ → _ → block < _)
  generalize binsearchLoop (fun i => (eh.slots i).lblock) block 1 eh.ehEntries.toNat = p at *
  refine ⟨by omega, ?_, fun j hj hjn => hright j (by omega) hjn⟩
  rcases hleft with rfl | hle
  · exact .inl rfl
  · exact .inr hle

structure Searchable (sbi : ZoneInfo) (eh : ExtentNode) (depth : ℕ) : Prop where
  increasing : Increasing eh
  disjoint : depth = 0 → LeafSorted eh.entries
  valid : ∀ e ∈ eh.entries, if depth = 0 then (dataBlockValid sbi e.pblock e.actualLen).1 = true
    else (dataBlockValid sbi e.idxPblock 1).1 = true
  nonempty : depth ≠ 0 → 0 < eh.ehEntries.toNat
  idx : depth ≠ 0 → ∀ block, Selects eh block (extBinsearchIdx eh block)
  leaf : depth = 0 → 0 < eh.ehEntries.toNat →
    ∀ block, ∃ i, extBinsearch eh block = some i ∧ Selects eh block i

/-- What the check does not look at: that the second extent of a leaf does not start at block `0`
again, and that an index node has entries with strictly increasing first blocks. -/
def Unchecked (eh : ExtentNode) (depth : ℕ) : Prop :=
  if depth = 0 then 1 < eh.ehEntries.toNat → (eh.slots 1).lblock ≠ 0
  else 0 < eh.ehEntries.toNat ∧ Increasing eh

theorem ExtentNode.getElem?_entries {i : ℕ} (hi : i < eh.ehEntries.toNat) :
    eh.entries[i]? = some (eh.slots i) := by
  simp [ExtentNode.entries, hi]

theorem validExtentEntries_leaf (h : (validExtentEntries sbi eh 0).1 = true)
    (hsecond : 1 < eh.ehEntries.toNat → (eh.slots 1).lblock ≠ 0) : LeafSorted eh.entries ∧
      ∀ e ∈ eh.entries, (dataBlockValid sbi e.pblock e.actualLen).1 = true := by
  unfold validExtentEntries at h
  by_cases hzero : eh.ehEntries = 0
  · have hnil : eh.entries = [] := by simp [ExtentNode.entries, hzero]
    rw [hnil]
    exact ⟨⟨by simp, by simp, .nil⟩, by simp⟩
  · rw [if_neg hzero, if_pos rfl] at h
    refine validLeaf_spec h fun e f m heq => ?_
    have hlen : 1 < eh.ehEntries.toNat := by
      have := congrArg length heq
      simp only [ExtentNode.entries, length_map, length_range, length_cons] at this
      omega
    have hf := ExtentNode.getElem?_entries hlen
    rw [heq] at hf
    obtain rfl : f = eh.slots 1 := Option.some.inj hf
    exact hsecond hlen

theorem increasing_of_leaf (h : LeafSorted eh.entries) : Increasing eh := by
  intro i j hij hj
  have hlen : eh.entries.length = eh.ehEntries.toNat := by simp [ExtentNode.entries]
  have hd := pairwise_iff_getElem.mp h.disjoint i j (by omega) (by omega) hij
  have hp := h.pos eh.entries[i] (getElem_mem (by omega))
  simp only [ExtentNode.entries, getElem_map, getElem_range] at hd hp
  omega

theorem searchable_leaf (h : (validExtentEntries sbi eh 0).1 = true)
    (hsecond : 1 < eh.ehEntries.toNat → (eh.slots 1).lblock ≠ 0) : Searchable sbi eh 0 := by
  obtain ⟨hsorted, hvalid⟩ := validExtentEntries_leaf h hsecond
  have hinc := increasing_of_leaf hsorted
  refine ⟨hinc, fun _ => hsorted, fun e he => ?_, by simp, by simp, fun _ hpos block => ?_⟩
  · rw [if_pos rfl]
    exact hvalid e he
  refine ⟨_, if_neg ?_, binsearch_selects hinc hpos block⟩
  intro hzero
  rw [hzero] at hpos
  exact absurd hpos (by decide)

theorem searchable_index {depth : ℕ} (h : (validExtentEntries sbi eh depth).1 = true)
    (hdepth : depth ≠ 0) (hpos : 0 < eh.ehEntries.toNat) (hinc : Increasing eh) :
    Searchable sbi eh depth := by
  refine ⟨hinc, fun h0 => absurd h0 hdepth, fun e he => ?_, fun _ => hpos,
    fun _ block => binsearch_selects hinc hpos block, fun h0 => absurd h0 hdepth⟩
  rw [if_neg hdepth]
  unfold validExtentEntries at h
  split_ifs at h with hzero
  · rw [hzero] at hpos
    exact absurd hpos (by decide)
  · exact validIndex_spec h e he

/-- A node that the check accepts can be searched if and only if it also meets what the check does
not look at. -/
theorem extCheck_searchable (c : NodeContext) (sbi : ZoneInfo) (eh : ExtentNode) (depth : ℕ)
    (h : (extCheck c sbi eh depth).1 = .ok ()) :
    Searchable sbi eh depth ↔ Unchecked eh depth := by
  have hentries : (validExtentEntries sbi eh depth).1 = true := by
    unfold extCheck at h
    dsimp only at h
    split_ifs at h with h1 h2 h3 h4 h5 h6 h7 h8
    exact Bool.not_eq_false _ |>.mp h6
  unfold Unchecked
  by_cases hdepth : depth = 0
  · subst hdepth
    rw [if_pos rfl]
    refine ⟨fun hs hlen => ?_, searchable_leaf hentries⟩
    have := hs.increasing 0 1 Nat.one_pos hlen
    omega
  · rw [if_neg hdepth]
    refine ⟨fun hs => ⟨hs.nonempty hdepth, hs.increasing⟩, ?_⟩
    rintro ⟨hpos, hinc⟩
    exact searchable_index hentries hdepth hpos hinc

def sampleContext : NodeContext := { blocksize := 1024, extDepth := 0, csumOk := true }

def sampleNode (depth : BitVec 16) (entries : List ExtentSlot) : ExtentNode where
  ehMagic := ext4ExtMagic
  ehEntries := BitVec.ofNat 16 entries.length
  ehMax := 4
  ehDepth := depth
  slots i := entries.getD i ⟨0, 0, 0, 0⟩

/-- Extents at blocks `0`, `3` and `8`. -/
def sampleLeaf : ExtentNode := sampleNode 0 [⟨0, 1, 0, 100⟩, ⟨3, 2, 0, 200⟩, ⟨8, 0x8001, 0, 300⟩]

theorem extCheck_searchable_sample :
    (extCheck sampleContext (.start 0 1000 0) sampleLeaf 0).1 = .ok () ∧
      Searchable (.start 0 1000 0) sampleLeaf 0 := by
  have hok : (extCheck sampleContext (.start 0 1000 0) sampleLeaf 0).1 = .ok () := by rfl
  refine ⟨hok, (extCheck_searchable sampleContext (.start 0 1000 0) sampleLeaf 0 hok).mpr ?_⟩
  intro _
  decide

/-- Two extents at block `0`. -/
def doubleLeaf : ExtentNode := sampleNode 0 [⟨0, 1, 0, 100⟩, ⟨0, 1, 0, 101⟩]

def unsortedIndex : ExtentNode := sampleNode 1 [⟨0, 100, 0, 0⟩, ⟨9, 101, 0, 0⟩, ⟨3, 102, 0, 0⟩]

def emptyIndex : ExtentNode := sampleNode 1 []

/-- The check accepts them; in the second one the search for block `4` selects the first entry and
not the third. -/
theorem extCheck_accepts_unsearchable :
    ((extCheck sampleContext (.start 0 1000 0) doubleLeaf 0).1 = .ok () ∧
      ¬ Increasing doubleLeaf) ∧
    ((extCheck sampleContext (.start 0 1000 0) unsortedIndex 1).1 = .ok () ∧
      extBinsearchIdx unsortedIndex 4 = 0 ∧ ¬ Selects unsortedIndex 4 0) ∧
    ((extCheck sampleContext (.start 0 1000 0) emptyIndex 1).1 = .ok () ∧
      ¬ 0 < emptyIndex.ehEntries.toNat) := by
  refine ⟨⟨by rfl, fun h => ?_⟩, ⟨by rfl, ?_, fun h => ?_⟩, by rfl, by decide⟩
  · exact absurd (h 0 1 (by decide) (by decide)) (by decide)
  · simp [extBinsearchIdx, unsortedIndex, sampleNode, binsearchLoop, lblock]
  · exact absurd (h.2.2 2 (by decide) (by decide)) (by decide)

end VMsep.Ext4
