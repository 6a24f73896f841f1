import VMsep.Ext4.Backups

/-! `ext4_group_add` checks a group that the user describes, and `ext4_update_super` makes it the
last one. There are no clusters of several blocks. -/

namespace VMsep.Ext4

structure ResizeFs extends SuperBlock where
  firstDataBlock : ℕ
  descPerBlock : ℕ
  blocksCount : ℕ
  groupsCount : ℕ
  inodesCount : ℕ
  inodesPerGroup : ℕ
  itbPerGroup : ℕ
  reservedGdtBlocks : ℕ
  gdbCount : ℕ
  firstMetaBg : ℕ
  metaBg : Bool
  resizeInode : Bool

/-- `struct ext4_new_group_data`. -/
structure NewGroupData where
  group : ℕ
  blockBitmap : ℕ
  inodeBitmap : ℕ
  inodeTable : ℕ
  blocksCount : ℕ
  reservedBlocks : ℕ

/-- What `ext4_iget`, `sb_bread`, the allocations and `ext4_flex_group_add` up to
`ext4_update_super` return. -/
structure ResizeCalls where
  iget : ℤ
  canRead : Bool
  alloc : ℤ
  flexGroupAdd : ℤ

def ePerm : ℤ := -1
def eInvalid : ℤ := -22

namespace ResizeFs

variable (fs : ResizeFs) (input : NewGroupData) (calls : ResizeCalls)

def bgNumGdb (group : ℕ) : ℕ :=
  let metagroup := group / fs.descPerBlock
  let first := metagroup * fs.descPerBlock
  if fs.metaBg = false ∨ metagroup < fs.firstMetaBg then
    if fs.bgHasSuper group then if fs.metaBg then fs.firstMetaBg else fs.gdbCount else 0
  else if group = first ∨ group = first + 1 ∨ group = first + fs.descPerBlock - 1 then 1
  else 0

def groupOverheadBlocks (group : ℕ) : ℕ :=
  fs.bgNumGdb group + if fs.bgHasSuper group then 1 + fs.reservedGdtBlocks else 0

def stop : ℕ := (fs.blocksCount + input.blocksCount) % 2 ^ 64

def itend : ℕ := (input.inodeTable + fs.itbPerGroup) % 2 ^ 64

def metaend : ℕ := fs.blocksCount + fs.groupOverheadBlocks input.group

def freeBlocksCount : ℤ :=
  (input.blocksCount - 2 - fs.groupOverheadBlocks input.group - fs.itbPerGroup : ℤ).bmod (2 ^ 32)

abbrev outside (b first last : ℕ) : Prop := b < first ∨ last ≤ b

abbrev inside (b first last : ℕ) : Prop := first ≤ b ∧ b < last

def verifyGroupInput : ℤ :=
  if input.group ≠ fs.groupsCount ∨
      (fs.blocksCount - fs.firstDataBlock) % fs.blocksPerGroup ≠ 0 ∨
      input.reservedBlocks > input.blocksCount / 5 ∨ fs.freeBlocksCount input < 0 ∨
      calls.canRead = false ∨ outside input.blockBitmap fs.blocksCount (fs.stop input) ∨
      outside input.inodeBitmap fs.blocksCount (fs.stop input) ∨
      outside input.inodeTable fs.blocksCount (fs.stop input) ∨
      outside (fs.itend input - 1) fs.blocksCount (fs.stop input) ∨
      input.inodeBitmap = input.blockBitmap ∨
      inside input.blockBitmap input.inodeTable (fs.itend input) ∨
      inside input.inodeBitmap input.inodeTable (fs.itend input) ∨
      inside input.blockBitmap fs.blocksCount (fs.metaend input) ∨
      inside input.inodeBitmap fs.blocksCount (fs.metaend input) ∨
      inside input.inodeTable fs.blocksCount (fs.metaend input) ∨
      inside (fs.itend input - 1) fs.blocksCount (fs.metaend input) then eInvalid
  else 0

/-- `ext4_update_super` for one group, without the free counts. -/
def updateSuper : ResizeFs :=
  { fs with
    blocksCount := fs.blocksCount + input.blocksCount
    inodesCount := (fs.inodesCount + fs.inodesPerGroup) % 2 ^ 32
    groupsCount := fs.groupsCount + 1 }

def reservedGdb : ℕ := if fs.bgHasSuper input.group then fs.reservedGdtBlocks else 0

def gdbOff : ℕ := input.group % fs.descPerBlock

/-- The result of `ext4_group_add`. -/
def groupAddError : ℤ :=
  if fs.gdbOff input = 0 ∧ fs.sparseSuper = false then ePerm
  else if fs.stop input < fs.blocksCount then eInvalid
  else if (fs.inodesCount + fs.inodesPerGroup) % 2 ^ 64 < fs.inodesCount then eInvalid
  else if (fs.reservedGdb input ≠ 0 ∨ fs.gdbOff input = 0) ∧
      (fs.resizeInode = true ∨ fs.reservedGdtBlocks = 0) then ePerm
  else if (fs.reservedGdb input ≠ 0 ∨ fs.gdbOff input = 0) ∧ calls.iget ≠ 0 then calls.iget
  else if fs.verifyGroupInput input calls ≠ 0 then fs.verifyGroupInput input calls
  else if calls.alloc ≠ 0 then calls.alloc
  else calls.flexGroupAdd

def groupAdd : ResizeFs :=
  if fs.groupAddError input calls = 0 then fs.updateSuper input else fs

def groupsNeeded : ℕ :=
  (fs.blocksCount - fs.firstDataBlock + fs.blocksPerGroup - 1) / fs.blocksPerGroup

structure Consistent : Prop where
  group_pos : 0 < fs.blocksPerGroup
  itb_pos : 0 < fs.itbPerGroup
  first_le : fs.firstDataBlock ≤ fs.blocksCount
  groups : fs.groupsCount = fs.groupsNeeded
  small : fs.blocksCount + 2 ^ 32 + fs.itbPerGroup < 2 ^ 64
  inodes : fs.inodesCount + fs.inodesPerGroup < 2 ^ 64

/-- The bitmaps and the inode table lie in the group, behind the superblock and the descriptors, and
apart from each other. -/
structure Separate : Prop where
  inGroup : ∀ x, x = input.blockBitmap ∨ x = input.inodeBitmap ∨
    inside x input.inodeTable (input.inodeTable + fs.itbPerGroup) →
      inside x (fs.metaend input) (fs.blocksCount + input.blocksCount)
  bitmaps : input.blockBitmap ≠ input.inodeBitmap
  table : ∀ x, inside x input.inodeTable (input.inodeTable + fs.itbPerGroup) →
    x ≠ input.blockBitmap ∧ x ≠ input.inodeBitmap

end ResizeFs

variable {fs : ResizeFs} {input : NewGroupData} {calls : ResizeCalls}

theorem groupsNeeded_updateSuper (h : fs.Consistent)
    (hfull : (fs.blocksCount - fs.firstDataBlock) % fs.blocksPerGroup = 0)
    (hpos : 0 < input.blocksCount) :
    (fs.updateSuper input).groupsCount = (fs.updateSuper input).groupsNeeded ↔
      input.blocksCount ≤ fs.blocksPerGroup := by
  have hgroup := h.group_pos
  have hfirst := h.first_le
  obtain ⟨q, hq⟩ := Nat.dvd_of_mod_eq_zero hfull
  have hneeded : ∀ n, (fs.blocksPerGroup * q + n + fs.blocksPerGroup - 1) / fs.blocksPerGroup =
      q + (n + fs.blocksPerGroup - 1) / fs.blocksPerGroup := by
    intro n
    rw [Nat.add_assoc, Nat.add_sub_assoc (by omega), Nat.mul_add_div hgroup]
  have hold : fs.groupsCount = q := by
    rw [h.groups, ResizeFs.groupsNeeded, hq, ← Nat.add_zero (_ * q), hneeded,
      Nat.div_eq_of_lt (by omega), Nat.add_zero]
  have hnew : fs.blocksCount + input.blocksCount - fs.firstDataBlock =
      fs.blocksPerGroup * q + input.blocksCount := by omega
  change fs.groupsCount + 1 = (fs.blocksCount + input.blocksCount - fs.firstDataBlock +
    fs.blocksPerGroup - 1) / fs.blocksPerGroup ↔ _
  rw [hnew, hneeded, hold, Nat.add_left_cancel_iff, eq_comm, Nat.div_eq_iff hgroup]
  omega

theorem verifyGroupInput_separate (h : fs.Consistent) (hcount : input.blocksCount < 2 ^ 32)
    (hv : fs.verifyGroupInput input calls = 0) :
    fs.Separate input ∧ (fs.blocksCount - fs.firstDataBlock) % fs.blocksPerGroup = 0 ∧
      0 < input.blocksCount := by
  have hsmall := h.small
  have hitb := h.itb_pos
  have hstop : fs.stop input = fs.blocksCount + input.blocksCount :=
    Nat.mod_eq_of_lt (by omega)
  unfold ResizeFs.verifyGroupInput at hv
  split_ifs at hv with hbad
  · cases hv
  rw [hstop] at hbad
  simp only [not_or] at hbad
  obtain ⟨-, hfull, -, -, -, hbb, hib, htab, hend, hne, hbt, hit, hbm, him, htm, -⟩ := hbad
  have hitend : fs.itend input = input.inodeTable + fs.itbPerGroup := Nat.mod_eq_of_lt (by omega)
  rw [hitend] at hbt hit hend
  refine ⟨⟨fun x hx => ?_, by omega, fun x hx => by omega⟩, by omega, by omega⟩
  rcases hx with rfl | rfl | hx <;> omega

theorem verifyGroupInput_of_groupAdd (h0 : fs.groupAddError input calls = 0) :
    fs.verifyGroupInput input calls = 0 := by
  by_contra hv
  unfold ResizeFs.groupAddError at h0
  split_ifs at h0 with _ _ _ _ higet
  · cases h0
  · cases h0
  · cases h0
  · cases h0
  · exact higet.2 h0
  · exact hv h0

/-- With the resize inode the permission is refused for exactly the groups with a backup and those
that need a new descriptor block. -/
theorem groupAddError_ePerm (h : fs.Consistent) (hcount : input.blocksCount < 2 ^ 32)
    (hresize : fs.resizeInode = true) (halloc : calls.alloc ≠ ePerm)
    (hflex : calls.flexGroupAdd ≠ ePerm) (hreserved : fs.reservedGdtBlocks ≠ 0) :
    fs.groupAddError input calls ≠ ePerm ↔
      fs.bgHasSuper input.group = false ∧ fs.gdbOff input ≠ 0 := by
  have hstop : fs.stop input = fs.blocksCount + input.blocksCount :=
    Nat.mod_eq_of_lt (by have := h.small; omega)
  have hverify : fs.verifyGroupInput input calls ≠ ePerm := by
    unfold ResizeFs.verifyGroupInput
    split_ifs <;> decide
  have hgdb : fs.reservedGdb input ≠ 0 ↔ fs.bgHasSuper input.group = true := by
    unfold ResizeFs.reservedGdb
    split <;> simp_all
  unfold ResizeFs.groupAddError
  rw [hstop, Nat.mod_eq_of_lt h.inodes, if_neg (c := _ + _ < fs.blocksCount) (by omega),
    if_neg (c := _ + _ < fs.inodesCount) (by omega)]
  simp only [hgdb]
  by_cases hoff : fs.gdbOff input = 0
  · refine iff_of_false ?_ fun hright => hright.2 hoff
    simp [hoff, hresize]
  cases hsuper : fs.bgHasSuper input.group with
  | true => simp [hoff, hresize]
  | false =>
    refine iff_of_true ?_ ⟨rfl, hoff⟩
    simp only [hoff, false_and, if_false, Bool.false_eq_true, or_self]
    split_ifs
    · exact hverify
    · exact halloc
    · exact hflex

/-- In an accepted group the bitmaps and the table lie apart, and the number of groups is right if
and only if the group is not too large. -/
theorem groupAdd_valid (fs : ResizeFs) (h : fs.Consistent) (input : NewGroupData)
    (hcount : input.blocksCount < 2 ^ 32) (calls : ResizeCalls) :
    (fs.groupAddError input calls = 0 → fs.Separate input ∧
      ((fs.groupAdd input calls).groupsCount = (fs.groupAdd input calls).groupsNeeded ↔
        input.blocksCount ≤ fs.blocksPerGroup)) ∧
    (fs.resizeInode = true → fs.reservedGdtBlocks ≠ 0 →
      calls.alloc ≠ ePerm → calls.flexGroupAdd ≠ ePerm →
        (fs.groupAddError input calls ≠ ePerm ↔
          fs.bgHasSuper input.group = false ∧ fs.gdbOff input ≠ 0)) := by
  constructor
  · intro h0
    have hv := verifyGroupInput_of_groupAdd h0
    obtain ⟨hsep, hfull, hpos⟩ := verifyGroupInput_separate h hcount hv
    rw [ResizeFs.groupAdd, if_pos h0]
    exact ⟨hsep, groupsNeeded_updateSuper h hfull hpos⟩
  · intro hresize hreserved halloc hflex
    exact groupAddError_ePerm h hcount hresize halloc hflex hreserved

/-- One group, and a backup in the next one. -/
def oneGroup (resizeInode : Bool) : ResizeFs where
  toSuperBlock := sampleSuper false
  firstDataBlock := 1
  descPerBlock := 32
  blocksCount := 8193
  groupsCount := 1
  inodesCount := 16
  inodesPerGroup := 16
  itbPerGroup := 2
  reservedGdtBlocks := 7
  gdbCount := 1
  firstMetaBg := 0
  metaBg := false
  resizeInode := resizeInode

def secondGroup (blocksCount : ℕ) : NewGroupData := ⟨1, 8202, 8203, 8204, blocksCount, 0⟩

def quietCalls : ResizeCalls := ⟨0, true, 0, 0⟩

theorem groupAdd_valid_oneGroup :
    (oneGroup false).groupAddError (secondGroup 8192) quietCalls = 0 ∧
      (oneGroup false).Separate (secondGroup 8192) ∧
      (oneGroup true).groupAddError (secondGroup 8192) quietCalls = ePerm := by
  have hvalid := groupAdd_valid (oneGroup false)
    ⟨by decide, by decide, by decide, rfl, by decide, by decide⟩ (secondGroup 8192) (by decide)
    quietCalls
  have hrefused := (groupAdd_valid (oneGroup true)
    ⟨by decide, by decide, by decide, rfl, by decide, by decide⟩ (secondGroup 8192) (by decide)
    quietCalls).2 rfl (by decide) (by decide) (by decide)
  refine ⟨by decide, (hvalid.1 (by decide)).1, ?_⟩
  by_contra hne
  cases (hrefused.mp hne).1

/-- A group of twice the size is accepted, and a file system with a resize inode is refused. -/
theorem groupAdd_bug :
    (oneGroup false).groupAddError (secondGroup 16384) quietCalls = 0 ∧
      ((oneGroup false).groupAdd (secondGroup 16384) quietCalls).groupsCount = 2 ∧
      ((oneGroup false).groupAdd (secondGroup 16384) quietCalls).groupsNeeded = 3 ∧
      (oneGroup true).groupAddError (secondGroup 8192) quietCalls = ePerm := by
  decide

end VMsep.Ext4
