import VMsep.Ext4.ExtentStatusMap

/-! The search for a delayed extent in the status tree, and the holes of the extent tree. The leaves
of the extent tree are read as one list of extents. -/

namespace VMsep.Ext4

open Lib List Option

namespace EsInode

/-- The node that `cache_es` points to. -/
def cachedNode (s : EsInode) : Option (Option EsNode) :=
  match s.cacheEs with
  | none => some none
  | some a => (s.nodes.find? fun e => e.addr = a).map some

/-- The loop of `ext4_es_find_delayed_extent_range` over the extents behind the first one. -/
def nextDelayed (stop : ℕ) : List EsNode → Option EsNode
  | [] => none
  | es :: rest =>
    if es.esLblk > stop then none
    else if es.esType.isDelayed then some es
    else nextDelayed stop rest

/-- The node at which `ext4_es_find_delayed_extent_range` starts. -/
def esFindNode (s : EsInode) (lblk : ℕ) : Option (Option EsNode) := do
  match (← s.cachedNode).filter fun es => es.esLblk ≤ lblk ∧ lblk ≤ es.esLblk + es.esLen - 1 with
  | some es => some (some es)
  | none => s.esTreeSearch lblk

/-- The delayed node that `ext4_es_find_delayed_extent_range` finds. -/
def esDelayedNode (s : EsInode) (lblk stop : ℕ) : Option (Option EsNode) :=
  -- BUG_ON(end < lblk)
  if stop < lblk then none
  else (s.esFindNode lblk).map fun es => es.bind fun es =>
    if es.esType.isDelayed then some es
    else nextDelayed stop (s.nodes.dropWhile fun e => e.addr ≠ es.addr).tail

def esFindDelayedExtentRange (s : EsInode) (lblk stop : ℕ) :
    Option (Option ExtentStatus × EsInode) :=
  (s.esDelayedNode lblk stop).map fun
    | none => (none, s)
    | some es => (some es.toExtentStatus, { s with cacheEs := some es.addr })

def findDelallocRange (s : EsInode) (lblkStart lblkEnd : ℕ) : Option (Bool × EsInode) :=
  (s.esFindDelayedExtentRange lblkStart lblkEnd).map fun r =>
    (r.1.any fun es =>
      decide (es.esLblk ≤ lblkStart ∧ lblkStart < es.esLblk + es.esLen) ||
        decide (lblkStart ≤ es.esLblk ∧ es.esLblk ≤ lblkEnd), r.2)

variable {s : EsInode} {lblk stop : ℕ}

theorem cachedNode_spec (h : s.Ok) : ∃ r, s.cachedNode = some r ∧ ∀ es ∈ r, es ∈ s.nodes := by
  unfold cachedNode
  cases hcache : s.cacheEs with
  | none => exact ⟨none, rfl, by simp⟩
  | some a =>
    obtain ⟨es0, hes0, haddr0⟩ := h.cache a hcache
    obtain ⟨es, hfind⟩ : ∃ es, s.nodes.find? (fun e => e.addr = a) = some es := by
      refine isSome_iff_exists.mp (find?_isSome.mpr ⟨es0, hes0, ?_⟩)
      simpa using haddr0
    refine ⟨some es, by simp only [hfind, map_some], ?_⟩
    intro e he
    cases he
    exact mem_of_find?_eq_some hfind

theorem esFindNode_spec (h : s.Ok) (lblk : ℕ) :
    ∃ l m, s.nodes = l ++ m ∧ s.esFindNode lblk = some m.head? ∧
      (∀ e ∈ l, e.esLblk + e.esLen ≤ lblk) ∧ ∀ e ∈ m, lblk < e.esLblk + e.esLen := by
  obtain ⟨r, hr, hmem⟩ := cachedNode_spec h
  obtain ⟨l, m, hn, hsearch, hl, hm⟩ := esTreeSearch_spec h.toCore lblk
  unfold esFindNode
  rw [hr]
  cases r with
  | none => exact ⟨l, m, hn, hsearch, hl, hm⟩
  | some es =>
    simp only [bind_eq_bind, bind_some, filter_some]
    by_cases hin : es.esLblk ≤ lblk ∧ lblk ≤ es.esLblk + es.esLen - 1
    · obtain ⟨l', m', hn'⟩ := append_of_mem (hmem es rfl)
      have hpos := h.list.pos _ (mem_extents (hmem es rfl))
      have hlist := h.list
      rw [extents_eq hn', map_cons] at hlist
      refine ⟨l', es :: m', hn', ?_, ?_, ?_⟩
      · rw [if_pos (by simpa using hin)]
        rfl
      · intro e he
        have := hlist.before (mem_map_of_mem he) mem_cons_self
        exact le_trans this hin.1
      · intro e he
        rcases mem_cons.mp he with rfl | he
        · omega
        · have := hlist.after (mem_map_of_mem he)
          omega
    · rw [if_neg (by simpa using hin)]
      exact ⟨l, m, hn, hsearch, hl, hm⟩

theorem nextDelayed_spec (stop : ℕ) (l : List EsNode) :
    (∀ es ∈ nextDelayed stop l, es.esType.isDelayed = true ∧ es.esLblk ≤ stop ∧
      ∃ l₁ l₂, l = l₁ ++ es :: l₂ ∧ ∀ e ∈ l₁, e.esType.isDelayed = false) ∧
    (nextDelayed stop l = none → ∃ l₁ l₂, l = l₁ ++ l₂ ∧ (∀ e ∈ l₁, e.esType.isDelayed = false) ∧
        ∀ e ∈ l₂.head?, stop < e.esLblk) := by
  induction l with
  | nil => exact ⟨by simp [nextDelayed], fun _ => ⟨[], [], rfl, by simp, by simp⟩⟩
  | cons es l ih =>
    rw [nextDelayed]
    by_cases hstop : es.esLblk > stop
    · rw [if_pos hstop]
      refine ⟨by simp, fun _ => ⟨[], es :: l, rfl, by simp, ?_⟩⟩
      intro e he
      cases he
      exact hstop
    · rw [if_neg hstop]
      by_cases hdelayed : es.esType.isDelayed = true
      · rw [if_pos hdelayed]
        refine ⟨?_, by simp⟩
        intro e he
        cases he
        exact ⟨hdelayed, not_lt.mp hstop, [], l, rfl, by simp⟩
      · rw [if_neg hdelayed]
        have hes : es.esType.isDelayed = false := by simpa using hdelayed
        constructor
        · intro e he
          obtain ⟨hd, hle, l₁, l₂, hl, hbefore⟩ := ih.1 e he
          exact ⟨hd, hle, es :: l₁, l₂, by rw [hl]; rfl, by simpa [hes] using hbefore⟩
        · intro hnone
          obtain ⟨l₁, l₂, hl, hbefore, hafter⟩ := ih.2 hnone
          exact ⟨es :: l₁, l₂, by rw [hl]; rfl, by simpa [hes] using hbefore, hafter⟩

theorem Core.not_delayed (h : s.Core) {l k m : List EsNode} {x : ℕ} (hn : s.nodes = l ++ k ++ m)
    (hl : ∀ e ∈ l, e.esLblk + e.esLen ≤ lblk) (hk : ∀ e ∈ k, e.esType.isDelayed = false)
    (hm : ∀ e ∈ m.head?, x < e.esLblk) (hx : lblk ≤ x) {v : EsValue} (hv : s.map x = some v) :
    v.1.isDelayed = false := by
  obtain ⟨e, he, hcov, rfl⟩ := esView.map_eq_some hv
  obtain ⟨n, hnode, rfl⟩ := mem_map.mp he
  rw [esView_covers] at hcov
  rw [hn] at hnode
  rcases mem_append.mp hnode with hnode | hnode
  · rcases mem_append.mp hnode with hnode | hnode
    · have := hl n hnode
      omega
    · exact hk n hnode
  · -- the extents from the first one of the rest on start behind the block
    cases m with
    | nil => cases hnode
    | cons e m =>
      have hfirst := hm e rfl
      rcases mem_cons.mp hnode with rfl | hrest
      · omega
      have hlist := h.list
      have hn' : s.nodes = (l ++ k ++ [e]) ++ m := by rw [hn]; simp
      rw [extents_eq hn'] at hlist
      have := hlist.before (a := e.toExtentStatus) (by simp) (mem_map_of_mem hrest)
      omega

/-- What the search says of the blocks of its range. -/
structure DelayedFrom (m : EsMap) (lblk stop : ℕ) (r : Option ExtentStatus) : Prop where
  none : r = none → ∀ x, lblk ≤ x → x ≤ stop → ∀ v, m x = some v → v.1.isDelayed = false
  some : ∀ es ∈ r, ∀ x, lblk ≤ x → x < es.esLblk → ∀ v, m x = some v → v.1.isDelayed = false

theorem esDelayedNode_spec (h : s.Ok) (hle : lblk ≤ stop) :
    ∃ r, s.esDelayedNode lblk stop = some r ∧ (∀ es ∈ r, es ∈ s.nodes) ∧
      DelayedFrom s.map lblk stop (r.map EsNode.toExtentStatus) := by
  obtain ⟨l, m, hn, hfind, hl, -⟩ := esFindNode_spec h lblk
  unfold esDelayedNode
  rw [if_neg (by omega), hfind, map_some]
  cases m with
  | nil =>
    refine ⟨none, rfl, by simp, ?_, by simp⟩
    intro _ x hx _ v hv
    exact h.toCore.not_delayed (k := []) (m := []) (by simpa using hn) hl (by simp) (by simp) hx hv
  | cons es m =>
    rw [head?_cons, bind_some]
    by_cases hdelayed : es.esType.isDelayed = true
    · rw [if_pos hdelayed]
      refine ⟨some es, rfl, ?_, by simp, ?_⟩
      · intro e he
        cases he
        rw [hn]
        simp
      · intro e he x hx hlt v hv
        cases he
        exact h.toCore.not_delayed (k := []) (m := es :: m) (by simpa using hn) hl (by simp)
          (by simpa using hlt) hx hv
    · rw [if_neg hdelayed, h.toCounted.dropWhile_addr hn, tail_cons]
      have hes : es.esType.isDelayed = false := by simpa using hdelayed
      obtain ⟨hsome, hnone⟩ := nextDelayed_spec stop m
      refine ⟨nextDelayed stop m, rfl, ?_, ?_, ?_⟩
      · intro e he
        obtain ⟨-, -, l₁, l₂, rfl, -⟩ := hsome e he
        rw [hn]
        simp
      · intro hr x hx hxs v hv
        obtain ⟨l₁, l₂, rfl, hskip, hbehind⟩ := hnone (map_eq_none_iff.mp hr)
        refine h.toCore.not_delayed (k := es :: l₁) (m := l₂) (by rw [hn]; simp) hl ?_ ?_ hx hv
        · simpa [hes] using hskip
        intro e he
        have := hbehind e he
        omega
      · intro e he x hx hlt v hv
        obtain ⟨n, hnode, rfl⟩ := map_eq_some_iff.mp he
        obtain ⟨-, -, l₁, l₂, rfl, hskip⟩ := hsome n hnode
        refine h.toCore.not_delayed (k := es :: l₁) (m := n :: l₂) (by rw [hn]; simp) hl ?_ ?_ hx hv
        · simpa [hes] using hskip
        · simpa using hlt

theorem esFindDelayedExtentRange_spec (h : s.Ok) (hle : lblk ≤ stop) :
    ∃ r s', s.esFindDelayedExtentRange lblk stop = some (r, s') ∧ s'.Ok ∧ s'.map = s.map ∧
      DelayedFrom s.map lblk stop r := by
  obtain ⟨r, hr, hmem, hfrom⟩ := esDelayedNode_spec h hle
  unfold esFindDelayedExtentRange
  rw [hr, map_some]
  cases r with
  | none => exact ⟨none, s, rfl, h, rfl, hfrom⟩
  | some es =>
    refine ⟨some es.toExtentStatus, { s with cacheEs := some es.addr }, rfl, ?_, rfl, hfrom⟩
    refine ⟨⟨⟨h.addrs, h.fresh, h.allNr, h.shkNr⟩, h.list⟩, ?_⟩
    intro a ha
    cases ha
    exact ⟨es, hmem es rfl, rfl⟩

theorem findDelallocRange_spec (h : s.Ok) (hle : lblk ≤ stop) :
    ∃ r s', s.findDelallocRange lblk stop = some (r, s') ∧ s'.Ok ∧ s'.map = s.map := by
  obtain ⟨r, s', heq, hok, hmap, -⟩ := esFindDelayedExtentRange_spec h hle
  unfold findDelallocRange
  rw [heq, map_some]
  exact ⟨_, s', rfl, hok, hmap⟩

def DelayedIn (lblk stop : ℕ) (es : ExtentStatus) : Prop :=
  es.esType.isDelayed = true ∧ es.esLblk ≤ stop ∧ lblk < es.esLblk + es.esLen

structure FirstDelayed (l : List ExtentStatus) (lblk stop : ℕ) (r : Option ExtentStatus) :
    Prop where
  first : ∀ es ∈ r, es ∈ l ∧ DelayedIn lblk stop es ∧
    ∀ e ∈ l, DelayedIn lblk stop e → es.esLblk ≤ e.esLblk
  absent : r = none → ∀ e ∈ l, ¬ DelayedIn lblk stop e

variable {l m : List ExtentStatus} {es : ExtentStatus}

theorem FirstDelayed.of_some (h : EsList (l ++ es :: m)) (hl : ∀ e ∈ l, ¬ DelayedIn lblk stop e)
    (hes : DelayedIn lblk stop es) : FirstDelayed (l ++ es :: m) lblk stop (some es) := by
  refine ⟨?_, by simp⟩
  intro e he
  cases he
  refine ⟨by simp, hes, ?_⟩
  intro e he hin
  rcases mem_append.mp he with he | he
  · exact absurd hin (hl e he)
  rcases mem_cons.mp he with rfl | he
  · exact le_rfl
  · have := h.after he
    omega

theorem FirstDelayed.of_none (h : EsList (l ++ m)) (hl : ∀ e ∈ l, ¬ DelayedIn lblk stop e)
    (hm : ∀ e ∈ m.head?, stop < e.esLblk) : FirstDelayed (l ++ m) lblk stop none := by
  refine ⟨by simp, ?_⟩
  intro _ e he hin
  rcases mem_append.mp he with he | he
  · exact hl e he hin
  cases m with
  | nil => cases he
  | cons a m =>
    have ha := hm a rfl
    have hstart := hin.2.1
    rcases mem_cons.mp he with rfl | he
    · omega
    · have := h.after he
      omega

def firstFrom (s : EsInode) (lblk : ℕ) : Option ExtentStatus :=
  s.extents.find? fun e => lblk < e.esLblk + e.esLen

theorem firstFrom_eq {l m : List EsNode} (hn : s.nodes = l ++ m)
    (hl : ∀ e ∈ l, e.esLblk + e.esLen ≤ lblk) (hm : ∀ e ∈ m, lblk < e.esLblk + e.esLen) :
    s.firstFrom lblk = m.head?.map EsNode.toExtentStatus := by
  have hpassed : (l.map EsNode.toExtentStatus).find? (fun e => lblk < e.esLblk + e.esLen) = none :=
    find?_eq_none.mpr (by simpa using hl)
  unfold firstFrom
  rw [extents_eq hn, find?_append, hpassed, none_or]
  cases m with
  | nil => rfl
  | cons es m =>
    have hes := hm es mem_cons_self
    rw [map_cons, find?_cons_of_pos (by simpa using hes), head?_cons, map_some]

/-- The search is exact if and only if it does not start at a delayed extent behind the range. -/
theorem esFindDelayedExtentRange_first (h : s.Ok) (hle : lblk ≤ stop) :
    ∃ r s', s.esFindDelayedExtentRange lblk stop = some (r, s') ∧
      (FirstDelayed s.extents lblk stop r ↔
        ∀ e ∈ s.firstFrom lblk, e.esType.isDelayed = true → e.esLblk ≤ stop) := by
  obtain ⟨l, m, hn, hfind, hl, hm⟩ := esFindNode_spec h lblk
  have hlist := h.list
  have hpassed : ∀ e ∈ l.map EsNode.toExtentStatus, ¬ DelayedIn lblk stop e := by
    refine forall_mem_map.mpr ?_
    intro e he hin
    have := hl e he
    have := hin.2.2
    omega
  unfold esFindDelayedExtentRange esDelayedNode
  rw [firstFrom_eq hn hl hm, if_neg (by omega), hfind]
  rw [extents_eq hn] at hlist ⊢
  cases m with
  | nil => exact ⟨none, s, rfl, iff_of_true (.of_none hlist hpassed (by simp)) (by simp)⟩
  | cons es m =>
    have hes := hm es mem_cons_self
    rw [map_cons] at hlist ⊢
    simp only [map_some, head?_cons, bind_some]
    by_cases hdelayed : es.esType.isDelayed = true
    · -- the end of the range is not tested here
      rw [if_pos hdelayed]
      refine ⟨_, _, rfl, ?_, ?_⟩
      · intro hexact e he _
        cases he
        exact (hexact.first _ rfl).2.1.2.1
      · intro hfirst
        exact .of_some hlist hpassed ⟨hdelayed, hfirst _ rfl hdelayed, hes⟩
    have hstart : ∀ e ∈ some es.toExtentStatus, e.esType.isDelayed = true → e.esLblk ≤ stop := by
      intro e he hd
      cases he
      exact absurd hd hdelayed
    rw [if_neg hdelayed, h.toCounted.dropWhile_addr hn, tail_cons]
    have hskip : ∀ l₁ : List EsNode, (∀ e ∈ l₁, e.esType.isDelayed = false) →
        ∀ e ∈ l.map EsNode.toExtentStatus ++ es.toExtentStatus :: l₁.map EsNode.toExtentStatus,
          ¬ DelayedIn lblk stop e := by
      intro l₁ hl₁ e he hin
      rcases mem_append.mp he with he | he
      · exact hpassed e he hin
      rcases mem_cons.mp he with rfl | he
      · exact hdelayed hin.1
      · obtain ⟨n, hmem, rfl⟩ := mem_map.mp he
        exact Bool.false_ne_true ((hl₁ n hmem).symm.trans hin.1)
    obtain ⟨hsome, hnone⟩ := nextDelayed_spec stop m
    cases hnext : nextDelayed stop m with
    | none =>
      obtain ⟨l₁, l₂, rfl, hl₁, hl₂⟩ := hnone hnext
      refine ⟨_, _, rfl, iff_of_true ?_ hstart⟩
      rw [map_append, ← cons_append, ← append_assoc] at hlist ⊢
      exact .of_none hlist (hskip l₁ hl₁) (by simpa using hl₂)
    | some n =>
      obtain ⟨hd, hstop, l₁, l₂, rfl, hl₁⟩ := hsome n hnext
      refine ⟨_, _, rfl, iff_of_true ?_ hstart⟩
      rw [map_append, map_cons, ← cons_append, ← append_assoc] at hlist ⊢
      exact .of_some hlist (hskip l₁ hl₁) ⟨hd, hstop, hm n (by simp)⟩

def delayedRun (lblk : ℕ) : List (Balance EsNode × EsAct) :=
  [.insert 10 10 100 .written [], .insert lblk 2 0 .delayed []].map fun a => (.right, a)

theorem esFindDelayedExtentRange_first_delayedRun :
    ∃ replies s, esInitTree.run (delayedRun 30) = some (replies, s) ∧
      ∃ r s', s.esFindDelayedExtentRange 12 35 = some (r, s') ∧
        FirstDelayed s.extents 12 35 r := by
  obtain ⟨replies, s, hrun, hok, -⟩ := run_refines (delayedRun 30) ok_esInitTree (by
    simp [delayedRun, EsAct.InRange, extMaxBlocks])
  obtain ⟨r, s', hr, hexact⟩ := esFindDelayedExtentRange_first hok (show 12 ≤ 35 by decide)
  refine ⟨replies, s, hrun, r, s', hr, hexact.mpr ?_⟩
  have hstart : (esInitTree.run (delayedRun 30)).map (fun r =>
      (r.2.firstFrom 12).map ExtentStatus.esType) = some (some .written) := by decide +kernel
  rw [hrun, map_some, some_inj] at hstart
  intro e he hd
  rw [mem_def.mp he, map_some, some_inj] at hstart
  rw [hstart] at hd
  cases hd

/-- The search starts at the delayed extent, which is behind the range. -/
theorem esFindDelayedExtentRange_bug :
    ∃ replies s, esInitTree.run (delayedRun 40) = some (replies, s) ∧ s.Ok ∧
      ∃ r s', s.esFindDelayedExtentRange 25 30 = some (r, s') ∧
        ¬ FirstDelayed s.extents 25 30 r := by
  obtain ⟨replies, s, hrun, hok, -⟩ := run_refines (delayedRun 40) ok_esInitTree (by
    simp [delayedRun, EsAct.InRange, extMaxBlocks])
  have hfound : (esInitTree.run (delayedRun 40)).bind (fun r =>
      (r.2.esFindDelayedExtentRange 25 30).map fun r => r.1.map ExtentStatus.esLblk) =
      some (some 40) := by decide +kernel
  rw [hrun, bind_some] at hfound
  obtain ⟨⟨r, s'⟩, heq, hr⟩ := map_eq_some_iff.mp hfound
  obtain ⟨es, rfl, hes⟩ := map_eq_some_iff.mp hr
  refine ⟨replies, s, hrun, hok, _, s', heq, ?_⟩
  intro hexact
  have := (hexact.first es rfl).2.1.2.1
  omega

end EsInode

/-- An extent of a leaf: `ee_block`, the length and the state that `ee_len` stands for, and the
physical block. -/
structure FileExtent where
  eeBlock : ℕ
  len : ℕ
  pblock : ℕ
  unwritten : Bool
  deriving DecidableEq

def fileView : Ranges FileExtent (Bool × ℕ) where
  start := FileExtent.eeBlock
  len := FileExtent.len
  value := fun ex x => (ex.unwritten, ex.pblock + (x - ex.eeBlock))

variable {ex : FileExtent} {tree : List FileExtent}

theorem fileView_covers {x : ℕ} :
    fileView.covers ex x = true ↔ ex.eeBlock ≤ x ∧ x < ex.eeBlock + ex.len :=
  fileView.covers_iff

structure FileList (l : List FileExtent) : Prop where
  ordered : fileView.Ordered l
  bound : ∀ ex ∈ l, ex.eeBlock + ex.len ≤ extMaxBlocks

/-- `path[depth].p_ext` of `ext4_find_extent`: the last extent that does not start behind the
block, or the first one. -/
def findExtent (tree : List FileExtent) (lblk : ℕ) : Option FileExtent :=
  (tree.reverse.find? fun ex => ex.eeBlock ≤ lblk).or tree.head?

/-- `ext4_ext_next_allocated_block` at an extent. -/
def nextAllocatedBlock (tree : List FileExtent) (ex : FileExtent) : ℕ :=
  match tree.find? fun e => ex.eeBlock < e.eeBlock with
  | some e => e.eeBlock
  | none => extMaxBlocks

/-- `ext4_ext_determine_hole`: the start and the length of the hole. -/
def determineHole (tree : List FileExtent) (lblk : ℕ) : Option (ℕ × ℕ) :=
  match findExtent tree lblk with
  | none => some (0, extMaxBlocks)
  | some ex =>
    if lblk < ex.eeBlock then some (lblk, ex.eeBlock - lblk)
    else if lblk ≥ ex.eeBlock + ex.len then
      let start := ex.eeBlock + ex.len
      let next := nextAllocatedBlock tree ex
      -- BUG_ON(next == *lblk)
      if next = start then none else some (start, next - start)
    -- BUG()
    else none

theorem findExtent_mem {lblk : ℕ} (h : findExtent tree lblk = some ex) : ex ∈ tree := by
  rcases or_eq_some_iff.mp h with h | ⟨-, h⟩
  · exact mem_reverse.mp (mem_of_find?_eq_some h)
  · exact mem_of_mem_head? h

theorem FileList.le_nextAllocatedBlock (h : FileList tree) (hex : ex ∈ tree) :
    ex.eeBlock + ex.len ≤ nextAllocatedBlock tree ex ∧
      nextAllocatedBlock tree ex ≤ extMaxBlocks := by
  unfold nextAllocatedBlock
  cases hfind : tree.find? fun e => decide (ex.eeBlock < e.eeBlock) with
  | none => exact ⟨h.bound ex hex, le_rfl⟩
  | some e =>
    have hmem := mem_of_find?_eq_some hfind
    have hlt : ex.eeBlock < e.eeBlock := by simpa using find?_some hfind
    have hbound := h.bound e hmem
    refine ⟨?_, by dsimp only; omega⟩
    obtain ⟨l, m, rfl⟩ := append_of_mem hex
    obtain ⟨-, hright, hcross⟩ := pairwise_append.mp h.ordered.before
    rcases mem_append.mp hmem with he | he
    · -- an extent before this one starts before it
      have hbefore : e.eeBlock + e.len ≤ ex.eeBlock := hcross e he ex (by simp)
      omega
    · rcases mem_cons.mp he with rfl | he
      · omega
      · exact (pairwise_cons.mp hright).1 e he

theorem FileList.determineHole_le (h : FileList tree) {lblk start len : ℕ}
    (hhole : determineHole tree lblk = some (start, len)) :
    0 < len ∧ start + len ≤ extMaxBlocks := by
  unfold determineHole at hhole
  cases hfind : findExtent tree lblk with
  | none =>
    rw [hfind] at hhole
    cases hhole
    unfold extMaxBlocks
    omega
  | some ex =>
    simp only [hfind] at hhole
    have hmem := findExtent_mem hfind
    have hnext := h.le_nextAllocatedBlock hmem
    split_ifs at hhole with hbefore hafter hbug
    · cases hhole
      omega
    · cases hhole
      omega

end VMsep.Ext4
