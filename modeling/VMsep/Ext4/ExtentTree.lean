import VMsep.Ext4.ExtentList

/-! One statement for each function, in terms of the list of the tree's extents. -/

namespace VMsep.Ext4

open Lib List EsNode

theorem esEnd_eq {es : ExtentStatus} (h : es.esLblk + es.esLen ≤ extMaxBlocks) :
    esEnd es = some (es.esLblk + es.esLen - 1) := by
  unfold extMaxBlocks at h
  exact if_neg (by omega)

namespace EsInode

variable {s : EsInode} (rb : Balance EsNode) {l m : List EsNode} {es e : EsNode} {lblk : ℕ}
  {newes : ExtentStatus} {k : List ExtentStatus}

def extents (s : EsInode) : List ExtentStatus := s.nodes.map EsNode.toExtentStatus

/-- The nodes have addresses of their own, and the counters count them. -/
structure Counted (s : EsInode) : Prop where
  addrs : (s.nodes.map EsNode.addr).Nodup
  fresh : ∀ es ∈ s.nodes, es.addr < s.nextAddr
  allNr : s.iEsAllNr = s.nodes.length
  shkNr : s.iEsShkNr = s.nodes.countP fun es => !es.esType.isDelayed

structure Core (s : EsInode) : Prop extends Counted s where
  list : EsList s.extents

/-- `cache_es` is `NULL` or a node of the tree. -/
def CacheOk (s : EsInode) : Prop := ∀ a ∈ s.cacheEs, ∃ es ∈ s.nodes, es.addr = a

structure Ok (s : EsInode) : Prop extends Core s where
  cache : s.CacheOk

theorem cacheOk_none (h : s.cacheEs = none) : s.CacheOk := by
  intro a ha
  rw [h] at ha
  cases ha

theorem Counted.addr_ne (h : s.Counted) (hn : s.nodes = l ++ es :: m) :
    (∀ e ∈ l, e.addr ≠ es.addr) ∧ ∀ e ∈ m, e.addr ≠ es.addr := by
  have hnodup := h.addrs
  rw [hn, map_append, map_cons] at hnodup
  obtain ⟨-, hright, hdis⟩ := nodup_append.mp hnodup
  constructor
  · intro e he heq
    exact hdis e.addr (mem_map_of_mem he) es.addr (by simp) heq
  · intro e he heq
    exact (nodup_cons.mp hright).1 (heq ▸ mem_map_of_mem he)

theorem extents_eq (hn : s.nodes = l ++ m) :
    s.extents = l.map EsNode.toExtentStatus ++ m.map EsNode.toExtentStatus := by
  unfold extents
  rw [hn, map_append]

theorem write_nodes (h : s.Counted) (hn : s.nodes = l ++ e :: m) (haddr : es.addr = e.addr) :
    (s.write es).nodes = l ++ es :: m := by
  obtain ⟨hl, hm⟩ := h.addr_ne hn
  have hkeep : ∀ k : List EsNode, (∀ x ∈ k, x.addr ≠ e.addr) →
      k.map (fun x => if x.addr = es.addr then es else x) = k := by
    intro k hk
    calc k.map (fun x => if x.addr = es.addr then es else x)
        = k.map id := map_congr_left fun x hx => if_neg (haddr ▸ hk x hx)
      _ = k := map_id k
  change inorder (s.root.map _) = _
  rw [inorder_map]
  change s.nodes.map _ = _
  rw [hn, map_append, map_cons, hkeep l hl, hkeep m hm, if_pos haddr.symm]

theorem write_counted (h : s.Counted) (es : EsNode) (hn : s.nodes = l ++ e :: m)
    (haddr : es.addr = e.addr) (htype : es.esType = e.esType) : (s.write es).Counted := by
  have hn' := write_nodes h hn haddr
  have haddrs := h.addrs
  have hfresh := h.fresh
  have hall := h.allNr
  have hshk := h.shkNr
  rw [hn] at haddrs hfresh hall hshk
  refine ⟨?_, ?_, ?_, ?_⟩
  · rw [hn']
    simpa [haddr] using haddrs
  · rw [hn']
    intro x hx
    rcases mem_append.mp hx with hx | hx
    · exact hfresh x (by simp [hx])
    rcases mem_cons.mp hx with rfl | hx
    · exact haddr ▸ hfresh e (by simp)
    · exact hfresh x (by simp [hx])
  · rw [hn']
    change s.iEsAllNr = _
    rw [hall]
    simp
  · rw [hn']
    change s.iEsShkNr = _
    rw [hshk]
    simp [countP_cons, htype]

theorem freeExtent_spec (h : s.Counted) (hn : s.nodes = l ++ es :: m) :
    ∃ s', s.freeExtent rb es = some s' ∧ s'.Counted ∧ s'.nodes = l ++ m ∧
      s'.cacheEs = s.cacheEs := by
  obtain ⟨hl, hm⟩ := h.addr_ne hn
  have hfilter : s.nodes.filter (fun e => e.addr ≠ es.addr) = l ++ m := by
    rw [hn, filter_append, filter_cons_of_neg (by simp),
      filter_eq_self.mpr (by simpa using hl), filter_eq_self.mpr (by simpa using hm)]
  have hsub : (l ++ m).Sublist s.nodes := by
    rw [hn]
    exact (sublist_cons_self es m).append_left l
  have haddrs := h.addrs.sublist (hsub.map addr)
  have hall := h.allNr
  have hshk := h.shkNr
  rw [hn] at hall hshk
  have hfresh : ∀ e ∈ l ++ m, e.addr < s.nextAddr := fun e he => h.fresh e (hsub.subset he)
  have hnodes : ∀ s' : EsInode, s'.root = rb.shape (l ++ m) → s'.nodes = l ++ m := by
    intro s' hroot
    unfold nodes
    rw [hroot, rb.inorder_shape]
  unfold freeExtent
  rw [hfilter]
  by_cases hd : es.esType.isDelayed = true
  · rw [if_pos hd]
    refine ⟨_, rfl, ⟨?_, ?_, ?_, ?_⟩, hnodes _ rfl, rfl⟩
    all_goals rw [hnodes _ rfl]
    · exact haddrs
    · exact hfresh
    · change s.iEsAllNr - 1 = _
      rw [hall]
      simp
    · change s.iEsShkNr = _
      rw [hshk]
      simp [hd]
  · have hpos : s.iEsShkNr = (l ++ m).countP (fun es => !es.esType.isDelayed) + 1 := by
      rw [hshk]
      simp [hd, Nat.add_assoc]
    rw [if_neg hd, if_neg (by simp [hpos])]
    refine ⟨_, rfl, ⟨?_, ?_, ?_, ?_⟩, hnodes _ rfl, rfl⟩
    all_goals rw [hnodes _ rfl]
    · exact haddrs
    · exact hfresh
    · change s.iEsAllNr - 1 = _
      rw [hall]
      simp
    · change s.iEsShkNr - 1 = _
      rw [hpos]
      rfl

theorem linkExtent_spec (h : s.Core) (newes : ExtentStatus) :
    ∃ l m, s.nodes = l ++ m ∧ (s.linkExtent rb newes).nodes =
        l ++ { newes with addr := s.nextAddr } :: m ∧
      (∀ e ∈ l, ¬ newes.esLblk < e.esLblk) ∧ (∀ e ∈ m, newes.esLblk < e.esLblk) ∧
      (s.linkExtent rb newes).Counted := by
  have hsorted : (inorder s.root).Pairwise fun a b : EsNode =>
      decide (newes.esLblk < a.esLblk) = true → decide (newes.esLblk < b.esLblk) = true := by
    refine (pairwise_map.mp h.list.ordered.before).imp_of_mem fun {a b} ha _ hab => ?_
    have hle : a.esLblk + a.esLen ≤ b.esLblk := hab
    simp only [decide_eq_true_eq]
    omega
  obtain ⟨l, m, hn, hlink, hl, hm⟩ :=
    linkNode_inorder (x := ({ newes with addr := s.nextAddr } : EsNode)) hsorted
  have hn' : s.nodes = l ++ m := hn
  have hnodes : (s.linkExtent rb newes).nodes = l ++ { newes with addr := s.nextAddr } :: m := by
    change inorder (rb.shape _) = _
    rw [rb.inorder_shape, hlink]
  have haddrs := h.addrs
  have hfresh := h.fresh
  have hall := h.allNr
  have hshk := h.shkNr
  rw [hn'] at haddrs hfresh hall hshk
  refine ⟨l, m, hn', hnodes, by simpa using hl, by simpa using hm, ⟨?_, ?_, ?_, ?_⟩⟩
  · rw [hnodes, map_append, map_cons]
    refine perm_middle.nodup_iff.mpr (nodup_cons.mpr ⟨?_, ?_⟩)
    · rw [← map_append]
      intro hmem
      obtain ⟨e, he, heq⟩ := mem_map.mp hmem
      have hlt := hfresh e he
      exact absurd heq hlt.ne
    · rw [← map_append]
      exact haddrs
  · rw [hnodes]
    change ∀ e ∈ (_ : List EsNode), e.addr < s.nextAddr + 1
    intro e he
    rcases mem_append.mp he with he | he
    · exact (hfresh e (by simp [he])).trans (Nat.lt_succ_self _)
    rcases mem_cons.mp he with rfl | he
    · exact Nat.lt_succ_self _
    · exact (hfresh e (by simp [he])).trans (Nat.lt_succ_self _)
  · rw [hnodes]
    change s.iEsAllNr + 1 = _
    rw [hall]
    simp [Nat.add_assoc]
  · rw [hnodes]
    change (if newes.esType.isDelayed then s.iEsShkNr else s.iEsShkNr + 1) = _
    rw [hshk]
    cases hd : newes.esType.isDelayed <;> simp [hd, Nat.add_assoc]

def position (lblk : ℕ) (es : EsNode) : Ordering :=
  if lblk < es.esLblk then .lt else if es.esLblk + es.esLen ≤ lblk then .gt else .eq

theorem mem_extents (hes : es ∈ s.nodes) : es.toExtentStatus ∈ s.extents :=
  mem_map_of_mem hes

theorem Core.esEnd (h : s.Core) (hes : es ∈ s.nodes) :
    esEnd es.toExtentStatus = some (es.esLblk + es.esLen - 1) :=
  esEnd_eq (h.list.bound _ (mem_extents hes))

theorem Core.compare (h : s.Core) (lblk : ℕ) (hes : es ∈ s.nodes) :
    esCompare lblk es = some (position lblk es) := by
  have hpos := h.list.pos _ (mem_extents hes)
  unfold esCompare position
  rw [h.esEnd hes]
  split_ifs with hlt hge
  · rfl
  · exact if_pos (by omega)
  · exact if_neg (by omega)

theorem Core.cut (h : s.Core) (lblk : ℕ) :
    (inorder s.root).Pairwise fun a b => position lblk a = .gt ∨ position lblk b = .lt := by
  refine (pairwise_map.mp h.list.ordered.before).imp_of_mem fun {a b} ha hb hab => ?_
  have hle : a.esLblk + a.esLen ≤ b.esLblk := hab
  unfold position
  by_cases hlt : lblk < b.esLblk
  · exact .inr (if_pos hlt)
  · refine .inl ?_
    rw [if_neg (by omega), if_pos (by omega)]

theorem position_gt (h : position lblk es = .gt) : es.esLblk + es.esLen ≤ lblk := by
  unfold position at h
  split_ifs at h with h1 h2
  exact h2

theorem position_lt (h : position lblk es = .lt) : lblk < es.esLblk := by
  unfold position at h
  split_ifs at h with h1
  exact h1

theorem position_eq (h : position lblk es = .eq) :
    es.esLblk ≤ lblk ∧ lblk < es.esLblk + es.esLen := by
  unfold position at h
  split_ifs at h with h1 h2
  omega

/-- The search finds the first extent that ends behind the block. -/
theorem esTreeSearch_spec (h : s.Core) (lblk : ℕ) :
    ∃ l m, s.nodes = l ++ m ∧ s.esTreeSearch lblk = some m.head? ∧
      (∀ e ∈ l, e.esLblk + e.esLen ≤ lblk) ∧ ∀ e ∈ m, lblk < e.esLblk + e.esLen := by
  obtain ⟨l, mid, m, hcut, hend⟩ :=
    descend_spec (fun a ha => h.compare lblk ha) (h.cut lblk) none
  have hl : ∀ e ∈ l, e.esLblk + e.esLen ≤ lblk := fun e he => position_gt (hcut.before e he)
  have hm : ∀ e ∈ m, lblk < e.esLblk + e.esLen := by
    intro e he
    have := position_lt (hcut.after e he)
    omega
  have hn : s.nodes = l ++ (mid.toList ++ m) := hcut.eq
  refine ⟨l, mid.toList ++ m, hn, ?_, hl, ?_⟩
  · unfold esTreeSearch
    rcases hend with ⟨es, rfl, hdesc⟩ | ⟨rfl, last, hdesc, hwhere⟩
    · rw [hdesc]
      rfl
    rw [hdesc]
    rcases hwhere with ⟨hnil, rfl⟩ | ⟨l', es, rfl, rfl⟩ | ⟨es, m', rfl, rfl⟩
    · have hm0 : m = [] := (hcut.nil_of_nil hnil).2
      rw [hm0]
      rfl
    · -- the search ended at the last extent before the block
      have hle := hl es (by simp)
      have hmem : es ∈ s.nodes := by rw [hn]; simp
      have hpos := h.list.pos _ (mem_extents hmem)
      have hn2 : s.nodes = l' ++ es :: m := by rw [hn]; simp
      simp only [Option.bind_some]
      rw [if_neg (by omega), h.esEnd hmem, Option.bind_some, if_pos (by omega), hn2,
        nextOf_append (by simpa using (h.addr_ne hn2).1) (by simp)]
      rfl
    · simp only [Option.bind_some]
      rw [if_pos (position_lt (hcut.after es (by simp)))]
      rfl
  · intro e he
    rcases mem_append.mp he with he | he
    · exact (position_eq (hcut.found e (Option.mem_toList.mp he))).2
    · exact hm e he

def Apart (newes : ExtentStatus) (l : List ExtentStatus) : Prop :=
  ∀ e ∈ l, e.esLblk + e.esLen ≤ newes.esLblk ∨ newes.esLblk + newes.esLen ≤ e.esLblk

theorem esPlace_spec {t : BinaryTree EsNode} (hpos : 0 < newes.esLen)
    (hlist : ∀ e ∈ inorder t, 0 < e.esLen ∧ e.esLblk + e.esLen ≤ extMaxBlocks)
    (hapart : ∀ e ∈ inorder t, e.esLblk + e.esLen ≤ newes.esLblk ∨
      newes.esLblk + newes.esLen ≤ e.esLblk) : ∃ p, esPlace newes t = some p ∧
      (∀ es, p = .before es → es ∈ inorder t ∧ esCanBeMerged newes es.toExtentStatus = true) ∧
      ∀ es, p = .after es → es ∈ inorder t ∧ esCanBeMerged es.toExtentStatus newes = true := by
  induction t with
  | nil => exact ⟨.vacant, rfl, by simp, by simp⟩
  | node es _ _ ihl ihr =>
    obtain ⟨hes, hbound⟩ := hlist es (by simp)
    have hside := hapart es (by simp)
    simp only [esPlace]
    by_cases hlt : newes.esLblk < es.esLblk
    · rw [if_pos hlt]
      by_cases hm : esCanBeMerged newes es.toExtentStatus = true
      · rw [if_pos hm]
        refine ⟨_, rfl, ?_, by simp⟩
        intro e he
        cases he
        exact ⟨by simp, hm⟩
      · rw [if_neg hm]
        obtain ⟨p, hp, h1, h2⟩ := ihl (fun e he => hlist e (by simp [he]))
          (fun e he => hapart e (by simp [he]))
        exact ⟨p, hp, fun e he => ⟨by simp [(h1 e he).1], (h1 e he).2⟩,
          fun e he => ⟨by simp [(h2 e he).1], (h2 e he).2⟩⟩
    · rw [if_neg hlt, esEnd_eq hbound, Option.bind_some, if_pos (by omega)]
      by_cases hm : esCanBeMerged es.toExtentStatus newes = true
      · rw [if_pos hm]
        refine ⟨_, rfl, by simp, ?_⟩
        intro e he
        cases he
        exact ⟨by simp, hm⟩
      · rw [if_neg hm]
        obtain ⟨p, hp, h1, h2⟩ := ihr (fun e he => hlist e (by simp [he]))
          (fun e he => hapart e (by simp [he]))
        exact ⟨p, hp, fun e he => ⟨by simp [(h1 e he).1], (h1 e he).2⟩,
          fun e he => ⟨by simp [(h2 e he).1], (h2 e he).2⟩⟩

/-- A state after an insertion, whose `cache_es` is the node at `a`. -/
structure InsertedAt (newes : ExtentStatus) (k : List ExtentStatus) (s' : EsInode) (a : ℕ) :
    Prop where
  counted : s'.Counted
  inserts : Inserts newes k s'.extents
  node : ∃ es ∈ s'.nodes, es.addr = a

theorem InsertedAt.join {a : ℕ} (h : InsertedAt newes k s a) (hn : s.nodes = l ++ e :: es :: m)
    (hm : esCanBeMerged e.toExtentStatus es.toExtentStatus = true) :
    ∃ s', (s.write { e with
        esLen := e.esLen + es.esLen,
        referenced := e.referenced || es.referenced }).freeExtent rb es =
      some s' ∧ InsertedAt newes k s' e.addr := by
  generalize he' : ({ e with
    esLen := e.esLen + es.esLen, referenced := e.referenced || es.referenced } : EsNode) = e'
  have haddr : e'.addr = e.addr := by rw [← he']
  have hcount := write_counted h.counted e' hn haddr (by rw [← he'])
  have hn2 : (s.write e').nodes = (l ++ [e']) ++ es :: m := by
    rw [write_nodes h.counted hn haddr]
    simp
  obtain ⟨s', hfree, hcounted, hn3, -⟩ := freeExtent_spec rb hcount hn2
  refine ⟨s', hfree, hcounted, ?_, e', by rw [hn3]; simp, haddr⟩
  have hmerge : MergeOf e.toExtentStatus es.toExtentStatus e'.toExtentStatus := by
    rw [← he']
    exact .of_canBeMerged hm rfl rfl rfl fun _ => rfl
  have hins := h.inserts
  rw [extents_eq hn] at hins
  rw [extents_eq hn3]
  simpa using hins.merge hmerge

theorem tryToMergeLeft_spec (h : InsertedAt newes k s es.addr) (hes : es ∈ s.nodes) :
    ∃ s' es', s.tryToMergeLeft rb es = some (s', es') ∧ InsertedAt newes k s' es'.addr := by
  obtain ⟨l, m, hn⟩ := append_of_mem hes
  unfold tryToMergeLeft
  rw [hn, prevOf_append (by simpa using (h.counted.addr_ne hn).1) (by simp)]
  rcases eq_nil_or_concat l with rfl | ⟨l', p, rfl⟩
  · exact ⟨s, es, rfl, h⟩
  rw [concat_eq_append] at hn
  simp only [concat_eq_append, getLast?_concat]
  by_cases hm : esCanBeMerged p.toExtentStatus es.toExtentStatus = true
  · obtain ⟨s', hfree, h'⟩ := h.join rb (l := l') (m := m) (by simpa using hn) hm
    rw [if_pos hm, hfree]
    exact ⟨s', _, rfl, h'⟩
  · rw [if_neg hm]
    exact ⟨s, es, rfl, h⟩

theorem tryToMergeRight_spec (h : InsertedAt newes k s es.addr) (hes : es ∈ s.nodes) :
    ∃ s' es', s.tryToMergeRight rb es = some (s', es') ∧ InsertedAt newes k s' es'.addr := by
  obtain ⟨l, m, hn⟩ := append_of_mem hes
  unfold tryToMergeRight
  rw [hn, nextOf_append (by simpa using (h.counted.addr_ne hn).1) (by simp)]
  cases m with
  | nil => exact ⟨s, es, rfl, h⟩
  | cons p =>
    simp only [head?_cons]
    by_cases hm : esCanBeMerged es.toExtentStatus p.toExtentStatus = true
    · obtain ⟨s', hfree, h'⟩ := h.join rb hn hm
      rw [if_pos hm, hfree]
      exact ⟨s', _, rfl, h'⟩
    · rw [if_neg hm]
      exact ⟨s, es, rfl, h⟩

theorem InsertedAt.grow (h : s.Core) (hnew : EsList [newes]) (hapart : Apart newes s.extents)
    (hes : es ∈ s.nodes) (es' : EsNode) (haddr : es'.addr = es.addr)
    (htype : es'.esType = es.esType) (hm : MergeOf newes es.toExtentStatus es'.toExtentStatus ∨
      MergeOf es.toExtentStatus newes es'.toExtentStatus) :
    InsertedAt newes s.extents (s.write es') es'.addr ∧ es' ∈ (s.write es').nodes := by
  obtain ⟨l, m, hn⟩ := append_of_mem hes
  have hn' := write_nodes h.toCounted hn haddr
  have hmem : es' ∈ (s.write es').nodes := by
    rw [hn']
    simp
  refine ⟨⟨write_counted h.toCounted es' hn haddr htype, ?_, es', hmem, rfl⟩, hmem⟩
  have hext := extents_eq hn
  have hlist := h.list
  rw [extents_eq hn']
  rw [hext] at hlist hapart ⊢
  have hbefore : ∀ a ∈ l.map toExtentStatus, a.esLblk + a.esLen ≤ es.esLblk := fun a ha =>
    hlist.before ha (by simp)
  have hbehind : ∀ a ∈ m.map toExtentStatus, es.esLblk + es.esLen ≤ a.esLblk := fun a ha =>
    hlist.after ha
  rw [map_cons, map_cons] at *
  rcases hm with hm | hm
  · refine Inserts.merge (Inserts.new hlist hnew ?_ ?_) hm
    · intro a ha
      have hside := hapart a (by simp only [mem_append]; exact .inl ha)
      have := hbefore a ha
      have := hm.next
      have := hlist.pos a (by simp only [mem_append]; exact .inl ha)
      omega
    · intro a ha
      have := hm.next
      rcases mem_cons.mp ha with rfl | ha
      · omega
      · have := hbehind a ha
        omega
  · have hins : Inserts newes ((l.map toExtentStatus ++ [es.toExtentStatus]) ++
        m.map toExtentStatus) ((l.map toExtentStatus ++ [es.toExtentStatus]) ++
        newes :: m.map toExtentStatus) := by
      refine Inserts.new (by simpa using hlist) hnew ?_ ?_
      · intro a ha
        have := hm.next
        rcases mem_append.mp ha with ha | ha
        · have := hbefore a ha
          omega
        · rw [mem_singleton.mp ha]
          omega
      · intro a ha
        have hside := hapart a (by simp [ha])
        have := hbehind a ha
        have := hm.next
        have := hlist.pos a (by simp [ha])
        omega
    have hins' : Inserts newes (l.map toExtentStatus ++ es.toExtentStatus ::
        m.map toExtentStatus) (l.map toExtentStatus ++ es.toExtentStatus :: newes ::
        m.map toExtentStatus) := by simpa using hins
    exact hins'.merge hm

theorem InsertedAt.ok {a : ℕ} (h : InsertedAt newes k s a) : { s with cacheEs := some a }.Ok where
  addrs := h.counted.addrs
  fresh := h.counted.fresh
  allNr := h.counted.allNr
  shkNr := h.counted.shkNr
  list := h.inserts.list
  cache := by
    intro b hb
    cases hb
    exact h.node

/-- An extent apart from the others is inserted, or there is no memory. -/
theorem insertExtent_spec (h : s.Core) (hnew : EsList [newes]) (hapart : Apart newes s.extents)
    (fail : Bool) : (s.insertExtent rb fail newes = some (.enomem, s) ∧ fail = true) ∨
      ∃ s', s.insertExtent rb fail newes = some (.ok, s') ∧ s'.Ok ∧
        Inserts newes s.extents s'.extents := by
  have hposnew := hnew.pos newes (by simp)
  obtain ⟨p, hp, hbefore, hafter⟩ := esPlace_spec (t := s.root) hposnew
    (fun e he => ⟨h.list.pos _ (mem_extents he), h.list.bound _ (mem_extents he)⟩)
    (fun e he => hapart _ (mem_extents he))
  unfold insertExtent
  simp only [hp, Option.bind_eq_bind, Option.bind_some]
  cases p with
  | before es =>
    obtain ⟨hes, hm⟩ := hbefore es rfl
    obtain ⟨htype, -, -, -⟩ := esCanBeMerged_spec hm
    simp only
    generalize hes' : ({ es with
      esLblk := newes.esLblk, esLen := es.esLen + newes.esLen
      esPblk := if es.esType.isMapped then newes.esPblk else es.esPblk } : EsNode) = es'
    have hmerge : MergeOf newes es.toExtentStatus es'.toExtentStatus := by
      rw [← hes']
      exact .of_canBeMerged hm htype.symm rfl (Nat.add_comm _ _) fun hmap => if_pos hmap
    obtain ⟨hins, hmem⟩ := InsertedAt.grow h hnew hapart hes es' (by rw [← hes'])
      (by rw [← hes']) (.inl hmerge)
    obtain ⟨s', es2, hmerged, hins'⟩ := tryToMergeLeft_spec rb hins hmem
    rw [hmerged]
    exact .inr ⟨_, rfl, hins'.ok, hins'.inserts⟩
  | after es =>
    obtain ⟨hes, hm⟩ := hafter es rfl
    simp only
    generalize hes' : ({ es with esLen := es.esLen + newes.esLen } : EsNode) = es'
    have hmerge : MergeOf es.toExtentStatus newes es'.toExtentStatus := by
      rw [← hes']
      exact .of_canBeMerged hm rfl rfl rfl fun _ => rfl
    obtain ⟨hins, hmem⟩ := InsertedAt.grow h hnew hapart hes es' (by rw [← hes'])
      (by rw [← hes']) (.inr hmerge)
    obtain ⟨s', es2, hmerged, hins'⟩ := tryToMergeRight_spec rb hins hmem
    rw [hmerged]
    exact .inr ⟨_, rfl, hins'.ok, hins'.inserts⟩
  | vacant =>
    cases fail with
    | true => exact .inl ⟨rfl, rfl⟩
    | false =>
      obtain ⟨l, m, hn, hn', hl, hm, hcount⟩ := linkExtent_spec rb h newes
      have hins : Inserts newes s.extents (s.linkExtent rb newes).extents := by
        rw [extents_eq hn, extents_eq hn', map_cons]
        have hside : ∀ e ∈ l ++ m, 0 < e.esLen ∧ (e.esLblk + e.esLen ≤ newes.esLblk ∨
            newes.esLblk + newes.esLen ≤ e.esLblk) := fun e he =>
          ⟨h.list.pos _ (mem_extents (hn ▸ he)), hapart _ (mem_extents (hn ▸ he))⟩
        refine Inserts.new (extents_eq hn ▸ h.list) hnew ?_ ?_ <;> rw [forall_mem_map]
        · intro e he
          have := hside e (mem_append_left _ he)
          have := hl e he
          omega
        · intro e he
          have := hside e (mem_append_right _ he)
          have := hm e he
          omega
      refine .inr ⟨_, rfl, ⟨⟨hcount, hins.list⟩, ?_⟩, hins⟩
      intro a ha
      cases ha
      exact ⟨_, by rw [hn']; simp, rfl⟩

end EsInode

end VMsep.Ext4
