import VMsep.Ext4.ExtentTree

/-! `__es_remove_extent` with its retries, and the shrinker, which frees extents that are not
delayed. -/

namespace VMsep.Ext4.EsInode

open Lib List Option EsNode

variable {s : EsInode} (rb : Balance EsNode) {l m pre rest : List EsNode} {es : EsNode}
  {lblk stop : ℕ} {newes : ExtentStatus}

theorem Counted.dropWhile_addr (h : s.Counted) (hn : s.nodes = l ++ es :: m) :
    s.nodes.dropWhile (fun e => e.addr ≠ es.addr) = es :: m := by
  have hne : ∀ e ∈ l, decide (e.addr = es.addr) = false := by simpa using (h.addr_ne hn).1
  have hdrop := dropWhile_append_cons (m := m) hne (decide_eq_true rfl)
  rw [← hn] at hdrop
  simpa using hdrop

theorem cutFront_addr (es : EsNode) (stop len : ℕ) : (cutFront es stop len).addr = es.addr := rfl

theorem removeWhole_spec (stop : ℕ) (h : s.Counted) (hn : s.nodes = pre ++ rest)
    (hrest : ∀ es ∈ rest, 0 < es.esLen ∧ es.esLblk + es.esLen ≤ extMaxBlocks) :
    ∃ s₁ next s', removeWhole rb stop rest s = some (s₁, next) ∧ s₁.cutNext stop next = some s' ∧
      s'.Counted ∧ s'.cacheEs = s.cacheEs ∧ s'.extents =
        pre.map EsNode.toExtentStatus ++ cutBelow stop (rest.map EsNode.toExtentStatus) := by
  induction rest generalizing s with
  | nil =>
    exact ⟨s, none, s, rfl, rfl, h, rfl, extents_eq hn⟩
  | cons es _ ih =>
    obtain ⟨-, hbound⟩ := hrest es (by simp)
    have htail := fun e he => hrest e (mem_cons_of_mem _ he)
    simp only [removeWhole, esEnd_eq hbound, bind_eq_bind, bind_some, map_cons, cutBelow]
    by_cases hend : es.esLblk + es.esLen - 1 ≤ stop
    · obtain ⟨s1, hfree, hcount, hn1, hcache⟩ := freeExtent_spec rb h hn
      obtain ⟨s2, next, s', hw, hcut, hcount', hcache', hext⟩ := ih hcount hn1 htail
      rw [if_pos hend, hfree, bind_some, if_pos (by omega)]
      exact ⟨s2, next, s', hw, hcut, hcount', hcache'.trans hcache, hext⟩
    · rw [if_neg hend, if_neg (c := es.esLblk + es.esLen ≤ stop + 1) (by omega)]
      by_cases hin : es.esLblk < stop + 1
      · rw [if_pos hin]
        refine ⟨s, some es, s.write (cutFront es stop (es.esLblk + es.esLen - 1 - stop)), rfl, ?_,
          write_counted h _ hn rfl rfl, rfl, ?_⟩
        · simp only [cutNext, esEnd_eq hbound, map_some, if_pos hin]
        · rw [extents_eq (write_nodes h hn (cutFront_addr _ _ _))]
          rfl
      · rw [if_neg hin]
        exact ⟨s, some es, s, rfl, if_neg hin, h, rfl, extents_eq hn⟩

theorem removeInside_spec (h : s.Core) (hn : s.nodes = l ++ es :: m)
    (hl : ∀ e ∈ l, e.esLblk + e.esLen ≤ lblk) (hle : lblk ≤ stop) (hin : es.esLblk < lblk)
    (hend : stop + 1 < es.esLblk + es.esLen) (fail : Bool) (hcache : s.cacheEs = none) :
    let r := s.removeInside rb fail es (lblk - es.esLblk) (es.esLblk + es.esLen - 1 - stop) stop
    (∃ s', r = some (.enomem, s') ∧ s'.Ok ∧ s'.extents = s.extents ∧ fail = true) ∨
      ∃ s', r = some (.ok, s') ∧ s'.Ok ∧ Erases lblk stop s.extents s'.extents := by
  intro r
  have hext := extents_eq hn
  rw [map_cons] at hext
  have hlist := h.list
  rw [hext] at hlist
  have hl' : ∀ a ∈ l.map toExtentStatus, a.esLblk + a.esLen ≤ lblk :=
    forall_mem_map.mpr hl
  have hm : ∀ a ∈ m.map toExtentStatus, es.esLblk + es.esLen ≤ a.esLblk := fun a ha =>
    hlist.after ha
  have hbound := hlist.bound es.toExtentStatus (by simp)
  -- the first rest
  generalize hes1 : ({ es with esLen := lblk - es.esLblk } : EsNode) = es1
  have haddr : es1.addr = es.addr := by rw [← hes1]
  have hlen1 : es1.esLblk + es1.esLen = lblk := by
    rw [← hes1]
    change es.esLblk + (lblk - es.esLblk) = lblk
    omega
  have hcount1 := write_counted h.toCounted es1 hn haddr (by rw [← hes1])
  have hn1 := write_nodes h.toCounted hn haddr
  have hext1 := extents_eq hn1
  rw [map_cons] at hext1
  have hlist1 : EsList (s.write es1).extents := by
    rw [hext1, ← hes1]
    exact hlist.cutBack hin (by omega)
  have hcore1 : (s.write es1).Core := ⟨hcount1, hlist1⟩
  -- the second rest
  generalize hnewes : ({ esLblk := stop + 1, esLen := es.esLblk + es.esLen - 1 - stop
                         esPblk := if es.esType.isMapped then
                            es.esPblk + BitVec.ofNat 59 es.esLen -
                              BitVec.ofNat 59 (es.esLblk + es.esLen - 1 - stop) else 0x7FDEADBEEF
                         esType := es.esType, referenced := es.referenced } : ExtentStatus) = newes
  have hstart : newes.esLblk = stop + 1 := by rw [← hnewes]
  have hlen : newes.esLen = es.esLblk + es.esLen - 1 - stop := by rw [← hnewes]
  have hval : ∀ x, stop < x → newes.value x = es.value x := by
    intro x hx
    refine cut_value (es.esLblk + es.esLen - 1 - stop) (by rw [← hnewes]) (by omega) (by omega)
      (fun hmap => ?_) (by omega)
    rw [← hnewes]
    exact if_pos hmap
  have hapart : Apart newes (s.write es1).extents := by
    rw [hext1]
    intro a ha
    rcases mem_append.mp ha with ha | ha
    · have := hl' a ha
      omega
    rcases mem_cons.mp ha with rfl | ha
    · omega
    · have := hm a ha
      omega
  have hr : r = s.removeInside rb fail es (lblk - es.esLblk) (es.esLblk + es.esLen - 1 - stop)
      stop := rfl
  unfold removeInside at hr
  simp only [hes1, hnewes] at hr
  rcases insertExtent_spec rb hcore1 (EsList.singleton newes (by omega) (by omega)) hapart fail with
    ⟨heq, hfail⟩ | ⟨s', heq, hok, hins⟩
  · -- the allocation failed, and the extent gets its old length back
    rw [heq] at hr
    have hn2 : ((s.write es1).write es).nodes = l ++ es :: m := write_nodes hcount1 hn1 haddr.symm
    have hext2 : ((s.write es1).write es).extents = s.extents := by
      rw [extents_eq hn2, extents_eq hn]
    refine .inl ⟨_, hr, ⟨⟨write_counted hcount1 es hn1 haddr.symm (by rw [← hes1]), ?_⟩, ?_⟩,
      hext2, hfail⟩
    · rw [hext2]
      exact h.list
    · exact cacheOk_none hcache
  · rw [heq] at hr
    refine .inr ⟨s', hr, hok, ?_⟩
    rw [hext]
    rw [hext1, ← hes1] at hins
    exact .of_split hlist hl' hle hin hend hins hstart (by omega) hval

theorem removeFrom_spec (h : s.Core) (hn : s.nodes = l ++ es :: m)
    (hl : ∀ e ∈ l, e.esLblk + e.esLen ≤ lblk) (hle : lblk ≤ stop)
    (hlblk : lblk < es.esLblk + es.esLen) (hend : es.esLblk + es.esLen ≤ stop + 1)
    (hcache : s.cacheEs = none) :
    ∃ s', s.removeFrom rb es (lblk - es.esLblk) stop = some s' ∧ s'.Ok ∧
      Erases lblk stop s.extents s'.extents := by
  have hext := extents_eq hn
  have hlist := h.list
  rw [hext] at hlist
  have hl' : ∀ a ∈ l.map toExtentStatus, a.esLblk + a.esLen ≤ lblk :=
    forall_mem_map.mpr hl
  have hnode : ∀ e ∈ s.nodes, 0 < e.esLen ∧ e.esLblk + e.esLen ≤ extMaxBlocks := fun e he =>
    ⟨h.list.pos _ (mem_extents he), h.list.bound _ (mem_extents he)⟩
  unfold removeFrom
  rw [h.toCounted.dropWhile_addr hn]
  by_cases hin : es.esLblk < lblk
  · generalize hes1 : ({ es with esLen := lblk - es.esLblk } : EsNode) = es1
    have haddr : es1.addr = es.addr := by rw [← hes1]
    have hcount1 := write_counted h.toCounted es1 hn haddr (by rw [← hes1])
    have hn1 : (s.write es1).nodes = (l ++ [es1]) ++ m := by
      rw [write_nodes h.toCounted hn haddr]
      simp
    obtain ⟨s1, next, s', hw, hcut, hcount, hcache', hext'⟩ := removeWhole_spec rb stop hcount1 hn1
      (fun e he => hnode e (by rw [hn]; simp [he]))
    rw [if_pos (by omega), tail_cons, hw]
    have her : Erases lblk stop s.extents s'.extents := by
      have hlist' : EsList ((l.map toExtentStatus ++ [es.toExtentStatus]) ++
          m.map toExtentStatus) := by simpa using hlist
      have hback := map_cutBack hl' hin hlblk
      have hlist1 : EsList (l.map toExtentStatus ++ [es1.toExtentStatus]) := by
        rw [← hes1]
        exact (hlist.cutBack hin hlblk.le).sublist (by simp)
      have hext2 : s.extents = (l.map toExtentStatus ++ [es.toExtentStatus]) ++
          m.map toExtentStatus := by simpa using hext
      rw [hext', hext2, map_append]
      refine .of_parts hlist' hle hlist1 ?_ ?_ ?_ ?_
      · intro a ha
        rcases mem_append.mp ha with ha | ha
        · have := hl' a ha
          omega
        · rw [mem_singleton.mp ha]
          exact hend
      · intro b hb
        have := hlist.after hb
        omega
      · intro a ha
        rcases mem_append.mp ha with ha | ha
        · exact hl' a ha
        rw [mem_singleton.mp ha, ← hes1]
        change es.esLblk + (lblk - es.esLblk) ≤ lblk
        omega
      · rw [← hes1]
        exact hback
    exact ⟨s', hcut, ⟨⟨hcount, her.list⟩, cacheOk_none (hcache'.trans hcache)⟩, her⟩
  · obtain ⟨s1, next, s', hw, hcut, hcount, hcache', hext'⟩ := removeWhole_spec rb stop h.toCounted
      hn (fun e he => hnode e (by rw [hn]; exact mem_append_right _ he))
    rw [if_neg (by omega), hw]
    have her : Erases lblk stop s.extents s'.extents := by
      rw [hext', hext]
      refine .of_parts hlist hle hlist.left (fun a ha => by have := hl' a ha; omega) ?_ hl' ?_
      · intro b hb
        rw [map_cons] at hb
        rcases mem_cons.mp hb with rfl | hb
        · omega
        · have := hlist.after hb
          omega
      · exact map_below hl'
    exact ⟨s', hcut, ⟨⟨hcount, her.list⟩, cacheOk_none (hcache'.trans hcache)⟩, her⟩

/-- The range leaves the map; only a failed allocation leaves the map as it is. -/
theorem removeOnce_spec (h : s.Ok) (hle : lblk ≤ stop) (fail : Bool) :
    (∃ s', s.removeOnce rb fail lblk stop = some (.enomem, s') ∧ s'.Ok ∧
        s'.extents = s.extents ∧ fail = true) ∨
      ∃ s', s.removeOnce rb fail lblk stop = some (.ok, s') ∧ s'.Ok ∧
        Erases lblk stop s.extents s'.extents := by
  obtain ⟨l, m, hn, hsearch, hl, hm⟩ := esTreeSearch_spec h.toCore lblk
  have hext := extents_eq hn
  have hlist := h.list
  rw [hext] at hlist
  have hl' : ∀ a ∈ l.map toExtentStatus, a.esLblk + a.esLen ≤ lblk :=
    forall_mem_map.mpr hl
  have hparts : (∀ b ∈ m.map toExtentStatus, lblk ≤ b.esLblk) →
      Erases lblk stop s.extents
        (l.map toExtentStatus ++ cutBelow stop (m.map toExtentStatus)) := by
    intro hmb
    rw [hext]
    exact .of_parts hlist hle hlist.left (fun a ha => by have := hl' a ha; omega) hmb hl'
      (map_below hl')
  unfold removeOnce
  simp only [hsearch, bind_eq_bind, bind_some]
  cases m with
  | nil =>
    have hp := hparts (by simp)
    exact .inr ⟨s, rfl, h, by simpa [hext, cutBelow] using hp⟩
  | cons es m =>
    have hmem : es ∈ s.nodes := by rw [hn]; simp
    have hpos := h.list.pos _ (mem_extents hmem)
    have hlblk := hm es (by simp)
    have hstart : lblk ≤ es.esLblk →
        ∀ b ∈ (es :: m).map toExtentStatus, lblk ≤ b.esLblk := by
      intro hge b hb
      rcases mem_cons.mp hb with rfl | hb
      · exact hge
      · have := hlist.after hb
        omega
    simp only [head?_cons]
    by_cases hout : es.esLblk > stop
    · rw [if_pos hout]
      have hp := hparts (hstart (by omega))
      rw [map_cons, cutBelow, if_neg (by omega), if_neg (by omega), ← map_cons,
        ← hext] at hp
      exact .inr ⟨s, rfl, h, hp⟩
    · rw [if_neg hout, h.toCore.esEnd hmem, bind_some]
      have hcore : ({ s with cacheEs := none } : EsInode).Core :=
        ⟨⟨h.addrs, h.fresh, h.allNr, h.shkNr⟩, h.list⟩
      by_cases hbeyond : 0 < es.esLblk + es.esLen - 1 - stop
      · rw [if_pos hbeyond]
        by_cases hin : 0 < lblk - es.esLblk
        · rw [if_pos hin]
          exact removeInside_spec rb hcore hn hl hle (by omega) (by omega) fail rfl
        rw [if_neg hin]
        have hp := hparts (hstart (by omega))
        rw [map_cons, cutBelow, if_neg (by omega), if_pos (by omega)] at hp
        have hn' := write_nodes hcore.toCounted hn
          (cutFront_addr es stop (es.esLblk + es.esLen - 1 - stop))
        have hext' := extents_eq hn'
        rw [map_cons] at hext'
        refine .inr ⟨_, rfl,
          ⟨⟨write_counted hcore.toCounted _ hn rfl rfl, ?_⟩, cacheOk_none rfl⟩, ?_⟩
        · rw [hext']
          exact hp.list
        · rw [hext']
          exact hp
      · rw [if_neg hbeyond]
        obtain ⟨s', heq, hok, her⟩ := removeFrom_spec rb hcore hn hl hle hlblk (by omega) rfl
        exact .inr ⟨s', by rw [heq]; rfl, hok, her⟩

theorem doReclaimLoop_spec (stop : ℕ) (nr shrunk : ℕ) (h : s.Counted) (hn : s.nodes = pre ++ rest) :
    ∃ more nr' shrunk' s' rest', doReclaimLoop rb stop rest nr shrunk s =
        some (more, nr', shrunk', s') ∧ s'.Counted ∧ s'.nodes = pre ++ rest' ∧
      Reclaims (rest.map EsNode.toExtentStatus) (rest'.map EsNode.toExtentStatus) := by
  induction rest generalizing s pre nr shrunk with
  | nil => exact ⟨_, _, _, _, [], rfl, ⟨h.addrs, h.fresh, h.allNr, h.shkNr⟩, hn, .nil⟩
  | cons es rest ih =>
    have hstop : ∀ a, ({ s with iEsShrinkLblk := a } : EsInode).Counted := fun a =>
      ⟨h.addrs, h.fresh, h.allNr, h.shkNr⟩
    have hn' : s.nodes = (pre ++ [es]) ++ rest := by simpa using hn
    simp only [doReclaimLoop]
    split_ifs with hnr hend hdel href
    · exact ⟨_, _, _, _, es :: rest, rfl, hstop _, hn, .refl _⟩
    · exact ⟨_, _, _, _, es :: rest, rfl, hstop _, hn, .refl _⟩
    · obtain ⟨more, nr', shrunk', s', rest', heq, hcount, hn2, hrec⟩ := ih (nr - 1) shrunk h hn'
      exact ⟨more, nr', shrunk', s', es :: rest', heq, hcount, by simpa using hn2,
        .keep es.toExtentStatus es.referenced hrec⟩
    · generalize hes' : ({ es with referenced := false } : EsNode) = es'
      have haddr : es'.addr = es.addr := by rw [← hes']
      have hcount := write_counted h es' hn haddr (by rw [← hes'])
      have hn1 : (s.write es').nodes = (pre ++ [es']) ++ rest := by
        rw [write_nodes h hn haddr]
        simp
      obtain ⟨more, nr', shrunk', s', rest', heq, hcount', hn2, hrec⟩ :=
        ih (nr - 1) shrunk hcount hn1
      refine ⟨more, nr', shrunk', s', es' :: rest', heq, hcount', by simpa using hn2, ?_⟩
      rw [← hes']
      exact .keep es.toExtentStatus false hrec
    · obtain ⟨s1, hfree, hcount, hn1, -⟩ := freeExtent_spec rb h hn
      obtain ⟨more, nr', shrunk', s', rest', heq, hcount', hn2, hrec⟩ :=
        ih (nr - 1) (shrunk + 1) hcount hn1
      rw [hfree, bind_some]
      exact ⟨more, nr', shrunk', s', rest', heq, hcount', hn2, .free (by simpa using hdel) hrec⟩

theorem doReclaimExtents_spec (h : s.Core) (stop nr shrunk : ℕ) :
    ∃ more nr' shrunk' s', s.doReclaimExtents rb stop nr shrunk = some (more, nr', shrunk', s') ∧
      s'.Core ∧ Reclaims s.extents s'.extents := by
  obtain ⟨l, m, hn, hsearch, -, -⟩ := esTreeSearch_spec h s.iEsShrinkLblk
  unfold doReclaimExtents
  rw [hsearch, bind_some]
  cases m with
  | nil =>
    exact ⟨_, _, _, _, rfl, ⟨⟨h.addrs, h.fresh, h.allNr, h.shkNr⟩, h.list⟩, .refl _⟩
  | cons =>
    simp only [head?_cons, h.toCounted.dropWhile_addr hn]
    obtain ⟨more, nr', shrunk', s', rest', heq, hcount, hn', hrec⟩ :=
      doReclaimLoop_spec rb stop nr shrunk h.toCounted hn
    have hall : Reclaims s.extents s'.extents := by
      rw [extents_eq hn, extents_eq hn']
      exact (Reclaims.refl _).append hrec
    exact ⟨more, nr', shrunk', s', heq, ⟨hcount, hall.list h.list⟩, hall⟩

theorem Core.forgetCache (h : s.Core) : ({ s with cacheEs := none } : EsInode).Ok :=
  ⟨⟨⟨h.addrs, h.fresh, h.allNr, h.shkNr⟩, h.list⟩, fun a ha => by cases ha⟩

/-- The shrinker takes only extents that may be reclaimed. -/
theorem reclaimExtents_spec (h : s.Ok) (nr : ℕ) :
    ∃ n s', s.reclaimExtents rb nr = some (n, s') ∧ s'.Ok ∧ Reclaims s.extents s'.extents := by
  unfold reclaimExtents
  by_cases hshk : s.iEsShkNr = 0
  · rw [if_pos hshk]
    exact ⟨_, _, rfl, h, .refl _⟩
  rw [if_neg hshk]
  obtain ⟨more, nr1, shrunk1, s1, heq1, hcore1, hrec1⟩ :=
    doReclaimExtents_spec rb h.toCore extMaxBlocks nr 0
  simp only [heq1, bind_eq_bind, bind_some]
  split_ifs with hwrap
  · obtain ⟨more2, nr2, shrunk2, s2, heq2, hcore2, hrec2⟩ :=
      doReclaimExtents_spec rb hcore1 (s.iEsShrinkLblk - 1) nr1 shrunk1
    rw [heq2]
    exact ⟨_, _, rfl, hcore2.forgetCache, hrec1.trans hrec2⟩
  · exact ⟨_, _, rfl, hcore1.forgetCache, hrec1⟩

theorem esShrink_spec (h : s.Ok) (f : Shrink) :
    ∃ n s', s.esShrink rb f = some (n, s') ∧ s'.Ok ∧ Reclaims s.extents s'.extents := by
  cases f with
  | others n => exact ⟨n, s, rfl, h, .refl _⟩
  | own nr => exact reclaimExtents_spec rb h nr

/-- A range is erased, or nothing but reclaimed extents is gone. -/
theorem removeExtent_spec (hle : lblk ≤ stop) (fails : List Shrink) (h : s.Ok) :
    ∃ err s' fails' l, removeExtent rb lblk stop fails s = some (err, s', fails') ∧ s'.Ok ∧
      Reclaims s.extents l ∧ (fails = [] → l = s.extents ∧ err = .ok ∧ fails' = []) ∧
      (err = .ok → Erases lblk stop l s'.extents) ∧ (err = .enomem → s'.extents = l) := by
  induction fails generalizing s with
  | nil =>
    simp only [removeExtent]
    rcases removeOnce_spec rb h hle false with ⟨s', -, -, -, hbad⟩ | ⟨s', heq, hok, her⟩
    · cases hbad
    rw [heq]
    exact ⟨_, _, _, s.extents, rfl, hok, .refl _, fun _ => ⟨rfl, rfl, rfl⟩, fun _ => her,
      by simp⟩
  | cons f _ ih =>
    simp only [removeExtent, bind_eq_bind]
    rcases removeOnce_spec rb h hle true with ⟨s1, heq, hok, hext, -⟩ | ⟨s', heq, hok, her⟩
    · obtain ⟨n, s2, hshrink, hok2, hrec⟩ := esShrink_spec rb hok f
      rw [heq, bind_some]
      simp only [hshrink, bind_some]
      rw [hext] at hrec
      by_cases hn : n = 0
      · rw [if_pos hn]
        exact ⟨_, _, _, _, rfl, hok2, hrec, by simp,
          by simp, fun _ => rfl⟩
      · rw [if_neg hn]
        obtain ⟨err, s', fails', l, heq', hok', hrec', -, her, hkeep⟩ := ih hok2
        exact ⟨err, s', fails', l, heq', hok', hrec.trans hrec', by simp, her,
          hkeep⟩
    · rw [heq, bind_some]
      exact ⟨_, _, _, s.extents, rfl, hok, .refl _, by simp, fun _ => her,
        by simp⟩

theorem Apart.reclaims {l l' : List ExtentStatus} (h : Apart newes l) (hrec : Reclaims l l') :
    Apart newes l' := by
  intro e he
  obtain ⟨es, hes, hlblk, hlen⟩ := hrec.mem he
  rw [hlblk, hlen]
  exact h es hes

theorem insertRetry_spec (hnew : EsList [newes]) (fails : List Shrink) (h : s.Ok)
    (hapart : Apart newes s.extents) :
    ∃ err s' l, insertRetry rb newes fails s = some (err, s') ∧ s'.Ok ∧ Reclaims s.extents l ∧
      (fails = [] → l = s.extents ∧ err = .ok) ∧ (err = .ok → Inserts newes l s'.extents) ∧
      (err = .enomem → s'.extents = l) := by
  induction fails generalizing s with
  | nil =>
    simp only [insertRetry]
    rcases insertExtent_spec rb h.toCore hnew hapart false with ⟨-, hbad⟩ | ⟨s', heq, hok, hins⟩
    · cases hbad
    rw [heq]
    exact ⟨_, _, s.extents, rfl, hok, .refl _, fun _ => ⟨rfl, rfl⟩, fun _ => hins,
      by simp⟩
  | cons f _ ih =>
    simp only [insertRetry, bind_eq_bind]
    rcases insertExtent_spec rb h.toCore hnew hapart true with ⟨heq, -⟩ | ⟨s', heq, hok, hins⟩
    · obtain ⟨n, s2, hshrink, hok2, hrec⟩ := esShrink_spec rb h f
      rw [heq, bind_some]
      simp only [hshrink, bind_some]
      by_cases hn : n = 0
      · rw [if_pos hn]
        exact ⟨_, _, _, rfl, hok2, hrec, by simp, by simp,
          fun _ => rfl⟩
      · rw [if_neg hn]
        obtain ⟨err, s', l, heq', hok', hrec', -, hins, hkeep⟩ := ih hok2 (hapart.reclaims hrec)
        exact ⟨err, s', l, heq', hok', hrec.trans hrec', by simp, hins, hkeep⟩
    · rw [heq, bind_some]
      exact ⟨_, _, s.extents, rfl, hok, .refl _, by simp, fun _ => hins,
        by simp⟩

end VMsep.Ext4.EsInode
