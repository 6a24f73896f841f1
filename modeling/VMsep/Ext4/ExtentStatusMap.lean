import VMsep.Ext4.ExtentRemoval

/-! Every call does to the map of the tree what it is for, and no `BUG_ON` is reached. -/

namespace VMsep.Ext4

open Lib List Option

namespace EsMap

def set (m : EsMap) (lblk len : ℕ) (v : ℕ → EsValue) : EsMap := fun x =>
  if lblk ≤ x ∧ x < lblk + len then some (v x) else m x

def erase (m : EsMap) (lblk len : ℕ) : EsMap := fun x =>
  if lblk ≤ x ∧ x < lblk + len then none else m x

def Shrunk (m : EsMap) (fails : List Shrink) (m' : EsMap) : Prop :=
  m.Reclaimed m' ∧ (fails = [] → m' = m)

variable {fails : List Shrink}

theorem Shrunk.of_reclaims {l l' : List ExtentStatus} (h : Reclaims l l') (hl : EsList l)
    (hnone : fails = [] → l' = l) : Shrunk (esView.map l) fails (esView.map l') :=
  ⟨h.reclaimed hl, fun hf => congrArg esView.map (hnone hf)⟩

/-- What the shrinker forgets after the range was erased, it may as well forget before. -/
theorem Shrunk.erase {m m₁ m₂ : EsMap} {lblk len : ℕ} (h : m.Shrunk fails m₁)
    (h' : (m₁.erase lblk len).Shrunk fails m₂) :
    ∃ m', m.Shrunk fails m' ∧ m₂ = m'.erase lblk len := by
  refine ⟨fun x => if lblk ≤ x ∧ x < lblk + len then m₁ x else m₂ x,
    ⟨fun x => ?_, fun hf => ?_⟩, ?_⟩
  · have h2 := h'.1 x
    dsimp only [EsMap.erase] at h2 ⊢
    split_ifs at h2 ⊢ with hx
    · exact h.1 x
    · exact (h.1 x).trans h2
  · rw [h'.2 hf, h.2 hf]
    funext x
    dsimp only [EsMap.erase]
    split_ifs <;> rfl
  · funext x
    have h2 := h'.1 x
    dsimp only [EsMap.erase] at h2 ⊢
    split_ifs at h2 ⊢ with hx
    · rcases h2 with h2 | ⟨h2, -⟩ <;> exact h2
    · rfl

end EsMap

def storedValue (lblk : ℕ) (pblk : BitVec 64) (status : EsType) (x : ℕ) : EsValue :=
  (status, if status.isMapped then some (pblk.setWidth 59 + BitVec.ofNat 59 (x - lblk)) else none)

inductive MapStep : EsMap → EsAct → EsReply → EsMap → Prop
  | insert {m m₁ : EsMap} {lblk len : ℕ} {pblk : BitVec 64} {status : EsType}
      {fails : List Shrink} :
      m.Shrunk fails m₁ →
      MapStep m (.insert lblk len pblk status fails) .done
        (m₁.set lblk len (storedValue lblk pblk status))
  | insertDropped {m m₁ : EsMap} {lblk len : ℕ} {pblk : BitVec 64} {status : EsType}
      {fails : List Shrink} :
      fails ≠ [] → m.Shrunk fails m₁ →
      MapStep m (.insert lblk len pblk status fails)
        (if status.isDelayed then .enomem else .dropped) (m₁.erase lblk len)
  | insertEnomem {m m₁ : EsMap} {lblk len : ℕ} {pblk : BitVec 64} {status : EsType}
      {fails : List Shrink} :
      fails ≠ [] → m.Shrunk fails m₁ →
      MapStep m (.insert lblk len pblk status fails) .enomem m₁
  | cache {m : EsMap} {lblk len : ℕ} {pblk : BitVec 64} {status : EsType} {fail : Bool} :
      (∀ x, lblk ≤ x → x < lblk + len → m x = none) →
      MapStep m (.cache lblk len pblk status fail) .done
        (m.set lblk len (storedValue lblk pblk status))
  | cacheKept {m : EsMap} {lblk len : ℕ} {pblk : BitVec 64} {status : EsType} {fail : Bool} :
      fail = true ∨ (∃ x, lblk ≤ x ∧ x < lblk + len ∧ m x ≠ none) →
      MapStep m (.cache lblk len pblk status fail) .done m
  | remove {m m₁ : EsMap} {lblk len : ℕ} {fails : List Shrink} :
      m.Shrunk fails m₁ → MapStep m (.remove lblk len fails) .done (m₁.erase lblk len)
  | removeEnomem {m m₁ : EsMap} {lblk len : ℕ} {fails : List Shrink} :
      fails ≠ [] → m.Shrunk fails m₁ → MapStep m (.remove lblk len fails) .enomem m₁
  | found {m : EsMap} {lblk : ℕ} {es : ExtentStatus} :
      es.esLblk ≤ lblk → lblk < es.esLblk + es.esLen →
      (∀ x, es.esLblk ≤ x → x < es.esLblk + es.esLen → m x = some (es.value x)) →
      MapStep m (.lookup lblk) (.found es) m
  | missing {m : EsMap} {lblk : ℕ} : m lblk = none → MapStep m (.lookup lblk) .missing m
  | shrink {m m₁ : EsMap} {nr : ℕ} : m.Reclaimed m₁ → MapStep m (.shrink nr) .done m₁

inductive MapRun : EsMap → List EsAct → List EsReply → EsMap → Prop
  | nil (m : EsMap) : MapRun m [] [] m
  | cons {m m₁ m' : EsMap} {a : EsAct} {as : List EsAct} {reply : EsReply}
      {replies : List EsReply} :
      MapStep m a reply m₁ → MapRun m₁ as replies m' → MapRun m (a :: as) (reply :: replies) m'

def EsAct.InRange : EsAct → Prop
  | .insert lblk len _ _ _ | .cache lblk len _ _ _ | .remove lblk len _ => lblk + len ≤ extMaxBlocks
  | .lookup _ | .shrink _ => True

namespace EsInode

variable {s : EsInode} (rb : Balance EsNode) {lblk len : ℕ} {l l' : List ExtentStatus}
  {newes : ExtentStatus}

def map (s : EsInode) : EsMap := esView.map s.extents

theorem stop_eq (hlen : 0 < len) (hle : lblk + len ≤ extMaxBlocks) :
    (lblk + len + 2 ^ 32 - 1) % 2 ^ 32 = lblk + len - 1 := by
  unfold extMaxBlocks at hle
  omega

theorem Erases.map_eq (hlen : 0 < len) (h : Erases lblk (lblk + len - 1) l l') :
    esView.map l' = EsMap.erase (esView.map l) lblk len := by
  funext x
  have hiff : (lblk ≤ x ∧ x ≤ lblk + len - 1) ↔ lblk ≤ x ∧ x < lblk + len := by omega
  rw [h.map, EsMap.erase]
  simp only [hiff]

theorem Inserts.map_eq (h : Inserts newes l l') :
    esView.map l' = EsMap.set (esView.map l) newes.esLblk newes.esLen newes.value := by
  funext x
  rw [h.map, EsMap.set]
  simp only [esView_covers]

theorem Apart.of_erases {stop : ℕ} (h : Erases lblk stop l l') (hle : lblk ≤ stop)
    (hlblk : newes.esLblk = lblk) (hstop : newes.esLblk + newes.esLen = stop + 1) :
    Apart newes l' := by
  intro e he
  have hpos := h.list.pos e he
  by_contra hover
  -- a common block would still be mapped
  obtain ⟨x, hx, hin⟩ : ∃ x, (e.esLblk ≤ x ∧ x < e.esLblk + e.esLen) ∧ lblk ≤ x ∧ x ≤ stop := by
    rcases le_total e.esLblk lblk with hfirst | hfirst
    · exact ⟨lblk, by omega⟩
    · exact ⟨e.esLblk, by omega⟩
  have hmap := h.list.ordered.map_of_mem he (esView_covers.mpr hx)
  rw [h.map, if_pos hin] at hmap
  cases hmap

theorem newes_list (hpos : 0 < len) (hle : lblk + len ≤ extMaxBlocks) (pblk : BitVec 64)
    (status : EsType) :
    EsList [{ esLblk := lblk, esLen := len, esPblk := pblk.setWidth 59, esType := status
              referenced := false }] :=
  EsList.singleton _ hpos hle

/-- `ext4_es_insert_extent` is a step of the map. -/
theorem esInsertExtent_step (h : s.Ok) (hle : lblk + len ≤ extMaxBlocks) (pblk : BitVec 64)
    (status : EsType) (fails : List Shrink) :
    ∃ reply s', s.esInsertExtent rb fails lblk len pblk status = some (reply, s') ∧ s'.Ok ∧
      MapStep s.map (.insert lblk len pblk status fails) reply s'.map := by
  unfold esInsertExtent
  by_cases hlen : len = 0
  · subst hlen
    refine ⟨.done, s, if_pos rfl, h, ?_⟩
    have hset : s.map = s.map.set lblk 0 (storedValue lblk pblk status) := by
      funext x
      exact (if_neg (by omega)).symm
    nth_rewrite 2 [hset]
    exact .insert ⟨.refl _, fun _ => rfl⟩
  have hpos : 0 < len := Nat.pos_of_ne_zero hlen
  have hnew := newes_list hpos hle pblk status
  generalize hnewes : ({ esLblk := lblk, esLen := len, esPblk := pblk.setWidth 59
                         esType := status, referenced := false } : ExtentStatus) = newes at hnew
  have hlblk : newes.esLblk = lblk := by rw [← hnewes]
  have hlen' : newes.esLen = len := by rw [← hnewes]
  have hval : newes.value = storedValue lblk pblk status := by rw [← hnewes]; rfl
  obtain ⟨err, s1, fails1, l1, heq1, hok1, hrec1, hnone1, her, hkeep1⟩ :=
    removeExtent_spec rb (show lblk ≤ lblk + len - 1 by omega) fails h
  simp only [stop_eq hpos hle, if_neg hlen, if_neg (show ¬ lblk + len - 1 < lblk by omega), heq1,
    bind_eq_bind, bind_some]
  cases err with
  | enomem =>
    have hfails : fails ≠ [] := fun hf => by cases (hnone1 hf).2.1
    refine ⟨.enomem, s1, rfl, hok1, .insertEnomem hfails ?_⟩
    unfold map
    rw [hkeep1 rfl]
    exact .of_reclaims hrec1 h.list fun hf => (hnone1 hf).1
  | ok =>
    have her := her rfl
    have hapart := Apart.of_erases her (by omega) hlblk (by omega)
    obtain ⟨err2, s2, l2, heq2, hok2, hrec2, hnone2, hins, hkeep2⟩ :=
      insertRetry_spec rb hnew fails1 hok1 hapart
    simp only [heq2, bind_some]
    -- what is left of the old map outside the range
    obtain ⟨m₁, hshrunk, hm₁⟩ : ∃ m₁, s.map.Shrunk fails m₁ ∧
        esView.map l2 = EsMap.erase m₁ lblk len := by
      have h2 := hrec2.reclaimed her.list
      rw [Erases.map_eq hpos her] at h2
      refine EsMap.Shrunk.erase (.of_reclaims hrec1 h.list fun hf => (hnone1 hf).1)
        ⟨h2, fun hf => ?_⟩
      rw [(hnone2 (hnone1 hf).2.2).1]
      exact Erases.map_eq hpos her
    cases err2 with
    | ok =>
      refine ⟨.done, s2, rfl, hok2, ?_⟩
      have hmap : s2.map = m₁.set lblk len (storedValue lblk pblk status) := by
        unfold map
        rw [Inserts.map_eq (hins rfl), hm₁, hlblk, hlen', hval]
        funext x
        simp only [EsMap.set, EsMap.erase]
        split_ifs <;> rfl
      rw [hmap]
      exact .insert hshrunk
    | enomem =>
      refine ⟨_, s2, rfl, hok2, ?_⟩
      have hmap : s2.map = m₁.erase lblk len := by
        unfold map
        rw [hkeep2 rfl, hm₁]
      rw [hmap]
      refine .insertDropped (fun hf => ?_) hshrunk
      cases (hnone2 (hnone1 hf).2.2).2

/-- `ext4_es_remove_extent` is a step of the map. -/
theorem esRemoveExtent_step (h : s.Ok) (hle : lblk + len ≤ extMaxBlocks) (fails : List Shrink) :
    ∃ reply s', s.esRemoveExtent rb fails lblk len = some (reply, s') ∧ s'.Ok ∧
      MapStep s.map (.remove lblk len fails) reply s'.map := by
  unfold esRemoveExtent
  by_cases hlen : len = 0
  · subst hlen
    refine ⟨.done, s, if_pos rfl, h, ?_⟩
    have herase : s.map = s.map.erase lblk 0 := by
      funext x
      exact (if_neg (by omega)).symm
    nth_rewrite 2 [herase]
    exact .remove ⟨.refl _, fun _ => rfl⟩
  have hpos : 0 < len := Nat.pos_of_ne_zero hlen
  obtain ⟨err, s1, fails1, l1, heq1, hok1, hrec1, hnone1, her, hkeep1⟩ :=
    removeExtent_spec rb (show lblk ≤ lblk + len - 1 by omega) fails h
  have hshrunk : s.map.Shrunk fails (esView.map l1) :=
    .of_reclaims hrec1 h.list fun hf => (hnone1 hf).1
  simp only [stop_eq hpos hle, if_neg hlen, if_neg (show ¬ lblk + len - 1 < lblk by omega), heq1,
    map_some]
  cases err with
  | ok =>
    refine ⟨.done, s1, rfl, hok1, ?_⟩
    have hmap : s1.map = EsMap.erase (esView.map l1) lblk len := Erases.map_eq hpos (her rfl)
    rw [hmap]
    exact .remove hshrunk
  | enomem =>
    refine ⟨.enomem, s1, rfl, hok1, ?_⟩
    have hmap : s1.map = esView.map l1 := congrArg esView.map (hkeep1 rfl)
    rw [hmap]
    exact .removeEnomem (fun hf => by cases (hnone1 hf).2.1) hshrunk

/-- `ext4_es_cache_extent` is a step of the map. -/
theorem esCacheExtent_step (h : s.Ok) (hle : lblk + len ≤ extMaxBlocks) (pblk : BitVec 64)
    (status : EsType) (fail : Bool) :
    ∃ reply s', s.esCacheExtent rb fail lblk len pblk status = some (reply, s') ∧ s'.Ok ∧
      MapStep s.map (.cache lblk len pblk status fail) reply s'.map := by
  unfold esCacheExtent
  by_cases hlen : len = 0
  · subst hlen
    refine ⟨.done, s, if_pos rfl, h, ?_⟩
    have hset : s.map = s.map.set lblk 0 (storedValue lblk pblk status) := by
      funext x
      exact (if_neg (by omega)).symm
    nth_rewrite 2 [hset]
    exact .cache fun x h1 h2 => by omega
  have hpos : 0 < len := Nat.pos_of_ne_zero hlen
  have hnew := newes_list hpos hle pblk status
  obtain ⟨l, m, hn, hsearch, hl, hm⟩ := esTreeSearch_spec h.toCore lblk
  simp only [stop_eq hpos hle, if_neg hlen, if_neg (show ¬ lblk + len - 1 < lblk by omega), hsearch,
    bind_eq_bind, bind_some]
  by_cases hfree : (m.head?.all fun es => decide (es.esLblk > lblk + len - 1)) = true
  · rw [if_pos hfree]
    -- the extents from the one found on start behind the range
    have hbehind : ∀ e ∈ m, lblk + len ≤ e.esLblk := by
      cases m with
      | nil => simp
      | cons es =>
        have hes : es.esLblk > lblk + len - 1 := by simpa using hfree
        have hlist := h.list
        rw [extents_eq hn] at hlist
        intro e he
        rcases mem_cons.mp he with rfl | he
        · omega
        · have := hlist.after (mem_map_of_mem he)
          omega
    have hside : ∀ e ∈ s.extents, e.esLblk + e.esLen ≤ lblk ∨ lblk + len ≤ e.esLblk := by
      intro e he
      obtain ⟨n, hnode, rfl⟩ := mem_map.mp he
      rw [hn] at hnode
      rcases mem_append.mp hnode with hnode | hnode
      · exact .inl (hl n hnode)
      · exact .inr (hbehind n hnode)
    have hnone : ∀ x, lblk ≤ x → x < lblk + len → s.map x = none := by
      intro x hx1 hx2
      refine esView.map_eq_none fun e he => esView_not_covers.mpr ?_
      have := hside e he
      omega
    rcases insertExtent_spec rb h.toCore hnew hside fail with ⟨heq, hfail⟩ | ⟨s', heq, hok, hins⟩
    · rw [heq]
      exact ⟨.done, s, rfl, h, .cacheKept (.inl hfail)⟩
    rw [heq]
    refine ⟨.done, s', rfl, hok, ?_⟩
    have hmap : s'.map = s.map.set lblk len (storedValue lblk pblk status) := Inserts.map_eq hins
    rw [hmap]
    exact .cache hnone
  · rw [if_neg hfree]
    refine ⟨.done, s, rfl, h, .cacheKept (.inr ?_)⟩
    cases m with
    | nil => simp at hfree
    | cons es =>
      have hes : es.esLblk ≤ lblk + len - 1 := by simpa using hfree
      have hmem : es ∈ s.nodes := by rw [hn]; simp
      have hend := hm es (by simp)
      have hposes := h.list.pos _ (mem_extents hmem)
      obtain ⟨x, hx, hin⟩ : ∃ x, (es.esLblk ≤ x ∧ x < es.esLblk + es.esLen) ∧
          lblk ≤ x ∧ x < lblk + len := by
        rcases le_total es.esLblk lblk with hfirst | hfirst
        · exact ⟨lblk, by omega⟩
        · exact ⟨es.esLblk, by omega⟩
      refine ⟨x, hin.1, hin.2, ?_⟩
      have hmap : s.map x = some (es.value x) :=
        h.list.ordered.map_of_mem (mem_extents hmem) (esView_covers.mpr hx)
      simp [hmap]

theorem esLookupNode_spec (h : s.Ok) (lblk : ℕ) : ∃ r, s.esLookupNode lblk = some r ∧
      (∀ es ∈ r, es ∈ s.nodes ∧ es.esLblk ≤ lblk ∧ lblk < es.esLblk + es.esLen) ∧
      (r = none → ∀ es ∈ s.nodes, ¬ (es.esLblk ≤ lblk ∧ lblk < es.esLblk + es.esLen)) := by
  -- the search in the tree
  have htree : ∃ r found last, descend (esCompare lblk) s.root none = some (found, last) ∧
      r = (if found then last else none) ∧
      (∀ es ∈ r, es ∈ s.nodes ∧ es.esLblk ≤ lblk ∧ lblk < es.esLblk + es.esLen) ∧
      (r = none → ∀ es ∈ s.nodes, ¬ (es.esLblk ≤ lblk ∧ lblk < es.esLblk + es.esLen)) := by
    obtain ⟨l, mid, m, hcut, hend⟩ :=
      descend_spec (fun a ha => h.toCore.compare lblk ha) (h.toCore.cut lblk) none
    have hn : s.nodes = l ++ (mid.toList ++ m) := hcut.eq
    rcases hend with ⟨es, rfl, hdesc⟩ | ⟨rfl, last, hdesc, -⟩
    · refine ⟨some es, true, some es, hdesc, rfl, ?_, by simp⟩
      intro e he
      cases he
      exact ⟨by rw [hn]; simp, position_eq (hcut.found es rfl)⟩
    · refine ⟨none, false, last, hdesc, rfl, by simp, fun _ e he => ?_⟩
      rw [hn] at he
      rcases mem_append.mp he with he | he
      · have := position_gt (hcut.before e he)
        omega
      · have := position_lt (hcut.after e he)
        omega
  obtain ⟨r, found, last, hdesc, hres, hfound, hmissing⟩ := htree
  unfold esLookupNode
  cases hcache : s.cacheEs with
  | none =>
    simp only [bind_eq_bind, bind_some, filter_none, hdesc, map_some]
    refine ⟨r, ?_, hfound, hmissing⟩
    rw [hres]
    cases found <;> rfl
  | some a =>
    obtain ⟨es0, hes0, haddr0⟩ := h.cache a hcache
    obtain ⟨es, hfind⟩ : ∃ es, s.nodes.find? (fun e => e.addr = a) = some es := by
      refine isSome_iff_exists.mp (find?_isSome.mpr ⟨es0, hes0, ?_⟩)
      simpa using haddr0
    have hmem := mem_of_find?_eq_some hfind
    have hpos := h.list.pos _ (mem_extents hmem)
    simp only [hfind, map_some, bind_eq_bind, bind_some, filter_some]
    by_cases hin : es.esLblk ≤ lblk ∧ lblk ≤ es.esLblk + es.esLen - 1
    · rw [if_pos (by simpa using hin)]
      refine ⟨some es, rfl, ?_, by simp⟩
      intro e he
      cases he
      exact ⟨hmem, hin.1, by omega⟩
    · rw [if_neg (by simpa using hin)]
      refine ⟨r, ?_, hfound, hmissing⟩
      rw [hdesc, hres]
      cases found <;> rfl

/-- `ext4_es_lookup_extent` is a step of the map. -/
theorem esLookupExtent_step (h : s.Ok) (lblk : ℕ) :
    ∃ reply s', s.esLookupExtent lblk = some (reply, s') ∧ s'.Ok ∧
      MapStep s.map (.lookup lblk) reply s'.map := by
  obtain ⟨r, heq, hfound, hmissing⟩ := esLookupNode_spec h lblk
  unfold esLookupExtent
  rw [heq, map_some]
  cases r with
  | none =>
    refine ⟨.missing, s, rfl, h, .missing (esView.map_eq_none fun e he => ?_)⟩
    obtain ⟨n, hn, rfl⟩ := mem_map.mp he
    exact esView_not_covers.mpr (hmissing rfl n hn)
  | some es =>
    obtain ⟨hmem, hlo, hhi⟩ := hfound es rfl
    obtain ⟨l, m, hn⟩ := append_of_mem hmem
    generalize hes' : ({ es with referenced := true } : EsNode) = es'
    have haddr : es'.addr = es.addr := by rw [← hes']
    have hn' := write_nodes h.toCounted hn haddr
    have hrec : Reclaims s.extents (s.write es').extents := by
      rw [extents_eq hn, extents_eq hn', map_cons, map_cons, ← hes']
      exact (Reclaims.refl _).append (.keep es.toExtentStatus true (.refl _))
    have hmap : (s.write es').map = s.map := by
      funext x
      unfold map
      rw [extents_eq hn, extents_eq hn', map_cons, map_cons, esView.map_append,
        esView.map_append, esView.map_cons, esView.map_cons, ← hes']
      rfl
    have hcount := write_counted h.toCounted es' hn haddr (by rw [← hes'])
    refine ⟨.found es.toExtentStatus, s.write es', by simp only [hes'],
      ⟨⟨hcount, hrec.list h.list⟩, ?_⟩, ?_⟩
    · intro a ha
      obtain ⟨e, he, hea⟩ := h.cache a ha
      rw [hn] at he
      rw [hn']
      rcases mem_append.mp he with he | he
      · exact ⟨e, by simp [he], hea⟩
      rcases mem_cons.mp he with rfl | he
      · exact ⟨es', by simp, haddr.trans hea⟩
      · exact ⟨e, by simp [he], hea⟩
    · rw [hmap]
      refine .found hlo hhi fun x hx1 hx2 => ?_
      exact h.list.ordered.map_of_mem (mem_extents hmem) (esView_covers.mpr ⟨hx1, hx2⟩)

/-- Each call on the tree is a step of the map. -/
theorem step_refines (h : s.Ok) {a : EsAct} (ha : a.InRange) :
    ∃ reply s', s.step rb a = some (reply, s') ∧ s'.Ok ∧ MapStep s.map a reply s'.map := by
  cases a with
  | insert _ _ pblk status fails => exact esInsertExtent_step rb h ha pblk status fails
  | cache _ _ pblk status fail => exact esCacheExtent_step rb h ha pblk status fail
  | remove _ _ fails => exact esRemoveExtent_step rb h ha fails
  | lookup lblk => exact esLookupExtent_step h lblk
  | shrink nr =>
    obtain ⟨n, s', heq, hok, hrec⟩ := reclaimExtents_spec rb h nr
    refine ⟨.done, s', ?_, hok, .shrink (hrec.reclaimed h.list)⟩
    simp only [step, heq, map_some]

theorem ok_esInitTree : esInitTree.Ok where
  addrs := .nil
  fresh := by simp [nodes, esInitTree]
  allNr := rfl
  shkNr := rfl
  list := ⟨.nil, by simp [extents, nodes, esInitTree]⟩
  cache := by
    intro a ha
    cases ha

/-- Each run on the tree is a run of the map, with the same replies. -/
theorem run_refines (as : List (Balance EsNode × EsAct)) (h : s.Ok) (ha : ∀ a ∈ as, a.2.InRange) :
    ∃ replies s', s.run as = some (replies, s') ∧ s'.Ok ∧
      MapRun s.map (as.map Prod.snd) replies s'.map := by
  induction as generalizing s with
  | nil => exact ⟨[], s, rfl, h, .nil _⟩
  | cons a _ ih =>
    obtain ⟨reply, s1, heq, hok, hstep⟩ := step_refines a.1 h (ha a mem_cons_self)
    obtain ⟨replies, s', heq', hok', hrun⟩ := ih hok fun b hb => ha b (mem_cons_of_mem _ hb)
    refine ⟨reply :: replies, s', ?_, hok', .cons hstep hrun⟩
    simp only [run, heq, heq', bind_eq_bind, bind_some]

/-- A tree with nothing gone but extents that the shrinker may free. -/
structure OnlyReclaimed (s s' : EsInode) : Prop where
  ok : s'.Ok
  reclaims : Reclaims s.extents s'.extents
  map : s.map.Reclaimed s'.map

theorem OnlyReclaimed.of_removeExtent {s' : EsInode} {stop : ℕ} {fails rest : List Shrink}
    (h : s.Ok) (hle : lblk ≤ stop)
    (heq : removeExtent rb lblk stop fails s = some (.enomem, s', rest)) : s.OnlyReclaimed s' := by
  obtain ⟨err, s1, fails1, l, heq1, hok, hrec, -, -, hkeep⟩ := removeExtent_spec rb hle fails h
  rw [heq1] at heq
  cases heq
  have hl : s'.extents = l := hkeep rfl
  subst hl
  exact ⟨hok, hrec, hrec.reclaimed h.list⟩

end EsInode

/-- A removal that fails, in a call of its own or in an insertion, has changed no status and no
physical block; extents that are not delayed may have been reclaimed. -/
theorem failedRemoval_onlyReclaimed {s s' : EsInode} (h : s.Ok) (rb : Balance EsNode)
    (fails : List Shrink) (lblk len : ℕ) :
    (s.esRemoveExtent rb fails lblk len = some (.enomem, s') → s.OnlyReclaimed s') ∧
    ∀ pblk status rest, 0 < len → lblk ≤ (lblk + len + 2 ^ 32 - 1) % 2 ^ 32 →
      EsInode.removeExtent rb lblk ((lblk + len + 2 ^ 32 - 1) % 2 ^ 32) fails s =
        some (.enomem, s', rest) →
      s.esInsertExtent rb fails lblk len pblk status = some (.enomem, s') ∧
        s.OnlyReclaimed s' := by
  constructor
  · intro heq
    unfold EsInode.esRemoveExtent at heq
    dsimp only at heq
    split_ifs at heq with hlen hstop
    · cases heq
    obtain ⟨⟨err, s1, rest⟩, hrem, hr⟩ := map_eq_some_iff.mp heq
    cases err with
    | ok => cases hr
    | enomem =>
      cases hr
      exact .of_removeExtent rb h (not_lt.mp hstop) hrem
  · intro pblk status rest hlen hle hrem
    refine ⟨?_, .of_removeExtent rb h hle hrem⟩
    unfold EsInode.esInsertExtent
    rw [if_neg (by omega), if_neg (by omega), hrem]
    rfl

def esSplitRun : List (Balance EsNode × EsAct) :=
  [.insert 10 10 100 .written [], .insert 40 2 0 .delayed [], .lookup 17].map fun a => (.right, a)

/-- The allocation fails twice: extents of other inodes are freed first, and then only the mark of
the extent is cleared. -/
theorem failedRemoval_onlyReclaimed_esSplitRun :
    ∃ replies s s', esInitTree.run esSplitRun = some (replies, s) ∧
      s.esRemoveExtent .right [.others 1, .own 8] 12 2 = some (.enomem, s') ∧
      s.OnlyReclaimed s' := by
  obtain ⟨replies, s, hrun, hok, -⟩ := EsInode.run_refines esSplitRun EsInode.ok_esInitTree (by
    simp [esSplitRun, EsAct.InRange, extMaxBlocks])
  have hfail : (esInitTree.run esSplitRun).bind (fun r =>
      (r.2.esRemoveExtent .right [.others 1, .own 8] 12 2).map Prod.fst) = some .enomem := by
    decide +kernel
  rw [hrun, bind_some] at hfail
  obtain ⟨⟨reply, s'⟩, heq, rfl⟩ := map_eq_some_iff.mp hfail
  exact ⟨replies, s, s', hrun, heq, (failedRemoval_onlyReclaimed hok _ _ _ _).1 heq⟩

/-- The extent status tree refines a partial map: no sequence of calls reaches a `BUG_ON`, the tree
stays in order with its counters and its cached node right, and the calls do to the map of the
tree what they are for. -/
theorem extentStatusTree_refines_map (as : List (Balance EsNode × EsAct))
    (ha : ∀ a ∈ as, a.2.InRange) :
    ∃ replies s, esInitTree.run as = some (replies, s) ∧ s.Ok ∧
      MapRun (fun _ => none) (as.map Prod.snd) replies s.map :=
  EsInode.run_refines as EsInode.ok_esInitTree ha

/-- Two extents are merged and looked up; a failed allocation then lets the shrinker free the merged
one before its middle is removed. -/
def esSampleRun : List (Balance EsNode × EsAct) :=
  [.insert 10 5 100 .written [], .insert 15 5 105 .written [], .insert 40 2 0 .delayed [],
    .lookup 17, .shrink 1, .remove 12 2 [.own 8], .lookup 41].map fun a => (.right, a)

theorem extentStatusTree_refines_map_esSampleRun :
    (∃ replies s, esInitTree.run esSampleRun = some (replies, s) ∧ s.Ok ∧
      MapRun (fun _ => none) (esSampleRun.map Prod.snd) replies s.map) ∧
    (esInitTree.run esSampleRun).map (fun r => (r.1[3]?, r.2.extents.map ExtentStatus.esLblk)) =
      some (some (.found ⟨10, 10, 100, .written, false⟩), [40]) := by
  refine ⟨extentStatusTree_refines_map esSampleRun ?_, by decide +kernel⟩
  intro a ha
  simp only [esSampleRun, map_cons, map_nil, mem_cons, not_mem_nil, or_false] at ha
  rcases ha with rfl | rfl | rfl | rfl | rfl | rfl | rfl <;> simp [EsAct.InRange, extMaxBlocks]

end VMsep.Ext4
