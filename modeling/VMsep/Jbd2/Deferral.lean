import VMsep.Jbd2.Access

/-! Phase 2b of the commit: a buffer with the tag of the commit goes to the log and to `BJ_Shadow`,
every other one is unfiled and filed again on the list of the preallocated transaction. The two
calls for it hold no lock in between, so that the buffer can be written back there and its
`journal_head` be released. -/

namespace VMsep.Jbd2

open Function Memory Option List

/-- What happens to a deferred buffer between the two calls: nothing, a writeback, or a writeback
and the removal from its checkpoint list. -/
inductive Gap where
  | nothing
  | writeback
  | release
  deriving DecidableEq

def BufferHead.meanwhile (gap : Gap) (x : BufferHead) : Option BufferHead :=
  match gap with
  | .nothing => some x
  | .writeback => some { x with dirty := false }
  | .release => ({ x with dirty := false } : BufferHead).removeCheckpoint

namespace Memory

/-- The buffer is moved to `running_transaction`. -/
def deferBuffer (m : Memory) (aborted : Bool) (gap : Gap) (runningTransaction b : ℕ) :
    Option Memory :=
  match (m.bufs b).bPrivate with
  | none => none
  | some jh =>
    (m.unfileBuffer aborted b).bind fun m =>
      (m.apply b (BufferHead.meanwhile gap)).bind fun m =>
        m.fileBuffer aborted b runningTransaction jh.bJlist

def logBuffer (m : Memory) (aborted : Bool) (t b : ℕ) : Option Memory :=
  match (m.bufs b).writeMetadataBuffer aborted t with
  | none => none
  | some (x, some _) => some (m.put b x)
  | some (x, none) => (m.put b x).apply b (BufferHead.writeEscapedCopy aborted t)

def releaseBuffer (m : Memory) (running : Bool) (b : ℕ) : Option Memory :=
  refileBuffer (m.put b { m.bufs b with jbddirty := false }) true running b

/-- One round of the loop, for the first buffer `b` of `t_buffers`. -/
def commitBuffer (m : Memory) (aborted running : Bool) (gap : ℕ → Gap)
    (t runningTransaction inoSync b : ℕ) : Option Memory :=
  match (m.bufs b).bPrivate with
  | none => none
  | some jh =>
    if jh.ino ≠ inoSync then m.deferBuffer aborted (gap b) runningTransaction b
    else if aborted then m.releaseBuffer running b
    else m.logBuffer aborted t b

/-- The loop over `t_buffers`; every round takes one buffer off the list, so as many rounds as
the list is long are enough. -/
def commitBuffers (aborted running : Bool) (gap : ℕ → Gap) (t runningTransaction inoSync : ℕ) :
    ℕ → Memory → Option Memory
  | 0, m => if m.lists (t, .metadata) = [] then some m else none
  | n + 1, m =>
    match m.lists (t, .metadata) with
    | [] => some m
    | b :: _ =>
      (m.commitBuffer aborted running gap t runningTransaction inoSync b).bind
        (commitBuffers aborted running gap t runningTransaction inoSync n)

end Memory

/-- A buffer on `t_buffers` of transaction `t` as `dirty_metadata` leaves it. -/
structure BufferHead.OnBuffers (x : BufferHead) (k : JournalHead) (t : ℕ) : Prop where
  jh : x.bPrivate = some k
  transaction : k.bTransaction = some t
  jlist : k.bJlist = .metadata
  jcount : k.bJcount = if k.bCpTransaction = none then 1 else 2
  jbddirty : x.jbddirty = true
  dirty : x.dirty = false

/-- The buffer at the end of its deferral. -/
def BufferHead.deferred (x : BufferHead) (k : JournalHead) (gap : Gap) (r : ℕ) : BufferHead :=
  { x with
    jbddirty := gap = .nothing
    bPrivate := some { k with bTransaction := some r } }

namespace BufferHead

variable {x y : BufferHead} {k : JournalHead} {t r : ℕ} {gap : Gap}

section

variable (h : x.OnBuffers k t)

include h

theorem OnBuffers.place : x.place = some (t, .metadata) := by
  rw [place_eq_some h.jh h.transaction (by simp [h.jlist]), h.jlist]

theorem OnBuffers.unfile_eq : x.unfileBuffer false =
      putJournalHead { x with
        dirty := true, jbddirty := false
        bPrivate := some { k with bJlist := .none, bTransaction := none } } := by
  rw [unfileBuffer_eq h.jh (by simp [h.transaction]) (by simp [h.jlist])]
  simp [h.jbddirty]

theorem OnBuffers.unfile_of_cp (hcp : k.bCpTransaction ≠ none) :
    x.unfileBuffer false = some { x with
      dirty := true, jbddirty := false
      bPrivate := some { k with bJcount := 1, bJlist := .none, bTransaction := none } } := by
  rw [h.unfile_eq]
  simp [putJournalHead, h.jcount, hcp]

theorem OnBuffers.defer (hcp : k.bCpTransaction ≠ none) (hgap : gap ≠ .release) :
    ((x.unfileBuffer false).bind fun y => (y.meanwhile gap).bind fun y =>
      y.fileBuffer false r .metadata) = some (x.deferred k gap r) := by
  have hcount : k.bJcount = 2 := by
    rw [h.jcount, if_neg hcp]
  rw [h.unfile_of_cp hcp, bind_some]
  cases gap with
  | release => exact absurd rfl hgap
  | nothing | writeback =>
    rw [meanwhile, bind_some, fileBuffer_new rfl rfl]
    simp [deferred, h.dirty, h.jlist, hcount]

theorem OnBuffers.defer_none (hlost : k.bCpTransaction = none ∨ gap = .release) :
    ((x.unfileBuffer false).bind fun y => (y.meanwhile gap).bind fun y =>
      y.fileBuffer false r .metadata) = none := by
  by_cases hcp : k.bCpTransaction = none
  · have hcount : k.bJcount = 1 := by
      rw [h.jcount, if_pos hcp]
    rw [h.unfile_eq]
    by_cases hnext : k.bNextTransaction = none
    · cases gap <;>
        simp [putJournalHead, meanwhile, removeCheckpoint, fileBuffer, hcount, hcp, hnext]
    · simp [putJournalHead, hcount, hcp, hnext]
  · obtain rfl := hlost.resolve_left hcp
    rw [h.unfile_of_cp hcp, bind_some]
    -- the last reference is the one of the checkpoint
    by_cases hnext : k.bNextTransaction = none
    · simp [meanwhile, removeCheckpoint, putJournalHead, fileBuffer, hcp, hnext]
    · simp [meanwhile, removeCheckpoint, putJournalHead, hcp, hnext]

theorem OnBuffers.fileShadow (c : Option Content) :
    (x.mapJh fun jh => { jh with bFrozenData := c }).fileShadow false t =
      some { x with
        shadow := true, bPrivate := some { k with bFrozenData := c, bJlist := .shadow } } := by
  have hmap : (x.mapJh fun jh => { jh with bFrozenData := c }) =
      { x with bPrivate := some { k with bFrozenData := c } } := by
    simp [mapJh, h.jh]
  have hne : k.bJlist ≠ .shadow := by simp [h.jlist]
  rw [hmap, BufferHead.fileShadow,
    fileBuffer_move (x := { x with bPrivate := some { k with bFrozenData := c } })
      (k := { k with bFrozenData := c }) rfl h.transaction hne h.dirty]
  rfl

theorem OnBuffers.fileShadow_self : x.fileShadow false t =
      some { x with shadow := true, bPrivate := some { k with bJlist := .shadow } } := by
  have h0 := h.fileShadow k.bFrozenData
  have hmap : (x.mapJh fun jh => { jh with bFrozenData := k.bFrozenData }) = x := by
    obtain ⟨data, dirty, jbddirty, shadow, priv⟩ := x
    have hpriv : priv = some k := h.jh
    simp [mapJh, hpriv]
  rwa [hmap] at h0

theorem OnBuffers.write :
    ∃ fr, (∃ e, x.writeMetadataBuffer false t = some ({ x with
        shadow := true, bPrivate := some { k with bFrozenData := fr, bJlist := .shadow } },
        some e)) ∨ (x.writeMetadataBuffer false t = some (x, none) ∧
        x.writeEscapedCopy false t = some { x with
          shadow := true, bPrivate := some { k with bFrozenData := fr, bJlist := .shadow } }) := by
  unfold writeMetadataBuffer writeEscapedCopy
  have hjbd : (!x.jbddirty) = false := by simp [h.jbddirty]
  rw [h.jh]
  simp only [hjbd, Bool.false_eq_true, if_false]
  cases hfr : k.bFrozenData with
  | some d =>
    by_cases hd : d.word = jbd2MagicNumber
    · refine ⟨some { d with word := 0 }, .inl ⟨true, ?_⟩⟩
      simp only [hd, if_true]
      rw [h.fileShadow]
      rfl
    · refine ⟨some d, .inl ⟨false, ?_⟩⟩
      simp only [hd, if_false]
      rw [h.fileShadow_self, ← hfr]
      rfl
  | none =>
    by_cases hd : x.bData.word = jbd2MagicNumber
    · refine ⟨some { x.bData with word := 0 }, .inr ⟨?_, ?_⟩⟩
      · simp only [hd, if_true]
      · rw [getD_none, h.fileShadow]
    · refine ⟨none, .inl ⟨false, ?_⟩⟩
      simp only [hd, if_false]
      rw [h.fileShadow_self, ← hfr]
      rfl

end

end BufferHead

namespace Memory

variable {m m' : Memory} {b c t r v : ℕ} {k : JournalHead} {gap : ℕ → Gap}

theorem place_meanwhile {x y : BufferHead} {g : Gap} (h : x.meanwhile g = some y)
    (hx : x.place = none) : y.place = none := by
  cases g with
  | nothing | writeback =>
    cases h
    exact hx
  | release =>
    rw [BufferHead.meanwhile, BufferHead.removeCheckpoint] at h
    unfold BufferHead.place at hx ⊢
    cases hp : x.bPrivate with
    | none =>
      rw [hp] at h
      cases h
    | some =>
      rw [hp] at h hx
      simp only [BufferHead.putJournalHead] at h
      split_ifs at h <;> cases h <;> simp_all

theorem deferBuffer_eq (h : (m.bufs b).OnBuffers k t) (hcp : k.bCpTransaction ≠ none)
    (hgap : gap b ≠ .release) (htr : t ≠ r) :
    ∃ m1, m1.bufs = update m.bufs b ((m.bufs b).deferred k (gap b) r) ∧
      m1.lists (t, .metadata) = (m.lists (t, .metadata)).erase b ∧
      (m.Filed → m1.Filed) ∧ m.deferBuffer false (gap b) r b = some m1 := by
  have hdefer := h.defer (r := r) hcp hgap
  obtain ⟨y, hy, hfile⟩ := bind_eq_some_iff.mp hdefer
  obtain ⟨z, hz, hfile⟩ := bind_eq_some_iff.mp hfile
  refine ⟨((m.put b y).put b z).put b ((m.bufs b).deferred k (gap b) r),
    by simp only [put, update_idem], ?_, fun hf => ((hf.put b y).put b z).put b _, ?_⟩
  · have hy0 : y.place = none := by
      rw [h.unfile_eq, BufferHead.putJournalHead] at hy
      simp only at hy
      split_ifs at hy <;> cases hy <;> rfl
    have hd : ((m.bufs b).deferred k (gap b) r).place = some (r, .metadata) := by
      simp [BufferHead.deferred, BufferHead.place, h.jlist]
    have hne : some (r, Jlist.metadata) ≠ some (t, .metadata) := by
      simpa using Ne.symm htr
    simp only [put, update_self, hy0, place_meanwhile hz hy0, hd, h.place]
    have hnone : (none : Option (ℕ × Jlist)) ≠ some (t, .metadata) := (by simp)
    rw [Lib.relist_of_ne hnone hne, Lib.relist_of_ne hnone hnone, Lib.relist_leave hnone]
  · simp [deferBuffer, h.jh, h.jlist, unfileBuffer, fileBuffer, apply, hy, hz, hfile]

theorem deferBuffer_none (h : (m.bufs b).OnBuffers k t)
    (hlost : k.bCpTransaction = none ∨ gap b = .release) :
    m.deferBuffer false (gap b) r b = none := by
  have hdefer := h.defer_none (r := r) hlost
  cases hy : (m.bufs b).unfileBuffer false with
  | none => simp [deferBuffer, h.jh, unfileBuffer, apply, hy]
  | some y =>
    rw [hy, bind_some] at hdefer
    cases hz : y.meanwhile (gap b) with
    | none => simp [deferBuffer, h.jh, unfileBuffer, apply, hy, hz]
    | some =>
      rw [hz, bind_some] at hdefer
      simp [deferBuffer, h.jh, h.jlist, unfileBuffer, fileBuffer, apply, hy, hz, hdefer]

theorem logBuffer_eq (h : (m.bufs b).OnBuffers k t) : ∃ m1 fr, m1.bufs = update m.bufs b
        { m.bufs b with
          shadow := true, bPrivate := some { k with bFrozenData := fr, bJlist := .shadow } } ∧
      m1.lists (t, .metadata) = (m.lists (t, .metadata)).erase b ∧
      (m.Filed → m1.Filed) ∧ m.logBuffer false t b = some m1 := by
  obtain ⟨fr, hwrite⟩ := h.write
  have hplace : BufferHead.place { m.bufs b with
      shadow := true, bPrivate := some { k with bFrozenData := fr, bJlist := .shadow } } =
        some (t, .shadow) := by
    simp [BufferHead.place, h.transaction]
  have hne : some (t, Jlist.shadow) ≠ some (t, .metadata) := by simp
  rcases hwrite with ⟨e, hw⟩ | ⟨hw, hcopy⟩
  · refine ⟨m.put b _, fr, rfl, ?_, fun hf => hf.put b _, by rw [logBuffer, hw]⟩
    simp only [put, hplace, h.place]
    exact Lib.relist_leave hne
  · refine ⟨(m.put b (m.bufs b)).put b _, fr, update_idem _ _ m.bufs, ?_,
      fun hf => (hf.put b _).put b _, ?_⟩
    · simp only [put, update_self, hplace, h.place]
      rw [Lib.relist_leave hne]
      simp [Lib.relist]
    · rw [logBuffer, hw]
      simp [apply, hcopy]

theorem commitBuffer_eq (running : Bool) (h : (m.bufs b).OnBuffers k t)
    (hcp : k.ino ≠ v → k.bCpTransaction ≠ none ∧ gap b ≠ .release) (htr : t ≠ r) :
    ∃ m1 x, m1.bufs = update m.bufs b x ∧
      m1.lists (t, .metadata) = (m.lists (t, .metadata)).erase b ∧ (m.Filed → m1.Filed) ∧
      m.commitBuffer false running gap t r v b = some m1 ∧
      (k.ino = v → x.place = some (t, .shadow) ∧ x.bPrivate ≠ none) ∧
      (k.ino ≠ v → x = (m.bufs b).deferred k (gap b) r) := by
  by_cases hino : k.ino = v
  · obtain ⟨m1, fr, hb, hl, hf, hs⟩ := logBuffer_eq h
    refine ⟨m1, _, hb, hl, hf, ?_, fun _ => ⟨?_, by simp⟩, fun hne => absurd hino hne⟩
    · simp [commitBuffer, h.jh, hino, hs]
    · simp [BufferHead.place, h.transaction]
  · obtain ⟨m1, hb, hl, hf, hs⟩ := deferBuffer_eq h (hcp hino).1 (hcp hino).2 htr
    refine ⟨m1, _, hb, hl, hf, ?_, fun heq => absurd heq hino, fun _ => rfl⟩
    simp [commitBuffer, h.jh, hino, hs]

end Memory

/-- The buffers of `t_buffers` are as `dirty_metadata` leaves them. -/
def Memory.BuffersOk (m : Memory) (t : ℕ) : Prop :=
  ∀ b ∈ m.lists (t, .metadata), ∃ k, (m.bufs b).OnBuffers k t

/-- What the loop does to a buffer `x` of `t_buffers`. -/
def BufferHead.Committed (x y : BufferHead) (gap : Gap) (t r v : ℕ) : Prop :=
  ∃ k, x.bPrivate = some k ∧
    (k.ino = v → y.place = some (t, .shadow) ∧ y.bPrivate ≠ none) ∧
    (k.ino ≠ v → y = x.deferred k gap r)

namespace Memory

variable {m m' : Memory} {b c t r v : ℕ} {k : JournalHead} {gap : ℕ → Gap}

theorem commitBuffers_eq (running : Bool) (l : List ℕ) (hf : m.Filed)
    (hl : m.lists (t, .metadata) = l) (hok : m.BuffersOk t) (htr : t ≠ r)
    (hcp : ∀ b ∈ l, ∀ k, (m.bufs b).bPrivate = some k → k.ino ≠ v →
      k.bCpTransaction ≠ none ∧ gap b ≠ .release) :
    ∃ m', commitBuffers false running gap t r v l.length m = some m' ∧ m'.Filed ∧
      m'.lists (t, .metadata) = [] ∧ (∀ c, c ∉ l → m'.bufs c = m.bufs c) ∧
      ∀ b ∈ l, (m.bufs b).Committed (m'.bufs b) (gap b) t r v := by
  induction l generalizing m with
  | nil => exact ⟨m, by simp [commitBuffers, hl], hf, hl, fun _ _ => rfl, by simp⟩
  | cons b l ih =>
    have hnodup := hf.listed.nodup (t, .metadata)
    rw [hl, nodup_cons] at hnodup
    obtain ⟨k, hk⟩ := hok b (by rw [hl]; exact mem_cons_self)
    obtain ⟨m1, x, hb1, hl1, hf1, hs1, hlog, hdefer⟩ :=
      commitBuffer_eq running hk (hcp b mem_cons_self k hk.jh) htr
    rw [hl, erase_cons_head] at hl1
    -- The other buffers are as they were.
    have hother : ∀ c, c ≠ b → m1.bufs c = m.bufs c := fun c hc => by
      rw [hb1, update_of_ne hc]
    have hne : ∀ c ∈ l, c ≠ b := fun c hc h => hnodup.1 (h ▸ hc)
    obtain ⟨m', hs', hf', hl', hout, hin⟩ := ih (hf1 hf) hl1
      (fun c hc => by
        rw [hl1] at hc
        rw [hother c (hne c hc)]
        exact hok c (by rw [hl]; exact mem_cons_of_mem b hc))
      (fun c hc k' hk' => by
        rw [hother c (hne c hc)] at hk'
        exact hcp c (mem_cons_of_mem b hc) k' hk')
    refine ⟨m', ?_, hf', hl', fun c hc => ?_, fun c hc => ?_⟩
    · simp [commitBuffers, hl, hs1, hs']
    · rw [hout c fun h => hc (mem_cons_of_mem b h), hother c fun h => hc (h ▸ mem_cons_self)]
    · rcases mem_cons.mp hc with rfl | hc
      · rw [hout c hnodup.1, hb1, update_self]
        exact ⟨k, hk.jh, hlog, hdefer⟩
      · rw [← hother c (hne c hc)]
        exact hin c hc

theorem commitBuffers_none (running : Bool) (l : List ℕ) (hf : m.Filed)
    (hl : m.lists (t, .metadata) = l)
    (hok : m.BuffersOk t) (htr : t ≠ r) (hb : b ∈ l) (hk : (m.bufs b).bPrivate = some k)
    (hino : k.ino ≠ v) (hlost : k.bCpTransaction = none ∨ gap b = .release) :
    commitBuffers false running gap t r v l.length m = none := by
  induction l generalizing m with
  | nil => cases hb
  | cons a _ ih =>
    have hnodup := hf.listed.nodup (t, .metadata)
    rw [hl, nodup_cons] at hnodup
    obtain ⟨ka, hka⟩ := hok a (by rw [hl]; exact mem_cons_self)
    by_cases hstop : ka.ino ≠ v ∧ (ka.bCpTransaction = none ∨ gap a = .release)
    · simp [commitBuffers, hl, commitBuffer, hka.jh, hstop.1, deferBuffer_none (r := r) hka hstop.2]
    have hba : b ≠ a := by
      rintro rfl
      rw [hka.jh, some.injEq] at hk
      subst hk
      exact hstop ⟨hino, hlost⟩
    obtain ⟨m1, x, hb1, hl1, hf1, hs1, -, -⟩ := commitBuffer_eq running hka
      (fun hne => not_or.mp fun hc => hstop ⟨hne, hc⟩) htr
    rw [hl, erase_cons_head] at hl1
    have hother : ∀ c, c ≠ a → m1.bufs c = m.bufs c := fun c hc => by
      rw [hb1, update_of_ne hc]
    have hnone := ih (hf1 hf) hl1
      (fun c hc => by
        rw [hl1] at hc
        rw [hother c fun h => hnodup.1 (h ▸ hc)]
        exact hok c (by rw [hl]; exact mem_cons_of_mem a hc))
      ((mem_cons.mp hb).resolve_left hba) (by rw [hother b hba, hk])
    simp [commitBuffers, hl, hs1, hnone]

/-- A buffer that the commit has left to transaction `r`. -/
structure Deferred (m : Memory) (r b : ℕ) : Prop where
  once : (m.lists (r, .metadata)).count b = 1
  jbddirty : (m.bufs b).jbddirty = true
  jh : ∃ k, (m.bufs b).bPrivate = some k ∧ k.bTransaction = some r ∧ k.bNextTransaction = none ∧
    k.bFrozenData = none ∧ k.bJcount = if k.bCpTransaction = none then 1 else 2

/-- After the loop every buffer of `t_buffers` is on the shadow or forget list, if it has the tag
of the commit, or has been left to `r` in good order, and the counts are right. -/
structure DeferralKept (m m' : Memory) (t r v : ℕ) : Prop where
  buffers : ∀ b ∈ m.lists (t, .metadata), ∃ k, (m.bufs b).bPrivate = some k ∧
    (k.ino = v → b ∈ m'.lists (t, .shadow) ∨ b ∈ m'.lists (t, .forget)) ∧
    (k.ino ≠ v → m'.Deferred r b)
  nr : m'.tNrBuffers t = (m'.lists (t, .metadata)).length ∧
    m'.tNrBuffers r = (m'.lists (r, .metadata)).length

end Memory

/-- The loop over `t_buffers` ends with every buffer logged or left to the next transaction in
good order exactly if every buffer with another tag than the commit's has a checkpoint
reference, has not been claimed by the next transaction, has no frozen data and is not written back
between the two calls. -/
theorem deferral_loses_nothing (m : Memory) (gap : ℕ → Gap) (t r v : ℕ) (running : Bool)
    (hf : m.Filed) (hok : m.BuffersOk t) (htr : t ≠ r) :
    (∃ m', commitBuffers false running gap t r v (m.lists (t, .metadata)).length m = some m' ∧
        m.DeferralKept m' t r v) ↔
      ∀ b ∈ m.lists (t, .metadata), ∀ k, (m.bufs b).bPrivate = some k → k.ino ≠ v →
        k.bCpTransaction ≠ none ∧ k.bNextTransaction = none ∧ k.bFrozenData = none ∧
          gap b = .nothing := by
  constructor
  · rintro ⟨m', hs, hkept⟩ b hb k hk hino
    by_cases hall : ∀ b ∈ m.lists (t, .metadata), ∀ k, (m.bufs b).bPrivate = some k →
        k.ino ≠ v → k.bCpTransaction ≠ none ∧ gap b ≠ .release
    · obtain ⟨m1, hs1, -, -, -, hin⟩ := commitBuffers_eq running _ hf rfl hok htr hall
      obtain rfl : m1 = m' := some.inj (hs1.symm.trans hs)
      obtain ⟨k1, hk1, -, hmove⟩ := hin b hb
      obtain ⟨k2, hk2, -, hkd⟩ := hkept.buffers b hb
      rw [hk, some.injEq] at hk1 hk2
      subst hk1
      subst hk2
      obtain ⟨-, hjbd, k', hk', -, hnext, hfr, -⟩ := hkd hino
      rw [hmove hino] at hk' hjbd
      cases hk'
      exact ⟨(hall b hb k hk hino).1, hnext, hfr, of_decide_eq_true hjbd⟩
    · push Not at hall
      obtain ⟨a, ha, ka, hka, hia, hcp⟩ := hall
      have hlost : ka.bCpTransaction = none ∨ gap a = .release := by
        by_cases hnone : ka.bCpTransaction = none
        · exact .inl hnone
        · exact .inr (hcp hnone)
      rw [commitBuffers_none running _ hf rfl hok htr ha hka hia hlost] at hs
      cases hs
  · intro hall
    have hkept : ∀ b ∈ m.lists (t, .metadata), ∀ k, (m.bufs b).bPrivate = some k → k.ino ≠ v →
        k.bCpTransaction ≠ none ∧ gap b ≠ .release := by
      intro b hb k hk hino
      obtain ⟨hcp, -, -, hgap⟩ := hall b hb k hk hino
      exact ⟨hcp, by simp [hgap]⟩
    obtain ⟨m', hs, hf', -, -, hin⟩ := commitBuffers_eq running _ hf rfl hok htr hkept
    refine ⟨m', hs, fun b hb => ?_, hf'.nr t, hf'.nr r⟩
    obtain ⟨k, hk, hlog, hmove⟩ := hin b hb
    refine ⟨k, hk, fun hino => .inl (hf'.mem_iff.mpr (hlog hino).1), fun hino => ?_⟩
    obtain ⟨k0, hk0⟩ := hok b hb
    rw [hk0.jh, some.injEq] at hk
    subst hk
    obtain ⟨-, hnext, hfr, hgap⟩ := hall b hb k0 hk0.jh hino
    have hx := hmove hino
    refine ⟨count_eq_one_of_mem (hf'.listed.nodup _) (hf'.mem_iff.mpr ?_), ?_,
      ⟨{ k0 with bTransaction := some r }, by rw [hx]; rfl, rfl, hnext, hfr, hk0.jcount⟩⟩
    · rw [hx]
      simp [BufferHead.deferred, BufferHead.place, hk0.jlist]
    · rw [hx]
      simp [BufferHead.deferred, hgap]

namespace Memory

def clean : Memory :=
  { bufs := fun _ =>
      { bData := { word := 0, rest := [], hist := [] }, dirty := false, jbddirty := false
        shadow := false, bPrivate := none }
    lists := fun _ => [], tNrBuffers := fun _ => 0
    tCheckpointList := fun _ => [], tCheckpointIoList := fun _ => [] }

theorem clean_filed : clean.Filed where
  listed := ⟨by simp [clean, BufferHead.place], by simp [clean]⟩
  nr := by simp [clean]

def taggedBuffer (cp : Option ℕ) : BufferHead :=
  { bData := { word := 0, rest := [], hist := [] }, dirty := false, jbddirty := true
    shadow := false
    bPrivate := some
      { bJcount := if cp = none then 1 else 2, bJlist := .metadata, bModified := true
        bFrozenData := none, bTransaction := some 0, bNextTransaction := none
        bCpTransaction := cp, ino := 5 } }

def tagged (cp : Option ℕ) : Memory := clean.put 0 (taggedBuffer cp)

theorem tagged_filed (cp : Option ℕ) : (tagged cp).Filed := clean_filed.put 0 _

theorem tagged_buffersOk (cp : Option ℕ) : (tagged cp).BuffersOk 0 := by
  intro b hb
  have hmem : b = 0 := by
    simpa [tagged, put, clean, Lib.relist, Lib.enlist, Lib.unlist, BufferHead.place,
      taggedBuffer] using hb
  subst hmem
  rw [tagged, bufs_put_self]
  exact ⟨_, rfl, rfl, rfl, rfl, rfl, rfl⟩

end Memory

/-- The `journal_head` of a buffer that is in no checkpoint is freed by `unfile_buffer` and then
used by `file_buffer`; so is that of a buffer which leaves its checkpoint in between. -/
theorem deferral_uses_freed_journal_head :
    (tagged none).Filed ∧ (tagged none).BuffersOk 0 ∧
      ((tagged none).unfileBuffer false 0).map (fun m => (m.bufs 0).bPrivate) =
        some none ∧
      commitBuffers false true (fun _ => .nothing) 0 1 0 1 (tagged none) = none ∧
      commitBuffers false true (fun _ => .release) 0 1 0 1 (tagged (some 7)) = none :=
  ⟨tagged_filed none, tagged_buffersOk none, by decide +kernel, by decide +kernel,
    by decide +kernel⟩

theorem deferral_loses_nothing_tagged :
    ∃ m', commitBuffers false true (fun _ => .nothing) 0 1 0
        ((tagged (some 7)).lists (0, .metadata)).length (tagged (some 7)) = some m' ∧
      (tagged (some 7)).DeferralKept m' 0 1 0 := by
  refine (deferral_loses_nothing _ _ 0 1 0 true (tagged_filed _)
    (tagged_buffersOk _) (by decide)).mpr fun b _ k hk _ => ?_
  have hb0 : b = 0 := by
    by_contra hne
    rw [tagged, bufs_put_of_ne hne] at hk
    cases hk
  subst hb0
  rw [tagged, bufs_put_self] at hk
  cases hk
  exact ⟨(by simp), rfl, rfl, rfl⟩

end VMsep.Jbd2
