import VMsep.Jbd2.JournalHeads

/-! Every call on the pointers does what the call on the lists does, with the same assertions. -/

namespace VMsep.Jbd2

open Lib Function Memory Option

def Memory.cpLists (m : Memory) : ℕ × Bool → List ℕ := fun k =>
  if k.2 then m.tCheckpointIoList k.1 else m.tCheckpointList k.1

def BufferHead.Unfiled (x : BufferHead) : Prop :=
  ∀ k, x.bPrivate = some k → k.bTransaction = none → k.bJlist = .none

structure Rep (h : Heap) (m : Memory) : Prop where
  bufs : h.bufs = m.bufs
  nr : h.tNrBuffers = m.tNrBuffers
  filed : m.Filed
  unfiled : ∀ b, (m.bufs b).Unfiled
  rings : Rings h.bTnext h.bTprev h.list m.lists
  cpRings : Rings h.bCpnext h.bCpprev h.checkpoint m.cpLists
  cpListed : ∃ place, Listed place m.cpLists ∧ ∀ b, (place b).map Prod.fst = (m.bufs b).cp

namespace Memory

variable {m : Memory} {b : ℕ} {x y : BufferHead}

theorem put_put (h : x.place = y.place ∨ x.place = (m.bufs b).place ∨
    x.place = none ∧ (m.bufs b).place ≠ y.place) : (m.put b x).put b y = m.put b y := by
  unfold put
  simp only [update_self, update_idem]
  rcases h with h | h | ⟨h, hne⟩
  · rw [h]
    simp only [relist, if_true, mk.injEq, true_and, and_true]
    funext t
    omega
  · rw [h]
    simp only [relist, if_true, mk.injEq, true_and, and_true]
    funext t
    omega
  · rw [h]
    simp only [mk.injEq, true_and, and_true]
    constructor
    · unfold relist
      by_cases hp : (m.bufs b).place = none
      · have hy : none ≠ y.place := hp ▸ hne
        rw [hp, if_pos rfl, if_neg hy]
      by_cases hy : none = y.place
      · rw [if_neg hp, if_pos hy, ← hy, if_neg hp]
      · rw [if_neg hp, if_neg hy, if_neg hne]
        rfl
    · funext t
      omega

end Memory

namespace Rep

variable {h : Heap} {m : Memory} {b t : ℕ} {l : Jlist} {x : BufferHead}

theorem cpListed_put (R : Rep h m) (hcp : x.cp = (m.bufs b).cp) :
    ∃ place, Listed place (m.put b x).cpLists ∧
      ∀ c, (place c).map Prod.fst = ((m.put b x).bufs c).cp := by
  obtain ⟨place, hl, hp⟩ := R.cpListed
  refine ⟨place, hl, fun c => ?_⟩
  by_cases hc : c = b
  · subst hc
    rw [bufs_put_self, hp, hcp]
  · rw [bufs_put_of_ne hc, hp]

theorem unfiled_put (R : Rep h m) (hun : x.Unfiled) (c : ℕ) : ((m.put b x).bufs c).Unfiled := by
  by_cases hc : c = b
  · subst hc
    rwa [bufs_put_self]
  · rw [bufs_put_of_ne hc]
    exact R.unfiled c

theorem keep (R : Rep h m) (hplace : x.place = (m.bufs b).place) (hcp : x.cp = (m.bufs b).cp)
    (hun : x.Unfiled) :
    Rep (h.setBuf b x) (m.put b x) where
  bufs := by
    change update h.bufs b x = update m.bufs b x
    rw [R.bufs]
  nr := by
    change h.tNrBuffers = _
    rw [R.nr]
    funext t
    simp only [put, hplace]
    omega
  filed := R.filed.put b x
  unfiled := R.unfiled_put hun
  rings := by
    have hlists : (m.put b x).lists = m.lists := by
      simp only [put, hplace, relist, if_true]
    rw [hlists]
    exact R.rings
  cpRings := R.cpRings
  cpListed := R.cpListed_put hcp

theorem addNr_ite (h : Heap) (t : ℕ) (l : Jlist) (d : ℤ) :
    (if l = .metadata then h.addNr t d else h) =
      { h with
        tNrBuffers := fun u => h.tNrBuffers u + if (t, l) = (u, .metadata) then d else 0 } := by
  split_ifs with hl
  · unfold Heap.addNr
    congr 1
    funext u
    by_cases hu : u = t
    · simp [hu, hl]
    · simp [hu, Ne.symm hu]
  · simp [hl]

theorem leave (R : Rep h m) (hp : (m.bufs b).place = some (t, l)) (hq : x.place = none)
    (hcp : x.cp = (m.bufs b).cp) (hun : x.Unfiled) :
    ∃ h1, (if l = .metadata then h.addNr t (-1) else h).blistDelBuffer (t, l) b = some h1 ∧
      Rep (h1.setBuf b x) (m.put b x) ∧ (l = .metadata → 1 ≤ h.tNrBuffers t) := by
  obtain ⟨n, z, hn, hz, hrings⟩ := R.rings.unlink R.filed.listed hp
  have hlists : (m.put b x).lists = unlist m.lists b (some (t, l)) := by
    simp only [put, hp, hq, relist]
    rw [if_neg (by simp)]
    rfl
  have hpos : l = .metadata → 1 ≤ h.tNrBuffers t := by
    rintro rfl
    have hmem := R.filed.mem_iff.mpr hp
    have := List.length_pos_of_mem hmem
    rw [R.nr, R.filed.nr t]
    omega
  rw [addNr_ite]
  unfold Heap.blistDelBuffer
  simp only [hn, hz, bind_some, map_some]
  refine ⟨_, rfl, ⟨?_, ?_, R.filed.put b x,
    R.unfiled_put hun, ?_, R.cpRings, R.cpListed_put hcp⟩, hpos⟩
  · change update h.bufs b x = update m.bufs b x
    rw [R.bufs]
  · funext u
    change h.tNrBuffers u + _ = _
    simp only [put, hp, hq, R.nr, some.injEq]
    split_ifs <;> simp_all
    all_goals omega
  · rw [hlists]
    exact hrings

theorem enter (R : Rep h m) (hp : (m.bufs b).place = none) (hq : x.place = some (t, l))
    (hcp : x.cp = (m.bufs b).cp) (hun : x.Unfiled) :
    ∃ h1, (if l = .metadata then h.addNr t 1 else h).blistAddBuffer (t, l) b = some h1 ∧
      Rep (h1.setBuf b x) (m.put b x) ∧ h1.bufs = h.bufs := by
  have hlists : (m.put b x).lists = enlist m.lists b (some (t, l)) := by
    simp only [put, hp, hq, relist]
    rw [if_neg (by simp)]
    rfl
  have hnr : ∀ u, h.tNrBuffers u + (if (t, l) = (u, .metadata) then 1 else 0) =
      (m.put b x).tNrBuffers u := by
    intro u
    simp only [put, hp, hq, R.nr, some.injEq]
    split_ifs <;> simp_all
  have hbufs : update h.bufs b x = (m.put b x).bufs := by
    change _ = update m.bufs b x
    rw [R.bufs]
  rw [addNr_ite]
  unfold Heap.blistAddBuffer
  cases hhead : h.list (t, l) with
  | none =>
    obtain ⟨hnil, hrings⟩ := R.rings.linkFirst R.filed.listed hp hhead
    refine ⟨_, rfl, ⟨hbufs, funext hnr, R.filed.put b x, R.unfiled_put hun, ?_, R.cpRings,
      R.cpListed_put hcp⟩, rfl⟩
    rw [hlists, enlist, hnil]
    exact hrings
  | some =>
    obtain ⟨z, hz, hrings, -⟩ := R.rings.linkNext R.filed.listed hp hhead
    simp only [hz, map_some]
    refine ⟨_, rfl, ⟨hbufs, funext hnr, R.filed.put b x, R.unfiled_put hun, ?_, R.cpRings,
      R.cpListed_put hcp⟩, rfl⟩
    rw [hlists]
    exact hrings

variable {y : BufferHead}

theorem keepAt (R : Rep h (m.put b x)) (hplace : y.place = x.place) (hcp : y.cp = x.cp)
    (hun : y.Unfiled) : Rep (h.setBuf b y) (m.put b y) := by
  rw [← put_put (.inl hplace.symm)]
  exact R.keep (by rw [hplace, bufs_put_self]) (by rw [hcp, bufs_put_self]) hun

theorem enterAt (R : Rep h (m.put b x)) (hx : x.place = none) (hq : y.place = some (t, l))
    (hne : (m.bufs b).place ≠ some (t, l)) (hcp : y.cp = x.cp) (hun : y.Unfiled) :
    ∃ h1, (if l = .metadata then h.addNr t 1 else h).blistAddBuffer (t, l) b = some h1 ∧
      Rep (h1.setBuf b y) (m.put b y) ∧ h1.bufs = h.bufs := by
  have hput : (m.put b x).put b y = m.put b y :=
    put_put (.inr (.inr ⟨hx, by rwa [hq]⟩))
  have hself : (m.put b x).bufs b = x := bufs_put_self m b x
  obtain ⟨h1, heq, hR, hbufs⟩ := R.enter (x := y) (by rw [hself, hx]) hq (by rw [hself, hcp]) hun
  rw [hput] at hR
  exact ⟨h1, heq, hR, hbufs⟩

theorem setBuf_setBuf (h : Heap) (b : ℕ) (x y : BufferHead) :
    (h.setBuf b x).setBuf b y = h.setBuf b y := by
  unfold Heap.setBuf
  simp only [update_idem]

theorem bufs_setBuf (h : Heap) (b : ℕ) (x : BufferHead) : (h.setBuf b x).bufs b = x :=
  update_self _ _ _

theorem tempUnlinkBuffer (R : Rep h m) (aborted : Bool) :
    Option.Rel Rep (h.tempUnlinkBuffer aborted b)
      (m.apply b (BufferHead.tempUnlinkBuffer aborted)) := by
  unfold Heap.tempUnlinkBuffer apply BufferHead.tempUnlinkBuffer
  rw [R.bufs]
  dsimp only
  cases hjh : (m.bufs b).bPrivate with
  | none => exact .none
  | some jh =>
    dsimp only
    by_cases hl : jh.bJlist = .none
    · rw [if_pos hl, if_pos hl, map_some, put_bufs]
      exact .some R
    rw [if_neg hl, if_neg hl]
    cases ht : jh.bTransaction with
    | none => exact .none
    | some t =>
      have hp := BufferHead.place_eq_some hjh ht hl
      obtain ⟨h1, heq, hR, hpos⟩ := R.leave (x := { m.bufs b with
          dirty := (m.bufs b).dirty || ((m.bufs b).jbddirty && !aborted)
          jbddirty := false
          bPrivate := some { jh with bJlist := .none } }) hp (by simp [BufferHead.place])
        (by simp [BufferHead.cp, hjh]) (by
          intro k hk _
          cases hk
          rfl)
      have hnonneg : ¬ (jh.bJlist = .metadata ∧
          (if jh.bJlist = .metadata then h.addNr t (-1) else h).tNrBuffers t < 0) := by
        rintro ⟨hm, hneg⟩
        have := hpos hm
        rw [if_pos hm] at hneg
        change update h.tNrBuffers t _ t < 0 at hneg
        rw [update_self] at hneg
        omega
      dsimp only
      rw [if_neg hnonneg, heq, if_neg (by simp)]
      rw [ht] at hR
      exact .some hR

theorem putJournalHead_kept {w : BufferHead} (hw : x.putJournalHead = some w) (hun : x.Unfiled) :
    w.place = x.place ∧ w.cp = x.cp ∧ w.Unfiled := by
  unfold BufferHead.putJournalHead at hw
  cases hjh : x.bPrivate with
  | none =>
    rw [hjh] at hw
    cases hw
  | some jh =>
    rw [hjh] at hw
    dsimp only at hw
    split_ifs at hw with h0 h1 h2
    · cases hw
      push Not at h2
      refine ⟨by simp [BufferHead.place, hjh, h2], by simp [BufferHead.cp, hjh, h2], ?_⟩
      intro k hk
      cases hk
    · cases hw
      refine ⟨by simp [BufferHead.place, hjh], by simp [BufferHead.cp, hjh], ?_⟩
      intro k hk ht
      cases hk
      exact hun jh hjh ht

theorem putJournalHeadAt (R : Rep h (m.put b x)) :
    Option.Rel Rep (h.putJournalHead b) (x.putJournalHead.map (m.put b)) := by
  unfold Heap.putJournalHead
  have hbuf : h.bufs b = x := by rw [R.bufs, bufs_put_self]
  have hun : x.Unfiled := by
    have := R.unfiled b
    rwa [bufs_put_self] at this
  rw [hbuf]
  cases hw : x.putJournalHead with
  | none => exact .none
  | some =>
    obtain ⟨hplace, hcp, hun'⟩ := putJournalHead_kept hw hun
    exact .some (R.keepAt hplace hcp hun')

theorem putJournalHead (R : Rep h m) :
    Option.Rel Rep (h.putJournalHead b) (m.apply b BufferHead.putJournalHead) := by
  rw [← put_bufs m b] at R
  exact R.putJournalHeadAt

theorem tempUnlinkBuffer_place {aborted : Bool} {w : BufferHead}
    (hw : x.tempUnlinkBuffer aborted = some w) :
    ∃ k k', x.bPrivate = some k ∧ w.bPrivate = some k' ∧ k' = { k with bJlist := .none } := by
  unfold BufferHead.tempUnlinkBuffer at hw
  cases hjh : x.bPrivate with
  | none =>
    rw [hjh] at hw
    cases hw
  | some jh =>
    rw [hjh] at hw
    dsimp only at hw
    split_ifs at hw with h0 h1
    · cases hw
      refine ⟨jh, jh, rfl, hjh, ?_⟩
      rw [← h0]
    · cases hw
      exact ⟨jh, _, rfl, rfl, rfl⟩

theorem rel_cases {o : Option Heap} {w : Option BufferHead}
    (hsim : Option.Rel Rep o (w.map (m.put b))) :
    o = none ∧ w = none ∨ ∃ h1 y, o = some h1 ∧ w = some y ∧ Rep h1 (m.put b y) := by
  cases w with
  | none =>
    cases hsim
    exact .inl ⟨rfl, rfl⟩
  | some y =>
    cases hsim with
    | some hR => exact .inr ⟨_, y, rfl, rfl, hR⟩

theorem mapJhAt {k : JournalHead} (R : Rep h (m.put b x)) (hk : x.bPrivate = some k)
    {f : JournalHead → JournalHead} (hl : k.bJlist = .none) (hf : (f k).bJlist = .none)
    (hcp : (f k).bCpTransaction = k.bCpTransaction) : Rep (h.mapJh b f) (m.put b (x.mapJh f)) := by
  unfold Heap.mapJh
  rw [R.bufs, bufs_put_self]
  refine R.keepAt ?_ ?_ ?_
  · simp [BufferHead.place, BufferHead.mapJh, hk, hl, hf]
  · simp [BufferHead.cp, BufferHead.mapJh, hk, hcp]
  · intro k' hk' _
    simp only [BufferHead.mapJh, hk, map_some, some.injEq] at hk'
    rw [← hk', hf]

theorem unfileBuffer (R : Rep h m) (aborted : Bool) :
    Option.Rel Rep (h.unfileBuffer aborted b) (m.apply b (BufferHead.unfileBuffer aborted)) := by
  have hsim := R.tempUnlinkBuffer (b := b) aborted
  unfold Heap.unfileBuffer apply BufferHead.unfileBuffer
  obtain ⟨ho, hw⟩ | ⟨h1, w, ho, hw, hR⟩ := rel_cases hsim
  · rw [ho, hw]
    exact .none
  rw [ho, hw]
  obtain ⟨k, k', -, hk', hkeq⟩ := tempUnlinkBuffer_place hw
  have hl : k'.bJlist = .none := by rw [hkeq]
  exact (hR.mapJhAt (f := fun jh => { jh with bTransaction := none }) hk' hl hl
    rfl).putJournalHeadAt

theorem tempUnlinkBufferAt (R : Rep h (m.put b x)) (hx : x.place = (m.bufs b).place)
    (aborted : Bool) :
    Option.Rel Rep (h.tempUnlinkBuffer aborted b) ((x.tempUnlinkBuffer aborted).map (m.put b)) := by
  have hsim := R.tempUnlinkBuffer (b := b) aborted
  unfold apply at hsim
  rw [bufs_put_self] at hsim
  have hput : (m.put b x).put b = m.put b := funext fun y => put_put (.inr (.inl hx))
  rwa [hput] at hsim

theorem linkBufferAt {k : JournalHead} (R : Rep h (m.put b x)) (hx : x.bPrivate = some k)
    (ht : k.bTransaction = some t) (hk : k.bJlist = .none) (hl : l ≠ .none)
    (hne : (m.bufs b).place ≠ some (t, l)) (wasDirty : Bool) :
    ∃ h', h.linkBuffer b t l wasDirty = some h' ∧
      Rep h' (m.put b { x.mapJh fun jh => { jh with bJlist := l } with
        jbddirty := x.jbddirty || wasDirty }) := by
  have hplace : x.place = none := by simp [BufferHead.place, hx, hk]
  obtain ⟨h1, heq, hR, hbufs⟩ := R.enterAt (t := t) (l := l)
    (y := { x.mapJh fun jh => { jh with bJlist := l } with jbddirty := x.jbddirty || wasDirty })
    hplace (by simp [BufferHead.place, BufferHead.mapJh, hx, ht, hl]) hne
    (by simp [BufferHead.cp, BufferHead.mapJh, hx]) (by
      intro k' hk' ht'
      simp only [BufferHead.mapJh, hx, map_some, some.injEq] at hk'
      rw [← hk'] at ht'
      exact absurd (ht.symm.trans ht') (by simp))
  have hbuf : h1.bufs b = x := by rw [hbufs, R.bufs, bufs_put_self]
  unfold Heap.linkBuffer
  dsimp only
  rw [heq]
  refine ⟨_, rfl, ?_⟩
  unfold Heap.mapJh
  dsimp only
  rw [setBuf_setBuf, bufs_setBuf, hbuf]
  exact hR

theorem grabAt {k : JournalHead} (R : Rep h (m.put b x)) (hk : x.bPrivate = some k)
    (hl : k.bJlist = .none) (t : ℕ) :
    Rep ((h.grabJournalHead b).mapJh b fun jh => { jh with bTransaction := some t })
      (m.put b { x with
        bPrivate := some { k with bJcount := k.bJcount + 1, bTransaction := some t } }) := by
  unfold Heap.grabJournalHead Heap.mapJh
  rw [R.bufs, bufs_put_self, hk]
  rw [setBuf_setBuf, bufs_setBuf]
  refine R.keepAt (by simp [BufferHead.place, BufferHead.mapJh, hk, hl])
    (by simp [BufferHead.cp, BufferHead.mapJh, hk]) ?_
  intro k' hk' ht
  cases hk'
  cases ht

theorem keepFlags {k : JournalHead} (R : Rep h m) (hk : (m.bufs b).bPrivate = some k) (d j : Bool) :
    Rep (h.setBuf b { m.bufs b with dirty := d, jbddirty := j, bPrivate := some k })
      (m.put b { m.bufs b with dirty := d, jbddirty := j, bPrivate := some k }) := by
  rw [← hk]
  exact R.keep rfl rfl (R.unfiled b)

theorem fileBuffer (R : Rep h m) (aborted : Bool) (t : ℕ) (l : Jlist) :
    Option.Rel Rep (h.fileBuffer aborted b t l) (m.apply b (BufferHead.file aborted t l)) := by
  unfold Heap.fileBuffer apply BufferHead.file BufferHead.fileNone BufferHead.fileBuffer
  rw [R.bufs]
  dsimp only
  cases hjh : (m.bufs b).bPrivate with
  | none =>
    split_ifs <;> exact .none
  | some jh =>
    dsimp only
    by_cases hother : jh.bTransaction ≠ none ∧ jh.bTransaction ≠ some t
    · rw [if_pos hother, if_pos hother, if_pos hother]
      split_ifs <;> exact .none
    rw [if_neg hother, if_neg hother, if_neg hother]
    by_cases htx : jh.bTransaction = none
    · -- a reference is taken for the transaction
      have hplace : (m.bufs b).place = none := by simp [BufferHead.place, hjh, htx]
      have hjl := R.unfiled b jh hjh htx
      by_cases hl : l = .none
      · simp only [hl, htx, ne_eq, not_true_eq_false, false_and, if_false, if_true, bind_some]
        by_cases hf : jh.bFrozenData = none
        · simp only [hf, not_true_eq_false, if_false, map_some]
          have R0 : Rep h (m.put b (m.bufs b)) := by rwa [put_bufs]
          have R1 := R0.grabAt hjh hjl t
          refine .some ?_
          simpa [BufferHead.addJournalHead, BufferHead.mapJh, hjh] using R1
        · simp only [hf, not_false_eq_true, if_true]
          exact .none
      · simp only [hl, htx, ne_eq, not_true_eq_false, false_and, if_false, bind_some,
          reduceCtorEq, map_some]
        have R1 := R.keepFlags hjh false ((m.bufs b).dirty && (m.bufs b).jbddirty)
        obtain ⟨h', heq, R2⟩ := (R1.grabAt rfl hjl t).linkBufferAt (k := { jh with
            bJcount := jh.bJcount + 1, bTransaction := some t }) rfl rfl hjl hl
          (by rw [hplace]; simp) ((m.bufs b).dirty || (m.bufs b).jbddirty)
        rw [heq]
        refine .some ?_
        simpa [BufferHead.addJournalHead, BufferHead.mapJh] using R2
    · have ht : jh.bTransaction = some t := by
        by_contra hne
        exact hother ⟨htx, hne⟩
      by_cases hsame : jh.bJlist = l
      · rw [if_pos ⟨htx, hsame⟩]
        by_cases hl : l = .none
        · rw [if_pos hl, if_pos ⟨htx, hsame.trans hl⟩, map_some, put_bufs]
          exact .some R
        · rw [if_neg hl, if_pos ⟨ht, hsame⟩, map_some, put_bufs]
          exact .some R
      · rw [if_neg fun hh => hsame hh.2, if_pos htx]
        by_cases hl : l = .none
        · rw [if_pos hl, if_pos hl, if_neg fun hh => hsame (hh.2.trans hl.symm)]
          obtain ⟨ho, hw⟩ | ⟨h1, w, ho, hw, hR⟩ := rel_cases (R.tempUnlinkBuffer (b := b) aborted)
          · rw [ho, hw]
            split_ifs <;> exact .none
          rw [ho, hw, bind_some]
          obtain ⟨k, k', -, hk', hkeq⟩ := tempUnlinkBuffer_place hw
          have hl' : k'.bJlist = .none := by rw [hkeq]
          by_cases hf : jh.bFrozenData = none
          · simp only [hf, hl, ne_eq, not_true_eq_false, if_false, if_true, htx,
              not_false_eq_true, map_some]
            exact .some (hR.mapJhAt hk' hl' hl' rfl)
          · simp only [hf, hl, ne_eq, not_false_eq_true, if_true]
            exact .none
        · rw [if_neg hl, if_neg hl, if_neg fun hh => hsame hh.2]
          have R1 := R.keepFlags hjh false ((m.bufs b).dirty && (m.bufs b).jbddirty)
          have hplace : BufferHead.place { m.bufs b with
              dirty := false
              jbddirty := (m.bufs b).dirty && (m.bufs b).jbddirty
              bPrivate := some jh } = (m.bufs b).place := by simp [BufferHead.place, hjh]
          obtain ⟨ho, hw⟩ | ⟨h1, w, ho, hw, hR⟩ :=
            rel_cases (R1.tempUnlinkBufferAt hplace aborted)
          · rw [ho, if_pos ht, hw]
            exact .none
          rw [ho, if_pos ht, hw, bind_some]
          obtain ⟨k, k', -, hk', hkeq⟩ := tempUnlinkBuffer_place hw
          have hl' : k'.bJlist = .none := by rw [hkeq]
          simp only [hl, if_false, map_some]
          have R2 := hR.mapJhAt (f := fun jh => { jh with bTransaction := some t })
            hk' hl' hl' rfl
          obtain ⟨h', heq, R3⟩ := R2.linkBufferAt (k := { k' with bTransaction := some t })
            (t := t) (l := l) (by simp [BufferHead.mapJh, hk']) rfl hl' hl
            (by simp [BufferHead.place, hjh, ht, hsame])
            ((m.bufs b).dirty || (m.bufs b).jbddirty)
          rw [heq]
          refine .some ?_
          simpa [BufferHead.mapJh, hk'] using R3

theorem refileBuffer (R : Rep h m) (aborted running freed : Bool) :
    Option.Rel Rep (h.refileBuffer aborted running freed b) (m.refile aborted running freed b) := by
  unfold Heap.refileBuffer refile
  rw [R.bufs]
  dsimp only
  cases hjh : (m.bufs b).bPrivate with
  | none => exact .none
  | some jh =>
    dsimp only
    cases hnext : jh.bNextTransaction with
    | none => exact R.unfileBuffer aborted
    | some r =>
      generalize hjl : (if freed then Jlist.forget
        else if jh.bModified then .metadata else .reserved) = l
      have R1 := R.keepFlags hjh (m.bufs b).dirty false
      have hplace : BufferHead.place { m.bufs b with jbddirty := false, bPrivate := some jh } =
        (m.bufs b).place := by simp [BufferHead.place, hjh]
      unfold apply BufferHead.refileUnlink
      rw [hjh]
      obtain ⟨ho, hw⟩ | ⟨h1, w, ho, hw, hR⟩ := rel_cases (R1.tempUnlinkBufferAt hplace aborted)
      · rw [ho, hw]
        exact .none
      rw [ho, hw]
      obtain ⟨k, k', -, hk', hkeq⟩ := tempUnlinkBuffer_place hw
      have hl' : k'.bJlist = .none := by rw [hkeq]
      simp only [bind_some, map_some]
      have R2 := hR.mapJhAt
        (f := fun jh => { jh with bTransaction := some r, bNextTransaction := none })
          hk' hl' hl' rfl
      generalize hz : (w.mapJh fun jh =>
        { jh with bTransaction := some r, bNextTransaction := none }) = z at R2 ⊢
      have hfile := R2.fileBuffer (b := b) aborted r l
      unfold apply at hfile
      rw [bufs_put_self] at hfile ⊢
      unfold BufferHead.refileFile
      obtain ⟨ho, hv⟩ | ⟨h2, v, ho, hv, hR2⟩ := rel_cases hfile
      · rw [ho, hv]
        exact .none
      rw [ho, hv, bind_some, bind_some]
      cases running with
      | false => exact .none
      | true =>
        refine .some ?_
        rw [hR2.bufs, bufs_put_self]
        refine hR2.keepAt rfl rfl ?_
        have := hR2.unfiled b
        rw [bufs_put_self] at this
        exact this

end Rep

end VMsep.Jbd2
