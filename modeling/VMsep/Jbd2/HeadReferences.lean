import VMsep.Jbd2.CheckpointRings

/-! `b_jcount` of a journal head counts its transaction, its checkpoint transaction and the
references that callers of `add_journal_head` and `grab_journal_head` have not put yet. -/

namespace VMsep.Jbd2

open Lib Function BufferHead Option JournalHead

def JournalHead.owners (k : JournalHead) : ℕ :=
  (if k.bTransaction = none then 0 else 1) + if k.bCpTransaction = none then 0 else 1

/-- With `temps` temporary references: the count is right, and the journal head is gone exactly
when there is nothing to count. -/
def BufferHead.Counted (x : BufferHead) (temps : ℕ) : Prop :=
  match x.bPrivate with
  | none => temps = 0
  | some k => k.bJcount = temps + k.owners ∧ 0 < k.bJcount

structure HeadState where
  heap : Heap
  temps : ℕ → ℕ

def Heap.temps (h : Heap) (temps : ℕ → ℕ) : HeadAct → ℕ → ℕ
  | .add b => update temps b (temps b + 1)
  | .grab b =>
    if (h.bufs b).bPrivate = none then temps else update temps b (temps b + 1)
  | .put b => update temps b (temps b - 1)
  | _ => temps

def HeadState.step (s : HeadState) (a : HeadAct) : Option HeadState :=
  (s.heap.step a).map fun h => { heap := h, temps := s.heap.temps s.temps a }

def Heap.start (bufs : ℕ → BufferHead) : Heap where
  bufs b := { bufs b with bPrivate := none }
  bTnext _ := none
  bTprev _ := none
  bCpnext _ := none
  bCpprev _ := none
  list _ := none
  tNrBuffers _ := 0
  checkpoint _ := none

def HeadState.start (bufs : ℕ → BufferHead) : HeadState where
  heap := .start bufs
  temps _ := 0

def Memory.start (bufs : ℕ → BufferHead) : Memory where
  bufs b := { bufs b with bPrivate := none }
  lists _ := []
  tNrBuffers _ := 0
  tCheckpointList _ := []
  tCheckpointIoList _ := []

/-- What the callers see to: a buffer is unfiled or refiled only from a transaction, and only a
reference that was taken is put. -/
def HeadState.Owned (s : HeadState) : HeadAct → Prop
  | .unfile _ b | .refile _ _ _ b =>
    (s.heap.bufs b).bPrivate.bind JournalHead.bTransaction ≠ none
  | .put b => 0 < s.temps b
  | _ => True

instance (s : HeadState) : ∀ a, Decidable (s.Owned a)
  | .unfile _ b | .refile _ _ _ b =>
    inferInstanceAs (Decidable ((s.heap.bufs b).bPrivate.bind JournalHead.bTransaction ≠ none))
  | .put b => inferInstanceAs (Decidable (0 < s.temps b))
  | .file _ _ _ _ | .unlinkFile _ _ _ _ | .insertCheckpoint _ _ | .removeCheckpoint _ _
  | .relinkIo _ | .add _ | .grab _ | .touch _ _ _ _ _ _ => .isTrue trivial

theorem Rep.start (bufs : ℕ → BufferHead) : Rep (.start bufs) (.start bufs) := by
  have hempty : ∀ {κ : Type} (l : κ → List ℕ), (∀ k, l k = []) → Listed (fun _ => none) l := by
    intro κ l hl
    refine ⟨fun k a => ?_, fun k => ?_⟩
    · simp [hl]
    · simp [hl]
  have hcp : ∀ k, (Memory.start bufs).cpLists k = [] := by
    rintro ⟨u, io⟩
    cases io <;> rfl
  refine ⟨rfl, rfl, ⟨hempty _ fun k => rfl, fun t => rfl⟩, ?_, ⟨fun k => rfl, fun k => ?_⟩,
    ⟨fun k => ?_, fun k => ?_⟩, fun _ => none, hempty _ hcp, fun b => rfl⟩
  · intro b k hk
    cases hk
  · trivial
  · rw [hcp]
    rfl
  · rw [hcp]
    trivial

namespace BufferHead

variable {x y : BufferHead} {k : JournalHead} {n : ℕ} {aborted : Bool} {t : ℕ}

theorem counted_some (hk : x.bPrivate = some k) :
    x.Counted n ↔ k.bJcount = n + k.owners ∧ 0 < k.bJcount := by
  unfold Counted
  rw [hk]

theorem counted_put (hk : x.bPrivate = some k) (hcount : k.bJcount = n + k.owners + 1)
    (h : x.putJournalHead = some y) : y.Counted n := by
  unfold putJournalHead at h
  rw [hk] at h
  dsimp only at h
  split_ifs at h with h0 h1 h2
  · cases h
    change n = 0
    omega
  · cases h
    rw [counted_some rfl]
    change k.bJcount - 1 = n + k.owners ∧ 0 < k.bJcount - 1
    omega

theorem counted_tempUnlink (hx : x.Counted n) (h : x.tempUnlinkBuffer aborted = some y) :
    y.Counted n := by
  obtain ⟨k, k', hk, hk', rfl⟩ := Rep.tempUnlinkBuffer_place h
  rw [counted_some hk] at hx
  rw [counted_some hk']
  exact hx

theorem counted_unfile (hx : x.Counted n) (ht : x.bPrivate.bind JournalHead.bTransaction ≠ none)
    (h : x.unfileBuffer aborted = some y) : y.Counted n := by
  unfold unfileBuffer at h
  cases hz : x.tempUnlinkBuffer aborted with
  | none =>
    rw [hz] at h
    cases h
  | some z =>
    rw [hz] at h
    obtain ⟨k, k', hk, hk', rfl⟩ := Rep.tempUnlinkBuffer_place hz
    rw [counted_some hk] at hx
    rw [hk, bind_some] at ht
    have hp : (z.mapJh fun jh => { jh with bTransaction := none }).bPrivate =
        some { k with bJlist := .none, bTransaction := none } := by
      rw [mapJh, hk']
      rfl
    refine counted_put hp ?_ h
    obtain ⟨hcount, -⟩ := hx
    simp only [owners, if_neg ht] at hcount ⊢
    rw [hcount, if_pos trivial]
    omega

def FiledFrom (k k' : JournalHead) (t : ℕ) : Prop :=
  k'.bTransaction = some t ∧ k'.bCpTransaction = k.bCpTransaction ∧
    k'.bJcount = k.bJcount + if k.bTransaction = none then 1 else 0

theorem fileNone_jh (hk : x.bPrivate = some k) (h : x.fileNone aborted t = some y) :
    ∃ k', y.bPrivate = some k' ∧ FiledFrom k k' t := by
  unfold fileNone at h
  rw [hk] at h
  dsimp only at h
  split_ifs at h with hother hsame hf htx
  · cases h
    push Not at hother
    exact ⟨k, hk, hother hsame.1, rfl, by rw [if_neg hsame.1]; rfl⟩
  · obtain ⟨z, hz, rfl⟩ := map_eq_some_iff.mp h
    obtain ⟨k₁, k', hk₁, hk', rfl⟩ := Rep.tempUnlinkBuffer_place hz
    obtain rfl : k₁ = k := some.inj (hk₁.symm.trans hk)
    refine ⟨{ k₁ with bJlist := .none, bTransaction := some t }, ?_, rfl, rfl, ?_⟩
    · rw [mapJh, hk']
      rfl
    · rw [if_neg htx]
      rfl
  · cases h
    refine ⟨{ k with bJcount := k.bJcount + 1, bTransaction := some t }, ?_, rfl, rfl, ?_⟩
    · simp [mapJh, addJournalHead, hk]
    · rw [if_pos (not_not.mp htx)]

theorem fileBuffer_jh {l : Jlist} (hk : x.bPrivate = some k) (h : x.fileBuffer aborted t l = some y)
    : ∃ k', y.bPrivate = some k' ∧ FiledFrom k k' t := by
  cases htx : k.bTransaction with
  | none =>
    rw [fileBuffer_new hk htx] at h
    cases h
    exact ⟨_, rfl, rfl, rfl, by rw [if_pos htx]⟩
  | some =>
    unfold fileBuffer at h
    rw [hk] at h
    dsimp only at h
    have hne : ¬ k.bTransaction = none := by simp [htx]
    split_ifs at h with hother hsame ht
    · cases h
      exact ⟨k, hk, hsame.1, rfl, by rw [if_neg hne]; rfl⟩
    · obtain ⟨z, hz, rfl⟩ := map_eq_some_iff.mp h
      obtain ⟨k₁, k', hk₁, hk', rfl⟩ := Rep.tempUnlinkBuffer_place hz
      obtain rfl : k₁ = k := some.inj (hk₁.symm.trans rfl)
      refine ⟨{ k₁ with bTransaction := some t, bJlist := l }, ?_, rfl, rfl, ?_⟩
      · simp [mapJh, hk']
      · rw [if_neg hne]
        rfl
    · exact absurd ⟨hne, ht⟩ hother

section

variable (hx : x.Counted n)

include hx

theorem counted_file {l : Jlist} (h : x.file aborted t l = some y) : y.Counted n := by
  cases hk : x.bPrivate with
  | none => simp [file, fileNone, fileBuffer, hk] at h
  | some k =>
    obtain ⟨k', hk', ht, hcp, hcount⟩ : ∃ k', y.bPrivate = some k' ∧ FiledFrom k k' t := by
      unfold file at h
      split_ifs at h
      · exact fileNone_jh hk h
      · exact fileBuffer_jh hk h
    rw [counted_some hk] at hx
    rw [counted_some hk']
    unfold owners at hx ⊢
    simp only [hcount, ht, hcp, reduceCtorEq, if_false]
    by_cases htx : k.bTransaction = none
    · simp only [htx, if_true] at hx ⊢
      omega
    · simp only [htx, if_false] at hx ⊢
      omega

theorem counted_insertCheckpoint (h : x.insertCheckpoint t = some y) : y.Counted n := by
  unfold insertCheckpoint at h
  cases hk : x.bPrivate with
  | none =>
    rw [hk] at h
    cases h
  | some =>
    rw [hk] at h
    dsimp only at h
    split_ifs at h with hbad
    cases h
    push Not at hbad
    rw [counted_some hk] at hx
    rw [counted_some rfl]
    unfold owners at hx ⊢
    simp only [hbad.2, if_true, reduceCtorEq, if_false] at hx ⊢
    omega

theorem counted_removeCheckpoint (h : x.removeCheckpoint = some y) : y.Counted n := by
  unfold removeCheckpoint at h
  cases hk : x.bPrivate with
  | none =>
    rw [hk] at h
    cases h
  | some =>
    rw [hk] at h
    dsimp only at h
    split_ifs at h with hcp
    · cases h
      exact hx
    rw [counted_some hk] at hx
    refine counted_put rfl ?_ h
    obtain ⟨hcount, -⟩ := hx
    unfold owners at hcount ⊢
    simp only [hcp, if_false] at hcount
    simp only [if_true]
    omega

theorem counted_add : x.addJournalHead.Counted (n + 1) := by
  cases hk : x.bPrivate with
  | none =>
    unfold Counted at hx
    rw [hk] at hx
    subst hx
    rw [counted_some (k := { zero with bJcount := 1 })
      (by simp [addJournalHead, hk]; rfl)]
    exact ⟨rfl, one_pos⟩
  | some k =>
    rw [counted_some hk] at hx
    rw [counted_some (k := { k with bJcount := k.bJcount + 1 }) (by simp [addJournalHead, hk])]
    change k.bJcount + 1 = n + 1 + k.owners ∧ 0 < k.bJcount + 1
    omega

theorem counted_grab (hk : x.bPrivate = some k) : x.grab.Counted (n + 1) := by
  rw [counted_some hk] at hx
  rw [counted_some (k := { k with bJcount := k.bJcount + 1 }) (by simp [grab, mapJh, hk])]
  change k.bJcount + 1 = n + 1 + k.owners ∧ 0 < k.bJcount + 1
  omega

theorem counted_touch {dirty jbddirty modified : Bool} {frozen : Option Content} {next : Option ℕ} :
    (x.touch dirty jbddirty modified frozen next).Counted n := by
  cases hk : x.bPrivate with
  | none =>
    unfold Counted at hx ⊢
    simp only [touch, mapJh, hk, map_none] at hx ⊢
    exact hx
  | some k =>
    rw [counted_some hk] at hx
    rw [counted_some (k := { k with
      bModified := modified, bFrozenData := frozen, bNextTransaction := next })
      (by simp [touch, mapJh, hk])]
    exact hx

end

end BufferHead

namespace Memory

variable {m m' : Memory} {b n : ℕ} {temps : ℕ → ℕ} {f : BufferHead → Option BufferHead}

theorem counted_store (h : ∀ c, (m.bufs c).Counted (temps c)) {y : BufferHead} (hy : y.Counted n)
    (c : ℕ) : ((m.put b y).bufs c).Counted (update temps b n c) := by
  by_cases hc : c = b
  · subst hc
    rw [bufs_put_self, update_self]
    exact hy
  · rw [bufs_put_of_ne hc, update_of_ne hc]
    exact h c

theorem counted_apply (h : ∀ c, (m.bufs c).Counted (temps c)) (ha : m.apply b f = some m')
    (hf : ∀ y, f (m.bufs b) = some y → y.Counted (temps b)) :
    ∀ c, (m'.bufs c).Counted (temps c) := by
  obtain ⟨y, hy, rfl⟩ := apply_eq_some ha
  intro c
  have := counted_store (b := b) h (hf y hy) c
  rwa [update_eq_self] at this

theorem counted_refile {aborted running freed : Bool} (h : ∀ c, (m.bufs c).Counted (temps c))
    (ht : (m.bufs b).bPrivate.bind JournalHead.bTransaction ≠ none)
    (ha : m.refile aborted running freed b = some m') : ∀ c, (m'.bufs c).Counted (temps c) := by
  unfold refile at ha
  cases hk : (m.bufs b).bPrivate with
  | none =>
    rw [hk] at ha
    cases ha
  | some k =>
    rw [hk] at ha
    dsimp only at ha
    cases hnext : k.bNextTransaction with
    | none =>
      rw [hnext] at ha
      exact counted_apply h ha fun y hy => counted_unfile (h b) ht hy
    | some r =>
      rw [hnext] at ha
      obtain ⟨m1, h1, h2⟩ := bind_eq_some_iff.mp ha
      have hfirst : ∀ y, (m.bufs b).refileUnlink aborted r = some y → y.Counted (temps b) := by
        intro y hy
        -- the transaction that was next inherits the reference
        obtain ⟨z, hz, rfl⟩ := map_eq_some_iff.mp hy
        obtain ⟨k₁, k', hk₁, hk', rfl⟩ := Rep.tempUnlinkBuffer_place hz
        obtain rfl : k₁ = k := some.inj (hk₁.symm.trans hk)
        have hb := h b
        rw [hk, bind_some] at ht
        rw [counted_some hk] at hb
        rw [counted_some (k := { k₁ with
          bJlist := .none, bTransaction := some r, bNextTransaction := none })
          (by simp [mapJh, hk'])]
        unfold owners at hb ⊢
        simpa [ht] using hb
      have hm1 := counted_apply h h1 hfirst
      refine counted_apply hm1 h2 fun y hy => ?_
      obtain ⟨z, hz, hif⟩ := bind_eq_some_iff.mp hy
      split_ifs at hif
      cases hif
      have hz' := counted_file (hm1 b) hz
      exact hz'

/-- `b_jcount` counts the references after every step. -/
theorem counted_step {s : HeadState} {a : HeadAct} (hbufs : s.heap.bufs = m.bufs)
    (h : ∀ c, (m.bufs c).Counted (s.temps c)) (hok : s.Owned a) (ha : m.headStep a = some m') :
    ∀ c, (m'.bufs c).Counted (s.heap.temps s.temps a c) := by
  cases a with
  | file _ b =>
    exact counted_apply h ha fun y hy => counted_file (h b) hy
  | unlinkFile _ b =>
    obtain ⟨m1, h1, h2⟩ := bind_eq_some_iff.mp ha
    have hm1 := counted_apply h h1 fun y hy => counted_tempUnlink (h b) hy
    exact counted_apply hm1 h2 fun y hy => counted_file (hm1 b) hy
  | unfile _ b =>
    unfold HeadState.Owned at hok
    rw [hbufs] at hok
    exact counted_apply h ha fun y hy => counted_unfile (h b) hok hy
  | refile =>
    unfold HeadState.Owned at hok
    rw [hbufs] at hok
    exact counted_refile h hok ha
  | insertCheckpoint b =>
    obtain ⟨m1, h1, rfl⟩ := map_eq_some_iff.mp ha
    have hm1 := counted_apply h h1 fun y hy => counted_insertCheckpoint (h b) hy
    exact hm1
  | removeCheckpoint _ b =>
    obtain ⟨m1, h1, h2⟩ := bind_eq_some_iff.mp ha
    have hsame : ∀ o, (m.uncheckpoint b o).bufs = m.bufs := fun o => by cases o <;> rfl
    have hm0 : ∀ c, ((m.uncheckpoint b (m.bufs b).cp).bufs c).Counted (s.temps c) := by
      rwa [hsame]
    have hm1 := counted_apply hm0 h1 fun y hy => by
      rw [hsame] at hy
      exact counted_removeCheckpoint (h b) hy
    cases hcp : (m.bufs b).cp with
    | none =>
      rw [hcp] at h2
      cases h2
      exact hm1
    | some =>
      rw [hcp] at h2
      dsimp only at h2
      split_ifs at h2
      cases h2
      exact hm1
  | relinkIo =>
    obtain ⟨b, -, rfl⟩ := map_eq_some_iff.mp ha
    exact h
  | add b =>
    cases ha
    exact counted_store h (counted_add (h b))
  | grab b =>
    cases ha
    unfold Heap.temps
    dsimp only
    rw [hbufs]
    cases hk : (m.bufs b).bPrivate with
    | none =>
      have hsame : (m.bufs b).grab = m.bufs b := by
        cases hx : m.bufs b
        simp_all [grab, mapJh]
      rw [hsame, put_bufs, if_pos rfl]
      exact h
    | some =>
      rw [if_neg (by simp)]
      exact counted_store h (counted_grab (h b) hk)
  | put b =>
    obtain ⟨y, hy, rfl⟩ := apply_eq_some ha
    refine counted_store h ?_
    cases hk : (m.bufs b).bPrivate with
    | none => simp [putJournalHead, hk] at hy
    | some =>
      have hb := h b
      rw [counted_some hk] at hb
      have hpos : 0 < s.temps b := hok
      exact counted_put hk (by omega) hy
  | touch b dirty jbddirty modified frozen next =>
    cases ha
    refine counted_apply (f := fun x => some (x.touch dirty jbddirty modified frozen next)) h rfl ?_
    intro y hy
    cases hy
    exact counted_touch (h b)

end Memory

namespace HeadState

theorem step_rel {s : HeadState} {m : Memory} (R : Rep s.heap m) (a : HeadAct) :
    Option.Rel (fun s m => Rep s.heap m) (s.step a) (m.headStep a) := by
  have hstep := R.step a
  unfold step
  generalize s.heap.step a = o at hstep ⊢
  generalize m.headStep a = p at hstep ⊢
  cases hstep with
  | none => exact .none
  | some hR => exact .some hR

def Sound (s : HeadState) : Prop :=
  (∃ m, Rep s.heap m) ∧ ∀ b, (s.heap.bufs b).Counted (s.temps b)

/-- A call keeps the rings those of a list and the counts right. -/
theorem Sound.step {s s' : HeadState} {a : HeadAct} (h : s.Sound) (hok : s.Owned a)
    (ha : s.step a = some s') : s'.Sound := by
  obtain ⟨⟨m, R⟩, hc⟩ := h
  have hstep := R.step a
  obtain ⟨h', hh', rfl⟩ := map_eq_some_iff.mp ha
  rw [hh'] at hstep
  cases hm' : m.headStep a with
  | none =>
    rw [hm'] at hstep
    cases hstep
  | some m' =>
    rw [hm'] at hstep
    cases hstep with
    | some R' =>
      rw [R.bufs] at hc
      refine ⟨⟨m', R'⟩, ?_⟩
      rw [R'.bufs]
      exact Memory.counted_step R.bufs hc hok hm'

/-- In every run the pointers form the rings of the lists that the calls build, and the counts are
right if buffers are unfiled only from transactions and only references that are held are put. -/
theorem run_lists_and_counts (bufs : ℕ → BufferHead) (as : List HeadAct) {s : HeadState}
    (hrun : exec HeadState.step (.start bufs) as = some s) :
    (∃ m, exec Memory.headStep (.start bufs) as = some m ∧ Rep s.heap m) ∧
      (Along HeadState.step HeadState.Owned (.start bufs) as →
        ∀ b, (s.heap.bufs b).Counted (s.temps b)) := by
  have hrel := exec_rel (R := fun (s : HeadState) m => Rep s.heap m)
    (fun s m a R => step_rel R a) as (s := .start bufs) (t := .start bufs) (Rep.start bufs)
  constructor
  · rw [hrun] at hrel
    cases hm : exec Memory.headStep (.start bufs) as with
    | none =>
      rw [hm] at hrel
      cases hrel
    | some m =>
      rw [hm] at hrel
      cases hrel with
      | some R => exact ⟨m, rfl, R⟩
  · intro hok
    have hstart : Sound (.start bufs) := ⟨⟨_, Rep.start bufs⟩, fun b => rfl⟩
    exact (exec_invariant (fun s a s' hs hc ha => hs.step hc ha) as hstart hrun hok).2

def dirtyBufs (_ : ℕ) : BufferHead :=
  { bData := ⟨0, [], []⟩, dirty := true, jbddirty := false, shadow := false, bPrivate := none }

def roundTrip : List HeadAct :=
  [.add 0, .file false 0 1 .metadata, .put 0, .add 1, .file false 1 1 .metadata, .grab 1, .put 1,
    .put 1, .unlinkFile false 0 1 .forget, .insertCheckpoint 0 1,
    .touch 1 true false true none (some 2), .refile false true false 1, .unfile false 0,
    .insertCheckpoint 1 1, .relinkIo 1, .removeCheckpoint false 0]

/-- The run ends, and buffer `1` is counted for its transaction and for the checkpoint. -/
theorem run_lists_and_counts_roundTrip :
    ∃ s, exec HeadState.step (.start dirtyBufs) roundTrip = some s ∧
      (s.heap.bufs 1).bPrivate.map JournalHead.bJcount = some 2 ∧
      (∃ m, exec Memory.headStep (.start dirtyBufs) roundTrip = some m ∧ Rep s.heap m) ∧
      ∀ b, (s.heap.bufs b).Counted (s.temps b) := by
  have hsome : (exec HeadState.step (.start dirtyBufs) roundTrip).map
      (fun s => (s.heap.bufs 1).bPrivate.map bJcount) = some (some 2) := by
    decide +kernel
  obtain ⟨s, hs, hcount⟩ := map_eq_some_iff.mp hsome
  obtain ⟨hlists, hcounts⟩ := run_lists_and_counts dirtyBufs roundTrip hs
  exact ⟨s, hs, hcount, hlists, hcounts (by decide +kernel)⟩

/-- A journal head of no transaction is unfiled: the reference of a caller is put. -/
theorem run_miscounts_unfiled :
    ∃ s, exec HeadState.step (.start dirtyBufs) [.add 0, .add 0, .unfile false 0] = some s ∧
      (s.heap.bufs 0).bPrivate.map JournalHead.bJcount = some 1 ∧ s.temps 0 = 2 ∧
      ¬ (s.heap.bufs 0).Counted (s.temps 0) := by
  have hsome : (exec HeadState.step (.start dirtyBufs) [.add 0, .add 0, .unfile false 0]).map
      (fun s => ((s.heap.bufs 0).bPrivate.map bJcount, s.temps 0)) =
        some (some 1, 2) := by
    decide +kernel
  obtain ⟨s, hs, hpair⟩ := map_eq_some_iff.mp hsome
  obtain ⟨hcount, htemps⟩ := Prod.mk.inj hpair
  refine ⟨s, hs, hcount, htemps, ?_⟩
  obtain ⟨k, hk, hone⟩ := map_eq_some_iff.mp hcount
  rw [counted_some hk]
  omega

end HeadState

end VMsep.Jbd2
