import VMsep.Lib.Transition
import VMsep.Ext4.DelayedExtents

/-! Threads that look blocks up and enter them as delayed, each call on the status tree being
atomic. `i_data_sem` is held shared from `down_read` on, and exclusively by what changes the extent
tree. -/

namespace VMsep.Ext4

open Lib Option List

/-- Who looks a block up: `ext4_da_map_blocks`, `ext4_map_blocks` without flags, or the first part
of an `ext4_map_blocks` with `EXT4_GET_BLOCKS_DELALLOC_RESERVE`. -/
inductive MapCaller where
  | daWrite
  | lookup
  | reserved
  deriving DecidableEq

inductive MapPc where
  | idle
  /-- Before `down_read`, without an extent in the status tree. -/
  | missed (caller : MapCaller) (lblk len : ℕ)
  /-- Before `down_read`, with a hole in the status tree. -/
  | hole (lblk : ℕ)
  /-- Before `ext4_ext_map_blocks`. -/
  | mapping (caller : MapCaller) (lblk len : ℕ)
  /-- Before the search for a delayed extent in `ext4_ext_put_gap_in_cache`. -/
  | gap (caller : MapCaller) (lblk start len : ℕ)
  /-- Before the insertion in `ext4_ext_put_gap_in_cache`. -/
  | putGap (caller : MapCaller) (lblk start len : ℕ)
  /-- Behind `ext4_ext_map_blocks`, with the blocks it has found. -/
  | found (caller : MapCaller) (lblk len pblk : ℕ) (unwritten : Bool)
  /-- Before the insertion of the blocks that were found. -/
  | store (lblk len pblk : ℕ) (status : EsType)
  /-- At `add_delayed`. -/
  | add (lblk : ℕ)
  deriving DecidableEq

namespace MapPc

/-- The thread holds `i_data_sem`. -/
def holds : MapPc → Bool
  | .idle | .missed .. | .hole .. => false
  | _ => true

def putsGapOver (pc : MapPc) (x : ℕ) : Bool :=
  match pc with
  | .putGap _ _ start len => decide (start ≤ x ∧ x < start + len)
  | _ => false

end MapPc

/-- What follows a lookup of `ext4_ext_map_blocks` that found a hole. -/
def afterGap (lblk : ℕ) : MapCaller → MapPc
  | .daWrite => .add lblk
  | .lookup | .reserved => .idle

/-- `ext4_ext_map_blocks` without `EXT4_GET_BLOCKS_CREATE`, up to the search of
`ext4_ext_put_gap_in_cache`. -/
def extMapBlocks (tree : List FileExtent) (caller : MapCaller) (lblk len : ℕ) : Option MapPc :=
  match (findExtent tree lblk).filter fun ex => ex.eeBlock ≤ lblk ∧ lblk < ex.eeBlock + ex.len with
  | some ex =>
    some (.found caller lblk (min (ex.len - (lblk - ex.eeBlock)) len)
      (ex.pblock + (lblk - ex.eeBlock)) ex.unwritten)
  | none => (determineHole tree lblk).map fun hole => .gap caller lblk hole.1 hole.2

/-- The part of `ext4_ext_put_gap_in_cache` between its two calls. -/
def cutGap (caller : MapCaller) (lblk start len : ℕ) : Option ExtentStatus → MapPc
  | none => .putGap caller lblk start len
  | some es =>
    if es.esLblk ≤ start then afterGap lblk caller
    else .putGap caller lblk start (min (es.esLblk - start) len)

/-- The status of blocks that were found; `delalloc` is the result of `ext4_find_delalloc_range`. -/
def foundStatus (unwritten delalloc : Bool) : EsType :=
  if unwritten then if delalloc then .unwrittenDelayed else .unwritten else .written

/-- An inode with its threads. `entered` are the blocks that `ext4_da_map_blocks` has entered as
delayed and that nothing has covered since. -/
structure DelallocState where
  es : EsInode
  tree : List FileExtent
  pcs : List MapPc
  entered : List ℕ
  deriving DecidableEq

inductive DelallocAct where
  /-- A thread starts a call with `ext4_es_lookup_extent`. -/
  | lookup (t : ℕ) (caller : MapCaller) (lblk len : ℕ)
  /-- A thread goes on; `space` is the result of `ext4_da_reserve_space`. -/
  | run (t : ℕ) (rb : Balance EsNode) (fails : List Shrink) (space : Bool)
  /-- An extent or a hole of a leaf that was read is cached. -/
  | cache (rb : Balance EsNode) (lblk len : ℕ) (pblk : BitVec 64) (status : EsType) (fail : Bool)
  | shrink (rb : Balance EsNode) (nrToScan : ℕ)
  /-- `ext4_es_remove_extent`. -/
  | remove (rb : Balance EsNode) (lblk len : ℕ) (fails : List Shrink)
  /-- An allocating `ext4_map_blocks` for a range, or another change of the extent tree, with its
  calls on the status tree. -/
  | exclusive (lblk len : ℕ) (tree : List FileExtent) (calls : List (Balance EsNode × EsAct))

def EsAct.enters (a : EsAct) (p : ℕ → Bool) : Bool :=
  match a with
  | .insert lblk len _ _ _ => lblk + len ≤ extMaxBlocks ∧ ∀ i < len, p (lblk + i) = true
  | .cache lblk len _ _ _ => lblk + len ≤ extMaxBlocks
  | .remove .. => false
  | .lookup _ | .shrink _ => true

def extMapped (tree : List FileExtent) (x : ℕ) : Bool := (fileView.map tree x).isSome

def treeChange (tree tree' : List FileExtent) (lblk len : ℕ) : Bool :=
  (tree'.Pairwise fun a b => a.eeBlock + a.len ≤ b.eeBlock) ∧
    ∀ ex ∈ tree', 0 < ex.len ∧ ex.eeBlock + ex.len ≤ extMaxBlocks ∧
      ∀ i < ex.len, extMapped tree (ex.eeBlock + i) = true ∨
        lblk ≤ ex.eeBlock + i ∧ ex.eeBlock + i < lblk + len

namespace DelallocState

/-- The next step of a thread: where it stands then, the status tree, and whether a block was
entered. -/
def advance (s : DelallocState) (rb : Balance EsNode) (fails : List Shrink) (space : Bool) :
    MapPc → Option (MapPc × EsInode × Option ℕ)
  | .idle => none
  -- down_read
  | .missed caller lblk len => some (.mapping caller lblk len, s.es, none)
  | .hole lblk => some (.add lblk, s.es, none)
  | .mapping caller lblk len =>
    (extMapBlocks s.tree caller lblk len).map fun pc => (pc, s.es, none)
  | .gap caller lblk start len =>
    (s.es.esFindDelayedExtentRange start (start + len - 1)).map fun r =>
      (cutGap caller lblk start len r.1, r.2, none)
  | .putGap caller lblk start len =>
    (s.es.step rb (.insert start len (BitVec.allOnes 64) .hole fails)).map fun r =>
      (afterGap lblk caller, r.2, none)
  | .found caller lblk len pblk unwritten =>
    if unwritten ∧ caller = .lookup then
      (s.es.findDelallocRange lblk (lblk + len - 1)).map fun r =>
        (.store lblk len pblk (foundStatus unwritten r.1), r.2, none)
    else some (.store lblk len pblk (foundStatus unwritten false), s.es, none)
  | .store lblk len pblk status =>
    (s.es.step rb (.insert lblk len (BitVec.ofNat 64 pblk) status fails)).map fun r =>
      (.idle, r.2, none)
  | .add lblk =>
    if space then
      (s.es.step rb (.insert lblk 1 (BitVec.allOnes 64) .delayed fails)).map fun r =>
        (.idle, r.2, if r.1 = .done then some lblk else none)
    else some (.idle, s.es, none)

def startCall (s : DelallocState) (caller : MapCaller) (lblk len : ℕ) :
    Option (MapPc × EsInode) :=
  (s.es.step .right (.lookup lblk)).map fun
    | (.found es, es') =>
      (if caller = .daWrite ∧ es.esType = .hole then .hole lblk else .idle, es')
    | (_, es') => (.missed caller lblk len, es')

def step (s : DelallocState) : DelallocAct → Option DelallocState
  | .lookup t caller lblk len =>
    -- a delayed write is for one block, and m_lblk >= EXT_MAX_BLOCKS is an error
    if s.pcs[t]? = some .idle ∧ lblk < extMaxBlocks ∧ 0 < len ∧ (caller = .daWrite → len = 1) then
      (s.startCall caller lblk len).map fun r => { s with es := r.2, pcs := s.pcs.set t r.1 }
    else none
  | .run t rb fails space =>
    s.pcs[t]?.bind fun pc =>
      (s.advance rb fails space pc).map fun r =>
        { s with es := r.2.1, pcs := s.pcs.set t r.1, entered := r.2.2.toList ++ s.entered }
  | .cache rb lblk len pblk status fail =>
    if lblk + len ≤ extMaxBlocks then
      (s.es.step rb (.cache lblk len pblk status fail)).map fun r => { s with es := r.2 }
    else none
  | .shrink rb nr => (s.es.step rb (.shrink nr)).map fun r => { s with es := r.2 }
  | .remove rb lblk len fails =>
    if lblk + len ≤ extMaxBlocks then
      (s.es.step rb (.remove lblk len fails)).map fun r =>
        { s with
          es := r.2, entered := s.entered.filter fun x => ¬ (lblk ≤ x ∧ x < lblk + len) }
    else none
  | .exclusive lblk len tree calls =>
    if (∀ pc ∈ s.pcs, pc.holds = false) ∧ treeChange s.tree tree lblk len = true ∧
        ∀ call ∈ calls, call.2.enters
          (fun x => extMapped tree x || decide (lblk ≤ x ∧ x < lblk + len)) = true then
      (s.es.run calls).map fun r =>
        { s with
          es := r.2, tree := tree
          entered := s.entered.filter fun x => ¬ (lblk ≤ x ∧ x < lblk + len) }
    else none

def init (tree : List FileExtent) (threads : ℕ) : DelallocState :=
  { es := esInitTree, tree := tree, pcs := List.replicate threads .idle, entered := [] }

/-- What a thread has to meet at `add_delayed`: no other thread is about to enter a hole over the
block, the extent tree does not map the block, and no allocation fails for a block that is delayed
already. -/
def AddAlone (s : DelallocState) : DelallocAct → Prop
  | .run t _ fails _ => ∀ pc ∈ s.pcs[t]?,
    match pc with
    | .add lblk => (∀ pc ∈ s.pcs, pc.putsGapOver lblk = false) ∧ extMapped s.tree lblk = false ∧
        (fails = [] ∨ lblk ∉ s.entered)
    | _ => True
  | _ => True

end DelallocState

def EsMap.DelayedAt (m : EsMap) (x : ℕ) : Prop := ∃ v, m x = some v ∧ v.1.isDelayed = true

def EsAct.Covers (a : EsAct) (x : ℕ) : Prop :=
  match a with
  | .insert lblk len _ _ _ | .remove lblk len _ => lblk ≤ x ∧ x < lblk + len
  | .cache .. | .lookup _ | .shrink _ => False

variable {m m' : EsMap} {x lblk len : ℕ}

theorem EsMap.Reclaimed.delayedAt (h : m.Reclaimed m') (hx : m.DelayedAt x) : m'.DelayedAt x := by
  obtain ⟨v, hv, hd⟩ := hx
  rcases h x with hsame | ⟨-, w, hw, hnot⟩
  · exact ⟨v, hsame.trans hv, hd⟩
  rw [hv] at hw
  cases hw
  rw [hd] at hnot
  cases hnot

theorem EsMap.delayedAt_erase (h : m.DelayedAt x) (hx : ¬ (lblk ≤ x ∧ x < lblk + len)) :
    (m.erase lblk len).DelayedAt x := by
  obtain ⟨v, hv, hd⟩ := h
  exact ⟨v, (if_neg hx).trans hv, hd⟩

theorem EsMap.delayedAt_set {f : ℕ → EsValue} (h : m.DelayedAt x)
    (hx : ¬ (lblk ≤ x ∧ x < lblk + len)) : (m.set lblk len f).DelayedAt x := by
  obtain ⟨v, hv, hd⟩ := h
  exact ⟨v, (if_neg hx).trans hv, hd⟩

theorem MapStep.delayedAt {a : EsAct} {reply : EsReply} (h : MapStep m a reply m')
    (hx : m.DelayedAt x) (hcov : ¬ a.Covers x) : m'.DelayedAt x := by
  cases h with
  | insert hshrunk => exact EsMap.delayedAt_set (hshrunk.1.delayedAt hx) hcov
  | insertDropped _ hshrunk | remove hshrunk =>
    exact EsMap.delayedAt_erase (hshrunk.1.delayedAt hx) hcov
  | insertEnomem _ hshrunk | removeEnomem _ hshrunk => exact hshrunk.1.delayedAt hx
  | @cache _ _ _ _ _ hnone =>
    -- what is cached was not in the tree
    refine EsMap.delayedAt_set hx fun hin => ?_
    obtain ⟨v, hv, -⟩ := hx
    rw [hnone x hin.1 hin.2] at hv
    cases hv
  | cacheKept | found | missing => exact hx
  | shrink hrec => exact hrec.delayedAt hx

namespace EsInode

variable {s s' : EsInode} {rb : Balance EsNode}

theorem step_delayedAt (h : s.Ok) {a : EsAct} (ha : a.InRange) {reply : EsReply}
    (heq : s.step rb a = some (reply, s')) :
    s'.Ok ∧ ∀ x, s.map.DelayedAt x → ¬ a.Covers x → s'.map.DelayedAt x := by
  obtain ⟨reply', s'', heq', hok, hstep⟩ := step_refines rb h ha
  rw [heq] at heq'
  cases heq'
  exact ⟨hok, fun x => hstep.delayedAt⟩

theorem run_delayedAt (calls : List (Balance EsNode × EsAct)) (h : s.Ok) {p : ℕ → Bool}
    (hcalls : ∀ call ∈ calls, call.2.enters p = true) {replies : List EsReply}
    (heq : s.run calls = some (replies, s')) :
    s'.Ok ∧ ∀ x, s.map.DelayedAt x → p x = false → s'.map.DelayedAt x := by
  induction calls generalizing s replies with
  | nil =>
    cases heq
    exact ⟨h, fun x hx _ => hx⟩
  | cons call _ ih =>
    obtain ⟨rb, a⟩ := call
    have ha : a.enters p = true := hcalls (rb, a) mem_cons_self
    have hrange : a.InRange := by
      cases a with
      | insert =>
        simp only [EsAct.enters, decide_eq_true_eq] at ha
        exact ha.1
      | cache => simpa [EsAct.enters, EsAct.InRange] using ha
      | remove => cases ha
      | lookup => trivial
      | shrink => trivial
    have hcov : ∀ x, p x = false → ¬ a.Covers x := by
      intro x hx hin
      cases a with
      | insert lblk =>
        simp only [EsAct.enters, decide_eq_true_eq] at ha
        have hlo : lblk ≤ x := hin.1
        have hpx := ha.2 (x - lblk) (by have := hin.2; omega)
        rw [show lblk + (x - lblk) = x by omega, hx] at hpx
        cases hpx
      | cache => exact hin
      | remove => cases ha
      | lookup => exact hin
      | shrink => exact hin
    obtain ⟨⟨reply, s1⟩, heq1, heq⟩ := bind_eq_some_iff.mp heq
    obtain ⟨⟨replies', s2⟩, heq2, heq⟩ := bind_eq_some_iff.mp heq
    cases heq
    obtain ⟨hok1, hkeep1⟩ := step_delayedAt h hrange heq1
    obtain ⟨hok2, hkeep2⟩ := ih hok1 (fun c hc => hcalls c (mem_cons_of_mem _ hc)) heq2
    exact ⟨hok2, fun x hx hp => hkeep2 x (hkeep1 x hx (hcov x hp)) hp⟩

end EsInode

def MapPc.Knows (tree : List FileExtent) (entered : List ℕ) : MapPc → Prop
  | .idle => True
  | .missed _ lblk len | .mapping _ lblk len => lblk < extMaxBlocks ∧ 0 < len
  | .hole lblk | .add lblk => lblk < extMaxBlocks
  | .gap _ lblk start len => lblk < extMaxBlocks ∧ 0 < len ∧ start + len ≤ extMaxBlocks
  | .putGap _ lblk start len => lblk < extMaxBlocks ∧ start + len ≤ extMaxBlocks ∧
      ∀ x ∈ entered, ¬ (start ≤ x ∧ x < start + len)
  | .found _ lblk len _ _ | .store lblk len _ _ => 0 < len ∧ lblk + len ≤ extMaxBlocks ∧
      ∀ x, lblk ≤ x → x < lblk + len → extMapped tree x = true

variable {tree : List FileExtent} {entered : List ℕ} {pc : MapPc} {caller : MapCaller}

theorem MapPc.Knows.enter (h : pc.Knows tree entered) (hx : pc.putsGapOver x = false) :
    pc.Knows tree (x :: entered) := by
  cases pc with
  | putGap =>
    obtain ⟨hlblk, hle, hout⟩ := h
    refine ⟨hlblk, hle, ?_⟩
    intro y hy
    rcases mem_cons.mp hy with rfl | hy
    · simpa [putsGapOver] using hx
    · exact hout y hy
  | _ => exact h

theorem MapPc.Knows.leave (h : pc.Knows tree entered) (p : ℕ → Bool) :
    pc.Knows tree (entered.filter p) := by
  cases pc with
  | putGap =>
    exact ⟨h.1, h.2.1, fun x hx => h.2.2 x (mem_of_mem_filter hx)⟩
  | _ => exact h

theorem MapPc.Knows.of_free {tree' : List FileExtent} {entered' : List ℕ}
    (h : pc.Knows tree entered) (hfree : pc.holds = false) : pc.Knows tree' entered' := by
  cases pc with
  | idle | missed | hole => exact h
  | _ => cases hfree

theorem afterGap_knows (h : lblk < extMaxBlocks) (caller : MapCaller) :
    (afterGap lblk caller).Knows tree entered := by
  cases caller with
  | daWrite => exact h
  | lookup | reserved => trivial

theorem extMapBlocks_knows (htree : FileList tree) (hlblk : lblk < extMaxBlocks) (hlen : 0 < len)
    (h : extMapBlocks tree caller lblk len = some pc) : pc.Knows tree entered := by
  unfold extMapBlocks at h
  cases hfind : (findExtent tree lblk).filter fun ex =>
      decide (ex.eeBlock ≤ lblk ∧ lblk < ex.eeBlock + ex.len) with
  | none =>
    rw [hfind] at h
    obtain ⟨hole, hhole, rfl⟩ := map_eq_some_iff.mp h
    exact ⟨hlblk, htree.determineHole_le hhole⟩
  | some ex =>
    rw [hfind] at h
    cases h
    obtain ⟨hex, hin⟩ := filter_eq_some_iff.mp hfind
    have hin : ex.eeBlock ≤ lblk ∧ lblk < ex.eeBlock + ex.len := by simpa using hin
    have hmem := findExtent_mem hex
    have hbound := htree.bound ex hmem
    refine ⟨by omega, by omega, ?_⟩
    intro x hlo hhi
    unfold extMapped
    rw [htree.ordered.map_of_mem hmem (fileView_covers.mpr (by omega))]
    rfl

theorem cutGap_knows (hdelayed : ∀ x ∈ entered, m.DelayedAt x) {start : ℕ}
    (hlblk : lblk < extMaxBlocks) (hle : start + len ≤ extMaxBlocks) {r : Option ExtentStatus}
    (hr : EsInode.DelayedFrom m start (start + len - 1) r) :
    (cutGap caller lblk start len r).Knows tree entered := by
  -- a delayed block is not one of those that the search has passed
  have hout : ∀ x ∈ entered, ¬ ∀ v, m x = some v → v.1.isDelayed = false := by
    intro x hx hnot
    obtain ⟨v, hv, hd⟩ := hdelayed x hx
    rw [hnot v hv] at hd
    cases hd
  cases r with
  | none => exact ⟨hlblk, hle, fun x hx hin => hout x hx (hr.none rfl x hin.1 (by omega))⟩
  | some es =>
    rw [cutGap]
    by_cases hfirst : es.esLblk ≤ start
    · rw [if_pos hfirst]
      exact afterGap_knows hlblk caller
    · rw [if_neg hfirst]
      exact ⟨hlblk, by omega, fun x hx hin => hout x hx (hr.some es rfl x hin.1 (by omega))⟩

namespace DelallocState

variable {s s' : DelallocState} {rb : Balance EsNode} {reply : EsReply} {es' : EsInode} {t : ℕ}
  {fails : List Shrink}

structure Kept (s : DelallocState) : Prop where
  ok : s.es.Ok
  tree : FileList s.tree
  delayed : ∀ x ∈ s.entered, s.es.map.DelayedAt x
  unmapped : ∀ x ∈ s.entered, extMapped s.tree x = false
  pcs : ∀ pc ∈ s.pcs, pc.Knows s.tree s.entered

theorem init_kept (htree : FileList tree) (threads : ℕ) : (init tree threads).Kept where
  ok := EsInode.ok_esInitTree
  tree := htree
  delayed := by simp [init]
  unmapped := by simp [init]
  pcs := by
    intro pc hpc
    rw [eq_of_mem_replicate hpc]
    trivial

section

variable (h : s.Kept)

include h

theorem Kept.call {a : EsAct} (ha : a.InRange) (heq : s.es.step rb a = some (reply, es'))
    (hcov : ∀ x ∈ s.entered, ¬ a.Covers x) : ({ s with es := es' } : DelallocState).Kept := by
  obtain ⟨hok, hkeep⟩ := EsInode.step_delayedAt h.ok ha heq
  exact { h with ok := hok, delayed := fun x hx => hkeep x (h.delayed x hx) (hcov x hx) }

theorem Kept.search (hok : es'.Ok) (hmap : es'.map = s.es.map) :
    ({ s with es := es' } : DelallocState).Kept :=
  { h with ok := hok, delayed := fun x hx => by rw [hmap]; exact h.delayed x hx }

theorem Kept.goto (t : ℕ) (hpc : pc.Knows s.tree s.entered) :
    ({ s with pcs := s.pcs.set t pc } : DelallocState).Kept := by
  refine { h with pcs := ?_ }
  intro pc' hpc'
  rcases mem_or_eq_of_mem_set hpc' with hold | rfl
  · exact h.pcs pc' hold
  · exact hpc

theorem Kept.addDelayed (hlblk : lblk < extMaxBlocks)
    (halone : ∀ pc ∈ s.pcs, pc.putsGapOver lblk = false) (hfree : extMapped s.tree lblk = false)
    (hfails : fails = [] ∨ lblk ∉ s.entered)
    (heq : s.es.step rb (.insert lblk 1 (BitVec.allOnes 64) .delayed fails) = some (reply, es')) :
    ({ s with
      es := es'
      entered := (if reply = .done then some lblk else none).toList ++ s.entered } :
        DelallocState).Kept := by
  have hrange : (EsAct.insert lblk 1 (BitVec.allOnes 64) .delayed fails).InRange := hlblk
  obtain ⟨reply', es'', heq', hok, hstep⟩ := EsInode.step_refines rb h.ok hrange
  rw [heq] at heq'
  cases heq'
  -- the other blocks keep their status
  have hother : ∀ x ∈ s.entered, x ≠ lblk → es'.map.DelayedAt x := by
    intro x hx hne
    refine hstep.delayedAt (h.delayed x hx) ?_
    rintro ⟨hlo, hhi⟩
    omega
  by_cases hdone : reply = .done
  · subst hdone
    have hnew : es'.map.DelayedAt lblk := by
      generalize es'.map = m' at hstep
      cases hstep with
      | insert => exact ⟨_, if_pos ⟨le_rfl, Nat.lt_succ_self lblk⟩, rfl⟩
    refine { h with ok := hok, delayed := ?_, unmapped := ?_, pcs := ?_ }
    · intro x hx
      rcases mem_cons.mp hx with rfl | hx
      · exact hnew
      by_cases hne : x = lblk
      · rw [hne]
        exact hnew
      · exact hother x hx hne
    · intro x hx
      rcases mem_cons.mp hx with rfl | hx
      · exact hfree
      · exact h.unmapped x hx
    · intro pc hpc
      exact (h.pcs pc hpc).enter (halone pc hpc)
  · rw [if_neg hdone]
    refine { h with ok := hok, delayed := ?_ }
    intro x hx
    have hx : x ∈ s.entered := hx
    by_cases hne : x = lblk
    · -- an insertion fails only with a failed allocation
      have hfailed : fails ≠ [] := by
        generalize es'.map = m' at hstep
        cases hstep with
        | insert => exact absurd rfl hdone
        | insertDropped hf => exact hf
        | insertEnomem hf => exact hf
      rcases hfails with hf | hf
      · exact absurd hf hfailed
      · exact absurd (hne ▸ hx) hf
    · exact hother x hx hne

theorem Kept.not_found (hmapped : ∀ x, lblk ≤ x → x < lblk + len → extMapped s.tree x = true)
    (hx : x ∈ s.entered) : ¬ (lblk ≤ x ∧ x < lblk + len) := by
  rintro ⟨hlo, hhi⟩
  have hfalse := h.unmapped x hx
  rw [hmapped x hlo hhi] at hfalse
  cases hfalse

theorem Kept.advance (hpc : s.pcs[t]? = some pc) {space : Bool}
    (hcond : s.AddAlone (.run t rb fails space)) {r : MapPc × EsInode × Option ℕ}
    (heq : s.advance rb fails space pc = some r) :
    ({ s with es := r.2.1, pcs := s.pcs.set t r.1, entered := r.2.2.toList ++ s.entered } :
      DelallocState).Kept := by
  have hknows := h.pcs pc (mem_of_getElem? hpc)
  cases pc with
  | idle => cases heq
  | missed | hole =>
    cases heq
    exact h.goto t hknows
  | mapping =>
    obtain ⟨pc', hmap, rfl⟩ := map_eq_some_iff.mp heq
    exact h.goto t (extMapBlocks_knows h.tree hknows.1 hknows.2 hmap)
  | gap _ _ start len =>
    obtain ⟨hlblk, hpos, hle⟩ := hknows
    obtain ⟨r', es', hfind, hok, hmap, hfrom⟩ :=
      EsInode.esFindDelayedExtentRange_spec h.ok (show start ≤ start + len - 1 by omega)
    simp only [DelallocState.advance, hfind, map_some] at heq
    cases heq
    exact (h.search hok hmap).goto t (cutGap_knows h.delayed hlblk hle hfrom)
  | putGap caller _ start len =>
    obtain ⟨hlblk, hle, hout⟩ := hknows
    obtain ⟨⟨reply, es'⟩, hins, rfl⟩ := map_eq_some_iff.mp heq
    exact (h.call (a := .insert start len (BitVec.allOnes 64) .hole fails) hle hins hout).goto t
      (afterGap_knows hlblk caller)
  | found caller lblk len _ unwritten =>
    have hfound := hknows
    obtain ⟨hpos, -, -⟩ := hknows
    by_cases hlookup : unwritten = true ∧ caller = .lookup
    · obtain ⟨r', es', hfind, hok, hmap⟩ :=
        EsInode.findDelallocRange_spec h.ok (show lblk ≤ lblk + len - 1 by omega)
      simp only [DelallocState.advance, if_pos hlookup, hfind, map_some] at heq
      cases heq
      exact (h.search hok hmap).goto t hfound
    · simp only [DelallocState.advance, if_neg hlookup] at heq
      cases heq
      exact h.goto t hfound
  | store lblk len pblk status =>
    obtain ⟨-, hle, hmapped⟩ := hknows
    obtain ⟨⟨reply, es'⟩, hins, rfl⟩ := map_eq_some_iff.mp heq
    exact (h.call (a := .insert lblk len (BitVec.ofNat 64 pblk) status fails) hle hins
      fun x hx => h.not_found hmapped hx).goto t trivial
  | add =>
    cases space with
    | false =>
      cases heq
      exact h.goto t trivial
    | true =>
      obtain ⟨halone, hfree, hfails⟩ := hcond _ hpc
      obtain ⟨⟨reply, es'⟩, hins, rfl⟩ := map_eq_some_iff.mp heq
      exact (h.addDelayed hknows halone hfree hfails hins).goto t trivial

theorem Kept.startCall (hlblk : lblk < extMaxBlocks) (hlen : 0 < len) {r : MapPc × EsInode}
    (heq : s.startCall caller lblk len = some r) :
    ({ s with es := r.2, pcs := s.pcs.set t r.1 } : DelallocState).Kept := by
  obtain ⟨⟨reply, es'⟩, hfind, rfl⟩ := map_eq_some_iff.mp heq
  have hcall := h.call (a := .lookup lblk) trivial hfind fun _ _ => id
  cases reply with
  | found es =>
    refine hcall.goto t ?_
    dsimp only
    by_cases hhole : caller = .daWrite ∧ es.esType = .hole
    · rw [if_pos hhole]
      exact hlblk
    · rw [if_neg hhole]
      trivial
  | _ => exact hcall.goto t ⟨hlblk, hlen⟩

theorem Kept.exclusive {calls : List (Balance EsNode × EsAct)}
    (hfree : ∀ pc ∈ s.pcs, pc.holds = false) (htree : treeChange s.tree tree lblk len = true)
    (hcalls : ∀ call ∈ calls, call.2.enters
      (fun x => extMapped tree x || decide (lblk ≤ x ∧ x < lblk + len)) = true)
    {replies : List EsReply} (heq : s.es.run calls = some (replies, es')) :
    ({ s with
      es := es', tree := tree
      entered := s.entered.filter fun x => ¬ (lblk ≤ x ∧ x < lblk + len) } :
        DelallocState).Kept := by
  simp only [treeChange, decide_eq_true_eq] at htree
  obtain ⟨hbefore, hexts⟩ := htree
  obtain ⟨hok, hkeep⟩ := EsInode.run_delayedAt calls h.ok hcalls heq
  -- a block that was entered and is not covered is not mapped by the new tree
  have hunmapped : ∀ x ∈ s.entered, ¬ (lblk ≤ x ∧ x < lblk + len) → extMapped tree x = false := by
    intro x hx hout
    refine isSome_eq_false_iff.mpr (isNone_iff_eq_none.mpr ?_)
    refine fileView.map_eq_none fun ex hex => ?_
    rw [← Bool.not_eq_true, fileView_covers]
    rintro ⟨hlo, hhi⟩
    obtain ⟨-, -, hblocks⟩ := hexts ex hex
    have hblock := hblocks (x - ex.eeBlock) (by omega)
    rw [show ex.eeBlock + (x - ex.eeBlock) = x by omega] at hblock
    rcases hblock with hold | hin
    · rw [h.unmapped x hx] at hold
      cases hold
    · exact hout hin
  refine ⟨hok, ⟨⟨fun ex hex => (hexts ex hex).1, hbefore⟩, fun ex hex => (hexts ex hex).2.1⟩,
    ?_, ?_, fun pc hpc => (h.pcs pc hpc).of_free (hfree pc hpc)⟩
  · intro x hx
    obtain ⟨hx, hout⟩ := mem_filter.mp hx
    have hout : ¬ (lblk ≤ x ∧ x < lblk + len) := of_decide_eq_true hout
    exact hkeep x (h.delayed x hx) (by rw [hunmapped x hx hout, decide_eq_false hout]; rfl)
  · intro x hx
    obtain ⟨hx, hout⟩ := mem_filter.mp hx
    exact hunmapped x hx (of_decide_eq_true hout)

theorem Kept.remove (hle : lblk + len ≤ extMaxBlocks)
    (heq : s.es.step rb (.remove lblk len fails) = some (reply, es')) :
    ({ s with
      es := es', entered := s.entered.filter fun x => ¬ (lblk ≤ x ∧ x < lblk + len) } :
        DelallocState).Kept := by
  have hrange : (EsAct.remove lblk len fails).InRange := hle
  obtain ⟨hok, hkeep⟩ := EsInode.step_delayedAt h.ok hrange heq
  refine ⟨hok, h.tree, ?_, fun x hx => h.unmapped x (mem_of_mem_filter hx),
    fun pc hpc => (h.pcs pc hpc).leave _⟩
  intro x hx
  obtain ⟨hx, hout⟩ := mem_filter.mp hx
  have hout : ¬ (lblk ≤ x ∧ x < lblk + len) := of_decide_eq_true hout
  exact hkeep x (h.delayed x hx) hout

/-- A step that adds its extent alone loses no delayed block. -/
theorem Kept.step {a : DelallocAct} (hcond : s.AddAlone a) (heq : s.step a = some s') :
    s'.Kept := by
  cases a with
  | lookup =>
    obtain ⟨hidle, heq⟩ := ite_none_right_eq_some.mp heq
    obtain ⟨r, hstart, rfl⟩ := map_eq_some_iff.mp heq
    exact h.startCall hidle.2.1 hidle.2.2.1 hstart
  | run =>
    obtain ⟨pc, hpc, heq⟩ := bind_eq_some_iff.mp heq
    obtain ⟨r, hadv, rfl⟩ := map_eq_some_iff.mp heq
    exact h.advance hpc hcond hadv
  | cache _ lblk len pblk status fail =>
    obtain ⟨hle, heq⟩ := ite_none_right_eq_some.mp heq
    obtain ⟨⟨reply, es'⟩, hcall, rfl⟩ := map_eq_some_iff.mp heq
    exact h.call (a := .cache lblk len pblk status fail) hle hcall fun _ _ => id
  | shrink _ nr =>
    obtain ⟨⟨reply, es'⟩, hcall, rfl⟩ := map_eq_some_iff.mp heq
    exact h.call (a := .shrink nr) trivial hcall fun _ _ => id
  | remove =>
    obtain ⟨hle, heq⟩ := ite_none_right_eq_some.mp heq
    obtain ⟨⟨reply, es'⟩, hcall, rfl⟩ := map_eq_some_iff.mp heq
    exact h.remove hle hcall
  | exclusive =>
    obtain ⟨⟨hfree, htree, hcalls⟩, heq⟩ := ite_none_right_eq_some.mp heq
    obtain ⟨⟨replies, es'⟩, hrun, rfl⟩ := map_eq_some_iff.mp heq
    exact h.exclusive hfree htree hcalls hrun

end

end DelallocState

/-- Delayed blocks are not forgotten: if every block is entered alone, a block that was entered has
the delayed status in every state, until an allocation or a removal covers it. -/
theorem delayed_blocks_kept {tree : List FileExtent} (htree : FileList tree) (threads : ℕ)
    {as : List DelallocAct} {s : DelallocState}
    (hrun : exec DelallocState.step (.init tree threads) as = some s)
    (hcond : Along DelallocState.step DelallocState.AddAlone (.init tree threads) as) :
    ∀ x ∈ s.entered, s.es.map.DelayedAt x :=
  (exec_invariant (fun _ _ _ h hc heq => DelallocState.Kept.step h hc heq) as
    (DelallocState.init_kept htree threads) hrun hcond).delayed

def DelallocAct.go (t : ℕ) : DelallocAct := .run t .right [] true

/-- A read of the first block of an empty file and a delayed write of another one, which starts when
the read has entered its hole. -/
def readThenWrite : List DelallocAct :=
  [.lookup 0 .lookup 0 1, .go 0, .go 0, .go 0, .go 0, .lookup 1 .daWrite 5 1, .go 1, .go 1]

instance (s : DelallocState) (a : DelallocAct) : Decidable (s.AddAlone a) :=
  match a with
  | .run t _ fails _ =>
    match h : s.pcs[t]? with
    | some (.add lblk) =>
      decidable_of_iff ((∀ pc ∈ s.pcs, pc.putsGapOver lblk = false) ∧
        extMapped s.tree lblk = false ∧ (fails = [] ∨ lblk ∉ s.entered))
        (by simp [DelallocState.AddAlone, h])
    | some .idle | some (.missed ..) | some (.hole ..) | some (.mapping ..) | some (.gap ..)
    | some (.putGap ..) | some (.found ..) | some (.store ..) | none =>
      .isTrue (by simp [DelallocState.AddAlone, h])
  | .lookup .. | .cache .. | .shrink .. | .remove .. | .exclusive .. => .isTrue trivial

theorem delayed_blocks_kept_readThenWrite :
    ∃ s, exec DelallocState.step (.init [] 2) readThenWrite = some s ∧ s.entered = [5] ∧
      s.es.map.DelayedAt 5 := by
  have hrun : ∃ s, exec DelallocState.step (.init [] 2) readThenWrite = some s ∧
      s.entered = [5] := by
    refine ⟨_, rfl, ?_⟩
    decide +kernel
  obtain ⟨s, hs, hentered⟩ := hrun
  have htree : FileList [] := ⟨.nil, by simp⟩
  exact ⟨s, hs, hentered, delayed_blocks_kept htree 2 hs (by decide +kernel) 5 (by simp [hentered])⟩

/-- The delayed write starts when the read has seen that no block is delayed: the read enters its
hole over the block. -/
theorem delayed_block_forgotten :
    (exec DelallocState.step (.init [] 2)
      [.lookup 0 .lookup 0 1, .go 0, .go 0, .go 0,
        .lookup 1 .daWrite 5 1, .go 1, .go 1, .go 1, .go 1, .go 1, .go 0]).map
      (fun s => (s.entered, s.es.map 5)) = some ([5], some (.hole, none)) := by
  decide +kernel

end VMsep.Ext4
