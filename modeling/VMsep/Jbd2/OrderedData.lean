import VMsep.Jbd2.InodeFiling
import VMsep.Jbd2.TransactionOrder

/-! The two walks of the commit routine keep the invariant. When the commit record of a transaction
is written, the data of every inode filed with it was submitted and waited for in its own commit, or
the inode was released. -/

namespace VMsep.Jbd2

open Lib Function Option List

namespace Ordered

variable {s s' : Ordered}

namespace Inv

/-- A round of a walk changes `JI_COMMIT_RUNNING` of inodes, and has more data submitted or waited
for. -/
structure Walks (s s' : Ordered) : Prop where
  j : s'.j = s.j
  lists : s'.tInodeList = s.tInodeList
  ops : s'.ops = s.ops
  filed : s'.filed = s.filed
  inodes : ∀ k, ∃ b, s'.inodes k = { s.inodes k with commitRunning := b }
  submitted : s.submitted ⊆ s'.submitted
  waited : s.waited ⊆ s'.waited

namespace Walks

theorem relock (s : Ordered) (c : Option ℕ) : Walks s (s.relock c) := by
  cases c with
  | none => exact ⟨rfl, rfl, rfl, rfl, fun k => ⟨(s.inodes k).commitRunning, rfl⟩, fun _ => id,
      fun _ => id⟩
  | some c =>
    refine ⟨rfl, rfl, rfl, rfl, fun k => ?_, fun _ => id, fun _ => id⟩
    by_cases hk : k = c
    · subst hk
      exact ⟨false, update_self _ _ _⟩
    · exact ⟨(s.inodes k).commitRunning, update_of_ne hk _ _⟩

theorem hold (h : Walks s s') (i : ℕ) : Walks s (s'.hold i) := by
  refine { h with inodes := fun k => ?_ }
  obtain ⟨b, hb⟩ := h.inodes k
  by_cases hk : k = i
  · subst hk
    refine ⟨true, (update_self _ _ _).trans ?_⟩
    rw [hb]
  · exact ⟨b, (update_of_ne hk _ _).trans hb⟩

theorem commitTx (h : Walks s s') : s'.commitTx = s.commitTx :=
  congrArg Journal.commitTransaction h.j

theorem iTransaction (h : Walks s s') (k : ℕ) :
    (s'.inodes k).iTransaction = (s.inodes k).iTransaction := by
  obtain ⟨b, hb⟩ := h.inodes k
  rw [hb]

theorem settled (h : Walks s s') {f : Filing} (hf : s.Settled f) : s'.Settled f :=
  ⟨fun hw => h.submitted (hf.1 hw), h.waited hf.2⟩

end Walks

theorem rewalk (hi : Inv s) (hw : Walks s s') (hok : s.j.phase.walkOk s'.walk = true)
    (hnd : s'.walk ≠ .done)
    (hcur : ∀ c, s'.walk.cursor = some c → (s'.inodes c).commitRunning = true ∧
      c ∈ s.tInodeList s.commitTx)
    (hwalked : ∀ f ∈ s.filed, (s.inodes f.inode).released = false → s.FilingOk f →
      f.tx = s.commitTx → s.j.phase.committing = true → s'.Walked f) : Inv s' := by
  have hct := hw.commitTx
  have htx := hw.iTransaction
  have hrel : ∀ k, (s'.inodes k).released = (s.inodes k).released := fun k => by
    obtain ⟨b, hb⟩ := hw.inodes k
    rw [hb]
  refine
    { quiet := hw.j ▸ hi.quiet, records := hw.j ▸ hi.records, walkOk := hw.j ▸ hok
      listed := hw.lists ▸ hi.listed.congr htx, released := fun k hk => ?_
      next := fun k r hk hr => ?_, emptied := fun _ h => absurd h hnd, cursor := fun k hk => ?_
      ops := fun h k w hk => ?_, filings := fun f hf hk => ?_ }
  · rw [htx]
    exact hi.released k (hrel k ▸ hk)
  · obtain ⟨b, hb⟩ := hw.inodes k
    rw [hb] at hr
    rw [htx, hct, hw.j]
    obtain ⟨h1, h2, -, h4⟩ := hi.next k r (hrel k ▸ hk) hr
    exact ⟨h1, h2, hnd, h4⟩
  · obtain ⟨hrun, hmem⟩ := hcur k hk
    have hk' := (hi.listed.mem_iff _ _).mp hmem
    refine ⟨hrun, ?_, by rw [htx, hct, hk']⟩
    rw [hrel]
    by_contra hne
    exact absurd ((hi.released k (by simpa using hne)).symm.trans hk') (by simp)
  · rw [hw.j, hrel]
    exact hi.ops h k w (hw.ops ▸ hk)
  · have hf0 : f ∈ s.filed := hw.filed ▸ hf
    have hok := hi.filings f hf0 (hrel _ ▸ hk)
    refine ⟨hok.somewhere.imp hw.settled fun hp => ?_, fun h1 h2 => ?_, fun hr => ?_⟩
    · obtain ⟨b, hb⟩ := hw.inodes f.inode
      unfold Pending
      rw [hb]
      exact hp
    · exact hwalked f hf0 (hrel _ ▸ hk) hok (h1.trans hct) (hw.j ▸ h2)
    · exact hw.settled (hok.recorded (hw.j ▸ hr))

theorem passed_or_ahead {c : Option ℕ} {done : List (ℕ × ℕ)} {f : Filing} {flag : Prop}
    (htx : f.tx = s.commitTx)
    (hwalk : (f.tx, f.inode) ∈ done ∨ f.inode ∈ todo (s.tInodeList f.tx) c)
    (hflag : (f.tx, f.inode) ∈ done ∨ flag) :
    (f.tx, f.inode) ∈ s.passed c ++ done ∨ f.inode ∈ ahead (s.tInodeList s.commitTx) c ∧ flag := by
  rcases hwalk with h | h
  · exact .inl (mem_append_right _ h)
  rw [htx] at h
  rcases mem_todo h with rfl | h
  · exact .inl (mem_append_left _ (mem_singleton.mpr (by rw [htx])))
  · exact hflag.imp (mem_append_right _) fun hf => ⟨h, hf⟩

theorem submitNext (hi : Inv s) (hs : s.submitNext = some s') : Inv s' := by
  unfold Ordered.submitNext at hs
  split at hs
  case h_2 => cases hs
  rename_i cursor hwalk
  split at hs
  · cases hs
  have hrelock := Walks.relock s cursor
  have hwalks : Walks s { s.relock cursor with submitted := s.passed cursor ++ s.submitted } :=
    { hrelock with submitted := subset_append_right _ _ }
  have hph : s.j.phase = .flushing := by
    have hok := hi.walkOk
    rw [hwalk] at hok
    cases hp : s.j.phase <;> rw [hp] at hok <;> first | rfl | cases hok
  -- what is not submitted yet has its flag set and is ahead of the walk
  have hrest : ∀ f ∈ s.filed, (s.inodes f.inode).released = false → s.FilingOk f →
      f.tx = s.commitTx → f.write = true →
      (f.tx, f.inode) ∈ s.passed cursor ++ s.submitted ∨
        f.inode ∈ ahead (s.tInodeList s.commitTx) cursor ∧
          (s.inodes f.inode).writeData = true := by
    intro f hf hrel hok htx hw
    have hwk := hok.walked htx (by rw [hph]; rfl)
    simp only [Walked, hwalk] at hwk
    refine passed_or_ahead htx (hwk hw) (hok.somewhere.imp (fun hset => hset.1 hw) fun hpen => ?_)
    have hflags := hpen.1
    simp only [Jinode.hasFlags, hw, Bool.and_eq_true, Bool.not_true, Bool.false_or] at hflags
    exact hflags.1
  cases hadv : advance (fun i => (s.inodes i).writeData) (s.tInodeList s.commitTx) cursor with
  | some i =>
    rw [hadv] at hs
    cases hs
    refine hi.rewalk { hwalks.hold i with } (by rw [hph]; rfl) (by simp) (fun c hc => ?_)
      fun f hf hrel hok htx _ hw => ?_
    · cases hc
      exact ⟨congrArg _ (update_self _ _ _), (mem_of_advance hadv).1⟩
    refine (hrest f hf hrel hok htx hw).imp id fun h => ?_
    change f.inode ∈ todo ((s.relock cursor).tInodeList f.tx) (some i)
    rw [hrelock.lists, htx]
    exact mem_todo_of_advance (hi.listed.nodup _) hadv h.1 h.2
  | none =>
    rw [hadv] at hs
    cases hs
    refine hi.rewalk { hwalks with } (by rw [hph]; rfl) (by simp) (by rintro _ ⟨⟩)
      fun f hf hrel hok htx _ => ⟨fun hw => ?_, ?_⟩
    · refine (hrest f hf hrel hok htx hw).resolve_right fun h => ?_
      exact absurd (not_of_advance_none hadv h.1) (by simp [h.2])
    rcases hok.somewhere with hset | hpen
    · exact .inl (hwalks.waited hset.2)
    refine .inr ?_
    change f.inode ∈ (s.relock cursor).tInodeList f.tx
    rw [hrelock.lists]
    exact hi.mem_of_pending hpen htx hrel

structure Moved (s : Ordered) (l : List ℕ) (s' : Ordered) : Prop where
  j : s'.j = s.j
  ops : s'.ops = s.ops
  filed : s'.filed = s.filed
  submitted : s'.submitted = s.submitted
  waited : s'.waited = s.waited
  inodes : ∀ k, s'.inodes k = if k ∈ l then (s.inodes k).moveOn else s.inodes k
  listed : Listed (fun k => (s'.inodes k).iTransaction) s'.tInodeList

theorem listed_refileInode (hl : Listed (fun k => (s.inodes k).iTransaction) s.tInodeList) {i : ℕ}
    (hi : (s.inodes i).iTransaction = some s.commitTx) :
    Listed (fun k => ((s.refileInode i).inodes k).iTransaction) (s.refileInode i).tInodeList := by
  have hplace : (fun k => ((s.refileInode i).inodes k).iTransaction) =
      update (fun k => (s.inodes k).iTransaction) i (s.inodes i).iNextTransaction := by
    funext k
    change ((update s.inodes i (s.inodes i).moveOn) k).iTransaction = _
    by_cases hk : k = i
    · subst hk
      rw [update_self, update_self]
      rfl
    · rw [update_of_ne hk, update_of_ne hk]
  have hun := hl.unlist (a := i)
  simp only [hi] at hun
  rw [hplace, refileInode]
  cases hn : (s.inodes i).iNextTransaction with
  | none => exact hun
  | some r =>
    have hpush := hun.push (update_self _ _ _) r
    rwa [update_idem] at hpush

theorem moved_foldl {l : List ℕ} (hl : Listed (fun k => (s.inodes k).iTransaction) s.tInodeList)
    (hnd : l.Nodup) (hin : ∀ i ∈ l, (s.inodes i).iTransaction = some s.commitTx) :
    Moved s l (l.foldl refileInode s) := by
  induction l generalizing s with
  | nil => exact ⟨rfl, rfl, rfl, rfl, rfl, fun k => by simp, hl⟩
  | cons i _ ih =>
    obtain ⟨hil, hnd⟩ := nodup_cons.mp hnd
    have hof : ∀ k, k ≠ i → (s.refileInode i).inodes k = s.inodes k :=
      fun k hk => update_of_ne hk _ _
    have hm := ih (listed_refileInode hl (hin i mem_cons_self)) hnd fun k hk => by
      rw [hof k fun h => hil (h ▸ hk)]
      exact hin k (mem_cons_of_mem _ hk)
    refine ⟨hm.j, hm.ops, hm.filed, hm.submitted, hm.waited, fun k => ?_, hm.listed⟩
    rw [foldl_cons, hm.inodes]
    by_cases hk : k = i
    · subst hk
      rw [if_neg hil, if_pos mem_cons_self]
      exact update_self _ _ _
    · rw [hof k hk]
      simp [hk]

theorem of_mem (hi : Inv s) {k : ℕ} (hk : k ∈ s.tInodeList s.commitTx) :
    (s.inodes k).released = false ∧ (s.inodes k).iNextTransaction ≠ some s.commitTx := by
  have htx := (hi.listed.mem_iff _ _).mp hk
  have hrel : (s.inodes k).released = false := by
    by_contra hne
    exact absurd ((hi.released k (by simpa using hne)).symm.trans htx) (by simp)
  exact ⟨hrel, fun h => (hi.next k _ hrel h).2.2.2 rfl⟩

theorem moved_relock (hi : Inv s) (cursor : Option ℕ) :
    Moved { s.relock cursor with waited := s.passed cursor ++ s.waited }
      (s.tInodeList s.commitTx) ((s.tInodeList s.commitTx).foldl refileInode
        { s.relock cursor with waited := s.passed cursor ++ s.waited }) := by
  have hw := Walks.relock s cursor
  refine moved_foldl ?_ (hi.listed.nodup _) fun k hk => ?_
  · change Listed _ (s.relock cursor).tInodeList
    rw [hw.lists]
    exact hi.listed.congr hw.iTransaction
  · exact (hw.iTransaction k).trans
      (((hi.listed.mem_iff _ _).mp hk).trans (congrArg some hw.commitTx.symm))

theorem finishWalk (hi : Inv s) (hph : s.j.phase = .logging) {cursor : Option ℕ}
    (hm : Moved { s.relock cursor with waited := s.passed cursor ++ s.waited }
      (s.tInodeList s.commitTx) s')
    (hset : ∀ f ∈ s.filed, (s.inodes f.inode).released = false → s.FilingOk f →
      f.tx = s.commitTx → s'.Settled f) : Inv { s' with walk := .done } := by
  have hw := Walks.relock s cursor
  have hj : s'.j = s.j := hm.j.trans hw.j
  have hct : s'.commitTx = s.commitTx := congrArg Journal.commitTransaction hj
  have hset' : ∀ f, s.Settled f → s'.Settled f := fun f hf =>
    ⟨fun h => hm.submitted ▸ hw.submitted (hf.1 h), hm.waited ▸ mem_append_right _ hf.2⟩
  have hon : ∀ k, k ∈ s.tInodeList s.commitTx →
      ∃ b, s'.inodes k = { (s.inodes k).moveOn with commitRunning := b } := fun k hk => by
    obtain ⟨b, hb⟩ := hw.inodes k
    refine ⟨b, (hm.inodes k).trans ?_⟩
    rw [if_pos hk]
    exact congrArg Jinode.moveOn hb
  have hoff : ∀ k, k ∉ s.tInodeList s.commitTx →
      ∃ b, s'.inodes k = { s.inodes k with commitRunning := b } := fun k hk => by
    obtain ⟨b, hb⟩ := hw.inodes k
    refine ⟨b, (hm.inodes k).trans ?_⟩
    rw [if_neg hk]
    exact hb
  have hrel : ∀ k, (s'.inodes k).released = (s.inodes k).released := fun k => by
    by_cases hk : k ∈ s.tInodeList s.commitTx
    · obtain ⟨b, hb⟩ := hon k hk
      rw [hb]
      rfl
    · obtain ⟨b, hb⟩ := hoff k hk
      rw [hb]
  refine
    { quiet := hj ▸ hi.quiet, records := hj ▸ hi.records, walkOk := ?_, listed := hm.listed
      released := fun k hk => ?_, next := fun k r hk hr => ?_, emptied := fun _ _ k hk => ?_
      cursor := (by intros; contradiction), ops := fun h k w hk => ?_
      filings := fun f hf hk => ?_ }
  · change s'.j.phase.walkOk .done = true
    rw [hj, hph]
    rfl
  · have hk0 : (s.inodes k).released = true := hrel k ▸ hk
    have hnot : k ∉ s.tInodeList s.commitTx := fun h =>
      absurd ((hi.of_mem h).1.symm.trans hk0) (by simp)
    obtain ⟨b, hb⟩ := hoff k hnot
    change (s'.inodes k).iTransaction = none
    rw [hb]
    exact hi.released k hk0
  · have hr : (s'.inodes k).iNextTransaction = some r := hr
    by_cases hmem : k ∈ s.tInodeList s.commitTx
    · obtain ⟨b, hb⟩ := hon k hmem
      rw [hb] at hr
      cases hr
    · obtain ⟨b, hb⟩ := hoff k hmem
      rw [hb] at hr
      exact absurd ((hi.listed.mem_iff _ _).mpr (hi.next k r (hrel k ▸ hk) hr).1) hmem
  · have hk : (s'.inodes k).iTransaction = some s.commitTx := hct ▸ hk
    by_cases hmem : k ∈ s.tInodeList s.commitTx
    · obtain ⟨b, hb⟩ := hon k hmem
      rw [hb] at hk
      exact (hi.of_mem hmem).2 hk
    · obtain ⟨b, hb⟩ := hoff k hmem
      rw [hb] at hk
      exact hmem ((hi.listed.mem_iff _ _).mpr hk)
  · have hop := hi.ops h k w (hm.ops.trans hw.ops ▸ hk)
    exact ⟨hj.symm ▸ hop.1, (hrel k).trans hop.2⟩
  · have hk0 : (s.inodes f.inode).released = false := hrel _ ▸ hk
    have hf0 : f ∈ s.filed := hm.filed.trans hw.filed ▸ hf
    have hok := hi.filings f hf0 hk0
    refine ⟨?_, fun htx _ => hset f hf0 hk0 hok (htx.trans hct), fun hr => ?_⟩
    · by_cases htx : f.tx = s.commitTx
      · exact .inl (hset f hf0 hk0 hok htx)
      refine hok.somewhere.imp (hset' f) fun hpen => ?_
      -- another transaction keeps the inode, or gets it now
      by_cases hmem : f.inode ∈ s.tInodeList s.commitTx
      · obtain ⟨b, hb⟩ := hon _ hmem
        change (s'.inodes f.inode).hasFlags f.write = true ∧
          (s'.inodes f.inode).on f.tx = true
        rw [hb]
        refine ⟨hpen.1, decide_eq_true (.inl ?_)⟩
        refine (of_decide_eq_true hpen.2).resolve_left fun h => htx ?_
        exact some.inj (h.symm.trans ((hi.listed.mem_iff _ _).mp hmem))
      · obtain ⟨b, hb⟩ := hoff _ hmem
        change (s'.inodes f.inode).hasFlags f.write = true ∧
          (s'.inodes f.inode).on f.tx = true
        rw [hb]
        exact hpen
    · exact hset' f (hok.recorded (hj ▸ hr))

theorem waitNext (hi : Inv s) (hs : s.waitNext = some s') : Inv s' := by
  unfold Ordered.waitNext at hs
  split at hs
  case h_2 => cases hs
  rename_i cursor hwalk
  split at hs
  · cases hs
  rename_i hph
  have hph : s.j.phase = .logging := not_not.mp hph
  have hrelock := Walks.relock s cursor
  -- what is not waited for yet has its flag set and is ahead of the walk
  have hrest : ∀ f ∈ s.filed, (s.inodes f.inode).released = false → s.FilingOk f →
      f.tx = s.commitTx → (f.write = true → (f.tx, f.inode) ∈ s.submitted) ∧
      ((f.tx, f.inode) ∈ s.passed cursor ++ s.waited ∨
        f.inode ∈ ahead (s.tInodeList s.commitTx) cursor ∧
          (s.inodes f.inode).waitData = true) := by
    intro f hf hrel hok htx
    have hwk := hok.walked htx (by rw [hph]; rfl)
    simp only [Walked, hwalk] at hwk
    refine ⟨hwk.1, passed_or_ahead htx hwk.2 (hok.somewhere.imp And.right fun hpen => ?_)⟩
    have hflags := hpen.1
    rw [Jinode.hasFlags, Bool.and_eq_true] at hflags
    exact hflags.2
  cases hadv : advance (fun i => (s.inodes i).waitData) (s.tInodeList s.commitTx) cursor with
  | some i =>
    rw [hadv] at hs
    cases hs
    have hwalks : Walks s { s.relock cursor with waited := s.passed cursor ++ s.waited } :=
      { hrelock with waited := subset_append_right _ _ }
    refine hi.rewalk { hwalks.hold i with } (by rw [hph]; rfl) (by simp) (fun c hc => ?_)
      fun f hf hrel hok htx _ => ⟨fun hw => ?_, ?_⟩
    · cases hc
      exact ⟨congrArg _ (update_self _ _ _), (mem_of_advance hadv).1⟩
    · exact hrelock.submitted ((hrest f hf hrel hok htx).1 hw)
    · refine (hrest f hf hrel hok htx).2.imp id fun h => ?_
      change f.inode ∈ todo ((s.relock cursor).tInodeList f.tx) (some i)
      rw [hrelock.lists, htx]
      exact mem_todo_of_advance (hi.listed.nodup _) hadv h.1 h.2
  | none =>
    rw [hadv] at hs
    cases hs
    have hm := hi.moved_relock cursor
    refine hi.finishWalk hph hm fun f hf hrel hok htx => ⟨fun hw => ?_, ?_⟩
    · rw [hm.submitted]
      exact hrelock.submitted ((hrest f hf hrel hok htx).1 hw)
    rw [hm.waited]
    refine (hrest f hf hrel hok htx).2.resolve_right fun h => ?_
    exact absurd (not_of_advance_none hadv h.1) (by simp [h.2])

/-- Every step keeps the inodes on the lists they belong to. -/
theorem step {a : OrderedAct} (hi : Inv s) (hs : s.step a = some s') : Inv s' := by
  cases a with
  | proto =>
    simp only [Ordered.step, Ordered.proto] at hs
    split at hs
    · obtain ⟨j', hj, rfl⟩ := map_eq_some_iff.mp hs
      exact hi.proto ‹_› hj
    · cases hs
  | fileCheck => exact hi.fileCheck hs
  | fileLocked => exact hi.fileLocked hs
  | release => exact hi.release hs
  | submitNext => exact hi.submitNext hs
  | waitNext => exact hi.waitNext hs

end Inv

theorem inv_reset (cfg : Config) : Inv (reset cfg) where
  quiet := quietInv_reset cfg
  records := ⟨nofun, nofun, nofun, nofun⟩
  walkOk := rfl
  listed := ⟨fun _ _ => ⟨nofun, nofun⟩, fun _ => List.nodup_nil⟩
  released := nofun
  next := fun _ _ _ => nofun
  emptied := nofun
  cursor := nofun
  ops := nofun
  filings := nofun

/-- What `data=ordered` rests on. -/
structure InodesOk (s : Ordered) : Prop where
  settled : ∀ f ∈ s.filed, f.tx ∈ s.j.commitRecords → (s.inodes f.inode).released = false →
    s.Settled f
  listed : ∀ t i, i ∈ s.tInodeList t ↔ (s.inodes i).iTransaction = some t
  once : ∀ t, (s.tInodeList t).Nodup
  claimed : ∀ i, (s.inodes i).released = false → (s.inodes i).iNextTransaction ≠ none →
    ∃ t, (s.inodes i).iTransaction = some t ∧ s.j.jCommittingTransaction = some t

theorem Inv.inodesOk (hi : Inv s) : s.InodesOk where
  settled := fun f hf hrec hrel => (hi.filings f hf hrel).recorded hrec
  listed := hi.listed.mem_iff
  once := hi.listed.nodup
  claimed := fun i hrel hne => by
    obtain ⟨r, hr⟩ := ne_none_iff_exists'.mp hne
    obtain ⟨htx, hcom, -⟩ := hi.next i r hrel hr
    refine ⟨s.commitTx, htx, ?_⟩
    have hptr : s.j.jCommittingTransaction = if s.j.phase.committing then some s.commitTx
      else none := hi.quiet.pointers.committing
    rw [hptr, if_pos hcom]

end Ordered

/-- In every state of a run the data of the inodes filed with a transaction that has its commit
record was submitted and waited for in its commit, each inode is on the list of its transaction,
and only inodes of the committing transaction are claimed by the next one; inodes that were
released apart. -/
theorem ordered_data_precedes_record (cfg : Config) (as : List OrderedAct) (s : Ordered)
    (hex : exec Ordered.step (Ordered.reset cfg) as = some s) : s.InodesOk :=
  (exec_invariant_all (I := Ordered.Inv) (fun _ _ _ hi hs => hi.step hs) as
    (Ordered.inv_reset cfg) hex).inodesOk

def claimedInodeRun : List OrderedAct :=
  [.proto (.handle (.start 4 0)), .proto (.handle (.startRepeat 0 true)),
    .proto (.getTransaction 0), .proto (.handle (.startRepeat 0 true)), .fileCheck 0 1 true,
    .fileLocked 0, .proto (.handle (.stop 0)), .proto (.requestCommit 0 0),
    .proto (.commit .kjournald), .proto (.commit .restoreSuperblock), .proto (.commit .allocNew),
    .proto (.handle (.start 4 0)), .proto (.handle (.startRepeat 2 true)),
    .proto (.commit .lockDown), .proto (.commit .switchTransaction), .fileCheck 2 1 false,
    .fileLocked 2]

/-- The inode is released then: the next transaction still claims it, but it has none. -/
theorem claimedInodeRun_released :
    (exec Ordered.step (Ordered.reset sampleConfig) (claimedInodeRun ++ [.release 1])).map
      (fun s => ((s.inodes 1).iTransaction, (s.inodes 1).iNextTransaction,
        s.j.jCommittingTransaction)) = some (none, some 1, some 0) := by
  decide +kernel

def claimedInodeCommit : List OrderedAct :=
  claimedInodeRun ++ [.submitNext, .submitNext, .proto (.commit .setCommit), .waitNext, .waitNext,
    .proto (.commit .getTail), .proto (.commit (.install false)), .proto (.commit .setJflush),
    .proto (.commit .record)]

theorem ordered_data_claimedInodeCommit :
    ∃ s, exec Ordered.step (Ordered.reset sampleConfig) claimedInodeCommit = some s ∧
      (s.j.commitRecords, s.filed.length, s.tInodeList 1) = ([0], 2, [1]) ∧ s.InodesOk := by
  obtain ⟨s, hs, h⟩ := map_eq_some_iff.mp
    (by decide +kernel :
      (exec Ordered.step (Ordered.reset sampleConfig) claimedInodeCommit).map
        (fun s => (s.j.commitRecords, s.filed.length, s.tInodeList 1)) = some ([0], 2, [1]))
  exact ⟨s, hs, h, ordered_data_precedes_record sampleConfig claimedInodeCommit s hs⟩

end VMsep.Jbd2
