import VMsep.Ext4.FreedTree
import VMsep.Jbd2.TransactionOrder

/-! The callback of a commit takes the entries with its id from the head of `s_freed_data_list`.
That is all of them as long as no handle frees clusters behind those of a newer transaction. -/

namespace VMsep.Jbd2

theorem Spine.Step.tid_eq {s s' : Spine} {e : Event} (hs : s.Step e s') {t : ℕ}
    (ht : t < s.nextTx) : s'.tid t = s.tid t := by
  cases hs with
  | client h => cases h <;> rfl
  | create => exact Function.update_of_ne ht.ne _ _
  | noCleanup | cleanup => rfl
  | commit h =>
    cases h with
    | allocNew => exact Function.update_of_ne ht.ne _ _
    | _ => rfl

theorem Journal.phase_kept {j j' : Journal} {a : Act} (hs : j.step a = some j')
    (ha : ∀ drop, a ≠ .commit (.callback drop)) :
    (j.phase.busy = true → j'.phase.busy = true) ∧
      (j.phase = .callback → j'.phase = .callback) := by
  by_cases hcom : ∃ c, a = .commit c
  · obtain ⟨c, rfl⟩ := hcom
    have hsp := commitStep_spine hs
    have hsrc : j.phase = c.source := hsp.phases.1
    rw [hsrc]
    rcases hsp.phases.2 with htgt | ⟨rfl, hwait⟩
    · have htgt' : j'.phase = c.target := htgt
      rw [htgt']
      cases c with
      | callback drop => exact absurd rfl (ha drop)
      | _ => simp [CommitAct.source, CommitAct.target, CommitPhase.busy]
    · have hwait' : j'.phase = .waitUpdates := hwait
      rw [hwait']
      simp [CommitAct.source, CommitPhase.busy]
  · obtain ⟨hph, -, -⟩ := step_phase hs fun c hc => hcom ⟨c, hc⟩
    rw [hph]
    exact ⟨id, id⟩

end VMsep.Jbd2

namespace VMsep.Ext4

open Lib Jbd2 List Function

def Callback.subtracted : Callback → ℕ
  | .inBuddy entry _ => entry.efdCount
  | _ => 0

theorem Callback.erase_eq {c : Callback} {e : FreeData} (h : e ∉ c.entries) : c.erase e = c := by
  cases c with
  | idle => rfl
  | running => exact congrArg running (erase_of_not_mem h)
  | inBuddy entry =>
    exact congrArg (inBuddy entry) (erase_of_not_mem fun hr => h (mem_cons_of_mem _ hr))

namespace Freeing

variable {s s' : Freeing}

/-- The entries on `s_freed_data_list` and on the private list of the callback. -/
def waiting (s : Freeing) : List FreeData := s.freedDataList ++ s.callback.entries

/-- What `s_freed_data_list` may hold ahead of an entry: entries with its id, and those of the
transaction that is being committed. -/
def Ahead (s : Freeing) (tid : Tid) (e : FreeData) : Prop :=
  e.efdTid = tid ∨ s.j.phase.busy = true ∧ e.efdTid = s.commitTid

structure Filed (s : Freeing) : Prop where
  root : ∀ g, RootOk g (s.bbFreeRoot g)
  listed : ∀ g, (s.bbFreeRoot g).Perm (s.waiting.filter fun e => e.efdGroup = g)
  pending : s.mbFreePending + BitVec.ofNat 32 s.callback.subtracted =
    BitVec.ofNat 32 (s.waiting.map FreeData.efdCount).sum
  clusters : s.freed.Perm (s.passed ++ s.waiting.flatMap FreeData.clusters)

theorem Filed.nodup (h : s.Filed) : s.waiting.Nodup := by
  rw [nodup_iff_count_le_one]
  intro e
  have hone := nodup_iff_count_le_one.mp
    ((h.listed e.efdGroup).nodup_iff.mp (h.root e.efdGroup).nodup) e
  rwa [count_filter (by simp)] at hone

theorem Filed.mem (h : s.Filed) {g : ℕ} {e : FreeData} (he : e ∈ s.bbFreeRoot g) : e ∈ s.waiting :=
  (mem_filter.mp ((h.listed g).mem_iff.mp he)).1

structure Inv (s : Freeing) : Prop extends Filed s where
  quiet : QuietInv s.j
  order : s.freedDataList.Pairwise fun a b => s.Ahead b.efdTid a
  taken : ∀ e ∈ s.callback.entries, e.efdTid = s.commitTid
  running : s.callback ≠ .idle →
    s.j.phase = .callback ∧ ∀ e ∈ s.freedDataList, e.efdTid ≠ s.commitTid

theorem commitTid_eq {j' : Journal} {a : Act} (h : s.Inv) (hb : s.j.phase.busy = true)
    (hs : s.j.step a = some j') : (j'.txs j'.commitTransaction).tTid = s.commitTid := by
  rw [Journal.commitTransaction_eq hs hb]
  have hord := h.quiet.pointers.order hb
  exact (Journal.step_spine hs).tid_eq (hord.1.trans hord.2)

theorem Inv.proto {a : Act} (h : s.Inv) (hs : s.proto a = some s') : s'.Inv := by
  unfold Freeing.proto at hs
  by_cases hg : afterCallback a = true ∧ s.callback ≠ .running []
  · rw [if_pos hg] at hs
    cases hs
  rw [if_neg hg] at hs
  obtain ⟨j', hj, rfl⟩ := Option.map_eq_some_iff.mp hs
  by_cases hafter : afterCallback a = true
  · -- the callback has returned, so nothing with the id of the commit is left
    have hcb : s.callback = .running [] := by
      by_contra hne
      exact hg ⟨hafter, hne⟩
    have hwait : s.waiting = s.freedDataList ++ [] := by
      unfold waiting
      rw [hcb]
      rfl
    obtain ⟨-, hnone⟩ := h.running (by rw [hcb]; simp)
    simp only [hafter, if_true]
    refine ⟨⟨h.root, ?_, ?_, ?_⟩, h.quiet.step hj, ?_, ?_, ?_⟩
    · intro g
      have hl := h.listed g
      rw [hwait] at hl
      exact hl
    · have hp := h.pending
      rw [hwait, hcb] at hp
      exact hp
    · have hc := h.clusters
      rw [hwait] at hc
      exact hc
    · refine h.order.imp_of_mem fun {a b} ha _ hab => ?_
      exact .inl (hab.resolve_right fun hbad => hnone a ha hbad.2)
    · intro e he
      cases he
    · intro hne
      exact absurd rfl hne
  · have hnot : ∀ drop, a ≠ .commit (.callback drop) := by
      rintro drop rfl
      exact hafter rfl
    obtain ⟨hbusy, hph⟩ := Journal.phase_kept hj hnot
    simp only [hafter]
    refine ⟨⟨h.root, h.listed, h.pending, h.clusters⟩, h.quiet.step hj, ?_, ?_, ?_⟩
    · refine h.order.imp fun hab => hab.imp_right ?_
      rintro ⟨hb, htid⟩
      exact ⟨hbusy hb, htid.trans (commitTid_eq h hb hj).symm⟩
    · intro e he
      have hne : s.callback ≠ .idle := by
        intro hidle
        have he' : e ∈ s.callback.entries := he
        rw [hidle] at he'
        cases he'
      have hb : s.j.phase.busy = true := by rw [(h.running hne).1]; rfl
      exact (h.taken e he).trans (commitTid_eq h hb hj).symm
    · intro hne
      obtain ⟨hcb, hnone⟩ := h.running hne
      have hb : s.j.phase.busy = true := by rw [hcb]; rfl
      exact ⟨hph hcb, fun e he htid => hnone e he (htid.trans (commitTid_eq h hb hj))⟩

theorem foldl_listDel (gone : List FreeData) (hgone : ∀ e ∈ gone, e ∉ s.callback.entries) :
    gone.foldl listDel s = { s with freedDataList := s.freedDataList.diff gone } := by
  induction gone generalizing s with
  | nil => rfl
  | cons e _ ih =>
    have hcb := Callback.erase_eq (hgone e mem_cons_self)
    have hdel : s.listDel e = { s with freedDataList := s.freedDataList.erase e } := by
      unfold listDel
      rw [hcb]
    rw [foldl_cons, hdel, diff_cons]
    exact ih fun e he => hgone e (mem_cons_of_mem _ he)

theorem Filed.exchange {new merged : FreeData} {root' gone : List FreeData} (h : s.Filed)
    (rest : List FreeData) (hins : Inserted (s.bbFreeRoot new.efdGroup) new root' merged gone)
    (hold : s.waiting.Perm (gone ++ rest)) (hnew : s'.waiting.Perm (merged :: rest))
    (hroot : s'.bbFreeRoot = update s.bbFreeRoot new.efdGroup root')
    (hpend : s'.mbFreePending = s.mbFreePending + BitVec.ofNat 32 new.efdCount)
    (hcb : s'.callback = s.callback) (hfreed : s'.freed = new.clusters ++ s.freed)
    (hpassed : s'.passed = s.passed) : s'.Filed where
  root := by
    intro g
    rw [hroot]
    by_cases hg : g = new.efdGroup
    · rw [hg, update_self]
      exact hins.ok
    · rw [update_of_ne hg]
      exact h.root g
  listed := by
    intro g
    have hl := (h.listed g).trans (hold.filter _)
    refine .trans ?_ (hnew.filter _).symm
    rw [filter_append] at hl
    rw [hroot]
    by_cases hg : g = new.efdGroup
    · subst hg
      obtain ⟨rest', hr, hr'⟩ := hins.rest
      have hall : gone.filter (fun e => e.efdGroup = new.efdGroup) = gone :=
        filter_eq_self.mpr fun e he => by simpa using (hins.alike e he).2
      rw [hall] at hl
      have hrest := (perm_append_left_iff gone).mp (hr.symm.trans hl)
      rw [update_self, filter_cons_of_pos (by simpa using hins.group)]
      exact hr'.trans (hrest.cons merged)
    · have hnone : gone.filter (fun e => e.efdGroup = g) = [] := by
        refine filter_eq_nil_iff.mpr fun e he hbad => hg ?_
        simp only [decide_eq_true_eq] at hbad
        exact hbad.symm.trans (hins.alike e he).2
      have hm : ¬ merged.efdGroup = g := fun hbad => hg (hbad.symm.trans hins.group)
      rw [hnone, nil_append] at hl
      rw [update_of_ne hg, filter_cons_of_neg (by simpa using hm)]
      exact hl
  pending := by
    have hp := h.pending
    rw [(hold.map FreeData.efdCount).sum_eq, map_append, sum_append] at hp
    rw [(hnew.map FreeData.efdCount).sum_eq, map_cons, sum_cons, hins.count, hpend, hcb,
      add_right_comm, hp, ← BitVec.ofNat_add]
    congr 1
    omega
  clusters := by
    have hc := h.clusters.trans ((hold.flatMap_right FreeData.clusters).append_left s.passed)
    rw [hfreed, hpassed]
    refine (hc.append_left new.clusters).trans
      (.trans ?_ ((hnew.flatMap_right FreeData.clusters).append_left s.passed).symm)
    rw [flatMap_append, flatMap_cons]
    refine .trans ?_ ((hins.clusters.append_right _).append_left s.passed).symm
    refine (perm_append_comm_assoc _ _ _).trans (List.Perm.append_left s.passed ?_)
    rw [← append_assoc]
    exact perm_append_comm.append_right _

/-- Clusters are freed in the order of the transactions: what the list holds is of the handle's
transaction or of the one that is being committed, and a callback under way is of another one. -/
def FreesInTurn (s : Freeing) : FreeingAct → Prop
  | .freeBlocks h _ _ _ =>
    match s.txOf h with
    | none => True
    | some t =>
      (∀ e ∈ s.freedDataList, s.Ahead (s.j.txs t).tTid e) ∧
        (s.callback ≠ .idle → (s.j.txs t).tTid ≠ s.commitTid)
  | _ => True

theorem Inv.freeBlocks {h group start count : ℕ} (hi : s.Inv)
    (hturn : s.FreesInTurn (.freeBlocks h group start count))
    (hs : s.freeBlocks h group start count = some s') : s'.Inv := by
  unfold Freeing.freeBlocks at hs
  unfold FreesInTurn at hturn
  cases htx : s.txOf h with
  | none =>
    rw [htx] at hs
    cases hs
  | some t =>
    simp only [htx] at hs hturn
    obtain ⟨hahead, hother⟩ := hturn
    generalize hnew : FreeData.mk group start count (s.j.txs t).tTid = new at hs
    have htid : new.efdTid = (s.j.txs t).tTid := by rw [← hnew]
    have hcount : new.efdCount = count := by rw [← hnew]
    split_ifs at hs with hg
    obtain ⟨hpos, hover⟩ := not_or.mp hg
    have hapart : ∀ e ∈ s.bbFreeRoot new.efdGroup,
        e.stop ≤ new.efdStartCluster ∨ new.stop ≤ e.efdStartCluster := by
      intro e he
      by_contra hbad
      refine hover (any_eq_true.mpr ⟨e, he, ?_⟩)
      simpa using hbad
    obtain ⟨root', merged, gone, hinsert, hins⟩ :=
      insertFreed_spec (hi.root _) (by omega) hapart
    have hgone : ∀ e ∈ gone, e ∈ s.bbFreeRoot new.efdGroup := by
      obtain ⟨rest, hrest, -⟩ := hins.rest
      exact fun e he => hrest.mem_iff.mpr (mem_append_left _ he)
    have hprivate : ∀ e ∈ gone, e ∉ s.callback.entries := by
      intro e he hcb
      have hne : s.callback ≠ .idle := by
        intro hidle
        rw [hidle] at hcb
        cases hcb
      exact hother hne (htid.symm.trans ((hins.alike e he).1.symm.trans (hi.taken e hcb)))
    have hlist : ∀ e ∈ gone, e ∈ s.freedDataList := fun e he =>
      (mem_append.mp (hi.mem (hgone e he))).resolve_right (hprivate e he)
    have hnodup : gone.Nodup := by
      obtain ⟨rest, hrest, -⟩ := hins.rest
      exact (nodup_append.mp (hrest.nodup_iff.mp (hi.root _).nodup)).1
    have hdiff : (gone ++ s.freedDataList.diff gone).Perm s.freedDataList :=
      subperm_append_diff_self_of_count_le fun e he =>
        (nodup_iff_count_le_one.mp hnodup e).trans (count_pos_iff.mpr (hlist e he))
    have hmeta : s.mbFreeMetadata new = { s with
        bbFreeRoot := update s.bbFreeRoot new.efdGroup root'
        freedDataList := s.freedDataList.diff gone ++ [merged]
        mbFreePending := s.mbFreePending + BitVec.ofNat 32 new.efdCount } := by
      unfold mbFreeMetadata
      simp only [hinsert, foldl_listDel gone hprivate]
    rw [hmeta] at hs
    cases hs
    have hsub := diff_sublist s.freedDataList gone
    refine ⟨?_, hi.quiet, ?_, hi.taken, ?_⟩
    · refine hi.toFiled.exchange (s.freedDataList.diff gone ++ s.callback.entries) hins
        ?_ ?_ rfl rfl rfl rfl rfl
      · unfold waiting
        rw [← append_assoc]
        exact hdiff.symm.append_right _
      · change ((s.freedDataList.diff gone ++ [merged]) ++ s.callback.entries).Perm _
        rw [append_assoc, singleton_append]
        exact perm_middle
    · refine pairwise_append.mpr ⟨hi.order.sublist hsub, pairwise_singleton _ _, ?_⟩
      intro e he x hx
      rw [mem_singleton.mp hx, hins.tid, htid]
      exact hahead e (hsub.subset he)
    · intro hne
      obtain ⟨hph, hnone⟩ := hi.running hne
      refine ⟨hph, fun e he => ?_⟩
      rcases mem_append.mp he with he | he
      · exact hnone e (hsub.subset he)
      · rw [mem_singleton.mp he, hins.tid, htid]
        exact hother hne

theorem Inv.cutList (h : s.Inv) (hs : s.cutList = some s') : s'.Inv := by
  unfold Freeing.cutList at hs
  split_ifs at hs with hg
  obtain ⟨hph, hidle⟩ := not_or.mp hg
  simp only [ne_eq, not_not] at hph hidle
  cases hs
  have hwait : s.waiting = s.freedDataList := by
    unfold waiting
    rw [hidle]
    exact append_nil _
  have hperm : (s.freedDataList.dropWhile (fun e => e.efdTid == s.commitTid) ++
      s.freedDataList.takeWhile (fun e => e.efdTid == s.commitTid)).Perm s.waiting := by
    refine perm_append_comm.trans ?_
    rw [takeWhile_append_dropWhile, hwait]
  have hsub : (s.freedDataList.dropWhile fun e => e.efdTid == s.commitTid).Sublist
      s.freedDataList := dropWhile_sublist _
  refine ⟨⟨h.root, fun g => (h.listed g).trans (hperm.filter _).symm, ?_, ?_⟩, h.quiet,
    h.order.sublist hsub, ?_, ?_⟩
  · have hp := h.pending
    rw [hidle, ← (hperm.map FreeData.efdCount).sum_eq] at hp
    exact hp
  · exact h.clusters.trans ((hperm.flatMap_right _).symm.append_left _)
  · intro e he
    have htid := mem_takeWhile_imp he
    exact eq_of_beq htid
  · intro _
    refine ⟨hph, ?_⟩
    -- the first entry that stays is of another transaction, and so are those behind it
    have horder := h.order.sublist hsub
    have hfirst := head?_dropWhile_not (fun e => e.efdTid == s.commitTid) s.freedDataList
    generalize s.freedDataList.dropWhile (fun e => e.efdTid == s.commitTid) = l at *
    cases l with
    | nil => simp
    | cons a =>
      have ha : a.efdTid ≠ s.commitTid := by simpa using hfirst
      intro e he
      rcases mem_cons.mp he with rfl | he
      · exact ha
      rcases (pairwise_cons.mp horder).1 e he with htid | ⟨-, hbad⟩
      · exact htid ▸ ha
      · exact absurd hbad ha

theorem Inv.subPending (h : s.Inv) (hs : s.subPending = some s') : s'.Inv := by
  unfold Freeing.subPending at hs
  split at hs
  · next e rest hcb =>
    cases hs
    have hw : s.waiting = s.freedDataList ++ e :: rest := by
      unfold waiting
      rw [hcb]
      rfl
    obtain ⟨hph, hnone⟩ := h.running (by rw [hcb]; simp)
    refine ⟨⟨h.root, ?_, ?_, ?_⟩, h.quiet, h.order, ?_, fun _ => ⟨hph, hnone⟩⟩
    · exact fun g => (h.listed g).trans (by rw [hw]; rfl)
    · have hp := h.pending
      rw [hw, hcb] at hp
      refine Eq.trans ?_ hp
      simp [Callback.subtracted]
    · exact h.clusters.trans (by rw [hw]; rfl)
    · have ht := h.taken
      rw [hcb] at ht
      exact ht
  · cases hs

theorem Inv.freeInBuddy (h : s.Inv) (hs : s.freeInBuddy = some s') : s'.Inv := by
  unfold Freeing.freeInBuddy at hs
  split at hs
  · next e rest hcb =>
    cases hs
    have hperm : s.waiting.Perm (e :: (s.freedDataList ++ rest)) := by
      unfold waiting
      rw [hcb]
      exact perm_middle
    obtain ⟨hph, hnone⟩ := h.running (by rw [hcb]; simp)
    refine ⟨⟨?_, ?_, ?_, ?_⟩, h.quiet, h.order, ?_, fun _ => ⟨hph, hnone⟩⟩
    · intro g
      change RootOk g (update s.bbFreeRoot e.efdGroup _ g)
      by_cases hg : g = e.efdGroup
      · subst hg
        rw [update_self]
        exact (h.root _).sublist erase_sublist
      · rw [update_of_ne hg]
        exact h.root g
    · intro g
      have hl := (h.listed g).trans (hperm.filter _)
      change List.Perm (update s.bbFreeRoot e.efdGroup _ g)
        ((s.freedDataList ++ rest).filter _)
      by_cases hg : g = e.efdGroup
      · subst hg
        rw [filter_cons_of_pos (by simp)] at hl
        rw [update_self]
        exact (hl.erase e).trans (by rw [erase_cons_head])
      · rw [filter_cons_of_neg (by simpa using Ne.symm hg)] at hl
        rw [update_of_ne hg]
        exact hl
    · have hp := h.pending
      rw [(hperm.map FreeData.efdCount).sum_eq, hcb, map_cons, sum_cons,
        BitVec.ofNat_add, add_comm] at hp
      change s.mbFreePending + 0 = BitVec.ofNat 32 ((s.freedDataList ++ rest).map _).sum
      rw [add_zero]
      exact add_left_cancel hp
    · refine h.clusters.trans (((hperm.flatMap_right _).append_left _).trans ?_)
      change List.Perm _ (e.clusters ++ s.passed ++ (s.freedDataList ++ rest).flatMap _)
      rw [flatMap_cons, append_assoc]
      exact perm_append_comm_assoc _ _ _
    · have ht := h.taken
      rw [hcb] at ht
      exact fun x hx => ht x (mem_cons_of_mem _ hx)
  · cases hs

/-- A free in turn keeps the list in the order of the transactions. -/
theorem Inv.step {a : FreeingAct} (h : s.Inv) (hturn : s.FreesInTurn a)
    (hs : s.step a = some s') : s'.Inv := by
  cases a with
  | proto => exact h.proto hs
  | freeBlocks => exact h.freeBlocks hturn hs
  | cutList => exact h.cutList hs
  | subPending => exact h.subPending hs
  | freeInBuddy => exact h.freeInBuddy hs

theorem inv_reset (cfg : Config) : (Freeing.reset cfg).Inv where
  root g := ⟨by simp [reset], by simp [reset], by simp [reset]⟩
  listed g := .refl _
  pending := rfl
  clusters := .refl _
  quiet := quietInv_reset cfg
  order := .nil
  taken := by simp [reset, Callback.entries]
  running := by simp [reset]

/-- The bookkeeping of the clusters that wait. The callback subtracts the count of an entry a
moment before it takes it off its tree. -/
structure PendingOk (s : Freeing) : Prop where
  disjoint : ∀ g, (s.bbFreeRoot g).Pairwise fun a b =>
    a.stop ≤ b.efdStartCluster ∧ (a.efdTid = b.efdTid → a.stop < b.efdStartCluster)
  listed : ∀ g, (s.bbFreeRoot g).Perm (s.waiting.filter fun e => e.efdGroup = g)
  once : s.waiting.Nodup
  pending : s.mbFreePending + BitVec.ofNat 32 s.callback.subtracted =
    BitVec.ofNat 32 (s.waiting.map FreeData.efdCount).sum
  returned : s.j.phase = .callback → s.callback = .running [] →
    (∀ g, ∀ e ∈ s.bbFreeRoot g, e.efdTid ≠ s.commitTid) ∧
      (s.freed.filter fun c => c.1 = s.commitTid).Perm
        (s.passed.filter fun c => c.1 = s.commitTid)

theorem Inv.pendingOk (h : s.Inv) : s.PendingOk where
  disjoint g := (h.root g).before.imp fun hab => ⟨hab.le, hab.lt⟩
  listed := h.listed
  once := h.nodup
  pending := h.pending
  returned := by
    intro _ hcb
    obtain ⟨-, hnone⟩ := h.running (by rw [hcb]; simp)
    have hwait : s.waiting = s.freedDataList := by
      unfold waiting
      rw [hcb]
      exact append_nil _
    refine ⟨fun g e he => hnone e (hwait ▸ h.mem he), ?_⟩
    have hleft :
        (s.waiting.flatMap FreeData.clusters).filter (fun c => c.1 = s.commitTid) = [] := by
      refine filter_eq_nil_iff.mpr fun c hc => ?_
      obtain ⟨e, he, hce⟩ := mem_flatMap.mp hc
      obtain ⟨n, -, rfl⟩ := mem_map.mp hce
      simpa using hnone e (hwait ▸ he)
    refine (h.clusters.filter _).trans ?_
    rw [filter_append, hleft, append_nil]

end Freeing

/-- As long as clusters are freed in the order of the transactions, every freed cluster is passed
on once, by the callback of its transaction. -/
theorem freed_clusters_passed_once (cfg : Config) (as : List FreeingAct) (s : Freeing)
    (hex : exec Freeing.step (.reset cfg) as = some s)
    (hturn : Along Freeing.step Freeing.FreesInTurn (.reset cfg) as) : s.PendingOk :=
  (exec_invariant (fun _ _ _ hi hc hs => hi.step hc hs) as (Freeing.inv_reset cfg) hex
    hturn).pendingOk

/-- The commit of the first transaction waits for its handle while the handle of the second one
frees two clusters; then the first handle frees one, and the commit runs to its callback. -/
def lateFreeRun : List FreeingAct :=
  [.proto (.handle (.start 1 0)), .proto (.handle (.startRepeat 0 true)),
    .proto (.getTransaction 0), .proto (.handle (.startRepeat 0 true)),
    .proto (.requestCommit 0 0), .proto (.commit .kjournald), .proto (.commit .restoreSuperblock),
    .proto (.commit .allocNew), .proto (.commit .lockDown), .proto (.handle (.start 1 0)),
    .proto (.handle (.startRepeat 2 true)), .freeBlocks 2 0 8 2, .freeBlocks 0 0 20 1,
    .proto (.handle (.stop 0)), .proto (.commit .wakeUpdates),
    .proto (.commit .switchTransaction), .proto (.commit .setCommit), .proto (.commit .getTail),
    .proto (.commit (.install false)), .proto (.commit .setJflush), .proto (.commit .record),
    .proto (.commit .updateTail), .proto (.commit .finish), .cutList]

/-- The callback finds an entry of the second transaction at the head of the list and leaves that
of its own behind. -/
theorem lateFreeRun_not_pendingOk :
    ∃ s, exec Freeing.step (.reset sampleConfig) lateFreeRun = some s ∧ ¬ s.PendingOk := by
  have hend : (exec Freeing.step (.reset sampleConfig) lateFreeRun).map
      (fun s => (s.j.phase, s.callback, s.bbFreeRoot 0, s.commitTid)) =
        some (.callback, .running [], [⟨0, 8, 2, 1⟩, ⟨0, 20, 1, 0⟩], 0) := by
    decide +kernel
  obtain ⟨s, hs, heq⟩ := Option.map_eq_some_iff.mp hend
  simp only [Prod.mk.injEq] at heq
  obtain ⟨hph, hcb, hroot, htid⟩ := heq
  refine ⟨s, hs, fun hok => ?_⟩
  exact (hok.returned hph hcb).1 0 ⟨0, 20, 1, 0⟩ (by simp [hroot]) htid.symm

/-- Both handles free in turn, and the callback passes on the clusters of the first. -/
def freesInTurnRun : List FreeingAct :=
  lateFreeRun.take 11 ++ [.freeBlocks 0 0 20 1, .freeBlocks 2 0 8 2] ++ lateFreeRun.drop 13 ++
    [.subPending, .freeInBuddy]

instance (s : Freeing) (tid : Tid) (e : FreeData) : Decidable (s.Ahead tid e) :=
  inferInstanceAs (Decidable (_ ∨ _))

instance (s : Freeing) : ∀ a, Decidable (s.FreesInTurn a)
  | .freeBlocks h _ _ _ =>
    match htx : s.txOf h with
    | none => .isTrue (by simp [Freeing.FreesInTurn, htx])
    | some t => decidable_of_iff
        ((∀ e ∈ s.freedDataList, s.Ahead (s.j.txs t).tTid e) ∧
          (s.callback ≠ .idle → (s.j.txs t).tTid ≠ s.commitTid))
        (by simp [Freeing.FreesInTurn, htx])
  | .proto _ | .cutList | .subPending | .freeInBuddy => .isTrue trivial

theorem freed_clusters_passed_once_freesInTurnRun :
    ∃ s, exec Freeing.step (.reset sampleConfig) freesInTurnRun = some s ∧ s.PendingOk ∧
      s.callback = .running [] ∧ s.passed = [(0, 0, 20)] := by
  have hend : (exec Freeing.step (.reset sampleConfig) freesInTurnRun).map
      (fun s => (s.callback, s.passed)) = some (.running [], [(0, 0, 20)]) := by
    decide +kernel
  obtain ⟨s, hs, heq⟩ := Option.map_eq_some_iff.mp hend
  simp only [Prod.mk.injEq] at heq
  exact ⟨s, hs, freed_clusters_passed_once sampleConfig freesInTurnRun s hs (by decide +kernel),
    heq⟩

end VMsep.Ext4
