import VMsep.Ext4.FreedData
import Mathlib.Data.List.TakeWhile

/-! Inserting an entry keeps the tree in order, with no two entries of one transaction that touch:
the new entry takes the clusters of the neighbours it is merged with. -/

namespace VMsep.Ext4

open Lib Jbd2 List FreeData

namespace FreeData

structure Before (a b : FreeData) : Prop where
  le : a.stop ≤ b.efdStartCluster
  lt : a.efdTid = b.efdTid → a.stop < b.efdStartCluster

theorem Before.trans {a b c : FreeData} (h : a.Before b) (hb : 0 < b.efdCount) (h' : b.Before c) :
    a.Before c := by
  have h1 := h.le
  have h2 := h'.le
  unfold stop at h2
  exact ⟨by omega, fun _ => by omega⟩

theorem clusters_append (a b x : FreeData) (htid : a.efdTid = b.efdTid)
    (hgroup : a.efdGroup = b.efdGroup) (hstop : a.stop = b.efdStartCluster)
    (hx : x.efdTid = b.efdTid ∧ x.efdGroup = b.efdGroup ∧
      x.efdStartCluster = a.efdStartCluster ∧ x.efdCount = a.efdCount + b.efdCount) :
    x.clusters = a.clusters ++ b.clusters := by
  obtain ⟨h1, h2, h3, h4⟩ := hx
  unfold stop at hstop
  simp only [clusters, h1, h2, h3, h4, htid, hgroup, ← hstop, ← map_append]
  rw [range'_append_1]

end FreeData

structure Merged (new merged : FreeData) (gone : Option FreeData) : Prop where
  tid : merged.efdTid = new.efdTid
  group : merged.efdGroup = new.efdGroup
  count : merged.efdCount = (gone.toList.map FreeData.efdCount).sum + new.efdCount
  clusters : merged.clusters.Perm (gone.toList.flatMap FreeData.clusters ++ new.clusters)
  gone : ∀ e ∈ gone, e.efdTid = new.efdTid ∧ e.efdGroup = new.efdGroup

variable {entry new : FreeData} {group : ℕ} {root left right : List FreeData}

theorem Merged.none (new : FreeData) : Merged new new .none where
  tid := rfl
  group := rfl
  count := by simp
  clusters := by simp
  gone := by simp

theorem tryMerge_none (h : tryMergeFreedExtent entry new = none)
    (hgroup : entry.efdGroup = new.efdGroup) (htid : entry.efdTid = new.efdTid) :
    entry.stop ≠ new.efdStartCluster ∧ new.stop ≠ entry.efdStartCluster := by
  unfold tryMergeFreedExtent at h
  rw [if_neg (by simp [htid, hgroup])] at h
  split_ifs at h with hbefore hafter
  exact ⟨hbefore, hafter⟩

theorem tryMerge_some {merged : FreeData} (h : tryMergeFreedExtent entry new = some merged) :
    Merged new merged (some entry) ∧
      (entry.stop = new.efdStartCluster ∧ merged.efdStartCluster = entry.efdStartCluster ∧
          merged.stop = new.stop ∨
        new.stop = entry.efdStartCluster ∧ merged.efdStartCluster = new.efdStartCluster ∧
          merged.stop = entry.stop) := by
  unfold tryMergeFreedExtent at h
  split_ifs at h with hother hstop hstop
  all_goals
    simp only [ne_eq, not_or, not_not] at hother
    obtain ⟨htid, hgroup⟩ := hother
    cases h
    refine ⟨⟨rfl, rfl, by simp [Nat.add_comm], ?_, ?_⟩, ?_⟩
  · have hcl := clusters_append entry new
      { new with
        efdStartCluster := entry.efdStartCluster, efdCount := new.efdCount + entry.efdCount }
      htid hgroup hstop ⟨rfl, rfl, rfl, Nat.add_comm _ _⟩
    rw [hcl]
    simp
  · intro e he
    cases he
    exact ⟨htid, hgroup⟩
  · refine .inl ⟨hstop, rfl, ?_⟩
    unfold stop at hstop ⊢
    simp only
    omega
  · have hcl := clusters_append new entry
      { new with efdCount := new.efdCount + entry.efdCount }
      htid.symm hgroup.symm hstop ⟨htid.symm, hgroup.symm, rfl, rfl⟩
    rw [hcl]
    simpa using perm_append_comm
  · intro e he
    cases he
    exact ⟨htid, hgroup⟩
  · refine .inr ⟨hstop, rfl, ?_⟩
    unfold stop at hstop ⊢
    simp only
    omega

structure RootOk (group : ℕ) (root : List FreeData) : Prop where
  group : ∀ e ∈ root, e.efdGroup = group
  count : ∀ e ∈ root, 0 < e.efdCount
  before : root.Pairwise FreeData.Before

theorem RootOk.nodup (h : RootOk group root) : root.Nodup := by
  refine List.Pairwise.imp_of_mem ?_ h.before
  rintro a b ha - hab rfl
  have hpos := h.count a ha
  have hle := hab.le
  unfold stop at hle
  omega

theorem RootOk.sublist {root' : List FreeData} (h : RootOk group root) (hsub : root'.Sublist root) :
    RootOk group root' :=
  ⟨fun e he => h.group e (hsub.subset he), fun e he => h.count e (hsub.subset he),
    h.before.sublist hsub⟩

theorem mergePrev_spec (hleft : RootOk group left) (hgroup : new.efdGroup = group)
    (hnew : 0 < new.efdCount) (hle : ∀ e ∈ left, e.stop ≤ new.efdStartCluster) :
    let r := mergePrev left new
    left = r.1 ++ r.2.2.toList ∧ Merged new r.2.1 r.2.2 ∧ r.2.1.stop = new.stop ∧
      ∀ e ∈ r.1, e.Before r.2.1 := by
  induction left using reverseRecOn with
  | nil => exact ⟨rfl, .none new, rfl, by simp [mergePrev]⟩
  | append_singleton left entry =>
    have hmem : entry ∈ left ++ [entry] := by simp
    have hpos := hleft.count entry hmem
    have hprev : ∀ e ∈ left, e.Before entry := by
      intro e he
      exact (pairwise_append.mp hleft.before).2.2 e he entry (by simp)
    have hge := hle entry hmem
    cases hmerge : tryMergeFreedExtent entry new with
    | none =>
      have hr : mergePrev (left ++ [entry]) new = (left ++ [entry], new, none) := by
        simp only [mergePrev, getLast?_concat, hmerge]
      have hbefore : entry.Before new := ⟨hge, fun ht => lt_of_le_of_ne hge
        (tryMerge_none hmerge ((hleft.group entry hmem).trans hgroup.symm) ht).1⟩
      rw [hr]
      refine ⟨by simp, .none new, rfl, fun e he => ?_⟩
      rcases mem_append.mp he with he | he
      · exact (hprev e he).trans hpos hbefore
      · rw [mem_singleton.mp he]
        exact hbefore
    | some merged =>
      have hr : mergePrev (left ++ [entry]) new = (left, merged, some entry) := by
        simp only [mergePrev, getLast?_concat, hmerge, dropLast_concat]
      obtain ⟨hm, ⟨-, hstart, hstop⟩ | ⟨hother, -⟩⟩ := tryMerge_some hmerge
      case inr =>
        unfold stop at hother hge
        omega
      rw [hr]
      refine ⟨by simp, hm, hstop, fun e he => ?_⟩
      have hb := hprev e he
      exact ⟨hstart ▸ hb.le, fun ht => hstart ▸ hb.lt (ht.trans (hm.tid.trans
        (hm.gone entry rfl).1.symm))⟩

theorem mergeNext_spec (hright : RootOk group right) (hgroup : new.efdGroup = group)
    (hnew : 0 < new.efdCount) (hle : ∀ e ∈ right, new.stop ≤ e.efdStartCluster) :
    let r := mergeNext right new
    right = r.2.2.toList ++ r.1 ∧ Merged new r.2.1 r.2.2 ∧
      r.2.1.efdStartCluster = new.efdStartCluster ∧ ∀ e ∈ r.1, r.2.1.Before e := by
  cases right with
  | nil => exact ⟨rfl, .none new, rfl, by simp [mergeNext]⟩
  | cons entry right =>
    have hmem : entry ∈ entry :: right := by simp
    have hpos := hright.count entry hmem
    have hnext : ∀ e ∈ right, entry.Before e := (pairwise_cons.mp hright.before).1
    have hge := hle entry hmem
    cases hmerge : tryMergeFreedExtent entry new with
    | none =>
      have hr : mergeNext (entry :: right) new = (entry :: right, new, none) := by
        simp only [mergeNext, hmerge]
      have hbefore : new.Before entry := ⟨hge, fun ht => lt_of_le_of_ne hge
        (tryMerge_none hmerge ((hright.group entry hmem).trans hgroup.symm) ht.symm).2⟩
      rw [hr]
      refine ⟨by simp, .none new, rfl, fun e he => ?_⟩
      rcases mem_cons.mp he with rfl | he
      · exact hbefore
      · exact hbefore.trans hpos (hnext e he)
    | some merged =>
      have hr : mergeNext (entry :: right) new = (right, merged, some entry) := by
        simp only [mergeNext, hmerge]
      obtain ⟨hm, ⟨hother, -⟩ | ⟨-, hstart, hstop⟩⟩ := tryMerge_some hmerge
      case inl =>
        unfold stop at hother hge
        omega
      rw [hr]
      refine ⟨by simp, hm, hstart, fun e he => ?_⟩
      have hb := hnext e he
      exact ⟨hstop ▸ hb.le, fun ht => hstop ▸ hb.lt ((hm.gone entry rfl).1.trans
        (hm.tid.symm.trans ht))⟩

theorem RootOk.replace {gone : List FreeData} {merged : FreeData}
    (h : RootOk group (left ++ gone ++ right)) (hgroup : merged.efdGroup = group)
    (hcount : 0 < merged.efdCount) (hleft : ∀ e ∈ left, e.Before merged)
    (hright : ∀ e ∈ right, merged.Before e) : RootOk group (left ++ merged :: right) := by
  have hsub : (left ++ right).Sublist (left ++ gone ++ right) := by
    rw [append_assoc]
    exact (sublist_append_right gone right).append_left left
  have hrest := h.sublist hsub
  obtain ⟨hl, hr, hlr⟩ := pairwise_append.mp hrest.before
  refine ⟨?_, ?_, ?_⟩
  · intro e he
    rcases mem_append.mp he with he | he
    · exact hrest.group e (mem_append_left _ he)
    rcases mem_cons.mp he with rfl | he
    · exact hgroup
    · exact hrest.group e (mem_append_right _ he)
  · intro e he
    rcases mem_append.mp he with he | he
    · exact hrest.count e (mem_append_left _ he)
    rcases mem_cons.mp he with rfl | he
    · exact hcount
    · exact hrest.count e (mem_append_right _ he)
  · refine pairwise_append.mpr ⟨hl, pairwise_cons.mpr ⟨hright, hr⟩, ?_⟩
    intro a ha b hb
    rcases mem_cons.mp hb with rfl | hb
    · exact hleft a ha
    · exact hlr a ha b hb

theorem RootOk.after (h : RootOk group root)
    (hapart : ∀ e ∈ root, e.stop ≤ new.efdStartCluster ∨ new.stop ≤ e.efdStartCluster) :
    ∀ e ∈ root.dropWhile (fun e => e.stop ≤ new.efdStartCluster), new.stop ≤ e.efdStartCluster := by
  induction root with
  | nil => simp
  | cons a root ih =>
    intro e he
    have hroot := h.sublist (sublist_cons_self a root)
    by_cases ha : a.stop ≤ new.efdStartCluster
    · rw [dropWhile_cons_of_pos (by simpa using ha)] at he
      exact ih hroot (fun e he => hapart e (mem_cons_of_mem _ he)) e he
    rw [dropWhile_cons_of_neg (by simpa using ha)] at he
    have hfirst := (hapart a mem_cons_self).resolve_left ha
    rcases mem_cons.mp he with rfl | he
    · exact hfirst
    have hbefore := ((pairwise_cons.mp h.before).1 e he).le
    unfold stop at *
    omega

structure Inserted (root : List FreeData) (new : FreeData) (root' : List FreeData)
    (merged : FreeData) (gone : List FreeData) : Prop where
  ok : RootOk new.efdGroup root'
  rest : ∃ rest, root.Perm (gone ++ rest) ∧ root'.Perm (merged :: rest)
  alike : ∀ e ∈ gone, e.efdTid = new.efdTid ∧ e.efdGroup = new.efdGroup
  tid : merged.efdTid = new.efdTid
  group : merged.efdGroup = new.efdGroup
  count : merged.efdCount = (gone.map FreeData.efdCount).sum + new.efdCount
  clusters : merged.clusters.Perm (gone.flatMap FreeData.clusters ++ new.clusters)

/-- A range apart from the others is inserted and merged. -/
theorem insertFreed_spec (hroot : RootOk new.efdGroup root) (hnew : 0 < new.efdCount)
    (hapart : ∀ e ∈ root, e.stop ≤ new.efdStartCluster ∨ new.stop ≤ e.efdStartCluster) :
    ∃ root' merged gone, insertFreed root new = some (root', merged, gone) ∧
      Inserted root new root' merged gone := by
  have hafter := hroot.after hapart
  have hbefore : ∀ e ∈ root.takeWhile (fun e => decide (e.stop ≤ new.efdStartCluster)),
      e.stop ≤ new.efdStartCluster := by
    intro e he
    simpa using mem_takeWhile_imp he
  have hsplit : root = _ ++ _ := (takeWhile_append_dropWhile
    (p := fun e => decide (e.stop ≤ new.efdStartCluster))).symm
  unfold insertFreed
  generalize root.takeWhile (fun e => decide (e.stop ≤ new.efdStartCluster)) = left at *
  generalize root.dropWhile (fun e => decide (e.stop ≤ new.efdStartCluster)) = right at *
  subst hsplit
  have hhead : ¬ (right.head?.any fun e => decide (e.efdStartCluster ≤ new.efdStartCluster)) := by
    cases right with
    | nil => simp
    | cons e =>
      have h := hafter e mem_cons_self
      unfold stop at h
      simp only [head?_cons, Option.any_some, decide_eq_true_eq]
      omega
  obtain ⟨hl, hm1, hstop, hlm⟩ := mergePrev_spec
    (hroot.sublist (sublist_append_left left right)) rfl hnew hbefore
  simp only [if_neg hhead]
  generalize mergePrev left new = r1 at *
  obtain ⟨left', m, prev⟩ := r1
  dsimp only at hl hm1 hstop hlm ⊢
  have hpos1 : 0 < m.efdCount := by
    have h := hm1.count
    omega
  obtain ⟨hr, hm2, hstart, hrm⟩ := mergeNext_spec
    (hroot.sublist (sublist_append_right left right)) hm1.group hpos1
    (fun e he => hstop ▸ hafter e he)
  generalize mergeNext right m = r2 at *
  obtain ⟨right', merged, next⟩ := r2
  dsimp only at hr hm2 hstart hrm ⊢
  have hpos2 : 0 < merged.efdCount := by
    have h := hm2.count
    omega
  have hlm2 : ∀ e ∈ left', e.Before merged := by
    intro e he
    have h := hlm e he
    exact ⟨hstart ▸ h.le, fun ht => hstart ▸ h.lt (ht.trans hm2.tid)⟩
  have hall : left ++ right = left' ++ (prev.toList ++ next.toList) ++ right' := by
    rw [hl, hr]
    simp only [append_assoc]
  refine ⟨_, _, _, rfl, ?_⟩
  exact {
    ok := (hall ▸ hroot).replace (hm2.group.trans hm1.group) hpos2 hlm2 hrm
    rest := ⟨left' ++ right', by
      rw [hall, ← append_assoc _ left']
      exact perm_append_comm.append_right _, perm_middle⟩
    alike := by
      intro e he
      rcases mem_append.mp he with he | he
      · exact hm1.gone e (Option.mem_toList.mp he)
      · obtain ⟨h1, h2⟩ := hm2.gone e (Option.mem_toList.mp he)
        exact ⟨h1.trans hm1.tid, h2.trans hm1.group⟩
    tid := hm2.tid.trans hm1.tid
    group := hm2.group.trans hm1.group
    count := by
      have h1 := hm1.count
      have h2 := hm2.count
      simp only [map_append, sum_append]
      omega
    clusters := by
      refine hm2.clusters.trans ((hm1.clusters.append_left _).trans ?_)
      simp only [flatMap_append, ← append_assoc]
      exact perm_append_comm.append_right _ }

end VMsep.Ext4
