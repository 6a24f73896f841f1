import VMsep.Jbd2.InodeInvariant

/-! The calls that file an inode, or release it, keep the invariant. -/

namespace VMsep.Jbd2

open Lib Function

namespace Ordered

variable {s s' : Ordered}

namespace Inv

variable {h i t : ℕ}

theorem record (hi : Inv s) {w : Bool} (hatt : s.j.att h = some t) (hf : s.Pending ⟨i, t, w⟩) :
    Inv (s.record i t w) :=
  { hi with
    filings := fun f hmem hrel => by
      rcases List.mem_cons.mp hmem with rfl | hmem
      · refine ⟨.inr hf, fun htx hcom => ?_, fun hrec => ?_⟩
        · exact absurd htx (hi.quiet.att_ne (CommitPhase.quiet_of_committing hcom) hatt)
        · have hpos := hi.quiet.upd_pos hatt
          have hzero := hi.records.upd t hrec
          omega
      · have := hi.filings f hmem hrel
        exact ⟨this.somewhere, this.walked, this.recorded⟩ }

/-- The invariant says something of each inode by itself, apart from the lists and the filings. -/
structure InodeOk (s : Ordered) (i : ℕ) (x : Jinode) : Prop where
  released : x.released = true → x.iTransaction = none
  next : ∀ r, x.released = false → x.iNextTransaction = some r →
    x.iTransaction = some s.commitTx ∧ s.j.phase.committing = true ∧ s.walk ≠ .done ∧
      r ≠ s.commitTx
  emptied : s.j.phase.committing = true → s.walk = .done → x.iTransaction ≠ some s.commitTx
  cursor : s.walk.cursor = some i → x.commitRunning = true ∧ x.released = false ∧
    x.iTransaction = some s.commitTx
  ops : ∀ h w, s.ops h = some (i, w) → x.released = false

theorem inodeOk (hi : Inv s) (i : ℕ) : InodeOk s i (s.inodes i) :=
  ⟨hi.released i, hi.next i, fun hcom hw => hi.emptied hcom hw i, hi.cursor i,
    fun h w hop => (hi.ops h i w hop).2⟩

theorem replace (hi : Inv s) {x : Jinode} {lists : ℕ → List ℕ} (hx : InodeOk s i x)
    (hlisted : Listed (update (fun k => (s.inodes k).iTransaction) i x.iTransaction) lists)
    (hfiled : x.released = false → (s.inodes i).released = false ∧ ∀ w t,
      (s.inodes i).hasFlags w = true → (s.inodes i).on t = true →
        x.hasFlags w = true ∧ x.on t = true)
    (htodo : ∀ k, (k = i → x.released = false) → s.j.phase.committing = true →
      k ∈ todo (s.tInodeList s.commitTx) s.walk.cursor →
        k ∈ todo (lists s.commitTx) s.walk.cursor) :
    Inv { s.setInode i x with tInodeList := lists } := by
  have hok : ∀ k, InodeOk s k (update s.inodes i x k) := by
    intro k
    by_cases hk : k = i
    · subst hk
      rwa [update_self]
    · rw [update_of_ne hk]
      exact hi.inodeOk k
  refine { hi with
    listed := hlisted.congr fun k => ?_
    released := fun k => (hok k).released
    next := fun k => (hok k).next
    emptied := fun hcom hw k => (hok k).emptied hcom hw
    cursor := fun k => (hok k).cursor
    ops := fun h k w hop => ⟨(hi.ops h k w hop).1, (hok k).ops h w hop⟩
    filings := fun f hmem hf => ?_ }
  · exact congrFun (comp_update Jinode.iTransaction s.inodes i x) k
  · change (update s.inodes i x f.inode).released = false at hf
    have hkept : (s.inodes f.inode).released = false ∧ (s.Pending f →
        (update s.inodes i x f.inode).hasFlags f.write = true ∧
          (update s.inodes i x f.inode).on f.tx = true) := by
      unfold Pending
      by_cases hfi : f.inode = i
      · rw [hfi, update_self] at hf ⊢
        exact ⟨(hfiled hf).1, fun hp => (hfiled hf).2 _ _ hp.1 hp.2⟩
      · rw [update_of_ne hfi] at hf ⊢
        exact ⟨hf, id⟩
    have hold := hi.filings f hmem hkept.1
    refine ⟨hold.somewhere.imp id hkept.2, fun htx hcom => ?_, hold.recorded⟩
    refine (hold.walked htx hcom).mono rfl rfl rfl ?_
    rw [htx]
    refine htodo _ (fun hfi => ?_) hcom
    rwa [hfi, update_self] at hf

theorem store (hi : Inv s) {x : Jinode} (htx : x.iTransaction = (s.inodes i).iTransaction)
    (hrel : x.released = (s.inodes i).released)
    (hrun : x.commitRunning = (s.inodes i).commitRunning)
    (hflags : ∀ w, (s.inodes i).hasFlags w = true → x.hasFlags w = true)
    (hnext : x.iNextTransaction = (s.inodes i).iNextTransaction ∨
      (s.inodes i).iNextTransaction = none ∧ ∃ t, x.iNextTransaction = some t ∧
        (s.inodes i).iTransaction = some s.commitTx ∧ s.j.phase.committing = true ∧
        s.walk ≠ .done ∧ t ≠ s.commitTx) : Inv (s.setInode i x) := by
  have hold := hi.inodeOk i
  change Inv { s.setInode i x with tInodeList := s.tInodeList }
  refine hi.replace ⟨?_, fun r hr hn => ?_, ?_, ?_, ?_⟩ ?_ (fun hr => ?_) fun _ _ _ => id
  · rw [hrel, htx]
    exact hold.released
  · rw [htx]
    rcases hnext with h | ⟨-, t, ht, h⟩
    · exact hold.next r (hrel ▸ hr) (h ▸ hn)
    · cases ht.symm.trans hn
      exact h
  · rw [htx]
    exact hold.emptied
  · rw [hrun, hrel, htx]
    exact hold.cursor
  · rw [hrel]
    exact hold.ops
  · rw [htx, update_eq_self]
    exact hi.listed
  · refine ⟨hrel ▸ hr, fun w t hw hon => ⟨hflags w hw, ?_⟩⟩
    simp only [Jinode.on, decide_eq_true_eq] at hon ⊢
    rw [htx]
    refine hon.imp id fun hn => ?_
    rcases hnext with h | ⟨h, -⟩
    · exact h.trans hn
    · exact absurd (h.symm.trans hn) (by simp)

theorem setOps (hi : Inv s) {ops : ℕ → Option (ℕ × Bool)}
    (hops : ∀ h i w, ops h = some (i, w) → s.j.att h ≠ none ∧ (s.inodes i).released = false) :
    Inv { s with ops := ops } :=
  { hi with
    ops := hops
    filings := fun f hmem hf =>
      let hok := hi.filings f hmem hf
      ⟨hok.somewhere, hok.walked, hok.recorded⟩ }

theorem clearOp (hi : Inv s) (h : ℕ) : Inv { s with ops := update s.ops h none } :=
  hi.setOps fun k i w hop => by
    by_cases hk : k = h
    · subst hk
      rw [update_self] at hop
      cases hop
    · rw [update_of_ne hk] at hop
      exact hi.ops k i w hop

theorem enter (hi : Inv s) {x : Jinode} (hatt : s.j.att h = some t)
    (hold : (s.inodes i).iTransaction = none) (hnone : (s.inodes i).iNextTransaction = none)
    (hrel0 : (s.inodes i).released = false) (htx : x.iTransaction = some t)
    (hnext : x.iNextTransaction = none) (hrel : x.released = false) :
    Inv { s.setInode i x with tInodeList := push s.tInodeList i t } := by
  have hne : s.j.phase.committing = true → s.commitTx ≠ t := fun hcom =>
    (hi.quiet.att_ne (CommitPhase.quiet_of_committing hcom) hatt).symm
  refine hi.replace ⟨fun h => ?_, fun r _ hr => ?_, fun hcom _ heq => ?_, fun hc => ?_,
    fun _ _ _ => hrel⟩ (htx ▸ hi.listed.push hold t) (fun _ => ⟨hrel0, fun w u _ hon => ?_⟩)
    fun k _ hcom hk => ?_
  · exact absurd (hrel.symm.trans h) Bool.false_ne_true
  · cases hnext.symm.trans hr
  · exact hne hcom (Option.some.inj (htx.symm.trans heq)).symm
  · cases hold.symm.trans (hi.cursor i hc).2.2
  · rw [Jinode.on, hold, hnone] at hon
    cases hon
  · rwa [push, update_of_ne (hne hcom)]

end Inv

theorem att_of_txOf {h t : ℕ} (ht : s.txOf h = some t) : s.j.att h = some t := by
  unfold txOf at ht
  split_ifs at ht
  exact ht

theorem pending_of {i t : ℕ} {w : Bool} {x : Jinode} (hx : s.inodes i = x)
    (hfl : x.hasFlags w = true) (hon : x.on t = true) : s.Pending ⟨i, t, w⟩ := by
  unfold Pending
  rw [hx]
  exact ⟨hfl, hon⟩

namespace Inv

variable {h i : ℕ}

theorem fileCheck (hi : Inv s) {w : Bool} (hs : s.fileCheck h i w = some s') : Inv s' := by
  simp only [Ordered.fileCheck] at hs
  split at hs
  · cases hs
  rename_i t ht
  have hatt := att_of_txOf ht
  split_ifs at hs with h1 h2 h3
  · cases hs
    exact hi
  · cases hs
    exact hi.record hatt ⟨h3.2, h3.1⟩
  · cases hs
    simp only [ne_eq, not_or, not_not, Bool.not_eq_true] at h1
    refine hi.setOps fun k i' w' hop => ?_
    by_cases hk : k = h
    · subst hk
      rw [update_self] at hop
      cases hop
      exact ⟨by rw [hatt]; simp, h1.2⟩
    · rw [update_of_ne hk] at hop
      exact hi.ops k i' w' hop

theorem fileLocked (hi : Inv s) (hs : s.fileLocked h = some s') : Inv s' := by
  simp only [Ordered.fileLocked] at hs
  split at hs
  · rename_i t i w ht hop
    have hatt := att_of_txOf ht
    have hrel := (hi.ops h i w hop).2
    have hi0 := hi.clearOp h
    have hfl : ((s.inodes i).addFlags w).hasFlags w = true := by
      cases w <;> simp [Jinode.hasFlags, Jinode.addFlags]
    have hgrow : ∀ v, (s.inodes i).hasFlags v = true →
        ((s.inodes i).addFlags w).hasFlags v = true := by
      intro v hv
      simp only [Jinode.hasFlags, Jinode.addFlags, Bool.and_eq_true, Bool.or_eq_true] at hv ⊢
      exact ⟨hv.1.imp id .inl, trivial⟩
    split at hs
    · rename_i hon
      cases hs
      exact (hi0.store (i := i) (x := (s.inodes i).addFlags w) rfl rfl rfl hgrow (.inl rfl)).record
        hatt (pending_of (update_self _ _ _) hfl hon)
    · rename_i hon
      split at hs
      · rename_i u hu
        split at hs
        · cases hs
        rename_i hg
        simp only [ne_eq, not_or, not_not] at hg
        cases hs
        have hcom := hi.quiet.pointers.committing
        rw [show s.j.spine.committing = some u from hg.2] at hcom
        have hph : s.j.phase.committing = true ∧ u = s.commitTx := by
          split_ifs at hcom with h1
          exact ⟨h1, Option.some.inj hcom⟩
        have hw : s.walk ≠ .done := fun hw => hi.emptied hph.1 hw i (hph.2 ▸ hu)
        have ht' : t ≠ s.commitTx :=
          hi.quiet.att_ne (CommitPhase.quiet_of_committing hph.1) hatt
        exact (hi0.store (i := i)
          (x := { (s.inodes i).addFlags w with iNextTransaction := some t }) rfl rfl rfl hgrow
          (.inr ⟨hg.1, t, rfl, hph.2 ▸ hu, hph.1, hw, ht'⟩)).record hatt
          (pending_of (update_self _ _ _) hfl (by simp [Jinode.on]))
      · rename_i hu
        split at hs
        · cases hs
        rename_i hg
        cases hs
        exact (hi0.enter (i := i) (x := { (s.inodes i).addFlags w with iTransaction := some t })
          hatt hu (not_not.mp hg) hrel rfl (not_not.mp hg) hrel).record hatt
          (pending_of (update_self _ _ _) hfl (by simp [Jinode.on]))
  · cases hs

theorem release (hi : Inv s) (hs : s.release i = some s') : Inv s' := by
  simp only [Ordered.release] at hs
  split_ifs at hs with hg
  simp only [not_or, Bool.not_eq_true, Bool.not_eq_false'] at hg
  obtain ⟨hrel, hrun, hunused⟩ := hg
  cases hs
  have hcur : s.walk.cursor ≠ some i := fun hc =>
    Bool.false_ne_true (hrun.symm.trans (hi.cursor i hc).1)
  refine hi.replace ⟨fun _ => rfl, fun _ h => ?_, fun _ _ => ?_, fun hc => absurd hc hcur,
    fun h w hop => ?_⟩ hi.listed.unlist (fun h => ?_) fun k hk _ hm => ?_
  · cases h
  · simp
  · -- a handle that is about to file the inode keeps it from being released
    obtain ⟨t, ht⟩ := Option.ne_none_iff_exists'.mp (hi.ops h i w hop).1
    have := List.all_eq_true.mp hunused h (List.mem_range.mpr (hi.quiet.lt_nextHandle ht))
    simp [hop] at this
  · cases h
  · have hki : k ≠ i := fun hki => Bool.false_ne_true (hk hki).symm
    cases hu : (s.inodes i).iTransaction with
    | none => exact hm
    | some u =>
      by_cases huf : s.commitTx = u
      · rw [huf] at hm ⊢
        rw [unlist, update_self]
        exact mem_todo_erase hm hki hcur
      · rwa [unlist, update_of_ne huf]

end Inv

end Ordered

end VMsep.Jbd2
