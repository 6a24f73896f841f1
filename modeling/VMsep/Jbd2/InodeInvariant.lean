import VMsep.Jbd2.Inodes

/-! A filing of an inode is settled once its data was submitted and waited for in the commit of its
transaction; until then the inode waits on a list, or is claimed by the transaction, with the flags
set. The actions of the protocol keep this. -/

namespace VMsep.Jbd2

open Lib Journal

/-- Where the walk over `t_inode_list` can be in each phase. -/
def CommitPhase.walkOk : CommitPhase → InodeWalk → Bool
  | .flushing, .submit _ => true
  | .flushing, .wait none => true
  | .logging, .wait _ => true
  | .flushing, _ => false
  | _, .done => true
  | _, _ => false

def InodeWalk.cursor : InodeWalk → Option ℕ
  | .submit c | .wait c => c
  | .done => none

theorem Spine.Step.mem_records {s s' : Spine} {e : Event} (hs : s.Step e s') {t : ℕ}
    (ht : t ∈ s'.records) : t ∈ s.records ∨ t = s.commitTx ∧ s.phase = .jflush := by
  cases hs with
  | client h => cases h <;> exact .inl ht
  | create | noCleanup | cleanup => exact .inl ht
  | commit h =>
    cases h with
    | record hph =>
      change t ∈ if s.aborted then s.records else s.records ++ [s.commitTx] at ht
      split_ifs at ht
      · exact .inl ht
      · rw [List.mem_append, List.mem_singleton] at ht
        exact ht.imp id fun h => ⟨h, hph⟩
    | _ => exact .inl ht

/-- No pointer leads to a transaction with a commit record, but `j_committing_transaction`. -/
structure Spine.RecordsPast (s : Spine) : Prop where
  running : ∀ t ∈ s.records, s.running ≠ some t
  next : s.phase.busy = true → s.nextRunning ∉ s.records
  known : ∀ t ∈ s.records, t < s.nextTx

theorem Spine.RecordsPast.create {s : Spine} (h : s.RecordsPast) : s.create.RecordsPast where
  running := fun t ht heq => (h.known t ht).ne (Option.some.inj heq).symm
  next := h.next
  known := fun t ht => (h.known t ht).trans (Nat.lt_succ_self _)

theorem Spine.RecordsPast.step {s s' : Spine} {e : Event} (h : s.RecordsPast) (hp : Pointers s)
    (hs : s.Step e s') : s'.RecordsPast := by
  cases hs with
  | client hc => cases hc <;> exact ⟨h.running, h.next, h.known⟩
  | create => exact h.create
  | noCleanup => exact h
  | cleanup => exact ⟨h.running, h.next, h.known⟩
  | commit hc =>
    cases hc with
    | record hph =>
      have hb : s.phase.busy = true := by rw [hph]; rfl
      have hord := hp.order hb
      have hmem : ∀ t, t ∈ (if s.aborted then s.records else s.records ++ [s.commitTx]) →
          t ∈ s.records ∨ t = s.commitTx := fun t ht => by
        split_ifs at ht
        · exact .inl ht
        · simpa using ht
      refine ⟨fun t ht => ?_, fun _ ht => ?_, fun t ht => ?_⟩
      · rcases hmem t ht with ht | rfl
        · exact h.running t ht
        · exact fun hrun => hp.running_ne_commitTx hb hrun rfl
      · exact (hmem _ ht).elim (h.next hb) hord.1.ne'
      · rcases hmem t ht with ht | rfl
        · exact h.known t ht
        · exact hord.1.trans hord.2
    | allocNew =>
      have hc := h.create
      exact ⟨hc.running, fun _ ht => (h.known _ ht).ne rfl, hc.known⟩
    | install hph =>
      have hb : s.phase.busy = true := by rw [hph]; rfl
      exact ⟨fun t ht heq => h.next hb (Option.some.inj heq ▸ ht), fun _ => h.next hb, h.known⟩
    | switchTransaction hph =>
      exact ⟨fun _ _ => (by simp), fun _ => h.next (by rw [hph]; rfl), h.known⟩
    | credit => exact h
    | lockDown hph | wakeUpdates hph | setCommit hph | getTail hph | setJflush hph
    | keepTail hph | updateTail hph | finish hph =>
      exact ⟨h.running, fun _ => h.next (by rw [hph]; rfl), h.known⟩
    | kjournald | destroy | ready | restoreSuperblock | callback =>
      exact ⟨h.running, (by intros; contradiction), h.known⟩

/-- A transaction with a commit record has no handle and gets none. -/
structure RecordsQuiet (j : Journal) : Prop where
  upd : ∀ t ∈ j.commitRecords, j.upd t = 0
  past : j.spine.RecordsPast

theorem RecordsQuiet.step {j j' : Journal} {a : Act} (hr : RecordsQuiet j) (hi : QuietInv j)
    (hs : j.step a = some j') : RecordsQuiet j' := by
  have hsp := step_spine hs
  refine ⟨fun t ht => ?_, hr.past.step hi.pointers hsp⟩
  rcases hsp.mem_records ht with hold | ⟨rfl, hph⟩
  · have hzero := hr.upd t hold
    cases step_attachment hs with
    | same _ hupd | start _ hupd => rw [hupd, hzero]
    | create _ hupd =>
      have hlt : t < j.nextTx := hr.past.known t hold
      rw [hupd, Function.update_of_ne hlt.ne, hzero]
    | join _ u _ hrun _ _ _ hupd =>
      have hne : t ≠ u := fun heq => hr.past.running t hold (heq ▸ hrun)
      rw [hupd, Function.update_of_ne hne, hzero]
    | leave _ u hatt0 _ hupd =>
      have hne : t ≠ u := by
        rintro rfl
        have := hi.upd_pos hatt0
        omega
      rw [hupd, Function.update_of_ne hne, hzero]
  · have hph : j.phase = .jflush := hph
    exact hi.upd_zero (by rw [hph]; rfl) (hi.quiet (by rw [hph]; rfl)) hs

namespace Ordered

def Settled (s : Ordered) (f : Filing) : Prop :=
  (f.write = true → (f.tx, f.inode) ∈ s.submitted) ∧ (f.tx, f.inode) ∈ s.waited

def Pending (s : Ordered) (f : Filing) : Prop :=
  (s.inodes f.inode).hasFlags f.write = true ∧ (s.inodes f.inode).on f.tx = true

def Walked (s : Ordered) (f : Filing) : Prop :=
  match s.walk with
  | .submit c => f.write = true →
    (f.tx, f.inode) ∈ s.submitted ∨ f.inode ∈ todo (s.tInodeList f.tx) c
  | .wait c => (f.write = true → (f.tx, f.inode) ∈ s.submitted) ∧
    ((f.tx, f.inode) ∈ s.waited ∨ f.inode ∈ todo (s.tInodeList f.tx) c)
  | .done => s.Settled f

structure FilingOk (s : Ordered) (f : Filing) : Prop where
  somewhere : s.Settled f ∨ s.Pending f
  walked : f.tx = s.commitTx → s.j.phase.committing = true → s.Walked f
  recorded : f.tx ∈ s.j.commitRecords → s.Settled f

structure Inv (s : Ordered) : Prop where
  quiet : QuietInv s.j
  records : RecordsQuiet s.j
  walkOk : s.j.phase.walkOk s.walk = true
  listed : Listed (fun i => (s.inodes i).iTransaction) s.tInodeList
  released : ∀ i, (s.inodes i).released = true → (s.inodes i).iTransaction = none
  next : ∀ i r, (s.inodes i).released = false → (s.inodes i).iNextTransaction = some r →
    (s.inodes i).iTransaction = some s.commitTx ∧ s.j.phase.committing = true ∧
      s.walk ≠ .done ∧ r ≠ s.commitTx
  emptied : s.j.phase.committing = true → s.walk = .done →
    ∀ i, (s.inodes i).iTransaction ≠ some s.commitTx
  cursor : ∀ c, s.walk.cursor = some c → (s.inodes c).commitRunning = true ∧
    (s.inodes c).released = false ∧ (s.inodes c).iTransaction = some s.commitTx
  ops : ∀ h i w, s.ops h = some (i, w) →
    s.j.att h ≠ none ∧ (s.inodes i).released = false
  filings : ∀ f ∈ s.filed, (s.inodes f.inode).released = false → s.FilingOk f

variable {s s' : Ordered} {c : Act} {j' : Journal}

theorem walk_proto (hok : s.j.phase.walkOk s.walk = true) (hw : s.walk ≠ .done)
    (hready : s.ready c = true) (hj : s.j.step c = some j') :
    j'.commitTransaction = s.commitTx ∧ s.j.phase.committing = true ∧
      j'.phase.committing = true ∧ j'.phase.walkOk s.walk = true ∧
      c ≠ .commit .switchTransaction := by
  have hph : s.j.phase = .flushing ∨ s.j.phase = .logging := by
    cases hp : s.j.phase <;> cases hw' : s.walk <;> rw [hp, hw'] at hok <;>
      first | exact .inl rfl | exact .inr rfl | exact absurd hw' hw | cases hok
  have hcom : s.j.phase.committing = true := by rcases hph with h | h <;> rw [h] <;> rfl
  have hct := commitTransaction_eq hj
    (CommitPhase.quiet_busy (CommitPhase.quiet_of_committing hcom))
  refine ⟨hct, hcom, ?_⟩
  by_cases hd : ∃ d, c = .commit d
  · obtain ⟨d, rfl⟩ := hd
    have hsp := commitStep_spine hj
    have hsrc : s.j.phase = d.source := hsp.phases.1
    have htgt : j'.phase = d.target ∨ d = .lockDown ∧ j'.phase = .waitUpdates := hsp.phases.2
    cases d with
    | setCommit =>
      have hwalk : s.walk = .wait none := of_decide_eq_true hready
      have hph' : j'.phase = .logging := htgt.resolve_right (by simp)
      rw [hwalk, hph']
      exact ⟨rfl, rfl, (by simp)⟩
    | credit =>
      have hph' : j'.phase = .logging := htgt.resolve_right (by simp)
      rw [hph']
      rw [hsrc] at hok
      exact ⟨rfl, hok, (by simp)⟩
    | getTail => exact absurd (of_decide_eq_true hready) hw
    | _ => rcases hph with h | h <;> exact absurd (hsrc.symm.trans h) (by intro h; cases h)
  · have hne : ∀ d, c ≠ .commit d := fun d h => hd ⟨d, h⟩
    obtain ⟨hph', -⟩ := step_phase hj hne
    rw [hph']
    exact ⟨hcom, hok, hne _⟩

theorem committing_proto (hj : s.j.step c = some j') (hc : c ≠ .commit .switchTransaction)
    (hcom : j'.phase.committing = true) : s.j.phase.committing = true := by
  by_cases hd : ∃ d, c = .commit d
  · obtain ⟨d, rfl⟩ := hd
    have hsp := commitStep_spine hj
    have hsrc : s.j.phase = d.source := hsp.phases.1
    have htgt : j'.phase = d.target ∨ d = .lockDown ∧ j'.phase = .waitUpdates := hsp.phases.2
    rw [hsrc]
    rcases htgt with h | ⟨rfl, h⟩ <;> rw [h] at hcom
    · cases d <;> first | rfl | exact absurd rfl hc | cases hcom
    · cases hcom
  · rw [(step_phase hj fun d h => hd ⟨d, h⟩).1] at hcom
    exact hcom

theorem walkOk_proto (hok : s.j.phase.walkOk s.walk = true) (hready : s.ready c = true)
    (hj : s.j.step c = some j') :
    j'.phase.walkOk (if c = .commit .switchTransaction then .submit none else s.walk) = true := by
  by_cases hw : s.walk = .done
  · by_cases hc : c = .commit .switchTransaction
    · subst hc
      have hsp := commitStep_spine (a := .switchTransaction) hj
      have hph : j'.phase = .flushing := hsp.phases.2.resolve_right (by simp)
      rw [hph, if_pos rfl]
      rfl
    · rw [if_neg hc, hw]
      rw [hw] at hok
      by_cases hfl : j'.phase = .flushing
      · have hph : s.j.phase = .flushing := by
          by_cases hd : ∃ d, c = .commit d
          · obtain ⟨d, rfl⟩ := hd
            have hsp := commitStep_spine hj
            have htgt : j'.phase = d.target ∨ d = .lockDown ∧ j'.phase = .waitUpdates :=
              hsp.phases.2
            rw [hfl] at htgt
            cases d <;> simp [CommitAct.target] at htgt hc
          · rwa [(step_phase hj fun d h => hd ⟨d, h⟩).1] at hfl
        rw [hph] at hok
        cases hok
      · cases hp : j'.phase <;> first | rfl | exact absurd hp hfl
  · obtain ⟨-, -, -, h, hc⟩ := walk_proto hok hw hready hj
    rwa [if_neg hc]

theorem Walked.mono {f : Filing} (h : s.Walked f) (hw : s'.walk = s.walk)
    (hsub : s'.submitted = s.submitted) (hwai : s'.waited = s.waited)
    (htodo : f.inode ∈ todo (s.tInodeList f.tx) s.walk.cursor →
      f.inode ∈ todo (s'.tInodeList f.tx) s.walk.cursor) : s'.Walked f := by
  unfold Walked at h ⊢
  rw [hw, hsub, hwai]
  cases hwalk : s.walk with
  | submit =>
    simp only [hwalk] at h htodo ⊢
    exact fun hwr => (h hwr).imp id htodo
  | wait =>
    simp only [hwalk] at h htodo ⊢
    exact ⟨h.1, h.2.imp id htodo⟩
  | done =>
    simp only [hwalk] at h ⊢
    unfold Settled
    rw [hsub, hwai]
    exact h

namespace Inv

theorem mem_of_pending (hi : Inv s) {f : Filing} (hf : s.Pending f) (htx : f.tx = s.commitTx)
    (hrel : (s.inodes f.inode).released = false) : f.inode ∈ s.tInodeList f.tx := by
  rw [hi.listed.mem_iff]
  rcases of_decide_eq_true hf.2 with h | h
  · exact h
  · exact absurd htx (hi.next _ _ hrel h).2.2.2

theorem filing_proto (hi : Inv s) (hj : s.j.step c = some j')
    {f : Filing} (hrel : (s.inodes f.inode).released = false) (hf : s.FilingOk f) :
    FilingOk { s with
      j := j', walk := if c = .commit .switchTransaction then .submit none else s.walk } f where
  somewhere := hf.somewhere
  walked := fun htx hcom => by
    by_cases hc : c = .commit .switchTransaction
    · have hct : j'.commitTransaction = s.commitTx :=
        ((step_spine hj).commitTx_eq (by rw [hc]; simp [event])).1
      rw [Walked, if_pos hc]
      intro hw
      rcases hf.somewhere with h | h
      · exact .inl (h.1 hw)
      · exact .inr (hi.mem_of_pending h (htx.trans hct) hrel)
    · have hcom0 := committing_proto hj hc hcom
      have hct : j'.commitTransaction = s.commitTx := commitTransaction_eq hj
        (CommitPhase.quiet_busy (CommitPhase.quiet_of_committing hcom0))
      have := hf.walked (htx.trans hct) hcom0
      rw [if_neg hc]
      exact this
  recorded := fun hrec => by
    rcases (step_spine hj).mem_records hrec with hold | ⟨htx, hph⟩
    · exact hf.recorded hold
    have hph : s.j.phase = .jflush := hph
    have hwalk : s.walk = .done := by
      have hok := hi.walkOk
      rw [hph] at hok
      cases hw : s.walk <;> rw [hw] at hok <;> first | rfl | cases hok
    have := hf.walked htx (by rw [hph]; rfl)
    rwa [Walked, hwalk] at this

theorem proto (hi : Inv s) (hready : s.ready c = true) (hj : s.j.step c = some j') :
    Inv { s with
      j := j', walk := if c = .commit .switchTransaction then .submit none else s.walk } where
  quiet := hi.quiet.step hj
  records := hi.records.step hi.quiet hj
  walkOk := walkOk_proto hi.walkOk hready hj
  listed := hi.listed
  released := hi.released
  next := fun i r hrel hr => by
    obtain ⟨htx, -, hw, hne⟩ := hi.next i r hrel hr
    obtain ⟨hct, -, hcom', -, hc⟩ := walk_proto hi.walkOk hw hready hj
    rw [if_neg hc]
    refine ⟨htx.trans (congrArg some hct.symm), hcom', hw, ?_⟩
    exact fun h => hne (h.trans hct)
  emptied := fun hcom hw i => by
    have hc : c ≠ .commit .switchTransaction := by
      intro hc
      rw [if_pos hc] at hw
      cases hw
    rw [if_neg hc] at hw
    have hcom0 := committing_proto hj hc hcom
    have hct : j'.commitTransaction = s.commitTx := commitTransaction_eq hj
      (CommitPhase.quiet_busy (CommitPhase.quiet_of_committing hcom0))
    have := hi.emptied hcom0 hw i
    rw [← hct] at this
    exact this
  cursor := fun d hd => by
    have hw : s.walk ≠ .done := by
      intro hw
      split_ifs at hd
      · cases hd
      · rw [hw] at hd
        cases hd
    obtain ⟨hct, -, -, -, hc⟩ := walk_proto hi.walkOk hw hready hj
    rw [if_neg hc] at hd
    obtain ⟨h1, h2, h3⟩ := hi.cursor d hd
    exact ⟨h1, h2, h3.trans (congrArg some hct.symm)⟩
  ops := fun h i w hop => by
    obtain ⟨hatt, hrel⟩ := hi.ops h i w hop
    refine ⟨?_, hrel⟩
    obtain ⟨t, ht⟩ := Option.ne_none_iff_exists'.mp hatt
    have hbusy : ∀ {d}, c = .handle d → (d = .stop h ∨ ∃ n, d = .restart h n) → False := by
      rintro d rfl (rfl | ⟨n, rfl⟩) <;>
        exact absurd ((of_decide_eq_true hready).symm.trans hop) (by simp)
    rw [hi.quiet.toUpdatesInv.att_kept hj ht (fun hc => (hbusy hc (.inl rfl)).elim)
      fun n hc => (hbusy hc (.inr ⟨n, rfl⟩)).elim]
    simp
  filings := fun f hf hrel => hi.filing_proto hj hrel (hi.filings f hf hrel)
end Inv

end Ordered

end VMsep.Jbd2
