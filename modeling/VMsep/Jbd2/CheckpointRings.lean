import VMsep.Jbd2.JournalHeadRings

/-! A journal head does not say whether it is on `t_checkpoint_list` or on `t_checkpoint_io_list`;
`__buffer_unlink` looks at both pointers. -/

namespace VMsep.Jbd2

open Lib Function Option

variable {h : Heap} {m : Memory} {b t : ℕ} {x : BufferHead} {lists : ℕ × Bool → List ℕ}
  {place : ℕ → Option (ℕ × Bool)}

namespace Memory

theorem cpLists_checkpoint (m : Memory) (b t : ℕ) :
    (m.checkpoint b t).cpLists = push m.cpLists b (t, false) := by
  funext ⟨u, io⟩
  unfold cpLists checkpoint push
  cases io with
  | false =>
    by_cases hu : u = t
    · simp [hu]
    · simp [hu]
  | true => simp

theorem cpLists_uncheckpoint (hl : Listed place m.cpLists)
    {io : Bool} (hb : place b = some (t, io)) :
    (m.uncheckpoint b (some t)).cpLists = unlist m.cpLists b (some (t, io)) := by
  have hother : b ∉ m.cpLists (t, !io) := by
    rw [hl.mem_iff, hb]
    simp
  funext ⟨u, io'⟩
  by_cases hu : u = t
  · subst hu
    by_cases hio : io' = io
    · subst hio
      cases io' <;> simp [cpLists, uncheckpoint, unlist]
    obtain rfl : io' = !io := by
      cases io <;> cases io' <;> simp_all
    have hne : (u, !io) ≠ (u, io) := by simp
    rw [unlist, update_of_ne hne]
    cases io with
    | false =>
      simp only [cpLists, uncheckpoint, Bool.not_false, if_true, update_self] at hother ⊢
      exact List.erase_of_not_mem hother
    | true =>
      simp only [cpLists, uncheckpoint, Bool.not_true, Bool.false_eq_true, if_false,
        update_self] at hother ⊢
      exact List.erase_of_not_mem hother
  · have hne : (u, io') ≠ (t, io) := by simp [hu]
    rw [unlist, update_of_ne hne]
    cases io' <;> simp [cpLists, uncheckpoint, hu]

theorem cpLists_relinkIo (hl : Listed place m.cpLists) (hb : place b = some (t, false)) :
    (m.relinkIo b t).cpLists = push (unlist m.cpLists b (some (t, false))) b (t, true) := by
  rw [← cpLists_uncheckpoint hl hb]
  funext ⟨u, io⟩
  unfold push
  cases io with
  | false => simp [cpLists, relinkIo]
  | true =>
    by_cases hu : u = t
    · simp [cpLists, relinkIo, hu]
    · simp [cpLists, relinkIo, hu]

end Memory

namespace Heap

def SameButCheckpoint (h h' : Heap) : Prop :=
  h'.bufs = h.bufs ∧ h'.bTnext = h.bTnext ∧ h'.bTprev = h.bTprev ∧ h'.list = h.list ∧
    h'.tNrBuffers = h.tNrBuffers

theorem checkpointAdd_spec (hr : Rings h.bCpnext h.bCpprev h.checkpoint lists)
    (hl : Listed place lists) (hb : place b = none) (k : ℕ × Bool) :
    ∃ h', h.checkpointAdd k b = some h' ∧
      Rings h'.bCpnext h'.bCpprev h'.checkpoint (push lists b k) ∧ SameButCheckpoint h h' := by
  unfold checkpointAdd
  cases hhead : h.checkpoint k with
  | none =>
    obtain ⟨hnil, hrings⟩ := hr.linkFirst hl hb hhead
    refine ⟨_, rfl, ?_, rfl, rfl, rfl, rfl, rfl⟩
    rw [push, hnil]
    exact hrings
  | some =>
    obtain ⟨z, hz, -, hrings⟩ := hr.linkNext hl hb hhead
    simp only [hz, map_some]
    exact ⟨_, rfl, hrings, rfl, rfl, rfl, rfl, rfl⟩

theorem checkpointSkip_of_ne {k : ℕ × Bool} {n : ℕ} (hk : h.checkpoint k ≠ some b) :
    h.checkpointSkip k b n = h :=
  if_neg hk

section

variable (hr : Rings h.bCpnext h.bCpprev h.checkpoint lists)

include hr

theorem checkpointCut_spec (hl : Listed place lists) {k : ℕ × Bool} (hb : place b = some k) :
    ∃ n h', h.checkpointCut b = some (n, h') ∧ h'.checkpoint = h.checkpoint ∧
      Rings (h'.checkpointSkip k b n).bCpnext (h'.checkpointSkip k b n).bCpprev
        (h'.checkpointSkip k b n).checkpoint (unlist lists b (some k)) ∧
      SameButCheckpoint h (h'.checkpointSkip k b n) := by
  obtain ⟨n, z, hn, hz, hrings⟩ := hr.unlink hl hb
  unfold checkpointCut
  simp only [hn, hz, bind_some, map_some]
  refine ⟨n, _, rfl, rfl, ?_⟩
  unfold checkpointSkip
  by_cases hfront : h.checkpoint k = some b
  · rw [if_pos hfront] at hrings
    rw [if_pos hfront]
    exact ⟨hrings, rfl, rfl, rfl, rfl, rfl⟩
  · rw [if_neg hfront] at hrings
    rw [if_neg hfront]
    exact ⟨hrings, rfl, rfl, rfl, rfl, rfl⟩

theorem checkpoint_ne (hl : Listed place lists) {k k' : ℕ × Bool} (hb : place b = some k)
    (hne : k' ≠ k) : h.checkpoint k' ≠ some b := by
  intro hhead
  rw [hr.heads k'] at hhead
  have hmem := (hl.mem_iff k' b).mp (List.mem_of_mem_head? hhead)
  rw [hb] at hmem
  exact hne (some.inj hmem).symm

theorem bufferUnlink_spec (hl : Listed place lists) {io : Bool} (hb : place b = some (t, io)) :
    ∃ h', h.bufferUnlink t b = some h' ∧
      Rings h'.bCpnext h'.bCpprev h'.checkpoint (unlist lists b (some (t, io))) ∧
      SameButCheckpoint h h' := by
  obtain ⟨n, h1, hcut, hsame, hrings, hframe⟩ := checkpointCut_spec hr hl hb
  unfold bufferUnlink
  rw [hcut, map_some]
  dsimp only
  refine ⟨_, rfl, ?_⟩
  cases io with
  | false =>
    have hio : (h1.checkpointSkip (t, false) b n).checkpoint (t, true) ≠ some b := by
      have hkey : (t, true) ≠ (t, false) := by simp
      have hne := checkpoint_ne hr hl hb hkey
      rw [← hsame] at hne
      unfold checkpointSkip
      by_cases hfront : h1.checkpoint (t, false) = some b
      · rw [if_pos hfront]
        change update h1.checkpoint _ _ _ ≠ _
        rwa [update_of_ne (by simp)]
      · rwa [if_neg hfront]
    rw [checkpointSkip_of_ne hio]
    exact ⟨hrings, hframe⟩
  | true =>
    have hfirst : h1.checkpoint (t, false) ≠ some b := by
      rw [hsame]
      exact checkpoint_ne hr hl hb (by simp)
    rw [checkpointSkip_of_ne hfirst]
    exact ⟨hrings, hframe⟩

end

end Heap

namespace Rep

open Heap

theorem recheckpoint {h' : Heap} {m' : Memory} (R : Rep h m)
    (hsame : SameButCheckpoint (h.setBuf b x) h') (hplace : x.place = (m.bufs b).place)
    (hun : x.Unfiled) (hbufs : m'.bufs = update m.bufs b x) (hlists : m'.lists = m.lists)
    (hnr : m'.tNrBuffers = m.tNrBuffers) (hr : Rings h'.bCpnext h'.bCpprev h'.checkpoint m'.cpLists)
    (hcp : ∃ place, Listed place m'.cpLists ∧
      ∀ c, (place c).map Prod.fst = (update m.bufs b x c).cp) : Rep h' m' := by
  obtain ⟨f1, f2, f3, f4, f5⟩ := hsame
  have hmem : ∀ P : BufferHead → BufferHead → Prop, P x (m.bufs b) →
      (∀ c, P (m.bufs c) (m.bufs c)) → ∀ c, P (m'.bufs c) (m.bufs c) := by
    intro P hself hother c
    rw [hbufs]
    by_cases hc : c = b
    · subst hc
      rwa [update_self]
    · rw [update_of_ne hc]
      exact hother c
  refine ⟨?_, ?_, ⟨?_, ?_⟩, ?_, ?_, hr, ?_⟩
  · rw [f1, hbufs, ← R.bufs]
    rfl
  · rw [f5, hnr, ← R.nr]
    rfl
  · rw [hlists]
    exact R.filed.listed.congr (hmem (fun y z => y.place = z.place) hplace fun c => rfl)
  · intro u
    rw [hlists, hnr]
    exact R.filed.nr u
  · exact hmem (fun y _ => y.Unfiled) hun R.unfiled
  · rw [f2, f3, f4, hlists]
    exact R.rings
  · rw [hbufs]
    exact hcp

theorem cpPlace (hcp : ∀ c, (place c).map Prod.fst = (m.bufs c).cp) :
    ((m.bufs b).cp = none → place b = none) ∧
      ((m.bufs b).cp = some t → ∃ io, place b = some (t, io)) := by
  constructor
  · intro hnone
    have := hcp b
    rw [hnone, map_eq_none_iff] at this
    exact this
  · intro hsome
    have := hcp b
    rw [hsome, map_eq_some_iff] at this
    obtain ⟨⟨u, io⟩, hplace, rfl⟩ := this
    exact ⟨io, hplace⟩

theorem cpPlace_update (hcp : ∀ c, (place c).map Prod.fst = (m.bufs c).cp)
    {q : Option (ℕ × Bool)} (hq : q.map Prod.fst = x.cp) (c : ℕ) :
    (update place b q c).map Prod.fst = (update m.bufs b x c).cp := by
  by_cases hc : c = b
  · subst hc
    rw [update_self, update_self, hq]
  · rw [update_of_ne hc, update_of_ne hc, hcp]

theorem insertCheckpoint (R : Rep h m) (t : ℕ) : Option.Rel Rep (h.insertCheckpoint b t)
      ((m.apply b (BufferHead.insertCheckpoint t)).map fun m => m.checkpoint b t) := by
  unfold Heap.insertCheckpoint Memory.apply BufferHead.insertCheckpoint
  rw [R.bufs]
  cases hjh : (m.bufs b).bPrivate with
  | none => exact .none
  | some jh =>
    dsimp only
    split_ifs with hbad
    · exact .none
    push Not at hbad
    obtain ⟨place, hl, hcp⟩ := R.cpListed
    have hcpb : (m.bufs b).cp = none := by rw [BufferHead.cp, hjh, bind_some, hbad.2]
    have hnone := (cpPlace (b := b) (t := t) hcp).1 hcpb
    generalize hx : ({ m.bufs b with bPrivate := some { jh with
      bJcount := jh.bJcount + 1, bCpTransaction := some t } } : BufferHead) = x
    obtain ⟨h', heq, hrings, hsame⟩ := checkpointAdd_spec (h := h.setBuf b x) R.cpRings hl hnone
      (t, false)
    have hplace : x.place = (m.bufs b).place := by simp [← hx, BufferHead.place, hjh]
    have hlists : (m.put b x).lists = m.lists := by
      simp only [Memory.put, hplace, relist, if_true]
    rw [bind_some, heq]
    refine .some (R.recheckpoint hsame hplace ?_ rfl hlists ?_ ?_ ?_)
    · intro k hk ht
      rw [← hx] at hk
      cases hk
      exact R.unfiled b jh hjh ht
    · funext u
      simp only [Memory.checkpoint, Memory.put, hplace]
      omega
    · rw [Memory.cpLists_checkpoint]
      exact hrings
    · rw [Memory.cpLists_checkpoint]
      exact ⟨_, hl.push hnone (t, false), cpPlace_update hcp (by simp [← hx, BufferHead.cp])⟩

theorem checkpointed_iff (R : Rep h m) (t : ℕ) :
    m.checkpointed t = true ↔ h.checkpoint (t, false) = none ∧ h.checkpoint (t, true) = none := by
  rw [R.cpRings.heads, R.cpRings.heads, List.head?_eq_none_iff, List.head?_eq_none_iff]
  simp [Memory.checkpointed, Memory.cpLists]

theorem removeCheckpoint (R : Rep h m) (finished : Bool) :
    Option.Rel Rep (h.removeCheckpoint finished b) (m.headStep (.removeCheckpoint finished b)) := by
  unfold Heap.removeCheckpoint Memory.headStep Memory.apply BufferHead.removeCheckpoint
  have hbufs : ∀ o, (m.uncheckpoint b o).bufs = m.bufs := fun o => by cases o <;> rfl
  dsimp only
  rw [R.bufs, hbufs]
  cases hjh : (m.bufs b).bPrivate with
  | none => exact .none
  | some jh =>
    dsimp only
    cases hcpt : jh.bCpTransaction with
    | none =>
      have hcpb : (m.bufs b).cp = none := by rw [BufferHead.cp, hjh, bind_some, hcpt]
      simp only [hcpb, if_true, map_some, bind_some, Memory.uncheckpoint, Memory.put_bufs]
      exact .some R
    | some t =>
      have hcpb : (m.bufs b).cp = some t := by rw [BufferHead.cp, hjh, bind_some, hcpt]
      obtain ⟨place, hl, hcp⟩ := R.cpListed
      obtain ⟨io, hio⟩ := (cpPlace (b := b) (t := t) hcp).2 hcpb
      obtain ⟨h1, heq, hrings, hsame⟩ := bufferUnlink_spec R.cpRings hl hio
      simp only [hcpb, reduceCtorEq, if_false]
      rw [heq, bind_some]
      unfold Heap.mapJh BufferHead.mapJh
      have hb1 : h1.bufs b = m.bufs b := by rw [hsame.1, R.bufs]
      rw [hb1, hjh, map_some]
      generalize hx : ({ m.bufs b with
        bPrivate := some { jh with bCpTransaction := none } } : BufferHead) = x
      have hplace : x.place = (m.bufs b).place := by simp [← hx, BufferHead.place, hjh]
      have hlists : ((m.uncheckpoint b (some t)).put b x).lists = m.lists := by
        simp only [Memory.put, hbufs, hplace, relist, if_true]
        rfl
      have hR1 : Rep (h1.setBuf b x) ((m.uncheckpoint b (some t)).put b x) := by
        obtain ⟨f1, f2⟩ := hsame
        refine R.recheckpoint (b := b) (x := x) ⟨?_, f2⟩ hplace ?_ ?_ hlists ?_ ?_ ?_
        · change update h1.bufs b x = update h.bufs b x
          rw [f1]
        · intro k hk ht
          rw [← hx] at hk
          cases hk
          exact R.unfiled b jh hjh ht
        · rfl
        · funext u
          simp only [Memory.put, hbufs, hplace]
          change m.tNrBuffers u + _ - _ = _
          omega
        · change Rings _ _ _ (m.uncheckpoint b (some t)).cpLists
          rw [Memory.cpLists_uncheckpoint hl hio]
          exact hrings
        · change ∃ place, Listed place (m.uncheckpoint b (some t)).cpLists ∧ _
          rw [Memory.cpLists_uncheckpoint hl hio, ← hio]
          exact ⟨_, hl.unlist, cpPlace_update hcp (by simp [← hx, BufferHead.cp])⟩
      refine rel_bind hR1.putJournalHeadAt fun h2 m2 _ _ hR2 => ?_
      have hdone := hR2.checkpointed_iff t
      by_cases hleft : h2.checkpoint (t, false) ≠ none ∨ h2.checkpoint (t, true) ≠ none
      · have hnot : ¬ m2.checkpointed t = true := by
          rw [hdone]
          tauto
        rw [if_pos hleft, if_neg fun hh => hnot hh.1]
        exact .some hR2
      · rw [if_neg hleft]
        push Not at hleft
        have hyes := hdone.mpr hleft
        unfold dropTransaction
        simp only [hR2.rings.heads, List.head?_eq_none_iff]
        cases finished with
        | false =>
          rw [if_neg (by simp), if_neg (by simp)]
          exact .some hR2
        | true =>
          by_cases hempty : m2.lists (t, .metadata) = [] ∧ m2.lists (t, .forget) = [] ∧
              m2.lists (t, .shadow) = []
          · rw [if_pos rfl, if_pos hempty, if_neg fun hh => hh.2.2 hempty]
            exact .some hR2
          · rw [if_pos rfl, if_neg hempty, if_pos ⟨hyes, rfl, hempty⟩]
            exact .none

theorem bufferRelinkIo (R : Rep h m) (t : ℕ) :
    Option.Rel Rep (h.bufferRelinkIo t) (m.headStep (.relinkIo t)) := by
  unfold Heap.bufferRelinkIo Memory.headStep
  dsimp only
  have hhead : h.checkpoint (t, false) = (m.tCheckpointList t).head? := R.cpRings.heads (t, false)
  rw [hhead]
  cases hfirst : (m.tCheckpointList t).head? with
  | none => exact .none
  | some b =>
    obtain ⟨place, hl, hcp⟩ := R.cpListed
    have hb : place b = some (t, false) :=
      (hl.mem_iff (t, false) b).mp (List.mem_of_mem_head? hfirst)
    obtain ⟨n, h1, hcut, -, hrings, f1, f2, f3, f4, f5⟩ := checkpointCut_spec R.cpRings hl hb
    have hun := hl.unlist (a := b)
    rw [hb] at hun
    obtain ⟨h2, hadd, hrings', g1, g2, g3, g4, g5⟩ := checkpointAdd_spec hrings hun
      (update_self b none place) (t, true)
    rw [bind_some, hcut, bind_some, map_some]
    rw [hadd]
    refine .some (R.recheckpoint (b := b) (x := m.bufs b) ?_ rfl (R.unfiled b) ?_ rfl rfl ?_ ?_)
    · refine ⟨?_, g2.trans f2, g3.trans f3, g4.trans f4, g5.trans f5⟩
      rw [g1, f1]
      change h.bufs = update h.bufs b (m.bufs b)
      rw [← R.bufs, update_eq_self]
    · rw [update_eq_self]
      rfl
    · rw [Memory.cpLists_relinkIo hl hb]
      exact hrings'
    · rw [Memory.cpLists_relinkIo hl hb]
      refine ⟨_, hun.push (update_self b none place) (t, true), ?_⟩
      rw [update_idem]
      refine cpPlace_update hcp ?_
      rw [← hcp b, hb]
      rfl

theorem addJournalHead (R : Rep h m) :
    Rep (h.addJournalHead b) (m.put b (m.bufs b).addJournalHead) := by
  unfold Heap.addJournalHead
  cases hjh : (m.bufs b).bPrivate with
  | none =>
    obtain ⟨place, hl, hcp⟩ := R.cpListed
    have hnone := (cpPlace (b := b) (t := 0) hcp).1 (by simp [BufferHead.cp, hjh])
    have hplace : (m.bufs b).place = none := by simp [BufferHead.place, hjh]
    have R1 : Rep { h with
        bTnext := update h.bTnext b none
        bTprev := update h.bTprev b none
        bCpnext := update h.bCpnext b none
        bCpprev := update h.bCpprev b none } m :=
      ⟨R.bufs, R.nr, R.filed, R.unfiled, R.rings.detached R.filed.listed hplace none none,
        R.cpRings.detached hl hnone none none, R.cpListed⟩
    rw [if_pos (by rw [R.bufs, hjh])]
    dsimp only
    rw [show h.bufs b = m.bufs b by rw [R.bufs]]
    refine R1.keep ?_ ?_ ?_
    · simp [BufferHead.place, BufferHead.addJournalHead, hjh, JournalHead.zero]
    · simp [BufferHead.cp, BufferHead.addJournalHead, hjh, JournalHead.zero]
    · intro k hk _
      simp only [BufferHead.addJournalHead, hjh, getD_none, some.injEq] at hk
      rw [← hk]
      rfl
  | some jh =>
    have hold : ¬ (h.bufs b).bPrivate = none := by simp [R.bufs, hjh]
    rw [if_neg hold]
    dsimp only
    rw [R.bufs]
    refine R.keep ?_ ?_ ?_
    · simp [BufferHead.place, BufferHead.addJournalHead, hjh]
    · simp [BufferHead.cp, BufferHead.addJournalHead, hjh]
    · intro k hk ht
      simp only [BufferHead.addJournalHead, hjh, getD_some, some.injEq] at hk
      rw [← hk] at ht ⊢
      exact R.unfiled b jh hjh ht

theorem mapJh_kept {f : JournalHead → JournalHead} (hun : x.Unfiled)
    (hf : ∀ k, (f k).bTransaction = k.bTransaction ∧ (f k).bJlist = k.bJlist ∧
      (f k).bCpTransaction = k.bCpTransaction) :
    (x.mapJh f).place = x.place ∧ (x.mapJh f).cp = x.cp ∧ (x.mapJh f).Unfiled := by
  unfold BufferHead.Unfiled at hun ⊢
  unfold BufferHead.place BufferHead.cp BufferHead.mapJh
  cases hjh : x.bPrivate with
  | none => simp
  | some jh =>
    obtain ⟨h1, h2, h3⟩ := hf jh
    simp only [map_some, h1, h2, bind_some, h3, true_and]
    intro k hk ht
    cases hk
    rw [h2]
    exact hun jh hjh (h1 ▸ ht)

theorem grabJournalHead (R : Rep h m) : Rep (h.grabJournalHead b) (m.put b (m.bufs b).grab) := by
  have heq : h.grabJournalHead b = h.setBuf b (m.bufs b).grab := by
    unfold Heap.grabJournalHead BufferHead.grab BufferHead.mapJh
    cases hjh : (m.bufs b).bPrivate with
    | none =>
      rw [R.bufs, hjh]
      dsimp only
      rw [map_none, ← hjh]
      unfold Heap.setBuf
      rw [← R.bufs, update_eq_self]
    | some =>
      rw [R.bufs, hjh]
      rfl
  obtain ⟨hplace, hcp, hun⟩ := mapJh_kept (f := fun jh => { jh with bJcount := jh.bJcount + 1 })
    (R.unfiled b) fun k => ⟨rfl, rfl, rfl⟩
  rw [heq]
  exact R.keep hplace hcp hun

theorem touch (R : Rep h m) (dirty jbddirty modified : Bool) (frozen : Option Content)
    (next : Option ℕ) : Rep (h.setBuf b ((h.bufs b).touch dirty jbddirty modified frozen next))
      (m.put b ((m.bufs b).touch dirty jbddirty modified frozen next)) := by
  obtain ⟨hplace, hcp, hun⟩ := mapJh_kept (f := fun jh => { jh with
    bModified := modified, bFrozenData := frozen, bNextTransaction := next })
    (R.unfiled b) fun k => ⟨rfl, rfl, rfl⟩
  rw [R.bufs]
  exact R.keep hplace hcp hun

/-- A step on the rings is a step on the lists. -/
theorem step (R : Rep h m) (a : HeadAct) : Option.Rel Rep (h.step a) (m.headStep a) := by
  cases a with
  | file aborted _ t jlist => exact R.fileBuffer aborted t jlist
  | unlinkFile aborted _ t jlist =>
    exact rel_bind (R.tempUnlinkBuffer aborted) fun h1 m1 _ _ R1 => R1.fileBuffer aborted t jlist
  | unfile aborted => exact R.unfileBuffer aborted
  | refile aborted running freed => exact R.refileBuffer aborted running freed
  | insertCheckpoint _ t => exact R.insertCheckpoint t
  | removeCheckpoint finished => exact R.removeCheckpoint finished
  | relinkIo t => exact R.bufferRelinkIo t
  | add => exact .some R.addJournalHead
  | grab => exact .some R.grabJournalHead
  | put => exact R.putJournalHead
  | touch _ dirty jbddirty modified frozen next =>
    exact .some (R.touch dirty jbddirty modified frozen next)

end Rep

end VMsep.Jbd2
