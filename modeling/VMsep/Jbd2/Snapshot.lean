import VMsep.Jbd2.WriteAhead

/-! What a commit has put in the log and what it will still write belong to the moment when the last
handle of its transaction stopped, as long as no handle moves a tag across the test of the commit
loop. -/

namespace VMsep.Jbd2

open Lib Function BufferHead List LogBlock

def CommitPhase.upToRecord (ph : CommitPhase) : Bool :=
  ph.busy && ph ≠ .forgetting && ph ≠ .callback

def LogBlock.restored (l : LogBlock) : Content :=
  if l.escaped then { l.data with word := jbd2MagicNumber } else l.data

namespace System

def logBlocks (s : System) : List LogBlock :=
  if s.j.phase.committing then (s.log (s.j.txs s.commitTx).tLogStart).blocks else []

/-- The `ino_sync` of the transaction to commit. -/
def commitIno (s : System) : ℕ := (s.j.txs s.commitTx).inoSync

/-- The block is on `t_buffers` of the transaction to commit, with the tag it is committed for. -/
def ToLog (s : System) (b : ℕ) : Prop :=
  (s.m.bufs b).place = some (s.commitTx, .metadata) ∧ (s.m.bufs b).jh.ino = s.commitIno

/-- The log of the commit in `s'` holds the blocks to log in `s` and nothing else, each once and
with the contents it has in `s`. -/
structure LogsSnapshot (s s' : System) : Prop where
  done : ∀ l ∈ s'.logBlocks, l.io = .done
  contents : ∀ l ∈ s'.logBlocks, l.restored = (s.m.bufs l.blocknr).bData
  blocks : ∀ b, b ∈ s'.logBlocks.map LogBlock.blocknr ↔ s.ToLog b
  nodup : (s'.logBlocks.map LogBlock.blocknr).Nodup

/-- A handle of the next transaction does not move the tag of a buffer on `t_buffers` of the
transaction to commit across the test of the commit loop. -/
def KeepsTags (s : System) : SysAct → Prop
  | .dirty _ b ino =>
    (s.m.bufs b).place = some (s.commitTx, .metadata) → (s.m.bufs b).jh.bModified = false →
      (ino = s.commitIno ↔ (s.m.bufs b).jh.ino = s.commitIno)
  | _ => True

instance (s : System) (b : ℕ) : Decidable (s.ToLog b) := by
  unfold ToLog
  infer_instance

instance (s : System) : ∀ a, Decidable (s.KeepsTags a)
  | .dirty .. => inferInstanceAs (Decidable (_ → _))
  | .proto .. | .accessBegin .. | .accessLock .. | .createBegin .. | .createLock ..
  | .accessCancel .. | .accessPut .. | .modify .. | .forget .. | .revoke .. | .revokeForget ..
  | .revokeInsert .. | .refileReserved | .clearRevoked | .switchRevoke | .writeRevokes
  | .deferUnfile | .deferFile | .releaseAborted | .write .. | .writeCopy .. | .copyFailed | .waitIo
  | .forgetBuffer | .ioDone .. | .writeback .. | .tryToFree .. | .cpQueue | .cpFlush | .cpIoRemove
  | .getblk .. | .discard .. => .isTrue trivial

end System

def BufferHead.toWrite (x : BufferHead) : Content := x.jh.bFrozenData.getD x.bData

/-- Buffer `b` and its log block, when the blocks in `D` are to be logged with contents `f` by
the commit of `T` for tag `v`. -/
structure SnapBuffer (D : ℕ → Prop) (f : ℕ → Content) (T v : ℕ) (blocks : List LogBlock) (b : ℕ)
    (x : BufferHead) : Prop where
  metadata : x.place = some (T, .metadata) →
    (x.jh.ino = v ↔ D b) ∧ x.toWrite = f b ∧
      (x.jh.bNextTransaction ≠ none → x.jh.bFrozenData ≠ none) ∧ ∀ l ∈ blocks, l.blocknr ≠ b
  logged : D b → x.place = some (T, .metadata) ∨ ∃ l ∈ blocks, l.blocknr = b
  entry : ∀ l ∈ blocks, l.blocknr = b → D b ∧ (l.io = .done → l.restored = f b) ∧
    (l.io ≠ .done → x.shadow = true ∧ x.jh.bFrozenData = l.copy ∧
      (l.copy = none → x.jh.bNextTransaction = none) ∧ (l.finish x.bData).restored = f b)

/-- The commit of `s.commitTx` is on its way to log the blocks in `D` with contents `f`. -/
structure Snap (D : ℕ → Prop) (f : ℕ → Content) (s : System) : Prop where
  zero : s.j.upd s.commitTx = 0
  nodup : (s.logBlocks.map LogBlock.blocknr).Nodup
  bufs : ∀ b, SnapBuffer D f s.commitTx s.commitIno s.logBlocks b (s.m.bufs b)
  copying : ∀ b, s.sub = .copying b → D b ∧ (s.m.bufs b).toWrite.word = jbd2MagicNumber

variable {D : ℕ → Prop} {f : ℕ → Content} {T v : ℕ} {blocks : List LogBlock} {b : ℕ}
  {x x' : BufferHead}

namespace SnapBuffer

theorem place_ne (hT : x.jh.bTransaction ≠ some T) (l : Jlist) : x.place ≠ some (T, l) :=
  fun hp => hT (place_eq_some_iff.mp hp).1

theorem place_ne_of_list {k : JournalHead} {l : Jlist} (hk : x.bPrivate = some k)
    (hl : k.bJlist = l) (hne : l ≠ .metadata) : x.place ≠ some (T, .metadata) := by
  intro hp
  have hm := (place_eq_some_iff.mp hp).2.1
  rw [jh_eq hk, hl] at hm
  exact hne hm

theorem place_ne_of_released {k : JournalHead} {p : Option JournalHead} {l l' : Jlist}
    {dirty jbd : Bool}
    (h : JournalHead.Released { k with bJlist := l, bTransaction := none } p) :
    ({ x with dirty := dirty, jbddirty := jbd, bPrivate := p } : BufferHead).place ≠
      some (T, l') := by
  refine place_ne (fun hT => ?_) _
  have hT' : (p.getD .zero).bTransaction = some T := hT
  exact absurd (h.tx.symm.trans hT') (by simp)

section

variable (h : SnapBuffer D f T v blocks b x)

include h

theorem of_written (hp : x.place ≠ some (T, .metadata)) (hs : x.shadow = false)
    (hp' : x'.place ≠ some (T, .metadata)) : SnapBuffer D f T v blocks b x' where
  metadata := fun h' => absurd h' hp'
  logged := fun hD => .inr ((h.logged hD).resolve_left hp)
  entry := fun l hl hlb => by
    obtain ⟨hD, hdone, hio⟩ := h.entry l hl hlb
    exact ⟨hD, hdone, fun hne => absurd (hs.symm.trans (hio hne).1) nofun⟩

theorem foreign {a : SysAct} {ph : CommitPhase} {sub : CommitSub} (hok : x.Ok ph sub T)
    (hfor : x.Foreign a b x') (hio : ∀ i, a ≠ .ioDone i)
    (htag : ∀ h i, a = .dirty h b i → x.place = some (T, .metadata) → x.jh.bModified = false →
      (i = v ↔ x.jh.ino = v)) : SnapBuffer D f T v blocks b x' := by
  have hplace : ∀ l, x'.place = some (T, l) ↔ x.place = some (T, l) := fun l => by
    rw [place_eq_some_iff, place_eq_some_iff, hfor.tx, hfor.jlist]
  have hshadow : x'.shadow = x.shadow :=
    hfor.shadow.resolve_right fun ⟨i, hi⟩ => hio i hi
  refine ⟨fun hp => ?_, fun hD => ?_, fun l hl hlb => ?_⟩
  · rw [hplace] at hp
    obtain ⟨hino, hwrite, hclaim, hblocks⟩ := h.metadata hp
    have hl := (place_eq_some_iff.mp hp).2.1
    refine ⟨?_, ?_, fun hn => ?_, hblocks⟩
    · rcases hfor.ino with hi | ⟨-, hmod, i, ha⟩
      · rw [hi, hino]
      · rw [htag i _ ha hp hmod, hino]
    · -- a claim on `t_buffers` comes with a copy, and only a claimed buffer is modified
      rw [← hwrite, toWrite, toWrite]
      rcases hfor.frozen with hf | ⟨hf, -, -, hf'⟩
      · rw [hf]
        rcases hfor.data with hd | hn
        · rw [hd]
        obtain ⟨c, hc⟩ := Option.ne_none_iff_exists'.mp (hclaim hn)
        rw [hc]
        rfl
      · rw [hf, hf']
        rfl
    · rcases hfor.next hn with hn' | hf | ⟨hne, -⟩
      · rcases hfor.frozen with hf | ⟨-, -, -, hf⟩
        · rw [hf]
          exact hclaim hn'
        · rw [hf]
          simp
      · exact hf
      · exact absurd hl hne
  · rw [hplace]
    exact h.logged hD
  · obtain ⟨hD, hdone, hpend⟩ := h.entry l hl hlb
    refine ⟨hD, hdone, fun hne => ?_⟩
    obtain ⟨hsh, hf, hcopy, hrest⟩ := hpend hne
    have hl := (hok.shadow (.inl hsh)).2.1
    have hf' : x'.jh.bFrozenData = l.copy := by
      rcases hfor.frozen with hf' | ⟨-, hmeta, -, -⟩
      · rw [hf', hf]
      · exact absurd (hl.symm.trans hmeta) (by simp)
    refine ⟨hshadow.trans hsh, hf', fun hnone => ?_, ?_⟩
    · -- a shadowed buffer without a copy is not claimed
      by_contra hn
      rcases hfor.next hn with hn' | hf'' | ⟨-, hs⟩
      · exact hn' (hcopy hnone)
      · exact hf'' (hf'.trans hnone)
      · exact absurd (hs.symm.trans hsh) (by simp)
    · rw [← hrest, finish, finish]
      cases hc : l.copy with
      | some => rfl
      | none => rw [hfor.data.resolve_right fun hn => hn (hcopy hc)]

theorem change_log {blocks' : List LogBlock}
    (hnr : blocks'.map LogBlock.blocknr = blocks.map LogBlock.blocknr)
    (hent : ∀ l' ∈ blocks', ∃ l ∈ blocks, l' = { l with io := l'.io } ∧
      (l'.io = .done ↔ l.io = .done)) : SnapBuffer D f T v blocks' b x := by
  have hmem : ∀ c, (∃ l ∈ blocks', l.blocknr = c) ↔ ∃ l ∈ blocks, l.blocknr = c := fun c => by
    rw [← mem_map, ← mem_map, hnr]
  refine ⟨fun hp => ?_, fun hD => (h.logged hD).imp id (hmem b).mpr, fun l' hl' hlb => ?_⟩
  · obtain ⟨h1, h2, h3, h4⟩ := h.metadata hp
    refine ⟨h1, h2, h3, fun l hl hlb => ?_⟩
    obtain ⟨l0, hl0, hlb0⟩ := (hmem b).mp ⟨l, hl, hlb⟩
    exact h4 l0 hl0 hlb0
  · obtain ⟨l, hl, heq, hdone⟩ := hent l' hl'
    rw [heq] at hlb ⊢
    obtain ⟨h1, h2, h3⟩ := h.entry l hl hlb
    exact ⟨h1, fun hd => h2 (hdone.mp hd), fun hd => h3 fun h0 => hd (hdone.mpr h0)⟩

theorem tag_other {l : LogBlock} (hl : l.blocknr ≠ b) : SnapBuffer D f T v (blocks ++ [l]) b x where
  metadata := fun hp => by
    obtain ⟨h1, h2, h3, h4⟩ := h.metadata hp
    refine ⟨h1, h2, h3, fun l' hl' => ?_⟩
    rcases mem_append.mp hl' with hl' | hl'
    · exact h4 l' hl'
    · rw [mem_singleton.mp hl']
      exact hl
  logged := fun hD => (h.logged hD).imp id fun ⟨l', hl', hlb⟩ =>
    ⟨l', mem_append_left _ hl', hlb⟩
  entry := fun l' hl' hlb => by
    rcases mem_append.mp hl' with hl' | hl'
    · exact h.entry l' hl' hlb
    · rw [mem_singleton.mp hl'] at hlb
      exact absurd hlb hl

theorem tag_self (hp : x.place = some (T, .metadata)) (hD : D b) {l : LogBlock}
    (hlb : l.blocknr = b) (hio : l.io ≠ .done) (hl : x'.jh.bJlist = .shadow)
    (hsh : x'.shadow = true) (hf : x'.jh.bFrozenData = l.copy)
    (hn : x'.jh.bNextTransaction = x.jh.bNextTransaction)
    (hnone : l.copy = none → x.jh.bFrozenData = none)
    (hrest : (l.finish x'.bData).restored = x.toWrite) :
    SnapBuffer D f T v (blocks ++ [l]) b x' := by
  obtain ⟨-, hwrite, hclaim, hblocks⟩ := h.metadata hp
  refine ⟨fun hp' => ?_, fun _ => .inr ⟨l, by simp, hlb⟩, fun l' hl' hlb' => ?_⟩
  · exact absurd (hl.symm.trans (place_eq_some_iff.mp hp').2.1) (by simp)
  rcases mem_append.mp hl' with hl' | hl'
  · exact absurd hlb' (hblocks l' hl')
  rw [mem_singleton.mp hl']
  refine ⟨hD, fun h => absurd h hio, fun _ => ⟨hsh, hf, fun hc => ?_, hrest.trans hwrite⟩⟩
  rw [hn]
  by_contra hne
  exact hclaim hne (hnone hc)

end

end SnapBuffer

theorem Snap.no_handle {s : System} (hi : Sound s) (h : Snap D f s) (i : ℕ) :
    s.txOf i ≠ some s.commitTx := by
  intro ht
  have hpos := hi.quiet.upd_pos (System.att_of_txOf ht)
  have hzero := h.zero
  omega

namespace System

variable {s s' : System} {a : SysAct} {j' : Journal} {m' : Memory} {i : ℕ} {l : LogBlock}

theorem logBlocks_calm (hj : s.j.Calm s'.j) (hlog : s'.log = s.log) :
    s'.logBlocks = s.logBlocks ∧ s'.commitTx = s.commitTx ∧ s'.commitIno = s.commitIno ∧
      s'.j.upd = s.j.upd := by
  obtain ⟨hcr, tcr, cps, heq⟩ := hj.frame
  refine ⟨?_, ?_, ?_, ?_⟩
  · simp only [logBlocks, commitTx, hlog, heq]
  · simp only [commitTx, heq]
  · simp only [commitIno, commitTx, heq]
  · rw [heq]
    rfl

theorem snap_foreign (hi : Sound s) (hab : s.j.jAborted = false) (h : s.Live a s')
    (hsnap : Snap D f s) (hbusy : s.j.phase.busy = true) (ha : a.commitWork = false)
    (hio : ∀ i, a ≠ .ioDone i) (hkeep : s.KeepsTags a) (b : ℕ) :
    SnapBuffer D f s.commitTx s.commitIno s.logBlocks b (s'.m.bufs b) := by
  have hok := (hi.placed hab).ok b
  by_cases hT : (s.m.bufs b).jh.bTransaction = some s.commitTx
  · refine (hsnap.bufs b).foreign hok (h.foreign hi hab hbusy (hsnap.no_handle hi) ha hT) hio ?_
    rintro i ino rfl
    exact hkeep
  · refine (hsnap.bufs b).of_written (SnapBuffer.place_ne hT _) (hok.plain hT).2.2.1 ?_
    exact SnapBuffer.place_ne (fun hT' => hT (h.enters hi hab hbusy (hsnap.no_handle hi) hT')) _

theorem snap_keep (hsnap : Snap D f s) (hj : s.j.Calm s'.j) (hlog : s'.log = s.log)
    (hbufs : ∀ b, SnapBuffer D f s.commitTx s.commitIno s.logBlocks b (s'.m.bufs b))
    (hcopy : ∀ b, s'.sub = .copying b →
      D b ∧ (s'.m.bufs b).toWrite.word = jbd2MagicNumber) : Snap D f s' := by
  obtain ⟨hblocks, hct, hino, hupd⟩ := logBlocks_calm hj hlog
  refine ⟨?_, ?_, ?_, hcopy⟩
  · rw [hupd, hct]
    exact hsnap.zero
  · rw [hblocks]
    exact hsnap.nodup
  · rw [hblocks, hct, hino]
    exact hbufs

theorem snap_store {b : ℕ} (hsnap : Snap D f s) (hm : s.m.Stores b x s'.m) (hj : s.j.Calm s'.j)
    (hlog : s'.log = s.log) (hsub : ∀ c, s'.sub ≠ .copying c)
    (hb : SnapBuffer D f s.commitTx s.commitIno s.logBlocks b x) : Snap D f s' :=
  snap_keep hsnap hj hlog
    (hm.forall_of (P := SnapBuffer D f s.commitTx s.commitIno s.logBlocks) hb hsnap.bufs)
    fun c hc => absurd hc (hsub c)

theorem logBlocks_tagBlock (s : System) (b : ℕ) (escaped full : Bool)
    (hph : s.j.phase.committing = true) : ∃ blocks, (s.tagBlock b escaped full).logBlocks = blocks ∧
      blocks.map LogBlock.blocknr = (s.logBlocks ++ [s.logBlock b escaped]).map LogBlock.blocknr ∧
      ∀ l' ∈ blocks, ∃ l ∈ s.logBlocks ++ [s.logBlock b escaped],
        l' = { l with io := l'.io } ∧ (l'.io = .done ↔ l.io = .done) := by
  have hold : s.logBlocks = (s.log (s.j.txs s.commitTx).tLogStart).blocks := if_pos hph
  have hnew : (s.tagBlock b escaped full).logBlocks =
      (((s.log (s.j.txs s.commitTx).tLogStart).tag (s.logBlock b escaped)).submitIf
        (s.submits full)).blocks := by
    refine (if_pos hph).trans ?_
    exact congrArg LogTx.blocks (update_self _ _ _)
  refine ⟨_, rfl, ?_, ?_⟩
  · rw [hnew, hold, LogTx.submitIf]
    split_ifs
    · simp only [LogTx.submit, LogTx.tag, map_map]
      refine map_congr_left fun l _ => ?_
      simp only [comp_apply]
      split_ifs <;> rfl
    · rfl
  · rw [hnew, hold, LogTx.submitIf]
    split_ifs
    · intro l' hl'
      obtain ⟨l, hl, rfl⟩ := mem_map.mp hl'
      refine ⟨l, hl, ?_⟩
      split_ifs with hio
      · exact ⟨rfl, by simp [hio]⟩
      · exact ⟨rfl, Iff.rfl⟩
    · exact fun l' hl' => ⟨l', hl', rfl, Iff.rfl⟩

theorem snap_tag {s1 : System} {b : ℕ} {x' : BufferHead} {escaped full : Bool}
    (hsnap : Snap D f s) (hj : s.j.Calm s1.j) (hlog : s1.log = s.log) (hm : s.m.Stores b x' s1.m)
    (hph : s1.j.phase.committing = true)
    (hplace : (s.m.bufs b).place = some (s.commitTx, .metadata)) (hD : D b)
    (hsub : ∀ c, s1.sub ≠ .copying c) (hl : x'.jh.bJlist = .shadow) (hsh : x'.shadow = true)
    (hf : x'.bPrivate.bind JournalHead.bFrozenData = x'.jh.bFrozenData)
    (hn : x'.jh.bNextTransaction = (s.m.bufs b).jh.bNextTransaction)
    (hnone : x'.jh.bFrozenData = none → (s.m.bufs b).jh.bFrozenData = none)
    (hrest : (if escaped then { x'.toWrite with word := jbd2MagicNumber } else x'.toWrite) =
      (s.m.bufs b).toWrite) : Snap D f (s1.tagBlock b escaped full) := by
  obtain ⟨hb1, hct, hino, hupd⟩ := logBlocks_calm hj hlog
  obtain ⟨blocks, hblocks, hnr, hent⟩ := logBlocks_tagBlock s1 b escaped full hph
  have hcopy : (s1.logBlock b escaped).copy = x'.jh.bFrozenData := by
    rw [← hf, ← hm.self]
    rfl
  refine ⟨?_, ?_, fun c => ?_, fun c hc => absurd hc (hsub c)⟩
  · change s1.j.upd s1.commitTx = 0
    rw [hupd, hct]
    exact hsnap.zero
  · rw [hblocks, hnr, hb1, map_append, nodup_append]
    refine ⟨hsnap.nodup, nodup_singleton _, ?_⟩
    intro c hc c' hc'
    obtain ⟨l, hl, rfl⟩ := mem_map.mp hc
    rw [mem_singleton.mp hc']
    exact ((hsnap.bufs b).metadata hplace).2.2.2 l hl
  · rw [hblocks]
    change SnapBuffer D f s1.commitTx s1.commitIno blocks c (s1.m.bufs c)
    rw [hct, hino]
    refine SnapBuffer.change_log ?_ hnr hent
    rw [hb1]
    refine hm.forall_of_ne (P := fun c x => SnapBuffer D f s.commitTx s.commitIno
      (s.logBlocks ++ [s1.logBlock b escaped]) c x) ?_ (fun c hc => ?_) c
    · refine (hsnap.bufs b).tag_self hplace hD rfl (by intro h; cases h) hl hsh hcopy.symm hn
        (fun hc => hnone (hcopy.symm.trans hc)) ?_
      rw [← hrest]
      simp only [restored, finish, hcopy]
      rfl
    · exact (hsnap.bufs c).tag_other (Ne.symm hc)

theorem logBlocks_after {c : Act} (hi : Sound s) (hab : s.j.jAborted = false)
    (hbusy : s.j.phase.busy = true) (hj : s.j.step c = some j') (hup : j'.phase.upToRecord = true) :
    ({ s.after c with j := j' } : System).logBlocks = s.logBlocks := by
  have hsp := Journal.step_spine hj
  have hct := Journal.commitTransaction_eq hj hbusy
  have hstart : s.j.event c ≠ .commit .switchTransaction →
      (j'.txs j'.commitTransaction).tLogStart = (s.j.txs s.commitTx).tLogStart := fun he => by
    rw [hct]
    exact (hsp.commit_fields hi.quiet.pointers hbusy).2 he
  -- a section that keeps the log and does not set `j_committing_transaction`
  have keep : s.j.event c ≠ .commit .switchTransaction → (s.after c).log = s.log →
      j'.phase.committing = s.j.phase.committing →
      ({ s.after c with j := j' } : System).logBlocks = s.logBlocks := by
    intro he hlog hcom
    change (if j'.phase.committing then ((s.after c).log _).blocks else []) = _
    rw [hcom, hlog, logBlocks]
    change (if _ then (s.log (j'.txs j'.commitTransaction).tLogStart).blocks else []) = _
    rw [hstart he]
  by_cases hc : ∃ d, c = .commit d
  · obtain ⟨d, rfl⟩ := hc
    obtain ⟨hsrc, htgt⟩ := (Journal.commitStep_spine hj).phases
    have hsrc : s.j.phase = d.source := hsrc
    have htgt : j'.phase = d.target ∨ d = .lockDown ∧ j'.phase = .waitUpdates := htgt
    cases d with
    | kjournald | destroy | restoreSuperblock | allocNew =>
      rw [hsrc] at hbusy
      cases hbusy
    | callback | finish | updateTail =>
      rw [htgt.resolve_right (by simp)] at hup
      cases hup
    | switchTransaction =>
      have hnew : (j'.txs j'.commitTransaction).tLogStart = s.j.jHead := by
        simp only [Journal.step, Journal.commitStep, Journal.switchTransaction] at hj
        split_ifs at hj
        cases hj
        simp [Journal.setTx]
      have hidle : s.logBlocks = [] := by
        rw [logBlocks, hsrc]
        rfl
      rw [hidle, logBlocks]
      change (if j'.phase.committing then
        (update s.log s.j.jHead _ (j'.txs j'.commitTransaction).tLogStart).blocks
        else []) = []
      rw [hnew, update_self]
      exact ite_self _
    | record =>
      have hph := htgt.resolve_right (by simp)
      have hafter : (s.after (.commit .record)).log =
          update s.log (s.j.txs s.commitTx).tLogStart
            { s.log (s.j.txs s.commitTx).tLogStart with committed := true } := by
        simp only [after, hab, Bool.false_eq_true, if_false]
        rfl
      rw [logBlocks, logBlocks, hsrc]
      change (if j'.phase.committing then ((s.after (.commit .record)).log
        (j'.txs j'.commitTransaction).tLogStart).blocks else []) = _
      rw [hph, hafter, hstart (by intro h; cases h), update_self]
      rfl
    | lockDown =>
      refine keep (by intro h; cases h) rfl ?_
      rcases htgt with h | ⟨-, h⟩ <;> rw [h, hsrc] <;> rfl
    | wakeUpdates | setCommit | getTail | install | setJflush | credit =>
      refine keep (by intro h; cases h) rfl ?_
      rw [htgt.resolve_right (by simp), hsrc]
      rfl
  · have hc' : ∀ d, c ≠ .commit d := fun d hd => hc ⟨d, hd⟩
    refine keep (Journal.event_ne_commit hc' _) (by rw [after_of_not_commit hc']) ?_
    rw [(Journal.step_phase hj hc').1]

theorem snap_after {c : Act} (hi : Sound s) (hab : s.j.jAborted = false)
    (hbusy : s.j.phase.busy = true) (hready : s.ready c = true) (hj : s.j.step c = some j')
    (hup : j'.phase.upToRecord = true) (hsnap : Snap D f s) :
    Snap D f { s.after c with j := j' } := by
  have hsp := Journal.step_spine hj
  have hct := Journal.commitTransaction_eq hj hbusy
  have hino : ({ s.after c with j := j' } : System).commitIno = s.commitIno := by
    change (j'.txs j'.commitTransaction).inoSync = _
    rw [hct]
    exact (hsp.commit_fields hi.quiet.pointers hbusy).1
  refine ⟨?_, ?_, fun b => ?_, fun b hb => ?_⟩
  · change j'.upd j'.commitTransaction = 0
    rw [hct]
    exact hi.quiet.upd_zero hbusy hsnap.zero hj
  · rw [logBlocks_after hi hab hbusy hj hup]
    exact hsnap.nodup
  · rw [logBlocks_after hi hab hbusy hj hup, hino]
    change SnapBuffer D f j'.commitTransaction _ _ b ((s.after c).m.bufs b)
    rw [hct, after_m]
    exact hsnap.bufs b
  · by_cases hc : ∃ d, c = .commit d
    · obtain ⟨d, rfl⟩ := hc
      exact absurd ((sub_after_commit hi.sub hready hj).symm.trans hb) (by simp)
    · rw [after_of_not_commit fun d hd => hc ⟨d, hd⟩] at hb ⊢
      exact hsnap.copying b hb

theorem logBlocks_setBlock (hph : s.j.phase.committing = true) :
    ({ s.mapLog fun t => t.setBlock i l with m := m' } : System).logBlocks =
      s.logBlocks.set i l := by
  have hold : s.logBlocks = (s.log (s.j.txs s.commitTx).tLogStart).blocks := if_pos hph
  rw [hold]
  refine (if_pos hph).trans ?_
  change (update s.log (s.j.txs s.commitTx).tLogStart
    ((s.log (s.j.txs s.commitTx).tLogStart).setBlock i l) (s.j.txs s.commitTx).tLogStart).blocks = _
  rw [update_self]
  rfl

theorem mem_set_of_nodup {blocks : List LogBlock} {l' l0 : LogBlock}
    (hnodup : (blocks.map LogBlock.blocknr).Nodup) (hl : blocks[i]? = some l)
    (h0 : l0 ∈ blocks.set i l') : l0 = l' ∨ l0 ∈ blocks ∧ l0.blocknr ≠ l.blocknr := by
  obtain ⟨n, hn⟩ := mem_iff_getElem?.mp h0
  rw [getElem?_set] at hn
  split_ifs at hn with hin hlt
  · exact .inl (Option.some.inj hn).symm
  refine .inr ⟨mem_of_getElem? hn, fun heq => hin ?_⟩
  have hi : (blocks.map blocknr)[i]? = some l.blocknr := by
    rw [getElem?_map, hl]
    rfl
  have hn' : (blocks.map blocknr)[n]? = some l0.blocknr := by
    rw [getElem?_map, hn]
    rfl
  exact (getElem?_inj (List.getElem?_eq_some_iff.mp hi).1 hnodup).mp
    (by rw [hi, hn', heq])

theorem snap_ioDone (hl : s.logBlocks[i]? = some l) (hph : s.j.phase.committing = true)
    (hio : l.io = .submitted)
    (hm : s.m.Stores l.blocknr { s.m.bufs l.blocknr with shadow := false } m')
    (hsnap : Snap D f s) : Snap D f
      { s.mapLog fun t => t.setBlock i (l.finish (s.m.bufs l.blocknr).bData) with m := m' } := by
  have hnr : (s.logBlocks.set i (l.finish (s.m.bufs l.blocknr).bData)).map blocknr =
      s.logBlocks.map blocknr := by
    rw [map_set]
    refine ext_getElem? fun n => ?_
    rw [getElem?_set]
    split_ifs with hin hlt
    · rw [← hin, getElem?_map, hl]
      rfl
    · rw [getElem?_eq_none (by omega)]
    · rfl
  have hmem : l ∈ s.logBlocks := mem_of_getElem? hl
  obtain ⟨hD, -, hpend⟩ := (hsnap.bufs l.blocknr).entry l hmem rfl
  obtain ⟨-, -, -, hrest⟩ := hpend (by simp [hio])
  have hset : ∀ c, (∃ l0 ∈ s.logBlocks.set i (l.finish (s.m.bufs l.blocknr).bData),
      l0.blocknr = c) ↔ ∃ l0 ∈ s.logBlocks, l0.blocknr = c := fun c => by
    rw [← mem_map, ← mem_map, hnr]
  -- no buffer changes in more than its shadow bit
  have hsame : ∀ c, m'.bufs c = { s.m.bufs c with shadow := (m'.bufs c).shadow } := by
    intro c
    by_cases hc : c = l.blocknr
    · rw [hc, hm.self]
    · rw [hm.of_ne hc]
  refine ⟨hsnap.zero, ?_, fun c => ?_, fun c hc => ?_⟩
  · rw [logBlocks_setBlock hph, hnr]
    exact hsnap.nodup
  · rw [logBlocks_setBlock hph]
    change SnapBuffer D f s.commitTx s.commitIno _ c (m'.bufs c)
    refine ⟨fun hp => ?_, fun hDc => ?_, fun l0 h0 h0c => ?_⟩
    · rw [hsame c] at hp ⊢
      obtain ⟨g1, g2, g3, g4⟩ := (hsnap.bufs c).metadata hp
      refine ⟨g1, g2, g3, fun l0 h0 h0c => ?_⟩
      obtain ⟨l1, hl1, hl1c⟩ := (hset c).mp ⟨l0, h0, h0c⟩
      exact g4 l1 hl1 hl1c
    · rw [hsame c]
      exact ((hsnap.bufs c).logged hDc).imp id (hset c).mpr
    · rcases mem_set_of_nodup hsnap.nodup hl h0 with rfl | ⟨hin, hne⟩
      · subst h0c
        exact ⟨hD, fun _ => hrest, fun h => absurd rfl h⟩
      subst h0c
      rw [hm.of_ne hne]
      exact (hsnap.bufs l0.blocknr).entry l0 hin rfl
  · obtain ⟨hDc, hw⟩ := hsnap.copying c hc
    refine ⟨hDc, ?_⟩
    change (m'.bufs c).toWrite.word = _
    rw [hsame c]
    exact hw

theorem logBlocks_mapLog (rv : Revoke) (c : CommitSub) (hph : s.j.phase.committing = true)
    (g : LogTx → LogTx) (hg : ∀ l, (g l).blocks = l.blocks := by exact fun _ => rfl) :
    ({ s.mapLog g with rv := rv, sub := c } : System).logBlocks = s.logBlocks := by
  refine (if_pos hph).trans (Eq.trans ?_ (if_pos hph).symm)
  change (update s.log (s.j.txs s.commitTx).tLogStart
    (g (s.log (s.j.txs s.commitTx).tLogStart)) (s.j.txs s.commitTx).tLogStart).blocks = _
  rw [update_self, hg]

theorem place_of {b t : ℕ} {k : JournalHead} (hk : (s.m.bufs b).bPrivate = some k)
    (htx : k.bTransaction = some t) (hl : k.bJlist = .metadata) :
    (s.m.bufs b).place = some (t, .metadata) := by
  rw [place_eq_some_iff, jh_eq hk]
  exact ⟨htx, hl, (by simp)⟩

/-- The block that is logged holds what the buffer is to be written with. -/
theorem snap_write {b : ℕ} {k : JournalHead} {g : Option Content} {escaped full : Bool}
    {m' : Memory} {j' : Journal} (hsnap : Snap D f s) (hk : (s.m.bufs b).bPrivate = some k)
    (hph : s.j.phase = .logging) (hsub : s.sub = .idle) (htag : s.tagMatches k = true)
    (htx : k.bTransaction = some s.commitTx) (hl : k.bJlist = .metadata)
    (hf : k.bFrozenData = none ∧ g = none ∧ escaped = false ∧
        (s.m.bufs b).bData.word ≠ jbd2MagicNumber ∨
      ∃ c, k.bFrozenData = some c ∧
        (c.word = jbd2MagicNumber ∧ escaped = true ∧ g = some { c with word := 0 } ∨
          c.word ≠ jbd2MagicNumber ∧ escaped = false ∧ g = some c))
    (hj : s.j.Calm j')
    (hm : s.m.Stores b { s.m.bufs b with
      shadow := true, bPrivate := some { k with bFrozenData := g, bJlist := .shadow } } m') :
    Snap D f ({ s with j := j', m := m' }.tagBlock b escaped full) := by
  have hplace := place_of hk htx hl
  have hph' : j'.phase.committing = true := by
    obtain ⟨hcr, tcr, cps, rfl⟩ := hj.frame
    exact congrArg CommitPhase.committing hph
  have hD : D b := ((hsnap.bufs b).metadata hplace).1.mp (by
    rw [jh_eq hk]
    exact of_decide_eq_true htag)
  refine snap_tag hsnap hj rfl hm hph' hplace hD
    (fun c hc => absurd (hsub.symm.trans hc) (by simp)) rfl rfl rfl
    (by rw [jh_eq hk]; rfl) ?_ ?_
  · rw [jh_eq hk]
    rcases hf with ⟨h0, -, -, -⟩ | ⟨c, -, ⟨-, -, hc⟩ | ⟨-, -, hc⟩⟩
    · exact fun _ => h0
    all_goals exact fun h => absurd (hc.symm.trans h) (by simp)
  · rw [toWrite, toWrite, jh_eq hk]
    rcases hf with ⟨h0, rfl, rfl, -⟩ | ⟨c, h0, ⟨hw, rfl, rfl⟩ | ⟨-, rfl, rfl⟩⟩
    · rw [h0]
      rfl
    · rw [h0]
      exact congrArg (fun w => { c with word := w }) hw.symm
    · rw [h0]
      rfl

/-- Every step up to the commit record keeps what is to be logged. -/
theorem Live.snap (hi : Sound s) (hab : s.j.jAborted = false) (h : s.Live a s')
    (hkeep : s.KeepsTags a) (hup : s.j.phase.upToRecord = true)
    (hup' : s'.j.phase.upToRecord = true) (hsnap : Snap D f s) : Snap D f s' := by
  have hbusy : s.j.phase.busy = true := by
    simp only [CommitPhase.upToRecord, Bool.and_eq_true] at hup
    exact hup.1.1
  have hp := hi.placed hab
  -- a step of another thread that leaves the log alone
  have foreign : a.commitWork = false → (∀ i, a ≠ .ioDone i) → s.j.Calm s'.j →
      s'.log = s.log → s'.sub = s.sub → Snap D f s' := by
    intro ha hio hj hlog hsub
    have hbufs := snap_foreign hi hab h hsnap hbusy ha hio hkeep
    refine snap_keep hsnap hj hlog hbufs fun b hb => ?_
    have hb' : s.sub = .copying b := hsub ▸ hb
    obtain ⟨hD, hw⟩ := hsnap.copying b hb'
    have h1 := ((hsnap.bufs b).metadata (hp.copying b hb')).2.1
    have h2 := ((hbufs b).metadata (by
      rw [h.copying hi hab b hb, (logBlocks_calm hj hlog).2.1])).2.1
    rw [h2, ← h1]
    exact ⟨hD, hw⟩
  cases h with
  | proto hready hj => exact snap_after hi hab hbusy hready hj hup' hsnap
  | accessBegin ha => rcases ha with rfl | rfl <;> exact foreign rfl (by simp) .same rfl rfl
  | accessGranted ha | accessFile ha | accessClaim ha =>
    rcases ha with ⟨_, rfl, -⟩ | ⟨rfl, -⟩ <;> exact foreign rfl (by simp) .same rfl rfl
  | accessRetry | accessCancel | accessPut | modify | revokeFails | revoke | revokeInsert | cpQueue
  | cpFlushClean | getblk | discard => exact foreign rfl (by simp) .same rfl rfl
  | dirty _ _ _ hj | dirtyFails _ hj => exact foreign rfl (by simp) hj rfl rfl
  | forgetBare ha _ hj | forgetOwn ha _ hj | forgetUnfile ha _ hj | forgetOther ha _ hj =>
    rcases ha with rfl | ⟨rfl, -⟩ <;> exact foreign rfl (by simp) hj rfl rfl
  | uncheckpoint ha _ hj => rcases ha with rfl | rfl <;> exact foreign rfl (by simp) hj rfl rfl
  | writeHome ha => rcases ha with rfl | rfl <;> exact foreign rfl (by simp) .same rfl rfl
  | clearRevoked | switchRevoke => exact snap_keep hsnap .same rfl hsnap.bufs (by simp)
  | writeRevokes hph =>
    have hblocks := logBlocks_mapLog (s := s) s.rv.dropOther .revokesWritten (by rw [hph]; rfl)
      fun l => { l with revokes := Revoke.blocks s.rv.other }
    refine ⟨hsnap.zero, ?_, ?_, (by simp)⟩
    · rw [hblocks]
      exact hsnap.nodup
    · rw [hblocks]
      exact hsnap.bufs
  | @unreserve b _ _ _ hk _ hsub _ hl _ hrel hm =>
    have hok := (hp.ok b).of hk
    refine snap_store hsnap hm .same rfl (fun c hc => absurd (hsub.symm.trans hc) (by simp)) ?_
    exact (hsnap.bufs b).of_written (SnapBuffer.place_ne_of_list hk hl (by simp))
      (hok.shadow_false (by simp [hl])) (SnapBuffer.place_ne_of_released hrel)
  | @deferUnfile b _ _ _ hk _ _ _ htag htx hl _ _ hrel hm =>
    refine snap_store hsnap hm .same rfl (by simp) ?_
    obtain ⟨hino, -, -, hblocks⟩ := (hsnap.bufs b).metadata (place_of hk htx hl)
    rw [jh_eq hk] at hino
    exact ⟨fun h' => absurd h' (SnapBuffer.place_ne_of_released hrel),
      fun hD => absurd (hino.mpr hD) (of_decide_eq_false htag),
      fun l hl hlb => absurd hlb (hblocks l hl)⟩
  | @deferFile b _ _ _ _ hk htx hm =>
    have hne : s.j.runningTransaction ≠ s.commitTx :=
      ne_of_gt (hi.quiet.pointers.order (s := s.j.spine) hbusy).1
    have hT : (s.m.bufs b).jh.bTransaction ≠ some s.commitTx := by
      rw [jh_eq hk]
      rcases htx with htx | htx <;> rw [htx]
      · simp
      · simpa using hne
    refine snap_store hsnap hm .same rfl (by simp) ?_
    refine (hsnap.bufs b).of_written (SnapBuffer.place_ne hT _) ((hp.ok b).plain hT).2.2.1 ?_
    refine SnapBuffer.place_ne (fun h => hne ?_) _
    exact Option.some.inj h
  | write hk hph hsub _ htag htx hl _ hf hj hm =>
    exact snap_write hsnap hk hph hsub htag htx hl hf hj hm
  | @writeNeedsCopy b _ _ _ hk _ _ _ htag htx hl _ hf hw hj =>
    refine snap_keep hsnap hj rfl hsnap.bufs fun c hc => ?_
    obtain rfl : b = c := CommitSub.copying.inj hc
    have hjh := jh_eq hk
    refine ⟨((hsnap.bufs b).metadata (place_of hk htx hl)).1.mp ?_, ?_⟩
    · rw [hjh]
      exact of_decide_eq_true htag
    change (s.m.bufs b).toWrite.word = _
    rw [toWrite, hjh, hf]
    exact hw
  | @writeCopy b k _ _ hk hph hsub htx hl hm =>
    obtain ⟨hD, hw⟩ := hsnap.copying b hsub
    refine snap_tag hsnap .same rfl hm (by rw [hph]; rfl)
      (place_of hk htx hl) hD (by simp) rfl rfl rfl
      (by rw [jh_eq hk]; rfl) (by intros; contradiction) ?_
    have hwrite : (s.m.bufs b).toWrite = k.bFrozenData.getD (s.m.bufs b).bData := by
      rw [toWrite, jh_eq hk]
    rw [hwrite] at hw ⊢
    exact congrArg (fun w => { k.bFrozenData.getD (s.m.bufs b).bData with word := w }) hw.symm
  | @waitIo b _ _ hk hph _ hl _ hsh hm =>
    refine snap_store hsnap hm .same rfl (fun c hc => ?_) ?_
    · have hsub := hi.sub
      rw [hph, show s.sub = .copying c from hc] at hsub
      cases hsub
    · exact (hsnap.bufs b).of_written (SnapBuffer.place_ne_of_list hk hl (by simp)) hsh
        (SnapBuffer.place_ne_of_list rfl rfl (by simp))
  | forgetRelease _ hph | forgetRefile _ hph =>
    rw [hph] at hup
    cases hup
  | ioDone _ hcom hio hm =>
    have hph : s.j.phase.committing = true := by
      have hptr : s.j.jCommittingTransaction =
          if s.j.phase.committing then some s.commitTx else none := hi.quiet.pointers.committing
      rw [hcom] at hptr
      by_contra hne
      rw [if_neg hne] at hptr
      cases hptr
    exact snap_ioDone (by rwa [logBlocks, if_pos hph]) hph hio hm hsnap

end System

end VMsep.Jbd2
