import VMsep.Jbd2.System
import VMsep.Jbd2.Quiet

/-! One inversion lemma for the step function of the system, and its projection to the protocol:
every step is a section of the protocol, or leaves the journal alone up to credits and the list of
transactions to checkpoint, or aborts it. -/

namespace VMsep.Jbd2

open Lib Function Memory Jbd2.System Option

/-- The changes of the journal that come with work on buffers. -/
inductive Journal.Calm (j : Journal) : Journal → Prop
  | same : j.Calm j
  | useCredit {h : ℕ} {j' : Journal} (hs : j.useCredit h = some j') : j.Calm j'
  | returnCredit {h : ℕ} {j' : Journal} (hs : j.returnCredit h = some j') : j.Calm j'
  | logCredit {j' : Journal} (hs : j.commitCredit = some j') : j.Calm j'
  | drop {t : ℕ} {j' : Journal} (hs : j.dropCheckpoint t = some j') : j.Calm j'

namespace Journal.Calm

variable {j j' : Journal}

theorem of_credit {h : ℕ} {c : Bool} (hj : j' = if c then (j.useCredit h).getD j else j) :
    j.Calm j' := by
  subst hj
  split_ifs
  · cases hs : j.useCredit h with
    | none => exact .same
    | some => exact .useCredit hs
  · exact .same

theorem of_return {h : ℕ} {c : Bool} (hj : j' = if c then (j.returnCredit h).getD j else j) :
    j.Calm j' := by
  subst hj
  split_ifs
  · cases hs : j.returnCredit h with
    | none => exact .same
    | some => exact .returnCredit hs
  · exact .same

theorem of_drop (h : j' = j ∨ ∃ t, j.dropCheckpoint t = some j') : j.Calm j' := by
  obtain rfl | ⟨t, ht⟩ := h
  · exact .same
  · exact .drop ht

theorem moves (h : j.Calm j') : j' = j ∨ ∃ a, j.step a = some j' := by
  cases h with
  | same => exact .inl rfl
  | @useCredit h _ hs => exact .inr ⟨.handle (.useCredit h), hs⟩
  | @returnCredit h _ hs => exact .inr ⟨.handle (.returnCredit h), hs⟩
  | logCredit hs => exact .inr ⟨.commit .credit, hs⟩
  | @drop t _ hs => exact .inr ⟨.dropCheckpoint t, hs⟩

theorem setCredits_eq (j : Journal) (h : ℕ) (g : Handle → ℕ) :
    j.setHandle h (fun x => { x with hBufferCredits := g x }) =
      { j with handles := fun i => { j.handles i with
          hBufferCredits :=
            if i = h then g (j.handles h) else (j.handles i).hBufferCredits } } := by
  simp only [Journal.setHandle]
  congr 1
  funext i
  by_cases hi : i = h
  · subst hi
    simp
  · simp [hi]

theorem setTxCredits_eq (j : Journal) (t : ℕ) (g : Transaction → ℤ) :
    j.setTx t (fun x => { x with tOutstandingCredits := g x }) =
      { j with txs := fun i => { j.txs i with
          tOutstandingCredits :=
            if i = t then g (j.txs t) else (j.txs i).tOutstandingCredits } } := by
  simp only [Journal.setTx]
  congr 1
  funext i
  by_cases hi : i = t
  · subst hi
    simp
  · simp [hi]

theorem frame (h : j.Calm j') : ∃ (hcr : ℕ → ℕ) (tcr : ℕ → ℤ) (cps : List ℕ),
      j' = { j with
        handles := fun h => { j.handles h with hBufferCredits := hcr h }
        txs := fun t => { j.txs t with tOutstandingCredits := tcr t }
        jCheckpointTransactions := cps } := by
  cases h with
  | same => exact ⟨fun h => (j.handles h).hBufferCredits, fun t => (j.txs t).tOutstandingCredits,
      j.jCheckpointTransactions, rfl⟩
  | useCredit hs | returnCredit hs =>
    simp only [Journal.useCredit, Journal.returnCredit] at hs
    split_ifs at hs
    cases hs
    rw [setCredits_eq]
    exact ⟨_, fun t => (j.txs t).tOutstandingCredits, j.jCheckpointTransactions, rfl⟩
  | logCredit hs =>
    simp only [Journal.commitCredit] at hs
    split_ifs at hs
    cases hs
    rw [setTxCredits_eq]
    exact ⟨fun h => (j.handles h).hBufferCredits, _, j.jCheckpointTransactions, rfl⟩
  | drop hs =>
    simp only [Journal.dropCheckpoint] at hs
    split_ifs at hs
    cases hs
    exact ⟨fun h => (j.handles h).hBufferCredits, fun t => (j.txs t).tOutstandingCredits, _, rfl⟩

end Journal.Calm

namespace System

variable {s s' : System} {a : SysAct}

theorem dropCheckpointed_eq (s : System) (t : Option ℕ) :
    ∃ j', (j' = s.j ∨ ∃ t, s.j.dropCheckpoint t = some j') ∧
      s.dropCheckpointed t = { s with j := j' } := by
  cases t with
  | none => exact ⟨s.j, .inl rfl, rfl⟩
  | some t =>
    simp only [dropCheckpointed]
    split_ifs
    · cases hd : s.j.dropCheckpoint t with
      | none => exact ⟨s.j, .inl rfl, rfl⟩
      | some j' => exact ⟨j', .inr ⟨t, hd⟩, rfl⟩
    · exact ⟨s.j, .inl rfl, rfl⟩

inductive Step (s : System) : SysAct → System → Prop
  | proto {a : Act} {j' : Journal} (hready : s.ready a = true) (hj : s.j.step a = some j') :
    s.Step (.proto a) { s.after a with j := j' }
  | accessBegin {h b t : ℕ} (ht : s.txOf h = some t) (hop : s.ops h = .idle)
      (hab : s.j.jAborted = false) (hc : s.rv.cached b = true)
      (hg : (s.m.bufs b).writeAccessGranted t = false) :
    s.Step (.accessBegin h b)
      ({ s with m := s.m.put b (s.m.bufs b).addJournalHead }.setOp h (.access b false))
  | accessLock {h b t : ℕ} {frozenBuffer : Bool} {x : BufferHead} {r : AccessResult}
      {op : ClientOp} (ht : s.txOf h = some t) (hop : s.ops h = .access b frozenBuffer)
      (hx : (s.m.bufs b).doGetWriteAccess s.j.jAborted t s.j.jCommittingTransaction frozenBuffer =
        some (x, r)) :
    s.Step (.accessLock h) ({ s with m := s.m.put b x }.setOp h op)
  | createBegin {h b t : ℕ} (ht : s.txOf h = some t) (hop : s.ops h = .idle)
      (hc : s.rv.cached b = true) :
    s.Step (.createBegin h b)
      ({ s with m := s.m.put b (s.m.bufs b).addJournalHead }.setOp h (.create b))
  | createLock {h b t : ℕ} {x : BufferHead} {goesOn : Bool} {op : ClientOp}
      (ht : s.txOf h = some t) (hop : s.ops h = .create b)
      (hx : (s.m.bufs b).getCreateAccess s.j.jAborted t s.j.jCommittingTransaction =
        some (x, goesOn)) :
    s.Step (.createLock h) ({ s with m := s.m.put b x }.setOp h op)
  | accessCancel {h b t : ℕ} (ht : s.txOf h = some t) (hop : s.ops h = .cancel b) :
    s.Step (.accessCancel h)
      ({ s with
        rv := s.rv.cancelRevoke b
        revs := update s.revs t ((s.revs t).filter (· ≠ b)) }.setOp h (.put b))
  | accessPut {h b t : ℕ} {x : BufferHead} (ht : s.txOf h = some t) (hop : s.ops h = .put b)
      (hx : (s.m.bufs b).putJournalHead = some x) :
    s.Step (.accessPut h) ({ s with m := s.m.put b x }.setOp h .idle)
  | modify {h b t : ℕ} {word : BitVec 32} {rest : List (BitVec 8)} (ht : s.txOf h = some t)
      (hop : s.ops h = .idle) (hacc : (s.m.bufs b).accessible t = true) :
    s.Step (.modify h b word rest)
      { s with
        m := s.m.put b { s.m.bufs b with
          bData :=
            { word := word, rest := rest, hist := (h, t) :: (s.m.bufs b).bData.hist } }
        unmarked := update s.unmarked h (b :: s.unmarked h) }
  | dirty {h b t ino : ℕ} {x : BufferHead} {r : DirtyResult} {j' : Journal}
      (ht : s.txOf h = some t) (hop : s.ops h = .idle) (hc : s.rv.cached b = true)
      (hx : (s.m.bufs b).dirtyMetadata s.j.jAborted t s.j.jRunningTransaction
        s.j.jCommittingTransaction (s.j.handles h).hBufferCredits ino = some (x, r))
      (hj : j' = if r.credit then (s.j.useCredit h).getD s.j else s.j) (herr : r.err = none) :
    s.Step (.dirty h b ino)
      { s with
        j := j'
        m := s.m.put b x
        unmarked := update s.unmarked h ((s.unmarked h).filter (· ≠ b))
        dirtied := { handle := h, tx := t, blocknr := b, ino := ino } :: s.dirtied }
  | dirtyFails {h b t ino : ℕ} {x : BufferHead} {r : DirtyResult} {j' : Journal}
      (ht : s.txOf h = some t) (hop : s.ops h = .idle) (hc : s.rv.cached b = true)
      (hx : (s.m.bufs b).dirtyMetadata s.j.jAborted t s.j.jRunningTransaction
        s.j.jCommittingTransaction (s.j.handles h).hBufferCredits ino = some (x, r))
      (hj : j' = if r.credit then (s.j.useCredit h).getD s.j else s.j) (herr : r.err ≠ none) :
    s.Step (.dirty h b ino) { s with j := j', m := s.m.put b x }
  | forget {h b t : ℕ} {m' : Memory} {credit : Bool} {j' : Journal} (ht : s.txOf h = some t)
      (hop : s.ops h = .idle)
      (hm : s.m.journalForget s.j.jAborted t s.j.jCommittingTransaction b = some (m', credit))
      (hj : j' = if credit then (s.j.returnCredit h).getD s.j else s.j) :
    s.Step (.forget h b)
      { s with
        j := j', m := m'
        unmarked := update s.unmarked h ((s.unmarked h).filter (· ≠ b)) }
  | revokeFails {h b t : ℕ} {bhIn : Bool} (ht : s.txOf h = some t)
      (hrv : s.rv.markRevoked b = none) : s.Step (.revoke h b bhIn) s
  | revoke {h b t : ℕ} {bhIn : Bool} {rv' : Revoke} (ht : s.txOf h = some t)
      (hop : s.ops h = .idle) (hrv : s.rv.markRevoked b = some rv') :
    s.Step (.revoke h b bhIn) ({ s with rv := rv' }.setOp h (.revoking b bhIn))
  | revokeForget {h b t : ℕ} {m' : Memory} {credit : Bool} {j' : Journal}
      (ht : s.txOf h = some t) (hop : s.ops h = .revoking b true)
      (hm : s.m.journalForget s.j.jAborted t s.j.jCommittingTransaction b = some (m', credit))
      (hj : j' = if credit then (s.j.returnCredit h).getD s.j else s.j) :
    s.Step (.revokeForget h)
      ({ s with
        j := j', m := m'
        unmarked := update s.unmarked h ((s.unmarked h).filter (· ≠ b)) }.setOp h
          (.revoking b false))
  | revokeInsert {h b t : ℕ} (ht : s.txOf h = some t) (hop : s.ops h = .revoking b false) :
    s.Step (.revokeInsert h)
      ({ s with
        rv := s.rv.insertRevokeHash b (s.j.txs t).tTid
        revs := update s.revs t (b :: s.revs t) }.setOp h .idle)
  | refileReserved {b : ℕ} {x : BufferHead} (hb : b ∈ s.m.lists (s.commitTx, .reserved))
      (hph : s.j.phase = .switching) (hsub : s.sub = .idle)
      (hx : (s.m.bufs b).refileBuffer s.j.jAborted (s.nextRunning b) = some x) :
    s.Step .refileReserved { s with m := s.m.put b x }
  | clearRevoked (hph : s.j.phase = .switching) (hsub : s.sub = .idle)
      (hl : s.m.lists (s.commitTx, .reserved) = []) :
    s.Step .clearRevoked { s with rv := s.rv.clearBufferRevokedFlags, sub := .revokeCleared }
  | switchRevoke (hph : s.j.phase = .switching) (hsub : s.sub = .revokeCleared) :
    s.Step .switchRevoke { s with rv := s.rv.switchRevokeTable, sub := .revokeSwitched }
  | writeRevokes (hph : s.j.phase = .flushing) (hsub : s.sub = .idle) :
    s.Step .writeRevokes
      { s.mapLog fun l =>
          { l with revokes := if s.j.jAborted then [] else Revoke.blocks s.rv.other } with
        rv := s.rv.dropOther
        sub := .revokesWritten }
  | deferUnfile {b : ℕ} {k : JournalHead} {x : BufferHead} (hb : s.nextBuffer = some (b, k))
      (htag : s.tagMatches k = false) (hx : (s.m.bufs b).unfileBuffer s.j.jAborted = some x) :
    s.Step .deferUnfile { s with m := s.m.put b x, sub := .deferring b k.bJlist }
  | deferFile {b : ℕ} {l : Jlist} {x : BufferHead} (hsub : s.sub = .deferring b l)
      (hx : (s.m.bufs b).fileBuffer s.j.jAborted s.j.runningTransaction l = some x) :
    s.Step .deferFile { s with m := s.m.put b x, sub := .idle }
  | releaseAborted {b : ℕ} {k : JournalHead} {m' : Memory} (hb : s.nextBuffer = some (b, k))
      (hab : s.j.jAborted = true)
      (hm : (s.m.put b { s.m.bufs b with jbddirty := false }).refileBuffer s.j.jAborted
        (s.nextRunning b) b = some m') :
    s.Step .releaseAborted
      ({ s with m := m' }.mapLog fun l => l.submitIf ({ s with m := m' }.submits false))
  | write {b : ℕ} {k : JournalHead} {x : BufferHead} {escaped full : Bool} {j' : Journal}
      (hb : s.nextBuffer = some (b, k)) (htag : s.tagMatches k = true)
      (hab : s.j.jAborted = false) (hj : s.j.commitCredit = some j')
      (hx : (s.m.bufs b).writeMetadataBuffer false s.commitTx = some (x, some escaped)) :
    s.Step (.write full) ({ s with j := j', m := s.m.put b x }.tagBlock b escaped full)
  | writeNeedsCopy {b : ℕ} {k : JournalHead} {x : BufferHead} {full : Bool} {j' : Journal}
      (hb : s.nextBuffer = some (b, k)) (htag : s.tagMatches k = true)
      (hab : s.j.jAborted = false) (hj : s.j.commitCredit = some j')
      (hx : (s.m.bufs b).writeMetadataBuffer false s.commitTx = some (x, none)) :
    s.Step (.write full) { s with j := j', sub := .copying b }
  | writeCopy {b : ℕ} {x : BufferHead} {full : Bool} (hsub : s.sub = .copying b)
      (hx : (s.m.bufs b).writeEscapedCopy s.j.jAborted s.commitTx = some x) :
    s.Step (.writeCopy full) ({ s with m := s.m.put b x, sub := .idle }.tagBlock b true full)
  | copyFailed {b : ℕ} {j' : Journal} (hsub : s.sub = .copying b) (hj : s.j.abort = some j') :
    s.Step .copyFailed { s with j := j', sub := .idle }
  | waitIo {b : ℕ} {x : BufferHead} (hb : (s.m.lists (s.commitTx, .shadow)).getLast? = some b)
      (hph : s.j.phase = .installed) (hjbd : (s.m.bufs b).jbddirty = true)
      (hsh : (s.m.bufs b).shadow = false)
      (hx : (s.m.bufs b).fileBuffer s.j.jAborted s.commitTx .forget = some x) :
    s.Step .waitIo { s with m := s.m.put b x }
  | forgetBuffer {b : ℕ} {y : BufferHead} {j' : Journal} {m' : Memory}
      (hb : b ∈ s.m.lists (s.commitTx, .forget)) (hph : s.j.phase = .forgetting)
      (hy : (s.m.bufs b).commitForget s.j.jAborted (s.nextRunning b) s.commitTx = some y)
      (hj : j' = s.j ∨ ∃ t, s.j.dropCheckpoint t = some j')
      (hm : m' = (s.m.put b y).uncheckpoint b
        ((s.m.bufs b).bPrivate.bind JournalHead.bCpTransaction)) :
    s.Step .forgetBuffer
      { s with
        j := j'
        m := if (s.m.bufs b).jbddirty then m'.checkpoint b s.commitTx else m' }
  | ioDone {i : ℕ} {l : LogBlock}
      (hl : (s.log (s.j.txs s.commitTx).tLogStart).blocks[i]? = some l)
      (hcom : s.j.jCommittingTransaction = some s.commitTx) (hio : l.io = .submitted) :
    s.Step (.ioDone i)
      { s.mapLog fun t => t.setBlock i (l.finish (s.m.bufs l.blocknr).bData) with
        m := s.m.put l.blocknr { s.m.bufs l.blocknr with shadow := false } }
  | writeback {b : ℕ} (hd : (s.m.bufs b).dirty = true) : s.Step (.writeback b) (s.writeHome b)
  | tryToFree {b t : ℕ} {k : JournalHead} {x : BufferHead} {j' : Journal}
      (hk : (s.m.bufs b).bPrivate = some k) (hcp : k.bCpTransaction = some t)
      (htx : k.bTransaction = none) (hd : (s.m.bufs b).dirty = false)
      (hx : (s.m.bufs b).removeCheckpoint = some x)
      (hj : j' = s.j ∨ ∃ t, s.j.dropCheckpoint t = some j') :
    s.Step (.tryToFree b) { s with j := j', m := (s.m.put b x).uncheckpoint b (some t) }
  | cpQueue {b t : ℕ} (hd : (s.m.bufs b).dirty = true) :
    s.Step .cpQueue { s with m := s.m.relinkIo b t, batch := s.batch ++ [b] }
  | cpFlush {b : ℕ} {rest : List ℕ} (hbatch : s.batch = b :: rest)
      (hd : (s.m.bufs b).dirty = true) : s.Step .cpFlush { s.writeHome b with batch := rest }
  | cpFlushClean {b : ℕ} {rest : List ℕ} (hbatch : s.batch = b :: rest)
      (hd : (s.m.bufs b).dirty = false) : s.Step .cpFlush { s with batch := rest }
  | cpIoRemove {b t : ℕ} {x : BufferHead} {j' : Journal}
      (hx : (s.m.bufs b).removeCheckpoint = some x)
      (hj : j' = s.j ∨ ∃ t, s.j.dropCheckpoint t = some j') :
    s.Step .cpIoRemove { s with j := j', m := (s.m.put b x).uncheckpoint b (some t) }
  | getblk {b : ℕ} (hc : s.rv.cached b = false) :
    s.Step (.getblk b) { s with m := s.m.put b (.read (s.home b)), rv := s.rv.readBlock b }
  | discard {b : ℕ} (hp : (s.m.bufs b).bPrivate = none) (hd : (s.m.bufs b).dirty = false) :
    s.Step (.discard b) { s with rv := s.rv.discardBlock b }

theorem proto_cases {a : Act} (hs : s.proto a = some s') : s.Step (.proto a) s' := by
  simp only [proto] at hs
  split at hs
  · rename_i hr
    obtain ⟨j', hj, rfl⟩ := map_eq_some_iff.mp hs
    exact .proto hr hj
  · cases hs

theorem accessBegin_cases {h b : ℕ} (hs : s.accessBegin h b = some s') :
    s.Step (.accessBegin h b) s' := by
  simp only [accessBegin] at hs
  split at hs
  · cases hs
  rename_i t ht
  obtain ⟨hg, hs⟩ := ite_none_left_eq_some.mp hs
  simp only [ne_eq, Bool.not_eq_true', not_or, not_not, Bool.not_eq_true, Bool.not_eq_false] at hg
  cases hs
  exact .accessBegin ht hg.1 hg.2.1 hg.2.2.1 hg.2.2.2

theorem accessLock_cases {h : ℕ} (hs : s.accessLock h = some s') : s.Step (.accessLock h) s' := by
  simp only [accessLock] at hs
  split at hs
  · rename_i t b fb ht hop
    split at hs
    · cases hs
    rename_i x r hx
    cases hs
    exact .accessLock ht hop hx
  · cases hs

theorem createBegin_cases {h b : ℕ} (hs : s.createBegin h b = some s') :
    s.Step (.createBegin h b) s' := by
  simp only [createBegin] at hs
  split at hs
  · cases hs
  rename_i t ht
  obtain ⟨hg, hs⟩ := ite_none_left_eq_some.mp hs
  simp only [ne_eq, Bool.not_eq_true', not_or, not_not, Bool.not_eq_false] at hg
  cases hs
  exact .createBegin ht hg.1 hg.2

theorem createLock_cases {h : ℕ} (hs : s.createLock h = some s') : s.Step (.createLock h) s' := by
  simp only [createLock] at hs
  split at hs
  · rename_i t b ht hop
    split at hs
    · cases hs
    rename_i x goesOn hx
    cases hs
    exact .createLock ht hop hx
  · cases hs

theorem accessCancel_cases {h : ℕ} (hs : s.accessCancel h = some s') :
    s.Step (.accessCancel h) s' := by
  simp only [accessCancel] at hs
  split at hs
  · rename_i t b ht hop
    cases hs
    exact .accessCancel ht hop
  · cases hs

theorem accessPut_cases {h : ℕ} (hs : s.accessPut h = some s') : s.Step (.accessPut h) s' := by
  simp only [accessPut, apply] at hs
  split at hs
  · rename_i t b ht hop
    obtain ⟨m, hm, rfl⟩ := map_eq_some_iff.mp hs
    obtain ⟨x, hx, rfl⟩ := map_eq_some_iff.mp hm
    exact .accessPut ht hop hx
  · cases hs

theorem modify_cases {h b : ℕ} {word : BitVec 32} {rest : List (BitVec 8)}
    (hs : s.modify h b word rest = some s') : s.Step (.modify h b word rest) s' := by
  simp only [modify] at hs
  split at hs
  · cases hs
  rename_i t ht
  obtain ⟨hg, hs⟩ := ite_none_left_eq_some.mp hs
  simp only [ne_eq, Bool.not_eq_true', not_or, not_not, Bool.not_eq_false] at hg
  cases hs
  exact .modify ht hg.1 hg.2

theorem dirty_cases {h b ino : ℕ} (hs : s.dirty h b ino = some s') :
    s.Step (.dirty h b ino) s' := by
  simp only [dirty] at hs
  split at hs
  · cases hs
  rename_i t ht
  obtain ⟨hg, hs⟩ := ite_none_left_eq_some.mp hs
  simp only [ne_eq, Bool.not_eq_true', not_or, not_not, Bool.not_eq_false] at hg
  split at hs
  · cases hs
  rename_i x r hx
  split at hs
  · rename_i herr
    cases hs
    exact .dirty ht hg.1 hg.2 hx rfl herr
  · rename_i herr
    cases hs
    exact .dirtyFails ht hg.1 hg.2 hx rfl herr

theorem forget_cases {h b : ℕ} (hs : s.forget h b = some s') : s.Step (.forget h b) s' := by
  simp only [forget, forgetBlock] at hs
  split at hs
  · cases hs
  rename_i t ht
  obtain ⟨hg, hs⟩ := ite_none_left_eq_some.mp hs
  simp only [ne_eq, Bool.not_eq_true', not_or, not_not, Bool.not_eq_false] at hg
  split at hs
  · cases hs
  rename_i m credit hm
  cases hs
  exact .forget ht hg.1 hm rfl

theorem revoke_cases {h b : ℕ} {bhIn : Bool} (hs : s.revoke h b bhIn = some s') :
    s.Step (.revoke h b bhIn) s' := by
  simp only [revoke] at hs
  split at hs
  · cases hs
  rename_i t ht
  obtain ⟨hg, hs⟩ := ite_none_left_eq_some.mp hs
  simp only [ne_eq, not_or, not_not] at hg
  split at hs
  · rename_i hrv
    cases hs
    exact .revokeFails ht hrv
  · rename_i rv hrv
    cases hs
    exact .revoke ht hg.1 hrv

theorem revokeForget_cases {h : ℕ} (hs : s.revokeForget h = some s') :
    s.Step (.revokeForget h) s' := by
  simp only [revokeForget, forgetBlock] at hs
  split at hs
  · rename_i t b ht hop
    obtain ⟨s1, h1, rfl⟩ := map_eq_some_iff.mp hs
    split at h1
    · cases h1
    rename_i m credit hm
    cases h1
    exact .revokeForget ht hop hm rfl
  · cases hs

theorem revokeInsert_cases {h : ℕ} (hs : s.revokeInsert h = some s') :
    s.Step (.revokeInsert h) s' := by
  simp only [revokeInsert] at hs
  split at hs
  · rename_i t b ht hop
    cases hs
    exact .revokeInsert ht hop
  · cases hs

theorem refileReserved_cases (hs : s.refileReserved = some s') : s.Step .refileReserved s' := by
  simp only [refileReserved, refileBuffer, apply] at hs
  split at hs
  · cases hs
  rename_i b l hl
  obtain ⟨hg, hs⟩ := ite_none_left_eq_some.mp hs
  simp only [ne_eq, not_or, not_not] at hg
  obtain ⟨m, hm, rfl⟩ := map_eq_some_iff.mp hs
  obtain ⟨x, hx, rfl⟩ := map_eq_some_iff.mp hm
  exact .refileReserved (by simp [hl]) hg.1 hg.2 hx

theorem deferUnfile_cases (hs : s.deferUnfile = some s') : s.Step .deferUnfile s' := by
  simp only [deferUnfile, unfileBuffer, apply] at hs
  split at hs
  · cases hs
  rename_i b k hb
  obtain ⟨htag, hs⟩ := ite_none_left_eq_some.mp hs
  obtain ⟨m, hm, rfl⟩ := map_eq_some_iff.mp hs
  obtain ⟨x, hx, rfl⟩ := map_eq_some_iff.mp hm
  exact .deferUnfile hb (by simpa using htag) hx

theorem deferFile_cases (hs : s.deferFile = some s') : s.Step .deferFile s' := by
  simp only [deferFile, fileBuffer, apply] at hs
  split at hs
  · rename_i b l hsub
    obtain ⟨m, hm, rfl⟩ := map_eq_some_iff.mp hs
    obtain ⟨x, hx, rfl⟩ := map_eq_some_iff.mp hm
    exact .deferFile hsub hx
  · cases hs

theorem releaseAborted_cases (hs : s.releaseAborted = some s') : s.Step .releaseAborted s' := by
  simp only [releaseAborted] at hs
  split at hs
  · cases hs
  rename_i b k hb
  obtain ⟨hg, hs⟩ := ite_none_left_eq_some.mp hs
  simp only [Bool.not_eq_true', not_or, Bool.not_eq_false] at hg
  obtain ⟨m, hm, rfl⟩ := map_eq_some_iff.mp hs
  exact .releaseAborted hb hg.2 hm

theorem write_cases {full : Bool} (hs : s.write full = some s') : s.Step (.write full) s' := by
  simp only [write] at hs
  split at hs
  · cases hs
  rename_i b k hb
  obtain ⟨hg, hs⟩ := ite_none_left_eq_some.mp hs
  simp only [Bool.not_eq_true', not_or, Bool.not_eq_false, Bool.not_eq_true] at hg
  rw [hg.2] at hs
  split at hs
  · rename_i j' x escaped hj hx
    cases hs
    exact .write hb hg.1 hg.2 hj hx
  · rename_i j' x hj hx
    cases hs
    exact .writeNeedsCopy hb hg.1 hg.2 hj hx
  · cases hs

theorem writeCopy_cases {full : Bool} (hs : s.writeCopy full = some s') :
    s.Step (.writeCopy full) s' := by
  simp only [writeCopy, apply] at hs
  split at hs
  · rename_i b hsub
    obtain ⟨m, hm, rfl⟩ := map_eq_some_iff.mp hs
    obtain ⟨x, hx, rfl⟩ := map_eq_some_iff.mp hm
    exact .writeCopy hsub hx
  · cases hs

theorem copyFailed_cases (hs : s.copyFailed = some s') : s.Step .copyFailed s' := by
  simp only [copyFailed] at hs
  split at hs
  · rename_i b hsub
    obtain ⟨j', hj, rfl⟩ := map_eq_some_iff.mp hs
    exact .copyFailed hsub hj
  · cases hs

theorem waitIo_cases (hs : s.waitIo = some s') : s.Step .waitIo s' := by
  simp only [waitIo, fileBuffer, apply] at hs
  split at hs
  · cases hs
  rename_i b hb
  obtain ⟨hg, hs⟩ := ite_none_left_eq_some.mp hs
  simp only [ne_eq, Bool.not_eq_true', not_or, not_not, Bool.not_eq_false, Bool.not_eq_true] at hg
  obtain ⟨m, hm, rfl⟩ := map_eq_some_iff.mp hs
  obtain ⟨x, hx, rfl⟩ := map_eq_some_iff.mp hm
  exact .waitIo hb hg.1 hg.2.1 hg.2.2 hx

theorem forgetBuffer_cases (hs : s.forgetBuffer = some s') : s.Step .forgetBuffer s' := by
  simp only [forgetBuffer] at hs
  split at hs
  · cases hs
  rename_i b l hl
  obtain ⟨hph, hs⟩ := ite_none_left_eq_some.mp hs
  simp only [ne_eq, not_not] at hph
  split at hs
  · cases hs
  rename_i y hy
  generalize hold : (s.m.bufs b).bPrivate.bind JournalHead.bCpTransaction = old at hs
  obtain ⟨j', hj, heq⟩ := dropCheckpointed_eq
    { s with m := (s.m.put b y).uncheckpoint b old } old
  rw [heq] at hs
  have hstep := Step.forgetBuffer (s := s) (by simp [hl]) hph hy hj rfl
  rw [hold] at hstep
  split at hs
  · rename_i hjbd
    rw [if_pos hjbd] at hstep
    cases hs
    exact hstep
  · rename_i hjbd
    rw [if_neg hjbd] at hstep
    cases hs
    exact hstep

theorem ioDone_cases {i : ℕ} (hs : s.ioDone i = some s') : s.Step (.ioDone i) s' := by
  simp only [ioDone] at hs
  split at hs
  · cases hs
  rename_i l hl
  obtain ⟨hg, hs⟩ := ite_none_left_eq_some.mp hs
  simp only [ne_eq, not_or, not_not] at hg
  cases hs
  exact .ioDone hl hg.1 hg.2

theorem writeback_cases {b : ℕ} (hs : s.writeback b = some s') : s.Step (.writeback b) s' := by
  simp only [writeback] at hs
  split at hs
  · rename_i hd
    cases hs
    exact .writeback hd
  · cases hs

theorem tryToFree_cases {b : ℕ} (hs : s.tryToFree b = some s') : s.Step (.tryToFree b) s' := by
  simp only [tryToFree, removeCheckpoint] at hs
  split at hs
  · cases hs
  rename_i k hk
  split at hs
  · cases hs
  rename_i t hcp
  obtain ⟨hg, hs⟩ := ite_none_left_eq_some.mp hs
  simp only [ne_eq, not_or, not_not, Bool.not_eq_true] at hg
  obtain ⟨x, hx, rfl⟩ := map_eq_some_iff.mp hs
  obtain ⟨j', hj, heq⟩ := dropCheckpointed_eq
    { s with m := (s.m.put b x).uncheckpoint b (some t) } (some t)
  rw [heq]
  exact .tryToFree hk hcp hg.1 hg.2 hx hj

theorem cpQueue_cases (hs : s.cpQueue = some s') : s.Step .cpQueue s' := by
  simp only [cpQueue] at hs
  split at hs
  · cases hs
  split at hs
  · cases hs
  obtain ⟨hg, hs⟩ := ite_none_left_eq_some.mp hs
  simp only [ne_eq, Bool.not_eq_true', not_or, not_not, Bool.not_eq_false] at hg
  cases hs
  exact .cpQueue hg.2.1

theorem cpFlush_cases (hs : s.cpFlush = some s') : s.Step .cpFlush s' := by
  simp only [cpFlush] at hs
  split at hs
  · cases hs
  rename_i b rest hbatch
  split at hs
  · rename_i hd
    cases hs
    exact .cpFlush hbatch hd
  · rename_i hd
    cases hs
    exact .cpFlushClean hbatch (by simpa using hd)

theorem cpIoRemove_cases (hs : s.cpIoRemove = some s') : s.Step .cpIoRemove s' := by
  simp only [cpIoRemove, removeCheckpoint] at hs
  split at hs
  · cases hs
  rename_i t _ _
  split at hs
  · cases hs
  rename_i b _ _
  split at hs
  · cases hs
  obtain ⟨x, hx, rfl⟩ := map_eq_some_iff.mp hs
  obtain ⟨j', hj, heq⟩ := dropCheckpointed_eq
    { s with m := (s.m.put b x).uncheckpoint b (some t) } (some t)
  rw [heq]
  exact .cpIoRemove hx hj

/-- Every step of the system is one of the listed ones. -/
theorem step_cases (hs : s.step a = some s') : s.Step a s' := by
  cases a with
  | proto => exact proto_cases hs
  | accessBegin => exact accessBegin_cases hs
  | accessLock => exact accessLock_cases hs
  | createBegin => exact createBegin_cases hs
  | createLock => exact createLock_cases hs
  | accessCancel => exact accessCancel_cases hs
  | accessPut => exact accessPut_cases hs
  | modify => exact modify_cases hs
  | dirty => exact dirty_cases hs
  | forget => exact forget_cases hs
  | revoke => exact revoke_cases hs
  | revokeForget => exact revokeForget_cases hs
  | revokeInsert => exact revokeInsert_cases hs
  | refileReserved => exact refileReserved_cases hs
  | clearRevoked =>
    obtain ⟨hg, ⟨⟩⟩ := ite_none_left_eq_some.mp hs
    simp only [ne_eq, not_or, not_not] at hg
    exact .clearRevoked hg.1 hg.2.1 hg.2.2
  | switchRevoke =>
    obtain ⟨hg, ⟨⟩⟩ := ite_none_left_eq_some.mp hs
    simp only [ne_eq, not_or, not_not] at hg
    exact .switchRevoke hg.1 hg.2
  | writeRevokes =>
    obtain ⟨hg, ⟨⟩⟩ := ite_none_left_eq_some.mp hs
    simp only [ne_eq, not_or, not_not] at hg
    exact .writeRevokes hg.1 hg.2
  | deferUnfile => exact deferUnfile_cases hs
  | deferFile => exact deferFile_cases hs
  | releaseAborted => exact releaseAborted_cases hs
  | write => exact write_cases hs
  | writeCopy => exact writeCopy_cases hs
  | copyFailed => exact copyFailed_cases hs
  | waitIo => exact waitIo_cases hs
  | forgetBuffer => exact forgetBuffer_cases hs
  | ioDone => exact ioDone_cases hs
  | writeback => exact writeback_cases hs
  | tryToFree => exact tryToFree_cases hs
  | cpQueue => exact cpQueue_cases hs
  | cpFlush => exact cpFlush_cases hs
  | cpIoRemove => exact cpIoRemove_cases hs
  | getblk =>
    obtain ⟨hc, ⟨⟩⟩ := ite_none_left_eq_some.mp hs
    exact .getblk (by simpa using hc)
  | discard =>
    obtain ⟨hg, ⟨⟩⟩ := ite_none_left_eq_some.mp hs
    simp only [ne_eq, Bool.not_eq_true', not_or, not_not, Bool.not_eq_true] at hg
    exact .discard hg.2.1 hg.2.2

@[simp]
theorem j_mapLog (s : System) (f : LogTx → LogTx) : (s.mapLog f).j = s.j := rfl

theorem Step.calm (h : s.Step a s') (ha : ∀ c, a ≠ .proto c) (hf : a ≠ .copyFailed) :
    s.j.Calm s'.j := by
  cases h with
  | proto => exact absurd rfl (ha _)
  | copyFailed => exact absurd rfl hf
  | write _ _ _ hj | writeNeedsCopy _ _ _ hj => exact .logCredit hj
  | dirty _ _ _ _ hj | dirtyFails _ _ _ _ hj => exact .of_credit hj
  | forget _ _ _ hj | revokeForget _ _ _ hj => exact .of_return hj
  | forgetBuffer _ _ _ hj | tryToFree _ _ _ _ _ hj | cpIoRemove _ hj => exact .of_drop hj
  | _ => exact .same

theorem Step.journal (h : s.Step a s') : s'.j = s.j ∨ ∃ c, s.j.step c = some s'.j := by
  by_cases ha : ∃ c, a = .proto c
  · obtain ⟨c, rfl⟩ := ha
    cases h with
    | proto _ hj => exact .inr ⟨c, hj⟩
  · by_cases hf : a = .copyFailed
    · subst hf
      cases h with
      | copyFailed _ hj => exact .inr ⟨.abort, hj⟩
    · exact (h.calm (fun c hc => ha ⟨c, hc⟩) hf).moves

theorem step_preserves {I : Journal → Prop}
    (hstep : ∀ j c j', I j → j.step c = some j' → I j') (hs : s.step a = some s') (hi : I s.j) :
    I s'.j := by
  rcases (step_cases hs).journal with h | ⟨c, hc⟩
  · rwa [h]
  · exact hstep _ c _ hi hc

theorem att_of_txOf {h t : ℕ} (ht : s.txOf h = some t) : s.j.att h = some t := by
  simp only [txOf] at ht
  split_ifs at ht
  exact ht

def subOk : CommitPhase → CommitSub → Bool
  | _, .idle | .switching, .revokeCleared | .switching, .revokeSwitched
  | .flushing, .revokesWritten | .logging, .deferring _ _ | .logging, .copying _ => true
  | _, _ => false

@[simp]
theorem subOk_idle (ph : CommitPhase) : subOk ph .idle = true := by
  cases ph <;> rfl

theorem nextBuffer_eq {b : ℕ} {k : JournalHead} (h : s.nextBuffer = some (b, k)) :
    b ∈ s.m.lists (s.commitTx, .metadata) ∧ s.j.phase = .logging ∧ s.sub = .idle ∧
      (s.m.bufs b).bPrivate = some k := by
  simp only [nextBuffer] at h
  split at h
  · cases h
  rename_i c l hl
  split at h
  · cases h
  rename_i hg
  simp only [ne_eq, not_or, not_not] at hg
  obtain ⟨k', hk', heq⟩ := map_eq_some_iff.mp h
  cases heq
  exact ⟨by simp [hl], hg.1, hg.2, hk'⟩

theorem sub_after_commit {c : CommitAct} {j' : Journal} (hok : subOk s.j.phase s.sub = true)
    (hready : s.ready (.commit c) = true) (hj : s.j.step (.commit c) = some j') :
    (s.after (.commit c)).sub = .idle := by
  have hph : s.j.phase = c.source := (Journal.commitStep_spine hj).phases.1
  rw [hph] at hok
  cases c with
  | switchTransaction | setCommit => rfl
  | credit => cases hready
  | getTail => exact (of_decide_eq_true hready).1
  | record =>
    have hidle : s.sub = .idle := by
      cases hsub : s.sub <;> simp_all [subOk, CommitAct.source]
    unfold after
    split_ifs <;> exact hidle
  | _ => cases hsub : s.sub <;> simp_all [subOk, CommitAct.source, after]

theorem after_frame (s : System) (c : Act) :
    ∃ log sub, s.after c = { s with log := log, sub := sub } := by
  unfold after
  split
  · exact ⟨_, _, rfl⟩
  · exact ⟨_, _, rfl⟩
  · split_ifs
    · exact ⟨s.log, s.sub, rfl⟩
    · exact ⟨_, s.sub, rfl⟩
  · exact ⟨s.log, s.sub, rfl⟩

theorem after_of_not_commit {c : Act} (hc : ∀ d, c ≠ .commit d) : s.after c = s := by
  cases c with
  | commit d => exact absurd rfl (hc d)
  | _ => rfl

theorem subOk_step (hs : s.step a = some s') (hok : subOk s.j.phase s.sub = true) :
    subOk s'.j.phase s'.sub = true := by
  cases step_cases hs with
  | @proto c j' hready hj =>
    by_cases hc : ∃ d, c = .commit d
    · obtain ⟨d, rfl⟩ := hc
      change subOk j'.phase (s.after (.commit d)).sub = true
      rw [sub_after_commit hok hready hj]
      rfl
    · have hc' : ∀ d, c ≠ .commit d := fun d hd => hc ⟨d, hd⟩
      rw [after_of_not_commit hc']
      change subOk j'.phase s.sub = true
      rw [(Journal.step_phase hj hc').1]
      exact hok
  | copyFailed | deferFile | writeCopy => exact subOk_idle _
  | clearRevoked hph | switchRevoke hph | writeRevokes hph =>
    simp only [j_mapLog, hph]
    rfl
  | deferUnfile hb =>
    simp only [(nextBuffer_eq hb).2.1]
    rfl
  | writeNeedsCopy hb _ _ hj =>
    obtain ⟨hcr, tcr, cps, rfl⟩ := (Journal.Calm.logCredit hj).frame
    simp only [(nextBuffer_eq hb).2.1]
    rfl
  | write | dirty | dirtyFails | forget | revokeForget | forgetBuffer | tryToFree | cpIoRemove =>
    obtain ⟨hcr, tcr, cps, hj⟩ := ((step_cases hs).calm (by simp) (by simp)).frame
    rw [hj]
    exact hok
  | _ => exact hok

/-- Every step of the system keeps the invariant of the protocol. -/
theorem quietInv_step (hs : s.step a = some s') (hi : QuietInv s.j) : QuietInv s'.j :=
  step_preserves (fun _ _ _ hi hs => hi.step hs) hs hi

end System

end VMsep.Jbd2
