import VMsep.Jbd2.Sound

/-! The inversion of the step function for a journal that is not aborted, with the new buffer
written out. Every later invariant of buffers is a case analysis on this list. -/

namespace VMsep.Jbd2

open Lib Function Memory

theorem Journal.abort_aborted {j j' : Journal} (h : j.abort = some j') : j'.jAborted = true := by
  simp only [Journal.abort] at h
  split at h
  · rename_i hab
    cases h
    exact hab
  · split at h
    · cases h
    split at h
    · cases h
      rfl
    rename_i t _
    cases h
    obtain h | ⟨u, -, -, -, h⟩ := Journal.logStartCommit_cases
      { j with jAborted := true, jErrno := true } (j.txs t).tTid 0
    all_goals exact congrArg Journal.jAborted h

namespace System

/-- The step is a call of `forget` for buffer `b`, directly or from `revoke`. -/
def Forgets (s : System) (a : SysAct) (h b : ℕ) : Prop :=
  a = .forget h b ∨ a = .revokeForget h ∧ s.ops h = .revoking b true

/-- Handle `h` is in the locked section of `do_get_write_access` or of `get_create_access`. -/
def Accesses (s : System) (a : SysAct) (h b : ℕ) : Prop :=
  (∃ fb, a = .accessLock h ∧ s.ops h = .access b fb) ∨ a = .createLock h ∧ s.ops h = .create b

inductive Live (s : System) : SysAct → System → Prop
  | proto {a : Act} {j' : Journal} (hready : s.ready a = true) (hj : s.j.step a = some j') :
    s.Live (.proto a) { s.after a with j := j' }
  | accessBegin {a : SysAct} {h b t : ℕ} {m' : Memory} {op : ClientOp}
      (ha : a = .accessBegin h b ∨ a = .createBegin h b) (ht : s.txOf h = some t)
      (hc : s.rv.cached b = true)
      (hm : s.m.Stores b { s.m.bufs b with
        bPrivate := some { (s.m.bufs b).jh with bJcount := (s.m.bufs b).jh.bJcount + 1 } } m') :
    s.Live a ({ s with m := m' }.setOp h op)
  | accessGranted {a : SysAct} {h b t : ℕ} {k : JournalHead} {op : ClientOp}
      (ha : s.Accesses a h b) (ht : s.txOf h = some t) (hk : (s.m.bufs b).bPrivate = some k)
      (hacc : k.bTransaction = some t ∨ k.bNextTransaction = some t) :
    s.Live a (s.setOp h op)
  | accessFile {a : SysAct} {h b t : ℕ} {k : JournalHead} {jbd : Bool} {op : ClientOp}
      {m' : Memory} (ha : s.Accesses a h b) (ht : s.txOf h = some t)
      (hk : (s.m.bufs b).bPrivate = some k) (htx : k.bTransaction = none)
      (hjbd : jbd = true → (s.m.bufs b).dirty = true)
      (hm : s.m.Stores b { s.m.bufs b with
        dirty := false
        jbddirty := jbd
        bPrivate := some { k with
          bModified := false
          bJcount := k.bJcount + 1
          bTransaction := some t
          bJlist := .reserved } } m') :
    s.Live a ({ s with m := m' }.setOp h op)
  | accessClaim {a : SysAct} {h b t : ℕ} {k : JournalHead} {f : Option Content} {op : ClientOp}
      {m' : Memory} (ha : s.Accesses a h b) (ht : s.txOf h = some t)
      (hk : (s.m.bufs b).bPrivate = some k)
      (htx : k.bTransaction = some s.commitTx) (hne : t ≠ s.commitTx)
      (hph : s.j.phase.committing = true) (hn : k.bNextTransaction = none)
      (hf : k.bFrozenData ≠ none ∧ f = k.bFrozenData ∨
        k.bFrozenData = none ∧ (s.m.bufs b).shadow = false ∧
          f = if k.bJlist = .metadata then some (s.m.bufs b).bData else none)
      (hm : s.m.Stores b { s.m.bufs b with
        bPrivate := some { k with
          bModified := false
          bFrozenData := f
          bNextTransaction := some t } } m') :
    s.Live a ({ s with m := m' }.setOp h op)
  | accessRetry {h b t : ℕ} {k : JournalHead} {op : ClientOp} {fb : Bool} {m' : Memory}
      (ht : s.txOf h = some t) (hop : s.ops h = .access b fb) (hk : (s.m.bufs b).bPrivate = some k)
      (htx : k.bTransaction = some s.commitTx) (hne : t ≠ s.commitTx)
      (hph : s.j.phase.committing = true) (hn : k.bNextTransaction = none)
      (hm : s.m.Stores b { s.m.bufs b with
        bPrivate := some { k with bModified := false } } m') :
    s.Live (.accessLock h) ({ s with m := m' }.setOp h op)
  | accessCancel {h b t : ℕ} :
    s.Live (.accessCancel h)
      ({ s with
        rv := s.rv.cancelRevoke b
        revs := update s.revs t ((s.revs t).filter (· ≠ b)) }.setOp h (.put b))
  | accessPut {h b t : ℕ} {k : JournalHead} {p : Option JournalHead} {m' : Memory}
      (ht : s.txOf h = some t) (hk : (s.m.bufs b).bPrivate = some k) (hp : k.Released p)
      (hm : s.m.Stores b { s.m.bufs b with bPrivate := p } m') :
    s.Live (.accessPut h) ({ s with m := m' }.setOp h .idle)
  | modify {h b t : ℕ} {k : JournalHead} {word : BitVec 32} {rest : List (BitVec 8)} {m' : Memory}
      (ht : s.txOf h = some t) (hk : (s.m.bufs b).bPrivate = some k)
      (hacc : k.bTransaction = some t ∨ k.bNextTransaction = some t)
      (hm : s.m.Stores b { s.m.bufs b with
        bData := { word := word, rest := rest, hist := (h, t) :: (s.m.bufs b).bData.hist } } m') :
    s.Live (.modify h b word rest)
      { s with
        m := m'
        unmarked := update s.unmarked h (b :: s.unmarked h) }
  | dirty {h b t ino : ℕ} {k k' : JournalHead} {jbd : Bool} {m' : Memory} {j' : Journal}
      (ht : s.txOf h = some t) (hk : (s.m.bufs b).bPrivate = some k)
      (hacc : k.bTransaction = some t ∨ k.bNextTransaction = some t) (hj : s.j.Calm j')
      (hcases :
        (jbd = (s.m.bufs b).jbddirty ∧ k' = { k with bModified := true } ∧
          (k.bTransaction = some t → k.bJlist = .metadata) ∧
          (k.bTransaction ≠ some t → k.bModified = true)) ∨
        (jbd = true ∧ k.bModified = false ∧ k.bTransaction ≠ some t ∧
          k' = { k with bModified := true, ino := ino }) ∨
        (jbd = true ∧ k.bModified = false ∧ k.bTransaction = some t ∧ k.bJlist ≠ .metadata ∧
          k' = { k with bModified := true, ino := ino, bJlist := .metadata }))
      (hm : s.m.Stores b { s.m.bufs b with jbddirty := jbd, bPrivate := some k' } m') :
    s.Live (.dirty h b ino)
      { s with
        j := j'
        m := m'
        unmarked := update s.unmarked h ((s.unmarked h).filter (· ≠ b))
        dirtied := { handle := h, tx := t, blocknr := b, ino := ino } :: s.dirtied }
  | dirtyFails {h b t ino : ℕ} {p : Option JournalHead} {m' : Memory} {j' : Journal}
      (ht : s.txOf h = some t) (hj : s.j.Calm j')
      (hp : p = (s.m.bufs b).bPrivate ∨
        p = (s.m.bufs b).bPrivate.map fun k => { k with bModified := true })
      (hm : s.m.Stores b { s.m.bufs b with bPrivate := p } m') :
    s.Live (.dirty h b ino) { s with j := j', m := m' }
  | forgetBare {h b t : ℕ} {a : SysAct} {j' : Journal} {ops' : ℕ → ClientOp}
      (ha : s.Forgets a h b) (ht : s.txOf h = some t)
      (hj : s.j.Calm j') (hk : (s.m.bufs b).bPrivate = none) :
    s.Live a
      { s with
        j := j', ops := ops'
        unmarked := update s.unmarked h ((s.unmarked h).filter (· ≠ b)) }
  | forgetOwn {h b t : ℕ} {a : SysAct} {k : JournalHead} {m' : Memory} {j' : Journal}
      {ops' : ℕ → ClientOp} (ha : s.Forgets a h b)
      (ht : s.txOf h = some t) (hj : s.j.Calm j') (hk : (s.m.bufs b).bPrivate = some k)
      (htx : k.bTransaction = some t) (hcp : k.bCpTransaction ≠ none)
      (hm : s.m.Stores b { s.m.bufs b with
        dirty := false
        jbddirty := false
        bPrivate := some { k with bModified := false, bJlist := .forget } } m') :
    s.Live a
      { s with
        j := j', m := m', ops := ops'
        unmarked := update s.unmarked h ((s.unmarked h).filter (· ≠ b)) }
  | forgetUnfile {h b t : ℕ} {a : SysAct} {k : JournalHead} {p : Option JournalHead} {m' : Memory}
      {j' : Journal} {ops' : ℕ → ClientOp} (ha : s.Forgets a h b)
      (ht : s.txOf h = some t) (hj : s.j.Calm j') (hk : (s.m.bufs b).bPrivate = some k)
      (htx : k.bTransaction = some t) (hf : k.bFrozenData = none)
      (hcp : k.bCpTransaction = none)
      (hp : JournalHead.Released
        { k with bModified := false, bJlist := .none, bTransaction := none } p)
      (hm : s.m.Stores b
        { s.m.bufs b with dirty := false, jbddirty := false, bPrivate := p } m') :
    s.Live a
      { s with
        j := j', m := m', ops := ops'
        unmarked := update s.unmarked h ((s.unmarked h).filter (· ≠ b)) }
  | forgetOther {h b t : ℕ} {a : SysAct} {k : JournalHead} {m' : Memory}
      {j' : Journal} {ops' : ℕ → ClientOp} (ha : s.Forgets a h b)
      (ht : s.txOf h = some t) (hj : s.j.Calm j') (hk : (s.m.bufs b).bPrivate = some k)
      (htx : k.bTransaction ≠ some t)
      (hn : k.bNextTransaction = none ∨ k.bNextTransaction = some t)
      (hm : s.m.Stores b { s.m.bufs b with
        bPrivate := some { k with bModified := false, bNextTransaction := none } } m') :
    s.Live a
      { s with
        j := j', m := m', ops := ops'
        unmarked := update s.unmarked h ((s.unmarked h).filter (· ≠ b)) }
  | revokeFails {h b : ℕ} {bhIn : Bool} : s.Live (.revoke h b bhIn) s
  | revoke {h b : ℕ} {bhIn : Bool} {rv' : Revoke} (hrv : s.rv.markRevoked b = some rv') :
    s.Live (.revoke h b bhIn) ({ s with rv := rv' }.setOp h (.revoking b bhIn))
  | revokeInsert {h b t : ℕ} {tid : Tid} :
    s.Live (.revokeInsert h)
      ({ s with
        rv := s.rv.insertRevokeHash b tid
        revs := update s.revs t (b :: s.revs t) }.setOp h .idle)
  | unreserve {b : ℕ} {k : JournalHead} {p : Option JournalHead} {m' : Memory}
      (hk : (s.m.bufs b).bPrivate = some k) (hph : s.j.phase = .switching) (hsub : s.sub = .idle)
      (htx : k.bTransaction = some s.commitTx) (hl : k.bJlist = .reserved)
      (hn : k.bNextTransaction = none)
      (hp : JournalHead.Released { k with bJlist := .none, bTransaction := none } p)
      (hm : s.m.Stores b { s.m.bufs b with
        dirty := (s.m.bufs b).jbddirty, jbddirty := false, bPrivate := p } m') :
    s.Live .refileReserved { s with m := m' }
  | clearRevoked (hph : s.j.phase = .switching) (hsub : s.sub = .idle)
      (hl : s.m.lists (s.commitTx, .reserved) = []) :
    s.Live .clearRevoked { s with rv := s.rv.clearBufferRevokedFlags, sub := .revokeCleared }
  | switchRevoke (hph : s.j.phase = .switching) (hsub : s.sub = .revokeCleared) :
    s.Live .switchRevoke { s with rv := s.rv.switchRevokeTable, sub := .revokeSwitched }
  | writeRevokes (hph : s.j.phase = .flushing) (hsub : s.sub = .idle) :
    s.Live .writeRevokes
      { s.mapLog fun l => { l with revokes := Revoke.blocks s.rv.other } with
        rv := s.rv.dropOther
        sub := .revokesWritten }
  | deferUnfile {b : ℕ} {k : JournalHead} {p : Option JournalHead} {m' : Memory}
      (hk : (s.m.bufs b).bPrivate = some k) (hph : s.j.phase = .logging) (hsub : s.sub = .idle)
      (hb : s.nextBuffer = some (b, k)) (htag : s.tagMatches k = false)
      (htx : k.bTransaction = some s.commitTx) (hl : k.bJlist = .metadata)
      (hn : k.bNextTransaction = none) (hf : k.bFrozenData = none)
      (hp : JournalHead.Released { k with bJlist := .none, bTransaction := none } p)
      (hm : s.m.Stores b { s.m.bufs b with
        dirty := (s.m.bufs b).jbddirty, jbddirty := false, bPrivate := p } m') :
    s.Live .deferUnfile { s with m := m', sub := .deferring b .metadata }
  | deferFile {b n : ℕ} {k : JournalHead} {m' : Memory} (hsub : s.sub = .deferring b .metadata)
      (hk : (s.m.bufs b).bPrivate = some k)
      (htx : k.bTransaction = none ∨ k.bTransaction = some s.j.runningTransaction)
      (hm : s.m.Stores b { s.m.bufs b with
        dirty := false
        jbddirty := (s.m.bufs b).dirty || (s.m.bufs b).jbddirty
        bPrivate := some { k with
          bJcount := n
          bTransaction := some s.j.runningTransaction
          bJlist := .metadata } } m') :
    s.Live .deferFile { s with m := m', sub := .idle }
  | write {b : ℕ} {k : JournalHead} {f : Option Content} {escaped full : Bool} {m' : Memory}
      {j' : Journal} (hk : (s.m.bufs b).bPrivate = some k) (hph : s.j.phase = .logging)
      (hsub : s.sub = .idle) (hb : s.nextBuffer = some (b, k)) (htag : s.tagMatches k = true)
      (htx : k.bTransaction = some s.commitTx) (hl : k.bJlist = .metadata)
      (hjbd : (s.m.bufs b).jbddirty = true)
      (hf : k.bFrozenData = none ∧ f = none ∧ escaped = false ∧
          (s.m.bufs b).bData.word ≠ jbd2MagicNumber ∨
        ∃ c, k.bFrozenData = some c ∧
          (c.word = jbd2MagicNumber ∧ escaped = true ∧ f = some { c with word := 0 } ∨
            c.word ≠ jbd2MagicNumber ∧ escaped = false ∧ f = some c))
      (hj : s.j.Calm j')
      (hm : s.m.Stores b { s.m.bufs b with
        shadow := true, bPrivate := some { k with bFrozenData := f, bJlist := .shadow } } m') :
    s.Live (.write full) ({ s with j := j', m := m' }.tagBlock b escaped full)
  | writeNeedsCopy {b : ℕ} {k : JournalHead} {full : Bool} {j' : Journal}
      (hk : (s.m.bufs b).bPrivate = some k) (hph : s.j.phase = .logging) (hsub : s.sub = .idle)
      (hb : s.nextBuffer = some (b, k)) (htag : s.tagMatches k = true)
      (htx : k.bTransaction = some s.commitTx) (hl : k.bJlist = .metadata)
      (hjbd : (s.m.bufs b).jbddirty = true) (hf : k.bFrozenData = none)
      (hw : (s.m.bufs b).bData.word = jbd2MagicNumber) (hj : s.j.Calm j') :
    s.Live (.write full) { s with j := j', sub := .copying b }
  | writeCopy {b : ℕ} {k : JournalHead} {full : Bool} {m' : Memory}
      (hk : (s.m.bufs b).bPrivate = some k) (hph : s.j.phase = .logging)
      (hsub : s.sub = .copying b) (htx : k.bTransaction = some s.commitTx)
      (hl : k.bJlist = .metadata)
      (hm : s.m.Stores b { s.m.bufs b with
        shadow := true
        bPrivate := some { k with
          bFrozenData := some { k.bFrozenData.getD (s.m.bufs b).bData with word := 0 }
          bJlist := .shadow } } m') :
    s.Live (.writeCopy full) ({ s with m := m', sub := .idle }.tagBlock b true full)
  | waitIo {b : ℕ} {k : JournalHead} {m' : Memory} (hk : (s.m.bufs b).bPrivate = some k)
      (hph : s.j.phase = .installed) (htx : k.bTransaction = some s.commitTx)
      (hl : k.bJlist = .shadow) (hjbd : (s.m.bufs b).jbddirty = true)
      (hsh : (s.m.bufs b).shadow = false)
      (hm : s.m.Stores b
        { s.m.bufs b with bPrivate := some { k with bJlist := .forget } } m') :
    s.Live .waitIo { s with m := m' }
  | forgetRelease {b n : ℕ} {k : JournalHead} {p : Option JournalHead} {m' : Memory}
      {j' : Journal} (hk : (s.m.bufs b).bPrivate = some k) (hph : s.j.phase = .forgetting)
      (htx : k.bTransaction = some s.commitTx) (hl : k.bJlist = .forget)
      (hn : k.bNextTransaction = none) (hj : s.j.Calm j')
      (hp : JournalHead.Released { k with
        bFrozenData := none
        bCpTransaction := if (s.m.bufs b).jbddirty then some s.commitTx else none
        bJcount := n
        bJlist := .none
        bTransaction := none } p)
      (hm : s.m.Stores b { s.m.bufs b with
        dirty := (s.m.bufs b).jbddirty, jbddirty := false, bPrivate := p } m') :
    s.Live .forgetBuffer { s with j := j', m := m' }
  | forgetRefile {b n r : ℕ} {k : JournalHead} {m' : Memory} {j' : Journal}
      (hk : (s.m.bufs b).bPrivate = some k) (hph : s.j.phase = .forgetting)
      (htx : k.bTransaction = some s.commitTx) (hl : k.bJlist = .forget)
      (hn : k.bNextTransaction = some r) (hj : s.j.Calm j')
      (hm : s.m.Stores b { s.m.bufs b with
        bPrivate := some { k with
          bFrozenData := none
          bCpTransaction := if (s.m.bufs b).jbddirty then some s.commitTx else none
          bJcount := n
          bTransaction := some r
          bNextTransaction := none
          bJlist := if k.bModified then .metadata else .reserved } } m') :
    s.Live .forgetBuffer { s with j := j', m := m' }
  | ioDone {i : ℕ} {l : LogBlock} {m' : Memory}
      (hl : (s.log (s.j.txs s.commitTx).tLogStart).blocks[i]? = some l)
      (hcom : s.j.jCommittingTransaction = some s.commitTx) (hio : l.io = .submitted)
      (hm : s.m.Stores l.blocknr { s.m.bufs l.blocknr with shadow := false } m') :
    s.Live (.ioDone i)
      { s.mapLog fun t => t.setBlock i (l.finish (s.m.bufs l.blocknr).bData) with m := m' }
  | writeHome {b : ℕ} {a : SysAct} {m' : Memory} {batch' : List ℕ}
      (ha : a = .writeback b ∨ a = .cpFlush) (hd : (s.m.bufs b).dirty = true)
      (hm : s.m.Stores b { s.m.bufs b with dirty := false } m') :
    s.Live a
      { s with
        m := m', home := update s.home b (s.m.bufs b).bData, batch := batch' }
  | uncheckpoint {b : ℕ} {a : SysAct} {k : JournalHead} {p : Option JournalHead} {m' : Memory}
      {j' : Journal} (ha : a = .tryToFree b ∨ a = .cpIoRemove)
      (hk : (s.m.bufs b).bPrivate = some k) (hj : s.j.Calm j')
      (hp : p = some k ∨ JournalHead.Released { k with bCpTransaction := none } p)
      (hm : s.m.Stores b { s.m.bufs b with bPrivate := p } m') :
    s.Live a { s with j := j', m := m' }
  | cpQueue {b t : ℕ} {batch' : List ℕ} :
    s.Live .cpQueue { s with m := s.m.relinkIo b t, batch := batch' }
  | cpFlushClean {batch' : List ℕ} : s.Live .cpFlush { s with batch := batch' }
  | getblk {b : ℕ} {m' : Memory} (hc : s.rv.cached b = false)
      (hm : s.m.Stores b (.read (s.home b)) m') :
    s.Live (.getblk b) { s with m := m', rv := s.rv.readBlock b }
  | discard {b : ℕ} (hp : (s.m.bufs b).bPrivate = none) (hd : (s.m.bufs b).dirty = false) :
    s.Live (.discard b) { s with rv := s.rv.discardBlock b }

/-- A deferred buffer has not been claimed by the next transaction and has no frozen data. -/
def DefersUnclaimed (s : System) : SysAct → Prop
  | .deferUnfile =>
    match s.nextBuffer with
    | some (_, k) => k.bNextTransaction = none ∧ k.bFrozenData = none
    | none => True
  | _ => True

instance (s : System) (a : SysAct) : Decidable (s.DefersUnclaimed a) :=
  decidable_of_iff (a = .deferUnfile →
      ∀ x ∈ s.nextBuffer, x.2.bNextTransaction = none ∧ x.2.bFrozenData = none)
    (by cases h : s.nextBuffer <;> cases a <;> simp [DefersUnclaimed, h])

variable {s s' : System} {a : SysAct} {b h t ino : ℕ} {x : BufferHead} {r : DirtyResult}
  {j' : Journal} {m' m : Memory}

theorem nextBuffer_place (hf : s.m.Filed) {k : JournalHead} (h : s.nextBuffer = some (b, k)) :
    k.bTransaction = some s.commitTx ∧ k.bJlist = .metadata := by
  obtain ⟨hmem, -, -, hk⟩ := nextBuffer_eq h
  have hp := BufferHead.place_eq_some_iff.mp (hf.mem_iff.mp hmem)
  rw [BufferHead.jh_eq hk] at hp
  exact ⟨hp.1, hp.2.1⟩

theorem txOf_ne (hi : QuietInv s.j) {h t : ℕ} (ht : s.txOf h = some t)
    (hq : s.j.phase.quiet = true) : t ≠ s.commitTx :=
  hi.att_ne hq (att_of_txOf ht)

theorem committing_eq (hi : Sound s) {u : ℕ} (hu : s.j.jCommittingTransaction = some u) :
    u = s.commitTx ∧ s.j.phase.committing = true := by
  have hp := hi.quiet.pointers.committing
  rw [show s.j.spine.committing = some u from hu] at hp
  split_ifs at hp with hph
  exact ⟨Option.some.inj hp, hph⟩

theorem accessLock_live {fb : Bool} {r : AccessResult} {op : ClientOp} (hi : Sound s)
    (hab : s.j.jAborted = false) (ht : s.txOf h = some t) (hop : s.ops h = .access b fb)
    (hx : (s.m.bufs b).doGetWriteAccess s.j.jAborted t s.j.jCommittingTransaction fb =
      some (x, r)) : s.Live (.accessLock h) ({ s with m := s.m.put b x }.setOp h op) := by
  have hok := (hi.placed hab).ok b
  rw [hab] at hx
  cases hk : (s.m.bufs b).bPrivate with
  | none =>
    simp only [BufferHead.doGetWriteAccess, hk] at hx
    cases hx
  | some k =>
    have hok := hok.of hk
    have hnext : k.bNextTransaction ≠ none → k.bTransaction ≠ none := by
      intro hn
      obtain ⟨r, hr⟩ := Option.ne_none_iff_exists'.mp hn
      simp [(hok.next r hr).1]
    rcases BufferHead.doGetWriteAccess_cases hk hok.clean hnext hx with
      ⟨hacc, rfl⟩ | ⟨htx, rfl⟩ | ⟨u, f, htx, hut, hn, hf, rfl⟩ | ⟨u, htx, hut, hn, -, hcm, rfl⟩
    · rw [put_bufs]
      exact .accessGranted (.inl ⟨fb, rfl, hop⟩) ht hk hacc
    · have hjbd : (s.m.bufs b).jbddirty = false := (hok.unfiled htx).2.2.2.1
      exact .accessFile (.inl ⟨fb, rfl, hop⟩) ht hk htx (by simp [hjbd]) (stores_put _ _ _)
    · have hu : u = s.commitTx ∧ s.j.phase.committing = true := by
        rcases hf with ⟨hf, -⟩ | ⟨-, hcm, -⟩
        · have := hok.frozen hf
          rw [htx] at this
          exact ⟨Option.some.inj this.1, this.2⟩
        · exact committing_eq hi hcm
      obtain ⟨rfl, hph⟩ := hu
      refine .accessClaim (.inl ⟨fb, rfl, hop⟩) ht hk htx (Ne.symm hut) hph hn ?_ (stores_put _ _ _)
      rcases hf with hf | ⟨hf, -, hsh, hfe⟩
      · exact .inl hf
      · exact .inr ⟨hf, hsh, hfe⟩
    · obtain ⟨rfl, hph⟩ := committing_eq hi hcm
      exact .accessRetry ht hop hk htx (Ne.symm hut) hph hn (stores_put _ _ _)

theorem createLock_live {goesOn : Bool} {op : ClientOp} (hi : Sound s)
    (hab : s.j.jAborted = false) (ht : s.txOf h = some t) (hop : s.ops h = .create b)
    (hx : (s.m.bufs b).getCreateAccess s.j.jAborted t s.j.jCommittingTransaction =
      some (x, goesOn)) : s.Live (.createLock h) ({ s with m := s.m.put b x }.setOp h op) := by
  have hok := (hi.placed hab).ok b
  have ha : s.Accesses (.createLock h) h b := .inr ⟨rfl, hop⟩
  rw [hab] at hx
  cases hk : (s.m.bufs b).bPrivate with
  | none =>
    simp only [BufferHead.getCreateAccess, hk] at hx
    cases hx
  | some k =>
    have hok := hok.of hk
    rcases BufferHead.getCreateAccess_cases hk hx with
      ⟨hacc, rfl⟩ | ⟨htx, rfl⟩ | ⟨u, htx, hcm, hn, hl, rfl⟩
    · rw [put_bufs]
      exact .accessGranted ha ht hk (.inl hacc)
    · have hjbd : (s.m.bufs b).jbddirty = false := (hok.unfiled htx).2.2.2.1
      exact .accessFile ha ht hk htx (by simp [hjbd]) (stores_put _ _ _)
    · obtain ⟨rfl, hph⟩ := committing_eq hi hcm
      have hne : t ≠ s.commitTx := txOf_ne hi.quiet ht (CommitPhase.quiet_of_committing hph)
      have hl := hl hne.symm
      refine .accessClaim (f := k.bFrozenData) ha ht hk htx hne hph hn ?_ (stores_put _ _ _)
      by_cases hf : k.bFrozenData = none
      · refine .inr ⟨hf, hok.shadow_false (by simp [hl]), ?_⟩
        rw [hf, if_neg (by simp [hl])]
      · exact .inl ⟨hf, rfl⟩

theorem dirty_live (hi : Sound s) (hab : s.j.jAborted = false) (ht : s.txOf h = some t)
    (hx : (s.m.bufs b).dirtyMetadata s.j.jAborted t s.j.jRunningTransaction
      s.j.jCommittingTransaction (s.j.handles h).hBufferCredits ino = some (x, r))
    (hj : s.j.Calm j') (herr : r.err = none) : s.Live (.dirty h b ino)
      { s with
        j := j'
        m := s.m.put b x
        unmarked := update s.unmarked h ((s.unmarked h).filter (· ≠ b))
        dirtied := { handle := h, tx := t, blocknr := b, ino := ino } :: s.dirtied } := by
  have hok := (hi.placed hab).ok b
  rw [hab] at hx
  cases hk : (s.m.bufs b).bPrivate with
  | none => exact absurd herr (BufferHead.dirtyMetadata_none hk hx).2
  | some k =>
    obtain ⟨hacc, -, hcases⟩ := BufferHead.dirtyMetadata_cases hk (hok.of hk).clean hx
    have heta : ∀ x : BufferHead, x.bPrivate = some k → k.bModified = true →
        x = { x with jbddirty := x.jbddirty, bPrivate := some { k with bModified := true } } := by
      intro x hx hmod
      cases x
      cases k
      simp_all
    rcases hcases with ⟨hmod, hl, rfl⟩ | ⟨-, rfl, hown⟩ | ⟨hmod, hne, -, -, rfl⟩ |
      ⟨hmod, htx, hl, -, -, rfl⟩
    · refine .dirty ht hk hacc hj (.inl ⟨rfl, rfl, hl, fun _ => hmod⟩) ?_
      rw [← heta _ hk hmod]
      exact stores_put _ _ _
    · have hown' := hown.resolve_left fun hfail => hfail.1 herr
      exact .dirty ht hk hacc hj
        (.inl ⟨rfl, rfl, fun _ => hown'.2, fun hne => absurd hown'.1 hne⟩) (stores_put _ _ _)
    · exact .dirty ht hk hacc hj (.inr (.inl ⟨rfl, hmod, hne, rfl⟩)) (stores_put _ _ _)
    · exact .dirty ht hk hacc hj (.inr (.inr ⟨rfl, hmod, htx, hl, rfl⟩)) (stores_put _ _ _)

theorem dirtyFails_live (hi : Sound s) (hab : s.j.jAborted = false) (ht : s.txOf h = some t)
    (hx : (s.m.bufs b).dirtyMetadata s.j.jAborted t s.j.jRunningTransaction
      s.j.jCommittingTransaction (s.j.handles h).hBufferCredits ino = some (x, r))
    (hj : s.j.Calm j') (herr : r.err ≠ none) :
    s.Live (.dirty h b ino) { s with j := j', m := s.m.put b x } := by
  have hok := (hi.placed hab).ok b
  rw [hab] at hx
  cases hk : (s.m.bufs b).bPrivate with
  | none =>
    rw [(BufferHead.dirtyMetadata_none hk hx).1]
    exact .dirtyFails ht hj (.inl rfl) (stores_put _ _ _)
  | some =>
    obtain ⟨-, -, hcases⟩ := BufferHead.dirtyMetadata_cases hk (hok.of hk).clean hx
    rcases hcases with ⟨-, -, rfl⟩ | ⟨-, rfl, -⟩ | ⟨-, -, hn, hcom, -⟩ | ⟨-, -, -, -, hnone, -⟩
    · exact .dirtyFails ht hj (.inl rfl) (stores_put _ _ _)
    · exact .dirtyFails ht hj (.inr (by rw [hk]; rfl)) (stores_put _ _ _)
    · refine absurd (hcom ?_) herr
      obtain ⟨htx, hph, -⟩ := (hok.of hk).next _ hn
      have hp := hi.quiet.pointers.committing
      rw [if_pos (show s.j.spine.phase.committing = true from hph)] at hp
      exact htx.trans hp.symm
    · exact absurd hnone herr

theorem forget_live {credit : Bool} {ops' : ℕ → ClientOp} (hi : Sound s)
    (hab : s.j.jAborted = false) (ha : s.Forgets a h b) (ht : s.txOf h = some t)
    (hm : s.m.journalForget s.j.jAborted t s.j.jCommittingTransaction b = some (m', credit))
    (hj : s.j.Calm j') : s.Live a
      { s with
        j := j', m := m', ops := ops'
        unmarked := update s.unmarked h ((s.unmarked h).filter (· ≠ b)) } := by
  have hok := (hi.placed hab).ok b
  rw [hab] at hm
  cases hk : (s.m.bufs b).bPrivate with
  | none =>
    simp only [journalForget, hk, Bool.false_eq_true, if_false] at hm
    cases hm
    exact .forgetBare ha ht hj hk
  | some =>
    rcases journalForget_cases hm hk (fun ht => ((hok.of hk).filed ht).1)
        (fun ht => ((hok.of hk).unfiled ht).2.1) with
      ⟨htx, -, hcp, hst⟩ | ⟨htx, hf, hcp, p, hp, hst⟩ | ⟨htx, hn, hst⟩
    · exact .forgetOwn ha ht hj hk htx hcp hst
    · exact .forgetUnfile ha ht hj hk htx hf hcp hp hst
    · exact .forgetOther ha ht hj hk htx hn hst

theorem stores_uncheckpoint (h : m.Stores b x m') (c : ℕ) (t : Option ℕ) :
    m.Stores b x (m'.uncheckpoint c t) := by
  cases t with
  | none => exact h
  | some t => exact ⟨h.bufs, fun hf => ⟨(h.filed hf).listed, (h.filed hf).nr⟩⟩

theorem stores_checkpoint (h : m.Stores b x m') (c t : ℕ) : m.Stores b x (m'.checkpoint c t) :=
  ⟨h.bufs, fun hf => ⟨(h.filed hf).listed, (h.filed hf).nr⟩⟩

theorem jh_of_place {l : Jlist} (hp : (s.m.bufs b).place = some (t, l)) :
    ∃ k, (s.m.bufs b).bPrivate = some k ∧ k.bTransaction = some t ∧ k.bJlist = l := by
  obtain ⟨k, hk, ht, hl, -⟩ := BufferHead.place_cases hp
  exact ⟨k, hk, ht, hl⟩

theorem removeCheckpoint_live (ha : a = .tryToFree b ∨ a = .cpIoRemove)
    (hx : (s.m.bufs b).removeCheckpoint = some x) (hj : s.j.Calm j') :
    s.Live a { s with j := j', m := (s.m.put b x).uncheckpoint b (some t) } := by
  cases hk : (s.m.bufs b).bPrivate with
  | none =>
    simp only [BufferHead.removeCheckpoint, hk] at hx
    cases hx
  | some =>
    rcases BufferHead.removeCheckpoint_eq hk hx with ⟨-, rfl⟩ | ⟨p, rfl, hp⟩
    · refine .uncheckpoint ha hk hj (.inl rfl) ?_
      rw [← hk]
      exact stores_uncheckpoint (stores_put _ _ _) _ _
    · exact .uncheckpoint ha hk hj (.inr hp) (stores_uncheckpoint (stores_put _ _ _) _ _)

theorem forgetBuffer_live {y : BufferHead} (hi : Sound s) (hab : s.j.jAborted = false)
    (hb : b ∈ s.m.lists (s.commitTx, .forget)) (hph : s.j.phase = .forgetting)
    (hy : (s.m.bufs b).commitForget s.j.jAborted (s.nextRunning b) s.commitTx = some y)
    (hj : s.j.Calm j') (hm : s.m.Stores b y m') :
    s.Live .forgetBuffer { s with j := j', m := m' } := by
  obtain ⟨k, hk, htx, hl⟩ := jh_of_place ((hi.placed hab).filed.mem_iff.mp hb)
  have hok := (hi.placed hab).ok b
  rw [hab] at hy
  obtain ⟨-, n, ⟨hn, p, rfl, hp⟩ | ⟨r, hr, rfl⟩⟩ := BufferHead.commitForget_cases hk
    (by simp [hl]) ((hok.of hk).clean (by simp [htx])) hy
  · exact .forgetRelease hk hph htx hl hn hj hp hm
  · exact .forgetRefile hk hph htx hl hr hj hm

/-- The steps of a sound system are the listed ones, as long as the journal is not aborted. -/
theorem live_cases (hi : Sound s) (hun : s.DefersUnclaimed a) (hs : s.step a = some s')
    (hab : s.j.jAborted = false) (hab' : s'.j.jAborted = false) : s.Live a s' := by
  cases step_cases hs with
  | proto hready hj => exact .proto hready hj
  | accessBegin ht _ _ hc => exact .accessBegin (.inl rfl) ht hc (stores_put _ _ _)
  | accessLock ht hop hx => exact accessLock_live hi hab ht hop hx
  | createBegin ht _ hc => exact .accessBegin (.inr rfl) ht hc (stores_put _ _ _)
  | createLock ht hop hx => exact createLock_live hi hab ht hop hx
  | accessCancel => exact .accessCancel
  | accessPut ht hop hx =>
    rename_i b t x
    cases hk : (s.m.bufs b).bPrivate with
    | none =>
      simp only [BufferHead.putJournalHead, hk] at hx
      cases hx
    | some =>
      obtain ⟨p, rfl, hp⟩ := BufferHead.putJournalHead_eq hk hx
      exact .accessPut ht hk hp (stores_put _ _ _)
  | modify ht _ hacc =>
    obtain ⟨k, hk, hacc'⟩ := BufferHead.accessible_cases hacc
    exact .modify ht hk hacc' (stores_put _ _ _)
  | dirty ht _ _ hx hj herr => exact dirty_live hi hab ht hx (.of_credit hj) herr
  | dirtyFails ht _ _ hx hj herr => exact dirtyFails_live hi hab ht hx (.of_credit hj) herr
  | forget ht _ hm hj => exact forget_live hi hab (.inl rfl) ht hm (.of_return hj)
  | revokeForget ht hop hm hj => exact forget_live hi hab (.inr ⟨rfl, hop⟩) ht hm (.of_return hj)
  | revokeFails => exact .revokeFails
  | revoke _ _ hrv => exact .revoke hrv
  | revokeInsert => exact .revokeInsert
  | @refileReserved b _ hb hph hsub hx =>
    obtain ⟨k, hk, htx, hl⟩ := jh_of_place ((hi.placed hab).filed.mem_iff.mp hb)
    have hok := (hi.placed hab).ok b
    rw [hab] at hx
    have hn : k.bNextTransaction = none := (hok.of hk).next_none (by rw [hph]; rfl)
    rcases BufferHead.refileBuffer_cases hx hk htx (by simp [hl])
        ((hok.of hk).clean (by simp [htx])) with ⟨-, p, rfl, hp⟩ | ⟨r, hr, -⟩
    · exact .unreserve hk hph hsub htx hl hn hp (stores_put _ _ _)
    · exact absurd (hn.symm.trans hr) (by simp)
  | clearRevoked hph hsub hl => exact .clearRevoked hph hsub hl
  | switchRevoke hph hsub => exact .switchRevoke hph hsub
  | writeRevokes hph hsub =>
    simp only [hab, Bool.false_eq_true, if_false]
    exact .writeRevokes hph hsub
  | deferUnfile hb htag hx =>
    obtain ⟨-, hph, hsub, hk⟩ := nextBuffer_eq hb
    obtain ⟨htx, hl⟩ := nextBuffer_place (hi.placed hab).filed hb
    simp only [DefersUnclaimed, hb] at hun
    rw [hab] at hx
    obtain ⟨p, rfl, hp⟩ := BufferHead.unfileBuffer_cases hk (by simp [htx]) (by simp [hl]) hx
    rw [hl]
    refine .deferUnfile hk hph hsub hb htag htx hl hun.1 hun.2 hp ?_
    have hclean := (((hi.placed hab).ok _).of hk).clean (by simp [htx])
    simpa [hclean] using stores_put s.m _ _
  | deferFile hsub hx =>
    rename_i b l x
    obtain rfl := (hi.placed hab).deferring b l hsub
    rw [hab] at hx
    cases hk : (s.m.bufs b).bPrivate with
    | none =>
      simp only [BufferHead.fileBuffer, hk] at hx
      cases hx
    | some =>
      obtain ⟨htx, n, rfl⟩ := BufferHead.fileBuffer_cases hk (((hi.placed hab).ok b).of hk).clean hx
      exact .deferFile hsub hk htx (stores_put _ _ _)
  | releaseAborted _ hab1 => exact absurd (hab.symm.trans hab1) (by simp)
  | write hb htag _ hj hx =>
    obtain ⟨-, hph, hsub, hk⟩ := nextBuffer_eq hb
    obtain ⟨htx, hl⟩ := nextBuffer_place (hi.placed hab).filed hb
    obtain ⟨hjbd, f, rfl, hf⟩ := BufferHead.writeMetadataBuffer_cases hk htx (by simp [hl])
      ((((hi.placed hab).ok _).of hk).clean (by simp [htx])) hx
    exact .write hk hph hsub hb htag htx hl hjbd hf (.logCredit hj) (stores_put _ _ _)
  | writeNeedsCopy hb htag _ hj hx =>
    obtain ⟨-, hph, hsub, hk⟩ := nextBuffer_eq hb
    obtain ⟨htx, hl⟩ := nextBuffer_place (hi.placed hab).filed hb
    obtain ⟨hjbd, hf, hw⟩ := BufferHead.writeMetadataBuffer_none hk hx
    exact .writeNeedsCopy hk hph hsub hb htag htx hl hjbd hf hw (.logCredit hj)
  | writeCopy hsub hx =>
    obtain ⟨k, hk, htx, hl⟩ := jh_of_place ((hi.placed hab).copying _ hsub)
    have hph : s.j.phase = .logging := by
      have hok := hi.sub
      rw [hsub] at hok
      cases hph : s.j.phase <;> first | rfl | (rw [hph] at hok; cases hok)
    rw [hab, BufferHead.writeEscapedCopy_eq hk htx (by simp [hl])
      ((((hi.placed hab).ok _).of hk).clean (by simp [htx]))] at hx
    cases hx
    exact .writeCopy hk hph hsub htx hl (stores_put _ _ _)
  | copyFailed _ hj => exact absurd ((Journal.abort_aborted hj).symm.trans hab') (by simp)
  | waitIo hb hph hjbd hsh hx =>
    obtain ⟨k, hk, htx, hl⟩ := jh_of_place ((hi.placed hab).filed.mem_iff.mp
      (List.mem_of_getLast? hb))
    rw [hab, BufferHead.fileBuffer_move hk htx (by simp [hl])
      ((((hi.placed hab).ok _).of hk).clean (by simp [htx]))] at hx
    cases hx
    exact .waitIo hk hph htx hl hjbd hsh (stores_put _ _ _)
  | forgetBuffer hb hph hy hj hm =>
    subst hm
    refine forgetBuffer_live hi hab hb hph hy (.of_drop hj) ?_
    split_ifs
    · exact stores_checkpoint (stores_uncheckpoint (stores_put _ _ _) _ _) _ _
    · exact stores_uncheckpoint (stores_put _ _ _) _ _
  | ioDone hl hcom hio => exact .ioDone hl hcom hio (stores_put _ _ _)
  | writeback hd => exact .writeHome (.inl rfl) hd (stores_put _ _ _)
  | tryToFree _ _ _ _ hx hj => exact removeCheckpoint_live (.inl rfl) hx (.of_drop hj)
  | cpQueue => exact .cpQueue
  | cpFlush _ hd => exact .writeHome (.inr rfl) hd (stores_put _ _ _)
  | cpFlushClean => exact .cpFlushClean
  | cpIoRemove hx hj => exact removeCheckpoint_live (.inr rfl) hx (.of_drop hj)
  | getblk hc => exact .getblk hc (stores_put _ _ _)
  | discard hp hd => exact .discard hp hd

end System

end VMsep.Jbd2
