import VMsep.Jbd2.CommitLog
import VMsep.Lib.Transition

/-! `jbd2_vmsep_journal_write_revoke_records` with the buffers of the revoke blocks. A buffer is put
on `log_bufs` when it is obtained and released by the wait loop of the commit; `flush_descriptor`
also releases it if the journal has aborted. -/

namespace VMsep.Jbd2

open Lib List RevokeWriter

variable {n : ℕ}

/-- A buffer on `log_bufs`, with how often `flush_descriptor` wrote it and released it. -/
structure RevokeBh (n : ℕ) where
  bData : Block n
  flushes : ℕ
  puts : ℕ

def RevokeBh.flushDescriptor (fmt : LogFormat) (aborted : Bool) (offset : ℕ) (d : RevokeBh n) :
    RevokeBh n :=
  if aborted = true then { d with puts := d.puts + 1 }
  else
    { d with
      bData := fmt.descriptorBlockCsumSet (d.bData.put 12 4 offset), flushes := d.flushes + 1 }

/-- The references dropped: those of `flush_descriptor` and the one of the wait loop. -/
def RevokeBh.released (d : RevokeBh n) : ℕ := d.puts + 1

/-- What others do while a record is written: the journal aborts before the record, or before
`flush_descriptor` looks, and `get_descriptor_buffer` has a result. -/
structure RevokeEvent where
  aborts : Bool
  abortsInFlush : Bool
  gets : Bool
  deriving DecidableEq

def RevokeEvent.Quiet (ev : RevokeEvent) : Prop :=
  ev.aborts = false ∧ ev.abortsInFlush = false ∧ ev.gets = true

/-- The records that are left, in the order of the hash table, and `log_bufs` from its end on: the
descriptor of the caller is the first of the list. -/
structure RevokeTable (n : ℕ) where
  table : List (BitVec 64)
  logBufs : List (RevokeBh n)
  offset : ℕ
  aborted : Bool

namespace RevokeTable

/-- `flush_descriptor` if there is a descriptor. -/
def flush (fmt : LogFormat) (s : RevokeTable n) : RevokeTable n :=
  match s.logBufs with
  | [] => s
  | d :: rest => { s with logBufs := d.flushDescriptor fmt s.aborted s.offset :: rest }

theorem flush_frame (fmt : LogFormat) (s : RevokeTable n) :
    (s.flush fmt).aborted = s.aborted ∧ (s.flush fmt).table = s.table := by
  rw [flush]
  split <;> exact ⟨rfl, rfl⟩

def newDescriptor (fmt : LogFormat) (tid : Tid) (gets : Bool) (blocknr : BitVec 64)
    (s : RevokeTable n) : RevokeTable n :=
  if gets = true then
    let sz := RevokeWriter.recordLen fmt
    { s with
      logBufs :=
        ⟨(LogFormat.header LogFormat.revokeBlock tid).put 16 sz blocknr.toNat, 0, 0⟩ :: s.logBufs
      offset := 16 + sz }
  else s

/-- `write_one_revoke_record`. If no new block is found, the caller keeps the old descriptor. -/
def writeOneRevokeRecord (fmt : LogFormat) (tid : Tid) (ev : RevokeEvent) (blocknr : BitVec 64)
    (s : RevokeTable n) : RevokeTable n :=
  let sz := RevokeWriter.recordLen fmt
  if s.aborted = true ∨ ev.aborts = true then { s with aborted := true }
  else
    match s.logBufs with
    | [] => s.newDescriptor fmt tid ev.gets blocknr
    | d :: rest =>
      if n - fmt.csumSize < s.offset + sz then
        ({ s with aborted := ev.abortsInFlush }.flush fmt).newDescriptor fmt tid ev.gets blocknr
      else
        { s with
          logBufs := { d with bData := d.bData.put s.offset sz blocknr.toNat } :: rest
          offset := s.offset + sz }

/-- A round of `jbd2_vmsep_journal_write_revoke_records`. -/
def step (fmt : LogFormat) (tid : Tid) (s : RevokeTable n) (ev : RevokeEvent) :
    Option (RevokeTable n) :=
  match s.table with
  | [] => none
  | blocknr :: rest => some { s.writeOneRevokeRecord fmt tid ev blocknr with table := rest }

def finish (fmt : LogFormat) (s : RevokeTable n) (aborts : Bool) : RevokeTable n :=
  { s with aborted := s.aborted || aborts }.flush fmt

/-- While there is a descriptor the journal does not abort and new blocks are found. -/
def Kept (s : RevokeTable n) (ev : RevokeEvent) : Prop := s.logBufs ≠ [] → ev.Quiet

variable {s : RevokeTable n} {ev : RevokeEvent}

/-- What a record does to `log_bufs` if the condition is met: nothing, because there is no
descriptor and will be none; a new block after the last one is flushed; or an entry in it. -/
theorem writeOneRevokeRecord_cases (hk : s.Kept ev) (ha : s.logBufs ≠ [] → s.aborted = false)
    (fmt : LogFormat) (tid : Tid) (r : BitVec 64) :
    (s.logBufs = [] ∧ (s.writeOneRevokeRecord fmt tid ev r).logBufs = [] ∧
        ¬ (s.aborted = false ∧ ev.Quiet)) ∨
      (s.aborted = false ∧ s.writeOneRevokeRecord fmt tid ev r =
        (s.flush fmt).newDescriptor fmt tid true r) ∨
      ∃ d rest, s.logBufs = d :: rest ∧ s.aborted = false ∧
        s.offset + RevokeWriter.recordLen fmt ≤ n - fmt.csumSize ∧
        s.writeOneRevokeRecord fmt tid ev r =
          { s with
            logBufs :=
              { d with bData := d.bData.put s.offset (RevokeWriter.recordLen fmt) r.toNat } :: rest
            offset := s.offset + RevokeWriter.recordLen fmt } := by
  cases hb : s.logBufs with
  | nil =>
    rw [writeOneRevokeRecord]
    split
    case isTrue hab =>
      refine .inl ⟨rfl, hb, fun hq => ?_⟩
      obtain h | h := hab
      · cases hq.1.symm.trans h
      · cases hq.2.1.symm.trans h
    case isFalse hab =>
      rw [not_or, Bool.not_eq_true] at hab
      simp only [hb]
      cases hg : ev.gets with
      | false =>
        refine .inl ⟨trivial, by simp [newDescriptor, hb], fun hq => ?_⟩
        cases hg.symm.trans hq.2.2.2
      | true => exact .inr (.inl ⟨hab.1, by simp [flush, hb]⟩)
  | cons d rest =>
    have hne : s.logBufs ≠ [] := by
      rw [hb]
      exact List.cons_ne_nil _ _
    obtain ⟨hab, hflush, hg⟩ := hk hne
    have hno := ha hne
    rw [writeOneRevokeRecord, if_neg (by simp [hno, hab])]
    simp only [hb]
    split
    case isTrue =>
      refine .inr (.inl ⟨hno, ?_⟩)
      rw [hflush, hg, ← hno]
      simp only [flush, hb]
    case isFalse hfit => exact .inr (.inr ⟨d, rest, rfl, hno, by omega, rfl⟩)

/-- Only the descriptor that is being filled has not been written, and none is released. -/
def RefsOk (s : RevokeTable n) : Prop :=
  match s.logBufs with
  | [] => True
  | d :: rest => s.aborted = false ∧ d.puts = 0 ∧ d.flushes = 0 ∧
      ∀ c ∈ rest, c.puts = 0 ∧ c.flushes ≤ 1

theorem RefsOk.not_aborted (h : s.RefsOk) (hne : s.logBufs ≠ []) : s.aborted = false := by
  cases hb : s.logBufs with
  | nil => exact absurd hb hne
  | cons =>
    rw [RefsOk, hb] at h
    exact h.1

theorem RefsOk.flush (h : s.RefsOk) (hab : s.aborted = false) (fmt : LogFormat) :
    ∀ c ∈ (s.flush fmt).logBufs, c.puts = 0 ∧ c.flushes ≤ 1 := by
  cases hb : s.logBufs with
  | nil => simp [RevokeTable.flush, hb]
  | cons =>
    rw [RefsOk, hb] at h
    obtain ⟨-, hputs, hflushes, hrest⟩ := h
    intro c hc
    simp only [RevokeTable.flush, hb, mem_cons] at hc
    obtain rfl | hc := hc
    · simp [RevokeBh.flushDescriptor, hab, hputs, hflushes]
    · exact hrest c hc

/-- A step that gives back what it holds keeps the references. -/
theorem RefsOk.step {fmt : LogFormat} {tid : Tid} {s' : RevokeTable n} (h : s.RefsOk)
    (hk : s.Kept ev) (hs : s.step fmt tid ev = some s') : s'.RefsOk := by
  rw [RevokeTable.step] at hs
  split at hs
  · cases hs
  cases hs
  rename_i r rest' _
  obtain ⟨-, hnil, -⟩ | ⟨hab, heq⟩ | ⟨d, rest, hb, hab, -, heq⟩ :=
    writeOneRevokeRecord_cases hk h.not_aborted fmt tid r
  · simp [RefsOk, hnil]
  · rw [heq]
    exact ⟨(s.flush_frame fmt).1.trans hab, rfl, rfl, h.flush hab fmt⟩
  · rw [heq]
    rw [RefsOk, hb] at h
    exact ⟨hab, h.2.1, h.2.2.1, h.2.2.2⟩

/-- The first `rs.length` records of a revoke block; the next one goes to `offset`. -/
structure RevokesAt (fmt : LogFormat) (b : Block n) (offset : ℕ) (rs : List (BitVec 64)) :
    Prop where
  offset_eq : offset = 16 + rs.length * RevokeWriter.recordLen fmt
  fits : offset ≤ n - fmt.csumSize
  records : ∀ i (h : i < rs.length),
    b.be (16 + i * RevokeWriter.recordLen fmt) (RevokeWriter.recordLen fmt) = rs[i].toNat

def Fits (fmt : LogFormat) (r : BitVec 64) : Prop := r.toNat < 256 ^ RevokeWriter.recordLen fmt

section Codec

variable {fmt : LogFormat} {b : Block n} {offset : ℕ} {rs : List (BitVec 64)}

theorem record_le (fmt : LogFormat) {i k : ℕ} (h : i < k) :
    16 + i * RevokeWriter.recordLen fmt + RevokeWriter.recordLen fmt ≤
      16 + k * RevokeWriter.recordLen fmt := by
  have := Nat.mul_le_mul_right (recordLen fmt) h
  rw [Nat.succ_mul] at this
  omega

theorem RevokesAt.put (h : RevokesAt fmt b offset rs) {r : BitVec 64} (hr : Fits fmt r)
    (hfit : offset + RevokeWriter.recordLen fmt ≤ n - fmt.csumSize) :
    RevokesAt fmt (b.put offset (RevokeWriter.recordLen fmt) r.toNat)
      (offset + RevokeWriter.recordLen fmt) (rs ++ [r]) := by
  constructor
  case offset_eq =>
    rw [length_append, length_singleton, Nat.succ_mul, h.offset_eq, Nat.add_assoc]
  case fits => exact hfit
  case records =>
    intro i hi
    rw [length_append, length_singleton] at hi
    obtain hlt | rfl := Nat.lt_succ_iff_lt_or_eq.mp hi
    · rw [List.getElem_append_left hlt, Block.be_put_of_disjoint, h.records i hlt]
      exact .inl (h.offset_eq ▸ record_le fmt hlt)
    · rw [← h.offset_eq, Block.be_put _ (by omega), Nat.mod_eq_of_lt hr]
      simp

theorem RevokesAt.close (h : RevokesAt fmt b offset rs) (hn : offset < 2 ^ 32) (h16 : 16 ≤ offset) :
    (fmt.descriptorBlockCsumSet (b.put 12 4 offset)).be 12 4 = offset ∧
      RevokesAt fmt (fmt.descriptorBlockCsumSet (b.put 12 4 offset)) offset rs := by
  have hfit := h.fits
  refine ⟨?_, h.offset_eq, hfit, fun i hi => ?_⟩
  · rw [fmt.be_descriptorBlockCsumSet (by omega), Block.be_put _ (by omega)]
    exact Nat.mod_eq_of_lt hn
  have hle := record_le fmt hi
  rw [← h.offset_eq] at hle
  rw [fmt.be_descriptorBlockCsumSet (by omega), Block.be_put_of_disjoint (.inr (by omega))]
  exact h.records i hi

theorem RevokesAt.revokesFrom {cfg : RecoveryConfig} (h : RevokesAt cfg.toLogFormat b offset rs)
    (j : ℕ) {i rounds : ℕ} (hij : i + j = rs.length) (hr : j < rounds) :
    cfg.revokesFrom b offset rounds (16 + i * RevokeWriter.recordLen cfg.toLogFormat) =
      rs.drop i := by
  obtain ⟨rounds, rfl⟩ : ∃ k, rounds = k + 1 := ⟨rounds - 1, by omega⟩
  rw [RecoveryConfig.revokesFrom]
  induction j generalizing i rounds with
  | zero =>
    have hpos := RecoveryConfig.recordLen_pos cfg.toLogFormat
    have hoff := h.offset_eq
    rw [← hij, Nat.add_zero] at hoff
    rw [if_neg (by omega), drop_eq_nil_of_le (by omega)]
  | succ _ ih =>
    have hi : i < rs.length := by omega
    obtain ⟨rounds, rfl⟩ : ∃ k, rounds = k + 1 := ⟨rounds - 1, by omega⟩
    have hle := record_le cfg.toLogFormat hi
    rw [← h.offset_eq] at hle
    have hnext : 16 + i * recordLen cfg.toLogFormat +
        recordLen cfg.toLogFormat =
          16 + (i + 1) * recordLen cfg.toLogFormat := by
      rw [Nat.succ_mul, Nat.add_assoc]
    rw [if_pos hle, h.records i hi, hnext, RecoveryConfig.revokesFrom,
      ih (by omega) rounds (by omega), drop_eq_getElem_cons hi]
    simp

end Codec

variable {cfg : RecoveryConfig} {done : List (BitVec 64)}

/-- `scan_revoke_records` takes the block. -/
def Accepted (cfg : RecoveryConfig) (b : Block n) : Prop :=
  ∀ p : PassState n, cfg.scanRevokeRecords b p =
    some (.again (RecoveryConfig.setRevokes p (cfg.revokesOf b)))

/-- The blocks are written once and read back as the records `rs`. -/
structure Closed (cfg : RecoveryConfig) (bufs : List (RevokeBh n)) (rs : List (BitVec 64)) :
    Prop where
  records : (bufs.reverse.flatMap fun d => cfg.revokesOf d.bData) = rs
  written : ∀ d ∈ bufs, d.flushes = 1 ∧ Accepted cfg d.bData

theorem Closed.flush {rest : List (RevokeBh n)} {rs : List (BitVec 64)} {d : RevokeBh n}
    {offset : ℕ} (h : Closed cfg rest done) (hn : n < 2 ^ 32) (hd : d.flushes = 0)
    (hrs : RevokesAt cfg.toLogFormat d.bData offset rs) :
    Closed cfg (d.flushDescriptor cfg.toLogFormat false offset :: rest) (done ++ rs) := by
  have hfit := hrs.fits
  have hoff := hrs.offset_eq
  obtain ⟨hcount, hclosed⟩ := hrs.close (by omega) (by omega)
  have hread : cfg.revokesOf (cfg.descriptorBlockCsumSet (d.bData.put 12 4 offset)) = rs := by
    have hpos := RecoveryConfig.recordLen_pos cfg.toLogFormat
    have hlen := Nat.le_mul_of_pos_right rs.length hpos
    have hfrom := hclosed.revokesFrom rs.length (Nat.zero_add _) (show rs.length < n + 1 by omega)
    rw [RecoveryConfig.revokesOf, hcount]
    rwa [Nat.zero_mul, Nat.add_zero, drop_zero] at hfrom
  constructor
  case records =>
    rw [reverse_cons, flatMap_append, h.records, flatMap_singleton]
    exact congrArg (done ++ ·) hread
  case written =>
    intro c hc
    obtain rfl | hc := mem_cons.mp hc
    · refine ⟨congrArg Nat.succ hd, fun p => ?_⟩
      show cfg.scanRevokeRecords (cfg.descriptorBlockCsumSet (d.bData.put 12 4 offset)) p = _
      rw [cfg.scanRevokeRecords_eq (by omega), hcount,
        cfg.tailCsumOk_descriptorBlockCsumSet (by omega), if_neg (by simp), if_neg (by omega)]
      rfl
    · exact h.written c hc

/-- The records `done` are in the closed blocks and in the one that is being filled. -/
def Holds (cfg : RecoveryConfig) (s : RevokeTable n) (done : List (BitVec 64)) : Prop :=
  match s.logBufs with
  | [] => done = []
  | d :: rest => d.flushes = 0 ∧ ∃ before rs, done = before ++ rs ∧ Closed cfg rest before ∧
      RevokesAt cfg.toLogFormat d.bData s.offset rs

theorem Holds.flush (h : s.Holds cfg done) (hn : n < 2 ^ 32) (hab : s.aborted = false) :
    Closed cfg (s.flush cfg.toLogFormat).logBufs done := by
  cases hb : s.logBufs with
  | nil =>
    rw [Holds, hb] at h
    simp only [RevokeTable.flush, hb]
    refine ⟨h.symm, fun d hd => ?_⟩
    cases hd
  | cons =>
    rw [Holds, hb] at h
    obtain ⟨hd, before, rs, rfl, hclosed, hrs⟩ := h
    simp only [RevokeTable.flush, hb, hab]
    exact hclosed.flush hn hd hrs

/-- The records that are left can be written; those of `table` before them are. -/
structure Writing (cfg : RecoveryConfig) (table : List (BitVec 64)) (s : RevokeTable n) : Prop where
  aborted : s.aborted = false
  fits : ∀ r ∈ s.table, Fits cfg.toLogFormat r
  holds : ∃ done, table = done ++ s.table ∧ s.Holds cfg done

/-- A step without failure keeps the records those of the table. -/
theorem Writing.step {table : List (BitVec 64)} {tid : Tid} {s' : RevokeTable n}
    (h : Writing cfg table s) (hn : 28 ≤ n) (hn' : n < 2 ^ 32) (hq : ev.Quiet)
    (hs : s.step cfg.toLogFormat tid ev = some s') : Writing cfg table s' := by
  rw [RevokeTable.step] at hs
  split at hs
  · cases hs
  rename_i r rest' htable
  cases hs
  have hr : Fits cfg.toLogFormat r := h.fits r (by rw [htable]; exact mem_cons_self)
  have hfits : ∀ x ∈ rest', Fits cfg.toLogFormat x := fun x hx =>
    h.fits x (by rw [htable]; exact mem_cons_of_mem _ hx)
  obtain ⟨done, hdone, hholds⟩ := h.holds
  have hdone' : table = done ++ [r] ++ rest' := by rw [hdone, htable, append_cons]
  obtain ⟨-, -, hnot⟩ | ⟨hab, heq⟩ | ⟨d, rest, hb, hab, hfit, heq⟩ :=
    writeOneRevokeRecord_cases (fun _ => hq) (fun _ => h.aborted) cfg.toLogFormat tid r
  · exact absurd ⟨h.aborted, hq⟩ hnot
  · have hclosed := hholds.flush hn' hab
    have hroom : 16 + recordLen cfg.toLogFormat ≤ n - cfg.csumSize := by
      have h1 : recordLen cfg.toLogFormat ≤ 8 := by
        rw [recordLen]
        split <;> omega
      have h2 : cfg.csumSize ≤ 4 := by
        rw [LogFormat.csumSize]
        split <;> omega
      omega
    have hempty : RevokesAt cfg.toLogFormat
        (LogFormat.header LogFormat.revokeBlock tid : Block n) 16 [] :=
      ⟨by simp, by omega, fun i hi => absurd hi (Nat.not_lt_zero i)⟩
    rw [heq]
    exact ⟨(s.flush_frame _).1.trans hab, hfits, done ++ [r], hdone', rfl, done, [r], rfl, hclosed,
      hempty.put hr hroom⟩
  · rw [heq]
    rw [Holds, hb] at hholds
    obtain ⟨hd, before, rs, rfl, hclosed, hrs⟩ := hholds
    exact ⟨hab, hfits, _, hdone', hd, before, rs ++ [r], append_assoc .., hclosed, hrs.put hr hfit⟩

theorem exec_table (fmt : LogFormat) (tid : Tid) (evs : List RevokeEvent)
    (h : evs.length = s.table.length) :
    ∃ s', Lib.exec (step fmt tid) s evs = some s' ∧ s'.table = [] := by
  induction evs generalizing s with
  | nil => exact ⟨s, rfl, length_eq_zero_iff.mp h.symm⟩
  | cons ev _ ih =>
    cases ht : s.table with
    | nil =>
      rw [ht] at h
      cases h
    | cons r rest =>
      rw [ht] at h
      obtain ⟨s', hs', hnil⟩ :=
        ih (s := { s.writeOneRevokeRecord fmt tid ev r with table := rest }) (Nat.succ.inj h)
      refine ⟨s', Lib.exec_cons.mpr ⟨_, ?_, hs'⟩, hnil⟩
      rw [step, ht]

/-- The function empties the table. As long as the journal does not abort and blocks are found
while there is a descriptor, each buffer is released once and written at most once. If the journal
never aborts and all blocks are found, the blocks are written once, and read back as the table. -/
theorem revoke_records_written (cfg : RecoveryConfig) (tid : Tid) (hn : 28 ≤ n) (hn' : n < 2 ^ 32)
    {s₀ : RevokeTable n} {evs : List RevokeEvent} (h₀ : s₀.logBufs = [])
    (hlen : evs.length = s₀.table.length) (last : Bool) :
    ∃ s, Lib.exec (step cfg.toLogFormat tid) s₀ evs = some s ∧
      (s.finish cfg.toLogFormat last).table = [] ∧
      (Lib.Along (step cfg.toLogFormat tid) Kept s₀ evs → (s.logBufs ≠ [] → last = false) →
        ∀ d ∈ (s.finish cfg.toLogFormat last).logBufs, d.released = 1 ∧ d.flushes ≤ 1) ∧
      (s₀.aborted = false → (∀ ev ∈ evs, ev.Quiet) → last = false →
        (∀ r ∈ s₀.table, Fits cfg.toLogFormat r) →
        Closed cfg (s.finish cfg.toLogFormat last).logBufs s₀.table) := by
  obtain ⟨s, hs, hnil⟩ := exec_table cfg.toLogFormat tid evs hlen
  refine ⟨s, hs, (flush_frame _ _).2.trans hnil, fun hal hlast d hd => ?_,
    fun hab hq hfin hfits => ?_⟩
  · have hrefs : s.RefsOk := Lib.exec_invariant (fun _ _ _ => RefsOk.step) evs
      (by simp [RefsOk, h₀]) hs hal
    by_cases hb : s.logBufs = []
    · simp [finish, flush, hb] at hd
    rw [finish, hlast hb, Bool.or_false] at hd
    obtain ⟨hputs, hflushes⟩ := hrefs.flush (hrefs.not_aborted hb) _ d hd
    exact ⟨congrArg Nat.succ hputs, hflushes⟩
  · have hstart : Writing cfg s₀.table s₀ := ⟨hab, hfits, [], rfl, by simp [Holds, h₀]⟩
    have hw := Lib.exec_invariant (fun _ _ _ hi hq => Writing.step hi hn hn' hq) evs hstart hs
      (Lib.along_of_forall fun ev hev _ => hq ev hev)
    obtain ⟨done, hdone, hholds⟩ := hw.holds
    rw [hnil, append_nil] at hdone
    rw [hdone, finish, hfin, Bool.or_false]
    exact hholds.flush hn' hw.aborted

def fiveRecords : RevokeTable 32 := ⟨[7, 8, 9, 10, 11], [], 0, false⟩

def quietEvent : RevokeEvent := ⟨false, false, true⟩

theorem revoke_records_written_fiveRecords :
    ∃ s, Lib.exec (step (plainConfig 1 sampleArea).toLogFormat 1) fiveRecords
        (replicate 5 quietEvent) = some s ∧
      Closed (plainConfig 1 sampleArea)
        (s.finish (plainConfig 1 sampleArea).toLogFormat false).logBufs [7, 8, 9, 10, 11] := by
  have hlen : (replicate 5 quietEvent).length = fiveRecords.table.length := rfl
  obtain ⟨s, hs, -, -, h⟩ := revoke_records_written (plainConfig 1 sampleArea) 1 (by decide)
    (by decide) rfl hlen false
  refine ⟨s, hs, h rfl (fun ev hev => ?_) rfl ?_⟩
  · rw [eq_of_mem_replicate hev]
    exact ⟨rfl, rfl, rfl⟩
  · simp [Fits, fiveRecords, recordLen, plainConfig]

/-- An abort after the first record: the buffer is released by `flush_descriptor` and by the wait
loop. No block for the fifth record: the full block is flushed twice. -/
theorem revoke_buffer_released_twice :
    (∃ s d, Lib.exec (step (plainConfig 1 sampleArea).toLogFormat 1)
        (⟨[7, 8], [], 0, false⟩ : RevokeTable 32) [quietEvent, ⟨true, false, true⟩] = some s ∧
      (s.finish (plainConfig 1 sampleArea).toLogFormat false).logBufs = [d] ∧ d.released = 2) ∧
    ∃ s d, Lib.exec (step (plainConfig 1 sampleArea).toLogFormat 1) fiveRecords
        (replicate 4 quietEvent ++ [⟨false, false, false⟩]) = some s ∧
      (s.finish (plainConfig 1 sampleArea).toLogFormat false).logBufs = [d] ∧ d.flushes = 2 :=
  ⟨⟨_, _, rfl, rfl, rfl⟩, _, _, rfl, rfl, rfl⟩

end RevokeTable

end VMsep.Jbd2
