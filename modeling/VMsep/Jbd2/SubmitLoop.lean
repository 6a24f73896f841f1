import VMsep.Jbd2.CommitLog
import VMsep.Lib.Staging

/-! The loop over `t_buffers` of the commit routine, with the buffer heads it puts in `wbuf`, aborts
of the journal and failing calls. `none` is a failed assertion or an access outside `wbuf`. -/

namespace VMsep.Jbd2

open Lib List Option

variable {n : ℕ}

structure LogBh (n : ℕ) where
  descriptor : Bool
  bData : Block n

/-- What the calls of one round of the loop do. -/
structure SubmitRound where
  /-- Somebody has aborted the journal. -/
  aborted : Bool
  /-- The block of `jbd2_vmsep_journal_get_descriptor_buffer`, if it returns a buffer. -/
  descriptorBlock : Option ℕ
  /-- `jbd2_vmsep_journal_next_log_block`. -/
  nextLogBlock : Option ℕ
  /-- `jbd2_vmsep_journal_write_metadata_buffer` returns an error. -/
  metadataFails : Bool

/-- The state of the loop. `bhs` are the buffer heads made so far; `wbuf` holds their numbers, and
its count is `bufs`. The last three are the buffers that have left `t_buffers`. -/
structure SubmitLoop (n : ℕ) where
  tBuffers : List (LogBuffer n)
  aborted : Bool
  descriptor : Option (ℕ × Descriptor n)
  wbuf : Staging ℕ
  bhs : List (LogBh n)
  submitted : List (ℕ × LogBh n)
  crc32Sum : BitVec 32
  deferred : List (LogBuffer n)
  refiled : List (LogBuffer n)
  shadow : List (LogBuffer n)

namespace SubmitLoop

def start (wbufsize : ℕ) (aborted : Bool) (tBuffers : List (LogBuffer n)) : SubmitLoop n :=
  { tBuffers := tBuffers, aborted := aborted, descriptor := none, wbuf := .empty wbufsize, bhs := []
    submitted := [], crc32Sum := -1, deferred := [], refiled := [], shadow := [] }

/-- A new buffer head goes in `wbuf`. -/
def putBh (bh : LogBh n) (s : SubmitLoop n) : Option (SubmitLoop n) :=
  (s.wbuf.place s.bhs.length).map fun wbuf => { s with wbuf := wbuf, bhs := s.bhs ++ [bh] }

/-- The loop at `start_journal_io`. -/
def startJournalIo (fmt : LogFormat) (s : SubmitLoop n) : Option (SubmitLoop n) :=
  s.wbuf.flush.bind fun (ids, wbuf) =>
    (ids.mapM fun id => s.bhs[id]?.map fun bh => (id, bh)).map fun out =>
      { s with
        wbuf := wbuf, submitted := s.submitted ++ out, descriptor := none
        crc32Sum := if fmt.checksum then
            out.foldl (fun crc x => fmt.crc32Be crc (ofFn x.2.bData)) s.crc32Sum
          else s.crc32Sum }

def getDescriptor (tid : Tid) (block : Option ℕ) (s : SubmitLoop n) : Option (SubmitLoop n) :=
  match s.descriptor with
  | some _ => some s
  | none =>
    if s.wbuf.count ≠ 0 then none
    else
      match block with
      | none => some { s with aborted := true }
      | some pos =>
        let d : Descriptor n := .new tid pos
        (s.putBh ⟨true, d.bData⟩).map fun s' => { s' with descriptor := some (s.bhs.length, d) }

def setDescriptor (id : ℕ) (d : Descriptor n) (s : SubmitLoop n) : SubmitLoop n :=
  { s with descriptor := some (id, d), bhs := s.bhs.set id ⟨true, d.bData⟩ }

/-- The copy of the first buffer goes in `wbuf` and its tag in the descriptor block. -/
def logBuffer (fmt : LogFormat) (tid : Tid) (x : LogBuffer n) (rest : List (LogBuffer n))
    (s : SubmitLoop n) : Option (SubmitLoop n) :=
  match s.descriptor with
  | none => none
  | some (id, d) =>
    (s.putBh ⟨false, x.tag.data⟩).bind fun s =>
      let d := d.addTag fmt tid x.tag.block x.tag.escaped x.tag.data
      let s := { s with tBuffers := rest, shadow := s.shadow ++ [x] }.setDescriptor id d
      if s.wbuf.count = s.wbuf.slots.length ∨ rest = [] ∨
          d.spaceLeft < fmt.tagBytes + 16 + fmt.csumSize then
        (s.setDescriptor id (d.close fmt)).startJournalIo fmt
      else some s

def round (fmt : LogFormat) (tid : Tid) (inoSync : ℕ) (r : SubmitRound) (s : SubmitLoop n) :
    Option (SubmitLoop n) :=
  match s.tBuffers with
  | [] => some s
  | x :: rest =>
    if x.ino ≠ inoSync then some { s with tBuffers := rest, deferred := s.deferred ++ [x] }
    else if s.aborted || r.aborted then
      let s := { s with aborted := true, tBuffers := rest, refiled := s.refiled ++ [x] }
      if rest = [] then s.startJournalIo fmt else some s
    else
      (s.getDescriptor tid r.descriptorBlock).bind fun s =>
        if s.aborted || r.nextLogBlock.isNone || r.metadataFails then
          some { s with aborted := true }
        else s.logBuffer fmt tid x rest

/-- The loop, for a number of rounds that is enough; `env i` is what happens in round `i`. -/
def phase2b (fmt : LogFormat) (tid : Tid) (inoSync : ℕ) (env : ℕ → SubmitRound) :
    (rounds i : ℕ) → SubmitLoop n → Option (SubmitLoop n)
  | 0, _, s => if s.tBuffers = [] then some s else none
  | rounds + 1, i, s =>
    if s.tBuffers = [] then some s
    else (s.round fmt tid inoSync (env i)).bind (phase2b fmt tid inoSync env rounds (i + 1))

variable {fmt : LogFormat} {tid : Tid} {inoSync w : ℕ} {s s' : SubmitLoop n}
  {done : List (LogBuffer n)} {x : LogBuffer n}

/-- The buffer heads were submitted in the order in which they were made, and the others are in
`wbuf`. -/
structure Staged (w : ℕ) (s : SubmitLoop n) : Prop where
  slots : s.wbuf.slots.length = w
  ids : s.submitted.map Prod.fst = range s.submitted.length
  le : s.submitted.length ≤ s.bhs.length
  pending : s.wbuf.Pending
    (range' s.submitted.length (s.bhs.length - s.submitted.length))

theorem Staged.count (h : Staged w s) : s.wbuf.count = s.bhs.length - s.submitted.length := by
  rw [h.pending.count, length_range']

theorem Staged.putBh (h : Staged w s) (hlt : s.wbuf.count < w) (bh : LogBh n) :
    ∃ wbuf, s.putBh bh = some { s with wbuf := wbuf, bhs := s.bhs ++ [bh] } ∧
      Staged w { s with wbuf := wbuf, bhs := s.bhs ++ [bh] } := by
  obtain ⟨wbuf, hplace, hpending, hlen⟩ := h.pending.place (h.slots ▸ hlt) s.bhs.length
  have hle := h.le
  refine ⟨wbuf, by rw [SubmitLoop.putBh, hplace]; rfl, ⟨hlen.trans h.slots, h.ids, ?_, ?_⟩⟩
  · rw [length_append]
    exact Nat.le_add_right_of_le hle
  have hrange : range' s.submitted.length (s.bhs.length - s.submitted.length) ++
      [s.bhs.length] = range' s.submitted.length
        ((s.bhs ++ [bh]).length - s.submitted.length) := by
    rw [length_append, length_singleton, Nat.succ_sub hle, range'_concat,
      Nat.one_mul, Nat.add_sub_cancel' hle]
  rw [← hrange]
  exact hpending

theorem mapM_bhs (bhs : List (LogBh n)) {k b : ℕ} (h : b + k = bhs.length) :
    (range' b k).mapM (fun id => bhs[id]?.map fun bh => (id, bh)) =
      some ((range' b k).zip (bhs.drop b)) := by
  induction k generalizing b with
  | zero => rfl
  | succ _ ih =>
    have hb : b < bhs.length := by omega
    rw [range'_succ, mapM_cons, getElem?_eq_getElem hb, ih (by omega),
      drop_eq_getElem_cons hb]
    rfl

/-- All buffer heads of `s` are submitted, and there is no descriptor block in use. -/
structure Submits (s s' : SubmitLoop n) : Prop where
  tBuffers : s'.tBuffers = s.tBuffers
  aborted : s'.aborted = s.aborted
  descriptor : s'.descriptor = none
  bhs : s'.bhs = s.bhs
  all : s'.submitted.length = s.bhs.length
  blocks : s'.submitted.map Prod.snd = s.submitted.map Prod.snd ++ s.bhs.drop s.submitted.length

theorem Staged.startJournalIo (h : Staged w s) :
    ∃ s', s.startJournalIo fmt = some s' ∧ Staged w s' ∧ Submits s s' := by
  have hle := h.le
  have hlen : (range' s.submitted.length (s.bhs.length - s.submitted.length)).length =
      (s.bhs.drop s.submitted.length).length := by
    rw [length_range', length_drop]
  have hout := mapM_bhs s.bhs (Nat.add_sub_cancel' hle)
  have hall : (s.submitted ++ (range' s.submitted.length
      (s.bhs.length - s.submitted.length)).zip (s.bhs.drop s.submitted.length)).length =
        s.bhs.length := by
    rw [length_append, length_zip, hlen, Nat.min_self, length_drop]
    omega
  simp only [SubmitLoop.startJournalIo, h.pending.flush, bind_some, hout, map_some]
  refine ⟨_, rfl, ⟨h.slots, ?_, Nat.le_of_eq hall, ?_⟩, ⟨rfl, rfl, rfl, rfl, hall, ?_⟩⟩
  · have happend := @range'_append_1 0 s.submitted.length
      (s.bhs.length - s.submitted.length)
    rw [Nat.zero_add, Nat.add_sub_cancel' hle] at happend
    rw [hall, map_append, h.ids, map_fst_zip (Nat.le_of_eq hlen), range_eq_range',
      range_eq_range', happend]
  · rw [hall, Nat.sub_self]
    exact Staging.pending_reset s.wbuf
  · rw [map_append, map_snd_zip (Nat.le_of_eq hlen.symm)]

structure Ready (w : ℕ) (s : SubmitLoop n) : Prop extends Staged w s where
  room : s.wbuf.count < w
  idle : s.descriptor = none → s.wbuf.count = 0
  inUse : ∀ id d, s.descriptor = some (id, d) →
    id = s.submitted.length ∧ s.bhs[id]? = some ⟨true, d.bData⟩

theorem Ready.congr (h : Ready w s) (hwbuf : s'.wbuf = s.wbuf) (hbhs : s'.bhs = s.bhs)
    (hsubmitted : s'.submitted = s.submitted) (hdescriptor : s'.descriptor = s.descriptor) :
    Ready w s' := by
  obtain ⟨⟨h1, h2, h3, h4⟩, h5, h6, h7⟩ := h
  refine ⟨⟨?_, ?_, ?_, ?_⟩, ?_, ?_, ?_⟩ <;> simp only [hwbuf, hbhs, hsubmitted, hdescriptor] <;>
    assumption

theorem Submits.ready (hw : 2 ≤ w) (hs : Staged w s') (h : Submits s s') : Ready w s' := by
  have hcount : s'.wbuf.count = 0 := by
    rw [hs.count, h.bhs, h.all, Nat.sub_self]
  refine ⟨hs, by omega, fun _ => hcount, fun id d hd => ?_⟩
  rw [h.descriptor] at hd
  cases hd

/-- The buffers `cur` have their tags in the descriptor block in use. -/
def Current (fmt : LogFormat) (tid : Tid) (s : SubmitLoop n) (cur : List (LogBuffer n)) : Prop :=
  match s.descriptor with
  | none => cur = []
  | some (_, d) => d.Holds fmt tid (cur.map LogBuffer.tag) ∧ d.Room fmt ∧
    s.bhs.drop s.submitted.length =
      ⟨true, d.bData⟩ :: cur.map fun x => ⟨false, x.tag.data⟩

def batchBhs (batch : Block n × List (LogBuffer n)) : List (LogBh n) :=
  ⟨true, batch.1⟩ :: batch.2.map fun x => ⟨false, x.tag.data⟩

/-- The buffers `done` are logged: what is submitted are descriptor blocks, each finished, with the
copies of the buffers they describe. -/
structure Logged (fmt : LogFormat) (tid : Tid) (submitted : List (LogBh n))
    (done : List (LogBuffer n)) (batches : List (Block n × List (LogBuffer n))) : Prop where
  blocks : submitted = batches.flatMap batchBhs
  encodes : ∀ batch ∈ batches, fmt.Encodes tid batch.1 (batch.2.map LogBuffer.tag)
  buffers : batches.flatMap Prod.snd = done

/-- Unless the journal is aborted, the buffers `done` are logged or in use. -/
def Content (fmt : LogFormat) (tid : Tid) (s : SubmitLoop n) (done : List (LogBuffer n)) : Prop :=
  s.aborted = false → ∃ before cur batches, done = before ++ cur ∧
    Logged fmt tid (s.submitted.map Prod.snd) before batches ∧ s.Current fmt tid cur

def matching (inoSync : ℕ) (l : List (LogBuffer n)) : List (LogBuffer n) :=
  l.filter fun x => x.ino = inoSync

/-- What holds at the top of the loop, when the buffers `done` have left `t_buffers`. -/
structure Inv (fmt : LogFormat) (tid : Tid) (inoSync w : ℕ) (s : SubmitLoop n)
    (done : List (LogBuffer n)) : Prop extends Ready w s where
  content : s.Content fmt tid (matching inoSync done)

theorem Ready.getDescriptor (hw : 2 ≤ w) (hn : 48 ≤ n) (h : Ready w s) (hc : s.Content fmt tid done)
    (block : Option ℕ) :
    ∃ s', s.getDescriptor tid block = some s' ∧ Ready w s' ∧ s'.Content fmt tid done ∧
      s'.tBuffers = s.tBuffers ∧ (s'.aborted = false → s'.descriptor.isSome) ∧
      (s.aborted = true → s'.aborted = true) := by
  unfold SubmitLoop.getDescriptor
  cases hd : s.descriptor with
  | some =>
    exact ⟨s, rfl, h, hc, rfl, fun _ => by rw [hd]; rfl, fun ha => ha⟩
  | none =>
    have hcount := h.idle hd
    rw [if_neg (by omega)]
    cases block with
    | none =>
      exact ⟨_, rfl, h.congr rfl rfl rfl hd.symm, fun ha => absurd ha (by simp), rfl,
        fun ha => absurd ha (by simp), fun _ => rfl⟩
    | some pos =>
      have hlen : s.submitted.length = s.bhs.length := by
        have := h.count
        have := h.le
        omega
      obtain ⟨wbuf, hput, hst⟩ := h.putBh (by omega) ⟨true, (Descriptor.new tid pos).bData⟩
      dsimp only
      rw [hput]
      refine ⟨_, rfl, ⟨⟨hst.slots, hst.ids, hst.le, hst.pending⟩, ?_, fun hn => ?_, ?_⟩, ?_, rfl,
        fun _ => rfl, fun ha => ha⟩
      · have := hst.count
        simp only [length_append, length_singleton] at this
        dsimp only
        omega
      · cases hn
      · intro id d hd'
        cases hd'
        exact ⟨hlen.symm, getElem?_concat_length⟩
      · intro ha
        obtain ⟨before, cur, batches, hdone, hlog, hcur⟩ := hc ha
        rw [Current, hd] at hcur
        subst hcur
        have hroom : 12 + fmt.tagBytes + 16 + fmt.csumSize ≤ n := by
          have := fmt.tagBytes_le
          have := fmt.csumSize_le
          omega
        refine ⟨before, [], batches, hdone, hlog, Descriptor.holds_new (by omega) pos, hroom, ?_⟩
        rw [hlen, drop_left]
        rfl

theorem Staged.setDescriptor (h : Staged w s) (id : ℕ) (d : Descriptor n) :
    Staged w (s.setDescriptor id d) := by
  have hlen : (s.setDescriptor id d).bhs.length = s.bhs.length := length_set
  refine ⟨h.slots, h.ids, ?_, ?_⟩
  · rw [hlen]
    exact h.le
  · rw [hlen]
    exact h.pending

theorem drop_set_append {α : Type} {l m : List α} {b : ℕ} {y : α} (h : l.drop b = y :: m)
    (c z : α) : ((l ++ [c]).set b z).drop b = z :: (m ++ [c]) := by
  have hb : b < l.length := by
    by_contra hge
    rw [drop_eq_nil_of_le (Nat.le_of_not_lt hge)] at h
    cases h
  rw [drop_set, if_neg (Nat.lt_irrefl b), Nat.sub_self,
    drop_append_of_le_length (Nat.le_of_lt hb), h]
  rfl

theorem Ready.logBuffer (hw : 2 ≤ w) (hn : 48 ≤ n) (h : Ready w s) (hc : s.Content fmt tid done)
    (hs : s.aborted = false) (hd : s.descriptor.isSome) (x : LogBuffer n)
    (rest : List (LogBuffer n)) :
    ∃ s', s.logBuffer fmt tid x rest = some s' ∧ Ready w s' ∧ s'.Content fmt tid (done ++ [x]) ∧
      s'.tBuffers = rest ∧ s'.aborted = false ∧
      (rest = [] → s'.submitted.length = s'.bhs.length) := by
  obtain ⟨⟨id, d⟩, hd⟩ := isSome_iff_exists.mp hd
  obtain ⟨before, cur, batches, rfl, hlog, hcur⟩ := hc hs
  rw [Current, hd] at hcur
  obtain ⟨hholds, hroom, hdrop⟩ := hcur
  obtain ⟨rfl, -⟩ := h.inUse id d hd
  have hadd := hholds.addTag hroom x.tag
  have htags : cur.map LogBuffer.tag ++ [x.tag] = (cur ++ [x]).map LogBuffer.tag := by simp
  rw [htags] at hadd
  obtain ⟨wbuf, hput, hst⟩ := h.putBh h.room ⟨false, x.tag.data⟩
  simp only [SubmitLoop.logBuffer, hd, hput, bind_some]
  generalize hd' : d.addTag fmt tid x.tag.block x.tag.escaped x.tag.data = d' at hadd
  -- the state with the tag
  have hst1 : Staged w { s with
      wbuf := wbuf, bhs := s.bhs ++ [⟨false, x.tag.data⟩], tBuffers := rest
      shadow := s.shadow ++ [x] } := ⟨hst.slots, hst.ids, hst.le, hst.pending⟩
  have hst2 := hst1.setDescriptor s.submitted.length d'
  have hdata : ∀ b : Block n, drop s.submitted.length
      (set (s.bhs ++ [⟨false, x.tag.data⟩]) s.submitted.length ⟨true, b⟩) =
        batchBhs (b, cur ++ [x]) := by
    intro b
    rw [drop_set_append hdrop, batchBhs, map_append]
    rfl
  split
  case isTrue hflush =>
    have hst3 := hst2.setDescriptor s.submitted.length (d'.close fmt)
    obtain ⟨s', hrun, hstaged, hsub⟩ := @Staged.startJournalIo _ fmt _ _ hst3
    refine ⟨s', hrun, hsub.ready hw hstaged, fun _ => ?_, hsub.tBuffers, hsub.aborted.trans hs,
      fun _ => hsub.all.trans (by rw [hsub.bhs])⟩
    have hfit : d'.tagp ≤ n - fmt.csumSize := by
      have hlen : (cur ++ [x]).length = cur.length + 1 := by simp
      have hsucc := fmt.tagOffset_succ cur.length
      have h1 := hadd.tagp
      have h2 := hholds.tagp
      rw [length_map] at h1 h2
      rw [hlen] at h1
      unfold Descriptor.Room at hroom
      split at hsucc <;> omega
    refine ⟨before ++ (cur ++ [x]), [], batches ++ [((d'.close fmt).bData, cur ++ [x])], by simp,
      ⟨?_, ?_, ?_⟩, ?_⟩
    · rw [hsub.blocks, flatMap_append]
      simp only [SubmitLoop.setDescriptor, set_set, flatMap_singleton]
      rw [hdata, hlog.blocks]
    · intro batch hb
      obtain hb | hb := mem_append.mp hb
      · exact hlog.encodes batch hb
      · rw [mem_singleton.mp hb]
        exact hadd.close (by simp) hfit (by omega)
    · rw [flatMap_append, hlog.buffers]
      simp
    · rw [Current, hsub.descriptor]
  case isFalse hmore =>
    obtain ⟨hfull, hrest, hspace⟩ : ¬ wbuf.count = wbuf.slots.length ∧ ¬ rest = [] ∧
        ¬ d'.spaceLeft < fmt.tagBytes + 16 + fmt.csumSize := by
      refine ⟨fun h1 => hmore (.inl h1), fun h2 => hmore (.inr (.inl h2)),
        fun h3 => hmore (.inr (.inr h3))⟩
    have hbase : s.submitted.length < s.bhs.length := by
      by_contra hge
      rw [drop_eq_nil_of_le (Nat.le_of_not_lt hge)] at hdrop
      cases hdrop
    refine ⟨_, rfl, ⟨hst2, ?_, fun hnone => ?_, ?_⟩, fun _ => ?_, rfl, hs,
      fun hnil => absurd hnil hrest⟩
    · have h1 := hst.count
      have h2 := h.count
      have h3 := h.room
      have h4 := hst.slots
      simp only [length_append, length_singleton] at h1
      rw [h4] at hfull
      show wbuf.count < w
      omega
    · cases hnone
    · intro id' d'' heq
      cases heq
      refine ⟨rfl, ?_⟩
      show ((s.bhs ++ [_]).set _ _)[_]? = _
      rw [getElem?_set_self (by rw [length_append]; omega)]
    · have hroom' : d'.Room fmt := by
        have := hadd.space
        unfold Descriptor.Room
        omega
      refine ⟨before, cur ++ [x], batches, by simp, hlog, ?_⟩
      exact And.intro hadd (And.intro hroom' (hdata d'.bData))

theorem matching_append_of_ne (h : x.ino ≠ inoSync) (l : List (LogBuffer n)) :
    matching inoSync (l ++ [x]) = matching inoSync l := by
  rw [matching, filter_append, filter_cons_of_neg (by simpa using h)]
  exact append_nil _

theorem matching_append_of_eq (h : x.ino = inoSync) (l : List (LogBuffer n)) :
    matching inoSync (l ++ [x]) = matching inoSync l ++ [x] := by
  rw [matching, filter_append, filter_cons_of_pos (by simpa using h)]
  rfl

/-- What a round does: the first buffer leaves `t_buffers`, or the journal is aborted. Only a
buffer of another inode leaves an empty list with buffer heads that are not submitted. -/
theorem Inv.round (hw : 2 ≤ w) (hn : 48 ≤ n) (h : Inv fmt tid inoSync w s done)
    {rest : List (LogBuffer n)} (hs : s.tBuffers = x :: rest) (r : SubmitRound) :
    ∃ s', s.round fmt tid inoSync r = some s' ∧
      ((s'.tBuffers = rest ∧ Inv fmt tid inoSync w s' (done ++ [x]) ∧
          (s.aborted = true → s'.aborted = true) ∧
          (x.ino = inoSync → rest = [] → s'.submitted.length = s'.bhs.length) ∧
          (x.ino ≠ inoSync → s'.submitted = s.submitted ∧ s'.bhs = s.bhs) ∧
          (s.aborted = true → s.submitted.length = s.bhs.length →
            s'.submitted.length = s'.bhs.length)) ∨
        (s'.tBuffers = s.tBuffers ∧ Inv fmt tid inoSync w s' done ∧ s.aborted = false ∧
          s'.aborted = true ∧ x.ino = inoSync)) := by
  simp only [SubmitLoop.round, hs]
  by_cases hino : x.ino = inoSync
  · rw [if_neg (by simpa using hino)]
    have hmatch := matching_append_of_eq hino done
    split
    case isTrue habort =>
      -- the buffer is refiled
      have hready : Ready w { s with
          aborted := true, tBuffers := rest, refiled := s.refiled ++ [x] } :=
        h.toReady.congr rfl rfl rfl rfl
      split
      case isTrue hlast =>
        obtain ⟨s', hrun, hstaged, hsub⟩ := @Staged.startJournalIo _ fmt _ _ hready.toStaged
        refine ⟨s', hrun, .inl ⟨hsub.tBuffers, ⟨hsub.ready hw hstaged, fun ha => ?_⟩,
          fun _ => hsub.aborted, fun _ _ => hsub.all.trans (by rw [hsub.bhs]),
          fun hne => absurd hino hne, fun _ _ => hsub.all.trans (by rw [hsub.bhs])⟩⟩
        rw [hsub.aborted] at ha
        cases ha
      case isFalse hmore =>
        exact ⟨_, rfl, .inl ⟨rfl, ⟨hready, fun ha => absurd ha (by simp)⟩, fun _ => rfl,
          fun _ hnil => absurd hnil hmore, fun hne => absurd hino hne, fun _ heq => heq⟩⟩
    case isFalse hok =>
      have hs0 : s.aborted = false := by
        cases ha : s.aborted with
        | false => rfl
        | true => rw [ha] at hok; exact absurd rfl hok
      obtain ⟨s1, hget, hready, hcontent, htb, hsome, -⟩ :=
        h.toReady.getDescriptor hw hn h.content r.descriptorBlock
      rw [hget, bind_some]
      split
      case isTrue hfail =>
        exact ⟨_, rfl, .inr ⟨htb.trans hs, ⟨hready.congr rfl rfl rfl rfl,
          fun ha => absurd ha (by simp)⟩, hs0, rfl, hino⟩⟩
      case isFalse hgo =>
        have hs1 : s1.aborted = false := by
          cases ha : s1.aborted with
          | false => rfl
          | true => rw [ha] at hgo; exact absurd rfl hgo
        obtain ⟨s', hrun, hready', hcontent', htb', hs', hlast⟩ :=
          hready.logBuffer hw hn hcontent hs1 (hsome hs1) x rest
        rw [← hmatch] at hcontent'
        have hnot : ¬ s.aborted = true := by simp [hs0]
        exact ⟨s', hrun, .inl ⟨htb', ⟨hready', hcontent'⟩, fun ha => absurd ha hnot,
          fun _ => hlast, fun hne => absurd hino hne, fun ha => absurd ha hnot⟩⟩
  · -- the buffer goes to the next transaction
    rw [if_pos (by simpa using hino)]
    refine ⟨_, rfl, .inl ⟨rfl, ⟨h.toReady.congr rfl rfl rfl rfl, ?_⟩, fun ha => ha,
      fun h1 => absurd h1 hino, fun _ => ⟨rfl, rfl⟩, fun _ heq => heq⟩⟩
    rw [matching_append_of_ne hino]
    exact h.content

/-- The loop empties `t_buffers`. All buffer heads are submitted then if the last buffer is of the
inode, and there are none if no buffer is; an aborted journal makes no new ones. -/
theorem Inv.phase2b (hw : 2 ≤ w) (hn : 48 ≤ n) (env : ℕ → SubmitRound) (rounds i : ℕ)
    (h : Inv fmt tid inoSync w s done)
    (hrounds : s.tBuffers.length + (if s.aborted then 0 else 1) ≤ rounds) :
    ∃ s', phase2b fmt tid inoSync env rounds i s = some s' ∧ s'.tBuffers = [] ∧
      Inv fmt tid inoSync w s' (done ++ s.tBuffers) ∧
      (∀ y, s.tBuffers.getLast? = some y → y.ino = inoSync → s'.submitted.length = s'.bhs.length) ∧
      ((∀ x ∈ s.tBuffers, x.ino ≠ inoSync) → s'.submitted = s.submitted ∧ s'.bhs = s.bhs) ∧
      (s.aborted = true → s.submitted.length = s.bhs.length →
        s'.submitted.length = s'.bhs.length) := by
  induction rounds generalizing i s done with
  | zero =>
    have hnil : s.tBuffers = [] := eq_nil_of_length_eq_zero (by omega)
    refine ⟨s, if_pos hnil, hnil, ?_, fun y hy => ?_, fun _ => ⟨rfl, rfl⟩, fun _ heq => heq⟩
    · rw [hnil, append_nil]
      exact h
    · rw [hnil] at hy
      cases hy
  | succ rounds ih =>
    rw [SubmitLoop.phase2b]
    cases hs : s.tBuffers with
    | nil =>
      refine ⟨s, if_pos rfl, hs, ?_, fun y hy => (by cases hy), fun _ => ⟨rfl, rfl⟩,
        fun _ heq => heq⟩
      rw [append_nil]
      exact h
    | cons x rest =>
      rw [if_neg (cons_ne_nil x rest)]
      rw [hs, length_cons] at hrounds
      obtain ⟨s1, hround, ⟨htb, hinv, habort, hlast, hnone, hkeep⟩ | ⟨htb, hinv, ha, ha', hino⟩⟩ :=
        h.round hw hn hs (env i)
      · -- the first buffer has left the list
        have hrounds' : s1.tBuffers.length + (if s1.aborted then 0 else 1) ≤ rounds := by
          rw [htb]
          cases ha : s.aborted with
          | true =>
            rw [habort ha]
            rw [ha] at hrounds
            omega
          | false =>
            rw [ha] at hrounds
            simp only [Bool.false_eq_true, if_false] at hrounds
            split <;> omega
        obtain ⟨s', hloop, hnil, hinv', hlast', hnone', hkeep'⟩ := ih (i + 1) hinv hrounds'
        rw [htb] at hinv' hlast' hnone'
        refine ⟨s', by rw [hround, bind_some, hloop], hnil, ?_, fun y hy hino => ?_,
          fun hall => ?_, fun ha heq => hkeep' (habort ha) (hkeep ha heq)⟩
        · rw [append_assoc] at hinv'
          exact hinv'
        · cases rest with
          | nil =>
            cases hy
            have hsame := hnone' fun x hx => absurd hx not_mem_nil
            rw [hsame.1, hsame.2]
            exact hlast hino rfl
          | cons =>
            rw [getLast?_cons_cons] at hy
            exact hlast' y hy hino
        · obtain ⟨h1, h2⟩ := hnone (hall x mem_cons_self)
          obtain ⟨h3, h4⟩ := hnone' fun y hy => hall y (mem_cons_of_mem x hy)
          exact ⟨h3.trans h1, h4.trans h2⟩
      · -- the journal is aborted
        have hrounds' : s1.tBuffers.length + (if s1.aborted then 0 else 1) ≤ rounds := by
          rw [ha] at hrounds
          rw [htb, hs, ha', length_cons]
          simp only [Bool.false_eq_true, if_false, if_true] at hrounds ⊢
          omega
        obtain ⟨s', hloop, hnil, hinv', hlast', -, -⟩ := ih (i + 1) hinv hrounds'
        rw [htb, hs] at hinv' hlast'
        exact ⟨s', by rw [hround, bind_some, hloop], hnil, hinv', hlast',
          fun hall => absurd hino (hall x mem_cons_self), fun h1 => absurd h1 (by simp [ha])⟩

end SubmitLoop

end VMsep.Jbd2
