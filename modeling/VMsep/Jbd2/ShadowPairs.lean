import Mathlib.Data.List.Nodup
import VMsep.Lib.Transition

/-! Phase 2b of the commit files a logged buffer on `t_shadow_list` and its log copy on `io_bufs`,
and phase 3 takes the last element of both. Only the completion of the copy's write clears
`BH_Shadow`. -/

namespace VMsep.Jbd2

open Function List

/-- A log copy is in `wbuf`, submitted (and locked), or written. -/
inductive CopyIo where
  | staged
  | submitted
  | written (uptodate : Bool)
  deriving DecidableEq

structure LogCopy where
  bPrivate : ℕ
  io : CopyIo
  deriving DecidableEq

/-- The copies of the buffers that meet `P` get another state. -/
def setIo (P : ℕ → Prop) [DecidablePred P] (io : CopyIo) (copies : List LogCopy) : List LogCopy :=
  copies.map fun c => if P c.bPrivate then { c with io := io } else c

theorem map_bPrivate_setIo (P : ℕ → Prop) [DecidablePred P] (io : CopyIo) (copies : List LogCopy) :
    (setIo P io copies).map LogCopy.bPrivate = copies.map LogCopy.bPrivate := by
  rw [setIo, map_map]
  apply map_congr_left
  intro c _
  dsimp only [comp]
  split <;> rfl

theorem mem_setIo {P : ℕ → Prop} [DecidablePred P] {io : CopyIo} {copies : List LogCopy}
    {c : LogCopy} (h : c ∈ setIo P io copies) :
    (P c.bPrivate ∧ c.io = io) ∨ (¬ P c.bPrivate ∧ c ∈ copies) := by
  obtain ⟨d, hd, rfl⟩ := mem_map.mp h
  split
  case isTrue hp => exact .inl ⟨hp, rfl⟩
  case isFalse hp => exact .inr ⟨hp, hd⟩

/-- What the calls of one round of phase 2b return. `full` says that `wbuf` or the descriptor is
full after the tag. -/
structure LogRound where
  getDescriptorBuffer : Bool
  nextLogBlock : Bool
  writeMetadataBuffer : Bool
  full : Bool

/-- The lists of the committing transaction. A buffer on `t_buffers` comes with its `jh->ino`;
`wbuf` holds the buffers whose copies are not submitted yet. -/
structure ShadowLists where
  inoSync : ℕ
  tBuffers : List (ℕ × ℕ)
  tShadowList : List ℕ
  tForget : List ℕ
  ioBufs : List LogCopy
  wbuf : List ℕ
  descriptor : Bool
  aborted : Bool
  shadow : ℕ → Bool
  jbddirty : ℕ → Bool
  phase3 : Bool
  err : Bool

inductive ShadowAct where
  | round (r : LogRound)
  | phase3
  | refileShadow
  | endBufferIo (b : ℕ) (uptodate : Bool)
  /-- A handle of the next transaction dirties the buffer for inode `ino`. -/
  | dirty (b ino : ℕ)
  | abort

namespace ShadowLists

/-- From the label `start_journal_io` on. -/
def startJournalIo (s : ShadowLists) : ShadowLists :=
  { s with
    ioBufs := setIo (· ∈ s.wbuf) .submitted s.ioBufs
    wbuf := []
    descriptor := false }

/-- `write_metadata_buffer` succeeds and the copy is filed on `io_bufs`. -/
def logBuffer (s : ShadowLists) (b : ℕ) (rest : List (ℕ × ℕ)) (full : Bool) : ShadowLists :=
  let s' := { s with
    tBuffers := rest
    tShadowList := s.tShadowList ++ [b]
    shadow := update s.shadow b true
    ioBufs := s.ioBufs ++ [⟨b, .staged⟩]
    wbuf := s.wbuf ++ [b]
    descriptor := true }
  if full = true ∨ rest = [] then s'.startJournalIo else s'

def round (s : ShadowLists) (r : LogRound) : Option ShadowLists :=
  match s.tBuffers with
  | [] => none
  | (b, ino) :: rest =>
    if ino ≠ s.inoSync then
      some { s with tBuffers := rest }
    else if s.aborted = true then
      let s' := { s with tBuffers := rest, jbddirty := update s.jbddirty b false }
      some (if rest = [] then s'.startJournalIo else s')
    else if s.descriptor = false ∧ s.wbuf ≠ [] then
      none
    else if s.descriptor = false ∧ r.getDescriptorBuffer = false then
      some { s with aborted := true }
    else if r.nextLogBlock = false then
      some { s with descriptor := true, aborted := true }
    else if s.jbddirty b = false then
      none
    else if r.writeMetadataBuffer = false then
      some { s with descriptor := true, aborted := true }
    else
      some (s.logBuffer b rest r.full)

/-- `journal_end_buffer_io_sync` of the copy of `b`. -/
def endBufferIo (s : ShadowLists) (b : ℕ) (uptodate : Bool) : Option ShadowLists :=
  if ⟨b, .submitted⟩ ∈ s.ioBufs then
    some { s with
      ioBufs := setIo (· = b) (.written uptodate) s.ioBufs
      shadow := update s.shadow b false }
  else
    none

/-- One round of phase 3, after `wait_on_buffer`. -/
def refileShadow (s : ShadowLists) : Option ShadowLists :=
  match s.ioBufs.getLast?, s.tShadowList.getLast? with
  | some c, some b =>
    if s.jbddirty b = true ∧ s.shadow b = false then
      some { s with
        ioBufs := s.ioBufs.dropLast
        tShadowList := s.tShadowList.dropLast
        tForget := s.tForget ++ [b]
        err := s.err || c.io != .written true }
    else
      none
  | _, _ => none

/-- `wait_on_buffer` of the last copy does not block. -/
def waited (s : ShadowLists) : Bool := s.ioBufs.getLast?.all (·.io != .submitted)

/-- `jh->ino = ino` in `dirty_metadata`, for a buffer that is on `t_buffers`. -/
def setIno (b ino : ℕ) (buffers : List (ℕ × ℕ)) : List (ℕ × ℕ) :=
  buffers.map fun x => if x.1 = b then (b, ino) else x

theorem map_fst_setIno (b ino : ℕ) (buffers : List (ℕ × ℕ)) :
    (setIno b ino buffers).map Prod.fst = buffers.map Prod.fst := by
  rw [setIno, map_map]
  apply map_congr_left
  intro x _
  dsimp only [comp]
  split
  case isTrue hx => exact hx.symm
  case isFalse => rfl

def step (s : ShadowLists) : ShadowAct → Option ShadowLists
  | .round r => if s.phase3 = true then none else s.round r
  | .phase3 => if s.tBuffers = [] then some { s with phase3 := true } else none
  | .refileShadow => if s.phase3 = true ∧ s.waited = true then s.refileShadow else none
  | .endBufferIo b uptodate => s.endBufferIo b uptodate
  | .dirty b ino => some { s with
      tBuffers := setIno b ino s.tBuffers
      jbddirty := update s.jbddirty b true }
  | .abort => some { s with aborted := true }

/-- Phase 2b begins: the buffers on `t_buffers` are distinct and nothing is logged. -/
structure Start (s : ShadowLists) : Prop where
  nodup : (s.tBuffers.map Prod.fst).Nodup
  shadowList : s.tShadowList = []
  ioBufs : s.ioBufs = []
  wbuf : s.wbuf = []
  phase3 : s.phase3 = false

/-- The copies on `io_bufs` belong to the buffers on `t_shadow_list`, position by position. -/
structure Paired (s : ShadowLists) : Prop where
  paired : s.ioBufs.map LogCopy.bPrivate = s.tShadowList
  nodup : (s.tBuffers.map Prod.fst ++ s.tShadowList).Nodup
  staged : ∀ c ∈ s.ioBufs, c.io = .staged → c.bPrivate ∈ s.wbuf
  cleared : ∀ c ∈ s.ioBufs, ∀ u, c.io = .written u → s.shadow c.bPrivate = false
  dirty : ∀ b ∈ s.tShadowList, s.jbddirty b = true
  logged : s.phase3 = true → s.tBuffers = []

/-- If the last buffer on `t_buffers` is deferred, no copy waits in `wbuf`. -/
def LastKept (s : ShadowLists) : ShadowAct → Prop
  | .round _ => ∀ b ino, s.tBuffers = [(b, ino)] → ino ≠ s.inoSync → s.wbuf = []
  | _ => True

variable {s s' : ShadowLists}

theorem Start.paired (h : s.Start) : s.Paired := by
  constructor
  case paired => rw [h.ioBufs, h.shadowList, map_nil]
  case nodup =>
    rw [h.shadowList, append_nil]
    exact h.nodup
  case staged =>
    intro c hc
    rw [h.ioBufs] at hc
    cases hc
  case cleared =>
    intro c hc
    rw [h.ioBufs] at hc
    cases hc
  case dirty =>
    intro b hb
    rw [h.shadowList] at hb
    cases hb
  case logged =>
    intro hp
    rw [h.phase3] at hp
    cases hp

theorem Paired.startJournalIo (h : s.Paired) : s.startJournalIo.Paired := by
  constructor
  case paired => exact (map_bPrivate_setIo ..).trans h.paired
  case nodup => exact h.nodup
  case staged =>
    intro c hc hst
    obtain ⟨-, hio⟩ | ⟨hnot, hc⟩ := mem_setIo hc
    · cases hio.symm.trans hst
    · exact absurd (h.staged c hc hst) hnot
  case cleared =>
    intro c hc u hu
    obtain ⟨-, hio⟩ | ⟨-, hc⟩ := mem_setIo hc
    · cases hio.symm.trans hu
    · exact h.cleared c hc u hu
  case dirty => exact h.dirty
  case logged => exact h.logged

section Head

variable {b ino : ℕ} {rest : List (ℕ × ℕ)}

theorem Paired.head (h : s.Paired) (hb : s.tBuffers = (b, ino) :: rest) :
    (rest.map Prod.fst ++ s.tShadowList).Nodup ∧ b ∉ rest.map Prod.fst ∧ b ∉ s.tShadowList := by
  have hn := h.nodup
  rw [hb, map_cons, cons_append, nodup_cons, mem_append, not_or] at hn
  exact ⟨hn.2, hn.1⟩

theorem Paired.drop (h : s.Paired) (hb : s.tBuffers = (b, ino) :: rest) (v : Bool) :
    { s with tBuffers := rest, jbddirty := update s.jbddirty b v }.Paired := by
  obtain ⟨hn, -, hnot⟩ := h.head hb
  constructor
  case paired => exact h.paired
  case nodup => exact hn
  case staged => exact h.staged
  case cleared => exact h.cleared
  case dirty =>
    intro c hc
    show update s.jbddirty b v c = true
    have hne : c ≠ b := by
      rintro rfl
      exact hnot hc
    rw [update_of_ne hne]
    exact h.dirty c hc
  case logged =>
    intro hp
    have hnil := h.logged hp
    rw [hb] at hnil
    cases hnil

theorem Paired.logBuffer (h : s.Paired) (hb : s.tBuffers = (b, ino) :: rest)
    (hd : s.jbddirty b = true) (full : Bool) : (s.logBuffer b rest full).Paired := by
  obtain ⟨hn, hrest, hnot⟩ := h.head hb
  have hlogged : Paired { s with
      tBuffers := rest, tShadowList := s.tShadowList ++ [b]
      shadow := update s.shadow b true, ioBufs := s.ioBufs ++ [⟨b, .staged⟩]
      wbuf := s.wbuf ++ [b], descriptor := true } := by
    constructor
    case paired =>
      show (s.ioBufs ++ [_]).map LogCopy.bPrivate = s.tShadowList ++ [b]
      rw [map_append, h.paired]
      rfl
    case nodup =>
      show (rest.map Prod.fst ++ (s.tShadowList ++ [b])).Nodup
      rw [← append_assoc, nodup_append]
      refine ⟨hn, nodup_singleton b, fun x hx y hy => ?_⟩
      rw [mem_singleton.mp hy]
      rintro rfl
      obtain hx | hx := mem_append.mp hx
      · exact hrest hx
      · exact hnot hx
    case staged =>
      intro c hc hst
      obtain hc | hc := mem_append.mp hc
      · exact mem_append_left _ (h.staged c hc hst)
      · rw [mem_singleton.mp hc]
        exact mem_append_right _ (mem_singleton_self b)
    case cleared =>
      intro c hc u hu
      obtain hc | hc := mem_append.mp hc
      · have hin : c.bPrivate ∈ s.tShadowList := h.paired ▸ mem_map_of_mem hc
        have hne : c.bPrivate ≠ b := by
          rintro rfl
          exact hnot hin
        show update s.shadow b true c.bPrivate = false
        rw [update_of_ne hne]
        exact h.cleared c hc u hu
      · rw [mem_singleton.mp hc] at hu
        cases hu
    case dirty =>
      intro c hc
      obtain hc | hc := mem_append.mp hc
      · exact h.dirty c hc
      · rw [mem_singleton.mp hc]
        exact hd
    case logged => exact (h.drop hb true).logged
  rw [ShadowLists.logBuffer]
  split
  · exact hlogged.startJournalIo
  · exact hlogged

end Head

/-- What a round of phase 2b does to the first buffer on `t_buffers`: hand it on, give it up,
abort, or log it. -/
theorem round_cases {r : LogRound} (h : s.round r = some s') :
    ∃ b ino rest, s.tBuffers = (b, ino) :: rest ∧
      ((ino ≠ s.inoSync ∧ s' = { s with tBuffers := rest }) ∨
        (∃ t : ShadowLists,
          t = { s with tBuffers := rest, jbddirty := update s.jbddirty b false } ∧
          s' = if rest = [] then t.startJournalIo else t) ∨
        (∃ d, s' = { s with descriptor := d, aborted := true }) ∨
        (s.jbddirty b = true ∧ s' = s.logBuffer b rest r.full)) := by
  rw [round] at h
  split at h
  · cases h
  rename_i b ino rest hb
  refine ⟨b, ino, rest, hb, ?_⟩
  split at h
  case isTrue hne => exact .inl ⟨hne, (Option.some.inj h).symm⟩
  split at h
  case isTrue => exact .inr (.inl ⟨_, rfl, (Option.some.inj h).symm⟩)
  split at h
  case isTrue => cases h
  split at h
  case isTrue => exact .inr (.inr (.inl ⟨s.descriptor, (Option.some.inj h).symm⟩))
  split at h
  case isTrue => exact .inr (.inr (.inl ⟨true, (Option.some.inj h).symm⟩))
  split at h
  case isTrue => cases h
  rename_i hdirty
  split at h
  case isTrue => exact .inr (.inr (.inl ⟨true, (Option.some.inj h).symm⟩))
  exact .inr (.inr (.inr ⟨by simpa using hdirty, (Option.some.inj h).symm⟩))

theorem Paired.round {r : LogRound} (h : s.Paired) (hr : s.round r = some s') : s'.Paired := by
  obtain ⟨b, ino, rest, hb, ⟨-, rfl⟩ | ⟨t, rfl, rfl⟩ | ⟨d, rfl⟩ | ⟨hd, rfl⟩⟩ := round_cases hr
  · obtain ⟨hpair, hn, hst, hcl, -, hlog⟩ := h.drop hb true
    exact ⟨hpair, hn, hst, hcl, h.dirty, hlog⟩
  · split
    · exact (h.drop hb false).startJournalIo
    · exact h.drop hb false
  · exact ⟨h.paired, h.nodup, h.staged, h.cleared, h.dirty, h.logged⟩
  · exact h.logBuffer hb hd r.full

theorem Paired.endBufferIo {b : ℕ} {u : Bool} (h : s.Paired) (he : s.endBufferIo b u = some s') :
    s'.Paired := by
  rw [ShadowLists.endBufferIo] at he
  split at he
  case isFalse => cases he
  cases he
  constructor
  case paired => exact (map_bPrivate_setIo (· = b) _ _).trans h.paired
  case nodup => exact h.nodup
  case staged =>
    intro c hc hst
    obtain ⟨-, hio⟩ | ⟨-, hc⟩ := mem_setIo (P := (· = b)) hc
    · cases hio.symm.trans hst
    · exact h.staged c hc hst
  case cleared =>
    intro c hc v hv
    show update s.shadow b false c.bPrivate = false
    obtain ⟨heq, -⟩ | ⟨hne, hc⟩ := mem_setIo (P := (· = b)) hc
    · rw [heq, update_self]
    · rw [update_of_ne hne]
      exact h.cleared c hc v hv
  case dirty => exact h.dirty
  case logged => exact h.logged

theorem Paired.refileShadow (h : s.Paired) (hr : s.refileShadow = some s') : s'.Paired := by
  rw [ShadowLists.refileShadow] at hr
  split at hr
  case h_2 => cases hr
  split at hr
  case isFalse => cases hr
  cases hr
  constructor
  case paired =>
    show s.ioBufs.dropLast.map LogCopy.bPrivate = s.tShadowList.dropLast
    rw [← h.paired, map_dropLast]
  case nodup => exact h.nodup.sublist ((dropLast_sublist _).append_left _)
  case staged => exact fun c hc => h.staged c (dropLast_subset _ hc)
  case cleared => exact fun c hc => h.cleared c (dropLast_subset _ hc)
  case dirty => exact fun b hb => h.dirty b (dropLast_subset _ hb)
  case logged => exact h.logged

/-- Every step keeps the copies paired with their buffers. -/
theorem Paired.step {a : ShadowAct} (h : s.Paired) (hs : s.step a = some s') : s'.Paired := by
  cases a with
  | round =>
    rw [ShadowLists.step] at hs
    split at hs
    · cases hs
    · exact h.round hs
  | phase3 =>
    rw [ShadowLists.step] at hs
    split at hs
    · rename_i hnil
      cases hs
      exact ⟨h.paired, h.nodup, h.staged, h.cleared, h.dirty, fun _ => hnil⟩
    · cases hs
  | refileShadow =>
    rw [ShadowLists.step] at hs
    split at hs
    · exact h.refileShadow hs
    · cases hs
  | endBufferIo => exact h.endBufferIo hs
  | dirty b ino =>
    cases hs
    refine ⟨h.paired, ?_, h.staged, h.cleared, fun c hc => ?_, fun hp => ?_⟩
    · show ((setIno b ino s.tBuffers).map Prod.fst ++ s.tShadowList).Nodup
      rw [map_fst_setIno]
      exact h.nodup
    case refine_3 =>
      show setIno b ino s.tBuffers = []
      rw [h.logged hp]
      rfl
    by_cases hcb : c = b
    · rw [hcb]
      exact update_self ..
    · exact (update_of_ne hcb ..).trans (h.dirty c hc)
  | abort =>
    cases hs
    exact ⟨h.paired, h.nodup, h.staged, h.cleared, h.dirty, h.logged⟩

/-- The loop of phase 2b leaves nothing in `wbuf`. -/
def Flushed (s : ShadowLists) : Prop := s.tBuffers = [] → s.wbuf = []

theorem Flushed.step {a : ShadowAct} (h : s.Flushed) (hk : s.LastKept a)
    (hs : s.step a = some s') : s'.Flushed := by
  cases a with
  | round r =>
    rw [ShadowLists.step] at hs
    split at hs
    · cases hs
    obtain ⟨b, ino, rest, hb, ⟨hne, rfl⟩ | ⟨t, rfl, rfl⟩ | ⟨d, rfl⟩ | ⟨-, rfl⟩⟩ := round_cases hs
    · intro hnil
      apply hk b ino _ hne
      rw [hb]
      exact congrArg _ hnil
    · intro hnil
      split
      · rfl
      rename_i hne
      rw [if_neg hne] at hnil
      exact absurd hnil hne
    · intro hnil
      exact absurd (hb.symm.trans hnil) (cons_ne_nil _ _)
    · intro hnil
      rw [logBuffer] at hnil ⊢
      split
      · rfl
      rename_i hne
      rw [if_neg hne] at hnil
      exact absurd (.inr hnil) hne
  | phase3 =>
    rw [ShadowLists.step] at hs
    split at hs
    · cases hs
      exact h
    · cases hs
  | refileShadow =>
    rw [ShadowLists.step] at hs
    split at hs
    · rw [refileShadow] at hs
      split at hs
      · split at hs
        · cases hs
          exact h
        · cases hs
      · cases hs
    · cases hs
  | endBufferIo =>
    rw [ShadowLists.step, endBufferIo] at hs
    split at hs
    · cases hs
      exact h
    · cases hs
  | dirty =>
    cases hs
    exact fun hnil => h (map_eq_nil_iff.mp hnil)
  | abort =>
    cases hs
    exact h

theorem Paired.refiles (h : s.Paired) (hf : s.Flushed) (hp : s.phase3 = true) {c : LogCopy}
    {rest : List LogCopy} (hio : s.ioBufs = rest ++ [c]) (hw : c.io ≠ .submitted) :
    ∃ u t, c.io = .written u ∧ s.step .refileShadow = some t ∧
      t.tForget = s.tForget ++ [c.bPrivate] ∧ t.ioBufs = rest := by
  have hmem : c ∈ s.ioBufs := by
    rw [hio]
    exact mem_append_right _ (mem_singleton_self c)
  obtain ⟨u, hu⟩ : ∃ u, c.io = .written u := by
    cases hc : c.io with
    | staged =>
      have hin := h.staged c hmem hc
      rw [hf (h.logged hp)] at hin
      cases hin
    | submitted => exact absurd hc hw
    | written u => exact ⟨u, rfl⟩
  have hlist : s.tShadowList = rest.map LogCopy.bPrivate ++ [c.bPrivate] := by
    rw [← h.paired, hio, map_append]
    rfl
  have hwait : s.waited = true := by
    rw [waited, hio, getLast?_concat]
    simp [hu]
  have hdirty := h.dirty c.bPrivate (by simp [hlist])
  have hrun : s.step .refileShadow = some { s with
      ioBufs := s.ioBufs.dropLast, tShadowList := s.tShadowList.dropLast
      tForget := s.tForget ++ [c.bPrivate], err := s.err || c.io != .written true } := by
    rw [ShadowLists.step, if_pos ⟨hp, hwait⟩, ShadowLists.refileShadow, hio, hlist]
    simp only [getLast?_concat]
    rw [if_pos ⟨hdirty, h.cleared c hmem u hu⟩]
  refine ⟨u, _, hu, hrun, rfl, ?_⟩
  show s.ioBufs.dropLast = rest
  rw [hio, dropLast_concat]

/-- In every state of a run of phases 2b and 3 the copies on `io_bufs` belong to the buffers on
`t_shadow_list`. If no buffer is deferred last while copies wait in `wbuf`, phase 3 always refiles
the buffer of the copy just written and fails no assertion. -/
theorem shadow_list_paired {s₀ : ShadowLists} {acts : List ShadowAct} (h₀ : s₀.Start)
    (h : Lib.exec step s₀ acts = some s) :
    s.ioBufs.map LogCopy.bPrivate = s.tShadowList ∧ (s.ioBufs = [] ↔ s.tShadowList = []) ∧
      (Lib.Along step LastKept s₀ acts → s.phase3 = true →
        ∀ c rest, s.ioBufs = rest ++ [c] → c.io ≠ .submitted →
          ∃ u t, c.io = .written u ∧ s.step .refileShadow = some t ∧
            t.tForget = s.tForget ++ [c.bPrivate] ∧ t.ioBufs = rest) := by
  have hinv : s.Paired := Lib.exec_invariant_all (fun _ _ _ => Paired.step) acts h₀.paired h
  refine ⟨hinv.paired, ?_, ?_⟩
  · rw [← hinv.paired, map_eq_nil_iff]
  intro hal hp c rest hio hw
  have hflush : s.Flushed :=
    Lib.exec_invariant (fun _ _ _ => Flushed.step) acts (fun _ => h₀.wbuf) h hal
  exact hinv.refiles hflush hp hio hw

def commitOf (tBuffers : List (ℕ × ℕ)) : ShadowLists where
  inoSync := 5
  tBuffers := tBuffers
  tShadowList := []
  tForget := []
  ioBufs := []
  wbuf := []
  descriptor := false
  aborted := false
  shadow := fun _ => false
  jbddirty := fun _ => true
  phase3 := false
  err := false

def quietRound : ShadowAct := .round ⟨true, true, true, false⟩

theorem shadow_list_paired_otherFirst :
    ∃ s u t, Lib.exec step (commitOf [(20, 7), (10, 5)])
        [quietRound, quietRound, .phase3, .endBufferIo 10 true] = some s ∧
      s.ioBufs = [⟨10, .written u⟩] ∧ s.step .refileShadow = some t ∧ t.tForget = [10] := by
  have hstart : (commitOf [(20, 7), (10, 5)]).Start := ⟨by decide, rfl, rfl, rfl, rfl⟩
  have hexec : Lib.exec step (commitOf [(20, 7), (10, 5)])
      [quietRound, quietRound, .phase3, .endBufferIo 10 true] = some _ := rfl
  have hkept : Lib.Along step LastKept (commitOf [(20, 7), (10, 5)])
      [quietRound, quietRound, .phase3, .endBufferIo 10 true] := by
    refine ⟨?_, ?_, trivial, trivial, trivial⟩
    · intro b ino hb
      cases hb
    intro b ino hb hne
    cases hb
    exact absurd rfl hne
  obtain ⟨-, -, h⟩ := shadow_list_paired hstart hexec
  obtain ⟨u, t, hu, hrun, hforget, -⟩ := h hkept rfl ⟨10, .written true⟩ [] rfl (by decide)
  cases hu
  exact ⟨_, true, t, hexec, rfl, hrun, hforget⟩

/-- The second buffer belongs to another inode. It is handed on last, so the copy of the first is
never submitted: phase 3 does not wait for it and finds the buffer still shadowed. -/
theorem shadow_list_unsubmitted :
    ∃ s, Lib.exec step (commitOf [(10, 5), (20, 7)]) [quietRound, quietRound, .phase3] = some s ∧
      (commitOf [(10, 5), (20, 7)]).Start ∧ s.phase3 = true ∧ s.ioBufs = [⟨10, .staged⟩] ∧
      s.tShadowList = [10] ∧ s.waited = true ∧ s.shadow 10 = true ∧ s.refileShadow = none :=
  ⟨_, rfl, ⟨by decide, rfl, rfl, rfl, rfl⟩, rfl, rfl, rfl, rfl, rfl, rfl⟩

end ShadowLists

end VMsep.Jbd2
