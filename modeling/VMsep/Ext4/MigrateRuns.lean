import VMsep.Ext4.Migrate

/-! The scan collects runs of blocks that follow each other in the file and on the disk. A run of at
most 32768 blocks becomes a written extent; the length of a longer one does not fit. -/

namespace VMsep.Ext4

open VMsep.Lib VMsep.Lib.Branches List

variable {look : ℕ → ℕ} {L : ℕ} {m m' : Migration} {extents : List FileExtent}

theorem extInsertExtent_spec {newext : FileExtent} (hlen : 0 < newext.len)
    (hord : fileView.Ordered (extents ++ [newext])) (hbound : Bounded extents) :
    ∃ l, extInsertExtent extents newext = .ok l ∧ fileView.Same l (extents ++ [newext]) := by
  unfold extInsertExtent
  rw [if_neg (by omega)]
  cases hlast : extents.getLast? with
  | none =>
    obtain rfl := getLast?_eq_none_iff.mp hlast
    exact ⟨_, rfl, hord.same⟩
  | some ex =>
    obtain ⟨pre, rfl⟩ := getLast?_eq_some_iff.mp hlast
    have hbefore : ex.eeBlock + ex.len ≤ newext.eeBlock :=
      (pairwise_append.mp hord.before).2.2 ex (by simp) newext (by simp)
    dsimp only
    rw [if_neg (by omega)]
    split
    case isTrue hmerge =>
      refine ⟨_, rfl, ?_⟩
      rw [append_assoc] at hord
      have hpair : fileView.Ordered [ex, newext] := hord.sublist (sublist_append_right pre _)
      have hsame := same_merged hpair (hbound ex (by simp)) hmerge
      have hcontext := hsame.context (p := pre) (q := []) (by rwa [append_nil])
      rw [append_nil, append_nil] at hcontext
      rw [dropLast_concat, append_assoc]
      exact hcontext
    case isFalse => exact ⟨_, rfl, hord.same⟩

def written (look : ℕ → ℕ) (x : ℕ) : Option (Bool × ℕ) :=
  if look x = 0 then none else some (false, look x)

/-- The extents say what is in the blocks before `K`. -/
structure Built (look : ℕ → ℕ) (K : ℕ) (extents : List FileExtent) : Prop where
  list : FileList extents
  stop : ∀ e ∈ extents, e.eeBlock + e.len ≤ K
  map : ∀ x, x < K → fileView.map extents x = written look x

/-- The blocks from `K` to `last` are a run that starts at `pblock`, and nothing is mapped between
the run and `L`. -/
structure Run (look : ℕ → ℕ) (K last pblock L : ℕ) : Prop where
  le : K ≤ last
  lt : last < L
  pos : pblock ≠ 0
  run : ∀ x, K ≤ x → x ≤ last → look x = pblock + (x - K)
  gap : ∀ x, last < x → x < L → look x = 0

/-- The blocks before `L` are scanned. -/
structure Scanned (look : ℕ → ℕ) (L : ℕ) (m : Migration) : Prop where
  curr : m.lb.currBlock = L % 2 ^ 32
  state : (m.lb.firstPblock = 0 ∧ Built look L m.extents) ∨
    (Built look m.lb.firstBlock m.extents ∧
      Run look m.lb.firstBlock m.lb.lastBlock m.lb.firstPblock L ∧
      m.lb.lastPblock = look m.lb.lastBlock)

/-- No more than 32768 blocks follow each other in the file and on the disk. -/
def ShortRuns (look : ℕ → ℕ) : Prop :=
  ∀ l, look l ≠ 0 → ∃ k, k ≤ extInitMaxLen ∧ look (l + k) ≠ look l + k

def Limited (look : ℕ → ℕ) : Prop := ∀ l, extMaxBlocks ≤ l → look l = 0

theorem Built.extend {K : ℕ} (h : Built look K extents) (hle : K ≤ L)
    (hgap : ∀ x, K ≤ x → x < L → look x = 0) : Built look L extents := by
  refine ⟨h.list, fun e he => (h.stop e he).trans hle, fun x hx => ?_⟩
  by_cases hlt : x < K
  · exact h.map x hlt
  rw [written, if_pos (hgap x (by omega) hx)]
  refine fileView.map_eq_none fun e he => ?_
  rw [← Bool.not_eq_true, fileView_covers]
  have := h.stop e he
  omega

theorem Run.length_le {K last pblock : ℕ} (h : Run look K last pblock L) (hshort : ShortRuns look) :
    last - K + 1 ≤ extInitMaxLen := by
  have hle := h.le
  by_contra hlong
  have hfirst : look K = pblock := by
    rw [h.run K (Nat.le_refl K) h.le, Nat.sub_self, Nat.add_zero]
  obtain ⟨k, hk, hne⟩ := hshort K (by rw [hfirst]; exact h.pos)
  refine hne ?_
  rw [h.run (K + k) (by omega) (by omega), hfirst, Nat.add_sub_cancel_left]

theorem storedLen_of_le {len : ℕ} (h : len ≤ extInitMaxLen) : storedLen len = (len, false) := by
  have hmod : len % 2 ^ 16 = len := by
    unfold extInitMaxLen at h
    exact Nat.mod_eq_of_lt (by omega)
  unfold storedLen
  rw [hmod]
  exact if_pos h

theorem Run.last_lt {K last pblock : ℕ} (h : Run look K last pblock L) (hlimit : Limited look) :
    last < extMaxBlocks ∧ (last + 2 ^ 32 - K + 1) % 2 ^ 32 = last - K + 1 := by
  have hle := h.le
  have hlast : last < extMaxBlocks := by
    by_contra hge
    have h0 := hlimit last (by omega)
    rw [h.run last hle (Nat.le_refl _)] at h0
    have := h.pos
    omega
  refine ⟨hlast, ?_⟩
  unfold extMaxBlocks at hlast
  omega

/-- The open run has more than 32768 blocks. -/
def Long (m : Migration) : Prop :=
  m.lb.firstPblock ≠ 0 ∧ extInitMaxLen < m.lb.lastBlock - m.lb.firstBlock + 1

theorem Scanned.not_long (h : Scanned look L m) (hshort : ShortRuns look) : ¬ Long m := by
  rintro ⟨hopen, hlong⟩
  obtain ⟨hnone, -⟩ | ⟨-, hrun, -⟩ := h.state
  · exact hopen hnone
  · have := hrun.length_le hshort
    omega

/-- A run that is not too long becomes an extent. -/
theorem finishRange_spec (hlimit : Limited look) (h : Scanned look L m) (hshort : ¬ Long m) :
    ∃ m', finishRange m = .ok m' ∧ m'.lb.firstPblock = 0 ∧ Built look L m'.extents := by
  unfold finishRange
  obtain ⟨hnone, hbuilt⟩ | ⟨hbuilt, hrun, -⟩ := h.state
  · exact ⟨m, if_pos hnone, hnone, hbuilt⟩
  rw [if_neg hrun.pos]
  have hle := hrun.le
  have hlen : m.lb.lastBlock - m.lb.firstBlock + 1 ≤ extInitMaxLen := by
    by_contra hlong
    exact hshort ⟨hrun.pos, by omega⟩
  obtain ⟨hlast, hwrap⟩ := hrun.last_lt hlimit
  generalize m.lb.firstBlock = K at hbuilt hrun hle hlen hwrap
  generalize m.lb.lastBlock = last at hrun hle hlen hlast hwrap
  generalize m.lb.firstPblock = pblock at hrun
  dsimp only
  rw [hwrap, storedLen_of_le hlen]
  have hord : fileView.Ordered (m.extents ++ [⟨K, last - K + 1, pblock, false⟩]) := by
    refine ⟨fun e he => ?_, pairwise_append.mpr ⟨hbuilt.list.ordered.before,
      pairwise_singleton _ _, fun e he b hb => ?_⟩⟩
    · obtain he | he := mem_append.mp he
      · exact hbuilt.list.ordered.pos e he
      · rw [mem_singleton.mp he]
        exact Nat.succ_pos _
    · rw [mem_singleton.mp hb]
      exact hbuilt.stop e he
  obtain ⟨l, hl, hsame⟩ := extInsertExtent_spec (Nat.succ_pos _) hord hbuilt.list.bounded
  rw [hl]
  have hstop : ∀ e ∈ m.extents ++ [⟨K, last - K + 1, pblock, false⟩],
      e.eeBlock + e.len ≤ last + 1 := by
    intro e he
    obtain he | he := mem_append.mp he
    · exact (hbuilt.stop e he).trans (by omega)
    rw [mem_singleton.mp he]
    show K + (last - K + 1) ≤ last + 1
    omega
  have hstop' := hsame.stop_le hstop
  refine ⟨_, rfl, rfl, Built.extend (K := last + 1)
    ⟨⟨hsame.left, fun e he => ?_⟩, hstop', fun x hx => ?_⟩ hrun.lt fun x h1 h2 =>
      hrun.gap x h1 h2⟩
  · exact (hstop' e he).trans hlast
  rw [hsame.map, fileView.map_append]
  by_cases hxK : x < K
  · rw [hbuilt.map x hxK]
    have hcov : fileView.covers ⟨K, last - K + 1, pblock, false⟩ x = false := by
      rw [← Bool.not_eq_true, fileView_covers]
      dsimp only
      omega
    rw [fileView.map_cons, hcov, fileView.map_nil]
    exact Option.or_none
  · have hnone : fileView.map m.extents x = none := by
      refine fileView.map_eq_none fun e he => ?_
      rw [← Bool.not_eq_true, fileView_covers]
      have := hbuilt.stop e he
      omega
    have hcov : fileView.covers ⟨K, last - K + 1, pblock, false⟩ x = true := by
      rw [fileView_covers]
      dsimp only
      omega
    have hlook := hrun.run x (by omega) (by omega)
    have hpos := hrun.pos
    rw [hnone, fileView.map_cons, hcov, if_pos rfl, written, if_neg (by omega), hlook]
    rfl

/-- The block at `L` belongs to the open run. -/
def Joins (m : Migration) (v : ℕ) : Prop :=
  m.lb.firstPblock ≠ 0 ∧ m.lb.lastPblock + 1 = v ∧ (m.lb.lastBlock + 1) % 2 ^ 32 = m.lb.currBlock

theorem Scanned.currBlock (h : Scanned look L m) (hlimit : Limited look) (h0 : look L ≠ 0) :
    m.lb.currBlock = L := by
  have hL : L < extMaxBlocks := by
    by_contra hge
    exact h0 (hlimit L (by omega))
  rw [h.curr]
  unfold extMaxBlocks at hL
  exact Nat.mod_eq_of_lt (by omega)

theorem Scanned.curr_succ (h : Scanned look L m) :
    (m.lb.currBlock + 1) % 2 ^ 32 = (L + 1) % 2 ^ 32 := by
  rw [h.curr, Nat.mod_add_mod]

theorem visit_skip (h : Scanned look L m) (h0 : look L = 0) :
    visit m (look L) = .ok (skipBlocks 1 m) ∧ Scanned look (L + 1) (skipBlocks 1 m) := by
  refine ⟨if_neg (not_not.mpr h0), h.curr_succ, ?_⟩
  obtain ⟨hnone, hbuilt⟩ | ⟨hbuilt, hrun, hp⟩ := h.state
  · refine .inl ⟨hnone, hbuilt.extend (Nat.le_succ L) fun x h1 h2 => ?_⟩
    obtain rfl : x = L := by omega
    exact h0
  · refine .inr ⟨hbuilt, ⟨hrun.le, Nat.lt_succ_of_lt hrun.lt, hrun.pos, hrun.run,
      fun x h1 h2 => ?_⟩, hp⟩
    obtain hlt | rfl : x < L ∨ x = L := by omega
    · exact hrun.gap x h1 hlt
    · exact h0

theorem visit_follow (hlimit : Limited look) (h : Scanned look L m) (h0 : look L ≠ 0)
    (hf : Joins m (look L)) :
    ∃ m', visit m (look L) = .ok m' ∧ Scanned look (L + 1) m' ∧
      m'.lb.firstPblock = m.lb.firstPblock ∧ m'.lb.firstBlock = m.lb.firstBlock ∧
      m'.lb.lastBlock = L ∧ m.lb.lastBlock < L := by
  have hLmod := h.currBlock hlimit h0
  obtain ⟨hne, hp, hb⟩ := hf
  obtain ⟨hnone, -⟩ | ⟨hbuilt, hrun, hlast⟩ := h.state
  · exact absurd hnone hne
  have hlt := hrun.lt
  have hle := hrun.le
  unfold visit updateExtentRange
  rw [if_pos h0, if_pos ⟨hne, hp, hb⟩]
  refine ⟨_, rfl, ⟨h.curr_succ, .inr ⟨hbuilt, ⟨?_, ?_, hrun.pos, fun x h1 h2 => ?_,
    fun x h1 h2 => ?_⟩, ?_⟩⟩, rfl, rfl, hLmod, hlt⟩
  · dsimp only
    omega
  · dsimp only
    omega
  · dsimp only at h1 h2
    rw [hLmod] at h2
    obtain hlt' | rfl : x < L ∨ x = L := by omega
    · exact hrun.run x h1 (by omega)
    rw [← hp, hlast, hrun.run _ hle (Nat.le_refl _)]
    dsimp only
    omega
  · dsimp only at h1
    omega
  · dsimp only
    rw [hLmod]

theorem visit_new (h0 : look L ≠ 0) (hf : ¬ Joins m (look L)) :
    visit m (look L) = (finishRange m).map fun m' => { m' with
      lb := ⟨m.lb.currBlock, m.lb.currBlock, (m.lb.currBlock + 1) % 2 ^ 32, look L, look L⟩ } := by
  rw [visit, if_pos h0, updateExtentRange]
  exact if_neg hf

/-- Scanning a block keeps the invariant, if no run of more than 32768 blocks ends before it. -/
theorem visit_spec (hlimit : Limited look) (h : Scanned look L m) (hshort : ¬ Long m) :
    ∃ m', visit m (look L) = .ok m' ∧ Scanned look (L + 1) m' := by
  by_cases h0 : look L = 0
  · exact ⟨_, visit_skip h h0⟩
  by_cases hf : Joins m (look L)
  · obtain ⟨m', hv, hscan, -⟩ := visit_follow hlimit h h0 hf
    exact ⟨m', hv, hscan⟩
  have hLmod := h.currBlock hlimit h0
  obtain ⟨m', hfin, -, hbuilt⟩ := finishRange_spec hlimit h hshort
  rw [visit_new h0 hf, hfin]
  refine ⟨_, rfl, h.curr_succ, .inr ⟨?_, ⟨Nat.le_refl _, ?_, h0, fun x h1 h2 => ?_,
    fun x h1 h2 => ?_⟩, ?_⟩⟩
  · dsimp only
    rw [hLmod]
    exact hbuilt
  · dsimp only
    omega
  · dsimp only at h1 h2
    obtain rfl : x = L := by omega
    dsimp only
    rw [hLmod]
    omega
  · dsimp only at h1
    omega
  · dsimp only
    rw [hLmod]

/-- The scan of the first `L` blocks. -/
def scan (look : ℕ → ℕ) (L : ℕ) : Except MigrateError Migration :=
  ((range L).map look).foldlM visit ⟨⟨0, 0, 0, 0, 0⟩, []⟩

theorem scan_succ (look : ℕ → ℕ) (L : ℕ) :
    scan look (L + 1) = (scan look L).bind fun m => visit m (look L) := by
  rw [scan, range_succ, map_append, foldlM_append]
  show (_ >>= fun m => visit m (look L) >>= pure) = _
  simp only [bind_pure]
  rfl

theorem scanned_zero (look : ℕ → ℕ) : Scanned look 0 ⟨⟨0, 0, 0, 0, 0⟩, []⟩ := by
  refine ⟨rfl, .inl ⟨rfl, ⟨⟨Ranges.Ordered.nil, ?_⟩, ?_, ?_⟩⟩⟩
  · exact fun e he => absurd he not_mem_nil
  · exact fun e he => absurd he not_mem_nil
  · exact fun x hx => absurd hx (Nat.not_lt_zero x)

/-- Short runs are collected block by block. -/
theorem scan_spec (hshort : ShortRuns look) (hlimit : Limited look) (L : ℕ) :
    ∃ m, scan look L = .ok m ∧ Scanned look L m := by
  induction L with
  | zero => exact ⟨_, rfl, scanned_zero look⟩
  | succ L ih =>
    obtain ⟨m, hm, hscan⟩ := ih
    obtain ⟨m', hm', hscan'⟩ := visit_spec hlimit hscan (hscan.not_long hshort)
    refine ⟨m', ?_, hscan'⟩
    rw [scan_succ, hm]
    exact hm'

section LongRuns

variable {x : ℕ}

def Uncovered (extents : List FileExtent) (x : ℕ) : Prop :=
  ∀ e ∈ extents, ¬ (e.eeBlock ≤ x ∧ x < e.eeBlock + e.len)

theorem Uncovered.map (h : Uncovered extents x) : fileView.map extents x = none := by
  refine fileView.map_eq_none fun e he => ?_
  rw [← Bool.not_eq_true, fileView_covers]
  exact h e he

theorem Uncovered.insert {newext : FileExtent} {l : List FileExtent} (h : Uncovered extents x)
    (hnew : ¬ (newext.eeBlock ≤ x ∧ x < newext.eeBlock + newext.len))
    (hins : extInsertExtent extents newext = .ok l) : Uncovered l x := by
  unfold extInsertExtent at hins
  split at hins
  · cases hins
  split at hins
  · cases hins
    exact forall_mem_singleton.mpr hnew
  rename_i ex hlast
  obtain ⟨pre, rfl⟩ := getLast?_eq_some_iff.mp hlast
  split at hins
  · cases hins
  rename_i hbefore
  split at hins
  · -- the new extent is merged with the last one
    rename_i hmerge
    cases hins
    simp only [canExtentsBeMerged, decide_eq_true_eq] at hmerge
    have hblock := hmerge.2.1
    have hle := Nat.mod_le (ex.eeBlock + ex.len) (2 ^ 32)
    have hex := h ex (by simp)
    rw [dropLast_concat]
    intro e he
    obtain he | he := mem_append.mp he
    · exact h e (by simp [he])
    · rw [mem_singleton.mp he]
      dsimp only
      omega
  · cases hins
    intro e he
    obtain he | he := mem_append.mp he
    · exact h e he
    · rw [mem_singleton.mp he]
      exact hnew

theorem map_ok {ε α β : Type} {r : Except ε α} {f : α → β} {b : β} (h : r.map f = .ok b) :
    ∃ a, r = .ok a ∧ f a = b := by
  cases r with
  | error e => cases h
  | ok a => exact ⟨a, rfl, Except.ok.inj h⟩

/-- A mapped block that no extent covers and none will. -/
structure Lost (look : ℕ → ℕ) (x L : ℕ) (m : Migration) : Prop where
  mapped : look x ≠ 0
  lt : x < L
  curr : m.lb.currBlock = L % 2 ^ 32
  opened : m.lb.firstPblock ≠ 0 → x < m.lb.firstBlock
  uncovered : Uncovered m.extents x

/-- The scan will lose a block or has lost one. -/
def Doomed (look : ℕ → ℕ) (L : ℕ) (m : Migration) : Prop :=
  (∃ x, Lost look x L m) ∨ (Scanned look L m ∧ Long m)

theorem storedLen_lt {len : ℕ} (h : extInitMaxLen < len) : (storedLen len).1 < len := by
  have hmod := Nat.mod_le len (2 ^ 16)
  have hpos : 0 < extInitMaxLen := by
    unfold extInitMaxLen
    omega
  unfold storedLen
  dsimp only
  split_ifs with hle
  · exact hle.trans_lt h
  · dsimp only
    omega

/-- The last block of a run that is too long is not in its extent. -/
theorem Doomed.finish (hlimit : Limited look) (h : Doomed look L m)
    (hfin : finishRange m = .ok m') : ∃ x, look x ≠ 0 ∧ x < L ∧ Uncovered m'.extents x := by
  unfold finishRange at hfin
  dsimp only at hfin
  rcases h with ⟨x, hlost⟩ | ⟨hscan, hopen, hlong⟩
  · refine ⟨x, hlost.mapped, hlost.lt, ?_⟩
    generalize storedLen _ = st at hfin
    split at hfin
    · cases hfin
      exact hlost.uncovered
    rename_i hopen
    have hx := hlost.opened hopen
    obtain ⟨l, hins, rfl⟩ := map_ok hfin
    exact hlost.uncovered.insert (fun hcov => absurd hcov.1 (not_le.mpr hx)) hins
  · obtain ⟨hnone, -⟩ | ⟨hbuilt, hrun, -⟩ := hscan.state
    · exact absurd hnone hopen
    have hle := hrun.le
    have hlast := hrun.run _ hle (Nat.le_refl _)
    have hstored := storedLen_lt hlong
    rw [if_neg hopen, (hrun.last_lt hlimit).2] at hfin
    generalize storedLen _ = st at hfin hstored
    obtain ⟨l, hins, rfl⟩ := map_ok hfin
    refine ⟨m.lb.lastBlock, by omega, hrun.lt, Uncovered.insert (fun e he => ?_) ?_ hins⟩
    · have := hbuilt.stop e he
      omega
    · rintro ⟨-, hcov⟩
      exact absurd (show m.lb.lastBlock < m.lb.firstBlock + st.1 from hcov) (by omega)

theorem Doomed.visit (hlimit : Limited look) (h : Doomed look L m)
    (hv : visit m (look L) = .ok m') : Doomed look (L + 1) m' := by
  have hcurr : m.lb.currBlock = L % 2 ^ 32 := by
    rcases h with ⟨x, hlost⟩ | ⟨hscan, -⟩
    · exact hlost.curr
    · exact hscan.curr
  have hsucc : (m.lb.currBlock + 1) % 2 ^ 32 = (L + 1) % 2 ^ 32 := by rw [hcurr, Nat.mod_add_mod]
  by_cases hkeep : look L = 0 ∨ Joins m (look L)
  · rcases h with ⟨x, hlost⟩ | ⟨hscan, hopen, hlong⟩
    · refine .inl ⟨x, ?_⟩
      have hlt := Nat.lt_succ_of_lt hlost.lt
      by_cases h0 : look L = 0
      · rw [VMsep.Ext4.visit, if_neg (not_not.mpr h0)] at hv
        cases hv
        exact ⟨hlost.mapped, hlt, hsucc, hlost.opened, hlost.uncovered⟩
      · rw [VMsep.Ext4.visit, if_pos h0] at hv
        cases hv.symm.trans (if_pos (hkeep.resolve_left h0))
        exact ⟨hlost.mapped, hlt, hsucc, hlost.opened, hlost.uncovered⟩
    · refine .inr ?_
      by_cases h0 : look L = 0
      · obtain ⟨hv', hscan'⟩ := visit_skip hscan h0
        cases hv.symm.trans hv'
        exact ⟨hscan', hopen, hlong⟩
      · obtain ⟨m₁, hv', hscan', hfirst, hblock, hlast, hlt⟩ :=
          visit_follow hlimit hscan h0 (hkeep.resolve_left h0)
        cases hv.symm.trans hv'
        refine ⟨hscan', hfirst ▸ hopen, ?_⟩
        rw [hblock, hlast]
        omega
  · rw [not_or] at hkeep
    rw [visit_new hkeep.1 hkeep.2] at hv
    obtain ⟨m₁, hfin, rfl⟩ := map_ok hv
    obtain ⟨x, hx, hlt, hun⟩ := h.finish hlimit hfin
    have hL : L < extMaxBlocks := by
      by_contra hge
      exact hkeep.1 (hlimit L (by omega))
    refine .inl ⟨x, hx, Nat.lt_succ_of_lt hlt, hsucc, fun _ => ?_, hun⟩
    dsimp only
    unfold extMaxBlocks at hL
    rw [hcurr, Nat.mod_eq_of_lt (by omega)]
    exact hlt

theorem scan_of_succ (h : scan look (L + 1) = .ok m') :
    ∃ m, scan look L = .ok m ∧ visit m (look L) = .ok m' := by
  rw [scan_succ] at h
  cases hm : scan look L with
  | error e =>
    rw [hm] at h
    cases h
  | ok m =>
    rw [hm] at h
    exact ⟨m, rfl, h⟩

theorem scan_progress (hlimit : Limited look) (h : scan look L = .ok m) :
    Doomed look L m ∨ Scanned look L m := by
  induction L generalizing m with
  | zero =>
    cases h
    exact .inr (scanned_zero look)
  | succ L ih =>
    obtain ⟨m₀, hm₀, hv⟩ := scan_of_succ h
    rcases ih hm₀ with hdoomed | hscan
    · exact .inl (hdoomed.visit hlimit hv)
    by_cases hlong : Long m₀
    · exact .inl (Doomed.visit hlimit (.inr ⟨hscan, hlong⟩) hv)
    · obtain ⟨m', hv', hscan'⟩ := visit_spec hlimit hscan hlong
      cases hv.symm.trans hv'
      exact .inr hscan'

/-- A block that is mapped ends up in the open run. -/
theorem visit_opens (hlimit : Limited look) (h : Scanned look L m) (h0 : look L ≠ 0)
    (hv : visit m (look L) = .ok m') :
    Doomed look (L + 1) m' ∨ (Scanned look (L + 1) m' ∧ m'.lb.firstPblock ≠ 0 ∧
      m'.lb.firstBlock ≤ L ∧ m'.lb.lastBlock = L) := by
  by_cases hlong : Long m
  · exact .inl (Doomed.visit hlimit (.inr ⟨h, hlong⟩) hv)
  obtain ⟨m₁, hv₁, hscan⟩ := visit_spec hlimit h hlong
  cases hv.symm.trans hv₁
  refine .inr ⟨hscan, ?_⟩
  have hLmod := h.currBlock hlimit h0
  by_cases hf : Joins m (look L)
  · obtain ⟨m₂, hv₂, -, hfirst, hblock, hlast, hlt⟩ := visit_follow hlimit h h0 hf
    cases hv.symm.trans hv₂
    obtain ⟨hnone, -⟩ | ⟨-, hrun, -⟩ := h.state
    · exact absurd hnone hf.1
    · exact ⟨hfirst ▸ hf.1, hblock ▸ (hrun.le.trans hlt.le), hlast⟩
  · rw [visit_new h0 hf] at hv
    obtain ⟨m₂, -, rfl⟩ := map_ok hv
    exact ⟨h0, hLmod.le, hLmod⟩

/-- After the blocks of a run from `l` on, the scan is in a run that holds them all, unless it loses
a block. -/
theorem scan_run (hlimit : Limited look) {l k : ℕ} (hl : look l ≠ 0)
    (hrun : ∀ i ≤ k, look (l + i) = look l + i) (h : scan look (l + k + 1) = .ok m) :
    Doomed look (l + k + 1) m ∨ (Scanned look (l + k + 1) m ∧ m.lb.firstPblock ≠ 0 ∧
      m.lb.firstBlock ≤ l ∧ m.lb.lastBlock = l + k) := by
  induction k generalizing m with
  | zero =>
    obtain ⟨m₀, hm₀, hv⟩ := scan_of_succ h
    rcases scan_progress hlimit hm₀ with hdoomed | hscan
    · exact .inl (hdoomed.visit hlimit hv)
    · exact visit_opens hlimit hscan hl hv
  | succ k ih =>
    obtain ⟨m₀, hm₀, hv⟩ := scan_of_succ h
    rcases ih (fun i hi => hrun i (by omega)) hm₀ with hdoomed | ⟨hscan, hopen, hfirst, hlast⟩
    · exact .inl (hdoomed.visit hlimit hv)
    have hnext := hrun (k + 1) le_rfl
    have h0 : look (l + k + 1) ≠ 0 := by
      rw [Nat.add_assoc, hnext]
      omega
    have hcurr := hscan.currBlock hlimit h0
    obtain ⟨hnone, -⟩ | ⟨-, -, hpblock⟩ := hscan.state
    · exact absurd hnone hopen
    have hf : Joins m₀ (look (l + k + 1)) := by
      refine ⟨hopen, ?_, ?_⟩
      · rw [hpblock, hlast, hrun k (by omega), Nat.add_assoc l, hnext]
        rfl
      · rw [hlast, hscan.curr]
    obtain ⟨m₁, hv₁, hscan', hpos, hblock, hlast', -⟩ := visit_follow hlimit hscan h0 hf
    cases hv.symm.trans hv₁
    exact .inr ⟨hscan', hpos ▸ hopen, hblock ▸ hfirst, hlast'⟩

/-- A run of more than 32768 blocks loses a block in the end. -/
theorem scan_doomed (hlimit : Limited look) (hshort : ¬ ShortRuns look) :
    ∃ L, look L ≠ 0 ∧ ∀ N m, L < N → scan look N = .ok m → Doomed look N m := by
  unfold ShortRuns at hshort
  push Not at hshort
  obtain ⟨l, hl, hrun⟩ := hshort
  have hlast := hrun extInitMaxLen le_rfl
  refine ⟨l + extInitMaxLen, by omega, fun N m hN => ?_⟩
  induction N, hN using Nat.le_induction generalizing m with
  | base =>
    intro hm
    rcases scan_run hlimit hl hrun hm with hdoomed | ⟨hscan, hopen, hfirst, hlast⟩
    · exact hdoomed
    · exact .inr ⟨hscan, hopen, by omega⟩
  | succ N hN ih =>
    intro hm
    obtain ⟨m₀, hm₀, hv⟩ := scan_of_succ hm
    exact (ih m₀ hm₀).visit hlimit hv

end LongRuns

variable {n bits : ℕ} {s : Pointers}

theorem freeDindBlocks_eq (n v : ℕ) (s : Pointers) : freeDindBlocks n s v = s.blocks n 1 v := by
  rw [freeDindBlocks, Pointers.blocks]
  congr 1
  refine flatMap_congr fun i _ => ?_
  by_cases h0 : s.slot v i = 0
  · rw [if_neg (not_not.mpr h0), if_pos h0]
  · rw [if_pos h0, if_neg h0]
    rfl

theorem freeTindBlocks_eq (n v : ℕ) (s : Pointers) : freeTindBlocks n s v = s.blocks n 2 v := by
  rw [freeTindBlocks, Pointers.blocks]
  congr 1
  refine flatMap_congr fun i _ => ?_
  by_cases h0 : s.slot v i = 0
  · rw [if_neg (not_not.mpr h0), if_pos h0]
  · rw [if_pos h0, if_neg h0, freeDindBlocks_eq]

def indirectPaths (n : ℕ) : List (List ℕ) :=
  [12, 13, 14].flatMap fun o => (Pointers.paths n (o - 12)).map (o :: ·)

theorem level_blocks (n o d : ℕ) (s : Pointers) :
    (if s.root o ≠ 0 then s.blocks n d (s.root o) else []) =
      (((Pointers.paths n d).map (o :: ·)).map s.ptr).filter (· ≠ 0) := by
  have hptr : s.ptr ∘ (o :: ·) = s.follow (s.root o) := rfl
  rw [map_map, hptr]
  split
  case isTrue h0 => exact s.blocks_eq n h0 d
  case isFalse h0 =>
    rw [not_not.mp h0]
    symm
    rw [filter_eq_nil_iff]
    intro b hb
    obtain ⟨π, -, rfl⟩ := mem_map.mp hb
    simp [s.follow_zero]

theorem freeIndBlock_eq (n : ℕ) (s : Pointers) :
    freeIndBlock n s = ((indirectPaths n).map s.ptr).filter (· ≠ 0) := by
  have h12 : (if s.root 12 ≠ 0 then [s.root 12] else []) =
      if s.root 12 ≠ 0 then s.blocks n 0 (s.root 12) else [] := rfl
  rw [freeIndBlock, h12, freeDindBlocks_eq, freeTindBlocks_eq, level_blocks, level_blocks,
    level_blocks, ← filter_append, ← filter_append, ← map_append, ← map_append]
  simp only [indirectPaths, flatMap_cons, flatMap_nil, append_nil, append_assoc]

theorem mem_indirectPaths {π : List ℕ} : π ∈ indirectPaths n ↔ InTree n π ∧ ¬ IsLeaf n π := by
  rw [indirectPaths, mem_flatMap]
  constructor
  · rintro ⟨o, ho, hπ⟩
    obtain ⟨χ, hχ, rfl⟩ := mem_map.mp hπ
    obtain ⟨hlen, hdigits⟩ := (Pointers.mem_paths n).mp hχ
    have ho' : 12 ≤ o ∧ o < 15 := by
      simp only [mem_cons, not_mem_nil, or_false] at ho
      omega
    refine ⟨⟨ho'.2, hdigits, ?_⟩, ?_⟩
    · unfold indirections
      omega
    rintro ⟨-, hleaf⟩
    simp only [length_cons, headD_cons, indirections] at hleaf
    omega
  · rintro ⟨htree, hleaf⟩
    cases π with
    | nil => exact absurd htree id
    | cons o χ =>
      obtain ⟨ho, hdigits, hlen⟩ := htree
      have hlt : χ.length ≠ indirections o := by
        intro heq
        refine hleaf ⟨⟨ho, hdigits, hlen⟩, ?_⟩
        simp only [length_cons, headD_cons, heq]
      unfold indirections at hlen hlt
      refine ⟨o, ?_, mem_map.mpr ⟨χ, (Pointers.mem_paths n).mpr ⟨by omega, hdigits⟩, rfl⟩⟩
      simp only [mem_cons, not_mem_nil, or_false]
      omega

theorem nodup_indirectPaths (n : ℕ) : (indirectPaths n).Nodup := by
  refine nodup_flatMap.mpr ⟨fun o _ => ?_, ?_⟩
  · exact (Pointers.nodup_paths n (o - 12)).map cons_injective
  have hnodup : [12, 13, 14].Nodup := by decide
  refine hnodup.imp fun {o o'} hne => ?_
  intro π hπ hπ'
  obtain ⟨χ, -, rfl⟩ := mem_map.mp hπ
  obtain ⟨χ', -, heq⟩ := mem_map.mp hπ'
  exact hne (cons_eq_cons.mp heq).1.symm

/-- The blocks given back are the indirect blocks, each once. -/
structure FreesIndirect (bits : ℕ) (s : Pointers) (freed : List ℕ) : Prop where
  once : freed.Nodup
  mem : ∀ b, b ∈ freed ↔ b ≠ 0 ∧
    ∃ π, InTree (2 ^ (bits - 2)) π ∧ ¬ IsLeaf (2 ^ (bits - 2)) π ∧ s.ptr π = b
  data : ∀ l, indLookup bits s l ≠ 0 → indLookup bits s l ∉ freed

theorem freeIndBlock_spec (hs : Proper (indShape (2 ^ (bits - 2))) s) :
    FreesIndirect bits s (freeIndBlock (2 ^ (bits - 2)) s) := by
  have hmem : ∀ b, b ∈ freeIndBlock (2 ^ (bits - 2)) s ↔ b ≠ 0 ∧
      ∃ π, InTree (2 ^ (bits - 2)) π ∧ ¬ IsLeaf (2 ^ (bits - 2)) π ∧ s.ptr π = b := by
    intro b
    rw [freeIndBlock_eq, mem_filter, mem_map, decide_eq_true_eq]
    constructor
    · rintro ⟨⟨π, hπ, rfl⟩, hb⟩
      obtain ⟨htree, hleaf⟩ := mem_indirectPaths.mp hπ
      exact ⟨hb, π, htree, hleaf, rfl⟩
    · rintro ⟨hb, π, htree, hleaf, rfl⟩
      exact ⟨⟨π, mem_indirectPaths.mpr ⟨htree, hleaf⟩, rfl⟩, hb⟩
  refine ⟨?_, hmem, fun l hl hfreed => ?_⟩
  · rw [freeIndBlock_eq, filter_map]
    refine List.Nodup.map_on (fun π hπ π' hπ' heq => ?_) ((nodup_indirectPaths _).filter _)
    obtain ⟨h1, h2⟩ := mem_filter.mp hπ
    have hne : s.ptr π ≠ 0 := by simpa using h2
    exact hs (mem_indirectPaths.mp h1).1 (mem_indirectPaths.mp (mem_filter.mp hπ').1).1 hne heq
  · obtain ⟨-, π, htree, hleaf, heq⟩ := (hmem _).mp hfreed
    have hpath := blockToPath_isLeaf (path_of_lookup hl)
    have hsame := hs hpath.1 htree hl heq.symm
    exact hleaf (hsame ▸ hpath)

theorem IndTree.limited {bitmapMaxbytes : ℤ} (h : IndTree bits bitmapMaxbytes s) :
    Limited (indLookup bits s) := by
  intro l hl
  refine h.limit l (Nat.le_trans ?_ hl)
  unfold maxBlock extMaxBlocks
  omega

theorem extMigrate_eq_scan (bits : ℕ) (s : Pointers) : extMigrate bits s =
    (scan (indLookup bits s) (dataPointers (2 ^ (bits - 2)) s).length).bind fun m =>
      (finishRange m).map fun m => (m.extents, freeIndBlock (2 ^ (bits - 2)) s) := by
  rw [extMigrate_eq, scan, ← dataPointers_eq]

theorem lookup_of_length_le {l : ℕ} (h : (dataPointers (2 ^ (bits - 2)) s).length ≤ l) :
    indLookup bits s l = 0 := by
  rw [← getD_dataPointers, getElem?_eq_none h]
  rfl

/-- Migration keeps the map of the file if and only if the file has no run of more than 32768
blocks. -/
theorem extMigrate_exact (bits : ℕ) (bitmapMaxbytes : ℤ) (s : Pointers)
    (htree : IndTree bits bitmapMaxbytes s) :
    (∃ extents freed, extMigrate bits s = .ok (extents, freed) ∧ FileList extents ∧
      (∀ l, fileView.map extents l = written (indLookup bits s) l) ∧
      FreesIndirect bits s freed) ↔ ShortRuns (indLookup bits s) := by
  have hlimit := htree.limited
  rw [extMigrate_eq_scan]
  constructor
  · rintro ⟨extents, freed, hm, -, hmap, -⟩
    by_contra hshort
    obtain ⟨L, hL, hdoomed⟩ := scan_doomed hlimit hshort
    have hlt : L < (dataPointers (2 ^ (bits - 2)) s).length := by
      by_contra hge
      exact hL (lookup_of_length_le (by omega))
    cases hscan : scan (indLookup bits s) (dataPointers (2 ^ (bits - 2)) s).length with
    | error e =>
      rw [hscan] at hm
      cases hm
    | ok m =>
      rw [hscan] at hm
      obtain ⟨m', hfin, heq⟩ := map_ok hm
      obtain ⟨rfl, -⟩ := Prod.mk.inj heq
      obtain ⟨x, hx, -, hun⟩ := (hdoomed _ m hlt hscan).finish hlimit hfin
      have hnone := hmap x
      rw [hun.map, written, if_neg hx] at hnone
      cases hnone
  · intro hshort
    obtain ⟨m, hm, hscan⟩ := scan_spec hshort hlimit (dataPointers (2 ^ (bits - 2)) s).length
    obtain ⟨m', hfin, -, hbuilt⟩ := finishRange_spec hlimit hscan (hscan.not_long hshort)
    refine ⟨m'.extents, freeIndBlock (2 ^ (bits - 2)) s, ?_, hbuilt.list, fun l => ?_,
      freeIndBlock_spec htree.proper⟩
    · rw [hm]
      show (finishRange m).map _ = _
      rw [hfin]
      rfl
    · by_cases hlt : l < (dataPointers (2 ^ (bits - 2)) s).length
      · exact hbuilt.map l hlt
      · exact (hbuilt.extend (L := l + 1) (by omega) fun x h1 _ => lookup_of_length_le h1).map l
          (Nat.lt_succ_self l)

theorem smallTree_lookup (l : ℕ) : indLookup 10 smallTree l = 0 ∨ indLookup 10 smallTree l = 100 ∨
    indLookup 10 smallTree l = 200 ∨ indLookup 10 smallTree l = 300 := by
  by_cases h0 : indLookup 10 smallTree l = 0
  · exact .inl h0
  obtain ⟨-, h⟩ | ⟨-, h⟩ | ⟨-, h⟩ :=
    smallTree_ptr (blockToPath_isLeaf (path_of_lookup h0)).1 h0
  · exact .inr (.inl h)
  · exact .inr (.inr (.inl h))
  · exact .inr (.inr (.inr h))

theorem extMigrate_exact_smallTree : ∃ extents freed,
    extMigrate 10 smallTree = .ok (extents, freed) ∧ FileList extents ∧
      (∀ l, fileView.map extents l = written (indLookup 10 smallTree) l) ∧
      FreesIndirect 10 smallTree freed := by
  refine (extMigrate_exact 10 (maxBitmapSize 10 false) smallTree smallTree_indTree).mpr
    fun l hl => ?_
  refine ⟨1, by decide, fun heq => ?_⟩
  have h1 := smallTree_lookup l
  have h2 := smallTree_lookup (l + 1)
  omega

def longFile : Pointers where
  root o := if o < 12 then 1000 + o else if o = 12 then 100 else if o = 13 then 101 else 0
  slot b i :=
    if b = 100 then 1012 + i else if b = 101 then 200 + i
    else if 200 ≤ b ∧ b < 456 then 1268 + (b - 200) * 256 + i else 0
  freed := []

theorem longFile_ptr {ρ : List ℕ} (hρ : InTree 256 ρ) (hne : longFile.ptr ρ ≠ 0) :
    (∃ o, o < 12 ∧ ρ = [o] ∧ longFile.ptr ρ = 1000 + o) ∨
    (ρ = [12] ∧ longFile.ptr ρ = 100) ∨ (ρ = [13] ∧ longFile.ptr ρ = 101) ∨
    (∃ i, i < 256 ∧ ρ = [12, i] ∧ longFile.ptr ρ = 1012 + i) ∨
    (∃ i, i < 256 ∧ ρ = [13, i] ∧ longFile.ptr ρ = 200 + i) ∨
    ∃ i j, i < 256 ∧ j < 256 ∧ ρ = [13, i, j] ∧ longFile.ptr ρ = 1268 + i * 256 + j := by
  cases ρ with
  | nil => exact absurd hρ id
  | cons o π =>
    obtain ⟨ho, hdigits, hlen⟩ := hρ
    unfold indirections at hlen
    by_cases h12 : o < 12
    · obtain rfl : π = [] := length_eq_zero_iff.mp (by omega)
      exact .inl ⟨o, h12, rfl, if_pos h12⟩
    obtain rfl | rfl | rfl : o = 12 ∨ o = 13 ∨ o = 14 := by omega
    · cases π with
      | nil => exact .inr (.inl ⟨rfl, rfl⟩)
      | cons i π =>
        obtain rfl : π = [] := length_eq_zero_iff.mp (by rw [length_cons] at hlen; omega)
        exact .inr (.inr (.inr (.inl ⟨i, hdigits i (by simp), rfl, rfl⟩)))
    · cases π with
      | nil => exact .inr (.inr (.inl ⟨rfl, rfl⟩))
      | cons i π =>
        have hi : i < 256 := hdigits i (by simp)
        cases π with
        | nil => exact .inr (.inr (.inr (.inr (.inl ⟨i, hi, rfl, rfl⟩))))
        | cons j π =>
          have hj : j < 256 := hdigits j (by simp)
          obtain rfl : π = [] :=
            length_eq_zero_iff.mp (by simp only [length_cons] at hlen; omega)
          refine .inr (.inr (.inr (.inr (.inr ⟨i, j, hi, hj, rfl, ?_⟩))))
          show (if 200 + i = 0 then 0 else if 200 + i = 100 then 1012 + j
            else if 200 + i = 101 then 200 + j
            else if 200 ≤ 200 + i ∧ 200 + i < 456 then 1268 + (200 + i - 200) * 256 + j else 0) = _
          rw [if_neg (by omega), if_neg (by omega), if_neg (by omega), if_pos (by omega),
            Nat.add_sub_cancel_left]
    · exact absurd (longFile.follow_zero π) hne

theorem longFile_lookup {l : ℕ} (hl : l < 65804) : indLookup 10 longFile l = 1000 + l := by
  obtain ⟨h1, hpath⟩ | ⟨x, rfl, -, hpath⟩ | ⟨x, rfl, hx, hpath⟩ | ⟨x, rfl, -, -⟩ | ⟨h, -⟩ :=
    blockToPath_cases 8 l
  · rw [indLookup, hpath]
    exact if_pos h1
  · rw [indLookup, hpath]
    show 1012 + x = _
    omega
  · rw [indLookup, hpath]
    have hdiv : x / 256 < 256 := Nat.div_lt_of_lt_mul hx
    show (if 200 + x / 256 = 0 then 0 else if 200 + x / 256 = 100 then 1012 + x % 256
      else if 200 + x / 256 = 101 then 200 + x % 256
      else if 200 ≤ 200 + x / 256 ∧ 200 + x / 256 < 456 then
        1268 + (200 + x / 256 - 200) * 256 + x % 256 else 0) = _
    rw [if_neg (by omega), if_neg (by omega), if_neg (by omega), if_pos (by omega)]
    omega
  · omega
  · omega

theorem longFile_indTree : IndTree 10 (maxBitmapSize 10 false) longFile where
  proper := by
    intro ρ ρ' hρ hρ' hne heq
    have h := longFile_ptr hρ hne
    have h' := longFile_ptr hρ' (heq ▸ hne)
    rw [heq] at h
    generalize longFile.ptr ρ' = v at h h'
    rcases h with ⟨o, ho, rfl, h⟩ | ⟨rfl, h⟩ | ⟨rfl, h⟩ | ⟨i, hi, rfl, h⟩ | ⟨i, hi, rfl, h⟩ |
        ⟨i, j, hi, hj, rfl, h⟩ <;>
      rcases h' with ⟨o', ho', rfl, h'⟩ | ⟨rfl, h'⟩ | ⟨rfl, h'⟩ | ⟨i', hi', rfl, h'⟩ |
        ⟨i', hi', rfl, h'⟩ | ⟨i', j', hi', hj', rfl, h'⟩ <;>
      first
      | omega
      | rfl
      | (simp only [cons.injEq, and_true, true_and]; omega)
  limit := lookup_of_limit rfl

theorem foldlM_visit_run {p : ℕ} (hp : p ≠ 0) (N : ℕ) (hN : N + 1 < 2 ^ 32) :
    ((range (N + 1)).map (p + ·)).foldlM visit ⟨⟨0, 0, 0, 0, 0⟩, []⟩ =
      .ok ⟨⟨0, N, N + 1, p, p + N⟩, []⟩ := by
  induction N with
  | zero =>
    show visit _ (p + 0) >>= pure = _
    rw [bind_pure, visit, if_pos (by omega)]
    rfl
  | succ N ih =>
    rw [range_succ, map_append, foldlM_append, ih (by omega)]
    show visit _ (p + (N + 1)) >>= pure = _
    have hmod : (N + 1 + 1) % 2 ^ 32 = N + 1 + 1 := Nat.mod_eq_of_lt hN
    have hmod' : (N + 1) % 2 ^ 32 = N + 1 := Nat.mod_eq_of_lt (by omega)
    rw [bind_pure, visit, if_pos (by omega), updateExtentRange]
    dsimp only
    rw [if_pos ⟨hp, by omega, hmod'⟩, hmod]

/-- The 16 bits of the extent's length keep 268 of the 65804 blocks: the others are not mapped any
more. -/
theorem extMigrate_bug :
    IndTree 10 (maxBitmapSize 10 false) longFile ∧
      indLookup 10 longFile 1000 = 2000 ∧
      ∃ freed, extMigrate 10 longFile = .ok ([⟨0, 268, 1000, false⟩], freed) ∧
        fileView.map [⟨0, 268, 1000, false⟩] 1000 = none := by
  refine ⟨longFile_indTree, longFile_lookup (by decide), freeIndBlock 256 longFile, ?_, by decide⟩
  have hlength : (dataPointers (2 ^ (10 - 2)) longFile).length = 65804 := by
    simp [dataPointers, ndirBlocks, longFile]
  have hpointers : dataPointers (2 ^ (10 - 2)) longFile =
      (range (65803 + 1)).map (1000 + ·) := by
    rw [dataPointers_eq, hlength]
    exact map_congr_left fun l hl => longFile_lookup (mem_range.mp hl)
  rw [extMigrate_eq, hpointers, foldlM_visit_run (by decide) 65803 (by decide)]
  rfl

end VMsep.Ext4
