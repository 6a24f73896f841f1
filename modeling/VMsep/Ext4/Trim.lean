import VMsep.Ext4.Prealloc
import VMsep.Lib.BitScan
import VMsep.Lib.Transition

/-! `ext4_trim_fs` discards the free extents of a range. A group that was trimmed is marked, and
later calls skip it unless they ask for shorter extents than the last one. -/

namespace VMsep.Ext4.Mballoc

open Lib Function

/-- To whom a cluster belongs in the bitmap in core: to nobody, to a file, to a call that discards
it, or to nobody once a transaction has committed. -/
inductive Owner where
  | free
  | file
  | call
  | pending
  deriving DecidableEq

/-- A volume with whole clusters in its groups and more than one data block. -/
structure Volume extends Geometry where
  clustersPerGroup : ℕ
  blocksizeBits : ℕ
  blocksCount : ℕ
  group_eq : blocksPerGroup = clustersPerGroup * 2 ^ clusterBits
  group_pos : 0 < clustersPerGroup
  blocks_lt : firstDataBlock + 1 < blocksCount

/-- The groups in core. A cluster is `discarded` if a discard was issued for it since it became
free. -/
structure Groups where
  owner : ℕ → ℕ → Owner
  wasTrimmed : ℕ → Bool
  lastTrimMinblks : ℕ
  discarded : ℕ → ℕ → Bool

namespace Groups

variable (s : Groups) (k a b : ℕ)

/-- `mb_mark_used` and `mb_free_blocks`: the clusters from `a` to `b` get an owner, or lose it. -/
def setOwner (o : Owner) : Groups :=
  { s with owner := update s.owner k fun c => if a ≤ c ∧ c < b then o else s.owner k c }

def setDiscarded (d : Bool) : Groups :=
  { s with discarded := update s.discarded k fun c => if a ≤ c ∧ c < b then d else s.discarded k c }

def setTrimmed (d : Bool) : Groups := { s with wasTrimmed := update s.wasTrimmed k d }

def Free (c : ℕ) : Prop := s.owner k c = .free

instance : DecidablePred (s.Free k) := fun c => inferInstanceAs (Decidable (s.owner k c = .free))

def bbFree (v : Volume) : ℕ := Nat.count (s.Free k) v.clustersPerGroup

def bbFirstFree (v : Volume) : ℕ := findFrom (s.Free k) 0 v.clustersPerGroup

end Groups

/-- The variables of `ext4_trim_fs` that do not change. -/
structure TrimCall where
  lastGroup : ℕ
  lastCluster : ℕ
  minlen : ℕ

/-- Where a call of `ext4_trim_fs` is: before a group, in the loop of `ext4_trim_all_free`, in front
of a discard, or back. -/
inductive TrimStage where
  | group (k first : ℕ)
  | scan (k start freeCount : ℕ)
  | discard (k a next freeCount : ℕ)
  | done (ret : ℤ)
  deriving DecidableEq

/-- `struct fstrim_range`, in bytes. -/
structure TrimRange where
  start : ℕ
  len : ℕ
  minlen : ℕ

def eInval : ℤ := -22
def eOpnotsupp : ℤ := -95
def eRestartsys : ℤ := -512

namespace Volume

variable (v : Volume) (call : TrimCall)

def limit (k : ℕ) : ℕ := if k = call.lastGroup then call.lastCluster + 1 else v.clustersPerGroup

/-- The end of a round of the loop of `ext4_trim_all_free`. -/
def trimNext (s : Groups) (signal : Bool) (k next freeCount : ℕ) : Groups × TrimStage :=
  if signal then (s.setTrimmed k true, .done eRestartsys)
  else if s.bbFree k v < freeCount + call.minlen then (s.setTrimmed k true, .group (k + 1) 0)
  else (s, .scan k (next + 1) freeCount)

/-- What a call does with a group lock held, and the discard without it. `err` is what the load of
the group or the discard returns. -/
def trimStep (s : Groups) (err : ℤ) (signal : Bool) : TrimStage → Groups × TrimStage
  | .group k first =>
    if call.lastGroup < k then ({ s with lastTrimMinblks := call.minlen }, .done 0)
    else if err ≠ 0 then (s, .done err)
    else if s.bbFree k v < call.minlen then (s, .group (k + 1) 0)
    else if s.wasTrimmed k = true ∧ s.lastTrimMinblks ≤ call.minlen then (s, .group (k + 1) 0)
    else (s, .scan k (max (s.bbFirstFree k v) first) 0)
  | .scan k start freeCount =>
    match nextRun (s.Free k) (v.limit call k) start with
    | none => (s.setTrimmed k true, .group (k + 1) 0)
    | some (a, next) =>
      if call.minlen ≤ next - a then (s.setOwner k a next .call, .discard k a next freeCount)
      else v.trimNext call s signal k next (freeCount + (next - a))
  | .discard k a next freeCount =>
    if err ≠ 0 ∧ err ≠ eOpnotsupp then (s.setOwner k a next .free, .done err)
    else
      v.trimNext call ((s.setDiscarded k a next true).setOwner k a next .free) signal k next
        (freeCount + (next - a))
  | .done ret => (s, .done ret)

def firstBlock (r : TrimRange) : ℕ := r.start / 2 ^ v.blocksizeBits

def lastBlock (r : TrimRange) : ℕ :=
  min (v.firstBlock r + r.len / 2 ^ v.blocksizeBits - 1) (v.blocksCount - 1)

def minlen (r : TrimRange) : ℕ := v.numB2c (r.minlen / 2 ^ v.blocksizeBits)

/-- A call that looks at the groups up to the one of `last`. -/
def callTo (last minlen : ℕ) : TrimCall :=
  ⟨(v.getGroupNoAndOffset last).1, (v.getGroupNoAndOffset last).2, minlen⟩

/-- `ext4_trim_fs` up to its loop. -/
def trimBegin (r : TrimRange) : TrimStage :=
  if v.clustersPerGroup < v.minlen r ∨ v.blocksCount ≤ v.firstBlock r ∨
      r.len < 2 ^ v.blocksizeBits then .done eInval
  else if v.lastBlock r ≤ v.firstDataBlock then .done 0
  else
    let first := v.getGroupNoAndOffset (max (v.firstBlock r) v.firstDataBlock)
    .group first.1 first.2

def trimLoop (io : TrimStage → ℤ × Bool) : ℕ → Groups × TrimStage → Option (Groups × ℤ)
  | 0, _ => none
  | _ + 1, (s, .done ret) => some (s, ret)
  | fuel + 1, (s, st) => trimLoop io fuel (v.trimStep call s (io st).1 (io st).2 st)

/-- `ext4_trim_fs`, if it returns. -/
def trimFs (s : Groups) (r : TrimRange) (io : TrimStage → ℤ × Bool) (fuel : ℕ) :
    Option (Groups × ℤ) :=
  v.trimLoop (v.callTo (v.lastBlock r) (v.minlen r)) io fuel (s, v.trimBegin r)

end Volume

/-- Allocations, frees that wait for a commit, frees that take effect, and calls of
`ext4_trim_fs`. -/
inductive TrimAct where
  | alloc (k a b : ℕ)
  | retire (k a b : ℕ)
  | release (k a b : ℕ)
  | trim (r : TrimRange) (io : TrimStage → ℤ × Bool) (fuel : ℕ)

namespace Volume

variable (v : Volume)

/-- A volume without `-o discard`. -/
def step (s : Groups) : TrimAct → Option Groups
  | .alloc k a b =>
    if ∀ c < b, a ≤ c → s.Free k c then some (s.setOwner k a b .file) else none
  | .retire k a b =>
    if ∀ c < b, a ≤ c → s.owner k c = .file then some (s.setOwner k a b .pending) else none
  | .release k a b =>
    if ∀ c < b, a ≤ c → s.owner k c = .file ∨ s.owner k c = .pending then
      some (((s.setOwner k a b .free).setDiscarded k a b false).setTrimmed k false)
    else none
  | .trim r io fuel => (v.trimFs s r io fuel).map Prod.fst

/-- The group and the cluster that a call starts with. -/
def firstOf (r : TrimRange) : ℕ × ℕ :=
  v.getGroupNoAndOffset (max (v.firstBlock r) v.firstDataBlock)

def callOf (r : TrimRange) : TrimCall := v.callTo (v.lastBlock r) (v.minlen r)

/-- No signal comes, and no group and no discard fails. -/
def Quiet (io : TrimStage → ℤ × Bool) : Prop :=
  ∀ st, (io st).2 = false ∧ ((io st).1 = 0 ∨ (io st).1 = eOpnotsupp ∧
    ∃ k a next freeCount, st = .discard k a next freeCount)

/-- The range of a call that does something has whole groups, the last one as far as the volume
goes, and no group outside of it is marked unless the last call looked for extents as short. -/
def WholeGroups (s : Groups) (r : TrimRange) : Prop :=
  v.trimBegin r = .group (v.firstOf r).1 (v.firstOf r).2 → (v.firstOf r).2 = 0 ∧
    (v.lastBlock r = v.blocksCount - 1 ∨ (v.callOf r).lastCluster + 1 = v.clustersPerGroup) ∧
    ∀ k, s.wasTrimmed k = true → k < (v.firstOf r).1 ∨ (v.callOf r).lastGroup < k →
      s.lastTrimMinblks ≤ v.minlen r

def Undisturbed (s : Groups) : TrimAct → Prop
  | .trim r io _ => Quiet io ∧ v.WholeGroups s r
  | _ => True

def InRange (r : TrimRange) (k c : ℕ) : Prop :=
  ∃ x, v.firstBlock r ≤ x ∧ x ≤ v.lastBlock r ∧ v.firstDataBlock ≤ x ∧
    v.getGroupNoAndOffset x = (k, c)

end Volume

variable {v : Volume} {s s' s₀ : Groups} {r : TrimRange} {k m n a b c x fc lo hi lo' hi' : ℕ}

namespace Groups

/-- The free extents of at least `m` clusters between `lo` and `hi` that start before `x` are
discarded. -/
def SweptTo (s : Groups) (k m lo hi x : ℕ) : Prop :=
  ∀ a b, lo ≤ a → a < x → m ≤ b - a → b ≤ hi → (∀ c, a ≤ c → c < b → s.Free k c) →
    ∀ c, a ≤ c → c < b → s.discarded k c = true

def SweptIn (s : Groups) (k m lo hi : ℕ) : Prop := s.SweptTo k m lo hi hi

end Groups

namespace Volume

def span (v : Volume) (k : ℕ) : ℕ :=
  if (v.callTo (v.blocksCount - 1) 0).lastGroup < k then 0
  else v.limit (v.callTo (v.blocksCount - 1) 0) k

/-- The first cluster of group `k` that a call looks at. -/
def lowest (v : Volume) (r : TrimRange) (k : ℕ) : ℕ :=
  if k = (v.firstOf r).1 then (v.firstOf r).2 else 0

def Swept (v : Volume) (s : Groups) (k m : ℕ) : Prop := s.SweptIn k m 0 (v.span k)

/-- What a call looks at in group `k` is discarded. -/
def CallSwept (v : Volume) (r : TrimRange) (s : Groups) (k : ℕ) : Prop :=
  s.SweptIn k (v.minlen r) (v.lowest r k) (v.limit (v.callOf r) k)

end Volume

theorem getGroupNoAndOffset_lt (v : Volume) (x : ℕ) :
    (v.getGroupNoAndOffset x).2 < v.clustersPerGroup := by
  have hpos : 0 < v.blocksPerGroup := by
    rw [v.group_eq]
    exact Nat.mul_pos v.group_pos (Nat.two_pow_pos _)
  refine Nat.div_lt_of_lt_mul ?_
  rw [Nat.mul_comm, ← v.group_eq]
  exact Nat.mod_lt _ hpos

theorem limit_le : v.limit (v.callOf r) k ≤ v.clustersPerGroup := by
  unfold Volume.limit
  have hlt : (v.callOf r).lastCluster < v.clustersPerGroup := getGroupNoAndOffset_lt v _
  split_ifs <;> omega

/-- In one group the offset grows with the block. -/
theorem offset_mono {x y : ℕ} (hxy : x ≤ y) :
    (v.getGroupNoAndOffset x).1 ≤ (v.getGroupNoAndOffset y).1 ∧
      ((v.getGroupNoAndOffset x).1 = (v.getGroupNoAndOffset y).1 →
        (v.getGroupNoAndOffset x).2 ≤ (v.getGroupNoAndOffset y).2) := by
  have hle : x - v.firstDataBlock ≤ y - v.firstDataBlock := Nat.sub_le_sub_right hxy _
  refine ⟨Nat.div_le_div_right hle, fun hk => ?_⟩
  have h1 := Nat.div_add_mod (x - v.firstDataBlock) v.blocksPerGroup
  have h2 := Nat.div_add_mod (y - v.firstDataBlock) v.blocksPerGroup
  have hk : (x - v.firstDataBlock) / v.blocksPerGroup =
      (y - v.firstDataBlock) / v.blocksPerGroup := hk
  rw [hk] at h1
  exact Nat.div_le_div_right (by omega)

theorem lastBlock_le : v.lastBlock r ≤ v.blocksCount - 1 := Nat.min_le_right _ _

theorem limit_le_span (hk : k ≤ (v.callOf r).lastGroup) : v.limit (v.callOf r) k ≤ v.span k := by
  obtain ⟨hgroup, hoffset⟩ := offset_mono (v := v) (lastBlock_le (r := r))
  have hle := limit_le (v := v) (r := r) (k := k)
  have hk' : k ≤ (v.callTo (v.blocksCount - 1) 0).lastGroup := hk.trans hgroup
  rw [Volume.span, if_neg (not_lt.mpr hk')]
  by_cases hlast : k = (v.callTo (v.blocksCount - 1) 0).lastGroup
  · have hsame : k = (v.callOf r).lastGroup := le_antisymm hk (hlast ▸ hgroup)
    rw [Volume.limit, Volume.limit, if_pos hsame, if_pos hlast]
    exact Nat.succ_le_succ (hoffset (hsame.symm.trans hlast))
  · rw [Volume.limit.eq_def _ _ k, Volume.limit, if_neg hlast]
    exact hle

theorem SweptIn.mono (h : s.SweptIn k m lo hi) (hmn : m ≤ n) (hlo : lo ≤ lo') (hhi : hi' ≤ hi) :
    s.SweptIn k n lo' hi' :=
  fun a b hla ha hlen hb => h a b (hlo.trans hla) (ha.trans_le hhi) (hmn.trans hlen) (hb.trans hhi)

/-- What holds before group `k` in a call that started in the state `s₀`. -/
structure Before (v : Volume) (r : TrimRange) (s₀ s : Groups) (k : ℕ) : Prop where
  swept : ∀ i, (v.firstOf r).1 ≤ i → i < k → v.CallSwept r s i
  ahead : ∀ i, k ≤ i ∨ i < (v.firstOf r).1 ∨ (v.callOf r).lastGroup < i →
    s.wasTrimmed i = true → s₀.wasTrimmed i = true ∧ v.Swept s i s₀.lastTrimMinblks
  last : s.lastTrimMinblks = s₀.lastTrimMinblks
  first : (v.firstOf r).1 ≤ k

structure Scanned (v : Volume) (r : TrimRange) (s₀ s : Groups) (k x fc : ℕ) : Prop
    extends Before v r s₀ s k where
  upto : s.SweptTo k (v.minlen r) (v.lowest r k) (v.limit (v.callOf r) k) x
  count : fc ≤ Nat.count (s.Free k) x

theorem Before.next (h : Before v r s₀ s k) (hk : v.CallSwept r s k) :
    Before v r s₀ s (k + 1) where
  swept i hfirst hi := by
    obtain hi | rfl := Nat.lt_succ_iff_lt_or_eq.mp hi
    · exact h.swept i hfirst hi
    · exact hk
  ahead i hi := h.ahead i (hi.imp_left fun hi => by omega)
  last := h.last
  first := h.first.trans (Nat.le_succ k)

theorem Before.lowest_succ (h : Before v r s₀ s k) : 0 = v.lowest r (k + 1) := by
  have := h.first
  exact (if_neg (by omega)).symm

theorem Before.setTrimmed (h : Before v r s₀ s (k + 1)) (hfirst : (v.firstOf r).1 ≤ k)
    (hk : k ≤ (v.callOf r).lastGroup) : Before v r s₀ (s.setTrimmed k true) (k + 1) where
  swept := h.swept
  ahead i hi ht := by
    have hne : i ≠ k := by omega
    exact h.ahead i hi (by simpa [Groups.setTrimmed, hne] using ht)
  last := h.last
  first := h.first

theorem Scanned.swept_of_short (h : Scanned v r s₀ s k x fc)
    (hshort : s.bbFree k v < fc + v.minlen r) : v.CallSwept r s k := by
  intro a b hla _ hlen hb hfree c hac hcb
  by_cases ha : a < x
  · exact h.upto a b hla ha hlen hb hfree c hac hcb
  have hrun := count_run (show a ≤ b by omega) hfree
  have hbelow : Nat.count (s.Free k) x ≤ Nat.count (s.Free k) a :=
    Nat.count_monotone _ (not_lt.mp ha)
  have habove : Nat.count (s.Free k) b ≤ s.bbFree k v :=
    Nat.count_monotone _ (hb.trans limit_le)
  have hcount := h.count
  omega

theorem Scanned.round (h : Scanned v r s₀ s k x fc)
    (hrun : nextRun (s.Free k) (v.limit (v.callOf r) k) x = some (a, b))
    (hd : v.minlen r ≤ b - a → ∀ c, a ≤ c → c < b → s.discarded k c = true) :
    Scanned v r s₀ s k (b + 1) (fc + (b - a)) := by
  obtain ⟨⟨hxa, hab, hb⟩, hbefore, hfree, hend⟩ := nextRun_some hrun
  refine ⟨h.toBefore, fun y z hly hy hlen hz hyz c hyc hcz => ?_, ?_⟩
  · by_cases hyx : y < x
    · exact h.upto y z hly hyx hlen hz hyz c hyc hcz
    have hya : a ≤ y := not_lt.mp fun hlt => hbefore y (not_lt.mp hyx) hlt (hyz y le_rfl (by omega))
    have hzb : z ≤ b := not_lt.mp fun hlt => hend (by omega) (hyz b (by omega) hlt)
    exact hd (by omega) c (by omega) (by omega)
  · have hcount := h.count
    have hbelow : Nat.count (s.Free k) x ≤ Nat.count (s.Free k) a := Nat.count_monotone _ hxa
    have habove : Nat.count (s.Free k) b ≤ Nat.count (s.Free k) (b + 1) :=
      Nat.count_monotone _ (Nat.le_succ b)
    have hlen := count_run hab.le hfree
    omega

/-- What a call that returned 0 leaves: all that it looked at is discarded, and the marks of the
other groups are old. -/
structure Done (v : Volume) (r : TrimRange) (s₀ s : Groups) : Prop where
  swept : ∀ i, (v.firstOf r).1 ≤ i → i ≤ (v.callOf r).lastGroup → v.CallSwept r s i
  outside : ∀ i, i < (v.firstOf r).1 ∨ (v.callOf r).lastGroup < i → s.wasTrimmed i = true →
    s₀.wasTrimmed i = true ∧ v.Swept s i s₀.lastTrimMinblks
  last : s.lastTrimMinblks = v.minlen r

def Midway (v : Volume) (r : TrimRange) (s₀ : Groups) : Groups × TrimStage → Prop
  | (s, .group k first) => Before v r s₀ s k ∧ first = v.lowest r k
  | (s, .scan k start fc) => k ≤ (v.callOf r).lastGroup ∧ Scanned v r s₀ s k start fc
  | (s, .discard k a next fc) => k ≤ (v.callOf r).lastGroup ∧
      ∃ s₁ start, s = s₁.setOwner k a next .call ∧ Scanned v r s₀ s₁ k start fc ∧
        nextRun (s₁.Free k) (v.limit (v.callOf r) k) start = some (a, next)
  | (s, .done ret) => ret = 0 → Done v r s₀ s

theorem Scanned.trimNext (hk : k ≤ (v.callOf r).lastGroup) (h : Scanned v r s₀ s k (b + 1) fc)
    (signal : Bool) : Midway v r s₀ (v.trimNext (v.callOf r) s signal k b fc) := by
  unfold Volume.trimNext
  split_ifs with _ hshort
  · intro hret
    cases hret
  · exact ⟨(h.next (h.swept_of_short hshort)).setTrimmed h.first hk, h.lowest_succ⟩
  · exact ⟨hk, h⟩

theorem setOwner_free (hfree : ∀ c, a ≤ c → c < b → s.Free k c) (o : Owner) :
    ((s.setOwner k a b o).setDiscarded k a b true).setOwner k a b .free =
      s.setDiscarded k a b true := by
  simp only [Groups.setOwner, Groups.setDiscarded, update_idem, update_self]
  congr 1
  funext i c
  by_cases hi : i = k
  · subst hi
    rw [update_self]
    split_ifs with hc
    · exact (hfree c hc.1 hc.2).symm
    · rfl
  · rw [update_of_ne hi]

theorem SweptTo.setDiscarded (h : s.SweptTo n m lo hi x) :
    (s.setDiscarded k a b true).SweptTo n m lo hi x := by
  intro y z hly hy hlen hz hfree c hyc hcz
  have hold := h y z hly hy hlen hz hfree c hyc hcz
  by_cases hn : n = k
  · subst hn
    simp [Groups.setDiscarded, hold]
  · simpa [Groups.setDiscarded, hn] using hold

theorem Scanned.setDiscarded (h : Scanned v r s₀ s k x fc) :
    Scanned v r s₀ (s.setDiscarded k a b true) k x fc where
  swept i hfirst hi := SweptTo.setDiscarded (h.swept i hfirst hi)
  ahead i hi ht := (h.ahead i hi ht).imp_right SweptTo.setDiscarded
  last := h.last
  first := h.first
  upto := SweptTo.setDiscarded h.upto
  count := h.count

/-- Every section of a call keeps what is swept so far. -/
theorem Midway.step {st : TrimStage} (h : Midway v r s₀ (s, st)) (err : ℤ) (signal : Bool) :
    Midway v r s₀ (v.trimStep (v.callOf r) s err signal st) := by
  cases st with
  | group k =>
    obtain ⟨h, rfl⟩ := h
    simp only [Volume.trimStep]
    split_ifs with hk herr hshort hskip
    · refine fun _ => ⟨fun i hfirst hi => h.swept i hfirst (by omega), fun i hi ht => ?_, rfl⟩
      exact h.ahead i (.inr hi) ht
    · exact fun h0 => absurd h0 herr
    · have hscan : Scanned v r s₀ s k 0 0 :=
        ⟨h, fun a b _ ha => absurd ha (Nat.not_lt_zero a), Nat.zero_le _⟩
      exact ⟨h.next (hscan.swept_of_short (by rwa [Nat.zero_add])), h.lowest_succ⟩
    · obtain ⟨-, hold⟩ := h.ahead k (.inl le_rfl) hskip.1
      refine ⟨h.next (SweptIn.mono hold ?_ (Nat.zero_le _) (limit_le_span (not_lt.mp hk))),
        h.lowest_succ⟩
      rw [← h.last]
      exact hskip.2
    · refine ⟨not_lt.mp hk, h, fun a b hla ha hlen hb hfree c hac hcb => ?_, Nat.zero_le _⟩
      exact absurd (hfree a le_rfl (by omega))
        ((findFrom_spec (s.Free k) 0 _).2.2.1 a (Nat.zero_le a)
          ((lt_max_iff.mp ha).resolve_right (not_lt.mpr hla)))
  | scan k start =>
    obtain ⟨hk, h⟩ := h
    simp only [Volume.trimStep]
    cases hrun : nextRun (s.Free k) (v.limit (v.callOf r) k) start with
    | none =>
      refine ⟨(h.next fun a b hla _ hlen hb hfree c hac hcb => ?_).setTrimmed h.first hk,
        h.lowest_succ⟩
      by_cases ha : a < start
      · exact h.upto a b hla ha hlen hb hfree c hac hcb
      · exact absurd (hfree a le_rfl (by omega)) (nextRun_none hrun (not_lt.mp ha) (by omega))
    | some run =>
      obtain ⟨a, next⟩ := run
      dsimp only
      split_ifs with hlong
      · exact ⟨hk, s, start, rfl, h, hrun⟩
      · exact (h.round hrun fun hle => absurd hle hlong).trimNext hk signal
  | discard =>
    obtain ⟨hk, s₁, start, rfl, h, hrun⟩ := h
    simp only [Volume.trimStep]
    split_ifs with herr
    · exact fun h0 => absurd h0 herr.1
    rw [setOwner_free (nextRun_some hrun).2.2.1]
    refine (h.setDiscarded.round hrun fun _ c hac hcb => ?_).trimNext hk signal
    simp [Groups.setDiscarded, hac, hcb]
  | done => exact h

theorem Midway.loop {st : TrimStage} {io : TrimStage → ℤ × Bool} {fuel : ℕ}
    (h : Midway v r s₀ (s, st)) (hr : v.trimLoop (v.callOf r) io fuel (s, st) = some (s', 0)) :
    Done v r s₀ s' := by
  induction fuel generalizing s st with
  | zero => cases hr
  | succ _ ih =>
    have hstep := h.step (io st).1 (io st).2
    cases st with
    | done =>
      cases hr
      exact h rfl
    | group | scan | discard => exact ih hstep hr

theorem quiet_step {st : TrimStage} {io : TrimStage → ℤ × Bool} (hq : Volume.Quiet io)
    (hst : ∀ n, st = .done n → n = 0) (n : ℤ)
    (hn : (v.trimStep (v.callOf r) s (io st).1 (io st).2 st).2 = .done n) : n = 0 := by
  obtain ⟨hsignal, herr⟩ := hq st
  have hnext : ∀ (s₁ : Groups) (k next freeCount : ℕ),
      (v.trimNext (v.callOf r) s₁ false k next freeCount).2 ≠ .done n := by
    intro s₁ k next freeCount
    unfold Volume.trimNext
    rw [if_neg Bool.false_ne_true]
    split_ifs <;> exact TrimStage.noConfusion
  rw [hsignal] at hn
  cases st with
  | done => exact hst n hn
  | group =>
    have herr := herr.resolve_right (by simp)
    simp only [Volume.trimStep, herr] at hn
    split_ifs at hn with hend
    · cases hn
      rfl
    · exact absurd rfl ‹_›
  | scan k start =>
    simp only [Volume.trimStep] at hn
    cases hrun : nextRun (s.Free k) (v.limit (v.callOf r) k) start with
    | none => simp [hrun] at hn
    | some run =>
      simp only [hrun] at hn
      split_ifs at hn
      exact absurd hn (hnext _ _ _ _)
  | discard =>
    have herr := herr.imp_right And.left
    simp only [Volume.trimStep] at hn
    rw [if_neg (by omega)] at hn
    exact absurd hn (hnext _ _ _ _)

theorem quiet_loop {st : TrimStage} {io : TrimStage → ℤ × Bool} {fuel : ℕ} {ret : ℤ}
    (hq : Volume.Quiet io) (hst : ∀ n, st = .done n → n = 0)
    (hr : v.trimLoop (v.callOf r) io fuel (s, st) = some (s', ret)) : ret = 0 := by
  induction fuel generalizing s st with
  | zero => cases hr
  | succ fuel ih =>
    have hstep := quiet_step (v := v) (r := r) (s := s) hq hst
    cases st with
    | done n =>
      cases hr
      exact hst ret rfl
    | group | scan | discard => exact ih hstep hr

def Inv (v : Volume) (s : Groups) : Prop :=
  ∀ k, s.wasTrimmed k = true → v.Swept s k s.lastTrimMinblks

theorem trimBegin_cases (r : TrimRange) : v.trimBegin r = .done eInval ∨
    (v.trimBegin r = .done 0 ∧ v.lastBlock r ≤ v.firstDataBlock) ∨
      v.trimBegin r = .group (v.firstOf r).1 (v.firstOf r).2 := by
  unfold Volume.trimBegin
  split_ifs with h1 h2
  · exact .inl rfl
  · exact .inr (.inl ⟨rfl, h2⟩)
  · exact .inr (.inr rfl)

theorem trimFs_done {io : TrimStage → ℤ × Bool} {fuel : ℕ} (hi : Inv v s)
    (hbegin : v.trimBegin r = .group (v.firstOf r).1 (v.firstOf r).2)
    (hr : v.trimFs s r io fuel = some (s', 0)) : Done v r s s' := by
  unfold Volume.trimFs at hr
  rw [hbegin] at hr
  have hstart : Midway v r s (s, .group (v.firstOf r).1 (v.firstOf r).2) :=
    ⟨⟨fun i h1 h2 => absurd h1 (not_le.mpr h2), fun i _ ht => ⟨ht, hi i ht⟩, rfl, le_rfl⟩,
      (if_pos rfl).symm⟩
  exact hstart.loop hr

theorem trimLoop_done {io : TrimStage → ℤ × Bool} {fuel : ℕ} {call : TrimCall} {n ret : ℤ}
    (hr : v.trimLoop call io fuel (s, .done n) = some (s', ret)) : s' = s ∧ ret = n := by
  cases fuel with
  | zero => cases hr
  | succ =>
    cases hr
    exact ⟨rfl, rfl⟩

theorem Inv.trim {io : TrimStage → ℤ × Bool} {fuel : ℕ} {ret : ℤ} (hi : Inv v s)
    (hq : Volume.Quiet io) (hw : v.WholeGroups s r)
    (hr : v.trimFs s r io fuel = some (s', ret)) : Inv v s' := by
  obtain hbegin | ⟨hbegin, -⟩ | hbegin := trimBegin_cases (v := v) r
  · rw [Volume.trimFs, hbegin] at hr
    rwa [(trimLoop_done hr).1]
  · rw [Volume.trimFs, hbegin] at hr
    rwa [(trimLoop_done hr).1]
  obtain rfl : ret = 0 := quiet_loop hq (by rw [hbegin]; simp) hr
  obtain ⟨hfirst, hend, hmarks⟩ := hw hbegin
  have hdone := trimFs_done hi hbegin hr
  intro k hk
  rw [hdone.last]
  by_cases hin : (v.firstOf r).1 ≤ k ∧ k ≤ (v.callOf r).lastGroup
  · refine SweptIn.mono (hdone.swept k hin.1 hin.2) le_rfl ?_ ?_
    · unfold Volume.lowest
      split_ifs <;> omega
    · obtain ⟨hgroup, -⟩ := offset_mono (v := v) (lastBlock_le (r := r))
      have hk' : k ≤ (v.callTo (v.blocksCount - 1) 0).lastGroup := hin.2.trans hgroup
      rw [Volume.span, if_neg (not_lt.mpr hk')]
      obtain hlast | hlast := hend
      · rw [Volume.callOf, hlast]
        exact le_rfl
      · have hlt : (v.callTo (v.blocksCount - 1) 0).lastCluster < v.clustersPerGroup :=
          getGroupNoAndOffset_lt v _
        unfold Volume.limit
        split_ifs <;> omega
  · have hout : k < (v.firstOf r).1 ∨ (v.callOf r).lastGroup < k := by omega
    obtain ⟨hold, hswept⟩ := hdone.outside k hout hk
    exact SweptIn.mono hswept (hmarks k hold hout) le_rfl le_rfl

theorem free_of_setOwner {o : Owner} (ho : o ≠ .free) {i : ℕ} (h : (s.setOwner k a b o).Free i c) :
    s.Free i c := by
  simp only [Groups.Free, Groups.setOwner] at h
  by_cases hi : i = k
  · subst hi
    rw [update_self] at h
    split_ifs at h
    · exact absurd h ho
    · exact h
  · rwa [update_of_ne hi] at h

/-- A call that is not disturbed keeps the marks of the groups true. -/
theorem Inv.step {act : TrimAct} (hi : Inv v s) (hw : v.Undisturbed s act)
    (hs : v.step s act = some s') : Inv v s' := by
  cases act with
  | alloc | retire =>
    simp only [Volume.step] at hs
    split_ifs at hs
    cases hs
    intro i ht x y hl hx hlen hy hfree
    exact hi i ht x y hl hx hlen hy fun c h1 h2 => free_of_setOwner (by simp) (hfree c h1 h2)
  | release k =>
    simp only [Volume.step] at hs
    split_ifs at hs
    cases hs
    intro i ht x y hl hx hlen hy hfree c h1 h2
    have hne : i ≠ k := by
      rintro rfl
      simp [Groups.setTrimmed] at ht
    simp only [Groups.Free, Groups.setTrimmed, Groups.setDiscarded, Groups.setOwner,
      update_of_ne hne] at ht hfree ⊢
    exact hi i ht x y hl hx hlen hy hfree c h1 h2
  | trim =>
    obtain ⟨⟨s', n⟩, hr, rfl⟩ := Option.map_eq_some_iff.mp hs
    exact hi.trim hw.1 hw.2 hr

end VMsep.Ext4.Mballoc
