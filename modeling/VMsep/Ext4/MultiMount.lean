import VMsep.Lib.TimedClaim
import VMsep.Lib.Transition
import Mathlib.Data.Fintype.Basic
import Mathlib.Data.Nat.ModEq

/-! `ext4_multi_mount_protect` and `kmmpd` of any number of hosts on one MMP block. Each read and
each write of the block is one step, and time passes in steps of a jiffy. -/

namespace VMsep.Ext4

open VMsep.Lib Function

def mmpSeqClean : ℕ := 0xFF4D4D50
def mmpSeqFsck : ℕ := 0xE24D4D50
def mmpSeqMax : ℕ := 0xE24D4D4F

def mmpCheckMult : ℕ := 2
def mmpMinCheckInterval : ℕ := 5
def mmpMaxCheckInterval : ℕ := 300

structure MmpStruct where
  mmpSeq : ℕ
  mmpCheckInterval : ℕ
  mmpNodename : ℕ
  deriving DecidableEq

/-- `HZ`, `s_mmp_update_interval` of the superblock, and the names of the hosts. -/
structure MmpConfig (ι : Type) where
  hz : ℕ
  mmpUpdateInterval : ℕ
  nodename : ι → ℕ

/-- The thread of a host. It sleeps after a write, and is at the top of its loop otherwise.
`published` is the check interval of its last write, or of the one that comes. -/
structure Kmmpd where
  bh : MmpStruct
  seq : ℕ
  mmpCheckInterval : ℕ
  lastUpdateTime : ℕ
  published : ℕ
  asleep : Bool
  deriving DecidableEq

/-- Where a host is: in the first wait of `ext4_multi_mount_protect`, at `skip`, in the second wait,
returned 0 with a running thread, or with a thread that was told to stop. -/
inductive MountState where
  | idle
  | checking (bh : MmpStruct) (waitTime wakeAt : ℕ)
  | skip (bh : MmpStruct) (waitTime : ℕ)
  | confirming (bh : MmpStruct) (seq wakeAt : ℕ)
  | mounted (kmmpd : Kmmpd)
  | stopping (bh : MmpStruct)
  deriving DecidableEq

structure Mmp (ι : Type) where
  now : ℕ
  block : MmpStruct
  host : ι → MountState

/-- `mmp_new_seq` gives the number of `writeSeq`; `interrupt` ends a wait by a signal, and `exit` is
the thread's end because of a feature or of a remount. -/
inductive MmpAction (ι : Type) where
  | tick
  | readFirst (i : ι)
  | readSecond (i : ι)
  | writeSeq (i : ι) (seq : ℕ)
  | readThird (i : ι) (startFails : Bool)
  | interrupt (i : ι)
  | update (i : ι)
  | wake (i : ι)
  | stop (i : ι)
  | writeClean (i : ι)
  | exit (i : ι)

namespace Mmp

variable {ι : Type} [DecidableEq ι] (cfg : MmpConfig ι)

def start (now : ℕ) (block : MmpStruct) : Mmp ι := ⟨now, block, fun _ => .idle⟩

def waitTime (block : MmpStruct) : ℕ :=
  let checkInterval := max (max cfg.mmpUpdateInterval mmpMinCheckInterval) block.mmpCheckInterval
  min (checkInterval * 2 + 1) (checkInterval + 60)

def protect (now : ℕ) (block : MmpStruct) : MountState :=
  if block.mmpSeq = mmpSeqClean then .skip block 0
  else if block.mmpSeq = mmpSeqFsck then .idle
  else .checking block (waitTime cfg block) (now + cfg.hz * waitTime cfg block)

/-- `kmmpd` before its loop. -/
def startKmmpd (i : ι) (now : ℕ) (block : MmpStruct) : Kmmpd :=
  let checkInterval := max (mmpCheckMult * cfg.mmpUpdateInterval) mmpMinCheckInterval
  { bh := { block with
      mmpCheckInterval := checkInterval % 2 ^ 16, mmpNodename := cfg.nodename i }
    seq := 0, mmpCheckInterval := checkInterval, lastUpdateTime := now
    published := checkInterval % 2 ^ 16, asleep := false }

def nextSeq (k : Kmmpd) : ℕ := if k.seq + 1 > mmpSeqMax then 1 else k.seq + 1

def updateKmmpd (now : ℕ) (k : Kmmpd) : Kmmpd :=
  { k with
    seq := nextSeq k, bh := { k.bh with mmpSeq := nextSeq k }, lastUpdateTime := now
    published := k.bh.mmpCheckInterval, asleep := true }

/-- The thread after its sleep: it ends if it comes too late and the block was changed. -/
def wakeKmmpd (now : ℕ) (block : MmpStruct) (k : Kmmpd) : MountState :=
  let diff := now - k.lastUpdateTime
  if diff > k.mmpCheckInterval * cfg.hz ∧
      (k.bh.mmpSeq ≠ block.mmpSeq ∨ k.bh.mmpNodename ≠ block.mmpNodename) then .idle
  else
    let checkInterval := max (min (mmpCheckMult * diff / cfg.hz) mmpMaxCheckInterval)
      mmpMinCheckInterval
    .mounted { k with
      bh := { k.bh with mmpCheckInterval := checkInterval }, mmpCheckInterval := checkInterval
      asleep := false }

def setHost (s : Mmp ι) (i : ι) (h : MountState) : Mmp ι :=
  { s with host := update s.host i h }

def step (s : Mmp ι) : MmpAction ι → Option (Mmp ι)
  | .tick => some { s with now := s.now + 1 }
  | .readFirst i =>
    match s.host i with
    | .idle => some (s.setHost i (protect cfg s.now s.block))
    | _ => none
  | .readSecond i =>
    match s.host i with
    | .checking bh waitTime wakeAt =>
      if wakeAt ≤ s.now then
        some (s.setHost i (if bh.mmpSeq = s.block.mmpSeq then .skip s.block waitTime else .idle))
      else none
    | _ => none
  | .writeSeq i seq =>
    match s.host i with
    | .skip bh waitTime =>
      if seq ≤ mmpSeqMax then
        let bh := { bh with mmpSeq := seq }
        some ({ s with block := bh }.setHost i (.confirming bh seq (s.now + cfg.hz * waitTime)))
      else none
    | _ => none
  | .readThird i startFails =>
    match s.host i with
    | .confirming _ seq wakeAt =>
      if wakeAt ≤ s.now then
        some (s.setHost i (if seq ≠ s.block.mmpSeq ∨ startFails then .idle
          else .mounted (startKmmpd cfg i s.now s.block)))
      else none
    | _ => none
  | .interrupt i =>
    match s.host i with
    | .checking .. | .confirming .. => some (s.setHost i .idle)
    | _ => none
  | .update i =>
    match s.host i with
    | .mounted k =>
      if k.asleep then none
      else
        let k := updateKmmpd s.now k
        some ({ s with block := k.bh }.setHost i (.mounted k))
    | _ => none
  | .wake i =>
    match s.host i with
    | .mounted k =>
      -- the sleep may be cut short, by a request to stop
      if k.asleep then some (s.setHost i (wakeKmmpd cfg s.now s.block k)) else none
    | _ => none
  | .stop i =>
    match s.host i with
    | .mounted k => if k.asleep then none else some (s.setHost i (.stopping k.bh))
    | _ => none
  | .writeClean i =>
    match s.host i with
    | .stopping bh => some ({ s with block := { bh with mmpSeq := mmpSeqClean } }.setHost i .idle)
    | _ => none
  | .exit i =>
    match s.host i with
    | .mounted k => if k.asleep then some (s.setHost i .idle) else none
    | _ => none

def deadline : MountState → Option ℕ
  | .mounted k => some (k.lastUpdateTime + cfg.hz * k.published)
  | _ => none

def token : MountState → Option ℕ
  | .confirming _ seq _ => some seq
  | _ => none

/-- What the protection is built on: every thread writes again before the check interval it has
published has passed, and the hosts draw different numbers. -/
def Assumed (s : Mmp ι) (a : MmpAction ι) : Prop :=
  (∀ i, ∀ d ∈ deadline cfg (s.host i), s.now < d) ∧
    match a with
    | .writeSeq _ seq => ∀ i, ∀ v ∈ token (s.host i), v ≠ seq
    | _ => True

def published : MountState → Option ℕ
  | .mounted k => some k.published
  | _ => none

def waitAtSkip : MountState → Option ℕ
  | .skip _ waitTime => some waitTime
  | _ => none

def nextOf : MountState → Option ℕ
  | .mounted k => some (nextSeq k)
  | _ => none

/-- A host that writes its number will wait for the check intervals of the threads that run, and no
thread counts up to the number of a host that waits. -/
def LongEnough (s : Mmp ι) (a : MmpAction ι) : Prop :=
  match a with
  | .writeSeq i _ => ∀ w ∈ waitAtSkip (s.host i), ∀ j, ∀ p ∈ published (s.host j), p ≤ w
  | .update i => ∀ w ∈ nextOf (s.host i), ∀ j, ∀ v ∈ token (s.host j), v ≠ w
  | _ => True

open TimedClaim

variable {cfg} {s s' : Mmp ι} {i : ι} {k : Kmmpd} {a : MmpAction ι} {x : MountState}
  {bh : MmpStruct}

def party (cfg : MmpConfig ι) : MountState → Party ℕ
  | .confirming _ seq wakeAt => .claiming seq wakeAt
  | .mounted k => .holding (k.lastUpdateTime + cfg.hz * k.published)
  | _ => .out

def register (cfg : MmpConfig ι) (s : Mmp ι) : Register ι ℕ :=
  ⟨s.now, s.block.mmpSeq, fun i => party cfg (s.host i)⟩

/-- The hosts as parties, with what is known of the numbers and times. -/
structure Ok (cfg : MmpConfig ι) (s : Mmp ι) : Prop where
  inv : Inv (register cfg s)
  token_le : ∀ i, ∀ v ∈ token (s.host i), v ≤ mmpSeqMax
  update_le : ∀ i k, s.host i = .mounted k → k.lastUpdateTime ≤ s.now

theorem register_setHost (s : Mmp ι) (i : ι) (h : MountState) : register cfg (s.setHost i h) =
      { register cfg s with party := update (register cfg s).party i (party cfg h) } := by
  unfold register setHost
  congr
  funext j
  exact apply_update (fun _ => party cfg) s.host i h j

omit [DecidableEq ι] in
theorem party_mounted (h : s.host i = .mounted k) :
    (register cfg s).party i = .holding (k.lastUpdateTime + cfg.hz * k.published) := by
  show party cfg (s.host i) = _
  rw [h]
  rfl

omit [DecidableEq ι] in
theorem alive_of_assumed (h : Assumed cfg s a) : Alive (register cfg s) := by
  intro j d hj
  refine h.1 j d ?_
  change party cfg (s.host j) = .holding d at hj
  cases hh : s.host j with
  | mounted =>
    rw [hh] at hj
    cases hj
    rfl
  | _ => rw [hh] at hj; cases hj

omit [DecidableEq ι] in
theorem fresh_of_token {v : ℕ} (h : ∀ i, ∀ w ∈ token (s.host i), w ≠ v) :
    Fresh (register cfg s) v := by
  intro j w t hj
  refine h j w ?_
  change party cfg (s.host j) = .claiming w t at hj
  cases hh : s.host j with
  | confirming =>
    rw [hh] at hj
    cases hj
    rfl
  | _ => rw [hh] at hj; cases hj

section

variable (h : Ok cfg s)

include h

theorem Ok.setHost (block : MmpStruct)
    (hinv : Inv (register cfg ({ s with block := block }.setHost i x)))
    (htoken : ∀ v ∈ token x, v ≤ mmpSeqMax)
    (hupdate : ∀ k, x = .mounted k → k.lastUpdateTime ≤ s.now) :
    Ok cfg ({ s with block := block }.setHost i x) := by
  have hhost : ∀ j, ({ s with block := block }.setHost i x).host j = x ∨
      ({ s with block := block }.setHost i x).host j = s.host j := by
    intro j
    by_cases hji : j = i
    · subst hji
      exact .inl (update_self ..)
    · exact .inr (update_of_ne hji ..)
  refine ⟨hinv, fun j v hv => ?_, fun j k hj => ?_⟩
  · obtain hx | hx := hhost j
    · rw [hx] at hv
      exact htoken v hv
    · rw [hx] at hv
      exact h.token_le j v hv
  · obtain hx | hx := hhost j
    · exact hupdate k (hx.symm.trans hj)
    · exact h.update_le j k (hx.symm.trans hj)

theorem Ok.leave (hx : party cfg x = .out) (htoken : token x = none)
    (hmounted : ∀ k, x ≠ .mounted k) : Ok cfg (s.setHost i x) := by
  refine h.setHost s.block ?_ (fun v hv => ?_) fun k hk => absurd hk (hmounted k)
  · rw [register_setHost, hx]
    exact h.inv.leave i
  · rw [htoken] at hv
    cases hv

theorem Ok.idle (i : ι) : Ok cfg (s.setHost i .idle) :=
  h.leave rfl rfl (by simp)

theorem Ok.readFirst (i : ι) : Ok cfg (s.setHost i (protect cfg s.now s.block)) := by
  unfold protect
  split
  · exact h.leave rfl rfl (by simp)
  split
  · exact h.idle i
  · exact h.leave rfl rfl (by simp)

theorem Ok.writeSeq {waitTime seq : ℕ} (hle : seq ≤ mmpSeqMax) (hfresh : Fresh (register cfg s) seq)
    (hwait : ∀ j, ∀ p ∈ published (s.host j), p ≤ waitTime) :
    Ok cfg ({ s with block := { bh with mmpSeq := seq } }.setHost i
      (.confirming { bh with mmpSeq := seq } seq (s.now + cfg.hz * waitTime))) := by
  refine h.setHost _ ?_ (fun v hv => ?_) fun k hk => by cases hk
  · rw [register_setHost]
    refine h.inv.claim hfresh fun j d _ hj => ?_
    change party cfg (s.host j) = .holding d at hj
    cases hh : s.host j with
    | mounted k =>
      rw [hh] at hj
      cases hj
      have h1 := h.update_le j k hh
      have h2 : k.published ≤ waitTime := hwait j k.published (by rw [hh]; rfl)
      exact Nat.add_le_add h1 (Nat.mul_le_mul_left _ h2)
    | _ => rw [hh] at hj; cases hj
  · cases hv
    exact hle

/-- A host that finds its number again is the only one. -/
theorem Ok.readThird {seq wakeAt : ℕ} (hi : s.host i = .confirming bh seq wakeAt)
    (hseq : seq = s.block.mmpSeq) (hwake : wakeAt ≤ s.now) (halive : Alive (register cfg s)) :
    Ok cfg (s.setHost i (.mounted (startKmmpd cfg i s.now s.block))) := by
  refine h.setHost s.block ?_ (fun v hv => by cases hv) fun k hk => ?_
  · rw [register_setHost]
    have hparty : (register cfg s).party i = .claiming seq wakeAt := by
      show party cfg (s.host i) = _
      rw [hi]
      rfl
    exact h.inv.hold hparty hseq.symm hwake halive
  · cases hk
    exact Nat.le_refl _

theorem Ok.update (hi : s.host i = .mounted k) (hfresh : Fresh (register cfg s) (nextSeq k)) :
    Ok cfg ({ s with block := (updateKmmpd s.now k).bh }.setHost i
      (.mounted (updateKmmpd s.now k))) := by
  refine h.setHost _ ?_ (fun v hv => by cases hv) fun k' hk => ?_
  · rw [register_setHost]
    exact h.inv.refresh (party_mounted hi) hfresh
  · cases hk
    exact Nat.le_refl _

theorem Ok.wake (hi : s.host i = .mounted k) :
    Ok cfg (s.setHost i (wakeKmmpd cfg s.now s.block k)) := by
  unfold wakeKmmpd
  dsimp only
  split
  · exact h.idle i
  refine h.setHost s.block ?_ (fun v hv => by cases hv) fun k' hk => ?_
  · rw [register_setHost]
    have hupdate := update_eq_self i (register cfg s).party
    rw [party_mounted hi] at hupdate
    exact (congrArg (fun p => Inv { register cfg s with party := p }) hupdate).mpr h.inv
  · cases hk
    exact h.update_le i k hi

theorem Ok.writeClean (i : ι) (bh : MmpStruct) :
    Ok cfg ({ s with block := { bh with mmpSeq := mmpSeqClean } }.setHost i .idle) := by
  refine h.setHost _ ?_ (fun v hv => by cases hv) fun k hk => by cases hk
  rw [register_setHost]
  refine Inv.leave (s := { register cfg s with value := mmpSeqClean }) (h.inv.write ?_) i
  refine fresh_of_token fun j v hv => ?_
  have hle := h.token_le j v hv
  unfold mmpSeqMax at hle
  unfold mmpSeqClean
  omega

/-- A step that waits long enough keeps what is known of the hosts. -/
theorem Ok.step (hassumed : Assumed cfg s a) (hlong : LongEnough s a) (hs : step cfg s a = some s')
    : Ok cfg s' := by
  cases a with
  | tick =>
    cases hs
    exact ⟨⟨h.inv.tokens, h.inv.waits, h.inv.one⟩, h.token_le,
      fun j k hj => Nat.le_succ_of_le (h.update_le j k hj)⟩
  | readFirst i =>
    simp only [Mmp.step] at hs
    split at hs <;> cases hs
    exact h.readFirst i
  | readSecond i =>
    simp only [Mmp.step] at hs
    split at hs
    · split_ifs at hs <;> cases hs
      · exact h.leave rfl rfl (by simp)
      · exact h.idle i
    · cases hs
  | writeSeq i =>
    simp only [Mmp.step] at hs
    split at hs
    · rename_i waitTime hi
      simp only [LongEnough, hi] at hlong
      split_ifs at hs with hle
      cases hs
      exact h.writeSeq hle (fresh_of_token hassumed.2) (hlong waitTime rfl)
    · cases hs
  | readThird i =>
    simp only [Mmp.step] at hs
    split at hs
    · rename_i seq _ hi
      split_ifs at hs with hwake hok <;> cases hs
      · exact h.idle i
      · have hseq : seq = s.block.mmpSeq := by
          by_contra hne
          exact hok (.inl hne)
        exact h.readThird hi hseq hwake (alive_of_assumed hassumed)
    · cases hs
  | interrupt i =>
    simp only [Mmp.step] at hs
    split at hs <;> cases hs <;> exact h.idle i
  | update i =>
    simp only [Mmp.step] at hs
    split at hs
    · rename_i k hi
      simp only [LongEnough, hi] at hlong
      split_ifs at hs
      cases hs
      exact h.update hi (fresh_of_token (hlong (nextSeq k) rfl))
    · cases hs
  | wake i =>
    simp only [Mmp.step] at hs
    split at hs
    · rename_i hi
      split_ifs at hs
      cases hs
      exact h.wake hi
    · cases hs
  | stop i =>
    simp only [Mmp.step] at hs
    split at hs
    · split_ifs at hs
      cases hs
      exact h.leave rfl rfl (by simp)
    · cases hs
  | writeClean i =>
    simp only [Mmp.step] at hs
    split at hs <;> cases hs
    exact h.writeClean i _
  | exit i =>
    simp only [Mmp.step] at hs
    split at hs
    · split_ifs at hs
      cases hs
      exact h.idle i
    · cases hs

end

def isMounted : MountState → Bool
  | .mounted _ => true
  | _ => false

/-- In no state of a run have two hosts returned 0 and a running thread, if every host that writes
its number waits for the check intervals of the threads that run. -/
theorem mounted_exclusive (cfg : MmpConfig ι) (now : ℕ) (block : MmpStruct)
    (as : List (MmpAction ι)) {s : Mmp ι} (hrun : exec (step cfg) (start now block) as = some s)
    (hassumed : Along (step cfg) (Assumed cfg) (start now block) as)
    (hlong : Along (step cfg) LongEnough (start now block) as) {i j : ι} (hij : i ≠ j) :
    ¬ (isMounted (s.host i) ∧ isMounted (s.host j)) := by
  have hstart : Ok cfg (start now block : Mmp ι) :=
    ⟨inv_of_out fun i => rfl, fun i v hv => (by cases hv), fun i k hk => (by cases hk)⟩
  have hok := exec_invariant (I := Ok cfg)
    (fun s a s' h hc hs => h.step hc.1 hc.2 hs) as hstart hrun (hassumed.and hlong)
  have hmounted : ∀ l, isMounted (s.host l) = true → ∃ k, s.host l = .mounted k := by
    intro l hl
    cases hh : s.host l with
    | mounted k => exact ⟨k, rfl⟩
    | _ => rw [hh] at hl; cases hl
  rintro ⟨hi, hj⟩
  obtain ⟨k, hk⟩ := hmounted i hi
  obtain ⟨k', hk'⟩ := hmounted j hj
  exact hij (hok.inv.one i j _ _ (party_mounted hk) (party_mounted hk'))

instance [Fintype ι] (s : Mmp ι) (a : MmpAction ι) : Decidable (Assumed cfg s a) :=
  match a with
  | .writeSeq _ seq =>
    inferInstanceAs (Decidable (_ ∧ ∀ i, ∀ v ∈ token (s.host i), v ≠ seq))
  | .tick | .readFirst _ | .readSecond _ | .readThird _ _ | .interrupt _ | .update _ | .wake _
  | .stop _ | .writeClean _ | .exit _ => inferInstanceAs (Decidable (_ ∧ True))

instance [Fintype ι] (s : Mmp ι) (a : MmpAction ι) : Decidable (LongEnough s a) :=
  match a with
  | .writeSeq i _ => inferInstanceAs
      (Decidable (∀ w ∈ waitAtSkip (s.host i), ∀ j, ∀ p ∈ published (s.host j), p ≤ w))
  | .update i => inferInstanceAs
      (Decidable (∀ w ∈ nextOf (s.host i), ∀ j, ∀ v ∈ token (s.host j), v ≠ w))
  | .tick | .readFirst _ | .readSecond _ | .readThird _ _ | .interrupt _ | .wake _
  | .stop _ | .writeClean _ | .exit _ => inferInstanceAs (Decidable True)

def twoHosts : MmpConfig Bool := ⟨1, 5, fun i => if i then 1 else 2⟩

/-- Both hosts find the block unchanged. The second one writes its number when the first one is
mounted, and gives up after its wait. -/
def contendedRun : List (MmpAction Bool) :=
  [.readFirst true, .readFirst false] ++ List.replicate 11 .tick ++
    [.readSecond true, .readSecond false, .writeSeq true 1000] ++ List.replicate 11 .tick ++
    [.readThird true false, .update true, .writeSeq false 2000] ++ List.replicate 5 .tick ++
    [.wake true, .update true] ++ List.replicate 6 .tick ++ [.wake true, .update true,
    .readThird false false]

theorem mounted_exclusive_contendedRun :
    (exec (step twoHosts) (start 0 ⟨77, 5, 0⟩) contendedRun).map
        (fun s => (isMounted (s.host true), isMounted (s.host false))) = some (true, false) ∧
      ∀ s, exec (step twoHosts) (start 0 ⟨77, 5, 0⟩) contendedRun = some s →
        ¬ (isMounted (s.host true) ∧ isMounted (s.host false)) :=
  ⟨by decide +kernel, fun _ hrun => mounted_exclusive twoHosts 0 ⟨77, 5, 0⟩ contendedRun hrun
    (by decide +kernel) (by decide +kernel) (by decide)⟩

/-- The block says that the filesystem was unmounted cleanly. Both hosts read it before either of
them writes, neither waits, and both are mounted. -/
theorem mounted_exclusive_bug :
    Along (step twoHosts) (Assumed twoHosts) (start 0 ⟨mmpSeqClean, 5, 0⟩)
        [.readFirst true, .readFirst false, .writeSeq true 1000, .readThird true false,
          .writeSeq false 2000, .readThird false false] ∧
      (exec (step twoHosts) (start 0 ⟨mmpSeqClean, 5, 0⟩)
        [.readFirst true, .readFirst false, .writeSeq true 1000, .readThird true false,
          .writeSeq false 2000, .readThird false false]).map
            (fun s => (s.host true, s.host false)) =
        some (.mounted (startKmmpd twoHosts true 0 ⟨1000, 5, 0⟩),
          .mounted (startKmmpd twoHosts false 0 ⟨2000, 5, 0⟩)) := by
  decide +kernel

end Mmp

end VMsep.Ext4
