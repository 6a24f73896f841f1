import VMsep.Lib.SearchTree
import VMsep.Lib.Transition
import Mathlib.Data.List.Induction
import Mathlib.Data.Nat.ModEq

/-! The tree of the ranges of blocks that hold metadata, and the check that a range of data blocks
does not touch them. Block numbers have 64 bits and counts of blocks 32 bits. -/

namespace VMsep.Ext4

open Lib List

/-- `struct ext4_system_zone`. -/
structure SystemZone where
  startBlk : ℕ
  count : ℕ
  deriving DecidableEq

structure ZoneInfo where
  systemBlks : BinaryTree SystemZone
  sFirstDataBlock : ℕ
  blocksCount : ℕ
  sLastErrorBlock : ℕ

namespace SystemZone

def stop64 (e : SystemZone) : ℕ := (e.startBlk + e.count) % 2 ^ 64

def canMerge (e f : SystemZone) : Bool := e.stop64 = f.startBlk

/-- Where `add_system_zone` goes from a node. -/
def side (startBlk : ℕ) (e : SystemZone) : Ordering :=
  if startBlk < e.startBlk then .lt else if e.stop64 ≤ startBlk then .gt else .eq

def extend (e : SystemZone) (startBlk count : ℕ) : SystemZone :=
  if e.stop64 < (startBlk + count) % 2 ^ 64 then
    { e with count := (startBlk + count + 2 ^ 64 - e.startBlk) % 2 ^ 64 % 2 ^ 32 }
  else e

def mergeLeft (l : List SystemZone) (e : SystemZone) : List SystemZone × SystemZone :=
  match l.getLast? with
  | none => (l, e)
  | some f =>
    if f.canMerge e then
      (l.dropLast, { startBlk := f.startBlk, count := (e.count + f.count) % 2 ^ 32 })
    else (l, e)

def mergeRight (e : SystemZone) : List SystemZone → SystemZone × List SystemZone
  | [] => (e, [])
  | f :: m =>
    if e.canMerge f then ({ e with count := (e.count + f.count) % 2 ^ 32 }, m) else (e, f :: m)

def mergeBoth (l : List SystemZone) (e : SystemZone) (m : List SystemZone) : List SystemZone :=
  let left := mergeLeft l e
  let right := mergeRight left.2 m
  left.1 ++ right.1 :: right.2

/-- Where `ext4_data_block_valid` goes from a node. -/
def overlap (startBlk count : ℕ) (e : SystemZone) : Ordering :=
  if (startBlk + count + (2 ^ 64 - 1)) % 2 ^ 64 < e.startBlk then .lt
  else if e.stop64 ≤ startBlk then .gt
  else .eq

end SystemZone

open SystemZone

/-- `add_system_zone`; `rb` balances the tree when a node is linked or erased, and `alloc` says that
the allocation succeeds. -/
def addSystemZone (sbi : ZoneInfo) (rb : Balance SystemZone) (alloc : Bool) (startBlk count : ℕ) :
    Option ZoneInfo :=
  let t := sbi.systemBlks
  let p := locate (side startBlk) t
  match p.found with
  | some entry =>
    let new := entry.extend startBlk count
    let nodes := mergeBoth p.before new p.after
    -- without a merge the node is changed in its place
    some { sbi with
      systemBlks :=
        if nodes = p.before ++ new :: p.after then replaceFound (side startBlk) new t
        else rb.shape nodes }
  | none =>
    if alloc then
      some { sbi with systemBlks := rb.shape (mergeBoth p.before ⟨startBlk, count⟩ p.after) }
    else none

def dataBlockValid (sbi : ZoneInfo) (startBlk count : ℕ) : Bool × ZoneInfo :=
  let bad := (false, { sbi with sLastErrorBlock := startBlk })
  if startBlk ≤ sbi.sFirstDataBlock ∨ (startBlk + count) % 2 ^ 64 < startBlk ∨
      sbi.blocksCount < (startBlk + count) % 2 ^ 64 then bad
  else if (locate (overlap startBlk count) sbi.systemBlks).found.isSome then bad
  else (true, sbi)

namespace SystemZone

variable {l m : List SystemZone} {e f : SystemZone} {x : ℕ} {p : ℕ → Prop}

def stop (e : SystemZone) : ℕ := e.startBlk + e.count

def Covers (e : SystemZone) (x : ℕ) : Prop := e.startBlk ≤ x ∧ x < e.stop

def Covered (l : List SystemZone) (x : ℕ) : Prop := ∃ e ∈ l, e.Covers x

def Apart (e f : SystemZone) : Prop := e.stop < f.startBlk

structure Fits (e : SystemZone) : Prop where
  pos : 0 < e.count
  count : e.count < 2 ^ 32
  stop : e.stop < 2 ^ 64

structure Separated (l : List SystemZone) : Prop where
  fits : ∀ e ∈ l, e.Fits
  apart : l.Pairwise Apart

theorem Fits.stop64_eq (h : e.Fits) : e.stop64 = e.stop := Nat.mod_eq_of_lt h.stop

theorem Fits.canMerge_iff (h : e.Fits) : e.canMerge f = true ↔ e.stop = f.startBlk := by
  rw [canMerge, h.stop64_eq, decide_eq_true_iff]

theorem covered_append : Covered (l ++ m) x ↔ Covered l x ∨ Covered m x := by
  simp only [Covered, mem_append, or_and_right, exists_or]

theorem covered_cons : Covered (e :: l) x ↔ e.Covers x ∨ Covered l x := by
  simp [Covered]

theorem Separated.cases (h : Separated l) (he : e ∈ l) (hf : f ∈ l) :
    e = f ∨ e.Apart f ∨ f.Apart e := by
  induction l with
  | nil => cases he
  | cons a l ih =>
    obtain ⟨ha, hl⟩ := pairwise_cons.mp h.apart
    rcases mem_cons.mp he with rfl | hel
    · rcases mem_cons.mp hf with rfl | hfl
      · exact .inl rfl
      · exact .inr (.inl (ha f hfl))
    · rcases mem_cons.mp hf with rfl | hfl
      · exact .inr (.inr (ha e hel))
      · exact ih ⟨fun b hb => h.fits b (mem_cons_of_mem _ hb), hl⟩ hel hfl

theorem Separated.reach (h : Separated l) {startBlk count : ℕ}
    (hreach : ∀ x, startBlk < x → x < startBlk + count → Covered l x → Covered l (x - 1))
    (he : e ∈ l) (hlt : startBlk < e.startBlk) : startBlk + count ≤ e.startBlk := by
  by_contra hge
  have hpos := (h.fits e he).pos
  have hcov : Covered l e.startBlk := ⟨e, he, le_rfl, by unfold stop; omega⟩
  obtain ⟨f, hf, hf1, hf2⟩ := hreach e.startBlk hlt (by omega) hcov
  rcases h.cases he hf with rfl | hapart | hapart
  · omega
  · unfold Apart stop at hapart
    omega
  · unfold Apart at hapart
    omega

theorem Separated.sublist (h : Separated l) (hsub : m.Sublist l) : Separated m :=
  ⟨fun e he => h.fits e (hsub.subset he), h.apart.sublist hsub⟩

theorem covers_joined (hef : e.stop = f.startBlk) :
    Covers ⟨e.startBlk, f.count + e.count⟩ x ↔ e.Covers x ∨ f.Covers x := by
  unfold Covers stop at *
  dsimp only
  omega

theorem Fits.joined (he : e.Fits) (hf : f.Fits) (hef : e.stop = f.startBlk)
    (hcount : f.count + e.count < 2 ^ 32) : Fits ⟨e.startBlk, f.count + e.count⟩ := by
  have hpos := he.pos
  have hstop := hf.stop
  refine ⟨?_, hcount, ?_⟩
  · change 0 < f.count + e.count
    omega
  unfold SystemZone.stop at *
  dsimp only
  omega

theorem mergeLeft_spec (hl : Separated l) (he : e.Fits) (hbefore : ∀ f ∈ l, f.stop ≤ e.startBlk)
    (hcount : ∀ f ∈ l, f.stop = e.startBlk → e.count + f.count < 2 ^ 32) :
    Separated (mergeLeft l e).1 ∧ (mergeLeft l e).2.Fits ∧ (mergeLeft l e).2.stop = e.stop ∧
      (∀ f ∈ (mergeLeft l e).1, f.Apart (mergeLeft l e).2) ∧
      ∀ x, Covered (mergeLeft l e).1 x ∨ (mergeLeft l e).2.Covers x ↔ Covered l x ∨ e.Covers x := by
  unfold mergeLeft
  rcases eq_nil_or_concat l with rfl | ⟨l, f, rfl⟩
  · exact ⟨hl, he, rfl, by simp, fun x => Iff.rfl⟩
  rw [concat_eq_append] at *
  have hf : f ∈ l ++ [f] := by simp
  have hfits := hl.fits f hf
  have hlast := pairwise_append.mp hl.apart
  rw [getLast?_concat]
  dsimp only
  by_cases hmerge : f.canMerge e = true
  · have hstop := hfits.canMerge_iff.mp hmerge
    have hlt := hcount f hf hstop
    rw [if_pos hmerge, dropLast_concat, Nat.mod_eq_of_lt hlt]
    refine ⟨hl.sublist (sublist_append_left l [f]), hfits.joined he hstop hlt, ?_, ?_, ?_⟩
    · unfold stop at hstop ⊢
      dsimp only
      omega
    · exact fun g hg => hlast.2.2 g hg f (by simp)
    · intro x
      rw [covers_joined hstop, covered_append, covered_cons, or_assoc]
      simp [Covered]
  · rw [if_neg hmerge]
    refine ⟨hl, he, rfl, fun g hg => ?_, fun x => Iff.rfl⟩
    have hne : f.stop ≠ e.startBlk := fun h => hmerge (hfits.canMerge_iff.mpr h)
    have hfe := hbefore f hf
    rcases mem_append.mp hg with hg | hg
    · have hgf : g.stop < f.startBlk := hlast.2.2 g hg f (by simp)
      unfold Apart
      unfold stop at hfe hgf ⊢
      dsimp only
      omega
    · obtain rfl : g = f := by simpa using hg
      exact lt_of_le_of_ne hfe hne

theorem mergeRight_spec (hm : Separated m) (he : e.Fits) (hafter : ∀ f ∈ m, e.stop ≤ f.startBlk)
    (hcount : ∀ f ∈ m, e.stop = f.startBlk → e.count + f.count < 2 ^ 32) :
    Separated (mergeRight e m).2 ∧ (mergeRight e m).1.Fits ∧
      (mergeRight e m).1.startBlk = e.startBlk ∧
      (∀ f ∈ (mergeRight e m).2, (mergeRight e m).1.Apart f) ∧
      ∀ x, (mergeRight e m).1.Covers x ∨ Covered (mergeRight e m).2 x ↔
        e.Covers x ∨ Covered m x := by
  cases m with
  | nil => exact ⟨hm, he, rfl, by simp [mergeRight], fun x => Iff.rfl⟩
  | cons f m =>
    unfold mergeRight
    have hfits := hm.fits f mem_cons_self
    obtain ⟨hfm, -⟩ := pairwise_cons.mp hm.apart
    dsimp only
    by_cases hmerge : e.canMerge f = true
    · have hstop := he.canMerge_iff.mp hmerge
      have hlt := hcount f mem_cons_self hstop
      rw [if_pos hmerge, Nat.mod_eq_of_lt hlt, Nat.add_comm]
      rw [Nat.add_comm] at hlt
      refine ⟨hm.sublist (sublist_cons_self f m), he.joined hfits hstop hlt, rfl, ?_, ?_⟩
      · intro g hg
        have hfg : f.stop < g.startBlk := hfm g hg
        unfold Apart
        unfold stop at hstop hfg ⊢
        dsimp only
        omega
      · intro x
        rw [covers_joined hstop, covered_cons, or_assoc]
    · rw [if_neg hmerge]
      refine ⟨hm, he, rfl, fun g hg => ?_, fun x => Iff.rfl⟩
      have hne : e.stop ≠ f.startBlk := fun h => hmerge (he.canMerge_iff.mpr h)
      have hef := hafter f mem_cons_self
      rcases mem_cons.mp hg with rfl | hg
      · exact lt_of_le_of_ne hef hne
      have hfg : f.stop < g.startBlk := hfm g hg
      unfold Apart
      unfold stop at hfg
      dsimp only
      omega

/-- No `n` blocks in a row are covered. -/
def NoRun (n : ℕ) (p : ℕ → Prop) : Prop := ∀ a, ∃ x, a ≤ x ∧ x < a + n ∧ ¬ p x

theorem NoRun.lt {n a k : ℕ} (h : NoRun n p) (hrun : ∀ x, a ≤ x → x < a + k → p x) : k < n := by
  obtain ⟨x, hax, hxn, hx⟩ := h a
  by_contra hge
  exact hx (hrun x hax (by omega))

theorem NoRun.mono {n : ℕ} {q : ℕ → Prop} (h : NoRun n p) (hqp : ∀ x, q x → p x) : NoRun n q := by
  intro a
  obtain ⟨x, hax, hxn, hx⟩ := h a
  exact ⟨x, hax, hxn, fun hq => hx (hqp x hq)⟩

theorem NoRun.joined (h : NoRun (2 ^ 32) p) (hef : e.stop = f.startBlk)
    (hp : ∀ x, e.Covers x ∨ f.Covers x → p x) : f.count + e.count < 2 ^ 32 := by
  refine h.lt (a := e.startBlk) fun x hax hx => hp x ?_
  rw [← covers_joined hef]
  exact ⟨hax, by unfold stop; dsimp only; omega⟩

theorem mergeBoth_spec (hl : Separated l) (hm : Separated m) (he : e.Fits)
    (hbefore : ∀ f ∈ l, f.stop ≤ e.startBlk) (hafter : ∀ f ∈ m, e.stop ≤ f.startBlk)
    (hrun : NoRun (2 ^ 32) (Covered (l ++ e :: m))) :
    Separated (mergeBoth l e m) ∧ ∀ x, Covered (mergeBoth l e m) x ↔ Covered (l ++ e :: m) x := by
  have hcountL : ∀ f ∈ l, f.stop = e.startBlk → e.count + f.count < 2 ^ 32 := by
    intro f hf hfe
    refine hrun.joined hfe fun x hx => ?_
    rw [covered_append, covered_cons]
    rcases hx with hx | hx
    · exact .inl ⟨f, hf, hx⟩
    · exact .inr (.inl hx)
  obtain ⟨hl', he', hstop, hapart, hcov⟩ := mergeLeft_spec hl he hbefore hcountL
  unfold mergeBoth
  generalize mergeLeft l e = left at *
  obtain ⟨l', e'⟩ := left
  dsimp only at *
  have hcountR : ∀ f ∈ m, e'.stop = f.startBlk → e'.count + f.count < 2 ^ 32 := by
    intro f hf hef
    rw [Nat.add_comm]
    refine hrun.joined hef fun x hx => ?_
    rw [covered_append, covered_cons, ← or_assoc, ← hcov]
    rcases hx with hx | hx
    · exact .inl (.inr hx)
    · exact .inr ⟨f, hf, hx⟩
  obtain ⟨hm', he'', hstart, hapart', hcov'⟩ :=
    mergeRight_spec hm he' (fun f hf => by rw [hstop]; exact hafter f hf) hcountR
  generalize mergeRight e' m = right at *
  obtain ⟨e'', m'⟩ := right
  dsimp only at *
  constructor
  · constructor
    · intro f hf
      rcases mem_append.mp hf with hf | hf
      · exact hl'.fits f hf
      rcases mem_cons.mp hf with rfl | hf
      · exact he''
      · exact hm'.fits f hf
    · refine pairwise_append.mpr ⟨hl'.apart, pairwise_cons.mpr ⟨hapart', hm'.apart⟩, ?_⟩
      intro f hf g hg
      have hfe : f.stop < e'.startBlk := hapart f hf
      rcases mem_cons.mp hg with rfl | hg
      · unfold Apart
        omega
      have heg : e''.stop < g.startBlk := hapart' g hg
      unfold Apart
      unfold stop at heg
      omega
  · intro x
    rw [covered_append, covered_cons, hcov', ← or_assoc, hcov, covered_append, covered_cons,
      or_assoc]

theorem overlap_spec {s c : ℕ} (he : e.Fits) (hc : 0 < c) (hstop : s + c < 2 ^ 64) :
    (e.overlap s c = .lt ↔ s + c ≤ e.startBlk) ∧ (e.overlap s c = .gt ↔ e.stop ≤ s) ∧
      (e.overlap s c = .eq ↔ e.startBlk < s + c ∧ s < e.stop) := by
  have hmod : (s + c + (2 ^ 64 - 1)) % 2 ^ 64 = s + c - 1 := by omega
  unfold overlap
  rw [he.stop64_eq, hmod]
  unfold stop
  split_ifs with h1 h2
  all_goals
    simp only [true_iff, false_iff]
    omega

theorem side_eq_overlap {s : ℕ} (hs : s < 2 ^ 64) : side s = overlap s 1 := by
  funext e
  have hmod : (s + 1 + (2 ^ 64 - 1)) % 2 ^ 64 = s := by omega
  unfold side overlap
  rw [hmod]

theorem Separated.orderedBy_overlap (h : Separated l) {s c : ℕ} (hc : 0 < c)
    (hstop : s + c < 2 ^ 64) : OrderedBy (overlap s c) l := by
  refine pairwise_iff_forall_sublist.mpr fun {a b} hab => ?_
  have hapart : a.Apart b := pairwise_iff_forall_sublist.mp h.apart hab
  obtain ⟨haLt, haGt, -⟩ := overlap_spec (h.fits a (hab.subset (by simp))) hc hstop
  obtain ⟨hbLt, hbGt, -⟩ := overlap_spec (h.fits b (hab.subset (by simp))) hc hstop
  rw [haLt, haGt, hbLt, hbGt]
  unfold Apart at hapart
  unfold stop at *
  omega

theorem extend_spec {s c : ℕ} (he : e.Fits) (hs : e.Covers s) (hstop : s + c < 2 ^ 64)
    (hcount : s + c - e.startBlk < 2 ^ 32) :
    (e.extend s c).startBlk = e.startBlk ∧ (e.extend s c).stop = max e.stop (s + c) ∧
      (e.extend s c).Fits := by
  obtain ⟨hes, hse⟩ := hs
  unfold extend
  rw [he.stop64_eq, Nat.mod_eq_of_lt hstop]
  by_cases hlong : e.stop < s + c
  · have hsub : (s + c + 2 ^ 64 - e.startBlk) % 2 ^ 64 % 2 ^ 32 = s + c - e.startBlk := by
      rw [show s + c + 2 ^ 64 - e.startBlk = s + c - e.startBlk + 2 ^ 64 by omega,
        Nat.add_mod_right, Nat.mod_eq_of_lt (b := 2 ^ 64) (by omega), Nat.mod_eq_of_lt hcount]
    rw [if_pos hlong, hsub, max_eq_right (by omega)]
    have hnew : stop ⟨e.startBlk, s + c - e.startBlk⟩ = s + c := by
      unfold stop
      dsimp only
      omega
    refine ⟨rfl, hnew, ?_, hcount, ?_⟩
    · change 0 < s + c - e.startBlk
      omega
    · rw [hnew]
      exact hstop
  · rw [if_neg hlong, max_eq_left (by omega)]
    exact ⟨rfl, rfl, he⟩

end SystemZone

def InRange (startBlk count x : ℕ) : Prop := startBlk ≤ x ∧ x < startBlk + count

variable {sbi : ZoneInfo} {s c : ℕ} {zs : List ZoneCall}

/-- A zone that is not hidden is added, and no other block is covered. -/
theorem addSystemZone_spec (h : Separated (inorder sbi.systemBlks)) (rb : Balance SystemZone)
    (hc : 0 < c) (hc32 : c < 2 ^ 32) (hstop : s + c < 2 ^ 64)
    (hreach : ∀ x, s < x → x < s + c → Covered (inorder sbi.systemBlks) x →
      Covered (inorder sbi.systemBlks) (x - 1))
    (hrun : NoRun (2 ^ 32) fun x => Covered (inorder sbi.systemBlks) x ∨ InRange s c x) :
    ∃ t, addSystemZone sbi rb true s c = some { sbi with systemBlks := t } ∧
      Separated (inorder t) ∧
      ∀ x, Covered (inorder t) x ↔ Covered (inorder sbi.systemBlks) x ∨ InRange s c x := by
  have hside := side_eq_overlap (show s < 2 ^ 64 by omega)
  have hone : s + 1 < 2 ^ 64 := by omega
  have hord : OrderedBy (side s) (inorder sbi.systemBlks) := by
    rw [hside]
    exact h.orderedBy_overlap one_pos hone
  have heq := locate_eq (side s) sbi.systemBlks
  have hafter : ∀ f ∈ inorder sbi.systemBlks, s < f.startBlk → s + c ≤ f.startBlk :=
    fun f hf hlt => h.reach hreach hf hlt
  unfold addSystemZone
  dsimp only
  cases hfound : (locate (side s) sbi.systemBlks).found with
  | none =>
    obtain ⟨hgt, hlt⟩ := locate_none hord hfound
    rw [hfound, Option.toList_none, nil_append] at heq
    generalize locate (side s) sbi.systemBlks = p at *
    rw [heq] at h hrun hafter ⊢
    have hl : Separated p.before := h.sublist (sublist_append_left _ _)
    have hm : Separated p.after := h.sublist (sublist_append_right _ _)
    have hcov : ∀ x, Covered (p.before ++ ⟨s, c⟩ :: p.after) x ↔
        Covered (p.before ++ p.after) x ∨ InRange s c x := by
      intro x
      rw [covered_append, covered_cons, covered_append]
      change _ ∨ InRange s c x ∨ _ ↔ _
      tauto
    have hnew : SystemZone.Fits ⟨s, c⟩ := ⟨hc, hc32, hstop⟩
    obtain ⟨hsep, hcov'⟩ := mergeBoth_spec (e := ⟨s, c⟩) hl hm hnew
      (fun f hf => (overlap_spec (hl.fits f hf) one_pos hone).2.1.mp (hside ▸ hgt f hf))
      (fun f hf => hafter f (mem_append_right _ hf)
        ((overlap_spec (hm.fits f hf) one_pos hone).1.mp (hside ▸ hlt f hf)))
      (hrun.mono fun x => (hcov x).mp)
    refine ⟨_, if_pos rfl, ?_⟩
    rw [rb.inorder_shape]
    exact ⟨hsep, fun x => (hcov' x).trans (hcov x)⟩
  | some e =>
    have heq' := heq
    rw [hfound] at heq'
    have hrepl := inorder_replaceFound (e.extend s c) hfound
    have heqs := found_eq hfound
    rw [hside] at heqs
    generalize locate (side s) sbi.systemBlks = p at *
    change inorder sbi.systemBlks = p.before ++ e :: p.after at heq'
    rw [heq'] at h hrun hafter ⊢
    dsimp only
    have he := h.fits e (by simp)
    have hes : e.Covers s :=
      ((overlap_spec he one_pos hone).2.2.mp heqs).imp_left Nat.le_of_lt_succ
    have hl : Separated p.before := h.sublist (sublist_append_left _ _)
    have hm : Separated p.after :=
      h.sublist ((sublist_cons_self _ _).trans (sublist_append_right _ _))
    obtain ⟨-, hem, hlem⟩ := pairwise_append.mp h.apart
    obtain ⟨hem, -⟩ := pairwise_cons.mp hem
    have hcount : s + c - e.startBlk < 2 ^ 32 := by
      refine hrun.lt (a := e.startBlk) fun x hax hx => ?_
      by_cases hxs : x < s
      · exact .inl ⟨e, by simp, hax, hxs.trans hes.2⟩
      · exact .inr ⟨by omega, by omega⟩
    obtain ⟨hstart, hmax, hfits⟩ := extend_spec he hes hstop hcount
    generalize e.extend s c = new at *
    have hcov : ∀ x, Covered (p.before ++ new :: p.after) x ↔
        Covered (p.before ++ e :: p.after) x ∨ InRange s c x := by
      intro x
      have hone : new.Covers x ↔ e.Covers x ∨ InRange s c x := by
        obtain ⟨h1, h2⟩ := hes
        unfold SystemZone.Covers InRange
        rw [hstart, hmax]
        omega
      rw [covered_append, covered_cons, covered_append, covered_cons, hone]
      tauto
    obtain ⟨hsep, hcov'⟩ := mergeBoth_spec hl hm hfits
      (fun f hf => by
        have hfe : f.stop < e.startBlk := hlem f hf e mem_cons_self
        omega)
      (fun f hf => by
        have hef : e.stop < f.startBlk := hem f hf
        have hsf := hafter f (by simp [hf]) (hes.2.trans hef)
        rw [hmax]
        omega)
      (hrun.mono fun x => (hcov x).mp)
    refine ⟨_, rfl, ?_⟩
    have hnodes : inorder (if mergeBoth p.before new p.after = p.before ++ new :: p.after then
        replaceFound (side s) new sbi.systemBlks else rb.shape (mergeBoth p.before new p.after)) =
          mergeBoth p.before new p.after := by
      split_ifs with hsame
      · rw [hrepl, hsame]
      · exact rb.inorder_shape _
    rw [hnodes]
    exact ⟨hsep, fun x => (hcov' x).trans (hcov x)⟩

theorem dataBlockValid_iff (h : Separated (inorder sbi.systemBlks)) (hs : s < 2 ^ 64) (hc : 0 < c)
    (hc32 : c < 2 ^ 32) : (dataBlockValid sbi s c).1 = true ↔
      sbi.sFirstDataBlock < s ∧ s + c < 2 ^ 64 ∧ s + c ≤ sbi.blocksCount ∧
        ∀ x, InRange s c x → ¬ Covered (inorder sbi.systemBlks) x := by
  unfold dataBlockValid
  by_cases hwrap : s + c < 2 ^ 64
  · rw [Nat.mod_eq_of_lt hwrap]
    have hfound : (locate (overlap s c) sbi.systemBlks).found.isSome = true ↔
        ∃ x, InRange s c x ∧ Covered (inorder sbi.systemBlks) x := by
      rw [found_isSome_iff (h.orderedBy_overlap hc hwrap)]
      constructor
      · rintro ⟨e, he, heq⟩
        have hpos := (h.fits e he).pos
        obtain ⟨h1, h2⟩ := (overlap_spec (h.fits e he) hc hwrap).2.2.mp heq
        refine ⟨max s e.startBlk, ⟨by omega, by omega⟩, e, he, by omega, ?_⟩
        unfold SystemZone.stop at *
        omega
      · rintro ⟨x, ⟨hx1, hx2⟩, e, he, he1, he2⟩
        exact ⟨e, he, (overlap_spec (h.fits e he) hc hwrap).2.2.mpr ⟨by omega, by omega⟩⟩
    split_ifs with hbad hhit
    · simp only [false_iff]
      rintro ⟨h1, -, h3, -⟩
      omega
    · simp only [false_iff]
      rintro ⟨-, -, -, hfree⟩
      obtain ⟨x, hx, hcov⟩ := hfound.mp hhit
      exact hfree x hx hcov
    · simp only [true_iff]
      push Not at hbad
      refine ⟨by omega, hwrap, by omega, fun x hx hcov => hhit (hfound.mpr ⟨x, hx, hcov⟩)⟩
  · have hmod : (s + c) % 2 ^ 64 < s := by omega
    rw [if_pos (.inr (.inl hmod))]
    simp only [Bool.false_eq_true, false_iff]
    rintro ⟨-, hno, -⟩
    exact hwrap hno

/-- A call of `add_system_zone`, and how the tree is balanced in it. -/
structure ZoneCall where
  rb : Balance SystemZone
  startBlk : ℕ
  count : ℕ

def ZoneInfo.add (sbi : ZoneInfo) (z : ZoneCall) : Option ZoneInfo :=
  addSystemZone sbi z.rb true z.startBlk z.count

def ZoneInfo.start (sFirstDataBlock blocksCount sLastErrorBlock : ℕ) : ZoneInfo :=
  { systemBlks := .nil, sFirstDataBlock, blocksCount, sLastErrorBlock }

def Added (zs : List ZoneCall) (x : ℕ) : Prop := ∃ z ∈ zs, InRange z.startBlk z.count x

def ZoneCall.Ok (z : ZoneCall) : Prop :=
  0 < z.count ∧ z.count < 2 ^ 32 ∧ z.startBlk + z.count < 2 ^ 64

/-- No range covers, after its own first block, the first block of a run of blocks that were added
before it. -/
def Reachless (zs : List ZoneCall) : Prop :=
  ∀ i z, zs[i]? = some z → ∀ x, z.startBlk < x → x < z.startBlk + z.count →
    Added (zs.take i) x → Added (zs.take i) (x - 1)

theorem added_concat (zs : List ZoneCall) (z : ZoneCall) (x : ℕ) :
    Added (zs ++ [z]) x ↔ Added zs x ∨ InRange z.startBlk z.count x := by
  simp [Added, or_and_right, exists_or]

theorem Reachless.init {z : ZoneCall} (h : Reachless (zs ++ [z])) : Reachless zs := by
  intro i y hy x hx1 hx2 hadd
  have hi : i < zs.length := (List.getElem?_eq_some_iff.mp hy).1
  have := h i y (by rwa [getElem?_append_left hi]) x hx1 hx2
  rw [take_append_of_le_length hi.le] at this
  exact this hadd

/-- The tree covers exactly the blocks that were added. -/
theorem exec_add_spec (sbi : ZoneInfo) (hnil : sbi.systemBlks = .nil) (hok : ∀ z ∈ zs, z.Ok)
    (hreach : Reachless zs) (hrun : NoRun (2 ^ 32) (Added zs)) :
    ∃ t, exec ZoneInfo.add sbi zs = some { sbi with systemBlks := t } ∧ Separated (inorder t) ∧
      ∀ x, Covered (inorder t) x ↔ Added zs x := by
  induction zs using reverseRecOn with
  | nil =>
    refine ⟨.nil, ?_, ⟨by simp, by simp⟩, by simp [Covered, Added]⟩
    rw [exec_nil, ← hnil]
  | append_singleton zs z ih =>
    obtain ⟨t, hexec, hsep, hcov⟩ := ih (fun y hy => hok y (by simp [hy])) hreach.init
      (hrun.mono fun x hx => (added_concat zs z x).mpr (.inl hx))
    obtain ⟨hc, hc32, hstop⟩ := hok z (by simp)
    have hreach' := hreach zs.length z (by simp)
    rw [take_left] at hreach'
    have hsepT : Separated (inorder { sbi with systemBlks := t }.systemBlks) := hsep
    obtain ⟨t', hadd, hsep', hcov'⟩ := addSystemZone_spec hsepT
      z.rb hc hc32 hstop (by simpa only [hcov] using hreach') (hrun.mono fun x => by
        rw [added_concat, hcov]
        exact id)
    refine ⟨t', exec_append.mpr ⟨_, hexec, ?_⟩, hsep', fun x => ?_⟩
    · change (addSystemZone _ z.rb true z.startBlk z.count).bind _ = _
      rw [hadd]
      rfl
    · rw [hcov', hcov, added_concat]

/-- After any calls in which no range covers the first block of a zone that starts after it, and
with no `2 ^ 32` blocks in a row in the zone, the check is exact. -/
theorem dataBlockValid_after_adds (sFirstDataBlock blocksCount sLastErrorBlock : ℕ)
    (zs : List ZoneCall) (hok : ∀ z ∈ zs, z.Ok) (hreach : Reachless zs)
    (hrun : NoRun (2 ^ 32) (Added zs)) :
    ∃ sbi, exec ZoneInfo.add (.start sFirstDataBlock blocksCount sLastErrorBlock) zs = some sbi ∧
      ∀ s c, s < 2 ^ 64 → 0 < c → c < 2 ^ 32 →
        ((dataBlockValid sbi s c).1 = true ↔
          sFirstDataBlock < s ∧ s + c < 2 ^ 64 ∧ s + c ≤ blocksCount ∧
            ∀ x, InRange s c x → ¬ Added zs x) := by
  obtain ⟨t, hexec, hsep, hcov⟩ := exec_add_spec
    (.start sFirstDataBlock blocksCount sLastErrorBlock) rfl hok hreach hrun
  refine ⟨_, hexec, fun s c hs hc hc32 => ?_⟩
  rw [dataBlockValid_iff hsep hs hc hc32]
  simp only [hcov]
  rfl

def sampleZones : List ZoneCall :=
  [⟨.right, 10, 2⟩, ⟨.right, 12, 3⟩, ⟨.right, 11, 5⟩, ⟨.right, 20, 1⟩]

theorem sampleZones_added (x : ℕ) : Added sampleZones x ↔ 10 ≤ x ∧ x < 16 ∨ x = 20 := by
  simp only [Added, sampleZones, InRange, mem_cons, not_mem_nil, or_false,
    exists_eq_or_imp, exists_eq_left]
  omega

/-- The zone is `[10, 16)` and block `20`. -/
theorem dataBlockValid_after_adds_sample :
    ∃ sbi, exec ZoneInfo.add (.start 0 100 0) sampleZones = some sbi ∧
      (dataBlockValid sbi 16 4).1 = true ∧ (dataBlockValid sbi 16 5).1 = false := by
  have hok : ∀ z ∈ sampleZones, z.Ok := by
    intro z hz
    simp only [sampleZones, mem_cons, not_mem_nil, or_false] at hz
    rcases hz with rfl | rfl | rfl | rfl <;> exact ⟨by decide, by decide, by decide⟩
  have hreach : Reachless sampleZones := by
    intro i z hz x hx1 hx2
    rcases i with _ | _ | _ | _ | i
    · rintro ⟨z, hz, -⟩
      cases hz
    all_goals cases hz
    all_goals
      simp [Added, sampleZones, InRange] at hx1 hx2 ⊢
      omega
  have hrun : NoRun (2 ^ 32) (Added sampleZones) := by
    intro a
    refine ⟨a + 100, by omega, by omega, ?_⟩
    rw [sampleZones_added]
    omega
  obtain ⟨sbi, hexec, hvalid⟩ := dataBlockValid_after_adds 0 100 0 sampleZones hok hreach hrun
  refine ⟨sbi, hexec, ?_, ?_⟩
  · rw [hvalid 16 4 (by decide) (by decide) (by decide)]
    refine ⟨by decide, by decide, by decide, fun x hx => ?_⟩
    rw [sampleZones_added]
    unfold InRange at hx
    omega
  · rw [← Bool.not_eq_true, hvalid 16 5 (by decide) (by decide) (by decide)]
    rintro ⟨-, -, -, hfree⟩
    exact hfree 20 ⟨by decide, by decide⟩ ((sampleZones_added 20).mpr (.inr rfl))

def hiddenZones : List ZoneCall :=
  [⟨.right, 10, 1⟩, ⟨.right, 20, 1⟩,
    ⟨.of (.node ⟨10, 1⟩ (.node ⟨5, 95⟩ .nil .nil) (.node ⟨20, 1⟩ .nil .nil)), 5, 95⟩]

/-- Block `50` was added to the zone and passes the check. -/
theorem dataBlockValid_hidden :
    ∃ sbi, exec ZoneInfo.add (.start 0 100 0) hiddenZones = some sbi ∧
      (dataBlockValid sbi 50 1).1 = true ∧ Added hiddenZones 50 := by
  refine ⟨_, rfl, by decide, ?_⟩
  exact ⟨_, mem_cons_of_mem _ (mem_cons_of_mem _ mem_cons_self), by decide, by decide⟩

end VMsep.Ext4
