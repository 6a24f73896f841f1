import Mathlib.Algebra.Ring.Int.Defs
import VMsep.Lib.BitScan

/-! `__ext4_new_inode` up to the bit that it sets, with a journal, no other allocation at the time
and no call that fails: a group is chosen, and the inode bitmaps are searched from there on. -/

namespace VMsep.Ext4

open Lib List

structure OrlovStats where
  freeInodes : ℕ
  freeClusters : ℕ
  usedDirs : ℕ

structure InodeTables where
  ngroups : ℕ
  inodesPerGroup : ℕ
  clustersPerGroup : ℕ
  logGroupsPerFlex : ℕ
  firstIno : ℕ
  inodeGoal : ℕ
  desc : ℕ → OrlovStats
  flexGroups : ℕ → OrlovStats
  freeInodes : ℕ
  freeBlocks : ℕ
  dirs : ℕ
  used : ℕ → ℕ → Bool
  corrupt : ℕ → Bool

/-- The directory of the new inode. `hash` is the hash of the name, or a random number. -/
structure ParentDir where
  ino : ℕ
  blockGroup : ℕ
  lastAllocGroup : Option ℕ
  topdir : Bool
  hash : ℕ

namespace InodeTables

variable (v : InodeTables) (dir : ParentDir)

/-- `ext4_flex_bg_size`. -/
def flexSize : ℕ := 2 ^ v.logGroupsPerFlex

/-- `ext4_free_inodes_count`, or 0 where `ext4_get_group_desc` finds no group. -/
def freeInodesCount (g : ℕ) : ℕ := if g < v.ngroups then (v.desc g).freeInodes else 0

/-- The groups from `g` on, round the end. -/
def cycle (n g : ℕ) : List ℕ := (range n).map fun i => (g + i) % n

/-- The label `fallback` of `find_group_orlov`. -/
def orlovFallback : Option ℕ :=
  let search avefreei := (cycle v.ngroups dir.blockGroup).find? fun g =>
    0 < v.freeInodesCount g ∧ avefreei ≤ v.freeInodesCount g
  let avefreei := v.freeInodes / v.ngroups
  (search avefreei).or (if avefreei ≠ 0 then search 0 else none)

/-- The label `found_flex_bg`. -/
def foundFlexBg (grp : ℕ) : Option ℕ :=
  if v.flexSize = 1 then some grp
  else (((range v.flexSize).map fun i => grp * v.flexSize + i).find? fun g =>
    0 < v.freeInodesCount g).or (v.orlovFallback dir)

/-- The loop of `find_group_orlov` for first-level directories. -/
def bestGroup (stats : ℕ → OrlovStats) (avefreei avefreec : ℕ) :
    List ℕ → ℕ → Option ℕ → Option ℕ
  | [], _, ret => ret
  | g :: rest, bestNdir, ret =>
    if (stats g).freeInodes = 0 ∨ bestNdir ≤ (stats g).usedDirs ∨
        (stats g).freeInodes < avefreei ∨ (stats g).freeClusters < avefreec then
      bestGroup stats avefreei avefreec rest bestNdir ret
    else bestGroup stats avefreei avefreec rest (stats g).usedDirs (some g)

def findGroupOrlov (isDir : Bool) : Option ℕ :=
  let ngroups := (v.ngroups + v.flexSize - 1) / v.flexSize
  let stats := if 1 < v.flexSize then v.flexGroups else v.desc
  let avefreei := v.freeInodes / ngroups
  let avefreec := v.freeBlocks / ngroups
  if isDir ∧ dir.topdir then
    match bestGroup stats avefreei avefreec (cycle ngroups (dir.hash % ngroups)) v.inodesPerGroup
      none with
    | none => v.orlovFallback dir
    | some grp => v.foundFlexBg dir grp
  else
    let maxDirs := v.dirs / ngroups + v.inodesPerGroup / 16
    let minInodes := max 1 (avefreei - v.inodesPerGroup * v.flexSize / 4)
    -- an int, which is compared as a number of 64 bits without sign
    let minClusters :=
      (((avefreec - v.clustersPerGroup * v.flexSize / 4 : ℤ).bmod (2 ^ 32)) % 2 ^ 64).toNat
    match (cycle ngroups (dir.lastAllocGroup.getD dir.blockGroup / v.flexSize)).find? fun g =>
      (stats g).usedDirs < maxDirs ∧ minInodes ≤ (stats g).freeInodes ∧
        minClusters ≤ (stats g).freeClusters with
    | none => v.orlovFallback dir
    | some grp => v.foundFlexBg dir grp

/-- The groups of the flex group of `g`. -/
def flexOf (g : ℕ) : List ℕ := (range v.flexSize).map fun i => g / v.flexSize * v.flexSize + i

/-- `if (++group >= ngroups) group = 0`. -/
def nextGroup (g : ℕ) : ℕ := if g + 1 < v.ngroups then g + 1 else 0

/-- The loop with a quadratic hash; `i` is doubled, so `ngroups` rounds are enough. -/
def quadraticHash : ℕ → ℕ → ℕ → Option ℕ
  | 0, _, _ => none
  | n + 1, i, g =>
    if v.ngroups ≤ i then none
    else
      let g := if v.ngroups ≤ g + i then g + i - v.ngroups else g + i
      if 0 < v.freeInodesCount g ∧ 0 < (v.desc g).freeClusters then some g
      else quadraticHash n (2 * i) g

def findGroupOther : Option ℕ :=
  let free g := decide (0 < v.freeInodesCount g)
  if 1 < v.flexSize then
    (((v.flexOf dir.blockGroup).find? free).or
      (dir.lastAllocGroup.bind fun g => (v.flexOf g).find? free)).or (v.findGroupOrlov dir false)
  else if free dir.blockGroup ∧ 0 < (v.desc dir.blockGroup).freeClusters then some dir.blockGroup
  else
    (v.quadraticHash v.ngroups 1 ((dir.blockGroup + dir.ino) % v.ngroups)).or
      ((cycle v.ngroups (v.nextGroup dir.blockGroup)).find? free)

/-- The group and the bit of a goal that is given, or else of `s_inode_goal`. -/
def goalStart (goal : ℕ) : Option (ℕ × ℕ) :=
  let goal := if goal = 0 then v.inodeGoal else goal
  if 0 < goal ∧ goal ≤ v.ngroups * v.inodesPerGroup then
    some ((goal - 1) / v.inodesPerGroup, (goal - 1) % v.inodesPerGroup)
  else none

/-- The loop over the groups; `none` is `-ENOSPC`. -/
def searchGroups : ℕ → ℕ → ℕ → Option (ℕ × ℕ)
  | 0, _, _ => none
  | n + 1, group, ino =>
    if v.freeInodesCount group = 0 ∨ v.corrupt group then searchGroups n (v.nextGroup group) 0
    else
      let bit := findFrom (fun b => v.used group b = false) ino (v.inodesPerGroup - ino)
      if v.inodesPerGroup ≤ bit then searchGroups n (v.nextGroup group) 0
      -- a reserved inode is reported, and the group stays the same
      else if group = 0 ∧ bit + 1 < v.firstIno then searchGroups n group 0
      else some (group, bit)

def newInode (isDir : Bool) (goal : ℕ) : Option (ℕ × ℕ) :=
  match v.goalStart goal with
  | some (group, ino) => v.searchGroups v.ngroups group ino
  | none =>
    (if isDir then v.findGroupOrlov dir true else v.findGroupOther dir).bind fun group =>
      v.searchGroups v.ngroups group 0

def Free (g b : ℕ) : Prop := v.corrupt g = false ∧ b < v.inodesPerGroup ∧ v.used g b = false

/-- A free inode that is not reserved. -/
def FreeInode (g b : ℕ) : Prop := v.Free g b ∧ (g = 0 → v.firstIno ≤ b + 1)

/-- Group 0 has a clear bit of a reserved inode from the bit `ino` on. -/
def ReservedFree (ino : ℕ) : Prop := ∃ b, ino ≤ b ∧ b + 1 < v.firstIno ∧ v.Free 0 b

/-- The group and the bit that the search starts with. -/
def start (isDir : Bool) (goal : ℕ) : Option (ℕ × ℕ) :=
  (v.goalStart goal).or
    ((if isDir then v.findGroupOrlov dir true else v.findGroupOther dir).map fun g => (g, 0))

/-- The search does not come to a bit in front of its start, nor past group 0 if a reserved inode
is free there. -/
def Hidden (start : ℕ × ℕ) (g b : ℕ) : Prop :=
  (g = start.1 ∧ b < start.2) ∨
    (if start.1 = 0 then v.ReservedFree start.2 else g < start.1 ∧ v.ReservedFree 0)

def Agrees : Prop := ∀ g < v.ngroups, v.corrupt g = false →
  (v.desc g).freeInodes = Nat.count (fun b => v.used g b = false) v.inodesPerGroup

variable {v dir} {g b : ℕ}

theorem mem_cycle {n : ℕ} (start : ℕ) : g ∈ cycle n start ↔ g < n := by
  unfold cycle
  rw [mem_map]
  constructor
  · rintro ⟨k, hk, rfl⟩
    exact Nat.mod_lt _ (Nat.lt_of_le_of_lt (Nat.zero_le k) (mem_range.mp hk))
  · intro hg
    refine ⟨(g + n - start % n) % n, mem_range.mpr (Nat.mod_lt _ (by omega)), ?_⟩
    have hlt : start % n < n := Nat.mod_lt _ (by omega)
    rw [Nat.add_mod_mod, ← Nat.mod_add_mod, Nat.add_sub_cancel' (by omega), Nat.add_mod_right,
      Nat.mod_eq_of_lt hg]

theorem lt_of_free (h : 0 < v.freeInodesCount g) : g < v.ngroups := by
  unfold freeInodesCount at h
  split at h
  case isTrue hlt => exact hlt
  case isFalse => omega

theorem Agrees.pos (h : v.Agrees) (hg : g < v.ngroups) (hb : v.Free g b) :
    0 < v.freeInodesCount g := by
  obtain ⟨hc, hlt, hclear⟩ := hb
  rw [freeInodesCount, if_pos hg, h g hg hc]
  exact Nat.lt_of_le_of_lt (Nat.zero_le _) (Nat.count_strict_mono hclear hlt)

variable (v) in
structure Picks (r : Option ℕ) : Prop where
  lt : ∀ g ∈ r, g < v.ngroups
  full : r = none → ∀ g < v.ngroups, v.freeInodesCount g = 0

variable {r r' : Option ℕ}

theorem Picks.or (hr : ∀ g ∈ r, 0 < v.freeInodesCount g) (h : v.Picks r') : v.Picks (r.or r') := by
  cases r with
  | none => exact h
  | some g =>
    refine ⟨?_, by simp⟩
    intro g' hg'
    cases hg'
    exact lt_of_free (hr g rfl)

theorem Picks.find {start : ℕ} {p : ℕ → Bool} (hp : ∀ g, p g = decide (0 < v.freeInodesCount g)) :
    v.Picks ((cycle v.ngroups start).find? p) := by
  constructor
  · intro g hg
    exact (mem_cycle start).mp (mem_of_find?_eq_some hg)
  · intro hnone g hg
    have := find?_eq_none.mp hnone g ((mem_cycle start).mpr hg)
    rw [hp, decide_eq_true_eq] at this
    omega

theorem orlovFallback_picks : v.Picks (v.orlovFallback dir) := by
  unfold orlovFallback
  by_cases have0 : v.freeInodes / v.ngroups = 0
  · simp only [have0, ne_eq, not_true_eq_false, if_false, Option.or_none]
    exact .find (by simp)
  · simp only [ne_eq, have0, not_false_eq_true, if_true]
    refine .or ?_ (.find (by simp))
    intro g hg
    have := find?_some hg
    simp only [decide_eq_true_eq] at this
    exact this.1

theorem foundFlexBg_picks (hg : v.flexSize = 1 → g < v.ngroups) :
    v.Picks (v.foundFlexBg dir g) := by
  unfold foundFlexBg
  split
  case isTrue hone =>
    refine ⟨?_, by simp⟩
    intro g' hg'
    cases hg'
    exact hg hone
  case isFalse =>
    refine .or ?_ orlovFallback_picks
    intro g' hg'
    simpa using find?_some hg'

theorem cycle_lt {start : ℕ} (hg : g ∈ cycle ((v.ngroups + v.flexSize - 1) / v.flexSize) start)
    (hone : v.flexSize = 1) : g < v.ngroups := by
  have := (mem_cycle start).mp hg
  rwa [hone, Nat.add_sub_cancel, Nat.div_one] at this

theorem bestGroup_mem {stats : ℕ → OrlovStats} {avefreei avefreec : ℕ} (l : List ℕ) (n : ℕ) :
    ∀ g ∈ bestGroup stats avefreei avefreec l n r, g ∈ r ∨ g ∈ l := by
  induction l generalizing n r with
  | nil => exact fun g hg => .inl hg
  | cons a l ih =>
    intro g hg
    rw [bestGroup] at hg
    split at hg
    case isTrue => exact (ih n g hg).imp_right (mem_cons_of_mem a)
    case isFalse =>
      rcases ih _ g hg with ha | hl
      · cases ha
        exact .inr mem_cons_self
      · exact .inr (mem_cons_of_mem a hl)

theorem findGroupOrlov_picks (isDir : Bool) : v.Picks (v.findGroupOrlov dir isDir) := by
  unfold findGroupOrlov
  dsimp only
  split
  case isTrue =>
    split
    case h_1 => exact orlovFallback_picks
    case h_2 grp hgrp =>
      rcases bestGroup_mem _ _ grp hgrp with hnone | hmem
      · cases hnone
      · exact foundFlexBg_picks (cycle_lt hmem)
  case isFalse =>
    split
    case h_1 => exact orlovFallback_picks
    case h_2 grp hgrp => exact foundFlexBg_picks (cycle_lt (mem_of_find?_eq_some hgrp))

theorem quadraticHash_free (n i start : ℕ) :
    ∀ g ∈ v.quadraticHash n i start, 0 < v.freeInodesCount g := by
  induction n generalizing i start with
  | zero => simp [quadraticHash]
  | succ n ih =>
    intro g hg
    rw [quadraticHash] at hg
    split at hg
    case isTrue => cases hg
    case isFalse =>
      dsimp only at hg
      generalize (if v.ngroups ≤ start + i then _ else _) = a at hg
      split at hg
      case isTrue hfree =>
        cases hg
        exact hfree.1
      case isFalse => exact ih _ _ g hg

theorem findGroupOther_picks : v.Picks (v.findGroupOther dir) := by
  have hfind : ∀ l : List ℕ, ∀ g ∈ l.find? fun g => decide (0 < v.freeInodesCount g),
      0 < v.freeInodesCount g := fun l g hg => by simpa using find?_some hg
  unfold findGroupOther
  dsimp only
  split
  case isTrue =>
    rw [Option.or_assoc]
    refine .or (hfind _) (.or ?_ (findGroupOrlov_picks false))
    intro g hg
    obtain ⟨g', -, hg⟩ := Option.bind_eq_some_iff.mp hg
    exact hfind _ g hg
  case isFalse =>
    split
    case isTrue hfree =>
      refine ⟨?_, by simp⟩
      intro g hg
      cases hg
      exact lt_of_free (by simpa using hfree.1)
    case isFalse => exact .or (quadraticHash_free _ _ _) (.find fun _ => rfl)

theorem nextGroup_add (hg : g < v.ngroups) (k : ℕ) :
    v.nextGroup g < v.ngroups ∧ (v.nextGroup g + k) % v.ngroups = (g + (k + 1)) % v.ngroups := by
  unfold nextGroup
  split
  case isTrue hlt => exact ⟨hlt, by rw [Nat.add_assoc, Nat.add_comm 1 k]⟩
  case isFalse hlt =>
    have heq : g + (k + 1) = k + v.ngroups := by omega
    exact ⟨by omega, by rw [heq, Nat.add_mod_right, Nat.zero_add]⟩

variable (v) in
/-- `n` rounds from the bit `ino` of group `g` on come to no free inode. -/
def Missed (n g ino : ℕ) : Prop :=
  ∀ k < n, ∀ b, v.FreeInode ((g + k) % v.ngroups) b → (k = 0 ∧ b < ino) ∨
    (g = 0 ∧ v.ReservedFree ino) ∨ ∃ j < k, (g + (j + 1)) % v.ngroups = 0 ∧ v.ReservedFree 0

theorem missed_succ {n ino : ℕ} (hg : g < v.ngroups) (hno : ∀ b, ino ≤ b → ¬ v.Free g b) :
    v.Missed (n + 1) g ino ↔ v.Missed n (v.nextGroup g) 0 := by
  have hadd := fun k => (nextGroup_add hg k).2
  have hnext : v.nextGroup g = (g + 1) % v.ngroups := by
    have h0 := nextGroup_add hg 0
    rw [← h0.2, Nat.add_zero, Nat.mod_eq_of_lt h0.1]
  constructor
  · intro h j hj b hb
    rw [hadd] at hb
    rcases h (j + 1) (by omega) b hb with ⟨hk, -⟩ | ⟨rfl, c, hc, -, hfree⟩ | ⟨i, hi, hzero, hres⟩
    · exact absurd hk (Nat.succ_ne_zero j)
    · exact absurd hfree (hno c hc)
    · cases i with
      | zero => exact .inr (.inl ⟨hnext.trans hzero, hres⟩)
      | succ i => exact .inr (.inr ⟨i, by omega, (hadd (i + 1)).trans hzero, hres⟩)
  · intro h k hk b hb
    cases k with
    | zero =>
      refine .inl ⟨rfl, not_le.mp fun hle => hno b hle ?_⟩
      have hfree := hb.1
      rwa [Nat.add_zero, Nat.mod_eq_of_lt hg] at hfree
    | succ j =>
      rw [← hadd] at hb
      rcases h j (by omega) b hb with ⟨-, hlt⟩ | ⟨hzero, hres⟩ | ⟨i, hi, hzero, hres⟩
      · exact absurd hlt (Nat.not_lt_zero b)
      · exact .inr (.inr ⟨0, by omega, hnext.symm.trans hzero, hres⟩)
      · exact .inr (.inr ⟨i + 1, by omega, (hadd (i + 1)).symm.trans hzero, hres⟩)

theorem searchGroups_reserved {ino : ℕ} (hcount : v.freeInodesCount 0 ≠ 0)
    (hcorrupt : v.corrupt 0 = false) (h : v.ReservedFree ino) (n : ℕ) :
    v.searchGroups n 0 ino = none := by
  induction n generalizing ino with
  | zero => rfl
  | succ n ih =>
    obtain ⟨c, hc, hres, hfree⟩ := h
    obtain ⟨hlow, -, hnot, -⟩ :=
      findFrom_spec (fun b => v.used 0 b = false) ino (v.inodesPerGroup - ino)
    have hfirst := not_lt.mp fun hlt => hnot c hc hlt hfree.2.2
    have hend := hfree.2.1
    rw [searchGroups, if_neg (by simp [hcount, hcorrupt])]
    dsimp only
    rw [if_neg (by omega), if_pos ⟨rfl, by omega⟩]
    exact ih ⟨c, Nat.zero_le c, hres, hfree⟩

theorem searchGroups_none_iff (hagree : v.Agrees) (n : ℕ) {ino : ℕ} (hg : g < v.ngroups) :
    v.searchGroups n g ino = none ↔ v.Missed n g ino := by
  induction n generalizing g ino with
  | zero => exact iff_of_true rfl fun k hk => absurd hk (Nat.not_lt_zero k)
  | succ n ih =>
    have hlater := @ih _ 0 (nextGroup_add hg 0).1
    rw [searchGroups]
    split
    case isTrue hskip =>
      rw [hlater, missed_succ hg]
      intro b _ hfree
      rcases hskip with hzero | hcorrupt
      · exact (hagree.pos hg hfree).ne' hzero
      · exact Bool.false_ne_true (hfree.1.symm.trans hcorrupt)
    case isFalse hgroup =>
      obtain ⟨hcount, hcorrupt⟩ := not_or.mp hgroup
      rw [Bool.not_eq_true] at hcorrupt
      dsimp only
      obtain ⟨hlow, hle, hnot, hclear⟩ :=
        findFrom_spec (fun b => v.used g b = false) ino (v.inodesPerGroup - ino)
      generalize findFrom (fun b => v.used g b = false) ino (v.inodesPerGroup - ino) = bit at *
      split
      case isTrue hend =>
        rw [hlater, missed_succ hg]
        intro b hb hfree
        exact hnot b hb (Nat.lt_of_lt_of_le hfree.2.1 hend) hfree.2.2
      case isFalse hend =>
        have hfree : v.Free g bit := ⟨hcorrupt, by omega, hclear (by omega)⟩
        split
        case isTrue hreserved =>
          obtain ⟨rfl, hlt⟩ := hreserved
          refine iff_of_true (searchGroups_reserved hcount hcorrupt ?_ n) fun k _ b _ => ?_
          · exact ⟨bit, Nat.zero_le bit, hlt, hfree⟩
          · exact .inr (.inl ⟨rfl, bit, hlow, hlt, hfree⟩)
        case isFalse hreserved =>
          refine iff_of_false (by simp) fun h => ?_
          have hinode : v.FreeInode ((g + 0) % v.ngroups) bit := by
            rw [Nat.add_zero, Nat.mod_eq_of_lt hg]
            exact ⟨hfree, fun hg0 => not_lt.mp fun hlt => hreserved ⟨hg0, hlt⟩⟩
          rcases h 0 (Nat.succ_pos n) bit hinode with
            ⟨-, hlt⟩ | ⟨rfl, c, hc, hres, hused⟩ | ⟨j, hj, -⟩
          · omega
          · refine hnot c hc (not_le.mp fun hle => hreserved ⟨rfl, ?_⟩) hused.2.2
            omega
          · exact absurd hj (Nat.not_lt_zero j)

theorem add_mod_cases {n k : ℕ} (hg : g < n) (hk : k < n) :
    (g + k < n ∧ (g + k) % n = g + k) ∨ (n ≤ g + k ∧ (g + k) % n = g + k - n) := by
  by_cases hlt : g + k < n
  · exact .inl ⟨hlt, Nat.mod_eq_of_lt hlt⟩
  · refine .inr ⟨not_lt.mp hlt, ?_⟩
    rw [Nat.mod_eq_sub_mod (not_lt.mp hlt), Nat.mod_eq_of_lt (by omega)]

theorem missed_iff_hidden {ino : ℕ} {start : ℕ} (hstart : start < v.ngroups) :
    v.Missed v.ngroups start ino ↔
      ∀ g < v.ngroups, ∀ b, v.FreeInode g b → v.Hidden (start, ino) g b := by
  constructor
  · intro h g hg b hb
    obtain ⟨k, hk, rfl⟩ := mem_map.mp ((mem_cycle start).mpr hg)
    have hk := mem_range.mp hk
    rcases h k hk b hb with ⟨rfl, hlt⟩ | ⟨hzero, hres⟩ | ⟨j, hj, hzero, hres⟩
    · exact .inl ⟨Nat.mod_eq_of_lt hstart, hlt⟩
    · exact .inr (by simpa [hzero] using hres)
    · have hcase := add_mod_cases hstart hk
      have hcase' := add_mod_cases hstart (show j + 1 < v.ngroups by omega)
      have hpos : start ≠ 0 := by omega
      have hbehind : (start + k) % v.ngroups < start := by omega
      exact .inr (by simpa [hpos] using ⟨hbehind, hres⟩)
  · intro h k hk b hb
    have hcase := add_mod_cases hstart hk
    rcases h _ (Nat.mod_lt _ (by omega)) b hb with ⟨hsame, hlt⟩ | hres
    · exact .inl ⟨by dsimp only at hsame; omega, hlt⟩
    · dsimp only at hres
      split at hres
      case isTrue hzero => exact .inr (.inl ⟨hzero, hres⟩)
      case isFalse hzero =>
        refine .inr (.inr ⟨v.ngroups - start - 1, by omega, ?_, hres.2⟩)
        rw [show start + (v.ngroups - start - 1 + 1) = v.ngroups by omega, Nat.mod_self]

/-- The search starts in a group, or there is no free inode. -/
theorem start_spec (v : InodeTables) (dir : ParentDir) (isDir : Bool) (goal : ℕ) :
    (∀ s ∈ v.start dir isDir goal, s.1 < v.ngroups) ∧
      (v.start dir isDir goal = none → ∀ g < v.ngroups, v.freeInodesCount g = 0) := by
  have hpick : v.Picks (if isDir then v.findGroupOrlov dir true else v.findGroupOther dir) := by
    split
    · exact findGroupOrlov_picks true
    · exact findGroupOther_picks
  rw [start]
  cases hgoal : v.goalStart goal with
  | none =>
    rw [Option.none_or]
    refine ⟨fun s hs => ?_, fun hnone => hpick.full (Option.map_eq_none_iff.mp hnone)⟩
    obtain ⟨g, hg, rfl⟩ := Option.map_eq_some_iff.mp hs
    exact hpick.lt g hg
  | some s =>
    refine ⟨fun s' hs => ?_, by simp⟩
    cases hs
    unfold goalStart at hgoal
    dsimp only at hgoal
    generalize (if goal = 0 then v.inodeGoal else goal) = n at hgoal
    split at hgoal
    case isTrue hin =>
      cases hgoal
      exact Nat.div_lt_of_lt_mul (by rw [Nat.mul_comm]; omega)
    case isFalse => cases hgoal

/-- The search fails just when every free inode is hidden: the bits before the goal in its group,
and the groups that come after a reserved inode which is free. -/
theorem newInode_none (hagree : v.Agrees) (isDir : Bool) (goal : ℕ) :
    v.newInode dir isDir goal = none ↔ ∀ g < v.ngroups, ∀ b, v.FreeInode g b →
      ∃ s ∈ v.start dir isDir goal, v.Hidden s g b := by
  obtain ⟨hlt, hfull⟩ := start_spec v dir isDir goal
  have hsearch : v.newInode dir isDir goal =
      (v.start dir isDir goal).bind fun s => v.searchGroups v.ngroups s.1 s.2 := by
    unfold newInode start
    cases v.goalStart goal with
    | some s => rfl
    | none => rw [Option.none_or, Option.bind_map]; rfl
  rw [hsearch]
  cases hs : v.start dir isDir goal with
  | none =>
    refine iff_of_true rfl fun g hg b hb => ?_
    exact absurd (hfull hs g hg) (hagree.pos hg hb.1).ne'
  | some s =>
    rw [Option.bind_some, searchGroups_none_iff hagree v.ngroups (hlt s hs),
      missed_iff_hidden (hlt s hs)]
    simp

/-- Groups of 16 inodes with 10 reserved ones; `free` is the free inode of the last group. -/
def sampleTables (ngroups free : ℕ) (corrupt : ℕ → Bool) : InodeTables where
  ngroups := ngroups
  inodesPerGroup := 16
  clustersPerGroup := 8192
  logGroupsPerFlex := 0
  firstIno := 11
  inodeGoal := 0
  desc g := ⟨if g + 1 = ngroups then 1 else 0, 100, 1⟩
  flexGroups _ := ⟨0, 0, 0⟩
  freeInodes := 1
  freeBlocks := 100 * ngroups
  dirs := ngroups
  used g b := !(g + 1 = ngroups ∧ b = free)
  corrupt := corrupt

def sampleDir : ParentDir := ⟨2, 0, none, true, 0⟩

/-- The inode before the goal is in another group, so that it is not hidden. -/
theorem newInode_none_sampleTables :
    (sampleTables 2 5 fun _ => false).newInode sampleDir false 16 ≠ none := by
  rw [Ne, newInode_none (by unfold Agrees; decide) false 16]
  intro h
  obtain ⟨s, hs, hhidden⟩ := h 1 (by decide) 5 (by unfold FreeInode Free; decide)
  cases hs
  rcases hhidden with ⟨hg, -⟩ | hres
  · exact absurd hg (by decide)
  · obtain ⟨b, -, -, -, -, hclear⟩ := hres
    exact Bool.noConfusion (show true = false from hclear)

/-- The goal is behind the only free inode, which is in the same group. -/
theorem newInode_bug :
    (sampleTables 1 11 fun _ => false).Agrees ∧
      (sampleTables 1 11 fun _ => false).FreeInode 0 11 ∧
      (sampleTables 1 11 fun _ => false).newInode sampleDir false 16 = none := by
  refine ⟨by unfold Agrees; decide, by unfold FreeInode Free; decide, by decide⟩

end InodeTables

end VMsep.Ext4
