import Mathlib.Tactic.NormNum.Prime

/-! `ext4_bg_has_super` tests a group number, and `ext4_list_backups` goes through the groups with a
backup of the superblock in order, for the functions that write or check the backups. -/

namespace VMsep.Ext4

/-- `test_root` for a base greater than 1. -/
def testRoot (b : ℕ) (hb : 1 < b) (a : ℕ) : Bool :=
  if a < b then false
  else if a = b then true
  else if a % b ≠ 0 then false
  else testRoot b hb (a / b)
termination_by a
decreasing_by exact Nat.div_lt_self (by omega) hb

structure SuperBlock where
  sparseSuper : Bool
  sparseSuper2 : Bool
  backupBgs : ℕ × ℕ
  blocksPerGroup : ℕ
  addrPerBlock : ℕ

/-- The variables that `ext4_list_backups` is called with. -/
structure Roots where
  three : ℕ
  five : ℕ
  seven : ℕ

namespace SuperBlock

variable (sb : SuperBlock)

def bgHasSuper (group : ℕ) : Bool :=
  if group = 0 then true
  else if sb.sparseSuper2 then group = sb.backupBgs.1 || group = sb.backupBgs.2
  else if group ≤ 1 ∨ sb.sparseSuper = false then true
  else if group % 2 = 0 then false
  else testRoot 3 (by decide) group || testRoot 5 (by decide) group || testRoot 7 (by decide) group

def listBackups (r : Roots) : ℕ × Roots :=
  if sb.sparseSuper = false then (r.three, { r with three := (r.three + 1) % 2 ^ 32 })
  else if r.seven < min r.five r.three then (r.seven, { r with seven := r.seven * 7 % 2 ^ 32 })
  else if r.five < r.three then (r.five, { r with five := r.five * 5 % 2 ^ 32 })
  else (r.three, { r with three := r.three * 3 % 2 ^ 32 })

/-- The values below `stop` that a loop over `ext4_list_backups` sees. -/
def backups (stop : ℕ) : ℕ → Roots → Option (List ℕ)
  | 0, _ => none
  | fuel + 1, r =>
    let (group, r') := sb.listBackups r
    if group < stop then (backups stop fuel r').map (group :: ·) else some []

/-- The blocks that `update_backups` writes without `meta_bg`. -/
def updateBackups (groupsCount blkOff fuel : ℕ) : Option (List ℕ) :=
  (sb.backups groupsCount fuel ⟨1, 5, 7⟩).map (List.map fun group =>
    group * sb.blocksPerGroup + blkOff)

/-- The loop of `verify_reserved_gdb` on the entries of the primary block `blk`. -/
def verifyLoop (stop blk : ℕ) (entries : ℕ → ℕ) : ℕ → Roots → ℕ → Option ℤ
  | 0, _, _ => none
  | fuel + 1, r, gdbackups =>
    let (grp, r') := sb.listBackups r
    if grp < stop then
      if entries gdbackups ≠ grp * sb.blocksPerGroup + blk then some (-22)
      else if gdbackups + 1 > sb.addrPerBlock then some (-27)
      else verifyLoop stop blk entries fuel r' (gdbackups + 1)
    else some gdbackups

def verifyReservedGdb (stop blk : ℕ) (entries : ℕ → ℕ) (fuel : ℕ) : Option ℤ :=
  sb.verifyLoop stop blk entries fuel ⟨1, 5, 7⟩ 0

end SuperBlock

/-- `x` is a power of `b` with an exponent of at least `e`. -/
def IsPower (b e x : ℕ) : Prop := ∃ k, e ≤ k ∧ x = b ^ k

theorem testRoot_iff {b : ℕ} (hb : 1 < b) (a : ℕ) : testRoot b hb a = true ↔ IsPower b 1 a := by
  fun_induction testRoot b hb a with
  | case1 a hlt =>
    refine iff_of_false (by simp) ?_
    rintro ⟨k, hk, rfl⟩
    exact absurd (Nat.le_self_pow (by omega) b) (not_le.mpr hlt)
  | case2 => exact iff_of_true rfl ⟨1, le_rfl, (pow_one b).symm⟩
  | case3 a _ _ hmod =>
    refine iff_of_false (by simp) ?_
    rintro ⟨k, hk, rfl⟩
    exact hmod (Nat.mod_eq_zero_of_dvd (dvd_pow_self b (by omega)))
  | case4 a hlt hne hmod ih =>
    have hdvd : b ∣ a := Nat.dvd_of_mod_eq_zero (not_not.mp hmod)
    rw [ih]
    constructor
    · rintro ⟨k, hk, heq⟩
      exact ⟨k + 1, by omega, by rw [pow_succ, ← heq, Nat.div_mul_cancel hdvd]⟩
    · rintro ⟨k, hk, rfl⟩
      obtain ⟨k, rfl⟩ := Nat.exists_eq_add_of_le' hk
      have hpos : k ≠ 0 := by
        rintro rfl
        exact hne (pow_one b)
      exact ⟨k, by omega, by rw [pow_succ, Nat.mul_div_cancel _ (by omega)]⟩

variable {sb : SuperBlock} {r : Roots} {b e x y n m stop fuel : ℕ}

theorem IsPower.odd (hb : b % 2 = 1) (h : IsPower b e x) : x % 2 = 1 := by
  obtain ⟨k, -, rfl⟩ := h
  rw [Nat.pow_mod, hb, one_pow]
  rfl

/-- Powers of different primes are different. -/
theorem IsPower.ne {p q : ℕ} (hp : p.Prime) (hq : q.Prime) (hne : q ≠ p) (hx : IsPower p e x)
    (hy : IsPower q 1 y) : x ≠ y := by
  obtain ⟨i, -, rfl⟩ := hx
  obtain ⟨j, hj, rfl⟩ := hy
  intro heq
  have hdvd : q ∣ p ^ i := heq ▸ dvd_pow_self q (by omega)
  exact hne ((Nat.prime_dvd_prime_iff_eq hq hp).mp (hq.dvd_of_dvd_pow hdvd))

def FirstPower (b e x n : ℕ) : Prop :=
  IsPower b e n ∧ x ≤ n ∧ ∀ y, IsPower b e y → x ≤ y → n ≤ y

theorem firstPower_self (hb : 1 ≤ b) : FirstPower b 1 1 b := by
  refine ⟨⟨1, le_rfl, (pow_one b).symm⟩, hb, ?_⟩
  rintro y ⟨k, hk, rfl⟩ -
  exact Nat.le_self_pow (by omega) b

theorem FirstPower.pass (h : FirstPower b e x n) (hx : x ≤ y) (hy : y < n) :
    FirstPower b e (y + 1) n :=
  ⟨h.1, hy, fun z hz hyz => h.2.2 z hz (by omega)⟩

/-- The next power does not wrap around before `2 ^ 30`. -/
theorem FirstPower.next (h : FirstPower b e x n) (hb : 1 < b) (hlt : n < 2 ^ 30)
    (hm : 2 ^ 30 ≤ b ^ m) (hm' : b ^ m < 2 ^ 32) : FirstPower b e (n + 1) (n * b % 2 ^ 32) := by
  obtain ⟨⟨k, hk, rfl⟩, -⟩ := h
  have hkm : k + 1 ≤ m := (Nat.pow_lt_pow_iff_right hb).mp (hlt.trans_le hm)
  have hpow : b ^ (k + 1) < 2 ^ 32 := (Nat.pow_le_pow_right (by omega) hkm).trans_lt hm'
  rw [← pow_succ, Nat.mod_eq_of_lt hpow]
  refine ⟨⟨k + 1, by omega, rfl⟩, Nat.pow_lt_pow_right hb (Nat.lt_succ_self k), ?_⟩
  rintro y ⟨j, -, rfl⟩ hj
  exact Nat.pow_le_pow_right (by omega) ((Nat.pow_lt_pow_iff_right hb).mp hj)

/-- The groups that `ext4_list_backups` goes through. -/
def SuperBlock.Listed (sb : SuperBlock) (x : ℕ) : Prop :=
  sb.sparseSuper = true → IsPower 3 0 x ∨ IsPower 5 1 x ∨ IsPower 7 1 x

theorem isPower_three_iff : IsPower 3 0 x ↔ x = 1 ∨ IsPower 3 1 x := by
  constructor
  · rintro ⟨k, -, rfl⟩
    cases k with
    | zero => exact .inl rfl
    | succ k => exact .inr ⟨k + 1, by omega, rfl⟩
  · rintro (rfl | ⟨k, -, rfl⟩)
    · exact ⟨0, le_rfl, rfl⟩
    · exact ⟨k, Nat.zero_le k, rfl⟩

theorem bgHasSuper_listed (h2 : sb.sparseSuper2 = false) (hx : 1 ≤ x) :
    sb.bgHasSuper x = true ↔ sb.Listed x := by
  have hodd : IsPower 3 1 x ∨ IsPower 5 1 x ∨ IsPower 7 1 x → x % 2 = 1 := by
    rintro (h | h | h) <;> exact h.odd rfl
  rw [SuperBlock.Listed, isPower_three_iff, SuperBlock.bgHasSuper, if_neg (by omega), h2,
    if_neg (by simp)]
  cases hs : sb.sparseSuper with
  | false => simp
  | true =>
    by_cases h1 : x ≤ 1
    · exact iff_of_true (if_pos (.inl h1)) fun _ => .inl (.inl (by omega))
    rw [if_neg (by simpa using h1), or_iff_right (show x ≠ 1 by omega), imp_iff_right rfl]
    split
    next heven =>
      refine iff_of_false (by simp) fun h => ?_
      have := hodd h
      omega
    next => simp only [Bool.or_eq_true, testRoot_iff, or_assoc]

/-- The next values of the sequences are the first ones from `x` on. -/
def SuperBlock.At (sb : SuperBlock) (r : Roots) (x : ℕ) : Prop :=
  if sb.sparseSuper then
    FirstPower 3 0 x r.three ∧ FirstPower 5 1 x r.five ∧ FirstPower 7 1 x r.seven
  else r.three = x

/-- A call returns the first listed group from `x` on. -/
theorem listBackups_at (h : sb.At r x) :
    x ≤ (sb.listBackups r).1 ∧ sb.Listed (sb.listBackups r).1 ∧
      (∀ y, x ≤ y → y < (sb.listBackups r).1 → ¬ sb.Listed y) ∧
      ((sb.listBackups r).1 < 2 ^ 30 → sb.At (sb.listBackups r).2 ((sb.listBackups r).1 + 1)) := by
  cases hs : sb.sparseSuper with
  | false =>
    simp only [SuperBlock.At, hs, Bool.false_eq_true, if_false] at h ⊢
    subst h
    simp only [SuperBlock.listBackups, hs, if_true]
    refine ⟨le_rfl, ?_, fun y h1 h2 => absurd h1 (not_le.mpr h2), fun hlt => ?_⟩
    · simp [SuperBlock.Listed, hs]
    · exact Nat.mod_eq_of_lt (by omega)
  | true =>
    simp only [SuperBlock.At, hs, if_true] at h ⊢
    obtain ⟨h3, h5, h7⟩ := h
    have h35 := h3.1.ne Nat.prime_three Nat.prime_five (by decide) h5.1
    have h37 := h3.1.ne Nat.prime_three (by norm_num) (by decide) h7.1
    have h57 := h5.1.ne Nat.prime_five (by norm_num) (by decide) h7.1
    have hfirst : ∀ g, g ≤ r.three → g ≤ r.five → g ≤ r.seven →
        ∀ y, x ≤ y → y < g → ¬ sb.Listed y := by
      intro g hg3 hg5 hg7 y hxy hyg hy
      rcases hy hs with hy | hy | hy
      · exact absurd (h3.2.2 y hy hxy) (by omega)
      · exact absurd (h5.2.2 y hy hxy) (by omega)
      · exact absurd (h7.2.2 y hy hxy) (by omega)
    simp only [SuperBlock.listBackups, hs, Bool.true_eq_false, if_false]
    split
    next =>
      refine ⟨h7.2.1, fun _ => .inr (.inr h7.1),
        hfirst _ (by omega) (by omega) le_rfl, fun hlt => ?_⟩
      exact ⟨h3.pass h7.2.1 (by omega), h5.pass h7.2.1 (by omega),
        h7.next (m := 11) (by decide) hlt (by decide) (by decide)⟩
    next =>
    split
    next =>
      refine ⟨h5.2.1, fun _ => .inr (.inl h5.1),
        hfirst _ (by omega) le_rfl (by omega), fun hlt => ?_⟩
      exact ⟨h3.pass h5.2.1 (by omega),
        h5.next (m := 13) (by decide) hlt (by decide) (by decide), h7.pass h5.2.1 (by omega)⟩
    next =>
      refine ⟨h3.2.1, fun _ => .inl h3.1,
        hfirst _ le_rfl (by omega) (by omega), fun hlt => ?_⟩
      exact ⟨h3.next (m := 19) (by decide) hlt (by decide) (by decide),
        h5.pass h3.2.1 (by omega), h7.pass h3.2.1 (by omega)⟩

/-- The loop from `x` on goes through the listed groups in order. -/
theorem backups_spec (hstop : stop ≤ 2 ^ 30) (h : sb.At r x) (hfuel : stop ≤ x + fuel) :
    ∃ l, sb.backups stop (fuel + 1) r = some l ∧ l.Pairwise (· < ·) ∧
      ∀ g, g ∈ l ↔ x ≤ g ∧ g < stop ∧ sb.Listed g := by
  induction fuel generalizing r x with
  | zero =>
    obtain ⟨hle, -⟩ := listBackups_at h
    refine ⟨[], ?_, .nil, fun g => iff_of_false (by simp) (by omega)⟩
    exact if_neg (show ¬ (sb.listBackups r).1 < stop by omega)
  | succ fuel ih =>
    obtain ⟨hle, hsuper, hfirst, hnext⟩ := listBackups_at h
    rw [SuperBlock.backups]
    dsimp only
    split
    next hlt =>
      obtain ⟨l, hl, hsorted, hmem⟩ := ih (hnext (by omega)) (by omega)
      refine ⟨_ :: l, by rw [hl, Option.map_some], .cons ?_ hsorted, fun g => ?_⟩
      · intro g hg
        exact ((hmem g).mp hg).1
      · rw [List.mem_cons, hmem]
        constructor
        · rintro (rfl | ⟨hg, hrest⟩)
          · exact ⟨hle, hlt, hsuper⟩
          · exact ⟨by omega, hrest⟩
        · rintro ⟨hxg, hg, hgs⟩
          by_cases hbefore : g < (sb.listBackups r).1
          · exact absurd hgs (hfirst g hxg hbefore)
          · by_cases heq : g = (sb.listBackups r).1
            · exact .inl heq
            · exact .inr ⟨by omega, hg, hgs⟩
    next hge =>
      refine ⟨[], rfl, .nil, fun g => iff_of_false (by simp) ?_⟩
      rintro ⟨hxg, hg, hgs⟩
      exact hfirst g hxg (by omega) hgs

theorem verifyLoop_spec {blk k : ℕ} {entries : ℕ → ℕ} {l : List ℕ} {n : ℤ}
    (hl : sb.backups stop fuel r = some l)
    (hv : sb.verifyLoop stop blk entries fuel r k = some n) (hn : 0 ≤ n) : n = k + l.length ∧
      ∀ i g, l[i]? = some g → entries (k + i) = g * sb.blocksPerGroup + blk := by
  induction fuel generalizing r k l with
  | zero => cases hl
  | succ fuel ih =>
    rw [SuperBlock.backups] at hl
    rw [SuperBlock.verifyLoop] at hv
    dsimp only at hl hv
    split at hl
    next hlt =>
      obtain ⟨rest, hrest, rfl⟩ := Option.map_eq_some_iff.mp hl
      rw [if_pos hlt] at hv
      split_ifs at hv with hentry hmany
      · cases hv
        omega
      · cases hv
        omega
      · obtain ⟨hlen, hentries⟩ := ih hrest hv
        refine ⟨by rw [hlen, List.length_cons]; omega, fun i g hg => ?_⟩
        cases i with
        | zero =>
          cases hg
          exact not_not.mp hentry
        | succ i => exact Nat.add_right_comm k 1 i ▸ hentries i g hg
    next hge =>
      cases hl
      rw [if_neg hge] at hv
      cases hv
      exact ⟨by simp, by simp⟩

/-- Of the groups from 1 to `stop`, the backup groups of `sparse_super2` are the listed ones. -/
def SuperBlock.BackupsListed (sb : SuperBlock) (stop : ℕ) : Prop :=
  sb.sparseSuper2 = true → ∀ g, 1 ≤ g → g < stop →
    (g = sb.backupBgs.1 ∨ g = sb.backupBgs.2 ↔ sb.Listed g)

theorem backupsListed_iff :
    sb.BackupsListed stop ↔ ∀ g, 1 ≤ g → g < stop → (sb.bgHasSuper g = true ↔ sb.Listed g) := by
  cases h2 : sb.sparseSuper2 with
  | false =>
    refine iff_of_true (fun h => ?_) fun g hg _ => bgHasSuper_listed h2 hg
    rw [h2] at h
    cases h
  | true =>
    unfold SuperBlock.BackupsListed
    rw [imp_iff_right h2]
    refine forall₃_congr fun g hg _ => ?_
    rw [SuperBlock.bgHasSuper, if_neg (by omega), if_pos h2, Bool.or_eq_true, decide_eq_true_iff,
      decide_eq_true_iff]

/-- The loops go through an increasing list of groups, which are the groups with a backup if and
only if the backup groups of `sparse_super2` are the listed ones. -/
theorem listBackups_exact (sb : SuperBlock) (stop : ℕ) (hstop : stop ≤ 2 ^ 30) (fuel : ℕ)
    (hfuel : stop < fuel) :
    ∃ l, sb.backups stop fuel ⟨1, 5, 7⟩ = some l ∧ l.Pairwise (· < ·) ∧
      ((∀ g, g ∈ l ↔ 1 ≤ g ∧ g < stop ∧ sb.bgHasSuper g = true) ↔ sb.BackupsListed stop) ∧
      (∀ blkOff, sb.updateBackups stop blkOff fuel =
        some (l.map fun g => g * sb.blocksPerGroup + blkOff)) ∧
      ∀ blk entries n, sb.verifyReservedGdb stop blk entries fuel = some n → 0 ≤ n →
        n = l.length ∧ ∀ k g, l[k]? = some g → entries k = g * sb.blocksPerGroup + blk := by
  obtain ⟨fuel, rfl⟩ := Nat.exists_eq_succ_of_ne_zero (show fuel ≠ 0 by omega)
  have hat : sb.At ⟨1, 5, 7⟩ 1 := by
    unfold SuperBlock.At
    split
    · refine ⟨⟨⟨0, le_rfl, rfl⟩, le_rfl, fun y _ hy => hy⟩, ?_, ?_⟩
      · exact firstPower_self (by decide)
      · exact firstPower_self (by decide)
    · rfl
  obtain ⟨l, hl, hsorted, hmem⟩ := backups_spec hstop hat (show stop ≤ 1 + fuel by omega)
  refine ⟨l, hl, hsorted, ?_, fun blkOff => by rw [SuperBlock.updateBackups, hl]; rfl, ?_⟩
  · rw [backupsListed_iff]
    constructor
    · intro hexact g hg hlt
      have h := (hexact g).symm.trans (hmem g)
      simpa only [hg, hlt, true_and] using h
    · intro hlisted g
      rw [hmem g]
      refine and_congr_right fun hg => and_congr_right fun hlt => (hlisted g hg hlt).symm
  · intro blk entries n hv hn
    obtain ⟨hlen, hentries⟩ := verifyLoop_spec hl hv hn
    exact ⟨by simpa using hlen, fun k g hg => by simpa using hentries k g hg⟩

def sampleSuper (sparseSuper2 : Bool) : SuperBlock where
  sparseSuper := !sparseSuper2
  sparseSuper2 := sparseSuper2
  backupBgs := (1, 3)
  blocksPerGroup := 8192
  addrPerBlock := 256

theorem listBackups_exact_sampleSuper :
    ∃ l, (sampleSuper false).backups 50 51 ⟨1, 5, 7⟩ = some l ∧
      ∀ g, g ∈ l ↔ 1 ≤ g ∧ g < 50 ∧ (sampleSuper false).bgHasSuper g = true := by
  obtain ⟨l, hl, -, hmem, -⟩ :=
    listBackups_exact (sampleSuper false) 50 (by decide) 51 (by decide)
  exact ⟨l, hl, hmem.mpr nofun⟩

/-- With `sparse_super2` a block of group 2 is overwritten, which has no backup. -/
theorem listBackups_bug :
    (sampleSuper true).backups 4 5 ⟨1, 5, 7⟩ = some [1, 2, 3] ∧
      (sampleSuper true).updateBackups 4 1 5 = some [8193, 16385, 24577] ∧
      (sampleSuper true).bgHasSuper 2 = false := by
  decide

end VMsep.Ext4
