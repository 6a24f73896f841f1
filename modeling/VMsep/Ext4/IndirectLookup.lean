import VMsep.Ext4.Migrate

/-! `ext4_ind_map_blocks` without `EXT4_GET_BLOCKS_CREATE`. The length of a hole is the size of the
missing subtree, whatever the place of the block in it. -/

namespace VMsep.Ext4

open VMsep.Lib.Branches VMsep.Lib.Branches.Pointers List

/-- `boundary` of `ext4_block_to_path`. -/
def blocksToBoundary (ptrsBits iBlock : ℕ) : ℕ :=
  let ptrs := 2 ^ ptrsBits
  let doubleBlocks := 2 ^ (ptrsBits * 2)
  if iBlock < ndirBlocks then ndirBlocks - 1 - iBlock % ptrs
  else
    let i := iBlock - ndirBlocks
    if i < ptrs then ptrs - 1 - i % ptrs
    else
      let i := i - ptrs
      if i < doubleBlocks then ptrs - 1 - i % ptrs
      else ptrs - 1 - (i - doubleBlocks) % ptrs

/-- What `ext4_get_branch` returns: the last key of a whole chain, or the number of levels below
the last triple that was filled, with the error. -/
inductive Branch where
  | whole (key : ℕ)
  | broken (below : ℕ) (err : ℤ)
  deriving DecidableEq

/-- `ext4_get_branch` from a key on; `readErr` is the error of reading a block, or 0. -/
def getBranch (s : Pointers) (readErr : ℕ → ℤ) : (key : ℕ) → (offsets : List ℕ) → Branch
  | key, [] => if key = 0 then .broken 0 0 else .whole key
  | key, o :: offsets =>
    if key = 0 then .broken (offsets.length + 1) 0
    else if readErr key ≠ 0 then .broken (offsets.length + 1) (readErr key)
    else getBranch s readErr (s.slot key o) offsets

/-- The loop that maps more blocks; `blk` are the pointers of the last array. -/
def mapMore (blk : ℕ → ℕ) (firstBlock mLen boundary : ℕ) : (rounds count : ℕ) → ℕ
  | 0, count => count
  | rounds + 1, count =>
    if count < mLen ∧ count ≤ boundary ∧ blk count = firstBlock + count then
      mapMore blk firstBlock mLen boundary rounds (count + 1)
    else count

/-- The path of the pointer `count` places further in its array. -/
def along (path : List ℕ) (count : ℕ) : List ℕ := path.dropLast ++ [path.getLastD 0 + count]

/-- The return value and the results in `map`. -/
structure MapResult where
  ret : ℤ
  mPblk : ℕ
  mLen : ℕ
  deriving DecidableEq

/-- `ext4_ind_map_blocks` without the create flag; `-5` is `-EIO`. The 32 bits of `count` hold
the size of the subtree. -/
def indMapBlocks (bits : ℕ) (readErr : ℕ → ℤ) (s : Pointers) (mLblk mLen : ℕ) : MapResult :=
  match blockToPath (bits - 2) mLblk with
  | [] => ⟨-5, 0, mLen⟩
  | o :: offsets =>
    match getBranch s readErr (s.root o) offsets with
    | .whole key =>
      let count := mapMore (fun k => s.ptr (along (o :: offsets) k)) key mLen
        (blocksToBoundary (bits - 2) mLblk) mLen 1
      ⟨count, key, count⟩
    | .broken below err =>
      let epb := 2 ^ bits / 4
      ⟨err, 0, min mLen (epb ^ below % 2 ^ 32)⟩

def MapResult.Exact (lookup : ℕ → ℕ) (l : ℕ) (r : MapResult) : Prop :=
  (0 < r.ret ∧ r.ret = r.mLen ∧ r.mPblk ≠ 0 ∧ ∀ i < r.mLen, lookup (l + i) = r.mPblk + i) ∨
    (r.ret = 0 ∧ 1 ≤ r.mLen ∧ ∀ i < r.mLen, lookup (l + i) = 0)

/-- The number of a block within its level of the tree; the direct blocks are levels of their
own. -/
def levelOffset (ptrsBits iBlock : ℕ) : ℕ :=
  let ptrs := 2 ^ ptrsBits
  if iBlock < ndirBlocks + ptrs then iBlock - ndirBlocks
  else if iBlock < ndirBlocks + ptrs + ptrs * ptrs then iBlock - ndirBlocks - ptrs
  else iBlock - ndirBlocks - ptrs - ptrs * ptrs

/-- If a subtree is missing, it has fewer than `2 ^ 32` blocks, and of the blocks behind its end
the request has no mapped one within the size of the subtree. -/
def HoleFits (bits : ℕ) (s : Pointers) (l len : ℕ) : Prop :=
  ∀ o offsets, blockToPath (bits - 2) l = o :: offsets →
    ∀ below err, getBranch s (fun _ => 0) (s.root o) offsets = .broken below err →
      let size := (2 ^ (bits - 2)) ^ below
      size < 2 ^ 32 ∧ ∀ i < len, i < size → size ≤ levelOffset (bits - 2) l % size + i →
        indLookup bits s (l + i) = 0

def levelStart (n : ℕ) : ℕ → ℕ
  | 2 => 12 + n
  | 3 => 12 + n + n * n
  | _ => 12

variable {bits d x l : ℕ}

theorem level_spec (hd : d = 1 ∨ d = 2 ∨ d = 3) (hx : x < (2 ^ bits) ^ d) :
    blockToPath bits (levelStart (2 ^ bits) d + x) = (11 + d) :: digits (2 ^ bits) d x ∧
      blocksToBoundary bits (levelStart (2 ^ bits) d + x) = 2 ^ bits - 1 - x % 2 ^ bits ∧
      levelOffset bits (levelStart (2 ^ bits) d + x) = x := by
  have hsq : 2 ^ (bits * 2) = 2 ^ bits * 2 ^ bits := by rw [Nat.pow_mul, Nat.pow_two]
  simp only [blockToPath, blocksToBoundary, levelOffset, ndirBlocks, hsq]
  have hpos : 0 < 2 ^ bits := Nat.two_pow_pos bits
  generalize 2 ^ bits = n at hx hpos ⊢
  rcases hd with rfl | rfl | rfl
  · have h0 : ¬ 12 + x < 12 := by omega
    have hx : x < n := by rwa [Nat.pow_one] at hx
    simp [levelStart, digits_one, h0, hx]
  · have h0 : ¬ 12 + n + x < 12 := by omega
    have h1 : 12 + n + x - 12 - n = x := by omega
    have h2 : ¬ 12 + n + x - 12 < n := by omega
    have hx : x < n * n := by rwa [Nat.pow_two] at hx
    simp [levelStart, digits_two, h0, h1, h2, hx]
  · have h0 : ¬ 12 + n + n * n + x < 12 := by omega
    have h1 : ¬ 12 + n + n * n + x - 12 < n := by omega
    have h2 : ¬ 12 + n + n * n + x - 12 - n < n * n := by omega
    have h3 : 12 + n + n * n + x - 12 - n - n * n = x := by omega
    have h4 : ¬ 12 + n + n * n + x < 12 + n := by omega
    have hx : x / (n * n) < n := Nat.div_lt_of_lt_mul (by rwa [← Nat.pow_two, ← Nat.pow_succ])
    simp [levelStart, digits_three, h0, h1, h2, h3, h4, hx, Nat.div_div_eq_div_mul]

theorem level_cases (hl : blockToPath bits l ≠ []) :
    l < 12 ∨ ∃ d x, (d = 1 ∨ d = 2 ∨ d = 3) ∧ x < (2 ^ bits) ^ d ∧
      l = levelStart (2 ^ bits) d + x := by
  obtain ⟨h1, -⟩ | ⟨x, rfl, hx, -⟩ | ⟨x, rfl, hx, -⟩ | ⟨x, rfl, hx, -⟩ | ⟨-, hnil⟩ :=
    blockToPath_cases bits l
  · exact .inl h1
  · exact .inr ⟨1, x, by decide, by rwa [Nat.pow_one], rfl⟩
  · exact .inr ⟨2, x, by decide, by rwa [Nat.pow_two], rfl⟩
  · refine .inr ⟨3, x, by decide, ?_, rfl⟩
    have hpos : 0 < 2 ^ bits * 2 ^ bits := Nat.mul_pos (Nat.two_pow_pos bits) (Nat.two_pow_pos bits)
    rw [Nat.div_div_eq_div_mul, Nat.div_lt_iff_lt_mul hpos] at hx
    rwa [Nat.pow_succ, Nat.pow_two, Nat.mul_comm]
  · exact absurd hnil hl

section

variable {s : Pointers} {v : ℕ} {π : List ℕ}

theorem getBranch_whole {readErr : ℕ → ℤ} {key : ℕ} (h : getBranch s readErr v π = .whole key) :
    key ≠ 0 ∧ s.follow v π = key := by
  induction π generalizing v with
  | nil =>
    rw [getBranch] at h
    split_ifs at h with hv
    cases h
    exact ⟨hv, rfl⟩
  | cons _ _ ih =>
    rw [getBranch] at h
    split_ifs at h with hv
    rw [Pointers.follow, if_neg hv]
    exact ih h

theorem getBranch_broken {below : ℕ} {err : ℤ}
    (h : getBranch s (fun _ => 0) v π = .broken below err) :
    err = 0 ∧ ∃ χ τ, π = χ ++ τ ∧ τ.length = below ∧ s.follow v χ = 0 := by
  induction π generalizing v with
  | nil =>
    rw [getBranch] at h
    split_ifs at h with hv
    cases h
    exact ⟨rfl, [], [], rfl, rfl, hv⟩
  | cons i π ih =>
    rw [getBranch] at h
    by_cases hv : v = 0
    · rw [if_pos hv] at h
      cases h
      exact ⟨rfl, [], i :: π, rfl, rfl, hv⟩
    · rw [if_neg hv, if_neg (not_not.mpr rfl)] at h
      obtain ⟨herr, χ, τ, rfl, hlen, hzero⟩ := ih h
      refine ⟨herr, i :: χ, τ, rfl, hlen, ?_⟩
      rw [Pointers.follow, if_neg hv]
      exact hzero

end

theorem mapMore_spec (blk : ℕ → ℕ) (first mLen boundary rounds : ℕ) {count : ℕ}
    (hcount : 0 < count) (hold : ∀ i, 0 < i → i < count → i ≤ boundary ∧ blk i = first + i) :
    0 < mapMore blk first mLen boundary rounds count ∧
      ∀ i, 0 < i → i < mapMore blk first mLen boundary rounds count →
        i ≤ boundary ∧ blk i = first + i := by
  induction rounds generalizing count with
  | zero => exact ⟨hcount, hold⟩
  | succ _ ih =>
    rw [mapMore]
    split
    case isTrue h =>
      refine ih (Nat.succ_pos count) fun i hpos hi => ?_
      by_cases heq : i = count
      · rw [heq]
        exact h.2
      · exact hold i hpos (by omega)
    case isFalse => exact ⟨hcount, hold⟩

theorem along_concat (π : List ℕ) (o i : ℕ) : along (π ++ [o]) i = π ++ [o + i] := by
  simp [along]

theorem blockToPath_along (hbits : 4 ≤ bits) (hl : blockToPath bits l ≠ []) {i : ℕ}
    (hi : i ≤ blocksToBoundary bits l) :
    blockToPath bits (l + i) = along (blockToPath bits l) i := by
  have hn : 2 ^ 4 ≤ 2 ^ bits := Nat.pow_le_pow_right (by decide) hbits
  obtain h12 | ⟨d, x, hd, hx, rfl⟩ := level_cases hl
  · have hsmall : l % 2 ^ bits = l := Nat.mod_eq_of_lt (by omega)
    have hpath : ∀ k, k < 12 → blockToPath bits k = [k] := fun k hk => if_pos hk
    have hb : blocksToBoundary bits l = 11 - l := by
      rw [blocksToBoundary, if_pos (show l < ndirBlocks from h12), hsmall]
      rfl
    rw [hpath l h12, hpath (l + i) (by omega)]
    rfl
  · obtain ⟨hpath, hb, -⟩ := level_spec hd hx
    have hmod : x % 2 ^ bits < 2 ^ bits := Nat.mod_lt x (by omega)
    rw [hb] at hi
    obtain ⟨a, rfl⟩ : ∃ a, d = a + 1 := ⟨d - 1, by omega⟩
    obtain ⟨hlt, hadd⟩ := digits_add (i := i) hx (by rw [Nat.pow_one]; omega)
    have hsplit := digits_split hx
    rw [Nat.pow_one] at hadd hsplit
    rw [hpath, Nat.add_assoc, (level_spec hd hlt).1, hadd, hsplit, digits_one, digits_one,
      ← cons_append, ← cons_append, along_concat]

theorem lookup_of_broken {s : Pointers} {o i : ℕ} {χ τ : List ℕ}
    (hpath : blockToPath (bits - 2) l = o :: (χ ++ τ)) (hzero : s.follow (s.root o) χ = 0)
    (hi : levelOffset (bits - 2) l % (2 ^ (bits - 2)) ^ τ.length + i <
      (2 ^ (bits - 2)) ^ τ.length) :
    indLookup bits s (l + i) = 0 := by
  obtain h12 | ⟨d, x, hd, hx, rfl⟩ := level_cases (hpath ▸ cons_ne_nil _ _)
  · have hsingle : blockToPath (bits - 2) l = [l] := if_pos h12
    rw [hsingle, cons.injEq, eq_comm (a := []), append_eq_nil_iff] at hpath
    obtain ⟨rfl, rfl, rfl⟩ := hpath
    obtain rfl : i = 0 := Nat.eq_zero_of_add_eq_zero_left (Nat.lt_one_iff.mp hi)
    rw [Nat.add_zero, indLookup, hsingle]
    exact hzero
  · obtain ⟨hdigits, -, hoff⟩ := level_spec hd hx
    rw [hoff] at hi
    rw [hdigits, cons.injEq] at hpath
    obtain ⟨rfl, hpath⟩ := hpath
    obtain ⟨a, rfl⟩ : ∃ a, d = a + τ.length := by
      have hlen := congrArg length hpath
      rw [length_digits, length_append] at hlen
      exact ⟨χ.length, hlen⟩
    obtain ⟨hlt, hadd⟩ := digits_add hx hi
    rw [digits_split hx] at hpath
    obtain ⟨rfl, -⟩ := append_inj' hpath (length_digits _ _ _)
    rw [indLookup, Nat.add_assoc, (level_spec hd hlt).1, hadd, Pointers.ptr]
    exact s.follow_of_zero hzero _

theorem size_lt_iff (bits below : ℕ) :
    (2 ^ bits) ^ below < 2 ^ 32 ↔ (2 ^ bits) ^ below % 2 ^ 32 ≠ 0 := by
  rw [← Nat.pow_mul]
  constructor
  · intro h
    rw [Nat.mod_eq_of_lt h]
    exact (Nat.two_pow_pos _).ne'
  · intro h
    rw [Nat.pow_lt_pow_iff_right (by decide)]
    by_contra hge
    exact h (Nat.mod_eq_zero_of_dvd (Nat.pow_dvd_pow 2 (Nat.not_lt.mp hge)))

/-- A lookup of at least one block, with indirect blocks that can be read, is exact just when the
hole that it finds fits. -/
theorem indMapBlocks_exact {s : Pointers} {readErr : ℕ → ℤ} {mLblk mLen : ℕ} (hbits : 10 ≤ bits)
    (hl : blockToPath (bits - 2) mLblk ≠ []) (hlen : 1 ≤ mLen) (hread : ∀ b, readErr b = 0) :
    (indMapBlocks bits readErr s mLblk mLen).Exact (indLookup bits s) mLblk ↔
      HoleFits bits s mLblk mLen := by
  obtain rfl : readErr = fun _ => 0 := funext hread
  obtain ⟨o, offsets, hpath⟩ := exists_cons_of_ne_nil hl
  unfold indMapBlocks HoleFits
  rw [hpath]
  dsimp only
  cases hbr : getBranch s (fun _ => 0) (s.root o) offsets with
  | whole key =>
    obtain ⟨hkey, hfollow⟩ := getBranch_whole hbr
    obtain ⟨hpos, hmore⟩ := mapMore_spec (fun k => s.ptr (along (o :: offsets) k)) key mLen
      (blocksToBoundary (bits - 2) mLblk) mLen Nat.one_pos (fun i h0 h1 => by omega)
    refine iff_of_true (.inl ⟨Int.natCast_pos.mpr hpos, rfl, hkey, fun i hi => ?_⟩) ?_
    · rw [indLookup]
      cases i with
      | zero =>
        rw [Nat.add_zero, hpath]
        exact hfollow
      | succ i =>
        obtain ⟨hbound, hblk⟩ := hmore (i + 1) (Nat.succ_pos i) hi
        rw [blockToPath_along (by omega) hl hbound, hpath]
        exact hblk
    · intro _ _ heq below err hbroken
      cases heq
      cases hbr.symm.trans hbroken
  | broken below err =>
    obtain ⟨rfl, χ, τ, rfl, rfl, hzero⟩ := getBranch_broken hbr
    have hepb : 2 ^ bits / 4 = 2 ^ (bits - 2) := by
      obtain ⟨k, rfl⟩ : ∃ k, bits = k + 2 := ⟨bits - 2, by omega⟩
      rw [Nat.pow_add, Nat.add_sub_cancel]
      exact Nat.mul_div_cancel _ (by decide)
    have hpos : 0 < (2 ^ (bits - 2)) ^ τ.length := Nat.pow_pos (Nat.two_pow_pos _)
    have hsize := size_lt_iff (bits - 2) τ.length
    dsimp only
    rw [hepb]
    constructor
    · rintro (⟨hret, -⟩ | ⟨-, hone, hhole⟩)
      · exact absurd hret (lt_irrefl 0)
      intro _ _ heq below err hbroken
      cases heq
      cases hbr.symm.trans hbroken
      have hlt := hsize.mpr (Nat.pos_iff_ne_zero.mp (Nat.le_min.mp hone).2)
      refine ⟨hlt, fun i hi hin _ => hhole i ?_⟩
      rw [Nat.mod_eq_of_lt hlt]
      exact Nat.lt_min.mpr ⟨hi, hin⟩
    · intro hfits
      obtain ⟨hlt, hbehind⟩ := hfits o (χ ++ τ) rfl τ.length 0 hbr
      rw [Nat.mod_eq_of_lt hlt]
      refine .inr ⟨rfl, Nat.le_min.mpr ⟨hlen, hpos⟩, fun i hi => ?_⟩
      have hi : i < mLen ∧ i < (2 ^ (bits - 2)) ^ τ.length := Nat.lt_min.mp hi
      by_cases hin : levelOffset (bits - 2) mLblk % (2 ^ (bits - 2)) ^ τ.length + i <
          (2 ^ (bits - 2)) ^ τ.length
      · exact lookup_of_broken hpath hzero hin
      · exact hbehind i hi.1 hi.2 (Nat.not_lt.mp hin)

theorem indMapBlocks_exact_smallTree :
    (indMapBlocks 10 (fun _ => 0) smallTree 268 1000).Exact (indLookup 10 smallTree) 268 := by
  refine (indMapBlocks_exact (by decide) (by decide) (by decide) (fun _ => rfl)).mpr ?_
  intro o offsets hpath below err hbr
  cases hpath
  cases hbr
  refine ⟨by decide, fun i _ hi hge => absurd hi (Nat.not_lt.mpr ?_)⟩
  have hfirst : levelOffset (10 - 2) 268 % (2 ^ (10 - 2)) ^ 2 = 0 := by decide
  have hge : (2 ^ (10 - 2)) ^ 2 ≤ levelOffset (10 - 2) 268 % (2 ^ (10 - 2)) ^ 2 + i := hge
  rwa [hfirst, Nat.zero_add] at hge

def farTree : Pointers where
  root o := if o = 13 then 400 else 0
  slot b i := if i = 0 ∧ (b = 400 ∨ b = 401) then b + 1 else 0
  freed := []

theorem farTree_follow {b : ℕ} {π : List ℕ} (h : farTree.follow b π ≠ 0) :
    b ≤ farTree.follow b π ∧ π = List.replicate (farTree.follow b π - b) 0 := by
  induction π generalizing b with
  | nil => exact ⟨le_rfl, by simp [Pointers.follow]⟩
  | cons i π ih =>
    have hb : b ≠ 0 := fun h0 => h (if_pos h0)
    rw [Pointers.follow, if_neg hb] at h ⊢
    by_cases hi : i = 0 ∧ (b = 400 ∨ b = 401)
    · have hslot : farTree.slot b i = b + 1 := if_pos hi
      rw [hslot] at h ⊢
      obtain ⟨hle, hπ⟩ := ih h
      refine ⟨by omega, ?_⟩
      rw [hi.1, hπ, ← replicate_succ, ← hπ]
      congr 1
      omega
    · have hslot : farTree.slot b i = 0 := if_neg hi
      rw [hslot] at h
      exact absurd (farTree.follow_zero π) h

theorem farTree_ptr {ρ : List ℕ} (hne : farTree.ptr ρ ≠ 0) :
    ρ = 13 :: List.replicate (farTree.ptr ρ - 400) 0 := by
  cases ρ with
  | nil => exact absurd rfl hne
  | cons o π =>
    by_cases ho : o = 13
    · subst ho
      exact congrArg (13 :: ·) (farTree_follow hne).2
    have hroot : farTree.root o = 0 := if_neg ho
    rw [Pointers.ptr, hroot] at hne
    exact absurd (farTree.follow_zero π) hne

theorem farTree_indTree : IndTree 10 (maxBitmapSize 10 false) farTree where
  proper := by
    intro ρ ρ' _ _ hne heq
    rw [farTree_ptr hne, farTree_ptr (ρ := ρ') (heq ▸ hne), heq]
  limit := lookup_of_limit rfl

/-- A hole that is said to go on to block 268, which is mapped. -/
theorem indMapBlocks_bug : IndTree 10 (maxBitmapSize 10 false) farTree ∧
    indMapBlocks 10 (fun _ => 0) farTree 267 2 = ⟨0, 0, 2⟩ ∧ indLookup 10 farTree 268 = 402 :=
  ⟨farTree_indTree, by decide, by decide⟩

end VMsep.Ext4
