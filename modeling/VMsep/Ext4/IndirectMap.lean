import Mathlib.Data.Nat.ModEq
import VMsep.Lib.Branches

/-! The pointers of a file without extents: `i_data` is the root array, the other arrays are
indirect blocks. `ext4_block_to_path` gives the path of the pointer to a block of the file. -/

namespace VMsep.Ext4

open VMsep.Lib.Branches

variable {bits l : ℕ} {s : Pointers}

def ndirBlocks : ℕ := 12

/-- `ext4_block_to_path`; no offsets for a block past the triple indirect tree. -/
def blockToPath (ptrsBits iBlock : ℕ) : List ℕ :=
  let ptrs := 2 ^ ptrsBits
  let doubleBlocks := 2 ^ (ptrsBits * 2)
  if iBlock < ndirBlocks then [iBlock]
  else
    let i := iBlock - ndirBlocks
    if i < ptrs then [12, i]
    else
      let i := i - ptrs
      if i < doubleBlocks then [13, i / ptrs, i % ptrs]
      else
        let i := i - doubleBlocks
        if i / doubleBlocks < ptrs then [14, i / doubleBlocks, i / ptrs % ptrs, i % ptrs]
        else []

/-- `ext4_max_bitmap_size`: the limit in bytes, with shifts of a 64-bit `loff_t`. -/
def maxBitmapSize (bits : ℕ) (hasHugeFiles : Bool) : ℤ :=
  let upperLimit : ℤ := if hasHugeFiles then 2 ^ 48 - 1 else (2 ^ 32 - 1) / 2 ^ (bits - 9)
  let metaBlocks : ℤ := 1 + (1 + 2 ^ (bits - 2)) + (1 + 2 ^ (bits - 2) + 2 ^ (2 * (bits - 2)))
  let upperLimit := ((upperLimit - metaBlocks) * 2 ^ bits).bmod (2 ^ 64)
  let res : ℤ := 12 + 2 ^ (bits - 2) + 2 ^ (2 * (bits - 2)) + 2 ^ (3 * (bits - 2))
  let res := (res * 2 ^ bits).bmod (2 ^ 64)
  min (if res > upperLimit then upperLimit else res) (2 ^ 63 - 1)

/-- `max_block`, the limit in blocks as an `ext4_lblk_t`. -/
def maxBlock (bits : ℕ) (bitmapMaxbytes : ℤ) : ℕ :=
  ((bitmapMaxbytes + (2 ^ bits - 1)) / 2 ^ bits % 2 ^ 32).toNat

/-- The number of indirect blocks above a data block below a pointer of `i_data`. -/
def indirections (o : ℕ) : ℕ := o - 11

/-- The paths of the pointers in `i_data` and in the indirect blocks. -/
def InTree (ptrs : ℕ) : List ℕ → Prop
  | [] => False
  | o :: π => o < 15 ∧ (∀ i ∈ π, i < ptrs) ∧ π.length ≤ indirections o

def indShape (ptrs : ℕ) : Shape where
  mem := InTree ptrs
  closed := by
    intro π χ hne h
    cases π with
    | nil => exact absurd rfl hne
    | cons =>
      rw [List.cons_append] at h
      obtain ⟨h1, h2, h3⟩ := h
      rw [List.length_append] at h3
      exact ⟨h1, fun i hi => h2 i (List.mem_append_left χ hi), by omega⟩

def IsLeaf (ptrs : ℕ) (ρ : List ℕ) : Prop :=
  InTree ptrs ρ ∧ ρ.length = indirections (ρ.headD 0) + 1

theorem blockToPath_cases (bits l : ℕ) : (l < 12 ∧ blockToPath bits l = [l]) ∨
    (∃ x, l = 12 + x ∧ x < 2 ^ bits ∧ blockToPath bits l = [12, x]) ∨
    (∃ x, l = 12 + 2 ^ bits + x ∧ x < 2 ^ bits * 2 ^ bits ∧
      blockToPath bits l = [13, x / 2 ^ bits, x % 2 ^ bits]) ∨
    (∃ x, l = 12 + 2 ^ bits + 2 ^ bits * 2 ^ bits + x ∧ x / 2 ^ bits / 2 ^ bits < 2 ^ bits ∧
      blockToPath bits l = [14, x / 2 ^ bits / 2 ^ bits, x / 2 ^ bits % 2 ^ bits, x % 2 ^ bits]) ∨
    (12 + 2 ^ bits + 2 ^ bits * 2 ^ bits + 2 ^ bits * 2 ^ bits * 2 ^ bits ≤ l ∧
      blockToPath bits l = []) := by
  have hsq : 2 ^ (bits * 2) = 2 ^ bits * 2 ^ bits := by rw [Nat.pow_mul, Nat.pow_two]
  have hpos : 0 < 2 ^ bits := Nat.two_pow_pos bits
  simp only [blockToPath, ndirBlocks, hsq]
  generalize 2 ^ bits = p at hpos
  by_cases h1 : l < 12
  · exact .inl ⟨h1, if_pos h1⟩
  rw [if_neg h1]
  by_cases h2 : l - 12 < p
  · exact .inr (.inl ⟨l - 12, by omega, h2, if_pos h2⟩)
  rw [if_neg h2]
  by_cases h3 : l - 12 - p < p * p
  · exact .inr (.inr (.inl ⟨l - 12 - p, by omega, h3, if_pos h3⟩))
  rw [if_neg h3, ← Nat.div_div_eq_div_mul]
  by_cases h4 : (l - 12 - p - p * p) / p / p < p
  · exact .inr (.inr (.inr (.inl ⟨l - 12 - p - p * p, by omega, h4, if_pos h4⟩)))
  refine .inr (.inr (.inr (.inr ⟨?_, if_neg h4⟩)))
  rw [Nat.div_div_eq_div_mul, Nat.not_lt, Nat.le_div_iff_mul_le (Nat.mul_pos hpos hpos)] at h4
  rw [Nat.mul_comm p (p * p)] at h4
  omega

theorem blockToPath_isLeaf (hl : blockToPath bits l ≠ []) :
    IsLeaf (2 ^ bits) (blockToPath bits l) := by
  have hpos : 0 < 2 ^ bits := Nat.two_pow_pos bits
  obtain ⟨h1, hl⟩ | ⟨x, rfl, hx, hl⟩ | ⟨x, rfl, hx, hl⟩ | ⟨x, rfl, hx, hl⟩ | ⟨-, hl'⟩ :=
    blockToPath_cases bits l
  · rw [hl]
    refine ⟨⟨by omega, fun i hi => absurd hi List.not_mem_nil, Nat.zero_le _⟩, ?_⟩
    simp only [List.length_singleton, List.headD_cons, indirections]
    omega
  · rw [hl]
    refine ⟨⟨by omega, ?_, Nat.le_refl 1⟩, rfl⟩
    simpa using hx
  · rw [hl]
    refine ⟨⟨by omega, ?_, Nat.le_refl 2⟩, rfl⟩
    simpa using ⟨Nat.div_lt_of_lt_mul hx, Nat.mod_lt x hpos⟩
  · rw [hl]
    refine ⟨⟨by omega, ?_, Nat.le_refl 3⟩, rfl⟩
    simpa using ⟨hx, Nat.mod_lt _ hpos, Nat.mod_lt x hpos⟩
  · exact absurd hl' hl

def indLookup (bits : ℕ) (s : Pointers) (l : ℕ) : ℕ := s.ptr (blockToPath (bits - 2) l)

/-- A tree of direct, indirect, double and triple indirect blocks: no block is used twice, and
nothing is mapped from the limit of the file on. -/
structure IndTree (bits : ℕ) (bitmapMaxbytes : ℤ) (s : Pointers) : Prop where
  proper : Proper (indShape (2 ^ (bits - 2))) s
  limit : ∀ l, maxBlock bits bitmapMaxbytes ≤ l → indLookup bits s l = 0

theorem path_of_lookup (h : indLookup bits s l ≠ 0) : blockToPath (bits - 2) l ≠ [] := by
  intro hnil
  refine h ?_
  rw [indLookup, hnil]
  rfl

theorem lookup_of_limit (h : s.root 14 = 0) (l : ℕ)
    (hl : maxBlock 10 (maxBitmapSize 10 false) ≤ l) : indLookup 10 s l = 0 := by
  have hmax : maxBlock 10 (maxBitmapSize 10 false) = 16843020 := by decide
  rw [hmax] at hl
  obtain ⟨h1, -⟩ | ⟨x, rfl, hx, -⟩ | ⟨x, rfl, hx, -⟩ | ⟨x, -, -, hpath⟩ | ⟨-, hpath⟩ :=
    blockToPath_cases 8 l
  · omega
  · omega
  · omega
  · rw [indLookup, hpath, Pointers.ptr, h]
    exact s.follow_zero _
  · rw [indLookup, hpath]
    rfl

def smallTree : Pointers where
  root o := if o = 0 then 100 else if o = 12 then 200 else 0
  slot b i := if b = 200 ∧ i = 3 then 300 else 0
  freed := []

theorem smallTree_ptr {ρ : List ℕ} (hρ : InTree 256 ρ) (hne : smallTree.ptr ρ ≠ 0) :
    (ρ = [0] ∧ smallTree.ptr ρ = 100) ∨ (ρ = [12] ∧ smallTree.ptr ρ = 200) ∨
      (ρ = [12, 3] ∧ smallTree.ptr ρ = 300) := by
  cases ρ with
  | nil => exact absurd hρ id
  | cons o π =>
    obtain ⟨-, -, hlen⟩ := hρ
    by_cases h0 : o = 0
    · subst h0
      obtain rfl : π = [] := List.length_eq_zero_iff.mp (Nat.le_zero.mp hlen)
      exact .inl ⟨rfl, rfl⟩
    · by_cases h12 : o = 12
      · subst h12
        cases π with
        | nil => exact .inr (.inl ⟨rfl, rfl⟩)
        | cons i π =>
          obtain rfl : π = [] := List.length_eq_zero_iff.mp (by simpa [indirections] using hlen)
          by_cases hi : i = 3
          · subst hi
            exact .inr (.inr ⟨rfl, rfl⟩)
          · refine absurd ?_ hne
            simp [Pointers.ptr, Pointers.follow, smallTree, hi]
      · have hroot : smallTree.root o = 0 := by simp [smallTree, h0, h12]
        refine absurd ?_ hne
        rw [Pointers.ptr, hroot, Pointers.follow_zero]

theorem smallTree_indTree : IndTree 10 (maxBitmapSize 10 false) smallTree where
  proper := by
    intro ρ ρ' hρ hρ' hne heq
    obtain ⟨rfl, h1⟩ | ⟨rfl, h1⟩ | ⟨rfl, h1⟩ := smallTree_ptr hρ hne <;>
    obtain ⟨rfl, h2⟩ | ⟨rfl, h2⟩ | ⟨rfl, h2⟩ := smallTree_ptr hρ' (heq ▸ hne) <;>
    first | rfl | omega
  limit := lookup_of_limit rfl

end VMsep.Ext4
