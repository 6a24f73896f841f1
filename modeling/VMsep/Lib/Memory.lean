import VMsep.Lib.Bytes
import Mathlib.Data.List.GetD

/-! Little-endian fields, `memmove`, `memset` and `memcpy`. An operation that touches a byte outside
the block has no result. What an operation does is said by the bytes that it copies and by the range
outside which nothing changes. -/

namespace VMsep.Lib

def sub64 (a b : ℕ) : ℕ := (a + (2 ^ 64 - b)) % 2 ^ 64

theorem sub64_of_le {a b : ℕ} (h : b ≤ a) (ha : a < 2 ^ 64) : sub64 a b = a - b := by
  unfold sub64
  omega

namespace Block

variable {n n' n'' : ℕ}

/-- The number in the `k` bytes from `o` on, the lowest byte first. -/
def le (b : Block n) (o : ℕ) : ℕ → ℕ
  | 0 => 0
  | k + 1 => (b.byte o).toNat + 256 * le b (o + 1) k

/-- The `k` bytes from `o` on. -/
def slice (b : Block n) (o k : ℕ) : List (BitVec 8) := (List.range k).map fun i => b.byte (o + i)

/-- Store a number in `k` bytes. -/
def putLe (b : Block n) (o k v : ℕ) : Option (Block n) :=
  if o + k ≤ n then some (b.patch o k fun i => BitVec.ofNat 8 (v / 256 ^ i)) else none

def move (b : Block n) (dst src len : ℕ) : Option (Block n) :=
  if src + len ≤ n ∧ dst + len ≤ n then some (b.patch dst len fun i => b.byte (src + i)) else none

/-- `memset` with zeros. -/
def clear (b : Block n) (o k : ℕ) : Option (Block n) :=
  if o + k ≤ n then some (b.patch o k fun _ => 0) else none

/-- `memcpy` of a list of bytes. -/
def store (b : Block n) (o : ℕ) (l : List (BitVec 8)) : Option (Block n) :=
  if o + l.length ≤ n then some (b.patch o l.length fun i => l.getD i 0) else none

/-- The `k` bytes from `o'` on in the second block are those from `o` on in the first. -/
def Copies (b : Block n) (o : ℕ) (b' : Block n') (o' k : ℕ) : Prop :=
  ∀ i < k, b'.byte (o' + i) = b.byte (o + i)

/-- The blocks differ between `lo` and `hi` at most. -/
def Frame (b b' : Block n) (lo hi : ℕ) : Prop := ∀ i, i < lo ∨ hi ≤ i → b'.byte i = b.byte i

section

variable {b : Block n} {b' : Block n'} {b'' : Block n''} {o o' o'' k k' : ℕ}

section

variable (h : Copies b o b' o' k)

include h

theorem Copies.trans (h' : Copies b' o' b'' o'' k) : Copies b o b'' o'' k :=
  fun i hi => (h' i hi).trans (h i hi)

theorem Copies.part {d : ℕ} (hd : d + k' ≤ k) : Copies b (o + d) b' (o' + d) k' := by
  intro i hi
  rw [Nat.add_assoc, Nat.add_assoc]
  exact h (d + i) (by omega)

theorem Copies.take (hk : k' ≤ k) : Copies b o b' o' k' :=
  fun i hi => h i (Nat.lt_of_lt_of_le hi hk)

theorem Copies.le : b'.le o' k = b.le o k := by
  induction k generalizing o o' with
  | zero => rfl
  | succ k ih =>
    have hhead : b'.byte o' = b.byte o := h 0 (Nat.succ_pos k)
    have htail : Copies b (o + 1) b' (o' + 1) k := h.part (Nat.add_comm 1 k).le
    rw [Block.le, Block.le, hhead, ih htail]

theorem Copies.slice : b'.slice o' k = b.slice o k :=
  List.map_congr_left fun i hi => h i (List.mem_range.mp hi)

end

end

variable {b b' b'' : Block n} {o o' o'' k k' lo hi lo' hi' : ℕ}

theorem Frame.refl (b : Block n) (lo hi : ℕ) : Frame b b lo hi := fun _ _ => rfl

section

variable (h : Frame b b' lo hi)

include h

theorem Frame.trans (h' : Frame b' b'' lo hi) : Frame b b'' lo hi :=
  fun i hi => (h' i hi).trans (h i hi)

theorem Frame.mono (hlo : lo' ≤ lo) (hhi : hi ≤ hi') : Frame b b' lo' hi' := by
  intro i hi
  exact h i (by omega)

theorem Frame.copies (ho : o + k ≤ lo ∨ hi ≤ o) : Copies b o b' o k := by
  intro i hi
  exact h (o + i) (by omega)

theorem Frame.le (ho : o + k ≤ lo ∨ hi ≤ o) : b'.le o k = b.le o k :=
  (h.copies ho).le

theorem Frame.slice (ho : o + k ≤ lo ∨ hi ≤ o) : b'.slice o k = b.slice o k :=
  (h.copies ho).slice

end

theorem eq_of_byte (h : ∀ i, b'.byte i = b.byte i) : b' = b := by
  funext i
  have hi := h i
  simpa [byte, i.isLt] using hi

theorem frame_patch (b : Block n) (o k : ℕ) (f : ℕ → BitVec 8) :
    Frame b (b.patch o k f) o (o + k) :=
  fun _ hi => byte_patch_of_disjoint hi

theorem slice_length (b : Block n) (o k : ℕ) : (b.slice o k).length = k := by
  simp [slice]

theorem byte_of_slice {l : List (BitVec 8)} {i : ℕ} (h : b.slice o k = l) (hi : i < k) :
    b.byte (o + i) = l.getD i 0 := by
  rw [← h, List.getD_eq_getElem _ _ (by rw [slice_length]; exact hi)]
  simp [slice]

theorem move_spec {dst src len : ℕ} (hsrc : src + len ≤ n) (hdst : dst + len ≤ n) :
    ∃ b', b.move dst src len = some b' ∧ Copies b src b' dst len ∧ Frame b b' dst (dst + len) :=
  ⟨_, if_pos ⟨hsrc, hdst⟩, fun _ hi => byte_patch_add hi hdst, frame_patch _ _ _ _⟩

theorem clear_spec (h : o + k ≤ n) :
    ∃ b', b.clear o k = some b' ∧ (∀ i < k, b'.byte (o + i) = 0) ∧ Frame b b' o (o + k) :=
  ⟨_, if_pos h, fun _ hi => byte_patch_add hi h, frame_patch _ _ _ _⟩

theorem clear_eq_store (b : Block n) (o k : ℕ) : b.clear o k = b.store o (List.replicate k 0) := by
  simp [clear, store]

theorem store_spec {l : List (BitVec 8)} (h : o + l.length ≤ n) :
    ∃ b', b.store o l = some b' ∧ b'.slice o l.length = l ∧ Frame b b' o (o + l.length) := by
  refine ⟨_, if_pos h, ?_, frame_patch _ _ _ _⟩
  apply List.ext_getElem
  · rw [slice_length]
  intro i hi hi'
  simp only [slice, List.getElem_map, List.getElem_range]
  rw [byte_patch_add hi' h, List.getD_eq_getElem l 0 hi']

theorem le_of_digits {v : ℕ} (h : ∀ i < k, b.byte (o + i) = BitVec.ofNat 8 (v / 256 ^ i)) :
    b.le o k = v % 256 ^ k := by
  induction k generalizing o v with
  | zero => simp [Block.le, Nat.mod_one]
  | succ k ih =>
    have hhead : b.byte o = BitVec.ofNat 8 v := by simpa using h 0 (Nat.succ_pos k)
    have htail : ∀ i < k, b.byte (o + 1 + i) = BitVec.ofNat 8 (v / 256 / 256 ^ i) := by
      intro i hi
      rw [Nat.div_div_eq_div_mul, ← pow_succ', Nat.add_assoc, Nat.add_comm 1 i]
      exact h (i + 1) (by omega)
    have hpow : v % 256 ^ (k + 1) = v % 256 + 256 * (v / 256 % 256 ^ k) := by
      rw [pow_succ', Nat.mod_mul]
    rw [Block.le, hhead, ih htail, BitVec.toNat_ofNat, hpow]

theorem le_eq_zero (h : ∀ i < k, b.byte (o + i) = 0) : b.le o k = 0 := by
  have hdigits : ∀ i < k, b.byte (o + i) = BitVec.ofNat 8 (0 / 256 ^ i) := by
    intro i hi
    rw [h i hi, Nat.zero_div]
    rfl
  rw [le_of_digits hdigits, Nat.zero_mod]

theorem putLe_spec {v : ℕ} (h : o + k ≤ n) :
    ∃ b', b.putLe o k v = some b' ∧ b'.le o k = v % 256 ^ k ∧ Frame b b' o (o + k) :=
  ⟨_, if_pos h, le_of_digits fun _ hi => byte_patch_add hi h, frame_patch _ _ _ _⟩

end Block

end VMsep.Lib
