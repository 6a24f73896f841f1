import Mathlib.Tactic.Ring

/-! Big-endian numbers in a block of bytes. A read outside the block has no result. -/

namespace VMsep.Lib

/-- A block of `n` bytes. -/
abbrev Block (n : ℕ) := Fin n → BitVec 8

namespace Block

variable {n : ℕ}

def zero : Block n := fun _ => 0

def byte (b : Block n) (o : ℕ) : BitVec 8 := if h : o < n then b ⟨o, h⟩ else 0

/-- The number in the `k` bytes from `o` on. -/
def be (b : Block n) (o : ℕ) : ℕ → ℕ
  | 0 => 0
  | k + 1 => be b o k * 256 + (b.byte (o + k)).toNat

def read (b : Block n) (o k : ℕ) : Option ℕ := if o + k ≤ n then some (b.be o k) else none

/-- The bytes from `o` on are replaced by `k` others. -/
def patch (b : Block n) (o k : ℕ) (f : ℕ → BitVec 8) : Block n := fun i =>
  if o ≤ i.val ∧ i.val < o + k then f (i.val - o) else b i

/-- Store a number in `k` bytes. -/
def put (b : Block n) (o k v : ℕ) : Block n :=
  b.patch o k fun i => BitVec.ofNat 8 (v / 256 ^ (k - 1 - i))

variable {b : Block n} {o k o' k' : ℕ} {f : ℕ → BitVec 8}

theorem read_eq (h : o + k ≤ n) : b.read o k = some (b.be o k) := if_pos h

theorem byte_patch_add {i : ℕ} (hi : i < k) (h : o + k ≤ n) :
    (b.patch o k f).byte (o + i) = f i := by
  have hlt : o + i < n := by omega
  simp [byte, patch, hlt, hi]

theorem byte_patch_of_disjoint {i : ℕ} (h : i < o ∨ o + k ≤ i) :
    (b.patch o k f).byte i = b.byte i := by
  have hnot : ¬ (o ≤ i ∧ i < o + k) := by omega
  simp [byte, patch, hnot]

theorem be_patch_of_disjoint (h : o' + k' ≤ o ∨ o + k ≤ o') :
    (b.patch o k f).be o' k' = b.be o' k' := by
  induction k' with
  | zero => rfl
  | succ j ih =>
    rw [be, be, ih (by omega), byte_patch_of_disjoint (by omega)]

theorem be_put_of_disjoint {v : ℕ} (h : o' + k' ≤ o ∨ o + k ≤ o') :
    (b.put o k v).be o' k' = b.be o' k' :=
  be_patch_of_disjoint h

theorem be_put (v : ℕ) (h : o + k ≤ n) : (b.put o k v).be o k = v % 256 ^ k := by
  -- the first `j` bytes hold the highest digits
  suffices hj : ∀ j ≤ k, (b.put o k v).be o j = v / 256 ^ (k - j) % 256 ^ j by
    simpa using hj k le_rfl
  intro j hj
  induction j with
  | zero => simp [be, Nat.mod_one]
  | succ j ih =>
    have hdiv : v / 256 ^ (k - j) = v / 256 ^ (k - 1 - j) / 256 := by
      rw [Nat.div_div_eq_div_mul, ← pow_succ]
      congr 2
      omega
    have hexp : k - (j + 1) = k - 1 - j := by omega
    rw [be, ih (by omega), put, byte_patch_add (by omega) h, hdiv, hexp, pow_succ',
      Nat.mod_mul, BitVec.toNat_ofNat]
    ring

theorem put_put (v w : ℕ) : (b.put o k v).put o k w = b.put o k w := by
  funext i
  simp only [put, patch]
  split_ifs <;> rfl

end Block

end VMsep.Lib
