import VMsep.Ext4.Prealloc

/-! `ext4_mb_normalize_request` for a request that is to be normalized and is not one of a locality
group. The preallocations are those of the inode that are not deleted, in the order of the list;
`none` is a failed `BUG_ON`. -/

namespace VMsep.Ext4.Mballoc

open VMsep.Ext4.Mballoc.Geometry

/-- The neighbours in `struct ext4_allocation_request`. -/
structure AllocRequest where
  lleft : ℕ
  pleft : ℕ
  lright : ℕ
  pright : ℕ

namespace Geometry

variable (g : Geometry)

def predictWindow (bsbits iSize : ℕ) (o : FreeExtent) : ℕ × ℕ :=
  let size := (o.feLogical + g.c2b o.feLen) % 2 ^ 32 * 2 ^ bsbits
  let size := if size < iSize then iSize else size
  let max := 2 * 2 ^ bsbits
  let aligned (n : ℕ) := (o.feLogical / 2 ^ (n - bsbits) * 2 ^ n, 2 ^ n)
  let (startOff, size) :=
    match [16, 32, 64, 128, 256, 512, 1024].find? fun k => size ≤ k * 1024 with
    | some k => (0, k * 1024)
    | none =>
      if size ≤ 4 * 1024 * 1024 ∨ max ≤ 2 * 1024 then aligned 21
      else if size ≤ 8 * 1024 * 1024 ∨ max ≤ 4 * 1024 then aligned 22
      else if o.feLen ≤ 8 * 2 ^ 20 / 2 ^ bsbits ∨ max ≤ 8 * 1024 then aligned 23
      else (o.feLogical * 2 ^ bsbits, g.c2b o.feLen * 2 ^ bsbits)
  (startOff / 2 ^ bsbits, size / 2 ^ bsbits)

def paEnd (pa : PreallocSpace) : ℕ := (pa.paLstart + g.c2b pa.paLen) % 2 ^ 32

end Geometry

variable {g : Geometry} {o : FreeExtent} {ar : AllocRequest} {pas : List PreallocSpace}
  {bsbits iSize : ℕ}

/-- The predicted window starts behind the left neighbour. -/
def windowStart (g : Geometry) (bsbits iSize : ℕ) (o : FreeExtent) (ar : AllocRequest) : ℕ :=
  let start := (g.predictWindow bsbits iSize o).1
  if ar.pleft ≠ 0 then max start (ar.lleft + 1) else start

/-- The predicted window ends before the right neighbour. -/
def windowEnd (g : Geometry) (bsbits iSize : ℕ) (o : FreeExtent) (ar : AllocRequest) : ℕ :=
  let w := g.predictWindow bsbits iSize o
  if ar.pright ≠ 0 then min (w.1 + w.2) ar.lright else w.1 + w.2

/-- The window that is left lies around the request and in the old one, with no preallocation in
it. -/
structure Cut (g : Geometry) (logical : ℕ) (pas : List PreallocSpace) (w w' : ℕ × ℕ) : Prop where
  inside : w.1 ≤ w'.1 ∧ w'.2 ≤ w.2
  request : w'.1 ≤ logical ∧ logical < w'.2
  apart : ∀ pa ∈ pas, w'.1 ≥ g.paEnd pa ∨ w'.2 ≤ pa.paLstart

/-- The predicted window, a group, what the neighbours leave and the preallocations start and end
with a cluster. -/
structure Aligned (g : Geometry) (bsbits iSize : ℕ) (o : FreeExtent) (ar : AllocRequest)
    (pas : List PreallocSpace) : Prop where
  window : 2 ^ g.clusterBits ∣ (g.predictWindow bsbits iSize o).1 ∧
    2 ^ g.clusterBits ∣ (g.predictWindow bsbits iSize o).2
  group : 2 ^ g.clusterBits ∣ g.blocksPerGroup
  left : ar.pleft ≠ 0 → 2 ^ g.clusterBits ∣ ar.lleft + 1
  right : ar.pright ≠ 0 → 2 ^ g.clusterBits ∣ ar.lright
  pas : ∀ pa ∈ pas, 2 ^ g.clusterBits ∣ pa.paLstart

theorem Aligned.start (h : Aligned g bsbits iSize o ar pas) :
    2 ^ g.clusterBits ∣ windowStart g bsbits iSize o ar := by
  unfold windowStart
  dsimp only
  split_ifs with hleft
  · rcases max_choice (g.predictWindow bsbits iSize o).1 (ar.lleft + 1) with heq | heq
    · rw [heq]
      exact h.window.1
    · rw [heq]
      exact h.left hleft
  · exact h.window.1

theorem Aligned.stop (h : Aligned g bsbits iSize o ar pas) :
    2 ^ g.clusterBits ∣ windowEnd g bsbits iSize o ar := by
  have hend := Nat.dvd_add h.window.1 h.window.2
  unfold windowEnd
  dsimp only
  split_ifs with hright
  · rcases min_choice ((g.predictWindow bsbits iSize o).1 + (g.predictWindow bsbits iSize o).2)
      ar.lright with heq | heq
    · rw [heq]
      exact hend
    · rw [heq]
      exact h.right hright
  · exact hend

section

variable (hleft : ar.pleft ≠ 0 → ar.lleft < o.feLogical)
  (hright : ar.pright ≠ 0 → o.feLogical < ar.lright)
  (hpas : ∀ pa ∈ pas, pa.paLstart + g.c2b pa.paLen ≤ o.feLogical ∨ o.feLogical < pa.paLstart)
  (hends : ∀ pa ∈ pas, pa.paLstart + g.c2b pa.paLen < 2 ^ 32)
include hends

include hpas

include hleft hright

end

end VMsep.Ext4.Mballoc
