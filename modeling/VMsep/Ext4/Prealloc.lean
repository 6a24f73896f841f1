import Mathlib.Algebra.Order.Group.Nat

/-! `ext4_mb_new_inode_pa` places an extent that was found in the window of the normalized request,
and `ext4_mb_use_inode_pa` takes the original request from it. Windows are shorter than `2 ^ 31`
blocks, so that `int` holds their lengths. -/

namespace VMsep.Ext4.Mballoc

/-- `s_first_data_block`, `s_blocks_per_group` and `s_cluster_bits`. -/
structure Geometry where
  firstDataBlock : ℕ
  blocksPerGroup : ℕ
  clusterBits : ℕ

/-- `struct ext4_free_extent`; `feStart` and `feLen` are in clusters. -/
structure FreeExtent where
  feLogical : ℕ
  feStart : ℕ
  feGroup : ℕ
  feLen : ℕ
  deriving DecidableEq

/-- `struct ext4_prealloc_space` of an inode; `paLen` and `paFree` are in clusters. -/
structure PreallocSpace where
  paLstart : ℕ
  paPstart : ℕ
  paLen : ℕ
  paFree : ℕ
  deriving DecidableEq

namespace Geometry

variable (g : Geometry)

/-- `EXT4_C2B`. -/
def c2b (clusters : ℕ) : ℕ := clusters * 2 ^ g.clusterBits

/-- `EXT4_NUM_B2C`. -/
def numB2c (blks : ℕ) : ℕ := (blks + 2 ^ g.clusterBits - 1) / 2 ^ g.clusterBits

def getGroupNoAndOffset (blocknr : ℕ) : ℕ × ℕ :=
  let blocknr := blocknr - g.firstDataBlock
  (blocknr / g.blocksPerGroup, blocknr % g.blocksPerGroup / 2 ^ g.clusterBits)

end Geometry

variable {g : Geometry} {o goal b : FreeExtent}

end VMsep.Ext4.Mballoc
