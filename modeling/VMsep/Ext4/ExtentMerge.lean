import VMsep.Ext4.DelayedExtents

/-! Two extents that `ext4_can_extents_be_merged` accepts map what one extent over both maps. -/

namespace VMsep.Ext4

open VMsep.Lib

variable {busy : Bool} {ex e : FileExtent} {l rest : List FileExtent}

def extInitMaxLen : ℕ := 32768

def extUnwrittenMaxLen : ℕ := 32767

/-- `ext4_can_extents_be_merged`; `busy` for unwritten extents under I/O. -/
def canExtentsBeMerged (busy : Bool) (ex1 ex2 : FileExtent) : Bool :=
  ex1.unwritten = ex2.unwritten ∧ (ex1.eeBlock + ex1.len) % 2 ^ 32 = ex2.eeBlock ∧
    ex1.len + ex2.len ≤ extInitMaxLen ∧
    ¬ (ex1.unwritten ∧ (busy ∨ ex1.len + ex2.len > extUnwrittenMaxLen)) ∧
    ex1.pblock + ex1.len = ex2.pblock

def Bounded (l : List FileExtent) : Prop := ∀ e ∈ l, e.eeBlock + e.len < 2 ^ 32

theorem FileList.bounded (h : FileList l) : Bounded l := fun e he => by
  have := h.bound e he
  unfold extMaxBlocks at this
  omega

theorem same_merged (ho : fileView.Ordered (ex :: e :: rest)) (hb : ex.eeBlock + ex.len < 2 ^ 32)
    (hm : canExtentsBeMerged busy ex e = true) :
    fileView.Same ({ ex with len := ex.len + e.len } :: rest) (ex :: e :: rest) := by
  simp only [canExtentsBeMerged, decide_eq_true_eq] at hm
  obtain ⟨hu, hblock, -, -, hp⟩ := hm
  rw [Nat.mod_eq_of_lt hb] at hblock
  obtain ⟨-, h2⟩ := List.pairwise_cons.mp ho.before
  obtain ⟨h3, h4⟩ := List.pairwise_cons.mp h2
  refine ⟨⟨?_, ?_⟩, ho, fun x => ?_⟩
  · intro r hr
    obtain rfl | hr := List.mem_cons.mp hr
    · have := ho.pos ex List.mem_cons_self
      simp only [fileView] at this ⊢
      omega
    · exact ho.pos r (by simp [hr])
  · refine List.pairwise_cons.mpr ⟨fun r hr => ?_, h4⟩
    have := h3 r hr
    simp only [Ranges.Before, Ranges.stop, fileView] at this ⊢
    omega
  · rw [Ranges.map_cons, Ranges.map_cons, Ranges.map_cons]
    by_cases hx : fileView.covers ex x = true
    · have hx' : fileView.covers { ex with len := ex.len + e.len } x = true := by
        rw [fileView_covers] at hx ⊢
        dsimp only
        omega
      rw [if_pos hx, if_pos hx']
      rfl
    · rw [if_neg hx]
      by_cases hy : fileView.covers e x = true
      · have hx' : fileView.covers { ex with len := ex.len + e.len } x = true := by
          rw [fileView_covers] at hy ⊢
          dsimp only
          omega
        rw [if_pos hy, if_pos hx']
        rw [fileView_covers] at hy
        have hval : ex.pblock + (x - ex.eeBlock) = e.pblock + (x - e.eeBlock) := by omega
        simp only [fileView, hu, hval]
      · have hx' : ¬ fileView.covers { ex with len := ex.len + e.len } x = true := by
          rw [fileView_covers] at hx hy ⊢
          dsimp only
          omega
        rw [if_neg hy, if_neg hx']

end VMsep.Ext4
