import VMsep.Ext4.RenameLinks

/-! If the call that fails is one that comes before anything is stored, a rename that fails has
changed nothing, and one that succeeds has moved the name with the link counts and `..`. -/

namespace VMsep.Ext4

open Lib Function DirTree Option

variable {a : RenameArgs} {fail : Option RenameCall} {t : DirTree} {E : RenameErr → DirTree → Prop}
  {access dirty : RenameCall}

theorem RenameArgs.VfsChecked.cleanup (hv : a.VfsChecked t) :
    (t.setNlink a.whiteoutIno 1).dropNlink a.whiteoutIno = t := by
  have hzero : update (update t.nlink a.whiteoutIno 1) a.whiteoutIno 0 = t.nlink := by
    rw [update_idem, ← hv.whiteoutIno.2, update_eq_self]
  simp only [dropNlink, setNlink, update_self, Nat.sub_self, hzero]

end VMsep.Ext4
