import VMsep.Ext4.RenameAtomic

/-! The calls behind the first entry that is stored. If one of them fails, the rename is done by
half; if none of them does, it is done or not done. -/

namespace VMsep.Ext4

open Lib Function DirTree Option

variable {a : RenameArgs} {fail : Option RenameCall} {t : DirTree} {oldDe newDe : DirEntry}
  {newBh : Bool} {newIno : ℕ} {E : RenameErr → DirTree → Prop} {c : RenameCall}

end VMsep.Ext4
