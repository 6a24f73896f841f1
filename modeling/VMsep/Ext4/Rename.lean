import VMsep.Lib.Fallible
import VMsep.Ext4.DirTree

/-! `ext4_rename` and `ext4_cross_rename` with one call that may fail. What was done before the
failure stays done; the functions have no way back. -/

namespace VMsep.Ext4

open Lib

/-- The calls that may fail. -/
inductive RenameCall where
  | dquotOldDir
  | dquotNewDir
  | dquotNewInode
  /-- The reads of `ext4_find_entry`. -/
  | findOld
  | findNew
  /-- `ext4_journal_start`, or `ext4_whiteout_for_rename`. -/
  | journalStart
  /-- A read in `ext4_empty_dir`. -/
  | emptyDir
  /-- The read and the write access of `ext4_rename_dir_prepare`. -/
  | readOldDir
  | accessOldDir
  | readNewDir
  | accessNewDir
  /-- The write access in `ext4_setent`, and `ext4_handle_dirty_dirent_node` behind it. -/
  | accessOld
  | dirtyOld
  | accessNew
  | dirtyNew
  | addEntry
  /-- A read or a write access of `ext4_rename_delete`. -/
  | deleteOld
  /-- The end of `ext4_rename_dir_finish`. -/
  | finishOld
  | finishNew
  deriving DecidableEq

inductive RenameErr where
  | failed (call : RenameCall)
  | eio
  | einval
  | enoent
  | eperm
  | enotempty
  | emlink
  | efscorrupted
  /-- `-EXDEV`, `-ENOKEY` or `-EPERM` of the checks at the start. -/
  | refused
  deriving DecidableEq

abbrev RenameM := EStateM RenameErr DirTree

structure RenameArgs where
  oldDir : ℕ
  oldName : String
  oldInode : ℕ
  newDir : ℕ
  newName : String
  newInode : Option ℕ
  exchange : Bool
  whiteout : Bool
  otherFlags : Bool
  whiteoutIno : ℕ
  forcedShutdown : Bool
  /-- The project and encryption checks at the start fail. -/
  refused : Bool
  /-- `fscrypt_has_permitted_context`, where it is asked. -/
  permitted : Bool

def call (fail : Option RenameCall) (c : RenameCall) : RenameM Unit :=
  attempt (fail = some c) (.failed c)

namespace RenameArgs

/-- What `vfs_rename` has checked and locked: the dentries are those of the directories, a file does
not replace a directory or a directory a file, and a directory is not moved below itself. -/
structure VfsChecked (a : RenameArgs) (t : DirTree) : Prop where
  oldDir : t.isDir a.oldDir = true ∧ 0 < t.nlink a.oldDir
  newDir : t.isDir a.newDir = true ∧ 0 < t.nlink a.newDir
  dentry : a.newInode = (t.findEntry a.newDir a.newName).map DirEntry.ino
  distinct : ∀ i ∈ a.newInode, i ≠ a.oldInode
  names : (a.oldDir, a.oldName) ≠ (a.newDir, a.newName)
  oldInode : a.oldInode ≠ a.oldDir ∧ a.oldInode ≠ a.newDir
  newInode : ∀ i ∈ a.newInode, i ≠ a.oldDir ∧ i ≠ a.newDir
  kinds : a.exchange = false → ∀ i ∈ a.newInode, t.isDir i = t.isDir a.oldInode
  whiteoutIno : t.isDir a.whiteoutIno = false ∧ t.nlink a.whiteoutIno = 0

def left (a : RenameArgs) : Option ℕ :=
  if a.exchange then a.newInode else if a.whiteout then some a.whiteoutIno else none

structure Done (a : RenameArgs) (t t' : DirTree) : Prop where
  new : (t'.findEntry a.newDir a.newName).map DirEntry.ino = some a.oldInode
  old : (t'.findEntry a.oldDir a.oldName).map DirEntry.ino = a.left
  others : ∀ dir name, (dir, name) ≠ (a.oldDir, a.oldName) → (dir, name) ≠ (a.newDir, a.newName) →
    t'.findEntry dir name = t.findEntry dir name
  dotdot : ∀ i, t'.dotdot i =
    if i = a.oldInode ∧ t.isDir i = true then a.newDir
    else if a.exchange = true ∧ some i = a.newInode ∧ t.isDir i = true then a.oldDir
    else t.dotdot i
  consistent : t'.Consistent

end RenameArgs

end VMsep.Ext4
