import VMsep.Jbd2.Barrier
import VMsep.Jbd2.Deferral
import VMsep.Jbd2.CommitSnapshot
import VMsep.Jbd2.AbortedTail
import VMsep.Jbd2.FreedBlock
import VMsep.Jbd2.OrderedData
import VMsep.Jbd2.SubmitLoop
import VMsep.Jbd2.HeadReferences
import VMsep.Ext4.PendingFree
import VMsep.Ext4.ExtentNode
import VMsep.Ext4.OrphanList
import VMsep.Ext4.DelayedBlocks
import VMsep.Ext4.RenameHalfway
import VMsep.Ext4.MigrateRuns
import VMsep.Ext4.MultiMount
import VMsep.Ext4.InlineRuns
import VMsep.Ext4.SharedRuns
import VMsep.Jbd2.LogRing
import VMsep.Jbd2.DirtyErrors
import VMsep.Jbd2.RevokeStatus
import VMsep.Jbd2.RecoveryEnds
import VMsep.Jbd2.BadCommit
import VMsep.Jbd2.ShadowPairs
import VMsep.Jbd2.RevokeBlocks
import VMsep.Ext4.IndirectLookup
import VMsep.Ext4.Normalize
import VMsep.Ext4.Trim
import VMsep.Ext4.InodeSearch
import VMsep.Ext4.PageIo
import VMsep.Ext4.GroupAdd
import VMsep.Ext4.InodeTimes
import VMsep.Jbd2.RevokeTable
import VMsep.Ext4.BitOps
