import VMsep.Jbd2.Flush
import VMsep.Jbd2.WriteAhead

/-! A commit requested with `ino_sync` zero compares zero with the tags like any other value. It
leaves the transaction that it allocated at its start, so the assertions at the end of
`journal_flush` and `journal_destroy` fail. -/

namespace VMsep.Jbd2

open Lib Jbd2.System

def Journal.Started (j : Journal) : Prop := Pointers j.spine ∧ j.nextTx ≠ 0

namespace Journal.Started

variable {j j' : Journal}

theorem step {c : Act} (h : j.Started) (hs : j.step c = some j') : j'.Started := by
  refine ⟨pointers_step h.1 hs, ?_⟩
  have hnext : ∀ {s s' : Spine} {e : Event}, s.Step e s' → s.nextTx ≠ 0 → s'.nextTx ≠ 0 := by
    intro s s' e hst hn
    cases hst with
    | client h => cases h <;> exact hn
    | create => exact Nat.succ_ne_zero _
    | noCleanup | cleanup => exact hn
    | commit h => cases h <;> first | exact hn | exact Nat.succ_ne_zero _
  exact hnext (Journal.step_spine hs) h.2

theorem pointer_ne (h : j.Started) :
    ¬ (j.jRunningTransaction = none ∧ j.jCommittingTransaction = none) := by
  rintro ⟨hr, hc⟩
  cases hw : j.phase.inWindow with
  | false => exact h.1.running_ne h.2 hw hr
  | true =>
    have hcom : j.jCommittingTransaction =
        if j.phase.committing then some j.commitTransaction else none := h.1.committing
    have hph : j.phase.committing = true := by
      revert hw
      cases j.phase <;> simp [CommitPhase.inWindow, CommitPhase.committing]
    rw [if_pos hph, hc] at hcom
    cases hcom

end Journal.Started

/-- The commit of transaction `t` between the two states was complete: every buffer of `t_buffers`
is in the log, and the journal has neither a running nor a committing transaction. -/
structure System.CompleteCommit (s s' : System) (t : ℕ) : Prop where
  logged : ∀ b ∈ s.m.lists (t, .metadata),
    b ∈ (s'.log (s'.j.txs t).tLogStart).blocks.map LogBlock.blocknr
  running : s'.j.jRunningTransaction = none
  committing : s'.j.jCommittingTransaction = none

/-- Whatever happens after a state with a running transaction, its commit is not complete and the
assertions of `journal_flush` and `journal_destroy` fail. -/
theorem commit_never_complete (cfg : Config) (disk : ℕ → BitVec 32 × List (BitVec 8))
    (as bs : List SysAct) (s₁ s₂ : System) (t : ℕ)
    (hex₁ : exec step (reset cfg disk) as = some s₁)
    (hex₂ : exec step s₁ bs = some s₂)
    (hrun : s₁.j.jRunningTransaction = some t) :
    ¬ s₁.CompleteCommit s₂ t ∧ ¬ s₂.j.FlushAssertions ∧ ¬ s₂.j.DestroyAssertions := by
  have hp : Pointers s₁.j.spine :=
    exec_invariant_all (I := fun s => Pointers s.j.spine)
      (fun s a s' hi hs => step_preserves (fun j c j' h hj => pointers_step h hj) hs hi)
      as (pointers_reset cfg) hex₁
  have hstart : s₁.j.Started := ⟨hp, Nat.ne_of_gt (Nat.zero_lt_of_lt (hp.running_lt t hrun))⟩
  have hend : s₂.j.Started :=
    exec_invariant_all (I := fun s => s.j.Started)
      (fun s a s' hi hs => step_preserves (fun j c j' h hj => h.step hj) hs hi)
      bs hstart hex₂
  refine ⟨fun h => ?_, fun h => ?_, fun h => ?_⟩ <;>
    exact hend.pointer_ne ⟨h.running, h.committing⟩

def secondHandle : List SysAct :=
  [.proto (.handle (.start 4 0)), .proto (.handle (.startRepeat 2 true))]

/-- Block 1 is committed with the first transaction, which keeps it on its checkpoint list; a handle
of the second one reports it for inode 5 and stops. -/
def oneBlockRun : List SysAct :=
  firstHandle ++ [.getblk 1] ++ journalBlock 0 1 7 0 ++ [.proto (.handle (.stop 0))] ++
    commitToBuffers 0 0 ++ [.write false] ++ commitToEnd [0] false ++ secondHandle ++
    journalBlock 2 1 8 5 ++ [.proto (.handle (.stop 2))]

/-- A whole commit of the second transaction for `ino_sync` zero, with no handle. -/
def unconditionalCommit : List SysAct :=
  commitToBuffers 1 0 ++ [.deferUnfile, .deferFile] ++ commitToEnd [] true

/-- The commit logs nothing, moves block 1 to the preallocated transaction and leaves that one
running. -/
theorem unconditionalCommit_incomplete :
    ((exec step sampleSystem oneBlockRun).bind fun s₁ =>
      (exec step s₁ unconditionalCommit).map fun s₂ =>
        (s₁.m.lists (1, .metadata), (s₂.log (s₂.j.txs 1).tLogStart).blocks.map LogBlock.blocknr,
          s₂.j.commitRecords, s₂.m.lists (2, .metadata), s₂.j.jRunningTransaction)) =
      some ([1], [], [0, 1], [1], some 2) := by
  decide +kernel

theorem commit_never_complete_unconditionalCommit :
    ∃ s₁ s₂, exec step sampleSystem oneBlockRun = some s₁ ∧
      exec step s₁ unconditionalCommit = some s₂ ∧
      s₁.j.jRunningTransaction = some 1 ∧ ¬ s₁.CompleteCommit s₂ 1 ∧ ¬ s₂.j.FlushAssertions ∧
      ¬ s₂.j.DestroyAssertions := by
  obtain ⟨s₁, hs₁, h₁⟩ := Option.map_eq_some_iff.mp
    (by decide +kernel : (exec step sampleSystem oneBlockRun).map
      (fun s => (s.j.jRunningTransaction, (exec step s unconditionalCommit).isSome)) =
        some (some 1, true))
  simp only [Prod.mk.injEq] at h₁
  obtain ⟨s₂, hs₂⟩ := Option.isSome_iff_exists.mp h₁.2
  exact ⟨s₁, s₂, hs₁, hs₂, h₁.1, commit_never_complete sampleConfig _ oneBlockRun
    unconditionalCommit s₁ s₂ 1 hs₁ hs₂ h₁.1⟩

end VMsep.Jbd2
