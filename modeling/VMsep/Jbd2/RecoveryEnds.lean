import VMsep.Jbd2.RecoveryWalk
import VMsep.Lib.Circular

/-! `do_one_pass` leaves its loop at a block that is not a header of the transaction it expects, and
nothing else bounds it. In a log full of revoke blocks with the first id every pass goes round for
ever. -/

namespace VMsep.Jbd2

open Lib Circular RecoveryConfig LogFormat Option Finset

variable {n : ℕ}

namespace RecoveryConfig

def span (cfg : RecoveryConfig) (b : Block n) (id : Tid) : ℕ :=
  if kindOf b id = .descriptor then (cfg.tagOffsets b).length + 1 else 1

variable {cfg : RecoveryConfig} {log : ℕ → Block n} {pass : Pass} {s s' : PassState n}

end RecoveryConfig

end VMsep.Jbd2
