import VMsep.Jbd2.Journal

/-! The two hash tables of revoke records, of which `j_revoke` names the one that handles use, and
the bits `BH_Revoked` and `BH_RevokeValid` of the buffers in the buffer cache. A table is a list of
records with the latest one first, which is the order within a hash bucket. -/

namespace VMsep.Jbd2

open Function

structure RevokeRecord where
  blocknr : ℕ
  sequence : Tid
  deriving DecidableEq

/-- `cached` says that there is a buffer for the block in the buffer cache. -/
structure Revoke where
  jRevokeTable : Bool → List RevokeRecord
  jRevoke : Bool
  cached : ℕ → Bool
  revoked : ℕ → Bool
  revokevalid : ℕ → Bool

namespace Revoke

/-- The records of `j_revoke`. -/
def current (r : Revoke) : List RevokeRecord := r.jRevokeTable r.jRevoke

def other (r : Revoke) : List RevokeRecord := r.jRevokeTable (!r.jRevoke)

def blocks (l : List RevokeRecord) : List ℕ := l.map RevokeRecord.blocknr

def setCurrent (r : Revoke) (l : List RevokeRecord) : Revoke :=
  { r with jRevokeTable := update r.jRevokeTable r.jRevoke l }

def insertRevokeHash (r : Revoke) (b : ℕ) (seq : Tid) : Revoke :=
  r.setCurrent ({ blocknr := b, sequence := seq } :: r.current)

/-- The first half of `jbd2_vmsep_journal_revoke`: mark the buffer, if there is one. `none` is
the error return for a buffer that is already revoked. -/
def markRevoked (r : Revoke) (b : ℕ) : Option Revoke :=
  if !r.cached b then some r
  else if r.revoked b then none
  else
    some { r with
      revoked := update r.revoked b true
      revokevalid := update r.revokevalid b true }

def cancelRevoke (r : Revoke) (b : ℕ) : Revoke :=
  let needCancel := !r.revokevalid b || r.revoked b
  let r' :=
    { r with
      revoked := update r.revoked b false
      revokevalid := update r.revokevalid b true }
  if needCancel then r'.setCurrent (r.current.eraseP fun x => x.blocknr == b) else r'

def clearBufferRevokedFlags (r : Revoke) : Revoke :=
  { r with revoked := fun b => r.revoked b && !(r.cached b && b ∈ blocks r.current) }

def switchRevokeTable (r : Revoke) : Revoke :=
  { r with
    jRevoke := !r.jRevoke
    jRevokeTable := update r.jRevokeTable (!r.jRevoke) [] }

/-- `jbd2_vmsep_journal_write_revoke_records` empties the table it writes. -/
def dropOther (r : Revoke) : Revoke :=
  { r with jRevokeTable := update r.jRevokeTable (!r.jRevoke) [] }

def readBlock (r : Revoke) (b : ℕ) : Revoke := { r with cached := update r.cached b true }

def discardBlock (r : Revoke) (b : ℕ) : Revoke :=
  { r with
    cached := update r.cached b false
    revoked := update r.revoked b false
    revokevalid := update r.revokevalid b false }

end Revoke

def Revoke.empty : Revoke :=
  { jRevokeTable := fun _ => [], jRevoke := false, cached := fun _ => false
    revoked := fun _ => false, revokevalid := fun _ => false }

end VMsep.Jbd2
