import Mathlib.Data.Nat.Notation

/-! An array of root pointers and blocks of pointers, where 0 is no pointer. A pointer is named by
its path from the roots. -/

namespace VMsep.Lib.Branches

structure Pointers where
  root : ℕ → ℕ
  slot : ℕ → ℕ → ℕ
  freed : List ℕ

namespace Pointers

/-- The pointer reached from `v`. -/
def follow (s : Pointers) : ℕ → List ℕ → ℕ
  | v, [] => v
  | v, i :: π => if v = 0 then 0 else s.follow (s.slot v i) π

def ptr (s : Pointers) : List ℕ → ℕ
  | [] => 0
  | o :: π => s.follow (s.root o) π

theorem follow_zero (s : Pointers) : ∀ π, s.follow 0 π = 0
  | [] => rfl
  | _ :: _ => rfl

end Pointers

structure Shape where
  mem : List ℕ → Prop
  closed : ∀ π χ, π ≠ [] → mem (π ++ χ) → mem π

def Proper (P : Shape) (s : Pointers) : Prop :=
  ∀ ⦃ρ ρ'⦄, P.mem ρ → P.mem ρ' → s.ptr ρ ≠ 0 → s.ptr ρ = s.ptr ρ' → ρ = ρ'

end VMsep.Lib.Branches
