import Mathlib.Data.Nat.Notation

/-! An array of slots with the number of those in use. An element goes in the next slot, and all
that are in use are handed on together. `none` is an access outside the array, or to a slot that was
never written. -/

namespace VMsep.Lib

structure Staging (α : Type) where
  slots : List (Option α)
  count : ℕ

namespace Staging

variable {α : Type} {s : Staging α} {l : List α}

def empty (size : ℕ) : Staging α := ⟨List.replicate size none, 0⟩

def place (x : α) (s : Staging α) : Option (Staging α) :=
  if s.count < s.slots.length then some ⟨s.slots.set s.count (some x), s.count + 1⟩ else none

def flush (s : Staging α) : Option (List α × Staging α) :=
  ((s.slots.take s.count).mapM fun slot => slot).map fun l => (l, { s with count := 0 })

structure Pending (s : Staging α) (l : List α) : Prop where
  count : s.count = l.length
  taken : s.slots.take s.count = l.map some

theorem Pending.place (h : s.Pending l) (hlt : s.count < s.slots.length) (x : α) :
    ∃ s', s.place x = some s' ∧ s'.Pending (l ++ [x]) ∧ s'.slots.length = s.slots.length := by
  refine ⟨⟨s.slots.set s.count (some x), s.count + 1⟩, if_pos hlt, ⟨?_, ?_⟩, List.length_set⟩
  · rw [List.length_append, ← h.count]
    rfl
  rw [List.take_add_one, List.take_set_of_le (Nat.le_refl _), h.taken,
    List.getElem?_set_self hlt, List.map_append]
  rfl

theorem mapM_some (l : List α) : (l.map some).mapM (fun slot => slot) = some l := by
  induction l with
  | nil => rfl
  | cons x l ih => rw [List.map_cons, List.mapM_cons, ih]; rfl

theorem Pending.flush (h : s.Pending l) : s.flush = some (l, { s with count := 0 }) := by
  rw [Staging.flush, h.taken, mapM_some]
  rfl

theorem pending_reset (s : Staging α) : ({ s with count := 0 } : Staging α).Pending [] :=
  ⟨rfl, rfl⟩

end Staging

end VMsep.Lib
