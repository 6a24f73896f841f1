import Mathlib.Data.Nat.Count

/-! A scan finds the maximal runs of numbers with a property, one after the other. -/

namespace VMsep.Lib

/-- The first of `n` numbers from `a` on with the property, or the number behind them. -/
def findFrom (p : ℕ → Prop) [DecidablePred p] (a : ℕ) : ℕ → ℕ
  | 0 => a
  | n + 1 => if p a then a else findFrom p (a + 1) n

/-- The next run of numbers with the property below `stop`. -/
def nextRun (p : ℕ → Prop) [DecidablePred p] (stop start : ℕ) : Option (ℕ × ℕ) :=
  let a := findFrom p start (stop - start)
  if stop ≤ a then none else some (a, findFrom (fun x => ¬ p x) a (stop - a))

variable {p : ℕ → Prop} [DecidablePred p] {a b start stop : ℕ}

/-- The first place with the property, or the end. -/
theorem findFrom_spec (p : ℕ → Prop) [DecidablePred p] (a n : ℕ) :
    a ≤ findFrom p a n ∧ findFrom p a n ≤ a + n ∧ (∀ x, a ≤ x → x < findFrom p a n → ¬ p x) ∧
      (findFrom p a n < a + n → p (findFrom p a n)) := by
  induction n generalizing a with
  | zero =>
    exact ⟨le_rfl, le_rfl, fun x h1 h2 => absurd h2 (not_lt.mpr h1),
      fun h => absurd h (lt_irrefl a)⟩
  | succ n ih =>
    rw [findFrom]
    split
    case isTrue ha =>
      exact ⟨le_rfl, by omega, fun x h1 h2 => absurd h2 (not_lt.mpr h1), fun _ => ha⟩
    case isFalse ha =>
      obtain ⟨h1, h2, hnot, hp⟩ := ih (a + 1)
      refine ⟨by omega, by omega, fun x hx hlt => ?_, fun hlt => hp (by omega)⟩
      by_cases hxa : x = a
      · rwa [hxa]
      · exact hnot x (by omega) hlt

theorem nextRun_none (h : nextRun p stop start = none) {x : ℕ} (hx : start ≤ x) (hlt : x < stop) :
    ¬ p x := by
  simp only [nextRun] at h
  split at h
  case isTrue hle => exact (findFrom_spec p start (stop - start)).2.2.1 x hx (by omega)
  case isFalse => cases h

theorem nextRun_some (h : nextRun p stop start = some (a, b)) :
    (start ≤ a ∧ a < b ∧ b ≤ stop) ∧ (∀ x, start ≤ x → x < a → ¬ p x) ∧
      (∀ x, a ≤ x → x < b → p x) ∧ (b < stop → ¬ p b) := by
  simp only [nextRun] at h
  split at h
  case isTrue => cases h
  case isFalse hlt =>
    obtain ⟨h1, h2, hnot, hp⟩ := findFrom_spec p start (stop - start)
    cases h
    generalize findFrom p start (stop - start) = a at *
    obtain ⟨h3, h4, hall, hend⟩ := findFrom_spec (fun x => ¬ p x) a (stop - a)
    have ha := hp (by omega)
    refine ⟨⟨h1, lt_of_le_of_ne h3 fun heq => ?_, by omega⟩, hnot,
      fun x hx hlt => not_not.mp (hall x hx hlt), fun hlt => hend (by omega)⟩
    exact hend (by omega) (heq ▸ ha)

theorem count_run (hab : a ≤ b) (h : ∀ x, a ≤ x → x < b → p x) :
    Nat.count p b = Nat.count p a + (b - a) := by
  obtain ⟨n, rfl⟩ := Nat.exists_eq_add_of_le hab
  rw [Nat.count_add, Nat.add_sub_cancel_left]
  congr 1
  exact Nat.count_iff_forall.mpr fun x hx => h (a + x) (Nat.le_add_right a x) (by omega)

end VMsep.Lib
