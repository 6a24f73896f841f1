import Mathlib.Data.List.DropRight

/-! A walk stands on an item of a list and looks for the next one with some property. Items may be
taken off the list while it stands there, but not the one it stands on. -/

namespace VMsep.Lib

open List

variable {α : Type*} [DecidableEq α]

def ahead (l : List α) : Option α → List α
  | none => l
  | some c => (l.dropWhile (· ≠ c)).tail

def todo (l : List α) : Option α → List α
  | none => l
  | some c => l.dropWhile (· ≠ c)

def advance (p : α → Bool) (l : List α) (c : Option α) : Option α := (ahead l c).find? p

variable {p : α → Bool} {l : List α} {c : Option α} {d x : α}

theorem dropWhile_eq_cons (hd : d ∈ l) : l.dropWhile (· ≠ d) = d :: (l.dropWhile (· ≠ d)).tail := by
  induction l with
  | nil => cases hd
  | cons y _ ih =>
    by_cases hy : y = d
    · simp [hy]
    have hd' := (mem_cons.mp hd).resolve_left (Ne.symm hy)
    rw [dropWhile_cons_of_pos (by simpa using hy)]
    exact ih hd'

theorem mem_todo (hx : x ∈ todo l c) : c = some x ∨ x ∈ ahead l c := by
  cases c with
  | none => exact .inr hx
  | some d =>
    by_cases hd : d ∈ l
    · rw [todo, dropWhile_eq_cons hd, mem_cons] at hx
      exact hx.imp (congrArg some ·.symm) id
    have hnil : l.dropWhile (· ≠ d) = [] :=
      dropWhile_eq_nil_iff.mpr fun y hy => by
        simp only [ne_eq, decide_not, Bool.not_eq_true', decide_eq_false_iff_not]
        rintro rfl
        exact hd hy
    rw [todo, hnil] at hx
    cases hx

theorem ahead_sublist (l : List α) (c : Option α) : (ahead l c).Sublist l := by
  cases c with
  | none => exact List.Sublist.refl l
  | some => exact (tail_sublist _).trans (dropWhile_sublist _)

theorem mem_of_advance (h : advance p l c = some d) : d ∈ l ∧ p d = true :=
  ⟨(ahead_sublist l c).subset (mem_of_find?_eq_some h), find?_some h⟩

theorem not_of_advance_none (h : advance p l c = none) (hx : x ∈ ahead l c) : p x = false := by
  simpa using find?_eq_none.mp h x hx

theorem mem_todo_of_advance (hl : l.Nodup) (h : advance p l c = some d) (hx : x ∈ ahead l c)
    (hp : p x = true) : x ∈ todo l (some d) := by
  obtain ⟨-, as, bs, heq, has⟩ := find?_eq_some_iff_append.mp h
  have hsuf : ahead l c <:+ l := by
    cases c with
    | none => exact suffix_refl l
    | some => exact (tail_suffix _).trans (dropWhile_suffix _)
  obtain ⟨pre, hpre⟩ := hsuf
  have hxd : x ∈ d :: bs := by
    rw [heq, mem_append] at hx
    exact hx.resolve_left fun hxa => absurd hp (by simpa using has x hxa)
  rw [heq, ← append_assoc] at hpre
  have hd : ∀ y ∈ pre ++ as, y ≠ d := by
    rintro y hy rfl
    rw [← hpre, nodup_append] at hl
    exact hl.2.2 y hy y mem_cons_self rfl
  have hdrop : l.dropWhile (· ≠ d) = d :: bs := by
    rw [← hpre, dropWhile_append_of_pos fun y hy => by simpa using hd y hy]
    simp
  rw [todo, hdrop]
  exact hxd

theorem mem_todo_erase {y : α} (hx : x ∈ todo l c) (hxy : x ≠ y) (hc : c ≠ some y) :
    x ∈ todo (l.erase y) c := by
  cases c with
  | none => exact (mem_erase_of_ne hxy).mpr hx
  | some d =>
    have hdy : d ≠ y := fun h => hc (congrArg some h)
    simp only [todo] at hx ⊢
    induction l with
    | nil => cases hx
    | cons z _ ih =>
      by_cases hzy : z = y
      · subst hzy
        rw [dropWhile_cons_of_pos (by simpa using Ne.symm hdy)] at hx
        rwa [erase_cons_head]
      · rw [erase_cons_tail (by simpa using hzy)]
        by_cases hzd : z = d
        · subst hzd
          rw [dropWhile_cons_of_neg (by simp)] at hx ⊢
          rw [mem_cons] at hx ⊢
          exact hx.imp id (mem_erase_of_ne hxy).mpr
        · rw [dropWhile_cons_of_pos (by simpa using hzd)] at hx ⊢
          exact ih hx

end VMsep.Lib
