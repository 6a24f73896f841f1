import Mathlib.Data.List.Nodup

/-! Items that know the list they are on, and lists that hold exactly the items that say so, each
once. Moving an item removes it from its list and adds it to another one. -/

namespace VMsep.Lib

open Function

variable {α κ : Type*}

structure Listed (place : α → Option κ) (lists : κ → List α) : Prop where
  mem_iff : ∀ k a, a ∈ lists k ↔ place a = some k
  nodup : ∀ k, (lists k).Nodup

theorem Listed.congr {place place' : α → Option κ} {lists : κ → List α}
    (h : Listed place lists) (heq : ∀ b, place' b = place b) : Listed place' lists :=
  ⟨fun k b => by rw [h.mem_iff, heq], h.nodup⟩

variable [DecidableEq α] [DecidableEq κ]

def unlist (lists : κ → List α) (a : α) : Option κ → κ → List α
  | none => lists
  | some k => update lists k ((lists k).erase a)

def enlist (lists : κ → List α) (a : α) : Option κ → κ → List α
  | none => lists
  | some k => update lists k (lists k ++ [a])

/-- Move an item from the list `p` to the list `q`. -/
def relist (lists : κ → List α) (a : α) (p q : Option κ) : κ → List α :=
  if p = q then lists else enlist (unlist lists a p) a q

variable {place : α → Option κ} {lists : κ → List α} {a : α} {p q : Option κ} {k : κ}

theorem Listed.unlist (h : Listed place lists) :
    Listed (update place a none) (unlist lists a (place a)) := by
  cases hp : place a with
  | none =>
    refine h.congr fun b => ?_
    by_cases hb : b = a
    · subst hb
      rw [update_self, hp]
    · rw [update_of_ne hb]
  | some k =>
    constructor
    · intro m b
      by_cases hm : m = k
      · subst hm
        rw [Lib.unlist, update_self, (h.nodup m).mem_erase_iff, h.mem_iff]
        by_cases hb : b = a <;> simp [hb]
      · rw [Lib.unlist, update_of_ne hm, h.mem_iff]
        by_cases hb : b = a
        · subst hb
          simp [hp, Ne.symm hm]
        · rw [update_of_ne hb]
    · intro m
      by_cases hm : m = k
      · subst hm
        rw [Lib.unlist, update_self]
        exact (h.nodup m).erase a
      · rw [Lib.unlist, update_of_ne hm]
        exact h.nodup m

theorem Listed.enlist (h : Listed place lists) (hnone : place a = none) (q : Option κ) :
    Listed (update place a q) (enlist lists a q) := by
  cases q with
  | none =>
    refine h.congr fun b => ?_
    by_cases hb : b = a
    · subst hb
      rw [update_self, hnone]
    · rw [update_of_ne hb]
  | some k =>
    have hout : a ∉ lists k := by
      rw [h.mem_iff, hnone]
      simp
    constructor
    · intro m b
      by_cases hm : m = k
      · subst hm
        rw [Lib.enlist, update_self, List.mem_append, List.mem_singleton, h.mem_iff]
        by_cases hb : b = a <;> simp [hb]
      · rw [Lib.enlist, update_of_ne hm, h.mem_iff]
        by_cases hb : b = a
        · subst hb
          simp [hnone, Ne.symm hm]
        · rw [update_of_ne hb]
    · intro m
      by_cases hm : m = k
      · subst hm
        rw [Lib.enlist, update_self]
        exact List.concat_eq_append ▸ (h.nodup m).concat hout
      · rw [Lib.enlist, update_of_ne hm]
        exact h.nodup m

def push (lists : κ → List α) (a : α) (k : κ) : κ → List α :=
  update lists k (a :: lists k)

theorem Listed.push (h : Listed place lists) (hnone : place a = none) (k : κ) :
    Listed (update place a (some k)) (push lists a k) := by
  have hout : ∀ m, a ∉ lists m := fun m => by
    rw [h.mem_iff, hnone]
    simp
  constructor
  · intro m b
    by_cases hm : m = k
    · subst hm
      rw [Lib.push, update_self, List.mem_cons, h.mem_iff]
      by_cases hb : b = a <;> simp [hb]
    · rw [Lib.push, update_of_ne hm, h.mem_iff]
      by_cases hb : b = a
      · subst hb
        simp [hnone, Ne.symm hm]
      · rw [update_of_ne hb]
  · intro m
    by_cases hm : m = k
    · subst hm
      rw [Lib.push, update_self]
      exact (h.nodup m).cons (hout m)
    · rw [Lib.push, update_of_ne hm]
      exact h.nodup m

theorem Listed.relist (h : Listed place lists) (a : α) (q : Option κ) :
    Listed (update place a q) (relist lists a (place a) q) := by
  unfold Lib.relist
  split_ifs with hpq
  · rw [← hpq, update_eq_self]
    exact h
  · have h1 := (h.unlist (a := a)).enlist (update_self a none place) q
    rwa [update_idem] at h1

theorem relist_of_ne (hp : p ≠ some k) (hq : q ≠ some k) : relist lists a p q k = lists k := by
  have hun : unlist lists a p k = lists k := by
    cases p with
    | none => rfl
    | some i =>
      have hik : k ≠ i := fun h => hp (congrArg some h.symm)
      exact update_of_ne hik _ _
  unfold relist
  split_ifs
  · rfl
  cases q with
  | none => exact hun
  | some m =>
    have hmk : k ≠ m := fun h => hq (congrArg some h.symm)
    exact (update_of_ne hmk _ _).trans hun

theorem relist_leave (hq : q ≠ some k) : relist lists a (some k) q k = (lists k).erase a := by
  unfold relist
  rw [if_neg (Ne.symm hq)]
  cases q with
  | none => exact update_self _ _ _
  | some m =>
    have hmk : k ≠ m := fun h => hq (congrArg some h.symm)
    exact (update_of_ne hmk _ _).trans (update_self _ _ _)

theorem relist_enter (hp : p ≠ some k) : relist lists a p (some k) k = lists k ++ [a] := by
  unfold relist
  rw [if_neg hp]
  refine (update_self _ _ _).trans ?_
  cases p with
  | none => rfl
  | some m =>
    have hmk : k ≠ m := fun h => hp (congrArg some h.symm)
    exact congrArg (· ++ [a]) (update_of_ne hmk _ _)

end VMsep.Lib
