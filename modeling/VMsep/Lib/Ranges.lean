import Mathlib.Data.Nat.Notation

/-! A range has a first number, a length and a value for each of its numbers. A list of ranges is
the partial map of its first match; the lists that occur are in order, so that there is one match.
-/

namespace VMsep.Lib

open List

structure Ranges (ρ β : Type*) where
  start : ρ → ℕ
  len : ρ → ℕ
  value : ρ → ℕ → β

namespace Ranges

variable {ρ β : Type*} (V : Ranges ρ β) {x : ℕ} {l : List ρ}

def stop (r : ρ) : ℕ := V.start r + V.len r

def covers (r : ρ) (x : ℕ) : Bool := decide (V.start r ≤ x) && decide (x < V.stop r)

theorem covers_iff {r : ρ} : V.covers r x = true ↔ V.start r ≤ x ∧ x < V.stop r := by
  simp [covers]

def map (l : List ρ) (x : ℕ) : Option β := (l.find? (V.covers · x)).map (V.value · x)

@[simp]
theorem map_nil (x : ℕ) : V.map [] x = none := rfl

theorem map_cons (r : ρ) (l : List ρ) (x : ℕ) :
    V.map (r :: l) x = if V.covers r x then some (V.value r x) else V.map l x := by
  unfold map
  rw [find?_cons]
  cases V.covers r x <;> rfl

theorem map_append (l m : List ρ) (x : ℕ) : V.map (l ++ m) x = (V.map l x).or (V.map m x) := by
  unfold map
  rw [find?_append]
  cases l.find? (V.covers · x) <;> rfl

theorem map_eq_none (h : ∀ r ∈ l, V.covers r x = false) : V.map l x = none := by
  unfold map
  rw [Option.map_eq_none_iff, find?_eq_none]
  intro r hr
  simp [h r hr]

theorem map_eq_some {v : β} (h : V.map l x = some v) :
    ∃ r ∈ l, V.covers r x = true ∧ v = V.value r x := by
  obtain ⟨r, hr, rfl⟩ := Option.map_eq_some_iff.mp h
  exact ⟨r, mem_of_find?_eq_some hr, by simpa using find?_some hr, rfl⟩

def Before (a b : ρ) : Prop := V.stop a ≤ V.start b

structure Ordered (l : List ρ) : Prop where
  pos : ∀ r ∈ l, 0 < V.len r
  before : l.Pairwise V.Before

variable {V} {m k k' l' : List ρ} {n : ℕ} {r : ρ}

theorem Ordered.nil : V.Ordered ([] : List ρ) := ⟨by simp, .nil⟩

theorem Ordered.sublist (h : V.Ordered l) (hsub : m.Sublist l) : V.Ordered m :=
  ⟨fun r hr => h.pos r (hsub.subset hr), h.before.sublist hsub⟩

theorem Before.not_covers {a b : ρ} (h : V.Before a b) (hb : V.covers b x = true) :
    V.covers a x = false := by
  rw [← Bool.not_eq_true, V.covers_iff]
  rw [V.covers_iff] at hb
  unfold Before at h
  omega

theorem Ordered.map_of_mem (h : V.Ordered l) (hr : r ∈ l) (hx : V.covers r x = true) :
    V.map l x = some (V.value r x) := by
  induction l with
  | nil => cases hr
  | cons a l ih =>
    rw [V.map_cons]
    rcases mem_cons.mp hr with rfl | hr
    · rw [if_pos hx]
    have hab := (pairwise_cons.mp h.before).1 r hr
    rw [if_neg (by simp [hab.not_covers hx])]
    exact ih (h.sublist (sublist_cons_self a l)) hr

theorem map_insert (hl : ∀ a ∈ l, V.Before a r) (x : ℕ) :
    V.map (l ++ r :: m) x = if V.covers r x then some (V.value r x) else V.map (l ++ m) x := by
  rw [V.map_append, V.map_append, V.map_cons]
  by_cases hx : V.covers r x = true
  · rw [V.map_eq_none fun a ha => (hl a ha).not_covers hx, if_pos hx, if_pos hx]
    rfl
  · rw [if_neg hx, if_neg hx]

theorem map_congr (h : V.map k x = V.map k' x) :
    V.map (l ++ k ++ m) x = V.map (l ++ k' ++ m) x := by
  simp only [V.map_append, h]

theorem Ordered.replace (h : V.Ordered (l ++ k ++ m)) (hk : V.Ordered k')
    (hleft : ∀ a ∈ l, ∀ b ∈ k', V.Before a b) (hright : ∀ a ∈ k', ∀ b ∈ m, V.Before a b) :
    V.Ordered (l ++ k' ++ m) := by
  have hrest : V.Ordered (l ++ m) := by
    refine h.sublist ?_
    rw [append_assoc]
    exact (sublist_append_right k m).append_left l
  obtain ⟨hl, hm, hlm⟩ := pairwise_append.mp hrest.before
  refine ⟨?_, ?_⟩
  · intro r hr
    simp only [mem_append] at hr
    rcases hr with (hr | hr) | hr
    · exact hrest.pos r (mem_append_left _ hr)
    · exact hk.pos r hr
    · exact hrest.pos r (mem_append_right _ hr)
  · refine pairwise_append.mpr ⟨pairwise_append.mpr ⟨hl, hk.before, hleft⟩, hm, ?_⟩
    intro a ha b hb
    rcases mem_append.mp ha with ha | ha
    · exact hlm a ha b hb
    · exact hright a ha b hb

structure Same (V : Ranges ρ β) (l l' : List ρ) : Prop where
  left : V.Ordered l
  right : V.Ordered l'
  map : ∀ x, V.map l x = V.map l' x

theorem Ordered.same (h : V.Ordered l) : V.Same l l := ⟨h, h, fun _ => rfl⟩

theorem Same.covered (h : V.Same l l') (hr : r ∈ l) (hx : V.covers r x = true) :
    ∃ r' ∈ l', V.covers r' x = true := by
  have hsome := h.left.map_of_mem hr hx
  rw [h.map x] at hsome
  obtain ⟨r', hr', hx', -⟩ := V.map_eq_some hsome
  exact ⟨r', hr', hx'⟩

theorem Same.le_start (h : V.Same l l') (hn : ∀ r ∈ l', n ≤ V.start r) :
    ∀ r ∈ l, n ≤ V.start r := by
  intro r hr
  have hpos := h.left.pos r hr
  obtain ⟨r', hr', hx⟩ := h.covered hr (V.covers_iff.mpr ⟨Nat.le_refl _, by unfold stop; omega⟩)
  exact Nat.le_trans (hn r' hr') (V.covers_iff.mp hx).1

theorem Same.stop_le (h : V.Same l l') (hn : ∀ r ∈ l', V.stop r ≤ n) : ∀ r ∈ l, V.stop r ≤ n := by
  intro r hr
  have hpos := h.left.pos r hr
  have hcov : V.covers r (V.stop r - 1) = true := by
    rw [V.covers_iff]
    unfold stop
    omega
  obtain ⟨r', hr', hx⟩ := h.covered hr hcov
  have h1 := (V.covers_iff.mp hx).2
  have h2 := hn r' hr'
  omega

theorem Same.context {p q : List ρ} (h : V.Same l l') (ho : V.Ordered (p ++ l' ++ q)) :
    V.Same (p ++ l ++ q) (p ++ l' ++ q) := by
  refine ⟨ho.replace h.left (fun a ha => ?_) (fun b hb c hc => ?_), ho, fun x => ?_⟩
  · refine h.le_start fun b hb => ?_
    rw [append_assoc] at ho
    exact (pairwise_append.mp ho.before).2.2 a ha b (mem_append_left q hb)
  · refine h.stop_le (fun b hb => ?_) b hb
    exact (pairwise_append.mp ho.before).2.2 b (mem_append_right p hb) c hc
  · exact map_congr (h.map x)

end Ranges

end VMsep.Lib
