import Mathlib.Data.List.Basic

/-! A singly linked list in a store: where it starts, the link of each node to the next one, and a
null value at its end. -/

namespace VMsep.Lib

open Function List

variable {α : Type*} {next next' : α → α} {null s e : α} {l m : List α}

/-- The links lead from `s` through the nodes `l` to `e`. -/
def Leads (next : α → α) (null : α) : α → List α → α → Prop
  | s, [], e => s = e
  | s, a :: l, e => s = a ∧ a ≠ null ∧ Leads next null (next a) l e

/-- The chain of nodes that starts at `s`. -/
def Follows (next : α → α) (null s : α) (l : List α) : Prop := Leads next null s l null

theorem leads_append :
    Leads next null s (l ++ m) e ↔ ∃ x, Leads next null s l x ∧ Leads next null x m e := by
  induction l generalizing s with
  | nil => simp [Leads]
  | cons _ _ ih =>
    simp only [cons_append, Leads, ih]
    constructor
    · rintro ⟨hs, ha, x, hl, hm⟩
      exact ⟨x, ⟨hs, ha, hl⟩, hm⟩
    · rintro ⟨x, ⟨hs, ha, hl⟩, hm⟩
      exact ⟨hs, ha, x, hl, hm⟩

theorem Leads.congr (h : Leads next null s l e) (heq : ∀ a ∈ l, next' a = next a) :
    Leads next' null s l e := by
  induction l generalizing s with
  | nil => exact h
  | cons a _ ih =>
    obtain ⟨hs, ha, hl⟩ := h
    refine ⟨hs, ha, ?_⟩
    rw [heq a mem_cons_self]
    exact ih hl fun b hb => heq b (mem_cons_of_mem _ hb)

theorem Follows.unique (hl : Follows next null s l) (hm : Follows next null s m) : l = m := by
  induction l generalizing s m with
  | nil =>
    cases m with
    | nil => rfl
    | cons =>
      obtain ⟨hs, hb, -⟩ := hm
      exact absurd (hs.symm.trans hl) hb
  | cons a _ ih =>
    obtain ⟨hs, ha, hl⟩ := hl
    cases m with
    | nil => exact absurd (hs.symm.trans hm) ha
    | cons b =>
      obtain ⟨hs', -, hm⟩ := hm
      obtain rfl : a = b := hs.symm.trans hs'
      rw [ih hl hm]

theorem Follows.nodup (h : Follows next null s l) : l.Nodup := by
  induction l generalizing s with
  | nil => exact nodup_nil
  | cons a _ ih =>
    obtain ⟨hs, ha, hl⟩ := h
    refine nodup_cons.mpr ⟨fun hmem => ?_, ih hl⟩
    obtain ⟨p, q, rfl⟩ := append_of_mem hmem
    obtain ⟨x, hp, hq⟩ := leads_append.mp hl
    obtain rfl : x = a := hq.1
    have hlong : Follows next null x (x :: (p ++ x :: q)) := ⟨rfl, ha, hl⟩
    have hsame := congrArg length (hlong.unique hq)
    simp at hsame
    omega

theorem Follows.next_mem (h : Follows next null s l) : ∀ a ∈ l, next a = null ∨ next a ∈ l := by
  induction l generalizing s with
  | nil => simp
  | cons a l ih =>
    obtain ⟨-, -, hl⟩ := h
    refine forall_mem_cons.mpr ⟨?_, fun b hb => ?_⟩
    · cases l with
      | nil => exact .inl hl
      | cons => exact .inr (by simp [hl.1])
    · exact (ih hl b hb).imp id (mem_cons_of_mem a)

variable [DecidableEq α]

theorem Follows.drop {x : α} (h : Follows next null s (l ++ x :: m)) :
    Follows (update next x null) null (next x) m := by
  have hnd := h.nodup
  obtain ⟨y, -, hy, -, hm⟩ := leads_append.mp h
  refine hm.congr fun a ha => update_of_ne ?_ _ _
  rintro rfl
  have := (nodup_append.mp hnd).2.1
  exact (nodup_cons.mp this).1 ha

theorem Follows.unlink {p x : α} {k : List α} (h : Follows next null s (l ++ p :: (k ++ x :: m))) :
    Follows (update (update next p (next x)) x null) null s (l ++ p :: m) := by
  have hnd := h.nodup
  obtain ⟨y, hl, rfl, hp, hrest⟩ := leads_append.mp h
  obtain ⟨z, -, -, -, hm⟩ := leads_append.mp hrest
  obtain ⟨-, hpk, hlp⟩ := nodup_append.mp hnd
  obtain ⟨hpk, hk⟩ := nodup_cons.mp hpk
  have hxm := (nodup_cons.mp (nodup_append.mp hk).2.1).1
  have hpx : y ≠ x := fun hyx => hpk (by simp [hyx])
  refine leads_append.mpr ⟨y, hl.congr fun a ha => ?_, rfl, hp, ?_⟩
  · have hax : a ≠ x := hlp a ha x (by simp)
    have hap : a ≠ y := hlp a ha y (by simp)
    rw [update_of_ne hax, update_of_ne hap]
  · rw [update_of_ne hpx, update_self]
    refine hm.congr fun a ha => ?_
    have hax : a ≠ x := by
      rintro rfl
      exact hxm ha
    have hap : a ≠ y := by
      rintro rfl
      exact hpk (by simp [ha])
    rw [update_of_ne hax, update_of_ne hap]

end VMsep.Lib
