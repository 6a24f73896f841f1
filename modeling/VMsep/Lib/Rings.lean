import VMsep.Lib.Filing
import Mathlib.Data.List.Chain

/-! The members of a ring point to the next and to the previous one, in the order of a list. A
family of rings has a pointer to the first member of each; a member can be unlinked from its ring,
and a new one linked in before the first. -/

namespace VMsep.Lib

open Function List

variable {α κ : Type*} {next prev next' prev' : α → Option α} {l : List α}

def Linked (next prev : α → Option α) (x y : α) : Prop := next x = some y ∧ prev y = some x

def Ring (next prev : α → Option α) : List α → Prop
  | [] => True
  | a :: l => (a :: l ++ [a]).IsChain (Linked next prev)

theorem chain_congr (h : l.IsChain (Linked next prev)) (hnext : ∀ x ∈ l.dropLast, next' x = next x)
    (hprev : ∀ x ∈ l.tail, prev' x = prev x) : l.IsChain (Linked next' prev') := by
  induction l with
  | nil => exact .nil
  | cons a l ih =>
    cases l with
    | nil => exact .singleton a
    | cons b =>
      rw [isChain_cons_cons] at h ⊢
      have ha := hnext a (by simp)
      have hb := hprev b (by simp)
      refine ⟨⟨ha.trans h.1.1, hb.trans h.1.2⟩, ih h.2 (fun x hx => hnext x ?_) fun x hx => ?_⟩
      · rw [dropLast_cons_cons]
        exact mem_cons_of_mem _ hx
      · exact hprev x (mem_cons_of_mem _ hx)

theorem Ring.congr (h : Ring next prev l) (hnext : ∀ x ∈ l, next' x = next x)
    (hprev : ∀ x ∈ l, prev' x = prev x) : Ring next' prev' l := by
  cases l with
  | nil => trivial
  | cons =>
    refine chain_congr h (fun x hx => hnext x ?_) fun x hx => hprev x ?_
    · rwa [dropLast_concat] at hx
    rw [cons_append, tail_cons] at hx
    simp only [mem_append, mem_singleton] at hx
    rcases hx with hx | rfl
    · exact mem_cons_of_mem _ hx
    · exact mem_cons_self

/-- A ring has no distinguished first node. -/
theorem Ring.rotate {p q : List α} (h : Ring next prev (p ++ q)) : Ring next prev (q ++ p) := by
  cases p with
  | nil => rwa [append_nil]
  | cons a p =>
    cases q with
    | nil => rwa [append_nil] at h
    | cons b q =>
      have h' : ((a :: p) ++ b :: (q ++ [a])).IsChain (Linked next prev) := by
        simpa [Ring] using h
      have hgoal : ((b :: q) ++ a :: (p ++ [b])).IsChain (Linked next prev) := by
        rw [isChain_split] at h' ⊢
        exact ⟨h'.2, h'.1⟩
      simpa [Ring] using hgoal

theorem Ring.last {a : α} (h : Ring next prev (a :: l)) :
    ∃ p z, a :: l = p ++ [z] ∧ next z = some a ∧ prev a = some z := by
  obtain ⟨p, z, hpz⟩ := eq_nil_or_concat (a :: l) |>.resolve_left (by simp)
  refine ⟨p, z, by rw [hpz, concat_eq_append], ?_⟩
  have h' : ((a :: l) ++ [a]).IsChain (Linked next prev) := h
  rw [hpz, concat_eq_append, append_assoc, singleton_append, isChain_append_cons_cons] at h'
  exact h'.2.1

variable [DecidableEq α]

theorem Ring.link {a x z : α} (h : Ring next prev (a :: l)) (hl : (a :: l).Nodup) (hx : x ∉ a :: l)
    (hz : prev a = some z) : Ring (update (update next x (some a)) z (some x))
      (update (update prev x (some z)) a (some x)) (a :: l ++ [x]) := by
  obtain ⟨p, z', hp, -, hz'⟩ := h.last
  obtain rfl : z = z' := Option.some.inj (hz.symm.trans hz')
  have hzmem : z ∈ a :: l := by rw [hp]; simp
  have hzx : z ≠ x := fun heq => hx (heq ▸ hzmem)
  have hax : a ≠ x := fun heq => hx (heq ▸ mem_cons_self)
  have hchain : (a :: l).IsChain (Linked next prev) := List.IsChain.left_of_append h
  have hnew : (a :: l).IsChain
      (Linked (update (update next x (some a)) z (some x))
        (update (update prev x (some z)) a (some x))) := by
    refine chain_congr hchain (fun y hy => ?_) fun y hy => ?_
    · have hyp : y ∈ p := by rwa [hp, dropLast_concat] at hy
      have hyz : y ≠ z := by
        rintro rfl
        rw [hp] at hl
        exact (nodup_append.mp hl).2.2 y hyp y (by simp) rfl
      have hyx : y ≠ x := by
        rintro rfl
        exact hx (by rw [hp]; exact mem_append_left _ hyp)
      rw [update_of_ne hyz, update_of_ne hyx]
    · have hya : y ≠ a := fun heq => (nodup_cons.mp hl).1 (heq ▸ hy)
      have hyx : y ≠ x := fun heq => hx (heq ▸ mem_cons_of_mem _ hy)
      rw [update_of_ne hya, update_of_ne hyx]
  change ((a :: l ++ [x]) ++ [a]).IsChain _
  rw [hp] at hnew ⊢
  rw [append_assoc, append_assoc, singleton_append, singleton_append,
    isChain_append_cons_cons, isChain_cons_cons]
  refine ⟨hnew, ⟨?_, ?_⟩, ⟨?_, ?_⟩, .singleton a⟩
  · exact update_self _ _ _
  · rw [update_of_ne hax.symm, update_self]
  · rw [update_of_ne hzx.symm, update_self]
  · exact update_self _ _ _

theorem Ring.unlink {x : α} {p q : List α} (h : Ring next prev (p ++ x :: q))
    (hl : (p ++ x :: q).Nodup) :
    ∃ n z, next x = some n ∧ prev x = some z ∧ z ∈ p ++ x :: q ∧ n ∈ p ++ x :: q ∧
      (p = [] → n = (q.head?).getD x) ∧
      Ring (update next z (some n)) (update prev n (some z)) (p ++ q) := by
  have hrot : Ring next prev (x :: (q ++ p)) := h.rotate
  have hperm : ∀ y, y ∈ x :: (q ++ p) ↔ y ∈ p ++ x :: q := by
    intro y
    simp only [mem_cons, mem_append]
    tauto
  have hnodup : (x :: (q ++ p)).Nodup := by
    refine (List.Perm.nodup_iff ?_).mp hl
    exact perm_append_comm
  obtain ⟨p', z, hp', hnz, hz⟩ := hrot.last
  have hzmem : z ∈ x :: (q ++ p) := by rw [hp']; simp
  cases hr : q ++ p with
  | nil =>
    -- the only node points to itself
    obtain ⟨rfl, rfl⟩ := append_eq_nil_iff.mp hr
    obtain rfl : z = x := by simpa using hzmem
    exact ⟨z, z, hnz, hz, by simp, by simp, fun _ => rfl, trivial⟩
  | cons b r =>
    rw [hr] at hrot hp' hnodup hzmem hperm
    have hchain : (x :: b :: (r ++ [x])).IsChain (Linked next prev) := by simpa [Ring] using hrot
    obtain ⟨hxb, hrest⟩ := isChain_cons_cons.mp hchain
    refine ⟨b, z, hxb.1, hz, (hperm z).mp hzmem, (hperm b).mp (by simp), ?_, ?_⟩
    · rintro rfl
      rw [append_nil] at hr
      rw [hr]
      rfl
    · refine Ring.rotate ?_
      rw [hr]
      -- `z` is the last of the rest
      cases p' with
      | nil => simp at hp'
      | cons _ p' =>
        obtain ⟨rfl, htail⟩ := cons.inj hp'
        have hrest' : b :: r = p' ++ [z] := htail
        have hbr : (b :: r).IsChain (Linked next prev) := by
          have : ((b :: r) ++ [x]).IsChain (Linked next prev) := hrest
          exact List.IsChain.left_of_append this
        have hnd : (b :: r).Nodup := (nodup_cons.mp hnodup).2
        have hnew : (b :: r).IsChain
            (Linked (update next z (some b)) (update prev b (some z))) := by
          refine chain_congr hbr (fun y hy => ?_) fun y hy => ?_
          · refine update_of_ne ?_ _ _
            rintro rfl
            rw [hrest'] at hy hnd
            rw [dropLast_concat] at hy
            exact (nodup_append.mp hnd).2.2 y hy y (by simp) rfl
          · refine update_of_ne ?_ _ _
            rintro rfl
            exact (nodup_cons.mp hnd).1 hy
        change ((b :: r) ++ [b]).IsChain _
        rw [hrest'] at hnew ⊢
        rw [append_assoc, singleton_append, isChain_append_cons_cons]
        exact ⟨hnew, ⟨update_self _ _ _, update_self _ _ _⟩, .singleton b⟩

structure Rings (next prev : α → Option α) (head : κ → Option α) (lists : κ → List α) : Prop where
  heads : ∀ k, head k = (lists k).head?
  rings : ∀ k, Ring next prev (lists k)

namespace Rings

variable [DecidableEq κ] {head : κ → Option α} {lists : κ → List α} {place : α → Option κ} {k : κ}
  {b : α}

omit [DecidableEq α] [DecidableEq κ] in
theorem frame (hr : Rings next prev head lists) (hl : Listed place lists) {m : κ} (hm : m ≠ k)
    {S : α → Prop} (hS : ∀ x, S x → place x = some k ∨ place x = none)
    (hnext : ∀ x, ¬ S x → next' x = next x) (hprev : ∀ x, ¬ S x → prev' x = prev x) :
    Ring next' prev' (lists m) := by
  have hout : ∀ x ∈ lists m, ¬ S x := by
    intro x hx hSx
    rw [hl.mem_iff] at hx
    rcases hS x hSx with h | h
    · rw [h] at hx
      exact hm (Option.some.inj hx).symm
    · rw [h] at hx
      cases hx
  exact (hr.rings m).congr (fun x hx => hnext x (hout x hx)) fun x hx => hprev x (hout x hx)

omit [DecidableEq κ] in
theorem detached (hr : Rings next prev head lists) (hl : Listed place lists) (hb : place b = none)
    (n z : Option α) : Rings (update next b n) (update prev b z) head lists := by
  refine ⟨hr.heads, fun k => (hr.rings k).congr ?_ ?_⟩
  · intro x hx
    have hne : x ≠ b := by
      rintro rfl
      rw [hl.mem_iff, hb] at hx
      cases hx
    exact update_of_ne hne _ _
  · intro x hx
    have hne : x ≠ b := by
      rintro rfl
      rw [hl.mem_iff, hb] at hx
      cases hx
    exact update_of_ne hne _ _

theorem unlink (hr : Rings next prev head lists) (hl : Listed place lists) (hb : place b = some k) :
    ∃ n z, next b = some n ∧ prev b = some z ∧
      Rings (update next z (some n)) (update prev n (some z))
        (if head k = some b then update head k (if n = b then none else some n) else head)
        (unlist lists b (some k)) := by
  obtain ⟨p, q, hbp, hpq, herase⟩ := exists_erase_eq ((hl.mem_iff k b).mpr hb)
  have hring := hr.rings k
  have hnd := hl.nodup k
  have hmem : ∀ x ∈ p ++ b :: q, place x = some k := fun x hx => by
    rw [← hpq] at hx
    exact (hl.mem_iff k x).mp hx
  rw [hpq] at hring hnd
  obtain ⟨n, z, hn, hz, hzmem, hnmem, hfirst, hnew⟩ := hring.unlink hnd
  refine ⟨n, z, hn, hz, fun m => ?_, fun m => ?_⟩
  · by_cases hm : m = k
    · subst hm
      rw [Lib.unlist, update_self, herase, hr.heads m, hpq]
      cases p with
      | nil =>
        rw [nil_append, nil_append, head?_cons, if_pos rfl, update_self, hfirst rfl]
        cases q with
        | nil => simp
        | cons c =>
          have hcb : c ≠ b := by
            rintro rfl
            simp at hnd
          simp [hcb]
      | cons a =>
        have hab : ¬ (some a = some b) := by
          simp only [Option.some.injEq]
          rintro rfl
          exact hbp mem_cons_self
        rw [cons_append, head?_cons, if_neg hab, hr.heads m, hpq]
        rfl
    · rw [Lib.unlist, update_of_ne hm, ← hr.heads m]
      by_cases hfront : head k = some b
      · rw [if_pos hfront, update_of_ne hm]
      · rw [if_neg hfront]
  · by_cases hm : m = k
    · subst hm
      rw [Lib.unlist, update_self, herase]
      exact hnew
    · rw [Lib.unlist, update_of_ne hm]
      refine hr.frame hl hm (S := fun x => x = z ∨ x = n) ?_ (fun x hx => ?_) fun x hx => ?_
      · rintro x (rfl | rfl)
        · exact .inl (hmem x hzmem)
        · exact .inl (hmem x hnmem)
      · exact update_of_ne (fun h => hx (.inl h)) _ _
      · exact update_of_ne (fun h => hx (.inr h)) _ _

theorem linkFirst (hr : Rings next prev head lists) (hl : Listed place lists) (hb : place b = none)
    (hk : head k = none) : lists k = [] ∧ Rings (update next b (some b)) (update prev b (some b))
      (update head k (some b)) (update lists k [b]) := by
  have hnil : lists k = [] := by
    rw [hr.heads k] at hk
    exact head?_eq_none_iff.mp hk
  refine ⟨hnil, fun m => ?_, fun m => ?_⟩
  · by_cases hm : m = k
    · subst hm
      rw [update_self, update_self]
      rfl
    · rw [update_of_ne hm, update_of_ne hm, hr.heads m]
  · by_cases hm : m = k
    · subst hm
      rw [update_self]
      exact isChain_pair.mpr ⟨update_self _ _ _, update_self _ _ _⟩
    · rw [update_of_ne hm]
      refine hr.frame hl hm (S := fun x => x = b) (fun x hx => .inr (hx ▸ hb)) (fun x hx => ?_)
        fun x hx => ?_
      · exact update_of_ne hx _ _
      · exact update_of_ne hx _ _

theorem linkNext (hr : Rings next prev head lists) (hl : Listed place lists) {a : α}
    (hb : place b = none) (hk : head k = some a) : ∃ z, prev a = some z ∧
      Rings (update (update next b (some a)) z (some b))
        (update (update prev b (some z)) a (some b)) head (enlist lists b (some k)) ∧
      Rings (update (update next b (some a)) z (some b))
        (update (update prev b (some z)) a (some b)) (update head k (some b)) (push lists b k) := by
  have hbk : ∀ m, b ∉ lists m := fun m hm => by
    rw [hl.mem_iff, hb] at hm
    cases hm
  obtain ⟨l, hlk⟩ : ∃ l, lists k = a :: l := by
    rw [hr.heads k] at hk
    exact head?_eq_some_iff.mp hk
  have hring := hr.rings k
  have hnd := hl.nodup k
  have hout := hbk k
  rw [hlk] at hring hnd hout
  obtain ⟨p, z, hp, -, hz⟩ := hring.last
  have hzmem : z ∈ lists k := by
    rw [hlk, hp]
    simp
  have hlink := hring.link hnd hout hz
  have hothers : ∀ m, m ≠ k →
      Ring (update (update next b (some a)) z (some b))
        (update (update prev b (some z)) a (some b)) (lists m) := by
    intro m hm
    refine hr.frame hl hm (S := fun x => x = b ∨ x = z ∨ x = a) ?_ (fun x hx => ?_) fun x hx => ?_
    · rintro x (rfl | rfl | rfl)
      · exact .inr hb
      · exact .inl ((hl.mem_iff k x).mp hzmem)
      · exact .inl ((hl.mem_iff k x).mp (by rw [hlk]; exact mem_cons_self))
    · rw [update_of_ne fun h => hx (.inr (.inl h)), update_of_ne fun h => hx (.inl h)]
    · rw [update_of_ne fun h => hx (.inr (.inr h)), update_of_ne fun h => hx (.inl h)]
  refine ⟨z, hz, ⟨fun m => ?_, fun m => ?_⟩, fun m => ?_, fun m => ?_⟩
  · by_cases hm : m = k
    · subst hm
      rw [Lib.enlist, update_self, hlk, hk]
      rfl
    · rw [Lib.enlist, update_of_ne hm, hr.heads m]
  · by_cases hm : m = k
    · subst hm
      rw [Lib.enlist, update_self, hlk]
      exact hlink
    · rw [Lib.enlist, update_of_ne hm]
      exact hothers m hm
  · by_cases hm : m = k
    · subst hm
      rw [Lib.push, update_self, update_self]
      rfl
    · rw [Lib.push, update_of_ne hm, update_of_ne hm, hr.heads m]
  · by_cases hm : m = k
    · subst hm
      rw [Lib.push, update_self, hlk]
      exact hlink.rotate
    · rw [Lib.push, update_of_ne hm]
      exact hothers m hm

end Rings

end VMsep.Lib
