import Mathlib.Data.List.Nodup
import Mathlib.Data.List.Perm.Basic

/-! A list whose elements have distinct keys consists of the element with a given key, if there is
one, and the others. Operations at two keys are followed on the two elements apart from the rest. -/

namespace VMsep.Lib.Keyed

open List Option

variable {α κ : Type*} (key : α → κ)

def Distinct (l : List α) : Prop := (l.map key).Nodup

section

variable {key} {l m : List α}

theorem Distinct.sublist (h : Distinct key l) (hsub : m.Sublist l) : Distinct key m :=
  List.Nodup.sublist (hsub.map key) h

theorem Distinct.perm (h : Distinct key l) (hperm : l.Perm m) : Distinct key m :=
  (hperm.map key).nodup_iff.mp h

end

variable [DecidableEq κ]

def found (k : κ) (l : List α) : Option α := l.find? fun a => key a = k

def others (k : κ) (l : List α) : List α := l.filter fun a => key a ≠ k

def replace (k : κ) (f : α → α) (l : List α) : List α := l.map fun a => if key a = k then f a else a

variable {key} {k k' : κ} {l m : List α} {a : α} {f : α → α}

theorem mem_others : a ∈ others key k l ↔ a ∈ l ∧ key a ≠ k := by
  simp [others]

theorem found_mem (h : found key k l = some a) : a ∈ l ∧ key a = k :=
  ⟨mem_of_find?_eq_some h, by simpa using find?_some h⟩

theorem Distinct.perm_found (h : Distinct key l) (k : κ) :
    l.Perm ((found key k l).toList ++ others key k l) := by
  induction l with
  | nil => exact .refl _
  | cons a l ih =>
    have hl : Distinct key l := h.sublist (sublist_cons_self a l)
    by_cases hk : key a = k
    · have hout : others key k (a :: l) = l := by
        have hnot : ∀ b ∈ l, key b ≠ k := by
          intro b hb hkb
          exact (nodup_cons.mp h).1 (mem_map.mpr ⟨b, hb, hkb.trans hk.symm⟩)
        have hself : others key k l = l := filter_eq_self.mpr (by simpa using hnot)
        simpa [others, hk] using hself
      have hin : found key k (a :: l) = some a := by simp [found, hk]
      rw [hout, hin]
      exact .refl _
    · have hout : others key k (a :: l) = a :: others key k l := by simp [others, hk]
      have hin : found key k (a :: l) = found key k l := by simp [found, hk]
      rw [hout, hin]
      exact ((ih hl).cons a).trans perm_middle.symm

theorem found_others (h : k' ≠ k) : found key k' (others key k l) = found key k' l := by
  induction l with
  | nil => rfl
  | cons a l ih =>
    by_cases hk : key a = k
    · have hne : key a ≠ k' := fun heq => h (heq.symm.trans hk)
      have hout : others key k (a :: l) = others key k l := by simp [others, hk]
      rw [hout, ih]
      simp [found, hne]
    · have hout : others key k (a :: l) = a :: others key k l := by simp [others, hk]
      rw [hout]
      by_cases hk' : key a = k'
      · simp [found, hk']
      · simpa [found, hk'] using ih

variable (key) in
structure Parts (k k' : κ) (l : List α) (x y : Option α) (rest : List α) : Prop where
  perm : l.Perm (x.toList ++ (y.toList ++ rest))
  fst : ∀ a ∈ x, key a = k
  snd : ∀ a ∈ y, key a = k'
  rest : ∀ a ∈ rest, key a ≠ k ∧ key a ≠ k'

theorem Distinct.parts (h : Distinct key l) (hne : k ≠ k') :
    Parts key k k' l (found key k l) (found key k' l) (others key k' (others key k l)) where
  perm := by
    refine (h.perm_found k).trans (List.Perm.append_left _ ?_)
    have hothers : Distinct key (others key k l) := h.sublist filter_sublist
    have hperm := hothers.perm_found k'
    rwa [found_others hne.symm] at hperm
  fst := fun _ ha => (found_mem ha).2
  snd := fun _ ha => (found_mem ha).2
  rest := by
    intro a ha
    obtain ⟨ha, hk'⟩ := mem_others.mp ha
    exact ⟨(mem_others.mp ha).2, hk'⟩

namespace Parts

variable {x y : Option α} {rest : List α}

theorem replace (h : Parts key k k' l x y rest) (hne : k ≠ k') (hf : ∀ a, key (f a) = key a) :
    Parts key k k' (Keyed.replace key k f l) (x.map f) y rest where
  perm := by
    have hx : x.toList.map (fun a => if key a = k then f a else a) = (x.map f).toList := by
      cases x with
      | none => rfl
      | some a => simp [h.fst a rfl]
    have hy : y.toList.map (fun a => if key a = k then f a else a) = y.toList := by
      cases y with
      | none => rfl
      | some a =>
        have hk : key a ≠ k := fun hk => hne (hk.symm.trans (h.snd a rfl))
        simp [hk]
    have hrest : rest.map (fun a => if key a = k then f a else a) = rest :=
      (map_congr_left fun a ha => if_neg (h.rest a ha).1).trans (map_id _)
    have hperm := h.perm.map fun a => if key a = k then f a else a
    rwa [map_append, map_append, hx, hy, hrest] at hperm
  fst := by
    intro b hb
    obtain ⟨a, ha, rfl⟩ := map_eq_some_iff.mp hb
    exact (hf a).trans (h.fst a ha)
  snd := h.snd
  rest := h.rest

theorem others (h : Parts key k k' l x y rest) (hne : k ≠ k') :
    Parts key k k' (others key k l) none y rest where
  perm := by
    have hx : x.toList.filter (fun a => key a ≠ k) = [] := by
      refine filter_eq_nil_iff.mpr fun a ha => ?_
      simpa using h.fst a (mem_toList.mp ha)
    have hy : y.toList.filter (fun a => key a ≠ k) = y.toList := by
      refine filter_eq_self.mpr fun a ha => ?_
      have hk : key a ≠ k := fun hk => hne (hk.symm.trans (h.snd a (mem_toList.mp ha)))
      simpa using hk
    have hrest : rest.filter (fun a => key a ≠ k) = rest :=
      filter_eq_self.mpr fun a ha => by simpa using (h.rest a ha).1
    have hperm := h.perm.filter fun a => key a ≠ k
    rwa [filter_append, filter_append, hx, hy, hrest] at hperm
  fst := by simp
  snd := h.snd
  rest := h.rest

omit [DecidableEq κ] in
theorem append (h : Parts key k k' l none y rest) (ha : key a = k) :
    Parts key k k' (l ++ [a]) (some a) y rest where
  perm := (perm_append_singleton a l).trans (h.perm.cons a)
  fst := by
    intro b hb
    cases hb
    exact ha
  snd := h.snd
  rest := h.rest

omit [DecidableEq κ] in
theorem distinct {x' y' : Option α} (h : Parts key k k' l x y rest) (hl : Distinct key l)
    (h' : Parts key k k' m x' y' rest) (hne : k ≠ k') : Distinct key m := by
  have hrest : Distinct key rest :=
    (hl.perm h.perm).sublist
      ((sublist_append_right _ rest).trans (sublist_append_right _ _))
  have hy : Distinct key (y'.toList ++ rest) := by
    cases y' with
    | none => exact hrest
    | some a =>
      refine nodup_cons.mpr ⟨?_, hrest⟩
      intro hmem
      obtain ⟨b, hb, hkey⟩ := mem_map.mp hmem
      exact (h.rest b hb).2 (hkey.trans (h'.snd a rfl))
  refine Distinct.perm ?_ h'.perm.symm
  cases hx : x' with
  | none => exact hy
  | some a =>
    have hka : key a = k := h'.fst a hx
    refine nodup_cons.mpr ⟨?_, hy⟩
    intro hmem
    obtain ⟨b, hb, hkey⟩ := mem_map.mp hmem
    have hb : b ∈ y'.toList ++ rest := hb
    rcases mem_append.mp hb with hb | hb
    · exact hne ((hkey.trans hka).symm.trans (h'.snd b (mem_toList.mp hb)))
    · exact (h.rest b hb).1 (hkey.trans hka)

end Parts

end VMsep.Lib.Keyed
