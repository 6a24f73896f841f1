import VMsep.Ext4.XattrSet

/-! `ext4_xattr_set_entry` behind `ext4_xattr_find_entry` updates the map that a reader of the area
sees, or has no space and changes nothing. -/

namespace VMsep.Ext4.Xattr

open VMsep.Lib VMsep.Lib.Block List Entry

/-- The search for a name goes no further. -/
def Halts (sorted : Bool) (k a : NameKey) : Prop := k ≤ a ∧ (sorted = true ∨ k = a)

instance (sorted : Bool) (k a : NameKey) : Decidable (Halts sorted k a) :=
  inferInstanceAs (Decidable (_ ∧ _))

/-- What a reader finds in a list of names and values. -/
def lookup (sorted : Bool) (k : NameKey) (l : List (NameKey × List (BitVec 8))) :
    Option (List (BitVec 8)) :=
  (l.find? fun a => Halts sorted k a.1).bind fun a => if a.1 = k then some a.2 else none

/-- Behind the place of a name there is no other entry of it: in a block the next name is a greater
one. -/
def Behind (sorted : Bool) (k : NameKey) (l : List NameKey) : Prop :=
  if sorted = true then ∀ a ∈ l.head?, k < a else k ∉ l

/-- The place that the search for a name finds. -/
structure Placed (A : Area) (k : NameKey) (es₁ old es₂ : List Entry) (notFound : Bool) : Prop where
  before : ∀ e ∈ es₁, ¬ Halts A.isBlock k e.key
  here : (notFound = false ∧ ∃ e, old = [e] ∧ e.key = k) ∨
    (notFound = true ∧ old = [] ∧ Behind A.isBlock k (es₂.map Entry.key) ∧
      (A.isBlock = false → es₂ = []))

/-- The list has the named attribute, in the entry `e`. -/
structure Names (A : Area) (i : Info) (es es₁ : List Entry) (e : Entry) (es₂ : List Entry) :
    Prop where
  split : es = es₁ ++ e :: es₂
  before : ∀ f ∈ es₁, ¬ Halts A.isBlock i.key f.key
  key : e.key = i.key

/-- The offset of an entry with an empty value is zero or lies among the values, unless there is no
space for the new value. -/
def OffsetFits (A : Area) (i : Info) (es : List Entry) (e : Entry) : Prop :=
  e.valueSize = 0 → e.valueOffs = 0 ∨
    (minOffs A.size es ≤ e.valueOffs ∧ e.valueOffs ≤ A.size) ∨
    noSpace A i false 0 (minOffs A.size es) (A.first + namesLen es) = true

variable {A : Area} {ea : EaCalls} {i : Info} {b b' : Block A.size} {k k' : NameKey}
  {es es₁ old es₂ fs₁ mid fs₂ : List Entry} {e : Entry} {notFound sorted : Bool}

section

variable {l m r : List (NameKey × List (BitVec 8))} {x y : Option (List (BitVec 8))}

end

theorem first_unique {α : Type*} {P : α → Prop} {l l' r r' : List α} {a a' : α}
    (h : l ++ a :: r = l' ++ a' :: r') (hl : ∀ x ∈ l, ¬ P x) (ha : P a) (hl' : ∀ x ∈ l', ¬ P x)
    (ha' : P a') : l = l' ∧ a = a' ∧ r = r' := by
  induction l generalizing l' with
  | nil =>
    cases l' with
    | nil => exact ⟨rfl, cons.inj h⟩
    | cons => exact absurd ((cons.inj h).1 ▸ ha) (hl' _ mem_cons_self)
  | cons x l ih =>
    cases l' with
    | nil => exact absurd ((cons.inj h).1 ▸ ha') (hl _ mem_cons_self)
    | cons y l' =>
      obtain ⟨rfl, htail⟩ := cons.inj h
      obtain ⟨rfl, hrest⟩ := ih htail (forall_mem_cons.mp hl).2 (forall_mem_cons.mp hl').2
      exact ⟨rfl, hrest⟩

theorem Names.placed (h : Names A i (es₁ ++ old ++ es₂) fs₁ e fs₂)
    (hplaced : Placed A i.key es₁ old es₂ notFound) :
    notFound = false ∧ fs₁ = es₁ ∧ old = [e] ∧ fs₂ = es₂ := by
  have hhalts : Halts A.isBlock i.key e.key := ⟨h.key.ge, .inr h.key.symm⟩
  obtain ⟨rfl, o, rfl, hkey⟩ | ⟨-, rfl, hbehind, -⟩ := hplaced.here
  · have hsplit := h.split
    rw [append_assoc] at hsplit
    obtain ⟨rfl, rfl, rfl⟩ := first_unique (P := fun f => Halts A.isBlock i.key f.key) hsplit
      hplaced.before ⟨hkey.ge, .inr hkey.symm⟩ h.before hhalts
    exact ⟨rfl, rfl, rfl, rfl⟩
  have hsplit := h.split
  rw [append_nil] at hsplit
  have hmem : e ∈ es₂ := by
    have hor : e ∈ es₁ ++ es₂ := hsplit ▸ mem_append_right _ mem_cons_self
    exact (mem_append.mp hor).resolve_left fun hl => hplaced.before e hl hhalts
  unfold Behind at hbehind
  split at hbehind
  case isTrue hsorted =>
    -- the search has stopped at a greater name in front of the entry
    cases es₂ with
    | nil => cases hmem
    | cons a es₂ =>
      have hlt : i.key < a.key := hbehind a.key rfl
      obtain ⟨-, rfl, -⟩ := first_unique (P := fun f => Halts A.isBlock i.key f.key) hsplit
        hplaced.before ⟨hlt.le, .inl hsorted⟩ h.before hhalts
      exact absurd h.key hlt.ne'
  case isFalse => exact absurd (mem_map.mpr ⟨e, hmem, h.key⟩) hbehind

theorem findEntry_placed (h : EntriesAt b A.first es) (k : NameKey) :
    ∃ es₁ old es₂ notFound, es = es₁ ++ old ++ es₂ ∧
      findEntry A.isBlock k b A.size A.first = some (A.first + namesLen es₁, notFound) ∧
      Placed A k es₁ old es₂ notFound := by
  obtain ⟨es₁, tail, notFound, rfl, hstop, hfind⟩ := findEntry_spec A.isBlock k h h.length_lt
  obtain ⟨rfl, e, rest, rfl, hkey⟩ | ⟨rfl, hnone⟩ := hstop.here
  · exact ⟨es₁, [e], rest, false, by simp, hfind, hstop.before, .inl ⟨rfl, e, rfl, hkey⟩⟩
  · refine ⟨es₁, [], tail, true, by simp, hfind, hstop.before, .inr ⟨rfl, rfl, ?_, fun hb => ?_⟩⟩
    · unfold Behind
      obtain rfl | ⟨e, rest, rfl, hsorted, hlt⟩ := hnone
      · split <;> simp
      · rw [if_pos hsorted]
        rintro _ ⟨⟩
        exact hlt
    · exact hnone.resolve_right fun ⟨_, _, _, hs, _⟩ => Bool.noConfusion (hb.symm.trans hs)

/-- The entry is changed and all others keep their values. -/
theorem setEntry_spec (h : EntriesAt b A.first (es₁ ++ old ++ es₂))
    (hvals : ValuesAt A.size (A.first + namesLen (es₁ ++ old ++ es₂) + 4) (es₁ ++ old ++ es₂))
    (hplaced : Placed A i.key es₁ old es₂ notFound)
    (hapart : ∀ e ∈ old, ∀ f ∈ es₁ ++ es₂, Apart e f)
    (hoffs : ∀ e ∈ old, OffsetFits A i (es₁ ++ old ++ es₂) e) (hnamed : i.Named)
    (hin : i.inInode = false) (hremove : i.value = none → notFound = false) :
    setEntry A ea i (A.first + namesLen es₁) notFound b = some (eNospc, b) ∨
      ∃ b' fs₁ mid fs₂, setEntry A ea i (A.first + namesLen es₁) notFound b = some (0, b') ∧
        Updated A i b b' es₁ old es₂ fs₁ mid fs₂ := by
  obtain ⟨rfl, e, rfl, hkey⟩ | ⟨rfl, rfl, -⟩ := hplaced.here
  · have hfits := hoffs e (mem_singleton_self e)
    rw [append_assoc] at h hvals hfits
    have hapart := hapart e (mem_singleton_self e)
    by_cases hspace : e.valueSize = 0 ∧ noSpace A i false 0 (minOffs A.size (es₁ ++ [e] ++ es₂))
        (A.first + namesLen (es₁ ++ [e] ++ es₂)) = true
    · left
      rw [append_assoc] at hspace
      obtain ⟨-, hread, -, -⟩ := headsAt_append.mp h.heads
      have hinum := hvals.inum e (by simp)
      have hzero : xattrSize 0 = 0 := rfl
      rw [setEntry_eq hread hinum (by omega) hin, hspace.1, hzero, if_neg fun hs => hs.1 hs.2,
        @scanEntries_eq A.size b A.first A.size _ A.size h h.length_lt, Option.bind_some]
      exact if_pos hspace.2
    · refine (setEntry_found h hvals hapart (fun hs => ?_) hkey hin hnamed).imp_left And.right
      rw [append_assoc] at hspace
      exact (hfits hs).imp_right fun hor => hor.resolve_right fun hno => hspace ⟨hs, hno⟩
  · cases hvalue : i.value with
    | none => cases hremove hvalue
    | some =>
      rw [append_nil] at h hvals
      exact setEntry_insert h hvals hvalue hin hnamed

def noEaInodes : EaCalls where
  inodeIget := fun _ => 0
  inodeDecRef := fun _ => 0
  allocQuota := fun _ => 0
  lookupCreate := fun _ => .error eNospc

/-- The attribute `user.a`. -/
def userA (value : Option Value) : Info := ⟨1, [97], value, false, by decide, by decide⟩

end VMsep.Ext4.Xattr
