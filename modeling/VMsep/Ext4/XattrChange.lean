import VMsep.Ext4.XattrValues

/-! What the parts of `ext4_xattr_set_entry` do to the list of entries and to the values. -/

namespace VMsep.Ext4.Xattr

open VMsep.Lib VMsep.Lib.Block Option

variable {n m o : ℕ} {b b' : Block n} {e e' : Entry} {es es₁ es₂ : List Entry}
  {i : Info} {v : Value}

theorem namesLen_middle (es₁ es₂ : List Entry) (e : Entry) :
    namesLen (es₁ ++ e :: es₂) = namesLen es₁ + (e.len + namesLen es₂) := by
  rw [namesLen_append, namesLen_cons]

theorem EntriesAt.setHere (h : EntriesAt b o (es₁ ++ e :: es₂))
    (hframe : Frame b b' (o + namesLen es₁) (o + namesLen es₁ + 16))
    (hread : readEntry b' (o + namesLen es₁) = e') (hlen : e'.len = e.len) (hnull : ¬ e'.Null) :
    EntriesAt b' o (es₁ ++ e' :: es₂) := by
  obtain ⟨hheads₁, -, -, hheads₂⟩ := headsAt_append.mp h.heads
  have hsum : namesLen (es₁ ++ e' :: es₂) = namesLen (es₁ ++ e :: es₂) := by
    rw [namesLen_middle, namesLen_middle, hlen]
  have hle := le_len e
  have hend := namesLen_middle es₁ es₂ e
  have hleft := hheads₁.copy (hframe.copies (.inl (Nat.le_refl _)))
  refine ⟨headsAt_append.mpr ⟨hleft, hread, hnull, ?_⟩, ?_, ?_⟩
  · rw [hlen]
    exact hheads₂.copy (hframe.copies (.inr (by omega)))
  · rw [hsum, isLast_copy (hframe.copies (.inr (by omega)))]
    exact h.last
  · rw [hsum]
    exact h.inside

theorem changeName_remove {notFound : Bool} (h : EntriesAt b o (es₁ ++ e :: es₂)) (hn : n ≤ 2 ^ 16)
    (hvalue : i.value = none) (hlen : i.nameLen = e.len) :
    ∃ b', changeName i (o + namesLen es₁) (o + namesLen (es₁ ++ e :: es₂)) notFound b = some b' ∧
      EntriesAt b' o (es₁ ++ es₂) ∧ Frame b b' o (o + namesLen (es₁ ++ e :: es₂)) := by
  obtain ⟨hheads₁, -, -, hheads₂⟩ := headsAt_append.mp h.heads
  have hinside := h.inside
  have hle := le_len e
  rw [namesLen_middle] at hinside ⊢
  have hlast : sub64 (o + (namesLen es₁ + (e.len + namesLen es₂))) e.len =
      o + namesLen es₁ + namesLen es₂ := by
    rw [sub64_of_le (by omega) (by omega)]
    omega
  have hrest : (sub64 (o + namesLen es₁ + namesLen es₂) (o + namesLen es₁) + 4) % 2 ^ 64 =
      namesLen es₂ + 4 := by
    rw [sub64_of_le (by omega) (by omega), Nat.mod_eq_of_lt (by omega)]
    omega
  obtain ⟨b₁, hb₁, hcopy, hframe₁⟩ := @move_spec n b (o + namesLen es₁)
    (o + namesLen es₁ + e.len) (namesLen es₂ + 4) (by omega) (by omega)
  obtain ⟨b₂, hb₂, hzero, hframe₂⟩ := @clear_spec n b₁ (o + namesLen es₁ + namesLen es₂) e.len
    (by omega)
  refine ⟨b₂, ?_, ⟨headsAt_append.mpr ⟨?_, ?_⟩, ?_, ?_⟩, ?_⟩
  · simp only [changeName, hvalue, hlen, hlast, hrest, hb₁, hb₂, isNone_none, if_true,
      bind_eq_bind, bind_some]
  · exact (hheads₁.copy (hframe₁.copies (.inl (Nat.le_refl _)))).copy
      (hframe₂.copies (.inl (by omega)))
  · have hmoved : HeadsAt b₁ (o + namesLen es₁) es₂ :=
      hheads₂.copy (hcopy.part (Nat.le_add_right (0 + namesLen es₂) 4 |>.trans (by omega)))
    exact hmoved.copy (hframe₂.copies (.inl (Nat.le_refl _)))
  · rw [namesLen_append, ← Nat.add_assoc]
    unfold isLast
    rw [le_eq_zero fun j hj => hzero j (by omega)]
    rfl
  · rw [namesLen_append]
    omega
  · exact (hframe₁.mono (by omega) (by omega)).trans (hframe₂.mono (by omega) (by omega))

def newEntry (i : Info) : Entry where
  nameIndex := i.nameIndex
  valueOffs := 0
  valueInum := 0
  valueSize := 0
  hash := 0
  name := i.name

def Info.Named (i : Info) : Prop := ¬ (i.name = [] ∧ i.nameIndex = 0)

theorem byte_of_le {x : ℕ} (h : b.le o 1 = x) : (b.byte o).toNat = x := by
  rw [← h]
  rfl

theorem changeName_insert (h : EntriesAt b o (es₁ ++ es₂)) (hn : n ≤ 2 ^ 16)
    (hvalue : i.value = some v) (hnamed : i.Named)
    (hroom : o + namesLen (es₁ ++ es₂) + 4 + i.nameLen ≤ n) :
    ∃ b', changeName i (o + namesLen es₁) (o + namesLen (es₁ ++ es₂)) true b = some b' ∧
      EntriesAt b' o (es₁ ++ newEntry i :: es₂) ∧
      Frame b b' o (o + namesLen (es₁ ++ es₂) + 4 + i.nameLen) := by
  obtain ⟨hheads₁, hheads₂⟩ := headsAt_append.mp h.heads
  have hlast := h.last
  have hnew : (newEntry i).len = i.nameLen := rfl
  have hle : 16 + i.name.length ≤ i.nameLen := le_len (newEntry i)
  rw [namesLen_append, ← Nat.add_assoc] at *
  have hrest : sub64 (o + namesLen es₁ + namesLen es₂) (o + namesLen es₁) + 4 =
      namesLen es₂ + 4 := by
    rw [sub64_of_le (by omega) (by omega)]
    omega
  obtain ⟨b₁, hb₁, hcopy, hframe₁⟩ := @move_spec n b (o + namesLen es₁ + i.nameLen)
    (o + namesLen es₁) (namesLen es₂ + 4) (by omega) (by omega)
  obtain ⟨b₂, hb₂, hzero, hframe₂⟩ := @clear_spec n b₁ (o + namesLen es₁) i.nameLen (by omega)
  obtain ⟨b₃, hb₃, hindex, hframe₃⟩ := @putLe_spec n b₂ (o + namesLen es₁ + 1) 1 i.nameIndex
    (by omega)
  obtain ⟨b₄, hb₄, hlength, hframe₄⟩ := @putLe_spec n b₃ (o + namesLen es₁) 1 i.name.length
    (by omega)
  obtain ⟨b₅, hb₅, hname, hframe₅⟩ := @store_spec n b₄ (o + namesLen es₁ + 16) i.name (by omega)
  -- everything after the move stays inside the new entry
  have hframe : Frame b₁ b₅ (o + namesLen es₁) (o + namesLen es₁ + i.nameLen) :=
    hframe₂.trans ((hframe₃.mono (by omega) (by omega)).trans
      ((hframe₄.mono (by omega) (by omega)).trans (hframe₅.mono (by omega) (by omega))))
  have hread : readEntry b₅ (o + namesLen es₁) = newEntry i := by
    have hfield : ∀ j k, 2 ≤ j → j + k ≤ 16 → b₅.le (o + namesLen es₁ + j) k = 0 := by
      intro j k hj hk
      rw [hframe₅.le (.inl (by omega)), hframe₄.le (.inr (by omega)),
        hframe₃.le (.inr (by omega))]
      refine le_eq_zero fun l hl => ?_
      rw [Nat.add_assoc]
      exact hzero _ (by omega)
    have hlen : (b₅.byte (o + namesLen es₁)).toNat = i.name.length := by
      refine byte_of_le ?_
      rw [hframe₅.le (.inl (by omega)), hlength]
      exact Nat.mod_eq_of_lt i.name_length
    have hidx : (b₅.byte (o + namesLen es₁ + 1)).toNat = i.nameIndex := by
      refine byte_of_le ?_
      rw [hframe₅.le (.inl (by omega)), hframe₄.le (.inr (by omega)), hindex]
      exact Nat.mod_eq_of_lt i.nameIndex_lt
    simp only [readEntry, newEntry, hlen, hidx, hname, hfield 2 2 (by omega) (by omega),
      hfield 4 4 (by omega) (by omega), hfield 8 4 (by omega) (by omega),
      hfield 12 4 (by omega) (by omega)]
  have hmoved : Copies b (o + namesLen es₁) b₅ (o + namesLen es₁ + i.nameLen) (namesLen es₂ + 4) :=
    hcopy.trans (hframe.copies (.inr (Nat.le_refl _)))
  refine ⟨b₅, ?_, ⟨headsAt_append.mpr ⟨?_, hread, fun h => hnamed ⟨h.1, h.2.1⟩, ?_⟩, ?_, ?_⟩, ?_⟩
  · simp only [changeName, hvalue, hrest, hb₁, hb₂, hb₃, hb₄, hb₅, isNone_some,
      Bool.false_eq_true, if_false, if_true, bind_eq_bind, bind_some]
  · exact (hheads₁.copy (hframe₁.copies (.inl (by omega)))).copy
      (hframe.copies (.inl (Nat.le_refl _)))
  · rw [hnew]
    exact hheads₂.copy (hmoved.part (Nat.le_add_right (0 + namesLen es₂) 4 |>.trans (by omega)))
  · have hend : o + namesLen (es₁ ++ newEntry i :: es₂) =
        o + namesLen es₁ + i.nameLen + namesLen es₂ := by
      rw [namesLen_middle, hnew]
      omega
    rw [hend, isLast_copy (hmoved.part (Nat.le_refl _))]
    exact hlast
  · rw [namesLen_middle, hnew]
    omega
  · exact (hframe₁.mono (by omega) (by omega)).trans (hframe.mono (by omega) (by omega))

theorem changeName_reset {last : ℕ} (h : EntriesAt b o (es₁ ++ e :: es₂))
    (hvalue : i.value = some v) (hnull : ¬ (e.name = [] ∧ e.nameIndex = 0)) :
    ∃ b', changeName i (o + namesLen es₁) last false b = some b' ∧
      EntriesAt b' o (es₁ ++ { e with valueOffs := 0, valueInum := 0, valueSize := 0 } :: es₂) ∧
      Frame b b' (o + namesLen es₁) (o + namesLen es₁ + 16) := by
  obtain ⟨-, hread, -, -⟩ := headsAt_append.mp h.heads
  have hinside := h.inside
  have hle := le_len e
  rw [namesLen_middle] at hinside
  obtain ⟨b₁, hb₁, hinum, hframe₁⟩ := @putLe_spec n b (o + namesLen es₁ + 4) 4 0 (by omega)
  obtain ⟨b₂, hb₂, hoffs, hframe₂⟩ := @putLe_spec n b₁ (o + namesLen es₁ + 2) 2 0 (by omega)
  obtain ⟨b₃, hb₃, hsize, hframe₃⟩ := @putLe_spec n b₂ (o + namesLen es₁ + 8) 4 0 (by omega)
  have hframe : Frame b b₃ (o + namesLen es₁ + 2) (o + namesLen es₁ + 12) :=
    (hframe₁.mono (by omega) (by omega)).trans
      ((hframe₂.mono (by omega) (by omega)).trans (hframe₃.mono (by omega) (by omega)))
  have hread₃ : readEntry b₃ (o + namesLen es₁) =
      { e with valueOffs := 0, valueInum := 0, valueSize := 0 } := by
    rw [readEntry_fields (hframe.mono (Nat.le_refl _) (by omega)), hframe₃.le (.inl (by omega)),
      hframe₃.le (.inl (by omega)), hsize, hoffs, hframe₂.le (.inr (by omega)), hinum,
      hframe.le (.inr (by omega)), ← hread]
    rfl
  refine ⟨b₃, ?_, h.setHere (hframe.mono (by omega) (by omega)) hread₃ rfl ?_,
    hframe.mono (by omega) (by omega)⟩
  · simp only [changeName, hvalue, hb₁, hb₂, hb₃, isNone_some, Bool.false_eq_true, if_false,
      bind_eq_bind, bind_some]
  · exact fun hn => hnull ⟨hn.1, hn.2.1⟩

theorem content_length (v : Value) : v.content.length = v.length := by
  cases v with
  | zero => exact List.length_replicate
  | bytes => rfl

theorem Value.store_spec {val : ℕ} (h : val + xattrSize v.length ≤ n) :
    ∃ b', v.store val (xattrSize v.length) b = some b' ∧ b'.slice val v.length = v.content ∧
      Frame b b' val (val + xattrSize v.length) := by
  have hle := le_xattrSize v.length
  cases v with
  | zero len =>
    obtain ⟨b', hb', hzero, hframe⟩ := @clear_spec n b val (xattrSize len) h
    refine ⟨b', hb', ?_, hframe⟩
    apply List.ext_getElem
    · rw [slice_length, content_length]
    intro j hj hj'
    have hlt : j < len := by rwa [slice_length] at hj
    have hle' : len ≤ xattrSize len := hle
    simp only [slice, content, List.getElem_map, List.getElem_range, List.getElem_replicate]
    exact hzero j (by omega)
  | bytes l =>
    have hle' : l.length ≤ xattrSize l.length := hle
    have h' : val + xattrSize l.length ≤ n := h
    obtain ⟨b₁, hb₁, hslice, hframe₁⟩ := @Block.store_spec n b val l (by omega)
    obtain ⟨b₂, hb₂, -, hframe₂⟩ := @clear_spec n b₁ (val + l.length)
      (xattrSize l.length - l.length) (by omega)
    refine ⟨b₂, ?_, ?_, ?_⟩
    · simp only [store, length, hb₁, hb₂, bind_some]
    · exact (hframe₂.slice (.inl (Nat.le_refl _))).trans hslice
    · exact (hframe₁.mono (Nat.le_refl _) (by simp only [length]; omega)).trans
        (hframe₂.mono (by omega) (by simp only [length]; omega))

theorem EntriesAt.putSize (h : EntriesAt b o (es₁ ++ e :: es₂)) {size : ℕ} (hsize : size < 256 ^ 4)
    (hnull : ¬ e.Null) : ∃ b', b.putLe (o + namesLen es₁ + 8) 4 size = some b' ∧
      EntriesAt b' o (es₁ ++ { e with valueSize := size } :: es₂) ∧
      Frame b b' (o + namesLen es₁ + 8) (o + namesLen es₁ + 12) := by
  obtain ⟨-, hread, -, -⟩ := headsAt_append.mp h.heads
  have hinside := h.inside
  have hle := le_len e
  rw [namesLen_middle] at hinside
  obtain ⟨b₁, hb₁, hput, hframe⟩ := @putLe_spec n b (o + namesLen es₁ + 8) 4 size (by omega)
  rw [Nat.mod_eq_of_lt hsize] at hput
  refine ⟨b₁, hb₁, h.setHere (hframe.mono (by omega) (by omega)) ?_ rfl hnull, hframe⟩
  rw [readEntry_valueSize hput hframe, hread]

theorem insertValue_spec (h : EntriesAt b o (es₁ ++ e :: es₂)) (hvalue : i.value = some v)
    (hin : i.inInode = false) (hm : m ≤ 256 ^ 2) (hmn : m ≤ n)
    (hroom : o + namesLen (es₁ ++ e :: es₂) + 4 + xattrSize v.length ≤ m)
    (hempty : e.valueOffs = 0) (hnull : ¬ (e.name = [] ∧ e.nameIndex = 0)) :
    ∃ b' e', insertValue i (o + namesLen es₁) m none b = some b' ∧
      e' = { e with
        valueOffs := if v.length = 0 then 0 else m - xattrSize v.length
        valueSize := v.length } ∧
      EntriesAt b' o (es₁ ++ e' :: es₂) ∧ Frame b b' o m ∧ attr b' e' = (e.key, v.content) := by
  obtain ⟨-, hread, -, -⟩ := headsAt_append.mp h.heads
  have hle := le_len e
  have hpos := le_xattrSize v.length
  have hsmall : v.length < 256 ^ 4 := by omega
  have hend := namesLen_middle es₁ es₂ e
  by_cases hzero : v.length = 0
  · -- an empty value has no place
    obtain ⟨b₁, hb₁, hes₁, hframe₁⟩ := h.putSize hsmall fun hn => hnull ⟨hn.1, hn.2.1⟩
    have hself : { e with
        valueOffs := if v.length = 0 then 0 else m - xattrSize v.length
        valueSize := v.length } = { e with valueSize := v.length } := by
      rw [if_pos hzero, ← hempty]
    refine ⟨b₁, _, ?_, rfl, hself ▸ hes₁, hframe₁.mono (by omega) (by omega), ?_⟩
    · simp only [insertValue, hvalue, hzero, if_true, bind_eq_bind, bind_some]
      rw [← hb₁, hzero]
    have hcontent : v.content = [] := by
      rw [← List.length_eq_zero_iff, content_length, hzero]
    unfold attr
    rw [hcontent]
    rw [hzero]
    rfl
  · have hval : sub64 m (xattrSize v.length) = m - xattrSize v.length :=
      sub64_of_le (by omega) (by omega)
    have hnewSize : i.newSize = xattrSize v.length := by
      simp only [Info.newSize, hvalue, hin, Bool.false_eq_true, if_false]
    obtain ⟨b₁, hb₁, hoffs, hframe₁⟩ := @putLe_spec n b (o + namesLen es₁ + 2) 2
      (m - xattrSize v.length) (by omega)
    rw [Nat.mod_eq_of_lt (by omega)] at hoffs
    have hes₁ : EntriesAt b₁ o
        (es₁ ++ { e with valueOffs := m - xattrSize v.length } :: es₂) := by
      refine h.setHere (hframe₁.mono (by omega) (by omega)) ?_ rfl fun hn => hnull ⟨hn.1, hn.2.1⟩
      rw [readEntry_valueOffs hoffs hframe₁, hread]
    obtain ⟨b₂, hb₂, hslice, hframe₂⟩ := @Value.store_spec n b₁ v (m - xattrSize v.length)
      (by omega)
    have hes₂ := hes₁.frame hframe₂ (.inl (by
      have hsame := namesLen_middle es₁ es₂ { e with valueOffs := m - xattrSize v.length }
      have hlen : ({ e with valueOffs := m - xattrSize v.length } : Entry).len = e.len := rfl
      omega))
    obtain ⟨b₃, hb₃, hes₃, hframe₃⟩ := hes₂.putSize hsmall fun hn => hnull ⟨hn.1, hn.2.1⟩
    refine ⟨b₃, _, ?_, rfl, ?_, ?_, ?_⟩
    · simp only [insertValue, hvalue, hzero, if_false, hval, hnewSize, hb₁, hb₂, hb₃,
        bind_eq_bind, bind_some]
    · rw [if_neg hzero]
      exact hes₃
    · exact (hframe₁.mono (by omega) (by omega)).trans
        ((hframe₂.mono (by omega) (by omega)).trans (hframe₃.mono (by omega) (by omega)))
    · unfold attr
      dsimp only
      rw [if_neg hzero, hframe₃.slice (.inr (by omega)), hslice]
      rfl

def HeaderKept (A : Area) (b b' : Block A.size) : Prop :=
  ∀ j < A.first, j < 12 ∨ 16 ≤ j → b'.byte j = b.byte j

section

variable {A : Area} {c c' c'' : Block A.size} {hi : ℕ}

theorem HeaderKept.trans (h : HeaderKept A c c') (h' : HeaderKept A c' c'') : HeaderKept A c c'' :=
  fun j hj hout => (h' j hj hout).trans (h j hj hout)

theorem headerKept_of_frame (h : Frame c c' A.first hi) : HeaderKept A c c' :=
  fun j hj _ => h j (.inl hj)

theorem rehashIf_spec (h : EntriesAt c A.first es) :
    ∃ c', (if A.isBlock = true then rehash A.first c else some c) = some c' ∧
      EntriesAt c' A.first es ∧ HeaderKept A c c' ∧
      ∀ f : Entry, (f.valueSize ≠ 0 → A.first ≤ f.valueOffs) → attr c' f = attr c f := by
  have hfirst := A.first_eq
  split at hfirst
  case isTrue hblock =>
    obtain ⟨c', hc', hframe⟩ := rehash_spec h (by omega)
    refine ⟨c', by rw [if_pos hblock, hc'], h.frame hframe (.inr (by omega)),
      fun j _ hout => hframe j hout, fun f hf => attr_frame hframe fun hs => .inl ?_⟩
    omega
  case isFalse hblock =>
    exact ⟨c, if_neg hblock, h, fun _ _ _ => rfl, fun _ _ => rfl⟩

theorem updateHash_put (h : EntriesAt c A.first (es₁ ++ e :: es₂)) (hvalue : i.value = some v) :
    ∃ c' hash, updateHash A i (A.first + namesLen es₁) none c = some (0, c') ∧
      EntriesAt c' A.first (es₁ ++ { e with hash := hash } :: es₂) ∧ HeaderKept A c c' ∧
      ∀ f : Entry, (f.valueSize ≠ 0 → A.first + namesLen (es₁ ++ e :: es₂) ≤ f.valueOffs) →
        attr c' f = attr c f := by
  obtain ⟨-, hread, hnull, -⟩ := headsAt_append.mp h.heads
  have hinside := h.inside
  have hle := le_len e
  have hend := namesLen_middle es₁ es₂ e
  obtain ⟨hash, hdef⟩ : ∃ hash : BitVec 32, hash = if A.isBlock = true then
      hashEntry (readEntry c (A.first + namesLen es₁)).name
        (valueWords c (readEntry c (A.first + namesLen es₁)).valueOffs (i.newSize / 4))
      else 0 := ⟨_, rfl⟩
  obtain ⟨c₁, hc₁, hput, hframe₁⟩ := @putLe_spec A.size c (A.first + namesLen es₁ + 12) 4
    hash.toNat (by omega)
  have hes₁ : EntriesAt c₁ A.first (es₁ ++ { e with hash := hash.toNat % 256 ^ 4 } :: es₂) := by
    refine h.setHere (hframe₁.mono (by omega) (by omega)) ?_ rfl hnull
    rw [readEntry_hash hput hframe₁, hread]
  obtain ⟨c₂, hc₂, hes₂, hkept, hattr⟩ := rehashIf_spec hes₁
  refine ⟨c₂, _, ?_, hes₂, ?_, ?_⟩
  · simp only [updateHash, hvalue, isSome_some, if_true, ← hdef, hc₁, hc₂, bind_eq_bind, bind_some]
  · exact (headerKept_of_frame (hframe₁.mono (by omega) (Nat.le_refl _))).trans hkept
  · intro f hf
    have hlow : f.valueSize ≠ 0 → A.first ≤ f.valueOffs := by
      intro hs
      omega
    rw [hattr f hlow]
    refine attr_frame hframe₁ fun hs => .inl ?_
    omega

end

end VMsep.Ext4.Xattr
