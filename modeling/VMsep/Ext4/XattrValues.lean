import VMsep.Ext4.XattrLayout

/-! Values lie behind the names. The removal of one that lies apart from the others moves those
below it up, and every other entry keeps its value. -/

namespace VMsep.Ext4.Xattr

open VMsep.Lib VMsep.Lib.Block List Entry

def Entry.stop (e : Entry) : ℕ := e.valueOffs + xattrSize e.valueSize

def Apart (e f : Entry) : Prop :=
  e.valueSize ≠ 0 → f.valueSize ≠ 0 → e.stop ≤ f.valueOffs ∨ f.stop ≤ e.valueOffs

/-- The values lie in the area, from `lo` on. -/
structure ValuesAt (n lo : ℕ) (es : List Entry) : Prop where
  inum : ∀ e ∈ es, e.valueInum = 0
  inside : ∀ e ∈ es, e.valueSize ≠ 0 → lo ≤ e.valueOffs ∧ e.stop ≤ n

/-- What a change of the list leaves as it was: aligned values, empty values without a place, and
values that lie apart. -/
structure Kept (es fs : List Entry) : Prop where
  aligned : (∀ e ∈ es, 4 ∣ e.valueOffs) → ∀ f ∈ fs, 4 ∣ f.valueOffs
  empty : (∀ e ∈ es, e.valueSize = 0 → e.valueOffs = 0) →
    ∀ f ∈ fs, f.valueSize = 0 → f.valueOffs = 0
  apart : es.Pairwise Apart → fs.Pairwise Apart

def attr {n : ℕ} (b : Block n) (e : Entry) : NameKey × List (BitVec 8) :=
  (e.key, b.slice e.valueOffs e.valueSize)

variable {n lo lo' hi o : ℕ} {b b' : Block n} {e f : Entry} {es fs es₁ es₂ : List Entry}

theorem le_xattrSize (s : ℕ) : s ≤ xattrSize s := by
  unfold xattrSize
  omega

theorem xattrSize32_eq {s : ℕ} (h : s ≤ 2 ^ 16) : xattrSize32 s = xattrSize s := by
  unfold xattrSize32 xattrSize
  omega

theorem Apart.symm (h : Apart e f) : Apart f e := fun hf he => (h he hf).symm

theorem sublist_middle (es₁ es₂ : List Entry) (e : Entry) :
    (es₁ ++ es₂).Sublist (es₁ ++ e :: es₂) :=
  List.Sublist.append (.refl _) (sublist_cons_self _ _)

theorem forall_middle {P : Entry → Prop} :
    (∀ f ∈ es₁ ++ e :: es₂, P f) ↔ P e ∧ ∀ f ∈ es₁ ++ es₂, P f := by
  rw [forall_mem_append, forall_mem_cons, forall_mem_append]
  exact and_left_comm

theorem pairwise_apart_middle : (es₁ ++ e :: es₂).Pairwise Apart ↔
    (∀ f ∈ es₁ ++ es₂, Apart e f) ∧ (es₁ ++ es₂).Pairwise Apart :=
  (pairwise_middle Apart.symm).trans pairwise_cons

theorem Apart.stop_le (h : Apart e f) (he : e.valueSize ≠ 0) (hf : f.valueSize ≠ 0)
    (hle : e.valueOffs ≤ f.valueOffs) : e.stop ≤ f.valueOffs := by
  have hpos := le_xattrSize f.valueSize
  have hor := h he hf
  unfold stop at hor ⊢
  omega

theorem Kept.sublist (h : Kept es fs) (hsub : es.Sublist es₁) : Kept es₁ fs :=
  ⟨fun ha => h.aligned fun e he => ha e (hsub.subset he),
    fun he => h.empty fun e hmem => he e (hsub.subset hmem), fun ha => h.apart (ha.sublist hsub)⟩

section

variable (h : ValuesAt n lo es)

include h

theorem ValuesAt.stored_iff (he : e ∈ es) : e.Stored ↔ e.valueSize ≠ 0 :=
  and_iff_right (h.inum e he)

theorem ValuesAt.mono (hlo : lo' ≤ lo) : ValuesAt n lo' es where
  inum := h.inum
  inside := fun e he hs => ⟨hlo.trans (h.inside e he hs).1, (h.inside e he hs).2⟩

theorem ValuesAt.sublist (hsub : fs.Sublist es) : ValuesAt n lo fs where
  inum := fun e he => h.inum e (hsub.subset he)
  inside := fun e he => h.inside e (hsub.subset he)

theorem ValuesAt.from_minOffs : ValuesAt n (minOffs n es) es where
  inum := h.inum
  inside := fun e he hs =>
    ⟨(minOffs_le n es).2 e he ((h.stored_iff he).mpr hs), (h.inside e he hs).2⟩

theorem ValuesAt.le_minOffs (hlo : lo ≤ n) : lo ≤ minOffs n es :=
  Xattr.le_minOffs hlo fun e he hs => (h.inside e he hs.2).1

theorem ValuesAt.size_le (he : e ∈ es) : e.valueSize ≤ n := by
  by_cases hs : e.valueSize = 0
  · omega
  have hstop := (h.inside e he hs).2
  have hle := le_xattrSize e.valueSize
  unfold stop at hstop
  omega

theorem ValuesAt.valueOk (hn : n ≤ 2 ^ 16) {last : ℕ} (hlast : last + 4 ≤ lo) (he : e ∈ es) :
    valueOk n last e = true := by
  unfold Xattr.valueOk
  rw [decide_eq_true_iff]
  rintro ⟨hs, -, hbad⟩
  obtain ⟨hlo, hstop⟩ := h.inside e he hs
  have hsize := h.size_le he
  have hle := le_xattrSize e.valueSize
  rw [xattrSize32_eq (hsize.trans hn)] at hbad
  unfold stop at hstop
  omega

end

theorem attr_frame (h : Frame b b' lo hi)
    (he : e.valueSize ≠ 0 → hi ≤ e.valueOffs ∨ e.stop ≤ lo) : attr b' e = attr b e := by
  by_cases hs : e.valueSize = 0
  · unfold attr
    rw [hs]
    rfl
  · have hle := le_xattrSize e.valueSize
    have hout := he hs
    unfold stop at hout
    unfold attr
    rw [h.slice (by omega)]

theorem ValuesAt.map_attr (h : ValuesAt n hi es) (hframe : Frame b b' lo hi) :
    es.map (attr b') = es.map (attr b) :=
  map_congr_left fun e he => attr_frame hframe fun hs => .inl (h.inside e he hs).1

theorem EntriesAt.frame (h : EntriesAt b o es) (hframe : Frame b b' lo hi)
    (hout : o + namesLen es + 4 ≤ lo ∨ hi ≤ o) : EntriesAt b' o es := by
  refine ⟨h.heads.copy (hframe.copies (by omega)), ?_, h.inside⟩
  rw [isLast_copy (hframe.copies (by omega))]
  exact h.last

section

variable {old : ℕ} {offs m : ℕ}

theorem key_adjust (offs old : ℕ) (e : Entry) : (e.adjust offs old).key = e.key := by
  unfold adjust
  split <;> rfl

theorem adjust_valueSize (offs old : ℕ) (e : Entry) :
    (e.adjust offs old).valueSize = e.valueSize := by
  unfold adjust
  split <;> rfl

theorem adjust_below (hs : f.Stored) (hlt : f.valueOffs < offs) :
    (f.adjust offs old).valueOffs = f.valueOffs + old := by
  unfold adjust
  rw [if_pos ⟨hs, hlt⟩]

theorem adjust_above (hle : offs ≤ f.valueOffs) : f.adjust offs old = f := by
  unfold adjust
  rw [if_neg fun h => Nat.not_lt.mpr hle h.2]

theorem adjust_empty (hs : f.valueSize = 0) : f.adjust offs old = f := by
  unfold adjust
  rw [if_neg fun h => h.1.2 hs]

theorem adjust_zero (offs : ℕ) (e : Entry) : e.adjust offs 0 = e := by
  unfold adjust
  split <;> rfl

/-- A value is below the removed one and moves, or above it. -/
theorem adjust_cases (hinum : f.valueInum = 0) (hf : f.valueSize ≠ 0) (he : e.valueSize ≠ 0)
    (h : Apart e f) :
    ((f.adjust e.valueOffs (xattrSize e.valueSize)).valueOffs =
        f.valueOffs + xattrSize e.valueSize ∧ f.stop ≤ e.valueOffs) ∨
      ((f.adjust e.valueOffs (xattrSize e.valueSize)).valueOffs = f.valueOffs ∧
        e.stop ≤ f.valueOffs) := by
  by_cases hlt : f.valueOffs < e.valueOffs
  · exact .inl ⟨adjust_below ⟨hinum, hf⟩ hlt, h.symm.stop_le hf he hlt.le⟩
  · refine .inr ⟨by rw [adjust_above (Nat.le_of_not_lt hlt)], ?_⟩
    exact h.stop_le he hf (Nat.le_of_not_lt hlt)

theorem ValuesAt.adjust (h : ValuesAt n m es) (hapart : ∀ f ∈ es, Apart e f) (he : e.valueSize ≠ 0)
    (hm : m ≤ e.valueOffs) (hstop : e.stop ≤ n) : ValuesAt n (m + xattrSize e.valueSize)
      (es.map (Entry.adjust e.valueOffs (xattrSize e.valueSize))) := by
  refine ⟨forall_mem_map.mpr fun f hf => ?_, forall_mem_map.mpr fun f hf hs => ?_⟩
  · unfold Entry.adjust
    split <;> exact h.inum f hf
  · rw [adjust_valueSize] at hs
    obtain ⟨hlo, hhi⟩ := h.inside f hf hs
    have hc := adjust_cases (h.inum f hf) hs he (hapart f hf)
    unfold stop at *
    rw [adjust_valueSize]
    omega

theorem Kept.adjust (hinum : ∀ f ∈ es, f.valueInum = 0) (hapart : ∀ f ∈ es, Apart e f)
    (he : e.valueSize ≠ 0) :
    Kept es (es.map (Entry.adjust e.valueOffs (xattrSize e.valueSize))) where
  aligned := by
    refine fun ha => forall_mem_map.mpr fun f hf => ?_
    unfold Entry.adjust
    split
    · exact Nat.dvd_add (ha f hf) (Nat.dvd_mul_left 4 _)
    · exact ha f hf
  empty := by
    refine fun hempty => forall_mem_map.mpr fun f hf hs => ?_
    rw [adjust_valueSize] at hs
    rw [adjust_empty hs]
    exact hempty f hf hs
  apart := by
    refine fun ha => pairwise_map.mpr (ha.imp_of_mem fun {f g} hf hg hfg hs hs' => ?_)
    rw [adjust_valueSize] at hs hs'
    have hor := hfg hs hs'
    have hcf := adjust_cases (hinum f hf) hs he (hapart f hf)
    have hcg := adjust_cases (hinum g hg) hs' he (hapart g hg)
    unfold stop at *
    rw [adjust_valueSize, adjust_valueSize]
    omega

/-- A removal of nothing inside the values moves bytes onto themselves. -/
theorem removeValue_empty (h : EntriesAt b o es) (hn : n ≤ 2 ^ 16) (hvals : ValuesAt n m es)
    (hlast : o + namesLen es + 4 ≤ m) (hm : m ≤ offs) (hoffs : offs ≤ n) :
    ∃ b', removeValue o offs 0 m b = some (m, b') ∧ EntriesAt b' o es ∧
      Frame b b' o (o + namesLen es) := by
  have hlen : sub64 offs m = offs - m := sub64_of_le hm (by omega)
  obtain ⟨b₁, hb₁, hcopy, hframe₁⟩ := @move_spec n b (m + 0) m (offs - m) (by omega) (by omega)
  obtain ⟨b₂, hb₂, -, hframe₂⟩ := @clear_spec n b₁ m 0 (by omega)
  have hsame : Frame b b₂ m m := by
    refine Frame.trans (fun j _ => ?_) hframe₂
    by_cases hj : m ≤ j ∧ j < offs
    · have hbyte := hcopy (j - m) (by omega)
      rwa [Nat.add_zero, Nat.add_sub_cancel' hj.1] at hbyte
    · exact hframe₁ j (by omega)
  have hfit : ∀ e ∈ es, e.Stored → e.valueOffs < offs → e.valueOffs + 0 < 256 ^ 2 := by
    intro e he hs _
    have hstop := (hvals.inside e he hs.2).2
    have hsize := le_xattrSize e.valueSize
    have hpos := hs.2
    unfold stop at hstop
    omega
  have hes₂ := h.frame hsame (.inl hlast)
  obtain ⟨b₃, hb₃, hes₃, hframe₃⟩ := adjustOffs_spec hes₂ hes₂.length_lt hfit
  rw [map_congr_left fun e _ => adjust_zero offs e, map_id'] at hes₃
  refine ⟨b₃, ?_, hes₃, fun j hj => (hframe₃ j hj).trans (hsame j (by omega))⟩
  simp only [removeValue, hlen, hb₁, hb₂, hb₃, Option.bind_eq_bind, Option.bind_some]
  rfl

/-- The values below the removed one move up, and stay what they are. -/
theorem removeValue_spec (h : EntriesAt b o (es₁ ++ e :: es₂)) (hn : n ≤ 2 ^ 16)
    (hvals : ValuesAt n m (es₁ ++ e :: es₂)) (hapart : ∀ f ∈ es₁ ++ es₂, Apart e f)
    (he : e.valueSize ≠ 0) (hlast : o + namesLen (es₁ ++ e :: es₂) + 4 ≤ m) :
    ∃ b', removeValue o e.valueOffs (xattrSize e.valueSize) m b =
        some (m + xattrSize e.valueSize, b') ∧
      EntriesAt b' o (es₁.map (Entry.adjust e.valueOffs (xattrSize e.valueSize)) ++
        e :: es₂.map (Entry.adjust e.valueOffs (xattrSize e.valueSize))) ∧ Frame b b' o e.stop ∧
      ∀ f ∈ es₁ ++ es₂, attr b' (f.adjust e.valueOffs (xattrSize e.valueSize)) = attr b f := by
  have hmem : e ∈ es₁ ++ e :: es₂ := by simp
  obtain ⟨hm, hstop⟩ := hvals.inside e hmem he
  have hsub := sublist_middle es₁ es₂ e
  have hstop_eq : e.stop = e.valueOffs + xattrSize e.valueSize := rfl
  have hlen : sub64 e.valueOffs m = e.valueOffs - m := sub64_of_le hm (by omega)
  obtain ⟨b₁, hb₁, hcopy, hframe₁⟩ := @move_spec n b (m + xattrSize e.valueSize) m
    (e.valueOffs - m) (by omega) (by omega)
  obtain ⟨b₂, hb₂, -, hframe₂⟩ := @clear_spec n b₁ m (xattrSize e.valueSize) (by omega)
  have hes₂ : EntriesAt b₂ o (es₁ ++ e :: es₂) :=
    (h.frame hframe₁ (.inl (by omega))).frame hframe₂ (.inl hlast)
  have hfit : ∀ f ∈ es₁ ++ e :: es₂, f.Stored → f.valueOffs < e.valueOffs →
      f.valueOffs + xattrSize e.valueSize < 256 ^ 2 := by
    refine forall_middle.mpr ⟨fun _ hlt => absurd hlt (Nat.lt_irrefl _), fun f hf hs hlt => ?_⟩
    have hle := (hapart f hf).symm.stop_le hs.2 he hlt.le
    omega
  obtain ⟨b₃, hb₃, hes₃, hframe₃⟩ := adjustOffs_spec hes₂ hes₂.length_lt hfit
  have hself : e.adjust e.valueOffs (xattrSize e.valueSize) = e := adjust_above (Nat.le_refl _)
  rw [map_append, map_cons, hself] at hes₃
  have hrange : Frame b b₂ m e.stop :=
    (hframe₁.mono (by omega) (by omega)).trans (hframe₂.mono (Nat.le_refl _) (by omega))
  refine ⟨b₃, ?_, hes₃, ?_, ?_⟩
  · simp only [removeValue, hlen, hb₁, hb₂, hb₃, Option.bind_eq_bind, Option.bind_some]
  · exact (hrange.mono (by omega) (Nat.le_refl _)).trans
      (hframe₃.mono (Nat.le_refl _) (by omega))
  · intro f hf
    have hfvals := hvals.sublist hsub
    by_cases hs : f.valueSize = 0
    · rw [adjust_empty hs]
      unfold attr
      rw [hs]
      rfl
    · obtain ⟨hfm, -⟩ := hfvals.inside f hf hs
      have hsize := le_xattrSize f.valueSize
      by_cases hlt : f.valueOffs < e.valueOffs
      · -- the value is moved
        have hle := (hapart f hf).symm.stop_le hs he hlt.le
        have hoffs := @adjust_below f (xattrSize e.valueSize) _
          ((hfvals.stored_iff hf).mpr hs) hlt
        have hslice : b₁.slice (f.valueOffs + xattrSize e.valueSize) f.valueSize =
            b.slice f.valueOffs f.valueSize := by
          unfold stop at hle
          have hpart := (@Copies.part n n b b₁ m (m + xattrSize e.valueSize) (e.valueOffs - m)
            f.valueSize hcopy (f.valueOffs - m) (by omega)).slice
          have h1 : m + xattrSize e.valueSize + (f.valueOffs - m) =
            f.valueOffs + xattrSize e.valueSize := by omega
          have h2 : m + (f.valueOffs - m) = f.valueOffs := by omega
          rwa [h1, h2] at hpart
        unfold attr
        rw [key_adjust, hoffs, adjust_valueSize, hframe₃.slice (.inr (by omega)),
          hframe₂.slice (.inr (by omega)), hslice]
      · have hle := (hapart f hf).stop_le he hs (Nat.le_of_not_lt hlt)
        rw [adjust_above (Nat.le_of_not_lt hlt)]
        have hlow : attr b₃ f = attr b₂ f := attr_frame hframe₃ fun _ => .inl (by omega)
        rw [hlow]
        exact attr_frame hrange fun _ => .inl hle

end

end VMsep.Ext4.Xattr
