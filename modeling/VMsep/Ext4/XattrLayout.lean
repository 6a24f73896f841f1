import VMsep.Ext4.XattrEntries

/-! The bytes of an accepted area list entries one after the other, up to a zero word. The loops
over an area are loops over this list. -/

namespace VMsep.Ext4.Xattr

open VMsep.Lib VMsep.Lib.Block List

def Entry.Null (e : Entry) : Prop := e.name = [] ∧ e.nameIndex = 0 ∧ e.valueOffs = 0

def namesLen (es : List Entry) : ℕ := (es.map Entry.len).sum

variable {n : ℕ} {b b' : Block n} {o o' k fuel : ℕ} {e : Entry} {es fs : List Entry}
  {last m offs oldSize v : ℕ}

/-- The entries stand one after the other from `o` on. -/
def HeadsAt (b : Block n) : ℕ → List Entry → Prop
  | _, [] => True
  | o, e :: es => readEntry b o = e ∧ ¬ e.Null ∧ HeadsAt b (o + e.len) es

/-- The list of entries from `o` on, with its end. -/
structure EntriesAt (b : Block n) (o : ℕ) (es : List Entry) : Prop where
  heads : HeadsAt b o es
  last : isLast b (o + namesLen es) = true
  inside : o + namesLen es + 4 ≤ n

theorem le_len (e : Entry) : 16 + e.name.length ≤ e.len := by
  unfold Entry.len xattrLen
  omega

theorem dvd_len (e : Entry) : 4 ∣ e.len := Nat.dvd_mul_left 4 _

theorem name_length (b : Block n) (o : ℕ) : (readEntry b o).name.length = (b.byte o).toNat :=
  slice_length _ _ _

theorem isLast_iff : isLast b o = true ↔ (readEntry b o).Null := by
  have hname : (readEntry b o).name = [] ↔ (b.byte o).toNat = 0 := by
    rw [← name_length, length_eq_zero_iff]
  have hle : b.le o 4 =
      (b.byte o).toNat + 256 * ((b.byte (o + 1)).toNat + 256 * b.le (o + 2) 2) := rfl
  have hword : b.le o 4 = 0 ↔
      (b.byte o).toNat = 0 ∧ (b.byte (o + 1)).toNat = 0 ∧ b.le (o + 2) 2 = 0 := by
    rw [hle]
    omega
  unfold isLast Entry.Null
  rw [decide_eq_true_iff, hword, hname]
  rfl

theorem readEntry_copy (h : Copies b o b' o' k) (hk : (readEntry b o).len ≤ k) :
    readEntry b' o' = readEntry b o := by
  have hlen := le_len (readEntry b o)
  rw [name_length] at hlen
  have hbyte : ∀ j < 16, b'.byte (o' + j) = b.byte (o + j) := fun j hj => h j (by omega)
  have hfield : ∀ j m, j + m ≤ 16 → b'.le (o' + j) m = b.le (o + j) m :=
    fun j m hj => (h.part (by omega)).le
  have hhead : b'.byte o' = b.byte o := hbyte 0 (by omega)
  have hname : b'.slice (o' + 16) (b.byte o).toNat = b.slice (o + 16) (b.byte o).toNat :=
    (h.part (by omega)).slice
  simp only [readEntry, hbyte 1 (by omega), hfield 2 2 (by omega), hfield 4 4 (by omega),
    hfield 8 4 (by omega), hfield 12 4 (by omega), hhead, hname]

theorem isLast_copy (h : Copies b o b' o' 4) : isLast b' o' = isLast b o := by
  unfold isLast
  rw [h.le]

theorem namesLen_cons (e : Entry) (es : List Entry) : namesLen (e :: es) = e.len + namesLen es := by
  simp [namesLen]

theorem namesLen_append (es fs : List Entry) : namesLen (es ++ fs) = namesLen es + namesLen fs := by
  simp [namesLen]

theorem length_le_namesLen (es : List Entry) : 16 * es.length ≤ namesLen es := by
  induction es with
  | nil => exact Nat.le_refl 0
  | cons e =>
    have hlen := le_len e
    rw [namesLen_cons, length_cons]
    omega

theorem HeadsAt.copy (h : HeadsAt b o es) (hcopy : Copies b o b' o' (namesLen es)) :
    HeadsAt b' o' es := by
  induction es generalizing o o' with
  | nil => trivial
  | cons _ _ ih =>
    obtain ⟨hread, hnull, htail⟩ := h
    rw [namesLen_cons] at hcopy
    refine ⟨?_, hnull, ih htail (hcopy.part (Nat.le_refl _))⟩
    rw [readEntry_copy hcopy (by rw [hread]; omega), hread]

theorem headsAt_append :
    HeadsAt b o (es ++ fs) ↔ HeadsAt b o es ∧ HeadsAt b (o + namesLen es) fs := by
  induction es generalizing o with
  | nil => exact (true_and _).symm.to_iff
  | cons _ _ ih =>
    rw [cons_append, HeadsAt, HeadsAt, ih, namesLen_cons, Nat.add_assoc]
    simp only [and_assoc]

theorem EntriesAt.last_nil (h : EntriesAt b o []) : isLast b o = true := h.last

theorem EntriesAt.not_last (h : EntriesAt b o (e :: es)) : isLast b o = false := by
  obtain ⟨hread, hnull, -⟩ := h.heads
  rw [← Bool.not_eq_true, isLast_iff, hread]
  exact hnull

theorem EntriesAt.tail (h : EntriesAt b o (e :: es)) : EntriesAt b (o + e.len) es := by
  obtain ⟨-, -, htail⟩ := h.heads
  have hsum : o + namesLen (e :: es) = o + e.len + namesLen es := by
    rw [namesLen_cons, Nat.add_assoc]
  exact ⟨htail, hsum ▸ h.last, hsum ▸ h.inside⟩

theorem EntriesAt.cons (hread : readEntry b o = e) (hlast : isLast b o = false)
    (h : EntriesAt b (o + e.len) es) : EntriesAt b o (e :: es) := by
  have hsum : o + namesLen (e :: es) = o + e.len + namesLen es := by
    rw [namesLen_cons, Nat.add_assoc]
  refine ⟨⟨hread, ?_, h.heads⟩, hsum ▸ h.last, hsum ▸ h.inside⟩
  rw [← hread, ← isLast_iff, hlast]
  exact Bool.false_ne_true

theorem EntriesAt.length_lt (h : EntriesAt b o es) : es.length < n := by
  have hinside := h.inside
  have hlen := length_le_namesLen es
  omega

theorem EntriesAt.head_inside (h : EntriesAt b o es) : ¬ n < o + 4 := by
  have hinside := h.inside
  omega

theorem EntriesAt.unique (h : EntriesAt b o es) (h' : EntriesAt b o fs) : es = fs := by
  induction es generalizing o fs with
  | nil =>
    cases fs with
    | nil => rfl
    | cons =>
      exact absurd h.last_nil (by rw [h'.not_last]; exact Bool.false_ne_true)
  | cons e _ ih =>
    cases fs with
    | nil =>
      exact absurd h'.last_nil (by rw [h.not_last]; exact Bool.false_ne_true)
    | cons f =>
      have hef : e = f := h.heads.1.symm.trans h'.heads.1
      subst hef
      rw [ih h.tail h'.tail]

theorem checkNames_eq (h : EntriesAt b o es) (hfuel : es.length < fuel) :
    checkNames b fuel o = some (o + namesLen es) := by
  induction es generalizing o fuel with
  | nil =>
    obtain ⟨m, rfl⟩ := Nat.exists_eq_add_one_of_ne_zero (Nat.ne_zero_of_lt hfuel)
    rw [checkNames, if_pos h.last_nil]
    rfl
  | cons e _ ih =>
    obtain ⟨m, rfl⟩ := Nat.exists_eq_add_one_of_ne_zero (Nat.ne_zero_of_lt hfuel)
    have htail := h.tail
    have hinside : ¬ o + e.len ≥ n := by
      have hend := htail.inside
      omega
    rw [checkNames, h.not_last, if_neg Bool.false_ne_true, h.heads.1]
    rw [if_neg hinside, ih htail (Nat.lt_of_succ_lt_succ hfuel), namesLen_cons, Nat.add_assoc]

theorem entriesAt_of_checkNames (ho : 4 ∣ o) (hn : 4 ∣ n) (hlt : o < n)
    (h : checkNames b fuel o = some last) : ∃ es, EntriesAt b o es ∧ last = o + namesLen es := by
  induction fuel generalizing o with
  | zero => cases h
  | succ _ ih =>
    rw [checkNames] at h
    split at h
    case isTrue hlast =>
      refine ⟨[], ⟨trivial, hlast, ?_⟩, (Option.some.inj h).symm⟩
      simp only [namesLen, map_nil, sum_nil]
      omega
    case isFalse hlast =>
      dsimp only at h
      split at h
      case isTrue => cases h
      case isFalse hinside =>
        have hdvd := Nat.dvd_add ho (dvd_len (readEntry b o))
        obtain ⟨es, hes, rfl⟩ := ih hdvd (Nat.lt_of_not_le hinside) h
        refine ⟨readEntry b o :: es, .cons rfl (Bool.not_eq_true _ ▸ hlast) hes, ?_⟩
        rw [namesLen_cons, Nat.add_assoc]

theorem checkValues_eq (h : EntriesAt b o es) (hfuel : es.length < fuel) :
    checkValues b last fuel o = es.all (valueOk n last) := by
  induction es generalizing o fuel with
  | nil =>
    obtain ⟨m, rfl⟩ := Nat.exists_eq_add_one_of_ne_zero (Nat.ne_zero_of_lt hfuel)
    rw [checkValues, if_pos h.last_nil]
    rfl
  | cons _ _ ih =>
    obtain ⟨m, rfl⟩ := Nat.exists_eq_add_one_of_ne_zero (Nat.ne_zero_of_lt hfuel)
    rw [checkValues, h.not_last, if_neg Bool.false_ne_true, h.heads.1,
      ih h.tail (Nat.lt_of_succ_lt_succ hfuel), all_cons]

theorem checkEntries_iff (A : Area) (b : Block A.size) : checkEntries A.first b = 0 ↔
      ∃ es, EntriesAt b A.first es ∧ ∀ e ∈ es, valueOk A.size (A.first + namesLen es) e = true := by
  have hfirst : 4 ∣ A.first := by
    rw [A.first_eq]
    split <;> decide
  constructor
  · intro h
    cases hnames : checkNames b A.size A.first with
    | none =>
      simp only [checkEntries, hnames] at h
      cases h
    | some =>
      obtain ⟨es, hes, rfl⟩ := entriesAt_of_checkNames hfirst A.size_dvd A.first_lt hnames
      simp only [checkEntries, hnames, checkValues_eq hes hes.length_lt] at h
      split at h
      case isTrue hall => exact ⟨es, hes, all_eq_true.mp hall⟩
      case isFalse => cases h
  · rintro ⟨es, hes, hok⟩
    have hall : es.all (valueOk A.size (A.first + namesLen es)) = true :=
      all_eq_true.mpr hok
    simp only [checkEntries, checkNames_eq hes hes.length_lt, checkValues_eq hes hes.length_lt,
      hall, if_true]

structure StopsAt (sorted : Bool) (k : NameKey) (es fs : List Entry) (notFound : Bool) : Prop where
  before : ∀ e ∈ es, ¬ (k ≤ e.key ∧ (sorted = true ∨ k = e.key))
  here : (notFound = false ∧ ∃ e tl, fs = e :: tl ∧ e.key = k) ∨
    (notFound = true ∧ (fs = [] ∨ ∃ e tl, fs = e :: tl ∧ sorted = true ∧ k < e.key))

/-- The search stops at the entry of the name or where it belongs. -/
theorem findEntry_spec (sorted : Bool) (k : NameKey) (h : EntriesAt b o es)
    (hfuel : es.length < fuel) :
    ∃ es₁ es₂ notFound, es = es₁ ++ es₂ ∧ StopsAt sorted k es₁ es₂ notFound ∧
      findEntry sorted k b fuel o = some (o + namesLen es₁, notFound) := by
  induction es generalizing o fuel with
  | nil =>
    obtain ⟨m, rfl⟩ := Nat.exists_eq_add_one_of_ne_zero (Nat.ne_zero_of_lt hfuel)
    refine ⟨[], [], true, rfl, ⟨by simp, .inr ⟨rfl, .inl rfl⟩⟩, ?_⟩
    rw [findEntry, if_neg h.head_inside, if_pos h.last_nil]
    rfl
  | cons e es ih =>
    obtain ⟨m, rfl⟩ := Nat.exists_eq_add_one_of_ne_zero (Nat.ne_zero_of_lt hfuel)
    rw [findEntry, if_neg h.head_inside, h.not_last, if_neg Bool.false_ne_true, h.heads.1]
    dsimp only
    split
    case isTrue hstop =>
      refine ⟨[], e :: es, decide (k ≠ e.key), rfl, ⟨by simp, ?_⟩, rfl⟩
      by_cases heq : k = e.key
      · exact .inl ⟨by simp [heq], e, es, rfl, heq.symm⟩
      obtain ⟨hle, hs⟩ := hstop
      have hsorted := hs.resolve_right heq
      exact .inr ⟨by simp [heq], .inr ⟨e, es, rfl, hsorted, lt_of_le_of_ne hle heq⟩⟩
    case isFalse hgo =>
      obtain ⟨es₁, es₂, notFound, rfl, hstop, hfind⟩ := ih h.tail (Nat.lt_of_succ_lt_succ hfuel)
      refine ⟨e :: es₁, es₂, notFound, rfl, ⟨?_, hstop.here⟩, ?_⟩
      · exact forall_mem_cons.mpr ⟨hgo, hstop.before⟩
      · rw [hfind, namesLen_cons, Nat.add_assoc]

def minOffs (m : ℕ) (es : List Entry) : ℕ :=
  es.foldl (fun m e => if e.Stored ∧ e.valueOffs < m then e.valueOffs else m) m

theorem minOffs_cons (m : ℕ) (e : Entry) (es : List Entry) : minOffs m (e :: es) =
      minOffs (if e.Stored ∧ e.valueOffs < m then e.valueOffs else m) es := rfl

theorem scanEntries_eq (h : EntriesAt b o es) (hfuel : es.length < fuel) :
    scanEntries b fuel o m = some (minOffs m es, o + namesLen es) := by
  induction es generalizing o fuel m with
  | nil =>
    obtain ⟨m', rfl⟩ := Nat.exists_eq_add_one_of_ne_zero (Nat.ne_zero_of_lt hfuel)
    rw [scanEntries, if_neg h.head_inside, if_pos h.last_nil]
    rfl
  | cons _ _ ih =>
    obtain ⟨m', rfl⟩ := Nat.exists_eq_add_one_of_ne_zero (Nat.ne_zero_of_lt hfuel)
    rw [scanEntries, if_neg h.head_inside, h.not_last, if_neg Bool.false_ne_true, h.heads.1]
    rw [ih h.tail (Nat.lt_of_succ_lt_succ hfuel), namesLen_cons, Nat.add_assoc]
    rfl

theorem minOffs_le (m : ℕ) (es : List Entry) :
    minOffs m es ≤ m ∧ ∀ e ∈ es, e.Stored → minOffs m es ≤ e.valueOffs := by
  induction es generalizing m with
  | nil => exact ⟨Nat.le_refl m, by simp⟩
  | cons e _ ih =>
    obtain ⟨hle, hall⟩ := ih (if e.Stored ∧ e.valueOffs < m then e.valueOffs else m)
    rw [minOffs_cons]
    have hhead : (if e.Stored ∧ e.valueOffs < m then e.valueOffs else m) ≤ m := by
      split <;> omega
    refine ⟨hle.trans hhead, forall_mem_cons.mpr ⟨fun hs => hle.trans ?_, hall⟩⟩
    split
    case isTrue => exact Nat.le_refl _
    case isFalse hnot => exact Nat.le_of_not_lt fun hlt => hnot ⟨hs, hlt⟩

theorem le_minOffs {c : ℕ} (hm : c ≤ m) (h : ∀ e ∈ es, e.Stored → c ≤ e.valueOffs) :
    c ≤ minOffs m es := by
  induction es generalizing m with
  | nil => exact hm
  | cons _ _ ih =>
    obtain ⟨he, hes⟩ := forall_mem_cons.mp h
    rw [minOffs_cons]
    refine ih ?_ hes
    split
    case isTrue hs => exact he hs.1
    case isFalse => exact hm

def Entry.adjust (offs oldSize : ℕ) (e : Entry) : Entry :=
  if e.Stored ∧ e.valueOffs < offs then { e with valueOffs := e.valueOffs + oldSize } else e

theorem adjust_len (offs oldSize : ℕ) (e : Entry) : (e.adjust offs oldSize).len = e.len := by
  unfold Entry.adjust
  split <;> rfl

theorem readEntry_fields (hframe : Frame b b' (o + 2) (o + 16)) :
    readEntry b' o = { readEntry b o with
      valueOffs := b'.le (o + 2) 2, valueInum := b'.le (o + 4) 4
      valueSize := b'.le (o + 8) 4, hash := b'.le (o + 12) 4 } := by
  have hbyte : ∀ j < 2, b'.byte (o + j) = b.byte (o + j) := fun j hj => hframe _ (by omega)
  have hhead : b'.byte o = b.byte o := hbyte 0 (by omega)
  have hname : b'.slice (o + 16) (b.byte o).toNat = b.slice (o + 16) (b.byte o).toNat :=
    hframe.slice (by omega)
  simp only [readEntry, hbyte 1 (by omega), hhead, hname]

theorem readEntry_valueOffs (hle : b'.le (o + 2) 2 = v) (hframe : Frame b b' (o + 2) (o + 4)) :
    readEntry b' o = { readEntry b o with valueOffs := v } := by
  have hfield : ∀ j, 4 ≤ j → b'.le (o + j) 4 = b.le (o + j) 4 :=
    fun j hj => hframe.le (by omega)
  rw [readEntry_fields (hframe.mono (by omega) (by omega)), hle, hfield 4 (by omega),
    hfield 8 (by omega), hfield 12 (by omega)]
  rfl

theorem readEntry_valueSize (hle : b'.le (o + 8) 4 = v) (hframe : Frame b b' (o + 8) (o + 12)) :
    readEntry b' o = { readEntry b o with valueSize := v } := by
  rw [readEntry_fields (hframe.mono (by omega) (by omega)), hle, hframe.le (.inl (by omega)),
    hframe.le (.inl (by omega)), hframe.le (.inr (by omega))]
  rfl

theorem readEntry_hash (hle : b'.le (o + 12) 4 = v) (hframe : Frame b b' (o + 12) (o + 16)) :
    readEntry b' o = { readEntry b o with hash := v } := by
  rw [readEntry_fields (hframe.mono (by omega) (by omega)), hle, hframe.le (.inl (by omega)),
    hframe.le (.inl (by omega)), hframe.le (.inl (by omega))]
  rfl

theorem adjustOffs_spec (h : EntriesAt b o es) (hfuel : es.length < fuel)
    (hfit : ∀ e ∈ es, e.Stored → e.valueOffs < offs → e.valueOffs + oldSize < 256 ^ 2) :
    ∃ b', adjustOffs offs oldSize fuel o b = some b' ∧
      EntriesAt b' o (es.map (Entry.adjust offs oldSize)) ∧ Frame b b' o (o + namesLen es) := by
  induction es generalizing o fuel b with
  | nil =>
    obtain ⟨m, rfl⟩ := Nat.exists_eq_add_one_of_ne_zero (Nat.ne_zero_of_lt hfuel)
    refine ⟨b, ?_, h, Frame.refl b _ _⟩
    rw [adjustOffs, if_neg h.head_inside, if_pos h.last_nil]
  | cons e es ih =>
    obtain ⟨m, rfl⟩ := Nat.exists_eq_add_one_of_ne_zero (Nat.ne_zero_of_lt hfuel)
    obtain ⟨hread, hnull, -⟩ := h.heads
    obtain ⟨hfite, hfites⟩ := forall_mem_cons.mp hfit
    have hlen := le_len e
    have hinside := h.tail.inside
    -- one step changes the entry in place
    obtain ⟨b₁, hb₁, hread₁, hframe₁⟩ : ∃ b₁,
        (if e.Stored ∧ e.valueOffs < offs then b.putLe (o + 2) 2 (e.valueOffs + oldSize)
          else some b) = some b₁ ∧ readEntry b₁ o = e.adjust offs oldSize ∧
        Frame b b₁ o (o + 16) := by
      unfold Entry.adjust
      split
      case isTrue hs =>
        obtain ⟨b₁, hb₁, hle, hframe⟩ :=
          @putLe_spec n b (o + 2) 2 (e.valueOffs + oldSize) (by omega)
        rw [Nat.mod_eq_of_lt (hfite hs.1 hs.2)] at hle
        refine ⟨b₁, hb₁, ?_, hframe.mono (by omega) (by omega)⟩
        rw [readEntry_valueOffs hle hframe, hread]
      case isFalse => exact ⟨b, rfl, hread, Frame.refl b _ _⟩
    have htail₁ : EntriesAt b₁ (o + e.len) es := by
      have htail := h.tail
      refine ⟨htail.heads.copy (hframe₁.copies (.inr (by omega))), ?_, htail.inside⟩
      rw [isLast_copy (hframe₁.copies (.inr (by omega)))]
      exact htail.last
    obtain ⟨b₂, hb₂, hes₂, hframe₂⟩ := ih htail₁ (Nat.lt_of_succ_lt_succ hfuel) hfites
    refine ⟨b₂, ?_, ?_, ?_⟩
    · rw [adjustOffs, if_neg h.head_inside, h.not_last, if_neg Bool.false_ne_true, hread]
      dsimp only
      rw [hb₁]
      exact hb₂
    · have hread₂ : readEntry b₂ o = e.adjust offs oldSize := by
        rw [← hread₁]
        refine readEntry_copy (hframe₂.copies (.inl (Nat.le_refl _))) ?_
        rw [hread₁, adjust_len]
      rw [map_cons]
      refine .cons hread₂ ?_ (by rw [adjust_len]; exact hes₂)
      rw [← Bool.not_eq_true, isLast_iff, hread₂]
      unfold Entry.adjust
      split
      · rintro ⟨hname, hindex, hoffs⟩
        exact hnull ⟨hname, hindex, Nat.eq_zero_of_add_eq_zero_right hoffs⟩
      · exact hnull
    · rw [namesLen_cons, ← Nat.add_assoc]
      exact (hframe₁.mono (Nat.le_refl _) (by omega)).trans
        (hframe₂.mono (by omega) (Nat.le_refl _))

theorem rehash_spec (h : EntriesAt b o es) (ho : 16 ≤ o) :
    ∃ b', rehash o b = some b' ∧ Frame b b' 12 16 := by
  have hloop : ∀ {fuel o : ℕ} {es : List Entry} {hash : BitVec 32}, EntriesAt b o es →
      es.length < fuel → ∃ hash', rehashLoop b fuel o hash = some hash' := by
    intro fuel o es hash h hfuel
    induction es generalizing o fuel hash with
    | nil =>
      obtain ⟨m, rfl⟩ := Nat.exists_eq_add_one_of_ne_zero (Nat.ne_zero_of_lt hfuel)
      exact ⟨hash, by rw [rehashLoop, if_neg h.head_inside, if_pos h.last_nil]⟩
    | cons _ _ ih =>
      obtain ⟨m, rfl⟩ := Nat.exists_eq_add_one_of_ne_zero (Nat.ne_zero_of_lt hfuel)
      rw [rehashLoop, if_neg h.head_inside, h.not_last, if_neg Bool.false_ne_true, h.heads.1]
      dsimp only
      split
      case isTrue => exact ⟨0, rfl⟩
      case isFalse => exact ih h.tail (Nat.lt_of_succ_lt_succ hfuel)
  obtain ⟨hash, hhash⟩ := @hloop n o es 0 h h.length_lt
  have hinside := h.inside
  obtain ⟨b', hb', -, hframe⟩ := @putLe_spec n b 12 4 hash.toNat (by omega)
  refine ⟨b', ?_, hframe⟩
  rw [rehash, hhash]
  exact hb'

end VMsep.Ext4.Xattr
