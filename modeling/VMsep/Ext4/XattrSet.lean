import VMsep.Ext4.XattrChange

/-! On an accepted area `ext4_xattr_set_entry` changes the attribute that it is asked to change and
no other, if the value of that one lies apart from the others. -/

namespace VMsep.Ext4.Xattr

open VMsep.Lib VMsep.Lib.Block List Entry

structure Updated (A : Area) (i : Info) (b b' : Block A.size) (es₁ old es₂ : List Entry)
    (fs₁ mid fs₂ : List Entry) : Prop where
  entries : EntriesAt b' A.first (fs₁ ++ mid ++ fs₂)
  values : ValuesAt A.size (A.first + namesLen (fs₁ ++ mid ++ fs₂) + 4) (fs₁ ++ mid ++ fs₂)
  left : fs₁.map (attr b') = es₁.map (attr b)
  right : fs₂.map (attr b') = es₂.map (attr b)
  middle : mid.map (attr b') = (i.value.map fun v => (i.key, v.content)).toList
  header : HeaderKept A b b'
  kept : Kept (es₁ ++ old ++ es₂) (fs₁ ++ mid ++ fs₂)

variable {A : Area} {ea : EaCalls} {i : Info} {b b' : Block A.size} {v : Value}
  {n lo m o : ℕ} {c c' : Block n} {e e' : Entry} {es es₁ es₂ fs fs₁ fs₂ : List Entry}

theorem nameKey_inj {j k : ℕ} {s t : List (BitVec 8)} :
    nameKey j s = nameKey k t ↔ j = k ∧ s = t := by
  constructor
  · intro h
    have hpair : (j, toLex (s.length, s.map BitVec.toNat)) =
        (k, toLex (t.length, t.map BitVec.toNat)) := toLex.injective h
    have hinj : Function.Injective (BitVec.toNat : BitVec 8 → ℕ) := fun _ _ => BitVec.eq_of_toNat_eq
    obtain ⟨hj, hs⟩ := Prod.mk.inj hpair
    have hs' : (s.length, s.map BitVec.toNat) = (t.length, t.map BitVec.toNat) :=
      toLex.injective hs
    exact ⟨hj, map_injective_iff.mpr hinj (Prod.mk.inj hs').2⟩
  · rintro ⟨rfl, rfl⟩
    rfl

def keyLen (k : NameKey) : ℕ := xattrLen (ofLex (ofLex k).2).1

theorem len_eq (e : Entry) : e.len = keyLen e.key := rfl

theorem namesLen_of_attr (h : fs.map (attr c') = es.map (attr c)) : namesLen fs = namesLen es := by
  have hlen : ∀ (c : Block n) (es : List Entry),
      namesLen es = ((es.map (attr c)).map fun a => keyLen a.1).sum := by
    intro c es
    rw [map_map]
    rfl
  rw [hlen c' fs, hlen c es, h]

theorem keys_of_attr (h : fs.map (attr c') = es.map (attr c)) :
    fs.map Entry.key = es.map Entry.key := by
  have hkey : ∀ (c : Block n) (es : List Entry),
      es.map key = (es.map (attr c)).map Prod.fst := by
    intro c es
    rw [map_map]
    rfl
  rw [hkey c' fs, hkey c es, h]

theorem ValuesAt.insert (h : ValuesAt n m (es₁ ++ es₂)) (hlo : lo ≤ m) (hm : m ≤ n)
    (hinum : e.valueInum = 0) (hplace : e.valueSize ≠ 0 → lo ≤ e.valueOffs ∧ e.stop ≤ m) :
    ValuesAt n lo (es₁ ++ e :: es₂) :=
  ⟨forall_middle.mpr ⟨hinum, h.inum⟩,
    forall_middle.mpr ⟨fun hs => ⟨(hplace hs).1, (hplace hs).2.trans hm⟩, (h.mono hlo).inside⟩⟩

theorem Kept.insert (h : Kept es (fs₁ ++ fs₂)) (hvals : ValuesAt n m (fs₁ ++ fs₂))
    (hdvd : (∀ f ∈ es, 4 ∣ f.valueOffs) → 4 ∣ e.valueOffs)
    (hempty : e.valueSize = 0 → e.valueOffs = 0) (hplace : e.valueSize ≠ 0 → e.stop ≤ m) :
    Kept es (fs₁ ++ e :: fs₂) where
  aligned := fun hal => forall_middle.mpr ⟨hdvd hal, h.aligned hal⟩
  empty := fun hall => forall_middle.mpr ⟨hempty, h.empty hall⟩
  apart := fun hap => pairwise_apart_middle.mpr
    ⟨fun f hf hs hs' => .inl ((hplace hs).trans (hvals.inside f hf hs').1), h.apart hap⟩

section

variable (hoffs : e'.valueOffs = e.valueOffs)
  (hsize : xattrSize e'.valueSize = xattrSize e.valueSize) (he : e.valueSize ≠ 0)

include hoffs hsize he

theorem ValuesAt.replace (h : ValuesAt n lo (es₁ ++ e :: es₂))
    (hinum : e'.valueInum = e.valueInum) : ValuesAt n lo (es₁ ++ e' :: es₂) := by
  have hmem : ∀ {P : Entry → Prop}, (P e → P e') → (∀ f ∈ es₁ ++ e :: es₂, P f) →
      ∀ f ∈ es₁ ++ e' :: es₂, P f :=
    fun hP hall => forall_middle.mpr ((forall_middle.mp hall).imp hP id)
  refine ⟨hmem (fun hP => hinum.trans hP) h.inum, hmem (fun hP _ => ?_) h.inside⟩
  unfold stop at hP ⊢
  rw [hoffs, hsize]
  exact hP he

theorem Kept.replace (he' : e'.valueSize ≠ 0) : Kept (es₁ ++ e :: es₂) (es₁ ++ e' :: es₂) where
  aligned := fun hal => by
    obtain ⟨hhead, hrest⟩ := forall_middle.mp hal
    exact forall_middle.mpr ⟨hoffs ▸ hhead, hrest⟩
  empty := fun hall => forall_middle.mpr ⟨fun hs => absurd hs he', (forall_middle.mp hall).2⟩
  apart := fun hap => by
    obtain ⟨hhead, hrest⟩ := pairwise_apart_middle.mp hap
    refine pairwise_apart_middle.mpr ⟨fun f hf _ hs => ?_, hrest⟩
    unfold stop
    rw [hoffs, hsize]
    exact hhead f hf he hs

end

theorem dvd_xattrSize (s : ℕ) : 4 ∣ xattrSize s := Nat.dvd_mul_left 4 _

theorem dvd_minOffs (hm : 4 ∣ m) (h : ∀ e ∈ es, 4 ∣ e.valueOffs) : 4 ∣ minOffs m es := by
  induction es generalizing m with
  | nil => exact hm
  | cons _ _ ih =>
    obtain ⟨he, hes⟩ := forall_mem_cons.mp h
    rw [minOffs_cons]
    refine ih ?_ hes
    split
    · exact he
    · exact hm

/-- Without the old value, every other entry has the value it had. -/
theorem dropOld_spec (h : EntriesAt c o (es₁ ++ e :: es₂)) (hn : n ≤ 2 ^ 16)
    (hvals : ValuesAt n (o + namesLen (es₁ ++ e :: es₂) + 4) (es₁ ++ e :: es₂))
    (hm : m = minOffs n (es₁ ++ e :: es₂)) (hapart : ∀ f ∈ es₁ ++ es₂, Apart e f)
    (hempty : e.valueSize = 0 → e.valueOffs = 0 ∨ m ≤ e.valueOffs ∧ e.valueOffs ≤ n) :
    ∃ c' fs₁ fs₂,
      (if e.valueOffs ≠ 0 then removeValue o e.valueOffs (xattrSize e.valueSize) m c
        else some (m, c)) = some (m + xattrSize e.valueSize, c') ∧
      EntriesAt c' o (fs₁ ++ e :: fs₂) ∧
      fs₁.map (attr c') = es₁.map (attr c) ∧ fs₂.map (attr c') = es₂.map (attr c) ∧
      ValuesAt n (m + xattrSize e.valueSize) (fs₁ ++ fs₂) ∧ Frame c c' o n ∧
      m + xattrSize e.valueSize ≤ n ∧ Kept (es₁ ++ es₂) (fs₁ ++ fs₂) := by
  have hmem : e ∈ es₁ ++ e :: es₂ := by simp
  have hlow := hvals.from_minOffs
  have hsub := sublist_middle es₁ es₂ e
  rw [← hm] at hlow
  have hlast : o + namesLen (es₁ ++ e :: es₂) + 4 ≤ m := hm ▸ hvals.le_minOffs h.inside
  have hmn : m ≤ n := hm ▸ (minOffs_le n _).1
  by_cases hs : e.valueSize = 0
  · have hrefl : Kept (es₁ ++ es₂) (es₁ ++ es₂) := ⟨id, id, id⟩
    have hsize : xattrSize e.valueSize = 0 := by rw [hs]; rfl
    rw [hsize]
    by_cases hz : e.valueOffs = 0
    · rw [if_neg (not_not.mpr hz)]
      exact ⟨c, es₁, es₂, rfl, h, rfl, rfl, hlow.sublist hsub, Frame.refl c _ _, hmn, hrefl⟩
    obtain ⟨hle, hn'⟩ := (hempty hs).resolve_left hz
    obtain ⟨c', hc', hes, hframe⟩ := removeValue_empty h hn hlow hlast hle hn'
    have hattr : (es₁ ++ es₂).map (attr c') = (es₁ ++ es₂).map (attr c) :=
      (hlow.sublist hsub).map_attr (hframe.mono (Nat.le_refl _) (by omega))
    rw [map_append, map_append] at hattr
    obtain ⟨hleft, hright⟩ := append_inj hattr (by rw [length_map, length_map])
    refine ⟨c', es₁, es₂, ?_, hes, hleft, hright, hlow.sublist hsub,
      hframe.mono (Nat.le_refl _) (by omega), hmn, hrefl⟩
    rw [if_pos hz, hc']
    rfl
  · obtain ⟨hlo, hstop⟩ := hlow.inside e hmem hs
    have hoffs : e.valueOffs ≠ 0 := by
      have hplace := (hvals.inside e hmem hs).1
      omega
    obtain ⟨c', hc', hes, hframe, hattr⟩ := removeValue_spec h hn hlow hapart hs hlast
    refine ⟨c', _, _, ?_, hes, ?_, ?_, ?_, hframe.mono (Nat.le_refl _) hstop, ?_, ?_⟩
    · rw [if_pos hoffs, hc']
    · rw [map_map]
      exact map_congr_left fun f hf => hattr f (mem_append_left _ hf)
    · rw [map_map]
      exact map_congr_left fun f hf => hattr f (mem_append_right _ hf)
    · rw [← map_append]
      exact (hlow.sublist hsub).adjust hapart hs hlo hstop
    · unfold stop at hstop
      omega
    · rw [← map_append]
      exact .adjust (hlow.sublist hsub).inum hapart hs

theorem newSize_eq (hvalue : i.value = some v) (hin : i.inInode = false) :
    i.newSize = xattrSize v.length := by
  simp only [Info.newSize, hvalue, hin, Bool.false_eq_true, if_false]

theorem newEaInode_eq (hin : i.inInode = false) : newEaInode ea i = .ok none := by
  unfold newEaInode
  split
  · rfl
  · rw [if_pos hin]

theorem finish_put (h : EntriesAt b A.first (fs₁ ++ e :: fs₂)) (hvalue : i.value = some v)
    (hin : i.inInode = false) (hkey : e.key = i.key) (hnamed : i.Named)
    (hoffs : e.valueOffs = 0) (hinum : e.valueInum = 0)
    (hvals : ValuesAt A.size m (fs₁ ++ fs₂)) (hm : m ≤ A.size) (hes : Kept es (fs₁ ++ fs₂))
    (hdvd : (∀ f ∈ es, 4 ∣ f.valueOffs) → 4 ∣ m)
    (hroom : A.first + namesLen (fs₁ ++ e :: fs₂) + 4 + xattrSize v.length ≤ m) :
    ∃ b' mid, ((insertValue i (A.first + namesLen fs₁) m none b).bind
        (updateHash A i (A.first + namesLen fs₁) none)) = some (0, b') ∧
      EntriesAt b' A.first (fs₁ ++ [mid] ++ fs₂) ∧
      ValuesAt A.size (A.first + namesLen (fs₁ ++ [mid] ++ fs₂) + 4) (fs₁ ++ [mid] ++ fs₂) ∧
      (fs₁ ++ fs₂).map (attr b') = (fs₁ ++ fs₂).map (attr b) ∧
      attr b' mid = (i.key, v.content) ∧ HeaderKept A b b' ∧ Kept es (fs₁ ++ [mid] ++ fs₂) := by
  have hnull : ¬ (e.name = [] ∧ e.nameIndex = 0) := by
    obtain ⟨hindex, hname⟩ := nameKey_inj.mp hkey
    rw [hindex, hname]
    exact hnamed
  have hsize := A.size_le
  obtain ⟨b₁, e₁, hb₁, he₁, hes₁, hframe₁, hattr₁⟩ :=
    insertValue_spec h hvalue hin (by omega) hm hroom hoffs hnull
  have hlen₁ : namesLen (fs₁ ++ e₁ :: fs₂) = namesLen (fs₁ ++ e :: fs₂) := by
    rw [namesLen_middle, namesLen_middle, he₁]
    rfl
  obtain ⟨b₂, hash, hb₂, hes₂, hkept, hattr₂⟩ := updateHash_put hes₁ hvalue
  have hlen₂ : namesLen (fs₁ ++ { e₁ with hash := hash } :: fs₂) =
      namesLen (fs₁ ++ e :: fs₂) := by
    rw [← hlen₁, namesLen_middle, namesLen_middle]
    rfl
  have hplace : e₁.valueSize ≠ 0 →
      A.first + namesLen (fs₁ ++ e :: fs₂) + 4 ≤ e₁.valueOffs ∧ e₁.stop ≤ m := by
    intro hs
    rw [he₁] at hs ⊢
    have hs' : v.length ≠ 0 := hs
    unfold stop
    dsimp only
    rw [if_neg hs']
    omega
  refine ⟨b₂, { e₁ with hash := hash }, ?_, ?_, ?_, ?_, ?_, ?_, ?_⟩
  · rw [hb₁]
    exact hb₂
  · rw [append_assoc]
    exact hes₂
  · rw [append_assoc, singleton_append, hlen₂]
    refine hvals.insert (by omega) hm ?_ hplace
    rw [he₁]
    exact hinum
  · refine map_congr_left fun f hf => ?_
    have hlow : f.valueSize ≠ 0 → m ≤ f.valueOffs := fun hs => (hvals.inside f hf hs).1
    rw [hattr₂ f fun hs => by have hle := hlow hs; omega]
    exact attr_frame hframe₁ fun hs => .inl (hlow hs)
  · have hsame : attr b₂ { e₁ with hash := hash } = attr b₂ e₁ := rfl
    rw [hsame, hattr₂ e₁ fun hs => by have hle := hplace hs; omega, hattr₁, hkey]
  · exact (headerKept_of_frame hframe₁).trans hkept
  · rw [append_assoc]
    refine hes.insert hvals (fun hal => ?_) (fun hs => ?_) fun hs => (hplace hs).2
    · rw [he₁]
      split
      · exact Nat.dvd_zero 4
      · exact Nat.dvd_sub (hdvd hal) (dvd_xattrSize _)
    · rw [he₁] at hs ⊢
      have hs' : v.length = 0 := hs
      rw [if_pos hs']

/-- The end of a removal: the entry goes, and the others keep their values. -/
theorem finish_remove (h : EntriesAt b A.first (fs₁ ++ e :: fs₂)) (hvalue : i.value = none)
    (hlen : i.nameLen = e.len) (hvals : ValuesAt A.size m (fs₁ ++ fs₂))
    (hm : A.first + namesLen (fs₁ ++ e :: fs₂) ≤ m) :
    ∃ b', ((changeName i (A.first + namesLen fs₁) (A.first + namesLen (fs₁ ++ e :: fs₂)) false
        b).bind fun b => (insertValue i (A.first + namesLen fs₁) m none b).bind
          (updateHash A i (A.first + namesLen fs₁) none)) = some (0, b') ∧
      EntriesAt b' A.first (fs₁ ++ fs₂) ∧ HeaderKept A b b' ∧
      ∀ f ∈ fs₁ ++ fs₂, attr b' f = attr b f := by
  obtain ⟨b₁, hb₁, hes₁, hframe⟩ :=
    @changeName_remove A.size A.first b e fs₁ fs₂ i false h A.size_le hvalue hlen
  obtain ⟨b₂, hb₂, hes₂, hkept, hattr⟩ := rehashIf_spec hes₁
  refine ⟨b₂, ?_, hes₂, (headerKept_of_frame hframe).trans hkept, fun f hf => ?_⟩
  · rw [hb₁, Option.bind_some]
    simp only [insertValue, updateHash, hvalue, Option.isSome_none, Bool.false_eq_true, if_false,
      hb₂, Option.bind_eq_bind, Option.bind_some]
  · have hlow : f.valueSize ≠ 0 → A.first + namesLen (fs₁ ++ e :: fs₂) ≤ f.valueOffs :=
      fun hs => hm.trans (hvals.inside f hf hs).1
    rw [hattr f fun hs => by have hp := hlow hs; omega]
    exact attr_frame hframe fun hs => .inl (hlow hs)

theorem free_eq {last : ℕ} (hlast : last + 4 ≤ m) (hm : m ≤ A.size) :
    sub64 (sub64 m last) 4 = m - last - 4 := by
  have hsize := A.size_le
  have hdiff : sub64 m last = m - last := sub64_of_le (by omega) (by omega)
  rw [hdiff, sub64_of_le (by omega) (by omega)]

theorem room_of_noSpace {notFound : Bool} {old last : ℕ} (hvalue : i.value = some v)
    (hin : i.inInode = false) (hlast : last + 4 ≤ m) (hm : m ≤ A.size)
    (h : ¬ noSpace A i notFound old m last = true) : last + 4 + i.nameLen + xattrSize v.length ≤
      m + if notFound = true then 0 else i.nameLen + old := by
  unfold noSpace at h
  rw [decide_eq_true_iff, hvalue, newSize_eq hvalue hin, free_eq hlast hm] at h
  have hnot := Nat.le_of_not_lt fun hlt => h ⟨rfl, .inl hlt⟩
  cases notFound with
  | true =>
    rw [if_pos rfl] at hnot ⊢
    omega
  | false =>
    rw [if_neg Bool.false_ne_true] at hnot ⊢
    omega

theorem setEntry_insert (h : EntriesAt b A.first (es₁ ++ es₂))
    (hvals : ValuesAt A.size (A.first + namesLen (es₁ ++ es₂) + 4) (es₁ ++ es₂))
    (hvalue : i.value = some v) (hin : i.inInode = false) (hnamed : i.Named) :
    setEntry A ea i (A.first + namesLen es₁) true b = some (eNospc, b) ∨
      ∃ b' fs₁ mid fs₂, setEntry A ea i (A.first + namesLen es₁) true b = some (0, b') ∧
        Updated A i b b' es₁ [] es₂ fs₁ mid fs₂ := by
  have hscan := @scanEntries_eq A.size b A.first A.size _ A.size h h.length_lt
  have hshort : ¬ (i.newSize ≠ 0 ∧ i.newSize = 0) := fun hs => hs.1 hs.2
  have hlast := hvals.le_minOffs h.inside
  have hmn := (minOffs_le A.size (es₁ ++ es₂)).1
  by_cases hspace : noSpace A i true 0 (minOffs A.size (es₁ ++ es₂))
      (A.first + namesLen (es₁ ++ es₂)) = true
  · left
    simp only [setEntry, Bool.true_eq_false, false_and, if_false, hshort, hscan, hspace, if_true,
      Option.bind_eq_bind, Option.bind_some]
  · right
    have hroom := room_of_noSpace hvalue hin hlast hmn hspace
    rw [if_pos rfl] at hroom
    obtain ⟨b₁, hb₁, hes₁, hframe₁⟩ := changeName_insert h A.size_le hvalue hnamed (by omega)
    have hlow := hvals.from_minOffs
    have hlen : namesLen (es₁ ++ newEntry i :: es₂) = namesLen (es₁ ++ es₂) + i.nameLen := by
      have hnew : (newEntry i).len = i.nameLen := rfl
      rw [namesLen_middle, namesLen_append, hnew]
      omega
    obtain ⟨b₂, mid, hb₂, hes₂, hvals₂, hattr₂, hmid, hkept, hlist⟩ :=
      finish_put hes₁ hvalue hin rfl hnamed rfl rfl hlow hmn ⟨id, id, id⟩
        (fun hal => dvd_minOffs A.size_dvd hal) (by omega)
    have hattr₁ : (es₁ ++ es₂).map (attr b₁) = (es₁ ++ es₂).map (attr b) :=
      hlow.map_attr (hframe₁.mono (Nat.le_refl _) (by omega))
    have hattr := hattr₂.trans hattr₁
    rw [map_append, map_append] at hattr
    obtain ⟨hleft, hright⟩ := append_inj hattr (by rw [length_map, length_map])
    refine ⟨b₂, es₁, [mid], es₂, ?_, hes₂, hvals₂, hleft, hright, ?_,
      (headerKept_of_frame hframe₁).trans hkept, by rwa [append_nil]⟩
    · have hprep : prepareEa ea i true (readEntry b (A.first + namesLen es₁)) = .ok none := by
        unfold prepareEa
        rw [if_neg (fun hf => Bool.noConfusion hf.1), newEaInode_eq hin]
      simp only [setEntry, Bool.true_eq_false, false_and, if_false, hshort, hscan, hspace, hprep,
        hb₁, Option.bind_eq_bind, Option.bind_some]
      exact hb₂
    · rw [map_singleton, hmid, hvalue]
      rfl

theorem setEntry_sameSize (h : EntriesAt b A.first (es₁ ++ e :: es₂))
    (hvals : ValuesAt A.size (A.first + namesLen (es₁ ++ e :: es₂) + 4) (es₁ ++ e :: es₂))
    (hapart : ∀ f ∈ es₁ ++ es₂, Apart e f) (hkey : e.key = i.key) (hin : i.inInode = false)
    (hsize : i.newSize ≠ 0 ∧ i.newSize = xattrSize e.valueSize) :
    ∃ b' fs₁ mid fs₂, ((replaceValue i (A.first + namesLen es₁) e.valueOffs b).bind
        (updateHash A i (A.first + namesLen es₁) none)) = some (0, b') ∧
      Updated A i b b' es₁ [e] es₂ fs₁ mid fs₂ := by
  obtain ⟨-, -, hnull, -⟩ := headsAt_append.mp h.heads
  obtain ⟨v, hvalue⟩ : ∃ v, i.value = some v := by
    cases hvalue : i.value with
    | none => exact absurd (by simp only [Info.newSize, hvalue]) hsize.1
    | some v => exact ⟨v, rfl⟩
  rw [newSize_eq hvalue hin] at hsize
  have hmem : e ∈ es₁ ++ e :: es₂ := by simp
  have hs : e.valueSize ≠ 0 := by
    intro hs
    rw [hs] at hsize
    exact hsize.1 hsize.2
  have hv : v.length ≠ 0 := by
    intro hv
    rw [hv] at hsize
    exact hsize.1 rfl
  have hsmall : v.length < 256 ^ 4 := by
    have hle := le_xattrSize v.length
    have hstop := (hvals.inside e hmem hs).2
    have hA := A.size_le
    unfold stop at hstop
    omega
  obtain ⟨hlo, hstop⟩ := hvals.inside e hmem hs
  have hend := namesLen_middle es₁ es₂ e
  have hle := le_len e
  unfold stop at hstop
  obtain ⟨b₁, hb₁, hes₁, hframe₁⟩ := h.putSize hsmall hnull
  obtain ⟨b₂, hb₂, hslice, hframe₂⟩ := @Value.store_spec A.size b₁ v e.valueOffs (by omega)
  have hsame : namesLen (es₁ ++ { e with valueSize := v.length } :: es₂) =
      namesLen (es₁ ++ e :: es₂) := by
    rw [namesLen_middle, namesLen_middle]
    rfl
  have hes₂ := hes₁.frame hframe₂ (.inl (by omega))
  obtain ⟨b₃, hash, hb₃, hes₃, hkept, hattr₃⟩ := updateHash_put hes₂ hvalue
  rw [hsame] at hattr₃
  -- the other values lie apart from the replaced one
  have hothers : ∀ f ∈ es₁ ++ es₂, attr b₃ f = attr b f := by
    intro f hf
    have hf' : f ∈ es₁ ++ e :: es₂ := (sublist_middle es₁ es₂ e).subset hf
    have hplace : f.valueSize ≠ 0 → A.first + namesLen (es₁ ++ e :: es₂) + 4 ≤ f.valueOffs :=
      fun hs' => (hvals.inside f hf' hs').1
    have hlow : attr b₁ f = attr b f :=
      attr_frame hframe₁ fun hs' => .inl (by have hp := hplace hs'; omega)
    rw [hattr₃ f fun hs' => by have hp := hplace hs'; omega, ← hlow]
    refine attr_frame hframe₂ fun hs' => ?_
    have hor := hapart f hf hs hs'
    unfold stop at hor ⊢
    omega
  have hreplaced : ValuesAt A.size (A.first + namesLen (es₁ ++ e :: es₂) + 4)
      (es₁ ++ { e with valueSize := v.length, hash := hash } :: es₂) :=
    ValuesAt.replace (e := e) rfl hsize.2 hs hvals rfl
  have hnames : namesLen (es₁ ++ { e with valueSize := v.length, hash := hash } :: es₂) =
      namesLen (es₁ ++ e :: es₂) := by
    rw [namesLen_middle, namesLen_middle]
    rfl
  refine ⟨b₃, es₁, [{ e with valueSize := v.length, hash := hash }], es₂,
    ?_, ?_, ?_, ?_, ?_, ?_, ?_, ?_⟩
  · simp only [replaceValue, hvalue, newSize_eq hvalue hin, hb₁, hb₂, Option.bind_some]
    exact hb₃
  · rw [append_assoc]
    exact hes₃
  · rw [append_assoc, singleton_append, hnames]
    exact hreplaced
  · exact map_congr_left fun f hf => hothers f (mem_append_left _ hf)
  · exact map_congr_left fun f hf => hothers f (mem_append_right _ hf)
  · have hvalue₃ := hattr₃ { e with valueSize := v.length } fun _ => by dsimp only; omega
    have hmid : attr b₃ { e with valueSize := v.length, hash := hash } =
        (e.key, b₂.slice e.valueOffs v.length) := hvalue₃
    rw [map_singleton, hmid, hslice, hkey, hvalue]
    rfl
  · refine ((headerKept_of_frame (hframe₁.mono ?_ (Nat.le_refl _))).trans
      (headerKept_of_frame (hframe₂.mono ?_ (Nat.le_refl _)))).trans hkept
    · omega
    · omega
  · rw [append_assoc, append_assoc]
    exact Kept.replace (e := e) rfl hsize.2 hs hv

theorem setEntry_eq {here : ℕ} (hread : readEntry b here = e) (hinum : e.valueInum = 0)
    (hsize : e.valueSize ≤ 2 ^ 16) (hin : i.inInode = false) : setEntry A ea i here false b =
      if i.newSize ≠ 0 ∧ i.newSize = xattrSize e.valueSize then
        (replaceValue i here e.valueOffs b).bind (updateHash A i here none)
      else
        (scanEntries b A.size A.first A.size).bind fun scan =>
          if noSpace A i false (xattrSize e.valueSize) scan.1 scan.2 = true then some (eNospc, b)
          else
            (if e.valueOffs ≠ 0 then
              removeValue A.first e.valueOffs (xattrSize e.valueSize) scan.1 b
            else some (scan.1, b)).bind fun moved =>
              (changeName i here scan.2 false moved.2).bind fun b =>
                (insertValue i here moved.1 none b).bind (updateHash A i here none) := by
  have hprep : prepareEa ea i false e = .ok none := by
    unfold prepareEa
    rw [if_neg fun hf => hf.2 hinum, newEaInode_eq hin]
  simp only [setEntry, hread, hinum, xattrSize32_eq hsize, hprep, and_self, if_true, true_and,
    Option.bind_eq_bind]

theorem setEntry_found (h : EntriesAt b A.first (es₁ ++ e :: es₂))
    (hvals : ValuesAt A.size (A.first + namesLen (es₁ ++ e :: es₂) + 4) (es₁ ++ e :: es₂))
    (hapart : ∀ f ∈ es₁ ++ es₂, Apart e f)
    (hempty : e.valueSize = 0 → e.valueOffs = 0 ∨
      minOffs A.size (es₁ ++ e :: es₂) ≤ e.valueOffs ∧ e.valueOffs ≤ A.size)
    (hkey : e.key = i.key) (hin : i.inInode = false) (hnamed : i.Named) :
    (noSpace A i false (xattrSize e.valueSize) (minOffs A.size (es₁ ++ e :: es₂))
        (A.first + namesLen (es₁ ++ e :: es₂)) = true ∧
      setEntry A ea i (A.first + namesLen es₁) false b = some (eNospc, b)) ∨
      ∃ b' fs₁ mid fs₂, setEntry A ea i (A.first + namesLen es₁) false b = some (0, b') ∧
        Updated A i b b' es₁ [e] es₂ fs₁ mid fs₂ := by
  obtain ⟨-, hread, -, -⟩ := headsAt_append.mp h.heads
  have hmem : e ∈ es₁ ++ e :: es₂ := by simp
  rw [setEntry_eq hread (hvals.inum e hmem) ((hvals.size_le hmem).trans A.size_le) hin]
  by_cases hshort : i.newSize ≠ 0 ∧ i.newSize = xattrSize e.valueSize
  · rw [if_pos hshort]
    exact .inr (setEntry_sameSize h hvals hapart hkey hin hshort)
  rw [if_neg hshort, @scanEntries_eq A.size b A.first A.size _ A.size h h.length_lt,
    Option.bind_some]
  split
  case isTrue hspace => exact .inl ⟨hspace, rfl⟩
  case isFalse hspace =>
    right
    obtain ⟨hindex, hname⟩ := nameKey_inj.mp hkey
    have hlen : i.nameLen = e.len := by
      unfold Info.nameLen len
      rw [hname]
    obtain ⟨b₁, fs₁, fs₂, hb₁, hes₁, hleft, hright, hvals₁, hframe₁, hle, hkept₁⟩ :=
      dropOld_spec h A.size_le hvals rfl hapart hempty
    have hrest : Kept (es₁ ++ [e] ++ es₂) (fs₁ ++ fs₂) := by
      rw [append_assoc]
      exact hkept₁.sublist (sublist_middle es₁ es₂ e)
    have hnames₁ := namesLen_of_attr hleft
    have hnames : namesLen (fs₁ ++ e :: fs₂) = namesLen (es₁ ++ e :: es₂) := by
      rw [namesLen_middle, namesLen_middle, hnames₁, namesLen_of_attr hright]
    have hlast := hvals.le_minOffs h.inside
    rw [hb₁, Option.bind_some, ← hnames₁, ← hnames]
    cases hvalue : i.value with
    | none =>
      obtain ⟨b₂, hb₂, hes₂, hkept, hattr⟩ :=
        finish_remove hes₁ hvalue hlen hvals₁ (by omega)
      refine ⟨b₂, fs₁, [], fs₂, hb₂, ?_, ?_, ?_, ?_, ?_, ?_, ?_⟩
      · rw [append_nil]
        exact hes₂
      · rw [append_nil]
        refine hvals₁.mono ?_
        rw [namesLen_middle] at hnames
        rw [namesLen_append]
        omega
      · rw [← hleft]
        exact map_congr_left fun f hf => hattr f (mem_append_left _ hf)
      · rw [← hright]
        exact map_congr_left fun f hf => hattr f (mem_append_right _ hf)
      · rw [hvalue]
        rfl
      · exact (headerKept_of_frame hframe₁).trans hkept
      · rw [append_nil]
        exact hrest
    | some v =>
      have hroom := room_of_noSpace hvalue hin hlast (minOffs_le A.size _).1 hspace
      rw [if_neg Bool.false_ne_true] at hroom
      have hnull : ¬ (e.name = [] ∧ e.nameIndex = 0) := by
        rw [hindex, hname]
        exact hnamed
      obtain ⟨b₂, hb₂, hes₂, hframe₂⟩ := @changeName_reset A.size A.first b₁ e fs₁ fs₂ i v
        (A.first + namesLen (fs₁ ++ e :: fs₂)) hes₁ hvalue hnull
      have hsame : namesLen (fs₁ ++ { e with valueOffs := 0, valueInum := 0, valueSize := 0 } ::
          fs₂) = namesLen (fs₁ ++ e :: fs₂) := by
        rw [namesLen_middle, namesLen_middle]
        rfl
      have hdvd : (∀ f ∈ es₁ ++ [e] ++ es₂, 4 ∣ f.valueOffs) →
          4 ∣ minOffs A.size (es₁ ++ e :: es₂) + xattrSize e.valueSize := by
        intro hal
        rw [append_assoc] at hal
        exact Nat.dvd_add (dvd_minOffs A.size_dvd hal) (dvd_xattrSize _)
      obtain ⟨b₃, mid, hb₃, hes₃, hvals₃, hattr₃, hmid, hkept, hlist⟩ :=
        finish_put hes₂ hvalue hin hkey hnamed rfl rfl hvals₁ hle hrest hdvd (by omega)
      have hend := namesLen_middle fs₁ fs₂ e
      have hlenE := le_len e
      have hattr₂ : (fs₁ ++ fs₂).map (attr b₂) = (fs₁ ++ fs₂).map (attr b₁) :=
        hvals₁.map_attr (hframe₂.mono (Nat.le_refl _) (by omega))
      have hattr := hattr₃.trans hattr₂
      rw [map_append, map_append] at hattr
      obtain ⟨hl, hr⟩ := append_inj hattr (by rw [length_map, length_map])
      refine ⟨b₃, fs₁, [mid], fs₂, ?_, hes₃, hvals₃, hl.trans hleft, hr.trans hright, ?_, ?_,
        hlist⟩
      · rw [hb₂, Option.bind_some]
        exact hb₃
      · rw [map_singleton, hmid, hvalue]
        rfl
      · exact ((headerKept_of_frame hframe₁).trans
          (headerKept_of_frame (hframe₂.mono (by omega) (Nat.le_refl _)))).trans hkept

end VMsep.Ext4.Xattr
