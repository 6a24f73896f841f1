import VMsep.Ext4.InlineData

/-! The bytes of the area as a part of the raw inode, and what `ext4_xattr_ibody_find` and
`ext4_xattr_ibody_set` do to a list of attributes in it. -/

namespace VMsep.Ext4.Inline

open VMsep.Lib VMsep.Lib.Block VMsep.Ext4.Xattr List

variable {N : ℕ} {s : Inode N} {c : Calls N} {i : Info} {e : Entry} {notFound : Bool}
  {es es₁ old es₂ fs₁ mid fs₂ : List Entry}

namespace Inode

variable {b : Block s.area.size} {j here : ℕ}

theorem first_eq (s : Inode N) : s.first = s.header + 4 := rfl

theorem first_add_size (s : Inode N) : s.first + s.area.size = N := by
  have hroom := s.room
  have hsize : s.area.size = N - s.first := rfl
  unfold first at hsize ⊢
  omega

theorem byte_body (s : Inode N) (j : ℕ) : s.body.byte j = s.raw.byte (s.first + j) := by
  have hsize := s.first_add_size
  by_cases hj : j < s.area.size
  · rw [byte, dif_pos hj]
    rfl
  · rw [byte, dif_neg hj, byte, dif_neg (by omega)]

theorem copies_body (s : Inode N) (o k : ℕ) : Copies s.body o s.raw (s.first + o) k := by
  intro j _
  rw [byte_body, Nat.add_assoc]

theorem body_eq (h : ∀ j < s.area.size, s.raw.byte (s.first + j) = b.byte j) : s.body = b := by
  apply eq_of_byte
  intro j
  by_cases hj : j < s.area.size
  · rw [byte_body, h j hj]
  · rw [byte, dif_neg hj, byte, dif_neg hj]

theorem setBody_below (b : Block s.area.size) (hj : j < s.first) :
    (s.setBody b).raw.byte j = s.raw.byte j := by
  have hsize := s.first_add_size
  have hjN : j < N := by omega
  rw [byte, dif_pos hjN, byte, dif_pos hjN]
  exact if_neg (Nat.not_le_of_lt hj)

theorem setBody_above (b : Block s.area.size) (hj : j < s.area.size) :
    (s.setBody b).raw.byte (s.first + j) = b.byte j := by
  have hsize := s.first_add_size
  rw [byte, dif_pos (by omega)]
  have hif : (s.setBody b).raw ⟨s.first + j, by omega⟩ = b.byte (s.first + j - s.first) :=
    if_pos (Nat.le_add_right _ _)
  rw [hif, Nat.add_sub_cancel_left]

theorem setBody_body (s : Inode N) : s.setBody s.body = s := by
  have hraw : (s.setBody s.body).raw = s.raw := by
    apply eq_of_byte
    intro j
    by_cases hj : j < s.first
    · exact setBody_below _ hj
    · have hsize := s.first_add_size
      obtain ⟨d, rfl⟩ := Nat.exists_eq_add_of_le (Nat.le_of_not_lt hj)
      by_cases hd : d < s.area.size
      · rw [setBody_above _ hd, byte_body]
      · rw [byte, dif_neg (by omega), byte, dif_neg (by omega)]
  calc s.setBody s.body = { s with raw := (s.setBody s.body).raw } := rfl
    _ = s := by rw [hraw]

theorem ibodySet_eq (hextra : s.iExtraIsize ≠ 0)
    (hset : setEntry s.area c.ea i here notFound s.body = some (0, b)) :
    ∃ raw flag, s.ibodySet c i here notFound =
        some (0, { s with raw := raw, stateXattr := flag }) ∧
      ({ s with raw := raw, stateXattr := flag } : Inode N).body = b ∧
      (flag = true → raw.le s.header 4 = xattrMagic) ∧ (isLast b 0 = false → flag = true) ∧
      Frame s.raw raw s.header N := by
  have hsize := s.first_add_size
  have hfirst := s.first_eq
  have hlast : isLast (s.setBody b).body 0 = isLast b 0 :=
    congrArg (fun b : Block s.area.size => isLast b 0) (body_eq fun _ => setBody_above b)
  have hbody : ∀ {raw : Block N} {flag : Bool},
      Frame (s.setBody b).raw raw s.header (s.header + 4) →
      ({ s with raw := raw, stateXattr := flag } : Inode N).body = b := by
    intro raw flag hframe
    apply body_eq
    intro j hj
    have hkeep : raw.byte (s.first + j) = (s.setBody b).raw.byte (s.first + j) :=
      hframe _ (.inr (by omega))
    exact hkeep.trans (setBody_above b hj)
  have hbelow : ∀ {raw : Block N}, Frame (s.setBody b).raw raw s.header (s.header + 4) →
      Frame s.raw raw s.header N := by
    intro raw hframe j hj
    by_cases hlow : j < s.header
    · rw [hframe j (.inl hlow)]
      exact setBody_below b (by omega)
    · rw [byte, dif_neg (by omega), byte, dif_neg (by omega)]
  have hmark : ∀ {m : ℕ} {flag : Bool} {raw : Block N},
      (s.setBody b).markHeader = ((s.setBody b).raw.putLe (s.setBody b).header 4 m).map
        (fun raw => { s.setBody b with raw := raw, stateXattr := flag }) →
      (s.setBody b).raw.putLe s.header 4 m = some raw →
      s.ibodySet c i here notFound = some (0, { s with raw := raw, stateXattr := flag }) := by
    intro m flag raw hmark hput
    have hput' : (s.setBody b).raw.putLe (s.setBody b).header 4 m = some raw := hput
    unfold ibodySet
    rw [if_neg hextra, hset, Option.bind_some]
    rw [if_neg (not_not.mpr rfl), hmark, hput']
    rfl
  cases hb : isLast b 0 with
  | true =>
    obtain ⟨raw, hput, -, hframe⟩ := @putLe_spec N (s.setBody b).raw s.header 4 0 (by omega)
    refine ⟨raw, false, hmark ?_ hput, hbody hframe, fun hf => Bool.noConfusion hf,
      fun hf => Bool.noConfusion hf, hbelow hframe⟩
    unfold markHeader
    rw [hlast, hb, if_pos rfl]
  | false =>
    obtain ⟨raw, hput, hmagic, hframe⟩ :=
      @putLe_spec N (s.setBody b).raw s.header 4 xattrMagic (by omega)
    refine ⟨raw, true, hmark ?_ hput, hbody hframe, fun _ => hmagic.trans (by decide),
      fun _ => rfl, hbelow hframe⟩
    unfold markHeader
    rw [hlast, hb, if_neg Bool.false_ne_true]

theorem ibodySet_nospc (hextra : s.iExtraIsize ≠ 0)
    (hset : setEntry s.area c.ea i here notFound s.body = some (eNospc, s.body)) :
    s.ibodySet c i here notFound = some (eNospc, s) := by
  unfold ibodySet
  rw [if_neg hextra, hset, Option.bind_some]
  dsimp only
  rw [if_pos (by decide), setBody_body]

end Inode

open Inode

/-- The entries have distinct names and values that lie apart; an empty value has no offset. -/
structure CleanEntries (es : List Entry) : Prop where
  empty : ∀ e ∈ es, e.valueSize = 0 → e.valueOffs = 0
  apart : es.Pairwise Apart
  distinct : (es.map Entry.key).Nodup

/-- A list around the place of a name. -/
structure Between (k : NameKey) (es₁ old es₂ : List Entry) : Prop where
  left : ∀ e ∈ es₁, e.key ≠ k
  middle : ∀ e ∈ old, e.key = k
  right : ∀ e ∈ es₂, e.key ≠ k

/-- The area holds a list of attributes with their values, and its header says so. -/
structure Listed (s : Inode N) (es : List Entry) : Prop where
  entries : EntriesAt s.body 0 es
  clean : CleanEntries es
  values : ValuesAt s.area.size (0 + namesLen es + 4) es
  marked : es ≠ [] → s.stateXattr = true
  magic : s.stateXattr = true → s.raw.le s.header 4 = xattrMagic
  extra : s.iExtraIsize ≠ 0

theorem Listed.checkInode (h : Listed s es) (hx : s.stateXattr = true) : s.checkInode = 0 := by
  unfold Inode.checkInode
  rw [if_neg (not_not.mpr (h.magic hx))]
  exact (checkEntries_iff s.area s.body).mpr
    ⟨es, h.entries, fun e he => h.values.valueOk s.area.size_le (Nat.le_refl _) he⟩

theorem Listed.ibodyFind (h : Listed s es) (k : NameKey) :
    ∃ es₁ old es₂ notFound, es = es₁ ++ old ++ es₂ ∧
      s.ibodyFind k = some (.ok (namesLen es₁, notFound)) ∧
      findEntry false k s.body s.area.size 0 = some (namesLen es₁, notFound) ∧
      Placed s.area k es₁ old es₂ notFound := by
  obtain ⟨es₁, old, es₂, notFound, hsplit, hfind, hplaced⟩ := findEntry_placed h.entries k
  have hfind' : findEntry false k s.body s.area.size 0 = some (namesLen es₁, notFound) := by
    have hfirst : s.area.first + namesLen es₁ = namesLen es₁ := Nat.zero_add _
    rw [hfirst] at hfind
    exact hfind
  refine ⟨es₁, old, es₂, notFound, hsplit, ?_, hfind', hplaced⟩
  unfold Inode.ibodyFind
  by_cases hx : s.stateXattr = true
  · rw [if_neg (by simp [h.extra, hx]), if_neg (not_not.mpr (h.checkInode hx)), hfind']
    rfl
  -- without the flag there are no attributes
  have hnil : es = [] := by
    by_contra hne
    exact hx (h.marked hne)
  rw [hnil, eq_comm, append_eq_nil_iff, append_eq_nil_iff] at hsplit
  obtain ⟨⟨rfl, rfl⟩, rfl⟩ := hsplit
  obtain ⟨-, e, he, -⟩ | ⟨rfl, -⟩ := hplaced.here
  · cases he
  · rw [if_pos (.inr (Bool.not_eq_true _ ▸ hx))]
    rfl

theorem between_of_nodup (h : ((es₁ ++ e :: es₂).map Entry.key).Nodup) :
    Between e.key es₁ [e] es₂ := by
  rw [map_append, map_cons] at h
  obtain ⟨-, hright, hcross⟩ := nodup_append.mp h
  refine ⟨fun f hf => hcross _ (mem_map_of_mem hf) _ mem_cons_self, fun f hf => ?_, ?_⟩
  · rw [mem_singleton.mp hf]
  · intro f hf hkey
    exact (nodup_cons.mp hright).1 (hkey ▸ mem_map_of_mem hf)

theorem split_unique {fs : List Entry} {f : Entry}
    (hnodup : ((es₁ ++ e :: es₂).map Entry.key).Nodup) (h : es₁ ++ e :: es₂ = fs₁ ++ f :: fs)
    (hkey : e.key = f.key) : es₁ = fs₁ ∧ e = f ∧ es₂ = fs := by
  have hnodup' := hnodup
  rw [h] at hnodup'
  refine first_unique (P := fun a => a.key = f.key) h ?_ hkey (between_of_nodup hnodup').left rfl
  rw [← hkey]
  exact (between_of_nodup hnodup).left

theorem Listed.between (h : Listed s (es₁ ++ old ++ es₂)) {k : NameKey}
    (hplaced : Placed s.area k es₁ old es₂ notFound) : Between k es₁ old es₂ := by
  obtain ⟨-, o, rfl, rfl⟩ | ⟨-, rfl, -, hnil⟩ := hplaced.here
  · refine between_of_nodup ?_
    have hdistinct := h.clean.distinct
    rwa [append_assoc] at hdistinct
  · rw [hnil rfl]
    exact ⟨fun f hf heq => hplaced.before f hf ⟨heq.ge, .inr heq.symm⟩, by simp, by simp⟩

theorem Listed.apart (h : Listed s (es₁ ++ old ++ es₂)) {k : NameKey}
    (hplaced : Placed s.area k es₁ old es₂ notFound) :
    ∀ o ∈ old, ∀ f ∈ es₁ ++ es₂, Apart o f := by
  have hapart := h.clean.apart
  obtain ⟨-, o, rfl, -⟩ | ⟨-, rfl, -⟩ := hplaced.here
  · rw [append_assoc] at hapart
    intro o' ho
    rw [mem_singleton.mp ho]
    exact (pairwise_apart_middle.mp hapart).1
  · simp

theorem Listed.find_eq (h : Listed s (es₁ ++ e :: es₂)) :
    s.ibodyFind e.key = some (.ok (namesLen es₁, false)) ∧
      findEntry false e.key s.body s.area.size 0 = some (namesLen es₁, false) ∧
      Between e.key es₁ [e] es₂ := by
  obtain ⟨ps, old, qs, notFound, hsplit, hfind, hentry, hplaced⟩ := h.ibodyFind e.key
  have hbetween := Listed.between (hsplit ▸ h) hplaced
  obtain ⟨rfl, o, rfl, hkey⟩ | ⟨-, rfl, -⟩ := hplaced.here
  · rw [append_assoc] at hsplit
    obtain ⟨rfl, rfl, rfl⟩ := split_unique h.clean.distinct hsplit hkey.symm
    exact ⟨hfind, hentry, hbetween⟩
  · have hmem : e ∈ ps ++ [] ++ qs := hsplit ▸ mem_append_right _ mem_cons_self
    rw [append_nil] at hmem
    obtain hmem | hmem := mem_append.mp hmem
    · exact absurd rfl (hbetween.left e hmem)
    · exact absurd rfl (hbetween.right e hmem)

theorem CleanEntries.updated {b : Block s.area.size} (h : CleanEntries (es₁ ++ old ++ es₂))
    (hbetween : Between i.key es₁ old es₂)
    (hupd : Updated s.area i s.body b es₁ old es₂ fs₁ mid fs₂) :
    CleanEntries (fs₁ ++ mid ++ fs₂) := by
  refine ⟨hupd.kept.empty h.empty, hupd.kept.apart h.apart, ?_⟩
  have hmid : mid.map Entry.key = (mid.map (attr b)).map Prod.fst := by
    rw [map_map]
    rfl
  have hrest : (es₁.map Entry.key ++ es₂.map Entry.key).Nodup := by
    rw [← map_append]
    refine h.distinct.sublist (Sublist.map _ ?_)
    exact Sublist.append (sublist_append_left es₁ old) (.refl es₂)
  rw [map_append, map_append, keys_of_attr hupd.left, keys_of_attr hupd.right, hmid, hupd.middle]
  cases i.value with
  | none => simpa using hrest
  | some v =>
    rw [append_assoc]
    refine (perm_middle (a := i.key)).nodup_iff.mpr (nodup_cons.mpr ⟨fun hk => ?_, hrest⟩)
    obtain hk | hk := mem_append.mp hk
    · obtain ⟨f, hf, hkey⟩ := mem_map.mp hk
      exact hbetween.left f hf hkey
    · obtain ⟨f, hf, hkey⟩ := mem_map.mp hk
      exact hbetween.right f hf hkey

/-- The inode with `raw` after a change between two parts of its list. -/
structure Rewritten (s : Inode N) (i : Info) (es₁ old es₂ : List Entry) (raw : Block N)
    (flag : Bool) (fs₁ mid fs₂ : List Entry) : Prop where
  listed : Listed { s with raw := raw, stateXattr := flag } (fs₁ ++ mid ++ fs₂)
  below : Frame s.raw raw s.header N
  left : fs₁.map (attr ({ s with raw := raw, stateXattr := flag } : Inode N).body) =
    es₁.map (attr s.body)
  right : fs₂.map (attr ({ s with raw := raw, stateXattr := flag } : Inode N).body) =
    es₂.map (attr s.body)
  middle : mid.map (attr ({ s with raw := raw, stateXattr := flag } : Inode N).body) =
    (i.value.map fun v => (i.key, v.content)).toList
  aligned : (∀ f ∈ es₁ ++ old ++ es₂, 4 ∣ f.valueOffs) →
    ∀ f ∈ fs₁ ++ mid ++ fs₂, 4 ∣ f.valueOffs
  marked : fs₁ ++ mid ++ fs₂ ≠ [] → flag = true

theorem Listed.rewritten {b : Block s.area.size} (h : Listed s (es₁ ++ old ++ es₂))
    (hbetween : Between i.key es₁ old es₂)
    (hset : setEntry s.area c.ea i (namesLen es₁) notFound s.body = some (0, b))
    (hupd : Updated s.area i s.body b es₁ old es₂ fs₁ mid fs₂) :
    ∃ raw flag, s.ibodySet c i (namesLen es₁) notFound =
        some (0, { s with raw := raw, stateXattr := flag }) ∧
      ({ s with raw := raw, stateXattr := flag } : Inode N).body = b ∧
      Rewritten s i es₁ old es₂ raw flag fs₁ mid fs₂ := by
  have hlast : fs₁ ++ mid ++ fs₂ ≠ [] → isLast b 0 = false := by
    intro hne
    have hentries := hupd.entries
    cases hfs : fs₁ ++ mid ++ fs₂ with
    | nil => exact absurd hfs hne
    | cons =>
      rw [hfs] at hentries
      exact hentries.not_last
  obtain ⟨raw, flag, hraw, hbody, hmagic, hflag, hframe⟩ := ibodySet_eq h.extra hset
  refine ⟨raw, flag, hraw, hbody, ⟨?_, h.clean.updated hbetween hupd, hupd.values,
    fun hne => hflag (hlast hne), hmagic, h.extra⟩, hframe, ?_, ?_, ?_, hupd.kept.aligned,
    fun hne => hflag (hlast hne)⟩
  · rw [hbody]
    exact hupd.entries
  · rw [hbody]
    exact hupd.left
  · rw [hbody]
    exact hupd.right
  · rw [hbody]
    exact hupd.middle

end VMsep.Ext4.Inline
