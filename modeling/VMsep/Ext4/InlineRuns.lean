import VMsep.Ext4.InlineLayout

/-! While `i_inline_off` is the place of `system.data`, writes, truncates and changes of other
attributes keep what a reader gets. -/

namespace VMsep.Ext4.Inline

open VMsep.Lib VMsep.Lib.Block VMsep.Ext4.Xattr Inode List Contents

/-- The contents are in `i_block` and in the value of the entry at `i_inline_off`. -/
structure SoundAt {N : ℕ} (s : Inode N) (data : Contents) (es₁ : List Entry) (e : Entry)
    (es₂ : List Entry) : Prop where
  listed : Listed s (es₁ ++ e :: es₂)
  aligned : ∀ f ∈ es₁ ++ e :: es₂, 4 ∣ f.valueOffs
  key : e.key = dataKey
  off : s.iInlineOff = s.first + namesLen es₁
  size : s.iInlineSize = minInlineDataSize + e.valueSize
  block : ∀ j < minInlineDataSize, s.raw.byte (iBlock + j) = data j
  value : ∀ j < e.valueSize, s.body.byte (e.valueOffs + j) = data (minInlineDataSize + j)
  zero : ∀ j, s.iInlineSize ≤ j → data j = 0

def Sound {N : ℕ} (s : Inode N) (data : Contents) : Prop := ∃ es₁ e es₂, SoundAt s data es₁ e es₂

variable {N : ℕ} {s : Inode N} {c : Calls N} {i : Info} {data : Contents} {e f : Entry}
  {raw : Block N} {es₁ es₂ old fs gs fs₁ mid fs₂ ps qs : List Entry} {pos len : ℕ}
  {l : List (BitVec 8)} {data' : Contents} {j size : ℕ}

theorem Inode.layout (s : Inode N) : minInlineDataSize = 60 ∧ iBlock = 40 ∧ 128 ≤ s.header ∧
    s.first = s.header + 4 ∧ s.first + s.area.size = N :=
  ⟨rfl, rfl, Nat.le_add_right _ _, rfl, s.first_add_size⟩

/-- Where a byte of the contents is. -/
def Inode.place (s : Inode N) (e : Entry) (j : ℕ) : ℕ :=
  if j < minInlineDataSize then iBlock + j else s.first + (e.valueOffs + (j - minInlineDataSize))

section

variable (h : SoundAt s data es₁ e es₂)

include h

theorem SoundAt.read_eq : readEntry s.body (namesLen es₁) = e := by
  obtain ⟨-, hread, -⟩ := headsAt_append.mp h.listed.entries.heads
  rw [Nat.zero_add] at hread
  exact hread

theorem SoundAt.off_ne_zero : s.iInlineOff ≠ 0 := by
  have hoff := h.off
  have hfirst := s.first_eq
  omega

theorem SoundAt.stateXattr : s.stateXattr = true :=
  h.listed.marked (by simp)

theorem SoundAt.raw_valueSize : s.raw.le (s.iInlineOff + 8) 4 = e.valueSize := by
  rw [h.off, Nat.add_assoc, (s.copies_body (namesLen es₁ + 8) 4).le]
  exact congrArg Entry.valueSize h.read_eq

theorem SoundAt.raw_valueOffs : s.raw.le (s.iInlineOff + 2) 2 = e.valueOffs := by
  rw [h.off, Nat.add_assoc, (s.copies_body (namesLen es₁ + 2) 2).le]
  exact congrArg Entry.valueOffs h.read_eq

theorem SoundAt.value_inside (hs : e.valueSize ≠ 0) : namesLen (es₁ ++ e :: es₂) + 4 ≤ e.valueOffs ∧
      e.valueOffs + e.valueSize ≤ s.area.size := by
  obtain ⟨hlo, hstop⟩ := h.listed.values.inside e (by simp) hs
  have hle := le_xattrSize e.valueSize
  unfold Entry.stop at hstop
  omega

theorem SoundAt.readInlineData_eq (hlen : len ≤ s.iInlineSize) :
    s.readInlineData len = some ((range len).map data) := by
  have hsize := h.size
  unfold readInlineData
  rw [if_neg (Nat.not_lt_of_le hlen), h.raw_valueSize, h.raw_valueOffs]
  dsimp only
  have hblock : s.raw.slice iBlock (min len minInlineDataSize) =
      (range (min len minInlineDataSize)).map data := by
    refine map_congr_left fun j hj => h.block j ?_
    have hlt := mem_range.mp hj
    omega
  rw [hblock]
  by_cases hle : len ≤ minInlineDataSize
  · rw [Nat.min_eq_left hle, if_pos (Nat.sub_self len), append_nil]
  have hgt := Nat.lt_of_not_le hle
  obtain ⟨d, rfl⟩ := Nat.exists_eq_add_of_le (Nat.le_of_lt hgt)
  have hd : d ≤ e.valueSize := by omega
  have hvalue : s.raw.slice (s.first + e.valueOffs) d =
      (range d).map fun j => data (minInlineDataSize + j) := by
    refine map_congr_left fun j hj => ?_
    rw [← h.value j (by have hlt := mem_range.mp hj; omega), byte_body, Nat.add_assoc]
  rw [Nat.min_eq_right (by omega), Nat.add_sub_cancel_left, if_neg (by omega),
    Nat.min_eq_left hd, hvalue, range_add, map_append, map_map]
  rfl

theorem SoundAt.byte (hj : j < s.iInlineSize) : s.raw.byte (s.place e j) = data j := by
  have hsize := h.size
  unfold Inode.place
  split
  case isTrue hlt => exact h.block j hlt
  case isFalse hge =>
    rw [← byte_body, h.value _ (by omega), Nat.add_sub_of_le (Nat.le_of_not_lt hge)]

theorem SoundAt.withRaw
    (hnames : Copies s.raw s.header raw s.header (4 + (namesLen (es₁ ++ e :: es₂) + 4)))
    (hbytes : ∀ j < s.iInlineSize, raw.byte (s.place e j) = data' j)
    (hzero : ∀ j, s.iInlineSize ≤ j → data' j = 0) :
    SoundAt { s with raw := raw } data' es₁ e es₂ := by
  have hcopy : Copies s.body 0 ({ s with raw := raw } : Inode N).body 0
      (namesLen (es₁ ++ e :: es₂) + 4) := by
    intro j hj
    rw [byte_body, byte_body]
    have hbyte := hnames (4 + j) (by omega)
    rw [← Nat.add_assoc] at hbyte
    rw [Nat.zero_add]
    exact hbyte
  have hentries := h.listed.entries
  have hsize := h.size
  refine ⟨⟨⟨?_, ?_, hentries.inside⟩, h.listed.clean, h.listed.values, h.listed.marked, ?_,
    h.listed.extra⟩, h.aligned, h.key, h.off, hsize, ?_, ?_, hzero⟩
  · exact hentries.heads.copy (hcopy.take (Nat.le_add_right _ _))
  · exact (isLast_copy (hcopy.part (Nat.le_refl _))).trans hentries.last
  · intro hx
    exact (hnames.take (Nat.le_add_right _ _)).le.trans (h.listed.magic hx)
  · intro j hj
    rw [← hbytes j (by omega), Inode.place, if_pos hj]
  · intro j hj
    rw [byte_body, ← hbytes _ (by omega), Inode.place, if_neg (by omega), Nat.add_sub_cancel_left]
    rfl

end

theorem Contents.write_append (data : Contents) (pos : ℕ) (l l' : List (BitVec 8)) :
    (data.apply (.write pos l)).apply (.write (pos + l.length) l') =
      data.apply (.write pos (l ++ l')) := by
  funext j
  simp only [apply, length_append]
  by_cases hj : pos + l.length ≤ j
  · have hnot : ¬ (pos ≤ j ∧ j < pos + l.length) := by omega
    have hsub : j - pos - l.length = j - (pos + l.length) := by omega
    rw [if_neg hnot, getD_append_right _ _ _ _ (by omega), hsub]
    have hiff : (pos + l.length ≤ j ∧ j < pos + l.length + l'.length) ↔
        (pos ≤ j ∧ j < pos + (l.length + l'.length)) := by omega
    simp only [hiff]
  · have hnot : ¬ (pos + l.length ≤ j ∧ j < pos + l.length + l'.length) := by omega
    rw [if_neg hnot]
    by_cases hin : pos ≤ j
    · rw [if_pos (by omega), if_pos (by omega), getD_append _ _ _ _ (by omega)]
    · rw [if_neg (by omega), if_neg (by omega)]

theorem Contents.write_of_outside (h : j < pos ∨ pos + l.length ≤ j) :
    data.apply (.write pos l) j = data j :=
  if_neg (by omega)

theorem Contents.write_of_inside (hj : j < l.length) :
    data.apply (.write pos l) (pos + j) = l.getD j 0 := by
  have hin : pos ≤ pos + j ∧ pos + j < pos + l.length := by omega
  have hsub : pos + j - pos = j := by omega
  exact (if_pos hin).trans (by rw [hsub])

section

variable (h : SoundAt s data es₁ e es₂)

include h

theorem SoundAt.store {p : ℕ} (hfit : pos + l.length ≤ s.iInlineSize)
    (hp : pos + l.length ≤ minInlineDataSize ∧ p = iBlock + pos ∨
      minInlineDataSize ≤ pos ∧ l.length ≠ 0 ∧
        p = s.first + e.valueOffs + (pos - minInlineDataSize)) : ∃ raw, s.raw.store p l = some raw ∧
      SoundAt { s with raw := raw } (data.apply (.write pos l)) es₁ e es₂ := by
  obtain ⟨hmin, hblock, hheader, hfirst, hN⟩ := s.layout
  have hsize := h.size
  have hvalue := h.value_inside
  obtain ⟨raw, hstore, hslice, hframe⟩ := @store_spec N s.raw p l (by omega)
  refine ⟨raw, hstore, h.withRaw (hframe.copies (by omega)) (fun j hj => ?_) fun j hj => ?_⟩
  · by_cases hin : pos ≤ j ∧ j < pos + l.length
    · obtain ⟨d, rfl⟩ := Nat.exists_eq_add_of_le hin.1
      have hd : d < l.length := by omega
      have hplace : s.place e (pos + d) = p + d := by
        unfold Inode.place
        split <;> omega
      rw [write_of_inside hd, hplace, byte_of_slice hslice hd]
    · have hout : s.place e j < p ∨ p + l.length ≤ s.place e j := by
        unfold Inode.place
        split <;> omega
      rw [write_of_outside (by omega), hframe _ hout, h.byte hj]
  · rw [write_of_outside (by omega), h.zero j hj]

theorem SoundAt.writeInlineData (hfit : pos + l.length ≤ s.iInlineSize) :
    ∃ s', s.writeInlineData pos l = some s' ∧ SoundAt s' (data.apply (.write pos l)) es₁ e es₂ := by
  have hnot : ¬ (s.iInlineOff = 0 ∨ pos + l.length > s.iInlineSize) := by
    have hoff := h.off_ne_zero
    omega
  unfold Inode.writeInlineData
  rw [if_neg hnot]
  by_cases hpos : pos < minInlineDataSize
  · simp only [if_pos hpos]
    have htake : (l.take (min l.length (minInlineDataSize - pos))).length =
        min l.length (minInlineDataSize - pos) := by
      rw [length_take]
      omega
    have hdrop : (l.drop (min l.length (minInlineDataSize - pos))).length =
        l.length - min l.length (minInlineDataSize - pos) := length_drop
    obtain ⟨raw, hraw, hsound⟩ := @SoundAt.store N s data e es₁ es₂ pos
      (l.take (min l.length (minInlineDataSize - pos))) h _ (by omega) (.inl ⟨by omega, rfl⟩)
    rw [hraw, Option.bind_eq_bind, Option.bind_some]
    split
    case isTrue hzero =>
      rw [take_of_length_le (by omega)] at hsound
      exact ⟨_, rfl, hsound⟩
    case isFalse hmore =>
      obtain ⟨raw', hraw', hsound'⟩ := @SoundAt.store N _ _ e es₁ es₂
        (pos + min l.length (minInlineDataSize - pos))
        (l.drop (min l.length (minInlineDataSize - pos))) hsound _ (by dsimp only; omega)
        (.inr ⟨by omega, by omega, rfl⟩)
      have hoffs : raw.le (s.iInlineOff + 2) 2 = e.valueOffs := hsound.raw_valueOffs
      have hfirst : s.first + e.valueOffs =
        ({ s with raw := raw } : Inode N).first + e.valueOffs := rfl
      rw [hoffs, hfirst, hraw', Option.bind_some]
      refine ⟨_, rfl, ?_⟩
      have hall := write_append data pos (l.take (min l.length (minInlineDataSize - pos)))
        (l.drop (min l.length (minInlineDataSize - pos)))
      rw [htake, take_append_drop] at hall
      rw [← hall]
      exact hsound'
  · simp only [if_neg hpos, Nat.sub_zero, Nat.add_zero, drop_zero, Option.bind_eq_bind,
      Option.bind_some]
    split
    case isTrue hzero =>
      rw [length_eq_zero_iff] at hzero
      subst hzero
      refine ⟨_, rfl, ?_⟩
      have hsame : data.apply (.write pos []) = data := by
        funext j
        exact write_of_outside (by rw [length_nil]; omega)
      rw [hsame]
      exact h
    case isFalse hmore =>
      obtain ⟨raw, hraw, hsound⟩ := h.store hfit (.inr ⟨Nat.le_of_not_lt hpos, hmore, rfl⟩)
      rw [h.raw_valueOffs, hraw, Option.bind_some]
      exact ⟨_, rfl, hsound⟩

theorem SoundAt.moved (hlen : namesLen fs = namesLen es₁)
    (hlisted : Listed { s with raw := raw, stateXattr := true } (fs ++ f :: gs))
    (haligned : ∀ g ∈ fs ++ f :: gs, 4 ∣ g.valueOffs)
    (hattr : attr ({ s with raw := raw, stateXattr := true } : Inode N).body f = attr s.body e)
    (hbelow : Frame s.raw raw s.header N) :
    SoundAt { s with raw := raw, stateXattr := true } data fs f gs := by
  obtain ⟨hkey, hslice⟩ := Prod.mk.inj hattr
  have hsize : f.valueSize = e.valueSize := by
    have hlength := congrArg length hslice
    rw [slice_length, slice_length] at hlength
    exact hlength
  obtain ⟨hmin, hblock, hheader, -⟩ := s.layout
  refine ⟨hlisted, haligned, hkey.trans h.key, ?_, ?_, ?_, ?_, h.zero⟩
  · rw [hlen]
    exact h.off
  · rw [hsize]
    exact h.size
  · intro j hj
    exact (hbelow _ (.inl (by omega))).trans (h.block j hj)
  · intro j hj
    rw [byte_of_slice hslice hj, ← h.value j (hsize ▸ hj)]
    exact (byte_of_slice rfl (hsize ▸ hj)).symm

end

theorem attr_split {n : ℕ} {b b' : Block n} (h : fs.map (attr b') = (ps ++ e :: qs).map (attr b)) :
    ∃ as f bs, fs = as ++ f :: bs ∧ namesLen as = namesLen ps ∧ attr b' f = attr b e := by
  rw [map_append, map_cons] at h
  obtain ⟨as, rest, rfl, has, hrest⟩ := map_eq_append_iff.mp h
  obtain ⟨f, bs, rfl, hf, -⟩ := map_eq_cons_iff.mp hrest
  exact ⟨as, f, bs, rfl, namesLen_of_attr has, hf⟩

theorem SoundAt.set (h : SoundAt s data es₁ e es₂) (hother : i.key ≠ dataKey) (hnamed : i.Named)
    (hin : i.inInode = false)
    (hbehind : i.value = none → ∀ here, findEntry false i.key s.body s.area.size 0 =
      some (here, false) → s.iInlineOff < s.first + here) :
    ∃ ret s', stepRet c s (.set i) = some (ret, s') ∧ Sound s' data := by
  obtain ⟨ps, old, qs, notFound, hsplit, hfind, hentry, hplaced⟩ := h.listed.ibodyFind i.key
  have hlisted : Listed s (ps ++ old ++ qs) := hsplit ▸ h.listed
  have hbetween := hlisted.between hplaced
  have haligned : ∀ f ∈ ps ++ old ++ qs, 4 ∣ f.valueOffs := hsplit ▸ h.aligned
  rw [stepRet, hfind, Option.bind_some]
  dsimp only
  by_cases hskip : i.value.isNone = true ∧ notFound = true
  · exact ⟨0, s, if_pos hskip, es₁, e, es₂, h⟩
  rw [if_neg hskip]
  have hremove : i.value = none → notFound = false := by
    intro hvalue
    rw [hvalue] at hskip
    exact Bool.not_eq_true _ ▸ fun hnf => hskip ⟨rfl, hnf⟩
  have hzero : s.area.first + namesLen ps = namesLen ps := Nat.zero_add _
  have hset := @setEntry_spec s.area c.ea i s.body ps old qs notFound hlisted.entries
    hlisted.values hplaced (hlisted.apart hplaced)
    (fun o ho hs => .inl (hlisted.clean.empty o (by simp [ho]) hs)) hnamed hin hremove
  rw [hzero] at hset
  obtain hno | ⟨b, fs₁, mid, fs₂, hsome, hupd⟩ := hset
  · exact ⟨eNospc, s, ibodySet_nospc h.listed.extra hno, es₁, e, es₂, h⟩
  have hmem : e ∈ ps ++ old ++ qs := hsplit ▸ mem_append_right _ mem_cons_self
  obtain hmem | hright := mem_append.mp hmem
  · obtain hleft | hold := mem_append.mp hmem
    · -- entries before the place stay where they are
      obtain ⟨ps₁, ps₂, rfl⟩ := append_of_mem hleft
      have hlist : es₁ ++ e :: es₂ = ps₁ ++ e :: (ps₂ ++ old ++ qs) := by
        rw [hsplit]
        simp only [append_assoc, cons_append]
      obtain ⟨rfl, -, -⟩ := split_unique h.listed.clean.distinct hlist rfl
      obtain ⟨fs, f, gs, rfl, -, -⟩ := attr_split hupd.left
      obtain ⟨raw, flag, hraw, -, hrew⟩ := hlisted.rewritten hbetween hsome hupd
      obtain rfl := hrew.marked (by simp)
      obtain ⟨fs', f', gs', hfs, hlen', hattr⟩ := attr_split hrew.left
      have hnew := hrew.listed
      have hdvd := hrew.aligned haligned
      rw [hfs, append_assoc, append_assoc, cons_append] at hnew hdvd
      exact ⟨0, _, hraw, _, _, _, h.moved hlen' hnew hdvd hattr hrew.below⟩
    · exact absurd ((hbetween.middle e hold).symm.trans h.key) hother
  · obtain ⟨rfl, o, rfl, hokey⟩ | ⟨-, -, -, hnil⟩ := hplaced.here
    · obtain ⟨qs₁, qs₂, rfl⟩ := append_of_mem hright
      have hlist : es₁ ++ e :: es₂ = (ps ++ [o] ++ qs₁) ++ e :: qs₂ := by
        rw [hsplit]
        simp only [append_assoc]
      obtain ⟨rfl, -, -⟩ := split_unique h.listed.clean.distinct hlist rfl
      cases hvalue : i.value with
      | none =>
        -- the removed entry would stand before `system.data`
        have hlt := hbehind hvalue _ hentry
        have hoff := h.off
        rw [namesLen_append, namesLen_append] at hoff
        omega
      | some =>
        obtain ⟨fs, f, gs, rfl, -, -⟩ := attr_split hupd.right
        obtain ⟨raw, flag, hraw, -, hrew⟩ := hlisted.rewritten hbetween hsome hupd
        obtain rfl := hrew.marked (by simp)
        obtain ⟨fs', f', gs', hfs, hlen', hattr⟩ := attr_split hrew.right
        have hnew := hrew.listed
        have hdvd := hrew.aligned haligned
        rw [hfs, ← append_assoc] at hnew hdvd
        refine ⟨0, _, hraw, _, _, _, h.moved ?_ hnew hdvd hattr hrew.below⟩
        have hmiddle := hrew.middle
        rw [hvalue] at hmiddle
        obtain ⟨m, rfl, hm⟩ := map_eq_singleton_iff.mp hmiddle
        have hkey : m.key = o.key :=
          (Prod.mk.inj hm).1.trans hokey.symm
        have hone : namesLen [m] = namesLen [o] := by
          rw [namesLen_cons, namesLen_cons, len_eq, len_eq, hkey]
        rw [namesLen_append, namesLen_append, namesLen_append, namesLen_append, hlen', hone,
          namesLen_of_attr hrew.left]
    · rw [hnil rfl] at hright
      cases hright

theorem SoundAt.setData (h : SoundAt s data es₁ e es₂)
    (hfit : namesLen (es₁ ++ e :: es₂) + 4 + xattrSize l.length ≤
      minOffs s.area.size (es₁ ++ e :: es₂) + xattrSize e.valueSize)
    (hblock : ∀ j < minInlineDataSize, data' j = data j)
    (hvalue : ∀ j < l.length, data' (minInlineDataSize + j) = l.getD j 0)
    (hzero : ∀ j, minInlineDataSize + l.length ≤ j → data' j = 0) :
    ∃ raw fs f gs, s.ibodyInlineSet c (systemData (some (.bytes l))) (namesLen es₁) false =
        some (0, { s with raw := raw, stateXattr := true }) ∧
      namesLen fs = namesLen es₁ ∧
      SoundAt { s with
        raw := raw, stateXattr := true
        iInlineSize := minInlineDataSize + l.length } data' fs f gs := by
  have hnamed : (systemData (some (.bytes l))).Named := by
    rintro ⟨hname, -⟩
    exact cons_ne_nil _ _ hname
  obtain ⟨-, -, hbetween⟩ := h.listed.find_eq
  have hfirst : s.area.first + namesLen es₁ = namesLen es₁ := Nat.zero_add _
  have hset := @setEntry_found s.area c.ea (systemData (some (.bytes l))) s.body e es₁ es₂
    h.listed.entries h.listed.values (pairwise_apart_middle.mp h.listed.clean.apart).1
    (fun hs => .inl (h.listed.clean.empty e (by simp) hs)) h.key rfl hnamed
  rw [hfirst] at hset
  obtain ⟨hspace, -⟩ | ⟨b, fs₁, mid, fs₂, hsome, hupd⟩ := hset
  · have hlast := h.listed.values.le_minOffs h.listed.entries.inside
    rw [Nat.zero_add] at hlast
    have hspace' : noSpace s.area (systemData (some (.bytes l))) false (xattrSize e.valueSize)
        (minOffs s.area.size (es₁ ++ e :: es₂)) (namesLen (es₁ ++ e :: es₂)) = true := by
      rw [← hspace]
      exact congrArg _ (Nat.zero_add _).symm
    unfold noSpace at hspace'
    rw [decide_eq_true_iff, newSize_eq rfl rfl, free_eq hlast (minOffs_le _ _).1] at hspace'
    obtain ⟨-, hlt | ⟨hfalse, -⟩⟩ := hspace'
    · rw [if_neg Bool.false_ne_true] at hlt
      change _ < _ + xattrSize l.length at hlt
      omega
    · cases hfalse
  · obtain ⟨f, rfl, -⟩ := map_eq_singleton_iff.mp hupd.middle
    have hlisted : Listed s (es₁ ++ [e] ++ es₂) := by
      rw [append_assoc]
      exact h.listed
    have hkey : (systemData (some (.bytes l))).key = e.key := h.key.symm
    obtain ⟨raw, flag, hraw, -, hrew⟩ := hlisted.rewritten (hkey ▸ hbetween) hsome hupd
    obtain rfl := hrew.marked (by simp)
    have hdvd := hrew.aligned (by rw [append_assoc]; exact h.aligned)
    have hattr := hrew.middle
    obtain ⟨hfkey, hslice⟩ := Prod.mk.inj (singleton_inj.mp hattr)
    have hsize : f.valueSize = l.length := by
      have hlength := congrArg length hslice
      rw [slice_length] at hlength
      exact hlength
    have hlen := namesLen_of_attr hrew.left
    have hnew := hrew.listed
    rw [append_assoc, singleton_append] at hnew hdvd
    refine ⟨raw, fs₁, f, fs₂, ?_, hlen, ?_⟩
    · unfold ibodyInlineSet
      rw [hraw, Option.bind_some, if_neg (by intro hno; cases hno.1)]
    refine ⟨⟨hnew.entries, hnew.clean, hnew.values, hnew.marked, hnew.magic, hnew.extra⟩, hdvd,
      hfkey, ?_, ?_, ?_, ?_, hzero⟩
    · rw [hlen]
      exact h.off
    · rw [hsize]
    · intro j hj
      obtain ⟨hmin, hbase, hheader, -⟩ := s.layout
      rw [hblock j hj]
      exact (hrew.below _ (.inl (by omega))).trans (h.block j hj)
    · intro j hj
      rw [hvalue j (hsize ▸ hj)]
      exact byte_of_slice hslice hj

theorem dvd_namesLen (es : List Entry) : 4 ∣ namesLen es := by
  induction es with
  | nil => exact Nat.dvd_zero 4
  | cons e _ ih =>
    rw [namesLen_cons]
    exact Nat.dvd_add (dvd_len e) ih

section

variable (h : SoundAt s data es₁ e es₂)

include h

theorem SoundAt.ibodyGet (hlen : e.valueSize ≤ len) :
    s.ibodyGet dataKey len = some (.ok (s.body.slice e.valueOffs e.valueSize)) := by
  obtain ⟨-, hfind, -⟩ := h.listed.find_eq
  have hx := h.stateXattr
  unfold Inode.ibodyGet
  rw [hx, if_neg Bool.true_eq_false.mp, if_neg (not_not.mpr (h.listed.checkInode hx)), ← h.key,
    hfind, Option.map_some]
  rw [h.read_eq, if_neg Bool.false_ne_true, if_neg (Nat.not_lt_of_le hlen)]

theorem SoundAt.ibodyFind : s.ibodyFind dataKey = some (.ok (namesLen es₁, false)) :=
  h.key ▸ h.listed.find_eq.1

theorem SoundAt.maxInlineSize :
    ∃ free, free = minOffs s.area.size (es₁ ++ e :: es₂) - namesLen (es₁ ++ e :: es₂) - 4 ∧
      s.maxInlineSize = some (if free + xattrSize e.valueSize = 0 then 0
        else ((free + xattrSize e.valueSize + minInlineDataSize : ℕ) : ℤ)) := by
  have hlast := h.listed.values.le_minOffs h.listed.entries.inside
  rw [Nat.zero_add] at hlast
  have hsize := (h.listed.values.size_le (e := e) (by simp)).trans s.area.size_le
  refine ⟨_, rfl, ?_⟩
  unfold Inode.maxInlineSize maxInlineValueSize
  rw [if_neg h.listed.extra, h.stateXattr, if_neg Bool.true_eq_false.mp,
    scanEntries_eq h.listed.entries h.listed.entries.length_lt, Option.map_some, Option.map_some,
    if_pos h.off_ne_zero, h.raw_valueSize, xattrSize32_eq hsize, Nat.zero_add]
  have hcast : (minOffs s.area.size (es₁ ++ e :: es₂) : ℤ) - (namesLen (es₁ ++ e :: es₂) : ℕ) - 4 +
      (xattrSize e.valueSize : ℕ) =
      ((minOffs s.area.size (es₁ ++ e :: es₂) - namesLen (es₁ ++ e :: es₂) - 4 +
        xattrSize e.valueSize : ℕ) : ℤ) := by omega
  rw [hcast]
  split
  case isTrue hz => rw [if_pos (Int.ofNat_eq_zero.mp hz)]
  case isFalse hz =>
    rw [if_neg fun hzero => hz (Int.ofNat_eq_zero.mpr hzero)]
    exact congrArg some (Int.natCast_add _ _).symm

theorem SoundAt.updateInlineData (hmay : s.mayInlineData = true) {size : ℤ}
    (hmax : s.maxInlineSize = some size) (hle : (len : ℤ) ≤ size) :
    ∃ s', s.updateInlineData c len = some (0, s') ∧ Sound s' data ∧ len ≤ s'.iInlineSize := by
  unfold Inode.updateInlineData
  by_cases hlen : len ≤ s.iInlineSize
  · exact ⟨s, if_pos hlen, ⟨es₁, e, es₂, h⟩, hlen⟩
  have hsize := h.size
  have hslice := s.body.slice_length e.valueOffs e.valueSize
  obtain ⟨free, hfree, hmaxeq⟩ := h.maxInlineSize
  have hbound : len ≤ free + xattrSize e.valueSize + minInlineDataSize := by
    rw [← Option.some.inj (hmaxeq.symm.trans hmax)] at hle
    split at hle <;> omega
  -- what is free is a multiple of four, so that the padded value fits
  have hfit : namesLen (es₁ ++ e :: es₂) + 4 + xattrSize (len - minInlineDataSize) ≤
      minOffs s.area.size (es₁ ++ e :: es₂) + xattrSize e.valueSize := by
    have hlast := h.listed.values.le_minOffs h.listed.entries.inside
    have hdvd := dvd_minOffs s.area.size_dvd h.aligned
    have hnames := dvd_namesLen (es₁ ++ e :: es₂)
    unfold xattrSize at hbound ⊢
    omega
  generalize hl : s.body.slice e.valueOffs e.valueSize ++ replicate
    (len - minInlineDataSize - (s.body.slice e.valueOffs e.valueSize).length) 0 = l
  have hlength : l.length = len - minInlineDataSize := by
    rw [← hl, length_append, length_replicate]
    omega
  have hvalue : ∀ j < l.length, data (minInlineDataSize + j) = l.getD j 0 := by
    intro j hj
    rw [← hl]
    by_cases hold : j < e.valueSize
    · rw [getD_append _ _ _ _ (by omega), ← byte_of_slice rfl hold, h.value j hold]
    · rw [getD_append_right _ _ _ _ (by omega), h.zero _ (by omega), getD_replicate]
      omega
  obtain ⟨raw, fs, f, gs, hset, -, hsound⟩ := @SoundAt.setData N s c data e es₁ es₂ l data h
    (hlength ▸ hfit) (fun _ _ => rfl) hvalue fun j hj => h.zero j (by omega)
  have hfield : raw.le (s.first + namesLen es₁ + 8) 4 = l.length := by
    have hraw : raw.le (s.iInlineOff + 8) 4 = f.valueSize := hsound.raw_valueSize
    have hf : minInlineDataSize + l.length = minInlineDataSize + f.valueSize := hsound.size
    rw [← h.off, hraw]
    omega
  refine ⟨{ s with
    raw := raw, stateXattr := true, iInlineSize := minInlineDataSize + l.length }, ?_,
    ⟨fs, f, gs, hsound⟩, ?_⟩
  · rw [if_neg hlen, h.ibodyFind, Option.bind_some]
    dsimp only
    rw [if_neg Bool.false_ne_true, h.ibodyGet (by omega), Option.bind_some]
    dsimp only
    rw [hl, hset, Option.map_some, if_neg (not_not.mpr rfl)]
    rw [hfield, ← h.off, ← hmay]
  · dsimp only
    omega

theorem SoundAt.truncateValue (hgt : minInlineDataSize < s.iInlineSize)
    (hlt : size < s.iInlineSize) : ∃ s' fs f gs, s.truncateValue c size = some (.ok s') ∧
      SoundAt { s' with iInlineSize := max size minInlineDataSize }
        (data.apply (.truncate (max size minInlineDataSize))) fs f gs := by
  have hsize := h.size
  have hslice := s.body.slice_length e.valueOffs e.valueSize
  generalize hl : (s.body.slice e.valueOffs e.valueSize).take (size - minInlineDataSize) = l
  have hlength : l.length = size - minInlineDataSize := by
    rw [← hl, length_take]
    omega
  have hfit : namesLen (es₁ ++ e :: es₂) + 4 + xattrSize l.length ≤
      minOffs s.area.size (es₁ ++ e :: es₂) + xattrSize e.valueSize := by
    have hlast := h.listed.values.le_minOffs h.listed.entries.inside
    unfold xattrSize
    omega
  have hvalue : ∀ j < l.length,
      data.apply (.truncate (max size minInlineDataSize)) (minInlineDataSize + j) =
        l.getD j 0 := by
    intro j hj
    have hold : j < e.valueSize := by omega
    have hkeep : data.apply (.truncate (max size minInlineDataSize)) (minInlineDataSize + j) =
        data (minInlineDataSize + j) := if_pos (by omega)
    rw [hkeep, ← h.value j hold, byte_of_slice rfl hold, ← hl,
      getD_eq_getElem?_getD, getD_eq_getElem?_getD, getElem?_take_of_lt (by omega)]
  obtain ⟨raw, fs, f, gs, hset, -, hsound⟩ := @SoundAt.setData N s c data e es₁ es₂ l
    (data.apply (.truncate (max size minInlineDataSize))) h hfit
    (fun j hj => if_pos (by omega)) hvalue fun j hj => if_neg (by omega)
  have hend : minInlineDataSize + l.length = max size minInlineDataSize := by omega
  rw [hend] at hsound
  refine ⟨{ s with raw := raw, stateXattr := true }, fs, f, gs, ?_, hsound⟩
  unfold Inode.truncateValue
  rw [h.ibodyFind, Option.bind_some]
  dsimp only
  rw [if_neg Bool.false_ne_true, h.read_eq, h.ibodyGet (Nat.le_refl _), Option.bind_some]
  dsimp only
  rw [if_neg (by omega), hl, hset, Option.map_some, if_neg (not_not.mpr rfl)]

theorem SoundAt.clearBlock (hlt : size < minInlineDataSize)
    (hsize : s.iInlineSize = minInlineDataSize) :
    ∃ raw, s.raw.clear (iBlock + size) (minInlineDataSize - size) = some raw ∧
      SoundAt { s with raw := raw } (data.apply (.truncate size)) es₁ e es₂ := by
  have hlength := @length_replicate (BitVec 8) (minInlineDataSize - size) 0
  obtain ⟨raw, hstore, hsound⟩ := @SoundAt.store N s data e es₁ es₂ size
    (replicate (minInlineDataSize - size) 0) h _ (by omega) (.inl ⟨by omega, rfl⟩)
  have hsame : data.apply (.write size (replicate (minInlineDataSize - size) 0)) =
      data.apply (.truncate size) := by
    funext j
    simp only [apply, hlength]
    split
    case isTrue hin => rw [if_neg (by omega), getD_replicate 0 (by omega)]
    case isFalse hout =>
      split
      case isTrue => rfl
      case isFalse => exact h.zero j (by omega)
  exact ⟨raw, (clear_eq_store _ _ _).trans hstore, hsame ▸ hsound⟩

theorem SoundAt.truncate_of_le (hle : s.iInlineSize ≤ size) :
    data.apply (.truncate size) = data := by
  funext j
  by_cases hj : j < size
  · exact if_pos hj
  · exact (if_neg hj).trans (h.zero j (by omega)).symm

theorem SoundAt.inlineDataTruncate :
    ∃ s', s.inlineDataTruncate c size = some (0, s') ∧ Sound s' (data.apply (.truncate size)) := by
  have hvalue := h.size
  unfold Inode.inlineDataTruncate
  by_cases hkeep : s.iInlineSize ≤ size
  · rw [h.truncate_of_le hkeep]
    exact ⟨s, if_pos (.inr hkeep), es₁, e, es₂, h⟩
  rw [if_neg (not_or.mpr ⟨h.off_ne_zero, hkeep⟩)]
  -- the state after the value has been cut off
  have hcut : ∃ s' fs f gs, (if s.iInlineSize > minInlineDataSize then s.truncateValue c size
      else some (.ok s)) = some (.ok s') ∧
      SoundAt { s' with iInlineSize := max size minInlineDataSize }
        (data.apply (.truncate (max size minInlineDataSize))) fs f gs := by
    split
    case isTrue hgt => exact h.truncateValue hgt (Nat.lt_of_not_le hkeep)
    case isFalse hgt =>
      refine ⟨s, es₁, e, es₂, rfl, ?_⟩
      have hmax : max size minInlineDataSize = s.iInlineSize := by omega
      rw [hmax, h.truncate_of_le (Nat.le_refl _)]
      exact h
  obtain ⟨s', fs, f, gs, hs', hsound⟩ := hcut
  rw [hs', Option.bind_some]
  dsimp only
  by_cases hlt : size < minInlineDataSize
  · have hmax : max size minInlineDataSize = minInlineDataSize := Nat.max_eq_right (by omega)
    obtain ⟨raw, hraw, hclear⟩ := hsound.clearBlock hlt hmax
    rw [if_pos hlt]
    have hraw' : s'.raw.clear (iBlock + size) (minInlineDataSize - size) = some raw := hraw
    rw [hraw', Option.map_some]
    refine ⟨_, rfl, fs, f, gs, ?_⟩
    have hall : (data.apply (.truncate (max size minInlineDataSize))).apply (.truncate size) =
        data.apply (.truncate size) := by
      funext j
      simp only [apply]
      split
      case isTrue hj => rw [if_pos (by omega)]
      case isFalse => rfl
    rw [← hall]
    exact hclear
  · rw [if_neg hlt, Option.map_some]
    have hmax : max size minInlineDataSize = size := Nat.max_eq_left (by omega)
    rw [hmax] at hsound ⊢
    exact ⟨_, rfl, fs, f, gs, hsound⟩

end

/-- An entry of this name stands behind that of `system.data`. -/
def Behind (s : Inode N) (k : NameKey) : Prop :=
  match findEntry false k s.body s.area.size 0 with
  | some (here, false) => s.iInlineOff < s.first + here
  | _ => True

instance (s : Inode N) (k : NameKey) : Decidable (Behind s k) :=
  match h : findEntry false k s.body s.area.size 0 with
  | some (here, false) =>
    decidable_of_iff (s.iInlineOff < s.first + here) (by unfold Behind; rw [h])
  | some (_, true) => .isTrue (by unfold Behind; rw [h]; trivial)
  | none => .isTrue (by unfold Behind; rw [h]; trivial)

/-- Another attribute is set to a value in the inode or removed, and then it stands behind
`system.data`; `i_extra_isize` does not grow. -/
def Allowed (s : Inode N) : Op → Prop
  | .write _ _ => True
  | .truncate _ => True
  | .set i =>
    (i.key ≠ dataKey ∧ i.Named ∧ i.inInode = false) ∧ (i.value.isNone = true → Behind s i.key)
  | .expand new => new ≤ s.iExtraIsize

instance (s : Inode N) : ∀ op, Decidable (Allowed s op)
  | .write _ _ => inferInstanceAs (Decidable True)
  | .truncate _ => inferInstanceAs (Decidable True)
  | .set i => inferInstanceAs (Decidable ((i.key ≠ dataKey ∧ ¬ (_ ∧ _) ∧ i.inInode = false) ∧
      (i.value.isNone = true → Behind s i.key)))
  | .expand new => inferInstanceAs (Decidable (new ≤ s.iExtraIsize))

theorem SoundAt.write (h : SoundAt s data es₁ e es₂) :
    ∃ ret s', stepRet c s (.write pos l) = some (ret, s') ∧
      Sound s' (if ret = 0 then data.apply (.write pos l) else data) := by
  rw [stepRet]
  unfold prepareInlineData
  cases hmay : s.mayInlineData with
  | false => exact ⟨eNospc, s, rfl, es₁, e, es₂, h⟩
  | true =>
    obtain ⟨size, hmax⟩ : ∃ size, s.maxInlineSize = some size := by
      obtain ⟨free, -, hmax⟩ := h.maxInlineSize
      exact ⟨_, hmax⟩
    rw [if_neg Bool.true_eq_false.mp, hmax, Option.bind_some]
    split
    case isTrue => exact ⟨eNospc, s, rfl, es₁, e, es₂, h⟩
    case isFalse hle =>
      obtain ⟨s₁, hs₁, ⟨fs, f, gs, hsound⟩, hfit⟩ :=
        h.updateInlineData hmay hmax (Int.not_lt.mp hle)
      obtain ⟨s₂, hs₂, hsound₂⟩ := hsound.writeInlineData hfit
      rw [if_pos h.off_ne_zero, hs₁, Option.bind_some, if_neg (not_not.mpr rfl), hs₂,
        Option.map_some]
      exact ⟨0, s₂, rfl, fs, f, gs, hsound₂⟩

/-- An operation succeeds and leaves the inode with its contents. -/
theorem Sound.step {op : Op} (h : Sound s data) (hop : Allowed s op) :
    ∃ r, step c (s, data) op = some r ∧ Sound r.1 r.2 := by
  obtain ⟨es₁, e, es₂, h⟩ := h
  have hret : ∃ ret s', stepRet c s op = some (ret, s') ∧
      Sound s' (if ret = 0 then data.apply op else data) := by
    cases op with
    | write => exact h.write
    | truncate =>
      obtain ⟨s', hs', hsound⟩ := h.inlineDataTruncate
      exact ⟨0, s', hs', hsound⟩
    | set i =>
      obtain ⟨⟨hother, hnamed, hin⟩, hremove⟩ := hop
      have hbehind : i.value = none → ∀ here, findEntry false i.key s.body s.area.size 0 =
          some (here, false) → s.iInlineOff < s.first + here := by
        intro hvalue here hfind
        have hb := hremove (Option.isNone_iff_eq_none.mpr hvalue)
        unfold Behind at hb
        rw [hfind] at hb
        exact hb
      obtain ⟨ret, s', hs', hsound⟩ := h.set hother hnamed hin hbehind
      refine ⟨ret, s', hs', ?_⟩
      split
      · exact hsound
      · exact hsound
    | expand => exact ⟨0, s, if_pos hop, es₁, e, es₂, h⟩
  obtain ⟨ret, s', hs', hsound⟩ := hret
  refine ⟨(s', if ret = 0 then data.apply op else data), ?_, hsound⟩
  unfold Inline.step
  rw [hs']
  rfl

/-- After every run of writes, truncates and changes of other attributes that removes attributes
behind `system.data` only and does not grow `i_extra_isize`, a reader gets the contents, and the
cached place and size are those of `system.data`. -/
theorem inline_exact (c : Calls N) (s : Inode N) (data : Contents) (h : Sound s data)
    (ops : List Op)
    (hops : Along (step c) (fun s op => Allowed s.1 op) (s, data) ops) :
    ∃ s' data', exec (step c) (s, data) ops = some (s', data') ∧
      (∀ len ≤ s'.iInlineSize, s'.readInlineData len = some ((range len).map data')) ∧
      (∀ j, s'.iInlineSize ≤ j → data' j = 0) ∧
      ∃ here, findEntry false dataKey s'.body s'.area.size 0 = some (here, false) ∧
        s'.iInlineOff = s'.first + here ∧
        s'.iInlineSize = minInlineDataSize + (readEntry s'.body here).valueSize := by
  obtain ⟨⟨s', data'⟩, hrun, es₁, e, es₂, hsound⟩ :=
    @exec_progress _ _ (step c) (fun s op => Allowed s.1 op)
      (fun r : Inode N × Contents => Sound r.1 r.2) (s, data) (fun _ _ hi hop => Sound.step hi hop)
      ops h hops
  refine ⟨s', data', hrun, fun len hlen => hsound.readInlineData_eq hlen, hsound.zero,
    namesLen es₁, ?_, hsound.off, ?_⟩
  · rw [← hsound.key]
    exact hsound.listed.find_eq.2.1
  · rw [hsound.read_eq]
    exact hsound.size

/-- An inode of 256 bytes with `i_extra_isize` 32, from the header of its attributes on. -/
def inode256 (l : List (BitVec 8)) (off : ℕ) : Inode 256 where
  raw := fun j => if j.val < 160 then 0 else l.getD (j.val - 160) 0
  iExtraIsize := 32
  iInlineOff := off
  iInlineSize := 64
  stateXattr := true
  mayInlineData := true
  size_dvd := by decide
  size_le := by decide
  extra_dvd := by decide
  room := by decide

/-- The entry of `system.data` with four bytes at the end of the area. -/
def dataBytes : List (BitVec 8) :=
  [4, 7, 88, 0, 0, 0, 0, 0, 4, 0, 0, 0, 0, 0, 0, 0, 100, 97, 116, 97]

def magicBytes : List (BitVec 8) := [0, 0, 2, 0xEA]

/-- The entry of `user.a` with an empty value. -/
def userBytes : List (BitVec 8) := [1, 1, 0, 0, 0, 0, 0, 0, 0, 0, 0, 0, 0, 0, 0, 0, 97, 0, 0, 0]

def onlyData : Inode 256 :=
  inode256 (magicBytes ++ dataBytes ++ replicate 68 0 ++ [1, 2, 3, 4]) 164

def userFirst : Inode 256 :=
  inode256 (magicBytes ++ userBytes ++ dataBytes ++ replicate 48 0 ++ [1, 2, 3, 4]) 184

def fourBytes : Contents := fun j => if j < 60 then 0 else [1, 2, 3, 4].getD (j - 60) 0

def dataEntry : Entry := ⟨7, 88, 0, 4, 0, [100, 97, 116, 97]⟩

def userEntry : Entry := ⟨1, 0, 0, 0, 0, [97]⟩

theorem fourBytes_zero (hj : 64 ≤ j) : fourBytes j = 0 := by
  unfold fourBytes
  rw [if_neg (by omega)]
  exact getD_eq_default _ _ (by simp; omega)

theorem sound_onlyData : Sound onlyData fourBytes := by
  refine ⟨[], dataEntry, [], ⟨⟨⟨by decide +kernel, ?_, trivial⟩, by decide +kernel, by decide⟩,
    ⟨by decide, pairwise_singleton _ _, by decide⟩, ⟨by decide, by decide⟩, fun _ => rfl,
    fun _ => by decide +kernel, by decide⟩, by decide, rfl, rfl, rfl, by decide +kernel,
    by decide +kernel, fun j hj => fourBytes_zero hj⟩
  rintro ⟨-, hindex, -⟩
  exact absurd hindex (by decide)

theorem sound_userFirst : Sound userFirst fourBytes := by
  have hapart : [userEntry, dataEntry].Pairwise Apart := by
    refine pairwise_cons.mpr ⟨?_, pairwise_singleton _ _⟩
    intro f _ hs
    exact absurd rfl hs
  refine ⟨[userEntry], dataEntry, [], ⟨⟨⟨by decide +kernel, ?_, by decide +kernel, ?_, trivial⟩,
    by decide +kernel, by decide⟩, ⟨by decide, hapart, by decide⟩, ⟨by decide, by decide⟩,
    fun _ => rfl, fun _ => by decide +kernel, by decide⟩, by decide, rfl, rfl, rfl,
    by decide +kernel, by decide +kernel, fun j hj => fourBytes_zero hj⟩
  · rintro ⟨-, hindex, -⟩
    exact absurd hindex (by decide)
  · rintro ⟨-, hindex, -⟩
    exact absurd hindex (by decide)

def noCalls : Calls 256 where
  ea := noEaInodes
  tryToEvict := fun _ s => some (eNospc, s)
  makeSpace := fun _ s => some (eNospc, s)

def exampleRun : List Op :=
  [.write 58 [5, 6, 7, 8, 9, 10, 11, 12], .set (userA (some (.bytes [1, 2, 3]))), .truncate 62,
    .set (userA none)]

theorem inline_exact_exampleRun :
    Sound onlyData fourBytes ∧
      Along (step noCalls) (fun s op => Allowed s.1 op) (onlyData, fourBytes) exampleRun ∧
      ∃ s' data', exec (step noCalls) (onlyData, fourBytes) exampleRun = some (s', data') ∧
        (∀ len ≤ s'.iInlineSize, s'.readInlineData len = some ((range len).map data')) ∧
        (∀ j, s'.iInlineSize ≤ j → data' j = 0) ∧
        ∃ here, findEntry false dataKey s'.body s'.area.size 0 = some (here, false) ∧
          s'.iInlineOff = s'.first + here ∧
          s'.iInlineSize = minInlineDataSize + (readEntry s'.body here).valueSize := by
  have hrun : Along (step noCalls) (fun s op => Allowed s.1 op) (onlyData, fourBytes)
      exampleRun := by decide +kernel
  exact ⟨sound_onlyData, hrun,
    inline_exact noCalls onlyData fourBytes sound_onlyData exampleRun hrun⟩

/-- What is read, what was written last, whether the cached place is that of `system.data`. -/
def observe (r : Inode 256 × Contents) :
    Option (List (BitVec 8)) × List (BitVec 8) × Bool :=
  (r.1.readInlineData r.1.iInlineSize, (range r.1.iInlineSize).map r.2,
    (findEntry false dataKey r.1.body r.1.area.size 0).map (fun f => r.1.first + f.1) =
      some r.1.iInlineOff)

/-- The removal of an attribute before `system.data`, or the growth of `i_extra_isize`: the last
four bytes are not read any more. -/
theorem inline_bug :
    Sound userFirst fourBytes ∧ Sound onlyData fourBytes ∧
      (exec (step noCalls) (userFirst, fourBytes) [.set (userA none)]).map observe =
        some (some (replicate 60 0), replicate 60 0 ++ [1, 2, 3, 4], false) ∧
      (exec (step noCalls) (onlyData, fourBytes) [.expand 36]).map observe =
        some (some (replicate 60 0), replicate 60 0 ++ [1, 2, 3, 4], false) := by
  refine ⟨sound_userFirst, sound_onlyData, ?_, ?_⟩
  · decide +kernel
  · decide +kernel

end VMsep.Ext4.Inline
