import VMsep.Ext4.ExtentStatus

/-! What the changes of the extent status tree do to the list of its extents: the list is read as a
partial map from logical blocks to a status and a physical block. -/

namespace VMsep.Ext4

open Lib List

abbrev EsValue := EsType × Option (BitVec 59)

namespace ExtentStatus

def value (es : ExtentStatus) (x : ℕ) : EsValue :=
  (es.esType,
    if es.esType.isMapped then some (es.esPblk + BitVec.ofNat 59 (x - es.esLblk)) else none)

end ExtentStatus

def esView : Ranges ExtentStatus EsValue where
  start := ExtentStatus.esLblk
  len := ExtentStatus.esLen
  value := ExtentStatus.value

variable {es a b c newes : ExtentStatus} {x stop lblk : ℕ} {l m k l' : List ExtentStatus}

theorem esView_covers : esView.covers es x = true ↔ es.esLblk ≤ x ∧ x < es.esLblk + es.esLen :=
  esView.covers_iff

theorem esView_not_covers :
    esView.covers es x = false ↔ ¬ (es.esLblk ≤ x ∧ x < es.esLblk + es.esLen) := by
  rw [← Bool.not_eq_true, esView_covers]

structure EsList (l : List ExtentStatus) : Prop where
  ordered : esView.Ordered l
  bound : ∀ es ∈ l, es.esLblk + es.esLen ≤ extMaxBlocks

theorem EsList.sublist (h : EsList l) (hsub : m.Sublist l) : EsList m :=
  ⟨h.ordered.sublist hsub, fun es hes => h.bound es (hsub.subset hes)⟩

theorem EsList.pos (h : EsList l) (es : ExtentStatus) (hes : es ∈ l) :
    0 < es.esLen := h.ordered.pos es hes

theorem EsList.before (h : EsList (l ++ m)) (ha : a ∈ l) (hb : b ∈ m) :
    a.esLblk + a.esLen ≤ b.esLblk :=
  (pairwise_append.mp h.ordered.before).2.2 a ha b hb

theorem EsList.append (hl : EsList l) (hm : EsList m)
    (hlm : ∀ a ∈ l, ∀ b ∈ m, a.esLblk + a.esLen ≤ b.esLblk) : EsList (l ++ m) := by
  refine ⟨⟨?_, pairwise_append.mpr ⟨hl.ordered.before, hm.ordered.before, hlm⟩⟩, ?_⟩
  · intro es hes
    rcases mem_append.mp hes with hes | hes
    · exact hl.pos es hes
    · exact hm.pos es hes
  · intro es hes
    rcases mem_append.mp hes with hes | hes
    · exact hl.bound es hes
    · exact hm.bound es hes

theorem EsList.singleton (es : ExtentStatus) (hpos : 0 < es.esLen)
    (hbound : es.esLblk + es.esLen ≤ extMaxBlocks) : EsList [es] := by
  refine ⟨⟨?_, pairwise_singleton _ _⟩, ?_⟩ <;>
  · intro e he
    rw [mem_singleton.mp he]
    assumption

theorem EsList.left (h : EsList (l ++ m)) : EsList l :=
  h.sublist (sublist_append_left l m)

theorem EsList.right (h : EsList (l ++ m)) : EsList m :=
  h.sublist (sublist_append_right l m)

theorem EsList.after (h : EsList (l ++ a :: m)) (hb : b ∈ m) : a.esLblk + a.esLen ≤ b.esLblk :=
  EsList.before (l := [a]) h.right (by simp) hb

theorem EsList.cutBack {lblk : ℕ} (h : EsList (l ++ a :: m)) (hin : a.esLblk < lblk)
    (hle : lblk ≤ a.esLblk + a.esLen) : EsList (l ++ { a with esLen := lblk - a.esLblk } :: m) := by
  have hend : a.esLblk + (lblk - a.esLblk) ≤ a.esLblk + a.esLen := by omega
  refine h.left.append ((EsList.singleton _ (Nat.sub_pos_of_lt hin) ?_).append
    (EsList.right (l := [a]) h.right) ?_) ?_
  · exact hend.trans (h.bound a (by simp))
  · intro c hc b hb
    rw [mem_singleton.mp hc]
    exact hend.trans (h.after hb)
  · intro c hc b hb
    rcases mem_cons.mp hb with rfl | hb
    · exact h.before hc (b := a) (by simp)
    · exact h.before hc (mem_cons_of_mem _ hb)

theorem esCanBeMerged_spec (h : esCanBeMerged a b = true) :
    a.esType = b.esType ∧ a.esLen + b.esLen ≤ extMaxBlocks ∧ a.esLblk + a.esLen = b.esLblk ∧
      (a.esType.isMapped = true → a.esPblk.toNat + a.esLen = b.esPblk.toNat) := by
  unfold esCanBeMerged at h
  split_ifs at h with htype hlen hlblk hmap hhole
  · exact ⟨not_not.mp htype, not_lt.mp hlen, not_not.mp hlblk, fun _ => hmap.2⟩
  · refine ⟨not_not.mp htype, not_lt.mp hlen, not_not.mp hlblk, fun hm => ?_⟩
    rw [hhole] at hm
    cases hm
  · refine ⟨not_not.mp htype, not_lt.mp hlen, not_not.mp hlblk, fun hm => ?_⟩
    rw [of_decide_eq_true h] at hm
    cases hm

structure MergeOf (a b c : ExtentStatus) : Prop where
  type : a.esType = b.esType ∧ c.esType = a.esType
  next : a.esLblk + a.esLen = b.esLblk
  lblk : c.esLblk = a.esLblk
  len : c.esLen = a.esLen + b.esLen
  pblk : c.esType.isMapped = true → a.esPblk.toNat + a.esLen = b.esPblk.toNat ∧ c.esPblk = a.esPblk

theorem MergeOf.of_canBeMerged (h : esCanBeMerged a b = true) (htype : c.esType = a.esType)
    (hlblk : c.esLblk = a.esLblk) (hlen : c.esLen = a.esLen + b.esLen)
    (hpblk : c.esType.isMapped = true → c.esPblk = a.esPblk) : MergeOf a b c := by
  obtain ⟨h1, -, h3, h4⟩ := esCanBeMerged_spec h
  exact ⟨⟨h1, htype⟩, h3, hlblk, hlen, fun hm => ⟨h4 (htype ▸ hm), hpblk hm⟩⟩

theorem MergeOf.value_left (h : MergeOf a b c) (x : ℕ) : c.value x = a.value x := by
  unfold ExtentStatus.value
  rw [h.type.2, h.lblk]
  congr 1
  split_ifs with hm
  · rw [(h.pblk (h.type.2 ▸ hm)).2]
  · rfl

theorem MergeOf.value_right (h : MergeOf a b c) (hx : b.esLblk ≤ x) : c.value x = b.value x := by
  rw [h.value_left]
  unfold ExtentStatus.value
  rw [h.type.1]
  congr 1
  split_ifs with hm
  · have hsum := (h.pblk (by rw [h.type.2, h.type.1]; exact hm)).1
    have hnext := h.next
    congr 1
    rw [← BitVec.toNat_inj, BitVec.toNat_add, BitVec.toNat_add, ← hsum, BitVec.toNat_ofNat,
      BitVec.toNat_ofNat, Nat.add_mod_mod, Nat.add_mod_mod]
    congr 1
    omega
  · rfl

theorem MergeOf.map_eq (h : MergeOf a b c) (x : ℕ) : esView.map [c] x = esView.map [a, b] x := by
  have hl := h.lblk
  have hlen := h.len
  have hn := h.next
  simp only [esView.map_cons, esView.map_nil, esView_covers]
  by_cases hb : b.esLblk ≤ x
  · rw [if_neg (c := a.esLblk ≤ x ∧ x < a.esLblk + a.esLen) (by omega)]
    have hiff : (c.esLblk ≤ x ∧ x < c.esLblk + c.esLen) ↔
        b.esLblk ≤ x ∧ x < b.esLblk + b.esLen := by omega
    simp only [hiff]
    split_ifs
    · exact congrArg some (h.value_right hb)
    · rfl
  · rw [if_neg (c := b.esLblk ≤ x ∧ x < b.esLblk + b.esLen) (by omega)]
    have hiff : (c.esLblk ≤ x ∧ x < c.esLblk + c.esLen) ↔
        a.esLblk ≤ x ∧ x < a.esLblk + a.esLen := by omega
    simp only [hiff]
    split_ifs
    · exact congrArg some (h.value_left x)
    · rfl

theorem EsList.merge (h : EsList (l ++ a :: b :: m)) (hc : MergeOf a b c) :
    EsList (l ++ c :: m) := by
  have hl := hc.lblk
  have hlen := hc.len
  have hn := hc.next
  have hright : EsList ([a] ++ (b :: m)) := h.right
  have hab : EsList (l ++ [a] ++ ([b] ++ m)) := by simpa using h
  have hb := hab.right.bound b (by simp)
  have hposa := hright.pos a (by simp)
  refine h.left.append ((EsList.singleton c (by omega) (by omega)).append
    hab.right.right ?_) ?_
  · intro e he f hf
    rw [mem_singleton.mp he]
    have := hab.right.before (a := b) (by simp) hf
    omega
  · intro e he f hf
    have hea := h.before he (b := a) (by simp)
    rcases mem_cons.mp hf with rfl | hf
    · omega
    · exact h.before he (by simp [hf])

structure Inserts (newes : ExtentStatus) (l l' : List ExtentStatus) : Prop where
  list : EsList l'
  map : ∀ x, esView.map l' x =
    if esView.covers newes x then some (newes.value x) else esView.map l x

theorem Inserts.new (h : EsList (l ++ m)) (hnew : EsList [newes])
    (hl : ∀ a ∈ l, a.esLblk + a.esLen ≤ newes.esLblk)
    (hm : ∀ a ∈ m, newes.esLblk + newes.esLen ≤ a.esLblk) :
    Inserts newes (l ++ m) (l ++ newes :: m) where
  list := by
    refine h.left.append (hnew.append h.right ?_) ?_
    · intro a ha b hb
      rw [mem_singleton.mp ha]
      exact hm b hb
    · intro a ha b hb
      rcases mem_cons.mp hb with rfl | hb
      · exact hl a ha
      · exact h.before ha hb
  map := fun x => Ranges.map_insert hl x

theorem Inserts.merge (h : Inserts newes k (l ++ a :: b :: m)) (hc : MergeOf a b c) :
    Inserts newes k (l ++ c :: m) := by
  refine ⟨h.list.merge hc, fun x => ?_⟩
  rw [← h.map x]
  simpa using Ranges.map_congr (V := esView) (l := l) (m := m) (hc.map_eq x)

/-- The list after the blocks from `lblk` to `stop` were erased. -/
structure Erases (lblk stop : ℕ) (l l' : List ExtentStatus) : Prop where
  list : EsList l'
  map : ∀ x, esView.map l' x = if lblk ≤ x ∧ x ≤ stop then none else esView.map l x

def cutFrontOf (es : ExtentStatus) (stop : ℕ) : ExtentStatus :=
  { es with
    esLblk := stop + 1, esLen := es.esLblk + es.esLen - 1 - stop
    esPblk := if es.esType.isMapped then
      es.esPblk + BitVec.ofNat 59 es.esLen - BitVec.ofNat 59 (es.esLblk + es.esLen - 1 - stop)
      else es.esPblk }

theorem cut_value {rest : ExtentStatus} (len : ℕ) (htype : rest.esType = es.esType)
    (hstart : rest.esLblk + len = es.esLblk + es.esLen) (hlen : len ≤ es.esLen)
    (hpblk : es.esType.isMapped = true →
      rest.esPblk = es.esPblk + BitVec.ofNat 59 es.esLen - BitVec.ofNat 59 len)
    (hx : rest.esLblk ≤ x) : rest.value x = es.value x := by
  unfold ExtentStatus.value
  rw [htype]
  congr 1
  split_ifs with hm
  · congr 1
    rw [hpblk hm]
    have hx' : x - es.esLblk + len = es.esLen + (x - rest.esLblk) := by omega
    have hadd : BitVec.ofNat 59 (x - es.esLblk) + BitVec.ofNat 59 len =
        BitVec.ofNat 59 es.esLen + BitVec.ofNat 59 (x - rest.esLblk) := by
      rw [← BitVec.ofNat_add, ← BitVec.ofNat_add, hx']
    rw [sub_add_eq_add_sub, sub_eq_iff_eq_add, add_assoc, add_assoc, hadd]
  · rfl

/-- The extents with the blocks up to `stop` taken off. -/
def cutBelow (stop : ℕ) : List ExtentStatus → List ExtentStatus
  | [] => []
  | es :: rest =>
    if es.esLblk + es.esLen ≤ stop + 1 then cutBelow stop rest
    else if es.esLblk < stop + 1 then cutFrontOf es stop :: rest
    else es :: rest

theorem cutBelow_spec (stop : ℕ) (h : EsList l) :
    EsList (cutBelow stop l) ∧ (∀ es ∈ cutBelow stop l, stop < es.esLblk) ∧
      ∀ x, esView.map (cutBelow stop l) x = if x ≤ stop then none else esView.map l x := by
  induction l with
  | nil => exact ⟨h, by simp [cutBelow], by simp [cutBelow]⟩
  | cons es rest ih =>
    have hcons : EsList ([es] ++ rest) := h
    have hrest := hcons.right
    have hnext : ∀ e ∈ rest, es.esLblk + es.esLen ≤ e.esLblk := fun e he =>
      hcons.before (by simp) he
    have hbehind : ∀ x, stop + 1 < es.esLblk + es.esLen → x ≤ stop → esView.map rest x = none := by
      intro x hend hx
      refine esView.map_eq_none fun e he => esView_not_covers.mpr ?_
      have := hnext e he
      omega
    unfold cutBelow
    split_ifs with hend hin
    · obtain ⟨h1, h2, h3⟩ := ih hrest
      refine ⟨h1, h2, fun x => ?_⟩
      rw [h3, esView.map_cons]
      split_ifs with hx hcov
      · rfl
      · have := esView_covers.mp hcov
        omega
      · rfl
    · have hlen : (cutFrontOf es stop).esLblk + (cutFrontOf es stop).esLen =
          es.esLblk + es.esLen := by
        change stop + 1 + (es.esLblk + es.esLen - 1 - stop) = _
        omega
      refine ⟨(EsList.singleton _ ?_ ?_).append hrest ?_, ?_, fun x => ?_⟩
      · change 0 < es.esLblk + es.esLen - 1 - stop
        omega
      · rw [hlen]
        exact h.bound es (by simp)
      · intro a ha b hb
        rw [mem_singleton.mp ha, hlen]
        exact hnext b hb
      · intro e he
        rcases mem_cons.mp he with rfl | he
        · exact Nat.lt_succ_self stop
        · have := hnext e he
          omega
      · rw [esView.map_cons, esView.map_cons]
        simp only [esView_covers, hlen]
        by_cases hx : x ≤ stop
        · have hno : ¬ ((cutFrontOf es stop).esLblk ≤ x ∧ x < es.esLblk + es.esLen) := by
            change ¬ (stop + 1 ≤ x ∧ _)
            omega
          rw [if_neg hno, if_pos hx, hbehind x (by omega) hx]
        · have hiff : ((cutFrontOf es stop).esLblk ≤ x ∧ x < es.esLblk + es.esLen) ↔
              (es.esLblk ≤ x ∧ x < es.esLblk + es.esLen) := by
            change (stop + 1 ≤ x ∧ _) ↔ _
            omega
          rw [if_neg hx]
          simp only [hiff]
          split_ifs
          · refine congrArg some (cut_value (es.esLblk + es.esLen - 1 - stop) rfl ?_ ?_ ?_ ?_)
            · change stop + 1 + _ = _
              omega
            · omega
            · exact fun hm => if_pos hm
            · omega
          · rfl
    · refine ⟨h, ?_, fun x => ?_⟩
      · intro e he
        rcases mem_cons.mp he with rfl | he
        · omega
        · have := hnext e he
          omega
      · split_ifs with hx
        · rw [esView.map_cons, hbehind x (by omega) hx, if_neg]
          rw [esView_covers]
          omega
        · rfl

theorem Erases.of_parts (h : EsList (l ++ m)) (hle : lblk ≤ stop) (hl' : EsList l')
    (hl : ∀ a ∈ l, a.esLblk + a.esLen ≤ stop + 1) (hm : ∀ b ∈ m, lblk ≤ b.esLblk)
    (hend : ∀ a ∈ l', a.esLblk + a.esLen ≤ lblk)
    (hmap : ∀ x, esView.map l' x = if lblk ≤ x then none else esView.map l x) :
    Erases lblk stop (l ++ m) (l' ++ cutBelow stop m) := by
  obtain ⟨h1, h2, h3⟩ := cutBelow_spec stop h.right
  refine ⟨hl'.append h1 fun a ha b hb => ?_, fun x => ?_⟩
  · have := hend a ha
    have := h2 b hb
    omega
  · rw [esView.map_append, esView.map_append, hmap, h3]
    rcases lt_or_ge x lblk with hx | hx
    · have hmx : esView.map m x = none := esView.map_eq_none fun b hb =>
        esView_not_covers.mpr (by have := hm b hb; omega)
      rw [if_neg (by omega), if_pos (by omega), if_neg (by omega), hmx]
    · rw [if_pos hx]
      split_ifs with h4 h5 h5
      · rfl
      · omega
      · omega
      · have hlx : esView.map l x = none := esView.map_eq_none fun a ha =>
          esView_not_covers.mpr (by have := hl a ha; omega)
        rw [hlx]

theorem map_below (hl : ∀ e ∈ l, e.esLblk + e.esLen ≤ lblk) (x : ℕ) :
    esView.map l x = if lblk ≤ x then none else esView.map l x := by
  split_ifs with hx
  · exact esView.map_eq_none fun a ha => esView_not_covers.mpr (by have := hl a ha; omega)
  · rfl

theorem map_cutBack (hl : ∀ e ∈ l, e.esLblk + e.esLen ≤ lblk) (hin : es.esLblk < lblk)
    (hend : lblk < es.esLblk + es.esLen) (x : ℕ) :
    esView.map (l ++ [{ es with esLen := lblk - es.esLblk }]) x =
      if lblk ≤ x then none else esView.map (l ++ [es]) x := by
  have hval : esView.value { es with esLen := lblk - es.esLblk } x = esView.value es x := rfl
  rw [esView.map_append, esView.map_append, esView.map_cons, esView.map_cons, hval]
  simp only [esView_covers, esView.map_nil]
  by_cases hx : lblk ≤ x
  · have hlx : esView.map l x = none := esView.map_eq_none fun a ha =>
      esView_not_covers.mpr (by have := hl a ha; omega)
    rw [if_pos hx, hlx, if_neg (by omega)]
    rfl
  · have hiff : (es.esLblk ≤ x ∧ x < es.esLblk + (lblk - es.esLblk)) ↔
        (es.esLblk ≤ x ∧ x < es.esLblk + es.esLen) := by omega
    rw [if_neg hx]
    simp only [hiff]

theorem Erases.of_split (h : EsList (l ++ es :: m)) (hl : ∀ e ∈ l, e.esLblk + e.esLen ≤ lblk)
    (hle : lblk ≤ stop) (hin : es.esLblk < lblk) (hend : stop + 1 < es.esLblk + es.esLen)
    (hins : Inserts newes (l ++ { es with esLen := lblk - es.esLblk } :: m) k)
    (hstart : newes.esLblk = stop + 1) (hstop : newes.esLblk + newes.esLen = es.esLblk + es.esLen)
    (hval : ∀ x, stop < x → newes.value x = es.value x) : Erases lblk stop (l ++ es :: m) k := by
  refine ⟨hins.list, fun x => ?_⟩
  have hm : ∀ e ∈ m, es.esLblk + es.esLen ≤ e.esLblk := fun e he => h.after he
  have hlx : lblk ≤ x → esView.map l x = none := fun hx => esView.map_eq_none fun a ha =>
    esView_not_covers.mpr (by have := hl a ha; omega)
  have hmx : x < es.esLblk + es.esLen → esView.map m x = none := fun hx =>
    esView.map_eq_none fun a ha => esView_not_covers.mpr (by have := hm a ha; omega)
  have hvaleq : esView.value { es with esLen := lblk - es.esLblk } x = esView.value es x := rfl
  rw [hins.map, esView.map_append, esView.map_append, esView.map_cons, esView.map_cons, hvaleq]
  simp only [esView_covers]
  rcases lt_or_ge x lblk with hx | hx
  · have hiff : (es.esLblk ≤ x ∧ x < es.esLblk + (lblk - es.esLblk)) ↔
        (es.esLblk ≤ x ∧ x < es.esLblk + es.esLen) := by omega
    rw [if_neg (by omega), if_neg (c := lblk ≤ x ∧ x ≤ stop) (by omega)]
    simp only [hiff]
  · rw [hlx hx, if_neg (c := es.esLblk ≤ x ∧ x < es.esLblk + (lblk - es.esLblk)) (by omega)]
    rcases lt_or_ge stop x with hx' | hx'
    · rw [if_neg (c := lblk ≤ x ∧ x ≤ stop) (by omega)]
      by_cases hin' : x < es.esLblk + es.esLen
      · rw [if_pos (by omega), if_pos (by omega), hval x hx']
        rfl
      · rw [if_neg (by omega), if_neg (by omega)]
    · rw [if_neg (by omega), if_pos (by omega), hmx (by omega)]
      rfl

/-- Extents that were passed over, with their mark as referenced, and extents that were freed. -/
inductive Reclaims : List ExtentStatus → List ExtentStatus → Prop
  | nil : Reclaims [] []
  | keep {l l' : List ExtentStatus} (es : ExtentStatus) (mark : Bool) :
      Reclaims l l' → Reclaims (es :: l) ({ es with referenced := mark } :: l')
  | free {l l' : List ExtentStatus} {es : ExtentStatus} :
      es.esType.isDelayed = false → Reclaims l l' → Reclaims (es :: l) l'

theorem Reclaims.refl (l : List ExtentStatus) : Reclaims l l := by
  induction l with
  | nil => exact .nil
  | cons es _ ih => exact .keep es es.referenced ih

theorem Reclaims.append {m' : List ExtentStatus} (hl : Reclaims l l') (hm : Reclaims m m') :
    Reclaims (l ++ m) (l' ++ m') := by
  induction hl with
  | nil => exact hm
  | keep es mark _ ih => exact .keep es mark ih
  | free hes _ ih => exact .free hes ih

theorem Reclaims.trans {l'' : List ExtentStatus} (h : Reclaims l l') (h' : Reclaims l' l'') :
    Reclaims l l'' := by
  induction h generalizing l'' with
  | nil => exact h'
  | keep es _ _ ih =>
    cases h' with
    | keep _ mark' h' => exact .keep es mark' (ih h')
    | free hes h' => exact .free hes (ih h')
  | free hes _ ih => exact .free hes (ih h')

theorem Reclaims.mem (h : Reclaims l l') {e : ExtentStatus} (he : e ∈ l') :
    ∃ es ∈ l, e.esLblk = es.esLblk ∧ e.esLen = es.esLen := by
  induction h with
  | nil => cases he
  | keep es _ _ ih =>
    rcases mem_cons.mp he with rfl | he
    · exact ⟨es, mem_cons_self, rfl, rfl⟩
    · obtain ⟨f, hf, heq⟩ := ih he
      exact ⟨f, mem_cons_of_mem _ hf, heq⟩
  | free _ _ ih =>
    obtain ⟨f, hf, heq⟩ := ih he
    exact ⟨f, mem_cons_of_mem _ hf, heq⟩

theorem Reclaims.list (h : Reclaims l l') (hl : EsList l) : EsList l' := by
  induction h with
  | nil => exact hl
  | @keep l _ es mark h ih =>
    have hcons : EsList ([es] ++ l) := hl
    refine (EsList.singleton { es with referenced := mark } (hl.pos es (by simp))
      (hl.bound es (by simp))).append (ih hcons.right) ?_
    intro a ha b hb
    obtain ⟨f, hf, hlb, -⟩ := h.mem hb
    rw [mem_singleton.mp ha, hlb]
    exact hcons.before (a := es) (by simp) hf
  | @free l _ es _ _ ih => exact ih (EsList.right (l := [es]) hl)

abbrev EsMap := ℕ → Option EsValue

def Forgot (v v' : Option EsValue) : Prop :=
  v' = v ∨ v' = none ∧ ∃ w, v = some w ∧ w.1.isDelayed = false

theorem Forgot.trans {v v' v'' : Option EsValue} (h : Forgot v v') (h' : Forgot v' v'') :
    Forgot v v'' := by
  rcases h' with rfl | ⟨hnone, w, rfl, hd⟩
  · exact h
  rcases h with rfl | ⟨hbad, -⟩
  · exact .inr ⟨hnone, w, rfl, hd⟩
  · cases hbad

def EsMap.Reclaimed (m m' : EsMap) : Prop := ∀ x, Forgot (m x) (m' x)

theorem EsMap.Reclaimed.refl (m : EsMap) : m.Reclaimed m := fun _ => .inl rfl

theorem Reclaims.reclaimed (h : Reclaims l l') (hl : EsList l) :
    EsMap.Reclaimed (esView.map l) (esView.map l') := by
  induction h with
  | nil => exact .refl _
  | @keep l _ es mark _ ih =>
    intro x
    have hstep := ih (EsList.right (l := [es]) hl) x
    have hcov : esView.covers { es with referenced := mark } x = esView.covers es x := rfl
    have hval : esView.value { es with referenced := mark } x = esView.value es x := rfl
    rw [esView.map_cons, esView.map_cons, hcov, hval]
    by_cases hx : esView.covers es x = true
    · rw [if_pos hx, if_pos hx]
      exact .inl rfl
    · rw [if_neg hx, if_neg hx]
      exact hstep
  | @free l _ es hes h ih =>
    intro x
    have hcons : EsList ([es] ++ l) := hl
    rw [esView.map_cons]
    by_cases hx : esView.covers es x = true
    · refine .inr ⟨?_, es.value x, by rw [if_pos hx]; rfl, hes⟩
      refine esView.map_eq_none fun e he => esView_not_covers.mpr ?_
      obtain ⟨f, hf, hlb, -⟩ := h.mem he
      have hb := hcons.before (a := es) (by simp) hf
      have hc := esView_covers.mp hx
      omega
    · rw [if_neg hx]
      exact ih hcons.right x

end VMsep.Ext4
