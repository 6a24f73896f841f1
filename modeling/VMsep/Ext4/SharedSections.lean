import VMsep.Ext4.SharedCounts

/-! Every section of `ext4_xattr_block_set` and `ext4_xattr_release_block` keeps the counts. -/

namespace VMsep.Ext4.Shared

open VMsep.Lib Option

variable {ι κ : Type*} [DecidableEq ι]
variable {ops : Entries κ} {s s' : State ι κ} {x y : ι} {b : ℕ} {buf : Buf κ} {c c₀ : Call κ}
  {p : Insert} {upd : κ → Option κ} {base : κ} {inPlace deleting : Bool} {ce : CacheEntry}

def Call.isFreeing : Call κ → Bool
  | .freeing _ _ => true
  | _ => false

def Call.isCreate : Call κ → Bool
  | .create _ => true
  | _ => false

theorem Call.ne_freeing (h : c.isFreeing = false) (b : ℕ) (d : Bool) : c ≠ .freeing b d := by
  rintro rfl
  cases h

theorem Call.ne_create (h : c.isCreate = false) (p : Insert) : c ≠ .create p := by
  rintro rfl
  cases h

omit [DecidableEq ι] in
theorem heldBy_eq (hx : s.calls x = c) (b : ℕ) : s.heldBy x b = c.held (s.acl x) b := by
  unfold State.heldBy
  rw [hx]

variable [Fintype ι]

theorem Inv.next (h : Inv ops s) (hx : s.calls x = c₀) (hidle : c₀.isIdle = false)
    (hfrom : c₀.isFreeing = false) (hto : c.isFreeing = false) (hcreate : c.isCreate = false)
    (hheld : ∀ b, c.held (s.acl x) b = c₀.held (s.acl x) b)
    (hok : CallOk s.cache s.nextId (s.acl x) c) : Inv ops (s.setCall x c) :=
  h.setCall (fun b => (hheld b).trans (heldBy_eq hx b).symm) (hx ▸ Call.ne_freeing hfrom)
    (Call.ne_freeing hto) (h.not_reading (hx ▸ hidle)) hok
    fun p hp => absurd hp (Call.ne_create hcreate p)

theorem Inv.setSection (h : Inv ops s) (hx : s.calls x = .set upd)
    (hs : setSection ops x upd s = some s') : Inv ops s' := by
  unfold Shared.setSection at hs
  split at hs
  case h_1 hacl =>
    split at hs
    · cases hs
      exact h.next hx rfl rfl rfl rfl (fun _ => rfl) trivial
    · cases hs
      exact h.next hx rfl rfl rfl rfl (fun _ => rfl) trivial
  case h_2 b hacl =>
    obtain ⟨buf, hb, rfl⟩ := map_eq_some_iff.mp hs
    split
    case isFalse => exact h.next hx rfl rfl rfl rfl (fun _ => rfl) trivial
    case isTrue hone =>
      have hheld : s.heldBy x b = 1 := by
        rw [heldBy_eq hx, hacl]
        exact if_pos rfl
      have hfreed : ¬ s.BeingFreed b := (h.live x b (by omega)).2
      have hdel := h.cacheDelete hb (hone ▸ (by decide : 1 < refcountMax)) (ops.hash buf.body)
      have hx' : (s.cacheDelete (ops.hash buf.body) b).calls x = .set upd := hx
      split
      case h_1 => exact hdel.next hx' rfl rfl rfl rfl (fun _ => rfl) trivial
      case h_2 base _ =>
        refine hdel.setBuf ?_ ?_ hfreed (fun b' _ => (heldBy_eq hx b').symm) ?_ ?_
          (hx' ▸ Call.ne_freeing rfl) (Call.ne_freeing rfl) (Call.ne_create rfl)
          (hdel.not_reading (hx' ▸ rfl)) trivial
        · exact congrArg₂ (· + ·) (h.count b buf hb hfreed) (heldBy_eq hx b)
        · exact h.max b buf hb
        · intro e he heb
          exact absurd heb (h.deleted hb e he)
        · -- an insert of the block would be made by another holder
          intro y p hp hpb
          have hold : s.Inserting y p := hp
          have hy := h.held_of_inserting hold
          rw [hpb] at hy
          obtain ⟨-, hothers⟩ := h.sole hb hone hfreed (x := x) (by omega)
          by_cases hyx : y = x
          · subst hyx
            obtain hp | hp := hold
            · exact absurd hp (h.not_reading (hx ▸ rfl) p)
            · rw [hx] at hp
              cases hp
          · rw [hothers y hyx] at hy
            omega

theorem Inv.cloneSection (h : Inv ops s) (hx : s.calls x = .clone upd)
    (hs : cloneSection x upd s = some s') : Inv ops s' := by
  obtain ⟨b, -, hs⟩ := bind_eq_some_iff.mp hs
  obtain ⟨buf, -, rfl⟩ := map_eq_some_iff.mp hs
  split
  · exact h.next hx rfl rfl rfl rfl (fun _ => rfl) trivial
  · exact h.next hx rfl rfl rfl rfl (fun _ => rfl) trivial

theorem Inv.reuseSection (h : Inv ops s) (hx : s.calls x = .reuse base inPlace ce)
    (hs : reuseSection x base inPlace ce s = some s') : Inv ops s' := by
  unfold Shared.reuseSection at hs
  have hok := h.calls x
  rw [hx] at hok
  obtain ⟨⟨-, hblock⟩, hacl⟩ := hok
  split at hs
  case h_1 =>
    cases hs
    exact h.next hx rfl rfl rfl rfl (fun _ => rfl) trivial
  case h_2 e hfind =>
    have he := List.mem_of_find?_eq_some hfind
    have hid : e.id = ce.id := by
      have hsome := List.find?_some hfind
      rw [decide_eq_true_iff] at hsome
      exact hsome
    split at hs
    case isTrue =>
      cases hs
      exact h.next hx rfl rfl rfl rfl (fun _ => rfl) trivial
    case isFalse hreuse =>
      obtain ⟨buf, hb, rfl⟩ := map_eq_some_iff.mp hs
      obtain ⟨buf', hb', hfreed, hhash, hlt⟩ := h.cached e he
      have heb : e.block = ce.block := hblock e he hid
      rw [heb] at hb' hfreed
      rw [hb] at hb'
      cases hb'
      have hroom := hlt (Bool.not_eq_false _ ▸ hreuse)
      have hcount := h.count ce.block buf hb hfreed
      have hown : s.heldBy x ce.block = 0 := (heldBy_eq hx _).trans (if_neg hacl)
      have hnew : (Call.update (some ce.block) : Call κ).held (s.acl x) ce.block = 1 := by
        simp [Call.held, hacl]
      have hother : ∀ b', b' ≠ ce.block →
          (Call.update (some ce.block) : Call κ).held (s.acl x) b' = s.heldBy x b' := by
        intro b' hb'
        rw [heldBy_eq hx]
        simp [Call.held, Ne.symm hb']
      have hadd : buf.refcount + 1 + s.heldBy x ce.block =
          s.refs ce.block + (Call.update (some ce.block) : Call κ).held (s.acl x) ce.block := by
        rw [hown, hnew, ← hcount]
      dsimp only
      split
      case isTrue hfull =>
        refine (h.cacheFull ce.id).setBuf ?_ hroom hfreed hother ?_ ?_ (hx ▸ Call.ne_freeing rfl)
          (Call.ne_freeing rfl) (Call.ne_create rfl) (h.not_reading (hx ▸ rfl)) trivial
        · exact hadd
        · intro e' he' heb'
          obtain ⟨g, hg, rfl⟩ := List.mem_map.mp he'
          have hgb : g.block = ce.block := by
            split at heb' <;> exact heb'
          have hge : g = e := h.unique g hg e he (hgb.trans heb.symm)
          subst hge
          rw [if_pos hid]
          exact ⟨hhash, fun hr => by cases hr⟩
        · intro y p hp hpb
          obtain ⟨buf', hb', hhash', -⟩ := h.pending y p hp
          rw [hpb, hb] at hb'
          cases hb'
          refine ⟨hhash', fun _ => .inr ⟨_, List.mem_map_of_mem he, ?_⟩⟩
          rw [if_pos hid]
          exact heb.trans hpb.symm
      case isFalse hfull =>
        have hlt' : buf.refcount + 1 < refcountMax := Nat.lt_of_not_le hfull
        refine h.setBuf hadd hlt'.le hfreed hother ?_ ?_ (hx ▸ Call.ne_freeing rfl)
          (Call.ne_freeing rfl) (Call.ne_create rfl) (h.not_reading (hx ▸ rfl)) trivial
        · intro e' he' heb'
          have hee : e' = e := h.unique e' he' e he (heb'.trans heb.symm)
          subst hee
          exact ⟨hhash, fun _ => hlt'⟩
        · intro y p hp hpb
          obtain ⟨buf', hb', hhash', -⟩ := h.pending y p hp
          rw [hpb, hb] at hb'
          cases hb'
          exact ⟨hhash', fun _ => .inl hlt'⟩

theorem Inv.updateSection (h : Inv ops s) {new : Option ℕ} (hx : s.calls x = .update new) :
    Inv ops (updateSection x new s) := by
  have hmove : ∀ {c : Call κ} {a : Option ℕ}, c.isFreeing = false → c.isCreate = false →
      (∀ b, c.held a b = (Call.update new : Call κ).held (s.acl x) b) →
      CallOk s.cache s.nextId a c → Inv ops ((s.setAcl x a).setCall x c) :=
    fun hto hcreate hheld hok =>
      h.move (fun b => (hheld b).trans (heldBy_eq hx b).symm) (hx ▸ Call.ne_freeing rfl)
        (Call.ne_freeing hto) (h.not_reading (hx ▸ rfl)) hok
        fun p hp => absurd hp (Call.ne_create hcreate p)
  unfold Shared.updateSection
  split
  case h_1 hacl =>
    refine hmove rfl rfl (fun b => ?_) trivial
    rw [hacl]
    cases new with
    | none => simp [Call.held]
    | some => simp [Call.held]
  case h_2 old hacl =>
    split
    case isTrue hsame =>
      refine hmove rfl rfl (fun b => ?_) trivial
      rw [hacl, hsame]
      by_cases hb : old = b
      · simp [Call.held, hb]
      · simp [Call.held, hb]
    case isFalse hdiff =>
      refine hmove rfl rfl (fun b => ?_) trivial
      rw [hacl]
      cases new with
      | none => simp [Call.held]
      | some n =>
        have hne : n ≠ old := fun hn => hdiff (congrArg some hn)
        by_cases hn : n = b
        · subst hn
          simp [Call.held, Ne.symm hne]
        · simp [Call.held, hn]

theorem Inv.releaseSection (h : Inv ops s) (hx : s.calls x = .release b deleting)
    (hs : releaseSection ops x b deleting s = some s') : Inv ops s' := by
  obtain ⟨buf, hb, rfl⟩ := map_eq_some_iff.mp hs
  have hok := h.calls x
  rw [hx] at hok
  -- what the inode holds without this reference
  have hheld : ∀ b', (Call.freeing b deleting : Call κ).held (s.acl x) b' +
      (if b' = b then 1 else 0) = s.heldBy x b' := by
    intro b'
    rw [heldBy_eq hx]
    cases deleting with
    | true =>
      have hacl : s.acl x = some b := hok
      rw [hacl]
      simp [Call.held, eq_comm]
    | false => simp [Call.held, eq_comm]
  have hown := hheld b
  rw [if_pos rfl] at hown
  have hfreed : ¬ s.BeingFreed b := (h.live x b (by omega)).2
  have hcount := h.count b buf hb hfreed
  have hmax := h.max b buf hb
  split
  case isTrue hone =>
    have hdel := h.cacheDelete hb (hone ▸ (by decide : 1 < refcountMax)) (ops.hash buf.body)
    exact hdel.toFreeing hb hone hfreed hheld (h.deleted hb) (hx ▸ Call.ne_freeing rfl)
      (h.not_reading (hx ▸ rfl))
  case isFalse hmore =>
    have hle : s.heldBy x b ≤ s.refs b :=
      Finset.single_le_sum (fun z _ => Nat.zero_le (s.heldBy z b)) (Finset.mem_univ x)
    have hlt : buf.refcount - 1 < refcountMax := by
      omega
    have hafter : ∀ b', (if deleting = true then Call.clear else .idle : Call κ).held (s.acl x) b' =
        (Call.freeing b deleting : Call κ).held (s.acl x) b' := by
      intro b'
      cases deleting <;> rfl
    have hset : Inv ops (released x deleting
        (s.setBuf b (some { buf with refcount := buf.refcount - 1 }))) := by
      refine h.setBuf ?_ hlt.le hfreed ?_ ?_ ?_ (hx ▸ Call.ne_freeing rfl) ?_ ?_
        (h.not_reading (hx ▸ rfl)) ?_
      · rw [hafter b]
        dsimp only
        omega
      · intro b' hb'
        have hsame := hheld b'
        rw [if_neg hb'] at hsame
        rw [hafter b']
        exact hsame
      · intro e he heb
        obtain ⟨buf', hb', -, hhash, -⟩ := h.cached e he
        rw [heb, hb] at hb'
        cases hb'
        exact ⟨hhash, fun _ => hlt⟩
      · intro y p hp hpb
        obtain ⟨buf', hb', hhash, -⟩ := h.pending y p hp
        rw [hpb, hb] at hb'
        cases hb'
        exact ⟨hhash, fun _ => .inl hlt⟩
      · cases deleting with
        | true => exact Call.ne_freeing rfl
        | false => exact Call.ne_freeing rfl
      · cases deleting with
        | true => exact Call.ne_create rfl
        | false => exact Call.ne_create rfl
      · cases deleting with
        | true => trivial
        | false => trivial
    dsimp only
    split
    case isTrue =>
      exact hset.cacheReusable (Function.update_self _ _ _) hlt (ops.hash buf.body)
    case isFalse => exact hset

theorem Inv.runSection (h : Inv ops s) (hs : runSection ops x s = some s') : Inv ops s' := by
  unfold Shared.runSection at hs
  split at hs
  case h_1 upd hx => exact h.setSection hx hs
  case h_2 upd hx => exact h.cloneSection hx hs
  case h_3 base inPlace hx =>
    split at hs
    · cases hs
      exact h.next hx rfl rfl rfl rfl (fun _ => rfl) trivial
    · cases hs
  case h_4 base inPlace ce hx => exact h.reuseSection hx hs
  case h_5 b hx =>
    obtain ⟨buf, hb, rfl⟩ := map_eq_some_iff.mp hs
    refine h.setCall (fun b' => (heldBy_eq hx b').symm) (hx ▸ Call.ne_freeing rfl)
      (Call.ne_freeing rfl) (h.not_reading (hx ▸ rfl)) trivial fun p hp => ?_
    cases hp
    refine ⟨buf, hb, rfl, fun hr => .inl ?_⟩
    exact of_decide_eq_true hr
  case h_6 p hx =>
    cases hs
    have hins : s.Inserting x p := .inr hx
    have hcreate := h.cacheCreate (h.pending x p hins) (h.live x _ (h.held_of_inserting hins))
    have hx' : (s.cacheCreate p).calls x = .create p := by
      unfold State.cacheCreate
      split <;> exact hx
    exact hcreate.next hx' rfl rfl rfl rfl (fun _ => rfl) trivial
  case h_7 new hx =>
    cases hs
    exact h.updateSection hx
  case h_8 b deleting hx => exact h.releaseSection hx hs
  case h_9 b deleting hx =>
    cases hs
    cases deleting with
    | true | false =>
      exact h.free hx (fun b' => (heldBy_eq hx b').symm) (Call.ne_freeing rfl)
        (Call.ne_create rfl) trivial
  case h_10 hx =>
    cases hs
    exact h.move (fun b' => (heldBy_eq hx b').symm) (hx ▸ Call.ne_freeing rfl)
      (Call.ne_freeing rfl) (h.not_reading (hx ▸ rfl)) trivial
      fun p hp => absurd hp (Call.ne_create rfl p)
  case h_11 => cases hs

theorem Inv.findSection (h : Inv ops s) {id : Option ℕ} (hs : findSection ops x id s = some s') :
    Inv ops s' := by
  unfold Shared.findSection at hs
  split at hs
  case h_2 => cases hs
  case h_1 base inPlace hx =>
    split at hs
    case isTrue => cases hs
    case isFalse =>
      split at hs
      case h_1 id =>
        obtain ⟨e, hfind, hs⟩ := bind_eq_some_iff.mp hs
        have he := List.mem_of_find?_eq_some hfind
        split at hs
        · cases hs
          refine h.next hx rfl rfl rfl rfl (fun _ => rfl) ⟨h.ids e he, fun e' he' hid => ?_⟩
          rw [h.distinct e' he' e he hid]
        · cases hs
      case h_2 =>
        split at hs
        · obtain ⟨b, hacl, rfl⟩ := map_eq_some_iff.mp hs
          refine h.next hx rfl rfl rfl rfl (fun b' => ?_) trivial
          rw [hacl]
          by_cases hb : b = b'
          · simp [Call.held, hb]
          · simp [Call.held, hb]
        · cases hs
          exact h.next hx rfl rfl rfl rfl (fun _ => rfl) trivial

theorem Inv.compareSection (h : Inv ops s) {equal : Bool}
    (hs : compareSection ops x equal s = some s') : Inv ops s' := by
  unfold Shared.compareSection at hs
  split at hs
  case h_2 => cases hs
  case h_1 base inPlace ce hx =>
    have hok := h.calls x
    rw [hx] at hok
    split at hs
    · cases hs
    split at hs
    · cases hs
      exact h.next hx rfl rfl rfl rfl (fun _ => rfl) trivial
    split at hs
    case isTrue hacl =>
      cases hs
      refine h.next hx rfl rfl rfl rfl (fun b' => ?_) trivial
      rw [hacl]
      by_cases hb : ce.block = b'
      · simp [Call.held, hb]
      · simp [Call.held, hb]
    case isFalse hacl =>
      cases hs
      exact h.next hx rfl rfl rfl rfl (fun _ => rfl) ⟨hok, hacl⟩

theorem Inv.allocateSection (h : Inv ops s) (hs : allocateSection x b s = some s') :
    Inv ops s' := by
  unfold Shared.allocateSection at hs
  split at hs
  case h_2 => cases hs
  case h_1 base hx =>
    split at hs
    case isTrue => cases hs
    case isFalse hnone =>
      cases hs
      have hb : s.bufs b = none := by
        rw [Bool.not_eq_true, isSome_eq_false_iff, isNone_iff_eq_none] at hnone
        exact hnone
      have hnobuf : ∀ buf, s.bufs b ≠ some buf := by
        intro buf hbuf
        rw [hb] at hbuf
        cases hbuf
      have hzero : ∀ y, s.heldBy y b = 0 := by
        intro y
        by_contra hpos
        obtain ⟨⟨buf, hbuf⟩, -⟩ := h.live y b (Nat.pos_of_ne_zero hpos)
        exact hnobuf buf hbuf
      have hacl : s.acl x ≠ some b := by
        intro hacl
        have hx0 := hzero x
        rw [heldBy_eq hx, hacl] at hx0
        simp [Call.held] at hx0
      refine h.setBuf ?_ (by decide : 1 ≤ refcountMax) ?_ ?_ ?_ ?_ (hx ▸ Call.ne_freeing rfl)
        (Call.ne_freeing rfl) (Call.ne_create rfl) (h.not_reading (hx ▸ rfl)) trivial
      · have hrefs : s.refs b = 0 := Finset.sum_eq_zero fun y _ => hzero y
        have hnew : (Call.insert b : Call κ).held (s.acl x) b = 1 := by simp [Call.held, hacl]
        rw [hzero x, hrefs, hnew]
      · rintro ⟨y, d, hy⟩
        obtain ⟨⟨buf, hbuf, -⟩, -⟩ := h.freeing y b d hy
        exact hnobuf buf hbuf
      · intro b' hb'
        rw [heldBy_eq hx]
        simp [Call.held, Ne.symm hb']
      · intro e he heb
        obtain ⟨buf, hbuf, -⟩ := h.cached e he
        exact absurd (heb ▸ hbuf) (hnobuf buf)
      · intro y p hp hpb
        obtain ⟨buf, hbuf, -⟩ := h.pending y p hp
        exact absurd (hpb ▸ hbuf) (hnobuf buf)

end VMsep.Ext4.Shared
