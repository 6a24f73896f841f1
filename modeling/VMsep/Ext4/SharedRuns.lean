import VMsep.Ext4.SharedSections

/-! The counts are exact in every interleaving, shared blocks are not changed, and no inode gets a
block that is being freed. -/

namespace VMsep.Ext4.Shared

open VMsep.Lib Function Option

variable {ι κ : Type*} [DecidableEq ι] [Fintype ι]
variable {ops : Entries κ} {s s' : State ι κ} {x y : ι} {b : ℕ} {buf : Buf κ} {c : Call κ}

omit [Fintype ι] in
theorem unlocked_iff : s.unlocked x = true ↔ s.calls x = .idle ∧ ∀ p, (x, p) ∉ s.readers := by
  unfold State.unlocked
  rw [Bool.and_eq_true, isIdle_iff, List.all_eq_true]
  refine and_congr_right fun _ => ⟨fun hall p hp => ?_, fun hnone r hr => ?_⟩
  · exact of_decide_eq_true (hall (x, p) hp) rfl
  rw [decide_eq_true_iff]
  rintro rfl
  exact hnone r.2 hr

theorem Inv.begin (h : Inv ops s) (hun : s.unlocked x = true) (hto : c.isFreeing = false)
    (hcreate : c.isCreate = false)
    (hheld : ∀ b, c.held (s.acl x) b = if s.acl x = some b then 1 else 0)
    (hok : CallOk s.cache s.nextId (s.acl x) c) : Inv ops (s.setCall x c) := by
  obtain ⟨hx, hread⟩ := unlocked_iff.mp hun
  exact h.setCall (fun b => (hheld b).trans (heldBy_eq hx b).symm) (hx ▸ Call.ne_freeing rfl)
    (Call.ne_freeing hto) hread hok fun p hp => absurd hp (Call.ne_create hcreate p)

/-- Every section of every thread keeps the reference counts. -/
theorem Inv.step (h : Inv ops s) {a : Action ι κ} (hs : step ops s a = some s') : Inv ops s' := by
  cases a with
  | beginSet =>
    rw [Shared.step] at hs
    split at hs
    case isTrue hun =>
      cases hs
      exact h.begin hun rfl rfl (fun _ => rfl) trivial
    case isFalse => cases hs
  | beginDelete =>
    rw [Shared.step] at hs
    split at hs
    case isTrue hun =>
      obtain ⟨b, hacl, rfl⟩ := map_eq_some_iff.mp hs
      exact h.begin hun rfl rfl (fun _ => rfl) hacl
    case isFalse => cases hs
  | run => exact h.runSection hs
  | find => exact h.findSection hs
  | compare => exact h.compareSection hs
  | allocate => exact h.allocateSection hs
  | read =>
    rw [Shared.step] at hs
    split at hs
    case isFalse => cases hs
    case isTrue hidle =>
      obtain ⟨b, hacl, hs⟩ := bind_eq_some_iff.mp hs
      obtain ⟨buf, hb, rfl⟩ := map_eq_some_iff.mp hs
      refine ⟨h.count, h.max, h.live, h.freeing, h.cached, h.unique, h.distinct, h.ids, ?_, ?_,
        h.calls⟩
      · rintro y p (hp | hp)
        · obtain hp | hp := List.mem_cons.mp hp
          · cases hp
            exact ⟨buf, hb, rfl, fun hr => .inl (of_decide_eq_true hr)⟩
          · exact h.pending y p (.inl hp)
        · exact h.pending y p (.inr hp)
      · intro y p hp
        obtain hp | hp := List.mem_cons.mp hp
        · cases hp
          exact ⟨hidle, hacl⟩
        · exact h.readers y p hp
  | readerCreate x p =>
    rw [Shared.step] at hs
    split at hs
    case isFalse => cases hs
    case isTrue hp =>
      cases hs
      have hins : s.Inserting x p := .inl hp
      have herase : Inv ops { s with readers := s.readers.erase (x, p) } := by
        refine ⟨h.count, h.max, h.live, h.freeing, h.cached, h.unique, h.distinct, h.ids, ?_,
          fun y q hq => h.readers y q (List.mem_of_mem_erase hq), h.calls⟩
        rintro y q (hq | hq)
        · exact h.pending y q (.inl (List.mem_of_mem_erase hq))
        · exact h.pending y q (.inr hq)
      exact herase.cacheCreate (h.pending x p hins) (h.live x _ (h.held_of_inserting hins))

omit [Fintype ι] in
theorem runSection_body (hs : runSection ops x s = some s') (hb : s.bufs b = some buf) :
    (∃ buf', s'.bufs b = some buf' ∧ buf'.body = buf.body) ∨ buf.refcount = 1 ∨
      ∃ d, s.calls x = .freeing b d := by
  have hcount : ∀ {b' r : ℕ} {buf₀ : Buf κ}, s.bufs b' = some buf₀ →
      ∃ buf', update s.bufs b' (some { buf₀ with refcount := r }) b = some buf' ∧
        buf'.body = buf.body := by
    intro b' r buf₀ hbuf₀
    rw [update_apply]
    split
    case isTrue heq =>
      subst heq
      rw [hb] at hbuf₀
      cases hbuf₀
      exact ⟨_, rfl, rfl⟩
    case isFalse => exact ⟨buf, hb, rfl⟩
  unfold runSection at hs
  split at hs
  case h_1 upd hx =>
    unfold setSection at hs
    split at hs
    · split at hs <;> cases hs <;> exact .inl ⟨buf, hb, rfl⟩
    obtain ⟨buf₀, hbuf₀, rfl⟩ := map_eq_some_iff.mp hs
    split
    case isFalse => exact .inl ⟨buf, hb, rfl⟩
    case isTrue hone =>
      split
      · exact .inl ⟨buf, hb, rfl⟩
      rename_i b' _ _ base _
      by_cases hbb : b' = b
      · subst hbb
        rw [hb] at hbuf₀
        cases hbuf₀
        exact .inr (.inl hone)
      · exact .inl ⟨buf, (update_of_ne (Ne.symm hbb) _ _).trans hb, rfl⟩
  case h_2 upd hx =>
    obtain ⟨b', -, hs⟩ := bind_eq_some_iff.mp hs
    obtain ⟨buf₀, -, rfl⟩ := map_eq_some_iff.mp hs
    split <;> exact .inl ⟨buf, hb, rfl⟩
  case h_3 =>
    split at hs
    · cases hs
      exact .inl ⟨buf, hb, rfl⟩
    · cases hs
  case h_4 base inPlace ce hx =>
    unfold reuseSection at hs
    split at hs
    · cases hs
      exact .inl ⟨buf, hb, rfl⟩
    split at hs
    · cases hs
      exact .inl ⟨buf, hb, rfl⟩
    obtain ⟨buf₀, hbuf₀, rfl⟩ := map_eq_some_iff.mp hs
    dsimp only
    split <;> exact .inl (hcount hbuf₀)
  case h_5 =>
    obtain ⟨buf₀, -, rfl⟩ := map_eq_some_iff.mp hs
    exact .inl ⟨buf, hb, rfl⟩
  case h_6 p hx =>
    cases hs
    have hbufs : (s.cacheCreate p).bufs = s.bufs := by
      unfold State.cacheCreate
      split <;> rfl
    exact .inl ⟨buf, (congrFun hbufs b).trans hb, rfl⟩
  case h_7 new hx =>
    cases hs
    unfold updateSection
    split
    · exact .inl ⟨buf, hb, rfl⟩
    · split <;> exact .inl ⟨buf, hb, rfl⟩
  case h_8 b' deleting hx =>
    obtain ⟨buf₀, hbuf₀, rfl⟩ := map_eq_some_iff.mp hs
    split
    · exact .inl ⟨buf, hb, rfl⟩
    · dsimp only
      split <;> exact .inl (hcount hbuf₀)
  case h_9 b' deleting hx =>
    cases hs
    by_cases hbb : b' = b
    · exact .inr (.inr ⟨deleting, hbb ▸ hx⟩)
    · exact .inl ⟨buf, (update_of_ne (Ne.symm hbb) _ _).trans hb, rfl⟩
  case h_10 =>
    cases hs
    exact .inl ⟨buf, hb, rfl⟩
  case h_11 => cases hs

omit [Fintype ι] in
theorem acl_self {a : Option ℕ} : ((s.setAcl x a).setCall x c).acl x = a :=
  update_self _ _ _

omit [Fintype ι] in
theorem runSection_acl (hs : runSection ops x s = some s') (hacl : s'.acl y = some b) :
    s.acl y = some b ∨ 0 < s'.heldBy y b := by
  unfold runSection at hs
  split at hs
  case h_1 upd hx =>
    unfold setSection at hs
    split at hs
    · split at hs <;> cases hs <;> exact .inl hacl
    obtain ⟨buf, -, rfl⟩ := map_eq_some_iff.mp hs
    split at hacl
    · dsimp only at hacl
      split at hacl <;> exact .inl hacl
    · exact .inl hacl
  case h_2 upd hx =>
    obtain ⟨b', -, hs⟩ := bind_eq_some_iff.mp hs
    obtain ⟨buf, -, rfl⟩ := map_eq_some_iff.mp hs
    split at hacl <;> exact .inl hacl
  case h_3 =>
    split at hs
    · cases hs
      exact .inl hacl
    · cases hs
  case h_4 base inPlace ce hx =>
    unfold reuseSection at hs
    split at hs
    · cases hs
      exact .inl hacl
    split at hs
    · cases hs
      exact .inl hacl
    obtain ⟨buf, -, rfl⟩ := map_eq_some_iff.mp hs
    dsimp only at hacl
    split at hacl <;> exact .inl hacl
  case h_5 =>
    obtain ⟨buf, -, rfl⟩ := map_eq_some_iff.mp hs
    exact .inl hacl
  case h_6 p hx =>
    cases hs
    have hsame : (s.cacheCreate p).acl = s.acl := by
      unfold State.cacheCreate
      split <;> rfl
    exact .inl ((congrFun hsame y).symm.trans hacl)
  case h_7 new hx =>
    cases hs
    by_cases hyx : y = x
    · subst hyx
      right
      unfold updateSection at hacl ⊢
      split at hacl
      case h_1 =>
        rw [heldBy_self]
        have hnew : new = some b := acl_self.symm.trans hacl
        rw [hnew]
        simp [Call.held]
      case h_2 old _ =>
        split at hacl
        case isTrue hsame =>
          have hnew : new = some b := acl_self.symm.trans hacl
          rw [if_pos hsame, heldBy_self, hnew]
          simp [Call.held]
        case isFalse hdiff =>
          have hnew : new = some b := acl_self.symm.trans hacl
          rw [if_neg hdiff, heldBy_self, hnew]
          simp [Call.held]
    · left
      have hsame : (updateSection x new s).acl y = s.acl y := by
        unfold updateSection
        split
        · exact update_of_ne hyx _ _
        · split <;> exact update_of_ne hyx _ _
      exact hsame.symm.trans hacl
  case h_8 b' deleting hx =>
    obtain ⟨buf, -, rfl⟩ := map_eq_some_iff.mp hs
    split at hacl
    · exact .inl hacl
    · dsimp only at hacl
      split at hacl <;> exact .inl hacl
  case h_9 b' deleting hx =>
    cases hs
    exact .inl hacl
  case h_10 =>
    cases hs
    by_cases hyx : y = x
    · subst hyx
      have hnone : (none : Option ℕ) = some b := acl_self.symm.trans hacl
      cases hnone
    · exact .inl ((update_of_ne hyx _ _).symm.trans hacl)
  case h_11 => cases hs

omit [Fintype ι] in
/-- The other steps write a block only that was free, and no `i_file_acl`. -/
theorem step_frame {a : Action ι κ} (hs : step ops s a = some s') (hrun : ∀ x, a ≠ .run x) :
    (∀ b buf, s.bufs b = some buf → s'.bufs b = some buf) ∧ s'.acl = s.acl := by
  cases a with
  | beginSet =>
    rw [step] at hs
    split at hs <;> cases hs
    exact ⟨fun _ _ hb => hb, rfl⟩
  | beginDelete =>
    rw [step] at hs
    split at hs
    · obtain ⟨b, -, rfl⟩ := map_eq_some_iff.mp hs
      exact ⟨fun _ _ hb => hb, rfl⟩
    · cases hs
  | run x => exact absurd rfl (hrun x)
  | find =>
    rw [step] at hs
    unfold findSection at hs
    split at hs
    case h_2 => cases hs
    case h_1 =>
      split at hs
      · cases hs
      split at hs
      · obtain ⟨e, -, hs⟩ := bind_eq_some_iff.mp hs
        split at hs <;> cases hs
        exact ⟨fun _ _ hb => hb, rfl⟩
      · split at hs
        · obtain ⟨b, -, rfl⟩ := map_eq_some_iff.mp hs
          exact ⟨fun _ _ hb => hb, rfl⟩
        · cases hs
          exact ⟨fun _ _ hb => hb, rfl⟩
  | compare =>
    rw [step] at hs
    unfold compareSection at hs
    split at hs
    case h_2 => cases hs
    case h_1 =>
      split at hs
      · cases hs
      split at hs
      · cases hs
        exact ⟨fun _ _ hb => hb, rfl⟩
      · split at hs <;> cases hs <;> exact ⟨fun _ _ hb => hb, rfl⟩
  | allocate _ b =>
    rw [step] at hs
    unfold allocateSection at hs
    split at hs
    case h_2 => cases hs
    case h_1 =>
      split at hs
      case isTrue => cases hs
      case isFalse hnone =>
        cases hs
        refine ⟨fun b' buf hb => ?_, rfl⟩
        have hbb : b' ≠ b := by
          rintro rfl
          rw [hb] at hnone
          exact hnone rfl
        exact (update_of_ne hbb _ _).trans hb
  | read =>
    rw [step] at hs
    split at hs
    · obtain ⟨b, -, hs⟩ := bind_eq_some_iff.mp hs
      obtain ⟨buf, -, rfl⟩ := map_eq_some_iff.mp hs
      exact ⟨fun _ _ hb => hb, rfl⟩
    · cases hs
  | readerCreate =>
    rw [step] at hs
    split at hs <;> cases hs
    unfold State.cacheCreate
    split <;> exact ⟨fun _ _ hb => hb, rfl⟩

def State.Settled (s : State ι κ) : Prop := ∀ x, (s.calls x).between = false

structure Start (s : State ι κ) : Prop where
  idle : ∀ x, s.calls x = .idle
  readers : s.readers = []
  cache : s.cache = []
  count : ∀ b buf, s.bufs b = some buf →
    buf.refcount = (Finset.univ.filter fun x => s.acl x = some b).card ∧
      buf.refcount ≤ refcountMax
  live : ∀ x b, s.acl x = some b → ∃ buf, s.bufs b = some buf

omit [DecidableEq ι] in
theorem refs_of_settled (h : s.Settled) (b : ℕ) :
    s.refs b = (Finset.univ.filter fun x => s.acl x = some b).card := by
  rw [Finset.card_filter]
  refine Finset.sum_congr rfl fun x _ => ?_
  have hx := h x
  unfold State.heldBy
  cases hc : s.calls x with
  | idle => rfl
  | set => rfl
  | release _ deleting =>
    cases deleting with
    | true => rfl
    | false =>
      rw [hc] at hx
      cases hx
  | _ =>
    rw [hc] at hx
    cases hx

omit [DecidableEq ι] in
theorem inv_of_start (h : Start s) : Inv ops s := by
  have hnot : ∀ b, ¬ s.BeingFreed b := by
    rintro b ⟨x, d, hx⟩
    rw [h.idle x] at hx
    cases hx
  have hsettled : s.Settled := by
    intro x
    rw [h.idle x]
    rfl
  refine ⟨?_, fun b buf hb => (h.count b buf hb).2, ?_, ?_, ?_, ?_, ?_, ?_, ?_, ?_, ?_⟩
  · intro b buf hb _
    rw [refs_of_settled hsettled, (h.count b buf hb).1]
  · intro x b hx
    rw [heldBy_eq (h.idle x)] at hx
    have hacl : s.acl x = some b := by
      by_contra hacl
      have hzero : (Call.idle : Call κ).held (s.acl x) b = 0 := if_neg hacl
      omega
    exact ⟨h.live x b hacl, hnot b⟩
  · intro x b d hx
    exact absurd ⟨x, d, hx⟩ (hnot b)
  · rw [h.cache]
    exact List.forall_mem_nil _
  · rw [h.cache]
    exact List.forall_mem_nil _
  · rw [h.cache]
    exact List.forall_mem_nil _
  · rw [h.cache]
    exact List.forall_mem_nil _
  · rintro x p (hp | hp)
    · rw [h.readers] at hp
      cases hp
    · rw [h.idle x] at hp
      cases hp
  · intro x p hp
    rw [h.readers] at hp
    cases hp
  · intro x
    rw [h.idle x]
    trivial

/-- In every state of every interleaving, settled counts are exact and never too large; and no step
changes the entries of a shared block or makes an inode refer to a block that is being freed. -/
theorem shared_exact (ops : Entries κ) (s₀ s : State ι κ) (h : Start s₀)
    (as : List (Action ι κ)) (hrun : exec (step ops) s₀ as = some s) :
    (∀ b buf, s.bufs b = some buf → buf.refcount ≤ refcountMax) ∧
      (s.Settled → ∀ b buf, s.bufs b = some buf →
        buf.refcount = (Finset.univ.filter fun x => s.acl x = some b).card) ∧
      ∀ a s', step ops s a = some s' →
        (∀ b buf, s.bufs b = some buf → 1 < buf.refcount →
          ∃ buf', s'.bufs b = some buf' ∧ buf'.body = buf.body) ∧
        ∀ x b, s'.acl x = some b → s.acl x ≠ some b → s'.Live b := by
  have hinv : Inv ops s :=
    exec_invariant_all (fun _ _ _ hi hs => Inv.step hi hs) as (inv_of_start h) hrun
  refine ⟨hinv.max, fun hsettled b buf hb => ?_, fun a s' hs => ⟨?_, ?_⟩⟩
  · rw [← refs_of_settled hsettled]
    refine hinv.count b buf hb ?_
    rintro ⟨x, d, hx⟩
    have hbetween := hsettled x
    rw [hx] at hbetween
    cases hbetween
  · intro b buf hb hshared
    by_cases hisrun : ∃ x, a = .run x
    · obtain ⟨x, rfl⟩ := hisrun
      obtain hsame | hone | ⟨d, hx⟩ := runSection_body hs hb
      · exact hsame
      · omega
      · obtain ⟨⟨buf', hb', hone⟩, -⟩ := hinv.freeing x b d hx
        rw [hb] at hb'
        cases hb'
        omega
    · exact ⟨buf, (step_frame hs fun x hx => hisrun ⟨x, hx⟩).1 b buf hb, rfl⟩
  · intro x b hnew hold
    by_cases hisrun : ∃ y, a = .run y
    · obtain ⟨y, rfl⟩ := hisrun
      obtain hsame | hheld := runSection_acl hs hnew
      · exact absurd hsame hold
      · exact (hinv.step hs).live x b hheld
    · rw [(step_frame hs fun y hy => hisrun ⟨y, hy⟩).2] at hnew
      exact absurd hnew hold

def listEntries : Entries (List ℕ) where
  hash := fun l => l.sum
  isLast := List.isEmpty
  cmp := fun l l' => l = l'
  blank := []

def emptyState : State (Fin 2) (List ℕ) where
  bufs := fun _ => none
  acl := fun _ => none
  calls := fun _ => .idle
  readers := []
  cache := []
  nextId := 0

/-- Both inodes get an attribute; the second one shares the block of the first and is deleted while
a reader of the first puts an entry into the cache. -/
def sharingRun : List (Action (Fin 2) (List ℕ)) :=
  [.beginSet 0 fun l => some (7 :: l), .beginSet 1 fun l => some (7 :: l), .run 0, .run 1,
    .find 0 none, .allocate 0 5, .run 0, .run 0, .find 1 (some 0), .compare 1 true, .run 1, .run 0,
    .run 1, .read 0, .beginDelete 1, .run 1, .readerCreate 0 ⟨5, 7, true⟩, .run 1]

theorem start_emptyState : Start emptyState where
  idle := fun _ => rfl
  readers := rfl
  cache := rfl
  count := fun _ _ hb => by cases hb
  live := fun _ _ hx => by cases hx

theorem shared_exact_sharingRun :
    Start emptyState ∧ ∃ s, exec (step listEntries) emptyState sharingRun = some s ∧
      (∀ b buf, s.bufs b = some buf → buf.refcount ≤ refcountMax) ∧
      (s.Settled → ∀ b buf, s.bufs b = some buf →
        buf.refcount = (Finset.univ.filter fun x => s.acl x = some b).card) ∧
      ∀ a s', step listEntries s a = some s' →
        (∀ b buf, s.bufs b = some buf → 1 < buf.refcount →
          ∃ buf', s'.bufs b = some buf' ∧ buf'.body = buf.body) ∧
        ∀ x b, s'.acl x = some b → s.acl x ≠ some b → s'.Live b := by
  obtain ⟨s, hrun⟩ : ∃ s, exec (step listEntries) emptyState sharingRun = some s :=
    isSome_iff_exists.mp (by decide)
  exact ⟨start_emptyState, s, hrun,
    shared_exact listEntries emptyState s start_emptyState sharingRun hrun⟩

end VMsep.Ext4.Shared
