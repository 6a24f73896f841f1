import VMsep.Ext4.SharedBlocks
import VMsep.Lib.Counting

/-! The reference count of a block is the number of references that the inodes and the calls on them
hold, in every interleaving. Nobody finds a block that is changed in place or freed, because its
entry has left the cache, and only holders of a block put an entry back. -/

namespace VMsep.Ext4.Shared

open VMsep.Lib Function List

variable {ι κ : Type*}

namespace State

def heldBy (s : State ι κ) (x : ι) (b : ℕ) : ℕ := (s.calls x).held (s.acl x) b

def refs [Fintype ι] (s : State ι κ) (b : ℕ) : ℕ := ∑ x, s.heldBy x b

def BeingFreed (s : State ι κ) (b : ℕ) : Prop := ∃ x d, s.calls x = .freeing b d

def Live (s : State ι κ) (b : ℕ) : Prop := (∃ buf, s.bufs b = some buf) ∧ ¬ s.BeingFreed b

def Inserting (s : State ι κ) (x : ι) (p : Insert) : Prop :=
  (x, p) ∈ s.readers ∨ s.calls x = .create p

end State

/-- A call knows the block of the entry that it has found, and the block of a deleted inode. -/
def CallOk (cache : List CacheEntry) (nextId : ℕ) (acl : Option ℕ) : Call κ → Prop
  | .found _ _ ce => ce.id < nextId ∧ ∀ e ∈ cache, e.id = ce.id → e.block = ce.block
  | .reuse _ _ ce =>
    (ce.id < nextId ∧ ∀ e ∈ cache, e.id = ce.id → e.block = ce.block) ∧ acl ≠ some ce.block
  | .release b true => acl = some b
  | _ => True

def CachedOk (ops : Entries κ) (s : State ι κ) (e : CacheEntry) : Prop :=
  ∃ buf, s.bufs e.block = some buf ∧ ¬ s.BeingFreed e.block ∧ e.hash = ops.hash buf.body ∧
    (e.reusable = true → buf.refcount < refcountMax)

def InsertOk (ops : Entries κ) (s : State ι κ) (p : Insert) : Prop :=
  ∃ buf, s.bufs p.block = some buf ∧ p.hash = ops.hash buf.body ∧
    (p.reusable = true → buf.refcount < refcountMax ∨ ∃ e ∈ s.cache, e.block = p.block)

structure Inv [Fintype ι] (ops : Entries κ) (s : State ι κ) : Prop where
  count : ∀ b buf, s.bufs b = some buf → ¬ s.BeingFreed b → buf.refcount = s.refs b
  max : ∀ b buf, s.bufs b = some buf → buf.refcount ≤ refcountMax
  live : ∀ x b, 0 < s.heldBy x b → s.Live b
  freeing : ∀ x b d, s.calls x = .freeing b d →
    (∃ buf, s.bufs b = some buf ∧ buf.refcount = 1) ∧ ∀ y d', s.calls y = .freeing b d' → y = x
  cached : ∀ e ∈ s.cache, CachedOk ops s e
  unique : ∀ e ∈ s.cache, ∀ e' ∈ s.cache, e.block = e'.block → e = e'
  distinct : ∀ e ∈ s.cache, ∀ e' ∈ s.cache, e.id = e'.id → e = e'
  ids : ∀ e ∈ s.cache, e.id < s.nextId
  pending : ∀ x p, s.Inserting x p → InsertOk ops s p
  readers : ∀ x p, (x, p) ∈ s.readers → (s.calls x).isIdle = true ∧ s.acl x = some p.block
  calls : ∀ x, CallOk s.cache s.nextId (s.acl x) (s.calls x)

variable {ops : Entries κ} {s : State ι κ} {x y : ι} {b : ℕ} {buf : Buf κ} {c : Call κ}
  {p : Insert}

theorem isIdle_iff : c.isIdle = true ↔ c = .idle := by
  cases c <;> simp [Call.isIdle]

variable [Fintype ι]

theorem Inv.held_of_inserting (h : Inv ops s) (hp : s.Inserting x p) : 0 < s.heldBy x p.block := by
  unfold State.heldBy
  obtain hread | hcreate := hp
  · obtain ⟨hidle, hacl⟩ := h.readers x p hread
    rw [isIdle_iff.mp hidle, hacl]
    simp [Call.held]
  · rw [hcreate]
    obtain ⟨b, hash, reusable⟩ := p
    by_cases hacl : s.acl x = some b
    · simp [Call.held, hacl]
    · simp [Call.held, hacl]

theorem Inv.not_reading (h : Inv ops s) (hx : (s.calls x).isIdle = false) :
    ∀ p, (x, p) ∉ s.readers := by
  intro p hp
  rw [(h.readers x p hp).1] at hx
  cases hx

theorem Inv.sole (h : Inv ops s) (hb : s.bufs b = some buf) (hone : buf.refcount = 1)
    (hfreed : ¬ s.BeingFreed b) (hx : 0 < s.heldBy x b) :
    s.heldBy x b = 1 ∧ ∀ y, y ≠ x → s.heldBy y b = 0 := by
  classical
  have hsum : 1 = ∑ z, s.heldBy z b := hone.symm.trans (h.count b buf hb hfreed)
  have hle : s.heldBy x b ≤ ∑ z, s.heldBy z b :=
    Finset.single_le_sum (fun z _ => Nat.zero_le (s.heldBy z b)) (Finset.mem_univ x)
  refine ⟨by omega, fun y hy => ?_⟩
  exact @eq_zero_of_sum_le ι _ _ (fun z => s.heldBy z b) x y (by omega) hy

omit [Fintype ι] in
theorem CallOk.cache {cache cache' : List CacheEntry} {nextId nextId' : ℕ} {a : Option ℕ}
    (h : CallOk cache nextId a c) (hle : nextId ≤ nextId')
    (hsub : ∀ e ∈ cache', e.id < nextId → ∃ e' ∈ cache, e'.id = e.id ∧ e'.block = e.block) :
    CallOk cache' nextId' a c := by
  have hce : ∀ {ce : CacheEntry},
      (ce.id < nextId ∧ ∀ e ∈ cache, e.id = ce.id → e.block = ce.block) →
      ce.id < nextId' ∧ ∀ e ∈ cache', e.id = ce.id → e.block = ce.block := by
    rintro ce ⟨hlt, hblock⟩
    refine ⟨hlt.trans_le hle, fun e he hid => ?_⟩
    obtain ⟨e', he', hid', hblock'⟩ := hsub e he (hid ▸ hlt)
    rw [← hblock', hblock e' he' (hid'.trans hid)]
  cases c with
  | found => exact hce h
  | reuse => exact ⟨hce h.1, h.2⟩
  | release _ deleting =>
    cases deleting with
    | true => exact h
    | false => trivial
  | _ => trivial

theorem Inv.cacheDelete (h : Inv ops s) (hb : s.bufs b = some buf)
    (hlt : buf.refcount < refcountMax) (hash : ℕ) : Inv ops (s.cacheDelete hash b) := by
  have hsub : ∀ e ∈ (s.cacheDelete hash b).cache, e ∈ s.cache :=
    fun e he => mem_of_mem_filter he
  refine ⟨h.count, h.max, h.live, h.freeing, fun e he => h.cached e (hsub e he),
    fun e he e' he' => h.unique e (hsub e he) e' (hsub e' he'),
    fun e he e' he' => h.distinct e (hsub e he) e' (hsub e' he'),
    fun e he => h.ids e (hsub e he), ?_, h.readers,
    fun y => (h.calls y).cache (Nat.le_refl _) fun e he _ => ⟨e, hsub e he, rfl, rfl⟩⟩
  intro y p hp
  obtain ⟨buf', hbuf', hhash, hreuse⟩ := h.pending y p hp
  refine ⟨buf', hbuf', hhash, fun hr => ?_⟩
  by_cases hpb : p.block = b
  · rw [hpb, hb] at hbuf'
    cases hbuf'
    exact .inl hlt
  · obtain hlt' | ⟨e, he, hblock⟩ := hreuse hr
    · exact .inl hlt'
    refine .inr ⟨e, mem_filter.mpr ⟨he, ?_⟩, hblock⟩
    rw [decide_eq_true_iff]
    rintro ⟨-, heb⟩
    exact hpb (hblock.symm.trans heb)

theorem Inv.deleted (h : Inv ops s) (hb : s.bufs b = some buf) :
    ∀ e ∈ (s.cacheDelete (ops.hash buf.body) b).cache, e.block ≠ b := by
  intro e he heb
  obtain ⟨hmem, hkeep⟩ := mem_filter.mp he
  obtain ⟨buf', hbuf', -, hhash, -⟩ := h.cached e hmem
  rw [heb, hb] at hbuf'
  cases hbuf'
  rw [decide_eq_true_iff] at hkeep
  exact hkeep ⟨hhash, heb⟩

theorem Inv.mapCache (h : Inv ops s) {f : CacheEntry → CacheEntry}
    (hf : ∀ e, (f e).id = e.id ∧ (f e).block = e.block ∧ (f e).hash = e.hash)
    (hreuse : ∀ e ∈ s.cache, (f e).reusable = true → e.reusable = true ∨
      ∀ buf, s.bufs e.block = some buf → buf.refcount < refcountMax) :
    Inv ops { s with cache := s.cache.map f } := by
  have hmem : ∀ e ∈ s.cache.map f, ∃ e' ∈ s.cache, f e' = e := fun e he => mem_map.mp he
  refine ⟨h.count, h.max, h.live, h.freeing, ?_, ?_, ?_, ?_, ?_, h.readers, ?_⟩
  · intro e he
    obtain ⟨e', he', rfl⟩ := hmem e he
    obtain ⟨buf, hbuf, hnot, hhash, hlt⟩ := h.cached e' he'
    refine ⟨buf, ?_, ?_, ?_, fun hr => ?_⟩
    · rw [(hf e').2.1]
      exact hbuf
    · rw [(hf e').2.1]
      exact hnot
    · rw [(hf e').2.2]
      exact hhash
    · obtain hold | hall := hreuse e' he' hr
      · exact hlt hold
      · exact hall buf hbuf
  · intro e he e' he' hblock
    obtain ⟨g, hg, rfl⟩ := hmem e he
    obtain ⟨g', hg', rfl⟩ := hmem e' he'
    rw [(hf g).2.1, (hf g').2.1] at hblock
    rw [h.unique g hg g' hg' hblock]
  · intro e he e' he' hid
    obtain ⟨g, hg, rfl⟩ := hmem e he
    obtain ⟨g', hg', rfl⟩ := hmem e' he'
    rw [(hf g).1, (hf g').1] at hid
    rw [h.distinct g hg g' hg' hid]
  · intro e he
    obtain ⟨g, hg, rfl⟩ := hmem e he
    rw [(hf g).1]
    exact h.ids g hg
  · intro y p hp
    obtain ⟨buf, hbuf, hhash, hr⟩ := h.pending y p hp
    refine ⟨buf, hbuf, hhash, fun hp => (hr hp).imp_right ?_⟩
    rintro ⟨e, he, hblock⟩
    exact ⟨f e, mem_map_of_mem he, (hf e).2.1.trans hblock⟩
  · intro y
    refine (h.calls y).cache (Nat.le_refl _) fun e he _ => ?_
    obtain ⟨g, hg, rfl⟩ := hmem e he
    exact ⟨g, hg, (hf g).1.symm, (hf g).2.1.symm⟩

theorem Inv.cacheFull (h : Inv ops s) (id : ℕ) : Inv ops (s.cacheFull id) := by
  have hfields : ∀ e : CacheEntry,
      (if e.id = id then { e with reusable := false } else e).id = e.id ∧
        (if e.id = id then { e with reusable := false } else e).block = e.block ∧
        (if e.id = id then { e with reusable := false } else e).hash = e.hash := by
    intro e
    split <;> exact ⟨rfl, rfl, rfl⟩
  refine h.mapCache hfields fun e _ hr => .inl ?_
  split at hr
  · cases hr
  · exact hr

theorem Inv.cacheReusable (h : Inv ops s) (hb : s.bufs b = some buf)
    (hlt : buf.refcount < refcountMax) (hash : ℕ) : Inv ops (s.cacheReusable hash b) := by
  have hfields : ∀ e : CacheEntry,
      (if e.hash = hash ∧ e.block = b then { e with reusable := true } else e).id = e.id ∧
        (if e.hash = hash ∧ e.block = b then { e with reusable := true } else e).block =
          e.block ∧
        (if e.hash = hash ∧ e.block = b then { e with reusable := true } else e).hash =
          e.hash := by
    intro e
    split <;> exact ⟨rfl, rfl, rfl⟩
  refine h.mapCache hfields fun e _ hr => ?_
  split at hr
  case isTrue heb =>
    refine .inr fun buf' hbuf' => ?_
    rw [heb.2, hb] at hbuf'
    cases hbuf'
    exact hlt
  case isFalse => exact .inl hr

theorem Inv.cacheCreate (h : Inv ops s) (hins : InsertOk ops s p)
    (hlive : s.Live p.block) : Inv ops (s.cacheCreate p) := by
  unfold State.cacheCreate
  split
  case isTrue => exact h
  case isFalse hnone =>
    obtain ⟨buf, hbuf, hhash, hreuse⟩ := hins
    -- an entry of the block would have its hash
    have hno : ∀ e ∈ s.cache, e.block ≠ p.block := by
      intro e he heb
      obtain ⟨buf', hbuf', -, hhash', -⟩ := h.cached e he
      rw [heb, hbuf] at hbuf'
      cases hbuf'
      refine hnone (any_eq_true.mpr ⟨e, he, ?_⟩)
      rw [decide_eq_true_iff]
      exact ⟨hhash'.trans hhash.symm, heb⟩
    refine ⟨h.count, h.max, h.live, h.freeing, ?_, ?_, ?_, ?_, ?_, h.readers, ?_⟩
    · refine forall_mem_cons.mpr ⟨⟨buf, hbuf, hlive.2, hhash, fun hr => ?_⟩, h.cached⟩
      obtain hlt | ⟨e, he, heb⟩ := hreuse hr
      · exact hlt
      · exact absurd heb (hno e he)
    · intro e he e' he' hblock
      obtain rfl | he := mem_cons.mp he
      · obtain rfl | he' := mem_cons.mp he'
        · rfl
        · exact absurd hblock.symm (hno e' he')
      · obtain rfl | he' := mem_cons.mp he'
        · exact absurd hblock (hno e he)
        · exact h.unique e he e' he' hblock
    · intro e he e' he' hid
      obtain rfl | he := mem_cons.mp he
      · obtain rfl | he' := mem_cons.mp he'
        · rfl
        · exact absurd hid.symm (h.ids e' he').ne
      · obtain rfl | he' := mem_cons.mp he'
        · exact absurd hid (h.ids e he).ne
        · exact h.distinct e he e' he' hid
    · exact forall_mem_cons.mpr ⟨Nat.lt_succ_self _, fun e he => (h.ids e he).trans_le
        (Nat.le_succ _)⟩
    · intro y q hq
      obtain ⟨buf', hbuf', hhash', hr⟩ := h.pending y q hq
      refine ⟨buf', hbuf', hhash', fun hq => (hr hq).imp_right ?_⟩
      rintro ⟨e, he, hblock⟩
      exact ⟨e, mem_cons_of_mem _ he, hblock⟩
    · intro y
      refine (h.calls y).cache (Nat.le_succ _) fun e he hid => ?_
      obtain rfl | he := mem_cons.mp he
      · exact absurd hid (Nat.lt_irrefl _)
      · exact ⟨e, he, rfl, rfl⟩

structure BlockOk (ops : Entries κ) (s : State ι κ) (b : ℕ) : Prop where
  count : ∀ buf, s.bufs b = some buf → ¬ s.BeingFreed b → buf.refcount = s.refs b
  max : ∀ buf, s.bufs b = some buf → buf.refcount ≤ refcountMax
  live : ∀ x, 0 < s.heldBy x b → s.Live b
  freeing : ∀ x d, s.calls x = .freeing b d →
    (∃ buf, s.bufs b = some buf ∧ buf.refcount = 1) ∧ ∀ y d', s.calls y = .freeing b d' → y = x
  cached : ∀ e ∈ s.cache, e.block = b → CachedOk ops s e
  pending : ∀ x p, s.Inserting x p → p.block = b → InsertOk ops s p

theorem Inv.blockOk (h : Inv ops s) (b : ℕ) : BlockOk ops s b :=
  ⟨h.count b, h.max b, fun x => h.live x b, fun x => h.freeing x b, fun e he _ => h.cached e he,
    fun x p hp _ => h.pending x p hp⟩

omit [Fintype ι] in
/-- A call on inode `x` goes on, and nothing of the other inodes changes. -/
structure Moves (x : ι) (s t : State ι κ) : Prop where
  calls : ∀ y, y ≠ x → t.calls y = s.calls y
  acl : ∀ y, y ≠ x → t.acl y = s.acl y
  readers : t.readers = s.readers
  cache : t.cache = s.cache
  nextId : t.nextId = s.nextId
  reading : ∀ p, (x, p) ∉ s.readers

variable {a : Option ℕ} {t : State ι κ}

section

variable (hm : Moves x s t)

include hm

omit [Fintype ι] in
theorem Moves.heldBy (hy : y ≠ x) (b : ℕ) : t.heldBy y b = s.heldBy y b := by
  rw [State.heldBy, hm.calls y hy, hm.acl y hy, State.heldBy]

omit [Fintype ι] in
theorem Moves.freeing_iff {d : Bool}
    (hx : t.calls x = .freeing b d ↔ s.calls x = .freeing b d) (y : ι) :
    t.calls y = .freeing b d ↔ s.calls y = .freeing b d := by
  by_cases hy : y = x
  · rw [hy]
    exact hx
  · rw [hm.calls y hy]

omit [Fintype ι] in
theorem Moves.beingFreed_iff (hx : ∀ d, t.calls x = .freeing b d ↔ s.calls x = .freeing b d) :
    t.BeingFreed b ↔ s.BeingFreed b :=
  exists_congr fun y => exists_congr fun d => hm.freeing_iff (hx d) y

omit [Fintype ι] in
theorem Moves.inserting (hp : t.Inserting y p) : s.Inserting y p ∨ t.calls x = .create p := by
  obtain hp | hp := hp
  · exact .inl (.inl (hm.readers ▸ hp))
  by_cases hy : y = x
  · exact .inr (hy ▸ hp)
  · exact .inl (.inr ((hm.calls y hy).symm.trans hp))

theorem BlockOk.move (h : BlockOk ops s b) (hb : t.bufs b = s.bufs b)
    (hheld : t.heldBy x b = s.heldBy x b)
    (hx : ∀ d, t.calls x = .freeing b d ↔ s.calls x = .freeing b d)
    (hins : ∀ p, t.calls x = .create p → InsertOk ops s p) : BlockOk ops t b := by
  have hfreed := hm.beingFreed_iff hx
  have hby : ∀ y, t.heldBy y b = s.heldBy y b := by
    intro y
    by_cases hy : y = x
    · rw [hy, hheld]
    · exact hm.heldBy hy b
  constructor
  case count =>
    intro buf hbuf hnot
    rw [h.count buf (hb ▸ hbuf) fun hf => hnot (hfreed.mpr hf)]
    exact (Finset.sum_congr rfl fun y _ => hby y).symm
  case max => exact fun buf hbuf => h.max buf (hb ▸ hbuf)
  case live =>
    intro y hy
    obtain ⟨hbuf, hnot⟩ := h.live y (hby y ▸ hy)
    exact ⟨hb ▸ hbuf, fun hf => hnot (hfreed.mp hf)⟩
  case freeing =>
    intro y d hy
    obtain ⟨hbuf, hone⟩ := h.freeing y d ((hm.freeing_iff (hx d) y).mp hy)
    exact ⟨hb ▸ hbuf, fun z d' hz => hone z d' ((hm.freeing_iff (hx d') z).mp hz)⟩
  case cached =>
    rintro e he rfl
    obtain ⟨buf, hbuf, hnot, hrest⟩ := h.cached e (hm.cache ▸ he) rfl
    exact ⟨buf, hb.trans hbuf, fun hf => hnot (hfreed.mp hf), hrest⟩
  case pending =>
    rintro y p hp rfl
    have hold : InsertOk ops s p := by
      obtain hp | hp := hm.inserting hp
      · exact h.pending y p hp rfl
      · exact hins p hp
    obtain ⟨buf, hbuf, hrest⟩ := hold
    refine ⟨buf, hb.trans hbuf, ?_⟩
    rw [hm.cache]
    exact hrest

theorem Inv.of_blocks (h : Inv ops s) (hok : CallOk s.cache s.nextId (t.acl x) (t.calls x))
    (hblocks : ∀ b, BlockOk ops t b) : Inv ops t := by
  refine ⟨fun b => (hblocks b).count, fun b => (hblocks b).max, fun y b => (hblocks b).live y,
    fun y b => (hblocks b).freeing y, fun e he => (hblocks e.block).cached e he rfl, ?_, ?_, ?_,
    fun y p hp => (hblocks p.block).pending y p hp rfl, ?_, ?_⟩
  · rw [hm.cache]
    exact h.unique
  · rw [hm.cache]
    exact h.distinct
  · rw [hm.cache, hm.nextId]
    exact h.ids
  · intro y p hp
    rw [hm.readers] at hp
    have hy : y ≠ x := by
      rintro rfl
      exact hm.reading p hp
    rw [hm.calls y hy, hm.acl y hy]
    exact h.readers y p hp
  · intro y
    rw [hm.cache, hm.nextId]
    by_cases hy : y = x
    · rw [hy]
      exact hok
    · rw [hm.calls y hy, hm.acl y hy]
      exact h.calls y

end

variable [DecidableEq ι]

omit [Fintype ι] in
theorem heldBy_self (b : ℕ) : ((s.setAcl x a).setCall x c).heldBy x b = c.held a b := by
  simp only [State.heldBy, State.setAcl, State.setCall, update_self]

omit [Fintype ι] in
theorem moves_setCall {bufs : ℕ → Option (Buf κ)} (hread : ∀ p, (x, p) ∉ s.readers) :
    Moves x s (State.setCall x c { s with bufs := bufs }) :=
  ⟨fun _ hy => update_of_ne hy _ _, fun _ _ => rfl, rfl, rfl, rfl, hread⟩

theorem Inv.move (h : Inv ops s) (hheld : ∀ b, c.held a b = s.heldBy x b)
    (hfrom : ∀ b d, s.calls x ≠ .freeing b d) (hto : ∀ b d, c ≠ .freeing b d)
    (hread : ∀ p, (x, p) ∉ s.readers) (hok : CallOk s.cache s.nextId a c)
    (hins : ∀ p, c = .create p → InsertOk ops s p) : Inv ops ((s.setAcl x a).setCall x c) := by
  have hm : Moves x s ((s.setAcl x a).setCall x c) :=
    ⟨fun _ hy => update_of_ne hy _ _, fun _ hy => update_of_ne hy _ _, rfl, rfl, rfl, hread⟩
  have hself : ((s.setAcl x a).setCall x c).calls x = c := update_self _ _ _
  have hacl : ((s.setAcl x a).setCall x c).acl x = a := update_self _ _ _
  refine h.of_blocks hm ?_ fun b => (h.blockOk b).move hm rfl ?_ ?_ ?_
  · rw [hself, hacl]
    exact hok
  · rw [heldBy_self, hheld]
  · intro d
    rw [hself]
    exact iff_of_false (hto b d) (hfrom b d)
  · rw [hself]
    exact hins

theorem Inv.setCall (h : Inv ops s) (hheld : ∀ b, c.held (s.acl x) b = s.heldBy x b)
    (hfrom : ∀ b d, s.calls x ≠ .freeing b d) (hto : ∀ b d, c ≠ .freeing b d)
    (hread : ∀ p, (x, p) ∉ s.readers) (hok : CallOk s.cache s.nextId (s.acl x) c)
    (hins : ∀ p, c = .create p → InsertOk ops s p) : Inv ops (s.setCall x c) := by
  have hmove := h.move hheld hfrom hto hread hok hins
  rw [State.setAcl, update_eq_self] at hmove
  exact hmove

theorem Inv.setBuf (h : Inv ops s) (hcount : buf.refcount + s.heldBy x b =
      s.refs b + c.held (s.acl x) b) (hmax : buf.refcount ≤ refcountMax)
    (hfreed : ¬ s.BeingFreed b) (hheld : ∀ b', b' ≠ b → c.held (s.acl x) b' = s.heldBy x b')
    (hcache : ∀ e ∈ s.cache, e.block = b →
      e.hash = ops.hash buf.body ∧ (e.reusable = true → buf.refcount < refcountMax))
    (hins : ∀ y p, s.Inserting y p → p.block = b → p.hash = ops.hash buf.body ∧
      (p.reusable = true → buf.refcount < refcountMax ∨ ∃ e ∈ s.cache, e.block = p.block))
    (hfrom : ∀ b d, s.calls x ≠ .freeing b d) (hto : ∀ b d, c ≠ .freeing b d)
    (hcreate : ∀ p, c ≠ .create p) (hread : ∀ p, (x, p) ∉ s.readers)
    (hok : CallOk s.cache s.nextId (s.acl x) c) :
    Inv ops ((s.setBuf b (some buf)).setCall x c) := by
  have hm : Moves x s ((s.setBuf b (some buf)).setCall x c) := moves_setCall hread
  have hself : ((s.setBuf b (some buf)).setCall x c).calls x = c := update_self _ _ _
  have hbuf : ((s.setBuf b (some buf)).setCall x c).bufs b = some buf := update_self _ _ _
  have hbx : ∀ b', ((s.setBuf b (some buf)).setCall x c).heldBy x b' = c.held (s.acl x) b' := by
    intro b'
    unfold State.heldBy
    rw [hself]
    rfl
  have hx : ∀ b' d, ((s.setBuf b (some buf)).setCall x c).calls x = .freeing b' d ↔
      s.calls x = .freeing b' d := by
    intro b' d
    rw [hself]
    exact iff_of_false (hto b' d) (hfrom b' d)
  have hnot : ¬ ((s.setBuf b (some buf)).setCall x c).BeingFreed b :=
    fun hf => hfreed ((hm.beingFreed_iff (hx b)).mp hf)
  have hnew : ∀ p, ((s.setBuf b (some buf)).setCall x c).calls x ≠ .create p := hself.symm ▸ hcreate
  refine h.of_blocks hm (hself.symm ▸ hok) fun b' => ?_
  by_cases hbb : b' = b
  · subst hbb
    constructor
    case count =>
      intro buf' hb' _
      have hsum : _ + s.heldBy x b' = s.refs b' + _ := sum_point fun y hy => hm.heldBy hy b'
      rw [hbx b'] at hsum
      rw [hbuf] at hb'
      cases hb'
      exact Nat.add_right_cancel (hcount.trans hsum.symm)
    case max =>
      intro buf' hb'
      rw [hbuf] at hb'
      cases hb'
      exact hmax
    case live => exact fun y _ => ⟨⟨buf, hbuf⟩, hnot⟩
    case freeing => exact fun y d hy => absurd ⟨y, d, hy⟩ hnot
    case cached =>
      rintro e he rfl
      obtain ⟨hhash, hlt⟩ := hcache e he rfl
      exact ⟨buf, hbuf, hnot, hhash, hlt⟩
    case pending =>
      rintro y p hp rfl
      exact ⟨buf, hbuf, hins y p ((hm.inserting hp).resolve_right (hnew p)) rfl⟩
  · exact (h.blockOk b').move hm (update_of_ne hbb _ _) ((hbx b').trans (hheld b' hbb))
      (hx b') fun p hp => absurd hp (hnew p)

theorem Inv.toFreeing (h : Inv ops s) {d : Bool} (hb : s.bufs b = some buf)
    (hone : buf.refcount = 1) (hfreed : ¬ s.BeingFreed b)
    (hheld : ∀ b', (Call.freeing b d : Call κ).held (s.acl x) b' + (if b' = b then 1 else 0) =
      s.heldBy x b') (hcache : ∀ e ∈ s.cache, e.block ≠ b) (hfrom : ∀ b d, s.calls x ≠ .freeing b d)
    (hread : ∀ p, (x, p) ∉ s.readers) : Inv ops (s.setCall x (.freeing b d)) := by
  have hm : Moves x s (s.setCall x (.freeing b d)) := moves_setCall hread
  have hself : (s.setCall x (.freeing b d)).calls x = .freeing b d := update_self _ _ _
  have hbx : ∀ b', (s.setCall x (.freeing b d)).heldBy x b' + (if b' = b then 1 else 0) =
      s.heldBy x b' := by
    intro b'
    rw [← hheld b', State.heldBy, hself]
    rfl
  have hnew : ∀ p, (s.setCall x (.freeing b d)).calls x ≠ .create p := by
    intro p hp
    cases hself.symm.trans hp
  have hfree : (s.setCall x (.freeing b d)).BeingFreed b := ⟨x, d, hself⟩
  refine h.of_blocks hm (hself.symm ▸ trivial) fun b' => ?_
  have hx := hbx b'
  by_cases hbb : b' = b
  · subst hbb
    rw [if_pos rfl] at hx
    obtain ⟨hmine, hothers⟩ := h.sole hb hone hfreed (x := x) (by omega)
    constructor
    case count => exact fun _ _ hnot => absurd hfree hnot
    case max => exact h.max b'
    case live =>
      intro y hy
      by_cases hyx : y = x
      · subst hyx
        omega
      · rw [hm.heldBy hyx, hothers y hyx] at hy
        exact absurd hy (Nat.lt_irrefl 0)
    case freeing =>
      have hmine : ∀ y d', (s.setCall x (.freeing b' d)).calls y = .freeing b' d' → y = x := by
        intro y d' hy
        by_contra hyx
        exact hfreed ⟨y, d', (hm.calls y hyx).symm.trans hy⟩
      intro y d' hy
      exact ⟨⟨buf, hb, hone⟩, fun z d'' hz => (hmine z d'' hz).trans (hmine y d' hy).symm⟩
    case cached => exact fun e he heb => absurd heb (hcache e he)
    case pending =>
      intro y p hp _
      exact h.pending y p ((hm.inserting hp).resolve_right (hnew p))
  · rw [if_neg hbb] at hx
    refine (h.blockOk b').move hm rfl hx (fun d' => ?_) fun p hp => absurd hp (hnew p)
    rw [hself]
    exact iff_of_false (fun hc => hbb (by cases hc; rfl)) (hfrom b' d')

theorem Inv.free (h : Inv ops s) {d : Bool} (hx : s.calls x = .freeing b d)
    (hheld : ∀ b', c.held (s.acl x) b' = s.heldBy x b') (hto : ∀ b d, c ≠ .freeing b d)
    (hcreate : ∀ p, c ≠ .create p) (hok : CallOk s.cache s.nextId (s.acl x) c) :
    Inv ops ((s.setBuf b none).setCall x c) := by
  have hread : ∀ p, (x, p) ∉ s.readers := h.not_reading (by rw [hx]; rfl)
  have hfreed : s.BeingFreed b := ⟨x, d, hx⟩
  have hm : Moves x s ((s.setBuf b none).setCall x c) := moves_setCall hread
  have hself : ((s.setBuf b none).setCall x c).calls x = c := update_self _ _ _
  have hnone : ((s.setBuf b none).setCall x c).bufs b = none := update_self _ _ _
  have hnew : ∀ p, ((s.setBuf b none).setCall x c).calls x ≠ .create p := hself.symm ▸ hcreate
  have hbx : ∀ b', ((s.setBuf b none).setCall x c).heldBy x b' = s.heldBy x b' := by
    intro b'
    rw [← hheld b', State.heldBy, hself]
    rfl
  refine h.of_blocks hm (hself.symm ▸ hok) fun b' => ?_
  by_cases hbb : b' = b
  · subst hbb
    -- a block that is being freed is held by nobody and has no entry
    constructor
    case count | max =>
      intro buf hbuf
      cases hnone.symm.trans hbuf
    case live =>
      intro y hy
      have hby : ((s.setBuf b' none).setCall x c).heldBy y b' = s.heldBy y b' := by
        by_cases hyx : y = x
        · rw [hyx, hbx]
        · exact hm.heldBy hyx b'
      exact absurd hfreed (h.live y b' (hby ▸ hy)).2
    case freeing =>
      intro y d' hy
      by_cases hyx : y = x
      · rw [hyx, hself] at hy
        exact absurd hy (hto b' d')
      · exact absurd ((h.freeing x b' d hx).2 y d' ((hm.calls y hyx).symm.trans hy)) hyx
    case cached =>
      rintro e he rfl
      obtain ⟨-, -, hnot, -⟩ := h.cached e he
      exact absurd hfreed hnot
    case pending =>
      rintro y p hp rfl
      have hold := (hm.inserting hp).resolve_right (hnew p)
      exact absurd hfreed (h.live y p.block (h.held_of_inserting hold)).2
  · refine (h.blockOk b').move hm (update_of_ne hbb _ _) (hbx b') (fun d' => ?_)
      fun p hp => absurd hp (hnew p)
    rw [hself, hx]
    exact iff_of_false (hto b' d') fun hc => hbb (by cases hc; rfl)

end VMsep.Ext4.Shared
