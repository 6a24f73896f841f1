import VMsep.Jbd2.BufferSpecs
import VMsep.Jbd2.Steps

/-! The invariant of the buffers while no abort has happened and no deferred buffer was claimed or
had frozen data: which lists of the committing transaction can hold buffers in which phase, and that
claims, frozen data and the shadow bit belong to its buffers only. -/

namespace VMsep.Jbd2

open CommitPhase

def CommitPhase.holds (ph : CommitPhase) (sub : CommitSub) : Jlist → Bool
  | .none => true
  | .reserved =>
    match ph with
    | .switching => sub = .idle
    | ph => !ph.quiet
  | .metadata =>
    match ph with
    | .tailKnown | .installed | .jflush | .recorded | .forgetting | .callback => false
    | _ => true
  | .shadow =>
    match ph with
    | .logging | .tailKnown | .installed => true
    | _ => false
  | .forget => ph ≠ .callback

/-- A `journal_head` in its place, when `T` is the transaction to commit and the bits `BH_Dirty`,
`BH_JBDDirty` and `BH_Shadow` of the buffer are the given ones. -/
structure JournalHead.Ok (ph : CommitPhase) (sub : CommitSub) (T : ℕ)
    (dirty jbddirty shadow : Bool) (k : JournalHead) : Prop where
  unfiled : k.bTransaction = none → k.bJlist = .none ∧ k.bNextTransaction = none ∧
    k.bFrozenData = none ∧ jbddirty = false ∧ shadow = false
  filed : k.bTransaction ≠ none → k.bJlist ≠ .none ∧ dirty = false
  next : ∀ r, k.bNextTransaction = some r →
    k.bTransaction = some T ∧ ph.committing = true ∧ r ≠ T
  frozen : k.bFrozenData ≠ none → k.bTransaction = some T ∧ ph.committing = true
  shadow : shadow = true ∨ k.bJlist = .shadow →
    k.bTransaction = some T ∧ k.bJlist = .shadow ∧ ph.committing = true
  stage : ph.busy = true → k.bTransaction = some T → ph.holds sub k.bJlist = true

def BufferHead.Ok (ph : CommitPhase) (sub : CommitSub) (T : ℕ) (x : BufferHead) : Prop :=
  x.jh.Ok ph sub T x.dirty x.jbddirty x.shadow

structure Placed (s : System) : Prop where
  filed : s.m.Filed
  cached : ∀ b, (s.m.bufs b).bPrivate ≠ none ∨ (s.m.bufs b).dirty = true → s.rv.cached b = true
  ok : ∀ b, (s.m.bufs b).Ok s.j.phase s.sub s.commitTx
  deferring : ∀ b l, s.sub = .deferring b l → l = .metadata
  copying : ∀ b, s.sub = .copying b → (s.m.bufs b).place = some (s.commitTx, .metadata)

structure Sound (s : System) : Prop where
  quiet : QuietInv s.j
  sub : System.subOk s.j.phase s.sub = true
  placed : s.j.jAborted = false → Placed s

variable {ph : CommitPhase} {sub : CommitSub}

theorem BufferHead.Ok.of {T : ℕ} {x : BufferHead} {k : JournalHead} (h : x.Ok ph sub T)
    (hk : x.bPrivate = some k) : k.Ok ph sub T x.dirty x.jbddirty x.shadow := by
  rwa [BufferHead.Ok, BufferHead.jh_eq hk] at h

namespace JournalHead.Ok

variable {ph ph' : CommitPhase} {sub sub' : CommitSub} {T t n : ℕ} {d j sh : Bool}
  {k : JournalHead}

theorem clean (h : k.Ok ph sub T d j sh) (ht : k.bTransaction ≠ none) : d = false :=
  (h.filed ht).2

theorem clean_of_access (h : k.Ok ph sub T d j sh)
    (hacc : k.bTransaction = some t ∨ k.bNextTransaction = some t) : d = false := by
  rcases hacc with hacc | hacc
  · exact h.clean (by simp [hacc])
  · exact h.clean (by simp [(h.next t hacc).1])

theorem next_none (h : k.Ok ph sub T d j sh) (hph : ph.committing = false) :
    k.bNextTransaction = none := by
  cases hn : k.bNextTransaction with
  | none => rfl
  | some r => exact absurd ((h.next r hn).2.1.symm.trans hph) (by simp)

theorem frozen_none (h : k.Ok ph sub T d j sh) (hph : ph.committing = false) :
    k.bFrozenData = none := by
  by_contra hf
  exact absurd ((h.frozen hf).2.symm.trans hph) (by simp)

theorem plain (h : k.Ok ph sub T d j sh) (ht : k.bTransaction ≠ some T) :
    k.bNextTransaction = none ∧ k.bFrozenData = none ∧ sh = false ∧ k.bJlist ≠ .shadow := by
  refine ⟨?_, ?_, ?_, fun hl => ht (h.shadow (.inr hl)).1⟩
  · cases hn : k.bNextTransaction with
    | none => rfl
    | some r => exact absurd (h.next r hn).1 ht
  · by_contra hf
    exact ht (h.frozen hf).1
  · by_contra hs
    exact ht (h.shadow (.inl (by simpa using hs))).1

theorem of_filed (ht : k.bTransaction = some t) (hq : ph.quiet = true → t ≠ T)
    (hl : k.bJlist = .reserved ∨ k.bJlist = .metadata ∨ k.bJlist = .forget)
    (hn : k.bNextTransaction = none) (hf : k.bFrozenData = none) (hd : d = false)
    (hs : sh = false) : k.Ok ph sub T d j sh where
  unfiled := fun h => absurd (ht.symm.trans h) nofun
  filed := fun _ => ⟨by rcases hl with h | h | h <;> simp [h], hd⟩
  next := fun r hr => absurd (hn.symm.trans hr) nofun
  frozen := fun h => absurd hf h
  shadow := by
    rintro (h | h)
    · exact absurd (hs.symm.trans h) (by simp)
    · rcases hl with h' | h' | h' <;> exact absurd (h'.symm.trans h) (by simp)
  stage := fun _ hT => by
    have hquiet : ph.quiet = false := by
      by_contra hne
      exact hq (by simpa using hne) (Option.some.inj (ht.symm.trans hT))
    rcases hl with h | h | h <;> rw [h] <;> cases ph <;> first | rfl | cases hquiet

theorem of_unfiled (ht : k.bTransaction = none) (hl : k.bJlist = .none)
    (hn : k.bNextTransaction = none) (hf : k.bFrozenData = none) (hj : j = false)
    (hs : sh = false) : k.Ok ph sub T d j sh where
  unfiled := fun _ => ⟨hl, hn, hf, hj, hs⟩
  filed := fun h => absurd ht h
  next := fun r hr => absurd (hn.symm.trans hr) nofun
  frozen := fun h => absurd hf h
  shadow := by
    rintro (h | h)
    · exact absurd (hs.symm.trans h) (by simp)
    · exact absurd (hl.symm.trans h) (by simp)
  stage := fun _ hT => absurd (ht.symm.trans hT) (by simp)

theorem own (h : k.Ok ph sub T d j sh) (ht : k.bTransaction = some t)
    (hq : ph.quiet = true → t ≠ T) :
    k.bNextTransaction = none ∧ k.bFrozenData = none ∧ sh = false ∧ k.bJlist ≠ .shadow := by
  by_cases hT : t = T
  · have hph : ph.committing = false := by
      by_contra hne
      exact hq (quiet_of_committing (by simpa using hne)) hT
    refine ⟨h.next_none hph, h.frozen_none hph, ?_, fun hl => ?_⟩
    · by_contra hs
      exact absurd ((h.shadow (.inl (by simpa using hs))).2.2.symm.trans hph) (by simp)
    · exact absurd ((h.shadow (.inr hl)).2.2.symm.trans hph) (by simp)
  · exact h.plain fun hk => hT (Option.some.inj (ht.symm.trans hk))

theorem shadow_false (h : k.Ok ph sub T d j sh) (hl : k.bJlist ≠ .shadow) : sh = false := by
  by_contra hs
  exact hl (h.shadow (.inl (by simpa using hs))).2.1

theorem not_reserved (h : k.Ok ph sub T d j sh) (ht : k.bTransaction = some T)
    (hph : ph.committing = true) : k.bJlist ≠ .reserved := by
  intro hl
  have hhold := h.stage (quiet_busy (quiet_of_committing hph)) ht
  rw [hl] at hhold
  cases ph <;> first
    | exact absurd hhold Bool.false_ne_true
    | exact absurd hph Bool.false_ne_true

/-- Only in the phase `switching` does the point between two sections matter. -/
theorem change_sub (h : k.Ok ph sub T d j sh) (hph : ph ≠ .switching) : k.Ok ph sub' T d j sh :=
  { h with
    stage := fun hb ht => by
      have := h.stage hb ht
      unfold holds at this ⊢
      split <;> simp_all }

end JournalHead.Ok

/-- The last reference is dropped only from a `journal_head` that is on no list. -/
theorem BufferHead.Ok.release {T : ℕ} {x : BufferHead} {k : JournalHead}
    (hp : k.Released x.bPrivate) (h : k.Ok ph sub T x.dirty x.jbddirty x.shadow) :
    x.Ok ph sub T := by
  rcases hp with hk | ⟨hk, htx, -⟩
  · rw [BufferHead.Ok, BufferHead.jh_eq hk]
    exact { h with }
  obtain ⟨-, -, -, hj, hs⟩ := h.unfiled htx
  rw [BufferHead.Ok, BufferHead.jh, hk]
  exact .of_unfiled rfl rfl rfl rfl hj hs

end VMsep.Jbd2
