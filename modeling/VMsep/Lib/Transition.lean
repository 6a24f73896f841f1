import Mathlib.Data.List.Basic

/-! A machine is a partial step function on a state and an action; `none` means that the action is
not enabled. A run is a list of actions, `Along` says that every step it takes meets a condition on
the state before the step, and invariants are proved once for a step and lifted to runs here. -/

namespace VMsep.Lib

variable {σ α τ : Type*}

def exec (step : σ → α → Option σ) : σ → List α → Option σ
  | s, [] => some s
  | s, a :: as => (step s a).bind fun s' => exec step s' as

/-- Every step of the run meets `C` in the state it is taken from. -/
def Along (step : σ → α → Option σ) (C : σ → α → Prop) : σ → List α → Prop
  | _, [] => True
  | s, a :: as => C s a ∧
      match step s a with
      | none => True
      | some s' => Along step C s' as

variable {step : σ → α → Option σ} {C : σ → α → Prop} {I : σ → Prop} {s s' m : σ} {as bs : List α}

@[simp]
theorem exec_nil (s : σ) : exec step s [] = some s := rfl

theorem exec_cons {a : α} :
    exec step s (a :: as) = some s' ↔ ∃ m, step s a = some m ∧ exec step m as = some s' := by
  simp [exec, Option.bind_eq_some_iff]

theorem exec_append :
    exec step s (as ++ bs) = some s' ↔ ∃ m, exec step s as = some m ∧ exec step m bs = some s' := by
  induction as generalizing s with
  | nil => simp
  | cons _ _ ih =>
    simp only [List.cons_append, exec_cons, ih]
    constructor
    · rintro ⟨m, hm, n, hn, hs⟩
      exact ⟨n, ⟨m, hm, hn⟩, hs⟩
    · rintro ⟨n, ⟨m, hm, hn⟩, hs⟩
      exact ⟨m, hm, n, hn, hs⟩

theorem along_cons {a : α} (h : step s a = some m) :
    Along step C s (a :: as) ↔ C s a ∧ Along step C m as := by
  simp [Along, h]

theorem Along.and {D : σ → α → Prop} (h : Along step C s as) (h' : Along step D s as) :
    Along step (fun s a => C s a ∧ D s a) s as := by
  induction as generalizing s with
  | nil => trivial
  | cons a _ ih =>
    refine ⟨⟨h.1, h'.1⟩, ?_⟩
    have h2 := h.2
    have h2' := h'.2
    cases hs : step s a with
    | none => trivial
    | some =>
      rw [hs] at h2 h2'
      exact ih h2 h2'

theorem along_of_forall (h : ∀ a ∈ as, ∀ s, C s a) : Along step C s as := by
  induction as generalizing s with
  | nil => trivial
  | cons a _ ih =>
    refine ⟨h a List.mem_cons_self s, ?_⟩
    cases step s a with
    | none => trivial
    | some m => exact ih fun a ha => h a (List.mem_cons_of_mem _ ha)

/-- `Along` can be evaluated on a concrete run. -/
def decidableAlong [∀ s a, Decidable (C s a)] :
    ∀ (as : List α) (s : σ), Decidable (Along step C s as)
  | [], _ => .isTrue trivial
  | a :: as, s =>
    haveI : Decidable (match step s a with
        | none => True
        | some s' => Along step C s' as) :=
      match step s a with
      | none => .isTrue trivial
      | some m => decidableAlong as m
    inferInstanceAs (Decidable (_ ∧ _))

instance [∀ s a, Decidable (C s a)] (s : σ) (as : List α) :
    Decidable (Along step C s as) :=
  decidableAlong as s

/-- What every conditioned step preserves, every conditioned run preserves. -/
theorem exec_invariant
    (hstep : ∀ s a s', I s → C s a → step s a = some s' → I s') :
    ∀ (as : List α) {s s' : σ}, I s → exec step s as = some s' → Along step C s as →
      I s'
  | [], s, s', hi, hex, _ => by
    cases hex
    exact hi
  | a :: as, s, s', hi, hex, hal => by
    obtain ⟨m, hm, hrest⟩ := exec_cons.mp hex
    rw [along_cons hm] at hal
    exact exec_invariant hstep as (hstep s a m hi hal.1 hm) hrest hal.2

theorem exec_progress (hstep : ∀ s a, I s → C s a → ∃ s', step s a = some s' ∧ I s') (as : List α)
    (hi : I s) (hal : Along step C s as) : ∃ s', exec step s as = some s' ∧ I s' := by
  induction as generalizing s with
  | nil => exact ⟨s, rfl, hi⟩
  | cons a _ ih =>
    obtain ⟨m, hm, him⟩ := hstep s a hi hal.1
    obtain ⟨s', hs', his'⟩ := ih him ((along_cons hm).mp hal).2
    exact ⟨s', exec_cons.mpr ⟨m, hm, hs'⟩, his'⟩

/-- What every step keeps holds after a run. -/
theorem exec_invariant_all (hstep : ∀ s a s', I s → step s a = some s' → I s') (as : List α)
    (hi : I s) (hex : exec step s as = some s') : I s' := by
  induction as generalizing s with
  | nil =>
    cases hex
    exact hi
  | cons a _ ih =>
    obtain ⟨m, hm, hrest⟩ := exec_cons.mp hex
    exact ih (hstep s a m hi hm) hrest

/-- Two conditions that agree on the invariant agree along a run. -/
theorem along_iff_of_invariant {P Q : σ → α → Prop}
    (hstep : ∀ s a s', I s → C s a → step s a = some s' → (P s a ↔ Q s a) ∧ (Q s a → I s')) :
    ∀ (as : List α) {s s' : σ}, I s → exec step s as = some s' → Along step C s as →
      (Along step P s as ↔ Along step Q s as)
  | [], _, _, _, _, _ => Iff.rfl
  | a :: as, s, s', hi, hex, hal => by
    obtain ⟨m, hm, hrest⟩ := exec_cons.mp hex
    rw [along_cons hm] at hal
    rw [along_cons hm, along_cons hm]
    obtain ⟨hpq, hnext⟩ := hstep s a m hi hal.1 hm
    constructor
    · rintro ⟨hp, htail⟩
      have hq := hpq.mp hp
      exact ⟨hq, (along_iff_of_invariant hstep as (hnext hq) hrest hal.2).mp htail⟩
    · rintro ⟨hq, htail⟩
      exact ⟨hpq.mpr hq, (along_iff_of_invariant hstep as (hnext hq) hrest hal.2).mpr htail⟩

section Bisimulation

variable {tstep : τ → α → Option τ} {R : σ → τ → Prop}

theorem rel_bind {σ' τ' : Type*} {S : σ' → τ' → Prop} {o : Option σ} {p : Option τ}
    {f : σ → Option σ'} {g : τ → Option τ'} (h : Option.Rel R o p)
    (hfg : ∀ x y, o = some x → p = some y → R x y → Option.Rel S (f x) (g y)) :
    Option.Rel S (o.bind f) (p.bind g) := by
  cases h with
  | none => exact .none
  | some hxy => exact hfg _ _ rfl rfl hxy

theorem exec_rel (hstep : ∀ s t a, R s t → Option.Rel R (step s a) (tstep t a)) (as : List α)
    {t : τ} (h : R s t) : Option.Rel R (exec step s as) (exec tstep t as) := by
  induction as generalizing s t with
  | nil => exact .some h
  | cons a as ih => exact rel_bind (hstep s t a h) fun x y _ _ hxy => ih hxy

end Bisimulation

end VMsep.Lib
