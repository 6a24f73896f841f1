import Mathlib.Data.Nat.Notation

/-! A failure does not take back what was done before it. A specification therefore says what holds
after a success and what holds after a failure. -/

namespace VMsep.Lib

variable {ε σ α β : Type}

/-- From a state with `P` the computation ends with `Q`, or fails with `E`. -/
def Spec (P : σ → Prop) (x : EStateM ε σ α) (Q : α → σ → Prop) (E : ε → σ → Prop) : Prop :=
  ∀ s, P s →
    match x s with
    | .ok a s' => Q a s'
    | .error e s' => E e s'

def attempt (fails : Bool) (e : ε) : EStateM ε σ Unit := fun s =>
  if fails then .error e s else .ok () s

section

variable {x : EStateM ε σ α} {f : α → EStateM ε σ β} {s s' : σ}

end

namespace Spec

variable {P P' : σ → Prop} {Q : α → σ → Prop} {E E' : ε → σ → Prop} {x : EStateM ε σ α}

theorem pre (h : Spec P x Q E) (hp : ∀ s, P' s → P s) : Spec P' x Q E :=
  fun s hs => h s (hp s hs)

theorem mono {Q' : α → σ → Prop} (h : Spec P x Q E) (hq : ∀ a s, Q a s → Q' a s)
    (he : ∀ e s, E e s → E' e s) : Spec P x Q' E' := by
  intro s hs
  have hx := h s hs
  cases hr : x s with
  | ok a s' =>
    rw [hr] at hx
    exact hq a s' hx
  | error e s' =>
    rw [hr] at hx
    exact he e s' hx

theorem pure (a : α) : Spec (Q a) (Pure.pure a : EStateM ε σ α) Q E := fun _ hs => hs

theorem modify {Q : Unit → σ → Prop} (f : σ → σ) :
    Spec (fun s => Q () (f s)) (modifyThe σ f : EStateM ε σ Unit) Q E := fun _ hs => hs

theorem bind {R : α → σ → Prop} {Q : β → σ → Prop} {f : α → EStateM ε σ β} (hx : Spec P x R E)
    (hf : ∀ a, Spec (R a) (f a) Q E) : Spec P (x >>= f) Q E := by
  intro s hs
  have h := hx s hs
  change match EStateM.bind x f s with
    | .ok a s' => Q a s'
    | .error e s' => E e s'
  unfold EStateM.bind
  cases hr : x s with
  | ok a s' =>
    rw [hr] at h
    exact hf a s' h
  | error =>
    rw [hr] at h
    exact h

theorem attempt {Q : Unit → σ → Prop} {fails : Bool} {e : ε}
    (hok : fails = false → ∀ s, P s → Q () s)
    (herr : fails = true → ∀ s, P s → E e s) : Spec P (attempt fails e : EStateM ε σ Unit) Q E := by
  intro s hs
  cases fails with
  | false => exact hok rfl s hs
  | true => exact herr rfl s hs

theorem ite {c : Prop} [Decidable c] {y : EStateM ε σ α} (hx : c → Spec P x Q E)
    (hy : ¬ c → Spec P y Q E) : Spec P (if c then x else y) Q E := by
  by_cases hc : c
  · rw [if_pos hc]
    exact hx hc
  · rw [if_neg hc]
    exact hy hc

end Spec

end VMsep.Lib
