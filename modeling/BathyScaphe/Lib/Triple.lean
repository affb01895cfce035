import Mathlib.Data.Nat.Basic

/-!
# Triples for computations that keep their state when they raise

`Triple P x Q R`: from a state with `P` the computation `x` ends with a result and
a state for which `Q` holds, or raises and leaves a state with `R`.
-/

variable {ε σ α β : Type} {P P' : σ → Prop} {Q Q' : α → σ → Prop} {R R' : σ → Prop}

def Triple (P : σ → Prop) (x : EStateM ε σ α) (Q : α → σ → Prop) (R : σ → Prop) : Prop :=
  ∀ s, P s → match x s with
    | .ok a s' => Q a s'
    | .error _ s' => R s'

namespace Triple

theorem imp {x : EStateM ε σ α} (h : Triple P x Q R) (hP : ∀ s, P' s → P s)
    (hQ : ∀ a s, Q a s → Q' a s) (hR : ∀ s, R s → T s) : Triple P' x Q' T := by
  intro s hs
  have hx := h s (hP s hs)
  cases hxs : x s with
  | ok a s' =>
    rw [hxs] at hx
    exact hQ a s' hx
  | error e s' =>
    rw [hxs] at hx
    exact hR s' hx

theorem pure {a : α} (h : ∀ s, P s → Q a s) : Triple P (Pure.pure a : EStateM ε σ α) Q R := h

theorem bind {x : EStateM ε σ α} {f : α → EStateM ε σ β} {S : β → σ → Prop}
    (hx : Triple P x Q R) (hf : ∀ a, Triple (Q a) (f a) S R) : Triple P (x >>= f) S R := by
  intro s hs
  have hxs := hx s hs
  show match EStateM.bind x f s with
    | .ok a s' => S a s'
    | .error _ s' => R s'
  unfold EStateM.bind
  cases h : x s with
  | ok a s' =>
    rw [h] at hxs
    exact hf a s' hxs
  | error e s' =>
    rw [h] at hxs
    exact hxs

theorem ite {c : Prop} [Decidable c] {x y : EStateM ε σ α} (hx : c → Triple P x Q R)
    (hy : ¬ c → Triple P y Q R) : Triple P (if c then x else y) Q R := by
  by_cases hc : c
  · rw [if_pos hc]
    exact hx hc
  · rw [if_neg hc]
    exact hy hc

theorem throw {e : ε} (h : ∀ s, P s → R s) :
    Triple P (MonadExcept.throw e : EStateM ε σ α) Q R := h

end Triple

def Keeps (P : σ → Prop) (x : EStateM ε σ α) : Prop := Triple P x (fun _ => P) P

namespace Keeps

theorem pure {a : α} : Keeps P (Pure.pure a : EStateM ε σ α) := fun _ h => h

theorem bind {x : EStateM ε σ α} {f : α → EStateM ε σ β} (hx : Keeps P x)
    (hf : ∀ a, Keeps P (f a)) : Keeps P (x >>= f) := Triple.bind hx hf

theorem ite {c : Prop} [Decidable c] {x y : EStateM ε σ α} (hx : Keeps P x) (hy : Keeps P y) :
    Keeps P (if c then x else y) := Triple.ite (fun _ => hx) fun _ => hy

end Keeps
