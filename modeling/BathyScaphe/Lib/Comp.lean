import Mathlib.Data.Nat.Basic

/-!
# Computations that raise or do not end

A computation reads and writes a state, may raise an exception, and may use up
the rounds its loops are given. `Follows` compares two computations of which the
second one tests for what makes the first one run on: where the second raises
that one exception, the first does not end, and everywhere else both do the
same. The rules go along the constructs; a loop takes an invariant with a bound
on the rounds that are left. `Returns` is for computations that do neither: the
result and the state satisfy a postcondition. `Ensures` gives the postcondition
only where the computation returns, and `Maintains` is for what holds of the
state after a computation whenever it held before and the computation returns.
`Carries` runs two computations side by side, up to a point from which on the
first one goes its own way.
-/

namespace Comp

inductive Outcome (ε σ α : Type) where
  | ok (a : α) (s : σ)
  | raised (e : ε)
  | timeout

end Comp

def Comp (ε σ α : Type) : Type := σ → Comp.Outcome ε σ α

namespace Comp

variable {ε σ α β : Type}

protected def pure (a : α) : Comp ε σ α := fun s => .ok a s

protected def bind (x : Comp ε σ α) (f : α → Comp ε σ β) : Comp ε σ β := fun s =>
  match x s with
  | .ok a s => f a s
  | .raised e => .raised e
  | .timeout => .timeout

instance : Monad (Comp ε σ) where
  pure := Comp.pure
  bind := Comp.bind

def get : Comp ε σ σ := fun s => .ok s s

def modify (f : σ → σ) : Comp ε σ Unit := fun s => .ok () (f s)

def when (c : Bool) (x : Comp ε σ Unit) : Comp ε σ Unit := if c then x else pure ()

def raise (e : ε) : Comp ε σ α := fun _ => .raised e

/-- A loop of at most `rounds` rounds: a round answers with what it goes on
with, or with the result. -/
def loop (body : β → Comp ε σ (β ⊕ α)) : Nat → β → Comp ε σ α
  | 0, _ => fun _ => .timeout
  | rounds + 1, b => do
    match ← body b with
    | .inl b => loop body rounds b
    | .inr a => pure a

theorem bind_of_ok {x : Comp ε σ α} {f : α → Comp ε σ β} (h : x s = .ok a s') :
    (x >>= f) s = f a s' := by
  show Comp.bind x f s = f a s'
  rw [Comp.bind, h]

theorem bind_of_raised {x : Comp ε σ α} {f : α → Comp ε σ β} (h : x s = .raised e) :
    (x >>= f) s = .raised e := by
  show Comp.bind x f s = .raised e
  rw [Comp.bind, h]

theorem bind_of_timeout {x : Comp ε σ α} {f : α → Comp ε σ β} (h : x s = .timeout) :
    (x >>= f) s = .timeout := by
  show Comp.bind x f s = .timeout
  rw [Comp.bind, h]

theorem bind_congr {x : Comp ε σ α} {f : α → Comp ε σ β} (h : x s = x s') :
    (x >>= f) s = (x >>= f) s' := by
  show Comp.bind x f s = Comp.bind x f s'
  rw [Comp.bind, Comp.bind, h]

theorem exists_of_bind {x : Comp ε σ α} {f : α → Comp ε σ β} (h : (x >>= f) s = .ok b s') :
    ∃ a s₁, x s = .ok a s₁ ∧ f a s₁ = .ok b s' := by
  cases hxs : x s with
  | ok a s₁ =>
    rw [bind_of_ok hxs] at h
    exact ⟨a, s₁, rfl, h⟩
  | raised e =>
    rw [bind_of_raised hxs] at h
    cases h
  | timeout =>
    rw [bind_of_timeout hxs] at h
    cases h

def Follows (endless : ε) (Q : α → σ → Prop) : Outcome ε σ α → Outcome ε σ α → Prop
  | .ok a s, .ok a' s' => a = a' ∧ s = s' ∧ Q a s
  | .raised e, .raised e' => e = e' ∧ e ≠ endless
  | .timeout, .raised e => e = endless
  | _, _ => False

section
variable {endless : ε} {Q Q' : α → σ → Prop} {R : β → σ → Prop}

theorem Follows.imp {o o' : Outcome ε σ α} (h : Follows endless Q o o')
    (hQ : ∀ a s, Q a s → Q' a s) : Follows endless Q' o o' := by
  cases o <;> cases o'
  case ok.ok => exact ⟨h.1, h.2.1, hQ _ _ h.2.2⟩
  all_goals exact h

theorem follows_of_ok {x : Comp ε σ α} (h : x s = .ok a s') (hQ : Q a s') :
    Follows endless Q (x s) (x s) := by
  rw [h]
  exact ⟨rfl, rfl, hQ⟩

theorem follows_pure (h : Q a s) :
    Follows endless Q ((pure a : Comp ε σ α) s) ((pure a : Comp ε σ α) s) := ⟨rfl, rfl, h⟩

theorem follows_get {Q : σ → σ → Prop} (h : Q s s) :
    Follows endless Q ((get : Comp ε σ σ) s) ((get : Comp ε σ σ) s) := ⟨rfl, rfl, h⟩

theorem follows_modify {Q : Unit → σ → Prop} (h : Q () (f s)) :
    Follows endless Q ((modify f : Comp ε σ Unit) s) ((modify f : Comp ε σ Unit) s) := ⟨rfl, rfl, h⟩

theorem follows_raise (h : e ≠ endless) :
    Follows endless Q ((raise e : Comp ε σ α) s) ((raise e : Comp ε σ α) s) := ⟨rfl, h⟩

theorem follows_bind {x x' : Comp ε σ α} {f f' : α → Comp ε σ β}
    (hx : Follows endless Q (x s) (x' s))
    (hf : ∀ a s, Q a s → Follows endless R (f a s) (f' a s)) :
    Follows endless R ((x >>= f) s) ((x' >>= f') s) := by
  show Follows endless R (Comp.bind x f s) (Comp.bind x' f' s)
  unfold Comp.bind
  cases hxs : x s <;> cases hxs' : x' s <;> rw [hxs, hxs'] at hx
  case ok.ok a s a' s' =>
    obtain ⟨rfl, rfl, hq⟩ := hx
    exact hf a s hq
  case raised.raised => exact hx
  case timeout.raised => exact hx
  all_goals exact hx.elim

theorem follows_ite {c : Prop} [Decidable c] {x x' y y' : Comp ε σ α}
    (hx : c → Follows endless Q (x s) (x' s)) (hy : ¬ c → Follows endless Q (y s) (y' s)) :
    Follows endless Q ((if c then x else y) s) ((if c then x' else y') s) := by
  by_cases hc : c
  · rw [if_pos hc, if_pos hc]
    exact hx hc
  · rw [if_neg hc, if_neg hc]
    exact hy hc

theorem follows_when {Q : Unit → σ → Prop} {x x' : Comp ε σ Unit}
    (hx : c = true → Follows endless Q (x s) (x' s)) (h : c = false → Q () s) :
    Follows endless Q (when c x s) (when c x' s) := by
  cases c with
  | false => exact follows_pure (h rfl)
  | true => exact hx rfl

/-- Both loops end when every round lowers the bound of the invariant and both
have more rounds than the bound. -/
theorem follows_loop {body body' : β → Comp ε σ (β ⊕ α)} (I : Nat → β → σ → Prop)
    (hbody : ∀ {n b s}, I n b s → Follows endless
      (fun r s => match r with
        | .inl b => ∃ m < n, I m b s
        | .inr a => Q a s) (body b s) (body' b s))
    (hrounds : n < rounds) (hrounds' : n < rounds') (h : I n b s) :
    Follows endless Q (loop body rounds b s) (loop body' rounds' b s) := by
  induction rounds generalizing rounds' n b s with
  | zero => exact absurd hrounds (Nat.not_lt_zero n)
  | succ rounds ih =>
    cases rounds' with
    | zero => exact absurd hrounds' (Nat.not_lt_zero n)
    | succ rounds' =>
      refine follows_bind (hbody h) fun r s hr => ?_
      cases r with
      | inl b =>
        obtain ⟨m, hm, hI⟩ := hr
        exact ih (Nat.lt_of_lt_of_le hm (Nat.le_of_lt_succ hrounds))
          (Nat.lt_of_lt_of_le hm (Nat.le_of_lt_succ hrounds')) hI
      | inr a => exact follows_pure hr

/-- The first computation ends if and only if the second does not raise. -/
theorem Follows.timeout_iff {o o' : Outcome ε σ α} (h : Follows endless Q o o') :
    o = .timeout ↔ o' = .raised endless := by
  cases o <;> cases o'
  case ok.ok => exact ⟨fun h => (by cases h), fun h => (by cases h)⟩
  case raised.raised e e' =>
    refine ⟨fun h => (by cases h), fun he => ?_⟩
    cases he
    exact absurd h.1 h.2
  case timeout.raised e => exact ⟨fun _ => congrArg _ h, fun _ => rfl⟩
  all_goals exact h.elim

theorem Outcome.ne_timeout_iff {o : Outcome ε σ α} :
    o ≠ .timeout ↔ (∃ a s, o = .ok a s) ∨ ∃ e, o = .raised e := by
  cases o with
  | ok a s => simp
  | raised e => simp
  | timeout => simp

theorem Follows.ne_raised {o : Outcome ε σ α} (h : Follows endless Q o o) :
    o ≠ .raised endless := by
  rintro rfl
  exact h.2 rfl

end

-- Computations that return

/-- The computation returns, with `Q` of the result and the state. -/
def Returns (Q : α → σ → Prop) : Outcome ε σ α → Prop
  | .ok a s => Q a s
  | _ => False

instance {Q : α → σ → Prop} [∀ a s, Decidable (Q a s)] : (o : Outcome ε σ α) →
    Decidable (Returns Q o)
  | .ok a s => inferInstanceAs (Decidable (Q a s))
  | .raised _ => isFalse id
  | .timeout => isFalse id

section
variable {Q Q' : α → σ → Prop} {R : β → σ → Prop}

theorem returns_iff_exists {o : Outcome ε σ α} : Returns Q o ↔ ∃ a s, o = .ok a s ∧ Q a s := by
  constructor
  · intro h
    cases o with
    | ok a s => exact ⟨a, s, rfl, h⟩
    | raised e => exact h.elim
    | timeout => exact h.elim
  · rintro ⟨a, s, rfl, h⟩
    exact h

theorem Returns.imp {o : Outcome ε σ α} (h : Returns Q o) (hQ : ∀ a s, Q a s → Q' a s) :
    Returns Q' o := by
  cases o with
  | ok a s => exact hQ a s h
  | raised e => exact h
  | timeout => exact h

theorem Returns.and {o : Outcome ε σ α} (h : Returns Q o) (h' : Returns Q' o) :
    Returns (fun a s => Q a s ∧ Q' a s) o := by
  cases o with
  | ok a s => exact ⟨h, h'⟩
  | raised e => exact h
  | timeout => exact h

theorem returns_pure (h : Q a s) : Returns Q ((pure a : Comp ε σ α) s) := h

theorem returns_get {Q : σ → σ → Prop} (h : Q s s) : Returns Q ((get : Comp ε σ σ) s) := h

theorem returns_modify {Q : Unit → σ → Prop} (h : Q () (f s)) :
    Returns Q ((modify f : Comp ε σ Unit) s) := h

theorem returns_bind {x : Comp ε σ α} {f : α → Comp ε σ β} (hx : Returns Q (x s))
    (hf : ∀ a s, Q a s → Returns R (f a s)) : Returns R ((x >>= f) s) := by
  obtain ⟨a, s', hxs, hQ⟩ := returns_iff_exists.mp hx
  rw [bind_of_ok hxs]
  exact hf a s' hQ

theorem returns_ite {c : Prop} [Decidable c] {x y : Comp ε σ α} (hx : c → Returns Q (x s))
    (hy : ¬ c → Returns Q (y s)) : Returns Q ((if c then x else y) s) := by
  split
  · rename_i hc
    exact hx hc
  · rename_i hc
    exact hy hc

theorem returns_loop {body : β → Comp ε σ (β ⊕ α)} (h : Returns (fun r s' => match r with
      | .inl b => Returns Q (loop body rounds b s')
      | .inr a => Q a s') (body b s)) : Returns Q (loop body (rounds + 1) b s) := by
  refine returns_bind h fun r s' hr => ?_
  cases r with
  | inl b => exact hr
  | inr a => exact hr

end

-- Postconditions

/-- Where the computation returns from a state with `P`, the result and the state have
`Q`. -/
def Ensures (P : σ → Prop) (x : Comp ε σ α) (Q : α → σ → Prop) : Prop :=
  ∀ s a s', P s → x s = .ok a s' → Q a s'

section
variable {P : σ → Prop} {Q Q' : α → σ → Prop} {R : β → σ → Prop}

theorem ensures_pure {a : α} (h : ∀ s, P s → Q a s) : Ensures P (pure a : Comp ε σ α) Q := by
  rintro s a s' hP ⟨⟩
  exact h s hP

theorem ensures_get : Ensures P (get : Comp ε σ σ) fun s s' => s = s' ∧ P s := by
  rintro s a s' hP ⟨⟩
  exact ⟨rfl, hP⟩

theorem ensures_modify {f : σ → σ} {Q : Unit → σ → Prop} (h : ∀ s, P s → Q () (f s)) :
    Ensures P (modify f : Comp ε σ Unit) Q := by
  rintro s a s' hP ⟨⟩
  exact h s hP

theorem ensures_raise (e : ε) : Ensures P (raise e : Comp ε σ α) Q := by
  rintro s a s' hP ⟨⟩

theorem ensures_bind {x : Comp ε σ α} {f : α → Comp ε σ β} (hx : Ensures P x Q)
    (hf : ∀ a, Ensures (Q a) (f a) R) : Ensures P (x >>= f) R := by
  intro s b s' hP hbind
  obtain ⟨a, s₁, hxs, hfa⟩ := exists_of_bind hbind
  exact hf a s₁ b s' (hx s a s₁ hP hxs) hfa

theorem ensures_ite {c : Prop} [Decidable c] {x y : Comp ε σ α} (hx : c → Ensures P x Q)
    (hy : ¬ c → Ensures P y Q) : Ensures P (if c then x else y) Q := by
  split
  · rename_i hc
    exact hx hc
  · rename_i hc
    exact hy hc

theorem Ensures.imp {x : Comp ε σ α} (h : Ensures P x Q) (hQ : ∀ a s, Q a s → Q' a s) :
    Ensures P x Q' := fun s a s' hP hx => hQ a s' (h s a s' hP hx)

theorem Ensures.weaken {P' : σ → Prop} {x : Comp ε σ α} (h : Ensures P x Q) (hP : ∀ s, P' s → P s) :
    Ensures P' x Q := fun s a s' hP' hx => h s a s' (hP s hP') hx

theorem Ensures.and {P' : σ → Prop} {x : Comp ε σ α} (h : Ensures P x Q) (h' : Ensures P' x Q') :
    Ensures (fun s => P s ∧ P' s) x fun a s => Q a s ∧ Q' a s := fun s a s' hP hx =>
  ⟨h s a s' hP.1 hx, h' s a s' hP.2 hx⟩

theorem ensures_of {K : Prop} {x : Comp ε σ α} (hK : ∀ s, P s → K) (h : K → Ensures P x Q) :
    Ensures P x Q := fun s a s' hP hx => h (hK s hP) s a s' hP hx

theorem ensures_true {x : Comp ε σ α} : Ensures P x fun _ _ => True := fun _ _ _ _ _ => trivial

/-- The loop that starts from the first pair comes to a round from the second one. -/
inductive Rounds (body : β → Comp ε σ (β ⊕ α)) : β → σ → β → σ → Prop
  | here (b : β) (s : σ) : Rounds body b s b s
  | more {b b₁ b' : β} {s s₁ s' : σ} :
      body b s = .ok (.inl b₁) s₁ → Rounds body b₁ s₁ b' s' → Rounds body b s b' s'

theorem Rounds.snoc {body : β → Comp ε σ (β ⊕ α)} {b b' b₁ : β} {s s' s₁ : σ}
    (h : Rounds body b s b' s') (hround : body b' s' = .ok (.inl b₁) s₁) :
    Rounds body b s b₁ s₁ := by
  induction h with
  | here b s => exact .more hround (.here b₁ s₁)
  | more hfirst _ ih => exact .more hfirst (ih hround)

theorem Rounds.append {body : β → Comp ε σ (β ⊕ α)} {b b' b₁ : β} {s s' s₁ : σ}
    (h : Rounds body b s b' s') (h' : Rounds body b' s' b₁ s₁) : Rounds body b s b₁ s₁ := by
  induction h with
  | here b s => exact h'
  | more hfirst _ ih => exact .more hfirst (ih h')

theorem exists_rounds_of_loop {body : β → Comp ε σ (β ⊕ α)} {b : β} {s s' : σ}
    {a : α} {rounds : Nat}
    (h : loop body rounds b s = .ok a s') : ∃ b' s₁, Rounds body b s b' s₁ ∧
      body b' s₁ = .ok (.inr a) s' := by
  induction rounds generalizing b s with
  | zero => cases h
  | succ rounds ih =>
    obtain ⟨r, s₁, hround, hrest⟩ := exists_of_bind h
    cases r with
    | inl b₁ =>
      obtain ⟨b', s₂, hrounds, hlast⟩ := ih hrest
      exact ⟨b', s₂, .more hround hrounds, hlast⟩
    | inr a =>
      cases hrest
      exact ⟨b, s, .here b s, hround⟩

def RoundEnds (I : β → σ → Prop) (Q : α → σ → Prop) : β ⊕ α → σ → Prop
  | .inl b => I b
  | .inr a => Q a

/-- What every round that the loop comes to keeps, and what the last one ensures. -/
theorem ensures_loop {body : β → Comp ε σ (β ⊕ α)} (I : β → σ → Prop) {b : β} {s : σ}
    (hbody : ∀ b' s', Rounds body b s b' s' → I b' s' → ∀ r s'', body b' s' = .ok r s'' →
      RoundEnds I Q r s'')
    (h : I b s) {a : α} {s' : σ} {rounds : Nat} (hloop : loop body rounds b s = .ok a s') :
    Q a s' := by
  induction rounds generalizing b s with
  | zero => cases hloop
  | succ rounds ih =>
    obtain ⟨r, s₁, hround, hrest⟩ := exists_of_bind hloop
    have hnext := hbody b s (.here b s) h r s₁ hround
    cases r with
    | inl b₁ => exact ih (fun b' s' hrounds => hbody b' s' (.more hround hrounds)) hnext hrest
    | inr a =>
      cases hrest
      exact hnext

theorem ensures_loop_all {body : β → Comp ε σ (β ⊕ α)} (I : β → σ → Prop)
    (hbody : ∀ b, Ensures (I b) (body b) (RoundEnds I Q)) (rounds : Nat) (b : β) :
    Ensures (I b) (loop body rounds b) Q := fun _ _ _ h hloop =>
  ensures_loop I (fun b' s' _ hI r s'' hround => hbody b' s' r s'' hI hround) h hloop

end

-- Invariants

def Maintains (I : σ → Prop) (x : Comp ε σ α) : Prop := ∀ s a s', I s → x s = .ok a s' → I s'

section
variable {I : σ → Prop}

theorem Maintains.ensures {x : Comp ε σ α} (h : Maintains I x) : Ensures I x fun _ => I := h

theorem maintains_pure (a : α) : Maintains I (pure a : Comp ε σ α) := ensures_pure fun _ h => h

theorem maintains_get : Maintains I (get : Comp ε σ σ) := ensures_get.imp fun _ _ h => h.1 ▸ h.2

theorem maintains_modify {f : σ → σ} (hf : ∀ s, I s → I (f s)) :
    Maintains I (modify f : Comp ε σ Unit) := ensures_modify hf

theorem maintains_raise (e : ε) : Maintains I (raise e : Comp ε σ α) := ensures_raise e

theorem maintains_bind {x : Comp ε σ α} {f : α → Comp ε σ β} (hx : Maintains I x)
    (hf : ∀ a, Maintains I (f a)) : Maintains I (x >>= f) := ensures_bind hx.ensures hf

theorem maintains_ite {c : Prop} [Decidable c] {x y : Comp ε σ α} (hx : Maintains I x)
    (hy : Maintains I y) : Maintains I (if c then x else y) :=
  ensures_ite (fun _ => hx) fun _ => hy

theorem maintains_when {x : Comp ε σ Unit} (c : Bool) (hx : Maintains I x) :
    Maintains I (when c x) := maintains_ite hx (maintains_pure ())

theorem maintains_loop {body : β → Comp ε σ (β ⊕ α)} (hbody : ∀ b, Maintains I (body b))
    (rounds : Nat) (b : β) : Maintains I (loop body rounds b) := by
  refine ensures_loop_all (fun _ => I) (fun b => (hbody b).ensures.imp fun r s h => ?_) rounds b
  cases r with
  | inl b => exact h
  | inr a => exact h

theorem Rounds.maintains {body : β → Comp ε σ (β ⊕ α)} {b b' : β} {s s' : σ}
    (hbody : ∀ b, Maintains I (body b)) (h : Rounds body b s b' s') (hI : I s) : I s' := by
  induction h with
  | here b s => exact hI
  | more hfirst _ ih => exact ih (hbody _ _ _ _ hI hfirst)

end

-- Two computations side by side

/-- From states with `R`, the second computation answers like the first one and the states
have `Q`, unless the first one came to a state that is `past`, which it does not leave. -/
structure Carries (past : σ → Prop) (R : σ → σ → Prop) (x y : Comp ε σ α) (Q : α → σ → σ → Prop) :
    Prop where
  maintains : Maintains past x
  follows : ∀ s s' a t, R s s' → x s = .ok a t → past t ∨ ∃ t', y s' = .ok a t' ∧ Q a t t'

section
variable {past : σ → Prop} {R R' : σ → σ → Prop} {Q Q' : α → σ → σ → Prop} {W : β → σ → σ → Prop}

theorem Carries.imp {x y : Comp ε σ α} (h : Carries past R x y Q)
    (hQ : ∀ a s s', Q a s s' → Q' a s s') :
    Carries past R x y Q' where
  maintains := h.maintains
  follows s s' a t hR hx := by
    obtain hpast | ⟨t', hy, hq⟩ := h.follows s s' a t hR hx
    · exact .inl hpast
    · exact .inr ⟨t', hy, hQ a t t' hq⟩

theorem Carries.weaken {x y : Comp ε σ α} (h : Carries past R x y Q)
    (hR : ∀ s s', R' s s' → R s s') :
    Carries past R' x y Q where
  maintains := h.maintains
  follows s s' a t hR' hx := h.follows s s' a t (hR s s' hR') hx

theorem Carries.frame {x y : Comp ε σ α} (h : Carries past R x y Q) (K : Prop) :
    Carries past (fun s s' => K ∧ R s s') x y fun a s s' => K ∧ Q a s s' where
  maintains := h.maintains
  follows s s' a t hR hx := by
    obtain hpast | ⟨t', hy, hq⟩ := h.follows s s' a t hR.2 hx
    · exact .inl hpast
    · exact .inr ⟨t', hy, hR.1, hq⟩

theorem carries_pure {a : α} (h : ∀ s s', R s s' → Q a s s') :
    Carries past R (pure a : Comp ε σ α) (pure a) Q where
  maintains := maintains_pure a
  follows := by
    rintro s s' _ _ hR ⟨⟩
    exact .inr ⟨s', rfl, h s s' hR⟩

theorem carries_pure_of {a a' : α} (heq : ∀ s s', R s s' → a' = a) (h : ∀ s s', R s s' → Q a s s') :
    Carries past R (pure a : Comp ε σ α) (pure a') Q where
  maintains := maintains_pure a
  follows := by
    rintro s s' _ _ hR ⟨⟩
    exact .inr ⟨s', congrArg (Outcome.ok · s') (heq s s' hR), h s s' hR⟩

theorem carries_modify {f g : σ → σ} {Q : Unit → σ → σ → Prop} (hf : ∀ s, past s → past (f s))
    (h : ∀ s s', R s s' → Q () (f s) (g s')) :
    Carries past R (modify f : Comp ε σ Unit) (modify g) Q where
  maintains := maintains_modify hf
  follows := by
    rintro s s' _ _ hR ⟨⟩
    exact .inr ⟨g s', rfl, h s s' hR⟩

theorem carries_raise {y : Comp ε σ α} (e : ε) : Carries past R (raise e) y Q where
  maintains := maintains_raise e
  follows := by rintro s s' _ _ hR ⟨⟩

theorem carries_bind {x y : Comp ε σ α} {f g : α → Comp ε σ β} (hx : Carries past R x y Q)
    (hf : ∀ a, Carries past (Q a) (f a) (g a) W) : Carries past R (x >>= f) (y >>= g) W where
  maintains := maintains_bind hx.maintains fun a => (hf a).maintains
  follows s s' b u hR h := by
    obtain ⟨a, t, hxs, hfa⟩ := exists_of_bind h
    obtain hpast | ⟨t', hy, hq⟩ := hx.follows s s' a t hR hxs
    · exact .inl ((hf a).maintains t b u hpast hfa)
    · rw [bind_of_ok hy]
      exact (hf a).follows t t' b u hq hfa

theorem carries_of {K : Prop} {x y : Comp ε σ α} (hK : ∀ s s', R s s' → K) (hx : Maintains past x)
    (h : K → Carries past R x y Q) : Carries past R x y Q where
  maintains := hx
  follows s s' a t hR hok := (h (hK s s' hR)).follows s s' a t hR hok

theorem carries_get {f g : σ → Comp ε σ β}
    (hf : ∀ p p', Carries past (fun s s' => R p p' ∧ R s s') (f p) (g p') W) :
    Carries past R (get >>= f) (get >>= g) W where
  maintains := maintains_bind maintains_get fun p => (hf p p).maintains
  follows s s' b u hR h := (hf s s').follows s s' b u ⟨hR, hR⟩ h

theorem carries_ite {c c' : Prop} [Decidable c] [Decidable c'] {x x' y y' : Comp ε σ α}
    (hc : ∀ s s', R s s' → (c ↔ c')) (hx : c → Carries past R x x' Q)
    (hy : ¬ c → Carries past R y y' Q) :
    Carries past R (if c then x else y) (if c' then x' else y') Q where
  maintains := ensures_ite (fun hcond => (hx hcond).maintains) fun hcond => (hy hcond).maintains
  follows s s' a t hR h := by
    by_cases hcond : c
    · rw [if_pos hcond] at h
      rw [if_pos ((hc s s' hR).mp hcond)]
      exact (hx hcond).follows s s' a t hR h
    · rw [if_neg hcond] at h
      rw [if_neg fun hcond' => hcond ((hc s s' hR).mpr hcond')]
      exact (hy hcond).follows s s' a t hR h

theorem carries_branch {c : Prop} [Decidable c] {x x' y y' : Comp ε σ α}
    (hx : Carries past R x x' Q) (hy : Carries past R y y' Q) :
    Carries past R (if c then x else y) (if c then x' else y') Q :=
  carries_ite (fun _ _ _ => Iff.rfl) (fun _ => hx) fun _ => hy

theorem carries_when {Q : Unit → σ → σ → Prop} {x y : Comp ε σ Unit} (c : Bool)
    (hx : Carries past R x y Q) (h : ∀ s s', R s s' → Q () s s') :
    Carries past R (when c x) (when c y) Q := carries_branch hx (carries_pure h)

/-- A round of both loops goes on with `I`, or ends them with `Q`. -/
def RoundCarries (I : β → σ → σ → Prop) (Q : α → σ → σ → Prop) : β ⊕ α → σ → σ → Prop
  | .inl b => I b
  | .inr a => Q a

theorem carries_loop {body body' : β → Comp ε σ (β ⊕ α)} (I : β → σ → σ → Prop)
    (hbody : ∀ b, Carries past (I b) (body b) (body' b) (RoundCarries I Q))
    (hrounds : rounds ≤ rounds')
    (b : β) :
    Carries past (I b) (loop body rounds b) (loop body' rounds' b) Q := by
  induction rounds generalizing rounds' b with
  | zero => exact ⟨fun _ _ _ _ h => (by cases h), fun _ _ _ _ _ h => (by cases h)⟩
  | succ rounds ih =>
    obtain ⟨rounds', rfl⟩ := Nat.exists_eq_add_of_lt hrounds
    refine carries_bind (hbody b) fun r => ?_
    cases r with
    | inl b => exact ih (Nat.le_add_right _ _) b
    | inr a => exact carries_pure fun _ _ h => h

theorem Rounds.carries {body body' : β → Comp ε σ (β ⊕ α)} {b b' : β} {s s' t : σ}
    (hbody : ∀ b, Carries past R (body b) (body' b) fun _ => R) (h : Rounds body b s b' s')
    (hpast : ¬ past s') (hR : R s t) : ∃ t', Rounds body' b t b' t' ∧ R s' t' := by
  induction h generalizing t with
  | here b s => exact ⟨t, .here b t, hR⟩
  | more hfirst hrest ih =>
    obtain hover | ⟨t₁, hround, h₁⟩ := (hbody _).follows _ _ _ _ hR hfirst
    · exact absurd (hrest.maintains (fun b => (hbody b).maintains) hover) hpast
    · obtain ⟨t', hrounds, h'⟩ := ih hpast h₁
      exact ⟨t', .more hround hrounds, h'⟩

end

end Comp
