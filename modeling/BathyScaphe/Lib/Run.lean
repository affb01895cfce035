import Mathlib.Data.List.Basic

/-!
# Runs of a labelled transition function

`step s a` is `none` when the action `a` is not possible in `s`. A run takes a
list of actions; `Guarded` says that every action of a run is taken in a state
that allows it. The invariant rules reduce a property of all runs to one step.
-/

namespace Run

variable {σ : Type u} {α : Type v} {step : σ → α → Option σ}

def run (step : σ → α → Option σ) : σ → List α → Option σ
  | s, [] => some s
  | s, a :: as => (step s a).bind fun s' => run step s' as

def Guarded (step : σ → α → Option σ) (allowed : σ → α → Prop) : σ → List α → Prop
  | _, [] => True
  | s, a :: as => allowed s a ∧ ∀ s', step s a = some s' → Guarded step allowed s' as

theorem run_cons : run step s (a :: as) = some s'' ↔
    ∃ s', step s a = some s' ∧ run step s' as = some s'' := by
  simp [run, Option.bind_eq_some_iff]

theorem run_append : run step s (as ++ bs) = some s'' ↔
    ∃ s', run step s as = some s' ∧ run step s' bs = some s'' := by
  induction as generalizing s with
  | nil => simp [run]
  | cons a as ih =>
    simp only [List.cons_append, run_cons, ih]
    constructor
    · rintro ⟨s₁, h₁, s', hrun, hrun'⟩
      exact ⟨s', ⟨s₁, h₁, hrun⟩, hrun'⟩
    · rintro ⟨s', ⟨s₁, h₁, hrun⟩, hrun'⟩
      exact ⟨s₁, h₁, s', hrun, hrun'⟩

theorem guarded_cons {allowed : σ → α → Prop} (h : step s a = some s') (ha : allowed s a)
    (has : Guarded step allowed s' as) : Guarded step allowed s (a :: as) :=
  ⟨ha, fun _ h' => Option.some.inj (h.symm.trans h') ▸ has⟩

theorem guarded_of_append {allowed : σ → α → Prop} (h : Guarded step allowed s (as ++ bs)) :
    Guarded step allowed s as := by
  induction as generalizing s with
  | nil => trivial
  | cons a as ih => exact ⟨h.1, fun s' hs' => ih (h.2 s' hs')⟩

theorem Guarded.and {allowed allowed' : σ → α → Prop} (h : Guarded step allowed s as)
    (h' : Guarded step allowed' s as) :
    Guarded step (fun s a => allowed s a ∧ allowed' s a) s as := by
  induction as generalizing s with
  | nil => trivial
  | cons a as ih => exact ⟨⟨h.1, h'.1⟩, fun s' hs' => ih (h.2 s' hs') (h'.2 s' hs')⟩

theorem guarded_congr {allowed allowed' : σ → α → Prop} (h : ∀ s a, allowed s a ↔ allowed' s a) :
    Guarded step allowed s as ↔ Guarded step allowed' s as := by
  induction as generalizing s with
  | nil => exact Iff.rfl
  | cons a as ih => exact and_congr (h s a) (forall_congr' fun s' => imp_congr_right fun _ => ih)

theorem Guarded.imp {allowed allowed' : σ → α → Prop} {I : σ → Prop}
    (hstep : ∀ {s a}, I s → allowed s a → allowed' s a ∧ ∀ s', step s a = some s' → I s')
    (hs : I s) (hguard : Guarded step allowed s as) : Guarded step allowed' s as := by
  induction as generalizing s with
  | nil => trivial
  | cons a as ih =>
    obtain ⟨ha, hnext⟩ := hstep hs hguard.1
    exact ⟨ha, fun s' hs' => ih (hnext s' hs') (hguard.2 s' hs')⟩

/-- Where the step is always possible, the invariant holds at the end of every
run. -/
theorem guarded_total {allowed : σ → α → Prop} {I : σ → Prop}
    (hstep : ∀ {s a}, I s → allowed s a → ∃ s', step s a = some s' ∧ I s')
    (hguard : Guarded step allowed s as) (hs : I s) : ∃ s', run step s as = some s' ∧ I s' := by
  induction as generalizing s with
  | nil => exact ⟨s, rfl, hs⟩
  | cons a as ih =>
    obtain ⟨s₁, h₁, hs₁⟩ := hstep hs hguard.1
    obtain ⟨s', hrun, hs'⟩ := ih (hguard.2 s₁ h₁) hs₁
    exact ⟨s', run_cons.mpr ⟨s₁, h₁, hrun⟩, hs'⟩

theorem guarded_of_forall {allowed : σ → α → Prop} (h : ∀ a ∈ as, ∀ s, allowed s a) (s : σ) :
    Guarded step allowed s as := by
  induction as generalizing s with
  | nil => trivial
  | cons a as ih =>
    exact ⟨h a (by simp) s, fun s' _ => ih (fun b hb => h b (List.mem_cons_of_mem a hb)) s'⟩

theorem guarded_invariant {allowed : σ → α → Prop} {I : σ → Prop}
    (hstep : ∀ {s a s'}, I s → allowed s a → step s a = some s' → I s')
    (hguard : Guarded step allowed s as) (hrun : run step s as = some s') (hs : I s) : I s' := by
  induction as generalizing s with
  | nil => exact Option.some.inj hrun ▸ hs
  | cons a as ih =>
    obtain ⟨s₁, h₁, hrun⟩ := run_cons.mp hrun
    exact ih (hguard.2 s₁ h₁) hrun (hstep hs hguard.1 h₁)

theorem run_invariant {I : σ → Prop} (hstep : ∀ {s a s'}, I s → step s a = some s' → I s')
    (hrun : run step s as = some s') (hs : I s) : I s' := by
  induction as generalizing s with
  | nil => exact Option.some.inj hrun ▸ hs
  | cons a as ih =>
    obtain ⟨s₁, h₁, hrun⟩ := run_cons.mp hrun
    exact ih hrun (hstep hs h₁)

/-- Two systems whose steps are possible together go together through every run. -/
theorem run_rel {τ : Type w} {step' : τ → α → Option τ} {t : τ} {R : σ → τ → Prop}
    (hstep : ∀ {s t a}, R s t → Option.Rel R (step s a) (step' t a)) (h : R s t) :
    Option.Rel R (run step s as) (run step' t as) := by
  induction as generalizing s t with
  | nil => exact .some h
  | cons a as ih =>
    simp only [run]
    cases hs : step s a with
    | none =>
      cases ht : step' t a with
      | none => exact .none
      | some t' => exact absurd (hs ▸ ht ▸ hstep h) (by rintro ⟨⟩)
    | some s' =>
      cases ht : step' t a with
      | none => exact absurd (hs ▸ ht ▸ hstep h) (by rintro ⟨⟩)
      | some t' =>
        cases hs ▸ ht ▸ hstep h with
        | some h' => exact ih h'

/-- Every state of a run has the property just where each step is one of those that keep
it. -/
theorem holds_iff {allowed : σ → α → Prop} {I P : σ → Prop} (hI : ∀ {s}, I s → P s)
    (hstep : ∀ {s a s'}, I s → allowed s a → step s a = some s' → I s')
    (hbad : ∀ {s a}, I s → ¬allowed s a → ∃ s', step s a = some s' ∧ ¬P s') (hs : I s) :
    (∀ pre, pre <+: as → ∀ s', run step s pre = some s' → P s') ↔ Guarded step allowed s as := by
  constructor
  · intro hprefixes
    induction as generalizing s with
    | nil => trivial
    | cons a as ih =>
      have ha : allowed s a := by
        by_contra hnot
        obtain ⟨s', h', hP⟩ := hbad hs hnot
        exact hP (hprefixes [a] (by simp) s' (run_cons.mpr ⟨s', h', rfl⟩))
      refine ⟨ha, fun s₁ h₁ => ih (hstep hs ha h₁) fun pre hpre s' hrun => ?_⟩
      exact hprefixes (a :: pre) (by simpa using hpre) s' (run_cons.mpr ⟨s₁, h₁, hrun⟩)
  · intro hguard pre hpre s' hrun
    obtain ⟨rest, rfl⟩ := hpre
    exact hI (guarded_invariant hstep (guarded_of_append hguard) hrun hs)

/-- A system follows another one through every state of a run just where each
step is one of those that it follows. -/
theorem follows_iff {τ : Type w} {s : σ} {t : τ} {f : σ → α → σ} {g : τ → α → τ}
    {I : σ → Prop} {R : σ → τ → Prop}
    {allowed : σ → α → Prop} (hinv : ∀ {s a}, I s → I (f s a))
    (hstep : ∀ {s t a}, I s → R s t → (R (f s a) (g t a) ↔ allowed s a)) (hs : I s) (h : R s t) :
    (∀ pre, pre <+: as → R (pre.foldl f s) (pre.foldl g t)) ↔
      Guarded (fun s a => some (f s a)) allowed s as := by
  induction as generalizing s t with
  | nil => simpa [Guarded] using h
  | cons a as ih =>
    constructor
    · intro hprefixes
      have hfirst : R (f s a) (g t a) := hprefixes [a] (by simp)
      refine guarded_cons rfl ((hstep hs h).mp hfirst) ((ih (hinv hs) hfirst).mp fun pre hpre => ?_)
      exact hprefixes (a :: pre) (by simpa using hpre)
    · intro hguard pre hpre
      cases pre with
      | nil => exact h
      | cons b pre =>
        obtain ⟨rfl, hrest⟩ := List.cons_prefix_cons.mp hpre
        exact (ih (hinv hs) ((hstep hs h).mpr hguard.1)).mpr (hguard.2 _ rfl) pre hrest

/-- A system that may stop follows another one through every state of a run just where
each step is one that it takes and follows. -/
theorem follows_partial_iff {τ : Type w} {s : σ} {t : τ} {g : τ → α → τ} {I R : σ → τ → Prop}
    {legal : α → Prop} {allowed : σ → α → Prop}
    (hinv : ∀ {s t a s'}, legal a → I s t → step s a = some s' → I s' (g t a))
    (hstep : ∀ {s t a}, legal a → I s t → R s t →
      ((∃ s', step s a = some s' ∧ R s' (g t a)) ↔ allowed s a))
    (hlegal : ∀ a ∈ as, legal a) (hs : I s t) (h : R s t) :
    (∀ pre, pre <+: as → ∃ s', run step s pre = some s' ∧ R s' (pre.foldl g t)) ↔
      Guarded step allowed s as := by
  induction as generalizing s t with
  | nil => exact iff_of_true (fun pre hpre =>
      ⟨s, by rw [List.prefix_nil.mp hpre]; exact ⟨rfl, h⟩⟩) trivial
  | cons a as ih =>
    have ha := hlegal a List.mem_cons_self
    have has := fun b hb => hlegal b (List.mem_cons_of_mem a hb)
    constructor
    · intro hprefixes
      obtain ⟨s₁, hrun, hfirst⟩ := hprefixes [a] (by simp)
      obtain ⟨s', h₁, hs'⟩ := run_cons.mp hrun
      obtain rfl := Option.some.inj hs'
      refine guarded_cons h₁ ((hstep ha hs h).mp ⟨s', h₁, hfirst⟩) ?_
      refine (ih has (hinv ha hs h₁) hfirst).mp fun pre hpre => ?_
      obtain ⟨s₂, hrun₂, h₂⟩ := hprefixes (a :: pre) (by simpa using hpre)
      obtain ⟨s₃, h₃, hrun₃⟩ := run_cons.mp hrun₂
      obtain rfl := Option.some.inj (h₁.symm.trans h₃)
      exact ⟨s₂, hrun₃, h₂⟩
    · intro hguard pre hpre
      cases pre with
      | nil => exact ⟨s, rfl, h⟩
      | cons b pre =>
        obtain ⟨rfl, hrest⟩ := List.cons_prefix_cons.mp hpre
        obtain ⟨s₁, h₁, hfirst⟩ := (hstep ha hs h).mpr hguard.1
        obtain ⟨s', hrun, hs'⟩ := (ih has (hinv ha hs h₁) hfirst).mpr (hguard.2 s₁ h₁) pre hrest
        exact ⟨s', run_cons.mpr ⟨s₁, h₁, hrun⟩, hs'⟩

end Run
