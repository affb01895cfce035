import Mathlib.Data.List.Infix

/-!
# First occurrences

A list in which a pattern occurs is cut at the first occurrence. What stands behind the
occurrence does not decide whether it is the first one, and a fact about all lists is
proved from one occurrence to the next.
-/

namespace Occurrence

variable {α : Type u} {p s u v : List α} {c : α}

/-- No occurrence of `p` begins in `u`, which ends where `p` stands. -/
def IsFirst (p u v : List α) : Prop := ∀ i < u.length, ¬ p <+: (u ++ (p ++ v)).drop i

theorem prefix_append_congr (h : p.length ≤ u.length) (v w : List α) :
    p <+: u ++ v ↔ p <+: u ++ w := by
  rw [List.prefix_iff_eq_take, List.prefix_iff_eq_take, List.take_append_of_le_length h,
    List.take_append_of_le_length h]

theorem IsFirst.congr (h : IsFirst p u v) (w : List α) : IsFirst p u w := by
  intro i hi hstarts
  rw [List.drop_append_of_le_length hi.le, ← List.append_assoc] at hstarts
  have hlength : p.length ≤ (u.drop i ++ p).length := by
    rw [List.length_append]
    exact Nat.le_add_left _ _
  refine h i hi ?_
  rw [List.drop_append_of_le_length hi.le, ← List.append_assoc]
  exact (prefix_append_congr hlength w v).mp hstarts

theorem isFirst_nil : IsFirst p [] v := fun i hi => absurd hi (Nat.not_lt_zero i)

theorem isFirst_cons : IsFirst p (c :: u) v ↔ ¬ p <+: c :: (u ++ (p ++ v)) ∧ IsFirst p u v := by
  constructor
  · intro h
    refine ⟨h 0 (Nat.succ_pos _), fun i hi => ?_⟩
    exact h (i + 1) (Nat.succ_lt_succ hi)
  · rintro ⟨hhere, hlater⟩ i hi
    cases i with
    | zero => exact hhere
    | succ i => exact hlater i (Nat.lt_of_succ_lt_succ hi)

theorem isFirst_singleton : IsFirst [c] u v ↔ c ∉ u := by
  induction u with
  | nil => exact ⟨fun _ => List.not_mem_nil, fun _ => isFirst_nil⟩
  | cons d u ih => rw [isFirst_cons, ih, List.mem_cons, not_or, List.cons_prefix_cons,
      and_iff_left List.nil_prefix]

theorem exists_isFirst (h : p <:+: s) : ∃ u v, s = u ++ (p ++ v) ∧ IsFirst p u v := by
  induction s with
  | nil =>
    obtain rfl := List.infix_nil.mp h
    exact ⟨[], [], rfl, isFirst_nil⟩
  | cons c s ih =>
    by_cases hhere : p <+: c :: s
    · obtain ⟨v, hv⟩ := hhere
      exact ⟨[], v, hv.symm, isFirst_nil⟩
    · obtain ⟨u, v, rfl, hfirst⟩ := ih ((List.infix_cons_iff.mp h).resolve_left hhere)
      exact ⟨c :: u, v, rfl, isFirst_cons.mpr ⟨hhere, hfirst⟩⟩

theorem IsFirst.unique {u' v' : List α} (h : IsFirst p u v) (h' : IsFirst p u' v')
    (heq : u ++ (p ++ v) = u' ++ (p ++ v')) : u = u' ∧ v = v' := by
  have hlength : u.length = u'.length := by
    obtain hlt | hsame | hlt := Nat.lt_trichotomy u.length u'.length
    · refine absurd ?_ (h' u.length hlt)
      rw [← heq, List.drop_left]
      exact List.prefix_append p v
    · exact hsame
    · refine absurd ?_ (h u'.length hlt)
      rw [heq, List.drop_left]
      exact List.prefix_append p v'
  obtain ⟨rfl, hrest⟩ := List.append_inj heq hlength
  exact ⟨rfl, List.append_cancel_left hrest⟩

theorem IsFirst.not_infix_dropLast (h : IsFirst p u v) (hp : p ≠ []) :
    ¬ p <:+: u ++ p.dropLast := by
  rintro ⟨a, b, hab⟩
  have hsplit : u ++ (p ++ v) = a ++ (p ++ (b ++ (p.getLast hp :: v))) := by
    calc u ++ (p ++ v) = u ++ p.dropLast ++ (p.getLast hp :: v) := by
          rw [List.append_assoc, List.append_cons p.dropLast, List.dropLast_append_getLast]
      _ = a ++ (p ++ (b ++ (p.getLast hp :: v))) := by
        rw [← hab, List.append_assoc, List.append_assoc]
  refine h a.length ?_ ?_
  · have hlength := congrArg List.length hab
    have hpos := List.length_pos_iff.mpr hp
    simp only [List.length_append, List.length_dropLast] at hlength
    omega
  · rw [hsplit, List.drop_left]
    exact List.prefix_append p _

@[elab_as_elim] theorem induction {motive : List α → Prop} (hp : p ≠ [])
    (hnone : ∀ s, ¬ p <:+: s → motive s)
    (hfirst : ∀ u v, IsFirst p u v → motive v → motive (u ++ (p ++ v))) (s : List α) :
    motive s := by
  induction hn : s.length using Nat.strong_induction_on generalizing s with
  | _ n ih =>
    subst hn
    by_cases h : p <:+: s
    · obtain ⟨u, v, rfl, hv⟩ := exists_isFirst h
      apply hfirst u v hv
      apply ih v.length _ v rfl
      have hpos := List.length_pos_iff.mpr hp
      rw [List.length_append, List.length_append]
      omega
    · exact hnone s h

-- Last occurrences

/-- No occurrence of `p` ends in `v`, which begins behind `p`. -/
def IsLast (p u v : List α) : Prop := IsFirst p.reverse v.reverse u.reverse

theorem isLast_singleton : IsLast [c] u v ↔ c ∉ v := by
  rw [IsLast, List.reverse_singleton, isFirst_singleton, List.mem_reverse]

theorem reverse_occurrence (p u v : List α) :
    (u ++ (p ++ v)).reverse = v.reverse ++ (p.reverse ++ u.reverse) := by
  rw [List.reverse_append, List.reverse_append, List.append_assoc]

theorem exists_isLast (h : p <:+: s) : ∃ u v, s = u ++ (p ++ v) ∧ IsLast p u v := by
  obtain ⟨v, u, hsplit, hfirst⟩ := exists_isFirst (List.reverse_infix.mpr h)
  refine ⟨u.reverse, v.reverse, ?_, ?_⟩
  · rw [← List.reverse_inj, hsplit, reverse_occurrence, List.reverse_reverse, List.reverse_reverse]
  · rw [IsLast, List.reverse_reverse, List.reverse_reverse]
    exact hfirst

end Occurrence
