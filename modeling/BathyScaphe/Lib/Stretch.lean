import Mathlib.Data.List.Infix
import Mathlib.Tactic.ByContra

/-!
# Removing the stretches between two tags

A stretch runs from an opening tag through the next closing tag. `remove skip` takes
the stretches out from the left and passes over `skip` elements behind each of them,
so `remove 0` takes out all of them. Both give the same text exactly when no stretch
begins among the elements that are passed over. -/

namespace Stretch

/-- No occurrence of `other` begins inside an occurrence of `tag`. -/
def Apart (tag other : List β) : Prop :=
  ∀ s, tag <+: s → ∀ i, i < tag.length → ¬ other <+: s.drop i

/-- Two tags, and what elements are taken for equal when they are searched. -/
structure Tags (α : Type u) (β : Type v) where
  fold : α → β
  opening : List β
  closing : List β
  opening_pos : 0 < opening.length
  closing_pos : 0 < closing.length
  opening_apart : Apart opening closing
  closing_apart : Apart closing opening

variable {α : Type u} {β : Type v} [DecidableEq β]

section
variable (fold : α → β) (tag : List β)

def behind : List α → Option (List α)
  | [] => none
  | c :: s => if tag <+: (c :: s).map fold then some ((c :: s).drop tag.length) else behind s

theorem behind_drop {n : Nat} {s : List α} (h : ∀ i < n, ¬ tag <+: (s.drop i).map fold) :
    behind fold tag s = behind fold tag (s.drop n) := by
  induction n generalizing s with
  | zero => rw [List.drop_zero]
  | succ n ih =>
    cases s with
    | nil => rfl
    | cons c s =>
      have hhere : ¬ tag <+: (c :: s).map fold := h 0 n.succ_pos
      rw [behind, if_neg hhere, List.drop_succ_cons]
      apply ih
      intro i hi
      exact h (i + 1) (Nat.succ_lt_succ hi)

theorem behind_of_prefix {s : List α} (htag : 0 < tag.length) (h : tag <+: s.map fold) :
    behind fold tag s = some (s.drop tag.length) := by
  cases s with
  | nil =>
    have hnil : tag = [] := List.prefix_nil.mp h
    rw [hnil] at htag
    cases htag
  | cons c s => rw [behind, if_pos h]

theorem behind_eq_none {s : List α} (h : ∀ i, ¬ tag <+: (s.drop i).map fold) :
    behind fold tag s = none := by
  rw [behind_drop fold tag (n := s.length) fun i _ => h i, List.drop_length, behind]

theorem length_behind_lt {s rest : List α} (htag : 0 < tag.length)
    (h : behind fold tag s = some rest) : rest.length < s.length := by
  induction s with
  | nil => cases h
  | cons c s ih =>
    rw [behind] at h
    split at h
    · cases h
      rw [List.length_drop, List.length_cons]
      omega
    · exact Nat.lt_succ_of_lt (ih h)

/-- Behind a place where no occurrence follows there is none either. -/
theorem behind_drop_eq_none {s : List α} (h : behind fold tag s = none) (n : Nat) :
    behind fold tag (s.drop n) = none := by
  induction n generalizing s with
  | zero => rwa [List.drop_zero]
  | succ n ih =>
    cases s with
    | nil => rfl
    | cons c s =>
      rw [behind] at h
      split at h
      · cases h
      · exact ih h

end

namespace Tags
variable (t : Tags α β)

def stretchEnd (s : List α) : Option (List α) :=
  if t.opening <+: s.map t.fold then behind t.fold t.closing (s.drop t.opening.length) else none

variable {t} {s rest : List α}

theorem length_stretchEnd_lt (h : t.stretchEnd s = some rest) : rest.length < s.length := by
  rw [stretchEnd] at h
  split at h
  · have hlt := length_behind_lt _ _ t.closing_pos h
    rw [List.length_drop] at hlt
    omega
  · cases h

/-- The closing tag may as well be searched from the place of the opening one. -/
theorem stretchEnd_eq_behind (h : t.opening <+: s.map t.fold) :
    t.stretchEnd s = behind t.fold t.closing s := by
  rw [stretchEnd, if_pos h]
  symm
  apply behind_drop
  intro i hi
  rw [List.map_drop]
  exact t.opening_apart _ h i hi

variable (t) in
def remove (skip : Nat) (s : List α) : List α :=
  match s with
  | [] => []
  | c :: s =>
    match _h : t.stretchEnd (c :: s) with
    | some rest => rest.take skip ++ remove skip (rest.drop skip)
    | none => c :: remove skip s
termination_by s.length
decreasing_by
  · have := length_stretchEnd_lt _h
    rw [List.length_drop]
    omega
  · exact Nat.lt_succ_self _

variable (t) in
def rests (s : List α) : List (List α) :=
  match s with
  | [] => []
  | c :: s =>
    match _h : t.stretchEnd (c :: s) with
    | some rest => rest :: rests rest
    | none => rests s
termination_by s.length
decreasing_by
  · exact length_stretchEnd_lt _h
  · exact Nat.lt_succ_self _

variable (t) in
/-- No stretch begins among the elements that are passed over. -/
def Spaced (skip : Nat) (s : List α) : Prop :=
  ∀ rest ∈ t.rests s, ∀ i < skip, t.stretchEnd (rest.drop i) = none

variable {skip : Nat} {c : α}

@[simp] theorem remove_nil : t.remove skip [] = [] := by
  rw [remove]

theorem remove_cons_none (h : t.stretchEnd (c :: s) = none) :
    t.remove skip (c :: s) = c :: t.remove skip s := by
  rw [remove]
  split
  · rename_i hrest
    rw [h] at hrest
    cases hrest
  · rfl

theorem remove_cons_some (h : t.stretchEnd (c :: s) = some rest) :
    t.remove skip (c :: s) = rest.take skip ++ t.remove skip (rest.drop skip) := by
  rw [remove]
  split
  · rename_i hrest
    rw [h] at hrest
    cases hrest
    rfl
  · rename_i hrest
    rw [h] at hrest
    cases hrest

theorem remove_zero_cons_some (h : t.stretchEnd (c :: s) = some rest) :
    t.remove 0 (c :: s) = t.remove 0 rest := by
  rw [remove_cons_some h, List.take_zero, List.drop_zero, List.nil_append]

@[simp] theorem rests_nil : t.rests [] = [] := by
  rw [rests]

theorem rests_cons_none (h : t.stretchEnd (c :: s) = none) : t.rests (c :: s) = t.rests s := by
  rw [rests]
  split
  · rename_i hrest
    rw [h] at hrest
    cases hrest
  · rfl

theorem rests_cons_some (h : t.stretchEnd (c :: s) = some rest) :
    t.rests (c :: s) = rest :: t.rests rest := by
  rw [rests]
  split
  · rename_i hrest
    rw [h] at hrest
    cases hrest
    rfl
  · rename_i hrest
    rw [h] at hrest
    cases hrest

theorem remove_of_some (h : t.stretchEnd s = some rest) :
    t.remove skip s = rest.take skip ++ t.remove skip (rest.drop skip) := by
  cases s with
  | nil => exact absurd (length_stretchEnd_lt h) (Nat.not_lt_zero _)
  | cons c s => exact remove_cons_some h

theorem remove_of_none {n : Nat} (h : ∀ i < n, t.stretchEnd (s.drop i) = none) :
    t.remove skip s = s.take n ++ t.remove skip (s.drop n) := by
  induction n generalizing s with
  | zero => rw [List.take_zero, List.drop_zero, List.nil_append]
  | succ n ih =>
    cases s with
    | nil => simp
    | cons c s =>
      rw [remove_cons_none (h 0 n.succ_pos), List.take_succ_cons, List.drop_succ_cons,
        List.cons_append, ih]
      intro i hi
      exact h (i + 1) (Nat.succ_lt_succ hi)

theorem remove_eq_self (h : ∀ i, t.stretchEnd (s.drop i) = none) : t.remove skip s = s := by
  rw [remove_of_none (n := s.length) fun i _ => h i, List.take_length, List.drop_length,
    remove_nil, List.append_nil]

-- What is kept

theorem length_remove_behind_le (h : behind t.fold t.closing s = some rest) :
    (t.remove 0 rest).length ≤ (t.remove 0 s).length := by
  induction s with
  | nil => cases h
  | cons c s ih =>
    by_cases hopening : t.opening <+: (c :: s).map t.fold
    · have hend := stretchEnd_eq_behind hopening
      rw [h] at hend
      rw [remove_zero_cons_some hend]
    · by_cases hclosing : t.closing <+: (c :: s).map t.fold
      · rw [behind, if_pos hclosing] at h
        cases h
        -- no stretch begins in a closing tag
        have hnone : ∀ i < t.closing.length, t.stretchEnd ((c :: s).drop i) = none := by
          intro i hi
          rw [stretchEnd, if_neg]
          rw [List.map_drop]
          exact t.closing_apart _ hclosing i hi
        rw [remove_of_none hnone, List.length_append]
        omega
      · rw [behind, if_neg hclosing] at h
        have hnone : t.stretchEnd (c :: s) = none := by
          rw [stretchEnd, if_neg hopening]
        rw [remove_cons_none hnone, List.length_cons]
        exact Nat.le_succ_of_le (ih h)

/-- An element more at which a stretch begins keeps nothing more. -/
theorem length_remove_stretchEnd_le (h : t.stretchEnd (c :: s) = some rest) :
    (t.remove 0 rest).length ≤ (t.remove 0 s).length := by
  have hopening : t.opening <+: (c :: s).map t.fold := by
    by_contra hnot
    rw [stretchEnd, if_neg hnot] at h
    cases h
  have hclosing : ¬ t.closing <+: (c :: s).map t.fold := t.opening_apart _ hopening 0 t.opening_pos
  rw [stretchEnd_eq_behind hopening, behind, if_neg hclosing] at h
  exact length_remove_behind_le h

theorem length_remove_cons_le : (t.remove 0 (c :: s)).length ≤ (t.remove 0 s).length + 1 := by
  cases h : t.stretchEnd (c :: s) with
  | none => rw [remove_cons_none h, List.length_cons]
  | some rest =>
    rw [remove_zero_cons_some h]
    exact Nat.le_succ_of_le (length_remove_stretchEnd_le h)

theorem length_remove_le_drop (n : Nat) :
    (t.remove 0 s).length ≤ (s.take n ++ t.remove 0 (s.drop n)).length := by
  induction n generalizing s with
  | zero => rw [List.take_zero, List.drop_zero, List.nil_append]
  | succ n ih =>
    cases s with
    | nil => simp
    | cons c s =>
      have hcons := length_remove_cons_le (t := t) (c := c) (s := s)
      have htail := ih (s := s)
      rw [List.take_succ_cons, List.drop_succ_cons, List.cons_append, List.length_cons]
      omega

theorem length_remove_lt_drop {i n : Nat} (hi : i < n) (h : t.stretchEnd (s.drop i) = some rest) :
    (t.remove 0 s).length < (s.take n ++ t.remove 0 (s.drop n)).length := by
  induction n generalizing s i with
  | zero => exact absurd hi (Nat.not_lt_zero i)
  | succ n ih =>
    cases s with
    | nil =>
      rw [List.drop_nil] at h
      exact absurd (length_stretchEnd_lt h) (Nat.not_lt_zero _)
    | cons c s =>
      rw [List.take_succ_cons, List.drop_succ_cons, List.cons_append, List.length_cons]
      cases i with
      | zero =>
        have hhere := length_remove_stretchEnd_le h
        have htail := length_remove_le_drop (t := t) (s := s) n
        rw [List.drop_zero] at h
        rw [remove_zero_cons_some h]
        omega
      | succ i =>
        have htail := ih (Nat.lt_of_succ_lt_succ hi) h
        have hcons := length_remove_cons_le (t := t) (c := c) (s := s)
        omega

theorem length_remove_zero_le : (t.remove 0 s).length ≤ (t.remove skip s).length := by
  induction hn : s.length using Nat.strong_induction_on generalizing s with
  | _ n ih =>
    subst hn
    cases s with
    | nil => simp
    | cons c s =>
      cases h : t.stretchEnd (c :: s) with
      | none =>
        rw [remove_cons_none h, remove_cons_none h, List.length_cons, List.length_cons]
        exact Nat.succ_le_succ (ih s.length (Nat.lt_succ_self _) rfl)
      | some rest =>
        have hlt : (rest.drop skip).length < (c :: s).length := by
          have := length_stretchEnd_lt h
          rw [List.length_drop]
          omega
        have hdrop := length_remove_le_drop (t := t) (s := rest) skip
        have hrest := ih _ hlt rfl
        rw [remove_zero_cons_some h, remove_cons_some h]
        rw [List.length_append] at hdrop ⊢
        omega

-- When nothing is missed

theorem spaced_cons_some (h : t.stretchEnd (c :: s) = some rest) :
    t.Spaced skip (c :: s) ↔ (∀ i < skip, t.stretchEnd (rest.drop i) = none) ∧
      t.Spaced skip rest := by
  rw [Spaced, rests_cons_some h, List.forall_mem_cons]
  rfl

theorem remove_eq_iff : t.remove skip s = t.remove 0 s ↔ t.Spaced skip s := by
  induction hn : s.length using Nat.strong_induction_on generalizing s with
  | _ n ih =>
    subst hn
    cases s with
    | nil => simp [Spaced]
    | cons c s =>
      cases h : t.stretchEnd (c :: s) with
      | none =>
        have htail := ih s.length (Nat.lt_succ_self _) rfl
        rw [remove_cons_none h, remove_cons_none h, Spaced, rests_cons_none h, List.cons.injEq,
          htail, Spaced]
        simp
      | some rest =>
        have hrest := ih rest.length (length_stretchEnd_lt h) rfl
        rw [spaced_cons_some h, ← hrest, remove_cons_some h, remove_zero_cons_some h]
        by_cases hnone : ∀ i < skip, t.stretchEnd (rest.drop i) = none
        · rw [← remove_of_none hnone]
          exact ⟨fun heq => ⟨hnone, heq⟩, And.right⟩
        · refine ⟨fun heq => ?_, fun hboth => absurd hboth.1 hnone⟩
          obtain ⟨i, hi, hmissed⟩ : ∃ i, i < skip ∧ t.stretchEnd (rest.drop i) ≠ none := by
            simpa using hnone
          obtain ⟨far, hfar⟩ := Option.ne_none_iff_exists'.mp hmissed
          have hlt := length_remove_lt_drop hi hfar
          have hle : (t.remove 0 (rest.drop skip)).length ≤
            (t.remove skip (rest.drop skip)).length :=
            length_remove_zero_le
          have hlength := congrArg List.length heq
          rw [List.length_append] at hlt hlength
          omega

end Tags

end Stretch
