import Mathlib.Data.List.Infix

/-!
# Pattern matching with two wildcards

The `LIKE` of SQL over any alphabet: `many` stands for any run of characters and
`one` for any single character, every other character for those it agrees with
under `fold`.
-/

/-- The two wildcards and the reading under which characters are compared. -/
structure Wildcards (α β : Type) where
  many : α
  one : α
  fold : α → β

namespace Wildcards

variable {α β : Type} [DecidableEq α] [DecidableEq β] (w : Wildcards α β)

def like : List α → List α → Bool
  | [], text => text.isEmpty
  | p :: pattern, text =>
    if p = w.many then
      text.tails.any (like pattern)
    else
      match text with
      | [] => false
      | c :: text => (p = w.one ∨ w.fold p = w.fold c) && like pattern text

def isLiteral (pattern : List α) : Bool := pattern.all fun p => p ≠ w.many && p ≠ w.one

variable {w} {v text : List α}

theorem like_literal_append (hv : w.isLiteral v) (pattern : List α) :
    w.like (v ++ pattern) text ↔
      ∃ s rest, text = s ++ rest ∧ s.map w.fold = v.map w.fold ∧ w.like pattern rest := by
  induction v generalizing text with
  | nil =>
    constructor
    · intro h
      exact ⟨[], text, rfl, rfl, h⟩
    · rintro ⟨s, rest, rfl, hs, h⟩
      obtain rfl := List.map_eq_nil_iff.mp hs
      exact h
  | cons p v ih =>
    simp only [isLiteral, List.all_cons, Bool.and_eq_true, decide_eq_true_eq] at hv
    obtain ⟨⟨hmany, hone⟩, hv⟩ := hv
    cases text with
    | nil => simp [like, hmany]
    | cons c text =>
      simp only [List.cons_append, like, hmany, if_false, hone, false_or, Bool.and_eq_true,
        decide_eq_true_eq, ih hv]
      constructor
      · rintro ⟨hc, s, rest, rfl, hs, h⟩
        exact ⟨c :: s, rest, rfl, by simp [hc, hs], h⟩
      · rintro ⟨s, rest, htext, hs, h⟩
        cases s with
        | nil => simp at hs
        | cons d s =>
          simp only [List.cons_append, List.cons.injEq] at htext
          obtain ⟨rfl, rfl⟩ := htext
          simp only [List.map_cons, List.cons.injEq] at hs
          exact ⟨hs.1.symm, s, rest, rfl, hs.2, h⟩

theorem like_many_cons (pattern : List α) :
    w.like (w.many :: pattern) text ↔ ∃ s rest, text = s ++ rest ∧ w.like pattern rest := by
  simp only [like, if_true, List.any_eq_true, List.mem_tails]
  constructor
  · rintro ⟨rest, ⟨s, rfl⟩, h⟩
    exact ⟨s, rest, rfl, h⟩
  · rintro ⟨s, rest, rfl, h⟩
    exact ⟨rest, ⟨s, rfl⟩, h⟩

theorem like_nil : w.like [] text ↔ text = [] := List.isEmpty_iff

theorem like_literal (hv : w.isLiteral v) : w.like v text ↔ text.map w.fold = v.map w.fold := by
  have h : w.like (v ++ []) text ↔ _ := like_literal_append hv []
  simp only [List.append_nil, like_nil] at h
  rw [h]
  constructor
  · rintro ⟨s, rest, rfl, hs, rfl⟩
    rwa [List.append_nil]
  · intro hs
    exact ⟨text, [], (List.append_nil text).symm, hs, rfl⟩

theorem like_literal_many (hv : w.isLiteral v) :
    w.like (v ++ [w.many]) text ↔ v.map w.fold <+: text.map w.fold := by
  rw [like_literal_append hv]
  constructor
  · rintro ⟨s, rest, rfl, hs, -⟩
    exact ⟨rest.map w.fold, by rw [List.map_append, hs]⟩
  · rintro ⟨rest, h⟩
    obtain ⟨s, rest, rfl, hs, rfl⟩ := List.map_eq_append_iff.mp h.symm
    exact ⟨s, rest, rfl, hs, (like_many_cons []).mpr ⟨rest, [], (List.append_nil rest).symm, rfl⟩⟩

theorem like_many_literal (hv : w.isLiteral v) :
    w.like (w.many :: v) text ↔ v.map w.fold <:+ text.map w.fold := by
  rw [like_many_cons]
  constructor
  · rintro ⟨s, rest, rfl, h⟩
    exact ⟨s.map w.fold, by rw [List.map_append, (like_literal hv).mp h]⟩
  · rintro ⟨s, h⟩
    obtain ⟨s, rest, rfl, rfl, hs⟩ := List.map_eq_append_iff.mp h.symm
    exact ⟨s, rest, rfl, (like_literal hv).mpr hs⟩

theorem like_many_literal_many (hv : w.isLiteral v) :
    w.like (w.many :: v ++ [w.many]) text ↔ v.map w.fold <:+: text.map w.fold := by
  rw [List.cons_append, like_many_cons]
  constructor
  · rintro ⟨s, rest, rfl, h⟩
    obtain ⟨t, ht⟩ := (like_literal_many hv).mp h
    exact ⟨s.map w.fold, t, by rw [List.map_append, ← ht, List.append_assoc]⟩
  · rintro ⟨s, t, h⟩
    rw [List.append_assoc] at h
    obtain ⟨s, rest, rfl, rfl, hs⟩ := List.map_eq_append_iff.mp h.symm
    exact ⟨s, rest, rfl, (like_literal_many hv).mpr ⟨t, hs.symm⟩⟩

theorem like_self (v : List α) : w.like v v := by
  induction v with
  | nil => rfl
  | cons p v ih =>
    by_cases hmany : p = w.many
    · subst hmany
      exact (like_many_cons v).mpr ⟨[w.many], v, rfl, ih⟩
    · simp only [like, if_neg hmany, or_true, decide_true, Bool.true_and]
      exact ih

-- What wildcards inside a text match

def fill (w : Wildcards α β) (x : α) (v : List α) : List α :=
  v.map fun p => if p = w.many ∨ p = w.one then x else p

theorem like_fill_append {x : α} {pattern : List α} (h : w.like pattern text) :
    w.like (v ++ pattern) (w.fill x v ++ text) := by
  induction v with
  | nil => exact h
  | cons p v ih =>
    by_cases hmany : p = w.many
    · subst hmany
      exact (like_many_cons _).mpr ⟨[_], _, rfl, ih⟩
    · simp only [List.cons_append, like, hmany, if_false, fill, List.map_cons, Bool.and_eq_true,
        decide_eq_true_eq, false_or]
      refine ⟨?_, ih⟩
      by_cases hone : p = w.one
      · exact .inl hone
      · right
        rw [if_neg hone]

omit [DecidableEq β] in
theorem length_fill (x : α) (v : List α) : (w.fill x v).length = v.length := List.length_map _

omit [DecidableEq β] in
theorem isLiteral_of_map_fill {x : α} (hmany : w.fold x ≠ w.fold w.many)
    (hone : w.fold x ≠ w.fold w.one) (h : (w.fill x v).map w.fold = v.map w.fold) :
    w.isLiteral v := by
  induction v with
  | nil => rfl
  | cons p v ih =>
    simp only [fill, List.map_cons, List.cons.injEq] at h
    obtain ⟨hp, h⟩ := h
    simp only [isLiteral, List.all_cons, Bool.and_eq_true, decide_eq_true_eq]
    refine ⟨⟨?_, ?_⟩, ih h⟩
    · rintro rfl
      simp only [true_or, if_true] at hp
      exact hmany hp
    · rintro rfl
      simp only [or_true, if_true] at hp
      exact hone hp

end Wildcards
