import Mathlib.Data.List.Basic
import Mathlib.Data.List.TakeWhile

/-!
# Cutting a list at the runs of a predicate

A run is a stretch of elements that have the property and is no longer one with a
neighbour. `Cut` takes a list apart at its runs: the pieces between them, one more than
there are runs, have no element with the property.
-/

namespace Cutting

variable {α : Type u} {p : α → Bool} {s before run after before' run' after' : List α}

/-- The first run of a list, with what is in front of it and behind it. -/
structure IsFirst (p : α → Bool) (before run after : List α) : Prop where
  outside : ∀ x ∈ before, p x = false
  ne_nil : run ≠ []
  inside : ∀ x ∈ run, p x = true
  ends : ∀ x ∈ after.head?, p x = false

structure IsLast (p : α → Bool) (before run after : List α) : Prop where
  outside : ∀ x ∈ after, p x = false
  ne_nil : run ≠ []
  inside : ∀ x ∈ run, p x = true
  begins : ∀ x ∈ before.getLast?, p x = false

theorem isLast_iff_isFirst : IsLast p before run after ↔
    IsFirst p after.reverse run.reverse before.reverse := by
  constructor
  · rintro ⟨houtside, hne, hinside, hbegins⟩
    exact ⟨by
      simpa using houtside, by simpa using hne, by simpa using hinside, by simpa using hbegins⟩
  · rintro ⟨houtside, hne, hinside, hends⟩
    exact ⟨by
      simpa using houtside, by simpa using hne, by simpa using hinside, by simpa using hends⟩

theorem takeWhile_eq {q : α → Bool} (hfront : ∀ x ∈ before, q x = true)
    (hback : ∀ x ∈ after.head?, q x = false) :
    (before ++ after).takeWhile q = before := by
  rw [List.takeWhile_append_of_pos hfront]
  cases after with
  | nil => simp
  | cons x after => simp [hback x rfl]

theorem IsFirst.unique (h : IsFirst p before run after) (h' : IsFirst p before' run' after')
    (heq : before ++ (run ++ after) = before' ++ (run' ++ after')) :
    before = before' ∧ run = run' ∧ after = after' := by
  have hbefore : ∀ {b r a : List α}, IsFirst p b r a → (b ++ (r ++ a)).takeWhile (!p ·) = b := by
    intro b r a hfirst
    refine takeWhile_eq (by simpa using hfirst.outside) ?_
    cases r with
    | nil => exact absurd rfl hfirst.ne_nil
    | cons x r => simpa using hfirst.inside x List.mem_cons_self
  obtain rfl : before = before' := by rw [← hbefore h, heq, hbefore h']
  have hrest := List.append_cancel_left heq
  obtain rfl : run = run' := by
    rw [← takeWhile_eq h.inside h.ends, hrest, takeWhile_eq h'.inside h'.ends]
  exact ⟨rfl, rfl, List.append_cancel_left hrest⟩

theorem IsLast.unique (h : IsLast p before run after) (h' : IsLast p before' run' after')
    (heq : before ++ (run ++ after) = before' ++ (run' ++ after')) :
    before = before' ∧ run = run' ∧ after = after' := by
  have hreverse := congrArg List.reverse heq
  simp only [List.reverse_append, List.append_assoc] at hreverse
  obtain ⟨hafter, hrun, hbefore⟩ :=
    (isLast_iff_isFirst.mp h).unique (isLast_iff_isFirst.mp h') hreverse
  exact ⟨List.reverse_injective hbefore, List.reverse_injective hrun, List.reverse_injective hafter⟩

theorem exists_first (h : ¬∀ x ∈ s, p x = false) :
    ∃ before run after, s = before ++ (run ++ after) ∧ IsFirst p before run after := by
  induction s with
  | nil => simp at h
  | cons x s ih =>
    cases hx : p x with
    | true =>
      refine ⟨[], x :: s.takeWhile p, s.dropWhile p,
        by simp [List.takeWhile_append_dropWhile], by simp, by simp, ?_, ?_⟩
      · intro y hy
        rcases List.mem_cons.mp hy with rfl | hy
        · exact hx
        · exact List.mem_takeWhile_imp hy
      · intro y hy
        have hhead := List.head?_dropWhile_not p s
        rwa [hy] at hhead
    | false =>
      have hrest : ¬∀ y ∈ s, p y = false := fun hall => h (by simpa [hx] using hall)
      obtain ⟨before, run, after, rfl, hfirst⟩ := ih hrest
      exact ⟨x :: before, run, after, rfl, { hfirst with
        outside := by simpa [hx] using hfirst.outside }⟩

theorem exists_last (h : ¬∀ x ∈ s, p x = false) :
    ∃ before run after, s = before ++ (run ++ after) ∧ IsLast p before run after := by
  have hreverse : ¬∀ x ∈ s.reverse, p x = false := by simpa using h
  obtain ⟨after, run, before, heq, hfirst⟩ := exists_first hreverse
  refine ⟨before.reverse, run.reverse, after.reverse, ?_,
    isLast_iff_isFirst.mpr (by simpa using hfirst)⟩
  have hs := congrArg List.reverse heq
  simpa using hs

theorem length_takeWhile_append_iff {q : α → Bool} :
    ((run ++ after).takeWhile q).length = run.length ↔ (∀ x ∈ run, q x = true) ∧
      ∀ x ∈ after.head?, q x = false := by
  induction run with
  | nil =>
    cases after with
    | nil => simp
    | cons x after => cases hx : q x <;> simp [hx]
  | cons x run ih => cases hx : q x <;> simp [hx, ih]

-- The whole list

inductive Cut {α : Type u} (p : α → Bool) : List α → List (List α) → List (List α) → Prop
  | last {s : List α} (hnone : ∀ x ∈ s, p x = false) : Cut p s [s] []
  | run {before run after : List α} {pieces runs : List (List α)}
      (hfirst : IsFirst p before run after)
      (hcut : Cut p after pieces runs) : Cut p (before ++ (run ++ after)) (before :: pieces)
      (run :: runs)

theorem cut_none_iff {pieces runs : List (List α)} (hnone : ∀ x ∈ s, p x = false) :
    Cut p s pieces runs ↔ pieces = [s] ∧ runs = [] := by
  constructor
  · intro h
    cases h with
    | last => exact ⟨rfl, rfl⟩
    | @run before run after _ _ hfirst _ =>
      obtain ⟨x, hx⟩ := List.exists_mem_of_ne_nil run hfirst.ne_nil
      have hfalse := hnone x (by simp [hx])
      rw [hfirst.inside x hx] at hfalse
      contradiction
  · rintro ⟨rfl, rfl⟩
    exact .last hnone

theorem cut_run_iff {pieces runs : List (List α)} (hfirst : IsFirst p before run after) :
    Cut p (before ++ (run ++ after)) pieces runs ↔
      ∃ pieces' runs', pieces = before :: pieces' ∧ runs = run :: runs' ∧
        Cut p after pieces' runs' := by
  constructor
  · intro h
    generalize hs : before ++ (run ++ after) = s at h
    cases h with
    | last hnone =>
      obtain ⟨x, hx⟩ := List.exists_mem_of_ne_nil run hfirst.ne_nil
      have hfalse := hnone x (by simp [← hs, hx])
      rw [hfirst.inside x hx] at hfalse
      contradiction
    | @run _ _ _ pieces runs hfirst' hcut =>
      obtain ⟨rfl, rfl, rfl⟩ := hfirst.unique hfirst' hs
      exact ⟨pieces, runs, rfl, rfl, hcut⟩
  · rintro ⟨pieces', runs', rfl, rfl, hcut⟩
    exact .run hfirst hcut

def interleave : List (List α) → List (List α) → List α
  | piece :: pieces, run :: runs => piece ++ (run ++ interleave pieces runs)
  | pieces, _ => pieces.flatten

end Cutting
