import Mathlib.Data.List.Chain
import Mathlib.Data.List.Induction

/-!
# Lists without equal neighbours

`push` puts an element in front of a list unless the list begins with it, and `squeeze`
pushes the elements of a list one after the other, from its end on. An element that is put
between two parts of a list without equal neighbours is merged with an equal neighbour.
-/

namespace Adjacent

variable {α : Type u} [DecidableEq α]

def push (x : α) (l : List α) : List α := if l.head? = some x then l else x :: l

def squeeze (l : List α) : List α := l.foldr push []

variable {x : α} {l front back : List α}

theorem push_of_head (h : l.head? = some x) : push x l = l := if_pos h

theorem push_of_ne (h : l.head? ≠ some x) : push x l = x :: l := if_neg h

theorem isChain_push (h : l.IsChain (· ≠ ·)) (x : α) : (push x l).IsChain (· ≠ ·) := by
  unfold push
  split
  · exact h
  · rename_i hne
    apply h.cons
    rintro y hy rfl
    exact hne hy

theorem isChain_foldr (h : l.IsChain (· ≠ ·)) (front : List α) :
    (front.foldr push l).IsChain (· ≠ ·) := by
  induction front with
  | nil => exact h
  | cons x front ih => exact isChain_push ih x

theorem foldr_push (h : (front ++ l).IsChain (· ≠ ·)) : front.foldr push l = front ++ l := by
  induction front with
  | nil => rfl
  | cons x front ih =>
    have htail : (front ++ l).IsChain (· ≠ ·) := h.tail
    rw [List.foldr_cons, ih htail, List.cons_append]
    apply push_of_ne
    intro hhead
    cases hrest : front ++ l with
    | nil => simp [hrest] at hhead
    | cons y rest =>
      rw [List.cons_append, hrest] at h
      simp only [hrest, List.head?_cons, Option.some.injEq] at hhead
      exact h.rel hhead.symm

theorem isChain_squeeze (l : List α) : (squeeze l).IsChain (· ≠ ·) := isChain_foldr .nil l

theorem squeeze_insert (h : (front ++ back).IsChain (· ≠ ·)) (x : α) :
    squeeze (front ++ x :: back) =
      if front.getLast? = some x ∨ back.head? = some x then front ++ back
      else front ++ x :: back := by
  have hback : squeeze back = back := by
    rw [squeeze, foldr_push, List.append_nil]
    rw [List.append_nil]
    exact (List.isChain_append.mp h).2.1
  rw [squeeze, List.foldr_append, List.foldr_cons, ← squeeze, hback]
  by_cases hhead : back.head? = some x
  · rw [push_of_head hhead, if_pos (.inr hhead)]
    exact foldr_push h
  · rw [push_of_ne hhead]
    by_cases hlast : front.getLast? = some x
    · rw [if_pos (.inl hlast)]
      obtain ⟨front, rfl⟩ := List.getLast?_eq_some_iff.mp hlast
      rw [List.foldr_append, List.foldr_cons, List.foldr_nil, push_of_head rfl]
      rw [List.append_assoc, List.singleton_append] at h ⊢
      exact foldr_push h
    · rw [if_neg (not_or.mpr ⟨hlast, hhead⟩)]
      obtain ⟨hfront, hback, -⟩ := List.isChain_append.mp h
      apply foldr_push
      refine List.isChain_append.mpr ⟨hfront, hback.cons ?_, ?_⟩
      · rintro y hy rfl
        exact hhead hy
      · rintro y hy z hz rfl
        cases hz
        exact hlast hy

end Adjacent
