import Mathlib.Data.List.Basic

/-!
# Numbered entries

Entries with increasing numbers, laid out so that each one stands at its number. The
numbers go on behind `last`, and a filler stands for every number that is missing.
-/

namespace Numbering

variable {α : Type u} {filler a : α} {last n : Nat} {entries : List (Nat × α)}

def fill (filler : α) : Nat → List (Nat × α) → List α
  | _, [] => []
  | last, (n, a) :: entries => List.replicate (n - (last + 1)) filler ++ a :: fill filler n entries

def Increasing (last : Nat) (entries : List (Nat × α)) : Prop :=
  (last :: entries.map Prod.fst).Pairwise (· < ·)

theorem Increasing.greater (h : Increasing last entries) : ∀ e ∈ entries, last < e.1 := by
  intro e he
  exact List.rel_of_pairwise_cons h (List.mem_map_of_mem he)

theorem Increasing.head_lt (h : Increasing last ((n, a) :: entries)) : last < n :=
  h.greater (n, a) List.mem_cons_self

theorem Increasing.tail (h : Increasing last ((n, a) :: entries)) : Increasing n entries :=
  List.Pairwise.of_cons h

theorem length_fill_cons (h : Increasing last ((n, a) :: entries)) :
    (fill filler last ((n, a) :: entries)).length = n - last + (fill filler n entries).length := by
  have hlt := h.head_lt
  rw [fill, List.length_append, List.length_replicate, List.length_cons]
  omega

theorem length_fill (h : Increasing last entries) :
    (fill filler last entries).length = (entries.getLast?.map fun e => e.1 - last).getD 0 := by
  induction entries generalizing last with
  | nil => rfl
  | cons e entries ih =>
    obtain ⟨n, a⟩ := e
    rw [length_fill_cons h, ih h.tail]
    cases hlast : entries.getLast? with
    | none =>
      rw [List.getLast?_eq_none_iff.mp hlast]
      rfl
    | some e =>
      have hlt := h.head_lt
      have hlater := h.tail.greater e (List.mem_of_getLast? hlast)
      rw [List.getLast?_cons, hlast]
      simp only [Option.map_some, Option.getD_some]
      omega

theorem getElem?_fill_cons (h : Increasing last ((n, a) :: entries)) (k : Nat) :
    (fill filler last ((n, a) :: entries))[n - last + k]? = (fill filler n entries)[k]? := by
  have hlt := h.head_lt
  have hindex : n - last + k - (n - (last + 1)) = k + 1 := by omega
  rw [fill, List.getElem?_append_right (by rw [List.length_replicate]; omega),
    List.length_replicate, hindex, List.getElem?_cons_succ]

theorem getElem?_fill_of_mem (h : Increasing last entries) (hmem : (n, a) ∈ entries) :
    (fill filler last entries)[n - last - 1]? = some a := by
  induction entries generalizing last with
  | nil => exact absurd hmem List.not_mem_nil
  | cons e entries ih =>
    obtain ⟨m, b⟩ := e
    have hlt := h.head_lt
    obtain heq | hmem := List.mem_cons.mp hmem
    · cases heq
      have hindex : n - last - 1 - (n - (last + 1)) = 0 := by omega
      rw [fill, List.getElem?_append_right (by rw [List.length_replicate]; omega),
        List.length_replicate, hindex, List.getElem?_cons_zero]
    · have hlater : m < n := h.tail.greater (n, a) hmem
      have hindex : n - last - 1 = m - last + (n - m - 1) := by omega
      rw [hindex, getElem?_fill_cons h, ih h.tail hmem]

theorem getElem?_fill_missing (h : Increasing last entries) {k : Nat}
    (hk : k < (fill filler last entries).length)
    (hmissing : ∀ e ∈ entries, e.1 ≠ last + 1 + k) :
    (fill filler last entries)[k]? = some filler := by
  induction entries generalizing last k with
  | nil => exact absurd hk (Nat.not_lt_zero k)
  | cons e entries ih =>
    obtain ⟨n, a⟩ := e
    have hlt := h.head_lt
    rw [length_fill_cons h] at hk
    by_cases hbefore : k < n - (last + 1)
    · rw [fill, List.getElem?_append_left (by rw [List.length_replicate]; omega),
        List.getElem?_replicate_of_lt hbefore]
    · have hn : n ≠ last + 1 + k := hmissing (n, a) List.mem_cons_self
      obtain ⟨j, rfl⟩ : ∃ j, k = n - last + j := ⟨k - (n - last), by omega⟩
      rw [getElem?_fill_cons h]
      apply ih h.tail (by omega)
      intro e he
      have hlater := hmissing e (List.mem_cons_of_mem _ he)
      omega

end Numbering
