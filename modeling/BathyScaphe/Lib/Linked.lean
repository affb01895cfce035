import Mathlib.Data.List.Nodup
import Mathlib.Logic.Function.Basic

/-!
# Linked lists in a store

`Path next stop i l`: following `next` from `i` visits `l` in its order and
then stands at `stop`. A store has at most one such list at `i`, and no cell
twice on it.
-/

namespace Linked

variable {α : Type u} {next next' : α → α} {stop i j : α} {l l' : List α}

def Path (next : α → α) (stop : α) : α → List α → Prop
  | i, [] => i = stop
  | i, j :: l => i = j ∧ j ≠ stop ∧ Path next stop (next j) l

theorem Path.unique (h : Path next stop i l) (h' : Path next stop i l') : l = l' := by
  induction l generalizing i l' with
  | nil =>
    cases l' with
    | nil => rfl
    | cons j l' =>
      obtain ⟨rfl, hne, -⟩ := h'
      exact absurd h hne
  | cons j l ih =>
    obtain ⟨rfl, hne, h⟩ := h
    cases l' with
    | nil => exact absurd h' hne
    | cons k l' =>
      obtain ⟨rfl, -, h'⟩ := h'
      rw [ih h h']

theorem Path.of_mem (h : Path next stop i l) (hj : j ∈ l) :
    ∃ rest, Path next stop j (j :: rest) ∧ rest.length < l.length := by
  induction l generalizing i with
  | nil => simp at hj
  | cons k l ih =>
    obtain ⟨rfl, hne, h⟩ := h
    rcases List.mem_cons.mp hj with rfl | hj
    · exact ⟨l, ⟨rfl, hne, h⟩, Nat.lt_succ_self _⟩
    · obtain ⟨rest, hrest, hlt⟩ := ih h hj
      exact ⟨rest, hrest, Nat.lt_succ_of_lt hlt⟩

/-- A list that came back to one of its cells would never reach its end. -/
theorem Path.nodup (h : Path next stop i l) : l.Nodup := by
  induction l generalizing i with
  | nil => exact List.nodup_nil
  | cons j l ih =>
    have hfirst := h
    obtain ⟨rfl, -, h⟩ := h
    refine List.nodup_cons.mpr ⟨fun hi => ?_, ih h⟩
    obtain ⟨rest, hrest, hlt⟩ := h.of_mem hi
    obtain rfl := List.tail_eq_of_cons_eq (hfirst.unique hrest)
    exact absurd hlt (Nat.lt_irrefl _)

theorem Path.congr (h : Path next stop i l) (hnext : ∀ j ∈ l, next' j = next j) :
    Path next' stop i l := by
  induction l generalizing i with
  | nil => exact h
  | cons j l ih =>
    obtain ⟨rfl, hne, h⟩ := h
    simp only [List.mem_cons, forall_eq_or_imp] at hnext
    refine ⟨rfl, hne, ?_⟩
    rw [hnext.1]
    exact ih h hnext.2

theorem Path.push (h : Path next stop i l) (hj : j ∉ l) (hstop : j ≠ stop)
    (hlink : next' j = i) (hnext : ∀ k ≠ j, next' k = next k) : Path next' stop j (j :: l) := by
  refine ⟨rfl, hstop, ?_⟩
  rw [hlink]
  exact h.congr fun k hk => hnext k (ne_of_mem_of_not_mem hk hj)

theorem Path.next_mem (h : Path next stop i l) (hj : j ∈ l) :
    next j ∈ l ∨ l.getLast? = some j ∧ next j = stop := by
  induction l generalizing i with
  | nil => simp at hj
  | cons k l ih =>
    obtain ⟨rfl, -, h⟩ := h
    cases l with
    | nil =>
      obtain rfl := List.mem_singleton.mp hj
      exact .inr ⟨rfl, h⟩
    | cons m l =>
      rcases List.mem_cons.mp hj with rfl | hj
      · exact .inl (by simp [h.1])
      · simpa using (ih h hj).imp_left (List.mem_cons_of_mem i)

end Linked
