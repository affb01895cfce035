import Mathlib.Data.List.Chain

/-!
# Keeping one result

A function is computed for one key after the other, and the last result is kept without
its key. Where the kept result equals the next key, it is taken for the result of that key.
-/

namespace Reuse

variable {α : Type u} [DecidableEq α]

section
variable (f : α → α)

def next (kept key : α) : α := if kept = key then kept else f key

def results (kept : α) : List α → List α
  | [] => []
  | key :: keys => next f kept key :: results (next f kept key) keys

end

variable {f : α → α} {kept key : α} {keys : List α}

theorem next_eq_iff : next f kept key = f key ↔ (kept = key → f key = key) := by
  rw [next]
  split
  · rename_i heq
    rw [heq]
    exact ⟨fun h _ => h.symm, fun h => (h rfl).symm⟩
  · rename_i hne
    exact ⟨fun _ h => absurd h hne, fun _ => rfl⟩

/-- The results are those of the function if and only if no key follows one whose result it
is, but for keys that are their own results. -/
theorem results_eq_map_iff :
    results f kept keys = keys.map f ↔
      (∀ k ∈ keys.head?, kept = k → f k = k) ∧ keys.IsChain fun k k' => f k = k' → f k' = k' := by
  induction keys generalizing kept with
  | nil => simp [results]
  | cons key keys ih =>
    rw [results, List.map_cons, List.cons.injEq, next_eq_iff, List.isChain_cons]
    constructor
    · rintro ⟨hkey, hrest⟩
      rw [next_eq_iff.mpr hkey] at hrest
      exact ⟨fun k hk => Option.some.inj hk ▸ hkey, ih.mp hrest⟩
    · rintro ⟨hkey, hchain⟩
      have hkey := hkey key rfl
      rw [next_eq_iff.mpr hkey]
      exact ⟨hkey, ih.mpr hchain⟩

end Reuse
