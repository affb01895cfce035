/-!
# Reading several values

`readMany` reads a given number of values one after the other. Where each value is read
back from what was written for it exactly under a condition, all of them are read back
exactly if all of them meet it.
-/

namespace Reading

variable {τ : Type u} {α : Type v} {β : Type w}

def readMany (read : List τ → Option (β × List τ)) : Nat → List τ → Option (List β × List τ)
  | 0, input => some ([], input)
  | n + 1, input =>
    match read input with
    | none => none
    | some (first, input) =>
      match readMany read n input with
      | none => none
      | some (others, input) => some (first :: others, input)

theorem readMany_succ {read : List τ → Option (β × List τ)} {n : Nat}
    {input rest : List τ} {first : β}
    {others : List β} :
    readMany read (n + 1) input = some (first :: others, rest) ↔
      ∃ middle, read input = some (first, middle) ∧ readMany read n middle =
        some (others, rest) := by
  rw [readMany]
  constructor
  · intro h
    split at h
    · cases h
    · rename_i value middle hread
      split at h
      · cases h
      · rename_i values final hothers
        cases h
        exact ⟨middle, hread, hothers⟩
  · rintro ⟨middle, hread, hothers⟩
    rw [hread]
    dsimp only
    rw [hothers]

variable {read : List τ → Option (β × List τ)} {write : α → List τ} {f : α → β} {P : α → Prop}

/-- What is read is what was written, up to its end, exactly if every value meets the condition. -/
theorem readMany_flatMap (xs : List α)
    (hread : ∀ x ∈ xs, ∀ rest final, read (write x ++ rest) = some (f x, final) ↔
      P x ∧ final = rest)
    (rest final : List τ) :
    readMany read xs.length (xs.flatMap write ++ rest) = some (xs.map f, final) ↔
      (∀ x ∈ xs, P x) ∧ final = rest := by
  induction xs with
  | nil => simp [readMany, eq_comm]
  | cons x xs ih =>
    have hfirst := hread x List.mem_cons_self
    have hothers := ih fun y hy => hread y (List.mem_cons_of_mem x hy)
    simp only [List.length_cons, List.map_cons, List.flatMap_cons, List.append_assoc, readMany_succ,
      hfirst, List.forall_mem_cons]
    constructor
    · rintro ⟨_, ⟨hx, rfl⟩, hrest⟩
      obtain ⟨hxs, hfinal⟩ := hothers.mp hrest
      exact ⟨⟨hx, hxs⟩, hfinal⟩
    · rintro ⟨⟨hx, hxs⟩, hfinal⟩
      exact ⟨_, ⟨hx, rfl⟩, hothers.mpr ⟨hxs, hfinal⟩⟩

end Reading
