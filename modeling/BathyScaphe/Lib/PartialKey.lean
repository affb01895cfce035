import Mathlib.Data.List.Basic

/-!
# Looking up by a part of the key

A search that compares a part of the key stops at the first element that agrees in that
part. It finds what a search by the whole key finds where each element that agrees in the
part only comes after one that agrees in the whole. -/

namespace PartialKey

variable {α : Type u} {part : α → Bool} {whole : α → Prop}

/-- What a search may answer: the place of an element that is looked for, and none where
there is no such element. -/
def Finds (whole : α → Prop) (xs : List α) : Option Nat → Prop
  | some i => ∃ x, xs[i]? = some x ∧ whole x
  | none => ∀ x ∈ xs, ¬whole x

/-- Every element that agrees in the part only comes after one that agrees in the whole. -/
def Leads (part : α → Bool) (whole : α → Prop) (xs : List α) : Prop :=
  ∀ before x after, xs = before ++ x :: after → part x = true → ¬whole x → ∃ y ∈ before, whole y

theorem leads_nil : Leads part whole [] := by
  intro before x after h
  simp at h

theorem leads_cons_iff : Leads part whole (x :: xs) ↔ whole x ∨ part x = false ∧
    Leads part whole xs := by
  by_cases hwhole : whole x
  · simp only [hwhole, true_or, iff_true]
    intro before y after h _ hy
    cases before with
    | nil => exact absurd ((List.cons.inj h).1 ▸ hwhole) hy
    | cons z before => exact ⟨z, List.mem_cons_self, (List.cons.inj h).1 ▸ hwhole⟩
  · simp only [hwhole, false_or]
    constructor
    · intro h
      refine ⟨Bool.eq_false_iff.mpr fun hpart => ?_, fun before y after hxs hy hother => ?_⟩
      · simpa using h [] x xs rfl hpart hwhole
      · obtain ⟨z, hz, hzwhole⟩ := h (x :: before) y after (by rw [hxs]; rfl) hy hother
        rcases List.mem_cons.mp hz with rfl | hz
        · exact absurd hzwhole hwhole
        · exact ⟨z, hz, hzwhole⟩
    · rintro ⟨hpart, h⟩ before y after hxs hy hother
      cases before with
      | nil =>
        obtain ⟨rfl, -⟩ := List.cons.inj hxs
        simp [hpart] at hy
      | cons z before =>
        obtain ⟨u, hu, huwhole⟩ := h before y after (List.cons.inj hxs).2 hy hother
        exact ⟨u, List.mem_cons_of_mem z hu, huwhole⟩

theorem finds_cons_succ (hx : ¬whole x) : Finds whole (x :: xs) (found.map (· + 1)) ↔
    Finds whole xs found := by
  cases found with
  | none => simp [Finds, hx]
  | some i => simp [Finds]

/-- The search by the part finds what is looked for just where the whole leads. -/
theorem finds_findIdx?_iff (h : ∀ x, whole x → part x = true) (xs : List α) :
    Finds whole xs (xs.findIdx? part) ↔ Leads part whole xs := by
  induction xs with
  | nil => exact iff_of_true (by simp [Finds]) leads_nil
  | cons x xs ih =>
    rw [List.findIdx?_cons, leads_cons_iff]
    cases hpart : part x with
    | true => simp [Finds]
    | false =>
      have hx : ¬whole x := fun hwhole => by simp [h x hwhole] at hpart
      simp only [Bool.false_eq_true, if_false, finds_cons_succ hx, ih, hx, false_or, true_and]

end PartialKey
