import Mathlib.Data.List.Infix

/-!
# Replacing references

A reference runs from an opening element to the next closing one, whatever stands
between them. From the left, a reference that a resolver knows is replaced, and what
replaces it is not read again; the opening element of another one is kept, and the
reading goes on behind it.
-/

namespace References

variable {α : Type u} [DecidableEq α]

structure Delimiters (α : Type u) where
  opening : α
  closing : α

section
variable (d : Delimiters α) (resolve : List α → Option (List α))

/-- `skip` counts the elements of a reference that are still to be passed. -/
def replaceFrom : Nat → List α → List α
  | _, [] => []
  | skip + 1, _ :: s => replaceFrom skip s
  | 0, c :: s =>
    if c = d.opening ∧ d.closing ∈ s then
      match resolve (s.takeWhile (· ≠ d.closing)) with
      | some new => new ++ replaceFrom ((s.takeWhile (· ≠ d.closing)).length + 1) s
      | none => c :: replaceFrom 0 s
    else c :: replaceFrom 0 s

def replace (s : List α) : List α := replaceFrom d resolve 0 s

def candidatesFrom : Nat → List α → List (List α)
  | _, [] => []
  | skip + 1, _ :: s => candidatesFrom skip s
  | 0, c :: s =>
    if c = d.opening ∧ d.closing ∈ s then
      s.takeWhile (· ≠ d.closing) ::
        match resolve (s.takeWhile (· ≠ d.closing)) with
        | some _ => candidatesFrom ((s.takeWhile (· ≠ d.closing)).length + 1) s
        | none => candidatesFrom 0 s
    else candidatesFrom 0 s

def candidates (s : List α) : List (List α) := candidatesFrom d resolve 0 s

end

variable {d : Delimiters α} {resolve f g : List α → Option (List α)} {s t u e new : List α} {c : α}

-- One reference

theorem takeWhile_reference (he : d.closing ∉ e) (t : List α) :
    (e ++ d.closing :: t).takeWhile (· ≠ d.closing) = e := by
  induction e with
  | nil => rw [List.nil_append, List.takeWhile_cons_of_neg (by simp)]
  | cons c e ih =>
    obtain ⟨hc, he⟩ := not_or.mp (mt List.mem_cons.mpr he)
    rw [List.cons_append, List.takeWhile_cons_of_pos (by simpa using Ne.symm hc), ih he]

omit [DecidableEq α] in
theorem opens (e t : List α) : d.opening = d.opening ∧ d.closing ∈ e ++ d.closing :: t :=
  ⟨rfl, List.mem_append_right _ List.mem_cons_self⟩

variable (d resolve) in
theorem replaceFrom_closed (e t : List α) :
    replaceFrom d resolve (e.length + 1) (e ++ d.closing :: t) = replace d resolve t := by
  induction e with
  | nil => rfl
  | cons c e ih => rw [List.length_cons, List.cons_append, replaceFrom, ih]

variable (d resolve) in
theorem candidatesFrom_closed (e t : List α) :
    candidatesFrom d resolve (e.length + 1) (e ++ d.closing :: t) = candidates d resolve t := by
  induction e with
  | nil => rfl
  | cons c e ih => rw [List.length_cons, List.cons_append, candidatesFrom, ih]

theorem replace_cons (h : ¬ (c = d.opening ∧ d.closing ∈ s)) :
    replace d resolve (c :: s) = c :: replace d resolve s := by
  rw [replace, replaceFrom, if_neg h, replace]

theorem candidates_cons (h : ¬ (c = d.opening ∧ d.closing ∈ s)) :
    candidates d resolve (c :: s) = candidates d resolve s := by
  rw [candidates, candidatesFrom, if_neg h, candidates]

section
variable (he : d.closing ∉ e) (t : List α)
include he

theorem replace_none (h : resolve e = none) :
    replace d resolve (d.opening :: (e ++ d.closing :: t)) = d.opening :: replace d resolve
      (e ++ d.closing :: t) := by
  rw [replace, replaceFrom, if_pos (opens e t), takeWhile_reference he]
  simp only [h, replace]

theorem replace_some (h : resolve e = some new) :
    replace d resolve (d.opening :: (e ++ d.closing :: t)) = new ++ replace d resolve t := by
  rw [replace, replaceFrom, if_pos (opens e t), takeWhile_reference he]
  simp only [h, replaceFrom_closed]

theorem candidates_none (h : resolve e = none) :
    candidates d resolve (d.opening :: (e ++ d.closing :: t)) = e :: candidates d resolve
      (e ++ d.closing :: t) := by
  rw [candidates, candidatesFrom, if_pos (opens e t), takeWhile_reference he]
  simp only [h, candidates]

theorem candidates_some (h : resolve e = some new) :
    candidates d resolve (d.opening :: (e ++ d.closing :: t)) = e :: candidates d resolve t := by
  rw [candidates, candidatesFrom, if_pos (opens e t), takeWhile_reference he]
  simp only [h, candidatesFrom_closed]

end

theorem exists_reference (h : d.closing ∈ s) : ∃ e t, s = e ++ d.closing :: t ∧ d.closing ∉ e := by
  induction s with
  | nil => cases h
  | cons c s ih =>
    by_cases hc : c = d.closing
    · exact ⟨[], s, by rw [hc, List.nil_append], List.not_mem_nil⟩
    · obtain hmem | hmem := List.mem_cons.mp h
      · exact absurd hmem.symm hc
      · obtain ⟨e, t, rfl, he⟩ := ih hmem
        exact ⟨c :: e, t, rfl, fun hmem => (List.mem_cons.mp hmem).elim (fun heq => hc heq.symm) he⟩

/-- Induction over the elements that are kept and the references that are read. -/
@[elab_as_elim] theorem induction (d : Delimiters α) {motive : List α → Prop} (hnil : motive [])
    (hcons : ∀ c s, ¬ (c = d.opening ∧ d.closing ∈ s) → motive s → motive (c :: s))
    (hreference : ∀ e t, d.closing ∉ e → motive t → motive (e ++ d.closing :: t) →
      motive (d.opening :: (e ++ d.closing :: t))) (s : List α) : motive s := by
  induction hn : s.length using Nat.strong_induction_on generalizing s with
  | _ n ih =>
    subst hn
    cases s with
    | nil => exact hnil
    | cons c s =>
      have hs : motive s := ih s.length (Nat.lt_succ_self _) s rfl
      by_cases h : c = d.opening ∧ d.closing ∈ s
      · obtain ⟨rfl, hclosing⟩ := h
        obtain ⟨e, t, rfl, he⟩ := exists_reference hclosing
        refine hreference e t he (ih t.length ?_ t rfl) hs
        rw [List.length_cons, List.length_append, List.length_cons]
        omega
      · exact hcons c s h hs

-- Two resolvers

structure Apart (d : Delimiters α) (f g : List α → Option (List α)) : Prop where
  both : ∀ {e x y}, f e = some x → g e = some y → x ≠ y → ∀ s t, x ++ s ≠ y ++ t
  first : ∀ {e x}, f e = some x → g e = none → ∀ s t, x ++ s ≠ d.opening :: replace d g
    (e ++ d.closing :: t)
  second : ∀ {e y}, f e = none → g e = some y → ∀ s t, d.opening :: s ≠ y ++ t

/-- Two resolvers that are apart leave the same list if and only if they agree on the
references in it. -/
theorem replace_eq_iff (h : Apart d f g) (s : List α) :
    replace d f s = replace d g s ↔ ∀ e ∈ candidates d g s, f e = g e := by
  induction s using References.induction d with
  | hnil => exact ⟨fun _ e he => absurd he List.not_mem_nil, fun _ => rfl⟩
  | hcons c s hnot ih => rw [replace_cons hnot, replace_cons hnot, candidates_cons hnot,
      List.cons.injEq, ← ih, and_iff_right rfl]
  | hreference e t he iht ihs =>
    cases hg : g e with
    | none =>
      rw [candidates_none he t hg, List.forall_mem_cons, hg, ← ihs, replace_none he t hg]
      cases hf : f e with
      | none => rw [replace_none he t hf, List.cons.injEq, and_iff_right rfl, and_iff_right rfl]
      | some x =>
        rw [replace_some he t hf]
        exact iff_of_false (h.first hf hg _ _) fun hboth => nomatch hboth.1
    | some y =>
      rw [candidates_some he t hg, List.forall_mem_cons, hg, ← iht, replace_some he t hg]
      cases hf : f e with
      | none =>
        rw [replace_none he t hf]
        exact iff_of_false (h.second hf hg _ _) fun hboth => nomatch hboth.1
      | some x =>
        rw [replace_some he t hf, Option.some.injEq]
        by_cases hxy : x = y
        · rw [hxy, List.append_cancel_left_eq, and_iff_right rfl]
        · exact iff_of_false (h.both hf hg hxy _ _) fun hboth => hxy hboth.1

end References
