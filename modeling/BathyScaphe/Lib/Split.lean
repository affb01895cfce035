import Mathlib.Data.List.Infix

/-!
# Splitting a list at a separator

`pieces sep s` cuts `s` at every occurrence of `sep`, from the left and without
overlaps; there is always one piece more than there are separators. Joining is
`List.intercalate`.
-/

namespace Split

variable {α : Type u} [DecidableEq α] {sep s : List α}

/-- `skip` counts the elements of a separator that are still to be passed. -/
def piecesFrom (sep : List α) : Nat → List α → List (List α)
  | _, [] => [[]]
  | skip + 1, _ :: s => piecesFrom sep skip s
  | 0, c :: s =>
    if sep <+: c :: s then [] :: piecesFrom sep (sep.length - 1) s
    else (piecesFrom sep 0 s).modifyHead (c :: ·)

def pieces (sep s : List α) : List (List α) := piecesFrom sep 0 s

theorem piecesFrom_ne_nil (sep : List α) (skip : Nat) (s : List α) :
    piecesFrom sep skip s ≠ [] := by
  induction s generalizing skip with
  | nil => simp [piecesFrom]
  | cons c s ih =>
    cases skip with
    | succ skip => exact ih skip
    | zero =>
      rw [piecesFrom]
      split
      · exact List.cons_ne_nil _ _
      · cases h : piecesFrom sep 0 s with
        | nil => exact absurd h (ih 0)
        | cons p ps => simp

theorem pieces_of_not_contains (h : ¬ sep <:+: s) : pieces sep s = [s] := by
  induction s with
  | nil => rfl
  | cons c s ih =>
    have hhere : ¬ sep <+: c :: s := fun hp => h hp.isInfix
    have hlater : ¬ sep <:+: s := fun hi => h (hi.trans (List.suffix_cons c s).isInfix)
    rw [pieces, piecesFrom, if_neg hhere]
    rw [pieces] at ih
    rw [ih hlater]
    rfl

theorem two_le_length_pieces (hsep : sep ≠ []) (h : sep <:+: s) : 2 ≤ (pieces sep s).length := by
  induction s with
  | nil => exact absurd (List.infix_nil.mp h) hsep
  | cons c s ih =>
    rw [pieces, piecesFrom]
    split
    · have hpos := List.length_pos_iff.mpr (piecesFrom_ne_nil sep (sep.length - 1) s)
      simp only [List.length_cons]
      omega
    · rename_i hhere
      rw [List.length_modifyHead]
      exact ih ((List.infix_cons_iff.mp h).resolve_left hhere)

theorem length_pieces_eq_one_iff (hsep : sep ≠ []) : (pieces sep s).length = 1 ↔ ¬ sep <:+: s := by
  constructor
  · intro hone hcontains
    have := two_le_length_pieces hsep hcontains
    omega
  · intro h
    rw [pieces_of_not_contains h, List.length_singleton]

theorem piecesFrom_spec (hsep : sep ≠ []) (skip : Nat) (s : List α) :
    (∀ piece ∈ piecesFrom sep skip s, ¬ sep <:+: piece ∧ piece ⊆ s) ∧
      (skip = 0 → ∀ piece ∈ (piecesFrom sep skip s).head?, piece <+: s) := by
  induction s generalizing skip with
  | nil =>
    rw [piecesFrom]
    refine ⟨?_, ?_⟩
    · intro piece hpiece
      obtain rfl := List.mem_singleton.mp hpiece
      exact ⟨fun h => hsep (List.infix_nil.mp h), List.Subset.refl _⟩
    · rintro - piece hpiece
      obtain rfl : [] = piece := Option.some.inj hpiece
      exact List.prefix_rfl
  | cons c s ih =>
    have hwider : ∀ {piece : List α}, piece ⊆ s → piece ⊆ c :: s := fun hsub =>
      List.Subset.trans hsub (List.subset_cons_self c s)
    cases skip with
    | succ skip =>
      rw [piecesFrom]
      exact ⟨fun piece hpiece => ⟨((ih skip).1 piece hpiece).1,
        hwider ((ih skip).1 piece hpiece).2⟩,
        nofun⟩
    | zero =>
      rw [piecesFrom]
      split
      · refine ⟨?_, ?_⟩
        · intro piece hpiece
          obtain rfl | hpiece := List.mem_cons.mp hpiece
          · exact ⟨fun h => hsep (List.infix_nil.mp h), List.nil_subset _⟩
          · exact ⟨((ih _).1 piece hpiece).1, hwider ((ih _).1 piece hpiece).2⟩
        · rintro - piece hpiece
          obtain rfl : [] = piece := Option.some.inj hpiece
          exact List.nil_prefix
      · rename_i hhere
        obtain ⟨hpieces, hhead⟩ := ih 0
        cases hs : piecesFrom sep 0 s with
        | nil => exact absurd hs (piecesFrom_ne_nil sep 0 s)
        | cons first rest =>
          rw [hs] at hpieces hhead
          have hfirst : first <+: s := hhead rfl first rfl
          rw [List.modifyHead_cons]
          refine ⟨?_, ?_⟩
          · intro piece hpiece
            obtain rfl | hpiece := List.mem_cons.mp hpiece
            · refine ⟨?_, List.cons_subset_cons c hfirst.subset⟩
              rw [List.infix_cons_iff]
              rintro (hstart | hlater)
              · exact hhere (hstart.trans ((List.prefix_cons_inj c).mpr hfirst))
              · exact (hpieces first List.mem_cons_self).1 hlater
            · have hrest := hpieces piece (List.mem_cons_of_mem first hpiece)
              exact ⟨hrest.1, hwider hrest.2⟩
          · rintro - piece hpiece
            obtain rfl : c :: first = piece := Option.some.inj hpiece
            exact (List.prefix_cons_inj c).mpr hfirst

theorem not_infix_of_mem_pieces (hsep : sep ≠ []) (h : piece ∈ pieces sep s) : ¬ sep <:+: piece :=
  ((piecesFrom_spec hsep 0 s).1 piece h).1

theorem subset_of_mem_pieces (hsep : sep ≠ []) (h : piece ∈ pieces sep s) : piece ⊆ s :=
  ((piecesFrom_spec hsep 0 s).1 piece h).2

theorem piecesFrom_append {skipped : List α} :
    piecesFrom sep skipped.length (skipped ++ s) = pieces sep s := by
  induction skipped with
  | nil => rfl
  | cons c skipped ih => exact ih

/-- A piece in front of a separator, none of which starts earlier. -/
theorem pieces_append (hsep : sep ≠ []) (h : ¬ sep <:+: piece ++ sep.dropLast) :
    pieces sep (piece ++ (sep ++ s)) = piece :: pieces sep s := by
  induction piece with
  | nil =>
    obtain ⟨c, rest, rfl⟩ := List.exists_cons_of_ne_nil hsep
    have hhere : c :: rest <+: c :: (rest ++ s) := List.prefix_append (c :: rest) s
    rw [pieces, List.nil_append, List.cons_append, piecesFrom, if_pos hhere]
    exact congrArg _ piecesFrom_append
  | cons c piece ih =>
    have hhere : ¬ sep <+: c :: (piece ++ (sep ++ s)) := by
      intro hstart
      -- an occurrence here would end in front of the last element of the separator
      refine h (List.IsPrefix.isInfix (List.prefix_of_prefix_length_le hstart (?_ : _ <+: _) ?_))
      · have hsplit : c :: (piece ++ (sep ++ s)) =
            (c :: piece ++ sep.dropLast) ++ ([sep.getLast hsep] ++ s) := by
          rw [List.append_assoc, ← List.append_assoc sep.dropLast, List.dropLast_append_getLast,
            List.cons_append]
        rw [hsplit]
        exact List.prefix_append _ _
      · have hpos := List.length_pos_of_ne_nil hsep
        rw [List.cons_append, List.length_cons, List.length_append, List.length_dropLast]
        omega
    have hlater : ¬ sep <:+: piece ++ sep.dropLast := fun hi =>
      h (hi.trans (List.suffix_cons c _).isInfix)
    rw [List.cons_append, pieces, piecesFrom, if_neg hhere]
    rw [pieces] at ih
    rw [ih hlater]
    rfl

omit [DecidableEq α] in
theorem pair_infix_append {a b : α} {x y : List α} (h : [a, b] <:+: x ++ y) :
    [a, b] <:+: x ∨ [a, b] <:+: y ∨ a ∈ x.getLast? ∧ b ∈ y.head? := by
  induction x with
  | nil => exact .inr (.inl h)
  | cons c x ih =>
    rw [List.cons_append, List.infix_cons_iff] at h
    obtain hhere | hlater := h
    · cases x with
      | nil =>
        obtain ⟨t, ht⟩ := hhere
        obtain ⟨rfl, hy⟩ := List.cons.inj ht
        rw [List.nil_append] at hy
        subst hy
        exact .inr (.inr ⟨rfl, rfl⟩)
      | cons d x =>
        obtain ⟨t, ht⟩ := hhere
        obtain ⟨rfl, hx⟩ := List.cons.inj ht
        obtain ⟨rfl, -⟩ := List.cons.inj hx
        exact .inl ⟨[], x, rfl⟩
    · obtain hx | hy | ⟨ha, hb⟩ := ih hlater
      · exact .inl (hx.trans (List.suffix_cons c x).isInfix)
      · exact .inr (.inl hy)
      · cases x with
        | nil => cases ha
        | cons d x => exact .inr (.inr ⟨ha, hb⟩)

section Joining
variable {β : Type v} {glue : List β} {ps : List (List β)} {p : β → Prop}

theorem forall_mem_intercalate (hglue : ∀ x ∈ glue, p x) :
    (∀ x ∈ glue.intercalate ps, p x) ↔ ∀ piece ∈ ps, ∀ x ∈ piece, p x := by
  induction ps with
  | nil => simp [List.intercalate]
  | cons piece ps ih =>
    cases ps with
    | nil => simp [List.intercalate]
    | cons next ps =>
      rw [List.forall_mem_cons (a := piece), List.intercalate_cons_cons, List.forall_mem_append,
        List.forall_mem_append, ih]
      exact ⟨fun h => ⟨h.1.1, h.2⟩, fun h => ⟨⟨h.1, hglue⟩, h.2⟩⟩

omit [DecidableEq α] in
theorem nil_intercalate (ps : List (List α)) : List.intercalate [] ps = ps.flatten := by
  induction ps with
  | nil => rfl
  | cons piece ps ih =>
    cases ps with
    | nil => rw [List.intercalate_singleton, List.flatten_singleton]
    | cons next ps =>
      rw [List.intercalate_cons_cons, ih, List.append_nil]
      rfl

theorem glue_subset_intercalate (h : 2 ≤ ps.length) : glue ⊆ glue.intercalate ps := by
  match ps, h with
  | piece :: next :: ps, _ =>
    rw [List.intercalate_cons_cons]
    intro x hx
    simp [hx]

end Joining

end Split
