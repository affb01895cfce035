import Mathlib.Data.List.Basic

/-!
# Spans between two elements

A span runs from an opening element through the next closing element, and the next
span is looked for behind it. `keep p` takes the spans out for which `p` does not hold.
Two such predicates leave the same list exactly when they agree on its spans.
-/

namespace Spans

variable {α : Type u} [DecidableEq α]

structure Brackets (α : Type u) where
  opening : α
  closing : α
  ne : opening ≠ closing

variable (b : Brackets α) (p : List α → Bool)

def keepFrom : Option (List α) → List α → List α
  | none, [] => []
  | some m, [] => m
  | none, c :: s => if c = b.opening then keepFrom (some [c]) s else c :: keepFrom none s
  | some m, c :: s =>
    if c = b.closing then (if p (m ++ [c]) then m ++ [c] else []) ++ keepFrom none s
    else keepFrom (some (m ++ [c])) s

def keep (s : List α) : List α := keepFrom b p none s

def spansFrom : Option (List α) → List α → List (List α)
  | _, [] => []
  | none, c :: s => if c = b.opening then spansFrom (some [c]) s else spansFrom none s
  | some m, c :: s => if c = b.closing then (m ++ [c]) :: spansFrom none s
      else spansFrom (some (m ++ [c])) s

def spans (s : List α) : List (List α) := spansFrom b none s

variable {b p} {m s u : List α} {c : α}

-- From one bracket to the next

theorem spansFrom_some_append (h : b.closing ∉ u) (m s : List α) :
    spansFrom b (some m) (u ++ s) = spansFrom b (some (m ++ u)) s := by
  induction u generalizing m with
  | nil => rw [List.nil_append, List.append_nil]
  | cons c u ih =>
    obtain ⟨hc, hu⟩ := not_or.mp (mt List.mem_cons.mpr h)
    rw [List.cons_append, spansFrom, if_neg (Ne.symm hc), ih hu, List.append_assoc,
      List.singleton_append]

theorem keepFrom_none_append (h : b.opening ∉ u) (s : List α) :
    keepFrom b p none (u ++ s) = u ++ keepFrom b p none s := by
  induction u with
  | nil => rfl
  | cons c u ih =>
    obtain ⟨hc, hu⟩ := not_or.mp (mt List.mem_cons.mpr h)
    rw [List.cons_append, keepFrom, if_neg (Ne.symm hc), ih hu, List.cons_append]

theorem keepFrom_some_append (h : b.closing ∉ u) (m s : List α) :
    keepFrom b p (some m) (u ++ s) = keepFrom b p (some (m ++ u)) s := by
  induction u generalizing m with
  | nil => rw [List.nil_append, List.append_nil]
  | cons c u ih =>
    obtain ⟨hc, hu⟩ := not_or.mp (mt List.mem_cons.mpr h)
    rw [List.cons_append, keepFrom, if_neg (Ne.symm hc), ih hu, List.append_assoc,
      List.singleton_append]

theorem keep_of_not_opening (h : b.opening ∉ s) : keep b p s = s := by
  have hkeep := keepFrom_none_append (p := p) h []
  rwa [List.append_nil, keepFrom, List.append_nil] at hkeep

theorem keep_of_not_closing (h : b.closing ∉ s) : keep b p s = s := by
  rw [keep]
  induction s with
  | nil => rfl
  | cons c s ih =>
    have hs : b.closing ∉ s := fun hmem => h (List.mem_cons_of_mem c hmem)
    rw [keepFrom]
    split
    · have hkeep := keepFrom_some_append (p := p) hs [c] []
      rw [List.append_nil] at hkeep
      rw [hkeep, keepFrom, List.singleton_append]
    · rw [ih hs]

theorem keep_open (hu : b.opening ∉ u) (hs : b.closing ∉ s) :
    keep b p (u ++ b.opening :: s) = u ++ b.opening :: s := by
  have hkeep := keepFrom_some_append (p := p) hs [b.opening] []
  rw [List.append_nil, keepFrom] at hkeep
  rw [keep, keepFrom_none_append hu, keepFrom, if_pos rfl, hkeep, List.singleton_append]

theorem keep_span (hu : b.opening ∉ u) (hm : b.closing ∉ m) (s : List α) :
    keep b p (u ++ (b.opening :: (m ++ [b.closing]) ++ s)) =
      u ++ ((if p (b.opening :: (m ++ [b.closing])) then b.opening :: (m ++ [b.closing])
        else []) ++ keep b p s) := by
  rw [keep, keepFrom_none_append hu, List.cons_append, List.append_assoc, List.singleton_append,
    keepFrom, if_pos rfl, keepFrom_some_append hm, keepFrom, if_pos rfl, keep,
    List.singleton_append, List.cons_append]

-- The spans that are kept

def IsPart (b : Brackets α) (m : List α) : Prop := ∃ u, m = b.opening :: u ∧ b.closing ∉ u

omit [DecidableEq α] in
theorem isPart_opening : IsPart b [b.opening] := ⟨[], rfl, List.not_mem_nil⟩

omit [DecidableEq α] in
theorem IsPart.snoc (h : IsPart b m) (hc : c ≠ b.closing) : IsPart b (m ++ [c]) := by
  obtain ⟨u, rfl, hu⟩ := h
  refine ⟨u ++ [c], rfl, fun hmem => ?_⟩
  obtain hmem | hmem := List.mem_append.mp hmem
  · exact hu hmem
  · exact hc (List.mem_singleton.mp hmem).symm

theorem IsPart.spansFrom_append (h : IsPart b m) (s : List α) :
    spansFrom b none (m ++ s) = spansFrom b (some m) s := by
  obtain ⟨u, rfl, hu⟩ := h
  rw [List.cons_append, spansFrom, if_pos rfl, spansFrom_some_append hu, List.singleton_append]

theorem spansFrom_keepFrom (s : List α) (st : Option (List α)) (hst : ∀ m ∈ st, IsPart b m) :
    spansFrom b none (keepFrom b p st s) = (spansFrom b st s).filter p := by
  induction s generalizing st with
  | nil =>
    cases st with
    | none => rfl
    | some m =>
      have hspans := (hst m rfl).spansFrom_append []
      rw [List.append_nil] at hspans
      rw [keepFrom, hspans, spansFrom, List.filter_nil]
  | cons c s ih =>
    cases st with
    | none =>
      rw [keepFrom, spansFrom]
      split
      · rename_i hopening
        refine ih _ fun m hm => ?_
        obtain rfl := Option.some.inj hm
        rw [hopening]
        exact isPart_opening
      · rename_i hother
        rw [spansFrom, if_neg hother]
        exact ih none fun m hm => nomatch hm
    | some m =>
      have hm := hst m rfl
      rw [keepFrom, spansFrom]
      split
      · rename_i hclosing
        have hrest := ih none fun m hm => nomatch hm
        rw [List.filter_cons]
        split
        · rw [List.append_assoc, hm.spansFrom_append, List.singleton_append, spansFrom,
            if_pos hclosing, hrest]
        · exact hrest
      · rename_i hother
        refine ih _ fun n hn => ?_
        obtain rfl := Option.some.inj hn
        exact hm.snoc hother

theorem spans_keep (s : List α) : spans b (keep b p s) = (spans b s).filter p :=
  spansFrom_keepFrom s none fun _ hm => nomatch hm

theorem keepFrom_congr {q : List α → Bool} (s : List α) (st : Option (List α))
    (h : ∀ m ∈ spansFrom b st s, p m = q m) : keepFrom b p st s = keepFrom b q st s := by
  induction s generalizing st with
  | nil => cases st <;> rfl
  | cons c s ih =>
    cases st with
    | none =>
      rw [spansFrom] at h
      rw [keepFrom, keepFrom]
      split at h
      · rename_i hopening
        rw [if_pos hopening, if_pos hopening, ih _ h]
      · rename_i hother
        rw [if_neg hother, if_neg hother, ih _ h]
    | some m =>
      rw [spansFrom] at h
      rw [keepFrom, keepFrom]
      split at h
      · rename_i hclosing
        obtain ⟨hhere, hlater⟩ := List.forall_mem_cons.mp h
        rw [if_pos hclosing, if_pos hclosing, hhere, ih _ hlater]
      · rename_i hother
        rw [if_neg hother, if_neg hother, ih _ h]

/-- Two predicates keep the same list if and only if they agree on its spans. -/
theorem keep_eq_iff {q : List α → Bool} : keep b p s = keep b q s ↔ ∀ m ∈ spans b s, p m = q m := by
  constructor
  · intro h m hm
    have hfilter : (spans b s).filter p = (spans b s).filter q := by
      rw [← spans_keep, h, spans_keep]
    have hp : m ∈ (spans b s).filter p ↔ p m = true := by
      rw [List.mem_filter]
      exact and_iff_right hm
    have hq : m ∈ (spans b s).filter q ↔ q m = true := by
      rw [List.mem_filter]
      exact and_iff_right hm
    rw [Bool.eq_iff_iff, ← hp, ← hq, hfilter]
  · exact keepFrom_congr s none

end Spans
