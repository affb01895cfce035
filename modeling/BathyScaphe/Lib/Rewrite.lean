import Mathlib.Data.List.Infix

/-!
# Rewriting the words of a text

A word is read where its text begins. The words of a text are taken from the left, and each
one is replaced. Where no word begins in front of another one and reaches into it, words that
replace words are read again as such, so rewriting twice is rewriting once.
-/

namespace Rewrite

variable {α : Type u} {β : Type v}

structure Words (α : Type u) (β : Type v) where
  text : β → List α
  read : List α → Option β
  read_eq_some : ∀ {s w}, read s = some w ↔ text w <+: s
  text_ne_nil : ∀ w, text w ≠ []
  apart : ∀ {w v a t}, a ≠ [] → text w <+: a ++ (text v ++ t) → text w <+: a

namespace Words

variable (k : Words α β)

/-- `skip` counts the elements of a word that are still to be passed. -/
def rewriteFrom (f : β → List α) : Nat → List α → List α
  | _, [] => []
  | skip + 1, _ :: s => rewriteFrom f skip s
  | 0, c :: s =>
    match k.read (c :: s) with
    | some w => f w ++ rewriteFrom f ((k.text w).length - 1) s
    | none => c :: rewriteFrom f 0 s

def rewrite (f : β → List α) (s : List α) : List α := k.rewriteFrom f 0 s

def wordsFrom : Nat → List α → List β
  | _, [] => []
  | skip + 1, _ :: s => wordsFrom skip s
  | 0, c :: s =>
    match k.read (c :: s) with
    | some w => w :: wordsFrom ((k.text w).length - 1) s
    | none => wordsFrom 0 s

def words (s : List α) : List β := k.wordsFrom 0 s

/-- Every word is replaced, and nothing else is changed. -/
inductive Rewrites (f : β → β) : List α → List α → Prop
  | nil : Rewrites f [] []
  | word (w : β) (h : Rewrites f s t) : Rewrites f (k.text w ++ s) (k.text (f w) ++ t)
  | other (hnot : ∀ w, ¬ k.text w <+: c :: s) (h : Rewrites f s t) : Rewrites f (c :: s) (c :: t)

variable {k} {f g : β → List α} {s t : List α} {c : α}

-- From one word to the next

theorem read_append (w : β) (s : List α) : k.read (k.text w ++ s) = some w :=
  k.read_eq_some.mpr (List.prefix_append _ _)

theorem read_eq_none : k.read s = none ↔ ∀ w, ¬ k.text w <+: s := by
  rw [Option.eq_none_iff_forall_ne_some]
  exact forall_congr' fun w => not_congr k.read_eq_some

theorem text_inj {w v : β} (h : k.text w ++ s = k.text v ++ t) : w = v := by
  have hread := read_append (k := k) w s
  rw [h, read_append] at hread
  exact (Option.some.inj hread).symm

theorem rewriteFrom_drop (f : β → List α) (skip : Nat) (s : List α) :
    k.rewriteFrom f skip s = k.rewrite f (s.drop skip) := by
  induction s generalizing skip with
  | nil => cases skip <;> rfl
  | cons c s ih =>
    cases skip with
    | zero => rfl
    | succ skip => exact ih skip

theorem wordsFrom_drop (skip : Nat) (s : List α) : k.wordsFrom skip s = k.words (s.drop skip) := by
  induction s generalizing skip with
  | nil => cases skip <;> rfl
  | cons c s ih =>
    cases skip with
    | zero => rfl
    | succ skip => exact ih skip

theorem exists_text_eq (w : β) (s : List α) : ∃ c u, k.text w = c :: u ∧
    k.read (c :: (u ++ s)) = some w ∧ (k.text w).length - 1 = u.length := by
  obtain ⟨c, u, hw⟩ := List.exists_cons_of_ne_nil (k.text_ne_nil w)
  have hread := read_append (k := k) w s
  rw [hw, List.cons_append] at hread
  exact ⟨c, u, hw, hread, by rw [hw, List.length_cons, Nat.add_sub_cancel]⟩

theorem rewrite_word (w : β) (s : List α) : k.rewrite f (k.text w ++ s) = f w ++ k.rewrite f s := by
  obtain ⟨c, u, hw, hread, hlength⟩ := exists_text_eq (k := k) w s
  rw [hw, List.cons_append]
  simp only [rewrite, rewriteFrom, hread]
  rw [hlength, rewriteFrom_drop, List.drop_left]
  rfl

theorem rewrite_other (h : k.read (c :: s) = none) : k.rewrite f (c :: s) = c :: k.rewrite f s := by
  simp only [rewrite, rewriteFrom, h]

theorem words_word (w : β) (s : List α) : k.words (k.text w ++ s) = w :: k.words s := by
  obtain ⟨c, u, hw, hread, hlength⟩ := exists_text_eq (k := k) w s
  rw [hw, List.cons_append]
  simp only [words, wordsFrom, hread]
  rw [hlength, wordsFrom_drop, List.drop_left]
  rfl

theorem words_other (h : k.read (c :: s) = none) : k.words (c :: s) = k.words s := by
  simp only [words, wordsFrom, h]

theorem induct (k : Words α β) {motive : List α → Prop} (nil : motive [])
    (word : ∀ w s, motive s → motive (k.text w ++ s))
    (other : ∀ c s, k.read (c :: s) = none → motive s → motive (c :: s)) (s : List α) :
    motive s := by
  induction hn : s.length using Nat.strong_induction_on generalizing s with
  | _ n ih =>
    subst hn
    cases s with
    | nil => exact nil
    | cons c s =>
      cases hread : k.read (c :: s) with
      | none => exact other c s hread (ih s.length (Nat.lt_succ_self _) s rfl)
      | some w =>
        obtain ⟨t, ht⟩ := k.read_eq_some.mp hread
        have hpos := List.length_pos_of_ne_nil (k.text_ne_nil w)
        rw [← ht] at ih ⊢
        refine word w t (ih t.length ?_ t rfl)
        rw [List.length_append]
        omega

-- What is rewritten

theorem rewrites_iff {f : β → β} : k.Rewrites f s t ↔ t = k.rewrite (fun w => k.text (f w)) s := by
  constructor
  · intro h
    induction h with
    | nil => rfl
    | word w h ih => rw [rewrite_word, ih]
    | other hnot h ih => rw [rewrite_other (read_eq_none.mpr hnot), ih]
  · rintro rfl
    induction s using k.induct with
    | nil => exact .nil
    | word w s ih => exact rewrite_word (k := k) w s ▸ .word w ih
    | other c s hread ih => exact rewrite_other hread ▸ .other (read_eq_none.mp hread) ih

theorem rewrite_eq_iff {f g : β → β} :
    k.rewrite (fun w => k.text (f w)) s = k.rewrite (fun w => k.text (g w)) s ↔
      ∀ w ∈ k.words s, f w = g w := by
  induction s using k.induct with
  | nil => exact iff_of_true rfl (by simp [words, wordsFrom])
  | word w s ih =>
    rw [rewrite_word, rewrite_word, words_word, List.forall_mem_cons, ← ih]
    constructor
    · intro h
      have hw := text_inj h
      rw [hw] at h
      exact ⟨hw, List.append_cancel_left h⟩
    · rintro ⟨hw, hs⟩
      rw [hw, hs]
  | other c s hread ih =>
    rw [rewrite_other hread, rewrite_other hread, words_other hread, ← ih]
    exact ⟨fun h => (List.cons.inj h).2, congrArg (c :: ·)⟩

theorem rewrite_split (f : β → List α) (s : List α) :
    k.rewrite f s = s ∨ ∃ a w t, s = a ++ (k.text w ++ t) ∧ k.rewrite f s =
      a ++ (f w ++ k.rewrite f t) := by
  induction s using k.induct with
  | nil => exact .inl rfl
  | word w s _ => exact .inr ⟨[], w, s, rfl, rewrite_word w s⟩
  | other c s hread ih =>
    rw [rewrite_other hread]
    rcases ih with ih | ⟨a, w, t, hs, ht⟩
    · exact .inl (congrArg (c :: ·) ih)
    · exact .inr ⟨c :: a, w, t, congrArg (c :: ·) hs, congrArg (c :: ·) ht⟩

theorem read_rewrite {f : β → β} (h : k.read (c :: s) = none) :
    k.read (c :: k.rewrite (fun w => k.text (f w)) s) = none := by
  rw [read_eq_none] at h ⊢
  intro w hw
  rcases rewrite_split (k := k) (fun w => k.text (f w)) s with hsame | ⟨a, v, t, hs, ht⟩
  · exact h w (hsame ▸ hw)
  · rw [ht] at hw
    refine h w ((k.apart (List.cons_ne_nil c a) hw).trans ?_)
    rw [hs]
    exact List.prefix_append (c :: a) _

theorem rewrite_rewrite {f : β → β} (s : List α) :
    k.rewrite g (k.rewrite (fun w => k.text (f w)) s) = k.rewrite (fun w => g (f w)) s := by
  induction s using k.induct with
  | nil => rfl
  | word w s ih => rw [rewrite_word, rewrite_word, rewrite_word, ih]
  | other c s hread ih => rw [rewrite_other hread, rewrite_other (read_rewrite hread),
      rewrite_other hread, ih]

end Words

end Rewrite
