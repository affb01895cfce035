import BathyScaphe.Lib.Occurrence
import BathyScaphe.Lib.Split
import Mathlib.Data.List.DropRight
import Mathlib.Data.List.Induction
import Mathlib.Algebra.GroupWithZero.Nat

/-!
# Changing an element behind a word

`swapFrom` changes the element `c` into `c'` wherever it stands behind the word `w`; `seen`
is what stands in front of the list. Where neither element is in the word, this is what
replacing `w ++ [c]` by `w ++ [c']` gives, the change and its inverse forget about each
other, and an element that is not in the word ends what has to be seen.
-/

namespace Swap

variable {α : Type u} {w seen seen' s t u : List α} {c c' x y : α}

-- What has been seen

theorem suffix_append_cons_iff (hx : x ∉ w) (u v : List α) : w <:+ u ++ x :: v ↔ w <:+ v := by
  constructor
  · intro h
    obtain h | h := List.suffix_or_suffix_of_suffix h (List.suffix_append u (x :: v))
    · obtain rfl | h := List.suffix_cons_iff.mp h
      · exact absurd List.mem_cons_self hx
      · exact h
    · exact absurd (h.subset List.mem_cons_self) hx
  · intro h
    exact h.trans ((List.suffix_cons x v).trans (List.suffix_append u (x :: v)))

def Alike (w seen seen' : List α) : Prop := ∀ t, w <:+ seen ++ t ↔ w <:+ seen' ++ t

theorem Alike.refl (seen : List α) : Alike w seen seen := fun _ => Iff.rfl

theorem Alike.suffix_iff (h : Alike w seen seen') : w <:+ seen ↔ w <:+ seen' := by
  have hnil := h []
  rwa [List.append_nil, List.append_nil] at hnil

theorem Alike.concat (h : Alike w seen seen') (x : α) : Alike w (seen ++ [x]) (seen' ++ [x]) := by
  intro t
  rw [List.append_assoc, List.append_assoc]
  exact h ([x] ++ t)

theorem alike_concat (hx : x ∉ w) (hy : y ∉ w) (seen seen' : List α) :
    Alike w (seen ++ [x]) (seen' ++ [y]) := by
  intro t
  rw [List.append_assoc, List.append_assoc, List.singleton_append, List.singleton_append,
    suffix_append_cons_iff hx, suffix_append_cons_iff hy]

theorem alike_nil (hu : ∀ x ∈ u, x ∉ w) : Alike w u [] := by
  induction u using List.reverseRecOn with
  | nil => exact Alike.refl []
  | append_singleton u x _ =>
    intro t
    rw [List.append_assoc, List.singleton_append,
      suffix_append_cons_iff (hu x (List.mem_append_right u List.mem_cons_self)), List.nil_append]

theorem concat_infix_iff : w ++ [c] <:+: s ↔ ∃ a b, s = a ++ c :: b ∧ w <:+ a := by
  constructor
  · rintro ⟨a, b, rfl⟩
    exact ⟨a ++ w, b, by simp, List.suffix_append a w⟩
  · rintro ⟨_, b, rfl, a, rfl⟩
    exact ⟨a, b, by simp⟩

-- The change

variable [DecidableEq α]

def swapFrom (w : List α) (c c' : α) : List α → List α → List α
  | _, [] => []
  | seen, x :: s => (if x = c ∧ w <:+ seen then c' else x) :: swapFrom w c c' (seen ++ [x]) s

def swap (w : List α) (c c' : α) (s : List α) : List α := swapFrom w c c' [] s

theorem swapFrom_congr (h : Alike w seen seen') (s : List α) :
    swapFrom w c c' seen s = swapFrom w c c' seen' s := by
  induction s generalizing seen seen' with
  | nil => rfl
  | cons x s ih =>
    rw [swapFrom, swapFrom, ih (h.concat x)]
    simp only [h.suffix_iff]

theorem swapFrom_append (seen s t : List α) :
    swapFrom w c c' seen (s ++ t) = swapFrom w c c' seen s ++ swapFrom w c c' (seen ++ s) t := by
  induction s generalizing seen with
  | nil => rw [List.nil_append, swapFrom, List.nil_append, List.append_nil]
  | cons x s ih => rw [List.cons_append, swapFrom, swapFrom, ih, List.cons_append,
      List.append_assoc]; rfl

theorem length_swapFrom (seen s : List α) : (swapFrom w c c' seen s).length = s.length := by
  induction s generalizing seen with
  | nil => rfl
  | cons x s ih => rw [swapFrom, List.length_cons, ih, List.length_cons]

theorem swapFrom_of_not_mem (h : c ∉ s) (seen : List α) : swapFrom w c c' seen s = s := by
  induction s generalizing seen with
  | nil => rfl
  | cons x s ih =>
    rw [swapFrom, if_neg fun (heq : x = c ∧ _) => h (heq.1 ▸ List.mem_cons_self),
      ih (List.not_mem_of_not_mem_cons h)]

theorem swap_append_cons (hx : x ∉ w) (s t : List α) :
    swap w c c' (s ++ x :: t) = swap w c c' s ++ (if x = c ∧ w <:+ s then c' else x) ::
      swap w c c' t := by
  rw [swap, swapFrom_append, swapFrom, List.nil_append]
  refine congrArg (fun rest => swap w c c' s ++ _ :: rest) (swapFrom_congr ?_ t)
  intro u
  rw [List.append_assoc, List.singleton_append, suffix_append_cons_iff hx, List.nil_append]

theorem swapFrom_swapFrom (hc : c ∉ w) (hc' : c' ∉ w) (h : Alike w seen seen') (s : List α) :
    swapFrom w c' c seen' (swapFrom w c c' seen s) = swapFrom w c' c seen s := by
  induction s generalizing seen seen' with
  | nil => rfl
  | cons x s ih =>
    rw [swapFrom]
    by_cases hx : x = c ∧ w <:+ seen
    · rw [if_pos hx, swapFrom, swapFrom, if_pos ⟨rfl, h.suffix_iff.mp hx.2⟩,
        ih (hx.1 ▸ alike_concat hc hc' _ _)]
      by_cases hsame : x = c' ∧ w <:+ seen
      · rw [if_pos hsame]
      · rw [if_neg hsame, hx.1]
    · rw [if_neg hx, swapFrom, swapFrom, ih (h.concat x)]
      simp only [h.suffix_iff]

theorem swap_swap (hc : c ∉ w) (hc' : c' ∉ w) (s : List α) :
    swap w c' c (swap w c c' s) = swap w c' c s :=
  swapFrom_swapFrom hc hc' (Alike.refl []) s

-- What stays

theorem swapFrom_of_forall (h : ∀ a b, s = a ++ c :: b → ¬ w <:+ seen ++ a) :
    swapFrom w c c' seen s = s := by
  induction s generalizing seen with
  | nil => rfl
  | cons x s ih =>
    have hhere : ¬ (x = c ∧ w <:+ seen) := by
      rintro ⟨rfl, hw⟩
      exact h [] s rfl (by rwa [List.append_nil])
    rw [swapFrom, if_neg hhere, ih]
    intro a b hs
    rw [List.append_assoc, List.singleton_append]
    exact h (x :: a) b (by rw [hs, List.cons_append])

/-- Nothing changes if and only if the element is nowhere behind the word. -/
theorem swap_eq_self_iff (hcc : c ≠ c') : swap w c c' s = s ↔ ¬ w ++ [c] <:+: s := by
  rw [concat_infix_iff]
  constructor
  · rintro h ⟨a, b, rfl, hw⟩
    rw [swap, swapFrom_append, swapFrom, List.nil_append, if_pos ⟨rfl, hw⟩] at h
    have hlength : (swapFrom w c c' [] a).length = a.length := length_swapFrom [] a
    exact hcc (List.cons.inj (List.append_inj_right h hlength)).1.symm
  · intro h
    exact swapFrom_of_forall fun a b hs hw => h ⟨a, b, hs, by rwa [List.nil_append] at hw⟩

/-- The element is gone if and only if it was only behind the word. -/
theorem not_mem_swap_iff (hcc : c ≠ c') : c ∉ swap w c c' s ↔ ∀ a b, s = a ++ c :: b → w <:+ a := by
  constructor
  · rintro h a b rfl
    by_contra hw
    rw [swap, swapFrom_append, swapFrom, List.nil_append, if_neg fun hand => hw hand.2] at h
    exact h (List.mem_append_right _ List.mem_cons_self)
  · intro h
    induction s using List.reverseRecOn with
    | nil => exact List.not_mem_nil
    | append_singleton s x ih =>
      rw [swap, swapFrom_append, swapFrom, swapFrom, List.nil_append, List.mem_append,
        List.mem_singleton, not_or]
      refine ⟨ih fun a b hs => h a (b ++ [x]) (by rw [hs]; simp), ?_⟩
      split
      · exact hcc
      · rename_i hx
        rintro rfl
        exact hx ⟨rfl, h s [] rfl⟩

theorem count_le_swapFrom (seen s : List α) : s.count c' ≤ (swapFrom w c c' seen s).count c' := by
  induction s generalizing seen with
  | nil => exact Nat.le_refl _
  | cons x s ih =>
    rw [swapFrom, List.count_cons, List.count_cons]
    have hrest := ih (seen ++ [x])
    have hhere : (if (x == c') = true then 1 else 0) ≤
        if ((if x = c ∧ w <:+ seen then c' else x) == c') = true then 1 else 0 := by
      by_cases hx : x = c ∧ w <:+ seen
      · rw [if_pos hx, if_pos (beq_self_eq_true c')]
        split <;> omega
      · rw [if_neg hx]
    exact Nat.add_le_add hrest hhere

theorem swapFrom_eq_self_of_count (h : (swapFrom w c c' seen s).count c' = s.count c') :
    swapFrom w c c' seen s = s := by
  induction s generalizing seen with
  | nil => rfl
  | cons x s ih =>
    have hrest := @count_le_swapFrom _ w c c' _ (seen ++ [x]) s
    rw [swapFrom] at h ⊢
    by_cases hx : x = c ∧ w <:+ seen
    · rw [if_pos hx] at h ⊢
      by_cases hsame : x = c'
      · subst hsame
        rw [List.count_cons_self, List.count_cons_self] at h
        rw [ih (Nat.add_right_cancel h)]
      · rw [List.count_cons_self, List.count_cons_of_ne hsame] at h
        omega
    · rw [if_neg hx] at h ⊢
      rw [List.count_cons, List.count_cons] at h
      rw [ih (Nat.add_right_cancel h)]

/-- Elements at the start that are not in the word can be dropped before the change. -/
theorem dropWhile_swapFrom {q : α → Bool} (hw : ∀ x ∈ w, q x = false) (hc : q c = false)
    (hc' : q c' = false)
    (hseen : ∀ x ∈ seen, q x = true) (s : List α) :
    (swapFrom w c c' seen s).dropWhile q = swap w c c' (s.dropWhile q) := by
  induction s generalizing seen with
  | nil => rfl
  | cons x s ih =>
    rw [swapFrom]
    by_cases hx : q x = true
    · have hxc : ¬ (x = c ∧ w <:+ seen) := by
        rintro ⟨rfl, -⟩
        rw [hc] at hx
        cases hx
      have hseen' : ∀ y ∈ seen ++ [x], q y = true := by
        intro y hy
        obtain hy | hy := List.mem_append.mp hy
        · exact hseen y hy
        · rwa [List.mem_singleton.mp hy]
      rw [if_neg hxc, List.dropWhile_cons_of_pos hx, List.dropWhile_cons_of_pos hx]
      exact ih hseen'
    · have hhead : ¬ q (if x = c ∧ w <:+ seen then c' else x) = true := by
        split
        · rw [hc']
          exact Bool.false_ne_true
        · exact hx
      have halike : Alike w seen [] := alike_nil fun y hy hmem => by
        have hfalse := hw y hmem
        rw [hseen y hy] at hfalse
        cases hfalse
      rw [List.dropWhile_cons_of_neg hhead, List.dropWhile_cons_of_neg hx, swap,
        ← swapFrom_congr halike, swapFrom]

theorem rdropWhile_swap {q : α → Bool} (hc : q c = false) (hc' : q c' = false) (s : List α) :
    (swap w c c' s).rdropWhile q = swap w c c' (s.rdropWhile q) := by
  induction s using List.reverseRecOn with
  | nil => rfl
  | append_singleton s x ih =>
    rw [swap, swapFrom_append, swapFrom, swapFrom, List.rdropWhile_concat, List.rdropWhile_concat]
    by_cases hx : q x = true
    · have hxc : ¬ (x = c ∧ w <:+ [] ++ s) := by
        rintro ⟨rfl, -⟩
        rw [hc] at hx
        cases hx
      rw [if_neg hxc, if_pos hx, if_pos hx]
      exact ih
    · have hhead : ¬ q (if x = c ∧ w <:+ [] ++ s then c' else x) = true := by
        split
        · rw [hc']
          exact Bool.false_ne_true
        · exact hx
      rw [if_neg hhead, if_neg hx, swap, swapFrom_append, swapFrom, swapFrom]

-- Replacing the word with its element

theorem intercalate_pieces_eq_swap (hc : c ∉ w) (s : List α) :
    (w ++ [c']).intercalate (Split.pieces (w ++ [c]) s) = swap w c c' s := by
  have hne : w ++ [c] ≠ [] := List.append_ne_nil_of_right_ne_nil w (List.cons_ne_nil c [])
  induction s using Occurrence.induction hne with
  | hnone s hnot =>
    rw [Split.pieces_of_not_contains hnot, List.intercalate_singleton, swap, swapFrom_of_forall]
    intro a b hs hw
    exact hnot (concat_infix_iff.mpr ⟨a, b, hs, hw⟩)
  | hfirst u v hfirst ih =>
    have hnot := hfirst.not_infix_dropLast hne
    have hpieces : Split.pieces (w ++ [c]) v ≠ [] := Split.piecesFrom_ne_nil _ 0 v
    have hu : swap w c c' (u ++ w) = u ++ w := by
      rw [List.dropLast_concat] at hnot
      exact swapFrom_of_forall fun a b hs hw => hnot (concat_infix_iff.mpr ⟨a, b, hs, hw⟩)
    rw [Split.pieces_append hne hnot, List.intercalate_cons_of_ne_nil hpieces, ih]
    calc u ++ (w ++ [c']) ++ swap w c c' v = (u ++ w) ++ c' :: swap w c c' v := by simp
      _ = swap w c c' ((u ++ w) ++ c :: v) := by
        rw [swap_append_cons hc, hu, if_pos ⟨rfl, List.suffix_append u w⟩]
      _ = swap w c c' (u ++ (w ++ [c] ++ v)) := by simp

-- Joined lists

theorem pieces_singleton (c : α) (s : List α) : Split.pieces [c] s = s.splitOn c := by
  induction s with
  | nil => rfl
  | cons x s ih =>
    rw [Split.pieces] at ih ⊢
    rw [Split.piecesFrom, List.splitOn_cons_eq_if_modifyHead, List.length_singleton, ih]
    simp only [List.cons_prefix_cons, List.nil_prefix, and_true, beq_iff_eq, @eq_comm _ c x]

variable {ss : List (List α)}

theorem swap_intercalate (hx : x ∉ w) (hxc : x ≠ c) :
    swap w c c' ([x].intercalate ss) = [x].intercalate (ss.map (swap w c c')) := by
  induction ss with
  | nil => rfl
  | cons s ss ih =>
    cases ss with
    | nil => rw [List.intercalate_singleton, List.map_singleton, List.intercalate_singleton]
    | cons s' ss =>
      rw [List.intercalate_cons_cons, List.append_assoc, List.singleton_append, swap_append_cons hx,
        if_neg fun (hand : x = c ∧ _) => hxc hand.1, ih, List.map_cons, List.map_cons,
        List.map_cons, List.intercalate_cons_cons, List.append_assoc, List.singleton_append]

theorem swap_intercalate_self_iff (hc : c ∉ w) (hcc : c ≠ c') :
    swap w c c' ([c].intercalate ss) = [c].intercalate (ss.map (swap w c c')) ↔
      ∀ s ∈ ss.dropLast, ¬ w <:+ s := by
  induction ss with
  | nil => exact iff_of_true rfl nofun
  | cons s ss ih =>
    cases ss with
    | nil =>
      rw [List.intercalate_singleton, List.map_singleton, List.intercalate_singleton]
      exact iff_of_true rfl nofun
    | cons s' ss =>
      rw [List.intercalate_cons_cons, List.append_assoc, List.singleton_append, swap_append_cons hc,
        List.map_cons, List.map_cons, List.intercalate_cons_cons, List.append_assoc,
        List.singleton_append, List.append_cancel_left_eq, List.cons.injEq,
        List.dropLast_cons_of_ne_nil (List.cons_ne_nil s' ss), List.forall_mem_cons, ← ih,
        List.map_cons]
      refine and_congr_left fun _ => ?_
      split
      · rename_i hw
        exact iff_of_false hcc.symm (not_not.mpr hw.2)
      · rename_i hw
        exact iff_of_true rfl fun hs => hw ⟨rfl, hs⟩

theorem append_cons_inj (h : s ++ c :: u = t ++ c :: v) (hcount : s.count c = t.count c) :
    s = t ∧ u = v := by
  have hlonger : ∀ {s t u v : List α}, t ++ c :: v = s ++ c :: u → s.count c = t.count c →
    s.length ≤ t.length := by
    intro s t u v h hcount
    by_contra hlt
    have hstart : t ++ [c] <+: s := by
      refine List.prefix_of_prefix_length_le ⟨v, ?_⟩ (List.prefix_append s (c :: u)) ?_
      · rw [← h, List.append_assoc, List.singleton_append]
      · rw [List.length_append, List.length_singleton]
        omega
    have hmore := hstart.sublist.count_le c
    rw [List.count_append, List.count_singleton_self] at hmore
    omega
  have hlength := Nat.le_antisymm (hlonger h.symm hcount) (hlonger h hcount.symm)
  exact ⟨List.append_inj_left h hlength, (List.cons.inj (List.append_inj_right h hlength)).2⟩

/-- Lists with as many separators in each part are the same when they are joined. -/
theorem intercalate_inj {ps : List (List α)} (h : [c].intercalate ps = [c].intercalate ss)
    (hcount : ps.map (List.count c) = ss.map (List.count c)) : ps = ss := by
  induction ps generalizing ss with
  | nil => exact (List.map_eq_nil_iff.mp hcount.symm).symm
  | cons p ps ih =>
    cases ss with
    | nil => cases hcount
    | cons s ss =>
      rw [List.map_cons, List.map_cons, List.cons.injEq] at hcount
      obtain ⟨hp, hps⟩ := hcount
      cases ps with
      | nil =>
        rw [List.map_eq_nil_iff.mp hps.symm] at h ⊢
        rwa [List.intercalate_singleton, List.intercalate_singleton, ← List.singleton_inj] at h
      | cons p' ps =>
        cases ss with
        | nil => cases hps
        | cons s' ss =>
          simp only [List.intercalate_cons_cons, List.append_assoc, List.singleton_append] at h
          obtain ⟨rfl, hrest⟩ := append_cons_inj h hp
          rw [ih hrest hps]

theorem count_intercalate (ps : List (List α)) (hne : ps ≠ []) :
    ([c].intercalate ps).count c + 1 = (ps.map (List.count c)).sum + ps.length := by
  induction ps with
  | nil => exact absurd rfl hne
  | cons p ps ih =>
    cases ps with
    | nil => simp
    | cons p' ps =>
      have hrest := ih (List.cons_ne_nil p' ps)
      rw [List.intercalate_cons_cons, List.count_append, List.count_append,
        List.count_singleton_self, List.map_cons, List.sum_cons, List.length_cons]
      omega

-- The parts of a changed list

/-- The separators in the lists are the ones behind the word, none of the lists but the last
ends with it, and nowhere is the other element behind it. -/
structure Kept (w : List α) (c c' : α) (ss : List (List α)) : Prop where
  inside : ∀ s ∈ ss, ∀ a b, s = a ++ c :: b → w <:+ a
  between : ∀ s ∈ ss.dropLast, ¬ w <:+ s
  unused : ∀ s ∈ ss, ¬ w ++ [c'] <:+: s

theorem Kept.parts (h : Kept w c c' ss) (hc : c ∉ w) (hc' : c' ∉ w) (hcc : c ≠ c') (hne : ss ≠ []) :
    (Split.pieces [c] (swap w c c' ([c].intercalate ss))).map (swap w c' c) = ss := by
  have hparts : ∀ s ∈ ss.map (swap w c c'), c ∉ s := by
    rw [List.forall_mem_map]
    exact fun s hs => (not_mem_swap_iff hcc).mpr (h.inside s hs)
  rw [(swap_intercalate_self_iff hc hcc).mpr h.between, pieces_singleton,
    List.splitOn_intercalate c hparts (by simpa using hne), List.map_map]
  calc ss.map (swap w c' c ∘ swap w c c') = ss.map id := by
        refine List.map_congr_left fun s hs => ?_
        rw [Function.comp_apply, swap_swap hc hc']
        exact (swap_eq_self_iff hcc.symm).mpr (h.unused s hs)
    _ = ss := List.map_id ss

theorem kept_of_count (hc : c ∉ w) (hc' : c' ∉ w) (hcc : c ≠ c') (hne : ss ≠ [])
    (hcount : ((Split.pieces [c] (swap w c c' ([c].intercalate ss))).map (swap w c' c)).map
      (List.count c) =
      ss.map (List.count c)) : Kept w c c' ss := by
  generalize hps : Split.pieces [c] (swap w c c' ([c].intercalate ss)) = ps at hcount
  have hfree : ∀ p ∈ ps, c ∉ p := by
    intro p hp hmem
    rw [← hps] at hp
    exact Split.not_infix_of_mem_pieces (List.cons_ne_nil c []) hp
      ((List.singleton_infix_iff c p).mpr hmem)
  rw [pieces_singleton] at hps
  have hjoin : [c].intercalate ps = swap w c c' ([c].intercalate ss) := by
    rw [← hps, List.intercalate_splitOn]
  have hback : [c].intercalate (ps.map (swap w c' c)) = swap w c' c ([c].intercalate ss) := by
    rw [← swap_intercalate hc hcc, hjoin, swap_swap hc hc']
  have hsame : [c].intercalate (ps.map (swap w c' c)) = [c].intercalate ss := by
    rw [hback]
    apply swapFrom_eq_self_of_count
    have hss := count_intercalate (c := c) ss hne
    have hps := count_intercalate (c := c) (ps.map (swap w c' c)) (by
      rintro hnil
      rw [hnil] at hcount
      exact hne (List.map_eq_nil_iff.mp hcount.symm))
    have hlength := congrArg List.length hcount
    rw [List.length_map, @List.length_map _ _ ss] at hlength
    rw [hback, hcount, hlength] at hps
    exact Nat.add_right_cancel (hps.trans hss.symm)
  obtain rfl := intercalate_inj hsame hcount
  have hparts : ∀ p ∈ ps, swap w c c' (swap w c' c p) = p := by
    intro p hp
    rw [swap_swap hc' hc]
    exact swapFrom_of_not_mem (hfree p hp) []
  refine ⟨?_, ?_, ?_⟩
  · rw [List.forall_mem_map]
    intro p hp
    rw [← not_mem_swap_iff hcc, hparts p hp]
    exact hfree p hp
  · have hmap : (ps.map (swap w c' c)).map (swap w c c') = ps := by
      rw [List.map_map]
      exact (List.map_congr_left hparts).trans (List.map_id ps)
    rw [← swap_intercalate_self_iff hc hcc, ← hjoin, hmap]
  · rw [List.forall_mem_map]
    intro p hp
    rw [← swap_eq_self_iff hcc.symm]
    calc swap w c' c (swap w c' c p) = swap w c' c (swap w c c' (swap w c' c p)) :=
      (swap_swap hc hc' _).symm
      _ = swap w c' c p := by rw [hparts p hp]

end Swap
