import Mathlib.Data.List.InsertIdx
import Mathlib.Data.List.Nodup

/-!
# Moving elements of a list to a place

Elements are brought to a place one by one, the last of them first. The place is an
index that goes down when an element is taken from before it; a negative index is
the end of the list.
-/

namespace Relocate

variable {α : Type u} [DecidableEq α]

def adjust (index : Int) : Option Nat → Int
  | some found => if index < 0 ∨ (found : Int) < index then index - 1 else index
  | none => index

def insertAt (index : Int) (a : α) (xs : List α) : List α :=
  if index < 0 ∨ (xs.length : Int) ≤ index then xs ++ [a] else xs.insertIdx index.toNat a

def move (a : α) (s : Int × List α) : Int × List α :=
  (adjust s.1 (s.2.idxOf? a), insertAt (adjust s.1 (s.2.idxOf? a)) a (s.2.erase a))

def moveAll (as : List α) (s : Int × List α) : Int × List α := as.foldr move s

variable {a : α} {as xs before after : List α}

omit [DecidableEq α] in
theorem insertIdx_append (before after : List α) :
    (before ++ after).insertIdx before.length a = before ++ a :: after := by
  induction before with
  | nil => simp
  | cons b before ih => simp [ih]

omit [DecidableEq α] in
theorem insertAt_append (before after : List α) :
    insertAt before.length a (before ++ after) = before ++ a :: after := by
  unfold insertAt
  by_cases hend : ((before ++ after).length : Int) ≤ before.length
  · have hnil : after = [] := by
      rw [List.length_append] at hend
      exact List.eq_nil_of_length_eq_zero (by omega)
    rw [if_pos (.inr hend), hnil, List.append_nil]
  · rw [if_neg (by omega), Int.toNat_natCast, insertIdx_append]

omit [DecidableEq α] in
theorem insertAt_eq_append (index : Int) (a : α) (xs : List α) :
    ∃ l r, xs = l ++ r ∧ insertAt index a xs = l ++ a :: r := by
  unfold insertAt
  by_cases hend : index < 0 ∨ (xs.length : Int) ≤ index
  · exact ⟨xs, [], (List.append_nil xs).symm, by rw [if_pos hend]⟩
  · refine ⟨xs.take index.toNat, xs.drop index.toNat, (List.take_append_drop _ xs).symm, ?_⟩
    have hlength : (xs.take index.toNat).length = index.toNat := by
      rw [List.length_take]
      omega
    have hinsert := insertIdx_append (a := a) (xs.take index.toNat) (xs.drop index.toNat)
    rw [hlength, List.take_append_drop] at hinsert
    rw [if_neg hend, hinsert]

omit [DecidableEq α] in
theorem map_insertAt {β : Type v} (f : α → β) (index : Int) (a : α) (xs : List α) :
    (insertAt index a xs).map f = insertAt index (f a) (xs.map f) := by
  unfold insertAt
  rw [List.length_map]
  split
  · simp
  · rw [List.map_insertIdx]

theorem idxOf?_map {β : Type v} [DecidableEq β] (f : α → β) (h : ∀ x ∈ xs, f x = f a → x = a) :
    (xs.map f).idxOf? (f a) = xs.idxOf? a := by
  induction xs with
  | nil => rfl
  | cons x xs ih =>
    have hx : (f x == f a) = (x == a) := by
      by_cases hxa : x = a
      · simp [hxa]
      · have hne : f x ≠ f a := fun heq => hxa (h x List.mem_cons_self heq)
        simp [hxa, hne]
    rw [List.map_cons, List.idxOf?_cons, List.idxOf?_cons, hx,
      ih fun y hy => h y (List.mem_cons_of_mem x hy)]

theorem idxOf?_append_cons (h : a ∉ before) : (before ++ a :: after).idxOf? a =
    some before.length := by
  induction before with
  | nil => simp [List.idxOf?_cons]
  | cons b before ih =>
    have hb : b ≠ a := fun hb => h (hb ▸ List.mem_cons_self)
    simp [List.idxOf?_cons, hb, ih fun hm => h (List.mem_cons_of_mem b hm)]

theorem move_append (hnodup : (before ++ after).Nodup) :
    move a ((before.length : Int), before ++ after) =
      (((before.erase a).length : Int), before.erase a ++ a :: after.erase a) := by
  by_cases hbefore : a ∈ before
  · have hafter : a ∉ after := fun h => (List.nodup_append.mp hnodup).2.2 a hbefore a h rfl
    obtain ⟨l, r, hl, heq, herase⟩ := List.exists_erase_eq hbefore
    have hfound : (before ++ after).idxOf? a = some l.length := by
      rw [heq, List.append_assoc, List.cons_append, idxOf?_append_cons hl]
    have hindex : adjust (before.length : Int) (some l.length) =
      ((before.erase a).length : Int) := by
      have hlength : before.length = (l ++ r).length + 1 := by
        rw [heq, List.length_append, List.length_cons, List.length_append, Nat.add_assoc]
      have hlt : (l.length : Int) < before.length := by
        rw [hlength, List.length_append]
        omega
      rw [adjust, if_pos (.inr hlt), herase, hlength]
      simp
    rw [move, hfound, hindex, List.erase_append_left after hbefore, insertAt_append,
      List.erase_of_not_mem hafter]
  · rw [List.erase_of_not_mem hbefore]
    have hindex : adjust (before.length : Int) ((before ++ after).idxOf? a) =
      (before.length : Int) := by
      by_cases hafter : a ∈ after
      · obtain ⟨l, r, hl, heq, -⟩ := List.exists_erase_eq hafter
        have hnot : a ∉ before ++ l := by
          rw [List.mem_append, not_or]
          exact ⟨hbefore, hl⟩
        rw [heq, ← List.append_assoc, idxOf?_append_cons hnot, adjust, if_neg]
        rw [List.length_append]
        omega
      · have hnone : (before ++ after).idxOf? a = none := by
          rw [List.idxOf?_eq_none_iff, List.mem_append, not_or]
          exact ⟨hbefore, hafter⟩
        rw [hnone, adjust]
    rw [move, hindex, List.erase_append_right after hbefore, insertAt_append]

theorem move_of_neg {index : Int} (hindex : index < 0) (xs : List α) :
    (move a (index, xs)).1 < 0 ∧ (move a (index, xs)).2 = xs.erase a ++ [a] := by
  have hneg : adjust index (xs.idxOf? a) < 0 := by
    unfold adjust
    cases xs.idxOf? a with
    | none => exact hindex
    | some found =>
      dsimp only
      split <;> omega
  exact ⟨hneg, by rw [move, insertAt, if_pos (.inl hneg)]⟩

theorem filter_not_mem_cons (hnodup : xs.Nodup) (a : α) (as : List α) :
    xs.filter (· ∉ a :: as) = (xs.filter (· ∉ as)).erase a := by
  rw [(hnodup.filter _).erase_eq_filter, List.filter_filter]
  refine List.filter_congr fun x _ => ?_
  by_cases hx : x = a <;> simp [hx]

theorem moveAll_append (hnodup : (before ++ after).Nodup) (has : as.Nodup) :
    moveAll as ((before.length : Int), before ++ after) =
      (((before.filter (· ∉ as)).length : Int),
        before.filter (· ∉ as) ++ (as ++ after.filter (· ∉ as))) := by
  induction as with
  | nil => simp [moveAll]
  | cons a as ih =>
    obtain ⟨ha, has⟩ := List.nodup_cons.mp has
    obtain ⟨hbefore, hafter, hdisjoint⟩ := List.nodup_append.mp hnodup
    have hstate : (before.filter (· ∉ as) ++ (as ++ after.filter (· ∉ as))).Nodup := by
      refine List.nodup_append.mpr ⟨hbefore.filter _,
        List.nodup_append.mpr ⟨has, hafter.filter _, ?_⟩, ?_⟩
      · rintro x hx y hy rfl
        exact absurd hx (by simpa using (List.mem_filter.mp hy).2)
      · rintro x hx y hy rfl
        obtain ⟨hx, hnot⟩ := List.mem_filter.mp hx
        obtain hy | hy := List.mem_append.mp hy
        · exact absurd hy (by simpa using hnot)
        · exact hdisjoint x hx x (List.mem_filter.mp hy).1 rfl
    rw [moveAll, List.foldr_cons, ← moveAll, ih has, move_append hstate,
      filter_not_mem_cons hbefore, filter_not_mem_cons hafter, List.erase_append_right _ ha,
      List.cons_append]

theorem moveAll_of_neg {index : Int} (hindex : index < 0) (hnodup : xs.Nodup) (has : as.Nodup) :
    (moveAll as (index, xs)).1 < 0 ∧
      (moveAll as (index, xs)).2 = xs.filter (· ∉ as) ++ as.reverse := by
  induction as with
  | nil => simp [moveAll, hindex]
  | cons a as ih =>
    obtain ⟨ha, has⟩ := List.nodup_cons.mp has
    obtain ⟨hneg, hlist⟩ := ih has
    obtain ⟨hneg', hlist'⟩ := move_of_neg (a := a) hneg (moveAll as (index, xs)).2
    refine ⟨hneg', hlist'.trans ?_⟩
    have hreverse : a ∉ as.reverse := by rwa [List.mem_reverse]
    rw [hlist, filter_not_mem_cons hnodup, List.reverse_cons, ← List.append_assoc]
    by_cases hmem : a ∈ xs.filter (· ∉ as)
    · rw [List.erase_append_left _ hmem]
    · rw [List.erase_append_right _ hmem, List.erase_of_not_mem hreverse,
        List.erase_of_not_mem hmem]

omit [DecidableEq α] in
theorem reverse_eq_self_iff (has : as.Nodup) : as.reverse = as ↔ as.length ≤ 1 := by
  constructor
  · intro h
    cases as with
    | nil => simp
    | cons a as =>
      cases as with
      | nil => simp
      | cons b as =>
        have hlast : (b :: as).getLast? = some a := by
          rw [← List.getLast?_cons_cons (a := a), ← h, List.getLast?_reverse, List.head?_cons]
        exact absurd (List.mem_of_getLast? hlast) (List.nodup_cons.mp has).1
  · intro h
    match as with
    | [] => rfl
    | [a] => rfl
    | a :: b :: as => simp at h

end Relocate
