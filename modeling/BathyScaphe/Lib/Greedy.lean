import Mathlib.Data.List.Infix

/-!
# Leftmost greedy matching

A pattern is a sequence of items that a backtracking search tries in order: a
repetition tries to take much before little, alternatives are tried as they are
written. What is found is the first match at the leftmost place that has one, as
the list of what each item has taken.
-/

namespace Greedy

variable {α : Type u} {β : Type v}

inductive Item (α : Type u) where
  /-- Elements of a set, `least` of them or more. -/
  | many (least : Nat) (p : α → Bool)
  | alternatives (texts : List (List α))

def takeMany (p : α → Bool) (next : List α → Option β) : Nat → List α → Option (List α × β)
  | least, [] => if least = 0 then (next []).map ([], ·) else none
  | least, c :: s =>
    (if p c then (takeMany p next (least - 1) s).map fun (taken, b) => (c :: taken, b) else none).or
      (if least = 0 then (next (c :: s)).map ([], ·) else none)

section
variable [DecidableEq α]

def Item.take (next : List α → Option β) : Item α → List α → Option (List α × β)
  | .many least p, s => takeMany p next least s
  | .alternatives texts, s =>
    texts.findSome? fun text =>
      if text <+: s then (next (s.drop text.length)).map (text, ·) else none

def matchHere : List (Item α) → List α → Option (List (List α))
  | [], _ => some []
  | item :: items, s => (item.take (matchHere items) s).map fun (taken, rest) => taken :: rest

def firstMatch (items : List (Item α)) : List α → Option (List (List α))
  | [] => matchHere items []
  | c :: s => (matchHere items (c :: s)).or (firstMatch items s)

end

variable {p : α → Bool} {next : List α → Option β} {s u rest : List α} {b : β}

theorem takeMany_eq_none (least : Nat)
    (h : ∀ v rest, s = v ++ rest → (∀ c ∈ v, p c = true) → next rest = none) :
    takeMany p next least s = none := by
  induction s generalizing least with
  | nil => simp [takeMany, h [] [] rfl]
  | cons c s ih =>
    have hhere : next (c :: s) = none := h [] (c :: s) rfl (by simp)
    rw [takeMany, hhere, Option.map_none, ite_self, Option.or_none]
    by_cases hc : p c = true
    · have hlater : takeMany p next (least - 1) s = none := by
        refine ih (least - 1) fun v rest hs hv => h (c :: v) rest (by rw [hs, List.cons_append]) ?_
        simpa [hc] using hv
      rw [if_pos hc, hlater, Option.map_none]
    · rw [if_neg hc]

theorem takeMany_append {least : Nat} (hu : ∀ c ∈ u, p c = true) (hleast : least ≤ u.length)
    (hnext : next rest = some b)
    (hlonger : ∀ v rest', rest = v ++ rest' → v ≠ [] → (∀ c ∈ v, p c = true) → next rest' = none) :
    takeMany p next least (u ++ rest) = some (u, b) := by
  induction u generalizing least with
  | nil =>
    obtain rfl : least = 0 := Nat.le_zero.mp hleast
    cases rest with
    | nil => simp [takeMany, hnext]
    | cons c s =>
      have hmore : (if p c = true then (takeMany p next (0 - 1) s).map fun (taken, b) =>
        (c :: taken, b)
          else none) = none := by
        by_cases hc : p c = true
        · have hs : takeMany p next (0 - 1) s = none := by
            refine takeMany_eq_none _ fun v rest' hs hv => ?_
            exact hlonger (c :: v) rest' (by rw [hs, List.cons_append]) (List.cons_ne_nil c v)
              (by simpa [hc] using hv)
          rw [if_pos hc, hs, Option.map_none]
        · rw [if_neg hc]
      simp only [List.nil_append, takeMany, hmore, Option.none_or, if_true, hnext, Option.map_some]
  | cons c u ih =>
    have hc : p c = true := hu c List.mem_cons_self
    have hrest : takeMany p next (least - 1) (u ++ rest) = some (u, b) := by
      refine ih (fun d hd => hu d (List.mem_cons_of_mem c hd)) ?_
      rw [List.length_cons] at hleast
      omega
    rw [List.cons_append, takeMany, if_pos hc, hrest, Option.map_some, Option.some_or]

theorem takeMany_of_head {least : Nat} (hu : ∀ c ∈ u, p c = true) (hleast : least ≤ u.length)
    (hnext : next rest = some b) (hhead : ∀ c ∈ rest.head?, p c = false) :
    takeMany p next least (u ++ rest) = some (u, b) := by
  refine takeMany_append hu hleast hnext fun v rest' hrest hne hv => ?_
  cases v with
  | nil => exact absurd rfl hne
  | cons c v =>
    have hc : p c = false := hhead c (by simp [hrest])
    rw [hv c List.mem_cons_self] at hc
    cases hc

theorem firstMatch_of_matchHere [DecidableEq α] {items : List (Item α)} {found : List (List α)}
    (h : matchHere items s = some found) : firstMatch items s = some found := by
  cases s with
  | nil => exact h
  | cons c s => rw [firstMatch, h, Option.some_or]

end Greedy
