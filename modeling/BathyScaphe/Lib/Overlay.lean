import BathyScaphe.Lib.Splice
import Mathlib.Data.List.Basic

/-!
# Layers over a list

Layers give values to stretches of a list. Where layers meet, the last one is seen. What
is seen is pieced together from whole layers if those of which something is seen share no
place; where a layer is seen in part, a piece cannot be longer than the part.
-/

namespace Overlay

open Splice

variable {α : Type u} {β : Type v}

structure Layer (β : Type v) where
  start : Nat
  stop : Nat
  value : β

def Layer.Covers (l : Layer β) (k : Nat) : Prop := l.start ≤ k ∧ k < l.stop

instance (l : Layer β) (k : Nat) : Decidable (l.Covers k) :=
  inferInstanceAs (Decidable (l.start ≤ k ∧ k < l.stop))

def valueAt : List (Layer β) → Nat → Option β
  | [], _ => none
  | l :: ls, k => (valueAt ls k).or (if l.Covers k then some l.value else none)

def painted (xs : List α) (ls : List (Layer β)) : List (α × Option β) :=
  xs.mapIdx fun k x => (x, valueAt ls k)

def cover (l : Layer β) (m : List (α × Option β)) : List (α × Option β) :=
  m.mapIdx fun k c => if l.Covers k then (c.1, some l.value) else c

/-- Elements without a value and pieces with the value that is good for them, one behind
the other. -/
inductive Pieced (good : List α → β → Prop) : List (α × Option β) → Prop
  | nil : Pieced good []
  | bare (x : α) : Pieced good m → Pieced good ((x, none) :: m)
  | piece : t ≠ [] → good t v → Pieced good m → Pieced good (t.map (·, some v) ++ m)

variable {xs : List α} {ls ls' : List (Layer β)} {l : Layer β} {good : List α → β → Prop}
  {m m' a b : List (α × Option β)}

-- What is seen

theorem valueAt_append (ls ls' : List (Layer β)) (k : Nat) :
    valueAt (ls ++ ls') k = (valueAt ls' k).or (valueAt ls k) := by
  induction ls with
  | nil => simp [valueAt]
  | cons l ls ih => rw [List.cons_append, valueAt, valueAt, ih, Option.or_assoc]

theorem valueAt_eq_none (h : ∀ l ∈ ls, ¬ l.Covers k) : valueAt ls k = none := by
  induction ls with
  | nil => rfl
  | cons l ls ih =>
    obtain ⟨hl, hls⟩ := List.forall_mem_cons.mp h
    rw [valueAt, ih hls, if_neg hl]
    rfl

theorem valueAt_eq_some (hmem : l ∈ ls) (hcovers : l.Covers k)
    (honly : ∀ l' ∈ ls, l'.Covers k → l' = l) : valueAt ls k = some l.value := by
  induction ls with
  | nil => exact absurd hmem List.not_mem_nil
  | cons l' ls ih =>
    obtain ⟨hl', hls⟩ := List.forall_mem_cons.mp honly
    rw [valueAt]
    by_cases hin : l ∈ ls
    · rw [ih hin hls]
      rfl
    · obtain rfl : l = l' := (List.mem_cons.mp hmem).resolve_right hin
      rw [valueAt_eq_none, if_pos hcovers]
      · rfl
      · intro l'' hl'' hcovers'
        exact hin (hls l'' hl'' hcovers' ▸ hl'')

theorem exists_of_valueAt {v : β} (h : valueAt ls k = some v) :
    ∃ l ∈ ls, l.Covers k ∧ l.value = v := by
  induction ls with
  | nil => cases h
  | cons l ls ih =>
    rw [valueAt] at h
    rcases hrest : valueAt ls k with _ | w
    · rw [hrest, Option.none_or] at h
      split at h
      · rename_i hcovers
        cases h
        exact ⟨l, List.mem_cons_self, hcovers, rfl⟩
      · cases h
    · rw [hrest, Option.some_or] at h
      obtain ⟨l', hl', hcovers⟩ := ih (hrest.trans h)
      exact ⟨l', List.mem_cons_of_mem l hl', hcovers⟩

theorem valueAt_ne_none (hmem : l ∈ ls) (hcovers : l.Covers k) : valueAt ls k ≠ none := by
  induction ls with
  | nil => exact absurd hmem List.not_mem_nil
  | cons l' ls ih =>
    rw [valueAt]
    rcases hrest : valueAt ls k with _ | w
    · obtain rfl : l = l' := (List.mem_cons.mp hmem).resolve_right fun hin => ih hin hrest
      simp [hcovers]
    · simp

theorem getElem?_painted (xs : List α) (ls : List (Layer β)) (k : Nat) :
    (painted xs ls)[k]? = xs[k]?.map fun x => (x, valueAt ls k) := List.getElem?_mapIdx

@[simp] theorem length_painted (xs : List α) (ls : List (Layer β)) :
    (painted xs ls).length = xs.length :=
  List.length_mapIdx

theorem painted_nil (xs : List α) : painted xs ([] : List (Layer β)) = xs.map (·, none) := by
  refine List.ext_getElem? fun k => ?_
  rw [getElem?_painted, List.getElem?_map]
  rfl

theorem cover_painted (l : Layer β) (xs : List α) (ls : List (Layer β)) :
    cover l (painted xs ls) = painted xs (ls ++ [l]) := by
  refine List.ext_getElem? fun k => ?_
  rw [cover, List.getElem?_mapIdx, getElem?_painted, getElem?_painted, valueAt_append,
    Option.map_map]
  refine congrArg (xs[k]?.map ·) (funext fun x => ?_)
  by_cases hcovers : l.Covers k <;> simp [valueAt, hcovers]

theorem slice_painted {v : Option β} (h : ∀ k, i ≤ k → k < i + n → valueAt ls k = v) :
    slice i n (painted xs ls) = (slice i n xs).map (·, v) := by
  refine List.ext_getElem? fun k => ?_
  by_cases hk : k < n
  · rw [getElem?_slice hk, getElem?_painted, List.getElem?_map, getElem?_slice hk,
      h (i + k) (by omega) (by omega)]
  · rw [slice, slice, List.getElem?_map, List.getElem?_take, if_neg hk,
      List.getElem?_take, if_neg hk]
    rfl

-- Pieces

theorem Pieced.append (h : Pieced good m) (h' : Pieced good m') : Pieced good (m ++ m') := by
  induction h with
  | nil => exact h'
  | bare x _ ih => exact .bare x ih
  | piece ht hgood _ ih =>
    rw [List.append_assoc]
    exact .piece ht hgood ih

theorem Pieced.exists_piece (h : Pieced good m) {k : Nat} (hk : m[k]? = some (x, some v)) :
    ∃ start t, good t v ∧ start ≤ k ∧ k < start + t.length ∧
      ∀ i, start ≤ i → i < start + t.length → ∃ y, m[i]? = some (y, some v) := by
  induction h generalizing k with
  | nil => cases hk
  | bare y _ ih =>
    cases k with
    | zero => cases hk
    | succ k =>
      obtain ⟨start, t, hgood, hstart, hstop, hall⟩ := ih hk
      refine ⟨start + 1, t, hgood, by omega, by omega, fun i hi hi' => ?_⟩
      obtain ⟨i, rfl⟩ := Nat.exists_eq_add_of_le' (Nat.le_trans (Nat.le_add_left 1 start) hi)
      exact hall i (by omega) (by omega)
  | @piece t w m ht hgood _ ih =>
    by_cases hin : k < t.length
    · rw [List.getElem?_append_left (by rwa [List.length_map]), List.getElem?_map,
        List.getElem?_eq_getElem hin] at hk
      cases hk
      refine ⟨0, t, hgood, Nat.zero_le k, by omega, fun i _ hi => ?_⟩
      have hi' : i < t.length := by omega
      refine ⟨t[i], ?_⟩
      rw [List.getElem?_append_left (by rw [List.length_map]; omega), List.getElem?_map,
        List.getElem?_eq_getElem (by omega)]
      rfl
    · have hlen : (t.map (·, some w)).length = t.length := List.length_map _
      rw [List.getElem?_append_right (by omega), hlen] at hk
      obtain ⟨start, t', hgood', hstart, hstop, hall⟩ := ih hk
      refine ⟨t.length + start, t', hgood', by omega, by omega, fun i hi hi' => ?_⟩
      rw [List.getElem?_append_right (by omega), hlen]
      exact hall _ (by omega) (by omega)

structure Ends (v : β) (i n : Nat) (m : List (α × Option β)) : Prop where
  front : ∀ k c, k + 1 = i → m[k]? = some c → c.2 ≠ some v
  behind : ∀ c, m[i + n]? = some c → c.2 ≠ some v

theorem Pieced.exists_piece_le (h : Pieced good m) (hslice : slice i t.length m = t.map (·, some v))
    (ht : t ≠ [])
    (hends : Ends v i t.length m) : ∃ t', good t' v ∧ t'.length ≤ t.length := by
  obtain ⟨x, t, rfl⟩ := List.exists_cons_of_ne_nil ht
  have hk : m[i]? = some (x, some v) := by
    rw [← head?_slice (Nat.succ_ne_zero t.length) i m]
    exact (congrArg List.head? hslice).trans rfl
  obtain ⟨start, t', hgood, hstart, hstop, hall⟩ := h.exists_piece hk
  have hlow : i ≤ start := by
    refine Nat.le_of_not_lt fun hlt => ?_
    obtain ⟨y, hy⟩ := hall (i - 1) (by omega) (by omega)
    exact hends.front (i - 1) _ (by omega) hy rfl
  refine ⟨t', hgood, Nat.le_of_not_lt fun hlt => ?_⟩
  obtain ⟨y, hy⟩ := hall (i + (x :: t).length) (by omega) (by omega)
  exact hends.behind _ hy rfl

theorem Ends.splice_before (h : Ends v i n m) (hlt : i + n < location) (hin : location ≤ m.length)
    (length : Nat)
    (new : List (α × Option β)) : Ends v i n (splice location length new m) where
  front k c hk hc := h.front k c hk (by rwa [getElem?_splice_before (by omega) hin] at hc)
  behind c hc := h.behind c (by rwa [getElem?_splice_before hlt hin] at hc)

theorem Ends.splice_after (h : Ends v i n m) (hlt : location + length < i)
    (hin : location ≤ m.length)
    (new : List (α × Option β)) :
    Ends v (i - length + new.length) n (splice location length new m) where
  front k c hk hc := by
    rw [getElem?_splice_after (by omega) hin] at hc
    exact h.front _ c (by omega) hc
  behind c hc := by
    rw [getElem?_splice_after (by omega) hin] at hc
    refine h.behind c ?_
    rwa [show i - length + new.length + n - new.length + length = i + n by omega] at hc

theorem Ends.splice_at {new : List (α × Option β)}
    (hfront : ∀ k c, k + 1 = i → m[k]? = some c → c.2 ≠ some v)
    (hin : i + n ≤ m.length) (hnew : ∀ c ∈ new, c.2 ≠ some v)
    (hbehind : ∀ c, m[i + n + length]? = some c → c.2 ≠ some v) :
    Ends v i n (splice (i + n) length new m) where
  front k c hk hc := hfront k c hk (by rwa [getElem?_splice_before (by omega) hin] at hc)
  behind c hc := by
    cases new with
    | nil =>
      have hget := @getElem?_splice_after (i + n) (i + n) _ [] m (Nat.le_refl _) hin length
      exact hbehind c (hget.symm.trans hc)
    | cons d new =>
      have hself := @slice_splice_self _ (i + n) length m hin (d :: new)
      have hhead := head?_slice (Nat.succ_ne_zero new.length) (i + n)
        (splice (i + n) length (d :: new) m)
      obtain rfl : d = c :=
        Option.some.inj ((congrArg List.head? hself).symm.trans (hhead.trans hc))
      exact hnew d List.mem_cons_self

-- Layers that share no place

structure Seen (ls : List (Layer β)) (family : Layer β → Prop) : Prop where
  apart : ∀ {l l' : Layer β} {k : Nat}, family l → family l' → l.Covers k → l'.Covers k → l = l'
  value : ∀ {l : Layer β} {k : Nat}, family l → l.Covers k → valueAt ls k = some l.value
  bare : ∀ {k : Nat}, (∀ l, family l → ¬ l.Covers k) → valueAt ls k = none

def Cut (family : Layer β → Prop) (k : Nat) : Prop := ∀ l, family l → ¬ (l.start < k ∧ k < l.stop)

variable {family : Layer β → Prop}

theorem Seen.cut_stop (hseen : Seen ls family) (hl : family l) (hlt : l.start < l.stop) :
    Cut family l.stop := by
  rintro l' hl' ⟨hstart, hstop⟩
  have hsame := hseen.apart (k := l.stop - 1) hl hl' ⟨by omega, by omega⟩ ⟨by omega, by omega⟩
  subst hsame
  omega

theorem Cut.succ (hbare : ∀ l, family l → ¬ l.Covers k) : Cut family (k + 1) := by
  rintro l hl ⟨hstart, hstop⟩
  exact hbare l hl ⟨by omega, by omega⟩

/-- Between two places over which no layer goes on, what is seen is pieced together. -/
theorem Seen.pieced_slice (hseen : Seen ls family)
    (hgood : ∀ l, family l → l.start < l.stop → good (slice l.start (l.stop - l.start) xs) l.value)
    (hi : Cut family i) (hj : Cut family (i + n)) (hin : i + n ≤ xs.length) :
    Pieced good (slice i n (painted xs ls)) := by
  induction n using Nat.strongRecOn generalizing i with
  | _ n ih =>
    cases n with
    | zero =>
      rw [slice, List.take_zero]
      exact .nil
    | succ n =>
      by_cases hcovered : ∃ l, family l ∧ l.Covers i
      · -- a layer begins here, and ends in front of the other place
        obtain ⟨l, hl, hcovers⟩ := hcovered
        have hstart : l.start = i := Nat.le_antisymm hcovers.1 (Nat.le_of_not_lt fun hlt =>
          hi l hl ⟨hlt, hcovers.2⟩)
        subst hstart
        have hlt := hcovers.2
        have hstop : l.stop ≤ l.start + (n + 1) := Nat.le_of_not_lt fun hlt' =>
          hj l hl ⟨by omega, hlt'⟩
        obtain ⟨k, hk⟩ := Nat.exists_eq_add_of_le hlt
        obtain ⟨rest, hrest⟩ := Nat.exists_eq_add_of_le hstop
        have hn : n + 1 = (l.stop - l.start) + rest := by omega
        have hend : l.start + (l.stop - l.start) = l.stop := by omega
        rw [hn, slice_add, hend, slice_painted fun k hle hlt' => hseen.value hl ⟨hle, by omega⟩]
        refine .piece (fun hnil => ?_) (hgood l hl hlt) (ih rest (by omega)
          (hseen.cut_stop hl hlt) ?_ (by omega))
        · have hlen : (slice l.start (l.stop - l.start) xs).length = l.stop - l.start :=
            length_slice (by omega)
          rw [hnil, List.length_nil] at hlen
          omega
        · rwa [← hrest]
      · have hbare : ∀ l, family l → ¬ l.Covers i := fun l hl hcovers => hcovered ⟨l, hl, hcovers⟩
        have hin' : i < xs.length := by omega
        rw [Nat.add_comm n 1, slice_add]
        have hone : slice i 1 (painted xs ls) = [(xs[i], none)] := by
          rw [slice_painted (v := none) fun k hle hlt => by
            obtain rfl : k = i := by omega
            exact hseen.bare hbare]
          rw [slice, List.drop_eq_getElem_cons hin', List.take_succ_cons, List.take_zero]
          rfl
        rw [hone]
        exact .bare _ (ih n (by omega) (Cut.succ hbare) (by rwa [Nat.add_assoc, Nat.add_comm 1 n])
          (by omega))

def Apart (ls : List (Layer β)) : Prop := ∀ l ∈ ls, ∀ l' ∈ ls, ∀ k, l.Covers k →
    l'.Covers k → l = l'

/-- Of two sets of layers each of which share no place, the upper ones are seen, and the
lower ones that do not meet them, if the others are covered as a whole. -/
theorem seen_append {lower upper : List (Layer β)} (hlower : Apart lower) (hupper : Apart upper)
    (hmeet : ∀ l ∈ lower, ∀ l' ∈ upper, (∀ k, l.Covers k → ¬ l'.Covers k) ∨ ∀ k,
      l.Covers k → l'.Covers k) :
    Seen (lower ++ upper) fun l => l ∈ upper ∨ l ∈ lower ∧ ∀ l' ∈ upper, ∀ k, l.Covers k →
      ¬ l'.Covers k where
  apart := by
    rintro l l' k (hl | ⟨hl, hfree⟩) (hl' | ⟨hl', hfree'⟩) hk hk'
    · exact hupper l hl l' hl' k hk hk'
    · exact absurd hk (hfree' l hl k hk')
    · exact absurd hk' (hfree l' hl' k hk)
    · exact hlower l hl l' hl' k hk hk'
  value := by
    rintro l k (hl | ⟨hl, hfree⟩) hk
    · rw [valueAt_append, valueAt_eq_some hl hk fun l' hl' hk' => hupper l' hl' l hl k hk' hk]
      rfl
    · rw [valueAt_append, valueAt_eq_none fun l' hl' => hfree l' hl' k hk,
        valueAt_eq_some hl hk fun l' hl' hk' => hlower l' hl' l hl k hk' hk]
      rfl
  bare := by
    intro k hbare
    refine valueAt_eq_none fun l hl hk => ?_
    obtain hl | hl := List.mem_append.mp hl
    · refine hbare l (.inr ⟨hl, fun l' hl' k' hk' => ?_⟩) hk
      obtain hapart | hinside := hmeet l hl l' hl'
      · exact hapart k' hk'
      · exact absurd (hinside k hk) (hbare l' (.inl hl'))
    · exact hbare l (.inl hl) hk

end Overlay
