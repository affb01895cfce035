import BathyScaphe.Lib.Splice
import Mathlib.Data.List.TakeWhile

/-!
# Runs of equal values

The run of a place is the stretch of a list around it whose elements have the value that
the element at the place has, as far as given bounds.
-/

namespace Runs

open Splice

variable {α : Type u} {β : Type v} [DecidableEq β] (f : α → β)

def runLength (v : β) (xs : List α) : Nat := (xs.takeWhile (f · = v)).length

/-- Where the run of `x` at the place `i` begins, `lo` at the earliest. -/
def runStart (lo i : Nat) (x : α) (xs : List α) : Nat :=
  i - runLength f (f x) (slice lo (i - lo) xs).reverse

/-- Where the run of `x` at the place `i` ends, `hi` at the latest. -/
def runStop (hi i : Nat) (x : α) (xs : List α) : Nat := i + runLength f (f x) (slice i (hi - i) xs)

section
variable {f} {v : β} {xs : List α} {x y : α} {lo hi i j : Nat}

theorem runLength_le (v : β) (xs : List α) : runLength f v xs ≤ xs.length :=
  (List.takeWhile_prefix _).length_le

theorem eq_of_lt_runLength (hi : i < runLength f v xs) (hx : xs[i]? = some x) : f x = v := by
  have hget := List.prefix_iff_getElem?.mp (List.takeWhile_prefix (f · = v)) i hi
  rw [hx] at hget
  have hmem : x ∈ xs.takeWhile (f · = v) := by
    rw [Option.some.inj hget]
    exact List.getElem_mem hi
  have hvalue := List.mem_takeWhile_imp hmem
  exact of_decide_eq_true hvalue

theorem runLength_cons_pos (h : f x = v) (xs : List α) : 0 < runLength f v (x :: xs) := by
  rw [runLength, List.takeWhile_cons, if_pos (decide_eq_true h)]
  exact Nat.succ_pos _

theorem runStart_le : runStart f lo i x xs ≤ i := Nat.sub_le _ _

theorem le_runStart (hlo : lo ≤ i) : lo ≤ runStart f lo i x xs := by
  have hle := runLength_le (f := f) (f x) (slice lo (i - lo) xs).reverse
  have hlen : (slice lo (i - lo) xs).length ≤ i - lo := List.length_take_le _ _
  rw [List.length_reverse] at hle
  rw [runStart]
  omega

theorem runStop_le (hhi : i ≤ hi) : runStop f hi i x xs ≤ hi := by
  have hle := runLength_le (f := f) (f x) (slice i (hi - i) xs)
  have hlen : (slice i (hi - i) xs).length ≤ hi - i := List.length_take_le _ _
  rw [runStop]
  omega

theorem lt_runStop (hx : xs[i]? = some x) (hhi : i < hi) : i < runStop f hi i x xs := by
  obtain ⟨hlt, rfl⟩ := List.getElem?_eq_some_iff.mp hx
  have hcons : slice i (hi - i) xs = xs[i] :: slice (i + 1) (hi - (i + 1)) xs := by
    rw [slice, List.drop_eq_getElem_cons hlt,
      show hi - i = hi - (i + 1) + 1 by omega, List.take_succ_cons]
    rfl
  have hpos := runLength_cons_pos (f := f) rfl (slice (i + 1) (hi - (i + 1)) xs) (x := xs[i])
  rw [runStop, hcons]
  omega

theorem eq_of_mem_run (hx : xs[i]? = some x) (hlo : lo ≤ i) (hstart : runStart f lo i x xs ≤ j)
    (hstop : j < runStop f hi i x xs) (hy : xs[j]? = some y) : f y = f x := by
  obtain ⟨hlt, -⟩ := List.getElem?_eq_some_iff.mp hx
  obtain hj | hj := Nat.lt_or_ge j i
  · -- the elements in front of the place are counted away from it
    have hlen : (slice lo (i - lo) xs).length = i - lo := length_slice (by omega)
    have hle : lo ≤ runStart f lo i x xs := le_runStart hlo
    have hcount : i - 1 - j < runLength f (f x) (slice lo (i - lo) xs).reverse := by
      rw [runStart] at hstart hle
      omega
    refine eq_of_lt_runLength hcount ?_
    rw [List.getElem?_reverse (by omega), hlen, getElem?_slice (by omega), ← hy]
    congr 1
    omega
  · have hlen : (slice i (hi - i) xs).length ≤ hi - i := List.length_take_le _ _
    have hcount : j - i < runLength f (f x) (slice i (hi - i) xs) := by
      rw [runStop] at hstop
      omega
    have hin : j - i < hi - i := Nat.lt_of_lt_of_le (hcount.trans_le (runLength_le _ _)) hlen
    refine eq_of_lt_runLength hcount ?_
    rw [getElem?_slice hin, ← hy]
    congr 1
    omega

end

end Runs
