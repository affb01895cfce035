import BathyScaphe.Lib.Splice
import Mathlib.Algebra.Order.BigOperators.Group.List
import Mathlib.Algebra.Order.Group.Nat
import Mathlib.Algebra.GroupWithZero.Nat

/-!
# Patches

Several ranges of a list are replaced at once: from the last one to the first, so that each
is replaced where it was in the list. The length that remains tells how many were replaced.
-/

namespace Splice

variable {α : Type u}

structure Patch (α : Type u) where
  location : Nat
  length : Nat
  new : List α

def Patch.max (p : Patch α) : Nat := p.location + p.length

def patch (p : Patch α) (xs : List α) : List α := splice p.location p.length p.new xs

def patchAll (ps : List (Patch α)) (xs : List α) : List α := ps.foldr patch xs

def Ordered (ps : List (Patch α)) : Prop := ps.Pairwise fun p q => p.max ≤ q.location

variable {p : Patch α} {ps : List (Patch α)} {xs ys : List α} {n : Nat}

theorem Patch.location_le (h : p.max ≤ n) : p.location ≤ n := Nat.le_trans (Nat.le_add_right _ _) h

theorem patchAll_append (ps qs : List (Patch α)) (xs : List α) :
    patchAll (ps ++ qs) xs = patchAll ps (patchAll qs xs) := List.foldr_append

theorem length_patch (h : p.max ≤ xs.length) :
    (patch p xs).length + p.length = xs.length + p.new.length :=
  length_splice h p.new

theorem le_length_patch (h : p.location ≤ xs.length) : p.location ≤ (patch p xs).length := by
  unfold patch splice
  simp only [List.length_append, List.length_take]
  omega

theorem le_length_patchAll (hordered : Ordered ps) (hin : ∀ p ∈ ps, p.max ≤ xs.length)
    (hfront : ∀ p ∈ ps, n ≤ p.location) (hn : n ≤ xs.length) : n ≤ (patchAll ps xs).length := by
  induction ps generalizing n with
  | nil => exact hn
  | cons p ps ih =>
    obtain ⟨hp, hps⟩ := List.pairwise_cons.mp hordered
    obtain ⟨hpin, hin⟩ := List.forall_mem_cons.mp hin
    have hle : p.location ≤ (patchAll ps xs).length := by
      apply ih hps hin (fun q hq => Patch.location_le (hp q hq))
      exact Patch.location_le hpin
    exact Nat.le_trans (hfront p List.mem_cons_self) (le_length_patch hle)

theorem length_patchAll (hordered : Ordered ps) (hin : ∀ p ∈ ps, p.max ≤ xs.length) :
    (patchAll ps xs).length + (ps.map (·.length)).sum =
      xs.length + (ps.map (·.new.length)).sum := by
  induction ps with
  | nil => rfl
  | cons p ps ih =>
    obtain ⟨hp, hps⟩ := List.pairwise_cons.mp hordered
    obtain ⟨hpin, hin⟩ := List.forall_mem_cons.mp hin
    have hlength := ih hps hin
    have hpatch : (patch p (patchAll ps xs)).length + p.length =
      (patchAll ps xs).length + p.new.length :=
      length_patch (le_length_patchAll hps hin hp hpin)
    simp only [List.map_cons, List.sum_cons, patchAll, List.foldr_cons]
    simp only [patchAll] at hlength hpatch
    omega

/-- Where each patch makes the list shorter, none is made if the length stays. -/
theorem eq_nil_of_length_patchAll (hordered : Ordered ps) (hin : ∀ p ∈ ps, p.max ≤ xs.length)
    (hshorter : ∀ p ∈ ps, p.new.length < p.length) (hlength : (patchAll ps xs).length = xs.length) :
    ps = [] := by
  cases ps with
  | nil => rfl
  | cons p ps =>
    obtain ⟨hp, hps⟩ := List.forall_mem_cons.mp hshorter
    have hsum : (ps.map (·.new.length)).sum ≤ (ps.map (·.length)).sum :=
      List.sum_le_sum fun q hq => Nat.le_of_lt (hps q hq)
    have hall := length_patchAll hordered hin
    simp only [List.map_cons, List.sum_cons] at hall
    omega

theorem getElem?_eq_of_patch (hxs : p.max ≤ xs.length) (hys : p.max ≤ ys.length)
    (h : patch p xs = patch p ys)
    (hk : k < p.location ∨ p.max ≤ k) : xs[k]? = ys[k]? := by
  have hxs' := Patch.location_le hxs
  have hys' := Patch.location_le hys
  unfold patch at h
  obtain hlt | hle := hk
  · rw [← getElem?_splice_before hlt hxs' p.length p.new, h, getElem?_splice_before hlt hys']
  · have hplace : k - p.length + p.new.length - p.new.length + p.length = k := by
      unfold Patch.max at hle
      omega
    have hbehind : p.location + p.new.length ≤ k - p.length + p.new.length := by
      unfold Patch.max at hle
      omega
    have hx := getElem?_splice_after hbehind hxs' p.length
    have hy := getElem?_splice_after hbehind hys' p.length
    rw [hplace] at hx hy
    rw [← hx, h, hy]

end Splice
