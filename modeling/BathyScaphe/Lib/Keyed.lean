import Mathlib.Data.List.Basic
import Mathlib.Data.List.Induction

/-!
# Adding to a list by key

`add` takes out the elements that a test finds to be replaced and puts the new element at
the end. The test may find elements of the same key only. Of a key whose elements it finds,
a run of additions leaves the last element, and of a key whose elements it does not find,
all of them.

A list may also be cleared, or turned around, between the additions.
-/

namespace Keyed

variable {α : Type u} {κ : Type v}

def add (replaces : α → α → Bool) (xs : List α) (x : α) : List α :=
  xs.filter (fun y => !replaces x y) ++ [x]

def addAll (replaces : α → α → Bool) (xs adds : List α) : List α := adds.foldl (add replaces) xs

section
variable {replaces : α → α → Bool} {key : α → κ}

theorem addAll_concat (xs adds : List α) (x : α) :
    addAll replaces xs (adds ++ [x]) = add replaces (addAll replaces xs adds) x := by
  rw [addAll, List.foldl_append]
  rfl

theorem filter_add (hkey : ∀ x y, replaces x y = true → key y = key x) {p : κ → Bool}
    (hp : p (key x) = false)
    (xs : List α) : (add replaces xs x).filter (fun y => p (key y)) = xs.filter fun y =>
      p (key y) := by
  rw [add, List.filter_append, List.filter_singleton, hp, List.filter_filter]
  refine (List.append_nil _).trans (List.filter_congr fun y _ => ?_)
  cases hreplaces : replaces x y with
  | false => exact Bool.and_true _
  | true => rw [hkey x y hreplaces, hp, Bool.false_and]

theorem filter_addAll (hkey : ∀ x y, replaces x y = true → key y = key x) {p : κ → Bool}
    {adds : List α}
    (hp : ∀ x ∈ adds, p (key x) = false) (xs : List α) :
    (addAll replaces xs adds).filter (fun y => p (key y)) = xs.filter fun y => p (key y) := by
  induction adds generalizing xs with
  | nil => rfl
  | cons x adds ih =>
    rw [addAll, List.foldl_cons, ← addAll, ih fun y hy => hp y (List.mem_cons_of_mem x hy)]
    exact filter_add hkey (hp x List.mem_cons_self) xs

end

variable [DecidableEq κ] (replaces : α → α → Bool) (key : α → κ)

def ofKey (k : κ) (xs : List α) : List α := xs.filter fun x => key x = k

/-- The test finds the elements of a key, or it finds none of them. -/
def Finds (k : κ) : Prop := ∀ x y, key x = k → key y = k → replaces x y = true

def Misses (k : κ) : Prop := ∀ x y, key x = k → key y = k → replaces x y = false

section
variable {replaces key}

theorem ofKey_append (k : κ) (xs ys : List α) :
    ofKey key k (xs ++ ys) = ofKey key k xs ++ ofKey key k ys :=
  List.filter_append xs ys

theorem ofKey_singleton (hk : key x = k) : ofKey key k [x] = [x] := by
  rw [ofKey, List.filter_singleton, decide_eq_true hk]
  rfl

theorem ofKey_singleton_of_ne (hk : key x ≠ k) : ofKey key k [x] = [] := by
  rw [ofKey, List.filter_singleton, decide_eq_false hk]
  rfl

theorem ofKey_add_of_ne (hkey : ∀ x y, replaces x y = true → key y = key x) (hne : key x ≠ k)
    (xs : List α) :
    ofKey key k (add replaces xs x) = ofKey key k xs :=
  filter_add hkey (p := fun l => l = k) (decide_eq_false hne) xs

theorem ofKey_add_of_finds (h : Finds replaces key k) (hk : key x = k) (xs : List α) :
    ofKey key k (add replaces xs x) = [x] := by
  rw [add, ofKey_append, ofKey_singleton hk, ofKey, List.filter_filter]
  have hnone : xs.filter (fun y => decide (key y = k) && !replaces x y) = [] := by
    rw [List.filter_eq_nil_iff]
    intro y _ hy
    obtain ⟨hy, hnot⟩ := Bool.and_eq_true_iff.mp hy
    rw [h x y hk (of_decide_eq_true hy)] at hnot
    cases hnot
  rw [hnone]
  rfl

theorem ofKey_add_of_misses (h : Misses replaces key k) (hk : key x = k) (xs : List α) :
    ofKey key k (add replaces xs x) = ofKey key k xs ++ [x] := by
  rw [add, ofKey_append, ofKey_singleton hk, ofKey, ofKey, List.filter_filter]
  refine congrArg (· ++ [x]) (List.filter_congr fun y _ => ?_)
  by_cases hy : key y = k
  · rw [h x y hk hy]
    exact Bool.and_true _
  · rw [decide_eq_false hy, Bool.false_and]

theorem ofKey_addAll_of_finds (hkey : ∀ x y, replaces x y = true → key y = key x)
    (h : Finds replaces key k)
    (adds : List α) : ofKey key k (addAll replaces [] adds) =
      (ofKey key k adds).getLast?.toList := by
  induction adds using List.reverseRecOn with
  | nil => rfl
  | append_singleton adds x ih =>
    rw [addAll_concat, ofKey_append]
    by_cases hk : key x = k
    · rw [ofKey_add_of_finds h hk, ofKey_singleton hk, List.getLast?_concat]
      rfl
    · rw [ofKey_add_of_ne hkey hk, ih, ofKey_singleton_of_ne hk, List.append_nil]

theorem ofKey_addAll_of_misses (hkey : ∀ x y, replaces x y = true → key y = key x)
    (h : Misses replaces key k)
    (adds : List α) : ofKey key k (addAll replaces [] adds) = ofKey key k adds := by
  induction adds using List.reverseRecOn with
  | nil => rfl
  | append_singleton adds x ih =>
    rw [addAll_concat, ofKey_append]
    by_cases hk : key x = k
    · rw [ofKey_add_of_misses h hk, ih, ofKey_singleton hk]
    · rw [ofKey_add_of_ne hkey hk, ih, ofKey_singleton_of_ne hk, List.append_nil]

theorem mem_addAll (h : x ∈ addAll replaces xs adds) : x ∈ xs ∨ x ∈ adds := by
  induction adds using List.reverseRecOn with
  | nil => exact .inl h
  | append_singleton adds y ih =>
    rw [addAll_concat] at h
    obtain h | h := List.mem_append.mp h
    · exact (ih (List.mem_of_mem_filter h)).imp_right (List.mem_append_left _)
    · exact .inr (List.mem_append_right _ h)

end

-- Additions and clearings

inductive Op (α : Type u) where
  | add (x : α)
  | keep (p : α → Bool)
  | reverse

def applyOp (xs : List α) : Op α → List α
  | .add x => add replaces xs x
  | .keep p => xs.filter p
  | .reverse => xs.reverse

def run (ops : List (Op α)) : List α := ops.foldl (applyOp replaces) []

/-- The last element of a key that was added, unless it has been cleared. -/
def leaveOp (k : κ) (old : Option α) : Op α → Option α
  | .add x => if key x = k then some x else old
  | .keep p => old.filter p
  | .reverse => old

def left (k : κ) (ops : List (Op α)) : Option α := ops.foldl (leaveOp key k) none

section
variable {replaces key}

theorem ofKey_filter (k : κ) (p : α → Bool) (xs : List α) :
    ofKey key k (xs.filter p) = (ofKey key k xs).filter p := by
  rw [ofKey, ofKey, List.filter_filter, List.filter_filter]
  exact List.filter_congr fun x _ => Bool.and_comm _ _

theorem toList_filter (p : α → Bool) (old : Option α) :
    old.toList.filter p = (old.filter p).toList := by
  cases old with
  | none => rfl
  | some x => cases h : p x <;> simp [Option.filter, h]

theorem ofKey_applyOp_of_finds (hkey : ∀ x y, replaces x y = true → key y = key x)
    (h : Finds replaces key k)
    (hxs : ofKey key k xs = old.toList) (op : Op α) :
    ofKey key k (applyOp replaces xs op) = (leaveOp key k old op).toList := by
  cases op with
  | add x =>
    by_cases hk : key x = k
    · rw [applyOp, ofKey_add_of_finds h hk, leaveOp, if_pos hk]
      rfl
    · rw [applyOp, ofKey_add_of_ne hkey hk, leaveOp, if_neg hk, hxs]
  | keep p => rw [applyOp, ofKey_filter, hxs, toList_filter, leaveOp]
  | reverse =>
    rw [applyOp, ofKey, List.filter_reverse, ← ofKey, hxs, leaveOp]
    cases old <;> rfl

theorem ofKey_run_of_finds (hkey : ∀ x y, replaces x y = true → key y = key x)
    (h : Finds replaces key k)
    (ops : List (Op α)) : ofKey key k (run replaces ops) = (left key k ops).toList := by
  induction ops using List.reverseRecOn with
  | nil => rfl
  | append_singleton ops op ih =>
    rw [run, left, List.foldl_append, List.foldl_append]
    exact ofKey_applyOp_of_finds hkey h ih op

end

end Keyed
