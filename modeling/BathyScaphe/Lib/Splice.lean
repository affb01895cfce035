import Mathlib.Data.List.Basic

/-!
# Slices of a list under replacement

`slice` reads a range of a list and `splice` replaces one. A slice on either
side of the replaced range is read unchanged, at its old place or at the place
it moved to.
-/

namespace Splice

variable {α : Type u}

def slice (location length : Nat) (xs : List α) : List α := (xs.drop location).take length

def splice (location length : Nat) (new xs : List α) : List α :=
  xs.take location ++ new ++ xs.drop (location + length)

theorem length_slice (h : l + n ≤ xs.length) : (slice l n xs).length = n := by
  rw [slice, List.length_take, List.length_drop]
  omega

theorem getElem?_slice (h : i < n) : (slice l n xs)[i]? = xs[l + i]? := by
  rw [slice, List.getElem?_take_of_lt h, List.getElem?_drop]

theorem slice_add (i n n' : Nat) (xs : List α) : slice i (n + n') xs = slice i n xs ++ slice
    (i + n) n' xs := by
  rw [slice, slice, slice, List.take_add, List.drop_drop]

theorem head?_slice (h : n ≠ 0) (l : Nat) (xs : List α) : (slice l n xs).head? = xs[l]? := by
  rw [List.head?_eq_getElem?, getElem?_slice (Nat.pos_of_ne_zero h), Nat.add_zero]

theorem insertIdx_length (front back : List α) (x : α) :
    (front ++ back).insertIdx front.length x = front ++ x :: back := by
  induction front with
  | nil => rfl
  | cons first front ih => exact congrArg (first :: ·) ih

theorem length_splice (h : location + length ≤ xs.length) (new : List α) :
    (splice location length new xs).length + length = xs.length + new.length := by
  simp only [splice, List.length_append, List.length_take, List.length_drop]
  omega

theorem slice_splice_before (hbefore : l + n ≤ location) (h : location ≤ xs.length)
    (new : List α) : slice l n (splice location length new xs) = slice l n xs := by
  have hle : l ≤ (xs.take location).length := by rw [List.length_take]; omega
  have hin : n ≤ (List.drop l (xs.take location)).length := by
    rw [List.length_drop, List.length_take]
    omega
  rw [slice, slice, splice, List.append_assoc, List.drop_append_of_le_length hle,
    List.take_append_of_le_length hin, List.drop_take, List.take_take]
  congr 1
  omega

theorem slice_splice_self (h : location ≤ xs.length) (new : List α) :
    slice location new.length (splice location length new xs) = new := by
  have hlen : (xs.take location).length = location := by rw [List.length_take]; omega
  rw [slice, splice, List.append_assoc, List.drop_append_of_le_length (by omega),
    List.drop_of_length_le (by omega), List.nil_append, List.take_left']
  rfl

theorem slice_splice_after (hafter : location + length ≤ l) (h : location + length ≤ xs.length)
    (new : List α) :
    slice (l - length + new.length) n (splice location length new xs) = slice l n xs := by
  have hlen : (xs.take location ++ new).length = location + new.length := by
    rw [List.length_append, List.length_take]
    omega
  rw [slice, slice, splice, List.drop_append, List.drop_of_length_le (by omega), List.nil_append,
    List.drop_drop]
  congr 2
  omega

theorem getElem?_splice_before (h : i < location) (hin : location ≤ xs.length) (length : Nat)
    (new : List α) : (splice location length new xs)[i]? = xs[i]? := by
  have hlen : (xs.take location).length = location := by rw [List.length_take]; omega
  rw [splice, List.append_assoc, List.getElem?_append_left (by omega), List.getElem?_take_of_lt h]

theorem getElem?_splice_after (h : location + new.length ≤ i) (hin : location ≤ xs.length)
    (length : Nat) :
    (splice location length new xs)[i]? = xs[i - new.length + length]? := by
  have hlen : (xs.take location ++ new).length = location + new.length := by
    rw [List.length_append, List.length_take]
    omega
  rw [splice, List.getElem?_append_right (by omega), List.getElem?_drop]
  congr 1
  omega

theorem slice_append_left (h : l + n ≤ xs.length) (ys : List α) :
    slice l n (xs ++ ys) = slice l n xs := by
  have hin : n ≤ (xs.drop l).length := by
    rw [List.length_drop]
    omega
  rw [slice, slice, List.drop_append_of_le_length (by omega), List.take_append_of_le_length hin]

theorem slice_append_self (xs ys : List α) : slice xs.length ys.length (xs ++ ys) = ys := by
  rw [slice, List.drop_left, List.take_length]

end Splice
