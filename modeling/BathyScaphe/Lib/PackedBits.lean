import Mathlib.Data.List.Basic

/-!
# Bits packed into words

Bit `i` of a list of words of width `w` is bit `i % w` of word `i / w`. A mask of
one bit changes this bit only; cutting the list and filling it up with zero words
keeps the bits below the cut.
-/

namespace PackedBits

variable {w : Nat} {words : List (BitVec w)} {i j : Nat}

def bitAt (words : List (BitVec w)) (i : Nat) : Bool := (words[i / w]?).any fun word =>
    word.getLsbD (i % w)

theorem bitAt_of_getElem? {word : BitVec w} (h : words[i / w]? = some word) :
    bitAt words i = word.getLsbD (i % w) := by
  rw [bitAt, h, Option.any_some]

theorem bitAt_of_le (h : words.length ≤ i / w) : bitAt words i = false := by
  rw [bitAt, List.getElem?_eq_none h, Option.any_none]

theorem bitAt_replicate_zero (n : Nat) : bitAt (List.replicate n 0#w) i = false := by
  by_cases h : i / w < n
  · rw [bitAt_of_getElem? (List.getElem?_replicate_of_lt h), BitVec.getLsbD_zero]
  · exact bitAt_of_le (by rw [List.length_replicate]; exact Nat.le_of_not_lt h)

theorem eq_iff_of_div_eq (h : j / w = i / w) : j = i ↔ j % w = i % w := by
  constructor
  · rintro rfl
    rfl
  · intro hmod
    rw [← Nat.div_add_mod j w, ← Nat.div_add_mod i w, h, hmod]

section Masks

variable {word : BitVec w}

/-- A word in the place of bit `i` changes the bits of this word only. -/
theorem bitAt_set (h : i / w < words.length) (word : BitVec w) :
    bitAt (words.set (i / w) word) j = if j / w = i / w then word.getLsbD (j % w)
    else bitAt words j := by
  split
  · rename_i hdiv
    exact bitAt_of_getElem? (by rw [hdiv, List.getElem?_set_self h])
  · rename_i hdiv
    rw [bitAt, List.getElem?_set_ne (Ne.symm hdiv), bitAt]

theorem bitAt_set_or (hw : 0 < w) (h : words[i / w]? = some word) :
    bitAt (words.set (i / w) (word ||| BitVec.twoPow w (i % w))) j =
      (decide (j = i) || bitAt words j) := by
  rw [bitAt_set (List.getElem?_eq_some_iff.mp h).1]
  split
  · rename_i hdiv
    have hplace : bitAt words j = word.getLsbD (j % w) := bitAt_of_getElem? (by rw [hdiv, h])
    rw [hplace, BitVec.getLsbD_or, BitVec.getLsbD_twoPow, Bool.or_comm]
    simp only [Nat.mod_lt i hw, decide_true, Bool.true_and, eq_iff_of_div_eq hdiv, eq_comm]
  · rename_i hdiv
    have hne : j ≠ i := fun heq => hdiv (heq ▸ rfl)
    rw [decide_eq_false hne, Bool.false_or]

theorem bitAt_set_and_not (hw : 0 < w) (h : words[i / w]? = some word) :
    bitAt (words.set (i / w) (word &&& ~~~BitVec.twoPow w (i % w))) j =
      (!decide (j = i) && bitAt words j) := by
  rw [bitAt_set (List.getElem?_eq_some_iff.mp h).1]
  split
  · rename_i hdiv
    have hplace : bitAt words j = word.getLsbD (j % w) := bitAt_of_getElem? (by rw [hdiv, h])
    rw [hplace, BitVec.getLsbD_and, BitVec.getLsbD_not, BitVec.getLsbD_twoPow, Bool.and_comm]
    simp only [Nat.mod_lt _ hw, decide_true, Bool.true_and, eq_iff_of_div_eq hdiv, eq_comm]
  · rename_i hdiv
    have hne : j ≠ i := fun heq => hdiv (heq ▸ rfl)
    rw [decide_eq_false hne, Bool.not_false, Bool.true_and]

theorem and_twoPow_ne_zero (hw : 0 < w) (h : words[i / w]? = some word) :
    (word &&& BitVec.twoPow w (i % w) != 0#w) = bitAt words i := by
  have hbit : (BitVec.twoPow w (i % w)).getLsbD (i % w) = true := by
    rw [BitVec.getLsbD_twoPow, decide_eq_true (Nat.mod_lt i hw), decide_eq_true rfl, Bool.and_self]
  have hne : BitVec.twoPow w (i % w) ≠ 0#w := by
    intro hzero
    rw [hzero, BitVec.getLsbD_zero] at hbit
    cases hbit
  rw [bitAt_of_getElem? h, BitVec.and_twoPow]
  cases word.getLsbD (i % w) with
  | true => exact bne_iff_ne.mpr hne
  | false => exact bne_self_eq_false _

end Masks

theorem bitAt_take (n : Nat) : bitAt (words.take n) i = (decide (i / w < n) && bitAt words i) := by
  by_cases h : i / w < n
  · rw [decide_eq_true h, Bool.true_and, bitAt, List.getElem?_take_of_lt h, bitAt]
  · rw [decide_eq_false h, Bool.false_and, bitAt_of_le]
    exact Nat.le_trans (List.length_take_le _ _) (Nat.le_of_not_lt h)

theorem bitAt_append_zero (n : Nat) : bitAt (words ++ List.replicate n 0#w) i = bitAt words i := by
  by_cases h : i / w < words.length
  · rw [bitAt, List.getElem?_append_left h, bitAt]
  · have hle := Nat.le_of_not_lt h
    rw [bitAt_of_le hle, bitAt, List.getElem?_append_right hle]
    by_cases h' : i / w - words.length < n
    · rw [List.getElem?_replicate_of_lt h', Option.any_some, BitVec.getLsbD_zero]
    · rw [List.getElem?_eq_none (by rw [List.length_replicate]; exact Nat.le_of_not_lt h'),
        Option.any_none]

end PackedBits
