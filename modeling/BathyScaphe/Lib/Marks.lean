import BathyScaphe.Lib.Splice
import Mathlib.Data.List.SplitBy

/-!
# Removing marked elements block by block

`blocks` cuts a list where the mark of the elements changes. When the marked blocks
are removed one after the other, every location behind a block moves to the front by
its length; a location inside of a block does not move. Where no location is inside
of a block, each one ends up behind the elements without a mark that it was behind.
-/

namespace Marks

open Splice

variable {α : Type u} {p : α → Bool} {xs ys block : List α} {bs : List (List α)}

-- Ranks

def rank (p : α → Bool) (xs : List α) (location : Nat) : Nat :=
  (xs.take location).countP fun x => !p x

def unmarked (p : α → Bool) (xs : List α) : List α := xs.filter fun x => !p x

@[simp] theorem rank_zero : rank p xs 0 = 0 := rfl

theorem rank_append_add (k : Nat) :
    rank p (xs ++ ys) (xs.length + k) = xs.countP (fun x => !p x) + rank p ys k := by
  rw [rank, List.take_length_add_append, List.countP_append, rank]

theorem rank_append_of_le (h : k ≤ xs.length) : rank p (xs ++ ys) k = rank p xs k := by
  rw [rank, List.take_append_of_le_length h, rank]

theorem rank_le_rank (p : α → Bool) (xs : List α) (h : k ≤ l) : rank p xs k ≤ rank p xs l :=
  (List.take_sublist_take_left h).countP_le

theorem rank_le_length_unmarked (p : α → Bool) (xs : List α) (k : Nat) :
    rank p xs k ≤ (unmarked p xs).length := by
  rw [unmarked, ← List.countP_eq_length_filter]
  exact (List.take_sublist k xs).countP_le

theorem countP_of_unmarked (h : ∀ x ∈ xs, p x = false) : xs.countP (fun x => !p x) = xs.length := by
  rw [List.countP_eq_length]
  intro x hx
  rw [h x hx]
  rfl

theorem countP_of_marked (h : ∀ x ∈ xs, p x = true) : xs.countP (fun x => !p x) = 0 := by
  rw [List.countP_eq_zero]
  intro x hx
  rw [h x hx]
  exact Bool.false_ne_true

theorem rank_of_unmarked (h : ∀ x ∈ xs, p x = false) (hk : k ≤ xs.length) : rank p xs k = k := by
  rw [rank, countP_of_unmarked fun x hx => h x (List.mem_of_mem_take hx), List.length_take,
    Nat.min_eq_left hk]

theorem eq_take_append_slice (l n : Nat) (xs : List α) :
    xs = xs.take l ++ (slice l n xs ++ xs.drop (l + n)) := by
  rw [slice, ← List.drop_drop, List.take_append_drop, List.take_append_drop]

theorem slice_unmarked (h : ∀ x ∈ slice l n xs, p x = false) (hin : l + n ≤ xs.length) :
    rank p xs (l + n) = rank p xs l + n ∧ slice (rank p xs l) n (unmarked p xs) = slice l n xs := by
  have hlength : (slice l n xs).length = n := by
    rw [slice, List.length_take, List.length_drop]
    omega
  have htake : (xs.take l).length = l := by
    rw [List.length_take]
    omega
  have hsplit := eq_take_append_slice l n xs
  refine ⟨?_, ?_⟩
  · have hrank : rank p (xs.take l ++ (slice l n xs ++ xs.drop (l + n))) (l + n) =
      rank p xs l + n := by
      have hadd := @rank_append_add _ p (xs.take l) (slice l n xs ++ xs.drop (l + n)) n
      rw [htake] at hadd
      rw [hadd, rank_append_of_le (Nat.le_of_eq hlength.symm),
        rank_of_unmarked h (Nat.le_of_eq hlength.symm), rank]
    rwa [← hsplit] at hrank
  · have hfilter :
      unmarked p xs = unmarked p (xs.take l) ++ (slice l n xs ++ unmarked p (xs.drop (l + n))) := by
      have hall : unmarked p (slice l n xs) = slice l n xs :=
        List.filter_eq_self.mpr fun x hx => by rw [h x hx]; rfl
      conv_lhs => rw [hsplit]
      rw [unmarked, List.filter_append, List.filter_append]
      exact congrArg₂ (· ++ ·) rfl (congrArg₂ (· ++ ·) hall rfl)
    have hrank : rank p xs l = (unmarked p (xs.take l)).length := by
      rw [rank, unmarked, List.countP_eq_length_filter]
    rw [hfilter, hrank]
    rw [slice, List.drop_left, List.take_left' hlength]

-- Blocks

def blocks (p : α → Bool) (xs : List α) : List (List α) := xs.splitBy fun x y => p x == p y

def Uniform (p : α → Bool) (block : List α) : Prop := ∀ x ∈ block, p x = block.any p

theorem uniform_of_mem_blocks (h : block ∈ blocks p xs) : Uniform p block := by
  have hchain : block.IsChain fun x y => (p x == p y) = true := List.isChain_of_mem_splitBy h
  clear h
  induction block with
  | nil => exact nofun
  | cons x block ih =>
    cases block with
    | nil =>
      intro y hy
      rw [List.mem_singleton.mp hy]
      simp
    | cons z block =>
      have hxz : p x = p z := eq_of_beq (List.isChain_cons_cons.mp hchain).1
      have hrest := ih (List.isChain_cons_cons.mp hchain).2
      have hz : p z = (z :: block).any p := hrest z List.mem_cons_self
      have hany : (x :: z :: block).any p = (z :: block).any p := by
        rw [List.any_cons, hxz, hz, Bool.or_self]
      intro y hy
      rw [hany]
      obtain rfl | hy := List.mem_cons.mp hy
      · rw [hxz, hz]
      · exact hrest y hy

theorem uniform_blocks (p : α → Bool) (xs : List α) : ∀ block ∈ blocks p xs, Uniform p block :=
  fun _ => uniform_of_mem_blocks

theorem flatten_blocks (p : α → Bool) (xs : List α) : (blocks p xs).flatten = xs :=
  List.flatten_splitBy _ xs

theorem Uniform.marked (h : Uniform p block) (hany : block.any p = true) :
    ∀ x ∈ block, p x = true :=
  fun x hx => (h x hx).trans hany

theorem Uniform.unmarked (h : Uniform p block) (hany : block.any p = false) :
    ∀ x ∈ block, p x = false :=
  fun x hx => (h x hx).trans hany

theorem unmarked_flatten (h : ∀ block ∈ bs, Uniform p block) :
    unmarked p bs.flatten = (bs.filter fun block => !block.any p).flatten := by
  induction bs with
  | nil => rfl
  | cons block bs ih =>
    obtain ⟨hblock, hbs⟩ := List.forall_mem_cons.mp h
    rw [List.flatten_cons, Marks.unmarked, List.filter_append]
    cases hany : block.any p with
    | true =>
      have hnone : block.filter (fun x => !p x) = [] := by
        rw [List.filter_eq_nil_iff]
        intro x hx
        rw [hblock.marked hany x hx]
        exact Bool.false_ne_true
      rw [hnone, List.filter_cons_of_neg (by simp [hany]), List.nil_append]
      exact ih hbs
    | false =>
      have hall : block.filter (fun x => !p x) = block :=
        List.filter_eq_self.mpr fun x hx => by rw [hblock.unmarked hany x hx]; rfl
      rw [hall, List.filter_cons_of_pos (by simp [hany]), List.flatten_cons]
      exact congrArg _ (ih hbs)

-- Locations

/-- Where a location moves when the marked ones of the blocks, which start at
`location`, are removed from the front. -/
def move (p : α → Bool) : Nat → List (List α) → Nat → Nat
  | _, [], x => x
  | location, block :: bs, x =>
    if block.any p then move p location bs (if location + block.length ≤ x then x - block.length
    else x)
    else move p (location + block.length) bs x

/-- The elements on both sides of a location have the mark. -/
def Inside (p : α → Bool) (xs : List α) (x : Nat) : Prop :=
  0 < x ∧ xs[x - 1]?.any p = true ∧ xs[x]?.any p = true

instance (p : α → Bool) (xs : List α) (x : Nat) : Decidable (Inside p xs x) := by
  unfold Inside
  infer_instance

theorem move_of_le (h : x ≤ location) : move p location bs x = x := by
  induction bs generalizing location with
  | nil => rfl
  | cons block bs ih =>
    rw [move]
    split
    · split
      · rw [show x - block.length = x by omega]
        exact ih h
      · exact ih h
    · exact ih (by omega)

theorem Inside.append_left (h : Inside p ys k) : Inside p (xs ++ ys) (xs.length + k) := by
  obtain ⟨hpos, hbefore, hbehind⟩ := h
  refine ⟨by omega, ?_, ?_⟩
  · rwa [show xs.length + k - 1 =
      xs.length + (k - 1) by omega, List.getElem?_append_right (by omega),
      Nat.add_sub_cancel_left]
  · rwa [List.getElem?_append_right (by omega), Nat.add_sub_cancel_left]

theorem inside_of_lt (h : ∀ x ∈ xs, p x = true) (hpos : 0 < k) (hk : k < xs.length) :
    Inside p (xs ++ ys) k := by
  have hany : ∀ i < xs.length, (xs ++ ys)[i]?.any p = true := by
    intro i hi
    rw [List.getElem?_append_left hi, List.getElem?_eq_getElem hi]
    exact h _ (List.getElem_mem hi)
  exact ⟨hpos, hany (k - 1) (by omega), hany k hk⟩

theorem move_eq_rank (h : ∀ block ∈ bs, Uniform p block) (hle : location ≤ x)
    (hx : ¬ Inside p bs.flatten (x - location)) (hin : x - location ≤ bs.flatten.length) :
    move p location bs x = location + rank p bs.flatten (x - location) := by
  induction bs generalizing location x with
  | nil =>
    rw [List.flatten_nil, List.length_nil] at hin
    rw [move, show x - location = 0 by omega, rank_zero]
    omega
  | cons block bs ih =>
    obtain ⟨hblock, hbs⟩ := List.forall_mem_cons.mp h
    rw [List.flatten_cons] at hx hin ⊢
    rw [List.length_append] at hin
    have hlater : ∀ k, Inside p bs.flatten k → Inside p (block ++ bs.flatten) (block.length + k) :=
      fun k hk => hk.append_left
    rw [move]
    cases hany : block.any p with
    | true =>
      rw [if_pos rfl]
      split
      · rename_i hbehind
        have hindex : x - location = block.length + (x - block.length - location) := by omega
        rw [ih hbs (by omega) (fun hk => hx (hindex ▸ hlater _ hk)) (by omega),
          hindex, rank_append_add,
          countP_of_marked (hblock.marked hany)]
        omega
      · rename_i hbefore
        have hstart : x = location := by
          by_contra hne
          exact hx (inside_of_lt (hblock.marked hany) (by omega) (by omega))
        rw [hstart, move_of_le (Nat.le_refl _), Nat.sub_self, rank_zero, Nat.add_zero]
    | false =>
      rw [if_neg Bool.false_ne_true]
      have hcount := countP_of_unmarked (hblock.unmarked hany)
      by_cases hbehind : location + block.length ≤ x
      · have hindex : x - location = block.length + (x - (location + block.length)) := by omega
        rw [ih hbs hbehind (fun hk => hx (hindex ▸ hlater _ hk)) (by omega), hindex,
          rank_append_add, hcount]
        omega
      · rw [move_of_le (by omega), rank_append_of_le (by omega),
          rank_of_unmarked (hblock.unmarked hany) (by omega)]
        omega

-- Locations inside

/-- Blocks as long as they can be: the mark changes from each to the next. -/
structure Alternating (p : α → Bool) (bs : List (List α)) : Prop where
  uniform : ∀ block ∈ bs, Uniform p block
  nonempty : ∀ block ∈ bs, block ≠ []
  chain : bs.IsChain fun block next => block.any p ≠ next.any p

theorem alternating_blocks (p : α → Bool) (xs : List α) : Alternating p (blocks p xs) := by
  refine ⟨uniform_blocks p xs, fun block hblock => List.ne_nil_of_mem_splitBy hblock, ?_⟩
  have hchain := List.isChain_getLast_head_splitBy (fun x y => p x == p y) xs
  refine hchain.imp_of_mem_imp fun block next hblock hnext ⟨hlast, hhead, hne⟩ => ?_
  rw [← uniform_blocks p xs block hblock _ (List.getLast_mem hlast),
    ← uniform_blocks p xs next hnext _ (List.head_mem hhead)]
  exact ne_of_beq_false hne

theorem Alternating.tail (h : Alternating p (block :: bs)) : Alternating p bs :=
  ⟨(List.forall_mem_cons.mp h.uniform).2, (List.forall_mem_cons.mp h.nonempty).2, h.chain.tail⟩

theorem le_move (h : location ≤ x) : location ≤ move p location bs x := by
  induction bs generalizing location x with
  | nil => exact h
  | cons block bs ih =>
    rw [move]
    split
    · split
      · exact ih (by omega)
      · exact ih h
    · by_cases hbehind : location + block.length ≤ x
      · exact Nat.le_trans (Nat.le_add_right _ _) (ih hbehind)
      · rw [move_of_le (by omega)]
        exact h

theorem lt_move (h : ∀ block ∈ bs, block ≠ []) (hplain : ∀ block ∈ bs.head?, block.any p = false)
    (hlt : location < x) : location < move p location bs x := by
  cases bs with
  | nil => exact hlt
  | cons block bs =>
    have hpos : 0 < block.length := List.length_pos_iff.mpr (h block List.mem_cons_self)
    rw [move, if_neg (by rw [hplain block rfl]; exact Bool.false_ne_true)]
    by_cases hbehind : location + block.length ≤ x
    · have hle := @le_move _ p bs _ _ hbehind
      omega
    · rw [move_of_le (by omega)]
      exact hlt

theorem rank_lt_move (h : Alternating p bs) (hle : location ≤ x)
    (hx : Inside p bs.flatten (x - location)) :
    location + rank p bs.flatten (x - location) < move p location bs x := by
  induction bs generalizing location x with
  | nil =>
    obtain ⟨-, -, hbehind⟩ := hx
    cases hbehind
  | cons block bs ih =>
    have hblock := h.uniform block List.mem_cons_self
    have hpos : 0 < block.length := List.length_pos_iff.mpr (h.nonempty block List.mem_cons_self)
    rw [List.flatten_cons] at hx ⊢
    have hlater : ∀ k, 0 < k → Inside p (block ++ bs.flatten) (block.length + k) →
      Inside p bs.flatten k := by
      rintro k hk ⟨-, hbefore, hbehind⟩
      rw [List.getElem?_append_right (by omega)] at hbefore hbehind
      rw [Nat.add_sub_cancel_left] at hbehind
      rw [show block.length + k - 1 - block.length = k - 1 by omega] at hbefore
      exact ⟨hk, hbefore, hbehind⟩
    have hfirst : ∀ i < block.length, (block ++ bs.flatten)[i]?.any p = block.any p := by
      intro i hi
      rw [List.getElem?_append_left hi, List.getElem?_eq_getElem hi]
      exact hblock _ (List.getElem_mem hi)
    rw [move]
    cases hany : block.any p with
    | true =>
      rw [if_pos rfl]
      have hplain : ∀ next ∈ bs.head?, next.any p = false := by
        intro next hnext
        cases bs with
        | nil => cases hnext
        | cons next' bs =>
          obtain rfl := Option.some.inj hnext
          have hne := (List.isChain_cons_cons.mp h.chain).1
          rw [hany] at hne
          exact Bool.eq_false_iff.mpr hne.symm
      split
      · rename_i hbehind
        have hindex : x - location = block.length + (x - block.length - location) := by omega
        have hk : 0 < x - block.length - location := by
          by_contra hzero
          obtain ⟨-, -, hnext⟩ := hx
          cases bs with
          | nil =>
            rw [List.flatten_nil, List.append_nil, List.getElem?_eq_none (by omega)] at hnext
            cases hnext
          | cons next bs =>
            have hnext_pos : 0 < next.length :=
              List.length_pos_iff.mpr (h.tail.nonempty next List.mem_cons_self)
            rw [show x - location =
              block.length by omega, List.getElem?_append_right (Nat.le_refl _),
              Nat.sub_self, List.flatten_cons, List.getElem?_append_left hnext_pos,
              List.getElem?_eq_getElem hnext_pos] at hnext
            have hmark := h.tail.uniform next List.mem_cons_self _ (List.getElem_mem hnext_pos)
            rw [hplain next rfl] at hmark
            exact Bool.false_ne_true (hmark.symm.trans hnext)
        have hrest := ih h.tail (x := x - block.length) (by omega) (hlater _ hk (hindex ▸ hx))
        rw [hindex, rank_append_add, countP_of_marked (hblock.marked hany), Nat.zero_add]
        exact hrest
      · rename_i hbefore
        have hlt : location < x := by
          have := hx.1
          omega
        have hrank : rank p (block ++ bs.flatten) (x - location) = 0 := by
          rw [rank_append_of_le (by omega), rank]
          exact countP_of_marked fun y hy => hblock.marked hany y (List.mem_of_mem_take hy)
        rw [hrank]
        exact lt_move h.tail.nonempty hplain hlt
    | false =>
      rw [if_neg Bool.false_ne_true]
      have hbehind : location + block.length < x := by
        by_contra hfront
        have hbefore := hx.2.1
        have hpositive := hx.1
        rw [hfirst _ (by omega), hany] at hbefore
        cases hbefore
      have hindex : x - location = block.length + (x - (location + block.length)) := by omega
      have hrest := ih h.tail (Nat.le_of_lt hbehind) (hlater _ (by omega) (hindex ▸ hx))
      rw [hindex, rank_append_add, countP_of_unmarked (hblock.unmarked hany)]
      omega

theorem rank_eq_of_marked (h : ∀ i, l ≤ i → i < k → xs[i]?.any p = true) (hle : l ≤ k) :
    rank p xs k = rank p xs l := by
  induction k, hle using Nat.le_induction with
  | base => rfl
  | succ k hle ih =>
    have hk := h k hle (Nat.lt_succ_self k)
    rw [← ih fun i hi hik => h i hi (Nat.lt_succ_of_lt hik), rank, rank, List.take_add_one,
      List.countP_append]
    cases hx : xs[k]? with
    | none => rfl
    | some x =>
      rw [hx] at hk
      have hx : p x = true := hk
      simp [hx]

-- Insertion

theorem inside_splice_before (h : x < location) (hin : location ≤ xs.length) (new : List α) :
    Inside p (splice location 0 new xs) x ↔ Inside p xs x := by
  rw [Inside, Inside, getElem?_splice_before h hin, getElem?_splice_before (by omega) hin]

theorem inside_splice_after (h : location < x) (hin : location ≤ xs.length) (new : List α) :
    Inside p (splice location 0 new xs) (x + new.length) ↔ Inside p xs x := by
  have hbefore :=
    getElem?_splice_after (show location + new.length ≤ x + new.length - 1 by omega) hin 0
  have hbehind := getElem?_splice_after (show location + new.length ≤ x + new.length by omega) hin 0
  rw [Inside, Inside, hbefore, hbehind, show x + new.length - 1 - new.length + 0 = x - 1 by omega,
    show x + new.length - new.length + 0 = x by omega]
  exact and_congr_left' (iff_of_true (by omega) (by omega))

theorem not_inside_splice {new : List α} (hnew : ∀ y ∈ new, p y = false) (hsome : new ≠ [])
    (hin : location ≤ xs.length) (hle : location ≤ x) (hx : x ≤ location + new.length) :
    ¬ Inside p (splice location 0 new xs) x := by
  have hlength : (xs.take location).length = location := by
    rw [List.length_take]
    omega
  have hpos := List.length_pos_iff.mpr hsome
  have hplain : ∀ i, location ≤ i → i < location + new.length →
      (splice location 0 new xs)[i]?.any p = false := by
    intro i hlow hhigh
    rw [splice, List.append_assoc, List.getElem?_append_right (by omega),
      List.getElem?_append_left (by omega),
      List.getElem?_eq_getElem (by omega)]
    exact hnew _ (List.getElem_mem _)
  rintro ⟨-, hbefore, hbehind⟩
  by_cases hend : x < location + new.length
  · rw [hplain x hle hend] at hbehind
    cases hbehind
  · rw [hplain (x - 1) (by omega) (by omega)] at hbefore
    cases hbefore

end Marks
