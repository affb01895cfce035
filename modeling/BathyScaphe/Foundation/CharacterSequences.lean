import BathyScaphe.Foundation.NSString
import BathyScaphe.Lib.Cutting
import Mathlib.Data.List.Chain

/-!
# Sequences of characters of a set

A sequence is found by a search for one character of the set, which may have several
units, and then goes on unit by unit: forwards behind the character, backwards in front of
it. Where the characters are single units this is a run of characters of the set.
-/

namespace BathyScaphe.Foundation

/-- How Foundation divides a text into characters. A composed sequence and a surrogate pair
are characters of several units. The text behind a character divides as it does by itself. -/
structure TextCharacters where
  characters : NSString → List NSString
  flatten_characters : ∀ s, (characters s).flatten = s
  ne_nil : ∀ s, ∀ x ∈ characters s, x ≠ []
  characters_tail : ∀ s x rest, characters s = x :: rest → characters rest.flatten = rest

structure NSCharacterSet where
  contains : NSString → Bool

namespace NSCharacterSet

variable (set : NSCharacterSet)

def characterIsMember (u : UniChar) : Bool := set.contains [u]

/-- The first of the characters that is in the set, where they begin at a location. -/
def first (location : Nat) : List NSString → Option NSRange
  | [] => none
  | x :: rest => if set.contains x then some ⟨location, x.length⟩
      else first (location + x.length) rest

def last (location : Nat) : List NSString → Option NSRange
  | [] => none
  | x :: rest =>
    (last (location + x.length) rest).or (if set.contains x then some ⟨location, x.length⟩
      else none)

def extendForward (s : NSString) (maxRange : Nat) (result : NSRange) : NSRange :=
  if maxRange ≤ result.max then result
  else if (s[result.max]?).any set.characterIsMember then
    extendForward s maxRange ⟨result.location, result.length + 1⟩
  else result
termination_by maxRange - result.max
decreasing_by
  simp only [NSRange.max] at *
  omega

def extendBackward (s : NSString) (location : Nat) (result : NSRange) : NSRange :=
  if result.location = 0 ∨ location = result.location then result
  else if (s[result.location - 1]?).any set.characterIsMember then
    extendBackward s location ⟨result.location - 1, result.length + 1⟩
  else result
termination_by result.location

end NSCharacterSet

namespace NSCharacterSet

open Cutting

variable (set : NSCharacterSet)

/-- The run of characters of the set that a search in this direction is for. -/
def IsRun : Bool → List NSString → List NSString → List NSString → Prop
  | true => IsLast set.contains
  | false => IsFirst set.contains

def IsSequence (backward : Bool) (location : Nat) (characters : List NSString) :
    Option NSRange → Prop
  | none => ∀ x ∈ characters, set.contains x = false
  | some result => ∃ before run after, characters = before ++ (run ++ after) ∧
      set.IsRun backward before run after ∧
      result = ⟨location + before.flatten.length, run.flatten.length⟩

/-- The units of the run that the search goes on over are members, and the one at its end
is none. -/
def ExtendsOver : Bool → List NSString → List NSString → List NSString → Prop
  | true, before, run, _ => (∀ x ∈ run.dropLast, ∀ u ∈ x, set.characterIsMember u = true) ∧
      ∀ x ∈ before.getLast?, ∀ u ∈ x.getLast?, set.characterIsMember u = false
  | false, _, run, after => (∀ x ∈ run.tail, ∀ u ∈ x, set.characterIsMember u = true) ∧
      ∀ x ∈ after.head?, ∀ u ∈ x.head?, set.characterIsMember u = false

def RunExtends (backward : Bool) (characters : List NSString) : Prop :=
  ∀ before run after, characters = before ++ (run ++ after) → set.IsRun backward before run after →
    set.ExtendsOver backward before run after

/-- A character that follows one of the set has only units that are members, if it is in
the set too, and begins with a unit that is none otherwise. -/
def Continues (x y : NSString) : Prop :=
  set.contains x = true → if set.contains y then ∀ u ∈ y, set.characterIsMember u = true
    else ∀ u ∈ y.head?, set.characterIsMember u = false

end NSCharacterSet

namespace TextCharacters

variable (t : TextCharacters) (s : NSString) (set : NSCharacterSet)

def rangeOfCharacterFromSet (backward : Bool) (range : NSRange) : Option NSRange :=
  let characters := t.characters (s.substringWithRange range)
  if backward then set.last range.location characters else set.first range.location characters

def rangeOfCharacterSequenceFromSet (backward : Bool) (range : NSRange) : Option NSRange :=
  (t.rangeOfCharacterFromSet s set backward range).map fun result =>
    if backward then set.extendBackward s range.location result
    else set.extendForward s range.max result

end TextCharacters

-- The search for one character

section
variable {t : TextCharacters} {s : NSString} {set : NSCharacterSet}
  {characters before after : List NSString}
  {x : NSString} {range result : NSRange} {location maxRange : Nat}

namespace NSCharacterSet

theorem first_none : set.first location characters = none ↔ ∀ x ∈ characters,
    set.contains x = false := by
  induction characters generalizing location with
  | nil => simp [first]
  | cons x rest ih =>
    by_cases hx : set.contains x = true
    · simp [first, hx]
    · simp [first, hx, ih]

theorem first_append (hbefore : ∀ y ∈ before, set.contains y = false) (hx : set.contains x = true) :
    set.first location (before ++ x :: after) =
      some ⟨location + before.flatten.length, x.length⟩ := by
  induction before generalizing location with
  | nil => simp [first, hx]
  | cons y before ih =>
    simp only [List.mem_cons, forall_eq_or_imp] at hbefore
    simp [first, hbefore.1, ih hbefore.2, Nat.add_assoc]

theorem last_none : set.last location characters = none ↔ ∀ x ∈ characters,
    set.contains x = false := by
  induction characters generalizing location with
  | nil => simp [last]
  | cons x rest ih =>
    by_cases hx : set.contains x = true
    · simp [last, hx]
    · simp [last, hx, ih]

theorem last_append (hafter : ∀ y ∈ after, set.contains y = false) (hx : set.contains x = true) :
    set.last location (before ++ x :: after) =
      some ⟨location + before.flatten.length, x.length⟩ := by
  induction before generalizing location with
  | nil => simp [last, hx, last_none.mpr hafter]
  | cons y before ih => simp [last, ih, Nat.add_assoc]

-- The loops

theorem extendForward_append {front units behind : NSString} (hfront : result.max = front.length)
    (hmax : maxRange = result.max + units.length) :
    set.extendForward (front ++ (units ++ behind)) maxRange result =
      ⟨result.location, result.length + (units.takeWhile set.characterIsMember).length⟩ := by
  induction units generalizing front result with
  | nil =>
    rw [extendForward, if_pos (by simp [hmax])]
    rfl
  | cons u units ih =>
    have hget : (front ++ (u :: units ++ behind))[result.max]? = some u := by simp [hfront]
    have hlt : ¬maxRange ≤ result.max := by
      rw [hmax, List.length_cons]
      omega
    rw [extendForward, if_neg hlt, hget, Option.any_some, List.takeWhile_cons]
    split
    · have hfront' : (⟨result.location, result.length + 1⟩ : NSRange).max =
        (front ++ [u]).length := by
        simp [NSRange.max, ← hfront, Nat.add_assoc]
      have hmax' : maxRange = (⟨result.location, result.length + 1⟩ : NSRange).max +
        units.length := by
        show maxRange = result.location + (result.length + 1) + units.length
        rw [hmax, List.length_cons, NSRange.max]
        omega
      have hnext := ih hfront' hmax'
      rw [List.append_assoc, List.singleton_append] at hnext
      rw [List.cons_append, hnext, List.length_cons, Nat.add_assoc, Nat.add_comm 1]
    · rfl

theorem extendBackward_append {front units behind : NSString} (hfront : location = front.length)
    (hresult : result.location = front.length + units.length) :
    set.extendBackward (front ++ (units ++ behind)) location result =
      ⟨result.location - (units.reverse.takeWhile set.characterIsMember).length,
        result.length + (units.reverse.takeWhile set.characterIsMember).length⟩ := by
  induction units using List.reverseRecOn generalizing behind result with
  | nil =>
    rw [extendBackward, if_pos (.inr (by simpa [hresult] using hfront))]
    rfl
  | append_singleton units u ih =>
    rw [List.length_append, List.length_singleton] at hresult
    have hindex : result.location - 1 = (front ++ units).length := by
      rw [hresult, List.length_append]
      omega
    have hget : (front ++ (units ++ [u] ++ behind))[result.location - 1]? = some u := by
      rw [hindex, List.append_assoc units, ← List.append_assoc front,
        List.getElem?_append_right (Nat.le_refl _), Nat.sub_self]
      rfl
    have hgo : ¬(result.location = 0 ∨ location = result.location) := by omega
    rw [extendBackward, if_neg hgo, hget, Option.any_some, List.reverse_append,
      List.reverse_singleton, List.singleton_append, List.takeWhile_cons]
    split
    · have hresult' : (⟨result.location - 1, result.length + 1⟩ : NSRange).location =
        front.length + units.length := by
        rw [hindex, List.length_append]
      rw [List.append_assoc, ih hresult', List.length_cons, Nat.add_assoc, Nat.add_comm 1,
        Nat.sub_sub, Nat.add_comm 1]
    · rfl

end NSCharacterSet

-- The sequence that is found

namespace TextCharacters

/-- A range inside a text, as the text in front of it, its characters and the text behind. -/
theorem range_split (t : TextCharacters) (hrange : range.max ≤ s.length) :
    ∃ front behind, s = front ++ ((t.characters (s.substringWithRange range)).flatten ++ behind) ∧
      range.location = front.length ∧
      range.max = front.length + (t.characters (s.substringWithRange range)).flatten.length := by
  unfold NSRange.max at hrange
  refine ⟨s.take range.location, (s.drop range.location).drop range.length, ?_, ?_, ?_⟩
  · rw [t.flatten_characters, NSString.substringWithRange, List.take_append_drop,
      List.take_append_drop]
  · rw [List.length_take]
    omega
  · rw [t.flatten_characters, NSString.substringWithRange, List.length_take, List.length_take,
      List.length_drop, NSRange.max]
    omega

theorem forward_none (h : ∀ x ∈ t.characters (s.substringWithRange range), set.contains x = false) :
    t.rangeOfCharacterSequenceFromSet s set false range = none := by
  simp [rangeOfCharacterSequenceFromSet, rangeOfCharacterFromSet, NSCharacterSet.first_none.mpr h]

theorem backward_none (h : ∀ x ∈ t.characters (s.substringWithRange range),
    set.contains x = false) :
    t.rangeOfCharacterSequenceFromSet s set true range = none := by
  simp [rangeOfCharacterSequenceFromSet, rangeOfCharacterFromSet, NSCharacterSet.last_none.mpr h]

/-- The first character of the set, and the units behind it that are members. -/
theorem forward_some (hrange : range.max ≤ s.length)
    (hsplit : t.characters (s.substringWithRange range) = before ++ x :: after)
    (hbefore : ∀ y ∈ before, set.contains y = false) (hx : set.contains x = true) :
    t.rangeOfCharacterSequenceFromSet s set false range =
      some ⟨range.location + before.flatten.length,
      x.length + (after.flatten.takeWhile set.characterIsMember).length⟩ := by
  obtain ⟨front, behind, hs, hlocation, hmax⟩ := t.range_split hrange
  rw [rangeOfCharacterSequenceFromSet, rangeOfCharacterFromSet, hsplit]
  simp only [Bool.false_eq_true, if_false, NSCharacterSet.first_append hbefore hx,
    Option.map_some, Option.some.injEq]
  rw [hsplit, List.flatten_append, List.flatten_cons] at hs hmax
  have hs' : s = (front ++ (before.flatten ++ x)) ++ (after.flatten ++ behind) := by
    rw [hs]
    simp only [List.append_assoc]
  conv_lhs => rw [hs']
  refine NSCharacterSet.extendForward_append ?_ ?_
  · simp [NSRange.max, hlocation, Nat.add_assoc]
  · simp [NSRange.max] at hmax ⊢
    omega

/-- The last character of the set, and the units in front of it that are members. -/
theorem backward_some (hrange : range.max ≤ s.length)
    (hsplit : t.characters (s.substringWithRange range) = before ++ x :: after)
    (hafter : ∀ y ∈ after, set.contains y = false) (hx : set.contains x = true) :
    t.rangeOfCharacterSequenceFromSet s set true range = some
      ⟨range.location + before.flatten.length -
        (before.flatten.reverse.takeWhile set.characterIsMember).length,
        x.length + (before.flatten.reverse.takeWhile set.characterIsMember).length⟩ := by
  obtain ⟨front, behind, hs, hlocation, -⟩ := t.range_split hrange
  rw [rangeOfCharacterSequenceFromSet, rangeOfCharacterFromSet, hsplit]
  simp only [if_true, NSCharacterSet.last_append hafter hx, Option.map_some, Option.some.injEq]
  rw [hsplit, List.flatten_append, List.flatten_cons] at hs
  have hs' : s = front ++ (before.flatten ++ (x ++ after.flatten ++ behind)) := by
    rw [hs]
    simp only [List.append_assoc]
  conv_lhs => rw [hs']
  refine NSCharacterSet.extendBackward_append hlocation ?_
  rw [hlocation]

end TextCharacters

-- When the sequence is a run

open Cutting

theorem head?_flatten (h : ∀ x ∈ characters, x ≠ []) :
    characters.flatten.head? = characters.head?.bind List.head? := by
  cases characters with
  | nil => rfl
  | cons x characters =>
    obtain ⟨u, x, rfl⟩ := List.exists_cons_of_ne_nil (h x List.mem_cons_self)
    rfl

namespace NSCharacterSet

theorem length_forward_iff {run : List NSString} (hne : ∀ x ∈ after, x ≠ []) :
    ((run.flatten ++ after.flatten).takeWhile set.characterIsMember).length = run.flatten.length ↔
      (∀ x ∈ run, ∀ u ∈ x, set.characterIsMember u = true) ∧
        ∀ x ∈ after.head?, ∀ u ∈ x.head?, set.characterIsMember u = false := by
  rw [length_takeWhile_append_iff, head?_flatten hne]
  refine and_congr ?_ ?_
  · simp only [List.mem_flatten, forall_exists_index, and_imp]
    exact ⟨fun h x hx u hu => h u x hx hu, fun h u x hx hu => h x hx u hu⟩
  · simp only [Option.mem_def, Option.bind_eq_some_iff, forall_exists_index, and_imp]
    exact ⟨fun h x hx u hu => h u x hx hu, fun h u x hx hu => h x hx u hu⟩

theorem length_backward_iff {run : List NSString} (hne : ∀ x ∈ before, x ≠ []) :
    ((before.flatten ++ run.flatten).reverse.takeWhile set.characterIsMember).length =
      run.flatten.length ↔
      (∀ x ∈ run, ∀ u ∈ x, set.characterIsMember u = true) ∧
        ∀ x ∈ before.getLast?, ∀ u ∈ x.getLast?, set.characterIsMember u = false := by
  have hne' : ∀ x ∈ (before.map List.reverse).reverse, x ≠ [] := by
    intro x hx
    rw [List.mem_reverse] at hx
    obtain ⟨y, hy, rfl⟩ := List.mem_map.mp hx
    simpa using hne y hy
  have hforward := @length_forward_iff set _ (run.map List.reverse).reverse hne'
  rw [← List.reverse_flatten, ← List.reverse_flatten, ← List.reverse_append,
    List.length_reverse] at hforward
  rw [hforward]
  refine and_congr ?_ ?_
  · simp only [List.mem_reverse, List.forall_mem_map]
  · simp

end NSCharacterSet

namespace NSCharacterSet

theorem IsRun.unique {run before' run' after' : List NSString} {backward : Bool}
    (h : set.IsRun backward before run after) (h' : set.IsRun backward before' run' after')
    (heq : before ++ (run ++ after) = before' ++ (run' ++ after')) :
    before = before' ∧ run = run' ∧ after = after' := by
  cases backward with
  | false => exact IsFirst.unique h h' heq
  | true => exact IsLast.unique h h' heq

theorem isSequence_some_iff {run : List NSString} {backward : Bool}
    (hsplit : characters = before ++ (run ++ after))
    (hrun : set.IsRun backward before run after) :
    set.IsSequence backward location characters (some result) ↔
      result = ⟨location + before.flatten.length, run.flatten.length⟩ := by
  constructor
  · rintro ⟨before', run', after', hsplit', hrun', hresult⟩
    obtain ⟨rfl, rfl, rfl⟩ := hrun.unique hrun' (hsplit.symm.trans hsplit')
    exact hresult
  · exact fun hresult => ⟨before, run, after, hsplit, hrun, hresult⟩

theorem runExtends_iff {run : List NSString} {backward : Bool}
    (hsplit : characters = before ++ (run ++ after))
    (hrun : set.IsRun backward before run after) :
    set.RunExtends backward characters ↔ set.ExtendsOver backward before run after := by
  constructor
  · exact fun hextends => hextends before run after hsplit hrun
  · intro hextends before' run' after' hsplit' hrun'
    obtain ⟨rfl, rfl, rfl⟩ := hrun.unique hrun' (hsplit.symm.trans hsplit')
    exact hextends

theorem runExtends_of_none {backward : Bool} (h : ∀ x ∈ characters, set.contains x = false) :
    set.RunExtends backward characters := by
  intro before run after hsplit hrun
  obtain ⟨hne, hinside⟩ : run ≠ [] ∧ ∀ x ∈ run, set.contains x = true := by
    cases backward with
    | false => exact ⟨IsFirst.ne_nil hrun, IsFirst.inside hrun⟩
    | true => exact ⟨IsLast.ne_nil hrun, IsLast.inside hrun⟩
  obtain ⟨x, hx⟩ := List.exists_mem_of_ne_nil run hne
  have hcontains := hinside x hx
  rw [h x (by simp [hsplit, hx])] at hcontains
  contradiction

end NSCharacterSet

namespace TextCharacters

theorem forward_first {run : List NSString} (hrange : range.max ≤ s.length)
    (hsplit : t.characters (s.substringWithRange range) = before ++ (x :: run ++ after))
    (hfirst : IsFirst set.contains before (x :: run) after) :
    t.rangeOfCharacterSequenceFromSet s set false range =
      some ⟨range.location + before.flatten.length,
      x.length + ((run.flatten ++ after.flatten).takeWhile set.characterIsMember).length⟩ := by
  rw [List.cons_append] at hsplit
  rw [forward_some hrange hsplit hfirst.outside (hfirst.inside x List.mem_cons_self),
    List.flatten_append]

theorem backward_last {run : List NSString} (hrange : range.max ≤ s.length)
    (hsplit : t.characters (s.substringWithRange range) = before ++ (run ++ [x] ++ after))
    (hlast : IsLast set.contains before (run ++ [x]) after) :
    t.rangeOfCharacterSequenceFromSet s set true range = some
      ⟨range.location + (before.flatten.length + run.flatten.length) -
          ((before.flatten ++ run.flatten).reverse.takeWhile set.characterIsMember).length,
        x.length +
          ((before.flatten ++ run.flatten).reverse.takeWhile set.characterIsMember).length⟩ := by
  rw [List.append_assoc run, ← List.append_assoc before, List.singleton_append] at hsplit
  rw [backward_some hrange hsplit hlast.outside (hlast.inside x (by simp)), List.flatten_append,
    List.length_append]

theorem forward_iff (hrange : range.max ≤ s.length) :
    set.IsSequence false range.location (t.characters (s.substringWithRange range))
        (t.rangeOfCharacterSequenceFromSet s set false range) ↔
      set.RunExtends false (t.characters (s.substringWithRange range)) := by
  by_cases hnone : ∀ x ∈ t.characters (s.substringWithRange range), set.contains x = false
  · rw [forward_none hnone]
    exact iff_of_true hnone (NSCharacterSet.runExtends_of_none hnone)
  · obtain ⟨before, run, after, hsplit, hfirst⟩ := exists_first hnone
    obtain ⟨x, run, rfl⟩ := List.exists_cons_of_ne_nil hfirst.ne_nil
    have hne : ∀ y ∈ after, y ≠ [] := fun y hy =>
      t.ne_nil (s.substringWithRange range) y (by simp [hsplit, hy])
    have hrun : set.IsRun false before (x :: run) after := hfirst
    have hlength := @NSCharacterSet.length_forward_iff set _ run hne
    rw [forward_first hrange hsplit hfirst, NSCharacterSet.isSequence_some_iff hsplit hrun,
      NSCharacterSet.runExtends_iff hsplit hrun]
    simpa [NSCharacterSet.ExtendsOver] using hlength

theorem backward_iff (hrange : range.max ≤ s.length) :
    set.IsSequence true range.location (t.characters (s.substringWithRange range))
        (t.rangeOfCharacterSequenceFromSet s set true range) ↔
      set.RunExtends true (t.characters (s.substringWithRange range)) := by
  by_cases hnone : ∀ x ∈ t.characters (s.substringWithRange range), set.contains x = false
  · rw [backward_none hnone]
    exact iff_of_true hnone (NSCharacterSet.runExtends_of_none hnone)
  · obtain ⟨before, run, after, hsplit, hlast⟩ := exists_last hnone
    obtain ⟨run, x, rfl⟩ := (List.eq_nil_or_concat run).resolve_left hlast.ne_nil
    rw [List.concat_eq_append] at hsplit hlast
    have hne : ∀ y ∈ before, y ≠ [] := fun y hy =>
      t.ne_nil (s.substringWithRange range) y (by simp [hsplit, hy])
    have hrun : set.IsRun true before (run ++ [x]) after := hlast
    have hlength := @NSCharacterSet.length_backward_iff set _ run hne
    have hle : ((before.flatten ++ run.flatten).reverse.takeWhile set.characterIsMember).length ≤
        before.flatten.length + run.flatten.length := by
      refine Nat.le_trans (List.takeWhile_prefix _).length_le ?_
      rw [List.length_reverse, List.length_append]
    rw [backward_last hrange hsplit hlast, NSCharacterSet.isSequence_some_iff hsplit hrun,
      NSCharacterSet.runExtends_iff hsplit hrun, NSCharacterSet.ExtendsOver,
      List.dropLast_concat, ← hlength]
    simp only [NSRange.mk.injEq, List.flatten_append, List.flatten_singleton, List.length_append]
    omega

-- The components

theorem characters_nil (t : TextCharacters) : t.characters [] = [] := by
  rw [List.eq_nil_iff_forall_not_mem]
  intro x hx
  exact t.ne_nil [] x hx (List.flatten_eq_nil_iff.mp (t.flatten_characters []) x hx)

theorem characters_append (h : t.characters s = before ++ after) :
    t.characters after.flatten = after := by
  induction before generalizing s with
  | nil =>
    rw [List.nil_append] at h
    rw [← h, t.flatten_characters, h]
  | cons x before ih => exact ih (t.characters_tail s x _ h)

theorem found_within {backward : Bool} (hrange : range.max ≤ s.length)
    (h : t.rangeOfCharacterSequenceFromSet s set backward range = some result) :
    range.location ≤ result.location ∧ 0 < result.length ∧ result.max ≤ range.max := by
  obtain ⟨front, behind, -, hlocation, hmax⟩ := t.range_split hrange
  have hpos : ∀ x ∈ t.characters (s.substringWithRange range), 0 < x.length := fun x hx =>
    List.length_pos_of_ne_nil (t.ne_nil (s.substringWithRange range) x hx)
  by_cases hnone : ∀ x ∈ t.characters (s.substringWithRange range), set.contains x = false
  · cases backward with
    | false => simp [forward_none hnone] at h
    | true => simp [backward_none hnone] at h
  cases backward with
  | false =>
    obtain ⟨before, run, after, hsplit, hfirst⟩ := exists_first hnone
    obtain ⟨x, run, rfl⟩ := List.exists_cons_of_ne_nil hfirst.ne_nil
    have hx := hpos x (by simp [hsplit])
    have hle :=
      (List.takeWhile_prefix set.characterIsMember (l := run.flatten ++ after.flatten)).length_le
    rw [forward_first hrange hsplit hfirst] at h
    obtain rfl := Option.some.inj h
    rw [hsplit] at hmax
    simp only [List.flatten_append, List.flatten_cons, List.length_append, NSRange.max] at *
    omega
  | true =>
    obtain ⟨before, run, after, hsplit, hlast⟩ := exists_last hnone
    obtain ⟨run, x, rfl⟩ := (List.eq_nil_or_concat run).resolve_left hlast.ne_nil
    rw [List.concat_eq_append] at hsplit hlast
    have hx := hpos x (by simp [hsplit])
    have hle := (List.takeWhile_prefix set.characterIsMember
        (l := (before.flatten ++ run.flatten).reverse)).length_le
    rw [backward_last hrange hsplit hlast] at h
    obtain rfl := Option.some.inj h
    rw [hsplit] at hmax
    simp only [List.flatten_append, List.flatten_singleton, List.length_append, List.length_reverse,
      NSRange.max] at *
    omega

theorem found_max (h : t.rangeOfCharacterSequenceFromSet s set false
    ⟨location, s.length - location⟩ = some result) :
    location < s.length ∧ location < result.max := by
  rcases Nat.le_total location s.length with hle | hge
  · have hrange : (⟨location, s.length - location⟩ : NSRange).max ≤ s.length := by
      simp only [NSRange.max]
      omega
    obtain ⟨hlocation, hpos, hmax⟩ := found_within hrange h
    simp only [NSRange.max] at *
    omega
  · have hnil : s.substringWithRange ⟨location, s.length - location⟩ = [] := by
      simp [NSString.substringWithRange, Nat.sub_eq_zero_of_le hge]
    have hnone : ∀ x ∈ t.characters (s.substringWithRange ⟨location, s.length - location⟩),
        set.contains x = false := by
      simp [hnil, t.characters_nil]
    simp [forward_none hnone] at h

def componentsFrom (t : TextCharacters) (s : NSString) (set : NSCharacterSet) (location : Nat) :
    List NSString × List NSRange :=
  let searchRange : NSRange := ⟨location, s.length - location⟩
  match _hfound : t.rangeOfCharacterSequenceFromSet s set false searchRange with
  | some result =>
    let subrange : NSRange := ⟨location, result.location - location⟩
    let rest := componentsFrom t s set result.max
    (s.substringWithRange subrange :: rest.1, result :: rest.2)
  | none =>
    if s.length = searchRange.length then ([s], [])
    else if searchRange.length = 0 then ([[]], [])
    else ([s.substringWithRange searchRange], [])
termination_by s.length - location
decreasing_by
  have hmax := found_max _hfound
  omega

def foundRanges (t : TextCharacters) (s : NSString) (set : NSCharacterSet) : List NSRange :=
  (t.componentsFrom s set 0).2

def componentsSeparatedByCharacterSequenceFromSet (t : TextCharacters) (s : NSString) :
    Option NSCharacterSet → List NSString
  | none => [s]
  | some set => (t.componentsFrom s set 0).1

theorem componentsFrom_none
    (h : t.rangeOfCharacterSequenceFromSet s set false ⟨location, s.length - location⟩ = none) :
    t.componentsFrom s set location = ([s.drop location], []) := by
  rw [componentsFrom]
  split
  · next result hfound => simp [h] at hfound
  · dsimp only
    split
    · next hall =>
      have hdrop : s.drop location = s := by
        rcases Nat.eq_zero_or_pos s.length with hnil | hpos
        · simp [List.length_eq_zero_iff.mp hnil]
        · simp [show location = 0 by omega]
      rw [hdrop]
    · split
      · next hlength => rw [List.drop_eq_nil_of_le (by omega)]
      · rw [NSString.substringWithRange, List.take_of_length_le (by simp)]

theorem componentsFrom_some
    (h : t.rangeOfCharacterSequenceFromSet s set false ⟨location, s.length - location⟩ =
      some result) :
    t.componentsFrom s set location =
      (s.substringWithRange ⟨location, result.location - location⟩ ::
      (t.componentsFrom s set result.max).1, result :: (t.componentsFrom s set result.max).2) := by
  rw [componentsFrom]
  split
  · next hfound =>
    obtain rfl := Option.some.inj (hfound.symm.trans h)
    rfl
  · next hnone => simp [hnone] at h

/-- The ranges of the runs between the pieces of a text that begins at the location. -/
def rangesFrom (location : Nat) : List (List NSString) → List (List NSString) → List NSRange
  | piece :: pieces, run :: runs =>
    ⟨location + piece.flatten.length, run.flatten.length⟩ ::
      rangesFrom (location + piece.flatten.length + run.flatten.length) pieces runs
  | _, _ => []

/-- The components are the pieces between the runs of characters of the set, and the ranges
that were found are those of the runs. -/
def IsSplit (set : NSCharacterSet) (location : Nat) (characters : List NSString)
    (result : List NSString × List NSRange) : Prop :=
  ∃ pieces runs, Cut set.contains characters pieces runs ∧ result.1 = pieces.map List.flatten ∧
    result.2 = rangesFrom location pieces runs

theorem isSplit_none_iff {components : List NSString} {ranges : List NSRange}
    (hnone : ∀ x ∈ characters, set.contains x = false) :
    IsSplit set location characters (components, ranges) ↔ components = [characters.flatten] ∧
      ranges = [] := by
  simp only [IsSplit, cut_none_iff hnone]
  constructor
  · rintro ⟨_, _, ⟨rfl, rfl⟩, hcomponents, hranges⟩
    exact ⟨hcomponents, hranges⟩
  · rintro ⟨hcomponents, hranges⟩
    exact ⟨_, _, ⟨rfl, rfl⟩, hcomponents, hranges⟩

theorem isSplit_run_iff {run : List NSString} {components : List NSString} {ranges : List NSRange}
    {component : NSString} (hfirst : IsFirst set.contains before run after) :
    IsSplit set location (before ++ (run ++ after)) (component :: components, result :: ranges) ↔
      component = before.flatten ∧ result = ⟨location + before.flatten.length, run.flatten.length⟩ ∧
        IsSplit set (location + before.flatten.length + run.flatten.length) after
          (components, ranges) := by
  simp only [IsSplit, cut_run_iff hfirst]
  constructor
  · rintro ⟨_, _, ⟨pieces, runs, rfl, rfl, hcut⟩, hcomponents, hranges⟩
    obtain ⟨hcomponent, hrest⟩ := List.cons.inj hcomponents
    obtain ⟨hresult, hrestRanges⟩ := List.cons.inj hranges
    exact ⟨hcomponent, hresult, pieces, runs, hcut, hrest, hrestRanges⟩
  · rintro ⟨rfl, rfl, pieces, runs, hcut, rfl, rfl⟩
    exact ⟨_, _, ⟨pieces, runs, rfl, rfl, hcut⟩, rfl, rfl⟩

end TextCharacters

namespace NSCharacterSet

theorem isChain_outside (h : ∀ x ∈ before, set.contains x = false) :
    (before ++ after).IsChain set.Continues ↔ after.IsChain set.Continues := by
  induction before with
  | nil => rfl
  | cons x before ih =>
    simp only [List.mem_cons, forall_eq_or_imp] at h
    rw [List.cons_append, List.isChain_cons, ih h.2]
    exact and_iff_right fun y _ hx => by simp [h.1] at hx

theorem isChain_run {run : List NSString} (hinside : ∀ y ∈ x :: run, set.contains y = true)
    (hends : ∀ y ∈ after.head?, set.contains y = false) :
    (x :: (run ++ after)).IsChain set.Continues ↔
      set.ExtendsOver false before (x :: run) after ∧ after.IsChain set.Continues := by
  induction run generalizing x with
  | nil =>
    rw [List.nil_append, List.isChain_cons]
    refine and_congr_left' ?_
    have hx := hinside x List.mem_cons_self
    simp only [ExtendsOver, List.tail_cons, List.not_mem_nil, false_imp_iff, implies_true, true_and]
    refine forall₂_congr fun y hy => ?_
    simp [Continues, hx, hends y hy]
  | cons y run ih =>
    have hx := hinside x List.mem_cons_self
    have hy := hinside y (by simp)
    rw [List.cons_append, List.isChain_cons_cons, ih fun z hz =>
      hinside z (List.mem_cons_of_mem x hz)]
    simp [ExtendsOver, Continues, hx, hy, and_assoc]

end NSCharacterSet

namespace TextCharacters

theorem substring_to_end : s.substringWithRange ⟨location, s.length - location⟩ =
    s.drop location := by
  rw [NSString.substringWithRange, List.take_of_length_le (by simp)]

theorem componentsFrom_iff (hlocation : location ≤ s.length)
    (hcharacters : t.characters (s.drop location) = characters) :
    IsSplit set location characters (t.componentsFrom s set location) ↔
      characters.IsChain set.Continues := by
  induction hn : characters.length using Nat.strong_induction_on generalizing location characters
    with
  | _ n ih => ?_
  subst hn
  have hrange : (⟨location, s.length - location⟩ : NSRange).max ≤ s.length := by
    simp only [NSRange.max]
    omega
  have hflatten : s.drop location = characters.flatten := by
    rw [← hcharacters, t.flatten_characters]
  by_cases hnone : ∀ x ∈ characters, set.contains x = false
  · have hchain := @NSCharacterSet.isChain_outside set _ [] hnone
    rw [List.append_nil] at hchain
    rw [componentsFrom_none (forward_none (by rwa [substring_to_end, hcharacters])),
      isSplit_none_iff hnone, hchain]
    exact iff_of_true ⟨by rw [hflatten], rfl⟩ .nil
  obtain ⟨before, run, after, rfl, hfirst⟩ := exists_first hnone
  obtain ⟨x, run, rfl⟩ := List.exists_cons_of_ne_nil hfirst.ne_nil
  have hfound := forward_first hrange (by rw [substring_to_end, hcharacters]) hfirst
  have hcut : s.substringWithRange ⟨location, before.flatten.length⟩ = before.flatten := by
    rw [NSString.substringWithRange, hflatten, List.flatten_append, List.take_left' rfl]
  have hchain : (before ++ (x :: run ++ after)).IsChain set.Continues ↔
      set.ExtendsOver false before (x :: run) after ∧ after.IsChain set.Continues := by
    rw [NSCharacterSet.isChain_outside hfirst.outside, List.cons_append,
      NSCharacterSet.isChain_run hfirst.inside hfirst.ends]
  have hne : ∀ y ∈ after, y ≠ [] :=
    fun y hy => t.ne_nil (s.drop location) y (by simp [hcharacters, hy])
  have hlength :
    x.length + ((run.flatten ++ after.flatten).takeWhile set.characterIsMember).length =
      (x :: run).flatten.length ↔ set.ExtendsOver false before (x :: run) after := by
    rw [List.flatten_cons, List.length_append, Nat.add_left_cancel_iff,
      NSCharacterSet.length_forward_iff hne]
    rfl
  rw [componentsFrom_some hfound, isSplit_run_iff hfirst, Nat.add_sub_cancel_left, hcut, hchain,
    ← hlength, NSRange.mk.injEq, and_iff_right rfl, and_iff_right rfl]
  -- The search goes on behind the run only if the range that it found is that of the run.
  refine and_congr_right fun hrun => ?_
  have hbehind : s.drop (location + before.flatten.length + (x :: run).flatten.length) =
    after.flatten := by
    rw [Nat.add_assoc, ← List.drop_drop, hflatten, ← List.append_assoc, List.flatten_append,
      List.flatten_append, ← List.length_append, List.drop_left' rfl]
  have hsum := congrArg List.length hflatten
  rw [List.length_drop, List.flatten_append, List.length_append, List.flatten_append,
    List.length_append] at hsum
  rw [NSRange.max, hrun]
  refine ih after.length ?_ ?_ ?_ rfl
  · simp only [List.length_append, List.length_cons]
    omega
  · omega
  · rw [hbehind]
    exact characters_append (hcharacters.trans (List.append_assoc _ _ _).symm)

/-- Whatever is found, the components and what is found between them are the text. -/
theorem interleave_componentsFrom (hlocation : location ≤ s.length) :
    interleave (t.componentsFrom s set location).1
      ((t.componentsFrom s set location).2.map s.substringWithRange) = s.drop location := by
  induction hn : s.length - location using Nat.strong_induction_on generalizing location with
  | _ n ih => ?_
  subst hn
  cases hfound : t.rangeOfCharacterSequenceFromSet s set false ⟨location, s.length - location⟩ with
  | none =>
    rw [componentsFrom_none hfound]
    simp [interleave]
  | some result =>
    have hrange : (⟨location, s.length - location⟩ : NSRange).max ≤ s.length := by
      simp only [NSRange.max]
      omega
    obtain ⟨hfrom, hpos, hmax⟩ := found_within hrange hfound
    simp only [NSRange.max] at hfrom hmax hrange
    rw [componentsFrom_some hfound, List.map_cons, interleave, ih (s.length - result.max) _ _ rfl]
    · have hdrop : s.drop result.location = (s.drop location).drop
        (result.location - location) := by
        rw [List.drop_drop, Nat.add_sub_cancel' hfrom]
      rw [NSString.substringWithRange, NSString.substringWithRange, NSRange.max, ← List.drop_drop,
        List.take_append_drop, hdrop, List.take_append_drop]
    · simp only [NSRange.max]
      omega
    · simp only [NSRange.max]
      omega

end TextCharacters

-- Surrogate pairs

def pairs : NSString → List NSString
  | [] => []
  | [u] => [[u]]
  | u :: v :: s =>
    if 0xD800 ≤ u ∧ u < 0xDC00 ∧ 0xDC00 ≤ v ∧ v < 0xE000 then [u, v] :: pairs s
    else [u] :: pairs (v :: s)

theorem flatten_pairs (s : NSString) : (pairs s).flatten = s := by
  induction s using pairs.induct with
  | case1 => rfl
  | case2 => rfl
  | case3 u v s hpair ih => rw [pairs, if_pos hpair, List.flatten_cons, ih, List.cons_append,
      List.singleton_append]
  | case4 u v s hpair ih => rw [pairs, if_neg hpair, List.flatten_cons, ih, List.singleton_append]

def surrogatePairs : TextCharacters where
  characters := pairs
  flatten_characters := flatten_pairs
  ne_nil := by
    intro s
    induction s using pairs.induct with
    | case1 => simp [pairs]
    | case2 => simp [pairs]
    | case3 u v s hpair ih => simpa [pairs, hpair] using ih
    | case4 u v s hpair ih =>
      rw [pairs, if_neg hpair]
      simpa using ih
  characters_tail := by
    intro s x rest h
    have hrest : ∃ s', rest = pairs s' := by
      cases s using pairs.fun_cases with
      | case1 => simp [pairs] at h
      | case2 => exact ⟨[], (List.cons.inj h).2.symm⟩
      | case3 u v s hpair => 
        rw [pairs, if_pos hpair] at h
        exact ⟨s, (List.cons.inj h).2.symm⟩
      | case4 u v s hpair =>
        rw [pairs, if_neg hpair] at h
        exact ⟨v :: s, (List.cons.inj h).2.symm⟩
    obtain ⟨s', rfl⟩ := hrest
    rw [flatten_pairs]

def face : NSString := [0xD83D, 0xDE00]

def faces : NSCharacterSet where
  contains x := x == face

namespace TextCharacters

/-- The characters of the set are found one by one, as the units of the second are no members
by themselves. -/
theorem faces_found_apart :
    surrogatePairs.componentsSeparatedByCharacterSequenceFromSet (face ++ face) (some faces) =
      [[], [], []] ∧
      ¬IsSplit faces 0 (surrogatePairs.characters (face ++ face))
        (surrogatePairs.componentsSeparatedByCharacterSequenceFromSet (face ++ face) (some faces),
          surrogatePairs.foundRanges (face ++ face) faces) ∧
      surrogatePairs.rangeOfCharacterSequenceFromSet (face ++ face) faces false ⟨0, 4⟩ =
        some ⟨0, 2⟩ ∧
      ¬faces.IsSequence false 0 (surrogatePairs.characters (face ++ face)) (some ⟨0, 2⟩) := by
  have hcharacters : surrogatePairs.characters (face ++ face) = [] ++ face :: [face] := by decide
  have hmember : faces.contains face = true := by decide
  have hfirst : surrogatePairs.rangeOfCharacterSequenceFromSet (face ++ face) faces false ⟨0, 4⟩ =
    some ⟨0, 2⟩ :=
    (forward_some (by decide) hcharacters (by simp) hmember).trans (by decide)
  have hsecond : surrogatePairs.rangeOfCharacterSequenceFromSet (face ++ face) faces false ⟨2, 2⟩ =
    some ⟨2, 2⟩ := by
    have hbehind : surrogatePairs.characters ((face ++ face).substringWithRange ⟨2, 2⟩) =
      [] ++ face :: [] := by decide
    exact (forward_some (by decide) hbehind (by simp) hmember).trans (by decide)
  have hthird : surrogatePairs.rangeOfCharacterSequenceFromSet (face ++ face) faces false
    ⟨4, 0⟩ = none :=
    forward_none (by decide)
  have hcomponents : (surrogatePairs.componentsFrom (face ++ face) faces 0).1 = [[], [], []] := by
    have hnext := @componentsFrom_some _ _ _ _ 2 hsecond
    have hend := @componentsFrom_none _ _ _ 4 hthird
    rw [@componentsFrom_some _ _ _ _ 0 hfirst]
    show [] :: (surrogatePairs.componentsFrom (face ++ face) faces 2).1 = _
    rw [hnext]
    show [] :: [] :: (surrogatePairs.componentsFrom (face ++ face) faces 4).1 = _
    rw [hend]
    rfl
  have hrun : faces.IsRun false [] [face, face] [] := ⟨by simp, by simp, by simp [hmember], by simp⟩
  refine ⟨hcomponents, ?_, hfirst, ?_⟩
  · intro hsplit
    have hchain := (componentsFrom_iff (Nat.zero_le 4) rfl).mp hsplit
    rw [List.drop_zero, hcharacters] at hchain
    simp [NSCharacterSet.Continues, faces, NSCharacterSet.characterIsMember, face] at hchain
    exact absurd rfl (hchain 0xD83D).1
  · rw [NSCharacterSet.isSequence_some_iff hcharacters hrun]
    decide

/-- The splitter cuts at the runs exactly where every character that follows one of the set
goes on as it should, and a search finds a run exactly where the run does. -/
theorem separates_at_runs_iff (t : TextCharacters) (s : NSString) (range : NSRange)
    (hrange : range.max ≤ s.length) :
    t.componentsSeparatedByCharacterSequenceFromSet s none = [s] ∧
    ∀ set : NSCharacterSet,
      interleave (t.componentsSeparatedByCharacterSequenceFromSet s (some set))
        ((t.foundRanges s set).map s.substringWithRange) = s ∧
      (IsSplit set 0 (t.characters s)
          (t.componentsSeparatedByCharacterSequenceFromSet s (some set), t.foundRanges s set) ↔
        (t.characters s).IsChain set.Continues) ∧
      ∀ backward,
        (∀ result ∈ t.rangeOfCharacterSequenceFromSet s set backward range,
          range.location ≤ result.location ∧ result.max ≤ range.max) ∧
        (set.IsSequence backward range.location (t.characters (s.substringWithRange range))
            (t.rangeOfCharacterSequenceFromSet s set backward range) ↔
          set.RunExtends backward (t.characters (s.substringWithRange range))) := by
  refine ⟨rfl, fun set => ⟨?_, ?_, fun backward => ⟨?_, ?_⟩⟩⟩
  · exact interleave_componentsFrom (Nat.zero_le s.length)
  · exact componentsFrom_iff (Nat.zero_le s.length) rfl
  · intro result hresult
    obtain ⟨hlocation, -, hmax⟩ := found_within hrange hresult
    exact ⟨hlocation, hmax⟩
  · cases backward with
    | false => exact forward_iff hrange
    | true => exact backward_iff hrange

def facesApart : NSString := face ++ uc 'a' :: face

theorem separates_at_faces :
    IsSplit faces 0 (surrogatePairs.characters facesApart)
      (surrogatePairs.componentsSeparatedByCharacterSequenceFromSet facesApart (some faces),
        surrogatePairs.foundRanges facesApart faces) := by
  refine ((separates_at_runs_iff surrogatePairs facesApart ⟨0, 5⟩ (by decide)).2 faces).2.1.mpr ?_
  have hcharacters : surrogatePairs.characters facesApart = [face, [uc 'a'], face] := by decide
  rw [hcharacters]
  have hletter : faces.Continues face [uc 'a'] := by
    intro _
    rw [if_neg (by decide)]
    rintro u ⟨⟩
    decide
  have hface : faces.Continues [uc 'a'] face := fun hmember => absurd hmember (by decide)
  exact .cons_cons hletter (.cons_cons hface (List.isChain_singleton face))

end TextCharacters

end

end BathyScaphe.Foundation
