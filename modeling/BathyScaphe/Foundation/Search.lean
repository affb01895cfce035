import BathyScaphe.Foundation.NSString
import BathyScaphe.Lib.Occurrence

/-!
# Searching strings

A literal search compares units and gives the first occurrence in a range. An empty
pattern is not found.
-/

namespace BathyScaphe.NSString

def rangeOfString (s pattern : NSString) (range : NSRange) : Option NSRange :=
  if pattern = [] then none
  else ((s.substringWithRange range).tails.findIdx? fun t => decide (pattern <+: t)).map
    fun i => ⟨range.location + i, pattern.length⟩

def rangeOfCharacterFromSet (s : NSString) (set : UniChar → Bool) (range : NSRange) :
    Option NSRange :=
  ((s.substringWithRange range).findIdx? set).map fun i => ⟨range.location + i, 1⟩

def rangeFrom (s : NSString) (location : Nat) : NSRange := ⟨location, s.length - location⟩

variable {s pattern : NSString} {range result : NSRange}

@[simp] theorem substringWithRange_rangeFrom (s : NSString) (location : Nat) :
    s.substringWithRange (s.rangeFrom location) = s.drop location := by
  rw [substringWithRange, rangeFrom, List.take_of_length_le]
  rw [List.length_drop]

theorem rangeOfString_eq_none_iff (hpattern : pattern ≠ []) :
    s.rangeOfString pattern range = none ↔ ¬ pattern <:+: s.substringWithRange range := by
  rw [rangeOfString, if_neg hpattern, Option.map_eq_none_iff, List.findIdx?_eq_none_iff]
  simp only [List.mem_tails, decide_eq_false_iff_not]
  constructor
  · intro h hinside
    obtain ⟨t, hstarts, hsuffix⟩ := List.infix_iff_prefix_suffix.mp hinside
    exact h t hsuffix hstarts
  · intro h t hsuffix hstarts
    exact h (hstarts.isInfix.trans hsuffix.isInfix)

theorem rangeOfString_eq_some (h : s.rangeOfString pattern range = some result) :
    ∃ u v, s.substringWithRange range = u ++ (pattern ++ v) ∧
      result = ⟨range.location + u.length, pattern.length⟩ ∧
      Occurrence.IsFirst pattern u v := by
  rw [rangeOfString] at h
  split at h
  · cases h
  · obtain ⟨i, hi, rfl⟩ := Option.map_eq_some_iff.mp h
    obtain ⟨hlt, hhere, hbefore⟩ := List.findIdx?_eq_some_iff_getElem.mp hi
    rw [List.getElem_tails, decide_eq_true_iff] at hhere
    obtain ⟨v, hv⟩ := hhere
    have hle : i ≤ (s.substringWithRange range).length := by
      rw [List.length_tails] at hlt
      exact Nat.le_of_lt_succ hlt
    have hsplit : s.substringWithRange range = (s.substringWithRange range).take i ++
      (pattern ++ v) := by
      rw [hv, List.take_append_drop]
    have hlength : ((s.substringWithRange range).take i).length = i := List.length_take_of_le hle
    refine ⟨_, v, hsplit, ?_, fun j hj hstarts => ?_⟩
    · rw [hlength]
    · rw [hlength] at hj
      have hnot := hbefore j hj
      rw [List.getElem_tails, decide_eq_true_iff] at hnot
      rw [← hsplit] at hstarts
      exact hnot hstarts

theorem rangeOfString_of_isFirst {u v : NSString} (hpattern : pattern ≠ [])
    (h : Occurrence.IsFirst pattern u v) :
    (u ++ (pattern ++ v)).rangeOfString pattern ((u ++ (pattern ++ v)).rangeFrom 0) =
      some ⟨u.length, pattern.length⟩ := by
  cases hfound : (u ++ (pattern ++ v)).rangeOfString pattern ((u ++ (pattern ++ v)).rangeFrom 0)
    with
  | none =>
    rw [rangeOfString_eq_none_iff hpattern, substringWithRange_rangeFrom] at hfound
    exact absurd ⟨u, v, List.append_assoc _ _ _⟩ hfound
  | some result =>
    obtain ⟨u', v', hsplit, rfl, hfirst⟩ := rangeOfString_eq_some hfound
    rw [substringWithRange_rangeFrom] at hsplit
    obtain ⟨rfl, -⟩ := h.unique hfirst hsplit
    rw [rangeFrom, Nat.zero_add]

/-- The text before the range that is searched, the text up to the occurrence and the text
behind it. -/
theorem rangeOfString_rangeFrom_eq_some {location : Nat}
    (h : s.rangeOfString pattern (s.rangeFrom location) = some result) :
    ∃ done u v, s = done ++ u ++ (pattern ++ v) ∧ location = done.length ∧
      result = ⟨(done ++ u).length, pattern.length⟩ ∧ Occurrence.IsFirst pattern u v := by
  obtain ⟨u, v, hsplit, hresult, hfirst⟩ := rangeOfString_eq_some h
  rw [substringWithRange_rangeFrom] at hsplit
  have hle : location ≤ s.length := by
    by_contra hlt
    rw [List.drop_of_length_le (Nat.le_of_not_le hlt), eq_comm, List.append_eq_nil_iff,
      List.append_eq_nil_iff] at hsplit
    rw [rangeOfString, if_pos hsplit.2.1] at h
    cases h
  have hlength : (s.take location).length = location := List.length_take_of_le hle
  refine ⟨s.take location, u, v, ?_, hlength.symm, ?_, hfirst⟩
  · rw [List.append_assoc, ← hsplit, List.take_append_drop]
  · rw [hresult, List.length_append, hlength]
    rfl

theorem replaceCharactersInRange_append (before old new rest : NSString) :
    (before ++ (old ++ rest)).replaceCharactersInRange ⟨before.length, old.length⟩ new =
      before ++ new ++ rest := by
  rw [replaceCharactersInRange, NSRange.max, List.take_left, ← List.length_append,
    ← List.append_assoc before old, List.drop_left]

theorem deleteCharactersInRange_append (before old rest : NSString) :
    (before ++ (old ++ rest)).deleteCharactersInRange ⟨before.length, old.length⟩ =
      before ++ rest := by
  rw [deleteCharactersInRange, NSRange.max, List.take_left, ← List.length_append,
    ← List.append_assoc before old, List.drop_left]

theorem substringWithRange_append (before old rest : NSString) :
    (before ++ (old ++ rest)).substringWithRange ⟨before.length, old.length⟩ = old := by
  rw [substringWithRange, List.drop_left, List.take_left]

theorem getElem?_max_append (before old rest : NSString) :
    (before ++ (old ++ rest))[(⟨before.length, old.length⟩ : NSRange).max]? = rest.head? := by
  rw [← List.append_assoc, NSRange.max, ← List.length_append,
    List.getElem?_append_right (Nat.le_refl _), Nat.sub_self, List.head?_eq_getElem?]

theorem max_rangeOfString_rangeFrom {location : Nat}
    (h : s.rangeOfString pattern (s.rangeFrom location) = some result) :
    location ≤ result.location ∧ result.length = pattern.length ∧ result.max ≤ s.length := by
  obtain ⟨done, u, v, rfl, rfl, rfl, -⟩ := rangeOfString_rangeFrom_eq_some h
  refine ⟨?_, rfl, ?_⟩
  · rw [List.length_append]
    exact Nat.le_add_right _ _
  · simp only [NSRange.max, List.length_append]
    omega

/-- The location of the first character of the set, with what is read from there. -/
theorem rangeOfCharacterFromSet_rangeFrom_eq_some {set : UniChar → Bool} {location : Nat}
    (h : s.rangeOfCharacterFromSet set (s.rangeFrom location) = some result) :
    location ≤ result.location ∧ result.location < s.length ∧
      ∃ c rest, s.drop result.location = c :: rest ∧ set c = true := by
  rw [rangeOfCharacterFromSet, substringWithRange_rangeFrom] at h
  obtain ⟨i, hi, rfl⟩ := Option.map_eq_some_iff.mp h
  obtain ⟨hlt, hset, -⟩ := List.findIdx?_eq_some_iff_getElem.mp hi
  rw [List.length_drop] at hlt
  have hinside : location + i < s.length := by omega
  refine ⟨Nat.le_add_right _ _, hinside, _, _, List.drop_eq_getElem_cons hinside, ?_⟩
  rwa [List.getElem_drop] at hset

end BathyScaphe.NSString
