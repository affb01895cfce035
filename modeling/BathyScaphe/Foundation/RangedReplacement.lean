import BathyScaphe.Foundation.Search
import BathyScaphe.Lib.Replace

/-!
# Replacing in a range of a string

`_replaceCharacters:toString:options:range:` is what replaces and deletes, for texts and
for sets of characters. It looks for the first occurrence in the range, and for the others
in all that follows: the end of the range is lost with the first replacement.
-/

namespace BathyScaphe.NSString

open Replace

inductive SearchObject where
  | string (string : NSString)
  | characterSet (isMember : UniChar → Bool)

/-- The options of a search: its direction, and the units that it takes for equal. A literal
search takes no others. -/
structure SearchOptions where
  backwards : Bool := false
  isEqual : UniChar → UniChar → Bool := (· == ·)

def NSLiteralSearch : SearchOptions := {}

def SearchObject.pattern (options : SearchOptions) : SearchObject → Pattern UniChar
  | .string s => s.map options.isEqual
  | .characterSet isMember => [isMember]

/-- `rangeOfString:options:range:` and `rangeOfCharacterFromSet:options:range:` of a search
that is not backwards. -/
def rangeOf (s : NSString) (searchObject : SearchObject) (options : SearchOptions)
    (range : NSRange) : Option NSRange :=
  (find (searchObject.pattern options) (s.substringWithRange range)).map
    fun i => ⟨range.location + i, (searchObject.pattern options).length⟩

theorem rangeOf_eq_some {s : NSString} {searchObject : SearchObject} {options : SearchOptions}
    {range found : NSRange} (h : s.rangeOf searchObject options range = some found) :
    ∃ u m v, s.substringWithRange range = u ++ (m ++ v) ∧
      found = ⟨range.location + u.length, m.length⟩ ∧
      m.length = (searchObject.pattern options).length ∧
      occurs (searchObject.pattern options) (m ++ v) = true ∧
      NoneBefore (searchObject.pattern options) u (m ++ v) := by
  obtain ⟨i, hi, rfl⟩ := Option.map_eq_some_iff.mp h
  obtain ⟨u, m, v, hsplit, rfl, hm, hoccurs, hbefore⟩ := find_eq_some hi
  exact ⟨u, m, v, hsplit, by rw [hm], hm, hoccurs, hbefore⟩

theorem max_rangeOf_le {s : NSString} {searchObject : SearchObject} {options : SearchOptions}
    {range found : NSRange} (h : s.rangeOf searchObject options range = some found) :
    range.location ≤ found.location ∧ 0 < found.length ∧ found.max ≤ s.length := by
  obtain ⟨u, m, v, hsplit, rfl, hm, hoccurs, -⟩ := rangeOf_eq_some h
  have hpos := (occurs_length hoccurs).1
  have hlength := congrArg List.length hsplit
  rw [substringWithRange, List.length_take, List.length_drop, List.length_append,
    List.length_append] at hlength
  refine ⟨Nat.le_add_right _ _, ?_, ?_⟩
  · exact hm ▸ hpos
  · simp only [NSRange.max]
    omega

/-- The loop of `_replaceCharacters:toString:options:range:`. Deleting is replacing by
nothing. -/
def _replaceCharactersIn (searchObject : SearchObject) (toString : NSString)
    (options : SearchOptions)
    (s : NSString) (inRange : NSRange) : NSString :=
  match _hfound : s.rangeOf searchObject options inRange with
  | none => s
  | some foundRange =>
    let replaced := s.replaceCharactersInRange foundRange toString
    let location := foundRange.location + toString.length
    _replaceCharactersIn searchObject toString options replaced
      ⟨location, replaced.length - location⟩
termination_by s.length - inRange.location
decreasing_by
  obtain ⟨hlocation, hpos, hmax⟩ := max_rangeOf_le _hfound
  rw [NSRange.max] at hmax
  simp only [replaceCharactersInRange, NSRange.max, List.length_append, List.length_take,
    List.length_drop]
  omega

def _replaceCharacters (s : NSString) (searchObject : SearchObject) (toString : Option NSString)
    (options : SearchOptions) (aRange : NSRange) : NSString :=
  let options := if options.backwards then { options with backwards := false } else options
  _replaceCharactersIn searchObject (toString.getD []) options s aRange

def replaceCharacters (s theString replacement : NSString) (options : SearchOptions)
    (aRange : NSRange) : NSString :=
  s._replaceCharacters (.string theString) (some replacement) options aRange

def deleteCharacters (s theString : NSString) (options : SearchOptions)
    (aRange : NSRange) : NSString :=
  s._replaceCharacters (.string theString) none options aRange

def replaceCharactersInSet (s : NSString) (theSet : UniChar → Bool) (replacement : NSString)
    (options : SearchOptions) (aRange : NSRange) : NSString :=
  s._replaceCharacters (.characterSet theSet) (some replacement) options aRange

def deleteCharactersInSet (s : NSString) (theSet : UniChar → Bool) (options : SearchOptions)
    (aRange : NSRange) : NSString :=
  s._replaceCharacters (.characterSet theSet) none options aRange

-- What the loop does

section
variable {searchObject : SearchObject} {options : SearchOptions} {inside u m v : NSString}
variable (new before after : NSString)

theorem _replaceCharactersIn_none (h : NoneBefore (searchObject.pattern options) inside []) :
    _replaceCharactersIn searchObject new options (before ++ (inside ++ after))
      ⟨before.length, inside.length⟩ =
      before ++ (inside ++ after) := by
  have hfound : (before ++ (inside ++ after)).rangeOf searchObject options
    ⟨before.length, inside.length⟩ = none := by
    rw [rangeOf, substringWithRange_append, find_of_noneBefore h, Option.map_none]
  rw [_replaceCharactersIn]
  split
  · rfl
  · rename_i hsome
    rw [hfound] at hsome
    cases hsome

/-- The first occurrence is looked for in the range, the next one up to the end of the string. -/
theorem _replaceCharactersIn_first (hm : m.length = (searchObject.pattern options).length)
    (hoccurs : occurs (searchObject.pattern options) (m ++ v) = true)
    (hbefore : NoneBefore (searchObject.pattern options) u (m ++ v)) :
    _replaceCharactersIn searchObject new options (before ++ (u ++ (m ++ v) ++ after))
        ⟨before.length, (u ++ (m ++ v)).length⟩ =
      _replaceCharactersIn searchObject new options (before ++ u ++ new ++ (v ++ after))
        ⟨(before ++ u ++ new).length, (v ++ after).length⟩ := by
  have hfound : (before ++ (u ++ (m ++ v) ++ after)).rangeOf searchObject options
      ⟨before.length, (u ++ (m ++ v)).length⟩ = some ⟨(before ++ u).length, m.length⟩ := by
    rw [rangeOf, substringWithRange_append, find_of_first hoccurs hbefore, Option.map_some, hm,
      @List.length_append _ before u]
  have hassoc : before ++ (u ++ (m ++ v) ++ after) = before ++ u ++ (m ++ (v ++ after)) := by
    simp only [List.append_assoc]
  rw [_replaceCharactersIn]
  split
  · rename_i hnone
    rw [hfound] at hnone
    cases hnone
  · rename_i found hsome
    rw [hfound] at hsome
    cases hsome
    rw [hassoc, replaceCharactersInRange_append]
    simp only [List.length_append, Nat.add_sub_cancel_left]

theorem _replaceCharactersIn_all (t : NSString) :
    _replaceCharactersIn searchObject new options (before ++ t) ⟨before.length, t.length⟩ =
      before ++ replaceAll (searchObject.pattern options) new t := by
  induction t using Replace.induction (searchObject.pattern options) generalizing before with
  | hnone t h =>
    have hround := _replaceCharactersIn_none new before [] h
    rw [List.append_nil] at hround
    rw [hround, replaceAll_of_noneBefore h]
  | hfirst u m v hm hoccurs hbefore ih =>
    have hround := _replaceCharactersIn_first new before [] hm hoccurs hbefore
    rw [List.append_nil, List.append_nil] at hround
    rw [hround, ih, replaceAll_first hm hoccurs hbefore]
    simp only [List.append_assoc]

theorem replaceCharactersInSet_unit (s : NSString) (theSet : UniChar → Bool) (c : UniChar) :
    s.replaceCharactersInSet theSet [c] NSLiteralSearch ⟨0, s.length⟩ = s.map fun d =>
      if theSet d then c else d := by
  have hall : s.replaceCharactersInSet theSet [c] NSLiteralSearch ⟨0, s.length⟩ =
    replaceAll [theSet] [c] s :=
    @_replaceCharactersIn_all (.characterSet theSet) NSLiteralSearch [c] [] s
  rw [hall]
  clear hall
  induction s with
  | nil => rfl
  | cons d s ih =>
    have hoccurs : occurs [theSet] (d :: s) = theSet d := by
      rw [occurs, begins, begins]
      simp
    rw [replaceAll, replaceFrom, hoccurs, List.map_cons]
    split
    · exact congrArg (c :: ·) ih
    · exact congrArg (d :: ·) ih

end

-- The range

/-- The occurrences in the range are replaced, and nothing before or behind it changes. -/
def Confines (p : Pattern UniChar) (new before inside after result : NSString) : Prop :=
  result = before ++ (replaceAll p new inside ++ after)

/-- The range holds no occurrence, or the occurrences that follow those in the range, up to
the end of the string, are the new text already. -/
def NothingFollows (p : Pattern UniChar) (new inside after : NSString) : Prop :=
  occurrences p inside = [] ∨
    ∀ m ∈ (occurrences p (inside ++ after)).drop (occurrences p inside).length, m = new

theorem _replaceCharactersIn_confines_iff (searchObject : SearchObject) (options : SearchOptions)
    (new before inside after : NSString) :
    Confines (searchObject.pattern options) new before inside after
        (_replaceCharactersIn searchObject new options (before ++ (inside ++ after))
          ⟨before.length, inside.length⟩) ↔
      NothingFollows (searchObject.pattern options) new inside after := by
  rw [Confines, NothingFollows]
  cases hfind : find (searchObject.pattern options) inside with
  | none =>
    have hnone := find_eq_none hfind
    rw [_replaceCharactersIn_none new before after hnone, replaceAll_of_noneBefore hnone]
    exact ⟨fun _ => Or.inl (occurrences_of_noneBefore hnone), fun _ => rfl⟩
  | some i =>
    obtain ⟨front, rest, hall, hrest⟩ := exists_rest (searchObject.pattern options) new inside
    obtain ⟨u, m, v, rfl, -, hm, hoccurs, hbefore⟩ := find_eq_some hfind
    have hsome : occurrences (searchObject.pattern options) (u ++ (m ++ v)) ≠ [] := by
      rw [occurrences_first hm hoccurs hbefore]
      exact List.cons_ne_nil _ _
    -- the loop goes on to the end of the string
    have hreplaced := (first_append hm hoccurs hbefore new after).1
    rw [_replaceCharactersIn_first new before after hm hoccurs hbefore, _replaceCharactersIn_all,
      List.append_assoc, List.append_assoc, ← hreplaced, hall, (hrest after).1, (hrest after).2,
      List.drop_left, or_iff_right hsome, List.append_cancel_left_eq, List.append_assoc,
      List.append_cancel_left_eq, replaceAll_eq_self_iff]

theorem _replaceCharacters_confines_iff (searchObject : SearchObject) (toString : Option NSString)
    (options : SearchOptions) (before inside after : NSString) :
    Confines (searchObject.pattern options) (toString.getD []) before inside after
        ((before ++ (inside ++ after))._replaceCharacters searchObject toString options
          ⟨before.length, inside.length⟩) ↔
      NothingFollows (searchObject.pattern options) (toString.getD []) inside after := by
  have hpattern : ∀ flag : Bool, searchObject.pattern
      (if flag then { options with backwards := false } else options) =
        searchObject.pattern options := by
    intro flag
    cases flag <;> cases searchObject <;> rfl
  have hiff := _replaceCharactersIn_confines_iff searchObject
    (if options.backwards then { options with backwards := false } else options)
    (toString.getD []) before inside after
  rwa [hpattern] at hiff

/-- The ranged operations change nothing but their range if and only if no occurrence follows
those in the range, up to the end of the string, that would be changed. -/
theorem ranged_confines_iff (options : SearchOptions) (before inside after : NSString) :
    (∀ theString replacement,
      Confines (theString.map options.isEqual) replacement before inside after
          (replaceCharacters (before ++ (inside ++ after)) theString replacement options
            ⟨before.length, inside.length⟩) ↔
        NothingFollows (theString.map options.isEqual) replacement inside after) ∧
    (∀ theString,
      Confines (theString.map options.isEqual) [] before inside after
          (deleteCharacters (before ++ (inside ++ after)) theString options
            ⟨before.length, inside.length⟩) ↔
        NothingFollows (theString.map options.isEqual) [] inside after) ∧
    (∀ theSet replacement,
      Confines [theSet] replacement before inside after
          (replaceCharactersInSet (before ++ (inside ++ after)) theSet replacement options
            ⟨before.length, inside.length⟩) ↔
        NothingFollows [theSet] replacement inside after) ∧
    ∀ theSet,
      Confines [theSet] [] before inside after
          (deleteCharactersInSet (before ++ (inside ++ after)) theSet options
            ⟨before.length, inside.length⟩) ↔
        NothingFollows [theSet] [] inside after := by
  refine ⟨fun theString replacement => ?_, fun theString => ?_, fun theSet replacement =>
    ?_, fun theSet => ?_⟩
  · exact _replaceCharacters_confines_iff (.string theString)
      (some replacement) options before inside after
  · exact _replaceCharacters_confines_iff (.string theString) none options before inside after
  · exact _replaceCharacters_confines_iff (.characterSet theSet)
      (some replacement) options before inside after
  · exact _replaceCharacters_confines_iff (.characterSet theSet) none options before inside after

/-- The replacement of an `a` in the range goes on behind the range. -/
theorem not_confines_after :
    ¬ Confines [(· == uc 'a')] (ns "b") [] (ns "a") (ns "a")
      (replaceCharacters (ns "aa") (ns "a") (ns "b") NSLiteralSearch ⟨0, 1⟩) := by
  have hiff := _replaceCharacters_confines_iff (.string (ns "a")) (some (ns "b")) NSLiteralSearch
    [] (ns "a") (ns "a")
  intro h
  obtain hnone | hsame := hiff.mp h
  · exact absurd hnone (by decide)
  · exact absurd (hsame (ns "a") (by decide)) (by decide)

end BathyScaphe.NSString
