import BathyScaphe.Foundation.Search
import BathyScaphe.Lib.Spans
import Mathlib.Data.List.TakeWhile

/-!
# Taking tags out of a text

`htmlConvertDeleteAllTagElements` takes out every stretch from a `<` through the next `>`
but those that are no tags: a name that is not ASCII, a long one, and `ul`. It looks for
white space without the high bits of the units, so that units such as `上` count as white
space, and its buffer takes a name of exactly `ELEM_NAME_BUFSIZE` units.
-/

namespace BathyScaphe.Composer

open NSString

def ELEM_NAME_BUFSIZE : Nat := 31

def isspace (c : UniChar) : Bool := (0x09 ≤ c && c ≤ 0x0D) || c == 0x20

def tolower (c : UniChar) : UniChar := if uc 'A' ≤ c && c ≤ uc 'Z' then c + 32 else c

theorem tolower_cases (c : UniChar) :
    tolower c = c ∨ (65 ≤ c.toNat ∧ c.toNat ≤ 90 ∧ (tolower c).toNat = c.toNat + 32) := by
  unfold tolower
  split
  · rename_i hupper
    have hbounds : (uc 'A').toNat ≤ c.toNat ∧ c.toNat ≤ (uc 'Z').toNat := by
      simpa only [Bool.and_eq_true, decide_eq_true_iff, UInt16.le_iff_toNat_le] using hupper
    have hA : (uc 'A').toNat = 65 := rfl
    have hZ : (uc 'Z').toNat = 90 := rfl
    have hdiff : (32 : UniChar).toNat = 32 := rfl
    rw [hA, hZ] at hbounds
    refine .inr ⟨hbounds.1, hbounds.2, ?_⟩
    rw [UInt16.toNat_add, hdiff]
    omega
  · exact .inl rfl

def cString (s : NSString) : NSString := s.takeWhile (· != 0)

def isUl (tagName : NSString) : Bool := (cString tagName).map tolower == ns "ul"

/-- The loop over the name: the buffer, and whether the name may be that of a tag. -/
def scanTagName (tagName : NSString) : NSString → NSString × Bool
  | [] => (tagName, true)
  | c :: s =>
    if isspace (c &&& 0x7f) || c == uc '/' || c == uc '>' then (tagName, true)
    else if c > 0x7f || tagName.length ≥ ELEM_NAME_BUFSIZE then (tagName, false)
    else scanTagName (tagName ++ [c &&& 0x7f]) s

def shouldDelete (element : NSString) : Bool :=
  match (element.drop 1).dropWhile fun c => isspace (c &&& 0x7f) || c == uc '/' with
  | [] => true
  | name =>
    let r := scanTagName [] name
    if isUl r.1 then false else r.2

/-- The loop of `htmlConvertDeleteAllTagElements`; the text is searched from `location` to
its end. -/
def htmlConvertDeleteAllTagElementsFrom (theString : NSString) (location : Nat) : NSString :=
  match _hlt : theString.rangeOfString (ns "<") (theString.rangeFrom location) with
  | none => theString
  | some lt =>
    match _hgt : theString.rangeOfString (ns ">") (theString.rangeFrom lt.max) with
    | none => htmlConvertDeleteAllTagElementsFrom theString lt.max
    | some gt =>
      let result : NSRange := ⟨lt.location, gt.max - lt.location⟩
      if shouldDelete (theString.substringWithRange result) then
        htmlConvertDeleteAllTagElementsFrom (theString.deleteCharactersInRange result)
          (gt.max - result.length)
      else htmlConvertDeleteAllTagElementsFrom theString gt.max
termination_by theString.length - location
decreasing_by
  all_goals
    obtain ⟨hlocation, hlength, hmax⟩ := max_rangeOfString_rangeFrom _hlt
    have hone : (ns "<").length = 1 := rfl
    rw [NSRange.max] at *
  · omega
  · obtain ⟨hlocation', hlength', hmax'⟩ := max_rangeOfString_rangeFrom _hgt
    rw [NSRange.max] at *
    simp only [deleteCharactersInRange, NSRange.max, List.length_append, List.length_take,
      List.length_drop]
    omega
  · obtain ⟨hlocation', hlength', hmax'⟩ := max_rangeOfString_rangeFrom _hgt
    rw [NSRange.max] at *
    omega

def htmlConvertDeleteAllTagElements (theString : NSString) : NSString :=
  if theString.length < 2 then theString else htmlConvertDeleteAllTagElementsFrom theString 0

-- The loop and the spans of the text

def tagBrackets : Spans.Brackets UniChar := ⟨uc '<', uc '>', by decide⟩

variable {u v s : NSString}

theorem ranges_of_tag {location : Nat} {lt gt : NSRange}
    (hlt : s.rangeOfString (ns "<") (s.rangeFrom location) = some lt)
    (hgt : s.rangeOfString (ns ">") (s.rangeFrom lt.max) = some gt) :
    ∃ done u m rest, s = done ++ u ++ (uc '<' :: (m ++ [uc '>']) ++ rest) ∧ location = done.length ∧
      uc '<' ∉ u ∧ uc '>' ∉ m ∧ lt.location = (done ++ u).length ∧
      gt.max = (done ++ u ++ uc '<' :: (m ++ [uc '>'])).length := by
  obtain ⟨done, u, v, hs, rfl, rfl, hfirst⟩ := rangeOfString_rangeFrom_eq_some hlt
  obtain ⟨before, m, rest, hs', hlength, rfl, hfirst'⟩ := rangeOfString_rangeFrom_eq_some hgt
  have hassoc : (done ++ u ++ ns "<") ++ v = before ++ (m ++ (ns ">" ++ rest)) := by
    rw [← List.append_assoc before, ← hs', hs, List.append_assoc]
  rw [NSRange.max, ← List.length_append] at hlength
  obtain ⟨rfl, rfl⟩ := List.append_inj hassoc hlength
  refine ⟨done, u, m, rest, ?_, rfl, Occurrence.isFirst_singleton.mp hfirst,
    Occurrence.isFirst_singleton.mp hfirst', rfl, ?_⟩
  · rw [hs]
    simp only [List.append_assoc, List.cons_append]
    rfl
  · rw [NSRange.max, ← List.length_append]
    simp only [List.append_assoc]
    rfl

theorem htmlConvertDeleteAllTagElementsFrom_eq (theString : NSString) (location : Nat) :
    htmlConvertDeleteAllTagElementsFrom theString location =
      theString.take location ++ Spans.keep tagBrackets (fun m => !shouldDelete m)
        (theString.drop location) := by
  fun_induction htmlConvertDeleteAllTagElementsFrom theString location with
  | case1 theString location hnone =>
    rw [rangeOfString_eq_none_iff (by decide), substringWithRange_rangeFrom] at hnone
    have hopening : tagBrackets.opening ∉ theString.drop location :=
      fun hmem => hnone ((List.singleton_infix_iff _ _).mpr hmem)
    rw [Spans.keep_of_not_opening hopening, List.take_append_drop]
  | case2 theString location lt hlt hnone ih =>
    obtain ⟨done, u, v, rfl, rfl, rfl, hfirst⟩ := rangeOfString_rangeFrom_eq_some hlt
    have hassoc : done ++ u ++ (ns "<" ++ v) = (done ++ u ++ ns "<") ++ v := by
      rw [List.append_assoc (done ++ u)]
    rw [rangeOfString_eq_none_iff (by decide), substringWithRange_rangeFrom] at hnone
    rw [NSRange.max, ← List.length_append, hassoc, List.drop_left] at hnone
    have hclosing : tagBrackets.closing ∉ v :=
      fun hmem => hnone ((List.singleton_infix_iff _ _).mpr hmem)
    have hopening : tagBrackets.opening ∉ u := Occurrence.isFirst_singleton.mp hfirst
    rw [NSRange.max, ← List.length_append, hassoc, List.take_left, List.drop_left,
      Spans.keep_of_not_closing hclosing] at ih
    rw [NSRange.max, ← List.length_append, hassoc, ih]
    simp only [List.append_assoc]
    rw [List.take_left, List.drop_left]
    exact congrArg (done ++ ·) (Spans.keep_open hopening hclosing).symm
  | case3 theString location lt hlt gt hgt result hdelete ih =>
    obtain ⟨done, u, m, rest, rfl, rfl, hopening, hclosing, hltlocation, hgtmax⟩ :=
      ranges_of_tag hlt hgt
    rw [List.length_append] at hgtmax
    have hresult : result = ⟨(done ++ u).length, (uc '<' :: (m ++ [uc '>'])).length⟩ := by
      rw [← hltlocation, ← Nat.sub_eq_of_eq_add' hgtmax, ← hltlocation]
    have hlocation : gt.max - (uc '<' :: (m ++ [uc '>'])).length = (done ++ u).length :=
      Nat.sub_eq_of_eq_add hgtmax
    rw [hresult, substringWithRange_append] at hdelete
    rw [hresult, deleteCharactersInRange_append, hlocation, List.take_left, List.drop_left] at ih
    rw [hresult, deleteCharactersInRange_append, hlocation, ih,
      List.append_assoc done u (_ ++ rest), List.take_left, List.drop_left]
    refine (List.append_assoc _ _ _).trans (congrArg (done ++ ·) (Eq.symm ?_))
    have hkeep : (!shouldDelete (tagBrackets.opening :: (m ++ [tagBrackets.closing]))) = false :=
      congrArg (!·) hdelete
    refine (Spans.keep_span hopening hclosing rest).trans ?_
    rw [hkeep, if_neg Bool.false_ne_true, List.nil_append]
  | case4 theString location lt hlt gt hgt result hkeep ih =>
    obtain ⟨done, u, m, rest, rfl, rfl, hopening, hclosing, hltlocation, hgtmax⟩ :=
      ranges_of_tag hlt hgt
    rw [hgtmax, ← List.append_assoc, List.take_left, List.drop_left] at ih
    have hresult : result = ⟨(done ++ u).length, (uc '<' :: (m ++ [uc '>'])).length⟩ := by
      rw [List.length_append] at hgtmax
      rw [← hltlocation, ← Nat.sub_eq_of_eq_add' hgtmax, ← hltlocation]
    rw [hresult, substringWithRange_append] at hkeep
    rw [hgtmax, ← List.append_assoc, ih]
    simp only [List.append_assoc]
    rw [List.take_left, List.drop_left]
    refine congrArg (done ++ ·) (Eq.symm ?_)
    have hkeep : (!shouldDelete (tagBrackets.opening :: (m ++ [tagBrackets.closing]))) = true :=
      congrArg (!·) (eq_false_of_ne_true hkeep)
    refine (Spans.keep_span hopening hclosing rest).trans ?_
    rw [hkeep, if_pos rfl]
    rfl

-- The name of a tag

def isSkipped (isBlank : UniChar → Bool) (c : UniChar) : Bool := isBlank c || c == uc '/'

def isNameUnit (isBlank : UniChar → Bool) (c : UniChar) : Bool :=
  !(isBlank c || c == uc '/' || c == uc '>')

def tagNameBy (isBlank : UniChar → Bool) (element : NSString) : NSString :=
  ((element.drop 1).dropWhile (isSkipped isBlank)).takeWhile (isNameUnit isBlank)

def isspace7 (c : UniChar) : Bool := isspace (c &&& 0x7f)

def IsAscii (s : NSString) : Prop := ∀ c ∈ s, c ≤ 0x7f

instance (s : NSString) : Decidable (IsAscii s) := List.decidableBAll _ s

theorem and_0x7f {c : UniChar} (hc : c ≤ 0x7f) : c &&& 0x7f = c := by
  rw [UInt16.le_iff_toNat_le] at hc
  rw [← UInt16.toNat_inj, UInt16.toNat_and]
  exact (Nat.and_two_pow_sub_one_eq_mod c.toNat 7).trans (Nat.mod_eq_of_lt (Nat.lt_succ_of_le hc))

theorem isAscii_cons {c : UniChar} : IsAscii (c :: s) ↔ c ≤ 0x7f ∧ IsAscii s := List.forall_mem_cons

theorem scanTagName_snd {tagName : NSString} (htagName : tagName.length ≤ ELEM_NAME_BUFSIZE)
    (s : NSString) :
    (scanTagName tagName s).2 = true ↔
      IsAscii (s.takeWhile (isNameUnit isspace7)) ∧
        tagName.length + (s.takeWhile (isNameUnit isspace7)).length ≤ ELEM_NAME_BUFSIZE := by
  induction s generalizing tagName with
  | nil => exact ⟨fun _ => ⟨fun c hc => absurd hc List.not_mem_nil, htagName⟩, fun _ => rfl⟩
  | cons c s ih =>
    rw [scanTagName]
    by_cases hstop : (isspace (c &&& 0x7f) || c == uc '/' || c == uc '>') = true
    · have hunit : isNameUnit isspace7 c = false := congrArg (!·) hstop
      rw [if_pos hstop, List.takeWhile_cons_of_neg (by rw [hunit]; exact Bool.false_ne_true)]
      exact ⟨fun _ => ⟨fun c hc => absurd hc List.not_mem_nil, htagName⟩, fun _ => rfl⟩
    · have hunit : isNameUnit isspace7 c = true := congrArg (!·) (eq_false_of_ne_true hstop)
      rw [if_neg hstop, List.takeWhile_cons_of_pos hunit, isAscii_cons, List.length_cons]
      by_cases hkeep : (decide (c > 0x7f) || decide (tagName.length ≥ ELEM_NAME_BUFSIZE)) = true
      · rw [if_pos hkeep]
        rw [Bool.or_eq_true, decide_eq_true_iff, decide_eq_true_iff] at hkeep
        constructor
        · intro h
          cases h
        · rintro ⟨⟨hc, -⟩, hlength⟩
          obtain hgt | hfull := hkeep
          · exact absurd hc (UInt16.not_le.mpr hgt)
          · omega
      · rw [if_neg hkeep]
        rw [Bool.or_eq_true, decide_eq_true_iff, decide_eq_true_iff, not_or, UInt16.not_lt,
          Nat.not_le] at hkeep
        rw [ih (by rw [List.length_append, List.length_singleton]; exact hkeep.2),
          List.length_append,
          List.length_singleton, and_iff_right hkeep.1, Nat.add_assoc, Nat.add_comm 1]

theorem scanTagName_fst {tagName : NSString} (h : (scanTagName tagName s).2 = true) :
    (scanTagName tagName s).1 = tagName ++ s.takeWhile (isNameUnit isspace7) := by
  induction s generalizing tagName with
  | nil => rw [scanTagName, List.takeWhile_nil, List.append_nil]
  | cons c s ih =>
    rw [scanTagName] at h ⊢
    by_cases hstop : (isspace (c &&& 0x7f) || c == uc '/' || c == uc '>') = true
    · have hunit : isNameUnit isspace7 c = false := congrArg (!·) hstop
      rw [if_pos hstop, List.takeWhile_cons_of_neg (by rw [hunit]; exact Bool.false_ne_true),
        List.append_nil]
    · have hunit : isNameUnit isspace7 c = true := congrArg (!·) (eq_false_of_ne_true hstop)
      rw [if_neg hstop] at h ⊢
      by_cases hkeep : (decide (c > 0x7f) || decide (tagName.length ≥ ELEM_NAME_BUFSIZE)) = true
      · rw [if_pos hkeep] at h
        cases h
      · rw [if_neg hkeep] at h ⊢
        rw [Bool.or_eq_true, decide_eq_true_iff, not_or, UInt16.not_lt] at hkeep
        rw [ih h, List.takeWhile_cons_of_pos hunit, and_0x7f hkeep.1, List.append_assoc,
          List.singleton_append]

theorem shouldDelete_iff (element : NSString) :
    shouldDelete element = true ↔
      IsAscii (tagNameBy isspace7 element) ∧ (tagNameBy isspace7 element).length ≤
        ELEM_NAME_BUFSIZE ∧
        isUl (tagNameBy isspace7 element) = false := by
  have hskip : ((element.drop 1).dropWhile fun c => isspace (c &&& 0x7f) || c == uc '/') =
      (element.drop 1).dropWhile (isSkipped isspace7) := rfl
  rw [shouldDelete, tagNameBy, hskip]
  cases (element.drop 1).dropWhile (isSkipped isspace7) with
  | nil => exact ⟨fun _ => ⟨fun c hc => absurd hc List.not_mem_nil, Nat.zero_le _, rfl⟩,
      fun _ => rfl⟩
  | cons c name =>
    have hsnd := @scanTagName_snd [] (Nat.zero_le _) (c :: name)
    rw [List.length_nil, Nat.zero_add] at hsnd
    simp only
    by_cases hscan : (scanTagName [] (c :: name)).2 = true
    · rw [scanTagName_fst hscan, List.nil_append, hscan]
      obtain ⟨hascii, hlength⟩ := hsnd.mp hscan
      rw [and_iff_right hascii, and_iff_right hlength]
      cases isUl ((c :: name).takeWhile (isNameUnit isspace7)) <;> simp
    · rw [eq_false_of_ne_true hscan, ite_self]
      constructor
      · intro h
        cases h
      · rintro ⟨hascii, hlength, -⟩
        exact absurd (hsnd.mpr ⟨hascii, hlength⟩) hscan

theorem isspace_ascii {c : UniChar} (h : isspace c = true) : c ≤ 0x7f := by
  rw [isspace, Bool.or_eq_true, Bool.and_eq_true, decide_eq_true_iff, decide_eq_true_iff,
    beq_iff_eq] at h
  obtain ⟨-, hle⟩ | rfl := h
  · exact UInt16.le_trans hle (by decide)
  · decide

theorem isspace7_of_ascii {c : UniChar} (hc : c ≤ 0x7f) : isspace7 c = isspace c :=
  congrArg isspace (and_0x7f hc)

theorem isspace7_of_isspace {c : UniChar} (h : isspace c = true) : isspace7 c = true := by
  rwa [isspace7_of_ascii (isspace_ascii h)]

theorem takeWhile_isNameUnit (h : IsAscii (s.takeWhile (isNameUnit isspace))) :
    s.takeWhile (isNameUnit isspace7) = s.takeWhile (isNameUnit isspace) := by
  induction s with
  | nil => rfl
  | cons c s ih =>
    by_cases hunit : isNameUnit isspace c = true
    · rw [List.takeWhile_cons_of_pos hunit, isAscii_cons] at h
      have hunit7 : isNameUnit isspace7 c = true := by
        rwa [isNameUnit, isspace7_of_ascii h.1]
      rw [List.takeWhile_cons_of_pos hunit, List.takeWhile_cons_of_pos hunit7, ih h.2]
    · have hunit7 : ¬ isNameUnit isspace7 c = true := by
        intro hunit7
        apply hunit
        rw [isNameUnit, Bool.not_eq_true', Bool.or_eq_false_iff, Bool.or_eq_false_iff] at hunit7 ⊢
        exact ⟨⟨eq_false_of_ne_true fun h => ne_true_of_eq_false hunit7.1.1 (isspace7_of_isspace h),
          hunit7.1.2⟩,
          hunit7.2⟩
      rw [List.takeWhile_cons_of_neg hunit, List.takeWhile_cons_of_neg hunit7]

theorem tagNameBy_of_isAscii {element : NSString} (h : IsAscii (tagNameBy isspace element)) :
    tagNameBy isspace7 element = tagNameBy isspace element := by
  rw [tagNameBy] at h
  rw [tagNameBy, tagNameBy]
  generalize element.drop 1 = t at h
  induction t with
  | nil => rfl
  | cons c t ih =>
    by_cases hskip : isSkipped isspace c = true
    · have hskip7 : isSkipped isspace7 c = true := by
        rw [isSkipped, Bool.or_eq_true] at hskip ⊢
        exact hskip.imp isspace7_of_isspace id
      rw [List.dropWhile_cons_of_pos hskip] at h
      rw [List.dropWhile_cons_of_pos hskip, List.dropWhile_cons_of_pos hskip7, ih h]
    · rw [List.dropWhile_cons_of_neg hskip] at h
      -- a unit at which the name begins is ASCII, and so is the end of the tag
      have hc : c ≤ 0x7f := by
        by_contra hgt
        have hunit : isNameUnit isspace c = true := by
          rw [isSkipped] at hskip
          rw [isNameUnit, eq_false_of_ne_true hskip, Bool.false_or, Bool.not_eq_true',
            beq_eq_false_iff_ne]
          rintro rfl
          exact hgt (by decide)
        rw [List.takeWhile_cons_of_pos hunit, isAscii_cons] at h
        exact hgt h.1
      have hskip7 : ¬ isSkipped isspace7 c = true := by
        rwa [isSkipped, isspace7_of_ascii hc]
      rw [List.dropWhile_cons_of_neg hskip, List.dropWhile_cons_of_neg hskip7,
        takeWhile_isNameUnit h]

-- Tags

/-- The name of the span is ASCII, of fewer than `ELEM_NAME_BUFSIZE` units, and not `ul`. -/
def isTag (element : NSString) : Bool :=
  let name := tagNameBy isspace element
  decide (IsAscii name) && (decide (name.length < ELEM_NAME_BUFSIZE) && name.map tolower != ns "ul")

def withoutTags (s : NSString) : NSString := Spans.keep tagBrackets (fun m => !isTag m) s

/-- A name that is ASCII does not just fill the buffer, and is `ul` if it is `ul` up to a NUL;
another name that is read with false white space is still not that of a tag. -/
def NameIsRead (element : NSString) : Prop :=
  let name := tagNameBy isspace element
  let read := tagNameBy isspace7 element
  if IsAscii name then
    (name.length = ELEM_NAME_BUFSIZE → isUl name = true) ∧
      (name.length < ELEM_NAME_BUFSIZE → isUl name = true → name.map tolower = ns "ul")
  else ¬ (IsAscii read ∧ read.length ≤ ELEM_NAME_BUFSIZE ∧ isUl read = false)

theorem isUl_of_map_tolower (h : s.map tolower = ns "ul") : isUl s = true := by
  have hnul : s.takeWhile (· != 0) = s := by
    rw [List.takeWhile_eq_self_iff]
    intro c hc
    rw [bne_iff_ne]
    rintro rfl
    have hmem : (0 : UniChar) ∈ ns "ul" := h ▸ List.mem_map_of_mem hc
    exact absurd hmem (by decide)
  rw [isUl, cString, hnul, h, beq_self_eq_true]

theorem isTag_iff (element : NSString) :
    isTag element = true ↔
      IsAscii (tagNameBy isspace element) ∧ (tagNameBy isspace element).length < ELEM_NAME_BUFSIZE ∧
        (tagNameBy isspace element).map tolower ≠ ns "ul" := by
  simp only [isTag, Bool.and_eq_true, decide_eq_true_iff, bne_iff_ne]

theorem shouldDelete_eq_isTag_iff (element : NSString) :
    shouldDelete element = isTag element ↔ NameIsRead element := by
  rw [Bool.eq_iff_iff, shouldDelete_iff, isTag_iff, NameIsRead]
  by_cases hascii : IsAscii (tagNameBy isspace element)
  · rw [tagNameBy_of_isAscii hascii, if_pos hascii, and_iff_right hascii, and_iff_right hascii]
    have hul := isUl_of_map_tolower (s := tagNameBy isspace element)
    generalize tagNameBy isspace element = name at hul
    obtain hlt | heq | hgt := Nat.lt_trichotomy name.length ELEM_NAME_BUFSIZE
    · rw [and_iff_right hlt.le, and_iff_right hlt, and_iff_right fun heq =>
        absurd heq hlt.ne, Bool.eq_false_iff,
        not_iff_not]
      exact ⟨fun h _ => h.mp, fun h => ⟨h hlt, hul⟩⟩
    · have hnot : ¬ (name.length < ELEM_NAME_BUFSIZE ∧ name.map tolower ≠ ns "ul") :=
        fun h => absurd heq h.1.ne
      rw [and_iff_right heq.le, iff_false_right hnot, Bool.not_eq_false,
        and_iff_left fun hlt => absurd heq (Nat.ne_of_lt hlt)]
      exact ⟨fun h _ => h, fun h => h heq⟩
    · refine iff_of_true (iff_of_false ?_ ?_) ⟨?_, ?_⟩
      · exact fun h => absurd h.1 (Nat.not_le.mpr hgt)
      · exact fun h => absurd h.1 (Nat.not_lt.mpr hgt.le)
      · exact fun heq => absurd heq hgt.ne'
      · exact fun hlt => absurd hlt (Nat.not_lt.mpr hgt.le)
  · rw [if_neg hascii]
    constructor
    · exact fun h hread => hascii (h.mp hread).1
    · exact fun h => ⟨fun hread => absurd hread h, fun htag => absurd htag.1 hascii⟩

theorem htmlConvertDeleteAllTagElements_eq (s : NSString) :
    htmlConvertDeleteAllTagElements s = Spans.keep tagBrackets (fun m => !shouldDelete m) s := by
  rw [htmlConvertDeleteAllTagElements]
  split
  · rename_i hshort
    -- one unit is no span
    match s, hshort with
    | [], _ => rfl
    | [c], _ =>
      rw [Spans.keep, Spans.keepFrom, Spans.keepFrom, Spans.keepFrom]
      split <;> rfl
  · rw [htmlConvertDeleteAllTagElementsFrom_eq, List.take_zero, List.drop_zero, List.nil_append]

/-- Tags are taken out, and nothing else, if and only if the name of every span is read as
it stands. -/
theorem htmlConvertDeleteAllTagElements_eq_withoutTags_iff (s : NSString) :
    (htmlConvertDeleteAllTagElements s = withoutTags s ∧
      (uc '<' ∉ s → htmlConvertDeleteAllTagElements s = s)) ↔
      ∀ element ∈ Spans.spans tagBrackets s, NameIsRead element := by
  have hopening : uc '<' ∉ s → htmlConvertDeleteAllTagElements s = s := by
    intro h
    rw [htmlConvertDeleteAllTagElements_eq]
    exact Spans.keep_of_not_opening h
  rw [and_iff_left hopening, htmlConvertDeleteAllTagElements_eq, withoutTags, Spans.keep_eq_iff]
  refine forall_congr' fun element => imp_congr_right fun _ => ?_
  rw [← shouldDelete_eq_isTag_iff, Bool.not_inj_iff]

/-- `<上>` is no tag, but it is taken out. -/
theorem htmlConvertDeleteAllTagElements_kanji :
    htmlConvertDeleteAllTagElements (ns "<上>") ≠ withoutTags (ns "<上>") := by
  rw [htmlConvertDeleteAllTagElements_eq]
  decide

end BathyScaphe.Composer
