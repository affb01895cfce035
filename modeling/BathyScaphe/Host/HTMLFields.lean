import BathyScaphe.Host.HTMLHandler

/-!
# The fields of a page

What becomes of the fields of a message: the name loses the two characters in front of the
date, a host in brackets gets the form that a DAT has for it, and the body loses its last
break. Line feeds are taken out of all of them.
-/

namespace BathyScaphe.Host.CMRHostHTMLHandler

open NSString Dat Xml Occurrence

-- Strings

def oneLine (s : NSString) : NSString := s.filter (· != uc '\n')

theorem oneLine_append (s t : NSString) : oneLine (s ++ t) = oneLine s ++ oneLine t :=
  List.filter_append _ _

theorem newline_not_mem_oneLine (s : NSString) : uc '\n' ∉ oneLine s := by
  intro hmem
  exact absurd (List.mem_filter.mp hmem).2 (by decide)

theorem deleteLineFeeds_eq (s : NSString) : deleteLineFeeds s = oneLine s := by
  have hall : deleteLineFeeds s = Replace.replaceAll [(uc '\n' == ·)] [] s :=
    @_replaceCharactersIn_all (.string (ns "\n")) NSLiteralSearch [] [] s
  rw [hall]
  clear hall
  induction s with
  | nil => rfl
  | cons c s ih =>
    have hoccurs : Replace.occurs [(uc '\n' == ·)] (c :: s) = (uc '\n' == c) := by
      rw [Replace.occurs, Replace.begins, Replace.begins]
      simp
    rw [Replace.replaceAll, Replace.replaceFrom, hoccurs, oneLine]
    by_cases hc : c = uc '\n'
    · subst hc
      exact ih
    · rw [if_neg (by simpa using Ne.symm hc), List.filter_cons_of_pos (by simpa using hc)]
      exact congrArg (c :: ·) ih

theorem insertString_append (s t new : NSString) :
    insertString (s ++ t) new s.length = s ++ (new ++ t) := by
  rw [insertString, List.take_left, List.drop_left, List.append_assoc]

theorem deleteCharactersInRange_front (before old rest : NSString) :
    (before ++ (old ++ rest)).deleteCharactersInRange ⟨0,
      (⟨before.length, old.length⟩ : NSRange).max⟩ = rest := by
  rw [deleteCharactersInRange, NSRange.max, NSRange.max, List.take_zero, List.nil_append,
    Nat.zero_add, ← List.length_append, ← List.append_assoc, List.drop_left]

theorem exists_of_rangeOfString {s p : NSString}
    (h : s.rangeOfString p (s.rangeFrom 0) = some found) :
    ∃ u v, s = u ++ (p ++ v) ∧ found = ⟨u.length, p.length⟩ ∧ IsFirst p u v := by
  obtain ⟨u, v, hsplit, rfl, hfirst⟩ := rangeOfString_eq_some h
  rw [substringWithRange_rangeFrom, List.drop_zero] at hsplit
  refine ⟨u, v, hsplit, ?_, hfirst⟩
  rw [rangeFrom, Nat.zero_add]

theorem rangeOfLastString_of_isLast {p u v : NSString} (hp : p ≠ []) (h : IsLast p u v) :
    rangeOfLastString (u ++ (p ++ v)) p = some ⟨u.length, p.length⟩ := by
  have hfound := rangeOfString_of_isFirst (by simpa using hp) h
  rw [rangeOfLastString, reverse_occurrence, hfound, Option.map_some, NSRange.max]
  simp only [List.length_append, List.length_reverse, Option.some.injEq, NSRange.mk.injEq, and_true]
  omega

theorem rangeOfLastString_eq_none {p s : NSString} (hp : p ≠ []) (h : ¬ p <:+: s) :
    rangeOfLastString s p = none := by
  rw [rangeOfLastString, (rangeOfString_eq_none_iff (by simpa using hp)).mpr, Option.map_none]
  rw [substringWithRange_rangeFrom]
  exact fun hmem => h (List.reverse_infix.mp hmem)

section
variable {q : UniChar → Bool} {s t : NSString} {c : UniChar}

theorem dropWhile_append_cons (hc : q c = false) :
    (s ++ c :: t).dropWhile q = s.dropWhile q ++ c :: t := by
  rw [List.dropWhile_append, List.dropWhile_cons_of_neg (by simp [hc])]
  split
  · rename_i hempty
    rw [List.isEmpty_iff.mp hempty, List.nil_append]
  · rfl

theorem rdropWhile_append_cons (hc : q c = false) :
    (s ++ c :: t).rdropWhile q = s ++ c :: t.rdropWhile q := by
  have hreverse : (s ++ c :: t).reverse = t.reverse ++ c :: s.reverse := by simp
  rw [List.rdropWhile, List.rdropWhile, hreverse, dropWhile_append_cons hc]
  simp

end

-- The fields of a message

structure Marked (text before name date : NSString) : Prop where
  text : text = before ++ (machibbs.namePrefix ++ (name ++ (machibbs.datePrefix ++ date)))
  isFirst_name : IsFirst machibbs.namePrefix before (name ++ (machibbs.datePrefix ++ date))
  isFirst_date : IsFirst machibbs.datePrefix name date

theorem Marked.unique {s before name date before' name' date' : NSString}
    (h : Marked s before name date)
    (h' : Marked s before' name' date') : name = name' ∧ date = date' := by
  obtain ⟨-, hrest⟩ := h.isFirst_name.unique h'.isFirst_name (h.text.symm.trans h'.text)
  exact h.isFirst_date.unique h'.isFirst_date hrest

/-- A host in brackets ends the date, or no bracket does. -/
inductive DateField : NSString → NSString → Prop
  | plain (h : ∀ c ∈ date.getLast?, c &&& 0x7f ≠ uc ']') : DateField date date
  | host (h : uc '[' ∉ host) :
    DateField (date ++ (ns "[" ++ (host ++ ns "]"))) (date ++ (ns "HOST:" ++ stripAtEnd host))

inductive BodyField : NSString → NSString → Prop
  | whole (h : ¬ ns " <br><br>" <:+: text) : BodyField text text
  | ended (h : IsLast (ns " <br><br>") body rest) : BodyField (body ++ (ns " <br><br>" ++ rest))
      (body ++ rest)

theorem BodyField.subset {s body : NSString} (h : BodyField s body) : body ⊆ s := by
  cases h with
  | whole => exact List.Subset.refl _
  | @ended body rest h =>
    have hrest : rest ⊆ ns " <br><br>" ++ rest := List.subset_append_right _ _
    exact List.append_subset.mpr ⟨List.subset_append_left _ _,
      List.subset_append_of_subset_right _ hrest⟩

def nameField (name : NSString) : NSString :=
  (oneLine (name.take (name.length - 2))).dropWhile isWhitespace

def dateText (date : NSString) : NSString := (oneLine date).rdropWhile isWhitespace

def fieldsBefore (name mail : NSString) : NSString :=
  nameField name ++ (ns "<>" ++ (oneLine mail ++ ns "<>"))

theorem formatHostField_plain (h : ∀ c ∈ (front ++ date).getLast?, c &&& 0x7f ≠ uc ']') :
    formatHostField (front ++ date) = front ++ date := by
  rw [formatHostField]
  cases hlast : (front ++ date).getLast? with
  | none => rfl
  | some c => exact if_pos (h c hlast)

theorem formatHostField_host (hhost : uc '[' ∉ host) (front : NSString) :
    formatHostField (front ++ (ns "[" ++ (host ++ ns "]"))) =
      front ++ (ns "HOST:" ++ stripAtEnd host) := by
  have hsplit : front ++ (ns "[" ++ (host ++ ns "]")) = (front ++ (ns "[" ++ host)) ++
    [uc ']'] := by
    simp only [List.append_assoc]
    rfl
  have hlast : rangeOfLastString (front ++ (ns "[" ++ host)) (ns "[") =
    some ⟨front.length, (ns "[").length⟩ :=
    rangeOfLastString_of_isLast (by decide) (isLast_singleton.mpr hhost)
  rw [formatHostField, hsplit, List.getLast?_concat]
  simp only [List.dropLast_concat, hlast, replaceCharactersInRange_append]
  rw [if_neg (by decide), List.append_assoc]
  -- the colon is not stripped
  have hcolon : front ++ (ns "HOST:" ++ host) = (front ++ ns "HOST") ++ uc ':' :: host := by
    rw [List.append_assoc]
    rfl
  rw [hcolon, stripAtEnd, rdropWhile_append_cons (by decide), List.append_assoc]
  rfl

theorem formatHostField_date (h : DateField date shown) (name mail : NSString) :
    formatHostField (fieldsBefore name mail ++ date) = fieldsBefore name mail ++ shown := by
  cases h with
  | plain h =>
    apply formatHostField_plain
    rw [List.getLast?_append]
    cases hlast : date.getLast? with
    | none =>
      have hfront : (fieldsBefore name mail).getLast? = some (uc '>') := by
        rw [fieldsBefore, List.getLast?_append, List.getLast?_append, List.getLast?_append]
        rfl
      rw [Option.none_or, hfront]
      intro d hd
      obtain rfl := Option.some.inj hd
      decide
    | some c =>
      intro d hd
      rw [Option.some_or] at hd
      exact h d (hlast ▸ hd)
  | @host date host h =>
    rw [← List.append_assoc, formatHostField_host h, List.append_assoc]

theorem datFields_marked (h : Marked text before name date) (hname : 2 ≤ name.length)
    (mail : Option NSString) :
    datFields machibbs mail text =
      .ok (formatHostField (fieldsBefore name (mail.getD []) ++ dateText date) ++ ns "<>") := by
  obtain ⟨rfl, hbefore, hdate⟩ := h
  have hprefix := rangeOfString_of_isFirst (show machibbs.namePrefix ≠ [] by decide) hbefore
  have hmark := rangeOfString_of_isFirst (show machibbs.datePrefix ≠ [] by decide) hdate
  have hdelete := deleteCharactersInRange_front before machibbs.namePrefix
    (name ++ (machibbs.datePrefix ++ date))
  have hspace :
    deleteExtraSpaceAtEndOfNameIfNeeded (name ++ (ns "<>" ++ (mail.getD [] ++ (ns "<>" ++ date))))
      name.length = .ok (name.take (name.length - 2) ++
        (ns "<>" ++ (mail.getD [] ++ (ns "<>" ++ date)))) := by
    rw [deleteExtraSpaceAtEndOfNameIfNeeded, if_neg (by omega), deleteCharactersInRange,
      NSRange.max,
      Nat.sub_add_cancel hname, List.take_append_of_le_length (Nat.sub_le _ _), List.drop_left]
  have hstriped : stringByStriped (deleteLineFeeds
      (name.take (name.length - 2) ++ (ns "<>" ++ (mail.getD [] ++ (ns "<>" ++ date))))) =
        fieldsBefore name (mail.getD []) ++ dateText date := by
    have hsplit :
      oneLine (name.take (name.length - 2) ++ (ns "<>" ++ (mail.getD [] ++ (ns "<>" ++ date)))) =
        oneLine (name.take (name.length - 2)) ++
          uc '<' :: ((uc '>' :: (oneLine (mail.getD []) ++ [uc '<'])) ++ uc '>' ::
            oneLine date) := by
      simp only [oneLine_append, List.append_assoc, List.cons_append]
      rfl
    rw [deleteLineFeeds_eq, hsplit, stringByStriped, dropWhile_append_cons (by decide),
      ← List.cons_append,
      ← List.append_assoc, rdropWhile_append_cons (by decide), fieldsBefore, nameField, dateText]
    simp only [List.append_assoc, List.cons_append]
    rfl
  rw [datFields, hprefix]
  cases mail with
  | none =>
    simp only [Option.getD_none, List.nil_append] at hspace hstriped
    simp only [hdelete, hmark, deleteCharactersInRange_append, insertString_append]
    rw [hspace, Except.map, hstriped]
    rfl
  | some mail =>
    simp only [Option.getD_some] at hspace hstriped
    simp only [hdelete, hmark, deleteCharactersInRange_append, insertString_append]
    rw [hspace, Except.map, hstriped]
    rfl

theorem datFields_short (h : Marked text before name date) (hname : name.length < 2)
    (mail : Option NSString) :
    datFields machibbs mail text = .error .range := by
  obtain ⟨rfl, hbefore, hdate⟩ := h
  have hprefix := rangeOfString_of_isFirst (show machibbs.namePrefix ≠ [] by decide) hbefore
  have hmark := rangeOfString_of_isFirst (show machibbs.datePrefix ≠ [] by decide) hdate
  rw [datFields, hprefix]
  simp only [deleteCharactersInRange_front, hmark, deleteExtraSpaceAtEndOfNameIfNeeded,
    if_pos hname]
  rfl

theorem datFields_not_marked (h : ∀ before name date, ¬ Marked text before name date)
    (mail : Option NSString) :
    datFields machibbs mail text = .ok [] := by
  rw [datFields]
  cases hprefix : rangeOfString text machibbs.namePrefix (rangeFrom text 0) with
  | none => rfl
  | some found =>
    obtain ⟨before, rest, hsplit, rfl, hbefore⟩ := exists_of_rangeOfString hprefix
    simp only [hsplit, deleteCharactersInRange_front]
    cases hmark : rangeOfString rest machibbs.datePrefix (rangeFrom rest 0) with
    | none => rfl
    | some found =>
      obtain ⟨name, date, rfl, -, hdate⟩ := exists_of_rangeOfString hmark
      exact absurd ⟨hsplit, hbefore, hdate⟩ (h before name date)

theorem newline_not_mem_formatHostField (h : uc '\n' ∉ s) : uc '\n' ∉ formatHostField s := by
  have hinit : uc '\n' ∉ s.dropLast := fun hmem => h (List.mem_of_mem_dropLast hmem)
  rw [formatHostField]
  split
  · exact h
  · split
    · exact h
    · split
      · exact hinit
      · intro hmem
        have hmem := (List.rdropWhile_prefix _ _).subset hmem
        rw [replaceCharactersInRange, List.mem_append, List.mem_append] at hmem
        obtain (htake | hnew) | hdrop := hmem
        · exact hinit (List.mem_of_mem_take htake)
        · exact absurd hnew (by decide)
        · exact hinit (List.mem_of_mem_drop hdrop)

theorem exists_datBody (text : NSString) :
    ∃ body, BodyField (oneLine text) body ∧ datBody machibbs text =
      body ++ (ns "<>" ++ ns "\n") := by
  have hsuffix : machibbs.msgSuffixBrTag.getD (ns "<br><br>") = ns " <br><br>" := rfl
  rw [datBody, deleteLineFeeds_eq, hsuffix]
  by_cases h : ns " <br><br>" <:+: oneLine text
  · obtain ⟨body, rest, hsplit, hlast⟩ := exists_isLast h
    refine ⟨body ++ rest, hsplit ▸ .ended hlast, ?_⟩
    simp only [hsplit, rangeOfLastString_of_isLast (show ns " <br><br>" ≠ [] by decide) hlast,
      deleteCharactersInRange_append, List.append_assoc]
  · refine ⟨oneLine text, .whole h, ?_⟩
    simp only [rangeOfLastString_eq_none (show ns " <br><br>" ≠ [] by decide) h, List.append_assoc]

theorem newline_not_mem_fields (name mail date : NSString) :
    uc '\n' ∉ fieldsBefore name mail ++ dateText date := by
  have hbracket : uc '\n' ∉ ns "<>" := by decide
  rw [fieldsBefore, nameField, dateText]
  simp only [List.mem_append, not_or]
  refine ⟨⟨?_, hbracket, newline_not_mem_oneLine mail, hbracket⟩, ?_⟩
  · intro hmem
    exact newline_not_mem_oneLine _ ((List.dropWhile_suffix _).subset hmem)
  · intro hmem
    exact newline_not_mem_oneLine _ ((List.rdropWhile_prefix _ _).subset hmem)

end BathyScaphe.Host.CMRHostHTMLHandler
