import BathyScaphe.Dat.DictReader
import BathyScaphe.Lib.Stretch
import BathyScaphe.Message.Status

/-!
# The Spotlight importer

The importer reads the dictionary of a thread without the reader of the application.
It takes the flags of a status for what they are in whatever version the word is, and
it takes them from no word that an `int` does not hold. Behind each anchor that it
deletes it goes on three characters too far.
-/

namespace BathyScaphe.Spotlight

open NSString CMRThreadMessage Dat ThreadTextDownloader

-- The status

def FitsInt (n : Int) : Prop := -2 ^ 31 ≤ n ∧ n < 2 ^ 31

instance (n : Int) : Decidable (FitsInt n) := by
  unfold FitsInt
  infer_instance

/-- `CFNumberGetValue` as `kCFNumberIntType`; a number that does not fit is not got. -/
def getIntValue (rep : Int) : Option UInt32 :=
  if FitsInt rep then some (PropertyList.unsignedIntValue rep) else none

def hasHidingFlag (flags : UInt32) : Bool :=
  0 < flags &&& SPAM_FLAG || 0 < flags &&& INVISIBLE_ABONED_FLAG || 0 < flags &&& ABONED_FLAG

def isNotAbonedRes (rep : Option Int) : Bool :=
  match rep with
  | none => true
  | some rep =>
    match getIntValue rep with
    | none => true
    | some flags => !hasHidingFlag (flags &&& MA_FL_NOT_TEMP_MASK)

-- The text

/-- Upper and lower case of the ASCII letters are the same to the searches. -/
def foldCase (c : UniChar) : UniChar := if uc 'A' ≤ c ∧ c ≤ uc 'Z' then c + 32 else c

def findWithOptions (s stringToFind : NSString) (range : NSRange) : Option NSRange :=
  ((s.substringWithRange range).tails.findIdx? fun t =>
      stringToFind.map foldCase <+: t.map foldCase).map
    fun i => ⟨range.location + i, stringToFind.length⟩

theorem findWithOptions_le (h : findWithOptions s stringToFind range = some r) :
    range.location ≤ r.location ∧ r.length = stringToFind.length := by
  rw [findWithOptions, Option.map_eq_some_iff] at h
  obtain ⟨i, -, rfl⟩ := h
  exact ⟨Nat.le_add_right _ _, rfl⟩

/-- The loop over the anchors. The location of the range is not set back to the place
of the anchor that was deleted. -/
def deleteAnchors (cont : NSString) (len : Nat) (searchRange : NSRange) : NSString :=
  match findWithOptions cont (ns "<a ") searchRange with
  | none => cont
  | some resultRange =>
    let searchRange : NSRange := ⟨resultRange.max, len - resultRange.max⟩
    match _hgt : findWithOptions cont (ns "</a>") searchRange with
    | none => cont
    | some gtRange =>
      let resultRange : NSRange := ⟨resultRange.location, gtRange.max - resultRange.location⟩
      if len - resultRange.length ≤ searchRange.location then
        cont.deleteCharactersInRange resultRange
      else
        deleteAnchors (cont.deleteCharactersInRange resultRange) (len - resultRange.length)
          ⟨searchRange.location, searchRange.length - resultRange.length⟩
termination_by len
decreasing_by
  have := (findWithOptions_le _hgt).1
  have hlength : gtRange.length = 4 := (findWithOptions_le _hgt).2
  simp only [NSRange.max, searchRange, resultRange] at *
  omega

-- The attributes

def appendName (nameArray : List NSString) (name : NSString) : List NSString :=
  if name ∈ nameArray then nameArray else nameArray ++ [name]

def appendRes (gathered : NSString × List NSString) (obj : PropertyList) :
    NSString × List NSString :=
  if isNotAbonedRes (obj.numberForKey "Status") then
    (match obj.stringForKey "Message" with
      | some msg => gathered.1 ++ msg
      | none => gathered.1,
     match obj.stringForKey "Name" with
      | some name => appendName gathered.2 name
      | none => gathered.2)
  else gathered

def textOfContents (cont : NSString) : NSString :=
  let cont := stringByStriped (cont.stringByReplaceCharacters (ns " <br> ") [])
  deleteAnchors cont cont.length ⟨0, cont.length⟩

def setContents (attributes : PropertyList) (contents : List PropertyList) : PropertyList :=
  let gathered := contents.foldl appendRes ([], [])
  attributes
    |>.setObject (.number contents.length) "jp_tsawada2_bathyscaphe_thread_ResCount"
    |>.setObject (.string (textOfContents gathered.1)) "kMDItemTextContent"
    |>.setObject (.array (gathered.2.map .string)) "kMDItemContributors"

def setThread (attributes tempDict : PropertyList) : PropertyList :=
  attributes
    |>.setObject (.string (ns "BathyScaphe")) "kMDItemCreator"
    |>.setNoneNil (tempDict.objectForKey "Title") "kMDItemTitle"
    |>.setNoneNil (tempDict.objectForKey "Title") "kMDItemDisplayName"
    |>.setNoneNil (tempDict.objectForKey "BoardName") "jp_tsawada2_bathyscaphe_thread_BoardName"
    |>.setNoneNil (tempDict.objectForKey "dat") "jp_tsawada2_bathyscaphe_thread_DatNumber"
    |>.setNoneNil (tempDict.objectForKey "Length") "jp_tsawada2_bathyscaphe_thread_DatSize"
    |>.setNoneNil (tempDict.objectForKey "CreatedDate") "kMDItemContentCreationDate"
    |>.setNoneNil (tempDict.objectForKey "ModifiedDate") "kMDItemContentModificationDate"

/-- The dictionary is what is read from the file; `none` is a file that is not read. -/
def getMetadataForFile (attributes : PropertyList) (tempDict : Option PropertyList) :
    Bool × PropertyList :=
  match tempDict with
  | none => (false, attributes)
  | some tempDict =>
    match tempDict.arrayForKey "Contents" with
    | none => (true, setThread attributes tempDict)
    | some contents => (true, setContents (setThread attributes tempDict) contents)

-- The anchors

theorem apart_opening_closing : Stretch.Apart (ns "<a ") (ns "</a>") := by
  rintro s ⟨rest, rfl⟩ i hi
  match i with
  | 0 => simp [ns]
  | 1 => simp [ns]
  | 2 => simp [ns]
  | i + 3 => exact absurd hi (Nat.not_lt.mpr (Nat.le_add_left 3 i))

theorem apart_closing_opening : Stretch.Apart (ns "</a>") (ns "<a ") := by
  rintro s ⟨rest, rfl⟩ i hi
  match i with
  | 0 => simp [ns]
  | 1 => simp [ns]
  | 2 => simp [ns]
  | 3 => simp [ns]
  | i + 4 => exact absurd hi (Nat.not_lt.mpr (Nat.le_add_left 4 i))

/-- An anchor of the text, in whatever case it is written. -/
def anchors : Stretch.Tags UniChar UniChar where
  fold := foldCase
  opening := ns "<a "
  closing := ns "</a>"
  opening_pos := by decide
  closing_pos := by decide
  opening_apart := apart_opening_closing
  closing_apart := apart_closing_opening

section
variable {done s tag : NSString}

theorem substringWithRange_append :
    (done ++ s).substringWithRange ⟨done.length, s.length⟩ = s := by
  rw [substringWithRange, List.drop_left, List.take_length]

theorem findWithOptions_eq_none (htag : tag.map foldCase = tag)
    (h : findWithOptions (done ++ s) tag ⟨done.length, s.length⟩ = none) (i : Nat) :
    ¬ tag <+: (s.drop i).map foldCase := by
  rw [findWithOptions, substringWithRange_append, htag, Option.map_eq_none_iff,
    List.findIdx?_eq_none_iff] at h
  have hnot := h (s.drop i) (by rw [List.mem_tails]; exact List.drop_suffix i s)
  simpa using hnot

theorem findWithOptions_eq_some (htag : tag.map foldCase = tag)
    (h : findWithOptions (done ++ s) tag ⟨done.length, s.length⟩ = some r) :
    ∃ i, r = ⟨done.length + i, tag.length⟩ ∧ tag <+: (s.drop i).map foldCase ∧
      ∀ j < i, ¬ tag <+: (s.drop j).map foldCase := by
  rw [findWithOptions, substringWithRange_append, htag, Option.map_eq_some_iff] at h
  obtain ⟨i, hi, rfl⟩ := h
  rw [List.findIdx?_eq_some_iff_getElem] at hi
  obtain ⟨hlt, hhere, hbefore⟩ := hi
  refine ⟨i, rfl, by simpa using hhere, fun j hj => ?_⟩
  simpa using hbefore j hj

theorem stretchEnd_of_not_opening (h : ∀ j < i, ¬ anchors.opening <+: (s.drop j).map foldCase) :
    ∀ j < i, anchors.stretchEnd (s.drop j) = none := by
  intro j hj
  rw [Stretch.Tags.stretchEnd]
  exact if_neg (h j hj)

/-- Without a closing tag behind the first opening one there is no stretch at all. -/
theorem stretchEnd_of_not_closing (h : ∀ j < i, ¬ anchors.opening <+: (s.drop j).map foldCase)
    (hbehind : Stretch.behind foldCase anchors.closing (s.drop (i + 3)) = none) (j : Nat) :
    anchors.stretchEnd (s.drop j) = none := by
  by_cases hj : j < i
  · exact stretchEnd_of_not_opening h j hj
  · have hdrop : (s.drop j).drop 3 = (s.drop (i + 3)).drop (j - i) := by
      rw [List.drop_drop, List.drop_drop]
      congr 1
      omega
    rw [Stretch.Tags.stretchEnd]
    split
    · have hnone := Stretch.behind_drop_eq_none _ _ hbehind (j - i)
      rw [← hdrop] at hnone
      exact hnone
    · rfl

theorem stretchEnd_of_anchor (hopening : anchors.opening <+: (s.drop i).map foldCase)
    (hclosing : anchors.closing <+: ((s.drop (i + 3)).drop j).map foldCase)
    (hnext : ∀ k < j, ¬ anchors.closing <+: ((s.drop (i + 3)).drop k).map foldCase) :
    anchors.stretchEnd (s.drop i) = some (s.drop (i + 3 + j + 4)) := by
  have hbehind := Stretch.behind_of_prefix _ _ anchors.closing_pos hclosing
  rw [← Stretch.behind_drop _ _ hnext, List.drop_drop, List.drop_drop] at hbehind
  have hdrop : (s.drop i).drop anchors.opening.length = s.drop (i + 3) := List.drop_drop
  rw [Stretch.Tags.stretchEnd]
  split
  · rw [hdrop]
    exact hbehind
  · rename_i hnot
    exact absurd hopening hnot

theorem deleteCharactersInRange_append :
    (done ++ s).deleteCharactersInRange ⟨done.length + i, n⟩ = (done ++ s.take i) ++
      s.drop (i + n) := by
  rw [deleteCharactersInRange, NSRange.max, List.take_append, List.drop_append,
    List.take_of_length_le (Nat.le_add_right _ _), List.drop_of_length_le (by simp only; omega),
    List.nil_append, Nat.add_sub_cancel_left]
  congr 2
  simp only
  omega

end

-- The rounds of the loop.

theorem deleteAnchors_of_not_opening (h : findWithOptions cont (ns "<a ") searchRange = none) :
    deleteAnchors cont len searchRange = cont := by
  rw [deleteAnchors, h]

theorem deleteAnchors_of_not_closing
    (h : findWithOptions cont (ns "<a ") searchRange = some r)
    (hgt : findWithOptions cont (ns "</a>") ⟨r.max, len - r.max⟩ = none) :
    deleteAnchors cont len searchRange = cont := by
  rw [deleteAnchors, h]
  simp only
  split
  · rfl
  · rename_i hsome
    rw [hgt] at hsome
    cases hsome

theorem deleteAnchors_of_anchor
    (h : findWithOptions cont (ns "<a ") searchRange = some r)
    (hgt : findWithOptions cont (ns "</a>") ⟨r.max, len - r.max⟩ = some gt) :
    deleteAnchors cont len searchRange =
      if len - (gt.max - r.location) ≤ r.max then
        cont.deleteCharactersInRange ⟨r.location, gt.max - r.location⟩
      else
        deleteAnchors (cont.deleteCharactersInRange ⟨r.location, gt.max - r.location⟩)
          (len - (gt.max - r.location)) ⟨r.max, len - r.max - (gt.max - r.location)⟩ := by
  rw [deleteAnchors, h]
  simp only
  split
  · rename_i hnone
    rw [hgt] at hnone
    cases hnone
  · rename_i hsome
    rw [hgt] at hsome
    cases hsome
    rfl

theorem deleteAnchors_append (done s : NSString) :
    deleteAnchors (done ++ s) (done ++ s).length ⟨done.length, s.length⟩ =
      done ++ anchors.remove 3 s := by
  induction hn : s.length using Nat.strong_induction_on generalizing done s with
  | _ n ih =>
    subst hn
    cases hopen : findWithOptions (done ++ s) (ns "<a ") ⟨done.length, s.length⟩ with
    | none =>
      have hnone : ∀ i, anchors.stretchEnd (s.drop i) = none := fun i =>
        stretchEnd_of_not_opening (fun j _ => findWithOptions_eq_none (by decide) hopen j) i
          (Nat.lt_succ_self i)
      rw [deleteAnchors_of_not_opening hopen, Stretch.Tags.remove_eq_self hnone]
    | some r =>
      obtain ⟨i, rfl, hopening, hfirst⟩ := findWithOptions_eq_some (by decide) hopen
      have hlength : i + 3 ≤ s.length := by
        have hle := hopening.length_le
        rw [List.length_map, List.length_drop] at hle
        have hthree : (ns "<a ").length = 3 := rfl
        omega
      -- the closing tag is searched in the rest of the text
      have hsplit : done ++ s = (done ++ s.take (i + 3)) ++ s.drop (i + 3) := by
        rw [List.append_assoc, List.take_append_drop]
      have hdone : (done ++ s.take (i + 3)).length = done.length + i + 3 := by
        rw [List.length_append, List.length_take]
        omega
      have hrange : (done ++ s).length - (done.length + i + 3) = (s.drop (i + 3)).length := by
        rw [List.length_append, List.length_drop]
        omega
      cases hclose : findWithOptions (done ++ s) (ns "</a>")
          ⟨done.length + i + 3, (done ++ s).length - (done.length + i + 3)⟩ with
      | none =>
        rw [deleteAnchors_of_not_closing hopen hclose]
        rw [hrange, hsplit, ← hdone] at hclose
        have hbehind : Stretch.behind foldCase anchors.closing (s.drop (i + 3)) = none :=
          Stretch.behind_eq_none _ _ (findWithOptions_eq_none (by decide) hclose)
        rw [Stretch.Tags.remove_eq_self (stretchEnd_of_not_closing hfirst hbehind)]
      | some gt =>
        rw [deleteAnchors_of_anchor hopen hclose]
        rw [hrange, hsplit, ← hdone] at hclose
        obtain ⟨j, rfl, hclosing, hnext⟩ := findWithOptions_eq_some (by decide) hclose
        have hfour : (ns "</a>").length = 4 := rfl
        have hend := stretchEnd_of_anchor hopening hclosing hnext
        have hjle : i + 3 + j + 4 ≤ s.length := by
          have hle := hclosing.length_le
          rw [List.length_map, List.length_drop, List.length_drop, hfour] at hle
          omega
        have hstretch : (⟨(done ++ s.take (i + 3)).length + j, (ns "</a>").length⟩ : NSRange).max -
            (done.length + i) = 3 + j + 4 := by
          rw [NSRange.max, hdone, hfour]
          simp only
          omega
        obtain ⟨rest, hrest⟩ : ∃ rest, rest = s.drop (i + 3 + j + 4) := ⟨_, rfl⟩
        rw [← hrest] at hend
        have hdelete : (done ++ s).deleteCharactersInRange ⟨done.length + i, 3 + j + 4⟩ =
            (done ++ s.take i) ++ rest := by
          rw [deleteCharactersInRange_append, hrest]
          congr 2
          omega
        rw [Stretch.Tags.remove_of_none (stretchEnd_of_not_opening hfirst),
          Stretch.Tags.remove_of_some hend, hstretch, hdelete]
        have htake : (s.take i).length = i := by
          rw [List.length_take]
          omega
        have hlen : (done ++ s).length - (3 + j + 4) = ((done ++ s.take i) ++ rest).length := by
          rw [List.length_append, List.length_append, List.length_append, htake,
            hrest, List.length_drop]
          omega
        have hmax : (⟨done.length + i, (ns "<a ").length⟩ : NSRange).max = done.length + i + 3 :=
          rfl
        rw [hlen, hmax]
        split
        · rename_i hle
          have hshort : rest.length ≤ 3 := by
            rw [List.length_append, List.length_append, htake] at hle
            omega
          rw [List.take_of_length_le hshort, List.drop_of_length_le hshort, Stretch.Tags.remove_nil,
            List.append_nil, List.append_assoc]
        · rename_i hlong
          have hlong : 3 < rest.length := by
            rw [List.length_append, List.length_append, htake] at hlong
            omega
          have hshorter : (rest.drop 3).length < s.length := by
            rw [List.length_drop, hrest, List.length_drop]
            omega
          have hrest' := ih _ hshorter ((done ++ s.take i) ++ rest.take 3) (rest.drop 3) rfl
          have hlocation : ((done ++ s.take i) ++ rest.take 3).length = done.length + i + 3 := by
            rw [List.length_append, List.length_append, htake, List.length_take]
            omega
          have hleft : (done ++ s).length - (done.length + i + 3) - (3 + j + 4) =
            (rest.drop 3).length := by
            rw [List.length_append, hrest, List.length_drop, List.length_drop]
            omega
          rw [List.append_assoc _ (rest.take 3), List.take_append_drop, hlocation] at hrest'
          rw [hleft, hrest', List.append_assoc, List.append_assoc]

theorem textOfContents_eq (cont : NSString) :
    textOfContents cont =
      anchors.remove 3 (stringByStriped (cont.stringByReplaceCharacters (ns " <br> ") [])) :=
  deleteAnchors_append [] _

-- The messages

theorem hasHidingFlag_zero : hasHidingFlag 0 = false := by decide

theorem hasHidingFlag_notTemp (flags : UInt32) :
    hasHidingFlag (flags &&& MA_FL_NOT_TEMP_MASK) = hasHidingFlag flags := by
  rw [hasHidingFlag, hasHidingFlag, Flags.and_and_of_subset rfl, Flags.and_and_of_subset rfl,
    Flags.and_and_of_subset rfl]

/-- The application does not show a message that is spam or that was removed. -/
def isHidden (m : CMRThreadMessage) : Bool := m.isSpam || m.isInvisibleAboned || m.isAboned

/-- The flags that the application reads from a word are those of version 1.1. -/
theorem getD_attributesWithRepresentation (n : Int) :
    (attributesWithRepresentation (some (.number n))).getD 0 =
      if 0 < PropertyList.unsignedIntValue n &&& MA_VERSION_1_1_MAGIC then
        PropertyList.unsignedIntValue n &&& MA_FL_NOT_TEMP_MASK
      else 0 := by
  have hword : attributesWithRepresentation (some (.number n)) =
      attributesWithRepresentation (some (.ofUnsignedInt (PropertyList.unsignedIntValue n))) := by
    simp only [attributesWithRepresentation, PropertyList.ofUnsignedInt,
      PropertyList.unsignedIntValue_toNat]
  by_cases hversion : PropertyList.unsignedIntValue n &&& MA_VERSION_MASK = 0
  · rw [hword, attributesWithRepresentation_noVersion hversion, and_version11_eq_zero hversion]
    rfl
  · simp only [attributesWithRepresentation, hversion, decide_false, Bool.false_and,
      Bool.false_eq_true, if_false]
    split <;> rfl

/-- The message that the application reads, by the number under the key of the status. -/
theorem isHidden_messageOfDict (i : Nat) (dict : PropertyList) :
    isHidden (CMRThreadDictReader.messageOfDict i dict) =
      match dict.numberForKey "Status" with
      | none => false
      | some n => 0 < PropertyList.unsignedIntValue n &&& MA_VERSION_1_1_MAGIC &&
          hasHidingFlag (PropertyList.unsignedIntValue n) := by
  have hflags : isHidden (CMRThreadDictReader.messageOfDict i dict) =
      hasHidingFlag ((attributesWithRepresentation (dict.objectForKey "Status")).getD 0) := rfl
  rw [hflags, PropertyList.numberForKey]
  cases hstatus : dict.objectForKey "Status" with
  | none => exact hasHidingFlag_zero
  | some status =>
    cases status with
    | number n =>
      rw [getD_attributesWithRepresentation]
      simp only [Option.bind_some, PropertyList.asNumber]
      split
      · rename_i hmark
        simp [hmark, hasHidingFlag_notTemp]
      · rename_i hmark
        simp [hmark, hasHidingFlag_zero]
    | string s => exact hasHidingFlag_zero
    | date t => exact hasHidingFlag_zero
    | data bytes => exact hasHidingFlag_zero
    | array objects => exact hasHidingFlag_zero
    | dict entries => exact hasHidingFlag_zero

/-- A word with one of the flags is taken alike where its mark of version 1.1 is set
just when an `int` holds it. -/
def ReadsAlike (dict : PropertyList) : Prop :=
  ∀ n, dict.numberForKey "Status" = some n →
    hasHidingFlag (PropertyList.unsignedIntValue n) = true →
    (0 < PropertyList.unsignedIntValue n &&& MA_VERSION_1_1_MAGIC ↔ FitsInt n)

theorem isNotAbonedRes_iff (i : Nat) (dict : PropertyList) :
    isNotAbonedRes (dict.numberForKey "Status") =
      !isHidden (CMRThreadDictReader.messageOfDict i dict) ↔
      ReadsAlike dict := by
  rw [isHidden_messageOfDict, ReadsAlike]
  cases dict.numberForKey "Status" with
  | none => simp [isNotAbonedRes]
  | some n =>
    cases hflag : hasHidingFlag (PropertyList.unsignedIntValue n) with
    | false =>
      by_cases hfits : FitsInt n <;>
        simp [isNotAbonedRes, getIntValue, hfits, hasHidingFlag_notTemp, hflag]
    | true =>
      by_cases hfits : FitsInt n <;>
        simp [isNotAbonedRes, getIntValue, hfits, hasHidingFlag_notTemp, hflag]

-- What is gathered

theorem foldl_appendName (nameArray names : List NSString) :
    names.foldl appendName nameArray = nameArray ++ (names.filter (· ∉ nameArray)).eraseDups := by
  induction names generalizing nameArray with
  | nil => simp
  | cons name names ih =>
    rw [List.foldl_cons, ih, appendName]
    split
    · rename_i hmem
      rw [List.filter_cons_of_neg (by simpa using hmem)]
    · rename_i hmem
      rw [List.filter_cons_of_pos (by simpa using hmem), List.eraseDups_cons, List.append_assoc,
        List.singleton_append, List.filter_filter]
      congr 3
      apply List.filter_congr
      intro other _
      rw [Bool.eq_iff_iff]
      simp [and_comm]

section
variable {contents : List PropertyList}

def isIncluded (obj : PropertyList) : Bool := isNotAbonedRes (obj.numberForKey "Status")

theorem foldl_appendRes (cont : NSString) (nameArray : List NSString)
    (contents : List PropertyList) :
    contents.foldl appendRes (cont, nameArray) =
      (cont ++ ((contents.filter isIncluded).filterMap (·.stringForKey "Message")).flatten,
        ((contents.filter isIncluded).filterMap (·.stringForKey "Name")).foldl
        appendName nameArray) := by
  induction contents generalizing cont nameArray with
  | nil => simp
  | cons obj contents ih =>
    rw [List.foldl_cons, appendRes]
    split
    · rename_i hstatus
      have hincluded : isIncluded obj = true := hstatus
      rw [ih, List.filter_cons_of_pos hincluded]
      cases hmsg : obj.stringForKey "Message" <;> cases hname : obj.stringForKey "Name" <;>
        simp [hmsg, hname]
    · rename_i hstatus
      have hincluded : ¬ isIncluded obj = true := hstatus
      rw [ih, List.filter_cons_of_neg hincluded]

theorem filterMap_shown (field : CMRThreadMessage → Option NSString) {key : String}
    (hfield : ∀ i dict, field (CMRThreadDictReader.messageOfDict i dict) = dict.stringForKey key)
    (halike : ∀ dict ∈ contents, ReadsAlike dict) (n : Nat) :
    ((contents.mapIdx fun i dict => CMRThreadDictReader.messageOfDict (n + i) dict).filter
        (!isHidden ·)).filterMap field =
      (contents.filter isIncluded).filterMap (·.stringForKey key) := by
  induction contents generalizing n with
  | nil => rfl
  | cons dict contents ih =>
    obtain ⟨hdict, hcontents⟩ := List.forall_mem_cons.mp halike
    have hincluded : isIncluded dict = !isHidden (CMRThreadDictReader.messageOfDict (n + 0) dict) :=
      (isNotAbonedRes_iff (n + 0) dict).mpr hdict
    have htail := ih hcontents (n + 1)
    simp only [Nat.add_right_comm n 1, Nat.add_assoc] at htail
    rw [List.mapIdx_cons, List.filter_cons, List.filter_cons, hincluded]
    split
    · rw [List.filterMap_cons, List.filterMap_cons, hfield, htail]
    · exact htail

end

-- What the index should have

/-- The messages of a log that the application neither takes for spam nor for removed. -/
def shownMessages (thread : PropertyList) : List CMRThreadMessage :=
  (CMRThreadDictReader.readThread thread).filter (!isHidden ·)

/-- Their bodies, without the line breaks and the white space around the whole. -/
def shownText (thread : PropertyList) : NSString :=
  stringByStriped
    (Split.pieces (ns " <br> ") ((shownMessages thread).filterMap
      (·.messageSource)).flatten).flatten

/-- The importer takes the messages that the application shows, all anchors are gone
from the text, and the names are those of the messages in the order of their first
occurrences. -/
structure AgreesWithLog (attributes thread : PropertyList) : Prop where
  included : ∀ i dict, (storedMessages thread)[i]? = some dict →
    isNotAbonedRes (dict.numberForKey "Status") =
      !isHidden (CMRThreadDictReader.messageOfDict i dict)
  textContent : ∀ contents, thread.arrayForKey "Contents" = some contents →
    attributes.objectForKey "kMDItemTextContent" =
      some (.string (anchors.remove 0 (shownText thread)))
  contributors : ∀ contents, thread.arrayForKey "Contents" = some contents →
    attributes.objectForKey "kMDItemContributors" =
      some (.array (((shownMessages thread).filterMap (·.name)).eraseDups.map .string))

theorem readThread_eq (thread : PropertyList) :
    CMRThreadDictReader.readThread thread =
      (storedMessages thread).mapIdx fun i dict =>
        CMRThreadDictReader.messageOfDict (0 + i) dict := by
  rw [CMRThreadDictReader.readThread, CMRThreadDictReader.initWithFileContents,
    CMRThreadDictReader.composeWithComposer_eq, List.drop_zero]

theorem stringByReplaceCharacters_nil (s chars : NSString) :
    s.stringByReplaceCharacters chars [] = (Split.pieces chars s).flatten := by
  rw [stringByReplaceCharacters, containsString]
  split
  · exact Split.nil_intercalate _
  · rename_i hnot
    rw [Split.pieces_of_not_contains (by simpa using hnot), List.flatten_singleton]

section
variable {entries : List (String × PropertyList)} {thread : PropertyList}
  {contents : List PropertyList}

theorem objectForKey_getMetadataForFile (halike : ∀ dict ∈ storedMessages thread, ReadsAlike dict)
    (hcontents : thread.arrayForKey "Contents" = some contents) :
    ((getMetadataForFile (.dict entries) (some thread)).2).objectForKey "kMDItemTextContent" =
        some (.string (anchors.remove 3 (shownText thread))) ∧
      ((getMetadataForFile (.dict entries) (some thread)).2).objectForKey "kMDItemContributors" =
        some (.array (((shownMessages thread).filterMap (·.name)).eraseDups.map .string)) := by
  have hstored : storedMessages thread = contents := by
    rw [storedMessages, hcontents, Option.getD_some]
  have hdict : PropertyList.IsDict (setThread (.dict entries) thread) := by
    simp [setThread]
  rw [hstored] at halike
  have hbodies := filterMap_shown CMRThreadMessage.messageSource (fun _ _ => rfl) halike 0
  have hnames := filterMap_shown CMRThreadMessage.name (fun _ _ => rfl) halike 0
  rw [← hstored, ← readThread_eq] at hbodies hnames
  have hgathered : (contents.foldl appendRes ([], [])) =
      (((shownMessages thread).filterMap (·.messageSource)).flatten,
        ((shownMessages thread).filterMap (·.name)).eraseDups) := by
    rw [foldl_appendRes, foldl_appendName, shownMessages, hbodies, hnames, hstored]
    simp
  simp only [getMetadataForFile, hcontents, setContents, hgathered, textOfContents_eq,
    stringByReplaceCharacters_nil]
  constructor
  · simp [PropertyList.objectForKey_setObject, hdict, shownText]
  · simp [PropertyList.objectForKey_setObject, hdict]

end

/-- The index agrees with the log where every status is taken alike and behind each
anchor the next one is three characters away. -/
theorem agreesWithLog_iff (entries : List (String × PropertyList)) (thread : PropertyList) :
    AgreesWithLog (getMetadataForFile (.dict entries) (some thread)).2 thread ↔
      (∀ dict ∈ storedMessages thread, ReadsAlike dict) ∧ anchors.Spaced 3 (shownText thread) := by
  constructor
  · intro hagrees
    have halike : ∀ dict ∈ storedMessages thread, ReadsAlike dict := by
      intro dict hdict
      obtain ⟨i, hi⟩ := List.mem_iff_getElem?.mp hdict
      exact (isNotAbonedRes_iff i dict).mp (hagrees.included i dict hi)
    refine ⟨halike, Stretch.Tags.remove_eq_iff.mp ?_⟩
    cases hcontents : thread.arrayForKey "Contents" with
    | none =>
      have hnil : shownText thread = [] := by
        have hstored : storedMessages thread = [] := by
          rw [storedMessages, hcontents, Option.getD_none]
        rw [shownText, shownMessages, readThread_eq, hstored]
        rfl
      rw [hnil, Stretch.Tags.remove_nil, Stretch.Tags.remove_nil]
    | some contents =>
      have htext := hagrees.textContent contents hcontents
      rw [(objectForKey_getMetadataForFile halike hcontents).1] at htext
      exact PropertyList.string.inj (Option.some.inj htext)
  · rintro ⟨halike, hspaced⟩
    refine ⟨fun i dict hi => ?_, fun contents hcontents => ?_, fun contents hcontents => ?_⟩
    · exact (isNotAbonedRes_iff i dict).mpr (halike dict (List.mem_of_getElem? hi))
    · rw [(objectForKey_getMetadataForFile halike hcontents).1,
        Stretch.Tags.remove_eq_iff.mpr hspaced]
    · exact (objectForKey_getMetadataForFile halike hcontents).2

def logOf (message : List (String × PropertyList)) : PropertyList :=
  .dict [("Contents", .array [.dict message])]

/-- A body with an anchor right behind another one, and a word of version 1.0 with the
mark of spam. -/
theorem agreesWithLog_fails :
    ¬ AgreesWithLog
        (getMetadataForFile (.dict [])
          (some (logOf [("Message", .string (ns "<a >1</a><a >2</a>"))]))).2
        (logOf [("Message", .string (ns "<a >1</a><a >2</a>"))]) ∧
      ¬ AgreesWithLog
        (getMetadataForFile (.dict [])
          (some (logOf [("Status", .ofUnsignedInt (MA_VERSION_1_0_MAGIC ||| SPAM_FLAG))]))).2
        (logOf [("Status", .ofUnsignedInt (MA_VERSION_1_0_MAGIC ||| SPAM_FLAG))]) := by
  constructor
  · intro hagrees
    have halike : ∀ dict ∈ storedMessages (logOf [("Message", .string (ns "<a >1</a><a >2</a>"))]),
        ReadsAlike dict := by
      intro dict hdict n hn
      obtain rfl := List.mem_singleton.mp hdict
      cases hn
    have htext := hagrees.textContent _ rfl
    rw [(objectForKey_getMetadataForFile halike rfl).1] at htext
    have hspaced := Stretch.Tags.remove_eq_iff.mp (PropertyList.string.inj (Option.some.inj htext))
    have hshown : shownText (logOf [("Message", .string (ns "<a >1</a><a >2</a>"))]) =
        ns "<a >1</a><a >2</a>" := by
      rw [shownText, shownMessages, readThread_eq]
      decide
    rw [hshown] at hspaced
    have hend : anchors.stretchEnd (ns "<a >1</a><a >2</a>") = some (ns "<a >2</a>") := by decide
    have hnone := (Stretch.Tags.spaced_cons_some hend).mp hspaced |>.1 0 (by decide)
    exact absurd hnone (by decide)
  · intro hagrees
    have hincluded := hagrees.included 0 _ rfl
    rw [isNotAbonedRes_iff] at hincluded
    have hmark := (hincluded _ rfl (by decide)).mpr (by decide)
    exact absurd hmark (by decide)

end BathyScaphe.Spotlight
