import BathyScaphe.Host.HTMLFields
import BathyScaphe.Lib.Numbering
import BathyScaphe.Xml.Termination

/-!
# The DAT of a page

A message of a page gets a line of the DAT at its number, and a number that is missing gets
an empty one. That holds for messages without the marks as well, whose lines have the body
alone. -/

namespace BathyScaphe.Host.CMRHostHTMLHandler

open NSString Dat Xml

deriving instance DecidableEq for XmlException, Page

-- Tags

theorem isTag_iff : isTag e tagName type = true ↔ e.type = type ∧ e.name = some (ns tagName) := by
  rw [isTag, Bool.and_eq_true, beq_iff_eq, beq_iff_eq]

theorem isTag_unique (h : isTag e tagName type = true) (hne : ns tagName ≠ ns tagName') :
    isTag e tagName' type' = false := by
  rw [← Bool.not_eq_true, isTag_iff]
  rintro ⟨-, hname⟩
  exact hne (Option.some.inj ((isTag_iff.mp h).2.symm.trans hname))

theorem isMessageStopTag_eq (htype : e.type = .START_TAG) (hname : e.name = some name) :
    isMessageStopTag machibbs e = isMessageStopTag machibbs
      { type := .START_TAG, name := some name } := by
  simp only [isMessageStopTag, htype, hname]

theorem isMessageStopTag_dt (h : isTag e "dt" .START_TAG = true) :
    isMessageStopTag machibbs e = true := by
  obtain ⟨htype, hname⟩ := isTag_iff.mp h
  rw [isMessageStopTag_eq htype hname]
  decide

theorem not_br_of_isMessageStopTag (h : isMessageStopTag machibbs e = true) :
    isTag e "br" .START_TAG = false := by
  rw [← Bool.not_eq_true, isTag_iff]
  rintro ⟨htype, hname⟩
  rw [isMessageStopTag_eq htype hname] at h
  exact absurd h (by decide)

-- Messages

def textOf (events : List Event) : NSString := events.flatMap fun e =>
    if e.type = .TEXT then e.text else []

def bodyTextOf (events : List Event) : NSString :=
  events.flatMap fun e =>
    (if isTag e "br" .START_TAG then ns "<br>" else []) ++ (if e.type = .TEXT then e.text else [])

def mailOf (mail : Option NSString) (events : List Event) : Option NSString :=
  events.foldl (fun mail e => if isTag e "a" .START_TAG then readMail machibbs e else mail) mail

def numberOf (text : NSString) : Option Nat :=
  if (UTF8String text).isSome then scanDigits 10 decimalDigit (text.dropWhile Composer.isspace)
  else none

def beginsPart (e : Event) : Bool := isTag e "dt" .START_TAG || isTag e "dd" .START_TAG

/-- The events of a message: its `dt` with the fields, its `dd` with the body, and what
follows up to the next one. -/
structure Res where
  number : Nat
  dt : Event
  fields : List Event
  dd : Event
  body : List Event
  rest : List Event
  isTag_dt : isTag dt "dt" .START_TAG = true
  isTag_dd : isTag dd "dd" .START_TAG = true
  numberOf_fields : numberOf (textOf fields) = some number
  fields_dd : ∀ e ∈ fields, isTag e "dd" .START_TAG = false
  body_allowed : ∀ e ∈ body, isMessageStopTag machibbs e = false
  rest_stops : ∀ e ∈ rest.head?, isMessageStopTag machibbs e = true
  rest_parts : ∀ e ∈ rest, beginsPart e = false

namespace Res

def events (r : Res) : List Event := r.dt :: (r.fields ++ r.dd :: (r.body ++ r.rest))

def fieldsText (r : Res) : NSString := textOf r.fields

def bodyText (r : Res) : NSString := bodyTextOf r.body

def mail (r : Res) : NSString := (mailOf (some []) r.fields).getD []

def index (r : Res) : UInt32 := indexWithFieldsString r.fieldsText

def datFields (r : Res) : Except XmlException NSString :=
  CMRHostHTMLHandler.datFields machibbs (mailOf (some []) r.fields) r.fieldsText

/-- The name has the two characters that are taken from it. -/
def HasSpace (r : Res) : Prop := ∀ before name date, Marked r.fieldsText before name date →
    2 ≤ name.length

/-- The line of a message; of dates that end otherwise, nothing is said. -/
structure Line (r : Res) (line : NSString) : Prop where
  marked : ∀ before name date, Marked r.fieldsText before name date →
    ∀ shown, DateField (dateText date) shown →
    ∃ body, BodyField (oneLine r.bodyText) body ∧
      line = fieldsBefore name r.mail ++ (shown ++ (ns "<>" ++ (body ++ ns "<>")))
  unmarked : (∀ before name date, ¬ Marked r.fieldsText before name date) →
    ∃ body, BodyField (oneLine r.bodyText) body ∧ line = body ++ ns "<>"

end Res

theorem scanFields_append (h : ∀ e ∈ fields, isTag e "dd" .START_TAG = false) (index : UInt32)
    (mail : Option NSString)
    (tmp : NSString) (events : List Event) :
    scanFields machibbs index mail tmp (fields ++ events) =
      scanFields machibbs index (mailOf mail fields) (tmp ++ textOf fields) events := by
  induction fields generalizing mail tmp with
  | nil => rw [textOf, List.flatMap_nil, List.append_nil, List.nil_append, mailOf, List.foldl_nil]
  | cons e fields ih =>
    obtain ⟨he, hfields⟩ := List.forall_mem_cons.mp h
    have htext : (if e.type = .TEXT then tmp ++ e.text else tmp) ++ textOf fields =
      tmp ++ textOf (e :: fields) := by
      rw [textOf, textOf, List.flatMap_cons, ← List.append_assoc]
      split
      · rfl
      · rw [List.append_nil]
    rw [List.cons_append, scanFields, if_neg (by simp [he]), ih hfields, htext]
    rfl

theorem scanMessage_append (h : ∀ e ∈ body, isMessageStopTag machibbs e = false) (tmp : NSString)
    (events : List Event) :
    scanMessage machibbs tmp (body ++ events) = scanMessage machibbs
      (tmp ++ bodyTextOf body) events := by
  induction body generalizing tmp with
  | nil => rw [bodyTextOf, List.flatMap_nil, List.append_nil, List.nil_append]
  | cons e body ih =>
    obtain ⟨he, hbody⟩ := List.forall_mem_cons.mp h
    rw [List.cons_append, scanMessage, if_neg (by simp [he]), ih hbody, bodyTextOf,
      bodyTextOf, List.flatMap_cons]
    congr 1
    split <;> split <;> simp only [List.append_assoc, List.append_nil, List.nil_append]

theorem scanMessage_stop (h : isMessageStopTag machibbs e = true) (tmp : NSString)
    (events : List Event) :
    scanMessage machibbs tmp (e :: events) = (datBody machibbs tmp, e :: events) := by
  rw [scanMessage, not_br_of_isMessageStopTag h, if_pos h]
  rfl

theorem scanBody_skip (h : ∀ e ∈ before, beginsPart e = false) (thread : NSString) (index : UInt32)
    (events : List Event) :
    scanBody machibbs thread index (before ++ events) = scanBody machibbs thread index events := by
  induction before with
  | nil => rfl
  | cons e before ih =>
    obtain ⟨he, hbefore⟩ := List.forall_mem_cons.mp h
    obtain ⟨hdt, hdd⟩ := Bool.or_eq_false_iff.mp he
    rw [List.cons_append, scanBody, if_neg (by simp [hdt]), if_neg (by simp [hdd]), ih hbefore]

theorem scanFields_dd (r : Res) (index : UInt32) (events : List Event) :
    scanFields machibbs index (some []) [] (r.fields ++ r.dd :: events) =
      r.datFields.map fun fields => (invisibleLines index r.index ++ fields, r.index,
        r.dd :: events) := by
  rw [scanFields_append r.fields_dd, List.nil_append, scanFields, if_pos r.isTag_dd,
    if_neg (by simp [isTag_unique r.isTag_dd (show ns "dd" ≠ ns "a" by decide)])]
  rfl

/-- The next event is a tag that a body cannot have. -/
def Stops (events : List Event) : Prop := ∃ e after, events = e :: after ∧
    isMessageStopTag machibbs e = true

theorem scanBody_ok (r : Res) (hstop : Stops (r.rest ++ events))
    (hfields : r.datFields = .ok fields)
    (thread : NSString) (index : UInt32) :
    scanBody machibbs thread index (r.events ++ events) =
      scanBody machibbs
        (thread ++ (invisibleLines index r.index ++ (fields ++ datBody machibbs r.bodyText)))
        r.index events := by
  have hscan := scanFields_dd r index (r.body ++ r.rest ++ events)
  rw [hfields] at hscan
  obtain ⟨e, after, hafter, he⟩ := hstop
  have hmessage : scanMessage machibbs [] (r.body ++ r.rest ++ events) =
      (datBody machibbs r.bodyText, r.rest ++ events) := by
    rw [List.append_assoc, scanMessage_append r.body_allowed, hafter, scanMessage_stop he,
      List.nil_append]
    rfl
  have hdt : isTag r.dd "dt" .START_TAG = false := isTag_unique r.isTag_dd (by decide)
  rw [Res.events, List.cons_append, List.append_assoc, List.cons_append, scanBody,
    if_pos r.isTag_dt]
  split
  · rename_i herror
    rw [hscan] at herror
    cases herror
  · rename_i text index' rest hok
    rw [hscan] at hok
    cases hok
    rw [scanBody, if_neg (by simp [hdt]), if_pos r.isTag_dd, hmessage, scanBody_skip r.rest_parts]
    simp only [List.append_assoc]

theorem scanBody_error (r : Res) (hfields : r.datFields = .error e) (thread : NSString)
    (index : UInt32)
    (events : List Event) : scanBody machibbs thread index (r.events ++ events) = .error e := by
  have hscan := scanFields_dd r index (r.body ++ r.rest ++ events)
  rw [hfields] at hscan
  rw [Res.events, List.cons_append, List.append_assoc, List.cons_append, scanBody,
    if_pos r.isTag_dt]
  split
  · rename_i herror
    rw [hscan] at herror
    cases herror
    rfl
  · rename_i hok
    rw [hscan] at hok
    cases hok

-- Lines

theorem decimalDigit_of_scanDigits (h : scanDigits base decimalDigit (c :: s) = some n) :
    (decimalDigit c).isSome := by
  by_contra hnot
  have hnone : (c :: s).takeWhile (fun c => (decimalDigit c).isSome) = [] :=
    List.takeWhile_cons_of_neg hnot
  rw [scanDigits, hnone] at h
  cases h

theorem indexWithFieldsString_eq (h : numberOf text = some n) (hn : n < 2 ^ 31 - 1) :
    indexWithFieldsString text = UInt32.ofNat n := by
  rw [numberOf] at h
  split at h
  · rename_i hutf8
    rw [indexWithFieldsString, if_pos hutf8, strtoul]
    cases hdrop : text.dropWhile Composer.isspace with
    | nil =>
      rw [hdrop] at h
      cases h
    | cons c s =>
      rw [hdrop] at h
      obtain ⟨-, hminus, hplus⟩ := not_isWhitespace_of_digit (decimalDigit_of_scanDigits h)
      simp only [hminus, hplus, or_self, if_false, h, Option.map_some, Option.getD_some]
      exact if_neg (by omega)
  · cases h

theorem invisibleLines_eq (hlast : last < n) (hn : n < 2 ^ 31 - 1) :
    invisibleLines (UInt32.ofNat last) (UInt32.ofNat n) =
      textOfLines (List.replicate (n - (last + 1)) placeholderLine) := by
  have hcapped : capped last = last ∧ capped n = n := by
    rw [capped, capped]
    omega
  have hfill := fillLines_capped last n []
  rw [hcapped.1, hcapped.2, List.nil_append, List.nil_append] at hfill
  have hfound : UInt32.ofNat n ≠ NSNotFound := by
    intro heq
    have hnat := congrArg UInt32.toNat heq
    rw [UInt32.toNat_ofNat_of_lt' (Nat.lt_of_lt_of_le hn (by decide))] at hnat
    exact absurd hnat (Nat.ne_of_lt hn)
  rw [invisibleLines, ← hfill]
  simp only [hfound, ne_eq, not_false_eq_true, true_and]

def Res.datLine (r : Res) : NSString :=
  (r.datFields.toOption.getD [] ++ datBody machibbs r.bodyText).dropLast

theorem dropLast_newline (s : NSString) : (s ++ (ns "<>" ++ ns "\n")).dropLast = s ++ ns "<>" := by
  rw [← List.append_assoc]
  exact List.dropLast_concat

/-- What is written for a message is one line, and the line that it should be. -/
theorem Res.exists_fields (r : Res) (h : r.HasSpace) :
    ∃ fields, r.datFields = .ok fields ∧ fields ++ datBody machibbs r.bodyText =
      r.datLine ++ ns "\n" ∧
      r.Line r.datLine ∧ uc '\n' ∉ r.datLine := by
  obtain ⟨body, hbody, hdat⟩ := exists_datBody r.bodyText
  have hbracket : uc '\n' ∉ ns "<>" := by decide
  have hclean : uc '\n' ∉ body := fun hmem => newline_not_mem_oneLine _ (hbody.subset hmem)
  by_cases hmarked : ∃ before name date, Marked r.fieldsText before name date
  · obtain ⟨before, name, date, hmarked⟩ := hmarked
    have hfields : r.datFields = _ := datFields_marked hmarked (h before name date hmarked) _
    have hline : r.datLine = formatHostField (fieldsBefore name r.mail ++ dateText date) ++
        (ns "<>" ++ (body ++ ns "<>")) := by
      rw [Res.datLine, hfields, hdat]
      show ((formatHostField _ ++ ns "<>") ++ (body ++ (ns "<>" ++ ns "\n"))).dropLast = _
      rw [← List.append_assoc, dropLast_newline, List.append_assoc, List.append_assoc]
      rfl
    refine ⟨_, hfields, ?_, ⟨?_, ?_⟩, ?_⟩
    · rw [hline, hdat]
      simp only [List.append_assoc]
      rfl
    · intro before' name' date' hmarked' shown hshown
      obtain ⟨rfl, rfl⟩ := hmarked.unique hmarked'
      refine ⟨body, hbody, ?_⟩
      rw [hline, formatHostField_date hshown, List.append_assoc]
    · intro hnot
      exact absurd hmarked (hnot before name date)
    · rw [hline, List.mem_append, List.mem_append, List.mem_append]
      rintro (hmem | hmem | hmem | hmem)
      · exact newline_not_mem_formatHostField (newline_not_mem_fields name r.mail date) hmem
      · exact hbracket hmem
      · exact hclean hmem
      · exact hbracket hmem
  · have hnot : ∀ before name date, ¬ Marked r.fieldsText before name date :=
      fun before name date hmem => hmarked ⟨before, name, date, hmem⟩
    have hfields : r.datFields = _ := datFields_not_marked hnot _
    have hline : r.datLine = body ++ ns "<>" := by
      rw [Res.datLine, hfields, hdat]
      exact dropLast_newline body
    refine ⟨_, hfields, ?_, ⟨?_, ?_⟩, ?_⟩
    · rw [hline, hdat, List.append_assoc]
      rfl
    · intro before name date hmem
      exact absurd hmem (hnot before name date)
    · exact fun _ => ⟨body, hbody, hline⟩
    · rw [hline, List.mem_append]
      rintro (hmem | hmem)
      · exact hclean hmem
      · exact hbracket hmem

-- The list of the messages

def numbered (res : List Res) : List (Nat × NSString) := res.map fun r => (r.number, r.datLine)

structure IsDat (loadedCount : Nat) (res : List Res) (lines : List NSString) : Prop where
  length : lines.length = (res.getLast?.map fun r => r.number - loadedCount).getD 0
  line : ∀ r ∈ res, ∃ line, lines[r.number - loadedCount - 1]? = some line ∧ r.Line line
  missing : ∀ k < lines.length, (∀ r ∈ res, r.number ≠ loadedCount + 1 + k) →
    lines[k]? = some placeholderLine

theorem isDat_fill (hincreasing : Numbering.Increasing last (numbered res))
    (hspace : ∀ r ∈ res, r.HasSpace) :
    IsDat last res (Numbering.fill placeholderLine last (numbered res)) := by
  refine ⟨?_, ?_, ?_⟩
  · rw [Numbering.length_fill hincreasing, numbered, List.getLast?_map, Option.map_map]
    rfl
  · intro r hr
    obtain ⟨-, -, -, hline, -⟩ := r.exists_fields (hspace r hr)
    exact ⟨r.datLine, Numbering.getElem?_fill_of_mem hincreasing (List.mem_map_of_mem hr), hline⟩
  · intro k hk hmissing
    apply Numbering.getElem?_fill_missing hincreasing hk
    exact List.forall_mem_map.mpr hmissing

theorem newline_not_mem_fill (hspace : ∀ r ∈ res, r.HasSpace) (last : Nat) :
    ∀ line ∈ Numbering.fill placeholderLine last (numbered res), uc '\n' ∉ line := by
  induction res generalizing last with
  | nil => simp [numbered, Numbering.fill]
  | cons r res ih =>
    obtain ⟨hr, hres⟩ := List.forall_mem_cons.mp hspace
    obtain ⟨-, -, -, -, hclean⟩ := r.exists_fields hr
    have hfill : ∀ line ∈ List.replicate (r.number - (last + 1)) placeholderLine,
      uc '\n' ∉ line := by
      intro line hline
      rw [(List.mem_replicate.mp hline).2]
      decide
    rw [numbered, List.map_cons, Numbering.fill, List.forall_mem_append, List.forall_mem_cons]
    exact ⟨hfill, hclean, ih hres r.number⟩

theorem stops_of_ended (hended : ∀ r' ∈ (r :: res).getLast?, r'.rest ≠ []) :
    Stops (r.rest ++ res.flatMap Res.events) := by
  cases hrest : r.rest with
  | cons e rest => exact ⟨e, _, rfl, r.rest_stops e (by rw [hrest]; rfl)⟩
  | nil =>
    cases res with
    | nil => exact absurd hrest (hended r rfl)
    | cons r' res => exact ⟨r'.dt, _, rfl, isMessageStopTag_dt r'.isTag_dt⟩

theorem ended_tail (hended : ∀ r' ∈ (r :: res).getLast?, r'.rest ≠ []) :
    ∀ r' ∈ res.getLast?, Res.rest r' ≠ [] := by
  intro r' hr'
  apply hended r'
  rw [List.getLast?_cons, hr']
  rfl

/-- Every message of the list adds its line and those that are missing in front of it. -/
theorem scanBody_list (hincreasing : Numbering.Increasing last (numbered res))
    (hlarge : ∀ r ∈ res, r.number < 2 ^ 31 - 1) (hspace : ∀ r ∈ res, r.HasSpace)
    (hended : ∀ r ∈ res.getLast?, r.rest ≠ []) (thread : NSString) :
    scanBody machibbs thread (UInt32.ofNat last) (res.flatMap Res.events) =
      .ok (thread ++ textOfLines (Numbering.fill placeholderLine last (numbered res))) := by
  induction res generalizing last thread with
  | nil =>
    rw [List.flatMap_nil, scanBody]
    exact congrArg Except.ok (List.append_nil thread).symm
  | cons r res ih =>
    obtain ⟨hnumber, hlater⟩ := List.forall_mem_cons.mp hlarge
    obtain ⟨hr, hres⟩ := List.forall_mem_cons.mp hspace
    obtain ⟨fields, hfields, hwritten, -, -⟩ := r.exists_fields hr
    have hindex : r.index = UInt32.ofNat r.number :=
      indexWithFieldsString_eq r.numberOf_fields hnumber
    have hfill : Numbering.fill placeholderLine last (numbered (r :: res)) =
        List.replicate (r.number - (last + 1)) placeholderLine ++
          r.datLine :: Numbering.fill placeholderLine r.number (numbered res) := rfl
    rw [List.flatMap_cons, scanBody_ok r (stops_of_ended hended) hfields, hindex,
      invisibleLines_eq hincreasing.head_lt hnumber, hwritten,
      ih hincreasing.tail hlater hres (ended_tail hended), hfill, textOfLines_append,
      textOfLines_cons]
    simp only [List.append_assoc]
    rfl

theorem scanBody_raises {res : List Res} (hshort : ∃ r ∈ res, ¬ r.HasSpace)
    (hended : ∀ r ∈ res.getLast?, r.rest ≠ [])
    (thread : NSString) (index : UInt32) :
    scanBody machibbs thread index (res.flatMap Res.events) = .error .range := by
  induction res generalizing thread index with
  | nil =>
    obtain ⟨r, hr, -⟩ := hshort
    exact absurd hr List.not_mem_nil
  | cons r res ih =>
    rw [List.flatMap_cons]
    by_cases hr : r.HasSpace
    · obtain ⟨fields, hfields, -⟩ := r.exists_fields hr
      rw [scanBody_ok r (stops_of_ended hended) hfields]
      obtain ⟨r', hr', hnot⟩ := hshort
      obtain rfl | hr' := List.mem_cons.mp hr'
      · exact absurd hr hnot
      · exact ih ⟨r', hr', hnot⟩ (ended_tail hended) _ _
    · simp only [Res.HasSpace, not_forall, Nat.not_le] at hr
      obtain ⟨before, name, date, hmarked, hname⟩ := hr
      exact scanBody_error r (datFields_short hmarked hname _) thread index _

-- Pages

def isBesideTitle (e : Event) : Bool := !isTag e "head" .END_TAG && !isTag e "title" .START_TAG

inductive IsHead : List Event → Option NSString → Prop
  | untitled {events : List Event} (h : ∀ e ∈ events, isBesideTitle e = true) : IsHead events none
  | titled {before after : List Event} {tag text : Event}
      (hbefore : ∀ e ∈ before, isBesideTitle e = true)
    (htag : isTag tag "title" .START_TAG = true) (htext : text.type = .TEXT)
    (hafter : ∀ e ∈ after, isBesideTitle e = true) : IsHead (before ++ tag :: text :: after)
    (some text.text)

/-- The events behind the `html` tag: heads, the last of which has the title, and the body
with the list of the messages. -/
inductive IsDocument : Option NSString → List Event → Option NSString → List Res → Prop
  | other {e : Event} (hhead : isTag e "head" .START_TAG = false)
      (hbody : isTag e "body" .START_TAG = false)
    (h : IsDocument title events title' res) : IsDocument title (e :: events) title' res
  | head {start stop : Event} (hstart : isTag start "head" .START_TAG = true)
      (hhead : IsHead inside title₁)
    (hstop : isTag stop "head" .END_TAG = true) (h : IsDocument title₁ events title' res) :
    IsDocument title (start :: (inside ++ stop :: events)) title' res
  | body {start : Event} {before : List Event} {res : List Res}
      (hstart : isTag start "body" .START_TAG = true)
    (hbefore : ∀ e ∈ before, beginsPart e = false) (hended : ∀ r ∈ res.getLast?, r.rest ≠ []) :
    IsDocument title (start :: (before ++ res.flatMap Res.events)) title res

inductive IsPage : List Event → Option NSString → List Res → Prop
  | other (hname : isNamed e (ns "html") = false) (h : IsPage events title res) :
      IsPage (e :: events) title res
  | html (hname : isNamed e (ns "html") = true) (h : IsDocument none events title res) :
    IsPage (e :: events) title res

theorem scanHead_beside (h : ∀ e ∈ before, isBesideTitle e = true) (title : Option NSString)
    (events : List Event) :
    scanHead title (before ++ events) = scanHead title events := by
  induction before with
  | nil => rfl
  | cons e before ih =>
    obtain ⟨he, hbefore⟩ := List.forall_mem_cons.mp h
    rw [isBesideTitle, Bool.and_eq_true, Bool.not_eq_true', Bool.not_eq_true'] at he
    rw [List.cons_append, scanHead, if_neg (by simp [he.1]), if_neg (by simp [he.2]), ih hbefore]

theorem scanHead_end (h : isTag e "head" .END_TAG = true) (title : Option NSString)
    (events : List Event) :
    scanHead title (e :: events) = (title, events) := by
  rw [scanHead, if_pos h]

theorem scanHead_isHead (h : IsHead inside title) (hstop : isTag e "head" .END_TAG = true)
    (events : List Event) :
    scanHead none (inside ++ e :: events) = (title, events) := by
  cases h with
  | untitled h => rw [scanHead_beside h, scanHead_end hstop]
  | @titled before after tag text hbefore htag htext hafter =>
    have hother : isTag tag "head" .END_TAG = false := isTag_unique htag (by decide)
    rw [List.append_assoc, scanHead_beside hbefore, List.cons_append, List.cons_append, scanHead,
      if_neg (by simp [hother]), if_pos htag, nextText, if_pos htext]
    rw [scanHead_beside hafter, scanHead_end hstop]

theorem scanPage_document (h : IsDocument title events title' res) (thread : NSString)
    (loadedCount : UInt32) :
    scanPage machibbs thread loadedCount title events =
      (scanBody machibbs thread loadedCount (res.flatMap Res.events)).map fun thread =>
        (thread, title') := by
  induction h with
  | other hhead hbody _ ih => rw [scanPage, if_neg (by simp [hhead]), if_neg (by simp [hbody]), ih]
  | head hstart hhead hstop _ ih => rw [scanPage, if_pos hstart, scanHead_isHead hhead hstop, ih]
  | body hstart hbefore _ =>
    rw [scanPage, if_neg (by simp [isTag_unique hstart (show ns "body" ≠ ns "head" by decide)]),
      if_pos hstart,
      scanBody_skip hbefore]

theorem IsDocument.ended (h : IsDocument title events title' res) :
    ∀ r ∈ res.getLast?, r.rest ≠ [] := by
  induction h with
  | other _ _ _ ih => exact ih
  | head _ _ _ _ ih => exact ih
  | body _ _ hended => exact hended

theorem IsPage.document (h : IsPage events title res) :
    IsDocument none (nextName (ns "html") events) title res := by
  induction h with
  | other hname _ ih => rwa [nextName, if_neg (by simp [hname])]
  | html hname h => rwa [nextName, if_pos hname]

def withTitle (title : Option NSString) (lines : List NSString) : List NSString :=
  lines.modifyHead (· ++ title.getD [])

theorem withTitle_none (lines : List NSString) : withTitle none lines = lines := by
  cases lines with
  | nil => rfl
  | cons line lines => rw [withTitle, List.modifyHead_cons, Option.getD_none, List.append_nil]

theorem insertTitle_withTitle (h : ∀ line ∈ lines, uc '\n' ∉ line) (title : NSString) :
    insertTitle title (textOfLines lines) = textOfLines (withTitle (some title) lines) := by
  cases lines with
  | nil => rfl
  | cons line lines => exact insertTitle_textOfLines (h line List.mem_cons_self) title lines

def bracketRes : Res where
  number := 2
  dt := { type := .START_TAG, name := ns "dt" }
  fields := [{ type := .TEXT, text := ns "2 名前：n  投稿日：09/01/02 03:04 [h]" }]
  dd := { type := .START_TAG, name := ns "dd" }
  body := [{ type := .TEXT, text := ns "b" }, { type := .END_TAG, name := ns "dl" },
    { type := .START_TAG, name := ns "br" }]
  rest := [{ type := .START_TAG, name := ns "hr" }, { type := .END_TAG, name := ns "body" },
    { type := .END_TAG, name := ns "html" }]
  isTag_dt := by decide
  isTag_dd := by decide
  numberOf_fields := by decide +kernel
  fields_dd := by decide
  body_allowed := by decide
  rest_stops := by decide
  rest_parts := by decide

def bracketPage : NSString := ns "<html><body><dl><dt>2 名前：n  投稿日：09/01/02 03:04 [h]<dd>b</dl>"

def bracketEvents : List Event :=
  { type := .START_TAG, name := ns "html" } :: { type := .START_TAG, name := ns "body" } ::
    ([{ type := .START_TAG, name := ns "dl" }] ++ [bracketRes].flatMap Res.events)

theorem isPage_bracketEvents : IsPage bracketEvents none [bracketRes] :=
  .html (by decide) (.body (by decide) (by decide) (by simp [bracketRes]))

theorem closePage_bracketPage :
    closePage bracketPage =
      ns "<html><body><dl><dt>2 名前：n  投稿日：09/01/02 03:04 [h]<dd>b</dl><br><hr></body></html>" := by
  decide +kernel

theorem pageOf_bracketPage :
    pageOf asciiEnvironment htmlFeatures (closePage bracketPage) = some ⟨bracketEvents, none⟩ := by
  rw [closePage_bracketPage]
  decide +kernel

theorem marked_bracketRes : Marked bracketRes.fieldsText (ns "2 ") (ns "n  ")
    (ns "09/01/02 03:04 [h]") := by
  refine ⟨by decide, ?_, ?_⟩
  · unfold Occurrence.IsFirst
    decide +kernel
  · unfold Occurrence.IsFirst
    decide +kernel

theorem hasSpace_bracketRes : bracketRes.HasSpace := by
  intro before name date h
  obtain ⟨rfl, -⟩ := h.unique marked_bracketRes
  decide

end BathyScaphe.Host.CMRHostHTMLHandler
