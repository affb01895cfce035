import BathyScaphe.Dat.Downloader
import BathyScaphe.Message.Coding

/-!
# Reading a log

`CMRThreadDictReader` reads the dictionary that `CMRThreadPlistComposer` writes.
An entry has no index: the place of the entry is the index. The attributes are
read last, so the flag that the date setter writes does not stay.

The flag is what the parser of the DAT left it to be, and the parser only calls
the date setter with a date. A message without a date is therefore not marked as
removed, neither when it is parsed nor when it is read from a log.
-/

namespace BathyScaphe.Dat

open NSString CMRThreadMessage ThreadTextDownloader

-- The log

/-- The message after `concludeComposing:`: in a thread of ASCII art the composer
marks the message itself before it writes the attributes. -/
def concludeComposing (isAAThread : Bool) (m : CMRThreadMessage) : CMRThreadMessage :=
  if isAAThread then m.setFlag ASCII_ART_FLAG true else m

def composeThread (isAAThread : Bool) (messages : List CMRThreadMessage) (thread : PropertyList) :
    PropertyList :=
  thread.setNoneNil (some (.array (messages.map (plistEntry isAAThread)))) "Contents"

structure CMRThreadDictReader where
  messageDictArray : List PropertyList
  nextMessageIndex : Nat

namespace CMRThreadDictReader

def initWithFileContents (thread : PropertyList) : CMRThreadDictReader where
  messageDictArray := storedMessages thread
  nextMessageIndex := 0

/-- The setters in the order of the reader. Only strings are ever stored under
the keys of the texts. -/
def messageOfDict (idx : Nat) (dict : PropertyList) : CMRThreadMessage :=
  let m : CMRThreadMessage := {
    index := UInt32.ofNat idx
    name := dict.stringForKey "Name"
    mail := dict.stringForKey "Mail" }
  let m := m.setDate ((dict.objectForKey "Date").bind dateOfObject)
  { m with
    IDString := dict.stringForKey "ID"
    beProfile := (dict.objectForKey "BeProfileLink").bind stringsOfObject
    host := dict.stringForKey "Host"
    messageSource := dict.stringForKey "Message"
    dateRepresentation := dict.stringForKey "DateRepresentation"
    flags := (attributesWithRepresentation (dict.objectForKey "Status")).getD 0 }

/-- `none` is the answer `NO` behind the last entry. -/
def composeNextMessageWithComposer (reader : CMRThreadDictReader) :
    Option (CMRThreadMessage × CMRThreadDictReader) :=
  match reader.messageDictArray[reader.nextMessageIndex]? with
  | none => none
  | some dict => some (messageOfDict reader.nextMessageIndex dict,
      { reader with nextMessageIndex := reader.nextMessageIndex + 1 })

theorem composeNextMessageWithComposer_lt {reader reader' : CMRThreadDictReader}
    (h : reader.composeNextMessageWithComposer = some (m, reader')) :
    reader'.messageDictArray.length - reader'.nextMessageIndex <
      reader.messageDictArray.length - reader.nextMessageIndex := by
  cases hdict : reader.messageDictArray[reader.nextMessageIndex]? with
  | none => simp [composeNextMessageWithComposer, hdict] at h
  | some dict =>
    have hlt := (List.getElem?_eq_some_iff.mp hdict).1
    simp only [composeNextMessageWithComposer, hdict, Option.some.injEq, Prod.mk.injEq] at h
    obtain ⟨-, rfl⟩ := h
    simp only
    omega

/-- The messages the composer is given until the reader answers `NO`. -/
def composeWithComposer (reader : CMRThreadDictReader) : List CMRThreadMessage :=
  match _h : reader.composeNextMessageWithComposer with
  | none => []
  | some (m, reader') => m :: composeWithComposer reader'
termination_by reader.messageDictArray.length - reader.nextMessageIndex
decreasing_by exact composeNextMessageWithComposer_lt _h

theorem composeWithComposer_eq (entries : List PropertyList) (n : Nat) :
    composeWithComposer ⟨entries, n⟩ =
      (entries.drop n).mapIdx fun i dict => messageOfDict (n + i) dict := by
  generalize hrest : entries.drop n = rest
  induction rest generalizing n with
  | nil =>
    have hnone : entries[n]? = none := by
      rw [← List.head?_drop, hrest, List.head?_nil]
    rw [composeWithComposer]
    split
    · rfl
    · rename_i h
      simp [composeNextMessageWithComposer, hnone] at h
  | cons dict rest ih =>
    have hsome : entries[n]? = some dict := by
      rw [← List.head?_drop, hrest, List.head?_cons]
    have hdrop : entries.drop (n + 1) = rest := by
      rw [← List.tail_drop, hrest, List.tail_cons]
    rw [composeWithComposer]
    split
    · rename_i h
      simp [composeNextMessageWithComposer, hsome] at h
    · rename_i m reader' h
      simp only [composeNextMessageWithComposer, hsome, Option.some.injEq, Prod.mk.injEq] at h
      obtain ⟨rfl, rfl⟩ := h
      rw [ih (n + 1) hdrop, List.mapIdx_cons]
      simp only [Nat.add_zero, Nat.add_assoc, Nat.add_comm 1]

/-- What is read from an entry is the message that was written, at the place of
the entry and without its temporary flags. -/
theorem messageOfDict_plistEntry (idx : Nat) (isAAThread : Bool) (m : CMRThreadMessage) :
    messageOfDict idx (plistEntry isAAThread m) =
      { concludeComposing isAAThread m with
        index := UInt32.ofNat idx
        flags := (concludeComposing isAAThread m).status } := by
  have hstring : ∀ s, PropertyList.asString (.string s) = some s := fun _ => rfl
  have hstatus := attributesWithRepresentation_attributes (concludeComposing isAAThread m)
  cases isAAThread <;>
    simp [messageOfDict, plistEntry, setDate, setFlag, PropertyList.stringForKey,
      PropertyList.objectForKey_setNoneNil, PropertyList.map_bind_of_read hstring,
      PropertyList.map_bind_of_read dateOfObject_dateObject,
      PropertyList.map_bind_of_read stringsOfObject_strings, concludeComposing] at hstatus ⊢ <;>
    simp [hstatus]

def readThread (thread : PropertyList) : List CMRThreadMessage :=
  (initWithFileContents thread).composeWithComposer

theorem readThread_composeThread (entries : List (String × PropertyList)) (isAAThread : Bool)
    (messages : List CMRThreadMessage) :
    readThread (composeThread isAAThread messages (.dict entries)) =
      messages.mapIdx fun i m => { concludeComposing isAAThread m with
        index := UInt32.ofNat i
        flags := (concludeComposing isAAThread m).status } := by
  have hstored : storedMessages (composeThread isAAThread messages (.dict entries)) =
      messages.map (plistEntry isAAThread) := by
    simp [storedMessages, composeThread, PropertyList.arrayForKey,
      PropertyList.objectForKey_setNoneNil, PropertyList.asArray]
  rw [readThread, initWithFileContents, hstored, composeWithComposer_eq, List.drop_zero]
  apply List.ext_getElem?
  intro i
  cases hm : messages[i]? <;> simp [hm, messageOfDict_plistEntry]

/-- The log keeps the messages, as the composer left them, with their indexes. -/
theorem readThread_keeps (entries : List (String × PropertyList)) (isAAThread : Bool)
    {messages : List CMRThreadMessage}
    (hindex : ∀ (i : Nat) (m : CMRThreadMessage), messages[i]? = some m → m.index.toNat = i) :
    (readThread (composeThread isAAThread messages (.dict entries))).length = messages.length ∧
      ∀ i m, messages[i]? = some m →
        ∃ m', (readThread (composeThread isAAThread messages (.dict entries)))[i]? = some m' ∧
          CMRThreadMessage.Keeps (concludeComposing isAAThread m) m' ∧ m'.index.toNat = i := by
  rw [readThread_composeThread]
  refine ⟨List.length_mapIdx, fun i m hm => ?_⟩
  have hi : UInt32.ofNat i = m.index := by
    rw [← hindex i m hm, UInt32.ofNat_toNat]
  have hsame : (concludeComposing isAAThread m).index = m.index := by
    cases isAAThread <;> rfl
  refine ⟨_, by rw [List.getElem?_mapIdx, hm, Option.map_some], ?_, ?_⟩
  · refine ⟨?_, rfl, rfl, rfl, rfl, rfl, rfl, rfl, rfl, status_status _⟩
    rw [hsame, hi]
  · rw [hi, hindex i m hm]

/-- A log of two messages, the second removed by the server and hidden. -/
theorem readThread_keeps_two :
    ∃ messages : List CMRThreadMessage,
      messages = [{ name := some (ns "a"), date := some (.date 0) },
        { index := 1, flags := ABONED_FLAG ||| TEMP_INVISIBLE_FLAG }] ∧
      (readThread (composeThread false messages (.dict []))).length = 2 := by
  refine ⟨_, rfl, (readThread_keeps [] false ?_).1⟩
  intro i m hm
  match i with
  | 0 => exact Option.some.inj hm ▸ rfl
  | 1 => exact Option.some.inj hm ▸ rfl
  | i + 2 => cases hm

end CMRThreadDictReader

-- Messages without a date

section
variable (env : TextServices)

def withoutPrefix (field : NSString) : NSString :=
  match (env.matchInString (ns "^(.*),\\d\x7b2,4\x7d") field).bind
    fun mt => mt.rangeOfSubstringAtIndex 1 with
  | some cutRange => field.drop (cutRange.max + 1)
  | none => field

def datePattern : NSString :=
  ns "^(.*\\d\x7b2\x7d:\\d\x7b2\x7d)(\\.\\d\x7b2\x7d)? ?( <a href=\"http://2ch.se/\">.*</a>)? ?(.*)"

def HasDatePart (field : NSString) : Prop :=
  ∃ mt range, env.matchInString datePattern (withoutPrefix env field) = some mt ∧
    mt.rangeOfSubstringAtIndex 1 = some range

/-- The line has the fields of a message, and a date in the third of them. -/
def HasDate (line : NSString) : Prop :=
  ∃ components field, separatedLine line = some components ∧
    k2chDATMessageIndex < components.length ∧
    components[k2chDATDateExtraFieldIndex]? = some field ∧ field ≠ [] ∧ HasDatePart env field

def AbonedMeansNoDate (m : CMRThreadMessage) : Prop := m.isAboned = true ↔ m.date = none

theorem divideField_isSome_iff (field : NSString) (m : CMRThreadMessage) :
    (divideField env field m).1.isSome ↔ HasDatePart env field := by
  simp only [divideField]
  split
  · rename_i mt h
    have hmatch : env.matchInString datePattern (withoutPrefix env field) = some mt := h
    simp [HasDatePart, hmatch, substringAtIndex, Option.isSome_iff_exists]
  · rename_i h
    have hmatch : env.matchInString datePattern (withoutPrefix env field) = none := h
    simp [HasDatePart, hmatch]

theorem divideField_date_flags (field : NSString) (m : CMRThreadMessage) :
    (divideField env field m).2.2.date = m.date ∧
      (divideField env field m).2.2.flags = m.flags := by
  simp only [divideField]
  split <;> exact ⟨rfl, rfl⟩

theorem parseExtraField_date_flags (extraField : Option NSString) (m : CMRThreadMessage) :
    (parseExtraField env extraField m).date = m.date ∧
      (parseExtraField env extraField m).flags = m.flags := by
  obtain ⟨host, beProfile, IDString, hsets⟩ := parseExtraField_sets env extraField m
  rw [hsets]
  exact ⟨rfl, rfl⟩

/-- The parser sets the date and the flag where there is a date, and neither of
them elsewhere. -/
theorem parseDateExtraField_date_flags (hm : parseDateExtraField env field m = some m') :
    (field ≠ [] ∧ HasDatePart env field ∧ ∃ date, m'.date = some date ∧
      m'.flags = (m.setDate (some date)).flags) ∨
    (¬ (field ≠ [] ∧ HasDatePart env field) ∧ m'.date = m.date ∧ m'.flags = m.flags) := by
  have hdivide := divideField_date_flags env field m
  have hpart := divideField_isSome_iff env field m
  simp only [parseDateExtraField, List.length_eq_zero_iff] at hm
  split at hm
  · next hnil =>
    obtain rfl := Option.some.inj hm
    exact .inr ⟨fun h => h.1 hnil, rfl, rfl⟩
  · next hne =>
    generalize divideField env field m = parts at hm hdivide hpart
    obtain ⟨datePart, extraPart, divided⟩ := parts
    cases datePart with
    | none =>
      obtain rfl := Option.some.inj hm
      obtain ⟨hdate, hflags⟩ := parseExtraField_date_flags env extraPart divided
      refine .inr ⟨fun h => ?_, hdate.trans hdivide.1, hflags.trans hdivide.2⟩
      exact absurd (hpart.mpr h.2) (by simp)
    | some datePart =>
      simp only at hm
      split at hm
      · cases hm
      · next date hdate =>
        obtain rfl := Option.some.inj hm
        obtain ⟨hdate, hflags⟩ :=
          parseExtraField_date_flags env extraPart (divided.setDate (some date))
        refine .inl ⟨hne, hpart.mp rfl, date, hdate, hflags.trans ?_⟩
        have hsame : divided.flags = m.flags := hdivide.2
        simp [setDate, setFlag, hsame]

theorem parseDateExtraField_fresh (hm : parseDateExtraField env field {} = some m) :
    (m.date.isSome ↔ field ≠ [] ∧ HasDatePart env field) ∧ m.isAboned = false := by
  rcases parseDateExtraField_date_flags env hm with
    ⟨hne, hpart, date, hdate, hflags⟩ | ⟨hnot, hdate, hflags⟩
  · refine ⟨iff_of_true (by simp [hdate]) ⟨hne, hpart⟩, ?_⟩
    simp [isAboned, flagAt, hflags, setDate, setFlag]
  · refine ⟨iff_of_false (by simp [hdate]) hnot, ?_⟩
    simp [isAboned, flagAt, hflags]

/-- No message of a DAT has the flag, and those with a date are the messages of
the lines with a date. -/
theorem messageOfLine_fresh (hm : CMR2chDATReader.messageOfLine env line = some m) :
    (m.date.isSome ↔ HasDate env line) ∧ m.isAboned = false := by
  rw [CMR2chDATReader.messageOfLine] at hm
  cases hcomponents : separatedLine line with
  | none =>
    simp [messageWithDATLine, messageWithInvalidDATLineDetected, hcomponents,
      messageWithDATLineComponentsSeparatedByNewline] at hm
  | some components =>
    simp only [messageWithDATLine, hcomponents,
      messageWithDATLineComponentsSeparatedByNewline] at hm
    by_cases hlength : components.length ≤ k2chDATMessageIndex
    · have hnot : ¬ HasDate env line := by
        rintro ⟨components', field, hcomponents', hlt, -⟩
        obtain rfl := Option.some.inj (hcomponents.symm.trans hcomponents')
        exact Nat.not_lt.mpr hlength hlt
      simp only [if_pos hlength, messageWithInvalidDATLineDetected, hcomponents] at hm
      split at hm
      · split at hm
        · cases hm
        · obtain rfl := Option.some.inj hm
          exact ⟨iff_of_false (by simp [setFlag]) hnot,
            by simp only [isAboned, flagAt, setFlag]; decide⟩
      · cases hm
    · obtain ⟨field, hfield⟩ : ∃ field, components[k2chDATDateExtraFieldIndex]? = some field :=
        ⟨_, List.getElem?_eq_getElem (Nat.lt_of_lt_of_le (by decide) (Nat.not_le.mp hlength).le)⟩
      have hgetD : components.getD k2chDATDateExtraFieldIndex [] = field := by
        rw [List.getD_eq_getElem?_getD, hfield, Option.getD_some]
      have hiff : HasDate env line ↔ field ≠ [] ∧ HasDatePart env field := by
        constructor
        · rintro ⟨components', field', hcomponents', -, hfield', h⟩
          obtain rfl := Option.some.inj (hcomponents.symm.trans hcomponents')
          obtain rfl := Option.some.inj (hfield.symm.trans hfield')
          exact h
        · exact fun h => ⟨components, field, hcomponents, Nat.not_le.mp hlength, hfield, h⟩
      simp only [if_neg hlength, hgetD] at hm
      cases hparse : parseDateExtraField env field {} with
      | none =>
        have hsome := parseDateExtraField_isSome env field {}
        rw [hparse] at hsome
        cases hsome
      | some parsed =>
        simp only [hparse] at hm
        obtain rfl := Option.some.inj hm
        obtain ⟨hdate, hflag⟩ := parseDateExtraField_fresh env hparse
        exact ⟨hdate.trans hiff.symm, hflag⟩

omit env in
theorem abonedMeansNoDate_of_not_aboned {m : CMRThreadMessage} (h : m.isAboned = false) :
    AbonedMeansNoDate m ↔ m.date.isSome := by
  cases hdate : m.date <;> simp [AbonedMeansNoDate, h, hdate]

omit env in
theorem isAboned_concludeComposing (isAAThread : Bool) (m : CMRThreadMessage) :
    (concludeComposing isAAThread m).isAboned = m.isAboned := by
  cases isAAThread with
  | false => rfl
  | true =>
    simp only [isAboned, flagAt, concludeComposing, setFlag, if_true]
    rw [Flags.or_and_of_disjoint rfl]

/-- A message of a DAT, and what is read back of it from a log, is marked as
removed exactly where it has no date if and only if its line has a date. -/
theorem abonedMeansNoDate_iff (hm : CMR2chDATReader.messageOfLine env line = some m) :
    (AbonedMeansNoDate m ↔ HasDate env line) ∧
      ∀ (entries : List (String × PropertyList)) (isAAThread : Bool)
        (messages : List CMRThreadMessage) (i : Nat) (index : UInt32),
        messages[i]? = some { m with index := index } →
        ∃ m', (CMRThreadDictReader.readThread
            (composeThread isAAThread messages (.dict entries)))[i]? = some m' ∧
          (AbonedMeansNoDate m' ↔ HasDate env line) := by
  obtain ⟨hdate, hflag⟩ := messageOfLine_fresh env hm
  refine ⟨(abonedMeansNoDate_of_not_aboned hflag).trans hdate, ?_⟩
  intro entries isAAThread messages i index hi
  rw [CMRThreadDictReader.readThread_composeThread, List.getElem?_mapIdx, hi, Option.map_some]
  refine ⟨_, rfl, (abonedMeansNoDate_of_not_aboned ?_).trans ?_⟩
  · have hsaved : ({ concludeComposing isAAThread { m with index := index } with
        flags := (concludeComposing isAAThread { m with index := index }).status }).isAboned =
        m.isAboned :=
      (isAboned_eq_of_status (status_status _)).trans (isAboned_concludeComposing _ _)
    exact hsaved.trans hflag
  · cases isAAThread <;> exact hdate

end

/-- The services on the field of `dateLine`: the first pattern finds no prefix,
the second the date alone. -/
def dateServices : TextServices where
  matchInString pattern s :=
    if pattern = datePattern ∧ s = ns "09/01/02 03:04" then
      some ⟨⟨0, 14⟩, fun
        | 0 | 1 => some ⟨0, 14⟩
        | 4 => some ⟨14, 0⟩
        | _ => none⟩
    else none
  localizedString key := key
  dateFromString format _ := if format = ns "yy/MM/dd HH:mm" then some 252558240 else none
  stringForEntityReference _ := none

def dateLine : NSString := ns "a<><>09/01/02 03:04<>b<>"

/-- A line with a date. -/
theorem abonedMeansNoDate_dateLine :
    ∃ m, CMR2chDATReader.messageOfLine dateServices dateLine = some m ∧
      HasDate dateServices dateLine ∧ AbonedMeansNoDate m := by
  have hdate : HasDate dateServices dateLine :=
    ⟨_, _, rfl, by decide, rfl, by decide, _, _, rfl, rfl⟩
  obtain ⟨m, hm⟩ : ∃ m, CMR2chDATReader.messageOfLine dateServices dateLine = some m := ⟨_, rfl⟩
  exact ⟨m, hm, hdate, (abonedMeansNoDate_iff dateServices hm).1.mpr hdate⟩

/-- The line a server leaves of a removed message: neither pattern finds
anything in it, and the message has neither a date nor the flag. -/
theorem not_abonedMeansNoDate :
    ∃ m, CMR2chDATReader.messageOfLine CMR2chDATReader.silentServices
        (ns "あぼーん<>あぼーん<>あぼーん<>あぼーん<>") = some m ∧
      m.date = none ∧ m.isAboned = false ∧ ¬ AbonedMeansNoDate m :=
  ⟨_, rfl, rfl, rfl, fun h => nomatch h.mpr rfl⟩

end BathyScaphe.Dat
