import BathyScaphe.Foundation.StringComponents
import BathyScaphe.Message.ThreadMessage

/-!
# Parsing one line of a DAT

`CMXTextParser` reads a line of a DAT into a message. A line has at least four
fields, separated by `<>` or, in the older format, by commas; the third holds
the date and the extra field with the host, the Be profile and the ID. What is
not in that form becomes an invalid message with the text of the line.

The regular expression engine, the date formatter and the table of localized
texts are not part of the sources; they are the parameters of the parser.
-/

namespace BathyScaphe.Dat

open NSString

structure OGRegularExpressionMatch where
  rangeOfMatchedString : NSRange
  rangeOfSubstringAtIndex : Nat → Option NSRange

structure TextServices where
  /-- `matchInString:` of the expression with a pattern: the first match. -/
  matchInString : (pattern s : NSString) → Option OGRegularExpressionMatch
  localizedString : NSString → NSString
  /-- `CFDateFormatterCreateDateFromString` with a format. -/
  dateFromString : (format s : NSString) → Option Int
  /-- The table of the entities, and the characters that are given by number. -/
  stringForEntityReference : NSString → Option NSString

def substringAtIndex (mt : OGRegularExpressionMatch) (s : NSString) (i : Nat) : Option NSString :=
  (mt.rangeOfSubstringAtIndex i).map s.substringWithRange

def formatted (s : Option NSString) : NSString := s.getD (ns "(null)")

def k2chDATNameIndex : Nat := 0
def k2chDATMailIndex : Nat := 1
def k2chDATDateExtraFieldIndex : Nat := 2
def k2chDATMessageIndex : Nat := 3
def k2chDATTitleIndex : Nat := 4

-- Fields

def stringWillConvertToComma : NSString := [uc '@', 0xff40]

def separetedLineByConvertingComma (line : NSString) : List NSString :=
  let separated := line.componentsSeparatedByString (ns ",")
  if separated.length < 2 then []
  else separated.map fun s => s.stringByReplaceCharacters stringWillConvertToComma (ns ",")

def separatedLine (line : NSString) : Option (List NSString) :=
  let components := line.componentsSeparatedByString (ns "<>")
  if components.length = 1 then
    let commaComponents := separetedLineByConvertingComma line
    if commaComponents.length = 0 then none else some commaComponents
  else some components

-- The date and the extra field

section
variable (env : TextServices)

/-- The parts of the field, and the message with the text of its date. A prefix
of the date such as the name of an era is cut off before the search. -/
def divideField (field : NSString) (m : CMRThreadMessage) :
    Option NSString × Option NSString × CMRThreadMessage :=
  let prefixMatch := env.matchInString (ns "^(.*),\\d\x7b2,4\x7d") field
  let tmpPrefix := prefixMatch.bind fun mt => substringAtIndex mt field 1
  let field :=
    match prefixMatch.bind fun mt => mt.rangeOfSubstringAtIndex 1 with
    | some cutRange => field.drop (cutRange.max + 1)
    | none => field
  let pattern :=
    ns ("^(.*\\d\x7b2\x7d:\\d\x7b2\x7d)(\\.\\d\x7b2\x7d)? ?" ++
      "( <a href=\"http://2ch.se/\">.*</a>)? ?(.*)")
  match env.matchInString pattern field with
  | some mt =>
    let tmpDate := substringAtIndex mt field 1
    let tmpMilliSec := substringAtIndex mt field 2
    let tmpStock := substringAtIndex mt field 3
    let tmpExtra := substringAtIndex mt field 4
    let dateRep :=
      match tmpStock, tmpMilliSec with
      | some stock, some milliSec => some (formatted tmpDate ++ milliSec ++ ns " " ++ stock)
      | some stock, none => some (formatted tmpDate ++ ns " " ++ stock)
      | none, some milliSec => some (formatted tmpDate ++ milliSec)
      | none, none => tmpDate
    let dateRep :=
      match tmpPrefix with
      | none => dateRep
      | some tmpPrefix => some (tmpPrefix ++ ns "," ++ formatted dateRep)
    (tmpDate, tmpExtra, { m with dateRepresentation := dateRep })
  | none =>
    -- a message that the server removed: there is no date to set
    (none, (field.componentsSeparatedByString (ns " "))[1]?, m)

def dateWith2chDateString (s : Option NSString) (milliSecString : Option NSString) :
    Option MessageDate :=
  match s with
  | none => none
  | some [] => some (.string [])
  | some s =>
    let dateString :=
      match env.matchInString (ns "\\(.*\\)") s with
      | some mt => s.deleteCharactersInRange mt.rangeOfMatchedString
      | none => s
    let date :=
      match milliSecString with
      | some milliSec =>
        env.dateFromString (ns "yyyy/MM/dd HH:mm:ss.SSS") (dateString ++ milliSec ++ ns "0")
      | none =>
        (env.dateFromString (ns "yy/MM/dd HH:mm:ss") dateString).or
          (env.dateFromString (ns "yy/MM/dd HH:mm") dateString)
    some ((date.map .date).getD (.string s))

def clientCodeSet : List NSString :=
  [ns "0", ns "O", ns "P", ns "o", ns "Q", ns "i", ns "I"]

def parseID (extraField : NSString) (m : CMRThreadMessage) : CMRThreadMessage :=
  match env.matchInString (ns "ID:\\s?(\\S*)\\s?") extraField with
  | some mt => { m with IDString := substringAtIndex mt extraField 1 }
  | none => m

/-- The Be profile or the benefit for stock holders, never both, and the ID. -/
def parseBeProfile (extraField : NSString) (m : CMRThreadMessage) : CMRThreadMessage :=
  let kabunushiKey := env.localizedString (ns "kabunushi yutai")
  -- searching for an empty text finds nothing
  if kabunushiKey ≠ [] ∧ extraField.containsString kabunushiKey then
    parseID env extraField { m with beProfile := some [kabunushiKey] }
  else
    match env.matchInString (ns "BE:\\s?(.*)\\s?") extraField with
    | some mt =>
      let m := { m with
        beProfile := (substringAtIndex mt extraField 1).map
          (componentsSeparatedByString · (ns "-")) }
      if mt.rangeOfMatchedString.location = 0 then m else parseID env extraField m
    | none => parseID env extraField m

def parseExtraField (extraField : Option NSString) (m : CMRThreadMessage) : CMRThreadMessage :=
  match extraField with
  | none => m
  | some extraField =>
    if extraField.length < 1 then m
    else if extraField.length = 1 ∧ extraField ∈ clientCodeSet then
      { m with host := some extraField }
    else
      let pattern := ns "(HOST:|" ++ env.localizedString (ns "siberia IP field") ++ ns ":)\\s?(.*)"
      match env.matchInString pattern extraField with
      | some mt =>
        let m := { m with host := substringAtIndex mt extraField 2 }
        let location := mt.rangeOfMatchedString.location
        if location = 0 then m
        else parseBeProfile env (extraField.take (location - 1)) m
      | none => parseBeProfile env extraField m

def parseDateExtraField (dateExtra : NSString) (m : CMRThreadMessage) : Option CMRThreadMessage :=
  if dateExtra.length = 0 then some m
  else
    let (datePart, extraPart, m) := divideField env dateExtra m
    match datePart with
    | none => some (parseExtraField env extraPart m)
    | some datePart =>
      match dateWith2chDateString env (some datePart) none with
      | none => none
      | some date => some (parseExtraField env extraPart (m.setDate (some date)))

-- Messages

def messageWithDATLineComponentsSeparatedByNewline (components : Option (List NSString)) :
    Option CMRThreadMessage :=
  match components with
  | none => none
  | some components =>
    if components.length ≤ k2chDATMessageIndex then none
    else
      match parseDateExtraField env (components.getD k2chDATDateExtraFieldIndex []) {} with
      | none => none
      | some m => some { m with
          name := components[k2chDATNameIndex]?
          mail := components[k2chDATMailIndex]?
          messageSource := components[k2chDATMessageIndex]? }

def messageWithDATLine (line : NSString) : Option CMRThreadMessage :=
  messageWithDATLineComponentsSeparatedByNewline env (separatedLine line)

end

def messageWithInvalidDATLineDetected (line : NSString) : Option CMRThreadMessage :=
  match separatedLine line with
  | none => none
  | some components =>
    let contents := stringByStriped (componentsJoinedByString components (ns "\n"))
    if contents = [] then none
    else
      let m : CMRThreadMessage :=
        { name := some [], mail := some [], IDString := some [], messageSource := some contents }
      some (m.setFlag INVALID_FLAG true)

-- Which lines give a message

def fieldsOfLine (line : NSString) : List NSString :=
  if line.containsString (ns "<>") then line.componentsSeparatedByString (ns "<>")
  else line.componentsSeparatedByString (ns ",")

/-- A line has a separator, and either the four fields of a message or some text
beside its separators. -/
def HasMessage (line : NSString) : Prop :=
  2 ≤ (fieldsOfLine line).length ∧
    (4 ≤ (fieldsOfLine line).length ∨ ∃ field ∈ fieldsOfLine line, ¬ IsBlank field)

instance (line : NSString) : Decidable (HasMessage line) := by
  unfold HasMessage
  infer_instance

theorem separatedLine_of_separator (h : line.containsString (ns "<>") = true) :
    2 ≤ (fieldsOfLine line).length ∧ separatedLine line = some (fieldsOfLine line) := by
  have hfields : fieldsOfLine line = line.componentsSeparatedByString (ns "<>") := by
    rw [fieldsOfLine, if_pos h]
  have htwo : 2 ≤ (line.componentsSeparatedByString (ns "<>")).length :=
    Split.two_le_length_pieces (by decide) (of_decide_eq_true h)
  refine ⟨hfields ▸ htwo, ?_⟩
  simp only [separatedLine, hfields]
  rw [if_neg (by omega)]

theorem separatedLine_of_comma (h : line.containsString (ns "<>") = false) :
    separatedLine line =
      if (fieldsOfLine line).length < 2 then none
      else some ((fieldsOfLine line).map fun s =>
        s.stringByReplaceCharacters stringWillConvertToComma (ns ",")) := by
  have hfields : fieldsOfLine line = line.componentsSeparatedByString (ns ",") := by
    rw [fieldsOfLine, if_neg (by simp [h])]
  have hone : (line.componentsSeparatedByString (ns "<>")).length = 1 :=
    (Split.length_pieces_eq_one_iff (by decide)).mpr (of_decide_eq_false h)
  simp only [separatedLine, separetedLineByConvertingComma, hone, if_true, ← hfields]
  split
  · rfl
  · rename_i hlen
    rw [if_neg (by rw [List.length_map]; omega)]

/-- The comma that is written in place of its code leaves a field as blank or as
full as it was. -/
theorem separatedLine_cases (line : NSString) :
    ((fieldsOfLine line).length < 2 ∧ separatedLine line = none) ∨
    2 ≤ (fieldsOfLine line).length ∧ ∃ components, separatedLine line = some components ∧
      components.length = (fieldsOfLine line).length ∧
      ((∀ f ∈ components, IsBlank f) ↔ ∀ f ∈ fieldsOfLine line, IsBlank f) := by
  cases h : line.containsString (ns "<>") with
  | true =>
    obtain ⟨htwo, hsep⟩ := separatedLine_of_separator h
    exact .inr ⟨htwo, _, hsep, rfl, Iff.rfl⟩
  | false =>
    have hsep := separatedLine_of_comma h
    by_cases htwo : (fieldsOfLine line).length < 2
    · exact .inl ⟨htwo, by rw [hsep, if_pos htwo]⟩
    · refine .inr ⟨by omega, _, by rw [hsep, if_neg htwo], List.length_map _, ?_⟩
      have hcode : ¬ IsBlank stringWillConvertToComma := by decide
      have hcomma : ¬ IsBlank (ns ",") := by decide
      simp only [List.forall_mem_map, isBlank_stringByReplaceCharacters hcode hcomma]

theorem parseDateExtraField_isSome (env : TextServices) (dateExtra : NSString)
    (m : CMRThreadMessage) : (parseDateExtraField env dateExtra m).isSome := by
  simp only [parseDateExtraField]
  split
  · rfl
  · cases hdate : (divideField env dateExtra m).1 with
    | none => rfl
    | some datePart =>
      have hdate : (dateWith2chDateString env (some datePart) none).isSome := by
        cases datePart <;> rfl
      obtain ⟨date, hdate⟩ := Option.isSome_iff_exists.mp hdate
      simp only [hdate, Option.isSome_some]

theorem parseID_sets (env : TextServices) (extraField : NSString) (m : CMRThreadMessage) :
    ∃ IDString, parseID env extraField m = { m with IDString := IDString } := by
  rw [parseID]
  split
  · exact ⟨_, rfl⟩
  · exact ⟨m.IDString, rfl⟩

theorem parseBeProfile_sets (env : TextServices) (extraField : NSString) (m : CMRThreadMessage) :
    ∃ beProfile IDString, parseBeProfile env extraField m =
      { m with beProfile := beProfile, IDString := IDString } := by
  simp only [parseBeProfile]
  split
  · obtain ⟨IDString, hid⟩ := parseID_sets env extraField
      { m with beProfile := some [env.localizedString (ns "kabunushi yutai")] }
    exact ⟨_, IDString, hid⟩
  · split
    · split
      · exact ⟨_, m.IDString, rfl⟩
      · obtain ⟨IDString, hid⟩ := parseID_sets env extraField _
        exact ⟨_, IDString, hid⟩
    · obtain ⟨IDString, hid⟩ := parseID_sets env extraField m
      exact ⟨m.beProfile, IDString, hid⟩

/-- The extra field sets the host, the Be profile and the ID, and nothing else. -/
theorem parseExtraField_sets (env : TextServices) (extraField : Option NSString)
    (m : CMRThreadMessage) :
    ∃ host beProfile IDString, parseExtraField env extraField m =
      { m with host := host, beProfile := beProfile, IDString := IDString } := by
  cases extraField with
  | none => exact ⟨m.host, m.beProfile, m.IDString, rfl⟩
  | some extraField =>
    simp only [parseExtraField]
    split
    · exact ⟨m.host, m.beProfile, m.IDString, rfl⟩
    · split
      · exact ⟨_, m.beProfile, m.IDString, rfl⟩
      · split
        · split
          · exact ⟨_, m.beProfile, m.IDString, rfl⟩
          · obtain ⟨beProfile, IDString, hbe⟩ := parseBeProfile_sets env _ _
            exact ⟨_, beProfile, IDString, hbe⟩
        · obtain ⟨beProfile, IDString, hbe⟩ := parseBeProfile_sets env extraField m
          exact ⟨m.host, beProfile, IDString, hbe⟩

theorem messageWithDATLine_isSome_iff (env : TextServices) (line : NSString) :
    (messageWithDATLine env line).isSome ↔ 4 ≤ (fieldsOfLine line).length := by
  rw [messageWithDATLine]
  obtain ⟨hlt, hsep⟩ | ⟨-, components, hsep, hlen, -⟩ := separatedLine_cases line
  · simp only [hsep, messageWithDATLineComponentsSeparatedByNewline, Option.isSome_none]
    constructor
    · intro h
      cases h
    · intro h
      omega
  · simp only [hsep, messageWithDATLineComponentsSeparatedByNewline, ← hlen]
    have hindex : k2chDATMessageIndex = 3 := rfl
    by_cases hle : components.length ≤ k2chDATMessageIndex
    · rw [if_pos hle]
      simp only [Option.isSome_none, Bool.false_eq_true, false_iff]
      omega
    · rw [if_neg hle]
      obtain ⟨m, hm⟩ := Option.isSome_iff_exists.mp (parseDateExtraField_isSome env
        (components.getD k2chDATDateExtraFieldIndex []) {})
      simp only [hm, Option.isSome_some, true_iff]
      omega

theorem messageWithInvalidDATLineDetected_isSome_iff (line : NSString) :
    (messageWithInvalidDATLineDetected line).isSome ↔
      2 ≤ (fieldsOfLine line).length ∧ ∃ field ∈ fieldsOfLine line, ¬ IsBlank field := by
  rw [messageWithInvalidDATLineDetected]
  obtain ⟨hlt, hsep⟩ | ⟨htwo, components, hsep, -, hblank⟩ := separatedLine_cases line
  · simp only [hsep, Option.isSome_none, Bool.false_eq_true, false_iff]
    rintro ⟨htwo, -⟩
    omega
  · have hglue : IsBlank (ns "\n") := by decide
    have hexists : (∃ field ∈ fieldsOfLine line, ¬ IsBlank field) ↔
        ¬ stringByStriped (componentsJoinedByString components (ns "\n")) = [] := by
      rw [stringByStriped_eq_nil_iff, isBlank_componentsJoinedByString hglue, hblank]
      simp only [not_forall, exists_prop]
    simp only [hsep, hexists]
    split
    · rename_i hnil
      simp [hnil]
    · rename_i hnil
      simp [hnil, htwo]

end BathyScaphe.Dat
