import BathyScaphe.Composer.TagElements
import BathyScaphe.Foundation.RangedReplacement
import BathyScaphe.Host.LivedoorHandler
import BathyScaphe.Xml.Page

/-!
# From a page to a DAT

`CMRHostHTMLHandler` reads the page of a thread event by event. A `dt` begins the fields of
a message and a `dd` its body, which ends with the first tag that a body does not have. The
page is cut off behind the list of the messages, and closed there.

A page whose parsing does not come back is `none`.
-/

namespace BathyScaphe.Host.CMRHostHTMLHandler

open NSString Dat Xml

structure Properties where
  mailto : NSString
  namePrefix : NSString
  datePrefix : NSString
  allowedTag : NSString
  msgSuffixBrTag : Option NSString

/-- The properties of `CMRMachibbsHandler`, whose hosts send pages. -/
def machibbs : Properties where
  mailto := ns "mailto:"
  namePrefix := ns "名前："
  datePrefix := ns "投稿日："
  allowedTag := ns "a<>br<>"
  msgSuffixBrTag := some (ns " <br><br>")

def htmlFeatures : Features where
  allowsEmptyAttribute := true
  ignoreEntityResolvingError := true
  allowsDuplicateAttribute := true
  allowsUnquotedValue := true
  usesLowerCaseName := true
  disableEntityResolving := true
  allowsIllegalComment := true

-- Strings

def caseInsensitive : SearchOptions :=
  { isEqual := fun c d => Composer.tolower c == Composer.tolower d }

/-- `rangeOfString:options:` with `NSBackwardsSearch`: the last occurrence. -/
def rangeOfLastString (s pattern : NSString) : Option NSRange :=
  (NSString.rangeOfString s.reverse pattern.reverse (NSString.rangeFrom s.reverse 0)).map
    fun found => ⟨s.length - found.max, found.length⟩

def insertString (s new : NSString) (index : Nat) : NSString := s.take index ++ new ++ s.drop index

def deleteLineFeeds (s : NSString) : NSString := s.replaceCharacters (ns "\n")
    [] NSLiteralSearch ⟨0, s.length⟩

def stripAtEnd (s : NSString) : NSString := s.rdropWhile Composer.isspace

/-- `strtoul` with an `unsigned long` of 32 bits; `none` where it reads nothing. -/
def strtoul (s : NSString) : Option UInt32 :=
  match s.dropWhile Composer.isspace with
  | [] => none
  | c :: s =>
    let digits := if c = uc '-' ∨ c = uc '+' then s else c :: s
    (scanDigits 10 decimalDigit digits).map fun n =>
      if 2 ^ 32 ≤ n then UInt32.ofNat (2 ^ 32 - 1)
      else if c = uc '-' then -UInt32.ofNat n
      else UInt32.ofNat n

-- Events

def isTag (e : Event) (tagName : String) (theType : EventType) : Bool :=
  e.type == theType && e.name == some (ns tagName)

/-- A start tag with the name, whatever the case of its letters. -/
def isNamed (e : Event) (name : NSString) : Bool :=
  e.type == .START_TAG && e.name.all fun nm => nm.map Composer.tolower == name.map Composer.tolower

/-- `nextName:type:options:` of a start tag: the events behind it. -/
def nextName (name : NSString) : List Event → List Event
  | [] => []
  | e :: events => if isNamed e name then events else nextName name events

def nextText : List Event → Option NSString × List Event
  | [] => (none, [])
  | e :: events => if e.type = .TEXT then (some e.text, events) else nextText events

theorem length_nextText (events : List Event) : (nextText events).2.length ≤ events.length := by
  induction events with
  | nil => exact Nat.le_refl _
  | cons e events ih =>
    rw [nextText]
    split
    · exact Nat.le_succ _
    · exact Nat.le_succ_of_le ih

def scanHead (title : Option NSString) : List Event → Option NSString × List Event
  | [] => (none, [])
  | e :: events =>
    if isTag e "head" .END_TAG then (title, events)
    else if isTag e "title" .START_TAG then scanHead (nextText events).1 (nextText events).2
    else scanHead title events
termination_by events => events.length
decreasing_by
  · exact Nat.lt_succ_of_le (length_nextText events)
  · exact Nat.lt_succ_self _

section
variable (p : Properties)

-- The fields of a message

def readMail (e : Event) : Option NSString :=
  match e.attributes.lookup (ns "href") with
  | none => none
  | some v => if p.mailto.length < v.length ∧ p.mailto <+: v then some (v.drop p.mailto.length)
      else none

def indexWithFieldsString (aString : NSString) : UInt32 :=
  if (UTF8String aString).isSome then (strtoul aString).getD NSNotFound else NSNotFound

/-- A range in front of the string raises. -/
def deleteExtraSpaceAtEndOfNameIfNeeded (str : NSString) (startPoint : Nat) :
    Except XmlException NSString :=
  if startPoint < 2 then .error .range else .ok (str.deleteCharactersInRange ⟨startPoint - 2, 2⟩)

def formatHostField (str : NSString) : NSString :=
  match str.getLast? with
  | none => str
  | some c =>
    if c &&& 0x7f ≠ uc ']' then str
    else
      match rangeOfLastString str.dropLast (ns "[") with
      | none => str.dropLast
      | some hostPrefixRange =>
        stripAtEnd (replaceCharactersInRange str.dropLast hostPrefixRange (ns "HOST:"))

def invisibleLines (last index : UInt32) : NSString :=
  if index ≠ NSNotFound ∧ last ≠ NSNotFound ∧ last + 1 ≠ index then fillLines (last + 1) index
  else []

/-- The fields as a DAT has them; nothing without one of the marks. -/
def datFields (mail : Option NSString) (tmp : NSString) : Except XmlException NSString :=
  match tmp.rangeOfString p.namePrefix (tmp.rangeFrom 0) with
  | none => .ok []
  | some found =>
    let tmp := tmp.deleteCharactersInRange ⟨0, found.max⟩
    match tmp.rangeOfString p.datePrefix (tmp.rangeFrom 0) with
    | none => .ok []
    | some found =>
      let tmp := insertString (tmp.deleteCharactersInRange found) (ns "<>") found.location
      let tmp := match mail with
        | none => tmp
        | some mail => insertString tmp mail found.location
      let tmp := insertString tmp (ns "<>") found.location
      (deleteExtraSpaceAtEndOfNameIfNeeded tmp found.location).map
        fun tmp => formatHostField (stringByStriped (deleteLineFeeds tmp)) ++ ns "<>"

/-- What `scanFields:with:index:` appends, the index, and the events from the `dd` on. -/
def scanFields (index : UInt32) (mail : Option NSString) (tmp : NSString) :
    List Event → Except XmlException (NSString × UInt32 × List Event)
  | [] => .ok ([], index, [])
  | e :: events =>
    let mail := if isTag e "a" .START_TAG then readMail p e else mail
    if isTag e "dd" .START_TAG then
      (datFields p mail tmp).map fun fields =>
        (invisibleLines index (indexWithFieldsString tmp) ++ fields, indexWithFieldsString tmp,
          e :: events)
    else scanFields index mail (if e.type = .TEXT then tmp ++ e.text else tmp) events

-- The body of a message

def isMessageStopTag (e : Event) : Bool :=
  e.type == .START_TAG && match e.name with
    | none => false
    | some name => (UTF8String name).isSome &&
      match p.allowedTag.rangeOf (.string name) caseInsensitive ⟨0, p.allowedTag.length⟩ with
      | none => true
      | some found => p.allowedTag[found.max]? != some (uc '<')

def datBody (tmp : NSString) : NSString :=
  let tmp := deleteLineFeeds tmp
  let tmp := match rangeOfLastString tmp (p.msgSuffixBrTag.getD (ns "<br><br>")) with
    | none => tmp
    | some found => tmp.deleteCharactersInRange found
  tmp ++ ns "<>" ++ ns "\n"

/-- What `scanMessage:with:` appends, and the events from the tag that ends the body on. -/
def scanMessage (tmp : NSString) : List Event → NSString × List Event
  | [] => ([], [])
  | e :: events =>
    let tmp := if isTag e "br" .START_TAG then tmp ++ ns "<br>" else tmp
    if isMessageStopTag p e then (datBody p tmp, e :: events)
    else scanMessage (if e.type = .TEXT then tmp ++ e.text else tmp) events

-- The page

theorem length_scanFields (h : scanFields p index mail tmp events = .ok result) :
    result.2.2.length ≤ events.length := by
  induction events generalizing mail tmp with
  | nil =>
    cases h
    exact Nat.le_refl _
  | cons e events ih =>
    rw [scanFields] at h
    split at h
    · cases hfields : datFields p (if isTag e "a" .START_TAG then readMail p e else mail) tmp with
      | error e =>
        rw [hfields] at h
        cases h
      | ok fields =>
        rw [hfields] at h
        cases h
        exact Nat.le_refl _
    · exact Nat.le_succ_of_le (ih h)

theorem length_scanMessage (tmp : NSString) (events : List Event) :
    (scanMessage p tmp events).2.length ≤ events.length := by
  induction events generalizing tmp with
  | nil => exact Nat.le_refl _
  | cons e events ih =>
    rw [scanMessage]
    split
    · exact Nat.le_refl _
    · exact Nat.le_succ_of_le (ih _)

def scanBody (thread : NSString) (index : UInt32) : List Event → Except XmlException NSString
  | [] => .ok thread
  | e :: events =>
    if isTag e "dt" .START_TAG then
      match _h : scanFields p index (some []) [] events with
      | .error e => .error e
      | .ok (text, index, rest) => scanBody (thread ++ text) index rest
    else if isTag e "dd" .START_TAG then
      scanBody (thread ++ (scanMessage p [] events).1) index (scanMessage p [] events).2
    else scanBody thread index events
termination_by events => events.length
decreasing_by
  · exact Nat.lt_succ_of_le (length_scanFields p _h)
  · exact Nat.lt_succ_of_le (length_scanMessage p [] events)
  · exact Nat.lt_succ_self _

theorem length_scanHead (title : Option NSString) (events : List Event) :
    (scanHead title events).2.length ≤ events.length := by
  induction hn : events.length using Nat.strong_induction_on generalizing title events with
  | _ n ih =>
    subst hn
    cases events with
    | nil =>
      rw [scanHead]
    | cons e events =>
      have hlater := length_nextText events
      rw [scanHead]
      split
      · exact Nat.le_succ _
      · split
        · have hrest := ih _ (Nat.lt_succ_of_le hlater) (nextText events).1 (nextText events).2 rfl
          exact Nat.le_succ_of_le (hrest.trans hlater)
        · exact Nat.le_succ_of_le (ih _ (Nat.lt_succ_self _) title events rfl)

/-- The loop of `parseHTML:with:count:`, with the title that has been read. -/
def scanPage (thread : NSString) (loadedCount : UInt32) (title : Option NSString) :
    List Event → Except XmlException (NSString × Option NSString)
  | [] => .ok (thread, title)
  | e :: events =>
    if isTag e "head" .START_TAG then scanPage thread loadedCount (scanHead none events).1
      (scanHead none events).2
    else if isTag e "body" .START_TAG then (scanBody p thread loadedCount events).map fun thread =>
      (thread, title)
    else scanPage thread loadedCount title events
termination_by events => events.length
decreasing_by
  · exact Nat.lt_succ_of_le (length_scanHead none events)
  · exact Nat.lt_succ_self _

def closePage (inputSource : NSString) : NSString :=
  match inputSource.rangeOf (.string (ns "</dl>")) caseInsensitive ⟨0, inputSource.length⟩ with
  | none => inputSource
  | some msgBodyRange => inputSource.take msgBodyRange.max ++ ns "<br><hr></body></html>"

/-- An exception of the parser is caught, with what the thread has then. -/
def parseEvents (thread : NSString) (loadedCount : UInt32) (page : Page) :
    Except XmlException NSString := do
  let (thread, title) ← scanPage p thread loadedCount none (nextName (ns "html") page.events)
  match page.raised with
  | none => pure (match title with
    | none => thread
    | some title => insertTitle title thread)
  | some (.parser _ _ _) => pure thread
  | some e => .error e

def parseHTML (env : Environment) (inputSource thread : NSString) (loadedCount : UInt32) :
    Option (Except XmlException NSString) :=
  (pageOf env htmlFeatures (closePage inputSource)).map (parseEvents p thread loadedCount)

end

end BathyScaphe.Host.CMRHostHTMLHandler
