import BathyScaphe.Foundation.StringComponents
import BathyScaphe.Lib.Comp
import Mathlib.Algebra.Group.Int.Defs
import Mathlib.Algebra.Group.Nat.Defs

/-!
# The pull parser

`SGXmlPullParser` reads a string event by event, through a buffer of two
characters. Returns and line feeds come out of the buffer as one line feed, the
unit `0xFFFF` is skipped in the source and marks its end.

The loops of the sources take at most `fuel` rounds each. `readName` is passed
to the functions that call it. The character sets of letters and digits, the
lower case of a string and the table of named entities are those of the system
and of a resource file.
-/

namespace BathyScaphe.Xml

open NSString

def XML_INVALID_UNICHAR : UniChar := 0xFFFF

structure Environment where
  letterCharacterSet : UniChar → Bool
  alphanumericCharacterSet : UniChar → Bool
  lowercaseString : NSString → NSString
  entityReferenceTable : NSString → Option UniChar
  letter_invalid : letterCharacterSet XML_INVALID_UNICHAR = false
  alphanumeric_invalid : alphanumericCharacterSet XML_INVALID_UNICHAR = false

-- Entity references

def decimalDigit (c : UniChar) : Option Nat :=
  if uc '0' ≤ c && c ≤ uc '9' then some (c - uc '0').toNat else none

def hexDigit (c : UniChar) : Option Nat :=
  if uc 'a' ≤ c && c ≤ uc 'f' then some ((c - uc 'a').toNat + 10)
  else if uc 'A' ≤ c && c ≤ uc 'F' then some ((c - uc 'A').toNat + 10)
  else decimalDigit c

/-- The digits at the start of a string, and the number they write; `none`
without a digit. -/
def scanDigits (base : Nat) (digit : UniChar → Option Nat) (s : NSString) : Option Nat :=
  match (s.takeWhile fun c => (digit c).isSome).filterMap digit with
  | [] => none
  | digits => some (digits.foldl (fun n d => n * base + d) 0)

/-- `scanInt:`, past white space and a sign. Numbers that are too large are the
largest ones. -/
def scanInt (s : NSString) : Option Int :=
  match s.dropWhile isWhitespace with
  | [] => none
  | c :: s =>
    if c = uc '-' then (scanDigits 10 decimalDigit s).map fun n => max (-n) (-2 ^ 31)
    else
      let s := if c = uc '+' then s else c :: s
      (scanDigits 10 decimalDigit s).map fun n => min n (2 ^ 31 - 1)

def scanHexInt (s : NSString) : Option Int :=
  let s := s.dropWhile isWhitespace
  let s := if ns "0x" <+: s || ns "0X" <+: s then s.drop 2 else s
  (scanDigits 16 hexDigit s).map fun n =>
    let n := min n (2 ^ 32 - 1)
    if n < 2 ^ 31 then n else (n : Int) - 2 ^ 32

/-- `SGXMLConvertCharRefToUniChar`: `#123` or `#xAA`. The code is cut to one
unit. -/
def convertCharRefToUniChar (reference : NSString) : Option UniChar :=
  match reference with
  | hash :: c :: rest =>
    if rest = [] || hash != uc '#' then none
    else
      let code := if c = uc 'x' then scanHexInt rest else scanInt (c :: rest)
      code.bind fun code => if 0 ≤ code then some (UInt16.ofNat code.toNat) else none
  | _ => none

def characterForEntityReference (env : Environment) (reference : NSString) : Option UniChar :=
  (env.entityReferenceTable reference).or (convertCharRefToUniChar reference)

-- Events and state

inductive EventType where
  | START_DOCUMENT | END_DOCUMENT | START_TAG | END_TAG | TEXT | CDSECT | ENTITY_REF
  | IGNORABLE_WHITESPACE | PROCESSING_INSTRUCTION | COMMENT | DOCDECL | XML_DECL | LEGACY
  deriving DecidableEq

def EventType.code : EventType → Nat
  | .START_DOCUMENT => 0
  | .END_DOCUMENT => 1
  | .START_TAG => 2
  | .END_TAG => 3
  | .TEXT => 4
  | .CDSECT => 5
  | .ENTITY_REF => 6
  | .IGNORABLE_WHITESPACE => 7
  | .PROCESSING_INSTRUCTION => 8
  | .COMMENT => 9
  | .DOCDECL => 10
  | .XML_DECL => 998
  | .LEGACY => 999

structure Features where
  allowsEmptyAttribute : Bool := false
  ignoreEntityResolvingError : Bool := false
  allowsDuplicateAttribute : Bool := false
  allowsUnquotedValue : Bool := false
  usesLowerCaseName : Bool := false
  disableEntityResolving : Bool := false
  allowsIllegalComment : Bool := false

structure SGXmlPullParser where
  source : NSString
  rest : NSString
  position : Nat := 0
  peeked : List UniChar := []
  peekReadedCR : Bool := false
  isWhitespace : Bool := false
  degenerated : Bool := false
  token : Bool := false
  eos : Bool := false
  type : EventType := .START_DOCUMENT
  name : Option NSString := none
  attributes : List (NSString × NSString) := []
  depth : Int := 0
  line : Nat := 0
  column : Nat := 0
  textBuf : NSString := []

def setInputSource (source : NSString) : SGXmlPullParser := { source := source, rest := source }

/-- The exceptions of the parser with the place they name, that of a range
beyond a string, and the one of the parser that tests for the end in a name. -/
inductive XmlException where
  | parser (line column : Nat) (reason : NSString)
  | range
  | assertion (reason : NSString)
  | endOfName

abbrev Parser := Comp XmlException SGXmlPullParser

open Comp

def raiseParser (reason : NSString) : Parser α := do
  let p ← get
  raise (.parser (p.line + 1) (p.column + 1) reason)

def raiseUnexpectedEOF (reason : NSString) : Parser α :=
  raiseParser (ns "Unexpected EOF: " ++ reason)

def substringWithRange (range : NSRange) : Parser NSString := do
  let p ← get
  if p.source.length < range.max then raise .range
  else pure (p.source.substringWithRange range)

-- Characters

/-- The rounds of `peek:` up to the next character that goes into the buffer. -/
def fetch : NSString → SGXmlPullParser → SGXmlPullParser
  | [], p => { p with rest := [], eos := true, peeked := p.peeked ++ [XML_INVALID_UNICHAR] }
  | c :: rest, p =>
    if c = uc '\r' then
      { p with rest := rest, peekReadedCR := true, peeked := p.peeked ++ [uc '\n'] }
    else if (c = uc '\n' && p.peekReadedCR) || c = XML_INVALID_UNICHAR then
      fetch rest { p with rest := rest, peekReadedCR := false, position := p.position + 1 }
    else { p with rest := rest, peekReadedCR := false, peeked := p.peeked ++ [c] }

def fill : Nat → SGXmlPullParser → SGXmlPullParser
  | 0, p => p
  | n + 1, p => fill n (fetch p.rest p)

def peek (index : Nat) : Parser UniChar := do
  modify fun p => fill (index + 1 - p.peeked.length) p
  let p ← get
  pure (p.peeked.getD index XML_INVALID_UNICHAR)

def read : Parser UniChar := do
  let c ← peek 0
  modify fun p =>
    { p with
      peeked := p.peeked.tail
      position := p.position + 1
      line := if c = uc '\n' then p.line + 1 else p.line
      column := if c = uc '\n' then 0 else p.column + 1 }
  pure c

def readEnsure (ensureUniChar : UniChar) : Parser UniChar := do
  let c ← read
  if ensureUniChar = c then pure c
  else raiseParser (ns "Expected " ++ [ensureUniChar] ++ ns " but was " ++ [c])

def readEnsureAll : NSString → Parser Unit
  | [] => pure ()
  | c :: s => do
    let _ ← readEnsure c
    readEnsureAll s

def peekType : Parser EventType := do
  let c ← peek 0
  if c = XML_INVALID_UNICHAR then pure .END_DOCUMENT
  else if c = uc '&' then pure .ENTITY_REF
  else if c = uc '<' then do
    let nc ← peek 1
    if nc = uc '/' then pure .END_TAG
    else if nc = uc '?' || nc = uc '!' then pure .LEGACY else pure .START_TAG
  else pure .TEXT

/-- The next two characters are these; the second one is looked at only after
the first. -/
def followedBy (first second : UniChar) : Parser Bool := do
  let c ← peek 0
  if c = first then do
    let nc ← peek 1
    pure (nc = second)
  else pure false

def peekSecond (fits : Bool) : Parser UniChar :=
  if fits then peek 1 else pure XML_INVALID_UNICHAR

def push (c : UniChar) : Parser Unit :=
  modify fun p => { p with isWhitespace := NSString.isWhitespace c, textBuf := p.textBuf ++ [c] }

def pushRead : Parser Unit := do
  let c ← read
  push c

def clearText : Parser Unit := modify fun p => { p with textBuf := [] }

section
variable (env : Environment) (features : Features) (fuel : Nat)

def skipRound (_ : Unit) : Parser (Unit ⊕ Unit) := do
  let c ← peek 0
  if !NSString.isWhitespace c || c = XML_INVALID_UNICHAR then pure (.inr ())
  else do
    let _ ← read
    pure (.inl ())

def skip : Parser Unit := loop skipRound fuel ()

def isNameStart (c : UniChar) : Bool := env.letterCharacterSet c || c = uc '_' || c = uc ':'

def isNameChar (c : UniChar) : Bool :=
  env.alphanumericCharacterSet c || c = uc '_' || c = uc '-' || c = uc ':' || c = uc '.' ||
    0x0b7 ≤ c

/-- A round of the loop over the characters of a name, with a test of the next
one before the condition of the loop. -/
def readNameRound (test : UniChar → Parser Unit) (_ : Unit) : Parser (Unit ⊕ Unit) := do
  let _ ← read
  let c ← peek 0
  test c
  pure (if isNameChar env c then .inl () else .inr ())

def readNameUsing (scan : Parser Unit) : Parser NSString := do
  let p ← get
  let c ← peek 0
  if !isNameStart env c then
    raiseParser (ns "Name/Token start invalid character(" ++ [c] ++ ns ")")
  else do
    scan
    let p' ← get
    let name ← substringWithRange ⟨p.position, p'.position - p.position⟩
    let name := if features.usesLowerCaseName then env.lowercaseString name else name
    if name = [] then raise (.assertion (ns "name must be not empty.")) else pure name

def readName : Parser NSString :=
  readNameUsing env features (loop (readNameRound env fun _ => pure ()) fuel ())

def checkEnd (c : UniChar) : Parser Unit :=
  if c = XML_INVALID_UNICHAR then raise .endOfName else pure ()

/-- `readName` with the test for the end that the other loops have. -/
def readNameChecked : Parser NSString :=
  readNameUsing env features (loop (readNameRound env checkEnd) fuel ())

-- Text and entities

/-- The characters of a reference, up to the semicolon or to the first one that
cannot be in it. -/
def scanEntityRound (_ : Unit) : Parser (Unit ⊕ Bool) := do
  let c ← peek 0
  if c != uc ';' && !env.alphanumericCharacterSet c then pure (.inr false)
  else do
    let c ← read
    push c
    pure (if c = uc ';' then .inr true else .inl ())

def scanEntity : Parser Bool := loop (scanEntityRound env) fuel ()

/-- The reference between the two places, and the text up to `textPos` before
it. -/
def resolveEntity (index textPos : Nat) (isValid : Bool) : Parser Bool := do
  let p ← get
  let range : NSRange := ⟨index, p.position - index⟩
  if isValid && range.length ≤ 2 then raiseParser (ns "Empty Entity...")
  else do
    let entityRef ← substringWithRange
      (if isValid then ⟨range.location + 1, range.length - 2⟩ else range)
    let code := if isValid then characterForEntityReference env entityRef else none
    match code with
    | some code => do
      modify fun p => { p with textBuf := p.textBuf.take textPos }
      push code
      pure true
    | none =>
      if features.ignoreEntityResolvingError then pure false
      else if p.eos then
        raiseUnexpectedEOF (ns "While Resolving Entity Reference(" ++ entityRef ++ ns ")")
      else raiseParser (ns "Can't resolve Entity(" ++ entityRef ++ ns ")")

def parseEntity (willClearBuffer : Bool) : Parser Bool := do
  let start ← get
  when willClearBuffer clearText
  let p ← get
  let c ← readEnsure (uc '&')
  push c
  let c ← peek 0
  when (c = uc '#') pushRead
  let isValid ← scanEntity env fuel
  if features.disableEntityResolving then pure isValid
  else resolveEntity env features start.position p.textBuf.length isValid

/-- A delimiter that is a space stands for white space and the brackets of
tags. -/
def endsText (delimiter : UniChar) (resolve : Bool) (c : UniChar) : Bool :=
  c = XML_INVALID_UNICHAR || delimiter = c ||
    (delimiter = uc ' ' && (NSString.isWhitespace c || c = uc '<' || c = uc '>')) ||
    (c = uc '&' && !resolve)

def parseTextUnit (c : UniChar) : Parser Unit :=
  if c = uc '&' then do
    let _ ← parseEntity env features fuel false
  else do
    let p ← get
    let c' ← read
    push (if p.type = .START_TAG && c = uc '\n' then uc ' ' else c')

def parseTextRound (delimiter : UniChar) (resolve : Bool) (c : UniChar) :
    Parser (UniChar ⊕ Unit) :=
  if endsText delimiter resolve c then pure (.inr ())
  else do
    parseTextUnit env features fuel c
    let c ← peek 0
    pure (.inl c)

def parseText (delimiter : UniChar) (resolve : Bool) : Parser Unit := do
  let c ← peek 0
  clearText
  loop (parseTextRound env features fuel delimiter resolve) fuel c

-- Comments, sections and declarations

def closesWith (c delimiter : UniChar) : Parser Bool :=
  if c = delimiter then followedBy delimiter (uc '>') else pure false

def parseCommentRound (willPush : Bool) (pc : UniChar) : Parser (UniChar ⊕ Unit) := do
  let c ← read
  let closes ← closesWith c (uc '-')
  if closes then
    if pc = uc '-' && !features.allowsIllegalComment then
      raiseParser (ns "illegal comment delimiter: --->")
    else pure (.inr ())
  else if c = XML_INVALID_UNICHAR then raiseUnexpectedEOF (ns "While Comment")
  else do
    when willPush (push c)
    pure (.inl c)

def parseComment (willPush : Bool) : Parser Unit := do
  readEnsureAll (ns "--")
  loop (parseCommentRound features willPush) fuel XML_INVALID_UNICHAR
  readEnsureAll (ns "->")

def parseProccessingInstructionRound (willPush : Bool) (_ : Unit) : Parser (Unit ⊕ Unit) := do
  let c ← read
  let closes ← followedBy (uc '?') (uc '>')
  if closes then pure (.inr ())
  else if c = XML_INVALID_UNICHAR then raiseUnexpectedEOF (ns "While ProccessingInstruction.")
  else do
    when willPush (push c)
    pure (.inl ())

def parseProccessingInstruction (willPush : Bool) : Parser Unit := do
  loop (parseProccessingInstructionRound willPush) fuel ()
  readEnsureAll (ns "?>")

/-- The state of the loop is the nesting level and whether a quote is open. -/
def parseDocTypeRound (willPush : Bool) (state : Nat × Bool) : Parser (Nat × Bool ⊕ Unit) := do
  let c ← read
  if c = XML_INVALID_UNICHAR then raiseUnexpectedEOF (ns "While DOCTYPE")
  else
    let closes := c = uc '>' && !state.2
    let nestLevel := if closes then state.1 - 1 else state.1
    if closes && nestLevel = 0 then pure (.inr ())
    else do
      when willPush (push c)
      pure (.inl (nestLevel, if c = uc '\'' then !state.2 else state.2))

def parseDocType (willPush : Bool) : Parser Unit := do
  readEnsureAll (ns "DOCTYPE")
  loop (parseDocTypeRound willPush) fuel (1, false)

def parseCDATARound (_ : Unit) : Parser (Unit ⊕ Unit) := do
  let c ← read
  let closes ← closesWith c (uc ']')
  if closes then pure (.inr ())
  else if c = XML_INVALID_UNICHAR then raiseUnexpectedEOF (ns "While CDATA Section")
  else do
    push c
    pure (.inl ())

def parseCDATA : Parser Unit := do
  readEnsureAll (ns "[CDATA[")
  loop parseCDATARound fuel ()
  readEnsureAll (ns "]>")

-- Tags

section
variable (readName : Parser NSString)

def setName (name : NSString) : Parser Unit := modify fun p => { p with name := some name }

def parseQuotedValue (name : NSString) : Parser NSString := do
  readEnsureAll (ns "=")
  skip fuel
  let delimiter ← read
  if delimiter = uc '"' || delimiter = uc '\'' then do
    parseText env features fuel delimiter true
    let p ← get
    let _ ← read
    pure p.textBuf
  else if !features.allowsUnquotedValue then
    raiseParser (ns "Attribute(" ++ name ++ ns ") was be quoted")
  else do
    parseText env features fuel (uc ' ') true
    let p ← get
    pure (delimiter :: p.textBuf)

def parseAttributeValue (name : NSString) : Parser NSString := do
  let c ← peek 0
  if c = uc '=' then parseQuotedValue env features fuel name
  else if c = uc '>' || c = uc '/' || env.alphanumericCharacterSet c then
    if features.allowsEmptyAttribute then pure []
    else raiseParser (ns "Empty Attributes(" ++ name ++ ns ") was not allowed.")
  else
    raiseParser (ns "Unexpected Character(" ++
      (if c = XML_INVALID_UNICHAR then ns "EOF" else [c]) ++ ns ") While Attribute(" ++ name ++
      ns ").")

def parseAttribute : Parser Unit := do
  let name ← readName
  if name = [] then raiseParser (ns "Attributes Name not supplied.")
  else do
    skip fuel
    let p ← get
    if !features.allowsDuplicateAttribute && (p.attributes.lookup name).isSome then
      raiseParser (ns "Duplicate Attribute(" ++ name ++ ns ") was not allowed")
    else do
      let value ← parseAttributeValue env features fuel name
      modify fun p => { p with attributes := (name, value) :: p.attributes }

/-- A round of the loop over the attributes; the answer is whether the tag counts
for the depth. -/
def parseStartTagRound (xmlDecl : Bool) (_ : Unit) : Parser (Unit ⊕ Bool) := do
  skip fuel
  let c ← peek 0
  if xmlDecl && c = uc '?' then do
    readEnsureAll (ns "?>")
    pure (.inr false)
  else if c = uc '/' then do
    modify fun p => { p with degenerated := true }
    let _ ← read
    skip fuel
    readEnsureAll (ns ">")
    pure (.inr true)
  else if c = uc '>' && !xmlDecl then do
    let _ ← read
    pure (.inr true)
  else if c = XML_INVALID_UNICHAR then raiseUnexpectedEOF (ns "While scanning Start Tag")
  else do
    parseAttribute env features fuel readName
    pure (.inl ())

def parseStartTag (xmlDecl : Bool) : Parser Unit := do
  when (!xmlDecl) (readEnsureAll (ns "<"))
  let name ← readName
  setName (if xmlDecl then ns "xml" else name)
  modify fun p => { p with attributes := [] }
  let counts ← loop (parseStartTagRound env features fuel readName xmlDecl) fuel ()
  when counts (modify fun p => { p with depth := p.depth + 1 })

def parseEndTag : Parser Unit := do
  readEnsureAll (ns "</")
  let name ← readName
  setName name
  skip fuel
  readEnsureAll (ns ">")
  let p ← get
  if p.depth = 0 then raiseParser (ns "Not Found Start Element of (" ++ name ++ ns ")")
  else pure ()

def tolower (c : UniChar) : UniChar := if uc 'A' ≤ c && c ≤ uc 'Z' then c + 32 else c

/-- After `<?`. A target that starts with `xm` is read as the declaration, or
not at all. -/
def parseLegacyInstruction (willPush : Bool) : Parser EventType := do
  let x ← peek 0
  let m ← peekSecond (tolower x = uc 'x')
  if tolower m = uc 'm' then do
    let c ← read
    when willPush (push c)
    let c ← read
    when willPush (push c)
    let l ← peek 0
    let space ← peekSecond (tolower l = uc 'l')
    if NSString.isWhitespace space then do
      parseStartTag env features fuel readName true
      modify fun p => { p with isWhitespace := true }
      pure .XML_DECL
    else pure .DOCDECL
  else do
    parseProccessingInstruction fuel willPush
    pure .PROCESSING_INSTRUCTION

def parseLegacy (willPush : Bool) : Parser EventType := do
  readEnsureAll (ns "<")
  let c ← read
  clearText
  if c = uc '!' then do
    let nc ← peek 0
    if nc = uc '-' then do
      parseComment features fuel willPush
      pure .COMMENT
    else if nc = uc '[' then do
      parseCDATA fuel
      pure .CDSECT
    else do
      parseDocType fuel willPush
      pure .DOCDECL
  else if c = uc '?' then parseLegacyInstruction env features fuel readName willPush
  else raiseParser (ns "Unknown Legacy Type(" ++ [c] ++ ns ")")

-- Events

def setType (type : EventType) : Parser Unit := modify fun p => { p with type := type }

def SGXmlPullParser.textIsWhitespace (p : SGXmlPullParser) : Bool :=
  (p.type = .TEXT || p.type = .IGNORABLE_WHITESPACE || p.type = .CDSECT) && p.isWhitespace

def parseEvent (type : EventType) : Parser EventType := do
  let p ← get
  match type with
  | .START_TAG => do
    parseStartTag env features fuel readName false
    pure .START_TAG
  | .END_TAG => do
    parseEndTag fuel readName
    pure .END_TAG
  | .ENTITY_REF => do
    let isValid ← parseEntity env features fuel p.token
    pure (if isValid then .ENTITY_REF else .TEXT)
  | .END_DOCUMENT => pure .END_DOCUMENT
  | .TEXT => do
    parseText env features fuel (uc '<') (!p.token)
    let p ← get
    pure (if p.depth = 0 && p.textIsWhitespace then .IGNORABLE_WHITESPACE else .TEXT)
  | _ => parseLegacy env features fuel readName p.token

/-- From `StartDoParse` on. A declaration goes back there with its own type. -/
def doParse (type : EventType) : Parser (EventType ⊕ EventType) := do
  let p ← get
  if p.degenerated then do
    modify fun p => { p with degenerated := false, type := .END_TAG }
    pure (.inr .END_TAG)
  else do
    let type := if type = .ENTITY_REF && !p.token then .TEXT else type
    setType type
    let type ← parseEvent env features fuel readName type
    setType type
    pure (if type = .XML_DECL then .inl type else .inr type)

def doNext : Parser EventType := do
  modify fun p => { p with depth := if p.type = .END_TAG then p.depth - 1 else p.depth }
  let type ← peekType
  setType type
  loop (doParse env features fuel readName) fuel type

def minType (minimum : Option EventType) (type : EventType) : EventType :=
  match minimum with
  | none => type
  | some minimum => if type.code < minimum.code then type else minimum

def nextRound (minimum : Option EventType) : Parser (Option EventType ⊕ EventType) := do
  let type ← doNext env features fuel readName
  let minimum := minType minimum type
  if EventType.ENTITY_REF.code < minimum.code then pure (.inl (some minimum))
  else if EventType.TEXT.code ≤ minimum.code then do
    let type ← peekType
    pure (if EventType.TEXT.code ≤ type.code then .inl (some minimum) else .inr minimum)
  else pure (.inr minimum)

def next : Parser EventType := do
  modify fun p => { p with isWhitespace := true, token := false }
  let minimum ← loop (nextRound env features fuel readName) fuel none
  let type := if EventType.TEXT.code < minimum.code then .TEXT else minimum
  setType type
  pure type

def nextToken : Parser EventType := do
  modify fun p => { p with isWhitespace := true, token := true }
  doNext env features fuel readName

inductive Call where
  | next
  | nextToken

def call : Call → Parser EventType
  | .next => next env features fuel readName
  | .nextToken => nextToken env features fuel readName

def callRound (calls : Nat → Call) (i : Nat) : Parser (Nat ⊕ Nat) := do
  let type ← call env features fuel readName (calls i)
  pure (if type = .END_DOCUMENT then .inr i else .inl (i + 1))

/-- Calls one after the other up to the end of the document; the answer is how
many came before the last one. -/
def callUntilEnd (calls : Nat → Call) : Parser Nat :=
  loop (callRound env features fuel readName calls) fuel 0

end

end

end BathyScaphe.Xml
