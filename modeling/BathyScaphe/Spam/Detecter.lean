import BathyScaphe.Dat.TextParser
import Mathlib.Logic.Function.Basic

/-!
# The detecter of spam

`CMRSamplingDetecter` keeps samples of messages that were marked as spam. A
message is spam when a sample matches it in one of the fields the sample is
told by, or when a word of the corpus is found in it. A table of samples by ID,
host, name and thread is asked before the list of all samples.

Samples are objects: the list and the table refer to them, and a sample whose
fields change is changed for both. The conversions of a text for display, the
sets of digits and the regular expressions are parameters.
-/

namespace BathyScaphe.Spam

open NSString

def kSampleAsNameMask : UInt32 := 1
def kSampleAsMailMask : UInt32 := 2
def kSampleAsIDMask : UInt32 := 4
def kSampleAsHostMask : UInt32 := 8
def kSampleAsMessageMask : UInt32 := 16
def kSampleAsThreadLocalMask : UInt32 := 32
def kSampleAsAny : UInt32 := 0x3f

def BSNGExpressionAtName : UInt32 := 1
def BSNGExpressionAtMail : UInt32 := 2
def BSNGExpressionAtMessage : UInt32 := 4

structure CMRThreadSignature where
  identifier : NSString
  boardName : NSString
  deriving DecidableEq

structure CMRMessageSample where
  flags : UInt32 := 0
  matchedCount : UInt32 := 0
  message : CMRThreadMessage
  threadIdentifier : Option CMRThreadSignature
  sampledDate : Int

structure BSNGExpression where
  expression : Option NSString
  targetMask : UInt32
  isRegularExpression : Bool

structure DetecterServices where
  text : Dat.TextServices
  isValidExpressionString : NSString → Bool
  isDecimalDigit : UniChar → Bool
  convertMessageSourceToCachedMessage : NSString → NSString
  replaceEntityReferenceWithString : NSString → NSString

/-- `isEqualToString:`, which `nil` answers with `NO`. -/
def isEqualToString (s s' : Option NSString) : Bool := s.isSome && s == s'

/-- `containsObject:` of an array that may be `nil`. -/
def containsObject (array : Option (List NSString)) (s : Option NSString) : Bool :=
  match array, s with
  | some array, some s => s ∈ array
  | _, _ => false

-- Fields that tell nothing

/-- `scanCharactersFromSet:intoString:`, past white space: what is left, or
`none` when nothing could be read. -/
def scanCharacters (set : UniChar → Bool) (s : NSString) : Option NSString :=
  let s := s.dropWhile isWhitespace
  if s.takeWhile set = [] then none else some (s.dropWhile set)

def skipCharacters (set : UniChar → Bool) (s : NSString) : NSString := (scanCharacters set s).getD s

def whitespaceCharacterSet (c : UniChar) : Bool :=
  c == 0x09 || c == 0x20 || c == 0xA0 || c == 0x1680 || (0x2000 ≤ c && c ≤ 0x200A) ||
    c == 0x202F || c == 0x205F || c == 0x3000

def innerLinkPrefixCharacterSet (c : UniChar) : Bool := c ∈ [0x3e, 0xff1e, 0x300b, 0x3009]
def innerLinkRangeCharacterSet (c : UniChar) : Bool := c ∈ [0x2d, 0x30fc, 0x2212, 0x2014, 0xff70]
def innerLinkSeparaterCharacterSet (c : UniChar) : Bool :=
  c ∈ [0x2c, 0x3001, 0xff0c, 0xff0e, 0x3d, 0xff1d, 0x30fb]

def numberCharacterSet_JP (c : UniChar) : Bool :=
  (uc '0' ≤ c && c ≤ uc '9') || (0xff10 ≤ c && c ≤ 0xff19)

/-- The loop of `checkNameHasResLink_`. Every round reads a digit, so the length
of the name is enough rounds. -/
def resLinkLoop : Nat → NSString → Bool
  | 0, _ => false
  | rounds + 1, s =>
    match scanCharacters numberCharacterSet_JP s with
    | none => false
    | some s =>
      let s := skipCharacters whitespaceCharacterSet s
      if s.dropWhile isWhitespace = [] then true
      else
        let s := skipCharacters innerLinkRangeCharacterSet s
        let s := skipCharacters innerLinkSeparaterCharacterSet s
        resLinkLoop rounds (skipCharacters whitespaceCharacterSet s)

def checkNameHasResLink (name : NSString) : Bool :=
  let s := skipCharacters innerLinkPrefixCharacterSet name
  resLinkLoop (name.length + 1) (skipCharacters whitespaceCharacterSet s)

def checkNameIsNonSignificant : Option NSString → Bool
  | none => true
  | some name => name.length = 0

def checkIDIsNonSignificant (id : NSString) : Bool := id.length < 2 || ns "???" <+: id

section
variable (sv : DetecterServices)

def checkMailIsNonSignificant : Option NSString → Bool
  | none => true
  | some mail =>
    mail.length = 0 || mail == ns "sage" || mail == ns "age" || mail == ns "0" ||
      scanCharacters sv.isDecimalDigit mail == some []

-- Matching

def doDetectMessageAny (m₁ : CMRThreadMessage) (t₁ : Option CMRThreadSignature)
    (m₂ : CMRThreadMessage) (t₂ : Option CMRThreadSignature) (noNames : Option (List NSString)) :
    UInt32 :=
  let mask := m₁.property
  let sameThread := t₁.isSome && t₁ == t₂
  let sameBoard := sameThread || isEqualToString (t₁.map (·.boardName)) (t₂.map (·.boardName))
  if sameBoard && kSampleAsIDMask &&& mask != 0 && isEqualToString m₁.IDString m₂.IDString then
    kSampleAsIDMask
  else if sameBoard && kSampleAsHostMask &&& mask != 0 && 1 < (m₁.host.getD []).length &&
      isEqualToString m₁.host m₂.host then
    kSampleAsHostMask
  else if sameBoard && kSampleAsThreadLocalMask &&& mask != 0 && sameThread &&
      isEqualToString m₁.name m₂.name then
    kSampleAsThreadLocalMask
  else if kSampleAsNameMask &&& mask != 0 && !containsObject noNames m₂.name &&
      isEqualToString m₁.name m₂.name then
    kSampleAsNameMask
  else if kSampleAsMailMask &&& mask != 0 && isEqualToString m₁.mail m₂.mail then
    kSampleAsMailMask
  else if kSampleAsMessageMask &&& mask != 0 && isEqualToString m₁.messageSource m₂.messageSource
    then
    kSampleAsMessageMask
  else 0

end

-- The detecter

/-- IDs, hosts and names share the keys that are strings. -/
inductive CacheKey where
  | string (s : NSString)
  | thread (t : CMRThreadSignature)
  deriving DecidableEq

structure CMRSamplingDetecter where
  objects : Nat → CMRMessageSample
  nextObject : Nat
  samples : List Nat
  table : CacheKey → Option Nat
  corpus : Option (List BSNGExpression)
  noNameArray : Option (List NSString)
  nanashiAllowed : Bool

namespace CMRSamplingDetecter

def init : CMRSamplingDetecter where
  objects _ := { message := {}, threadIdentifier := none, sampledDate := 0 }
  nextObject := 0
  samples := []
  table _ := none
  corpus := none
  noNameArray := none
  nanashiAllowed := false

def cached (d : CMRSamplingDetecter) (key : Option CacheKey) : Option Nat := key.bind d.table

def stringKey (s : Option NSString) : Option CacheKey := s.map .string
def threadKey (t : Option CMRThreadSignature) : Option CacheKey := t.map .thread

section Setup
variable (sv : DetecterServices) (d : CMRSamplingDetecter) (r : Nat)

structure Setup where
  table : CacheKey → Option Nat
  sign : UInt32

def Setup.clear (setup : Setup) (mask : UInt32) : Setup :=
  { setup with sign := setup.sign &&& ~~~mask }

def Setup.add (setup : Setup) (mask : UInt32) : Setup :=
  { setup with sign := setup.sign ||| mask }

def Setup.has (setup : Setup) (mask : UInt32) : Bool := setup.sign &&& mask != 0

def Setup.register (setup : Setup) (key : Option CacheKey) : Setup :=
  match key with
  | some key => { setup with table := Function.update setup.table key (some r) }
  | none => setup

def setupID (m : CMRThreadMessage) (setup : Setup) : Setup :=
  match m.IDString with
  | none => setup.clear kSampleAsIDMask
  | some id =>
    if checkIDIsNonSignificant (stringByStriped id) then setup.clear kSampleAsIDMask
    else setup.register r (stringKey m.IDString)

def setupHost (m : CMRThreadMessage) (setup : Setup) : Setup :=
  match m.host with
  | none => setup
  | some host =>
    if 0 < (stringByStriped host).length then
      (setup.add kSampleAsHostMask).register r (stringKey m.host) else setup

def plainText (s : Option NSString) : Option NSString :=
  s.map fun s => stringByStriped (stringByReplaceEntityReference sv.text.stringForEntityReference s)

/-- A link to a res is a name only together with another sample of the thread
by that name. -/
def setupResLink (m : CMRThreadMessage) (t : Option CMRThreadSignature) (setup : Setup) : Setup :=
  let setup := setup.clear kSampleAsNameMask
  match (threadKey t).bind setup.table with
  | some tmp =>
    let tmpMessage := (d.objects tmp).message
    if isEqualToString tmpMessage.name m.name then
      if tmpMessage.property &&& kSampleAsThreadLocalMask = 0 then
        setup.add kSampleAsThreadLocalMask
      else setup
    else setup.register r (threadKey t)
  | none => setup.register r (threadKey t)

def setupName (m : CMRThreadMessage) (t : Option CMRThreadSignature) (setup : Setup) : Setup :=
  if !d.nanashiAllowed || containsObject d.noNameArray m.name then setup.clear kSampleAsNameMask
  else if checkNameIsNonSignificant (plainText sv m.name) then setup.clear kSampleAsNameMask
  else if checkNameHasResLink ((plainText sv m.name).getD []) then setupResLink d r m t setup
  else setup

/-- A name tells a sample from the second one on, unless there is no ID or host
to tell it by. -/
def setupSecondName (m : CMRThreadMessage) (setup : Setup) : Setup :=
  if setup.has kSampleAsIDMask || setup.has kSampleAsHostMask then
    let setup := setup.clear kSampleAsNameMask
    match (stringKey m.name).bind setup.table with
    | some tmp =>
      let tmpMessage := (d.objects tmp).message
      if tmpMessage.property &&& kSampleAsNameMask = 0 then
        let differs :=
          (!setup.has kSampleAsIDMask || !isEqualToString tmpMessage.IDString m.IDString) &&
          (!setup.has kSampleAsHostMask || !isEqualToString tmpMessage.host m.host)
        if differs then (setup.add kSampleAsNameMask).register r (stringKey m.name) else setup
      else setup.register r (stringKey m.name)
    | none => setup.register r (stringKey m.name)
  else (setup.add kSampleAsNameMask).register r (stringKey m.name)

/-- The mail is for samples with neither a name nor an ID. -/
def setupMail (m : CMRThreadMessage) (setup : Setup) : Setup :=
  if !setup.has kSampleAsIDMask && !checkMailIsNonSignificant sv (plainText sv m.mail) then
    setup.add kSampleAsMailMask
  else setup

def setupSample : Setup :=
  let m := (d.objects r).message
  let sign := kSampleAsAny &&& ~~~kSampleAsMailMask &&& ~~~kSampleAsHostMask &&&
    ~~~kSampleAsThreadLocalMask
  let setup := setupName sv d r m (d.objects r).threadIdentifier
    (setupHost r m (setupID r m ⟨d.table, sign⟩))
  if setup.has kSampleAsNameMask then setupSecondName d r m setup else setupMail sv m setup

def setObject (sample : CMRMessageSample) : CMRSamplingDetecter :=
  { d with objects := Function.update d.objects r sample }

def setupAppendingSampleForSample : CMRSamplingDetecter :=
  let sample := d.objects r
  let setup := setupSample sv d r
  setObject { d with table := setup.table } r
    { sample with message := sample.message.setProperty setup.sign }

end Setup

section
variable (sv : DetecterServices) (d : CMRSamplingDetecter)

def addNewMessageSample (sample : CMRMessageSample) : CMRSamplingDetecter :=
  let r := d.nextObject
  let d := setupAppendingSampleForSample sv
    { d.setObject r sample with nextObject := r + 1 } r
  { d with samples := d.samples ++ [r] }

def addSample (m : CMRThreadMessage) (t : Option CMRThreadSignature) (now : Int) :
    CMRSamplingDetecter :=
  let m := (m.clearTemporaryAttributes.setFlag SPAM_FLAG true).setProperty kSampleAsAny
  d.addNewMessageSample sv { message := m, threadIdentifier := t, sampledDate := now }

def clear : CMRSamplingDetecter := { d with samples := [], table := fun _ => none }

def setCorpus (corpus : Option (List BSNGExpression)) : CMRSamplingDetecter :=
  { d with corpus := corpus }

def setWorkingBoard (noNames : Option (List NSString)) (allowed : Bool) : CMRSamplingDetecter :=
  { d with noNameArray := noNames, nanashiAllowed := allowed }

def matchesSample (r : Nat) (m : CMRThreadMessage) (t : Option CMRThreadSignature) : Bool :=
  doDetectMessageAny (d.objects r).message (d.objects r).threadIdentifier m t d.noNameArray != 0

def incrementMatchedCount (r : Nat) : CMRSamplingDetecter :=
  d.setObject r { d.objects r with matchedCount := (d.objects r).matchedCount + 1 }

-- Removing

/-- The keys that are looked up when a sample is removed. The thread is the one
of the message, not the one of the sample. -/
def removedKeys (r : Nat) (t : Option CMRThreadSignature) : List CacheKey :=
  let m := (d.objects r).message
  [stringKey m.IDString, stringKey m.name, stringKey m.host, threadKey t].filterMap id

def removeSampleCache (r : Nat) (t : Option CMRThreadSignature) : CMRSamplingDetecter :=
  { d with
    table := fun key =>
      if key ∈ d.removedKeys r t ∧ d.table key = some r then none else d.table key }

def removeSampleAt (i : Nat) (m : CMRThreadMessage) (t : Option CMRThreadSignature) :
    CMRSamplingDetecter :=
  match d.samples[i]? with
  | none => d
  | some r =>
    if d.matchesSample r m t then
      let d := (d.incrementMatchedCount r).removeSampleCache r t
      { d with samples := d.samples.eraseIdx i }
    else d

def removeSamplesBelow (m : CMRThreadMessage) (t : Option CMRThreadSignature) :
    Nat → CMRSamplingDetecter → CMRSamplingDetecter
  | 0, d => d
  | i + 1, d => removeSamplesBelow m t i (d.removeSampleAt i m t)

def removeSample (m : CMRThreadMessage) (t : Option CMRThreadSignature) : CMRSamplingDetecter :=
  removeSamplesBelow m t d.samples.length d

-- Detecting

/-- An expression that is regular and valid is searched for as such, any other
as it stands. Searching for `nil` raises. -/
def findsExpression (source : NSString) (e : BSNGExpression) : Option Bool :=
  e.expression.map fun expression =>
    if e.isRegularExpression && sv.isValidExpressionString expression then
      (sv.text.matchInString expression source).isSome
    else expression.length != 0 && source.containsString expression

/-- The second search is made where the first finds nothing. -/
def orSearch (first second : Option Bool) : Option Bool :=
  first.bind fun found => if found then some true else second

def findsAny (source : NSString) : List BSNGExpression → Option Bool
  | [] => some false
  | e :: es => orSearch (findsExpression sv source e) (findsAny source es)

def NGExpressionsForTargetMask (corpus : List BSNGExpression) (mask : UInt32) :
    List BSNGExpression :=
  corpus.filter fun e => e.targetMask &&& mask != 0

def detectStringUsingCorpus (corpus : List BSNGExpression) (source : NSString) (mask : UInt32) :
    Option Bool :=
  findsAny sv source (NGExpressionsForTargetMask corpus mask)

/-- The name as it is searched: not at all when it is that of nobody. -/
def corpusName (m : CMRThreadMessage) : Option NSString :=
  if !checkNameIsNonSignificant m.name &&
      (!d.nanashiAllowed || !containsObject d.noNameArray m.name) then
    m.name.map sv.convertMessageSourceToCachedMessage
  else none

def corpusMail (m : CMRThreadMessage) : Option NSString :=
  if !checkMailIsNonSignificant sv m.mail then m.mail.map sv.replaceEntityReferenceWithString
  else none

def corpusMessage (m : CMRThreadMessage) : Option NSString :=
  m.messageSource.map sv.convertMessageSourceToCachedMessage

def detectFieldUsingCorpus (corpus : List BSNGExpression) (source : Option NSString)
    (mask : UInt32) : Option Bool :=
  source.elim (some false) fun source => detectStringUsingCorpus sv corpus source mask

def detectMessageUsingCorpus (m : CMRThreadMessage) : Option Bool :=
  match d.corpus with
  | none => some false
  | some corpus =>
    orSearch (detectFieldUsingCorpus sv corpus (d.corpusName sv m) BSNGExpressionAtName)
      (orSearch (detectFieldUsingCorpus sv corpus (corpusMail sv m) BSNGExpressionAtMail)
        (detectFieldUsingCorpus sv corpus (corpusMessage sv m) BSNGExpressionAtMessage))

def detectAmong (m : CMRThreadMessage) (t : Option CMRThreadSignature) :
    List Nat → Option CMRSamplingDetecter
  | [] => none
  | r :: rs =>
    if d.matchesSample r m t then some (d.incrementMatchedCount r) else detectAmong m t rs

def cachedSamples (m : CMRThreadMessage) (t : Option CMRThreadSignature) : List Nat :=
  [stringKey m.IDString, stringKey m.host, stringKey m.name, threadKey t].filterMap d.cached

def detectMessage (m : CMRThreadMessage) (t : Option CMRThreadSignature) :
    Option (Bool × CMRSamplingDetecter) :=
  match d.detectAmong m t (d.cachedSamples m t) with
  | some d' => some (true, d')
  | none =>
    match d.detectAmong m t d.samples with
    | some d' => some (true, d')
    | none => (d.detectMessageUsingCorpus sv m).map (·, d)

end

end CMRSamplingDetecter

end BathyScaphe.Spam
