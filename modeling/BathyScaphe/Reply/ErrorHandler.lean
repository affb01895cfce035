import BathyScaphe.Foundation.RangedReplacement
import BathyScaphe.Foundation.SkippingScanner
import BathyScaphe.Host.ReadURL
import BathyScaphe.Reply.ResponseID
import BathyScaphe.Xml.Page

/-!
# What a host answers to a post

`SG2chErrorHandler` classifies a page by its title, or by the mark in a comment of the page
where the title is not known, and reads the hidden inputs of a page that asks for a
confirmation. The comments are taken from the text, titles and inputs from the events of
the pull parser.
-/

namespace BathyScaphe.Reply

open NSString Xml Host Comp

-- The handler

inductive ErrorType where
  | k2chNoneErrorType
  | k2chEmptyDataErrorType
  | k2chAnyErrorType
  | k2chContributionCheckErrorType
  | k2chRequireNameErrorType
  | k2chRequireContentsErrorType
  | k2chSPIDCookieErrorType
  | k2chDoubleWritingErrorType
  | k2chWarningErrorType
  | k2chUnknownErrorType
  deriving DecidableEq

structure NSError where
  code : ErrorType
  title : NSString
  message : NSString
  deriving DecidableEq

/-- The pairs of the forms stand in the order in which they are set. -/
structure SG2chErrorHandler where
  requestURL : NSURL
  recentError : Option NSError := none
  additionalFormsData : Option (List (NSString × NSString)) := none

/-- What the handler takes from the system. The marks of comments have no case, and the
hyphen is no letter or digit. -/
structure ErrorHandling extends Scanning where
  environment : Environment
  localizedString : NSString → NSString
  fold_markup : ∀ c d, d ∈ ns "<!->" → fold c = fold d → c = d
  alphanumeric_hyphen : environment.alphanumericCharacterSet (uc '-') = false

abbrev Handling := Comp XmlException SG2chErrorHandler

def replyErrorCodeDictionary : List (NSString × ErrorType) :=
  [(ns "", .k2chAnyErrorType), (ns "302 Found", .k2chNoneErrorType),
    (ns "check", .k2chWarningErrorType),
    (ns "cookie", .k2chSPIDCookieErrorType), (ns "error", .k2chAnyErrorType),
    (ns "false", .k2chWarningErrorType),
    (ns "クッキー確認！", .k2chSPIDCookieErrorType), (ns "データがありません。", .k2chEmptyDataErrorType),
    (ns "二重書き込み", .k2chDoubleWritingErrorType), (ns "名前いれてちょ", .k2chRequireNameErrorType),
    (ns "投稿確認", .k2chContributionCheckErrorType), (ns "書きこみました。", .k2chNoneErrorType),
    (ns "書きこみました。。。", .k2chNoneErrorType), (ns "本文がありません。", .k2chRequireContentsErrorType),
    (ns "注意事項", .k2chWarningErrorType), (ns "ＥＲＲＯＲ！", .k2chAnyErrorType)]

def integerForKey (key : Option NSString) (defaultValue : ErrorType) : ErrorType :=
  (key.bind fun key => replyErrorCodeDictionary.lookup key).getD defaultValue

def htmlFeatures : Features where
  allowsEmptyAttribute := true
  ignoreEntityResolvingError := true
  allowsDuplicateAttribute := true
  allowsUnquotedValue := true
  usesLowerCaseName := true
  allowsIllegalComment := true

def isTag (e : Xml.Event) (tagName : NSString) (theType : EventType) : Bool :=
  e.type == theType && e.name == some tagName

/-- Which loop of `parseHTMLContents:intoTitle:intoMessage:` takes the next event; `title` is the
call of `next` behind the tag. -/
inductive Place where
  | page
  | body
  | head
  | title

structure Parsing where
  place : Place := .page
  title_ : NSString := []
  body_ : NSString := []

def kHTMLBreakLine : NSString := ns "<br>"

def kHTMLHorizotalLine : NSString := ns "<br>----------------<br>"

def Parsing.step (s : Parsing) (e : Xml.Event) : Parsing :=
  match s.place with
  | .page =>
    if isTag e (ns "body") .START_TAG then { s with place := .body }
    else if isTag e (ns "head") .START_TAG then { s with place := .head }
    else s
  | .body =>
    if isTag e (ns "body") .END_TAG then { s with place := .page }
    else { s with
        body_ := s.body_ ++ e.text ++ (if isTag e (ns "br") .START_TAG then kHTMLBreakLine
          else []) ++
          if isTag e (ns "hr") .START_TAG then kHTMLHorizotalLine else [] }
  | .head =>
    if isTag e (ns "head") .END_TAG then { s with place := .page }
    else if isTag e (ns "title") .START_TAG then { s with place := .title, title_ := [] }
    else s
  | .title => { s with place := .head, title_ := if e.type = .TEXT then e.text else [] }

def parsing (events : List Xml.Event) : Parsing := events.foldl Parsing.step {}

def defaultKeys : List NSString :=
  [ns "bbs", ns "key", ns "time", ns "FROM", ns "mail", ns "MESSAGE", ns "subject"]

def isHiddenInput (e : Xml.Event) : Bool :=
  isTag e (ns "input") .START_TAG && e.attributes.lookup (ns "type") == some (ns "hidden")

structure FormScan where
  inForm : Bool := false
  additionalFormData_ : List (NSString × NSString) := []

/-- The loops of `scanAdditionalFormsWithHTML:`. A `break` leaves the inner one. -/
def FormScan.step (s : FormScan) (e : Xml.Event) : FormScan :=
  if s.inForm then
    if isTag e (ns "form") .END_TAG then { s with inForm := false }
    else if isHiddenInput e then
      match e.attributes.lookup (ns "name") with
      | none => { s with inForm := false }
      | some value_ =>
        if defaultKeys.contains value_ then s
        else
          match e.attributes.lookup (ns "value") with
          | none => { s with inForm := false }
          | some value2_ =>
              { s with additionalFormData_ := s.additionalFormData_ ++ [(value_, value2_)] }
    else s
  else { s with inForm := isTag e (ns "form") .START_TAG }

section
variable (system : ErrorHandling)

def readPage (htmlContents : NSString) : Handling Page := fun handler =>
  match pageOf system.environment htmlFeatures htmlContents with
  | some page => .ok page handler
  | none => .timeout

/-- The title and the message; nothing when the parser raises its own exception, any other
one is raised again. -/
def parseHTMLContents (htmlContents : NSString) : Handling (Option (NSString × NSString)) := do
  let page ← readPage system htmlContents
  match page.raised with
  | none =>
    let body_ := (parsing page.events).body_
    let body_ := body_.replaceCharacters (ns "\n") [] NSLiteralSearch ⟨0, body_.length⟩
    let body_ := body_.replaceCharacters kHTMLBreakLine (ns "\n") NSLiteralSearch ⟨0, body_.length⟩
    pure (some ((parsing page.events).title_, body_))
  | some (.parser ..) => pure none
  | some e => raise e

def scanAdditionalFormsWithHTML (htmlContents : NSString) :
    Handling (Option (List (NSString × NSString))) := do
  let page ← readPage system htmlContents
  let data := (page.events.foldl FormScan.step {}).additionalFormData_
  match page.raised with
  | none | some (.parser ..) => pure (if data = [] then none else some data)
  | some e => raise e

def scan2ch_XCommentStringWithHTML (contents : NSString) : Option NSString :=
  let rest := (system.scanUpToString (ns "<!--") contents).2
  let rest := (system.scanString (ns "<!--") rest).2
  let rest := (system.scanString (ns "2ch_X") rest).2
  let rest := (system.scanString (ns ":") rest).2
  (system.scanCharactersFromSet system.environment.alphanumericCharacterSet rest).1

def isHTML (contents : NSString) : Bool := contents.tails.any (system.starts (ns "<html"))

def needsForms (code : ErrorType) : Bool :=
  code == .k2chContributionCheckErrorType || code == .k2chSPIDCookieErrorType

def takeForms (code : ErrorType) (contents : NSString) : Handling Unit :=
  if needsForms code then do
    let tmp_ ← scanAdditionalFormsWithHTML system contents
    modify fun handler =>
      { handler with additionalFormsData := tmp_.or handler.additionalFormsData }
  else pure ()

def handleHTML (contents : NSString) : Handling NSError := do
  let parsed ← parseHTMLContents system contents
  let (title_, message_) :=
    match parsed with
    | some (title_, message_) => (title_.stringByStriped, message_.stringByStriped)
    | none => ([], [])
  let code := integerForKey (some title_) .k2chUnknownErrorType
  let code :=
    if code = .k2chUnknownErrorType then
      integerForKey (scan2ch_XCommentStringWithHTML system contents) .k2chUnknownErrorType
    else code
  takeForms system code contents
  pure ⟨code, title_, message_⟩

/-- The branch for a text. A host with `jbbs` or `machi` answers with nothing. -/
def handleText (contents : NSString) : Handling NSError := do
  let handler ← get
  if handler.requestURL.host.any is_jbbs_shita || handler.requestURL.host.any is_machi then
    pure ⟨.k2chNoneErrorType, [], []⟩
  else if contents = [] then
    let text := system.localizedString (ns "k2chEmptyDataErrorType")
    pure ⟨.k2chEmptyDataErrorType, text, text⟩
  else pure ⟨.k2chUnknownErrorType, [], []⟩

def handleErrorWithContents (contents : NSString) : Handling NSError := do
  let error ← if isHTML system contents then handleHTML system contents
    else handleText system contents
  let error :=
    if error.code = .k2chUnknownErrorType then ⟨.k2chAnyErrorType, ns "ERROR", contents⟩ else error
  modify fun handler => { handler with recentError := some error }
  pure error

-- What the answer says

def opens (text : NSString) : Bool := (ns "<!--").isPrefixOf text

def closes (text : NSString) : Bool := (ns "-->").isPrefixOf text

def commentsIn : Nat → NSString → List NSString
  | 0, _ => []
  | n + 1, text =>
    let rest := (upTo opens text).2
    if rest = [] then []
    else (upTo closes (rest.drop 4)).1 :: commentsIn n ((upTo closes (rest.drop 4)).2.drop 3)

def comments (contents : NSString) : List NSString := commentsIn contents.length contents

def leadingWord (text : NSString) : Option NSString :=
  let word := (text.dropWhile isWhitespace).takeWhile system.environment.alphanumericCharacterSet
  if word = [] then none else some word

def markOf (comment : NSString) : Option NSString :=
  let text := comment.dropWhile isWhitespace
  if system.starts (ns "2ch_X:") text then leadingWord system (text.drop 6) else none

def markOfPage (contents : NSString) : Option NSString :=
  (comments contents).findSome? (markOf system)

def titleOf (page : Page) : NSString := (parsing page.events).title_.stringByStriped

def hiddenInput (e : Xml.Event) : Option (NSString × NSString) :=
  if isHiddenInput e then
    match e.attributes.lookup (ns "name"), e.attributes.lookup (ns "value") with
    | some name, some value => if defaultKeys.contains name then none else some (name, value)
    | _, _ => none
  else none

/-- The complete hidden inputs of the forms, but for those of a default key. -/
def hiddenInputs : Bool → List Xml.Event → List (NSString × NSString)
  | _, [] => []
  | inForm, e :: events =>
    if isTag e (ns "form") .START_TAG then hiddenInputs true events
    else if isTag e (ns "form") .END_TAG then hiddenInputs false events
    else (if inForm then (hiddenInput e).toList else []) ++ hiddenInputs inForm events

/-- The code of the title where the table has it, else that of the mark, else that of any error. -/
def rightCode (contents : NSString) (page : Page) : ErrorType :=
  match replyErrorCodeDictionary.lookup (titleOf page) with
  | some code => code
  | none => integerForKey (markOfPage system contents) .k2chAnyErrorType

structure Right (contents : NSString) (page : Page) (error : NSError)
    (handler : SG2chErrorHandler) : Prop where
  code : error.code = rightCode system contents page
  forms : needsForms error.code = true → ∀ name,
    objectForKey (handler.additionalFormsData.getD []) name = objectForKey
      (hiddenInputs false page.events) name

/-- The handler answers with the right code, and has the right data where they are needed. -/
def Classifies (handler : SG2chErrorHandler) (contents : NSString) : Prop :=
  ∃ page error handler', pageOf system.environment htmlFeatures contents = some page ∧
    handleErrorWithContents system contents handler = .ok error handler' ∧
    Right system contents page error handler'

-- When the handler is right

def pass (pattern text : NSString) : NSString :=
  let text := text.dropWhile isWhitespace
  if system.starts pattern text then text.drop pattern.length else text

/-- The first word of the first comment, `2ch_X` and a colon in front of it apart. -/
def firstWord (contents : NSString) : Option NSString :=
  (comments contents).head?.bind fun comment =>
    leadingWord system (pass system (ns ":") (pass system (ns "2ch_X") comment))

/-- A hidden input without a name, or of some other key without a value. -/
def isIncomplete (e : Xml.Event) : Bool :=
  isHiddenInput e &&
    match e.attributes.lookup (ns "name") with
    | none => true
    | some name => !defaultKeys.contains name && (e.attributes.lookup (ns "value")).isNone

/-- Where an input stands: outside of the forms, in one, or in one behind an incomplete input. -/
inductive Spot where
  | outside
  | inside
  | behind
  deriving DecidableEq

def Spot.next (spot : Spot) (e : Xml.Event) : Spot :=
  if isTag e (ns "form") .START_TAG then .inside
  else if isTag e (ns "form") .END_TAG then .outside
  else if isIncomplete e && spot == .inside then .behind
  else spot

def inputsAt (kind : Spot) : Spot → List Xml.Event → List (NSString × NSString)
  | _, [] => []
  | spot, e :: events => (if spot = kind then (hiddenInput e).toList
      else []) ++ inputsAt kind (spot.next e) events

/-- The data are those of the inputs that are taken, or the former ones where there are none. They
name for each input that is lost, and for each of the former data, the last value of the page. -/
def FormsHold (handler : SG2chErrorHandler) (events : List Xml.Event) : Prop :=
  let taken := inputsAt .inside .outside events
  let former := handler.additionalFormsData.getD []
  ∀ name, (name ∈ (inputsAt .behind .outside events).map Prod.fst ∨ taken = [] ∧
    name ∈ former.map Prod.fst) →
    objectForKey (if taken = [] then former else taken) name = objectForKey
      (hiddenInputs false events) name

/-- The title is known, or the first comment says what the mark says; and no input is lost for good.
A page that the parser refuses has to be any error. -/
def HoldsOn (handler : SG2chErrorHandler) (contents : NSString) (page : Page) : Prop :=
  match page.raised with
  | none =>
    ((replyErrorCodeDictionary.lookup (titleOf page)).isSome ∨
        integerForKey (firstWord system contents) .k2chAnyErrorType =
          integerForKey (markOfPage system contents) .k2chAnyErrorType) ∧
      (needsForms (rightCode system contents page) = true → FormsHold handler page.events)
  | some (.parser ..) => rightCode system contents page = .k2chAnyErrorType
  | some _ => False

def Holds (handler : SG2chErrorHandler) (contents : NSString) : Prop :=
  ∃ page, pageOf system.environment htmlFeatures contents = some page ∧
    HoldsOn system handler contents page

end

-- Titles

section
variable {s : Parsing} {e head title text : Xml.Event}
  {events before between after : List Xml.Event}
  {type : EventType}

theorem isTag_iff : isTag e tagName type = true ↔ e.type = type ∧ e.name = some tagName := by
  simp [isTag]

end

-- Inputs

section
variable {e : Xml.Event} {events : List Xml.Event} {type : EventType} {name : NSString}
  {spot : Spot}

theorem isHiddenInput_of_form (h : isTag e (ns "form") type = true) : isHiddenInput e = false := by
  have hinput : isTag e (ns "input") .START_TAG = false := by
    simp only [isTag, (isTag_iff.mp h).2]
    simp [ns]
  simp [isHiddenInput, hinput]

theorem hiddenInput_of_not (h : isHiddenInput e = false) : hiddenInput e = none := by
  simp [hiddenInput, h]

/-- A `break` is for an incomplete input, any other hidden one is taken unless its key is a
default one. -/
theorem step_inside (data : List (NSString × NSString))
    (hend : isTag e (ns "form") .END_TAG = false) :
    FormScan.step ⟨true, data⟩ e = ⟨!isIncomplete e, data ++ (hiddenInput e).toList⟩ := by
  unfold FormScan.step isIncomplete hiddenInput
  cases hhidden : isHiddenInput e with
  | false => simp [hend]
  | true =>
    cases hname : e.attributes.lookup (ns "name") with
    | none => simp [hend]
    | some value_ =>
      cases hdefault : defaultKeys.contains value_ with
      | true =>
        have hmem : value_ ∈ defaultKeys := by simpa using hdefault
        cases e.attributes.lookup (ns "value") <;> simp [hend, hmem]
      | false =>
        have hmem : value_ ∉ defaultKeys := by simpa using hdefault
        cases e.attributes.lookup (ns "value") <;> simp [hend, hmem]

theorem step_eq (spot : Spot) (data : List (NSString × NSString)) (e : Xml.Event) :
    FormScan.step ⟨spot == .inside, data⟩ e =
      ⟨spot.next e == .inside, data ++ if spot = .inside then (hiddenInput e).toList else []⟩ := by
  by_cases hspot : spot = .inside
  · subst hspot
    by_cases hend : isTag e (ns "form") .END_TAG = true
    · have hstart : isTag e (ns "form") .START_TAG = false := by simp [isTag, (isTag_iff.mp hend).1]
      simp [FormScan.step, Spot.next, hend, hstart, hiddenInput_of_not (isHiddenInput_of_form hend)]
    · have hend : isTag e (ns "form") .END_TAG = false := by simpa using hend
      have hspot : (Spot.next .inside e == .inside) = !isIncomplete e := by
        by_cases hstart : isTag e (ns "form") .START_TAG = true
        · simp [Spot.next, hstart, isIncomplete, isHiddenInput_of_form hstart]
        · cases hincomplete : isIncomplete e <;> simp [Spot.next, hstart, hend, hincomplete]
      rw [hspot, if_pos rfl]
      exact step_inside data hend
  · have hfalse : (spot == .inside) = false := by simpa using hspot
    have hnext : (spot.next e == .inside) = isTag e (ns "form") .START_TAG := by
      unfold Spot.next
      cases isTag e (ns "form") .START_TAG with
      | true => rfl
      | false => cases isTag e (ns "form") .END_TAG <;> simp [hfalse]
    rw [hnext, if_neg hspot, hfalse, List.append_nil]
    rfl

/-- The loops take the inputs inside of forms that no incomplete one stands in front of. -/
theorem foldl_step (spot : Spot) (data : List (NSString × NSString)) (events : List Xml.Event) :
    (events.foldl FormScan.step ⟨spot == .inside, data⟩).additionalFormData_ =
      data ++ inputsAt .inside spot events := by
  induction events generalizing spot data with
  | nil => simp [inputsAt]
  | cons e events ih => rw [List.foldl_cons, step_eq, ih, inputsAt, List.append_assoc]

theorem hiddenInputs_cons (spot : Spot) (e : Xml.Event) (events : List Xml.Event) :
    hiddenInputs (spot != .outside) (e :: events) =
      (if spot = .outside then [] else (hiddenInput e).toList) ++ hiddenInputs
      (spot.next e != .outside) events := by
  by_cases hstart : isTag e (ns "form") .START_TAG = true
  · simp [hiddenInputs, Spot.next, hstart, hiddenInput_of_not (isHiddenInput_of_form hstart)]
    rfl
  · by_cases hend : isTag e (ns "form") .END_TAG = true
    · simp [hiddenInputs, Spot.next, hstart, hend, hiddenInput_of_not (isHiddenInput_of_form hend)]
    · have hnext : (spot.next e != .outside) = (spot != .outside) := by
        rw [Spot.next, if_neg hstart, if_neg hend]
        split
        · rename_i hbehind
          rw [Bool.and_eq_true, beq_iff_eq] at hbehind
          rw [hbehind.2]
          rfl
        · rfl
      rw [hnext, hiddenInputs, if_neg hstart, if_neg hend]
      cases spot <;> rfl

theorem objectForKey_append (params params' : List (NSString × NSString)) (key : NSString) :
    objectForKey (params ++ params') key = (objectForKey params' key).or
      (objectForKey params key) := by
  unfold objectForKey
  rw [List.reverse_append, List.lookup_append]

theorem objectForKey_eq_none {params : List (NSString × NSString)}
    (h : name ∉ params.map Prod.fst) :
    objectForKey params name = none := by
  unfold objectForKey
  rw [List.lookup_eq_none_iff]
  intro p hp
  rw [bne_iff_ne]
  rintro rfl
  exact h (List.mem_map_of_mem (List.mem_reverse.mp hp))

theorem objectForKey_taken (spot : Spot) (h : name ∉ (inputsAt .behind spot events).map Prod.fst) :
    objectForKey (inputsAt .inside spot events) name = objectForKey
      (hiddenInputs (spot != .outside) events) name := by
  induction events generalizing spot with
  | nil => rfl
  | cons e events ih =>
    rw [inputsAt, List.map_append, List.mem_append, not_or] at h
    rw [hiddenInputs_cons, inputsAt, objectForKey_append, objectForKey_append, ih _ h.2]
    cases spot with
    | outside => rfl
    | inside => rfl
    | behind =>
      have hnone : objectForKey (hiddenInput e).toList name = none := objectForKey_eq_none h.1
      show _ = (objectForKey _ name).or (objectForKey (hiddenInput e).toList name)
      rw [hnone]
      rfl

theorem formsHold_iff {handler : SG2chErrorHandler} : FormsHold handler events ↔ ∀ name,
    objectForKey (if inputsAt .inside .outside events = [] then handler.additionalFormsData.getD []
        else inputsAt .inside .outside events) name =
          objectForKey (hiddenInputs false events) name := by
  constructor
  · intro h name
    by_cases hname : name ∈ (inputsAt .behind .outside events).map Prod.fst ∨
        inputsAt .inside .outside events = [] ∧
        name ∈ (handler.additionalFormsData.getD []).map Prod.fst
    · exact h name hname
    · obtain ⟨hlost, hformer⟩ := not_or.mp hname
      have htaken : objectForKey (inputsAt .inside .outside events) name = _ :=
        objectForKey_taken .outside hlost
      split
      · rename_i hnil
        rw [objectForKey_eq_none fun hmem => hformer ⟨hnil, hmem⟩]
        rw [hnil] at htaken
        exact htaken
      · exact htaken
  · intro h name _
    exact h name

end

-- Comments

section
variable {system : ErrorHandling}

theorem leadingWord_congr (h : s.dropWhile isWhitespace = s'.dropWhile isWhitespace) :
    leadingWord system s = leadingWord system s' := by
  unfold leadingWord
  rw [h]

/-- Whatever a scan that fails leaves unread, the next thing is looked for in the same place. -/
theorem dropWhile_scanString (pattern : NSString)
    (h : s.dropWhile isWhitespace = s'.dropWhile isWhitespace) :
    (system.scanString pattern s).2.dropWhile isWhitespace =
      (pass system pattern s').dropWhile isWhitespace := by
  unfold Scanning.scanString pass
  rw [h]
  dsimp only
  split
  · rfl
  · rw [Scanning.dropWhile_failed, h, List.dropWhile_idempotent]

theorem scanCharactersFromSet_eq (rest : NSString) :
    (system.scanCharactersFromSet system.environment.alphanumericCharacterSet rest).1 =
      leadingWord system rest := by
  unfold Scanning.scanCharactersFromSet leadingWord
  dsimp only
  split <;> rfl

theorem dropWhile_append_hyphen (comment rest : NSString) :
    (comment ++ uc '-' :: rest).dropWhile isWhitespace = comment.dropWhile isWhitespace ++
      uc '-' :: rest := by
  have hhyphen : isWhitespace (uc '-') = false := by decide
  rw [List.dropWhile_append]
  split
  · rename_i hnil
    rw [List.isEmpty_iff.mp hnil, List.dropWhile_cons_of_neg (by simp [hhyphen]), List.nil_append]
  · rfl

theorem pass_append {pattern : NSString} (h : uc '-' ∉ pattern) (comment rest : NSString) :
    pass system pattern (comment ++ uc '-' :: rest) = pass system pattern comment ++
      uc '-' :: rest := by
  have hfold : ∀ d ∈ pattern, system.fold (uc '-') ≠ system.fold d := by
    intro d hd heq
    rw [← system.fold_markup d (uc '-') (by decide) heq.symm] at h
    exact h hd
  unfold pass
  dsimp only
  rw [dropWhile_append_hyphen, Scanning.starts_append hfold]
  split
  · rename_i hstarts
    exact List.drop_append_of_le_length (Scanning.length_le_of_starts hstarts)
  · rfl

theorem leadingWord_append (comment rest : NSString) :
    leadingWord system (comment ++ uc '-' :: rest) = leadingWord system comment := by
  have hword (text : NSString) :
    (text ++ uc '-' :: rest).takeWhile system.environment.alphanumericCharacterSet =
      text.takeWhile system.environment.alphanumericCharacterSet := by
    rw [List.takeWhile_append, List.takeWhile_cons_of_neg (by simp [system.alphanumeric_hyphen]),
      List.append_nil]
    split
    · rename_i hall
      exact ((List.takeWhile_prefix _).eq_of_length hall).symm
    · rfl
  unfold leadingWord
  rw [dropWhile_append_hyphen, hword]

theorem starts_comment (system : ErrorHandling) : system.starts (ns "<!--") = opens := by
  funext text
  apply Scanning.starts_caseless
  intro c d hd
  have hall : (ns "<!--").all (ns "<!->").contains = true := by decide
  exact system.fold_markup c d (List.contains_iff_mem.mp (List.all_eq_true.mp hall d hd))

theorem scan_eq (contents : NSString) : scan2ch_XCommentStringWithHTML system contents =
    leadingWord system (pass system (ns ":") (pass system (ns "2ch_X")
      (pass system (ns "<!--") (system.scanUpToString (ns "<!--") contents).2))) := by
  unfold scan2ch_XCommentStringWithHTML
  dsimp only
  rw [scanCharactersFromSet_eq]
  apply leadingWord_congr
  apply dropWhile_scanString
  apply dropWhile_scanString
  apply dropWhile_scanString
  rfl

theorem upTo_dropWhile {stop : NSString → Bool} (h : ∀ c text, isWhitespace c = true →
    stop (c :: text) = false)
    (s : NSString) : (upTo stop (s.dropWhile isWhitespace)).2 = (upTo stop s).2 := by
  induction s with
  | nil => rfl
  | cons c s ih =>
    cases hc : isWhitespace c with
    | false => rw [List.dropWhile_cons_of_neg (by simp [hc])]
    | true => rw [List.dropWhile_cons_of_pos hc, ih, upTo, h c s hc, if_neg Bool.false_ne_true]

theorem dropWhile_scanUpToString (contents : NSString) :
    (system.scanUpToString (ns "<!--") contents).2.dropWhile isWhitespace =
      (upTo (system.starts (ns "<!--")) contents).2 := by
  have hless : isWhitespace (uc '<') = false := by decide
  have hrest : (upTo (system.starts (ns "<!--")) (contents.dropWhile isWhitespace)).2 =
      (upTo (system.starts (ns "<!--")) contents).2 := by
    apply upTo_dropWhile
    intro c text hc
    cases hstarts : system.starts (ns "<!--") (c :: text) with
    | false => rfl
    | true =>
      have hdrop := Scanning.dropWhile_of_starts hstarts hless
      rw [List.dropWhile_cons_of_pos hc] at hdrop
      have hlength := (List.dropWhile_suffix isWhitespace (l := text)).length_le
      rw [hdrop] at hlength
      exact absurd hlength (Nat.not_succ_le_self _)
  unfold Scanning.scanUpToString
  dsimp only
  split
  · rename_i hnil
    have hall := upTo_append (system.starts (ns "<!--")) (contents.dropWhile isWhitespace)
    rw [hnil, List.nil_append, hrest] at hall
    rw [Scanning.dropWhile_failed, hall]
  · rw [hrest]
    by_cases hempty : (upTo (system.starts (ns "<!--")) contents).2 = []
    · rw [hempty, List.dropWhile_nil]
    · exact Scanning.dropWhile_of_starts (stop_upTo _ _ hempty) hless

theorem pass_comment (contents : NSString) :
    pass system (ns "<!--") (system.scanUpToString (ns "<!--") contents).2 =
      (upTo opens contents).2.drop 4 := by
  rw [← starts_comment system]
  unfold pass
  dsimp only
  rw [dropWhile_scanUpToString]
  by_cases hempty : (upTo (system.starts (ns "<!--")) contents).2 = []
  · rw [hempty]
    rfl
  · rw [if_pos (stop_upTo _ _ hempty)]
    rfl

theorem length_upTo_le (stop : NSString → Bool) (s : NSString) :
    (upTo stop s).2.length ≤ s.length := by
  conv_rhs => rw [← upTo_append stop s]
  simp

theorem commentsIn_nil (n : Nat) : commentsIn n [] = [] := by
  cases n <;> rfl

theorem commentsIn_eq {text : NSString} {n n' : Nat} (h : text.length ≤ n) (h' : text.length ≤ n') :
    commentsIn n text = commentsIn n' text := by
  induction n generalizing text n' with
  | zero => rw [List.length_eq_zero_iff.mp (Nat.le_zero.mp h), commentsIn_nil, commentsIn_nil]
  | succ n ih =>
    cases n' with
    | zero => rw [List.length_eq_zero_iff.mp (Nat.le_zero.mp h'), commentsIn_nil, commentsIn_nil]
    | succ n' =>
      have hrest := length_upTo_le opens text
      have hbehind := length_upTo_le closes ((upTo opens text).2.drop 4)
      rw [List.length_drop] at hbehind
      have hlength (hne : (upTo opens text).2 ≠ []) {n : Nat} (h : text.length ≤ n + 1) :
          ((upTo closes ((upTo opens text).2.drop 4)).2.drop 3).length ≤ n := by
        have hpos := List.length_pos_iff.mpr hne
        rw [List.length_drop]
        omega
      unfold commentsIn
      dsimp only
      split
      · rfl
      · rename_i hne
        rw [ih (hlength hne h) (hlength hne h')]

theorem comments_eq (contents : NSString) : comments contents =
    if (upTo opens contents).2 = [] then []
    else (upTo closes ((upTo opens contents).2.drop 4)).1 ::
      comments ((upTo closes ((upTo opens contents).2.drop 4)).2.drop 3) := by
  have hmore := commentsIn_eq (Nat.le_refl contents.length) (Nat.le_succ contents.length)
  have hrest := length_upTo_le opens contents
  have hbehind := length_upTo_le closes ((upTo opens contents).2.drop 4)
  rw [List.length_drop] at hbehind
  unfold comments
  rw [hmore, commentsIn]
  split
  · rfl
  · rw [commentsIn_eq _ (Nat.le_refl _)]
    rw [List.length_drop]
    omega

theorem leadingWord_comment (text : NSString) :
    leadingWord system (pass system (ns ":") (pass system (ns "2ch_X") text)) =
      leadingWord system (pass system (ns ":") (pass system (ns "2ch_X")
        (upTo closes text).1)) := by
  have happend := upTo_append closes text
  have hstop := stop_upTo closes text
  cases hbehind : (upTo closes text).2 with
  | nil =>
    rw [hbehind, List.append_nil] at happend
    rw [happend]
  | cons c rest =>
    rw [hbehind] at happend hstop
    have hc : c = uc '-' := by
      have hmarks : ns "-->" = [uc '-', uc '-', uc '>'] := rfl
      have hfirst := hstop (List.cons_ne_nil c rest)
      rw [closes, hmarks, List.isPrefixOf_cons_cons, Bool.and_eq_true, beq_iff_eq] at hfirst
      exact hfirst.1.symm
    subst hc
    conv_lhs => rw [← happend]
    rw [pass_append (by decide), pass_append (by decide), leadingWord_append]

theorem scan2ch_XCommentStringWithHTML_eq (contents : NSString) :
    scan2ch_XCommentStringWithHTML system contents = firstWord system contents := by
  rw [scan_eq, pass_comment]
  unfold firstWord
  by_cases hempty : (upTo opens contents).2 = []
  · rw [comments_eq, if_pos hempty, hempty]
    rfl
  · rw [comments_eq, if_neg hempty, List.head?_cons, Option.bind_some]
    exact leadingWord_comment _

end

-- The answer

section
variable {system : ErrorHandling} {contents : NSString} {page : Page}
  {handler handler' : SG2chErrorHandler}
  {error : NSError}

theorem ne_unknown_of_lookup {key : NSString}
    (h : replyErrorCodeDictionary.lookup key = some code) :
    code ≠ .k2chUnknownErrorType := by
  have hall : ∀ p ∈ replyErrorCodeDictionary, p.2 ≠ .k2chUnknownErrorType := by decide
  obtain ⟨front, back, hsplit, -⟩ := List.lookup_eq_some_iff.mp h
  exact hall (key, code) (by simp [hsplit])

theorem integerForKey_any (key : Option NSString) :
    (if integerForKey key .k2chUnknownErrorType = .k2chUnknownErrorType then .k2chAnyErrorType
      else integerForKey key .k2chUnknownErrorType) = integerForKey key .k2chAnyErrorType := by
  unfold integerForKey
  cases hkey : key.bind fun key => replyErrorCodeDictionary.lookup key with
  | none => rfl
  | some code =>
    obtain ⟨key, -, hlookup⟩ := Option.bind_eq_some_iff.mp hkey
    exact if_neg (ne_unknown_of_lookup hlookup)

theorem readPage_eq (h : pageOf system.environment htmlFeatures contents = some page) :
    readPage system contents handler = .ok page handler := by
  unfold readPage
  rw [h]

theorem parseHTMLContents_eq (h : pageOf system.environment htmlFeatures contents = some page)
    (hraised : page.raised = none) : ∃ message_,
      parseHTMLContents system contents handler =
        .ok (some ((parsing page.events).title_, message_)) handler := by
  unfold parseHTMLContents
  rw [bind_of_ok (readPage_eq h), hraised]
  exact ⟨_, rfl⟩

theorem scanAdditionalFormsWithHTML_eq
    (h : pageOf system.environment htmlFeatures contents = some page)
    (hraised : page.raised = none) : scanAdditionalFormsWithHTML system contents handler =
      .ok (if inputsAt .inside .outside page.events = [] then none
        else some (inputsAt .inside .outside page.events)) handler := by
  have hdata : (page.events.foldl FormScan.step {}).additionalFormData_ =
    inputsAt .inside .outside page.events :=
    foldl_step .outside [] page.events
  unfold scanAdditionalFormsWithHTML
  rw [bind_of_ok (readPage_eq h), hraised]
  dsimp only
  rw [hdata]
  rfl

def foundCode (system : ErrorHandling) (contents title_ : NSString) : ErrorType :=
  let code := integerForKey (some title_) .k2chUnknownErrorType
  if code = .k2chUnknownErrorType then
    integerForKey (scan2ch_XCommentStringWithHTML system contents) .k2chUnknownErrorType
  else code

def withForms (handler : SG2chErrorHandler) (events : List Xml.Event) : SG2chErrorHandler :=
  { handler with
    additionalFormsData :=
      (if inputsAt .inside .outside events = [] then none
        else some (inputsAt .inside .outside events)).or
        handler.additionalFormsData }

theorem takeForms_eq (h : pageOf system.environment htmlFeatures contents = some page)
    (hraised : page.raised = none) (code : ErrorType) : takeForms system code contents handler =
      .ok () (if needsForms code then withForms handler page.events else handler) := by
  unfold takeForms
  split
  · rw [bind_of_ok (scanAdditionalFormsWithHTML_eq h hraised)]
    rfl
  · rfl

variable (handler) in
theorem handleHTML_eq (h : pageOf system.environment htmlFeatures contents = some page)
    (hraised : page.raised = none) : ∃ message_, handleHTML system contents handler =
      .ok ⟨foundCode system contents (titleOf page), titleOf page, message_⟩
        (if needsForms (foundCode system contents (titleOf page)) then withForms handler page.events
          else handler) := by
  obtain ⟨message_, hparse⟩ := parseHTMLContents_eq h hraised
  refine ⟨message_.stringByStriped, ?_⟩
  unfold handleHTML
  rw [bind_of_ok hparse]
  exact bind_of_ok (takeForms_eq h hraised (foundCode system contents (titleOf page)))

def answeredCode (system : ErrorHandling) (contents : NSString) (page : Page) : ErrorType :=
  match replyErrorCodeDictionary.lookup (titleOf page) with
  | some code => code
  | none => integerForKey (firstWord system contents) .k2chAnyErrorType

theorem integerForKey_title (title_ : NSString) (defaultValue : ErrorType) :
    integerForKey (some title_) defaultValue =
      (replyErrorCodeDictionary.lookup title_).getD defaultValue := rfl

theorem foundCode_known (h : replyErrorCodeDictionary.lookup (titleOf page) = some code) :
    foundCode system contents (titleOf page) = code := by
  unfold foundCode
  rw [integerForKey_title, h]
  exact if_neg (ne_unknown_of_lookup h)

theorem foundCode_unknown (h : replyErrorCodeDictionary.lookup (titleOf page) = none) :
    foundCode system contents (titleOf page) = integerForKey
      (firstWord system contents) .k2chUnknownErrorType := by
  unfold foundCode
  rw [integerForKey_title, h, scan2ch_XCommentStringWithHTML_eq]
  exact if_pos rfl

theorem any_of_foundCode : (if foundCode system contents (titleOf page) = .k2chUnknownErrorType
    then .k2chAnyErrorType
    else foundCode system contents (titleOf page)) = answeredCode system contents page := by
  unfold answeredCode
  cases hlookup : replyErrorCodeDictionary.lookup (titleOf page) with
  | none =>
    rw [foundCode_unknown hlookup]
    exact integerForKey_any _
  | some code =>
    rw [foundCode_known hlookup]
    exact if_neg (ne_unknown_of_lookup hlookup)

theorem needsForms_foundCode :
    needsForms (foundCode system contents (titleOf page)) =
      needsForms (answeredCode system contents page) := by
  rw [← any_of_foundCode]
  split
  · rename_i hunknown
    rw [hunknown]
    rfl
  · rfl

variable (handler) in
theorem handleErrorWithContents_eq (hhtml : isHTML system contents = true)
    (h : pageOf system.environment htmlFeatures contents = some page)
    (hraised : page.raised = none) :
    ∃ error handler', handleErrorWithContents system contents handler = .ok error handler' ∧
      error.code = answeredCode system contents page ∧
      handler'.additionalFormsData = (if needsForms (answeredCode system contents page) then
        withForms handler page.events else handler).additionalFormsData := by
  obtain ⟨message_, hhandle⟩ := handleHTML_eq handler h hraised
  rw [needsForms_foundCode] at hhandle
  unfold handleErrorWithContents
  rw [if_pos hhtml, bind_of_ok hhandle]
  refine ⟨_, _, rfl, ?_, rfl⟩
  rw [← any_of_foundCode]
  dsimp only
  split <;> rfl

variable (handler) in
/-- A page that the parser refuses has no title for the handler, which is any error. -/
theorem handleErrorWithContents_refused (hhtml : isHTML system contents = true)
    (h : pageOf system.environment htmlFeatures contents = some page)
    (hraised : page.raised = some (.parser line column reason)) :
    ∃ error handler', handleErrorWithContents system contents handler = .ok error handler' ∧
      error.code = .k2chAnyErrorType := by
  have hparse : parseHTMLContents system contents handler = .ok none handler := by
    unfold parseHTMLContents
    rw [bind_of_ok (readPage_eq h), hraised]
    rfl
  have hhandle : handleHTML system contents handler = .ok ⟨.k2chAnyErrorType, [], []⟩ handler := by
    unfold handleHTML
    rw [bind_of_ok hparse]
    rfl
  unfold handleErrorWithContents
  rw [if_pos hhtml, bind_of_ok hhandle]
  exact ⟨_, _, rfl, rfl⟩

theorem handleErrorWithContents_raised (hhtml : isHTML system contents = true)
    (h : pageOf system.environment htmlFeatures contents = some page)
    (hraised : page.raised = some e)
    (he : ∀ line column reason, e ≠ .parser line column reason) :
    handleErrorWithContents system contents handler = .raised e := by
  have hparse : parseHTMLContents system contents handler = .raised e := by
    unfold parseHTMLContents
    rw [bind_of_ok (readPage_eq h), hraised]
    cases e with
    | parser line column reason => exact absurd rfl (he line column reason)
    | _ => rfl
  unfold handleErrorWithContents
  rw [if_pos hhtml]
  apply bind_of_raised
  unfold handleHTML
  exact bind_of_raised hparse

theorem getD_withForms : (withForms handler events).additionalFormsData.getD [] =
    if inputsAt .inside .outside events = [] then handler.additionalFormsData.getD []
    else inputsAt .inside .outside events := by
  unfold withForms
  split <;> simp

theorem answeredCode_eq_iff : answeredCode system contents page = rightCode system contents page ↔
    (replyErrorCodeDictionary.lookup (titleOf page)).isSome ∨
      integerForKey (firstWord system contents) .k2chAnyErrorType =
        integerForKey (markOfPage system contents) .k2chAnyErrorType := by
  unfold answeredCode rightCode
  cases replyErrorCodeDictionary.lookup (titleOf page) with
  | none => simp
  | some code => simp

theorem right_iff_whole (hcode : error.code = answeredCode system contents page)
    (hforms : handler'.additionalFormsData = (if needsForms (answeredCode system contents page) then
      withForms handler page.events else handler).additionalFormsData)
        (hraised : page.raised = none) :
    Right system contents page error handler' ↔ HoldsOn system handler contents page := by
  unfold HoldsOn
  rw [hraised]
  dsimp only
  rw [← answeredCode_eq_iff, formsHold_iff, ← getD_withForms]
  constructor
  · intro hright
    have heq : answeredCode system contents page = rightCode system contents page :=
      hcode ▸ hright.code
    refine ⟨heq, fun hneeds => ?_⟩
    rw [heq, if_pos hneeds] at hforms
    rw [← hforms]
    exact hright.forms (by rw [hright.code]; exact hneeds)
  · rintro ⟨heq, hdata⟩
    refine ⟨hcode.trans heq, fun hneeds => ?_⟩
    rw [hcode] at hneeds
    rw [hforms, if_pos hneeds]
    exact hdata (heq ▸ hneeds)

variable (handler') in
theorem right_iff_refused (hcode : error.code = .k2chAnyErrorType)
    (hraised : page.raised = some (.parser line column reason)) :
    Right system contents page error handler' ↔ HoldsOn system handler contents page := by
  unfold HoldsOn
  rw [hraised]
  constructor
  · intro hright
    exact hright.code ▸ hcode
  · intro hright
    refine ⟨hcode.trans hright.symm, fun hneeds => ?_⟩
    rw [hcode] at hneeds
    cases hneeds

theorem right_page_iff (hhtml : isHTML system contents = true)
    (h : pageOf system.environment htmlFeatures contents = some page) :
    (∃ error handler', handleErrorWithContents system contents handler = .ok error handler' ∧
      Right system contents page error handler') ↔ HoldsOn system handler contents page := by
  cases hraised : page.raised with
  | none =>
    obtain ⟨error, handler', hhandle, hcode, hforms⟩ :=
      handleErrorWithContents_eq handler hhtml h hraised
    rw [← right_iff_whole hcode hforms hraised, hhandle]
    constructor
    · rintro ⟨_, _, heq, hright⟩
      cases heq
      exact hright
    · intro hright
      exact ⟨error, handler', rfl, hright⟩
  | some e =>
    cases e with
    | parser line column reason =>
      obtain ⟨error, handler', hhandle, hcode⟩ :=
        handleErrorWithContents_refused handler hhtml h hraised
      rw [← right_iff_refused handler' hcode hraised, hhandle]
      constructor
      · rintro ⟨_, _, heq, hright⟩
        cases heq
        exact hright
      · intro hright
        exact ⟨error, handler', rfl, hright⟩
    | _ =>
      rw [handleErrorWithContents_raised hhtml h hraised nofun, HoldsOn, hraised]
      exact ⟨fun ⟨_, _, heq, _⟩ => (nomatch heq), False.elim⟩

end

structure HTMLResponse (system : ErrorHandling) where
  contents : NSString
  isHTML : isHTML system contents = true

/-- The handler answers a page with the right code, and has the right data, exactly where the
parser comes to the end of the page and the first comment and the inputs leave nothing out. -/
theorem classifies_iff (system : ErrorHandling) (handler : SG2chErrorHandler)
    (response : HTMLResponse system) :
    Classifies system handler response.contents ↔ Holds system handler response.contents := by
  constructor
  · rintro ⟨page, error, handler', hpage, hright⟩
    exact ⟨page, hpage, (right_page_iff response.isHTML hpage).mp ⟨error, handler', hright⟩⟩
  · rintro ⟨page, hpage, hholds⟩
    obtain ⟨error, handler', hright⟩ := (right_page_iff response.isHTML hpage).mpr hholds
    exact ⟨page, error, handler', hpage, hright⟩

theorem fold_markup_ascii (c d : UniChar) (hd : d ∈ ns "<!->")
    (h : asciiScanning.fold c = asciiScanning.fold d) : c = d := by
  have hall : (ns "<!->").all (fun d => d.toNat < 65) = true := by decide
  have hlt : d.toNat < 65 := of_decide_eq_true (List.all_eq_true.mp hall d hd)
  have ha : (uc 'A').toNat = 65 := rfl
  have hz : (uc 'Z').toNat = 90 := rfl
  have hplain : ¬ (uc 'A' ≤ d ∧ d ≤ uc 'Z') := by
    rintro ⟨hle, -⟩
    have hle := UInt16.le_iff_toNat_le.mp hle
    omega
  unfold asciiScanning at h
  simp only [if_neg hplain] at h
  split at h
  · rename_i hc
    have hA := UInt16.le_iff_toNat_le.mp hc.1
    have hZ := UInt16.le_iff_toNat_le.mp hc.2
    have hsum := congrArg UInt16.toNat h
    rw [UInt16.toNat_add, show (32 : UniChar).toNat = 32 from rfl] at hsum
    omega
  · exact h

def asciiHandling : ErrorHandling where
  toScanning := asciiScanning
  environment := asciiEnvironment
  localizedString := id
  fold_markup := fold_markup_ascii
  alphanumeric_hyphen := rfl

def markedPage : HTMLResponse asciiHandling where
  contents := ns "<html><head><title>x</title><!--a--><!--2ch_X:check-->"
  isHTML := by decide

def newHandler : SG2chErrorHandler where
  requestURL := ⟨ns "http", some (ns "anchorage.2ch.net"), [ns "test", ns "bbs.cgi"], false, none⟩

/-- The handler answers with the code of any error, and not with that of the mark. -/
theorem not_classifies_marked : ¬ ∀ system handler, ∀ response : HTMLResponse system,
    Classifies system handler response.contents := by
  intro h
  obtain ⟨page, error, handler', hpage, hright⟩ := h asciiHandling newHandler markedPage
  have hholds := (right_page_iff markedPage.isHTML hpage).mp ⟨error, handler', hright⟩
  have hread : (pageOf asciiEnvironment htmlFeatures markedPage.contents).map
      (fun page => (titleOf page, page.raised.isNone)) = some (ns "x", true) := by decide +kernel
  have hpage : pageOf asciiEnvironment htmlFeatures markedPage.contents = some page := hpage
  rw [hpage, Option.map_some, Option.some_inj, Prod.mk.injEq, Option.isNone_iff_eq_none] at hread
  rw [HoldsOn, hread.2] at hholds
  obtain hknown | hsame := hholds.1
  · rw [hread.1] at hknown
    exact absurd hknown (by decide +kernel)
  · exact absurd hsame (by decide +kernel)

end BathyScaphe.Reply
