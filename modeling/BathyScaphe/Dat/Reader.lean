import BathyScaphe.Dat.TextParser

/-!
# Reading a DAT

`CMR2chDATReader` goes through the lines of a DAT and numbers the messages it
makes of them. A line that gives no message is passed over without a number.
Besides the blank lines, for which this is meant, these are the lines without a
separator and the short lines with nothing but separators.
-/

namespace BathyScaphe.Dat

open NSString

def NSNotFound : UInt32 := 0x7fffffff

structure CMR2chDATReader where
  lineArray : List NSString
  lineEnumerator : List NSString
  nextMessageIndex : UInt32

namespace CMR2chDATReader

variable (env : TextServices)

def initWithContents (contents : NSString) : CMR2chDATReader where
  lineArray := contents.componentsSeparatedByNewline
  lineEnumerator := contents.componentsSeparatedByNewline
  nextMessageIndex := NSNotFound

def setNextMessageIndex (reader : CMR2chDATReader) (n : UInt32) : CMR2chDATReader :=
  { reader with nextMessageIndex := n }

/-- The message of a line, converted when the line is not in the form of a DAT. -/
def messageOfLine (line : NSString) : Option CMRThreadMessage :=
  match messageWithDATLine env line with
  | some m => some m
  | none => if 0 < line.length then messageWithInvalidDATLineDetected line else none

/-- A line without a message is skipped: the next line is tried instead. -/
def nextMessageOfLines (index : UInt32) : List NSString → Option (CMRThreadMessage × List NSString)
  | [] => none
  | line :: lines =>
    match messageOfLine env line with
    | none => nextMessageOfLines index lines
    | some m => some ({ m with index := index }, lines)

/-- `none` is the answer `NO` at the end of the lines; otherwise the message
that goes to the composer. -/
def composeNextMessageWithComposer (reader : CMR2chDATReader) :
    Option (CMRThreadMessage × CMR2chDATReader) :=
  (nextMessageOfLines env reader.nextMessageIndex reader.lineEnumerator).map fun (m, lines) =>
    (m, { reader with
      lineEnumerator := lines
      nextMessageIndex := reader.nextMessageIndex + 1 })

variable {env}

theorem length_of_nextMessageOfLines (h : nextMessageOfLines env index lines = some (m, rest)) :
    rest.length < lines.length := by
  induction lines with
  | nil => cases h
  | cons line lines ih =>
    rw [nextMessageOfLines] at h
    cases hm : messageOfLine env line with
    | none =>
      rw [hm] at h
      exact Nat.lt_succ_of_lt (ih h)
    | some m' =>
      rw [hm] at h
      cases h
      exact Nat.lt_succ_self _

theorem composeNextMessageWithComposer_length
    (h : composeNextMessageWithComposer env reader = some (m, reader')) :
    reader'.lineEnumerator.length < reader.lineEnumerator.length := by
  rw [composeNextMessageWithComposer, Option.map_eq_some_iff] at h
  obtain ⟨⟨m', rest⟩, hnext, heq⟩ := h
  cases heq
  exact length_of_nextMessageOfLines hnext

variable (env)

/-- The messages the composer is given until the reader answers `NO`. -/
def composeWithComposer (reader : CMR2chDATReader) : List CMRThreadMessage :=
  match _h : composeNextMessageWithComposer env reader with
  | none => []
  | some (m, reader') => m :: composeWithComposer reader'
termination_by reader.lineEnumerator.length
decreasing_by exact composeNextMessageWithComposer_length _h

-- Attributes of the thread

def threadTitle (reader : CMR2chDATReader) : Option NSString :=
  match reader.lineArray.filterMap separatedLine with
  | [] => none
  | components :: _ =>
    if components.length = k2chDATTitleIndex + 1 then
      components[k2chDATTitleIndex]?.map
        (stringByReplaceEntityReference env.stringForEntityReference)
    else none

def firstLineDate (lines : List NSString) : Option Int :=
  let messages := lines.filterMap (messageWithDATLine env)
  match messages.find? fun m => !m.flagAt ABONED_FLAG with
  | none => none
  | some m =>
    match m.date with
    | some (.date t) => some t
    | _ => none

def firstMessageDate (reader : CMR2chDATReader) : Option Int :=
  firstLineDate env reader.lineArray

def lastMessageDate (reader : CMR2chDATReader) : Option Int :=
  firstLineDate env reader.lineArray.reverse

-- Numbering

def numberFrom : UInt32 → List CMRThreadMessage → List CMRThreadMessage
  | _, [] => []
  | n, m :: ms => { m with index := n } :: numberFrom (n + 1) ms

variable {env}

@[simp] theorem length_numberFrom : (numberFrom n ms).length = ms.length := by
  induction ms generalizing n with
  | nil => rfl
  | cons m ms ih => rw [numberFrom, List.length_cons, ih, List.length_cons]

theorem composeWithComposer_of_none {reader : CMR2chDATReader}
    (h : composeNextMessageWithComposer env reader = none) :
    composeWithComposer env reader = [] := by
  rw [composeWithComposer]
  split
  · rfl
  · rename_i h'
    rw [h] at h'
    cases h'

theorem composeWithComposer_of_some {reader : CMR2chDATReader}
    (h : composeNextMessageWithComposer env reader = some (m, reader')) :
    composeWithComposer env reader = m :: composeWithComposer env reader' := by
  rw [composeWithComposer]
  split
  · rename_i h'
    rw [h] at h'
    cases h'
  · rename_i h'
    rw [h] at h'
    cases h'
    rfl

theorem composeWithComposer_eq (reader : CMR2chDATReader) :
    composeWithComposer env reader =
      numberFrom reader.nextMessageIndex (reader.lineEnumerator.filterMap (messageOfLine env)) := by
  obtain ⟨lineArray, lines, n⟩ := reader
  simp only
  induction lines generalizing n with
  | nil => exact composeWithComposer_of_none rfl
  | cons line lines ih =>
    cases hm : messageOfLine env line with
    | none =>
      -- the composer cannot tell the skipped line from no line
      have hsame : composeNextMessageWithComposer env ⟨lineArray, line :: lines, n⟩ =
          composeNextMessageWithComposer env ⟨lineArray, lines, n⟩ := by
        simp only [composeNextMessageWithComposer, nextMessageOfLines, hm]
      rw [List.filterMap_cons_none hm, ← ih]
      cases hnext : composeNextMessageWithComposer env ⟨lineArray, lines, n⟩ with
      | none => rw [composeWithComposer_of_none (hsame.trans hnext),
          composeWithComposer_of_none hnext]
      | some next =>
        obtain ⟨m, reader'⟩ := next
        rw [composeWithComposer_of_some (hsame.trans hnext), composeWithComposer_of_some hnext]
    | some m =>
      have hnext : composeNextMessageWithComposer env ⟨lineArray, line :: lines, n⟩ =
          some ({ m with index := n }, ⟨lineArray, lines, n + 1⟩) := by
        simp only [composeNextMessageWithComposer, nextMessageOfLines, hm, Option.map_some]
      rw [composeWithComposer_of_some hnext, ih, List.filterMap_cons_some hm, numberFrom]

-- One message for each line

theorem not_hasMessage_of_isBlank (h : IsBlank line) : ¬ HasMessage line := by
  have hno : ∀ {pattern : NSString}, ¬ IsBlank pattern → ¬ pattern <:+: line :=
    fun hp hcontains => hp (h.of_contains hcontains)
  have hcontains : line.containsString (ns "<>") = false := decide_eq_false (hno (by decide))
  have hfields : fieldsOfLine line = [line] := by
    rw [fieldsOfLine, hcontains, if_neg (by simp)]
    exact Split.pieces_of_not_contains (hno (by decide))
  rintro ⟨htwo, -⟩
  rw [hfields, List.length_singleton] at htwo
  omega

theorem messageOfLine_isSome_iff (env : TextServices) (line : NSString) :
    (messageOfLine env line).isSome ↔ HasMessage line := by
  have hdat := messageWithDATLine_isSome_iff env line
  have hinvalid := messageWithInvalidDATLineDetected_isSome_iff line
  rw [messageOfLine]
  cases hm : messageWithDATLine env line with
  | some m =>
    rw [hm] at hdat
    have hfour : 4 ≤ (fieldsOfLine line).length := hdat.mp rfl
    exact ⟨fun _ => ⟨by omega, .inl hfour⟩, fun _ => rfl⟩
  | none =>
    have hfour : ¬ 4 ≤ (fieldsOfLine line).length := by
      rw [hm] at hdat
      exact fun h => Bool.false_ne_true (hdat.mpr h)
    by_cases hlen : 0 < line.length
    · simp only [if_pos hlen, hinvalid]
      exact ⟨fun h => ⟨h.1, .inr h.2⟩, fun h => ⟨h.1, h.2.resolve_left hfour⟩⟩
    · have hblank : IsBlank line := by
        rw [List.eq_nil_of_length_eq_zero (Nat.eq_zero_of_not_pos hlen)]
        exact fun _ h => absurd h List.not_mem_nil
      simp only [if_neg hlen, Option.isSome_none, Bool.false_eq_true, false_iff]
      exact not_hasMessage_of_isBlank hblank

def nonBlankLines (contents : NSString) : List NSString :=
  contents.componentsSeparatedByNewline.filter fun line => ¬ IsBlank line

variable (env) in
/-- A message is the one of the line that is the `k`-th, and has the index
`n + k`. -/
def IsNumbered (n : UInt32) (line : NSString × Nat) (m : CMRThreadMessage) : Prop :=
  m.index = n + UInt32.ofNat line.2 ∧
    ∃ m₀, messageOfLine env line.1 = some m₀ ∧ m = { m₀ with index := m.index }

variable (env) in
def OnePerLine (n : UInt32) (lines : List NSString) (messages : List CMRThreadMessage) : Prop :=
  List.Forall₂ (IsNumbered env n) lines.zipIdx messages

theorem filterMap_nonBlankLines (contents : NSString) :
    contents.componentsSeparatedByNewline.filterMap (messageOfLine env) =
      (nonBlankLines contents).filterMap (messageOfLine env) := by
  rw [nonBlankLines, List.filterMap_filter]
  refine List.filterMap_congr fun line _ => ?_
  by_cases hblank : IsBlank line
  · have hnone : messageOfLine env line = none := by
      rw [← Option.not_isSome_iff_eq_none, messageOfLine_isSome_iff]
      exact not_hasMessage_of_isBlank hblank
    rw [if_neg (by simp [hblank]), hnone]
  · rw [if_pos (by simp [hblank])]

theorem isNumbered_numberFrom (env : TextServices) (n : UInt32) (i : Nat) {lines : List NSString}
    (h : ∀ line ∈ lines, HasMessage line) :
    List.Forall₂ (IsNumbered env n) (lines.zipIdx i)
      (numberFrom (n + UInt32.ofNat i) (lines.filterMap (messageOfLine env))) := by
  induction lines generalizing i with
  | nil => exact List.Forall₂.nil
  | cons line lines ih =>
    obtain ⟨m, hm⟩ := Option.isSome_iff_exists.mp
      ((messageOfLine_isSome_iff env line).mpr (h line List.mem_cons_self))
    have hnext : n + UInt32.ofNat i + 1 = n + UInt32.ofNat (i + 1) := by
      rw [UInt32.add_assoc, UInt32.ofNat_add]
      rfl
    rw [List.filterMap_cons_some hm, List.zipIdx_cons, numberFrom, hnext]
    refine List.Forall₂.cons ⟨rfl, m, hm, rfl⟩ (ih (i + 1) ?_)
    exact fun line' hline' => h line' (List.mem_cons_of_mem line hline')

theorem composeWithComposer_initWithContents (env : TextServices) (contents : NSString)
    (n : UInt32) :
    composeWithComposer env ((initWithContents contents).setNextMessageIndex n) =
      numberFrom n ((nonBlankLines contents).filterMap (messageOfLine env)) := by
  rw [composeWithComposer_eq, ← filterMap_nonBlankLines]
  rfl

theorem length_composeWithComposer (env : TextServices) (contents : NSString) (n : UInt32) :
    (composeWithComposer env ((initWithContents contents).setNextMessageIndex n)).length =
      (nonBlankLines contents).countP fun line => HasMessage line := by
  rw [composeWithComposer_initWithContents, length_numberFrom, List.length_filterMap_eq_countP]
  refine List.countP_congr fun line _ => ?_
  rw [messageOfLine_isSome_iff, decide_eq_true_eq]

/-- Every line that is not blank gets its message and its number exactly when
all of them have a separator, and four fields or some text beside it. -/
theorem composeWithComposer_onePerLine_iff (env : TextServices) (contents : NSString) (n : UInt32) :
    OnePerLine env n (nonBlankLines contents)
        (composeWithComposer env ((initWithContents contents).setNextMessageIndex n)) ↔
      ∀ line ∈ nonBlankLines contents, HasMessage line := by
  constructor
  · intro h line hline
    have hlength := h.length_eq
    rw [List.length_zipIdx, length_composeWithComposer, eq_comm, List.countP_eq_length] at hlength
    exact of_decide_eq_true (hlength line hline)
  · intro h
    have hnumbered := isNumbered_numberFrom env n 0 h
    rw [show n + UInt32.ofNat 0 = n from UInt32.add_zero n] at hnumbered
    rw [OnePerLine, composeWithComposer_initWithContents]
    exact hnumbered

/-- Services that find and read nothing, as the real ones do not in a field `c`. -/
def silentServices : TextServices where
  matchInString _ _ := none
  localizedString key := key
  dateFromString _ _ := none
  stringForEntityReference _ := none

/-- A line of plain text disappears, and the next line takes its number. -/
theorem composeWithComposer_plain_line_fails :
    ¬ OnePerLine silentServices 0 (nonBlankLines (ns "hello\na<>b<>c<>d"))
      (composeWithComposer silentServices
        ((initWithContents (ns "hello\na<>b<>c<>d")).setNextMessageIndex 0)) := by
  intro h
  have hlength := h.length_eq
  rw [List.length_zipIdx, length_composeWithComposer] at hlength
  exact absurd hlength (by decide)

-- Reading a text in parts

def messagesOfContents (env : TextServices) (contents : NSString) : List CMRThreadMessage :=
  contents.componentsSeparatedByNewline.filterMap (messageOfLine env)

theorem messageOfLine_nil (env : TextServices) : messageOfLine env [] = none := by
  rw [← Option.not_isSome_iff_eq_none, messageOfLine_isSome_iff]
  exact not_hasMessage_of_isBlank fun _ h => absurd h List.not_mem_nil

theorem composeWithComposer_contents (env : TextServices) (contents : NSString) (n : UInt32) :
    composeWithComposer env ((initWithContents contents).setNextMessageIndex n) =
      numberFrom n (messagesOfContents env contents) := by
  rw [composeWithComposer_eq]
  rfl

theorem messagesOfContents_eq (env : TextServices) (contents : NSString) :
    messagesOfContents env contents = (lineContents contents).filterMap (messageOfLine env) := by
  rw [messagesOfContents, componentsSeparatedByNewline]
  split
  · rw [List.filterMap_append, List.filterMap_cons_none (messageOfLine_nil env),
      List.filterMap_nil, List.append_nil]
  · rfl

theorem messagesOfContents_nil (env : TextServices) : messagesOfContents env [] = [] := by
  rw [messagesOfContents_eq, lineContents, List.filterMap_cons_none (messageOfLine_nil env),
    List.filterMap_nil]

theorem messagesOfContents_append (hs : s.getLast? = some (uc '\n')) :
    messagesOfContents env (s ++ t) = messagesOfContents env s ++ messagesOfContents env t := by
  by_cases ht : t = []
  · rw [ht, List.append_nil, messagesOfContents_nil, List.append_nil]
  · simp only [messagesOfContents_eq, lineContents_append hs ht, List.filterMap_append]

theorem messagesOfContents_newline_cons :
    messagesOfContents env (uc '\n' :: t) = messagesOfContents env t := by
  have hnewline : messagesOfContents env [uc '\n'] = [] := by
    rw [← messagesOfContents_nil env, messagesOfContents_eq, messagesOfContents_eq]
    rfl
  have happend := @messagesOfContents_append env [uc '\n'] t rfl
  rw [hnewline] at happend
  exact happend

theorem numberFrom_append :
    numberFrom n (ms ++ ms') = numberFrom n ms ++ numberFrom (n + UInt32.ofNat ms.length) ms' := by
  induction ms generalizing n with
  | nil => simp [numberFrom]
  | cons m ms ih =>
    have hnext : n + 1 + UInt32.ofNat ms.length = n + UInt32.ofNat (ms.length + 1) := by
      rw [UInt32.ofNat_add, UInt32.add_comm (UInt32.ofNat ms.length), UInt32.add_assoc]
      rfl
    rw [List.cons_append, numberFrom, numberFrom, ih, List.length_cons, hnext, List.cons_append]

theorem getElem?_numberFrom (n : UInt32) (ms : List CMRThreadMessage) (i : Nat) :
    (numberFrom n ms)[i]? = ms[i]?.map fun m => { m with index := n + UInt32.ofNat i } := by
  induction ms generalizing n i with
  | nil => rfl
  | cons m ms ih =>
    cases i with
    | zero =>
      rw [numberFrom, List.getElem?_cons_zero, List.getElem?_cons_zero, Option.map_some]
      exact congrArg (fun index => some { m with index := index }) (UInt32.add_zero n).symm
    | succ i =>
      have hnext : n + 1 + UInt32.ofNat i = n + UInt32.ofNat (i + 1) := by
        rw [UInt32.ofNat_add, UInt32.add_comm (UInt32.ofNat i), UInt32.add_assoc]
        rfl
      rw [numberFrom, List.getElem?_cons_succ, List.getElem?_cons_succ, ih, hnext]

theorem getElem?_filterMap_messageOfLine {lines : List NSString}
    (h : ∀ line ∈ lines, (messageOfLine env line).isSome) (i : Nat) :
    (lines.filterMap (messageOfLine env))[i]? = lines[i]?.bind (messageOfLine env) := by
  induction lines generalizing i with
  | nil => rfl
  | cons line lines ih =>
    obtain ⟨hline, hlines⟩ := List.forall_mem_cons.mp h
    obtain ⟨m, hm⟩ := Option.isSome_iff_exists.mp hline
    rw [List.filterMap_cons_some hm]
    cases i with
    | zero => exact hm.symm
    | succ i => rw [List.getElem?_cons_succ, List.getElem?_cons_succ, ih hlines]

end CMR2chDATReader

end BathyScaphe.Dat
