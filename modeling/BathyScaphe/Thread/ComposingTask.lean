import BathyScaphe.Dat.Reader
import BathyScaphe.Thread.Layout

/-!
# Composing the messages of a thread

`CMRThreadComposingTask` writes the messages it reads behind the text of a layout
and notes a range for each. The text is collected in a buffer and goes to the text
storage after every so many messages; a run of messages that are hidden for the
time being leaves an ellipsis in front of the next message. The abstract task below
has no buffer: it writes into the layout at once.
-/

namespace BathyScaphe.Thread

open Dat Splice

/-- A unit of the text storage. The units of an ellipsis have the attribute
`CMRMessageProxyAttributeName`; the buttons represent a range of messages. -/
inductive TextUnit (χ : Type) where
  | char (c : χ)
  | ellipsis (represented : UInt32 × UInt32)
  | ellipsisUp (represented : UInt32 × UInt32)
  | ellipsisDown (represented : UInt32 × UInt32)
  | ellipsisNewline
  deriving DecidableEq

def TextUnit.isProxy : TextUnit χ → Bool
  | .char _ => false
  | .ellipsis _ | .ellipsisUp _ | .ellipsisDown _ | .ellipsisNewline => true

def Composer.units (composer : Composer χ) : Composer (TextUnit χ) where
  spamFilterInvisible := composer.spamFilterInvisible
  composeFields m := (composer.composeFields m).map .char

def ellipsisProxy (fromIndex toIndex : UInt32) : List (TextUnit χ) :=
  [.ellipsis (fromIndex, toIndex - fromIndex + 1), .ellipsisUp (NSNotFound, toIndex),
    .ellipsisDown (fromIndex, NSNotFound), .ellipsisNewline]

/-- `insertEllipsisProxyAttachment:atIndex:fromIndex:toIndex:`, in a build without
assertions. -/
def insertEllipsisProxyAttachment (buffer : List (TextUnit χ)) (charIndex : Nat)
    (fromIndex toIndex : UInt32) : List (TextUnit χ) :=
  if charIndex = buffer.length then buffer ++ ellipsisProxy fromIndex toIndex
  else splice charIndex 0 (ellipsisProxy fromIndex toIndex) buffer

-- The message buffer

def canAppend (messages other : List CMRThreadMessage) : Bool :=
  match messages.getLast?, other.head? with
  | some last, some first => last.index + 1 = first.index
  | _, _ => true

namespace Layout

/-- `addMessagesFromBuffer:` of the layout, which ignores the answer of the buffer. -/
def addMessagesFromBuffer (messages : List CMRThreadMessage) (layout : Layout χ) : Layout χ :=
  if canAppend layout.messageBuffer messages then
    { layout with messageBuffer := layout.messageBuffer ++ messages }
  else layout

def addMessageRange (range : NSRange) (layout : Layout χ) : Layout χ :=
  { layout with messageRanges := layout.messageRanges ++ [range] }

@[simp] theorem textStorage_addMessagesFromBuffer (messages : List CMRThreadMessage)
    (layout : Layout χ) : (layout.addMessagesFromBuffer messages).textStorage =
      layout.textStorage := by
  rw [addMessagesFromBuffer]
  split <;> rfl

@[simp] theorem messageRanges_addMessagesFromBuffer (messages : List CMRThreadMessage)
    (layout : Layout χ) :
    (layout.addMessagesFromBuffer messages).messageRanges = layout.messageRanges := by
  rw [addMessagesFromBuffer]
  split <;> rfl

end Layout

-- The task

structure Composing (χ : Type) where
  layout : Layout (TextUnit χ)
  textBuffer : List (TextUnit χ)
  textLength : Nat
  ellipsisIndex : UInt32
  didComposedCount : Nat
  /-- How often the task has asked whether it is interrupted. -/
  checks : Nat

section
variable (composer : Composer χ) (isInterrupted : Nat → Bool)

def checkIsInterrupted (s : Composing χ) : Except (Layout (TextUnit χ)) (Composing χ) :=
  if isInterrupted s.checks then .error s.layout else .ok { s with checks := s.checks + 1 }

def performsAppendingTextFromBuffer (s : Composing χ) :
    Except (Layout (TextUnit χ)) (Composing χ) := do
  let s ← checkIsInterrupted isInterrupted s
  checkIsInterrupted isInterrupted { s with
    layout := { s.layout with textStorage := s.layout.textStorage ++ s.textBuffer }
    textBuffer := [] }

def composeEllipsis (s : Composing χ) (m : CMRThreadMessage) : Composing χ :=
  if m.isTemporaryInvisible then
    { s with ellipsisIndex := if s.ellipsisIndex = NSNotFound then m.index else s.ellipsisIndex }
  else { s with
      textBuffer :=
        if s.ellipsisIndex ≠ NSNotFound then
          insertEllipsisProxyAttachment s.textBuffer s.textBuffer.length s.ellipsisIndex
            (m.index - 1)
        else s.textBuffer
      ellipsisIndex := NSNotFound }

def composeMessage (s : Composing χ) (m : CMRThreadMessage) : Composing χ :=
  let text := composeThreadMessage composer.units m
  { s with
    layout := s.layout.addMessageRange ⟨s.textBuffer.length + s.textLength, text.length⟩
    textBuffer := s.textBuffer ++ text }

/-- The body of the loop; `nMessagesPerLayout` is `NMESSAGES_PER_LAYOUT`. -/
def composeNext (nMessagesPerLayout : Nat) (s : Composing χ) (m : CMRThreadMessage) :
    Except (Layout (TextUnit χ)) (Composing χ) := do
  let s := { s with didComposedCount := s.didComposedCount + 1 }
  let s := composeMessage composer (composeEllipsis s m) m
  if s.didComposedCount % nMessagesPerLayout = 0 then
    let s ← performsAppendingTextFromBuffer isInterrupted s
    pure { s with textLength := s.layout.textStorage.length }
  else pure s

def composeLastEllipsis (s : Composing χ) (lastIndex : UInt32) : Composing χ :=
  if s.ellipsisIndex ≠ NSNotFound then
    { s with
      textBuffer :=
        insertEllipsisProxyAttachment s.textBuffer s.textBuffer.length s.ellipsisIndex lastIndex }
  else s

/-- `doExecuteWithLayout:` for the messages of the reader, after the visible range
and the delegate have set their attributes. -/
def doExecuteWithLayout (nMessagesPerLayout : Nat) (messages : List CMRThreadMessage)
    (theLayout : Layout (TextUnit χ)) : Except (Layout (TextUnit χ)) (Layout (TextUnit χ)) := do
  let layout := theLayout.addMessagesFromBuffer messages
  let s ← messages.foldlM (composeNext composer isInterrupted nMessagesPerLayout)
    ⟨layout, [], theLayout.textStorage.length, NSNotFound, 0, 0⟩
  let s ← performsAppendingTextFromBuffer isInterrupted
    (composeLastEllipsis s ((messages.getLast?.map CMRThreadMessage.index).getD 0))
  pure s.layout

-- The task without a buffer

structure Laying (χ : Type) where
  layout : Layout (TextUnit χ)
  ellipsisIndex : UInt32

def Laying.textBefore (s : Laying χ) (m : CMRThreadMessage) : List (TextUnit χ) :=
  if ¬ m.isTemporaryInvisible ∧ s.ellipsisIndex ≠ NSNotFound then
    s.layout.textStorage ++ ellipsisProxy s.ellipsisIndex (m.index - 1)
  else s.layout.textStorage

def layMessage (s : Laying χ) (m : CMRThreadMessage) : Laying χ where
  layout := { s.layout with
      textStorage := s.textBefore m ++ composeThreadMessage composer.units m
      messageRanges := s.layout.messageRanges ++
        [⟨(s.textBefore m).length, (composeThreadMessage composer.units m).length⟩] }
  ellipsisIndex :=
    if ¬ m.isTemporaryInvisible then NSNotFound
    else if s.ellipsisIndex = NSNotFound then m.index else s.ellipsisIndex

def Laying.finish (s : Laying χ) (lastIndex : UInt32) : Layout (TextUnit χ) :=
  if s.ellipsisIndex ≠ NSNotFound then
    { s.layout with textStorage := s.layout.textStorage ++ ellipsisProxy s.ellipsisIndex lastIndex }
  else s.layout

def layMessages (messages : List CMRThreadMessage) (theLayout : Layout (TextUnit χ)) :
    Layout (TextUnit χ) :=
  (messages.foldl (layMessage composer) ⟨theLayout.addMessagesFromBuffer messages,
    NSNotFound⟩).finish
    ((messages.getLast?.map CMRThreadMessage.index).getD 0)

end

variable {composer : Composer χ} {isInterrupted : Nat → Bool}

def Composing.laid (s : Composing χ) : Laying χ :=
  ⟨{ s.layout with textStorage := s.layout.textStorage ++ s.textBuffer }, s.ellipsisIndex⟩

theorem insertEllipsisProxyAttachment_length (buffer : List (TextUnit χ))
    (fromIndex toIndex : UInt32) :
    insertEllipsisProxyAttachment buffer buffer.length fromIndex toIndex =
      buffer ++ ellipsisProxy fromIndex toIndex := by
  rw [insertEllipsisProxyAttachment, if_pos rfl]

/-- Appending the buffer changes nothing but the place of the text. -/
theorem performsAppendingTextFromBuffer_quiet (hquiet : ∀ k, isInterrupted k = false)
    (s : Composing χ) :
    ∃ s', performsAppendingTextFromBuffer isInterrupted s = .ok s' ∧ s'.laid = s.laid ∧
      s'.layout = s.laid.layout ∧ s'.textBuffer = [] := by
  refine ⟨{ s with
    layout := { s.layout with textStorage := s.layout.textStorage ++ s.textBuffer }
    textBuffer := []
    checks := s.checks + 2 }, ?_, ?_, rfl, rfl⟩
  · simp [performsAppendingTextFromBuffer, checkIsInterrupted, hquiet, bind, Except.bind]
  · simp [Composing.laid]

theorem laid_composeMessage (composer : Composer χ) (s : Composing χ) (m : CMRThreadMessage)
    (hlength : s.textLength = s.layout.textStorage.length) :
    (composeMessage composer (composeEllipsis s m) m).laid = layMessage composer s.laid m := by
  simp only [composeMessage, composeEllipsis, layMessage, Laying.textBefore, Composing.laid,
    Layout.addMessageRange, insertEllipsisProxyAttachment_length]
  cases hinvisible : m.isTemporaryInvisible with
  | true => by_cases hellipsis :
      s.ellipsisIndex = NSNotFound <;> simp [hellipsis, hlength, Nat.add_comm]
  | false =>
    by_cases hellipsis : s.ellipsisIndex = NSNotFound
    · simp [hellipsis, hlength, Nat.add_comm]
    · simp [hellipsis, hlength, Nat.add_comm]

theorem composeNext_quiet (hquiet : ∀ k, isInterrupted k = false) (n : Nat) {s : Composing χ}
    (hlength : s.textLength = s.layout.textStorage.length) (m : CMRThreadMessage) :
    ∃ s', composeNext composer isInterrupted n s m = .ok s' ∧
      s'.laid = layMessage composer s.laid m ∧ s'.textLength = s'.layout.textStorage.length := by
  have hlaid := laid_composeMessage composer
    { s with didComposedCount := s.didComposedCount + 1 } m hlength
  rw [composeNext]
  split
  · obtain ⟨s', happends, hsame, -, -⟩ := performsAppendingTextFromBuffer_quiet hquiet
      (composeMessage composer (composeEllipsis { s with
        didComposedCount := s.didComposedCount + 1 } m) m)
    refine ⟨{ s' with textLength := s'.layout.textStorage.length }, ?_, hsame.trans hlaid, rfl⟩
    simp only [happends, bind, Except.bind, pure, Except.pure]
  · refine ⟨_, rfl, hlaid, ?_⟩
    rw [composeMessage, composeEllipsis]
    split <;> exact hlength

theorem foldlM_composeNext_quiet (composer : Composer χ)
    (hquiet : ∀ k, isInterrupted k = false) (n : Nat)
    (messages : List CMRThreadMessage) {s : Composing χ}
    (hlength : s.textLength = s.layout.textStorage.length) :
    ∃ s', messages.foldlM (composeNext composer isInterrupted n) s = .ok s' ∧
      s'.laid = messages.foldl (layMessage composer) s.laid := by
  induction messages generalizing s with
  | nil => exact ⟨s, rfl, rfl⟩
  | cons m messages ih =>
    obtain ⟨s₁, hstep, hlaid, hlength₁⟩ := composeNext_quiet hquiet n hlength m
    obtain ⟨s', hrest, hlaid'⟩ := ih hlength₁
    refine ⟨s', ?_, ?_⟩
    · rw [List.foldlM_cons, hstep]
      exact hrest
    · rw [hlaid', hlaid, List.foldl_cons]

theorem laid_composeLastEllipsis (s : Composing χ) (lastIndex : UInt32) :
    (composeLastEllipsis s lastIndex).laid.layout = s.laid.finish lastIndex := by
  simp only [composeLastEllipsis, Laying.finish, Composing.laid,
    insertEllipsisProxyAttachment_length]
  by_cases hellipsis : s.ellipsisIndex = NSNotFound
  · simp [hellipsis]
  · simp [hellipsis]

/-- A task that is not interrupted writes what the task without a buffer does,
however often it appends the buffer. -/
theorem doExecuteWithLayout_eq (hquiet : ∀ k, isInterrupted k = false) (n : Nat)
    (messages : List CMRThreadMessage) (theLayout : Layout (TextUnit χ)) :
    doExecuteWithLayout composer isInterrupted n messages theLayout =
      .ok (layMessages composer messages theLayout) := by
  have hlength : theLayout.textStorage.length =
      (theLayout.addMessagesFromBuffer messages).textStorage.length := by
    rw [Layout.textStorage_addMessagesFromBuffer]
  obtain ⟨s, hfold, hlaid⟩ := foldlM_composeNext_quiet composer hquiet n messages
    (s := ⟨theLayout.addMessagesFromBuffer messages, [], theLayout.textStorage.length,
      NSNotFound, 0, 0⟩)
    hlength
  have hinit : (⟨theLayout.addMessagesFromBuffer messages, [], theLayout.textStorage.length,
      NSNotFound, 0, 0⟩ : Composing χ).laid = ⟨theLayout.addMessagesFromBuffer messages,
        NSNotFound⟩ := by
    rw [Composing.laid, List.append_nil]
  rw [hinit] at hlaid
  rw [doExecuteWithLayout, layMessages, hfold, ← hlaid]
  obtain ⟨s', happends, -, hlayout, -⟩ := performsAppendingTextFromBuffer_quiet hquiet
    (composeLastEllipsis s ((messages.getLast?.map CMRThreadMessage.index).getD 0))
  rw [laid_composeLastEllipsis] at hlayout
  simp only [bind, Except.bind, pure, Except.pure, happends, hlayout]

-- The ranges

/-- There is one range for each of the messages, and it delimits the text of it. -/
structure IsLaid (composer : Composer χ) (messages : List CMRThreadMessage)
    (layout : Layout (TextUnit χ)) : Prop where
  count : layout.messageRanges.length = messages.length
  delimits : Layout.Delimits composer.units { layout with messageBuffer := messages }

theorem IsLaid.append_text (h : IsLaid composer messages layout) (extra : List (TextUnit χ)) :
    IsLaid composer messages { layout with textStorage := layout.textStorage ++ extra } :=
  ⟨h.count, h.delimits.append_text extra⟩

theorem isLaid_layMessage {s : Laying χ} (h : IsLaid composer done s.layout)
    (m : CMRThreadMessage) :
    IsLaid composer (done ++ [m]) (layMessage composer s m).layout := by
  have hbefore : IsLaid composer done { s.layout with textStorage := s.textBefore m } := by
    rw [Laying.textBefore]
    split
    · exact h.append_text _
    · exact h
  refine ⟨?_, ?_⟩
  · simp [layMessage, h.count]
  · have hmessage := hbefore.delimits.append_message hbefore.count m
    rw [Layout.composedText_eq] at hmessage
    exact hmessage

theorem isLaid_foldl_layMessage (messages : List CMRThreadMessage) {s : Laying χ}
    (h : IsLaid composer done s.layout) :
    IsLaid composer (done ++ messages) (messages.foldl (layMessage composer) s).layout := by
  induction messages generalizing s done with
  | nil => simpa using h
  | cons m messages ih =>
    have hstep := ih (isLaid_layMessage h m)
    rwa [List.append_assoc, List.singleton_append] at hstep

theorem Layout.Delimits.isLaid (h : Layout.Delimits composer.units layout) :
    IsLaid composer (layout.messageBuffer.take layout.messageRanges.length) layout := by
  have hcount : layout.messageRanges.length =
    (layout.messageBuffer.take layout.messageRanges.length).length := by
    rw [List.length_take, Nat.min_eq_left h.count]
  refine ⟨hcount, Nat.le_of_eq hcount, h.ordered, h.inText, ?_⟩
  intro k r m hr hm
  have hm : (layout.messageBuffer.take layout.messageRanges.length)[k]? = some m := hm
  rw [List.getElem?_take_of_lt (List.getElem?_eq_some_iff.mp hr).1] at hm
  exact h.delimits hr hm

theorem isLaid_layMessages (h : Layout.Delimits composer.units theLayout)
    (messages : List CMRThreadMessage) :
    IsLaid composer (theLayout.messageBuffer.take theLayout.messageRanges.length ++ messages)
      (layMessages composer messages theLayout) := by
  have hstart : IsLaid composer (theLayout.messageBuffer.take theLayout.messageRanges.length)
      (theLayout.addMessagesFromBuffer messages) := by
    obtain ⟨hcount, hdelimits⟩ := h.isLaid
    refine ⟨?_, ?_⟩
    · simpa using hcount
    · rw [Layout.textStorage_addMessagesFromBuffer, Layout.messageRanges_addMessagesFromBuffer]
      exact hdelimits
  have hfold := isLaid_foldl_layMessage messages (s := ⟨_, NSNotFound⟩) hstart
  rw [layMessages, Laying.finish]
  split
  · exact hfold.append_text _
  · exact hfold

theorem IsLaid.not_isProxy (h : IsLaid composer messages layout) :
    ∀ r ∈ layout.messageRanges, ∀ u ∈ slice r.location r.length layout.textStorage,
      u.isProxy = false := by
  intro r hr u hu
  obtain ⟨k, hk⟩ := List.getElem?_of_mem hr
  have hlt : k < messages.length := h.count ▸ (List.getElem?_eq_some_iff.mp hk).1
  have htext := (h.delimits.delimits hk (List.getElem?_eq_getElem hlt)).2
  rw [show slice r.location r.length layout.textStorage = _ from htext, Layout.composedText_eq,
    composeThreadMessage] at hu
  split at hu
  · cases hu
  · split at hu
    · cases hu
    · obtain ⟨c, -, rfl⟩ := List.mem_map.mp hu
      rfl

theorem layMessages_prefix (messages : List CMRThreadMessage) (theLayout : Layout (TextUnit χ)) :
    theLayout.textStorage <+: (layMessages composer messages theLayout).textStorage ∧
      theLayout.messageRanges <+: (layMessages composer messages theLayout).messageRanges := by
  have hfold : ∀ (messages : List CMRThreadMessage) (s : Laying χ),
      s.layout.textStorage <+: (messages.foldl (layMessage composer) s).layout.textStorage ∧
        s.layout.messageRanges <+:
          (messages.foldl (layMessage composer) s).layout.messageRanges := by
    intro messages
    induction messages with
    | nil => exact fun s => ⟨List.prefix_rfl, List.prefix_rfl⟩
    | cons m messages ih =>
      intro s
      have hbefore : s.layout.textStorage <+: s.textBefore m := by
        rw [Laying.textBefore]
        split
        · exact List.prefix_append _ _
        · exact List.prefix_rfl
      obtain ⟨htext, hranges⟩ := ih (layMessage composer s m)
      exact ⟨(hbefore.trans (List.prefix_append _ _)).trans htext,
        (List.prefix_append _ _).trans hranges⟩
  obtain ⟨htext, hranges⟩ := hfold messages ⟨theLayout.addMessagesFromBuffer messages, NSNotFound⟩
  rw [Layout.textStorage_addMessagesFromBuffer] at htext
  rw [Layout.messageRanges_addMessagesFromBuffer] at hranges
  rw [layMessages, Laying.finish]
  split
  · exact ⟨htext.trans (List.prefix_append _ _), hranges⟩
  · exact ⟨htext, hranges⟩

theorem messageBuffer_layMessages (messages : List CMRThreadMessage)
    (theLayout : Layout (TextUnit χ)) :
    (layMessages composer messages theLayout).messageBuffer =
      (theLayout.addMessagesFromBuffer messages).messageBuffer := by
  have hfold : ∀ (messages : List CMRThreadMessage) (s : Laying χ),
      (messages.foldl (layMessage composer) s).layout.messageBuffer = s.layout.messageBuffer := by
    intro messages
    induction messages with
    | nil => exact fun s => rfl
    | cons m messages ih => exact fun s => ih (layMessage composer s m)
  rw [layMessages, Laying.finish]
  split
  · exact hfold messages _
  · exact hfold messages _

/-- With one range for each message before, the ranges are those of the messages in
the buffer when it takes the new ones. -/
theorem IsLaid.delimits_of_canAppend
    (h : IsLaid composer (theLayout.messageBuffer.take theLayout.messageRanges.length ++ messages)
      (layMessages composer messages theLayout))
    (hcount : theLayout.messageRanges.length = theLayout.messageBuffer.length)
    (happend : canAppend theLayout.messageBuffer messages) :
    Layout.Delimits composer.units (layMessages composer messages theLayout) := by
  have hbuffer : theLayout.messageBuffer.take theLayout.messageRanges.length ++ messages =
      (layMessages composer messages theLayout).messageBuffer := by
    rw [messageBuffer_layMessages, Layout.addMessagesFromBuffer, if_pos happend, hcount,
      List.take_length]
  rw [hbuffer] at h
  exact h.delimits

def emptyLayout : Layout (TextUnit UniChar) := ⟨[], [], []⟩

theorem delimits_emptyLayout : Layout.Delimits Layout.sourceComposer.units emptyLayout :=
  ⟨Nat.le_refl 0, nofun, nofun, nofun⟩

def hiddenAndVisible : List CMRThreadMessage :=
  [{ index := 0, messageSource := some (ns "a"), flags := TEMP_INVISIBLE_FLAG },
    { index := 1, messageSource := some (ns "b") }]

end BathyScaphe.Thread
