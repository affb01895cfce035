import BathyScaphe.Thread.ComposingTask

/-!
# The ellipses of a layout

A message that is hidden for the time being is shown together with those around it:
their texts are composed and inserted at once. Then all ellipses are taken out of the
text and put in again, one for each run of messages that are still hidden. Units of
the text that lie next to each other and have the same attribute are one effective
range, so ellipses without text between them are taken out as one.
-/

namespace BathyScaphe.Thread

open Dat Splice

/-- The longest effective ranges of the attribute `CMRMessageProxyAttributeName`. -/
def effectiveRanges (text : List (TextUnit χ)) : List (List (TextUnit χ)) :=
  text.splitBy fun u v => u.isProxy == v.isProxy

/-- The loop of `removeEllipsisProxyAttachments` from a location on: the text that
is left, and the ranges. -/
def removeFrom : Nat → List (List (TextUnit χ)) → List NSRange → List (TextUnit χ) × List NSRange
  | _, [], ranges => ([], ranges)
  | location, block :: blocks, ranges =>
    if block.any TextUnit.isProxy then
      removeFrom location blocks
        (Layout.slideMessageRanges (-(block.length : Int)) (location + block.length) ranges)
    else
      let (text, ranges) := removeFrom (location + block.length) blocks ranges
      (block ++ text, ranges)

/-- `insertAttributedString:atIndex:`, which raises behind the end of the text. -/
def insertAttributedString (new : List (TextUnit χ)) (location : Nat) (text : List (TextUnit χ)) :
    Option (List (TextUnit χ)) :=
  if location ≤ text.length then some (splice location 0 new text) else none

namespace Layout

def removeEllipsisProxyAttachments (layout : Layout (TextUnit χ)) : Layout (TextUnit χ) :=
  let (text, ranges) := removeFrom 0 (effectiveRanges layout.textStorage) layout.messageRanges
  { layout with textStorage := text, messageRanges := ranges }

def insertEllipsisProxyAttachmentFrom (fromIndex toIndex : Nat) (layout : Layout (TextUnit χ)) :
    Option (Layout (TextUnit χ)) := do
  let range ← layout.messageRanges[fromIndex]?
  let new := ellipsisProxy (UInt32.ofNat fromIndex) (UInt32.ofNat toIndex)
  let text ← insertAttributedString new range.location layout.textStorage
  some { layout with
    textStorage := text
    messageRanges := slideMessageRanges (text.length - layout.textStorage.length) range.location
      layout.messageRanges }

/-- The loop of `fixEllipsisProxyAttachment` over the messages from index `i` on.
`startIndex` is the first message of a hidden run. -/
def insertEllipses : List CMRThreadMessage → Nat → Option Nat → Layout (TextUnit χ) →
    Option (Layout (TextUnit χ))
  | [], i, startIndex, layout =>
    match startIndex with
    | some start => layout.insertEllipsisProxyAttachmentFrom start (i - 1)
    | none => some layout
  | m :: messages, i, startIndex, layout =>
    if m.isTemporaryInvisible then
      insertEllipses messages (i + 1) (startIndex.or (some i)) layout
    else
      match startIndex with
      | some start => do
        let layout ← layout.insertEllipsisProxyAttachmentFrom start (i - 1)
        insertEllipses messages (i + 1) none layout
      | none => insertEllipses messages (i + 1) none layout

def fixEllipsisProxyAttachment (layout : Layout (TextUnit χ)) : Option (Layout (TextUnit χ)) :=
  insertEllipses layout.messageBuffer 0 none layout.removeEllipsisProxyAttachments

def isTemporaryInvisibleAt (layout : Layout χ) (index : Nat) : Bool :=
  layout.messageBuffer[index]?.any CMRThreadMessage.isTemporaryInvisible

def numberOfMessagesPerOnTheFly : Nat := 20

/-- The loop to the front: the first message that is shown. `i` counts the rounds. -/
def firstRevealed (layout : Layout χ) (longestFlag : Bool) : Nat → Nat → Nat
  | i, 0 =>
    if !layout.isTemporaryInvisibleAt 0 || (!longestFlag && numberOfMessagesPerOnTheFly ≤ i) then 1
    else 0
  | i, st + 1 =>
    if !layout.isTemporaryInvisibleAt (st + 1) || (!longestFlag && numberOfMessagesPerOnTheFly ≤ i)
      then
      st + 2
    else firstRevealed layout longestFlag (i + 1) st

/-- The loop to the back: the last message that is shown. `left` is the number of
messages behind `lst`. -/
def lastRevealed (layout : Layout χ) (longestFlag : Bool) : Nat → Nat → Nat → Nat
  | i, lst, left =>
    if !layout.isTemporaryInvisibleAt lst || (!longestFlag && numberOfMessagesPerOnTheFly ≤ i)
      then lst - 1
    else
      match left with
      | 0 => lst
      | left + 1 => lastRevealed layout longestFlag (i + 1) (lst + 1) left

def setVisible (st lst : Nat) (messages : List CMRThreadMessage) : List CMRThreadMessage :=
  messages.mapIdx fun i m => if st ≤ i ∧ i ≤ lst then m.setFlag TEMP_INVISIBLE_FLAG false else m

section
variable (composer : Composer χ)

/-- The loop over the messages that are shown: the text of them, and the ranges. -/
def composeRevealed (textLength : Nat) : List (TextUnit χ) → List CMRThreadMessage →
    List (TextUnit χ) × List NSRange
  | textBuffer, [] => (textBuffer, [])
  | textBuffer, m :: messages =>
    let text := composeThreadMessage composer.units m
    let (buffer, ranges) := composeRevealed textLength (textBuffer ++ text) messages
    (buffer, ⟨textBuffer.length + textLength, text.length⟩ :: ranges)

/-- The messages from `st` to `lst` are shown, and their texts stand where the first
of them was. -/
def reveal (st lst : Nat) (layout : Layout (TextUnit χ)) : Option (Layout (TextUnit χ)) := do
  let range ← layout.messageRanges[st]?
  let messageBuffer := setVisible st lst layout.messageBuffer
  let (textBuffer, ranges) :=
    composeRevealed composer range.location [] ((messageBuffer.drop st).take (lst + 1 - st))
  let text ← insertAttributedString textBuffer range.location layout.textStorage
  let later := (layout.messageRanges.drop (lst + 1)).map fun r =>
    { r with location := r.location + textBuffer.length }
  some ⟨text, layout.messageRanges.take st ++ ranges ++ later, messageBuffer⟩

def ensureMessageToBeVisibleAtIndex (index : Nat) (longestFlag : Bool)
    (layout : Layout (TextUnit χ)) : Option (Layout (TextUnit χ)) :=
  let cnt := layout.messageRanges.length
  if cnt ≤ index then some layout
  else if !layout.isTemporaryInvisibleAt index then some layout
  else do
    let st := layout.firstRevealed longestFlag 0 index
    let lst := layout.lastRevealed longestFlag 0 index (cnt - 1 - index)
    let layout ← layout.reveal composer st lst
    layout.fixEllipsisProxyAttachment

end

end Layout

end BathyScaphe.Thread
