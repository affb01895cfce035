import BathyScaphe.Lib.Run
import BathyScaphe.Thread.ComposingTask
import Mathlib.Data.List.Chain

/-!
# Messages and ranges of a layout

A buffer takes messages only behind its last one, and says so in its answer. The
layout drops the answer, and the composing task lays messages that the buffer has
refused. The ranges and the messages stay together as long as every buffer goes on
where the last one ended.
-/

namespace BathyScaphe.Thread

open Dat Run

def IsConsecutive (messages : List CMRThreadMessage) : Prop :=
  messages.IsChain fun m m' => m.index + 1 = m'.index

/-- There is one range for each message, and the indexes are consecutive. -/
structure InSync (layout : Layout χ) : Prop where
  count : layout.messageRanges.length = layout.messageBuffer.length
  consecutive : IsConsecutive layout.messageBuffer

structure ComposingRun where
  messages : List CMRThreadMessage
  nMessagesPerLayout : Nat
  isInterrupted : Nat → Bool

section
variable (composer : Composer χ)

def perform (layout : Layout (TextUnit χ)) (run : ComposingRun) : Layout (TextUnit χ) :=
  match doExecuteWithLayout composer run.isInterrupted run.nMessagesPerLayout run.messages layout
    with
  | .ok layout => layout
  | .error layout => layout

def performs (layout : Layout (TextUnit χ)) (run : ComposingRun) : Option (Layout (TextUnit χ)) :=
  some (perform composer layout run)

/-- A run ends in sync, and a buffer that is refused changes neither the ranges nor
the text. -/
def EndsInSync (layout : Layout (TextUnit χ)) (run : ComposingRun) : Prop :=
  InSync (perform composer layout run) ∧
    (canAppend layout.messageBuffer run.messages = false →
      (perform composer layout run).messageRanges = layout.messageRanges ∧
        (perform composer layout run).textStorage = layout.textStorage)

end

def IsUninterrupted (run : ComposingRun) : Prop := ∀ k, run.isInterrupted k = false

/-- The buffer goes on where the one of the layout ends. -/
def Continues (layout : Layout (TextUnit χ)) (run : ComposingRun) : Prop :=
  canAppend layout.messageBuffer run.messages = true ∧ IsConsecutive run.messages

variable {composer : Composer χ} {run : ComposingRun}

theorem canAppend_iff : canAppend messages other = true ↔
    ∀ m ∈ messages.getLast?, ∀ m' ∈ other.head?, m.index + 1 = m'.index := by
  rw [canAppend]
  cases messages.getLast? <;> cases other.head? <;> simp

theorem canAppend_nil (messages : List CMRThreadMessage) : canAppend messages [] = true := by
  rw [canAppend_iff]
  rintro m - m' hm'
  cases hm'

theorem isConsecutive_append : IsConsecutive (messages ++ other) ↔
    IsConsecutive messages ∧ IsConsecutive other ∧ canAppend messages other = true := by
  rw [canAppend_iff]
  exact List.isChain_append

theorem perform_uninterrupted (layout : Layout (TextUnit χ)) (h : IsUninterrupted run) :
    perform composer layout run = layMessages composer run.messages layout := by
  rw [perform, doExecuteWithLayout_eq h]

theorem length_messageRanges_layMessages (messages : List CMRThreadMessage)
    (theLayout : Layout (TextUnit χ)) :
    (layMessages composer messages theLayout).messageRanges.length =
      theLayout.messageRanges.length + messages.length := by
  have hfold : ∀ (messages : List CMRThreadMessage) (s : Laying χ),
      (messages.foldl (layMessage composer) s).layout.messageRanges.length =
        s.layout.messageRanges.length + messages.length := by
    intro messages
    induction messages with
    | nil => exact fun s => rfl
    | cons m messages ih =>
      intro s
      rw [List.foldl_cons, ih, layMessage, List.length_append, List.length_singleton,
        List.length_cons]
      omega
  rw [layMessages, Laying.finish]
  split
  · simp [hfold]
  · simp [hfold]

/-- A run that is not interrupted ends in sync exactly when the buffer goes on. -/
theorem endsInSync_iff {layout : Layout (TextUnit χ)} (h : InSync layout)
    (hrun : IsUninterrupted run) : EndsInSync composer layout run ↔ Continues layout run := by
  have hranges := @length_messageRanges_layMessages _ composer run.messages layout
  have hbuffer := @messageBuffer_layMessages _ composer run.messages layout
  rw [EndsInSync, Continues, perform_uninterrupted layout hrun]
  cases happend : canAppend layout.messageBuffer run.messages with
  | true =>
    rw [Layout.addMessagesFromBuffer, if_pos happend] at hbuffer
    constructor
    · rintro ⟨hsync, -⟩
      have hconsecutive := hsync.consecutive
      rw [hbuffer, isConsecutive_append] at hconsecutive
      exact ⟨rfl, hconsecutive.2.1⟩
    · rintro ⟨-, hconsecutive⟩
      refine ⟨⟨?_, ?_⟩, fun hfalse => by cases hfalse⟩
      · rw [hranges, hbuffer, List.length_append, h.count]
      · rw [hbuffer, isConsecutive_append]
        exact ⟨h.consecutive, hconsecutive, happend⟩
  | false =>
    have hne : run.messages ≠ [] := by
      intro hnil
      rw [hnil, canAppend_nil] at happend
      cases happend
    have hpos := List.length_pos_of_ne_nil hne
    -- the ranges of the refused messages are added all the same
    constructor
    · rintro ⟨-, hunchanged⟩
      rw [(hunchanged rfl).1] at hranges
      omega
    · rintro ⟨hno, -⟩
      cases hno

theorem endsInSync_step {layout : Layout (TextUnit χ)} (h : InSync layout)
    (hrun : Continues layout run ∧ IsUninterrupted run) :
    EndsInSync composer layout run ∧ ∀ layout', performs composer layout run = some layout' →
      InSync layout' := by
  have hends := (@endsInSync_iff _ composer _ _ h hrun.2).mpr hrun.1
  refine ⟨hends, fun layout' hstep => ?_⟩
  obtain rfl := Option.some.inj hstep
  exact hends.1

def firstLaid : Layout (TextUnit UniChar) :=
  ⟨[.char (uc 'a')], [⟨0, 1⟩], [{ index := 0, messageSource := some (ns "a") }]⟩

theorem inSync_firstLaid : InSync firstLaid := ⟨rfl, List.isChain_singleton _⟩

def oneMessage (index : UInt32) : ComposingRun :=
  ⟨[{ index := index, messageSource := some (ns "b") }], 30, fun _ => false⟩

end BathyScaphe.Thread
