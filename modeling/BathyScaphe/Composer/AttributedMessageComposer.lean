import BathyScaphe.Dat.Reader
import BathyScaphe.Foundation.IndexSet
import BathyScaphe.Lib.Splice
import BathyScaphe.Thread.Layout

/-!
# The attributed composer

`composeThreadMessage:` hides the attributes of its mask from the methods that write the
fields: it takes them out of the flags of the message, which it shares with the message
buffer, and puts the flags back at the end. It does not put them back where spam is not
to be shown.
-/

namespace BathyScaphe.Composer

open Dat Splice

/-- The units of a text with their attributes. -/
abbrev AttributedString (α : Type) := List (UniChar × α)

inductive SpamFilterBehavior where
  | changeTextColor
  | localAboned
  | invisibleAboned
  deriving DecidableEq

def CMRLocalAbonedMask : UInt32 := LOCAL_ABONED_FLAG
def CMRInvisibleAbonedMask : UInt32 := INVISIBLE_ABONED_FLAG
def CMRSpamMask : UInt32 := SPAM_FLAG

/-- The text that is written, and the name that was converted last. -/
structure Composed (α : Type) where
  contentsStorage : AttributedString α := []
  nameCache : AttributedString α := []

/-- Which messages are composed, and what is hidden from the methods that write the fields. -/
structure Masks where
  attributesMask : UInt32 := 0
  composingMask : UInt32 := CMRInvisibleMask
  compose : Bool := false
  targetIndex : UInt32 := NSNotFound

structure CMRAttributedMessageComposer (α : Type) extends Composed α, Masks

/-- What the composer takes from the preferences, and the methods that write the fields of a
message and read the links of a text. -/
structure Environment (α : Type) where
  spamFilterBehavior : SpamFilterBehavior
  composeFields : CMRThreadMessage → Composed α → Composed α
  containsAnchorForMsgIndex : AttributedString α → UInt32 → Bool
  addMessageFilteredColor : AttributedString α → AttributedString α

def Masks.setComposingMask (mask : UInt32) (flag : Bool) (masks : Masks) : Masks :=
  { masks with composingMask := mask &&& 0x7fffffff, compose := flag }

namespace CMRAttributedMessageComposer

variable (env : Environment α)

def composeThreadMessage (m : CMRThreadMessage) (c : CMRAttributedMessageComposer α) :
    CMRAttributedMessageComposer α × CMRThreadMessage :=
  let flags := m.flags
  if (!c.compose) != decide (c.composingMask &&& flags = 0) then (c, m)
  else
    let m :=
      if flags &&& c.attributesMask ≠ 0 then { m with flags := flags &&& ~~~c.attributesMask }
      else m
    let isSpam := m.isSpam
    if isSpam && env.spamFilterBehavior = .invisibleAboned then (c, m)
    else
      let location := c.contentsStorage.length
      let c := { c with toComposed := env.composeFields m c.toComposed }
      let length := c.contentsStorage.length - location
      if c.targetIndex ≠ NSNotFound &&
          !env.containsAnchorForMsgIndex (slice location length c.contentsStorage) c.targetIndex
            then
        ({ c with contentsStorage := splice location length [] c.contentsStorage },
          { m with flags := flags })
      else
        let colored := env.addMessageFilteredColor (slice location length c.contentsStorage)
        let c :=
          if isSpam && length ≠ 0 then
            { c with contentsStorage := splice location length colored c.contentsStorage }
          else c
        (c, { m with flags := flags })

/-- The messages of the buffer at the indexes, one after the other. A message that is not
there is `nil`, which the composer ignores. -/
def composeMessages (indexes : List Nat) (buffer : List CMRThreadMessage)
    (c : CMRAttributedMessageComposer α) :
    CMRAttributedMessageComposer α × List CMRThreadMessage :=
  indexes.foldl (fun s i =>
    match s.2[i]? with
    | none => s
    | some m =>
      let r := s.1.composeThreadMessage env m
      (r.1, s.2.set i r.2)) (c, buffer)

end CMRAttributedMessageComposer

/-- The part of the layout that composes messages again: the messages, and for how many of
them there are ranges. -/
structure MessageLayout where
  messageBuffer : List CMRThreadMessage
  firstUnlaidMessageIndex : Nat

namespace MessageLayout

def masks (composingMask : UInt32) (doCompose : Bool) (attributesMask : UInt32) : Masks :=
  { attributesMask := attributesMask : Masks }.setComposingMask composingMask doCompose

variable (env : Environment α)

def contentsForIndexesMask (indexes : NSIndexSet) (composingMask : UInt32) (doCompose : Bool)
    (attributesMask : UInt32) (layout : MessageLayout) :
    Option (AttributedString α) × MessageLayout :=
  match indexes.lastIndex with
  | none => (none, layout)
  | some last =>
    if layout.firstUnlaidMessageIndex < last + 1 then (none, layout)
    else
      let c : CMRAttributedMessageComposer α :=
        { toMasks := masks composingMask doCompose attributesMask }
      let s := c.composeMessages env indexes.indexes layout.messageBuffer
      (some s.1.contentsStorage, { layout with messageBuffer := s.2 })

def contentsForTargetIndex (messageIndex composingMask : UInt32) (doCompose : Bool)
    (attributesMask : UInt32) (layout : MessageLayout) :
    Option (AttributedString α) × MessageLayout :=
  if layout.firstUnlaidMessageIndex = 0 then (none, layout)
  else
    let c : CMRAttributedMessageComposer α := { toMasks :=
      { masks composingMask doCompose attributesMask with targetIndex := messageIndex } }
    let s := c.composeMessages env (List.range layout.firstUnlaidMessageIndex) layout.messageBuffer
    (some s.1.contentsStorage, { layout with messageBuffer := s.2 })

def contentsForIndexes (indexes : NSIndexSet) (layout : MessageLayout) :
    Option (AttributedString α) × MessageLayout :=
  if env.spamFilterBehavior = .invisibleAboned then
    layout.contentsForIndexesMask env indexes CMRInvisibleAbonedMask false CMRLocalAbonedMask
  else
    layout.contentsForIndexesMask env indexes CMRInvisibleAbonedMask false
      (CMRLocalAbonedMask ||| CMRSpamMask)

end MessageLayout

-- The flags of the message

section
variable (env : Environment α)

/-- The composer takes attributes out of a message that it composes, and then it does not
show the message because it is spam. -/
def Forgets (masks : Masks) (m : CMRThreadMessage) : Prop :=
  (masks.compose = true ↔ masks.composingMask &&& m.flags ≠ 0) ∧
    m.flags &&& masks.attributesMask ≠ 0 ∧
    m.flags &&& ~~~masks.attributesMask &&& SPAM_FLAG ≠ 0 ∧ env.spamFilterBehavior =
      .invisibleAboned

instance (masks : Masks) (m : CMRThreadMessage) : Decidable (Forgets env masks m) := by
  unfold Forgets
  infer_instance

def forgotten (masks : Masks) (m : CMRThreadMessage) : CMRThreadMessage :=
  if Forgets env masks m then { m with flags := m.flags &&& ~~~masks.attributesMask } else m

variable {env}

theorem skips_iff (m : CMRThreadMessage) (masks : Masks) :
    ((!masks.compose) != decide (masks.composingMask &&& m.flags = 0)) = true ↔
      ¬ (masks.compose = true ↔ masks.composingMask &&& m.flags ≠ 0) := by
  by_cases hmask : masks.composingMask &&& m.flags = 0 <;> cases masks.compose <;> simp [hmask]

theorem isSpam_iff (m : CMRThreadMessage) : m.isSpam = true ↔ m.flags &&& SPAM_FLAG ≠ 0 := by
  rw [CMRThreadMessage.isSpam, CMRThreadMessage.flagAt, decide_eq_true_iff, UInt32.pos_iff_ne_zero]

theorem snd_composeThreadMessage (m : CMRThreadMessage) (c : CMRAttributedMessageComposer α) :
    (c.composeThreadMessage env m).2 = forgotten env c.toMasks m := by
  rw [CMRAttributedMessageComposer.composeThreadMessage, forgotten]
  by_cases hskip : ((!c.compose) != decide (c.composingMask &&& m.flags = 0)) = true
  · rw [if_pos hskip, if_neg fun hforgets => (skips_iff m c.toMasks).mp hskip hforgets.1]
  · rw [if_neg hskip]
    have hcomposed := not_not.mp fun hnot => hskip ((skips_iff m c.toMasks).mpr hnot)
    by_cases hmask : m.flags &&& c.attributesMask ≠ 0
    · simp only [if_pos hmask]
      split
      · rename_i hspam
        obtain ⟨hspam, hbehavior⟩ := (Bool.and_eq_true _ _).mp hspam
        rw [if_pos ⟨hcomposed, hmask, (isSpam_iff _).mp hspam, of_decide_eq_true hbehavior⟩]
      · rename_i hspam
        rw [if_neg fun hforgets : Forgets env c.toMasks m => hspam ?_]
        · split <;> rfl
        · rw [(isSpam_iff _).mpr hforgets.2.2.1, hforgets.2.2.2]
          rfl
    · simp only [if_neg hmask]
      rw [if_neg fun hforgets : Forgets env c.toMasks m => hmask hforgets.2.1]
      split
      · rfl
      · split <;> rfl

theorem toMasks_composeThreadMessage (m : CMRThreadMessage) (c : CMRAttributedMessageComposer α) :
    (c.composeThreadMessage env m).1.toMasks = c.toMasks := by
  rw [CMRAttributedMessageComposer.composeThreadMessage]
  split
  · rfl
  · generalize (if m.flags &&& c.attributesMask ≠ 0 then
      { m with flags := m.flags &&& ~~~c.attributesMask } else m) = hidden
    simp only
    split
    · rfl
    · split
      · rfl
      · split <;> rfl

theorem forgotten_eq_iff (masks : Masks) (m : CMRThreadMessage) :
    (forgotten env masks m).flags = m.flags ↔ ¬ Forgets env masks m := by
  rw [forgotten]
  by_cases hforgets : Forgets env masks m
  · rw [if_pos hforgets]
    refine ⟨fun h => ?_, fun h => absurd hforgets h⟩
    -- the flags of the mask are not all clear before
    have hclear : m.flags &&& ~~~masks.attributesMask &&& masks.attributesMask = 0 := by
      rw [Flags.and_and, UInt32.not_and_self, UInt32.and_zero]
    rw [show m.flags &&& ~~~masks.attributesMask = m.flags from h] at hclear
    exact absurd hclear hforgets.2.1
  · rw [if_neg hforgets]
    exact ⟨fun _ => hforgets, fun _ => rfl⟩

variable (env) in
theorem getElem?_composeMessages {indexes : List Nat} (hnodup : indexes.Nodup)
    (buffer : List CMRThreadMessage)
    (c : CMRAttributedMessageComposer α) (i : Nat) :
    (c.composeMessages env indexes buffer).2[i]? =
      if i ∈ indexes then buffer[i]?.map (forgotten env c.toMasks) else buffer[i]? := by
  induction indexes generalizing buffer c with
  | nil => rw [if_neg (List.not_mem_nil)]; rfl
  | cons j indexes ih =>
    obtain ⟨hj, hrest⟩ := List.nodup_cons.mp hnodup
    rw [CMRAttributedMessageComposer.composeMessages, List.foldl_cons]
    cases hm : buffer[j]? with
    | none =>
      refine (ih hrest buffer c).trans ?_
      by_cases hi : i = j
      · subst hi
        rw [if_neg hj, if_pos List.mem_cons_self, hm]
        rfl
      · simp only [List.mem_cons, hi, false_or]
    | some m =>
      refine (ih hrest _ _).trans ?_
      rw [toMasks_composeThreadMessage, snd_composeThreadMessage]
      by_cases hi : i = j
      · subst hi
        rw [if_neg hj, if_pos List.mem_cons_self, hm, List.getElem?_set_self
          (List.getElem?_eq_some_iff.mp hm).1]
        rfl
      · rw [List.getElem?_set_ne (Ne.symm hi)]
        simp only [List.mem_cons, hi, false_or]

theorem composeMessages_buffer_iff {indexes : List Nat} (hnodup : indexes.Nodup)
    (buffer : List CMRThreadMessage)
    (c : CMRAttributedMessageComposer α) : (c.composeMessages env indexes buffer).2 = buffer ↔
      ∀ i ∈ indexes, ∀ m ∈ buffer[i]?, ¬ Forgets env c.toMasks m := by
  constructor
  · intro h i hi m hm
    have hat := getElem?_composeMessages env hnodup buffer c i
    rw [h, if_pos hi, Option.mem_def.mp hm, Option.map_some, Option.some.injEq] at hat
    exact (forgotten_eq_iff _ m).mp (congrArg CMRThreadMessage.flags hat).symm
  · intro h
    refine List.ext_getElem? fun i => ?_
    rw [getElem?_composeMessages env hnodup]
    split
    · rename_i hi
      cases hm : buffer[i]? with
      | none => rfl
      | some m => rw [Option.map_some, forgotten, if_neg (h i hi m hm)]
    · rfl

variable (env)

def MessageLayout.isLaid (indexes : NSIndexSet) (layout : MessageLayout) : Bool :=
  indexes.lastIndex.all (· < layout.firstUnlaidMessageIndex)

/-- The layout keeps the flags of its messages if and only if it hides none of those it
composes as spam after it took attributes out of it. -/
theorem buffer_contentsForIndexesMask_iff (indexes : NSIndexSet) (composingMask : UInt32)
    (doCompose : Bool) (attributesMask : UInt32) (layout : MessageLayout) :
    (layout.contentsForIndexesMask env indexes composingMask doCompose
      attributesMask).2.messageBuffer =
        layout.messageBuffer ↔
      (layout.isLaid indexes = true → ∀ i ∈ indexes, ∀ m ∈ layout.messageBuffer[i]?,
        ¬ Forgets env (MessageLayout.masks composingMask doCompose attributesMask) m) := by
  rw [MessageLayout.contentsForIndexesMask, MessageLayout.isLaid]
  cases hlast : indexes.lastIndex with
  | none =>
    have hempty : indexes.indexes = [] := List.getLast?_eq_none_iff.mp hlast
    refine ⟨fun _ _ i hi => ?_, fun _ => rfl⟩
    rw [← NSIndexSet.mem_indexes, hempty] at hi
    exact absurd hi List.not_mem_nil
  | some last =>
    rw [Option.all_some, decide_eq_true_iff]
    by_cases hlaid : last < layout.firstUnlaidMessageIndex
    · simp only [if_neg (Nat.not_lt.mpr hlaid), hlaid, true_imp_iff]
      exact composeMessages_buffer_iff indexes.nodup _ _
    · simp only [if_pos (Nat.lt_succ_of_le (Nat.not_lt.mp hlaid)), hlaid, false_imp_iff]

theorem buffer_contentsForTargetIndex_iff (messageIndex composingMask : UInt32) (doCompose : Bool)
    (attributesMask : UInt32) (layout : MessageLayout) :
    (layout.contentsForTargetIndex env messageIndex composingMask doCompose
      attributesMask).2.messageBuffer =
        layout.messageBuffer ↔
      ∀ i < layout.firstUnlaidMessageIndex, ∀ m ∈ layout.messageBuffer[i]?,
        ¬ Forgets env (MessageLayout.masks composingMask doCompose attributesMask) m := by
  rw [MessageLayout.contentsForTargetIndex]
  split
  · rename_i hnone
    rw [hnone]
    exact ⟨fun _ i hi => absurd hi (Nat.not_lt_zero i), fun _ => rfl⟩
  · refine (composeMessages_buffer_iff List.nodup_range _ _).trans (forall_congr' fun i => ?_)
    rw [List.mem_range]
    rfl

/-- Composing leaves the flags of messages as they were if and only if no message is hidden
as spam after attributes were taken out of it. -/
theorem flags_kept_iff :
    (∀ (m : CMRThreadMessage) (c : CMRAttributedMessageComposer α),
      (c.composeThreadMessage env m).2.flags = m.flags ↔ ¬ Forgets env c.toMasks m) ∧
    ∀ (composingMask : UInt32) (doCompose : Bool) (attributesMask : UInt32)
      (layout : MessageLayout),
      (∀ indexes : NSIndexSet,
        (layout.contentsForIndexesMask env indexes composingMask doCompose
          attributesMask).2.messageBuffer =
            layout.messageBuffer ↔
          (layout.isLaid indexes = true → ∀ i ∈ indexes, ∀ m ∈ layout.messageBuffer[i]?,
            ¬ Forgets env (MessageLayout.masks composingMask doCompose attributesMask) m)) ∧
      ∀ messageIndex : UInt32,
        (layout.contentsForTargetIndex env messageIndex composingMask doCompose
          attributesMask).2.messageBuffer =
            layout.messageBuffer ↔
          ∀ i < layout.firstUnlaidMessageIndex, ∀ m ∈ layout.messageBuffer[i]?,
            ¬ Forgets env (MessageLayout.masks composingMask doCompose attributesMask) m := by
  refine ⟨fun m c => ?_, fun composingMask doCompose attributesMask layout =>
    ⟨fun indexes => ?_, fun index => ?_⟩⟩
  · rw [snd_composeThreadMessage]
    exact forgotten_eq_iff c.toMasks m
  · exact buffer_contentsForIndexesMask_iff env indexes composingMask doCompose
      attributesMask layout
  · exact buffer_contentsForTargetIndex_iff env index composingMask doCompose attributesMask layout

end

-- The composer of the layout

/-- The composer that the layout of a thread is given, where the fields of a message have
this text. -/
def layoutComposer (env : Environment α) (fields : CMRThreadMessage → AttributedString α) :
    Thread.Composer (UniChar × α) where
  spamFilterInvisible := env.spamFilterBehavior = .invisibleAboned
  composeFields m := if m.isSpam && (fields m).length ≠ 0 then env.addMessageFilteredColor
    (fields m) else fields m

theorem splice_self (text new fields : AttributedString α) :
    splice text.length fields.length new (text ++ fields) = text ++ new := by
  rw [splice, List.take_left, ← List.length_append, List.drop_length, List.append_nil]

/-- With the masks that it has at first, the composer appends what the layout composes. -/
theorem composeThreadMessage_layout {env : Environment α}
    {fields : CMRThreadMessage → AttributedString α}
    (hfields : ∀ m s, (env.composeFields m s).contentsStorage = s.contentsStorage ++ fields m)
    {c : CMRAttributedMessageComposer α} (hmasks : c.toMasks = {}) (m : CMRThreadMessage) :
    (c.composeThreadMessage env m).1.contentsStorage =
      c.contentsStorage ++ Thread.composeThreadMessage (layoutComposer env fields) m := by
  obtain ⟨composed, attributesMask, composingMask, compose, targetIndex⟩ := c
  obtain ⟨rfl, rfl, rfl, rfl⟩ := Masks.mk.inj hmasks
  rw [CMRAttributedMessageComposer.composeThreadMessage, Thread.composeThreadMessage,
    layoutComposer]
  by_cases hmask : CMRInvisibleMask &&& m.flags = 0
  · simp only [hmask, UInt32.and_zero]
    by_cases hspam : (m.isSpam && decide (env.spamFilterBehavior = .invisibleAboned)) = true
    · simp [hspam]
    · simp only [Bool.not_false, decide_true, bne_self_eq_false, Bool.false_eq_true, if_false,
        ne_eq, not_true_eq_false, hspam, hfields, List.length_append, Nat.add_sub_cancel_left,
        slice_append_self]
      rw [decide_false, Bool.false_and, if_neg Bool.false_ne_true]
      split
      · exact splice_self _ _ _
      · exact hfields m composed
  · simp [hmask]

def hidingEnvironment : Environment Unit where
  spamFilterBehavior := .invisibleAboned
  composeFields _ c := c
  containsAnchorForMsgIndex _ _ := false
  addMessageFilteredColor s := s

/-- A message with the marks of spam and of the local abone loses the second one. -/
theorem not_flags_kept :
    ((MessageLayout.contentsForIndexes hidingEnvironment (NSIndexSet.empty.addIndex 0)
      ⟨[{ flags := SPAM_FLAG ||| LOCAL_ABONED_FLAG }],
        1⟩).2.messageBuffer.map CMRThreadMessage.flags) ≠
      [SPAM_FLAG ||| LOCAL_ABONED_FLAG] := by
  decide

end BathyScaphe.Composer
