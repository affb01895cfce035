import BathyScaphe.Lib.Splice
import BathyScaphe.Message.ThreadMessage

/-!
# The layout of a thread

A layout keeps the text of a thread, one range of it for each message laid so
far, and the messages. When an attribute of a message changes, the text in its
range is composed again and the ranges behind it slide. The slide decides by
location alone which ranges are behind, so a message without text whose
location a later range shares gets its text into both.
-/

namespace BathyScaphe.Thread

open Splice

/-- What the composer takes from the preferences, and the attributed text it
writes for a message that is to be composed. -/
structure Composer (χ : Type) where
  spamFilterInvisible : Bool
  composeFields : CMRThreadMessage → List χ

/-- `composeThreadMessage:` of the attributed composer with `CMRInvisibleMask`
set not to be composed. -/
def composeThreadMessage (composer : Composer χ) (m : CMRThreadMessage) : List χ :=
  if CMRInvisibleMask &&& m.flags ≠ 0 then []
  else if m.isSpam && composer.spamFilterInvisible then []
  else composer.composeFields m

structure Layout (χ : Type) where
  textStorage : List χ
  messageRanges : List NSRange
  messageBuffer : List CMRThreadMessage

namespace Layout

variable (composer : Composer χ)

/-- `replaceCharactersInRange:withAttributedString:`, which raises (here `none`)
when the range is not in the text. -/
def replaceCharacters (range : NSRange) (new text : List χ) : Option (List χ) :=
  if range.max ≤ text.length then some (splice range.location range.length new text) else none

/-- The locked part of the update: the new text and the change in length. -/
def recompose (m : Option CMRThreadMessage) (range : NSRange) (text : List χ) :
    Option (List χ × Int) :=
  match m.filter (·.isVisible) with
  | none =>
    if range.length ≠ 0 then (replaceCharacters range [] text).map (·, -(range.length : Int))
    else some (text, 0)
  | some m =>
    let textBuffer := composeThreadMessage composer m
    (replaceCharacters range textBuffer text).map (·, textBuffer.length - range.length)

def slideRange (change : Int) (fromLocation : Nat) (range : NSRange) : NSRange :=
  if fromLocation ≤ range.location then
    { range with location := (range.location + change).toNat }
  else range

def slideMessageRanges (change : Int) (fromLocation : Nat) (ranges : List NSRange) :
    List NSRange :=
  ranges.map (slideRange change fromLocation)

/-- `updateMessageAtIndex:`. The first unlaid message is the first without a
range; the index `NSNotFound` is beyond every array of ranges. -/
def updateMessageAtIndex (index : Nat) (layout : Layout χ) : Option (Layout χ) :=
  match layout.messageRanges[index]? with
  | none => some layout
  | some range => do
    let (text, change) ←
      recompose composer layout.messageBuffer[index]? range layout.textStorage
    let ranges := layout.messageRanges
    some { layout with
      textStorage := text
      messageRanges :=
        if change ≠ 0 then
          (slideMessageRanges change (range.location + 1) ranges).set index
            { range with length := (range.length + change).toNat }
        else ranges }

def changeMessage (index : Nat) (m : CMRThreadMessage) (layout : Layout χ) : Layout χ :=
  { layout with messageBuffer := layout.messageBuffer.set index m }

-- The invariant

/-- The text of a message in the layout, none when it is not visible. -/
def composedText (m : CMRThreadMessage) : List χ :=
  if m.isVisible then composeThreadMessage composer m else []

/-- The ranges are in index order and disjoint, and each delimits the text of
its message. -/
structure Delimits (layout : Layout χ) : Prop where
  count : layout.messageRanges.length ≤ layout.messageBuffer.length
  ordered : ∀ {j k : Nat} {r s : NSRange}, j < k → layout.messageRanges[j]? = some r →
    layout.messageRanges[k]? = some s → r.max ≤ s.location
  inText : ∀ {k : Nat} {r : NSRange}, layout.messageRanges[k]? = some r →
    r.max ≤ layout.textStorage.length
  delimits : ∀ {k : Nat} {r : NSRange} {m : CMRThreadMessage},
    layout.messageRanges[k]? = some r → layout.messageBuffer[k]? = some m →
    r.length = (composedText composer m).length ∧
      slice r.location r.length layout.textStorage = composedText composer m

/-- Message `index` has no text, its new attributes give it one, and a later
message starts where it does. -/
def SharesLocation (index : Nat) (m : CMRThreadMessage) (layout : Layout χ) : Prop :=
  ∃ (r : NSRange) (k : Nat) (s : NSRange), layout.messageRanges[index]? = some r ∧ r.length = 0 ∧
    composedText composer m ≠ [] ∧ index < k ∧ layout.messageRanges[k]? = some s ∧
    s.location = r.location

-- Growing

section
variable {composer : Composer χ} {text : List χ} {ranges : List NSRange}
  {messages : List CMRThreadMessage}

theorem composedText_eq (composer : Composer χ) (m : CMRThreadMessage) :
    composedText composer m = composeThreadMessage composer m := by
  rw [composedText]
  split
  · rfl
  · rename_i hvisible
    have hmask : CMRInvisibleMask &&& m.flags ≠ 0 := by
      intro hzero
      have hflag : ∀ flag, CMRInvisibleMask &&& flag = flag → m.flagAt flag = false := by
        intro flag hin
        have hnone : m.flags &&& flag = 0 := by
          rw [← hin, ← UInt32.and_assoc, UInt32.and_comm m.flags, hzero, UInt32.zero_and]
        rw [CMRThreadMessage.flagAt, hnone]
        rfl
      refine hvisible ?_
      rw [CMRThreadMessage.isVisible, CMRThreadMessage.isInvisibleAboned,
        CMRThreadMessage.isTemporaryInvisible, hflag _ rfl, hflag _ rfl]
      rfl
    rw [composeThreadMessage, if_pos hmask]

theorem Delimits.append_text (h : Delimits composer ⟨text, ranges, messages⟩) (extra : List χ) :
    Delimits composer ⟨text ++ extra, ranges, messages⟩ where
  count := h.count
  ordered := h.ordered
  inText := by
    intro k r hr
    have hin : r.max ≤ text.length := h.inText hr
    rw [List.length_append]
    omega
  delimits := by
    intro k r m hr hm
    have hin : r.max ≤ text.length := h.inText hr
    have hdelimits : r.length = _ ∧ slice r.location r.length text = _ := h.delimits hr hm
    exact ⟨hdelimits.1, (slice_append_left hin extra).trans hdelimits.2⟩

theorem getElem?_append_range (hr : (ranges ++ [last])[k]? = some r) :
    ranges[k]? = some r ∨ k = ranges.length ∧ r = last := by
  by_cases hk : k < ranges.length
  · rw [List.getElem?_append_left hk] at hr
    exact .inl hr
  · rw [List.getElem?_append_right (Nat.not_lt.mp hk)] at hr
    obtain ⟨hlt, rfl⟩ := List.getElem?_eq_some_iff.mp hr
    rw [List.length_singleton] at hlt
    exact .inr ⟨by omega, by simp⟩

theorem Delimits.append_message (h : Delimits composer ⟨text, ranges, messages⟩)
    (hcount : ranges.length = messages.length) (m : CMRThreadMessage) :
    Delimits composer ⟨text ++ composedText composer m,
      ranges ++ [⟨text.length, (composedText composer m).length⟩], messages ++ [m]⟩ where
  count := by
    rw [List.length_append, List.length_append, hcount]
    exact Nat.le_refl _
  ordered := by
    intro j k r s hjk hr hs
    obtain hr | ⟨rfl, rfl⟩ := getElem?_append_range hr
    · obtain hs | ⟨rfl, rfl⟩ := getElem?_append_range hs
      · exact h.ordered hjk hr hs
      · exact h.inText hr
    · obtain hs | ⟨rfl, rfl⟩ := getElem?_append_range hs
      · have hlt : k < ranges.length := (List.getElem?_eq_some_iff.mp hs).1
        omega
      · omega
  inText := by
    intro k r hr
    obtain hr | ⟨rfl, rfl⟩ := getElem?_append_range hr
    · exact (h.append_text _).inText hr
    · rw [List.length_append]
      exact Nat.le_refl _
  delimits := by
    intro k r m' hr hm'
    obtain hr | ⟨rfl, rfl⟩ := getElem?_append_range hr
    · have hlt : k < messages.length := hcount ▸ (List.getElem?_eq_some_iff.mp hr).1
      rw [List.getElem?_append_left hlt] at hm'
      exact (h.append_text _).delimits hr hm'
    · rw [hcount, List.getElem?_append_right (Nat.le_refl _), Nat.sub_self] at hm'
      obtain rfl := Option.some.inj hm'
      exact ⟨rfl, slice_append_self text _⟩

end

-- One update

variable {composer} {layout : Layout χ} {index j k : Nat} {range r r' s s' : NSRange}

theorem recompose_eq (m : CMRThreadMessage) (h : range.max ≤ text.length) :
    recompose composer (some m) range text =
      some (splice range.location range.length (composedText composer m) text,
        ((composedText composer m).length : Int) - range.length) := by
  by_cases hv : m.isVisible
  · have hfilter : (some m).filter (·.isVisible) = some m := by simp [Option.filter, hv]
    simp [recompose, hfilter, composedText, hv, replaceCharacters, h]
  · have hfilter : (some m).filter (·.isVisible) = none := by simp [Option.filter, hv]
    by_cases hlen : range.length = 0
    · simp [recompose, hfilter, composedText, hv, hlen, splice]
    · simp [recompose, hfilter, composedText, hv, hlen, replaceCharacters, h]

theorem set_getElem? {xs : List NSRange} (h : xs[i]? = some x) : xs.set i x = xs := by
  obtain ⟨hlt, rfl⟩ := List.getElem?_eq_some_iff.mp h
  exact List.set_getElem_self hlt

theorem slideMessageRanges_zero (ranges : List NSRange) :
    slideMessageRanges 0 loc ranges = ranges := by
  have hid : ∀ r, slideRange 0 loc r = r := by simp [slideRange]
  exact (List.map_congr_left fun r _ => hid r).trans (List.map_id ranges)

/-- The ranges after an update that gives message `index` a text of length
`length`. -/
def updatedRanges (index : Nat) (range : NSRange) (length : Nat) (ranges : List NSRange) :
    List NSRange :=
  (slideMessageRanges (length - range.length) (range.location + 1) ranges).set index
    ⟨range.location, length⟩

/-- The layout with the text of message `index` replaced and the ranges
updated. -/
def updated (composer : Composer χ) (index : Nat) (range : NSRange) (m : CMRThreadMessage)
    (layout : Layout χ) : Layout χ :=
  { (changeMessage index m layout) with
    textStorage :=
      splice range.location range.length (composedText composer m) layout.textStorage
    messageRanges :=
      updatedRanges index range (composedText composer m).length layout.messageRanges }

theorem updateMessageAtIndex_eq (hdelimits : Delimits composer layout)
    (hrange : layout.messageRanges[index]? = some range) (m : CMRThreadMessage) :
    updateMessageAtIndex composer index (changeMessage index m layout) =
      some (updated composer index range m layout) := by
  have hlt : index < layout.messageBuffer.length :=
    Nat.lt_of_lt_of_le (List.getElem?_eq_some_iff.mp hrange).1 hdelimits.count
  have hm : (layout.messageBuffer.set index m)[index]? = some m := by
    simp [List.getElem?_set_self hlt]
  simp only [updateMessageAtIndex, updated, changeMessage, hrange, hm,
    recompose_eq m (hdelimits.inText hrange), Option.bind_eq_bind, Option.bind_some]
  by_cases hchange : ((composedText composer m).length : Int) - range.length = 0
  · -- nothing slides, and the range already has the new length
    have hlen : range.length = (composedText composer m).length := by omega
    simp [updatedRanges, ← hlen, slideMessageRanges_zero, set_getElem? hrange]
  · simp [updatedRanges, hchange]

theorem updatedRanges_self (h : ranges[index]? = some range) :
    (updatedRanges index range length ranges)[index]? = some ⟨range.location, length⟩ := by
  have hlt : index < ranges.length := (List.getElem?_eq_some_iff.mp h).1
  simp [updatedRanges, slideMessageRanges, hlt]

theorem updatedRanges_ne (h : k ≠ index) :
    (updatedRanges index range length ranges)[k]? =
      ranges[k]?.map (slideRange (length - range.length) (range.location + 1)) := by
  simp [updatedRanges, slideMessageRanges, List.getElem?_set_ne h.symm]

theorem updatedRanges_before (hdelimits : Delimits composer layout)
    (hrange : layout.messageRanges[index]? = some range) (hk : k < index)
    (hr : layout.messageRanges[k]? = some r) :
    (updatedRanges index range length layout.messageRanges)[k]? = some r := by
  have hle : r.max ≤ range.location := hdelimits.ordered hk hr hrange
  have hlt : ¬ range.location + 1 ≤ r.location := by
    simp only [NSRange.max] at hle
    omega
  rw [updatedRanges_ne (Nat.ne_of_lt hk), hr, Option.map_some, slideRange, if_neg hlt]

/-- Ranges behind the message move by the change in length, unless they share
its location. -/
theorem updatedRanges_after (hdelimits : Delimits composer layout)
    (hrange : layout.messageRanges[index]? = some range) (hk : index < k)
    (hr : layout.messageRanges[k]? = some r)
    (hshare : r.location = range.location → range.length = 0 → length = 0) :
    (updatedRanges index range length layout.messageRanges)[k]? =
      some ⟨r.location - range.length + length, r.length⟩ := by
  have hle : range.max ≤ r.location := hdelimits.ordered hk hrange hr
  simp only [NSRange.max] at hle
  rw [updatedRanges_ne (Nat.ne_of_gt hk), hr, Option.map_some, slideRange]
  by_cases hslide : range.location + 1 ≤ r.location
  · rw [if_pos hslide]
    congr 2
    omega
  · rw [if_neg hslide]
    have hzero : range.length = 0 := by omega
    have hlength : length = 0 := hshare (by omega) hzero
    simp [hzero, hlength]

theorem updatedRanges_cases (hdelimits : Delimits composer layout)
    (hrange : layout.messageRanges[index]? = some range)
    (hshare : ∀ {k r}, index < k → layout.messageRanges[k]? = some r →
      r.location = range.location → range.length = 0 → length = 0)
    (hr : (updatedRanges index range length layout.messageRanges)[k]? = some r') :
    (k < index ∧ layout.messageRanges[k]? = some r') ∨
      (k = index ∧ r' = ⟨range.location, length⟩) ∨
      (index < k ∧ ∃ r, layout.messageRanges[k]? = some r ∧
        r' = ⟨r.location - range.length + length, r.length⟩) := by
  have hlt : k < layout.messageRanges.length := by
    simpa [updatedRanges, slideMessageRanges] using (List.getElem?_eq_some_iff.mp hr).1
  have hk : layout.messageRanges[k]? = some layout.messageRanges[k] :=
    List.getElem?_eq_getElem hlt
  rcases Nat.lt_trichotomy k index with hbefore | rfl | hafter
  · rw [updatedRanges_before hdelimits hrange hbefore hk] at hr
    exact .inl ⟨hbefore, hk.trans hr⟩
  · rw [updatedRanges_self hrange] at hr
    exact .inr (.inl ⟨rfl, (Option.some.inj hr).symm⟩)
  · rw [updatedRanges_after hdelimits hrange hafter hk (hshare hafter hk)] at hr
    exact .inr (.inr ⟨hafter, _, hk, (Option.some.inj hr).symm⟩)

theorem updated_cases (hdelimits : Delimits composer layout)
    (hrange : layout.messageRanges[index]? = some range)
    (hshare : ¬ SharesLocation composer index m layout)
    (hr : (updated composer index range m layout).messageRanges[k]? = some r') :
    (k < index ∧ layout.messageRanges[k]? = some r') ∨
      (k = index ∧ r' = ⟨range.location, (composedText composer m).length⟩) ∨
      (index < k ∧ ∃ r, layout.messageRanges[k]? = some r ∧
        r' = ⟨r.location - range.length + (composedText composer m).length, r.length⟩) := by
  refine updatedRanges_cases hdelimits hrange (fun {k r} hk hr hloc hzero => ?_) hr
  by_contra htext
  exact hshare
    ⟨range, k, r, hrange, hzero, mt List.length_eq_zero_iff.mpr htext, hk, hr, hloc⟩

theorem ordered_updated (hdelimits : Delimits composer layout)
    (hrange : layout.messageRanges[index]? = some range)
    (hshare : ¬ SharesLocation composer index m layout) (hjk : j < k)
    (hr' : (updated composer index range m layout).messageRanges[j]? = some r')
    (hs' : (updated composer index range m layout).messageRanges[k]? = some s') :
    r'.max ≤ s'.location := by
  rcases updated_cases hdelimits hrange hshare hr' with ⟨hj, hr⟩ | ⟨rfl, rfl⟩ | ⟨hj, r, hr, rfl⟩
  · -- the ranges before the message stay, and the message keeps its location
    have hrloc : r'.max ≤ range.location := hdelimits.ordered hj hr hrange
    rcases updated_cases hdelimits hrange hshare hs' with ⟨_, hs⟩ | ⟨rfl, rfl⟩ | ⟨hk, s, hs, rfl⟩
    · exact hdelimits.ordered hjk hr hs
    · exact hrloc
    · have hsloc : range.max ≤ s.location := hdelimits.ordered hk hrange hs
      simp only [NSRange.max] at hrloc hsloc ⊢
      omega
  · rcases updated_cases hdelimits hrange hshare hs' with ⟨hk, _⟩ | ⟨rfl, _⟩ | ⟨hk, s, hs, rfl⟩
    · omega
    · omega
    · have hsloc : range.max ≤ s.location := hdelimits.ordered hk hrange hs
      simp only [NSRange.max] at hsloc ⊢
      omega
  · rcases updated_cases hdelimits hrange hshare hs' with ⟨hk, _⟩ | ⟨rfl, _⟩ | ⟨_, s, hs, rfl⟩
    · omega
    · omega
    · have hrloc : range.max ≤ r.location := hdelimits.ordered hj hrange hr
      have hsloc : r.max ≤ s.location := hdelimits.ordered hjk hr hs
      simp only [NSRange.max] at hrloc hsloc ⊢
      omega

theorem inText_updated (hdelimits : Delimits composer layout)
    (hrange : layout.messageRanges[index]? = some range)
    (hshare : ¬ SharesLocation composer index m layout)
    (hr' : (updated composer index range m layout).messageRanges[k]? = some r') :
    r'.max ≤ (updated composer index range m layout).textStorage.length := by
  have hin : range.max ≤ layout.textStorage.length := hdelimits.inText hrange
  have hlen := length_splice hin (composedText composer m)
  simp only [NSRange.max] at hin
  rcases updated_cases hdelimits hrange hshare hr' with ⟨hk, hr⟩ | ⟨rfl, rfl⟩ | ⟨hk, r, hr, rfl⟩
  · have hrloc : r'.max ≤ range.location := hdelimits.ordered hk hr hrange
    simp only [updated, NSRange.max] at hrloc ⊢
    omega
  · simp only [updated, NSRange.max]
    omega
  · have hrloc : range.max ≤ r.location := hdelimits.ordered hk hrange hr
    have hrin : r.max ≤ layout.textStorage.length := hdelimits.inText hr
    simp only [updated, NSRange.max] at hrloc hrin ⊢
    omega

theorem delimits_updated (hdelimits : Delimits composer layout)
    (hrange : layout.messageRanges[index]? = some range)
    (hshare : ¬ SharesLocation composer index m layout) :
    Delimits composer (updated composer index range m layout) where
  count := by
    simpa [updated, changeMessage, updatedRanges, slideMessageRanges] using hdelimits.count
  ordered := ordered_updated hdelimits hrange hshare
  inText := inText_updated hdelimits hrange hshare
  delimits := by
    intro k r' m' hr' hm
    have hin : range.max ≤ layout.textStorage.length := hdelimits.inText hrange
    have hloc : range.location ≤ layout.textStorage.length :=
      Nat.le_trans (Nat.le_add_right _ _) hin
    rcases updated_cases hdelimits hrange hshare hr' with ⟨hk, hr⟩ | ⟨rfl, rfl⟩ | ⟨hk, r, hr, rfl⟩
    · simp only [updated, changeMessage, List.getElem?_set_ne (Nat.ne_of_gt hk)] at hm ⊢
      rw [slice_splice_before (hdelimits.ordered hk hr hrange) hloc]
      exact hdelimits.delimits hr hm
    · have hm' : m = m' := by
        have hlt : k < (layout.messageBuffer.set k m).length :=
          (List.getElem?_eq_some_iff.mp hm).1
        simpa [updated, changeMessage, List.getElem?_set_self (by simpa using hlt)] using hm
      subst hm'
      exact ⟨rfl, slice_splice_self hloc _⟩
    · simp only [updated, changeMessage, List.getElem?_set_ne (Nat.ne_of_lt hk)] at hm ⊢
      rw [slice_splice_after (hdelimits.ordered hk hrange hr) hin]
      exact hdelimits.delimits hr hm

/-- A range that shares the location of a message that gets a text does not
slide, and the two overlap. -/
theorem not_delimits_updated (hrange : layout.messageRanges[index]? = some range)
    (hshare : SharesLocation composer index m layout) :
    ¬ Delimits composer (updated composer index range m layout) := by
  intro hdelimits
  obtain ⟨r, k, s, hr, hzero, htext, hk, hs, hloc⟩ := hshare
  obtain rfl : range = r := Option.some.inj (hrange.symm.trans hr)
  have hstays : (updated composer index range m layout).messageRanges[k]? = some s := by
    have hlt : ¬ range.location + 1 ≤ s.location := by omega
    simp only [updated]
    rw [updatedRanges_ne (Nat.ne_of_gt hk), hs, Option.map_some, slideRange, if_neg hlt]
  have hle := hdelimits.ordered hk (updatedRanges_self hrange) hstays
  have hpos : 0 < (composedText composer m).length := List.length_pos_iff.mpr htext
  simp only [NSRange.max] at hle
  omega

def sourceComposer : Composer UniChar where
  spamFilterInvisible := false
  composeFields m := m.messageSource.getD []

def twoMessages : Layout UniChar where
  textStorage := ns "b"
  messageRanges := [⟨0, 0⟩, ⟨0, 1⟩]
  messageBuffer :=
    [{ messageSource := some (ns "a"), flags := INVISIBLE_ABONED_FLAG },
      { messageSource := some (ns "b") }]

theorem delimits_twoMessages : Delimits sourceComposer twoMessages := by
  have hrange : ∀ {k : Nat} {r : NSRange}, twoMessages.messageRanges[k]? = some r →
      k = 0 ∧ r = ⟨0, 0⟩ ∨ k = 1 ∧ r = ⟨0, 1⟩ := by
    intro k r h
    match k with
    | 0 => exact .inl ⟨rfl, (Option.some.inj h).symm⟩
    | 1 => exact .inr ⟨rfl, (Option.some.inj h).symm⟩
    | k + 2 => cases h
  refine ⟨by decide, fun hjk hr hs => ?_, fun hr => ?_, fun hr hm => ?_⟩
  · rcases hrange hr with ⟨rfl, rfl⟩ | ⟨rfl, rfl⟩ <;>
      rcases hrange hs with ⟨rfl, rfl⟩ | ⟨rfl, rfl⟩ <;> simp_all [NSRange.max]
  · rcases hrange hr with ⟨rfl, rfl⟩ | ⟨rfl, rfl⟩ <;> decide
  · rcases hrange hr with ⟨rfl, rfl⟩ | ⟨rfl, rfl⟩ <;> obtain rfl := Option.some.inj hm <;> decide

end Layout

end BathyScaphe.Thread
