import BathyScaphe.Thread.EllipsisPlaces

/-!
# Showing hidden messages

The messages around the requested one are shown: their texts go where the first of
them was, and the ranges behind move. The ranges stay right. Then the ellipses are
taken out and put in, which goes wrong where a range starts inside of an effective
range: the composing task leaves such a range for a message without text between two
hidden runs.
-/

namespace BathyScaphe.Thread

open Dat Splice Marks

variable {composer : Composer χ} {layout : Layout (TextUnit χ)} {messages : List CMRThreadMessage}
  {text₁ text₂ : List (TextUnit χ)} {ranges₁ ranges₂ : List NSRange} {k : Nat} {r s : NSRange}

-- Cutting and joining layouts

theorem IsLaid.take (h : IsLaid composer messages layout) (hs : layout.messageRanges[n]? = some s) :
    IsLaid composer (messages.take n)
      ⟨layout.textStorage.take s.location, layout.messageRanges.take n, layout.messageBuffer⟩ := by
  have hbefore : ∀ {k : Nat} {r : NSRange}, (layout.messageRanges.take n)[k]? = some r →
      layout.messageRanges[k]? = some r ∧ r.max ≤ s.location := by
    intro k r hr
    have hk : k < n := by
      have hlt := (List.getElem?_eq_some_iff.mp hr).1
      rw [List.length_take] at hlt
      omega
    rw [List.getElem?_take_of_lt hk] at hr
    exact ⟨hr, h.delimits.ordered hk hr hs⟩
  have hin : s.location ≤ layout.textStorage.length :=
    Nat.le_trans (Nat.le_add_right _ _) (h.delimits.inText hs)
  have hlength : (layout.textStorage.take s.location).length = s.location := by
    rw [List.length_take, Nat.min_eq_left hin]
  have hcount : (layout.messageRanges.take n).length = (messages.take n).length := by
    rw [List.length_take, List.length_take, h.count]
  refine ⟨hcount, Nat.le_of_eq hcount, ?_, ?_, ?_⟩
  · intro j k r t hjk hr ht
    exact h.delimits.ordered hjk (hbefore hr).1 (hbefore ht).1
  · intro k r hr
    rw [hlength]
    exact (hbefore hr).2
  · intro k r m hr hm
    obtain ⟨hr, hmax⟩ := hbefore hr
    have hm : messages[k]? = some m := by
      have hm : (messages.take n)[k]? = some m := hm
      rw [List.getElem?_take] at hm
      split at hm
      · exact hm
      · cases hm
    obtain ⟨hlen, htext⟩ := h.delimits.delimits hr hm
    have hsame := slice_append_left (Nat.le_trans hmax (Nat.le_of_eq hlength.symm))
      (layout.textStorage.drop s.location)
    rw [List.take_append_drop] at hsame
    exact ⟨hlen, hsame.symm.trans htext⟩

theorem slice_drop (h : location ≤ l) (n : Nat) (xs : List α) :
    slice (l - location) n (xs.drop location) = slice l n xs := by
  rw [slice, slice, List.drop_drop, Nat.add_sub_cancel' h]

theorem IsLaid.drop (h : IsLaid composer messages layout)
    (hin : location ≤ layout.textStorage.length)
    (hbehind : ∀ k r, n ≤ k → layout.messageRanges[k]? = some r → location ≤ r.location) :
    IsLaid composer (messages.drop n)
      ⟨layout.textStorage.drop location,
        (layout.messageRanges.drop n).map fun r => { r with location := r.location - location },
        layout.messageBuffer⟩ := by
  have hrange : ∀ {k : Nat} {r' : NSRange},
      ((layout.messageRanges.drop n).map fun r =>
        { r with location := r.location - location })[k]? = some r' →
      ∃ r, layout.messageRanges[n + k]? = some r ∧ location ≤ r.location ∧
        r' = { r with location := r.location - location } := by
    intro k r' hr'
    rw [List.getElem?_map, List.getElem?_drop] at hr'
    obtain ⟨r, hr, rfl⟩ := Option.map_eq_some_iff.mp hr'
    exact ⟨r, hr, hbehind _ r (Nat.le_add_right n k) hr, rfl⟩
  have hcount : ((layout.messageRanges.drop n).map fun r =>
      { r with location := r.location - location }).length = (messages.drop n).length := by
    rw [List.length_map, List.length_drop, List.length_drop, h.count]
  refine ⟨hcount, Nat.le_of_eq hcount, ?_, ?_, ?_⟩
  · intro j k r' t' hjk hr' ht'
    obtain ⟨r, hr, hrloc, rfl⟩ := hrange hr'
    obtain ⟨t, ht, htloc, rfl⟩ := hrange ht'
    have hle : r.location + r.length ≤ t.location := h.delimits.ordered (by omega) hr ht
    show r.location - location + r.length ≤ t.location - location
    omega
  · intro k r' hr'
    obtain ⟨r, hr, hrloc, rfl⟩ := hrange hr'
    have hle : r.location + r.length ≤ layout.textStorage.length := h.delimits.inText hr
    show r.location - location + r.length ≤ (layout.textStorage.drop location).length
    rw [List.length_drop]
    omega
  · intro k r' m hr' hm
    obtain ⟨r, hr, hrloc, rfl⟩ := hrange hr'
    have hm : (messages.drop n)[k]? = some m := hm
    rw [List.getElem?_drop] at hm
    obtain ⟨hlen, htext⟩ := h.delimits.delimits hr hm
    exact ⟨hlen, (slice_drop hrloc r.length layout.textStorage).trans htext⟩

theorem IsLaid.append {messages₁ messages₂ : List CMRThreadMessage}
    (h₁ : IsLaid composer messages₁ ⟨text₁, ranges₁, buffer⟩)
    (h₂ : IsLaid composer messages₂ ⟨text₂, ranges₂, buffer⟩) :
    IsLaid composer (messages₁ ++ messages₂)
      ⟨text₁ ++ text₂, ranges₁ ++ ranges₂.map fun r =>
        { r with location := r.location + text₁.length },
        buffer⟩ := by
  have hcount₁ : ranges₁.length = messages₁.length := h₁.count
  have hfirst := h₁.append_text text₂
  have hrange : ∀ {k : Nat} {r' : NSRange},
      (ranges₁ ++ ranges₂.map fun r => { r with location := r.location + text₁.length })[k]? =
        some r' →
      ranges₁[k]? = some r' ∨ ranges₁.length ≤ k ∧ ∃ r, ranges₂[k - ranges₁.length]? = some r ∧
        r' = { r with location := r.location + text₁.length } := by
    intro k r' hr'
    by_cases hk : k < ranges₁.length
    · rw [List.getElem?_append_left hk] at hr'
      exact .inl hr'
    · rw [List.getElem?_append_right (Nat.not_lt.mp hk), List.getElem?_map] at hr'
      obtain ⟨r, hr, rfl⟩ := Option.map_eq_some_iff.mp hr'
      exact .inr ⟨Nat.not_lt.mp hk, r, hr, rfl⟩
  have hcount : (ranges₁ ++ ranges₂.map fun (r : NSRange) =>
    { r with location := r.location + text₁.length }).length =
      (messages₁ ++ messages₂).length := by
    rw [List.length_append, List.length_append, List.length_map, hcount₁, h₂.count]
  refine ⟨hcount, Nat.le_of_eq hcount, ?_, ?_, ?_⟩
  · intro j k r' t' hjk hr' ht'
    obtain hr | ⟨hj, r, hr, rfl⟩ := hrange hr'
    · obtain ht | ⟨-, t, ht, rfl⟩ := hrange ht'
      · exact h₁.delimits.ordered hjk hr ht
      · exact Nat.le_trans (h₁.delimits.inText hr) (Nat.le_add_left _ _)
    · obtain ht | ⟨hk, t, ht, rfl⟩ := hrange ht'
      · have hlt := (List.getElem?_eq_some_iff.mp ht).1
        omega
      · have hle : r.location + r.length ≤ t.location := h₂.delimits.ordered (by omega) hr ht
        show r.location + text₁.length + r.length ≤ t.location + text₁.length
        omega
  · intro k r' hr'
    obtain hr | ⟨-, r, hr, rfl⟩ := hrange hr'
    · exact hfirst.delimits.inText hr
    · have hle : r.location + r.length ≤ text₂.length := h₂.delimits.inText hr
      show r.location + text₁.length + r.length ≤ (text₁ ++ text₂).length
      rw [List.length_append]
      omega
  · intro k r' m hr' hm
    have hm : (messages₁ ++ messages₂)[k]? = some m := hm
    obtain hr | ⟨hk, r, hr, rfl⟩ := hrange hr'
    · have hlt := (List.getElem?_eq_some_iff.mp hr).1
      rw [List.getElem?_append_left (hcount₁ ▸ hlt)] at hm
      exact hfirst.delimits.delimits hr hm
    · rw [List.getElem?_append_right (hcount₁ ▸ hk), ← hcount₁] at hm
      obtain ⟨hlen, htext⟩ := h₂.delimits.delimits hr hm
      have hmoved := slice_drop (Nat.le_add_left text₁.length r.location) r.length (text₁ ++ text₂)
      rw [Nat.add_sub_cancel, List.drop_left] at hmoved
      exact ⟨hlen, hmoved.symm.trans htext⟩

-- Revealing

def revealedMessages (st lst : Nat) (messages : List CMRThreadMessage) : List CMRThreadMessage :=
  ((Layout.setVisible st lst messages).drop st).take (lst + 1 - st)

def revealedText (composer : Composer χ) (st lst : Nat) (messages : List CMRThreadMessage) :
    List (TextUnit χ) :=
  (revealedMessages st lst messages).flatMap (composeThreadMessage composer.units)

theorem composeRevealed_text (composer : Composer χ) (textLength : Nat)
    (textBuffer : List (TextUnit χ))
    (messages : List CMRThreadMessage) :
    (Layout.composeRevealed composer textLength textBuffer messages).1 =
      textBuffer ++ messages.flatMap (composeThreadMessage composer.units) := by
  induction messages generalizing textBuffer with
  | nil => exact (List.append_nil _).symm
  | cons m messages ih =>
    rw [Layout.composeRevealed]
    exact (ih _).trans (by rw [List.append_assoc, List.flatMap_cons])

theorem location_of_mem_composeRevealed (textLength : Nat) (textBuffer : List (TextUnit χ))
    (messages : List CMRThreadMessage) :
    ∀ r ∈ (Layout.composeRevealed composer textLength textBuffer messages).2,
      textLength + textBuffer.length ≤ r.location ∧ r.location ≤
        textLength + (Layout.composeRevealed composer textLength textBuffer messages).1.length := by
  induction messages generalizing textBuffer with
  | nil => exact nofun
  | cons m messages ih =>
    rw [composeRevealed_text, Layout.composeRevealed]
    refine List.forall_mem_cons.mpr ⟨⟨Nat.le_of_eq (Nat.add_comm _ _), ?_⟩, fun r hr => ?_⟩
    · rw [List.length_append]
      show textBuffer.length + textLength ≤ _
      omega
    · obtain ⟨hlow, hhigh⟩ := ih _ r hr
      rw [composeRevealed_text, List.append_assoc, ← List.flatMap_cons] at hhigh
      rw [List.length_append] at hlow
      exact ⟨by omega, hhigh⟩

theorem isLaid_composeRevealed {front textBuffer : List (TextUnit χ)} {ranges : List NSRange}
    (h : IsLaid composer done ⟨front ++ textBuffer, ranges, buffer⟩)
    (messages : List CMRThreadMessage) :
    IsLaid composer (done ++ messages)
      ⟨front ++ (Layout.composeRevealed composer front.length textBuffer messages).1,
        ranges ++ (Layout.composeRevealed composer front.length textBuffer messages).2,
        buffer⟩ := by
  induction messages generalizing done textBuffer ranges with
  | nil => simpa [Layout.composeRevealed] using h
  | cons m messages ih =>
    have hmessage := h.delimits.append_message h.count m
    rw [Layout.composedText_eq, List.append_assoc, List.length_append,
      Nat.add_comm front.length textBuffer.length] at hmessage
    have hcount : (ranges ++ [(⟨textBuffer.length + front.length,
        (composeThreadMessage composer.units m).length⟩ : NSRange)]).length =
          (done ++ [m]).length := by
      rw [List.length_append, List.length_append, h.count]
      rfl
    have hrest := @ih (done ++ [m]) _ _ ⟨hcount, hmessage⟩
    rw [List.append_assoc, List.append_assoc] at hrest
    exact hrest

theorem take_setVisible (st lst : Nat) (messages : List CMRThreadMessage) :
    (Layout.setVisible st lst messages).take st = messages.take st := by
  refine List.ext_getElem? fun k => ?_
  rw [List.getElem?_take, List.getElem?_take, Layout.setVisible, List.getElem?_mapIdx]
  split
  · rename_i hk
    cases messages[k]? with
    | none => rfl
    | some m => exact congrArg some (if_neg (by omega))
  · rfl

theorem drop_setVisible (st lst : Nat) (messages : List CMRThreadMessage) :
    (Layout.setVisible st lst messages).drop (lst + 1) = messages.drop (lst + 1) := by
  refine List.ext_getElem? fun k => ?_
  rw [List.getElem?_drop, List.getElem?_drop, Layout.setVisible, List.getElem?_mapIdx]
  cases messages[lst + 1 + k]? with
  | none => rfl
  | some m => exact congrArg some (if_neg (by omega))

theorem setVisible_eq (hle : st ≤ lst) (messages : List CMRThreadMessage) :
    Layout.setVisible st lst messages =
      messages.take st ++ revealedMessages st lst messages ++ messages.drop (lst + 1) := by
  have hdrop : (Layout.setVisible st lst messages).drop (lst + 1) =
      ((Layout.setVisible st lst messages).drop st).drop (lst + 1 - st) := by
    rw [List.drop_drop, Nat.add_sub_cancel' (Nat.le_succ_of_le hle)]
  rw [← take_setVisible st lst messages, ← drop_setVisible st lst messages, hdrop, revealedMessages,
    List.append_assoc, List.take_append_drop, List.take_append_drop]

/-- The layout in which the messages are shown, their texts at a location. -/
def revealed (composer : Composer χ) (st lst location : Nat) (layout : Layout (TextUnit χ)) :
    Layout (TextUnit χ) :=
  { textStorage :=
      splice location 0 (revealedText composer st lst layout.messageBuffer) layout.textStorage
    messageRanges :=
      layout.messageRanges.take st ++ (Layout.composeRevealed composer location []
          (revealedMessages st lst layout.messageBuffer)).2 ++
        (layout.messageRanges.drop (lst + 1)).map fun r =>
          { r with
            location := r.location + (revealedText composer st lst layout.messageBuffer).length }
    messageBuffer := Layout.setVisible st lst layout.messageBuffer }

theorem reveal_eq (composer : Composer χ) (hs : layout.messageRanges[st]? = some s)
    (hin : s.location ≤ layout.textStorage.length) (lst : Nat) :
    layout.reveal composer st lst = some (revealed composer st lst s.location layout) := by
  have htext := composeRevealed_text composer s.location []
    (revealedMessages st lst layout.messageBuffer)
  rw [List.nil_append] at htext
  have hrun : Layout.composeRevealed composer s.location []
      (((Layout.setVisible st lst layout.messageBuffer).drop st).take (lst + 1 - st)) =
      (revealedText composer st lst layout.messageBuffer,
        (Layout.composeRevealed composer s.location []
          (revealedMessages st lst layout.messageBuffer)).2) :=
    Prod.ext htext rfl
  simp only [Layout.reveal, hs, Option.bind_eq_bind, Option.bind_some, hrun,
    insertAttributedString, if_pos hin]
  rfl

theorem isLaid_revealed (h : IsLaid composer layout.messageBuffer layout)
    (hs : layout.messageRanges[st]? = some s) (hle : st ≤ lst) :
    IsLaid composer (revealed composer st lst s.location layout).messageBuffer
      (revealed composer st lst s.location layout) := by
  have hin : s.location ≤ layout.textStorage.length :=
    Nat.le_trans (Nat.le_add_right _ _) (h.delimits.inText hs)
  have hlength : (layout.textStorage.take s.location).length = s.location := by
    rw [List.length_take, Nat.min_eq_left hin]
  have hbehind : ∀ k r, lst + 1 ≤ k → layout.messageRanges[k]? = some r →
    s.location ≤ r.location := by
    intro k r hk hr
    have hmax : s.max ≤ r.location := h.delimits.ordered (by omega) hs hr
    exact Nat.le_trans (Nat.le_add_right _ _) hmax
  have hfront := h.take hs
  rw [← List.append_nil (layout.textStorage.take s.location)] at hfront
  have hshown := isLaid_composeRevealed hfront (revealedMessages st lst layout.messageBuffer)
  rw [composeRevealed_text, List.nil_append, hlength, ← revealedText] at hshown
  have hall := hshown.append (h.drop hin hbehind)
  have hranges : ((layout.messageRanges.drop (lst + 1)).map fun r =>
        { r with location := r.location - s.location }).map (fun r =>
        { r with location := r.location + (layout.textStorage.take s.location ++
          revealedText composer st lst layout.messageBuffer).length }) =
      (layout.messageRanges.drop (lst + 1)).map fun r =>
        { r with location := r.location + (revealedText composer st lst layout.messageBuffer).length
        } := by
    rw [List.map_map]
    refine List.map_congr_left fun r hr => ?_
    obtain ⟨k, hk⟩ := List.mem_iff_getElem?.mp hr
    rw [List.getElem?_drop] at hk
    have hloc := hbehind _ r (Nat.le_add_right _ _) hk
    rw [List.length_append, hlength]
    refine congrArg (fun location => { r with location := location }) ?_
    show r.location - s.location + (s.location + _) = r.location + _
    omega
  have hbuffer : (revealed composer st lst s.location layout).messageBuffer =
      layout.messageBuffer.take st ++ revealedMessages st lst layout.messageBuffer ++
        layout.messageBuffer.drop (lst + 1) := setVisible_eq hle layout.messageBuffer
  rw [hbuffer]
  rw [hranges] at hall
  exact ⟨hall.count, hall.delimits⟩

-- Ranges inside of ellipses

theorem not_isProxy_composeThreadMessage (composer : Composer χ) (m : CMRThreadMessage) :
    ∀ u ∈ composeThreadMessage composer.units m, u.isProxy = false := by
  intro u hu
  rw [composeThreadMessage] at hu
  split at hu
  · cases hu
  · split at hu
    · cases hu
    · obtain ⟨c, -, rfl⟩ := List.mem_map.mp hu
      rfl

theorem not_isProxy_revealedText (composer : Composer χ) (st lst : Nat)
    (messages : List CMRThreadMessage) :
    ∀ u ∈ revealedText composer st lst messages, u.isProxy = false := by
  intro u hu
  obtain ⟨m, -, hu⟩ := List.mem_flatMap.mp hu
  exact not_isProxy_composeThreadMessage composer m u hu

/-- Where text is shown at the location of a range, the range is not inside afterwards. -/
def StaysInside (composer : Composer χ) (st lst : Nat) (s : NSRange)
    (layout : Layout (TextUnit χ)) : Prop :=
  ∃ k r, (k ≤ st ∨ lst < k) ∧ layout.messageRanges[k]? = some r ∧
    Inside TextUnit.isProxy layout.textStorage r.location ∧
    ¬ (r.location = s.location ∧ revealedText composer st lst layout.messageBuffer ≠ [])

theorem staysInside_of_inside (h : IsLaid composer layout.messageBuffer layout)
    (hs : layout.messageRanges[st]? = some s) (hle : st ≤ lst)
    (hr : r ∈ (revealed composer st lst s.location layout).messageRanges)
    (hinside : Inside TextUnit.isProxy (revealed composer st lst s.location layout).textStorage
      r.location) :
    StaysInside composer st lst s layout := by
  have hin : s.location ≤ layout.textStorage.length :=
    Nat.le_trans (Nat.le_add_right _ _) (h.delimits.inText hs)
  have hplain := not_isProxy_revealedText composer st lst layout.messageBuffer
  have hnot : ∀ x, s.location ≤ x →
      x ≤ s.location + (revealedText composer st lst layout.messageBuffer).length →
      Inside TextUnit.isProxy (revealed composer st lst s.location layout).textStorage x →
      revealedText composer st lst layout.messageBuffer = [] ∧ x = s.location := by
    intro x hlow hhigh hx
    have hnone : revealedText composer st lst layout.messageBuffer = [] := by
      by_contra hsome
      exact not_inside_splice hplain hsome hin hlow hhigh hx
    rw [hnone] at hhigh
    exact ⟨hnone, Nat.le_antisymm hhigh hlow⟩
  have hsame : revealedText composer st lst layout.messageBuffer = [] →
      Inside TextUnit.isProxy (revealed composer st lst s.location layout).textStorage s.location →
      Inside TextUnit.isProxy layout.textStorage s.location := by
    intro hnone hx
    rw [revealed, hnone] at hx
    simpa [splice] using hx
  rw [revealed, List.mem_append, List.mem_append] at hr
  obtain (hr | hr) | hr := hr
  · -- in front of the messages that are shown
    obtain ⟨k, hk⟩ := List.mem_iff_getElem?.mp hr
    have hlt : k < st := by
      have hlt := (List.getElem?_eq_some_iff.mp hk).1
      rw [List.length_take] at hlt
      omega
    rw [List.getElem?_take_of_lt hlt] at hk
    have hmax : r.location ≤ s.location :=
      Nat.le_trans (Nat.le_add_right _ _) (h.delimits.ordered hlt hk hs)
    obtain hfront | heq := Nat.lt_or_eq_of_le hmax
    · exact ⟨k, r, .inl (Nat.le_of_lt hlt), hk, (inside_splice_before hfront hin _).mp hinside,
        fun hshown => Nat.ne_of_lt hfront hshown.1⟩
    · rw [heq] at hinside
      obtain ⟨hnone, -⟩ := hnot _ (Nat.le_refl _) (Nat.le_add_right _ _) hinside
      exact ⟨k, r, .inl (Nat.le_of_lt hlt), hk, heq ▸ hsame hnone hinside, fun hshown =>
        hshown.2 hnone⟩
  · -- one that is shown
    obtain ⟨hlow, hhigh⟩ := location_of_mem_composeRevealed s.location []
      (revealedMessages st lst layout.messageBuffer) r hr
    rw [composeRevealed_text, List.nil_append, ← revealedText] at hhigh
    obtain ⟨hnone, heq⟩ := hnot _ hlow hhigh hinside
    rw [heq] at hinside
    exact ⟨st, s, .inl (Nat.le_refl st), hs, hsame hnone hinside, fun hshown => hshown.2 hnone⟩
  · -- behind
    obtain ⟨r₀, hr₀, rfl⟩ := List.mem_map.mp hr
    obtain ⟨i, hi⟩ := List.mem_iff_getElem?.mp hr₀
    rw [List.getElem?_drop] at hi
    have hlst : lst < lst + 1 + i := by omega
    have hbehind : s.location ≤ r₀.location :=
      Nat.le_trans (Nat.le_add_right _ _) (h.delimits.ordered (by omega) hs hi)
    obtain hlt | heq := Nat.lt_or_eq_of_le hbehind
    · exact ⟨_, r₀, .inr hlst, hi, (inside_splice_after hlt hin _).mp hinside,
        fun hshown => Nat.ne_of_gt hlt hshown.1⟩
    · obtain ⟨hnone, hloc⟩ := hnot _ (by show s.location ≤ r₀.location + _; omega)
        (by show r₀.location + _ ≤ s.location + _; omega) hinside
      rw [hloc] at hinside
      exact ⟨_, r₀, .inr hlst, hi, heq ▸ hsame hnone hinside, fun hshown => hshown.2 hnone⟩

-- Where the ranges are

theorem length_composeRevealed (textLength : Nat) (textBuffer : List (TextUnit χ))
    (messages : List CMRThreadMessage) :
    (Layout.composeRevealed composer textLength textBuffer messages).2.length =
      messages.length := by
  induction messages generalizing textBuffer with
  | nil => rfl
  | cons m messages ih =>
    rw [Layout.composeRevealed]
    exact congrArg (· + 1) (ih _)

theorem length_revealedMessages (st : Nat) (hlst : lst < messages.length) :
    (revealedMessages st lst messages).length = lst + 1 - st := by
  rw [revealedMessages, List.length_take, List.length_drop, Layout.setVisible, List.length_mapIdx]
  omega

theorem getElem?_revealed_before (hr : layout.messageRanges[k]? = some r) (hk : k < st) :
    (revealed composer st lst location layout).messageRanges[k]? = some r := by
  have hlt := (List.getElem?_eq_some_iff.mp hr).1
  rw [revealed, List.append_assoc, List.getElem?_append_left (by rw [List.length_take]; omega),
    List.getElem?_take_of_lt hk]
  exact hr

theorem getElem?_revealed_first (composer : Composer χ) (hs : layout.messageRanges[st]? = some s)
    (hlst : lst < layout.messageBuffer.length) (hle : st ≤ lst) (location : Nat) :
    ∃ r, (revealed composer st lst location layout).messageRanges[st]? = some r ∧
      r.location = location := by
  have hlt := (List.getElem?_eq_some_iff.mp hs).1
  have hfront : (layout.messageRanges.take st).length = st := by
    rw [List.length_take]
    omega
  have hlength := length_revealedMessages st hlst
  rw [revealed, List.append_assoc, List.getElem?_append_right (Nat.le_of_eq hfront),
    hfront, Nat.sub_self]
  cases hmessages : revealedMessages st lst layout.messageBuffer with
  | nil =>
    rw [hmessages, List.length_nil] at hlength
    omega
  | cons m messages => exact ⟨_, rfl, Nat.zero_add location⟩

theorem getElem?_revealed_behind (hr : layout.messageRanges[k]? = some r)
    (hlst : lst < layout.messageBuffer.length) (hle : st ≤ lst) (hk : lst < k) :
    (revealed composer st lst location layout).messageRanges[k]? =
      some { r with
        location := r.location + (revealedText composer st lst layout.messageBuffer).length } := by
  have hlt := (List.getElem?_eq_some_iff.mp hr).1
  have hfront : (layout.messageRanges.take st ++ (Layout.composeRevealed composer location []
      (revealedMessages st lst layout.messageBuffer)).2).length = lst + 1 := by
    rw [List.length_append, List.length_take, length_composeRevealed,
      length_revealedMessages st hlst]
    omega
  rw [revealed, List.getElem?_append_right (by rw [hfront]; exact hk), hfront, List.getElem?_map,
    List.getElem?_drop, show lst + 1 + (k - (lst + 1)) = k by omega, hr]
  rfl

/-- Behind an ellipsis that a range is inside of there is the text of a message that
is not hidden, or the end of the text. -/
def IsTight (layout : Layout (TextUnit χ)) : Prop :=
  ∀ j r, layout.messageRanges[j]? = some r → Inside TextUnit.isProxy layout.textStorage r.location →
    ∃ e, r.location < e ∧
      (∀ i, r.location ≤ i → i < e → layout.textStorage[i]?.any TextUnit.isProxy = true) ∧
      ¬ Inside TextUnit.isProxy layout.textStorage e ∧
      (e = layout.textStorage.length ∨ ∃ (k : Nat) (s : NSRange), j < k ∧
        layout.messageRanges[k]? = some s ∧ s.location = e ∧
        isHiddenAt layout.messageBuffer k = false)

theorem ends_of_staysInside (h : IsLaid composer layout.messageBuffer layout)
    (htight : IsTight layout)
    (hs : layout.messageRanges[st]? = some s) (hle : st ≤ lst)
    (hlst : lst < layout.messageBuffer.length)
    (hhidden : ∀ k, st ≤ k → k ≤ lst → isHiddenAt layout.messageBuffer k = true)
    (hstays : StaysInside composer st lst s layout) :
    ∃ j r, (revealed composer st lst s.location layout).messageRanges[j]? = some r ∧
      Inside TextUnit.isProxy (revealed composer st lst s.location layout).textStorage r.location ∧
      Ends (revealed composer st lst s.location layout) j r := by
  have hin : s.location ≤ layout.textStorage.length :=
    Nat.le_trans (Nat.le_add_right _ _) (h.delimits.inText hs)
  have hlength : (revealed composer st lst s.location layout).textStorage.length =
      layout.textStorage.length + (revealedText composer st lst layout.messageBuffer).length :=
    length_splice (show s.location + 0 ≤ layout.textStorage.length from hin) _
  have hordered : ∀ {j k : Nat} {r t : NSRange}, j < k → layout.messageRanges[j]? = some r →
      layout.messageRanges[k]? = some t → r.location ≤ t.location :=
    fun hjk hr ht => Nat.le_trans (Nat.le_add_right _ _) (h.delimits.ordered hjk hr ht)
  have hvisible : ∀ k, isHiddenAt layout.messageBuffer k = false → k < st ∨ lst < k := by
    intro k hk
    by_contra hmid
    rw [hhidden k (by omega) (by omega)] at hk
    cases hk
  obtain ⟨j, r, hj, hr, hinside, hshown⟩ := hstays
  obtain ⟨e, hlt, hmarked, hend, hbehind⟩ := htight j r hr hinside
  by_cases hnone : revealedText composer st lst layout.messageBuffer = []
  · -- the text is the same
    have htext : (revealed composer st lst s.location layout).textStorage = layout.textStorage := by
      rw [revealed, hnone]
      simp [splice]
    have hkept : ∀ {k : Nat} {t : NSRange}, (k < st ∨ lst < k) → layout.messageRanges[k]? = some t →
        (revealed composer st lst s.location layout).messageRanges[k]? = some t := by
      rintro k t (hk | hk) ht
      · exact getElem?_revealed_before ht hk
      · rw [getElem?_revealed_behind ht hlst hle hk, hnone]
        rfl
    obtain ⟨r', hr', hsame⟩ :
      ∃ r', (revealed composer st lst s.location layout).messageRanges[j]? = some r' ∧
        r'.location = r.location := by
      by_cases hjst : j = st
      · obtain rfl := hjst
        obtain rfl := Option.some.inj (hs.symm.trans hr)
        exact getElem?_revealed_first composer hs hlst hle s.location
      · exact ⟨r, hkept (by omega) hr, rfl⟩
    refine ⟨j, r', hr', by rwa [htext, hsame], e, by rwa [hsame], ?_, by rwa [htext], ?_⟩
    · rw [htext, hsame]
      exact hmarked
    · rw [htext]
      obtain hlast | ⟨k, t, hjk, ht, hloc, hk⟩ := hbehind
      · exact .inl hlast
      · exact .inr ⟨k, t, hjk, hkept (hvisible k hk) ht, hloc⟩
  · have hne : r.location ≠ s.location := fun heq => hshown ⟨heq, hnone⟩
    have hj : j < st ∨ lst < j := by
      have hjst : j ≠ st := by
        rintro rfl
        obtain rfl := Option.some.inj (hs.symm.trans hr)
        exact hne rfl
      exact hj.imp_left fun hle => Nat.lt_of_le_of_ne hle hjst
    obtain hj | hj := hj
    · -- the new text ends the ellipsis, if it does not end in front of it
      have hfront : r.location < s.location := Nat.lt_of_le_of_ne (hordered hj hr hs) hne
      refine ⟨j, r, getElem?_revealed_before hr hj, (inside_splice_before hfront hin _).mpr hinside,
        ?_⟩
      by_cases he : e < s.location
      · refine ⟨e, hlt, fun i hlow hhigh => ?_, mt (inside_splice_before he hin _).mp hend, ?_⟩
        · rw [revealed, getElem?_splice_before (by omega) hin]
          exact hmarked i hlow hhigh
        · obtain hlast | ⟨k, t, hjk, ht, hloc, -⟩ := hbehind
          · omega
          · have hk : k < st := by
              by_contra hk
              obtain hk | rfl := Nat.lt_or_eq_of_le (Nat.not_lt.mp hk)
              · have := hordered hk hs ht
                omega
              · obtain rfl := Option.some.inj (hs.symm.trans ht)
                omega
            exact .inr ⟨k, t, hjk, getElem?_revealed_before ht hk, hloc⟩
      · obtain ⟨t, ht, hloc⟩ := getElem?_revealed_first composer hs hlst hle s.location
        refine ⟨s.location, hfront, fun i hlow hhigh => ?_, ?_, .inr ⟨st, t, hj, ht, hloc⟩⟩
        · rw [revealed, getElem?_splice_before hhigh hin]
          exact hmarked i hlow (Nat.lt_of_lt_of_le hhigh (Nat.not_lt.mp he))
        · exact not_inside_splice
            (not_isProxy_revealedText composer st lst layout.messageBuffer) hnone hin
            (Nat.le_refl _) (Nat.le_add_right _ _)
    · have hback : s.location < r.location :=
        Nat.lt_of_le_of_ne (hordered (by omega) hs hr) hne.symm
      refine ⟨j, _, getElem?_revealed_behind hr hlst hle hj,
        (inside_splice_after hback hin _).mpr hinside,
        e + (revealedText composer st lst layout.messageBuffer).length,
        Nat.add_lt_add_right hlt _, ?_,
        mt (inside_splice_after (Nat.lt_trans hback hlt) hin _).mp hend, ?_⟩
      · intro i hlow hhigh
        have hlow : r.location + (revealedText composer st lst layout.messageBuffer).length ≤ i :=
          hlow
        rw [revealed, getElem?_splice_after (by omega) hin]
        exact hmarked _ (by omega) (by omega)
      · obtain hlast | ⟨k, t, hjk, ht, hloc, -⟩ := hbehind
        · exact .inl (by rw [hlength, hlast])
        · exact .inr ⟨k, _, hjk, getElem?_revealed_behind ht hlst hle (by omega), by rw [← hloc]⟩

-- The messages that are shown

theorem firstRevealed_hidden (layout : Layout (TextUnit χ)) (longestFlag : Bool) (i st : Nat) :
    layout.firstRevealed longestFlag i st ≤ st + 1 ∧
      ∀ k, layout.firstRevealed longestFlag i st ≤ k → k ≤ st →
      isHiddenAt layout.messageBuffer k = true := by
  induction st generalizing i with
  | zero =>
    rw [Layout.firstRevealed]
    split
    · exact ⟨Nat.le_refl 1, fun k hle hk => absurd hle (by omega)⟩
    · rename_i hgoes
      rw [Bool.or_eq_true, not_or, Bool.not_eq_true', Bool.not_eq_false] at hgoes
      exact ⟨Nat.zero_le 1, fun k _ hk => Nat.le_zero.mp hk ▸ hgoes.1⟩
  | succ st ih =>
    rw [Layout.firstRevealed]
    split
    · exact ⟨Nat.le_refl _, fun k hle hk => absurd hle (by omega)⟩
    · rename_i hgoes
      rw [Bool.or_eq_true, not_or, Bool.not_eq_true', Bool.not_eq_false] at hgoes
      obtain ⟨hle, hhidden⟩ := ih (i + 1)
      refine ⟨Nat.le_succ_of_le hle, fun k hfirst hk => ?_⟩
      obtain hk | rfl := Nat.lt_or_eq_of_le hk
      · exact hhidden k hfirst (Nat.le_of_lt_succ hk)
      · exact hgoes.1

theorem lastRevealed_hidden (layout : Layout (TextUnit χ)) (longestFlag : Bool) (i lst left : Nat)
    (hpos : 0 < lst) :
    lst ≤ layout.lastRevealed longestFlag i lst left + 1 ∧
      layout.lastRevealed longestFlag i lst left ≤ lst + left ∧
      ∀ k, lst ≤ k → k ≤ layout.lastRevealed longestFlag i lst left →
        isHiddenAt layout.messageBuffer k = true := by
  induction left generalizing i lst with
  | zero =>
    rw [Layout.lastRevealed]
    split
    · exact ⟨by omega, by omega, fun k hle hk => absurd hle (by omega)⟩
    · rename_i hgoes
      rw [Bool.or_eq_true, not_or, Bool.not_eq_true', Bool.not_eq_false] at hgoes
      exact ⟨Nat.le_succ lst, Nat.le_refl lst, fun k hle hk => Nat.le_antisymm hk hle ▸ hgoes.1⟩
  | succ left ih =>
    rw [Layout.lastRevealed]
    split
    · exact ⟨by omega, by omega, fun k hle hk => absurd hle (by omega)⟩
    · rename_i hgoes
      rw [Bool.or_eq_true, not_or, Bool.not_eq_true', Bool.not_eq_false] at hgoes
      obtain ⟨hle, hin, hhidden⟩ := ih (i + 1) (lst + 1) (Nat.succ_pos lst)
      have hle : lst + 1 ≤ layout.lastRevealed longestFlag (i + 1) (lst + 1) left + 1 := hle
      have hin : layout.lastRevealed longestFlag (i + 1) (lst + 1) left ≤ lst + 1 + left := hin
      refine ⟨show lst ≤ layout.lastRevealed longestFlag (i + 1) (lst + 1) left + 1 by omega,
        show layout.lastRevealed longestFlag (i + 1) (lst + 1) left ≤ lst + (left + 1) by omega,
        fun k hfirst hk => ?_⟩
      obtain hfirst | rfl := Nat.lt_or_eq_of_le hfirst
      · exact hhidden k hfirst hk
      · exact hgoes.1

/-- The first and the last message that are shown with the requested one. -/
def firstShown (index : Nat) (longestFlag : Bool) (layout : Layout (TextUnit χ)) : Nat :=
  layout.firstRevealed longestFlag 0 index

def lastShown (index : Nat) (longestFlag : Bool) (layout : Layout (TextUnit χ)) : Nat :=
  layout.lastRevealed longestFlag 0 index (layout.messageRanges.length - 1 - index)

theorem hidden_of_shown (hindex : index < layout.messageRanges.length)
    (hhidden : layout.isTemporaryInvisibleAt index = true) (longestFlag : Bool) :
    firstShown index longestFlag layout ≤ index ∧ index ≤ lastShown index longestFlag layout ∧
      lastShown index longestFlag layout < layout.messageRanges.length ∧
      ∀ k, firstShown index longestFlag layout ≤ k → k ≤ lastShown index longestFlag layout →
        isHiddenAt layout.messageBuffer k = true := by
  have hgoes : (!layout.isTemporaryInvisibleAt index ||
      (!longestFlag && decide (Layout.numberOfMessagesPerOnTheFly ≤ 0))) = false := by
    rw [hhidden]
    exact Bool.and_false (!longestFlag)
  have hfirst : firstShown index longestFlag layout ≤ index ∧
      ∀ k, firstShown index longestFlag layout ≤ k → k < index →
      isHiddenAt layout.messageBuffer k = true := by
    rw [firstShown]
    cases index with
    | zero =>
      rw [Layout.firstRevealed, hgoes]
      exact ⟨Nat.le_refl 0, fun k _ hk => absurd hk (Nat.not_lt_zero k)⟩
    | succ st =>
      rw [Layout.firstRevealed, hgoes]
      obtain ⟨hle, hrun⟩ := firstRevealed_hidden layout longestFlag 1 st
      exact ⟨hle, fun k hk hlt => hrun k hk (Nat.le_of_lt_succ hlt)⟩
  have hlast : index ≤ lastShown index longestFlag layout ∧
      lastShown index longestFlag layout < layout.messageRanges.length ∧
      ∀ k, index < k → k ≤ lastShown index longestFlag layout →
      isHiddenAt layout.messageBuffer k = true := by
    rw [lastShown]
    cases hleft : layout.messageRanges.length - 1 - index with
    | zero =>
      rw [Layout.lastRevealed, hgoes]
      exact ⟨Nat.le_refl _, hindex, fun k hk hle => absurd hk (Nat.not_lt.mpr hle)⟩
    | succ left =>
      rw [Layout.lastRevealed, hgoes]
      obtain ⟨hle, hin, hrun⟩ :=
        lastRevealed_hidden layout longestFlag 1 (index + 1) left (Nat.succ_pos index)
      have hin : layout.lastRevealed longestFlag 1 (index + 1) left ≤ index + 1 + left := hin
      refine ⟨Nat.le_of_succ_le_succ hle, ?_, hrun⟩
      show layout.lastRevealed longestFlag 1 (index + 1) left < layout.messageRanges.length
      omega
  refine ⟨hfirst.1, hlast.1, hlast.2.1, fun k hle hk => ?_⟩
  obtain hlt | rfl | hgt := Nat.lt_trichotomy k index
  · exact hfirst.2 k hle hlt
  · exact hhidden
  · exact hlast.2.2 k hgt hk

-- Ensuring

/-- The ranges are right, the requested message is not hidden, and there is one
ellipsis for each hidden run. -/
structure Shows (composer : Composer χ) (index : Nat) (layout : Layout (TextUnit χ)) : Prop where
  laid : IsLaid composer layout.messageBuffer layout
  shown : layout.isTemporaryInvisibleAt index = false
  ellipses : HasEllipses layout

/-- No range is inside of an ellipsis when the messages are shown. When there is
nothing to show, the ellipses are right. -/
def NoneStaysInside (composer : Composer χ) (index : Nat) (longestFlag : Bool)
    (layout : Layout (TextUnit χ)) : Prop :=
  if layout.isTemporaryInvisibleAt index then
    ∀ s, layout.messageRanges[firstShown index longestFlag layout]? = some s →
      ¬ StaysInside composer (firstShown index longestFlag layout)
        (lastShown index longestFlag layout) s layout
  else HasEllipses layout

theorem isHiddenAt_setVisible (hst : st ≤ k) (hlst : k ≤ lst) :
    isHiddenAt (Layout.setVisible st lst messages) k = false := by
  rw [isHiddenAt, Layout.setVisible, List.getElem?_mapIdx]
  cases messages[k]? with
  | none => rfl
  | some m =>
    show (if st ≤ k ∧ k ≤ lst then m.setFlag TEMP_INVISIBLE_FLAG false
      else m).isTemporaryInvisible = false
    rw [if_pos ⟨hst, hlst⟩]
    exact m.isTemporaryInvisible_setFlag false

theorem ensureMessageToBeVisibleAtIndex_hidden (hindex : index < layout.messageRanges.length)
    (hhidden : layout.isTemporaryInvisibleAt index = true) (longestFlag : Bool)
    (hs : layout.messageRanges[firstShown index longestFlag layout]? = some s)
    (hin : s.location ≤ layout.textStorage.length) :
    layout.ensureMessageToBeVisibleAtIndex composer index longestFlag =
      (revealed composer (firstShown index longestFlag layout)
        (lastShown index longestFlag layout) s.location
        layout).fixEllipsisProxyAttachment := by
  have hreveal := reveal_eq composer hs hin (lastShown index longestFlag layout)
  rw [firstShown, lastShown] at hreveal
  simp only [Layout.ensureMessageToBeVisibleAtIndex, if_neg (Nat.not_le.mpr hindex), hhidden,
    Bool.not_true, Bool.false_eq_true, if_false, hreveal, Option.bind_eq_bind, Option.bind_some]
  rfl

theorem isLaid_layMessages_emptyLayout (messages : List CMRThreadMessage) :
    IsLaid Layout.sourceComposer messages
      (layMessages Layout.sourceComposer messages emptyLayout) :=
  isLaid_layMessages delimits_emptyLayout messages

/-- A message that is never visible between two hidden ones. -/
def invisibleBetweenHidden : List CMRThreadMessage :=
  [{ index := 0, messageSource := some (ns "a"), flags := TEMP_INVISIBLE_FLAG },
    { index := 1, messageSource := some (ns "b"), flags := INVISIBLE_ABONED_FLAG },
    { index := 2, messageSource := some (ns "c"), flags := TEMP_INVISIBLE_FLAG },
    { index := 3, messageSource := some (ns "d") }]

end BathyScaphe.Thread
