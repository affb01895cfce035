import BathyScaphe.Foundation.IndexSet
import BathyScaphe.Lib.Runs
import BathyScaphe.Thread.Navigation

/-!
# The messages of a selection

The number that is written first in the text of a message carries the index of the
message, and nothing else does. The messages of a selected range are those whose numbers
are in the range, and the one whose number is the last in front of the range or at its
start: this is the message in which the range starts or, if it starts in no message, the
message before. -/

namespace BathyScaphe.Thread

open Dat Runs

structure TextLayout (χ : Type) extends MemoryLayout χ where
  text_le : textStorage.length ≤ NSNotFound.toNat

section
variable (indexOf : χ → Option UInt32) (textStorage : List χ)

def messageIndexAt (i : Nat) : Option UInt32 := textStorage[i]?.bind indexOf

/-- The longest range in `range` in which the attribute is that of the character `c` at
`index`. -/
def longestEffectiveRange (index : Nat) (range : NSRange) (c : χ) : NSRange :=
  let start := runStart indexOf range.location index c textStorage
  ⟨start, runStop indexOf range.max index c textStorage - start⟩

/-- `attribute:atIndex:longestEffectiveRange:inRange:` for the index of a message: the
attribute and the range. It raises (here `none`) when the character or the range is
outside of the text. -/
def attributeAtIndex (index : Nat) (range : NSRange) : Option (Option UInt32 × NSRange) :=
  match textStorage[index]? with
  | none => none
  | some c =>
    if range.max ≤ textStorage.length then
      some (indexOf c, longestEffectiveRange indexOf textStorage index range c)
    else none

variable {indexOf textStorage}

theorem attributeAtIndex_eq_some
    (h : attributeAtIndex indexOf textStorage index range = some (v, effectiveRange)) :
    ∃ c, textStorage[index]? = some c ∧ range.max ≤ textStorage.length ∧ v = indexOf c ∧
      effectiveRange = longestEffectiveRange indexOf textStorage index range c := by
  rw [attributeAtIndex] at h
  split at h
  · cases h
  · rename_i c hc
    split at h
    · rename_i hin
      cases h
      exact ⟨c, hc, hin, rfl, rfl⟩
    · cases h

theorem exists_attributeAtIndex (hindex : index < range.max)
    (hin : range.max ≤ textStorage.length) :
    ∃ v effectiveRange, attributeAtIndex indexOf textStorage index range =
      some (v, effectiveRange) := by
  have hget := List.getElem?_eq_getElem (Nat.lt_of_lt_of_le hindex hin)
  rw [attributeAtIndex, hget]
  exact ⟨_, _, if_pos hin⟩

theorem max_longestEffectiveRange (hc : textStorage[index]? = some c) (hindex : index < range.max) :
    (longestEffectiveRange indexOf textStorage index range c).max =
      runStop indexOf range.max index c textStorage := by
  have hstart : runStart indexOf range.location index c textStorage ≤ index := runStart_le
  have hstop : index < runStop indexOf range.max index c textStorage := lt_runStop hc hindex
  exact Nat.add_sub_cancel' (Nat.le_of_lt (Nat.lt_of_le_of_lt hstart hstop))

theorem location_le_of_attributeAtIndex
    (h : attributeAtIndex indexOf textStorage index range = some (v, effectiveRange)) :
    effectiveRange.location ≤ index := by
  obtain ⟨c, -, -, -, rfl⟩ := attributeAtIndex_eq_some h
  exact runStart_le

theorem lt_max_of_attributeAtIndex (hindex : index < range.max)
    (h : attributeAtIndex indexOf textStorage index range = some (v, effectiveRange)) :
    index < effectiveRange.max := by
  obtain ⟨c, hc, -, -, rfl⟩ := attributeAtIndex_eq_some h
  rw [max_longestEffectiveRange hc hindex]
  exact lt_runStop hc hindex

theorem max_le_of_attributeAtIndex (hindex : index < range.max)
    (h : attributeAtIndex indexOf textStorage index range = some (v, effectiveRange)) :
    effectiveRange.max ≤ range.max := by
  obtain ⟨c, hc, -, -, rfl⟩ := attributeAtIndex_eq_some h
  rw [max_longestEffectiveRange hc hindex]
  exact runStop_le (Nat.le_of_lt hindex)

theorem messageIndexAt_of_attributeAtIndex (hlocation : range.location ≤ index)
    (hindex : index < range.max)
    (h : attributeAtIndex indexOf textStorage index range = some (v, effectiveRange))
    (hi : effectiveRange.location ≤ i) (hlt : i < effectiveRange.max) :
    messageIndexAt indexOf textStorage i = v := by
  have hmax := max_le_of_attributeAtIndex hindex h
  obtain ⟨c, hc, hin, rfl, rfl⟩ := attributeAtIndex_eq_some h
  have hget := List.getElem?_eq_getElem (Nat.lt_of_lt_of_le hlt (Nat.le_trans hmax hin))
  rw [max_longestEffectiveRange hc hindex] at hlt
  rw [messageIndexAt, hget, Option.bind_some]
  exact eq_of_mem_run hc hlocation hi hlt hget

-- The loops

variable (indexOf textStorage)

/-- The loop of `previousMessageIndexOfCharIndex:`. Its test `index_ >= 0` is true of every
unsigned number: it ends at an attribute or at the start of the text. -/
def previousFrom (index : Nat) : Option UInt32 :=
  match h : attributeAtIndex indexOf textStorage index ⟨0, index + 1⟩ with
  | none => none
  | some (some v, _) => some v
  | some (none, effectiveRange) =>
    if 0 = effectiveRange.location then some NSNotFound
    else previousFrom (effectiveRange.location - 1)
termination_by index
decreasing_by
  have hle := location_le_of_attributeAtIndex h
  omega

def previousMessageIndexOfCharIndex (charIndex : Nat) : Option UInt32 :=
  if NSNotFound.toNat = charIndex ∨ textStorage.length ≤ charIndex then some NSNotFound
  else previousFrom indexOf textStorage charIndex

def collectIndexes (range : NSRange) (charIndex : Nat) (indexSet : NSIndexSet) :
    Option NSIndexSet :=
  if _hlt : charIndex < range.max then
    match _h : attributeAtIndex indexOf textStorage charIndex range with
    | none => none
    | some (v, effectiveRange) =>
      collectIndexes range effectiveRange.max (v.elim indexSet fun v => indexSet.addIndex v.toNat)
  else some indexSet
termination_by range.max - charIndex
decreasing_by
  have hnext := lt_max_of_attributeAtIndex _hlt _h
  omega

/-- `none` is an exception, `some none` is `nil`. -/
def messageIndexesForRange (range : NSRange) : Option (Option NSIndexSet) :=
  if NSNotFound.toNat = range.location ∨ textStorage.length < range.max then some none
  else do
    let indexSet ← collectIndexes indexOf textStorage range range.location .empty
    let prevMsgIdx ← previousMessageIndexOfCharIndex indexOf textStorage range.location
    let indexSet := if prevMsgIdx ≠ NSNotFound then indexSet.addIndex prevMsgIdx.toNat else indexSet
    some (if indexSet.count = 0 then none else some indexSet)

/-- Where nothing is selected, the character that has been clicked. -/
def selectedMessageIndexes (selectedRange : NSRange) (lastCharIndex : Nat) :
    Option (Option NSIndexSet) :=
  messageIndexesForRange indexOf textStorage
    (if selectedRange.length = 0 then ⟨lastCharIndex, 1⟩ else selectedRange)

variable {indexOf textStorage}

def LastIndexed (indexOf : χ → Option UInt32) (textStorage : List χ) (i : Nat)
    (v : UInt32) : Prop :=
  ∃ j ≤ i, messageIndexAt indexOf textStorage j = some v ∧
    ∀ l, j < l → l ≤ i → messageIndexAt indexOf textStorage l = none

theorem LastIndexed.unique (h : LastIndexed indexOf textStorage i v)
    (h' : LastIndexed indexOf textStorage i w) :
    v = w := by
  obtain ⟨j, hj, hv, hnone⟩ := h
  obtain ⟨j', hj', hw, hnone'⟩ := h'
  obtain hlt | rfl | hlt := Nat.lt_trichotomy j j'
  · rw [hnone j' hlt hj'] at hw
    cases hw
  · rw [hv] at hw
    exact Option.some.inj hw
  · rw [hnone' j hlt hj] at hv
    cases hv

theorem previousFrom_spec (hindex : index < textStorage.length) :
    ∃ v, previousFrom indexOf textStorage index = some v ∧
      (LastIndexed indexOf textStorage index v ∨
        v = NSNotFound ∧ ∀ l ≤ index, messageIndexAt indexOf textStorage l = none) := by
  induction index using Nat.strong_induction_on with
  | _ index ih =>
    have hmax : (NSRange.mk 0 (index + 1)).max = index + 1 := Nat.zero_add _
    have hlast : index < (NSRange.mk 0 (index + 1)).max :=
      (Nat.lt_succ_self index).trans_eq hmax.symm
    have hin : (NSRange.mk 0 (index + 1)).max ≤ textStorage.length := hmax.trans_le hindex
    obtain ⟨v, effectiveRange, hread⟩ := @exists_attributeAtIndex _ indexOf _ _ _ hlast hin
    have hle := location_le_of_attributeAtIndex hread
    have hlt := lt_max_of_attributeAtIndex hlast hread
    have hsame : ∀ i, effectiveRange.location ≤ i → i ≤ index →
      messageIndexAt indexOf textStorage i = v :=
      fun i hi hle' =>
        messageIndexAt_of_attributeAtIndex (Nat.zero_le _) hlast hread hi
          (Nat.lt_of_le_of_lt hle' hlt)
    rw [previousFrom]
    split
    · rename_i hnone
      rw [hread] at hnone
      cases hnone
    · rename_i v' effectiveRange' hsome
      rw [hread] at hsome
      cases hsome
      refine ⟨v', rfl, .inl ⟨index, Nat.le_refl _, hsame index hle (Nat.le_refl _), ?_⟩⟩
      intro l hl hl'
      exact absurd hl (Nat.not_lt.mpr hl')
    · rename_i effectiveRange' hsome
      rw [hread] at hsome
      cases hsome
      by_cases hzero : 0 = effectiveRange.location
      · rw [if_pos hzero]
        exact ⟨_, rfl, .inr ⟨rfl, fun l hl => hsame l (by omega) hl⟩⟩
      · rw [if_neg hzero]
        obtain ⟨w, hw, hspec⟩ := ih (effectiveRange.location - 1) (by omega) (by omega)
        refine ⟨w, hw, ?_⟩
        obtain ⟨j, hj, hv, hnone⟩ | ⟨hw', hnone⟩ := hspec
        · refine .inl ⟨j, by omega, hv, fun l hl hl' => ?_⟩
          by_cases hbefore : l ≤ effectiveRange.location - 1
          · exact hnone l hl hbefore
          · exact hsame l (by omega) hl'
        · refine .inr ⟨hw', fun l hl => ?_⟩
          by_cases hbefore : l ≤ effectiveRange.location - 1
          · exact hnone l hbefore
          · exact hsame l (by omega) hl

theorem mem_elim_addIndex {v : Option UInt32} {indexSet : NSIndexSet} :
    (k ∈ v.elim indexSet fun v => indexSet.addIndex v.toNat) ↔ k ∈ indexSet ∨ ∃ w, v = some w ∧
      w.toNat = k := by
  cases v with
  | none => simp
  | some v =>
    rw [Option.elim_some, NSIndexSet.mem_addIndex, or_comm]
    simp [eq_comm]

theorem collectIndexes_spec (hlocation : range.location ≤ charIndex)
    (hin : range.max ≤ textStorage.length)
    (indexSet : NSIndexSet) :
    ∃ s, collectIndexes indexOf textStorage range charIndex indexSet = some s ∧
      ∀ k, k ∈ s ↔ k ∈ indexSet ∨
        ∃ i v, charIndex ≤ i ∧ i < range.max ∧ messageIndexAt indexOf textStorage i = some v ∧
        v.toNat = k := by
  induction hn : range.max - charIndex using Nat.strong_induction_on generalizing charIndex indexSet
    with
  | _ n ih =>
    rw [collectIndexes]
    split
    · rename_i hlt
      obtain ⟨v, effectiveRange, hread⟩ := @exists_attributeAtIndex _ indexOf _ _ _ hlt hin
      have hle := location_le_of_attributeAtIndex hread
      have hnext := lt_max_of_attributeAtIndex hlt hread
      have hsame : ∀ i, charIndex ≤ i → i < effectiveRange.max →
        messageIndexAt indexOf textStorage i = v :=
        fun i hi hlt' =>
          messageIndexAt_of_attributeAtIndex hlocation hlt hread (Nat.le_trans hle hi) hlt'
      split
      · rename_i hnone
        rw [hread] at hnone
        cases hnone
      · rename_i v' effectiveRange' hsome
        rw [hread] at hsome
        cases hsome
        obtain ⟨s, hs, hmem⟩ := ih _ (by omega) (Nat.le_trans hlocation (Nat.le_of_lt hnext))
          (v.elim indexSet fun v => indexSet.addIndex v.toNat) rfl
        refine ⟨s, hs, fun k => (hmem k).trans ?_⟩
        rw [mem_elim_addIndex]
        constructor
        · rintro ((hk | ⟨w, rfl, hw⟩) | ⟨i, w, hi, hlt', hv, hw⟩)
          · exact .inl hk
          · exact .inr ⟨charIndex, w, Nat.le_refl _, hlt, hsame charIndex (Nat.le_refl _) hnext, hw⟩
          · exact .inr ⟨i, w, Nat.le_trans (Nat.le_of_lt hnext) hi, hlt', hv, hw⟩
        · rintro (hk | ⟨i, w, hi, hlt', hv, hw⟩)
          · exact .inl (.inl hk)
          · by_cases hread' : i < effectiveRange.max
            · exact .inl (.inr ⟨w, (hsame i hi hread').symm.trans hv, hw⟩)
            · exact .inr ⟨i, w, Nat.not_lt.mp hread', hlt', hv, hw⟩
    · refine ⟨indexSet, rfl, fun k => ⟨.inl, ?_⟩⟩
      rintro (hk | ⟨i, v, hi, hlt, -⟩)
      · exact hk
      · omega

end

-- The messages of a range

/-- The number at the start of the text of each message has the index of the message, and
no other character has an index. -/
structure Numbered (indexOf : χ → Option UInt32) (layout : Layout χ) : Prop where
  number : ∀ {k : Nat} {r : NSRange}, layout.messageRanges[k]? = some r → r.length ≠ 0 →
    ∃ n, 0 < n ∧ n ≤ r.length ∧ ∀ i, r.location ≤ i → i < r.max →
      messageIndexAt indexOf layout.textStorage i = if i < r.location + n then some (UInt32.ofNat k)
      else none
  outside : ∀ {i : Nat} {v : UInt32}, messageIndexAt indexOf layout.textStorage i = some v →
    ∃ (k : Nat) (r : NSRange), layout.messageRanges[k]? = some r ∧ r.location ≤ i ∧ i < r.max

namespace Layout

variable (layout : Layout χ)

/-- The text of message `k` has a character in the range. -/
def Selected (range : NSRange) (k : Nat) : Prop :=
  ∃ r i, layout.messageRanges[k]? = some r ∧ (r.location ≤ i ∧ i < r.max) ∧ range.location ≤ i ∧
    i < range.max

/-- The character at a place is one of the text of message `k`. -/
def StartsIn (location k : Nat) : Prop :=
  ∃ r, layout.messageRanges[k]? = some r ∧ r.location ≤ location ∧ location < r.max

/-- A place in no message: message `k` is the last one in front of it that has text. -/
def StartsAfter (location k : Nat) : Prop :=
  ∃ r, layout.messageRanges[k]? = some r ∧ r.length ≠ 0 ∧ r.max ≤ location ∧
    ∀ k' s, layout.messageRanges[k']? = some s → s.length ≠ 0 → k < k' → location < s.location

def StartsBetween (location k : Nat) : Prop :=
  layout.StartsAfter location k ∧ k + 1 < layout.messageRanges.length

/-- The messages that are found. In front of the end of the text, a range begins in a
message or has, as the case may be, a message in front of it. -/
def Found (range : NSRange) (k : Nat) : Prop :=
  layout.Selected range k ∨
    range.location < layout.textStorage.length ∧
      (layout.StartsIn range.location k ∨ layout.StartsAfter range.location k)

variable {layout} {range r : NSRange}

/-- A range that is not empty begins in a message only if it has a character of it. -/
theorem found_iff (hlength : range.length ≠ 0) (hin : range.max ≤ layout.textStorage.length) :
    layout.Found range k ↔ layout.Selected range k ∨ layout.StartsAfter range.location k := by
  have hlt : range.location < range.max := Nat.lt_add_of_pos_right (Nat.pos_of_ne_zero hlength)
  constructor
  · rintro (hselected | ⟨-, ⟨r, hr, hle, hmax⟩ | hafter⟩)
    · exact .inl hselected
    · exact .inl ⟨r, range.location, hr, ⟨hle, hmax⟩, Nat.le_refl _, hlt⟩
    · exact .inr hafter
  · rintro (hselected | hafter)
    · exact .inl hselected
    · exact .inr ⟨Nat.lt_of_lt_of_le hlt hin, .inr hafter⟩

end Layout

namespace TextLayout

open Layout

variable {indexOf : χ → Option UInt32} {layout : TextLayout χ} {composer : Composer χ}
  {range r : NSRange}

theorem toNat_index (h : layout.messageRanges[k]? = some r) :
    (UInt32.ofNat k).toNat = k ∧ UInt32.ofNat k ≠ NSNotFound := by
  have hk := (List.getElem?_eq_some_iff.mp h).1
  have hlt := layout.ranges_lt
  have hnat : (UInt32.ofNat k).toNat = k := UInt32.toNat_ofNat_of_lt' (by rw [UInt32.size]; omega)
  refine ⟨hnat, fun heq => ?_⟩
  have hnot : NSNotFound.toNat = 2 ^ 31 - 1 := rfl
  rw [heq, hnot] at hnat
  omega

theorem exists_of_messageIndexAt (hnumbered : Numbered indexOf layout.toLayout)
    (h : messageIndexAt indexOf layout.textStorage i = some v) :
    ∃ r, layout.messageRanges[v.toNat]? = some r ∧ v ≠ NSNotFound ∧ r.location ≤ i ∧ i < r.max := by
  obtain ⟨k, r, hr, hle, hlt⟩ := hnumbered.outside h
  have hlength : r.length ≠ 0 := by
    intro hzero
    rw [NSRange.max, hzero] at hlt
    omega
  obtain ⟨n, -, -, hindex⟩ := hnumbered.number hr hlength
  rw [hindex i hle hlt] at h
  split at h
  · obtain rfl := Option.some.inj h
    obtain ⟨hnat, hne⟩ := toNat_index hr
    exact ⟨r, hnat.symm ▸ hr, hne, hle, hlt⟩
  · cases h

theorem lastIndexed_of_number (hnumbered : Numbered indexOf layout.toLayout)
    (hr : layout.messageRanges[k]? = some r) (hlength : r.length ≠ 0) (hle : r.location ≤ location)
    (hnone : ∀ l, r.max ≤ l → l ≤ location → messageIndexAt indexOf layout.textStorage l = none) :
    LastIndexed indexOf layout.textStorage location (UInt32.ofNat k) := by
  obtain ⟨n, hn, hlast, hindex⟩ := hnumbered.number hr hlength
  have hmax : r.max = r.location + r.length := rfl
  by_cases hinside : location < r.location + n
  · refine ⟨location, Nat.le_refl _, ?_, fun l hl hl' => absurd hl (Nat.not_lt.mpr hl')⟩
    rw [hindex location hle (by omega), if_pos hinside]
  · refine ⟨r.location + n - 1, by omega, ?_, fun l hl hl' => ?_⟩
    · rw [hindex _ (by omega) (by omega), if_pos (by omega)]
    · by_cases hin : l < r.max
      · rw [hindex l (by omega) hin, if_neg (by omega)]
      · exact hnone l (Nat.not_lt.mp hin) hl'

theorem lastIndexed_of_startsIn (hnumbered : Numbered indexOf layout.toLayout)
    (h : layout.StartsIn location k) :
    LastIndexed indexOf layout.textStorage location (UInt32.ofNat k) := by
  obtain ⟨r, hr, hle, hlt⟩ := h
  have hmax : r.max = r.location + r.length := rfl
  exact lastIndexed_of_number hnumbered hr (by omega) hle fun l hl hl' => absurd hlt (by omega)

theorem lastIndexed_of_startsAfter (hdelimits : Delimits composer layout.toLayout)
    (hnumbered : Numbered indexOf layout.toLayout) (h : layout.StartsAfter location k) :
    LastIndexed indexOf layout.textStorage location (UInt32.ofNat k) := by
  obtain ⟨r, hr, hlength, hle, hnext⟩ := h
  have hmax : r.max = r.location + r.length := rfl
  refine lastIndexed_of_number hnumbered hr hlength (by omega) fun l hl hl' => ?_
  refine Option.eq_none_iff_forall_not_mem.mpr fun v hv => ?_
  obtain ⟨s, hs, -, hs', hlt⟩ := exists_of_messageIndexAt hnumbered hv
  obtain hk | rfl | hk := Nat.lt_trichotomy k v.toNat
  · have hbehind := hnext _ s hs (by intro hzero; rw [NSRange.max, hzero] at hlt; omega) hk
    omega
  · rw [hr] at hs
    cases hs
    omega
  · have hbefore := hdelimits.ordered hk hs hr
    omega

theorem startsIn_or_startsAfter (hdelimits : Delimits composer layout.toLayout)
    (hnumbered : Numbered indexOf layout.toLayout)
    (h : LastIndexed indexOf layout.textStorage location v) :
    v ≠ NSNotFound ∧ (layout.StartsIn location v.toNat ∨ layout.StartsAfter location v.toNat) := by
  obtain ⟨j, hj, hv, hnone⟩ := h
  obtain ⟨r, hr, hne, hle, hlt⟩ := exists_of_messageIndexAt hnumbered hv
  refine ⟨hne, ?_⟩
  by_cases hin : location < r.max
  · exact .inl ⟨r, hr, by omega, hin⟩
  · refine .inr ⟨r, hr, ?_, Nat.not_lt.mp hin, fun k' s hs hlength hk =>
      Nat.lt_of_not_le fun hbefore => ?_⟩
    · rintro hzero
      rw [NSRange.max, hzero] at hlt
      omega
    · -- the number of the later message would be the last one
      obtain ⟨n, hn, hlast, hindex⟩ := hnumbered.number hs hlength
      have hordered := hdelimits.ordered hk hr hs
      have hmax : s.max = s.location + s.length := rfl
      have hsome := hindex s.location (Nat.le_refl _) (by omega)
      rw [if_pos (by omega), hnone s.location (by omega) hbefore] at hsome
      cases hsome

theorem selected_of_messageIndexAt (hnumbered : Numbered indexOf layout.toLayout)
    (h : messageIndexAt indexOf layout.textStorage i = some v) (hstart : range.location ≤ i)
    (hstop : i < range.max) :
    layout.Selected range v.toNat := by
  obtain ⟨r, hr, -, hle, hlt⟩ := exists_of_messageIndexAt hnumbered h
  exact ⟨r, i, hr, ⟨hle, hlt⟩, hstart, hstop⟩

/-- A message whose number is in front of the range is the one in which the range starts. -/
theorem exists_messageIndexAt_or_startsIn (hnumbered : Numbered indexOf layout.toLayout)
    (h : layout.Selected range k) :
    (∃ i v, range.location ≤ i ∧ i < range.max ∧ messageIndexAt indexOf layout.textStorage i =
      some v ∧
      v.toNat = k) ∨ layout.StartsIn range.location k := by
  obtain ⟨r, i, hr, ⟨hle, hlt⟩, hstart, hstop⟩ := h
  have hmax : r.max = r.location + r.length := rfl
  by_cases hbefore : range.location ≤ r.location
  · obtain ⟨n, hn, hlast, hindex⟩ := hnumbered.number hr (by omega)
    refine .inl ⟨r.location, UInt32.ofNat k, hbefore, by omega, ?_, (toNat_index hr).1⟩
    rw [hindex _ (Nat.le_refl _) (by omega), if_pos (by omega)]
  · exact .inr ⟨r, hr, by omega, by omega⟩

theorem previousMessageIndexOfCharIndex_spec (hdelimits : Delimits composer layout.toLayout)
    (hnumbered : Numbered indexOf layout.toLayout) (location : Nat) :
    ∃ v, previousMessageIndexOfCharIndex indexOf layout.textStorage location = some v ∧
      ∀ k, (v ≠ NSNotFound ∧ v.toNat = k) ↔ location < layout.textStorage.length ∧
        (layout.StartsIn location k ∨ layout.StartsAfter location k) := by
  have htext := layout.text_le
  rw [previousMessageIndexOfCharIndex]
  split
  · refine ⟨_, rfl, fun k => iff_of_false (fun h => h.1 rfl) fun h => ?_⟩
    omega
  · rename_i hin
    have hin : location < layout.textStorage.length := by omega
    obtain ⟨v, hv, hspec⟩ := @previousFrom_spec _ indexOf _ _ hin
    refine ⟨v, hv, fun k => ?_⟩
    constructor
    · rintro ⟨hne, rfl⟩
      refine ⟨hin, ?_⟩
      obtain hlast | ⟨hnot, -⟩ := hspec
      · exact (startsIn_or_startsAfter hdelimits hnumbered hlast).2
      · exact absurd hnot hne
    · rintro ⟨-, hstarts⟩
      have hlast : LastIndexed indexOf layout.textStorage location (UInt32.ofNat k) :=
        hstarts.elim (lastIndexed_of_startsIn hnumbered)
          (lastIndexed_of_startsAfter hdelimits hnumbered)
      obtain hlast' | ⟨-, hnone⟩ := hspec
      · obtain rfl := hlast'.unique hlast
        refine ⟨(startsIn_or_startsAfter hdelimits hnumbered hlast).1, ?_⟩
        obtain ⟨r, hr, -⟩ | ⟨r, hr, -⟩ := hstarts <;> exact (toNat_index hr).1
      · obtain ⟨j, hj, hv', -⟩ := hlast
        rw [hnone j hj] at hv'
        cases hv'

theorem mem_iff_found {indexSet : NSIndexSet} (hnumbered : Numbered indexOf layout.toLayout)
    (hset : ∀ k, k ∈ indexSet ↔ ∃ i v, range.location ≤ i ∧ i < range.max ∧
      messageIndexAt indexOf layout.textStorage i = some v ∧ v.toNat = k)
    (hprevious : ∀ k, (v ≠ NSNotFound ∧ v.toNat = k) ↔ range.location < layout.textStorage.length ∧
      (layout.StartsIn range.location k ∨ layout.StartsAfter range.location k))
    (hin : range.max ≤ layout.textStorage.length) (k : Nat) :
    (k ∈ if v ≠ NSNotFound then indexSet.addIndex v.toNat else indexSet) ↔
      layout.Found range k := by
  have hadd : (k ∈ if v ≠ NSNotFound then indexSet.addIndex v.toNat else indexSet) ↔
      k ∈ indexSet ∨ v ≠ NSNotFound ∧ v.toNat = k := by
    by_cases hne : v = NSNotFound <;> simp [hne, or_comm, eq_comm]
  rw [hadd, hset, hprevious, Found]
  constructor
  · rintro (⟨i, w, hstart, hstop, hw, rfl⟩ | hstarts)
    · exact .inl (selected_of_messageIndexAt hnumbered hw hstart hstop)
    · exact .inr hstarts
  · rintro (hselected | hstarts)
    · obtain hindex | hstarts := exists_messageIndexAt_or_startsIn hnumbered hselected
      · exact .inl hindex
      · obtain ⟨r, i, -, -, hstart, hstop⟩ := hselected
        exact .inr ⟨by omega, .inl hstarts⟩
    · exact .inr hstarts

theorem messageIndexesForRange_spec (hdelimits : Delimits composer layout.toLayout)
    (hnumbered : Numbered indexOf layout.toLayout) (hin : range.max ≤ layout.textStorage.length) :
    ∃ indexSet : NSIndexSet, messageIndexesForRange indexOf layout.textStorage range =
        some (if indexSet.count = 0 then none else some indexSet) ∧
      ∀ k, k ∈ indexSet ↔ layout.Found range k := by
  have htext := layout.text_le
  have hmax : range.max = range.location + range.length := rfl
  rw [messageIndexesForRange]
  split
  · -- the range is empty and at the end of the longest text that there can be
    refine ⟨.empty, rfl, fun k => iff_of_false NSIndexSet.not_mem_empty ?_⟩
    rintro (⟨r, i, -, -, hle, hlt⟩ | ⟨hlt, -⟩) <;> omega
  · obtain ⟨indexSet, hset, hmem⟩ :=
      @collectIndexes_spec _ indexOf _ _ _ (Nat.le_refl range.location) hin .empty
    obtain ⟨v, hv, hprevious⟩ :=
      previousMessageIndexOfCharIndex_spec hdelimits hnumbered range.location
    rw [hset, hv]
    refine ⟨_, rfl, mem_iff_found hnumbered (fun k => (hmem k).trans ?_) hprevious hin⟩
    exact or_iff_right NSIndexSet.not_mem_empty

variable (indexOf layout)

/-- What is returned are the messages of which `found` holds, and `nil` if there are none.
No character outside of the text is asked for. -/
def Returns (range : NSRange) (found : Nat → Prop) : Prop :=
  ∃ result, messageIndexesForRange indexOf layout.textStorage range = some result ∧
    (∀ k, (∃ indexSet, result = some indexSet ∧ k ∈ indexSet) ↔ found k) ∧
    (result = none ↔ ∀ k, ¬ found k)

variable {indexOf layout}

theorem returns_found (hdelimits : Delimits composer layout.toLayout)
    (hnumbered : Numbered indexOf layout.toLayout) (hin : range.max ≤ layout.textStorage.length) :
    layout.Returns indexOf range (layout.Found range) := by
  obtain ⟨indexSet, hresult, hmem⟩ := messageIndexesForRange_spec hdelimits hnumbered hin
  refine ⟨_, hresult, fun k => ?_, ?_⟩
  · rw [← hmem]
    split
    · rename_i hcount
      exact iff_of_false (by simp) (NSIndexSet.count_eq_zero_iff.mp hcount k)
    · simp
  · rw [← forall_congr' fun k => not_congr (hmem k), ← NSIndexSet.count_eq_zero_iff]
    simp

/-- What is returned for a range of the text. A range that is not empty has the messages
with a character in it and, when it starts in no message, the message before. -/
theorem returns_of_numbered (hdelimits : Delimits composer layout.toLayout)
    (hnumbered : Numbered indexOf layout.toLayout) (hin : range.max ≤ layout.textStorage.length) :
    layout.Returns indexOf range (layout.Found range) ∧
      (range.length ≠ 0 → ∀ k, layout.Found range k ↔
        layout.Selected range k ∨ layout.StartsAfter range.location k) :=
  ⟨returns_found hdelimits hnumbered hin, fun hlength _ => found_iff hlength hin⟩

theorem exists_selectedMessageIndexes (indexOf : χ → Option UInt32) (textStorage : List χ)
    (selectedRange : NSRange) (lastCharIndex : Nat) :
    ∃ range : NSRange, range.length ≠ 0 ∧
      selectedMessageIndexes indexOf textStorage selectedRange lastCharIndex =
        messageIndexesForRange indexOf textStorage range := by
  refine ⟨_, ?_, rfl⟩
  split
  · exact Nat.one_ne_zero
  · assumption

def numberAndCharacter : TextLayout (Option UInt32) :=
  ⟨⟨⟨[some 0, none], [⟨0, 1⟩], [{}]⟩, by decide, by decide⟩, by decide⟩

def numberComposer : Composer (Option UInt32) := ⟨false, fun m => [some m.index]⟩

theorem range_numberAndCharacter (h : numberAndCharacter.messageRanges[k]? = some r) :
    k = 0 ∧ r = ⟨0, 1⟩ := by
  obtain ⟨hk, rfl⟩ := List.getElem?_eq_some_iff.mp h
  obtain rfl : k = 0 := Nat.lt_one_iff.mp hk
  exact ⟨rfl, rfl⟩

theorem delimits_numberAndCharacter : Delimits numberComposer numberAndCharacter.toLayout where
  count := Nat.le_refl 1
  ordered := by
    intro j k r s hjk hr hs
    obtain ⟨rfl, -⟩ := range_numberAndCharacter hs
    exact absurd hjk (Nat.not_lt_zero j)
  inText := by
    intro k r hr
    obtain ⟨rfl, rfl⟩ := range_numberAndCharacter hr
    decide
  delimits := by
    intro k r m hr hm
    obtain ⟨rfl, rfl⟩ := range_numberAndCharacter hr
    cases hm
    decide

theorem numbered_numberAndCharacter : Numbered id numberAndCharacter.toLayout where
  number := by
    intro k r hr hlength
    obtain ⟨rfl, rfl⟩ := range_numberAndCharacter hr
    refine ⟨1, Nat.one_pos, Nat.le_refl 1, fun i _ hi => ?_⟩
    obtain rfl : i = 0 := Nat.lt_one_iff.mp hi
    rfl
  outside := by
    intro i v hv
    match i with
    | 0 => exact ⟨0, _, rfl, Nat.le_refl 0, Nat.one_pos⟩
    | 1 => cases hv
    | i + 2 => cases hv

def twoNumbers : TextLayout (Option UInt32) :=
  ⟨⟨⟨[some 0, none, some 1, none], [⟨0, 1⟩, ⟨2, 1⟩], [{}, { index := 1 }]⟩, by decide, by decide⟩,
    by decide⟩

theorem range_twoNumbers (h : twoNumbers.messageRanges[k]? = some r) :
    (k = 0 ∧ r = ⟨0, 1⟩) ∨ k = 1 ∧ r = ⟨2, 1⟩ := by
  match k with
  | 0 => exact .inl ⟨rfl, (Option.some.inj h).symm⟩
  | 1 => exact .inr ⟨rfl, (Option.some.inj h).symm⟩
  | k + 2 => cases h

theorem delimits_twoNumbers : Delimits numberComposer twoNumbers.toLayout where
  count := Nat.le_refl 2
  ordered := by
    intro j k r s hjk hr hs
    rcases range_twoNumbers hr with ⟨rfl, rfl⟩ | ⟨rfl, rfl⟩ <;>
      rcases range_twoNumbers hs with ⟨rfl, rfl⟩ | ⟨rfl, rfl⟩
    · exact absurd hjk (Nat.lt_irrefl 0)
    · decide
    · exact absurd hjk (Nat.not_lt_zero 1)
    · exact absurd hjk (Nat.lt_irrefl 1)
  inText := by
    intro k r hr
    rcases range_twoNumbers hr with ⟨rfl, rfl⟩ | ⟨rfl, rfl⟩ <;> decide
  delimits := by
    intro k r m hr hm
    rcases range_twoNumbers hr with ⟨rfl, rfl⟩ | ⟨rfl, rfl⟩ <;> cases hm <;> decide

theorem numbered_twoNumbers : Numbered id twoNumbers.toLayout where
  number := by
    intro k r hr hlength
    rcases range_twoNumbers hr with ⟨rfl, rfl⟩ | ⟨rfl, rfl⟩
    · refine ⟨1, Nat.one_pos, Nat.le_refl 1, fun i _ hi => ?_⟩
      obtain rfl : i = 0 := Nat.lt_one_iff.mp hi
      rfl
    · refine ⟨1, Nat.one_pos, Nat.le_refl 1, fun i hle hi => ?_⟩
      obtain rfl : i = 2 := Nat.le_antisymm (Nat.le_of_lt_succ hi) hle
      rfl
  outside := by
    intro i v hv
    match i with
    | 0 => exact ⟨0, _, rfl, Nat.le_refl 0, Nat.one_pos⟩
    | 1 => cases hv
    | 2 => exact ⟨1, _, rfl, Nat.le_refl 2, Nat.lt_succ_self 2⟩
    | 3 => cases hv
    | i + 4 => cases hv

/-- From behind the first message to the end. -/
theorem returns_of_two_numbers :
    twoNumbers.Returns id ⟨1, 3⟩ (twoNumbers.Found ⟨1, 3⟩) ∧
      ((3 : Nat) ≠ 0 → ∀ k, twoNumbers.Found ⟨1, 3⟩ k ↔
        twoNumbers.Selected ⟨1, 3⟩ k ∨ twoNumbers.StartsAfter 1 k) :=
  returns_of_numbered delimits_twoNumbers numbered_twoNumbers (by decide)

/-- The range starts behind the last message, not between two. -/
theorem not_returns_startsBetween :
    Delimits numberComposer numberAndCharacter.toLayout ∧ Numbered id numberAndCharacter.toLayout ∧
      (NSRange.mk 1 1).max ≤ numberAndCharacter.textStorage.length ∧
      ¬ numberAndCharacter.Returns id ⟨1, 1⟩ fun k =>
        numberAndCharacter.Selected ⟨1, 1⟩ k ∨ numberAndCharacter.StartsBetween 1 k := by
  refine ⟨delimits_numberAndCharacter, numbered_numberAndCharacter, by decide, ?_⟩
  rintro ⟨result, hresult, hmem, -⟩
  have hin : (NSRange.mk 1 1).max ≤ numberAndCharacter.textStorage.length := by decide
  obtain ⟨result', hresult', hfound, -⟩ :=
    returns_found delimits_numberAndCharacter numbered_numberAndCharacter hin
  rw [hresult] at hresult'
  cases hresult'
  have hafter : numberAndCharacter.StartsAfter 1 0 :=
    ⟨⟨0, 1⟩, rfl, Nat.one_ne_zero, Nat.le_refl 1, fun k s hs _ hk =>
      absurd (range_numberAndCharacter hs).1 (Nat.ne_of_gt hk)⟩
  obtain ⟨r, i, hr, ⟨-, hlt⟩, hstart, -⟩ | ⟨-, hbetween⟩ :=
    (hmem 0).mp ((hfound 0).mpr (.inr ⟨by decide, .inr hafter⟩))
  · cases hr
    exact absurd (Nat.lt_of_le_of_lt hstart hlt) (by decide)
  · exact absurd hbetween (by decide)

end TextLayout

end BathyScaphe.Thread
