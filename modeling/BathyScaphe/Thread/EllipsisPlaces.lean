import BathyScaphe.Lib.Marks
import BathyScaphe.Thread.Ellipsis

/-!
# Taking ellipses out and putting them in

Taking out all ellipses keeps the ranges right unless a range starts between two
units of an ellipsis. Putting one in at the start of a range always does. Then every
hidden run has its ellipsis, and there is no other.
-/

namespace BathyScaphe.Thread

open Dat Splice Marks

variable {composer : Composer χ} {layout : Layout (TextUnit χ)} {messages : List CMRThreadMessage}
  {j k : Nat} {r s : NSRange}

-- Out

theorem slideRange_neg (length location : Nat) (r : NSRange) :
    Layout.slideRange (-(length : Int)) (location + length) r =
      { r with location :=
          if location + length ≤ r.location then r.location - length else r.location } := by
  rw [Layout.slideRange]
  split
  · congr 1
    omega
  · rfl

theorem removeFrom_eq (location : Nat) (bs : List (List (TextUnit χ))) (ranges : List NSRange) :
    removeFrom location bs ranges =
      ((bs.filter fun block => !block.any TextUnit.isProxy).flatten,
        ranges.map fun r =>
          { r with location := move TextUnit.isProxy location bs r.location }) := by
  induction bs generalizing location ranges with
  | nil =>
    rw [removeFrom]
    simp [move]
  | cons block bs ih =>
    rw [removeFrom]
    cases hany : block.any TextUnit.isProxy with
    | true =>
      rw [if_pos rfl, ih, Layout.slideMessageRanges, List.map_map,
        List.filter_cons_of_neg (by simp [hany])]
      refine Prod.ext rfl (List.map_congr_left fun r _ => ?_)
      rw [Function.comp_apply, slideRange_neg, move, if_pos hany]
    | false =>
      rw [if_neg Bool.false_ne_true, ih, List.filter_cons_of_pos (by simp [hany]),
        List.flatten_cons]
      refine Prod.ext rfl (List.map_congr_left fun r _ => ?_)
      rw [move, if_neg (by simp [hany])]

/-- The layout without ellipses: every range starts behind the text it was behind. -/
def withoutEllipses (layout : Layout (TextUnit χ)) : Layout (TextUnit χ) :=
  { layout with
    textStorage := unmarked TextUnit.isProxy layout.textStorage
    messageRanges := layout.messageRanges.map fun r =>
      { r with location := rank TextUnit.isProxy layout.textStorage r.location } }

theorem textStorage_removeEllipsisProxyAttachments (layout : Layout (TextUnit χ)) :
    layout.removeEllipsisProxyAttachments.textStorage =
      unmarked TextUnit.isProxy layout.textStorage := by
  have hflatten := unmarked_flatten (uniform_blocks TextUnit.isProxy layout.textStorage)
  rw [flatten_blocks] at hflatten
  rw [Layout.removeEllipsisProxyAttachments, removeFrom_eq]
  exact hflatten.symm

theorem messageRanges_removeEllipsisProxyAttachments (layout : Layout (TextUnit χ)) :
    layout.removeEllipsisProxyAttachments.messageRanges = layout.messageRanges.map fun r =>
      { r with
        location :=
          move TextUnit.isProxy 0 (blocks TextUnit.isProxy layout.textStorage) r.location } := by
  rw [Layout.removeEllipsisProxyAttachments, removeFrom_eq]
  rfl

theorem removeEllipsisProxyAttachments_eq
    (hin : ∀ r ∈ layout.messageRanges, r.location ≤ layout.textStorage.length)
    (hinside : ∀ r ∈ layout.messageRanges,
      ¬ Inside TextUnit.isProxy layout.textStorage r.location) :
    layout.removeEllipsisProxyAttachments = withoutEllipses layout := by
  have hranges : layout.removeEllipsisProxyAttachments.messageRanges =
      (withoutEllipses layout).messageRanges := by
    rw [messageRanges_removeEllipsisProxyAttachments]
    refine List.map_congr_left fun r hr => ?_
    have hmove := move_eq_rank (uniform_blocks TextUnit.isProxy layout.textStorage)
      (Nat.zero_le r.location)
      (by rw [flatten_blocks]; exact hinside r hr) (by rw [flatten_blocks]; exact hin r hr)
    rw [flatten_blocks, Nat.zero_add] at hmove
    exact congrArg (fun location => { r with location := location }) hmove
  have hlayout : layout.removeEllipsisProxyAttachments =
      ⟨layout.removeEllipsisProxyAttachments.textStorage,
        layout.removeEllipsisProxyAttachments.messageRanges, layout.messageBuffer⟩ := rfl
  rw [hlayout, textStorage_removeEllipsisProxyAttachments, hranges]
  rfl

theorem IsLaid.slice_unmarked (h : IsLaid composer messages layout)
    (hr : layout.messageRanges[k]? = some r) :
    rank TextUnit.isProxy layout.textStorage r.max =
      rank TextUnit.isProxy layout.textStorage r.location + r.length ∧
      slice (rank TextUnit.isProxy layout.textStorage r.location) r.length
        (unmarked TextUnit.isProxy layout.textStorage) =
          slice r.location r.length layout.textStorage :=
  Marks.slice_unmarked (h.not_isProxy r (List.mem_of_getElem? hr)) (h.delimits.inText hr)

theorem isLaid_withoutEllipses (h : IsLaid composer messages layout) :
    IsLaid composer messages (withoutEllipses layout) := by
  have hrange : ∀ {k : Nat} {r' : NSRange}, (withoutEllipses layout).messageRanges[k]? = some r' →
      ∃ r, layout.messageRanges[k]? = some r ∧
        r' = { r with location := rank TextUnit.isProxy layout.textStorage r.location } := by
    intro k r' hr'
    rw [withoutEllipses, List.getElem?_map] at hr'
    obtain ⟨r, hr, rfl⟩ := Option.map_eq_some_iff.mp hr'
    exact ⟨r, hr, rfl⟩
  have hcount : (withoutEllipses layout).messageRanges.length = messages.length := by
    rw [withoutEllipses, List.length_map, h.count]
  refine ⟨hcount, Nat.le_of_eq hcount, ?_, ?_, ?_⟩
  · intro j k r' s' hjk hr' hs'
    obtain ⟨r, hr, rfl⟩ := hrange hr'
    obtain ⟨s, hs, rfl⟩ := hrange hs'
    have hrank := rank_le_rank TextUnit.isProxy layout.textStorage
      (h.delimits.ordered hjk hr hs)
    rw [(h.slice_unmarked hr).1] at hrank
    exact hrank
  · intro k r' hr'
    obtain ⟨r, hr, rfl⟩ := hrange hr'
    have hrank := rank_le_length_unmarked TextUnit.isProxy layout.textStorage r.max
    rw [(h.slice_unmarked hr).1] at hrank
    exact hrank
  · intro k r' m hr' hm
    obtain ⟨r, hr, rfl⟩ := hrange hr'
    obtain ⟨hlength, htext⟩ := h.delimits.delimits hr hm
    exact ⟨hlength, (h.slice_unmarked hr).2.trans htext⟩

-- In

def withEllipsis (first last location : Nat) (layout : Layout (TextUnit χ)) : Layout (TextUnit χ) :=
  { layout with
    textStorage :=
      splice location 0 (ellipsisProxy (UInt32.ofNat first) (UInt32.ofNat last)) layout.textStorage
    messageRanges := Layout.slideMessageRanges 4 location layout.messageRanges }

theorem length_withEllipsis (hin : location ≤ layout.textStorage.length) (first last : Nat) :
    (withEllipsis first last location layout).textStorage.length =
      layout.textStorage.length + 4 := by
  have hlength := length_splice (show location + 0 ≤ layout.textStorage.length from hin)
    (ellipsisProxy (UInt32.ofNat first) (UInt32.ofNat last))
  exact hlength

theorem insertEllipsisProxyAttachmentFrom_eq (hr : layout.messageRanges[first]? = some r)
    (hin : r.location ≤ layout.textStorage.length) (last : Nat) :
    layout.insertEllipsisProxyAttachmentFrom first last =
      some (withEllipsis first last r.location layout) := by
  have hlength := length_withEllipsis hin first last
  have hchange : ((splice r.location 0 (ellipsisProxy (UInt32.ofNat first) (UInt32.ofNat last))
      layout.textStorage).length : Int) - layout.textStorage.length = 4 := by
    rw [show (splice r.location 0 _ layout.textStorage).length = _ from hlength]
    omega
  simp only [Layout.insertEllipsisProxyAttachmentFrom, hr, Option.bind_eq_bind, Option.bind_some,
    insertAttributedString, if_pos hin, hchange]
  rfl

theorem slideRange_cases (h : IsLaid composer messages layout)
    (hr : layout.messageRanges[first]? = some r) (hs : layout.messageRanges[k]? = some s) :
    (r.location ≤ s.location ∧ Layout.slideRange 4 r.location s = ⟨s.location + 4, s.length⟩) ∨
      (s.max ≤ r.location ∧ s.location < r.location ∧ k < first ∧
        Layout.slideRange 4 r.location s = s) := by
  by_cases hslide : r.location ≤ s.location
  · refine .inl ⟨hslide, ?_⟩
    rw [Layout.slideRange, if_pos hslide]
    rfl
  · have hk : k < first := by
      obtain hk | rfl | hk := Nat.lt_trichotomy k first
      · exact hk
      · obtain rfl := Option.some.inj (hr.symm.trans hs)
        exact absurd (Nat.le_refl _) hslide
      · have hle : r.max ≤ s.location := h.delimits.ordered hk hr hs
        exact absurd (Nat.le_trans (Nat.le_add_right _ _) hle) hslide
    refine .inr ⟨h.delimits.ordered hk hs hr, Nat.not_le.mp hslide, hk, ?_⟩
    rw [Layout.slideRange, if_neg hslide]

theorem getElem?_slideMessageRanges {ranges : List NSRange}
    (hs : (Layout.slideMessageRanges change location ranges)[k]? = some s) :
    ∃ s₀, ranges[k]? = some s₀ ∧ s = Layout.slideRange change location s₀ := by
  rw [Layout.slideMessageRanges, List.getElem?_map] at hs
  obtain ⟨s₀, hs₀, rfl⟩ := Option.map_eq_some_iff.mp hs
  exact ⟨s₀, hs₀, rfl⟩

theorem isLaid_withEllipsis (h : IsLaid composer messages layout)
    (hr : layout.messageRanges[first]? = some r) (last : Nat) :
    IsLaid composer messages (withEllipsis first last r.location layout) := by
  have hin : r.location ≤ layout.textStorage.length :=
    Nat.le_trans (Nat.le_add_right _ _) (h.delimits.inText hr)
  have hlength := length_withEllipsis hin first last
  have hcount : (withEllipsis first last r.location layout).messageRanges.length =
    messages.length := by
    rw [withEllipsis, Layout.slideMessageRanges, List.length_map, h.count]
  refine ⟨hcount, Nat.le_of_eq hcount, ?_, ?_, ?_⟩
  · intro j k s' t' hjk hs' ht'
    obtain ⟨s, hs, rfl⟩ := getElem?_slideMessageRanges hs'
    obtain ⟨t, ht, rfl⟩ := getElem?_slideMessageRanges ht'
    have hle : s.max ≤ t.location := h.delimits.ordered hjk hs ht
    rw [NSRange.max] at hle
    obtain ⟨hsloc, hs⟩ | ⟨hsmax, -, -, hs⟩ := slideRange_cases h hr hs
    · obtain ⟨htloc, ht⟩ | ⟨-, htloc, -, ht⟩ := slideRange_cases h hr ht
      · rw [hs, ht]
        show s.location + 4 + s.length ≤ t.location + 4
        omega
      · omega
    · obtain ⟨htloc, ht⟩ | ⟨-, -, -, ht⟩ := slideRange_cases h hr ht
      · rw [hs, ht]
        exact Nat.le_trans hle (Nat.le_add_right _ _)
      · rw [hs, ht]
        exact hle
  · intro k s' hs'
    obtain ⟨s, hs, rfl⟩ := getElem?_slideMessageRanges hs'
    have hle : s.max ≤ layout.textStorage.length := h.delimits.inText hs
    refine Nat.le_trans ?_ (Nat.le_of_eq hlength.symm)
    rw [NSRange.max] at hle
    obtain ⟨-, hs⟩ | ⟨-, -, -, hs⟩ := slideRange_cases h hr hs
    · rw [hs]
      show s.location + 4 + s.length ≤ layout.textStorage.length + 4
      omega
    · rw [hs]
      exact Nat.le_trans hle (Nat.le_add_right _ _)
  · intro k s' m hs' hm
    obtain ⟨s, hs, rfl⟩ := getElem?_slideMessageRanges hs'
    obtain ⟨hlen, htext⟩ := h.delimits.delimits hs hm
    obtain ⟨hsloc, hs⟩ | ⟨hsmax, -, -, hs⟩ := slideRange_cases h hr hs
    · have hafter : r.location + 0 ≤ s.location := hsloc
      rw [hs]
      exact ⟨hlen, (slice_splice_after hafter hin
        (ellipsisProxy (UInt32.ofNat first) (UInt32.ofNat last))).trans htext⟩
    · rw [hs]
      exact ⟨hlen, (slice_splice_before hsmax hin _).trans htext⟩

-- Runs

def isHiddenAt (messages : List CMRThreadMessage) (k : Nat) : Bool :=
  messages[k]?.any CMRThreadMessage.isTemporaryInvisible

structure IsHiddenRun (messages : List CMRThreadMessage) (first last : Nat) : Prop where
  le : first ≤ last
  hidden : ∀ k, first ≤ k → k ≤ last → isHiddenAt messages k = true
  before : ∀ k, k + 1 = first → isHiddenAt messages k = false
  behind : isHiddenAt messages (last + 1) = false

structure Ellipsis where
  first : Nat
  last : Nat
  place : Nat

/-- An ellipsis stands behind the texts of the messages before its own and in front
of the messages behind them. -/
structure EllipsisAt (layout : Layout (TextUnit χ)) (e : Ellipsis) : Prop where
  text : slice e.place 4 layout.textStorage = ellipsisProxy (UInt32.ofNat e.first)
    (UInt32.ofNat e.last)
  before : ∀ k r, k < e.first → layout.messageRanges[k]? = some r → r.length ≠ 0 → r.max ≤ e.place
  behind : ∀ k r, e.last < k → layout.messageRanges[k]? = some r → e.place + 4 ≤ r.location

/-- The ellipses of a layout stand in the order of their messages, and nothing else
belongs to an ellipsis. -/
structure Placed (layout : Layout (TextUnit χ)) (ellipses : List Ellipsis) : Prop where
  places : ∀ e ∈ ellipses, EllipsisAt layout e
  apart : ellipses.Pairwise fun e e' => e.last < e'.first ∧ e.place + 4 ≤ e'.place
  only : ∀ i u, layout.textStorage[i]? = some u → u.isProxy = true →
    ∃ e ∈ ellipses, e.place ≤ i ∧ i < e.place + 4

def HasEllipses (layout : Layout (TextUnit χ)) : Prop :=
  ∃ ellipses, Placed layout ellipses ∧ ∀ first last, IsHiddenRun layout.messageBuffer first last ↔
    ∃ e ∈ ellipses, e.first = first ∧ e.last = last

theorem EllipsisAt.withEllipsis (h : IsLaid composer messages layout) (he : EllipsisAt layout e)
    (hr : layout.messageRanges[first]? = some r) (hbefore : e.last < first) (last : Nat) :
    EllipsisAt (withEllipsis first last r.location layout) e := by
  have hin : r.location ≤ layout.textStorage.length :=
    Nat.le_trans (Nat.le_add_right _ _) (h.delimits.inText hr)
  have hplace : e.place + 4 ≤ r.location := he.behind first r hbefore hr
  refine ⟨?_, ?_, ?_⟩
  · rw [← he.text]
    exact slice_splice_before hplace hin _
  · intro k s' hk hs' hne
    obtain ⟨s, hs, rfl⟩ := getElem?_slideMessageRanges hs'
    obtain ⟨hsloc, hslide⟩ | ⟨-, -, -, hslide⟩ := slideRange_cases h hr hs
    · rw [hslide] at hne
      have hne : s.length ≠ 0 := hne
      have hmax : s.max ≤ e.place := he.before k s hk hs hne
      rw [NSRange.max] at hmax
      omega
    · rw [hslide] at hne ⊢
      exact he.before k s hk hs hne
  · intro k s' hk hs'
    obtain ⟨s, hs, rfl⟩ := getElem?_slideMessageRanges hs'
    have hbehind := he.behind k s hk hs
    obtain ⟨-, hslide⟩ | ⟨-, -, -, hslide⟩ := slideRange_cases h hr hs
    · rw [hslide]
      exact Nat.le_trans hbehind (Nat.le_add_right _ _)
    · rw [hslide]
      exact hbehind

theorem ellipsisAt_withEllipsis (h : IsLaid composer messages layout)
    (hr : layout.messageRanges[first]? = some r) (hle : first ≤ last) :
    EllipsisAt (withEllipsis first last r.location layout) ⟨first, last, r.location⟩ := by
  have hin : r.location ≤ layout.textStorage.length :=
    Nat.le_trans (Nat.le_add_right _ _) (h.delimits.inText hr)
  refine ⟨?_, ?_, ?_⟩
  · exact slice_splice_self hin (ellipsisProxy (UInt32.ofNat first) (UInt32.ofNat last))
  · intro k s' hk hs' hne
    obtain ⟨s, hs, rfl⟩ := getElem?_slideMessageRanges hs'
    have hmax : s.max ≤ r.location := h.delimits.ordered hk hs hr
    obtain ⟨hsloc, hslide⟩ | ⟨-, -, -, hslide⟩ := slideRange_cases h hr hs
    · rw [hslide] at hne
      have hne : s.length ≠ 0 := hne
      rw [NSRange.max] at hmax
      omega
    · rw [hslide]
      exact hmax
  · intro k s' hk hs'
    obtain ⟨s, hs, rfl⟩ := getElem?_slideMessageRanges hs'
    obtain ⟨hsloc, hslide⟩ | ⟨-, -, hlt, -⟩ := slideRange_cases h hr hs
    · rw [hslide]
      exact Nat.add_le_add_right hsloc 4
    · have hk : last < k := hk
      omega

theorem Placed.withEllipsis (h : IsLaid composer messages layout) (hplaced : Placed layout ellipses)
    (hr : layout.messageRanges[first]? = some r) (hle : first ≤ last)
    (hbefore : ∀ e ∈ ellipses, e.last < first) :
    Placed (withEllipsis first last r.location layout)
      (ellipses ++ [⟨first, last, r.location⟩]) := by
  have hin : r.location ≤ layout.textStorage.length :=
    Nat.le_trans (Nat.le_add_right _ _) (h.delimits.inText hr)
  have hplace : ∀ e ∈ ellipses, e.place + 4 ≤ r.location :=
    fun e he => (hplaced.places e he).behind first r (hbefore e he) hr
  refine ⟨?_, ?_, ?_⟩
  · rw [List.forall_mem_append, List.forall_mem_singleton]
    exact ⟨fun e he => (hplaced.places e he).withEllipsis h hr (hbefore e he) last,
      ellipsisAt_withEllipsis h hr hle⟩
  · rw [List.pairwise_append]
    refine ⟨hplaced.apart, List.pairwise_singleton _ _, fun e he e' he' => ?_⟩
    obtain rfl := List.mem_singleton.mp he'
    exact ⟨hbefore e he, hplace e he⟩
  · intro i u hi hu
    by_cases hfront : i < r.location
    · have htext : layout.textStorage[i]? = some u :=
        (getElem?_splice_before hfront hin 0 _).symm.trans hi
      obtain ⟨e, he, hlow, hhigh⟩ := hplaced.only i u htext hu
      exact ⟨e, List.mem_append_left _ he, hlow, hhigh⟩
    · by_cases hown : i < r.location + 4
      · exact ⟨_, List.mem_append_right _ (List.mem_singleton.mpr rfl), Nat.not_lt.mp hfront, hown⟩
      · have htext : layout.textStorage[i - 4]? = some u :=
          (getElem?_splice_after (Nat.not_lt.mp hown) hin 0).symm.trans hi
        obtain ⟨e, he, hlow, hhigh⟩ := hplaced.only (i - 4) u htext hu
        have hend := hplace e he
        omega

-- The loop

theorem lt_length_of_isHiddenAt (h : isHiddenAt messages k = true) : k < messages.length := by
  by_contra hout
  rw [isHiddenAt, List.getElem?_eq_none (Nat.not_lt.mp hout)] at h
  cases h

/-- Before the message of index `i` every hidden run has its ellipsis, but for the
one that starts at `startIndex` and is not at its end. -/
structure Fixing (composer : Composer χ) (messages : List CMRThreadMessage) (i : Nat)
    (startIndex : Option Nat) (layout : Layout (TextUnit χ)) (ellipses : List Ellipsis) : Prop where
  laid : IsLaid composer messages layout
  placed : Placed layout ellipses
  runs : ∀ e ∈ ellipses, IsHiddenRun messages e.first e.last ∧ e.last < startIndex.getD i
  all : ∀ first last, IsHiddenRun messages first last → first < startIndex.getD i →
    ∃ e ∈ ellipses, e.first = first ∧ e.last = last
  opened : ∀ start, startIndex = some start → start < i ∧
    (∀ k, start ≤ k → k < i → isHiddenAt messages k = true) ∧
    ∀ k, k + 1 = start → isHiddenAt messages k = false
  closed : startIndex = none → ∀ k, k + 1 = i → isHiddenAt messages k = false

theorem Fixing.hidden (h : Fixing composer messages i startIndex layout ellipses)
    (hi : isHiddenAt messages i = true) :
    Fixing composer messages (i + 1) (startIndex.or (some i)) layout ellipses := by
  cases startIndex with
  | some start =>
    obtain ⟨hlt, hhidden, hbefore⟩ := h.opened start rfl
    refine ⟨h.laid, h.placed, h.runs, h.all, ?_, nofun⟩
    intro start' hstart'
    obtain rfl := Option.some.inj hstart'
    refine ⟨Nat.lt_succ_of_lt hlt, fun k hle hk => ?_, hbefore⟩
    obtain hk | rfl := Nat.lt_succ_iff_lt_or_eq.mp hk
    · exact hhidden k hle hk
    · exact hi
  | none =>
    refine ⟨h.laid, h.placed, h.runs, h.all, ?_, nofun⟩
    intro start' hstart'
    obtain rfl := Option.some.inj hstart'
    refine ⟨Nat.lt_succ_self i, fun k hle hk => ?_, h.closed rfl⟩
    rwa [Nat.le_antisymm (Nat.le_of_lt_succ hk) hle]

theorem Fixing.visible (h : Fixing composer messages i none layout ellipses)
    (hi : isHiddenAt messages i = false) :
    Fixing composer messages (i + 1) none layout ellipses := by
  refine ⟨h.laid, h.placed, ?_, ?_, nofun, ?_⟩
  · exact fun e he => ⟨(h.runs e he).1, Nat.lt_succ_of_lt (h.runs e he).2⟩
  · intro first last hrun hfirst
    have hne : first ≠ i := by
      rintro rfl
      rw [hrun.hidden first (Nat.le_refl _) hrun.le] at hi
      cases hi
    exact h.all first last hrun (Nat.lt_of_le_of_ne (Nat.le_of_lt_succ hfirst) hne)
  · intro _ k hk
    rwa [Nat.succ_inj.mp hk]

theorem IsHiddenRun.first_le (h : IsHiddenRun messages first last)
    (h' : IsHiddenRun messages first' last')
    (hk : first ≤ k) (hlast' : k ≤ last') : first ≤ first' := by
  by_contra hlt
  have hbefore := h.before (first - 1) (by omega)
  rw [h'.hidden (first - 1) (by omega) (by omega)] at hbefore
  cases hbefore

theorem IsHiddenRun.last_le (h : IsHiddenRun messages first last)
    (h' : IsHiddenRun messages first' last')
    (hk : k ≤ last) (hfirst' : first' ≤ k) : last' ≤ last := by
  by_contra hlt
  have hbehind := h.behind
  rw [h'.hidden (last + 1) (by omega) (by omega)] at hbehind
  cases hbehind

theorem IsHiddenRun.eq_of_mem (h : IsHiddenRun messages first last)
    (h' : IsHiddenRun messages first' last')
    (hfirst : first ≤ k) (hlast : k ≤ last) (hfirst' : first' ≤ k) (hlast' : k ≤ last') :
    first = first' ∧ last = last' :=
  ⟨Nat.le_antisymm (h.first_le h' hfirst hlast') (h'.first_le h hfirst' hlast),
    Nat.le_antisymm (h'.last_le h hlast' hfirst) (h.last_le h' hlast hfirst')⟩

theorem Fixing.close (h : Fixing composer messages i (some start) layout ellipses)
    (hi : isHiddenAt messages i = false) :
    ∃ layout', layout.insertEllipsisProxyAttachmentFrom start (i - 1) = some layout' ∧
      layout'.messageBuffer = layout.messageBuffer ∧
      ∃ ellipses', Fixing composer messages (i + 1) none layout' ellipses' := by
  obtain ⟨hlt, hhidden, hbefore⟩ := h.opened start rfl
  have hstart : start < layout.messageRanges.length := by
    rw [h.laid.count]
    exact lt_length_of_isHiddenAt (hhidden start (Nat.le_refl _) hlt)
  obtain ⟨r, hr⟩ : ∃ r, layout.messageRanges[start]? = some r :=
    ⟨_, List.getElem?_eq_getElem hstart⟩
  have hin : r.location ≤ layout.textStorage.length :=
    Nat.le_trans (Nat.le_add_right _ _) (h.laid.delimits.inText hr)
  have hlast : i - 1 + 1 = i := Nat.sub_add_cancel (Nat.lt_of_le_of_lt (Nat.zero_le _) hlt)
  have hrun : IsHiddenRun messages start (i - 1) :=
    ⟨by omega, fun k hle hk => hhidden k hle (by omega), hbefore, by rwa [hlast]⟩
  refine ⟨_, insertEllipsisProxyAttachmentFrom_eq hr hin (i - 1), rfl, _,
    isLaid_withEllipsis h.laid hr (i - 1),
    h.placed.withEllipsis h.laid hr hrun.le fun e he => (h.runs e he).2, ?_, ?_, nofun, ?_⟩
  · rw [List.forall_mem_append, List.forall_mem_singleton]
    refine ⟨fun e he => ⟨(h.runs e he).1, ?_⟩, hrun, show i - 1 < i + 1 by omega⟩
    exact Nat.lt_trans (h.runs e he).2 (Nat.lt_succ_of_lt hlt)
  · intro first last hrun' hfirst
    by_cases hearlier : first < start
    · obtain ⟨e, he, hsame⟩ := h.all first last hrun' hearlier
      exact ⟨e, List.mem_append_left _ he, hsame⟩
    · have hne : first ≠ i := by
        rintro rfl
        rw [hrun'.hidden first (Nat.le_refl _) hrun'.le] at hi
        cases hi
      have hfirst : first < i + 1 := hfirst
      obtain ⟨hsame, hsame'⟩ :=
        hrun.eq_of_mem hrun' (Nat.not_lt.mp hearlier) (by omega) (Nat.le_refl first) hrun'.le
      exact ⟨_, List.mem_append_right _ (List.mem_singleton.mpr rfl), hsame, hsame'⟩
  · intro _ k hk
    rwa [Nat.succ_inj.mp hk]

theorem isHiddenAt_eq (hm : messages[i]? = some m) :
    isHiddenAt messages i = m.isTemporaryInvisible := by
  rw [isHiddenAt, hm]
  rfl

theorem Fixing.insertEllipses (h : Fixing composer messages i startIndex layout ellipses)
    (hrest : messages.drop i = rest) :
    ∃ layout', layout.insertEllipses rest i startIndex = some layout' ∧
      layout'.messageBuffer = layout.messageBuffer ∧
      ∃ n ellipses', messages.length ≤ n ∧ Fixing composer messages n none layout' ellipses' := by
  induction rest generalizing i startIndex layout ellipses with
  | nil =>
    have hle : messages.length ≤ i := List.drop_eq_nil_iff.mp hrest
    cases startIndex with
    | none => exact ⟨layout, rfl, rfl, i, ellipses, hle, h⟩
    | some start =>
      have hi : isHiddenAt messages i = false := by
        rw [isHiddenAt, List.getElem?_eq_none hle]
        rfl
      obtain ⟨layout', heq, hbuffer, ellipses', hfixing⟩ := h.close hi
      exact ⟨layout', heq, hbuffer, i + 1, ellipses', Nat.le_succ_of_le hle, hfixing⟩
  | cons m rest ih =>
    have hm : messages[i]? = some m := by
      rw [← List.head?_drop, hrest]
      rfl
    have hnext : messages.drop (i + 1) = rest := by
      rw [← List.drop_drop, hrest]
      rfl
    have hvisible := isHiddenAt_eq hm
    cases startIndex with
    | none =>
      rw [Layout.insertEllipses]
      cases htemporary : m.isTemporaryInvisible with
      | true => exact ih (h.hidden (hvisible.trans htemporary)) hnext
      | false => exact ih (h.visible (hvisible.trans htemporary)) hnext
    | some start =>
      rw [Layout.insertEllipses]
      cases htemporary : m.isTemporaryInvisible with
      | true => exact ih (h.hidden (hvisible.trans htemporary)) hnext
      | false =>
        obtain ⟨closed, hclosed, hbuffer, ellipses', hfixing⟩ := h.close (hvisible.trans htemporary)
        obtain ⟨layout', heq, hbuffer', hend⟩ := ih hfixing hnext
        refine ⟨layout', ?_, hbuffer'.trans hbuffer, hend⟩
        rw [if_neg Bool.false_ne_true, hclosed]
        exact heq

theorem placed_withoutEllipses (layout : Layout (TextUnit χ)) :
    Placed (withoutEllipses layout) [] := by
  refine ⟨nofun, List.Pairwise.nil, fun i u hi hu => ?_⟩
  have hmem : u ∈ unmarked TextUnit.isProxy layout.textStorage := List.mem_of_getElem? hi
  have hnot := (List.mem_filter.mp hmem).2
  rw [hu] at hnot
  cases hnot

/-- Where no range starts inside of an ellipsis, the ellipses are right afterwards. -/
theorem fixEllipsisProxyAttachment_hasEllipses (h : IsLaid composer layout.messageBuffer layout)
    (hinside : ∀ r ∈ layout.messageRanges,
      ¬ Inside TextUnit.isProxy layout.textStorage r.location) :
    ∃ layout', layout.fixEllipsisProxyAttachment = some layout' ∧
      layout'.messageBuffer = layout.messageBuffer ∧ IsLaid composer layout'.messageBuffer layout' ∧
      HasEllipses layout' := by
  have hin : ∀ r ∈ layout.messageRanges, r.location ≤ layout.textStorage.length := by
    intro r hr
    obtain ⟨k, hk⟩ := List.mem_iff_getElem?.mp hr
    exact Nat.le_trans (Nat.le_add_right _ _) (h.delimits.inText hk)
  have hstart : Fixing composer layout.messageBuffer 0 none (withoutEllipses layout) [] :=
    ⟨isLaid_withoutEllipses h, placed_withoutEllipses layout, nofun, nofun, nofun, nofun⟩
  obtain ⟨layout', heq, hbuffer, n, ellipses, hend, hfixing⟩ := hstart.insertEllipses rfl
  have hbuffer : layout'.messageBuffer = layout.messageBuffer := hbuffer
  refine ⟨layout', ?_, hbuffer, hbuffer ▸ hfixing.laid, ellipses, hfixing.placed,
    fun first last => ?_⟩
  · rw [Layout.fixEllipsisProxyAttachment, removeEllipsisProxyAttachments_eq hin hinside]
    exact heq
  · rw [hbuffer]
    constructor
    · intro hrun
      have hfirst := lt_length_of_isHiddenAt (hrun.hidden first (Nat.le_refl _) hrun.le)
      exact hfixing.all first last hrun (Nat.lt_of_lt_of_le hfirst hend)
    · rintro ⟨e, he, rfl, rfl⟩
      exact (hfixing.runs e he).1

-- Overtaken ranges

/-- A range starts behind the text or behind the start of a later one. -/
def Overtaken (layout : Layout (TextUnit χ)) : Prop :=
  ∃ (j : Nat) (r : NSRange), layout.messageRanges[j]? = some r ∧
    (layout.textStorage.length < r.location ∨
      ∃ (k : Nat) (s : NSRange), j < k ∧ layout.messageRanges[k]? = some s ∧
      s.location < r.location)

theorem Overtaken.not_isLaid (h : Overtaken layout) : ¬ IsLaid composer messages layout := by
  rintro ⟨-, hdelimits⟩
  obtain ⟨j, r, hr, hbehind | ⟨k, s, hjk, hs, hlt⟩⟩ := h
  · have hin : r.location + r.length ≤ layout.textStorage.length := hdelimits.inText hr
    omega
  · have hle : r.location + r.length ≤ s.location := hdelimits.ordered hjk hr hs
    omega

theorem slideRange_location (change fromLocation : Nat) (r : NSRange) :
    (Layout.slideRange change fromLocation r).location =
      if fromLocation ≤ r.location then r.location + change else r.location := by
  rw [Layout.slideRange]
  split
  · exact Int.toNat_natCast (r.location + change)
  · rfl

theorem Overtaken.insertEllipsisProxyAttachmentFrom (h : Overtaken layout)
    (heq : layout.insertEllipsisProxyAttachmentFrom first last = some layout') :
    Overtaken layout' := by
  cases hfirst : layout.messageRanges[first]? with
  | none =>
    rw [Layout.insertEllipsisProxyAttachmentFrom, hfirst] at heq
    cases heq
  | some range =>
    by_cases hin : range.location ≤ layout.textStorage.length
    · rw [insertEllipsisProxyAttachmentFrom_eq hfirst hin] at heq
      obtain rfl := Option.some.inj heq
      have hslid : ∀ {k : Nat} {s : NSRange}, layout.messageRanges[k]? = some s →
          (withEllipsis first last range.location layout).messageRanges[k]? =
            some (Layout.slideRange 4 range.location s) := by
        intro k s hs
        rw [withEllipsis, Layout.slideMessageRanges, List.getElem?_map, hs]
        rfl
      have hlocation : ∀ s, (Layout.slideRange 4 range.location s).location = _ :=
        slideRange_location 4 range.location
      obtain ⟨j, r, hr, hbehind | ⟨k, s, hjk, hs, hlt⟩⟩ := h
      · refine ⟨j, _, hslid hr, .inl ?_⟩
        rw [length_withEllipsis hin, hlocation, if_pos (by omega)]
        omega
      · refine ⟨j, _, hslid hr, .inr ⟨k, _, hjk, hslid hs, ?_⟩⟩
        rw [hlocation, hlocation]
        split
        · rw [if_pos (by omega)]
          omega
        · split <;> omega
    · simp [Layout.insertEllipsisProxyAttachmentFrom, hfirst, insertAttributedString, hin] at heq

theorem Overtaken.insertEllipses (h : Overtaken layout)
    (heq : layout.insertEllipses rest i startIndex = some layout') : Overtaken layout' := by
  induction rest generalizing i startIndex layout with
  | nil =>
    cases startIndex with
    | none =>
      obtain rfl := Option.some.inj heq
      exact h
    | some start => exact h.insertEllipsisProxyAttachmentFrom heq
  | cons m rest ih =>
    cases startIndex with
    | none =>
      rw [Layout.insertEllipses] at heq
      split at heq
      · exact ih h heq
      · exact ih h heq
    | some start =>
      rw [Layout.insertEllipses] at heq
      split at heq
      · exact ih h heq
      · obtain ⟨closed, hclosed, hrest⟩ := Option.bind_eq_some_iff.mp heq
        exact ih (h.insertEllipsisProxyAttachmentFrom hclosed) hrest

/-- The ellipsis around a range ends at the end of the text or where a later range starts. -/
def Ends (layout : Layout (TextUnit χ)) (j : Nat) (r : NSRange) : Prop :=
  ∃ e, r.location < e ∧ (∀ i, r.location ≤ i → i < e →
    layout.textStorage[i]?.any TextUnit.isProxy = true) ∧
    ¬ Inside TextUnit.isProxy layout.textStorage e ∧
    (e = layout.textStorage.length ∨ ∃ (k : Nat) (s : NSRange), j < k ∧
      layout.messageRanges[k]? = some s ∧ s.location = e)

theorem overtaken_removeEllipsisProxyAttachments (hr : layout.messageRanges[j]? = some r)
    (hinside : Inside TextUnit.isProxy layout.textStorage r.location) (hends : Ends layout j r) :
    Overtaken layout.removeEllipsisProxyAttachments := by
  obtain ⟨e, hlt, hmarked, hend, hbehind⟩ := hends
  have hmoved : ∀ {k : Nat} {s : NSRange}, layout.messageRanges[k]? = some s →
      layout.removeEllipsisProxyAttachments.messageRanges[k]? =
        some { s with
          location :=
            move TextUnit.isProxy 0 (blocks TextUnit.isProxy layout.textStorage) s.location } := by
    intro k s hs
    rw [messageRanges_removeEllipsisProxyAttachments, List.getElem?_map, hs]
    rfl
  have hleft := rank_lt_move (alternating_blocks TextUnit.isProxy layout.textStorage)
    (Nat.zero_le r.location) (by rw [flatten_blocks]; exact hinside)
  rw [flatten_blocks, Nat.zero_add, Nat.sub_zero, ← rank_eq_of_marked hmarked (Nat.le_of_lt hlt)]
    at hleft
  refine ⟨j, _, hmoved hr, ?_⟩
  obtain rfl | ⟨k, s, hjk, hs, rfl⟩ := hbehind
  · refine .inl ?_
    rw [textStorage_removeEllipsisProxyAttachments]
    rw [rank, List.take_length, List.countP_eq_length_filter] at hleft
    exact hleft
  · refine .inr ⟨k, _, hjk, hmoved hs, ?_⟩
    have hin : s.location ≤ layout.textStorage.length := by
      by_contra hout
      have hlast := hmarked (s.location - 1) (by omega) (by omega)
      rw [List.getElem?_eq_none (by omega)] at hlast
      cases hlast
    have hmove := move_eq_rank (uniform_blocks TextUnit.isProxy layout.textStorage)
      (Nat.zero_le s.location)
      (by rw [flatten_blocks]; exact hend) (by rw [flatten_blocks]; exact hin)
    rw [flatten_blocks, Nat.zero_add] at hmove
    show move _ _ _ s.location < move _ _ _ r.location
    rw [hmove]
    exact hleft

theorem fixEllipsisProxyAttachment_not_isLaid (hr : layout.messageRanges[j]? = some r)
    (hinside : Inside TextUnit.isProxy layout.textStorage r.location) (hends : Ends layout j r)
    (heq : layout.fixEllipsisProxyAttachment = some layout') : ¬ IsLaid composer messages layout' :=
  ((overtaken_removeEllipsisProxyAttachments hr hinside hends).insertEllipses heq).not_isLaid

end BathyScaphe.Thread
