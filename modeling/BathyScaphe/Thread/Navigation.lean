import BathyScaphe.Dat.Reader
import BathyScaphe.Thread.Layout
import Mathlib.Order.Bounds.Basic

/-!
# Jumping by attribute

The next and the previous message with an attribute are searched from an index on, up to
the end of the laid out messages and down to the first message. Both searches count in an
`int` and test what `messageAtIndex:` gives them, which is `nil` outside of the buffer. The
search down does not begin at the end of the laid out messages when the index is past it.
-/

namespace BathyScaphe.Thread

open Dat

/-- A layout in memory: a range takes eight bytes and a pointer takes four. -/
structure MemoryLayout (χ : Type) extends Layout χ where
  ranges_lt : messageRanges.length < 2 ^ 29
  messages_lt : messageBuffer.length < 2 ^ 30

def intOfUnsigned (n : UInt32) : Int := if n.toNat < 2 ^ 31 then n.toNat else n.toNat - 2 ^ 32

def unsignedOfInt (i : Int) : UInt32 := UInt32.ofNat (i % 2 ^ 32).toNat

theorem toNat_unsignedOfInt (n : Nat) (h : n < 2 ^ 31) : (unsignedOfInt n).toNat = n := by
  rw [unsignedOfInt, UInt32.toNat_ofNat']
  omega

/-- The test of both searches. The flags of `nil` are zero. -/
def test (flags : UInt32) (attributeIsSet : Bool) (m : Option CMRThreadMessage) : Bool :=
  attributeIsSet == (((m.elim 0 CMRThreadMessage.flags) &&& flags) != 0)

namespace MemoryLayout

variable (layout : MemoryLayout χ) (flags : UInt32) (attributeIsSet : Bool)

def firstUnlaidMessageIndex : UInt32 := UInt32.ofNat layout.messageRanges.length

def messageAtIndex (anIndex : UInt32) : Option CMRThreadMessage :=
  layout.messageBuffer[anIndex.toNat]?

def nextFrom (cnt i : Int) : UInt32 :=
  if i < cnt then
    if test flags attributeIsSet (layout.messageAtIndex (unsignedOfInt i)) then unsignedOfInt i
    else nextFrom cnt (i + 1)
  else NSNotFound
termination_by (cnt - i).toNat

def nextMessageIndexOfIndex (index : UInt32) : UInt32 :=
  if NSNotFound = index then NSNotFound
  else
    let cnt := layout.firstUnlaidMessageIndex
    if cnt ≤ index then NSNotFound
    else layout.nextFrom flags attributeIsSet (intOfUnsigned cnt) (intOfUnsigned (index + 1))

def previousFrom (i : Int) : UInt32 :=
  if 0 ≤ i then
    if test flags attributeIsSet (layout.messageAtIndex (unsignedOfInt i)) then unsignedOfInt i
    else previousFrom (i - 1)
  else NSNotFound
termination_by (i + 1).toNat

def previousMessageIndexOfIndex (index : UInt32) : UInt32 :=
  if NSNotFound = index then NSNotFound
  else if 0 = index then NSNotFound
  else layout.previousFrom flags attributeIsSet (intOfUnsigned (index - 1))

-- What is searched

/-- A laid out message that has the attribute, or does not have it, as asked for. -/
def Satisfies (i : Nat) : Prop :=
  i < layout.messageRanges.length ∧
    ∃ m, layout.messageBuffer[i]? = some m ∧ attributeIsSet = ((m.flags &&& flags) != 0)

def next (index : UInt32) : Set Nat :=
  { i | index.toNat < i ∧ layout.Satisfies flags attributeIsSet i }

/-- The messages in front of an index. `NSNotFound` is no index: nothing is in front of it. -/
def previous (index : UInt32) : Set Nat :=
  { i | index ≠ NSNotFound ∧ i < index.toNat ∧ layout.Satisfies flags attributeIsSet i }

/-- A search answers `NSNotFound` if there is nothing, and else the nearest. -/
def Answers (nearest : Set Nat → Nat → Prop) (s : Set Nat) (answer : UInt32) : Prop :=
  (answer = NSNotFound ↔ s = ∅) ∧ (answer ≠ NSNotFound → nearest s answer.toNat)

def passing : Set Nat := { i | test flags attributeIsSet layout.messageBuffer[i]? = true }

def stray : Set Nat :=
  { i | i ∈ layout.passing flags attributeIsSet ∧ ¬ layout.Satisfies flags attributeIsSet i }

/-- No laid out index behind the given one lacks a message that would have to fail the
test, or a message is found in front of it. -/
def NextHolds (index : UInt32) : Prop :=
  (∀ i, index.toNat < i → i < layout.messageRanges.length → i ∉ layout.stray flags attributeIsSet) ∨
    (layout.next flags attributeIsSet index).Nonempty

/-- Nothing in front of the index passes the test but laid out messages. An index that is
a negative `int` finds nothing. -/
def PreviousHolds (index : UInt32) : Prop :=
  index = NSNotFound ∨
    (index.toNat ≤ 2 ^ 31 ∧ ∀ i < index.toNat, i ∉ layout.stray flags attributeIsSet) ∨
    ((2 ^ 31 < index.toNat ∨ index.toNat = 2 ^ 31 ∧ attributeIsSet = false) ∧
      ∀ i, ¬ layout.Satisfies flags attributeIsSet i)

-- The searches

section
variable {layout flags attributeIsSet}

theorem mem_passing_of_satisfies (h : layout.Satisfies flags attributeIsSet i) :
    i ∈ layout.passing flags attributeIsSet := by
  obtain ⟨-, m, hm, htest⟩ := h
  show test _ _ _ = true
  rw [hm, test, beq_iff_eq]
  exact htest

theorem lt_of_mem_stray (hi : i ∈ layout.stray flags attributeIsSet)
    (hj : layout.Satisfies flags attributeIsSet j) : j < i := by
  obtain ⟨hpass, hnot⟩ := hi
  obtain ⟨hlaid, m, hm, -⟩ := hj
  have hbuffer := (List.getElem?_eq_some_iff.mp hm).1
  refine Nat.lt_of_not_le fun hle => hnot ⟨Nat.lt_of_le_of_lt hle hlaid, ?_⟩
  have hin := Nat.lt_of_le_of_lt hle hbuffer
  refine ⟨_, List.getElem?_eq_getElem hin, ?_⟩
  have hpass : test _ _ _ = true := hpass
  rwa [List.getElem?_eq_getElem hin, test, beq_iff_eq] at hpass

theorem ne_of_satisfies (h : layout.Satisfies flags attributeIsSet i) : i ≠ NSNotFound.toNat := by
  have hlt := layout.ranges_lt
  have hi := h.1
  have hnot : NSNotFound.toNat = 2 ^ 31 - 1 := rfl
  omega

theorem test_unsignedOfInt {i : Nat} (h : i < 2 ^ 31) :
    test flags attributeIsSet (layout.messageAtIndex (unsignedOfInt i)) = true ↔
      i ∈ layout.passing flags attributeIsSet := by
  rw [messageAtIndex, toNat_unsignedOfInt i h]
  rfl

theorem nextFrom_isLeast {start stop : Nat} (h : stop < 2 ^ 31) :
    IsLeast { i | start ≤ i ∧ i < stop ∧ i ∈ layout.passing flags attributeIsSet }
        (layout.nextFrom flags attributeIsSet stop start).toNat ∨
      { i | start ≤ i ∧ i < stop ∧ i ∈ layout.passing flags attributeIsSet } = ∅ ∧
        layout.nextFrom flags attributeIsSet stop start = NSNotFound := by
  induction hn : stop - start generalizing start with
  | zero =>
    rw [nextFrom, if_neg (by omega)]
    refine .inr ⟨Set.eq_empty_iff_forall_notMem.mpr ?_, rfl⟩
    rintro i ⟨hstart, hstop, -⟩
    omega
  | succ n ih =>
    rw [nextFrom, if_pos (by omega)]
    by_cases hpass : start ∈ layout.passing flags attributeIsSet
    · rw [if_pos ((test_unsignedOfInt (by omega)).mpr hpass), toNat_unsignedOfInt _ (by omega)]
      exact .inl ⟨⟨Nat.le_refl _, by omega, hpass⟩, fun i hi => hi.1⟩
    · rw [if_neg (mt (test_unsignedOfInt (by omega)).mp hpass)]
      have hsame : { i | start ≤ i ∧ i < stop ∧ i ∈ layout.passing flags attributeIsSet } =
          { i | start + 1 ≤ i ∧ i < stop ∧ i ∈ layout.passing flags attributeIsSet } := by
        ext i
        constructor
        · rintro ⟨hstart, hstop, hi⟩
          refine ⟨Nat.lt_of_le_of_ne hstart ?_, hstop, hi⟩
          rintro rfl
          exact hpass hi
        · rintro ⟨hstart, hstop, hi⟩
          exact ⟨Nat.le_of_succ_le hstart, hstop, hi⟩
      rw [hsame]
      exact ih (by omega)

theorem previousFrom_isGreatest {stop : Nat} (h : stop ≤ 2 ^ 31) :
    IsGreatest { i | i < stop ∧ i ∈ layout.passing flags attributeIsSet }
        (layout.previousFrom flags attributeIsSet (stop - 1)).toNat ∨
      { i | i < stop ∧ i ∈ layout.passing flags attributeIsSet } = ∅ ∧
        layout.previousFrom flags attributeIsSet (stop - 1) = NSNotFound := by
  induction stop with
  | zero =>
    rw [previousFrom, if_neg (by omega)]
    refine .inr ⟨Set.eq_empty_iff_forall_notMem.mpr ?_, rfl⟩
    rintro i ⟨hstop, -⟩
    exact Nat.not_lt_zero i hstop
  | succ stop ih =>
    rw [Nat.cast_add_one, Int.add_sub_cancel, previousFrom, if_pos (Int.natCast_nonneg stop)]
    by_cases hpass : stop ∈ layout.passing flags attributeIsSet
    · rw [if_pos ((test_unsignedOfInt h).mpr hpass), toNat_unsignedOfInt _ h]
      exact .inl ⟨⟨Nat.lt_succ_self _, hpass⟩, fun i hi => Nat.le_of_lt_succ hi.1⟩
    · rw [if_neg (mt (test_unsignedOfInt h).mp hpass)]
      have hsame : { i | i < stop + 1 ∧ i ∈ layout.passing flags attributeIsSet } =
          { i | i < stop ∧ i ∈ layout.passing flags attributeIsSet } := by
        ext i
        constructor
        · rintro ⟨hstop, hi⟩
          refine ⟨Nat.lt_of_le_of_ne (Nat.le_of_lt_succ hstop) ?_, hi⟩
          rintro rfl
          exact hpass hi
        · rintro ⟨hstop, hi⟩
          exact ⟨Nat.lt_succ_of_lt hstop, hi⟩
      rw [hsame]
      exact ih (Nat.le_of_succ_le h)

-- The answers

/-- The answer of a search down over a set, where what is looked for is a part of the set
and in front of the rest of it. -/
theorem answers_isGreatest_iff {s t : Set Nat} {answer : UInt32} (hsub : t ⊆ s)
    (hlt : ∀ i ∈ s, i ∉ t → ∀ j ∈ t, j < i) (hne : ∀ i ∈ t, i ≠ NSNotFound.toNat)
    (h : IsGreatest s answer.toNat ∨ s = ∅ ∧ answer = NSNotFound) :
    Answers IsGreatest t answer ↔ s ⊆ t ∨ answer = NSNotFound ∧ t = ∅ := by
  constructor
  · rintro ⟨hnone, hsome⟩
    by_cases hanswer : answer = NSNotFound
    · exact .inr ⟨hanswer, hnone.mp hanswer⟩
    · obtain hgreatest | ⟨-, hnot⟩ := h
      · refine .inl fun i hi => by_contra fun hout => ?_
        have hfront := hlt i hi hout _ (hsome hanswer).1
        exact Nat.not_lt.mpr (hgreatest.2 hi) hfront
      · exact absurd hnot hanswer
  · rintro (hall | ⟨hanswer, hnone⟩)
    · obtain rfl := Set.Subset.antisymm hall hsub
      obtain hgreatest | ⟨hnone, hanswer⟩ := h
      · refine ⟨⟨fun heq => absurd (congrArg UInt32.toNat heq) (hne _ hgreatest.1), ?_⟩,
          fun _ => hgreatest⟩
        rintro rfl
        cases hgreatest.1
      · exact ⟨iff_of_true hanswer hnone, fun hanswer' => absurd hanswer hanswer'⟩
    · exact ⟨iff_of_true hanswer hnone, fun hanswer' => absurd hanswer hanswer'⟩

theorem answers_isLeast_iff {s t : Set Nat} {answer : UInt32} (hsub : t ⊆ s)
    (hlt : ∀ i ∈ s, i ∉ t → ∀ j ∈ t, j < i) (hne : ∀ i ∈ s, i ≠ NSNotFound.toNat)
    (h : IsLeast s answer.toNat ∨ s = ∅ ∧ answer = NSNotFound) :
    Answers IsLeast t answer ↔ s ⊆ t ∨ t.Nonempty := by
  constructor
  · rintro ⟨hnone, hsome⟩
    obtain hleast | ⟨hempty, -⟩ := h
    · have hanswer : answer ≠ NSNotFound := fun heq => hne _ hleast.1 (congrArg UInt32.toNat heq)
      exact .inr ⟨_, (hsome hanswer).1⟩
    · exact .inl (hempty ▸ Set.empty_subset t)
  · intro hcond
    obtain hleast | ⟨hempty, hanswer⟩ := h
    · have hanswer : answer ≠ NSNotFound := fun heq => hne _ hleast.1 (congrArg UInt32.toNat heq)
      have hmem : answer.toNat ∈ t := by
        obtain hall | ⟨j, hj⟩ := hcond
        · exact hall hleast.1
        · exact by_contra fun hout => Nat.not_lt.mpr (hleast.2 (hsub hj)) (hlt _ hleast.1 hout j hj)
      refine ⟨iff_of_false hanswer (Set.Nonempty.ne_empty ⟨_, hmem⟩), fun _ => ⟨hmem, ?_⟩⟩
      intro j hj
      exact hleast.2 (hsub hj)
    · have hempty' : t = ∅ := Set.subset_empty_iff.mp (hempty ▸ hsub)
      exact ⟨iff_of_true hanswer hempty', fun hanswer' => absurd hanswer hanswer'⟩

theorem toNat_firstUnlaidMessageIndex (layout : MemoryLayout χ) :
    layout.firstUnlaidMessageIndex.toNat = layout.messageRanges.length := by
  have hlt := layout.ranges_lt
  rw [firstUnlaidMessageIndex, UInt32.toNat_ofNat']
  omega

theorem intOfUnsigned_of_lt {n : UInt32} (h : n.toNat < 2 ^ 31) :
    intOfUnsigned n = n.toNat := if_pos h

theorem nextMessageIndexOfIndex_isLeast (index : UInt32) :
    IsLeast { i | index.toNat + 1 ≤ i ∧ i < layout.messageRanges.length ∧
      i ∈ layout.passing flags attributeIsSet }
        (layout.nextMessageIndexOfIndex flags attributeIsSet index).toNat ∨
      { i | index.toNat + 1 ≤ i ∧ i < layout.messageRanges.length ∧
        i ∈ layout.passing flags attributeIsSet } = ∅ ∧
        layout.nextMessageIndexOfIndex flags attributeIsSet index = NSNotFound := by
  have hlt := layout.ranges_lt
  have hcnt := layout.toNat_firstUnlaidMessageIndex
  by_cases hbehind : layout.messageRanges.length ≤ index.toNat
  · refine .inr ⟨Set.eq_empty_iff_forall_notMem.mpr ?_, ?_⟩
    · rintro i ⟨hstart, hstop, -⟩
      omega
    · rw [nextMessageIndexOfIndex]
      split
      · rfl
      · exact if_pos (UInt32.le_iff_toNat_le.mpr (hcnt ▸ hbehind))
  · have hindex : NSNotFound ≠ index := by
      rintro rfl
      have hnot : NSNotFound.toNat = 2 ^ 31 - 1 := rfl
      omega
    have hcount : ¬ layout.firstUnlaidMessageIndex ≤ index := by
      rw [UInt32.le_iff_toNat_le, hcnt]
      exact hbehind
    have hstart : (index + 1).toNat = index.toNat + 1 := by
      rw [UInt32.toNat_add, UInt32.toNat_one]
      omega
    rw [nextMessageIndexOfIndex, if_neg hindex]
    simp only [if_neg hcount]
    rw [intOfUnsigned_of_lt (by omega), intOfUnsigned_of_lt (by omega), hcnt, hstart]
    exact nextFrom_isLeast (by omega)

/-- The search up answers if and only if the state is one that meets the condition. -/
theorem next_iff (index : UInt32) :
    Answers IsLeast (layout.next flags attributeIsSet index)
      (layout.nextMessageIndexOfIndex flags attributeIsSet index) ↔
        layout.NextHolds flags attributeIsSet index := by
  rw [answers_isLeast_iff _ _ _ (nextMessageIndexOfIndex_isLeast index), NextHolds]
  · refine or_congr ⟨fun h i hindex hlaid hstray => ?_, fun h i hi => ?_⟩ Iff.rfl
    · exact hstray.2 (h ⟨hindex, hlaid, hstray.1⟩).2
    · refine ⟨hi.1, by_contra fun hnot => ?_⟩
      exact h i hi.1 hi.2.1 ⟨hi.2.2, hnot⟩
  · rintro i ⟨hindex, hi⟩
    exact ⟨hindex, hi.1, mem_passing_of_satisfies hi⟩
  · rintro i ⟨hindex, -, hpass⟩ hout j ⟨-, hj⟩
    exact lt_of_mem_stray ⟨hpass, fun hi => hout ⟨hindex, hi⟩⟩ hj
  · rintro i ⟨-, hlaid, -⟩
    have hlt := layout.ranges_lt
    have hnot : NSNotFound.toNat = 2 ^ 31 - 1 := rfl
    omega

theorem previousMessageIndexOfIndex_isGreatest {index : UInt32} (hindex : index ≠ NSNotFound)
    (hle : index.toNat ≤ 2 ^ 31) :
    IsGreatest { i | i < index.toNat ∧ i ∈ layout.passing flags attributeIsSet }
        (layout.previousMessageIndexOfIndex flags attributeIsSet index).toNat ∨
      { i | i < index.toNat ∧ i ∈ layout.passing flags attributeIsSet } = ∅ ∧
        layout.previousMessageIndexOfIndex flags attributeIsSet index = NSNotFound := by
  rw [previousMessageIndexOfIndex, if_neg (Ne.symm hindex)]
  by_cases hzero : index = 0
  · subst hzero
    refine .inr ⟨Set.eq_empty_iff_forall_notMem.mpr ?_, rfl⟩
    rintro i ⟨hi, -⟩
    exact Nat.not_lt_zero i hi
  · have hpos : 0 < index.toNat := Nat.pos_of_ne_zero fun h => hzero (UInt32.toNat_inj.mp h)
    have hsub : (index - 1).toNat = index.toNat - 1 :=
      UInt32.toNat_sub_of_le _ _ (UInt32.le_iff_toNat_le.mpr hpos)
    rw [if_neg (Ne.symm hzero), intOfUnsigned_of_lt (by omega), hsub, Int.natCast_sub hpos]
    exact previousFrom_isGreatest hle

theorem previousMessageIndexOfIndex_of_gt {index : UInt32} (h : 2 ^ 31 < index.toNat) :
    layout.previousMessageIndexOfIndex flags attributeIsSet index = NSNotFound := by
  have hlt := index.toNat_lt
  have hsub : (index - 1).toNat = index.toNat - 1 :=
    UInt32.toNat_sub_of_le _ _ (UInt32.le_iff_toNat_le.mpr (show 1 ≤ index.toNat by omega))
  have hnegative : ¬ 0 ≤ intOfUnsigned (index - 1) := by
    rw [intOfUnsigned, hsub, if_neg (by omega)]
    omega
  rw [previousMessageIndexOfIndex]
  split
  · rfl
  · split
    · rfl
    · rw [previousFrom, if_neg hnegative]

theorem answers_NSNotFound : Answers nearest s NSNotFound ↔ s = ∅ :=
  ⟨fun h => h.1.mp rfl, fun h => ⟨iff_of_true rfl h, fun hne => absurd rfl hne⟩⟩

theorem previous_eq_empty_iff {index : UInt32} (hindex : index ≠ NSNotFound)
    (h : 2 ^ 29 ≤ index.toNat) :
    layout.previous flags attributeIsSet index = ∅ ↔
      ∀ i, ¬ layout.Satisfies flags attributeIsSet i := by
  rw [Set.eq_empty_iff_forall_notMem]
  refine forall_congr' fun i => not_congr ⟨fun hi => hi.2.2, fun hi => ⟨hindex, ?_, hi⟩⟩
  have hlt := layout.ranges_lt
  have hlaid := hi.1
  omega

theorem getElem?_messageBuffer (layout : MemoryLayout χ) (h : 2 ^ 30 ≤ i) :
    layout.messageBuffer[i]? = none :=
  List.getElem?_eq_none (Nat.le_trans (Nat.le_of_lt layout.messages_lt) h)

/-- Where there is no message, only the flag that is not set is found. -/
theorem attributeIsSet_of_mem_passing (hpass : i ∈ layout.passing flags attributeIsSet)
    (h : 2 ^ 30 ≤ i) :
    attributeIsSet = false := by
  have hpass : test _ _ _ = true := hpass
  rw [layout.getElem?_messageBuffer h, test, beq_iff_eq] at hpass
  rw [hpass, Option.elim_none, UInt32.zero_and]
  rfl

theorem mem_passing_of_le (h : 2 ^ 31 - 1 ≤ i) : i ∈ layout.passing flags false := by
  show test _ _ _ = true
  rw [layout.getElem?_messageBuffer (by omega), test, Option.elim_none, UInt32.zero_and]
  rfl

/-- The search down answers if and only if the state is one that meets the condition. -/
theorem previous_iff (index : UInt32) :
    Answers IsGreatest (layout.previous flags attributeIsSet index)
      (layout.previousMessageIndexOfIndex flags attributeIsSet index) ↔
      layout.PreviousHolds flags attributeIsSet index := by
  have hnot : NSNotFound.toNat = 2 ^ 31 - 1 := rfl
  by_cases hindex : index = NSNotFound
  · subst hindex
    have hempty : layout.previous flags attributeIsSet NSNotFound = ∅ :=
      Set.eq_empty_iff_forall_notMem.mpr fun i hi => hi.1 rfl
    have hanswer : layout.previousMessageIndexOfIndex flags attributeIsSet NSNotFound =
        NSNotFound := if_pos rfl
    rw [hanswer, answers_NSNotFound]
    exact iff_of_true hempty (.inl rfl)
  · by_cases hle : index.toNat ≤ 2 ^ 31
    · have hgreatest :=
        @previousMessageIndexOfIndex_isGreatest _ layout flags attributeIsSet _ hindex hle
      rw [answers_isGreatest_iff _ _ _ hgreatest]
      · constructor
        · rintro (hall | ⟨hanswer, hempty⟩)
          · exact .inr (.inl ⟨hle, fun i hi hstray => hstray.2 (hall ⟨hi, hstray.1⟩).2.2⟩)
          · obtain hgreatest | ⟨hnone, -⟩ := hgreatest
            · -- what has been found is the number of `NSNotFound`, where there is no message
              obtain ⟨hlt, hpass⟩ := hgreatest.1
              rw [hanswer, hnot] at hlt hpass
              refine .inr (.inr ⟨.inr ⟨by omega, attributeIsSet_of_mem_passing hpass (by decide)⟩,
                ?_⟩)
              exact (previous_eq_empty_iff hindex (by omega)).mp hempty
            · refine .inr (.inl ⟨hle, fun i hi hstray => ?_⟩)
              exact Set.eq_empty_iff_forall_notMem.mp hnone i ⟨hi, hstray.1⟩
        · rintro (hindex' | ⟨-, hstray⟩ | ⟨hlast, hnone⟩)
          · exact absurd hindex' hindex
          · refine .inl fun i hi => ⟨hindex, hi.1, by_contra fun hout => ?_⟩
            exact hstray i hi.1 ⟨hi.2, hout⟩
          · obtain ⟨hlast, rfl⟩ := hlast.resolve_left (Nat.not_lt.mpr hle)
            refine .inr ⟨?_, (previous_eq_empty_iff hindex (by omega)).mpr hnone⟩
            obtain hgreatest | ⟨-, hanswer⟩ := hgreatest
            · have hmem := hgreatest.2 ⟨show 2 ^ 31 - 1 <
                  index.toNat by omega, mem_passing_of_le (Nat.le_refl _)⟩
              have hlt := hgreatest.1.1
              exact UInt32.toNat_inj.mp (by omega)
            · exact hanswer
      · rintro i ⟨-, hi, hsatisfies⟩
        exact ⟨hi, mem_passing_of_satisfies hsatisfies⟩
      · rintro i ⟨hi, hpass⟩ hout j ⟨-, -, hj⟩
        exact lt_of_mem_stray ⟨hpass, fun hsatisfies => hout ⟨hindex, hi, hsatisfies⟩⟩ hj
      · rintro i ⟨-, -, hi⟩
        exact ne_of_satisfies hi
    · rw [previousMessageIndexOfIndex_of_gt (Nat.not_le.mp hle), answers_NSNotFound,
        previous_eq_empty_iff hindex (by omega)]
      constructor
      · intro hnone
        exact .inr (.inr ⟨.inl (Nat.not_le.mp hle), hnone⟩)
      · rintro (hindex' | ⟨hle', -⟩ | ⟨-, hnone⟩)
        · exact absurd hindex' hindex
        · exact absurd hle' hle
        · exact hnone

end

def Navigates (index : UInt32) : Prop :=
  Answers IsLeast (layout.next flags attributeIsSet index)
      (layout.nextMessageIndexOfIndex flags attributeIsSet index) ∧
    Answers IsGreatest (layout.previous flags attributeIsSet index)
      (layout.previousMessageIndexOfIndex flags attributeIsSet index)

theorem navigates_iff (index : UInt32) :
    layout.Navigates flags attributeIsSet index ↔
      layout.NextHolds flags attributeIsSet index ∧
        layout.PreviousHolds flags attributeIsSet index :=
  and_congr (next_iff index) (previous_iff index)

/-- One laid out message, searched down from the place behind the next one. -/
theorem not_navigates_behind :
    ¬ MemoryLayout.Navigates (χ := Unit) ⟨⟨[()], [⟨0, 1⟩], [{}]⟩,
      by decide, by decide⟩ CMRInvisibleMask false 2 := by
  rintro ⟨-, h⟩
  obtain h | ⟨-, h⟩ | ⟨h, -⟩ := (previous_iff 2).mp h
  · exact absurd h (by decide)
  · exact h 1 (by decide) ⟨rfl, fun hlaid => absurd hlaid.1 (by decide)⟩
  · obtain h | ⟨h, -⟩ := h <;> exact absurd h (by decide)

end MemoryLayout

end BathyScaphe.Thread
