import BathyScaphe.Thread.ComposingTask

/-!
# The visible range

Before a thread is composed for the first time, the messages outside of the visible
range are hidden for the time being: all but so many at the front and so many at the
back. When the task is asked to show a message that is hidden then, it shows those
around it as well. Lengths are words of 32 bits, and so are their sums: a sum that
does not fit hides a range that is not in the buffer.
-/

namespace BathyScaphe.Thread

open Dat

-- Ranges of words

structure IndexRange where
  location : UInt32
  length : UInt32

def IndexRange.max (r : IndexRange) : UInt32 := r.location + r.length

def IndexRange.intersection (r s : IndexRange) : IndexRange :=
  let location := Max.max r.location s.location
  let stop := Min.min r.max s.max
  if location < stop then ⟨location, stop - location⟩ else ⟨0, 0⟩

structure CMRThreadVisibleRange where
  firstVisibleLength : UInt32
  lastVisibleLength : UInt32

namespace CMRThreadVisibleRange

def CMRThreadShowAll : UInt32 := NSNotFound

def isShownAll (vr : CMRThreadVisibleRange) : Bool :=
  CMRThreadShowAll == vr.firstVisibleLength || CMRThreadShowAll == vr.lastVisibleLength

def isEmpty (vr : CMRThreadVisibleRange) : Bool :=
  0 == vr.firstVisibleLength && 0 == vr.lastVisibleLength

def visibleLength (vr : CMRThreadVisibleRange) : UInt32 :=
  if vr.isShownAll then CMRThreadShowAll else vr.firstVisibleLength + vr.lastVisibleLength

end CMRThreadVisibleRange

-- The buffer

structure CMRThreadMessageBuffer where
  messages : List CMRThreadMessage
  length_lt : messages.length < 2 ^ 30

inductive BufferError where
  /-- `NSRangeException` -/
  | range
  /-- An element behind the array is read. -/
  | outside (index : UInt32)
  deriving DecidableEq

namespace CMRThreadMessageBuffer

def count (buffer : CMRThreadMessageBuffer) : UInt32 := UInt32.ofNat buffer.messages.length

/-- The loop of `setTemporaryInvisible:inRange:` from `i` on, with `left` rounds to go.
The elements are read without a check. -/
def setTemporaryInvisibleFrom (invisible : Bool) (location : UInt32) :
    Nat → UInt32 → List CMRThreadMessage → Except BufferError (List CMRThreadMessage)
  | 0, _, messages => .ok messages
  | left + 1, i, messages =>
    match messages[(location + i).toNat]? with
    | none => .error (.outside (location + i))
    | some m => setTemporaryInvisibleFrom invisible location left (i + 1)
        (messages.set (location + i).toNat (m.setFlag TEMP_INVISIBLE_FLAG invisible))

theorem length_setTemporaryInvisibleFrom {messages messages' : List CMRThreadMessage}
    (h : setTemporaryInvisibleFrom invisible location left i messages = .ok messages') :
    messages'.length = messages.length := by
  induction left generalizing i messages with
  | zero =>
    obtain rfl := Except.ok.inj h
    rfl
  | succ left ih =>
    rw [setTemporaryInvisibleFrom] at h
    split at h
    · cases h
    · exact (ih h).trans List.length_set

def setTemporaryInvisible (invisible : Bool) (aRange : IndexRange)
    (buffer : CMRThreadMessageBuffer) : Except BufferError CMRThreadMessageBuffer :=
  if buffer.count < aRange.max then .error .range
  else
    match h :
      setTemporaryInvisibleFrom invisible aRange.location aRange.length.toNat 0 buffer.messages with
    | .error e => .error e
    | .ok messages => .ok ⟨messages, length_setTemporaryInvisibleFrom h ▸ buffer.length_lt⟩

def synchronizeVisibleRange (visibleRange : Option CMRThreadVisibleRange)
    (buffer : CMRThreadMessageBuffer) : Except BufferError CMRThreadMessageBuffer :=
  match visibleRange with
  | none => .ok buffer
  | some vr => do
    let count := buffer.count
    let buffer ← buffer.setTemporaryInvisible vr.isEmpty ⟨0, count⟩
    if vr.isEmpty || vr.isShownAll then return buffer
    if count ≤ vr.visibleLength then return buffer
    buffer.setTemporaryInvisible true
      ⟨vr.firstVisibleLength, count - vr.lastVisibleLength - vr.firstVisibleLength⟩

def indexOfMessageWithIndex (aMessageIndex : UInt32) (buffer : CMRThreadMessageBuffer) :
    Option Nat :=
  if NSNotFound = aMessageIndex then none
  else buffer.messages.findIdx? fun m => aMessageIndex == m.index

end CMRThreadMessageBuffer

def MARKED_RANGE_LENGTH : UInt32 := 5

def markedRange (index count : UInt32) : IndexRange :=
  let markedRange : IndexRange :=
    { location := if MARKED_RANGE_LENGTH < index then index - MARKED_RANGE_LENGTH else 0
      length := MARKED_RANGE_LENGTH * 2 }
  markedRange.intersection ⟨0, count⟩

def synchronizeTemporaryInvisible (callbackIndex : UInt32)
    (visibleRange : Option CMRThreadVisibleRange)
    (aBuffer : CMRThreadMessageBuffer) : Except BufferError CMRThreadMessageBuffer := do
  let aBuffer ← aBuffer.synchronizeVisibleRange visibleRange
  match aBuffer.indexOfMessageWithIndex callbackIndex with
  | none => return aBuffer
  | some index =>
    if !aBuffer.messages[index]?.any CMRThreadMessage.isTemporaryInvisible then return aBuffer
    aBuffer.setTemporaryInvisible false (markedRange (UInt32.ofNat index) aBuffer.count)

-- Setting the flag in a range

namespace CMRThreadMessageBuffer

variable {buffer : CMRThreadMessageBuffer} {list : List CMRThreadMessage}
  {vr : CMRThreadVisibleRange}

theorem toNat_count (buffer : CMRThreadMessageBuffer) :
    buffer.count.toNat = buffer.messages.length := by
  have hlt := buffer.length_lt
  rw [count, UInt32.toNat_ofNat']
  omega

def setInRange (invisible : Bool) (start stop : Nat) (list : List CMRThreadMessage) :
    List CMRThreadMessage :=
  list.mapIdx fun k m => if start ≤ k ∧ k < stop then m.setFlag TEMP_INVISIBLE_FLAG invisible else m

theorem getElem?_setInRange (invisible : Bool) (start stop k : Nat) (list : List CMRThreadMessage) :
    (setInRange invisible start stop list)[k]? = list[k]?.map fun m =>
      if start ≤ k ∧ k < stop then m.setFlag TEMP_INVISIBLE_FLAG invisible else m := by
  rw [setInRange, List.getElem?_mapIdx]

theorem setTemporaryInvisibleFrom_eq {location i : UInt32} (invisible : Bool)
    (hlt : list.length < 2 ^ 30)
    (hin : location.toNat + i.toNat + left ≤ list.length) :
    setTemporaryInvisibleFrom invisible location left i list =
      .ok (setInRange invisible (location.toNat + i.toNat)
        (location.toNat + i.toNat + left) list) := by
  induction left generalizing i list with
  | zero =>
    rw [setTemporaryInvisibleFrom]
    refine congrArg Except.ok (List.ext_getElem? fun k => ?_)
    rw [getElem?_setInRange]
    cases list[k]? with
    | none => rfl
    | some m => exact congrArg some (if_neg (by omega)).symm
  | succ left ih =>
    have hindex : (location + i).toNat = location.toNat + i.toNat := by
      rw [UInt32.toNat_add]
      omega
    have hnext : (i + 1).toNat = i.toNat + 1 := by
      rw [UInt32.toNat_add, UInt32.toNat_one]
      omega
    obtain ⟨m, hm⟩ : ∃ m, list[location.toNat + i.toNat]? = some m :=
      ⟨_, List.getElem?_eq_getElem (by omega)⟩
    have hrest :=
      @ih (list.set (location.toNat + i.toNat) (m.setFlag TEMP_INVISIBLE_FLAG invisible)) (i + 1)
      (by rwa [List.length_set]) (by rw [List.length_set, hnext]; omega)
    rw [setTemporaryInvisibleFrom, hindex, hm]
    refine hrest.trans (congrArg Except.ok (List.ext_getElem? fun k => ?_))
    rw [getElem?_setInRange, getElem?_setInRange, hnext]
    by_cases hk : k = location.toNat + i.toNat
    · rw [hk, List.getElem?_set_self (by omega), hm, Option.map_some, Option.map_some,
        if_neg (by omega), if_pos (by omega)]
    · rw [List.getElem?_set_ne (Ne.symm hk)]
      have hsame :
        (location.toNat + (i.toNat + 1) ≤ k ∧ k < location.toNat + (i.toNat + 1) + left) ↔
          location.toNat + i.toNat ≤ k ∧ k < location.toNat + i.toNat + (left + 1) := by
        omega
      simp only [hsame]

theorem setTemporaryInvisible_eq (buffer : CMRThreadMessageBuffer) (invisible : Bool)
    {aRange : IndexRange}
    (hin : aRange.location.toNat + aRange.length.toNat ≤ buffer.messages.length) :
    ∃ buffer', buffer.setTemporaryInvisible invisible aRange = .ok buffer' ∧
      buffer'.messages = setInRange invisible aRange.location.toNat
        (aRange.location.toNat + aRange.length.toNat) buffer.messages := by
  have hlt := buffer.length_lt
  have hmax : ¬ buffer.count < aRange.max := by
    rw [UInt32.lt_iff_toNat_lt, toNat_count, IndexRange.max, UInt32.toNat_add]
    omega
  have hloop := @setTemporaryInvisibleFrom_eq buffer.messages aRange.length.toNat aRange.location 0
    invisible hlt hin
  rw [UInt32.toNat_zero, Nat.add_zero] at hloop
  rw [setTemporaryInvisible, if_neg hmax]
  split
  · rename_i e he
    rw [hloop] at he
    cases he
  · rename_i messages hmessages
    rw [hloop] at hmessages
    exact ⟨_, rfl, (Except.ok.inj hmessages).symm⟩

-- Synchronising

/-- A message that is neither in front, nor at the back, of a range that does not
show all. -/
def isOutside (vr : CMRThreadVisibleRange) (n i : Nat) : Bool :=
  !vr.isShownAll && vr.firstVisibleLength.toNat ≤ i && i < n - vr.lastVisibleLength.toNat

theorem isOutside_eq_true :
    isOutside vr n i = true ↔ vr.isShownAll = false ∧ ¬ i < vr.firstVisibleLength.toNat ∧
      ¬ n - vr.lastVisibleLength.toNat ≤ i := by
  rw [isOutside, Bool.and_eq_true, Bool.and_eq_true, Bool.not_eq_true', decide_eq_true_iff,
    decide_eq_true_iff, Nat.not_lt, Nat.not_le, and_assoc]

/-- The flag of every message is set as a predicate of its place says. -/
def setWhere (invisible : Nat → Bool) (list : List CMRThreadMessage) : List CMRThreadMessage :=
  list.mapIdx fun i m => m.setFlag TEMP_INVISIBLE_FLAG (invisible i)

theorem setInRange_setWhere (b : Bool) (start stop : Nat) (invisible : Nat → Bool)
    (list : List CMRThreadMessage) :
    setInRange b start stop (setWhere invisible list) =
      setWhere (fun i => if start ≤ i ∧ i < stop then b else invisible i) list := by
  refine List.ext_getElem? fun k => ?_
  rw [getElem?_setInRange, setWhere, setWhere, List.getElem?_mapIdx, List.getElem?_mapIdx,
    Option.map_map]
  cases list[k]? with
  | none => rfl
  | some m =>
    refine congrArg some ?_
    rw [Function.comp_apply]
    split
    · exact m.setFlag_setFlag TEMP_INVISIBLE_FLAG _ _
    · rfl

theorem setWhere_congr {p q : Nat → Bool} (h : ∀ i < list.length, p i = q i) :
    setWhere p list = setWhere q list := by
  refine List.ext_getElem? fun k => ?_
  rw [setWhere, setWhere, List.getElem?_mapIdx, List.getElem?_mapIdx]
  cases hk : list[k]? with
  | none => rfl
  | some m =>
    rw [Option.map_some, Option.map_some, h k (List.getElem?_eq_some_iff.mp hk).1]

theorem setInRange_all (b : Bool) (list : List CMRThreadMessage) :
    setInRange b 0 list.length list = setWhere (fun _ => b) list := by
  refine List.ext_getElem? fun k => ?_
  rw [getElem?_setInRange, setWhere, List.getElem?_mapIdx]
  cases hk : list[k]? with
  | none => rfl
  | some m => exact congrArg some (if_pos ⟨Nat.zero_le k, (List.getElem?_eq_some_iff.mp hk).1⟩)

/-- Where the sum of the lengths is a word, or all is shown, the flags are those the
range asks for. -/
theorem synchronizeVisibleRange_eq (buffer : CMRThreadMessageBuffer)
    (hsum : vr.isShownAll = true ∨ vr.firstVisibleLength.toNat + vr.lastVisibleLength.toNat <
      2 ^ 32) :
    ∃ buffer', buffer.synchronizeVisibleRange (some vr) = .ok buffer' ∧
      buffer'.messages = setWhere (isOutside vr buffer.messages.length) buffer.messages := by
  have hlt := buffer.length_lt
  have hcount := toNat_count buffer
  obtain ⟨first, hfirst, hmessages⟩ := @setTemporaryInvisible_eq buffer vr.isEmpty ⟨0, buffer.count⟩
    (by rw [hcount, UInt32.toNat_zero]; omega)
  rw [hcount, UInt32.toNat_zero, Nat.zero_add, setInRange_all] at hmessages
  have hlength : first.messages.length = buffer.messages.length := by
    rw [hmessages, setWhere, List.length_mapIdx]
  rw [synchronizeVisibleRange]
  simp only [bind, Except.bind, hfirst]
  cases hempty : vr.isEmpty with
  | true =>
    refine ⟨first, rfl, hmessages.trans (setWhere_congr fun i hi => ?_)⟩
    have hempty' := hempty
    rw [CMRThreadVisibleRange.isEmpty, Bool.and_eq_true, beq_iff_eq, beq_iff_eq] at hempty
    have hshown : vr.isShownAll = false := by
      rw [CMRThreadVisibleRange.isShownAll, ← hempty.1, ← hempty.2]
      rfl
    have hin : vr.isEmpty = isOutside vr buffer.messages.length i := by
      rw [hempty', isOutside, hshown, ← hempty.1, ← hempty.2]
      simp [hi]
    exact hin
  | false =>
    cases hshown : vr.isShownAll with
    | true =>
      refine ⟨first, rfl, hmessages.trans (setWhere_congr fun i hi => ?_)⟩
      rw [hempty, isOutside, hshown]
      rfl
    | false =>
      have hsum : vr.firstVisibleLength.toNat + vr.lastVisibleLength.toNat < 2 ^ 32 := by
        rw [hshown] at hsum
        exact hsum.resolve_left Bool.false_ne_true
      have hvisible : vr.visibleLength.toNat =
          vr.firstVisibleLength.toNat + vr.lastVisibleLength.toNat := by
        rw [CMRThreadVisibleRange.visibleLength, hshown, if_neg Bool.false_ne_true,
          UInt32.toNat_add, Nat.mod_eq_of_lt hsum]
      rw [if_neg (by decide)]
      by_cases hall : buffer.count ≤ vr.visibleLength
      · rw [if_pos hall]
        rw [UInt32.le_iff_toNat_le, hcount, hvisible] at hall
        refine ⟨first, rfl, hmessages.trans (setWhere_congr fun i hi => ?_)⟩
        rw [hempty, eq_comm, Bool.eq_false_iff, ne_eq, isOutside_eq_true]
        omega
      · rw [if_neg hall]
        rw [UInt32.le_iff_toNat_le, hcount, hvisible, Nat.not_le] at hall
        -- the words of the hidden range are the numbers
        have hhidden : (buffer.count - vr.lastVisibleLength - vr.firstVisibleLength).toNat =
            buffer.messages.length - vr.lastVisibleLength.toNat - vr.firstVisibleLength.toNat := by
          rw [UInt32.toNat_sub_of_le, UInt32.toNat_sub_of_le, hcount]
          · rw [UInt32.le_iff_toNat_le, hcount]
            omega
          · rw [UInt32.le_iff_toNat_le, UInt32.toNat_sub_of_le, hcount]
            · omega
            · rw [UInt32.le_iff_toNat_le, hcount]
              omega
        have hin : vr.firstVisibleLength.toNat +
            (buffer.count - vr.lastVisibleLength - vr.firstVisibleLength).toNat ≤
              first.messages.length := by
          rw [hhidden, hlength]
          omega
        obtain ⟨buffer', hset, hmessages'⟩ := @setTemporaryInvisible_eq first true
          ⟨vr.firstVisibleLength, buffer.count - vr.lastVisibleLength - vr.firstVisibleLength⟩ hin
        refine ⟨buffer', hset, ?_⟩
        rw [hmessages', hmessages, setInRange_setWhere, hhidden]
        refine setWhere_congr fun i hi => ?_
        rw [hempty, Bool.eq_iff_iff, isOutside_eq_true, Nat.not_lt, Nat.not_le]
        simp only [ite_eq_left_iff, Bool.false_eq_true, imp_false, not_not, hshown, true_and]
        omega

theorem indexOfMessageWithIndex_congr {buffer' : CMRThreadMessageBuffer} {invisible : Nat → Bool}
    (h : buffer'.messages = setWhere invisible buffer.messages) (aMessageIndex : UInt32) :
    buffer'.indexOfMessageWithIndex aMessageIndex =
      buffer.indexOfMessageWithIndex aMessageIndex := by
  have hindex : (setWhere invisible buffer.messages).map CMRThreadMessage.index =
      buffer.messages.map CMRThreadMessage.index := by
    refine List.ext_getElem? fun k => ?_
    rw [setWhere, List.getElem?_map, List.getElem?_mapIdx, List.getElem?_map, Option.map_map]
    rfl
  have hfind : ∀ list : List CMRThreadMessage, (list.findIdx? fun m => aMessageIndex == m.index) =
      (list.map CMRThreadMessage.index).findIdx? fun index => aMessageIndex == index := by
    intro list
    rw [List.findIdx?_map]
    rfl
  rw [indexOfMessageWithIndex, indexOfMessageWithIndex, hfind, hfind, h, hindex]

/-- The places that are shown because the message at `index` is asked for. -/
def isMarked (vr : CMRThreadVisibleRange) (n : Nat) (callback : Option Nat) (i : Nat) : Bool :=
  callback.any fun index => isOutside vr n index && index - 5 ≤ i && i < index - 5 + 10

theorem getElem?_setWhere {m : CMRThreadMessage} (h : list[i]? = some m) (invisible : Nat → Bool) :
    (setWhere invisible list)[i]? = some (m.setFlag TEMP_INVISIBLE_FLAG (invisible i)) := by
  rw [setWhere, List.getElem?_mapIdx, h]
  rfl

/-- The range around a message of the buffer is cut off at the end of the buffer. -/
theorem markedRange_eq {index : Nat} (h : index < buffer.messages.length) :
    (markedRange (UInt32.ofNat index) buffer.count).location.toNat = index - 5 ∧
      (markedRange (UInt32.ofNat index) buffer.count).location.toNat +
        (markedRange (UInt32.ofNat index) buffer.count).length.toNat =
        min (index - 5 + 10) buffer.messages.length := by
  have hlt := buffer.length_lt
  have hcount := toNat_count buffer
  have hindex : (UInt32.ofNat index).toNat = index := by
    rw [UInt32.toNat_ofNat']
    omega
  have hfive : MARKED_RANGE_LENGTH.toNat = 5 := rfl
  generalize hstart : (if MARKED_RANGE_LENGTH < UInt32.ofNat index then
    UInt32.ofNat index - MARKED_RANGE_LENGTH else 0 : UInt32) = start
  have hstart_eq : start.toNat = index - 5 := by
    rw [← hstart]
    split
    · rename_i hfar
      rw [UInt32.lt_iff_toNat_lt, hindex, hfive] at hfar
      rw [UInt32.toNat_sub_of_le, hindex, hfive]
      rw [UInt32.le_iff_toNat_le, hindex, hfive]
      omega
    · rename_i hnear
      rw [UInt32.lt_iff_toNat_lt, hindex, hfive] at hnear
      rw [UInt32.toNat_zero]
      omega
  have hten : (start + MARKED_RANGE_LENGTH * 2).toNat = index - 5 + 10 := by
    rw [UInt32.toNat_add, hstart_eq, show (MARKED_RANGE_LENGTH * 2).toNat = 10 from rfl]
    omega
  have hmin : ∀ a b : UInt32, (min a b).toNat = min a.toNat b.toNat := by
    intro a b
    show (if a ≤ b then a else b).toNat = _
    split
    · rename_i hle
      exact (Nat.min_eq_left (UInt32.le_iff_toNat_le.mp hle)).symm
    · rename_i hle
      rw [UInt32.le_iff_toNat_le, Nat.not_le] at hle
      exact (Nat.min_eq_right (Nat.le_of_lt hle)).symm
  have hmax : max start 0 = start := by
    show (if start ≤ 0 then 0 else start) = start
    split
    · rename_i hzero
      exact UInt32.le_antisymm UInt32.zero_le hzero
    · rfl
  generalize hstop : min (start + MARKED_RANGE_LENGTH * 2) buffer.count = stop
  have hstop_eq : stop.toNat = min (index - 5 + 10) buffer.messages.length := by
    rw [← hstop, hmin, hten, hcount]
  have hle : start.toNat < stop.toNat := by
    rw [hstart_eq, hstop_eq]
    omega
  have hmarked : markedRange (UInt32.ofNat index) buffer.count = ⟨start, stop - start⟩ := by
    rw [markedRange, hstart]
    show IndexRange.intersection ⟨start, MARKED_RANGE_LENGTH * 2⟩ ⟨0, buffer.count⟩ = _
    rw [IndexRange.intersection, IndexRange.max, IndexRange.max, UInt32.zero_add, hmax, hstop]
    exact if_pos (UInt32.lt_iff_toNat_lt.mpr hle)
  have hlength : (stop - start).toNat = stop.toNat - start.toNat :=
    UInt32.toNat_sub_of_le _ _ (UInt32.le_iff_toNat_le.mpr (Nat.le_of_lt hle))
  rw [hmarked]
  refine ⟨hstart_eq, ?_⟩
  show start.toNat + (stop - start).toNat = _
  rw [hlength, ← hstop_eq]
  omega

end CMRThreadMessageBuffer

open CMRThreadMessageBuffer

theorem indexOfMessageWithIndex_lt {buffer : CMRThreadMessageBuffer}
    (h : buffer.indexOfMessageWithIndex aMessageIndex = some index) :
    index < buffer.messages.length := by
  rw [indexOfMessageWithIndex] at h
  split at h
  · cases h
  · exact (List.findIdx?_eq_some_iff_getElem.mp h).1

theorem messages_synchronizeTemporaryInvisible (callbackIndex : UInt32)
    (buffer : CMRThreadMessageBuffer)
    (hsum : vr.isShownAll = true ∨ vr.firstVisibleLength.toNat + vr.lastVisibleLength.toNat <
      2 ^ 32) :
    ∃ buffer', synchronizeTemporaryInvisible callbackIndex (some vr) buffer = .ok buffer' ∧
      buffer'.messages = setWhere (fun i => isOutside vr buffer.messages.length i &&
        !isMarked vr buffer.messages.length (buffer.indexOfMessageWithIndex callbackIndex) i)
          buffer.messages := by
  obtain ⟨first, hsync, hmessages⟩ := synchronizeVisibleRange_eq buffer hsum
  have hlength : first.messages.length = buffer.messages.length := by
    rw [hmessages, setWhere, List.length_mapIdx]
  rw [synchronizeTemporaryInvisible]
  simp only [bind, Except.bind, hsync, indexOfMessageWithIndex_congr hmessages callbackIndex]
  cases hfound : buffer.indexOfMessageWithIndex callbackIndex with
  | none =>
    refine ⟨first, rfl, hmessages.trans (setWhere_congr fun i hi => ?_)⟩
    rw [isMarked, Option.any_none, Bool.not_false, Bool.and_true]
  | some index =>
    have hindex := indexOfMessageWithIndex_lt hfound
    have hflag : first.messages[index]?.any CMRThreadMessage.isTemporaryInvisible =
        isOutside vr buffer.messages.length index := by
      rw [hmessages, getElem?_setWhere (List.getElem?_eq_getElem hindex)]
      exact CMRThreadMessage.isTemporaryInvisible_setFlag _ _
    simp only [hflag]
    cases hout : isOutside vr buffer.messages.length index with
    | false =>
      refine ⟨first, rfl, hmessages.trans (setWhere_congr fun i hi => ?_)⟩
      rw [isMarked, Option.any_some, hout, Bool.false_and, Bool.false_and, Bool.not_false,
        Bool.and_true]
    | true =>
      rw [← hlength] at hindex
      obtain ⟨hstart, hstop⟩ := markedRange_eq hindex
      obtain ⟨buffer', hset, hmessages'⟩ := setTemporaryInvisible_eq first false
        (show (markedRange (UInt32.ofNat index) first.count).location.toNat +
          (markedRange (UInt32.ofNat index) first.count).length.toNat ≤ first.messages.length by
        rw [hstop]; exact Nat.min_le_right _ _)
      simp only [Bool.not_true, Bool.false_eq_true, if_false]
      refine ⟨buffer', hset, ?_⟩
      rw [hmessages', hstop, hlength, hstart, hmessages, setInRange_setWhere]
      refine setWhere_congr fun i hi => ?_
      rw [isMarked, Option.any_some, hout, Bool.true_and]
      by_cases hmarked : index - 5 ≤ i ∧ i < index - 5 + 10
      · rw [if_pos ⟨hmarked.1, by omega⟩]
        simp [hmarked]
      · rw [if_neg (by omega)]
        rw [← Bool.decide_and, decide_eq_false hmarked, Bool.not_false, Bool.and_true]

/-- Where the sum of the lengths is a word, or all is shown, a message is hidden just
when it is outside of the visible range and not among those shown around the message
that is asked for; that one is not hidden. -/
theorem synchronizeTemporaryInvisible_eq (callbackIndex : UInt32) (vr : CMRThreadVisibleRange)
    (buffer : CMRThreadMessageBuffer)
    (hsum : vr.isShownAll = true ∨ vr.firstVisibleLength.toNat + vr.lastVisibleLength.toNat <
      2 ^ 32) :
    ∃ buffer', synchronizeTemporaryInvisible callbackIndex (some vr) buffer = .ok buffer' ∧
      buffer'.messages.length = buffer.messages.length ∧
      (∀ i m, buffer'.messages[i]? = some m →
        (m.isTemporaryInvisible = true ↔
          (vr.isShownAll = false ∧ ¬ i < vr.firstVisibleLength.toNat ∧
            ¬ buffer.messages.length - vr.lastVisibleLength.toNat ≤ i) ∧
          isMarked vr buffer.messages.length (buffer.indexOfMessageWithIndex callbackIndex) i =
            false)) ∧
      ∀ index m, buffer.indexOfMessageWithIndex callbackIndex = some index →
        buffer'.messages[index]? = some m → m.isTemporaryInvisible = false := by
  obtain ⟨buffer', hsync, hmessages⟩ :=
    messages_synchronizeTemporaryInvisible callbackIndex buffer hsum
  have hlength : buffer'.messages.length = buffer.messages.length := by
    rw [hmessages, setWhere, List.length_mapIdx]
  have hflag : ∀ i m, buffer'.messages[i]? = some m → m.isTemporaryInvisible =
      (isOutside vr buffer.messages.length i &&
        !isMarked vr buffer.messages.length (buffer.indexOfMessageWithIndex callbackIndex) i) := by
    intro i m hm
    have hi : i < buffer.messages.length := hlength ▸ (List.getElem?_eq_some_iff.mp hm).1
    rw [hmessages, getElem?_setWhere (List.getElem?_eq_getElem hi)] at hm
    obtain rfl := Option.some.inj hm
    exact CMRThreadMessage.isTemporaryInvisible_setFlag _ _
  refine ⟨buffer', hsync, hlength, fun i m hm => ?_, fun index m hfound hm => ?_⟩
  · rw [hflag i m hm, Bool.and_eq_true, isOutside_eq_true, Bool.not_eq_true']
  · rw [hflag index m hm, hfound]
    cases hout : isOutside vr buffer.messages.length index with
    | false => rfl
    | true =>
      rw [isMarked, Option.any_some, hout, decide_eq_true (Nat.sub_le index 5),
        decide_eq_true (show index < index - 5 + 10 by omega)]
      rfl

def visibleMessages (n : Nat) (h : n < 2 ^ 30) : CMRThreadMessageBuffer where
  messages := (List.range n).map fun i => { index := UInt32.ofNat i }
  length_lt := by rwa [List.length_map, List.length_range]

/-- The last of three messages is asked for, and it is in the visible range. -/
theorem synchronizeTemporaryInvisible_last :
    ∃ buffer, synchronizeTemporaryInvisible 2 (some ⟨1, 1⟩) (visibleMessages 3 (by decide)) =
      .ok buffer ∧
      buffer.messages[1]?.map CMRThreadMessage.isTemporaryInvisible = some true ∧
      buffer.messages[2]?.map CMRThreadMessage.isTemporaryInvisible = some false := by
  obtain ⟨buffer, hsync, hlength, hflag, hseen⟩ := synchronizeTemporaryInvisible_eq 2 ⟨1, 1⟩
    (visibleMessages 3 (by decide)) (.inr (by decide))
  have hlength : buffer.messages.length = 3 := hlength
  have hone : buffer.messages[1]? = some buffer.messages[1] := List.getElem?_eq_getElem (by omega)
  have htwo : buffer.messages[2]? = some buffer.messages[2] := List.getElem?_eq_getElem (by omega)
  refine ⟨buffer, hsync, ?_, ?_⟩
  · rw [hone]
    exact congrArg some ((hflag 1 _ hone).mpr (by decide))
  · rw [htwo]
    exact congrArg some (hseen 2 _ rfl htwo)

/-- The neighbours of the message that is asked for are shown with it, and a sum of
lengths that is no word lets the loop leave the array. -/
theorem synchronizeTemporaryInvisible_fails :
    (∃ buffer, synchronizeTemporaryInvisible 1 (some ⟨1, 1⟩) (visibleMessages 4 (by decide)) =
      .ok buffer ∧
      isOutside ⟨1, 1⟩ 4 2 = true ∧
      (visibleMessages 4 (by decide)).indexOfMessageWithIndex 1 = some 1 ∧
      buffer.messages[2]?.map CMRThreadMessage.isTemporaryInvisible = some false) ∧
      synchronizeTemporaryInvisible NSNotFound (some ⟨4294967293, 5⟩)
        (visibleMessages 5 (by decide)) =
        .error (.outside 4294967293) :=
  ⟨⟨_, rfl, by decide, rfl, by decide⟩, rfl⟩

end BathyScaphe.Thread
