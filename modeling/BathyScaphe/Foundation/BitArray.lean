import BathyScaphe.Lib.PackedBits
import BathyScaphe.Lib.Run
import Mathlib.Algebra.Group.Nat.Defs
import Mathlib.Data.Finset.Image

/-!
# Arrays of bits

`SGBaseBitArray` keeps its bits in words of 32. The functions that read or write
one bit assert that its word is there. The length is that of all words, and it
is an `unsigned` as the indices are: of 2^27 words it is 0.
-/

namespace BathyScaphe.Foundation

open PackedBits

def BITS_PER_WORD : BitVec 32 := 32#32

def PREFERED_LENGTH : BitVec 32 := 16#32 * 8#32

def NBITS_SHIFT : Nat := 5

def INDEX_MASK : BitVec 32 := 0x1f#32

structure SGBaseBitArray where
  mpStore : List (BitVec 32)
  mCapacity : BitVec 32
  length_mpStore : mpStore.length = mCapacity.toNat

namespace SGBaseBitArray

def capacityFor (aLength : BitVec 32) : BitVec 32 := aLength / BITS_PER_WORD + 1#32

def SGBaseBitArrayClearAll (me : SGBaseBitArray) : SGBaseBitArray where
  mpStore := List.replicate me.mCapacity.toNat 0#32
  mCapacity := me.mCapacity
  length_mpStore := List.length_replicate

def SGBaseBitArrayAllocLength (aLength : BitVec 32) : SGBaseBitArray where
  mpStore := List.replicate (capacityFor aLength).toNat 0#32
  mCapacity := capacityFor aLength
  length_mpStore := List.length_replicate

def SGBaseBitArrayAlloc : SGBaseBitArray := SGBaseBitArrayAllocLength PREFERED_LENGTH

def SGBaseBitArrayGetLength (me : SGBaseBitArray) : BitVec 32 := me.mCapacity * BITS_PER_WORD

/-- The words that stay are those that fit in; those that are new are zero. -/
def resized (words : List (BitVec 32)) (capacity : Nat) : List (BitVec 32) :=
  words.take capacity ++ List.replicate (capacity - words.length) 0#32

theorem length_resized (words : List (BitVec 32)) (capacity : Nat) :
    (resized words capacity).length = capacity := by
  rw [resized, List.length_append, List.length_take, List.length_replicate]
  omega

def SGBaseBitArraySetLength (me : SGBaseBitArray) (aLength : BitVec 32) : SGBaseBitArray :=
  if me.mCapacity = capacityFor aLength then me
  else ⟨resized me.mpStore (capacityFor aLength).toNat, capacityFor aLength, length_resized _ _⟩

def SGBaseBitArrayReserve (me : SGBaseBitArray) (reserveLength : BitVec 32) : SGBaseBitArray :=
  if reserveLength > me.SGBaseBitArrayGetLength then me.SGBaseBitArraySetLength reserveLength
  else me

/-- The word of an index. The assertion fails where there is none. -/
def wordAt (me : SGBaseBitArray) (anIndex : BitVec 32) : Option (BitVec 32) :=
  me.mpStore[(anIndex >>> NBITS_SHIFT).toNat]?

def mask (anIndex : BitVec 32) : BitVec 32 := 1#32 <<< (anIndex &&& INDEX_MASK)

def store (me : SGBaseBitArray) (anIndex word : BitVec 32) : SGBaseBitArray where
  mpStore := me.mpStore.set (anIndex >>> NBITS_SHIFT).toNat word
  mCapacity := me.mCapacity
  length_mpStore := List.length_set.trans me.length_mpStore

def SGBaseBitArrayGetAtIndex (me : SGBaseBitArray) (anIndex : BitVec 32) : Option Bool :=
  (me.wordAt anIndex).map fun word => word &&& mask anIndex != 0

def SGBaseBitArraySetAtIndex (me : SGBaseBitArray) (anIndex : BitVec 32) : Option SGBaseBitArray :=
  (me.wordAt anIndex).map fun word => me.store anIndex (word ||| mask anIndex)

def SGBaseBitArrayClearAtIndex (me : SGBaseBitArray) (anIndex : BitVec 32) :
    Option SGBaseBitArray :=
  (me.wordAt anIndex).map fun word => me.store anIndex (word &&& ~~~mask anIndex)

inductive Op where
  | setLength (aLength : BitVec 32)
  | reserve (reserveLength : BitVec 32)
  | setAtIndex (anIndex : BitVec 32)
  | clearAtIndex (anIndex : BitVec 32)
  | clearAll

def step (me : SGBaseBitArray) : Op → Option SGBaseBitArray
  | .setLength aLength => some (me.SGBaseBitArraySetLength aLength)
  | .reserve reserveLength => some (me.SGBaseBitArrayReserve reserveLength)
  | .setAtIndex anIndex => me.SGBaseBitArraySetAtIndex anIndex
  | .clearAtIndex anIndex => me.SGBaseBitArrayClearAtIndex anIndex
  | .clearAll => some me.SGBaseBitArrayClearAll

end SGBaseBitArray

-- The set of indices

/-- What an array of bits is for: a set of the indices below `room`. -/
structure IndexBits where
  room : Nat
  members : Finset Nat
  lt_room : ∀ i ∈ members, i < room

namespace IndexBits

def roomFor (aLength : Nat) : Nat := 32 * (aLength / 32 + 1)

def empty (room : Nat) : IndexBits := ⟨room, ∅, by simp⟩

def setRoom (s : IndexBits) (room : Nat) : IndexBits :=
  ⟨room, s.members.filter (· < room), fun _ h => (Finset.mem_filter.mp h).2⟩

def reserve (s : IndexBits) (aLength : Nat) : IndexBits :=
  if s.room % 2 ^ 32 < aLength then s.setRoom (roomFor aLength) else s

def insert (s : IndexBits) (i : Nat) (h : i < s.room) : IndexBits :=
  ⟨s.room, Insert.insert i s.members, fun j hj => by
    rcases Finset.mem_insert.mp hj with rfl | hj
    · exact h
    · exact s.lt_room j hj⟩

def erase (s : IndexBits) (i : Nat) : IndexBits :=
  ⟨s.room, s.members.erase i, fun j hj => s.lt_room j (Finset.mem_of_mem_erase hj)⟩

def step (s : IndexBits) : SGBaseBitArray.Op → Option IndexBits
  | .setLength aLength => some (s.setRoom (roomFor aLength.toNat))
  | .reserve reserveLength => some (s.reserve reserveLength.toNat)
  | .setAtIndex anIndex => if h : anIndex.toNat < s.room then some (s.insert anIndex.toNat h)
      else none
  | .clearAtIndex anIndex => if anIndex.toNat < s.room then some (s.erase anIndex.toNat) else none
  | .clearAll => some (empty s.room)

end IndexBits

-- The bits of an array

namespace SGBaseBitArray

variable {me me' : SGBaseBitArray} {s s' : IndexBits} {op : Op} {ops : List Op}
  {anIndex word : BitVec 32}

theorem toNat_capacityFor (aLength : BitVec 32) :
    (capacityFor aLength).toNat = aLength.toNat / 32 + 1 := by
  have hlt := aLength.isLt
  have hwords : (aLength / BITS_PER_WORD).toNat = aLength.toNat / 32 := BitVec.toNat_udiv
  rw [capacityFor, BitVec.toNat_add, hwords]
  exact Nat.mod_eq_of_lt (by rw [BitVec.toNat_ofNat]; omega)

theorem toNat_shift (anIndex : BitVec 32) : (anIndex >>> NBITS_SHIFT).toNat =
    anIndex.toNat / 32 := by
  rw [BitVec.toNat_ushiftRight, Nat.shiftRight_eq_div_pow, NBITS_SHIFT]

theorem mask_eq (anIndex : BitVec 32) : mask anIndex = BitVec.twoPow 32 (anIndex.toNat % 32) := by
  have hplace : (anIndex &&& INDEX_MASK).toNat = anIndex.toNat % 32 := by
    rw [BitVec.toNat_and]
    exact Nat.and_two_pow_sub_one_eq_mod _ 5
  rw [mask, BitVec.shiftLeft_eq', hplace, BitVec.twoPow_eq]

theorem mpStore_store (me : SGBaseBitArray) (anIndex word : BitVec 32) :
    (me.store anIndex word).mpStore = me.mpStore.set (anIndex.toNat / 32) word :=
  congrArg (me.mpStore.set · word) (toNat_shift anIndex)

theorem wordAt_eq (me : SGBaseBitArray) (anIndex : BitVec 32) :
    me.wordAt anIndex = me.mpStore[anIndex.toNat / 32]? := by
  rw [wordAt, toNat_shift]

theorem wordAt_eq_none_iff (me : SGBaseBitArray) (anIndex : BitVec 32) :
    me.wordAt anIndex = none ↔ 32 * me.mCapacity.toNat ≤ anIndex.toNat := by
  rw [wordAt_eq, List.getElem?_eq_none_iff, me.length_mpStore, Nat.le_div_iff_mul_le (by decide),
    Nat.mul_comm]

/-- The array has the words of the room, and its bits are the members. There are at most
2^27 words, as a length is a word itself. -/
structure Represents (me : SGBaseBitArray) (s : IndexBits) : Prop where
  room : s.room = 32 * me.mCapacity.toNat
  bits : ∀ i, bitAt me.mpStore i = decide (i ∈ s.members)
  pos : 0 < s.room
  le : s.room ≤ 2 ^ 32

theorem represents_alloc (aLength : BitVec 32) :
    Represents (SGBaseBitArrayAllocLength aLength)
      (IndexBits.empty (IndexBits.roomFor aLength.toNat)) where
  room := by rw [SGBaseBitArrayAllocLength, toNat_capacityFor]; rfl
  bits i := (bitAt_replicate_zero _).trans (by simp [IndexBits.empty])
  pos := by simp [IndexBits.empty, IndexBits.roomFor]
  le := by
    have hlt := aLength.isLt
    simp only [IndexBits.empty, IndexBits.roomFor]
    omega

theorem Represents.clearAll (h : Represents me s) : Represents me.SGBaseBitArrayClearAll
    (.empty s.room) where
  room := h.room
  bits i := (bitAt_replicate_zero _).trans (by simp [IndexBits.empty])
  pos := h.pos
  le := h.le

theorem bitAt_resized (words : List (BitVec 32)) (capacity i : Nat) :
    bitAt (resized words capacity) i = (decide (i < 32 * capacity) && bitAt words i) := by
  rw [resized, bitAt_append_zero, bitAt_take]
  simp only [Nat.div_lt_iff_lt_mul (show 0 < 32 by decide), Nat.mul_comm]

theorem Represents.setLength (h : Represents me s) (aLength : BitVec 32) :
    Represents (me.SGBaseBitArraySetLength aLength)
      (s.setRoom (IndexBits.roomFor aLength.toNat)) := by
  have hroom : IndexBits.roomFor aLength.toNat = 32 * (capacityFor aLength).toNat := by
    rw [IndexBits.roomFor, toNat_capacityFor]
  refine ⟨?_, fun i => ?_, ?_, ?_⟩
  · rw [SGBaseBitArraySetLength]
    split
    · rename_i hsame
      rw [hsame]
      exact hroom
    · exact hroom
  · have hmem : decide (i ∈ (s.setRoom (IndexBits.roomFor aLength.toNat)).members) =
        (decide (i < 32 * (capacityFor aLength).toNat) && bitAt me.mpStore i) := by
      rw [h.bits, ← hroom, ← Bool.decide_and]
      simp only [IndexBits.setRoom, Finset.mem_filter, and_comm]
    rw [hmem, SGBaseBitArraySetLength]
    split
    · rename_i hsame
      rw [← hsame, ← h.room, h.bits, ← Bool.decide_and]
      exact decide_eq_decide.mpr ⟨fun hi => ⟨s.lt_room i hi, hi⟩, And.right⟩
    · exact bitAt_resized _ _ _
  · simp [IndexBits.setRoom, IndexBits.roomFor]
  · have hlt := aLength.isLt
    simp only [IndexBits.setRoom, IndexBits.roomFor]
    omega

theorem Represents.toNat_getLength (h : Represents me s) :
    me.SGBaseBitArrayGetLength.toNat = s.room % 2 ^ 32 := by
  rw [SGBaseBitArrayGetLength, BitVec.toNat_mul, h.room, Nat.mul_comm]
  rfl

theorem Represents.reserve (h : Represents me s) (reserveLength : BitVec 32) :
    Represents (me.SGBaseBitArrayReserve reserveLength) (s.reserve reserveLength.toNat) := by
  have hiff : reserveLength > me.SGBaseBitArrayGetLength ↔
    s.room % 2 ^ 32 < reserveLength.toNat := by
    rw [gt_iff_lt, BitVec.lt_def, h.toNat_getLength]
  rw [SGBaseBitArrayReserve, IndexBits.reserve]
  by_cases hlt : s.room % 2 ^ 32 < reserveLength.toNat
  · rw [if_pos (hiff.mpr hlt), if_pos hlt]
    exact h.setLength reserveLength
  · rw [if_neg (mt hiff.mp hlt), if_neg hlt]
    exact h

theorem Represents.wordAt_eq_none (h : Represents me s) (hle : ¬anIndex.toNat < s.room) :
    me.wordAt anIndex = none :=
  (me.wordAt_eq_none_iff anIndex).mpr (h.room ▸ Nat.le_of_not_lt hle)

theorem Represents.exists_wordAt (h : Represents me s) (hlt : anIndex.toNat < s.room) :
    ∃ word, me.wordAt anIndex = some word := by
  refine Option.ne_none_iff_exists'.mp fun hnone => ?_
  have hle := (me.wordAt_eq_none_iff anIndex).mp hnone
  rw [← h.room] at hle
  omega

theorem Represents.getAtIndex (h : Represents me s) (anIndex : BitVec 32) :
    me.SGBaseBitArrayGetAtIndex anIndex =
      if anIndex.toNat < s.room then some (decide (anIndex.toNat ∈ s.members)) else none := by
  split
  · rename_i hlt
    obtain ⟨word, hword⟩ := h.exists_wordAt hlt
    have hplace : me.mpStore[anIndex.toNat / 32]? = some word :=
      (me.wordAt_eq anIndex).symm.trans hword
    rw [SGBaseBitArrayGetAtIndex, hword, Option.map_some, mask_eq, ← h.bits,
      ← and_twoPow_ne_zero (by decide) hplace]
    rfl
  · rename_i hle
    rw [SGBaseBitArrayGetAtIndex, h.wordAt_eq_none hle, Option.map_none]

theorem Represents.setAtIndex (h : Represents me s) (hlt : anIndex.toNat < s.room) :
    ∃ me', me.SGBaseBitArraySetAtIndex anIndex = some me' ∧
      Represents me' (s.insert anIndex.toNat hlt) := by
  obtain ⟨word, hword⟩ := h.exists_wordAt hlt
  have hplace : me.mpStore[anIndex.toNat / 32]? = some word :=
    (me.wordAt_eq anIndex).symm.trans hword
  refine ⟨me.store anIndex (word ||| mask anIndex), ?_, h.room, fun i => ?_, h.pos, h.le⟩
  · rw [SGBaseBitArraySetAtIndex, hword, Option.map_some]
  · rw [mpStore_store, mask_eq, bitAt_set_or (by decide) hplace, h.bits, ← Bool.decide_or]
    simp only [IndexBits.insert, Finset.mem_insert]

theorem Represents.clearAtIndex (h : Represents me s) (hlt : anIndex.toNat < s.room) :
    ∃ me', me.SGBaseBitArrayClearAtIndex anIndex = some me' ∧
      Represents me' (s.erase anIndex.toNat) := by
  obtain ⟨word, hword⟩ := h.exists_wordAt hlt
  have hplace : me.mpStore[anIndex.toNat / 32]? = some word :=
    (me.wordAt_eq anIndex).symm.trans hword
  refine ⟨me.store anIndex (word &&& ~~~mask anIndex), ?_, h.room, fun i => ?_, h.pos, h.le⟩
  · rw [SGBaseBitArrayClearAtIndex, hword, Option.map_some]
  · rw [mpStore_store, mask_eq, bitAt_set_and_not (by decide) hplace, h.bits, ← decide_not,
      ← Bool.decide_and]
    simp only [IndexBits.erase, Finset.mem_erase]

theorem Represents.step (h : Represents me s) (op : Op) : Option.Rel Represents (me.step op)
    (s.step op) := by
  cases op with
  | setLength aLength => exact .some (h.setLength aLength)
  | reserve reserveLength => exact .some (h.reserve reserveLength)
  | clearAll => exact .some h.clearAll
  | setAtIndex anIndex =>
    rw [SGBaseBitArray.step, IndexBits.step]
    split
    · rename_i hlt
      obtain ⟨me', hset, h'⟩ := h.setAtIndex hlt
      rw [hset]
      exact .some h'
    · rename_i hle
      rw [SGBaseBitArraySetAtIndex, h.wordAt_eq_none hle]
      exact .none
  | clearAtIndex anIndex =>
    rw [SGBaseBitArray.step, IndexBits.step]
    split
    · rename_i hlt
      obtain ⟨me', hclear, h'⟩ := h.clearAtIndex hlt
      rw [hclear]
      exact .some h'
    · rename_i hle
      rw [SGBaseBitArrayClearAtIndex, h.wordAt_eq_none hle]
      exact .none

theorem Represents.getLength_ne_zero_iff (h : Represents me s) : me.SGBaseBitArrayGetLength ≠ 0#32 ↔
    s.room < 2 ^ 32 := by
  have hlength := h.toNat_getLength
  have hpos := h.pos
  have hle := h.le
  rw [Ne, ← BitVec.toNat_inj, hlength]
  constructor
  · intro hne
    refine Nat.lt_of_le_of_ne hle fun heq => hne ?_
    rw [heq]
    rfl
  · intro hlt
    rw [Nat.mod_eq_of_lt hlt]
    exact Nat.ne_of_gt hpos

/-- To make room takes nothing away, as long as the length of the words is a word. -/
theorem Represents.getAtIndex_reserve (h : Represents me s) (hlt : s.room < 2 ^ 32)
    (reserveLength : BitVec 32)
    (hget : me.SGBaseBitArrayGetAtIndex anIndex = some b) :
    (me.SGBaseBitArrayReserve reserveLength).SGBaseBitArrayGetAtIndex anIndex = some b := by
  rw [h.getAtIndex] at hget
  split at hget
  · rename_i hindex
    rw [(h.reserve reserveLength).getAtIndex, ← hget, IndexBits.reserve]
    split
    · rename_i hreserve
      rw [Nat.mod_eq_of_lt hlt] at hreserve
      have hroom : anIndex.toNat < IndexBits.roomFor reserveLength.toNat := by
        simp only [IndexBits.roomFor]
        omega
      simp only [IndexBits.setRoom, Finset.mem_filter, hroom, and_true, if_true]
    · rfl
  · cases hget

/-- Of 2^27 words all but the first are given back when room for one bit is asked for. -/
theorem Represents.getAtIndex_reserve_one (h : Represents me s) (hroom : ¬s.room < 2 ^ 32) :
    (∃ b, me.SGBaseBitArrayGetAtIndex 32#32 = some b) ∧
      (me.SGBaseBitArrayReserve 1#32).SGBaseBitArrayGetAtIndex 32#32 = none := by
  have heq : s.room = 2 ^ 32 := Nat.le_antisymm h.le (Nat.le_of_not_lt hroom)
  refine ⟨⟨_, (h.getAtIndex _).trans (if_pos ?_)⟩, ((h.reserve 1#32).getAtIndex _).trans
    (if_neg ?_)⟩
  · rw [heq]
    decide
  · rw [IndexBits.reserve, heq, if_pos (by decide)]
    exact (by decide : ¬(32#32).toNat < IndexBits.roomFor 1)

/-- In every run an assertion fails just where an index is not below the room. Otherwise the
array holds the bits of the set, and room can be made without loss just where the length is
not 0. -/
theorem run_represents (aLength : BitVec 32) (ops : List Op) :
    (Run.run step (SGBaseBitArrayAllocLength aLength) ops = none ↔
      Run.run IndexBits.step (.empty (IndexBits.roomFor aLength.toNat)) ops = none) ∧
    ∀ me, Run.run step (SGBaseBitArrayAllocLength aLength) ops = some me →
      ∃ s, Run.run IndexBits.step (.empty (IndexBits.roomFor aLength.toNat)) ops = some s ∧
        me.SGBaseBitArrayGetLength.toNat = s.room % 2 ^ 32 ∧
        (∀ anIndex, me.SGBaseBitArrayGetAtIndex anIndex =
          if anIndex.toNat < s.room then some (decide (anIndex.toNat ∈ s.members)) else none) ∧
        ((∀ reserveLength anIndex b, me.SGBaseBitArrayGetAtIndex anIndex = some b →
          (me.SGBaseBitArrayReserve reserveLength).SGBaseBitArrayGetAtIndex anIndex = some b) ↔
            me.SGBaseBitArrayGetLength ≠ 0#32) := by
  have hrel : Option.Rel Represents (Run.run step (SGBaseBitArrayAllocLength aLength) ops)
      (Run.run IndexBits.step (.empty (IndexBits.roomFor aLength.toNat)) ops) :=
    Run.run_rel (fun {_ _ op} h => Represents.step h op) (represents_alloc aLength)
  generalize Run.run step (SGBaseBitArrayAllocLength aLength) ops = array,
    Run.run IndexBits.step (.empty (IndexBits.roomFor aLength.toNat)) ops = bits at hrel ⊢
  cases hrel with
  | none => exact ⟨iff_of_true rfl rfl, fun me hme => by cases hme⟩
  | @some me s h =>
    refine ⟨iff_of_false (Option.some_ne_none _) (Option.some_ne_none _), fun me' hme => ?_⟩
    obtain rfl := Option.some.inj hme
    refine ⟨s, rfl, h.toNat_getLength, h.getAtIndex, fun hkeeps =>
      ?_, fun hne reserveLength anIndex b hget => ?_⟩
    · refine h.getLength_ne_zero_iff.mpr (by_contra fun hroom => ?_)
      obtain ⟨⟨b, hget⟩, hnone⟩ := h.getAtIndex_reserve_one hroom
      rw [hkeeps 1#32 32#32 b hget] at hnone
      cases hnone
    · exact h.getAtIndex_reserve (h.getLength_ne_zero_iff.mp hne) reserveLength hget

end SGBaseBitArray

end BathyScaphe.Foundation
