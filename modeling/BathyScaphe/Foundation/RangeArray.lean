import BathyScaphe.Foundation.NSString
import BathyScaphe.Lib.Blocks
import BathyScaphe.Lib.Run
import Mathlib.Data.List.Forall2
import Mathlib.Algebra.Group.Nat.Defs

/-!
# Range arrays

A range array is a pointer to its ranges with their number and the number there
is room for, which is doubled when there is no room left. Sizes are counted in
bytes, in words of 32 bits. A request says whether the system grants the memory
that it asks for.

A copy of an array that was never given memory is not such an array itself: its
block has no room for a range, and twice no room is none.
-/

namespace BathyScaphe.Foundation

open Blocks

def kSGRangeArrayInt : Nat := 8

def kSGRangeArrayGrow : Nat := 2

def sizeofNSRange : Nat := 8

/-- A number of bytes, or of ranges, that is computed in a word of 32 bits. -/
def word (n : Nat) : Nat := n % 2 ^ 32

structure SGRangeArrayImp where
  item : Option Nat
  count : Nat
  maxLength : Nat
  deriving DecidableEq

inductive Fault where
  /-- The result is `NULL`, or an assertion is raised before anything is changed. -/
  | refused
  /-- Memory outside the block is written. -/
  | overrun
  deriving DecidableEq

namespace SGRangeArrayImp

abbrev Heap := Memory NSRange

def cells (size : Nat) : Nat := size / sizeofNSRange

def store (heap : Heap) (item : Option Nat) (i : Nat) (r : NSRange) : Except Fault Heap :=
  match item.bind (heap.write · i r) with
  | some heap => .ok heap
  | none => .error .overrun

def SGRangeArrayCreate (granted : Bool) : Except Fault SGRangeArrayImp :=
  if granted then .ok ⟨none, 0, 0⟩ else .error .refused

/-- `memmove` from `NULL` is only for no bytes at all. -/
def memmove (heap : Heap) (p : Nat) (src : Option Nat) (size : Nat) : Except Fault Heap :=
  match src with
  | none => if size = 0 then .ok heap else .error .overrun
  | some q => match heap.move p q (cells size) with
    | some heap => .ok heap
    | none => .error .overrun

def SGRangeArrayCreateCopy (granted : Bool) (heap : Heap) (srcArray : SGRangeArrayImp) :
    Except Fault (SGRangeArrayImp × Heap) :=
  let memsize := word (sizeofNSRange * srcArray.maxLength)
  if granted then do
    let heap' ← memmove (heap.malloc (cells memsize)) heap.next srcArray.item memsize
    .ok ({ srcArray with item := some heap.next }, heap')
  else .error .refused

def SGRangeArrayGetCount (a : SGRangeArrayImp) : Nat := a.count

def SGRangeArrayGetValueAtIndex (heap : Heap) (a : SGRangeArrayImp) (anIndex : Nat) :
    Option NSRange :=
  if anIndex < a.SGRangeArrayGetCount then a.item.bind (heap.read · anIndex) else none

def grown (granted : Bool) (heap : Heap) (a : SGRangeArrayImp) :
    Except Fault (SGRangeArrayImp × Heap) :=
  match a.item with
  | none =>
    if granted then .ok (⟨some heap.next, 0, kSGRangeArrayInt⟩,
      heap.malloc (cells (word (kSGRangeArrayInt * sizeofNSRange))))
    else .error .refused
  | some p =>
    if a.maxLength ≤ a.SGRangeArrayGetCount then
      let growed := word (kSGRangeArrayGrow * a.maxLength)
      if granted then .ok ({ a with item := some heap.next, maxLength := growed },
        heap.realloc p (cells (word (sizeofNSRange * growed))))
      else .error .refused
    else .ok (a, heap)

def SGRangeArrayAppendValue (granted : Bool) (heap : Heap) (a : SGRangeArrayImp)
    (aRange : NSRange) :
    Except Fault (SGRangeArrayImp × Heap) := do
  let count := a.SGRangeArrayGetCount
  let (a, heap) ← a.grown granted heap
  let heap ← store heap a.item count aRange
  .ok ({ a with count := word (count + 1) }, heap)

def SGRangeArraySetValueAtIndex (heap : Heap) (a : SGRangeArrayImp) (aRange : NSRange)
    (anIndex : Nat) : Except Fault Heap :=
  if anIndex < a.SGRangeArrayGetCount then store heap a.item anIndex aRange else .error .refused

def SGRangeArrayRemoveLastValue (a : SGRangeArrayImp) : SGRangeArrayImp :=
  if a.SGRangeArrayGetCount = 0 ∨ a.maxLength = 0 then a
  else { a with count := a.SGRangeArrayGetCount - 1 }

def SGRangeArrayRemoveAllValues (heap : Heap) (a : SGRangeArrayImp) :
    Except Fault (SGRangeArrayImp × Heap) :=
  if a.SGRangeArrayGetCount = 0 ∨ a.maxLength = 0 then .ok (a, heap)
  else
    match a.item.bind (heap.fill · (cells (word (sizeofNSRange * a.maxLength))) ⟨0, 0⟩) with
    | some heap => .ok ({ a with count := 0 }, heap)
    | none => .error .overrun

end SGRangeArrayImp

/-- The place and the direction of an enumerator; its array is asked anew at
each call. -/
structure SGBaseRangeEnumerator where
  position : Nat
  reverse : Bool

namespace SGBaseRangeEnumerator

open SGRangeArrayImp

variable (heap : SGRangeArrayImp.Heap) (array : SGRangeArrayImp)

def initWithRangeArray (theArray : SGRangeArrayImp) (reverse : Bool) : SGBaseRangeEnumerator :=
  ⟨if reverse then theArray.SGRangeArrayGetCount else 0, reverse⟩

def hasNext (e : SGBaseRangeEnumerator) : Bool :=
  if e.reverse then e.position ≠ 0 else e.position < array.SGRangeArrayGetCount

/-- The range and the enumerator behind it; `-1` is the greatest word. -/
def next (e : SGBaseRangeEnumerator) : Option (NSRange × SGBaseRangeEnumerator) :=
  let below := word (e.position + (2 ^ 32 - 1))
  (array.SGRangeArrayGetValueAtIndex heap (if e.reverse then below else e.position)).map fun r =>
    (r, { e with position := if e.reverse then below else word (e.position + 1) })

/-- `while ([enumerator hasNext])`, in at most so many rounds. -/
def ranges : Nat → SGBaseRangeEnumerator → Option (List NSRange)
  | 0, _ => none
  | rounds + 1, e =>
    if e.hasNext array then do
      let (r, e) ← e.next heap array
      let rest ← ranges rounds e
      some (r :: rest)
    else some []

end SGBaseRangeEnumerator

-- Arrays in one memory

structure RangeArrays where
  heap : SGRangeArrayImp.Heap
  arrays : List SGRangeArrayImp

namespace RangeArrays

open SGRangeArrayImp

/-- The arrays are told by the order in which they were made. -/
inductive Op where
  | create
  | copy (i : Nat)
  | append (i : Nat) (aRange : NSRange)
  | set (i : Nat) (aRange : NSRange) (anIndex : Nat)
  | removeLast (i : Nat)
  | removeAll (i : Nat)

structure Request where
  op : Op
  granted : Bool

def initial : RangeArrays := ⟨.empty, []⟩

/-- A message to the array `i`; a message to `nil` does nothing. -/
def onArray (s : RangeArrays) (i : Nat)
    (f : SGRangeArrayImp → Except Fault (SGRangeArrayImp × Heap)) :
    Except Fault RangeArrays :=
  match s.arrays[i]? with
  | none => .ok s
  | some a => do
    let (a, heap) ← f a
    .ok ⟨heap, s.arrays.set i a⟩

def perform (s : RangeArrays) (request : Request) : Except Fault RangeArrays :=
  match request.op with
  | .create => do
    let a ← SGRangeArrayCreate request.granted
    .ok { s with arrays := s.arrays ++ [a] }
  | .copy i =>
    match s.arrays[i]? with
    | none => .error .refused
    | some srcArray => do
      let (a, heap) ← SGRangeArrayCreateCopy request.granted s.heap srcArray
      .ok ⟨heap, s.arrays ++ [a]⟩
  | .append i aRange => s.onArray i (·.SGRangeArrayAppendValue request.granted s.heap aRange)
  | .set i aRange anIndex => s.onArray i fun a => do
    let heap ← a.SGRangeArraySetValueAtIndex s.heap aRange anIndex
    .ok (a, heap)
  | .removeLast i => s.onArray i fun a => .ok (a.SGRangeArrayRemoveLastValue, s.heap)
  | .removeAll i => s.onArray i (·.SGRangeArrayRemoveAllValues s.heap)

/-- The arrays after a request, `none` where memory outside a block was
written. -/
def step (s : RangeArrays) (request : Request) : Option RangeArrays :=
  match s.perform request with
  | .ok s' => some s'
  | .error .refused => some s
  | .error .overrun => none

-- The same operations on lists

def Op.onLists : Op → List (List NSRange) → List (List NSRange)
  | .create, lists => lists ++ [[]]
  | .copy i, lists => lists ++ lists[i]?.toList
  | .append i aRange, lists => lists.modify i (· ++ [aRange])
  | .set i aRange anIndex, lists => lists.modify i (·.set anIndex aRange)
  | .removeLast i, lists => lists.modify i List.dropLast
  | .removeAll i, lists => lists.modify i fun _ => []

def Op.asksMemory : Op → Bool
  | .create | .copy _ | .append .. => true
  | _ => false

/-- The lists after the requests. What asks for memory that is not granted may
be left out. -/
inductive Replay : List (List NSRange) → List Request → List (List NSRange) → Prop where
  | nil : Replay lists [] lists
  | perform : Replay (request.op.onLists lists) requests lists' →
      Replay lists (request :: requests) lists'
  | leaveOut : request.op.asksMemory = true → request.granted = false →
      Replay lists requests lists' → Replay lists (request :: requests) lists'

def allocated (heap : Heap) (a : SGRangeArrayImp) : Nat :=
  a.item.elim 0 fun p => (heap.block p).length

open SGBaseRangeEnumerator in
structure Agrees (heap : Heap) (a : SGRangeArrayImp) (xs : List NSRange) : Prop where
  count : a.SGRangeArrayGetCount = xs.length
  room : a.SGRangeArrayGetCount ≤ a.maxLength
  allocated : a.maxLength = allocated heap a
  value : ∀ i, a.SGRangeArrayGetValueAtIndex heap i = xs[i]?
  enumerator : ∀ rounds > xs.length,
    ranges heap a rounds (initWithRangeArray a false) = some xs
  reverseEnumerator : ∀ rounds > xs.length,
    ranges heap a rounds (initWithRangeArray a true) = some xs.reverse

/-- An array that is full and gets the memory it asks for has neither a block
of no room at all, as the copy of an array that was never given memory, nor one
of so much room that twice its size is no number of bytes. -/
def HasRoom (granted : Bool) (a : SGRangeArrayImp) : Prop :=
  granted = true → a.item ≠ none → a.maxLength ≤ a.SGRangeArrayGetCount →
    0 < a.maxLength ∧ a.maxLength < 2 ^ 28

/-- A range is appended only to an array that has room. -/
def KeepsRoom (s : RangeArrays) (request : Request) : Prop :=
  match request.op with
  | .append i _ => ∀ a ∈ s.arrays[i]?, HasRoom request.granted a
  | _ => True

-- One array

end RangeArrays

namespace SGRangeArrayImp

section
variable {heap heap' : Heap} {a a' : SGRangeArrayImp} {xs : List NSRange}

/-- Room that comes from doubling that of a first block, as long as its size is
a number of bytes. -/
def IsCapacity (n : Nat) : Prop := n = 0 ∨ ∃ k ≤ 25, n = kSGRangeArrayInt * 2 ^ k

structure Represents (heap : Heap) (a : SGRangeArrayImp) (xs : List NSRange) : Prop where
  count : a.count = xs.length
  room : xs.length ≤ a.maxLength
  capacity : IsCapacity a.maxLength
  item : ∀ p, a.item = some p →
    p < heap.next ∧ (heap.block p).length = a.maxLength ∧ heap.Holds p xs
  unallocated : a.item = none → a.maxLength = 0

/-- No block but that of `a` is touched, and a new block of `a` is a fresh one. -/
structure OwnsOnly (heap : Heap) (a : SGRangeArrayImp) (heap' : Heap) (a' : SGRangeArrayImp) :
    Prop where
  next : heap.next ≤ heap'.next
  frame : ∀ q < heap.next, a.item ≠ some q → heap'.block q = heap.block q
  item : ∀ p, a'.item = some p → a.item = some p ∨ heap.next ≤ p

theorem OwnsOnly.refl (h : a'.item = a.item) : OwnsOnly heap a heap a' :=
  ⟨Nat.le_refl _, fun _ _ _ => rfl, fun _ hp => .inl (h ▸ hp)⟩

theorem OwnsOnly.setBlock (hp : a.item = some p) (h : a'.item = a.item) :
    OwnsOnly heap a (heap.setBlock p cells') a' where
  next := Nat.le_refl _
  frame := fun q _ hq => Memory.setBlock_frame (by rintro rfl; exact hq hp)
  item := fun _ hq => .inl (h ▸ hq)

theorem Represents.frame (h : Represents heap a xs) (hnext : heap.next ≤ heap'.next)
    (hblock : ∀ p, a.item = some p → heap'.block p = heap.block p) : Represents heap' a xs :=
  { h with
    item := fun p hp => by
      obtain ⟨hlt, hlength, hholds⟩ := h.item p hp
      exact ⟨by omega, by rw [hblock p hp, hlength], hholds.congr (hblock p hp)⟩ }

theorem IsCapacity.le (h : IsCapacity n) : n ≤ 2 ^ 28 := by
  rcases h with rfl | ⟨k, hk, rfl⟩
  · exact Nat.zero_le _
  · have hpow := Nat.pow_le_pow_right (show 0 < 2 by decide) hk
    unfold kSGRangeArrayInt
    omega

theorem IsCapacity.double (h : IsCapacity n) (hpos : 0 < n) (hlt : n < 2 ^ 28) :
    IsCapacity (2 * n) := by
  rcases h with rfl | ⟨k, hk, rfl⟩
  · simp at hpos
  · have hne : k ≠ 25 := by
      rintro rfl
      simp [kSGRangeArrayInt] at hlt
    exact .inr ⟨k + 1, by omega, by rw [Nat.pow_succ, Nat.mul_comm 2, Nat.mul_assoc]⟩

theorem cells_bytes (h : n ≤ 2 ^ 28) : cells (word (sizeofNSRange * n)) = n := by
  unfold cells word sizeofNSRange
  omega

theorem cells_bytes_overflow (h : n = 0 ∨ n = 2 ^ 28) :
    cells (word (sizeofNSRange * word (kSGRangeArrayGrow * n))) = 0 := by
  rcases h with rfl | rfl <;> rfl

theorem Represents.create : Represents heap ⟨none, 0, 0⟩ [] where
  count := rfl
  room := Nat.le_refl _
  capacity := .inl rfl
  item := nofun
  unallocated := fun _ => rfl

theorem Represents.malloc (h : Represents heap a xs) (hitem : a.item = none) :
    Represents (heap.malloc kSGRangeArrayInt) ⟨some heap.next, 0, kSGRangeArrayInt⟩ xs := by
  have hroom := h.room
  rw [h.unallocated hitem] at hroom
  obtain rfl : xs = [] := List.eq_nil_of_length_eq_zero (by omega)
  refine ⟨rfl, Nat.zero_le _, .inr ⟨0, by decide, rfl⟩, ?_, nofun⟩
  rintro p ⟨⟩
  exact ⟨Nat.lt_succ_self _, by simp, Memory.holds_nil⟩

theorem Represents.realloc (h : Represents heap a xs) (hp : a.item = some p)
    (hn : a.maxLength ≤ n) (hcapacity : IsCapacity n) :
    Represents (heap.realloc p n) { a with item := some heap.next, maxLength := n } xs := by
  obtain ⟨-, hlength, hholds⟩ := h.item p hp
  refine ⟨h.count, Nat.le_trans h.room hn, hcapacity, ?_, nofun⟩
  rintro q ⟨⟩
  exact ⟨Nat.lt_succ_self _, by simp, hholds.realloc (Nat.le_trans h.room hn)⟩

theorem grown_spec (h : Represents heap a xs) (hroom : RangeArrays.HasRoom granted a) :
    (granted = false ∧ a.grown granted heap = .error .refused) ∨
      ∃ a' heap', a.grown granted heap = .ok (a', heap') ∧ Represents heap' a' xs ∧
        xs.length < a'.maxLength ∧ a'.item ≠ none ∧ OwnsOnly heap a heap' a' := by
  unfold grown
  cases hitem : a.item with
  | none =>
    cases granted with
    | false => exact .inl ⟨rfl, rfl⟩
    | true =>
      have hmalloc := h.malloc hitem
      refine .inr ⟨_, _, rfl, hmalloc, ?_, nofun, ?_⟩
      · have hlength := h.room
        rw [h.unallocated hitem] at hlength
        exact Nat.lt_of_le_of_lt hlength (show 0 < kSGRangeArrayInt by decide)
      · refine ⟨Nat.le_succ _, fun q hq _ => Memory.malloc_frame (Nat.ne_of_lt hq), ?_⟩
        rintro p ⟨⟩
        exact .inr (Nat.le_refl _)
  | some p =>
    by_cases hfull : a.maxLength ≤ a.SGRangeArrayGetCount
    · simp only [hfull, if_true]
      cases granted with
      | false => exact .inl ⟨rfl, rfl⟩
      | true =>
        obtain ⟨hpos, hlt⟩ := hroom rfl (by simp [hitem]) hfull
        have hgrowed : word (kSGRangeArrayGrow * a.maxLength) = 2 * a.maxLength :=
          Nat.mod_eq_of_lt (by unfold kSGRangeArrayGrow; omega)
        have hcapacity := h.capacity.double hpos hlt
        simp only [hgrowed, if_true, cells_bytes hcapacity.le]
        have hcount := h.count
        have hlength := h.room
        simp only [SGRangeArrayGetCount] at hfull
        refine .inr ⟨_, _, rfl, h.realloc hitem (by omega) hcapacity, ?_, nofun, ?_⟩
        · show xs.length < 2 * a.maxLength
          omega
        · refine ⟨Nat.le_succ _, fun q hq hne => ?_, ?_⟩
          · exact Memory.realloc_frame (Nat.ne_of_lt hq) (by rintro rfl; exact hne hitem)
          · rintro q ⟨⟩
            exact .inr (Nat.le_refl _)
    · simp only [hfull, if_false]
      refine .inr ⟨a, heap, rfl, h, ?_, by simp [hitem], .refl rfl⟩
      have hcount := h.count
      simp only [SGRangeArrayGetCount] at hfull
      omega

theorem append_spec (h : Represents heap a xs) (hroom : RangeArrays.HasRoom granted a) :
    (granted = false ∧ a.SGRangeArrayAppendValue granted heap r = .error .refused) ∨
      ∃ a' heap', a.SGRangeArrayAppendValue granted heap r = .ok (a', heap') ∧
        Represents heap' a' (xs ++ [r]) ∧ OwnsOnly heap a heap' a' := by
  unfold SGRangeArrayAppendValue
  rcases grown_spec h hroom with ⟨hgranted, hgrown⟩ | ⟨a₁, heap₁, hgrown, h₁, hlt, hitem, howns⟩
  · exact .inl ⟨hgranted, by rw [hgrown]; rfl⟩
  · obtain ⟨p, hp⟩ := Option.ne_none_iff_exists'.mp hitem
    obtain ⟨hnext, hlength, hholds⟩ := h₁.item p hp
    have hwrite : store heap₁ a₁.item a.SGRangeArrayGetCount r =
        .ok (heap₁.setBlock p ((heap₁.block p).set xs.length (some r))) := by
      have hstored : heap₁.write p xs.length r = some _ :=
        Memory.write_eq_some.mpr ⟨hlength ▸ hlt, rfl⟩
      simp [store, hp, SGRangeArrayGetCount, h.count, hstored]
    have hcapacity := h₁.capacity.le
    have hcount : word (a.SGRangeArrayGetCount + 1) = xs.length + 1 := by
      rw [SGRangeArrayGetCount, h.count]
      exact Nat.mod_eq_of_lt (by omega)
    refine .inr ⟨{ a₁ with count := xs.length + 1 },
      heap₁.setBlock p ((heap₁.block p).set xs.length (some r)), ?_, ?_, ?_⟩
    · rw [hgrown]
      show (store heap₁ a₁.item _ r >>= _) = _
      rw [hwrite, hcount]
      rfl
    · refine ⟨by simp, by simpa using Nat.succ_le_of_lt hlt, h₁.capacity, ?_, ?_⟩
      · intro q hq
        obtain rfl : p = q := Option.some.inj (hp.symm.trans hq)
        exact ⟨hnext, by simpa using hlength, hholds.append (hlength ▸ hlt)⟩
      · intro hnone
        exact absurd hnone hitem
    · refine ⟨howns.next, fun q hq hne => ?_, howns.item⟩
      have hqp : q ≠ p := by
        rintro rfl
        rcases howns.item q hp with hsame | hfresh
        · exact hne hsame
        · omega
      rw [Memory.setBlock_frame hqp, howns.frame q hq hne]

theorem append_overrun (h : Represents heap a xs) (hroom : ¬RangeArrays.HasRoom granted a) :
    a.SGRangeArrayAppendValue granted heap r = .error .overrun := by
  simp only [RangeArrays.HasRoom, Classical.not_imp, not_and_or, Nat.not_lt] at hroom
  obtain ⟨rfl, hitem, hfull, hcapacity⟩ := hroom
  obtain ⟨p, hp⟩ := Option.ne_none_iff_exists'.mp hitem
  have hcells : cells (word (sizeofNSRange * word (kSGRangeArrayGrow * a.maxLength))) = 0 := by
    have hle := h.capacity.le
    exact cells_bytes_overflow (by omega)
  have hwrite : (heap.realloc p 0).write heap.next a.SGRangeArrayGetCount r = none :=
    Memory.write_eq_none.mpr (by simp)
  unfold SGRangeArrayAppendValue grown
  simp only [hp, hfull, if_true, hcells]
  show (store _ (some heap.next) a.SGRangeArrayGetCount r >>= _) = _
  simp [store, hwrite]
  rfl

theorem set_spec (h : Represents heap a xs) (hi : i < xs.length) :
    ∃ heap', a.SGRangeArraySetValueAtIndex heap r i = .ok heap' ∧
      Represents heap' a (xs.set i r) ∧ OwnsOnly heap a heap' a := by
  have hitem : a.item ≠ none := by
    intro hnone
    have hroom := h.room
    rw [h.unallocated hnone] at hroom
    omega
  obtain ⟨p, hp⟩ := Option.ne_none_iff_exists'.mp hitem
  obtain ⟨hnext, hlength, hholds⟩ := h.item p hp
  have hstored : heap.write p i r = some _ :=
    Memory.write_eq_some.mpr ⟨Nat.lt_of_lt_of_le hi hholds.length_le, rfl⟩
  refine ⟨heap.setBlock p ((heap.block p).set i (some r)), ?_, ?_, .setBlock hp rfl⟩
  · rw [SGRangeArraySetValueAtIndex, if_pos (by rwa [SGRangeArrayGetCount, h.count]), store, hp]
    simp only [Option.bind_some, hstored]
  · refine ⟨by simpa using h.count, by simpa using h.room, h.capacity, ?_, h.unallocated⟩
    intro q hq
    obtain rfl : p = q := Option.some.inj (hp.symm.trans hq)
    exact ⟨hnext, by simpa using hlength, hholds.set hi⟩

theorem set_refused (h : Represents heap a xs) (hi : xs.length ≤ i) :
    a.SGRangeArraySetValueAtIndex heap r i = .error .refused := by
  have hcount := h.count
  exact if_neg (by simp only [SGRangeArrayGetCount]; omega)

theorem removeLast_spec (h : Represents heap a xs) :
    Represents heap a.SGRangeArrayRemoveLastValue xs.dropLast ∧
      OwnsOnly heap a heap a.SGRangeArrayRemoveLastValue := by
  have hcount := h.count
  have hroom := h.room
  unfold SGRangeArrayRemoveLastValue
  split
  · rename_i hempty
    obtain rfl : xs = [] := List.eq_nil_of_length_eq_zero (by
      simp only [SGRangeArrayGetCount] at hempty; omega)
    exact ⟨h, .refl rfl⟩
  · refine ⟨⟨?_, ?_, h.capacity, fun p hp => ?_, h.unallocated⟩, .refl rfl⟩
    · simp [SGRangeArrayGetCount, hcount]
    · simp only [List.length_dropLast]
      omega
    · obtain ⟨hnext, hlength, hholds⟩ := h.item p hp
      exact ⟨hnext, hlength, hholds.dropLast⟩

theorem removeAll_spec (h : Represents heap a xs) :
    ∃ a' heap', a.SGRangeArrayRemoveAllValues heap = .ok (a', heap') ∧
      Represents heap' a' [] ∧ OwnsOnly heap a heap' a' := by
  have hcount := h.count
  have hroom := h.room
  unfold SGRangeArrayRemoveAllValues
  split
  · rename_i hempty
    obtain rfl : xs = [] := List.eq_nil_of_length_eq_zero (by
      simp only [SGRangeArrayGetCount] at hempty; omega)
    exact ⟨a, heap, rfl, h, .refl rfl⟩
  · rename_i hne
    have hitem : a.item ≠ none := fun hnone => hne (.inr (h.unallocated hnone))
    obtain ⟨p, hp⟩ := Option.ne_none_iff_exists'.mp hitem
    obtain ⟨hnext, hlength, -⟩ := h.item p hp
    have hfill : heap.fill p a.maxLength ⟨0, 0⟩ = some _ :=
      Memory.fill_eq_some.mpr ⟨Nat.le_of_eq hlength.symm, rfl⟩
    simp only [hp, Option.bind_some, cells_bytes h.capacity.le, hfill]
    refine ⟨_, _, rfl, ⟨rfl, Nat.zero_le _, h.capacity, ?_, nofun⟩, .setBlock hp hp.symm⟩
    intro q hq
    obtain rfl : p = q := Option.some.inj hq
    exact ⟨hnext, by simp [hlength], Memory.holds_nil⟩

/-- The copy has a block of its own, even where the array has none. -/
theorem copy_spec (h : Represents heap a xs) :
    ∃ a' heap', SGRangeArrayCreateCopy true heap a = .ok (a', heap') ∧
      Represents heap' a' xs ∧ OwnsOnly heap ⟨none, 0, 0⟩ heap' a' := by
  have hfresh : ∀ q < heap.next, q ≠ heap.next := fun q hq => Nat.ne_of_lt hq
  unfold SGRangeArrayCreateCopy
  cases hitem : a.item with
  | none =>
    have hzero := h.unallocated hitem
    have hroom := h.room
    obtain rfl : xs = [] := List.eq_nil_of_length_eq_zero (by omega)
    refine ⟨⟨some heap.next, a.count, 0⟩, heap.malloc 0, ?_, ?_, ?_⟩
    · simp only [memmove, hzero, if_true]
      rfl
    · refine ⟨h.count, Nat.zero_le _, .inl rfl, ?_, nofun⟩
      rintro p ⟨⟩
      exact ⟨Nat.lt_succ_self _, by simp, Memory.holds_nil⟩
    · refine ⟨Nat.le_succ _, fun q hq _ => Memory.malloc_frame (hfresh q hq), ?_⟩
      rintro p ⟨⟩
      exact .inr (Nat.le_refl _)
  | some p =>
    obtain ⟨hnext, hlength, hholds⟩ := h.item p hitem
    have hmalloc : (heap.malloc a.maxLength).block p = heap.block p :=
      Memory.malloc_frame (hfresh p hnext)
    have hmove : (heap.malloc a.maxLength).move heap.next p a.maxLength =
        some ((heap.malloc a.maxLength).setBlock heap.next (heap.block p)) := by
      refine Memory.move_eq_some.mpr ⟨⟨by simp, by simp [hmalloc, hlength]⟩, ?_⟩
      rw [hmalloc, Memory.malloc_block, List.take_of_length_le (Nat.le_of_eq hlength),
        List.drop_of_length_le (by simp), List.append_nil]
    refine ⟨{ a with item := some heap.next },
      (heap.malloc a.maxLength).setBlock heap.next (heap.block p), ?_, ?_, ?_⟩
    · simp only [memmove, cells_bytes h.capacity.le, hmove, if_true]
      rfl
    · refine ⟨h.count, h.room, h.capacity, ?_, nofun⟩
      rintro q ⟨⟩
      exact ⟨Nat.lt_succ_self _, by simpa using hlength, hholds.congr Memory.setBlock_block⟩
    · refine ⟨Nat.le_succ _, fun q hq _ => ?_, ?_⟩
      · rw [Memory.setBlock_frame (hfresh q hq), Memory.malloc_frame (hfresh q hq)]
      · rintro q ⟨⟩
        exact .inr (Nat.le_refl _)

theorem value_spec (h : Represents heap a xs) (i : Nat) :
    a.SGRangeArrayGetValueAtIndex heap i = xs[i]? := by
  unfold SGRangeArrayGetValueAtIndex SGRangeArrayGetCount
  rw [h.count]
  split
  · rename_i hi
    cases hitem : a.item with
    | none =>
      have hroom := h.room
      rw [h.unallocated hitem] at hroom
      omega
    | some p => exact (h.item p hitem).2.2.read hi
  · rename_i hi
    exact (List.getElem?_eq_none (Nat.le_of_not_lt hi)).symm

open SGBaseRangeEnumerator

theorem ranges_forward (h : Represents heap a xs) (hi : i + n = xs.length) (hrounds : n < rounds) :
    ranges heap a rounds ⟨i, false⟩ = some (xs.drop i) := by
  have hbound := h.capacity.le
  have hroom := h.room
  induction n generalizing i rounds with
  | zero =>
    obtain ⟨rounds, rfl⟩ := Nat.exists_eq_succ_of_ne_zero (Nat.ne_of_gt hrounds)
    have hlast : ¬i < xs.length := by omega
    simp [ranges, hasNext, SGRangeArrayGetCount, h.count, hlast,
      List.drop_of_length_le (Nat.le_of_not_lt hlast)]
  | succ n ih =>
    obtain ⟨rounds, rfl⟩ := Nat.exists_eq_succ_of_ne_zero (Nat.ne_of_gt (Nat.zero_lt_of_lt hrounds))
    have hlt : i < xs.length := by omega
    have hword : word (i + 1) = i + 1 := Nat.mod_eq_of_lt (by omega)
    have hrest : ranges heap a rounds ⟨i + 1, false⟩ = _ := ih (by omega) (by omega)
    have hnext : SGBaseRangeEnumerator.next heap a ⟨i, false⟩ = some (xs[i], ⟨i + 1, false⟩) := by
      simp [SGBaseRangeEnumerator.next, value_spec h, hlt, hword]
    rw [List.drop_eq_getElem_cons hlt]
    simp [ranges, hasNext, SGRangeArrayGetCount, h.count, hlt, hnext, hrest]

theorem ranges_reverse (h : Represents heap a xs) (hi : i ≤ xs.length) (hrounds : i < rounds) :
    ranges heap a rounds ⟨i, true⟩ = some (xs.take i).reverse := by
  have hbound := h.capacity.le
  have hroom := h.room
  induction i generalizing rounds with
  | zero =>
    obtain ⟨rounds, rfl⟩ := Nat.exists_eq_succ_of_ne_zero (Nat.ne_of_gt hrounds)
    simp [ranges, hasNext]
  | succ i ih =>
    obtain ⟨rounds, rfl⟩ := Nat.exists_eq_succ_of_ne_zero (Nat.ne_of_gt (Nat.zero_lt_of_lt hrounds))
    have hlt : i < xs.length := by omega
    have hword : word (i + 1 + (2 ^ 32 - 1)) = i := by
      unfold word
      omega
    have hrest : ranges heap a rounds ⟨i, true⟩ = _ := ih (by omega) (by omega)
    have hnext : SGBaseRangeEnumerator.next heap a ⟨i + 1, true⟩ = some (xs[i], ⟨i, true⟩) := by
      simp only [SGBaseRangeEnumerator.next, hword, if_true, value_spec h]
      simp [hlt]
    have htake := List.take_succ_eq_append_getElem hlt
    simp only [ranges, hasNext, hnext, htake, List.reverse_append]
    simp [hrest]

theorem Represents.agrees (h : Represents heap a xs) : RangeArrays.Agrees heap a xs where
  count := h.count
  room := by
    rw [SGRangeArrayGetCount, h.count]
    exact h.room
  allocated := by
    unfold RangeArrays.allocated
    cases hitem : a.item with
    | none => exact h.unallocated hitem
    | some p => exact (h.item p hitem).2.1.symm
  value := value_spec h
  enumerator := fun rounds hrounds => by
    simpa [initWithRangeArray] using ranges_forward h (Nat.zero_add _) hrounds
  reverseEnumerator := fun rounds hrounds => by
    have hreverse := ranges_reverse h (Nat.le_refl _) hrounds
    simpa [initWithRangeArray, SGRangeArrayGetCount, h.count] using hreverse

end

end SGRangeArrayImp

namespace RangeArrays

open SGRangeArrayImp

section
variable {heap' : Heap} {i : Nat} {a' : SGRangeArrayImp} {xs : List NSRange} {s s' : RangeArrays}
  {a : SGRangeArrayImp} {lists : List (List NSRange)}

/-- Each array stands for its list, and no two arrays have one block. -/
structure Inv (s : RangeArrays) (lists : List (List NSRange)) : Prop where
  length : s.arrays.length = lists.length
  represents : ∀ (i : Nat) a xs, s.arrays[i]? = some a → lists[i]? = some xs →
    Represents s.heap a xs
  apart : ∀ (i j : Nat) a b p, s.arrays[i]? = some a → s.arrays[j]? = some b →
    a.item = some p → b.item = some p → i = j

theorem Inv.initial : Inv initial [] :=
  ⟨rfl, by simp [RangeArrays.initial], by simp [RangeArrays.initial]⟩

theorem Inv.lookup (h : Inv s lists) (ha : s.arrays[i]? = some a) :
    ∃ xs, lists[i]? = some xs ∧ Represents s.heap a xs := by
  have hi : i < lists.length := h.length ▸ (List.getElem?_eq_some_iff.mp ha).1
  exact ⟨lists[i], by simp [hi], h.represents i a _ ha (by simp [hi])⟩

theorem Inv.item_lt (h : Inv s lists) (ha : s.arrays[i]? = some a) (hp : a.item = some p) :
    p < s.heap.next := by
  obtain ⟨xs, -, hxs⟩ := h.lookup ha
  exact (hxs.item p hp).1

theorem Inv.add (h : Inv s lists) (ha : Represents heap' a xs)
    (howns : OwnsOnly s.heap ⟨none, 0, 0⟩ heap' a) :
    Inv ⟨heap', s.arrays ++ [a]⟩ (lists ++ [xs]) := by
  have hfresh : ∀ p, a.item = some p → s.heap.next ≤ p := by
    intro p hp
    simpa using howns.item p hp
  constructor
  · simp [h.length]
  · intro i b ys hb hys
    rcases Nat.lt_trichotomy i s.arrays.length with hlt | rfl | hgt
    · rw [List.getElem?_append_left hlt] at hb
      rw [List.getElem?_append_left (h.length ▸ hlt)] at hys
      refine (h.represents i b ys hb hys).frame howns.next fun p hp => ?_
      exact howns.frame p (h.item_lt hb hp) nofun
    · rw [h.length] at hys
      simp only [List.getElem?_concat_length, Option.some.injEq] at hb hys
      exact hb ▸ hys ▸ ha
    · rw [List.getElem?_eq_none (by simpa using Nat.succ_le_of_lt hgt)] at hb
      cases hb
  · intro i j b c p hb hc hbp hcp
    simp only [List.getElem?_append, List.getElem?_singleton] at hb hc
    split at hb <;> split at hc
    · exact h.apart i j b c p hb hc hbp hcp
    · have hlt := h.item_lt hb hbp
      split at hc
      · cases hc
        have hle := hfresh p hcp
        omega
      · cases hc
    · have hlt := h.item_lt hc hcp
      split at hb
      · cases hb
        have hle := hfresh p hbp
        omega
      · cases hb
    · split at hb <;> split at hc <;> first | omega | contradiction

/-- What owns only its block and fresh ones takes the place of its array. -/
theorem Inv.update (h : Inv s lists) (ha : s.arrays[i]? = some a)
    (ha' : Represents heap' a' xs) (howns : OwnsOnly s.heap a heap' a') :
    Inv ⟨heap', s.arrays.set i a'⟩ (lists.set i xs) := by
  have hi := (List.getElem?_eq_some_iff.mp ha).1
  have hother : ∀ {j : Nat} {b p}, i ≠ j → s.arrays[j]? = some b → b.item = some p →
      a'.item ≠ some p := by
    intro j b p hne hb hp hp'
    rcases howns.item p hp' with hsame | hfresh
    · exact hne (h.apart i j a b p ha hb hsame hp)
    · have hlt := h.item_lt hb hp
      omega
  constructor
  · simp [h.length]
  · intro j b ys hb hys
    by_cases hij : i = j
    · subst hij
      simp only [List.getElem?_set_self hi, Option.some.injEq] at hb
      simp only [List.getElem?_set_self (h.length ▸ hi), Option.some.injEq] at hys
      exact hb ▸ hys ▸ ha'
    · rw [List.getElem?_set_ne hij] at hb hys
      refine (h.represents j b ys hb hys).frame howns.next fun p hp => ?_
      exact howns.frame p (h.item_lt hb hp) fun hap => hij (h.apart i j a b p ha hb hap hp)
  · intro j k b c p hb hc hbp hcp
    by_cases hij : i = j <;> by_cases hik : i = k
    · omega
    · subst hij
      simp only [List.getElem?_set_self hi, Option.some.injEq] at hb
      rw [List.getElem?_set_ne hik] at hc
      exact absurd (hb ▸ hbp) (hother hik hc hcp)
    · subst hik
      simp only [List.getElem?_set_self hi, Option.some.injEq] at hc
      rw [List.getElem?_set_ne hij] at hb
      exact absurd (hc ▸ hcp) (hother hij hb hbp)
    · rw [List.getElem?_set_ne hij] at hb
      rw [List.getElem?_set_ne hik] at hc
      exact h.apart j k b c p hb hc hbp hcp

theorem Inv.agrees (h : Inv s lists) : List.Forall₂ (Agrees s.heap) s.arrays lists := by
  refine List.forall₂_iff_get.mpr ⟨h.length, fun i hi hi' => ?_⟩
  exact (h.represents i _ _ (by simp [hi]) (by simp [hi'])).agrees

-- One request

theorem Inv.lookup_none (h : Inv s lists) (ha : s.arrays[i]? = none) : lists[i]? = none := by
  rw [List.getElem?_eq_none_iff, ← h.length]
  exact List.getElem?_eq_none_iff.mp ha

section
variable {f : SGRangeArrayImp → Except Fault (SGRangeArrayImp × Heap)}
  {g : List NSRange → List NSRange}

theorem modify_of_fixed (hxs : lists[i]? = some xs) (hg : g xs = xs) :
    lists.modify i g = lists := by
  apply List.ext_getElem?
  intro j
  rw [List.getElem?_modify]
  by_cases hij : i = j
  · subst hij
    simp [hxs, hg]
  · simp [hij]

theorem Inv.onArray_of_none (h : Inv s lists) (ha : s.arrays[i]? = none) :
    ∃ s', s.onArray i f = .ok s' ∧ Inv s' (lists.modify i g) := by
  refine ⟨s, by simp [RangeArrays.onArray, ha], ?_⟩
  rw [List.modify_eq_set_getElem?, h.lookup_none ha]
  exact h

theorem Inv.onArray_of_ok (h : Inv s lists) (ha : s.arrays[i]? = some a) (hxs : lists[i]? = some xs)
    (hf : f a = .ok (a', heap')) (ha' : Represents heap' a' (g xs))
    (howns : OwnsOnly s.heap a heap' a') :
    ∃ s', s.onArray i f = .ok s' ∧ Inv s' (lists.modify i g) := by
  refine ⟨⟨heap', s.arrays.set i a'⟩, ?_, ?_⟩
  · simp only [RangeArrays.onArray, ha, hf]
    rfl
  · rw [List.modify_eq_set_getElem?, hxs]
    exact h.update ha ha' howns

theorem Inv.onArray (h : Inv s lists)
    (hf : ∀ a xs, Represents s.heap a xs →
      ∃ a' heap', f a = .ok (a', heap') ∧ Represents heap' a' (g xs) ∧ OwnsOnly s.heap a heap' a') :
    ∃ s', s.onArray i f = .ok s' ∧ Inv s' (lists.modify i g) := by
  cases ha : s.arrays[i]? with
  | none => exact h.onArray_of_none ha
  | some a =>
    obtain ⟨xs, hxs, hrepresents⟩ := h.lookup ha
    obtain ⟨a', heap', hresult, ha', howns⟩ := hf a xs hrepresents
    exact h.onArray_of_ok ha hxs hresult ha' howns

theorem onArray_error (ha : s.arrays[i]? = some a) (hf : f a = .error e) :
    s.onArray i f = .error e := by
  simp only [RangeArrays.onArray, ha, hf]
  rfl

end

theorem step_of_ok (h : s.perform request = .ok s') : s.step request = some s' := by
  simp [step, h]

theorem step_of_refused (h : s.perform request = .error .refused) : s.step request = some s := by
  simp [step, h]

theorem step_inv (h : Inv s lists) (hkeeps : KeepsRoom s request) :
    ∃ s', s.step request = some s' ∧ (Inv s' (request.op.onLists lists) ∨
      (request.op.asksMemory = true ∧ request.granted = false ∧ Inv s' lists)) := by
  obtain ⟨op, granted⟩ := request
  cases op with
  | create =>
    cases granted with
    | false => exact ⟨s, rfl, .inr ⟨rfl, rfl, h⟩⟩
    | true => exact ⟨_, rfl, .inl (h.add .create (.refl rfl))⟩
  | copy i =>
    cases ha : s.arrays[i]? with
    | none =>
      refine ⟨s, step_of_refused (by simp [perform, ha]), .inl ?_⟩
      simpa [Op.onLists, h.lookup_none ha] using h
    | some a =>
      cases granted with
      | false =>
        refine ⟨s, step_of_refused ?_, .inr ⟨rfl, rfl, h⟩⟩
        simp only [perform, ha]
        rfl
      | true =>
        obtain ⟨xs, hxs, hrepresents⟩ := h.lookup ha
        obtain ⟨a', heap', hcopy, ha', howns⟩ := copy_spec hrepresents
        refine ⟨⟨heap', s.arrays ++ [a']⟩, step_of_ok ?_, .inl ?_⟩
        · simp only [perform, ha, hcopy]
          rfl
        · simpa [Op.onLists, hxs] using h.add ha' howns
  | append i aRange =>
    cases ha : s.arrays[i]? with
    | none =>
      obtain ⟨s', hok, hinv⟩ := h.onArray_of_none (g := (· ++ [aRange])) ha
      exact ⟨s', step_of_ok hok, .inl hinv⟩
    | some a =>
      obtain ⟨xs, hxs, hrepresents⟩ := h.lookup ha
      rcases append_spec (r := aRange) hrepresents (hkeeps a ha) with
        ⟨hgranted, hrefused⟩ | ⟨a', heap', happend, ha', howns⟩
      · exact ⟨s, step_of_refused (onArray_error ha hrefused), .inr ⟨rfl, hgranted, h⟩⟩
      · obtain ⟨s', hok, hinv⟩ := h.onArray_of_ok (g := (· ++ [aRange]))
          (f := (·.SGRangeArrayAppendValue granted s.heap aRange)) ha hxs happend ha' howns
        exact ⟨s', step_of_ok hok, .inl hinv⟩
  | set i aRange anIndex =>
    cases ha : s.arrays[i]? with
    | none =>
      obtain ⟨s', hok, hinv⟩ := h.onArray_of_none (g := (·.set anIndex aRange)) ha
      exact ⟨s', step_of_ok hok, .inl hinv⟩
    | some a =>
      obtain ⟨xs, hxs, hrepresents⟩ := h.lookup ha
      rcases Nat.lt_or_ge anIndex xs.length with hi | hi
      · obtain ⟨heap', hset, ha', howns⟩ := set_spec (r := aRange) hrepresents hi
        have hmessage : (do
            let heap ← a.SGRangeArraySetValueAtIndex s.heap aRange anIndex
            .ok (a, heap)) = Except.ok (a, heap') := by
          rw [hset]
          rfl
        obtain ⟨s', hok, hinv⟩ := h.onArray_of_ok (g := (·.set anIndex aRange))
          (f := fun a => do
            let heap ← a.SGRangeArraySetValueAtIndex s.heap aRange anIndex
            .ok (a, heap)) ha hxs hmessage ha' howns
        exact ⟨s', step_of_ok hok, .inl hinv⟩
      · have hrefused := set_refused (r := aRange) hrepresents hi
        refine ⟨s, step_of_refused (onArray_error ha (by rw [hrefused]; rfl)), .inl ?_⟩
        show Inv s (lists.modify i (·.set anIndex aRange))
        rw [modify_of_fixed hxs (List.set_eq_of_length_le hi)]
        exact h
  | removeLast i =>
    obtain ⟨s', hok, hinv⟩ := h.onArray (i := i) (g := List.dropLast)
      (f := fun a => .ok (a.SGRangeArrayRemoveLastValue, s.heap)) fun a xs hrepresents =>
        ⟨_, _, rfl, removeLast_spec hrepresents⟩
    exact ⟨s', step_of_ok hok, .inl hinv⟩
  | removeAll i =>
    obtain ⟨s', hok, hinv⟩ := h.onArray (i := i) (g := fun _ => [])
      (f := (·.SGRangeArrayRemoveAllValues s.heap)) fun a xs hrepresents =>
        removeAll_spec hrepresents
    exact ⟨s', step_of_ok hok, .inl hinv⟩

theorem step_overrun (h : Inv s lists) (hkeeps : ¬KeepsRoom s request) : s.step request = none := by
  obtain ⟨op, granted⟩ := request
  cases op with
  | append i aRange =>
    simp only [KeepsRoom, Option.mem_def, not_forall] at hkeeps
    obtain ⟨a, ha, hroom⟩ := hkeeps
    obtain ⟨xs, -, hrepresents⟩ := h.lookup ha
    have herror : s.perform ⟨.append i aRange, granted⟩ = .error .overrun :=
      onArray_error ha (append_overrun hrepresents hroom)
    simp [step, herror]
  | _ => exact absurd trivial hkeeps

-- Runs

theorem replay_cons (h : Replay lists' requests lists'')
    (hlists : lists' = request.op.onLists lists ∨
      (request.op.asksMemory = true ∧ request.granted = false ∧ lists' = lists)) :
    Replay lists (request :: requests) lists'' := by
  rcases hlists with rfl | ⟨hasks, hgranted, rfl⟩
  · exact .perform h
  · exact .leaveOut hasks hgranted h

/-- The run goes to its end, with the arrays as the lists, as long as the room
is kept; without the room it writes outside a block. -/
theorem run_spec (h : Inv s lists) (hkeeps : Run.Guarded step KeepsRoom s requests) :
    ∃ s' lists', Run.run step s requests = some s' ∧ Replay lists requests lists' ∧
      List.Forall₂ (Agrees s'.heap) s'.arrays lists' := by
  induction requests generalizing s lists with
  | nil => exact ⟨s, lists, rfl, .nil, h.agrees⟩
  | cons request requests ih =>
    obtain ⟨s₁, hstep, hinv⟩ := step_inv h hkeeps.1
    obtain ⟨lists₁, hinv₁, hlists⟩ : ∃ lists₁, Inv s₁ lists₁ ∧
        (lists₁ = request.op.onLists lists ∨
          (request.op.asksMemory = true ∧ request.granted = false ∧ lists₁ = lists)) := by
      rcases hinv with hinv | ⟨hasks, hgranted, hinv⟩
      · exact ⟨_, hinv, .inl rfl⟩
      · exact ⟨_, hinv, .inr ⟨hasks, hgranted, rfl⟩⟩
    obtain ⟨s', lists', hrun, hreplay, hagrees⟩ := ih hinv₁ (hkeeps.2 s₁ hstep)
    exact ⟨s', lists', Run.run_cons.mpr ⟨s₁, hstep, hrun⟩, replay_cons hreplay hlists, hagrees⟩

theorem guarded_of_run (h : Inv s lists) (hrun : Run.run step s requests = some s') :
    Run.Guarded step KeepsRoom s requests := by
  induction requests generalizing s lists with
  | nil => trivial
  | cons request requests ih =>
    obtain ⟨s₁, hstep, hrun⟩ := Run.run_cons.mp hrun
    have hkeeps : KeepsRoom s request := by
      by_contra hkeeps
      rw [step_overrun h hkeeps] at hstep
      cases hstep
    obtain ⟨s₂, hstep₂, hinv⟩ := step_inv h hkeeps
    obtain rfl : s₁ = s₂ := Option.some.inj (hstep.symm.trans hstep₂)
    refine Run.guarded_cons hstep hkeeps ?_
    rcases hinv with hinv | ⟨-, -, hinv⟩
    · exact ih hinv hrun
    · exact ih hinv hrun

end

/-- Every run in which nothing is appended without room does to the arrays what
it does to lists, and no other run ends. -/
theorem requests_agree_iff (requests : List Request) :
    (∃ s lists, Run.run step initial requests = some s ∧ Replay [] requests lists ∧
      List.Forall₂ (Agrees s.heap) s.arrays lists) ↔
      Run.Guarded step KeepsRoom initial requests := by
  constructor
  · rintro ⟨s, lists, hrun, -, -⟩
    exact guarded_of_run .initial hrun
  · exact run_spec .initial

def copyOfEmpty : List Request :=
  [⟨.create, true⟩, ⟨.copy 0, true⟩, ⟨.append 1 ⟨0, 1⟩, true⟩]

/-- The first range that is appended to the copy of a new array is written
outside its block. -/
theorem copyOfEmpty_disagrees :
    ¬∃ s lists, Run.run step initial copyOfEmpty = some s ∧ Replay [] copyOfEmpty lists ∧
      List.Forall₂ (Agrees s.heap) s.arrays lists := by
  have hrun : Run.run step initial copyOfEmpty = none := by rfl
  rintro ⟨s, lists, hrun', -, -⟩
  rw [hrun] at hrun'
  cases hrun'

end RangeArrays

end BathyScaphe.Foundation
