import BathyScaphe.Foundation.RangeArray
import BathyScaphe.Lib.Blocks
import BathyScaphe.Lib.Run
import Mathlib.Data.List.InsertIdx
import Mathlib.Algebra.Group.Nat.Defs

/-!
# Arrays of pointers

`SGBaseCArray` is a block of pointers with their number and the number there is
room for; `SGBaseCArrayWrapper` is a mutable array of objects over it. The C
functions append and insert at every index up to the count. The wrapper lets
them insert below the count only.

An enumerator takes the block and the count with it. The one that goes backwards
starts at the last object and steps down before it reads.
-/

namespace BathyScaphe.Foundation

open Blocks

def kSGBaseCArrayBacketsInitSize : Nat := 16

def kSGBaseCArrayBacketsGrow : Nat := 2

def sizeofPointer : Nat := 4

def NSNotFound : Nat := 2 ^ 31 - 1

structure SGBaseCArray where
  capacity : Nat
  count : Nat
  elements : Option Nat
  deriving DecidableEq

inductive CArrayFault where
  /-- An exception is raised before anything is changed. -/
  | raised
  /-- Memory outside the block is touched, or the call never returns. -/
  | broken
  deriving DecidableEq

namespace SGBaseCArray

variable {α : Type}

/-- A cell that was written holds an object or `NULL`. -/
abbrev Heap (α : Type) := Memory (Option α)

def cells (size : Nat) : Nat := size / sizeofPointer

def access {β : Type} : Option β → Except CArrayFault β
  | some result => .ok result
  | none => .error .broken

def SGBaseCArrayInit : SGBaseCArray := ⟨0, 0, none⟩

/-- The loop that doubles the capacity, in at most so many rounds. -/
def doubled (numElements : Nat) : Nat → Nat → Option Nat
  | 0, _ => none
  | rounds + 1, newCount =>
    if newCount < numElements then doubled numElements rounds
      (word (newCount * kSGBaseCArrayBacketsGrow))
    else some newCount

def SGBaseCArrayNewCapacityFor_ (a : SGBaseCArray) (numElements : Nat) : Option Nat :=
  doubled numElements 33 (if a.capacity = 0 then kSGBaseCArrayBacketsInitSize else a.capacity)

def SGBaseCArrayReserve (heap : Heap α) (a : SGBaseCArray) (numElements : Nat) :
    Except CArrayFault (SGBaseCArray × Heap α) :=
  if numElements ≤ a.capacity then .ok (a, heap)
  else do
    let capacity ← access (a.SGBaseCArrayNewCapacityFor_ numElements)
    let size := word (capacity * sizeofPointer)
    let heap' ← match a.elements with
      | none =>
        if a.count = 0 then access ((heap.malloc (cells size)).write heap.next 0 none)
        else .error .raised
      | some p => .ok (heap.realloc p (cells size))
    .ok ({ a with capacity := capacity, elements := some heap.next }, heap')

def SGBaseCArrayAppendValue (heap : Heap α) (a : SGBaseCArray) (aValue : Option α) :
    Except CArrayFault (SGBaseCArray × Heap α) := do
  let idx := a.count
  let (a, heap) ← SGBaseCArrayReserve heap a (idx + 2)
  let p ← access a.elements
  let heap ← access (heap.write p idx aValue)
  let heap ← access (heap.write p (idx + 1) none)
  .ok ({ a with count := idx + 1 }, heap)

def SGBaseCArrayInsertValueAtIndex (heap : Heap α) (a : SGBaseCArray) (aValue : Option α)
    (anIndex : Nat) :
    Except CArrayFault (SGBaseCArray × Heap α) :=
  let count := a.count
  if count = anIndex then SGBaseCArrayAppendValue heap a aValue
  else if anIndex < count then do
    let (a, heap) ← SGBaseCArrayReserve heap a (count + 2)
    let p ← access a.elements
    let heap ← access (heap.shift p (anIndex + 1) anIndex
      (cells (word ((count - anIndex) * sizeofPointer))))
    let heap ← access (heap.write p anIndex aValue)
    let heap ← access (heap.write p (count + 1) none)
    .ok ({ a with count := count + 1 }, heap)
  else .error .raised

def SGBaseCArrayRemoveValueAtIndex (heap : Heap α) (a : SGBaseCArray) (anIndex : Nat) :
    Except CArrayFault (SGBaseCArray × Heap α) :=
  if anIndex < a.count then do
    let p ← access a.elements
    let move_ := a.count - (anIndex + 1)
    let moved := if 0 < move_ then heap.shift p anIndex (anIndex + 1)
      (cells (word (move_ * sizeofPointer)))
      else some heap
    let heap ← access moved
    let heap ← access (heap.write p (a.count - 1) none)
    .ok ({ a with count := a.count - 1 }, heap)
  else .error .raised

def SGBaseCArrayRemoveLastValue (heap : Heap α) (a : SGBaseCArray) :
    Except CArrayFault (SGBaseCArray × Heap α) :=
  if a.count = 0 then .ok (a, heap)
  else do
    let p ← access a.elements
    let heap ← access (heap.write p (a.count - 1) none)
    .ok ({ a with count := a.count - 1 }, heap)

end SGBaseCArray

open SGBaseCArray

structure SGBaseCArrayWrapper (α : Type) where
  m_objects : SGBaseCArray
  heap : Heap α

structure SGBaseEnumerator where
  m_pointer : Option Nat
  m_count : Nat
  m_index : Nat
  m_isReverse : Bool

namespace SGBaseEnumerator

variable {α : Type}

def initWithPointer (ptr : Option Nat) (count : Nat) (isReverse : Bool) : SGBaseEnumerator :=
  ⟨ptr, count, if isReverse then word (count + (2 ^ 32 - 1)) else 0, isReverse⟩

/-- The object or `nil`, and the enumerator behind it. -/
def nextObject (heap : Heap α) (e : SGBaseEnumerator) : Except CArrayFault
    (Option α × SGBaseEnumerator) :=
  if e.m_isReverse then
    let m_index := if e.m_index = 0 then NSNotFound else e.m_index - 1
    if m_index = NSNotFound then .ok (none, { e with m_index })
    else do
      let object ← access (e.m_pointer.bind (heap.read · m_index))
      .ok (object, { e with m_index })
  else if e.m_count = e.m_index then .ok (none, e)
  else do
    let object ← access (e.m_pointer.bind (heap.read · e.m_index))
    .ok (object, { e with m_index := e.m_index + 1 })

/-- `while (object = [enumerator nextObject])`, in at most so many rounds. -/
def allObjects (heap : Heap α) : Nat → SGBaseEnumerator → Option (List α)
  | 0, _ => none
  | rounds + 1, e =>
    match e.nextObject heap with
    | .error _ => none
    | .ok (none, _) => some []
    | .ok (some object, e) => (allObjects heap rounds e).map (object :: ·)

end SGBaseEnumerator

namespace SGBaseCArrayWrapper

variable {α : Type}

def initWithCapacity (capacity : Nat) : Except CArrayFault (SGBaseCArrayWrapper α) := do
  let (m_objects, heap) ← SGBaseCArrayReserve .empty SGBaseCArrayInit capacity
  .ok ⟨m_objects, heap⟩

def initWithObjects (objects : List α) : Except CArrayFault (SGBaseCArrayWrapper α) := do
  let array ← initWithCapacity objects.length
  if objects.length = 0 then .ok array
  else do
    let p ← access array.m_objects.elements
    let moved := cells (word (objects.length * sizeofPointer))
    let heap ← access (array.heap.load p ((objects.take moved).map some))
    .ok ⟨{ array.m_objects with count := objects.length }, heap⟩

def boundsCheck (array : SGBaseCArrayWrapper α) (anIndex : Nat) : Except CArrayFault Unit :=
  if anIndex < array.m_objects.count then .ok () else .error .raised

def nullCheck (anObject : Option α) : Except CArrayFault Unit :=
  if anObject.isSome then .ok () else .error .raised

def onObjects (array : SGBaseCArrayWrapper α)
    (f : Heap α → SGBaseCArray → Except CArrayFault (SGBaseCArray × Heap α)) :
    Except CArrayFault (SGBaseCArrayWrapper α) := do
  let (m_objects, heap) ← f array.heap array.m_objects
  .ok ⟨m_objects, heap⟩

def cellAt (array : SGBaseCArrayWrapper α) (anIndex : Nat) : Except CArrayFault (Option α) :=
  access (array.m_objects.elements.bind (array.heap.read · anIndex))

def setCellAt (array : SGBaseCArrayWrapper α) (anIndex : Nat) (anObject : Option α) :
    Except CArrayFault (SGBaseCArrayWrapper α) := do
  let heap ← access (array.m_objects.elements.bind (array.heap.write · anIndex anObject))
  .ok { array with heap := heap }

def count (array : SGBaseCArrayWrapper α) : Nat := array.m_objects.count

def objectAtIndex (array : SGBaseCArrayWrapper α) (anIndex : Nat) :
    Except CArrayFault (Option α) := do
  array.boundsCheck anIndex
  array.cellAt anIndex

def addObject (array : SGBaseCArrayWrapper α) (anObject : Option α) :
    Except CArrayFault (SGBaseCArrayWrapper α) := do
  nullCheck anObject
  array.onObjects fun heap a => SGBaseCArrayAppendValue heap a anObject

def insertObject (array : SGBaseCArrayWrapper α) (anObject : Option α) (anIndex : Nat) :
    Except CArrayFault (SGBaseCArrayWrapper α) := do
  nullCheck anObject
  array.boundsCheck anIndex
  array.onObjects fun heap a => SGBaseCArrayInsertValueAtIndex heap a anObject anIndex

def replaceObjectAtIndex (array : SGBaseCArrayWrapper α) (anIndex : Nat) (anObject : Option α) :
    Except CArrayFault (SGBaseCArrayWrapper α) := do
  array.boundsCheck anIndex
  nullCheck anObject
  array.setCellAt anIndex anObject

def removeObjectAtIndex (array : SGBaseCArrayWrapper α) (anIndex : Nat) :
    Except CArrayFault (SGBaseCArrayWrapper α) := do
  array.boundsCheck anIndex
  array.onObjects fun heap a => SGBaseCArrayRemoveValueAtIndex heap a anIndex

def removeLastObject (array : SGBaseCArrayWrapper α) : Except CArrayFault (SGBaseCArrayWrapper α) :=
  if array.m_objects.count ≠ 0 then array.onObjects SGBaseCArrayRemoveLastValue else .ok array

def removeAllObjects (array : SGBaseCArrayWrapper α) : SGBaseCArrayWrapper α :=
  { array with m_objects := { array.m_objects with count := 0 } }

def exchangeObjectAtIndex (array : SGBaseCArrayWrapper α) (idx1 idx2 : Nat) :
    Except CArrayFault (SGBaseCArrayWrapper α) := do
  array.boundsCheck idx1
  array.boundsCheck idx2
  let tmp ← array.cellAt idx1
  let array ← array.setCellAt idx1 (← array.cellAt idx2)
  array.setCellAt idx2 tmp

def objectEnumerator (array : SGBaseCArrayWrapper α) : SGBaseEnumerator :=
  .initWithPointer array.m_objects.elements array.m_objects.count false

def reverseObjectEnumerator (array : SGBaseCArrayWrapper α) : SGBaseEnumerator :=
  .initWithPointer array.m_objects.elements array.m_objects.count true

-- Runs

/-- Objects may be `nil` and indexes out of bounds. -/
inductive Op (α : Type) where
  | add (anObject : Option α)
  | insert (anObject : Option α) (anIndex : Nat)
  | replace (anIndex : Nat) (anObject : Option α)
  | remove (anIndex : Nat)
  | removeLast
  | removeAll
  | exchange (idx1 idx2 : Nat)

def perform (array : SGBaseCArrayWrapper α) : Op α → Except CArrayFault (SGBaseCArrayWrapper α)
  | .add anObject => array.addObject anObject
  | .insert anObject anIndex => array.insertObject anObject anIndex
  | .replace anIndex anObject => array.replaceObjectAtIndex anIndex anObject
  | .remove anIndex => array.removeObjectAtIndex anIndex
  | .removeLast => array.removeLastObject
  | .removeAll => .ok array.removeAllObjects
  | .exchange idx1 idx2 => array.exchangeObjectAtIndex idx1 idx2

/-- A message that raises an exception leaves the array as it is. -/
def step (array : SGBaseCArrayWrapper α) (op : Op α) : Option (SGBaseCArrayWrapper α) :=
  match array.perform op with
  | .ok array => some array
  | .error .raised => some array
  | .error .broken => none

inductive Start (α : Type) where
  | withCapacity (capacity : Nat)
  | withObjects (objects : List α)

namespace Start

def make : Start α → Except CArrayFault (SGBaseCArrayWrapper α)
  | .withCapacity capacity => initWithCapacity capacity
  | .withObjects objects => initWithObjects objects

def objects : Start α → List α
  | .withCapacity _ => []
  | .withObjects objects => objects

def requested : Start α → Nat
  | .withCapacity capacity => capacity
  | .withObjects objects => objects.length

end Start

def run (start : Start α) (ops : List (Op α)) : Option (SGBaseCArrayWrapper α) :=
  match start.make with
  | .ok array => Run.run step array ops
  | .error _ => none

def Op.onList : List α → Op α → List α
  | objects, .add (some anObject) => objects ++ [anObject]
  | objects, .insert (some anObject) anIndex => objects.insertIdx anIndex anObject
  | objects, .replace anIndex (some anObject) => objects.set anIndex anObject
  | objects, .remove anIndex => objects.eraseIdx anIndex
  | objects, .removeLast => objects.dropLast
  | _, .removeAll => []
  | objects, .exchange idx1 idx2 =>
    match objects[idx1]?, objects[idx2]? with
    | some first, some second => (objects.set idx1 second).set idx2 first
    | _, _ => objects
  | objects, _ => objects

structure Agrees (array : SGBaseCArrayWrapper α) (objects : List α) : Prop where
  count : array.count = objects.length
  contents : ∀ i, array.objectAtIndex i =
    match objects[i]? with
    | some object => .ok (some object)
    | none => .error .raised
  room : array.count ≤ array.m_objects.capacity
  enumerated : array.objectEnumerator.allObjects array.heap (objects.length + 1) = some objects

/-- The reverse enumerator goes through these objects and comes to an end. -/
def EnumeratesBackwards (array : SGBaseCArrayWrapper α) (objects : List α) : Prop :=
  ∃ rounds, array.reverseObjectEnumerator.allObjects array.heap rounds = some objects

def maxObjects : Nat := 2 ^ 29

/-- No object is put behind the last one by an insertion, and there is room for those
that are put in. -/
def Allowed (array : SGBaseCArrayWrapper α) : Op α → Prop
  | .add (some _) => array.count + 2 ≤ maxObjects
  | .insert (some _) anIndex => anIndex ≠ array.count ∧ (anIndex < array.count →
      array.count + 2 ≤ maxObjects)
  | _ => True

end SGBaseCArrayWrapper

-- Room

open SGBaseCArrayWrapper (maxObjects)

namespace SGBaseCArray

section
variable {α : Type} {heap heap' : Heap α} {a a' : SGBaseCArray} {xs : List α} {x : α}
  {n k i p rounds : Nat}

structure Represents (heap : Heap α) (a : SGBaseCArray) (xs : List α) : Prop where
  count : a.count = xs.length
  room : xs.length ≤ a.capacity
  block : a.elements = none ∧ a.capacity = 0 ∨ ∃ p k, a.elements = some p ∧ a.capacity = 2 ^ k ∧
    4 ≤ k ∧ k ≤ 29 ∧
    (heap.block p).length = a.capacity ∧ heap.Holds p (xs.map some)

@[simp] theorem access_some {β : Type} (result : β) : access (some result) = .ok result := rfl

@[simp] theorem access_none {β : Type} : access (none : Option β) = .error .broken := rfl

@[simp] theorem ok_bind {β γ : Type} (result : β) (f : β → Except CArrayFault γ) :
    (Except.ok result >>= f) = f result := rfl

@[simp] theorem error_bind {β γ : Type} (fault : CArrayFault) (f : β → Except CArrayFault γ) :
    (Except.error fault >>= f) = .error fault := rfl

theorem cells_bytes (h : n ≤ maxObjects) : cells (word (n * sizeofPointer)) = n := by
  unfold maxObjects at h
  unfold cells word sizeofPointer
  omega

theorem doubled_eq (hk : k ≤ 29) (hn : n ≤ maxObjects) (hrounds : 29 - k < rounds) :
    ∃ j, doubled n rounds (2 ^ k) = some (2 ^ j) ∧ n ≤ 2 ^ j ∧ k ≤ j ∧ j ≤ 29 := by
  induction rounds generalizing k with
  | zero => omega
  | succ rounds ih =>
    unfold doubled
    split
    · next hlt =>
      have hk' : k < 29 := by
        rcases Nat.lt_or_eq_of_le hk with h | rfl
        · exact h
        · exact absurd hlt (Nat.not_lt.mpr hn)
      have hpow : 2 ^ (k + 1) ≤ 2 ^ 29 := Nat.pow_le_pow_right (by decide) hk'
      have hword : word (2 ^ k * kSGBaseCArrayBacketsGrow) = 2 ^ (k + 1) :=
        Nat.mod_eq_of_lt (Nat.lt_of_le_of_lt hpow (by decide))
      obtain ⟨j, heq, hle, hkj, hj⟩ := ih hk' (by omega)
      exact ⟨j, hword ▸ heq, hle, Nat.le_of_succ_le hkj, hj⟩
    · next hge => exact ⟨k, rfl, Nat.not_lt.mp hge, Nat.le_refl k, hk⟩

theorem doubled_zero (hn : 0 < n) : doubled n rounds 0 = none := by
  induction rounds with
  | zero => rfl
  | succ rounds ih => simpa [doubled, hn, word] using ih

theorem cells_doubled {r : Nat} (hn : maxObjects < n) (hk : k ≤ 31)
    (h : doubled n rounds (2 ^ k) = some r) :
    cells (word (r * sizeofPointer)) = 0 := by
  induction rounds generalizing k with
  | zero => simp [doubled] at h
  | succ rounds ih =>
    unfold doubled at h
    split at h
    · rcases Nat.lt_or_eq_of_le hk with hlt | rfl
      · have hpow : 2 ^ (k + 1) ≤ 2 ^ 31 := Nat.pow_le_pow_right (by decide) hlt
        have hword : word (2 ^ k * kSGBaseCArrayBacketsGrow) = 2 ^ (k + 1) :=
          Nat.mod_eq_of_lt (Nat.lt_of_le_of_lt hpow (by decide))
        exact ih hlt (hword ▸ h)
      · have hword : word (2 ^ 31 * kSGBaseCArrayBacketsGrow) = 0 := by decide
        rw [hword, doubled_zero (Nat.zero_lt_of_lt hn)] at h
        contradiction
    · next hge =>
      obtain rfl := Option.some.inj h
      have hlarge : ¬k ≤ 29 := fun hsmall =>
        absurd (Nat.pow_le_pow_right (show 0 < 2 by decide) hsmall)
          (by unfold maxObjects at hn; omega)
      obtain rfl | rfl : k = 30 ∨ k = 31 := by omega
      · decide
      · decide

theorem Represents.capacity_eq (h : Represents heap a xs) :
    ∃ k, (if a.capacity = 0 then kSGBaseCArrayBacketsInitSize else a.capacity) = 2 ^ k ∧
      4 ≤ k ∧ k ≤ 29 := by
  rcases h.block with ⟨-, hzero⟩ | ⟨p, k, -, hk, hle, hle', -⟩
  · exact ⟨4, by simp [hzero, kSGBaseCArrayBacketsInitSize], by decide, by decide⟩
  · exact ⟨k, by simp [hk], hle, hle'⟩

theorem reserve_spec (h : Represents heap a xs) (hn : n ≤ maxObjects) :
    ∃ a' heap', SGBaseCArrayReserve heap a n = .ok (a', heap') ∧ Represents heap' a' xs ∧
      n ≤ a'.capacity := by
  unfold SGBaseCArrayReserve
  split
  · next hle => exact ⟨a, heap, rfl, h, hle⟩
  · next hlt =>
    obtain ⟨k, hcapacity, hk, hk'⟩ := h.capacity_eq
    obtain ⟨j, hdoubled, hnj, hkj, hj⟩ := doubled_eq hk' hn (show 29 - k < 33 by omega)
    have hpow : 2 ^ j ≤ maxObjects := Nat.pow_le_pow_right (by decide) hj
    have hcells := cells_bytes hpow
    have hroom : xs.length ≤ 2 ^ j := by
      have := h.room
      omega
    simp only [SGBaseCArrayNewCapacityFor_, hcapacity, hdoubled, access_some, ok_bind, hcells]
    rcases h.block with ⟨hnone, hzero⟩ | ⟨p, k', hp, -, -, -, -, hholds⟩
    · obtain rfl : xs = [] := List.eq_nil_of_length_eq_zero (by have := h.room; omega)
      have hcount : a.count = 0 := h.count
      have hwrite : (heap.malloc (2 ^ j)).write heap.next 0 none = some _ :=
        Memory.write_eq_some.mpr ⟨Nat.lt_of_lt_of_eq (Nat.two_pow_pos j) (by simp), rfl⟩
      simp only [hnone, hcount, if_true, hwrite, access_some, ok_bind]
      refine ⟨_, _, rfl, ⟨rfl, Nat.zero_le _, .inr ⟨heap.next, j, rfl, rfl, by omega, hj, ?_, ?_⟩⟩,
        hnj⟩
      · simp
      · exact Memory.holds_nil
    · simp only [hp]
      refine ⟨_, _, rfl, ⟨h.count, hroom, .inr ⟨heap.next, j, rfl, rfl, by omega, hj, ?_, ?_⟩⟩, hnj⟩
      · simp
      · exact hholds.realloc (by simpa using hroom)

theorem reserve_large (h : Represents heap a xs) (hn : maxObjects < n) :
    SGBaseCArrayReserve heap a n = .error .broken ∨ a.elements ≠ none ∧ ∃ a' heap' p,
      SGBaseCArrayReserve heap a n = .ok (a', heap') ∧ a'.elements = some p ∧
      heap'.block p = [] := by
  obtain ⟨k, hcapacity, -, hk⟩ := h.capacity_eq
  have hlt : ¬n ≤ a.capacity := by
    rcases h.block with ⟨-, hzero⟩ | ⟨p, k, -, hpow, -, hk, -⟩
    · omega
    · have hle : 2 ^ k ≤ maxObjects := Nat.pow_le_pow_right (by decide) hk
      omega
  simp only [SGBaseCArrayReserve, if_neg hlt, SGBaseCArrayNewCapacityFor_, hcapacity]
  cases hdoubled : doubled n 33 (2 ^ k) with
  | none => exact .inl rfl
  | some r =>
    have hcells := cells_doubled hn (by omega) hdoubled
    simp only [access_some, ok_bind, hcells]
    rcases h.block with ⟨hnone, hzero⟩ | ⟨p, -, hp, -⟩
    · have hcount : a.count = 0 := by
        have := h.count
        have := h.room
        omega
      have hwrite : (heap.malloc 0).write heap.next 0 none = none :=
        Memory.write_eq_none.mpr (by simp)
      exact .inl (by simp [hnone, hcount, hwrite])
    · simp only [hp]
      exact .inr ⟨nofun, _, _, heap.next, rfl, rfl, by simp⟩

-- The C functions

theorem Represents.allocated (h : Represents heap a xs) (hpos : 0 < a.capacity) :
    ∃ p, a.elements = some p ∧ (heap.block p).length = a.capacity ∧ heap.Holds p (xs.map some) := by
  rcases h.block with ⟨-, hzero⟩ | ⟨p, k, hp, -, -, -, hlength, hholds⟩
  · omega
  · exact ⟨p, hp, hlength, hholds⟩

theorem Represents.change {ys : List α} (h : Represents heap a xs) (hp : a.elements = some p)
    (hroom : ys.length ≤ a.capacity) (hlength : (heap'.block p).length = (heap.block p).length)
    (hholds : heap'.Holds p (ys.map some)) : Represents heap' { a with count := ys.length } ys := by
  refine ⟨rfl, hroom, .inr ?_⟩
  rcases h.block with ⟨hnone, -⟩ | ⟨q, k, hq, hk, hle, hle', hblock, -⟩
  · simp [hnone] at hp
  · obtain rfl : p = q := Option.some.inj (hp.symm.trans hq)
    exact ⟨p, k, hp, hk, hle, hle', hlength.trans hblock, hholds⟩

theorem append_spec (h : Represents heap a xs) (hroom : xs.length + 2 ≤ maxObjects) :
    ∃ a' heap', SGBaseCArrayAppendValue heap a (some x) = .ok (a', heap') ∧
      Represents heap' a' (xs ++ [x]) := by
  obtain ⟨a₁, heap₁, hreserve, h₁, hle⟩ := reserve_spec h hroom
  obtain ⟨p, hp, hlength, hholds⟩ := h₁.allocated (by omega)
  -- the object, and `NULL` behind it
  obtain ⟨heap₂, hwrite, hlength₂, hholds₂⟩ := hholds.write_append (x := some x) (by simp; omega)
  obtain ⟨heap₃, hterminate, hlength₃, hholds₃⟩ :=
    hholds₂.write_behind (i := xs.length + 1) (x := none) (by simp) (by omega)
  rw [List.length_map] at hwrite
  refine ⟨_, heap₃, ?_, h₁.change hp ?_ (hlength₃.trans hlength₂) (by simpa using hholds₃)⟩
  · unfold SGBaseCArrayAppendValue
    simp only [h.count, hreserve, ok_bind, hp, access_some, hwrite, hterminate, List.length_append,
      List.length_singleton]
  · rw [List.length_append, List.length_singleton]
    omega

theorem append_broken (h : Represents heap a xs) (hroom : ¬xs.length + 2 ≤ maxObjects) :
    SGBaseCArrayAppendValue heap a (some x) = .error .broken := by
  unfold SGBaseCArrayAppendValue
  rw [h.count]
  rcases reserve_large h (Nat.not_le.mp hroom) with hbroken
    | ⟨-, a', heap', p, hreserve, hp, hblock⟩
  · simp only [hbroken, error_bind]
  · have hwrite : heap'.write p xs.length (some x) = none :=
      Memory.write_eq_none.mpr (by simp [hblock])
    simp only [hreserve, ok_bind, hp, access_some, hwrite, access_none, error_bind]

theorem insert_spec (h : Represents heap a xs) (hi : i < xs.length)
    (hroom : xs.length + 2 ≤ maxObjects) :
    ∃ a' heap', SGBaseCArrayInsertValueAtIndex heap a (some x) i = .ok (a', heap') ∧
      Represents heap' a' (xs.insertIdx i x) := by
  obtain ⟨a₁, heap₁, hreserve, h₁, hle⟩ := reserve_spec h hroom
  obtain ⟨p, hp, hlength, hholds⟩ := h₁.allocated (by omega)
  have hcount : (xs.insertIdx i x).length = xs.length + 1 :=
    List.length_insertIdx_of_le_length (Nat.le_of_lt hi) x
  obtain ⟨heap₂, heap₃, hshift, hwrite, hlength₃, hholds₃⟩ :=
    hholds.insert (i := i) (x := some x) (by simp; omega) (by simp; omega)
  rw [← List.map_insertIdx] at hholds₃
  obtain ⟨heap₄, hterminate, hlength₄, hholds₄⟩ :=
    hholds₃.write_behind (i := xs.length + 1) (x := none) (by simp [hcount]) (by omega)
  rw [List.length_map] at hshift
  have hbytes : cells (word ((xs.length - i) * sizeofPointer)) = xs.length - i :=
    cells_bytes (by omega)
  refine ⟨_, heap₄, ?_, h₁.change hp (by omega) (hlength₄.trans hlength₃) hholds₄⟩
  unfold SGBaseCArrayInsertValueAtIndex
  simp only [h.count, if_neg (Nat.ne_of_gt hi), if_pos hi, hreserve, ok_bind, hp, access_some,
    hbytes, hshift, hwrite, hterminate, hcount]

theorem insert_broken (h : Represents heap a xs) (hi : i < xs.length)
    (hroom : ¬xs.length + 2 ≤ maxObjects) :
    SGBaseCArrayInsertValueAtIndex heap a (some x) i = .error .broken := by
  unfold SGBaseCArrayInsertValueAtIndex
  simp only [h.count, if_neg (Nat.ne_of_gt hi), if_pos hi]
  rcases reserve_large h (Nat.not_le.mp hroom) with hbroken
    | ⟨-, a', heap', p, hreserve, hp, hblock⟩
  · simp only [hbroken, error_bind]
  · have hshift : ∀ n, heap'.shift p (i + 1) i n = none := fun n => if_neg (by simp [hblock])
    simp only [hreserve, ok_bind, hp, access_some, hshift, access_none, error_bind]

theorem Represents.block_of_lt (h : Represents heap a xs) (hi : i < xs.length) :
    ∃ p, a.elements = some p ∧ (heap.block p).length = a.capacity ∧ heap.Holds p (xs.map some) := by
  have hroom := h.room
  exact h.allocated (by omega)

theorem remove_spec (h : Represents heap a xs) (hi : i < xs.length)
    (hcount : xs.length ≤ maxObjects) :
    ∃ a' heap', SGBaseCArrayRemoveValueAtIndex heap a i = .ok (a', heap') ∧
      Represents heap' a' (xs.eraseIdx i) := by
  obtain ⟨p, hp, hlength, hholds⟩ := h.block_of_lt hi
  have hroom := h.room
  have hlast : (xs.eraseIdx i).length = xs.length - 1 := List.length_eraseIdx_of_lt hi
  have hbytes : cells (word ((xs.length - (i + 1)) * sizeofPointer)) = xs.length - (i + 1) :=
    cells_bytes (by omega)
  -- nothing moves where the last object is removed
  obtain ⟨heap₁, hmove, hlength₁, hholds₁⟩ : ∃ heap₁, (if 0 < xs.length - (i + 1) then
      heap.shift p i (i + 1) (xs.length - (i + 1)) else some heap) = some heap₁ ∧
      (heap₁.block p).length = (heap.block p).length ∧
      heap₁.Holds p ((xs.eraseIdx i).map some) := by
    split
    · obtain ⟨heap₁, hshift, hlength₁, hholds₁⟩ := hholds.erase (i := i) (by simpa using hi)
      rw [List.length_map] at hshift
      exact ⟨heap₁, hshift, hlength₁, by rwa [List.eraseIdx_map] at hholds₁⟩
    · obtain rfl : i = xs.length - 1 := by omega
      refine ⟨heap, rfl, rfl, ?_⟩
      rw [List.eraseIdx_length_sub_one, List.map_dropLast]
      exact hholds.dropLast
  obtain ⟨heap₂, hterminate, hlength₂, hholds₂⟩ :=
    hholds₁.write_behind (i := xs.length - 1) (x := none) (by simp [hlast]) (by omega)
  refine ⟨_, heap₂, ?_, h.change hp (by omega) (hlength₂.trans hlength₁) hholds₂⟩
  unfold SGBaseCArrayRemoveValueAtIndex
  simp only [h.count, if_pos hi, hp, access_some, ok_bind, hbytes, hmove, hterminate, hlast]

theorem removeLast_spec (h : Represents heap a xs) (hne : xs ≠ []) :
    ∃ a' heap', SGBaseCArrayRemoveLastValue heap a = .ok (a', heap') ∧
      Represents heap' a' xs.dropLast := by
  have hpos : 0 < xs.length := List.length_pos_of_ne_nil hne
  obtain ⟨p, hp, hlength, hholds⟩ := h.block_of_lt hpos
  have hroom := h.room
  have hdropped := hholds.dropLast
  rw [← List.map_dropLast] at hdropped
  obtain ⟨heap₁, hterminate, hlength₁, hholds₁⟩ :=
    hdropped.write_behind (i := xs.length - 1) (x := none) (by simp) (by omega)
  refine ⟨_, heap₁, ?_, h.change hp (by simp; omega) hlength₁ hholds₁⟩
  unfold SGBaseCArrayRemoveLastValue
  simp only [h.count, if_neg (Nat.ne_of_gt hpos), hp, access_some, ok_bind, hterminate,
    List.length_dropLast]

theorem Represents.length_le (h : Represents heap a xs) : xs.length ≤ maxObjects := by
  have hroom := h.room
  rcases h.block with ⟨-, hzero⟩ | ⟨p, k, -, hk, -, hle, -⟩
  · exact Nat.le_trans hroom (by simp [hzero])
  · exact Nat.le_trans hroom (hk ▸ Nat.pow_le_pow_right (by decide) hle)

theorem Represents.clear (h : Represents heap a xs) : Represents heap { a with count := 0 } [] := by
  refine ⟨rfl, Nat.zero_le _, h.block.imp_right ?_⟩
  rintro ⟨p, k, hp, hk, hle, hle', hlength, -⟩
  exact ⟨p, k, hp, hk, hle, hle', hlength, Memory.holds_nil⟩

theorem Represents.read (h : Represents heap a xs) (hi : i < xs.length) :
    a.elements.bind (heap.read · i) = some xs[i]? := by
  obtain ⟨p, hp, -, hholds⟩ := h.block_of_lt hi
  simp [hp, hholds.read (show i < (xs.map some).length by simpa using hi), hi]

theorem Represents.read_none (h : Represents heap a xs) (hi : maxObjects ≤ i) :
    a.elements.bind (heap.read · i) = none := by
  rcases h.block with ⟨hnone, -⟩ | ⟨p, k, hp, hk, -, hle, hlength, -⟩
  · simp [hnone]
  · have hpow : 2 ^ k ≤ maxObjects := Nat.pow_le_pow_right (by decide) hle
    simp [hp, Memory.read, List.getElem?_eq_none (show (heap.block p).length ≤ i by omega)]

end

end SGBaseCArray

-- The messages

namespace SGBaseCArrayWrapper

section
variable {α : Type} {array array' : SGBaseCArrayWrapper α} {xs ys : List α} {x : α}
  {i j : Nat} {op : Op α}

def Represents (array : SGBaseCArrayWrapper α) (xs : List α) : Prop :=
  SGBaseCArray.Represents array.heap array.m_objects xs

theorem Represents.boundsCheck_eq (h : Represents array xs) :
    array.boundsCheck i = if i < xs.length then .ok () else .error .raised := by
  rw [boundsCheck, h.count]

theorem Represents.cellAt_eq (h : Represents array xs) (hi : i < xs.length) :
    array.cellAt i = .ok xs[i]? := by
  rw [cellAt, h.read hi, access_some]

theorem setCellAt_spec (h : Represents array xs) (hi : i < xs.length) :
    ∃ array', array.setCellAt i (some x) = .ok array' ∧ Represents array' (xs.set i x) := by
  obtain ⟨p, hp, -, hholds⟩ := h.block_of_lt hi
  obtain ⟨heap', hwrite, hlength, hholds'⟩ := hholds.write_set (x := some x) (by simpa using hi)
  have hroom : (xs.set i x).length ≤ array.m_objects.capacity := by simpa using h.room
  have hchange := h.change hp hroom hlength (by simpa using hholds')
  rw [List.length_set, ← h.count] at hchange
  refine ⟨{ array with heap := heap' }, ?_, hchange⟩
  simp only [setCellAt, hp, Option.bind_some, hwrite, access_some, ok_bind]

theorem onObjects_spec {ys : List α}
    {f : Heap α → SGBaseCArray → Except CArrayFault (SGBaseCArray × Heap α)}
    (h : ∃ a' heap', f array.heap array.m_objects = .ok (a', heap') ∧
      SGBaseCArray.Represents heap' a' ys) :
    ∃ array', array.onObjects f = .ok array' ∧ Represents array' ys := by
  obtain ⟨a', heap', hf, hrepresents⟩ := h
  exact ⟨⟨a', heap'⟩, by simp [onObjects, hf], hrepresents⟩

theorem step_of_ok (h : ∃ array', array.perform op = .ok array' ∧
    Represents array' (op.onList xs)) :
    ∃ array', array.step op = some array' ∧ Represents array' (op.onList xs) := by
  obtain ⟨array', hperform, hrepresents⟩ := h
  exact ⟨array', by simp [step, hperform], hrepresents⟩

theorem step_of_raised (h : Represents array xs) (hperform : array.perform op = .error .raised)
    (hlist : op.onList xs = xs) : ∃ array', array.step op = some array' ∧
      Represents array' (op.onList xs) :=
  ⟨array, by simp [step, hperform], by rwa [hlist]⟩

theorem step_insert (h : Represents array xs) (hallowed : Allowed array (.insert (some x) i)) :
    ∃ array', array.step (.insert (some x) i) = some array' ∧
      Represents array' (xs.insertIdx i x) := by
  obtain ⟨hne, hroom⟩ := hallowed
  simp only [count, h.count] at hne hroom
  rcases Nat.lt_or_gt_of_ne hne with hlt | hgt
  · refine step_of_ok ?_
    simp only [perform, insertObject, nullCheck, h.boundsCheck_eq, Option.isSome_some,
      if_true, ok_bind, if_pos hlt]
    exact onObjects_spec (insert_spec h hlt (hroom hlt))
  · refine step_of_raised h ?_ (List.insertIdx_of_length_lt hgt)
    simp [perform, insertObject, nullCheck, h.boundsCheck_eq, Nat.not_lt.mpr (Nat.le_of_lt hgt)]

theorem step_replace (h : Represents array xs) :
    ∃ array', array.step (.replace i (some x)) = some array' ∧ Represents array' (xs.set i x) := by
  by_cases hi : i < xs.length
  · refine step_of_ok ?_
    simp only [perform, replaceObjectAtIndex, nullCheck, h.boundsCheck_eq, if_pos hi, ok_bind,
      Option.isSome_some, if_true]
    exact setCellAt_spec h hi
  · refine step_of_raised h ?_ (List.set_eq_of_length_le (Nat.not_lt.mp hi))
    simp [perform, replaceObjectAtIndex, h.boundsCheck_eq, hi]

theorem step_remove (h : Represents array xs) :
    ∃ array', array.step (.remove i) = some array' ∧ Represents array' (xs.eraseIdx i) := by
  by_cases hi : i < xs.length
  · refine step_of_ok ?_
    simp only [perform, removeObjectAtIndex, h.boundsCheck_eq, if_pos hi, ok_bind]
    exact onObjects_spec (remove_spec h hi h.length_le)
  · refine step_of_raised h ?_ (List.eraseIdx_of_length_le (Nat.not_lt.mp hi))
    simp [perform, removeObjectAtIndex, h.boundsCheck_eq, hi]

theorem step_removeLast (h : Represents array xs) :
    ∃ array', array.step .removeLast = some array' ∧ Represents array' xs.dropLast := by
  refine step_of_ok ?_
  simp only [perform, removeLastObject, h.count]
  by_cases hempty : xs = []
  · exact ⟨array, by simp [hempty], hempty ▸ h⟩
  · simp only [ne_eq, List.length_eq_zero_iff, hempty, not_false_eq_true, if_true]
    exact onObjects_spec (removeLast_spec h hempty)

theorem step_exchange (h : Represents array xs) :
    ∃ array', array.step (.exchange i j) = some array' ∧
      Represents array' (Op.onList xs (.exchange i j)) := by
  by_cases hin : i < xs.length ∧ j < xs.length
  · obtain ⟨hi, hj⟩ := hin
    obtain ⟨array₁, hfirst, h₁⟩ := setCellAt_spec (x := xs[j]) h hi
    obtain ⟨array₂, hsecond, h₂⟩ := setCellAt_spec (i := j) (x := xs[i]) h₁ (by simpa using hj)
    refine step_of_ok ⟨array₂, ?_, ?_⟩
    · simp only [perform, exchangeObjectAtIndex, h.boundsCheck_eq, if_pos hi, if_pos hj,
        ok_bind, h.cellAt_eq hi,
        h.cellAt_eq hj, List.getElem?_eq_getElem hi, List.getElem?_eq_getElem hj, hfirst, hsecond]
    · simpa [Op.onList, hi, hj] using h₂
  · refine step_of_raised h ?_ ?_
    · by_cases hi : i < xs.length
      · have hj : ¬j < xs.length := fun hj => hin ⟨hi, hj⟩
        simp [perform, exchangeObjectAtIndex, h.boundsCheck_eq, hi, hj]
      · simp [perform, exchangeObjectAtIndex, h.boundsCheck_eq, hi]
    · simp only [Op.onList]
      split
      · next hi hj =>
        exact absurd ⟨(List.getElem?_eq_some_iff.mp hi).1, (List.getElem?_eq_some_iff.mp hj).1⟩ hin
      · rfl

theorem step_spec (h : Represents array xs) (hallowed : Allowed array op) :
    ∃ array', array.step op = some array' ∧ Represents array' (op.onList xs) := by
  cases op with
  | add anObject =>
    cases anObject with
    | none => exact step_of_raised h rfl rfl
    | some x =>
      simp only [Allowed, count, h.count] at hallowed
      refine step_of_ok ?_
      simp only [perform, addObject, nullCheck, Option.isSome_some, if_true, ok_bind]
      exact onObjects_spec (append_spec h hallowed)
  | insert anObject anIndex =>
    cases anObject with
    | none => exact step_of_raised h rfl rfl
    | some x => exact step_insert h hallowed
  | replace anIndex anObject =>
    cases anObject with
    | none =>
      refine step_of_raised h ?_ rfl
      simp only [perform, replaceObjectAtIndex, h.boundsCheck_eq]
      split
      · rfl
      · rfl
    | some x => exact step_replace h
  | remove anIndex => exact step_remove h
  | removeLast => exact step_removeLast h
  | removeAll => exact step_of_ok ⟨_, rfl, h.clear⟩
  | exchange idx1 idx2 => exact step_exchange h

/-- An operation that is not allowed ends the program, or is the insertion behind the
last object, which raises an exception. -/
theorem step_of_not_allowed (h : Represents array xs) (hallowed : ¬Allowed array op) :
    array.step op = none ∨ array.step op = some array ∧ (op.onList xs).length ≠ xs.length := by
  match op, hallowed with
  | .add none, hallowed => exact absurd trivial hallowed
  | .add (some x), hallowed =>
    simp only [Allowed, count, h.count] at hallowed
    left
    simp [step, perform, addObject, nullCheck, onObjects, append_broken h hallowed]
  | .insert none anIndex, hallowed => exact absurd trivial hallowed
  | .insert (some x) anIndex, hallowed =>
    simp only [Allowed, count, h.count, not_and_or, not_not, Classical.not_imp] at hallowed
    rcases hallowed with rfl | ⟨hlt, hroom⟩
    · right
      refine ⟨?_, by simp [Op.onList]⟩
      simp [step, perform, insertObject, nullCheck, h.boundsCheck_eq]
    · left
      simp [step, perform, insertObject, nullCheck, h.boundsCheck_eq, hlt, onObjects,
        insert_broken h hlt hroom]
  | .replace _ _, hallowed => exact absurd trivial hallowed
  | .remove _, hallowed => exact absurd trivial hallowed
  | .removeLast, hallowed => exact absurd trivial hallowed
  | .removeAll, hallowed => exact absurd trivial hallowed
  | .exchange _ _, hallowed => exact absurd trivial hallowed

-- Enumerators

theorem allObjects_forward (h : Represents array xs) {n i rounds : Nat} (hi : i + n = xs.length)
    (hrounds : n < rounds) :
    SGBaseEnumerator.allObjects array.heap rounds ⟨array.m_objects.elements,
      array.m_objects.count, i, false⟩ =
      some (xs.drop i) := by
  induction rounds generalizing n i with
  | zero => omega
  | succ rounds ih =>
    have hcount : array.m_objects.count = xs.length := h.count
    simp only [SGBaseEnumerator.allObjects, SGBaseEnumerator.nextObject, Bool.false_eq_true,
      if_false, hcount]
    cases n with
    | zero =>
      obtain rfl : i = xs.length := by omega
      simp
    | succ n =>
      have hlt : i < xs.length := by omega
      have hrest := ih (n := n) (i := i + 1) (by omega) (by omega)
      rw [hcount] at hrest
      simp only [if_neg (Nat.ne_of_gt hlt), h.read hlt, List.getElem?_eq_getElem hlt, access_some,
        ok_bind, hrest, Option.map_some, List.drop_eq_getElem_cons hlt]

theorem nextObject_reverse (h : Represents array xs) (hi : i < xs.length) :
    SGBaseEnumerator.nextObject array.heap ⟨array.m_objects.elements, array.m_objects.count,
      i + 1, true⟩ =
      .ok (xs[i]?, ⟨array.m_objects.elements, array.m_objects.count, i, true⟩) := by
  have hfound : i ≠ NSNotFound := by
    have hle := h.length_le
    unfold maxObjects at hle
    unfold NSNotFound
    omega
  have hindex : (if i + 1 = 0 then NSNotFound else i + 1 - 1) = i := if_neg (Nat.succ_ne_zero i)
  unfold SGBaseEnumerator.nextObject
  rw [if_pos rfl, hindex, if_neg hfound, h.read hi]
  rfl

/-- From an index on the objects below it are enumerated, down to the first one. -/
theorem allObjects_reverse (h : Represents array xs) {i rounds : Nat} (hi : i < xs.length) :
    SGBaseEnumerator.allObjects array.heap rounds ⟨array.m_objects.elements,
      array.m_objects.count, i, true⟩ =
      if i < rounds then some (xs.take i).reverse else none := by
  induction rounds generalizing i with
  | zero => rfl
  | succ rounds ih =>
    cases i with
    | zero =>
      rw [SGBaseEnumerator.allObjects, SGBaseEnumerator.nextObject, if_pos rfl, if_pos rfl,
        if_pos rfl, if_pos (Nat.zero_lt_succ rounds), List.take_zero, List.reverse_nil]
    | succ i =>
      have hlt : i < xs.length := by omega
      rw [SGBaseEnumerator.allObjects, nextObject_reverse h hlt, List.getElem?_eq_getElem hlt]
      simp only [ih hlt, Nat.add_lt_add_iff_right]
      split
      · rw [List.take_add_one, List.getElem?_eq_getElem hlt, Option.toList_some,
          List.reverse_append, List.reverse_singleton, List.singleton_append, Option.map_some]
      · rfl

theorem allObjects_empty (h : Represents array xs) (rounds : Nat) :
    SGBaseEnumerator.allObjects array.heap rounds
      ⟨array.m_objects.elements, array.m_objects.count, 2 ^ 32 - 1, true⟩ = none := by
  have hread := h.read_none (show maxObjects ≤ 2 ^ 32 - 1 - 1 by decide)
  cases rounds with
  | zero => rfl
  | succ rounds =>
    rw [SGBaseEnumerator.allObjects, SGBaseEnumerator.nextObject, if_pos rfl,
      if_neg (show 2 ^ 32 - 1 ≠ 0 by decide),
      if_neg (show 2 ^ 32 - 1 - 1 ≠ NSNotFound by decide), hread]
    rfl

/-- The reverse enumerator passes over the last object, and goes wrong where there is
none. -/
theorem reverseObjectEnumerator_eq (h : Represents array xs) (rounds : Nat) :
    array.reverseObjectEnumerator.allObjects array.heap rounds =
      if xs ≠ [] ∧ xs.length ≤ rounds then some xs.dropLast.reverse else none := by
  have hle := h.length_le
  unfold maxObjects at hle
  rw [reverseObjectEnumerator, SGBaseEnumerator.initWithPointer, if_pos rfl]
  by_cases hempty : xs = []
  · have hcount : array.m_objects.count = 0 := by rw [h.count, hempty, List.length_nil]
    have hindex : word (array.m_objects.count + (2 ^ 32 - 1)) = 2 ^ 32 - 1 := by
      rw [hcount]
      decide
    rw [hindex, allObjects_empty h, if_neg fun hne => hne.1 hempty]
  · have hpos := List.length_pos_of_ne_nil hempty
    have hindex : word (array.m_objects.count + (2 ^ 32 - 1)) = xs.length - 1 := by
      rw [h.count, word]
      omega
    have hrounds : xs ≠ [] ∧ xs.length ≤ rounds ↔ xs.length - 1 < rounds := by
      simp only [ne_eq, hempty, not_false_eq_true, true_and]
      omega
    rw [hindex, allObjects_reverse h (by omega), List.dropLast_eq_take]
    simp only [hrounds]

theorem Represents.agrees (h : Represents array xs) : Agrees array xs where
  count := h.count
  contents i := by
    unfold objectAtIndex
    rw [h.boundsCheck_eq]
    by_cases hi : i < xs.length
    · simp [hi, h.cellAt_eq hi]
    · simp [hi]
  room := by
    rw [count, h.count]
    exact h.room
  enumerated := by
    rw [objectEnumerator, SGBaseEnumerator.initWithPointer]
    exact allObjects_forward h (Nat.zero_add _) (Nat.lt_succ_self _)

-- Whole runs

theorem Agrees.eq_of_represents (h : Agrees array ys) (hrepresents : Represents array xs) :
    xs = ys := by
  refine List.ext_getElem? fun i => ?_
  have hread := (hrepresents.agrees.contents i).symm.trans (h.contents i)
  revert hread
  rcases xs[i]? with _ | x
  all_goals rcases ys[i]? with _ | y
  all_goals simp

theorem represents_init : SGBaseCArray.Represents (.empty : Heap α) SGBaseCArrayInit [] :=
  ⟨rfl, Nat.le_refl _, .inl ⟨rfl, rfl⟩⟩

theorem initWithCapacity_spec {capacity : Nat} (h : capacity ≤ maxObjects) :
    ∃ array : SGBaseCArrayWrapper α, initWithCapacity capacity = .ok array ∧ Represents array [] ∧
      capacity ≤ array.m_objects.capacity := by
  obtain ⟨a, heap, hreserve, hrepresents, hle⟩ := reserve_spec represents_init h
  exact ⟨⟨a, heap⟩, by simp [initWithCapacity, hreserve], hrepresents, hle⟩

theorem make_spec {start : Start α} (h : start.requested ≤ maxObjects) :
    ∃ array, start.make = .ok array ∧ Represents array start.objects := by
  obtain ⟨array, hmake, hrepresents, hle⟩ := initWithCapacity_spec h
  cases start with
  | withCapacity capacity => exact ⟨array, hmake, hrepresents⟩
  | withObjects objects =>
    simp only [Start.make, Start.objects, initWithObjects]
    simp only [Start.requested] at h hmake hle
    rw [hmake]
    by_cases hempty : objects.length = 0
    · obtain rfl := List.eq_nil_of_length_eq_zero hempty
      exact ⟨array, rfl, hrepresents⟩
    · obtain ⟨p, hp, hlength, -⟩ := hrepresents.allocated (by omega)
      have hroom : (objects.map some).length ≤ (array.heap.block p).length := by
        rw [List.length_map]
        omega
      obtain ⟨heap', hload, hlength', hholds⟩ := Memory.holds_load hroom
      refine ⟨⟨_, heap'⟩, ?_, hrepresents.change hp hle hlength' hholds⟩
      simp only [ok_bind, if_neg hempty, hp, access_some, cells_bytes h, List.take_length, hload]

theorem make_error {start : Start α} (h : ¬start.requested ≤ maxObjects) :
    start.make = .error .broken := by
  have hcapacity : initWithCapacity (α := α) start.requested = .error .broken := by
    rcases reserve_large (represents_init (α := α)) (Nat.not_le.mp h) with hbroken | ⟨hne, -⟩
    · simp [initWithCapacity, hbroken]
    · exact absurd rfl hne
  cases start with
  | withCapacity capacity => exact hcapacity
  | withObjects objects =>
    simp only [Start.requested] at hcapacity
    simp [Start.make, initWithObjects, hcapacity]

theorem step_represents (h : ∃ xs, Represents array xs) (hstep : array.step op = some array') :
    ∃ xs, Represents array' xs := by
  obtain ⟨xs, h⟩ := h
  by_cases hallowed : Allowed array op
  · obtain ⟨array₁, hstep₁, h₁⟩ := step_spec h hallowed
    obtain rfl := Option.some.inj (hstep₁.symm.trans hstep)
    exact ⟨_, h₁⟩
  · rcases step_of_not_allowed h hallowed with hnone | ⟨hsame, -⟩
    · simp [hnone] at hstep
    · obtain rfl := Option.some.inj (hsame.symm.trans hstep)
      exact ⟨xs, h⟩

theorem step_agrees_iff (h : ∃ xs, Represents array xs) (hagrees : Agrees array ys) :
    (∃ array', array.step op = some array' ∧ Agrees array' (op.onList ys)) ↔ Allowed array op := by
  obtain ⟨xs, h⟩ := h
  obtain rfl := hagrees.eq_of_represents h
  constructor
  · rintro ⟨array', hstep, hagrees'⟩
    by_contra hallowed
    rcases step_of_not_allowed h hallowed with hnone | ⟨hsame, hlength⟩
    · simp [hnone] at hstep
    · obtain rfl := Option.some.inj (hsame.symm.trans hstep)
      exact hlength (hagrees'.count.symm.trans h.count)
  · intro hallowed
    obtain ⟨array', hstep, h'⟩ := step_spec h hallowed
    exact ⟨array', hstep, h'.agrees⟩

theorem Represents.backwards (h : Represents array xs) :
    ¬EnumeratesBackwards array xs.reverse ∧
      (xs ≠ [] → EnumeratesBackwards array xs.dropLast.reverse) := by
  constructor
  · rintro ⟨rounds, henumerated⟩
    rw [reverseObjectEnumerator_eq h] at henumerated
    split at henumerated
    · next hne =>
      have hlength := congrArg List.length (Option.some.inj henumerated)
      have hpos := List.length_pos_of_ne_nil hne.1
      simp only [List.length_reverse, List.length_dropLast] at hlength
      omega
    · contradiction
  · intro hne
    exact ⟨xs.length, by rw [reverseObjectEnumerator_eq h, if_pos ⟨hne, Nat.le_refl _⟩]⟩

/-- Every state of a run shows the list just where no object is inserted behind the last
one, and there is room. The reverse enumerator never goes through the list. -/
theorem operations_agree_iff (start : Start α) (ops : List (Op α)) :
    ((∀ pre, pre <+: ops → ∃ array, run start pre = some array ∧
        Agrees array (pre.foldl Op.onList start.objects)) ↔
      start.requested ≤ maxObjects ∧ ∀ array, start.make = .ok array →
        Run.Guarded step Allowed array ops) ∧
    ∀ array, run start ops = some array → ∃ objects, Agrees array objects ∧
      ¬EnumeratesBackwards array objects.reverse ∧
      (objects ≠ [] → EnumeratesBackwards array objects.dropLast.reverse) := by
  by_cases hrequested : start.requested ≤ maxObjects
  · obtain ⟨array, hmake, h⟩ := make_spec hrequested
    simp only [run, hmake, hrequested, true_and, Except.ok.injEq, forall_eq']
    constructor
    · have hinv : ∀ {array array' : SGBaseCArrayWrapper α} {op}, (∃ xs, Represents array xs) →
          array.step op = some array' → ∃ xs, Represents array' xs := step_represents
      exact Run.follows_partial_iff (fun (_ : True) h hstep => hinv h hstep) (fun _ h hagrees =>
        step_agrees_iff h hagrees)
        (fun _ _ => trivial) ⟨_, h⟩ h.agrees
    · intro array' hrun
      obtain ⟨xs, h'⟩ := Run.run_invariant (I := fun array =>
        ∃ xs, Represents array xs) step_represents hrun ⟨_, h⟩
      exact ⟨xs, h'.agrees, h'.backwards⟩
  · have hmake := make_error hrequested
    simp only [run, hmake, hrequested, false_and, iff_false]
    refine ⟨fun hprefixes => ?_, nofun⟩
    obtain ⟨array, hnone, -⟩ := hprefixes [] (List.nil_prefix)
    contradiction

/-- An object is inserted into an empty array, and the only object of an array is
enumerated backwards. -/
theorem insert_first_fails :
    (run (.withCapacity 0) [.insert (some 7) 0]).map count = some 0 ∧ Op.onList []
    (.insert (some 7) 0) = [7] ∧
    (run (.withObjects [7]) []).bind (fun array =>
      array.reverseObjectEnumerator.allObjects array.heap 2) =
      some [] := by
  decide

end

end SGBaseCArrayWrapper

end BathyScaphe.Foundation
