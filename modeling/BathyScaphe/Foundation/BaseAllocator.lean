import BathyScaphe.Lib.Run
import BathyScaphe.Lib.Splice
import Mathlib.Data.List.Nodup

/-!
# The registry of fixed-size allocators

`SGBaseAllocator` keeps an array of fixed-size allocators, one for each zone and block
size, and remembers the last one that allocated and the last one that deallocated.
Requests above the maximum go to the zone itself.
-/

namespace BathyScaphe.Foundation

variable {ζ : Type} [DecidableEq ζ]

/-- A fixed-size allocator, as far as the registry looks at it: an object of its own, in
the zone that `NSZoneFromPointer` answers. -/
structure SGBaseFixedAllocator (ζ : Type) where
  number : Nat
  zone : ζ
  blockSize : Nat
  deriving DecidableEq

structure SGBaseAllocator (ζ : Type) where
  allocatorArray : Option (List (SGBaseFixedAllocator ζ)) := none
  pLastAllocator : Option (SGBaseFixedAllocator ζ) := none
  pLastDeallocator : Option (SGBaseFixedAllocator ζ) := none
  allocatorsMade : Nat := 0

namespace SGBaseAllocator

def isOrderedAllocator (anAlloc : Option (SGBaseFixedAllocator ζ)) (aZone : ζ)
    (aNumBytes : Nat) : Bool :=
  anAlloc.any fun anAlloc => aNumBytes == anAlloc.blockSize && aZone == anAlloc.zone

/-- The loop of an allocation from an index on: the allocator that it finds, or the
index at which it stops. -/
def searchFrom (zone : ζ) (numBytes : Nat) : Nat → List (SGBaseFixedAllocator ζ) →
    SGBaseFixedAllocator ζ ⊕ Nat
  | index, [] => .inr index
  | index, fixAlloc :: rest =>
    if isOrderedAllocator (some fixAlloc) zone numBytes then .inl fixAlloc
    else if numBytes < fixAlloc.blockSize then .inr index
    else searchFrom zone numBytes (index + 1) rest

variable (maxObjectSize : Nat) (defaultZone : ζ)

/-- A new fixed allocator takes its place in the array. One of size zero divides the
size of a chunk by zero. -/
def insertNew (zone : ζ) (numBytes index : Nat) (array : List (SGBaseFixedAllocator ζ))
    (allocator : SGBaseAllocator ζ) :
    Option (Option (SGBaseFixedAllocator ζ) × SGBaseAllocator ζ) :=
  if numBytes = 0 then none
  else
    let fixAlloc := ⟨allocator.allocatorsMade, zone, numBytes⟩
    let array := if array.length = index then array ++ [fixAlloc]
      else array.insertIdx index fixAlloc
    some (some fixAlloc,
      { allocatorArray := some array
        pLastAllocator := some fixAlloc
        pLastDeallocator := array.head?
        allocatorsMade := allocator.allocatorsMade + 1 })

/-- The fixed allocator that allocates the block, none for the zone itself. -/
def allocateWithZone (aZone : Option ζ) (numBytes : Nat) (allocator : SGBaseAllocator ζ) :
    Option (Option (SGBaseFixedAllocator ζ) × SGBaseAllocator ζ) :=
  if maxObjectSize < numBytes then some (none, allocator)
  else
    let zone := aZone.getD defaultZone
    if isOrderedAllocator allocator.pLastAllocator zone numBytes
      then some (allocator.pLastAllocator, allocator)
    else
      let array := allocator.allocatorArray.getD []
      match searchFrom zone numBytes 0 array with
      | .inl fixAlloc =>
        some (some fixAlloc, { allocator with
          allocatorArray := some array, pLastAllocator := some fixAlloc })
      | .inr index => insertNew zone numBytes index array allocator

/-- The fixed allocator that is sent the block. An array that is not there is read
nevertheless, which ends the program. -/
def deallocateWithZone (aZone : Option ζ) (numBytes : Nat) (allocator : SGBaseAllocator ζ) :
    Option (Option (SGBaseFixedAllocator ζ) × SGBaseAllocator ζ) :=
  if maxObjectSize < numBytes then some (none, allocator)
  else
    let zone := aZone.getD defaultZone
    if isOrderedAllocator allocator.pLastDeallocator zone numBytes then
      some (allocator.pLastDeallocator, allocator)
    else
      allocator.allocatorArray.map fun array =>
        let found := array.find? fun fixAlloc => isOrderedAllocator (some fixAlloc) zone numBytes
        (found, { allocator with pLastDeallocator := found })

end SGBaseAllocator

-- Runs

structure AllocatedBlock (ζ : Type) where
  zone : Option ζ
  numBytes : Nat
  fixAlloc : Option (SGBaseFixedAllocator ζ)

inductive AllocatorRequest (ζ : Type) where
  | allocate (aZone : Option ζ) (numBytes : Nat)
  | deallocate (aZone : Option ζ) (numBytes : Nat)

structure AllocatorSession (ζ : Type) where
  allocator : SGBaseAllocator ζ := {}
  blocks : List (AllocatedBlock ζ) := []

def AllocatorSession.step (maxObjectSize : Nat) (defaultZone : ζ) (session : AllocatorSession ζ) :
    AllocatorRequest ζ → Option (AllocatorSession ζ)
  | .allocate aZone numBytes =>
    (session.allocator.allocateWithZone maxObjectSize defaultZone aZone numBytes).map
    fun (fixAlloc, allocator) =>
      ⟨allocator, ⟨aZone, numBytes, fixAlloc⟩ :: session.blocks⟩
  | .deallocate aZone numBytes =>
    (session.allocator.deallocateWithZone maxObjectSize defaultZone aZone numBytes).map
    fun (_, allocator) =>
      { session with allocator := allocator }

-- The array

section
variable {array front back : List (SGBaseFixedAllocator ζ)} {zone : ζ} {numBytes index : Nat}

namespace SGBaseAllocator

structure IsRegistry (array : List (SGBaseFixedAllocator ζ)) : Prop where
  sorted : array.Pairwise fun first second => first.blockSize ≤ second.blockSize
  unique : (array.map fun fixAlloc => (fixAlloc.zone, fixAlloc.blockSize)).Nodup

theorem isOrderedAllocator_iff {fixAlloc : SGBaseFixedAllocator ζ} :
    isOrderedAllocator (some fixAlloc) zone numBytes = true ↔
      fixAlloc.zone = zone ∧ fixAlloc.blockSize = numBytes := by
  rw [isOrderedAllocator, Option.any_some, Bool.and_eq_true, beq_iff_eq, beq_iff_eq]
  exact ⟨fun ⟨hsize, hzone⟩ => ⟨hzone.symm, hsize.symm⟩, fun ⟨hzone, hsize⟩ =>
    ⟨hsize.symm, hzone.symm⟩⟩

theorem searchFrom_inl {fixAlloc : SGBaseFixedAllocator ζ}
    (h : searchFrom zone numBytes i array = .inl fixAlloc) :
    fixAlloc ∈ array ∧ fixAlloc.zone = zone ∧ fixAlloc.blockSize = numBytes := by
  induction array generalizing i with
  | nil => cases h
  | cons first rest ih =>
    rw [searchFrom] at h
    split at h
    · rename_i hordered
      obtain rfl := Sum.inl.inj h
      exact ⟨List.mem_cons_self, isOrderedAllocator_iff.mp hordered⟩
    · split at h
      · cases h
      · obtain ⟨hin, hordered⟩ := ih h
        exact ⟨List.mem_cons_of_mem first hin, hordered⟩

/-- Where the search stops, the block sizes before are no greater, those behind are
greater, and there is no such allocator. -/
theorem searchFrom_inr (hsorted : array.Pairwise fun first second =>
    first.blockSize ≤ second.blockSize)
    (h : searchFrom zone numBytes i array = .inr index) :
    ∃ front back, array = front ++ back ∧ index = i + front.length ∧
      (∀ fixAlloc ∈ front, fixAlloc.blockSize ≤ numBytes ∧
        ¬(fixAlloc.zone = zone ∧ fixAlloc.blockSize = numBytes)) ∧
      ∀ fixAlloc ∈ back, numBytes < fixAlloc.blockSize := by
  induction array generalizing i with
  | nil =>
    obtain rfl := Sum.inr.inj h
    exact ⟨[], [], rfl, rfl, nofun, nofun⟩
  | cons first rest ih =>
    obtain ⟨hfirst, hrest⟩ := List.pairwise_cons.mp hsorted
    rw [searchFrom] at h
    split at h
    · cases h
    · rename_i hnot
      rw [isOrderedAllocator_iff] at hnot
      split at h
      · rename_i hlt
        obtain rfl := Sum.inr.inj h
        refine ⟨[], first :: rest, rfl, rfl, nofun, fun fixAlloc hin => ?_⟩
        obtain rfl | hin := List.mem_cons.mp hin
        · exact hlt
        · exact Nat.lt_of_lt_of_le hlt (hfirst fixAlloc hin)
      · rename_i hle
        obtain ⟨front, back, rfl, rfl, hfront, hback⟩ := ih hrest h
        refine ⟨first :: front, back, rfl,
          by rw [List.length_cons]; omega, fun fixAlloc hin => ?_, hback⟩
        obtain rfl | hin := List.mem_cons.mp hin
        · exact ⟨Nat.not_lt.mp hle, hnot⟩
        · exact hfront fixAlloc hin

omit [DecidableEq ζ] in
theorem IsRegistry.insert (h : IsRegistry (front ++ back)) (fixAlloc : SGBaseFixedAllocator ζ)
    (hfront : ∀ other ∈ front, other.blockSize ≤ fixAlloc.blockSize ∧
      ¬(other.zone = fixAlloc.zone ∧ other.blockSize = fixAlloc.blockSize))
    (hback : ∀ other ∈ back, fixAlloc.blockSize < other.blockSize) :
    IsRegistry (front ++ fixAlloc :: back) := by
  obtain ⟨hfrontSorted, hbackSorted, happend⟩ := List.pairwise_append.mp h.sorted
  constructor
  · refine List.pairwise_append.mpr ⟨hfrontSorted, List.pairwise_cons.mpr
      ⟨fun other hin => Nat.le_of_lt (hback other hin), hbackSorted⟩,
        fun first hfirst second hsecond => ?_⟩
    obtain rfl | hsecond := List.mem_cons.mp hsecond
    · exact (hfront first hfirst).1
    · exact happend first hfirst second hsecond
  · rw [(List.perm_middle.map _).nodup_iff, List.map_cons, List.nodup_cons]
    refine ⟨fun hmem => ?_, h.unique⟩
    obtain ⟨other, hin, heq⟩ := List.mem_map.mp hmem
    obtain ⟨hzone, hsize⟩ := Prod.mk.inj heq
    obtain hin | hin := List.mem_append.mp hin
    · exact (hfront other hin).2 ⟨hzone, hsize⟩
    · exact absurd hsize (Nat.ne_of_gt (hback other hin))

omit [DecidableEq ζ] in
theorem IsRegistry.eq_of_mem (h : IsRegistry array) {first second : SGBaseFixedAllocator ζ}
    (hfirst : first ∈ array)
    (hsecond : second ∈ array) (hzone : first.zone = second.zone)
    (hsize : first.blockSize = second.blockSize) :
    first = second :=
  List.inj_on_of_nodup_map h.unique hfirst hsecond (Prod.ext hzone hsize)

-- The registry

/-- What is kept of the registry: the array is in order, and what is remembered is in
it. -/
structure Ok (allocator : SGBaseAllocator ζ) : Prop where
  registry : IsRegistry (allocator.allocatorArray.getD [])
  lastAllocator : ∀ fixAlloc ∈ allocator.pLastAllocator, fixAlloc ∈ allocator.allocatorArray.getD []
  lastDeallocator : ∀ fixAlloc ∈ allocator.pLastDeallocator,
    fixAlloc ∈ allocator.allocatorArray.getD []

def Serves (maxObjectSize : Nat) (defaultZone : ζ) (array : List (SGBaseFixedAllocator ζ))
    (aZone : Option ζ)
    (numBytes : Nat) (fixAlloc : Option (SGBaseFixedAllocator ζ)) : Prop :=
  if maxObjectSize < numBytes then fixAlloc = none
  else ∃ found ∈ array, fixAlloc = some found ∧ found.zone = aZone.getD defaultZone ∧
    found.blockSize = numBytes

variable {maxObjectSize : Nat} {defaultZone : ζ} {allocator allocator' : SGBaseAllocator ζ}
  {aZone : Option ζ}
  {fixAlloc : Option (SGBaseFixedAllocator ζ)}

omit [DecidableEq ζ] in
theorem Serves.mono (h : Serves maxObjectSize defaultZone array aZone numBytes fixAlloc)
    (hsub : ∀ other ∈ array, other ∈ array') :
    Serves maxObjectSize defaultZone array' aZone numBytes fixAlloc := by
  rw [Serves] at h ⊢
  split
  · rename_i hlarge
    rwa [if_pos hlarge] at h
  · rename_i hsmall
    rw [if_neg hsmall] at h
    obtain ⟨found, hin, hfound⟩ := h
    exact ⟨found, hsub found hin, hfound⟩

theorem insertNew_spec (h : Ok allocator)
    (hsearch : searchFrom zone numBytes 0 (allocator.allocatorArray.getD []) = .inr index)
    (hinsert : insertNew zone numBytes index (allocator.allocatorArray.getD []) allocator =
      some (fixAlloc, allocator')) :
    Ok allocator' ∧ (∀ other ∈ allocator.allocatorArray.getD [],
      other ∈ allocator'.allocatorArray.getD []) ∧
      ∃ found ∈ allocator'.allocatorArray.getD [], fixAlloc = some found ∧ found.zone = zone ∧
        found.blockSize = numBytes := by
  obtain ⟨front, back, harray, hindex, hfront, hback⟩ := searchFrom_inr h.registry.sorted hsearch
  rw [Nat.zero_add] at hindex
  rw [insertNew] at hinsert
  split at hinsert
  · cases hinsert
  · obtain ⟨rfl, rfl⟩ := Prod.mk.inj (Option.some.inj hinsert)
    have hnew : (if (allocator.allocatorArray.getD []).length = index then
        allocator.allocatorArray.getD [] ++
          [(⟨allocator.allocatorsMade, zone, numBytes⟩ : SGBaseFixedAllocator ζ)]
        else (allocator.allocatorArray.getD []).insertIdx index
          ⟨allocator.allocatorsMade, zone, numBytes⟩) =
        front ++ ⟨allocator.allocatorsMade, zone, numBytes⟩ :: back := by
      rw [harray, hindex, ← Splice.insertIdx_length front back]
      split
      · rename_i hlength
        rw [← hlength, List.insertIdx_length_self]
      · rfl
    have hregistry : IsRegistry (front ++ ⟨allocator.allocatorsMade, zone, numBytes⟩ :: back) :=
      (harray ▸ h.registry).insert ⟨allocator.allocatorsMade, zone, numBytes⟩ hfront hback
    simp only [Option.getD_some, hnew]
    refine ⟨⟨hregistry, fun other hother => ?_, fun other hother => ?_⟩, fun other hother => ?_,
      ⟨_, List.mem_append_right _ List.mem_cons_self, rfl, rfl, rfl⟩⟩
    · rw [← Option.some.inj hother]
      exact List.mem_append_right _ List.mem_cons_self
    · exact List.mem_of_mem_head? hother
    · rw [harray] at hother
      exact (List.perm_middle.mem_iff).mpr (List.mem_cons_of_mem _ hother)

theorem allocateWithZone_spec (h : Ok allocator)
    (hallocate : allocator.allocateWithZone maxObjectSize defaultZone aZone numBytes =
      some (fixAlloc, allocator')) :
    Ok allocator' ∧ (∀ other ∈ allocator.allocatorArray.getD [],
      other ∈ allocator'.allocatorArray.getD []) ∧
      Serves maxObjectSize defaultZone
        (allocator'.allocatorArray.getD []) aZone numBytes fixAlloc := by
  simp only [allocateWithZone] at hallocate
  split at hallocate
  · rename_i hlarge
    obtain ⟨rfl, rfl⟩ := Prod.mk.inj (Option.some.inj hallocate)
    refine ⟨h, fun _ hother => hother, ?_⟩
    rw [Serves, if_pos hlarge]
  · rename_i hsmall
    rw [Serves, if_neg hsmall]
    split at hallocate
    · rename_i hordered
      obtain ⟨rfl, rfl⟩ := Prod.mk.inj (Option.some.inj hallocate)
      obtain ⟨found, hfound, -⟩ := Option.any_eq_true .. |>.mp hordered
      rw [hfound, isOrderedAllocator_iff] at hordered
      exact ⟨h, fun _ hother => hother, found, h.lastAllocator found hfound, hfound, hordered⟩
    · split at hallocate
      · rename_i found hsearch
        obtain ⟨rfl, rfl⟩ := Prod.mk.inj (Option.some.inj hallocate)
        obtain ⟨hin, hordered⟩ := searchFrom_inl hsearch
        refine ⟨⟨h.registry, fun other hother => ?_, h.lastDeallocator⟩, fun _ hother =>
          hother, found, hin, rfl,
          hordered⟩
        rw [← Option.some.inj hother]
        exact hin
      · rename_i index hsearch
        exact insertNew_spec h hsearch hallocate

theorem deallocateWithZone_spec (h : Ok allocator)
    (hdeallocate : allocator.deallocateWithZone maxObjectSize defaultZone aZone numBytes =
      some (fixAlloc, allocator')) :
    Ok allocator' ∧ allocator'.allocatorArray = allocator.allocatorArray := by
  simp only [deallocateWithZone] at hdeallocate
  split at hdeallocate
  · obtain ⟨-, rfl⟩ := Prod.mk.inj (Option.some.inj hdeallocate)
    exact ⟨h, rfl⟩
  · split at hdeallocate
    · obtain ⟨-, rfl⟩ := Prod.mk.inj (Option.some.inj hdeallocate)
      exact ⟨h, rfl⟩
    · obtain ⟨array, harray, heq⟩ := Option.map_eq_some_iff.mp hdeallocate
      obtain ⟨-, rfl⟩ := Prod.mk.inj heq
      refine ⟨⟨h.registry, h.lastAllocator, fun other hother => ?_⟩, rfl⟩
      rw [harray]
      exact List.mem_of_find?_eq_some hother

theorem deallocateWithZone_eq (h : Ok allocator)
    (hserves : Serves maxObjectSize defaultZone
      (allocator.allocatorArray.getD []) aZone numBytes fixAlloc) :
    ∃ allocator', allocator.deallocateWithZone maxObjectSize defaultZone aZone numBytes =
      some (fixAlloc, allocator') := by
  rw [Serves] at hserves
  simp only [deallocateWithZone]
  split at hserves
  · rename_i hlarge
    rw [if_pos hlarge, hserves]
    exact ⟨allocator, rfl⟩
  · rename_i hsmall
    obtain ⟨found, hin, rfl, hzone, hsize⟩ := hserves
    rw [if_neg hsmall]
    split
    · rename_i hordered
      obtain ⟨last, hlast, -⟩ := Option.any_eq_true .. |>.mp hordered
      rw [hlast, isOrderedAllocator_iff] at hordered
      obtain rfl := h.registry.eq_of_mem (h.lastDeallocator last hlast) hin
        (hordered.1.trans hzone.symm)
        (hordered.2.trans hsize.symm)
      exact ⟨allocator, by rw [hlast]⟩
    · cases harray : allocator.allocatorArray with
      | none =>
        rw [harray] at hin
        cases hin
      | some array =>
        have hregistry := h.registry
        rw [harray, Option.getD_some] at hin hregistry
        have hordered : isOrderedAllocator (some found) (aZone.getD defaultZone) numBytes = true :=
          isOrderedAllocator_iff.mpr ⟨hzone, hsize⟩
        rw [Option.map_some]
        cases hfind : array.find? fun fixAlloc =>
          isOrderedAllocator (some fixAlloc) (aZone.getD defaultZone)
            numBytes with
        | none => exact absurd hordered (List.find?_eq_none.mp hfind found hin)
        | some other =>
          obtain ⟨hotherZone, hotherSize⟩ := isOrderedAllocator_iff.mp
            (List.find?_some (p := fun fixAlloc =>
              isOrderedAllocator (some fixAlloc) (aZone.getD defaultZone) numBytes)
              hfind)
          rw [hregistry.eq_of_mem (List.mem_of_find?_eq_some hfind) hin
            (hotherZone.trans hzone.symm)
            (hotherSize.trans hsize.symm)]
          exact ⟨_, rfl⟩

end SGBaseAllocator

-- All blocks

open SGBaseAllocator

/-- The registry is in order, and the fixed allocator of every block is the one that
serves its zone and size. -/
structure AllocatorSession.Holds (maxObjectSize : Nat) (defaultZone : ζ)
    (session : AllocatorSession ζ) : Prop where
  ok : Ok session.allocator
  served : ∀ block ∈ session.blocks, Serves maxObjectSize defaultZone
    (session.allocator.allocatorArray.getD []) block.zone block.numBytes block.fixAlloc

theorem AllocatorSession.Holds.step {session session' : AllocatorSession ζ}
    (h : session.Holds maxObjectSize defaultZone) {request : AllocatorRequest ζ}
    (hstep : session.step maxObjectSize defaultZone request = some session') :
    session'.Holds maxObjectSize defaultZone := by
  cases request with
  | allocate aZone numBytes =>
    obtain ⟨⟨fixAlloc, allocator⟩, hallocate, rfl⟩ := Option.map_eq_some_iff.mp hstep
    obtain ⟨hok, hsub, hserves⟩ := allocateWithZone_spec h.ok hallocate
    refine ⟨hok, fun block hblock => ?_⟩
    obtain rfl | hblock := List.mem_cons.mp hblock
    · exact hserves
    · exact (h.served block hblock).mono hsub
  | deallocate aZone numBytes =>
    obtain ⟨⟨fixAlloc, allocator⟩, hdeallocate, rfl⟩ := Option.map_eq_some_iff.mp hstep
    obtain ⟨hok, harray⟩ := deallocateWithZone_spec h.ok hdeallocate
    refine ⟨hok, fun block hblock => ?_⟩
    rw [harray]
    exact h.served block hblock

/-- After any requests the array is sorted by block size and has one allocator for a
zone and a size, what is remembered is in the array, and a block of any size from any
zone goes back to the allocator that it came from. -/
theorem run_allocator_ok (maxObjectSize : Nat) (defaultZone : ζ)
    (requests : List (AllocatorRequest ζ))
    {session : AllocatorSession ζ}
    (hrun : Run.run (AllocatorSession.step maxObjectSize defaultZone) {} requests = some session) :
    IsRegistry (session.allocator.allocatorArray.getD []) ∧
      (∀ fixAlloc ∈ session.allocator.pLastAllocator,
        fixAlloc ∈ session.allocator.allocatorArray.getD []) ∧
      (∀ fixAlloc ∈ session.allocator.pLastDeallocator,
        fixAlloc ∈ session.allocator.allocatorArray.getD []) ∧
      ∀ block ∈ session.blocks, ∀ aZone : Option ζ, aZone.getD defaultZone =
        block.zone.getD defaultZone →
        ∃ allocator',
        session.allocator.deallocateWithZone maxObjectSize defaultZone aZone block.numBytes =
          some (block.fixAlloc, allocator') := by
  have hinitial : AllocatorSession.Holds maxObjectSize defaultZone ({} : AllocatorSession ζ) :=
    ⟨⟨⟨List.Pairwise.nil, List.nodup_nil⟩, nofun, nofun⟩, nofun⟩
  have h := Run.run_invariant (fun h hstep => h.step hstep) hrun hinitial
  refine ⟨h.ok.registry, h.ok.lastAllocator, h.ok.lastDeallocator, fun block hblock aZone hzone =>
    ?_⟩
  have hserves := h.served block hblock
  rw [Serves, ← hzone] at hserves
  exact deallocateWithZone_eq h.ok hserves

/-- Two zones with blocks of one size, and smaller blocks after them. -/
theorem run_allocator_ok_two_zones :
    ∃ session, Run.run (AllocatorSession.step 64 false) {}
        [.allocate none 8, .allocate (some true) 8, .allocate none 4] = some session ∧
      (session.allocator.allocatorArray.getD []).map SGBaseFixedAllocator.blockSize = [4, 8, 8] ∧
      ∀ block ∈ session.blocks, ∀ aZone : Option Bool, aZone.getD false = block.zone.getD false →
        ∃ allocator', session.allocator.deallocateWithZone 64 false aZone block.numBytes =
          some (block.fixAlloc, allocator') :=
  ⟨_, rfl, rfl, (run_allocator_ok 64 false [.allocate none 8, .allocate (some true) 8,
    .allocate none 4] rfl).2.2.2⟩

end

end BathyScaphe.Foundation
