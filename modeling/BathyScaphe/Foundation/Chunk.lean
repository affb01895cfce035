import Mathlib.Data.List.Perm.Subperm
import Mathlib.Data.List.Range
import Mathlib.Logic.Function.Basic

/-!
# Chunks of blocks

A chunk is one piece of memory cut into blocks of one size. The free blocks
form a list threaded through their own first bytes: each holds the index of
the next one. A block in use belongs to the client, who may write what it
likes there.
-/

namespace BathyScaphe.Foundation

/-- The block size and the number of blocks of a chunk, as the initialiser of
the allocator checks and clips them. -/
structure Geometry where
  blockSize : Nat
  numBlocks : Nat
  blockSize_pos : 0 < blockSize
  numBlocks_pos : 0 < numBlocks
  numBlocks_le : numBlocks ≤ 255

def Geometry.chunkSize (g : Geometry) : Nat := g.blockSize * g.numBlocks

def sgByte (n : Nat) : Nat := n % 256

structure SGBaseChunk where
  address : Nat
  firstAvailableBlock : Nat
  blocksAvailable : Nat
  bytes : Nat → Nat

namespace SGBaseChunk

variable (g : Geometry)

def bytesAddress (c : SGBaseChunk) : Nat := c.address + 2

def block (c : SGBaseChunk) (i : Nat) : Nat := c.bytesAddress + i * g.blockSize

def initLinks (bytes : Nat → Nat) : Nat → Nat → Nat
  | 0 => bytes
  | i + 1 => Function.update (initLinks bytes i) (i * g.blockSize) (sgByte (i + 1))

def init (address : Nat) (bytes : Nat → Nat) : SGBaseChunk where
  address := address
  firstAvailableBlock := 0
  blocksAvailable := g.numBlocks
  bytes := initLinks g bytes g.numBlocks

/-- `SGBaseChunkAllocateBlock`, `none` for `NULL`. -/
def allocateBlock (c : SGBaseChunk) : Option (Nat × SGBaseChunk) :=
  if c.blocksAvailable = 0 then none
  else some (c.block g c.firstAvailableBlock,
    { c with
      firstAvailableBlock := c.bytes (c.firstAvailableBlock * g.blockSize)
      blocksAvailable := c.blocksAvailable - 1 })

/-- `SGBaseChunkDeallocateBlock`, `none` when one of its assertions fails. -/
def deallocateBlock (c : SGBaseChunk) (p : Nat) : Option SGBaseChunk :=
  if c.bytesAddress ≤ p ∧ (p - c.bytesAddress) % g.blockSize = 0 then
    some { c with
      bytes := Function.update c.bytes (p - c.bytesAddress) c.firstAvailableBlock
      firstAvailableBlock := sgByte ((p - c.bytesAddress) / g.blockSize)
      blocksAvailable := sgByte (c.blocksAvailable + 1) }
  else none

def isEmpty (c : SGBaseChunk) : Bool := c.blocksAvailable == g.numBlocks

def containsPointer (c : SGBaseChunk) (p : Nat) : Bool :=
  c.bytesAddress ≤ p && p < c.bytesAddress + g.chunkSize

-- The free list

def freeFrom (bytes : Nat → Nat) : Nat → Nat → List Nat
  | 0, _ => []
  | n + 1, i => i :: freeFrom bytes n (bytes (i * g.blockSize))

def free (c : SGBaseChunk) : List Nat := freeFrom g c.bytes c.blocksAvailable c.firstAvailableBlock

structure Ok (c : SGBaseChunk) : Prop where
  nodup : (c.free g).Nodup
  bound : ∀ i ∈ c.free g, i < g.numBlocks

def Used (c : SGBaseChunk) (i : Nat) : Prop := i < g.numBlocks ∧ i ∉ c.free g

variable {g} {bytes bytes' : Nat → Nat} {address offset v n i : Nat} {c c' : SGBaseChunk}

@[simp] theorem length_freeFrom : (freeFrom g bytes n i).length = n := by
  induction n generalizing i with
  | zero => rfl
  | succ n ih => simp [freeFrom, ih]

/-- Following links reads the first bytes of the free blocks only. -/
theorem freeFrom_congr (h : ∀ j ∈ freeFrom g bytes n i,
    bytes' (j * g.blockSize) = bytes (j * g.blockSize)) :
    freeFrom g bytes' n i = freeFrom g bytes n i := by
  induction n generalizing i with
  | zero => rfl
  | succ n ih =>
    simp only [freeFrom, List.mem_cons, forall_eq_or_imp] at h ⊢
    rw [h.1, ih h.2]

theorem freeFrom_update (h : ∀ j ∈ freeFrom g bytes n i, j * g.blockSize ≠ offset) :
    freeFrom g (Function.update bytes offset v) n i = freeFrom g bytes n i :=
  freeFrom_congr fun j hj => Function.update_of_ne (h j hj) v bytes

theorem blocksAvailable_le (h : Ok g c) : c.blocksAvailable ≤ g.numBlocks := by
  have hsub : c.free g ⊆ List.range g.numBlocks := fun i hi => List.mem_range.mpr (h.bound i hi)
  have hle := (List.Nodup.subperm h.nodup hsub).length_le
  simpa [free] using hle

theorem not_used_of_isEmpty (h : Ok g c) (hempty : c.isEmpty g = true) : ¬ Used g c i := by
  rintro ⟨hi, hfree⟩
  have hsub : i :: c.free g ⊆ List.range g.numBlocks := by
    simpa [List.subset_def, hi] using h.bound
  have hle := (List.Nodup.subperm (List.nodup_cons.mpr ⟨hfree, h.nodup⟩) hsub).length_le
  simp only [isEmpty, beq_iff_eq] at hempty
  simp only [free, List.length_cons, length_freeFrom, hempty, List.length_range] at hle
  omega

theorem initLinks_eq (hi : i < n) : initLinks g bytes n (i * g.blockSize) = sgByte (i + 1) := by
  induction n with
  | zero => omega
  | succ n ih =>
    rcases Nat.lt_succ_iff_lt_or_eq.mp hi with hlt | rfl
    · have hne : i * g.blockSize ≠ n * g.blockSize :=
        (Nat.mul_lt_mul_of_pos_right hlt g.blockSize_pos).ne
      simp [initLinks, Function.update_of_ne hne, ih hlt]
    · simp [initLinks]

theorem free_init : (init g address bytes).free g = List.range g.numBlocks := by
  have hfrom : ∀ n i, i + n = g.numBlocks →
      freeFrom g (initLinks g bytes g.numBlocks) n i = List.range' i n := by
    intro n
    induction n with
    | zero => intro i _; rfl
    | succ n ih =>
      intro i hin
      have hlink : initLinks g bytes g.numBlocks (i * g.blockSize) = i + 1 := by
        have hle := g.numBlocks_le
        rw [initLinks_eq (by omega), sgByte, Nat.mod_eq_of_lt (by omega)]
      simp [freeFrom, List.range'_succ, hlink, ih (i + 1) (by omega)]
  rw [free, init, hfrom g.numBlocks 0 (Nat.zero_add _), List.range_eq_range']

theorem ok_init : Ok g (init g address bytes) :=
  ⟨by rw [free_init]; exact List.nodup_range, by simp [free_init]⟩

theorem allocateBlock_spec (havail : 0 < c.blocksAvailable) :
    ∃ i rest c', c.free g = i :: rest ∧ c.allocateBlock g = some (c.block g i, c') ∧
      c'.free g = rest ∧ c'.address = c.address ∧ c'.blocksAvailable + 1 = c.blocksAvailable := by
  obtain ⟨n, hn⟩ := Nat.exists_eq_succ_of_ne_zero (Nat.ne_of_gt havail)
  let c' : SGBaseChunk := { c with
    firstAvailableBlock := c.bytes (c.firstAvailableBlock * g.blockSize)
    blocksAvailable := n }
  refine ⟨c.firstAvailableBlock, c'.free g, c', ?_, ?_, rfl, rfl, hn.symm⟩
  · rw [free, hn, freeFrom]
    rfl
  · simp [allocateBlock, hn, c']

theorem block_sub (c : SGBaseChunk) : c.block g i - c.bytesAddress = i * g.blockSize := by
  simp [block]

theorem deallocateBlock_spec (hok : Ok g c) (hused : Used g c i) :
    ∃ c', c.deallocateBlock g (c.block g i) = some c' ∧ c'.free g = i :: c.free g ∧
      c'.address = c.address ∧ c'.blocksAvailable = c.blocksAvailable + 1 := by
  have hnumBlocks := g.numBlocks_le
  have hi : i < g.numBlocks := hused.1
  have havail : c.blocksAvailable < g.numBlocks := by
    rcases Nat.lt_or_eq_of_le (blocksAvailable_le hok) with hlt | heq
    · exact hlt
    · exact absurd hused (not_used_of_isEmpty hok (by simp [isEmpty, heq]))
  have hlink : sgByte i = i := Nat.mod_eq_of_lt (by omega)
  have hcount : sgByte (c.blocksAvailable + 1) = c.blocksAvailable + 1 :=
    Nat.mod_eq_of_lt (by omega)
  let c' : SGBaseChunk := { c with
    bytes := Function.update c.bytes (i * g.blockSize) c.firstAvailableBlock
    firstAvailableBlock := i
    blocksAvailable := c.blocksAvailable + 1 }
  have hdealloc : c.deallocateBlock g (c.block g i) = some c' := by
    have hle : c.bytesAddress ≤ c.block g i := Nat.le_add_right _ _
    simp [deallocateBlock, hle, block_sub, Nat.mul_div_cancel i g.blockSize_pos, hlink, hcount, c']
  refine ⟨c', hdealloc, ?_, rfl, rfl⟩
  have hoffset : ∀ j ∈ c.free g, j * g.blockSize ≠ i * g.blockSize := by
    intro j hj heq
    obtain rfl : j = i := Nat.eq_of_mul_eq_mul_right g.blockSize_pos heq
    exact hused.2 hj
  simp [free, freeFrom, freeFrom_update hoffset, c']

theorem ok_of_free (hok : Ok g c) (hfree : c.free g = i :: c'.free g) : Ok g c' := by
  have hnodup := hok.nodup
  rw [hfree] at hnodup
  exact ⟨(List.nodup_cons.mp hnodup).2,
    fun j hj => hok.bound j (by rw [hfree]; exact List.mem_cons_of_mem i hj)⟩

theorem ok_of_cons_free (hok : Ok g c) (hused : Used g c i) (hfree : c'.free g = i :: c.free g) :
    Ok g c' := by
  refine ⟨by rw [hfree]; exact List.nodup_cons.mpr ⟨hused.2, hok.nodup⟩, ?_⟩
  rw [hfree]
  intro j hj
  rcases List.mem_cons.mp hj with rfl | hj
  · exact hused.1
  · exact hok.bound j hj

theorem free_write (hused : Used g c i) (hoffset : offset < g.blockSize) :
    ({ c with bytes := Function.update c.bytes (i * g.blockSize + offset) v }).free g =
      c.free g := by
  refine freeFrom_update fun j hj heq => hused.2 ?_
  have hdiv : j = i := by
    have := congrArg (· / g.blockSize) heq
    simpa [Nat.mul_div_cancel j g.blockSize_pos, Nat.mul_comm i, Nat.mul_add_div g.blockSize_pos,
      Nat.div_eq_of_lt hoffset] using this
  exact hdiv ▸ hj

theorem containsPointer_iff : c.containsPointer g p = true ↔
    c.address + 2 ≤ p ∧ p < c.address + 2 + g.chunkSize := by
  simp only [containsPointer, Bool.and_eq_true, decide_eq_true_eq]
  rfl

theorem containsPointer_block (c : SGBaseChunk) (hi : i < g.numBlocks) :
    c.containsPointer g (c.block g i) = true := by
  have hlt : i * g.blockSize < g.blockSize * g.numBlocks := by
    rw [Nat.mul_comm]
    exact Nat.mul_lt_mul_of_pos_left hi g.blockSize_pos
  simp [containsPointer, block, Geometry.chunkSize, hlt]

theorem block_add_le (c : SGBaseChunk) (hi : i < g.numBlocks) :
    c.block g i + g.blockSize ≤ c.bytesAddress + g.chunkSize := by
  have hle : (i + 1) * g.blockSize ≤ g.numBlocks * g.blockSize := Nat.mul_le_mul_right _ hi
  rw [Nat.succ_mul] at hle
  rw [block, Geometry.chunkSize, Nat.mul_comm g.blockSize]
  omega

theorem block_apart (c : SGBaseChunk) (h : i < j) : c.block g i + g.blockSize ≤ c.block g j := by
  have hle : (i + 1) * g.blockSize ≤ j * g.blockSize := Nat.mul_le_mul_right _ h
  rw [Nat.succ_mul] at hle
  rw [block, block]
  omega

theorem block_inj (h : c.block g i = c.block g j) : i = j :=
  Nat.eq_of_mul_eq_mul_right g.blockSize_pos (Nat.add_left_cancel h)

end SGBaseChunk

end BathyScaphe.Foundation
