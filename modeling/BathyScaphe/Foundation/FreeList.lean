import BathyScaphe.Foundation.FixedAllocator
import BathyScaphe.Lib.Linked

/-!
# The free list of a chunk

A client takes blocks of one chunk, gives back blocks that it has and writes
into them. The free blocks stay a linked list, whose end mark is the number of
blocks: the link of the last free block, or the first available block of a
chunk with none.
-/

namespace BathyScaphe.Foundation

open SGBaseChunk FixedAllocator

/-- A chunk with the blocks that were taken from it and not given back. -/
structure ChunkClient where
  chunk : SGBaseChunk
  live : List Nat

namespace ChunkClient

variable (g : Geometry)

def initial (address : Nat) (bytes : Nat → Nat) : ChunkClient := ⟨init g address bytes, []⟩

inductive Action where
  | allocate
  | deallocate (p : Nat)
  | write (p offset v : Nat)

def step (s : ChunkClient) : Action → Option ChunkClient
  | .allocate =>
    match s.chunk.allocateBlock g with
    | none => some s
    | some (p, chunk) => some ⟨chunk, p :: s.live⟩
  | .deallocate p => (s.chunk.deallocateBlock g p).map fun chunk => ⟨chunk, s.live.erase p⟩
  | .write p offset v =>
    let bytes := Function.update s.chunk.bytes (p - s.chunk.bytesAddress + offset) v
    some { s with chunk := { s.chunk with bytes := bytes } }

def Allowed (s : ChunkClient) : Action → Prop
  | .allocate => True
  | .deallocate p => p ∈ s.live
  | .write p offset _ => p ∈ s.live ∧ offset < g.blockSize

def link (c : SGBaseChunk) (i : Nat) : Nat := c.bytes (i * g.blockSize)

structure FreeList (s : ChunkClient) (l : List Nat) : Prop where
  linked : Linked.Path (link g s.chunk) g.numBlocks s.chunk.firstAvailableBlock l
  length : l.length = s.chunk.blocksAvailable
  distinct : l.Nodup
  notLive : ∀ i, i ∈ l ↔ i < g.numBlocks ∧ s.chunk.block g i ∉ s.live
  links : ∀ i ∈ l, link g s.chunk i < g.numBlocks ∨ l.getLast? = some i ∧
    link g s.chunk i = g.numBlocks
  live : s.live.Nodup ∧ ∀ p ∈ s.live, ∃ i < g.numBlocks, p = s.chunk.block g i
  fails : s.chunk.allocateBlock g = none ↔ ∀ i < g.numBlocks, s.chunk.block g i ∈ s.live

-- What a step keeps

structure Inv (s : ChunkClient) : Prop where
  owns : Owns g [s.chunk] s.live
  linked : Linked.Path (link g s.chunk) g.numBlocks s.chunk.firstAvailableBlock (s.chunk.free g)

variable {g} {address i p offset v n : Nat} {bytes : Nat → Nat} {c c' : SGBaseChunk}
  {s s' : ChunkClient}
  {a : Action} {actions : List Action}

theorem Inv.ok (h : Inv g s) : Ok g s.chunk := h.owns.ok s.chunk (by simp)

theorem Inv.mem_live (h : Inv g s) : p ∈ s.live ↔ ∃ i, Used g s.chunk i ∧
    p = s.chunk.block g i := by
  simp [h.owns.owned p]

theorem owns_of_free {live : List Nat} (h : Owns g [c] live) (hfree : c'.free g = c.free g)
    (haddress : c'.address = c.address) : Owns g [c'] live := by
  have hok : Ok g c := h.ok c (by simp)
  refine ⟨?_, List.pairwise_singleton _ _, fun p => ?_, h.nodup⟩
  · intro d hd
    obtain rfl := List.mem_singleton.mp hd
    exact ⟨hfree ▸ hok.nodup, hfree ▸ hok.bound⟩
  · rw [h.owned p]
    simp only [List.mem_singleton, exists_eq_left, Used, hfree, block_of_address haddress]

theorem inv_initial : Inv g (initial g address bytes) where
  owns := Owns.new ⟨nofun, List.Pairwise.nil, by simp [initial], List.nodup_nil⟩ nofun
  linked := by
    have hpath : ∀ n i, i + n = g.numBlocks →
        Linked.Path (link g (init g address bytes)) g.numBlocks i (List.range' i n) := by
      intro n
      induction n with
      | zero => exact fun i hi => hi
      | succ n ih =>
        intro i hi
        have hlink : link g (init g address bytes) i = i + 1 := by
          have hle := g.numBlocks_le
          simp only [link, init]
          rw [initLinks_eq (by omega), sgByte, Nat.mod_eq_of_lt (by omega)]
        refine ⟨rfl, by omega, ?_⟩
        rw [hlink]
        exact ih (i + 1) (by omega)
    simp only [initial, free_init, List.range_eq_range']
    exact hpath g.numBlocks 0 (Nat.zero_add _)

theorem allocate_inv (h : Inv g s) : ∃ s', step g s .allocate = some s' ∧ Inv g s' := by
  rcases Nat.eq_zero_or_pos s.chunk.blocksAvailable with hzero | hpos
  · exact ⟨s, by simp [step, allocateBlock, hzero], h⟩
  obtain ⟨i, rest, c', hfree, halloc, rfl, haddress, -⟩ := allocateBlock_spec (g := g) hpos
  refine ⟨⟨c', s.chunk.block g i :: s.live⟩, by simp [step, halloc], ?_, ?_⟩
  · exact h.owns.take hfree haddress
  · have hlinked := h.linked
    rw [hfree] at hlinked
    obtain ⟨hfirst, -, hlinked⟩ := hlinked
    simp only [allocateBlock, Nat.ne_of_gt hpos, if_false, Option.some.injEq,
      Prod.mk.injEq] at halloc
    obtain ⟨-, rfl⟩ := halloc
    rw [← hfirst] at hlinked
    exact hlinked

theorem deallocate_inv (h : Inv g s) (hp : p ∈ s.live) :
    ∃ s', step g s (.deallocate p) = some s' ∧ Inv g s' := by
  obtain ⟨i, hused, rfl⟩ := h.mem_live.mp hp
  obtain ⟨c', hdealloc, hfree, haddress, -⟩ := deallocateBlock_spec h.ok hused
  refine ⟨⟨c', s.live.erase (s.chunk.block g i)⟩, by simp [step, hdealloc], ?_, ?_⟩
  · exact h.owns.release hused hfree haddress
  · have hi : sgByte i = i := Nat.mod_eq_of_lt (by have := hused.1; have := g.numBlocks_le; omega)
    simp only [deallocateBlock, block_sub, Nat.mul_div_cancel i g.blockSize_pos, hi] at hdealloc
    split at hdealloc
    · obtain rfl := Option.some.inj hdealloc
      rw [hfree]
      refine h.linked.push hused.2 (Nat.ne_of_lt hused.1) (by simp [link]) fun k hk => ?_
      have hne : k * g.blockSize ≠ i * g.blockSize := fun heq =>
        hk (Nat.eq_of_mul_eq_mul_right g.blockSize_pos heq)
      simp [link, Function.update_of_ne hne]
    · simp at hdealloc

theorem write_inv (h : Inv g s) (hp : p ∈ s.live) (hoffset : offset < g.blockSize) :
    ∃ s', step g s (.write p offset v) = some s' ∧ Inv g s' := by
  obtain ⟨i, hused, rfl⟩ := h.mem_live.mp hp
  let c' : SGBaseChunk :=
    { s.chunk with bytes := Function.update s.chunk.bytes (i * g.blockSize + offset) v }
  have hfree : c'.free g = s.chunk.free g := free_write hused hoffset
  refine ⟨⟨c', s.live⟩, by simp [step, block_sub, c'], owns_of_free h.owns hfree rfl, ?_⟩
  simp only [hfree]
  refine h.linked.congr fun j hj => ?_
  have hne : j * g.blockSize ≠ i * g.blockSize + offset := by
    intro heq
    have hdiv := congrArg (· / g.blockSize) heq
    simp only [Nat.mul_comm i, Nat.mul_add_div g.blockSize_pos, Nat.div_eq_of_lt hoffset,
      Nat.mul_div_cancel j g.blockSize_pos, Nat.add_zero] at hdiv
    exact hused.2 (hdiv ▸ hj)
  exact Function.update_of_ne hne v s.chunk.bytes

theorem step_inv (h : Inv g s) (ha : Allowed g s a) : ∃ s', step g s a = some s' ∧ Inv g s' := by
  cases a with
  | allocate => exact allocate_inv h
  | deallocate p => exact deallocate_inv h ha
  | write p offset v => exact write_inv h ha.1 ha.2

-- The free list after a run

theorem Inv.mem_free (h : Inv g s) :
    i ∈ s.chunk.free g ↔ i < g.numBlocks ∧ s.chunk.block g i ∉ s.live := by
  rw [h.mem_live]
  constructor
  · refine fun hi => ⟨h.ok.bound i hi, ?_⟩
    rintro ⟨j, hused, heq⟩
    exact hused.2 (block_inj heq ▸ hi)
  · rintro ⟨hi, hlive⟩
    by_contra hfree
    exact hlive ⟨i, ⟨hi, hfree⟩, rfl⟩

theorem allocateBlock_eq_none : c.allocateBlock g = none ↔ c.free g = [] := by
  rw [← List.length_eq_zero_iff, free, length_freeFrom]
  simp [allocateBlock]

theorem Inv.freeList (h : Inv g s) : FreeList g s (s.chunk.free g) where
  linked := h.linked
  length := length_freeFrom
  distinct := h.linked.nodup
  notLive _ := h.mem_free
  links i hi := (h.linked.next_mem hi).imp_left (h.ok.bound _)
  live := by
    refine ⟨h.owns.nodup, fun p hp => ?_⟩
    obtain ⟨i, hused, rfl⟩ := h.mem_live.mp hp
    exact ⟨i, hused.1, rfl⟩
  fails := by
    simp only [allocateBlock_eq_none, List.eq_nil_iff_forall_not_mem, h.mem_free, not_and, not_not]

theorem freeList_of_run
    (hallowed : Run.Guarded (step g) (Allowed g) (initial g address bytes) actions) :
    ∃ s, Run.run (step g) (initial g address bytes) actions = some s ∧ ∃ l, FreeList g s l := by
  obtain ⟨s, hrun, hinv⟩ := Run.guarded_total (fun h ha => step_inv h ha) hallowed inv_initial
  exact ⟨s, hrun, s.chunk.free g, hinv.freeList⟩

def threeBlocks : Geometry := ⟨2, 3, by decide, by decide, by decide⟩

/-- Two blocks are taken, the first one is written to and given back. -/
theorem freeList_of_two_blocks :
    ∃ s, Run.run (step threeBlocks) (initial threeBlocks 100 fun _ => 0)
        [.allocate, .allocate, .write 102 1 7, .deallocate 102] = some s ∧
      ∃ l, FreeList threeBlocks s l :=
  have hfirst : 102 ∈ [104, 102] := List.mem_cons_of_mem 104 List.mem_cons_self
  freeList_of_run (Run.guarded_cons rfl trivial (Run.guarded_cons rfl trivial
    (Run.guarded_cons rfl ⟨hfirst, Nat.lt_succ_self 1⟩ (Run.guarded_cons rfl hfirst trivial))))

/-- The link of the only block of a new chunk is not the index of a block. -/
theorem link_outside :
    ¬ ∀ i ∈ (initial oneByte 100 fun _ => 0).chunk.free oneByte,
      link oneByte (initial oneByte 100 fun _ => 0).chunk i < oneByte.numBlocks := by
  decide

end ChunkClient

end BathyScaphe.Foundation
