import BathyScaphe.Foundation.Chunk
import BathyScaphe.Lib.Run

/-!
# The fixed-size allocator

The allocator keeps an array of chunks and two caches: the chunk that served
the last allocation, by address, and the index of the chunk that took the last
deallocation. An empty chunk moves to the end of the array, and the one that
was there is released when it is empty too.

A call is `none` when it reads a released chunk or fails an assertion. The
released chunk can be the cached one, and that is the only way a call of a
well-behaved client goes wrong.
-/

namespace BathyScaphe.Foundation

open SGBaseChunk

structure FixedAllocator where
  chunks : List SGBaseChunk
  allocChunk : Option Nat
  deallocIdx : Option Nat
  live : List Nat

namespace FixedAllocator

variable (g : Geometry)

def initial : FixedAllocator := ⟨[], none, none, []⟩

/-- The chunk a pointer refers to, `none` when it has been released. -/
def deref (address : Nat) (chunks : List SGBaseChunk) : Option SGBaseChunk :=
  chunks.find? (·.address == address)

def replaceChunk (chunk : SGBaseChunk) (chunks : List SGBaseChunk) : List SGBaseChunk :=
  chunks.map fun c => if c.address = chunk.address then chunk else c

def allocateFrom (s : FixedAllocator) (chunk : SGBaseChunk) : Option (Nat × FixedAllocator) :=
  match chunk.allocateBlock g with
  | none => none
  | some (p, chunk') => some (p, { s with
      chunks := replaceChunk chunk' s.chunks
      allocChunk := some chunk.address
      live := p :: s.live })

def allocateNew (s : FixedAllocator) (address : Nat) (bytes : Nat → Nat) :
    Option (Nat × FixedAllocator) :=
  let chunk := init g address bytes
  allocateFrom g { s with chunks := s.chunks ++ [chunk], deallocIdx := some 0 } chunk

def allocate (s : FixedAllocator) (address : Nat) (bytes : Nat → Nat) :
    Option (Nat × FixedAllocator) :=
  match s.allocChunk with
  | none => if s.chunks.isEmpty then allocateNew g s address bytes else none
  | some cached =>
    match deref cached s.chunks with
    | none => none
    | some chunk =>
      if 0 < chunk.blocksAvailable then allocateFrom g s chunk
      else match s.chunks.find? (0 < ·.blocksAvailable) with
        | some chunk => allocateFrom g s chunk
        | none => allocateNew g s address bytes

/-- The search of `deallocate:` in both directions from the cached index, with
`none` for a lower index of `NSNotFound`. Each round moves both indexes, so
the number of chunks bounds the rounds. -/
def findChunk (p : Nat) (chunks : List SGBaseChunk) : Nat → Option Nat → Nat → Option Nat
  | 0, _, _ => none
  | rounds + 1, lowerIdx, upperIdx =>
    if lowerIdx = none ∧ chunks.length ≤ upperIdx then none
    else if lowerIdx.any fun l => chunks[l]?.any (·.containsPointer g p) then lowerIdx
    else if chunks[upperIdx]?.any (·.containsPointer g p) then some upperIdx
    else findChunk p chunks rounds
      (lowerIdx.bind fun l => if l = 0 then none else some (l - 1))
      (if upperIdx < chunks.length then upperIdx + 1 else upperIdx)

def exchangeWithLast (index : Nat) (chunk : SGBaseChunk) (chunks : List SGBaseChunk) :
    Option (List SGBaseChunk) :=
  match chunks.getLast? with
  | none => none
  | some last =>
    if last.address = chunk.address then some chunks
    else if last.isEmpty g then none
    else some ((chunks.set index last).set (chunks.length - 1) chunk)

/-- What follows once `chunk` at `index`, which is not the last one, is empty. -/
def releaseLast (s : FixedAllocator) (index : Nat) (chunk last : SGBaseChunk) :
    Option FixedAllocator := do
  let chunks := if last.isEmpty g then s.chunks.dropLast else s.chunks
  let chunks ← exchangeWithLast g index chunk chunks
  let cached ← s.allocChunk
  let allocChunk ← deref cached chunks
  some { s with
    chunks := chunks
    allocChunk := some (if allocChunk.isEmpty g then chunk.address else cached) }

def deallocate (s : FixedAllocator) (p : Nat) : Option FixedAllocator := do
  let start ← s.deallocIdx
  let index ← findChunk g p s.chunks s.chunks.length (some start) (start + 1)
  let chunk ← s.chunks[index]?
  let chunk ← chunk.deallocateBlock g p
  let s := { s with
    chunks := s.chunks.set index chunk
    deallocIdx := some index
    live := s.live.erase p }
  if !chunk.isEmpty g then some s
  else
    let s := { s with deallocIdx := some 0 }
    let last ← s.chunks.getLast?
    if last.address = chunk.address then some s else releaseLast g s index chunk last

-- Runs

/-- A client allocates, with what `malloc` returns should a new chunk be
needed, gives a block back, or writes a byte into a block it owns. -/
inductive Action where
  | allocate (address : Nat) (bytes : Nat → Nat)
  | deallocate (p : Nat)
  | write (p offset v : Nat)

def writeByte (s : FixedAllocator) (p offset v : Nat) : FixedAllocator :=
  { s with chunks := s.chunks.map fun c =>
      if c.containsPointer g p then
        { c with bytes := Function.update c.bytes (p - c.bytesAddress + offset) v }
      else c }

def step (s : FixedAllocator) : Action → Option FixedAllocator
  | .allocate address bytes => (allocate g s address bytes).map (·.2)
  | .deallocate p => deallocate g s p
  | .write p offset v => some (writeByte g s p offset v)

def Apart (c d : SGBaseChunk) : Prop :=
  c.address + 2 + g.chunkSize ≤ d.address ∨ d.address + 2 + g.chunkSize ≤ c.address

/-- What is promised to the allocator: `malloc` returns memory that is not in
use, and a client gives back and writes to blocks it owns. -/
def Contract (s : FixedAllocator) : Action → Prop
  | .allocate address bytes => ∀ c ∈ s.chunks, Apart g (init g address bytes) c
  | .deallocate p => p ∈ s.live
  | .write p offset _ => p ∈ s.live ∧ offset < g.blockSize

instance : DecidableRel (Apart g) := fun _ _ => inferInstanceAs (Decidable (_ ∨ _))

instance (s : FixedAllocator) : DecidablePred (Contract g s)
  | .allocate _ _ => inferInstanceAs (Decidable (∀ c ∈ s.chunks, Apart g _ c))
  | .deallocate p => inferInstanceAs (Decidable (p ∈ s.live))
  | .write _ _ _ => inferInstanceAs (Decidable (_ ∧ _))

/-- A deallocation that empties its chunk does not release the cached chunk:
the last chunk is not another empty chunk that is the cached one. -/
def KeepsAllocChunk (s : FixedAllocator) : Action → Prop
  | .deallocate p => ∀ c ∈ s.chunks, c.containsPointer g p = true →
      c.blocksAvailable + 1 = g.numBlocks → ∀ last, s.chunks.getLast? = some last →
      last.address ≠ c.address → last.isEmpty g = true → s.allocChunk ≠ some last.address
  | _ => True

-- Chunks and live blocks

/-- The live blocks are the used blocks of the chunks. The order of the chunks
does not matter here. -/
structure Owns (chunks : List SGBaseChunk) (live : List Nat) : Prop where
  ok : ∀ c ∈ chunks, Ok g c
  apart : chunks.Pairwise (Apart g)
  owned : ∀ p, p ∈ live ↔ ∃ c ∈ chunks, ∃ i, Used g c i ∧ p = c.block g i
  nodup : live.Nodup

variable {g} {chunks chunks' rest : List SGBaseChunk} {live : List Nat} {c c' d : SGBaseChunk}
  {address p i j : Nat} {bytes : Nat → Nat} {s s' : FixedAllocator}

theorem Apart.symm (h : Apart g c d) : Apart g d c := Or.symm h

theorem Apart.address_ne (h : Apart g c d) : c.address ≠ d.address := by
  have hpos : 0 < g.chunkSize := Nat.mul_pos g.blockSize_pos g.numBlocks_pos
  rcases h with h | h <;> omega

theorem Apart.containsPointer (h : Apart g c d) (hc : c.containsPointer g p = true) :
    d.containsPointer g p = false := by
  by_contra hd
  rw [Bool.not_eq_false, containsPointer_iff] at hd
  rw [containsPointer_iff] at hc
  rcases h with h | h <;> omega

theorem Owns.perm (hperm : chunks.Perm chunks') (h : Owns g chunks live) : Owns g chunks' live where
  ok c hc := h.ok c (hperm.mem_iff.mpr hc)
  apart := (hperm.pairwise_iff fun h => Apart.symm h).mp h.apart
  owned p := by simpa only [hperm.mem_iff] using h.owned p
  nodup := h.nodup

theorem apart_of_address (hc : c'.address = c.address) (h : Apart g c d) : Apart g c' d := by
  rw [Apart, hc]
  exact h

theorem block_of_address (hc : c'.address = c.address) : c'.block g i = c.block g i := by
  simp [block, bytesAddress, hc]

theorem block_ne (h : Apart g c d) (hi : i < g.numBlocks) (hj : j < g.numBlocks) :
    c.block g i ≠ d.block g j := by
  intro heq
  have hc := containsPointer_block c hi
  rw [heq] at hc
  exact absurd (containsPointer_block d hj) (by simp [h.containsPointer hc])

theorem used_take (hok : Ok g c) (hfree : c.free g = i :: c'.free g) :
    Used g c' j ↔ j = i ∨ Used g c j := by
  have hi : i < g.numBlocks := hok.bound i (by simp [hfree])
  have hnodup := hok.nodup
  rw [hfree, List.nodup_cons] at hnodup
  simp only [Used, hfree, List.mem_cons, not_or]
  by_cases hj : j = i
  · simp [hj, hi, hnodup.1]
  · simp [hj]

theorem used_release (hfree : c'.free g = i :: c.free g) :
    Used g c' j ↔ j ≠ i ∧ Used g c j := by
  simp only [Used, hfree, List.mem_cons, not_or]
  tauto

theorem Owns.take (h : Owns g (c :: rest) live) (hfree : c.free g = i :: c'.free g)
    (haddress : c'.address = c.address) : Owns g (c' :: rest) (c.block g i :: live) := by
  have hok : Ok g c := h.ok c (by simp)
  have hapart := List.pairwise_cons.mp h.apart
  refine ⟨?_, ?_, ?_, ?_⟩
  · intro d hd
    rcases List.mem_cons.mp hd with rfl | hd
    · exact ok_of_free hok hfree
    · exact h.ok d (List.mem_cons_of_mem _ hd)
  · exact List.pairwise_cons.mpr
      ⟨fun d hd => apart_of_address haddress (hapart.1 d hd), hapart.2⟩
  · intro p
    simp only [List.mem_cons, h.owned, used_take hok hfree,
      block_of_address haddress, or_and_right, exists_or, exists_eq_left, or_assoc]
  · refine List.nodup_cons.mpr ⟨fun hmem => ?_, h.nodup⟩
    -- a free block is not live
    obtain ⟨d, hd, j, hj, heq⟩ := (h.owned _).mp hmem
    have hi : i < g.numBlocks := hok.bound i (by simp [hfree])
    rcases List.mem_cons.mp hd with rfl | hd
    · obtain rfl := block_inj heq
      exact hj.2 (by simp [hfree])
    · exact block_ne (hapart.1 d hd) hi hj.1 heq

theorem Owns.release (h : Owns g (c :: rest) live) (hused : Used g c i)
    (hfree : c'.free g = i :: c.free g) (haddress : c'.address = c.address) :
    Owns g (c' :: rest) (live.erase (c.block g i)) := by
  have hok : Ok g c := h.ok c (by simp)
  have hapart := List.pairwise_cons.mp h.apart
  refine ⟨?_, ?_, ?_, h.nodup.erase _⟩
  · intro d hd
    rcases List.mem_cons.mp hd with rfl | hd
    · exact ok_of_cons_free hok hused hfree
    · exact h.ok d (List.mem_cons_of_mem _ hd)
  · exact List.pairwise_cons.mpr
      ⟨fun d hd => apart_of_address haddress (hapart.1 d hd), hapart.2⟩
  · intro p
    simp only [h.nodup.mem_erase_iff, h.owned, List.mem_cons, exists_eq_or_imp,
      used_release hfree, block_of_address haddress]
    constructor
    · rintro ⟨hne, ⟨j, hj, rfl⟩ | ⟨d, hd, j, hj, rfl⟩⟩
      · exact .inl ⟨j, ⟨fun heq => hne (by rw [heq]), hj⟩, rfl⟩
      · exact .inr ⟨d, hd, j, hj, rfl⟩
    · rintro (⟨j, ⟨hne, hj⟩, rfl⟩ | ⟨d, hd, j, hj, rfl⟩)
      · exact ⟨fun heq => hne (block_inj heq), .inl ⟨j, hj, rfl⟩⟩
      · exact ⟨(block_ne (hapart.1 d hd) hused.1 hj.1).symm, .inr ⟨d, hd, j, hj, rfl⟩⟩

theorem Owns.drop (h : Owns g (c :: rest) live) (hempty : c.isEmpty g = true) :
    Owns g rest live := by
  refine ⟨fun d hd => h.ok d (List.mem_cons_of_mem _ hd), (List.pairwise_cons.mp h.apart).2,
    fun p => ?_, h.nodup⟩
  have hunused : ∀ i, ¬ Used g c i := fun i => not_used_of_isEmpty (h.ok c (by simp)) hempty
  simp [h.owned, hunused]

theorem Owns.new (h : Owns g rest live)
    (hfresh : ∀ d ∈ rest, Apart g (init g address bytes) d) :
    Owns g (init g address bytes :: rest) live := by
  refine ⟨?_, List.pairwise_cons.mpr ⟨hfresh, h.apart⟩, fun p => ?_, h.nodup⟩
  · intro d hd
    rcases List.mem_cons.mp hd with rfl | hd
    · exact ok_init
    · exact h.ok d hd
  · have hunused : ∀ i, ¬ Used g (init g address bytes) i := by
      simp [Used, free_init]
    simp [h.owned, hunused]

-- Finding chunks

/-- The search finds the owner wherever it starts: the owner is ahead of one of
the two indexes. -/
theorem findChunk_eq (hk : chunks[k]? = some c) (hc : c.containsPointer g p = true)
    (honly : ∀ {j d}, chunks[j]? = some d → d.containsPointer g p = true → j = k)
    (rounds : Nat) (lower : Option Nat) (upper : Nat)
    (hahead : (∃ l, lower = some l ∧ k ≤ l ∧ l < k + rounds) ∨ upper ≤ k ∧ k < upper + rounds) :
    findChunk g p chunks rounds lower upper = some k := by
  have hlt : k < chunks.length := (List.getElem?_eq_some_iff.mp hk).1
  induction rounds generalizing lower upper with
  | zero => rcases hahead with ⟨l, -, h₁, h₂⟩ | ⟨h₁, h₂⟩ <;> omega
  | succ rounds ih =>
    rw [findChunk]
    have hgoes : ¬ (lower = none ∧ chunks.length ≤ upper) := by
      rintro ⟨rfl, hupper⟩
      rcases hahead with ⟨l, hl, -⟩ | ⟨h₁, h₂⟩
      · cases hl
      · omega
    rw [if_neg hgoes]
    split
    · next hlower =>
      obtain ⟨l, rfl, d, hd, hcontains⟩ := by
        simpa only [Option.any_eq_true] using hlower
      rw [honly hd hcontains]
    · next hlower =>
      split
      · next hupper =>
        obtain ⟨d, hd, hcontains⟩ := by simpa only [Option.any_eq_true] using hupper
        rw [honly hd hcontains]
      · next hupper =>
        apply ih
        rcases hahead with ⟨l, rfl, hkl, hround⟩ | ⟨hku, hround⟩
        · have hne : l ≠ k := by
            rintro rfl
            exact hlower (by simp [hk, hc])
          exact .inl ⟨l - 1, by simp [show l ≠ 0 by omega], by omega, by omega⟩
        · have hne : upper ≠ k := by
            rintro rfl
            exact hupper (by simp [hk, hc])
          rw [if_pos (by omega)]
          exact .inr ⟨by omega, by omega⟩

theorem index_unique (hapart : chunks.Pairwise (Apart g)) (hj : chunks[j]? = some d)
    (hk : chunks[k]? = some c) (hd : d.containsPointer g p = true)
    (hc : c.containsPointer g p = true) : j = k := by
  obtain ⟨hjlt, rfl⟩ := List.getElem?_eq_some_iff.mp hj
  obtain ⟨hklt, rfl⟩ := List.getElem?_eq_some_iff.mp hk
  rw [List.pairwise_iff_getElem] at hapart
  rcases Nat.lt_trichotomy j k with hlt | heq | hgt
  · exact absurd hc (by simp [(hapart j k hjlt hklt hlt).containsPointer hd])
  · exact heq
  · exact absurd hd (by simp [(hapart k j hklt hjlt hgt).containsPointer hc])

theorem deref_eq (hapart : chunks.Pairwise (Apart g)) (hc : c ∈ chunks) :
    deref c.address chunks = some c := by
  induction chunks with
  | nil => cases hc
  | cons d chunks ih =>
    obtain ⟨hd, hrest⟩ := List.pairwise_cons.mp hapart
    rcases List.mem_cons.mp hc with rfl | hc
    · simp [deref]
    · have hne : d.address ≠ c.address := (hd c hc).address_ne
      simpa [deref, hne] using ih hrest hc

theorem deref_eq_none : deref a chunks = none ↔ ∀ c ∈ chunks, c.address ≠ a := by
  simp [deref]

theorem replaceChunk_eq (hapart : (pre ++ c :: post).Pairwise (Apart g))
    (haddress : c'.address = c.address) :
    replaceChunk c' (pre ++ c :: post) = pre ++ c' :: post := by
  have hkeep : ∀ xs : List SGBaseChunk, (∀ d ∈ xs, Apart g c d) → replaceChunk c' xs = xs := by
    intro xs hxs
    induction xs with
    | nil => rfl
    | cons d xs ih =>
      have hne : d.address ≠ c'.address := by
        rw [haddress]
        exact (hxs d (by simp)).address_ne.symm
      simp only [replaceChunk, List.map_cons, if_neg hne, List.cons.injEq, true_and]
      exact ih fun e he => hxs e (List.mem_cons_of_mem d he)
  obtain ⟨-, hpost, hpre⟩ := List.pairwise_append.mp hapart
  have hpost := (List.pairwise_cons.mp hpost).1
  have hpre : ∀ d ∈ pre, Apart g c d := fun d hd => (hpre d hd c (by simp)).symm
  have happend : replaceChunk c' (pre ++ c :: post) =
      replaceChunk c' pre ++ c' :: replaceChunk c' post := by
    simp [replaceChunk, haddress]
  rw [happend, hkeep pre hpre, hkeep post hpost]

-- The invariant

structure Inv (g : Geometry) (s : FixedAllocator) : Prop where
  owns : Owns g s.chunks s.live
  onlyLast : ∀ c ∈ s.chunks.dropLast, c.isEmpty g = false
  alloc : s.allocChunk = none ∧ s.chunks = [] ∨ ∃ c ∈ s.chunks, s.allocChunk = some c.address
  dealloc : s.chunks ≠ [] → ∃ d, s.deallocIdx = some d ∧ d < s.chunks.length

theorem inv_initial : Inv g initial :=
  ⟨⟨by simp [initial], by simp [initial], by simp [initial], by simp [initial]⟩,
    by simp [initial], .inl ⟨rfl, rfl⟩, by simp [initial]⟩

theorem mem_dropLast_append : d ∈ (pre ++ c :: post).dropLast ↔
    d ∈ pre ∨ d = c ∧ post ≠ [] ∨ d ∈ post.dropLast := by
  rw [List.dropLast_append_of_ne_nil (by simp), List.mem_append]
  cases post with
  | nil => simp
  | cons e post => simp [List.dropLast_cons_cons]

theorem allocateFrom_inv (howns : Owns g (pre ++ c :: post) s.live)
    (hchunks : s.chunks = pre ++ c :: post) (hpre : ∀ d ∈ pre, d.isEmpty g = false)
    (hpost : ∀ d ∈ post.dropLast, d.isEmpty g = false)
    (hdealloc : ∃ d, s.deallocIdx = some d ∧ d < s.chunks.length)
    (havail : 0 < c.blocksAvailable) :
    ∃ p s', allocateFrom g s c = some (p, s') ∧ s'.live = p :: s.live ∧ Inv g s' := by
  have hok : Ok g c := howns.ok c (by simp)
  obtain ⟨i, rest, c', hfree, halloc, hfree', haddress, havail'⟩ :=
    allocateBlock_spec (g := g) havail
  rw [← hfree'] at hfree
  have hreplace : replaceChunk c' s.chunks = pre ++ c' :: post := by
    rw [hchunks]
    exact replaceChunk_eq howns.apart haddress
  refine ⟨c.block g i, { s with
    chunks := pre ++ c' :: post
    allocChunk := some c.address
    live := c.block g i :: s.live }, by simp only [allocateFrom, halloc, hreplace], rfl, ?_⟩
  refine ⟨?_, ?_, .inr ⟨c', by simp, by simp [haddress]⟩, ?_⟩
  · have hhead : Owns g (c :: (pre ++ post)) s.live := howns.perm List.perm_middle
    exact (hhead.take hfree haddress).perm List.perm_middle.symm
  · intro d hd
    rcases mem_dropLast_append.mp hd with hd | ⟨rfl, -⟩ | hd
    · exact hpre d hd
    · have hle := blocksAvailable_le hok
      rw [isEmpty, beq_eq_false_iff_ne]
      omega
    · exact hpost d hd
  · intro _
    obtain ⟨d, hd, hlt⟩ := hdealloc
    exact ⟨d, hd, by simpa [hchunks] using hlt⟩

theorem allocateNew_inv (howns : Owns g s.chunks s.live)
    (hfull : ∀ c ∈ s.chunks, c.blocksAvailable = 0)
    (hfresh : ∀ c ∈ s.chunks, Apart g (init g address bytes) c) :
    ∃ p s', allocateNew g s address bytes = some (p, s') ∧ s'.live = p :: s.live ∧ Inv g s' := by
  have hnew : Owns g (s.chunks ++ [init g address bytes]) s.live :=
    (howns.new hfresh).perm (List.perm_append_singleton _ _).symm
  have hnonempty : ∀ c ∈ s.chunks, c.isEmpty g = false := by
    intro c hc
    have hpos := g.numBlocks_pos
    rw [isEmpty, beq_eq_false_iff_ne, hfull c hc]
    omega
  exact allocateFrom_inv hnew rfl hnonempty (by simp) ⟨0, rfl, by simp⟩ g.numBlocks_pos

theorem allocate_inv (hinv : Inv g s) (hfresh : ∀ c ∈ s.chunks, Apart g (init g address bytes) c) :
    ∃ p s', allocate g s address bytes = some (p, s') ∧ s'.live = p :: s.live ∧ Inv g s' := by
  have hfrom : ∀ {c}, c ∈ s.chunks → 0 < c.blocksAvailable →
      ∃ p s', allocateFrom g s c = some (p, s') ∧ s'.live = p :: s.live ∧ Inv g s' := by
    intro c hc havail
    obtain ⟨pre, post, hchunks⟩ := List.append_of_mem hc
    have honly := hinv.onlyLast
    rw [hchunks] at honly
    exact allocateFrom_inv (hchunks ▸ hinv.owns) hchunks
      (fun d hd => honly d (mem_dropLast_append.mpr (.inl hd)))
      (fun d hd => honly d (mem_dropLast_append.mpr (.inr (.inr hd))))
      (hinv.dealloc (List.ne_nil_of_mem hc)) havail
  rcases hinv.alloc with ⟨hnone, hempty⟩ | ⟨c, hc, hcached⟩
  · simp only [allocate, hnone, hempty, List.isEmpty_nil, if_true]
    exact allocateNew_inv hinv.owns (by simp [hempty]) hfresh
  · simp only [allocate, hcached, deref_eq hinv.owns.apart hc]
    split
    · next havail => exact hfrom hc havail
    · cases hfind : s.chunks.find? (0 < ·.blocksAvailable) with
      | some d =>
        exact hfrom (List.mem_of_find?_eq_some hfind) (by simpa using List.find?_some hfind)
      | none =>
        exact allocateNew_inv hinv.owns (by simpa using List.find?_eq_none.mp hfind) hfresh

-- Deallocation

theorem getLast?_middle (pre post : List SGBaseChunk) (c last : SGBaseChunk) :
    (pre ++ c :: (post ++ [last])).getLast? = some last := by
  rw [← List.cons_append, ← List.append_assoc, List.getLast?_concat]

def givenBack (s : FixedAllocator) (p index : Nat) (chunks : List SGBaseChunk) : FixedAllocator :=
  { s with chunks := chunks, deallocIdx := some index, live := s.live.erase p }

theorem deallocate_eq (hinv : Inv g s) (hp : p ∈ s.live) :
    ∃ pre c post i c', s.chunks = pre ++ c :: post ∧ Used g c i ∧ p = c.block g i ∧
      c'.free g = i :: c.free g ∧ c'.address = c.address ∧
      c'.blocksAvailable = c.blocksAvailable + 1 ∧
      deallocate g s p =
        if c'.isEmpty g then
          match post.getLast? with
          | none => some (givenBack s p 0 (pre ++ c' :: post))
          | some last => releaseLast g (givenBack s p 0 (pre ++ c' :: post)) pre.length c' last
        else some (givenBack s p pre.length (pre ++ c' :: post)) := by
  obtain ⟨c, hc, i, hused, rfl⟩ := (hinv.owns.owned p).mp hp
  obtain ⟨c', hdealloc, hfree, haddress, havail⟩ :=
    deallocateBlock_spec (hinv.owns.ok c hc) hused
  obtain ⟨pre, post, hchunks⟩ := List.append_of_mem hc
  obtain ⟨start, hstart, hlt⟩ := hinv.dealloc (List.ne_nil_of_mem hc)
  have hk : s.chunks[pre.length]? = some c := by simp [hchunks]
  have hcontains : c.containsPointer g (c.block g i) = true := containsPointer_block c hused.1
  have honly : ∀ {j d}, s.chunks[j]? = some d → d.containsPointer g (c.block g i) = true →
      j = pre.length := fun hj hd => index_unique hinv.owns.apart hj hk hd hcontains
  have hfind : findChunk g (c.block g i) s.chunks s.chunks.length (some start) (start + 1) =
      some pre.length := by
    have hlen : pre.length < s.chunks.length := (List.getElem?_eq_some_iff.mp hk).1
    refine findChunk_eq hk hcontains honly _ _ _ ?_
    rcases Nat.lt_or_ge start pre.length with h | h
    · exact .inr ⟨by omega, by omega⟩
    · exact .inl ⟨start, rfl, h, by omega⟩
  have hset : s.chunks.set pre.length c' = pre ++ c' :: post := by simp [hchunks]
  refine ⟨pre, c, post, i, c', hchunks, hused, rfl, hfree, haddress, havail, ?_⟩
  simp only [deallocate, hstart, hfind, hk, hdealloc, hset, Option.bind_eq_bind, Option.bind_some]
  cases hempty : c'.isEmpty g with
  | false => simp [givenBack]
  | true =>
    rcases List.eq_nil_or_concat post with rfl | ⟨post, last, rfl⟩
    · simp [givenBack]
    · have hne : last.address ≠ c'.address := by
        obtain ⟨-, hcons, -⟩ := List.pairwise_append.mp (hchunks ▸ hinv.owns.apart)
        rw [haddress]
        exact ((List.pairwise_cons.mp hcons).1 last (by simp)).address_ne.symm
      simp only [List.concat_eq_append, getLast?_middle, Option.bind_some, if_neg hne]
      simp [givenBack]

theorem exchangeWithLast_eq (hapart : (pre ++ c :: post).Pairwise (Apart g))
    (hpost : ∀ d ∈ post, d.isEmpty g = false) :
    ∃ others, exchangeWithLast g pre.length c (pre ++ c :: post) = some (others ++ [c]) ∧
      others.Perm (pre ++ post) := by
  rcases List.eq_nil_or_concat post with rfl | ⟨post, last, rfl⟩
  · exact ⟨pre, by simp [exchangeWithLast], by simp⟩
  · have hne : last.address ≠ c.address := by
      obtain ⟨-, hcons, -⟩ := List.pairwise_append.mp hapart
      exact ((List.pairwise_cons.mp hcons).1 last (by simp)).address_ne.symm
    refine ⟨pre ++ last :: post, ?_, ?_⟩
    · have hset : (pre ++ c :: (post ++ [last])).set pre.length last =
          pre ++ last :: (post ++ [last]) := by simp
      have hlength : (pre ++ c :: (post ++ [last])).length - 1 =
          (pre ++ last :: post).length := by simp
      rw [List.concat_eq_append, exchangeWithLast, getLast?_middle]
      simp only [hne, if_false, hpost last (by simp), Bool.false_eq_true, hset, hlength]
      rw [show pre ++ last :: (post ++ [last]) = (pre ++ last :: post) ++ [last] by simp,
        List.set_append_right _ _ (Nat.le_refl _)]
      simp
    · rw [List.concat_eq_append, ← List.append_assoc]
      exact List.perm_middle.trans (List.perm_append_singleton last _).symm

/-- The chunks that stay when the last one, if it is empty, is released. -/
def keptChunks (g : Geometry) (post : List SGBaseChunk) (last : SGBaseChunk) : List SGBaseChunk :=
  if last.isEmpty g then post else post ++ [last]

theorem keptChunks_nonempty (hpost : ∀ d ∈ post, d.isEmpty g = false)
    (hd : d ∈ keptChunks g post last) : d.isEmpty g = false := by
  rw [keptChunks] at hd
  split at hd
  · exact hpost d hd
  · next hlast =>
    rcases List.mem_append.mp hd with hd | hd
    · exact hpost d hd
    · rw [List.mem_singleton.mp hd]
      exact Bool.eq_false_iff.mpr hlast

theorem releaseLast_eq (hapart : (pre ++ c :: (post ++ [last])).Pairwise (Apart g))
    (hpost : ∀ d ∈ post, d.isEmpty g = false) (hchunks : s.chunks = pre ++ c :: (post ++ [last]))
    (hcached : s.allocChunk = some a) :
    ∃ others, others.Perm (pre ++ keptChunks g post last) ∧
      releaseLast g s pre.length c last =
        (deref a (others ++ [c])).map fun allocChunk => { s with
          chunks := others ++ [c]
          allocChunk := some (if allocChunk.isEmpty g then c.address else a) } := by
  have hdrop : (if last.isEmpty g then s.chunks.dropLast else s.chunks) =
      pre ++ c :: keptChunks g post last := by
    rw [hchunks, keptChunks]
    split
    · rw [← List.cons_append, ← List.append_assoc, List.dropLast_concat]
    · rfl
  have hsub : (pre ++ c :: keptChunks g post last).Pairwise (Apart g) := by
    refine hapart.sublist ((List.Sublist.refl pre).append (.cons_cons c ?_))
    rw [keptChunks]
    split
    · exact List.sublist_append_left post [last]
    · exact List.Sublist.refl _
  obtain ⟨others, hexchange, hperm⟩ := exchangeWithLast_eq hsub fun d hd =>
    keptChunks_nonempty hpost hd
  refine ⟨others, hperm, ?_⟩
  simp only [releaseLast, hdrop, hexchange, hcached, Option.bind_eq_bind, Option.bind_some]
  cases deref a (others ++ [c]) <;> rfl

theorem isEmpty_eq_true : c.isEmpty g = true ↔ c.blocksAvailable = g.numBlocks := by
  simp [isEmpty]

/-- The chunks around one of them, when only the last can be empty. -/
theorem onlyLast_split (h : ∀ d ∈ (pre ++ c :: post).dropLast, d.isEmpty g = false) :
    (∀ d ∈ pre, d.isEmpty g = false) ∧ ∀ d ∈ post.dropLast, d.isEmpty g = false :=
  ⟨fun d hd => h d (mem_dropLast_append.mpr (.inl hd)),
    fun d hd => h d (mem_dropLast_append.mpr (.inr (.inr hd)))⟩

theorem exists_address_replace (haddress : c'.address = c.address)
    (h : ∃ d ∈ pre ++ c :: post, a = some d.address) :
    ∃ d ∈ pre ++ c' :: post, a = some d.address := by
  obtain ⟨d, hd, rfl⟩ := h
  simp only [List.mem_append, List.mem_cons] at hd ⊢
  rcases hd with hd | rfl | hd
  · exact ⟨d, .inl hd, rfl⟩
  · exact ⟨c', .inr (.inl rfl), by rw [haddress]⟩
  · exact ⟨d, .inr (.inr hd), rfl⟩

/-- The emptied chunk is the last one after `releaseLast`, and the cached chunk
is still in the array. -/
theorem releaseLast_inv (howns : Owns g (pre ++ c :: (post ++ [last])) s.live)
    (hpre : ∀ d ∈ pre, d.isEmpty g = false) (hpost : ∀ d ∈ post, d.isEmpty g = false)
    (hchunks : s.chunks = pre ++ c :: (post ++ [last]))
    (hcached : ∃ d ∈ s.chunks, s.allocChunk = some d.address)
    (hkeep : last.isEmpty g = true → s.allocChunk ≠ some last.address)
    (hdealloc : s.deallocIdx = some 0) :
    ∃ s', releaseLast g s pre.length c last = some s' ∧ s'.live = s.live ∧ Inv g s' := by
  obtain ⟨cached, hmem, hcached⟩ := hcached
  obtain ⟨others, hperm, hrelease⟩ := releaseLast_eq howns.apart hpost hchunks hcached
  have hothers : (others ++ [c]).Perm (pre ++ c :: keptChunks g post last) :=
    (hperm.append_right [c]).trans
      ((List.perm_append_singleton c _).trans List.perm_middle.symm)
  have howns' : Owns g (others ++ [c]) s.live := by
    refine Owns.perm hothers.symm ?_
    rw [keptChunks]
    split
    · next hempty =>
      refine Owns.drop (Owns.perm ?_ howns) hempty
      rw [← List.cons_append, ← List.append_assoc]
      exact List.perm_append_singleton last _
    · exact howns
  have hstays : cached ∈ others ++ [c] := by
    rw [hothers.mem_iff]
    rw [hchunks] at hmem
    rw [keptChunks]
    split
    · next hempty =>
      have hne : cached ≠ last := fun heq => hkeep hempty (by rw [hcached, heq])
      simpa [hne] using hmem
    · exact hmem
  have hderef := deref_eq howns'.apart hstays
  refine ⟨{ s with
    chunks := others ++ [c]
    allocChunk := some (if cached.isEmpty g then c.address else cached.address) },
    by rw [hrelease, hderef, Option.map_some], rfl, howns', ?_, .inr ?_,
    fun _ => ⟨0, hdealloc, by simp⟩⟩
  · intro d hd
    simp only [List.dropLast_concat] at hd
    rcases List.mem_append.mp (hperm.mem_iff.mp hd) with hd | hd
    · exact hpre d hd
    · exact keptChunks_nonempty hpost hd
  · split
    · exact ⟨c, by simp, rfl⟩
    · exact ⟨cached, hstays, rfl⟩

theorem deallocate_inv (hinv : Inv g s) (hp : p ∈ s.live)
    (hkeep : KeepsAllocChunk g s (.deallocate p)) :
    ∃ s', deallocate g s p = some s' ∧ s'.live = s.live.erase p ∧ Inv g s' := by
  obtain ⟨pre, c, post, i, c', hchunks, hused, rfl, hfree, haddress, havail, hdealloc⟩ :=
    deallocate_eq hinv hp
  have hc : c ∈ s.chunks := by simp [hchunks]
  have howns : Owns g (pre ++ c' :: post) (s.live.erase (c.block g i)) := by
    have hhead : Owns g (c :: (pre ++ post)) s.live := (hchunks ▸ hinv.owns).perm List.perm_middle
    exact (hhead.release hused hfree haddress).perm List.perm_middle.symm
  obtain ⟨hpre, hpost⟩ := onlyLast_split (hchunks ▸ hinv.onlyLast)
  have hcached : ∃ d ∈ s.chunks, s.allocChunk = some d.address :=
    hinv.alloc.resolve_left fun h => by simp [h.2] at hc
  have hcached' : ∃ d ∈ pre ++ c' :: post, s.allocChunk = some d.address :=
    exists_address_replace haddress (hchunks ▸ hcached)
  rw [hdealloc]
  split
  · next hempty =>
    rcases List.eq_nil_or_concat post with rfl | ⟨post, last, rfl⟩
    · refine ⟨_, rfl, rfl, howns, ?_, .inr hcached', fun _ => ⟨0, rfl, by simp [givenBack]⟩⟩
      simpa [givenBack] using hpre
    · rw [List.concat_eq_append] at *
      simp only [List.getLast?_concat]
      refine releaseLast_inv howns hpre (by simpa using hpost) rfl hcached' ?_ rfl
      intro hlast
      have hne : last.address ≠ c.address := by
        obtain ⟨-, hcons, -⟩ := List.pairwise_append.mp howns.apart
        rw [← haddress]
        exact ((List.pairwise_cons.mp hcons).1 last (by simp)).address_ne.symm
      exact hkeep c hc (containsPointer_block c hused.1)
        (by rw [← havail]; exact isEmpty_eq_true.mp hempty) last
        (by rw [hchunks, getLast?_middle]) hne hlast
  · next hempty =>
    refine ⟨_, rfl, rfl, howns, ?_, .inr hcached', fun _ => ⟨_, rfl, by simp [givenBack]⟩⟩
    intro d hd
    rcases mem_dropLast_append.mp hd with hd | ⟨rfl, -⟩ | hd
    · exact hpre d hd
    · exact Bool.eq_false_iff.mpr hempty
    · exact hpost d hd

theorem deallocate_eq_none (hinv : Inv g s) (hp : p ∈ s.live)
    (hkeep : ¬ KeepsAllocChunk g s (.deallocate p)) : deallocate g s p = none := by
  simp only [KeepsAllocChunk, not_forall, not_not] at hkeep
  obtain ⟨c₀, hc₀, hcontains, hone, last₀, hlast₀, hne, hlastEmpty, hcached⟩ := hkeep
  obtain ⟨pre, c, post, i, c', hchunks, hused, rfl, hfree, haddress, havail, hdealloc⟩ :=
    deallocate_eq hinv hp
  obtain rfl : c₀ = c := by
    obtain ⟨j, hj⟩ := List.getElem?_of_mem hc₀
    have hk : s.chunks[pre.length]? = some c := by simp [hchunks]
    have hindex := index_unique hinv.owns.apart hj hk hcontains (containsPointer_block c hused.1)
    rw [hindex] at hj
    exact Option.some.inj (hj.symm.trans hk)
  have hempty : c'.isEmpty g = true := isEmpty_eq_true.mpr (havail.trans hone)
  rw [hdealloc, if_pos hempty]
  rcases List.eq_nil_or_concat post with rfl | ⟨post, last, rfl⟩
  · simp only [hchunks, List.getLast?_concat, Option.some.injEq] at hlast₀
    exact absurd (by rw [hlast₀]) hne
  · rw [List.concat_eq_append] at *
    obtain rfl : last = last₀ := by
      rw [hchunks, getLast?_middle] at hlast₀
      exact Option.some.inj hlast₀
    have hhead : Owns g (c₀ :: (pre ++ (post ++ [last]))) s.live :=
      (hchunks ▸ hinv.owns).perm List.perm_middle
    have howns := (hhead.release hused hfree haddress).perm List.perm_middle.symm
    obtain ⟨-, hpost⟩ := onlyLast_split (hchunks ▸ hinv.onlyLast)
    obtain ⟨others, hperm, hrelease⟩ := releaseLast_eq
      (s := givenBack s (c₀.block g i) 0 (pre ++ c' :: (post ++ [last]))) howns.apart
      (by simpa using hpost) rfl hcached
    simp only [List.getLast?_concat, hrelease, Option.map_eq_none_iff, deref_eq_none]
    -- the last chunk is apart from all others
    intro d hd
    have hmem : d ∈ pre ++ c' :: post := by
      rcases List.mem_append.mp hd with hd | hd
      · have := hperm.mem_iff.mp hd
        rw [keptChunks, if_pos hlastEmpty] at this
        simp only [List.mem_append, List.mem_cons] at this ⊢
        tauto
      · simp [List.mem_singleton.mp hd]
    have hapart := howns.apart
    rw [← List.cons_append, ← List.append_assoc] at hapart
    exact ((List.pairwise_append.mp hapart).2.2 d hmem last (by simp)).address_ne

-- Whole runs

theorem Inv.map {f : SGBaseChunk → SGBaseChunk} (hinv : Inv g s)
    (hf : ∀ c ∈ s.chunks, (f c).address = c.address ∧ (f c).free g = c.free g ∧
      (f c).blocksAvailable = c.blocksAvailable) : Inv g { s with chunks := s.chunks.map f } := by
  refine ⟨⟨?_, ?_, ?_, hinv.owns.nodup⟩, ?_, ?_, ?_⟩
  · intro d hd
    obtain ⟨c, hc, rfl⟩ := List.mem_map.mp hd
    have hok := hinv.owns.ok c hc
    exact ⟨by rw [(hf c hc).2.1]; exact hok.nodup, by rw [(hf c hc).2.1]; exact hok.bound⟩
  · refine List.pairwise_map.mpr (hinv.owns.apart.imp_of_mem fun {c d} hc hd h => ?_)
    exact (apart_of_address (hf d hd).1 (apart_of_address (hf c hc).1 h).symm).symm
  · intro p
    rw [hinv.owns.owned p]
    constructor
    · rintro ⟨c, hc, i, hused, rfl⟩
      refine ⟨f c, List.mem_map_of_mem hc, i, ?_, (block_of_address (hf c hc).1).symm⟩
      rw [Used, (hf c hc).2.1]
      exact hused
    · rintro ⟨d, hd, i, hused, rfl⟩
      obtain ⟨c, hc, rfl⟩ := List.mem_map.mp hd
      rw [Used, (hf c hc).2.1] at hused
      exact ⟨c, hc, i, hused, block_of_address (hf c hc).1⟩
  · intro d hd
    rw [← List.map_dropLast] at hd
    obtain ⟨c, hc, rfl⟩ := List.mem_map.mp hd
    rw [isEmpty, (hf c (List.dropLast_subset _ hc)).2.2]
    exact hinv.onlyLast c hc
  · refine hinv.alloc.imp (fun h => ⟨h.1, by simp [h.2]⟩) ?_
    rintro ⟨c, hc, hcached⟩
    exact ⟨f c, List.mem_map_of_mem hc, by rw [hcached, (hf c hc).1]⟩
  · intro hne
    simpa using hinv.dealloc (by simpa using hne)

theorem writeByte_inv (hinv : Inv g s) (hp : p ∈ s.live) (hoffset : offset < g.blockSize) :
    Inv g (writeByte g s p offset v) := by
  obtain ⟨c, hc, i, hused, rfl⟩ := (hinv.owns.owned p).mp hp
  refine hinv.map fun d hd => ?_
  split
  · next hcontains =>
    obtain ⟨j, hj⟩ := List.getElem?_of_mem hd
    obtain ⟨k, hk⟩ := List.getElem?_of_mem hc
    have hindex := index_unique hinv.owns.apart hj hk hcontains (containsPointer_block c hused.1)
    obtain rfl : d = c := by
      rw [hindex] at hj
      exact Option.some.inj (hj.symm.trans hk)
    exact ⟨rfl, by rw [block_sub]; exact free_write hused hoffset, rfl⟩
  · exact ⟨rfl, rfl, rfl⟩

theorem step_inv (hinv : Inv g s) (hcontract : Contract g s a) (hkeep : KeepsAllocChunk g s a) :
    ∃ s', step g s a = some s' ∧ Inv g s' := by
  cases a with
  | allocate address bytes =>
    obtain ⟨p, s', halloc, -, hinv'⟩ := allocate_inv hinv hcontract
    exact ⟨s', by simp [step, halloc], hinv'⟩
  | deallocate p =>
    obtain ⟨s', hdealloc, -, hinv'⟩ := deallocate_inv hinv hcontract hkeep
    exact ⟨s', hdealloc, hinv'⟩
  | write p offset v => exact ⟨_, rfl, writeByte_inv hinv hcontract.1 hcontract.2⟩

theorem step_eq_none (hinv : Inv g s) (hcontract : Contract g s a)
    (hkeep : ¬ KeepsAllocChunk g s a) : step g s a = none := by
  cases a with
  | allocate address bytes => exact absurd trivial hkeep
  | deallocate p => exact deallocate_eq_none hinv hcontract hkeep
  | write p offset v => exact absurd trivial hkeep

structure Sound (g : Geometry) (s : FixedAllocator) : Prop where
  distinct : s.live.Nodup
  apart : ∀ p ∈ s.live, ∀ q ∈ s.live, p ≠ q → p + g.blockSize ≤ q ∨ q + g.blockSize ≤ p
  oneChunk : ∀ p ∈ s.live, ∃ (k : Nat) (c : SGBaseChunk), s.chunks[k]? = some c ∧
    c.bytesAddress ≤ p ∧ p + g.blockSize ≤ c.bytesAddress + g.chunkSize ∧
    ∀ (j : Nat) (d : SGBaseChunk), s.chunks[j]? = some d → d.containsPointer g p = true → j = k
  emptyLast : ∀ (k : Nat) (c : SGBaseChunk), s.chunks[k]? = some c → c.isEmpty g = true →
    k + 1 = s.chunks.length
  alloc : ∀ a, s.allocChunk = some a → ∃ c ∈ s.chunks, c.address = a
  dealloc : s.chunks ≠ [] → ∃ d, s.deallocIdx = some d ∧ d < s.chunks.length

theorem eq_or_apart (hapart : chunks.Pairwise (Apart g)) (hc : c ∈ chunks) (hd : d ∈ chunks) :
    c = d ∨ Apart g c d := by
  obtain ⟨j, hj, rfl⟩ := List.getElem_of_mem hc
  obtain ⟨k, hk, rfl⟩ := List.getElem_of_mem hd
  rw [List.pairwise_iff_getElem] at hapart
  rcases Nat.lt_trichotomy j k with hlt | rfl | hgt
  · exact .inr (hapart j k hj hk hlt)
  · exact .inl rfl
  · exact .inr (hapart k j hk hj hgt).symm

theorem Inv.sound (hinv : Inv g s) : Sound g s where
  distinct := hinv.owns.nodup
  apart := by
    intro p hp q hq hne
    obtain ⟨c, hc, i, hi, rfl⟩ := (hinv.owns.owned p).mp hp
    obtain ⟨d, hd, j, hj, rfl⟩ := (hinv.owns.owned q).mp hq
    rcases eq_or_apart hinv.owns.apart hc hd with rfl | hapart
    · rcases Nat.lt_trichotomy i j with hlt | rfl | hgt
      · exact .inl (block_apart c hlt)
      · exact absurd rfl hne
      · exact .inr (block_apart c hgt)
    · have hcend := block_add_le c hi.1
      have hdend := block_add_le d hj.1
      simp only [block, bytesAddress] at hcend hdend ⊢
      rcases hapart with h | h
      · exact .inl (by omega)
      · exact .inr (by omega)
  oneChunk := by
    intro p hp
    obtain ⟨c, hc, i, hi, rfl⟩ := (hinv.owns.owned p).mp hp
    obtain ⟨k, hk⟩ := List.getElem?_of_mem hc
    exact ⟨k, c, hk, Nat.le_add_right _ _, block_add_le c hi.1, fun j d hj hd =>
      index_unique hinv.owns.apart hj hk hd (containsPointer_block c hi.1)⟩
  emptyLast := by
    intro k c hk hempty
    obtain ⟨hlt, rfl⟩ := List.getElem?_eq_some_iff.mp hk
    by_contra hlast
    have hmem : s.chunks[k] ∈ s.chunks.dropLast := by
      have hget : s.chunks.dropLast[k]? = some s.chunks[k] := by
        rw [List.getElem?_dropLast, if_pos (by omega), hk]
      exact List.mem_of_getElem? hget
    simp [hinv.onlyLast _ hmem] at hempty
  alloc := by
    intro a ha
    rcases hinv.alloc with ⟨hnone, -⟩ | ⟨c, hc, hcached⟩
    · simp [hnone] at ha
    · exact ⟨c, hc, Option.some.inj (hcached.symm.trans ha)⟩
  dealloc := hinv.dealloc

theorem run_sound_iff_of_inv (hinv : Inv g s)
    (hcontract : Run.Guarded (step g) (Contract g) s actions) :
    (∃ s', Run.run (step g) s actions = some s' ∧ Sound g s') ↔
      Run.Guarded (step g) (KeepsAllocChunk g) s actions := by
  induction actions generalizing s with
  | nil => simp [Run.run, Run.Guarded, hinv.sound]
  | cons a actions ih =>
    by_cases hkeep : KeepsAllocChunk g s a
    · obtain ⟨s₁, hstep, hinv₁⟩ := step_inv hinv hcontract.1 hkeep
      simpa [Run.run, Run.Guarded, hstep, hkeep] using ih hinv₁ (hcontract.2 s₁ hstep)
    · simp [Run.run, Run.Guarded, step_eq_none hinv hcontract.1 hkeep, hkeep]

theorem run_sound_iff (hcontract : Run.Guarded (step g) (Contract g) initial actions) :
    (∃ s, Run.run (step g) initial actions = some s ∧ Sound g s) ↔
      Run.Guarded (step g) (KeepsAllocChunk g) initial actions :=
  run_sound_iff_of_inv inv_initial hcontract

def oneByte : Geometry := ⟨1, 1, by decide, by decide, by decide⟩

/-- Two allocations and the deallocation of the first, of two chunks. -/
theorem run_sound_two_chunks :
    ∃ s, Run.run (step oneByte) initial
      [.allocate 100 fun _ => 0, .allocate 200 fun _ => 0, .deallocate 102] = some s ∧
      Sound oneByte s := by
  refine (run_sound_iff ?_).mpr ?_
  · exact Run.guarded_cons rfl (by decide) (Run.guarded_cons rfl (by decide)
      (Run.guarded_cons rfl (by decide) trivial))
  · refine Run.guarded_cons rfl trivial (Run.guarded_cons rfl trivial
      (Run.guarded_cons rfl ?_ trivial))
    intro c hc hcontains hone last hlast hne hempty
    obtain rfl := Option.some.inj hlast
    exact absurd hempty (by decide)

/-- Giving both blocks back, the last one first: the second deallocation
releases the chunk of the first and then reads it. -/
theorem run_both_deallocated_fails :
    Run.Guarded (step oneByte) (Contract oneByte) initial
      [.allocate 100 fun _ => 0, .allocate 200 fun _ => 0, .deallocate 202, .deallocate 102] ∧
    Run.run (step oneByte) initial
      [.allocate 100 fun _ => 0, .allocate 200 fun _ => 0, .deallocate 202, .deallocate 102] =
        none := by
  refine ⟨?_, rfl⟩
  exact Run.guarded_cons rfl (by decide) (Run.guarded_cons rfl (by decide)
    (Run.guarded_cons rfl (by decide) ⟨by decide, nofun⟩))

end FixedAllocator

end BathyScaphe.Foundation
