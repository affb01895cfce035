import BathyScaphe.Lib.Splice
import Mathlib.Data.List.Basic
import Mathlib.Logic.Function.Basic

/-!
# Memory in blocks

A memory hands out blocks of cells. A cell holds nothing until it is written,
and a write outside its block is no write. An address is never handed out
twice, so what is done to one block leaves all others as they are.
-/

namespace Blocks

structure Memory (α : Type u) where
  block : Nat → List (Option α)
  next : Nat

namespace Memory

variable {α : Type u} {m m' : Memory α} {xs : List α}

def empty : Memory α := ⟨fun _ => [], 0⟩

def setBlock (m : Memory α) (p : Nat) (cells : List (Option α)) : Memory α :=
  { m with block := Function.update m.block p cells }

def malloc (m : Memory α) (n : Nat) : Memory α :=
  { m.setBlock m.next (List.replicate n none) with next := m.next + 1 }

/-- The cells of the block at `p` in a block of `n` cells at the address
`m.next`; the block at `p` is given back. -/
def realloc (m : Memory α) (p n : Nat) : Memory α :=
  { (m.setBlock p []).setBlock m.next ((m.block p ++ List.replicate n none).take n) with
    next := m.next + 1 }

def write (m : Memory α) (p i : Nat) (x : α) : Option (Memory α) :=
  if i < (m.block p).length then some (m.setBlock p ((m.block p).set i (some x))) else none

def fill (m : Memory α) (p n : Nat) (x : α) : Option (Memory α) :=
  if n ≤ (m.block p).length then
    some (m.setBlock p (List.replicate n (some x) ++ (m.block p).drop n))
  else none

/-- The first `n` cells of the block at `q` go to the block at `p`. -/
def move (m : Memory α) (p q n : Nat) : Option (Memory α) :=
  if n ≤ (m.block p).length ∧ n ≤ (m.block q).length then
    some (m.setBlock p ((m.block q).take n ++ (m.block p).drop n))
  else none

/-- `n` cells of the block at `p`, from `src` on, go to the cells from `dst` on. -/
def shift (m : Memory α) (p dst src n : Nat) : Option (Memory α) :=
  if dst + n ≤ (m.block p).length ∧ src + n ≤ (m.block p).length then
    some (m.setBlock p ((m.block p).take dst ++ (((m.block p).drop src).take n ++ (m.block p).drop
      (dst + n))))
  else none

def load (m : Memory α) (p : Nat) (xs : List α) : Option (Memory α) :=
  if xs.length ≤ (m.block p).length then
    some (m.setBlock p (xs.map some ++ (m.block p).drop xs.length))
  else none

def read (m : Memory α) (p i : Nat) : Option α := ((m.block p)[i]?).join

-- What an operation does to the blocks

@[simp] theorem setBlock_block : (m.setBlock p cells).block p = cells := by simp [setBlock]

theorem setBlock_frame (hq : q ≠ p) : (m.setBlock p cells).block q = m.block q := by
  simp [setBlock, hq]

@[simp] theorem setBlock_next : (m.setBlock p cells).next = m.next := rfl

@[simp] theorem malloc_next : (m.malloc n).next = m.next + 1 := rfl

@[simp] theorem malloc_block : (m.malloc n).block m.next = List.replicate n none :=
  setBlock_block

theorem malloc_frame (hq : q ≠ m.next) : (m.malloc n).block q = m.block q := setBlock_frame hq

@[simp] theorem realloc_next : (m.realloc p n).next = m.next + 1 := rfl

@[simp] theorem realloc_block :
    (m.realloc p n).block m.next = (m.block p ++ List.replicate n none).take n := setBlock_block

theorem realloc_frame (hq : q ≠ m.next) (hp : q ≠ p) : (m.realloc p n).block q = m.block q := by
  show ((m.setBlock p []).setBlock m.next _).block q = _
  rw [setBlock_frame hq, setBlock_frame hp]

theorem write_eq_some : m.write p i x = some m' ↔
    i < (m.block p).length ∧ m.setBlock p ((m.block p).set i (some x)) = m' := by
  simp [write]

theorem write_eq_none : m.write p i x = none ↔ (m.block p).length ≤ i := by simp [write]

theorem fill_eq_some : m.fill p n x = some m' ↔ n ≤ (m.block p).length ∧
    m.setBlock p (List.replicate n (some x) ++ (m.block p).drop n) = m' := by
  simp [fill]

theorem move_eq_some : m.move p q n = some m' ↔
    (n ≤ (m.block p).length ∧ n ≤ (m.block q).length) ∧
      m.setBlock p ((m.block q).take n ++ (m.block p).drop n) = m' := by
  simp [move]

-- Blocks that begin with a list

def Holds (m : Memory α) (p : Nat) (xs : List α) : Prop :=
  (m.block p).take xs.length = xs.map some

theorem holds_nil : m.Holds p ([] : List α) := by simp [Holds]

theorem Holds.length_le (h : m.Holds p xs) : xs.length ≤ (m.block p).length := by
  have hlength := congrArg List.length h
  simp only [List.length_take, List.length_map] at hlength
  omega

theorem holds_iff : m.Holds p xs ↔ ∃ rest, m.block p = xs.map some ++ rest := by
  constructor
  · intro h
    exact ⟨(m.block p).drop xs.length, h ▸ (List.take_append_drop _ _).symm⟩
  · rintro ⟨rest, hblock⟩
    simp [Holds, hblock]

theorem Holds.congr (h : m.Holds p xs) (hblock : m'.block q = m.block p) : m'.Holds q xs := by
  unfold Holds
  rw [hblock]
  exact h

theorem Holds.read (h : m.Holds p xs) (hi : i < xs.length) : m.read p i = xs[i]? := by
  obtain ⟨rest, hblock⟩ := holds_iff.mp h
  simp [Memory.read, hblock, List.getElem?_append_left, hi]

theorem Holds.realloc (h : m.Holds p xs) (hn : xs.length ≤ n) :
    (m.realloc p n).Holds m.next xs := by
  obtain ⟨rest, hblock⟩ := holds_iff.mp h
  rw [holds_iff, realloc_block, hblock, List.append_assoc, List.take_append]
  exact ⟨_, by rw [List.take_of_length_le (by simpa using hn)]⟩

theorem Holds.append (h : m.Holds p xs) (hlength : xs.length < (m.block p).length) :
    (m.setBlock p ((m.block p).set xs.length (some x))).Holds p (xs ++ [x]) := by
  obtain ⟨rest, hblock⟩ := holds_iff.mp h
  rw [hblock, List.length_append, List.length_map] at hlength
  obtain ⟨c, rest, rfl⟩ := List.exists_cons_of_length_pos (show 0 < rest.length by omega)
  rw [holds_iff, setBlock_block, hblock]
  exact ⟨rest, by simp⟩

theorem Holds.set (h : m.Holds p xs) (hi : i < xs.length) :
    (m.setBlock p ((m.block p).set i (some x))).Holds p (xs.set i x) := by
  obtain ⟨rest, hblock⟩ := holds_iff.mp h
  rw [holds_iff, setBlock_block, hblock]
  exact ⟨rest, by simp [hi, List.map_set]⟩

theorem Holds.dropLast (h : m.Holds p xs) : m.Holds p xs.dropLast := by
  obtain ⟨rest, hblock⟩ := holds_iff.mp h
  rcases List.eq_nil_or_concat xs with rfl | ⟨ys, y, rfl⟩
  · exact holds_nil
  · exact holds_iff.mpr ⟨some y :: rest, by simp [hblock]⟩

theorem Holds.write_append (h : m.Holds p xs) (hroom : xs.length < (m.block p).length) :
    ∃ m', m.write p xs.length x = some m' ∧ (m'.block p).length = (m.block p).length ∧
      m'.Holds p (xs ++ [x]) :=
  ⟨_, write_eq_some.mpr ⟨hroom, rfl⟩, by simp, h.append hroom⟩

theorem Holds.write_set (h : m.Holds p xs) (hi : i < xs.length) :
    ∃ m', m.write p i x = some m' ∧ (m'.block p).length = (m.block p).length ∧
      m'.Holds p (xs.set i x) :=
  ⟨_, write_eq_some.mpr ⟨Nat.lt_of_lt_of_le hi h.length_le, rfl⟩, by simp, h.set hi⟩

theorem Holds.write_behind (h : m.Holds p xs) (hi : xs.length ≤ i)
    (hroom : i < (m.block p).length) :
    ∃ m', m.write p i x = some m' ∧ (m'.block p).length = (m.block p).length ∧ m'.Holds p xs := by
  refine ⟨_, write_eq_some.mpr ⟨hroom, rfl⟩, by simp, ?_⟩
  obtain ⟨rest, hblock⟩ := holds_iff.mp h
  rw [holds_iff, setBlock_block, hblock]
  exact ⟨rest.set (i - xs.length) (some x), by simp [List.set_append, Nat.not_lt.mpr hi]⟩

theorem split_at (hi : i ≤ xs.length) : ∃ front back, xs = front ++ back ∧ i = front.length :=
  ⟨xs.take i, xs.drop i, (List.take_append_drop i xs).symm, by simp [hi]⟩

theorem Holds.insert (h : m.Holds p xs) (hi : i ≤ xs.length)
    (hroom : xs.length < (m.block p).length) :
    ∃ m' m'', m.shift p (i + 1) i (xs.length - i) = some m' ∧ m'.write p i x = some m'' ∧
      (m''.block p).length = (m.block p).length ∧ m''.Holds p (xs.insertIdx i x) := by
  obtain ⟨rest, hblock⟩ := holds_iff.mp h
  obtain ⟨front, back, rfl, rfl⟩ := split_at hi
  rw [hblock] at hroom
  simp only [List.length_append, List.length_map, Nat.lt_add_right_iff_pos] at hroom
  obtain ⟨c, rest, rfl⟩ := List.exists_cons_of_length_pos hroom
  -- the block up to the cells that move, the cells, and what they move over
  obtain ⟨d, hd⟩ : ∃ d, (back.map some ++ c :: rest).take 1 = [d] := by
    cases back with
    | nil => exact ⟨c, rfl⟩
    | cons y back => exact ⟨some y, rfl⟩
  have hfront : (m.block p).take (front.length + 1) = front.map some ++ [d] := by
    have h := @List.take_length_add_append _ (front.map some) (back.map some ++ c :: rest) 1
    rw [hd, List.length_map] at h
    rw [hblock, List.map_append, List.append_assoc, h]
  have hmoved : ((m.block p).drop front.length).take back.length = back.map some := by
    simp [hblock]
  have hrest : (m.block p).drop (front.length + 1 + back.length) = rest := by
    rw [hblock, List.append_cons]
    refine List.drop_left' ?_
    simp
    omega
  refine ⟨_, _, if_pos ?_, write_eq_some.mpr ⟨?_, rfl⟩, ?_, ?_⟩
  · simp [hblock]
    omega
  · simp [hblock]
    omega
  · simp [hblock]
    omega
  · rw [holds_iff, setBlock_block, setBlock_block, hfront, List.length_append,
      Nat.add_sub_cancel_left, hmoved, hrest, Splice.insertIdx_length]
    exact ⟨rest, by simp⟩

theorem Holds.erase (h : m.Holds p xs) (hi : i < xs.length) :
    ∃ m', m.shift p i (i + 1) (xs.length - (i + 1)) = some m' ∧
      (m'.block p).length = (m.block p).length ∧ m'.Holds p (xs.eraseIdx i) := by
  obtain ⟨rest, hblock⟩ := holds_iff.mp h
  obtain ⟨front, back, rfl, rfl⟩ := split_at (Nat.le_of_lt hi)
  obtain ⟨y, back, rfl⟩ := List.exists_cons_of_length_pos (show 0 < back.length by simpa using hi)
  have hcount : (front ++ y :: back).length - (front.length + 1) = back.length := by
    simp
    omega
  have hfront : (m.block p).take front.length = front.map some := by simp [hblock]
  have hmoved : ((m.block p).drop (front.length + 1)).take back.length = back.map some := by
    have hdrop := @List.drop_length_add_append _ (front.map some)
      (some y :: (back.map some ++ rest)) 1
    rw [List.length_map] at hdrop
    rw [hblock, List.map_append, List.append_assoc, List.map_cons, List.cons_append, hdrop]
    simp
  refine ⟨_, if_pos ?_, ?_, ?_⟩
  · simp [hblock]
    omega
  · simp [hblock]
    omega
  · rw [holds_iff, setBlock_block, hcount, hfront, hmoved,
      List.eraseIdx_append_of_length_le (Nat.le_refl _), Nat.sub_self, List.eraseIdx_cons_zero]
    exact ⟨_, by rw [List.map_append, List.append_assoc]⟩

theorem holds_load (hroom : xs.length ≤ (m.block p).length) :
    ∃ m', m.load p xs = some m' ∧ (m'.block p).length = (m.block p).length ∧ m'.Holds p xs := by
  refine ⟨_, if_pos hroom, ?_, holds_iff.mpr ⟨_, setBlock_block⟩⟩
  simp
  omega

end Memory

end Blocks
