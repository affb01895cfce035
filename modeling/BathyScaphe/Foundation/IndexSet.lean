import BathyScaphe.Foundation.NSString
import Mathlib.Data.List.Sort

/-!
# Index sets

The indexes of a set in increasing order.
-/

namespace BathyScaphe

structure NSIndexSet where
  indexes : List Nat
  sorted : indexes.Pairwise (· < ·)

namespace NSIndexSet

instance : DecidableEq NSIndexSet := fun s t =>
  decidable_of_iff (s.indexes = t.indexes) (by cases s; cases t; simp)

instance : Membership Nat NSIndexSet := ⟨fun s i => i ∈ s.indexes⟩

instance (i : Nat) (s : NSIndexSet) : Decidable (i ∈ s) :=
  inferInstanceAs (Decidable (i ∈ s.indexes))

theorem mem_indexes {s : NSIndexSet} {i : Nat} : i ∈ s.indexes ↔ i ∈ s := Iff.rfl

def empty : NSIndexSet := ⟨[], .nil⟩

def count (s : NSIndexSet) : Nat := s.indexes.length

def firstIndex (s : NSIndexSet) : Option Nat := s.indexes.head?

def lastIndex (s : NSIndexSet) : Option Nat := s.indexes.getLast?

def insertIndex (i : Nat) : List Nat → List Nat
  | [] => [i]
  | j :: l => if i < j then i :: j :: l else if i = j then j :: l else j :: insertIndex i l

theorem mem_insertIndex {i j : Nat} {l : List Nat} : j ∈ insertIndex i l ↔ j = i ∨ j ∈ l := by
  induction l with
  | nil => simp [insertIndex]
  | cons k l ih =>
    rw [insertIndex]
    split
    · simp
    · split
      · rename_i heq
        simp [heq]
      · rw [List.mem_cons, ih, List.mem_cons]
        tauto

theorem sorted_insertIndex (i : Nat) {l : List Nat} (h : l.Pairwise (· < ·)) :
    (insertIndex i l).Pairwise (· < ·) := by
  induction l with
  | nil => exact List.pairwise_singleton _ _
  | cons j l ih =>
    obtain ⟨hj, hl⟩ := List.pairwise_cons.mp h
    rw [insertIndex]
    split
    · rename_i hlt
      refine List.pairwise_cons.mpr ⟨fun k hk => ?_, h⟩
      obtain rfl | hk := List.mem_cons.mp hk
      · exact hlt
      · exact hlt.trans (hj k hk)
    · split
      · exact h
      · refine List.pairwise_cons.mpr ⟨fun k hk => ?_, ih hl⟩
        obtain rfl | hk := mem_insertIndex.mp hk
        · omega
        · exact hj k hk

def addIndex (i : Nat) (s : NSIndexSet) : NSIndexSet :=
  ⟨insertIndex i s.indexes, sorted_insertIndex i s.sorted⟩

@[simp] theorem mem_addIndex {i j : Nat} {s : NSIndexSet} : j ∈ s.addIndex i ↔ j = i ∨ j ∈ s :=
  mem_insertIndex

@[simp] theorem not_mem_empty {i : Nat} : ¬ i ∈ empty := List.not_mem_nil

def addIndexes (s other : NSIndexSet) : NSIndexSet :=
  other.indexes.foldl (fun s i => s.addIndex i) s

def addIndexesInRange (range : NSRange) (s : NSIndexSet) : NSIndexSet :=
  (List.range' range.location range.length).foldl (fun s i => s.addIndex i) s

theorem mem_foldl_addIndex {l : List Nat} {s : NSIndexSet} {i : Nat} :
    i ∈ l.foldl (fun s i => s.addIndex i) s ↔ i ∈ l ∨ i ∈ s := by
  induction l generalizing s with
  | nil => simp
  | cons j l ih =>
    rw [List.foldl_cons, ih, mem_addIndex, List.mem_cons]
    tauto

@[simp] theorem mem_addIndexes {other s : NSIndexSet} {i : Nat} : i ∈ s.addIndexes other ↔
    i ∈ other ∨ i ∈ s :=
  mem_foldl_addIndex

@[simp] theorem mem_addIndexesInRange {range : NSRange} {s : NSIndexSet} {i : Nat} :
    i ∈ s.addIndexesInRange range ↔ (range.location ≤ i ∧ i < range.max) ∨ i ∈ s := by
  rw [addIndexesInRange, mem_foldl_addIndex, List.mem_range'_1, NSRange.max]

theorem nodup (s : NSIndexSet) : s.indexes.Nodup := s.sorted.imp Nat.ne_of_lt

theorem count_eq_zero_iff {s : NSIndexSet} : s.count = 0 ↔ ∀ i, ¬ i ∈ s := by
  rw [count, List.length_eq_zero_iff, List.eq_nil_iff_forall_not_mem]
  rfl

theorem ext_mem {s t : NSIndexSet} (h : ∀ i, i ∈ s ↔ i ∈ t) : s = t := by
  have hperm : s.indexes.Perm t.indexes := (List.perm_ext_iff_of_nodup s.nodup t.nodup).mpr h
  obtain ⟨l, hl⟩ := s
  obtain ⟨l', hl'⟩ := t
  have heq : l = l' := hperm.eq_of_pairwise (fun a b _ _ hab hba =>
    absurd (hab.trans hba) (Nat.lt_irrefl a)) hl hl'
  subst heq
  rfl

end NSIndexSet

end BathyScaphe
