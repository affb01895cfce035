import BathyScaphe.Message.ThreadMessage

/-!
# The saved status

The place of the temporary flags holds the version of the format in a saved word.
Version 1.0 had its mark in two of the places that are status flags now. Migration
takes the old mark out and should put the new one in, but it masks with the new mark
instead, and the mask leaves nothing of a word that has no version.
-/

namespace BathyScaphe.CMRThreadMessage

/-- A word of version 1.0 has the old mark and no version. -/
def IsVersion10 (word : UInt32) : Prop :=
  word &&& MA_VERSION_MASK = 0 ∧ word &&& MA_VERSION_1_0_MAGIC ≠ 0

instance (word : UInt32) : Decidable (IsVersion10 word) := by
  unfold IsVersion10
  infer_instance

/-- What a word of version 1.0 means: its status flags without the old mark. -/
def migrated (word : UInt32) : UInt32 :=
  (word &&& ~~~MA_VERSION_1_0_MAGIC ||| MA_VERSION_1_1_MAGIC) &&& MA_FL_NOT_TEMP_MASK

theorem and_version11_eq_zero {word : UInt32} (h : word &&& MA_VERSION_MASK = 0) :
    word &&& MA_VERSION_1_1_MAGIC = 0 := by
  rw [← Flags.and_and_of_subset (show MA_VERSION_MASK &&& MA_VERSION_1_1_MAGIC =
    MA_VERSION_1_1_MAGIC from rfl),
    h, UInt32.zero_and]

theorem attributesWithRepresentation_noVersion {word : UInt32} (h : word &&& MA_VERSION_MASK = 0) :
    attributesWithRepresentation (some (.ofUnsignedInt word)) = none := by
  have hmark := and_version11_eq_zero h
  have hmasked : word &&& ~~~MA_VERSION_1_0_MAGIC &&& MA_VERSION_1_1_MAGIC = 0 := by
    rw [Flags.and_and, UInt32.and_comm (~~~MA_VERSION_1_0_MAGIC), ← Flags.and_and,
      hmark, UInt32.zero_and]
  have hnone : ∀ flags : UInt32, flags &&& MA_VERSION_1_1_MAGIC = 0 →
    ¬ 0 < flags &&& MA_VERSION_1_1_MAGIC := by
    intro flags hflags
    rw [hflags]
    decide
  simp only [attributesWithRepresentation, PropertyList.ofUnsignedInt,
    PropertyList.unsignedIntValue_toNat]
  split
  · rw [if_neg (hnone _ (by rw [hmasked, UInt32.zero_and]))]
  · rw [if_neg (hnone _ hmark)]

/-- A saved word reads as the persistent flags. A word of version 1.0 never reads as
what it means. -/
theorem attributesWithRepresentation_iff (m : CMRThreadMessage) (word : UInt32) :
    attributesWithRepresentation (some m.attributesRepresentation) =
      some (m.flags &&& MA_FL_NOT_TEMP_MASK) ∧
      ((IsVersion10 word →
          attributesWithRepresentation (some (.ofUnsignedInt word)) = some (migrated word)) ↔
        ¬ IsVersion10 word) := by
  refine ⟨attributesWithRepresentation_attributes m, fun hreads hold => ?_, fun hnot hold =>
    absurd hold hnot⟩
  have hread := hreads hold
  rw [attributesWithRepresentation_noVersion hold.1] at hread
  cases hread

/-- A word of version 1.0 with the mark of spam. -/
theorem attributesWithRepresentation_version10_fails :
    IsVersion10 (MA_VERSION_1_0_MAGIC ||| SPAM_FLAG) ∧
      migrated (MA_VERSION_1_0_MAGIC ||| SPAM_FLAG) = SPAM_FLAG ∧
      attributesWithRepresentation (some (.ofUnsignedInt (MA_VERSION_1_0_MAGIC ||| SPAM_FLAG))) =
        none := by
  have hold : IsVersion10 (MA_VERSION_1_0_MAGIC ||| SPAM_FLAG) := by decide
  exact ⟨hold, by decide, attributesWithRepresentation_noVersion hold.1⟩

end BathyScaphe.CMRThreadMessage
