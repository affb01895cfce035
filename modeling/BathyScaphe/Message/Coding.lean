import BathyScaphe.Message.ThreadMessage

/-!
# Copying and rebuilding a message

The date setter writes the aboned flag, and both ways to rebuild a message set
the date. Both set the attributes after it, so the flag that was saved or copied
is the one that stays.
-/

namespace BathyScaphe.CMRThreadMessage

def isAboned (m : CMRThreadMessage) : Bool := m.flagAt ABONED_FLAG

def copyWithZone (m : CMRThreadMessage) : CMRThreadMessage :=
  let tmp : CMRThreadMessage := { index := m.index, name := m.name, mail := m.mail }
  let tmp := tmp.setDate m.date
  { tmp with
    beProfile := m.beProfile
    messageSource := m.messageSource
    flags := m.flags
    IDString := m.IDString
    host := m.host
    dateRepresentation := m.dateRepresentation }

structure Keeps (m m' : CMRThreadMessage) : Prop where
  index : m'.index = m.index
  name : m'.name = m.name
  mail : m'.mail = m.mail
  date : m'.date = m.date
  dateRepresentation : m'.dateRepresentation = m.dateRepresentation
  IDString : m'.IDString = m.IDString
  beProfile : m'.beProfile = m.beProfile
  host : m'.host = m.host
  messageSource : m'.messageSource = m.messageSource
  status : m'.status = m.status

theorem keeps_refl (m : CMRThreadMessage) : Keeps m m :=
  ⟨rfl, rfl, rfl, rfl, rfl, rfl, rfl, rfl, rfl, rfl⟩

theorem status_status (m : CMRThreadMessage) : { m with flags := m.status }.status = m.status :=
  Flags.and_and_of_subset rfl

theorem keeps_status (m : CMRThreadMessage) : Keeps m { m with flags := m.status } :=
  ⟨rfl, rfl, rfl, rfl, rfl, rfl, rfl, rfl, rfl, status_status m⟩

theorem isAboned_eq_of_status {m m' : CMRThreadMessage} (h : m'.status = m.status) :
    m'.isAboned = m.isAboned := by
  have hmask : ∀ m : CMRThreadMessage, m.flags &&& ABONED_FLAG = m.status &&& ABONED_FLAG := by
    intro m
    rw [status, Flags.and_and]
    rfl
  simp only [isAboned, flagAt, hmask, h]

theorem copyWithZone_eq (m : CMRThreadMessage) : m.copyWithZone = m := rfl

theorem keeps_representation_and_copy (m : CMRThreadMessage) :
    (∃ m', objectWithPropertyListRepresentation m.propertyListRepresentation = some m' ∧
      Keeps m m' ∧ m'.isAboned = m.isAboned) ∧
      Keeps m m.copyWithZone ∧ m.copyWithZone.isAboned = m.isAboned := by
  have hkeeps := keeps_status m
  refine ⟨⟨_, objectWithPropertyListRepresentation_representation m, hkeeps, ?_⟩, ?_, ?_⟩
  · exact isAboned_eq_of_status hkeeps.status
  · rw [copyWithZone_eq]
    exact keeps_refl m
  · rw [copyWithZone_eq]

/-- A message without a date that is not marked as removed stays so. -/
example : ({} : CMRThreadMessage).copyWithZone.isAboned = false := rfl

end BathyScaphe.CMRThreadMessage
