import BathyScaphe.Foundation.PropertyList
import BathyScaphe.Lib.Flags

/-!
# Messages of a thread

A message is one res: its fields as the sources keep them, each of which may be
`nil`, and the flags of its attributes. Flags above the low twenty bits are
temporary; the saved status drops them and uses their place for the version of
the format.
-/

namespace BathyScaphe

def MA_FL_NOT_TEMP_MASK : UInt32 := 0xfffff
def MA_VERSION_1_0_MAGIC : UInt32 := 0x28000
def MA_VERSION_1_1_MAGIC : UInt32 := 0x800000
def MA_VERSION_MASK : UInt32 := 0x3800000
def MA_FL_USER_USED_MASK : UInt32 := 0x3f
def ABONED_FLAG : UInt32 := 0x40
def LOCAL_ABONED_FLAG : UInt32 := 0x80
def INVISIBLE_ABONED_FLAG : UInt32 := 0x100
def ASCII_ART_FLAG : UInt32 := 0x200
def SPAM_FLAG : UInt32 := 0x400
def INVALID_FLAG : UInt32 := 0x800
def TEMP_INVISIBLE_FLAG : UInt32 := 0x1000000
def CMRInvisibleMask : UInt32 := INVISIBLE_ABONED_FLAG ||| TEMP_INVISIBLE_FLAG

/-- The date of a message is a date, or the text that was in its place. -/
inductive MessageDate where
  | date (t : Int)
  | string (s : NSString)
  deriving DecidableEq

structure CMRThreadMessage where
  index : UInt32 := 0
  name : Option NSString := none
  mail : Option NSString := none
  date : Option MessageDate := none
  dateRepresentation : Option NSString := none
  beProfile : Option (List NSString) := none
  messageSource : Option NSString := none
  IDString : Option NSString := none
  host : Option NSString := none
  flags : UInt32 := 0
  deriving DecidableEq

namespace CMRThreadMessage

def flagAt (m : CMRThreadMessage) (flag : UInt32) : Bool := 0 < m.flags &&& flag

def setFlag (m : CMRThreadMessage) (flag : UInt32) (isSet : Bool) : CMRThreadMessage :=
  { m with flags := if isSet then m.flags ||| flag else m.flags &&& ~~~flag }

def status (m : CMRThreadMessage) : UInt32 := m.flags &&& MA_FL_NOT_TEMP_MASK

def property (m : CMRThreadMessage) : UInt32 := m.flags &&& MA_FL_USER_USED_MASK

def setProperty (m : CMRThreadMessage) (property : UInt32) : CMRThreadMessage :=
  { m with
    flags := m.flags &&& ~~~MA_FL_USER_USED_MASK ||| property &&& MA_FL_USER_USED_MASK }

def clearTemporaryAttributes (m : CMRThreadMessage) : CMRThreadMessage :=
  { m with flags := m.status }

def isLocalAboned (m : CMRThreadMessage) : Bool := m.flagAt LOCAL_ABONED_FLAG
def isInvisibleAboned (m : CMRThreadMessage) : Bool := m.flagAt INVISIBLE_ABONED_FLAG
def isTemporaryInvisible (m : CMRThreadMessage) : Bool := m.flagAt TEMP_INVISIBLE_FLAG
def isSpam (m : CMRThreadMessage) : Bool := m.flagAt SPAM_FLAG

def isVisible (m : CMRThreadMessage) : Bool := !m.isInvisibleAboned && !m.isTemporaryInvisible

theorem isTemporaryInvisible_setFlag (m : CMRThreadMessage) (isSet : Bool) :
    (m.setFlag TEMP_INVISIBLE_FLAG isSet).isTemporaryInvisible = isSet := by
  cases isSet with
  | true =>
    have hset : (m.flags ||| TEMP_INVISIBLE_FLAG) &&& TEMP_INVISIBLE_FLAG ≠ 0 := by
      rw [Flags.or_and]
      intro hzero
      exact absurd (UInt32.or_eq_zero_iff.mp hzero).2 (by decide)
    exact decide_eq_true (UInt32.pos_iff_ne_zero.mpr hset)
  | false =>
    have hnone : m.flags &&& ~~~TEMP_INVISIBLE_FLAG &&& TEMP_INVISIBLE_FLAG = 0 := by
      rw [Flags.and_and, show ~~~TEMP_INVISIBLE_FLAG &&& TEMP_INVISIBLE_FLAG = 0 from rfl,
        UInt32.and_zero]
    show decide (0 < m.flags &&& ~~~TEMP_INVISIBLE_FLAG &&& TEMP_INVISIBLE_FLAG) = false
    rw [hnone]
    rfl

theorem setFlag_setFlag (m : CMRThreadMessage) (flag : UInt32) (first isSet : Bool) :
    (m.setFlag flag first).setFlag flag isSet = m.setFlag flag isSet := by
  have hflags : ∀ b : Bool,
      (if b then (if first then m.flags ||| flag else m.flags &&& ~~~flag) ||| flag
        else (if first then m.flags ||| flag else m.flags &&& ~~~flag) &&& ~~~flag) =
      if b then m.flags ||| flag else m.flags &&& ~~~flag := by
    intro b
    apply UInt32.toBitVec_inj.1
    cases b <;> cases first <;> ext i <;> cases hbit : flag.toBitVec[i] <;> simp [hbit]
  rw [setFlag, setFlag, setFlag]
  exact congrArg (fun flags => { m with flags := flags }) (hflags isSet)

def setDate (m : CMRThreadMessage) (date : Option MessageDate) : CMRThreadMessage :=
  { m with date := date }.setFlag ABONED_FLAG date.isNone

-- Property list coding

def attributesRepresentation (m : CMRThreadMessage) : PropertyList :=
  .ofUnsignedInt (m.status ||| MA_VERSION_1_1_MAGIC)

/-- `objectWithPropertyListRepresentation:` of the attributes: the status, or
`nil` for a number without the version. -/
def attributesWithRepresentation (rep : Option PropertyList) : Option UInt32 :=
  match rep with
  | some (.number n) =>
    let flags := PropertyList.unsignedIntValue n
    let flags :=
      if flags &&& MA_VERSION_MASK = 0 && flags &&& MA_VERSION_1_0_MAGIC != 0 then
        flags &&& ~~~MA_VERSION_1_0_MAGIC &&& MA_VERSION_1_1_MAGIC
      else flags
    if 0 < flags &&& MA_VERSION_1_1_MAGIC then some (flags &&& MA_FL_NOT_TEMP_MASK) else none
  | _ => none

def dateObject : MessageDate → PropertyList
  | .date t => .date t
  | .string s => .string s

/-- The date setter takes whatever object the dictionary has; only dates and
strings are ever stored. -/
def dateOfObject : PropertyList → Option MessageDate
  | .date t => some (.date t)
  | .string s => some (.string s)
  | _ => none

def stringsOfObject : PropertyList → Option (List NSString)
  | .array objects => some (objects.filterMap fun
    | .string s => some s
    | _ => none)
  | _ => none

def propertyListRepresentation (m : CMRThreadMessage) : PropertyList :=
  PropertyList.dict []
    |>.setObject (.ofUnsignedInt m.index) "Index"
    |>.setNoneNil (m.name.map .string) "Name"
    |>.setNoneNil (m.mail.map .string) "Mail"
    |>.setNoneNil (m.date.map dateObject) "Date"
    |>.setNoneNil (m.IDString.map .string) "ID"
    |>.setNoneNil (m.dateRepresentation.map .string) "DateRepresentation"
    |>.setNoneNil (m.beProfile.map fun be => .array (be.map .string)) "BeProfileLink"
    |>.setNoneNil (m.messageSource.map .string) "Message"
    |>.setNoneNil (m.host.map .string) "Host"
    |>.setNoneNil (some m.attributesRepresentation) "Status"

/-- The setters of `initializeWithPropertyListRepresentation:`. Attributes that
are `nil` are made anew when they are read, without any flag. -/
def ofDictionary (rep : PropertyList) : CMRThreadMessage :=
  let m : CMRThreadMessage := {
    index := rep.unsignedIntForKey "Index"
    name := rep.stringForKey "Name"
    mail := rep.stringForKey "Mail" }
  let m := m.setDate ((rep.objectForKey "Date").bind dateOfObject)
  { m with
    dateRepresentation := rep.stringForKey "DateRepresentation"
    IDString := rep.stringForKey "ID"
    beProfile := (rep.objectForKey "BeProfileLink").bind stringsOfObject
    messageSource := rep.stringForKey "Message"
    host := rep.stringForKey "Host"
    flags := (attributesWithRepresentation (rep.objectForKey "Status")).getD 0 }

def objectWithPropertyListRepresentation (rep : PropertyList) : Option CMRThreadMessage :=
  match rep with
  | .dict _ => some (ofDictionary rep)
  | _ => none

theorem attributesWithRepresentation_attributes (m : CMRThreadMessage) :
    attributesWithRepresentation (some m.attributesRepresentation) = some m.status := by
  have hversion : (m.status ||| MA_VERSION_1_1_MAGIC) &&& MA_VERSION_MASK =
      MA_VERSION_1_1_MAGIC := by
    rw [status, Flags.or_and, Flags.and_and,
      show MA_FL_NOT_TEMP_MASK &&& MA_VERSION_MASK = 0 from rfl, UInt32.and_zero]
    rfl
  have hmagic : (m.status ||| MA_VERSION_1_1_MAGIC) &&& MA_VERSION_1_1_MAGIC =
      MA_VERSION_1_1_MAGIC := by
    rw [status, Flags.or_and, Flags.and_and,
      show MA_FL_NOT_TEMP_MASK &&& MA_VERSION_1_1_MAGIC = 0 from rfl, UInt32.and_zero]
    rfl
  have hstatus : (m.status ||| MA_VERSION_1_1_MAGIC) &&& MA_FL_NOT_TEMP_MASK = m.status := by
    rw [Flags.or_and_of_disjoint rfl, status, Flags.and_and_of_subset rfl]
  have hne : ¬ MA_VERSION_1_1_MAGIC = 0 := by decide
  have hpos : 0 < MA_VERSION_1_1_MAGIC := by decide
  simp only [attributesWithRepresentation, attributesRepresentation, PropertyList.ofUnsignedInt,
    PropertyList.unsignedIntValue_toNat, hversion, hne, hmagic, hpos, hstatus, decide_false,
    Bool.false_and, Bool.false_eq_true, if_false, if_true]

@[simp] theorem stringsOfObject_strings (strings : List NSString) :
    stringsOfObject (.array (strings.map .string)) = some strings := by
  simp [stringsOfObject, List.filterMap_map]

@[simp] theorem dateOfObject_dateObject (d : MessageDate) :
    dateOfObject (dateObject d) = some d := by
  cases d <;> rfl

/-- What a message keeps when it is saved: everything but the temporary flags. -/
theorem objectWithPropertyListRepresentation_representation (m : CMRThreadMessage) :
    objectWithPropertyListRepresentation m.propertyListRepresentation =
      some { m with flags := m.status } := by
  have hdict : PropertyList.IsDict m.propertyListRepresentation := by
    simp [propertyListRepresentation]
  have hcases : objectWithPropertyListRepresentation m.propertyListRepresentation =
      some (ofDictionary m.propertyListRepresentation) := by
    obtain ⟨entries, hentries⟩ := hdict
    rw [hentries, objectWithPropertyListRepresentation]
  have hstring : ∀ s, PropertyList.asString (.string s) = some s := fun _ => rfl
  rw [hcases]
  simp [ofDictionary, propertyListRepresentation, setDate, setFlag,
    PropertyList.unsignedIntForKey, PropertyList.numberForKey, PropertyList.stringForKey,
    PropertyList.objectForKey_setNoneNil, PropertyList.objectForKey_setObject,
    PropertyList.map_bind_of_read hstring, PropertyList.map_bind_of_read dateOfObject_dateObject,
    PropertyList.map_bind_of_read stringsOfObject_strings, PropertyList.asNumber,
    PropertyList.ofUnsignedInt, attributesWithRepresentation_attributes]

end CMRThreadMessage

end BathyScaphe
