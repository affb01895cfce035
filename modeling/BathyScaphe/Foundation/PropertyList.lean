import BathyScaphe.Foundation.NSString
import Mathlib.Algebra.Group.Int.Defs

/-!
# Property lists

The values the application writes to its files. A dictionary is an association
list in which the newest entry of a key comes first; the typed accessors of the
dictionary extensions answer `nil` (here `none`) for an entry of another class.
-/

namespace BathyScaphe

inductive PropertyList where
  | string (s : NSString)
  | number (n : Int)
  | date (t : Int)
  | data (bytes : List UInt8)
  | array (objects : List PropertyList)
  | dict (entries : List (String × PropertyList))

namespace PropertyList

def objectForKey : PropertyList → String → Option PropertyList
  | .dict entries, key => entries.lookup key
  | _, _ => none

def setObject : PropertyList → PropertyList → String → PropertyList
  | .dict entries, obj, key => .dict ((key, obj) :: entries)
  | rep, _, _ => rep

def setNoneNil (rep : PropertyList) (obj : Option PropertyList) (key : String) : PropertyList :=
  match obj with
  | some obj => rep.setObject obj key
  | none => rep

def asString : PropertyList → Option NSString
  | .string s => some s
  | _ => none

def asNumber : PropertyList → Option Int
  | .number n => some n
  | _ => none

def asArray : PropertyList → Option (List PropertyList)
  | .array objects => some objects
  | _ => none

def stringForKey (rep : PropertyList) (key : String) : Option NSString :=
  (rep.objectForKey key).bind asString

def numberForKey (rep : PropertyList) (key : String) : Option Int :=
  (rep.objectForKey key).bind asNumber

def arrayForKey (rep : PropertyList) (key : String) : Option (List PropertyList) :=
  (rep.objectForKey key).bind asArray

def unsignedIntValue (n : Int) : UInt32 := UInt32.ofNat (n % 2 ^ 32).toNat

def ofUnsignedInt (n : UInt32) : PropertyList := .number n.toNat

def unsignedIntForKey (rep : PropertyList) (key : String) : UInt32 :=
  ((rep.numberForKey key).map unsignedIntValue).getD 0

def IsDict (rep : PropertyList) : Prop := ∃ entries, rep = .dict entries

@[simp] theorem isDict_dict : IsDict (.dict entries) := ⟨entries, rfl⟩

@[simp] theorem isDict_setObject : IsDict (setObject rep obj key) ↔ IsDict rep := by
  cases rep <;> simp [setObject, IsDict]

@[simp] theorem isDict_setNoneNil : IsDict (setNoneNil rep obj key) ↔ IsDict rep := by
  cases obj <;> simp [setNoneNil]

theorem objectForKey_setObject (h : IsDict rep) :
    (setObject rep obj key).objectForKey k =
      if k = key then some obj else rep.objectForKey k := by
  obtain ⟨entries, rfl⟩ := h
  by_cases hk : k = key
  · simp [setObject, objectForKey, hk]
  · have hne : (k == key) = false := beq_false_of_ne hk
    simp [setObject, objectForKey, List.lookup_cons, hk, hne]

theorem objectForKey_setNoneNil (h : IsDict rep) :
    (setNoneNil rep obj key).objectForKey k =
      if k = key then obj.or (rep.objectForKey k) else rep.objectForKey k := by
  cases obj with
  | none => simp [setNoneNil]
  | some obj => simp only [setNoneNil, objectForKey_setObject h, Option.some_or]

theorem map_bind_of_read {code : α → PropertyList} {read : PropertyList → Option α}
    (h : ∀ a, read (code a) = some a) (a : Option α) : (a.map code).bind read = a := by
  cases a <;> simp [h]

@[simp] theorem objectForKey_nil : objectForKey (.dict []) k = none := rfl

@[simp] theorem unsignedIntValue_toNat (n : UInt32) : unsignedIntValue n.toNat = n := by
  have hlt : n.toNat < 2 ^ 32 := n.toNat_lt
  have hmod : ((n.toNat : Int) % 2 ^ 32).toNat = n.toNat := by omega
  rw [unsignedIntValue, hmod, UInt32.ofNat_toNat]

end PropertyList

end BathyScaphe
