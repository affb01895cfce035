import Mathlib.Data.List.Basic

/-!
# Strings

Foundation strings are sequences of UTF-16 units, and the sources index and
compare them unit by unit; the model keeps them as lists of units.
-/

namespace BathyScaphe

abbrev UniChar := UInt16

abbrev NSString := List UniChar

instance : LawfulBEq NSString := inferInstance

/-- A literal of the sources. All of them lie in the basic plane, so one
character is one unit. -/
def ns (s : String) : NSString := s.toList.map fun c => UInt16.ofNat c.toNat

def uc (c : Char) : UniChar := UInt16.ofNat c.toNat

structure NSRange where
  location : Nat
  length : Nat
  deriving DecidableEq

def NSRange.max (r : NSRange) : Nat := r.location + r.length

namespace NSString

def substringWithRange (s : NSString) (range : NSRange) : NSString :=
  (s.drop range.location).take range.length

def deleteCharactersInRange (s : NSString) (range : NSRange) : NSString :=
  s.take range.location ++ s.drop range.max

def replaceCharactersInRange (s : NSString) (range : NSRange) (new : NSString) : NSString :=
  s.take range.location ++ new ++ s.drop range.max

/-- The characters of the UTF-8 form; a string with half of a surrogate pair has
none. -/
def UTF8String : NSString → Option (List Char)
  | [] => some []
  | u :: s =>
    if u < 0xD800 ∨ 0xE000 ≤ u then
      (UTF8String s).map (Char.ofNat u.toNat :: ·)
    else
      match s with
      | [] => none
      | v :: s =>
        if u < 0xDC00 ∧ 0xDC00 ≤ v ∧ v < 0xE000 then
          (UTF8String s).map
            (Char.ofNat (0x10000 + (u.toNat - 0xD800) * 0x400 + (v.toNat - 0xDC00)) :: ·)
        else none

end NSString

end BathyScaphe
