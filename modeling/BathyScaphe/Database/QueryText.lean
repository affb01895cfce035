import BathyScaphe.Foundation.NSString
import BathyScaphe.Lib.Where

/-!
# Strings in query texts

`prepareStringForQuery:` makes a string fit for a literal of a query text, and
`LIKE` compares a column with such a literal.
-/

namespace BathyScaphe.Database

open NSString

/-- The wildcards of `LIKE`, which takes ASCII letters of both cases as one. -/
def sqlite : Wildcards Char Char := ⟨'%', '_', Char.toLower⟩

def prepareStringForQuery (inString : NSString) : List Char :=
  match UTF8String inString with
  | none => "(NULL)".toList
  | some p => Where.escape (p.takeWhile (· ≠ '\x00'))

def rawValue (inString : NSString) : List Char :=
  match UTF8String inString with
  | none => "(NULL)".toList
  | some p => p.takeWhile (· ≠ '\x00')

theorem prepareStringForQuery_eq (inString : NSString) :
    prepareStringForQuery inString = Where.escape (rawValue inString) := by
  unfold prepareStringForQuery rawValue
  cases UTF8String inString with
  | none => rfl
  | some p => rfl

end BathyScaphe.Database
