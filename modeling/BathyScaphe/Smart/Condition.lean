import Mathlib.Data.Int.Order.Basic
import BathyScaphe.Database.QueryText

/-!
# Smart board conditions

The condition objects of smart boards and the SQL text `conditionString` makes of
them. The condition types of the application say which targets take strings,
numbers and dates; a condition is built only with a value of its target's type.
-/

namespace BathyScaphe.Smart

open Database NSString

/-- The targets that `ConditionTypes` gives the value type `NSString`. -/
inductive StringTarget
  | threadName | boardName
  deriving DecidableEq

inductive NumberTarget
  | numberOfAll | numberOfRead | numberOfDifference
  deriving DecidableEq

inductive DateTarget
  | modifiedDate | LastWrittenDate | threadID
  deriving DecidableEq

def StringTarget.key : StringTarget → List Char
  | .threadName => "threadName".toList
  | .boardName => "boardName".toList

def NumberTarget.key : NumberTarget → List Char
  | .numberOfAll => "numberOfAll".toList
  | .numberOfRead => "numberOfRead".toList
  | .numberOfDifference => "numberOfDifference".toList

def DateTarget.key : DateTarget → List Char
  | .modifiedDate => "modifiedDate".toList
  | .LastWrittenDate => "LastWrittenDate".toList
  | .threadID => "threadID".toList

inductive StringOperator
  | contaions | notContains | exact | notExact | beginsWith | endsWith
  deriving DecidableEq

inductive CompareOperator
  | equal | notEqual | larger | smaller
  deriving DecidableEq

inductive DaysOperator
  | today | yesterday | thisWeek | lastWeek
  deriving DecidableEq

/-- The number and date operators with their values. -/
inductive Test (ν : Type)
  | compare (operator : CompareOperator) (value : ν)
  | range (value1 value2 : ν)

def Test.map {ν ξ : Type} (f : ν → ξ) : Test ν → Test ξ
  | .compare operator value => .compare operator (f value)
  | .range value1 value2 => .range (f value1) (f value2)

/-- One condition; the constructors are the classes `classForOperation:` chooses. -/
inductive SmartCondition
  | string (target : StringTarget) (operator : StringOperator) (value : NSString)
  | number (target : NumberTarget) (test : Test Decimal)
  | absoluteDate (target : DateTarget) (test : Test Decimal)
  | relativeDate (target : DateTarget) (test : Test Int32)
  | days (target : DateTarget) (operator : DaysOperator)

inductive SCCOperator
  | union | intersection
  deriving DecidableEq

/-- A composite never is without members. -/
inductive Condition
  | leaf (condition : SmartCondition)
  | composit (operator : SCCOperator) (first : Condition) (others : List Condition)

/-- What the conditions ask of the calendar: the current second, the number of the
current day and its place in the week, the first second of each day, and
`dateByAddingYears:months:days:hours:minutes:seconds:` for days to seconds. -/
structure Clock where
  now : Int
  today : Int
  dayOfWeek : Int
  midnight : Int → Int
  midnight_lt : ∀ d, midnight d < midnight (d + 1)
  dateByAdding : Int → Int → Int → Int → Int → Int

def StringOperator.conditionString (key value : List Char) : StringOperator → List Char
  | .beginsWith => key ++ " LIKE '".toList ++ value ++ "%'".toList
  | .endsWith => key ++ " LIKE '%".toList ++ value ++ "'".toList
  | .contaions => key ++ " LIKE '%".toList ++ value ++ "%'".toList
  | .notContains => key ++ " NOT LIKE '%".toList ++ value ++ "%'".toList
  | .exact => key ++ " LIKE '".toList ++ value ++ "'".toList
  | .notExact => key ++ " NOT LIKE '".toList ++ value ++ "'".toList

def Test.conditionString (key : List Char) : Test (List Char) → List Char
  | .compare .larger value => key ++ " > ".toList ++ value
  | .compare .equal value => key ++ " = ".toList ++ value
  | .compare .notEqual value => key ++ " != ".toList ++ value
  | .compare .smaller value => key ++ " < ".toList ++ value
  | .range value1 value2 =>
    "(".toList ++ key ++ " > ".toList ++ value1 ++ " AND ".toList ++ key ++
      " < ".toList ++ value2 ++
      ")".toList

/-- `numberWithInt:` of a time in seconds. Outside of the range of `int` the
conversion has no defined result. -/
def intOfTime (t : Int) : Option Int :=
  if -2 ^ 31 ≤ t ∧ t < 2 ^ 31 then some t else none

def Clock.date (clock : Clock) (value : Int32) : Int := clock.now + value.toInt

def Clock.processedValue (clock : Clock) (value : Int32) : Option Int :=
  intOfTime (clock.date value)

def Clock.processedTest (clock : Clock) : Test Int32 → Option (Test Int)
  | .compare operator value => (clock.processedValue value).map (.compare operator)
  | .range value1 value2 =>
    match clock.processedValue value1, clock.processedValue value2 with
    | some v1, some v2 => some (.range v1 v2)
    | _, _ => none

/-- The first day that the operator names, and how many days it is. -/
def DaysOperator.firstDay (clock : Clock) : DaysOperator → Int
  | .today => clock.today
  | .yesterday => clock.today - 1
  | .thisWeek => clock.today - clock.dayOfWeek
  | .lastWeek => clock.today - clock.dayOfWeek - 7

def DaysOperator.days : DaysOperator → Int
  | .today => 1
  | .yesterday => 1
  | .thisWeek => 7
  | .lastWeek => 7

def DaysOperator.begineTime (clock : Clock) (operator : DaysOperator) : Int :=
  clock.midnight (operator.firstDay clock)

def DaysOperator.endTime (clock : Clock) (operator : DaysOperator) : Int :=
  clock.dateByAdding (operator.begineTime clock) (operator.days - 1) 23 59 59

def intText (n : Int) : List Char := (Decimal.ofInt n).text

def SmartCondition.conditionString (clock : Clock) : SmartCondition → Option (List Char)
  | .string target operator value =>
    some (operator.conditionString target.key (prepareStringForQuery value))
  | .number target test => some ((test.map Decimal.text).conditionString target.key)
  | .absoluteDate target test => some ((test.map Decimal.text).conditionString target.key)
  | .relativeDate target test =>
    (clock.processedTest test).map fun test => (test.map intText).conditionString target.key
  | .days target operator =>
    some ("(".toList ++ target.key ++ " > ".toList ++ intText (operator.begineTime clock) ++
      " AND ".toList ++ target.key ++ " < ".toList ++ intText
        (operator.endTime clock) ++ ")".toList)

def SCCOperator.comp : SCCOperator → List Char
  | .union => ") AND (".toList
  | .intersection => ") OR (".toList

theorem SCCOperator.comp_union : SCCOperator.union.comp = ") AND (".toList := rfl

theorem SCCOperator.comp_intersection : SCCOperator.intersection.comp = ") OR (".toList := rfl

mutual

def Condition.conditionString (clock : Clock) : Condition → Option (List Char)
  | .leaf condition => condition.conditionString clock
  | .composit operator first others =>
    match first.conditionString clock, joinedStrings clock operator.comp others with
    | some s, some joined => some ("(".toList ++ s ++ joined ++ ")".toList)
    | _, _ => none

def joinedStrings (clock : Clock) (comp : List Char) : List Condition → Option (List Char)
  | [] => some []
  | c :: others =>
    match c.conditionString clock, joinedStrings clock comp others with
    | some s, some joined => some (comp ++ s ++ joined)
    | _, _ => none

end

-- What a condition says

/-- The columns of a thread that conditions test, none of them NULL. -/
structure ThreadRow where
  text : StringTarget → List Char
  number : NumberTarget → Int
  date : DateTarget → Int

/-- The literal value is compared without regard to the case of ASCII letters. A
value that is no text is in no text. -/
def StringOperator.Holds (text : List Char) : StringOperator → Option (List Char) → Prop
  | .contaions, value => ∃ v ∈ value, v.map Char.toLower <:+: text.map Char.toLower
  | .notContains, value => ¬ ∃ v ∈ value, v.map Char.toLower <:+: text.map Char.toLower
  | .exact, value => ∃ v ∈ value, text.map Char.toLower = v.map Char.toLower
  | .notExact, value => ¬ ∃ v ∈ value, text.map Char.toLower = v.map Char.toLower
  | .beginsWith, value => ∃ v ∈ value, v.map Char.toLower <+: text.map Char.toLower
  | .endsWith, value => ∃ v ∈ value, v.map Char.toLower <:+ text.map Char.toLower

/-- The range is the one between the two values, whichever of them is larger. -/
def Test.Holds (x : ℚ) : Test ℚ → Prop
  | .compare .equal v => x = v
  | .compare .notEqual v => x ≠ v
  | .compare .larger v => v < x
  | .compare .smaller v => x < v
  | .range v1 v2 => min v1 v2 < x ∧ x < max v1 v2

def SmartCondition.Holds (clock : Clock) (row : ThreadRow) : SmartCondition → Prop
  | .string target operator value => operator.Holds (row.text target) (UTF8String value)
  | .number target test => (test.map Decimal.value).Holds (row.number target)
  | .absoluteDate target test => (test.map Decimal.value).Holds (row.date target)
  | .relativeDate target test =>
    (test.map fun value => (clock.date value : ℚ)).Holds (row.date target)
  | .days target operator =>
    clock.midnight (operator.firstDay clock) ≤ row.date target ∧
      row.date target < clock.midnight (operator.firstDay clock + operator.days)

mutual

def Condition.Holds (clock : Clock) (row : ThreadRow) : Condition → Prop
  | .leaf condition => condition.Holds clock row
  | .composit .union first others => first.Holds clock row ∧ AllHold clock row others
  | .composit .intersection first others => first.Holds clock row ∨ AnyHolds clock row others

def AllHold (clock : Clock) (row : ThreadRow) : List Condition → Prop
  | [] => True
  | c :: others => c.Holds clock row ∧ AllHold clock row others

def AnyHolds (clock : Clock) (row : ThreadRow) : List Condition → Prop
  | [] => False
  | c :: others => c.Holds clock row ∨ AnyHolds clock row others

end

end BathyScaphe.Smart
