import BathyScaphe.Smart.Condition
import Mathlib.Tactic.Linarith

/-!
# Editing relative dates

The editor has one unit for both amounts of a relative date. A condition keeps the amounts
in seconds, so the unit has to be found again when it is loaded: it is the first unit that
divides the first value, whatever the second one is.
-/

namespace BathyScaphe.Smart

inductive DaysUnit
  | hour | day | week | month
  deriving DecidableEq

namespace DaysUnit

def tag : DaysUnit → Int32
  | hour => 3600
  | day => 86400
  | week => 604800
  | month => 2592000

end DaysUnit

/-- The qualifiers of relative dates. There is none for `SCDaysNotEqualOperator`. -/
inductive DaysQualifier
  | isEqual | largerThan | smallerThan | range
  deriving DecidableEq

/-- The items of a criterion with a relative date: what is selected, and what `intValue` reads
from the fields that are not empty. -/
structure DateEditor where
  criterion : DateTarget
  qualifier : DaysQualifier
  daysUnit : DaysUnit
  daysExpressionField : Option Int32
  daysExpressionField2 : Option Int32

namespace DateEditor

def value1 (editor : DateEditor) : Option Int32 :=
  editor.daysExpressionField.map fun v => -1 * (v * editor.daysUnit.tag)

/-- No value, or one that is `none` for `NSNull`. -/
def value2 (editor : DateEditor) : Option (Option Int32) :=
  if editor.qualifier = .range then some (editor.daysExpressionField2.map fun v =>
    -1 * (v * editor.daysUnit.tag))
  else none

def aCondition (editor : DateEditor) : Option SmartCondition :=
  match editor.value1, editor.value2 with
  | none, _ => none
  | _, some none => none
  | some value1, some (some value2) => some (.relativeDate editor.criterion (.range value1 value2))
  | some value1, none =>
    match editor.qualifier with
    | .isEqual => some (.relativeDate editor.criterion (.compare .equal value1))
    | .largerThan => some (.relativeDate editor.criterion (.compare .larger value1))
    | .smallerThan => some (.relativeDate editor.criterion (.compare .smaller value1))
    | .range => none

def hourUnit : Int := 3600
def dayUnit : Int := 86400
def weekUnit : Int := 604800
def monthUnit : Int := 2592000

/-- The tests for the unit. The one for a week asks that the second value is none of whole weeks. -/
def unitOfValues (value1 : Int) (value2 : Option Int) : Option DaysUnit :=
  if value1.tmod monthUnit = 0 then
    if value2.all fun v => v.tmod monthUnit = 0 then some .month else none
  else if value1.tmod weekUnit = 0 then
    if value2.all fun v => v.tmod weekUnit ≠ 0 then some .week else none
  else if value1.tmod dayUnit = 0 then
    if value2.all fun v => v.tmod dayUnit = 0 then some .day else none
  else if value1.tmod hourUnit = 0 then
    if value2.all fun v => v.tmod hourUnit = 0 then some .hour else none
  else none

def setRelaviceDateValueFromCondition (editor : DateEditor) (v1 : Int32) (v2 : Option Int32) :
    Option DateEditor :=
  let value1 := v1.toInt * -1
  let value2 := v2.map fun v => v.toInt * -1
  (unitOfValues value1 value2).map fun unit =>
    { editor with
      daysUnit := unit
      daysExpressionField := some (Int32.ofInt (value1.tdiv unit.tag.toInt))
      daysExpressionField2 :=
        (value2.map fun v => Int32.ofInt (v.tdiv unit.tag.toInt)).or editor.daysExpressionField2 }

def qualifierMenuItemTagFromCondition : Test Int32 → Option DaysQualifier
  | .compare .equal _ => some .isEqual
  | .compare .notEqual _ => none
  | .compare .larger _ => some .largerThan
  | .compare .smaller _ => some .smallerThan
  | .range _ _ => some .range

/-- Loading a relative date; `none` where the editor answers `NO`. -/
def buildAHelperFromSmartCondition (editor : DateEditor) (target : DateTarget) (test : Test Int32) :
    Option DateEditor :=
  (qualifierMenuItemTagFromCondition test).bind fun qualifier =>
    let editor := { editor with criterion := target, qualifier := qualifier }
    match test with
    | .compare _ value => editor.setRelaviceDateValueFromCondition value none
    | .range value1 value2 => editor.setRelaviceDateValueFromCondition value1 (some value2)

/-- The condition is loaded, and the editor then reads it from its items. -/
def LoadsBack (editor : DateEditor) : SmartCondition → Prop
  | .relativeDate target test =>
    ∃ editor', editor.buildAHelperFromSmartCondition target test = some editor' ∧
      editor'.aCondition = some (.relativeDate target test)
  | _ => False

end DateEditor

/-- What is entered: amounts in a unit whose products are in the range of `int`. The second
amount belongs to a range. -/
structure DaysEntry where
  target : DateTarget
  qualifier : DaysQualifier
  unit : DaysUnit
  amount : Int32
  amount2 : Int32
  inRange : -2 ^ 31 ≤ amount.toInt * unit.tag.toInt ∧ amount.toInt * unit.tag.toInt < 2 ^ 31
  inRange2 : -2 ^ 31 ≤ amount2.toInt * unit.tag.toInt ∧ amount2.toInt * unit.tag.toInt < 2 ^ 31

namespace DaysEntry

def editor (entry : DaysEntry) : DateEditor where
  criterion := entry.target
  qualifier := entry.qualifier
  daysUnit := entry.unit
  daysExpressionField := some entry.amount
  daysExpressionField2 := if entry.qualifier = .range then some entry.amount2 else none

def seconds (entry : DaysEntry) : Int := entry.amount.toInt * entry.unit.tag.toInt

def seconds2 (entry : DaysEntry) : Int := entry.amount2.toInt * entry.unit.tag.toInt

/-- The first amount is not one of whole weeks unless it is one of whole months, and the
largest unit that it is a multiple of is one for the second amount too. -/
def UnitFound (entry : DaysEntry) : Prop :=
  ∃ unit : DaysUnit, unit ≠ .week ∧ unit.tag.toInt ∣ entry.seconds ∧
    unit.tag.toInt ∣ entry.seconds2 ∧
    ∀ larger : DaysUnit, unit.tag < larger.tag → ¬ larger.tag.toInt ∣ entry.seconds

end DaysEntry

-- The unit

namespace DateEditor

theorem toInt_tag (unit : DaysUnit) : unit.tag.toInt =
    match unit with
    | .hour => hourUnit
    | .day => dayUnit
    | .week => weekUnit
    | .month => monthUnit := by
  cases unit <;> rfl

theorem forall_larger {unit : DaysUnit} {P : DaysUnit → Prop} :
    (∀ larger : DaysUnit, unit.tag < larger.tag → P larger) ↔
      match unit with
      | .hour => P .day ∧ P .week ∧ P .month
      | .day => P .week ∧ P .month
      | .week => P .month
      | .month => True := by
  constructor
  · intro h
    cases unit with
    | hour => exact ⟨h .day (by decide), h .week (by decide), h .month (by decide)⟩
    | day => exact ⟨h .week (by decide), h .month (by decide)⟩
    | week => exact h .month (by decide)
    | month => trivial
  · intro h larger hlt
    cases unit <;> cases larger <;> simp_all [DaysUnit.tag]

theorem unitOfValues_none (v : Int) : unitOfValues v none = some unit ↔
    unit.tag.toInt ∣ v ∧ ∀ larger : DaysUnit, unit.tag < larger.tag → ¬ larger.tag.toInt ∣ v := by
  rw [forall_larger]
  simp only [unitOfValues, toInt_tag, ← Int.dvd_iff_tmod_eq_zero]
  by_cases hmonth : monthUnit ∣ v <;> by_cases hweek : weekUnit ∣ v <;> by_cases hday :
    dayUnit ∣ v <;>
    by_cases hhour : hourUnit ∣ v <;> cases unit <;> simp [hmonth, hweek, hday, hhour]

/-- The unit of two values divides both of them where the first value's is not the week. -/
theorem unitOfValues_some (v v2 : Int) :
    unitOfValues v (some v2) = some unit ∧ unit.tag.toInt ∣ v ∧ unit.tag.toInt ∣ v2 ↔
      unit ≠ .week ∧ unit.tag.toInt ∣ v ∧ unit.tag.toInt ∣ v2 ∧
        ∀ larger : DaysUnit, unit.tag < larger.tag → ¬ larger.tag.toInt ∣ v := by
  rw [forall_larger]
  simp only [unitOfValues, toInt_tag, ne_eq, ← Int.dvd_iff_tmod_eq_zero]
  by_cases hmonth : monthUnit ∣ v <;> by_cases hweek : weekUnit ∣ v <;> by_cases hday :
    dayUnit ∣ v <;>
    by_cases hhour : hourUnit ∣ v <;> cases unit <;> simp [hmonth, hweek, hday, hhour]

-- One field

/-- The value of a field is the one that was written to it if the unit divides it. -/
theorem field_iff (v : Int32) (unit : DaysUnit) :
    -1 * (Int32.ofInt ((v.toInt * -1).tdiv unit.tag.toInt) * unit.tag) = v ↔
      unit.tag.toInt ∣ v.toInt := by
  obtain ⟨r, hr⟩ : ∃ r, r = (v.toInt * -1).tmod unit.tag.toInt := ⟨_, rfl⟩
  have hdiv := Int.mul_tdiv_add_tmod (v.toInt * -1) unit.tag.toInt
  have hpos : 0 < unit.tag.toInt ∧ unit.tag.toInt ≤ 2592000 := by cases unit <;> decide
  have hlt : -unit.tag.toInt < r ∧ r < unit.tag.toInt :=
    hr ▸ ⟨Int.lt_tmod_of_pos _ hpos.1, Int.tmod_lt_of_pos _ hpos.1⟩
  have hread : -1 * (Int32.ofInt ((v.toInt * -1).tdiv unit.tag.toInt) * unit.tag) =
    Int32.ofInt (v.toInt + r) := by
    have hvalue : v.toInt + r = -1 * ((v.toInt * -1).tdiv unit.tag.toInt * unit.tag.toInt) := by
      rw [← hr] at hdiv
      linarith
    rw [hvalue, Int32.ofInt_mul, Int32.ofInt_mul, Int32.ofInt_toInt]
    rfl
  have hdvd : unit.tag.toInt ∣ v.toInt ↔ r = 0 := by
    rw [hr, ← Int.dvd_iff_tmod_eq_zero, Int.mul_neg_one, Int.dvd_neg]
  rw [hread, hdvd, Int32.ofInt_eq_iff_bmod_eq_toInt]
  constructor
  · intro hmod
    have hsame : (v.toInt + r).bmod (2 ^ 32) % (2 ^ 32 : Nat) = (v.toInt + r) % (2 ^ 32 : Nat) :=
      Int.bmod_emod
    rw [hmod] at hsame
    omega
  · rintro rfl
    have hrange := And.intro v.le_toInt v.toInt_lt
    rw [Int.add_zero]
    exact Int.bmod_eq_of_le (by omega) (by omega)

-- Loading

theorem loadsBack_compare (editor : DateEditor) (target : DateTarget) (op : CompareOperator)
    (value : Int32)
    (hop : op ≠ .notEqual) (hfound : unitOfValues (value.toInt * -1) none = some unit)
    (hdvd : unit.tag.toInt ∣ value.toInt) :
    editor.LoadsBack (.relativeDate target (.compare op value)) := by
  have hvalue := (field_iff value unit).mpr hdvd
  cases op with
  | notEqual => exact absurd rfl hop
  | equal | larger | smaller =>
    simp only [LoadsBack, buildAHelperFromSmartCondition, qualifierMenuItemTagFromCondition,
      Option.bind_some, setRelaviceDateValueFromCondition, Option.map_none, hfound, Option.map_some]
    refine ⟨_, rfl, ?_⟩
    simp only [aCondition, value1, value2, Option.map_some, hvalue, reduceCtorEq, if_false]

/-- Both values of a range come back exactly if the unit that is found divides them. -/
theorem loadsBack_range_iff (editor : DateEditor) (target : DateTarget) (first second : Int32) :
    editor.LoadsBack (.relativeDate target (.range first second)) ↔
      ∃ unit, unitOfValues (first.toInt * -1) (some (second.toInt * -1)) = some unit ∧
        unit.tag.toInt ∣ first.toInt ∧ unit.tag.toInt ∣ second.toInt := by
  simp only [LoadsBack, buildAHelperFromSmartCondition, qualifierMenuItemTagFromCondition,
    setRelaviceDateValueFromCondition, Option.bind_some, Option.map_some, ← field_iff]
  cases hfound : unitOfValues (first.toInt * -1) (some (second.toInt * -1)) with
  | none => simp
  | some unit => simp [aCondition, value1, value2]

end DateEditor

namespace DaysEntry

open DateEditor

/-- The products do not overflow, and neither do their negations: no unit divides `-2 ^ 31`. -/
theorem toInt_product (amount : Int32) (unit : DaysUnit)
    (hrange : -2 ^ 31 ≤ amount.toInt * unit.tag.toInt ∧ amount.toInt * unit.tag.toInt < 2 ^ 31) :
    (-1 * (amount * unit.tag)).toInt = -(amount.toInt * unit.tag.toInt) := by
  have hne : amount.toInt * unit.tag.toInt ≠ -2 ^ 31 := by
    rw [toInt_tag]
    cases unit <;> simp only [hourUnit, dayUnit, weekUnit, monthUnit] <;> omega
  have hproduct : -1 * (amount * unit.tag) = Int32.ofInt (-(amount.toInt * unit.tag.toInt)) := by
    rw [← Int.neg_one_mul, Int32.ofInt_mul, Int32.ofInt_mul, Int32.ofInt_toInt, Int32.ofInt_toInt]
    rfl
  rw [hproduct, Int32.toInt_ofInt]
  apply Int.bmod_eq_of_le <;> unfold Int32.size <;> omega

theorem hour_dvd (amount : Int) (unit : DaysUnit) : hourUnit ∣ amount * unit.tag.toInt := by
  apply Dvd.dvd.mul_left
  cases unit <;> decide

theorem exists_unitOfValues (v : Int) (hhour : hourUnit ∣ v) :
    ∃ unit, unitOfValues v none = some unit := by
  simp only [unitOfValues, ← Int.dvd_iff_tmod_eq_zero, Option.all_none, hhour]
  by_cases hmonth : monthUnit ∣ v <;> by_cases hweek : weekUnit ∣ v <;> by_cases hday :
    dayUnit ∣ v <;>
    simp [hmonth, hweek, hday]

/-- Loading a relative date brings its amounts back exactly for single amounts and for ranges
whose unit is found. -/
theorem loadsBack_iff (editor : DateEditor) (entry : DaysEntry) :
    (∃ c, entry.editor.aCondition = some c ∧ editor.LoadsBack c) ↔
      (entry.qualifier = .range → entry.UnitFound) := by
  have hfirst := toInt_product entry.amount entry.unit entry.inRange
  have hsecond := toInt_product entry.amount2 entry.unit entry.inRange2
  cases hq : entry.qualifier with
  | range =>
    have hcondition : entry.editor.aCondition = some (.relativeDate entry.target
        (.range (-1 * (entry.amount * entry.unit.tag))
          (-1 * (entry.amount2 * entry.unit.tag)))) := by
      simp only [DaysEntry.editor, aCondition, value1, value2, hq, if_true, Option.map_some]
    simp only [hcondition, Option.some.injEq, exists_eq_left', loadsBack_range_iff, hfirst, hsecond,
      Int.dvd_neg, forall_true_left, Int.mul_neg_one, Int.neg_neg]
    exact exists_congr fun unit => unitOfValues_some _ _
  | isEqual | largerThan | smallerThan =>
    obtain ⟨unit, hfound⟩ := exists_unitOfValues _ (hour_dvd entry.amount.toInt entry.unit)
    have hdvd := ((unitOfValues_none _).mp hfound).1
    rw [← Int.neg_neg (_ * _), ← hfirst, ← Int.mul_neg_one] at hfound
    rw [← Int.dvd_neg, ← hfirst] at hdvd
    simp only [reduceCtorEq, false_implies, iff_true, DaysEntry.editor, aCondition, value1, value2,
      hq, if_false, Option.map_some]
    exact ⟨_, rfl, loadsBack_compare editor _ _ _ (by decide) hfound hdvd⟩

/-- One week and two weeks: the second value is not taken for whole weeks. -/
def weeks : DaysEntry where
  target := .modifiedDate
  qualifier := .range
  unit := .week
  amount := 1
  amount2 := 2
  inRange := by decide
  inRange2 := by decide

theorem not_loadsBack_weeks : ¬ ∀ editor : DateEditor, ∀ entry : DaysEntry,
    ∃ c, entry.editor.aCondition = some c ∧ editor.LoadsBack c := by
  intro h
  obtain ⟨c, hcondition, hback⟩ := h weeks.editor weeks
  have hweeks : weeks.editor.aCondition =
      some (.relativeDate .modifiedDate (.range (-604800) (-1209600))) := rfl
  have hfails : weeks.editor.buildAHelperFromSmartCondition .modifiedDate
      (.range (-604800) (-1209600)) = none := rfl
  rw [hweeks, Option.some.injEq] at hcondition
  obtain ⟨editor', hload, -⟩ : weeks.editor.LoadsBack (.relativeDate _ _) := hcondition ▸ hback
  cases hfails.symm.trans hload

end DaysEntry

end BathyScaphe.Smart
