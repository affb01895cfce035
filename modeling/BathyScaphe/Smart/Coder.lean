import BathyScaphe.Lib.Reading
import BathyScaphe.Smart.Coding

/-!
# Conditions and coders

The condition objects with whatever their initializers accept, and their coding with both
kinds of coders. A keyed coder finds out whether there is a second value. A sequential one
has the objects in their order only, and the decoder takes a second value where the operator
is `SCRangeOperator`, whatever has been encoded.
-/

namespace BathyScaphe.Smart.Coder

/-- An operator of none of these has no class, and no condition. -/
inductive SCOperator
  | contaions | notContains | exact | notExact | beginsWith | endsWith
  | equal | notEqual | larger | smaller | range
  | daysToday | daysYesterday | daysThisWeek | daysLastWeek
  | daysEqual | daysNotEqual | daysLarger | daysSmaller | daysRange
  | dateEqual | dateNotEqual | dateLarger | dateSmaller | dateRange
  deriving DecidableEq

namespace SCOperator

def code : SCOperator → Nat
  | contaions => 0x01
  | notContains => 0x02
  | exact => 0x03
  | notExact => 0x04
  | beginsWith => 0x05
  | endsWith => 0x06
  | equal => 0x11
  | notEqual => 0x12
  | larger => 0x13
  | smaller => 0x14
  | range => 0x15
  | daysToday => 0x21
  | daysYesterday => 0x22
  | daysThisWeek => 0x23
  | daysLastWeek => 0x24
  | daysEqual => 0x31
  | daysNotEqual => 0x32
  | daysLarger => 0x33
  | daysSmaller => 0x34
  | daysRange => 0x35
  | dateEqual => 0x41
  | dateNotEqual => 0x42
  | dateLarger => 0x43
  | dateSmaller => 0x44
  | dateRange => 0x45

def all : List SCOperator :=
  [contaions, notContains, exact, notExact, beginsWith, endsWith, equal, notEqual,
    larger, smaller, range,
    daysToday, daysYesterday, daysThisWeek, daysLastWeek, daysEqual, daysNotEqual,
    daysLarger, daysSmaller,
    daysRange, dateEqual, dateNotEqual, dateLarger, dateSmaller, dateRange]

def ofCode (code : Nat) : Option SCOperator := all.find? fun operator => operator.code == code

@[simp] theorem ofCode_code (operator : SCOperator) : ofCode operator.code = some operator := by
  cases operator <;> rfl

end SCOperator

/-- A `SmartCondition`, whose class is the one of its operator, or a `SmartConditionComposit`. -/
inductive ConditionObject
  | smart (mTarget : NSString) (mOperator : SCOperator) (mValue1 : ArchivedValue)
      (mValue2 : Option ArchivedValue)
  | composit (mOperator : SCCOperator) (mConditions : List ConditionObject)

/-- What an initializer is given for a value: `other` is an object of another class, or `nil`. -/
inductive Argument
  | value (v : ArchivedValue)
  | date (timeIntervalSince1970 : Decimal)
  | other

inductive ValueType
  | NSString | NSNumber | NSDate

def acceptValueType (target : NSString) : Option ValueType :=
  if (StringTarget.ofKey target).isSome then some .NSString
  else if (NumberTarget.ofKey target).isSome then some .NSNumber
  else if (DateTarget.ofKey target).isSome then some .NSDate
  else none

def checkCoordinationTarget (target : NSString) (value : Argument) : Bool :=
  match value, acceptValueType target with
  | .value .null, _ => true
  | .value (.string _), some .NSString => true
  | .value (.number _), some .NSNumber => true
  | .value (.number _), some .NSDate => true
  | .date _, some .NSDate => true
  | _, _ => false

def Argument.stored : Argument → Option ArchivedValue
  | value v => some v
  | date timeIntervalSince1970 => some (.number timeIntervalSince1970)
  | other => none

/-- Whether the `floatValue` of one string or number is larger than that of another. -/
structure FloatOrder where
  larger : NSString ⊕ Decimal → NSString ⊕ Decimal → Bool
  asymm : ∀ a b, larger a b = true → larger b a = false

def Argument.scalar : Argument → Option (NSString ⊕ Decimal)
  | value (.string s) => some (.inl s)
  | value (.number n) => some (.inr n)
  | _ => none

def scalarValue : NSString ⊕ Decimal → ArchivedValue
  | .inl s => .string s
  | .inr n => .number n

def initWithTarget (target : NSString) (operator : SCOperator) (value : Argument) :
    Option ConditionObject :=
  if checkCoordinationTarget target value then value.stored.map fun v =>
    .smart target operator v none
  else none

section

variable (floats : FloatOrder)

/-- `initWithTarget:operator:value:value:`; also `none` where an object raises for `floatValue`. -/
def initWithTargetValues (target : NSString) (operator : SCOperator) (value1 value2 : Argument) :
    Option ConditionObject :=
  if !checkCoordinationTarget target value1 then none
  else if operator = .range then
    if !checkCoordinationTarget target value2 then none
    else
      match value1.scalar, value2.scalar with
      | some v1, some v2 =>
        if floats.larger v1 v2 then some (.smart target operator (scalarValue v2)
          (some (scalarValue v1)))
        else some (.smart target operator (scalarValue v1) (some (scalarValue v2)))
      | _, _ => none
  else value1.stored.map fun v => .smart target operator v value2.stored

def initCompositWithOperator (operator : SCCOperator) (conditions : List ConditionObject) :
    Option ConditionObject :=
  if conditions.isEmpty then none else some (.composit operator conditions)

inductive Built : ConditionObject → Prop
  | one {target operator value c} : initWithTarget target operator value = some c → Built c
  | two {target operator value1 value2 c} :
      initWithTargetValues floats target operator value1 value2 = some c → Built c
  | composit {operator conditions c} : (∀ member ∈ conditions, Built member) →
      initCompositWithOperator operator conditions = some c → Built c

abbrev ConditionTree : Type := { c : ConditionObject // Built floats c }

-- Keyed coding

mutual

def encodeKeyed : ConditionObject → Archived
  | .smart target operator value1 value2 => .smart target operator.code value1 value2
  | .composit operator conditions => .composit operator.code (encodeKeyedAll conditions)

def encodeKeyedAll : List ConditionObject → List Archived
  | [] => []
  | c :: others => encodeKeyed c :: encodeKeyedAll others

end

def initDecoded (target : NSString) (operator : Nat) (value1 : Argument)
    (value2 : Option Argument) :
    Option ConditionObject :=
  match SCOperator.ofCode operator, value2 with
  | none, _ => none
  | some operator, none => initWithTarget target operator value1
  | some operator, some value2 => initWithTargetValues floats target operator value1 value2

mutual

def decodeKeyed : Archived → Option ConditionObject
  | .smart target operator value1 value2 => initDecoded floats target operator (.value value1)
      (value2.map .value)
  | .composit operator conditions =>
    match SCCOperator.ofCode operator, decodeKeyedAll conditions with
    | some operator, some conditions => initCompositWithOperator operator conditions
    | _, _ => none

def decodeKeyedAll : List Archived → Option (List ConditionObject)
  | [] => some []
  | a :: rest =>
    match decodeKeyed a, decodeKeyedAll rest with
    | some c, some others => some (c :: others)
    | _, _ => none

end

-- Sequential coding

/-- What a sequential coder writes: the class of an object that is coded by its parts, the
count of an array, or a value. -/
inductive Coded
  | SmartCondition
  | SmartConditionComposit
  | NSArray (count : Nat)
  | value (v : ArchivedValue)

def numberWithInt (code : Nat) : ArchivedValue := .number (.ofInt code)

mutual

def encode : ConditionObject → List Coded
  | .smart target operator value1 value2 =>
    [.SmartCondition, .value (.string target), .value (numberWithInt operator.code),
      .value value1] ++
      (value2.map .value).toList
  | .composit operator conditions =>
    [.SmartConditionComposit, .value (numberWithInt operator.code), .NSArray conditions.length] ++
      encodeAll conditions

def encodeAll : List ConditionObject → List Coded
  | [] => []
  | c :: others => encode c ++ encodeAll others

end

inductive Decoded
  | value (v : ArchivedValue)
  | condition (c : ConditionObject)
  | array (members : List Decoded)

namespace Decoded

def stringValue : Decoded → Option NSString
  | value (.string s) => some s
  | _ => none

def intValue : Decoded → Option Nat
  | value (.number n) => (Smart.intValue n).toInt.toNat?
  | _ => none

def argument : Decoded → Argument
  | value v => .value v
  | _ => .other

/-- The members if all of them conform to the protocol `SmartCondition`. -/
def conditions : List Decoded → Option (List ConditionObject)
  | [] => some []
  | condition c :: others => (conditions others).map (c :: ·)
  | _ :: _ => none

end Decoded

/-- `decodeObject`; `none` where there is no further object or one is not decoded. -/
def decodeObject : Nat → List Coded → Option (Decoded × List Coded)
  | 0, _ => none
  | _ + 1, [] => none
  | _ + 1, .value v :: input => some (.value v, input)
  | fuel + 1, .NSArray count :: input => do
    let (members, input) ← Reading.readMany (decodeObject fuel) count input
    some (.array members, input)
  | fuel + 1, .SmartCondition :: input => do
    let (target, input) ← decodeObject fuel input
    let (ope, input) ← decodeObject fuel input
    let (value1, input) ← decodeObject fuel input
    let target ← target.stringValue
    let ope ← ope.intValue
    if ope = SCOperator.range.code then
      let (value2, input) ← decodeObject fuel input
      let c ← initDecoded floats target ope value1.argument (some value2.argument)
      some (.condition c, input)
    else
      let c ← initDecoded floats target ope value1.argument none
      some (.condition c, input)
  | fuel + 1, .SmartConditionComposit :: input => do
    let (ope, input) ← decodeObject fuel input
    let (cond, input) ← decodeObject fuel input
    let ope ← ope.intValue.bind SCCOperator.ofCode
    let .array members := cond | none
    let conditions ← Decoded.conditions members
    let c ← initCompositWithOperator ope conditions
    some (.condition c, input)

/-- The coder decodes an object from its input; what is decoded next follows. -/
def unarchive (input : List Coded) : Option (Decoded × List Coded) :=
  decodeObject floats input.length input

/-- Both coders give the tree back, and the sequential one leaves what was encoded after it. -/
def RoundTrips (c : ConditionObject) : Prop :=
  decodeKeyed floats (encodeKeyed c) = some c ∧
    ∀ rest, unarchive floats (encode c ++ rest) = some (.condition c, rest)

mutual

/-- The conditions of the tree have a second value exactly with `SCRangeOperator`. -/
def Judged : ConditionObject → Prop
  | .smart _ operator _ value2 => value2.isSome = true ↔ operator = .range
  | .composit _ conditions => AllJudged conditions

def AllJudged : List ConditionObject → Prop
  | [] => True
  | c :: others => Judged c ∧ AllJudged others

end

-- The initializers

variable {floats}

theorem eq_of_scalar {value : Argument} (h : value.scalar = some a) :
    value = .value (scalarValue a) := by
  cases value with
  | value v =>
    cases v with
    | null => cases h
    | string s | number n =>
      cases h
      rfl
  | date t => cases h
  | other => cases h

@[simp] theorem scalar_scalarValue (a : NSString ⊕ Decimal) :
    (Argument.value (scalarValue a)).scalar = some a := by
  cases a <;> rfl

theorem check_stored {value : Argument} (hcheck : checkCoordinationTarget target value = true)
    (h : value.stored = some v) : checkCoordinationTarget target (.value v) = true := by
  cases value with
  | value _ =>
    cases h
    exact hcheck
  | date t =>
    cases h
    unfold checkCoordinationTarget at hcheck ⊢
    split at hcheck <;> simp_all
  | other => cases h

theorem initWithTarget_eq_some {value : Argument}
    (h : initWithTarget target operator value = some c) :
    ∃ v, c = .smart target operator v none ∧ initWithTarget target operator (.value v) =
      some c := by
  unfold initWithTarget at h
  split at h
  · rename_i hcheck
    obtain ⟨v, hstored, rfl⟩ := Option.map_eq_some_iff.mp h
    exact ⟨v, rfl, by simp [initWithTarget, check_stored hcheck hstored, Argument.stored]⟩
  · cases h

/-- The values of a range are in order, so that they are left in their places the next time. -/
theorem initWithTargetValues_range {value1 value2 : Argument}
    (h : initWithTargetValues floats target .range value1 value2 = some c) :
    ∃ v1 v2, c = .smart target .range v1 (some v2) ∧
      initWithTargetValues floats target .range (.value v1) (.value v2) = some c := by
  unfold initWithTargetValues at h
  split at h
  · cases h
  rename_i hcheck1
  rw [if_pos rfl] at h
  split at h
  · cases h
  rename_i hcheck2
  split at h
  · rename_i a b ha hb
    rw [eq_of_scalar ha] at hcheck1
    rw [eq_of_scalar hb] at hcheck2
    split at h
    · rename_i hlarger
      cases h
      refine ⟨_, _, rfl, ?_⟩
      simp [initWithTargetValues, hcheck1, hcheck2, floats.asymm a b hlarger]
    · rename_i hlarger
      cases h
      refine ⟨_, _, rfl, ?_⟩
      simp [initWithTargetValues, hcheck1, hcheck2, hlarger]
  · cases h

theorem initWithTargetValues_other {value1 value2 : Argument} (hop : operator ≠ .range)
    (h : initWithTargetValues floats target operator value1 value2 = some c) :
    ∃ v, c = .smart target operator v value2.stored ∧
      checkCoordinationTarget target (.value v) = true := by
  unfold initWithTargetValues at h
  split at h
  · cases h
  · rename_i hcheck
    obtain ⟨v, hstored, rfl⟩ := Option.map_eq_some_iff.mp h
    exact ⟨v, rfl, check_stored (by simpa using hcheck) hstored⟩

theorem initDecoded_of_two {value1 value2 : Argument}
    (h : initWithTargetValues floats target operator value1 value2 = some c) :
    ∃ v1 v2, c = .smart target operator v1 v2 ∧
      initDecoded floats target operator.code (.value v1) (v2.map .value) = some c := by
  by_cases hop : operator = .range
  · subst hop
    obtain ⟨v1, v2, rfl, hinit⟩ := initWithTargetValues_range h
    exact ⟨v1, some v2, rfl, by simpa [initDecoded] using hinit⟩
  · obtain ⟨v, rfl, hcheck⟩ := initWithTargetValues_other hop h
    refine ⟨v, value2.stored, rfl, ?_⟩
    cases value2.stored with
    | none => simp [initDecoded, initWithTarget, hcheck, Argument.stored]
    | some v2 => simp [initDecoded, initWithTargetValues, hcheck, hop, Argument.stored]

-- The keyed coder

theorem decodeKeyedAll_encodeKeyedAll (conditions : List ConditionObject)
    (h : ∀ c ∈ conditions, decodeKeyed floats (encodeKeyed c) = some c) :
    decodeKeyedAll floats (encodeKeyedAll conditions) = some conditions := by
  induction conditions with
  | nil => simp [encodeKeyedAll, decodeKeyedAll]
  | cons c others ih =>
    rw [List.forall_mem_cons] at h
    simp [encodeKeyedAll, decodeKeyedAll, h.1, ih h.2]

theorem initDecoded_of_built (h : Built floats (.smart target operator value1 value2)) :
    initDecoded floats target operator.code (.value value1) (value2.map .value) =
      some (.smart target operator value1 value2) := by
  cases h with
  | one hinit =>
    obtain ⟨v, heq, hagain⟩ := initWithTarget_eq_some hinit
    cases heq
    simpa [initDecoded] using hagain
  | two hinit =>
    obtain ⟨v1, v2, heq, hagain⟩ := initDecoded_of_two hinit
    cases heq
    exact hagain
  | composit _ hinit =>
    unfold initCompositWithOperator at hinit
    split at hinit <;> cases hinit

theorem built_composit (h : Built floats (.composit operator conditions)) :
    (∀ member ∈ conditions, Built floats member) ∧
      initCompositWithOperator operator conditions = some (.composit operator conditions) := by
  cases h with
  | one hinit =>
    obtain ⟨v, heq, -⟩ := initWithTarget_eq_some hinit
    cases heq
  | two hinit =>
    obtain ⟨v1, v2, heq, -⟩ := initDecoded_of_two hinit
    cases heq
  | composit hmembers hinit =>
    have hagain := hinit
    unfold initCompositWithOperator at hinit
    split at hinit
    · cases hinit
    · cases hinit
      exact ⟨hmembers, hagain⟩

theorem decodeKeyed_encodeKeyed : (c : ConditionObject) → Built floats c →
    decodeKeyed floats (encodeKeyed c) = some c
  | .smart target operator value1 value2, h => by
    simpa [encodeKeyed, decodeKeyed] using initDecoded_of_built h
  | .composit operator conditions, h => by
    obtain ⟨hmembers, hinit⟩ := built_composit h
    have hall := decodeKeyedAll_encodeKeyedAll conditions fun c hc =>
      decodeKeyed_encodeKeyed c (hmembers c hc)
    simp [encodeKeyed, decodeKeyed, hall, hinit]

-- The sequential coder

theorem encodeAll_eq_flatMap (conditions : List ConditionObject) :
    encodeAll conditions = conditions.flatMap encode := by
  induction conditions with
  | nil => simp [encodeAll]
  | cons c others ih => simp [encodeAll, ih]

theorem allJudged_iff (conditions : List ConditionObject) : AllJudged conditions ↔
    ∀ c ∈ conditions, Judged c := by
  induction conditions with
  | nil => simp [AllJudged]
  | cons c others ih => simp [AllJudged, ih]

@[simp] theorem decodeObject_value : decodeObject floats (fuel + 1) (.value v :: input) = some
    (.value v, input) := by
  simp [decodeObject]

@[simp] theorem intValue_numberWithInt (operator : SCOperator) :
    (Decoded.value (numberWithInt operator.code)).intValue = some operator.code := by
  cases operator <;> decide

@[simp] theorem intValue_numberWithInt_composit (operator : SCCOperator) :
    (Decoded.value (numberWithInt operator.code)).intValue = some operator.code := by
  cases operator <;> decide

theorem code_eq_range {operator : SCOperator} : operator.code = SCOperator.range.code ↔
    operator = .range := by
  constructor
  · intro h
    have hsame := congrArg SCOperator.ofCode h
    rwa [SCOperator.ofCode_code, SCOperator.ofCode_code, Option.some.injEq] at hsame
  · rintro rfl
    rfl

/-- A range condition is never built without the second value that the decoder takes. -/
theorem initDecoded_range_ne (v1 v2 : Argument) :
    initDecoded floats target SCOperator.range.code v1 (some v2) ≠
      some (.smart target .range value1 none) := by
  intro h
  simp only [initDecoded, SCOperator.ofCode_code] at h
  obtain ⟨_, _, heq, -⟩ := initWithTargetValues_range h
  cases heq

theorem initDecoded_one_ne (v : Argument) :
    initDecoded floats target operator.code v none ≠
      some (.smart target operator value1 (some value2)) := by
  intro h
  simp only [initDecoded, SCOperator.ofCode_code] at h
  obtain ⟨_, heq, -⟩ := initWithTarget_eq_some h
  cases heq

/-- A condition comes back where the operator has the decoder read its second value. -/
theorem decodeObject_smart (h : Built floats (.smart target operator value1 value2))
    (rest final : List Coded) :
    decodeObject floats (fuel + 2) (encode (.smart target operator value1 value2) ++ rest) =
        some (.condition (.smart target operator value1 value2), final) ↔
      Judged (.smart target operator value1 value2) ∧ final = rest := by
  have hinit := initDecoded_of_built h
  simp only [encode, decodeObject, List.cons_append, List.nil_append, Option.bind_eq_bind,
    Option.bind_some, intValue_numberWithInt, code_eq_range, Decoded.stringValue,
    Decoded.argument, Judged]
  by_cases hop : operator = .range
  · subst hop
    cases value2 with
    | none =>
      simp only [if_true, Option.isSome_none, reduceCtorEq, false_iff, not_true,
        false_and, iff_false]
      cases decodeObject floats (fuel + 1) ((Option.map Coded.value none).toList ++ rest) with
      | none => simp
      | some next =>
        intro hsome
        simp only [Option.bind_some, Option.bind_eq_some_iff, Option.some.injEq, Prod.mk.injEq,
          Decoded.condition.injEq] at hsome
        obtain ⟨_, hc, rfl, -⟩ := hsome
        exact initDecoded_range_ne _ _ hc
    | some v2 =>
      rw [Option.map_some] at hinit
      simp [hinit, eq_comm]
  · cases value2 with
    | none =>
      rw [Option.map_none] at hinit
      simp [hop, hinit, eq_comm]
    | some v2 =>
      simp only [hop, if_false, Option.isSome_some, iff_false, not_true, false_and]
      intro hsome
      simp only [Option.bind_eq_some_iff, Option.some.injEq, Prod.mk.injEq,
        Decoded.condition.injEq] at hsome
      obtain ⟨_, hc, rfl, -⟩ := hsome
      exact initDecoded_one_ne _ hc

theorem conditions_map (conditions : List ConditionObject) :
    Decoded.conditions (conditions.map .condition) = some conditions := by
  induction conditions with
  | nil => rfl
  | cons c others ih => simp [Decoded.conditions, ih]

theorem eq_map_of_conditions {members : List Decoded}
    (h : Decoded.conditions members = some conditions) :
    members = conditions.map .condition := by
  induction members generalizing conditions with
  | nil =>
    cases h
    rfl
  | cons member others ih =>
    cases member with
    | value v => cases h
    | array _ => cases h
    | condition c =>
      obtain ⟨rest, hrest, rfl⟩ := Option.map_eq_some_iff.mp h
      rw [List.map_cons, ← ih hrest]

theorem length_encode_le (h : c ∈ conditions) :
    (encode c).length ≤ (encodeAll conditions).length := by
  rw [encodeAll_eq_flatMap, List.flatMap_def]
  exact (List.sublist_flatten_of_mem (List.mem_map_of_mem h)).length_le

theorem decodeObject_composit (hinit : initCompositWithOperator operator conditions =
    some (.composit operator conditions))
    (hread : ∀ c ∈ conditions, ∀ rest final,
      decodeObject floats fuel (encode c ++ rest) = some (.condition c, final) ↔
      Judged c ∧ final = rest)
    (rest final : List Coded) :
    decodeObject floats (fuel + 2) (encode (.composit operator conditions) ++ rest) =
        some (.condition (.composit operator conditions), final) ↔
      Judged (.composit operator conditions) ∧ final = rest := by
  have hmany := Reading.readMany_flatMap conditions hread rest final
  rw [← encodeAll_eq_flatMap, ← allJudged_iff] at hmany
  rw [Judged, ← hmany]
  simp only [encode, decodeObject, List.cons_append, List.nil_append, Option.bind_eq_bind,
    Option.bind_some, intValue_numberWithInt_composit, SCCOperator.ofCode_code]
  cases Reading.readMany (decodeObject floats fuel) conditions.length
    (encodeAll conditions ++ rest) with
  | none => simp
  | some result =>
    obtain ⟨members, input⟩ := result
    simp only [Option.bind_some, Option.some.injEq, Prod.mk.injEq]
    constructor
    · intro hsome
      simp only [Option.bind_eq_some_iff, Option.some.injEq, Prod.mk.injEq,
        Decoded.condition.injEq] at hsome
      obtain ⟨others, hothers, c, hc, rfl, hfinal⟩ := hsome
      unfold initCompositWithOperator at hc
      split at hc <;> cases hc
      exact ⟨eq_map_of_conditions hothers, hfinal⟩
    · rintro ⟨rfl, rfl⟩
      simp [conditions_map, hinit]

/-- The induction is on the tree; each member is read with what is left of the fuel. -/
theorem decodeObject_encode : (c : ConditionObject) → Built floats c →
    ∀ fuel, (encode c).length ≤ fuel →
    ∀ rest final, decodeObject floats fuel (encode c ++ rest) = some (.condition c, final) ↔
    Judged c ∧ final = rest
  | .smart target operator value1 value2, h, fuel, hfuel, rest, final => by
    obtain ⟨fuel, rfl⟩ : ∃ n, fuel = n + 2 :=
      Nat.exists_eq_add_of_le' (by simp [encode] at hfuel; omega)
    exact decodeObject_smart h rest final
  | .composit operator conditions, h, fuel, hfuel, rest, final => by
    obtain ⟨hmembers, hinit⟩ := built_composit h
    simp only [encode, List.cons_append, List.nil_append, List.length_cons] at hfuel
    obtain ⟨fuel, rfl⟩ : ∃ n, fuel = n + 2 := Nat.exists_eq_add_of_le' (by omega)
    refine decodeObject_composit hinit (fun c hc =>
      decodeObject_encode c (hmembers c hc) fuel ?_) rest final
    have hlength := length_encode_le hc
    omega

/-- Both coders give a tree back exactly if its conditions have a second value with
`SCRangeOperator` and with no other operator. -/
theorem roundTrips_iff_judged (c : ConditionTree floats) : RoundTrips floats c.1 ↔ Judged c.1 := by
  have hsequential (rest : List Coded) :
      unarchive floats (encode c.1 ++ rest) = some (.condition c.1, rest) ↔ Judged c.1 := by
    unfold unarchive
    rw [decodeObject_encode c.1 c.2 _ (by simp)]
    simp
  constructor
  · rintro ⟨-, hread⟩
    exact (hsequential []).mp (hread [])
  · intro hjudged
    exact ⟨decodeKeyed_encodeKeyed c.1 c.2, fun rest => (hsequential rest).mpr hjudged⟩

variable (floats)

def days : ConditionTree floats where
  val := .smart (keyString DateTarget.modifiedDate.key) .daysRange (.number (.ofInt (-604800)))
    (some (.number (.ofInt (-86400))))
  property := by
    have hinit : initWithTargetValues floats (keyString DateTarget.modifiedDate.key) .daysRange
        (.value (.number (.ofInt (-604800)))) (.value (.number (.ofInt (-86400)))) = some _ := rfl
    exact Built.two hinit

theorem unarchive_days : unarchive floats (encode (days floats).1 ++ []) =
    some (.condition (.smart (keyString DateTarget.modifiedDate.key) .daysRange
      (.number (.ofInt (-604800))) none),
      [.value (.number (.ofInt (-86400)))]) := rfl

end

theorem not_roundTrips_days : ¬ ∀ floats : FloatOrder, ∀ c :
    ConditionTree floats, RoundTrips floats c.1 := by
  intro h
  obtain ⟨-, hread⟩ := h ⟨fun _ _ => false, fun _ _ _ => rfl⟩ (days _)
  cases (unarchive_days _).symm.trans (hread [])

-- The conditions of the queries

structure TestOperators where
  compare : CompareOperator → SCOperator
  range : SCOperator

def numberOperators : TestOperators where
  compare
    | .equal => .equal
    | .notEqual => .notEqual
    | .larger => .larger
    | .smaller => .smaller
  range := .range

def daysOperators : TestOperators where
  compare
    | .equal => .daysEqual
    | .notEqual => .daysNotEqual
    | .larger => .daysLarger
    | .smaller => .daysSmaller
  range := .daysRange

def dateOperators : TestOperators where
  compare
    | .equal => .dateEqual
    | .notEqual => .dateNotEqual
    | .larger => .dateLarger
    | .smaller => .dateSmaller
  range := .dateRange

def ofStringOperator : StringOperator → SCOperator
  | .contaions => .contaions
  | .notContains => .notContains
  | .exact => .exact
  | .notExact => .notExact
  | .beginsWith => .beginsWith
  | .endsWith => .endsWith

def ofDaysOperator : DaysOperator → SCOperator
  | .today => .daysToday
  | .yesterday => .daysYesterday
  | .thisWeek => .daysThisWeek
  | .lastWeek => .daysLastWeek

def TestOperators.object {ν : Type} (operators : TestOperators) (target : List Char)
    (value : ν → Decimal) :
    Test ν → ConditionObject
  | .compare operator v => .smart (keyString target) (operators.compare operator)
      (.number (value v)) none
  | .range v1 v2 =>
    .smart (keyString target) operators.range (.number (value v1)) (some (.number (value v2)))

def objectOfSmart : SmartCondition → ConditionObject
  | .string target operator value => .smart (keyString target.key) (ofStringOperator operator)
      (.string value) none
  | .number target test => numberOperators.object target.key id test
  | .absoluteDate target test => dateOperators.object target.key id test
  | .relativeDate target test => daysOperators.object target.key
      (fun v => Decimal.ofInt v.toInt) test
  | .days target operator => .smart (keyString target.key) (ofDaysOperator operator) .null none

mutual

def object : Condition → ConditionObject
  | .leaf condition => objectOfSmart condition
  | .composit operator first others => .composit operator (object first :: objects others)

def objects : List Condition → List ConditionObject
  | [] => []
  | c :: others => object c :: objects others

end

theorem encodeKeyed_objectOfSmart (l : SmartCondition) :
    encodeKeyed (objectOfSmart l) = l.encode := by
  cases l with
  | string target operator value => cases operator <;> rfl
  | days target operator => cases operator <;> rfl
  | number target test => rcases test with ⟨_ | _ | _ | _, _⟩ | ⟨_, _⟩ <;> rfl
  | absoluteDate target test => rcases test with ⟨_ | _ | _ | _, _⟩ | ⟨_, _⟩ <;> rfl
  | relativeDate target test => rcases test with ⟨_ | _ | _ | _, _⟩ | ⟨_, _⟩ <;> rfl

mutual

theorem encodeKeyed_object : (c : Condition) → encodeKeyed (object c) = c.encode
  | .leaf l => by
    rw [object, Condition.encode, encodeKeyed_objectOfSmart]
  | .composit operator first others => by
    rw [object, encodeKeyed, encodeKeyedAll, Condition.encode, encodeKeyed_object first,
      encodeKeyedAll_objects others]

theorem encodeKeyedAll_objects : (others : List Condition) → encodeKeyedAll
    (objects others) = Smart.encodeAll others
  | [] => by rw [objects, encodeKeyedAll, Smart.encodeAll]
  | c :: others => by
    rw [objects, encodeKeyedAll, Smart.encodeAll, encodeKeyed_object c,
      encodeKeyedAll_objects others]

end

end BathyScaphe.Smart.Coder
