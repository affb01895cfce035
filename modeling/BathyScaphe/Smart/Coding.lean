import BathyScaphe.Smart.Condition

/-!
# Archived conditions

What `encodeWithCoder:` puts under its keys and `initWithCoder:` makes of it. The
initializer chooses the class by the operator, refuses a value that its target
does not accept, and puts the values of a number range in the order of their
float values. -/

namespace BathyScaphe.Smart

/-- The objects of the keys `SCValue1CodingKey` and `SCValue2CodingKey`. -/
inductive ArchivedValue
  | null
  | string (s : NSString)
  | number (n : Decimal)

inductive Archived
  | smart (target : NSString) (operator : Nat) (value1 : ArchivedValue)
      (value2 : Option ArchivedValue)
  | composit (operator : Nat) (conditions : List Archived)

def keyString (key : List Char) : NSString := key.map fun c => UInt16.ofNat c.toNat

def StringTarget.ofKey (s : NSString) : Option StringTarget :=
  [threadName, boardName].find? fun target => keyString target.key == s

def NumberTarget.ofKey (s : NSString) : Option NumberTarget :=
  [numberOfAll, numberOfRead, numberOfDifference].find? fun target => keyString target.key == s

def DateTarget.ofKey (s : NSString) : Option DateTarget :=
  [modifiedDate, LastWrittenDate, threadID].find? fun target => keyString target.key == s

-- Encoding

def StringOperator.code : StringOperator → Nat
  | .contaions => 0x01
  | .notContains => 0x02
  | .exact => 0x03
  | .notExact => 0x04
  | .beginsWith => 0x05
  | .endsWith => 0x06

def DaysOperator.code : DaysOperator → Nat
  | .today => 0x21
  | .yesterday => 0x22
  | .thisWeek => 0x23
  | .lastWeek => 0x24

/-- The number operators begin at `0x11`, the relative date operators at `0x31`, the
absolute ones at `0x41`, each in the same order. -/
def Test.code {ν : Type} (base : Nat) : Test ν → Nat
  | .compare .equal _ => base
  | .compare .notEqual _ => base + 1
  | .compare .larger _ => base + 2
  | .compare .smaller _ => base + 3
  | .range _ _ => base + 4

def Test.encode {ν : Type} (target : List Char) (base : Nat) (value : ν → Decimal) (test : Test ν) :
    Archived :=
  match test with
  | .compare _ v => .smart (keyString target) (test.code base) (.number (value v)) none
  | .range v1 v2 =>
    .smart (keyString target) (test.code base) (.number (value v1)) (some (.number (value v2)))

def SmartCondition.encode : SmartCondition → Archived
  | .string target operator value =>
    .smart (keyString target.key) operator.code (.string value) none
  | .number target test => test.encode target.key 0x11 id
  | .absoluteDate target test => test.encode target.key 0x41 id
  | .relativeDate target test => test.encode target.key 0x31 fun v => Decimal.ofInt v.toInt
  | .days target operator => .smart (keyString target.key) operator.code .null none

def SCCOperator.code : SCCOperator → Nat
  | .union => 0
  | .intersection => 1

mutual

def Condition.encode : Condition → Archived
  | .leaf condition => condition.encode
  | .composit operator first others => .composit operator.code (first.encode :: encodeAll others)

def encodeAll : List Condition → List Archived
  | [] => []
  | c :: others => c.encode :: encodeAll others

end

-- Decoding

def StringOperator.ofCode : Nat → Option StringOperator
  | 0x01 => some .contaions
  | 0x02 => some .notContains
  | 0x03 => some .exact
  | 0x04 => some .notExact
  | 0x05 => some .beginsWith
  | 0x06 => some .endsWith
  | _ => none

def DaysOperator.ofCode : Nat → Option DaysOperator
  | 0x21 => some .today
  | 0x22 => some .yesterday
  | 0x23 => some .thisWeek
  | 0x24 => some .lastWeek
  | _ => none

def intValue (d : Decimal) : Int32 := Int32.ofInt (if d.negative then -d.whole else d.whole)

def Test.decode (offset : Nat) (value1 : Decimal) (value2 : Option Decimal) :
    Option (Test Decimal) :=
  match offset, value2 with
  | 0, none => some (.compare .equal value1)
  | 1, none => some (.compare .notEqual value1)
  | 2, none => some (.compare .larger value1)
  | 3, none => some (.compare .smaller value1)
  | 4, some value2 => some (.range value1 value2)
  | _, _ => none

variable (floatValue : Decimal → ℚ)

/-- The values of `SCRangeOperator` in the order of their float values. -/
def Test.ordered : Test Decimal → Test Decimal
  | .range value1 value2 =>
    if floatValue value1 > floatValue value2 then .range value2 value1 else .range value1 value2
  | test => test

def ArchivedValue.asNumber : ArchivedValue → Option Decimal
  | .number n => some n
  | _ => none

/-- `initWithTarget:operator:value:value:`, `none` where it answers `nil` or makes
an object that no editor makes. -/
def SmartCondition.initWithTarget (target : NSString) (operator : Nat) (value1 : ArchivedValue)
    (value2 : Option ArchivedValue) : Option SmartCondition :=
  let test (base : Nat) : Option (Test Decimal) := do
    let v1 ← value1.asNumber
    Test.decode (operator - base) v1 (value2.bind ArchivedValue.asNumber)
  if operator ≤ 0x06 then
    match StringTarget.ofKey target, StringOperator.ofCode operator, value1 with
    | some target, some operator, .string value => some (.string target operator value)
    | _, _, _ => none
  else if 0x11 ≤ operator ∧ operator ≤ 0x15 then
    match NumberTarget.ofKey target, test 0x11 with
    | some target, some test => some (.number target (test.ordered floatValue))
    | _, _ => none
  else if 0x21 ≤ operator ∧ operator ≤ 0x24 then
    match DateTarget.ofKey target, DaysOperator.ofCode operator with
    | some target, some operator => some (.days target operator)
    | _, _ => none
  else if 0x31 ≤ operator ∧ operator ≤ 0x35 then
    match DateTarget.ofKey target, test 0x31 with
    | some target, some test => some (.relativeDate target (test.map intValue))
    | _, _ => none
  else if 0x41 ≤ operator ∧ operator ≤ 0x45 then
    match DateTarget.ofKey target, test 0x41 with
    | some target, some test => some (.absoluteDate target test)
    | _, _ => none
  else none

def SCCOperator.ofCode : Nat → Option SCCOperator
  | 0 => some .union
  | 1 => some .intersection
  | _ => none

mutual

def decode : Archived → Option Condition
  | .smart target operator value1 value2 =>
    (SmartCondition.initWithTarget floatValue target operator value1 value2).map .leaf
  | .composit operator conditions =>
    match SCCOperator.ofCode operator, decodeAll conditions with
    | some operator, some (first :: others) => some (.composit operator first others)
    | _, _ => none

def decodeAll : List Archived → Option (List Condition)
  | [] => some []
  | a :: rest =>
    match decode a, decodeAll rest with
    | some c, some others => some (c :: others)
    | _, _ => none

end

-- Reading back

mutual

/-- The initializer leaves the number ranges of the condition as they are. -/
def Condition.WellBuilt : Condition → Prop
  | .leaf (.number _ test) => test.ordered floatValue = test
  | .leaf _ => True
  | .composit _ first others => first.WellBuilt ∧ AllWellBuilt others

def AllWellBuilt : List Condition → Prop
  | [] => True
  | c :: others => c.WellBuilt ∧ AllWellBuilt others

end

/-- The conditions that exist: all of them come from the initializer. -/
abbrev Built : Type := { c : Condition // c.WellBuilt floatValue }

@[simp] theorem StringTarget.ofKey_key (target : StringTarget) :
    StringTarget.ofKey (keyString target.key) = some target := by
  cases target <;> decide

@[simp] theorem NumberTarget.ofKey_key (target : NumberTarget) :
    NumberTarget.ofKey (keyString target.key) = some target := by
  cases target <;> decide

@[simp] theorem DateTarget.ofKey_key (target : DateTarget) :
    DateTarget.ofKey (keyString target.key) = some target := by
  cases target <;> decide

@[simp] theorem StringOperator.ofCode_code (operator : StringOperator) :
    StringOperator.ofCode operator.code = some operator := by
  cases operator <;> rfl

@[simp] theorem DaysOperator.ofCode_code (operator : DaysOperator) :
    DaysOperator.ofCode operator.code = some operator := by
  cases operator <;> rfl

@[simp] theorem SCCOperator.ofCode_code (operator : SCCOperator) :
    SCCOperator.ofCode operator.code = some operator := by
  cases operator <;> rfl

@[simp] theorem intValue_ofInt (v : Int32) : intValue (Decimal.ofInt v.toInt) = v := by
  have hsigned : (if (Decimal.ofInt v.toInt).negative then -((Decimal.ofInt v.toInt).whole : Int)
      else (Decimal.ofInt v.toInt).whole) = v.toInt := by
    simp only [Decimal.ofInt, decide_eq_true_eq]
    split <;> omega
  unfold intValue
  rw [hsigned, Int32.ofInt_toInt]

theorem decode_smart {l : SmartCondition} (h : (Condition.leaf l).WellBuilt floatValue) :
    decode floatValue l.encode = some (.leaf l) := by
  cases l with
  | string target operator value =>
    cases operator <;>
      simp [SmartCondition.encode, decode, SmartCondition.initWithTarget, StringOperator.code,
        StringOperator.ofCode]
  | days target operator =>
    cases operator <;>
      simp [SmartCondition.encode, decode, SmartCondition.initWithTarget, DaysOperator.code,
        DaysOperator.ofCode]
  | number target test =>
    have hordered : test.ordered floatValue = test := h
    rcases test with ⟨_ | _ | _ | _, _⟩ | ⟨_, _⟩ <;>
      simp [SmartCondition.encode, Test.encode, Test.code, decode, SmartCondition.initWithTarget,
        ArchivedValue.asNumber, Test.decode, hordered]
  | absoluteDate target test =>
    rcases test with ⟨_ | _ | _ | _, _⟩ | ⟨_, _⟩ <;>
      simp [SmartCondition.encode, Test.encode, Test.code, decode, SmartCondition.initWithTarget,
        ArchivedValue.asNumber, Test.decode]
  | relativeDate target test =>
    rcases test with ⟨_ | _ | _ | _, _⟩ | ⟨_, _⟩ <;>
      simp [SmartCondition.encode, Test.encode, Test.code, decode, SmartCondition.initWithTarget,
        ArchivedValue.asNumber, Test.decode, Test.map]

mutual

theorem decode_encode : (c : Condition) → c.WellBuilt floatValue →
    decode floatValue c.encode = some c
  | .leaf l, h => by
    rw [Condition.encode]
    exact decode_smart floatValue h
  | .composit operator first others, h => by
    simp only [Condition.WellBuilt] at h
    simp [Condition.encode, decode, decodeAll, decode_encode first h.1,
      decodeAll_encodeAll others h.2]

theorem decodeAll_encodeAll : (others : List Condition) → AllWellBuilt floatValue others →
    decodeAll floatValue (encodeAll others) = some others
  | [], _ => by simp [encodeAll, decodeAll]
  | c :: others, h => by
    simp only [AllWellBuilt] at h
    simp [encodeAll, decodeAll, decode_encode c h.1, decodeAll_encodeAll others h.2]

end

-- What the initializer makes

theorem Test.ordered_ordered (test : Test Decimal) :
    (test.ordered floatValue).ordered floatValue = test.ordered floatValue := by
  cases test with
  | compare comparison value => rfl
  | range value1 value2 =>
    rw [Test.ordered]
    split
    · rename_i hlt
      rw [Test.ordered, if_neg (not_lt_of_gt hlt)]
    · rename_i hle
      rw [Test.ordered, if_neg hle]

theorem wellBuilt_initWithTarget
    (h : SmartCondition.initWithTarget floatValue target operator value1 value2 = some l) :
    (Condition.leaf l).WellBuilt floatValue := by
  cases l with
  | number target test =>
    simp only [SmartCondition.initWithTarget] at h
    -- the only branch that makes a number condition orders its range
    split at h
    · split at h <;> cases h
    split at h
    · split at h
      · obtain ⟨rfl, rfl⟩ := SmartCondition.number.inj (Option.some.inj h)
        exact Test.ordered_ordered floatValue _
      · cases h
    split at h
    · split at h <;> cases h
    split at h
    · split at h <;> cases h
    split at h
    · split at h <;> cases h
    · cases h
  | _ => trivial

mutual

theorem wellBuilt_of_decode : (a : Archived) → {c : Condition} → decode floatValue a = some c →
    c.WellBuilt floatValue
  | .smart target operator value1 value2, c, h => by
    rw [decode, Option.map_eq_some_iff] at h
    obtain ⟨l, hl, rfl⟩ := h
    exact wellBuilt_initWithTarget floatValue hl
  | .composit operator conditions, c, h => by
    rw [decode] at h
    split at h
    · rename_i first others _ hall
      obtain rfl := Option.some.inj h
      exact wellBuilt_of_decodeAll conditions hall
    · cases h

theorem wellBuilt_of_decodeAll : (as : List Archived) → {cs : List Condition} →
    decodeAll floatValue as = some cs → AllWellBuilt floatValue cs
  | [], cs, h => by
    rw [decodeAll] at h
    obtain rfl := Option.some.inj h
    trivial
  | a :: rest, cs, h => by
    rw [decodeAll] at h
    split at h
    · rename_i c others hc hothers
      obtain rfl := Option.some.inj h
      exact ⟨wellBuilt_of_decode a hc, wellBuilt_of_decodeAll rest hothers⟩
    · cases h

end

def unarchive (archive : Archived) : Option (Built floatValue) :=
  match h : decode floatValue archive with
  | some c => some ⟨c, wellBuilt_of_decode floatValue archive h⟩
  | none => none

theorem unarchive_encode (condition : Built floatValue) :
    unarchive floatValue condition.val.encode = some condition := by
  have hdecode := decode_encode floatValue condition.val condition.property
  rw [unarchive]
  split
  · rename_i c hc
    exact congrArg some (Subtype.ext (Option.some.inj (hc.symm.trans hdecode)))
  · rename_i hnone
    rw [hdecode] at hnone
    cases hnone

end BathyScaphe.Smart
