import BathyScaphe.Foundation.PropertyList
import BathyScaphe.Lib.Flags
import BathyScaphe.Lib.Run
import BathyScaphe.Spam.Detecter

/-!
# NG expressions

An NG expression keeps its text, the fields it is looked for in, whether it is
a regular expression, and the compiled form once that was asked for. The setters
of the text and of the flag drop the compiled form.

A check is cleared by an exclusive or, which sets it when it was clear.
-/

namespace BathyScaphe.Composer

open Spam

/-- What the regular expressions (`ρ`) and their archives (`δ`) are to the code. -/
structure OgreKit (ρ δ : Type) where
  isValidExpressionString : NSString → Bool
  initWithString : NSString → ρ
  archivedDataWithRootObject : ρ → δ
  unarchiveObjectWithData : δ → Option ρ
  /-- `boolValue` of a string -/
  boolValue : NSString → Bool

structure BSNGExpression (ρ : Type) extends Spam.BSNGExpression where
  m_OGRegExpInstance : Option ρ

/-- A dictionary, with the entry that is data apart from the others. -/
structure Representation (δ : Type) where
  entries : PropertyList
  archivedData : Option δ

namespace BSNGExpression

variable {ρ δ : Type}

def kExpressionKey : String := "Expression"

def kTargetMaskKey : String := "TargetMask"

def kIsRegularExpressionKey : String := "RegularExpression"

section
variable (ogre : OgreKit ρ δ) (e : BSNGExpression ρ)

def validAsRegularExpression : Bool := e.expression.any ogre.isValidExpressionString

def createOGRegExpInstance : Option ρ :=
  match e.expression with
  | none => none
  | some s => if e.validAsRegularExpression ogre then some (ogre.initWithString s) else none

def setOGRegExpInstance (regExp : Option ρ) : BSNGExpression ρ :=
  { e with m_OGRegExpInstance := regExp }

def setExpression (string : Option NSString) : BSNGExpression ρ :=
  { e with expression := string }.setOGRegExpInstance none

def setTargetMask (mask : UInt32) : BSNGExpression ρ := { e with targetMask := mask }

def isLogicalANDForMask (mask : UInt32) : Bool := e.targetMask &&& mask ≠ 0

def setBool (boolValue : Bool) (mask : UInt32) : BSNGExpression ρ :=
  e.setTargetMask (if boolValue then e.targetMask ||| mask else e.targetMask ^^^ mask)

def checksName : Bool := e.isLogicalANDForMask BSNGExpressionAtName

def setChecksName (check : Bool) : BSNGExpression ρ := e.setBool check BSNGExpressionAtName

def checksMail : Bool := e.targetMask &&& BSNGExpressionAtMail ≠ 0

def setChecksMail (check : Bool) : BSNGExpression ρ := e.setBool check BSNGExpressionAtMail

def checksMessage : Bool := e.targetMask &&& BSNGExpressionAtMessage ≠ 0

def setChecksMessage (check : Bool) : BSNGExpression ρ := e.setBool check BSNGExpressionAtMessage

def setIsRegularExpression (isRE : Bool) : BSNGExpression ρ :=
  let e := { e with isRegularExpression := isRE }
  if !isRE then e.setOGRegExpInstance none else e

def OGRegExpInstance : Option ρ × BSNGExpression ρ :=
  let e := if e.m_OGRegExpInstance.isNone && e.isRegularExpression then
    e.setOGRegExpInstance (e.createOGRegExpInstance ogre) else e
  (e.m_OGRegExpInstance, e)

def alloc : BSNGExpression ρ := ⟨⟨none, 0, false⟩, none⟩

def initWithExpression (string : Option NSString) (mask : UInt32) (isRE : Bool) :
    BSNGExpression ρ :=
  ((alloc.setTargetMask mask).setIsRegularExpression isRE).setExpression string

def init : BSNGExpression ρ := initWithExpression none
  (BSNGExpressionAtName ||| BSNGExpressionAtMail ||| BSNGExpressionAtMessage) false

/-- What is written, and the expression with the compiled form asked for. -/
def propertyListRepresentation : Representation δ × BSNGExpression ρ :=
  let dict := PropertyList.dict []
  let dict := dict.setNoneNil (e.expression.map .string) kExpressionKey
  let dict := dict.setNoneNil (some (.ofUnsignedInt e.targetMask)) kTargetMaskKey
  let dict := dict.setNoneNil (some (.number (if e.isRegularExpression then 1 else 0)))
    kIsRegularExpressionKey
  let (regExp, e) := e.OGRegExpInstance ogre
  (⟨dict, regExp.map ogre.archivedDataWithRootObject⟩, e)

def boolForKey (rep : PropertyList) (key : String) : Bool :=
  match rep.objectForKey key with
  | some (.number n) => n ≠ 0
  | some (.string s) => ogre.boolValue s
  | _ => false

def objectWithPropertyListRepresentation (rep : Representation δ) : BSNGExpression ρ :=
  let instance_ := init.setExpression (rep.entries.stringForKey kExpressionKey)
  let instance_ := instance_.setTargetMask (rep.entries.unsignedIntForKey kTargetMaskKey)
  let instance_ :=
    instance_.setIsRegularExpression (boolForKey ogre rep.entries kIsRegularExpressionKey)
  match rep.archivedData with
  | some archivedData => instance_.setOGRegExpInstance (ogre.unarchiveObjectWithData archivedData)
  | none => instance_

inductive Op where
  | setExpression (string : Option NSString)
  | setTargetMask (mask : UInt32)
  | setChecksName (check : Bool)
  | setChecksMail (check : Bool)
  | setChecksMessage (check : Bool)
  | setIsRegularExpression (isRE : Bool)
  | OGRegExpInstance
  | reload

def perform : Op → BSNGExpression ρ
  | .setExpression string => e.setExpression string
  | .setTargetMask mask => e.setTargetMask mask
  | .setChecksName check => e.setChecksName check
  | .setChecksMail check => e.setChecksMail check
  | .setChecksMessage check => e.setChecksMessage check
  | .setIsRegularExpression isRE => e.setIsRegularExpression isRE
  | .OGRegExpInstance => (e.OGRegExpInstance ogre).2
  | .reload => objectWithPropertyListRepresentation ogre (e.propertyListRepresentation ogre).1

end

-- What was last set

/-- A mask with the bits of `mask` set or not, and the others as they were. -/
def withBits (flags mask : UInt32) (check : Bool) : UInt32 :=
  if check then flags ||| mask else flags &&& ~~~mask

def applied (v : Spam.BSNGExpression) : Op → Spam.BSNGExpression
  | .setExpression string => { v with expression := string }
  | .setTargetMask mask => { v with targetMask := mask }
  | .setChecksName check =>
      { v with targetMask := withBits v.targetMask BSNGExpressionAtName check }
  | .setChecksMail check =>
      { v with targetMask := withBits v.targetMask BSNGExpressionAtMail check }
  | .setChecksMessage check =>
    { v with targetMask := withBits v.targetMask BSNGExpressionAtMessage check }
  | .setIsRegularExpression isRE => { v with isRegularExpression := isRE }
  | .OGRegExpInstance | .reload => v

/-- The compilation of the expression, where it is flagged and can be compiled. -/
def compiled (ogre : OgreKit ρ δ) (v : Spam.BSNGExpression) : Option ρ :=
  if v.isRegularExpression then
    v.expression.bind fun s =>
      if ogre.isValidExpressionString s then some (ogre.initWithString s) else none
  else none

structure Agrees (ogre : OgreKit ρ δ) (e : BSNGExpression ρ) (v : Spam.BSNGExpression) : Prop where
  expression : e.expression = v.expression
  targetMask : e.targetMask = v.targetMask
  isRegularExpression : e.isRegularExpression = v.isRegularExpression
  OGRegExpInstance : (e.OGRegExpInstance ogre).1 = compiled ogre v

def ClearsWhatIsSet (e : BSNGExpression ρ) : Op → Prop
  | .setChecksName check => check = true ∨ e.checksName = true
  | .setChecksMail check => check = true ∨ e.checksMail = true
  | .setChecksMessage check => check = true ∨ e.checksMessage = true
  | _ => True

section
variable {ogre : OgreKit ρ δ} {e : BSNGExpression ρ} {v : Spam.BSNGExpression}

/-- The exclusive or does what it should only to a bit that is set. -/
theorem setBool_eq_iff {mask : UInt32} (hmask : mask.toNat = 2 ^ k) :
    (e.setBool check mask).targetMask = withBits e.targetMask mask check ↔
      check = true ∨ e.targetMask &&& mask ≠ 0 := by
  cases check with
  | true => simp [setBool, setTargetMask, withBits]
  | false =>
    simp only [setBool, setTargetMask, withBits, Bool.false_eq_true, if_false, false_or]
    rcases Flags.and_eq_zero_or e.targetMask hmask with hclear | hset
    · refine iff_of_false (fun hxor => ?_) (not_not_intro hclear)
      rw [Flags.and_not_of_disjoint hclear] at hxor
      have hzero : mask = 0 := by
        calc mask = e.targetMask ^^^ (e.targetMask ^^^ mask) := by
              rw [← UInt32.xor_assoc, UInt32.xor_self, UInt32.zero_xor]
          _ = 0 := by rw [hxor, UInt32.xor_self]
      rw [hzero] at hmask
      exact absurd hmask (Nat.ne_of_lt (Nat.two_pow_pos k))
    · refine iff_of_true (Flags.xor_of_subset hset) (fun hclear => ?_)
      rw [hset] at hclear
      rw [hclear] at hmask
      exact absurd hmask (Nat.ne_of_lt (Nat.two_pow_pos k))

/-- The compiled form is that of the present expression, or there is none. -/
def Inv (ogre : OgreKit ρ δ) (e : BSNGExpression ρ) : Prop :=
  e.m_OGRegExpInstance = none ∨ e.m_OGRegExpInstance = compiled ogre e.toBSNGExpression

theorem createOGRegExpInstance_eq (h : e.isRegularExpression = true) :
    e.createOGRegExpInstance ogre = compiled ogre e.toBSNGExpression := by
  unfold createOGRegExpInstance validAsRegularExpression compiled
  rw [if_pos h]
  cases e.expression <;> rfl

theorem OGRegExpInstance_eq (h : Inv ogre e) : e.OGRegExpInstance ogre =
    (compiled ogre e.toBSNGExpression, { e with
      m_OGRegExpInstance := compiled ogre e.toBSNGExpression }) := by
  obtain ⟨values, regExp⟩ := e
  cases hflag : values.isRegularExpression with
  | false =>
    have hnone : compiled ogre values = none := by simp [compiled, hflag]
    obtain rfl : regExp = none := h.elim id fun hcompiled => hcompiled.trans hnone
    simp [OGRegExpInstance, hflag, hnone]
  | true =>
    have hcreate : createOGRegExpInstance ogre ⟨values, regExp⟩ = compiled ogre values :=
      createOGRegExpInstance_eq hflag
    cases regExp with
    | none => simp [OGRegExpInstance, hflag, hcreate, setOGRegExpInstance]
    | some r =>
      have hcompiled : some r = compiled ogre values := h.elim nofun id
      simp [OGRegExpInstance, hcompiled.symm]

theorem stringForKey_representation (e : BSNGExpression ρ) :
    (e.propertyListRepresentation ogre).1.entries.stringForKey kExpressionKey = e.expression := by
  have hname : kExpressionKey ≠ kIsRegularExpressionKey ∧ kExpressionKey ≠ kTargetMaskKey := by
    decide
  simp only [propertyListRepresentation, PropertyList.stringForKey,
    PropertyList.objectForKey_setNoneNil, PropertyList.isDict_setNoneNil, PropertyList.isDict_dict,
    PropertyList.objectForKey_nil, hname.1, hname.2, if_false, if_true, Option.or_none]
  cases e.expression <;> rfl

theorem unsignedIntForKey_representation (e : BSNGExpression ρ) :
    (e.propertyListRepresentation ogre).1.entries.unsignedIntForKey kTargetMaskKey =
      e.targetMask := by
  have hname : kTargetMaskKey ≠ kIsRegularExpressionKey := by decide
  simp [propertyListRepresentation, PropertyList.unsignedIntForKey, PropertyList.numberForKey,
    PropertyList.objectForKey_setNoneNil, hname, PropertyList.ofUnsignedInt, PropertyList.asNumber]

theorem boolForKey_representation (e : BSNGExpression ρ) :
    boolForKey ogre (e.propertyListRepresentation ogre).1.entries kIsRegularExpressionKey =
      e.isRegularExpression := by
  cases hflag : e.isRegularExpression <;>
    simp [propertyListRepresentation, boolForKey, PropertyList.objectForKey_setNoneNil, hflag]

theorem reload_eq (hogre : ∀ r, ogre.unarchiveObjectWithData (ogre.archivedDataWithRootObject r) =
    some r)
    (h : Inv ogre e) : e.perform ogre .reload =
      { e with m_OGRegExpInstance := compiled ogre e.toBSNGExpression } := by
  have harchive : (e.propertyListRepresentation ogre).1.archivedData =
      (compiled ogre e.toBSNGExpression).map ogre.archivedDataWithRootObject := by
    simp only [propertyListRepresentation, OGRegExpInstance_eq h]
  have hread : ∀ v : Spam.BSNGExpression, (((init.setExpression v.expression).setTargetMask
      v.targetMask).setIsRegularExpression v.isRegularExpression) =
        (⟨v, none⟩ : BSNGExpression ρ) := by
    rintro ⟨expression, mask, _ | _⟩ <;> rfl
  simp only [perform, objectWithPropertyListRepresentation, stringForKey_representation,
    unsignedIntForKey_representation, boolForKey_representation, harchive]
  rw [hread]
  cases compiled ogre e.toBSNGExpression with
  | none => rfl
  | some r => simp [setOGRegExpInstance, hogre]

theorem inv_perform (hogre : ∀ r, ogre.unarchiveObjectWithData (ogre.archivedDataWithRootObject r) =
    some r)
    (h : Inv ogre e) (op : Op) : Inv ogre (e.perform ogre op) := by
  cases op with
  | setExpression string => exact .inl rfl
  | setIsRegularExpression isRE =>
    cases isRE with
    | false => exact .inl rfl
    | true =>
      cases hregExp : e.m_OGRegExpInstance with
      | none => exact .inl hregExp
      | some r =>
        have hcompiled : some r = compiled ogre e.toBSNGExpression := by
          simpa [Inv, hregExp] using h
        have hflag : e.isRegularExpression = true := by
          by_contra hflag
          simp [compiled, hflag] at hcompiled
        refine .inr (hregExp.trans (hcompiled.trans ?_))
        simp [compiled, hflag, perform, setIsRegularExpression]
  | OGRegExpInstance =>
    simp only [perform, OGRegExpInstance_eq h]
    exact .inr rfl
  | reload =>
    rw [reload_eq hogre h]
    exact .inr rfl
  | _ => exact h

theorem agrees_iff_eq (h : Inv ogre e) : Agrees ogre e v ↔ e.toBSNGExpression = v := by
  constructor
  · rintro ⟨hexpression, hmask, hflag, -⟩
    obtain ⟨⟨expression, mask, isRE⟩, regExp⟩ := e
    obtain ⟨expression', mask', isRE'⟩ := v
    simp only at hexpression hmask hflag
    rw [hexpression, hmask, hflag]
  · rintro rfl
    exact ⟨rfl, rfl, rfl, by rw [OGRegExpInstance_eq h]⟩

/-- The values after an operation are those it is for, but for a check that is
cleared when it is clear. -/
theorem perform_eq_iff
    (hogre : ∀ r, ogre.unarchiveObjectWithData (ogre.archivedDataWithRootObject r) = some r)
    (h : Inv ogre e) (op : Op) :
    (e.perform ogre op).toBSNGExpression = applied e.toBSNGExpression op ↔
      ClearsWhatIsSet e op := by
  have hset : ∀ (mask : UInt32) (check : Bool), (e.setBool check mask).toBSNGExpression =
      { e.toBSNGExpression with targetMask := withBits e.targetMask mask check } ↔
        (e.setBool check mask).targetMask = withBits e.targetMask mask check := by
    intro mask check
    constructor
    · exact fun hvalues => congrArg Spam.BSNGExpression.targetMask hvalues
    · intro hmask
      rw [← hmask]
      rfl
  cases op with
  | setChecksName check =>
    refine (hset _ check).trans ((setBool_eq_iff (k := 0) rfl).trans ?_)
    simp [ClearsWhatIsSet, checksName, isLogicalANDForMask]
  | setChecksMail check =>
    refine (hset _ check).trans ((setBool_eq_iff (k := 1) rfl).trans ?_)
    simp [ClearsWhatIsSet, checksMail]
  | setChecksMessage check =>
    refine (hset _ check).trans ((setBool_eq_iff (k := 2) rfl).trans ?_)
    simp [ClearsWhatIsSet, checksMessage]
  | setIsRegularExpression isRE => cases isRE <;> exact iff_of_true rfl trivial
  | OGRegExpInstance =>
    simp only [perform, OGRegExpInstance_eq h]
    exact iff_of_true rfl trivial
  | reload =>
    rw [reload_eq hogre h]
    exact iff_of_true rfl trivial
  | setExpression | setTargetMask => exact iff_of_true rfl trivial

theorem inv_initWithExpression (string : Option NSString) (mask : UInt32) (isRE : Bool) :
    Inv ogre (initWithExpression string mask isRE) := .inl rfl

theorem initWithExpression_values (string : Option NSString) (mask : UInt32) (isRE : Bool) :
    (initWithExpression string mask isRE : BSNGExpression ρ).toBSNGExpression =
      ⟨string, mask, isRE⟩ := by
  cases isRE <;> rfl

/-- The getters return what was last set, all through a run of operations, just
where no check is cleared that is clear. -/
theorem run_agrees_iff
    (hogre : ∀ r, ogre.unarchiveObjectWithData (ogre.archivedDataWithRootObject r) = some r)
    (string : Option NSString) (mask : UInt32) (isRE : Bool) (ops : List Op) :
    (∀ pre, pre <+: ops →
      Agrees ogre (pre.foldl (perform ogre) (initWithExpression string mask isRE))
      (pre.foldl applied ⟨string, mask, isRE⟩)) ↔
      Run.Guarded (fun e op => some (perform ogre e op)) ClearsWhatIsSet
        (initWithExpression string mask isRE) ops := by
  refine Run.follows_iff (I := Inv ogre) (fun h => inv_perform hogre h _) ?_
    (inv_initWithExpression string mask isRE) ?_
  · intro e v op h hagrees
    obtain rfl := (agrees_iff_eq h).mp hagrees
    exact (agrees_iff_eq (inv_perform hogre h op)).trans (perform_eq_iff hogre h op)
  · exact (agrees_iff_eq (inv_initWithExpression string mask isRE)).mpr
      (initWithExpression_values string mask isRE)

end

/-- A kit in which a compiled expression is its text, and is archived as that. -/
def plainKit : OgreKit NSString NSString where
  isValidExpressionString := fun s => s.all fun c => uc 'a' ≤ c && c ≤ uc 'z'
  initWithString := id
  archivedDataWithRootObject := id
  unarchiveObjectWithData := some
  boolValue := fun _ => false

def uncheckedAndSaved : List Op :=
  [.setChecksName false, .setIsRegularExpression true, .OGRegExpInstance, .reload,
    .setChecksName true,
    .setExpression (some (ns "b"))]

theorem run_agrees_uncheckedAndSaved :
    Agrees plainKit (uncheckedAndSaved.foldl (perform plainKit)
      (initWithExpression (some (ns "a")) 7 false))
      (uncheckedAndSaved.foldl applied ⟨some (ns "a"), 7, false⟩) := by
  refine (run_agrees_iff (fun _ => rfl) _ _ _ _).mpr ?_ uncheckedAndSaved List.prefix_rfl
  refine Run.guarded_cons rfl (.inr (by decide)) ?_
  refine Run.guarded_cons rfl trivial (Run.guarded_cons rfl trivial
    (Run.guarded_cons rfl trivial ?_))
  exact Run.guarded_cons rfl (.inl rfl) (Run.guarded_cons rfl trivial trivial)

/-- The name is no longer looked at, and once more is not to be: then it is. -/
theorem not_agrees_uncheckedTwice :
    ¬∀ pre, pre <+: [Op.setChecksName false, Op.setChecksName false] →
      Agrees plainKit
        (pre.foldl (perform plainKit) (initWithExpression (some (ns "a")) 7 false))
        (pre.foldl applied ⟨some (ns "a"), 7, false⟩) := by
  intro h
  have hmask := (h _ (List.prefix_refl _)).targetMask
  revert hmask
  decide

end BSNGExpression

end BathyScaphe.Composer
