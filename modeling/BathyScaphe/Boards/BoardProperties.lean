import BathyScaphe.Foundation.PropertyList
import BathyScaphe.Host.ReadURL

/-!
# The properties of boards

`BoardManager` keeps a dictionary of properties for each board, by the board's name. The entries
of older versions are strings, which are the name of nameless posts. Each setter makes a
dictionary of such an entry before it puts its value there.

A dictionary is an association list in which the newest entry of a key comes first.
-/

namespace BathyScaphe.BoardProperties

-- Dictionaries

abbrev NSDictionary (α : Type) := List (String × α)

namespace NSDictionary

variable {α : Type}

def setObject (entries : NSDictionary α) (obj : α) (key : String) : NSDictionary α :=
  (key, obj) :: entries

def removeObject (entries : NSDictionary α) (key : String) : NSDictionary α :=
  entries.filter fun entry => entry.1 != key

def dictionaryWithObjects (objects : List α) (keys : List String) : NSDictionary α :=
  (keys.zip objects).reverse

theorem lookup_setObject (entries : NSDictionary α) (obj : α) (key k : String) :
    (setObject entries obj key).lookup k = if k = key then some obj else entries.lookup k := by
  unfold setObject
  rw [List.lookup_cons]
  split
  · rename_i hk
    rw [if_pos (beq_iff_eq.mp hk)]
  · rename_i hk
    rw [if_neg (beq_eq_false_iff_ne.mp hk)]

theorem lookup_removeObject (entries : NSDictionary α) (key k : String) :
    (removeObject entries key).lookup k = if k = key then none else entries.lookup k := by
  unfold removeObject
  induction entries with
  | nil => simp
  | cons entry entries ih =>
    obtain ⟨name, obj⟩ := entry
    have hcons := lookup_setObject entries obj name k
    unfold setObject at hcons
    rw [List.filter_cons, hcons]
    by_cases hname : name = key
    · subst hname
      rw [if_neg (by simp), ih]
      split <;> rfl
    · have hrest := lookup_setObject (entries.filter fun entry => entry.1 != key) obj name k
      unfold setObject at hrest
      rw [if_pos (by simpa using hname), hrest, ih]
      by_cases hk : k = name
      · rw [if_pos hk, if_pos hk, if_neg (by rw [hk]; exact hname)]
      · rw [if_neg hk, if_neg hk]

theorem lookup_dictionaryWithObjects (obj obj' : α) (key key' k : String) :
    (dictionaryWithObjects [obj, obj'] [key, key']).lookup k =
      if k = key' then some obj' else if k = key then some obj else none := by
  have hentries : dictionaryWithObjects [obj, obj'] [key, key'] =
      setObject (setObject [] obj key) obj' key' := rfl
  rw [hentries, lookup_setObject, lookup_setObject]
  rfl

end NSDictionary

open NSDictionary

-- The store

inductive Entry
  | string (noName : NSString)
  | dictionary (entries : NSDictionary PropertyList)

abbrev NoNameDict := NSDictionary Entry

/-- What the system does: the answers of a dictionary to keys behind an `@`, and the comparison of
strings in any case. -/
structure System where
  valueForKey : NSDictionary PropertyList → String → Option PropertyList
  caseInsensitiveEqual : NSString → NSString → Bool

def NNDNoNameKey : String := "NoName"
def NNDBeLoginPolicyTypeKey : String := "BeLoginPolicy"

def BSBeLoginTriviallyNeeded : UInt32 := 0
def BSBeLoginTriviallyOFF : UInt32 := 1
def BSBeLoginDecidedByUser : UInt32 := 2
def BSBeLoginNoAccountOFF : UInt32 := 3

variable (system : System) (noNameDict : NoNameDict)

def entryForBoardName (aBoardName : String) : Option Entry := noNameDict.lookup aBoardName

def valueForKey (entries : NSDictionary PropertyList) (key : String) : Option PropertyList :=
  if key.toList.head? = some '@' then system.valueForKey entries (String.ofList key.toList.tail)
  else entries.lookup key

def valueForBoard (boardName key : String) (defaultValue : Option PropertyList) :
    Option PropertyList :=
  match entryForBoardName noNameDict boardName with
  | some (.dictionary entries) => (valueForKey system entries key).or defaultValue
  | _ => defaultValue

def stringValueForBoard (boardName key : String) (defaultValue : Option NSString) :
    Option NSString :=
  match entryForBoardName noNameDict boardName with
  | some (.dictionary entries) => (PropertyList.stringForKey (.dict entries) key).or defaultValue
  | _ => defaultValue

def stringBoolValue (s : NSString) : Bool :=
  0 < Host.intValue s || system.caseInsensitiveEqual s (ns "yes") ||
    system.caseInsensitiveEqual s (ns "true")

def boolValue : PropertyList → Bool
  | .string s => stringBoolValue system s
  | .number n => n ≠ 0
  | _ => false

def boolForKey (entries : NSDictionary PropertyList) (key : String) : Bool :=
  ((entries.lookup key).map (boolValue system)).getD false

def boolValueForBoard (boardName key : String) (defaultValue : Bool) : Bool :=
  match entryForBoardName noNameDict boardName with
  | some (.dictionary entries) => if (entries.lookup key).isSome then boolForKey system entries key
      else defaultValue
  | _ => defaultValue

def typeOfBeLoginPolicyForBoard (availableBe2chAccount : Bool)
    (hostOfBoard : String → Option NSString)
    (boardName : String) : UInt32 :=
  if !availableBe2chAccount then BSBeLoginNoAccountOFF
  else
    match hostOfBoard boardName with
    | none => BSBeLoginDecidedByUser
    | some hs =>
      if !Host.is_2channel hs then BSBeLoginTriviallyOFF
      else
        match entryForBoardName noNameDict boardName with
        | some (.dictionary entries) =>
          if (entries.lookup NNDBeLoginPolicyTypeKey).isSome then
            PropertyList.unsignedIntForKey (.dict entries) NNDBeLoginPolicyTypeKey
          else BSBeLoginDecidedByUser
        | _ => BSBeLoginDecidedByUser

def defaultNoNameArrayForBoard (boardName : String) : Option (List PropertyList) :=
  match entryForBoardName noNameDict boardName with
  | some (.dictionary entries) =>
    match entries.lookup NNDNoNameKey with
    | some (.string s) => some [.string s]
    | some (.array objects) => some objects
    | _ => none
  | some (.string noName) => some [.string noName]
  | none => none

-- Setters

/-- What the setters have in common: an entry that is not a dictionary becomes one. -/
def storeObject (obj : PropertyList) (key boardName : String) : NoNameDict :=
  match entryForBoardName noNameDict boardName with
  | none => setObject noNameDict (.dictionary (dictionaryWithObjects [obj] [key])) boardName
  | some (.string noName) =>
    setObject noNameDict (.dictionary (dictionaryWithObjects [.string noName, obj]
      [NNDNoNameKey, key])) boardName
  | some (.dictionary entries) =>
      setObject noNameDict (.dictionary (entries.setObject obj key)) boardName

/-- Any object, of which some are property lists. -/
inductive Object
  | propertyList (value : PropertyList)
  | other

def setValue (value : Object) (key boardName : String) : NoNameDict :=
  match value with
  | .propertyList value => storeObject noNameDict value key boardName
  | .other => noNameDict

def setStringValue (value : NSString) (key boardName : String) : NoNameDict :=
  storeObject noNameDict (.string value) key boardName

def numberWithBool (value : Bool) : PropertyList := .number (if value then 1 else 0)

def setBoolValue (value : Bool) (key boardName : String) : NoNameDict :=
  storeObject noNameDict (numberWithBool value) key boardName

def setTypeOfBeLoginPolicy (aType : UInt32) (boardName : String) : NoNameDict :=
  if aType = BSBeLoginDecidedByUser then noNameDict
  else storeObject noNameDict (PropertyList.ofUnsignedInt aType) NNDBeLoginPolicyTypeKey boardName

def setDefaultNoNameArray (array : List PropertyList) (boardName : String) : NoNameDict :=
  let shouldRemove := array.length = 0
  match entryForBoardName noNameDict boardName with
  | some (.dictionary entries) =>
    if shouldRemove then setObject noNameDict
      (.dictionary (entries.removeObject NNDNoNameKey)) boardName
    else setObject noNameDict
      (.dictionary (entries.setObject (.array array) NNDNoNameKey)) boardName
  | _ =>
    if shouldRemove then removeObject noNameDict boardName
    else setObject noNameDict (.dictionary (dictionaryWithObjects [.array array]
      [NNDNoNameKey])) boardName

def containsString (objects : List PropertyList) (s : NSString) : Bool :=
  objects.any fun obj => obj.asString = some s

def addNoName (additionalNoName : NSString) (boardName : String) : NoNameDict :=
  match defaultNoNameArrayForBoard noNameDict boardName with
  | none => setDefaultNoNameArray noNameDict [.string additionalNoName] boardName
  | some array =>
    if containsString array additionalNoName then noNameDict
    else setDefaultNoNameArray noNameDict (array ++ [.string additionalNoName]) boardName

def passPropertiesOfBoardName (boardName newBoardName : String) : NoNameDict :=
  if boardName = newBoardName then noNameDict
  else
    match noNameDict.lookup boardName with
    | none => noNameDict
    | some entry => removeObject (setObject noNameDict entry newBoardName) boardName

inductive Setter
  | setValue (value : Object) (key boardName : String)
  | setStringValue (value : NSString) (key boardName : String)
  | setBoolValue (value : Bool) (key boardName : String)
  | setTypeOfBeLoginPolicy (aType : UInt32) (boardName : String)
  | setDefaultNoNameArray (array : List PropertyList) (boardName : String)
  | addNoName (additionalNoName : NSString) (boardName : String)
  | passPropertiesOfBoardName (boardName newBoardName : String)

def perform : Setter → NoNameDict
  | .setValue value key boardName => setValue noNameDict value key boardName
  | .setStringValue value key boardName => setStringValue noNameDict value key boardName
  | .setBoolValue value key boardName => setBoolValue noNameDict value key boardName
  | .setTypeOfBeLoginPolicy aType boardName => setTypeOfBeLoginPolicy noNameDict aType boardName
  | .setDefaultNoNameArray array boardName => setDefaultNoNameArray noNameDict array boardName
  | .addNoName additionalNoName boardName => addNoName noNameDict additionalNoName boardName
  | .passPropertiesOfBoardName boardName newBoardName =>
      passPropertiesOfBoardName noNameDict boardName newBoardName

def performAll (setters : List Setter) : NoNameDict := setters.foldl perform noNameDict

-- What is known of a board

/-- The values that a board has by key; the only one of a board of an older version is its
no-name. -/
structure Properties where
  legacy : Bool
  value : String → Option PropertyList

abbrev Known := String → Option Properties

namespace Known

variable (known : Known)

def value (board key : String) : Option PropertyList := (known board).bind fun properties =>
    properties.value key

/-- The values that are asked for by key: the no-name of an older version is not among them. -/
def ownValue (board key : String) : Option PropertyList :=
  (known board).bind fun properties => if properties.legacy then none else properties.value key

def noNames (board : String) : Option (List PropertyList) :=
  match known.value board NNDNoNameKey with
  | some (.string s) => some [.string s]
  | some (.array objects) => some objects
  | _ => none

def set (board key : String) (obj : PropertyList) : Known := fun b =>
  if b = board then some ⟨false, fun k => if k = key then some obj else known.value board k⟩
  else known b

/-- Without its no-name a board of an older version has no properties. -/
def removeNoName (board : String) : Known := fun b =>
  if b = board then
    match known board with
    | some ⟨false, value⟩ => some ⟨false, fun k => if k = NNDNoNameKey then none else value k⟩
    | _ => none
  else known b

/-- The properties of `board` become those of `newBoard`, if there are any. -/
def pass (board newBoard : String) : Known := fun b =>
  if board = newBoard ∨ known board = none then known b
  else if b = board then none
  else if b = newBoard then known board
  else known b

/-- What a setter is for. The policy that leaves the choice to the user is not recorded, an object
that is not a property list is refused, no no-names are none, and a no-name is not added twice. -/
def after : Setter → Known
  | .setValue (.propertyList value) key board => known.set board key value
  | .setValue .other _ _ => known
  | .setStringValue value key board => known.set board key (.string value)
  | .setBoolValue value key board => known.set board key (numberWithBool value)
  | .setTypeOfBeLoginPolicy aType board =>
    if aType = BSBeLoginDecidedByUser then known
    else known.set board NNDBeLoginPolicyTypeKey (PropertyList.ofUnsignedInt aType)
  | .setDefaultNoNameArray array board =>
    if array = [] then known.removeNoName board else known.set board NNDNoNameKey (.array array)
  | .addNoName additionalNoName board =>
    let names := (known.noNames board).getD []
    if containsString names additionalNoName then known
    else known.set board NNDNoNameKey (.array (names ++ [.string additionalNoName]))
  | .passPropertiesOfBoardName board newBoard => known.pass board newBoard

end Known

def Entry.properties : Entry → Properties
  | .string noName => ⟨true, fun k => if k = NNDNoNameKey then some (.string noName) else none⟩
  | .dictionary entries => ⟨false, fun k => entries.lookup k⟩

def known : Known := fun board => (entryForBoardName noNameDict board).map Entry.properties

/-- The values that were set last, beginning with those of the dictionary. -/
def lastSet (setters : List Setter) : Known := setters.foldl Known.after (known noNameDict)

def Setter.Sets : Setter → String → String → Prop
  | .setValue _ key board, b, k | .setStringValue _ key board, b, k
      | .setBoolValue _ key board, b, k =>
    b = board ∧ k = key
  | .setTypeOfBeLoginPolicy _ board, b, k => b = board ∧ k = NNDBeLoginPolicyTypeKey
  | .setDefaultNoNameArray _ board, b, k | .addNoName _ board, b, k => b = board ∧ k = NNDNoNameKey
  | .passPropertiesOfBoardName board newBoard, b, _ => b = board ∨ b = newBoard

/-- Every getter answers with the value that is known, or with its default. -/
structure Answers (k : Known) : Prop where
  value : ∀ board key defaultValue, key.toList.head? ≠ some '@' →
    valueForBoard system noNameDict board key defaultValue = (k.ownValue board key).or defaultValue
  string : ∀ board key defaultValue,
    stringValueForBoard noNameDict board key defaultValue =
      ((k.ownValue board key).bind PropertyList.asString).or defaultValue
  bool : ∀ board key defaultValue,
    boolValueForBoard system noNameDict board key defaultValue =
      ((k.ownValue board key).map (boolValue system)).getD defaultValue
  policy : ∀ availableBe2chAccount hostOfBoard board,
    typeOfBeLoginPolicyForBoard noNameDict availableBe2chAccount hostOfBoard board =
      if !availableBe2chAccount then BSBeLoginNoAccountOFF
      else
        match hostOfBoard board with
        | none => BSBeLoginDecidedByUser
        | some hs =>
          if !Host.is_2channel hs then BSBeLoginTriviallyOFF
          else
            match k.ownValue board NNDBeLoginPolicyTypeKey with
            | some obj => (obj.asNumber.map PropertyList.unsignedIntValue).getD 0
            | none => BSBeLoginDecidedByUser
  noNames : ∀ board, defaultNoNameArrayForBoard noNameDict board = k.noNames board

-- Getters

theorem known_of_none (h : noNameDict.lookup board = none) : known noNameDict board = none := by
  rw [known, entryForBoardName, h]
  rfl

theorem known_of_some (h : noNameDict.lookup board = some entry) :
    known noNameDict board = some entry.properties := by
  rw [known, entryForBoardName, h]
  rfl

theorem answers_known : Answers system noNameDict (known noNameDict) where
  value board key defaultValue hkey := by
    unfold valueForBoard entryForBoardName Known.ownValue
    cases h : noNameDict.lookup board with
    | none => rw [known_of_none _ h]; rfl
    | some entry =>
      rw [known_of_some _ h]
      cases entry with
      | string noName => rfl
      | dictionary entries =>
        simp only [valueForKey, if_neg hkey]
        rfl
  string board key defaultValue := by
    unfold stringValueForBoard entryForBoardName Known.ownValue
    cases h : noNameDict.lookup board with
    | none => rw [known_of_none _ h]; rfl
    | some entry =>
      rw [known_of_some _ h]
      cases entry with
      | string noName => rfl
      | dictionary entries => rfl
  bool board key defaultValue := by
    unfold boolValueForBoard entryForBoardName Known.ownValue
    cases h : noNameDict.lookup board with
    | none => rw [known_of_none _ h]; rfl
    | some entry =>
      rw [known_of_some _ h]
      cases entry with
      | string noName => rfl
      | dictionary entries =>
        simp only [Option.bind_some, Entry.properties, boolForKey]
        cases hvalue : entries.lookup key <;> simp
  policy availableBe2chAccount hostOfBoard board := by
    unfold typeOfBeLoginPolicyForBoard entryForBoardName Known.ownValue
    cases h : noNameDict.lookup board with
    | none => rw [known_of_none _ h]; rfl
    | some entry =>
      rw [known_of_some _ h]
      cases entry with
      | string noName => rfl
      | dictionary entries =>
        simp only [Option.bind_some, Entry.properties]
        cases hvalue : entries.lookup NNDBeLoginPolicyTypeKey with
        | none => rfl
        | some obj => simp [PropertyList.unsignedIntForKey, PropertyList.numberForKey,
            PropertyList.objectForKey, hvalue]
  noNames board := by
    unfold defaultNoNameArrayForBoard entryForBoardName Known.noNames Known.value
    cases h : noNameDict.lookup board with
    | none => rw [known_of_none _ h]; rfl
    | some entry =>
      rw [known_of_some _ h]
      cases entry with
      | string noName => rfl
      | dictionary entries => rfl

-- One setter

variable {noNameDict}

theorem known_setObject (entry : Entry) (board : String) :
    known (setObject noNameDict entry board) = fun b => if b = board then some entry.properties
    else known noNameDict b := by
  funext b
  unfold known entryForBoardName
  rw [lookup_setObject]
  split <;> rfl

theorem known_removeObject (board : String) :
    known (removeObject noNameDict board) = fun b => if b = board then none
    else known noNameDict b := by
  funext b
  unfold known entryForBoardName
  rw [lookup_removeObject]
  split <;> rfl

/-- The values of a board without properties are none, those of a string are its no-name. -/
theorem properties_dictionary_setObject {entries : NSDictionary PropertyList} (obj : PropertyList)
    (key : String) :
    (Entry.dictionary (entries.setObject obj key)).properties =
      ⟨false, fun k => if k = key then some obj else entries.lookup k⟩ := by
  unfold Entry.properties
  simp only [lookup_setObject]

theorem known_storeObject (obj : PropertyList) (key board : String) :
    known (storeObject noNameDict obj key board) = (known noNameDict).set board key obj := by
  unfold storeObject Known.set Known.value entryForBoardName
  cases h : noNameDict.lookup board with
  | none =>
    dsimp only
    rw [known_setObject, known_of_none _ h]
    exact congrArg (fun properties b => if b = board then some properties else known noNameDict b)
      (@properties_dictionary_setObject [] obj key)
  | some entry =>
    cases entry with
    | string noName =>
      dsimp only
      rw [known_setObject, known_of_some _ h]
      simp only [Entry.properties, lookup_dictionaryWithObjects, Option.bind_some]
    | dictionary entries =>
      dsimp only
      rw [known_setObject, known_of_some _ h, properties_dictionary_setObject]
      rfl

theorem known_setDefaultNoNameArray_of_ne_nil {array : List PropertyList} (harray : array ≠ [])
    (board : String) :
    known (setDefaultNoNameArray noNameDict array board) = (known noNameDict).set board NNDNoNameKey
      (.array array) := by
  have hlength : array.length ≠ 0 := mt List.length_eq_zero_iff.mp harray
  unfold setDefaultNoNameArray Known.set Known.value entryForBoardName
  cases h : noNameDict.lookup board with
  | none =>
    simp only [if_neg hlength]
    rw [known_setObject, known_of_none _ h]
    exact congrArg (fun properties b => if b = board then some properties else known noNameDict b)
      (@properties_dictionary_setObject [] (.array array) NNDNoNameKey)
  | some entry =>
    cases entry with
    | string noName =>
      simp only [if_neg hlength]
      rw [known_setObject, known_of_some _ h]
      -- the string is the value of the same key
      have hvalues :
        (Entry.dictionary (dictionaryWithObjects [.array array] [NNDNoNameKey])).properties =
          ⟨false, fun k => if k = NNDNoNameKey then some (.array array)
            else if k = NNDNoNameKey then some (.string noName) else none⟩ := by
        refine (@properties_dictionary_setObject [] (.array array) NNDNoNameKey).trans ?_
        simp only [List.lookup_nil, Properties.mk.injEq, true_and]
        funext k
        split <;> simp_all
      exact congrArg (fun properties b => if b = board then some properties
        else known noNameDict b) hvalues
    | dictionary entries =>
      simp only [if_neg hlength]
      rw [known_setObject, known_of_some _ h, properties_dictionary_setObject]
      rfl

theorem known_setDefaultNoNameArray_nil (board : String) :
    known (setDefaultNoNameArray noNameDict [] board) = (known noNameDict).removeNoName board := by
  unfold setDefaultNoNameArray Known.removeNoName entryForBoardName
  cases h : noNameDict.lookup board with
  | none =>
    simp only [List.length_nil, if_true]
    rw [known_of_none _ h, known_removeObject]
  | some entry =>
    cases entry with
    | string noName =>
      simp only [List.length_nil, if_true]
      rw [known_of_some _ h, known_removeObject]
      rfl
    | dictionary entries =>
      simp only [List.length_nil, if_true]
      rw [known_of_some _ h, known_setObject]
      simp only [Entry.properties, lookup_removeObject]

theorem known_addNoName (additionalNoName : NSString) (board : String) :
    known (addNoName noNameDict additionalNoName board) =
      (known noNameDict).after (.addNoName additionalNoName board) := by
  have hnames := (answers_known ⟨fun _ _ => none, fun _ _ => false⟩ noNameDict).noNames board
  unfold addNoName
  rw [hnames]
  simp only [Known.after]
  cases (known noNameDict).noNames board with
  | none => exact known_setDefaultNoNameArray_of_ne_nil (List.cons_ne_nil _ _) board
  | some array =>
    simp only [Option.getD_some]
    split
    · rfl
    · exact known_setDefaultNoNameArray_of_ne_nil (by simp) board

theorem known_passProperties (board newBoard : String) :
    known (passPropertiesOfBoardName noNameDict board newBoard) =
      (known noNameDict).pass board newBoard := by
  unfold passPropertiesOfBoardName Known.pass
  by_cases hsame : board = newBoard
  · simp only [hsame, true_or, if_true]
  · rw [if_neg hsame]
    cases h : noNameDict.lookup board with
    | none =>
      dsimp only
      simp only [known_of_none _ h, or_true, if_true]
    | some entry =>
      dsimp only
      rw [known_removeObject, known_setObject, known_of_some _ h]
      simp only [hsame, reduceCtorEq, or_self, if_false]

theorem known_perform (setter : Setter) : known (perform noNameDict setter) =
    (known noNameDict).after setter := by
  cases setter with
  | setValue value key board =>
    cases value with
    | propertyList value => exact known_storeObject value key board
    | other => rfl
  | setStringValue value key board => exact known_storeObject (.string value) key board
  | setBoolValue value key board => exact known_storeObject (numberWithBool value) key board
  | setTypeOfBeLoginPolicy aType board =>
    simp only [perform, setTypeOfBeLoginPolicy, Known.after]
    split
    · rfl
    · exact known_storeObject _ _ board
  | setDefaultNoNameArray array board =>
    simp only [perform, Known.after]
    split
    · rename_i hnil
      rw [hnil]
      exact known_setDefaultNoNameArray_nil board
    · exact known_setDefaultNoNameArray_of_ne_nil ‹_› board
  | addNoName additionalNoName board => exact known_addNoName additionalNoName board
  | passPropertiesOfBoardName board newBoard => exact known_passProperties board newBoard

theorem known_performAll (setters : List Setter) :
    known (performAll noNameDict setters) = lastSet noNameDict setters := by
  unfold performAll lastSet
  induction setters generalizing noNameDict with
  | nil => rfl
  | cons setter setters ih =>
    rw [List.foldl_cons, List.foldl_cons, ih, known_perform]

-- What a setter leaves

variable {k : Known} {board key b c : String}

theorem Known.value_set (obj : PropertyList) (h : ¬ (b = board ∧ c = key)) :
    (k.set board key obj).value b c = k.value b c := by
  unfold Known.value Known.set
  by_cases hb : b = board
  · subst hb
    have hc : c ≠ key := fun hc => h ⟨rfl, hc⟩
    rw [if_pos rfl]
    simp only [Option.bind_some, if_neg hc]
    rfl
  · rw [if_neg hb]

theorem value_removeNoName (h : ¬ (b = board ∧ c = NNDNoNameKey)) :
    ((known noNameDict).removeNoName board).value b c = (known noNameDict).value b c := by
  unfold Known.value Known.removeNoName
  by_cases hb : b = board
  · subst hb
    have hc : c ≠ NNDNoNameKey := fun hc => h ⟨rfl, hc⟩
    rw [if_pos rfl]
    cases hentry : noNameDict.lookup b with
    | none => rw [known_of_none _ hentry]
    | some entry =>
      rw [known_of_some _ hentry]
      cases entry with
      | string noName => simp only [Entry.properties, Option.bind_some, Option.bind_none, if_neg hc]
      | dictionary entries =>
        simp only [Entry.properties, Option.bind_some, if_neg hc]
  · rw [if_neg hb]

theorem Known.value_pass (h : ¬ (b = board ∨ b = key)) :
    (k.pass board key).value b c = k.value b c := by
  rw [not_or] at h
  unfold Known.value Known.pass
  rw [if_neg h.1, if_neg h.2, ite_self]

theorem value_after (setter : Setter) (h : ¬ setter.Sets b c) :
    ((known noNameDict).after setter).value b c = (known noNameDict).value b c := by
  cases setter with
  | setValue value key board =>
    cases value with
    | propertyList value => exact Known.value_set value h
    | other => rfl
  | setStringValue value key board => exact Known.value_set (.string value) h
  | setBoolValue value key board => exact Known.value_set (numberWithBool value) h
  | setTypeOfBeLoginPolicy aType board =>
    simp only [Known.after]
    split
    · rfl
    · exact Known.value_set _ h
  | setDefaultNoNameArray array board =>
    simp only [Known.after]
    split
    · exact value_removeNoName h
    · exact Known.value_set _ h
  | addNoName additionalNoName board =>
    simp only [Known.after]
    split
    · rfl
    · exact Known.value_set _ h
  | passPropertiesOfBoardName board newBoard => exact Known.value_pass h

theorem ownValue_known (hc : c ≠ NNDNoNameKey) :
    (known noNameDict).ownValue b c = (known noNameDict).value b c := by
  unfold Known.ownValue Known.value
  cases hentry : noNameDict.lookup b with
  | none => rw [known_of_none _ hentry]; rfl
  | some entry =>
    rw [known_of_some _ hentry]
    cases entry with
    | string noName => simp only [Entry.properties, Option.bind_some, if_true, if_neg hc]
    | dictionary entries => rfl

theorem ownValue_after (setter : Setter) (h : ¬ setter.Sets b c) (hc : c ≠ NNDNoNameKey) :
    ((known noNameDict).after setter).ownValue b c = (known noNameDict).ownValue b c := by
  rw [← known_perform, ownValue_known hc, known_perform, value_after setter h, ownValue_known hc]

/-- After any setters the getters answer with the values that were set last, and one more setter
leaves the other keys and boards as they are; the no-name of an older version can then be asked for
by its key, too. -/
theorem answers_performAll (system : System) (noNameDict : NoNameDict) (setters : List Setter) :
    Answers system (performAll noNameDict setters) (lastSet noNameDict setters) ∧
      ∀ setter board key, ¬ Setter.Sets setter board key →
        (lastSet noNameDict (setters ++ [setter])).value board key =
          (lastSet noNameDict setters).value board key ∧
          (key ≠ NNDNoNameKey →
            (lastSet noNameDict (setters ++ [setter])).ownValue board key =
              (lastSet noNameDict setters).ownValue board key) := by
  constructor
  · rw [← known_performAll]
    exact answers_known system _
  · intro setter board key h
    rw [lastSet, List.foldl_append, ← lastSet, ← known_performAll]
    exact ⟨value_after setter h, ownValue_after setter h⟩

def countingSystem : System where
  valueForKey entries key := if key = "count" then some (.number entries.length) else none
  caseInsensitiveEqual s t := s = t

/-- The choice of the user is not set, the policy is not asked for without an account, no no-names
are none, an object is refused, a key with an `@` is not looked up, and the no-name of an older
version has no value for its key before another key is set. -/
theorem not_answers_last :
    (typeOfBeLoginPolicyForBoard
      (performAll [] [.setTypeOfBeLoginPolicy BSBeLoginTriviallyNeeded "b",
        .setTypeOfBeLoginPolicy BSBeLoginDecidedByUser "b"]) true (fun _ =>
          some (ns "pc.2ch.net")) "b" ≠
      BSBeLoginDecidedByUser) ∧
    (typeOfBeLoginPolicyForBoard
      (performAll [] [.setTypeOfBeLoginPolicy BSBeLoginTriviallyNeeded "b"]) false
        (fun _ => some (ns "pc.2ch.net")) "b" ≠ BSBeLoginTriviallyNeeded) ∧
    defaultNoNameArrayForBoard (performAll [] [.setDefaultNoNameArray [] "b"]) "b" ≠ some [] ∧
    valueForBoard countingSystem (performAll [] [.setValue .other "k" "b"]) "b" "k" none = none ∧
    valueForBoard countingSystem (performAll [] [.setStringValue (ns "x") "@count" "b"])
      "b" "@count" none ≠
      some (.string (ns "x")) ∧
    stringValueForBoard (performAll [("b", .string (ns "x"))]
      [.setBoolValue true "k" "b"]) "b" NNDNoNameKey none ≠
      stringValueForBoard [("b", .string (ns "x"))] "b" NNDNoNameKey none := by
  refine ⟨by decide, by decide, nofun, rfl, nofun, by decide⟩

end BathyScaphe.BoardProperties
