import BathyScaphe.Foundation.RangedReplacement
import BathyScaphe.Lib.Flags
import BathyScaphe.Lib.Macro
import Mathlib.Data.List.Lex

/-!
# Key bindings

The keys of a binding dictionary are brought to one form: the signs of the modifiers in
their order and the character in lower case. A key-down event gives a key of the same form,
which is looked up as it is and then without any keypad sign.
-/

namespace BathyScaphe.AppKit

open NSString

def NSShiftKeyMask : UInt32 := 0x20000

def NSControlKeyMask : UInt32 := 0x40000

def NSAlternateKeyMask : UInt32 := 0x80000

def NSCommandKeyMask : UInt32 := 0x100000

def NSNumericPadKeyMask : UInt32 := 0x200000

-- The signs stand in a key in this order.
def kControlCharacter : NSString := ns "^"

def kCommandCharacter : NSString := ns "@"

def kAltCharacter : NSString := ns "~"

def kShiftCharacter : NSString := ns "$"

def kNumericKeypadCharacter : NSString := ns "#"

inductive Modifier where
  | control
  | command
  | alternate
  | shift
  | numericKeypad
  deriving DecidableEq

namespace Modifier

def all : List Modifier := [.control, .command, .alternate, .shift, .numericKeypad]

def sign : Modifier → UniChar
  | .control => uc '^'
  | .command => uc '@'
  | .alternate => uc '~'
  | .shift => uc '$'
  | .numericKeypad => uc '#'

def mask : Modifier → UInt32
  | .control => NSControlKeyMask
  | .command => NSCommandKeyMask
  | .alternate => NSAlternateKeyMask
  | .shift => NSShiftKeyMask
  | .numericKeypad => NSNumericPadKeyMask

theorem mem_all (m : Modifier) : m ∈ all := by cases m <;> decide

theorem sign_injective : Function.Injective sign := by
  intro m m' h
  cases m <;> cases m' <;> first | rfl | exact absurd h (by decide)

end Modifier

/-- What the characters of a text are to the code: a text is cut into its composed
characters, each of which is written in lower case. -/
structure Characters where
  composed : NSString → List NSString
  lowercaseString : NSString → NSString
  composed_flatten : ∀ s, (composed s).flatten = s

/-- One character, which signs in front of it do not become part of. -/
def Characters.IsCharacter (text : Characters) (c : NSString) : Prop :=
  c ≠ [] ∧ ∀ signs : List Modifier, text.composed (signs.map (·.sign) ++ c) =
    signs.map (fun m => [m.sign]) ++ [c]

structure Unicode extends Characters where
  isCharacter_sign : ∀ m : Modifier, toCharacters.IsCharacter [m.sign]
  isCharacter_lowercaseString : ∀ c, toCharacters.IsCharacter c →
    toCharacters.IsCharacter (lowercaseString c)
  not_bracketed : ∀ c, toCharacters.IsCharacter c → uc '<' ∈ c → uc '>' ∉ c

structure KeybindingMacros where
  entries : List (NSString × UniChar)
  plain : Macro.Plain (uc '<') (uc '>') entries
  name_not_signs : ∀ e ∈ entries, ∀ m : Modifier, m.sign ∉ e.1

inductive BindingObject where
  | string (s : NSString)
  | dictionary (entries : List (NSString × BindingObject))
  | other

/-- A dictionary, in the order in which its keys are enumerated. -/
abbrev BindingDict := List (NSString × BindingObject)

namespace SGKeyBindingSupport

-- Macros

/-- The loop of `expandMacroWithBindingString`, which searches from a location. -/
def expandMacroFrom (macroName : NSString) (c : UniChar) (src : NSString)
    (location : Nat) : NSString :=
  match _hfound : src.rangeOfString macroName (src.rangeFrom location) with
  | none => src
  | some found =>
    if found.location = 0 then
      src
    else if src[found.location - 1]? ≠ some (uc '<') then
      src
    else if src.length = found.max then
      src
    else if src[found.max]? ≠ some (uc '>') then
      src else
      let replaced := src.replaceCharactersInRange ⟨found.location - 1, found.length + 2⟩ [c]
      let location := found.location - 1 + 1
      if replaced.length = location then replaced else expandMacroFrom macroName c replaced location
termination_by src.length - location
decreasing_by
  obtain ⟨hlocation, hlength, hmax⟩ := max_rangeOfString_rangeFrom _hfound
  have hpos : 0 < found.length := by
    rw [hlength, List.length_pos_iff]
    rintro rfl
    simp [rangeOfString] at _hfound
  rw [NSRange.max] at hmax
  simp only [replaceCharactersInRange, NSRange.max, List.length_append, List.length_take,
    List.length_drop, List.length_singleton]
  omega

def expandMacroWithBindingString (src macroName : NSString) (unicharRep : UniChar) : NSString :=
  if src = [] ∨ macroName = [] then src else expandMacroFrom macroName unicharRep src 0

def expandMacros (macros : List (NSString × UniChar)) (key : NSString) : NSString :=
  macros.foldl (fun tmpKey e => expandMacroWithBindingString tmpKey e.1 e.2) key

-- Keys

def keyModifierMaskWithString (str : NSString) : UInt32 :=
  if kControlCharacter = str then NSControlKeyMask
  else if kCommandCharacter = str then NSCommandKeyMask
  else if kAltCharacter = str then NSAlternateKeyMask
  else if kShiftCharacter = str then NSShiftKeyMask
  else if kNumericKeypadCharacter = str then NSNumericPadKeyMask
  else 0

def keyBindingStringWithModifierFlags (flags : UInt32) : NSString :=
  (if NSControlKeyMask &&& flags ≠ 0 then kControlCharacter else []) ++
    (if NSCommandKeyMask &&& flags ≠ 0 then kCommandCharacter else []) ++
    (if NSAlternateKeyMask &&& flags ≠ 0 then kAltCharacter else []) ++
    (if NSShiftKeyMask &&& flags ≠ 0 then kShiftCharacter else []) ++
    (if NSNumericPadKeyMask &&& flags ≠ 0 then kNumericKeypadCharacter else [])

variable (text : Characters) (macros : List (NSString × UniChar))

def keyBindingStringWithCharacters (characters : NSString) (modifierFlags : UInt32) : NSString :=
  keyBindingStringWithModifierFlags modifierFlags ++ text.lowercaseString characters

/-- The last character of a key is its own, the signs of modifiers in front of it count. -/
def keyBindingStringWithKey (aKey : NSString) : Option NSString :=
  match (text.composed aKey).reverse with
  | [] => none
  | character :: others =>
    let modifierFlags := others.foldl (fun flags s =>
      let mask := keyModifierMaskWithString s
      if mask = 0 then flags else flags ||| mask) 0
    some (keyBindingStringWithCharacters text character modifierFlags)

def setObject (dict : BindingDict) (value : BindingObject) (key : NSString) : BindingDict :=
  (key, value) :: dict.filter fun entry => entry.1 ≠ key

mutual
def convertEntries (dict_ : BindingDict) : BindingDict → BindingDict
  | [] => dict_
  | (key, value) :: entries =>
    match keyBindingStringWithKey text (expandMacros macros key) with
    | none => convertEntries dict_ entries
    | some bindingKey => convertEntries (setObject dict_ (convertObject value) bindingKey) entries
def convertObject : BindingObject → BindingObject
  | .dictionary entries => .dictionary (convertEntries [] entries)
  | .string s => .string s
  | .other => .other
end

def convertKeyBindingDictionary (dict : BindingDict) : BindingDict :=
  convertEntries text macros [] dict

-- Looking up

def stringForKey (dict : BindingDict) (key : NSString) : Option NSString :=
  match dict.lookup key with
  | some (.string s) => some s
  | _ => none

def containsString (s aString : NSString) : Bool :=
  decide (text.composed aString <:+: text.composed s)

def stringByReplaceCharacters (s chars replacement : NSString) : NSString :=
  if containsString text s chars then
    s.replaceCharacters chars replacement NSLiteralSearch ⟨0, s.length⟩
  else s

theorem replaceCharacters_unit (s : NSString) (c : UniChar) :
    s.replaceCharacters [c] [] NSLiteralSearch ⟨0, s.length⟩ = s.filter (· ≠ c) := by
  have hall : s.replaceCharacters [c] [] NSLiteralSearch ⟨0, s.length⟩ =
    Replace.replaceAll [(c == ·)] [] s :=
    @_replaceCharactersIn_all (.string [c]) NSLiteralSearch [] [] s
  rw [hall]
  clear hall
  induction s with
  | nil => rfl
  | cons d s ih =>
    have hoccurs : Replace.occurs [(c == ·)] (d :: s) = (c == d) := by
      rw [Replace.occurs, Replace.begins, Replace.begins]
      simp
    rw [Replace.replaceAll] at ih
    rw [Replace.replaceAll, Replace.replaceFrom, hoccurs, List.filter_cons]
    by_cases hd : d = c
    · simpa [hd] using ih
    · simpa [hd, Ne.symm hd] using ih

theorem mem_of_containsString (h : containsString text s [c] = true) : c ∈ s := by
  obtain ⟨before, after, hparts⟩ := of_decide_eq_true h
  rw [← text.composed_flatten s, ← hparts, List.flatten_append, List.flatten_append,
    text.composed_flatten]
  simp

/-- The selector that a key is bound to, with or without keypad signs. -/
def selecterFromkeyBindingString (dict : BindingDict) (str : NSString) : Option NSString :=
  match stringForKey dict str with
  | some selector => some selector
  | none =>
    if _h : 2 ≤ str.length ∧ containsString text str kNumericKeypadCharacter = true then
      selecterFromkeyBindingString dict
        (stringByReplaceCharacters text str kNumericKeypadCharacter [])
    else none
termination_by str.length
decreasing_by
  rw [stringByReplaceCharacters, if_pos _h.2, kNumericKeypadCharacter]
  have hmem := mem_of_containsString text _h.2
  exact (congrArg List.length (replaceCharacters_unit str (uc '#'))).trans_lt
    (List.length_filter_lt_length_iff_exists.mpr ⟨uc '#', hmem, by simp⟩)

end SGKeyBindingSupport

inductive NSEventType where
  | keyDown
  | other
  deriving DecidableEq

structure NSEvent where
  type : NSEventType
  charactersIgnoringModifiers : Option NSString
  modifierFlags : UInt32

namespace SGKeyBindingSupport

def keyBindingStringWithEvent (text : Characters) (anEvent : NSEvent) : Option NSString :=
  if anEvent.type ≠ .keyDown then
    none else
    match anEvent.charactersIgnoringModifiers with
    | none => none
    | some character =>
      if character.length = 0 then
        none else
        some (keyBindingStringWithCharacters text character anEvent.modifierFlags)

/-- The selector that `interpretKeyBindingWithEvent:target:` sends. -/
def selectorForEvent (text : Characters) (dict : BindingDict) (anEvent : NSEvent) :
    Option NSString :=
  (keyBindingStringWithEvent text anEvent).bind (selecterFromkeyBindingString text dict)

end SGKeyBindingSupport

open SGKeyBindingSupport

-- What bindings mean

/-- A character, or the macro that stands for it. -/
inductive KeyText (macros : KeybindingMacros) : NSString → NSString → Prop
  | character : KeyText macros c c
  | named (h : e ∈ macros.entries) : KeyText macros (Macro.call (uc '<') (uc '>') e.1) [e.2]

structure Binding (unicode : Unicode) (macros : KeybindingMacros) where
  modifiers : List Modifier
  keyText : NSString
  character : NSString
  selector : NSString
  stands : KeyText macros keyText character
  isCharacter : unicode.IsCharacter character

variable {unicode : Unicode} {macros : KeybindingMacros}

namespace Binding

def entry (b : Binding unicode macros) : NSString × BindingObject :=
  (b.modifiers.map (·.sign) ++ b.keyText, .string b.selector)

/-- The binding is for the character, in whatever case, and exactly these modifiers. -/
def Matches (b : Binding unicode macros) (c : NSString) (held : Modifier → Bool) : Prop :=
  unicode.lowercaseString b.character = unicode.lowercaseString c ∧ ∀ m, m ∈ b.modifiers ↔
    held m = true

end Binding

def held (flags : UInt32) (m : Modifier) : Bool := m.mask &&& flags ≠ 0

def withoutKeypad (held : Modifier → Bool) (m : Modifier) : Bool := held m && m ≠ .numericKeypad

/-- What an event finds that has no binding itself: with the keypad modifier, the selector
of a binding without it. -/
def FindsWithoutKeypad (bindings : List (Binding unicode macros)) (c : NSString)
    (held : Modifier → Bool) :
    Option NSString → Prop
  | some selector =>
    held .numericKeypad = true ∧ ∃ b ∈ bindings, b.Matches c (withoutKeypad held) ∧
      b.selector = selector
  | none => held .numericKeypad = true → ∀ b ∈ bindings, ¬b.Matches c (withoutKeypad held)

def Finds (bindings : List (Binding unicode macros)) (c : NSString) (held : Modifier → Bool)
    (answer : Option NSString) : Prop :=
  (∃ b ∈ bindings, b.Matches c held ∧ answer = some b.selector) ∨
    (∀ b ∈ bindings, ¬b.Matches c held) ∧ FindsWithoutKeypad bindings c held answer

def normalKey (held : Modifier → Bool) (character : NSString) : NSString :=
  (Modifier.all.filter held).map (·.sign) ++ character

def Binding.key (b : Binding unicode macros) : NSString :=
  normalKey (fun m => decide (m ∈ b.modifiers)) (unicode.lowercaseString b.character)

def lastBound (bindings : List (Binding unicode macros)) (key : NSString) : Option NSString :=
  ((bindings.filter fun b => b.key = key).getLast?).map (·.selector)

/-- An event with the keypad sign in its character has a binding, or what its key without
any keypad sign is bound to is what it should find without the keypad modifier. -/
def Untangled (bindings : List (Binding unicode macros)) (c : NSString)
    (held : Modifier → Bool) : Prop :=
  uc '#' ∈ unicode.lowercaseString c →
    held .numericKeypad = true ∨ unicode.lowercaseString c = kNumericKeypadCharacter →
    (∀ b ∈ bindings, ¬b.Matches c held) →
      FindsWithoutKeypad bindings c held
        (lastBound bindings ((normalKey held (unicode.lowercaseString c)).filter (· ≠ uc '#')))

-- Keys in one form

theorem keyBindingStringWithModifierFlags_eq (flags : UInt32) :
    keyBindingStringWithModifierFlags flags = (Modifier.all.filter (held flags)).map (·.sign) := by
  simp only [keyBindingStringWithModifierFlags, Modifier.all, List.filter_cons,
    List.filter_nil, held, Modifier.mask]
  by_cases hcontrol : NSControlKeyMask &&& flags = 0 <;> by_cases hcommand :
    NSCommandKeyMask &&& flags = 0 <;>
    by_cases halternate : NSAlternateKeyMask &&& flags = 0 <;> by_cases hshift :
      NSShiftKeyMask &&& flags = 0 <;>
    by_cases hkeypad : NSNumericPadKeyMask &&& flags = 0 <;>
    simp [hcontrol, hcommand, halternate, hshift, hkeypad, Modifier.sign, kControlCharacter,
      kCommandCharacter, kAltCharacter, kShiftCharacter, kNumericKeypadCharacter, ns, uc]

theorem keyBindingStringWithCharacters_eq (text : Characters) (c : NSString) (flags : UInt32) :
    keyBindingStringWithCharacters text c flags = normalKey (held flags)
      (text.lowercaseString c) := by
  rw [keyBindingStringWithCharacters, keyBindingStringWithModifierFlags_eq, normalKey]

theorem keyModifierMaskWithString_sign (m : Modifier) : keyModifierMaskWithString
    [m.sign] = m.mask := by
  cases m <;> decide

theorem held_or_mask (flags : UInt32) (m m' : Modifier) :
    held (flags ||| m.mask) m' = (held flags m' || decide (m' = m)) := by
  unfold held
  rw [UInt32.and_comm, UInt32.and_comm _ flags]
  by_cases heq : m' = m
  · have hmask : m.mask ≠ 0 := by cases m <;> decide
    simp [heq, Flags.or_and_self, hmask]
  · have hdisjoint : m.mask &&& m'.mask = 0 := by
      cases m <;> cases m' <;> first | exact absurd rfl heq | decide
    simp [heq, Flags.or_and_of_disjoint hdisjoint]

theorem held_foldl (signs : List Modifier) (flags : UInt32) (m : Modifier) :
    held ((signs.map fun m => [m.sign]).foldl (fun flags s =>
      let mask := keyModifierMaskWithString s
      if mask = 0 then flags else flags ||| mask) flags) m =
        (held flags m || decide (m ∈ signs)) := by
  induction signs generalizing flags with
  | nil => simp
  | cons m' signs ih =>
    have hmask : m'.mask ≠ 0 := by cases m' <;> decide
    simp only [List.map_cons, List.foldl_cons, keyModifierMaskWithString_sign, hmask, if_false]
    rw [ih, held_or_mask]
    simp [Bool.or_assoc]

theorem composed_normalKey (h : unicode.IsCharacter c) (held : Modifier → Bool) :
    unicode.composed (normalKey held c) = (Modifier.all.filter held).map (fun m => [m.sign]) ++
      [c] := h.2 _

theorem normalKey_inj (hc : unicode.IsCharacter c) (hc' : unicode.IsCharacter c') :
    normalKey p c = normalKey q c' ↔ c = c' ∧ p = q := by
  constructor
  · intro h
    have hcomposed := congrArg unicode.composed h
    rw [composed_normalKey hc, composed_normalKey hc'] at hcomposed
    obtain ⟨hsigns, hlast⟩ := List.append_inj' hcomposed rfl
    refine ⟨List.singleton_inj.mp hlast, funext fun m => Bool.eq_iff_iff.mpr ?_⟩
    have hinjective : Function.Injective fun m : Modifier => [m.sign] := fun m m' h =>
      Modifier.sign_injective (List.singleton_inj.mp h)
    have hfilters := List.map_injective_iff.mpr hinjective hsigns
    simpa [Modifier.mem_all] using congrArg (m ∈ ·) hfilters
  · rintro ⟨rfl, rfl⟩
    rfl

-- Macros in keys

section
variable {macroName : NSString} {c : UniChar}

/-- The unit in front of an occurrence, which does not stand at the location itself. -/
theorem getElem?_before (done u rest : NSString) (hdone : done.getLast? ≠ some (uc '<')) :
    (done ++ u ++ rest)[(done ++ u).length - 1]? = some (uc '<') ∧ (done ++ u).length ≠ 0 ↔
      u.getLast? = some (uc '<') := by
  cases hu : u.getLast? with
  | none =>
    obtain rfl := List.getLast?_eq_none_iff.mp hu
    rw [List.append_nil]
    refine iff_of_false (fun h => hdone ?_) (by simp)
    have happend : (done ++ rest)[done.length - 1]? = done[done.length - 1]? :=
      List.getElem?_append_left (Nat.sub_one_lt h.2)
    rw [List.getLast?_eq_getElem?, ← happend]
    exact h.1
  | some d =>
    have hlast : (done ++ u).getLast? = some d := by rw [List.getLast?_append, hu]; rfl
    have hne : (done ++ u).length ≠ 0 := by
      intro h
      simp [List.length_eq_zero_iff.mp h] at hlast
    rw [List.getElem?_append_left (Nat.sub_one_lt hne), ← List.getLast?_eq_getElem?, hlast]
    exact and_iff_left hne

theorem expandMacroFrom_stop {src : NSString} {found : NSRange}
    (hfound : src.rangeOfString macroName (src.rangeFrom location) = some found)
    (h : ¬((src[found.location - 1]? = some (uc '<') ∧ found.location ≠ 0) ∧
      src[found.max]? = some (uc '>'))) :
    expandMacroFrom macroName c src location = src := by
  rw [expandMacroFrom, hfound]
  simp only
  split
  · rfl
  next hnonzero =>
    split
    · rfl
    next hopens =>
      split
      · rfl
      · split
        · rfl
        next hcloses => exact absurd ⟨⟨not_not.mp hopens, hnonzero⟩, not_not.mp hcloses⟩ h

theorem expandMacroFrom_next {src : NSString} {found : NSRange}
    (hfound : src.rangeOfString macroName (src.rangeFrom location) = some found)
    (hopens : src[found.location - 1]? = some (uc '<') ∧ found.location ≠ 0)
    (hcloses : src[found.max]? = some (uc '>')) :
    expandMacroFrom macroName c src location =
      let replaced := src.replaceCharactersInRange ⟨found.location - 1, found.length + 2⟩ [c]
      if replaced.length = found.location - 1 + 1 then replaced
      else expandMacroFrom macroName c replaced (found.location - 1 + 1) := by
  have hmax : src.length ≠ found.max := by
    intro h
    rw [← h, List.getElem?_eq_none (Nat.le_refl _)] at hcloses
    cases hcloses
  rw [expandMacroFrom, hfound]
  simp only
  rw [if_neg hopens.2, if_neg (not_not.mpr hopens.1), if_neg hmax, if_neg (not_not.mpr hcloses)]

/-- From a location that no opening bracket stands in front of, the loop is that of the
macro. -/
theorem expandMacroFrom_loop (hname : macroName ≠ []) (hc : c ≠ uc '<') (done s : NSString)
    (hdone : done.getLast? ≠ some (uc '<')) :
    ∃ t, expandMacroFrom macroName c (done ++ s) done.length = done ++ t ∧
      Macro.Loop (uc '<') (uc '>') (macroName, c) s t := by
  induction hn : s.length using Nat.strong_induction_on generalizing done s with
  | _ n ih =>
    subst hn
    cases hfound : (done ++ s).rangeOfString macroName ((done ++ s).rangeFrom done.length) with
    | none =>
      rw [expandMacroFrom, hfound]
      refine ⟨s, rfl, .stop fun u w hs _ => ?_⟩
      rw [rangeOfString_eq_none_iff hname, substringWithRange_rangeFrom, List.drop_left] at hfound
      exact absurd ⟨u, w, by rw [hs, List.append_assoc]⟩ hfound
    | some found =>
      obtain ⟨done', u, w, hsplit, hlength, rfl, hfirst⟩ := rangeOfString_rangeFrom_eq_some hfound
      rw [List.append_assoc] at hsplit
      obtain ⟨rfl, rfl⟩ := List.append_inj hsplit hlength
      have hbefore := getElem?_before done u (macroName ++ w) hdone
      have hbehind := getElem?_max_append (done ++ u) macroName w
      rw [List.append_assoc] at hbefore hbehind
      by_cases hbracketed : Macro.Bracketed (uc '<') (uc '>') u w
      · obtain ⟨hlast, hhead⟩ := hbracketed
        rw [expandMacroFrom_next hfound (hbefore.mpr hlast) (hbehind.trans hhead)]
        obtain ⟨u, rfl⟩ := List.getLast?_eq_some_iff.mp hlast
        obtain ⟨w, rfl⟩ := List.head?_eq_some_iff.mp hhead
        have hsrc : done ++ (u ++ [uc '<'] ++ (macroName ++ uc '>' :: w)) =
            done ++ u ++ (Macro.call (uc '<') (uc '>') macroName ++ w) := by simp [Macro.call]
        have hrange : (⟨(done ++ (u ++ [uc '<'])).length - 1, macroName.length + 2⟩ : NSRange) =
            ⟨(done ++ u).length, (Macro.call (uc '<') (uc '>') macroName).length⟩ := by
          simp [Macro.call]
        have hlocation : (done ++ (u ++ [uc '<'])).length - 1 + 1 = (done ++ u ++ [c]).length := by
          simp [Nat.add_assoc]
        simp only [hsrc, hrange, hlocation, replaceCharactersInRange_append]
        have hcall : u ++ [uc '<'] ++ (macroName ++ uc '>' :: w) =
          u ++ (Macro.call (uc '<') (uc '>') macroName ++ w) := by
          simp [Macro.call]
        rw [hcall]
        split
        next hend =>
          obtain rfl : w = [] := by simpa using hend
          refine ⟨u ++ [c], by simp, .next hfirst (.stop fun u w hs _ => ?_)⟩
          simp [hname] at hs
        next =>
          have hbehindDone : (done ++ u ++ [c]).getLast? ≠ some (uc '<') := by simpa using hc
          obtain ⟨t, ht, hloop⟩ := ih w.length (by simp; omega) (done ++ u ++ [c]) w hbehindDone rfl
          exact ⟨u ++ c :: t, by rw [ht]; simp, .next hfirst hloop⟩
      · refine ⟨_, expandMacroFrom_stop hfound ?_, .stop fun u' w' hs hfirst' => ?_⟩
        · rintro ⟨hopens, hcloses⟩
          exact hbracketed ⟨hbefore.mp hopens, hbehind.symm.trans hcloses⟩
        · obtain ⟨rfl, rfl⟩ := hfirst.unique hfirst' hs
          exact hbracketed

theorem expandMacroWithBindingString_loop (hname : macroName ≠ []) (hc : c ≠ uc '<')
    (s : NSString) :
    Macro.Loop (uc '<') (uc '>') (macroName, c) s (expandMacroWithBindingString s macroName c) := by
  unfold expandMacroWithBindingString
  split
  next hempty =>
    obtain rfl := hempty.resolve_right hname
    refine .stop fun u w hs _ => ?_
    simp [hname] at hs
  next =>
    obtain ⟨t, ht, hloop⟩ := expandMacroFrom_loop hname hc [] s (by simp)
    rw [List.nil_append, List.length_nil] at ht
    exact ht ▸ hloop

end

theorem expands_expandMacros_iff (macros : KeybindingMacros) (key : NSString) :
    Macro.Expands (uc '<') (uc '>') macros.entries key (expandMacros macros.entries key) ↔
      Macro.AllClear (uc '<') (uc '>') macros.entries key :=
  Macro.expands_foldl_iff macros.plain (fun e he s =>
    expandMacroWithBindingString_loop (macros.plain.name_ne_nil e he)
      (macros.plain.value_ne_opens e he) s) key

theorem opens_not_mem_signs (signs : List Modifier) : uc '<' ∉ signs.map (·.sign) := by
  simp only [List.mem_map, not_exists, not_and]
  intro m _
  cases m <;> decide

theorem name_not_subset_signs (he : e ∈ macros.entries) (signs : List Modifier) :
    ¬e.1 ⊆ signs.map (·.sign) := by
  intro hsub
  obtain ⟨u, hu⟩ := List.exists_mem_of_ne_nil e.1 (macros.plain.name_ne_nil e he)
  obtain ⟨m, -, rfl⟩ := List.mem_map.mp (hsub hu)
  exact macros.name_not_signs e he m hu

theorem Binding.expandMacros_entry (b : Binding unicode macros) :
    expandMacros macros.entries b.entry.1 = b.modifiers.map (·.sign) ++ b.character := by
  obtain ⟨signs, keyText, character, selector, hstands, hcharacter⟩ := b
  have hsigns := opens_not_mem_signs signs
  cases hstands with
  | character =>
    have hcalls : ∀ e ∈ macros.entries, ¬Macro.call (uc '<') (uc '>') e.1 <:+:
      signs.map (·.sign) ++ keyText := by
      intro e _ hcall
      have hinside := (Macro.call_infix_append_of_not_mem hsigns).mp hcall
      refine unicode.not_bracketed keyText hcharacter (hinside.subset List.mem_cons_self)
        (hinside.subset ?_)
      simp [Macro.call]
    have hexpands :=
      (expands_expandMacros_iff macros _).mpr (Macro.allClear_of_not_call macros.plain hcalls)
    exact Macro.expands_unique macros.plain hexpands (Macro.expands_self hcalls)
  | @named e he =>
    have hclear :=
      Macro.allClear_append_call macros.plain hsigns (fun d hd => name_not_subset_signs hd signs) he
    have hexpanded : Macro.Expands (uc '<') (uc '>') macros.entries
        (signs.map (·.sign) ++ Macro.call (uc '<') (uc '>') e.1) (signs.map (·.sign) ++ [e.2]) := by
      refine .append_of_not_mem hsigns ?_
      simpa using Macro.Expands.replaced he .nil
    exact Macro.expands_unique macros.plain
      ((expands_expandMacros_iff macros _).mpr hclear) hexpanded

theorem Binding.keyBindingStringWithKey_entry (b : Binding unicode macros) :
    keyBindingStringWithKey unicode.toCharacters (expandMacros macros.entries b.entry.1) =
      some b.key := by
  have hheld : ∀ flags, (∀ m, held flags m = decide (m ∈ b.modifiers)) →
      keyBindingStringWithCharacters unicode.toCharacters b.character flags = b.key := by
    intro flags h
    rw [keyBindingStringWithCharacters_eq, funext h, Binding.key]
  rw [b.expandMacros_entry, keyBindingStringWithKey, b.isCharacter.2, List.reverse_append,
    List.reverse_singleton, List.singleton_append, ← List.map_reverse]
  refine congrArg some (hheld _ fun m => ?_)
  rw [held_foldl]
  cases m <;> simp [held]

-- The converted dictionary

theorem lookup_filter_ne (dict : BindingDict) (h : key ≠ key') :
    (dict.filter fun entry => entry.1 ≠ key').lookup key = dict.lookup key := by
  induction dict with
  | nil => rfl
  | cons entry dict ih =>
    obtain ⟨k, value⟩ := entry
    rw [List.filter_cons, List.lookup_cons, ← ih]
    by_cases hk : k = key'
    · simp [hk, beq_eq_false_iff_ne.mpr h]
    · simp [hk, List.lookup_cons]

theorem stringForKey_setObject (dict : BindingDict) (s key key' : NSString) :
    stringForKey (setObject dict (.string s) key') key = if key' = key then some s
    else stringForKey dict key := by
  unfold stringForKey setObject
  by_cases h : key = key'
  · simp [h]
  · rw [List.lookup_cons, beq_eq_false_iff_ne.mpr h, lookup_filter_ne dict h, if_neg (Ne.symm h)]

theorem lastBound_cons (b : Binding unicode macros) (bindings : List (Binding unicode macros))
    (key : NSString) :
    lastBound (b :: bindings) key = (lastBound bindings key).or (if b.key = key then some b.selector
      else none) := by
  unfold lastBound
  rw [List.filter_cons]
  by_cases h : b.key = key
  · simp only [h, decide_true, if_true, List.getLast?_cons]
    cases (bindings.filter fun b => b.key = key).getLast? <;> rfl
  · simp [h]

theorem stringForKey_convertEntries (bindings : List (Binding unicode macros))
    (dict_ : BindingDict) (key : NSString) :
    stringForKey (convertEntries unicode.toCharacters macros.entries dict_
      (bindings.map (·.entry))) key =
      (lastBound bindings key).or (stringForKey dict_ key) := by
  induction bindings generalizing dict_ with
  | nil => rfl
  | cons b bindings ih =>
    have hkey := b.keyBindingStringWithKey_entry
    unfold Binding.entry at hkey
    rw [List.map_cons, Binding.entry, convertEntries, hkey]
    simp only [convertObject]
    rw [ih, stringForKey_setObject, lastBound_cons]
    cases lastBound bindings key with
    | some selector => rfl
    | none => by_cases h : b.key = key <;> simp [h]

-- Events

theorem Binding.key_eq_iff (b : Binding unicode macros) (hc : unicode.IsCharacter c)
    (p : Modifier → Bool) :
    b.key = normalKey p (unicode.lowercaseString c) ↔ b.Matches c p := by
  have hlower := unicode.isCharacter_lowercaseString c hc
  unfold Binding.key
  rw [normalKey_inj (unicode.isCharacter_lowercaseString _ b.isCharacter) hlower]
  refine and_congr_right fun _ => ?_
  rw [funext_iff]
  refine forall_congr' fun m => ?_
  rw [Bool.eq_iff_iff, decide_eq_true_iff]

theorem lastBound_eq_some {bindings : List (Binding unicode macros)}
    (h : lastBound bindings key = some selector) :
    ∃ b ∈ bindings, b.key = key ∧ b.selector = selector := by
  obtain ⟨b, hb, rfl⟩ := Option.map_eq_some_iff.mp h
  have hmem := List.mem_of_getLast? hb
  rw [List.mem_filter, decide_eq_true_iff] at hmem
  exact ⟨b, hmem.1, hmem.2, rfl⟩

theorem lastBound_eq_none_iff {bindings : List (Binding unicode macros)} :
    lastBound bindings key = none ↔ ∀ b ∈ bindings, b.key ≠ key := by
  simp [lastBound]

/-- A keypad sign is found where it stands for the modifier, and where it is the character. -/
theorem containsString_normalKey_iff (hc : unicode.IsCharacter c) (p : Modifier → Bool) :
    containsString unicode.toCharacters (normalKey p c) kNumericKeypadCharacter = true ↔
      p .numericKeypad = true ∨ c = kNumericKeypadCharacter := by
  have hsign : unicode.composed kNumericKeypadCharacter = [kNumericKeypadCharacter] :=
    (unicode.isCharacter_sign .numericKeypad).2 []
  unfold containsString
  rw [decide_eq_true_iff, composed_normalKey hc, hsign, List.singleton_infix_iff, List.mem_append,
    List.mem_singleton, eq_comm (a := c)]
  refine or_congr_left ⟨fun h => ?_, fun h => ?_⟩
  · obtain ⟨m, hm, hsign⟩ := List.mem_map.mp h
    have hkeypad : m = .numericKeypad := Modifier.sign_injective (List.singleton_inj.mp hsign)
    exact hkeypad ▸ (List.mem_filter.mp hm).2
  · exact List.mem_map.mpr ⟨.numericKeypad, List.mem_filter.mpr ⟨Modifier.mem_all _, h⟩, rfl⟩

theorem not_containsString_filter (text : Characters) (s : NSString) :
    containsString text (s.filter (· ≠ uc '#')) kNumericKeypadCharacter = false := by
  refine Bool.eq_false_iff.mpr fun h => ?_
  have hmem : uc '#' ∈ s.filter (· ≠ uc '#') := mem_of_containsString text h
  simp at hmem

theorem selecterFromkeyBindingString_eq (text : Characters) (dict : BindingDict) (str : NSString) :
    selecterFromkeyBindingString text dict str =
      (stringForKey dict str).or
        (if 2 ≤ str.length ∧ containsString text str kNumericKeypadCharacter = true then
          stringForKey dict (str.filter (· ≠ uc '#'))
        else none) := by
  rw [selecterFromkeyBindingString]
  cases stringForKey dict str with
  | some selector => rfl
  | none =>
    simp only [Option.none_or, dite_eq_ite]
    by_cases h : 2 ≤ str.length ∧ containsString text str kNumericKeypadCharacter = true
    · have hremoved : stringByReplaceCharacters text str kNumericKeypadCharacter [] =
        str.filter (· ≠ uc '#') := by
        rw [stringByReplaceCharacters, if_pos h.2]
        exact replaceCharacters_unit str (uc '#')
      rw [if_pos h, if_pos h, hremoved, selecterFromkeyBindingString]
      cases stringForKey dict (str.filter (· ≠ uc '#')) with
      | some selector => rfl
      | none => exact dif_neg fun hagain =>
          Bool.false_ne_true ((not_containsString_filter text str).symm.trans hagain.2)
    · rw [if_neg h, if_neg h]

def lookedUp (bindings : List (Binding unicode macros)) (c : NSString) (p : Modifier → Bool) :
    Option NSString :=
  let key := normalKey p (unicode.lowercaseString c)
  (lastBound bindings key).or
    (if 2 ≤ key.length ∧ (p .numericKeypad = true ∨ unicode.lowercaseString c =
      kNumericKeypadCharacter) then
      lastBound bindings (key.filter (· ≠ uc '#'))
    else none)

theorem selectorForEvent_eq (bindings : List (Binding unicode macros)) (hc : unicode.IsCharacter c)
    (flags : UInt32) :
    selectorForEvent unicode.toCharacters
        (convertKeyBindingDictionary unicode.toCharacters macros.entries (bindings.map (·.entry)))
        { type := .keyDown, charactersIgnoringModifiers := some c, modifierFlags := flags } =
      lookedUp bindings c (held flags) := by
  have hdict : ∀ key, stringForKey
      (convertKeyBindingDictionary unicode.toCharacters macros.entries
        (bindings.map (·.entry))) key =
      lastBound bindings key := by
    intro key
    rw [convertKeyBindingDictionary, stringForKey_convertEntries]
    exact Option.or_none
  have hlength : c.length ≠ 0 := fun h => hc.1 (List.length_eq_zero_iff.mp h)
  simp only [selectorForEvent, keyBindingStringWithEvent, ne_eq, not_true, if_false, hlength,
    Option.bind_some, selecterFromkeyBindingString_eq, keyBindingStringWithCharacters_eq, hdict,
    lookedUp, containsString_normalKey_iff (unicode.isCharacter_lowercaseString c hc)]

theorem lastBound_normalKey_eq_some {bindings : List (Binding unicode macros)}
    (hc : unicode.IsCharacter c)
    (h : lastBound bindings (normalKey p (unicode.lowercaseString c)) = some selector) :
    ∃ b ∈ bindings, b.Matches c p ∧ b.selector = selector := by
  obtain ⟨b, hb, hkey, hselector⟩ := lastBound_eq_some h
  exact ⟨b, hb, (b.key_eq_iff hc p).mp hkey, hselector⟩

theorem lastBound_normalKey_eq_none {bindings : List (Binding unicode macros)}
    (hc : unicode.IsCharacter c)
    (h : lastBound bindings (normalKey p (unicode.lowercaseString c)) = none) :
    ∀ b ∈ bindings, ¬b.Matches c p := by
  intro b hb hmatches
  exact lastBound_eq_none_iff.mp h b hb ((b.key_eq_iff hc p).mpr hmatches)

/-- Without keypad signs in the character, the key without them is that of the event
without the modifier. -/
theorem filter_normalKey (h : uc '#' ∉ c) (p : Modifier → Bool) :
    (normalKey p c).filter (· ≠ uc '#') = normalKey (withoutKeypad p) c := by
  have hkept : c.filter (· ≠ uc '#') = c := List.filter_eq_self.mpr fun u hu => by
    have hne : u ≠ uc '#' := fun heq => h (heq ▸ hu)
    simp [hne]
  rw [normalKey, List.filter_append, hkept, List.filter_map, List.filter_filter, normalKey]
  refine congrArg (List.map _ · ++ c) (List.filter_congr fun m _ => ?_)
  cases m <;> simp [withoutKeypad, Modifier.sign, uc]

theorem two_le_length_normalKey (hc : c ≠ []) (hm : p m = true) : 2 ≤ (normalKey p c).length := by
  have hsigns : 0 < (Modifier.all.filter p).length :=
    List.length_pos_iff.mpr (List.ne_nil_of_mem (List.mem_filter.mpr ⟨m.mem_all, hm⟩))
  have hlength := List.length_pos_iff.mpr hc
  rw [normalKey, List.length_append, List.length_map]
  omega

theorem lastBound_nil (bindings : List (Binding unicode macros)) :
    lastBound bindings [] = none := by
  refine lastBound_eq_none_iff.mpr fun b _ hkey => ?_
  exact (unicode.isCharacter_lowercaseString _ b.isCharacter).1 (List.append_eq_nil_iff.mp hkey).2

/-- The lookup finds what it should just where nothing is tangled. -/
theorem finds_lookedUp_iff (bindings : List (Binding unicode macros)) (hc : unicode.IsCharacter c)
    (p : Modifier → Bool) :
    Finds bindings c p (lookedUp bindings c p) ↔ Untangled bindings c p := by
  have hne := (unicode.isCharacter_lowercaseString c hc).1
  unfold lookedUp Untangled
  cases hbound : lastBound bindings (normalKey p (unicode.lowercaseString c)) with
  | some selector =>
    obtain ⟨b, hb, hmatches, rfl⟩ := lastBound_normalKey_eq_some hc hbound
    simp only [hbound, Option.some_or]
    exact iff_of_true (.inl ⟨b, hb, hmatches, rfl⟩) fun _ _ hnone => absurd hmatches (hnone b hb)
  | none =>
    have hdirect := lastBound_normalKey_eq_none hc hbound
    simp only [hbound, Option.none_or]
    have hfinds : ∀ answer, Finds bindings c p answer ↔ FindsWithoutKeypad bindings c p answer :=
      fun answer =>
      ⟨fun h => h.elim (fun ⟨b, hb, hmatches, _⟩ => absurd hmatches (hdirect b hb)) (·.2), fun h =>
        .inr ⟨hdirect, h⟩⟩
    rw [hfinds]
    by_cases hsearch : 2 ≤ (normalKey p (unicode.lowercaseString c)).length ∧
        (p .numericKeypad = true ∨ unicode.lowercaseString c = kNumericKeypadCharacter)
    · -- The key is looked up a second time, without any keypad sign.
      rw [if_pos hsearch]
      by_cases hsign : uc '#' ∈ unicode.lowercaseString c
      · exact ⟨fun h _ _ _ => h, fun h => h hsign hsearch.2 hdirect⟩
      · refine iff_of_true ?_ fun h => absurd h hsign
        have hkeypad : p .numericKeypad = true :=
          hsearch.2.resolve_right fun h => hsign (by rw [h]; decide)
        rw [filter_normalKey hsign]
        cases hwithout :
          lastBound bindings (normalKey (withoutKeypad p) (unicode.lowercaseString c)) with
        | some selector => exact ⟨hkeypad, lastBound_normalKey_eq_some hc hwithout⟩
        | none => exact fun _ => lastBound_normalKey_eq_none hc hwithout
    · rw [if_neg hsearch]
      have hkeypad : p .numericKeypad ≠ true :=
        fun h => hsearch ⟨two_le_length_normalKey hne h, .inl h⟩
      refine iff_of_true (fun h => absurd h hkeypad) fun _ hsign _ => ?_
      have hcharacter := hsign.resolve_left hkeypad
      have hsigns : Modifier.all.filter p = [] := List.filter_eq_nil_iff.mpr fun m _ hm =>
        hsearch ⟨two_le_length_normalKey hne hm, .inr hcharacter⟩
      have hempty : (normalKey p (unicode.lowercaseString c)).filter (· ≠ uc '#') = [] := by
        rw [normalKey, hsigns, hcharacter]
        decide
      rw [hempty, lastBound_nil]
      exact fun h => absurd h hkeypad

/-- Over every binding dictionary and every key-down event with one character, the selector
is the one of the event's binding just where nothing is tangled; and over every key, all
macros are expanded just where their calls are clear. -/
theorem selector_and_macros_iff (unicode : Unicode) (macros : KeybindingMacros) :
    (∀ (bindings : List (Binding unicode macros)) (c : { c // unicode.IsCharacter c })
      (flags : UInt32),
      Finds bindings c.val (held flags)
          (selectorForEvent unicode.toCharacters
            (convertKeyBindingDictionary unicode.toCharacters macros.entries
              (bindings.map (·.entry)))
            { type := .keyDown, charactersIgnoringModifiers := some c.val, modifierFlags := flags
            }) ↔
        Untangled bindings c.val (held flags)) ∧
      ∀ key : NSString,
        Macro.Expands (uc '<') (uc '>') macros.entries key (expandMacros macros.entries key) ↔
          Macro.AllClear (uc '<') (uc '>') macros.entries key := by
  refine ⟨fun bindings c flags => ?_, expands_expandMacros_iff macros⟩
  rw [selectorForEvent_eq bindings c.property]
  exact finds_lookedUp_iff bindings c.property (held flags)

-- The macros of the resources

def isNameUnit (u : UniChar) : Bool :=
  (uc '0' ≤ u && u ≤ uc '9') || (uc 'A' ≤ u && u ≤ uc 'Z') || (uc 'a' ≤ u && u ≤ uc 'z')

def keybindingMacros : List (NSString × UniChar) :=
  [(ns "BackTab", 25), (ns "Backspace", 8), (ns "Begin", 63274), (ns "Break", 63282),
   (ns "CarriageReturn", 13), (ns "ClearDisplay", 63290), (ns "ClearLine", 63289),
   (ns "Delete", 127),
   (ns "DeleteChar", 63294), (ns "DeleteLine", 63292), (ns "DownArrow", 63233), (ns "End", 63275),
   (ns "Enter", 3), (ns "Execute", 63298), (ns "F1", 63236), (ns "F10", 63245), (ns "F11", 63246),
   (ns "F12", 63247), (ns "F13", 63248), (ns "F14", 63249), (ns "F15", 63250), (ns "F16", 63251),
   (ns "F17", 63252), (ns "F18", 63253), (ns "F19", 63254), (ns "F2", 63237), (ns "F20", 63255),
   (ns "F21", 63256), (ns "F22", 63257), (ns "F23", 63258), (ns "F24", 63259), (ns "F25", 63260),
   (ns "F26", 63261), (ns "F27", 63262), (ns "F28", 63263), (ns "F29", 63264), (ns "F3", 63238),
   (ns "F30", 63265), (ns "F31", 63266), (ns "F32", 63267), (ns "F33", 63268), (ns "F34", 63269),
   (ns "F35", 63270), (ns "F4", 63239), (ns "F5", 63240), (ns "F6", 63241), (ns "F7", 63242),
   (ns "F8", 63243),
   (ns "F9", 63244), (ns "Find", 63301), (ns "FormFeed", 12), (ns "Help", 63302),
   (ns "Home", 63273),
   (ns "Insert", 63271), (ns "InsertChar", 63293), (ns "InsertLine", 63291),
   (ns "LeftArrow", 63234),
   (ns "LineSeparator", 8232), (ns "Menu", 63285), (ns "ModeSwitch", 63303), (ns "Newline", 10),
   (ns "Next", 63296), (ns "PageDown", 63277), (ns "PageUp", 63276), (ns "Pause", 63280),
   (ns "Prev", 63295),
   (ns "Print", 63288), (ns "PrintScreen", 63278), (ns "Redo", 63300), (ns "Reset", 63283),
   (ns "RightArrow", 63235), (ns "ScrollLock", 63279), (ns "Select", 63297), (ns "Stop", 63284),
   (ns "SysReq", 63281), (ns "System", 63287), (ns "Tab", 9), (ns "Undo", 63299),
   (ns "UpArrow", 63232),
   (ns "User", 63286)]

theorem keybindingMacros_names : ∀ e ∈ keybindingMacros, e.1 ≠ [] ∧ e.1.all isNameUnit = true := by
  decide +kernel

theorem keybindingMacros_values :
    ∀ e ∈ keybindingMacros, isNameUnit e.2 = false ∧ e.2 ≠ uc '<' ∧ e.2 ≠ uc '>' := by
  decide +kernel

theorem keybindingMacros_nodup : (keybindingMacros.map Prod.fst).Nodup := by
  have hsorted : (keybindingMacros.map fun e => e.1.map UInt16.toNat).IsChain (· < ·) := by
    decide +kernel
  have hnodup : (keybindingMacros.map fun e => e.1.map UInt16.toNat).Nodup :=
    (List.isChain_iff_pairwise.mp hsorted).imp ne_of_lt
  refine List.Nodup.of_map (List.map UInt16.toNat) ?_
  rwa [List.map_map]

theorem not_mem_name (he : e ∈ keybindingMacros) (hu : isNameUnit u = false) : u ∉ e.1 := by
  intro hmem
  have hname := List.all_eq_true.mp (keybindingMacros_names e he).2 u hmem
  simp [hu] at hname

def resourceMacros : KeybindingMacros where
  entries := keybindingMacros
  plain :=
    { brackets := by decide
      name_ne_nil := fun e he => (keybindingMacros_names e he).1
      opens_not_mem := fun _ he => not_mem_name he (by decide)
      closes_not_mem := fun _ he => not_mem_name he (by decide)
      value_ne_opens := fun e he => (keybindingMacros_values e he).2.1
      value_ne_closes := fun e he => (keybindingMacros_values e he).2.2
      value_not_mem := fun e he _ he' => not_mem_name he' (keybindingMacros_values e he).1
      nodup := keybindingMacros_nodup }
  name_not_signs _ he m := not_mem_name he (by cases m <;> decide)

def asciiText : Characters where
  composed s := s.map fun u => [u]
  lowercaseString s := s.map fun u => if uc 'A' ≤ u ∧ u ≤ uc 'Z' then u + 32 else u
  composed_flatten s := by
    induction s with
    | nil => rfl
    | cons u s ih => simpa using ih

theorem asciiText_isCharacter_iff : asciiText.IsCharacter c ↔ ∃ u, c = [u] := by
  constructor
  · rintro ⟨-, h⟩
    have hcomposed := h []
    cases c with
    | nil => cases hcomposed
    | cons u c =>
      cases c with
      | nil => exact ⟨u, rfl⟩
      | cons v c => simp [asciiText] at hcomposed
  · rintro ⟨u, rfl⟩
    exact ⟨List.cons_ne_nil u [], fun signs => by simp [asciiText]⟩

def ascii : Unicode where
  toCharacters := asciiText
  isCharacter_sign m := asciiText_isCharacter_iff.mpr ⟨m.sign, rfl⟩
  isCharacter_lowercaseString c hc := by
    obtain ⟨u, rfl⟩ := asciiText_isCharacter_iff.mp hc
    exact asciiText_isCharacter_iff.mpr ⟨_, rfl⟩
  not_bracketed c hc := by
    obtain ⟨u, rfl⟩ := asciiText_isCharacter_iff.mp hc
    simp only [List.mem_singleton]
    rintro rfl
    decide

def numberSign : Binding ascii resourceMacros where
  modifiers := []
  keyText := kNumericKeypadCharacter
  character := kNumericKeypadCharacter
  selector := ns "a:"
  stands := .character
  isCharacter := ascii.isCharacter_sign .numericKeypad

/-- On the keypad, the number sign is not found. -/
theorem not_finds_numberSign :
    ¬Finds [numberSign] kNumericKeypadCharacter (held NSNumericPadKeyMask)
      (selectorForEvent ascii.toCharacters
        (convertKeyBindingDictionary ascii.toCharacters resourceMacros.entries
          ([numberSign].map (·.entry)))
        { type := .keyDown, charactersIgnoringModifiers := some kNumericKeypadCharacter,
          modifierFlags := NSNumericPadKeyMask }) := by
  have hcharacter : ascii.IsCharacter kNumericKeypadCharacter :=
    ascii.isCharacter_sign .numericKeypad
  have hlookup : lookedUp [numberSign] kNumericKeypadCharacter (held NSNumericPadKeyMask) =
    none := by decide +kernel
  rw [selectorForEvent_eq [numberSign] hcharacter, hlookup]
  rintro (⟨b, -, -, hselector⟩ | ⟨-, hnone⟩)
  · cases hselector
  · refine hnone (by decide) numberSign List.mem_cons_self ⟨rfl, fun m => ?_⟩
    cases m <;> decide

end BathyScaphe.AppKit
