import BathyScaphe.Xml.PullParser

/-!
# Entity references

A reference is looked up in the table of the names; another one is a number. Texts are
resolved with a string of four bytes that is read as UTF-16, the parser with one unit.
-/

namespace BathyScaphe.Xml

open NSString

-- Strings of bytes

def bigEndian16 (n : UInt16) : List UInt8 := [UInt8.ofNat (n.toNat / 256), UInt8.ofNat n.toNat]

def bigEndian32 (n : UInt32) : List UInt8 :=
  bigEndian16 (UInt16.ofNat (n.toNat / 65536)) ++ bigEndian16 (UInt16.ofNat n.toNat)

def unitsOfBytes : List UInt8 → NSString
  | first :: second :: bytes => UInt16.ofNat (first.toNat * 256 + second.toNat) ::
      unitsOfBytes bytes
  | _ => []

def swapped (u : UniChar) : UniChar := UInt16.ofNat (u.toNat % 256 * 256 + u.toNat / 256)

/-- `CFStringCreateWithBytes` with the encoding `kCFStringEncodingUnicode`, of an external
representation: big endian without a byte order mark. -/
def stringWithBytes (bytes : List UInt8) : NSString :=
  match unitsOfBytes bytes with
  | [] => []
  | bom :: units =>
    if bom = 0xFEFF then units else if bom = 0xFFFE then units.map swapped else bom :: units

-- Character references

def bytesOfCode (code : Nat) : List UInt8 :=
  if code > 0xFFFF then
    let tmpcode := UInt32.ofNat (code - 0x010000)
    let upper := (0xD800 : UInt16) + (tmpcode >>> 10).toUInt16
    let lower := (0xDC00 : UInt16) + (tmpcode <<< 22 >>> 22).toUInt16
    bigEndian16 upper ++ bigEndian16 lower
  else bigEndian32 (UInt32.ofNat code)

def convertCharRefToBytes (reference : NSString) : Option (List UInt8) :=
  match reference with
  | hash :: c :: rest =>
    if rest = [] || hash != uc '#' then none
    else
      let code := if c = uc 'x' then scanHexInt rest else scanInt (c :: rest)
      code.bind fun code => if 0 ≤ code then some (bytesOfCode code.toNat) else none
  | _ => none

def stringForEntityReference (table : NSString → Option UniChar) (reference : NSString) :
    Option NSString :=
  match table reference with
  | some value => some [value]
  | none => (convertCharRefToBytes reference).map stringWithBytes

def codeOfReference (reference : NSString) : Option Nat :=
  match reference with
  | hash :: c :: rest =>
    if rest = [] || hash != uc '#' then none
    else
      (if c = uc 'x' then scanHexInt rest else scanInt (c :: rest)).bind
        fun code => if 0 ≤ code then some code.toNat else none
  | _ => none

variable {e s : NSString} {n : Nat}

theorem convertCharRefToBytes_eq (e : NSString) :
    convertCharRefToBytes e = (codeOfReference e).map bytesOfCode := by
  match e with
  | [] | [_] => rfl
  | hash :: c :: rest =>
    rw [convertCharRefToBytes, codeOfReference]
    split
    · rfl
    · rw [Option.map_bind]
      refine Option.bind_congr fun code _ => ?_
      rw [Function.comp_apply]
      split <;> rfl

theorem convertCharRefToUniChar_eq (e : NSString) :
    convertCharRefToUniChar e = (codeOfReference e).map UInt16.ofNat := by
  match e with
  | [] | [_] => rfl
  | hash :: c :: rest =>
    rw [convertCharRefToUniChar, codeOfReference]
    split
    · rfl
    · rw [Option.map_bind]
      refine Option.bind_congr fun code _ => ?_
      rw [Function.comp_apply]
      split <;> rfl

-- The text of a code

theorem unitsOfBytes_bigEndian16 (u : UniChar) (bytes : List UInt8) :
    unitsOfBytes (bigEndian16 u ++ bytes) = u :: unitsOfBytes bytes := by
  have hlt := u.toNat_lt
  rw [bigEndian16, List.cons_append, List.cons_append, List.nil_append, unitsOfBytes]
  congr 1
  rw [← UInt16.toNat_inj, UInt16.toNat_ofNat', UInt8.toNat_ofNat', UInt8.toNat_ofNat']
  omega

theorem stringWithBytes_of_le (h : n ≤ 0xFFFF) :
    stringWithBytes (bytesOfCode n) = [0, UInt16.ofNat n] := by
  have hhigh : UInt16.ofNat ((UInt32.ofNat n).toNat / 65536) = 0 := by
    rw [UInt32.toNat_ofNat_of_lt' (by rw [UInt32.size]; omega),
      Nat.div_eq_of_lt (Nat.lt_succ_of_le h)]
    rfl
  have hlow : UInt16.ofNat (UInt32.ofNat n).toNat = UInt16.ofNat n := by
    rw [UInt32.toNat_ofNat_of_lt' (by rw [UInt32.size]; omega)]
  have hunits := unitsOfBytes_bigEndian16 (UInt16.ofNat n) []
  rw [List.append_nil] at hunits
  rw [stringWithBytes, bytesOfCode, if_neg (Nat.not_lt.mpr h), bigEndian32,
    unitsOfBytes_bigEndian16, hhigh, hlow, hunits]
  rfl

def upper (code : Nat) : UniChar := UInt16.ofNat (0xD800 + (code - 0x10000) / 1024)
def lower (code : Nat) : UniChar := UInt16.ofNat (0xDC00 + (code - 0x10000) % 1024)

theorem unitsOfBytes_of_gt (h : 0xFFFF < n) (hlt : n < 2 ^ 31) :
    unitsOfBytes (bytesOfCode n) = [upper n, lower n] := by
  have hcode : (UInt32.ofNat (n - 0x010000)).toNat = n - 0x10000 :=
    UInt32.toNat_ofNat_of_lt' (by rw [UInt32.size]; omega)
  have hupper : (0xD800 : UInt16) + (UInt32.ofNat (n - 0x010000) >>> 10).toUInt16 = upper n := by
    rw [upper, ← UInt16.toNat_inj, UInt16.toNat_add, UInt32.toNat_toUInt16, UInt32.toNat_shiftRight,
      hcode, UInt16.toNat_ofNat']
    simp only [UInt32.reduceToNat, UInt16.reduceToNat, Nat.shiftRight_eq_div_pow, Nat.reduceMod,
      Nat.reducePow]
    omega
  have hlower : (0xDC00 : UInt16) + (UInt32.ofNat (n - 0x010000) <<< 22 >>> 22).toUInt16 =
    lower n := by
    rw [lower, ← UInt16.toNat_inj, UInt16.toNat_add, UInt32.toNat_toUInt16, UInt32.toNat_shiftRight,
      UInt32.toNat_shiftLeft, hcode, UInt16.toNat_ofNat']
    simp only [UInt32.reduceToNat, UInt16.reduceToNat, Nat.shiftRight_eq_div_pow, Nat.shiftLeft_eq,
      Nat.reduceMod, Nat.reducePow]
    omega
  have hunits := unitsOfBytes_bigEndian16 (lower n) []
  rw [List.append_nil] at hunits
  rw [bytesOfCode, if_pos h]
  simp only [hupper, hlower]
  rw [unitsOfBytes_bigEndian16, hunits]
  rfl

theorem lower_ge (n : Nat) : 0xDC00 ≤ (lower n).toNat ∧ (lower n).toNat < 0xE000 := by
  rw [lower, UInt16.toNat_ofNat']
  omega

-- Numbers

/-- A text of digits and nothing else, and the number that it writes. -/
def numeral (base : Nat) (digit : UniChar → Option Nat) (s : NSString) : Option Nat :=
  if s.all fun c => (digit c).isSome then scanDigits base digit s else none

def decimal (s : NSString) : Option Nat := numeral 10 decimalDigit s
def hexadecimal (s : NSString) : Option Nat := numeral 16 hexDigit s

theorem numeral_eq_some {base : Nat} {digit : UniChar → Option Nat}
    (h : numeral base digit s = some n) :
    scanDigits base digit s = some n ∧ (∀ c ∈ s, (digit c).isSome = true) ∧ s ≠ [] := by
  rw [numeral] at h
  split at h
  · rename_i hall
    refine ⟨h, fun c hc => List.all_eq_true.mp hall c hc, ?_⟩
    rintro rfl
    cases h
  · cases h

theorem plain_of_hexDigit {c : UniChar} (h : (hexDigit c).isSome = true) :
    isWhitespace c = false ∧ c ≠ uc '-' ∧ c ≠ uc '+' ∧ c ≠ uc 'x' ∧ c ≠ uc 'X' := by
  have hrange : (0x30 ≤ c.toNat ∧ c.toNat ≤ 0x39) ∨ (0x41 ≤ c.toNat ∧ c.toNat ≤ 0x46) ∨
      0x61 ≤ c.toNat ∧ c.toNat ≤ 0x66 := by
    simp only [hexDigit, decimalDigit, Bool.and_eq_true, decide_eq_true_iff,
      UInt16.le_iff_toNat_le] at h
    split at h
    · rename_i hc
      exact Or.inr (Or.inr hc)
    · split at h
      · rename_i hc
        exact Or.inr (Or.inl hc)
      · split at h
        · rename_i hc
          exact Or.inl hc
        · cases h
  refine ⟨?_, ?_, ?_, ?_, ?_⟩
  · simp only [isWhitespace, Bool.or_eq_false_iff, Bool.and_eq_false_iff, decide_eq_false_iff_not,
      beq_eq_false_iff_ne, ne_eq, UInt16.le_iff_toNat_le, ← UInt16.toNat_inj, UInt16.reduceToNat]
    omega
  all_goals
    rintro rfl
    exact absurd hrange (by decide)

theorem hexDigit_of_decimalDigit {c : UniChar} (h : (decimalDigit c).isSome = true) :
    (hexDigit c).isSome = true := by
  rw [hexDigit]
  split
  · rfl
  · split
    · rfl
    · exact h

theorem scanInt_of_decimal (h : decimal s = some n) :
    scanInt s = some ((min n (2 ^ 31 - 1) : Nat) : Int) := by
  obtain ⟨hscan, hall, hne⟩ := numeral_eq_some h
  obtain ⟨c, s, rfl⟩ := List.exists_cons_of_ne_nil hne
  obtain ⟨hwhite, hminus, hplus, -, -⟩ :=
    plain_of_hexDigit (hexDigit_of_decimalDigit (hall c List.mem_cons_self))
  rw [scanInt, List.dropWhile_cons_of_neg (by rw [hwhite]; exact Bool.false_ne_true)]
  simp only [if_neg hminus, if_neg hplus]
  simp only [hscan, Option.bind_eq_bind, Option.bind_some, Option.pure_def, Option.map_some,
    Option.some.injEq]
  omega

theorem scanHexInt_of_hexadecimal (h : hexadecimal s = some n) :
    scanHexInt s = some (if min n (2 ^ 32 - 1) < 2 ^ 31 then ((min n (2 ^ 32 - 1) : Nat) : Int)
      else ((min n (2 ^ 32 - 1) : Nat) : Int) - 2 ^ 32) := by
  obtain ⟨hscan, hall, hne⟩ := numeral_eq_some h
  obtain ⟨c, s, rfl⟩ := List.exists_cons_of_ne_nil hne
  have hwhite := (plain_of_hexDigit (hall c List.mem_cons_self)).1
  have hmark : (decide (ns "0x" <+: c :: s) || decide (ns "0X" <+: c :: s)) = false := by
    rw [Bool.or_eq_false_iff, decide_eq_false_iff_not, decide_eq_false_iff_not]
    constructor
    · intro hstarts
      have hmem : uc 'x' ∈ c :: s := hstarts.subset (by decide)
      exact (plain_of_hexDigit (hall _ hmem)).2.2.2.1 rfl
    · intro hstarts
      have hmem : uc 'X' ∈ c :: s := hstarts.subset (by decide)
      exact (plain_of_hexDigit (hall _ hmem)).2.2.2.2 rfl
  rw [scanHexInt, List.dropWhile_cons_of_neg (by rw [hwhite]; exact Bool.false_ne_true)]
  simp only [hmark, if_neg Bool.false_ne_true, hscan, Option.bind_eq_bind, Option.bind_some,
    Option.pure_def, Option.map_some, Option.some.injEq]
  split <;> omega

theorem codeOfReference_decimal (h : decimal s = some n) :
    codeOfReference (uc '#' :: s) = if s.length = 1 then none else some (min n (2 ^ 31 - 1)) := by
  obtain ⟨-, hall, hne⟩ := numeral_eq_some h
  obtain ⟨c, s, rfl⟩ := List.exists_cons_of_ne_nil hne
  have hx := (plain_of_hexDigit (hexDigit_of_decimalDigit (hall c List.mem_cons_self))).2.2.2.1
  cases s with
  | nil => rfl
  | cons d s =>
    have hguard : ¬ (decide (d :: s = []) || uc '#' != uc '#') = true := by simp
    rw [codeOfReference, if_neg hguard, if_neg hx, scanInt_of_decimal h, Option.bind_some,
      if_pos (Int.natCast_nonneg _), Int.toNat_natCast, if_neg (by simp)]

theorem codeOfReference_hexadecimal (h : hexadecimal s = some n) :
    codeOfReference (uc '#' :: uc 'x' :: s) = if n < 2 ^ 31 then some n else none := by
  obtain ⟨-, -, hne⟩ := numeral_eq_some h
  have hguard : ¬ (decide (s = []) || uc '#' != uc '#') = true := by simp [hne]
  rw [codeOfReference, if_neg hguard, if_pos rfl, scanHexInt_of_hexadecimal h, Option.bind_some]
  by_cases hlt : n < 2 ^ 31
  · have hmin : min n (2 ^ 32 - 1) = n := Nat.min_eq_left (by omega)
    rw [hmin, if_pos hlt, if_pos hlt, if_pos (Int.natCast_nonneg _), Int.toNat_natCast]
  · have hmin : ¬ min n (2 ^ 32 - 1) < 2 ^ 31 := by omega
    rw [if_neg hmin, if_neg hlt, if_neg (by omega)]

-- The answers of the resolvers

def utf16 (n : Nat) : Option NSString :=
  if n ≤ 0xFFFF then some [UInt16.ofNat n]
  else if n ≤ 0x10FFFF then some [upper n, lower n]
  else none

theorem stringWithBytes_of_pair (h : 0xFFFF < n) (hle : n ≤ 0x10FFFF) :
    stringWithBytes (bytesOfCode n) = [upper n, lower n] := by
  have hupper : (upper n).toNat < 0xDC00 := by
    rw [upper, UInt16.toNat_ofNat']
    omega
  have hbom : upper n ≠ 0xFEFF ∧ upper n ≠ 0xFFFE := by
    constructor
    all_goals
      intro heq
      rw [heq] at hupper
      exact absurd hupper (by decide)
  rw [stringWithBytes, unitsOfBytes_of_gt h (by omega)]
  simp only [if_neg hbom.1, if_neg hbom.2]

/-- The code that is read for a number: itself, or the largest one. -/
def IsReadAs (e : NSString) (n : Nat) : Prop :=
  ∀ code, codeOfReference e = some code → code < 2 ^ 31 ∧
    (code = n ∨ 0x10FFFF < code ∧ 0x10FFFF < n)

theorem isReadAs_decimal (h : decimal s = some n) : IsReadAs (uc '#' :: s) n := by
  intro code hcode
  rw [codeOfReference_decimal h] at hcode
  split at hcode
  · cases hcode
  · obtain rfl := Option.some.inj hcode
    omega

theorem isReadAs_hexadecimal (h : hexadecimal s = some n) : IsReadAs (uc '#' :: uc 'x' :: s) n := by
  intro code hcode
  rw [codeOfReference_hexadecimal h] at hcode
  split at hcode
  · obtain rfl := Option.some.inj hcode
    exact ⟨‹_›, Or.inl rfl⟩
  · cases hcode

variable {env : Environment}

/-- The text that is given for a reference is that of its number. -/
def Decodes (table : NSString → Option UniChar) (e : NSString) (n : Nat) : Prop :=
  ∀ text, stringForEntityReference table e = some text → utf16 n = some text

theorem stringForEntityReference_eq {table : NSString → Option UniChar} (htable : table e = none) :
    stringForEntityReference table e = (codeOfReference e).map fun code =>
      stringWithBytes (bytesOfCode code) := by
  rw [stringForEntityReference, htable, convertCharRefToBytes_eq, Option.map_map]
  rfl

theorem decodes_iff {table : NSString → Option UniChar} (htable : table e = none)
    (hreads : IsReadAs e n) :
    Decodes table e n ↔ codeOfReference e = none ∨ 0xFFFF < n ∧ n ≤ 0x10FFFF := by
  rw [Decodes, stringForEntityReference_eq htable]
  cases hcode : codeOfReference e with
  | none => exact ⟨fun _ => Or.inl rfl, fun _ text htext => nomatch htext⟩
  | some code =>
    obtain ⟨hlt, hn⟩ := hreads code hcode
    simp only [Option.map_some, Option.some.injEq, forall_eq', reduceCtorEq, false_or]
    obtain hle | hgt := Nat.lt_or_ge 0xFFFF code |>.symm
    · obtain rfl | ⟨hcode, -⟩ := hn
      · rw [stringWithBytes_of_le hle, utf16, if_pos hle]
        refine iff_of_false (fun h => ?_) (fun h => absurd h.1 (Nat.not_lt.mpr hle))
        exact absurd (congrArg List.length (Option.some.inj h)) (by simp)
      · exact absurd hcode (by omega)
    · obtain hchar | hno := Nat.lt_or_ge 0x10FFFF n |>.symm
      · obtain rfl | ⟨-, hn⟩ := hn
        · rw [stringWithBytes_of_pair hgt hchar, utf16, if_neg (Nat.not_le.mpr hgt), if_pos hchar]
          exact iff_of_true rfl ⟨hgt, hchar⟩
        · exact absurd hn (Nat.not_lt.mpr hchar)
      · rw [utf16, if_neg (by omega), if_neg (Nat.not_le.mpr hno)]
        exact iff_of_false (fun h => nomatch h) (fun h => absurd h.2 (Nat.not_le.mpr hno))

/-- A text of a reference decodes to its number, and the parser gives the same. -/
def Resolves (env : Environment) (e : NSString) (n : Nat) : Prop :=
  Decodes env.entityReferenceTable e n ∧
    stringForEntityReference env.entityReferenceTable e = (characterForEntityReference env e).map
      fun c => [c]

theorem resolves_iff_rejected (htable : env.entityReferenceTable e = none) (hreads : IsReadAs e n) :
    Resolves env e n ↔ codeOfReference e = none := by
  have hparser : characterForEntityReference env e = (codeOfReference e).map UInt16.ofNat := by
    rw [characterForEntityReference, htable, Option.none_or, convertCharRefToUniChar_eq]
  rw [Resolves, decodes_iff htable hreads, stringForEntityReference_eq htable, hparser]
  cases hcode : codeOfReference e with
  | none => exact iff_of_true ⟨Or.inl rfl, rfl⟩ rfl
  | some code =>
    refine iff_of_false ?_ (Option.some_ne_none code)
    rintro ⟨hdecodes, hsame⟩
    obtain hnone | ⟨hgt, hle⟩ := hdecodes
    · cases hnone
    -- a pair is not one unit
    · obtain ⟨-, rfl | ⟨-, hn⟩⟩ := hreads code hcode
      · rw [Option.map_some, stringWithBytes_of_pair hgt hle] at hsame
        exact absurd (congrArg List.length (Option.some.inj hsame)) (by simp)
      · exact absurd hn (Nat.not_lt.mpr hle)

/-- A number is resolved as it should be if and only if it is rejected: for its one decimal
digit, or since it is negative as an `int`. -/
theorem resolves_iff (env : Environment)
    (hnames : ∀ s, env.entityReferenceTable (uc '#' :: s) = none) :
    (∀ s n, decimal s = some n → (Resolves env (uc '#' :: s) n ↔ s.length = 1)) ∧
      ∀ s n, hexadecimal s = some n → (Resolves env (uc '#' :: uc 'x' :: s) n ↔ 2 ^ 31 ≤ n) := by
  constructor
  · intro s n h
    rw [resolves_iff_rejected (hnames s) (isReadAs_decimal h), codeOfReference_decimal h]
    split
    · rename_i hone
      exact iff_of_true rfl hone
    · rename_i hmore
      exact iff_of_false (Option.some_ne_none _) hmore
  · intro s n h
    rw [resolves_iff_rejected (hnames _) (isReadAs_hexadecimal h), codeOfReference_hexadecimal h,
      ← Nat.not_lt]
    split
    · rename_i hlt
      exact iff_of_false (Option.some_ne_none _) (not_not_intro hlt)
    · rename_i hge
      exact iff_of_true rfl hge

def smallEnvironment : Environment where
  letterCharacterSet _ := false
  alphanumericCharacterSet _ := false
  lowercaseString s := s
  entityReferenceTable s :=
    if s = ns "lt" then some (uc '<') else if s = ns "gt" then some (uc '>')
    else if s = ns "amp" then some (uc '&') else none
  letter_invalid := rfl
  alphanumeric_invalid := rfl

theorem smallEnvironment_number (s : NSString) : smallEnvironment.entityReferenceTable
    (uc '#' :: s) = none := by
  have hne : ∀ name : NSString, name.head? ≠ some (uc '#') → uc '#' :: s ≠ name := by
    rintro name hname rfl
    exact hname rfl
  rw [smallEnvironment]
  simp only [if_neg (hne (ns "lt") (by decide)), if_neg (hne (ns "gt") (by decide)),
    if_neg (hne (ns "amp") (by decide))]

theorem resolves_numbers :
    (Resolves smallEnvironment (ns "#9") 9 ↔ (ns "9").length = 1) ∧
      (Resolves smallEnvironment (ns "#xFFFFFFFF") 0xFFFFFFFF ↔ 2 ^ 31 ≤ 0xFFFFFFFF) :=
  ⟨(resolves_iff smallEnvironment smallEnvironment_number).1 (ns "9") 9 (by decide),
    (resolves_iff smallEnvironment smallEnvironment_number).2 (ns "FFFFFFFF") 0xFFFFFFFF
    (by decide)⟩

/-- The text of `&#65;` begins with a NUL. -/
theorem not_resolves_A : ¬ Resolves smallEnvironment (ns "#65") 65 := by
  rw [Resolves, not_and_or, Decodes]
  left
  intro h
  exact absurd (h [0, 65] (by decide)) (by decide)

end BathyScaphe.Xml
