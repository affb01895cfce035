import BathyScaphe.Lib.References
import BathyScaphe.Xml.EntityReference

/-!
# Replacing entity references

`replaceEntityReference` takes the text from an ampersand to the next semicolon for a
reference, and the numbers in it are scanned as far as they go. So a reference with other
units behind its digits is replaced as a whole, one of a single digit is not replaced, and
the text of a small code begins with a NUL.
-/

namespace BathyScaphe.Xml

open NSString

def entityDelimiters : References.Delimiters UniChar := ⟨uc '&', uc ';'⟩

def replaceEntityReference (table : NSString → Option UniChar) (s : NSString) : NSString :=
  replaceEntityReferenceFrom (stringForEntityReference table) [] s

variable {table : NSString → Option UniChar} {e s : NSString} {n : Nat}

-- The loop

theorem exists_units (code : Nat) : ∃ u v, unitsOfBytes (bytesOfCode code) = [u, v] := by
  have hpair : ∀ u v : UniChar, unitsOfBytes (bigEndian16 u ++ bigEndian16 v) = [u, v] := by
    intro u v
    have hunits := unitsOfBytes_bigEndian16 v []
    rw [List.append_nil] at hunits
    rw [unitsOfBytes_bigEndian16, hunits]
    rfl
  rw [bytesOfCode]
  split
  · exact ⟨_, _, hpair _ _⟩
  · exact ⟨_, _, hpair _ _⟩

theorem length_stringWithBytes_le (code : Nat) :
    (stringWithBytes (bytesOfCode code)).length ≤ 2 := by
  obtain ⟨u, v, hunits⟩ := exists_units code
  rw [stringWithBytes, hunits]
  simp only
  split
  · exact Nat.le_succ 1
  · split
    · exact Nat.le_succ 1
    · exact Nat.le_refl 2

theorem exists_of_codeOfReference {code : Nat} (h : codeOfReference e = some code) :
    ∃ c d s, e = uc '#' :: c :: d :: s := by
  match e with
  | [] | [_] => cases h
  | hash :: c :: rest =>
    rw [codeOfReference] at h
    split at h
    · cases h
    · rename_i hguard
      rw [Bool.or_eq_true, decide_eq_true_iff, bne_iff_ne, not_or, not_not] at hguard
      obtain ⟨d, s, rfl⟩ := List.exists_cons_of_ne_nil hguard.1
      exact ⟨c, d, s, by rw [hguard.2]⟩

/-- What replaces a reference is shorter, so the place to search on from is never lost. -/
theorem length_stringForEntityReference {new : NSString}
    (h : stringForEntityReference table e = some new) :
    new.length ≠ e.length + 2 := by
  cases htable : table e with
  | some value =>
    rw [stringForEntityReference, htable] at h
    obtain rfl := Option.some.inj h
    rw [List.length_singleton]
    omega
  | none =>
    rw [stringForEntityReference_eq htable] at h
    obtain ⟨code, hcode, rfl⟩ := Option.map_eq_some_iff.mp h
    have hlength := length_stringWithBytes_le code
    obtain ⟨c, d, s, rfl⟩ := exists_of_codeOfReference hcode
    rw [List.length_cons]
    omega

theorem replace_append {u : NSString} {resolve : NSString → Option NSString} (h : uc '&' ∉ u)
    (s : NSString) :
    References.replace entityDelimiters resolve (u ++ s) =
      u ++ References.replace entityDelimiters resolve s := by
  induction u with
  | nil => rfl
  | cons c u ih =>
    obtain ⟨hc, hu⟩ := not_or.mp (mt List.mem_cons.mpr h)
    rw [List.cons_append, References.replace_cons fun hboth => hc hboth.1.symm,
      ih hu, List.cons_append]

theorem not_mem_takeWhile (c : UniChar) (s : NSString) : c ∉ s.takeWhile (· != c) := by
  intro hmem
  have hne := List.mem_takeWhile_imp hmem
  rw [bne_self_eq_false] at hne
  cases hne

theorem not_mem_of_dropWhile {c : UniChar} (h : s.dropWhile (· != c) = []) : c ∉ s := by
  intro hmem
  have hne := List.dropWhile_eq_nil_iff.mp h c hmem
  rw [bne_self_eq_false] at hne
  cases hne

theorem eq_of_dropWhile {c d : UniChar} {t : NSString} (h : s.dropWhile (· != c) = d :: t) :
    s = s.takeWhile (· != c) ++ c :: t ∧ d = c := by
  have hsplit := List.takeWhile_append_dropWhile (p := (· != c)) (l := s)
  have hhead := List.head?_dropWhile_not (· != c) s
  rw [h, List.head?_cons] at hhead
  obtain rfl : d = c := by simpa using hhead
  rw [h] at hsplit
  exact ⟨hsplit.symm, rfl⟩

section
variable {resolve : NSString → Option NSString} {after tail new : NSString} {semi : UniChar}

theorem replace_reference_none (htail : after.dropWhile (· != uc ';') = semi :: tail)
    (hnone : resolve (after.takeWhile (· != uc ';')) = none) :
    References.replace entityDelimiters resolve (uc '&' :: after) =
      uc '&' :: References.replace entityDelimiters resolve after := by
  have hafter : after.takeWhile (· != entityDelimiters.closing) ++ entityDelimiters.closing ::
    tail = after :=
    (eq_of_dropWhile htail).1.symm
  have hreplace := @References.replace_none _ _ entityDelimiters resolve _
    (not_mem_takeWhile _ after) tail hnone
  rwa [hafter] at hreplace

theorem replace_reference_some (htail : after.dropWhile (· != uc ';') = semi :: tail)
    (hnew : resolve (after.takeWhile (· != uc ';')) = some new) :
    References.replace entityDelimiters resolve (uc '&' :: after) =
      new ++ References.replace entityDelimiters resolve tail := by
  have hafter : after.takeWhile (· != entityDelimiters.closing) ++ entityDelimiters.closing ::
    tail = after :=
    (eq_of_dropWhile htail).1.symm
  have hreplace := @References.replace_some _ _ entityDelimiters resolve _ _
    (not_mem_takeWhile _ after) tail hnew
  rwa [hafter] at hreplace

theorem replaceEntityReferenceFrom_eq (hlength : ∀ e new, resolve e = some new →
    new.length ≠ e.length + 2)
    (done rest : NSString) :
    replaceEntityReferenceFrom resolve done rest =
      done ++ References.replace entityDelimiters resolve rest := by
  fun_induction replaceEntityReferenceFrom resolve done rest with
  | case1 done rest hnone =>
    have hreplace := @replace_append _ resolve (not_mem_of_dropWhile hnone) []
    rw [List.append_nil] at hreplace
    rw [hreplace]
    exact congrArg (done ++ ·) (List.append_nil rest).symm
  | case2 done rest amp after hrest before hafter hnone ih =>
    obtain ⟨hsplit, rfl⟩ := eq_of_dropWhile hrest
    have hclosing : ¬ (uc '&' = entityDelimiters.opening ∧ entityDelimiters.closing ∈ after) :=
      fun hboth => not_mem_of_dropWhile hnone hboth.2
    rw [ih]
    conv_rhs => rw [hsplit, replace_append (not_mem_takeWhile _ _),
      References.replace_cons hclosing]
    simp only [before, List.append_assoc, List.singleton_append]
  | case3 done rest amp after hrest before hafter semi tail htail entity hentity hnone ih =>
    obtain ⟨hsplit, rfl⟩ := eq_of_dropWhile hrest
    rw [ih]
    conv_rhs => rw [hsplit, replace_append (not_mem_takeWhile _ _),
      replace_reference_none htail hnone]
    simp only [before, List.append_assoc, List.singleton_append]
  | case4 done rest amp after hrest before hafter semi tail htail entity hentity
      new hnew hsame ih =>
    exact absurd hsame (hlength _ _ hnew)
  | case5 done rest amp after hrest before hafter semi tail htail entity hentity
      new hnew hsame ih =>
    obtain ⟨hsplit, rfl⟩ := eq_of_dropWhile hrest
    rw [ih]
    conv_rhs => rw [hsplit, replace_append (not_mem_takeWhile _ _),
      replace_reference_some htail hnew]
    simp only [before, List.append_assoc]

end

theorem replaceEntityReference_eq (table : NSString → Option UniChar) (s : NSString) :
    replaceEntityReference table s = References.replace entityDelimiters
      (stringForEntityReference table) s :=
  replaceEntityReferenceFrom_eq (fun _ _ => length_stringForEntityReference) [] s

-- Well-formed references

def characterText (n : Nat) : Option NSString := if n = 0 ∨ 0xD800 ≤ n ∧ n < 0xE000 then none
    else utf16 n

/-- The number of a reference that is a numeral and nothing else. -/
def numberOfReference : NSString → Option Nat
  | hash :: c :: s => if hash = uc '#' then if c = uc 'x' then hexadecimal s
      else decimal (c :: s) else none
  | _ => none

def wellFormedReference (table : NSString → Option UniChar) (reference : NSString) :
    Option NSString :=
  match table reference with
  | some value => some [value]
  | none => (numberOfReference reference).bind characterText

/-- A name; a numeral of a character beyond `0xFFFF`; or a text in which the scan finds no
number and that is no numeral of a character. -/
def IsRead (table : NSString → Option UniChar) (reference : NSString) : Prop :=
  (table reference).isSome = true ∨
    (∃ n, numberOfReference reference = some n ∧ 0xFFFF < n ∧ n ≤ 0x10FFFF) ∨
    codeOfReference reference = none ∧ (numberOfReference reference).bind characterText = none

theorem numberOfReference_cases (h : numberOfReference e = some n) :
    (∃ s, e = uc '#' :: s ∧ decimal s = some n) ∨ ∃ s, e = uc '#' :: uc 'x' :: s ∧
      hexadecimal s = some n := by
  match e with
  | [] | [_] => cases h
  | hash :: c :: s =>
    rw [numberOfReference] at h
    split at h
    · rename_i hhash
      split at h
      · rename_i hx
        exact Or.inr ⟨s, by rw [hhash, hx], h⟩
      · exact Or.inl ⟨c :: s, by rw [hhash], h⟩
    · cases h

theorem isReadAs_numberOfReference (h : numberOfReference e = some n) : IsReadAs e n := by
  obtain ⟨s, rfl, hs⟩ | ⟨s, rfl, hs⟩ := numberOfReference_cases h
  · exact isReadAs_decimal hs
  · exact isReadAs_hexadecimal hs

theorem decimal_singleton_le {c : UniChar} (h : decimal [c] = some n) : n ≤ 9 := by
  obtain ⟨hscan, hall, -⟩ := numeral_eq_some h
  obtain ⟨d, hd⟩ := Option.isSome_iff_exists.mp (hall c List.mem_cons_self)
  have hle : d ≤ 9 := by
    rw [decimalDigit] at hd
    split at hd
    · rename_i hc
      rw [Bool.and_eq_true, decide_eq_true_iff, decide_eq_true_iff] at hc
      obtain rfl := Option.some.inj hd
      rw [UInt16.toNat_sub_of_le _ _ hc.1]
      exact Nat.sub_le_of_le_add hc.2
    · cases hd
  rw [scanDigits, List.takeWhile_cons_of_pos (by rw [hd]; rfl), List.takeWhile_nil,
    List.filterMap_cons_some hd, List.filterMap_nil] at hscan
  obtain rfl : d = n := by simpa using hscan
  exact hle

theorem le_nine_of_rejected (h : numberOfReference e = some n) (hchar : n ≤ 0x10FFFF)
    (hrejected : codeOfReference e = none) : n ≤ 9 := by
  obtain ⟨s, rfl, hs⟩ | ⟨s, rfl, hs⟩ := numberOfReference_cases h
  · rw [codeOfReference_decimal hs] at hrejected
    split at hrejected
    · rename_i hone
      obtain ⟨c, rfl⟩ := List.length_eq_one_iff.mp hone
      exact decimal_singleton_le hs
    · cases hrejected
  · rw [codeOfReference_hexadecimal hs, if_pos (by omega)] at hrejected
    cases hrejected

-- The resolver and the references that are well formed

theorem scanInt_lt {z : Int} (h : scanInt s = some z) : z < 2 ^ 31 := by
  rw [scanInt] at h
  split at h
  · cases h
  · split at h
    all_goals
      obtain ⟨m, hm, rfl⟩ := Option.map_eq_some_iff.mp h
      obtain ⟨k, -, hk⟩ := Option.bind_eq_some_iff.mp hm
      obtain rfl := Option.some.inj hk
      omega

theorem scanHexInt_lt {z : Int} (h : scanHexInt s = some z) : z < 2 ^ 31 := by
  obtain ⟨m, -, rfl⟩ := Option.map_eq_some_iff.mp h
  simp only
  split <;> omega

theorem codeOfReference_lt {code : Nat} (h : codeOfReference e = some code) : code < 2 ^ 31 := by
  match e with
  | [] | [_] => cases h
  | hash :: c :: rest =>
    rw [codeOfReference] at h
    split at h
    · cases h
    · obtain ⟨z, hz, hcode⟩ := Option.bind_eq_some_iff.mp h
      have hlt : z < 2 ^ 31 := by
        split at hz
        · exact scanHexInt_lt hz
        · exact scanInt_lt hz
      split at hcode
      · obtain rfl := Option.some.inj hcode
        omega
      · cases hcode

theorem stringWithBytes_append_ne {code : Nat} (h : code < 2 ^ 31) (s t : NSString) :
    stringWithBytes (bytesOfCode code) ++ s ≠ uc '&' :: uc '#' :: t := by
  intro heq
  have hamp : (uc '&').toNat = 38 := rfl
  have hhash : (uc '#').toNat = 35 := rfl
  obtain hle | hgt := Nat.lt_or_ge 0xFFFF code |>.symm
  · rw [stringWithBytes_of_le hle] at heq
    exact absurd (List.cons.inj heq).1 (by decide)
  · obtain ⟨hge, hlt⟩ := lower_ge code
    rw [stringWithBytes, unitsOfBytes_of_gt hgt h] at heq
    generalize upper code = first, lower code = second at heq hge hlt
    simp only at heq
    split at heq
    · have hlower := congrArg UInt16.toNat (List.cons.inj heq).1
      omega
    · split at heq
      · have hlower := congrArg UInt16.toNat (List.cons.inj heq).1
        rw [swapped, UInt16.toNat_ofNat'] at hlower
        omega
      · have hlower := congrArg UInt16.toNat (List.cons.inj (List.cons.inj heq).2).1
        omega

theorem wellFormedReference_of_none (htable : table e = none) :
    wellFormedReference table e = (numberOfReference e).bind characterText := by
  rw [wellFormedReference, htable]

theorem exists_number {y : NSString} (h : (numberOfReference e).bind characterText = some y) :
    ∃ n, numberOfReference e = some n ∧ n ≠ 0 ∧ n ≤ 0x10FFFF ∧ utf16 n = some y := by
  obtain ⟨n, hn, hy⟩ := Option.bind_eq_some_iff.mp h
  rw [characterText] at hy
  split at hy
  · cases hy
  · rename_i hchar
    refine ⟨n, hn, fun hzero => hchar (Or.inl hzero), ?_, hy⟩
    rw [utf16] at hy
    split at hy
    · omega
    · split at hy
      · assumption
      · cases hy

theorem apart_references (table : NSString → Option UniChar) :
    References.Apart entityDelimiters (stringForEntityReference table)
      (wellFormedReference table) where
  both := by
    intro e x y hx hy hne s t
    cases htable : table e with
    | some value =>
      rw [stringForEntityReference, htable] at hx
      rw [wellFormedReference, htable] at hy
      exact absurd (Option.some.inj (hx.symm.trans hy)) hne
    | none =>
      rw [stringForEntityReference_eq htable] at hx
      rw [wellFormedReference_of_none htable] at hy
      obtain ⟨code, hcode, rfl⟩ := Option.map_eq_some_iff.mp hx
      obtain ⟨n, hn, hzero, hle, hy⟩ := exists_number hy
      obtain ⟨-, rfl | ⟨-, hbig⟩⟩ := isReadAs_numberOfReference hn code hcode
      · rw [utf16] at hy
        split at hy
        · rename_i hsmall
          obtain rfl := Option.some.inj hy
          rw [stringWithBytes_of_le hsmall]
          intro heq
          have hhead := congrArg UInt16.toNat (List.cons.inj heq).1
          have hnul : (0 : UniChar).toNat = 0 := rfl
          rw [hnul, UInt16.toNat_ofNat'] at hhead
          omega
        · rename_i hgt
          rw [stringWithBytes_of_pair (Nat.lt_of_not_le hgt) hle] at hne
          exact absurd (Option.some.inj hy) hne
      · exact absurd hbig (Nat.not_lt.mpr hle)
  first := by
    intro e x hx hy s t
    cases htable : table e with
    | some value =>
      rw [wellFormedReference, htable] at hy
      cases hy
    | none =>
      rw [stringForEntityReference_eq htable] at hx
      obtain ⟨code, hcode, rfl⟩ := Option.map_eq_some_iff.mp hx
      obtain ⟨c, d, rest, rfl⟩ := exists_of_codeOfReference hcode
      have hhash : ¬ (uc '#' = entityDelimiters.opening ∧
          entityDelimiters.closing ∈ c :: d :: rest ++ entityDelimiters.closing :: t) :=
        fun hboth => absurd hboth.1 (by decide)
      rw [List.cons_append, References.replace_cons hhash]
      exact stringWithBytes_append_ne (codeOfReference_lt hcode) s _
  second := by
    intro e y hx hy s t
    cases htable : table e with
    | some value =>
      rw [stringForEntityReference, htable] at hx
      cases hx
    | none =>
      rw [stringForEntityReference_eq htable, Option.map_eq_none_iff] at hx
      rw [wellFormedReference_of_none htable] at hy
      obtain ⟨n, hn, -, hle, hy⟩ := exists_number hy
      have hnine := le_nine_of_rejected hn hle hx
      rw [utf16, if_pos (by omega)] at hy
      obtain rfl := Option.some.inj hy
      intro heq
      have hhead := congrArg UInt16.toNat (List.cons.inj heq).1
      have hamp : entityDelimiters.opening.toNat = 38 := rfl
      rw [UInt16.toNat_ofNat', hamp] at hhead
      omega

theorem stringForEntityReference_eq_wellFormed_iff (e : NSString) :
    stringForEntityReference table e = wellFormedReference table e ↔ IsRead table e := by
  rw [IsRead]
  cases htable : table e with
  | some value =>
    rw [stringForEntityReference, wellFormedReference, htable]
    exact iff_of_true rfl (Or.inl rfl)
  | none =>
    rw [stringForEntityReference_eq htable, wellFormedReference_of_none htable, Option.isSome_none,
      or_iff_right Bool.false_ne_true]
    cases hcode : codeOfReference e with
    | none =>
      rw [Option.map_none, eq_comm, and_iff_right rfl, or_iff_right]
      rintro ⟨n, hn, hgt, hle⟩
      exact absurd (le_nine_of_rejected hn hle hcode) (by omega)
    | some code =>
      rw [Option.map_some, or_iff_left fun h => Option.some_ne_none code h.1]
      constructor
      · intro heq
        obtain ⟨n, hn, -, hle, htext⟩ := exists_number heq.symm
        refine ⟨n, hn, ?_, hle⟩
        obtain ⟨-, rfl | ⟨-, hbig⟩⟩ := isReadAs_numberOfReference hn code hcode
        · by_contra hsmall
          have hsmall := Nat.le_of_not_lt hsmall
          rw [utf16, if_pos hsmall, stringWithBytes_of_le hsmall] at htext
          exact absurd (congrArg List.length (Option.some.inj htext)) (by simp)
        · exact absurd hbig (Nat.not_lt.mpr hle)
      · rintro ⟨n, hn, hgt, hle⟩
        obtain ⟨-, rfl | ⟨-, hbig⟩⟩ := isReadAs_numberOfReference hn code hcode
        · rw [hn, Option.bind_some, characterText, if_neg (by omega), utf16,
            if_neg (Nat.not_le.mpr hgt), if_pos hle,
            stringWithBytes_of_pair hgt hle]
        · exact absurd hbig (Nat.not_lt.mpr hle)

/-- The well-formed references are replaced, and nothing else, if and only if all that is
read as a reference is read as it should be. -/
theorem replaceEntityReference_eq_iff (table : NSString → Option UniChar) (s : NSString) :
    replaceEntityReference table s = References.replace entityDelimiters
      (wellFormedReference table) s ↔
      ∀ e ∈ References.candidates entityDelimiters (wellFormedReference table) s,
        IsRead table e := by
  rw [replaceEntityReference_eq, References.replace_eq_iff (apart_references table)]
  exact forall_congr' fun e => imp_congr_right fun _ => stringForEntityReference_eq_wellFormed_iff e

/-- The text behind the digits is lost. -/
theorem replaceEntityReference_behind_digits :
    replaceEntityReference smallEnvironment.entityReferenceTable (ns "&#65abc;") ≠
      References.replace entityDelimiters
        (wellFormedReference smallEnvironment.entityReferenceTable)
        (ns "&#65abc;") := by
  rw [replaceEntityReference_eq]
  decide

end BathyScaphe.Xml
