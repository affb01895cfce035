import BathyScaphe.Composer.Anchor
import BathyScaphe.Composer.TagElements
import BathyScaphe.Foundation.IndexSet
import BathyScaphe.Foundation.RangedReplacement
import BathyScaphe.Spam.Detecter
import BathyScaphe.Xml.EntityReference

/-!
# Resolving inner links

The elements of a link are separated by commas and the like. The numbers of an element are
collected in an index set, and an element whose set has two indexes is a range: three numbers
of which two are equal are one too. A number that is too large is read as `INT_MAX`.
-/

namespace BathyScaphe.Thread.CMRThreadLinkProcessor

open NSString BathyScaphe.Composer Spam Xml

-- Strings and scanners

/-- `scanString:intoString:` of a scanner that takes no notice of the case: what is left. -/
def scanString (string s : NSString) : Option NSString :=
  let s := s.dropWhile isWhitespace
  if (s.take string.length).map Composer.tolower = string.map Composer.tolower
    then some (s.drop string.length) else none

def stringByStripedAtEnd (s : NSString) : NSString := s.rdropWhile isspace

def stringByDeletingURLScheme (s aScheme : NSString) : Option NSString :=
  if s = [] ∨ aScheme = [] then some s
  else do
    let afterScheme ← scanString aScheme s
    let context ← scanString (ns ":") afterScheme
    return stringByStripedAtEnd (skipCharacters whitespaceCharacterSet context)

def componentsSeparatedByCharacterSequenceFromSet (aCharacterSet : UniChar → Bool) (s : NSString) :
    List NSString :=
  match _hrest : s.dropWhile fun c => !aCharacterSet c with
  | [] => [s]
  | _ :: rest =>
    (s.takeWhile fun c => !aCharacterSet c) ::
      componentsSeparatedByCharacterSequenceFromSet aCharacterSet (rest.dropWhile aCharacterSet)
termination_by s.length
decreasing_by
  have hrest := (List.dropWhile_suffix (l := rest) aCharacterSet).length_le
  have hall := (List.dropWhile_suffix (l := s) fun c => !aCharacterSet c).length_le
  rw [_hrest, List.length_cons] at hall
  omega

/-- `scanInt:` past the characters that are skipped, white space and a sign: the number and
what is left. Numbers that are too large are the largest ones. -/
def scanInt (skipped : UniChar → Bool) (s : NSString) : Option (Int × NSString) :=
  match (s.dropWhile skipped).dropWhile isWhitespace with
  | [] => none
  | c :: s =>
    let digits := if c = uc '-' ∨ c = uc '+' then s else c :: s
    (scanDigits 10 decimalDigit digits).map fun n : Nat =>
      (if c = uc '-' then max (-(n : Int)) (-2 ^ 31) else min (n : Int) (2 ^ 31 - 1),
        digits.dropWhile fun c => (decimalDigit c).isSome)

theorem length_scanInt {skipped : UniChar → Bool} {s rest : NSString} {idx : Int}
    (h : scanInt skipped s = some (idx, rest)) : rest.length < s.length := by
  have hskipped := (List.dropWhile_suffix (l := s) skipped).length_le
  have hwhite := (List.dropWhile_suffix (l := s.dropWhile skipped) isWhitespace).length_le
  rw [scanInt] at h
  split at h
  · cases h
  · rename_i c t ht
    rw [ht, List.length_cons] at hwhite
    obtain ⟨digits, hdigits⟩ : ∃ digits, digits = if c = uc '-' ∨ c = uc '+' then t
        else c :: t := ⟨_, rfl⟩
    rw [← hdigits] at h
    obtain ⟨n, hscan, hpair⟩ := Option.map_eq_some_iff.mp h
    obtain ⟨-, rfl⟩ := Prod.mk.inj hpair
    have hle : digits.length ≤ t.length + 1 := by
      rw [hdigits]
      split
      · exact Nat.le_succ _
      · exact Nat.le_refl _
    have hne : digits.takeWhile (fun c => (decimalDigit c).isSome) ≠ [] := by
      intro hnil
      rw [scanDigits, hnil] at hscan
      cases hscan
    have hsplit := congrArg List.length (@List.takeWhile_append_dropWhile _
      (fun c => (decimalDigit c).isSome) digits)
    have hpos := List.length_pos_of_ne_nil hne
    rw [List.length_append] at hsplit
    omega

-- The processor

def scanIndexes (s : NSString) (tmpIndexes : NSIndexSet) : NSIndexSet :=
  match _h : scanInt whitespaceCharacterSet s with
  | none => tmpIndexes
  | some (idx, rest) => scanIndexes rest (if idx < 1 then tmpIndexes
      else tmpIndexes.addIndex (idx - 1).toNat)
termination_by s.length
decreasing_by exact length_scanInt _h

section
variable (fullwidthHalfwidth : NSString → NSString)

def scanResLinkElement (str : NSString) (buffer : NSIndexSet) : NSIndexSet :=
  if str.length = 0 then buffer
  else
    let tmp := fullwidthHalfwidth str
    let tmp := tmp.replaceCharactersInSet innerLinkRangeCharacterSet (ns " ") NSLiteralSearch
      ⟨0, tmp.length⟩
    let tmpIndexes := scanIndexes tmp .empty
    if tmpIndexes.count = 0 then buffer
    else if tmpIndexes.count = 2 then
      match tmpIndexes.firstIndex, tmpIndexes.lastIndex with
      | some first, some last => buffer.addIndexesInRange ⟨first, last - first + 1⟩
      | _, _ => buffer
    else buffer.addIndexes tmpIndexes

def isMessageLinkUsingLocalScheme (aLink : Option NSString) : Option NSIndexSet := do
  let str ← stringByDeletingURLScheme (← aLink) CMRAttributeInnerLinkScheme
  let comps := componentsSeparatedByCharacterSequenceFromSet innerLinkSeparaterCharacterSet str
  let buffer := comps.foldl (fun buffer elem =>
    scanResLinkElement fullwidthHalfwidth elem buffer) .empty
  if 0 < buffer.count then some buffer else none

end

-- Link texts

def INT_MAX : Nat := 2 ^ 31 - 1

def digitValue (c : UniChar) : Nat := if 0xff10 ≤ c then (c - 0xff10).toNat else (c - uc '0').toNat

def numberOf (digits : List Nat) : Nat := digits.foldl (fun n d => n * 10 + d) 0

inductive IsNumber : NSString → Nat → Prop
  | digits : LinkCharacters.IsRun numberCharacterSet_JP d → IsNumber d (numberOf (d.map digitValue))

inductive IsElement : NSString → List Nat → Prop
  | number : IsNumber d n → IsElement d [n]
  | mark {s : NSString} : IsNumber d n → LinkCharacters.IsRun innerLinkRangeCharacterSet marks →
      IsElement s numbers →
      IsElement (d ++ (marks ++ s)) (n :: numbers)

inductive IsLink : NSString → List (List Nat) → Prop
  | element {s : NSString} : IsElement s numbers → IsLink s [numbers]
  | separator {s t : NSString} : IsElement s numbers →
      LinkCharacters.IsRun innerLinkSeparaterCharacterSet separators →
      IsLink t es → IsLink (s ++ (separators ++ t)) (numbers :: es)

/-- What the transform does to numbers and range marks: the digits become those of ASCII, the
marks stay marks. -/
def Halves (fullwidthHalfwidth : NSString → NSString) : Prop :=
  ∃ unit : UniChar → UniChar,
    (∀ s, (∀ c ∈ s, numberCharacterSet_JP c = true ∨ innerLinkRangeCharacterSet c = true) →
      fullwidthHalfwidth s = s.map unit) ∧
    (∀ c, numberCharacterSet_JP c = true → decimalDigit (unit c) = some (digitValue c)) ∧
    ∀ c, innerLinkRangeCharacterSet c = true → innerLinkRangeCharacterSet (unit c) = true

-- What a link denotes

/-- The index of a message is its number less one. An element of two numbers is a range, any
other lists its numbers; zero and numbers above `INT_MAX` are no numbers of messages. -/
def ElementDenotes (numbers : List Nat) (i : Nat) : Prop :=
  (i + 1 ∈ numbers ∧ i + 1 ≤ INT_MAX) ∨
    ∃ a b, numbers = [a, b] ∧ (1 ≤ a ∧ a ≤ INT_MAX) ∧ (1 ≤ b ∧ b ≤ INT_MAX) ∧ min a b ≤ i + 1 ∧
    i + 1 ≤ max a b

def Denotes (es : List (List Nat)) (i : Nat) : Prop := ∃ numbers ∈ es, ElementDenotes numbers i

/-- The result of the processor for what a link denotes. -/
def Resolves (result : Option NSIndexSet) (es : List (List Nat)) : Prop :=
  ∃ set : NSIndexSet, (∀ i, i ∈ set ↔ Denotes es i) ∧ result = if 0 < set.count then some set
  else none

/-- The numbers of an element that are read: without zero, and none above `INT_MAX`. -/
def Reads (numbers : List Nat) (m : Nat) : Prop := ∃ n ∈ numbers, 1 ≤ n ∧ m = min n INT_MAX

/-- An element is a range when two numbers are read. -/
def ReadsRange (numbers : List Nat) (lo hi : Nat) : Prop := lo < hi ∧ ∀ m, Reads numbers m ↔
    m = lo ∨ m = hi

def ElementReads (numbers : List Nat) (i : Nat) : Prop :=
  Reads numbers (i + 1) ∨ ∃ lo hi, ReadsRange numbers lo hi ∧ lo ≤ i + 1 ∧ i + 1 ≤ hi

/-- The link denotes what an element adds to it by mistake: `INT_MAX` for a number above, and
the range of an element that is not one of two numbers. -/
structure Harmless (es : List (List Nat)) (numbers : List Nat) : Prop where
  large : ∀ n ∈ numbers, INT_MAX < n → Denotes es (INT_MAX - 1)
  range : ¬ (numbers.length = 2 ∧ ∀ n ∈ numbers, n ≤ INT_MAX) →
    ∀ lo hi, ReadsRange numbers lo hi → ∀ i, lo ≤ i + 1 → i + 1 ≤ hi → Denotes es i

variable {numbers : List Nat} {es : List (List Nat)} {i : Nat}

theorem reads_pair {a b m : Nat} (ha : a ≤ INT_MAX) (hb : b ≤ INT_MAX) :
    Reads [a, b] m ↔ (1 ≤ a ∧ m = a) ∨ 1 ≤ b ∧ m = b := by
  rw [Reads]
  simp only [List.mem_cons, List.not_mem_nil, or_false, exists_eq_or_imp, exists_eq_left,
    Nat.min_eq_left ha, Nat.min_eq_left hb]

theorem ReadsRange.elementDenotes {lo hi : Nat} (h : ReadsRange numbers lo hi)
    (hlength : numbers.length = 2)
    (hle : ∀ n ∈ numbers, n ≤ INT_MAX) (hlo : lo ≤ i + 1) (hhi : i + 1 ≤ hi) :
    ElementDenotes numbers i := by
  obtain ⟨hlt, hreads⟩ := h
  obtain ⟨a, b, rfl⟩ := List.length_eq_two.mp hlength
  have ha := hle a (by simp)
  have hb := hle b (by simp)
  have hfirst := (reads_pair ha hb).mp ((hreads lo).mpr (Or.inl rfl))
  have hlast := (reads_pair ha hb).mp ((hreads hi).mpr (Or.inr rfl))
  exact Or.inr ⟨a, b, rfl, by omega, by omega, by omega, by omega⟩

theorem elementReads_of_denotes (h : ElementDenotes numbers i) : ElementReads numbers i := by
  obtain ⟨hmem, hle⟩ | ⟨a, b, rfl, ha, hb, hmin, hmax⟩ := h
  · exact Or.inl ⟨i + 1, hmem, Nat.succ_pos i, (Nat.min_eq_left hle).symm⟩
  · by_cases heq : a = b
    · exact Or.inl ((reads_pair ha.2 hb.2).mpr (Or.inl ⟨ha.1, by omega⟩))
    · refine Or.inr ⟨min a b, max a b, ⟨by omega, fun m => ?_⟩, hmin, hmax⟩
      rw [reads_pair ha.2 hb.2]
      omega

theorem elementReads_denotes (hmem : numbers ∈ es) (h : Harmless es numbers)
    (hreads : ElementReads numbers i) :
    Denotes es i := by
  obtain ⟨n, hn, hpos, heq⟩ | ⟨lo, hi, hrange, hlo, hhi⟩ := hreads
  · by_cases hle : n ≤ INT_MAX
    · rw [Nat.min_eq_left hle] at heq
      exact ⟨numbers, hmem, Or.inl ⟨heq ▸ hn, heq ▸ hle⟩⟩
    · rw [Nat.min_eq_right (Nat.le_of_not_le hle)] at heq
      have hlarge := h.large n hn (Nat.lt_of_not_le hle)
      rwa [← heq] at hlarge
  · by_cases hpair : numbers.length = 2 ∧ ∀ n ∈ numbers, n ≤ INT_MAX
    · exact ⟨numbers, hmem, hrange.elementDenotes hpair.1 hpair.2 hlo hhi⟩
    · exact h.range hpair lo hi hrange i hlo hhi

/-- What is read is what is denoted if and only if no element adds anything. -/
theorem reads_iff_denotes_iff :
    (∀ i, (∃ numbers ∈ es, ElementReads numbers i) ↔ Denotes es i) ↔
      ∀ numbers ∈ es, Harmless es numbers := by
  constructor
  · intro h numbers hmem
    constructor
    · intro n hn hlt
      refine (h _).mp ⟨numbers, hmem, Or.inl ⟨n, hn, Nat.one_le_of_lt hlt, ?_⟩⟩
      exact (Nat.min_eq_right (Nat.le_of_lt hlt)).symm
    · intro _ lo hi hrange i hlo hhi
      exact (h i).mp ⟨numbers, hmem, Or.inr ⟨lo, hi, hrange, hlo, hhi⟩⟩
  · intro h i
    constructor
    · rintro ⟨numbers, hmem, hreads⟩
      exact elementReads_denotes hmem (h numbers hmem) hreads
    · rintro ⟨numbers, hmem, hdenotes⟩
      exact ⟨numbers, hmem, elementReads_of_denotes hdenotes⟩

-- What is read

theorem isWhitespace_of_whitespace {c : UniChar} (h : whitespaceCharacterSet c = true) :
    isWhitespace c = true := by
  simp only [whitespaceCharacterSet, isWhitespace, Bool.or_eq_true, Bool.and_eq_true,
    decide_eq_true_iff,
    beq_iff_eq, UInt16.le_iff_toNat_le, ← UInt16.toNat_inj, UInt16.reduceToNat] at h ⊢
  omega

theorem of_rangeCharacter {p : UniChar → Bool} {c : UniChar}
    (h : [0x2d, 0x30fc, 0x2212, 0x2014, 0xff70].all p = true)
    (hc : innerLinkRangeCharacterSet c = true) :
    p c = true := List.all_eq_true.mp h c (of_decide_eq_true hc)

theorem plain_of_decimalDigit {c : UniChar} (h : (decimalDigit c).isSome = true) :
    whitespaceCharacterSet c = false ∧ isWhitespace c = false ∧ ¬ (c = uc '-' ∨ c = uc '+') ∧
      innerLinkRangeCharacterSet c = false := by
  obtain ⟨hwhite, hminus, hplus, -, -⟩ := plain_of_hexDigit (hexDigit_of_decimalDigit h)
  refine ⟨?_, hwhite, fun hsign => hsign.elim hminus hplus, ?_⟩
  · by_contra hne
    rw [isWhitespace_of_whitespace (Bool.not_eq_false _ ▸ hne)] at hwhite
    cases hwhite
  · by_contra hmark
    have hnone := @of_rangeCharacter (fun c => !(decimalDigit c).isSome) c rfl
      (Bool.not_eq_false _ ▸ hmark)
    rw [h] at hnone
    cases hnone

theorem scanInt_number {skipped : UniChar → Bool} {w d t : NSString}
    (hskipped : ∀ c, (decimalDigit c).isSome = true → skipped c = false)
    (hw : ∀ c ∈ w, skipped c = true) (hne : d ≠ [])
    (hd : ∀ c ∈ d, (decimalDigit c).isSome = true)
    (ht : ∀ c ∈ t.head?, (decimalDigit c).isSome = false) :
    scanInt skipped (w ++ (d ++ t)) =
      some (((min (numberOf (d.filterMap decimalDigit)) INT_MAX : Nat) : Int), t) := by
  obtain ⟨c, d, rfl⟩ := List.exists_cons_of_ne_nil hne
  obtain ⟨-, hwhite, hsign, -⟩ := plain_of_decimalDigit (hd c List.mem_cons_self)
  have hskip := hskipped c (hd c List.mem_cons_self)
  have hstop : t.takeWhile (fun c => (decimalDigit c).isSome) = [] ∧
      t.dropWhile (fun c => (decimalDigit c).isSome) = t := by
    cases t with
    | nil => exact ⟨rfl, rfl⟩
    | cons e t =>
      have he : ¬ (decimalDigit e).isSome = true := by rw [ht e rfl]; exact Bool.false_ne_true
      exact ⟨List.takeWhile_cons_of_neg he, List.dropWhile_cons_of_neg he⟩
  have hdigits : (c :: d).filterMap decimalDigit ≠ [] := by
    obtain ⟨n, hn⟩ := Option.isSome_iff_exists.mp (hd c List.mem_cons_self)
    rw [List.filterMap_cons_some hn]
    exact List.cons_ne_nil _ _
  have hscan : scanDigits 10 decimalDigit (c :: d ++ t) =
    some (numberOf ((c :: d).filterMap decimalDigit)) := by
    rw [scanDigits, List.takeWhile_append_of_pos hd, hstop.1, List.append_nil]
    obtain ⟨n, ds, hds⟩ := List.exists_cons_of_ne_nil hdigits
    rw [hds]
    rfl
  have hbegin : ((w ++ (c :: d ++ t)).dropWhile skipped).dropWhile isWhitespace =
    c :: (d ++ t) := by
    rw [List.dropWhile_append_of_pos hw, List.cons_append,
      List.dropWhile_cons_of_neg (Bool.eq_false_iff.mp hskip),
      List.dropWhile_cons_of_neg (Bool.eq_false_iff.mp hwhite)]
  have hmin : ∀ n : Nat, min (n : Int) (2 ^ 31 - 1) = ((min n INT_MAX : Nat) : Int) := by
    intro n
    rw [INT_MAX]
    omega
  rw [scanInt, hbegin]
  simp only [if_neg hsign]
  rw [← List.cons_append, hscan, Option.map_some, List.dropWhile_append_of_pos hd, hstop.2,
    if_neg fun hminus => hsign (Or.inl hminus), hmin]

theorem scanIndexes_none {s : NSString} (h : scanInt whitespaceCharacterSet s = none)
    (set : NSIndexSet) :
    scanIndexes s set = set := by
  rw [scanIndexes]
  split
  · rfl
  · rename_i hsome
    rw [h] at hsome
    cases hsome

theorem scanIndexes_some {s rest : NSString} {n : Nat}
    (h : scanInt whitespaceCharacterSet s = some ((n : Int), rest)) (set : NSIndexSet) :
    scanIndexes s set = scanIndexes rest (if n < 1 then set else set.addIndex (n - 1)) := by
  rw [scanIndexes]
  split
  · rename_i hnone
    rw [h] at hnone
    cases hnone
  · rename_i hsome
    rw [h] at hsome
    obtain ⟨rfl, rfl⟩ := Prod.mk.inj (Option.some.inj hsome)
    by_cases hzero : n < 1
    · rw [if_pos hzero, if_pos (by omega)]
    · rw [if_neg hzero, if_neg (by omega)]
      congr 2
      omega

theorem mem_addNumber {n : Nat} {set : NSIndexSet} :
    i ∈ (if min n INT_MAX < 1 then set else set.addIndex (min n INT_MAX - 1)) ↔
      i ∈ set ∨ 1 ≤ n ∧ i + 1 = min n INT_MAX := by
  have hmax : 1 ≤ INT_MAX := by decide
  split
  · rename_i hzero
    simp only [iff_self_or]
    omega
  · rw [NSIndexSet.mem_addIndex, or_comm]
    apply or_congr_right
    omega

section
variable {unit : UniChar → UniChar}
variable (hdigit : ∀ c, numberCharacterSet_JP c = true → decimalDigit (unit c) =
  some (digitValue c))
variable (hrange : ∀ c, innerLinkRangeCharacterSet c = true →
  innerLinkRangeCharacterSet (unit c) = true)
include hdigit

/-- A unit of an element after the transform, and after the range marks are replaced. -/
def spaced (unit : UniChar → UniChar) (c : UniChar) : UniChar :=
  if innerLinkRangeCharacterSet (unit c) = true then uc ' ' else unit c

theorem spaced_number {d : NSString} (hd : ∀ c ∈ d, numberCharacterSet_JP c = true) :
    (∀ c ∈ d.map (spaced unit), (decimalDigit c).isSome = true) ∧
      (d.map (spaced unit)).filterMap decimalDigit = d.map digitValue := by
  have hspaced : ∀ c ∈ d, decimalDigit (spaced unit c) = some (digitValue c) := by
    intro c hc
    have hunit := hdigit c (hd c hc)
    have hplain := (plain_of_decimalDigit (Option.isSome_iff_exists.mpr ⟨_, hunit⟩)).2.2.2
    rw [spaced, hplain, if_neg Bool.false_ne_true, hunit]
  constructor
  · intro c hc
    obtain ⟨c, hmem, rfl⟩ := List.mem_map.mp hc
    rw [hspaced c hmem]
    rfl
  · rw [List.filterMap_map, ← List.filterMap_eq_map]
    exact List.filterMap_congr hspaced

include hrange

/-- The loop reads the numbers of an element, whatever white space is before it. -/
theorem mem_scanIndexes {s w : NSString} (h : IsElement s numbers)
    (hw : ∀ c ∈ w, whitespaceCharacterSet c = true) (set : NSIndexSet) :
    i ∈ scanIndexes (w ++ s.map (spaced unit)) set ↔ i ∈ set ∨ Reads numbers (i + 1) := by
  induction h generalizing w set with
  | @number d n hd =>
    obtain ⟨hd⟩ := hd
    obtain ⟨hdigits, hvalues⟩ := spaced_number hdigit hd.2
    have hstep :=
      @scanInt_number whitespaceCharacterSet w _ [] (fun _ h => (plain_of_decimalDigit h).1) hw
      (List.map_eq_nil_iff.not.mpr hd.1) hdigits (by simp)
    rw [List.append_nil, hvalues] at hstep
    have hend : scanInt whitespaceCharacterSet [] = none := rfl
    rw [scanIndexes_some hstep, scanIndexes_none hend, mem_addNumber, Reads]
    simp only [List.mem_singleton, exists_eq_left]
  | @mark d n marks numbers s hd hmarks _ ih =>
    obtain ⟨hd⟩ := hd
    obtain ⟨hdigits, hvalues⟩ := spaced_number hdigit hd.2
    have hblank : ∀ c ∈ marks.map (spaced unit), c = uc ' ' := by
      intro c hc
      obtain ⟨c, hmem, rfl⟩ := List.mem_map.mp hc
      exact if_pos (hrange c (hmarks.2 c hmem))
    have hwhite : ∀ c ∈ marks.map (spaced unit), whitespaceCharacterSet c = true := by
      intro c hc
      rw [hblank c hc]
      rfl
    have hstop : ∀ c ∈ (marks.map (spaced unit) ++ s.map (spaced unit)).head?,
      (decimalDigit c).isSome = false := by
      intro c hc
      rw [List.head?_append_of_ne_nil _ (List.map_eq_nil_iff.not.mpr hmarks.1)] at hc
      rw [hblank c (List.mem_of_mem_head? hc)]
      rfl
    have hstep := scanInt_number (fun _ h => (plain_of_decimalDigit h).1) hw
      (List.map_eq_nil_iff.not.mpr hd.1)
      hdigits hstop
    rw [hvalues] at hstep
    rw [List.map_append, List.map_append, scanIndexes_some hstep, ih hwhite, mem_addNumber,
      or_assoc, Reads, Reads]
    simp only [List.mem_cons, exists_eq_or_imp]

end

theorem Reads.pos {m : Nat} (h : Reads numbers m) : 1 ≤ m := by
  obtain ⟨n, -, hpos, rfl⟩ := h
  have hmax : 1 ≤ INT_MAX := by decide
  omega

theorem ReadsRange.eq {lo hi lo' hi' : Nat} (h : ReadsRange numbers lo hi)
    (h' : ReadsRange numbers lo' hi') :
    lo = lo' ∧ hi = hi' := by
  have hlo := (h'.2 lo).mp ((h.2 lo).mpr (Or.inl rfl))
  have hhi := (h'.2 hi).mp ((h.2 hi).mpr (Or.inr rfl))
  have hlt := h.1
  have hlt' := h'.1
  omega

/-- The set of an element has two indexes if and only if it is read as a range. -/
theorem ReadsRange.indexes {set : NSIndexSet} (hset : ∀ i, i ∈ set ↔ Reads numbers (i + 1))
    {lo hi : Nat}
    (h : ReadsRange numbers lo hi) : set.indexes = [lo - 1, hi - 1] := by
  have hlo := ((h.2 lo).mpr (Or.inl rfl)).pos
  have hlt := h.1
  have hsorted : [lo - 1, hi - 1].Pairwise (· < ·) := List.pairwise_pair.mpr (by omega)
  have heq : set = ⟨[lo - 1, hi - 1], hsorted⟩ := by
    apply NSIndexSet.ext_mem
    intro i
    rw [hset, h.2, ← NSIndexSet.mem_indexes, List.mem_pair]
    omega
  rw [heq]

theorem readsRange_of_indexes {set : NSIndexSet} (hset : ∀ i, i ∈ set ↔ Reads numbers (i + 1))
    {first last : Nat}
    (h : set.indexes = [first, last]) : ReadsRange numbers (first + 1) (last + 1) := by
  have hsorted := set.sorted
  rw [h, List.pairwise_pair] at hsorted
  refine ⟨by omega, fun m => ?_⟩
  constructor
  · intro hreads
    have hpos := hreads.pos
    have hmem : m - 1 ∈ set := (hset (m - 1)).mpr (by rwa [Nat.sub_add_cancel hpos])
    rw [← NSIndexSet.mem_indexes, h, List.mem_pair] at hmem
    omega
  · intro hm
    have hmem : m - 1 ∈ set := by
      rw [← NSIndexSet.mem_indexes, h, List.mem_pair]
      omega
    have hreads := (hset (m - 1)).mp hmem
    rwa [Nat.sub_add_cancel (by omega)] at hreads

variable {fullwidthHalfwidth : NSString → NSString}

theorem IsElement.units {s : NSString} (h : IsElement s numbers) :
    s ≠ [] ∧ ∀ c ∈ s, numberCharacterSet_JP c = true ∨ innerLinkRangeCharacterSet c = true := by
  induction h with
  | number hd =>
    obtain ⟨hd⟩ := hd
    exact ⟨hd.1, fun c hc => Or.inl (hd.2 c hc)⟩
  | mark hd hmarks _ ih =>
    obtain ⟨hd⟩ := hd
    refine ⟨List.append_ne_nil_of_left_ne_nil hd.1 _, fun c hc => ?_⟩
    rw [List.mem_append, List.mem_append] at hc
    obtain hc | hc | hc := hc
    · exact Or.inl (hd.2 c hc)
    · exact Or.inr (hmarks.2 c hc)
    · exact ih.2 c hc

theorem mem_scanResLinkElement (hhalf : Halves fullwidthHalfwidth) {s : NSString}
    (h : IsElement s numbers)
    (buffer : NSIndexSet) :
    i ∈ scanResLinkElement fullwidthHalfwidth s buffer ↔ i ∈ buffer ∨ ElementReads numbers i := by
  obtain ⟨unit, hmap, hdigit, hrange⟩ := hhalf
  obtain ⟨hne, hunits⟩ := h.units
  have htmp : (fullwidthHalfwidth s).replaceCharactersInSet innerLinkRangeCharacterSet
    (ns " ") NSLiteralSearch
      ⟨0, (fullwidthHalfwidth s).length⟩ = s.map (spaced unit) := by
    rw [hmap s hunits]
    exact (replaceCharactersInSet_unit _ _ _).trans List.map_map
  have hset : ∀ i, i ∈ scanIndexes (s.map (spaced unit)) .empty ↔ Reads numbers (i + 1) := by
    intro i
    have hread := @mem_scanIndexes numbers i unit hdigit hrange s [] h (by simp) .empty
    rwa [List.nil_append, or_iff_right NSIndexSet.not_mem_empty] at hread
  rw [scanResLinkElement, if_neg (List.length_eq_zero_iff.not.mpr hne)]
  simp only
  rw [htmp]
  generalize scanIndexes (s.map (spaced unit)) .empty = set at hset ⊢
  by_cases htwo : set.count = 2
  · obtain ⟨first, last, hindexes⟩ := List.length_eq_two.mp htwo
    have hread := readsRange_of_indexes hset hindexes
    have hfirst : set.firstIndex = some first := by rw [NSIndexSet.firstIndex, hindexes]; rfl
    have hlast : set.lastIndex = some last := by rw [NSIndexSet.lastIndex, hindexes]; rfl
    rw [if_neg (by omega), if_pos htwo, hfirst, hlast]
    simp only [NSIndexSet.mem_addIndexesInRange, NSRange.max]
    rw [or_comm]
    apply or_congr_right
    have hlt := hread.1
    constructor
    · intro hi
      exact Or.inr ⟨_, _, hread, by omega, by omega⟩
    · rintro (hi | ⟨lo, hi, hread', hlo, hhi⟩)
      · have hends := (hread.2 _).mp hi
        omega
      · obtain ⟨rfl, rfl⟩ := hread.eq hread'
        omega
  · have hlist : ElementReads numbers i ↔ Reads numbers (i + 1) := by
      rw [ElementReads, or_iff_left]
      rintro ⟨lo, hi, hread, -⟩
      exact htwo (congrArg List.length (hread.indexes hset))
    rw [if_neg htwo, hlist, ← hset]
    split
    · rename_i hzero
      have hnone : ¬ i ∈ set := by
        rw [← NSIndexSet.mem_indexes, List.length_eq_zero_iff.mp hzero]
        exact List.not_mem_nil
      rw [or_iff_left hnone]
    · rw [NSIndexSet.mem_addIndexes, or_comm]

-- The whole link

section
variable {set : UniChar → Bool} {s t separators : NSString}

theorem components_of_absent (h : ∀ c ∈ s, set c = false) :
    componentsSeparatedByCharacterSequenceFromSet set s = [s] := by
  have hrest : (s.dropWhile fun c => !set c) = [] := by
    rw [List.dropWhile_eq_nil_iff]
    intro c hc
    rw [h c hc]
    rfl
  rw [componentsSeparatedByCharacterSequenceFromSet]
  split
  · rfl
  · rename_i hcons
    rw [hrest] at hcons
    cases hcons

theorem components_append (h : ∀ c ∈ s, set c = false)
    (hseparators : LinkCharacters.IsRun set separators)
    (ht : ∀ c ∈ t.head?, set c = false) :
    componentsSeparatedByCharacterSequenceFromSet set (s ++ (separators ++ t)) =
      s :: componentsSeparatedByCharacterSequenceFromSet set t := by
  obtain ⟨hne, hall⟩ := hseparators
  obtain ⟨c, separators, rfl⟩ := List.exists_cons_of_ne_nil hne
  have hbefore : ∀ c ∈ s, (!set c) = true := fun c hc => by rw [h c hc]; rfl
  have hc : ¬ (!set c) = true := by
    rw [hall c List.mem_cons_self]
    exact Bool.false_ne_true
  have hbehind : (separators ++ t).dropWhile set = t := by
    rw [List.dropWhile_append_of_pos fun d hd => hall d (List.mem_cons_of_mem c hd)]
    cases t with
    | nil => rfl
    | cons d t => exact List.dropWhile_cons_of_neg (Bool.eq_false_iff.mp (ht d rfl))
  have hdrop : ((s ++ (c :: separators ++ t)).dropWhile fun c => !set c) =
    c :: (separators ++ t) := by
    rw [List.dropWhile_append_of_pos hbefore]
    exact List.dropWhile_cons_of_neg hc
  have htake : ((s ++ (c :: separators ++ t)).takeWhile fun c => !set c) = s := by
    have hstop : ((c :: (separators ++ t)).takeWhile fun c => !set c) = [] :=
      List.takeWhile_cons_of_neg hc
    rw [List.takeWhile_append_of_pos hbefore, List.cons_append, hstop, List.append_nil]
  rw [componentsSeparatedByCharacterSequenceFromSet]
  split
  · rename_i hnil
    rw [hdrop] at hnil
    cases hnil
  · rename_i hcons
    rw [hdrop] at hcons
    obtain ⟨rfl, rfl⟩ := List.cons.inj hcons
    rw [htake, hbehind]

end

structure Ends (s : NSString) : Prop where
  first : ∃ c t, s = c :: t ∧ numberCharacterSet_JP c = true
  last : ∃ t c, s = t ++ [c] ∧ numberCharacterSet_JP c = true

theorem Ends.append {s t : NSString} (hs : Ends s) (ht : Ends t) (u : NSString) :
    Ends (s ++ (u ++ t)) where
  first := by
    obtain ⟨c, s', rfl, hc⟩ := hs.first
    exact ⟨c, s' ++ (u ++ t), rfl, hc⟩
  last := by
    obtain ⟨t', c, rfl, hc⟩ := ht.last
    exact ⟨s ++ (u ++ t'), c, by simp only [List.append_assoc], hc⟩

theorem IsNumber.ends {d : NSString} {n : Nat} (h : IsNumber d n) : Ends d := by
  obtain ⟨hne, hall⟩ := h
  refine ⟨?_, d.dropLast, d.getLast hne, (List.dropLast_append_getLast hne).symm,
    hall _ (List.getLast_mem hne)⟩
  obtain ⟨c, t, rfl⟩ := List.exists_cons_of_ne_nil hne
  exact ⟨c, t, rfl, hall c List.mem_cons_self⟩

theorem IsElement.ends {s : NSString} (h : IsElement s numbers) : Ends s := by
  induction h with
  | number hd => exact hd.ends
  | mark hd _ _ ih => exact hd.ends.append ih _

theorem IsLink.ends {s : NSString} (h : IsLink s es) : Ends s := by
  induction h with
  | element hs => exact hs.ends
  | separator hs _ _ ih => exact hs.ends.append ih _

theorem separator_of_unit {c : UniChar} (h : numberCharacterSet_JP c = true ∨
    innerLinkRangeCharacterSet c = true) :
    innerLinkSeparaterCharacterSet c = false := by
  by_contra hseparator
  have hall : ([0x2c, 0x3001, 0xff0c, 0xff0e, 0x3d, 0xff1d, 0x30fb].all fun c =>
      !(numberCharacterSet_JP c || innerLinkRangeCharacterSet c)) = true := rfl
  have hnone := List.all_eq_true.mp hall c (of_decide_eq_true (Bool.not_eq_false _ ▸ hseparator))
  rw [(Bool.or_eq_true _ _).mpr h] at hnone
  cases hnone

theorem mem_components (hhalf : Halves fullwidthHalfwidth) {s : NSString} (h : IsLink s es)
    (buffer : NSIndexSet) :
    i ∈ (componentsSeparatedByCharacterSequenceFromSet innerLinkSeparaterCharacterSet s).foldl
        (fun buffer elem => scanResLinkElement fullwidthHalfwidth elem buffer) buffer ↔
      i ∈ buffer ∨ ∃ numbers ∈ es, ElementReads numbers i := by
  induction h generalizing buffer with
  | element hs =>
    rw [components_of_absent fun c hc => separator_of_unit (hs.units.2 c hc)]
    simp only [List.foldl_cons, List.foldl_nil, mem_scanResLinkElement hhalf hs,
      List.mem_singleton, exists_eq_left]
  | @separator _ _ _ s t hs hseparators ht ih =>
    have hhead : ∀ c ∈ t.head?, innerLinkSeparaterCharacterSet c = false := by
      intro c hc
      obtain ⟨d, t, rfl, hd⟩ := ht.ends.first
      cases hc
      exact separator_of_unit (Or.inl hd)
    rw [components_append (fun c hc => separator_of_unit (hs.units.2 c hc)) hseparators hhead,
      List.foldl_cons, ih,
      mem_scanResLinkElement hhalf hs, or_assoc]
    simp only [List.mem_cons, exists_eq_or_imp]

theorem plain_of_number {c : UniChar} (h : numberCharacterSet_JP c = true) :
    whitespaceCharacterSet c = false ∧ isWhitespace c = false ∧ isspace c = false := by
  simp only [numberCharacterSet_JP, Bool.or_eq_true, Bool.and_eq_true, decide_eq_true_iff,
    UInt16.le_iff_toNat_le, UInt16.reduceToNat] at h
  have hrange : (0x30 ≤ c.toNat ∧ c.toNat ≤ 0x39) ∨ 0xff10 ≤ c.toNat ∧ c.toNat ≤ 0xff19 := h
  refine ⟨?_, ?_, ?_⟩
  all_goals
    simp only [whitespaceCharacterSet, isWhitespace, isspace, Bool.or_eq_false_iff,
      Bool.and_eq_false_iff, decide_eq_false_iff_not, beq_eq_false_iff_ne, ne_eq,
      UInt16.le_iff_toNat_le, ← UInt16.toNat_inj, UInt16.reduceToNat]
    omega

theorem scanString_append (c : UniChar) (string t : NSString) (hc : isWhitespace c = false) :
    scanString (c :: string) (c :: string ++ t) = some t := by
  have hdrop : (c :: string ++ t).dropWhile isWhitespace = c :: string ++ t :=
    List.dropWhile_cons_of_neg (Bool.eq_false_iff.mp hc)
  rw [scanString, hdrop]
  simp only [List.take_left, List.drop_left, if_true]

theorem stringByDeletingURLScheme_of_ends {s : NSString} (h : Ends s) :
    stringByDeletingURLScheme (CMRAttributeInnerLinkScheme ++
      (ns ":" ++ s)) CMRAttributeInnerLinkScheme = some s := by
  have hscheme :
    scanString CMRAttributeInnerLinkScheme (CMRAttributeInnerLinkScheme ++ (ns ":" ++ s)) =
      some (ns ":" ++ s) := scanString_append (uc 'c') (ns "monar") _ (by decide)
  have hcolon : scanString (ns ":") (ns ":" ++ s) = some s :=
    scanString_append (uc ':') [] s (by decide)
  have hskip : skipCharacters whitespaceCharacterSet s = s := by
    obtain ⟨c, t, rfl, hc⟩ := h.first
    obtain ⟨hskip, hwhite, -⟩ := plain_of_number hc
    rw [skipCharacters, scanCharacters, List.dropWhile_cons_of_neg (Bool.eq_false_iff.mp hwhite),
      if_pos (List.takeWhile_cons_of_neg (Bool.eq_false_iff.mp hskip))]
    rfl
  have hstrip : stringByStripedAtEnd s = s := by
    obtain ⟨t, c, rfl, hc⟩ := h.last
    exact List.rdropWhile_concat_neg _ _ _ (Bool.eq_false_iff.mp (plain_of_number hc).2.2)
  rw [stringByDeletingURLScheme, if_neg (by simp [CMRAttributeInnerLinkScheme, ns]), hscheme]
  simp only [Option.bind_eq_bind, Option.bind_some, hcolon, hskip, hstrip]
  rfl

theorem resultOf_injective {set set' : NSIndexSet}
    (h : (if 0 < set.count then some set else none) = if 0 < set'.count then some set' else none) :
    set = set' := by
  have hempty : ∀ {set : NSIndexSet}, ¬ 0 < set.count → set = .empty := by
    intro set hzero
    apply NSIndexSet.ext_mem
    intro i
    rw [← NSIndexSet.mem_indexes, List.eq_nil_of_length_eq_zero (Nat.eq_zero_of_not_pos hzero)]
    rfl
  split at h
  · split at h
    · exact Option.some.inj h
    · cases h
  · rename_i hzero
    split at h
    · cases h
    · rename_i hzero'
      rw [hempty hzero, hempty hzero']

theorem resolves_iff_reads (hhalf : Halves fullwidthHalfwidth) {s : NSString} (h : IsLink s es) :
    Resolves (isMessageLinkUsingLocalScheme fullwidthHalfwidth
        (some (CMRAttributeInnerLinkScheme ++ (ns ":" ++ s)))) es ↔
      ∀ i, (∃ numbers ∈ es, ElementReads numbers i) ↔ Denotes es i := by
  obtain ⟨buffer, hbuffer⟩ : ∃ buffer, buffer =
      (componentsSeparatedByCharacterSequenceFromSet innerLinkSeparaterCharacterSet s).foldl
        (fun buffer elem => scanResLinkElement fullwidthHalfwidth elem buffer) .empty := ⟨_, rfl⟩
  have hmem : ∀ i, i ∈ buffer ↔ ∃ numbers ∈ es, ElementReads numbers i := by
    intro i
    rw [hbuffer, mem_components hhalf h, or_iff_right NSIndexSet.not_mem_empty]
  have hresult : isMessageLinkUsingLocalScheme fullwidthHalfwidth
      (some (CMRAttributeInnerLinkScheme ++ (ns ":" ++ s))) = if 0 < buffer.count then some buffer
      else none := by
    rw [isMessageLinkUsingLocalScheme]
    simp only [Option.bind_eq_bind, Option.bind_some, stringByDeletingURLScheme_of_ends h.ends,
      ← hbuffer]
  rw [hresult]
  constructor
  · rintro ⟨set, hset, heq⟩ i
    rw [← hmem, ← hset, resultOf_injective heq]
  · intro hall
    exact ⟨buffer, fun i => (hmem i).trans (hall i), rfl⟩

/-- The processor returns what a link denotes if and only if its elements add nothing else to
it: no range in place of three numbers or more, and no `INT_MAX` in place of a larger number. -/
theorem isMessageLinkUsingLocalScheme_resolves_iff (hhalf : Halves fullwidthHalfwidth)
    {s : NSString} (h : IsLink s es) :
    Resolves (isMessageLinkUsingLocalScheme fullwidthHalfwidth
        (some (CMRAttributeInnerLinkScheme ++ (ns ":" ++ s)))) es ↔
      ∀ numbers ∈ es, Harmless es numbers :=
  (resolves_iff_reads hhalf h).trans reads_iff_denotes_iff

/-- The units of the full width that occur in links, and those of the half width for them. -/
def halfwidthUnit (c : UniChar) : UniChar :=
  if 0xff10 ≤ c ∧ c ≤ 0xff19 then c - 0xfee0 else if c = 0x30fc then 0xff70 else c

theorem decimalDigit_eq {c : UniChar} (hlo : 0x30 ≤ c.toNat) (hhi : c.toNat ≤ 0x39) :
    decimalDigit c = some (c.toNat - 0x30) := by
  have hle : uc '0' ≤ c := hlo
  have hdigit : (decide (uc '0' ≤ c) && decide (c ≤ uc '9')) = true := by
    rw [Bool.and_eq_true, decide_eq_true_iff, decide_eq_true_iff]
    exact ⟨hlo, hhi⟩
  rw [decimalDigit, if_pos hdigit, UInt16.toNat_sub_of_le _ _ hle]
  rfl

theorem decimalDigit_halfwidthUnit {c : UniChar} (h : numberCharacterSet_JP c = true) :
    decimalDigit (halfwidthUnit c) = some (digitValue c) := by
  simp only [numberCharacterSet_JP, Bool.or_eq_true, Bool.and_eq_true, decide_eq_true_iff] at h
  obtain ⟨hlo, hhi⟩ | ⟨hlo, hhi⟩ := h
  · have hlo' : 0x30 ≤ c.toNat := hlo
    have hhi' : c.toNat ≤ 0x39 := hhi
    have hnot : ¬ 0xff10 ≤ c := by
      intro hfull
      have hfull' : 0xff10 ≤ c.toNat := hfull
      omega
    have hmark : c ≠ 0x30fc := by
      rintro rfl
      exact absurd hhi' (by decide)
    rw [halfwidthUnit, if_neg fun hfull => hnot hfull.1, if_neg hmark, digitValue, if_neg hnot,
      decimalDigit_eq hlo' hhi', UInt16.toNat_sub_of_le _ _ hlo]
    rfl
  · have hlo' : 0xff10 ≤ c.toNat := hlo
    have hhi' : c.toNat ≤ 0xff19 := hhi
    have hle : 0xfee0 ≤ c := Nat.le_trans (by decide : 0xfee0 ≤ 0xff10) hlo'
    have hunit : (c - 0xfee0).toNat = c.toNat - 0xfee0 := UInt16.toNat_sub_of_le _ _ hle
    rw [halfwidthUnit, if_pos ⟨hlo, hhi⟩, digitValue, if_pos hlo,
      decimalDigit_eq (by omega) (by omega), hunit,
      UInt16.toNat_sub_of_le _ _ hlo, Nat.sub_sub]
    rfl

theorem halves_map : Halves (List.map halfwidthUnit) := by
  refine ⟨halfwidthUnit, fun s _ => rfl, fun c hc => decimalDigit_halfwidthUnit hc, fun c hc => ?_⟩
  exact @of_rangeCharacter (fun c => innerLinkRangeCharacterSet (halfwidthUnit c)) c rfl hc

theorem isNumber_digit {c : UniChar} (h : numberCharacterSet_JP c = true) :
    IsNumber [c] (digitValue c) := by
  have hnumber : IsNumber [c] (numberOf ([c].map digitValue)) :=
    .digits ⟨List.cons_ne_nil _ _, fun d hd => List.mem_singleton.mp hd ▸ h⟩
  rwa [numberOf, List.map_singleton, List.foldl_cons, List.foldl_nil, Nat.zero_mul,
    Nat.zero_add] at hnumber

theorem isElement_cons {c : UniChar} {s : NSString} (h : numberCharacterSet_JP c = true)
    (hs : IsElement s numbers) :
    IsElement (c :: uc '-' :: s) (digitValue c :: numbers) := by
  have hmark : LinkCharacters.IsRun innerLinkRangeCharacterSet [uc '-'] :=
    ⟨List.cons_ne_nil _ _, fun d hd => List.mem_singleton.mp hd ▸ rfl⟩
  exact .mark (isNumber_digit h) hmark hs

theorem isLink_reversed : IsLink (ns "5-3") [[5, 3]] :=
  .element (isElement_cons (by decide) (.number (isNumber_digit (by decide))))

theorem isLink_repeated : IsLink (ns "1-1-5") [[1, 1, 5]] :=
  .element (isElement_cons (by decide) (isElement_cons (by decide)
    (.number (isNumber_digit (by decide)))))

/-- A range of two numbers, the larger one first. -/
theorem resolves_reversed :
    Resolves (isMessageLinkUsingLocalScheme (List.map halfwidthUnit)
      (some (CMRAttributeInnerLinkScheme ++ (ns ":" ++ ns "5-3")))) [[5, 3]] := by
  apply (isMessageLinkUsingLocalScheme_resolves_iff halves_map isLink_reversed).mpr
  intro numbers hmem
  obtain rfl := List.mem_singleton.mp hmem
  have hle : ∀ n ∈ [5, 3], n ≤ INT_MAX := by decide
  exact ⟨fun n hn hlt => absurd (hle n hn) (Nat.not_le_of_lt hlt), fun hpair =>
    absurd ⟨rfl, hle⟩ hpair⟩

/-- Three numbers of which two are equal are taken for a range. -/
theorem not_resolves_repeated :
    IsLink (ns "1-1-5") [[1, 1, 5]] ∧
      ¬ Resolves (isMessageLinkUsingLocalScheme (List.map halfwidthUnit)
        (some (CMRAttributeInnerLinkScheme ++ (ns ":" ++ ns "1-1-5")))) [[1, 1, 5]] := by
  refine ⟨isLink_repeated, fun h => ?_⟩
  have hrange : ReadsRange [1, 1, 5] 1 5 := by
    refine ⟨by decide, fun m => ?_⟩
    simp only [Reads, INT_MAX, List.mem_cons, List.not_mem_nil, or_false, exists_eq_or_imp,
      exists_eq_left]
    omega
  have hreads : ∃ numbers ∈ [[1, 1, 5]], ElementReads numbers 1 :=
    ⟨_, List.mem_singleton_self _, Or.inr ⟨1, 5, hrange, by decide, by decide⟩⟩
  obtain ⟨numbers, hmem, hdenotes⟩ :=
    ((resolves_iff_reads halves_map isLink_repeated).mp h 1).mp hreads
  obtain rfl := List.mem_singleton.mp hmem
  obtain ⟨hlisted, -⟩ | ⟨a, b, hpair, -⟩ := hdenotes
  · exact absurd hlisted (by decide)
  · cases hpair

end BathyScaphe.Thread.CMRThreadLinkProcessor
