import BathyScaphe.Host.ReadURL

/-!
# Links to messages by URL

The URL of a thread is a link to the messages with the numbers in it when it names the
thread that is viewed. The range of the indexes is computed with unsigned numbers.
-/

namespace BathyScaphe.Thread

open NSString Dat Host CMRThreadLinkProcessor

-- The source

structure CMRThreadViewer where
  bbsIdentifier : NSString
  datIdentifier : NSString

def moveRange (p : ReadParameters) : UInt32 × UInt32 :=
  (p.startIndex - 1, (p.endIndex - p.startIndex) + 1)

def indexSetWithIndexesInRange (range : UInt32 × UInt32) : Except NSException NSIndexSet :=
  if range.2 = 0 ∨ range.1.toNat + range.2.toNat ≤ NSNotFound.toNat then
    .ok (NSIndexSet.empty.addIndexesInRange ⟨range.1.toNat, range.2.toNat⟩)
  else .error .range

def CMRThreadViewer.isStandardMessageLink (viewer : CMRThreadViewer) (link : NSURL) :
    Except NSException (Option NSIndexSet) :=
  match (hostHandlerForURL link).bind fun handler => handler.parseParametersWithReadURL link with
  | none => .ok none
  | some p =>
    if NSNotFound ≠ p.startIndex then
      if viewer.bbsIdentifier = p.bbs ∧ viewer.datIdentifier = p.key then
        (indexSetWithIndexesInRange (moveRange p)).map some else .ok none
    else .ok none

-- The numbers of a URL

/-- The number at the end of a path, and the second one behind a hyphen. What is in front of
the number has no digits. -/
inductive Spells : NSString → Nat → Option Nat → Prop
  | number : (∀ c ∈ before, decimalDigitCharacterSet c = false) → Xml.decimal d = some a →
      (∀ c ∈ after.head?, (Xml.decimalDigit c).isSome = false ∧ isWhitespace c = false ∧
        c ≠ uc '-') →
      Spells (before ++ (d ++ after)) a none
  | openEnd : (∀ c ∈ before, decimalDigitCharacterSet c = false) → Xml.decimal d = some a →
      (∀ c ∈ after.head?, (Xml.decimalDigit c).isSome = false ∧ isWhitespace c = false ∧
        c ≠ uc '-' ∧ c ≠ uc '+') →
      Spells (before ++ (d ++ uc '-' :: after)) a none
  | range : (∀ c ∈ before, decimalDigitCharacterSet c = false) → Xml.decimal d = some a →
      Xml.decimal e = some b →
      (∀ c ∈ after.head?, (Xml.decimalDigit c).isSome = false) →
      Spells (before ++ (d ++ uc '-' :: (e ++ after))) a (some b)

/-- The start and the end that a URL gives in its path or in its query. -/
inductive Gives (properties : ReadCGIProperties) (link : NSURL) : Nat → Option Nat → Prop
  | path : link.query = none →
      s ∈ (link.pathComponents.drop (properties.directoryIndex + 4)).getLast? →
      Spells s a b → Gives properties link a b
  | query : link.queryDictionary = some params →
      objectForKey params properties.paramStart = some s →
      Xml.decimal s = some a → (objectForKey params properties.paramEnd).map Xml.decimal =
        b.map some →
      Gives properties link a b

structure Names (viewer : CMRThreadViewer) (handler : CMRHostHandler) (link : NSURL)
    (p : ReadParameters) : Prop where
  handles : hostHandlerForURL link = some handler
  parameters : handler.parseParametersWithReadURL link = some p
  bbs : p.bbs = viewer.bbsIdentifier
  key : p.key = viewer.datIdentifier

/-- Every difference and sum of the range is the one of the integers. -/
structure NotWrapped (p : ReadParameters) : Prop where
  location : ((moveRange p).1.toNat : Int) = p.startIndex.toNat - 1
  difference : ((p.endIndex - p.startIndex).toNat : Int) = p.endIndex.toNat - p.startIndex.toNat
  length : (moveRange p).2.toNat = (p.endIndex - p.startIndex).toNat + 1

/-- The link leads to the messages from the one number to the other. -/
structure Agrees (viewer : CMRThreadViewer) (link : NSURL) (p : ReadParameters)
    (a : Nat) (b : Option Nat) : Prop where
  both : ∀ n ∈ b, 0 < a → 0 < n → ∃ set, viewer.isStandardMessageLink link = .ok (some set) ∧
    ∀ i, i ∈ set ↔ min a n ≤ i + 1 ∧ i + 1 ≤ max a n
  start : b = none → ∃ set, viewer.isStandardMessageLink link = .ok (some set) ∧
    ∃ i ∈ set, i + 1 = a
  range : p.startIndex ≠ NSNotFound → NotWrapped p

/-- The numbers are in order and below the largest `int`; or the start is not below it, and
the end is zero. -/
def InOrder (a : Nat) (b : Option Nat) : Prop :=
  (0 < a ∧ a < INT_MAX ∧ ∀ n ∈ b, a ≤ n ∧ n ≤ INT_MAX) ∨ INT_MAX ≤ a ∧ b = some 0

-- The indexes that are read

section
variable {a : Nat} {b : Option Nat} {s d t before : NSString}

theorem numberOf_of_decimal (h : Xml.decimal d = some a) :
    numberOf (d.filterMap Xml.decimalDigit) = a ∧ (∀ c ∈ d, (Xml.decimalDigit c).isSome = true) ∧
      d ≠ [] := by
  obtain ⟨hscan, hall, hne⟩ := Xml.numeral_eq_some h
  refine ⟨?_, hall, hne⟩
  rw [Xml.scanDigits, List.takeWhile_eq_self_iff.mpr hall] at hscan
  cases hdigits : d.filterMap Xml.decimalDigit with
  | nil =>
    rw [hdigits] at hscan
    cases hscan
  | cons n ds =>
    rw [hdigits] at hscan
    exact Option.some.inj hscan

theorem scanInt_decimal (h : Xml.decimal d = some a)
    (ht : ∀ c ∈ t.head?, (Xml.decimalDigit c).isSome = false) :
    scanInt isWhitespace (d ++ t) = some (((min a INT_MAX : Nat) : Int), t) := by
  obtain ⟨hnumber, hall, hne⟩ := numberOf_of_decimal h
  have hscan := @scanInt_number isWhitespace [] d t
    (fun c hc => (plain_of_decimalDigit hc).2.1) nofun hne hall ht
  rwa [hnumber] at hscan

theorem scanInt_of_not_digit (h : ∀ c ∈ s.head?, (Xml.decimalDigit c).isSome = false ∧
    isWhitespace c = false ∧
    c ≠ uc '-' ∧ c ≠ uc '+') : scanInt isWhitespace s = none := by
  rw [scanInt]
  cases s with
  | nil => rfl
  | cons c s =>
    obtain ⟨hdigit, hwhite, hminus, hplus⟩ := h c rfl
    have hsign : ¬ (c = uc '-' ∨ c = uc '+') := not_or.mpr ⟨hminus, hplus⟩
    rw [List.dropWhile_cons_of_neg (Bool.eq_false_iff.mp hwhite),
      List.dropWhile_cons_of_neg (Bool.eq_false_iff.mp hwhite)]
    simp only [if_neg hsign, Xml.scanDigits, List.takeWhile_cons, hdigit, Bool.false_eq_true,
      if_false, List.filterMap_nil, Option.map_none]

theorem tolower_eq_hyphen {c : UniChar} (h : Composer.tolower c = uc '-') : c = uc '-' := by
  rcases Composer.tolower_cases c with hsame | ⟨hupper, -, hsum⟩
  · exact hsame.symm.trans h
  · have hhyphen : (uc '-').toNat = 45 := rfl
    rw [h, hhyphen] at hsum
    omega

theorem scanString_hyphen (t : NSString) : scanString (ns "-") (uc '-' :: t) = some t := by
  rw [scanString, List.dropWhile_cons_of_neg (by decide)]
  exact if_pos rfl

theorem scanString_of_not_hyphen (h : ∀ c ∈ s.head?, isWhitespace c = false ∧ c ≠ uc '-') :
    scanString (ns "-") s = none := by
  rw [scanString]
  cases s with
  | nil => rfl
  | cons c s =>
    obtain ⟨hwhite, hne⟩ := h c rfl
    rw [List.dropWhile_cons_of_neg (Bool.eq_false_iff.mp hwhite)]
    refine if_neg fun hlower => hne (tolower_eq_hyphen ?_)
    exact (List.cons.inj hlower).1

theorem decimalDigitCharacterSet_of_digit {c : UniChar} (h : (Xml.decimalDigit c).isSome = true) :
    decimalDigitCharacterSet c = true := by
  have hrange : uc '0' ≤ c ∧ c ≤ uc '9' := by
    by_contra hout
    rw [Xml.decimalDigit, if_neg (by simpa using hout)] at h
    cases h
  have hdigit : c - 0x0030 < 10 := by
    have hhigh : c.toNat ≤ 57 := hrange.2
    rw [UInt16.lt_iff_toNat_lt, UInt16.toNat_sub_of_le c 0x0030 hrange.1]
    exact Nat.lt_succ_of_le (Nat.sub_le_sub_right hhigh 48)
  refine List.any_eq_true.mpr ⟨0x0030, List.mem_cons_self, ?_⟩
  rw [Bool.and_eq_true]
  exact ⟨decide_eq_true hrange.1, decide_eq_true hdigit⟩

theorem dropWhile_before (hbefore : ∀ c ∈ before, decimalDigitCharacterSet c = false)
    (h : Xml.decimal d = some a)
    (t : NSString) : (before ++ (d ++ t)).dropWhile (fun c => !decimalDigitCharacterSet c) =
      d ++ t := by
  obtain ⟨-, hall, hne⟩ := numberOf_of_decimal h
  obtain ⟨c, d, rfl⟩ := List.exists_cons_of_ne_nil hne
  have hc := decimalDigitCharacterSet_of_digit (hall c List.mem_cons_self)
  rw [List.dropWhile_append_of_pos fun c hmem => by rw [hbefore c hmem]; rfl, List.cons_append,
    List.dropWhile_cons_of_neg (by rw [hc]; exact Bool.false_ne_true)]

/-- The numbers that are spelled are read, none above the largest `int`. -/
theorem Spells.scanIndexString (h : Spells s a b) :
    Host.scanIndexString s =
      (UInt32.ofNat (min a INT_MAX), UInt32.ofNat (min (b.getD a) INT_MAX)) := by
  rw [Host.scanIndexString]
  cases h with
  | number hbefore hd hafter =>
    have hstring := scanString_of_not_hyphen fun c hc => (hafter c hc).2
    rw [dropWhile_before hbefore hd, scanInt_decimal hd fun c hc => (hafter c hc).1]
    simp only [hstring, Option.bind_none, Option.map_none, Option.getD_none, unsignedOfInt_natCast]
  | openEnd hbefore hd hafter =>
    rw [dropWhile_before hbefore hd,
      scanInt_decimal hd (by rintro c hc; obtain rfl := Option.some.inj hc; rfl)]
    simp only [scanString_hyphen, Option.bind_some, scanInt_of_not_digit hafter, Option.map_none,
      Option.getD_none, unsignedOfInt_natCast]
  | range hbefore hd he hafter =>
    rw [dropWhile_before hbefore hd,
      scanInt_decimal hd (by rintro c hc; obtain rfl := Option.some.inj hc; rfl)]
    simp only [scanString_hyphen, Option.bind_some, scanInt_decimal he hafter, Option.map_some,
      Option.getD_some, unsignedOfInt_natCast]

theorem intValue_decimal (h : Xml.decimal s = some a) :
    intValue s = ((min a INT_MAX : Nat) : Int) := by
  rw [intValue, Xml.scanInt_of_decimal h]
  rfl

theorem indexOfParameter_decimal (h : Xml.decimal s = some a) :
    indexOfParameter (some s) = UInt32.ofNat (min a INT_MAX) := by
  rw [indexOfParameter, Option.map_some, Option.getD_some, intValue_decimal h,
    unsignedOfInt_natCast]

end

section
variable {a : Nat} {b : Option Nat} {link : NSURL} {p : ReadParameters} {handler : CMRHostHandler}
variable {viewer : CMRThreadViewer}

/-- What is read for the numbers that are given; an end that is not given is the start or
`NSNotFound`. -/
structure IndexesOf (p : ReadParameters) (a : Nat) (b : Option Nat) : Prop where
  start : p.startIndex = UInt32.ofNat (min a INT_MAX)
  last : ∀ n ∈ b, p.endIndex = UInt32.ofNat (min n INT_MAX)
  absent : b = none → p.endIndex = p.startIndex ∨ p.endIndex = NSNotFound

theorem parsePath_getLast {rest : List NSString} {s : NSString} (hrest : s ∈ (rest.drop 2).getLast?)
    (hparse : parsePath rest = some p) :
    p.startIndex = (scanIndexString s).1 ∧ p.endIndex = (scanIndexString s).2 := by
  match rest with
  | [] | [_] | [_, _] => cases hrest
  | bbs :: key :: index :: rest =>
    obtain rfl := Option.some.inj hparse
    have hlast : (index :: rest).getLast (List.cons_ne_nil index rest) = s := by
      rw [List.drop_succ_cons, List.drop_succ_cons, List.drop_zero,
        List.getLast?_eq_getLast_of_ne_nil (List.cons_ne_nil index rest)] at hrest
      exact Option.some.inj hrest
    rw [hlast]
    exact ⟨rfl, rfl⟩

theorem Gives.indexesOf (hgives : Gives handler.readCGIProperties link a b)
    (hparse : handler.parseParametersWithReadURL link = some p) : IndexesOf p a b := by
  obtain ⟨-, name, rest, hcomponents, -, hparse⟩ := parseParametersWithReadURL_eq_some.mp hparse
  cases hgives with
  | @path s _ _ hquery hlast hspells =>
    have hrest : s ∈ (rest.drop 2).getLast? := by
      rwa [← List.drop_drop, hcomponents] at hlast
    rw [NSURL.queryDictionary, hquery] at hparse
    obtain ⟨hstart, hend⟩ := parsePath_getLast hrest hparse
    rw [hspells.scanIndexString] at hstart hend
    refine ⟨hstart, fun n hn => ?_, fun hnone => .inl ?_⟩
    · rw [hend, Option.mem_def.mp hn, Option.getD_some]
    · rw [hend, hnone, Option.getD_none, hstart]
  | @query params s _ _ hquery hstart hdecimal hend =>
    rw [hquery, Option.elim_some] at hparse
    obtain ⟨-, -, hstartIndex, hendIndex, -⟩ := parseQuery_eq_some.mp hparse
    refine ⟨?_, fun n hn => ?_, fun hnone => .inr ?_⟩
    · rw [hstartIndex, hstart, indexOfParameter_decimal hdecimal]
    · rw [Option.mem_def.mp hn] at hend
      obtain ⟨e, he, hvalue⟩ := Option.map_eq_some_iff.mp hend
      rw [hendIndex, he, indexOfParameter_decimal hvalue]
    · rw [hnone, Option.map_none, Option.map_eq_none_iff] at hend
      rw [hendIndex, hend]
      rfl

-- The range

theorem notWrapped_iff : NotWrapped p ↔ 1 ≤ p.startIndex.toNat ∧ p.startIndex.toNat ≤
    p.endIndex.toNat := by
  have hstart := p.startIndex.toNat_lt
  have hend := p.endIndex.toNat_lt
  constructor
  · rintro ⟨hlocation, hdifference, -⟩
    have hnonneg := Int.natCast_nonneg (p.endIndex - p.startIndex).toNat
    have hnonneg' := Int.natCast_nonneg (moveRange p).1.toNat
    omega
  · rintro ⟨hpos, hle⟩
    have hone : (1 : UInt32) ≤ p.startIndex := UInt32.le_iff_toNat_le.mpr hpos
    have hlocation := UInt32.toNat_sub_of_le _ _ hone
    have hdifference := UInt32.toNat_sub_of_le _ _ (UInt32.le_iff_toNat_le.mpr hle)
    have hlength : (moveRange p).2.toNat = ((p.endIndex - p.startIndex).toNat + 1) % 2 ^ 32 :=
      UInt32.toNat_add _ _
    rw [show (1 : UInt32).toNat = 1 from rfl] at hlocation
    refine ⟨?_, by omega, ?_⟩
    · rw [moveRange, hlocation]
      omega
    · rw [hlength]
      exact Nat.mod_eq_of_lt (by omega)

theorem NotWrapped.indexSet (h : NotWrapped p) (hend : p.endIndex.toNat ≤ INT_MAX) :
    ∃ set, indexSetWithIndexesInRange (moveRange p) = .ok set ∧
      ∀ i, i ∈ set ↔ p.startIndex.toNat ≤ i + 1 ∧ i + 1 ≤ p.endIndex.toNat := by
  obtain ⟨hpos, hle⟩ := notWrapped_iff.mp h
  have hlocation := h.location
  have hdifference := h.difference
  have hlength := h.length
  have hinside : (moveRange p).1.toNat + (moveRange p).2.toNat ≤ NSNotFound.toNat := by
    rw [show NSNotFound.toNat = INT_MAX from rfl]
    omega
  refine ⟨_, if_pos (.inr hinside), fun i => ?_⟩
  rw [NSIndexSet.mem_addIndexesInRange, NSRange.max, or_iff_left NSIndexSet.not_mem_empty]
  simp only
  omega

theorem Names.isStandardMessageLink (h : Names viewer handler link p) :
    viewer.isStandardMessageLink link =
      if NSNotFound ≠ p.startIndex then (indexSetWithIndexesInRange (moveRange p)).map some
      else .ok none := by
  rw [CMRThreadViewer.isStandardMessageLink, h.handles, Option.bind_some, h.parameters,
    ← h.bbs, ← h.key]
  simp only [and_self, if_true]

theorem IndexesOf.toNat_start (h : IndexesOf p a b) : p.startIndex.toNat = min a INT_MAX := by
  rw [h.start]
  exact UInt32.toNat_ofNat_of_lt' (Nat.lt_of_le_of_lt (Nat.min_le_right a INT_MAX) (by decide))

theorem IndexesOf.toNat_last {n : Nat} (h : IndexesOf p a b) (hn : n ∈ b) :
    p.endIndex.toNat = min n INT_MAX := by
  rw [h.last n hn]
  exact UInt32.toNat_ofNat_of_lt' (Nat.lt_of_le_of_lt (Nat.min_le_right n INT_MAX) (by decide))

theorem IndexesOf.le_last (h : IndexesOf p a none) :
    min a INT_MAX ≤ p.endIndex.toNat ∧ p.endIndex.toNat ≤ INT_MAX := by
  obtain hsame | hnone := h.absent rfl
  · rw [hsame, h.toNat_start]
    exact ⟨Nat.le_refl _, Nat.min_le_right a INT_MAX⟩
  · rw [hnone]
    exact ⟨Nat.min_le_right a INT_MAX, Nat.le_refl _⟩

theorem IndexesOf.start_eq_iff (h : IndexesOf p a b) : p.startIndex = NSNotFound ↔ INT_MAX ≤ a := by
  rw [← UInt32.toNat_inj, h.toNat_start, show NSNotFound.toNat = INT_MAX from rfl]
  omega

/-- A URL with the numbers of messages of the thread that is viewed leads to these messages if
and only if the numbers are in order. -/
theorem agrees_iff (hnames : Names viewer handler link p)
    (hgives : Gives handler.readCGIProperties link a b) :
    Agrees viewer link p a b ↔ InOrder a b := by
  have hindexes := hgives.indexesOf hnames.parameters
  have hstart := hindexes.toNat_start
  have hlink := hnames.isStandardMessageLink
  by_cases hlarge : INT_MAX ≤ a
  · have hnotFound := hindexes.start_eq_iff.mpr hlarge
    rw [hnotFound, if_neg (not_not.mpr rfl)] at hlink
    constructor
    · rintro ⟨hboth, hsingle, -⟩
      refine .inr ⟨hlarge, ?_⟩
      cases b with
      | none =>
        obtain ⟨set, hset, -⟩ := hsingle rfl
        rw [hlink] at hset
        cases hset
      | some n =>
        by_contra hne
        obtain ⟨set, hset, -⟩ := hboth n rfl (Nat.lt_of_lt_of_le (by decide) hlarge)
          (Nat.pos_of_ne_zero fun hzero => hne (congrArg some hzero))
        rw [hlink] at hset
        cases hset
    · intro h
      obtain ⟨-, hlt, -⟩ | ⟨-, rfl⟩ := h
      · exact absurd hlarge (Nat.not_le.mpr hlt)
      · exact ⟨fun n hn _ hpos => absurd (Option.some.inj hn) (Nat.ne_of_lt hpos), nofun,
          fun hne => absurd hnotFound hne⟩
  · have hfound : p.startIndex ≠ NSNotFound := fun heq => hlarge (hindexes.start_eq_iff.mp heq)
    rw [if_pos hfound.symm] at hlink
    rw [Nat.min_eq_left (Nat.le_of_not_le hlarge)] at hstart
    constructor
    · rintro ⟨hboth, -, hrange⟩
      obtain ⟨hpos, hle⟩ := notWrapped_iff.mp (hrange hfound)
      rw [hstart] at hpos hle
      refine .inl ⟨hpos, Nat.lt_of_not_le hlarge, fun n hn => ?_⟩
      have hlast := hindexes.toNat_last hn
      have hend : p.endIndex.toNat ≤ INT_MAX := hlast ▸ Nat.min_le_right n INT_MAX
      refine ⟨by omega, ?_⟩
      obtain ⟨set, hset, hmem⟩ := hboth n hn hpos (by omega)
      obtain ⟨set', hset', hmem'⟩ := (hrange hfound).indexSet hend
      rw [hlink, hset'] at hset
      obtain rfl := Option.some.inj (Except.ok.inj hset)
      -- the last index that is linked is the one of the end that was read
      have hlinked := ((hmem (n - 1)).mpr (by omega))
      have hread := ((hmem' (n - 1)).mp hlinked).2
      omega
    · intro h
      obtain ⟨hpos, -, hin⟩ | ⟨hle, -⟩ := h
      · have hlast : a ≤ p.endIndex.toNat ∧ p.endIndex.toNat ≤ INT_MAX := by
          cases b with
          | none =>
            have hle := hindexes.le_last
            rwa [Nat.min_eq_left (Nat.le_of_not_le hlarge)] at hle
          | some n =>
            have hn := hin n rfl
            rw [hindexes.toNat_last rfl]
            omega
        have hrange : NotWrapped p := notWrapped_iff.mpr (by omega)
        obtain ⟨set, hset, hmem⟩ := hrange.indexSet hlast.2
        rw [hset] at hlink
        refine ⟨fun n hn _ _ => ⟨set, hlink, fun i => ?_⟩, fun _ =>
          ⟨set, hlink, a - 1, ?_, ?_⟩, fun _ => hrange⟩
        · have hle := hin n hn
          have hn := hindexes.toNat_last hn
          rw [hmem, hstart]
          omega
        · rw [hmem]
          omega
        · exact Nat.sub_add_cancel hpos
      · exact absurd hle hlarge

end

def threadURL (index : NSString) : NSURL where
  scheme := ns "http"
  host := some (ns "pc.2ch.net")
  path := [ns "test", ns "read.cgi", ns "mac", ns "1200000000", index]
  directory := false
  query := none

theorem agrees_closed : Agrees ⟨ns "mac", ns "1200000000"⟩ (threadURL (ns "10-20"))
    ⟨ns "mac", ns "1200000000", 10, 20, false⟩ 10 (some 20) := by
  have hspells : Spells (ns "10-20") 10 (some 20) :=
    @Spells.range [] (ns "10") 10 (ns "20") 20 [] nofun rfl rfl nofun
  have hnames : Names ⟨ns "mac", ns "1200000000"⟩ .channel2 (threadURL (ns "10-20"))
      ⟨ns "mac", ns "1200000000", 10, 20, false⟩ := ⟨by decide, by decide, rfl, rfl⟩
  exact (agrees_iff hnames (.path rfl rfl hspells)).mpr (.inl ⟨by decide, by decide, fun n hn => by
    obtain rfl := Option.some.inj hn
    decide⟩)

/-- The difference of numbers that are not in order is wrapped around. -/
theorem not_agrees_reversed :
    Names ⟨ns "mac", ns "1200000000"⟩ .channel2 (threadURL (ns "20-10"))
        ⟨ns "mac", ns "1200000000", 20, 10, false⟩ ∧
      Gives CMRHostHandler.channel2.readCGIProperties (threadURL (ns "20-10")) 20 (some 10) ∧
      ¬ Agrees ⟨ns "mac", ns "1200000000"⟩ (threadURL (ns "20-10"))
        ⟨ns "mac", ns "1200000000", 20, 10, false⟩ 20
        (some 10) := by
  have hspells : Spells (ns "20-10") 20 (some 10) :=
    @Spells.range [] (ns "20") 20 (ns "10") 10 [] nofun rfl rfl nofun
  refine ⟨⟨by decide, by decide, rfl, rfl⟩, .path rfl rfl hspells, fun h => ?_⟩
  have hle := (notWrapped_iff.mp (h.range (by decide))).2
  exact absurd hle (by decide)

end BathyScaphe.Thread
