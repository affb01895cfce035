import BathyScaphe.Foundation.Scanner

/-!
# Inner link anchors

From each prefix character the scan reads the prefix, white space and the numbers with the
marks between them, and goes back behind the last number. Where there is no number it goes
on behind the prefix and the white space.
-/

namespace BathyScaphe.Composer

open NSString NSScanner

def CMRAttributeInnerLinkScheme : NSString := ns "cmonar"

structure LinkCharacters where
  innerLinkPrefixCharacterSet : UniChar → Bool
  innerLinkRangeCharacterSet : UniChar → Bool
  innerLinkSeparaterCharacterSet : UniChar → Bool
  numberCharacterSet_JP : UniChar → Bool
  whitespaceCharacterSet : UniChar → Bool

structure Link where
  range : NSRange
  value : NSString
  deriving DecidableEq

/-- A text with the links that were set, in the order in which they were. -/
structure LinkedString where
  string : NSString
  links : List Link
  links_inside : ∀ link ∈ links, link.range.max ≤ string.length

namespace LinkedString

def initWithString (s : NSString) : LinkedString := ⟨s, [], by simp⟩

/-- A range that is not inside the text raises an exception. -/
def addAttribute (link : Link) (m : LinkedString) : Option LinkedString :=
  if h : link.range.max ≤ m.string.length then
    some { m with
        links := m.links ++ [link]
        links_inside := by
          intro link' hlink
          obtain hlink | hlink := List.mem_append.mp hlink
          · exact m.links_inside link' hlink
          · rwa [List.mem_singleton.mp hlink] }
  else none

end LinkedString

/-- A substring that is not inside the text raises an exception. -/
def substringInside (s : NSString) (range : NSRange) : Option NSString :=
  if range.max ≤ s.length then some (s.substringWithRange range) else none

namespace LinkCharacters

variable (sets : LinkCharacters)

def skipWhitespace (scanner : NSScanner) : NSScanner :=
  (scanner.scanCharactersFromSet sets.whitespaceCharacterSet).2

theorem skipWhitespace_reads (a : NSScanner) :
    a.Reads (a.rest.takeWhile sets.whitespaceCharacterSet) (sets.skipWhitespace a) :=
  reads_scanCharactersFromSet _ a

/-- The loop of the scan; `scanLocation` is the location behind the last number. -/
def scanNumbers (scanner : NSScanner) (scanLocation : Option Nat) :
    Option (Option Nat × NSScanner) :=
  if _hnumber : (scanner.scanCharactersFromSet sets.numberCharacterSet_JP).1 = true then
    let number := (scanner.scanCharactersFromSet sets.numberCharacterSet_JP).2
    let skipped := sets.skipWhitespace number
    if _hend : skipped.isAtEnd = true then some (some number.scanLocation, skipped)
    else
      match skipped.string[skipped.scanLocation]? with
      | none => none
      | some c =>
        if !sets.innerLinkRangeCharacterSet c && !sets.innerLinkSeparaterCharacterSet c then
          some (some number.scanLocation, skipped)
        else
          match _hnext : skipped.setScanLocation (skipped.scanLocation + 1) with
          | none => none
          | some next => scanNumbers (sets.skipWhitespace next) (some number.scanLocation)
  else some (scanLocation, scanner)
termination_by scanner.rest.length
decreasing_by
  obtain ⟨c, b, -, hb, hmark⟩ := exists_setScanLocation (Bool.not_eq_true _ ▸ _hend)
  obtain rfl : b = next := Option.some.inj (hb.symm.trans _hnext)
  calc (sets.skipWhitespace b).rest.length
      ≤ b.rest.length := (sets.skipWhitespace_reads b).length_rest_le
    _ ≤ skipped.rest.length := hmark.length_rest_le
    _ ≤ number.rest.length := (sets.skipWhitespace_reads number).length_rest_le
    _ < scanner.rest.length := length_rest_scanCharactersFromSet _hnumber

/-- The scan of one link; the prefix is at the location of the range. -/
def makeResLinkAnchorStartingRange (linkRange : NSRange) (startCharacters : UniChar → Bool)
    (scanner : NSScanner) (mAttrStr : LinkedString) : Option (NSScanner × LinkedString) := do
  let start ← scanner.setScanLocation linkRange.location
  let specified := sets.skipWhitespace (start.scanCharactersFromSet startCharacters).2
  let (scanLocation, stopped) ← sets.scanNumbers specified none
  match scanLocation with
  | none => return (stopped, mAttrStr)
  | some location =>
    let read ← stopped.setScanLocation location
    let spec ← substringInside read.string ⟨specified.scanLocation,
      read.scanLocation - specified.scanLocation⟩
    let mAttrStr ← mAttrStr.addAttribute
      ⟨⟨linkRange.location, read.scanLocation - linkRange.location⟩,
        CMRAttributeInnerLinkScheme ++ ns ":" ++ spec⟩
    return (read, mAttrStr)

-- What is read

def IsRun (set : UniChar → Bool) (t : NSString) : Prop := t ≠ [] ∧ ∀ c ∈ t, set c = true

def IsWhite (t : NSString) : Prop := ∀ c ∈ t, sets.whitespaceCharacterSet c = true

/-- A range mark or separator with the white space around it. -/
inductive IsMark : NSString → Prop
  | mark : sets.IsWhite before → sets.innerLinkRangeCharacterSet c ∨
      sets.innerLinkSeparaterCharacterSet c →
      sets.IsWhite after → IsMark (before ++ c :: after)

inductive IsNumbers : NSString → Prop
  | number : IsRun sets.numberCharacterSet_JP number → IsNumbers number
  | mark : IsNumbers numbers → sets.IsMark mark → IsRun sets.numberCharacterSet_JP number →
      IsNumbers (numbers ++ mark ++ number)

/-- A stretch that is linked: the prefix, white space and the numbers. -/
inductive IsAnchor (startCharacters : UniChar → Bool) (numbers : NSString) : NSString → Prop
  | anchor : IsRun startCharacters start → sets.IsWhite white → sets.IsNumbers numbers →
      IsAnchor startCharacters numbers (start ++ (white ++ numbers))

variable {sets} {start scanner : NSScanner} {t : NSString} {scanLocation : Option Nat}

/-- What is read when the loop comes round: nothing, or numbers and a mark. -/
def IsAhead (sets : LinkCharacters) (start : NSScanner) (t : NSString) : Option Nat → Prop
  | none => t = []
  | some location => ∃ numbers mark, sets.IsNumbers numbers ∧ sets.IsMark mark ∧
      t = numbers ++ mark ∧
      location = start.scanLocation + numbers.length

/-- What the loop comes to: nothing is read, or numbers are read from the start. -/
def IsScanned (sets : LinkCharacters) (start stopped : NSScanner) : Option Nat → Prop
  | none => stopped = start
  | some location => ∃ numbers, sets.IsNumbers numbers ∧ numbers <+: start.rest ∧
      location = start.scanLocation + numbers.length

theorem isRun_of_scan {set : UniChar → Bool} (h : (scanner.scanCharactersFromSet set).1 = true) :
    IsRun set (scanner.rest.takeWhile set) :=
  ⟨scanCharactersFromSet_fst.mp h, scanCharactersFromSet_all set scanner⟩

theorem IsAhead.numbers (h : IsAhead sets start t scanLocation) (hread : start.Reads t scanner)
    (hnumber : (scanner.scanCharactersFromSet sets.numberCharacterSet_JP).1 = true) :
    ∃ numbers, sets.IsNumbers numbers ∧
      start.Reads numbers (scanner.scanCharactersFromSet sets.numberCharacterSet_JP).2 := by
  refine ⟨_, ?_, hread.trans (reads_scanCharactersFromSet _ scanner)⟩
  cases scanLocation with
  | none =>
    obtain rfl : t = [] := h
    exact .number (isRun_of_scan hnumber)
  | some location =>
    obtain ⟨numbers, mark, hnumbers, hmark, rfl, -⟩ := h
    exact .mark hnumbers hmark (isRun_of_scan hnumber)

theorem IsAhead.scanned (h : IsAhead sets start t scanLocation) (hread : start.Reads t scanner) :
    IsScanned sets start scanner scanLocation := by
  cases scanLocation with
  | none =>
    obtain rfl : t = [] := h
    have hlocation := hread.scanLocation_eq
    have hstring := hread.string_eq
    cases start
    cases scanner
    simp_all [IsScanned]
  | some location =>
    obtain ⟨numbers, mark, hnumbers, -, rfl, hlocation⟩ := h
    exact ⟨numbers, hnumbers, (List.prefix_append _ _).trans hread.starts, hlocation⟩

theorem scanNumbers_spec (hahead : IsAhead sets start t scanLocation)
    (hread : start.Reads t scanner) :
    ∃ location stopped, sets.scanNumbers scanner scanLocation = some (location, stopped) ∧
      stopped.string = start.string ∧ IsScanned sets start stopped location := by
  fun_induction sets.scanNumbers scanner scanLocation generalizing t with
  | case1 scanner scanLocation hnumber number skipped =>
    obtain ⟨numbers, hnumbers, hread⟩ := hahead.numbers hread hnumber
    exact ⟨_, _, rfl, hread.string_eq, numbers, hnumbers, hread.starts, hread.scanLocation_eq⟩
  | case2 scanner scanLocation hnumber number skipped hend =>
    rename_i hnone
    obtain ⟨c, b, hc, -, -⟩ := exists_setScanLocation (Bool.not_eq_true _ ▸ hend)
    rw [hc] at hnone
    cases hnone
  | case3 scanner scanLocation hnumber number skipped hend c hc =>
    obtain ⟨numbers, hnumbers, hread⟩ := hahead.numbers hread hnumber
    exact ⟨_, _, rfl, hread.string_eq, numbers, hnumbers, hread.starts, hread.scanLocation_eq⟩
  | case4 scanner scanLocation hnumber number skipped hend c hc hmark =>
    rename_i hnone
    obtain ⟨_, b, -, hb, -⟩ := exists_setScanLocation (Bool.not_eq_true _ ▸ hend)
    rw [hb] at hnone
    cases hnone
  | case5 scanner scanLocation hnumber number skipped hend c hc hmark next hnext =>
    rename_i ih
    obtain ⟨numbers, hnumbers, hread⟩ := hahead.numbers hread hnumber
    obtain ⟨c', b, hc', hb, hstep⟩ := exists_setScanLocation (Bool.not_eq_true _ ▸ hend)
    obtain rfl : c' = c := Option.some.inj (hc'.symm.trans hc)
    obtain rfl : b = next := Option.some.inj (hb.symm.trans hnext)
    have hgap := ((sets.skipWhitespace_reads _).trans hstep).trans (sets.skipWhitespace_reads b)
    rw [List.append_assoc] at hgap
    refine ih ⟨numbers, _, hnumbers, .mark (scanCharactersFromSet_all _ _) ?_
      (scanCharactersFromSet_all _ _), rfl,
      hread.scanLocation_eq⟩ (hread.trans hgap)
    rw [Bool.and_eq_true, Bool.not_eq_true', Bool.not_eq_true', not_and_or, Bool.not_eq_false,
      Bool.not_eq_false] at hmark
    exact hmark
  | case6 scanner scanLocation hnumber =>
    exact ⟨_, _, rfl, hread.string_eq, hahead.scanned hread⟩

theorem substringInside_of_reads {a b : NSScanner} (read : a.Reads t b) :
    substringInside b.string ⟨a.scanLocation, b.scanLocation - a.scanLocation⟩ = some t := by
  have hlength : b.scanLocation - a.scanLocation = t.length := by
    rw [read.scanLocation_eq, Nat.add_sub_cancel_left]
  have hmax : (⟨a.scanLocation, t.length⟩ : NSRange).max ≤ b.string.length := by
    rw [NSRange.max, ← read.scanLocation_eq]
    exact b.scanLocation_le
  rw [hlength, substringInside, if_pos hmax, read.string_eq, read.substringWithRange]

/-- From a start character something is read, and the link that is set lies on it. -/
theorem makeResLinkAnchorStartingRange_spec {result : NSRange} {startCharacters : UniChar → Bool}
    {c : UniChar}
    {rest : NSString} (hrest : scanner.string.drop result.location = c :: rest)
    (hset : startCharacters c = true)
    (mAttrStr : LinkedString) :
    ∃ (start stopped : NSScanner) (t : NSString) (link? : Option Link),
      sets.makeResLinkAnchorStartingRange result startCharacters scanner mAttrStr =
        (link?.elim (some mAttrStr) mAttrStr.addAttribute).map (stopped, ·) ∧
      start.string = scanner.string ∧ start.scanLocation = result.location ∧
      start.Reads t stopped ∧ t ≠ [] ∧
      ∀ link ∈ link?, ∃ numbers, sets.IsAnchor startCharacters numbers t ∧
        link = ⟨⟨result.location, t.length⟩, CMRAttributeInnerLinkScheme ++ ns ":" ++ numbers⟩ := by
  have hlocation : result.location ≤ scanner.string.length := by
    by_contra hlt
    rw [List.drop_of_length_le (Nat.le_of_not_le hlt)] at hrest
    cases hrest
  obtain ⟨start, hstart, hstring, hat⟩ : ∃ start :
    NSScanner, scanner.setScanLocation result.location = some start ∧
      start.string = scanner.string ∧ start.scanLocation = result.location :=
    ⟨_, dif_pos hlocation, rfl, rfl⟩
  have hrun : IsRun startCharacters (start.rest.takeWhile startCharacters) := by
    refine ⟨?_, scanCharactersFromSet_all _ start⟩
    rw [NSScanner.rest, hstring, hat, hrest, List.takeWhile_cons_of_pos hset]
    exact List.cons_ne_nil _ _
  obtain ⟨head, hhead⟩ : ∃ head, head = start.rest.takeWhile startCharacters := ⟨_, rfl⟩
  obtain ⟨specified, hspecified⟩ :
      ∃ specified, specified = sets.skipWhitespace
        (start.scanCharactersFromSet startCharacters).2 := ⟨_, rfl⟩
  obtain ⟨white, hwhite, hskip⟩ : ∃ white, sets.IsWhite white ∧
    start.Reads (head ++ white) specified := by
    rw [hhead, hspecified]
    exact ⟨_, scanCharactersFromSet_all _ _,
      (reads_scanCharactersFromSet startCharacters start).trans (sets.skipWhitespace_reads _)⟩
  obtain ⟨location, stopped, hscan, hsame, hscanned⟩ :=
    @scanNumbers_spec sets _ _ _ none rfl (Reads.refl specified)
  rw [← hhead] at hrun
  rw [makeResLinkAnchorStartingRange, hstart]
  simp only [Option.bind_eq_bind, Option.bind_some]
  rw [← hspecified, hscan]
  cases location with
  | none =>
    obtain rfl : stopped = specified := hscanned
    refine ⟨start, stopped, head ++ white, none, rfl, hstring, hat, hskip, ?_, by simp⟩
    exact List.append_ne_nil_of_left_ne_nil hrun.1 white
  | some location =>
    obtain ⟨numbers, hnumbers, hstarts, rfl⟩ := hscanned
    obtain ⟨read, hset, hread⟩ := setScanLocation_of_starts hstarts
    rw [← setScanLocation_congr hsame] at hset
    have hall : start.Reads (head ++ (white ++ numbers)) read := by
      rw [← List.append_assoc]
      exact hskip.trans hread
    have hlength : read.scanLocation - result.location = (head ++ (white ++ numbers)).length := by
      rw [hall.scanLocation_eq, hat, Nat.add_sub_cancel_left]
    refine ⟨start, read, head ++ (white ++ numbers),
      some ⟨⟨result.location, (head ++ (white ++ numbers)).length⟩,
        CMRAttributeInnerLinkScheme ++ ns ":" ++ numbers⟩,
      ?_, hstring, hat, hall, List.append_ne_nil_of_left_ne_nil hrun.1 _, ?_⟩
    · simp only [Option.bind_some, hset, substringInside_of_reads hread, hlength]
      exact Option.map_eq_bind.symm
    · rintro link ⟨⟩
      exact ⟨numbers, .anchor hrun hwhite hnumbers, rfl⟩

variable {cset : UniChar → Bool} {result : NSRange} {m m' : LinkedString}

theorem length_rest_makeResLinkAnchorStartingRange {scanner' : NSScanner}
    (hresult : scanner.string.rangeOfCharacterFromSet cset
      (scanner.string.rangeFrom scanner.scanLocation) = some result)
    (hstep : sets.makeResLinkAnchorStartingRange result cset scanner m = some (scanner', m')) :
    scanner'.rest.length < scanner.rest.length := by
  obtain ⟨hle, hlt, c, rest, hrest, hset⟩ := rangeOfCharacterFromSet_rangeFrom_eq_some hresult
  obtain ⟨start, stopped, t, link?, heq, hstring, hat, hread, hne, -⟩ :=
    @makeResLinkAnchorStartingRange_spec sets _ _ _ _ _ hrest hset m
  rw [heq] at hstep
  obtain ⟨_, -, hpair⟩ := Option.map_eq_some_iff.mp hstep
  obtain ⟨rfl, -⟩ := Prod.mk.inj hpair
  have hlength := congrArg List.length hread.rest_eq
  have hpos := List.length_pos_of_ne_nil hne
  rw [List.length_append, length_rest, hstring, hat] at hlength
  rw [length_rest scanner]
  omega

def makeResLinkAnchorFrom (sets : LinkCharacters) (cset : UniChar → Bool) (scanner : NSScanner)
    (mAttrStr : LinkedString) : Option LinkedString :=
  match _hresult :
      scanner.string.rangeOfCharacterFromSet cset (scanner.string.rangeFrom scanner.scanLocation)
        with
  | none => some mAttrStr
  | some result =>
    match _hstep : sets.makeResLinkAnchorStartingRange result cset scanner mAttrStr with
    | none => none
    | some (scanner, mAttrStr) => makeResLinkAnchorFrom sets cset scanner mAttrStr
termination_by scanner.rest.length
decreasing_by exact length_rest_makeResLinkAnchorStartingRange _hresult _hstep

def makeResLinkAnchor (sets : LinkCharacters) (cset : UniChar → Bool) (scanner : NSScanner)
    (mAttrStr : LinkedString) : Option LinkedString := do
  if mAttrStr.string.length = 0 then return mAttrStr
  let scanner ← scanner.setScanLocation 0
  sets.makeResLinkAnchorFrom cset scanner mAttrStr

def makeInnerLinkAnchor (sets : LinkCharacters) (message : LinkedString) : Option LinkedString :=
  sets.makeResLinkAnchor sets.innerLinkPrefixCharacterSet (.initWithString message.string) message

-- All links of a text

structure IsLinked (sets : LinkCharacters) (cset : UniChar → Bool) (m : LinkedString)
    (location : Nat) : Prop where
  before : ∀ link ∈ m.links, link.range.max ≤ location
  apart : m.links.Pairwise fun link link' => link.range.max ≤ link'.range.location
  anchors : ∀ link ∈ m.links, ∃ numbers,
    sets.IsAnchor cset numbers (m.string.substringWithRange link.range) ∧
      link.value = CMRAttributeInnerLinkScheme ++ ns ":" ++ numbers

theorem isLinked_initWithString (s : NSString) (location : Nat) :
    IsLinked sets cset (.initWithString s) location where
  before := by simp [LinkedString.initWithString]
  apart := .nil
  anchors := by simp [LinkedString.initWithString]

theorem IsLinked.mono {location location' : Nat} (h : IsLinked sets cset m location)
    (hle : location ≤ location') :
    IsLinked sets cset m location' :=
  ⟨fun link hlink => (h.before link hlink).trans hle, h.apart, h.anchors⟩

theorem IsLinked.addAttribute {start stopped : NSScanner} {numbers : NSString}
    (h : IsLinked sets cset m start.scanLocation) (hstring : m.string = start.string)
    (hread : start.Reads t stopped) (hanchor : sets.IsAnchor cset numbers t) :
    ∃ m', m.addAttribute ⟨⟨start.scanLocation, t.length⟩,
      CMRAttributeInnerLinkScheme ++ ns ":" ++ numbers⟩ = some m' ∧
      m'.string = m.string ∧ IsLinked sets cset m' stopped.scanLocation := by
  have hmax : (⟨start.scanLocation, t.length⟩ : NSRange).max = stopped.scanLocation :=
    hread.scanLocation_eq.symm
  have hinside : stopped.scanLocation ≤ m.string.length := by
    rw [hstring, ← hread.string_eq]
    exact stopped.scanLocation_le
  refine ⟨_, dif_pos (hmax ▸ hinside), rfl, ?_, ?_, ?_⟩
  · intro link hlink
    obtain hlink | hlink := List.mem_append.mp hlink
    · have hle : start.scanLocation ≤ stopped.scanLocation := by
        rw [hread.scanLocation_eq]
        exact Nat.le_add_right _ _
      exact (h.before link hlink).trans hle
    · rw [List.mem_singleton.mp hlink, hmax]
  · refine List.pairwise_append.mpr ⟨h.apart, List.pairwise_singleton _ _, ?_⟩
    intro link hlink link' hlink'
    rw [List.mem_singleton.mp hlink']
    exact h.before link hlink
  · intro link hlink
    obtain hlink | hlink := List.mem_append.mp hlink
    · exact h.anchors link hlink
    · rw [List.mem_singleton.mp hlink]
      simp only [hstring, hread.substringWithRange]
      exact ⟨numbers, hanchor, rfl⟩

theorem IsLinked.step (h : IsLinked sets cset m scanner.scanLocation)
    (hsame : m.string = scanner.string)
    (hresult : scanner.string.rangeOfCharacterFromSet cset
      (scanner.string.rangeFrom scanner.scanLocation) = some result) :
    ∃ scanner' m', sets.makeResLinkAnchorStartingRange result cset scanner m = some (scanner', m') ∧
      m'.string = m.string ∧ m'.string = scanner'.string ∧
      IsLinked sets cset m' scanner'.scanLocation := by
  obtain ⟨hle, -, c, rest, hrest, hset⟩ := rangeOfCharacterFromSet_rangeFrom_eq_some hresult
  obtain ⟨start, stopped, t, link?, heq, hstring, hat, hread, -, hlink⟩ :=
    @makeResLinkAnchorStartingRange_spec sets _ _ _ _ _ hrest hset m
  have hstart : IsLinked sets cset m start.scanLocation := h.mono (hat ▸ hle)
  have hstopped : m.string = stopped.string := by rw [hsame, hread.string_eq, hstring]
  cases link? with
  | none =>
    refine ⟨stopped, m, heq, rfl, hstopped, hstart.mono ?_⟩
    rw [hread.scanLocation_eq]
    exact Nat.le_add_right _ _
  | some link =>
    obtain ⟨numbers, hanchor, rfl⟩ := hlink link rfl
    obtain ⟨m', hadd, hm', hlinked⟩ := hstart.addAttribute (hsame.trans hstring.symm) hread hanchor
    rw [hat] at hadd
    refine ⟨stopped, m', ?_, hm', hm'.trans hstopped, hlinked⟩
    rw [heq, Option.elim_some, hadd]
    rfl

theorem IsLinked.run (h : IsLinked sets cset m scanner.scanLocation)
    (hsame : m.string = scanner.string) :
    ∃ m' location, sets.makeResLinkAnchorFrom cset scanner m = some m' ∧ m'.string = m.string ∧
      IsLinked sets cset m' location := by
  fun_induction sets.makeResLinkAnchorFrom cset scanner m with
  | case1 scanner m hnone => exact ⟨m, _, rfl, rfl, h⟩
  | case2 scanner m result hresult hnone =>
    obtain ⟨_, _, hstep, -⟩ := h.step hsame hresult
    rw [hstep] at hnone
    cases hnone
  | case3 scanner m result hresult scanner' m' hstep ih =>
    obtain ⟨_, _, hstep', hstring, hsame', hlinked⟩ := h.step hsame hresult
    rw [hstep] at hstep'
    obtain ⟨rfl, rfl⟩ := Prod.mk.inj (Option.some.inj hstep')
    obtain ⟨m'', location, hrun, hm'', hend⟩ := ih hlinked hsame'
    exact ⟨m'', location, hrun, hm''.trans hstring, hend⟩

theorem exists_isLinked (sets : LinkCharacters) (s : NSString) :
    ∃ m location, sets.makeInnerLinkAnchor (.initWithString s) = some m ∧ m.string = s ∧
      IsLinked sets sets.innerLinkPrefixCharacterSet m location := by
  by_cases hempty : (LinkedString.initWithString s).string.length = 0
  · refine ⟨.initWithString s, 0, ?_, rfl, isLinked_initWithString s 0⟩
    rw [makeInnerLinkAnchor, makeResLinkAnchor, if_pos hempty]
    rfl
  · have hstart : (NSScanner.initWithString s).setScanLocation 0 = some (.initWithString s) :=
      dif_pos (Nat.zero_le _)
    obtain ⟨m, location, hrun, hm, hlinked⟩ :=
      @IsLinked.run sets (.initWithString s) sets.innerLinkPrefixCharacterSet (.initWithString s)
        (isLinked_initWithString s 0) rfl
    refine ⟨m, location, ?_, hm, hlinked⟩
    rw [makeInnerLinkAnchor, makeResLinkAnchor, if_neg hempty]
    refine Eq.trans ?_ hrun
    exact congrArg (fun scanner? => scanner?.bind fun scanner =>
      sets.makeResLinkAnchorFrom sets.innerLinkPrefixCharacterSet scanner
        (.initWithString s)) hstart

/-- The scan of a whole text: it never raises an exception, and the links follow one another
inside the text, each on a prefix and numbers. -/
theorem makeInnerLinkAnchor_links (sets : LinkCharacters) (s : NSString) :
    ∃ m, sets.makeInnerLinkAnchor (.initWithString s) = some m ∧ m.string = s ∧
      m.links.Pairwise (fun link link' => link.range.max ≤ link'.range.location) ∧
      ∀ link ∈ m.links, link.range.max ≤ s.length ∧ ∃ numbers,
        sets.IsAnchor sets.innerLinkPrefixCharacterSet numbers (s.substringWithRange link.range) ∧
          link.value = CMRAttributeInnerLinkScheme ++ ns ":" ++ numbers := by
  obtain ⟨m, location, hrun, hm, hlinked⟩ := exists_isLinked sets s
  subst hm
  exact ⟨m, hrun, rfl, hlinked.apart, fun link hlink =>
    ⟨m.links_inside link hlink, hlinked.anchors link hlink⟩⟩

end LinkCharacters

end BathyScaphe.Composer
