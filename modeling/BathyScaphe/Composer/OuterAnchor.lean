import BathyScaphe.Composer.Anchor
import BathyScaphe.Composer.TagElements
import BathyScaphe.Lib.Overlay

/-!
# Outer link anchors

The scan goes through the text twice: for each `www.` that is not behind a slash, and for
each `//` that is behind a colon or in front of a `www.`. From there on the characters of a
URL are read, and what has been read is linked. The second time links cover those of the
first time.
-/

namespace BathyScaphe.Composer

open NSString Overlay

def kColonSlash2LinkURLString : NSString := ns "://"
def kSlash2LinkURLString : NSString := ns "//"
def kW3LinkURLString : NSString := ns "www."
def kURLDefaultProtocol : NSString := ns "http"
def kURLHTTPSProtocol : NSString := ns "https"

def URLCharacterSet (c : UniChar) : Bool :=
  (ns ("!$&'()*+,-./0123456789:;=?@ABCDEFGHIJKLMNOPQRSTUVWXYZ_" ++
    "abcdefghijklmnopqrstuvwxyz~#%")).contains c

/-- The characters of `fdNonStandardURLCharacters`, full-width tildes, with those of
`fdStandardURLCharacters`. -/
def nonStandardURLCharacters : List (UniChar × UniChar) := [(0x301c, uc '~'), (0xff5e, uc '~')]

/-- A text and its values of `NSLinkAttributeName`. -/
abbrev LinkedText := List (UniChar × Option NSString)

def Link.layer (link : Link) : Layer NSString := ⟨link.range.location, link.range.max, link.value⟩

/-- A range that is not inside the text raises an exception. -/
def addLink (link : Link) (m : LinkedText) : Option LinkedText :=
  if link.range.max ≤ m.length then some (cover link.layer m) else none

/-- `scanString:intoString:` of a scanner that takes no notice of the case. -/
def scanString (string : NSString) (scanner : NSScanner) : Option NSScanner :=
  if (scanner.rest.take string.length).map tolower = string.map tolower then
    scanner.setScanLocation (scanner.scanLocation + string.length)
  else none

-- The characters of a URL

def scanNonStandard : List (UniChar × UniChar) → NSScanner → NSString → NSScanner × NSString
  | [], scanner, stringBuffer => (scanner, stringBuffer)
  | (c, standard) :: cs, scanner, stringBuffer =>
    match scanString [c] scanner with
    | some scanner => scanNonStandard cs scanner (stringBuffer ++ [standard])
    | none => scanNonStandard cs scanner stringBuffer

theorem reads_scanString {string : NSString} {scanner next : NSScanner}
    (h : scanString string scanner = some next) :
    scanner.Reads (scanner.rest.take string.length) next := by
  rw [scanString] at h
  split at h
  · rename_i hsame
    have hlen : (scanner.rest.take string.length).length = string.length := by
      rw [← List.length_map (f := tolower), hsame, List.length_map]
    rw [NSScanner.setScanLocation] at h
    split at h
    · cases h
      exact NSScanner.reads_of_starts rfl (List.take_prefix _ _) (by rw [hlen])
    · cases h
  · cases h

theorem length_rest_scanNonStandard (cs : List (UniChar × UniChar)) (scanner : NSScanner)
    (s : NSString) :
    (scanNonStandard cs scanner s).1.rest.length ≤ scanner.rest.length := by
  induction cs generalizing scanner s with
  | nil => exact Nat.le_refl _
  | cons p cs ih =>
    rw [scanNonStandard]
    split
    · rename_i next hnext
      exact (ih next _).trans (reads_scanString hnext).length_rest_le
    · exact ih scanner s

/-- Whether there was a character of a URL, the scanner and the string behind them. -/
def scanURLCharactersFallDown (scanner : NSScanner) (stringBuffer : NSString) (scanResult : Bool) :
    Bool × NSScanner × NSString :=
  let next := scanNonStandard nonStandardURLCharacters scanner stringBuffer
  if _hscan : (next.1.scanCharactersFromSet URLCharacterSet).1 = true then
    scanURLCharactersFallDown (next.1.scanCharactersFromSet URLCharacterSet).2
      (next.2 ++ next.1.rest.takeWhile URLCharacterSet) true
  else (scanResult, next.1, next.2)
termination_by scanner.rest.length
decreasing_by
  exact Nat.lt_of_lt_of_le (NSScanner.length_rest_scanCharactersFromSet _hscan)
    (length_rest_scanNonStandard nonStandardURLCharacters scanner stringBuffer)

/-- The characters of a URL at the start of a text, where `cs` are the full-width tildes
that may be next. -/
def urlText : List (UniChar × UniChar) → NSString → NSString
  | _, [] => []
  | cs, c :: s =>
    if URLCharacterSet c then c :: urlText nonStandardURLCharacters s
    else
      match cs.dropWhile fun p => p.1 ≠ c with
      | [] => []
      | _ :: cs => c :: urlText cs s

def standardCharacter (c : UniChar) : UniChar := (nonStandardURLCharacters.lookup c).getD c

section
variable {s t : NSString} {c : UniChar} {cs : List (UniChar × UniChar)} {scanner : NSScanner}

theorem urlText_of_url (h : URLCharacterSet c = true) (cs : List (UniChar × UniChar))
    (s : NSString) :
    urlText cs (c :: s) = c :: urlText nonStandardURLCharacters s := by
  rw [urlText, if_pos h]

theorem urlText_starts (cs : List (UniChar × UniChar)) (s : NSString) : urlText cs s <+: s := by
  induction s generalizing cs with
  | nil => exact List.prefix_refl _
  | cons c s ih =>
    rw [urlText]
    split
    · exact List.cons_prefix_cons.mpr ⟨rfl, ih _⟩
    · split
      · exact List.nil_prefix
      · exact List.cons_prefix_cons.mpr ⟨rfl, ih _⟩

theorem urlText_nil (h : ∀ c ∈ s.head?, URLCharacterSet c = false) : urlText [] s = [] := by
  cases s with
  | nil => rfl
  | cons c s =>
    rw [urlText, h c rfl, if_neg Bool.false_ne_true]
    rfl

theorem urlText_run (cs : List (UniChar × UniChar)) (h : s.takeWhile URLCharacterSet ≠ []) :
    urlText cs s =
      s.takeWhile URLCharacterSet ++ urlText nonStandardURLCharacters
        (s.dropWhile URLCharacterSet) := by
  induction s generalizing cs with
  | nil => exact absurd rfl h
  | cons c s ih =>
    by_cases hc : URLCharacterSet c = true
    · rw [urlText_of_url hc, List.takeWhile_cons, if_pos hc, List.dropWhile_cons,
        if_pos hc, List.cons_append]
      by_cases hs : s.takeWhile URLCharacterSet = []
      · have hsame := List.takeWhile_append_dropWhile (p := URLCharacterSet) (l := s)
        rw [hs, List.nil_append] at hsame ⊢
        rw [hsame]
      · rw [← ih _ hs]
    · exact absurd (by rw [List.takeWhile_cons, if_neg hc]) h

theorem urlText_cons (h : URLCharacterSet c = false) (d : UniChar) (s : NSString) :
    urlText ((c, d) :: cs) s = if s.head? = some c then c :: urlText cs s.tail
    else urlText cs s := by
  cases s with
  | nil => rfl
  | cons e s =>
    rw [List.head?_cons, List.tail_cons]
    by_cases he : e = c
    · subst he
      rw [if_pos rfl, urlText, h, if_neg Bool.false_ne_true, List.dropWhile_cons, if_neg (by simp)]
    · have hdrop : (((c, d) :: cs).dropWhile fun p => p.1 ≠ e) = cs.dropWhile fun p => p.1 ≠ e := by
        rw [List.dropWhile_cons, if_pos (by simpa using Ne.symm he)]
      rw [if_neg (by simpa using he), urlText, hdrop]
      conv_rhs => rw [urlText]

theorem tolower_eq_iff {d : UniChar} (hc : uc 'z' < c) : tolower d = tolower c ↔ d = c := by
  have hz : (122 : Nat) < c.toNat := UInt16.lt_iff_toNat_lt.mp hc
  have hsame : tolower c = c := by
    rcases tolower_cases c with hsame | ⟨-, hle, -⟩
    · exact hsame
    · omega
  rw [hsame]
  constructor
  · intro h
    rcases tolower_cases d with hsame' | ⟨-, hle, hsum⟩
    · exact hsame'.symm.trans h
    · rw [h] at hsum
      omega
  · rintro rfl
    exact hsame

theorem scanString_singleton (hc : uc 'z' < c) (scanner : NSScanner) :
    (∃ next, scanString [c] scanner = some next ∧ scanner.rest.head? = some c ∧
      scanner.Reads [c] next) ∨
      scanString [c] scanner = none ∧ scanner.rest.head? ≠ some c := by
  have hstarts : (scanner.rest.take 1).map tolower = [tolower c] ↔ scanner.rest.head? = some c := by
    cases scanner.rest with
    | nil => simp
    | cons d s => simp [tolower_eq_iff hc]
  by_cases hhead : scanner.rest.head? = some c
  · rw [scanString, List.length_singleton, List.map_singleton, if_pos (hstarts.mpr hhead)]
    obtain ⟨s, hs⟩ := List.head?_eq_some_iff.mp hhead
    obtain ⟨next, hnext, hread⟩ :=
      NSScanner.setScanLocation_of_starts (a := scanner) (t := [c]) ⟨s, hs.symm⟩
    exact .inl ⟨next, hnext, hhead, hread⟩
  · rw [scanString, List.length_singleton, List.map_singleton, if_neg (mt hstarts.mp hhead)]
    exact .inr ⟨rfl, hhead⟩

theorem scanNonStandard_spec
    (hcs : ∀ p ∈ cs, uc 'z' < p.1 ∧ URLCharacterSet p.1 = false ∧ standardCharacter p.1 = p.2)
    (scanner : NSScanner) (stringBuffer : NSString) :
    ∃ t, scanner.Reads t (scanNonStandard cs scanner stringBuffer).1 ∧
      (scanNonStandard cs scanner stringBuffer).2 = stringBuffer ++ t.map standardCharacter ∧
      urlText cs scanner.rest = t ++ urlText [] (scanNonStandard cs scanner stringBuffer).1.rest ∧
      ∀ c ∈ t, URLCharacterSet c = false := by
  induction cs generalizing scanner stringBuffer with
  | nil => exact ⟨[], .refl scanner, by simp [scanNonStandard], rfl, by simp⟩
  | cons p cs ih =>
    obtain ⟨c, d⟩ := p
    obtain ⟨⟨hz, hurl, hstandard⟩, hrest⟩ := List.forall_mem_cons.mp hcs
    have hstandard : standardCharacter c = d := hstandard
    subst hstandard
    rw [scanNonStandard, urlText_cons hurl]
    obtain ⟨next, hnext, hhead, hread⟩ | ⟨hnone, hhead⟩ := scanString_singleton hz scanner
    · rw [hnext, if_pos hhead]
      obtain ⟨t, hread', hbuffer, htext, hall⟩ :=
        ih hrest next (stringBuffer ++ [standardCharacter c])
      have htail : scanner.rest.tail = next.rest := by
        rw [hread.rest_eq, List.singleton_append, List.tail_cons]
      refine ⟨c :: t, hread.trans hread', ?_, ?_, List.forall_mem_cons.mpr ⟨hurl, hall⟩⟩
      · rw [hbuffer, List.append_assoc, List.map_cons, List.singleton_append]
      · rw [htail, htext, List.cons_append]
    · rw [hnone, if_neg hhead]
      exact ih hrest scanner stringBuffer

theorem nonStandardURLCharacters_spec :
    ∀ p ∈ nonStandardURLCharacters,
      uc 'z' < p.1 ∧ URLCharacterSet p.1 = false ∧ standardCharacter p.1 = p.2 := by
  intro p hp
  obtain rfl | rfl : p = (0x301c, uc '~') ∨ p = (0xff5e, uc '~') := by
    simpa [nonStandardURLCharacters] using hp
  · decide
  · decide

theorem standardCharacter_of_url (h : URLCharacterSet c = true) : standardCharacter c = c := by
  have hnone : nonStandardURLCharacters.lookup c = none := by
    refine List.lookup_eq_none_iff.mpr fun p hp => ?_
    refine bne_iff_ne.mpr fun heq => ?_
    rw [heq, (nonStandardURLCharacters_spec p hp).2.1] at h
    cases h
  rw [standardCharacter, hnone]
  rfl

/-- What the scan reads: the characters of a URL, with `~` for the full-width tildes. -/
theorem scanURLCharactersFallDown_spec (scanner : NSScanner) (stringBuffer : NSString)
    (scanResult : Bool) :
    ∃ next, scanURLCharactersFallDown scanner stringBuffer scanResult =
        (scanResult || (urlText nonStandardURLCharacters scanner.rest).any URLCharacterSet, next,
          stringBuffer ++ (urlText nonStandardURLCharacters scanner.rest).map standardCharacter) ∧
      scanner.Reads (urlText nonStandardURLCharacters scanner.rest) next := by
  fun_induction scanURLCharactersFallDown scanner stringBuffer scanResult with
  | case1 scanner stringBuffer scanResult next hscan ih =>
    obtain ⟨t, hread, hbuffer, htext, hall⟩ :=
      scanNonStandard_spec nonStandardURLCharacters_spec scanner stringBuffer
    obtain ⟨last, hlast, hread'⟩ := ih
    have hrun := NSScanner.scanCharactersFromSet_fst.mp hscan
    have hreadRun := NSScanner.reads_scanCharactersFromSet URLCharacterSet next.1
    have hrest : (next.1.scanCharactersFromSet URLCharacterSet).2.rest =
      next.1.rest.dropWhile URLCharacterSet := by
      refine List.append_cancel_left ((hreadRun.rest_eq.symm.trans ?_))
      exact (List.takeWhile_append_dropWhile ..).symm
    have hstandard : (next.1.rest.takeWhile URLCharacterSet).map standardCharacter =
        next.1.rest.takeWhile URLCharacterSet :=
      (List.map_congr_left fun c hc => standardCharacter_of_url (List.mem_takeWhile_imp hc)).trans
      (List.map_id' _)
    have hwhole : urlText nonStandardURLCharacters scanner.rest =
      t ++ (next.1.rest.takeWhile URLCharacterSet ++
        urlText nonStandardURLCharacters
          (next.1.scanCharactersFromSet URLCharacterSet).2.rest) := by
      rw [htext, urlText_run [] hrun, hrest]
    have hfound : (next.1.rest.takeWhile URLCharacterSet).any URLCharacterSet = true := by
      obtain ⟨c, hc⟩ := List.exists_mem_of_ne_nil _ hrun
      exact List.any_eq_true.mpr ⟨c, hc, List.mem_takeWhile_imp hc⟩
    refine ⟨last, ?_, ?_⟩
    · rw [hlast, hwhole, hbuffer, List.any_append, List.any_append, hfound, List.map_append,
        List.map_append, hstandard]
      simp
    · rw [hwhole]
      exact hread.trans (hreadRun.trans hread')
  | case2 scanner stringBuffer scanResult next hscan =>
    obtain ⟨t, hread, hbuffer, htext, hall⟩ :=
      scanNonStandard_spec nonStandardURLCharacters_spec scanner stringBuffer
    have hnone : urlText [] next.1.rest = [] := by
      refine urlText_nil fun c hc => Bool.eq_false_iff.mpr fun hurl => ?_
      obtain ⟨s, hs⟩ := List.head?_eq_some_iff.mp hc
      refine hscan (NSScanner.scanCharactersFromSet_fst.mpr ?_)
      rw [hs, List.takeWhile_cons, if_pos hurl]
      exact List.cons_ne_nil _ _
    have hany : t.any URLCharacterSet = false :=
      List.any_eq_false.mpr fun c hc => Bool.not_eq_true _ ▸ hall c hc
    have hwhole : urlText nonStandardURLCharacters scanner.rest = t := by
      rw [htext, hnone, List.append_nil]
    refine ⟨next.1, ?_, ?_⟩
    · rw [hwhole, hany, Bool.or_false, ← hbuffer]
    · rw [hwhole]
      exact hread

end

-- The loops

/-- `characterAtIndex:`; an index in front of the text is a large unsigned number. -/
def characterAtIndex (s : NSString) (index : Int) : Option UniChar :=
  if index < 0 then none else s[index.toNat]?

/-- What a turn of a loop comes to: a link, and where the next search begins. -/
structure Turn where
  link : Option Link
  searchLocation : Nat

section
variable (content : NSString)

/-- The end of a turn, from behind the range that has been found on: `none` is an
exception, `some none` is the end of the loop. -/
def urlTurn (linkRange : NSRange) (anchor : NSString) : Option (Option Turn) :=
  match (NSScanner.initWithString content).setScanLocation linkRange.max with
  | none => none
  | some scanner =>
    if scanner.isAtEnd then some none
    else
      let (found, scanner, anchor) := scanURLCharactersFallDown scanner anchor false
      if found then
        some (some ⟨some ⟨⟨linkRange.location, scanner.scanLocation - linkRange.location⟩, anchor⟩,
          scanner.scanLocation⟩)
      else some (some ⟨none, linkRange.max⟩)

/-- Whether there is a slash in front of a range. The test that there is something in
front of it asks for the end of the range, which is never zero. -/
def isSlashed (linkRange : NSRange) : Option Bool :=
  if linkRange.max ≠ 0 then (characterAtIndex content (linkRange.location - 1)).map (· == uc '/')
  else some false

def w3Turn (location : Nat) : Option (Option Turn) :=
  match content.rangeOfString kW3LinkURLString (content.rangeFrom location) with
  | none => some none
  | some linkRange =>
    match isSlashed content linkRange with
    | none => none
    | some true => some (some ⟨none, linkRange.max⟩)
    | some false => urlTurn content linkRange (ns "http://www.")

def isProtocolCharacter (c : UniChar) : Bool := uc 'a' ≤ c && c ≤ uc 'z'

/-- The loop to the front of the protocol that ends at a location. -/
def protocolStart (searchLocation : Nat) : Nat → Option Nat
  | 0 => none
  | location + 1 =>
    match content[location]? with
    | none => none
    | some c =>
      if isProtocolCharacter c then
        if location < searchLocation ∨ location = 0 then some location
        else protocolStart searchLocation location
      else some (location + 1)

def completedProtocol (protocol : NSString) : NSString :=
  if protocol <:+ kURLDefaultProtocol ∨ protocol.length = 0 then kURLDefaultProtocol
  else if protocol <:+ kURLHTTPSProtocol then kURLHTTPSProtocol
  else protocol

def protocolBefore (searchLocation scanIndex : Nat) : Option (NSString × Nat) :=
  if 0 < scanIndex then
    match protocolStart content searchLocation scanIndex with
    | none => none
    | some start =>
      (substringInside content ⟨start, scanIndex - start⟩).map fun protocol =>
        (completedProtocol protocol, start)
  else some (kURLDefaultProtocol, scanIndex)

def slashTurn (location : Nat) : Option (Option Turn) :=
  match content.rangeOfString kSlash2LinkURLString (content.rangeFrom location) with
  | none => some none
  | some linkRange =>
    match (NSScanner.initWithString content).setScanLocation linkRange.max with
    | none => none
    | some scanner =>
      if scanner.isAtEnd then some none
      else
        let scanIndex := linkRange.location - 1
        let isColon :=
          if location ≤ scanIndex then (characterAtIndex content scanIndex).map (· == uc ':')
          else some false
        match isColon with
        | none => none
        | some true =>
          match protocolBefore content location scanIndex with
          | none => none
          | some (protocol, start) =>
            urlTurn content ⟨start, linkRange.length + (linkRange.location - start)⟩
              (protocol ++ kColonSlash2LinkURLString)
        | some false =>
          match scanString kW3LinkURLString scanner with
          | none => some (some ⟨none, scanner.scanLocation⟩)
          | some _ =>
            urlTurn content ⟨linkRange.location, linkRange.length + kW3LinkURLString.length⟩
              (kURLDefaultProtocol ++ kColonSlash2LinkURLString ++ kW3LinkURLString)

end

-- A turn goes on

section
variable {content : NSString} {location : Nat} {linkRange : NSRange} {turn : Turn}

def urlFrom (content : NSString) (i : Nat) : NSString :=
  urlText nonStandardURLCharacters (content.drop i)

/-- Where the characters of a URL end that are read from a place on. -/
def urlEnd (content : NSString) (i : Nat) : Nat := i + (urlFrom content i).length

theorem urlTurn_eq (h : linkRange.max ≤ content.length) (anchor : NSString) :
    urlTurn content linkRange anchor =
      if linkRange.max = content.length then some none
      else if (urlFrom content linkRange.max).any URLCharacterSet = true then
        some (some ⟨some ⟨⟨linkRange.location, urlEnd content linkRange.max - linkRange.location⟩,
          anchor ++ (urlFrom content linkRange.max).map standardCharacter⟩,
            urlEnd content linkRange.max⟩)
      else some (some ⟨none, linkRange.max⟩) := by
  have hset : (NSScanner.initWithString content).setScanLocation linkRange.max =
      some ⟨content, linkRange.max, h⟩ := dif_pos h
  have hend : (NSScanner.mk content linkRange.max h).isAtEnd =
      decide (linkRange.max = content.length) := rfl
  obtain ⟨next, hscan, hread⟩ :=
    scanURLCharactersFallDown_spec ⟨content, linkRange.max, h⟩ anchor false
  have hlocation : next.scanLocation = urlEnd content linkRange.max := hread.scanLocation_eq
  rw [urlTurn, hset]
  simp only [hend, hscan, hlocation, decide_eq_true_eq, Bool.false_or]
  rfl

theorem urlEnd_le (h : i ≤ content.length) : urlEnd content i ≤ content.length := by
  have hle : (urlFrom content i).length ≤ (content.drop i).length := (urlText_starts _ _).length_le
  rw [List.length_drop] at hle
  rw [urlEnd]
  omega

theorem searchLocation_of_urlTurn (h : linkRange.max ≤ content.length) {anchor : NSString}
    (hturn : urlTurn content linkRange anchor = some (some turn)) :
    linkRange.max ≤ turn.searchLocation ∧ turn.searchLocation ≤ content.length := by
  rw [urlTurn_eq h] at hturn
  split at hturn
  · cases hturn
  · split at hturn
    · cases hturn
      exact ⟨Nat.le_add_right _ _, urlEnd_le h⟩
    · cases hturn
      exact ⟨Nat.le_refl _, h⟩

theorem lt_max_rangeOfString {string : NSString} {location : Nat}
    (h : content.rangeOfString string (content.rangeFrom location) = some linkRange)
    (hlength : 0 < string.length) :
    location < linkRange.max ∧ linkRange.max ≤ content.length := by
  obtain ⟨hle, heq, hmax⟩ := max_rangeOfString_rangeFrom h
  refine ⟨?_, hmax⟩
  rw [NSRange.max, heq]
  exact Nat.lt_of_le_of_lt hle (Nat.lt_add_of_pos_right hlength)

theorem searchLocation_of_w3Turn (hturn : w3Turn content location = some (some turn)) :
    location < turn.searchLocation ∧ turn.searchLocation ≤ content.length := by
  rw [w3Turn] at hturn
  split at hturn
  · cases hturn
  · rename_i linkRange hrange
    obtain ⟨hlt, hmax⟩ := lt_max_rangeOfString hrange (by decide)
    split at hturn
    · cases hturn
    · cases hturn
      exact ⟨hlt, hmax⟩
    · obtain ⟨hle', hmax'⟩ := searchLocation_of_urlTurn hmax hturn
      exact ⟨Nat.lt_of_lt_of_le hlt hle', hmax'⟩

theorem protocolStart_le {searchLocation scanIndex start : Nat}
    (h : protocolStart content searchLocation scanIndex = some start) : start ≤ scanIndex := by
  induction scanIndex with
  | zero => cases h
  | succ scanIndex ih =>
    rw [protocolStart] at h
    split at h
    · cases h
    · split at h
      · split at h
        · cases h
          exact Nat.le_succ _
        · exact Nat.le_succ_of_le (ih h)
      · cases h
        exact Nat.le_refl _

theorem protocolBefore_le {searchLocation scanIndex start : Nat} {protocol : NSString}
    (h : protocolBefore content searchLocation scanIndex = some (protocol, start)) :
    start ≤ scanIndex := by
  rw [protocolBefore] at h
  split at h
  · split at h
    · cases h
    · rename_i hstart
      obtain ⟨_, -, hpair⟩ := Option.map_eq_some_iff.mp h
      cases hpair
      exact protocolStart_le hstart
  · cases h
    exact Nat.le_refl _

theorem rest_of_setScanLocation {scanner : NSScanner}
    (h : (NSScanner.initWithString content).setScanLocation location = some scanner) :
    scanner.string = content ∧ scanner.scanLocation = location := by
  rw [NSScanner.setScanLocation] at h
  split at h
  · cases h
    exact ⟨rfl, rfl⟩
  · cases h

theorem length_of_scanString {string : NSString} {scanner next : NSScanner}
    (h : scanString string scanner = some next) :
    scanner.scanLocation + string.length ≤ scanner.string.length := by
  rw [scanString] at h
  split at h
  · rw [NSScanner.setScanLocation] at h
    split at h
    · assumption
    · cases h
  · cases h

theorem searchLocation_of_slashTurn (hturn : slashTurn content location = some (some turn)) :
    location < turn.searchLocation ∧ turn.searchLocation ≤ content.length := by
  rw [slashTurn] at hturn
  split at hturn
  · cases hturn
  · rename_i linkRange hrange
    obtain ⟨hlt, hmax⟩ := lt_max_rangeOfString hrange (by decide)
    split at hturn
    · cases hturn
    · rename_i scanner hscanner
      obtain ⟨hstring, hat⟩ := rest_of_setScanLocation hscanner
      split at hturn
      · cases hturn
      · simp only at hturn
        split at hturn
        · cases hturn
        · split at hturn
          · cases hturn
          · rename_i protocol start hprotocol
            have hstart := protocolBefore_le hprotocol
            have hsame : (⟨start, linkRange.length + (linkRange.location - start)⟩ : NSRange).max =
              linkRange.max := by
              simp only [NSRange.max]
              omega
            obtain ⟨hle', hmax'⟩ := searchLocation_of_urlTurn (hsame.trans_le hmax) hturn
            exact ⟨Nat.lt_of_lt_of_le hlt (hsame.symm.trans_le hle'), hmax'⟩
        · split at hturn
          · cases hturn
            rw [hat]
            exact ⟨hlt, hmax⟩
          · rename_i hscan
            have hin := length_of_scanString hscan
            rw [hstring, hat] at hin
            have hsame :
              (⟨linkRange.location, linkRange.length + kW3LinkURLString.length⟩ : NSRange).max =
                linkRange.max + kW3LinkURLString.length := (Nat.add_assoc _ _ _).symm
            obtain ⟨hle', hmax'⟩ := searchLocation_of_urlTurn (hsame.trans_le hin) hturn
            exact ⟨Nat.lt_of_lt_of_le hlt (Nat.le_trans (hsame ▸ Nat.le_add_right _ _) hle'), hmax'⟩

end

-- The scan

def w3Links (content : NSString) (location : Nat) (m : LinkedText) : Option LinkedText :=
  match _hturn : w3Turn content location with
  | none => none
  | some none => some m
  | some (some turn) =>
    match turn.link.elim (some m) (addLink · m) with
    | none => none
    | some m => w3Links content turn.searchLocation m
termination_by content.length - location
decreasing_by
  have hnext := searchLocation_of_w3Turn _hturn
  omega

structure OuterLinks where
  theMessage : LinkedText
  helper : Option Link

def Link.isSAAP (link : Link) : Bool := decide (ns "sssp://" <+: link.value)

def OuterLinks.setLink (anchor : Link) (links : OuterLinks) : Option OuterLinks :=
  if anchor.isSAAP then some { links with helper := some anchor }
  else (addLink anchor links.theMessage).map fun m => { links with theMessage := m }

def slashLinks (content : NSString) (location : Nat) (links : OuterLinks) : Option OuterLinks :=
  match _hturn : slashTurn content location with
  | none => none
  | some none => some links
  | some (some turn) =>
    match turn.link.elim (some links) links.setLink with
    | none => none
    | some links => slashLinks content turn.searchLocation links
termination_by content.length - location
decreasing_by
  have hnext := searchLocation_of_slashTurn _hturn
  omega

/-- What shows the icons: whether it does, and for which URLs there is an image. -/
structure BSBeSAAPAnchorComposer where
  showsSAAPIcon : Bool
  hasImage : NSString → Bool

namespace BSBeSAAPAnchorComposer

def convertedLinkString (saapString : NSString) : NSString :=
  saapString.replaceCharactersInRange ⟨0, 4⟩ (ns "http")

def attachment : LinkedText := [(0xfffc, none)]

def beIconAttachment (composer : BSBeSAAPAnchorComposer) (url : NSString) : Option LinkedText :=
  if composer.hasImage url then some attachment else none

/-- What takes the place of the link: an icon or nothing. -/
def replacement (composer : BSBeSAAPAnchorComposer) (helper : Link) : LinkedText :=
  if composer.showsSAAPIcon then (composer.beIconAttachment (convertedLinkString helper.value)).getD
    [] else []

def composeSAAPAnchorIfNeeded (composer : BSBeSAAPAnchorComposer) (helper : Link)
    (message : LinkedText) :
    Option LinkedText :=
  if helper.range.max ≤ message.length then
    some (Splice.splice helper.range.location helper.range.length
      (composer.replacement helper) message)
  else none

end BSBeSAAPAnchorComposer

/-- `makeOuterLinkAnchor:` of a text with the links of the inner anchors. -/
def makeOuterLinkAnchorIn (composer : BSBeSAAPAnchorComposer) (theMessage : LinkedText) :
    Option LinkedText :=
  let content := theMessage.map Prod.fst
  if content.length = 0 then some theMessage
  else do
    let theMessage ← w3Links content 0 theMessage
    let links ← slashLinks content 0 ⟨theMessage, none⟩
    links.helper.elim (some links.theMessage) fun helper =>
      composer.composeSAAPAnchorIfNeeded helper links.theMessage

/-- The links of the inner anchors, which those of the scan cover, are left out. -/
def makeOuterLinkAnchor (composer : BSBeSAAPAnchorComposer) (content : NSString) :
    Option LinkedText :=
  makeOuterLinkAnchorIn composer (content.map (·, none))

theorem map_fst_unlinked (content : NSString) :
    (content.map fun c => (c, (none : Option NSString))).map Prod.fst = content :=
  (List.map_map ..).trans (List.map_id' content)

end BathyScaphe.Composer
