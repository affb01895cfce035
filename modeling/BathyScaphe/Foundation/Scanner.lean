import BathyScaphe.Foundation.Search
import Mathlib.Data.List.TakeWhile

/-!
# Scanners

A scanner reads a string from its location on. The location never lies beyond the end;
setting it there raises an exception. Nothing is skipped.
-/

namespace BathyScaphe

structure NSScanner where
  string : NSString
  scanLocation : Nat
  scanLocation_le : scanLocation ≤ string.length

namespace NSScanner

def initWithString (s : NSString) : NSScanner := ⟨s, 0, Nat.zero_le _⟩

def setScanLocation (location : Nat) (scanner : NSScanner) : Option NSScanner :=
  if h : location ≤ scanner.string.length then some ⟨scanner.string, location, h⟩ else none

def rest (scanner : NSScanner) : NSString := scanner.string.drop scanner.scanLocation

theorem length_rest (scanner : NSScanner) :
    scanner.rest.length = scanner.string.length - scanner.scanLocation := List.length_drop

/-- Whether there was a character of the set, and the scanner behind all of them. -/
def scanCharactersFromSet (set : UniChar → Bool) (scanner : NSScanner) : Bool × NSScanner :=
  (!(scanner.rest.takeWhile set).isEmpty,
    { scanner with
      scanLocation := scanner.scanLocation + (scanner.rest.takeWhile set).length
      scanLocation_le := by
        have hle := (List.takeWhile_prefix (l := scanner.rest) set).length_le
        have hrest := scanner.length_rest
        have hinside := scanner.scanLocation_le
        omega })

def isAtEnd (scanner : NSScanner) : Bool := scanner.scanLocation == scanner.string.length

structure Reads (scanner : NSScanner) (t : NSString) (scanner' : NSScanner) : Prop where
  string_eq : scanner'.string = scanner.string
  rest_eq : scanner.rest = t ++ scanner'.rest

variable {a b c : NSScanner} {s t : NSString} {set : UniChar → Bool}

namespace Reads

theorem refl (a : NSScanner) : a.Reads [] a := ⟨rfl, rfl⟩

theorem trans (first : a.Reads s b) (last : b.Reads t c) : a.Reads (s ++ t) c where
  string_eq := last.string_eq.trans first.string_eq
  rest_eq := by rw [first.rest_eq, last.rest_eq, List.append_assoc]

theorem scanLocation_eq (read : a.Reads t b) : b.scanLocation = a.scanLocation + t.length := by
  have hlength := congrArg List.length read.rest_eq
  rw [List.length_append, length_rest, length_rest, read.string_eq] at hlength
  have ha := a.scanLocation_le
  have hb := b.scanLocation_le
  rw [read.string_eq] at hb
  omega

theorem length_rest_le (read : a.Reads t b) : b.rest.length ≤ a.rest.length := by
  rw [read.rest_eq, List.length_append]
  exact Nat.le_add_left _ _

theorem starts (read : a.Reads t b) : t <+: a.rest := ⟨b.rest, read.rest_eq.symm⟩

end Reads

theorem reads_of_starts (hstring : b.string = a.string) (hstarts : t <+: a.rest)
    (hlocation : b.scanLocation = a.scanLocation + t.length) : a.Reads t b where
  string_eq := hstring
  rest_eq := by
    obtain ⟨u, hu⟩ := hstarts
    have hrest : b.rest = a.rest.drop t.length := by
      rw [rest, rest, hstring, hlocation, List.drop_drop]
    rw [hrest, ← hu, List.drop_left]

theorem reads_scanCharactersFromSet (set : UniChar → Bool) (a : NSScanner) :
    a.Reads (a.rest.takeWhile set) (a.scanCharactersFromSet set).2 :=
  reads_of_starts rfl (List.takeWhile_prefix set) rfl

theorem scanCharactersFromSet_all (set : UniChar → Bool) (a : NSScanner) :
    ∀ c ∈ a.rest.takeWhile set, set c = true := fun _ => List.mem_takeWhile_imp

theorem scanCharactersFromSet_fst : (a.scanCharactersFromSet set).1 = true ↔
    a.rest.takeWhile set ≠ [] := by
  rw [scanCharactersFromSet, Bool.not_eq_true', List.isEmpty_eq_false_iff]

theorem length_rest_scanCharactersFromSet (h : (a.scanCharactersFromSet set).1 = true) :
    (a.scanCharactersFromSet set).2.rest.length < a.rest.length := by
  have hread := congrArg List.length (reads_scanCharactersFromSet set a).rest_eq
  have hpos := List.length_pos_of_ne_nil (scanCharactersFromSet_fst.mp h)
  rw [List.length_append] at hread
  omega

/-- Before the end there is a character, and the scanner can be set behind it. -/
theorem exists_setScanLocation (h : a.isAtEnd = false) :
    ∃ c b, a.string[a.scanLocation]? = some c ∧ a.setScanLocation (a.scanLocation + 1) = some b ∧
      a.Reads [c] b := by
  have hne : a.scanLocation ≠ a.string.length := by simpa [isAtEnd] using h
  have hlt : a.scanLocation < a.string.length := Nat.lt_of_le_of_ne a.scanLocation_le hne
  refine ⟨a.string[a.scanLocation], ⟨a.string, a.scanLocation + 1, hlt⟩,
    List.getElem?_eq_getElem hlt, dif_pos hlt,
    rfl, ?_⟩
  exact List.drop_eq_getElem_cons hlt

theorem setScanLocation_congr (h : b.string = a.string) (location : Nat) :
    b.setScanLocation location = a.setScanLocation location := by
  rw [setScanLocation, setScanLocation]
  simp only [h]

theorem setScanLocation_of_starts (h : t <+: a.rest) :
    ∃ b, a.setScanLocation (a.scanLocation + t.length) = some b ∧ a.Reads t b := by
  have hle := h.length_le
  have hinside := a.scanLocation_le
  have hlocation : a.scanLocation + t.length ≤ a.string.length := by
    rw [length_rest] at hle
    omega
  exact ⟨⟨a.string, _, hlocation⟩, dif_pos hlocation, reads_of_starts rfl h rfl⟩

theorem Reads.substringWithRange (read : a.Reads t b) :
    a.string.substringWithRange ⟨a.scanLocation, t.length⟩ = t := by
  have hrest : a.string.drop a.scanLocation = t ++ b.rest := read.rest_eq
  rw [NSString.substringWithRange, hrest, List.take_left]

end NSScanner

end BathyScaphe
