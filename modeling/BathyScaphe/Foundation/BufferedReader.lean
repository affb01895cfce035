import BathyScaphe.Foundation.NSString

/-!
# The buffered reader

`SGBufferedReader` reads the characters of another reader through a buffer. For lines, and
on request for characters, a return and a return with a line feed become one line feed: the
character behind a return is looked at and kept for the next call.

The part that packs line feeds takes the characters from any source. The buffer is one
source and the string without a buffer is another one.
-/

namespace BathyScaphe

open NSString

-- Sources

/-- `[super read]`, where `none` is `EOF`. The end of a source stays its end. -/
class SGInputReader (ρ : Type) where
  read : ρ → Option UniChar × ρ
  size : ρ → Nat
  size_lt : ∀ {r r' : ρ} {c : UniChar}, read r = (some c, r') → size r' < size r
  read_none : ∀ {r r' : ρ}, read r = (none, r') → r' = r

structure SGStringReader where
  string : NSString
  pos : Nat := 0

def SGStringReader.read (length : Nat) (reader : SGStringReader) :
    Option NSString × SGStringReader :=
  let srcLength := reader.string.length
  if srcLength ≤ reader.pos then (none, reader)
  else
    let length := if srcLength < reader.pos + length then length - (reader.pos + length - srcLength)
      else length
    (some (reader.string.substringWithRange ⟨reader.pos, length⟩), { reader with
      pos := reader.pos + length })

/-- The buffer and its reader. The characters in front of `pos` are read. -/
structure Buffer where
  input : SGStringReader
  buffer : NSString
  pos : Nat
  length : Nat
  length_pos : 0 < length

namespace Buffer

/-- The length that `setUpWithReader:length:` makes of the one it is asked for. -/
def lengthFor (aLength : Nat) : Nat :=
  let len := if aLength = 0 then 256 else aLength
  len + (8 - len % 8)

theorem lengthFor_pos (aLength : Nat) : 0 < lengthFor aLength := by
  rw [lengthFor]
  split <;> omega

def setUpWithReader (aReader : SGStringReader) (aLength : Nat) : Buffer :=
  ⟨aReader, [], 0, lengthFor aLength, lengthFor_pos aLength⟩

/-- `read:length:autualLength:`, which fills an empty buffer first. -/
def readUnits (aLength : Nat) (b : Buffer) : Option NSString × Buffer :=
  let filled :=
    if b.buffer.length ≤ b.pos then
      match b.input.read b.length with
      | (none, _) => none
      | (some units, input) => some { b with input, buffer := units, pos := 0 }
    else some b
  match filled with
  | none => (none, b)
  | some b =>
    let len := min aLength (b.buffer.length - b.pos)
    (some (b.buffer.substringWithRange ⟨b.pos, len⟩), { b with pos := b.pos + len })

def rest (b : Buffer) : NSString := b.buffer.drop b.pos ++ b.input.string.drop b.input.pos

theorem read_input (input : SGStringReader) {length : Nat} (hpos : 0 < length) :
    input.read length = (none, input) ∧ input.string.drop input.pos = [] ∨
      ∃ units input', input.read length = (some units, input') ∧ units ≠ [] ∧
        input.string.drop input.pos = units ++ input'.string.drop input'.pos := by
  rw [SGStringReader.read]
  split
  · rename_i hend
    exact .inl ⟨rfl, List.drop_of_length_le hend⟩
  · rename_i hend
    refine .inr ⟨_, _, rfl, ?_, ?_⟩
    · intro hnil
      have hlength := congrArg List.length hnil
      rw [substringWithRange, List.length_take, List.length_drop, List.length_nil] at hlength
      split at hlength <;> simp only at hlength <;> omega
    · rw [substringWithRange, ← List.drop_drop, List.take_append_drop]

theorem readUnits_of_lt {b : Buffer} (h : b.pos < b.buffer.length) :
    b.readUnits 1 = (some [b.buffer[b.pos]], { b with pos := b.pos + 1 }) := by
  have hone : min 1 (b.buffer.length - b.pos) = 1 := by omega
  rw [readUnits, if_neg (Nat.not_le.mpr h)]
  simp only [hone, substringWithRange, List.drop_eq_getElem_cons h, List.take_succ_cons,
    List.take_zero]

theorem readUnits_of_filled {b : Buffer} (h : b.buffer.length ≤ b.pos) {units : NSString}
    {input : SGStringReader}
    (hread : b.input.read b.length = (some units, input)) (hne : units ≠ []) :
    b.readUnits 1 = readUnits 1 { b with input, buffer := units, pos := 0 } := by
  have hlt : 0 < units.length := List.length_pos_of_ne_nil hne
  rw [readUnits, if_pos h, hread, readUnits, if_neg (Nat.not_le.mpr hlt)]

def read (b : Buffer) : Option UniChar × Buffer :=
  match b.readUnits 1 with
  | (none, b) => (none, b)
  | (some units, b) => (units.head?, b)

theorem read_of_lt {b : Buffer} (h : b.pos < b.buffer.length) :
    b.read = (some b.buffer[b.pos], { b with pos := b.pos + 1 }) := by
  rw [read, readUnits_of_lt h]
  rfl

theorem rest_of_lt {b : Buffer} (h : b.pos < b.buffer.length) :
    b.rest = b.buffer[b.pos] :: rest { b with pos := b.pos + 1 } := by
  rw [rest, List.drop_eq_getElem_cons h]
  rfl

/-- The end is where nothing is left, and elsewhere the first character is read. -/
theorem read_cases (b : Buffer) :
    b.rest = [] ∧ b.read = (none, b) ∨ ∃ c b', b.rest = c :: b'.rest ∧ b.read = (some c, b') := by
  by_cases h : b.pos < b.buffer.length
  · exact .inr ⟨_, _, rest_of_lt h, read_of_lt h⟩
  · have hend := Nat.not_lt.mp h
    have hdrop : b.buffer.drop b.pos = [] := List.drop_of_length_le hend
    obtain ⟨hnone, hinput⟩ | ⟨units, input, hsome, hne, hinput⟩ := read_input b.input b.length_pos
    · refine .inl ⟨by rw [rest, hdrop, hinput, List.append_nil], ?_⟩
      rw [read, readUnits, if_pos hend, hnone]
    · have hlt : 0 < units.length := List.length_pos_of_ne_nil hne
      have hfilled : b.rest = rest { b with input, buffer := units, pos := 0 } := by
        rw [rest, hdrop, List.nil_append, hinput]
        rfl
      refine .inr ⟨_, _, hfilled.trans (rest_of_lt hlt), ?_⟩
      rw [read, readUnits_of_filled hend hsome hne, ← read]
      exact read_of_lt hlt

instance : SGInputReader Buffer where
  read := read
  size b := b.rest.length
  size_lt {b b' c} h := by
    obtain ⟨-, hread⟩ | ⟨d, b'', hrest, hread⟩ := read_cases b
    · rw [hread] at h
      cases h
    · rw [hread] at h
      cases h
      rw [hrest, List.length_cons]
      exact Nat.lt_succ_self _
  read_none {b b'} h := by
    obtain ⟨-, hread⟩ | ⟨d, b'', hrest, hread⟩ := read_cases b <;> rw [hread] at h <;> cases h
    rfl

end Buffer

/-- A string that is read without a buffer. -/
instance : SGInputReader NSString where
  read
    | [] => (none, [])
    | c :: s => (some c, s)
  size := List.length
  size_lt {s s' c} h := by
    cases s <;> cases h
    exact Nat.lt_succ_self _
  read_none {s s'} h := by
    cases s <;> cases h
    rfl

-- Line feeds

/-- What the flag `hasNextC` says about `m_nextc` is whether there is a character. -/
structure SGBufferedReader (ρ : Type) where
  source : ρ
  nextc : Option UniChar := none
  nextEOF : Bool := false
  eof : Bool := false
  packNewline : Bool := false

namespace SGBufferedReader

def unicharOf : Option UniChar → UniChar
  | none => 0xFFFF
  | some c => c

section
variable [SGInputReader ρ]

def superRead (r : SGBufferedReader ρ) : Option UniChar × SGBufferedReader ρ :=
  ((SGInputReader.read r.source).1, { r with source := (SGInputReader.read r.source).2 })

/-- The character behind a return. The test for the end asks for the return, not for what
is behind it. -/
def packReturn (c : Option UniChar) (r : SGBufferedReader ρ) :
    Option UniChar × SGBufferedReader ρ :=
  let (nextc, r) := r.superRead
  if c = none then (some (uc '\n'), { r with nextEOF := true, nextc := none })
  else if nextc ≠ some (uc '\n') then (some (uc '\n'), { r with
    nextc := some (unicharOf nextc), nextEOF := false })
  else (some (uc '\n'), r)

def nextChar (r : SGBufferedReader ρ) : Option UniChar × SGBufferedReader ρ :=
  match r.nextc with
  | some c => (some c, { r with nextc := none, nextEOF := false })
  | none => r.superRead

def readPackNewline (shouldPack : Bool) (r : SGBufferedReader ρ) :
    Option UniChar × SGBufferedReader ρ :=
  if r.nextEOF then (none, r)
  else
    let (c, r) := r.nextChar
    let (c, r) := if c = some (uc '\r') ∧ shouldPack = true then r.packReturn c else (c, r)
    (c, { r with eof := c = none })

/-- What is left to be read. A return that is kept can still become the mark of the end. -/
def left (r : SGBufferedReader ρ) : Nat :=
  2 * SGInputReader.size r.source +
    match r.nextc with
    | none => 0
    | some c => if c = uc '\r' then 2 else 1

theorem superRead_cases (r : SGBufferedReader ρ) :
    r.superRead = (none, r) ∨ ∃ c source, r.superRead = (some c, { r with source }) ∧
      SGInputReader.size source < SGInputReader.size r.source := by
  rw [superRead]
  cases hread : SGInputReader.read r.source with
  | mk c source =>
    cases c with
    | none =>
      obtain rfl := SGInputReader.read_none hread
      exact .inl rfl
    | some c => exact .inr ⟨c, source, rfl, SGInputReader.size_lt hread⟩

theorem left_le (r : SGBufferedReader ρ) : r.left ≤ 2 * SGInputReader.size r.source + 2 := by
  rw [left]
  split
  · omega
  · split <;> omega

theorem left_packReturn {r : SGBufferedReader ρ} (h : r.nextc = none) (c : UniChar) :
    (r.packReturn (some c)).2.left ≤ 2 * SGInputReader.size r.source + 1 := by
  obtain hnone | ⟨d, source, hsome, hlt⟩ := superRead_cases r
  · rw [packReturn, hnone]
    exact Nat.le_refl _
  · rw [packReturn, hsome]
    by_cases hd : d = uc '\n'
    · simp only [reduceCtorEq, if_false, hd, ne_eq, not_true_eq_false, left, h]
      omega
    · simp only [reduceCtorEq, if_false, Option.some.injEq, hd, ne_eq, not_false_eq_true, if_true]
      have hle := left_le { r with source, nextc := some (unicharOf (some d)), nextEOF := false }
      simp only at hle
      omega

theorem nextChar_cases (r : SGBufferedReader ρ) :
    r.nextChar = (none, r) ∨ ∃ c r', r.nextChar = (some c, r') ∧ r'.nextc = none ∧
      2 * SGInputReader.size r'.source + (if c = uc '\r' then 2 else 1) ≤ r.left := by
  cases hnext : r.nextc with
  | some c =>
    rw [nextChar, hnext]
    refine .inr ⟨c, _, rfl, rfl, ?_⟩
    simp only [left, hnext, Nat.le_refl]
  | none =>
    rw [nextChar, hnext]
    obtain hnone | ⟨c, source, hsome, hlt⟩ := superRead_cases r
    · exact .inl hnone
    · refine .inr ⟨c, _, hsome, hnext, ?_⟩
      simp only [left, hnext]
      split <;> omega

theorem left_readPackNewline {r r' : SGBufferedReader ρ} {shouldPack : Bool}
    (h : r.readPackNewline shouldPack = (some c, r')) : r'.left < r.left := by
  rw [readPackNewline] at h
  split at h
  · cases h
  · obtain hnone | ⟨d, r₁, hsome, hkept, hle⟩ := nextChar_cases r
    · simp only [hnone, reduceCtorEq, false_and, if_false] at h
      cases h
    · simp only [hsome] at h
      split at h
      · rename_i hreturn
        obtain rfl := Option.some.inj hreturn.1
        have hbehind := left_packReturn hkept (uc '\r')
        obtain ⟨-, rfl⟩ := Prod.mk.inj h
        rw [if_pos rfl] at hle
        exact Nat.lt_of_le_of_lt hbehind (by omega)
      · cases h
        refine Nat.lt_of_lt_of_le ?_ hle
        simp only [left, hkept]
        split <;> omega

def read (r : SGBufferedReader ρ) : Option UniChar × SGBufferedReader ρ :=
  r.readPackNewline r.packNewline

def nextLineFrom (line : NSString) (r : SGBufferedReader ρ) : NSString × SGBufferedReader ρ :=
  match _h : r.readPackNewline true with
  | (none, r) => (line, r)
  | (some c, r) => if c = uc '\n' then (line, r) else nextLineFrom (line ++ [c]) r
termination_by r.left
decreasing_by exact left_readPackNewline _h

theorem nextLineFrom_none {r r' : SGBufferedReader ρ} (h : r.readPackNewline true = (none, r'))
    (line : NSString) : nextLineFrom line r = (line, r') := by
  rw [nextLineFrom]
  split
  · rename_i heq
    cases h.symm.trans heq
    rfl
  · rename_i heq
    cases h.symm.trans heq

theorem nextLineFrom_lineFeed {r r' : SGBufferedReader ρ}
    (h : r.readPackNewline true = (some (uc '\n'), r'))
    (line : NSString) : nextLineFrom line r = (line, r') := by
  rw [nextLineFrom]
  split
  · rename_i heq
    cases h.symm.trans heq
  · rename_i heq
    cases h.symm.trans heq
    exact if_pos rfl

theorem nextLineFrom_other {r r' : SGBufferedReader ρ} {c : UniChar}
    (h : r.readPackNewline true = (some c, r'))
    (hc : c ≠ uc '\n') (line : NSString) : nextLineFrom line r = nextLineFrom (line ++ [c]) r' := by
  rw [nextLineFrom]
  split
  · rename_i heq
    cases h.symm.trans heq
  · rename_i heq
    cases h.symm.trans heq
    exact if_neg hc

def readLine (r : SGBufferedReader ρ) : Option NSString × SGBufferedReader ρ :=
  if r.eof then (none, r)
  else
    let (line, r) := nextLineFrom [] r
    (some line, r)

inductive Call where
  | read
  | readLine
  | setPackNewline (flag : Bool)

inductive Reply where
  | read (c : Option UniChar)
  | readLine (line : Option NSString)
  | setPackNewline
  deriving DecidableEq

def call (r : SGBufferedReader ρ) : Call → Reply × SGBufferedReader ρ
  | .read => (.read r.read.1, r.read.2)
  | .readLine => (.readLine r.readLine.1, r.readLine.2)
  | .setPackNewline flag => (.setPackNewline, { r with packNewline := flag })

def replies (r : SGBufferedReader ρ) : List Call → List Reply
  | [] => []
  | c :: calls => (r.call c).1 :: replies (r.call c).2 calls

/-- The lines that `readLine` returns up to the first `nil`. -/
inductive Lines : SGBufferedReader ρ → List NSString → Prop
  | done {r : SGBufferedReader ρ} : r.readLine.1 = none → Lines r []
  | line {r : SGBufferedReader ρ} {line : NSString} {lines : List NSString} :
      r.readLine.1 = some line → Lines r.readLine.2 lines → Lines r (line :: lines)

theorem Lines.unique {r : SGBufferedReader ρ} {lines lines' : List NSString} (h : Lines r lines)
    (h' : Lines r lines') : lines = lines' := by
  induction h generalizing lines' with
  | done hnone =>
    cases h' with
    | done _ => rfl
    | line hsome _ => rw [hnone] at hsome; cases hsome
  | line hsome _ ih =>
    cases h' with
    | done hnone => rw [hsome] at hnone; cases hnone
    | line hsome' hrest =>
      rw [hsome] at hsome'
      rw [Option.some.inj hsome', ih hrest]

end

-- Another source of the same characters

section
variable [SGInputReader ρ] [SGInputReader σ] {φ : ρ → σ}

def mapSource (φ : ρ → σ) (r : SGBufferedReader ρ) : SGBufferedReader σ :=
  { source := φ r.source, nextc := r.nextc, nextEOF := r.nextEOF, eof := r.eof,
    packNewline := r.packNewline }

def SameCharacters (φ : ρ → σ) : Prop :=
  ∀ s, SGInputReader.read (φ s) = ((SGInputReader.read s).1, φ (SGInputReader.read s).2)

variable (h : SameCharacters φ)
include h

theorem superRead_mapSource (r : SGBufferedReader ρ) :
    (r.mapSource φ).superRead = (r.superRead.1, r.superRead.2.mapSource φ) := by
  have hread := h r.source
  simp only [superRead, mapSource, hread]

theorem packReturn_mapSource (c : Option UniChar) (r : SGBufferedReader ρ) :
    (r.mapSource φ).packReturn c = ((r.packReturn c).1, (r.packReturn c).2.mapSource φ) := by
  rw [packReturn, packReturn, superRead_mapSource h]
  simp only
  split
  · rfl
  · split <;> rfl

theorem nextChar_mapSource (r : SGBufferedReader ρ) :
    (r.mapSource φ).nextChar = (r.nextChar.1, r.nextChar.2.mapSource φ) := by
  obtain ⟨source, nextc, nextEOF, eof, packNewline⟩ := r
  cases nextc with
  | some c => rfl
  | none => exact superRead_mapSource h _

theorem readPackNewline_mapSource (shouldPack : Bool) (r : SGBufferedReader ρ) :
    (r.mapSource φ).readPackNewline shouldPack =
      ((r.readPackNewline shouldPack).1, (r.readPackNewline shouldPack).2.mapSource φ) := by
  rw [readPackNewline, readPackNewline, nextChar_mapSource h]
  cases hEOF : r.nextEOF with
  | true => simp [mapSource, hEOF]
  | false =>
    simp only [mapSource, hEOF, Bool.false_eq_true, if_false]
    split
    · rw [← mapSource, packReturn_mapSource h]
      rfl
    · rfl

theorem nextLineFrom_mapSource (line : NSString) (r : SGBufferedReader ρ) :
    nextLineFrom line (r.mapSource φ) = ((nextLineFrom line r).1,
      (nextLineFrom line r).2.mapSource φ) := by
  induction hn : r.left using Nat.strongRecOn generalizing line r with
  | _ n ih =>
    subst hn
    have hmap := readPackNewline_mapSource h true r
    cases hread : r.readPackNewline true with
    | mk c r' =>
      rw [hread] at hmap
      cases c with
      | none => rw [nextLineFrom_none hmap, nextLineFrom_none hread]
      | some c =>
        by_cases hc : c = uc '\n'
        · subst hc
          rw [nextLineFrom_lineFeed hmap, nextLineFrom_lineFeed hread]
        · rw [nextLineFrom_other hmap hc, nextLineFrom_other hread hc]
          exact ih _ (left_readPackNewline hread) _ _ rfl

theorem readLine_mapSource (r : SGBufferedReader ρ) :
    (r.mapSource φ).readLine = (r.readLine.1, r.readLine.2.mapSource φ) := by
  rw [readLine, readLine, nextLineFrom_mapSource h]
  cases heof : r.eof <;> simp [mapSource, heof]

theorem call_mapSource (r : SGBufferedReader ρ) (c : Call) :
    (r.mapSource φ).call c = ((r.call c).1, (r.call c).2.mapSource φ) := by
  cases c with
  | read =>
    have hread : (r.mapSource φ).read = (r.read.1, r.read.2.mapSource φ) :=
      readPackNewline_mapSource h r.packNewline r
    rw [call, hread, call]
  | readLine => rw [call, readLine_mapSource h, call]
  | setPackNewline flag => rfl

theorem replies_mapSource (r : SGBufferedReader ρ) (calls : List Call) :
    replies (r.mapSource φ) calls = replies r calls := by
  induction calls generalizing r with
  | nil => rfl
  | cons c calls ih => rw [replies, call_mapSource h, replies, ih]

theorem lines_mapSource {r : SGBufferedReader ρ} {lines : List NSString}
    (hlines : Lines (r.mapSource φ) lines) :
    Lines r lines := by
  generalize hr : r.mapSource φ = r' at hlines
  induction hlines generalizing r with
  | done hnone =>
    subst hr
    rw [readLine_mapSource h] at hnone
    exact .done hnone
  | line hsome _ ih =>
    subst hr
    rw [readLine_mapSource h] at hsome
    exact .line hsome (ih (by rw [readLine_mapSource h]))

end

-- The lines of a text

def pushUnit (c : UniChar) : List NSString → List NSString
  | [] => [[c]]
  | line :: lines => (c :: line) :: lines

/-- A text split at each return, line feed, and return with a line feed. -/
def splitLines : NSString → List NSString
  | [] => [[]]
  | [c] => if c = uc '\r' ∨ c = uc '\n' then [[], []] else [[c]]
  | c :: d :: s =>
    if c = uc '\r' ∧ d = uc '\n' then [] :: splitLines s
    else if c = uc '\r' ∨ c = uc '\n' then [] :: splitLines (d :: s)
    else pushUnit c (splitLines (d :: s))

/-- What is read behind a return: the end has been stored as a character. -/
def behindReturn : NSString → NSString
  | [] => [unicharOf none]
  | c :: s => if c = uc '\n' then s else c :: s

/-- The text with the mark that is read behind a return at its end. -/
def marked (s : NSString) : NSString := if s.getLast? = some (uc '\r') then s ++ [unicharOf none]
    else s

variable {c : UniChar} {s : NSString}

theorem splitLines_lineFeed (s : NSString) : splitLines (uc '\n' :: s) = [] :: splitLines s := by
  have hne : ¬ uc '\n' = uc '\r' := by decide
  cases s with
  | nil => rfl
  | cons d s => rw [splitLines, if_neg fun h => hne h.1, if_pos (.inr rfl)]

theorem splitLines_other (hr : c ≠ uc '\r') (hn : c ≠ uc '\n') (s : NSString) :
    splitLines (c :: s) = pushUnit c (splitLines s) := by
  have hnot : ¬ (c = uc '\r' ∨ c = uc '\n') := not_or.mpr ⟨hr, hn⟩
  cases s with
  | nil => exact if_neg hnot
  | cons d s => rw [splitLines, if_neg fun h => hr h.1, if_neg hnot]

theorem marked_cons (c d : UniChar) (s : NSString) : marked (c :: d :: s) = c :: marked
    (d :: s) := by
  rw [marked, marked, List.getLast?_cons_cons]
  split <;> rfl

theorem marked_return_lineFeed (s : NSString) :
    marked (uc '\r' :: uc '\n' :: s) = uc '\r' :: uc '\n' :: marked s := by
  cases s with
  | nil => rfl
  | cons c s => rw [marked_cons, marked_cons]

theorem marked_cons_other (hr : c ≠ uc '\r') (s : NSString) : marked (c :: s) = c :: marked s := by
  cases s with
  | nil => exact if_neg fun h => hr (Option.some.inj h)
  | cons d s => exact marked_cons c d s

theorem splitLines_return (s : NSString) :
    splitLines (marked (uc '\r' :: s)) = [] :: splitLines (marked (behindReturn s)) := by
  cases s with
  | nil => rfl
  | cons d s =>
    by_cases hd : d = uc '\n'
    · subst hd
      rw [marked_return_lineFeed, splitLines, if_pos ⟨rfl, rfl⟩, behindReturn, if_pos rfl]
    · rw [marked_cons, behindReturn, if_neg hd]
      obtain ⟨t, ht⟩ : ∃ t, marked (d :: s) = d :: t := by
        rw [marked]
        split
        · exact ⟨_, rfl⟩
        · exact ⟨_, rfl⟩
      rw [ht, splitLines, if_neg fun h => hd h.2, if_pos (.inl rfl)]

def pending (r : SGBufferedReader NSString) : NSString := r.nextc.toList ++ r.source

theorem readPackNewline_nil {r : SGBufferedReader NSString} (h : r.pending = [])
    (hEOF : r.nextEOF = false) :
    ∃ r', r.readPackNewline true = (none, r') ∧ r'.eof = true := by
  obtain ⟨source, nextc, nextEOF, eof, packNewline⟩ := r
  obtain rfl : nextEOF = false := hEOF
  cases nextc with
  | some c => cases h
  | none =>
    obtain rfl : source = [] := h
    exact ⟨_, rfl, rfl⟩

theorem readPackNewline_cons {r : SGBufferedReader NSString} (h : r.pending = c :: s)
    (hEOF : r.nextEOF = false) :
    ∃ r', r.readPackNewline true = (some (if c = uc '\r' then uc '\n' else c), r') ∧
      r'.nextEOF = false ∧
      r'.eof = false ∧ r'.pending = if c = uc '\r' then behindReturn s else s := by
  have hnext : ∃ r₁ : SGBufferedReader NSString, r.nextChar = (some c, r₁) ∧ r₁.source = s ∧
    r₁.nextc = none ∧
      r₁.nextEOF = false := by
    obtain ⟨source, nextc, nextEOF, eof, packNewline⟩ := r
    cases nextc with
    | some d =>
      obtain ⟨rfl, rfl⟩ := List.cons.inj h
      exact ⟨_, rfl, rfl, rfl, rfl⟩
    | none =>
      obtain rfl : source = c :: s := h
      exact ⟨_, rfl, rfl, rfl, hEOF⟩
  obtain ⟨⟨source, nextc, nextEOF, eof, packNewline⟩, hnext, rfl, rfl, rfl⟩ := hnext
  rw [readPackNewline, hEOF, hnext]
  by_cases hc : c = uc '\r'
  · subst hc
    simp only [Bool.false_eq_true, if_false, and_self, if_true]
    cases source with
    | nil => exact ⟨_, rfl, rfl, rfl, rfl⟩
    | cons d s =>
      by_cases hd : d = uc '\n'
      · subst hd
        exact ⟨_, rfl, rfl, rfl, rfl⟩
      · have hsome : some d ≠ some (uc '\n') := fun heq => hd (Option.some.inj heq)
        rw [behindReturn, if_neg hd]
        refine ⟨_, Prod.ext ?_ rfl, ?_⟩
        · simp [packReturn, superRead, SGInputReader.read, hd]
        · simp [packReturn, superRead, SGInputReader.read, hd, pending, unicharOf]
  · simp only [Bool.false_eq_true, if_false, Option.some.injEq, hc, false_and]
    exact ⟨_, rfl, rfl, rfl, rfl⟩

/-- The loop returns the first line of what is pending, and leaves the others. -/
theorem nextLineFrom_text {r : SGBufferedReader NSString} (hEOF : r.nextEOF = false)
    (line : NSString) :
    ∃ first rest, splitLines (marked r.pending) = first :: rest ∧ (nextLineFrom line r).1 =
      line ++ first ∧
      (rest = [] ∧ (nextLineFrom line r).2.eof = true ∨
        (nextLineFrom line r).2.eof = false ∧ (nextLineFrom line r).2.nextEOF = false ∧
          rest = splitLines (marked (nextLineFrom line r).2.pending)) := by
  induction hn : r.left using Nat.strongRecOn generalizing line r with
  | _ n ih =>
    subst hn
    cases hpending : r.pending with
    | nil =>
      obtain ⟨r', hread, heof⟩ := readPackNewline_nil hpending hEOF
      rw [nextLineFrom_none hread]
      exact ⟨[], [], rfl, (List.append_nil line).symm, .inl ⟨rfl, heof⟩⟩
    | cons c s =>
      obtain ⟨r', hread, hEOF', heof, hpending'⟩ := readPackNewline_cons hpending hEOF
      by_cases hr : c = uc '\r'
      · subst hr
        rw [if_pos rfl] at hread hpending'
        rw [nextLineFrom_lineFeed hread, splitLines_return, hpending']
        exact ⟨[], _, rfl, (List.append_nil line).symm, .inr ⟨heof, hEOF', rfl⟩⟩
      · rw [if_neg hr] at hread hpending'
        by_cases hc : c = uc '\n'
        · subst hc
          rw [nextLineFrom_lineFeed hread, marked_cons_other hr, splitLines_lineFeed, hpending']
          exact ⟨[], _, rfl, (List.append_nil line).symm, .inr ⟨heof, hEOF', rfl⟩⟩
        · obtain ⟨first, rest, hsplit, hline, hrest⟩ :=
            ih _ (left_readPackNewline hread) hEOF' (line ++ [c]) rfl
          rw [hpending'] at hsplit
          rw [nextLineFrom_other hread hc, marked_cons_other hr, splitLines_other hr hc, hsplit]
          exact ⟨c :: first, rest, rfl,
            by rw [hline, List.append_assoc, List.singleton_append], hrest⟩

theorem lines_text {r : SGBufferedReader NSString} (hEOF : r.nextEOF = false)
    (heof : r.eof = false) :
    Lines r (splitLines (marked r.pending)) := by
  generalize hlines : splitLines (marked r.pending) = lines
  induction lines generalizing r with
  | nil =>
    obtain ⟨first, rest, hsplit, -⟩ := nextLineFrom_text hEOF []
    rw [hsplit] at hlines
    cases hlines
  | cons line lines ih =>
    obtain ⟨first, rest, hsplit, hline, hrest⟩ := nextLineFrom_text hEOF []
    rw [hsplit] at hlines
    obtain ⟨rfl, rfl⟩ := List.cons.inj hlines
    have hread : r.readLine = (some (nextLineFrom [] r).1, (nextLineFrom [] r).2) := by
      rw [readLine, heof]
      rfl
    refine .line (by rw [hread, hline]; rfl) ?_
    rw [hread]
    obtain ⟨rfl, hend⟩ | ⟨hopen, hEOF', hrest⟩ := hrest
    · exact .done (by rw [readLine, hend]; rfl)
    · exact ih hEOF' hopen hrest.symm

theorem sameCharacters_rest : SameCharacters Buffer.rest := by
  intro b
  obtain ⟨hrest, hread⟩ | ⟨c, b', hrest, hread⟩ := b.read_cases
  · rw [hrest]
    show _ = (b.read.1, b.read.2.rest)
    rw [hread, hrest]
    rfl
  · rw [hrest]
    show _ = (b.read.1, b.read.2.rest)
    rw [hread]
    rfl

def initWithReader (s : NSString) (aLength : Nat) : SGBufferedReader Buffer :=
  { source := Buffer.setUpWithReader ⟨s, 0⟩ aLength }

theorem lines_initWithReader (s : NSString) (aLength : Nat) :
    Lines (initWithReader s aLength) (splitLines (marked s)) :=
  lines_mapSource sameCharacters_rest (lines_text (r := { source := s }) rfl rfl)

theorem flatten_pushUnit (c : UniChar) (lines : List NSString) :
    (pushUnit c lines).flatten = c :: lines.flatten := by
  cases lines <;> rfl

theorem flatten_splitLines (s : NSString) :
    (splitLines s).flatten = s.filter fun u => !decide (u = uc '\r' ∨ u = uc '\n') := by
  fun_induction splitLines s with
  | case1 => rfl
  | case2 u h => rw [List.filter_cons, decide_eq_true h]; rfl
  | case3 u h => rw [List.filter_cons, decide_eq_false h]; rfl
  | case4 u v s h ih =>
    obtain ⟨rfl, rfl⟩ := h
    exact ih
  | case5 u v s h hu ih =>
    rw [List.flatten_cons, List.nil_append, ih, List.filter_cons (x := u), decide_eq_true hu]
    rfl
  | case6 u v s h hu ih =>
    rw [flatten_pushUnit, ih, List.filter_cons (x := u), decide_eq_false hu]
    rfl

theorem splitLines_marked_ne (h : s.getLast? = some (uc '\r')) :
    splitLines (marked s) ≠ splitLines s := by
  intro heq
  have hflatten := congrArg List.flatten heq
  rw [marked, if_pos h, flatten_splitLines, flatten_splitLines, List.filter_append] at hflatten
  have hmark := List.append_right_eq_self.mp hflatten
  revert hmark
  decide

/-- The lines are those of the text, and no call depends on the length of the buffer. -/
def ReadsLines (s : NSString) : Prop :=
  ∀ n, Lines (initWithReader s n) (splitLines s) ∧
    ∀ m calls, replies (initWithReader s n) calls = replies (initWithReader s m) calls

/-- The lines are those of the text if and only if the text does not end in a return. -/
theorem readLine_lines_iff (s : NSString) : ReadsLines s ↔ s.getLast? ≠ some (uc '\r') := by
  constructor
  · intro h hlast
    exact splitLines_marked_ne hlast ((lines_initWithReader s 1).unique (h 1).1)
  · intro hlast n
    refine ⟨?_, fun m calls => ?_⟩
    · have hlines := lines_initWithReader s n
      rwa [marked, if_neg hlast] at hlines
    · rw [← replies_mapSource sameCharacters_rest, ← replies_mapSource sameCharacters_rest]
      rfl

/-- `a` and a return: the lines are `a` and the unit `0xFFFF`. -/
theorem not_readsLines_return : ¬ ReadsLines (ns "a\r") := by
  intro h
  have heq := (lines_initWithReader (ns "a\r") 1).unique (h 1).1
  revert heq
  decide

end SGBufferedReader

end BathyScaphe
