import BathyScaphe.Foundation.StringComponents
import BathyScaphe.Host.ReadURLBuilding
import BathyScaphe.Reply.Messenger

/-!
# Quoting and anchors in a reply

A piece of text is appended to the reply, quoted or not, behind the anchor of
the message it answers, which is left out where the reply begins with it.

The quoting stops at the last line where that is empty, and knows the last line
as the same object. An empty line in front of it may be that object: which
empty strings are one object is for the system to say.
-/

namespace BathyScaphe.Reply.Messenger

open NSString Host Dat

/-- The quotation mark of the resources, and whether an empty line that was cut
out of a string is the same object as the last line, which is a literal or was
cut out as well. -/
structure Quoting where
  mark : NSString
  isSameObject (lastIsLiteral : Bool) : Bool

variable (q : Quoting)

def kNewline : NSString := ns "\n"

def endsWithNewline (s : NSString) : Bool :=
  s.getLast? = some (uc '\n') ∨ s.getLast? = some (uc '\r')

def quotedLine (line : NSString) : NSString := q.mark ++ (line ++ kNewline)

/-- The loop over the lines, of which the last one is empty unless `markLast`. -/
def quoteLines (markLast lastIsLiteral : Bool) : List NSString → NSString
  | [] => []
  | line :: lines =>
    if !markLast && (lines.isEmpty || (line.isEmpty && q.isSameObject lastIsLiteral)) then []
    else quotedLine q line ++ quoteLines markLast lastIsLiteral lines

def stringByQuoted (string : NSString) : NSString :=
  if string = [] then string
  else
    let allLines := string.componentsSeparatedByNewline
    quoteLines q (allLines.getLast? ≠ some []) (endsWithNewline string) allLines

def anchor (anIndex : UInt32) : NSString := ns ">>" ++ unsignedFormat (anIndex + 1)

def append (m : Messenger) (string : Option NSString) (quote : Bool) (anIndex : UInt32) :
    Messenger :=
  match string with
  | none => m
  | some string =>
    let string := if quote then stringByQuoted q string else string
    let string :=
      if anIndex ≠ NSNotFound ∧ ¬ anchor anIndex <+: m.textStorage then
        anchor anIndex ++ (kNewline ++ string)
      else string
    { m with textStorage := m.textStorage ++ string }

structure AppendCall where
  string : NSString
  quote : Bool
  anIndex : UInt32

def appendCall (m : Messenger) (call : AppendCall) : Messenger :=
  m.append q (some call.string) call.quote call.anIndex

-- What a call is for

def anchorTo (n : Nat) : NSString := ns ">>" ++ (Nat.toDigits 10 n).map uc

def isDigit (c : UniChar) : Bool := uc '0' ≤ c && c ≤ uc '9'

/-- The text begins with `>>n` and no further digit. -/
def BeginsWithAnchor (text : NSString) (n : Nat) : Prop :=
  ∃ rest, text = anchorTo n ++ rest ∧ rest.head?.any isDigit = false

def allQuoted (string : NSString) : NSString := (lineContents string).flatMap (quotedLine q)

def piece (call : AppendCall) : NSString :=
  if call.quote then stringByQuoted q call.string else call.string

/-- The piece stands behind the text, with its anchor in front where the call has
one that the text does not begin with, and every line of it is quoted. -/
structure Appends (m : Messenger) (call : AppendCall) : Prop where
  text : (m.appendCall q call).textStorage = m.textStorage ++ piece q call ∨
    (call.anIndex ≠ NSNotFound ∧ (m.appendCall q call).textStorage =
      m.textStorage ++ (anchorTo (call.anIndex.toNat + 1) ++ (kNewline ++ piece q call)))
  anchored : call.anIndex ≠ NSNotFound →
    (m.appendCall q call).textStorage = m.textStorage ++ piece q call →
      BeginsWithAnchor m.textStorage (call.anIndex.toNat + 1)
  quoted : call.quote = true → call.string ≠ [] → piece q call = allQuoted q call.string

/-- The empty lines are told from the last one, which is left out only where it
stands for a final newline. -/
def QuotesAll (string : NSString) : Prop :=
  if endsWithNewline string then [] ∈ lineContents string → q.isSameObject true = false
  else (lineContents string).getLast? ≠ some []

/-- The number is one of 32 bits, and the text does not begin with the anchor to
another number that goes on with further digits. -/
def TellsAnchors (m : Messenger) (anIndex : UInt32) : Prop :=
  anIndex ≠ NSNotFound → anIndex.toNat + 1 < 2 ^ 32 ∧
    ∀ rest, m.textStorage = anchorTo (anIndex.toNat + 1) ++ rest → rest.head?.any isDigit = false

def AppendsInFull (m : Messenger) (call : AppendCall) : Prop :=
  TellsAnchors m call.anIndex ∧ (call.quote = true → call.string ≠ [] → QuotesAll q call.string)

-- The quoting

section
variable {q : Quoting} {m : Messenger} {call : AppendCall} {lines : List NSString}

theorem quotedLine_length (line : NSString) : 0 < (quotedLine q line).length := by
  simp only [quotedLine, kNewline, List.length_append]
  show 0 < _ + (_ + 1)
  omega

theorem quoteLines_markLast (lines : List NSString) :
    quoteLines q true isLiteral lines = lines.flatMap (quotedLine q) := by
  induction lines with
  | nil => rfl
  | cons line lines ih => simp [quoteLines, ih]

/-- Without a line that is taken for the last one, all lines in front of the
last one are quoted. -/
theorem quoteLines_concat (h : [] ∈ lines → q.isSameObject isLiteral = false) (last : NSString) :
    quoteLines q false isLiteral (lines ++ [last]) = lines.flatMap (quotedLine q) := by
  induction lines with
  | nil => rfl
  | cons line lines ih =>
    have hgoes : (line.isEmpty && q.isSameObject isLiteral) = false := by
      cases line with
      | nil => exact h List.mem_cons_self
      | cons c line => rfl
    rw [List.cons_append, quoteLines]
    simp [hgoes, ih fun hmem => h (List.mem_cons_of_mem line hmem)]

/-- What is quoted is a start of the lines in front of the last one, and goes up
to an empty line that is taken for it. -/
theorem quoteLines_length_le (lines : List NSString) (last : NSString) :
    (quoteLines q false isLiteral (lines ++ [last])).length ≤
      (lines.flatMap (quotedLine q)).length := by
  induction lines with
  | nil => exact Nat.le_refl _
  | cons line lines ih =>
    rw [List.cons_append, quoteLines, List.flatMap_cons, List.length_append]
    split
    · exact Nat.zero_le _
    · rw [List.length_append]
      exact Nat.add_le_add_left ih _

theorem quoteLines_length_lt (hempty : [] ∈ lines) (hsame : q.isSameObject isLiteral = true)
    (last : NSString) :
    (quoteLines q false isLiteral (lines ++ [last])).length <
      (lines.flatMap (quotedLine q)).length := by
  induction lines with
  | nil => cases hempty
  | cons line lines ih =>
    rw [List.cons_append, quoteLines, List.flatMap_cons, List.length_append]
    split
    · exact Nat.add_pos_left (quotedLine_length line) _
    · rename_i hgoes
      have hline : line ≠ [] := by
        rintro rfl
        simp [hsame] at hgoes
      rw [List.length_append]
      exact Nat.add_lt_add_left (ih ((List.mem_cons.mp hempty).resolve_left (Ne.symm hline))) _

theorem quoteLines_concat_eq_iff (last : NSString) :
    quoteLines q false isLiteral (lines ++ [last]) = lines.flatMap (quotedLine q) ↔
      ([] ∈ lines → q.isSameObject isLiteral = false) := by
  constructor
  · intro heq hempty
    by_contra hsame
    have hlt := quoteLines_length_lt hempty (by simpa using hsame) last
    rw [heq] at hlt
    exact Nat.lt_irrefl _ hlt
  · exact fun h => quoteLines_concat h last

theorem stringByQuoted_eq_iff (hne : string ≠ []) :
    stringByQuoted q string = allQuoted q string ↔ QuotesAll q string := by
  rw [stringByQuoted, if_neg hne, allQuoted, QuotesAll]
  cases hends : endsWithNewline string with
  | true =>
    have hlines : componentsSeparatedByNewline string = lineContents string ++ [[]] := by
      rw [componentsSeparatedByNewline, if_pos (by simpa [endsWithNewline] using hends)]
    simp only [hlines, List.getLast?_concat, ne_eq, not_true, decide_false, if_true]
    exact quoteLines_concat_eq_iff []
  | false =>
    have hlines : componentsSeparatedByNewline string = lineContents string := by
      rw [componentsSeparatedByNewline, if_neg (by simpa [endsWithNewline] using hends)]
    simp only [hlines, Bool.false_eq_true, if_false]
    by_cases hlast : (lineContents string).getLast? = some []
    · obtain ⟨lines, hlines'⟩ := List.getLast?_eq_some_iff.mp hlast
      refine iff_of_false (fun heq => ?_) (not_not_intro hlast)
      simp only [hlast, ne_eq, not_true, decide_false] at heq
      have hle : (quoteLines q false false (lines ++ [[]])).length ≤ _ :=
        quoteLines_length_le lines []
      have hempty := quotedLine_length (q := q) []
      rw [← hlines', heq, hlines', List.flatMap_append, List.length_append] at hle
      simp only [List.flatMap_cons, List.flatMap_nil, List.append_nil] at hle
      omega
    · refine iff_of_true ?_ hlast
      simp only [hlast, ne_eq, not_false_eq_true, decide_true]
      exact quoteLines_markLast _

-- The anchors

theorem anchor_eq (h : i.toNat + 1 < 2 ^ 32) : anchor i = anchorTo (i.toNat + 1) := by
  have hnext : (i + 1).toNat = i.toNat + 1 := by
    rw [UInt32.toNat_add]
    exact Nat.mod_eq_of_lt h
  rw [anchor, unsignedFormat, hnext, anchorTo]

theorem anchor_wraps (h : ¬ i.toNat + 1 < 2 ^ 32) : anchor i = ns ">>0" ∧ i.toNat + 1 = 2 ^ 32 := by
  have hlt := i.toNat_lt
  have hlast : i.toNat + 1 = 2 ^ 32 := by omega
  have hzero : (i + 1).toNat = 0 := by
    rw [UInt32.toNat_add]
    show (i.toNat + 1) % 2 ^ 32 = 0
    rw [hlast, Nat.mod_self]
  refine ⟨?_, hlast⟩
  rw [anchor, unsignedFormat, hzero]
  rfl

theorem appendCall_text (hindex : call.anIndex ≠ NSNotFound) :
    (m.appendCall q call).textStorage = m.textStorage ++
      if anchor call.anIndex <+: m.textStorage then piece q call
      else anchor call.anIndex ++ (kNewline ++ piece q call) := by
  by_cases hbegins : anchor call.anIndex <+: m.textStorage
  · simp [appendCall, append, piece, hbegins]
  · simp [appendCall, append, piece, hbegins, hindex]

theorem appendCall_text_notFound (hindex : call.anIndex = NSNotFound) :
    (m.appendCall q call).textStorage = m.textStorage ++ piece q call := by
  simp [appendCall, append, piece, hindex]

theorem plain_ne_anchored (s t p : NSString) : s ++ p ≠ s ++ (t ++ (kNewline ++ p)) := by
  have hnewline : kNewline.length = 1 := rfl
  intro heq
  have hlength := congrArg List.length heq
  simp only [List.length_append] at hlength
  omega

/-- Behind the greatest index the number starts again at zero, and neither the
anchor nor the test for it is the right one. -/
theorem not_appends_of_wrap (hindex : call.anIndex ≠ NSNotFound)
    (hwrap : ¬ call.anIndex.toNat + 1 < 2 ^ 32) : ¬ Appends q m call := by
  obtain ⟨hanchor, hlast⟩ := anchor_wraps hwrap
  have hright : anchorTo (2 ^ 32) = ns ">>4294967296" := by decide +kernel
  have htext := appendCall_text (q := q) (m := m) hindex
  rintro ⟨hforms, hanchored, -⟩
  rw [hanchor] at htext
  rw [hlast] at hforms hanchored
  by_cases hbegins : ns ">>0" <+: m.textStorage
  · rw [if_pos hbegins] at htext
    obtain ⟨rest, hrest, -⟩ := hanchored hindex htext
    obtain ⟨rest', hrest'⟩ := hbegins
    rw [hright, ← hrest'] at hrest
    have hdigit := congrArg (·[2]?) hrest
    exact absurd (Option.some.inj hdigit) (by decide)
  · rw [if_neg hbegins] at htext
    rcases hforms with hplain | ⟨-, hanchor'⟩
    · exact plain_ne_anchored _ _ _ (hplain.symm.trans htext)
    · have hzero : (ns ">>0").length = 3 := rfl
      have hlong : (ns ">>4294967296").length = 12 := rfl
      have hlength := congrArg List.length (htext.symm.trans hanchor')
      rw [hright] at hlength
      simp only [List.length_append] at hlength
      omega

theorem appends_iff : Appends q m call ↔ AppendsInFull q m call := by
  have hquoted : (call.quote = true → call.string ≠ [] → piece q call = allQuoted q call.string) ↔
      (call.quote = true → call.string ≠ [] → QuotesAll q call.string) := by
    refine forall_congr' fun hquote => forall_congr' fun hne => ?_
    rw [piece, if_pos hquote]
    exact stringByQuoted_eq_iff hne
  constructor
  · intro happends
    refine ⟨fun hindex => ?_, hquoted.mp happends.quoted⟩
    by_cases hsmall : call.anIndex.toNat + 1 < 2 ^ 32
    · refine ⟨hsmall, fun rest hrest => ?_⟩
      have htext := appendCall_text (q := q) (m := m) hindex
      rw [anchor_eq hsmall, if_pos ⟨rest, hrest.symm⟩] at htext
      obtain ⟨rest', hrest', hdigit⟩ := happends.anchored hindex htext
      rwa [List.append_cancel_left (hrest.symm.trans hrest')]
    · exact absurd happends (not_appends_of_wrap hindex hsmall)
  · rintro ⟨htells, hquotes⟩
    by_cases hindex : call.anIndex = NSNotFound
    · exact ⟨.inl (appendCall_text_notFound hindex), fun hne => absurd hindex hne,
        hquoted.mpr hquotes⟩
    · obtain ⟨hsmall, hdigits⟩ := htells hindex
      have htext := appendCall_text (q := q) (m := m) hindex
      rw [anchor_eq hsmall] at htext
      by_cases hbegins : anchorTo (call.anIndex.toNat + 1) <+: m.textStorage
      · obtain ⟨rest, hrest⟩ := hbegins
        rw [if_pos ⟨rest, hrest⟩] at htext
        exact ⟨.inl htext, fun _ _ => ⟨rest, hrest.symm, hdigits rest hrest.symm⟩,
          hquoted.mpr hquotes⟩
      · rw [if_neg hbegins] at htext
        refine ⟨.inr ⟨hindex, htext⟩, fun _ hplain => ?_, hquoted.mpr hquotes⟩
        exact absurd (hplain.symm.trans htext) (plain_ne_anchored _ _ _)

-- Runs

theorem appendCall_prefix : m.textStorage <+: (m.appendCall q call).textStorage := by
  by_cases hindex : call.anIndex = NSNotFound
  · rw [appendCall_text_notFound hindex]
    exact List.prefix_append _ _
  · rw [appendCall_text hindex]
    exact List.prefix_append _ _

theorem foldl_prefix (calls : List AppendCall) :
    m.textStorage <+: (calls.foldl (appendCall q) m).textStorage := by
  induction calls generalizing m with
  | nil => exact List.prefix_refl _
  | cons call calls ih => exact appendCall_prefix.trans ih

/-- The calls of a run all do what they are for just where each of them tells
the anchors and the lines; earlier text is kept in any case. -/
theorem run_appends_iff (q : Quoting) (m : Messenger) (calls : List AppendCall) :
    (∀ pre, pre <+: calls → m.textStorage <+: (pre.foldl (appendCall q) m).textStorage) ∧
      (Run.Guarded (fun m call => some (m.appendCall q call)) (Appends q) m calls ↔
        Run.Guarded (fun m call => some (m.appendCall q call)) (AppendsInFull q) m calls) :=
  ⟨fun pre _ => foldl_prefix pre, Run.guarded_congr fun _ _ => appends_iff⟩

end

/-- The resources' quotation mark, with all empty strings one object. -/
def oneEmptyString : Quoting := ⟨ns ">", fun _ => true⟩

/-- The reply begins with the anchor to message 12, and message 1 is answered. -/
theorem not_appends_prefix :
    ¬ Run.Guarded (fun m call => some (m.appendCall oneEmptyString call)) (Appends oneEmptyString)
      { textStorage := [], replyMessage := [] } [⟨ns "a", false, 11⟩, ⟨ns "b", false, 0⟩] := by
  intro hguard
  obtain ⟨rest, hrest, hdigit⟩ := (hguard.2 _ rfl).1.anchored (by decide) (by decide +kernel)
  have hone : anchorTo 1 = ns ">>1" := by decide +kernel
  have htext : ns ">>12\na" = anchorTo 1 ++ rest := by
    refine Eq.trans ?_ hrest
    decide +kernel
  have hbehind : (ns ">>12\na").drop 3 = rest := by
    rw [htext, hone]
    rfl
  subst hbehind
  exact absurd hdigit (by decide)

end BathyScaphe.Reply.Messenger
