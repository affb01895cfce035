import BathyScaphe.Dat.Reader
import BathyScaphe.Xml.PullParser

/-!
# From rawmode to a DAT

`BSHostLivedoorHandler` turns the lines of a rawmode response into a DAT. A line
is a record of seven fields; the numbers that are missing become empty lines, and
the title of the first line is put at the end of the first line of the DAT. The
fields are taken by their index from every line, so that a line with fewer of
them raises. -/

namespace BathyScaphe.Host

open NSString Dat

inductive NSException where
  | range
  deriving DecidableEq

def objectAtIndex (components : List NSString) (i : Nat) : Except NSException NSString :=
  match components[i]? with
  | some object => .ok object
  | none => .error .range

def intValue (s : NSString) : Int := (Xml.scanInt s).getD 0

def unsignedOfInt (n : Int) : UInt32 := UInt32.ofNat (n % 2 ^ 32).toNat

def convertObjectsToExtraFields (components : List NSString) : Except NSException NSString := do
  let date ← objectAtIndex components 3
  let idOrHost ← objectAtIndex components 6
  if idOrHost = [] then pure date
  else pure (date ++ (if idOrHost.length < 11 then ns " ID:" else ns " HOST:") ++ idOrHost)

def fillLines (first last : UInt32) : NSString :=
  (List.replicate (last.toNat - first.toNat) (ns "<><><><>\n")).flatten

def addDatLine (components : List NSString) (thread : NSString) (loadedCount : UInt32) :
    Except NSException (NSString × UInt32) := do
  let number ← objectAtIndex components 0
  let actualIndex := unsignedOfInt (intValue number)
  if actualIndex = 0 then pure (thread, loadedCount)
  else
    let thread :=
      if loadedCount ≠ NSNotFound ∧ loadedCount + 1 ≠ actualIndex then
        thread ++ fillLines (loadedCount + 1) actualIndex
      else thread
    let extraFields ← convertObjectsToExtraFields components
    let name ← objectAtIndex components 1
    let mail ← objectAtIndex components 2
    let body ← objectAtIndex components 4
    pure (thread ++ (name ++ ns "<>" ++ mail ++ ns "<>" ++ extraFields ++ ns "<>" ++
      body ++ ns "<>\n"),
      actualIndex)

/-- `insertString:atIndex:` at the first end of a line, if there is one. -/
def insertTitle (title thread : NSString) : NSString :=
  if uc '\n' ∈ thread then
    thread.takeWhile (· != uc '\n') ++ title ++ thread.dropWhile (· != uc '\n')
  else thread

structure Conversion where
  thread : NSString
  parsedCount : UInt32
  titleParsed : Bool

def parseLine (state : Conversion) (eachLine : NSString) : Except NSException Conversion := do
  let components := eachLine.componentsSeparatedByString (ns "<>")
  let (thread, parsedCount) ← addDatLine components state.thread state.parsedCount
  if state.titleParsed then pure ⟨thread, parsedCount, true⟩
  else
    let title ← objectAtIndex components 5
    pure ⟨if title = [] then thread else insertTitle title thread, parsedCount, true⟩

/-- The handler catches the exceptions of the parser of HTML only. -/
def parseHTML (inputSource thread : NSString) (loadedCount : UInt32) :
    Except NSException NSString := do
  let state ← (inputSource.componentsSeparatedByString (ns "\n")).foldlM parseLine
    ⟨thread, loadedCount, false⟩
  pure state.thread

-- Records

structure Record where
  number : Nat
  name : NSString
  mail : NSString
  date : NSString
  body : NSString
  title : NSString
  idOrHost : NSString
  deriving DecidableEq

def numeral (s : NSString) : Option Nat :=
  if s ≠ [] ∧ s.all fun c => (Xml.decimalDigit c).isSome then
    some ((s.filterMap Xml.decimalDigit).foldl (fun n d => n * 10 + d) 0)
  else none

/-- A line of the form number, name, mail, date, body, title and ID. -/
def recordOf : List NSString → Option Record
  | [number, name, mail, date, body, title, idOrHost] =>
    (numeral number).map fun n => ⟨n, name, mail, date, body, title, idOrHost⟩
  | _ => none

def linesOf (response : NSString) : List (List NSString) :=
  (response.componentsSeparatedByString (ns "\n")).map
    (componentsSeparatedByString · (ns "<>"))

def recordsOf (response : NSString) : List Record := (linesOf response).filterMap recordOf

/-- Every line is a record or has fewer fields, and the numbers of the records
increase from the number of the messages that are loaded. -/
structure IsRawmode (loadedCount : UInt32) (response : NSString) : Prop where
  lines : ∀ components ∈ linesOf response, components.length < 7 ∨ (recordOf components).isSome
  increasing : ((recordsOf response).map Record.number).Pairwise (· < ·)
  greater : ∀ r ∈ recordsOf response, loadedCount.toNat < r.number

namespace Record

def extra (r : Record) : NSString :=
  if r.idOrHost = [] then []
  else (if r.idOrHost.length < 11 then ns " ID:" else ns " HOST:") ++ r.idOrHost

def datLine (r : Record) : NSString :=
  r.name ++ ns "<>" ++ r.mail ++ ns "<>" ++ (r.date ++ r.extra) ++ ns "<>" ++ r.body ++ ns "<>"

end Record

def placeholderLine : NSString := ns "<><><><>"

structure IsDat (loadedCount : Nat) (records : List Record) (lines : List NSString) : Prop where
  length : lines.length = (records.getLast?.map fun r => r.number - loadedCount).getD 0
  record : ∀ r ∈ records, lines[r.number - loadedCount - 1]? = some r.datLine
  missing : ∀ k < lines.length, (∀ r ∈ records, r.number ≠ loadedCount + 1 + k) →
    lines[k]? = some placeholderLine

def textOfLines (lines : List NSString) : NSString := lines.flatMap (· ++ ns "\n")

def addTitle (records : List Record) (lines : List NSString) : List NSString :=
  lines.modifyHead (· ++ (records.head?.map Record.title).getD [])

def Converts (loadedCount : UInt32) (response : NSString) : Prop :=
  ∃ lines, IsDat loadedCount.toNat (recordsOf response) lines ∧
    parseHTML response [] loadedCount = .ok (textOfLines (addTitle (recordsOf response) lines))

/-- No line but a record starts with a number other than zero, the first line is a
record, or it has six fields and there is no title in the first record, and no
number is missing in front of one that an `int` does not hold. -/
structure Convertible (loadedCount : UInt32) (response : NSString) : Prop where
  short : ∀ components ∈ linesOf response, components.length < 7 →
    unsignedOfInt (intValue (components.headD [])) = 0
  first : ∀ components ∈ (linesOf response).head?, (recordOf components).isSome ∨
    components.length = 6 ∧ ∀ r ∈ (recordsOf response).head?, r.title = []
  large : ∀ r ∈ recordsOf response, 2 ^ 31 ≤ r.number →
    ∃ r' ∈ recordsOf response, r'.number + 1 = r.number

-- Numbers

def capped (n : Nat) : Nat := min n (2 ^ 31 - 1)

theorem capped_lt (n : Nat) : capped n < 2 ^ 32 := by
  rw [capped]
  omega

theorem not_isWhitespace_of_digit {c : UniChar} (h : (Xml.decimalDigit c).isSome) :
    isWhitespace c = false ∧ c ≠ uc '-' ∧ c ≠ uc '+' := by
  have hrange : uc '0' ≤ c ∧ c ≤ uc '9' := by
    by_contra hout
    rw [Xml.decimalDigit, if_neg (by simpa using hout)] at h
    cases h
  obtain ⟨hlow, hhigh⟩ := hrange
  have hlow : 48 ≤ c.toNat := hlow
  have hhigh : c.toNat ≤ 57 := hhigh
  refine ⟨?_, ?_, ?_⟩
  · simp only [isWhitespace, Bool.or_eq_false_iff, Bool.and_eq_false_iff, decide_eq_false_iff_not,
      beq_eq_false_iff_ne, ne_eq, UInt16.le_iff_toNat_le, ← UInt16.toNat_inj, UInt16.reduceToNat]
    omega
  · rintro rfl
    exact absurd hlow (by decide)
  · rintro rfl
    exact absurd hlow (by decide)

theorem intValue_of_numeral (h : numeral s = some n) : intValue s = capped n := by
  rw [numeral] at h
  split at h
  · rename_i hs
    obtain ⟨hne, hall⟩ := hs
    obtain rfl := Option.some.inj h
    obtain ⟨c, s, rfl⟩ := List.exists_cons_of_ne_nil hne
    rw [List.all_eq_true] at hall
    obtain ⟨hwhite, hminus, hplus⟩ := not_isWhitespace_of_digit (hall c List.mem_cons_self)
    have hdrop : (c :: s).dropWhile isWhitespace = c :: s :=
      List.dropWhile_cons_of_neg (by simp [hwhite])
    have htake : (c :: s).takeWhile (fun c => (Xml.decimalDigit c).isSome) = c :: s :=
      List.takeWhile_eq_self_iff.mpr fun d hd => hall d hd
    obtain ⟨d, hd⟩ := Option.isSome_iff_exists.mp (hall c List.mem_cons_self)
    rw [intValue, Xml.scanInt, hdrop]
    simp only [if_neg hminus, if_neg hplus, Xml.scanDigits, htake, List.filterMap_cons_some hd,
      Option.map_some, Option.getD_some, Option.bind_eq_bind, Option.bind_some, Option.pure_def,
      capped]
    omega
  · cases h

theorem unsignedOfInt_natCast (n : Nat) : unsignedOfInt n = UInt32.ofNat n := by
  have hmod : Int.toNat ((n : Int) % 2 ^ 32) = n % 2 ^ 32 := by omega
  rw [unsignedOfInt, hmod]
  exact UInt32.ofNat_mod_size

-- Lines

def datLines : Nat → List Record → List NSString
  | _, [] => []
  | number, r :: records =>
    List.replicate (r.number - (number + 1)) placeholderLine ++ r.datLine ::
      datLines r.number records

def writtenLines : Nat → List Record → List NSString
  | _, [] => []
  | number, r :: records =>
    List.replicate (capped r.number - (capped number + 1)) placeholderLine ++
      r.datLine :: writtenLines r.number records

theorem textOfLines_append : textOfLines (lines ++ lines') = textOfLines lines ++
    textOfLines lines' :=
  List.flatMap_append

theorem textOfLines_replicate :
    textOfLines (List.replicate n placeholderLine) =
      (List.replicate n (ns "<><><><>\n")).flatten := by
  rw [textOfLines, List.flatMap_replicate]
  rfl

theorem textOfLines_cons :
    textOfLines (line :: lines) = line ++ (uc '\n' :: textOfLines lines) := by
  rw [textOfLines, List.flatMap_cons, List.append_assoc]
  rfl

theorem textOfLines_datLine (r : Record) :
    textOfLines [r.datLine] = r.name ++ ns "<>" ++ r.mail ++ ns "<>" ++ (r.date ++ r.extra) ++
      ns "<>" ++ r.body ++ ns "<>\n" := by
  rw [textOfLines_cons, Record.datLine, List.append_assoc _ (ns "<>")]
  rfl

theorem recordOf_eq_some (h : recordOf components = some r) :
    ∃ number, numeral number = some r.number ∧
      components = [number, r.name, r.mail, r.date, r.body, r.title, r.idOrHost] := by
  unfold recordOf at h
  split at h
  · obtain ⟨n, hn, rfl⟩ := Option.map_eq_some_iff.mp h
    exact ⟨_, hn, rfl⟩
  · cases h

theorem toNat_capped (n : Nat) : (UInt32.ofNat (capped n)).toNat = capped n :=
  UInt32.toNat_ofNat_of_lt' (capped_lt n)

/-- Nothing is filled behind `NSNotFound`, where there is nothing to be filled. -/
theorem fillLines_capped (number n : Nat) (thread : NSString) :
    (if UInt32.ofNat (capped number) ≠ NSNotFound ∧
        UInt32.ofNat (capped number) + 1 ≠ UInt32.ofNat (capped n) then
      thread ++ fillLines (UInt32.ofNat (capped number) + 1) (UInt32.ofNat (capped n))
    else thread) =
      thread ++ textOfLines (List.replicate (capped n - (capped number + 1)) placeholderLine) := by
  have hle : capped number ≤ 2 ^ 31 - 1 := Nat.min_le_right _ _
  have hnext : (UInt32.ofNat (capped number) + 1).toNat = capped number + 1 := by
    rw [UInt32.toNat_add, toNat_capped]
    exact Nat.mod_eq_of_lt (show capped number + 1 < 2 ^ 32 by omega)
  rw [textOfLines_replicate]
  split
  · rw [fillLines, hnext, toNat_capped]
  · rename_i hnone
    have hempty : capped n - (capped number + 1) = 0 := by
      by_contra hgap
      refine hnone ⟨?_, ?_⟩
      · intro hnot
        have hnumber : capped number = 2 ^ 31 - 1 := by rw [← toNat_capped number, hnot]; rfl
        have hn : capped n ≤ 2 ^ 31 - 1 := Nat.min_le_right _ _
        omega
      · intro heq
        have hnext' := congrArg UInt32.toNat heq
        rw [hnext, toNat_capped] at hnext'
        omega
    rw [hempty, List.replicate_zero, List.flatten_nil, List.append_nil]

theorem capped_ne_zero (h : number < n) : UInt32.ofNat (capped n) ≠ 0 := by
  intro hzero
  have hzero := congrArg UInt32.toNat hzero
  rw [toNat_capped, capped] at hzero
  have hzero : min n (2 ^ 31 - 1) = 0 := hzero
  omega

theorem addDatLine_record (h : recordOf components = some r) (hnumber : number < r.number)
    (lines : List NSString) :
    addDatLine components (textOfLines lines) (UInt32.ofNat (capped number)) =
      .ok (textOfLines
        (lines ++ (List.replicate (capped r.number - (capped number + 1)) placeholderLine ++
        [r.datLine])), UInt32.ofNat (capped r.number)) := by
  obtain ⟨s, hs, rfl⟩ := recordOf_eq_some h
  have hindex : unsignedOfInt (intValue s) = UInt32.ofNat (capped r.number) := by
    rw [intValue_of_numeral hs, unsignedOfInt_natCast]
  have hextra : convertObjectsToExtraFields [s, r.name, r.mail, r.date, r.body,
    r.title, r.idOrHost] =
      .ok (r.date ++ r.extra) := by
    show (if r.idOrHost = [] then Except.ok r.date else _) = _
    rw [Record.extra]
    split
    · rw [List.append_nil]
    · rw [← List.append_assoc]
      rfl
  show (if unsignedOfInt (intValue s) = 0 then Except.ok _ else _) = _
  rw [hindex, if_neg (capped_ne_zero hnumber), fillLines_capped, hextra]
  refine congrArg Except.ok (Prod.ext ?_ rfl)
  rw [textOfLines_append, textOfLines_append, textOfLines_datLine, List.append_assoc]

theorem objectAtIndex_of_le (h : components.length ≤ i) :
    objectAtIndex components i = .error .range := by
  rw [objectAtIndex, List.getElem?_eq_none h]

theorem convertObjectsToExtraFields_short (h : components.length < 7) :
    convertObjectsToExtraFields components = .error .range := by
  rw [convertObjectsToExtraFields, objectAtIndex_of_le (Nat.le_of_lt_succ h)]
  cases objectAtIndex components 3 with
  | error e => cases e; rfl
  | ok date => rfl

/-- A line with fewer fields adds nothing, or it raises. -/
theorem addDatLine_short (hne : components ≠ []) (h : components.length < 7)
    (thread : NSString) (loadedCount : UInt32) :
    addDatLine components thread loadedCount =
      if unsignedOfInt (intValue (components.headD [])) = 0 then .ok (thread, loadedCount)
      else .error .range := by
  obtain ⟨number, rest, rfl⟩ := List.exists_cons_of_ne_nil hne
  show (if unsignedOfInt (intValue number) = 0 then Except.ok _ else _) = _
  rw [convertObjectsToExtraFields_short h]
  rfl

-- The loop

def parseComponents (state : Conversion) (components : List NSString) :
    Except NSException Conversion := do
  let (thread, parsedCount) ← addDatLine components state.thread state.parsedCount
  if state.titleParsed then pure ⟨thread, parsedCount, true⟩
  else
    let title ← objectAtIndex components 5
    pure ⟨if title = [] then thread else insertTitle title thread, parsedCount, true⟩

theorem parseHTML_eq (response : NSString) (loadedCount : UInt32) :
    parseHTML response [] loadedCount =
      ((linesOf response).foldlM parseComponents ⟨[], loadedCount, false⟩).map
      Conversion.thread := by
  rw [linesOf, List.foldlM_map, parseHTML]
  show Except.bind (List.foldlM parseLine _ _) _ = Except.map _ (List.foldlM parseLine _ _)
  cases List.foldlM parseLine ⟨[], loadedCount, false⟩
    (componentsSeparatedByString response (ns "\n")) <;> rfl

theorem ne_nil_of_mem_linesOf (h : components ∈ linesOf response) : components ≠ [] := by
  obtain ⟨line, -, rfl⟩ := List.mem_map.mp h
  exact Split.piecesFrom_ne_nil _ _ _

theorem parseComponents_ok (hne : components ≠ [])
    (h : parseComponents state components = .ok state') :
    (components.length < 7 → unsignedOfInt (intValue (components.headD [])) = 0) ∧
      (state.titleParsed = false → 6 ≤ components.length) := by
  rw [parseComponents] at h
  cases hadd : addDatLine components state.thread state.parsedCount with
  | error e =>
    rw [hadd] at h
    cases h
  | ok added =>
    refine ⟨?_, ?_⟩
    · intro hshort
      rw [addDatLine_short hne hshort] at hadd
      by_contra hzero
      rw [if_neg hzero] at hadd
      cases hadd
    · intro htitle
      by_contra hfew
      rw [hadd, htitle, objectAtIndex_of_le (show components.length ≤ 5 by omega)] at h
      cases h

theorem foldlM_parseComponents_ok {lines : List (List NSString)}
    (hne : ∀ components ∈ lines, components ≠ [])
    (h : lines.foldlM parseComponents state = .ok state') :
    ∀ components ∈ lines, components.length < 7 →
      unsignedOfInt (intValue (components.headD [])) = 0 := by
  induction lines generalizing state with
  | nil => simp
  | cons components lines ih =>
    rw [List.foldlM_cons] at h
    cases hstep : parseComponents state components with
    | error e =>
      rw [hstep] at h
      cases h
    | ok next =>
      rw [hstep] at h
      have hfirst := (parseComponents_ok (hne components List.mem_cons_self) hstep).1
      have hrest := ih (fun c hc => hne c (List.mem_cons_of_mem components hc)) h
      exact List.forall_mem_cons.mpr ⟨hfirst, hrest⟩

structure Increasing (number : Nat) (records : List Record) : Prop where
  increasing : (records.map Record.number).Pairwise (· < ·)
  greater : ∀ r ∈ records, number < r.number

theorem Increasing.tail (h : Increasing number (r :: records)) : Increasing r.number records := by
  have hincreasing := h.increasing
  rw [List.map_cons, List.pairwise_cons] at hincreasing
  exact ⟨hincreasing.2, fun r' hr' => hincreasing.1 r'.number (List.mem_map_of_mem hr')⟩

theorem Increasing.head_lt (h : Increasing number (r :: records)) : number < r.number :=
  h.greater r List.mem_cons_self

structure Numbered (number : Nat) (lines : List (List NSString)) : Prop where
  fields : ∀ components ∈ lines, components ≠ []
  form : ∀ components ∈ lines, components.length < 7 ∨ (recordOf components).isSome
  short : ∀ components ∈ lines, components.length < 7 →
    unsignedOfInt (intValue (components.headD [])) = 0
  records : Increasing number (lines.filterMap recordOf)

theorem Numbered.record (h : Numbered number (components :: lines))
    (hr : recordOf components = some r) : number < r.number ∧ Numbered r.number lines := by
  have hrecords := h.records
  rw [List.filterMap_cons_some hr] at hrecords
  refine ⟨hrecords.head_lt, ?_, ?_, ?_, hrecords.tail⟩
  · exact fun c hc => h.fields c (List.mem_cons_of_mem components hc)
  · exact fun c hc => h.form c (List.mem_cons_of_mem components hc)
  · exact fun c hc => h.short c (List.mem_cons_of_mem components hc)

theorem Numbered.other (h : Numbered number (components :: lines))
    (hr : recordOf components = none) : Numbered number lines := by
  refine ⟨?_, ?_, ?_, ?_⟩
  · exact fun c hc => h.fields c (List.mem_cons_of_mem components hc)
  · exact fun c hc => h.form c (List.mem_cons_of_mem components hc)
  · exact fun c hc => h.short c (List.mem_cons_of_mem components hc)
  · have hrecords := h.records
    rwa [List.filterMap_cons_none hr] at hrecords

theorem Numbered.addDatLine_other (h : Numbered number (components :: lines))
    (hr : recordOf components = none) (thread : NSString) (count : UInt32) :
    components.length < 7 ∧ addDatLine components thread count = .ok (thread, count) := by
  have hshort : components.length < 7 := by
    obtain hshort | hsome := h.form components List.mem_cons_self
    · exact hshort
    · rw [hr] at hsome
      cases hsome
  refine ⟨hshort, ?_⟩
  rw [addDatLine_short (h.fields components List.mem_cons_self) hshort,
    if_pos (h.short components List.mem_cons_self hshort)]

/-- Behind the first line every record adds its line and those that are missing. -/
theorem foldlM_parseComponents (h : Numbered number lines) (written : List NSString) :
    ∃ count, lines.foldlM parseComponents ⟨textOfLines written,
      UInt32.ofNat (capped number), true⟩ =
      .ok ⟨textOfLines (written ++ writtenLines number (lines.filterMap recordOf)),
        count, true⟩ := by
  induction lines generalizing number written with
  | nil =>
    refine ⟨UInt32.ofNat (capped number), ?_⟩
    rw [List.filterMap_nil, writtenLines, List.append_nil]
    rfl
  | cons components lines ih =>
    rw [List.foldlM_cons]
    cases hr : recordOf components with
    | none =>
      rw [parseComponents, (h.addDatLine_other hr _ _).2, List.filterMap_cons_none hr]
      exact ih (h.other hr) written
    | some r =>
      obtain ⟨hnumber, hrest⟩ := h.record hr
      obtain ⟨count, hfold⟩ := ih hrest (written ++
        (List.replicate (capped r.number - (capped number + 1)) placeholderLine ++ [r.datLine]))
      refine ⟨count, ?_⟩
      rw [parseComponents, addDatLine_record hr hnumber, List.filterMap_cons_some hr, writtenLines]
      simp only [List.append_assoc, List.singleton_append] at hfold ⊢
      exact hfold

theorem insertTitle_textOfLines (hline : uc '\n' ∉ line) (title : NSString)
    (lines : List NSString) :
    insertTitle title (textOfLines (line :: lines)) = textOfLines ((line ++ title) :: lines) := by
  have hall : ∀ c ∈ line, (c != uc '\n') = true := by
    intro c hc
    refine bne_iff_ne.mpr ?_
    rintro rfl
    exact hline hc
  rw [insertTitle, textOfLines_cons, if_pos (by simp), List.takeWhile_append_of_pos hall,
    List.dropWhile_append_of_pos hall, List.takeWhile_cons_of_neg (by simp),
    List.dropWhile_cons_of_neg (by simp), List.append_nil, textOfLines_cons]

theorem newline_not_mem_of_linesOf (h : components ∈ linesOf response) :
    ∀ field ∈ components, uc '\n' ∉ field := by
  obtain ⟨line, hline, rfl⟩ := List.mem_map.mp h
  intro field hfield hmem
  refine Split.not_infix_of_mem_pieces (by decide) hline ?_
  exact (List.singleton_infix_iff _ _).mpr (Split.subset_of_mem_pieces (by decide) hfield hmem)

end BathyScaphe.Host
