import Mathlib.Algebra.Order.Field.Rat
import Mathlib.Algebra.Order.Ring.Cast
import Mathlib.Tactic.FieldSimp
import Mathlib.Tactic.Ring
import BathyScaphe.Lib.Like

/-!
# The text of a WHERE clause

The fragment of SQL with `AND`, `OR`, parentheses, `LIKE`, `NOT LIKE` and the
comparison of a column with a number: its tokens, its grammar and its meaning.
A lexer reads the text one character at a time; a quote inside a string literal
is written twice.
-/

structure Decimal where
  negative : Bool
  whole : Nat
  fraction : List (Fin 10)
  deriving DecidableEq

namespace Decimal

def ofInt (n : Int) : Decimal := ⟨decide (n < 0), n.natAbs, []⟩

def magnitude (d : Decimal) : ℚ :=
  d.whole + d.fraction.foldr (fun digit r => ((digit.val : ℚ) + r) / 10) 0

def value (d : Decimal) : ℚ := if d.negative then -d.magnitude else d.magnitude

def fractionText (d : Decimal) : List Char := d.fraction.map fun digit => digit.val.digitChar

def text (d : Decimal) : List Char :=
  (if d.negative then ['-'] else []) ++ Nat.toDigits 10 d.whole ++
    if d.fraction = [] then [] else '.' :: d.fractionText

@[simp] theorem value_ofInt (n : Int) : (ofInt n).value = n := by
  have hmagnitude : (ofInt n).magnitude = |(n : ℚ)| := by
    rw [← Int.cast_abs, Int.abs_eq_natAbs]
    exact add_zero _
  unfold value
  rw [hmagnitude]
  by_cases hn : n < 0
  · have hnegative : (ofInt n).negative = true := decide_eq_true hn
    rw [if_pos hnegative, abs_of_neg (Int.cast_lt_zero.mpr hn), neg_neg]
  · have hnegative : ¬ (ofInt n).negative = true := by simpa [ofInt] using hn
    rw [if_neg hnegative, abs_of_nonneg (Int.cast_nonneg (not_lt.mp hn))]

end Decimal

namespace Where

inductive Token
  | word (s : List Char)
  | string (s : List Char)
  | number (whole fraction : List Char)
  | minus | lparen | rparen | lt | gt | eq | ne | and | or | not | like
  deriving DecidableEq

def isWordChar (c : Char) : Bool := c.isAlpha || c.isDigit || c = '_'

def wordToken (s : List Char) : Token :=
  if s = ['A', 'N', 'D'] then .and
  else if s = ['O', 'R'] then .or
  else if s = ['N', 'O', 'T'] then .not
  else if s = ['L', 'I', 'K', 'E'] then .like
  else .word s

/-- What the lexer is in the middle of; the characters read so far, last one first. -/
inductive Mode
  | blank
  | word (read : List Char)
  | whole (read : List Char)
  | fraction (whole read : List Char)
  | string (read : List Char)
  | quote (read : List Char)
  | bang

def opening (c : Char) : Option (List Token × Mode) :=
  if c = ' ' then some ([], .blank)
  else if c = '(' then some ([.lparen], .blank)
  else if c = ')' then some ([.rparen], .blank)
  else if c = '<' then some ([.lt], .blank)
  else if c = '>' then some ([.gt], .blank)
  else if c = '=' then some ([.eq], .blank)
  else if c = '-' then some ([.minus], .blank)
  else if c = '!' then some ([], .bang)
  else if c = '\'' then some ([], .string [])
  else if c.isDigit then some ([], .whole [c])
  else if isWordChar c then some ([], .word [c])
  else none

def openingAfter (t : Token) (c : Char) : Option (List Token × Mode) :=
  (opening c).map fun (ts, m) => (t :: ts, m)

def step : Mode → Char → Option (List Token × Mode)
  | .blank, c => opening c
  | .word read, c =>
    if isWordChar c then some ([], .word (c :: read)) else openingAfter (wordToken read.reverse) c
  | .whole read, c =>
    if c.isDigit then some ([], .whole (c :: read))
    else if c = '.' then some ([], .fraction read.reverse [])
    else openingAfter (.number read.reverse []) c
  | .fraction whole read, c =>
    if c.isDigit then some ([], .fraction whole (c :: read))
    else openingAfter (.number whole read.reverse) c
  | .string read, c => some ([], if c = '\'' then .quote read else .string (c :: read))
  | .quote read, c =>
    -- a second quote belongs to the string, anything else ended it
    if c = '\'' then some ([], .string ('\'' :: read)) else openingAfter (.string read.reverse) c
  | .bang, c => if c = '=' then some ([.ne], .blank) else none

def finish : Mode → Option (List Token)
  | .blank => some []
  | .word read => some [wordToken read.reverse]
  | .whole read => some [.number read.reverse []]
  | .fraction whole read => some [.number whole read.reverse]
  | .quote read => some [.string read.reverse]
  | .string _ => none
  | .bang => none

def emit (ts : List Token) (r : Option (List Token)) : Option (List Token) := r.map (ts ++ ·)

def lexFrom : Mode → List Char → Option (List Token)
  | m, [] => finish m
  | m, c :: text =>
    match step m c with
    | some (ts, m') => emit ts (lexFrom m' text)
    | none => none

def lex (text : List Char) : Option (List Token) := lexFrom .blank text

inductive Comparison
  | lt | gt | eq | ne
  deriving DecidableEq

def Comparison.holds (x : ℚ) : Comparison → ℚ → Bool
  | .lt, v => x < v
  | .gt, v => v < x
  | .eq, v => x = v
  | .ne, v => x ≠ v

def Comparison.token : Comparison → Token
  | .lt => .lt
  | .gt => .gt
  | .eq => .eq
  | .ne => .ne

def Comparison.sign : Comparison → List Char
  | .lt => " < ".toList
  | .gt => " > ".toList
  | .eq => " = ".toList
  | .ne => " != ".toList

inductive Expr
  | like (negated : Bool) (column pattern : List Char)
  | compare (column : List Char) (op : Comparison) (v : ℚ)
  | and (e e' : Expr)
  | or (e e' : Expr)

def comparison : Token → Option Comparison
  | .lt => some .lt
  | .gt => some .gt
  | .eq => some .eq
  | .ne => some .ne
  | _ => none

def numberValue (whole fraction : List Char) : ℚ :=
  Nat.ofDigitChars 10 whole 0 + Nat.ofDigitChars 10 fraction 0 / 10 ^ fraction.length

def literal : List Token → Option (ℚ × List Token)
  | .number whole fraction :: ts => some (numberValue whole fraction, ts)
  | .minus :: .number whole fraction :: ts => some (-numberValue whole fraction, ts)
  | _ => none

inductive Level
  | or | and | atom

def parseAt : Nat → Level → List Token → Option (Expr × List Token)
  | 0, _, _ => none
  | n + 1, .or, ts =>
    match parseAt n .and ts with
    | some (e, .or :: ts') => (parseAt n .or ts').map fun (e', rest) => (.or e e', rest)
    | r => r
  | n + 1, .and, ts =>
    match parseAt n .atom ts with
    | some (e, .and :: ts') => (parseAt n .and ts').map fun (e', rest) => (.and e e', rest)
    | r => r
  | n + 1, .atom, ts =>
    match ts with
    | .lparen :: ts =>
      match parseAt n .or ts with
      | some (e, .rparen :: ts) => some (e, ts)
      | _ => none
    | .word column :: .like :: .string pattern :: ts => some (.like false column pattern, ts)
    | .word column :: .not :: .like :: .string pattern :: ts => some (.like true column pattern, ts)
    | .word column :: t :: ts =>
      match comparison t, literal ts with
      | some op, some (v, rest) => some (.compare column op v, rest)
      | _, _ => none
    | _ => none

/-- Every level reads a token before it comes round to itself again. -/
def enoughFuel (ts : List Token) : Nat := 3 * ts.length

def parse (ts : List Token) : Option Expr :=
  match parseAt (enoughFuel ts) .or ts with
  | some (e, []) => some e
  | _ => none

/-- The columns of a row; a name that is none of them has no value. -/
structure Columns where
  text : List Char → Option (List Char)
  number : List Char → Option ℚ

def eval (w : Wildcards Char Char) (row : Columns) : Expr → Bool
  | .like negated column pattern =>
    match row.text column with
    | some s => w.like pattern s != negated
    | none => false
  | .compare column op v =>
    match row.number column with
    | some x => op.holds x v
    | none => false
  | .and e e' => eval w row e && eval w row e'
  | .or e e' => eval w row e || eval w row e'

def selects (w : Wildcards Char Char) (text : List Char) (row : Columns) : Bool :=
  match (lex text).bind parse with
  | some e => eval w row e
  | none => false

-- Reading a text back

@[simp] theorem emit_nil (r : Option (List Token)) : emit [] r = r := by
  cases r <;> rfl

@[simp] theorem emit_emit (ts ts' : List Token) (r : Option (List Token)) :
    emit ts (emit ts' r) = emit (ts ++ ts') r := by
  cases r with
  | none => rfl
  | some us => simp [emit]

/-- Before what satisfies `B`, the text `s` is read as the tokens `ts`. -/
def Lexes (B : List Char → Prop) (s : List Char) (ts : List Token) : Prop :=
  ∀ rest, B rest → lexFrom .blank (s ++ rest) = emit ts (lexFrom .blank rest)

def breaks (c : Char) : Bool := !isWordChar c && c ≠ '.' && c ≠ '\''

/-- What follows ends a word, a number or a string. -/
def Breaks (rest : List Char) : Prop := ∀ c ∈ rest.head?, breaks c

def Anything (_ : List Char) : Prop := True

theorem breaks_cons {c : Char} {rest : List Char} (h : breaks c) : Breaks (c :: rest) := by
  rintro d hd
  obtain rfl := Option.some.inj hd
  exact h

theorem Lexes.append {B B' : List Char → Prop} {s s' : List Char} {ts ts' : List Token}
    (h : Lexes B s ts) (h' : Lexes B' s' ts') (hB : ∀ rest, B' rest → B (s' ++ rest)) :
    Lexes B' (s ++ s') (ts ++ ts') := by
  intro rest hrest
  rw [List.append_assoc, h _ (hB rest hrest), h' rest hrest, emit_emit]

theorem Lexes.joined {s word s' : List Char} {ts ts' : List Token} {t : Token}
    (h : Lexes Breaks s ts) (hword : Lexes Anything word [t])
    (hbreaks : ∀ rest, Breaks (word ++ rest)) (h' : Lexes Breaks s' ts') :
    Lexes Breaks (s ++ word ++ s') (ts ++ t :: ts') := by
  rw [List.append_cons]
  exact (h.append hword fun rest _ => hbreaks rest).append h' fun _ _ => trivial

theorem Lexes.lex {B : List Char → Prop} {s : List Char} {ts : List Token} (h : Lexes B s ts)
    (hB : B []) : lex s = some ts := by
  have hs := h [] hB
  rw [List.append_nil] at hs
  unfold Where.lex
  simpa [lexFrom, finish, emit] using hs

theorem lexFrom_ended {m : Mode} {t : Token} {rest : List Char} (hfinish : finish m = some [t])
    (hstep : ∀ c, breaks c → step m c = openingAfter t c) (hrest : Breaks rest) :
    lexFrom m rest = emit [t] (lexFrom .blank rest) := by
  cases rest with
  | nil => exact hfinish
  | cons c rest =>
    have hblank : step .blank c = opening c := rfl
    rw [lexFrom, lexFrom, hstep c (hrest c rfl), hblank]
    unfold openingAfter
    cases opening c with
    | none => rfl
    | some r => simp

theorem not_isWordChar_of_breaks {c : Char} (h : breaks c) : isWordChar c = false := by
  simp only [breaks, Bool.and_eq_true, Bool.not_eq_true'] at h
  exact h.1.1

theorem not_isDigit_of_breaks {c : Char} (h : breaks c) : c.isDigit = false := by
  have hword := not_isWordChar_of_breaks h
  simp only [isWordChar, Bool.or_eq_false_iff] at hword
  exact hword.1.2

theorem ne_dot_of_breaks {c : Char} (h : breaks c) : c ≠ '.' := by
  simp only [breaks, Bool.and_eq_true, decide_eq_true_eq] at h
  exact h.1.2

theorem ne_quote_of_breaks {c : Char} (h : breaks c) : c ≠ '\'' := by
  simp only [breaks, Bool.and_eq_true, decide_eq_true_eq] at h
  exact h.2

theorem lexFrom_word {read s rest : List Char} (hs : ∀ c ∈ s, isWordChar c) (hrest : Breaks rest) :
    lexFrom (.word read) (s ++ rest) =
      emit [wordToken (read.reverse ++ s)] (lexFrom .blank rest) := by
  induction s generalizing read with
  | nil =>
    rw [List.nil_append, List.append_nil]
    refine lexFrom_ended rfl (fun c hc => ?_) hrest
    simp [step, not_isWordChar_of_breaks hc]
  | cons c s ih =>
    have hc := hs c List.mem_cons_self
    simp only [List.cons_append, lexFrom, step, hc, if_true, emit_nil]
    rw [ih fun d hd => hs d (List.mem_cons_of_mem _ hd)]
    simp

theorem isAlpha_eq (c : Char) :
    c.isAlpha = (decide (c.val ≥ 'A'.val ∧ c.val ≤ 'Z'.val) ||
      (decide (c.val ≥ 'a'.val) && decide (c.val ≤ 'z'.val))) :=
  rfl

theorem not_isDigit_of_isAlpha {c : Char} (h : c.isAlpha) : c.isDigit = false := by
  simp only [isAlpha_eq, Char.isDigit, Bool.or_eq_true, Bool.and_eq_true, decide_eq_true_eq,
    Bool.and_eq_false_iff, decide_eq_false_iff_not, ge_iff_le, UInt32.le_iff_toNat_le] at h ⊢
  have h0 : '0'.val.toNat = 48 := rfl
  have h9 : '9'.val.toNat = 57 := rfl
  have hA : 'A'.val.toNat = 65 := rfl
  have ha : 'a'.val.toNat = 97 := rfl
  omega

theorem lexes_word {c : Char} {s : List Char} (hc : c.isAlpha) (hs : ∀ c ∈ s, isWordChar c) :
    Lexes Breaks (c :: s) [wordToken (c :: s)] := by
  intro rest hrest
  have hopening : opening c = some ([], .word [c]) := by
    have hdigit : c.isDigit = false := not_isDigit_of_isAlpha hc
    have hne : ∀ d : Char, d.isAlpha = false → c ≠ d := by
      rintro d hd rfl
      rw [hd] at hc
      cases hc
    have hword : isWordChar c := by simp [isWordChar, hc]
    simp [opening, hne _ (by decide : (' ').isAlpha = false), hne '(' (by decide),
      hne ')' (by decide),
      hne '<' (by decide), hne '>' (by decide), hne '=' (by decide), hne '-' (by decide),
      hne '!' (by decide), hne '\'' (by decide), hdigit, hword]
  simp only [List.cons_append, lexFrom, step, hopening, emit_nil]
  rw [lexFrom_word hs hrest]
  simp

def escape : List Char → List Char
  | [] => []
  | c :: s => if c = '\'' then '\'' :: '\'' :: escape s else c :: escape s

theorem escape_append (s s' : List Char) : escape (s ++ s') = escape s ++ escape s' := by
  induction s with
  | nil => rfl
  | cons c s ih =>
    simp only [List.cons_append, escape, ih]
    split <;> rfl

theorem lexFrom_string {read s rest : List Char} (hrest : Breaks rest) :
    lexFrom (.string read) (escape s ++ '\'' :: rest) =
      emit [.string (read.reverse ++ s)] (lexFrom .blank rest) := by
  induction s generalizing read with
  | nil =>
    have hended : lexFrom (.quote read) rest = emit [.string read.reverse]
      (lexFrom .blank rest) := by
      refine lexFrom_ended rfl (fun c hc => ?_) hrest
      simp [step, ne_quote_of_breaks hc]
    simp [escape, lexFrom, step, hended]
  | cons c s ih =>
    by_cases hc : c = '\''
    · subst hc
      simp [escape, lexFrom, step, ih]
    · simp [escape, hc, lexFrom, step, ih]

theorem lexes_string (s : List Char) : Lexes Breaks ('\'' :: escape s ++ ['\'']) [.string s] := by
  intro rest hrest
  have hstring : lexFrom (.string []) (escape s ++ '\'' :: rest) = _ := lexFrom_string hrest
  simpa [lexFrom, step, opening] using hstring

def numberTokens (d : Decimal) : List Token :=
  (if d.negative then [.minus] else []) ++ [.number (Nat.toDigits 10 d.whole) d.fractionText]

theorem opening_of_isDigit {c : Char} (h : c.isDigit) : opening c = some ([], .whole [c]) := by
  have hne : ∀ d : Char, d.isDigit = false → c ≠ d := by
    rintro d hd rfl
    rw [hd] at h
    cases h
  simp [opening, hne ' ' (by decide), hne '(' (by decide), hne ')' (by decide), hne '<' (by decide),
    hne '>' (by decide), hne '=' (by decide), hne '-' (by decide), hne '!' (by decide),
    hne '\'' (by decide), h]

theorem lexFrom_fraction {whole read s rest : List Char} (hs : ∀ c ∈ s, c.isDigit)
    (hrest : Breaks rest) :
    lexFrom (.fraction whole read) (s ++ rest) =
      emit [.number whole (read.reverse ++ s)] (lexFrom .blank rest) := by
  induction s generalizing read with
  | nil =>
    rw [List.nil_append, List.append_nil]
    refine lexFrom_ended rfl (fun c hc => ?_) hrest
    simp [step, not_isDigit_of_breaks hc]
  | cons c s ih =>
    have hc := hs c List.mem_cons_self
    simp only [List.cons_append, lexFrom, step, hc, if_true, emit_nil]
    rw [ih fun d hd => hs d (List.mem_cons_of_mem _ hd)]
    simp

theorem lexFrom_whole {read s rest : List Char} (hs : ∀ c ∈ s, c.isDigit) :
    lexFrom (.whole read) (s ++ rest) = lexFrom (.whole (s.reverse ++ read)) rest := by
  induction s generalizing read with
  | nil => rfl
  | cons c s ih =>
    have hc := hs c List.mem_cons_self
    simp only [List.cons_append, lexFrom, step, hc, if_true, emit_nil]
    rw [ih fun d hd => hs d (List.mem_cons_of_mem _ hd)]
    simp

theorem isDigit_of_mem_fractionText {d : Decimal} {c : Char} (h : c ∈ d.fractionText) :
    c.isDigit := by
  obtain ⟨digit, -, rfl⟩ := List.mem_map.mp h
  rw [Nat.isDigit_digitChar]
  exact decide_eq_true digit.isLt

theorem lexes_magnitude (d : Decimal) :
    Lexes Breaks (Nat.toDigits 10 d.whole ++ if d.fraction = [] then [] else '.' :: d.fractionText)
      [.number (Nat.toDigits 10 d.whole) d.fractionText] := by
  intro rest hrest
  have hdigits : ∀ c ∈ Nat.toDigits 10 d.whole, c.isDigit := fun c hc =>
    Nat.isDigit_of_mem_toDigits (by decide) (by decide) hc
  have hne := Nat.toDigits_ne_nil (n := d.whole) (b := 10)
  revert hdigits hne
  generalize Nat.toDigits 10 d.whole = digits
  intro hdigits hne
  cases digits with
  | nil => exact absurd rfl hne
  | cons c digits =>
    have hc := hdigits c List.mem_cons_self
    rw [List.append_assoc, List.cons_append]
    simp only [lexFrom, step, opening_of_isDigit hc, emit_nil]
    rw [lexFrom_whole fun d hd => hdigits d (List.mem_cons_of_mem _ hd)]
    by_cases hfraction : d.fraction = []
    · have htext : d.fractionText = [] := by
        unfold Decimal.fractionText
        rw [hfraction]
        rfl
      rw [if_pos hfraction, htext, List.nil_append]
      refine lexFrom_ended (by simp [finish]) (fun c hc => ?_) hrest
      simp [step, not_isDigit_of_breaks hc, ne_dot_of_breaks hc]
    · rw [if_neg hfraction]
      have hdot : ('.' : Char).isDigit = false := rfl
      simp only [List.cons_append, lexFrom, step, hdot]
      have hread : lexFrom (.fraction (c :: digits) []) (d.fractionText ++ rest) = _ :=
        lexFrom_fraction (fun e he => isDigit_of_mem_fractionText he) hrest
      simpa using hread

theorem lexes_number (d : Decimal) : Lexes Breaks d.text (numberTokens d) := by
  intro rest hrest
  unfold Decimal.text numberTokens
  have h := lexes_magnitude d rest hrest
  cases d.negative with
  | false => simpa using h
  | true =>
    simp only [if_true, List.append_assoc, List.cons_append, List.nil_append] at h ⊢
    rw [lexFrom]
    simp [step, opening, h]

theorem ofDigitChars_fractionText (digits : List (Fin 10)) :
    (Nat.ofDigitChars 10 (digits.map fun digit => digit.val.digitChar) 0 : ℚ) / 10 ^ digits.length =
      digits.foldr (fun digit r => ((digit.val : ℚ) + r) / 10) 0 := by
  induction digits with
  | nil => simp
  | cons digit digits ih =>
    rw [List.map_cons, Nat.ofDigitChars_cons_digitChar_of_lt_ten digit.isLt,
      Nat.ofDigitChars_eq_ofDigitChars_zero, List.foldr_cons, ← ih]
    simp only [List.length_map, List.length_cons]
    push_cast
    field_simp
    ring

theorem literal_numberTokens (d : Decimal) (ts : List Token) :
    literal (numberTokens d ++ ts) = some (d.value, ts) := by
  have hvalue : numberValue (Nat.toDigits 10 d.whole) d.fractionText = d.magnitude := by
    unfold numberValue Decimal.magnitude Decimal.fractionText
    rw [Nat.ofDigitChars_ten_toDigits, List.length_map, ofDigitChars_fractionText]
  unfold numberTokens Decimal.value
  cases d.negative with
  | false => simp [literal, hvalue]
  | true => simp [literal, hvalue]

-- Parsing tokens back

def fuelAt : Level → List Token → Nat
  | .or, ts => 3 * ts.length
  | .and, ts => 3 * ts.length - 1
  | .atom, ts => 3 * ts.length - 2

def Stops : Level → List Token → Prop
  | .or, rest => rest.head? ≠ some .and ∧ rest.head? ≠ some .or
  | .and, rest => rest.head? ≠ some .and
  | .atom, _ => True

structure Parses (l : Level) (ts : List Token) (e : Expr) : Prop where
  pos : 0 < ts.length
  parseAt_eq : ∀ n rest, fuelAt l ts ≤ n → Stops l rest → parseAt n l (ts ++ rest) = some (e, rest)

variable {ts ts' : List Token} {e e' : Expr}

theorem parseAt_and_stop {n : Nat} {rest : List Token} (h : parseAt n .atom ts = some (e, rest))
    (hrest : rest.head? ≠ some .and) : parseAt (n + 1) .and ts = some (e, rest) := by
  rw [parseAt, h]
  split
  · rename_i hsome
    obtain ⟨-, rfl⟩ := Prod.mk.inj (Option.some.inj hsome)
    exact absurd rfl hrest
  · rfl

theorem parseAt_or_stop {n : Nat} {rest : List Token} (h : parseAt n .and ts = some (e, rest))
    (hrest : rest.head? ≠ some .or) : parseAt (n + 1) .or ts = some (e, rest) := by
  rw [parseAt, h]
  split
  · rename_i hsome
    obtain ⟨-, rfl⟩ := Prod.mk.inj (Option.some.inj hsome)
    exact absurd rfl hrest
  · rfl

namespace Parses

theorem atom_and (h : Parses .atom ts e) : Parses .and ts e := by
  refine ⟨h.pos, fun n rest hn hrest => ?_⟩
  have hpos := h.pos
  simp only [fuelAt] at hn
  obtain ⟨n, rfl⟩ : ∃ m, n = m + 1 := ⟨n - 1, by omega⟩
  refine parseAt_and_stop (h.parseAt_eq n rest ?_ trivial) hrest
  simp only [fuelAt]
  omega

theorem and_or (h : Parses .and ts e) : Parses .or ts e := by
  refine ⟨h.pos, fun n rest hn hrest => ?_⟩
  have hpos := h.pos
  simp only [fuelAt] at hn
  obtain ⟨n, rfl⟩ : ∃ m, n = m + 1 := ⟨n - 1, by omega⟩
  refine parseAt_or_stop (h.parseAt_eq n rest ?_ hrest.1) hrest.2
  simp only [fuelAt]
  omega

theorem and (h : Parses .atom ts e) (h' : Parses .and ts' e') :
    Parses .and (ts ++ .and :: ts') (.and e e') := by
  refine ⟨by simp, fun n rest hn hrest => ?_⟩
  have hpos := h.pos
  simp only [fuelAt, List.length_append, List.length_cons] at hn
  obtain ⟨n, rfl⟩ : ∃ m, n = m + 1 := ⟨n - 1, by omega⟩
  rw [List.append_assoc, List.cons_append, parseAt,
    h.parseAt_eq n _ (by simp only [fuelAt]; omega) trivial]
  simp only
  rw [h'.parseAt_eq n rest (by simp only [fuelAt]; omega) hrest]
  rfl

theorem or (h : Parses .and ts e) (h' : Parses .or ts' e') :
    Parses .or (ts ++ .or :: ts') (.or e e') := by
  refine ⟨by simp, fun n rest hn hrest => ?_⟩
  have hpos := h.pos
  simp only [fuelAt, List.length_append, List.length_cons] at hn
  obtain ⟨n, rfl⟩ : ∃ m, n = m + 1 := ⟨n - 1, by omega⟩
  rw [List.append_assoc, List.cons_append, parseAt,
    h.parseAt_eq n _ (by simp only [fuelAt]; omega) (by simp [Stops])]
  simp only
  rw [h'.parseAt_eq n rest (by simp only [fuelAt]; omega) hrest]
  rfl

theorem paren (h : Parses .or ts e) : Parses .atom (.lparen :: ts ++ [.rparen]) e := by
  refine ⟨by simp, fun n rest hn _ => ?_⟩
  simp only [fuelAt, List.length_append, List.length_cons, List.length_nil] at hn
  obtain ⟨n, rfl⟩ : ∃ m, n = m + 1 := ⟨n - 1, by omega⟩
  rw [List.cons_append, List.cons_append, List.append_assoc, parseAt,
    h.parseAt_eq n _ (by simp only [fuelAt]; omega) (by simp [Stops])]
  rfl

theorem parse (h : Parses .or ts e) : parse ts = some e := by
  have hts := h.parseAt_eq (enoughFuel ts) [] le_rfl (by simp [Stops])
  unfold Where.parse
  rw [List.append_nil] at hts
  rw [hts]

theorem like (column pattern : List Char) :
    Parses .atom [.word column, .like, .string pattern] (.like false column pattern) := by
  refine ⟨by simp, fun n rest hn _ => ?_⟩
  obtain ⟨n, rfl⟩ : ∃ m, n = m + 1 := ⟨n - 1, by simp only [fuelAt, List.length] at hn; omega⟩
  rfl

theorem notLike (column pattern : List Char) :
    Parses .atom [.word column, .not, .like, .string pattern] (.like true column pattern) := by
  refine ⟨by simp, fun n rest hn _ => ?_⟩
  obtain ⟨n, rfl⟩ : ∃ m, n = m + 1 := ⟨n - 1, by simp only [fuelAt, List.length] at hn; omega⟩
  rfl

theorem compare (column : List Char) (op : Comparison) (d : Decimal) :
    Parses .atom (.word column :: op.token :: numberTokens d) (.compare column op d.value) := by
  refine ⟨by simp, fun n rest hn _ => ?_⟩
  obtain ⟨n, rfl⟩ : ∃ m, n = m + 1 :=
    ⟨n - 1, by simp only [fuelAt, List.length_cons] at hn; omega⟩
  have hliteral := literal_numberTokens d rest
  rw [List.cons_append, List.cons_append]
  cases op <;> simp [parseAt, comparison, Comparison.token, hliteral]

end Parses

/-- The text `s`, ended by what follows, is the expression `e` at the level. -/
def Reads (l : Level) (s : List Char) (e : Expr) : Prop := ∃ ts, Lexes Breaks s ts ∧ Parses l ts e

namespace Reads

variable {s s' : List Char}

theorem atom_and (h : Reads .atom s e) : Reads .and s e := by
  obtain ⟨ts, hlex, hparse⟩ := h
  exact ⟨ts, hlex, hparse.atom_and⟩

theorem and_or (h : Reads .and s e) : Reads .or s e := by
  obtain ⟨ts, hlex, hparse⟩ := h
  exact ⟨ts, hlex, hparse.and_or⟩

theorem paren (h : Reads .or s e) : Reads .atom ("(".toList ++ s ++ ")".toList) e := by
  obtain ⟨ts, hlex, hparse⟩ := h
  have hopen : Lexes Anything "(".toList [.lparen] := fun rest _ => by simp [lexFrom, step, opening]
  have hclose : Lexes Breaks ")".toList [.rparen] := fun rest _ => by simp [lexFrom, step, opening]
  exact ⟨_, (hopen.append hlex fun _ _ => trivial).append hclose fun _ _ =>
    breaks_cons rfl, hparse.paren⟩

theorem and (h : Reads .atom s e) (h' : Reads .and s' e') :
    Reads .and (s ++ " AND ".toList ++ s') (.and e e') := by
  obtain ⟨ts, hlex, hparse⟩ := h
  obtain ⟨ts', hlex', hparse'⟩ := h'
  have hand : Lexes Anything " AND ".toList [.and] := fun rest _ => by
    simp [lexFrom, step, opening, isWordChar, Char.isDigit, isAlpha_eq, openingAfter, wordToken]
  exact ⟨_, hlex.joined hand (fun _ => breaks_cons rfl) hlex', hparse.and hparse'⟩

theorem or (h : Reads .and s e) (h' : Reads .or s' e') :
    Reads .or (s ++ " OR ".toList ++ s') (.or e e') := by
  obtain ⟨ts, hlex, hparse⟩ := h
  obtain ⟨ts', hlex', hparse'⟩ := h'
  have hor : Lexes Anything " OR ".toList [.or] := fun rest _ => by
    simp [lexFrom, step, opening, isWordChar, Char.isDigit, isAlpha_eq, openingAfter, wordToken]
  exact ⟨_, hlex.joined hor (fun _ => breaks_cons rfl) hlex', hparse.or hparse'⟩

variable {column : List Char} (hcolumn : Lexes Breaks column [.word column])
include hcolumn

theorem like (pattern : List Char) :
    Reads .atom (column ++ " LIKE ".toList ++ ('\'' :: escape pattern ++ ['\'']))
      (.like false column pattern) := by
  have hlike : Lexes Anything " LIKE ".toList [.like] := fun rest _ => by
    simp [lexFrom, step, opening, isWordChar, Char.isDigit, isAlpha_eq, openingAfter, wordToken]
  exact ⟨_, (hcolumn.append hlike fun _ _ => breaks_cons rfl).append (lexes_string pattern)
    fun _ _ => trivial, .like column pattern⟩

theorem notLike (pattern : List Char) :
    Reads .atom (column ++ " NOT LIKE ".toList ++ ('\'' :: escape pattern ++ ['\'']))
      (.like true column pattern) := by
  have hlike : Lexes Anything " NOT LIKE ".toList [.not, .like] := fun rest _ => by
    simp [lexFrom, step, opening, isWordChar, Char.isDigit, isAlpha_eq, openingAfter, wordToken]
  exact ⟨_, (hcolumn.append hlike fun _ _ => breaks_cons rfl).append (lexes_string pattern)
    fun _ _ => trivial, .notLike column pattern⟩

theorem compare (op : Comparison) (d : Decimal) :
    Reads .atom (column ++ op.sign ++ d.text) (.compare column op d.value) := by
  have hsign : Lexes Anything op.sign [op.token] := by
    intro rest _
    cases op <;> simp [Comparison.sign, Comparison.token, lexFrom, step, opening]
  have hbreaks : ∀ rest, Breaks (op.sign ++ rest) := by
    intro rest
    cases op <;> exact breaks_cons rfl
  exact ⟨_, (hcolumn.append hsign fun _ _ => hbreaks _).append (lexes_number d) fun _ _ => trivial,
    .compare column op d⟩

end Reads

theorem selects_eq {s : List Char} (h : Reads .or s e) (w : Wildcards Char Char) (row : Columns) :
    selects w s row = eval w row e := by
  obtain ⟨ts, hlex, hparse⟩ := h
  have hnil : Breaks [] := fun c hc => nomatch hc
  unfold selects
  rw [hlex.lex hnil, Option.bind_some, hparse.parse]

end Where
