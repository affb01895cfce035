import Mathlib.Data.List.Basic
import Mathlib.Data.Int.Order.Basic
import Mathlib.Algebra.Group.Int.Defs
import Mathlib.Algebra.Group.Nat.Defs

/-!
# Escaping bytes for URLs

`SGURLEscape` and `SGURLUnescape` write into a buffer at an index of type `int` while sizes are
of type `size_t`. A write outside of the buffer, an overflow of `int` and a byte that is read
behind the end of the string have no result. `size_t` has 64 bits here: what fits into `int`
fits into 32 bits as well.

The set of characters that stay as they are is searched with `strchr`, to which the zero byte
is in every string, and an escape is read with `sscanf`, which does not know where the string
ends. -/

namespace BathyScaphe.URLEscape

def ch (c : Char) : UInt8 := UInt8.ofNat c.toNat

def INT_MAX : Nat := 2 ^ 31 - 1

def isalnum (c : UInt8) : Bool :=
  (ch '0' ≤ c && c ≤ ch '9') || (ch 'A' ≤ c && c ≤ ch 'Z') || (ch 'a' ≤ c && c ≤ ch 'z')

def strchr (s : List UInt8) (c : UInt8) : Bool := (s ++ [0]).contains c

def unescapeString : List UInt8 := [ch '*', ch '-', ch '.', ch '_']

def isSymbolToBeUnescaped (c : UInt8) : Bool := isalnum c || strchr unescapeString c

def hexDigit (n : Nat) : UInt8 := UInt8.ofNat (if n < 10 then 48 + n else 55 + n)

def escape (c : UInt8) : List UInt8 := [ch '%', hexDigit (c.toNat / 16), hexDigit (c.toNat % 16)]

def toSize (n : Int) : Nat := (n % 2 ^ 64).toNat

/-- The loop with the size of the buffer, `newlen` and the bytes in front of `index`. The three
bytes of an escape are followed by the end of a string. -/
def escapeLoop : List UInt8 → Nat → Int → List UInt8 → Option (List UInt8)
  | [], allocsize, _, ns => if ns.length + 1 ≤ allocsize then some ns else none
  | c :: p, allocsize, newlen, ns =>
    if isSymbolToBeUnescaped c then
      if ns.length + 1 ≤ allocsize ∧ ns.length + 1 ≤ INT_MAX
        then escapeLoop p allocsize newlen (ns ++ [c])
      else none
    else
      let newlen := newlen + 2
      let allocsize := if toSize newlen > allocsize then allocsize * 2 % 2 ^ 64 else allocsize
      if newlen ≤ INT_MAX ∧ ns.length + 4 ≤ allocsize ∧ ns.length + 3 ≤ INT_MAX then
        escapeLoop p allocsize newlen (ns ++ escape c)
      else none

/-- The bytes in front of the end of the string that `SGURLEscape` makes of a string that is not
empty. -/
def SGURLEscape (string : List UInt8) : Option (List UInt8) :=
  escapeLoop string (string.length + 1) (((string.length + 1 : Nat) : Int).bmod (2 ^ 32)) []

def isspace (c : UInt8) : Bool := (9 ≤ c && c ≤ 13) || c == 32

def hexValue (c : UInt8) : Option Nat :=
  if 48 ≤ c.toNat ∧ c.toNat ≤ 57 then some (c.toNat - 48)
  else if 65 ≤ c.toNat ∧ c.toNat ≤ 70 then some (c.toNat - 55)
  else if 97 ≤ c.toNat ∧ c.toNat ≤ 102 then some (c.toNat - 87)
  else none

/-- What `sscanf` does with `%02X`: it asks for bytes behind the end, it is at the end of a string
before it reads anything (`EOF`), it fails, or it assigns a number of at most two characters. -/
inductive Scan
  | past
  | eof
  | failed
  | assigned (hex : UInt8)
  deriving DecidableEq

def scanSecond (first : UInt8) : List UInt8 → Scan
  | [] => .past
  | d :: _ =>
    match hexValue first, hexValue d with
    | some m, some n => .assigned (UInt8.ofNat (16 * m + n))
    -- the `x` of `0x` without a digit is put back
    | some m, none => .assigned (UInt8.ofNat m)
    -- behind a sign
    | none, some n => .assigned (if first = ch '-' then UInt8.ofNat (256 - n) else UInt8.ofNat n)
    | none, none => .failed

def sscanf : List UInt8 → Scan
  | [] => .past
  | c :: r =>
    if c = 0 then .eof
    else if isspace c then sscanf r
    else if c = ch '+' ∨ c = ch '-' ∨ (hexValue c).isSome then scanSecond c r
    else .failed

def sizeSub (n k : Nat) : Nat := if k ≤ n then n - k else n + 2 ^ 64 - k

def write (size : Nat) (ns : List UInt8) (c : UInt8) : Option (List UInt8) :=
  if ns.length + 1 ≤ size ∧ ns.length + 1 ≤ INT_MAX then some (ns ++ [c]) else none

/-- The loop with the bytes from `p` on, what is left of `allocsize`, the number of the last escape
and the bytes in front of `index`. -/
def unescapeLoop (size : Nat) : Nat → List UInt8 → Nat → UInt8 → List UInt8 → Option (List UInt8)
  | 0, _, _, _, _ => none
  | fuel + 1, p, allocsize, hex, ns =>
    let allocsize := sizeSub allocsize 1
    if allocsize = 0 then if ns.length + 1 ≤ size then some ns else none
    else
      match p with
      | [] => none
      | c :: r =>
        if c = ch '%' then
          match sscanf r with
          | .past => none
          | .failed => (write size ns c).bind (unescapeLoop size fuel r allocsize hex)
          | .eof => (write size ns hex).bind (unescapeLoop size fuel (r.drop 2)
              (sizeSub allocsize 2) hex)
          | .assigned hex => (write size ns hex).bind (unescapeLoop size fuel (r.drop 2)
              (sizeSub allocsize 2) hex)
        else
          (write size ns (if c = ch '+' then ch ' ' else c)).bind
          (unescapeLoop size fuel r allocsize hex)

/-- `hex` is what the variable holds before anything is assigned to it. -/
def SGURLUnescape (hex : UInt8) (fuel : Nat) (string : List UInt8) : Option (List UInt8) :=
  unescapeLoop (string.length + 1) fuel string (string.length + 1) hex []

-- What is asked of them

/-- Letters, digits, the four symbols and escapes. -/
inductive WellEscaped : List UInt8 → Prop
  | nil : WellEscaped []
  | plain {c t} : isalnum c = true ∨ c ∈ unescapeString → WellEscaped t → WellEscaped (c :: t)
  | escape {c d t} : (hexValue c).isSome → (hexValue d).isSome → WellEscaped t →
      WellEscaped (ch '%' :: c :: d :: t)

/-- The string is escaped inside of the buffer, and comes back. -/
def Escapes (s : List UInt8) : Prop :=
  ∃ t, SGURLEscape s = some t ∧ WellEscaped t ∧ ∀ hex, ∃ fuel, SGURLUnescape hex fuel t = some s

/-- The loop ends, inside of the string and of the buffer. -/
def Unescapes (t : List UInt8) : Prop := ∀ hex, ∃ fuel s, SGURLUnescape hex fuel t = some s

def escapes (s : List UInt8) : Nat := s.countP fun c => !isSymbolToBeUnescaped c

/-- Index and size of what is escaped fit into `int`; the size counts where there is an escape. -/
def Fits (s : List UInt8) : Prop :=
  if escapes s = 0 then s.length ≤ INT_MAX else s.length + 1 + 2 * escapes s ≤ INT_MAX

/-- The loop passes over the string in `n` rounds: `sscanf` does not ask for more than there is
behind any `%` that is reached, and where it does not fail there are two bytes. -/
inductive Decided : Nat → List UInt8 → Prop
  | nil : Decided 0 []
  | plain {n c t} : c ≠ ch '%' → Decided n t → Decided (n + 1) (c :: t)
  | failed {n r} : sscanf r = .failed → Decided n r → Decided (n + 1) (ch '%' :: r)
  | escape {n r} : sscanf r ≠ .past → sscanf r ≠ .failed → 2 ≤ r.length → Decided n (r.drop 2) →
      Decided (n + 1) (ch '%' :: r)

-- The loop that escapes

def escaped (s : List UInt8) : List UInt8 := s.flatMap fun c => if isSymbolToBeUnescaped c then [c]
    else escape c

variable {s p ns t : List UInt8} {c : UInt8} {allocsize : Nat} {newlen : Int}

@[simp] theorem escaped_nil : escaped [] = [] := rfl

theorem escaped_cons_of_symbol (h : isSymbolToBeUnescaped c = true) :
    escaped (c :: p) = c :: escaped p := by
  simp [escaped, h]

theorem escaped_cons_of_not (h : isSymbolToBeUnescaped c = false) :
    escaped (c :: p) = escape c ++ escaped p := by
  simp [escaped, h]

theorem escapes_cons_of_symbol (h : isSymbolToBeUnescaped c = true) :
    escapes (c :: p) = escapes p := by
  simp [escapes, h]

theorem escapes_cons_of_not (h : isSymbolToBeUnescaped c = false) :
    escapes (c :: p) = escapes p + 1 := by
  simp [escapes, h]

theorem length_escaped (s : List UInt8) : (escaped s).length = s.length + 2 * escapes s := by
  induction s with
  | nil => rfl
  | cons c s ih =>
    cases h : isSymbolToBeUnescaped c with
    | true =>
      rw [escaped_cons_of_symbol h, escapes_cons_of_symbol h, List.length_cons,
        List.length_cons, ih]
      omega
    | false =>
      rw [escaped_cons_of_not h, escapes_cons_of_not h, List.length_append, List.length_cons, ih]
      simp only [escape, List.length_cons, List.length_nil]
      omega

/-- A result is the escaped string, and neither the index nor the size have left the range of
`int`. -/
theorem of_escapeLoop (h : escapeLoop p allocsize newlen ns = some t) :
    t = ns ++ escaped p ∧ (p = [] ∨ t.length ≤ INT_MAX) ∧
      (escapes p = 0 ∨ newlen + 2 * escapes p ≤ INT_MAX) := by
  induction p generalizing allocsize newlen ns with
  | nil =>
    unfold escapeLoop at h
    split at h
    · cases h
      simp [escapes]
    · cases h
  | cons c p ih =>
    unfold escapeLoop at h
    cases hsymbol : isSymbolToBeUnescaped c with
    | true =>
      rw [hsymbol, if_pos rfl] at h
      split at h
      · rename_i hinside
        obtain ⟨rfl, hlength, hsize⟩ := ih h
        rw [escaped_cons_of_symbol hsymbol, escapes_cons_of_symbol hsymbol, List.append_assoc]
        refine ⟨rfl, Or.inr ?_, hsize⟩
        obtain rfl | hlength := hlength
        · simpa using hinside.2
        · rwa [List.append_assoc] at hlength
      · cases h
    | false =>
      rw [hsymbol, if_neg Bool.false_ne_true] at h
      dsimp only at h
      generalize (if toSize (newlen + 2) > allocsize then allocsize * 2 % 2 ^ 64
        else allocsize) = allocsize' at h
      split at h
      · rename_i hinside
        obtain ⟨rfl, hlength, hsize⟩ := ih h
        rw [escaped_cons_of_not hsymbol, escapes_cons_of_not hsymbol, List.append_assoc]
        refine ⟨rfl, Or.inr ?_, Or.inr ?_⟩
        · obtain rfl | hlength := hlength
          · simpa [escape] using hinside.2.2
          · rwa [List.append_assoc] at hlength
        · obtain hzero | hsize := hsize
          · rw [hzero]
            have hle := hinside.1
            omega
          · push_cast
            omega
      · cases h

theorem escapeLoop_of_symbols (hall : escapes p = 0) (hfits : ns.length + p.length ≤ INT_MAX)
    (hbuffer : ns.length + p.length + 1 ≤ allocsize) :
    escapeLoop p allocsize newlen ns = some (ns ++ escaped p) := by
  induction p generalizing ns with
  | nil =>
    rw [escapeLoop, if_pos (by simpa using hbuffer), escaped_nil, List.append_nil]
  | cons c p ih =>
    rw [List.length_cons] at hfits hbuffer
    cases hsymbol : isSymbolToBeUnescaped c with
    | false =>
      rw [escapes_cons_of_not hsymbol] at hall
      cases hall
    | true =>
      rw [escapes_cons_of_symbol hsymbol] at hall
      rw [escapeLoop, if_pos hsymbol, if_pos ⟨by omega, by omega⟩, ih hall,
        escaped_cons_of_symbol hsymbol]
      · simp
      · rw [List.length_append, List.length_singleton]
        omega
      · rw [List.length_append, List.length_singleton]
        omega

/-- The buffer holds what `newlen` counts, and `newlen` counts what is still to be written. -/
theorem escapeLoop_of_fits (hexact : newlen = (ns.length + p.length + 1 : Nat))
    (hsize : newlen ≤ allocsize)
    (htwo : 2 ≤ allocsize) (hbound : allocsize ≤ 2 ^ 33)
    (hfits : newlen + 2 * escapes p ≤ INT_MAX) :
    escapeLoop p allocsize newlen ns = some (ns ++ escaped p) := by
  induction p generalizing ns newlen allocsize with
  | nil =>
    rw [List.length_nil] at hexact
    rw [escapeLoop, if_pos (by omega), escaped_nil, List.append_nil]
  | cons c p ih =>
    rw [List.length_cons] at hexact
    cases hsymbol : isSymbolToBeUnescaped c with
    | true =>
      rw [escapes_cons_of_symbol hsymbol] at hfits
      rw [escapeLoop, if_pos hsymbol, if_pos ⟨by omega, by omega⟩, ih _ hsize htwo hbound hfits,
        escaped_cons_of_symbol hsymbol]
      · simp
      · rw [List.length_append, List.length_singleton]
        omega
    | false =>
      rw [escapes_cons_of_not hsymbol] at hfits
      push_cast at hfits
      have hmax : INT_MAX = 2147483647 := rfl
      have hconvert : toSize (newlen + 2) = ns.length + (p.length + 1) + 1 + 2 := by
        unfold toSize
        omega
      obtain ⟨size, hsize'⟩ : ∃ size, size = if toSize (newlen + 2) > allocsize
        then allocsize * 2 % 2 ^ 64
          else allocsize := ⟨_, rfl⟩
      have hroom : newlen + 2 ≤ size ∧ 2 ≤ size ∧ size ≤ 2 ^ 33 := by
        rw [hconvert] at hsize'
        split at hsize' <;> omega
      rw [escapeLoop, if_neg (by simp [hsymbol])]
      dsimp only
      rw [← hsize', if_pos ⟨by omega, by omega, by omega⟩,
        ih _ hroom.1 hroom.2.1 hroom.2.2 (by omega),
        escaped_cons_of_not hsymbol]
      · simp
      · rw [List.length_append]
        simp only [escape, List.length_cons, List.length_nil]
        omega

theorem bmod_of_le {n : Nat} (h : n ≤ INT_MAX) : (n : Int).bmod (2 ^ 32) = n := by
  have hmax : INT_MAX = 2147483647 := rfl
  exact Int.bmod_eq_of_le (by omega) (by omega)

theorem SGURLEscape_eq_some (hs : s ≠ []) : SGURLEscape s = some t ↔ Fits s ∧ t = escaped s := by
  have hpos := List.length_pos_of_ne_nil hs
  unfold SGURLEscape Fits
  constructor
  · intro h
    obtain ⟨ht, hlength, hsize⟩ := of_escapeLoop h
    rw [List.nil_append] at ht
    subst ht
    refine ⟨?_, rfl⟩
    have hlength := hlength.resolve_left hs
    rw [length_escaped] at hlength
    split
    · omega
    · rename_i hescape
      have hsize := hsize.resolve_left hescape
      rw [bmod_of_le (by omega)] at hsize
      omega
  · rintro ⟨hfits, rfl⟩
    split at hfits
    · rename_i hnone
      exact escapeLoop_of_symbols hnone (by simpa using hfits) (by simp)
    · rw [bmod_of_le (by omega)]
      have hmax : INT_MAX = 2147483647 := rfl
      exact escapeLoop_of_fits (by simp) (by omega) (by omega) (by omega) (by push_cast; omega)

-- What is escaped

theorem hexValue_hexDigit : ∀ n < 16, hexValue (hexDigit n) = some n := by
  decide

theorem symbol_iff (hc : c ≠ 0) : isSymbolToBeUnescaped c = true ↔
    isalnum c = true ∨ c ∈ unescapeString := by
  simp [isSymbolToBeUnescaped, strchr, hc]

theorem wellEscaped_escaped (h : 0 ∉ s) : WellEscaped (escaped s) := by
  induction s with
  | nil => exact .nil
  | cons c s ih =>
    rw [List.mem_cons, not_or] at h
    cases hsymbol : isSymbolToBeUnescaped c with
    | true =>
      rw [escaped_cons_of_symbol hsymbol]
      exact .plain ((symbol_iff (Ne.symm h.1)).mp hsymbol) (ih h.2)
    | false =>
      have hc := c.toNat_lt
      rw [escaped_cons_of_not hsymbol]
      apply WellEscaped.escape _ _ (ih h.2)
      · rw [hexValue_hexDigit _ (by omega)]
        rfl
      · rw [hexValue_hexDigit _ (by omega)]
        rfl

theorem not_mem_of_wellEscaped (h : WellEscaped t) : 0 ∉ t := by
  induction h with
  | nil => exact List.not_mem_nil
  | plain hc _ ih =>
    rw [List.mem_cons, not_or]
    refine ⟨?_, ih⟩
    rintro rfl
    revert hc
    decide
  | escape hc hd _ ih =>
    simp only [List.mem_cons, not_or]
    refine ⟨by decide, ?_, ?_, ih⟩
    · rintro rfl
      revert hc
      decide
    · rintro rfl
      revert hd
      decide

theorem mem_escaped (h : 0 ∈ s) : 0 ∈ escaped s := by
  obtain ⟨a, b, rfl⟩ := List.append_of_mem h
  have hzero : isSymbolToBeUnescaped 0 = true := by decide
  simp [escaped, hzero]

-- The loop that unescapes

variable {r out : List UInt8} {hex h : UInt8} {size fuel n : Nat}

theorem write_eq_some : write size ns c = some out ↔
    out = ns ++ [c] ∧ ns.length + 1 ≤ size ∧ ns.length + 1 ≤ INT_MAX := by
  unfold write
  split
  · rename_i hinside
    rw [Option.some.injEq, eq_comm, and_iff_left hinside]
  · rename_i houtside
    simp only [reduceCtorEq, houtside, and_false]

theorem sizeSub_one (n : Nat) : sizeSub (n + 1) 1 = n := by
  unfold sizeSub
  rw [if_pos (by omega), Nat.add_sub_cancel]

theorem unescapeLoop_plain (hc : c ≠ ch '%') : unescapeLoop size (fuel + 1) (c :: r)
    (r.length + 2) hex ns =
    (write size ns (if c = ch '+' then ch ' ' else c)).bind (unescapeLoop size fuel r
      (r.length + 1) hex) := by
  rw [unescapeLoop, sizeSub_one]
  rw [if_neg (Nat.succ_ne_zero _), if_neg hc]

theorem unescapeLoop_failed (hscan : sscanf r = .failed) :
    unescapeLoop size (fuel + 1) (ch '%' :: r) (r.length + 2) hex ns =
      (write size ns (ch '%')).bind (unescapeLoop size fuel r (r.length + 1) hex) := by
  rw [unescapeLoop, sizeSub_one]
  rw [if_neg (Nat.succ_ne_zero _), if_pos rfl, hscan]

theorem unescapeLoop_past (hscan : sscanf r = .past) :
    unescapeLoop size (fuel + 1) (ch '%' :: r) (r.length + 2) hex ns = none := by
  rw [unescapeLoop, sizeSub_one]
  rw [if_neg (Nat.succ_ne_zero _), if_pos rfl, hscan]

/-- Two bytes are taken from what is left. Where there is one only, the size wraps around and the
next byte is read behind the end. -/
theorem unescapeLoop_skip (hr : r ≠ []) : unescapeLoop size fuel (r.drop 2)
    (sizeSub (r.length + 1) 2) hex =
    if 2 ≤ r.length then unescapeLoop size fuel (r.drop 2) ((r.drop 2).length + 1) hex
    else fun _ => none := by
  split
  · rename_i htwo
    congr 1
    unfold sizeSub
    rw [if_pos (by omega), List.length_drop]
    omega
  · rename_i hone
    obtain ⟨c, rfl⟩ : ∃ c, r = [c] := by
      rw [← List.length_eq_one_iff]
      have hpos := List.length_pos_of_ne_nil hr
      omega
    cases fuel with
    | zero => rfl
    | succ fuel => rfl

theorem unescapeLoop_assigned (hscan : sscanf r = .assigned h) (htwo : 2 ≤ r.length) :
    unescapeLoop size (fuel + 1) (ch '%' :: r) (r.length + 2) hex ns =
      (write size ns h).bind (unescapeLoop size fuel (r.drop 2) ((r.drop 2).length + 1) h) := by
  have hr : r ≠ [] := List.ne_nil_of_length_pos (by omega)
  rw [unescapeLoop, sizeSub_one]
  rw [if_neg (Nat.succ_ne_zero _), if_pos rfl, hscan]
  dsimp only
  rw [unescapeLoop_skip hr, if_pos htwo]

/-- An escape that is read takes two bytes, whatever number it has. -/
theorem unescapeLoop_escape (hpast : sscanf r ≠ .past) (hfailed : sscanf r ≠ .failed) : ∃ hex',
    unescapeLoop size (fuel + 1) (ch '%' :: r) (r.length + 2) hex ns =
      if 2 ≤ r.length then
        (write size ns hex').bind (unescapeLoop size fuel (r.drop 2) ((r.drop 2).length + 1) hex')
      else none := by
  have hr : r ≠ [] := by
    rintro rfl
    exact hpast rfl
  have hskip (hex' : UInt8) :
    (write size ns hex').bind (unescapeLoop size fuel (r.drop 2) (sizeSub (r.length + 1) 2) hex') =
      if 2 ≤ r.length then (write size ns hex').bind (unescapeLoop size fuel (r.drop 2)
        ((r.drop 2).length + 1) hex')
      else none := by
    rw [unescapeLoop_skip hr]
    split
    · rfl
    · cases write size ns hex' <;> rfl
  rw [unescapeLoop, sizeSub_one]
  rw [if_neg (Nat.succ_ne_zero _), if_pos rfl]
  cases hscan : sscanf r with
  | past => exact absurd hscan hpast
  | failed => exact absurd hscan hfailed
  | eof => exact ⟨hex, hskip hex⟩
  | assigned h => exact ⟨h, hskip h⟩

theorem decided_of_unescapeLoop (hns : ns.length ≤ INT_MAX)
    (h : unescapeLoop size fuel p (p.length + 1) hex ns = some out) :
    ∃ n, Decided n p ∧ ns.length + n ≤ INT_MAX := by
  induction fuel generalizing p hex ns with
  | zero => cases h
  | succ fuel ih =>
    cases p with
    | nil => exact ⟨0, .nil, hns⟩
    | cons c r =>
      by_cases hc : c = ch '%'
      · subst hc
        by_cases hpast : sscanf r = .past
        · rw [List.length_cons, unescapeLoop_past hpast] at h
          cases h
        · by_cases hfailed : sscanf r = .failed
          · rw [List.length_cons, unescapeLoop_failed hfailed] at h
            obtain ⟨ns', hwrite, h⟩ := Option.bind_eq_some_iff.mp h
            obtain ⟨rfl, -, hindex⟩ := write_eq_some.mp hwrite
            obtain ⟨n, hn, hle⟩ := ih (by simpa using hindex) h
            rw [List.length_append, List.length_singleton] at hle
            exact ⟨n + 1, .failed hfailed hn, by omega⟩
          · obtain ⟨hex', hloop⟩ := @unescapeLoop_escape ns r hex size fuel hpast hfailed
            rw [List.length_cons, hloop] at h
            split at h
            · rename_i htwo
              obtain ⟨ns', hwrite, h⟩ := Option.bind_eq_some_iff.mp h
              obtain ⟨rfl, -, hindex⟩ := write_eq_some.mp hwrite
              obtain ⟨n, hn, hle⟩ := ih (by simpa using hindex) h
              rw [List.length_append, List.length_singleton] at hle
              exact ⟨n + 1, .escape hpast hfailed htwo hn, by omega⟩
            · cases h
      · rw [List.length_cons, unescapeLoop_plain hc] at h
        obtain ⟨ns', hwrite, h⟩ := Option.bind_eq_some_iff.mp h
        obtain ⟨rfl, -, hindex⟩ := write_eq_some.mp hwrite
        obtain ⟨n, hn, hle⟩ := ih (by simpa using hindex) h
        rw [List.length_append, List.length_singleton] at hle
        exact ⟨n + 1, .plain hc hn, by omega⟩

theorem write_inside (hsize : ns.length + 1 ≤ size) (hindex : ns.length + 1 ≤ INT_MAX) (c : UInt8) :
    write size ns c = some (ns ++ [c]) := if_pos ⟨hsize, hindex⟩

theorem unescapeLoop_of_decided (h : Decided n p) (hfuel : p.length < fuel)
    (hsize : ns.length + p.length + 1 ≤ size)
    (hindex : ns.length + n ≤ INT_MAX) : ∃ out, unescapeLoop size fuel p (p.length + 1) hex ns =
      some out := by
  induction h generalizing fuel hex ns with
  | nil =>
    obtain ⟨fuel, rfl⟩ := Nat.exists_eq_add_of_lt hfuel
    exact ⟨ns, if_pos (by simpa using hsize)⟩
  | plain hc _ ih =>
    obtain ⟨fuel, rfl⟩ := Nat.exists_eq_add_of_lt hfuel
    rw [List.length_cons] at hsize ⊢
    rw [unescapeLoop_plain hc, write_inside (by omega) (by omega)]
    apply ih
    · omega
    · rw [List.length_append, List.length_singleton]
      omega
    · rw [List.length_append, List.length_singleton]
      omega
  | failed hscan _ ih =>
    obtain ⟨fuel, rfl⟩ := Nat.exists_eq_add_of_lt hfuel
    rw [List.length_cons] at hsize ⊢
    rw [unescapeLoop_failed hscan, write_inside (by omega) (by omega)]
    apply ih
    · omega
    · rw [List.length_append, List.length_singleton]
      omega
    · rw [List.length_append, List.length_singleton]
      omega
  | @escape n r hpast hfailed htwo _ ih =>
    obtain ⟨fuel, rfl⟩ := Nat.exists_eq_add_of_lt hfuel
    rw [List.length_cons] at hsize ⊢
    obtain ⟨hex', hloop⟩ := @unescapeLoop_escape ns r hex size (r.length + 1 + fuel) hpast hfailed
    rw [hloop, if_pos htwo, write_inside (by omega) (by omega)]
    apply ih
    · rw [List.length_drop]
      omega
    · rw [List.length_append, List.length_singleton, List.length_drop]
      omega
    · rw [List.length_append, List.length_singleton]
      omega

/-- The loop comes to an end inside of string and buffer exactly where the string is decided. -/
theorem unescapes_iff (t : List UInt8) : Unescapes t ↔ ∃ n ≤ INT_MAX, Decided n t := by
  unfold Unescapes SGURLUnescape
  constructor
  · intro h
    obtain ⟨fuel, out, hloop⟩ := h 0
    obtain ⟨n, hn, hle⟩ := decided_of_unescapeLoop (Nat.zero_le _) hloop
    exact ⟨n, by simpa using hle, hn⟩
  · rintro ⟨n, hle, hn⟩ hex
    obtain ⟨out, hloop⟩ := @unescapeLoop_of_decided _ [] hex (t.length + 1) (t.length + 1) n hn
      (Nat.lt_succ_self _)
      (by simp) (by simpa using hle)
    exact ⟨_, out, hloop⟩

-- There and back

theorem sscanf_escape (c : UInt8) (r : List UInt8) :
    sscanf (hexDigit (c.toNat / 16) :: hexDigit (c.toNat % 16) :: r) = .assigned c := by
  have hc := c.toNat_lt
  have hfirst := hexValue_hexDigit (c.toNat / 16) (by omega)
  have hsecond := hexValue_hexDigit (c.toNat % 16) (by omega)
  have hplain : ∀ n < 16, hexDigit n ≠ 0 ∧ isspace (hexDigit n) = false := by decide
  obtain ⟨hzero, hspace⟩ := hplain (c.toNat / 16) (by omega)
  have hvalue : UInt8.ofNat (16 * (c.toNat / 16) + c.toNat % 16) = c := by
    rw [Nat.div_add_mod]
    exact UInt8.ofNat_toNat
  simp [sscanf, hzero, hspace, hfirst, scanSecond, hsecond, hvalue]

theorem unescapeLoop_escaped (hfuel : (escaped p).length < fuel)
    (hsize : ns.length + (escaped p).length + 1 ≤ size) (hindex : ns.length + p.length ≤ INT_MAX) :
    unescapeLoop size fuel (escaped p) ((escaped p).length + 1) hex ns = some (ns ++ p) := by
  induction p generalizing fuel hex ns with
  | nil =>
    obtain ⟨fuel, rfl⟩ := Nat.exists_eq_add_of_lt hfuel
    rw [List.append_nil]
    exact if_pos (by simpa using hsize)
  | cons c p ih =>
    obtain ⟨fuel, rfl⟩ := Nat.exists_eq_add_of_lt hfuel
    rw [List.length_cons] at hindex
    have hnext (hex : UInt8) (fuel' : Nat) (hfuel' : (escaped p).length < fuel')
        (hshorter : (escaped p).length + 1 ≤ (escaped (c :: p)).length) :
        unescapeLoop size fuel' (escaped p) ((escaped p).length + 1) hex (ns ++ [c]) =
          some (ns ++ c :: p) := by
      rw [ih hfuel', List.append_assoc, List.singleton_append]
      · rw [List.length_append, List.length_singleton]
        omega
      · rw [List.length_append, List.length_singleton]
        omega
    cases hsymbol : isSymbolToBeUnescaped c with
    | true =>
      have hplain : c ≠ ch '%' ∧ c ≠ ch '+' := by
        constructor <;> rintro rfl <;> revert hsymbol <;> decide
      rw [escaped_cons_of_symbol hsymbol, List.length_cons] at hsize hnext ⊢
      rw [unescapeLoop_plain hplain.1, if_neg hplain.2, write_inside (by omega) (by omega)]
      exact hnext _ _ (by omega) (Nat.le_refl _)
    | false =>
      rw [escaped_cons_of_not hsymbol] at hsize hnext ⊢
      simp only [escape, List.cons_append, List.nil_append, List.length_cons] at hsize hnext ⊢
      have hscan := sscanf_escape c (escaped p)
      have hloop :=
        @unescapeLoop_assigned ns _ hex c size ((escaped p).length + 2 + 1 + fuel) hscan (by simp)
      simp only [List.length_cons, List.drop_succ_cons, List.drop_zero] at hloop
      rw [hloop, write_inside (by omega) (by omega)]
      exact hnext _ _ (by omega) (by omega)

theorem escapes_iff (hs : s ≠ []) : Escapes s ↔ 0 ∉ s ∧ Fits s := by
  unfold Escapes
  constructor
  · rintro ⟨t, hescape, hwell, -⟩
    obtain ⟨hfits, rfl⟩ := (SGURLEscape_eq_some hs).mp hescape
    exact ⟨fun hzero => not_mem_of_wellEscaped hwell (mem_escaped hzero), hfits⟩
  · rintro ⟨hzero, hfits⟩
    refine ⟨escaped s, (SGURLEscape_eq_some hs).mpr ⟨hfits, rfl⟩, wellEscaped_escaped hzero,
      fun hex => ?_⟩
    have hlength : s.length ≤ INT_MAX := by
      unfold Fits at hfits
      split at hfits <;> omega
    exact ⟨(escaped s).length + 1, unescapeLoop_escaped (Nat.lt_succ_self _) (by simp)
      (by simpa using hlength)⟩

/-- Strings without a zero byte are escaped as they should be where they fit into `int`, and a
string is unescaped inside of its bounds exactly where it is decided. -/
theorem escape_unescape_iff (s : { s : List UInt8 // s ≠ [] }) (t : List UInt8) :
    (Escapes s.1 ↔ 0 ∉ s.1 ∧ Fits s.1) ∧ (Unescapes t ↔ ∃ n ≤ INT_MAX, Decided n t) :=
  ⟨escapes_iff s.2, unescapes_iff t⟩

/-- A `%` at the end of the string. -/
theorem not_unescapes_percent : ¬ ((∀ s ≠ [], Escapes s) ∧ ∀ t, Unescapes t) := by
  rintro ⟨-, h⟩
  obtain ⟨n, -, hn⟩ := (unescapes_iff [ch '%']).mp (h _)
  cases hn with
  | plain hc _ => exact hc rfl
  | failed hscan _ => cases hscan
  | escape hpast _ _ _ => exact hpast rfl

end BathyScaphe.URLEscape
