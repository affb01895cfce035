import BathyScaphe.Foundation.NSString
import BathyScaphe.Foundation.URLEscape
import BathyScaphe.Lib.Fields

/-!
# The bodies that are posted

`parameterWithForm:` writes the keys of a form as they are and escapes the values, each in the
first encoding of a list that has the value. The login body is a format with account and password
as they are. Both are read back as a server reads them: in fields, which are unescaped and read
in one encoding.
-/

namespace BathyScaphe.Reply

open URLEscape

structure Form where
  pairs : List (NSString × NSString)
  nonempty : pairs ≠ []
  nodup : (pairs.map Prod.fst).Nodup

inductive CFStringEncoding
  | ShiftJIS
  | DOSJapanese
  | MacJapanese
  | EUC_JP

inductive SG2chConnector
  | w2chReply_2ch
  | w2chReply_be2ch
  | w2chReply_shita

def SG2chConnector.availableURLEncodings : SG2chConnector → List CFStringEncoding
  | .w2chReply_2ch => [.ShiftJIS, .DOSJapanese, .MacJapanese]
  | .w2chReply_be2ch => [.EUC_JP]
  | .w2chReply_shita => [.EUC_JP]

def octet (c : UniChar) : UInt8 := c.toUInt8
def unit (c : UInt8) : UniChar := c.toUInt16

def IsASCII (s : NSString) : Prop := ∀ c ∈ s, c < 128

instance (s : NSString) : Decidable (IsASCII s) := List.decidableBAll _ s

/-- Encodings in which letters, digits and the two separators are bytes of their own, and in which
a text of ASCII characters that is read is not longer than its bytes, and is its bytes where these
are ASCII. -/
structure Encodings (ε : Type) where
  CF2NSEncoding : CFStringEncoding → ε
  dataUsingEncoding : ε → NSString → Option (List UInt8)
  initWithData : ε → List UInt8 → Option NSString
  data_eq_nil_iff (e : ε) (s : NSString) : dataUsingEncoding e s = some [] ↔ s = []
  data_append (e : ε) (s : NSString) (c : UInt8) (t : NSString) :
  isalnum c ∨ c = ch '&' ∨ c = ch '=' →
    dataUsingEncoding e (s ++ unit c :: t) =
      (dataUsingEncoding e s).bind fun x => (dataUsingEncoding e t).map fun y => x ++ c :: y
  read_alnum (e : ε) (b : List UInt8) : (∀ c ∈ b, isalnum c) → initWithData e b = some (b.map unit)
  length_le (e : ε) (b : List UInt8) (s : NSString) : initWithData e b = some s →
    IsASCII s → s.length ≤ b.length
  eq_of_ascii (e : ε) (b : List UInt8) (s : NSString) : initWithData e b = some s → IsASCII s →
    (∀ c ∈ b, c < 128) → s = b.map unit

variable {ε : Type} (E : Encodings ε)

-- What is posted

namespace Encodings

/-- The bytes in front of the first zero byte, which are ASCII. A message to `nil` is `nil`. -/
def stringByURLEncodingUsingEncoding (s : NSString) (e : ε) : Option (Option NSString) :=
  if s = [] then some (some s)
  else
    match E.dataUsingEncoding e s with
    | none => some none
    | some data => (SGURLEscape data).map fun t => some ((t.takeWhile (· ≠ 0)).map unit)

def stringWithObject (s : NSString) : List CFStringEncoding → Option (Option NSString)
  | [] => some none
  | enc :: available =>
    match E.stringByURLEncodingUsingEncoding s (E.CF2NSEncoding enc) with
    | none => none
    | some none => stringWithObject s available
    | some (some converted) => some (some converted)

/-- `nil` with what the delegate is told, or the parameters. -/
inductive Parameters
  | empty
  | didFailURLEncoding (key value : NSString)
  | params (params : NSString)

def appendFormat (available : List CFStringEncoding) : List (NSString × NSString) →
    NSString → Option Parameters
  | [], params => some (.params params)
  | (key, value) :: forms, params =>
    match E.stringWithObject value available with
    | none => none
    | some none => some (.didFailURLEncoding key value)
    | some (some encoded) =>
        appendFormat available forms (params ++ (key ++ uc '=' :: encoded ++ [uc '&']))

def parameterWithForm (connector : SG2chConnector) (forms : List (NSString × NSString)) :
    Option Parameters :=
  if forms = [] then some .empty
  else
    (E.appendFormat connector.availableURLEncodings forms []).map fun
      | .params params =>
        .params (if params.length > 0 then params.deleteCharactersInRange ⟨params.length - 1, 1⟩
          else params)
      | failed => failed

def idPwFormat (userID password : NSString) : NSString :=
  ns "ID=" ++ userID ++ ns "&PW=" ++ password

def postingData (defaultCStringEncoding : ε) (userID password : NSString) : Option (List UInt8) :=
  E.dataUsingEncoding defaultCStringEncoding (idPwFormat userID password)

end Encodings

-- How it is read

def unescapedPlain (c : UInt8) : UInt8 := if c = ch '+' then ch ' ' else c

/-- Two hexadecimal digits behind a `%` are a byte, a `+` is a space. -/
def unescaped : List UInt8 → List UInt8
  | c :: d :: d' :: r =>
    match hexValue d, hexValue d' with
    | some m, some n =>
      if c = ch '%' then UInt8.ofNat (16 * m + n) :: unescaped r
      else unescapedPlain c :: unescaped (d :: d' :: r)
    | _, _ => unescapedPlain c :: unescaped (d :: d' :: r)
  | s => s.map unescapedPlain

namespace Encodings

def readField (e : ε) (p : List UInt8 × List UInt8) : Option (NSString × NSString) := do
  let key ← E.initWithData e (unescaped p.1)
  let value ← E.initWithData e (unescaped p.2)
  pure (key, value)

def readFields (e : ε) (body : List UInt8) : Option (List (NSString × NSString)) := do
  let fields ← Fields.fields (ch '&') (ch '=') body
  fields.mapM (E.readField e)

/-- Read in one encoding, the body is the dictionary. -/
def GivesBack (body : List UInt8) (forms : List (NSString × NSString)) : Prop :=
  ∃ e fields, E.readFields e body = some fields ∧ fields.Perm forms

def FormGivesBack (connector : SG2chConnector) (forms : List (NSString × NSString)) : Prop :=
  match E.parameterWithForm connector forms with
  | none => False
  | some (.params params) => IsASCII params ∧ E.GivesBack (params.map octet) forms
  | some _ => ∃ p ∈ forms, ∀ enc ∈ connector.availableURLEncodings,
      E.dataUsingEncoding (E.CF2NSEncoding enc) p.2 = none

def LoginGivesBack (defaultCStringEncoding : ε) (userID password : NSString) : Prop :=
  ∃ data, E.postingData defaultCStringEncoding userID password = some data ∧
    E.GivesBack data [(ns "ID", userID), (ns "PW", password)]

def firstData (connector : SG2chConnector) (s : NSString) : Option (List UInt8) :=
  connector.availableURLEncodings.findSome? fun enc => E.dataUsingEncoding (E.CF2NSEncoding enc) s

def KeyStays (e : ε) (key : NSString) : Prop :=
  IsASCII key ∧ uc '&' ∉ key ∧ uc '=' ∉ key ∧ E.initWithData e (unescaped (key.map octet)) =
    some key

def Escapable (connector : SG2chConnector) (value : NSString) : Prop :=
  ∃ data, E.firstData connector value = some data ∧ Fits data

/-- The encoding has the bytes in front of the first zero byte for the value. -/
def ValueStays (connector : SG2chConnector) (e : ε) (value : NSString) : Prop :=
  ∃ data, E.firstData connector value = some data ∧ Fits data ∧
    E.initWithData e (data.takeWhile (· ≠ 0)) = some value

/-- The keys and values of a form stay in one encoding, or a value that no encoding has stands
behind values that are escaped. -/
def FormStays (connector : SG2chConnector) (forms : List (NSString × NSString)) : Prop :=
  (∃ e, ∀ p ∈ forms, E.KeyStays e p.1 ∧ E.ValueStays connector e p.2) ∨
    ∃ before p after, forms = before ++ p :: after ∧ (∀ q ∈ before, E.Escapable connector q.2) ∧
      E.firstData connector p.2 = none

def LoginStays (defaultCStringEncoding : ε) (userID password : NSString) : Prop :=
  ∃ x y, E.dataUsingEncoding defaultCStringEncoding userID = some x ∧
    E.dataUsingEncoding defaultCStringEncoding password = some y ∧ ch '&' ∉ x ∧ ch '&' ∉ y ∧
    ∃ e, E.initWithData e (unescaped x) = some userID ∧ E.initWithData e (unescaped y) =
      some password

end Encodings

-- Escaped and unescaped

variable {s : List UInt8} {c : UInt8}

theorem unescaped_cons_of_ne (hc : c ≠ ch '%') :
    unescaped (c :: s) = unescapedPlain c :: unescaped s := by
  match s with
  | [] => rfl
  | [d] => rfl
  | d :: d' :: r =>
    rw [unescaped]
    split
    · rw [if_neg hc]
    · rfl

theorem unescaped_escape (c : UInt8) (s : List UInt8) :
    unescaped (escape c ++ s) = c :: unescaped s := by
  have hc := c.toNat_lt
  have hvalue : UInt8.ofNat (16 * (c.toNat / 16) + c.toNat % 16) = c := by
    rw [Nat.div_add_mod]
    exact UInt8.ofNat_toNat
  unfold escape
  simp only [List.cons_append, List.nil_append]
  rw [unescaped, hexValue_hexDigit _ (by omega), hexValue_hexDigit _ (by omega)]
  dsimp only
  rw [if_pos rfl, hvalue]

theorem symbol_ne (hsymbol : isSymbolToBeUnescaped c = true) :
    c ≠ ch '%' ∧ c ≠ ch '+' ∧ c ≠ ch '&' ∧ c ≠ ch '=' := by
  refine ⟨?_, ?_, ?_, ?_⟩ <;> rintro rfl <;> revert hsymbol <;> decide

theorem unescaped_escaped (s : List UInt8) : unescaped (escaped s) = s := by
  induction s with
  | nil => rfl
  | cons c s ih =>
    cases hsymbol : isSymbolToBeUnescaped c with
    | true =>
      obtain ⟨hpercent, hplus, -⟩ := symbol_ne hsymbol
      rw [escaped_cons_of_symbol hsymbol, unescaped_cons_of_ne hpercent, ih, unescapedPlain,
        if_neg hplus]
    | false => rw [escaped_cons_of_not hsymbol, unescaped_escape, ih]

theorem hexDigit_plain : ∀ n < 16, hexDigit n < 128 ∧ hexDigit n ≠ ch '&' ∧ hexDigit n ≠ ch '=' ∧
    hexDigit n ≠ 0 := by
  decide

theorem symbol_lt (hsymbol : isSymbolToBeUnescaped c = true) : c < 128 := by
  simp only [isSymbolToBeUnescaped, isalnum, Bool.or_eq_true, Bool.and_eq_true,
    decide_eq_true_eq] at hsymbol
  obtain ((⟨-, hc⟩ | ⟨-, hc⟩) | ⟨-, hc⟩) | hc := hsymbol
  · exact UInt8.lt_of_le_of_lt hc (by decide)
  · exact UInt8.lt_of_le_of_lt hc (by decide)
  · exact UInt8.lt_of_le_of_lt hc (by decide)
  · have hall : ∀ d ∈ unescapeString ++ [0], d < 128 := by decide +kernel
    exact hall c (List.contains_iff_mem.mp hc)

theorem forall_mem_escaped (s : List UInt8) : ∀ c ∈ escaped s, c < 128 ∧ c ≠ ch '&' ∧
    c ≠ ch '=' := by
  intro c hc
  obtain ⟨d, -, hd⟩ := List.mem_flatMap.mp hc
  have hlt := d.toNat_lt
  split at hd
  · rename_i hsymbol
    obtain rfl := List.mem_singleton.mp hd
    exact ⟨symbol_lt hsymbol, (symbol_ne hsymbol).2.2⟩
  · simp only [escape, List.mem_cons, List.not_mem_nil, or_false] at hd
    obtain rfl | rfl | rfl := hd
    · decide
    · obtain ⟨hascii, hamp, heq, -⟩ := hexDigit_plain (d.toNat / 16) (by omega)
      exact ⟨hascii, hamp, heq⟩
    · obtain ⟨hascii, hamp, heq, -⟩ := hexDigit_plain (d.toNat % 16) (by omega)
      exact ⟨hascii, hamp, heq⟩

theorem takeWhile_escaped (s : List UInt8) : (escaped s).takeWhile (· ≠ 0) = escaped
    (s.takeWhile (· ≠ 0)) := by
  induction s with
  | nil => rfl
  | cons c s ih =>
    cases hsymbol : isSymbolToBeUnescaped c with
    | true =>
      rw [escaped_cons_of_symbol hsymbol, List.takeWhile_cons, List.takeWhile_cons, ih]
      split
      · rw [escaped_cons_of_symbol hsymbol]
      · rfl
    | false =>
      have hc := c.toNat_lt
      have hzero : c ≠ 0 := by
        rintro rfl
        cases hsymbol
      have hfirst := (hexDigit_plain (c.toNat / 16) (by omega)).2.2.2
      have hsecond := (hexDigit_plain (c.toNat % 16) (by omega)).2.2.2
      have hescape : ∀ d ∈ escape c, decide (d ≠ 0) = true := by
        simp [escape, hfirst, hsecond]
        decide
      rw [escaped_cons_of_not hsymbol, List.takeWhile_append_of_pos hescape, ih,
        List.takeWhile_cons, if_pos (decide_eq_true hzero), escaped_cons_of_not hsymbol]

theorem length_unescaped_le (s : List UInt8) : (unescaped s).length ≤ s.length := by
  fun_induction unescaped s with
  | case1 d d' r _ _ _ _ ih => grind
  | case2 => grind
  | case3 => grind
  | case4 => simp

theorem unescaped_of_length (h : (unescaped s).length = s.length) :
    unescaped s = s.map unescapedPlain := by
  fun_induction unescaped s with
  | case1 d d' r =>
    have hle := length_unescaped_le r
    simp only [List.length_cons] at h
    omega
  | case2 c d d' r m n _ _ _ ih =>
    exact congrArg _ (ih (by simpa using h))
  | case3 c d d' r _ ih =>
    exact congrArg _ (ih (by simpa using h))
  | case4 => rfl

-- The parameters of a form

namespace Encodings

variable {E} {available : List CFStringEncoding} {connector : SG2chConnector} {value : NSString}
  {data : List UInt8}
  {forms : List (NSString × NSString)} {before after : List (NSString × NSString)}
  {p : NSString × NSString}

theorem stringWithObject_of_data
    (h : available.findSome? (fun enc => E.dataUsingEncoding (E.CF2NSEncoding enc) value) =
      some data) :
    E.stringWithObject value available =
      if value = [] then some (some [])
      else (SGURLEscape data).map fun t => some ((t.takeWhile (· ≠ 0)).map unit) := by
  induction available with
  | nil => cases h
  | cons enc available ih =>
    rw [stringWithObject, stringByURLEncodingUsingEncoding]
    by_cases hvalue : value = []
    · rw [if_pos hvalue, if_pos hvalue, hvalue]
    · rw [if_neg hvalue] at ih ⊢
      rw [List.findSome?_cons] at h
      cases hdata : E.dataUsingEncoding (E.CF2NSEncoding enc) value with
      | none =>
        rw [hdata] at h
        rw [if_neg hvalue]
        exact ih h
      | some data' =>
        rw [hdata] at h
        obtain rfl := Option.some.inj h
        rw [if_neg hvalue]
        dsimp only
        cases SGURLEscape data' <;> rfl

theorem stringWithObject_of_none
    (h : ∀ enc ∈ available, E.dataUsingEncoding (E.CF2NSEncoding enc) value = none) :
    E.stringWithObject value available = some none := by
  induction available with
  | nil => rfl
  | cons enc available ih =>
    rw [List.forall_mem_cons] at h
    have hvalue : value ≠ [] := by
      rintro rfl
      rw [(E.data_eq_nil_iff _ _).mpr rfl] at h
      cases h.1
    rw [stringWithObject, stringByURLEncodingUsingEncoding, if_neg hvalue, h.1]
    exact ih h.2

def encodedData (E : Encodings ε) (connector : SG2chConnector) (value : NSString) : List UInt8 :=
  escaped (((E.firstData connector value).getD []).takeWhile (· ≠ 0))

theorem stringWithObject_of_fits (h : E.firstData connector value = some data) (hfits : Fits data) :
    E.stringWithObject value connector.availableURLEncodings =
      some (some ((E.encodedData connector value).map unit)) := by
  rw [stringWithObject_of_data h, encodedData, h]
  split
  · rename_i hvalue
    obtain ⟨enc, -, hdata⟩ := List.exists_of_findSome?_eq_some h
    rw [hvalue, (E.data_eq_nil_iff _ _).mpr rfl] at hdata
    obtain rfl := Option.some.inj hdata
    rfl
  · rename_i hvalue
    have hdata : data ≠ [] := by
      rintro rfl
      obtain ⟨enc, -, hdata⟩ := List.exists_of_findSome?_eq_some h
      exact hvalue ((E.data_eq_nil_iff _ _).mp hdata)
    rw [(SGURLEscape_eq_some hdata).mpr ⟨hfits, rfl⟩, Option.map_some, takeWhile_escaped,
      Option.getD_some]

theorem stringWithObject_of_not_fits (h : E.firstData connector value = some data)
    (hfits : ¬ Fits data) :
    E.stringWithObject value connector.availableURLEncodings = none := by
  have hdata : data ≠ [] := by
    rintro rfl
    exact hfits (Nat.zero_le _)
  have hvalue : value ≠ [] := by
    rintro rfl
    obtain ⟨enc, -, hnil⟩ := List.exists_of_findSome?_eq_some h
    rw [(E.data_eq_nil_iff _ _).mpr rfl] at hnil
    exact hdata (Option.some.inj hnil).symm
  rw [stringWithObject_of_data h, if_neg hvalue, Option.map_eq_none_iff,
    Option.eq_none_iff_forall_ne_some]
  intro t ht
  exact hfits ((SGURLEscape_eq_some hdata).mp ht).1

def written (E : Encodings ε) (connector : SG2chConnector) (p : NSString × NSString) :
    NSString × NSString :=
  (p.1, (E.encodedData connector p.2).map unit)

theorem appendFormat_append (hbefore : ∀ q ∈ before, E.Escapable connector q.2)
    (params : NSString) :
    E.appendFormat connector.availableURLEncodings (before ++ after) params =
      E.appendFormat connector.availableURLEncodings after
        (params ++ (before.map (E.written connector)).flatMap fun p =>
          Fields.assignment (uc '=') p ++ [uc '&']) := by
  induction before generalizing params with
  | nil => simp
  | cons q before ih =>
    obtain ⟨⟨data, hdata, hfits⟩, hbefore⟩ := List.forall_mem_cons.mp hbefore
    rw [List.cons_append, appendFormat, stringWithObject_of_fits hdata hfits]
    dsimp only
    rw [ih hbefore, List.map_cons, List.flatMap_cons]
    simp [written, Fields.assignment]

theorem firstData_eq_none_iff : E.firstData connector value = none ↔
    ∀ enc ∈ connector.availableURLEncodings, E.dataUsingEncoding (E.CF2NSEncoding enc) value =
      none :=
  List.findSome?_eq_none_iff

theorem deleteLast (s : NSString) :
    (if s.length > 0 then s.deleteCharactersInRange ⟨s.length - 1, 1⟩ else s) = s.dropLast := by
  split
  · rename_i hpos
    simp only [NSString.deleteCharactersInRange, NSRange.max]
    rw [Nat.sub_add_cancel hpos, List.drop_length, List.append_nil, List.dropLast_eq_take]
  · rename_i hempty
    rw [List.length_eq_zero_iff.mp (Nat.eq_zero_of_not_pos hempty)]
    rfl

theorem parameterWithForm_of_escapable (hne : forms ≠ [])
    (hall : ∀ q ∈ forms, E.Escapable connector q.2) :
    E.parameterWithForm connector forms =
      some (.params (Fields.joined (uc '&') (uc '=') (forms.map (E.written connector)))) := by
  have hloop := @appendFormat_append _ E connector forms [] hall []
  rw [List.append_nil, List.nil_append] at hloop
  unfold parameterWithForm
  rw [if_neg hne, hloop, appendFormat, Option.map_some]
  dsimp only
  rw [deleteLast, Fields.dropLast_flatMap]

theorem parameterWithForm_of_none (hbefore : ∀ q ∈ before, E.Escapable connector q.2)
    (hnone : E.firstData connector p.2 = none) :
    E.parameterWithForm connector (before ++ p :: after) = some (.didFailURLEncoding p.1 p.2) := by
  unfold parameterWithForm
  rw [if_neg (by simp), appendFormat_append hbefore, appendFormat,
    stringWithObject_of_none (firstData_eq_none_iff.mp hnone)]
  rfl

theorem parameterWithForm_of_not_fits (hbefore : ∀ q ∈ before, E.Escapable connector q.2)
    (hdata : E.firstData connector p.2 = some data) (hfits : ¬ Fits data) :
    E.parameterWithForm connector (before ++ p :: after) = none := by
  unfold parameterWithForm
  rw [if_neg (by simp), appendFormat_append hbefore, appendFormat,
    stringWithObject_of_not_fits hdata hfits]
  rfl

-- Fields that are read

variable {e : ε} {ps : List (List UInt8 × List UInt8)} {fields : List (NSString × NSString)}
  {k : NSString}

/-- As many fields as are written have no separator inside of them, and each is cut by itself. -/
theorem of_readFields (hne : ps ≠ [])
    (h : E.readFields e (Fields.joined (ch '&') (ch '=') ps) = some fields)
    (hlength : fields.length = ps.length) :
    (∀ p ∈ ps, ch '&' ∉ Fields.assignment (ch '=') p) ∧
      ps.map (fun p => E.readField e (Fields.cut (ch '=') (Fields.assignment (ch '=') p))) =
        fields.map some := by
  obtain ⟨qs, hqs, hread⟩ := Option.bind_eq_some_iff.mp h
  have hmap := Fields.mapM_eq_some_iff.mp hread
  have hsame := congrArg List.length hmap
  rw [List.length_map, List.length_map, hlength] at hsame
  have hamp := Fields.not_mem_of_length hne hqs hsame
  rw [Fields.fields_joined hne hamp] at hqs
  obtain rfl := Option.some.inj hqs
  rw [List.map_map] at hmap
  exact ⟨hamp, hmap⟩

theorem readFields_joined (hne : ps ≠ []) (hamp : ∀ p ∈ ps, ch '&' ∉ Fields.assignment (ch '=') p)
    (h : ps.map (fun p => E.readField e (Fields.cut (ch '=') (Fields.assignment (ch '=') p))) =
      fields.map some) :
    E.readFields e (Fields.joined (ch '&') (ch '=') ps) = some fields := by
  refine Option.bind_eq_some_iff.mpr ⟨_, Fields.fields_joined hne hamp,
    Fields.mapM_eq_some_iff.mpr ?_⟩
  rw [List.map_map]
  exact h

theorem readField_eq_some_iff {p : List UInt8 × List UInt8} {q : NSString × NSString} :
    E.readField e p = some q ↔
      E.initWithData e (unescaped p.1) = some q.1 ∧ E.initWithData e (unescaped p.2) =
        some q.2 := by
  obtain ⟨key, value⟩ := q
  simp [readField, Option.bind_eq_some_iff]

theorem octet_unit (c : UInt8) : octet (unit c) = c := by
  apply UInt8.toNat_inj.mp
  simp [octet, unit]

theorem octet_lt {c : UniChar} (hc : c < 128) : octet c < 128 := by
  have hlt : c.toNat < 128 := UInt16.lt_iff_toNat_lt.mp hc
  refine UInt8.lt_iff_toNat_lt.mpr ?_
  simp only [octet, UInt16.toNat_toUInt8]
  exact (Nat.mod_le _ _).trans_lt hlt

theorem unit_octet {c : UniChar} (hc : c < 128) : unit (octet c) = c := by
  have hlt : c.toNat < 128 := UInt16.lt_iff_toNat_lt.mp hc
  apply UInt16.toNat_inj.mp
  simp only [octet, unit, UInt8.toNat_toUInt16, UInt16.toNat_toUInt8]
  exact Nat.mod_eq_of_lt (hlt.trans (by decide))

theorem map_unit_octet (h : IsASCII k) : (k.map octet).map unit = k := by
  rw [List.map_map]
  exact (List.map_congr_left fun c hc => unit_octet (h c hc)).trans (List.map_id k)

theorem mem_map_octet (h : IsASCII k) (c : UInt8) : c ∈ k.map octet ↔ unit c ∈ k := by
  constructor
  · intro hc
    obtain ⟨d, hd, rfl⟩ := List.mem_map.mp hc
    rw [unit_octet (h d hd)]
    exact hd
  · intro hc
    exact List.mem_map.mpr ⟨_, hc, octet_unit c⟩

theorem unescapedPlain_lt {c : UInt8} (hc : c < 128) : unescapedPlain c < 128 := by
  unfold unescapedPlain
  split
  · decide
  · exact hc

theorem not_mem_unescapedPlain (s : List UInt8) : uc '+' ∉ (s.map unescapedPlain).map unit := by
  intro hmem
  obtain ⟨c, hc, hunit⟩ := List.mem_map.mp hmem
  obtain ⟨d, -, rfl⟩ := List.mem_map.mp hc
  have hplus : unescapedPlain d = ch '+' := by
    rw [← octet_unit (unescapedPlain d), hunit]
    rfl
  revert hplus
  unfold unescapedPlain
  split
  · decide
  · exact fun hplus => absurd hplus ‹_›

def readKey (E : Encodings ε) (e : ε) (k : NSString) : NSString :=
  (E.initWithData e (unescaped ((k.map octet).takeWhile (· ≠ ch '=')))).getD []

/-- Keys that are read as the same keys in any order are read as themselves: reading them does not
make them longer, so that there is no escape in them, and then it takes every `+` away. -/
theorem keys_stay {ks : List NSString} (hascii : ∀ k ∈ ks, IsASCII k)
    (hread : ∀ k ∈ ks, E.initWithData e (unescaped ((k.map octet).takeWhile (· ≠ ch '='))) =
      some (E.readKey e k))
    (hperm : (ks.map (E.readKey e)).Perm ks) :
    ∀ k ∈ ks, ch '=' ∉ k.map octet ∧ E.readKey e k = k := by
  have hagain : ∀ k ∈ ks, IsASCII (E.readKey e k) := fun k hk =>
    hascii _ (hperm.subset (List.mem_map.mpr ⟨k, hk, rfl⟩))
  have hshorter : ∀ k ∈ ks, (unescaped ((k.map octet).takeWhile (· ≠ ch '='))).length ≤
      ((k.map octet).takeWhile (· ≠ ch '=')).length ∧
        ((k.map octet).takeWhile (· ≠ ch '=')).length ≤ k.length := by
    intro k _
    refine ⟨length_unescaped_le _, ?_⟩
    have hle :=
      (List.takeWhile_sublist (p := fun c => decide (c ≠ ch '=')) (l := k.map octet)).length_le
    rwa [List.length_map] at hle
  have hlength := Fields.measure_eq_of_perm hperm (m := List.length) (fun k hk =>
    (E.length_le _ _ _ (hread k hk) (hagain k hk)).trans
    ((hshorter k hk).1.trans (hshorter k hk).2))
  have hplain : ∀ k ∈ ks, ch '=' ∉ k.map octet ∧ E.readKey e k =
    ((k.map octet).map unescapedPlain).map unit := by
    intro k hk
    have hle := E.length_le _ _ _ (hread k hk) (hagain k hk)
    have hsame := hlength k hk
    obtain ⟨hunescaped, htaken⟩ := hshorter k hk
    have hmem : ch '=' ∉ k.map octet := Fields.not_mem_of_length_takeWhile (by
      rw [List.length_map]
      omega)
    have hthis := hread k hk
    rw [Fields.takeWhile_of_not_mem hmem] at hthis hle hunescaped
    have hunread : unescaped (k.map octet) = (k.map octet).map unescapedPlain := by
      apply unescaped_of_length
      rw [List.length_map] at hunescaped ⊢
      omega
    rw [hunread] at hthis
    refine ⟨hmem, E.eq_of_ascii _ _ _ hthis (hagain k hk) ?_⟩
    rw [List.forall_mem_map, List.forall_mem_map]
    intro c hc
    exact unescapedPlain_lt (octet_lt (hascii k hk c hc))
  have hplus := Fields.measure_eq_of_perm hperm (m := List.count (uc '+')) (fun k hk => by
    rw [(hplain k hk).2, List.count_eq_zero.mpr (not_mem_unescapedPlain _)]
    exact Nat.zero_le _)
  intro k hk
  obtain ⟨hmem, hkey⟩ := hplain k hk
  refine ⟨hmem, ?_⟩
  have hcount := hplus k hk
  rw [hkey, List.count_eq_zero.mpr (not_mem_unescapedPlain _), eq_comm,
    List.count_eq_zero] at hcount
  have hnone : (k.map octet).map unescapedPlain = k.map octet := by
    refine (List.map_congr_left fun c hc => if_neg ?_).trans (List.map_id _)
    rintro rfl
    exact hcount ((mem_map_octet (hascii k hk) _).mp hc)
  rw [hkey, hnone, map_unit_octet (hascii k hk)]

-- A form

def writtenData (E : Encodings ε) (connector : SG2chConnector) (p : NSString × NSString) :
    List UInt8 × List UInt8 :=
  (p.1.map octet, E.encodedData connector p.2)

theorem isASCII_encodedData (value : NSString) :
    IsASCII ((E.encodedData connector value).map unit) := by
  unfold IsASCII
  rw [List.forall_mem_map]
  intro c hc
  have hlt := UInt8.lt_iff_toNat_lt.mp (forall_mem_escaped _ c hc).1
  exact UInt16.lt_iff_toNat_lt.mpr (by simpa [unit] using hlt)

theorem isASCII_joined :
    IsASCII (Fields.joined (uc '&') (uc '=') (forms.map (E.written connector))) ↔
      ∀ p ∈ forms, IsASCII p.1 := by
  unfold IsASCII Fields.joined
  rw [Split.forall_mem_intercalate (List.forall_mem_singleton.mpr (by decide)),
    List.map_map, List.forall_mem_map]
  refine forall₂_congr fun p _ => ?_
  have hvalue := @isASCII_encodedData _ E connector p.2
  simp only [Function.comp_apply, Fields.assignment, written, List.forall_mem_append,
    List.forall_mem_cons]
  exact and_iff_left ⟨by decide, hvalue⟩

theorem map_octet_joined :
    (Fields.joined (uc '&') (uc '=') (forms.map (E.written connector))).map octet =
      Fields.joined (ch '&') (ch '=') (forms.map (E.writtenData connector)) := by
  rw [Fields.map_joined, List.map_map]
  congr 1
  refine List.map_congr_left fun p _ => ?_
  have hback : octet ∘ unit = id := funext octet_unit
  simp [written, writtenData, hback]

theorem unescaped_encodedData (hdata : E.firstData connector value = some data) :
    unescaped (E.encodedData connector value) = data.takeWhile (· ≠ 0) := by
  rw [encodedData, hdata, Option.getD_some, unescaped_escaped]

theorem amp_not_mem_writtenData (hascii : IsASCII p.1) :
    ch '&' ∉ Fields.assignment (ch '=') (E.writtenData connector p) ↔ uc '&' ∉ p.1 := by
  have hvalue : ch '&' ∉ E.encodedData connector p.2 :=
    fun hmem => (forall_mem_escaped _ _ hmem).2.1 rfl
  have hne : ch '&' ≠ ch '=' := by decide
  simp only [Fields.assignment, writtenData, List.mem_append, List.mem_cons, hne,
    hvalue, or_false, mem_map_octet hascii]
  rfl

theorem givesBack_iff (hne : forms ≠ []) (hnodup : (forms.map Prod.fst).Nodup)
    (hascii : ∀ p ∈ forms, IsASCII p.1) (hall : ∀ p ∈ forms, E.Escapable connector p.2) :
    E.GivesBack (Fields.joined (ch '&') (ch '=') (forms.map (E.writtenData connector))) forms ↔
      ∃ e, ∀ p ∈ forms, E.KeyStays e p.1 ∧ E.ValueStays connector e p.2 := by
  have hnonempty : forms.map (E.writtenData connector) ≠ [] := by simpa using hne
  constructor
  · rintro ⟨e, fields, hread, hperm⟩
    obtain ⟨hamp, hfields⟩ :=
      of_readFields hnonempty hread (by rw [List.length_map, hperm.length_eq])
    rw [List.forall_mem_map] at hamp
    rw [List.map_map] at hfields
    obtain ⟨hsome, rfl⟩ := Fields.eq_map_of_map_some ([], []) hfields
    generalize hread :
      (fun p => (((fun q => E.readField e (Fields.cut (ch '=') (Fields.assignment (ch '=') q))) ∘
      E.writtenData connector) p).getD ([], [])) = readBack at hperm
    have hparts : ∀ p ∈ forms,
        E.initWithData e (unescaped ((p.1.map octet).takeWhile (· ≠ ch '='))) =
          some (readBack p).1 ∧
          E.initWithData e (unescaped (Fields.cut (ch '=') (Fields.assignment (ch '=')
            (E.writtenData connector p))).2) =
            some (readBack p).2 := by
      intro p hp
      have hfield := readField_eq_some_iff.mp (hsome p hp)
      rw [Fields.cut_assignment_fst] at hfield
      rw [← hread]
      exact hfield
    have hkeys : ∀ p ∈ forms, (readBack p).1 = E.readKey e p.1 := by
      intro p hp
      rw [readKey, (hparts p hp).1, Option.getD_some]
    have hmap : (forms.map readBack).map Prod.fst = (forms.map Prod.fst).map (E.readKey e) := by
      rw [List.map_map, List.map_map]
      exact List.map_congr_left hkeys
    have hstay := keys_stay (List.forall_mem_map.mpr hascii)
      (List.forall_mem_map.mpr fun p hp => by rw [← hkeys p hp]; exact (hparts p hp).1)
      (by rw [← hmap]; exact hperm.map Prod.fst)
    rw [List.forall_mem_map] at hstay
    have hsame : forms.map readBack = forms := by
      refine Fields.eq_of_perm hperm ?_ hnodup
      rw [hmap, List.map_map]
      exact List.map_congr_left fun p hp => (hstay p hp).2
    have hback : ∀ p ∈ forms, readBack p = p := by
      rw [← List.map_inj_left]
      exact hsame.trans (List.map_id forms).symm
    refine ⟨e, fun p hp => ?_⟩
    obtain ⟨heq, -⟩ := hstay p hp
    obtain ⟨hkey, hvalue⟩ := hparts p hp
    rw [hback p hp, Fields.takeWhile_of_not_mem heq] at hkey
    rw [hback p hp, Fields.cut_assignment heq] at hvalue
    obtain ⟨data, hdata, hfits⟩ := hall p hp
    rw [writtenData, unescaped_encodedData hdata] at hvalue
    exact ⟨⟨hascii p hp, (amp_not_mem_writtenData (hascii p hp)).mp (hamp p hp),
      fun hmem => heq ((mem_map_octet (hascii p hp) _).mpr hmem), hkey⟩, data, hdata, hfits, hvalue⟩
  · rintro ⟨e, hstays⟩
    refine ⟨e, forms, readFields_joined hnonempty ?_ ?_, .rfl⟩
    · rw [List.forall_mem_map]
      intro p hp
      obtain ⟨⟨hkey, hamp, -, -⟩, -⟩ := hstays p hp
      exact (amp_not_mem_writtenData hkey).mpr hamp
    · rw [List.map_map]
      refine List.map_congr_left fun p hp => ?_
      obtain ⟨⟨hkey, -, heq, hreadkey⟩, data, hdata, -, hvalue⟩ := hstays p hp
      have heq' : ch '=' ∉ (E.writtenData connector p).1 :=
        fun hmem => heq ((mem_map_octet hkey _).mp hmem)
      rw [Function.comp_apply, Fields.cut_assignment heq', readField_eq_some_iff]
      refine ⟨hreadkey, ?_⟩
      rw [writtenData, unescaped_encodedData hdata]
      exact hvalue

theorem escapable_or (forms : List (NSString × NSString)) :
    (∀ p ∈ forms, E.Escapable connector p.2) ∨
    ∃ before p after, forms = before ++ p :: after ∧ (∀ q ∈ before, E.Escapable connector q.2) ∧
      ¬ E.Escapable connector p.2 := by
  induction forms with
  | nil => exact .inl nofun
  | cons p forms ih =>
    by_cases hp : E.Escapable connector p.2
    · obtain hall | ⟨before, q, after, rfl, hbefore, hq⟩ := ih
      · exact .inl (List.forall_mem_cons.mpr ⟨hp, hall⟩)
      · exact .inr ⟨p :: before, q, after, rfl, List.forall_mem_cons.mpr ⟨hp, hbefore⟩, hq⟩
    · exact .inr ⟨[], p, forms, rfl, nofun, hp⟩

theorem not_escapable_of_none (hnone : E.firstData connector value = none) :
    ¬ E.Escapable connector value := by
  rintro ⟨data, hdata, -⟩
  rw [hnone] at hdata
  cases hdata

theorem formGivesBack_iff (connector : SG2chConnector) (form : Form) :
    E.FormGivesBack connector form.pairs ↔ E.FormStays connector form.pairs := by
  obtain ⟨forms, hne, hnodup⟩ := form
  unfold FormGivesBack FormStays
  dsimp only
  obtain hall | ⟨before, p, after, rfl, hbefore, hp⟩ := @escapable_or _ E connector forms
  · rw [parameterWithForm_of_escapable hne hall]
    dsimp only
    rw [isASCII_joined, map_octet_joined]
    constructor
    · rintro ⟨hascii, hback⟩
      exact .inl ((givesBack_iff hne hnodup hascii hall).mp hback)
    · rintro (⟨e, hstays⟩ | ⟨before, p, after, rfl, -, hnone⟩)
      · have hascii : ∀ p ∈ forms, IsASCII p.1 := fun p hp => (hstays p hp).1.1
        exact ⟨hascii, (givesBack_iff hne hnodup hascii hall).mpr ⟨e, hstays⟩⟩
      · exact absurd (hall p (by simp)) (not_escapable_of_none hnone)
  · cases hdata : E.firstData connector p.2 with
    | none =>
      rw [parameterWithForm_of_none hbefore hdata]
      refine iff_of_true ⟨p, by simp, firstData_eq_none_iff.mp hdata⟩
        (.inr ⟨before, p, after, rfl, hbefore, hdata⟩)
    | some data =>
      have hfits : ¬ Fits data := fun hfits => hp ⟨data, hdata, hfits⟩
      have hfault :=
        @parameterWithForm_of_not_fits _ E connector data before after p hbefore hdata hfits
      rw [hfault]
      refine iff_of_false id ?_
      rintro (⟨e, hstays⟩ | ⟨before', p', after', hsplit, hbefore', hnone⟩)
      · obtain ⟨-, data', hdata', hfits', -⟩ := hstays p (by simp)
        exact hp ⟨data', hdata', hfits'⟩
      · rw [hsplit, parameterWithForm_of_none hbefore' hnone] at hfault
        cases hfault

-- A login

variable {d : ε} {userID password : NSString} {x y : List UInt8}

theorem data_cons {c : UInt8} (hc : isalnum c ∨ c = ch '&' ∨ c = ch '=') (t : NSString) :
    E.dataUsingEncoding d (unit c :: t) = (E.dataUsingEncoding d t).map (c :: ·) := by
  have happend := E.data_append d [] c t hc
  rw [(E.data_eq_nil_iff d []).mpr rfl] at happend
  exact happend

def idPwData (x y : List UInt8) : List (List UInt8 × List UInt8) :=
  [([ch 'I', ch 'D'], x), ([ch 'P', ch 'W'], y)]

theorem postingData_eq_some_iff : E.postingData d userID password = some data ↔
    ∃ x y, E.dataUsingEncoding d userID = some x ∧ E.dataUsingEncoding d password = some y ∧
      data = Fields.joined (ch '&') (ch '=') (idPwData x y) := by
  have hformat : idPwFormat userID password = unit (ch 'I') :: unit (ch 'D') :: unit (ch '=') ::
      (userID ++ unit (ch '&') :: unit (ch 'P') :: unit (ch 'W') :: unit (ch '=') :: password) := by
    simp [idPwFormat, ns, unit, ch]
  unfold postingData
  rw [hformat, data_cons (.inl (by decide)), data_cons (.inl (by decide)),
    data_cons (.inr (.inr rfl)),
    E.data_append _ _ _ _ (.inr (.inl rfl)), data_cons (.inl (by decide)),
    data_cons (.inl (by decide)),
    data_cons (.inr (.inr rfl))]
  cases E.dataUsingEncoding d userID with
  | none => simp
  | some x =>
    cases E.dataUsingEncoding d password with
    | none => simp
    | some y => simp [eq_comm, idPwData, Fields.joined, Fields.assignment, List.intercalate]

theorem amp_not_mem_idPwData : (∀ p ∈ idPwData x y, ch '&' ∉ Fields.assignment (ch '=') p) ↔
    ch '&' ∉ x ∧ ch '&' ∉ y := by
  have hkeys : ch '&' ∉ [ch 'I', ch 'D'] ∧ ch '&' ∉ [ch 'P', ch 'W'] ∧ ch '&' ≠ ch '=' := by decide
  simp only [idPwData, Fields.assignment, List.forall_mem_cons, List.mem_append,
    List.mem_cons (b := ch '='), hkeys.1, hkeys.2.1, hkeys.2.2, false_or, List.not_mem_nil,
    false_imp_iff, implies_true, and_true]

theorem readField_idPwData (fields : List (NSString × NSString)) :
    (idPwData x y).map (fun p =>
      E.readField e (Fields.cut (ch '=') (Fields.assignment (ch '=') p))) = fields.map some ↔
      ∃ u v, E.initWithData e (unescaped x) = some u ∧ E.initWithData e (unescaped y) = some v ∧
        fields = [(ns "ID", u), (ns "PW", v)] := by
  have hid : E.initWithData e (unescaped [ch 'I', ch 'D']) = some (ns "ID") :=
    E.read_alnum e _ (by decide +kernel)
  have hpw : E.initWithData e (unescaped [ch 'P', ch 'W']) = some (ns "PW") :=
    E.read_alnum e _ (by decide +kernel)
  have hparts : ∀ p ∈ idPwData x y, ch '=' ∉ p.1 := by
    simp only [idPwData, List.forall_mem_cons]
    exact ⟨by decide, by decide, nofun⟩
  have hcut : (idPwData x y).map (fun p =>
    E.readField e (Fields.cut (ch '=') (Fields.assignment (ch '=') p))) =
      (idPwData x y).map (E.readField e) :=
    List.map_congr_left fun p hp => by rw [Fields.cut_assignment (hparts p hp)]
  rw [hcut]
  constructor
  · intro h
    have hlength := congrArg List.length h
    rw [List.length_map, List.length_map] at hlength
    obtain ⟨p, q, rfl⟩ := List.length_eq_two.mp hlength.symm
    obtain ⟨hp, hq⟩ := List.cons.inj h
    obtain ⟨hid', hu⟩ := readField_eq_some_iff.mp hp
    obtain ⟨hpw', hv⟩ := readField_eq_some_iff.mp (List.cons.inj hq).1
    rw [hid] at hid'
    rw [hpw] at hpw'
    exact ⟨p.2, q.2, hu, hv, by rw [Option.some.inj hid', Option.some.inj hpw']⟩
  · rintro ⟨u, v, hu, hv, rfl⟩
    have hfirst : E.readField e ([ch 'I', ch 'D'], x) = some (ns "ID", u) :=
      readField_eq_some_iff.mpr ⟨hid, hu⟩
    have hsecond : E.readField e ([ch 'P', ch 'W'], y) = some (ns "PW", v) :=
      readField_eq_some_iff.mpr ⟨hpw, hv⟩
    simp only [idPwData, List.map_cons, List.map_nil, hfirst, hsecond]

theorem loginGivesBack_iff (d : ε) (userID password : NSString) :
    E.LoginGivesBack d userID password ↔ E.LoginStays d userID password := by
  unfold LoginGivesBack LoginStays
  have hnames : [ns "ID", ns "PW"].Nodup := by decide
  constructor
  · rintro ⟨data, hdata, e, fields, hread, hperm⟩
    obtain ⟨x, y, hx, hy, rfl⟩ := postingData_eq_some_iff.mp hdata
    obtain ⟨hamp, hfields⟩ := of_readFields (List.cons_ne_nil _ _) hread hperm.length_eq
    obtain ⟨u, v, hu, hv, rfl⟩ := (readField_idPwData fields).mp hfields
    obtain ⟨hx', hy'⟩ := amp_not_mem_idPwData.mp hamp
    have hsame := Fields.eq_of_perm hperm rfl hnames
    simp only [List.cons.injEq, Prod.mk.injEq, true_and, and_true] at hsame
    obtain ⟨rfl, rfl⟩ := hsame
    exact ⟨x, y, hx, hy, hx', hy', e, hu, hv⟩
  · rintro ⟨x, y, hx, hy, hx', hy', e, hu, hv⟩
    refine ⟨_, postingData_eq_some_iff.mpr ⟨x, y, hx, hy, rfl⟩, e, _, ?_, .rfl⟩
    exact readFields_joined (List.cons_ne_nil _ _) (amp_not_mem_idPwData.mpr ⟨hx', hy'⟩)
      ((readField_idPwData _).mpr ⟨_, _, hu, hv, rfl⟩)

end Encodings

/-- Both bodies give back what they are made of exactly where it stays. -/
theorem bodies_give_back_iff (connector : SG2chConnector) (form : Form) (d : ε)
    (userID password : NSString) :
    (E.FormGivesBack connector form.pairs ↔ E.FormStays connector form.pairs) ∧
      (E.LoginGivesBack d userID password ↔ E.LoginStays d userID password) :=
  ⟨Encodings.formGivesBack_iff connector form, Encodings.loginGivesBack_iff d userID password⟩

def ascii : Encodings Unit where
  CF2NSEncoding _ := ()
  dataUsingEncoding _ s := if IsASCII s then some (s.map octet) else none
  initWithData _ b := if b.all (· < 128) then some (b.map unit) else none
  data_eq_nil_iff _ s := by
    constructor
    · intro h
      split at h
      · exact List.map_eq_nil_iff.mp (Option.some.inj h)
      · cases h
    · rintro rfl
      simp [IsASCII]
  data_append _ s c t hc := by
    have hunit : unit c < 128 := by
      have hlt : c < 128 := by
        obtain hc | rfl | rfl := hc
        · exact symbol_lt (by rw [isSymbolToBeUnescaped, hc, Bool.true_or])
        · decide
        · decide
      exact UInt16.lt_iff_toNat_lt.mpr (by simpa [unit] using UInt8.lt_iff_toNat_lt.mp hlt)
    have hparts : IsASCII (s ++ unit c :: t) ↔ IsASCII s ∧ IsASCII t := by
      simp only [IsASCII, List.forall_mem_append, List.forall_mem_cons, hunit, true_and]
    by_cases hs : IsASCII s
    · by_cases ht : IsASCII t
      · simp [hparts, hs, ht, Encodings.octet_unit]
      · simp [hparts, hs, ht]
    · simp [hparts, hs]
  read_alnum _ b h := by
    refine if_pos (List.all_eq_true.mpr fun c hc => decide_eq_true (symbol_lt ?_))
    rw [isSymbolToBeUnescaped, h c hc, Bool.true_or]
  length_le _ b s h _ := by
    split at h
    · obtain rfl := Option.some.inj h
      exact (List.length_map unit).le
    · cases h
  eq_of_ascii _ b s h _ hb := by
    rw [if_pos (List.all_eq_true.mpr fun c hc => decide_eq_true (hb c hc))] at h
    exact (Option.some.inj h).symm

/-- A password with the character between the fields. -/
theorem not_login_gives_back_ampersand :
    ¬ ((∀ form : Form, ascii.FormGivesBack .w2chReply_2ch form.pairs) ∧
    ∀ userID password : NSString, ascii.LoginGivesBack () userID password) := by
  rintro ⟨-, h⟩
  obtain ⟨x, y, -, hy, -, hamp, -⟩ :=
    (Encodings.loginGivesBack_iff () (ns "user") (ns "a&b")).mp (h _ _)
  obtain rfl : (ns "a&b").map octet = y := Option.some.inj hy
  exact hamp (by decide +kernel)

end BathyScaphe.Reply
