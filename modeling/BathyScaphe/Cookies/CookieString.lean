import BathyScaphe.Cookies.CookieManager

/-!
# Cookies from strings

A cookie is read from `name=value; path=/; ...` item by item. An item with one equals sign
sets the option that it names, letter by letter, and else the name and the value of the
cookie. Items with more equals signs are passed over.
-/

namespace BathyScaphe.Cookies

open NSString

-- The source

def Cookie.setItem (cookie : Cookie) (item : NSString) : Cookie :=
  match item.componentsSeparatedByString (ns "=") with
  | [flag] => if flag.stringByStriped = ns "secure" then { cookie with secure := true } else cookie
  | [name, value] => cookie.setCookie (.string value.stringByStriped) name.stringByStriped
  | _ => cookie

def Cookie.setCookieWithString (cookie : Cookie) (anyCookies : NSString) : Cookie :=
  (anyCookies.componentsSeparatedByString (ns ";")).foldl Cookie.setItem cookie

def cookieWithString (anyCookies : NSString) : Cookie := Cookie.setCookieWithString {} anyCookies

-- What a cookie string says

/-- The name in front of the first equals sign and the value behind it. -/
def pairOf (item : NSString) : Option (NSString × NSString) :=
  match item.componentsSeparatedByString (ns "=") with
  | name :: value :: values =>
    some (name.stringByStriped, (componentsJoinedByString (value :: values)
      (ns "=")).stringByStriped)
  | _ => none

def tolower (c : UniChar) : UniChar := if uc 'A' ≤ c && c ≤ uc 'Z' then c + 32 else c

def valueOf (aName : NSString) (item : NSString) : Option NSString :=
  (pairOf item).bind fun pair => if pair.1.map tolower = aName then some pair.2 else none

def secureOf (item : NSString) : Option Bool :=
  match pairOf item with
  | some pair => if pair.1.map tolower = ns "secure" then some (boolValue pair.2) else none
  | none => if item.stringByStriped.map tolower = ns "secure" then some true else none

def lastOf (say : NSString → Option α) (items : List NSString) : Option α :=
  (items.filterMap say).getLast?

def Cookie.nameAndValue (cookie : Cookie) : Option (NSString × NSString) :=
  cookie.pair.map fun named => (named.name, named.value)

structure Parses (pair : NSString × NSString) (attributes : List NSString)
    (cookie : Cookie) : Prop where
  pair : cookie.nameAndValue = some pair
  path : cookie.path = lastOf (valueOf (ns "path")) attributes
  domain : cookie.domain = lastOf (valueOf (ns "domain")) attributes
  expires : cookie.expires = lastOf (valueOf (ns "expires")) attributes
  secure : cookie.secure = (lastOf secureOf attributes).getD false

-- What can be read

def plainPair (item : NSString) : Option (NSString × NSString) :=
  match item.componentsSeparatedByString (ns "=") with
  | [name, value] => some (name.stringByStriped, value.stringByStriped)
  | _ => none

def plainValue (aName : NSString) (item : NSString) : Option NSString :=
  (plainPair item).bind fun pair => if pair.1 = aName then some pair.2 else none

def plainSecure (item : NSString) : Option Bool :=
  match item.componentsSeparatedByString (ns "=") with
  | [flag] => if flag.stringByStriped = ns "secure" then some true else none
  | [name, value] => if name.stringByStriped = ns "secure"
      then some (boolValue value.stringByStriped) else none
  | _ => none

def unknownPair (item : NSString) : Option (NSString × NSString) :=
  (plainPair item).filter fun pair => CookieOption.ofName pair.1 = none

/-- The first item has one equals sign and names no option, and the last attribute that is
like that is the same pair, if there is one. Of each option, what the last attribute says
that names it in any letter case is what the last one says that is plain. -/
structure Plain (head : NSString) (attributes : List NSString) : Prop where
  first : (unknownPair head).isSome = true
  unknown : ∀ pair ∈ lastOf unknownPair attributes, unknownPair head = some pair
  path : lastOf (plainValue (ns "path")) attributes = lastOf (valueOf (ns "path")) attributes
  domain : lastOf (plainValue (ns "domain")) attributes = lastOf (valueOf (ns "domain")) attributes
  expires : lastOf (plainValue (ns "expires")) attributes =
    lastOf (valueOf (ns "expires")) attributes
  secure : (lastOf plainSecure attributes).getD false = (lastOf secureOf attributes).getD false

-- One item

section
variable {item aName : NSString} {pair : NSString × NSString} {cookie : Cookie}

def IsStringOption (option : CookieOption) : Prop :=
  option = .path ∨ option = .domain ∨ option = .expires

def CookieOption.name : CookieOption → NSString
  | .secure => ns "secure"
  | .isEnabled => ns "x-application/BathyScaphe enabled"
  | .path => ns "path"
  | .domain => ns "domain"
  | .expires => ns "expires"

def Cookie.string (cookie : Cookie) : CookieOption → Option NSString
  | .path => cookie.path
  | .domain => cookie.domain
  | .expires => cookie.expires
  | _ => none

/-- An option but the one for the application's own use has one name. -/
theorem ofName_eq_some (hoption : option ≠ .isEnabled) :
    CookieOption.ofName aName = some option ↔ aName = option.name := by
  constructor
  · intro h
    rw [CookieOption.ofName] at h
    grind [CookieOption.name]
  · rintro rfl
    cases option with
    | isEnabled => exact absurd rfl hoption
    | _ => decide

theorem plainPair_eq_some : plainPair item = some pair ↔ ∃ n v,
    item.componentsSeparatedByString (ns "=") = [n, v] ∧
    pair = (n.stringByStriped, v.stringByStriped) := by
  rw [plainPair]
  split
  · rename_i n v hcomps
    rw [hcomps]
    constructor
    · intro h
      exact ⟨n, v, rfl, (Option.some.inj h).symm⟩
    · rintro ⟨n', v', h, rfl⟩
      cases h
      rfl
  · rename_i hnot
    refine iff_of_false nofun ?_
    rintro ⟨n, v, h, -⟩
    exact hnot n v h

theorem pairOf_of_plainPair (h : plainPair item = some pair) : pairOf item = some pair := by
  obtain ⟨n, v, hcomps, rfl⟩ := plainPair_eq_some.mp h
  rw [pairOf, hcomps]
  simp only [componentsJoinedByString, List.intercalate_singleton]

theorem setItem_of_plainPair (h : plainPair item = some pair) (cookie : Cookie) :
    cookie.setItem item = cookie.setCookie (.string pair.2) pair.1 := by
  obtain ⟨n, v, hcomps, rfl⟩ := plainPair_eq_some.mp h
  rw [Cookie.setItem, hcomps]

theorem setItem_of_none (h : plainPair item = none) (cookie : Cookie) :
    cookie.setItem item = { cookie with secure := (plainSecure item).getD cookie.secure } := by
  rw [Cookie.setItem, plainSecure]
  split
  · split <;> rfl
  · rename_i n v hcomps
    rw [plainPair, hcomps] at h
    cases h
  · rename_i hone htwo
    rfl

theorem string_setOption (hoption : IsStringOption option) (other : CookieOption)
    (cookie : Cookie) (s : NSString) :
    (cookie.setOption other (.string s)).string option = if other = option then some s
    else cookie.string option := by
  obtain rfl | rfl | rfl := hoption <;> cases other <;> rfl

theorem string_setItem (hoption : IsStringOption option) (cookie : Cookie) (item : NSString) :
    (cookie.setItem item).string option = (plainValue option.name item).or
    (cookie.string option) := by
  have hne : option ≠ .isEnabled := by
    rintro rfl
    obtain h | h | h := hoption <;> cases h
  cases hplain : plainPair item with
  | none =>
    rw [setItem_of_none hplain, plainValue, hplain]
    obtain rfl | rfl | rfl := hoption <;> rfl
  | some pair =>
    rw [setItem_of_plainPair hplain, plainValue, hplain, Option.bind_some]
    cases hname : CookieOption.ofName pair.1 with
    | none =>
      have hnot : pair.1 ≠ option.name := by
        rw [ne_eq, ← ofName_eq_some hne, hname]
        exact nofun
      rw [setCookie_string hname, if_neg hnot]
      obtain rfl | rfl | rfl := hoption <;> rfl
    | some other =>
      rw [setCookie_option hname, string_setOption hoption]
      by_cases hother : other = option
      · subst hother
        rw [if_pos rfl, if_pos ((ofName_eq_some hne).mp hname)]
        rfl
      · have hnot : pair.1 ≠ option.name := by
          rw [ne_eq, ← ofName_eq_some hne, hname]
          exact fun heq => hother (Option.some.inj heq)
        rw [if_neg hother, if_neg hnot]
        rfl

theorem secure_setItem (cookie : Cookie) (item : NSString) :
    (cookie.setItem item).secure = (plainSecure item).getD cookie.secure := by
  cases hplain : plainPair item with
  | none => rw [setItem_of_none hplain]
  | some pair =>
    obtain ⟨n, v, hcomps, rfl⟩ := plainPair_eq_some.mp hplain
    rw [setItem_of_plainPair hplain, plainSecure, hcomps]
    simp only
    cases hname : CookieOption.ofName n.stringByStriped with
    | none =>
      have hnot : n.stringByStriped ≠ ns "secure" := by
        rintro heq
        rw [heq] at hname
        cases hname
      rw [setCookie_string hname, if_neg hnot]
      rfl
    | some other =>
      rw [setCookie_option hname]
      by_cases hsecure : other = .secure
      · subst hsecure
        have hsame : n.stringByStriped = ns "secure" := (ofName_eq_some (by decide)).mp hname
        rw [if_pos hsame]
        rfl
      · have hnot : n.stringByStriped ≠ ns "secure" := by
          rintro heq
          rw [heq] at hname
          exact hsecure (Option.some.inj hname).symm
        rw [if_neg hnot]
        cases other <;> first | rfl | exact absurd rfl hsecure

theorem nameAndValue_setItem (cookie : Cookie) (item : NSString) :
    (cookie.setItem item).nameAndValue = (unknownPair item).or cookie.nameAndValue := by
  rw [unknownPair]
  cases hplain : plainPair item with
  | none =>
    rw [setItem_of_none hplain]
    rfl
  | some pair =>
    rw [setItem_of_plainPair hplain]
    cases hname : CookieOption.ofName pair.1 with
    | none =>
      rw [setCookie_string hname, Option.filter_some, if_pos (decide_eq_true hname)]
      rfl
    | some other =>
      rw [setCookie_option hname, Option.filter_some, if_neg (by rw [hname]; exact nofun)]
      cases other <;> rfl

-- All items

theorem lastOf_cons (say : NSString → Option α) (item : NSString) (items : List NSString) :
    lastOf say (item :: items) = (lastOf say items).or (say item) := by
  rw [lastOf, lastOf, List.filterMap_cons]
  cases say item with
  | none => exact (Option.or_none).symm
  | some a =>
    rw [List.getLast?_cons]
    cases (items.filterMap say).getLast? <;> rfl

theorem foldl_setItem {field : Cookie → Option α} {say : NSString → Option α}
    (hitem : ∀ cookie item, field (cookie.setItem item) = (say item).or (field cookie))
    (items : List NSString)
    (cookie : Cookie) : field (items.foldl Cookie.setItem cookie) =
      (lastOf say items).or (field cookie) := by
  induction items generalizing cookie with
  | nil => rfl
  | cons item items ih => rw [List.foldl_cons, ih, hitem, lastOf_cons, Option.or_assoc]

theorem string_foldl_setItem (hoption : IsStringOption option) (items : List NSString)
    (cookie : Cookie) :
    (items.foldl Cookie.setItem cookie).string option =
      (lastOf (plainValue option.name) items).or (cookie.string option) :=
  @foldl_setItem _ (fun cookie => cookie.string option) _ (string_setItem hoption) items cookie

theorem nameAndValue_foldl_setItem (items : List NSString) (cookie : Cookie) :
    (items.foldl Cookie.setItem cookie).nameAndValue =
      (lastOf unknownPair items).or cookie.nameAndValue :=
  foldl_setItem nameAndValue_setItem items cookie

theorem secure_foldl_setItem (items : List NSString) (cookie : Cookie) :
    (items.foldl Cookie.setItem cookie).secure = (lastOf plainSecure items).getD cookie.secure := by
  have hfold := @foldl_setItem _ (fun cookie => some cookie.secure) plainSecure
    (fun cookie item => by
    rw [secure_setItem]
    cases plainSecure item <;> rfl) items cookie
  cases hlast : lastOf plainSecure items <;> rw [hlast] at hfold <;> exact Option.some.inj hfold

theorem mem_dropWhile {p : UniChar → Bool} {s : NSString} {c : UniChar} (hc : p c = false) :
    c ∈ s.dropWhile p ↔ c ∈ s := by
  constructor
  · exact fun h => (List.dropWhile_suffix p).subset h
  · intro h
    rw [← List.takeWhile_append_dropWhile (p := p) (l := s), List.mem_append] at h
    refine h.resolve_left fun hmem => ?_
    have hp := List.mem_takeWhile_imp hmem
    rw [hc] at hp
    cases hp

theorem mem_stringByStriped {s : NSString} {c : UniChar} (hc : isWhitespace c = false) :
    c ∈ s.stringByStriped ↔ c ∈ s := by
  rw [stringByStriped, List.rdropWhile, List.mem_reverse, mem_dropWhile hc, List.mem_reverse,
    mem_dropWhile hc]

/-- The value of a plain pair has no equals sign, and that of another pair has one. -/
theorem plainPair_iff (h : pairOf item = some pair) : plainPair item = some pair ↔
    uc '=' ∉ pair.2 := by
  rw [pairOf] at h
  split at h
  · rename_i n v vs hcomps
    obtain rfl := Option.some.inj h
    rw [mem_stringByStriped (by decide)]
    cases vs with
    | nil =>
      have hmem : v ∈ Split.pieces (ns "=") item := by
        rw [← componentsSeparatedByString, hcomps]
        exact List.mem_cons_of_mem _ List.mem_cons_self
      have hv : uc '=' ∉ v := fun hv =>
        Split.not_infix_of_mem_pieces (by decide) hmem ((List.singleton_infix_iff _ _).mpr hv)
      rw [componentsJoinedByString, List.intercalate_singleton]
      exact iff_of_true (plainPair_eq_some.mpr ⟨n, v, hcomps, rfl⟩) hv
    | cons w vs =>
      refine iff_of_false ?_ (not_not.mpr ?_)
      · rw [plainPair_eq_some]
        rintro ⟨n', v', hcomps', -⟩
        rw [hcomps] at hcomps'
        cases hcomps'
      · exact Split.glue_subset_intercalate (Nat.le_add_left 2 _) List.mem_cons_self
  · cases h

/-- The first item is a plain pair that is no option, and what is read from it is its pair. -/
theorem unknownPair_eq_some (h : unknownPair item = some pair) :
    plainPair item = some pair ∧ CookieOption.ofName pair.1 = none := by
  obtain ⟨hplain, hname⟩ := Option.filter_eq_some_iff.mp h
  exact ⟨hplain, of_decide_eq_true hname⟩

theorem plainValue_of_unknownPair {option : CookieOption} (hne : option ≠ .isEnabled)
    (h : unknownPair item = some pair) :
    plainValue option.name item = none := by
  obtain ⟨hplain, hname⟩ := unknownPair_eq_some h
  have hnot : pair.1 ≠ option.name := by
    rw [ne_eq, ← ofName_eq_some hne, hname]
    exact nofun
  rw [plainValue, hplain, Option.bind_some, if_neg hnot]

theorem plainSecure_of_unknownPair (h : unknownPair item = some pair) :
    plainSecure item = none := by
  obtain ⟨hplain, hname⟩ := unknownPair_eq_some h
  obtain ⟨n, v, hcomps, rfl⟩ := plainPair_eq_some.mp hplain
  have hnot : n.stringByStriped ≠ ns "secure" := by
    intro heq
    rw [heq] at hname
    cases hname
  rw [plainSecure, hcomps]
  exact if_neg hnot

/-- The pair that is read last is the first one if and only if that one can be read and no
other is read behind it. -/
theorem lastOf_unknownPair_iff {attributes : List NSString} (hpair : pairOf item = some pair) :
    lastOf unknownPair (item :: attributes) = some pair ↔
      (unknownPair item).isSome = true ∧ ∀ other ∈ lastOf unknownPair attributes,
        unknownPair item = some other := by
  rw [lastOf_cons]
  have hitem : ∀ {other}, unknownPair item = some other → other = pair := fun h =>
    Option.some.inj ((pairOf_of_plainPair (unknownPair_eq_some h).1).symm.trans hpair)
  constructor
  · intro hlast
    obtain ⟨other, hother⟩ : ∃ other, unknownPair item = some other := by
      cases hunknown : unknownPair item with
      | some other => exact ⟨other, rfl⟩
      | none =>
        rw [hunknown, Option.or_none] at hlast
        obtain ⟨item', -, hitem'⟩ := List.mem_filterMap.mp (List.mem_of_getLast? hlast)
        obtain ⟨hplain, hname⟩ := unknownPair_eq_some hitem'
        have hvalue := (plainPair_iff (pairOf_of_plainPair hplain)).mp hplain
        have hhead := (plainPair_iff hpair).mpr hvalue
        rw [unknownPair, hhead, Option.filter_some, if_pos (decide_eq_true hname)] at hunknown
        cases hunknown
    obtain rfl := hitem hother
    refine ⟨by rw [hother]; rfl, fun last hlast' => ?_⟩
    rw [hlast', Option.some_or] at hlast
    rw [hother, hlast]
  · rintro ⟨hfirst, hlast⟩
    obtain ⟨first, hfirst⟩ := Option.isSome_iff_exists.mp hfirst
    obtain rfl := hitem hfirst
    cases hattributes : lastOf unknownPair attributes with
    | none => exact hfirst
    | some other => exact (hlast other hattributes).symm.trans hfirst

/-- The cookie of a string is the one it says if and only if its items are plain. -/
theorem parses_iff {s head : NSString} {attributes : List NSString}
    (hitems : s.componentsSeparatedByString (ns ";") = head :: attributes)
    (hpair : pairOf head = some pair) :
    Parses pair attributes (cookieWithString s) ↔ Plain head attributes := by
  have hcookie : cookieWithString s = (head :: attributes).foldl Cookie.setItem {} := by
    rw [cookieWithString, Cookie.setCookieWithString, hitems]
  have hname : (cookieWithString s).nameAndValue = lastOf unknownPair (head :: attributes) := by
    rw [hcookie, nameAndValue_foldl_setItem]
    exact Option.or_none
  have hunknown := @lastOf_unknownPair_iff head pair attributes hpair
  rw [← hname] at hunknown
  -- the first item is none of the options
  have hstring : ∀ {option}, IsStringOption option → (unknownPair head).isSome = true →
      (cookieWithString s).string option = lastOf (plainValue option.name) attributes := by
    intro option hoption hfirst
    obtain ⟨first, hfirst⟩ := Option.isSome_iff_exists.mp hfirst
    have hne : option ≠ .isEnabled := by
      rintro rfl
      obtain h | h | h := hoption <;> cases h
    rw [hcookie, string_foldl_setItem hoption, lastOf_cons, plainValue_of_unknownPair hne hfirst,
      Option.or_none]
    obtain rfl | rfl | rfl := hoption <;> exact Option.or_none
  have hsecure : (unknownPair head).isSome = true →
      (cookieWithString s).secure = (lastOf plainSecure attributes).getD false := by
    intro hfirst
    obtain ⟨first, hfirst⟩ := Option.isSome_iff_exists.mp hfirst
    rw [hcookie, secure_foldl_setItem, lastOf_cons, plainSecure_of_unknownPair hfirst,
      Option.or_none]
  constructor
  · intro h
    obtain ⟨hfirst, hlast⟩ := hunknown.mp h.pair
    exact ⟨hfirst, hlast, (hstring (.inl rfl) hfirst).symm.trans h.path,
      (hstring (.inr (.inl rfl)) hfirst).symm.trans h.domain,
      (hstring (.inr (.inr rfl)) hfirst).symm.trans h.expires, (hsecure hfirst).symm.trans h.secure⟩
  · intro h
    exact ⟨hunknown.mpr ⟨h.first, h.unknown⟩, (hstring (.inl rfl) h.first).trans h.path,
      (hstring (.inr (.inl rfl)) h.first).trans h.domain,
      (hstring (.inr (.inr rfl)) h.first).trans h.expires, (hsecure h.first).trans h.secure⟩

theorem parses_session : Parses (ns "SPID", ns "XWDtLhNY")
    [ns " expires=1016920836 GMT", ns " path=/"]
    (cookieWithString (ns "SPID=XWDtLhNY; expires=1016920836 GMT; path=/")) := by
  have hitems :
    (ns "SPID=XWDtLhNY; expires=1016920836 GMT; path=/").componentsSeparatedByString (ns ";") =
      [ns "SPID=XWDtLhNY", ns " expires=1016920836 GMT", ns " path=/"] := by decide
  exact (parses_iff hitems (by decide)).mpr
    ⟨by decide, by decide, by decide, by decide, by decide, by decide⟩

/-- `a=b; HttpOnly=1`: an attribute that is not known becomes the cookie. -/
theorem not_parses_unknown :
    ¬ Parses (ns "a", ns "b") [ns " HttpOnly=1"] (cookieWithString (ns "a=b; HttpOnly=1")) := by
  intro h
  exact absurd h.pair (by decide)

end

end BathyScaphe.Cookies
