import BathyScaphe.Foundation.StringComponents
import Mathlib.Data.List.Nodup
import Mathlib.Data.List.Perm.Basic

/-!
# The cookies and their file

A cookie is saved as a dictionary of its options and its value. The manager saves
those cookies of each host that have a date and are not expired, from the last to the
first; loading goes from the last to the first again and leaves out what has expired
since. -/

namespace BathyScaphe.Cookies

/-- `boolValue` of a string: what stands behind white space, a sign and zeros. -/
def boolValue (s : NSString) : Bool :=
  let s := s.dropWhile NSString.isWhitespace
  let s := if s.head? = some (uc '+') ∨ s.head? = some (uc '-') then s.tail else s
  match s.dropWhile (· == uc '0') with
  | [] => false
  | c :: _ => (uc '1' ≤ c && c ≤ uc '9') || c == uc 'Y' || c == uc 'y' || c == uc 'T' || c == uc 't'

-- Cookies

inductive CookieOption where
  | secure
  | isEnabled
  | path
  | domain
  | expires
  deriving DecidableEq

def CookieOption.ofName (aName : NSString) : Option CookieOption :=
  if aName = ns "secure" then some .secure
  else if aName = ns "x-application/CocoMonar enabled" ∨
    aName = ns "x-application/BathyScaphe enabled" then
    some .isEnabled
  else if aName = ns "path" then some .path
  else if aName = ns "domain" then some .domain
  else if aName = ns "expires" then some .expires
  else none

inductive CookieValue where
  | string (s : NSString)
  | bool (b : Bool)

structure NamedValue where
  name : NSString
  value : NSString
  notOption : CookieOption.ofName name = none

structure Cookie where
  pair : Option NamedValue := none
  path : Option NSString := none
  domain : Option NSString := none
  expires : Option NSString := none
  secure : Bool := false
  isEnabled : Bool := true

namespace Cookie

/-- Strings and numbers have a `boolValue`. The other options are strings, and keep what
they have when the value is none. -/
def setOption (cookie : Cookie) : CookieOption → CookieValue → Cookie
  | .secure, .bool b => { cookie with secure := b }
  | .secure, .string s => { cookie with secure := boolValue s }
  | .isEnabled, .bool b => { cookie with isEnabled := b }
  | .isEnabled, .string s => { cookie with isEnabled := boolValue s }
  | .path, .string s => { cookie with path := some s }
  | .domain, .string s => { cookie with domain := some s }
  | .expires, .string s => { cookie with expires := some s }
  | _, _ => cookie

def setCookie (cookie : Cookie) (aValue : CookieValue) (aName : NSString) : Cookie :=
  match h : CookieOption.ofName aName with
  | some option => cookie.setOption option aValue
  | none =>
    match aValue with
    | .string s => { cookie with pair := some ⟨aName, s, h⟩ }
    | .bool _ => cookie

def dictionaryRepresentation (cookie : Cookie) : List (NSString × CookieValue) :=
  cookie.path.toList.map (fun path => (ns "path", .string path)) ++
    cookie.domain.toList.map (fun domain => (ns "domain", .string domain)) ++
    cookie.expires.toList.map (fun expires => (ns "expires", .string expires)) ++
    [(ns "secure", .bool cookie.secure), (ns "x-application/BathyScaphe enabled",
      .bool cookie.isEnabled)] ++
    cookie.pair.toList.map (fun pair => (pair.name, .string pair.value))

end Cookie

structure KeyEnumerator where
  keys : List (NSString × CookieValue) → List (NSString × CookieValue)
  perm : ∀ dict, (keys dict).Perm dict

def Cookie.initWithDictionary (order : KeyEnumerator) (dict : List (NSString × CookieValue)) :
    Cookie :=
  (order.keys dict).foldl (fun cookie entry => cookie.setCookie entry.2 entry.1) {}

theorem setCookie_option (h : CookieOption.ofName aName = some option) (cookie : Cookie)
    (aValue : CookieValue) :
    cookie.setCookie aValue aName = cookie.setOption option aValue := by
  rw [Cookie.setCookie]
  split
  · rename_i other hother
    rw [Option.some.inj (hother.symm.trans h)]
  · rename_i hnone
    rw [h] at hnone
    cases hnone

theorem setCookie_string (h : CookieOption.ofName aName = none) (cookie : Cookie) (s : NSString) :
    cookie.setCookie (.string s) aName = { cookie with pair := some ⟨aName, s, h⟩ } := by
  rw [Cookie.setCookie]
  split
  · rename_i option hoption
    rw [h] at hoption
    cases hoption
  · rfl

theorem setCookie_bool (h : CookieOption.ofName aName = none) (cookie : Cookie) (b : Bool) :
    cookie.setCookie (.bool b) aName = cookie := by
  rw [Cookie.setCookie]
  split
  · rename_i option hoption
    rw [h] at hoption
    cases hoption
  · rfl

theorem setOption_comm (hne : option ≠ option') (cookie : Cookie) (aValue aValue' : CookieValue) :
    (cookie.setOption option aValue).setOption option' aValue' =
      (cookie.setOption option' aValue').setOption option aValue := by
  cases aValue <;> cases aValue' <;> cases option <;> cases option' <;>
    first | rfl | exact absurd rfl hne

theorem setOption_pair (cookie : Cookie) (option : CookieOption) (aValue : CookieValue)
    (pair : Option NamedValue) :
    { cookie with pair := pair }.setOption option aValue =
      { cookie.setOption option aValue with pair := pair } := by
  cases option <;> cases aValue <;> rfl

theorem setCookie_comm (hne : CookieOption.ofName aName ≠ CookieOption.ofName aName')
    (cookie : Cookie) (aValue aValue' : CookieValue) :
    (cookie.setCookie aValue aName).setCookie aValue' aName' =
      (cookie.setCookie aValue' aName').setCookie aValue aName := by
  cases hname : CookieOption.ofName aName with
  | some option =>
    cases hname' : CookieOption.ofName aName' with
    | some option' =>
      simp only [setCookie_option hname, setCookie_option hname']
      refine setOption_comm (fun heq => hne ?_) cookie aValue aValue'
      rw [hname, hname', heq]
    | none =>
      cases aValue' with
      | string s => simp only [setCookie_option hname, setCookie_string hname', setOption_pair]
      | bool b => simp only [setCookie_bool hname']
  | none =>
    cases hname' : CookieOption.ofName aName' with
    | some option' =>
      cases aValue with
      | string s => simp only [setCookie_option hname', setCookie_string hname, setOption_pair]
      | bool b => simp only [setCookie_bool hname]
    | none => exact absurd (hname.trans hname'.symm) hne

theorem ofName_path : CookieOption.ofName (ns "path") = some .path := by decide

theorem ofName_domain : CookieOption.ofName (ns "domain") = some .domain := by decide

theorem ofName_expires : CookieOption.ofName (ns "expires") = some .expires := by decide

theorem ofName_secure : CookieOption.ofName (ns "secure") = some .secure := by decide

theorem ofName_enabled :
    CookieOption.ofName (ns "x-application/BathyScaphe enabled") = some .isEnabled := by decide

theorem nodup_dictionaryRepresentation (cookie : Cookie) :
    (cookie.dictionaryRepresentation.map fun entry => CookieOption.ofName entry.1).Nodup := by
  obtain ⟨pair, path, domain, expires, secure, isEnabled⟩ := cookie
  cases pair <;> cases path <;> cases domain <;> cases expires <;>
    simp [Cookie.dictionaryRepresentation, ofName_path, ofName_domain, ofName_expires,
      ofName_secure, ofName_enabled, NamedValue.notOption]

theorem foldl_dictionaryRepresentation (cookie : Cookie) :
    cookie.dictionaryRepresentation.foldl (fun cookie entry =>
      cookie.setCookie entry.2 entry.1) {} = cookie := by
  obtain ⟨pair, path, domain, expires, secure, isEnabled⟩ := cookie
  cases pair <;> cases path <;> cases domain <;> cases expires <;>
    simp [Cookie.dictionaryRepresentation, setCookie_option ofName_path,
      setCookie_option ofName_domain, setCookie_option ofName_expires,
      setCookie_option ofName_secure, setCookie_option ofName_enabled, Cookie.setOption,
      setCookie_string (NamedValue.notOption _)]

/-- A cookie comes back from its dictionary, whatever the order of the keys. -/
theorem initWithDictionary_dictionaryRepresentation (order : KeyEnumerator) (cookie : Cookie) :
    Cookie.initWithDictionary order cookie.dictionaryRepresentation = cookie := by
  have hperm := order.perm cookie.dictionaryRepresentation
  have hcomm : ∀ first ∈ order.keys cookie.dictionaryRepresentation,
      ∀ second ∈ order.keys cookie.dictionaryRepresentation, ∀ c : Cookie,
        (c.setCookie first.2 first.1).setCookie second.2 second.1 =
          (c.setCookie second.2 second.1).setCookie first.2 first.1 := by
    intro first hfirst second hsecond c
    by_cases heq : first = second
    · rw [heq]
    · refine setCookie_comm (fun hsame => heq ?_) c first.2 second.2
      exact List.inj_on_of_nodup_map (nodup_dictionaryRepresentation cookie) (hperm.subset hfirst)
        (hperm.subset hsecond) hsame
  rw [Cookie.initWithDictionary, hperm.foldl_eq' hcomm]
  exact foldl_dictionaryRepresentation cookie

-- The manager

variable (expiresDate : NSString → Option Int)

def Cookie.date (cookie : Cookie) : Option Int := cookie.expires.bind expiresDate

/-- `isExpired:` at a time, and the flag for a cookie that ends with the application. -/
def Cookie.isExpired (now : Int) (cookie : Cookie) : Bool × Bool :=
  match cookie.date expiresDate with
  | none => (false, true)
  | some date => (date < now, false)

structure CookieManager where
  cookies : NSString → Option (List Cookie)

/-- What the arrays that are cleared of expired cookies hold. -/
inductive CookieObject where
  | cookie (held : Cookie)
  | dict (entries : List (NSString × CookieValue))

def CookieObject.asCookie (order : KeyEnumerator) : CookieObject → Cookie
  | .cookie held => held
  | .dict entries => Cookie.initWithDictionary order entries

namespace CookieManager

def dictionaryRepresentation (now : Int) (manager : CookieManager) (host : NSString) :
    Option (List (List (NSString × CookieValue))) :=
  match manager.cookies host with
  | none | some [] => none
  | some cookies =>
    let kept := cookies.reverse.filter fun cookie =>
      let (isExpired, whenTerminate) := cookie.isExpired expiresDate now
      !(isExpired || whenTerminate)
    some (kept.map Cookie.dictionaryRepresentation)

def dictionaryByDeletingExpiredCookies (order : KeyEnumerator) (now : Int)
    (dict : NSString → Option (List CookieObject)) (host : NSString) : Option (List Cookie) :=
  match dict host with
  | none | some [] => none
  | some cookies =>
    some ((cookies.reverse.map (CookieObject.asCookie order)).filter fun cookie =>
      !(cookie.isExpired expiresDate now).1)

/-- `initWithPropertyListRepresentation:` of the dictionary in the file. -/
def initWithPropertyListRepresentation (order : KeyEnumerator) (now : Int)
    (rep : NSString → Option (List (List (NSString × CookieValue)))) : CookieManager :=
  ⟨dictionaryByDeletingExpiredCookies expiresDate order now fun host =>
    (rep host).map fun cookies => cookies.map .dict⟩

/-- The cookies for a host, none where it is not there. -/
def cookiesForHost (manager : CookieManager) (host : NSString) : List Cookie :=
  (manager.cookies host).getD []

end CookieManager

def Cookie.isLive (now : Int) (cookie : Cookie) : Bool :=
  (cookie.date expiresDate).any fun date => now ≤ date

theorem isLive_eq (now : Int) (cookie : Cookie) :
    cookie.isLive expiresDate now =
      !((cookie.isExpired expiresDate now).1 || (cookie.isExpired expiresDate now).2) := by
  rw [Cookie.isLive, Cookie.isExpired]
  cases cookie.date expiresDate with
  | none => rfl
  | some date =>
    show decide (now ≤ date) = !(decide (date < now) || false)
    rw [Bool.or_false, ← decide_not]
    exact decide_eq_decide.mpr Int.not_lt.symm

/-- Of the cookies with a date, those that are live are the ones that are not expired. -/
theorem isLive_and_isLive (now later : Int) (cookie : Cookie) :
    (cookie.isLive expiresDate now && !(cookie.isExpired expiresDate later).1) =
      (cookie.isLive expiresDate now && cookie.isLive expiresDate later) := by
  rw [isLive_eq expiresDate later, Cookie.isLive, Cookie.isExpired]
  cases cookie.date expiresDate <;> simp

namespace CookieManager

theorem getD_dictionaryRepresentation (now : Int) (manager : CookieManager) (host : NSString) :
    (manager.dictionaryRepresentation expiresDate now host).getD [] =
      ((manager.cookiesForHost host).reverse.filter (Cookie.isLive expiresDate now)).map
        Cookie.dictionaryRepresentation := by
  have hlive : Cookie.isLive expiresDate now = fun cookie =>
      !((cookie.isExpired expiresDate now).1 || (cookie.isExpired expiresDate now).2) :=
    funext (isLive_eq expiresDate now)
  rw [dictionaryRepresentation, cookiesForHost]
  cases manager.cookies host with
  | none => rfl
  | some cookies =>
    cases cookies with
    | nil => rfl
    | cons cookie cookies =>
      rw [hlive]
      rfl

theorem cookiesForHost_initWithPropertyListRepresentation (order : KeyEnumerator) (now : Int)
    (rep : NSString → Option (List (List (NSString × CookieValue)))) (host : NSString) :
    (initWithPropertyListRepresentation expiresDate order now rep).cookiesForHost host =
      (((rep host).getD []).reverse.map (Cookie.initWithDictionary order)).filter fun cookie =>
        !(cookie.isExpired expiresDate now).1 := by
  simp only [cookiesForHost, initWithPropertyListRepresentation, dictionaryByDeletingExpiredCookies]
  cases rep host with
  | none => rfl
  | some dicts =>
    cases dicts with
    | nil => rfl
    | cons entries dicts =>
      show List.filter _ (((entries :: dicts).map CookieObject.dict).reverse.map
        (CookieObject.asCookie order)) = _
      rw [← List.map_reverse, List.map_map]
      rfl

/-- After saving at one time and loading at another, the cookies of every host are
those that have a date and are not expired at either time, in their order. -/
theorem cookiesForHost_load_save (order : KeyEnumerator) (saved loaded : Int)
    (manager : CookieManager) (host : NSString) :
    (initWithPropertyListRepresentation expiresDate order loaded
      (manager.dictionaryRepresentation expiresDate saved)).cookiesForHost host =
      (manager.cookiesForHost host).filter fun cookie =>
        cookie.isLive expiresDate saved && cookie.isLive expiresDate loaded := by
  rw [cookiesForHost_initWithPropertyListRepresentation, getD_dictionaryRepresentation,
    ← List.map_reverse, ← List.filter_reverse, List.reverse_reverse, List.map_map]
  have hid : Cookie.initWithDictionary order ∘ Cookie.dictionaryRepresentation = id :=
    funext fun cookie => initWithDictionary_dictionaryRepresentation order cookie
  rw [hid, List.map_id, List.filter_filter]
  refine congrArg (List.filter · _) (funext fun cookie => ?_)
  rw [Bool.and_comm]
  exact isLive_and_isLive expiresDate saved loaded cookie

/-- A cookie that expires between saving and loading. -/
theorem cookiesForHost_expiring_fails :
    ¬∀ (order : KeyEnumerator) (saved loaded : Int) (manager : CookieManager) (host : NSString),
      (initWithPropertyListRepresentation (fun _ => some 5) order loaded
        (manager.dictionaryRepresentation (fun _ => some 5) saved)).cookiesForHost host =
        (manager.cookiesForHost host).filter (Cookie.isLive (fun _ => some 5) saved) := by
  intro h
  have hload := h ⟨id, fun _ => List.Perm.refl _⟩ 0 10 ⟨fun _ =>
    some [{ expires := some (ns "e") }]⟩ (ns "h")
  exact absurd (congrArg List.length hload) (by decide)

end CookieManager

end BathyScaphe.Cookies
