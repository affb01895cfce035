import BathyScaphe.Cookies.Replacement
import BathyScaphe.Lib.Fields

/-!
# Sending cookies

A request gets the cookies of its host whose path its own path begins with, that are enabled
and not expired, and behind them the two cookies of the Be account. In between the manager is
cleared of expired cookies, and saved and loaded again. Whatever is done, a host gets only
what it has sent, and of every name and path what it has sent last.
-/

namespace BathyScaphe.Cookies

-- The source

structure RequestURL where
  host : Option NSString
  path : Option NSString

def hasPrefix (s aString : NSString) : Bool := !aString.isEmpty && aString.isPrefixOf s

def Cookie.isAvalilableURL (cookie : Cookie) (anURL : RequestURL) : Bool :=
  match cookie.path with
  | none => true
  | some path => anURL.path.any fun requested => hasPrefix requested path

def Cookie.stringValue (cookie : Cookie) : Option NSString :=
  cookie.pair.map fun pair => pair.name ++ ns "=" ++ pair.value

structure BeAccount where
  mailAddress : Option NSString
  code : Option NSString

def beCookies (order : KeyEnumerator) (be : BeAccount) : List Cookie :=
  match be.mailAddress, be.code with
  | some mailAddress, some code =>
    if mailAddress = [] ∨ code = [] then []
    else [Cookie.initWithDictionary order [(ns "DMDM", .string mailAddress)],
      Cookie.initWithDictionary order [(ns "MDMD", .string code)]]
  | _, _ => []

variable (expiresDate : NSString → Option Int) (order : KeyEnumerator)

def Cookie.isSendable (anURL : RequestURL) (now : Int) (cookie : Cookie) : Bool :=
  cookie.isAvalilableURL anURL && cookie.isEnabled && !(cookie.isExpired expiresDate now).1

namespace CookieManager

/-- The cookies whose text `cookiesForRequestURL:withBeCookie:` joins. -/
def avails (be : BeAccount) (withBe : Bool) (now : Int) (anURL : RequestURL)
    (manager : CookieManager) :
    Option (List Cookie) :=
  match anURL.host with
  | none => none
  | some host =>
    match manager.cookies host with
    | none | some [] => none
    | some cookies =>
      some (cookies.filter (Cookie.isSendable expiresDate anURL now) ++ if withBe
        then beCookies order be else [])

/-- The description of a cookie without a name is `nil`, which cannot be joined. -/
inductive JoinException where
  | nilDescription

def textOfCookies (cookies : List Cookie) : Except JoinException NSString :=
  match cookies.mapM Cookie.stringValue with
  | none => .error .nilDescription
  | some values => .ok (NSString.componentsJoinedByString values (ns "; "))

def cookiesForRequestURL (be : BeAccount) (withBe : Bool) (now : Int) (anURL : RequestURL)
    (manager : CookieManager) : Except JoinException (Option NSString) :=
  match manager.avails expiresDate order be withBe now anURL with
  | none => .ok none
  | some cookies => (textOfCookies cookies).map some

def deleteExpiredCookies (now : Int) (manager : CookieManager) : CookieManager :=
  ⟨dictionaryByDeletingExpiredCookies expiresDate order now fun host =>
    (manager.cookies host).map fun cookies => cookies.map .cookie⟩

end CookieManager

inductive Event where
  | addCookies (header hostName : Option NSString)
  | deleteExpiredCookies (now : Int)
  | removeAllCookies
  /-- The application terminates, and is started again later. -/
  | restart (saved loaded : Int)

open CookieManager in
def Event.apply (manager : CookieManager) : Event → CookieManager
  | .addCookies header hostName => manager.addCookies header hostName
  | .deleteExpiredCookies now => manager.deleteExpiredCookies expiresDate order now
  | .removeAllCookies => ⟨fun _ => none⟩
  | .restart saved loaded =>
    initWithPropertyListRepresentation expiresDate order loaded
      (manager.dictionaryRepresentation expiresDate saved)

def managerAfter (events : List Event) : CookieManager :=
  events.foldl (Event.apply expiresDate order) ⟨fun _ => none⟩

-- What is remembered of a host

def Event.keeps (cookie : Cookie) : Event → Bool
  | .addCookies .. => true
  | .deleteExpiredCookies now => !(cookie.isExpired expiresDate now).1
  | .removeAllCookies => false
  | .restart saved loaded => cookie.isLive expiresDate saved && cookie.isLive expiresDate loaded

/-- The cookie that a host has sent last under a name and a path, unless it is gone. -/
def Event.last (host : NSString) (key : Option (NSString × Option NSString)) (old : Option Cookie) :
    Event → Option Cookie
  | .addCookies header hostName =>
      (Keyed.ofKey Cookie.key key (addsOf host (header, hostName))).getLast?.or old
  | e => old.filter fun cookie => e.keeps expiresDate cookie

def lastSent (host : NSString) (key : Option (NSString × Option NSString)) (events : List Event) :
    Option Cookie :=
  events.foldl (Event.last expiresDate host key) none

def Event.ops (host : NSString) : Event → List (Keyed.Op Cookie)
  | .addCookies header hostName => (addsOf host (header, hostName)).map .add
  | .deleteExpiredCookies now =>
      [.reverse, .keep (Event.keeps expiresDate · (.deleteExpiredCookies now))]
  | .removeAllCookies => [.keep (Event.keeps expiresDate · .removeAllCookies)]
  | .restart saved loaded => [.keep (Event.keeps expiresDate · (.restart saved loaded))]

open Keyed

theorem foldl_add (xs adds : List Cookie) :
    (adds.map Op.add).foldl (applyOp Cookie.isEqual) xs = addAll Cookie.isEqual xs adds := by
  rw [List.foldl_map]
  rfl

theorem cookiesForHost_apply (manager : CookieManager) (e : Event) (host : NSString) :
    (e.apply expiresDate order manager).cookiesForHost host =
      (e.ops expiresDate host).foldl (applyOp Cookie.isEqual) (manager.cookiesForHost host) := by
  cases e with
  | addCookies header hostName =>
    rw [Event.ops, foldl_add]
    exact CookieManager.cookiesForHost_addCookies manager header hostName host
  | deleteExpiredCookies now =>
    simp only [Event.apply, CookieManager.deleteExpiredCookies, CookieManager.cookiesForHost,
      CookieManager.dictionaryByDeletingExpiredCookies]
    cases manager.cookies host with
    | none => rfl
    | some cookies =>
      cases cookies with
      | nil => rfl
      | cons cookie cookies =>
        show List.filter _ (((cookie :: cookies).map CookieObject.cookie).reverse.map
          (CookieObject.asCookie order)) = _
        rw [← List.map_reverse, List.map_map]
        show List.filter _ (List.map id _) = _
        rw [List.map_id]
        rfl
  | removeAllCookies => exact (List.filter_false _).symm
  | restart saved loaded =>
      exact CookieManager.cookiesForHost_load_save expiresDate order saved loaded manager host

theorem cookiesForHost_managerAfter (events : List Event) (host : NSString) :
    (managerAfter expiresDate order events).cookiesForHost host =
      run Cookie.isEqual (events.flatMap (Event.ops expiresDate host)) := by
  induction events using List.reverseRecOn with
  | nil => rfl
  | append_singleton events e ih =>
    rw [managerAfter, List.foldl_append, List.foldl_cons, List.foldl_nil, ← managerAfter,
      cookiesForHost_apply, ih,
      List.flatMap_append, List.flatMap_singleton, run, run, List.foldl_append]

theorem foldl_leaveOp_add (key : Option (NSString × Option NSString)) (adds : List Cookie)
    (old : Option Cookie) :
    (adds.map Op.add).foldl (leaveOp Cookie.key key) old =
      (ofKey Cookie.key key adds).getLast?.or old := by
  induction adds using List.reverseRecOn with
  | nil => rfl
  | append_singleton adds cookie ih =>
    rw [List.map_append, List.foldl_append, ih, ofKey_append]
    by_cases hkey : cookie.key = key
    · rw [ofKey_singleton hkey, List.getLast?_concat]
      exact if_pos hkey
    · rw [ofKey_singleton_of_ne hkey, List.append_nil]
      exact if_neg hkey

theorem left_eq_lastSent (events : List Event) (host : NSString)
    (key : Option (NSString × Option NSString)) :
    left Cookie.key key (events.flatMap (Event.ops expiresDate host)) =
      lastSent expiresDate host key events := by
  induction events using List.reverseRecOn with
  | nil => rfl
  | append_singleton events e ih =>
    rw [List.flatMap_append, List.flatMap_singleton, left, List.foldl_append, ← left, ih, lastSent,
      lastSent, List.foldl_append]
    cases e with
    | addCookies header hostName => exact foldl_leaveOp_add key _ _
    | deleteExpiredCookies | removeAllCookies | restart => rfl

-- What is sent

/-- The host has sent the cookie, and it has not been cleared since. -/
def IsFrom (host : NSString) (events : List Event) (cookie : Cookie) : Prop :=
  ∃ before header after, events = before ++ .addCookies (some header) (some host) :: after ∧
    cookie ∈ (scanSetCookieHeader header).getD [] ∧ ∀ e ∈ after, e.keeps expiresDate cookie = true

variable {expiresDate order}

theorem IsFrom.concat (h : IsFrom expiresDate host events cookie)
    (he : e.keeps expiresDate cookie = true) :
    IsFrom expiresDate host (events ++ [e]) cookie := by
  obtain ⟨before, header, after, rfl, hmem, hafter⟩ := h
  refine ⟨before, header, after ++ [e], by simp, hmem, ?_⟩
  exact List.forall_mem_append.mpr ⟨hafter, List.forall_mem_singleton.mpr he⟩

theorem isFrom_of_mem (h : cookie ∈ (managerAfter expiresDate order events).cookiesForHost host) :
    IsFrom expiresDate host events cookie := by
  induction events using List.reverseRecOn with
  | nil => cases h
  | append_singleton events e ih =>
    rw [managerAfter, List.foldl_append, List.foldl_cons, List.foldl_nil, ← managerAfter,
      cookiesForHost_apply] at h
    cases e with
    | addCookies header hostName =>
      rw [Event.ops, foldl_add] at h
      obtain hold | hnew := mem_addAll h
      · exact (ih hold).concat rfl
      · cases header with
        | none => cases hnew
        | some header =>
          cases hostName with
          | none => cases hnew
          | some hostName =>
            simp only [addsOf] at hnew
            split at hnew
            · rename_i hhost
              subst hhost
              exact ⟨events, header, [], rfl, List.mem_reverse.mp hnew, fun e he =>
                absurd he List.not_mem_nil⟩
            · cases hnew
    | deleteExpiredCookies now =>
      obtain ⟨h, hkept⟩ := List.mem_filter.mp h
      exact (ih (List.mem_reverse.mp h)).concat hkept
    | removeAllCookies =>
      obtain ⟨-, hkept⟩ := List.mem_filter.mp h
      cases hkept
    | restart saved loaded =>
      obtain ⟨h, hkept⟩ := List.mem_filter.mp h
      exact (ih h).concat hkept

section
variable {be : BeAccount} {withBe : Bool} {now : Int} {anURL : RequestURL} {manager : CookieManager}
  {cookies sent : List Cookie} {cookie : Cookie} {host : NSString} {events : List Event}

theorem avails_of_host (hhost : anURL.host = some host) (hleft : manager.cookiesForHost host ≠ []) :
    manager.avails expiresDate order be withBe now anURL =
      some ((manager.cookiesForHost host).filter (Cookie.isSendable expiresDate anURL now) ++
        if withBe then beCookies order be else []) := by
  simp only [CookieManager.avails, hhost]
  rw [CookieManager.cookiesForHost] at hleft ⊢
  cases hlist : manager.cookies host with
  | none =>
    rw [hlist] at hleft
    exact absurd rfl hleft
  | some held =>
    cases held with
    | nil =>
      rw [hlist] at hleft
      exact absurd rfl hleft
    | cons cookie held => rfl

theorem avails_of_none (h : ∀ host ∈ anURL.host, manager.cookiesForHost host = []) :
    manager.avails expiresDate order be withBe now anURL = none := by
  rw [CookieManager.avails]
  cases hhost : anURL.host with
  | none => rfl
  | some host =>
    have hnone := h host hhost
    rw [CookieManager.cookiesForHost] at hnone
    cases hlist : manager.cookies host with
    | none => simp only [hlist]
    | some held =>
      rw [hlist] at hnone
      obtain rfl : held = [] := hnone
      simp only [hlist]

theorem stringValue_eq_none_iff : cookie.stringValue = none ↔ cookie.pair = none :=
  Option.map_eq_none_iff

theorem textOfCookies_eq_error_iff :
    CookieManager.textOfCookies cookies = .error .nilDescription ↔
      ∃ cookie ∈ cookies, cookie.pair = none := by
  have hnone := Fields.mapM_eq_none_iff (g := Cookie.stringValue) (l := cookies)
  simp only [stringValue_eq_none_iff] at hnone
  rw [← hnone, CookieManager.textOfCookies]
  cases cookies.mapM Cookie.stringValue <;> simp

theorem pair_of_mem_beCookies (h : cookie ∈ beCookies order be) : cookie.pair ≠ none := by
  have hnamed : ∀ name s, CookieOption.ofName name = none →
      (Cookie.initWithDictionary order [(name, .string s)]).pair ≠ none := by
    intro name s hname
    rw [Cookie.initWithDictionary, List.perm_singleton.mp (order.perm _), List.foldl_cons,
      List.foldl_nil, setCookie_string hname]
    exact Option.some_ne_none _
  rw [beCookies] at h
  split at h
  · split at h
    · cases h
    · obtain rfl | h := List.mem_cons.mp h
      · exact hnamed _ _ (by decide)
      · obtain rfl := List.mem_singleton.mp h
        exact hnamed _ _ (by decide)
  · cases h

theorem answer_ne_nil : (CookieManager.textOfCookies cookies).map some ≠ .ok none := by
  cases CookieManager.textOfCookies cookies <;> simp [Except.map]

theorem answer_eq_error_iff : (CookieManager.textOfCookies cookies).map some =
    .error .nilDescription ↔
    CookieManager.textOfCookies cookies = .error .nilDescription := by
  cases CookieManager.textOfCookies cookies <;> simp [Except.map]

theorem cookiesForRequestURL_of_host (hhost : anURL.host = some host)
    (hleft : manager.cookiesForHost host ≠ []) :
    manager.cookiesForRequestURL expiresDate order be withBe now anURL =
      (CookieManager.textOfCookies ((manager.cookiesForHost host).filter
        (Cookie.isSendable expiresDate anURL now) ++
        if withBe then beCookies order be else [])).map some := by
  rw [CookieManager.cookiesForRequestURL, avails_of_host hhost hleft]

theorem cookiesForRequestURL_eq_none_iff :
    manager.cookiesForRequestURL expiresDate order be withBe now anURL = .ok none ↔
      ∀ host ∈ anURL.host, manager.cookiesForHost host = [] := by
  constructor
  · intro h host hhost
    by_contra hleft
    rw [cookiesForRequestURL_of_host hhost hleft] at h
    exact answer_ne_nil h
  · intro h
    rw [CookieManager.cookiesForRequestURL, avails_of_none h]

variable (expiresDate) in
structure IsSent (host : NSString) (events : List Event) (anURL : RequestURL) (now : Int)
    (cookie : Cookie) : Prop where
  isAvalilableURL : cookie.isAvalilableURL anURL = true
  isEnabled : cookie.isEnabled = true
  live : (cookie.isExpired expiresDate now).1 = false
  isFrom : IsFrom expiresDate host events cookie

end

end BathyScaphe.Cookies
