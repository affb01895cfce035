import BathyScaphe.Cookies.SetCookieHeader
import BathyScaphe.Lib.Keyed

/-!
# Replacing cookies

A cookie that is added takes the place of those of the same name and path: they are removed
from the list of the host, and the new one is put at its end. Without a path two cookies are
not equal, so such a cookie takes no other one's place.
-/

namespace BathyScaphe.Cookies

-- The source

/-- `isEqual:` of two objects. The strings are compared by a message to the other's, which
may be `nil`. -/
def Cookie.isEqual (cookie obj : Cookie) : Bool :=
  match cookie.pair, obj.pair, cookie.path, obj.path with
  | some pair, some pair', some path, some path' => pair'.name == pair.name && path' == path
  | _, _, _, _ => false

namespace CookieManager

def addCookies (header hostName : Option NSString) (manager : CookieManager) : CookieManager :=
  match header, hostName with
  | some header, some hostName =>
    let oldCookies := manager.cookiesForHost hostName
    let oldCookies :=
      match scanSetCookieHeader header with
      | none => oldCookies
      | some newCookies => Keyed.addAll Cookie.isEqual oldCookies newCookies.reverse
    ⟨fun host => if host = hostName then some oldCookies else manager.cookies host⟩
  | _, _ => manager

/-- Calls of `addCookies:fromServer:`, one after the other, from a manager without cookies. -/
def addedFrom (calls : List (Option NSString × Option NSString)) : CookieManager :=
  calls.foldl (fun manager call => manager.addCookies call.1 call.2) ⟨fun _ => none⟩

end CookieManager

-- Names and paths

def Cookie.key (cookie : Cookie) : Option (NSString × Option NSString) :=
  cookie.pair.map fun pair => (pair.name, cookie.path)

/-- The cookies that a call adds to the list of a host, in the order in which it adds them. -/
def addsOf (host : NSString) (call : Option NSString × Option NSString) : List Cookie :=
  match call with
  | (some header, some hostName) => if host = hostName
      then ((scanSetCookieHeader header).getD []).reverse else []
  | _ => []

def adds (host : NSString) (calls : List (Option NSString × Option NSString)) : List Cookie :=
  calls.flatMap (addsOf host)

theorem isEqual_iff {cookie obj : Cookie} : cookie.isEqual obj = true ↔
    cookie.key = obj.key ∧ ∃ name path, cookie.key = some (name, some path) := by
  rw [Cookie.isEqual, Cookie.key, Cookie.key]
  split
  · rename_i pair pair' path path' hpair hpair' hpath hpath'
    rw [hpair, hpair', hpath, hpath', Bool.and_eq_true, beq_iff_eq, beq_iff_eq]
    constructor
    · rintro ⟨hname, rfl⟩
      exact ⟨by rw [Option.map_some, Option.map_some, hname], pair.name, path', rfl⟩
    · rintro ⟨heq, -⟩
      obtain ⟨hname, hpath⟩ := Prod.mk.inj (Option.some.inj heq)
      exact ⟨hname.symm, (Option.some.inj hpath).symm⟩
  · rename_i hnot
    refine iff_of_false Bool.false_ne_true ?_
    rintro ⟨heq, name, path, hkey⟩
    rw [hkey] at heq
    obtain ⟨pair, hpair, hkey⟩ := Option.map_eq_some_iff.mp hkey
    obtain ⟨pair', hpair', hkey'⟩ := Option.map_eq_some_iff.mp heq.symm
    exact hnot pair pair' path path hpair hpair' (Prod.mk.inj hkey).2 (Prod.mk.inj hkey').2

theorem key_eq_of_isEqual (cookie obj : Cookie) (h : cookie.isEqual obj = true) :
    obj.key = cookie.key :=
  (isEqual_iff.mp h).1.symm

theorem finds_path (name path : NSString) : Keyed.Finds Cookie.isEqual Cookie.key
    (some (name, some path)) :=
  fun _ _ hx hy => isEqual_iff.mpr ⟨hx.trans hy.symm, name, path, hx⟩

theorem misses_noPath (name : NSString) : Keyed.Misses Cookie.isEqual Cookie.key
    (some (name, none)) := by
  intro x y hx hy
  rw [Bool.eq_false_iff, ne_eq, isEqual_iff]
  rintro ⟨-, name', path, hkey⟩
  rw [hx] at hkey
  cases hkey

-- Sequences of calls

namespace CookieManager

open Keyed

variable {calls : List (Option NSString × Option NSString)}

theorem cookiesForHost_addCookies (manager : CookieManager) (header hostName : Option NSString)
    (host : NSString) :
    (manager.addCookies header hostName).cookiesForHost host =
      addAll Cookie.isEqual (manager.cookiesForHost host) (addsOf host (header, hostName)) := by
  cases header with
  | none => rfl
  | some header =>
    cases hostName with
    | none => rfl
    | some hostName =>
      rw [addCookies, addsOf, cookiesForHost]
      simp only
      by_cases hhost : host = hostName
      · subst hhost
        rw [if_pos rfl, if_pos rfl]
        cases scanSetCookieHeader header <;> rfl
      · rw [if_neg hhost, if_neg hhost]
        rfl

theorem cookiesForHost_addedFrom (calls : List (Option NSString × Option NSString))
    (host : NSString) :
    (addedFrom calls).cookiesForHost host = addAll Cookie.isEqual [] (adds host calls) := by
  induction calls using List.reverseRecOn with
  | nil => rfl
  | append_singleton calls call ih =>
    rw [addedFrom, List.foldl_append, List.foldl_cons, List.foldl_nil, ← addedFrom,
      cookiesForHost_addCookies, ih, adds, adds, List.flatMap_append, List.flatMap_singleton,
      addAll, addAll, addAll, List.foldl_append]

/-- In every state reached, the list of a host holds of each name and path the cookie that
was added last, and no other one. -/
def HoldsLast (calls : List (Option NSString × Option NSString)) : Prop :=
  ∀ before, before <+: calls → ∀ host name path,
    ofKey Cookie.key (some (name, path)) ((addedFrom before).cookiesForHost host) =
      (ofKey Cookie.key (some (name, path)) (adds host before)).getLast?.toList

/-- Every call leaves the lists of other hosts as they are, and of the host's list all
cookies but those of the names and paths that it adds. -/
def KeepsOthers (calls : List (Option NSString × Option NSString)) : Prop :=
  ∀ before header hostName, before ++ [(header, hostName)] <+: calls → ∀ host,
    (hostName ≠ some host → ((addedFrom before).addCookies header hostName).cookiesForHost host =
      (addedFrom before).cookiesForHost host) ∧
    (((addedFrom before).addCookies header hostName).cookiesForHost host).filter
        (fun cookie => cookie.key ∉ (addsOf host (header, hostName)).map Cookie.key) =
      ((addedFrom before).cookiesForHost host).filter
        fun cookie => cookie.key ∉ (addsOf host (header, hostName)).map Cookie.key

/-- No two cookies of one name without a path are added to one host. -/
def PathlessOnce (calls : List (Option NSString × Option NSString)) : Prop :=
  ∀ host name, (ofKey Cookie.key (some (name, none)) (adds host calls)).length ≤ 1

theorem keepsOthers (calls : List (Option NSString × Option NSString)) : KeepsOthers calls := by
  intro before header hostName _ host
  rw [cookiesForHost_addCookies]
  refine ⟨fun hne => ?_, ?_⟩
  · have hnone : addsOf host (header, hostName) = [] := by
      cases header with
      | none => rfl
      | some header =>
        cases hostName with
        | none => rfl
        | some hostName => exact if_neg fun heq => hne (congrArg some heq.symm)
    rw [hnone]
    rfl
  · refine filter_addAll (p := fun key =>
      key ∉ (addsOf host (header, hostName)).map Cookie.key) key_eq_of_isEqual ?_ _
    intro cookie hcookie
    exact decide_eq_false (not_not.mpr (List.mem_map_of_mem hcookie))

theorem eq_getLast?_toList {cookies : List Cookie} (h : cookies.length ≤ 1) :
    cookies = cookies.getLast?.toList := by
  match cookies, h with
  | [], _ => rfl
  | [_], _ => rfl

/-- The property holds of a sequence of calls if and only if no host gets two cookies of
one name without a path. -/
theorem holdsLast_iff (calls : List (Option NSString × Option NSString)) :
    HoldsLast calls ∧ KeepsOthers calls ↔ PathlessOnce calls := by
  constructor
  · rintro ⟨h, -⟩ host name
    have hlast := h calls (List.prefix_refl calls) host name none
    rw [cookiesForHost_addedFrom, ofKey_addAll_of_misses key_eq_of_isEqual (misses_noPath name)]
      at hlast
    rw [hlast]
    exact Option.length_toList_le
  · intro h
    refine ⟨fun before hbefore host name path => ?_, keepsOthers calls⟩
    rw [cookiesForHost_addedFrom]
    cases path with
    | some path => exact ofKey_addAll_of_finds key_eq_of_isEqual (finds_path name path) _
    | none =>
      rw [ofKey_addAll_of_misses key_eq_of_isEqual (misses_noPath name)]
      obtain ⟨after, rfl⟩ := hbefore
      have hlength := h host name
      rw [adds, List.flatMap_append, ← adds, ofKey_append, List.length_append] at hlength
      exact eq_getLast?_toList (by omega)

/-- `a=1` and `a=2` from one host. -/
theorem not_holdsLast_pathless :
    ¬ (HoldsLast [(some (ns "a=1"), some (ns "h")), (some (ns "a=2"), some (ns "h"))] ∧
    KeepsOthers [(some (ns "a=1"), some (ns "h")), (some (ns "a=2"), some (ns "h"))]) := by
  rintro ⟨h, -⟩
  have hlast := h _ (List.prefix_refl _) (ns "h") (ns "a") none
  exact absurd (congrArg List.length hlast) (by decide)

end CookieManager

end BathyScaphe.Cookies
