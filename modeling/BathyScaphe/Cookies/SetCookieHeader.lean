import BathyScaphe.Cookies.CookieString
import BathyScaphe.Lib.Swap

/-!
# The Set-Cookie header

Several cookies come in one header, with commas between them. The comma behind the day of
an expiry date is no such comma: it is written as a period before the header is split, and
as a comma again in every part.
-/

namespace BathyScaphe.Cookies

open NSString

def cookieStrings (header : NSString) : List NSString :=
  let mstr := header.stringByReplaceCharacters (ns "day,") (ns "day.")
  (mstr.componentsSeparatedByString (ns ",")).map fun item =>
    item.stringByStriped.stringByReplaceCharacters (ns "day.") (ns "day,")

def scanSetCookieHeader (header : NSString) : Option (List Cookie) :=
  if header = [] then none
  else
    let cookies := (cookieStrings header).map cookieWithString
    if cookies = [] then none else some cookies

-- What a header is made of

def stringsOf (header : NSString) : List NSString := if header = [] then []
    else cookieStrings header

/-- The header of the cookie strings is split into these strings, but for white space around
them, and gives their cookies. -/
structure Splits (ss : List NSString) (header : NSString) : Prop where
  strings : stringsOf header = ss.map stringByStriped
  cookies : (scanSetCookieHeader header).getD [] = ss.map cookieWithString

/-- Every comma in a string stands behind `day`, no string in front of a comma ends with
`day`, and `day.` is in none of them. The header of one empty string is no header. -/
structure Protected (ss : List NSString) : Prop where
  kept : Swap.Kept (ns "day") (uc ',') (uc '.') ss
  some : ss ≠ [[]]

-- White space around a string

section
variable {s : NSString} {c x : UniChar} {f : NSString → β}

theorem map_splitOn_cons (hf : ∀ p, f (x :: p) = f p) (hx : x ≠ c) (s : NSString) :
    ((x :: s).splitOn c).map f = (s.splitOn c).map f := by
  rw [List.splitOn_cons_eq_if_modifyHead, if_neg (by simpa using hx)]
  cases h : s.splitOn c with
  | nil => rfl
  | cons p ps => rw [List.modifyHead_cons, List.map_cons, hf, List.map_cons]

theorem splitOn_concat (hx : x ≠ c) (s : NSString) :
    ∃ ps p, s.splitOn c = ps ++ [p] ∧ (s ++ [x]).splitOn c = ps ++ [p ++ [x]] := by
  induction s with
  | nil => exact ⟨[], [], rfl, by simp [List.splitOn_cons_eq_if_modifyHead, hx]⟩
  | cons y s ih =>
    obtain ⟨ps, p, hs, hsx⟩ := ih
    rw [List.cons_append, List.splitOn_cons_eq_if_modifyHead,
      List.splitOn_cons_eq_if_modifyHead, hs, hsx]
    by_cases hy : (y == c) = true
    · rw [if_pos hy, if_pos hy]
      exact ⟨[] :: ps, p, rfl, rfl⟩
    · rw [if_neg hy, if_neg hy]
      cases ps with
      | nil => exact ⟨[], y :: p, rfl, rfl⟩
      | cons q ps => exact ⟨(y :: q) :: ps, p, rfl, rfl⟩

theorem map_splitOn_concat (hf : ∀ p, f (p ++ [x]) = f p) (hx : x ≠ c) (s : NSString) :
    ((s ++ [x]).splitOn c).map f = (s.splitOn c).map f := by
  obtain ⟨ps, p, hs, hsx⟩ := splitOn_concat hx s
  rw [hs, hsx, List.map_append, List.map_append, List.map_singleton, List.map_singleton, hf]

theorem stringByStriped_cons (hx : isWhitespace x = true) (s : NSString) :
    stringByStriped (x :: s) = stringByStriped s := by
  rw [stringByStriped, List.dropWhile_cons_of_pos hx, stringByStriped]

theorem stringByStriped_concat (hx : isWhitespace x = true) (s : NSString) :
    stringByStriped (s ++ [x]) = stringByStriped s := by
  rw [stringByStriped, List.dropWhile_append, stringByStriped]
  split
  · rename_i hnil
    rw [List.isEmpty_iff.mp hnil, List.dropWhile_cons_of_pos hx]
    rfl
  · rw [List.rdropWhile_concat_pos _ _ _ hx]

def partsOf (item : NSString) : List NSString := (item.splitOn (uc '=')).map stringByStriped

/-- Each round of `setCookieWithString:` looks at the parts of an item only. -/
def Cookie.setParts (cookie : Cookie) : List NSString → Cookie
  | [flag] => if flag = ns "secure" then { cookie with secure := true } else cookie
  | [name, value] => cookie.setCookie (.string value) name
  | _ => cookie

theorem setItem_eq (cookie : Cookie) (item : NSString) : cookie.setItem item = cookie.setParts
    (partsOf item) := by
  have hparts : item.componentsSeparatedByString (ns "=") = item.splitOn (uc '=') :=
    Swap.pieces_singleton (uc '=') item
  rw [Cookie.setItem, partsOf, hparts]
  rcases item.splitOn (uc '=') with _ | ⟨name, _ | ⟨value, _ | ⟨more, parts⟩⟩⟩
  · rfl
  · rfl
  · rfl
  · rfl

theorem cookieWithString_eq (s : NSString) :
    cookieWithString s = ((s.splitOn (uc ';')).map partsOf).foldl Cookie.setParts {} := by
  have hitems : s.componentsSeparatedByString (ns ";") = s.splitOn (uc ';') :=
    Swap.pieces_singleton (uc ';') s
  rw [cookieWithString, Cookie.setCookieWithString, hitems, List.foldl_map]
  simp only [← setItem_eq]

theorem ne_of_isWhitespace (hx : isWhitespace x = true) (hc : isWhitespace c = false) : x ≠ c := by
  rintro rfl
  rw [hc] at hx
  cases hx

theorem partsOf_cons (hx : isWhitespace x = true) (item : NSString) :
    partsOf (x :: item) = partsOf item :=
  map_splitOn_cons (stringByStriped_cons hx) (ne_of_isWhitespace hx (by decide)) item

theorem partsOf_concat (hx : isWhitespace x = true) (item : NSString) :
    partsOf (item ++ [x]) = partsOf item :=
  map_splitOn_concat (stringByStriped_concat hx) (ne_of_isWhitespace hx (by decide)) item

theorem cookieWithString_dropWhile (s : NSString) :
    cookieWithString (s.dropWhile isWhitespace) = cookieWithString s := by
  induction s with
  | nil => rfl
  | cons x s ih =>
    by_cases hx : isWhitespace x = true
    · rw [List.dropWhile_cons_of_pos hx, ih, cookieWithString_eq, cookieWithString_eq,
        map_splitOn_cons (partsOf_cons hx) (ne_of_isWhitespace hx (by decide))]
    · rw [List.dropWhile_cons_of_neg hx]

theorem cookieWithString_rdropWhile (s : NSString) :
    cookieWithString (s.rdropWhile isWhitespace) = cookieWithString s := by
  induction s using List.reverseRecOn with
  | nil => rfl
  | append_singleton s x ih =>
    by_cases hx : isWhitespace x = true
    · rw [List.rdropWhile_concat_pos _ _ _ hx, ih, cookieWithString_eq, cookieWithString_eq,
        map_splitOn_concat (partsOf_concat hx) (ne_of_isWhitespace hx (by decide))]
    · rw [List.rdropWhile_concat_neg _ _ _ hx]

theorem cookieWithString_stringByStriped (s : NSString) :
    cookieWithString s.stringByStriped = cookieWithString s := by
  rw [stringByStriped, cookieWithString_rdropWhile, cookieWithString_dropWhile]

theorem count_dropWhile (hc : isWhitespace c = false) (s : NSString) :
    (s.dropWhile isWhitespace).count c = s.count c := by
  induction s with
  | nil => rfl
  | cons x s ih =>
    by_cases hx : isWhitespace x = true
    · rw [List.dropWhile_cons_of_pos hx, ih, List.count_cons_of_ne (ne_of_isWhitespace hx hc)]
    · rw [List.dropWhile_cons_of_neg hx]

theorem count_stringByStriped (hc : isWhitespace c = false) (s : NSString) :
    (stringByStriped s).count c = s.count c := by
  rw [stringByStriped, List.rdropWhile, List.count_reverse, count_dropWhile hc,
    List.count_reverse, count_dropWhile hc]

-- The strings of a header

theorem stringByReplaceCharacters_eq_swap {w : NSString} {c c' : UniChar} (hc : c ∉ w)
    (s : NSString) :
    s.stringByReplaceCharacters (w ++ [c]) (w ++ [c']) = Swap.swap w c c' s := by
  rw [stringByReplaceCharacters, containsString]
  split
  · exact Swap.intercalate_pieces_eq_swap hc s
  · rename_i hnot
    rw [Swap.swap, Swap.swapFrom_of_forall]
    intro a b hs hw
    exact hnot (decide_eq_true (Swap.concat_infix_iff.mpr ⟨a, b, hs, hw⟩))

theorem isWhitespace_day : ∀ x ∈ ns "day", isWhitespace x = false := by
  have hall : (ns "day").all (fun x => !isWhitespace x) = true := by decide
  intro x hx
  simpa using List.all_eq_true.mp hall x hx

theorem cookieStrings_eq (header : NSString) :
    cookieStrings header =
      ((Split.pieces [uc ','] (Swap.swap (ns "day") (uc ',') (uc '.') header)).map
        (Swap.swap (ns "day") (uc '.') (uc ','))).map stringByStriped := by
  have hto := @stringByReplaceCharacters_eq_swap (ns "day") (uc ',') (uc '.') (by decide) header
  rw [cookieStrings, List.map_map]
  rw [show ns "day," = ns "day" ++ [uc ','] from rfl, show ns "day." = ns "day" ++ [uc '.']
    from rfl, hto]
  refine List.map_congr_left fun item _ => ?_
  have hstart : (Swap.swap (ns "day") (uc '.') (uc ',') item).dropWhile isWhitespace =
      Swap.swap (ns "day") (uc '.') (uc ',') (item.dropWhile isWhitespace) :=
    Swap.dropWhile_swapFrom isWhitespace_day (by decide) (by decide)
      (fun _ hnil => absurd hnil List.not_mem_nil) item
  rw [stringByReplaceCharacters_eq_swap (by decide), Function.comp_apply, stringByStriped,
    stringByStriped,
    ← Swap.rdropWhile_swap (by decide) (by decide), ← hstart]

theorem scanSetCookieHeader_eq (header : NSString) :
    (scanSetCookieHeader header).getD [] = (stringsOf header).map cookieWithString := by
  rw [scanSetCookieHeader, stringsOf]
  split
  · rfl
  · simp only
    split
    · rename_i hnil
      rw [hnil]
      rfl
    · rfl

end

variable {ss : List NSString}

theorem componentsJoinedByString_ne_nil (hnil : ss ≠ []) (hempty : ss ≠ [[]]) :
    componentsJoinedByString ss (ns ",") ≠ [] := by
  match ss with
  | [] => exact absurd rfl hnil
  | [s] => simpa [componentsJoinedByString] using hempty
  | s :: s' :: ss => simp [componentsJoinedByString, List.intercalate_cons_cons, ns]

theorem stringsOf_joined (hnil : ss ≠ []) (hempty : ss ≠ [[]]) :
    stringsOf (componentsJoinedByString ss (ns ",")) =
      ((Split.pieces [uc ','] (Swap.swap (ns "day") (uc ',') (uc '.')
        ([uc ','].intercalate ss))).map
        (Swap.swap (ns "day") (uc '.') (uc ','))).map stringByStriped := by
  rw [stringsOf, if_neg (componentsJoinedByString_ne_nil hnil hempty), cookieStrings_eq]
  rfl

/-- The cookies of a header are those of the strings in it if and only if the strings are
protected. -/
theorem splits_iff (ss : List NSString) : Splits ss (componentsJoinedByString ss (ns ",")) ↔
    Protected ss := by
  constructor
  · rintro ⟨hstrings, -⟩
    by_cases hnil : ss = []
    · subst hnil
      exact ⟨⟨nofun, nofun, nofun⟩, List.cons_ne_nil [] [] |>.symm⟩
    · by_cases hempty : ss = [[]]
      · subst hempty
        cases hstrings
      · rw [stringsOf_joined hnil hempty] at hstrings
        refine ⟨Swap.kept_of_count (by decide) (by decide) (by decide) hnil ?_, hempty⟩
        have hcounts := congrArg (List.map (List.count (uc ','))) hstrings
        have hcount : List.count (uc ',') ∘ stringByStriped = List.count (uc ',') :=
          funext (count_stringByStriped (by decide))
        rwa [List.map_map, @List.map_map _ _ _ _ _ ss, hcount] at hcounts
  · rintro ⟨hkept, hempty⟩
    have hstrings : stringsOf (componentsJoinedByString ss (ns ",")) = ss.map stringByStriped := by
      by_cases hnil : ss = []
      · subst hnil
        rfl
      · rw [stringsOf_joined hnil hempty]
        exact congrArg _ (hkept.parts (by decide) (by decide) (by decide) hnil)
    refine ⟨hstrings, ?_⟩
    rw [scanSetCookieHeader_eq, hstrings, List.map_map]
    exact List.map_congr_left fun s _ => cookieWithString_stringByStriped s

/-- The comma behind a short name of a day splits the cookie. -/
theorem not_splits_short_day :
    ¬ Splits [ns "a=1; expires=Mon, 01-Jan-2007 00:00:00 GMT"]
      (componentsJoinedByString [ns "a=1; expires=Mon, 01-Jan-2007 00:00:00 GMT"] (ns ",")) := by
  rintro ⟨-, hcookies⟩
  exact absurd (congrArg List.length hcookies) (by decide)

end BathyScaphe.Cookies
