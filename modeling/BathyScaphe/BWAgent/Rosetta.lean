import BathyScaphe.BWAgent.BoardMenu
import BathyScaphe.Lib.Rewrite
import Mathlib.Logic.Function.Basic

/-!
# Boards that have moved

`rosetta.pl` makes a table of the boards of 2ch.net and bbspink.com in a menu and writes
their servers into the URLs of a user's list. The key of the table is the directory of the
board, whichever of the two sites it is on. The scripts read bytes, and so are the
characters here.
-/

namespace BathyScaphe.BWAgent.Rosetta

open Markup Rewrite

-- URLs of boards

def isWord (c : Char) : Bool := c.isAlphanum || c = '_'

def IsWord (s : Text) : Prop := s ≠ [] ∧ s.all isWord = true

instance (s : Text) : Decidable (IsWord s) := by
  unfold IsWord
  infer_instance

inductive Site where
  | ch2
  | bbspink
  deriving DecidableEq

def Site.text : Site → Text
  | ch2 => "2ch.net".toList
  | bbspink => "bbspink.com".toList

@[ext] structure BoardURL where
  host : Text
  site : Site
  name : Text
  host_word : IsWord host
  name_word : IsWord name
  deriving DecidableEq

def scheme : Text := "http://".toList

namespace BoardURL

def server (u : BoardURL) : Text := u.host ++ '.' :: u.site.text

def text (u : BoardURL) : Text := scheme ++ (u.server ++ '/' :: (u.name ++ ['/']))

end BoardURL

def after (p s : Text) : Option Text := if p <+: s then some (s.drop p.length) else none

def word (s : Text) : Option ({w // IsWord w} × Text) :=
  if h : IsWord (s.takeWhile isWord) then some (⟨s.takeWhile isWord, h⟩, s.dropWhile isWord)
  else none

def site (s : Text) : Option (Site × Text) :=
  ((after Site.ch2.text s).map (.ch2, ·)).or ((after Site.bbspink.text s).map (.bbspink, ·))

/-- `http://(\w+?\.(?:2ch\.net|bbspink\.com))/(\w+?)/` at the start of a text. -/
def read (s : Text) : Option BoardURL := do
  let s ← after scheme s
  let (host, s) ← word s
  let s ← after ['.'] s
  let (site, s) ← site s
  let s ← after ['/'] s
  let (name, s) ← word s
  let _ ← after ['/'] s
  return ⟨host.1, site, name.1, host.2, name.2⟩

section
variable {p s t w : Text} {u v : BoardURL}

theorem after_append (p s : Text) : after p (p ++ s) = some s := by
  rw [after, if_pos (List.prefix_append p s), List.drop_left]

theorem after_eq_some : after p s = some t ↔ s = p ++ t := by
  constructor
  · intro h
    unfold after at h
    split at h
    · rename_i hp
      rw [← Option.some.inj h, List.prefix_iff_eq_append.mp hp]
    · cases h
  · rintro rfl
    exact after_append p t

theorem word_append (hw : IsWord w) (hs : ∀ c ∈ s.head?, isWord c = false) :
    word (w ++ s) = some (⟨w, hw⟩, s) := by
  have hall := List.all_eq_true.mp hw.2
  have htake : s.takeWhile isWord = [] := by
    cases s with
    | nil => rfl
    | cons c s => exact List.takeWhile_cons_of_neg (by simpa using hs c rfl)
  have hdrop : s.dropWhile isWord = s := by
    cases s with
    | nil => rfl
    | cons c s => exact List.dropWhile_cons_of_neg (by simpa using hs c rfl)
  have htaken : (w ++ s).takeWhile isWord = w := by
    rw [List.takeWhile_append_of_pos hall, htake, List.append_nil]
  have hdropped : (w ++ s).dropWhile isWord = s := by rw [List.dropWhile_append_of_pos hall, hdrop]
  unfold word
  simp only [htaken, hdropped, hw, dif_pos]

theorem word_eq_some {x : {w // IsWord w}} (h : word s = some (x, t)) : s = x.1 ++ t := by
  unfold word at h
  split at h
  · cases h
    exact (List.takeWhile_append_dropWhile).symm
  · cases h

theorem site_append (k : Site) (s : Text) : site (k.text ++ s) = some (k, s) := by
  cases k with
  | ch2 => rw [site, after_append, Option.map_some, Option.some_or]
  | bbspink =>
    have hnot : ¬ Site.ch2.text <+: Site.bbspink.text ++ s := by
      intro h
      obtain ⟨r, hr⟩ := h
      cases (List.cons.inj hr).1
    rw [site, after, if_neg hnot, Option.map_none, Option.none_or, after_append, Option.map_some]

theorem site_eq_some {k : Site} (h : site s = some (k, t)) : s = k.text ++ t := by
  unfold site at h
  rcases Option.or_eq_some_iff.mp h with h | ⟨-, h⟩ <;> obtain ⟨r, hr, heq⟩ :=
    Option.map_eq_some_iff.mp h <;>
    cases heq <;> exact after_eq_some.mp hr

theorem read_eq_some : read s = some u ↔ u.text <+: s := by
  constructor
  · intro h
    simp only [read, Option.bind_eq_bind, Option.bind_eq_some_iff, Option.pure_def,
      Prod.exists] at h
    obtain ⟨s₁, h₁, host, s₂, h₂, s₃, h₃, k, s₄, h₄, s₅, h₅, name, s₆, h₆, s₇, h₇, heq⟩ := h
    cases heq
    refine ⟨s₇, ?_⟩
    rw [after_eq_some.mp h₁, word_eq_some h₂, after_eq_some.mp h₃, site_eq_some h₄,
      after_eq_some.mp h₅, word_eq_some h₆, after_eq_some.mp h₇]
    simp only [BoardURL.text, BoardURL.server, List.append_assoc, List.cons_append, List.nil_append]
  · rintro ⟨r, rfl⟩
    have htext : u.text ++ r = scheme ++ (u.host ++ (['.'] ++ (u.site.text ++ (['/'] ++
        (u.name ++ (['/'] ++ r)))))) := by
      simp only [BoardURL.text, BoardURL.server, List.append_assoc, List.cons_append,
        List.nil_append]
    rw [htext]
    unfold read
    simp only [after_append, Option.bind_eq_bind, Option.bind_some]
    rw [word_append u.host_word (by simp; decide)]
    simp only [after_append, Option.bind_some, site_append]
    rw [word_append u.name_word (by simp; decide)]
    simp only [after_append, Option.bind_some]
    rfl

-- Boards in a text

theorem not_mem_of_isWord {c : Char} (hw : IsWord w) (hc : isWord c = false) : c ∉ w := by
  intro h
  rw [List.all_eq_true.mp hw.2 c h] at hc
  cases hc

theorem BoardURL.exists_text (u : BoardURL) : ∃ r, u.text = "http".toList ++ ':' :: r ∧
    ':' ∉ r ∧ r.getLast? = some '/' := by
  have hscheme : scheme = "http".toList ++ ':' :: ['/', '/'] := by decide
  refine ⟨'/' :: '/' :: (u.server ++ '/' :: (u.name ++ ['/'])), ?_, ?_, ?_⟩
  · rw [text, hscheme, List.append_assoc]
    rfl
  · have hsite : ':' ∉ u.site.text := by cases u.site <;> decide
    have hhost : ':' ∉ u.host := not_mem_of_isWord u.host_word (by decide)
    have hname : ':' ∉ u.name := not_mem_of_isWord u.name_word (by decide)
    simp only [server, List.mem_cons, List.mem_append, not_or]
    simp [hsite, hhost, hname]
  · simp [List.getLast?_cons, List.getLast?_append]

theorem text_apart {a : Text} (ha : a ≠ []) (h : u.text <+: a ++ (v.text ++ t)) : u.text <+: a := by
  obtain hshort | ⟨z, hz⟩ := List.prefix_or_prefix_of_prefix h (List.prefix_append a _)
  · exact hshort
  · rw [← hz, List.prefix_append_right_inj] at h
    obtain ⟨r, hu, hr, hlast⟩ := u.exists_text
    obtain ⟨r', hv, -, -⟩ := v.exists_text
    rw [hv, List.append_assoc] at h
    have hlast' : u.text.getLast? = some '/' := by
      rw [hu, List.getLast?_append, List.getLast?_cons, hlast]
      rfl
    obtain hfew | ⟨z', hz'⟩ :=
      List.prefix_or_prefix_of_prefix h (List.prefix_append "http".toList _)
    · -- the URL does not end with a letter of the scheme
      cases hend : z.getLast? with
      | none =>
        rw [List.getLast?_eq_none_iff.mp hend, List.append_nil] at hz
        rw [hz]
      | some d =>
        have hd : d ∈ "http".toList := hfew.subset (List.mem_of_getLast? hend)
        rw [← hz, List.getLast?_append, hend, Option.some_or] at hlast'
        rw [Option.some.inj hlast'] at hd
        exact absurd hd (by decide)
    · cases z' with
      | nil =>
        have hd : 'p' = '/' := by
          rw [← hz, ← hz', List.append_nil, List.getLast?_append] at hlast'
          exact Option.some.inj hlast'
        exact absurd hd (by decide)
      | cons d z' =>
        -- there would be another colon
        rw [← hz', List.prefix_append_right_inj, List.cons_append, List.cons_prefix_cons] at h
        obtain rfl := h.1
        rw [hu, ← hz', ← List.append_assoc] at hz
        have hfirst : "http".toList ++ ':' :: r = (a ++ "http".toList) ++ ':' :: z' := hz.symm
        obtain ⟨b, hb, hr'⟩ | ⟨b, hb, hr'⟩ := List.append_eq_append_iff.mp hfirst
        · cases b with
          | nil =>
            have hlength := congrArg List.length hb
            rw [List.append_nil, List.length_append] at hlength
            exact absurd (List.length_eq_zero_iff.mp (by omega)) ha
          | cons e b =>
            refine absurd ?_ hr
            rw [(List.cons.inj hr').2]
            simp
        · have hlength := congrArg List.length hb
          rw [List.length_append, List.length_append] at hlength
          exact absurd (List.length_eq_zero_iff.mp (by omega)) ha

end

def boardURLs : Words Char BoardURL where
  text := BoardURL.text
  read := read
  read_eq_some := read_eq_some
  text_ne_nil _ := List.append_ne_nil_of_left_ne_nil (by decide) _
  apart := text_apart

-- rosetta.pl

abbrev Table := Text → Option Text

def link (piece : Text) : Option BoardURL := piece.tails.findSome? fun s =>
    (after "HREF=".toList s).bind read

def links (menu : Text) : List BoardURL := (split ['>'] menu).filterMap link

def store (table : Table) (piece : Text) : Table :=
  match link piece with
  | some u => Function.update table u.name (some u.server)
  | none => table

/-- The last one of the pieces is stored first, so the first one stays. -/
def table (menu : Text) : Table := (split ['>'] menu).reverse.foldl store fun _ => none

def bosh (table : Table) (oserv name : Text) : Text :=
  let serv := (table name).getD []
  let serv := if serv = [] then oserv else serv
  scheme ++ (serv ++ '/' :: (name ++ ['/']))

def treat (table : Table) (content : Text) : Text :=
  boardURLs.rewrite (fun u => bosh table u.server u.name) content

def rosetta (menu content : Text) : Text := treat (table menu) content

-- Where boards are

def listed (menu : Text) (u : BoardURL) : BoardURL :=
  ((links menu).find? fun v => v.site = u.site ∧ v.name = u.name).getD u

/-- The boards of a list have moved to where the menu lists them, and nothing else is changed. -/
def Moved (menu content content' : Text) : Prop := boardURLs.Rewrites (listed menu) content content'

def namesake (menu : Text) (u : BoardURL) : Option BoardURL :=
  (links menu).find? fun v => v.name = u.name

/-- The menu lists the directory of a board of the list first on the site of the board. -/
def KeepsSites (menu content : Text) : Prop :=
  ∀ u ∈ boardURLs.words content, ∀ v ∈ namesake menu u, v.site = u.site

instance (menu content : Text) : Decidable (KeepsSites menu content) := by
  unfold KeepsSites
  infer_instance

section
variable {menu piece : Text} {u v : BoardURL}

theorem store_none (h : link piece = none) (t : Table) : store t piece = t := by rw [store, h]

theorem store_some (h : link piece = some u) (t : Table) :
    store t piece = Function.update t u.name (some u.server) := by
  rw [store, h]

theorem table_eq (menu name : Text) :
    table menu name = ((links menu).find? fun v => v.name = name).map BoardURL.server := by
  rw [table, links, List.foldl_reverse]
  induction split ['>'] menu with
  | nil => rfl
  | cons piece pieces ih =>
    cases hlink : link piece with
    | none => rw [List.foldr_cons, store_none hlink, List.filterMap_cons_none hlink, ih]
    | some u =>
      rw [List.foldr_cons, store_some hlink, List.filterMap_cons_some hlink, List.find?_cons]
      by_cases hname : u.name = name
      · rw [hname, decide_eq_true rfl, Function.update_self]
        rfl
      · rw [decide_eq_false hname, Function.update_of_ne (Ne.symm hname), ih]

theorem bosh_table (menu : Text) (u : BoardURL) :
    bosh (table menu) u.server u.name = ((namesake menu u).getD u).text := by
  unfold bosh namesake
  rw [table_eq]
  cases hfind : (links menu).find? fun v => v.name = u.name with
  | none => rfl
  | some v =>
    have hname : v.name = u.name := by simpa using List.find?_some hfind
    have hserver : v.server ≠ [] := List.append_ne_nil_of_left_ne_nil v.host_word.1 _
    simp only [Option.map_some, Option.getD_some, if_neg hserver, BoardURL.text, hname]

theorem rosetta_eq (menu content : Text) :
    rosetta menu content = boardURLs.rewrite (fun u => ((namesake menu u).getD u).text) content :=
  congrArg (boardURLs.rewrite · content) (funext (bosh_table menu))

theorem namesake_namesake (menu : Text) (u : BoardURL) :
    (namesake menu ((namesake menu u).getD u)).getD ((namesake menu u).getD u) =
      (namesake menu u).getD u := by
  cases hfind : namesake menu u with
  | none => rw [Option.getD_none, hfind, Option.getD_none]
  | some v =>
    have hname : v.name = u.name := by simpa using List.find?_some hfind
    have hsame : namesake menu v = namesake menu u := by rw [namesake, namesake, hname]
    rw [Option.getD_some, hsame, hfind, Option.getD_some]

theorem rosetta_rosetta (menu content : Text) :
    rosetta menu (rosetta menu content) = rosetta menu content := by
  rw [rosetta_eq menu (rosetta menu content), rosetta_eq menu content]
  refine (Words.rewrite_rewrite (k := boardURLs) content).trans ?_
  refine congrArg (boardURLs.rewrite · content) (funext fun u => ?_)
  rw [namesake_namesake]

theorem namesake_eq_listed_iff (menu : Text) (u : BoardURL) :
    (namesake menu u).getD u = listed menu u ↔ ∀ v ∈ namesake menu u, v.site = u.site := by
  constructor
  · intro h v hv
    rw [hv, Option.getD_some] at h
    rw [h, listed]
    cases hfind : (links menu).find? fun v => v.site = u.site ∧ v.name = u.name with
    | none => rfl
    | some w =>
      have hboth : w.site = u.site ∧ w.name = u.name := by simpa using List.find?_some hfind
      exact hboth.1
  · intro h
    unfold listed
    cases hfind : namesake menu u with
    | none =>
      have hnone : (links menu).find? (fun v => decide (v.site = u.site ∧ v.name = u.name)) =
        none := by
        unfold namesake at hfind
        rw [List.find?_eq_none] at hfind
        refine List.find?_eq_none.mpr fun v hv => ?_
        have hother : v.name ≠ u.name := by simpa using hfind v hv
        simp [hother]
      rw [hnone]
    | some v =>
      have hsome : (links menu).find? (fun v => decide (v.site = u.site ∧ v.name = u.name)) =
        some v := by
        obtain ⟨hname, before, behind, hlinks, hbefore⟩ := List.find?_eq_some_iff_append.mp hfind
        refine List.find?_eq_some_iff_append.mpr ⟨?_, before, behind, hlinks, fun w hw => ?_⟩
        · simpa using ⟨h v hfind, by simpa using hname⟩
        · have hother : w.name ≠ u.name := by simpa using hbefore w hw
          simp [hother]
      rw [hsome]

theorem moved_rosetta_iff (menu content : Text) :
    Moved menu content (rosetta menu content) ↔ KeepsSites menu content := by
  rw [Moved, Words.rewrites_iff, rosetta_eq]
  exact Words.rewrite_eq_iff.trans (forall₂_congr fun u _ => namesake_eq_listed_iff menu u)

end

-- Both scripts

/-- The property list shows the menu if the menu is clean, and boards move to where a menu lists
them if it lists no directory on another site first. -/
theorem converts_iff (menu : Menu) (page content : Text) :
    (ShowsMenu menu ↔ ∀ m ∈ menu.categories, m.IsClean) ∧
      (Moved page content (rosetta page content) ∧ rosetta page (rosetta page content) =
        rosetta page content ↔
        KeepsSites page content) := by
  refine ⟨showsMenu_iff_isClean menu, ?_⟩
  rw [moved_rosetta_iff]
  exact and_iff_left (rosetta_rosetta page content)

def ampersand : MenuCategory where
  name := "A&B".toList
  rest := []
  lines := []
  name_line := by decide
  name_closed := by unfold Within; decide
  rest_line := by decide
  unmarked := by decide

/-- An `&` in the name of a category, and a board with a namesake on the other site. -/
theorem not_converts :
    ¬ ShowsMenu ⟨[], [ampersand], by decide⟩ ∧
      rosetta "<A HREF=http://a.bbspink.com/x/>".toList "http://b.2ch.net/x/".toList =
        "http://a.bbspink.com/x/".toList ∧
      ¬ Moved "<A HREF=http://a.bbspink.com/x/>".toList "http://b.2ch.net/x/".toList
        "http://a.bbspink.com/x/".toList := by
  have hmoves : rosetta "<A HREF=http://a.bbspink.com/x/>".toList "http://b.2ch.net/x/".toList =
      "http://a.bbspink.com/x/".toList := by decide +kernel
  refine ⟨fun h => ?_, hmoves, fun h => ?_⟩
  · have hclean := (showsMenu_iff_isClean _).mp h ampersand List.mem_cons_self
    exact hclean.name_ampersands (by decide)
  · rw [← hmoves, moved_rosetta_iff] at h
    exact absurd h (by decide +kernel)

end BathyScaphe.BWAgent.Rosetta
