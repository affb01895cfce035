import BathyScaphe.Lib.Greedy
import BathyScaphe.Lib.Markup
import BathyScaphe.Lib.Split

/-!
# The board menu as a property list

`sora.pl` splits the menu at the mark of a category and into lines, and takes the name of
the category from the first line and a board from each line with a link. Of a name the
first `&` is escaped, the other texts are written as they are. The output goes through a
filter to UTF-8, so the model is one of characters.
-/

namespace BathyScaphe.BWAgent

open Markup Greedy

@[ext] structure Board where
  name : Text
  url : Text
  deriving DecidableEq

@[ext] structure Category where
  name : Text
  list : List Board
  deriving DecidableEq

-- sora.pl

def split (sep s : Text) : List Text := (Split.pieces sep s).rdropWhile (·.isEmpty)

def behind (pattern s : Text) : Option Text :=
  if (s.take pattern.length).map Char.toLower = pattern.map Char.toLower
    then some (s.drop pattern.length) else none

def upTo (pattern : Text) : Text → Option Text
  | [] => none
  | c :: s =>
    if (behind pattern (c :: s)).isSome then some []
    else if c = '\n' then none
    else (upTo pattern s).map (c :: ·)

def nameBehind : Text → Option Text
  | '>' :: c :: s => if c = '\n' then none else (upTo "</a>".toList s).map (c :: ·)
  | _ => none

def linkHere (s : Text) : Option Board := do
  let s ← behind "HREF=".toList s
  let rest ← behind "http://".toList s
  let (taken, _, name) ← takeMany (· ≠ ' ') (takeMany (· ≠ '\n') nameBehind 0) 1 rest
  return ⟨name, s.take 7 ++ taken⟩

def link (l : Text) : Option Board := l.tails.findSome? linkHere

def escape : Text → Text
  | [] => []
  | c :: s => if c = '&' then '&' :: ("amp;".toList ++ s) else c :: escape s

def category (text : Text) : Category :=
  let lines := split ['\n'] text
  ⟨(upTo "</B>".toList (lines.headD [])).getD [],
    (lines.tail.filterMap link).map fun s => { s with name := escape s.name }⟩

def mark : Text := "<BR><B>".toList

def data (page : Text) : List Category := ((split mark page).drop 1).map category

def boardEntry (s : Board) : Text :=
  "<dict><key>Name</key>\n<string>".toList ++
    (s.name ++ ("</string>\n<key>URL</key>\n<string>".toList ++
    (s.url ++ "</string></dict>\n".toList)))

def categoryEntry (c : Category) : Text :=
  "<dict>\n<key>Contents</key>\n<array>\n".toList ++ (c.list.flatMap boardEntry ++
    ("</array>\n<key>Name</key>\n<string>".toList ++ (c.name ++ "</string>\n</dict>\n".toList)))

def plistStart : Text :=
  ("<?xml version=\"1.0\" encoding=\"UTF-8\"?>\n" ++
    "<!DOCTYPE plist PUBLIC \"-//Apple Computer//DTD PLIST 1.0//EN\" " ++
    "\"http://www.apple.com/DTDs/PropertyList-1.0.dtd\">\n" ++ "<plist version=\"1.0\">").toList

def plistEnd : Text := "</plist>".toList

def sora (page : Text) : Text :=
  plistStart ++ ("\n<array>\n".toList ++ ((data page).flatMap categoryEntry ++ "</array>".toList) ++
    plistEnd)

-- Menus

/-- Whether a text is part of another one, in either case. -/
def Within (pattern s : Text) : Prop := pattern <:+: s.map Char.toLower

/-- A line with the link of a board: `<A HREF=url attributes>name</A>` -/
structure BoardLine where
  board : Board
  attributes : Text
  rest : Text
  url_http : ∃ scheme u, scheme.map Char.toLower = "http://".toList ∧ u ≠ [] ∧
    board.url = scheme ++ u
  url_whole : ∀ c ∈ board.url, c ≠ ' ' ∧ c ≠ '>' ∧ c ≠ '\n'
  attributes_apart : ∀ c ∈ attributes.head?, c = ' '
  attributes_whole : ∀ c ∈ attributes, c ≠ '>' ∧ c ≠ '\n'
  name_ne_nil : board.name ≠ []
  name_line : '\n' ∉ board.name
  name_closed : ¬ Within "</a>".toList board.name
  rest_line : '\n' ∉ rest
  rest_closed : ¬ Within "</a>".toList rest

def BoardLine.text (l : BoardLine) : Text :=
  "<A HREF=".toList ++
    (l.board.url ++ (l.attributes ++ '>' :: (l.board.name ++ ("</A>".toList ++ l.rest))))

def categoryText (name rest : Text) (lines : List BoardLine) : Text :=
  name ++ ("</B>".toList ++ (rest ++ '\n' :: lines.flatMap fun l => l.text ++ ['\n']))

structure MenuCategory where
  name : Text
  rest : Text
  lines : List BoardLine
  name_line : '\n' ∉ name
  name_closed : ¬ Within "</b>".toList name
  rest_line : '\n' ∉ rest
  unmarked : ¬ mark <:+: categoryText name rest lines

structure Menu where
  top : Text
  categories : List MenuCategory
  top_unmarked : ¬ mark <:+: top

def Menu.text (m : Menu) : Text :=
  m.top ++ m.categories.flatMap fun c => mark ++ categoryText c.name c.rest c.lines

def MenuCategory.shown (c : MenuCategory) : Category := ⟨c.name, c.lines.map (·.board)⟩

-- Texts in either case

section
variable {pattern s t u v : Text} {c d : Char}

theorem behind_append (h : v.map Char.toLower = pattern.map Char.toLower) (s : Text) :
    behind pattern (v ++ s) = some s := by
  have hlength : pattern.length = v.length := by
    have hmapped := congrArg List.length h
    rw [List.length_map, List.length_map] at hmapped
    exact hmapped.symm
  rw [behind, hlength, List.take_left, if_pos h, List.drop_left]

theorem behind_cons (h : c.toLower ≠ d.toLower) (pattern s : Text) : behind (d :: pattern)
    (c :: s) = none := by
  rw [behind, if_neg]
  rw [List.length_cons, List.take_succ_cons, List.map_cons, List.map_cons]
  exact fun heq => h (List.cons.inj heq).1

theorem prefix_of_behind (h : (behind pattern s).isSome) :
    pattern.map Char.toLower <+: s.map Char.toLower := by
  rw [behind] at h
  split at h
  · rename_i heq
    rw [← heq, List.map_take]
    exact List.take_prefix _ _
  · cases h

theorem not_starts_append {a b : Text} (hpattern : '<' ∉ pattern) (ha : a ≠ [])
    (hnot : ¬ '<' :: pattern <+: a) :
    ¬ '<' :: pattern <+: a ++ '<' :: b := by
  intro h
  obtain hshort | hlong := List.prefix_or_prefix_of_prefix h (List.prefix_append a ('<' :: b))
  · exact hnot hshort
  · obtain ⟨z, hz⟩ := hlong
    cases a with
    | nil => exact ha rfl
    | cons c a =>
      cases z with
      | nil =>
        rw [List.append_nil] at hz
        exact hnot (hz ▸ List.prefix_rfl)
      | cons d z =>
        obtain ⟨rfl, hrest⟩ := List.cons.inj hz
        have hrest : a ++ d :: z = pattern := hrest
        rw [← hrest, List.cons_append, List.cons_prefix_cons, List.prefix_append_right_inj,
          List.cons_prefix_cons] at h
        exact hpattern (by rw [← hrest, h.2.1]; simp)

theorem not_behind {w : Text} (hpattern : '<' ∉ pattern) (hw : w ≠ [])
    (hnot : ¬ '<' :: pattern <+: w.map Char.toLower) {closing : Text}
    (hclosing : closing.map Char.toLower = '<' :: pattern) (s : Text) :
    (behind closing (w ++ '<' :: s)).isSome = false := by
  refine Bool.eq_false_iff.mpr fun h => ?_
  have hstarts := prefix_of_behind h
  rw [hclosing, List.map_append, List.map_cons] at hstarts
  exact not_starts_append hpattern (by simpa using hw) hnot hstarts

theorem upTo_append (hline : '\n' ∉ u) (hnot : ∀ v w, u = v ++ w → w ≠ [] →
    (behind pattern (w ++ s)).isSome = false)
    (hs : (behind pattern s).isSome = true) (hne : s ≠ []) : upTo pattern (u ++ s) = some u := by
  induction u with
  | nil =>
    obtain ⟨c, s, rfl⟩ := List.exists_cons_of_ne_nil hne
    rw [List.nil_append, upTo, if_pos hs]
  | cons c u ih =>
    obtain ⟨hc, hline⟩ := not_or.mp (mt List.mem_cons.mpr hline)
    have hhere := hnot [] (c :: u) rfl (List.cons_ne_nil c u)
    rw [List.cons_append] at hhere ⊢
    rw [upTo, if_neg (by simp [hhere]), if_neg (Ne.symm hc), ih hline, Option.map_some]
    exact fun v w huv hw => hnot (c :: v) w (by rw [huv, List.cons_append]) hw

theorem upTo_eq_none (hnot : ∀ v w, s = v ++ w → (behind pattern w).isSome = false) :
    upTo pattern s = none := by
  induction s with
  | nil => rfl
  | cons c s ih =>
    have hhere := hnot [] (c :: s) rfl
    rw [upTo, if_neg (by simp [hhere])]
    split
    · rfl
    · rw [ih fun v w hs => hnot (c :: v) w (by rw [hs, List.cons_append]), Option.map_none]

theorem upTo_closed {closing : Text} (hpattern : '<' ∉ pattern)
    (hclosing : closing.map Char.toLower = '<' :: pattern)
    (hu : ¬ Within ('<' :: pattern) u) (hline : '\n' ∉ u) {e : Text}
    (he : ('<' :: e).map Char.toLower = '<' :: pattern) (s : Text) :
    upTo closing (u ++ '<' :: (e ++ s)) = some u := by
  refine upTo_append hline (fun v w huv hw => ?_) ?_ (List.cons_ne_nil _ _)
  · refine not_behind hpattern hw (fun hstarts => hu ?_) hclosing _
    unfold Within
    rw [huv, List.map_append]
    exact hstarts.isInfix.trans (List.suffix_append _ _).isInfix
  · have hsome : behind closing (('<' :: e) ++ s) = some s :=
      behind_append (he.trans hclosing.symm) s
    rw [List.cons_append] at hsome
    rw [hsome]
    rfl

-- The link of a line

theorem exists_cut (h : u ≠ []) :
    ∃ p q, '>' :: u = p ++ '>' :: q ∧ q ≠ [] ∧ '>' ∉ q.dropLast ∧ ('>' ∉ u.dropLast → p = []) := by
  induction u with
  | nil => exact absurd rfl h
  | cons c u ih =>
    by_cases hin : '>' ∈ (c :: u).dropLast
    · obtain ⟨d, u', rfl⟩ : ∃ d u', u = d :: u' := by
        cases u with
        | nil => cases hin
        | cons d u' => exact ⟨d, u', rfl⟩
      obtain ⟨p, q, heq, hq, hlast, -⟩ := ih (List.cons_ne_nil d u')
      cases p with
      | nil =>
        -- the first character is the last one to cut at
        rw [List.nil_append] at heq
        obtain rfl := (List.cons.inj heq).2
        obtain rfl : '>' = c := (List.mem_cons.mp hin).resolve_right hlast
        exact ⟨['>'], d :: u', rfl, hq, hlast, fun hnot => absurd hin hnot⟩
      | cons e p =>
        obtain ⟨rfl, hrest⟩ := List.cons.inj heq
        refine ⟨'>' :: c :: p, q, ?_, hq, hlast, fun hnot => absurd hin hnot⟩
        rw [hrest]
        rfl
    · exact ⟨[], c :: u, rfl, h, hin, fun _ => rfl⟩

section
variable {q rest x y : Text}

theorem nameBehind_append (hq : q ≠ []) (hline : '\n' ∉ q) (hclosed : ¬ Within "</a>".toList q)
    (rest : Text) :
    nameBehind ('>' :: (q ++ ("</A>".toList ++ rest))) = some q := by
  obtain ⟨c, q, rfl⟩ := List.exists_cons_of_ne_nil hq
  obtain ⟨hc, hline⟩ := not_or.mp (mt List.mem_cons.mpr hline)
  have hclosed' : ¬ Within "</a>".toList q := by
    intro h
    unfold Within at h hclosed
    rw [List.map_cons] at hclosed
    exact hclosed (h.trans (List.suffix_cons _ _).isInfix)
  have hname := @upTo_closed "/a>".toList q "</a>".toList (by decide)
    (by decide) hclosed' hline "/A>".toList
    (by decide) rest
  rw [List.cons_append, nameBehind, if_neg (Ne.symm hc)]
  exact congrArg (Option.map (c :: ·)) hname

theorem nameBehind_eq_none {t : Text} (h : ∀ c s, t = '>' :: c :: s → upTo "</a>".toList s = none) :
    nameBehind t = none := by
  unfold nameBehind
  split
  · split
    · rfl
    · rw [h _ _ rfl, Option.map_none]
  · rfl

theorem upTo_rest (hclosed : ¬ Within "</a>".toList rest) {c : Char} {v s : Text}
    (h : "</A>".toList ++ rest = v ++ c :: s) : upTo "</a>".toList s = none := by
  refine upTo_eq_none fun a w hs => Bool.eq_false_iff.mpr fun hsome => ?_
  have hstarts := prefix_of_behind hsome
  have hfirst : ∀ {d : Char} {w' : Text}, w = d :: w' → d.toLower = '<' := by
    rintro d w' rfl
    exact (List.cons_prefix_cons.mp hstarts).1.symm
  have hw : w <:+ "/A>".toList ++ rest := by
    cases v with
    | nil =>
      have hc : "/A>".toList ++ rest = s := (List.cons.inj h).2
      rw [hc, hs]
      exact List.suffix_append a w
    | cons d v =>
      have hc : "/A>".toList ++ rest = v ++ c :: s := (List.cons.inj h).2
      rw [hc, hs]
      exact ⟨v ++ c :: a, by simp⟩
  obtain ⟨b, hb⟩ := hw
  match b, hb with
  | [], hb => exact absurd (hfirst hb) (by decide)
  | [_], hb => exact absurd (hfirst (List.cons.inj hb).2) (by decide)
  | [_, _], hb => exact absurd (hfirst (List.cons.inj (List.cons.inj hb).2).2) (by decide)
  | _ :: _ :: _ :: b, hb =>
    have hrest : b ++ w = rest := (List.cons.inj (List.cons.inj (List.cons.inj hb).2).2).2
    refine hclosed ?_
    unfold Within
    rw [← hrest, List.map_append]
    exact hstarts.isInfix.trans (List.suffix_append _ _).isInfix

theorem nameBehind_rest (hlast : '>' ∉ q.dropLast) (hclosed : ¬ Within "</a>".toList rest)
    {v t : Text}
    (h : q ++ ("</A>".toList ++ rest) = v ++ t) : nameBehind t = none := by
  refine nameBehind_eq_none ?_
  rintro c s rfl
  rw [List.append_cons] at h
  obtain ⟨a, -, ha⟩ | ⟨b, hb, hs⟩ := List.append_eq_append_iff.mp h
  · exact upTo_rest hclosed ha
  · cases b with
    | nil => exact upTo_rest hclosed (v := []) hs.symm
    | cons e b =>
      refine absurd ?_ hlast
      rw [hb, List.dropLast_append_cons]
      simp

theorem nameBehind_skip (hx : '\n' ∉ x) (hq : q ≠ []) (hline : '\n' ∉ q)
    (hclosed : ¬ Within "</a>".toList q)
    (hlast : '>' ∉ q.dropLast) (hrest : ¬ Within "</a>".toList rest) :
    takeMany (· ≠ '\n') nameBehind 0 (x ++ '>' :: (q ++ ("</A>".toList ++ rest))) =
      some (x, q) := by
  refine takeMany_append (fun c hc => ?_) (Nat.zero_le _)
    (nameBehind_append hq hline hclosed rest) ?_
  · exact decide_eq_true fun h => hx (h ▸ hc)
  · intro v t hvt hv _
    cases v with
    | nil => exact absurd rfl hv
    | cons c v => exact nameBehind_rest hlast hrest (List.cons.inj hvt).2

theorem nameBehind_skip_rest (hlast : '>' ∉ q.dropLast) (hrest : ¬ Within "</a>".toList rest)
    {v t : Text}
    (h : q ++ ("</A>".toList ++ rest) = v ++ t) : takeMany (· ≠ '\n') nameBehind 0 t = none := by
  refine takeMany_eq_none 0 fun w t' ht _ => ?_
  exact nameBehind_rest hlast hrest (v := v ++ w) (by rw [h, ht, List.append_assoc])

theorem linkHere_append {href scheme u : Text} (hhref : href.map Char.toLower = "href=".toList)
    (hscheme : scheme.map Char.toLower = "http://".toList) (hu : u ≠ []) (hwhole : ' ' ∉ u)
    (hx : '\n' ∉ x)
    (hq : q ≠ []) (hline : '\n' ∉ q) (hclosed : ¬ Within "</a>".toList q) (hlast : '>' ∉ q.dropLast)
    (hrest : ¬ Within "</a>".toList rest) :
    linkHere (href ++ (scheme ++ (u ++ (x ++ '>' :: (q ++ ("</A>".toList ++ rest)))))) =
      some ⟨q, scheme ++ (u ++ x.takeWhile (· ≠ ' '))⟩ := by
  have htake : takeMany (· ≠ ' ') (takeMany (· ≠ '\n') nameBehind 0) 1
      ((u ++ x.takeWhile (· ≠ ' ')) ++ (x.dropWhile (· ≠ ' ') ++ '>' ::
        (q ++ ("</A>".toList ++ rest)))) =
        some (u ++ x.takeWhile (· ≠ ' '), (x.dropWhile (· ≠ ' '), q)) := by
    refine takeMany_append (fun c hc => ?_) ?_ (nameBehind_skip ?_ hq hline hclosed hlast hrest) ?_
    · rcases List.mem_append.mp hc with hc | hc
      · exact decide_eq_true fun h => hwhole (h ▸ hc)
      · exact List.mem_takeWhile_imp (p := fun c => decide (c ≠ ' ')) hc
    · rw [List.length_append]
      exact Nat.le_add_right_of_le (List.length_pos_of_ne_nil hu)
    · exact fun h => hx (List.dropWhile_suffix _ |>.subset h)
    · intro v t hvt hv hall
      cases hz : x.dropWhile (· ≠ ' ') with
      | nil =>
        rw [hz, List.nil_append] at hvt
        cases v with
        | nil => exact absurd rfl hv
        | cons c v => exact nameBehind_skip_rest hlast hrest (List.cons.inj hvt).2
      | cons d z =>
        -- the blank is not taken
        have hblank := List.head_dropWhile_not (l := x) (fun c => decide (c ≠ ' '))
          (hz ▸ List.cons_ne_nil d z)
        simp only [hz, List.head_cons] at hblank
        rw [hz, List.cons_append] at hvt
        cases v with
        | nil => exact absurd rfl hv
        | cons c v =>
          rw [(List.cons.inj hvt).1, hall c List.mem_cons_self] at hblank
          cases hblank
  have hsame : u ++ (x ++ '>' :: (q ++ ("</A>".toList ++ rest))) =
      (u ++ x.takeWhile (· ≠ ' ')) ++ (x.dropWhile (· ≠ ' ') ++ '>' ::
        (q ++ ("</A>".toList ++ rest))) := by
    conv_lhs => rw [← List.takeWhile_append_dropWhile (p := fun c => decide (c ≠ ' ')) (l := x)]
    simp only [List.append_assoc]
  have hseven : scheme.length = 7 := by
    rw [← List.length_map (f := Char.toLower), hscheme]
    rfl
  unfold linkHere
  rw [behind_append (hhref.trans (by decide)), Option.bind_eq_bind, Option.bind_some,
    behind_append (hscheme.trans (by decide)), Option.bind_eq_bind, Option.bind_some, hsame, htake]
  rw [← hseven, List.take_left]
  rfl

end

end

namespace BoardLine

variable (l : BoardLine)

def found : Board := (BWAgent.link l.text).getD l.board

/-- The name that is found is behind the last `>`, and what is in front of that up to a blank
is taken for the URL. -/
theorem link_text : BWAgent.link l.text = some l.found ∧
    ∃ p, '>' :: l.board.name = p ++ '>' :: l.found.name ∧ '>' ∉ l.found.name.dropLast ∧
      ('>' ∉ l.board.name.dropLast → p = []) ∧
      l.found.url = l.board.url ++ (l.attributes ++ p).takeWhile (· ≠ ' ') := by
  obtain ⟨scheme, u, hscheme, hu, hurl⟩ := l.url_http
  obtain ⟨p, q, hcut, hq, hlast, hnil⟩ := exists_cut l.name_ne_nil
  have hname : l.board.name <:+: p ++ '>' :: q ∧ q <:+ l.board.name := by
    refine ⟨hcut ▸ (List.suffix_cons _ _).isInfix, ?_⟩
    have hsuffix : '>' :: q <:+ '>' :: l.board.name := ⟨p, hcut.symm⟩
    obtain heq | hsuffix := List.suffix_cons_iff.mp hsuffix
    · rw [(List.cons.inj heq).2]
    · exact (List.suffix_cons _ _).trans hsuffix
  have hline : '\n' ∉ p ++ '>' :: q := by
    rw [← hcut, List.mem_cons, not_or]
    exact ⟨by decide, l.name_line⟩
  have hclosed : ¬ Within "</a>".toList q := by
    intro h
    exact l.name_closed (h.trans (hname.2.map Char.toLower).isInfix)
  have htext :
    l.text = '<' :: 'A' :: ' ' :: ("HREF=".toList ++ (scheme ++ (u ++ ((l.attributes ++ p) ++
      '>' :: (q ++ ("</A>".toList ++ l.rest)))))) := by
    have hsplit : l.attributes ++ '>' :: (l.board.name ++ ("</A>".toList ++ l.rest)) =
        (l.attributes ++ p) ++ '>' :: (q ++ ("</A>".toList ++ l.rest)) := by
      rw [← List.cons_append, hcut]
      simp only [List.append_assoc, List.cons_append]
    have hhref : "<A HREF=".toList = '<' :: 'A' :: ' ' :: "HREF=".toList := by decide
    unfold BoardLine.text
    rw [hurl, hsplit, hhref]
    simp only [List.cons_append, List.append_assoc]
  have hlink : BWAgent.link l.text =
      some ⟨q, scheme ++ (u ++ (l.attributes ++ p).takeWhile (· ≠ ' '))⟩ := by
    have hhere := @linkHere_append q l.rest (l.attributes ++ p) "HREF=".toList scheme u
      (by decide) hscheme hu ?_ ?_ hq
      ?_ hclosed hlast l.rest_closed
    · have hnone : ∀ {c : Char} {s : Text}, c.toLower ≠ 'h' → linkHere (c :: s) = none := by
        intro c s hc
        unfold linkHere
        rw [show "HREF=".toList = 'H' :: "REF=".toList from rfl, behind_cons (by simpa using hc)]
        rfl
      rw [BWAgent.link, htext, List.tails_cons, List.findSome?_cons, hnone (by decide),
        List.tails_cons,
        List.findSome?_cons, hnone (by decide), List.tails_cons, List.findSome?_cons,
        hnone (by decide)]
      rw [show "HREF=".toList = 'H' :: "REF=".toList from rfl, List.cons_append] at hhere ⊢
      rw [List.tails_cons, List.findSome?_cons, hhere]
    · intro h
      exact (l.url_whole _ (by rw [hurl]; exact List.mem_append_right _ h)).1 rfl
    · intro h
      rcases List.mem_append.mp h with h | h
      · exact (l.attributes_whole _ h).2 rfl
      · exact hline (List.mem_append_left _ h)
    · exact fun h => hline (List.mem_append_right _ (List.mem_cons_of_mem _ h))
  have hfound : l.found = ⟨q, scheme ++ (u ++ (l.attributes ++ p).takeWhile (· ≠ ' '))⟩ := by
    rw [found, hlink, Option.getD_some]
  refine ⟨by rw [hfound, hlink], p, by rw [hfound, hcut], by rw [hfound]; exact hlast, hnil, ?_⟩
  rw [hfound, hurl, List.append_assoc]

end BoardLine

-- The categories of a menu

theorem split_append_nil {sep s : Text} {pieces : List Text}
    (h : Split.pieces sep s = pieces ++ [[]])
    (hne : ∀ t ∈ pieces, t ≠ []) : split sep s = pieces := by
  rw [split, h, List.rdropWhile_concat_pos _ _ _ rfl, List.rdropWhile_eq_self_iff]
  intro hp
  simpa using hne _ (List.getLast_mem hp)

theorem pieces_lines {head : Text} {lines : List Text} (hhead : '\n' ∉ head)
    (hlines : ∀ l ∈ lines, '\n' ∉ l) :
    Split.pieces ['\n'] (head ++ '\n' :: lines.flatMap fun l => l ++ ['\n']) =
      head :: (lines ++ [[]]) := by
  have hpiece : ∀ {piece : Text}, '\n' ∉ piece → ¬ ['\n'] <:+: piece ++ ['\n'].dropLast := by
    intro piece hpiece hoccurs
    rw [List.dropLast_singleton, List.append_nil] at hoccurs
    exact hpiece (hoccurs.subset List.mem_cons_self)
  induction lines generalizing head with
  | nil => exact Split.pieces_append (by simp) (hpiece hhead)
  | cons l lines ih =>
    obtain ⟨hl, hlines⟩ := List.forall_mem_cons.mp hlines
    have hrest := ih hl hlines
    have happend := Split.pieces_append (s := l ++ '\n' :: lines.flatMap fun l => l ++ ['\n'])
      (List.cons_ne_nil '\n' []) (hpiece hhead)
    rw [hrest] at happend
    rw [List.flatMap_cons, List.append_assoc]
    exact happend

theorem BoardLine.text_line (l : BoardLine) : '\n' ∉ l.text := by
  unfold BoardLine.text
  simp only [List.mem_append, List.mem_cons, not_or]
  refine ⟨by decide, ?_, ?_, by decide, l.name_line, by decide, l.rest_line⟩
  · exact fun h => (l.url_whole _ h).2.2 rfl
  · exact fun h => (l.attributes_whole _ h).2 rfl

theorem category_text (c : MenuCategory) :
    category (categoryText c.name c.rest c.lines) =
      ⟨c.name, c.lines.map fun l => { l.found with name := escape l.found.name }⟩ := by
  have hhead : '\n' ∉ c.name ++ ("</B>".toList ++ c.rest) := by
    simp only [List.mem_append, not_or]
    exact ⟨c.name_line, by decide, c.rest_line⟩
  have hpieces := @pieces_lines _ (c.lines.map BoardLine.text) hhead
    (by simpa using fun l _ => l.text_line)
  have htext : categoryText c.name c.rest c.lines = c.name ++ ("</B>".toList ++ c.rest) ++
      '\n' :: (c.lines.map BoardLine.text).flatMap fun l => l ++ ['\n'] := by
    simp only [categoryText, List.append_assoc, List.flatMap_map]
  have hsplit : split ['\n'] (categoryText c.name c.rest c.lines) =
      (c.name ++ ("</B>".toList ++ c.rest)) :: c.lines.map BoardLine.text := by
    refine split_append_nil (htext ▸ hpieces) ?_
    rw [List.forall_mem_cons]
    refine ⟨List.append_ne_nil_of_right_ne_nil _ (List.append_ne_nil_of_left_ne_nil (by decide) _),
      fun t ht => ?_⟩
    obtain ⟨l, -, rfl⟩ := List.mem_map.mp ht
    exact List.append_ne_nil_of_left_ne_nil (by decide) _
  have hname : upTo "</B>".toList (c.name ++ ("</B>".toList ++ c.rest)) = some c.name :=
    @upTo_closed "/b>".toList c.name "</B>".toList (by decide)
      (by decide) c.name_closed c.name_line "/B>".toList
      (by decide) c.rest
  have hlinks : (c.lines.map BoardLine.text).filterMap link = c.lines.map BoardLine.found := by
    rw [List.filterMap_map, ← List.filterMap_eq_map]
    exact List.filterMap_congr fun l _ => l.link_text.1
  unfold category
  simp only [hsplit, List.headD_cons, hname, Option.getD_some, List.tail_cons, hlinks, List.map_map]
  rfl

theorem mark_append {t : Text} (h : ¬ mark <:+: t) : ¬ mark <:+: t ++ mark.dropLast := by
  intro hinfix
  induction t with
  | nil => exact absurd hinfix (by decide)
  | cons c t ih =>
    rw [List.infix_cons_iff, not_or] at h
    rw [List.cons_append, List.infix_cons_iff] at hinfix
    refine hinfix.elim (fun hstarts => h.1 ?_) (ih h.2)
    obtain hshort | ⟨z, hz⟩ :=
      List.prefix_or_prefix_of_prefix hstarts (List.prefix_append (c :: t) mark.dropLast)
    · exact hshort
    · -- the end of a mark is not the start of one
      have hboth : (c :: t) ++ z <+: (c :: t) ++ mark.dropLast := by
        rw [hz]
        exact hstarts
      rw [List.prefix_append_right_inj] at hboth
      have hends : ∀ n < 7, 0 < n → mark.drop n <+: mark.dropLast → False := by decide
      have hdrop : z = mark.drop (c :: t).length := by rw [← hz, List.drop_left]
      by_cases hlt : (c :: t).length < 7
      · exact absurd (hdrop ▸ hboth) (hends _ hlt (Nat.succ_pos _))
      · have hlength := congrArg List.length hz
        have hseven : mark.length = 7 := by decide
        rw [List.length_append, hseven] at hlength
        have hz' : z = [] := List.length_eq_zero_iff.mp (by omega)
        rw [hz', List.append_nil] at hz
        rw [hz]

theorem pieces_menu {top : Text} {texts : List Text} (htop : ¬ mark <:+: top)
    (htexts : ∀ t ∈ texts, ¬ mark <:+: t) :
    Split.pieces mark (top ++ texts.flatMap fun t => mark ++ t) = top :: texts := by
  induction texts generalizing top with
  | nil =>
    rw [List.flatMap_nil, List.append_nil]
    exact Split.pieces_of_not_contains htop
  | cons t texts ih =>
    obtain ⟨ht, htexts⟩ := List.forall_mem_cons.mp htexts
    rw [List.flatMap_cons, List.append_assoc, Split.pieces_append (by decide) (mark_append htop),
      ih ht htexts]

theorem drop_rdropWhile {top : Text} {texts : List Text} (htexts : ∀ t ∈ texts, t ≠ []) :
    ((top :: texts).rdropWhile (·.isEmpty)).drop 1 = texts := by
  rcases List.eq_nil_or_concat' texts with rfl | ⟨front, last, rfl⟩
  · rw [List.rdropWhile_singleton]
    split <;> rfl
  · have hlast : ¬ last.isEmpty = true := by
      simpa using htexts last (List.mem_append_right _ List.mem_cons_self)
    rw [← List.cons_append, List.rdropWhile_concat_neg _ _ _ hlast]
    rfl

theorem data_text (m : Menu) :
    data m.text =
      m.categories.map fun c => ⟨c.name, c.lines.map fun l =>
        { l.found with name := escape l.found.name }⟩ := by
  have htexts : ∀ t ∈ m.categories.map (fun c => categoryText c.name c.rest c.lines),
    ¬ mark <:+: t := by
    intro t ht
    obtain ⟨c, -, rfl⟩ := List.mem_map.mp ht
    exact c.unmarked
  have hpieces := pieces_menu m.top_unmarked htexts
  rw [List.flatMap_map] at hpieces
  have hsplit : (split mark m.text).drop 1 = m.categories.map fun c =>
    categoryText c.name c.rest c.lines := by
    unfold split Menu.text
    rw [hpieces]
    refine drop_rdropWhile fun t ht => ?_
    obtain ⟨c, -, rfl⟩ := List.mem_map.mp ht
    exact List.append_ne_nil_of_right_ne_nil _ (List.append_ne_nil_of_left_ne_nil (by decide) _)
  unfold data
  rw [hsplit, List.map_map]
  exact List.map_congr_left fun c _ => category_text c

end BathyScaphe.BWAgent
