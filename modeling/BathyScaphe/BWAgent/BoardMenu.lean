import Mathlib.Algebra.Order.BigOperators.Group.List
import Mathlib.Algebra.Order.Group.Nat
import BathyScaphe.BWAgent.BoardPlist
import Mathlib.Algebra.GroupWithZero.Nat

/-!
# When the menu is shown

Reading does not make characters, and the script does not either, but for the end of an
escaped `&`. So the property list of a menu is read as the menu only if all that is written
is read as it is.
-/

namespace BathyScaphe.BWAgent

open Markup

-- Counts

theorem le_of_sum_le {α : Type} {xs : List α} {f g : α → Nat} (h : ∀ x ∈ xs, f x ≤ g x)
    (hsum : (xs.map g).sum ≤ (xs.map f).sum) : ∀ x ∈ xs, g x ≤ f x := by
  intro x hx
  by_contra hlt
  exact absurd hsum (Nat.not_le_of_lt (List.sum_lt_sum f g h ⟨x, hx, Nat.lt_of_not_le hlt⟩))

def Category.escapes (c : Category) : Nat := (c.list.map fun s => if '&' ∈ s.name then 1 else 0).sum

section
variable {c : Char}

theorem BoardLine.takeWhile_attributes (l : BoardLine) (p : Text) :
    (l.attributes ++ p).takeWhile (· ≠ ' ') = if l.attributes = [] then p.takeWhile (· ≠ ' ')
    else [] := by
  cases hattributes : l.attributes with
  | nil => rfl
  | cons d attributes =>
    have hd : d = ' ' := l.attributes_apart d (by rw [hattributes]; rfl)
    rw [hd, List.cons_append, List.takeWhile_cons_of_neg (by simp), if_neg (List.cons_ne_nil _ _)]

theorem BoardLine.count_found_le (hc : c ≠ '>') (l : BoardLine) :
    (l.found.name ++ l.found.url).count c ≤ (l.board.name ++ l.board.url).count c := by
  obtain ⟨-, p, hcut, -, -, hurl⟩ := l.link_text
  have hname := congrArg (List.count c) hcut
  rw [List.count_cons_of_ne hc.symm, List.count_append, List.count_cons_of_ne hc.symm] at hname
  have htaken : ((l.attributes ++ p).takeWhile (· ≠ ' ')).count c ≤ p.count c := by
    rw [takeWhile_attributes]
    split
    · exact (List.takeWhile_prefix _).sublist.count_le c
    · exact Nat.zero_le _
  rw [hurl, List.count_append, List.count_append, List.count_append]
  omega

theorem MenuCategory.count_shown (c : Char) (m : MenuCategory) :
    m.shown.texts.count c =
      (m.lines.map fun l => (l.board.name ++ l.board.url).count c).sum + m.name.count c := by
  rw [Category.texts, List.count_append, List.count_flatMap, shown, List.map_map]
  rfl

theorem MenuCategory.count_found (c : Char) (m : MenuCategory) :
    m.found.texts.count c =
      (m.lines.map fun l => (l.found.name ++ l.found.url).count c).sum + m.name.count c := by
  rw [Category.texts, List.count_append, List.count_flatMap, found, List.map_map]
  rfl

theorem MenuCategory.count_found_le (hc : c ≠ '>') (m : MenuCategory) :
    m.found.texts.count c ≤ m.shown.texts.count c := by
  rw [count_found, count_shown]
  exact Nat.add_le_add_right (List.sum_le_sum fun l _ => l.count_found_le hc) _

theorem count_menu_le (hc : c ≠ '>') (ms : List MenuCategory) :
    ((ms.map MenuCategory.found).flatMap Category.texts).count c ≤
      ((ms.map MenuCategory.shown).flatMap Category.texts).count c := by
  rw [List.count_flatMap, List.count_flatMap, List.map_map, List.map_map]
  exact List.sum_le_sum fun m _ => m.count_found_le hc

theorem count_entries (hc : c ∉ "amp;".toList) (cs : List Category) :
    ((entriesOf cs).flatMap Category.texts).count c = (cs.flatMap Category.texts).count c := by
  rw [List.count_flatMap, List.count_flatMap, entriesOf, List.map_map]
  refine congrArg List.sum (List.map_congr_left fun cat _ => ?_)
  simp only [Function.comp_apply, Category.texts, List.count_append, List.count_flatMap,
    List.map_map, Function.comp_def, escaped, count_escape hc]

theorem count_written (hc : c ∉ markup) (hc' : c ∉ "amp;".toList) (cs : List Category) :
    (body (entriesOf cs)).count c = (cs.flatMap Category.texts).count c := by
  rw [count_body hc, count_entries hc']

theorem count_end_entries (cs : List Category) :
    ((entriesOf cs).flatMap Category.texts).count ';' =
      (cs.flatMap Category.texts).count ';' + (cs.map Category.escapes).sum := by
  rw [List.count_flatMap, List.count_flatMap, entriesOf, List.map_map, ← List.sum_map_add]
  refine congrArg List.sum (List.map_congr_left fun cat _ => ?_)
  have hboards : (cat.list.map fun s => (escape s.name).count ';' + s.url.count ';').sum =
      (cat.list.map fun s => s.name.count ';' + s.url.count ';').sum + cat.escapes := by
    rw [Category.escapes, ← List.sum_map_add]
    refine congrArg List.sum (List.map_congr_left fun s _ => ?_)
    rw [count_end_escape]
    omega
  simp only [Function.comp_apply, Category.texts, List.count_append, List.count_flatMap,
    List.map_map, Function.comp_def, escaped, hboards]
  omega

end

-- Menus that are shown

section
variable {ms : List MenuCategory} {m : MenuCategory} {l : BoardLine} {cs cs' : List Category}
  {c c' : Category}

theorem forall_texts {p : Char → Prop} (h : ∀ d ∈ cs.flatMap Category.texts, p d) (hc : c ∈ cs) :
    (∀ d ∈ c.name, p d) ∧ ∀ s ∈ c.list, (∀ d ∈ s.name, p d) ∧ ∀ d ∈ s.url, p d := by
  have htexts : ∀ d ∈ c.texts, p d := fun d hd => h d (List.mem_flatMap.mpr ⟨c, hc, hd⟩)
  unfold Category.texts at htexts
  rw [List.forall_mem_append] at htexts
  refine ⟨htexts.2, fun s hs => ?_⟩
  have hboard : ∀ d ∈ s.name ++ s.url, p d :=
    fun d hd => htexts.1 d (List.mem_flatMap.mpr ⟨s, hs, hd⟩)
  exact List.forall_mem_append.mp hboard

theorem not_mem_texts {d : Char} (h : d ∉ cs.flatMap Category.texts) (hc : c ∈ cs) :
    d ∉ c.name ∧ ∀ s ∈ c.list, d ∉ s.name ∧ d ∉ s.url := by
  have hne : ∀ e ∈ cs.flatMap Category.texts, e ≠ d := fun e he heq => h (heq ▸ he)
  obtain ⟨hname, hboards⟩ := forall_texts hne hc
  exact ⟨fun hd => hname d hd rfl, fun s hs => ⟨fun hd => (hboards s hs).1 d hd rfl, fun hd =>
    (hboards s hs).2 d hd rfl⟩⟩

theorem MenuCategory.escapes_found (m : MenuCategory) :
    m.found.escapes = (m.lines.map fun l => if '&' ∈ l.found.name then 1 else 0).sum := by
  rw [Category.escapes, found, List.map_map]
  rfl

theorem BoardLine.escaped_le (l : BoardLine) :
    (if '&' ∈ l.found.name then 1 else 0) ≤ (l.found.name ++ l.found.url).count '&' := by
  split
  · rename_i hmem
    exact List.count_pos_iff.mpr (List.mem_append_left _ hmem)
  · exact Nat.zero_le _

theorem count_ampersands {name name' url : Text} (hsub : '&' ∈ name' → '&' ∈ name)
    (h : (name ++ url).count '&' ≤ if '&' ∈ name' then 1 else 0) :
    name.count '&' ≤ 1 ∧ '&' ∉ url := by
  rw [List.count_append] at h
  rw [← List.count_eq_zero]
  split at h
  · rename_i hmem
    have hpos := List.count_pos_iff.mpr (hsub hmem)
    omega
  · omega

theorem BoardLine.escaped_le_shown (l : BoardLine) :
    (if '&' ∈ l.found.name then 1 else 0) ≤ (l.board.name ++ l.board.url).count '&' :=
  l.escaped_le.trans (l.count_found_le (by decide))

theorem MenuCategory.escapes_le (m : MenuCategory) : m.found.escapes ≤ m.shown.texts.count '&' := by
  rw [escapes_found, count_shown]
  exact Nat.le_add_right_of_le (List.sum_le_sum fun l _ => l.escaped_le_shown)

def AllEscaped (ms : List MenuCategory) : Prop :=
  ((ms.map MenuCategory.shown).flatMap Category.texts).count '&' ≤
    ((ms.map MenuCategory.found).map Category.escapes).sum

theorem AllEscaped.category (h : AllEscaped ms) (hm : m ∈ ms) :
    '&' ∉ m.name ∧ ∀ l ∈ m.lines, (l.board.name ++ l.board.url).count '&' ≤ if '&' ∈ l.found.name
      then 1 else 0 := by
  unfold AllEscaped at h
  rw [List.count_flatMap, List.map_map, List.map_map] at h
  have hcategory : m.shown.texts.count '&' ≤ m.found.escapes :=
    le_of_sum_le (fun m _ => m.escapes_le) h m hm
  rw [MenuCategory.escapes_found, MenuCategory.count_shown] at hcategory
  have hle : (m.lines.map fun l => if '&' ∈ l.found.name then 1 else 0).sum ≤
      (m.lines.map fun l => (l.board.name ++ l.board.url).count '&').sum :=
    List.sum_le_sum fun l _ => l.escaped_le_shown
  refine ⟨List.count_eq_zero.mp (by omega), le_of_sum_le (fun l _ => l.escaped_le_shown) (by omega)⟩

theorem boardEvents_append_inj {s s' : Board} {es es' : List Event}
    (h : boardEvents s ++ es = boardEvents s' ++ es') :
    s = s' ∧ es = es' := by
  simp only [boardEvents, dictEvents, List.cons_append, List.append_assoc, keyEvents,
    stringEvents] at h
  obtain ⟨-, h⟩ := textEvents_append_inj (List.cons.inj h).2
  obtain ⟨hname, h⟩ := textEvents_append_inj h
  obtain ⟨-, h⟩ := textEvents_append_inj h
  obtain ⟨hurl, hend⟩ := textEvents_append_inj h
  exact ⟨Board.ext hname hurl, (List.cons.inj hend).2⟩

theorem categoryEvents_append_inj {es es' : List Event}
    (h : categoryEvents c ++ es = categoryEvents c' ++ es') :
    c = c' ∧ es = es' := by
  simp only [categoryEvents, dictEvents, arrayEvents, List.cons_append, List.append_assoc,
    keyEvents, stringEvents, List.nil_append] at h
  obtain ⟨-, h⟩ := textEvents_append_inj (List.cons.inj h).2
  obtain ⟨hlist, h⟩ := flatMap_append_inj (fun _ _ _ _ => boardEvents_append_inj)
    (fun _ => ⟨_, _, rfl⟩) (List.cons.inj h).2
  obtain ⟨-, h⟩ := textEvents_append_inj h
  obtain ⟨hname, hend⟩ := textEvents_append_inj h
  exact ⟨Category.ext hname hlist, (List.cons.inj hend).2⟩

theorem propertyList_inj (h : propertyList cs = propertyList cs') : cs = cs' :=
  (flatMap_append_inj (fun _ _ _ _ => categoryEvents_append_inj) (fun _ => ⟨_, _, rfl⟩)
    (List.cons.inj h).2).1

theorem weighs_menu (h : events (body (entriesOf (ms.map MenuCategory.found))) =
      some (propertyList (ms.map MenuCategory.shown))) :
    '<' ∉ (ms.map MenuCategory.shown).flatMap Category.texts ∧
      '\r' ∉ (ms.map MenuCategory.shown).flatMap Category.texts ∧ AllEscaped ms := by
  obtain ⟨hle, hplain⟩ := weighs_events h
  have hsame : ∀ {c : Char}, c ∉ "NameURLContents".toList →
      (chars (propertyList (ms.map MenuCategory.shown))).count c =
        ((ms.map MenuCategory.shown).flatMap Category.texts).count c :=
      fun hc => count_propertyList hc _
  have hfound := count_menu_le (c := '&') (by decide) ms
  have hfound' := count_menu_le (c := '!') (by decide) ms
  have hends := count_menu_le (c := ';') (by decide) ms
  have hequal : weight (chars (propertyList (ms.map MenuCategory.shown))) =
      weight (body (entriesOf (ms.map MenuCategory.found))) := by
    refine Nat.le_antisymm hle ?_
    unfold weight
    rw [hsame (by decide), hsame (by decide), count_written (by decide) (by decide),
      count_written (by decide) (by decide)]
    omega
  obtain ⟨hopen, hreturn, hcount⟩ := hplain hequal
  have hnone : ∀ {c : Char}, c ∉ "NameURLContents".toList →
    c ∉ chars (propertyList (ms.map MenuCategory.shown)) →
      c ∉ (ms.map MenuCategory.shown).flatMap Category.texts := by
    intro c hc hnot
    rw [← List.count_eq_zero, hsame hc] at hnot
    exact List.count_eq_zero.mp hnot
  refine ⟨hnone (by decide) hopen, hnone (by decide) hreturn, ?_⟩
  rw [hsame (by decide), hsame (by decide), count_body (by decide), count_end_entries] at hcount
  unfold AllEscaped
  omega

theorem isPlain_found (hopen : '<' ∉ (ms.map MenuCategory.shown).flatMap Category.texts)
    (hall : AllEscaped ms) :
    ∀ c ∈ ms.map MenuCategory.found, c.IsPlain := by
  intro c hc
  obtain ⟨m, hm, rfl⟩ := List.mem_map.mp hc
  obtain ⟨hname, hlines⟩ := hall.category hm
  obtain ⟨hopen', hboards⟩ := not_mem_texts hopen (List.mem_map_of_mem hm)
  refine ⟨hopen', hname, fun s hs => ?_⟩
  obtain ⟨l, hl, rfl⟩ := List.mem_map.mp hs
  have hboard := hboards l.board (List.mem_map_of_mem hl)
  have hfound : (l.found.name ++ l.found.url).count '<' = 0 := by
    refine Nat.le_zero.mp ((l.count_found_le (by decide)).trans (Nat.le_of_eq ?_))
    rw [List.count_append, List.count_eq_zero.mpr hboard.1, List.count_eq_zero.mpr hboard.2]
  have hamp : (l.found.name ++ l.found.url).count '&' ≤ if '&' ∈ l.found.name then 1 else 0 :=
    (l.count_found_le (by decide)).trans (hlines l hl)
  obtain ⟨hname', hurl⟩ := count_ampersands (fun hmem => hmem) hamp
  rw [List.count_append, Nat.add_eq_zero_iff] at hfound
  exact ⟨List.count_eq_zero.mp hfound.1, hname', List.count_eq_zero.mp hfound.2, hurl⟩

theorem all_body (cs : List Category) :
    (body (entriesOf cs)).all isLegal = (cs.flatMap Category.texts).all isLegal := by
  have hlegal : ∀ d ∈ markup ++ "amp;".toList, isLegal d = true := List.all_eq_true.mp (by decide)
  have hmem : ∀ {d : Char}, isLegal d = false → (d ∈ body (entriesOf cs) ↔
    d ∈ cs.flatMap Category.texts) := by
    intro d hd
    have hapart : d ∉ markup ++ "amp;".toList := fun h => by simp [hlegal d h] at hd
    rw [List.mem_append, not_or] at hapart
    rw [← List.count_pos_iff, count_written hapart.1 hapart.2, List.count_pos_iff]
  rw [Bool.eq_iff_iff, List.all_eq_true, List.all_eq_true]
  refine ⟨fun h d hd => ?_, fun h d hd => ?_⟩
  · by_contra hnot
    exact hnot (h d ((hmem (Bool.eq_false_iff.mpr hnot)).mpr hd))
  · by_contra hnot
    exact hnot (h d ((hmem (Bool.eq_false_iff.mpr hnot)).mp hd))

theorem return_not_mem_body (h : '\r' ∉ (ms.map MenuCategory.shown).flatMap Category.texts) :
    '\r' ∉ body (entriesOf (ms.map MenuCategory.found)) := by
  rw [← List.count_eq_zero] at h ⊢
  have hle := count_menu_le (c := '\r') (by decide) ms
  rw [count_written (by decide) (by decide)]
  omega

theorem isClean_of_events (h : events (body (entriesOf (ms.map MenuCategory.found))) =
      some (propertyList (ms.map MenuCategory.shown))) : ∀ m ∈ ms, m.IsClean := by
  obtain ⟨hopen, hreturn, hall⟩ := weighs_menu h
  obtain ⟨hlegal, hread⟩ := (events_eq_some_iff (return_not_mem_body hreturn)).mp h
  obtain ⟨hends, hevents⟩ := (gives_body (isPlain_found hopen hall)).of_read hread
  have hfound := propertyList_inj hevents
  rw [all_body, ← hfound, List.all_eq_true] at hlegal
  rw [← hfound] at hends
  intro m hm
  have hmem : m.shown ∈ ms.map MenuCategory.shown := List.mem_map_of_mem hm
  obtain ⟨hname, hlines⟩ := hall.category hm
  obtain ⟨hopen, hopens⟩ := not_mem_texts hopen hmem
  obtain ⟨hreturn, hreturns⟩ := not_mem_texts hreturn hmem
  obtain ⟨hlegal, hlegals⟩ := forall_texts hlegal hmem
  obtain ⟨hboards, hend⟩ := hends _ hmem
  refine ⟨⟨hlegal, hreturn, hopen, hend⟩, hname, fun l hl => ?_⟩
  have hboard : l.board ∈ m.shown.list := List.mem_map_of_mem hl
  have hline : l.board = l.found :=
    List.map_inj_left.mp (congrArg Category.list (List.map_inj_left.mp hfound m hm)) l hl
  have hlast : '>' ∉ l.board.name.dropLast := by
    obtain ⟨-, p, -, hlast, -⟩ := l.link_text
    rwa [← hline] at hlast
  obtain ⟨hname', hurl⟩ := count_ampersands (fun hmem => hline ▸ hmem) (hlines l hl)
  exact ⟨⟨(hlegals _ hboard).1, (hreturns _ hboard).1, (hopens _ hboard).1, (hboards _ hboard).1⟩,
    hname', hlast,
    ⟨(hlegals _ hboard).2, (hreturns _ hboard).2, (hopens _ hboard).2, (hboards _ hboard).2⟩, hurl⟩

theorem BoardLine.IsClean.found (h : l.IsClean) : l.found = l.board := by
  obtain ⟨-, p, hcut, -, hnil, hurl⟩ := l.link_text
  rw [hnil h.name_whole, takeWhile_attributes, List.takeWhile_nil, ite_self,
    List.append_nil] at hurl
  rw [hnil h.name_whole] at hcut
  exact Board.ext (List.cons.inj hcut).2.symm hurl

theorem MenuCategory.IsClean.found (h : m.IsClean) : m.found = m.shown := by
  unfold MenuCategory.found shown
  rw [List.map_congr_left fun l hl => (h.lines l hl).found]

theorem IsClean.all {s : Text} (h : IsClean s) : s.all isLegal = true :=
  List.all_eq_true.mpr h.legal

theorem MenuCategory.IsClean.all (h : m.IsClean) : m.shown.texts.all isLegal = true := by
  unfold Category.texts shown
  simp only [List.all_append, List.all_flatMap, List.all_map, Bool.and_eq_true,
    List.all_eq_true (p := isLegal)]
  refine ⟨?_, h.name.legal⟩
  rw [List.all_eq_true]
  intro l hl
  have hline := h.lines l hl
  simp only [Function.comp_apply, hline.name.all, hline.url.all, Bool.and_self]

theorem MenuCategory.IsClean.return_not_mem (h : m.IsClean) : '\r' ∉ m.shown.texts := by
  simp only [Category.texts, shown, List.mem_append, List.mem_flatMap, List.mem_map,
    not_or, not_exists, not_and]
  refine ⟨?_, h.name.returns⟩
  rintro s ⟨l, hl, rfl⟩
  exact not_or.mp (fun hmem => hmem.elim (h.lines l hl).name.returns (h.lines l hl).url.returns)

theorem MenuCategory.IsClean.plain (h : m.IsClean) : m.shown.IsPlain ∧ m.shown.IsOpen := by
  refine ⟨⟨h.name.opening, h.name_ampersands, fun s hs => ?_⟩, fun s hs => ?_, h.name.closing⟩
  · obtain ⟨l, hl, rfl⟩ := List.mem_map.mp hs
    have hline := h.lines l hl
    exact ⟨hline.name.opening, hline.name_ampersands, hline.url.opening, hline.url_ampersands⟩
  · obtain ⟨l, hl, rfl⟩ := List.mem_map.mp hs
    exact ⟨(h.lines l hl).name.closing, (h.lines l hl).url.closing⟩

theorem events_of_isClean (h : ∀ m ∈ ms, m.IsClean) :
    events (body (entriesOf (ms.map MenuCategory.found))) =
      some (propertyList (ms.map MenuCategory.shown)) := by
  have hfound : ms.map MenuCategory.found = ms.map MenuCategory.shown :=
    List.map_congr_left fun m hm => (h m hm).found
  have hreturn : '\r' ∉ (ms.map MenuCategory.shown).flatMap Category.texts := by
    rw [List.flatMap_map, List.mem_flatMap]
    rintro ⟨m, hm, hmem⟩
    exact (h m hm).return_not_mem hmem
  have hlegal : (body (entriesOf (ms.map MenuCategory.found))).all isLegal = true := by
    rw [all_body, hfound, List.flatMap_map, List.all_flatMap, List.all_eq_true]
    exact fun m hm => (h m hm).all
  have hgives := gives_body (List.forall_mem_map.mpr fun m hm => (h m hm).plain.1)
  refine (events_eq_some_iff (return_not_mem_body hreturn)).mpr ⟨hlegal, ?_⟩
  rw [hfound]
  exact hgives.read (List.forall_mem_map.mpr fun m hm => (h m hm).plain.2)

/-- The property list of a menu shows the menu, if and only if its texts can stand in it. -/
theorem showsMenu_iff_isClean (menu : Menu) : ShowsMenu menu ↔
    ∀ m ∈ menu.categories, m.IsClean := by
  have hbody : ShowsMenu menu ↔ events (body (entriesOf (menu.categories.map MenuCategory.found))) =
      some (propertyList (menu.categories.map MenuCategory.shown)) := by
    unfold ShowsMenu IsPropertyList
    rw [sora_text]
    constructor
    · rintro ⟨t, ht, hevents⟩
      obtain rfl := List.append_cancel_right (List.append_cancel_left ht)
      exact hevents
    · exact fun hevents => ⟨_, rfl, hevents⟩
  rw [hbody]
  exact ⟨isClean_of_events, events_of_isClean⟩

end

end BathyScaphe.BWAgent
