import BathyScaphe.BWAgent.Sora

/-!
# What the property list of a menu shows

The menu is shown if its texts can stand in an XML text as they are, and no more than one
`&` of a board's name has to be escaped. For the other direction the characters are weighed:
a text that is read as the whole menu has no room for markup in the names.
-/

namespace BathyScaphe.BWAgent

open Markup

-- Property lists

def arrayEvents (es : List Event) : List Event :=
  .start "array".toList :: (es ++ [.stop "array".toList])

def dictEvents (es : List Event) : List Event :=
  .start "dict".toList :: (es ++ [.stop "dict".toList])

def keyEvents (key : String) : List Event := textEvents "key".toList key.toList

def stringEvents (s : Text) : List Event := textEvents "string".toList s

def boardEvents (s : Board) : List Event :=
  dictEvents (keyEvents "Name" ++ (stringEvents s.name ++ (keyEvents "URL" ++ stringEvents s.url)))

def categoryEvents (c : Category) : List Event :=
  dictEvents (keyEvents "Contents" ++ (arrayEvents (c.list.flatMap boardEvents) ++
    (keyEvents "Name" ++ stringEvents c.name)))

def propertyList (cs : List Category) : List Event := arrayEvents (cs.flatMap categoryEvents)

/-- A text is well-formed and has the events of a property list. -/
def IsPropertyList (t : Text) (es : List Event) : Prop :=
  ∃ body, t = plistStart ++ (body ++ plistEnd) ∧ events body = some es

/-- The property list of a menu shows its categories and their boards. -/
def ShowsMenu (m : Menu) : Prop :=
  IsPropertyList (sora m.text) (propertyList (m.categories.map MenuCategory.shown))

/-- A text that can stand in an XML text as it is, but for the `&`. -/
structure IsClean (s : Text) : Prop where
  legal : ∀ c ∈ s, isLegal c = true
  returns : '\r' ∉ s
  opening : '<' ∉ s
  closing : ¬ sectionEnd <:+: s

/-- The `>` of the link has to be the last one of the line but one that ends the name. -/
structure BoardLine.IsClean (l : BoardLine) : Prop where
  name : BWAgent.IsClean l.board.name
  name_ampersands : l.board.name.count '&' ≤ 1
  name_whole : '>' ∉ l.board.name.dropLast
  url : BWAgent.IsClean l.board.url
  url_ampersands : '&' ∉ l.board.url

structure MenuCategory.IsClean (c : MenuCategory) : Prop where
  name : BWAgent.IsClean c.name
  name_ampersands : '&' ∉ c.name
  lines : ∀ l ∈ c.lines, l.IsClean

-- Entries

theorem isTag_array : IsTag "array".toList :=
  ⟨by decide, by decide, by decide, by decide, by decide⟩

theorem isTag_dict : IsTag "dict".toList := ⟨by decide, by decide, by decide, by decide, by decide⟩

theorem isTag_key : IsTag "key".toList := ⟨by decide, by decide, by decide, by decide, by decide⟩

theorem isTag_string : IsTag "string".toList :=
  ⟨by decide, by decide, by decide, by decide, by decide⟩

def escaped (s : Board) : Board := { s with name := escape s.name }

def entriesOf (cs : List Category) : List Category :=
  cs.map fun c => { c with list := c.list.map escaped }

def body (cs : List Category) : Text :=
  "\n<array>\n".toList ++ (cs.flatMap categoryEntry ++ "</array>".toList)

theorem boardEntry_eq (s : Board) :
    boardEntry s = tag "dict".toList ++ (element "key".toList "Name".toList ++ ("\n".toList ++
      (element "string".toList s.name ++
        ("\n".toList ++ (element "key".toList "URL".toList ++ ("\n".toList ++
        (element "string".toList s.url ++ (endTag "dict".toList ++ "\n".toList)))))))) := by
  have hname : "<dict><key>Name</key>\n<string>".toList = tag "dict".toList ++
      (element "key".toList "Name".toList ++ ("\n".toList ++ tag "string".toList)) := by decide
  have hurl : "</string>\n<key>URL</key>\n<string>".toList = endTag "string".toList ++
    ("\n".toList ++
      (element "key".toList "URL".toList ++ ("\n".toList ++ tag "string".toList))) := by decide
  have hend : "</string></dict>\n".toList = endTag "string".toList ++
    (endTag "dict".toList ++ "\n".toList) := by
    decide
  unfold boardEntry
  rw [hname, hurl, hend]
  simp only [element, List.append_assoc]

theorem categoryEntry_eq (c : Category) :
    categoryEntry c = tag "dict".toList ++
      ("\n".toList ++ (element "key".toList "Contents".toList ++ ("\n".toList ++
      (tag "array".toList ++ ("\n".toList ++ (c.list.flatMap boardEntry ++
        (endTag "array".toList ++ ("\n".toList ++
        (element "key".toList "Name".toList ++
          ("\n".toList ++ (element "string".toList c.name ++ ("\n".toList ++
          (endTag "dict".toList ++ "\n".toList))))))))))))) := by
  have hcontents : "<dict>\n<key>Contents</key>\n<array>\n".toList =
    tag "dict".toList ++ ("\n".toList ++ (element "key".toList "Contents".toList ++
        ("\n".toList ++ (tag "array".toList ++ "\n".toList)))) := by decide
  have hname : "</array>\n<key>Name</key>\n<string>".toList = endTag "array".toList ++
    ("\n".toList ++
      (element "key".toList "Name".toList ++ ("\n".toList ++ tag "string".toList))) := by decide
  have hend : "</string>\n</dict>\n".toList = endTag "string".toList ++ ("\n".toList ++
      (endTag "dict".toList ++ "\n".toList)) := by decide
  unfold categoryEntry
  rw [hcontents, hname, hend]
  simp only [element, List.append_assoc]

theorem body_eq (cs : List Category) :
    body cs = "\n".toList ++ (tag "array".toList ++ ("\n".toList ++ (cs.flatMap categoryEntry ++
      endTag "array".toList))) := by
  have harray : "\n<array>\n".toList = "\n".toList ++ (tag "array".toList ++ "\n".toList) := by
    decide
  have hend : "</array>".toList = endTag "array".toList := by decide
  unfold body
  rw [harray, hend]
  simp only [List.append_assoc]

section
variable {s t : Text} {es : List Event} {P : Prop}

theorem gives_line : Gives True "\n".toList [] := gives_space (List.all_eq_true.mp (by decide))

theorem gives_key (key : String) (hopen : '<' ∉ key.toList) (hamp : '&' ∉ key.toList)
    (hsection : ¬ sectionEnd <:+: key.toList) :
    Gives True (element "key".toList key.toList) (keyEvents key) :=
  gives_element isTag_key (by decide) hopen (fun _ =>
    by rw [content_plain hopen hamp, if_neg hsection])
    fun h => absurd trivial h

theorem gives_plain (hopen : '<' ∉ s) (hamp : '&' ∉ s) :
    Gives (¬ sectionEnd <:+: s) (element "string".toList s) (stringEvents s) := by
  refine gives_element isTag_string (by decide) hopen (fun h => ?_) fun h => ?_
  · rw [content_plain hopen hamp, if_neg h]
  · rw [content_plain hopen hamp, if_pos (not_not.mp h)]

theorem escape_of_not_mem (h : '&' ∉ s) : escape s = s := by
  induction s with
  | nil => rfl
  | cons c s ih =>
    obtain ⟨hc, hs⟩ := not_or.mp (mt List.mem_cons.mpr h)
    rw [escape, if_neg (Ne.symm hc), ih hs]

theorem escape_append (h : '&' ∉ s) (t : Text) :
    escape (s ++ '&' :: t) = s ++ '&' :: ("amp;".toList ++ t) := by
  induction s with
  | nil => rw [List.nil_append, escape, if_pos rfl, List.nil_append]
  | cons c s ih =>
    obtain ⟨hc, hs⟩ := not_or.mp (mt List.mem_cons.mpr h)
    rw [List.cons_append, escape, if_neg (Ne.symm hc), ih hs, List.cons_append]

theorem gives_escaped (hopen : '<' ∉ s) (hamp : s.count '&' ≤ 1) :
    Gives (¬ sectionEnd <:+: s) (element "string".toList (escape s)) (stringEvents s) := by
  by_cases hmem : '&' ∈ s
  · obtain ⟨u, v, rfl, hu⟩ := List.eq_append_cons_of_mem hmem
    have hv : '&' ∉ v := by
      rw [List.count_append, List.count_cons_self] at hamp
      exact List.count_eq_zero.mp (by omega)
    have hopen' : '<' ∉ u ++ v := by
      simp only [List.mem_append, List.mem_cons, not_or] at hopen ⊢
      exact ⟨hopen.1, hopen.2.2⟩
    have hamp' : '&' ∉ u ++ v := by
      rw [List.mem_append, not_or]
      exact ⟨hu, hv⟩
    rw [escape_append hu]
    refine gives_element isTag_string (by decide) ?_ (fun h => ?_) fun h => ?_
    · simp only [List.mem_append, List.mem_cons, not_or] at hopen' ⊢
      exact ⟨hopen'.1, by decide, by decide, hopen'.2⟩
    · rw [content_escaped hopen' hamp', if_neg h]
    · rw [content_escaped hopen' hamp', if_pos (not_not.mp h)]
  · rw [escape_of_not_mem hmem]
    exact gives_plain hopen hmem

end

structure Board.IsPlain (s : Board) : Prop where
  name : '<' ∉ s.name
  name_ampersands : s.name.count '&' ≤ 1
  url : '<' ∉ s.url
  url_ampersands : '&' ∉ s.url

structure Category.IsPlain (c : Category) : Prop where
  name : '<' ∉ c.name
  name_ampersands : '&' ∉ c.name
  list : ∀ s ∈ c.list, s.IsPlain

def Category.IsOpen (c : Category) : Prop :=
  (∀ s ∈ c.list, ¬ sectionEnd <:+: s.name ∧ ¬ sectionEnd <:+: s.url) ∧ ¬ sectionEnd <:+: c.name

theorem gives_board {s : Board} (h : s.IsPlain) :
    Gives (¬ sectionEnd <:+: s.name ∧ ¬ sectionEnd <:+: s.url) (boardEntry (escaped s))
      (boardEvents s) := by
  have hname := gives_escaped h.name h.name_ampersands
  have hurl := gives_plain h.url h.url_ampersands
  have hstart := gives_start isTag_dict (by decide)
  have hstop := gives_stop isTag_dict
  have hkey := gives_key "Name" (by decide) (by decide) (by decide)
  have hkey' := gives_key "URL" (by decide) (by decide) (by decide)
  have hall :=
    hstart.append (hkey.append (gives_line.append (hname.append (gives_line.append (hkey'.append
    (gives_line.append (hurl.append (hstop.append gives_line))))))))
  simp only [List.nil_append, List.append_nil, List.singleton_append] at hall
  have hevents :
    boardEvents s = .start "dict".toList :: (keyEvents "Name" ++ (stringEvents s.name ++
      (keyEvents "URL" ++ (stringEvents s.url ++ [.stop "dict".toList])))) := by
    simp only [boardEvents, dictEvents, List.append_assoc]
  rw [hevents, boardEntry_eq]
  exact hall.congr (by simp)

theorem gives_category {c : Category} (h : c.IsPlain) :
    Gives c.IsOpen (categoryEntry { c with list := c.list.map escaped }) (categoryEvents c) := by
  have hname := gives_plain h.name h.name_ampersands
  have hboards : Gives (∀ s ∈ c.list, ¬ sectionEnd <:+: s.name ∧ ¬ sectionEnd <:+: s.url)
      (c.list.flatMap fun s => boardEntry (escaped s)) (c.list.flatMap boardEvents) :=
    .flatMap fun s hs => gives_board (h.list s hs)
  have hkey := gives_key "Contents" (by decide) (by decide) (by decide)
  have hkey' := gives_key "Name" (by decide) (by decide) (by decide)
  have hstart := gives_start isTag_dict (by decide)
  have hstop := gives_stop isTag_dict
  have harray := gives_start isTag_array (by decide)
  have harray' := gives_stop isTag_array
  have hall := hstart.append (gives_line.append
      (hkey.append (gives_line.append (harray.append (gives_line.append
    (hboards.append
      (harray'.append (gives_line.append (hkey'.append (gives_line.append (hname.append
      (gives_line.append (hstop.append gives_line)))))))))))))
  simp only [List.nil_append, List.append_nil, List.singleton_append] at hall
  have hevents :
    categoryEvents c = .start "dict".toList :: (keyEvents "Contents" ++ (.start "array".toList ::
      (c.list.flatMap boardEvents ++
        (.stop "array".toList :: (keyEvents "Name" ++ (stringEvents c.name ++
        [.stop "dict".toList])))))) := by
    simp only [categoryEvents, dictEvents, arrayEvents, List.append_assoc, List.cons_append,
      List.nil_append]
  rw [hevents, categoryEntry_eq, List.flatMap_map]
  exact hall.congr (by simp [Category.IsOpen])

theorem gives_body {cs : List Category} (h : ∀ c ∈ cs, c.IsPlain) :
    Gives (∀ c ∈ cs, c.IsOpen) (body (entriesOf cs)) (propertyList cs) := by
  have hcategories : Gives (∀ c ∈ cs, c.IsOpen)
      (cs.flatMap fun c => categoryEntry { c with list := c.list.map escaped })
      (cs.flatMap categoryEvents) :=
    .flatMap fun c hc => gives_category (h c hc)
  have hstart := gives_start isTag_array (by decide)
  have hstop := gives_stop isTag_array
  have hall := gives_line.append (hstart.append (gives_line.append (hcategories.append hstop)))
  rw [body_eq, entriesOf, List.flatMap_map]
  simp only [List.nil_append, List.singleton_append] at hall
  exact hall.congr (by simp)

-- What the characters of the menu weigh

def Category.texts (c : Category) : Text := c.list.flatMap (fun s => s.name ++ s.url) ++ c.name

def MenuCategory.found (c : MenuCategory) : Category := ⟨c.name, c.lines.map (·.found)⟩

theorem sora_text (m : Menu) :
    sora m.text = plistStart ++ (body (entriesOf (m.categories.map MenuCategory.found)) ++
      plistEnd) := by
  unfold sora body
  rw [data_text, entriesOf, List.map_map]
  simp only [Function.comp_def, MenuCategory.found, List.map_map, escaped]

def markup : Text := "<array></dict><key><string>\nNameURLContents".toList

section
variable {c : Char} {s t : Text} {cs : List Category}

theorem count_apart (h : t.all markup.contains = true) (hc : c ∉ markup) : t.count c = 0 :=
  List.count_eq_zero.mpr fun hmem => hc (List.contains_iff_mem.mp (List.all_eq_true.mp h c hmem))

theorem count_boardEntry (hc : c ∉ markup) (s : Board) :
    (boardEntry s).count c = (s.name ++ s.url).count c := by
  have hstart := count_apart (t := "<dict><key>Name</key>\n<string>".toList) (by decide) hc
  have hurl := count_apart (t := "</string>\n<key>URL</key>\n<string>".toList) (by decide) hc
  have hend := count_apart (t := "</string></dict>\n".toList) (by decide) hc
  unfold boardEntry
  rw [List.count_append, hstart, List.count_append, List.count_append, hurl, List.count_append,
    hend, List.count_append]
  omega

theorem count_categoryEntry (hc : c ∉ markup) (cat : Category) :
    (categoryEntry cat).count c = cat.texts.count c := by
  have hstart := count_apart (t := "<dict>\n<key>Contents</key>\n<array>\n".toList) (by decide) hc
  have hname := count_apart (t := "</array>\n<key>Name</key>\n<string>".toList) (by decide) hc
  have hend := count_apart (t := "</string>\n</dict>\n".toList) (by decide) hc
  have hboards : (cat.list.flatMap boardEntry).count c =
    (cat.list.flatMap fun s => s.name ++ s.url).count c := by
    rw [List.count_flatMap, List.count_flatMap]
    exact congrArg List.sum (List.map_congr_left fun s _ => count_boardEntry hc s)
  unfold categoryEntry Category.texts
  rw [List.count_append, hstart, List.count_append, hboards, List.count_append, hname,
    List.count_append, hend, List.count_append]
  omega

theorem count_body (hc : c ∉ markup) (cs : List Category) :
    (body cs).count c = (cs.flatMap Category.texts).count c := by
  have hstart := count_apart (t := "\n<array>\n".toList) (by decide) hc
  have hend := count_apart (t := "</array>".toList) (by decide) hc
  have hcategories : (cs.flatMap categoryEntry).count c = (cs.flatMap Category.texts).count c := by
    rw [List.count_flatMap, List.count_flatMap]
    exact congrArg List.sum (List.map_congr_left fun cat _ => count_categoryEntry hc cat)
  unfold body
  rw [List.count_append, hstart, List.count_append, hcategories, hend]
  omega

theorem chars_dictEvents (es : List Event) : chars (dictEvents es) = chars es := by
  rw [dictEvents, chars_start, chars_append]
  exact List.append_nil _

theorem chars_arrayEvents (es : List Event) : chars (arrayEvents es) = chars es := by
  rw [arrayEvents, chars_start, chars_append]
  exact List.append_nil _

theorem chars_boardEvents (s : Board) :
    chars (boardEvents s) = "Name".toList ++ (s.name ++ ("URL".toList ++ s.url)) := by
  simp only [boardEvents, chars_dictEvents, chars_append, keyEvents, stringEvents, chars_textEvents]

theorem chars_categoryEvents (c : Category) :
    chars (categoryEvents c) =
      "Contents".toList ++ (c.list.flatMap (fun s => chars (boardEvents s)) ++
        ("Name".toList ++ c.name)) := by
  simp only [categoryEvents, chars_dictEvents, chars_arrayEvents, chars_append, chars_flatMap,
    keyEvents, stringEvents, chars_textEvents]

theorem count_propertyList (hc : c ∉ "NameURLContents".toList) (cs : List Category) :
    (chars (propertyList cs)).count c = (cs.flatMap Category.texts).count c := by
  have happart : ∀ {t : Text}, t.all "NameURLContents".toList.contains = true →
      t.count c = 0 := fun h =>
    List.count_eq_zero.mpr fun hmem => hc (List.contains_iff_mem.mp (List.all_eq_true.mp h c hmem))
  have hname := happart (t := "Name".toList) (by decide)
  have hurl := happart (t := "URL".toList) (by decide)
  have hcontents := happart (t := "Contents".toList) (by decide)
  rw [propertyList, chars_arrayEvents, chars_flatMap, List.count_flatMap, List.count_flatMap]
  refine congrArg List.sum (List.map_congr_left fun cat _ => ?_)
  have hboards : (cat.list.flatMap fun s => chars (boardEvents s)).count c =
      (cat.list.flatMap fun s => s.name ++ s.url).count c := by
    rw [List.count_flatMap, List.count_flatMap]
    refine congrArg List.sum (List.map_congr_left fun s _ => ?_)
    rw [Function.comp_apply, Function.comp_apply, chars_boardEvents, List.count_append, hname,
      List.count_append, List.count_append, hurl, List.count_append]
    omega
  rw [Function.comp_apply, Function.comp_apply, chars_categoryEvents, List.count_append, hcontents,
    List.count_append, hboards, List.count_append, hname, Category.texts, List.count_append]
  omega

theorem count_escape (hc : c ∉ "amp;".toList) (s : Text) : (escape s).count c = s.count c := by
  have hamp := List.count_eq_zero.mpr hc
  induction s with
  | nil => rfl
  | cons d s ih =>
    rw [escape]
    split
    · rename_i hd
      rw [hd, List.count_cons, List.count_append, hamp, List.count_cons, Nat.zero_add]
    · rw [List.count_cons, List.count_cons, ih]

theorem count_end_escape (s : Text) : (escape s).count ';' = s.count ';' + if '&' ∈ s then 1
    else 0 := by
  have hamp : "amp;".toList.count ';' = 1 := by decide
  induction s with
  | nil => rfl
  | cons d s ih =>
    rw [escape]
    split
    · rename_i hd
      rw [hd, if_pos List.mem_cons_self, List.count_cons, List.count_append, hamp, List.count_cons]
      simp
      omega
    · rename_i hd
      have hmem : '&' ∈ d :: s ↔ '&' ∈ s := by simp [Ne.symm hd]
      rw [List.count_cons, ih, List.count_cons]
      simp only [hmem]
      omega

end

end BathyScaphe.BWAgent
