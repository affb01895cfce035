import Mathlib.Data.List.DropRight
import Mathlib.Data.List.Infix

/-!
# The events of an XML text

What an XML processor reports of elements without attributes, of character data, references,
sections and comments. White space counts in the elements of character data only. Reading
never makes characters out of nothing: what the references and sections of a text stand for
weighs less than their text, unless each of them is an ampersand.
-/

namespace Markup

abbrev Text := List Char

inductive Event where
  | start (name : Text)
  | stop (name : Text)
  | char (c : Char)
  deriving DecidableEq

def isLegal (c : Char) : Bool :=
  c = '\t' || c = '\n' || c = '\r' || (' ' ≤ c && c.toNat ≠ 0xfffe && c.toNat ≠ 0xffff)

def isSpace (c : Char) : Bool := c = ' ' || c = '\t' || c = '\n' || c = '\r'

def normalized : Text → Text
  | [] => []
  | c :: t =>
    if c = '\r' then if t.head? = some '\n' then normalized t else '\n' :: normalized t
    else c :: normalized t

-- References and markup

def digit (c : Char) : Nat :=
  if '0' ≤ c ∧ c ≤ '9' then c.toNat - '0'.toNat
  else if 'a' ≤ c ∧ c ≤ 'f' then c.toNat - 'a'.toNat + 10
  else if 'A' ≤ c ∧ c ≤ 'F' then c.toNat - 'A'.toNat + 10
  else 16

def numbered (base : Nat) (digits : Text) : Option Char :=
  let n := digits.foldl (fun n c => base * n + digit c) 0
  if digits ≠ [] ∧ digits.all (fun c => digit c < base) ∧ (Char.ofNat n).toNat = n ∧
    isLegal (Char.ofNat n) then
    some (Char.ofNat n)
  else none

def referred : Text → Option Char
  | ['a', 'm', 'p'] => some '&'
  | ['l', 't'] => some '<'
  | ['g', 't'] => some '>'
  | ['q', 'u', 'o', 't'] => some '"'
  | ['a', 'p', 'o', 's'] => some '\''
  | '#' :: 'x' :: digits => numbered 16 digits
  | '#' :: digits => numbered 10 digits
  | _ => none

def sectionStart : Text := "![CDATA[".toList

def sectionEnd : Text := "]]>".toList

def commentStart : Text := "!--".toList

def isEnded (inner : Text) : Bool :=
  if commentStart <+: inner then 5 ≤ inner.length && "--".toList.isSuffixOf inner
  else if sectionStart <+: inner then 10 ≤ inner.length && "]]".toList.isSuffixOf inner
  else if inner.head? = some '?' then 2 ≤ inner.length && inner.getLast? = some '?'
  else true

def between (front behind : Nat) (inner : Text) : Text :=
  (inner.drop front).take (inner.length - front - behind)

def markupEvents (inner : Text) : Option (List Event) :=
  if commentStart <+: inner then
    if "--".toList <:+: between 3 2 inner ++ ['-'] then none else some []
  else if sectionStart <+: inner then some ((between 8 2 inner).map .char)
  else
    match inner with
    | '!' :: _ => none
    | '?' :: _ => some []
    | '/' :: name => some [.stop (name.rdropWhile isSpace)]
    | name =>
      if name.getLast? = some '/' then
        some [.start (name.dropLast.rdropWhile isSpace), .stop (name.dropLast.rdropWhile isSpace)]
      else some [.start (name.rdropWhile isSpace)]

-- Reading

/-- Where the reader is: in the content, behind an `&` or behind a `<`. -/
inductive State where
  | content
  | reference (name : Text)
  | markup (inner : Text)

def eventsFrom : State → Text → Option (List Event)
  | .content, [] => some []
  | .reference _, [] => none
  | .markup _, [] => none
  | .content, c :: t =>
    if c = '<' then eventsFrom (.markup []) t
    else if c = '&' then eventsFrom (.reference []) t
    else if sectionEnd <+: c :: t then none
    else (eventsFrom .content t).map (.char c :: ·)
  | .reference name, c :: t =>
    if c = ';' then
      match referred name with
      | none => none
      | some d => (eventsFrom .content t).map (.char d :: ·)
    else if c.isAlphanum ∨ c = '#' then eventsFrom (.reference (name ++ [c])) t
    else none
  | .markup inner, c :: t =>
    if c = '>' ∧ isEnded inner then
      match markupEvents inner with
      | none => none
      | some es => (eventsFrom .content t).map (es ++ ·)
    else eventsFrom (.markup (inner ++ [c])) t

def isText (name : Text) : Bool := name = "string".toList || name = "key".toList

def significant : Bool → List Event → List Event
  | _, [] => []
  | _, .start name :: es => .start name :: significant (isText name) es
  | _, .stop name :: es => .stop name :: significant false es
  | inside, .char c :: es => if !inside && isSpace c then significant inside es
      else .char c :: significant inside es

def read (t : Text) : Option (List Event) := (eventsFrom .content t).map (significant false)

def events (t : Text) : Option (List Event) := if t.all isLegal then read (normalized t) else none

def chars : List Event → Text
  | [] => []
  | .char c :: es => c :: chars es
  | _ :: es => chars es

-- What characters weigh

/-- An ampersand weighs as much as the shortest reference can, and a section more than what
is in it. -/
def weight (t : Text) : Nat := 2 * t.count '&' + t.count '!'

/-- The characters `d` of a text `t` do not weigh more than it. If they weigh as much, each
reference of the text stands for an ampersand, and no character is that of a section. -/
structure Weighs (d t : Text) : Prop where
  le : weight d ≤ weight t
  plain : weight d = weight t → '<' ∉ d ∧ ('\r' ∉ t → '\r' ∉ d) ∧
    d.count ';' + d.count '&' ≤ t.count ';'

def State.text : State → Text
  | .content => []
  | .reference name => '&' :: name
  | .markup inner => inner

section
variable {d d' t t' : Text} {es : List Event} {c : Char} {st : State}

theorem weight_append (d t : Text) : weight (d ++ t) = weight d + weight t := by
  unfold weight
  simp only [List.count_append]
  omega

theorem chars_append (es es' : List Event) : chars (es ++ es') = chars es ++ chars es' := by
  induction es with
  | nil => rfl
  | cons e es ih => cases e <;> simp [chars, ih]

theorem chars_map_char (t : Text) : chars (t.map .char) = t := by
  induction t with
  | nil => rfl
  | cons c t ih => rw [List.map_cons, chars, ih]

@[simp] theorem chars_start (name : Text) (es : List Event) :
    chars (.start name :: es) = chars es := rfl

@[simp] theorem chars_stop (name : Text) (es : List Event) : chars (.stop name :: es) = chars es :=
  rfl

theorem chars_flatMap {α : Type} (xs : List α) (f : α → List Event) :
    chars (xs.flatMap f) = xs.flatMap fun x => chars (f x) := by
  induction xs with
  | nil => rfl
  | cons x xs ih => rw [List.flatMap_cons, chars_append, ih, List.flatMap_cons]

theorem weighs_nil (t : Text) : Weighs [] t := ⟨Nat.zero_le _, fun _ => by simp⟩

theorem Weighs.append (h : Weighs d t) (h' : Weighs d' t') : Weighs (d ++ d') (t ++ t') where
  le := by
    rw [weight_append, weight_append]
    exact Nat.add_le_add h.le h'.le
  plain heq := by
    rw [weight_append, weight_append] at heq
    have hle := h.le
    have hle' := h'.le
    obtain ⟨hopen, hreturn, hcount⟩ := h.plain (by omega)
    obtain ⟨hopen', hreturn', hcount'⟩ := h'.plain (by omega)
    simp only [List.mem_append, not_or, List.count_append]
    refine ⟨⟨hopen, hopen'⟩, fun hr => ⟨hreturn hr.1, hreturn' hr.2⟩, ?_⟩
    omega

theorem weighs_char (hopen : c ≠ '<') (hamp : c ≠ '&') : Weighs [c] [c] where
  le := Nat.le_refl _
  plain _ := by
    simp only [List.mem_singleton, List.count_singleton, beq_iff_eq, hamp, if_false, Nat.add_zero]
    exact ⟨hopen.symm, fun h => h, Nat.le_refl _⟩

/-- A reference weighs more than what it stands for, unless that is an ampersand. -/
theorem weighs_reference (name : Text) (d : Char) : Weighs [d] ('&' :: name ++ [';']) where
  le := by
    have htwo : weight [d] ≤ 2 := by
      unfold weight
      simp only [List.count_singleton, beq_iff_eq]
      split <;> split <;> simp_all
    have hamp : 2 ≤ weight ('&' :: name ++ [';']) := by
      unfold weight
      simp only [List.cons_append, List.count_cons_self]
      omega
    omega
  plain heq := by
    obtain rfl : d = '&' := by
      by_contra hne
      have hone : weight [d] ≤ 1 := by
        unfold weight
        simp only [List.count_singleton, beq_iff_eq, if_neg hne]
        split <;> omega
      have hamp : 2 ≤ weight ('&' :: name ++ [';']) := by
        unfold weight
        simp only [List.cons_append, List.count_cons_self]
        omega
      omega
    refine ⟨by simp, fun _ => by simp, ?_⟩
    rw [List.count_append]
    exact Nat.le_add_left 1 _

theorem weighs_section (h : sectionStart <+: t) : Weighs (between 8 2 t) t := by
  obtain ⟨rest, rfl⟩ := h
  have hlt : weight (between 8 2 (sectionStart ++ rest)) < weight (sectionStart ++ rest) := by
    have hrest : between 8 2 (sectionStart ++ rest) <+: rest := List.take_prefix _ _
    have hcount := fun c : Char => hrest.sublist.count_le c
    have hstart : weight sectionStart = 1 := by decide
    have hle : weight (between 8 2 (sectionStart ++ rest)) ≤ weight rest := by
      unfold weight
      have := hcount '&'
      have := hcount '!'
      omega
    rw [weight_append]
    omega
  exact ⟨Nat.le_of_lt hlt, fun heq => absurd heq (Nat.ne_of_lt hlt)⟩

theorem weighs_markupEvents (h : markupEvents t = some es) : Weighs (chars es) t := by
  unfold markupEvents at h
  split at h
  · split at h
    · cases h
    · cases h
      exact weighs_nil t
  · split at h
    · rename_i hsection
      cases h
      rw [chars_map_char]
      exact weighs_section hsection
    · split at h
      · cases h
      · cases h
        exact weighs_nil _
      · cases h
        exact weighs_nil _
      · split at h <;> cases h <;> exact weighs_nil _

theorem weighs_eventsFrom (h : eventsFrom st t = some es) : Weighs (chars es) (st.text ++ t) := by
  induction t generalizing st es with
  | nil =>
    cases st with
    | content =>
      cases h
      exact weighs_nil _
    | reference name => cases h
    | markup inner => cases h
  | cons c t ih =>
    cases st with
    | content =>
      rw [eventsFrom] at h
      split at h
      · exact (weighs_nil [c]).append (ih h)
      · rename_i hopen
        split at h
        · rename_i hamp
          rw [hamp]
          exact ih h
        · rename_i hamp
          split at h
          · cases h
          · obtain ⟨es', hes', rfl⟩ := Option.map_eq_some_iff.mp h
            exact (weighs_char hopen hamp).append (ih hes')
    | reference name =>
      rw [eventsFrom] at h
      split at h
      · rename_i hend
        split at h
        · cases h
        · rename_i d _
          obtain ⟨es', hes', rfl⟩ := Option.map_eq_some_iff.mp h
          rw [hend, State.text, List.append_cons]
          exact (weighs_reference name d).append (ih hes')
      · split at h
        · have hrest := ih h
          rw [State.text, ← List.cons_append, List.append_assoc] at hrest
          exact hrest
        · cases h
    | markup inner =>
      rw [eventsFrom] at h
      split at h
      · split at h
        · cases h
        · rename_i hmarkup
          obtain ⟨es', hes', rfl⟩ := Option.map_eq_some_iff.mp h
          rw [chars_append]
          exact (weighs_markupEvents hmarkup).append ((weighs_nil [c]).append (ih hes'))
      · have hrest := ih h
        rw [State.text, List.append_assoc] at hrest
        exact hrest

theorem significant_sublist (inside : Bool) (es : List Event) :
    (chars (significant inside es)).Sublist (chars es) := by
  induction es generalizing inside with
  | nil => exact .slnil
  | cons e es ih =>
    cases e with
    | start name => exact ih _
    | stop name => exact ih _
    | char c =>
      rw [significant]
      split
      · exact (ih inside).cons c
      · exact (ih inside).cons_cons c

theorem count_significant (hc : isSpace c = false) (inside : Bool) (es : List Event) :
    (chars (significant inside es)).count c = (chars es).count c := by
  induction es generalizing inside with
  | nil => rfl
  | cons e es ih =>
    cases e with
    | start name => exact ih _
    | stop name => exact ih _
    | char d =>
      rw [significant]
      split
      · rename_i hspace
        have hne : d ≠ c := by
          rintro rfl
          rw [hc, Bool.and_false] at hspace
          cases hspace
        rw [chars, List.count_cons_of_ne hne, ih]
      · rw [chars, chars, List.count_cons, List.count_cons, ih]

theorem Weighs.significant (h : Weighs (chars es) t) (inside : Bool) :
    Weighs (chars (significant inside es)) t := by
  have hcount : ∀ c ∈ ['&', '!', ';'], (chars (Markup.significant inside es)).count c =
    (chars es).count c :=
    fun c hc => count_significant (List.all_eq_true.mp
      (by decide : ['&', '!', ';'].all fun c => !isSpace c) c hc
      |> (Bool.not_eq_true' _).mp) inside es
  have hsub := (significant_sublist inside es).subset
  have hsame : weight (chars (Markup.significant inside es)) = weight (chars es) := by
    unfold weight
    rw [hcount '&' (by simp), hcount '!' (by simp)]
  refine ⟨hsame ▸ h.le, fun heq => ?_⟩
  obtain ⟨hopen, hreturn, hle⟩ := h.plain (hsame ▸ heq)
  refine ⟨fun hmem => hopen (hsub hmem), fun hr hmem => hreturn hr (hsub hmem), ?_⟩
  rwa [hcount ';' (by simp), hcount '&' (by simp)]

theorem count_normalized (hreturn : c ≠ '\r') (hline : c ≠ '\n') (t : Text) :
    (normalized t).count c = t.count c := by
  induction t with
  | nil => rfl
  | cons d t ih =>
    rw [normalized]
    split
    · rename_i hd
      rw [hd, List.count_cons_of_ne hreturn.symm]
      split
      · exact ih
      · rw [List.count_cons_of_ne hline.symm, ih]
    · rw [List.count_cons, List.count_cons, ih]

theorem return_not_mem_normalized (t : Text) : '\r' ∉ normalized t := by
  induction t with
  | nil => exact List.not_mem_nil
  | cons d t ih =>
    rw [normalized]
    split
    · split
      · exact ih
      · simp [ih]
    · rename_i hd
      simp [ih, Ne.symm hd]

theorem normalized_of_not_mem (h : '\r' ∉ t) : normalized t = t := by
  induction t with
  | nil => rfl
  | cons d t ih =>
    obtain ⟨hd, ht⟩ := not_or.mp (mt List.mem_cons.mpr h)
    rw [normalized, if_neg (Ne.symm hd), ih ht]

theorem events_eq_some_iff (h : '\r' ∉ t) : events t = some es ↔
    t.all isLegal = true ∧ read t = some es := by
  unfold events
  rw [normalized_of_not_mem h]
  split
  · rename_i hlegal
    exact (and_iff_right hlegal).symm
  · rename_i hlegal
    exact iff_of_false nofun fun hread => hlegal hread.1

theorem weighs_events (h : events t = some es) :
    weight (chars es) ≤ weight t ∧ (weight (chars es) = weight t →
      '<' ∉ chars es ∧ '\r' ∉ chars es ∧ (chars es).count ';' + (chars es).count '&' ≤
        t.count ';') := by
  unfold events at h
  split at h
  · obtain ⟨es', hes', rfl⟩ := Option.map_eq_some_iff.mp h
    have hweighs : Weighs (chars es') (normalized t) := weighs_eventsFrom hes'
    have hsig := hweighs.significant false
    have hweight : weight (normalized t) = weight t := by
      unfold weight
      rw [count_normalized (by decide) (by decide), count_normalized (by decide) (by decide)]
    refine ⟨hweight ▸ hsig.le, fun heq => ?_⟩
    obtain ⟨hopen, hreturn, hcount⟩ := hsig.plain (hweight ▸ heq)
    rw [count_normalized (by decide) (by decide)] at hcount
    exact ⟨hopen, hreturn (return_not_mem_normalized t), hcount⟩
  · cases h

-- Pieces of a text

theorem sectionEnd_starts_iff {u r : Text} (hr : ∀ d ∈ r.head?, d = '<' ∨ d = '&') :
    sectionEnd <+: u ++ r ↔ sectionEnd <+: u := by
  have hne : ∀ {d : Char} {v w : Text}, d ∈ sectionEnd → ¬ d :: v <+: r := by
    rintro d v w hd ⟨w', rfl⟩
    obtain rfl | rfl := hr d rfl <;> exact absurd hd (by decide)
  match u with
  | [] => exact ⟨fun h => absurd h (hne (w := []) (by decide)), fun h => absurd h (by decide)⟩
  | [a] =>
    simp only [sectionEnd, String.reduceToList, List.cons_append, List.nil_append,
      List.cons_prefix_cons]
    exact ⟨fun h => absurd h.2 (hne (w := []) (by decide)), fun h => absurd h.2 (by simp)⟩
  | [a, b] =>
    simp only [sectionEnd, String.reduceToList, List.cons_append, List.nil_append,
      List.cons_prefix_cons]
    exact ⟨fun h => absurd h.2.2 (hne (w := []) (by decide)), fun h => absurd h.2.2 (by simp)⟩
  | a :: b :: c :: u =>
    simp only [sectionEnd, String.reduceToList, List.cons_append, List.cons_prefix_cons,
      List.nil_prefix]

theorem eventsFrom_chars {u r : Text} (hopen : '<' ∉ u) (hamp : '&' ∉ u)
    (hr : ∀ d ∈ r.head?, d = '<' ∨ d = '&') :
    eventsFrom .content (u ++ r) =
      if sectionEnd <:+: u then none else (eventsFrom .content r).map (u.map .char ++ ·) := by
  induction u with
  | nil =>
    rw [if_neg (by decide)]
    simp
  | cons c u ih =>
    obtain ⟨hc, hopen⟩ := not_or.mp (mt List.mem_cons.mpr hopen)
    obtain ⟨hc', hamp⟩ := not_or.mp (mt List.mem_cons.mpr hamp)
    rw [List.cons_append, eventsFrom, if_neg (Ne.symm hc), if_neg (Ne.symm hc'), ih hopen hamp]
    have hstarts : sectionEnd <+: c :: (u ++ r) ↔ sectionEnd <+: c :: u :=
      sectionEnd_starts_iff (u := c :: u) hr
    simp only [hstarts, List.infix_cons_iff]
    by_cases hhere : sectionEnd <+: c :: u
    · rw [if_pos hhere, if_pos (.inl hhere)]
    · rw [if_neg hhere]
      by_cases hlater : sectionEnd <:+: u
      · rw [if_pos hlater, if_pos (.inr hlater), Option.map_none]
      · rw [if_neg hlater, if_neg (not_or.mpr ⟨hhere, hlater⟩), Option.map_map]
        rfl

/-- A text that is read as events, on a condition, whatever follows it. -/
structure Gives (P : Prop) (t : Text) (es : List Event) : Prop where
  some : P → ∀ r, read (t ++ r) = (read r).map (es ++ ·)
  none : ¬ P → ∀ r, read (t ++ r) = Option.none

variable {P Q : Prop} {es' : List Event} {name u : Text}

theorem gives_nil : Gives True [] [] where
  some _ r := by simp
  none h := absurd trivial h

theorem Gives.append (h : Gives P t es) (h' : Gives Q t' es') : Gives (P ∧ Q) (t ++ t')
    (es ++ es') where
  some := by
    rintro ⟨hp, hq⟩ r
    rw [List.append_assoc, h.some hp, h'.some hq, Option.map_map]
    exact congrArg ((read r).map ·) (funext fun _ => (List.append_assoc ..).symm)
  none hnot r := by
    rw [List.append_assoc]
    by_cases hp : P
    · rw [h.some hp, h'.none (fun hq => hnot ⟨hp, hq⟩), Option.map_none]
    · exact h.none hp _

theorem Gives.congr (h : Gives P t es) (hiff : P ↔ Q) : Gives Q t es :=
  ⟨fun hq => h.some (hiff.mpr hq), fun hq => h.none (mt hiff.mp hq)⟩

theorem Gives.flatMap {α : Type u} {xs : List α} {p : α → Prop} {f : α → Text} {g : α → List Event}
    (h : ∀ x ∈ xs, Gives (p x) (f x) (g x)) : Gives (∀ x ∈ xs, p x) (xs.flatMap f)
    (xs.flatMap g) := by
  induction xs with
  | nil => exact gives_nil.congr (by simp)
  | cons x xs ih =>
    obtain ⟨hx, hxs⟩ := List.forall_mem_cons.mp h
    exact (hx.append (ih hxs)).congr List.forall_mem_cons.symm

theorem Gives.of_read (h : Gives P t es) (hread : read t = Option.some es') : P ∧ es' = es := by
  have hnil : read [] = Option.some [] := rfl
  by_cases hp : P
  · have hsome := h.some hp []
    rw [List.append_nil, hread, hnil, Option.map_some, List.append_nil] at hsome
    exact ⟨hp, Option.some.inj hsome⟩
  · have hnone := h.none hp []
    rw [List.append_nil, hread] at hnone
    cases hnone

theorem Gives.read (h : Gives P t es) (hp : P) : Markup.read t = Option.some es := by
  have hsome := h.some hp []
  rw [List.append_nil] at hsome
  rw [hsome, show Markup.read [] = Option.some [] from rfl, Option.map_some, List.append_nil]

theorem gives_space (hspace : ∀ c ∈ t, isSpace c = true) : Gives True t [] := by
  induction t with
  | nil => exact gives_nil
  | cons c t ih =>
    obtain ⟨hc, ht⟩ := List.forall_mem_cons.mp hspace
    have hone : Gives True [c] [] := by
      refine ⟨fun _ r => ?_, fun h => absurd trivial h⟩
      have hne : c ≠ '<' ∧ c ≠ '&' ∧ c ≠ ']' := by
        refine ⟨?_, ?_, ?_⟩ <;> rintro rfl <;> exact absurd hc (by decide)
      have hstarts : ¬ sectionEnd <+: c :: r := fun h => hne.2.2 (List.cons_prefix_cons.mp h).1.symm
      unfold Markup.read
      rw [List.singleton_append, eventsFrom, if_neg hne.1, if_neg hne.2.1, if_neg hstarts,
        Option.map_map, Option.map_map]
      refine congrArg ((eventsFrom .content r).map ·) (funext fun es => ?_)
      simp [significant, hc]
    exact (hone.append (ih ht)).congr (and_iff_left trivial)

theorem eventsFrom_markup {inner : Text} (hinner : '>' ∉ inner) (acc r : Text) :
    eventsFrom (.markup acc) (inner ++ '>' :: r) = eventsFrom (.markup (acc ++ inner))
      ('>' :: r) := by
  induction inner generalizing acc with
  | nil => simp
  | cons c inner ih =>
    obtain ⟨hc, hinner⟩ := not_or.mp (mt List.mem_cons.mpr hinner)
    rw [List.cons_append, eventsFrom, if_neg (fun h => hc h.1.symm), ih hinner, List.append_assoc]
    rfl

theorem eventsFrom_tag {inner : Text} (hinner : '>' ∉ inner) (hends : isEnded inner = true)
    (hes : markupEvents inner = Option.some es) (r : Text) :
    eventsFrom .content ('<' :: (inner ++ '>' :: r)) = (eventsFrom .content r).map (es ++ ·) := by
  rw [eventsFrom, if_pos rfl, eventsFrom_markup hinner, List.nil_append, eventsFrom,
    if_pos ⟨rfl, hends⟩, hes]

-- Elements

def tag (name : Text) : Text := '<' :: (name ++ ['>'])

def endTag (name : Text) : Text := tag ('/' :: name)

def element (name content : Text) : Text := tag name ++ (content ++ endTag name)

def textEvents (name d : Text) : List Event := .start name :: (d.map .char ++ [.stop name])

theorem chars_textEvents (name d : Text) : chars (textEvents name d) = d := by
  rw [textEvents, chars_start, chars_append, chars_map_char]
  exact List.append_nil d

theorem textEvents_append_inj {d d' : Text} {es es' : List Event}
    (h : textEvents name d ++ es = textEvents name d' ++ es') : d = d' ∧ es = es' := by
  have hrest : d.map .char ++ (.stop name :: es) = d'.map .char ++ (.stop name :: es') := by
    rw [textEvents, textEvents, List.cons_append, List.cons_append, List.append_assoc,
      List.append_assoc] at h
    exact (List.cons.inj h).2
  clear h
  induction d generalizing d' with
  | nil =>
    cases d' with
    | nil => exact ⟨rfl, (List.cons.inj hrest).2⟩
    | cons c d' => cases (List.cons.inj hrest).1
  | cons c d ih =>
    cases d' with
    | nil => cases (List.cons.inj hrest).1
    | cons c' d' =>
      obtain ⟨hc, hrest⟩ := List.cons.inj hrest
      obtain ⟨rfl, hes⟩ := ih hrest
      exact ⟨congrArg (· :: d) (Event.char.inj hc), hes⟩

theorem flatMap_append_inj {α : Type} {f : α → List Event} {xs ys : List α} {es es' : List Event}
    (hinj : ∀ x y es es', f x ++ es = f y ++ es' → x = y ∧ es = es')
    (hf : ∀ x, ∃ name es, f x = .start name :: es)
    (h : xs.flatMap f ++ (.stop name :: es) = ys.flatMap f ++ (.stop name :: es')) :
    xs = ys ∧ es = es' := by
  induction xs generalizing ys with
  | nil =>
    cases ys with
    | nil => exact ⟨rfl, (List.cons.inj h).2⟩
    | cons y ys =>
      obtain ⟨name', es', hy⟩ := hf y
      rw [List.flatMap_cons, hy] at h
      cases (List.cons.inj h).1
  | cons x xs ih =>
    cases ys with
    | nil =>
      obtain ⟨name', es', hx⟩ := hf x
      rw [List.flatMap_cons, hx] at h
      cases (List.cons.inj h).1
    | cons y ys =>
      rw [List.flatMap_cons, List.flatMap_cons, List.append_assoc, List.append_assoc] at h
      obtain ⟨rfl, hrest⟩ := hinj x y _ _ h
      obtain ⟨rfl, hes⟩ := ih hrest
      exact ⟨rfl, hes⟩

structure IsTag (name : Text) : Prop where
  closed : '>' ∉ name
  ends : isEnded name = true
  starts : markupEvents name = Option.some [.start name]
  ends' : isEnded ('/' :: name) = true
  stops : markupEvents ('/' :: name) = Option.some [.stop name]

theorem eventsFrom_start (h : IsTag name) (r : Text) :
    eventsFrom .content (tag name ++ r) = (eventsFrom .content r).map (.start name :: ·) := by
  have htag := eventsFrom_tag h.closed h.ends h.starts r
  unfold tag
  rw [List.cons_append, List.append_assoc]
  exact htag

theorem eventsFrom_stop (h : IsTag name) (r : Text) :
    eventsFrom .content (endTag name ++ r) = (eventsFrom .content r).map (.stop name :: ·) := by
  have hclosed : '>' ∉ '/' :: name := by
    rw [List.mem_cons, not_or]
    exact ⟨by decide, h.closed⟩
  have htag := eventsFrom_tag hclosed h.ends' h.stops r
  unfold endTag tag
  rw [List.cons_append, List.append_assoc]
  exact htag

theorem gives_start (h : IsTag name) (hname : isText name = false) : Gives True (tag name)
    [.start name] := by
  refine ⟨fun _ r => ?_, fun h => absurd trivial h⟩
  unfold Markup.read
  rw [eventsFrom_start h, Option.map_map, Option.map_map]
  refine congrArg ((eventsFrom .content r).map ·) (funext fun es => ?_)
  simp [significant, hname]

theorem gives_stop (h : IsTag name) : Gives True (endTag name) [.stop name] := by
  refine ⟨fun _ r => ?_, fun h => absurd trivial h⟩
  unfold Markup.read
  rw [eventsFrom_stop h, Option.map_map, Option.map_map]
  rfl

theorem eventsFrom_content_cons (c : Char) (t : Text) :
    eventsFrom .content (c :: t) =
      if c = '<' then eventsFrom (.markup []) t
      else if c = '&' then eventsFrom (.reference []) t
      else if sectionEnd <+: c :: t then Option.none
      else (eventsFrom .content t).map (.char c :: ·) := by
  rw [eventsFrom]

theorem eventsFrom_reference_cons (name : Text) (c : Char) (t : Text) :
    eventsFrom (.reference name) (c :: t) =
      if c = ';' then (referred name).bind fun d => (eventsFrom .content t).map (.char d :: ·)
      else if c.isAlphanum ∨ c = '#' then eventsFrom (.reference (name ++ [c])) t
      else Option.none := by
  rw [eventsFrom]
  cases referred name <;> rfl

theorem eventsFrom_open (st : State) {r : Text} (hu : '<' ∉ u) (hst : ∀ inner, st ≠ .markup inner) :
    eventsFrom st (u ++ '<' :: r) =
      (eventsFrom st u).bind fun es => (eventsFrom .content ('<' :: r)).map (es ++ ·) := by
  induction u generalizing st with
  | nil =>
    cases st with
    | content =>
      rw [List.nil_append, eventsFrom, Option.bind_some]
      simp
    | reference name =>
      rw [List.nil_append, eventsFrom_reference_cons, if_neg (by decide),
        if_neg (by decide), eventsFrom]
      rfl
    | markup inner => exact absurd rfl (hst inner)
  | cons c u ih =>
    obtain ⟨hc, hu⟩ := not_or.mp (mt List.mem_cons.mpr hu)
    have hcontent := ih .content hu nofun
    cases st with
    | content =>
      have hstarts : sectionEnd <+: c :: (u ++ '<' :: r) ↔ sectionEnd <+: c :: u :=
        sectionEnd_starts_iff (u := c :: u) (by simp)
      rw [List.cons_append, eventsFrom_content_cons c, eventsFrom_content_cons c u,
        if_neg (Ne.symm hc), if_neg (Ne.symm hc)]
      simp only [hstarts]
      split
      · exact ih _ hu nofun
      · split
        · rfl
        · rw [hcontent]
          cases eventsFrom .content u with
          | none => rfl
          | some es => exact Option.map_map ..
    | reference name =>
      rw [List.cons_append, eventsFrom_reference_cons, eventsFrom_reference_cons]
      split
      · rw [hcontent]
        cases referred name with
        | none => rfl
        | some d =>
          cases eventsFrom .content u with
          | none => rfl
          | some es => exact Option.map_map ..
      · split
        · exact ih _ hu nofun
        · rfl
    | markup inner => exact absurd rfl (hst inner)

theorem significant_text (d : Text) (es : List Event) :
    significant true (d.map .char ++ es) = d.map .char ++ significant true es := by
  induction d with
  | nil => rfl
  | cons c d ih => simp [significant, ih]

/-- An element of character data, whose content stands for `d` on a condition. -/
theorem gives_element {d : Text} (h : IsTag name) (hname : isText name = true) (hu : '<' ∉ u)
    (hsome : P → eventsFrom .content u = Option.some (d.map .char))
    (hnone : ¬ P → eventsFrom .content u = Option.none) : Gives P (element name u)
    (textEvents name d) := by
  have hall : ∀ r, eventsFrom .content (element name u ++ r) =
      ((eventsFrom .content u).bind fun es =>
        (eventsFrom .content (endTag name ++ r)).map (es ++ ·)).map
        (.start name :: ·) := by
    intro r
    rw [element, List.append_assoc, List.append_assoc, eventsFrom_start h]
    exact congrArg _ (eventsFrom_open .content (r := '/' :: name ++ ['>'] ++ r) hu nofun)
  refine ⟨fun hp r => ?_, fun hp r => ?_⟩
  · unfold Markup.read
    rw [hall, hsome hp, Option.bind_some, eventsFrom_stop h, Option.map_map, Option.map_map,
      Option.map_map, Option.map_map]
    refine congrArg ((eventsFrom .content r).map ·) (funext fun es => ?_)
    simp only [Function.comp_apply, significant, hname, significant_text, textEvents,
      List.cons_append, List.append_assoc, List.nil_append]
  · unfold Markup.read
    rw [hall, hnone hp]
    rfl

-- Character data

theorem content_plain (hopen : '<' ∉ u) (hamp : '&' ∉ u) :
    eventsFrom .content u = if sectionEnd <:+: u then Option.none
    else Option.some (u.map .char) := by
  have hchars := eventsFrom_chars (r := []) hopen hamp (by simp)
  rw [List.append_nil, eventsFrom] at hchars
  rw [hchars, Option.map_some, List.append_nil]

theorem content_ampersand (v : Text) :
    eventsFrom .content ('&' :: ("amp;".toList ++ v)) = (eventsFrom .content v).map
      (.char '&' :: ·) := by
  have ha : ('a'.isAlphanum = true ∨ 'a' = '#') ∧ 'a' ≠ ';' := by decide
  have hm : ('m'.isAlphanum = true ∨ 'm' = '#') ∧ 'm' ≠ ';' := by decide
  have hp : ('p'.isAlphanum = true ∨ 'p' = '#') ∧ 'p' ≠ ';' := by decide
  rw [eventsFrom_content_cons, if_neg (by decide), if_pos rfl]
  show eventsFrom (.reference []) ('a' :: 'm' :: 'p' :: ';' :: v) = _
  rw [eventsFrom_reference_cons, if_neg ha.2, if_pos ha.1, eventsFrom_reference_cons,
    if_neg hm.2, if_pos hm.1,
    eventsFrom_reference_cons, if_neg hp.2, if_pos hp.1, eventsFrom_reference_cons, if_pos rfl]
  rfl

theorem sectionEnd_infix_iff {v : Text} :
    sectionEnd <:+: u ++ '&' :: v ↔ sectionEnd <:+: u ∨ sectionEnd <:+: v := by
  induction u with
  | nil =>
    have hnot : ¬ sectionEnd <+: '&' :: v :=
      fun h => absurd (List.cons_prefix_cons.mp h).1 (by decide)
    have hnil : ¬ sectionEnd <:+: [] := by decide
    rw [List.nil_append, List.infix_cons_iff, or_iff_right hnot, or_iff_right hnil]
  | cons c u ih =>
    have hstarts : sectionEnd <+: c :: (u ++ '&' :: v) ↔ sectionEnd <+: c :: u :=
      sectionEnd_starts_iff (u := c :: u) (by simp)
    rw [List.cons_append, List.infix_cons_iff, hstarts, ih, List.infix_cons_iff, or_assoc]

theorem content_escaped {v : Text} (hopen : '<' ∉ u ++ v) (hamp : '&' ∉ u ++ v) :
    eventsFrom .content (u ++ '&' :: ("amp;".toList ++ v)) =
      if sectionEnd <:+: u ++ '&' :: v then Option.none
      else Option.some ((u ++ '&' :: v).map .char) := by
  rw [List.mem_append, not_or] at hopen hamp
  rw [eventsFrom_chars hopen.1 hamp.1 (by simp), content_ampersand, content_plain hopen.2 hamp.2]
  simp only [sectionEnd_infix_iff]
  by_cases hu : sectionEnd <:+: u
  · rw [if_pos hu, if_pos (.inl hu)]
  · by_cases hv : sectionEnd <:+: v
    · rw [if_neg hu, if_pos hv, if_pos (.inr hv)]
      rfl
    · rw [if_neg hu, if_neg hv, if_neg (not_or.mpr ⟨hu, hv⟩), List.map_append]
      rfl

end

end Markup
