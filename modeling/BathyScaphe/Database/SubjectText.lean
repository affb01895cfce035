import BathyScaphe.Database.UpdateTask
import BathyScaphe.Foundation.StringComponents
import BathyScaphe.Lib.Greedy
import Mathlib.Algebra.Group.Nat.Defs

/-!
# Reading a subject list

One pattern reads the lines of every kind of board: a thread number, the title
and the number of messages. The pattern would leave the white space before the
bracket out of the title, but the repetition of the title is tried first and takes
it. -/

namespace BathyScaphe.Database

/-- `intValue` of a text that begins with a digit, which stops at `INT_MAX`. -/
def textIntValue (s : NSString) : UInt32 :=
  UInt32.ofNat (min (decimalValue (s.takeWhile isAsciiDigit)) 0x7fffffff)

/-- What the regular expressions and the table of the entities are asked for. -/
structure SubjectServices where
  /-- `\d` and `\s` -/
  isDigit : UniChar → Bool
  isSpace : UniChar → Bool
  stringForEntityReference : NSString → Option NSString
  isDigit_ascii : ∀ c, isAsciiDigit c = true → isDigit c = true
  isDigit_stop : isDigit (uc '.') = false
  isDigit_bracket : isDigit (uc ')') = false

-- Entity references

/-- The loop of `resolveInvalidAmpEntity`; `skip` counts the units of an `&amp`
that are still to be passed. Nothing is written behind one that ends the text. -/
def resolveAmpFrom : Nat → NSString → NSString
  | _, [] => []
  | 0, c :: s => c :: resolveAmpFrom (if ns "&amp" <+: c :: s then 3 else 0) s
  | skip + 1, c :: s =>
    if skip = 0 ∧ s.head?.any (fun d => d &&& 0x7f != uc ';') then
      c :: uc ';' :: resolveAmpFrom 0 s
    else c :: resolveAmpFrom skip s

def resolveInvalidAmpEntity (s : NSString) : NSString := resolveAmpFrom 0 s

section
variable (env : SubjectServices)

def replaceEntityReferenceWithString (s : NSString) : NSString :=
  NSString.replaceEntityReferenceFrom env.stringForEntityReference [] (resolveInvalidAmpEntity s)

-- The pattern

def subjectPattern : List (Greedy.Item UniChar) :=
  [.many 1 env.isDigit,
    .many 0 fun c => c != uc ',' && c != uc '<' && c != uc '>',
    .alternatives [ns "<>", ns ","],
    .many 0 fun c => c != uc '\n',
    .many 0 env.isSpace, .alternatives [ns "(", ns "<>", [0xFF08]],
    .many 1 env.isDigit]

theorem textIntValue_le (s : NSString) : textIntValue s ≤ 0x7fffffff := by
  rw [textIntValue, UInt32.le_iff_toNat_le,
    UInt32.toNat_ofNat_of_lt' (Nat.lt_of_le_of_lt (min_le_right _ _) (by decide))]
  exact min_le_right _ _

def subjectLine (line : NSString) : Option SubjectLine :=
  match Greedy.firstMatch (subjectPattern env) line with
  | some [datString, _, _, title, _, _, numString] =>
    some
      { datString := datString
        title := replaceEntityReferenceWithString env title
        count := textIntValue numString
        count_le := textIntValue_le numString }
  | _ => none

end

/-- A text whose lines can be counted, with its length in an `unsigned`. -/
structure SubjectText where
  units : NSString
  length_lt : units.length + 1 < 2 ^ 32

def SubjectText.lines (text : SubjectText) : List NSString :=
  text.units.componentsSeparatedByNewline

def SubjectText.subjectLines (env : SubjectServices) (text : SubjectText) :
    List (Option SubjectLine) :=
  text.lines.map (subjectLine env)

-- White space at the end of a title

section
variable {t : NSString}

theorem resolveAmpFrom_of_not_mem (h : uc '&' ∉ t) : resolveAmpFrom 0 t = t := by
  induction t with
  | nil => rfl
  | cons c s ih =>
    have hc : ¬ ns "&amp" <+: c :: s := fun hp => h (hp.subset (by decide))
    rw [resolveAmpFrom, if_neg hc, ih fun hs => h (List.mem_cons_of_mem c hs)]

theorem resolveAmpFrom_append {skip : Nat} {u : NSString} (hamp : ∀ c ∈ t, c ∉ ns "&amp")
    (hskip : skip ≤ u.length) : ∃ v, resolveAmpFrom skip (u ++ t) = v ++ t := by
  induction u generalizing skip with
  | nil =>
    obtain rfl : skip = 0 := Nat.le_zero.mp hskip
    exact ⟨[], resolveAmpFrom_of_not_mem fun h => hamp _ h (by decide)⟩
  | cons c u ih =>
    cases skip with
    | zero =>
      have hlength : (if ns "&amp" <+: c :: (u ++ t) then 3 else 0) ≤ u.length := by
        split
        · next hp =>
          obtain hlt | hle := Nat.lt_or_ge (c :: u).length (ns "&amp").length
          · obtain ⟨w, hw⟩ : c :: u <+: ns "&amp" :=
              List.prefix_of_prefix_length_le (List.prefix_append (c :: u) t) hp hlt.le
            have hwt : w <+: t := by
              rw [← hw, ← List.cons_append] at hp
              exact (List.prefix_append_right_inj (c :: u)).mp hp
            cases w with
            | nil => simp [← hw] at hlt
            | cons d w =>
              exact absurd (by simp [← hw]) (hamp d (hwt.subset List.mem_cons_self))
          · exact Nat.le_of_succ_le_succ hle
        · exact Nat.zero_le _
      obtain ⟨v, hv⟩ := ih hlength
      exact ⟨c :: v, by rw [List.cons_append, resolveAmpFrom, hv, List.cons_append]⟩
    | succ skip =>
      obtain ⟨v, hv⟩ := ih (Nat.le_of_succ_le_succ hskip)
      obtain ⟨v', hv'⟩ := ih (Nat.zero_le u.length)
      rw [List.cons_append, resolveAmpFrom]
      split
      · exact ⟨c :: uc ';' :: v', by rw [hv', List.cons_append, List.cons_append]⟩
      · exact ⟨c :: v, by rw [hv, List.cons_append]⟩

theorem suffix_of_dropWhile {c d : UniChar} {s after : NSString} (ht : t <:+ s)
    (hs : s.dropWhile (· != d) = c :: after) (hd : d ∉ t) : t <:+ after := by
  have hsuffix : c :: after <:+ s := hs ▸ List.dropWhile_suffix _
  obtain rfl : c = d := by
    have hc := List.head?_dropWhile_not (· != d) s
    rw [hs] at hc
    simpa using hc
  obtain h | h := List.suffix_or_suffix_of_suffix ht hsuffix
  · obtain h | h := List.suffix_cons_iff.mp h
    · exact absurd (h ▸ List.mem_cons_self) hd
    · exact h
  · exact absurd (h.subset List.mem_cons_self) hd

theorem suffix_replaceEntityReferenceFrom (f : NSString → Option NSString) (hamp : uc '&' ∉ t)
    (hsemi : uc ';' ∉ t) (done rest : NSString) (h : t <:+ rest) :
    t <:+ NSString.replaceEntityReferenceFrom f done rest := by
  fun_induction NSString.replaceEntityReferenceFrom f done rest with
  | case1 done rest hnone => exact h.trans (List.suffix_append done rest)
  | case2 done rest amp after hrest before hafter hnone ih =>
    exact ih (suffix_of_dropWhile h hrest hamp)
  | case3 done rest amp after hrest before hafter semi tail htail entity hentity hnone ih =>
    exact ih (suffix_of_dropWhile h hrest hamp)
  | case4 done rest amp after hrest before hafter semi tail htail entity hentity
      new hnew hlength ih =>
    have hsuffix := suffix_of_dropWhile (suffix_of_dropWhile h hrest hamp) htail hsemi
    exact ih (hsuffix.trans (List.suffix_append _ _))
  | case5 done rest amp after hrest before hafter semi tail htail entity hentity
      new hnew hlength ih =>
    exact ih (suffix_of_dropWhile (suffix_of_dropWhile h hrest hamp) htail hsemi)

theorem suffix_replaceEntityReferenceWithString (env : SubjectServices) {s : NSString} (n : Nat)
    (h : List.replicate n (uc ' ') <:+ s) :
    List.replicate n (uc ' ') <:+ replaceEntityReferenceWithString env s := by
  have hmem : ∀ c ∈ List.replicate n (uc ' '), c = uc ' ' := fun c hc => List.eq_of_mem_replicate hc
  obtain ⟨u, rfl⟩ := h
  obtain ⟨v, hv⟩ := resolveAmpFrom_append (u := u) (t := List.replicate n (uc ' '))
    (fun c hc => by rw [hmem c hc]; decide) (Nat.zero_le u.length)
  refine suffix_replaceEntityReferenceFrom _ ?_ ?_ [] _ ⟨v, hv.symm⟩
  · exact fun h => absurd (hmem _ h) (by decide)
  · exact fun h => absurd (hmem _ h) (by decide)

theorem replaceEntityReferenceWithString_of_not_mem (env : SubjectServices) (h : uc '&' ∉ t) :
    replaceEntityReferenceWithString env t = t := by
  have hnone : t.dropWhile (· != uc '&') = [] := by
    rw [List.dropWhile_eq_nil_iff]
    intro c hc
    rw [bne_iff_ne]
    rintro rfl
    exact h hc
  rw [replaceEntityReferenceWithString, resolveInvalidAmpEntity, resolveAmpFrom_of_not_mem h,
    NSString.replaceEntityReferenceFrom]
  split
  · rfl
  · next hcons =>
    rw [hnone] at hcons
    cases hcons

/-- Replacing entity references never removes a space from the end of a text. -/
theorem replaceEntityReferenceWithString_ne (env : SubjectServices) (title : NSString) :
    replaceEntityReferenceWithString env (title ++ ns " ") ≠ title := by
  intro heq
  -- The title would end with any number of spaces.
  have hspaces : ∀ n, List.replicate n (uc ' ') <:+ title := by
    intro n
    induction n with
    | zero => exact List.nil_suffix
    | succ n ih =>
      have hmore : List.replicate (n + 1) (uc ' ') <:+ title ++ ns " " := by
        rw [List.replicate_succ']
        exact (List.suffix_append_inj_of_length_eq rfl).mpr ⟨ih, rfl⟩
      have hkept := suffix_replaceEntityReferenceWithString env (n + 1) hmore
      rwa [heq] at hkept
  have hlength := (hspaces (title.length + 1)).length_le
  rw [List.length_replicate] at hlength
  omega

end

-- Lines of the two forms

def IsNumber (s : NSString) : Prop := s ≠ [] ∧ ∀ c ∈ s, isAsciiDigit c = true

instance (s : NSString) : Decidable (IsNumber s) :=
  decidable_of_iff (s ≠ [] ∧ s.all isAsciiDigit = true) (and_congr Iff.rfl List.all_eq_true)

def spacedForm (key title number : NSString) : NSString :=
  key ++ (ns ".dat" ++ (ns "<>" ++ ((title ++ ns " ") ++ (ns "(" ++ (number ++ ns ")")))))

def commaForm (key title number : NSString) : NSString :=
  key ++ (ns ".dat" ++ (ns "," ++ (title ++ (ns "(" ++ (number ++ ns ")")))))

theorem spacedForm_ne_commaForm (key title number : NSString) :
    spacedForm key title number ≠ commaForm key title number := by
  intro h
  have hrest := List.append_cancel_left (List.append_cancel_left h)
  have hhead : some (uc '<') = some (uc ',') := congrArg List.head? hrest
  exact absurd hhead (by decide)

def isOpener (c : UniChar) : Bool := c == uc '(' || c == uc '<' || c == 0xFF08

section
variable (env : SubjectServices) {s key title number : NSString}

theorem matchHere_number (hnumber : IsNumber number) :
    Greedy.matchHere [.many 1 env.isDigit] (number ++ ns ")") = some [number] := by
  have htake : Greedy.takeMany env.isDigit (Greedy.matchHere []) 1 (number ++ ns ")") =
      some (number, []) := by
    refine Greedy.takeMany_of_head (fun c hc => env.isDigit_ascii c (hnumber.2 c hc))
      (List.length_pos_iff.mpr hnumber.1) rfl fun c hc => ?_
    obtain rfl : uc ')' = c := Option.some.inj hc
    exact env.isDigit_bracket
  rw [Greedy.matchHere, Greedy.Item.take, htake]
  rfl

theorem matchHere_opener_eq_none (items : List (Greedy.Item UniChar))
    (h : ∀ c ∈ s, isOpener c = false) :
    Greedy.matchHere (.alternatives [ns "(", ns "<>", [0xFF08]] :: items) s = none := by
  have hnot : ∀ (c : UniChar) (text : NSString), isOpener c = true → ¬ (c :: text) <+: s :=
    fun c text hc hp => by
      rw [h c (hp.subset List.mem_cons_self)] at hc
      cases hc
  have hround : ¬ ns "(" <+: s := hnot (uc '(') [] (by decide)
  have hangle : ¬ ns "<>" <+: s := hnot (uc '<') [uc '>'] (by decide)
  have hwide : ¬ [0xFF08] <+: s := hnot 0xFF08 [] (by decide)
  simp [Greedy.matchHere, Greedy.Item.take, hround, hangle, hwide]

theorem matchHere_space_eq_none (items : List (Greedy.Item UniChar))
    (h : ∀ c ∈ s, isOpener c = false) :
    Greedy.matchHere (.many 0 env.isSpace :: .alternatives [ns "(", ns "<>", [0xFF08]] :: items) s =
      none := by
  have htake : Greedy.takeMany env.isSpace
      (Greedy.matchHere (.alternatives [ns "(", ns "<>", [0xFF08]] :: items)) 0 s = none := by
    refine Greedy.takeMany_eq_none 0 fun v rest hs _ => matchHere_opener_eq_none items fun c hc =>
      ?_
    exact h c (hs ▸ List.mem_append_right v hc)
  rw [Greedy.matchHere, Greedy.Item.take, htake]
  rfl

theorem isOpener_of_number (hnumber : IsNumber number) :
    ∀ c ∈ number ++ ns ")", isOpener c = false := by
  intro c hc
  obtain hc | hc := List.mem_append.mp hc
  · have hdigit := hnumber.2 c hc
    simp only [isAsciiDigit, isOpener, Bool.and_eq_true, Bool.or_eq_false_iff, beq_eq_false_iff_ne,
      decide_eq_true_eq] at hdigit ⊢
    refine ⟨⟨?_, ?_⟩, ?_⟩ <;> rintro rfl <;> exact absurd hdigit (by decide)
  · obtain rfl := List.mem_singleton.mp hc
    decide

theorem suffix_of_bracket {v rest : NSString} (h : ns "(" ++ s = v ++ rest) (hne : v ≠ []) :
    rest <:+ s := by
  cases v with
  | nil => exact absurd rfl hne
  | cons d v =>
    have hcons : uc '(' :: s = d :: (v ++ rest) := h
    exact ⟨v, (List.cons.inj hcons).2.symm⟩

theorem matchHere_bracket (hnumber : IsNumber number) :
    Greedy.matchHere [.many 0 env.isSpace, .alternatives [ns "(", ns "<>", [0xFF08]],
      .many 1 env.isDigit] (ns "(" ++ (number ++ ns ")")) = some [[], ns "(", number] := by
  have hopen : Greedy.matchHere [.alternatives [ns "(", ns "<>", [0xFF08]], .many 1 env.isDigit]
      (ns "(" ++ (number ++ ns ")")) = some [ns "(", number] := by
    rw [Greedy.matchHere, Greedy.Item.take, List.findSome?_cons, if_pos (List.prefix_append _ _),
      List.drop_left, matchHere_number env hnumber]
    rfl
  have htake := Greedy.takeMany_append (p := env.isSpace) (u := []) (by simp) (Nat.le_refl 0) hopen
    fun v rest' hrest hne _ => matchHere_opener_eq_none [.many 1 env.isDigit] fun c hc =>
      isOpener_of_number hnumber c ((suffix_of_bracket hrest hne).subset hc)
  rw [List.nil_append] at htake
  rw [Greedy.matchHere, Greedy.Item.take, htake]
  rfl

theorem matchHere_title {held : NSString} (hheld : uc '\n' ∉ held) (hnumber : IsNumber number) :
    Greedy.matchHere [.many 0 (· != uc '\n'), .many 0 env.isSpace,
      .alternatives [ns "(", ns "<>", [0xFF08]], .many 1 env.isDigit]
      (held ++ (ns "(" ++ (number ++ ns ")"))) = some [held, [], ns "(", number] := by
  have hunits : ∀ c ∈ held, (c != uc '\n') = true := by
    intro c hc
    rw [bne_iff_ne]
    rintro rfl
    exact hheld hc
  have htake := Greedy.takeMany_append hunits (Nat.zero_le held.length)
    (matchHere_bracket env hnumber)
    fun v rest' hrest hne _ => matchHere_space_eq_none env [.many 1 env.isDigit] fun c hc =>
      isOpener_of_number hnumber c ((suffix_of_bracket hrest hne).subset hc)
  rw [Greedy.matchHere, Greedy.Item.take, htake]
  rfl

theorem matchHere_separator {separator held : NSString}
    (hsep : separator = ns "<>" ∨ separator = ns ",")
    (hheld : uc '\n' ∉ held) (hnumber : IsNumber number) :
    Greedy.matchHere [.alternatives [ns "<>", ns ","], .many 0 (· != uc '\n'), .many 0 env.isSpace,
      .alternatives [ns "(", ns "<>", [0xFF08]], .many 1 env.isDigit]
      (separator ++ (held ++ (ns "(" ++ (number ++ ns ")")))) =
      some [separator, held, [], ns "(", number] := by
  obtain rfl | rfl := hsep
  · rw [Greedy.matchHere, Greedy.Item.take, List.findSome?_cons, if_pos (List.prefix_append _ _),
      List.drop_left, matchHere_title env hheld hnumber]
    rfl
  · have hangle : ¬ ns "<>" <+: ns "," ++ (held ++ (ns "(" ++ (number ++ ns ")"))) := by
      intro h
      have hhead := (List.cons_prefix_cons.mp (h : uc '<' :: [uc '>'] <+: uc ',' :: _)).1
      exact absurd hhead (by decide)
    rw [Greedy.matchHere, Greedy.Item.take, List.findSome?_cons, if_neg hangle, List.findSome?_cons,
      if_pos (List.prefix_append _ _), List.drop_left, matchHere_title env hheld hnumber]
    rfl

theorem firstMatch_form {separator held : NSString} (hkey : IsNumber key)
    (hsep : separator = ns "<>" ∨ separator = ns ",") (hheld : uc '\n' ∉ held)
    (hnumber : IsNumber number) :
    Greedy.firstMatch (subjectPattern env)
      (key ++ (ns ".dat" ++ (separator ++ (held ++ (ns "(" ++ (number ++ ns ")")))))) =
      some [key, ns ".dat", separator, held, [], ns "(", number] := by
  have hdat := Greedy.takeMany_of_head (p := fun c => c != uc ',' && c != uc '<' && c != uc '>')
    (u := ns ".dat") (List.all_eq_true.mp (by decide)) (Nat.zero_le _)
    (matchHere_separator env hsep hheld hnumber) (by
      intro c hc
      obtain rfl | rfl := hsep <;> obtain rfl := Option.some.inj hc <;> decide)
  have hdigits : ∀ c ∈ key, env.isDigit c = true := fun c hc => env.isDigit_ascii c (hkey.2 c hc)
  have hmatch : Greedy.matchHere (subjectPattern env)
      (key ++ (ns ".dat" ++ (separator ++ (held ++ (ns "(" ++ (number ++ ns ")")))))) =
      some [key, ns ".dat", separator, held, [], ns "(", number] := by
    have hrest : Greedy.matchHere (subjectPattern env).tail
        (ns ".dat" ++ (separator ++ (held ++ (ns "(" ++ (number ++ ns ")"))))) =
        some [ns ".dat", separator, held, [], ns "(", number] := by
      rw [subjectPattern, List.tail_cons, Greedy.matchHere, Greedy.Item.take, hdat]
      rfl
    have htake := Greedy.takeMany_of_head hdigits (List.length_pos_iff.mpr hkey.1) hrest (by
      intro c hc
      obtain rfl := Option.some.inj hc
      exact env.isDigit_stop)
    rw [subjectPattern, Greedy.matchHere, Greedy.Item.take]
    exact congrArg (Option.map _) htake
  exact Greedy.firstMatch_of_matchHere hmatch

theorem subjectLine_form {separator held : NSString} (hkey : IsNumber key)
    (hsep : separator = ns "<>" ∨ separator = ns ",") (hheld : uc '\n' ∉ held)
    (hnumber : IsNumber number) :
    subjectLine env
      (key ++ (ns ".dat" ++ (separator ++ (held ++ (ns "(" ++ (number ++ ns ")")))))) =
      some ⟨key, replaceEntityReferenceWithString env held, textIntValue number,
        textIntValue_le number⟩ := by
  rw [subjectLine, firstMatch_form env hkey hsep hheld hnumber]

end

def ListsThread (line key title number : NSString) : Prop :=
  IsNumber key ∧ IsNumber number ∧
    (line = spacedForm key title number ∨ line = commaForm key title number)

theorem ListsThread.eq_of_commaForm (env : SubjectServices)
    {key title number key' title' number' : NSString}
    (hline : uc '\n' ∉ commaForm key title number) (hkey : IsNumber key) (hnumber : IsNumber number)
    (h : ListsThread (commaForm key title number) key' title' number') :
    key' = key ∧ title' = title ∧ number' = number := by
  have htitle : uc '\n' ∉ title := fun hc => hline (by simp [commaForm, hc])
  have hmatch := firstMatch_form env hkey (.inr rfl) htitle hnumber
  obtain ⟨hkey', hnumber', heq | heq⟩ := h
  · have htitle' : uc '\n' ∉ title' ++ ns " " := fun hc => hline (by
      rw [heq]
      exact List.mem_append_right _ (List.mem_append_right _ (List.mem_append_right _
        (List.mem_append_left _ hc))))
    have hmatch' := firstMatch_form env hkey' (.inl rfl) htitle' hnumber'
    rw [← spacedForm, ← heq, commaForm, hmatch] at hmatch'
    have hsep : ns "," = ns "<>" := by
      have hlist := Option.some.inj hmatch'
      exact (List.cons.inj (List.cons.inj (List.cons.inj hlist).2).2).1
    exact absurd hsep (by decide)
  · have htitle' : uc '\n' ∉ title' := fun hc => hline (by
      rw [heq]
      exact List.mem_append_right _ (List.mem_append_right _ (List.mem_append_right _
        (List.mem_append_left _ hc))))
    have hmatch' := firstMatch_form env hkey' (.inr rfl) htitle' hnumber'
    rw [← commaForm, ← heq, commaForm, hmatch] at hmatch'
    simpa [eq_comm] using hmatch'

theorem subjectLine_of_listsThread (env : SubjectServices) {text : SubjectText}
    {line key title number : NSString} (hline : line ∈ text.lines)
    (h : ListsThread line key title number) :
    ∃ held, (line = spacedForm key title number ∧ held = title ++ ns " " ∨
        line = commaForm key title number ∧ held = title) ∧
      subjectLine env line = some ⟨key, replaceEntityReferenceWithString env held,
        textIntValue number, textIntValue_le number⟩ := by
  obtain ⟨hkey, hnumber, hform⟩ := h
  have hunits : uc '\n' ∉ line := fun hc =>
    absurd (NSString.isLineTerminator_of_mem_components hline _ hc) (by decide)
  obtain rfl | rfl := hform
  · refine ⟨title ++ ns " ", .inl ⟨rfl, rfl⟩, subjectLine_form env hkey (.inl rfl) ?_ hnumber⟩
    intro hc
    obtain hc | hc := List.mem_append.mp hc
    · exact hunits (by simp [spacedForm, hc])
    · exact absurd hc (by decide)
  · refine ⟨title, .inr ⟨rfl, rfl⟩, subjectLine_form env hkey (.inr rfl) ?_ hnumber⟩
    exact fun hc => hunits (by simp [commaForm, hc])

end BathyScaphe.Database
