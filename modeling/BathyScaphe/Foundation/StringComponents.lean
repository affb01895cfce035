import BathyScaphe.Foundation.NSString
import BathyScaphe.Lib.Split
import Mathlib.Data.List.DropRight

/-!
# Taking strings apart

Lines, components and the trimming of white space. Searches compare units, as
the literal searches of the sources do.
-/

namespace BathyScaphe

namespace NSString

def containsString (s pattern : NSString) : Bool := decide (pattern <:+: s)

def componentsSeparatedByString (s separator : NSString) : List NSString :=
  Split.pieces separator s

def componentsJoinedByString (components : List NSString) (glue : NSString) : NSString :=
  glue.intercalate components

def stringByReplaceCharacters (s chars replacement : NSString) : NSString :=
  if s.containsString chars then replacement.intercalate (Split.pieces chars s) else s

/-- The set of white space and newlines that `CFStringTrimWhitespace` removes. -/
def isWhitespace (c : UniChar) : Bool :=
  (0x09 ≤ c && c ≤ 0x0D) || c == 0x20 || c == 0x85 || c == 0xA0 || c == 0x1680 ||
    (0x2000 ≤ c && c ≤ 0x200A) || c == 0x2028 || c == 0x2029 || c == 0x202F || c == 0x205F ||
    c == 0x3000

def stringByStriped (s : NSString) : NSString := (s.dropWhile isWhitespace).rdropWhile isWhitespace

def IsBlank (s : NSString) : Prop := ∀ c ∈ s, isWhitespace c = true

instance (s : NSString) : Decidable (IsBlank s) := List.decidableBAll _ s

-- Lines

def isLineTerminator (c : UniChar) : Bool :=
  c == uc '\n' || c == uc '\r' || c == 0x2028 || c == 0x2029

/-- The loop over `getLineStart:end:contentsEnd:forRange:`. It stops when the
next line would start at the end of the string, so nothing follows a last
terminator; a return and a line feed are one terminator. -/
def lineContents : NSString → List NSString
  | [] => [[]]
  | c :: s =>
    if c = uc '\r' ∧ s.head? = some (uc '\n') then lineContents s
    else if isLineTerminator c then
      if s = [] then [[]] else [] :: lineContents s
    else (lineContents s).modifyHead (c :: ·)

def componentsSeparatedByNewline (s : NSString) : List NSString :=
  if s.getLast? = some (uc '\n') ∨ s.getLast? = some (uc '\r') then lineContents s ++ [[]]
  else lineContents s

-- Entity references

section
variable (stringForEntityReference : NSString → Option NSString)

/-- The search loop of `replaceEntityReference`; `done` is the text before the
range that is searched. After a replacement that keeps the length the range
stays where it was, just behind the ampersand. -/
def replaceEntityReferenceFrom (done rest : NSString) : NSString :=
  match hamp : rest.dropWhile (· != uc '&') with
  | [] => done ++ rest
  | amp :: after =>
    let before := done ++ rest.takeWhile (· != uc '&')
    have hafter : after.length < rest.length := by
      have := (List.dropWhile_suffix (l := rest) (· != uc '&')).length_le
      rw [hamp, List.length_cons] at this
      omega
    match hsemi : after.dropWhile (· != uc ';') with
    | [] => replaceEntityReferenceFrom (before ++ [amp]) after
    | _ :: tail =>
      let entity := after.takeWhile (· != uc ';')
      have hentity : entity.length + tail.length + 1 = after.length := by
        have :=
          congrArg List.length (List.takeWhile_append_dropWhile (p := (· != uc ';')) (l := after))
        rw [hsemi, List.length_append, List.length_cons] at this
        exact this
      match stringForEntityReference entity with
      | none => replaceEntityReferenceFrom (before ++ [amp]) after
      | some new =>
        if new.length = entity.length + 2 then
          replaceEntityReferenceFrom (before ++ new.take 1) (new.drop 1 ++ tail)
        else replaceEntityReferenceFrom (before ++ new) tail
termination_by rest.length
decreasing_by all_goals first | omega | (rw [List.length_append, List.length_drop]; omega)

def stringByReplaceEntityReference (s : NSString) : NSString :=
  if s.containsString (ns "&") then replaceEntityReferenceFrom stringForEntityReference [] s else s

end

-- Blank strings

theorem stringByStriped_eq_nil_iff : stringByStriped s = [] ↔ IsBlank s := by
  rw [stringByStriped, List.rdropWhile_eq_nil_iff, IsBlank]
  constructor
  · intro h
    have hnil : s.dropWhile isWhitespace = [] := by
      cases hd : s.dropWhile isWhitespace with
      | nil => rfl
      | cons c rest =>
        have hc : isWhitespace c = true := h c (by rw [hd]; exact List.mem_cons_self)
        have hn := List.head?_dropWhile_not isWhitespace s
        rw [hd] at hn
        simp only [List.head?_cons] at hn
        rw [hc] at hn
        exact absurd hn (by simp)
    exact List.dropWhile_eq_nil_iff.mp hnil
  · intro h c hc
    exact h c ((List.dropWhile_suffix _).subset hc)

theorem IsBlank.of_contains (h : IsBlank s) (ht : t <:+: s) : IsBlank t :=
  fun c hc => h c (ht.subset hc)

theorem isBlank_componentsJoinedByString (hglue : IsBlank glue) :
    IsBlank (componentsJoinedByString components glue) ↔ ∀ f ∈ components, IsBlank f :=
  Split.forall_mem_intercalate hglue

/-- Replacing one text that is not blank by another does not make a string
blank, and leaves a blank one alone. -/
theorem isBlank_stringByReplaceCharacters (hchars : ¬ IsBlank chars)
    (hreplacement : ¬ IsBlank replacement) :
    IsBlank (stringByReplaceCharacters s chars replacement) ↔ IsBlank s := by
  unfold stringByReplaceCharacters containsString
  split
  · rename_i hcontains
    have hcontains : chars <:+: s := of_decide_eq_true hcontains
    have hne : chars ≠ [] := by
      rintro rfl
      exact hchars (by simp [IsBlank])
    have hsub : replacement ⊆ replacement.intercalate (Split.pieces chars s) :=
      Split.glue_subset_intercalate (Split.two_le_length_pieces hne hcontains)
    constructor
    · intro h
      exact absurd (fun c hc => h c (hsub hc)) hreplacement
    · intro h
      exact absurd (h.of_contains hcontains) hchars
  · rfl

-- Lines of joined texts

theorem lineContents_cons (c : UniChar) (s : NSString) :
    lineContents (c :: s) =
      if c = uc '\r' ∧ s.head? = some (uc '\n') then lineContents s
      else if isLineTerminator c then
        if s = [] then [[]] else [] :: lineContents s
      else (lineContents s).modifyHead (c :: ·) := by
  rw [lineContents]

theorem lineContents_ne_nil : lineContents s ≠ [] := by
  induction s with
  | nil => exact List.cons_ne_nil _ _
  | cons c s ih =>
    rw [lineContents]
    split
    · exact ih
    · split
      · split <;> exact List.cons_ne_nil _ _
      · cases h : lineContents s with
        | nil => exact absurd h ih
        | cons line lines => simp

theorem isLineTerminator_lineContents {line : NSString} (hline : line ∈ lineContents s) :
    ∀ c ∈ line, isLineTerminator c = false := by
  induction s generalizing line with
  | nil => simp [List.mem_singleton.mp hline]
  | cons c s ih =>
    rw [lineContents] at hline
    split at hline
    · exact ih hline
    · split at hline
      · split at hline
        · simp [List.mem_singleton.mp hline]
        · obtain rfl | hline := List.mem_cons.mp hline
          · simp
          · exact ih hline
      · next hterm =>
        cases hs : lineContents s with
        | nil => exact absurd hs lineContents_ne_nil
        | cons first lines =>
          rw [hs, List.modifyHead_cons] at hline
          obtain rfl | hline := List.mem_cons.mp hline
          · have hfirst := ih (hs ▸ List.mem_cons_self)
            simpa [hterm] using hfirst
          · exact ih (hs ▸ List.mem_cons_of_mem first hline)

theorem isLineTerminator_of_mem_components {line : NSString}
    (hline : line ∈ componentsSeparatedByNewline s) : ∀ c ∈ line, isLineTerminator c = false := by
  rw [componentsSeparatedByNewline] at hline
  split at hline
  · obtain hline | hline := List.mem_append.mp hline
    · exact isLineTerminator_lineContents hline
    · simp [List.mem_singleton.mp hline]
  · exact isLineTerminator_lineContents hline

theorem length_lineContents_le (hs : s ≠ []) : (lineContents s).length ≤ s.length := by
  induction s with
  | nil => exact absurd rfl hs
  | cons c s ih =>
    cases s with
    | nil =>
      rw [lineContents_cons]
      split
      · exact Nat.le_refl 1
      · split <;> exact Nat.le_refl 1
    | cons d s =>
      have ih := ih (List.cons_ne_nil d s)
      rw [lineContents_cons, List.length_cons]
      split
      · omega
      · split
        · simpa using ih
        · rw [List.length_modifyHead]
          omega

theorem length_componentsSeparatedByNewline_le :
    (componentsSeparatedByNewline s).length ≤ s.length + 1 := by
  cases s with
  | nil => simp [componentsSeparatedByNewline, lineContents]
  | cons c s =>
    have hlength := length_lineContents_le (List.cons_ne_nil c s)
    rw [componentsSeparatedByNewline]
    split
    · simpa using hlength
    · omega

theorem lineContents_append (hs : s.getLast? = some (uc '\n')) (ht : t ≠ []) :
    lineContents (s ++ t) = lineContents s ++ lineContents t := by
  induction s with
  | nil => cases hs
  | cons c s ih =>
    cases s with
    | nil =>
      obtain rfl : c = uc '\n' := by simpa using hs
      obtain ⟨d, t, rfl⟩ := List.exists_cons_of_ne_nil ht
      have hcr : ¬ (uc '\n' = uc '\r') := by decide
      have hterm : isLineTerminator (uc '\n') = true := by decide
      rw [List.cons_append, List.nil_append, lineContents_cons _ (d :: t), lineContents_cons _ []]
      simp [hcr, hterm]
    | cons d s =>
      have ih := ih (by simpa using hs)
      by_cases hcrlf : c = uc '\r' ∧ d = uc '\n'
      · rw [List.cons_append, lineContents_cons c (d :: s), lineContents_cons c (d :: s ++ t)]
        simpa only [List.cons_append, List.head?_cons, Option.some.injEq, hcrlf, and_self, if_true]
          using ih
      · by_cases hterm : isLineTerminator c = true
        · rw [List.cons_append, lineContents_cons c (d :: s), lineContents_cons c (d :: s ++ t)]
          simp only [List.cons_append, List.head?_cons, Option.some.injEq, hcrlf, hterm, if_false,
            if_true, reduceCtorEq] at ih ⊢
          rw [ih]
        · rw [List.cons_append, lineContents_cons c (d :: s), lineContents_cons c (d :: s ++ t)]
          simp only [List.cons_append, List.head?_cons, Option.some.injEq, hcrlf, hterm, if_false,
            Bool.false_eq_true] at ih ⊢
          rw [ih]
          cases h : lineContents (d :: s) with
          | nil => exact absurd h lineContents_ne_nil
          | cons line lines => rfl

theorem lineContents_line_append (h : ∀ c ∈ line, isLineTerminator c = false) (s : NSString) :
    lineContents (line ++ s) = (lineContents s).modifyHead (line ++ ·) := by
  induction line with
  | nil => exact (congrFun List.modifyHead_id (lineContents s)).symm
  | cons c line ih =>
    obtain ⟨hc, hline⟩ := List.forall_mem_cons.mp h
    have hreturn : ¬ (c = uc '\r' ∧ (line ++ s).head? = some (uc '\n')) := by
      rintro ⟨rfl, -⟩
      exact absurd hc (by decide)
    rw [List.cons_append, lineContents_cons, if_neg hreturn, if_neg (by simp [hc]), ih hline,
      List.modifyHead_modifyHead]
    rfl

theorem lineContents_line (h : ∀ c ∈ line, isLineTerminator c = false) :
    lineContents (line ++ [uc '\n']) = [line] := by
  rw [lineContents_line_append h, lineContents_cons, if_neg (by decide), if_pos (by decide),
    if_pos rfl, List.modifyHead_cons, List.append_nil]

theorem head?_lineContents (s : NSString) :
    (lineContents s).head? = some (s.takeWhile fun c => !isLineTerminator c) := by
  induction s with
  | nil => rfl
  | cons c s ih =>
    rw [lineContents_cons]
    split
    · next h =>
      obtain ⟨s, rfl⟩ := List.head?_eq_some_iff.mp h.2
      rw [ih, h.1]
      rfl
    · split
      · next hc =>
        rw [List.takeWhile_cons_of_neg (by simp [hc])]
        split <;> rfl
      · next hc =>
        rw [List.head?_modifyHead, ih, List.takeWhile_cons_of_pos (by simp [hc])]
        rfl

end NSString

end BathyScaphe
