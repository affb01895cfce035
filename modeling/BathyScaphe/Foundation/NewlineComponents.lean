import BathyScaphe.Foundation.BufferedReader
import BathyScaphe.Foundation.StringComponents
import BathyScaphe.Lib.Cutting

/-!
# The lines of a text

Foundation ends a line at a return, at a line feed, at both together, and at the separators
of Unicode. The loop takes one line after the other; a line feed or return at the very end
adds an empty line.
-/

namespace BathyScaphe.Foundation.NSString

def isNewline (u : UniChar) : Bool := u == uc '\n' || u == uc '\r'

section
variable (further : UniChar → Bool)

def isLineSeparator (u : UniChar) : Bool := isNewline u || further u

def terminatorLength : NSString → Nat
  | [] => 0
  | u :: s =>
    if u = uc '\r' ∧ s.head? = some (uc '\n') then 2
    else if isLineSeparator further u then 1
    else 0

structure LineBounds where
  startIndex : Nat
  lineEndIndex : Nat
  contentsEndIndex : Nat
  deriving DecidableEq

def lineFrom (s : NSString) (start : Nat) : LineBounds :=
  let contentsEnd := start + ((s.drop start).takeWhile (!isLineSeparator further ·)).length
  ⟨start, contentsEnd + terminatorLength further (s.drop contentsEnd), contentsEnd⟩

/-- The line that has the location, looked for from the start of a line on. -/
def lineAt (s : NSString) (location start : Nat) : LineBounds :=
  let line := lineFrom further s start
  if _hfound : location < line.lineEndIndex ∨ line.lineEndIndex = line.contentsEndIndex then line
  else lineAt s location line.lineEndIndex
termination_by location - start
decreasing_by
  have hle : start ≤ (lineFrom further s start).contentsEndIndex ∧
      (lineFrom further s start).contentsEndIndex ≤ (lineFrom further s start).lineEndIndex := by
    simp [lineFrom]
  simp only [line] at *
  omega

def getLineStart (s : NSString) (location : Nat) : LineBounds := lineAt further s location 0

end

section
variable {further : UniChar → Bool} {s contents terminator rest : NSString} {start : Nat}

/-- The units that end a line in front of a rest. -/
inductive IsTerminator (further : UniChar → Bool) : NSString → NSString → Prop
  | pair {rest : NSString} : IsTerminator further [uc '\r', uc '\n'] rest
  | single {u : UniChar} {rest : NSString} (hseparator : isLineSeparator further u = true)
      (halone : ¬(u = uc '\r' ∧ rest.head? = some (uc '\n'))) : IsTerminator further [u] rest

theorem isLineSeparator_return : isLineSeparator further (uc '\r') = true := rfl

theorem isLineSeparator_lineFeed : isLineSeparator further (uc '\n') = true := rfl

theorem IsTerminator.head (h : IsTerminator further terminator rest) :
    ∀ u ∈ (terminator ++ rest).head?, isLineSeparator further u = true := by
  cases h with
  | pair => simp [isLineSeparator_return]
  | single hseparator => simpa using hseparator

theorem IsTerminator.length (h : IsTerminator further terminator rest) :
    terminatorLength further (terminator ++ rest) = terminator.length := by
  cases h with
  | pair => rfl
  | single hseparator halone => simp [terminatorLength, halone, hseparator]

theorem exists_line (h : ¬∀ u ∈ s, isLineSeparator further u = false) :
    ∃ contents terminator rest, s = contents ++ (terminator ++ rest) ∧
      (∀ u ∈ contents, isLineSeparator further u = false) ∧
      IsTerminator further terminator rest := by
  induction s with
  | nil => simp at h
  | cons u s ih =>
    by_cases hu : isLineSeparator further u = true
    · by_cases hpair : u = uc '\r' ∧ s.head? = some (uc '\n')
      · obtain ⟨rfl, hhead⟩ := hpair
        obtain ⟨rest, rfl⟩ := List.head?_eq_some_iff.mp hhead
        exact ⟨[], [uc '\r', uc '\n'], rest, rfl, by simp, .pair⟩
      · exact ⟨[], [u], s, rfl, by simp, .single hu hpair⟩
    · have hrest : ¬∀ v ∈ s, isLineSeparator further v = false :=
        fun hall => h (by simpa [hu] using hall)
      obtain ⟨contents, terminator, rest, rfl, hcontents, hterminator⟩ := ih hrest
      exact ⟨u :: contents, terminator, rest, rfl, by simpa [hu] using hcontents, hterminator⟩

theorem lineFrom_terminated (hs : s.drop start = contents ++ (terminator ++ rest))
    (hcontents : ∀ u ∈ contents, isLineSeparator further u = false)
    (h : IsTerminator further terminator rest) :
    lineFrom further s start =
      ⟨start, start + contents.length + terminator.length, start + contents.length⟩ := by
  have htake : (s.drop start).takeWhile (!isLineSeparator further ·) = contents := by
    rw [hs]
    exact Cutting.takeWhile_eq (by simpa using hcontents) (by simpa using h.head)
  have hdrop : s.drop (start + contents.length) = terminator ++ rest := by
    rw [← List.drop_drop, hs, List.drop_left' rfl]
  rw [lineFrom, htake, hdrop, h.length]

theorem lineFrom_last (hstart : start ≤ s.length)
    (h : ∀ u ∈ s.drop start, isLineSeparator further u = false) :
    lineFrom further s start = ⟨start, s.length, s.length⟩ := by
  have htake : (s.drop start).takeWhile (!isLineSeparator further ·) = s.drop start := by
    rw [List.takeWhile_eq_self_iff]
    simpa using h
  rw [lineFrom, htake, List.length_drop, Nat.add_sub_cancel' hstart, List.drop_length]
  rfl

theorem IsTerminator.length_pos (h : IsTerminator further terminator rest) :
    0 < terminator.length := by
  cases h with
  | pair => exact Nat.two_pos
  | single => exact Nat.one_pos

theorem lineFrom_le (s : NSString) (start : Nat) :
    start ≤ (lineFrom further s start).contentsEndIndex ∧
    (lineFrom further s start).contentsEndIndex ≤ (lineFrom further s start).lineEndIndex := by
  simp [lineFrom]

theorem length_le_of_unterminated
    (h : (lineFrom further s start).lineEndIndex = (lineFrom further s start).contentsEndIndex) :
    s.length ≤ (lineFrom further s start).lineEndIndex := by
  rcases Nat.le_total start s.length with hle | hge
  · by_cases hall : ∀ u ∈ s.drop start, isLineSeparator further u = false
    · rw [lineFrom_last hle hall]
    · obtain ⟨contents, terminator, rest, hs, hcontents, hterminator⟩ := exists_line hall
      have hpos := hterminator.length_pos
      simp only [lineFrom_terminated hs hcontents hterminator] at h
      omega
  · have hline := @lineFrom_le further s start
    omega

-- The starts of lines

inductive IsLineStart (further : UniChar → Bool) (s : NSString) : Nat → Prop
  | first : IsLineStart further s 0
  | next {start : Nat} (hstart : IsLineStart further s start)
      (hterminated : (lineFrom further s start).contentsEndIndex <
        (lineFrom further s start).lineEndIndex) :
      IsLineStart further s (lineFrom further s start).lineEndIndex

variable {location : Nat}

theorem getLineStart_eq_lineAt (h : IsLineStart further s start) (hle : start ≤ location) :
    getLineStart further s location = lineAt further s location start := by
  induction h with
  | first => rfl
  | @next start _ hterminated ih =>
    have hline := @lineFrom_le further s start
    rw [ih (by omega), lineAt, dif_neg (by omega)]

theorem getLineStart_of_isLineStart (h : IsLineStart further s start) :
    getLineStart further s start = lineFrom further s start := by
  have hline := @lineFrom_le further s start
  rw [getLineStart_eq_lineAt h (Nat.le_refl start), lineAt, dif_pos (by omega)]

theorem lineAt_lineEndIndex (s : NSString) (location start : Nat) :
    location < (lineAt further s location start).lineEndIndex ∨
      s.length ≤ (lineAt further s location start).lineEndIndex := by
  induction start using lineAt.induct further s location with
  | case1 start line hfound =>
    rw [lineAt, dif_pos hfound]
    exact hfound.imp_right length_le_of_unterminated
  | case2 start line hnot ih =>
    rw [lineAt, dif_neg hnot]
    exact ih

end

section
variable (further : UniChar → Bool)

-- The components

def linesFrom (s : NSString) (location : Nat) : List NSString :=
  let line := getLineStart further s location
  s.substringWithRange ⟨line.startIndex, line.contentsEndIndex - line.startIndex⟩ ::
    if line.lineEndIndex < s.length then linesFrom s line.lineEndIndex else []
termination_by s.length - location
decreasing_by
  have hend := @lineAt_lineEndIndex further s location 0
  simp only [getLineStart, line] at *
  omega

def componentsSeparatedByNewline (s : NSString) : List NSString :=
  linesFrom further s 0 ++ if s.getLast?.any isNewline then [[]] else []

def replaceSeparators : NSString → NSString
  | [] => []
  | u :: s =>
    if u = uc '\r' ∧ s.head? = some (uc '\n') then replaceSeparators s
    else (if isLineSeparator further u then uc '\n' else u) :: replaceSeparators s

def normalizeNewlines : NSString → NSString := replaceSeparators fun _ => false

end

-- Joining the lines

section
variable {further : UniChar → Bool} {s contents terminator rest : NSString} {start : Nat}

theorem replaceSeparators_append (h : ∀ u ∈ contents, isLineSeparator further u = false) :
    replaceSeparators further (contents ++ rest) = contents ++ replaceSeparators further rest := by
  induction contents with
  | nil => rfl
  | cons u contents ih =>
    simp only [List.mem_cons, forall_eq_or_imp] at h
    have hreturn : u ≠ uc '\r' := by
      rintro rfl
      simp [isLineSeparator_return] at h
    rw [List.cons_append, replaceSeparators, if_neg fun hpair => hreturn hpair.1, h.1, ih h.2]
    rfl

theorem replaceSeparators_terminator (h : IsTerminator further terminator rest) :
    replaceSeparators further (terminator ++ rest) = uc '\n' :: replaceSeparators further rest := by
  cases h with
  | pair => rfl
  | single hseparator halone =>
    rw [List.singleton_append, replaceSeparators, if_neg halone, if_pos hseparator]

theorem IsTerminator.getLast (h : IsTerminator further terminator []) (contents : NSString) :
    (contents ++ terminator).getLast?.any (isLineSeparator further) = true := by
  cases h with
  | pair => simp [isLineSeparator_lineFeed]
  | single hseparator => simpa using hseparator

theorem not_mem_of_outside (h : ∀ u ∈ contents, isLineSeparator further u = false) :
    uc '\n' ∉ contents := by
  intro hmem
  have hfalse := h _ hmem
  rw [isLineSeparator_lineFeed] at hfalse
  contradiction

/-- From the start of a line on, with an empty line behind a last separator of any kind. -/
theorem linesFrom_append (hstart : IsLineStart further s start) (hle : start ≤ s.length)
    (hlt : start = 0 ∨ start < s.length) :
    linesFrom further s start ++ (if s.getLast?.any (isLineSeparator further) then [[]] else []) =
      (replaceSeparators further (s.drop start)).splitOn (uc '\n') := by
  induction hn : s.length - start using Nat.strong_induction_on generalizing start with
  | _ n ih => ?_
  subst hn
  have hlast : s.getLast? = (s.drop start).getLast? := by
    rcases hlt with rfl | hlt
    · rfl
    · rw [List.getLast?_drop, if_neg (Nat.not_le.mpr hlt)]
  rw [linesFrom, getLineStart_of_isLineStart hstart]
  by_cases hall : ∀ u ∈ s.drop start, isLineSeparator further u = false
  · have hany : s.getLast?.any (isLineSeparator further) = false := by
      rw [hlast, Option.any_eq_false]
      exact fun u hu => by simp [hall u (List.mem_of_getLast? hu)]
    have hreplace := @replaceSeparators_append further _ [] hall
    rw [List.append_nil, replaceSeparators, List.append_nil] at hreplace
    have htake : (s.drop start).take (s.length - start) = s.drop start := by
      rw [← List.length_drop, List.take_length]
    rw [lineFrom_last hle hall, hany, hreplace, List.splitOn_eq_singleton (not_mem_of_outside hall)]
    simp [NSString.substringWithRange, htake]
  · obtain ⟨contents, terminator, rest, hs, hcontents, hterminator⟩ := exists_line hall
    have hline := lineFrom_terminated hs hcontents hterminator
    have hpos := hterminator.length_pos
    have hlength := congrArg List.length hs
    rw [List.length_drop, List.length_append, List.length_append] at hlength
    have hcomponent : s.substringWithRange ⟨start, contents.length⟩ = contents := by
      rw [NSString.substringWithRange, hs, List.take_left' rfl]
    rw [hs, replaceSeparators_append hcontents, replaceSeparators_terminator hterminator,
      List.splitOn_append_cons_self_of_not_mem (not_mem_of_outside hcontents),
      hline, List.cons_append]
    dsimp only
    rw [Nat.add_sub_cancel_left, hcomponent, List.cons.injEq, and_iff_right rfl]
    split
    · next hmore =>
      have hterminated : (lineFrom further s start).contentsEndIndex <
        (lineFrom further s start).lineEndIndex := by
        rw [hline]
        dsimp only
        omega
      have hnext := hstart.next hterminated
      rw [hline] at hnext
      dsimp only at hnext
      rw [ih _ (by omega) hnext hmore.le (.inr hmore) rfl, Nat.add_assoc, ← List.drop_drop,
        hs, ← List.append_assoc, ← List.length_append, List.drop_left' rfl]
    · next hdone =>
      obtain rfl : rest = [] := List.eq_nil_of_length_eq_zero (by omega)
      rw [hlast, hs, List.append_nil, if_pos (hterminator.getLast contents)]
      rfl

-- The conventions for a newline

theorem isNewline_eq (u : UniChar) : isLineSeparator (fun _ => false) u = isNewline u :=
  Bool.or_false _

theorem getLast?_replaceSeparators (s : NSString) : (replaceSeparators further s).getLast? =
    s.getLast?.map fun u => if isLineSeparator further u then uc '\n' else u := by
  induction s with
  | nil => rfl
  | cons u s ih =>
    rw [replaceSeparators]
    split
    · next hpair =>
      obtain ⟨v, s, rfl⟩ : ∃ v s', s = v :: s' := by
        cases s with
        | nil => simp at hpair
        | cons v s => exact ⟨v, s, rfl⟩
      rw [ih, List.getLast?_cons_cons]
    · rw [List.getLast?_cons, ih, List.getLast?_cons]
      cases s.getLast? <;> rfl

/-- The last unit is a separator of a kind in all conventions or in none. -/
theorem getLast?_normalizeNewlines {p : UniChar → Bool} (hp : ∀ u, isNewline u = true → p u = true)
    (s : NSString) :
    (normalizeNewlines s).getLast?.any p = s.getLast?.any p := by
  rw [normalizeNewlines, getLast?_replaceSeparators]
  cases s.getLast? with
  | none => rfl
  | some u =>
    rw [Option.map_some, isNewline_eq, Option.any_some, Option.any_some]
    split
    · next hu => rw [hp u hu, hp (uc '\n') rfl]
    · rfl

theorem replaceSeparators_normalizeNewlines (s : NSString) :
    replaceSeparators further (normalizeNewlines s) = replaceSeparators further s := by
  induction s with
  | nil => rfl
  | cons u s ih =>
    rw [normalizeNewlines, replaceSeparators, ← normalizeNewlines]
    by_cases hpair : u = uc '\r' ∧ s.head? = some (uc '\n')
    · rw [if_pos hpair, replaceSeparators, if_pos hpair, ih]
    · rw [if_neg hpair, isNewline_eq]
      conv_rhs => rw [replaceSeparators, if_neg hpair]
      by_cases hu : isNewline u = true
      · have hseparator : isLineSeparator further u = true := by simp [isLineSeparator, hu]
        rw [if_pos hu, if_pos hseparator, replaceSeparators, if_neg fun h =>
          absurd h.1 (by decide), ih]
        rfl
      · have hreturn : u ≠ uc '\r' := by
          rintro rfl
          exact hu rfl
        rw [if_neg hu, replaceSeparators, if_neg fun h => hreturn h.1, ih]

theorem componentsSeparatedByNewline_normalizeNewlines (s : NSString) :
    componentsSeparatedByNewline further (normalizeNewlines s) =
      componentsSeparatedByNewline further s := by
  have hs := @linesFrom_append further s 0 .first (Nat.zero_le s.length) (.inl rfl)
  have hnormal := @linesFrom_append further (normalizeNewlines s) 0 .first
    (Nat.zero_le _) (.inl rfl)
  rw [List.drop_zero, replaceSeparators_normalizeNewlines,
    getLast?_normalizeNewlines fun u hu => by simp [isLineSeparator, hu]] at hnormal
  rw [List.drop_zero] at hs
  rw [componentsSeparatedByNewline, componentsSeparatedByNewline, getLast?_normalizeNewlines
    fun u hu => hu,
    List.append_cancel_right (hnormal.trans hs.symm)]

-- The lines

theorem exists_lineFrom (s : NSString) (location start : Nat) :
    ∃ start', lineAt further s location start = lineFrom further s start' := by
  induction start using lineAt.induct further s location with
  | case1 start line hfound =>
    rw [lineAt, dif_pos hfound]
    exact ⟨start, rfl⟩
  | case2 start line hnot ih =>
    rw [lineAt, dif_neg hnot]
    exact ih

theorem substring_lineFrom (s : NSString) (start : Nat) :
    s.substringWithRange ⟨(lineFrom further s start).startIndex,
      (lineFrom further s start).contentsEndIndex - (lineFrom further s start).startIndex⟩ =
        (s.drop start).takeWhile (!isLineSeparator further ·) := by
  simp only [lineFrom, NSString.substringWithRange, Nat.add_sub_cancel_left]
  exact (List.prefix_iff_eq_take.mp (List.takeWhile_prefix _)).symm

theorem linesFrom_outside (s : NSString) (location : Nat) :
    ∀ line ∈ linesFrom further s location, ∀ u ∈ line, isLineSeparator further u = false := by
  induction location using linesFrom.induct further s with
  | case1 location line ih =>
    obtain ⟨start, hstart⟩ := @exists_lineFrom further s location 0
    have hcomponent : ∀ u ∈ s.substringWithRange ⟨line.startIndex,
      line.contentsEndIndex - line.startIndex⟩,
        isLineSeparator further u = false := by
      simp only [line, getLineStart, hstart, substring_lineFrom]
      exact fun u hu => by simpa using List.mem_takeWhile_imp hu
    rw [linesFrom, List.forall_mem_cons]
    refine ⟨hcomponent, ?_⟩
    split
    · next hmore => exact ih hmore
    · simp

theorem componentsSeparatedByNewline_outside (s : NSString) :
    ∀ line ∈ componentsSeparatedByNewline further s, ∀ u ∈ line,
      isLineSeparator further u = false := by
  rw [componentsSeparatedByNewline, List.forall_mem_append]
  refine ⟨linesFrom_outside s 0, ?_⟩
  split <;> simp

theorem getLast?_componentsSeparatedByNewline (h : s.getLast?.any isNewline = true) :
    (componentsSeparatedByNewline further s).getLast? = some [] := by
  rw [componentsSeparatedByNewline, if_pos h, List.getLast?_concat]

/-- Unless a separator of Unicode is at the very end, the lines are those between the
terminators. -/
theorem componentsSeparatedByNewline_eq (h : ∀ u ∈ s.getLast?, further u = true →
    isNewline u = true) :
    componentsSeparatedByNewline further s = (replaceSeparators further s).splitOn (uc '\n') := by
  have hlines := @linesFrom_append further s 0 .first (Nat.zero_le s.length) (.inl rfl)
  have hlast : s.getLast?.any (isLineSeparator further) = s.getLast?.any isNewline := by
    cases hs : s.getLast? with
    | none => rfl
    | some u =>
      have hu := h u hs
      cases hfurther : further u <;> simp_all [isLineSeparator]
  rw [componentsSeparatedByNewline, ← hlast, hlines, List.drop_zero]

theorem componentsSeparatedByNewline_ne_nil (s : NSString) :
    componentsSeparatedByNewline further s ≠ [] := by
  rw [componentsSeparatedByNewline, linesFrom]
  simp

def unicodeSeparators (u : UniChar) : Bool := u == 0x2028 || u == 0x2029

theorem isLineSeparator_unicodeSeparators (u : UniChar) :
    isLineSeparator unicodeSeparators u = NSString.isLineTerminator u := by
  rw [isLineSeparator, isNewline, unicodeSeparators, NSString.isLineTerminator, ← Bool.or_assoc]

theorem lineContents_append_eq (s : NSString) :
    NSString.lineContents s ++ (if s.getLast?.any NSString.isLineTerminator then [[]] else []) =
      (replaceSeparators unicodeSeparators s).splitOn (uc '\n') := by
  induction s with
  | nil => rfl
  | cons c s ih =>
    have hlast : s ≠ [] → (c :: s).getLast? = s.getLast? := by
      intro hs
      obtain ⟨d, s, rfl⟩ := List.exists_cons_of_ne_nil hs
      exact List.getLast?_cons_cons
    rw [NSString.lineContents_cons, replaceSeparators, isLineSeparator_unicodeSeparators]
    by_cases hpair : c = uc '\r' ∧ s.head? = some (uc '\n')
    · have hs : s ≠ [] := fun hnil => by simp [hnil] at hpair
      rw [if_pos hpair, if_pos hpair, hlast hs, ih]
    · rw [if_neg hpair, if_neg hpair]
      by_cases hc : NSString.isLineTerminator c = true
      · rw [if_pos hc, if_pos hc, List.splitOn_cons_eq_if_modifyHead,
          if_pos (beq_self_eq_true _), ← ih]
        by_cases hs : s = []
        · subst hs
          simp [hc, NSString.lineContents]
        · rw [if_neg hs, hlast hs]
          rfl
      · have hne : ¬ (c == uc '\n') = true := by
          rw [beq_iff_eq]
          rintro rfl
          exact hc (by decide)
        have hends : (c :: s).getLast?.any NSString.isLineTerminator =
            s.getLast?.any NSString.isLineTerminator := by
          by_cases hs : s = []
          · simpa [hs] using hc
          · rw [hlast hs]
        rw [if_neg hc, if_neg hc, List.splitOn_cons_eq_if_modifyHead, if_neg hne, ← ih, hends]
        cases hlines : NSString.lineContents s with
        | nil => exact absurd hlines NSString.lineContents_ne_nil
        | cons line lines => rfl

theorem componentsSeparatedByNewline_unicodeSeparators (s : NSString) :
    componentsSeparatedByNewline unicodeSeparators s =
      BathyScaphe.NSString.componentsSeparatedByNewline s := by
  have hlines := @linesFrom_append unicodeSeparators s 0 .first (Nat.zero_le s.length) (.inl rfl)
  have hsame : isLineSeparator unicodeSeparators = NSString.isLineTerminator :=
    funext isLineSeparator_unicodeSeparators
  rw [List.drop_zero, hsame, ← lineContents_append_eq] at hlines
  rw [componentsSeparatedByNewline, BathyScaphe.NSString.componentsSeparatedByNewline,
    List.append_cancel_right hlines]
  cases s.getLast? with
  | none => simp
  | some u =>
    by_cases hn : u = uc '\n' <;> by_cases hr : u = uc '\r' <;> simp [isNewline, hn, hr]

theorem paragraph_separator_splits :
    componentsSeparatedByNewline unicodeSeparators [uc 'a', 0x2029, uc 'b'] = [[uc 'a'], [uc 'b']] ∧
      [uc '\n'].intercalate (componentsSeparatedByNewline unicodeSeparators
        [uc 'a', 0x2029, uc 'b']) ≠
        normalizeNewlines [uc 'a', 0x2029, uc 'b'] := by
  have hlines : componentsSeparatedByNewline unicodeSeparators [uc 'a', 0x2029, uc 'b'] =
    [[uc 'a'], [uc 'b']] := by
    rw [componentsSeparatedByNewline_eq (by simp [unicodeSeparators, uc])]
    decide
  rw [hlines]
  decide

/-- The lines have no separator, and their join with line feeds is the text with each
terminator replaced, unless a separator of Unicode is at the very end. -/
theorem componentsSeparatedByNewline_lines (further : UniChar → Bool) (s : NSString) :
    componentsSeparatedByNewline further s ≠ [] ∧
    (∀ line ∈ componentsSeparatedByNewline further s, ∀ u ∈ line,
      isLineSeparator further u = false) ∧
    ((∀ u ∈ s.getLast?, further u = true → isNewline u = true) →
      [uc '\n'].intercalate (componentsSeparatedByNewline further s) =
        replaceSeparators further s) ∧
    (∀ s', normalizeNewlines s' = normalizeNewlines s →
      componentsSeparatedByNewline further s' = componentsSeparatedByNewline further s) ∧
    (s.getLast?.any isNewline = true → (componentsSeparatedByNewline further s).getLast? =
      some []) := by
  refine ⟨componentsSeparatedByNewline_ne_nil s, componentsSeparatedByNewline_outside s, ?_, ?_, ?_⟩
  · intro hlast
    rw [componentsSeparatedByNewline_eq hlast, List.intercalate_splitOn]
  · intro s' hs'
    rw [← componentsSeparatedByNewline_normalizeNewlines, hs',
      componentsSeparatedByNewline_normalizeNewlines]
  · exact getLast?_componentsSeparatedByNewline

end

end BathyScaphe.Foundation.NSString
