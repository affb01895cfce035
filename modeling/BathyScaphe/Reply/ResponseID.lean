import BathyScaphe.Foundation.SkippingScanner

/-!
# The response to a login

The response is read with a scanner, which skips white space wherever it reads on and takes
`SESSION-ID=` in any case. A text in which it finds nothing in front of the colon raises.
-/

namespace BathyScaphe.Reply

open NSString

def APP_SEARCH_PREFIX : NSString := ns "SESSION-ID="
def STR_COLON : NSString := [uc ':']
def APP_2CH_AUTH_ERROR_STR : NSString := ns "ERROR"

/-- What `parseResponseID:userAgent:sessionID:` does: it raises, answers `NO` at once, or answers
with both texts. With them it answers `NO` after setting the login error. -/
inductive Response
  | raised
  | nothing
  | parsed (result : Bool) (userAgent sessionID : NSString)

variable (scanning : Scanning)

def parseMarked (rest : NSString) : Response :=
  let (skipped, rest) := scanning.scanUpToString STR_COLON rest
  match skipped with
  | none => .raised
  | some userAgent =>
    let (_, rest) := scanning.scanString STR_COLON rest
    let (skipped, rest) := scanning.scanUpToCharactersFromSet isWhitespace rest
    .parsed (userAgent != APP_2CH_AUTH_ERROR_STR) userAgent
      (userAgent ++ STR_COLON ++ skipped.getD rest)

def parseResponseID (contents : NSString) : Response :=
  if contents.length = 0 then .nothing
  else
    let (skipped, rest) := scanning.scanUpToString APP_SEARCH_PREFIX contents
    if skipped.isSome || APP_SEARCH_PREFIX.isPrefixOf contents then
      let (_, rest) := scanning.scanString APP_SEARCH_PREFIX rest
      parseMarked scanning rest
    else .nothing

/-- `rest` is a non-empty `a`, a colon and `b`, which ends at white space. -/
def Divides (rest a b : NSString) : Prop :=
  ∃ tail, rest = a ++ uc ':' :: tail ∧ a ≠ [] ∧ uc ':' ∉ a ∧ b = tail.takeWhile fun c =>
    !isWhitespace c

def Answers (contents a b : NSString) : Prop :=
  ∃ u rest, Occurrence.IsFirst APP_SEARCH_PREFIX u rest ∧ contents =
    u ++ (APP_SEARCH_PREFIX ++ rest) ∧
    Divides rest a b

/-- The text is answered with `YES` and the session ID exactly where it has one, and the error is
set. -/
structure Meets (contents : NSString) : Prop where
  returns : parseResponseID scanning contents ≠ .raised
  sessionID : ∀ sid, (∃ userAgent, parseResponseID scanning contents = .parsed true userAgent sid) ↔
    ∃ a b, Answers contents a b ∧ a ≠ APP_2CH_AUTH_ERROR_STR ∧ sid = a ++ uc ':' :: b
  loginError : ∀ b, Answers contents APP_2CH_AUTH_ERROR_STR b →
    ∃ userAgent sid, parseResponseID scanning contents = .parsed false userAgent sid

def userAgentOf (rest : NSString) : NSString := (rest.dropWhile isWhitespace).takeWhile
    (· != uc ':')

def behindColon (rest : NSString) : NSString :=
  let tail := ((rest.dropWhile isWhitespace).dropWhile (· != uc ':')).tail
  let (skipped, left) := scanning.scanUpToCharactersFromSet isWhitespace tail
  skipped.getD left

/-- What is read behind the mark is the text up to the colon as it stands and the text behind it. -/
def WellFormed (rest : NSString) : Prop :=
  (∃ c a tail, rest = c :: a ++ uc ':' :: tail ∧ uc ':' ∉ c :: a ∧ isWhitespace c = false ∧
    (c :: a = APP_2CH_AUTH_ERROR_STR ∨ (∀ d ∈ tail.head?, isWhitespace d = false) ∨
      scanning.failed tail = [])) ∨
  rest.dropWhile isWhitespace = APP_2CH_AUTH_ERROR_STR

/-- Behind a mark in another case the same is read as behind the mark. -/
def Repeats (contents rest : NSString) : Prop :=
  userAgentOf rest ≠ [] ∧
    if userAgentOf rest = APP_2CH_AUTH_ERROR_STR then ∀ a b, Answers contents a b →
      a = APP_2CH_AUTH_ERROR_STR
    else Answers contents (userAgentOf rest) (behindColon scanning rest)

/-- By what stands in front of the first mark in any case: nothing but white space is taken for
no mark, and in a text that is not blank there has to be one. -/
def Parses (contents : NSString) : Prop :=
  let text := contents.dropWhile isWhitespace
  let (before, marked) := upTo (scanning.starts APP_SEARCH_PREFIX) text
  if marked = [] then text = []
  else if before = [] ∧ ¬ APP_SEARCH_PREFIX <+: contents then ∀ a b, ¬ Answers contents a b
  else if APP_SEARCH_PREFIX <+: marked then WellFormed scanning
    (marked.drop APP_SEARCH_PREFIX.length)
  else Repeats scanning contents (marked.drop APP_SEARCH_PREFIX.length)

variable {scanning}

-- Dividing the text

theorem takeWhile_colon {a : NSString} (tail : NSString) (h : uc ':' ∉ a) :
    (a ++ uc ':' :: tail).takeWhile (· != uc ':') = a := by
  rw [List.takeWhile_append_of_pos]
  · simp
  · intro c hc
    exact bne_iff_ne.mpr fun heq => h (heq ▸ hc)

theorem dropWhile_colon {a tail : NSString} (h : uc ':' ∉ a) :
    (a ++ uc ':' :: tail).dropWhile (· != uc ':') = uc ':' :: tail := by
  rw [List.dropWhile_append_of_pos]
  · simp
  · intro c hc
    exact bne_iff_ne.mpr fun heq => h (heq ▸ hc)

theorem colon_not_mem_takeWhile (s : NSString) : uc ':' ∉ s.takeWhile (· != uc ':') := by
  intro h
  have hne := List.mem_takeWhile_imp h
  simp at hne

theorem divides_unique {rest a b a' b' : NSString} (h : Divides rest a b)
    (h' : Divides rest a' b') :
    a = a' ∧ b = b' := by
  obtain ⟨tail, hrest, -, ha, rfl⟩ := h
  obtain ⟨tail', hrest', -, ha', rfl⟩ := h'
  have htake : a = a' := by
    rw [← takeWhile_colon tail ha, ← hrest, hrest', takeWhile_colon tail' ha']
  subst htake
  rw [hrest, List.append_cancel_left_eq, List.cons.injEq] at hrest'
  exact ⟨rfl, by rw [hrest'.2]⟩

theorem answers_unique {contents a b a' b' : NSString} (h : Answers contents a b)
    (h' : Answers contents a' b') :
    a = a' ∧ b = b' := by
  obtain ⟨u, rest, hfirst, hcontents, hdivides⟩ := h
  obtain ⟨u', rest', hfirst', hcontents', hdivides'⟩ := h'
  obtain ⟨-, rfl⟩ := hfirst.unique hfirst' (hcontents.symm.trans hcontents')
  exact divides_unique hdivides hdivides'

theorem answers_iff (hfirst : Occurrence.IsFirst APP_SEARCH_PREFIX u rest) :
    Answers (u ++ (APP_SEARCH_PREFIX ++ rest)) a b ↔ Divides rest a b := by
  constructor
  · rintro ⟨u', rest', hfirst', hcontents, hdivides⟩
    obtain ⟨-, rfl⟩ := hfirst.unique hfirst' hcontents
    exact hdivides
  · intro hdivides
    exact ⟨u, rest, hfirst, rfl, hdivides⟩

-- Reading behind the mark

theorem scanString_colon (s : NSString) :
    (scanning.scanString STR_COLON (s.dropWhile (· != uc ':'))).2 =
      (s.dropWhile (· != uc ':')).tail := by
  cases hrest : s.dropWhile (· != uc ':') with
  | nil => simp [Scanning.scanString, STR_COLON, Scanning.starts]
  | cons c tail =>
    have hc : c = uc ':' := by
      have hhead := List.head?_dropWhile_not (· != uc ':') s
      rw [hrest] at hhead
      simpa using hhead
    subst hc
    have hkeep : (uc ':' :: tail).dropWhile isWhitespace = uc ':' :: tail :=
      List.dropWhile_cons_of_neg (by decide)
    have hstarts : scanning.starts STR_COLON (uc ':' :: tail) = true :=
      Scanning.starts_colon_cons.mpr rfl
    simp only [Scanning.scanString, hkeep, hstarts, if_true]
    rfl

theorem parseMarked_eq (rest : NSString) : parseMarked scanning rest =
    if userAgentOf rest = [] then .raised
    else .parsed (userAgentOf rest != APP_2CH_AUTH_ERROR_STR) (userAgentOf rest)
      (userAgentOf rest ++ uc ':' :: behindColon scanning rest) := by
  have hupTo : upTo (scanning.starts STR_COLON) (rest.dropWhile isWhitespace) =
      (userAgentOf rest, (rest.dropWhile isWhitespace).dropWhile (· != uc ':')) :=
    Scanning.upTo_colon _
  have hscan : scanning.scanUpToString STR_COLON rest =
      if userAgentOf rest = [] then (none, scanning.failed rest)
      else (some (userAgentOf rest), (rest.dropWhile isWhitespace).dropWhile (· != uc ':')) := by
    simp only [Scanning.scanUpToString, hupTo]
  unfold parseMarked
  rw [hscan]
  by_cases hempty : userAgentOf rest = []
  · simp only [hempty, if_true]
  · simp only [hempty, if_false, scanString_colon]
    unfold behindColon STR_COLON
    rw [List.append_assoc]
    rfl

/-- White space behind the colon is skipped, and it is kept where nothing else follows. -/
theorem takeWhile_eq_scanned (tail : NSString) :
    (tail.takeWhile fun c => !isWhitespace c) =
      (scanning.scanUpToCharactersFromSet isWhitespace tail).1.getD
        (scanning.scanUpToCharactersFromSet isWhitespace tail).2 ↔
      (∀ d ∈ tail.head?, isWhitespace d = false) ∨ scanning.failed tail = [] := by
  unfold Scanning.scanUpToCharactersFromSet
  cases tail with
  | nil => simp
  | cons d tail =>
    cases hd : isWhitespace d with
    | false => simp [hd]
    | true =>
      have hskip : (d :: tail).dropWhile isWhitespace = tail.dropWhile isWhitespace :=
        List.dropWhile_cons_of_pos hd
      have hnone : ¬ ∀ e ∈ (d :: tail).head?, isWhitespace e = false := fun h => by
        simp [h d rfl] at hd
      rw [or_iff_right hnone, List.takeWhile_cons_of_neg (by simp [hd])]
      dsimp only
      rw [hskip]
      split
      · exact eq_comm
      · rename_i hne
        dsimp only [Option.getD_some]
        constructor
        · intro h
          exact absurd h.symm hne
        · intro h
          obtain hfailed | hfailed := scanning.failed_or (d :: tail)
          · rw [hfailed] at h
            cases h
          · rw [hfailed, hskip] at h
            rw [h] at hne
            exact absurd rfl hne

-- Meeting what is asked

theorem meets_of_nothing (h : parseResponseID scanning contents = .nothing) :
    Meets scanning contents ↔ ∀ a b, ¬ Answers contents a b := by
  constructor
  · rintro ⟨-, hsession, herror⟩ a b hanswers
    by_cases ha : a = APP_2CH_AUTH_ERROR_STR
    · subst ha
      obtain ⟨_, _, hparsed⟩ := herror b hanswers
      cases h.symm.trans hparsed
    · obtain ⟨_, hparsed⟩ := (hsession _).mpr ⟨a, b, hanswers, ha, rfl⟩
      cases h.symm.trans hparsed
  · intro hnone
    refine ⟨by simp [h], fun sid => ?_, fun b hanswers => absurd hanswers (hnone _ b)⟩
    constructor
    · rintro ⟨_, hparsed⟩
      cases h.symm.trans hparsed
    · rintro ⟨a, b, hanswers, -⟩
      exact absurd hanswers (hnone a b)

theorem not_meets_of_raised (h : parseResponseID scanning contents = .raised) :
    ¬ Meets scanning contents :=
  fun hmeets => hmeets.returns h

theorem meets_of_parsed {userAgent b : NSString} (ha : uc ':' ∉ userAgent)
    (h : parseResponseID scanning contents =
      .parsed (userAgent != APP_2CH_AUTH_ERROR_STR) userAgent (userAgent ++ uc ':' :: b)) :
    Meets scanning contents ↔
      if userAgent = APP_2CH_AUTH_ERROR_STR then ∀ a' b', Answers contents a' b' →
        a' = APP_2CH_AUTH_ERROR_STR
      else Answers contents userAgent b := by
  split
  · rename_i herror
    subst herror
    rw [bne_self_eq_false] at h
    constructor
    · rintro ⟨-, hsession, -⟩ a' b' hanswers
      by_contra ha'
      obtain ⟨_, hparsed⟩ := (hsession _).mpr ⟨a', b', hanswers, ha', rfl⟩
      cases h.symm.trans hparsed
    · intro hall
      refine ⟨by simp [h], fun sid => ?_, fun b _ => ⟨_, _, h⟩⟩
      constructor
      · rintro ⟨_, hparsed⟩
        cases h.symm.trans hparsed
      · rintro ⟨a', b', hanswers, hne, -⟩
        exact absurd (hall a' b' hanswers) hne
  · rename_i herror
    rw [bne_iff_ne.mpr herror] at h
    constructor
    · rintro ⟨-, hsession, -⟩
      obtain ⟨a', b', hanswers, -, hsid⟩ := (hsession _).mp ⟨_, h⟩
      have ha' : uc ':' ∉ a' := by
        obtain ⟨_, _, -, -, _, -, -, hcolon, -⟩ := hanswers
        exact hcolon
      have htake : userAgent = a' := by
        rw [← takeWhile_colon b ha, hsid, takeWhile_colon b' ha']
      subst htake
      rw [List.append_cancel_left_eq, List.cons.injEq] at hsid
      exact hsid.2 ▸ hanswers
    · intro hanswers
      refine ⟨by simp [h], fun sid => ?_, fun b' herr => ?_⟩
      · constructor
        · rintro ⟨_, hparsed⟩
          cases h.symm.trans hparsed
          exact ⟨_, _, hanswers, herror, rfl⟩
        · rintro ⟨a', b', hanswers', -, rfl⟩
          obtain ⟨rfl, rfl⟩ := answers_unique hanswers hanswers'
          exact ⟨_, h⟩
      · exact absurd (answers_unique hanswers herr).1 herror

-- Behind a mark that stands as it is

theorem dropWhile_white_append (x tail : NSString) :
    (x ++ uc ':' :: tail).dropWhile isWhitespace = x.dropWhile isWhitespace ++ uc ':' :: tail := by
  induction x with
  | nil => exact List.dropWhile_cons_of_neg (by decide)
  | cons c x ih =>
    cases hc : isWhitespace c with
    | true => rw [List.cons_append, List.dropWhile_cons_of_pos hc,
        List.dropWhile_cons_of_pos hc, ih]
    | false => rw [List.cons_append, List.dropWhile_cons_of_neg (by simp [hc]),
        List.dropWhile_cons_of_neg (by simp [hc]),
        List.cons_append]

theorem userAgentOf_append {x : NSString} (hx : uc ':' ∉ x) (tail : NSString) :
    userAgentOf (x ++ uc ':' :: tail) = x.dropWhile isWhitespace := by
  rw [userAgentOf, dropWhile_white_append]
  exact takeWhile_colon tail fun h => hx ((List.dropWhile_sublist _).subset h)

theorem behindColon_append {x : NSString} (hx : uc ':' ∉ x) (tail : NSString) :
    behindColon scanning (x ++ uc ':' :: tail) =
      (scanning.scanUpToCharactersFromSet isWhitespace tail).1.getD
        (scanning.scanUpToCharactersFromSet isWhitespace tail).2 := by
  unfold behindColon
  rw [dropWhile_white_append, dropWhile_colon fun h => hx ((List.dropWhile_sublist _).subset h)]
  rfl

theorem userAgentOf_of_not_mem {rest : NSString} (h : uc ':' ∉ rest) :
    userAgentOf rest = rest.dropWhile isWhitespace := by
  apply List.takeWhile_eq_self_iff.mpr
  intro c hc
  exact bne_iff_ne.mpr fun heq => h (heq ▸ (List.dropWhile_sublist _).subset hc)

/-- The mark's own text is read as it is divided, or it is the error without a colon. -/
theorem wellFormed_iff (rest : NSString) : WellFormed scanning rest ↔ userAgentOf rest ≠ [] ∧
    if userAgentOf rest = APP_2CH_AUTH_ERROR_STR then ∀ a b, Divides rest a b →
      a = APP_2CH_AUTH_ERROR_STR
    else Divides rest (userAgentOf rest) (behindColon scanning rest) := by
  constructor
  · rintro (⟨c, a, tail, rfl, hcolon, hdark, htail⟩ | herror)
    · have hagent : userAgentOf (c :: a ++ uc ':' :: tail) = c :: a := by
        rw [userAgentOf_append hcolon, List.dropWhile_cons_of_neg (by simp [hdark])]
      rw [hagent]
      refine ⟨List.cons_ne_nil _ _, ?_⟩
      split
      · rename_i herror
        intro a' b' hdivides
        rw [← herror]
        exact (divides_unique hdivides ⟨tail, rfl, List.cons_ne_nil _ _, hcolon, rfl⟩).1
      · rename_i herror
        refine ⟨tail, rfl, List.cons_ne_nil _ _, hcolon, ?_⟩
        rw [behindColon_append hcolon]
        exact ((takeWhile_eq_scanned tail).mpr (htail.resolve_left herror)).symm
    · have hcolon : uc ':' ∉ rest := by
        intro hmem
        obtain ⟨x, tail, rfl, -⟩ := List.eq_append_cons_of_mem hmem
        rw [dropWhile_white_append] at herror
        have hinside : uc ':' ∈ APP_2CH_AUTH_ERROR_STR := herror ▸ by simp
        revert hinside
        decide
      rw [userAgentOf_of_not_mem hcolon, herror, if_pos rfl]
      refine ⟨by decide, ?_⟩
      rintro a b ⟨tail, rfl, -⟩
      exact absurd (by simp) hcolon
  · rintro ⟨hne, hreads⟩
    by_cases hcolon : uc ':' ∈ rest
    · left
      obtain ⟨x, tail, rfl, hx⟩ := List.eq_append_cons_of_mem hcolon
      rw [userAgentOf_append hx] at hne hreads
      -- what is read is the whole text in front of the colon
      have hwhole : x.dropWhile isWhitespace = x := by
        split at hreads
        · rename_i herror
          have hxne : x ≠ [] := by
            rintro rfl
            exact hne rfl
          rw [herror, hreads x _ ⟨tail, rfl, hxne, hx, rfl⟩]
        · obtain ⟨tail', hrest, -, hcolon', -⟩ := hreads
          rw [← takeWhile_colon tail' hcolon', ← hrest, takeWhile_colon tail hx]
      rw [hwhole] at hne hreads
      cases x with
      | nil => exact absurd rfl hne
      | cons c a =>
        have hdark : isWhitespace c = false := by
          by_contra hwhite
          rw [List.dropWhile_cons_of_pos (by simpa using hwhite)] at hwhole
          have hlength := (List.dropWhile_sublist isWhitespace (l := a)).length_le
          rw [hwhole, List.length_cons] at hlength
          omega
        refine ⟨c, a, tail, rfl, hx, hdark, ?_⟩
        by_cases herror : c :: a = APP_2CH_AUTH_ERROR_STR
        · exact Or.inl herror
        · right
          rw [if_neg herror] at hreads
          obtain ⟨tail', hrest, -, -, hb⟩ := hreads
          rw [List.append_cancel_left_eq, List.cons.injEq] at hrest
          rw [behindColon_append hx, ← hrest.2] at hb
          exact (takeWhile_eq_scanned tail).mp hb.symm
    · right
      rw [userAgentOf_of_not_mem hcolon] at hreads
      split at hreads
      · assumption
      · obtain ⟨tail, hrest, -⟩ := hreads
        have hmem : uc ':' ∈ rest := by
          rw [hrest]
          simp
        exact absurd hmem hcolon

-- Finding the mark

variable {contents before marked : NSString}

theorem mark_eq : APP_SEARCH_PREFIX = uc 'S' :: ns "ESSION-ID=" := by decide

theorem dropWhile_of_mark (h : APP_SEARCH_PREFIX <+: contents) :
    contents.dropWhile isWhitespace = contents := by
  obtain ⟨rest, rfl⟩ := h
  rw [mark_eq, List.cons_append, List.dropWhile_cons_of_neg (by decide)]

theorem parse_of_blank (h : contents.dropWhile isWhitespace = []) :
    parseResponseID scanning contents = .nothing := by
  unfold parseResponseID Scanning.scanUpToString
  split
  · rfl
  · rename_i hne
    have hnot : APP_SEARCH_PREFIX.isPrefixOf contents = false := by
      rw [Bool.eq_false_iff, Ne, List.isPrefixOf_iff_prefix]
      intro hmark
      rw [← dropWhile_of_mark hmark, h] at hne
      exact hne rfl
    simp [h, hnot, upTo]

variable (hupTo : upTo (scanning.starts APP_SEARCH_PREFIX) (contents.dropWhile isWhitespace) =
  (before, marked))

include hupTo

theorem append_of_upTo : before ++ marked = contents.dropWhile isWhitespace := by
  have happend := upTo_append (scanning.starts APP_SEARCH_PREFIX) (contents.dropWhile isWhitespace)
  rwa [hupTo] at happend

theorem length_ne_zero_of_upTo (h : before ++ marked ≠ []) : contents.length ≠ 0 := by
  intro hzero
  rw [append_of_upTo hupTo, List.length_eq_zero_iff.mp hzero] at h
  exact h rfl

theorem parse_of_unmarked (hmarked : marked = []) (h : contents.dropWhile isWhitespace ≠ []) :
    parseResponseID scanning contents = .raised := by
  rw [← append_of_upTo hupTo] at h
  have hlength := length_ne_zero_of_upTo hupTo h
  rw [hmarked, List.append_nil] at h
  have hend : (scanning.scanString APP_SEARCH_PREFIX []).2 = [] := by
    simp [Scanning.scanString, Scanning.starts, mark_eq]
  unfold parseResponseID Scanning.scanUpToString
  simp only [hlength, if_false, hupTo, h, hmarked, Option.isSome_some, Bool.true_or, if_true, hend]
  rw [parseMarked_eq]
  exact if_pos rfl

/-- White space in front of a mark leaves nothing to be read in front of it. -/
theorem parse_of_front (hbefore : before = []) (hnot : ¬ APP_SEARCH_PREFIX <+: contents) :
    parseResponseID scanning contents = .nothing := by
  unfold parseResponseID Scanning.scanUpToString
  rw [← List.isPrefixOf_iff_prefix, Bool.not_eq_true] at hnot
  split
  · rfl
  · simp [hupTo, hbefore, hnot]

theorem parse_of_marked (hmarked : marked ≠ [])
    (h : ¬ (before = [] ∧ ¬ APP_SEARCH_PREFIX <+: contents)) :
    parseResponseID scanning contents = parseMarked scanning
      (marked.drop APP_SEARCH_PREFIX.length) := by
  have hstarts : scanning.starts APP_SEARCH_PREFIX marked = true := by
    have hstop := stop_upTo (scanning.starts APP_SEARCH_PREFIX) (contents.dropWhile isWhitespace)
    rw [hupTo] at hstop
    exact hstop hmarked
  have hscan : (scanning.scanString APP_SEARCH_PREFIX marked).2 =
    marked.drop APP_SEARCH_PREFIX.length := by
    have hkeep : marked.dropWhile isWhitespace = marked :=
      Scanning.dropWhile_of_starts (mark_eq ▸ hstarts) (by decide)
    simp only [Scanning.scanString, hkeep, hstarts, if_true]
  have hlength := length_ne_zero_of_upTo hupTo (by simp [hmarked])
  unfold parseResponseID Scanning.scanUpToString
  by_cases hbefore : before = []
  · have hmark : APP_SEARCH_PREFIX <+: contents := by
      by_contra hnot
      exact h ⟨hbefore, hnot⟩
    have hcontents : marked = contents := by
      have happend := append_of_upTo hupTo
      rwa [hbefore, dropWhile_of_mark hmark] at happend
    have hkeep : scanning.failed contents = marked := by
      rw [Scanning.failed_eq (dropWhile_of_mark hmark), hcontents]
    simp only [hlength, if_false, hupTo, hbefore, if_true, Option.isSome_none, Bool.false_or,
      List.isPrefixOf_iff_prefix.mpr hmark, hkeep, hscan]
  · simp only [hlength, if_false, hupTo, hbefore, Option.isSome_some, Bool.true_or, if_true, hscan]

theorem isFirst_of_upTo (hmark : marked = APP_SEARCH_PREFIX ++ rest) :
    ∃ u, Occurrence.IsFirst APP_SEARCH_PREFIX u rest ∧ contents =
      u ++ (APP_SEARCH_PREFIX ++ rest) := by
  have happend := append_of_upTo hupTo
  obtain ⟨white, hwhite⟩ : ∃ white, white = contents.takeWhile isWhitespace := ⟨_, rfl⟩
  have hsplit : contents = white ++ (before ++ marked) := by
    rw [happend, hwhite, List.takeWhile_append_dropWhile]
  refine ⟨white ++ before, fun i hi hhere => ?_, by rw [List.append_assoc, ← hmark]; exact hsplit⟩
  rw [List.append_assoc, ← hmark] at hhere
  by_cases hin : i < white.length
  · -- white space is not the mark's first letter
    have hhead : white[i]? = some (uc 'S') := by
      obtain ⟨tail, htail⟩ := hhere
      rw [← List.getElem?_append_left hin, ← List.head?_drop, ← htail, mark_eq]
      rfl
    have hS := List.mem_takeWhile_imp (hwhite ▸ List.mem_of_getElem? hhead)
    revert hS
    decide
  · have hlt : i - white.length < before.length := by
      rw [List.length_append] at hi
      omega
    have hstop := @not_stop_upTo (scanning.starts APP_SEARCH_PREFIX)
      (contents.dropWhile isWhitespace)
      (i - white.length) (by rwa [hupTo])
    rw [List.drop_append, List.drop_of_length_le (Nat.le_of_not_lt hin), List.nil_append,
      happend] at hhere
    rw [Scanning.starts_of_standing hhere] at hstop
    cases hstop

omit hupTo

theorem meets_of_marked (h : parseResponseID scanning contents = parseMarked scanning rest) :
    Meets scanning contents ↔ Repeats scanning contents rest := by
  rw [parseMarked_eq] at h
  unfold Repeats
  by_cases hempty : userAgentOf rest = []
  · rw [if_pos hempty] at h
    exact iff_of_false (not_meets_of_raised h) fun hrepeats => hrepeats.1 hempty
  · rw [if_neg hempty] at h
    rw [meets_of_parsed (colon_not_mem_takeWhile _) h]
    exact (and_iff_right hempty).symm

theorem not_answers_of_blank (h : contents.dropWhile isWhitespace = []) :
    ¬ Answers contents a b := by
  rintro ⟨u, rest, -, rfl, -⟩
  have hS := List.dropWhile_eq_nil_iff.mp h (uc 'S') (by simp [mark_eq])
  revert hS
  decide

/-- The response is parsed as it should be exactly where what is said of its first mark holds. -/
theorem meets_iff (scanning : Scanning) (contents : NSString) : Meets scanning contents ↔
    Parses scanning contents := by
  obtain ⟨before, marked, hupTo⟩ : ∃ before marked,
      upTo (scanning.starts APP_SEARCH_PREFIX) (contents.dropWhile isWhitespace) =
        (before, marked) := ⟨_, _, rfl⟩
  unfold Parses
  simp only [hupTo]
  by_cases hmarked : marked = []
  · rw [if_pos hmarked]
    by_cases hblank : contents.dropWhile isWhitespace = []
    · rw [meets_of_nothing (parse_of_blank hblank)]
      exact iff_of_true (fun a b => not_answers_of_blank hblank) hblank
    · exact iff_of_false (not_meets_of_raised (parse_of_unmarked hupTo hmarked hblank)) hblank
  · rw [if_neg hmarked]
    by_cases hfront : before = [] ∧ ¬ APP_SEARCH_PREFIX <+: contents
    · rw [if_pos hfront]
      exact meets_of_nothing (parse_of_front hupTo hfront.1 hfront.2)
    · rw [if_neg hfront, meets_of_marked (parse_of_marked hupTo hmarked hfront)]
      split
      · rename_i hmark
        obtain ⟨rest, rfl⟩ := hmark
        obtain ⟨u, hfirst, rfl⟩ := isFirst_of_upTo hupTo rfl
        rw [List.drop_left, wellFormed_iff]
        unfold Repeats
        simp only [answers_iff hfirst]
      · rfl

theorem not_letter_of_caseless {d : UniChar} (h : isWhitespace d = true ∨ d = uc ':') :
    ¬ (uc 'A' ≤ d ∧ d ≤ uc 'Z') ∧ ¬ (97 ≤ d.toNat ∧ d.toNat ≤ 122) := by
  have hA : (uc 'A').toNat = 65 := rfl
  have hZ : (uc 'Z').toNat = 90 := rfl
  have hcolon : (uc ':').toNat = 58 := rfl
  simp only [isWhitespace, Bool.or_eq_true, Bool.and_eq_true, decide_eq_true_iff, beq_iff_eq,
    ← UInt16.toNat_inj, UInt16.le_iff_toNat_le, hcolon] at h
  simp only [UInt16.le_iff_toNat_le, hA, hZ]
  simp at h
  omega

/-- Case is folded in ASCII only, and a scan that fails leaves everything unread. -/
def asciiScanning : Scanning where
  fold c := if uc 'A' ≤ c ∧ c ≤ uc 'Z' then c + 32 else c
  failed := id
  fold_letter := by
    intro c hA hZ
    have hsum : (c + 32).toNat = c.toNat + 32 := by
      have hle := UInt16.le_iff_toNat_le.mp hZ
      have hz : (uc 'Z').toNat = 90 := rfl
      rw [UInt16.toNat_add, show (32 : UniChar).toNat = 32 from rfl]
      omega
    rw [if_pos ⟨hA, hZ⟩, if_neg]
    rintro ⟨-, hle⟩
    have hA' := UInt16.le_iff_toNat_le.mp hA
    have hle' := UInt16.le_iff_toNat_le.mp hle
    have hz : (uc 'Z').toNat = 90 := rfl
    have ha : (uc 'A').toNat = 65 := rfl
    omega
  fold_caseless := by
    intro c d hd h
    obtain ⟨hupper, hlower⟩ := not_letter_of_caseless hd
    rw [if_neg hupper] at h
    split at h
    · rename_i hc
      have hA := UInt16.le_iff_toNat_le.mp hc.1
      have hZ := UInt16.le_iff_toNat_le.mp hc.2
      have hz : (uc 'Z').toNat = 90 := rfl
      have ha : (uc 'A').toNat = 65 := rfl
      have hsum := congrArg UInt16.toNat h
      rw [UInt16.toNat_add, show (32 : UniChar).toNat = 32 from rfl] at hsum
      exact absurd (by omega) hlower
    · exact h
  failed_or s := Or.inl rfl

/-- A page that is no answer raises. -/
theorem not_meets_forbidden : ¬ ∀ scanning : Scanning, ∀ contents :
    NSString, Meets scanning contents := by
  intro h
  exact not_meets_of_raised rfl (h asciiScanning (ns "Forbidden"))

end BathyScaphe.Reply
