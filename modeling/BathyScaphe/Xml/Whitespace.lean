import BathyScaphe.Xml.Buffer

/-!
# The flag for white space

`push` sets the flag to what the pushed character is, so behind a text the flag tells about
its last character, and behind an empty text it is what it was. `doNext` calls a text outside
of the root ignorable by the flag, and `next` goes on past what is ignorable.
-/

namespace BathyScaphe.Xml

open NSString Comp

-- The flag and the text

/-- The flag is that of the last character, or `b` without a character. -/
def TracksLast (b : Bool) (p : SGXmlPullParser) : Prop :=
  p.isWhitespace = p.textBuf.getLast?.elim b NSString.isWhitespace

theorem pushed_tracksLast (b : Bool) : Pushed (TracksLast b) where
  toBuffered := buffered_of fun _ _ _ _ _ _ _ _ h => h
  pushes p c _ := by
    rw [TracksLast, List.getLast?_concat]
    rfl
  resolves p n c _ := by
    rw [TracksLast, List.getLast?_concat]
    rfl

/-- Before a text, the flag and what kind of call it is are known. -/
def Flagged (b token : Bool) (p : SGXmlPullParser) : Prop := p.isWhitespace = b ∧ p.token = token

theorem buffered_flagged (b token : Bool) : Buffered (Flagged b token) :=
  buffered_of fun _ _ _ _ _ _ _ _ h => h

section
variable {env : Environment} {features : Features} {fuel : Nat} {readName : Parser NSString}
  {b token : Bool}

theorem ensures_clearText : Ensures (Flagged b token) clearText fun _ => TracksLast b :=
  ensures_modify fun _ h => h.1

/-- What an event leaves behind: behind a declaration and an ignorable text the flag is
set, and behind what can stand in a text the flag is that of the text. -/
structure Leaves (b : Bool) (type : EventType) (p : SGXmlPullParser) : Prop where
  declaration : type = .XML_DECL → p.isWhitespace = true
  ignorable : type = .IGNORABLE_WHITESPACE → p.isWhitespace = true
  tracks : type ≠ .XML_DECL → EventType.TEXT.code ≤ type.code → TracksLast b p

theorem TracksLast.leaves {p : SGXmlPullParser} (h : TracksLast b p) {type : EventType}
    (hdecl : type ≠ .XML_DECL)
    (hignorable : type ≠ .IGNORABLE_WHITESPACE) : Leaves b type p :=
  ⟨fun heq => absurd heq hdecl, fun heq => absurd heq hignorable, fun _ _ => h⟩

theorem leaves_of_tag {type : EventType} (h : type.code < EventType.TEXT.code)
    (p : SGXmlPullParser) :
    Leaves b type p := by
  refine ⟨?_, ?_, fun _ hle => absurd h (Nat.not_lt.mpr hle)⟩
  · rintro rfl
    exact absurd h (by decide)
  · rintro rfl
    exact absurd h (by decide)

theorem leaves_parseLegacyInstruction (willPush : Bool) :
    Ensures (TracksLast b) (parseLegacyInstruction env features fuel readName willPush)
      (Leaves b) := by
  have hI := pushed_tracksLast b
  refine ensures_bind hI.peekZero.ensures fun x => ?_
  refine ensures_bind (hI.peekSecond _).ensures fun m => ensures_ite (fun _ => ?_) fun _ => ?_
  · refine ensures_bind hI.reads.ensures fun c => ?_
    refine ensures_bind (maintains_when _ (hI.push c)).ensures fun _ => ?_
    refine ensures_bind hI.reads.ensures fun c => ?_
    refine ensures_bind (maintains_when _ (hI.push c)).ensures fun _ => ?_
    refine ensures_bind hI.peekZero.ensures fun l => ?_
    refine ensures_bind (hI.peekSecond _).ensures fun space => ensures_ite (fun _ => ?_) fun _ => ?_
    · refine ensures_bind ensures_true fun _ => ?_
      refine ensures_bind (ensures_modify (Q := fun _ p => p.isWhitespace = true) fun _ _ =>
        rfl) fun _ => ?_
      exact ensures_pure fun p h => ⟨fun _ => h, fun _ => h, fun hne => absurd rfl hne⟩
    · exact ensures_pure fun p h => h.leaves (by decide) (by decide)
  · exact ensures_bind (hI.parseProccessingInstruction _).ensures fun _ =>
      ensures_pure fun p h => h.leaves (by decide) (by decide)

theorem leaves_parseLegacy (willPush : Bool) :
    Ensures (Flagged b token) (parseLegacy env features fuel readName willPush) (Leaves b) := by
  have hI := pushed_tracksLast b
  have hflagged := buffered_flagged b token
  refine ensures_bind (hflagged.readEnsureAll _).ensures fun _ =>
    ensures_bind hflagged.reads.ensures fun c => ?_
  refine ensures_bind ensures_clearText fun _ => ensures_ite (fun _ => ?_) fun _ =>
    ensures_ite (fun _ => leaves_parseLegacyInstruction _) fun _ => ensures_raiseParser _
  refine ensures_bind hI.peekZero.ensures fun nc =>
    ensures_ite (fun _ => ?_) fun _ => ensures_ite (fun _ => ?_) fun _ => ?_
  · exact ensures_bind (hI.parseComment _).ensures fun _ => ensures_pure fun p h =>
      h.leaves (by decide) (by decide)
  · exact ensures_bind hI.parseCDATA.ensures fun _ => ensures_pure fun p h =>
      h.leaves (by decide) (by decide)
  · exact ensures_bind (hI.parseDocType _).ensures fun _ => ensures_pure fun p h =>
      h.leaves (by decide) (by decide)

/-- A reference is an event of its own only in calls of `nextToken`, where the text is
cleared. -/
theorem leaves_parseEvent (type : EventType) (htype : type = .ENTITY_REF → token = true) :
    Ensures (Flagged b token) (parseEvent env features fuel readName type) (Leaves b) := by
  have hI := pushed_tracksLast b
  have hflagged := buffered_flagged b token
  refine ensures_bind ensures_get fun p => ?_
  cases type with
  | START_TAG => exact ensures_bind ensures_true fun _ => ensures_pure fun p _ =>
      leaves_of_tag (by decide) p
  | END_TAG => exact ensures_bind ensures_true fun _ => ensures_pure fun p _ =>
      leaves_of_tag (by decide) p
  | END_DOCUMENT => exact ensures_pure fun p _ => leaves_of_tag (by decide) p
  | ENTITY_REF =>
    refine ensures_of (K := p.token = true) (fun s h => ?_) fun htoken => ?_
    · obtain ⟨rfl, hflag⟩ := h
      exact hflag.2.trans (htype rfl)
    · have hclear : Ensures (Flagged b token) (when p.token clearText) fun _ => TracksLast b := by
        rw [htoken]
        exact ensures_clearText
      refine ensures_bind ((hI.parseEntity _ hclear).weaken fun s h => h.1 ▸ h.2) fun isValid => ?_
      cases isValid with
      | true => exact ensures_pure fun p h => h.leaves (by decide) (by decide)
      | false => exact ensures_pure fun p h => h.leaves (by decide) (by decide)
  | TEXT =>
    refine ensures_bind ((hI.parseText _ _ hflagged.peekZero ensures_clearText).weaken fun s h =>
      h.1 ▸ h.2) fun _ => ?_
    refine ensures_bind ensures_get fun p => ?_
    split
    · rename_i hignorable
      refine ensures_pure fun p' h => ?_
      obtain ⟨rfl, htracks⟩ := h
      have hflag : p.isWhitespace = true :=
        (Bool.and_eq_true_iff.mp (Bool.and_eq_true_iff.mp hignorable).2).2
      exact ⟨fun _ => hflag, fun _ => hflag, fun _ _ => htracks⟩
    · refine ensures_pure fun p' h => ?_
      obtain ⟨rfl, htracks⟩ := h
      exact htracks.leaves (by decide) (by decide)
  | _ => exact (leaves_parseLegacy _).weaken fun s h => h.1 ▸ h.2

/-- A round of `doNext`: it goes on behind a declaration, and else has read a piece. -/
theorem leaves_doParse {type : EventType} {s p : SGXmlPullParser} {r : EventType ⊕ EventType}
    (h : doParse env features fuel readName type s = .ok r p) :
    RoundEnds (fun _ p => p.isWhitespace = true)
      (fun type p => type ≠ .XML_DECL ∧ Leaves s.isWhitespace type p) r p := by
  have hround : Ensures (Flagged s.isWhitespace s.token) (doParse env features fuel readName type)
      (RoundEnds (fun _ p => p.isWhitespace = true)
        (fun type p => type ≠ .XML_DECL ∧ Leaves s.isWhitespace type p)) := by
    refine ensures_bind ensures_get fun p => ensures_ite (fun _ => ?_) fun _ => ?_
    · refine ensures_bind ensures_true fun _ => ensures_pure fun p _ => ?_
      exact ⟨by decide, leaves_of_tag (by decide) p⟩
    · refine ensures_of (K := p.token = s.token) (fun s' h => ?_) fun htoken => ?_
      · obtain ⟨rfl, hflag⟩ := h
        exact hflag.2
      · have htype : (if type = .ENTITY_REF && !p.token then EventType.TEXT
          else type) = .ENTITY_REF →
            s.token = true := by
          intro heq
          split at heq
          · cases heq
          · rename_i hnot
            rw [← htoken, ← Bool.not_eq_false]
            intro hfalse
            exact hnot (by rw [heq, hfalse]; rfl)
        have htype' : Ensures (fun s' => p = s' ∧ Flagged s.isWhitespace s.token p)
            (setType (if type = .ENTITY_REF && !p.token then EventType.TEXT else type))
            fun _ => Flagged s.isWhitespace s.token := by
          refine ensures_modify fun s' h => ?_
          obtain ⟨rfl, h⟩ := h
          exact ⟨h.1, h.2⟩
        refine ensures_bind htype' fun _ => ?_
        refine ensures_bind (leaves_parseEvent _ htype) fun type' => ?_
        refine ensures_bind (ensures_modify (Q := fun _ => Leaves s.isWhitespace type')
          fun s' h => ⟨h.declaration, h.ignorable, h.tracks⟩) fun _ => ?_
        refine ensures_pure fun p h => ?_
        split
        · rename_i hdecl
          exact h.declaration hdecl
        · rename_i hdecl
          exact ⟨hdecl, h⟩
  exact hround s r p ⟨rfl, rfl⟩ h

end

-- The pieces of a document

section
variable (env : Environment) (features : Features) (fuel : Nat)

def Starts : Call → SGXmlPullParser → SGXmlPullParser → Prop
  | .next, p, q => ∃ minimum, Rounds (nextRound env features fuel (readName env features fuel)) none
      { p with isWhitespace := true, token := false } minimum q
  | .nextToken, p, q => q = { p with isWhitespace := true, token := true }

/-- What `doNext` does before the rounds of `StartDoParse`. -/
def beginNext : Parser EventType := do
  modify fun p => { p with depth := if p.type = .END_TAG then p.depth - 1 else p.depth }
  let type ← peekType
  setType type
  pure type

end

/-- A call over the document reads a piece: `s` is the state at `StartDoParse` and `p` the
one behind the piece. -/
inductive ReadsPiece (env : Environment) (features : Features) (source : NSString) :
    Call → SGXmlPullParser → EventType → SGXmlPullParser → Prop
  | piece {fuel : Nat} {call : Call} {p₀ p₁ p₂ s p : SGXmlPullParser}
      {first again type : EventType} :
      Reachable env features source p₀ → Starts env features fuel call p₀ p₁ →
        beginNext p₁ = .ok first p₂ →
      Rounds (doParse env features fuel (readName env features fuel)) first p₂ again s →
      doParse env features fuel (readName env features fuel) again s = .ok (.inr type) p →
      ReadsPiece env features source call s type p

/-- The pieces of text, and in calls of `next` those that are taken together with text. -/
def IsTextPiece : Call → EventType → Prop
  | .next, type => EventType.TEXT.code ≤ type.code
  | .nextToken, type => type = .TEXT ∨ type = .CDSECT ∨ type = .IGNORABLE_WHITESPACE

def AllWhitespace (text : NSString) : Prop := ∀ c ∈ text, NSString.isWhitespace c = true

/-- The flag tells whether the text is white space, and no other text is ignorable. -/
structure Shows (type : EventType) (p : SGXmlPullParser) : Prop where
  flag : p.isWhitespace = true ↔ AllWhitespace p.textBuf
  skipped : type = .IGNORABLE_WHITESPACE → AllWhitespace p.textBuf

/-- The last character of a text is white space only where all are. Without a text, in a
call of `next`, the flag has to be set before. -/
def Tells (call : Call) (s : SGXmlPullParser) (text : NSString) : Prop :=
  (∀ c ∈ text.getLast?, NSString.isWhitespace c = true → AllWhitespace text) ∧
    (call = .next → text = [] → s.isWhitespace = true)

section
variable {env : Environment} {features : Features} {source : NSString} {call : Call}
  {type : EventType} {s p : SGXmlPullParser}

theorem TracksLast.iff {b : Bool} (h : TracksLast b p) :
    (p.isWhitespace = true ↔ AllWhitespace p.textBuf) ↔
      (∀ c ∈ p.textBuf.getLast?, NSString.isWhitespace c = true → AllWhitespace p.textBuf) ∧
        (p.textBuf = [] → b = true) := by
  rw [h]
  cases hlast : p.textBuf.getLast? with
  | none =>
    have hnil := List.getLast?_eq_none_iff.mp hlast
    have hall : AllWhitespace p.textBuf := by
      rw [hnil, AllWhitespace]
      exact fun c hc => absurd hc List.not_mem_nil
    rw [Option.elim_none]
    exact ⟨fun h => ⟨fun _ _ _ => hall, fun _ => h.mpr hall⟩, fun h => iff_of_true (h.2 hnil) hall⟩
  | some c =>
    have hmem := List.mem_of_getLast? hlast
    rw [Option.elim_some]
    constructor
    · intro h
      refine ⟨?_, fun hnil => absurd (hnil ▸ hmem) List.not_mem_nil⟩
      rintro _ ⟨⟩ hc
      exact h.mp hc
    · intro h
      exact ⟨fun hc => h.1 c rfl hc, fun hall => hall c hmem⟩

theorem isWhitespace_of_rounds {fuel : Nat} {readName : Parser NSString} {first again : EventType}
    {p₂ : SGXmlPullParser}
    (h : Rounds (doParse env features fuel readName) first p₂ again s)
    (hp : p₂.isWhitespace = true) :
    s.isWhitespace = true := by
  induction h with
  | here _ _ => exact hp
  | more hround _ ih => exact ih (leaves_doParse hround)

theorem ReadsPiece.isWhitespace (h : ReadsPiece env features source .nextToken s type p) :
    s.isWhitespace = true := by
  obtain ⟨-, rfl, hbegin, hrounds, -⟩ := h
  have hflag : Buffered fun p => p.isWhitespace = true := buffered_of fun _ _ _ _ _ _ _ _ h => h
  have hmaintains : Maintains (fun p => p.isWhitespace = true) beginNext :=
    maintains_bind (maintains_modify fun _ h => h) fun _ => maintains_bind hflag.peekType fun _ =>
      maintains_bind (maintains_modify fun _ h => h) fun _ => maintains_pure _
  exact isWhitespace_of_rounds hrounds (hmaintains _ _ _ rfl hbegin)

theorem IsTextPiece.le_code (h : IsTextPiece call type) : EventType.TEXT.code ≤ type.code := by
  cases call with
  | next => exact h
  | nextToken => obtain rfl | rfl | rfl := h <;> decide

/-- A piece of text shows its white space if and only if its last character tells. -/
theorem ReadsPiece.shows_iff (h : ReadsPiece env features source call s type p)
    (htext : IsTextPiece call type) :
    Shows type p ↔ Tells call s p.textBuf := by
  have hempty : (p.textBuf = [] → s.isWhitespace = true) ↔
      (call = .next → p.textBuf = [] → s.isWhitespace = true) := by
    cases call with
    | next => exact ⟨fun h _ => h, fun h => h rfl⟩
    | nextToken => exact iff_of_true (fun _ => h.isWhitespace) fun heq => absurd heq (by simp)
  obtain ⟨-, -, -, -, hround⟩ := h
  obtain ⟨hdecl, hleaves⟩ := leaves_doParse hround
  rw [Tells, ← hempty, ← (hleaves.tracks hdecl htext.le_code).iff]
  exact ⟨Shows.flag, fun hflag => ⟨hflag, fun heq => hflag.mp (hleaves.ignorable heq)⟩⟩

-- The events of the calls

theorem exists_piece_of_doNext {fuel : Nat} {p₀ p₁ : SGXmlPullParser}
    (hreach : Reachable env features source p₀)
    (hstarts : Starts env features fuel call p₀ p₁)
    (h : doNext env features fuel (readName env features fuel) p₁ = .ok type p) :
    ∃ s, ReadsPiece env features source call s type p := by
  obtain ⟨_, q₁, hmodify, h⟩ := exists_of_bind h
  obtain ⟨first, q₂, hpeek, h⟩ := exists_of_bind h
  obtain ⟨_, q₃, hset, h⟩ := exists_of_bind h
  obtain ⟨again, s, hrounds, hlast⟩ := exists_rounds_of_loop h
  have hbegin : beginNext p₁ = .ok first q₃ := by
    rw [beginNext, bind_of_ok hmodify, bind_of_ok hpeek, bind_of_ok hset]
    rfl
  exact ⟨s, .piece hreach hstarts hbegin hrounds hlast⟩

theorem exists_piece_of_nextToken {fuel : Nat} {p₀ : SGXmlPullParser}
    (hreach : Reachable env features source p₀)
    (h : nextToken env features fuel (readName env features fuel) p₀ = .ok type p) :
    ∃ s, ReadsPiece env features source .nextToken s type p := by
  obtain ⟨_, p₁, hmodify, h⟩ := exists_of_bind h
  cases hmodify
  exact exists_piece_of_doNext hreach rfl h

/-- ` a` is not white space, and is not shown to be. -/
theorem shows_leading_space : ∃ s p, ReadsPiece asciiEnvironment {}
    (ns " a<b/>") .nextToken s .TEXT p ∧
    p.textBuf = ns " a" ∧ Shows .TEXT p := by
  obtain ⟨s, h⟩ := exists_piece_of_nextToken .start
    (show nextToken asciiEnvironment {} 9 (readName asciiEnvironment {} 9)
      (setInputSource (ns " a<b/>")) =
      .ok .TEXT _ from rfl)
  refine ⟨s, _, h, rfl, (h.shows_iff (.inl rfl)).mpr ⟨?_, nofun⟩⟩
  rintro c hc hspace
  cases hc
  exact absurd hspace (by decide)

/-- `a ` outside of the root is skipped. -/
theorem not_shows_trailing_space : ¬ ∀ source call s type p,
    ReadsPiece asciiEnvironment {} source call s type p → IsTextPiece call type → Shows type p := by
  intro hall
  have hstarts : Starts asciiEnvironment {} 9 .next (setInputSource (ns "a <b/>"))
      { setInputSource (ns "a <b/>") with isWhitespace := true, token := false } :=
    Exists.intro none (.here _ _)
  obtain ⟨s, h⟩ := exists_piece_of_doNext .start hstarts
    (show doNext asciiEnvironment {} 9 (readName asciiEnvironment {} 9) _ =
      .ok .IGNORABLE_WHITESPACE _ from rfl)
  have htext : IsTextPiece .next .IGNORABLE_WHITESPACE := show EventType.TEXT.code ≤ _ by decide
  have hshows := (hall _ _ _ _ _ h htext).skipped rfl (uc 'a') List.mem_cons_self
  exact absurd hshows (by decide)

end

end BathyScaphe.Xml
