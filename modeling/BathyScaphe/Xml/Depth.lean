import BathyScaphe.Xml.Buffer

/-!
# The depth

A start tag adds one to the depth when it is read; an end tag takes one away when the
parser goes on from it. Between the calls the depth is therefore the number of elements
that are open and, at an end tag, the one that it closes.

The declaration is read like a start tag. One that is closed like an empty tag counts
as an element that was never delivered; the runs here are those without it.
-/

namespace BathyScaphe.Xml

open NSString Comp

structure Level (depth : Int) (degenerated : Bool) (p : SGXmlPullParser) : Prop where
  depth : p.depth = depth
  degenerated : p.degenerated = degenerated

theorem scanned_level : Scanned (Level d b) where
  toBuffered := buffered_of fun _ _ _ _ _ _ _ _ h => ⟨h.depth, h.degenerated⟩
  texts _ _ _ h := ⟨h.depth, h.degenerated⟩
  tags _ _ _ h := ⟨h.depth, h.degenerated⟩

theorem buffered_name (name : Option NSString) : Buffered fun p => p.name = name :=
  buffered_of fun _ _ _ _ _ _ _ _ h => h

/-- The end of a tag, by whether it counts: a declaration does at the stroke of an
empty tag, and not at its question mark. -/
def TagEnds (xmlDecl : Bool) (d : Int) (counts : Bool) (p : SGXmlPullParser) : Prop :=
  match counts with
  | false => xmlDecl = true ∧ Level d false p
  | true => (xmlDecl = true → p.degenerated = true) ∧ ∃ b, Level d b p

def Reports (d : Int) (type : EventType) (p : SGXmlPullParser) : Prop :=
  match type with
  | .START_TAG => p.depth = d + 1
  | .END_TAG => d ≠ 0 ∧ Level d false p
  | .XML_DECL => p.degenerated = false → p.depth = d
  | _ => Level d false p

theorem Reports.congr {p p' : SGXmlPullParser} (h : Reports d type p) (hdepth : p'.depth = p.depth)
    (hdegenerated : p'.degenerated = p.degenerated) : Reports d type p' := by
  have hlevel : Level d false p → Level d false p' := fun h =>
    ⟨hdepth.trans h.depth, hdegenerated.trans h.degenerated⟩
  cases type with
  | START_TAG => exact hdepth.trans h
  | END_TAG => exact ⟨h.1, hlevel h.2⟩
  | XML_DECL => exact fun hplain => hdepth.trans (h (hdegenerated.symm.trans hplain))
  | _ => exact hlevel h

section
variable {env : Environment} {features : Features} {fuel : Nat}

-- Tags

section
variable {readName : Parser NSString} (hname : ∀ d, Maintains (Level d false) readName)

include hname

theorem parseStartTagRound_level (xmlDecl : Bool) (u : Unit) :
    Ensures (Level d false) (parseStartTagRound env features fuel readName xmlDecl u)
      (RoundEnds (fun _ => Level d false) (TagEnds xmlDecl d)) := by
  refine ensures_bind (scanned_level.skip fuel).ensures fun _ => ?_
  refine ensures_bind scanned_level.peekZero.ensures fun c => ?_
  refine ensures_ite (fun hmark => ?_) fun _ => ensures_ite (fun _ => ?_) fun _ =>
    ensures_ite (fun hclose => ?_) fun _ => ensures_ite (fun _ => ?_) fun _ => ?_
  · refine ensures_bind (scanned_level.readEnsureAll _).ensures fun _ => ensures_pure fun p h => ?_
    have hdecl : xmlDecl = true := by
      cases xmlDecl with
      | true => rfl
      | false => simp at hmark
    exact ⟨hdecl, h⟩
  · refine ensures_bind (Q := fun _ => Level d true)
      (ensures_modify fun p h => ⟨h.depth, rfl⟩) fun _ => ?_
    refine ensures_bind scanned_level.reads.ensures fun _ => ?_
    refine ensures_bind (scanned_level.skip fuel).ensures fun _ => ?_
    refine ensures_bind (scanned_level.readEnsureAll _).ensures fun _ => ensures_pure fun p h => ?_
    exact ⟨fun _ => h.degenerated, true, h⟩
  · refine ensures_bind scanned_level.reads.ensures fun _ => ensures_pure fun p h => ?_
    refine ⟨fun hdecl => ?_, false, h⟩
    rw [hdecl] at hclose
    simp at hclose
  · exact ensures_raiseParser _
  · refine ensures_bind (scanned_level.parseAttribute (hname d)).ensures fun _ => ?_
    exact ensures_pure fun p h => h

theorem parseStartTag_level (xmlDecl : Bool) :
    Ensures (Level d false) (parseStartTag env features fuel readName xmlDecl) fun _ p =>
      (xmlDecl = true ∧ Level d false p) ∨
        ((xmlDecl = true → p.degenerated = true) ∧ ∃ b, Level (d + 1) b p) := by
  refine ensures_bind (maintains_when _ (scanned_level.readEnsureAll _)).ensures fun _ => ?_
  refine ensures_bind (hname d).ensures fun name => ?_
  refine ensures_bind (scanned_level.setName _).ensures fun _ => ?_
  refine ensures_bind (Q := fun _ => Level d false)
    (ensures_modify fun p h => ⟨h.depth, h.degenerated⟩) fun _ => ?_
  refine ensures_bind (ensures_loop_all (fun _ => Level d false)
    (parseStartTagRound_level hname xmlDecl) fuel ()) fun counts => ?_
  cases counts with
  | false => exact ensures_pure fun p h => .inl h
  | true =>
    refine ensures_modify fun p h => .inr ?_
    obtain ⟨hdecl, b, hlevel⟩ := h
    exact ⟨hdecl, b, by rw [hlevel.depth], hlevel.degenerated⟩

theorem parseEndTag_level :
    Ensures (Level d false) (parseEndTag fuel readName) fun _ p => d ≠ 0 ∧ Level d false p := by
  refine ensures_bind (scanned_level.readEnsureAll _).ensures fun _ => ?_
  refine ensures_bind (hname d).ensures fun name => ?_
  refine ensures_bind (scanned_level.setName _).ensures fun _ => ?_
  refine ensures_bind (scanned_level.skip fuel).ensures fun _ => ?_
  refine ensures_bind (scanned_level.readEnsureAll _).ensures fun _ => ?_
  refine ensures_bind ensures_get fun p => ?_
  refine ensures_ite (fun _ => ensures_raiseParser _) fun hdepth => ensures_pure fun p' h => ?_
  obtain ⟨rfl, hlevel⟩ := h
  exact ⟨hlevel.depth ▸ hdepth, hlevel⟩

-- Declarations

theorem parseLegacyInstruction_level (willPush : Bool) :
    Ensures (Level d false) (parseLegacyInstruction env features fuel readName willPush)
      (Reports d) := by
  refine ensures_bind scanned_level.peekZero.ensures fun x => ?_
  refine ensures_bind (scanned_level.peekSecond _).ensures fun m =>
    ensures_ite (fun _ => ?_) fun _ => ?_
  · refine ensures_bind scanned_level.reads.ensures fun c => ?_
    refine ensures_bind (maintains_when _ (scanned_level.pushed.push c)).ensures fun _ => ?_
    refine ensures_bind scanned_level.reads.ensures fun c => ?_
    refine ensures_bind (maintains_when _ (scanned_level.pushed.push c)).ensures fun _ => ?_
    refine ensures_bind scanned_level.peekZero.ensures fun l => ?_
    refine ensures_bind (scanned_level.peekSecond _).ensures fun space => ?_
    refine ensures_ite (fun _ => ?_) fun _ => ensures_pure fun p h => h
    refine ensures_bind (parseStartTag_level hname true) fun _ => ?_
    refine ensures_bind (Q := fun _ => Reports d .XML_DECL) ?_ fun _ => ensures_pure fun p h => h
    refine ensures_modify fun p h hplain => ?_
    obtain ⟨-, hlevel⟩ | ⟨hdegenerated, -⟩ := h
    · exact hlevel.depth
    · rw [hdegenerated rfl] at hplain
      cases hplain
  · refine ensures_bind (scanned_level.pushed.parseProccessingInstruction _).ensures fun _ => ?_
    exact ensures_pure fun p h => h

theorem parseLegacy_level (willPush : Bool) :
    Ensures (Level d false) (parseLegacy env features fuel readName willPush)
      (Reports d) := by
  refine ensures_bind (scanned_level.readEnsureAll _).ensures fun _ => ?_
  refine ensures_bind scanned_level.reads.ensures fun c => ?_
  refine ensures_bind scanned_level.clearText.ensures fun _ => ?_
  refine ensures_ite (fun _ => ?_) fun _ => ensures_ite
    (fun _ => parseLegacyInstruction_level hname willPush) fun _ => ensures_raiseParser _
  refine ensures_bind scanned_level.peekZero.ensures fun nc => ?_
  refine ensures_ite (fun _ => ?_) fun _ => ensures_ite (fun _ => ?_) fun _ => ?_
  · refine ensures_bind (scanned_level.pushed.parseComment _).ensures fun _ => ?_
    exact ensures_pure fun p h => h
  · refine ensures_bind scanned_level.pushed.parseCDATA.ensures fun _ => ?_
    exact ensures_pure fun p h => h
  · refine ensures_bind (scanned_level.pushed.parseDocType _).ensures fun _ => ?_
    exact ensures_pure fun p h => h

-- Events

theorem parseEvent_level (type : EventType) :
    Ensures (Level d false) (parseEvent env features fuel readName type) (Reports d) := by
  refine ensures_bind ensures_get fun p => ?_
  have hlevel : ∀ s, p = s ∧ Level d false p → Level d false s := fun s h => h.1 ▸ h.2
  cases type with
  | START_TAG =>
    refine ensures_bind ((parseStartTag_level hname false).weaken hlevel) fun _ =>
      ensures_pure fun p h => ?_
    obtain ⟨hdecl, -⟩ | ⟨-, b, h⟩ := h
    · cases hdecl
    · exact h.depth
  | END_TAG =>
    exact ensures_bind ((parseEndTag_level hname).weaken hlevel) fun _ => ensures_pure fun p h => h
  | ENTITY_REF =>
    refine ensures_bind ((scanned_level.parseEntity _).ensures.weaken hlevel) fun isValid =>
      ensures_pure fun p h => ?_
    cases isValid with
    | false => exact h
    | true => exact h
  | END_DOCUMENT => exact ensures_pure hlevel
  | TEXT =>
    refine ensures_bind ((scanned_level.parseText _ _).ensures.weaken hlevel) fun _ =>
      ensures_bind ensures_get fun p => ensures_pure fun p' h => ?_
    obtain ⟨rfl, h⟩ := h
    split
    · exact h
    · exact h
  | _ => exact (parseLegacy_level hname _).weaken hlevel

structure Accounts (n : Nat) (p : SGXmlPullParser) : Prop where
  depth : p.depth = n + if p.type = .END_TAG then 1 else 0
  degenerated : p.degenerated = true → p.type = .START_TAG ∧ n ≠ 0

def EventType.change : EventType → Int
  | .START_TAG => 1
  | .END_TAG => -1
  | _ => 0

theorem doParse_level (type : EventType) :
    Ensures (fun p => p.depth = d ∧ (p.degenerated = true → d ≠ 0))
      (doParse env features fuel readName type)
      (RoundEnds (fun r p => r = .XML_DECL ∧ Reports d r p)
        (fun r p => r ≠ .XML_DECL ∧ p.type = r ∧ Reports d r p)) := by
  refine ensures_bind ensures_get fun p => ensures_ite (fun hdegenerated => ?_) fun hplain => ?_
  · refine ensures_bind (Q := fun _ p => p.type = .END_TAG ∧ Reports d .END_TAG p) ?_ fun _ =>
      ensures_pure fun p h => ⟨by decide, h⟩
    refine ensures_modify fun p' h => ?_
    obtain ⟨rfl, hdepth, hpositive⟩ := h
    exact ⟨rfl, hpositive hdegenerated, hdepth, rfl⟩
  · refine ensures_bind (Q := fun _ => Level d false) ?_ fun _ => ?_
    · refine ensures_modify fun p' h => ?_
      obtain ⟨rfl, hdepth, -⟩ := h
      exact ⟨hdepth, by simpa using hplain⟩
    · refine ensures_bind (parseEvent_level hname _) fun r => ?_
      refine ensures_bind (Q := fun _ p => p.type = r ∧ Reports d r p) ?_ fun _ => ?_
      · exact ensures_modify fun p h => ⟨rfl, h.congr rfl rfl⟩
      · by_cases hr : r = .XML_DECL
        · rw [if_pos hr]
          exact ensures_pure fun p h => ⟨hr, h.2⟩
        · rw [if_neg hr]
          exact ensures_pure fun p h => ⟨hr, h⟩

end

-- Steps

def SGXmlPullParser.startNext (token : Bool) (p : SGXmlPullParser) : SGXmlPullParser :=
  { p with isWhitespace := true, token := token }

def SGXmlPullParser.stepPast (p : SGXmlPullParser) : SGXmlPullParser :=
  { p with depth := if p.type = .END_TAG then p.depth - 1 else p.depth }

variable (env features fuel) in
/-- The step reads a declaration that is closed like an empty tag. -/
def ReadsEmptyDeclaration (readName : Parser NSString) (p : SGXmlPullParser) : Prop :=
  ∃ type p₁ p₂, peekType p.stepPast = .ok type p₁ ∧
    Rounds (doParse env features fuel readName) type { p₁ with type := type } .XML_DECL p₂ ∧
    p₂.degenerated = true

section
variable {readName : Parser NSString}

theorem doNext_cases (h : doNext env features fuel readName p = .ok r p') :
    ∃ type p₁, peekType p.stepPast = .ok type p₁ ∧
      loop (doParse env features fuel readName) fuel type { p₁ with type := type } = .ok r p' := by
  obtain ⟨_, _, hpast, hrest⟩ := exists_of_bind h
  cases hpast
  obtain ⟨type, p₁, hpeek, hrest⟩ := exists_of_bind hrest
  obtain ⟨_, _, hset, hrest⟩ := exists_of_bind hrest
  cases hset
  exact ⟨type, p₁, hpeek, hrest⟩

theorem returns_peekType (p : SGXmlPullParser) : Returns (fun _ _ => True) (peekType p) := by
  have hpeek : ∀ index p, Returns (fun _ _ => True) (peek index p) := fun index p =>
    returns_bind (Q := fun _ _ => True) (returns_modify trivial) fun _ _ _ =>
      returns_bind (Q := fun _ _ => True) (returns_get trivial) fun _ _ _ => returns_pure trivial
  refine returns_bind (hpeek 0 p) fun c p _ => ?_
  refine returns_ite (fun _ => returns_pure trivial) fun _ => ?_
  refine returns_ite (fun _ => returns_pure trivial) fun _ => ?_
  refine returns_ite (fun _ => ?_) fun _ => returns_pure trivial
  refine returns_bind (hpeek 1 p) fun nc p _ => ?_
  refine returns_ite (fun _ => returns_pure trivial) fun _ => ?_
  exact returns_ite (fun _ => returns_pure trivial) fun _ => returns_pure trivial

theorem not_readsEmptyDeclaration (hpeek : peekType p.stepPast = .ok type p₁)
    (htype : type ≠ .XML_DECL)
    (hparse : doParse env features fuel readName type { p₁ with type := type } = .ok (.inr r) p₂) :
    ¬ ReadsEmptyDeclaration env features fuel readName p := by
  rintro ⟨type', p₁', p', hpeek', hrounds, -⟩
  rw [hpeek] at hpeek'
  cases hpeek'
  cases hrounds with
  | here => exact htype rfl
  | more hround =>
    rw [hparse] at hround
    cases hround

theorem doNext_of_degenerated (h : p.degenerated = true) (hpeek : peekType p.stepPast = .ok type p₁)
    (fuel : Nat) : doNext env features (fuel + 1) readName p =
      .ok .END_TAG { p₁ with degenerated := false, type := .END_TAG } := by
  have hlevel : Level p.stepPast.depth true p₁ := scanned_level.peekType _ _ _ ⟨rfl, h⟩ hpeek
  have hround : doParse env features (fuel + 1) readName type { p₁ with type := type } =
      .ok (.inr .END_TAG) { p₁ with degenerated := false, type := .END_TAG } := by
    show (if p₁.degenerated = true then _ else _ : Parser (EventType ⊕ EventType)) _ = _
    rw [if_pos hlevel.degenerated]
    rfl
  show (peekType >>= _) p.stepPast = _
  rw [bind_of_ok hpeek]
  show (loop (doParse env features (fuel + 1) readName) (fuel + 1) type) { p₁ with
    type := type } = _
  rw [loop, bind_of_ok hround]
  rfl

theorem doNext_degenerated (h : p.degenerated = true) (fuel : Nat) :
    ∃ p', doNext env features (fuel + 1) readName p = .ok .END_TAG p' ∧ p'.name = p.name := by
  obtain ⟨type, p₁, hpeek, -⟩ := returns_iff_exists.mp (returns_peekType p.stepPast)
  have hname : p₁.name = p.name := (buffered_name p.name).peekType p.stepPast _ _ rfl hpeek
  exact ⟨_, doNext_of_degenerated h hpeek fuel, hname⟩

theorem call_degenerated (h : p.degenerated = true) (fuel : Nat) (c : Call) :
    ∃ p', call env features (fuel + 1) readName c p = .ok .END_TAG p' ∧ p'.name = p.name := by
  cases c with
  | next =>
    have hnext : ∃ p', doNext env features (fuel + 1) readName (p.startNext false) =
      .ok .END_TAG p' ∧
        p'.name = p.name := doNext_degenerated (p := p.startNext false) h fuel
    obtain ⟨p', hstep, hname⟩ := hnext
    have hround : nextRound env features (fuel + 1) readName none (p.startNext false) =
        .ok (.inr .END_TAG) p' := by
      show (doNext env features (fuel + 1) readName >>= _) (p.startNext false) = _
      rw [bind_of_ok hstep]
      rfl
    refine ⟨{ p' with type := .END_TAG }, ?_, hname⟩
    show (loop (nextRound env features (fuel + 1) readName) (fuel + 1) none >>= _)
      (p.startNext false) = _
    have hloop : loop (nextRound env features (fuel + 1) readName) (fuel + 1) none
      (p.startNext false) =
        .ok .END_TAG p' := by
      rw [loop, bind_of_ok hround]
      rfl
    rw [bind_of_ok hloop]
    rfl
  | nextToken => exact doNext_degenerated (p := p.startNext true) h fuel

theorem doNext_of_left_nil (h : Left p []) (hplain : p.degenerated = false) (fuel : Nat) :
    ∃ p', doNext env features (fuel + 1) readName p = .ok .END_DOCUMENT p' ∧
      p'.depth = p.stepPast.depth := by
  have hpast : Left p.stepPast [] := h
  obtain ⟨p₁, hpeek, -⟩ := peek_ok hpast 0
  have htype : peekType p.stepPast = .ok .END_DOCUMENT p₁ := bind_of_ok hpeek
  have hlevel : Level p.stepPast.depth false p₁ := scanned_level.peekType _ _ _ ⟨rfl, hplain⟩ htype
  have hround : doParse env features (fuel + 1) readName .END_DOCUMENT { p₁ with
    type := .END_DOCUMENT } =
      .ok (.inr .END_DOCUMENT) { p₁ with type := .END_DOCUMENT } := by
    show (if p₁.degenerated = true then _ else _ : Parser (EventType ⊕ EventType)) _ = _
    rw [if_neg (by rw [hlevel.degenerated]; exact Bool.false_ne_true)]
    rfl
  refine ⟨{ p₁ with type := .END_DOCUMENT }, ?_, hlevel.depth⟩
  show (peekType >>= _) p.stepPast = _
  rw [bind_of_ok htype]
  show (loop (doParse env features (fuel + 1) readName) (fuel + 1) .END_DOCUMENT)
    { p₁ with type := .END_DOCUMENT } = _
  rw [loop, bind_of_ok hround]
  rfl

theorem call_of_left_nil (h : Left p []) (hplain : p.degenerated = false) (fuel : Nat) (c : Call) :
    ∃ p', call env features (fuel + 1) readName c p = .ok .END_DOCUMENT p' ∧
      p'.depth = p.stepPast.depth := by
  cases c with
  | next =>
    have hstart : Left (p.startNext false) [] := h
    obtain ⟨p', hstep, hdepth⟩ : ∃ p', doNext env features (fuel + 1) readName (p.startNext false) =
      .ok .END_DOCUMENT p' ∧ _ := doNext_of_left_nil hstart hplain fuel
    have hround : nextRound env features (fuel + 1) readName none (p.startNext false) =
        .ok (.inr .END_DOCUMENT) p' := by
      show (doNext env features (fuel + 1) readName >>= _) (p.startNext false) = _
      rw [bind_of_ok hstep]
      rfl
    have hloop : loop (nextRound env features (fuel + 1) readName) (fuel + 1) none
      (p.startNext false) =
        .ok .END_DOCUMENT p' := by
      rw [loop, bind_of_ok hround]
      rfl
    refine ⟨{ p' with type := .END_DOCUMENT }, ?_, hdepth⟩
    show (loop (nextRound env features (fuel + 1) readName) (fuel + 1) none >>= _)
      (p.startNext false) = _
    rw [bind_of_ok hloop]
    rfl
  | nextToken =>
    have hstart : Left (p.startNext true) [] := h
    exact doNext_of_left_nil hstart hplain fuel

-- The end of the document

/-- The event is the end of the document only where the text ends. -/
def EndsText (type : EventType) (p : SGXmlPullParser) : Prop := type = .END_DOCUMENT → Left p []

theorem endsText_of_ne {type : EventType} (h : type ≠ .END_DOCUMENT) : EndsText type p :=
  fun heq => absurd heq h

theorem Placed.left_nil (h : Placed source p) (hhead : p.peeked.head? = some XML_INVALID_UNICHAR) :
    Left p [] := by
  obtain ⟨peeked, hpeeked⟩ : ∃ peeked, p.peeked = XML_INVALID_UNICHAR :: peeked :=
    List.head?_eq_some_iff.mp hhead
  obtain ⟨before, q, b, -, -, hq, -⟩ | ⟨hrest, hlast⟩ := h.aligned
  · have hmem : XML_INVALID_UNICHAR ∈ packed b q := by
      rw [← hq, hpeeked]
      exact List.mem_cons_self
    exact absurd hmem (packed_ne_invalid b q)
  · refine ⟨List.not_mem_nil, p.peeked.length, ?_⟩
    rw [hrest, packed, List.append_nil, List.nil_append]
    refine List.eq_replicate_of_mem fun c hc => ?_
    have hbuffered := h.buffered
    rw [hpeeked] at hlast hc hbuffered
    cases peeked with
    | nil => exact List.mem_singleton.mp hc
    | cons d peeked =>
      cases peeked with
      | nil =>
        obtain rfl | hd := List.mem_cons.mp hc
        · rfl
        · exact List.mem_singleton.mp hd ▸ hlast d rfl
      | cons => simp at hbuffered

theorem peek_zero_endsText (h : Placed source p) (hpeek : peek 0 p = .ok XML_INVALID_UNICHAR p') :
    Left p' [] := by
  have hplaced : Placed source p' := scanned_placed.peekZero _ _ _ h hpeek
  obtain ⟨hvalue, rfl⟩ := Outcome.ok.inj (show Outcome.ok
    ((fill (0 + 1 - p.peeked.length) p).peeked.getD 0 XML_INVALID_UNICHAR)
    (fill (0 + 1 - p.peeked.length) p) = _ from hpeek)
  have hlength : 0 < (fill (0 + 1 - p.peeked.length) p).peeked.length := by
    rw [length_fill]
    omega
  obtain ⟨c, peeked, hpeeked⟩ := List.exists_cons_of_length_pos hlength
  refine hplaced.left_nil ?_
  rw [hpeeked] at hvalue ⊢
  exact congrArg some hvalue

theorem peekType_endsText : Ensures (Placed source) peekType EndsText := by
  refine ensures_bind (Q := fun c p => c = XML_INVALID_UNICHAR → Left p [])
    (fun p c p' h hpeek hc => peek_zero_endsText h (hc ▸ hpeek)) fun c => ?_
  refine ensures_ite (fun hc => ensures_pure fun p h _ => h hc) fun _ => ?_
  refine ensures_ite (fun _ => ensures_pure fun _ _ => endsText_of_ne (by decide)) fun _ => ?_
  refine ensures_ite (fun _ => ?_) fun _ => ensures_pure fun _ _ => endsText_of_ne (by decide)
  refine ensures_bind ensures_true fun nc => ?_
  refine ensures_ite (fun _ => ensures_pure fun _ _ => endsText_of_ne (by decide)) fun _ => ?_
  refine ensures_ite (fun _ => ?_) fun _ => ?_
  · exact ensures_pure fun _ _ => endsText_of_ne (by decide)
  · exact ensures_pure fun _ _ => endsText_of_ne (by decide)

theorem parseLegacy_ne_endDocument (willPush : Bool) :
    Ensures (fun _ => True) (parseLegacy env features fuel readName willPush)
      fun type _ => type ≠ .END_DOCUMENT := by
  refine ensures_bind ensures_true fun _ => ensures_bind ensures_true fun c => ?_
  refine ensures_bind ensures_true fun _ => ensures_ite (fun _ => ?_) fun _ =>
    ensures_ite (fun _ => ?_)
    fun _ => ensures_raiseParser _
  · refine ensures_bind ensures_true fun nc => ensures_ite (fun _ => ?_) fun _ => ensures_ite
      (fun _ => ?_) fun _ => ?_
    · exact ensures_bind ensures_true fun _ => ensures_pure fun _ _ => by decide
    · exact ensures_bind ensures_true fun _ => ensures_pure fun _ _ => by decide
    · exact ensures_bind ensures_true fun _ => ensures_pure fun _ _ => by decide
  · refine ensures_bind ensures_true fun x => ensures_bind ensures_true fun m => ensures_ite
      (fun _ => ?_) fun _ => ?_
    · refine ensures_bind ensures_true fun _ => ensures_bind ensures_true fun _ => ?_
      refine ensures_bind ensures_true fun _ => ensures_bind ensures_true fun _ => ?_
      refine ensures_bind ensures_true fun _ => ensures_bind ensures_true fun _ => ?_
      refine ensures_ite (fun _ => ?_) fun _ => ensures_pure fun _ _ => by decide
      refine ensures_bind ensures_true fun _ => ensures_bind ensures_true fun _ => ?_
      exact ensures_pure fun _ _ => by decide
    · exact ensures_bind ensures_true fun _ => ensures_pure fun _ _ => by decide

theorem parseEvent_endsText (type : EventType) :
    Ensures (EndsText type) (parseEvent env features fuel readName type) EndsText := by
  refine ensures_bind ensures_get fun p => ?_
  have hplain : ∀ {p' : SGXmlPullParser} {type' : EventType}, type' ≠ .END_DOCUMENT →
    EndsText type' p' :=
    endsText_of_ne
  cases type with
  | START_TAG => exact ensures_bind ensures_true fun _ => ensures_pure fun _ _ => hplain (by decide)
  | END_TAG => exact ensures_bind ensures_true fun _ => ensures_pure fun _ _ => hplain (by decide)
  | ENTITY_REF =>
    refine ensures_bind ensures_true fun isValid => ensures_pure fun _ _ => hplain ?_
    cases isValid <;> decide
  | END_DOCUMENT => exact ensures_pure fun s h => h.1 ▸ h.2
  | TEXT =>
    refine ensures_bind ensures_true fun _ => ensures_bind ensures_true fun _ =>
      ensures_pure fun _ _ => hplain ?_
    split <;> decide
  | _ =>
    exact ((parseLegacy_ne_endDocument _).weaken fun _ _ => trivial).imp fun _ _ hne => hplain hne

theorem doParse_endsText (type : EventType) :
    Ensures (EndsText type) (doParse env features fuel readName type)
      (RoundEnds EndsText EndsText) := by
  refine ensures_bind ensures_get fun p => ensures_ite (fun _ => ?_) fun _ => ?_
  · exact ensures_bind ensures_true fun _ => ensures_pure fun _ _ => endsText_of_ne (by decide)
  · refine ensures_bind (Q := fun _ => EndsText (if type = .ENTITY_REF && !p.token then .TEXT
      else type)) ?_
      fun _ => ?_
    · refine ensures_modify fun p' h htype => ?_
      split at htype
      · cases htype
      · obtain ⟨rfl, hends⟩ := h
        exact hends htype
    · refine ensures_bind (parseEvent_endsText _) fun r => ?_
      refine ensures_bind (Q := fun _ => EndsText r) (ensures_modify fun _ h => h) fun _ => ?_
      exact ensures_pure fun p h => by split <;> exact h

theorem doNext_endsText : Ensures (Placed source) (doNext env features fuel readName) EndsText := by
  intro p r p' h hnext
  obtain ⟨type, p₁, hpeek, hloop⟩ := doNext_cases hnext
  have hpast : Placed source p.stepPast := h.congr rfl
  have hends : EndsText type p₁ := peekType_endsText _ _ _ hpast hpeek
  exact ensures_loop_all EndsText doParse_endsText fuel type { p₁ with
    type := type } r p' hends hloop

section
variable (hname : Maintains (Placed source) readName)

include hname

theorem nextRound_endsText (minimum : Option EventType) :
    Ensures (fun p => Placed source p ∧ minimum ≠ some .END_DOCUMENT)
      (nextRound env features fuel readName minimum)
      (RoundEnds (fun minimum p => Placed source p ∧ minimum ≠ some .END_DOCUMENT) EndsText) := by
  refine ensures_bind (Q := fun type p => (Placed source p ∧ minimum ≠ some .END_DOCUMENT) ∧
    EndsText type p)
    (fun p type p' h hstep => ⟨⟨maintains_doNext hname _ _ _ h.1 hstep, h.2⟩,
      doNext_endsText _ _ _ h.1 hstep⟩) fun type => ?_
  have hsome : ∀ {m : EventType}, EventType.TEXT.code ≤ m.code → some m ≠ some .END_DOCUMENT := by
    rintro m hcode ⟨⟩
    exact absurd hcode (by decide)
  refine ensures_ite (fun hgoes => ?_) fun _ => ensures_ite (fun hcode => ?_) fun _ => ?_
  · exact ensures_pure fun p h => ⟨h.1.1, hsome (Nat.le_trans (by decide) (Nat.le_of_lt hgoes))⟩
  · refine ensures_bind (Q := fun _ => Placed source)
      (fun p _ p' h hpeek => scanned_placed.peekType _ _ _ h.1.1 hpeek) fun next =>
        ensures_pure fun p h => ?_
    split
    · exact ⟨h, hsome hcode⟩
    · exact endsText_of_ne fun heq => hsome hcode (congrArg some heq)
  · refine ensures_pure fun p h => ?_
    intro hend
    refine h.2 ?_
    cases minimum with
    | none => exact hend
    | some least =>
      rw [minType] at hend
      split at hend
      · exact hend
      · exact absurd (congrArg some hend) h.1.2

theorem call_endsText (c : Call) :
    Ensures (Placed source) (Xml.call env features fuel readName c) EndsText := by
  cases c with
  | next =>
    refine ensures_bind (Q := fun _ => Placed source)
      (ensures_modify fun p h => h.congr rfl) fun _ => ?_
    refine ensures_bind ((ensures_loop_all
      (fun minimum p => Placed source p ∧ minimum ≠ some .END_DOCUMENT)
      (nextRound_endsText hname) fuel none).weaken fun p h => ⟨h, nofun⟩) fun minimum => ?_
    have htext : (if EventType.TEXT.code < minimum.code then EventType.TEXT
      else minimum) = .END_DOCUMENT →
        minimum = .END_DOCUMENT := by
      intro htype
      split at htype
      · cases htype
      · exact htype
    refine ensures_bind (Q := fun _ => EndsText (if EventType.TEXT.code < minimum.code then .TEXT
      else minimum))
      (ensures_modify fun p h htype => h (htext htype)) fun _ => ensures_pure fun p h => h
  | nextToken =>
    exact ensures_bind (Q := fun _ => Placed source) (ensures_modify fun p h => h.congr rfl)
      fun _ => doNext_endsText

end

theorem Accounts.stepPast (h : Accounts n p) : p.stepPast.depth = n := by
  have hdepth := h.depth
  simp only [SGXmlPullParser.stepPast]
  split
  · rename_i htype
    rw [if_pos htype] at hdepth
    omega
  · rename_i htype
    rw [if_neg htype] at hdepth
    omega

variable (hname : ∀ d, Maintains (Level d false) readName)

include hname

theorem Accounts.doNext (h : Accounts n p)
    (hdecl : ¬ ReadsEmptyDeclaration env features fuel readName p)
    (hnext : doNext env features fuel readName p = .ok r p') :
    ∃ m : Nat, Accounts m p' ∧ (m : Int) = n + r.change ∧ p'.type = r := by
  obtain ⟨type, p₁, hpeek, hloop⟩ := doNext_cases hnext
  have hlevel : Level n p.degenerated p₁ :=
    scanned_level.peekType _ _ _ ⟨h.stepPast, rfl⟩ hpeek
  have hstart : p₁.degenerated = true → (n : Int) ≠ 0 := by
    intro hdegenerated
    have hn := (h.degenerated (hlevel.degenerated.symm.trans hdegenerated)).2
    omega
  obtain ⟨hr, htype, hreports⟩ : r ≠ .XML_DECL ∧ p'.type = r ∧ Reports n r p' := by
    refine ensures_loop (Q := fun r p => r ≠ .XML_DECL ∧ p.type = r ∧ Reports n r p)
      (s := { p₁ with type := type })
      (fun _ p => p.depth = n ∧ (p.degenerated = true → (n : Int) ≠ 0))
      (fun type' p' hrounds hI r p'' hround => ?_) ⟨hlevel.depth, hstart⟩ hloop
    have hends := doParse_level hname type' p' r p'' hI hround
    cases r with
    | inr r => exact hends
    | inl r =>
      obtain ⟨rfl, hreports⟩ := hends
      -- the declaration was not an empty one
      have hplain : p''.degenerated = false := by
        cases hd : p''.degenerated with
        | false => rfl
        | true => exact absurd ⟨type, p₁, p'', hpeek, hrounds.snoc hround, hd⟩ hdecl
      refine ⟨hreports hplain, fun hd => ?_⟩
      rw [hplain] at hd
      cases hd
  cases r with
  | START_TAG =>
    have hdepth : p'.depth = n + 1 := hreports
    refine ⟨n + 1, ⟨?_, fun _ => ⟨htype, n.succ_ne_zero⟩⟩, rfl, htype⟩
    rw [htype, hdepth]
    rfl
  | END_TAG =>
    obtain ⟨hn, hlevel'⟩ := hreports
    have hpositive : n - 1 + 1 = n := Nat.sub_add_cancel (by omega)
    refine ⟨n - 1, ⟨?_, fun hd => ?_⟩, ?_, htype⟩
    · rw [htype, hlevel'.depth, if_pos rfl]
      omega
    · rw [hlevel'.degenerated] at hd
      cases hd
    · rw [EventType.change]
      omega
  | XML_DECL => exact absurd rfl hr
  | _ =>
    have hlevel' : Level n false p' := hreports
    refine ⟨n, ⟨?_, fun hd => ?_⟩, (Int.add_zero (n : Int)).symm, htype⟩
    · rw [htype, hlevel'.depth]
      rfl
    · rw [hlevel'.degenerated] at hd
      cases hd

-- Calls

end

section
variable (env features fuel) (readName : Parser NSString)

/-- One of the steps of the call reads a declaration that is closed like an empty tag. -/
def Call.ReadsEmptyDeclaration (c : Call) (p : SGXmlPullParser) : Prop :=
  match c with
  | .next => ∃ minimum q, Rounds (nextRound env features fuel readName) none
      (p.startNext false) minimum q ∧
      Xml.ReadsEmptyDeclaration env features fuel readName q
  | .nextToken => Xml.ReadsEmptyDeclaration env features fuel readName (p.startNext true)

end

theorem Accounts.congr {p p' : SGXmlPullParser} (h : Accounts n p) (hdepth : p'.depth = p.depth)
    (hdegenerated : p'.degenerated = p.degenerated) (htype : p'.type = p.type) : Accounts n p' := by
  refine ⟨?_, fun hd => ?_⟩
  · rw [hdepth, htype, h.depth]
  · rw [htype]
    exact h.degenerated (hdegenerated.symm.trans hd)

theorem buffered_accounts : Buffered fun p => Accounts n p ∧ p.type = type :=
  buffered_of fun _ _ _ _ _ _ _ _ h => ⟨h.1.congr rfl rfl rfl, h.2⟩

theorem EventType.change_eq (type : EventType) :
    type.change = [type].count .START_TAG - [type].count .END_TAG := by
  cases type <;> rfl

theorem EventType.change_eq_zero {type : EventType} (h : EventType.TEXT.code ≤ type.code) :
    type.change = 0 := by
  cases type <;> first | rfl | exact absurd h (by decide)

theorem Accounts.setText (h : Accounts n p) (hcode : EventType.TEXT.code ≤ p.type.code) :
    Accounts n { p with type := .TEXT } := by
  have hend : ¬ p.type = .END_TAG := by
    intro htype
    rw [htype] at hcode
    exact absurd hcode (by decide)
  refine ⟨?_, fun hd => ?_⟩
  · have hdepth := h.depth
    rw [if_neg hend] at hdepth
    exact hdepth
  · rw [(h.degenerated hd).1] at hcode
    exact absurd hcode (by decide)

theorem EventType.eq_text {type : EventType} (h : type.code = EventType.TEXT.code) :
    type = .TEXT := by
  cases type <;> first | rfl | exact absurd h (by decide)

theorem delivered_cases {type minimum : EventType}
    (h : type = minimum ∨ EventType.TEXT.code ≤ minimum.code ∧ EventType.TEXT.code ≤ type.code) :
    type = (if EventType.TEXT.code < minimum.code then .TEXT else minimum) ∨
      (if EventType.TEXT.code < minimum.code then EventType.TEXT else minimum) = .TEXT ∧
        EventType.TEXT.code ≤ type.code := by
  split
  · rename_i hlt
    obtain rfl | ⟨-, hcode⟩ := h
    · exact .inr ⟨rfl, Nat.le_of_lt hlt⟩
    · exact .inr ⟨rfl, hcode⟩
  · rename_i hnot
    obtain rfl | ⟨hminimum, hcode⟩ := h
    · exact .inl rfl
    · exact .inr ⟨EventType.eq_text (Nat.le_antisymm (Nat.not_lt.mp hnot) hminimum), hcode⟩

section
variable {readName : Parser NSString} (hname : ∀ d, Maintains (Level d false) readName)

include hname

/-- The steps before the last one deliver texts, and the last one what is answered. -/
theorem Accounts.nextRound (h : Accounts n p)
    (hminimum : ∀ m ∈ minimum, EventType.TEXT.code ≤ m.code)
    (hdecl : ¬ ReadsEmptyDeclaration env features fuel readName p)
    (hround : nextRound env features fuel readName minimum p = .ok r p') :
    RoundEnds (fun minimum p => Accounts n p ∧ ∀ m ∈ minimum, EventType.TEXT.code ≤ m.code)
      (fun minimum p => ∃ m : Nat, Accounts m p ∧ (m : Int) = n + p.type.change ∧
        (p.type = minimum ∨ EventType.TEXT.code ≤ minimum.code ∧ EventType.TEXT.code ≤
          p.type.code)) r p' := by
  obtain ⟨type, p₁, hstep, hrest⟩ := exists_of_bind hround
  obtain ⟨m, hm, hchange, htype⟩ := h.doNext hname hdecl hstep
  rw [← htype] at hrest hchange
  have hle := code_minType_le minimum p₁.type
  have htext : EventType.TEXT.code ≤ (minType minimum p₁.type).code → Accounts n p₁ := by
    intro hcode
    rw [EventType.change_eq_zero (hcode.trans hle), Int.add_zero] at hchange
    exact Int.natCast_inj.mp hchange ▸ hm
  have hsome : EventType.TEXT.code ≤ (minType minimum p₁.type).code →
      ∀ m ∈ some (minType minimum p₁.type), EventType.TEXT.code ≤ m.code := by
    rintro hcode m ⟨⟩
    exact hcode
  simp only at hrest
  split at hrest
  · rename_i hgoes
    have hcode : EventType.TEXT.code ≤ (minType minimum p₁.type).code :=
      Nat.le_trans (by decide) (Nat.le_of_lt hgoes)
    cases hrest
    exact ⟨htext hcode, hsome hcode⟩
  · split at hrest
    · rename_i hcode
      obtain ⟨next, p₂, hpeek, hpure⟩ := exists_of_bind hrest
      obtain ⟨hm₂, htype₂⟩ := buffered_accounts.peekType p₁ next p₂ ⟨hm, rfl⟩ hpeek
      have htext₂ : Accounts n p₂ :=
        (buffered_accounts.peekType p₁ next p₂ ⟨htext hcode, rfl⟩ hpeek).1
      split at hpure
      · cases hpure
        exact ⟨htext₂, hsome hcode⟩
      · cases hpure
        refine ⟨m, hm₂, by rw [htype₂, hchange], .inr ⟨hcode, ?_⟩⟩
        rw [htype₂]
        exact hcode.trans hle
    · rename_i hcode
      cases hrest
      refine ⟨m, hm, hchange, .inl ?_⟩
      cases minimum with
      | none => rfl
      | some least =>
        have hleast := hminimum least rfl
        rw [minType] at hcode ⊢
        split
        · rfl
        · rename_i hnot
          rw [if_neg hnot] at hcode
          exact absurd hleast hcode

theorem Accounts.next (h : Accounts n p)
    (hdecl : ¬ Call.ReadsEmptyDeclaration env features fuel readName .next p)
    (hcall : Xml.next env features fuel readName p = .ok r p') :
    ∃ m : Nat, Accounts m p' ∧ (m : Int) = n + r.change ∧ p'.type = r := by
  obtain ⟨_, _, hstart, hrest⟩ := exists_of_bind hcall
  cases hstart
  obtain ⟨minimum, p₁, hloop, hrest⟩ := exists_of_bind hrest
  obtain ⟨m, hm, hchange, htype⟩ := ensures_loop
    (Q := fun minimum p => ∃ m : Nat, Accounts m p ∧ (m : Int) = n + p.type.change ∧
      (p.type = minimum ∨ EventType.TEXT.code ≤ minimum.code ∧ EventType.TEXT.code ≤ p.type.code))
    (fun minimum p => Accounts n p ∧ ∀ m ∈ minimum, EventType.TEXT.code ≤ m.code)
    (fun minimum q hrounds hI r q' hround => hI.1.nextRound hname hI.2
      (fun hreads => hdecl ⟨minimum, q, hrounds, hreads⟩) hround)
    ⟨h.congr rfl rfl rfl, nofun⟩ hloop
  cases hrest
  obtain hsame | ⟨htext, hcode⟩ := delivered_cases htype
  · exact ⟨m, hm.congr rfl rfl hsame.symm, by rw [← hsame, hchange], rfl⟩
  · rw [EventType.change_eq_zero hcode] at hchange
    rw [htext]
    exact ⟨m, hm.setText hcode, hchange, rfl⟩

theorem Accounts.call (h : Accounts n p)
    (hdecl : ¬ c.ReadsEmptyDeclaration env features fuel readName p)
    (hcall : Xml.call env features fuel readName c p = .ok r p') :
    ∃ m : Nat, Accounts m p' ∧ (m : Int) = n + r.change ∧ p'.type = r := by
  cases c with
  | next => exact h.next hname hdecl hcall
  | nextToken =>
    obtain ⟨_, _, hstart, hrest⟩ := exists_of_bind hcall
    cases hstart
    exact (h.congr rfl rfl rfl : Accounts n (p.startNext true)).doNext hname hdecl hrest

end

end

-- Runs

def SGXmlPullParser.isEmptyElementTag (p : SGXmlPullParser) : Bool := p.degenerated

/-- The events that calls deliver from the start of a source, without a declaration
that is closed like an empty tag. The features may change from call to call. -/
inductive Run (env : Environment) (source : NSString) : List EventType → SGXmlPullParser → Prop
  | start : Run env source [] (setInputSource source)
  | call {features : Features} {fuel : Nat} {c : Call} {events : List EventType} {type : EventType}
      {p p' : SGXmlPullParser} :
      Run env source events p →
      ¬ c.ReadsEmptyDeclaration env features fuel (readName env features fuel) p →
      Xml.call env features fuel (readName env features fuel) c p = .ok type p' →
      Run env source (events ++ [type]) p'

theorem Run.invariant (h : Run env source events p) :
    ∃ n : Nat, Accounts n p ∧ (n : Int) = events.count .START_TAG - events.count .END_TAG ∧
      p.type = events.getLast?.getD .START_DOCUMENT := by
  induction h with
  | start => exact ⟨0, ⟨rfl, nofun⟩, rfl, rfl⟩
  | @call features fuel c events type p p' _ hdecl hcall ih =>
    obtain ⟨n, hn, hcount, -⟩ := ih
    have hname : ∀ d, Maintains (Level d false) (readName env features fuel) := fun d =>
      scanned_level.readName env features fuel
    obtain ⟨m, hm, hchange, htype⟩ := hn.call hname hdecl hcall
    refine ⟨m, hm, ?_, by rw [htype, List.getLast?_concat, Option.getD_some]⟩
    rw [List.count_append, List.count_append, hchange, hcount, EventType.change_eq]
    omega

theorem Run.placed (h : Run env source events p) : Placed source p := by
  induction h with
  | start => exact placed_setInputSource source
  | call _ _ hcall ih => exact maintains_call (scanned_placed.readName env _ _) _ _ _ _ ih hcall

theorem Run.endsText (h : Run env source events p) (hend : events.getLast? = some .END_DOCUMENT) :
    Left p [] := by
  cases h with
  | start => cases hend
  | call hrun _ hcall =>
    rw [List.getLast?_concat] at hend
    exact call_endsText (scanned_placed.readName env _ _) _ _ _ _ hrun.placed hcall
      (Option.some.inj hend)

theorem Run.depth_of_endDocument (h : Run env source events p)
    (hend : events.getLast? = some .END_DOCUMENT) :
    p.depth = events.count .START_TAG - events.count .END_TAG := by
  obtain ⟨n, hn, hcount, htype⟩ := h.invariant
  rw [hend, Option.getD_some] at htype
  have hdepth := hn.depth
  rw [htype, if_neg (by decide), Int.add_zero] at hdepth
  exact hdepth.trans hcount

theorem Run.depth_eq (h : Run env source events p) :
    p.depth = events.count .START_TAG - events.dropLast.count .END_TAG := by
  obtain ⟨n, hn, hcount, htype⟩ := h.invariant
  have hdepth := hn.depth
  obtain rfl | ⟨past, last, rfl⟩ := List.eq_nil_or_concat' events
  · rw [htype] at hdepth
    exact hdepth.trans (by rw [hcount]; rfl)
  · rw [List.getLast?_concat, Option.getD_some] at htype
    rw [List.count_append, List.count_append] at hcount
    rw [List.dropLast_concat, List.count_append, hdepth, htype, hcount]
    by_cases hend : last = .END_TAG
    · rw [if_pos hend, hend, List.count_singleton_self]
      omega
    · have hzero : List.count EventType.END_TAG [last] = 0 := by
        rw [List.count_eq_zero, List.mem_singleton]
        exact fun h => hend h.symm
      rw [if_neg hend, hzero]
      omega

theorem Run.getLast?_of_isEmptyElementTag (h : Run env source events p)
    (hempty : p.isEmptyElementTag = true) :
    events.getLast? = some .START_TAG := by
  obtain ⟨n, hn, -, htype⟩ := h.invariant
  have hstart := (hn.degenerated hempty).1
  rw [htype] at hstart
  cases hlast : events.getLast? with
  | none =>
    rw [hlast] at hstart
    cases hstart
  | some last =>
    rw [hlast] at hstart
    exact congrArg some hstart

/-- At every event the depth is that of the start tags that were delivered and the end
tags that were stepped past, and after an empty tag its end tag comes next. Where the text
ends the end of the document comes, and only there; its depth is the number of elements
that were never closed. -/
theorem Run.accounts (h : Run env source events p) :
    p.depth = events.count .START_TAG - events.dropLast.count .END_TAG ∧ 0 ≤ p.depth ∧
      (p.isEmptyElementTag = true → events.getLast? = some .START_TAG ∧
        ∀ features fuel c, ∃ p',
          Xml.call env features (fuel + 1) (readName env features (fuel + 1)) c p =
            .ok .END_TAG p' ∧
            p'.name = p.name) ∧
      (events.getLast? = some .END_DOCUMENT →
        Left p [] ∧ p.depth = events.count .START_TAG - events.count .END_TAG) ∧
      (Left p [] → p.isEmptyElementTag = false → ∀ features fuel c, ∃ p',
        Xml.call env features (fuel + 1) (readName env features (fuel + 1)) c p =
          .ok .END_DOCUMENT p' ∧
          p'.depth = events.count .START_TAG - events.count .END_TAG) := by
  obtain ⟨n, hn, hcount, -⟩ := h.invariant
  have hdepth := hn.depth
  refine ⟨h.depth_eq, by omega, fun hempty => ⟨h.getLast?_of_isEmptyElementTag hempty, ?_⟩,
    fun hend => ⟨h.endsText hend, h.depth_of_endDocument hend⟩, fun hleft hplain features fuel c =>
      ?_⟩
  · exact fun features fuel c => call_degenerated hempty fuel c
  · obtain ⟨p', hcall, hpast⟩ := call_of_left_nil hleft hplain fuel c
    exact ⟨p', hcall, by rw [hpast, hn.stepPast, hcount]⟩

def deliversEmptyTag (r : Comp.Outcome XmlException SGXmlPullParser EventType) : Bool :=
  match r with
  | .ok .START_TAG p => p.isEmptyElementTag
  | _ => false

theorem exists_of_deliversEmptyTag {r : Comp.Outcome XmlException SGXmlPullParser EventType}
    (h : deliversEmptyTag r = true) : ∃ p, r = .ok .START_TAG p ∧ p.isEmptyElementTag = true := by
  unfold deliversEmptyTag at h
  split at h
  · rename_i p
    exact ⟨p, rfl, h⟩
  · cases h

def endsAtOnce (env : Environment) (features : Features) (fuel : Nat)
    (p : SGXmlPullParser) : Bool :=
  match peekType p.stepPast with
  | .ok type p₁ =>
    match doParse env features fuel (readName env features fuel) type { p₁ with type := type } with
    | .ok (.inr _) _ => type ≠ .XML_DECL
    | _ => false
  | _ => false

theorem not_reads_of_endsAtOnce {features : Features} {fuel : Nat}
    (h : endsAtOnce env features fuel p = true) :
    ¬ ReadsEmptyDeclaration env features fuel (readName env features fuel) p := by
  unfold endsAtOnce at h
  split at h
  · rename_i type p₁ hpeek
    split at h
    · rename_i hparse
      exact not_readsEmptyDeclaration hpeek (of_decide_eq_true h) hparse
    · cases h
  · cases h

/-- An empty tag, and the end tag behind it. -/
theorem Run.accounts_empty_tag :
    ∃ p p', p.depth = 1 ∧ p.isEmptyElementTag = true ∧
      Xml.call asciiEnvironment {} 9 (readName asciiEnvironment {} 9) .nextToken
        (setInputSource (ns "<a/>")) = .ok .START_TAG p ∧
      Xml.call asciiEnvironment {} 9 (readName asciiEnvironment {} 9) .next p =
        .ok .END_TAG p' := by
  have hdecl : ¬ Call.ReadsEmptyDeclaration asciiEnvironment {} 9 (readName asciiEnvironment {} 9)
      .nextToken (setInputSource (ns "<a/>")) :=
    not_reads_of_endsAtOnce (by decide +kernel)
  obtain ⟨p, htag, hempty⟩ :
    ∃ p, Xml.call asciiEnvironment {} 9 (readName asciiEnvironment {} 9) .nextToken
      (setInputSource (ns "<a/>")) = .ok .START_TAG p ∧ p.isEmptyElementTag = true :=
    exists_of_deliversEmptyTag (by decide +kernel)
  obtain ⟨hdepth, -, hbehind, -⟩ := (Run.start.call hdecl htag).accounts
  obtain ⟨p', hcall, -⟩ := (hbehind hempty).2 {} 8 .next
  exact ⟨p, p', hdepth, hempty, htag, hcall⟩

/-- The end of the text inside an element. -/
theorem Run.unclosed_fails :
    ∃ p₁ p₂, Xml.call asciiEnvironment {} 10 (readName asciiEnvironment {} 10) .next
        (setInputSource (ns "<a>")) = .ok .START_TAG p₁ ∧
      Xml.call asciiEnvironment {} 10 (readName asciiEnvironment {} 10) .next p₁ =
        .ok .END_DOCUMENT p₂ ∧
      p₂.depth = 1 := ⟨_, _, rfl, rfl, rfl⟩

end BathyScaphe.Xml
