import BathyScaphe.Xml.Instruction

/-!
# Documents without an instruction

An instruction that the parser takes for one is consumed through its end, and the
document without it delivers the same events. This holds for an instruction whose target
does not start with `xm`, and which the call of `next` comes to before it has delivered
anything. -/

namespace BathyScaphe.Xml

open NSString Comp

section
variable {env : Environment} {features : Features} {fuel : Nat}
  {p p' p₁ q q' x x' : SGXmlPullParser}
  {minimum : Option EventType} {type : EventType} {events : List Event}
  {before blank w post : NSString}

-- Calls side by side

theorem Calls.maintains {I : SGXmlPullParser → Prop} (h : Calls env features fuel p events p')
    (hI : Maintains I (next env features fuel (readName env features fuel))) (hp : I p) : I p' := by
  induction h with
  | done p => exact hp
  | call hnext _ ih => exact ih (hI _ _ _ hp hnext)

theorem Tracks.event {d : Sharing} (h : Tracks d {} p p') : p'.event = p.event := by
  simp only [SGXmlPullParser.event, h.type rfl, h.name, h.attributes, h.text rfl]

theorem Calls.carries {d : Sharing} (h : Calls env features fuel p events p₁) (hpast : ¬ d.past p₁)
    (hp : Tracks d {} p p') : ∃ p₁', Calls env features fuel p' events p₁' ∧
      Tracks d {} p₁ p₁' := by
  have hnexts : Tracking d {} (next env features fuel (readName env features fuel))
      (next env features fuel (readName env features fuel)) :=
    tracking_next (Nat.le_refl fuel) rfl rfl
  induction h generalizing p' with
  | done p => exact ⟨p', .done p', hp⟩
  | call hnext hrest ih =>
    obtain hover | ⟨t, hnext', ht⟩ := hnexts.follows _ _ _ _ hp hnext
    · exact absurd (hrest.maintains hnexts.maintains hover) hpast
    · obtain ⟨p₁', hcalls, h₁⟩ := ih hpast ht
      refine ⟨p₁', ?_, h₁⟩
      rw [← ht.event]
      exact .call hnext' hcalls

-- The place before the instruction

/-- The documents with and without the instruction, as far as they agree from the start. -/
def sharedBefore (before blank w post : NSString) : Sharing where
  before := []
  before' := []
  shared := before ++ blank
  after := (Piece.instruction w).render ++ post
  after' := post
  ended h := by
    rw [render_instruction] at h
    cases h

def sharedBehind (before blank w post : NSString) : Sharing :=
  ⟨before ++ (blank ++ (Piece.instruction w).render), before ++ blank, post, [],
    [], Sharing.ended_nil⟩

/-- The parsers of the two documents in front of the white space and the instruction. -/
structure Facing (before blank w post : NSString) (q q' : SGXmlPullParser) : Prop where
  placed : Placed (before ++ (blank ++ ((Piece.instruction w).render ++ post))) q
  peeked : q.peeked = []
  plain : q.peekReadedCR = false
  rest : q.rest = blank ++ ((Piece.instruction w).render ++ post)
  token : q.token = false
  same : q' = { q with source := before ++ (blank ++ post), rest := blank ++ post }

theorem facing_of_tracks
    (hplaced : Placed (before ++ (blank ++ ((Piece.instruction w).render ++ post))) q)
    (hpeeked : q.peeked = []) (hplain : q.peekReadedCR = false)
    (hrest : q.rest = blank ++ ((Piece.instruction w).render ++ post))
    (h : Tracks (sharedBefore before blank w post) {} q q') : Facing before blank w post q q' := by
  refine ⟨hplaced, hpeeked, hplain, hrest, h.token, ?_⟩
  obtain ⟨r, n, hr, hr', hcr, hn, hn', -⟩ := h.ahead
  have hblank : r = blank := by
    rw [hrest] at hr
    exact (List.append_cancel_right hr).symm
  have hposition : q'.position = q.position := hn'.trans hn.symm
  have hsource : q'.source = before ++ (blank ++ post) := by
    rw [h.source']
    simp [sharedBefore]
  have hrest' : q'.rest = blank ++ post := by
    rw [hr', hblank]
    rfl
  obtain ⟨heos, hcr, hline, hcolumn⟩ := h.lines rfl
  obtain ⟨htoken, htoken'⟩ := And.intro h.token h.token'
  have hpeeked' := h.peeked
  have hwhite := h.isWhitespace
  have hdegenerated := h.degenerated
  have hname := h.name
  have hattributes := h.attributes
  have hdepth := h.depth
  have htext := h.text rfl
  have htype := h.type rfl
  cases q
  cases q'
  simp only at *
  subst_vars
  rfl

theorem Facing.position (h : Facing before blank w post q q') : q.position = before.length := by
  obtain ⟨b, r, cr, hsource, hcount, -, -⟩ | hended := h.placed.aligned
  · have hlength := congrArg List.length hsource
    rw [h.rest] at hlength
    rw [h.peeked] at hcount
    simp only [List.length_append, List.length_nil, Nat.add_zero] at hlength hcount
    omega
  · have hlength := congrArg List.length (h.rest.symm.trans hended.1)
    rw [render_instruction, List.length_append, List.length_cons, List.length_nil] at hlength
    omega

section
variable (h : Facing before blank w post q q')
include h

theorem Facing.source' : q'.source = before ++ (blank ++ post) := by rw [h.same]

theorem Facing.rest' : q'.rest = blank ++ post := by rw [h.same]

theorem Facing.peeked' : q'.peeked = [] := by rw [h.same, ← h.peeked]

theorem Facing.plain' : q'.peekReadedCR = false := by rw [h.same, ← h.plain]

theorem Facing.token' : q'.token = false := by rw [h.same, ← h.token]

theorem Facing.position' : q'.position = before.length := by rw [h.same, ← h.position]

theorem Facing.isWhitespace' : q'.isWhitespace = q.isWhitespace := by rw [h.same]

theorem Facing.degenerated' : q'.degenerated = q.degenerated := by rw [h.same]

theorem Facing.name' : q'.name = q.name := by rw [h.same]

theorem Facing.attributes' : q'.attributes = q.attributes := by rw [h.same]

theorem Facing.stepPast' : q'.stepPast.depth = q.stepPast.depth := by
  rw [h.same]
  rfl

end

/-- The state from which the call after an empty tag's end goes on. -/
def SGXmlPullParser.closed (p : SGXmlPullParser) : SGXmlPullParser :=
  { p.stepPast with degenerated := false, type := .END_TAG, isWhitespace := true, token := false }

theorem Facing.closed (h : Facing before blank w post q q') :
    Facing before blank w post q.closed q'.closed := by
  obtain ⟨hplaced, hpeeked, hplain, hrest, -, rfl⟩ := h
  exact ⟨⟨hplaced.keeps, hplaced.aligned, hplaced.buffered⟩, hpeeked, hplain, hrest, rfl, rfl⟩

-- From the instruction on

/-- The parser is in the rest of the document, `n` units behind the instruction. -/
theorem tracks_behind {l r : NSString} {n : Nat} {d : Sharing}
    (hd : d = sharedBehind before blank w post)
    (hsource : p.source = before ++ (blank ++ ((Piece.instruction w).render ++ post)))
    (hsource' : p'.source = before ++ (blank ++ post))
    (hpeeked : p.peeked = l) (hpeeked' : p'.peeked = l) (hrest : p.rest = r) (hrest' : p'.rest = r)
    (hplain : p.rest ≠ [] → p.peekReadedCR = false)
    (hplain' : p'.rest ≠ [] → p'.peekReadedCR = false)
    (hposition : p.position = (before ++ (blank ++ (Piece.instruction w).render)).length + n)
    (hposition' : p'.position = (before ++ blank).length + n)
    (hwhite : p'.isWhitespace = p.isWhitespace) (hdegenerated : p.degenerated = false)
    (hdegenerated' : p'.degenerated = false) (htoken : p.token = false) (htoken' : p'.token = false)
    (hname : p'.name = p.name) (hattributes : p'.attributes = p.attributes)
    (hdepth : p'.depth = p.depth) :
    Tracks d { text := false, type := false, lines := false } p p' := by
  subst hd
  refine ⟨?_, ?_, ⟨r, n, ?_, ?_, fun hne => ?_, hposition, hposition', fun hne => absurd rfl hne⟩,
    hpeeked'.trans hpeeked.symm, hwhite, hdegenerated'.trans hdegenerated.symm,
    htoken, htoken', hname,
    hattributes, hdepth, nofun, nofun, nofun⟩
  · rw [hsource]
    simp [sharedBehind]
  · rw [hsource']
    simp [sharedBehind]
  · rw [hrest]
    exact (List.append_nil r).symm
  · rw [hrest']
    exact (List.append_nil r).symm
  · rw [hplain hne, hplain' (by rw [hrest', ← hrest]; exact hne)]

variable (env features) in
/-- What the parser does with the white space and the instruction in front of it. -/
theorem Facing.consumes (h : Facing before blank w post q q')
    (hvalid : XML_INVALID_UNICHAR ∉ before ++ (blank ++ ((Piece.instruction w).render ++ post)))
    (hw : IsInstruction w) (hne : w ≠ []) (hxm : (Piece.instruction w).isXm = false)
    (hblank : IsBlank blank) (hdegenerated : q.degenerated = false)
    (houtside : blank ≠ [] → q.stepPast.depth = 0) (hsilent : Silent minimum)
    (hfuel : blank.length + (Piece.instruction w).render.length < fuel) :
    ∃ minimum₁ p₁ p₂, Rounds (nextRound env features fuel
      (readName env features fuel)) minimum q minimum₁ p₁ ∧
      Silent minimum₁ ∧ p₁.peeked ++ p₁.rest = (Piece.instruction w).render ++ post ∧
      doNext env features fuel (readName env features fuel) p₁ = .ok .PROCESSING_INSTRUCTION p₂ ∧
      Moved q p₂ .PROCESSING_INSTRUCTION [] post
        (before ++ (blank ++ (Piece.instruction w).render)).length (if blank = []
          then q.isWhitespace else true) := by
  have hsource : before ++ (blank ++ ((Piece.instruction w).render ++ post)) =
      (before ++ blank) ++ ((Piece.instruction w).render ++ post) := (List.append_assoc _ _ _).symm
  by_cases hempty : blank = []
  · subst hempty
    have hunits : q.peeked ++ q.rest = (Piece.instruction w).render ++ post := by
      rw [h.peeked, h.rest]
      rfl
    obtain ⟨p₂, hnext, hmoved⟩ :=
      doNext_instruction env features (readName env features fuel) hsource hvalid
      hw hne hxm h.placed h.token hdegenerated (by rw [h.peeked]; exact Nat.zero_le 1) hunits
      (by simpa using hfuel)
    refine ⟨minimum, q, p₂, .here _ _, hsilent, hunits, hnext, ?_⟩
    rw [if_pos rfl]
    simpa using hmoved
  · have hstops : Stops ((Piece.instruction w).render ++ post) := by
      rw [render_instruction]
      exact .inr ⟨_, rfl⟩
    obtain ⟨p₁, hspace, hmoved₁⟩ :=
      doNext_blank env features (readName env features fuel) hstops hblank hempty
      h.peeked h.plain h.rest h.token hdegenerated (houtside hempty)
        (Nat.lt_of_le_of_lt (Nat.le_add_right _ _) hfuel)
    obtain ⟨hround, hsilent₁⟩ := hsilent.nextRound (by decide) hspace
    have hunits : p₁.peeked ++ p₁.rest = (Piece.instruction w).render ++ post := by
      rw [hmoved₁.peeked, hmoved₁.rest, render_instruction]
      rfl
    have hplaced₁ :=
      maintains_doNext (scanned_placed.readName env features fuel) _ _ _ h.placed hspace
    obtain ⟨p₂, hnext, hmoved₂⟩ :=
      doNext_instruction env features (readName env features fuel) hsource hvalid
      hw hne hxm hplaced₁ hmoved₁.token hmoved₁.degenerated
        (by rw [hmoved₁.peeked]; exact Nat.le_refl 1) hunits
      (Nat.lt_of_le_of_lt (Nat.le_add_left _ _) hfuel)
    refine ⟨_, p₁, p₂, .more hround (.here _ _), hsilent₁, hunits, hnext, ?_⟩
    rw [hmoved₁.isWhitespace, List.append_assoc] at hmoved₂
    rw [if_neg hempty]
    exact hmoved₁.trans (by decide) hmoved₂

theorem fetch_stops {tail : NSString} (htail : Stops tail) (hpeeked : p.peeked = []) :
    ∃ cr eos, (tail.tail ≠ [] → cr = false) ∧ fetch tail p = { p with
      rest := tail.tail, peeked := [tail.headD XML_INVALID_UNICHAR], peekReadedCR :=
        cr, eos := eos } := by
  obtain rfl | ⟨s, rfl⟩ := htail
  · refine ⟨p.peekReadedCR, true, fun hne => absurd rfl hne, ?_⟩
    simp [fetch, hpeeked]
  · refine ⟨false, p.eos, fun _ => rfl, ?_⟩
    rw [fetch_plain (by decide) (by decide) (by decide)]
    simp [hpeeked]

theorem synced_of_peek {d : Sharing} {c : UniChar} (hafter : d.after = [])
    (hpeek : peek 0 p.stepPast = .ok c p₁)
    (h : Tracks d { text := false, type := false, lines := false } p₁ p'.stepPast) :
    Synced d p p' := by
  have hsame : peekType p.stepPast = peekType p₁ := by
    rw [peekType_eq hpeek, peekType_eq (peek_again hpeek)]
  obtain ⟨type, p₂, htype, -⟩ := returns_iff_exists.mp (returns_peekType p.stepPast)
  rw [hsame] at htype
  obtain hover | ⟨p₂', htype', h₂⟩ := tracking_peekType.follows _ _ _ _ h htype
  · exact absurd hover (not_past hafter _)
  · exact ⟨type, p₂, p₂', hsame.trans htype, htype', h₂⟩

theorem Facing.synced (h : Facing before blank w post q q')
    (hp : Moved q p .PROCESSING_INSTRUCTION [] post
      (before ++ (blank ++ (Piece.instruction w).render)).length q.isWhitespace)
    (hempty : blank = []) (hdegenerated : q.degenerated = false) :
    Synced (sharedBehind before blank w post) p q' := by
  have hrest : q'.rest = post := by rw [h.rest', hempty, List.nil_append]
  have hposition : q'.position = (before ++ blank).length + 0 := by
    rw [h.position', hempty, List.append_nil, Nat.add_zero]
  exact synced_of_stepPast rfl (tracks_behind (n := 0) rfl
    (hp.source.trans h.placed.keeps) h.source' hp.peeked h.peeked'
    hp.rest hrest hp.plain (fun _ => h.plain') hp.position hposition
    (h.isWhitespace'.trans hp.isWhitespace.symm) hp.degenerated
    (h.degenerated'.trans hdegenerated) hp.token h.token'
    (h.name'.trans hp.name.symm) (h.attributes'.trans hp.attributes.symm)
    (h.stepPast'.trans (hp.stepPast (by decide)).symm))

variable (env features) in
/-- The white space behind the instruction is read with the one before it when the
instruction is not there. -/
theorem Facing.joined_blank {blank' tail : NSString} {minimum₁ : Option EventType}
    (h : Facing before blank w post q q')
    (hp : Moved q p .PROCESSING_INSTRUCTION [] post
      (before ++ (blank ++ (Piece.instruction w).render)).length true)
    (hblank : IsBlank blank) (hempty : blank ≠ []) (hdegenerated : q.degenerated = false)
    (houtside : q.stepPast.depth = 0) (hpost : post = blank' ++ tail) (hblank' : IsBlank blank')
    (htail : Stops tail) (hsilent : Silent minimum) (hsilent₁ : Silent minimum₁)
    (hfuel : blank.length + post.length < fuel) :
    ∃ m m' x x', Rounds (nextRound env features fuel (readName env features fuel)) minimum₁ p m x ∧
      Rounds (nextRound env features fuel (readName env features fuel)) minimum q' m' x' ∧
      Joined (sharedBehind before blank w post) m m' x x' := by
  have hunits : blank ++ post = (blank ++ blank') ++ tail := by rw [hpost, List.append_assoc]
  have hall : IsBlank (blank ++ blank') := List.forall_mem_append.mpr ⟨hblank, hblank'⟩
  have hlength : (blank ++ blank').length < fuel := by
    rw [hpost, List.length_append] at hfuel
    rw [List.length_append]
    omega
  obtain ⟨p', hspace', hp'⟩ := doNext_blank env features (readName env features fuel) htail hall
    (by simp [hempty])
    h.peeked' h.plain' (h.rest'.trans hunits) h.token' (h.degenerated'.trans hdegenerated)
      (h.stepPast'.trans houtside)
    hlength
  obtain ⟨hround', hsilent'⟩ := hsilent.nextRound (by decide) hspace'
  have hposition' : p'.position = (before ++ blank).length + blank'.length := by
    rw [hp'.position, h.position', List.length_append, List.length_append, Nat.add_assoc]
  have hsource' := hp'.source.trans h.source'
  have hname := hp'.name.trans h.name'
  have hattributes := hp'.attributes.trans h.attributes'
  have hdepth : p'.stepPast.depth = p.stepPast.depth :=
    (hp'.stepPast (by decide)).trans (h.stepPast'.trans (hp.stepPast (by decide)).symm)
  by_cases hnone : blank' = []
  · -- the parser has yet to look at what stands behind
    subst hnone
    have hpeek := peek_fetch (p := p.stepPast) hp.peeked
    obtain ⟨cr, eos, hcr, hfetch⟩ := fetch_stops (p := p.stepPast) htail hp.peeked
    have hrest : p.stepPast.rest = tail := hp.rest.trans hpost
    rw [hrest, hfetch] at hpeek
    refine ⟨minimum₁, _, p, p', .here _ _, .more hround' (.here _ _), .inl ⟨hsilent₁, hsilent', ?_⟩⟩
    refine synced_of_peek rfl hpeek (tracks_behind (n := 0) rfl
      (hp.source.trans h.placed.keeps) hsource'
      rfl hp'.peeked rfl hp'.rest hcr hp'.plain hp.position hposition'
      (hp'.isWhitespace.trans hp.isWhitespace.symm) hp.degenerated hp'.degenerated
      hp.token hp'.token
      (hname.trans hp.name.symm) (hattributes.trans hp.attributes.symm) hdepth)
  · have hplain : p.peekReadedCR = false := hp.plain (by rw [hp.rest, hpost]; simp [hnone])
    have hfuel' : blank'.length < fuel := by
      rw [hpost, List.length_append] at hfuel
      omega
    obtain ⟨p₁, hspace, hp₁⟩ :=
      doNext_blank env features (readName env features fuel) htail hblank' hnone
      hp.peeked hplain (hp.rest.trans hpost) hp.token hp.degenerated
        ((hp.stepPast (by decide)).trans houtside) hfuel'
    obtain ⟨hround, hsilent₂⟩ := hsilent₁.nextRound (by decide) hspace
    have hposition : p₁.position =
        (before ++ (blank ++ (Piece.instruction w).render)).length + blank'.length := by
      rw [hp₁.position, hp.position]
    refine ⟨_, _, p₁, p', .more hround (.here _ _), .more hround' (.here _ _),
      .inl ⟨hsilent₂, hsilent', synced_of_stepPast rfl ?_⟩⟩
    exact tracks_behind (n := blank'.length) rfl
      (hp₁.source.trans (hp.source.trans h.placed.keeps)) hsource'
      hp₁.peeked hp'.peeked hp₁.rest hp'.rest hp₁.plain hp'.plain hposition hposition'
      (hp'.isWhitespace.trans hp₁.isWhitespace.symm) hp₁.degenerated hp'.degenerated
      hp₁.token hp'.token
      (hname.trans (hp₁.name.trans hp.name).symm)
      (hattributes.trans (hp₁.attributes.trans hp.attributes).symm)
      (hdepth.trans (hp₁.stepPast (by decide)).symm)

structure IsApart (before blank w post : NSString) : Prop where
  valid : XML_INVALID_UNICHAR ∉ before ++ (blank ++ ((Piece.instruction w).render ++ post))
  instruction : IsInstruction w
  target : w ≠ []
  plain : (Piece.instruction w).isXm = false
  blank : IsBlank blank

/-- White space before the instruction stands outside of the elements, and a tag or the end
comes behind it and the white space after it. -/
def Outside (blank post : NSString) (depth : Int) : Prop :=
  blank ≠ [] → depth = 0 ∧ ∃ blank' tail, post = blank' ++ tail ∧ IsBlank blank' ∧ Stops tail

/-- The parsers deliver the same events, and the first one consumes the instruction. -/
theorem Facing.goes_iff (h : Facing before blank w post q q') (hapart : IsApart before blank w post)
    (hdegenerated : q.degenerated = false) (houtside : Outside blank post q.stepPast.depth)
    (hsilent : Silent minimum) :
    Goes env features minimum q events ↔ Goes env features minimum q' events := by
  obtain ⟨fuel, hfuel⟩ : ∃ fuel, blank.length + (Piece.instruction w).render.length +
    post.length < fuel :=
    ⟨_, Nat.lt_succ_self _⟩
  obtain ⟨minimum₁, p₁, p₂, hrounds, hsilent₁, -, hnext, hmoved⟩ := h.consumes env features
    hapart.valid hapart.instruction hapart.target hapart.plain hapart.blank
    hdegenerated (fun hne => (houtside hne).1) hsilent (Nat.lt_of_le_of_lt
      (Nat.le_add_right _ _) hfuel)
  obtain ⟨hround, hsilent₂⟩ := hsilent₁.nextRound (by decide) hnext
  have hpassed := hrounds.snoc hround
  rw [goes_rounds_iff h.token hpassed]
  by_cases hempty : blank = []
  · rw [if_pos hempty] at hmoved
    exact goes_iff_of_joined rfl (.inl ⟨hsilent₂, hsilent, h.synced hmoved hempty hdegenerated⟩)
  · rw [if_neg hempty] at hmoved
    obtain ⟨hdepth, blank', tail, hpost, hblank', htail⟩ := houtside hempty
    have hfuel' : blank.length + post.length < fuel := by omega
    obtain ⟨m, m', x, x', hx, hx', hjoined⟩ := h.joined_blank env features
      hmoved hapart.blank hempty hdegenerated hdepth hpost hblank' htail hsilent hsilent₂ hfuel'
    rw [goes_rounds_iff hmoved.token hx, goes_rounds_iff h.token' hx']
    exact goes_iff_of_joined rfl hjoined

variable (env features) in
theorem nextRound_degenerated (h : q.degenerated = true) (hpeek : peekType q.stepPast = .ok type p₁)
    (hsilent : Silent minimum) (fuel : Nat) :
    ∃ z, nextRound env features (fuel + 1) (readName env features (fuel + 1)) minimum q =
      .ok (.inr .END_TAG) z ∧
      (z.answer .END_TAG).event = { type := .END_TAG, name := q.name } ∧
      (z.answer .END_TAG).startNext false = q.closed.withBuffer p₁ := by
  have hbuffer := withBuffer_of_peekType hpeek
  refine ⟨{ p₁ with degenerated := false, type := .END_TAG }, ?_, ?_, ?_⟩
  · show (doNext env features (fuel + 1) (readName env features (fuel + 1)) >>= _) q = _
    rw [bind_of_ok (doNext_of_degenerated h hpeek fuel), hsilent.minType_eq (by decide)]
    rfl
  · rw [hbuffer]
    rfl
  · rw [hbuffer]
    rfl

/-- The end of an empty tag is an event of its own, and the next call looks at the same units. -/
theorem goes_degenerated_iff (htoken : q.token = false) (h : q.degenerated = true)
    (hsilent : Silent minimum) :
    Goes env features minimum q events ↔
      ∃ rest, events = { type := .END_TAG, name := q.name } :: rest ∧
      (rest = [] ∨ Goes env features none q.closed rest) := by
  obtain ⟨type, p₁, hpeek, -⟩ := returns_iff_exists.mp (returns_peekType q.stepPast)
  obtain ⟨z, hround, hevent, hstart⟩ := nextRound_degenerated env features h hpeek hsilent 0
  have hsame : ∀ fuel, doNext env features fuel (readName env features fuel)
    (q.closed.withBuffer p₁) =
      doNext env features fuel (readName env features fuel) q.closed :=
    fun fuel => doNext_looked hpeek q.closed
  rw [goes_answer_iff htoken hround, hevent, hstart]
  have hclosed : ∀ rest, Goes env features none (q.closed.withBuffer p₁) rest ↔
      Goes env features none q.closed rest := fun rest =>
    ⟨goes_congr hsame, goes_congr fun fuel => (hsame fuel).symm⟩
  simp only [hclosed]

def SGXmlPullParser.level (p : SGXmlPullParser) : Int :=
  if p.degenerated then p.stepPast.depth - 1 else p.stepPast.depth

theorem Facing.goes_iff_level (h : Facing before blank w post q q')
    (hapart : IsApart before blank w post)
    (houtside : Outside blank post q.level) (hsilent : Silent minimum) :
    Goes env features minimum q events ↔ Goes env features minimum q' events := by
  by_cases hdegenerated : q.degenerated = true
  · have hclosed : ∀ rest, Goes env features none q.closed rest ↔
        Goes env features none q'.closed rest := fun rest =>
      h.closed.goes_iff hapart rfl
        (by rw [SGXmlPullParser.level, if_pos hdegenerated] at houtside; exact houtside) nofun
    rw [goes_degenerated_iff h.token hdegenerated hsilent,
      goes_degenerated_iff h.token' (h.degenerated'.trans hdegenerated) hsilent, h.name']
    simp only [hclosed]
  · rw [SGXmlPullParser.level, if_neg hdegenerated] at houtside
    exact h.goes_iff hapart (Bool.eq_false_iff.mpr hdegenerated) houtside hsilent

-- The documents

theorem peekType_legacy (hpeeked : p.peeked = []) (hrest : p.rest = uc '<' :: uc '?' :: s) :
    peekType p = .ok .LEGACY { p with rest := s, peeked := ns "<?", peekReadedCR := false } := by
  have hfirst := peek_fetch hpeeked
  rw [hrest, fetch_plain (by decide) (by decide) (by decide), hpeeked, List.nil_append] at hfirst
  rw [peekType_eq hfirst]
  show ((peek 1 >>= _ : Parser EventType) _) = _
  rw [bind_of_ok (peek_eq _ _)]
  show Outcome.ok _ (fetch (uc '?' :: s) _) = _
  rw [fetch_plain (by decide) (by decide) (by decide)]
  rfl

end

section
variable (env : Environment) (features : Features) (before blank w post : NSString)

/-- A call of `next` comes to the white space and the instruction before it delivers anything. -/
def Comes : Prop :=
  ∃ fuel events p minimum q,
    Calls env features fuel
      (setInputSource (before ++ (blank ++ ((Piece.instruction w).render ++ post)))) events p ∧
    Rounds (nextRound env features fuel (readName env features fuel)) none
      (p.startNext false) minimum q ∧
    Silent minimum ∧ q.peeked = [] ∧ q.peekReadedCR = false ∧
    q.rest = blank ++ ((Piece.instruction w).render ++ post) ∧ Outside blank post q.level

/-- A step of a call takes the parser from the start of the instruction to its end. -/
def Consumes : Prop :=
  ∃ fuel events p minimum q p',
    Calls env features fuel
      (setInputSource (before ++ ((Piece.instruction w).render ++ post))) events p ∧
    Rounds (nextRound env features fuel (readName env features fuel)) none
      (p.startNext false) minimum q ∧
    q.peeked ++ q.rest = (Piece.instruction w).render ++ post ∧
    doNext env features fuel (readName env features fuel) q = .ok .PROCESSING_INSTRUCTION p' ∧
    p'.peeked = [] ∧ p'.rest = post ∧ p'.position = (before ++ (Piece.instruction w).render).length

variable {env features before blank w post}

theorem tracks_start : Tracks (sharedBefore before blank w post) {}
    (setInputSource (before ++ (blank ++ ((Piece.instruction w).render ++ post))))
    (setInputSource (before ++ (blank ++ post))) where
  source := by simp [setInputSource, sharedBefore]
  source' := by simp [setInputSource, sharedBefore]
  ahead := ⟨before ++ blank, 0, (List.append_assoc _ _ _).symm, (List.append_assoc _ _ _).symm,
    fun _ => rfl, rfl,
    rfl, fun _ => by simp [setInputSource, sharedBefore]⟩
  peeked := rfl
  isWhitespace := rfl
  degenerated := rfl
  token := rfl
  token' := rfl
  name := rfl
  attributes := rfl
  depth := rfl
  text _ := rfl
  type _ := rfl
  lines _ := ⟨rfl, rfl, rfl, rfl⟩

theorem rounds_more {fuel fuel' : Nat} {minimum minimum' : Option EventType}
    {p p' : SGXmlPullParser}
    (htoken : p.token = false) (hfuel : fuel ≤ fuel')
    (h : Rounds (nextRound env features fuel (readName env features fuel)) minimum p minimum' p') :
    Rounds (nextRound env features fuel' (readName env features fuel')) minimum p minimum' p' := by
  induction h with
  | here b s => exact .here b s
  | more hround _ ih =>
    obtain ⟨hround', htoken'⟩ := nextRound_more htoken hfuel hround
    exact .more hround' (ih htoken')

theorem Comes.facing (h : Comes env features before blank w post) :
    ∃ fuel events p p' minimum q q',
      Calls env features fuel
        (setInputSource (before ++ (blank ++ ((Piece.instruction w).render ++ post)))) events p ∧
      Calls env features fuel (setInputSource (before ++ (blank ++ post))) events p' ∧
      Rounds (nextRound env features fuel (readName env features fuel)) none
        (p.startNext false) minimum q ∧
      Rounds (nextRound env features fuel (readName env features fuel)) none
        (p'.startNext false) minimum q' ∧
      Silent minimum ∧ Outside blank post q.level ∧ Facing before blank w post q q' := by
  obtain ⟨fuel, events, p, minimum, q, hcalls, hrounds, hsilent, hpeeked, hplain,
      hrest, houtside⟩ := h
  have hreads : Maintains (Placed (before ++ (blank ++ ((Piece.instruction w).render ++ post))))
      (readName env features fuel) := scanned_placed.readName env features fuel
  have hp : Placed _ p := hcalls.maintains (maintains_call hreads .next) (placed_setInputSource _)
  have hq : Placed _ q :=
    hrounds.maintains (maintains_nextRound hreads) ⟨hp.keeps, hp.aligned, hp.buffered⟩
  have hround : ∀ minimum, Tracking (sharedBefore before blank w post) {}
      (nextRound env features fuel (readName env features fuel) minimum)
      (nextRound env features fuel (readName env features fuel) minimum) :=
    tracking_nextRound (Nat.le_refl fuel) rfl rfl
  have hnot : ¬ (sharedBefore before blank w post).past q := by
    rw [Sharing.past, hrest, List.length_append]
    exact Nat.not_lt_of_le (Nat.le_add_left _ _)
  have hnot' : ¬ (sharedBefore before blank w post).past p := fun hpast =>
    hnot (hrounds.maintains (fun b => (hround b).maintains) hpast)
  obtain ⟨p', hcalls', htracks⟩ := hcalls.carries hnot' tracks_start
  obtain ⟨q', hrounds', htracks'⟩ := hrounds.carries hround hnot (t := p'.startNext false)
    { htracks with isWhitespace := rfl, token := rfl, token' := rfl }
  exact ⟨fuel, events, p, p', minimum, q, q', hcalls, hcalls', hrounds, hrounds', hsilent, houtside,
    facing_of_tracks hq hpeeked hplain hrest htracks'⟩

theorem Comes.yields_iff (h : Comes env features before blank w post)
    (hapart : IsApart before blank w post)
    (events : List Event) :
    Yields env features (before ++ (blank ++ ((Piece.instruction w).render ++ post))) events ↔
      Yields env features (before ++ (blank ++ post)) events := by
  obtain ⟨fuel, first, p, p', minimum, q, q', hcalls, hcalls', hrounds, hrounds',
    hsilent, houtside, hfacing⟩ := h.facing
  have hgoes : ∀ rest, Goes env features none (p.startNext false) rest ↔
      Goes env features none (p'.startNext false) rest := by
    intro rest
    rw [goes_rounds_iff rfl hrounds, goes_rounds_iff rfl hrounds',
      hfacing.goes_iff_level hapart houtside hsilent]
  exact ⟨yields_of_goes hcalls hcalls' fun rest => (hgoes rest).mp,
    yields_of_goes hcalls' hcalls fun rest => (hgoes rest).mpr⟩

theorem Comes.consumes (h : Comes env features before blank w post)
    (hapart : IsApart before blank w post) :
    Consumes env features (before ++ blank) w post := by
  obtain ⟨fuel, events, p, _, minimum, q, q', hcalls, -, hrounds, -, hsilent, houtside, hfacing⟩ :=
    h.facing
  rw [Consumes, List.append_assoc, List.append_assoc]
  obtain ⟨-, k, hk⟩ := loop_rounds rfl hrounds
  obtain ⟨n, hn⟩ :
      ∃ n, n = max fuel (max (k + 1) (blank.length + (Piece.instruction w).render.length)) :=
        ⟨_, rfl⟩
  have hfuel : fuel ≤ n + 1 := by omega
  have henough : blank.length + (Piece.instruction w).render.length < n + 1 := by omega
  have hcalls' := hcalls.more hfuel
  have hrounds' := rounds_more rfl hfuel hrounds
  by_cases hdegenerated : q.degenerated = true
  · rw [SGXmlPullParser.level, if_pos hdegenerated] at houtside
    obtain ⟨m, x, x', hx, -, hunits, hnext, hmoved⟩ :=
      hfacing.closed.consumes env features hapart.valid
      hapart.instruction hapart.target hapart.plain hapart.blank rfl (fun hne => (houtside hne).1)
      (show Silent none from nofun) henough
    obtain ⟨type, q₁, hpeek, -⟩ := returns_iff_exists.mp (returns_peekType q.stepPast)
    obtain ⟨z, hround, -, hstart⟩ := nextRound_degenerated env features hdegenerated hpeek hsilent n
    have hsame : doNext env features (n + 1) (readName env features (n + 1))
      (q.closed.withBuffer q₁) =
        doNext env features (n + 1) (readName env features (n + 1)) q.closed :=
      doNext_looked hpeek q.closed
    have hlast : loop (nextRound env features (n + 1) (readName env features (n + 1))) (1 + k) none
        (p.startNext false) = .ok .END_TAG z := by
      rw [hk _ hfuel, loop, bind_of_ok hround]
      rfl
    have hended := hcalls'.append (.call (next_eq_iff.mpr ⟨.END_TAG, z,
      loop_more rfl (Nat.le_refl _) (by omega) hlast, rfl, rfl⟩) (.done _))
    cases hx with
    | here =>
      -- the parser has looked at the instruction for the end of the empty tag
      rw [← hsame] at hnext
      refine ⟨n + 1, _, _, none, q.closed.withBuffer q₁, x', hended, hstart ▸ .here _ _,
        ?_, hnext, hmoved.peeked,
        hmoved.rest, hmoved.position⟩
      have hrest : q.stepPast.rest = (Piece.instruction w).render ++ post := by
        rw [show q.closed.peeked = [] from hfacing.peeked, List.nil_append] at hunits
        exact hunits
      rw [render_instruction] at hrest
      rw [peekType_legacy (p := q.stepPast) hfacing.peeked hrest] at hpeek
      cases hpeek
      rw [render_instruction]
      rfl
    | more hfirst hrest =>
      have hfirst' := (bind_congr hsame).trans hfirst
      refine ⟨n + 1, _, _, m, x, x', hended, hstart ▸ .more hfirst' hrest, hunits,
        hnext, hmoved.peeked,
        hmoved.rest, hmoved.position⟩
  · rw [SGXmlPullParser.level, if_neg hdegenerated] at houtside
    obtain ⟨m, x, x', hx, -, hunits, hnext, hmoved⟩ := hfacing.consumes env features hapart.valid
      hapart.instruction hapart.target hapart.plain hapart.blank
        (Bool.eq_false_iff.mpr hdegenerated)
      (fun hne => (houtside hne).1) hsilent henough
    exact ⟨n + 1, events, p, m, x, x', hcalls', hrounds'.append hx, hunits, hnext,
      hmoved.peeked, hmoved.rest,
      hmoved.position⟩

theorem removed_of_comes (hapart : IsApart before blank w post)
    (h : Comes env features before blank w post) :
    Consumes env features (before ++ blank) w post ∧
      ∀ events, Yields env features
        (before ++ (blank ++ ((Piece.instruction w).render ++ post))) events ↔
        Yields env features (before ++ (blank ++ post)) events :=
  ⟨h.consumes hapart, h.yields_iff hapart⟩

end

/-- `<a><?p q?>x</a>` -/
theorem removed_in_element :
    Consumes asciiEnvironment {} (ns "<a>" ++ []) (ns "p q") (ns "x</a>") ∧ ∀ events,
      (Yields asciiEnvironment {}
        (ns "<a>" ++ ([] ++ ((Piece.instruction (ns "p q")).render ++ ns "x</a>"))) events ↔
        Yields asciiEnvironment {} (ns "<a>" ++ ([] ++ ns "x</a>")) events) := by
  refine removed_of_comes ⟨by decide, by decide, by decide, rfl, nofun⟩ ?_
  have hfirst : Returns (fun _ p => p.peeked = [] ∧ p.peekReadedCR = false ∧
      p.rest = (Piece.instruction (ns "p q")).render ++ ns "x</a>")
      (next asciiEnvironment {} 20 (readName asciiEnvironment {} 20)
        (setInputSource
          (ns "<a>" ++ ([] ++ ((Piece.instruction (ns "p q")).render ++ ns "x</a>"))))) := by
    decide +kernel
  obtain ⟨type, p, hnext, hpeeked, hplain, hrest⟩ := returns_iff_exists.mp hfirst
  exact ⟨20, [p.event], p, none, p.startNext false, .call hnext (.done p), .here _ _,
    nofun, hpeeked, hplain, hrest,
    fun hne => absurd rfl hne⟩

/-- `<a><?xml-stylesheet x?></a>`: the target is left in part to the text of the element. -/
theorem not_removed_stylesheet :
    IsInstruction (ns "xml-stylesheet x") ∧ ¬ ∀ events,
      (Yields asciiEnvironment {}
          (ns "<a>" ++ ((Piece.instruction (ns "xml-stylesheet x")).render ++ ns "</a>")) events ↔
        Yields asciiEnvironment {} (ns "<a>" ++ ns "</a>") events) := by
  refine ⟨by decide, fun h => ?_⟩
  have hyields : Yields asciiEnvironment {}
      (ns "<a>" ++ ((Piece.instruction (ns "xml-stylesheet x")).render ++ ns "</a>"))
      [{ type := .START_TAG, name := some (ns "a") },
        { type := .TEXT, text := ns "l-stylesheet x?>" }] :=
    yields_of_eventsOf 30 2 (by decide +kernel)
  have hplain : Yields asciiEnvironment {} (ns "<a>" ++ ns "</a>")
      [{ type := .START_TAG, name := some (ns "a") },
        { type := .END_TAG, name := some (ns "a") }] :=
    yields_of_eventsOf 30 2 (by decide +kernel)
  have hdiffer := ((h _).mp hyields).comparable hplain
  revert hdiffer
  decide

end BathyScaphe.Xml
