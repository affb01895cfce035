import BathyScaphe.Xml.Depth
import BathyScaphe.Xml.Tracking

/-!
# The events of a source

What a client reads off the parser after each call of `next`. A source delivers events
when the calls deliver them with enough rounds for each loop; more rounds change
nothing. A call that has come to a round goes on from there, and parsers that go on
side by side deliver the same events.
-/

namespace BathyScaphe.Xml

open NSString Comp

structure Event where
  type : EventType
  name : Option NSString := none
  attributes : List (NSString × NSString) := []
  text : NSString := []
  deriving DecidableEq

def SGXmlPullParser.event (p : SGXmlPullParser) : Event :=
  match p.type with
  | .START_TAG => { type := .START_TAG, name := p.name, attributes := p.attributes }
  | .END_TAG => { type := .END_TAG, name := p.name }
  | .TEXT => { type := .TEXT, text := p.textBuf }
  | type => { type }

def SGXmlPullParser.answer (minimum : EventType) (p : SGXmlPullParser) : SGXmlPullParser :=
  { p with type := if EventType.TEXT.code < minimum.code then .TEXT else minimum }

section
variable (env : Environment) (features : Features)

/-- The events of calls of `next` one after the other. -/
inductive Calls (fuel : Nat) : SGXmlPullParser → List Event → SGXmlPullParser → Prop
  | done (p : SGXmlPullParser) : Calls fuel p [] p
  | call {p p₁ p' : SGXmlPullParser} {type : EventType} {events : List Event} :
      next env features fuel (readName env features fuel) p = .ok type p₁ →
      Calls fuel p₁ events p' → Calls fuel p (p₁.event :: events) p'

def Yields (source : NSString) (events : List Event) : Prop :=
  ∃ fuel p, Calls env features fuel (setInputSource source) events p

/-- The events of so many calls of `next`, where none of them raises. -/
def eventsOf (fuel : Nat) : Nat → SGXmlPullParser → Option (List Event)
  | 0, _ => some []
  | n + 1, p =>
    match next env features fuel (readName env features fuel) p with
    | .ok _ p => (eventsOf fuel n p).map (p.event :: ·)
    | _ => none

/-- A call goes on from a round and delivers the first event, and further calls deliver
the others. -/
def Goes (minimum : Option EventType) (p : SGXmlPullParser) (events : List Event) : Prop :=
  ∃ fuel rounds type p₁ p₂ rest,
    loop (nextRound env features fuel (readName env features fuel)) rounds minimum p = .ok type p₁ ∧
    events = (p₁.answer type).event :: rest ∧ Calls env features fuel (p₁.answer type) rest p₂

end

section
variable {env : Environment} {features : Features} {fuel fuel' : Nat} {p p' p₁ : SGXmlPullParser}
  {minimum : Option EventType} {type : EventType} {events : List Event} {source : NSString}

-- More rounds

def Sharing.whole (source : NSString) : Sharing := ⟨[], [], source, [], [], ended_nil⟩

theorem tracks_self (h : p.token = false) : Tracks (.whole p.source) {} p p where
  source := (List.append_nil _).symm
  source' := (List.append_nil _).symm
  ahead := ⟨p.rest, p.position, (List.append_nil _).symm, (List.append_nil _).symm, fun _ => rfl,
    (Nat.zero_add _).symm, (Nat.zero_add _).symm, fun hne => absurd rfl hne⟩
  peeked := rfl
  isWhitespace := rfl
  degenerated := rfl
  token := h
  token' := h
  name := rfl
  attributes := rfl
  depth := rfl
  text _ := rfl
  type _ := rfl
  lines _ := ⟨rfl, rfl, rfl, rfl⟩

theorem Tracks.eq (h : Tracks (.whole source) {} p p') : p' = p := by
  obtain ⟨hsource, hsource', ⟨r, n, hrest, hrest', -, hn, hn', -⟩, hpeeked, hwhite,
    hdegenerated, htoken, htoken',
    hname, hattributes, hdepth, htext, htype, hlines⟩ := h
  obtain ⟨heos, hcr, hline, hcolumn⟩ := hlines rfl
  cases p
  cases p'
  simp only [SGXmlPullParser.mk.injEq]
  exact ⟨hsource'.trans hsource.symm, hrest'.trans hrest.symm, hn'.trans hn.symm,
    hpeeked, hcr, hwhite,
    hdegenerated, htoken'.trans htoken.symm, heos, htype rfl, hname, hattributes,
    hdepth, hline, hcolumn,
    htext rfl⟩

/-- A computation that keeps parsers side by side gives the same result with more rounds. -/
theorem ok_of_tracking {α : Type} {x y : Parser α} {a : α} (h : Tracking (.whole p.source) {} x y)
    (htoken : p.token = false) (hx : x p = .ok a p') : y p = .ok a p' ∧ p'.token = false := by
  obtain hpast | ⟨t, hy, ht⟩ := h.follows p p a p' (tracks_self htoken) hx
  · exact absurd hpast (Nat.not_lt_zero _)
  · rw [← ht.eq]
    rw [ht.eq] at hy ⊢
    exact ⟨hy, ht.token⟩

theorem nextRound_more (htoken : p.token = false) (hfuel : fuel ≤ fuel')
    (h : nextRound env features fuel (readName env features fuel) minimum p = .ok r p') :
    nextRound env features fuel' (readName env features fuel') minimum p = .ok r p' ∧
      p'.token = false :=
  ok_of_tracking (tracking_nextRound hfuel rfl rfl minimum) htoken h

theorem loop_more (htoken : p.token = false) (hfuel : fuel ≤ fuel') (hrounds : n ≤ n')
    (h : loop (nextRound env features fuel (readName env features fuel)) n minimum p =
      .ok type p') :
    loop (nextRound env features fuel' (readName env features fuel')) n' minimum p =
      .ok type p' := by
  refine (ok_of_tracking (carries_loop (fun _ => Tracks _ _)
    (fun minimum => ?_) hrounds minimum) htoken h).1
  refine (tracking_nextRound hfuel rfl rfl minimum).imp fun r s s' h => ?_
  cases r with
  | inl m => exact h
  | inr t => exact h

theorem next_eq_iff : next env features fuel (readName env features fuel) p = .ok type p₁ ↔
    ∃ minimum q, loop (nextRound env features fuel (readName env features fuel)) fuel none
      (p.startNext false) = .ok minimum q ∧ p₁ = q.answer minimum ∧ type = p₁.type := by
  constructor
  · intro h
    obtain ⟨_, _, hstart, hrest⟩ := exists_of_bind h
    cases hstart
    obtain ⟨minimum, q, hloop, hrest⟩ := exists_of_bind hrest
    cases hrest
    exact ⟨minimum, q, hloop, rfl, rfl⟩
  · rintro ⟨minimum, q, hloop, rfl, rfl⟩
    show (loop (nextRound env features fuel (readName env features fuel)) fuel none >>= _)
      (p.startNext false) = _
    rw [bind_of_ok hloop]
    rfl

theorem next_more (hfuel : fuel ≤ fuel')
    (h : next env features fuel (readName env features fuel) p = .ok type p₁) :
    next env features fuel' (readName env features fuel') p = .ok type p₁ := by
  obtain ⟨minimum, q, hloop, hq⟩ := next_eq_iff.mp h
  exact next_eq_iff.mpr ⟨minimum, q, loop_more rfl hfuel hfuel hloop, hq⟩

theorem Calls.more (hfuel : fuel ≤ fuel') (h : Calls env features fuel p events p') :
    Calls env features fuel' p events p' := by
  induction h with
  | done p => exact .done p
  | call hnext _ ih => exact .call (next_more hfuel hnext) ih

-- Calls one after the other

theorem Calls.append {events' : List Event} (h : Calls env features fuel p events p₁)
    (h' : Calls env features fuel p₁ events' p') :
    Calls env features fuel p (events ++ events') p' := by
  induction h with
  | done p => exact h'
  | call hnext _ ih => exact .call hnext (ih h')

theorem Calls.of_append {events' : List Event}
    (h : Calls env features fuel p (events ++ events') p') :
    ∃ q, Calls env features fuel p events q ∧ Calls env features fuel q events' p' := by
  induction events generalizing p with
  | nil => exact ⟨p, .done p, h⟩
  | cons e events ih =>
    cases h with
    | call hnext hrest =>
      obtain ⟨q, hfirst, hsecond⟩ := ih hrest
      exact ⟨q, .call hnext hfirst, hsecond⟩

theorem calls_of_eventsOf (h : eventsOf env features fuel n p = some events) :
    ∃ p', Calls env features fuel p events p' := by
  induction n generalizing p events with
  | zero =>
    cases h
    exact ⟨p, .done p⟩
  | succ n ih =>
    rw [eventsOf] at h
    split at h
    · rename_i type p₁ hnext
      obtain ⟨rest, hrest, rfl⟩ := Option.map_eq_some_iff.mp h
      obtain ⟨p', hcalls⟩ := ih hrest
      exact ⟨p', .call hnext hcalls⟩
    · cases h

variable (fuel) in
theorem yields_of_eventsOf (n : Nat)
    (h : eventsOf env features fuel n (setInputSource source) = some events) :
    Yields env features source events := by
  obtain ⟨p', hcalls⟩ := calls_of_eventsOf h
  exact ⟨fuel, p', hcalls⟩

theorem Calls.linear {events' : List Event} {q : SGXmlPullParser}
    (h : Calls env features fuel p events p')
    (h' : Calls env features fuel p events' q) :
    (∃ rest, events' = events ++ rest ∧ Calls env features fuel p' rest q) ∨
      ∃ rest, events = events' ++ rest ∧ Calls env features fuel q rest p' := by
  induction h generalizing events' with
  | done p => exact .inl ⟨events', rfl, h'⟩
  | @call p p₁ p' type events hnext hrest ih =>
    cases h' with
    | done => exact .inr ⟨p₁.event :: events, rfl, .call hnext hrest⟩
    | call hnext' hrest' =>
      rw [hnext] at hnext'
      cases hnext'
      obtain ⟨rest, rfl, hgoes⟩ | ⟨rest, rfl, hgoes⟩ := ih hrest'
      · exact .inl ⟨rest, rfl, hgoes⟩
      · exact .inr ⟨rest, rfl, hgoes⟩

theorem Yields.comparable {events' : List Event} (h : Yields env features source events)
    (h' : Yields env features source events') : events <+: events' ∨ events' <+: events := by
  obtain ⟨fuel₁, p₁, hcalls⟩ := h
  obtain ⟨fuel₂, p₂, hcalls'⟩ := h'
  obtain ⟨rest, heq, -⟩ | ⟨rest, heq, -⟩ := (hcalls.more (Nat.le_max_left fuel₁ fuel₂)).linear
    (hcalls'.more (Nat.le_max_right fuel₁ fuel₂))
  · exact .inl ⟨rest, heq.symm⟩
  · exact .inr ⟨rest, heq.symm⟩

/-- The events of calls are those of a call that goes on from its first round. -/
theorem goes_none_iff : Goes env features none (p.startNext false) events ↔
    events ≠ [] ∧ ∃ fuel p', Calls env features fuel p events p' := by
  constructor
  · rintro ⟨fuel, rounds, type, p₁, p₂, rest, hloop, rfl, hcalls⟩
    refine ⟨List.cons_ne_nil _ _, max fuel rounds, p₂,
      .call (next_eq_iff.mpr ⟨type, p₁, ?_, rfl, rfl⟩) ?_⟩
    · exact loop_more rfl (Nat.le_max_left _ _) (Nat.le_max_right _ _) hloop
    · exact hcalls.more (Nat.le_max_left _ _)
  · rintro ⟨hne, fuel, p', hcalls⟩
    cases hcalls with
    | done => exact absurd rfl hne
    | call hnext hrest =>
      obtain ⟨minimum, q, hloop, rfl, -⟩ := next_eq_iff.mp hnext
      exact ⟨fuel, fuel, minimum, q, p', _, hloop, rfl, hrest⟩

theorem goes_answer_iff (htoken : p.token = false)
    (h : nextRound env features fuel (readName env features fuel) minimum p = .ok (.inr type) p₁) :
    Goes env features minimum p events ↔ ∃ rest, events = (p₁.answer type).event :: rest ∧
      (rest = [] ∨ Goes env features none ((p₁.answer type).startNext false) rest) := by
  constructor
  · rintro ⟨fuel₁, rounds, type', q, p₂, rest, hloop, rfl, hcalls⟩
    have hround := (nextRound_more htoken (Nat.le_max_left fuel fuel₁) h).1
    have hloop' := loop_more htoken (Nat.le_max_right fuel fuel₁) (Nat.le_succ rounds) hloop
    rw [loop, bind_of_ok hround] at hloop'
    cases hloop'
    refine ⟨rest, rfl, ?_⟩
    by_cases hne : rest = []
    · exact .inl hne
    · exact .inr (goes_none_iff.mpr ⟨hne, fuel₁, p₂, hcalls⟩)
  · rintro ⟨rest, rfl, hrest⟩
    have hcalls : ∃ fuel p₂, Calls env features fuel (p₁.answer type) rest p₂ := by
      obtain rfl | hgoes := hrest
      · exact ⟨0, _, .done _⟩
      · exact (goes_none_iff.mp hgoes).2
    obtain ⟨fuel₁, p₂, hcalls⟩ := hcalls
    refine ⟨max fuel fuel₁, 1, type, p₁, p₂, rest, ?_, rfl, hcalls.more (Nat.le_max_right _ _)⟩
    rw [loop, bind_of_ok (nextRound_more htoken (Nat.le_max_left fuel fuel₁) h).1]
    rfl

theorem loop_rounds (htoken : p.token = false)
    (h : Rounds (nextRound env features fuel (readName env features fuel)) minimum p minimum' p') :
    p'.token = false ∧ ∃ k, ∀ fuel' ≥ fuel, ∀ n,
      loop (nextRound env features fuel' (readName env features fuel')) (n + k) minimum p =
        loop (nextRound env features fuel' (readName env features fuel')) n minimum' p' := by
  induction h with
  | here b s => exact ⟨htoken, 0, fun fuel' _ n => rfl⟩
  | more hround _ ih =>
    obtain ⟨htoken', k, hk⟩ := ih (nextRound_more htoken (Nat.le_refl _) hround).2
    refine ⟨htoken', k + 1, fun fuel' hfuel n => ?_⟩
    rw [← Nat.add_assoc, loop, bind_of_ok (nextRound_more htoken hfuel hround).1]
    exact hk fuel' hfuel n

theorem goes_rounds_iff (htoken : p.token = false)
    (h : Rounds (nextRound env features fuel (readName env features fuel)) minimum p minimum' p') :
    Goes env features minimum p events ↔ Goes env features minimum' p' events := by
  obtain ⟨htoken', k, hk⟩ := loop_rounds htoken h
  constructor
  · rintro ⟨fuel₁, rounds, type, p₁, p₂, rest, hloop, hevents, hcalls⟩
    refine ⟨max fuel fuel₁, rounds, type, p₁, p₂, rest, ?_, hevents,
      hcalls.more (Nat.le_max_right _ _)⟩
    rw [← hk _ (Nat.le_max_left _ _)]
    exact loop_more htoken (Nat.le_max_right _ _) (Nat.le_add_right _ _) hloop
  · rintro ⟨fuel₁, rounds, type, p₁, p₂, rest, hloop, hevents, hcalls⟩
    refine ⟨max fuel fuel₁, rounds + k, type, p₁, p₂, rest, ?_, hevents,
      hcalls.more (Nat.le_max_right _ _)⟩
    rw [hk _ (Nat.le_max_left _ _)]
    exact loop_more htoken' (Nat.le_max_right _ _) (Nat.le_refl _) hloop

/-- Two sources deliver the same events when they do so up to a call, and from it on. -/
theorem yields_of_goes {source' : NSString} {events' : List Event}
    (h : Calls env features fuel (setInputSource source) events p)
    (h' : Calls env features fuel' (setInputSource source') events p')
    (hgoes : ∀ rest, Goes env features none (p.startNext false) rest →
      Goes env features none (p'.startNext false) rest)
    (hyields : Yields env features source events') : Yields env features source' events' := by
  obtain ⟨fuel₁, q, hcalls⟩ := hyields
  obtain ⟨rest, rfl, hrest⟩ | ⟨rest, rfl, -⟩ := (h.more (Nat.le_max_left fuel fuel₁)).linear
    (hcalls.more (Nat.le_max_right fuel fuel₁))
  · by_cases hne : rest = []
    · rw [hne, List.append_nil]
      exact ⟨fuel', p', h'⟩
    · obtain ⟨-, fuel₂, q', hcalls'⟩ :=
        goes_none_iff.mp (hgoes rest (goes_none_iff.mpr ⟨hne, _, q, hrest⟩))
      exact ⟨max fuel' fuel₂, q', (h'.more (Nat.le_max_left _ _)).append
        (hcalls'.more (Nat.le_max_right _ _))⟩
  · obtain ⟨q', hcalls', -⟩ := h'.of_append
    exact ⟨fuel', q', hcalls'⟩

-- Side by side

def Silent (minimum : Option EventType) : Prop :=
  ∀ type ∈ minimum, EventType.ENTITY_REF.code < type.code

/-- The next events are of one type and start side by side. -/
def Synced (d : Sharing) (p p' : SGXmlPullParser) : Prop :=
  ∃ type p₁ p₁', peekType p.stepPast = .ok type p₁ ∧ peekType p'.stepPast = .ok type p₁' ∧
    Tracks d { text := false, type := false, lines := false } p₁ p₁'

/-- The states of two calls between their rounds. -/
def Joined (d : Sharing) (minimum minimum' : Option EventType) (p p' : SGXmlPullParser) : Prop :=
  (Silent minimum ∧ Silent minimum' ∧ Synced d p p') ∨
    (minimum = minimum' ∧ Tracks d { lines := false } p p')

theorem Silent.minType_eq (h : Silent minimum) (hcode : type.code ≤ EventType.ENTITY_REF.code) :
    minType minimum type = type := by
  cases minimum with
  | none => rfl
  | some m =>
    have hm := h m rfl
    rw [minType, if_pos (hcode.trans_lt hm)]

theorem Silent.lt_minType (h : Silent minimum) (hcode : EventType.ENTITY_REF.code < type.code) :
    EventType.ENTITY_REF.code < (minType minimum type).code := by
  cases minimum with
  | none => exact hcode
  | some m =>
    rw [minType]
    split
    · exact hcode
    · exact h m rfl

theorem Silent.nextRound (h : Silent minimum) (hcode : EventType.ENTITY_REF.code < type.code)
    (hnext : doNext env features fuel (readName env features fuel) p = .ok type p') :
    nextRound env features fuel (readName env features fuel) minimum p =
        .ok (.inl (some (minType minimum type))) p' ∧ Silent (some (minType minimum type)) := by
  refine ⟨?_, fun m hm => ?_⟩
  · show (doNext env features fuel (readName env features fuel) >>= _) p = _
    rw [bind_of_ok hnext, if_pos (h.lt_minType hcode)]
    rfl
  · cases hm
    exact h.lt_minType hcode

variable {d : Sharing} (hafter : d.after = [])

include hafter

theorem not_past (p : SGXmlPullParser) : ¬ d.past p := by
  rw [Sharing.past, hafter]
  exact Nat.not_lt_zero _

theorem synced_of_stepPast
    (h : Tracks d { text := false, type := false, lines := false } p.stepPast p'.stepPast) :
    Synced d p p' := by
  obtain ⟨type, p₁, hpeek, -⟩ := returns_iff_exists.mp (returns_peekType p.stepPast)
  obtain hover | ⟨p₁', hpeek', h₁⟩ := tracking_peekType.follows _ _ _ _ h hpeek
  · exact absurd hover (not_past hafter _)
  · exact ⟨type, p₁, p₁', hpeek, hpeek', h₁⟩

theorem Tracks.synced (h : Tracks d { text := false, lines := false } p p') : Synced d p p' := by
  refine synced_of_stepPast hafter { h with
    depth := ?_
    type := fun hk => Bool.noConfusion hk }
  simp only [SGXmlPullParser.stepPast, h.type rfl, h.depth]

theorem doNext_synced (h : Synced d p p')
    (hnext : doNext env features fuel (readName env features fuel) p = .ok type p₁) :
    ∃ p₁', doNext env features fuel (readName env features fuel) p' = .ok type p₁' ∧
      Tracks d (Kept.answering { text := false, lines := false } type) p₁ p₁' := by
  obtain ⟨t, q, q', hpeek, hpeek', htracks⟩ := h
  obtain ⟨t', q₁, hpeek₁, hloop⟩ := doNext_cases hnext
  rw [hpeek] at hpeek₁
  cases hpeek₁
  have hset : Tracks d { text := false, lines := false } { q with type := t } { q' with
    type := t } :=
    { htracks with type := fun _ => rfl }
  obtain hover | ⟨p₁', hloop', h₁⟩ :=
    (carries_doParseLoop (Nat.le_refl fuel) rfl t).follows _ _ _ _ hset hloop
  · exact absurd hover (not_past hafter _)
  · refine ⟨p₁', ?_, h₁⟩
    show (peekType >>= _) p'.stepPast = _
    rw [bind_of_ok hpeek']
    exact hloop'

theorem Joined.nextRound {minimum' : Option EventType} (h : Joined d minimum minimum' p p')
    (hround : nextRound env features fuel (readName env features fuel) minimum p = .ok r p₁) :
    (∃ m m' p₁', r = .inl m ∧
      Xml.nextRound env features fuel (readName env features fuel) minimum' p' = .ok (.inl m') p₁' ∧
      Joined d m m' p₁ p₁') ∨
    ∃ t p₁', r = .inr t ∧
      Xml.nextRound env features fuel (readName env features fuel) minimum' p' = .ok (.inr t) p₁' ∧
      Tracks d (Kept.answering { text := false, lines := false } t) p₁ p₁' := by
  obtain ⟨hsilent, hsilent', hsynced⟩ | ⟨rfl, htracks⟩ := h
  · obtain ⟨type, q, hnext, hrest⟩ := exists_of_bind hround
    obtain ⟨q', hnext', hq⟩ := doNext_synced hafter hsynced hnext
    by_cases hskip : EventType.ENTITY_REF.code < type.code
    · obtain ⟨hgoes, hsilent₁⟩ := hsilent.nextRound hskip hnext
      obtain ⟨hgoes', hsilent₁'⟩ := hsilent'.nextRound hskip hnext'
      rw [hgoes] at hround
      cases hround
      refine .inl ⟨_, _, q', rfl, hgoes', .inl ⟨hsilent₁, hsilent₁', ?_⟩⟩
      exact Tracks.synced hafter { hq with text := fun hk => Bool.noConfusion hk }
    · have hcode := Nat.le_of_not_lt hskip
      simp only [hsilent.minType_eq hcode, if_neg hskip] at hrest
      have hround' : Xml.nextRound env features fuel (readName env features fuel) minimum' p' =
          (if EventType.TEXT.code ≤ type.code then do
            let next ← peekType
            pure (if EventType.TEXT.code ≤ next.code then .inl (some type) else .inr type)
          else pure (.inr type) : Parser (Option EventType ⊕ EventType)) q' := by
        show (doNext env features fuel (readName env features fuel) >>= _) p' = _
        rw [bind_of_ok hnext', hsilent'.minType_eq hcode, if_neg hskip]
      by_cases htext : EventType.TEXT.code ≤ type.code
      · rw [if_pos htext] at hrest hround'
        have hkept : Tracks d { lines := false } q q' :=
          { hq with text := fun _ => hq.text (decide_eq_true htext) }
        obtain ⟨next, q₁, hpeek, hrest⟩ := exists_of_bind hrest
        obtain hover | ⟨q₁', hpeek', h₁⟩ := tracking_peekType.follows _ _ _ _ hkept hpeek
        · exact absurd hover (not_past hafter _)
        · rw [bind_of_ok hpeek'] at hround'
          cases hrest
          by_cases hmore : EventType.TEXT.code ≤ next.code
          · rw [if_pos hmore] at hround' ⊢
            exact .inl ⟨_, _, q₁', rfl, hround', .inr ⟨rfl, h₁⟩⟩
          · rw [if_neg hmore] at hround' ⊢
            exact .inr ⟨type, q₁', rfl, hround', Tracks.answers_text h₁⟩
      · rw [if_neg htext] at hrest hround'
        cases hrest
        exact .inr ⟨type, q', rfl, hround', hq⟩
  · obtain hover | ⟨p₁', hround', h₁⟩ :=
      (tracking_nextRound (Nat.le_refl fuel) rfl rfl minimum).follows _ _ _ _ htracks hround
    · exact absurd hover (not_past hafter _)
    · cases r with
      | inl m => exact .inl ⟨m, m, p₁', rfl, hround', .inr ⟨rfl, h₁⟩⟩
      | inr t => exact .inr ⟨t, p₁', rfl, hround', Tracks.answers_text h₁⟩

theorem Joined.loop {minimum' : Option EventType} (h : Joined d minimum minimum' p p')
    (hloop : loop (Xml.nextRound env features fuel (readName env features fuel)) n minimum p =
      .ok type p₁) :
    ∃ p₁', Comp.loop (Xml.nextRound env features fuel (readName env features fuel)) n minimum' p' =
        .ok type p₁' ∧ Tracks d (Kept.answering { text := false, lines := false } type) p₁ p₁' := by
  induction n generalizing minimum minimum' p p' with
  | zero => cases hloop
  | succ n ih =>
    obtain ⟨r, q, hround, hrest⟩ := exists_of_bind hloop
    obtain ⟨m, m', q', rfl, hround', hjoined⟩ | ⟨t, q', rfl, hround', htracks⟩ :=
      h.nextRound hafter hround
    · rw [Comp.loop, bind_of_ok hround']
      exact ih hjoined hrest
    · rw [Comp.loop, bind_of_ok hround']
      cases hrest
      exact ⟨q', rfl, htracks⟩

omit hafter in
theorem Tracks.event_answer
    (h : Tracks d (Kept.answering { text := false, lines := false } type) p p') :
    (p'.answer type).event = (p.answer type).event := by
  have htext : EventType.TEXT.code ≤ type.code → p'.textBuf = p.textBuf := fun hcode =>
    h.text (decide_eq_true hcode)
  have hname := h.name
  have hattributes := h.attributes
  cases type with
  | START_DOCUMENT => rfl
  | END_DOCUMENT => rfl
  | START_TAG => simp only [SGXmlPullParser.answer, SGXmlPullParser.event, EventType.code,
      hname, hattributes]; rfl
  | END_TAG => simp only [SGXmlPullParser.answer, SGXmlPullParser.event, EventType.code, hname]; rfl
  | _ =>
    have hsame := htext (by decide)
    simp only [SGXmlPullParser.answer, SGXmlPullParser.event, EventType.code, hsame]
    rfl

omit hafter in
theorem Tracks.answer (h : Tracks d (Kept.answering { text := false, lines := false } type) p p') :
    Tracks d { text := false, lines := false } (p.answer type) (p'.answer type) where
  __ := h
  text hk := Bool.noConfusion hk
  type _ := rfl

theorem Tracks.joined_start (h : Tracks d { text := false, lines := false } p p') :
    Joined d none none (p.startNext false) (p'.startNext false) := by
  refine .inl ⟨nofun, nofun, Tracks.synced hafter ?_⟩
  exact { h with isWhitespace := rfl, token := rfl, token' := rfl }

theorem Calls.tracks (hcalls : Calls env features fuel p events p₁)
    (h : Tracks d { text := false, lines := false } p p') :
    ∃ p₁', Calls env features fuel p' events p₁' := by
  induction hcalls generalizing p' with
  | done p => exact ⟨p', .done p'⟩
  | call hnext _ ih =>
    obtain ⟨minimum, q, hloop, rfl, -⟩ := next_eq_iff.mp hnext
    obtain ⟨q', hloop', hq⟩ := (h.joined_start hafter).loop hafter hloop
    obtain ⟨p₁', hrest⟩ := ih hq.answer
    refine ⟨p₁', ?_⟩
    rw [← hq.event_answer]
    exact .call (next_eq_iff.mpr ⟨minimum, q', hloop', rfl, rfl⟩) hrest

theorem goes_of_joined {minimum' : Option EventType} (h : Joined d minimum minimum' p p')
    (hgoes : Goes env features minimum p events) : Goes env features minimum' p' events := by
  obtain ⟨fuel, rounds, type, q, p₂, rest, hloop, rfl, hcalls⟩ := hgoes
  obtain ⟨q', hloop', hq⟩ := h.loop hafter hloop
  obtain ⟨p₂', hcalls'⟩ := hcalls.tracks hafter hq.answer
  exact ⟨fuel, rounds, type, q', p₂', rest, hloop', by rw [hq.event_answer], hcalls'⟩

omit hafter in
def Sharing.swap (d : Sharing) : Sharing := ⟨d.before', d.before, d.shared, [], [], ended_nil⟩

theorem Tracks.swap {k : Kept} (h : Tracks d k p p') : Tracks d.swap k p' p := by
  have hafter' := d.ended hafter
  obtain ⟨r, n, hrest, hrest', hcr, hn, hn', -⟩ := h.ahead
  rw [hafter, List.append_nil] at hrest
  rw [hafter', List.append_nil] at hrest'
  refine ⟨?_, ?_, ⟨r, n, ?_, ?_, fun hne => (hcr ?_).symm, hn', hn, fun hne => absurd rfl hne⟩,
    h.peeked.symm, h.isWhitespace.symm, h.degenerated.symm, h.token', h.token,
    h.name.symm, h.attributes.symm,
    h.depth.symm, fun hk => (h.text hk).symm, fun hk => (h.type hk).symm, fun hk => ?_⟩
  · rw [h.source', hafter']
    rfl
  · rw [h.source, hafter]
    rfl
  · rw [hrest']
    exact (List.append_nil r).symm
  · rw [hrest]
    exact (List.append_nil r).symm
  · rw [hrest, ← hrest']
    exact hne
  · obtain ⟨heos, hcr, hline, hcolumn⟩ := h.lines hk
    exact ⟨heos.symm, hcr.symm, hline.symm, hcolumn.symm⟩

theorem Joined.swap {minimum' : Option EventType} (h : Joined d minimum minimum' p p') :
    Joined d.swap minimum' minimum p' p := by
  obtain ⟨hsilent, hsilent', type, p₁, p₁', hpeek, hpeek', h₁⟩ | ⟨heq, h⟩ := h
  · exact .inl ⟨hsilent', hsilent, type, p₁', p₁, hpeek', hpeek, h₁.swap hafter⟩
  · exact .inr ⟨heq.symm, h.swap hafter⟩

theorem goes_iff_of_joined {minimum' : Option EventType} (h : Joined d minimum minimum' p p') :
    Goes env features minimum p events ↔ Goes env features minimum' p' events :=
  ⟨goes_of_joined hafter h, goes_of_joined rfl (h.swap hafter)⟩

omit hafter in
theorem goes_congr (h : ∀ fuel, doNext env features fuel (readName env features fuel) p =
      doNext env features fuel (readName env features fuel) p')
    (hgoes : Goes env features minimum p events) : Goes env features minimum p' events := by
  obtain ⟨fuel, rounds, type, p₁, p₂, rest, hloop, hevents, hcalls⟩ := hgoes
  refine ⟨fuel, rounds, type, p₁, p₂, rest, ?_, hevents, hcalls⟩
  cases rounds with
  | zero => cases hloop
  | succ rounds =>
    obtain ⟨r, q, hround, hrest⟩ := exists_of_bind hloop
    have hround' : Xml.nextRound env features fuel (readName env features fuel) minimum p' =
      .ok r q :=
      (bind_congr (h fuel)).symm.trans hround
    rw [loop, bind_of_ok hround']
    exact hrest

end

end BathyScaphe.Xml
