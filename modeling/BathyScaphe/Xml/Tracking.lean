import BathyScaphe.Xml.Buffer

/-!
# Two parsers side by side

Two sources share a part. Parsers that are at the same place of the shared part read
the same, whatever stands before it, and whatever stands behind it as long as the first
one has not gone beyond the shared part. What differs between the parsers is the place
they have counted, and in the events of `next` what the event before has left in the
text buffer.
-/

namespace BathyScaphe.Xml

open NSString Comp

/-- The sources are `before`, `shared`, `after` and `before'`, `shared`, `after'`. -/
structure Sharing where
  before : NSString
  before' : NSString
  shared : NSString
  after : NSString
  after' : NSString
  ended : after = [] → after' = []

theorem Sharing.ended_nil : ([] : NSString) = [] → ([] : NSString) = [] := fun _ => rfl

def Sharing.past (d : Sharing) (p : SGXmlPullParser) : Prop := p.rest.length < d.after.length

/-- Whether the texts, the types, and the lines with the flags of the buffer agree. -/
structure Kept where
  text : Bool := true
  type : Bool := true
  lines : Bool := true

/-- The parsers are at the same place of the shared part, outside of `nextToken`. -/
structure Tracks (d : Sharing) (k : Kept) (p p' : SGXmlPullParser) : Prop where
  source : p.source = d.before ++ (d.shared ++ d.after)
  source' : p'.source = d.before' ++ (d.shared ++ d.after')
  ahead : ∃ r n, p.rest = r ++ d.after ∧ p'.rest = r ++ d.after' ∧
    (p.rest ≠ [] → p'.peekReadedCR = p.peekReadedCR) ∧
    p.position = d.before.length + n ∧ p'.position = d.before'.length + n ∧
    (d.after ≠ [] → n + p.peeked.length + r.length ≤ d.shared.length)
  peeked : p'.peeked = p.peeked
  isWhitespace : p'.isWhitespace = p.isWhitespace
  degenerated : p'.degenerated = p.degenerated
  token : p.token = false
  token' : p'.token = false
  name : p'.name = p.name
  attributes : p'.attributes = p.attributes
  depth : p'.depth = p.depth
  text : k.text = true → p'.textBuf = p.textBuf
  type : k.type = true → p'.type = p.type
  lines : k.lines = true → p'.eos = p.eos ∧ p'.peekReadedCR = p.peekReadedCR ∧ p'.line = p.line ∧
    p'.column = p.column

/-- Both computations keep the parsers side by side. -/
abbrev Tracking (d : Sharing) (k : Kept) (x y : Parser α) : Prop :=
  Carries d.past (Tracks d k) x y fun _ => Tracks d k

section
variable {d : Sharing} {k : Kept} {p p' : SGXmlPullParser}

-- The buffer

theorem length_fetch_le (rest : NSString) (p : SGXmlPullParser) :
    (fetch rest p).rest.length ≤ rest.length - 1 := by
  induction rest generalizing p with
  | nil => exact Nat.le_refl 0
  | cons c rest ih =>
    rw [fetch]
    split
    · exact Nat.le_refl _
    · split
      · exact (ih _).trans (Nat.sub_le _ _)
      · exact Nat.le_refl _

theorem past_fetch (h : d.past p) : d.past (fetch p.rest p) :=
  ((length_fetch_le p.rest p).trans (Nat.sub_le _ _)).trans_lt h

theorem Tracks.fetch (h : Tracks d k p p') :
    d.past (fetch p.rest p) ∨ Tracks d k (fetch p.rest p) (fetch p'.rest p') := by
  obtain ⟨r, n, hrest, hrest', hcr, hn, hn', hbound⟩ := h.ahead
  rw [hrest] at hcr
  rw [hrest, hrest']
  induction r generalizing p p' n with
  | nil =>
    by_cases hafter : d.after = []
    · -- both sources end here
      refine .inr ?_
      rw [hafter, d.ended hafter]
      exact { h with
        ahead := ⟨[], n, by rw [hafter]; rfl, by rw [d.ended hafter]; rfl,
          fun hne => absurd rfl hne, hn, hn', fun hne => absurd hafter hne⟩
        peeked := congrArg (· ++ [XML_INVALID_UNICHAR]) h.peeked
        lines := fun hk => ⟨rfl, (h.lines hk).2⟩ }
    · refine .inl ((length_fetch_le _ _).trans_lt ?_)
      have hpos := List.length_pos_of_ne_nil hafter
      rw [List.nil_append]
      omega
  | cons c r ih =>
    have hcr' := hcr (List.cons_ne_nil _ _)
    rw [List.cons_append, List.cons_append, Xml.fetch, Xml.fetch, hcr']
    by_cases hreturn : c = uc '\r'
    · rw [if_pos hreturn, if_pos hreturn]
      refine .inr { h with
        ahead := ⟨r, n, rfl, rfl, fun _ => rfl, hn, hn', fun hne => ?_⟩
        peeked := congrArg (· ++ [uc '\n']) h.peeked
        lines := fun hk => ⟨(h.lines hk).1, rfl, (h.lines hk).2.2⟩ }
      have hle := hbound hne
      rw [List.length_cons] at hle
      rw [List.length_append, List.length_singleton]
      omega
    · rw [if_neg hreturn, if_neg hreturn]
      split
      · have hnext : p.position + 1 = d.before.length + (n + 1) := by omega
        have hnext' : p'.position + 1 = d.before'.length + (n + 1) := by omega
        have hbound' : d.after ≠ [] → n + 1 + p.peeked.length + r.length ≤ d.shared.length := by
          intro hne
          have hle := hbound hne
          rw [List.length_cons] at hle
          omega
        exact ih { h with
            ahead := ⟨r, n + 1, rfl, rfl, fun _ => rfl, hnext, hnext', hbound'⟩
            lines := fun hk => ⟨(h.lines hk).1, rfl, (h.lines hk).2.2⟩ } (n + 1)
          rfl rfl (fun _ => rfl) hnext hnext' hbound'
      · refine .inr { h with
          ahead := ⟨r, n, rfl, rfl, fun _ => rfl, hn, hn', fun hne => ?_⟩
          peeked := congrArg (· ++ [c]) h.peeked
          lines := fun hk => ⟨(h.lines hk).1, rfl, (h.lines hk).2.2⟩ }
        have hle := hbound hne
        rw [List.length_cons] at hle
        rw [List.length_append, List.length_singleton]
        omega

theorem past_fill (n : Nat) (h : d.past p) : d.past (fill n p) := by
  induction n generalizing p with
  | zero => exact h
  | succ n ih => exact ih (past_fetch h)

theorem Tracks.fill (n : Nat) (h : Tracks d k p p') :
    d.past (fill n p) ∨ Tracks d k (fill n p) (fill n p') := by
  induction n generalizing p p' with
  | zero => exact .inr h
  | succ n ih =>
    obtain hpast | hfetch := h.fetch
    · exact .inl (past_fill n hpast)
    · exact ih hfetch

theorem carries_peek (index : Nat) : Carries d.past (Tracks d k) (peek index) (peek index)
    fun _ p p' => Tracks d k p p' ∧ index < p.peeked.length := by
  refine carries_bind (Q := fun _ p p' => Tracks d k p p' ∧ index < p.peeked.length)
    ⟨maintains_modify fun p h => past_fill _ h, ?_⟩ fun _ => ?_
  · rintro p p' _ _ h ⟨⟩
    obtain hpast | hfill := h.fill (index + 1 - p.peeked.length)
    · exact .inl hpast
    · refine .inr ⟨_, rfl, ?_, ?_⟩
      · show Tracks d k _ (fill (index + 1 - p'.peeked.length) p')
        rw [h.peeked]
        exact hfill
      · show index < (fill (index + 1 - p.peeked.length) p).peeked.length
        rw [length_fill]
        omega
  · refine carries_get fun p p' => carries_pure_of (fun s s' h => ?_) fun s s' h => h.2
    rw [h.1.1.peeked]

theorem tracking_peek (index : Nat) : Tracking d k (peek index) (peek index) :=
  (carries_peek index).imp fun _ _ _ h => h.1

theorem tracking_read : Tracking d k read read := by
  refine carries_bind (carries_peek 0) fun c => ?_
  refine carries_bind (carries_modify (Q := fun _ => Tracks d k) (fun p h => h) fun p p' hpeek =>
    ?_) fun _ =>
    carries_pure fun _ _ h => h
  obtain ⟨h, hpos⟩ := hpeek
  obtain ⟨r, n, hrest, hrest', hcr, hn, hn', hbound⟩ := h.ahead
  refine { h with
    ahead := ⟨r, n + 1, hrest, hrest', hcr, ?_, ?_, fun hne => ?_⟩
    peeked := congrArg List.tail h.peeked
    lines := fun hk => ?_ }
  · show p.position + 1 = _
    omega
  · show p'.position + 1 = _
    omega
  · have hle := hbound hne
    rw [List.length_tail]
    omega
  · obtain ⟨heos, hcr, hline, hcolumn⟩ := h.lines hk
    exact ⟨heos, hcr, by simp only [hline], by simp only [hcolumn]⟩

theorem carries_raiseParser {R : SGXmlPullParser → SGXmlPullParser → Prop}
    {Q : α → SGXmlPullParser → SGXmlPullParser → Prop} (reason : NSString) (y : Parser α) :
    Carries d.past R (raiseParser reason) y Q where
  maintains := maintains_raiseParser reason
  follows := by rintro s s' a t hR ⟨⟩

theorem tracking_readEnsure (c : UniChar) : Tracking d k (readEnsure c) (readEnsure c) :=
  carries_bind tracking_read fun _ =>
    carries_branch (carries_pure fun _ _ h => h) (carries_raiseParser _ _)

theorem tracking_readEnsureAll (s : NSString) : Tracking d k (readEnsureAll s)
    (readEnsureAll s) := by
  induction s with
  | nil => exact carries_pure fun _ _ h => h
  | cons c s ih => exact carries_bind (tracking_readEnsure c) fun _ => ih

theorem tracking_peekType : Tracking d k peekType peekType := by
  refine carries_bind (tracking_peek 0) fun c => ?_
  refine carries_branch (carries_pure fun _ _ h => h)
    (carries_branch (carries_pure fun _ _ h => h) ?_)
  refine carries_branch (carries_bind (tracking_peek 1) fun nc => ?_) (carries_pure fun _ _ h => h)
  refine carries_branch (carries_pure fun _ _ h => h) ?_
  exact carries_branch (carries_pure fun _ _ h => h) (carries_pure fun _ _ h => h)

theorem tracking_followedBy (first second : UniChar) :
    Tracking d k (followedBy first second) (followedBy first second) :=
  carries_bind (tracking_peek 0) fun _ => carries_branch
    (carries_bind (tracking_peek 1) fun _ => carries_pure fun _ _ h => h)
    (carries_pure fun _ _ h => h)

theorem tracking_peekSecond (fits : Bool) : Tracking d k (peekSecond fits) (peekSecond fits) :=
  carries_branch (tracking_peek 1) (carries_pure fun _ _ h => h)

theorem tracking_closesWith (c delimiter : UniChar) :
    Tracking d k (closesWith c delimiter) (closesWith c delimiter) :=
  carries_branch (tracking_followedBy _ _) (carries_pure fun _ _ h => h)

theorem tracking_loop {body body' : β → Parser (β ⊕ α)}
    (hbody : ∀ b, Tracking d k (body b) (body' b))
    (hfuel : fuel ≤ fuel') (b : β) : Tracking d k (loop body fuel b) (loop body' fuel' b) := by
  refine carries_loop (fun _ => Tracks d k) (fun b => (hbody b).imp fun r p p' h => ?_) hfuel b
  cases r with
  | inl b => exact h
  | inr a => exact h

theorem tracking_skip (hfuel : fuel ≤ fuel') : Tracking d k (skip fuel) (skip fuel') := by
  refine tracking_loop (fun _ => carries_bind (tracking_peek 0) fun c => ?_) hfuel ()
  refine carries_branch (carries_pure fun _ _ h => h) ?_
  exact carries_bind tracking_read fun _ => carries_pure fun _ _ h => h

-- Names

def Sharing.SameRange (d : Sharing) (range range' : NSRange) : Prop :=
  ∃ i, range.location = d.before.length + i ∧ range'.location = d.before'.length + i ∧
    range'.length = range.length ∧ (d.after ≠ [] → i + range.length ≤ d.shared.length)

theorem Sharing.SameRange.substring {range range' : NSRange} (h : d.SameRange range range')
    (hrange : range.max ≤ (d.before ++ (d.shared ++ d.after)).length) :
    range'.max ≤ (d.before' ++ (d.shared ++ d.after')).length ∧
      NSString.substringWithRange (d.before' ++ (d.shared ++ d.after')) range' =
        NSString.substringWithRange (d.before ++ (d.shared ++ d.after)) range := by
  obtain ⟨i, hi, hi', hlength, hbound⟩ := h
  rw [NSRange.max, hi, List.length_append, List.length_append] at hrange
  rw [NSRange.max, NSString.substringWithRange, NSString.substringWithRange, hi, hi', hlength,
    List.length_append, List.length_append, List.drop_length_add_append,
    List.drop_length_add_append]
  by_cases hafter : d.after = []
  · rw [d.ended hafter]
    rw [hafter] at hrange ⊢
    exact ⟨by omega, rfl⟩
  · have hle := hbound hafter
    refine ⟨by omega, ?_⟩
    rw [List.drop_append_of_le_length (by omega), List.drop_append_of_le_length (by omega),
      List.take_append_of_le_length (by rw [List.length_drop]; omega),
      List.take_append_of_le_length (by rw [List.length_drop]; omega)]

theorem carries_substringWithRange {R : SGXmlPullParser → SGXmlPullParser → Prop}
    {range range' : NSRange}
    (hrange : ∀ s s', R s s' → Tracks d k s s' ∧ d.SameRange range range') :
    Carries d.past R (substringWithRange range) (substringWithRange range') fun _ =>
      Tracks d k where
  maintains := maintains_substringWithRange range
  follows s s' a t hR hx := by
    obtain ⟨h, hsame⟩ := hrange s s' hR
    obtain ⟨p, _, hget, hrest⟩ := exists_of_bind hx
    cases hget
    by_cases hlt : s.source.length < range.max
    · rw [if_pos hlt] at hrest
      cases hrest
    · rw [if_neg hlt] at hrest
      cases hrest
      rw [h.source] at hlt
      obtain ⟨hle, hsub⟩ := hsame.substring (Nat.le_of_not_lt hlt)
      refine .inr ⟨s', ?_, h⟩
      rw [h.source, ← hsub, ← h.source']
      rw [← h.source'] at hle
      show (if s'.source.length < range'.max then raise .range else pure _ : Parser NSString) s' = _
      rw [if_neg (Nat.not_lt_of_le hle)]
      rfl

theorem Tracks.sameRange {q q' : SGXmlPullParser} (h : Tracks d k p p') (h' : Tracks d k q q') :
    d.SameRange ⟨p.position, q.position - p.position⟩ ⟨p'.position, q'.position - p'.position⟩ := by
  obtain ⟨r, n, -, -, -, hn, hn', hbound⟩ := h.ahead
  obtain ⟨s, m, -, -, -, hm, hm', hbound'⟩ := h'.ahead
  refine ⟨n, hn, hn', ?_, fun hne => ?_⟩
  · show q'.position - p'.position = q.position - p.position
    omega
  · have hle := hbound hne
    have hle' := hbound' hne
    show n + (q.position - p.position) ≤ _
    omega

variable {env : Environment} {features : Features} {fuel fuel' : Nat} (hfuel : fuel ≤ fuel')

theorem tracking_readNameUsing {scan scan' : Parser Unit} (hscan : Tracking d k scan scan') :
    Tracking d k (readNameUsing env features scan) (readNameUsing env features scan') := by
  refine carries_get fun p p' => ?_
  refine carries_bind ((tracking_peek 0).frame (Tracks d k p p')) fun c => ?_
  refine carries_branch (carries_raiseParser _ _) ?_
  refine carries_bind (hscan.frame (Tracks d k p p')) fun _ => carries_get fun q q' => ?_
  refine carries_bind (carries_substringWithRange fun s s' h => ⟨h.2.2, h.1.1.sameRange h.1.2⟩)
    fun name => ?_
  exact carries_branch (carries_raise _) (carries_pure fun _ _ h => h)

include hfuel

theorem tracking_readName : Tracking d k (readName env features fuel)
    (readName env features fuel') := by
  refine tracking_readNameUsing (tracking_loop (fun _ => carries_bind tracking_read fun _ =>
    ?_) hfuel ())
  refine carries_bind (tracking_peek 0) fun c => ?_
  exact carries_bind (carries_pure fun _ _ h => h) fun _ => carries_pure fun _ _ h => h

omit hfuel

-- Texts

theorem tracking_push (c : UniChar) : Tracking d k (push c) (push c) :=
  carries_modify (fun _ h => h) fun _ _ h =>
    { h with isWhitespace := rfl, text := fun hk => congrArg (· ++ [c]) (h.text hk) }

theorem tracking_pushRead : Tracking d k pushRead pushRead :=
  carries_bind tracking_read tracking_push

theorem carries_clearText : Carries d.past (Tracks d k) clearText clearText
    fun _ => Tracks d { k with text := true } :=
  carries_modify (fun _ h => h) fun _ _ h => { h with text := fun _ => rfl }

theorem Tracks.forget (h : Tracks d { k with text := true } p p') : Tracks d k p p' :=
  { h with text := fun _ => h.text rfl }

theorem Sharing.SameRange.inner {range range' : NSRange} (h : d.SameRange range range')
    (hlength : 2 < range.length) :
    d.SameRange ⟨range.location + 1, range.length - 2⟩
      ⟨range'.location + 1, range'.length - 2⟩ := by
  obtain ⟨i, hi, hi', heq, hbound⟩ := h
  refine ⟨i + 1, ?_, ?_, congrArg (· - 2) heq, fun hne => ?_⟩
  · show range.location + 1 = _
    omega
  · show range'.location + 1 = _
    omega
  · have hle := hbound hne
    show i + 1 + (range.length - 2) ≤ _
    omega

theorem carries_resolveEntity {start start' : SGXmlPullParser} {textPos textPos' : Nat}
    (isValid : Bool) :
    Carries d.past (fun s s' => (textPos' = textPos ∧ Tracks d k start start') ∧ Tracks d k s s')
      (resolveEntity env features start.position textPos isValid)
      (resolveEntity env features start'.position textPos' isValid) fun _ => Tracks d k := by
  refine carries_get fun p p' => ?_
  refine carries_ite (fun s s' h => ?_) (fun _ => carries_raiseParser _ _) fun hvalid => ?_
  · obtain ⟨-, -, -, hlength, -⟩ := h.1.1.2.sameRange h.1.2
    rw [hlength]
  · refine carries_bind ((carries_substringWithRange (k := k) (R := fun s s' => Tracks d k s s' ∧
      Tracks d k start start' ∧ Tracks d k p p') fun s s' h => ⟨h.1, ?_⟩).frame (textPos' = textPos)
      |>.weaken fun s s' h => ⟨h.1.1.1, h.2.2, h.1.1.2, h.1.2⟩) fun entityRef => ?_
    · have hrange := h.2.1.sameRange h.2.2
      cases isValid with
      | true =>
        have hlong : 2 + start.position < p.position := by simpa using hvalid
        exact hrange.inner (show 2 < p.position - start.position by omega)
      | false => exact hrange
    · cases (if isValid then characterForEntityReference env entityRef else none) with
      | some code =>
        refine carries_bind (Q := fun _ => Tracks d k) (carries_modify (fun _ h => h) fun _ _ h =>
          { h.2 with text := fun hk => by rw [h.1, h.2.text hk] }) fun _ => ?_
        exact carries_bind (tracking_push code) fun _ => carries_pure fun _ _ h => h
      | none =>
        refine carries_branch (carries_pure fun _ _ h => h.2) ?_
        split
        · exact carries_raiseParser _ _
        · exact carries_raiseParser _ _

theorem tracking_scanEntity (hfuel : fuel ≤ fuel') :
    Tracking d k (scanEntity env fuel) (scanEntity env fuel') := by
  refine tracking_loop (fun _ => carries_bind (tracking_peek 0) fun c => ?_) hfuel ()
  refine carries_branch (carries_pure fun _ _ h => h) (carries_bind tracking_read fun c => ?_)
  exact carries_bind (tracking_push c) fun _ => carries_pure fun _ _ h => h

theorem tracking_parseEntity (hfuel : fuel ≤ fuel') (hk : k.text = true) (willClearBuffer : Bool) :
    Tracking d k (parseEntity env features fuel willClearBuffer)
      (parseEntity env features fuel' willClearBuffer) := by
  refine carries_get fun start start' => ?_
  refine carries_bind ((carries_when _ (carries_clearText.imp fun _ _ _ h =>
    h.forget) fun _ _ h => h).frame
    (Tracks d k start start')) fun _ => carries_get fun p p' => ?_
  -- the place and the length of the text that were read before
  have hframe : ∀ {β : Type} {x y : Parser β}, Tracking d k x y →
      Carries d.past (fun s s' => (p'.textBuf.length = p.textBuf.length ∧ Tracks d k start start') ∧
        Tracks d k s s') x y fun _ s s' => (p'.textBuf.length = p.textBuf.length ∧
          Tracks d k start start') ∧ Tracks d k s s' := fun h => h.frame _
  refine carries_bind ((hframe (tracking_readEnsure _)).weaken fun s s' h =>
    ⟨⟨congrArg List.length (h.1.2.text hk), h.1.1⟩, h.2.2⟩) fun c => ?_
  refine carries_bind (hframe (tracking_push c)) fun _ => ?_
  refine carries_bind (hframe (tracking_peek 0)) fun c => ?_
  refine carries_bind (carries_when _ (hframe tracking_pushRead) fun _ _ h => h) fun _ => ?_
  refine carries_bind (hframe (tracking_scanEntity hfuel)) fun isValid => ?_
  exact carries_branch (carries_pure fun _ _ h => h.2) (carries_resolveEntity isValid)

theorem tracking_parseTextUnit (hfuel : fuel ≤ fuel') (hk : k.text = true) (htype : k.type = true)
    (c : UniChar) : Tracking d k (parseTextUnit env features fuel c)
      (parseTextUnit env features fuel' c) := by
  refine carries_branch (carries_bind (tracking_parseEntity hfuel hk false) fun _ =>
    carries_pure fun _ _ h => h) ?_
  refine carries_get fun p p' => ?_
  refine carries_bind (tracking_read.frame (Tracks d k p p')) fun c' => ?_
  refine carries_modify (fun _ h => h) fun s s' h => ?_
  rw [h.1.type htype]
  exact { h.2 with isWhitespace := rfl, text := fun hk => congrArg (· ++ [_]) (h.2.text hk) }

theorem carries_parseText (hfuel : fuel ≤ fuel') (htype : k.type = true) (delimiter : UniChar)
    (resolve : Bool) :
    Carries d.past (Tracks d k) (parseText env features fuel delimiter resolve)
      (parseText env features fuel' delimiter resolve) fun _ =>
        Tracks d { k with text := true } := by
  refine carries_bind (tracking_peek 0) fun c => carries_bind carries_clearText fun _ => ?_
  refine tracking_loop (fun c => carries_branch (carries_pure fun _ _ h => h) ?_) hfuel c
  refine carries_bind (tracking_parseTextUnit (k := { k with text := true }) hfuel rfl htype c)
    fun _ => ?_
  exact carries_bind (tracking_peek 0) fun c => carries_pure fun _ _ h => h

-- Comments, sections and declarations

theorem tracking_parseComment (hfuel : fuel ≤ fuel') (willPush : Bool) :
    Tracking d k (parseComment features fuel willPush) (parseComment features fuel' willPush) := by
  refine carries_bind (tracking_readEnsureAll _) fun _ => carries_bind ?_ fun _ =>
    tracking_readEnsureAll _
  refine tracking_loop (fun pc => carries_bind tracking_read fun c => ?_) hfuel _
  refine carries_bind (tracking_closesWith _ _) fun closes => carries_branch ?_ ?_
  · exact carries_branch (carries_raiseParser _ _) (carries_pure fun _ _ h => h)
  · refine carries_branch (carries_raiseParser _ _) ?_
    exact carries_bind (carries_when _ (tracking_push c) fun _ _ h => h) fun _ =>
      carries_pure fun _ _ h => h

theorem tracking_parseProccessingInstruction (hfuel : fuel ≤ fuel') (willPush : Bool) :
    Tracking d k (parseProccessingInstruction fuel willPush)
      (parseProccessingInstruction fuel' willPush) := by
  refine carries_bind ?_ fun _ => tracking_readEnsureAll _
  refine tracking_loop (fun _ => carries_bind tracking_read fun c => ?_) hfuel ()
  refine carries_bind (tracking_followedBy _ _) fun closes =>
    carries_branch (carries_pure fun _ _ h => h) ?_
  refine carries_branch (carries_raiseParser _ _) ?_
  exact carries_bind (carries_when _ (tracking_push c) fun _ _ h => h) fun _ =>
    carries_pure fun _ _ h => h

theorem tracking_parseDocType (hfuel : fuel ≤ fuel') (willPush : Bool) :
    Tracking d k (parseDocType fuel willPush) (parseDocType fuel' willPush) := by
  refine carries_bind (tracking_readEnsureAll _) fun _ => ?_
  refine tracking_loop (fun state => carries_bind tracking_read fun c => ?_) hfuel _
  refine carries_branch (carries_raiseParser _ _) (carries_branch (carries_pure fun _ _ h => h) ?_)
  exact carries_bind (carries_when _ (tracking_push c) fun _ _ h => h) fun _ =>
    carries_pure fun _ _ h => h

theorem tracking_parseCDATA (hfuel : fuel ≤ fuel') :
    Tracking d k (parseCDATA fuel) (parseCDATA fuel') := by
  refine carries_bind (tracking_readEnsureAll _) fun _ => carries_bind ?_ fun _ =>
    tracking_readEnsureAll _
  refine tracking_loop (fun _ => carries_bind tracking_read fun c => ?_) hfuel ()
  refine carries_bind (tracking_closesWith _ _) fun closes =>
    carries_branch (carries_pure fun _ _ h => h) ?_
  refine carries_branch (carries_raiseParser _ _) ?_
  exact carries_bind (tracking_push c) fun _ => carries_pure fun _ _ h => h

-- Tags

theorem tracking_parseQuotedValue (hfuel : fuel ≤ fuel') (htype : k.type = true) (name : NSString) :
    Tracking d k (parseQuotedValue env features fuel name)
      (parseQuotedValue env features fuel' name) := by
  refine carries_bind (tracking_readEnsureAll _) fun _ => ?_
  refine carries_bind (tracking_skip hfuel) fun _ => carries_bind tracking_read fun delimiter => ?_
  refine carries_branch ?_ (carries_branch (carries_raiseParser _ _) ?_)
  · refine carries_bind (carries_parseText hfuel htype _ _) fun _ => carries_get fun p p' => ?_
    refine carries_bind (tracking_read.frame (Tracks d { k with text := true } p p')) fun _ => ?_
    exact carries_pure_of (fun s s' h => h.1.text rfl) fun s s' h => h.2.forget
  · refine carries_bind (carries_parseText hfuel htype _ _) fun _ => carries_get fun p p' => ?_
    exact carries_pure_of (fun s s' h => congrArg _ (h.1.text rfl)) fun s s' h => h.2.forget

theorem tracking_parseAttributeValue (hfuel : fuel ≤ fuel') (htype : k.type = true)
    (name : NSString) :
    Tracking d k (parseAttributeValue env features fuel name)
      (parseAttributeValue env features fuel' name) := by
  refine carries_bind (tracking_peek 0) fun c => ?_
  refine carries_branch (tracking_parseQuotedValue hfuel htype name) (carries_branch ?_ ?_)
  · exact carries_branch (carries_pure fun _ _ h => h) (carries_raiseParser _ _)
  · exact carries_raiseParser _ _

theorem tracking_setName (name : NSString) : Tracking d k (setName name) (setName name) :=
  carries_modify (fun _ h => h) fun _ _ h => { h with name := rfl }

theorem tracking_parseAttribute (hfuel : fuel ≤ fuel') (htype : k.type = true) :
    Tracking d k (parseAttribute env features fuel (readName env features fuel))
      (parseAttribute env features fuel' (readName env features fuel')) := by
  refine carries_bind (tracking_readName hfuel) fun name =>
    carries_branch (carries_raiseParser _ _) ?_
  refine carries_bind (tracking_skip hfuel) fun _ => carries_get fun p p' => ?_
  refine carries_ite (fun s s' h => ?_) (fun _ => carries_raiseParser _ _) fun _ => ?_
  · rw [h.1.attributes]
  · refine carries_bind ((tracking_parseAttributeValue hfuel htype name).weaken fun s s' h => h.2)
      fun value => ?_
    exact carries_modify (fun _ h => h) fun _ _ h =>
      { h with attributes := congrArg (List.cons (name, value)) h.attributes }

theorem tracking_parseStartTag (hfuel : fuel ≤ fuel') (htype : k.type = true) (xmlDecl : Bool) :
    Tracking d k (parseStartTag env features fuel (readName env features fuel) xmlDecl)
      (parseStartTag env features fuel' (readName env features fuel') xmlDecl) := by
  refine carries_bind (carries_when _ (tracking_readEnsureAll _) fun _ _ h => h) fun _ => ?_
  refine carries_bind (tracking_readName hfuel) fun name =>
    carries_bind (tracking_setName _) fun _ => ?_
  refine carries_bind (Q := fun _ => Tracks d k)
    (carries_modify (fun _ h => h) fun _ _ h => { h with attributes := rfl }) fun _ => ?_
  refine carries_bind (tracking_loop (fun _ => ?_) hfuel ()) fun counts => ?_
  · refine carries_bind (tracking_skip hfuel) fun _ => carries_bind (tracking_peek 0) fun c => ?_
    refine carries_branch ?_ (carries_branch ?_ (carries_branch ?_ (carries_branch ?_ ?_)))
    · exact carries_bind (tracking_readEnsureAll _) fun _ => carries_pure fun _ _ h => h
    · refine carries_bind (Q := fun _ => Tracks d k)
        (carries_modify (fun _ h => h) fun _ _ h => { h with degenerated := rfl }) fun _ => ?_
      refine carries_bind tracking_read fun _ => carries_bind (tracking_skip hfuel) fun _ => ?_
      exact carries_bind (tracking_readEnsureAll _) fun _ => carries_pure fun _ _ h => h
    · exact carries_bind tracking_read fun _ => carries_pure fun _ _ h => h
    · exact carries_raiseParser _ _
    · exact carries_bind (tracking_parseAttribute hfuel htype) fun _ => carries_pure fun _ _ h => h
  · refine carries_when _ (carries_modify (fun _ h => h) fun _ _ h => ?_) fun _ _ h => h
    exact { h with depth := congrArg (· + 1) h.depth }

theorem tracking_parseEndTag (hfuel : fuel ≤ fuel') :
    Tracking d k (parseEndTag fuel (readName env features fuel))
      (parseEndTag fuel' (readName env features fuel')) := by
  refine carries_bind (tracking_readEnsureAll _) fun _ =>
    carries_bind (tracking_readName hfuel) fun name => ?_
  refine carries_bind (tracking_setName _) fun _ => carries_bind (tracking_skip hfuel) fun _ => ?_
  refine carries_bind (tracking_readEnsureAll _) fun _ => carries_get fun p p' => ?_
  refine carries_ite (fun s s' h => ?_) (fun _ => carries_raiseParser _ _) fun _ =>
    carries_pure fun _ _ h => h.2
  rw [h.1.depth]

theorem tracking_parseLegacyInstruction (hfuel : fuel ≤ fuel') (htype : k.type = true)
    (willPush : Bool) :
    Tracking d k (parseLegacyInstruction env features fuel (readName env features fuel) willPush)
      (parseLegacyInstruction env features fuel' (readName env features fuel') willPush) := by
  refine carries_bind (tracking_peek 0) fun x => carries_bind (tracking_peekSecond _) fun m => ?_
  refine carries_branch ?_ ?_
  · refine carries_bind tracking_read fun c => ?_
    refine carries_bind (carries_when _ (tracking_push c) fun _ _ h => h) fun _ => ?_
    refine carries_bind tracking_read fun c => ?_
    refine carries_bind (carries_when _ (tracking_push c) fun _ _ h => h) fun _ => ?_
    refine carries_bind (tracking_peek 0) fun l => carries_bind (tracking_peekSecond _) fun space =>
      ?_
    refine carries_branch ?_ (carries_pure fun _ _ h => h)
    refine carries_bind (tracking_parseStartTag hfuel htype true) fun _ => ?_
    refine carries_bind (Q := fun _ => Tracks d k)
      (carries_modify (fun _ h => h) fun _ _ h => { h with isWhitespace := rfl }) fun _ => ?_
    exact carries_pure fun _ _ h => h
  · exact carries_bind (tracking_parseProccessingInstruction hfuel willPush) fun _ =>
      carries_pure fun _ _ h => h

theorem carries_parseLegacy (hfuel : fuel ≤ fuel') (htype : k.type = true) (willPush : Bool) :
    Carries d.past (Tracks d k) (parseLegacy env features fuel
      (readName env features fuel) willPush)
      (parseLegacy env features fuel' (readName env features fuel') willPush)
      fun _ => Tracks d { k with text := true } := by
  refine carries_bind (tracking_readEnsureAll _) fun _ => carries_bind tracking_read fun c => ?_
  refine carries_bind carries_clearText fun _ => carries_branch ?_ (carries_branch ?_ ?_)
  · refine carries_bind (tracking_peek 0) fun nc => carries_branch ?_ (carries_branch ?_ ?_)
    · exact carries_bind (tracking_parseComment hfuel willPush) fun _ => carries_pure fun _ _ h => h
    · exact carries_bind (tracking_parseCDATA hfuel) fun _ => carries_pure fun _ _ h => h
    · exact carries_bind (tracking_parseDocType hfuel willPush) fun _ => carries_pure fun _ _ h => h
  · exact tracking_parseLegacyInstruction (k := { k with text := true }) hfuel htype willPush
  · exact carries_raiseParser _ _

-- Events

def Kept.answering (k : Kept) (r : EventType) : Kept :=
  { k with text := k.text || decide (EventType.TEXT.code ≤ r.code) }

theorem Tracks.answers {r : EventType} (h : Tracks d k p p') (hr : r.code < EventType.TEXT.code) :
    Tracks d (k.answering r) p p' where
  __ := h
  text hanswering := h.text (by simpa [Kept.answering, Nat.not_le_of_lt hr] using hanswering)

theorem Tracks.answers_text {r : EventType} (h : Tracks d { k with text := true } p p') :
    Tracks d (k.answering r) p p' where
  __ := h
  text _ := h.text rfl

theorem tracking_setType (type : EventType) : Tracking d k (setType type) (setType type) :=
  carries_modify (fun _ h => h) fun _ _ h => { h with type := fun _ => rfl }

theorem carries_parseEvent (hfuel : fuel ≤ fuel') (hk : k.type = true) {type : EventType}
    (htype : type ≠ .ENTITY_REF) :
    Carries d.past (Tracks d k) (parseEvent env features fuel (readName env features fuel) type)
      (parseEvent env features fuel' (readName env features fuel') type)
      fun r => Tracks d (k.answering r) := by
  refine carries_get fun p p' => ?_
  have hlegacy : Carries d.past (fun s s' => Tracks d k p p' ∧ Tracks d k s s')
      (parseLegacy env features fuel (readName env features fuel) p.token)
      (parseLegacy env features fuel' (readName env features fuel') p'.token)
      fun r => Tracks d (k.answering r) := by
    refine carries_of (K := p'.token = p.token) (fun s s' h => h.1.token'.trans h.1.token.symm)
      (carries_parseLegacy (d := d) (k := k) hfuel hk p.token).maintains fun htoken => ?_
    rw [htoken]
    exact ((carries_parseLegacy hfuel hk _).weaken fun s s' h => h.2).imp fun r s s' h =>
      h.answers_text
  cases type with
  | START_TAG =>
    refine carries_bind ((tracking_parseStartTag hfuel hk false).weaken fun s s' h =>
      h.2) fun _ => ?_
    exact carries_pure fun _ _ h => h.answers (by decide)
  | END_TAG =>
    refine carries_bind ((tracking_parseEndTag hfuel).weaken fun s s' h => h.2) fun _ => ?_
    exact carries_pure fun _ _ h => h.answers (by decide)
  | ENTITY_REF => exact absurd rfl htype
  | END_DOCUMENT => exact carries_pure fun _ _ h => h.2.answers (by decide)
  | TEXT =>
    refine carries_bind (Q := fun _ => Tracks d { k with text := true }) ?_ fun _ =>
      carries_get fun q q' => ?_
    · refine carries_of (K := p'.token = p.token) (fun s s' h => h.1.token'.trans h.1.token.symm)
        (carries_parseText (d := d) (k := k) hfuel hk _ _).maintains fun htoken => ?_
      rw [htoken]
      exact (carries_parseText hfuel hk _ _).weaken fun s s' h => h.2
    · refine carries_pure_of (fun s s' h => ?_) fun s s' h => h.2.answers_text
      rw [SGXmlPullParser.textIsWhitespace, SGXmlPullParser.textIsWhitespace, h.1.type hk,
        h.1.isWhitespace, h.1.depth]
  | _ => exact hlegacy

theorem maintains_past_parseEvent (type : EventType) :
    Maintains d.past (parseEvent env features fuel (readName env features fuel) type) := by
  by_cases htype : type = .ENTITY_REF
  · rw [htype]
    refine maintains_bind maintains_get fun p => maintains_bind ?_ fun _ => maintains_pure _
    exact (tracking_parseEntity (k := {}) (Nat.le_refl fuel) rfl p.token).maintains
  · exact (carries_parseEvent (k := {}) (Nat.le_refl fuel) rfl htype).maintains

theorem carries_doParse (hfuel : fuel ≤ fuel') (hk : k.type = true) (type : EventType) :
    Carries d.past (Tracks d k) (doParse env features fuel (readName env features fuel) type)
      (doParse env features fuel' (readName env features fuel') type)
      (RoundCarries (fun _ => Tracks d k) fun r => Tracks d (k.answering r)) := by
  refine carries_get fun p p' => carries_ite (fun s s' h => ?_) (fun _ => ?_) fun _ => ?_
  · rw [h.1.degenerated]
  · refine carries_bind (Q := fun _ => Tracks d k) (carries_modify (fun _ h => h) fun _ _ h =>
      { h.2 with degenerated := rfl, type := fun _ => rfl }) fun _ => ?_
    exact carries_pure fun _ _ h => h.answers (by decide)
  · refine carries_of (K := p.token = false ∧ p'.token = false)
      (fun s s' h => ⟨h.1.token, h.1.token'⟩) ?_
      fun htoken => ?_
    · refine maintains_bind (maintains_modify fun _ h => h) fun _ => ?_
      refine maintains_bind (maintains_past_parseEvent _) fun r => ?_
      exact maintains_bind (maintains_modify fun _ h => h) fun _ => maintains_pure _
    · rw [htoken.1, htoken.2]
      refine carries_bind ((tracking_setType _).weaken fun s s' h => h.2) fun _ => ?_
      refine carries_bind (carries_parseEvent hfuel hk ?_) fun r => ?_
      · split
        · nofun
        · rename_i hentity
          exact fun htype => hentity (by rw [htype]; rfl)
      · refine carries_bind (Q := fun _ => Tracks d (k.answering r)) (carries_modify (fun _ h => h)
          fun _ _ h =>
          { h with type := fun _ => rfl }) fun _ => carries_pure fun s s' h => ?_
        by_cases hr : r = .XML_DECL
        · rw [if_pos hr]
          exact { h with text := fun hk => h.text (by rw [Kept.answering, hk]; rfl) }
        · rw [if_neg hr]
          exact h

theorem carries_doParseLoop (hfuel : fuel ≤ fuel') (hk : k.type = true) (type : EventType) :
    Carries d.past (Tracks d k)
      (loop (doParse env features fuel (readName env features fuel)) fuel type)
      (loop (doParse env features fuel' (readName env features fuel')) fuel' type)
      fun r => Tracks d (k.answering r) :=
  carries_loop (fun _ => Tracks d k) (carries_doParse hfuel hk) hfuel type

theorem carries_doNext (hfuel : fuel ≤ fuel') (hk : k.type = true) :
    Carries d.past (Tracks d k) (doNext env features fuel (readName env features fuel))
      (doNext env features fuel' (readName env features fuel')) fun r =>
        Tracks d (k.answering r) := by
  refine carries_bind (Q := fun _ => Tracks d k) (carries_modify (fun _ h => h) fun p p' h =>
    ?_) fun _ => ?_
  · exact { h with depth := by rw [h.type hk, h.depth] }
  · refine carries_bind tracking_peekType fun type => ?_
    exact carries_bind (tracking_setType type) fun _ => carries_doParseLoop hfuel hk type

theorem tracking_nextRound (hfuel : fuel ≤ fuel') (hk : k.type = true) (htext : k.text = true)
    (minimum : Option EventType) :
    Tracking d k (nextRound env features fuel (readName env features fuel) minimum)
      (nextRound env features fuel' (readName env features fuel') minimum) := by
  refine carries_bind (Q := fun _ => Tracks d k) ((carries_doNext hfuel hk).imp fun r s s' h =>
    { h with text := fun _ => h.text (by rw [Kept.answering, htext]; rfl) }) fun type => ?_
  refine carries_branch (carries_pure fun _ _ h => h) (carries_branch ?_
    (carries_pure fun _ _ h => h))
  exact carries_bind tracking_peekType fun _ => carries_pure fun _ _ h => h

theorem tracking_next (hfuel : fuel ≤ fuel') (hk : k.type = true) (htext : k.text = true) :
    Tracking d k (next env features fuel (readName env features fuel))
      (next env features fuel' (readName env features fuel')) := by
  refine carries_bind (Q := fun _ => Tracks d k) (carries_modify (fun _ h => h) fun _ _ h =>
    { h with isWhitespace := rfl, token := rfl, token' := rfl }) fun _ => ?_
  refine carries_bind (tracking_loop (tracking_nextRound hfuel hk htext) hfuel none) fun minimum =>
    ?_
  exact carries_bind (tracking_setType _) fun _ => carries_pure fun _ _ h => h

end

end BathyScaphe.Xml
