import BathyScaphe.Xml.Coalescing
import BathyScaphe.Xml.Events

/-!
# The place behind a token

What the parser looks at before a token does not change the token. Behind a processing
instruction and behind white space outside of the elements the parser is at an exact
place of the source.
-/

namespace BathyScaphe.Xml

open NSString Comp

section
variable {env : Environment} {features : Features} {fuel : Nat} {readName : Parser NSString}
  {p b b₁ : SGXmlPullParser} {type : EventType} {source : NSString}

-- Looking ahead

def SGXmlPullParser.withBuffer (p b : SGXmlPullParser) : SGXmlPullParser :=
  { p with
    rest := b.rest, position := b.position, peeked := b.peeked, peekReadedCR :=
      b.peekReadedCR, eos := b.eos }

theorem fetch_withBuffer (rest : NSString) (p b : SGXmlPullParser) :
    fetch rest (p.withBuffer b) = p.withBuffer (fetch rest b) := by
  induction rest generalizing b with
  | nil => rfl
  | cons c rest ih =>
    have hcr : (p.withBuffer b).peekReadedCR = b.peekReadedCR := rfl
    rw [fetch, fetch, hcr]
    by_cases hreturn : c = uc '\r'
    · rw [if_pos hreturn, if_pos hreturn]
      rfl
    · rw [if_neg hreturn, if_neg hreturn]
      split
      · exact ih { b with rest := rest, peekReadedCR := false, position := b.position + 1 }
      · rfl

theorem fill_withBuffer (n : Nat) (p b : SGXmlPullParser) :
    fill n (p.withBuffer b) = p.withBuffer (fill n b) := by
  induction n generalizing b with
  | zero => rfl
  | succ n ih =>
    rw [fill, fill, ← ih, ← fetch_withBuffer]
    rfl

theorem peek_eq (index : Nat) (p : SGXmlPullParser) :
    peek index p =
      .ok ((fill (index + 1 - p.peeked.length) p).peeked.getD index XML_INVALID_UNICHAR)
      (fill (index + 1 - p.peeked.length) p) := rfl

theorem peek_withBuffer (h : peek index b = .ok c b₁) :
    peek index (p.withBuffer b) = .ok c (p.withBuffer b₁) := by
  have hpeeked : (p.withBuffer b).peeked = b.peeked := rfl
  rw [peek_eq] at h
  cases h
  rw [peek_eq, hpeeked, fill_withBuffer]
  rfl

theorem exists_peeked_fill (n : Nat) (p : SGXmlPullParser) :
    ∃ l, (fill n p).peeked = p.peeked ++ l := by
  induction n generalizing p with
  | zero => exact ⟨[], (List.append_nil _).symm⟩
  | succ n ih =>
    obtain ⟨l, hl⟩ := ih (fetch p.rest p)
    have hfetch : ∃ c, (fetch p.rest p).peeked = p.peeked ++ [c] := by
      obtain ⟨-, ⟨c, hpeeked, -⟩ | ⟨hpeeked, -⟩⟩ := fetch_spec p.rest p
      · exact ⟨c, hpeeked⟩
      · exact ⟨_, hpeeked⟩
    obtain ⟨c, hc⟩ := hfetch
    exact ⟨c :: l, by rw [fill, hl, hc, List.append_assoc, List.singleton_append]⟩

theorem peek_filled (h : peek index b = .ok c b₁) (n : Nat) :
    peek index (fill n b₁) = .ok c (fill n b₁) := by
  rw [peek_eq] at h
  cases h
  obtain ⟨l, hl⟩ := exists_peeked_fill n (fill (index + 1 - b.peeked.length) b)
  have hlt : index < (fill (index + 1 - b.peeked.length) b).peeked.length := by
    rw [length_fill]
    omega
  have hzero : index + 1 - (fill n (fill (index + 1 - b.peeked.length) b)).peeked.length = 0 := by
    rw [hl, List.length_append]
    omega
  rw [peek_eq, hzero, fill, hl, List.getD_eq_getElem?_getD, List.getElem?_append_left hlt,
    ← List.getD_eq_getElem?_getD]

theorem peek_again (h : peek index b = .ok c b₁) : peek index b₁ = .ok c b₁ := peek_filled h 0

def headType (c : UniChar) : EventType :=
  if c = XML_INVALID_UNICHAR then .END_DOCUMENT else if c = uc '&' then .ENTITY_REF else .TEXT

theorem peekType_eq (h : peek 0 p = .ok c b) :
    peekType p = if c = uc '<' then (peek 1 >>= fun nc => pure (tagType nc) : Parser EventType) b
      else .ok (headType c) b := by
  have htag : (fun nc => if nc = uc '/' then pure .END_TAG
      else if nc = uc '?' || nc = uc '!' then pure .LEGACY else pure .START_TAG :
        UniChar → Parser EventType) =
        fun nc => pure (tagType nc) := by
    funext nc
    unfold tagType
    split
    · rfl
    · split
      · rfl
      · rfl
  show (peek 0 >>= _) p = _
  rw [bind_of_ok h, htag]
  unfold headType
  by_cases hend : c = XML_INVALID_UNICHAR
  · rw [if_pos hend, if_pos hend, if_neg (by rw [hend]; decide)]
    rfl
  · rw [if_neg hend, if_neg hend]
    by_cases hentity : c = uc '&'
    · rw [if_pos hentity, if_pos hentity, if_neg (by rw [hentity]; decide)]
      rfl
    · rw [if_neg hentity, if_neg hentity]
      split
      · rfl
      · rfl

theorem peekType_withBuffer (h : peekType b = .ok type b₁) :
    peekType (p.withBuffer b) = .ok type (p.withBuffer b₁) := by
  rw [peekType_eq (peek_eq 0 b)] at h
  rw [peekType_eq (peek_withBuffer (peek_eq 0 b))]
  split at h
  · rename_i htag
    rw [if_pos htag]
    obtain ⟨nc, b', hpeek, hrest⟩ := exists_of_bind h
    cases hrest
    rw [bind_of_ok (peek_withBuffer hpeek)]
    rfl
  · rename_i htag
    rw [if_neg htag]
    cases h
    rfl

theorem peekType_again (h : peekType b = .ok type b₁) : peekType b₁ = .ok type b₁ := by
  rw [peekType_eq (peek_eq 0 b)] at h
  split at h
  · rename_i htag
    obtain ⟨nc, b', hpeek, hrest⟩ := exists_of_bind h
    cases hrest
    have hfilled := hpeek
    rw [peek_eq] at hfilled
    cases hfilled
    rw [peekType_eq (peek_filled (peek_eq 0 b) _), if_pos htag, bind_of_ok (peek_again hpeek)]
    rfl
  · rename_i htag
    cases h
    rw [peekType_eq (peek_again (peek_eq 0 b)), if_neg htag]

theorem withBuffer_of_peekType (h : peekType p = .ok type b) : b = p.withBuffer b := by
  have hself : peekType (p.withBuffer p) = .ok type (p.withBuffer b) := peekType_withBuffer h
  exact (Outcome.ok.inj (h.symm.trans hself)).2

theorem doNext_looked (h : peekType b = .ok type b₁) (p : SGXmlPullParser) :
    doNext env features fuel readName (p.withBuffer b₁) =
      doNext env features fuel readName (p.withBuffer b) := by
  show (peekType >>= _) (p.stepPast.withBuffer b₁) = (peekType >>= _) (p.stepPast.withBuffer b)
  rw [bind_of_ok (peekType_withBuffer (peekType_again h)), bind_of_ok (peekType_withBuffer h)]

-- Behind an instruction

/-- The last unit that was read is the end of an instruction, and nothing is in the
buffer. -/
structure Behind (source : NSString) (p : SGXmlPullParser) : Prop where
  peeked : p.peeked = []
  plain : p.peekReadedCR = false
  place : ∃ before, source = before ++ (uc '>' :: p.rest) ∧ p.position = before.length + 1

theorem Placed.behind (h : Placed source p) (hvalid : XML_INVALID_UNICHAR ∉ source)
    (hpeeked : p.peeked = ns "?>") (column : Nat) :
    Behind source { p with peeked := [], position := p.position + 2, column := column } := by
  obtain ⟨before, q, b, hsource, hcount, hq, hcr⟩ | hended := h.aligned
  · have hvalid' : XML_INVALID_UNICHAR ∉ q := by
      intro hmem
      refine hvalid ?_
      rw [hsource]
      exact List.mem_append_right _ (List.mem_append_left _ hmem)
    rw [hpeeked] at hq hcount
    obtain ⟨skipped, hskipped, hafter⟩ := packed_skipped (b := b) hvalid' (by rw [← hq]; decide)
      (by rw [← hq]; decide)
    rw [← hq] at hskipped
    have hend : ns "?>" = [uc '?', uc '>'] := rfl
    refine ⟨rfl, hcr.trans hafter, before ++ skipped ++ [uc '?'], ?_, ?_⟩
    · rw [hsource, hskipped, hend]
      simp
    · rw [hskipped, hend, List.length_append] at hcount
      simp only [List.length_append, List.length_cons, List.length_nil] at hcount ⊢
      omega
  · have hlast := hended.2 (uc '>') (by rw [hpeeked]; rfl)
    exact absurd hlast (by decide)

theorem read_buffered (h : p.peeked = c :: l) : read p = .ok c { p with
    peeked := l
    position := p.position + 1
    line := if c = uc '\n' then p.line + 1 else p.line
    column := if c = uc '\n' then 0 else p.column + 1 } := by
  have hpeek : peek 0 p = .ok c p := by
    have hzero : 0 + 1 - p.peeked.length = 0 := by
      rw [h, List.length_cons]
      omega
    rw [peek_eq, hzero, fill, h]
    rfl
  have htail : l = p.peeked.tail := by rw [h, List.tail_cons]
  show (peek 0 >>= _) p = _
  rw [bind_of_ok hpeek, htail]
  rfl

theorem readEnsure_buffered (h : p.peeked = c :: l) (hread : readEnsure c' p = .ok r b) :
    c' = c ∧ b = { p with
      peeked := l
      position := p.position + 1
      line := if c = uc '\n' then p.line + 1 else p.line
      column := if c = uc '\n' then 0 else p.column + 1 } := by
  obtain ⟨d, p₁, hfirst, hrest⟩ := exists_of_bind hread
  rw [read_buffered h] at hfirst
  cases hfirst
  split at hrest
  · rename_i hc
    cases hrest
    exact ⟨hc, rfl⟩
  · cases hrest

theorem ensures_instructionEnd (hvalid : XML_INVALID_UNICHAR ∉ source) :
    Ensures (fun p => Placed source p ∧ p.peeked.length = 2) (readEnsureAll (ns "?>"))
      fun _ => Behind source := by
  rintro p _ p' ⟨h, hlength⟩ hread
  obtain ⟨c, d, hpeeked⟩ := List.length_eq_two.mp hlength
  obtain ⟨_, p₁, hfirst, hread⟩ := exists_of_bind hread
  obtain ⟨_, p₂, hsecond, hend⟩ := exists_of_bind hread
  cases hend
  obtain ⟨rfl, rfl⟩ := readEnsure_buffered hpeeked hfirst
  obtain ⟨rfl, rfl⟩ := readEnsure_buffered rfl hsecond
  exact h.behind hvalid hpeeked _

theorem ensures_peekOne : Ensures (Placed source) (peek 1) fun _ p =>
    Placed source p ∧ p.peeked.length = 2 := by
  rintro p _ p' h hpeek
  have hplaced := maintains_peek (Nat.le_refl 1) _ _ _ h hpeek
  rw [peek_eq] at hpeek
  cases hpeek
  have hbuffered := h.buffered
  refine ⟨hplaced, ?_⟩
  rw [length_fill]
  omega

theorem ensures_followedBy (first second : UniChar) : Ensures (Placed source)
    (followedBy first second)
    fun closes p => Placed source p ∧ (closes = true → p.peeked.length = 2) := by
  refine ensures_bind (scanned_placed.peekZero).ensures fun c =>
    ensures_ite (fun _ => ?_) fun _ => ?_
  · exact ensures_bind ensures_peekOne fun nc => ensures_pure fun p h => ⟨h.1, fun _ => h.2⟩
  · exact ensures_pure fun p h => ⟨h, nofun⟩

theorem ensures_parseProccessingInstruction (hvalid : XML_INVALID_UNICHAR ∉ source)
    (willPush : Bool) :
    Ensures (Placed source) (parseProccessingInstruction fuel willPush) fun _ => Behind source := by
  refine ensures_bind (Q := fun _ p => Placed source p ∧ p.peeked.length = 2) ?_ fun _ =>
    ensures_instructionEnd hvalid
  refine ensures_loop_all (fun _ => Placed source) (fun _ => ?_) fuel ()
  refine ensures_bind scanned_placed.reads.ensures fun c => ?_
  refine ensures_bind (ensures_followedBy _ _) fun closes =>
    ensures_ite (fun hcloses => ?_) fun _ => ?_
  · exact ensures_pure fun p h => ⟨h.1, h.2 hcloses⟩
  · refine ensures_ite (fun _ => ensures_raiseParser _) fun _ => ?_
    refine ensures_bind (Q := fun _ => Placed source) ?_ fun _ => ensures_pure fun p h => h
    exact fun p a p' h hwhen =>
      maintains_when willPush (scanned_placed.pushed.push c) p a p' h.1 hwhen

structure Bears (isWhitespace : Bool) (name : Option NSString)
    (attributes : List (NSString × NSString))
    (p : SGXmlPullParser) : Prop where
  isWhitespace : p.isWhitespace = isWhitespace
  name : p.name = name
  attributes : p.attributes = attributes

variable {isWhitespace : Bool} {name : Option NSString} {attributes : List (NSString × NSString)}

theorem buffered_bears : Buffered (Bears isWhitespace name attributes) :=
  buffered_of fun _ _ _ _ _ _ _ _ h => ⟨h.isWhitespace, h.name, h.attributes⟩

theorem maintains_bears_parseProccessingInstruction :
    Maintains (Bears isWhitespace name attributes) (parseProccessingInstruction fuel false) := by
  refine maintains_bind ?_ fun _ => buffered_bears.readEnsureAll _
  refine maintains_loop (fun _ => maintains_bind buffered_bears.reads fun c => ?_) fuel ()
  refine maintains_bind (buffered_bears.followedBy _ _) fun closes =>
    maintains_ite (maintains_pure _) ?_
  refine maintains_ite (maintains_raiseParser _) ?_
  exact maintains_bind (maintains_pure ()) fun _ => maintains_pure _

/-- An instruction leaves the parser behind its end, and nothing else changed. -/
def Passes (source : NSString) (isWhitespace : Bool) (name : Option NSString)
    (attributes : List (NSString × NSString)) (r : EventType) (p : SGXmlPullParser) : Prop :=
  r = .PROCESSING_INSTRUCTION → Behind source p ∧ Bears isWhitespace name attributes p

theorem ensures_parseLegacyInstruction (hvalid : XML_INVALID_UNICHAR ∉ source) :
    Ensures (fun p => Placed source p ∧ Bears isWhitespace name attributes p)
      (parseLegacyInstruction env features fuel readName false)
      (Passes source isWhitespace name attributes) := by
  have hpeek : ∀ fits, Ensures (fun p => Placed source p ∧ Bears isWhitespace name attributes p)
      (peekSecond fits) fun _ p => Placed source p ∧ Bears isWhitespace name attributes p :=
    fun fits =>
    (scanned_placed.peekSecond fits).ensures.and (buffered_bears.peekSecond fits).ensures
  refine ensures_bind (scanned_placed.peekZero.ensures.and buffered_bears.peekZero.ensures) fun x =>
    ?_
  refine ensures_bind (hpeek _) fun m => ensures_ite (fun _ => ?_) fun _ => ?_
  · refine ensures_bind ensures_true fun c => ensures_bind ensures_true fun _ => ?_
    refine ensures_bind ensures_true fun c => ensures_bind ensures_true fun _ => ?_
    refine ensures_bind ensures_true fun l => ensures_bind ensures_true fun space => ?_
    refine ensures_ite (fun _ => ?_) fun _ => ensures_pure fun p h => nofun
    refine ensures_bind ensures_true fun _ => ensures_bind ensures_true fun _ => ?_
    exact ensures_pure fun p h => nofun
  · refine ensures_bind ((ensures_parseProccessingInstruction hvalid false).and
      maintains_bears_parseProccessingInstruction.ensures) fun _ => ?_
    exact ensures_pure fun p h _ => h

theorem ensures_parseLegacy (hvalid : XML_INVALID_UNICHAR ∉ source) :
    Ensures (fun p => Placed source p ∧ Bears isWhitespace name attributes p)
      (parseLegacy env features fuel readName false)
      (Passes source isWhitespace name attributes) := by
  refine ensures_bind ((scanned_placed.readEnsureAll _).ensures.and
    (buffered_bears.readEnsureAll _).ensures) fun _ => ?_
  refine ensures_bind (scanned_placed.reads.ensures.and buffered_bears.reads.ensures) fun c => ?_
  refine ensures_bind (Q := fun _ p => Placed source p ∧ Bears isWhitespace name attributes p)
    (ensures_modify fun p h => ⟨⟨h.1.keeps, h.1.aligned, h.1.buffered⟩,
      ⟨h.2.isWhitespace, h.2.name, h.2.attributes⟩⟩)
    fun _ => ensures_ite (fun _ => ?_) fun _ => ?_
  · refine ensures_bind ensures_true fun nc => ensures_ite (fun _ => ?_) fun _ =>
      ensures_ite (fun _ => ?_) fun _ => ?_
    · exact ensures_bind ensures_true fun _ => ensures_pure fun p h => nofun
    · exact ensures_bind ensures_true fun _ => ensures_pure fun p h => nofun
    · exact ensures_bind ensures_true fun _ => ensures_pure fun p h => nofun
  · exact ensures_ite (fun _ => ensures_parseLegacyInstruction hvalid) fun _ =>
      ensures_raiseParser _

theorem ensures_doParse_legacy (hvalid : XML_INVALID_UNICHAR ∉ source) :
    Ensures (fun p => p.token = false ∧ Placed source p ∧ Bears isWhitespace name attributes p)
      (doParse env features fuel readName .LEGACY) fun r p => r = .inr .PROCESSING_INSTRUCTION →
        Behind source p ∧ Bears isWhitespace name attributes p := by
  refine ensures_bind ensures_get fun p => ensures_ite (fun _ => ?_) fun _ => ?_
  · exact ensures_bind ensures_true fun _ => ensures_pure fun p h => nofun
  · refine ensures_bind (Q := fun _ p => p.token = false ∧ Placed source p ∧
      Bears isWhitespace name attributes p)
      (ensures_modify fun s h => ?_) fun _ =>
        ensures_bind (Q := Passes source isWhitespace name attributes) ?_ fun r => ?_
    · obtain ⟨rfl, htoken, hplaced, hbears⟩ := h
      exact ⟨htoken, ⟨hplaced.keeps, hplaced.aligned, hplaced.buffered⟩,
        ⟨hbears.isWhitespace, hbears.name, hbears.attributes⟩⟩
    · have hlegacy : Ensures (fun p => p.token = false ∧ Placed source p ∧
        Bears isWhitespace name attributes p)
          (parseEvent env features fuel readName .LEGACY)
          (Passes source isWhitespace name attributes) := by
        refine ensures_bind ensures_get fun q => ?_
        refine ensures_of (K := q.token = false) (fun s h => h.1 ▸ h.2.1) fun htoken => ?_
        show Ensures _ (parseLegacy env features fuel readName q.token) _
        rw [htoken]
        exact (ensures_parseLegacy hvalid).weaken fun s h => h.1 ▸ h.2.2
      exact hlegacy
    · refine ensures_bind (Q := fun _ => Passes source isWhitespace name attributes r)
        (ensures_modify fun s h hr => ?_) fun _ => ensures_pure fun s h hr => ?_
      · obtain ⟨hbehind, hbears⟩ := h hr
        exact ⟨⟨hbehind.peeked, hbehind.plain, hbehind.place⟩,
          ⟨hbears.isWhitespace, hbears.name, hbears.attributes⟩⟩
      · by_cases hdecl : r = .XML_DECL
        · rw [if_pos hdecl] at hr
          cases hr
        · rw [if_neg hdecl] at hr
          exact h (Sum.inr.inj hr)

-- The units of an instruction

theorem packed_plain_cons (hcr : c ≠ uc '\r') (hc : c ≠ uc '\n')
    (hinvalid : c ≠ XML_INVALID_UNICHAR)
    (afterCR : Bool) (s : NSString) : packed afterCR (c :: s) = c :: packed false s := by
  rw [packed, if_neg hcr, if_neg (by simp [hc, hinvalid])]

theorem packed_false_cons (hinvalid : c ≠ XML_INVALID_UNICHAR) (s : NSString) :
    ∃ d, (d = c ∨ c = uc '\r' ∧ d = uc '\n') ∧ packed false (c :: s) =
      d :: packed (c = uc '\r' : Bool) s := by
  rw [packed]
  by_cases hcr : c = uc '\r'
  · exact ⟨uc '\n', .inr ⟨hcr, rfl⟩, by rw [if_pos hcr, decide_eq_true hcr]⟩
  · exact ⟨c, .inl rfl, by rw [if_neg hcr, if_neg (by simp [hinvalid]), decide_eq_false hcr]⟩

theorem IsInstruction.packed (hw : IsInstruction w) (hvalid : XML_INVALID_UNICHAR ∉ w) (b : Bool) :
    IsInstruction (packed b w) := by
  induction w generalizing b with
  | nil => exact trivial
  | cons c w ih =>
    have hvalid' := List.not_mem_of_not_mem_cons hvalid
    rw [Xml.packed]
    by_cases hcr : c = uc '\r'
    · rw [if_pos hcr]
      have hrest := ih hw.tail hvalid' true
      cases hpacked : Xml.packed true w with
      | nil => exact trivial
      | cons d s => exact ⟨fun h => absurd h.1 (by decide), hpacked ▸ hrest⟩
    · rw [if_neg hcr]
      split
      · exact ih hw.tail hvalid' false
      · have hrest := ih hw.tail hvalid' false
        cases w with
        | nil => exact trivial
        | cons d w =>
          obtain ⟨d', hd, hpacked⟩ := packed_false_cons (List.ne_of_not_mem_cons hvalid').symm w
          rw [hpacked] at hrest ⊢
          refine ⟨fun h => hw.1 ⟨h.1, ?_⟩, hrest⟩
          obtain rfl | ⟨-, hnew⟩ := hd
          · exact h.2
          · exact absurd (hnew.symm.trans h.2) (by decide)

theorem packed_ne_nil (hvalid : XML_INVALID_UNICHAR ∉ w) (hne : w ≠ []) : packed false w ≠ [] := by
  obtain ⟨c, w, rfl⟩ := List.exists_cons_of_ne_nil hne
  obtain ⟨d, -, hpacked⟩ := packed_false_cons (List.ne_of_not_mem_cons hvalid).symm w
  rw [hpacked]
  exact List.cons_ne_nil _ _

theorem isXm_of_ne (hx : tolower c ≠ uc 'x') (s : NSString) :
    (Piece.instruction (c :: s)).isXm = false := by
  cases s with
  | nil => rfl
  | cons d s => simp [Piece.isXm, hx]

theorem isXm_packed (hvalid : XML_INVALID_UNICHAR ∉ w) (hxm : (Piece.instruction w).isXm = false) :
    (Piece.instruction (packed false w)).isXm = false := by
  cases w with
  | nil => rfl
  | cons c w =>
    have hvalid' := List.not_mem_of_not_mem_cons hvalid
    obtain ⟨d, hd, hpacked⟩ := packed_false_cons (List.ne_of_not_mem_cons hvalid).symm w
    rw [hpacked]
    by_cases hx : tolower d = uc 'x'
    · obtain rfl | ⟨-, rfl⟩ := hd
      · have hcr : d ≠ uc '\r' := by
          rintro rfl
          exact absurd hx (by decide)
        rw [decide_eq_false hcr]
        cases w with
        | nil => rfl
        | cons c' w =>
          obtain ⟨d', hd', hpacked'⟩ := packed_false_cons (List.ne_of_not_mem_cons hvalid').symm w
          rw [hpacked']
          obtain rfl | ⟨-, rfl⟩ := hd'
          · exact hxm
          · show (tolower d = uc 'x' && tolower (uc '\n') = uc 'm' : Bool) = false
            rw [Bool.and_eq_false_iff]
            exact .inr rfl
      · exact absurd hx (by decide)
    · exact isXm_of_ne hx _

theorem eq_of_packed {before before' s t : NSString}
    (hsource : before ++ (uc '>' :: s) = before' ++ (uc '>' :: t))
    (h : packed false s = packed false t) :
    s = t := by
  have hlonger : ∀ a s : NSString, packed false (a ++ (uc '>' :: s)) ≠ packed false s := by
    intro a s heq
    have hlength := congrArg List.length heq
    rw [packed_append, packed_plain_cons (by decide) (by decide) (by decide), List.length_append,
      List.length_cons] at hlength
    omega
  obtain ⟨a, hbefore, hs⟩ | ⟨a, hbefore, ht⟩ := List.append_eq_append_iff.mp hsource
  · cases a with
    | nil => exact (List.cons.inj hs).2
    | cons c a =>
      rw [(List.cons.inj hs).2] at h
      exact absurd h (hlonger a t)
  · cases a with
    | nil => exact (List.cons.inj ht).2.symm
    | cons c a =>
      rw [(List.cons.inj ht).2] at h
      exact absurd h.symm (hlonger a s)

structure Moved (p p' : SGXmlPullParser) (type : EventType) (peeked rest : NSString)
    (position : Nat)
    (isWhitespace : Bool) : Prop where
  source : p'.source = p.source
  type : p'.type = type
  peeked : p'.peeked = peeked
  rest : p'.rest = rest
  plain : p'.rest ≠ [] → p'.peekReadedCR = false
  position : p'.position = position
  isWhitespace : p'.isWhitespace = isWhitespace
  degenerated : p'.degenerated = false
  token : p'.token = false
  name : p'.name = p.name
  attributes : p'.attributes = p.attributes
  depth : p'.depth = p.stepPast.depth

theorem render_instruction (w s : NSString) :
    (Piece.instruction w).render ++ s = uc '<' :: uc '?' :: (w ++ (uc '?' :: uc '>' :: s)) := by
  simp only [Piece.render, List.append_assoc]
  rfl

theorem packed_instruction (w s : NSString) : packed false (w ++ (uc '?' :: uc '>' :: s)) =
    packed false w ++ (uc '?' :: uc '>' :: packed false s) := by
  rw [packed_append, packed_plain_cons (by decide) (by decide) (by decide),
    packed_plain_cons (by decide) (by decide) (by decide)]

theorem Placed.at_instruction {w post : NSString} (h : Placed source p)
    (hvalid : XML_INVALID_UNICHAR ∉ source) (htoken : p.token = false)
    (hdegenerated : p.degenerated = false) (hbuffered : p.peeked.length ≤ 1)
    (hunits : p.peeked ++ p.rest = (Piece.instruction w).render ++ post) :
    At p ⟨source, (Piece.instruction (packed false w)).render ++ packed false post,
      p.textBuf, p.type,
      p.depth⟩ := by
  rw [render_instruction] at hunits
  have hleft : p.peeked ++ packed p.peekReadedCR p.rest =
      (Piece.instruction (packed false w)).render ++ packed false post := by
    rw [render_instruction, ← packed_instruction]
    match hpeeked : p.peeked with
    | [] =>
      rw [hpeeked, List.nil_append] at hunits
      rw [hunits, packed_plain_cons (by decide) (by decide) (by decide),
        packed_plain_cons (by decide) (by decide) (by decide)]
      rfl
    | [c] =>
      rw [hpeeked, List.singleton_append] at hunits
      rw [(List.cons.inj hunits).2, (List.cons.inj hunits).1,
        packed_plain_cons (by decide) (by decide) (by decide)]
      rfl
    | c :: d :: l =>
      rw [hpeeked, List.length_cons, List.length_cons] at hbuffered
      omega
  have haligned : Aligned source p := by
    refine h.aligned.resolve_right fun hended => ?_
    have hlength := congrArg List.length hunits
    rw [hended.1, List.append_nil, List.length_cons, List.length_cons] at hlength
    omega
  refine ⟨h.keeps, hvalid, hleft, ?_, haligned, h.buffered, rfl, rfl, rfl, htoken, hdegenerated⟩
  obtain ⟨_, q, b, -, -, hpeeked, -⟩ := haligned
  rw [← hleft, hpeeked]
  intro hmem
  exact (List.mem_append.mp hmem).elim (packed_ne_invalid _ _) (packed_ne_invalid _ _)

theorem Moved.stepPast {peeked rest : NSString} {position : Nat} {white : Bool}
    {p' : SGXmlPullParser}
    (h : Moved p p' type peeked rest position white) (htype : type ≠ .END_TAG) :
    p'.stepPast.depth = p.stepPast.depth := by
  show (if p'.type = .END_TAG then p'.depth - 1 else p'.depth) = _
  rw [h.type, if_neg htype, h.depth]

theorem Moved.trans {peeked peeked' rest rest' : NSString} {position position' : Nat}
    {white white' : Bool}
    {p' p'' : SGXmlPullParser} {type' : EventType} (h : Moved p p' type peeked rest position white)
    (htype : type ≠ .END_TAG) (h' : Moved p' p'' type' peeked' rest' position' white') :
    Moved p p'' type' peeked' rest' position' white' :=
  { h' with
    source := h'.source.trans h.source
    name := h'.name.trans h.name
    attributes := h'.attributes.trans h.attributes
    depth := h'.depth.trans (h.stepPast htype) }

variable (env features readName) in
theorem doNext_instruction {w before post : NSString}
    (hsource : source = before ++ ((Piece.instruction w).render ++ post))
    (hvalid : XML_INVALID_UNICHAR ∉ source) (hw : IsInstruction w) (hne : w ≠ [])
    (hxm : (Piece.instruction w).isXm = false) (h : Placed source p) (htoken : p.token = false)
    (hdegenerated : p.degenerated = false) (hbuffered : p.peeked.length ≤ 1)
    (hunits : p.peeked ++ p.rest = (Piece.instruction w).render ++ post)
    (hfuel : (Piece.instruction w).render.length < fuel) :
    ∃ p', doNext env features fuel readName p = .ok .PROCESSING_INSTRUCTION p' ∧
      Moved p p' .PROCESSING_INSTRUCTION [] post (before ++ (Piece.instruction w).render).length
        p.isWhitespace := by
  have hvalidw : XML_INVALID_UNICHAR ∉ w := by
    intro hmem
    refine hvalid ?_
    rw [hsource, render_instruction]
    simp [hmem]
  have hwell : (Piece.instruction (packed false w)).WellFormed env features :=
    ⟨hw.packed hvalidw false, packed_ne_nil hvalidw hne⟩
  have hxm' := isXm_packed hvalidw hxm
  have hfuel' : (Piece.instruction (packed false w)).render.length < fuel := by
    have hle := length_packed_le false w
    simp only [Piece.render, List.length_append] at hfuel ⊢
    omega
  obtain ⟨v, hv⟩ : ∃ v : View, v = ⟨source, [], p.textBuf, p.type, p.depth⟩ := ⟨_, rfl⟩
  have hat :
    At p { v with left := (Piece.instruction (packed false w)).render ++ packed false post } := by
    rw [hv]
    exact h.at_instruction hvalid htoken hdegenerated hbuffered hunits
  obtain ⟨_, p', hnext, rfl, hat'⟩ := returns_iff_exists.mp
    (show Returns _ (doNext env features fuel readName p)
      from doNext_legacy rfl hwell hxm' hat hfuel')
  -- the same event once more, step by step, for what the view does not show
  obtain ⟨type, p₁, hpeek, hloop⟩ := doNext_cases hnext
  have hpast : At p.stepPast { v.enter with
      left := (Piece.instruction (packed false w)).render ++ packed false post } :=
    { hat with depth := by simp only [SGXmlPullParser.stepPast, View.enter, hat.type, hat.depth] }
  have hlegacy := peekType_tag hpast (render_instruction _ _)
  rw [hpeek] at hlegacy
  obtain ⟨rfl, hlooked⟩ := hlegacy
  have hparse : Returns _ (doParse env features fuel readName .LEGACY { p₁ with
    type := .LEGACY }) :=
    doParse_legacy (v := v.enter) rfl hwell hxm' { hlooked with type := rfl } hfuel'
  obtain ⟨fuel, rfl⟩ := Nat.exists_eq_succ_of_ne_zero (Nat.ne_zero_of_lt hfuel)
  obtain ⟨_, p₂, hround, rfl, -⟩ := returns_iff_exists.mp hparse
  have htype : tagType (uc '?') = .LEGACY := rfl
  rw [htype, loop, bind_of_ok hround] at hloop
  cases hloop
  have hplaced : Placed source p₁ := scanned_placed.peekType p.stepPast _ _
    ⟨h.keeps, h.aligned, h.buffered⟩ hpeek
  have hborn : Bears p.isWhitespace p.name p.attributes p₁ :=
    buffered_bears.peekType p.stepPast _ _ ⟨rfl, rfl, rfl⟩ hpeek
  obtain ⟨hbehind, hbears⟩ := ensures_doParse_legacy hvalid { p₁ with type := .LEGACY } _ _
    ⟨hlooked.token, ⟨hplaced.keeps, hplaced.aligned, hplaced.buffered⟩,
      ⟨hborn.isWhitespace, hborn.name, hborn.attributes⟩⟩ hround rfl
  obtain ⟨before', hsource', hposition⟩ := hbehind.place
  have hend : before ++ ((Piece.instruction w).render ++ post) =
      (before ++ (uc '<' :: uc '?' :: (w ++ [uc '?']))) ++ (uc '>' :: post) := by
    rw [render_instruction]
    simp
  have hleft := hat'.left
  rw [hbehind.peeked, hbehind.plain, List.nil_append] at hleft
  have hrest : p'.rest = post :=
    eq_of_packed (hsource'.symm.trans (hsource.trans hend)) hleft
  have hlength : before'.length + (p'.rest.length + 1) =
      (before ++ (Piece.instruction w).render).length + post.length := by
    have heq := congrArg List.length (hsource'.symm.trans hsource)
    rw [List.length_append, List.length_cons, ← List.append_assoc, List.length_append] at heq
    exact heq
  refine ⟨p', hnext, hat'.source.trans ?_, hat'.type, hbehind.peeked, hrest, fun _ =>
    hbehind.plain, ?_,
    hbears.isWhitespace, hat'.degenerated, hat'.token, hbears.name, hbears.attributes, ?_⟩
  · rw [h.keeps, View.enter, hv]
  · rw [hrest] at hlength
    omega
  · rw [hat'.depth]
    simp only [SGXmlPullParser.stepPast, View.enter, hv]

-- Behind white space

def Stops (tail : NSString) : Prop := tail = [] ∨ ∃ s, tail = uc '<' :: s

/-- The units before the tail are read, and the parser has looked at the tail. -/
def Skipped (tail : NSString) (n : Nat) (p p' : SGXmlPullParser) : Prop :=
  ∃ cr eos line column text, (tail.tail ≠ [] → cr = false) ∧ p' = { p with
    rest := tail.tail
    position := p.position + n
    peeked := [tail.headD XML_INVALID_UNICHAR]
    peekReadedCR := cr
    isWhitespace := true
    eos := eos
    line := line
    column := column
    textBuf := text }

theorem peek_fetch (h : p.peeked = []) :
    peek 0 p = .ok ((fetch p.rest p).peeked.getD 0 XML_INVALID_UNICHAR) (fetch p.rest p) := by
  rw [peek_eq, h]
  rfl

theorem ne_of_blank (hc : NSString.isWhitespace c = true) (d : UniChar)
    (hd : NSString.isWhitespace d = false) :
    c ≠ d := by
  rintro rfl
  rw [hc] at hd
  cases hd

theorem endsText_blank (hc : NSString.isWhitespace c = true) :
    endsText (uc '<') true c = false := by
  have htag := ne_of_blank hc (uc '<') (by decide)
  have hinvalid := ne_of_blank hc XML_INVALID_UNICHAR (by decide)
  have hspace : ¬ uc '<' = uc ' ' := by decide
  simp [endsText, hinvalid, htag.symm, hspace]

variable (env features fuel) in
theorem textLoop_blank (hpeeked : p.peeked = [c]) (hc : NSString.isWhitespace c = true) (n : Nat) :
    ∃ line column text, loop (parseTextRound env features fuel (uc '<') true) (n + 1) c p =
      (peek 0 >>= loop (parseTextRound env features fuel (uc '<') true) n) { p with
        peeked := []
        position := p.position + 1
        isWhitespace := true
        line := line
        column := column
        textBuf := text } := by
  have hentity : c ≠ uc '&' := by
    rintro rfl
    exact absurd hc (by decide)
  obtain ⟨d, hd, hpushed⟩ : ∃ d, (if p.type = .START_TAG && c = uc '\n' then uc ' ' else c) = d ∧
      NSString.isWhitespace d = true := by
    split
    · exact ⟨_, rfl, by decide⟩
    · exact ⟨_, rfl, hc⟩
  obtain ⟨line, column, text, hunit⟩ : ∃ line column text, parseTextUnit env features fuel c p =
      .ok () { p with
        peeked := [], position := p.position + 1, isWhitespace := true, line :=
          line, column := column,
        textBuf := text } := by
    refine ⟨if c = uc '\n' then p.line + 1 else p.line, if c = uc '\n' then 0 else p.column + 1,
      p.textBuf ++ [d], ?_⟩
    rw [parseTextUnit, if_neg hentity]
    show (read >>= fun c' => push (if p.type = .START_TAG && c = uc '\n' then uc ' ' else c')) p = _
    rw [bind_of_ok (read_buffered hpeeked), hd]
    show Outcome.ok () { p with
      peeked := [], position := p.position + 1, isWhitespace := NSString.isWhitespace d,
      line := if c = uc '\n' then p.line + 1 else p.line, column :=
        if c = uc '\n' then 0 else p.column + 1,
      textBuf := p.textBuf ++ [d] } = _
    rw [hpushed]
  refine ⟨line, column, text, ?_⟩
  obtain ⟨q, hq⟩ : ∃ q, q = { p with
    peeked := [], position := p.position + 1, isWhitespace := true, line := line, column := column,
    textBuf := text } := ⟨_, rfl⟩
  rw [← hq] at hunit ⊢
  have hround : parseTextRound env features fuel (uc '<') true c p =
      .ok (.inl ((fill (0 + 1 - q.peeked.length) q).peeked.getD 0 XML_INVALID_UNICHAR))
        (fill (0 + 1 - q.peeked.length) q) := by
    rw [parseTextRound, endsText_blank hc, if_neg Bool.false_ne_true, bind_of_ok hunit,
      bind_of_ok (peek_eq 0 q)]
    rfl
  rw [loop, bind_of_ok hround, bind_of_ok (peek_eq 0 q)]

theorem textLoop_stops (h : endsText (uc '<') true c = true) (n : Nat) :
    loop (parseTextRound env features fuel (uc '<') true) (n + 1) c p = .ok () p := by
  have hround : parseTextRound env features fuel (uc '<') true c p = .ok (.inr ()) p := by
    rw [parseTextRound, if_pos h]
    rfl
  rw [loop, bind_of_ok hround]
  rfl

variable (env features fuel) in
theorem textLoop_skipped {tail : NSString} (htail : Stops tail) (hu : IsBlank u)
    (hpeeked : p.peeked = [])
    (hrest : p.rest = u ++ tail) (hwhite : p.isWhitespace = true) (hfuel : u.length < n) :
    ∃ p', (peek 0 >>= loop (parseTextRound env features fuel (uc '<') true) n) p = .ok () p' ∧
      Skipped tail u.length p p' := by
  induction u generalizing p n with
  | nil =>
    obtain ⟨n, rfl⟩ := Nat.exists_eq_succ_of_ne_zero (Nat.ne_zero_of_lt hfuel)
    rw [bind_of_ok (peek_fetch hpeeked), hrest]
    obtain rfl | ⟨s, rfl⟩ := htail
    · refine ⟨_, textLoop_stops (by simp [fetch, hpeeked, endsText]) n, p.peekReadedCR,
        true, p.line,
        p.column, p.textBuf, fun hne => absurd rfl hne, ?_⟩
      simp [fetch, hpeeked, hwhite]
    · rw [List.nil_append, fetch_plain (by decide) (by decide) (by decide)]
      refine ⟨_, textLoop_stops (by simp [hpeeked, endsText]) n, false, p.eos,
        p.line, p.column, p.textBuf,
        fun _ => rfl, ?_⟩
      simp [hpeeked, hwhite]
  | cons c u ih =>
    have hc : NSString.isWhitespace c = true := hu c List.mem_cons_self
    have hu' : IsBlank u := fun d hd => hu d (List.mem_cons_of_mem c hd)
    have hinvalid : c ≠ XML_INVALID_UNICHAR := by
      rintro rfl
      exact absurd hc (by decide)
    have hone : ∀ {q p' : SGXmlPullParser}, Skipped tail u.length { q with
      position := q.position + 1 } p' →
        Skipped tail (c :: u).length q p' := by
      rintro q p' ⟨cr, eos, line, column, text, hcr, rfl⟩
      refine ⟨cr, eos, line, column, text, hcr, ?_⟩
      rw [List.length_cons, Nat.add_comm u.length, ← Nat.add_assoc]
    -- the character that is peeked, other than a skipped line feed, is read
    have hread : ∀ cr d, NSString.isWhitespace d = true →
        fetch p.rest p = { p with rest := u ++ tail, peekReadedCR := cr, peeked := [d] } →
        ∃ p', (peek 0 >>= loop (parseTextRound env features fuel (uc '<') true) n) p = .ok () p' ∧
          Skipped tail (c :: u).length p p' := by
      intro cr d hd hfetch
      obtain ⟨n, rfl⟩ := Nat.exists_eq_succ_of_ne_zero (Nat.ne_zero_of_lt hfuel)
      rw [bind_of_ok (peek_fetch hpeeked), hfetch]
      obtain ⟨line, column, text, hround⟩ := textLoop_blank env features fuel
        (p := { p with rest := u ++ tail, peekReadedCR := cr, peeked := [d] }) rfl hd n
      obtain ⟨p', hloop, cr', eos, line', column', text', hcr, rfl⟩ := ih (p := { p with
        rest := u ++ tail, peekReadedCR := cr, peeked := [], position :=
          p.position + 1, isWhitespace := true,
        line := line, column := column, textBuf := text }) hu' rfl rfl rfl
          (Nat.lt_of_succ_lt_succ hfuel)
      refine ⟨_, hround.trans hloop, hone ⟨cr', eos, line', column', text', hcr, ?_⟩⟩
      rfl
    rw [List.cons_append] at hrest
    by_cases hreturn : c = uc '\r'
    · refine hread true (uc '\n') (by decide) ?_
      rw [hrest, fetch, if_pos hreturn, hpeeked]
      rfl
    · by_cases hskip : (c = uc '\n' && p.peekReadedCR : Bool) || c = XML_INVALID_UNICHAR
      · obtain ⟨q, hq⟩ : ∃ q, q = { p with
          rest := u ++ tail, peekReadedCR := false, position := p.position + 1 } := ⟨_, rfl⟩
        have hfetch : fetch p.rest p = fetch q.rest q := by
          rw [hrest, fetch, if_neg hreturn, if_pos hskip, hq]
        have hpeeked' : q.peeked = [] := by rw [hq, hpeeked]
        obtain ⟨p', hloop, cr, eos, line, column, text, hcr, rfl⟩ :=
          ih hu' hpeeked' (by rw [hq]) (by rw [hq, hwhite])
          (Nat.lt_of_succ_lt hfuel)
        rw [bind_of_ok (peek_fetch hpeeked')] at hloop
        rw [bind_of_ok (peek_fetch hpeeked), hfetch]
        refine ⟨_, hloop, hone ⟨cr, eos, line, column, text, hcr, ?_⟩⟩
        rw [hq]
      · refine hread false c hc ?_
        rw [hrest, fetch, if_neg hreturn, if_neg hskip, hpeeked]
        rfl

theorem peek_buffered (h : p.peeked = c :: l) : peek 0 p = .ok c p := by
  have hzero : 0 + 1 - p.peeked.length = 0 := by
    rw [h, List.length_cons]
    omega
  rw [peek_eq, hzero, fill, h]
  rfl

theorem headType_blank (hc : NSString.isWhitespace c = true) : headType c = .TEXT ∧ c ≠ uc '<' := by
  rw [headType, if_neg (ne_of_blank hc XML_INVALID_UNICHAR (by decide)),
    if_neg (ne_of_blank hc (uc '&') (by decide))]
  exact ⟨rfl, ne_of_blank hc (uc '<') (by decide)⟩

variable (env features) in
theorem parseText_blank {tail : NSString} (htail : Stops tail) (hu : IsBlank u)
    (hpeeked : p.peeked = [c])
    (hc : NSString.isWhitespace c = true) (hrest : p.rest = u ++ tail)
    (hfuel : u.length + 1 < fuel) :
    ∃ p', parseText env features fuel (uc '<') true p = .ok () p' ∧
      Skipped tail (u.length + 1) p p' := by
  obtain ⟨n, rfl⟩ := Nat.exists_eq_succ_of_ne_zero (Nat.ne_zero_of_lt hfuel)
  obtain ⟨line, column, text, hround⟩ := textLoop_blank env features (n + 1)
    (p := { p with textBuf := [] }) hpeeked hc n
  obtain ⟨p', hloop, cr, eos, line', column', text', hcr, rfl⟩ := textLoop_skipped env features
    (n + 1) (n := n) (p := { p with
      peeked := [], position := p.position + 1, isWhitespace := true, line :=
        line, column := column,
      textBuf := text }) htail hu rfl hrest rfl (Nat.lt_of_succ_lt_succ hfuel)
  have hstart : parseText env features (n + 1) (uc '<') true p =
      loop (parseTextRound env features (n + 1) (uc '<') true) (n + 1) c { p with
        textBuf := [] } := by
    show (peek 0 >>= _) p = _
    rw [bind_of_ok (peek_buffered hpeeked)]
    rfl
  refine ⟨_, hstart.trans (hround.trans hloop), cr, eos, line', column', text', hcr, ?_⟩
  rw [Nat.add_comm u.length, ← Nat.add_assoc]

variable (env features readName) in
theorem doParse_blank {tail : NSString} (htail : Stops tail) (hu : IsBlank u)
    (hpeeked : p.peeked = [c])
    (hc : NSString.isWhitespace c = true) (hrest : p.rest = u ++ tail) (htoken : p.token = false)
    (hdegenerated : p.degenerated = false) (hdepth : p.depth = 0) (hfuel : u.length + 1 < fuel) :
    ∃ q, doParse env features fuel readName .TEXT p =
        .ok (.inr .IGNORABLE_WHITESPACE) { q with type := .IGNORABLE_WHITESPACE } ∧
      Skipped tail (u.length + 1) { p with type := .TEXT } q := by
  obtain ⟨q, htext, hq⟩ := parseText_blank env features
    (p := { p with type := .TEXT }) htail hu hpeeked hc hrest hfuel
  have hkind : (q.depth = 0 && q.textIsWhitespace : Bool) = true := by
    obtain ⟨cr, eos, line, column, text, -, rfl⟩ := hq
    simp [SGXmlPullParser.textIsWhitespace, hdepth]
  have hresolve : (!p.token) = true := by rw [htoken, Bool.not_false]
  have hevent : parseEvent env features fuel readName .TEXT { p with type := .TEXT } =
      .ok .IGNORABLE_WHITESPACE q := by
    show (parseText env features fuel (uc '<') (!p.token) >>= _) _ = _
    rw [hresolve, bind_of_ok htext]
    show Outcome.ok (if (q.depth = 0 && q.textIsWhitespace : Bool) = true
      then EventType.IGNORABLE_WHITESPACE
      else EventType.TEXT) q = _
    rw [if_pos hkind]
  refine ⟨q, ?_, hq⟩
  show (if p.degenerated = true then _ else _ : Parser (EventType ⊕ EventType)) p = _
  rw [hdegenerated, if_neg Bool.false_ne_true]
  show (parseEvent env features fuel readName .TEXT >>= _) { p with type := .TEXT } = _
  rw [bind_of_ok hevent]
  rfl

variable (env features readName) in
theorem doNext_blank {tail : NSString} (htail : Stops tail) (hu : IsBlank u) (hne : u ≠ [])
    (hpeeked : p.peeked = []) (hplain : p.peekReadedCR = false) (hrest : p.rest = u ++ tail)
    (htoken : p.token = false) (hdegenerated : p.degenerated = false)
    (hdepth : p.stepPast.depth = 0)
    (hfuel : u.length < fuel) :
    ∃ p', doNext env features fuel readName p = .ok .IGNORABLE_WHITESPACE p' ∧
      Moved p p' .IGNORABLE_WHITESPACE [tail.headD XML_INVALID_UNICHAR] tail.tail
        (p.position + u.length)
        true := by
  obtain ⟨c, u, rfl⟩ := List.exists_cons_of_ne_nil hne
  have hu' : IsBlank u := fun d hd => hu d (List.mem_cons_of_mem c hd)
  obtain ⟨q, hq⟩ : ∃ q, q = p.stepPast := ⟨_, rfl⟩
  rw [← hq] at hdepth
  obtain ⟨cr, d, hd, hfetch⟩ : ∃ cr d, NSString.isWhitespace d = true ∧
      fetch q.rest q = { q with rest := u ++ tail, peekReadedCR := cr, peeked := [d] } := by
    have hc : NSString.isWhitespace c = true := hu c List.mem_cons_self
    have hinvalid : c ≠ XML_INVALID_UNICHAR := by
      rintro rfl
      exact absurd hc (by decide)
    have hplain' : q.peekReadedCR = false := by rw [hq]; exact hplain
    have hpeeked' : q.peeked = [] := by rw [hq]; exact hpeeked
    have hrest' : q.rest = c :: (u ++ tail) := by rw [hq]; exact hrest
    rw [hrest', fetch, hplain', hpeeked']
    by_cases hreturn : c = uc '\r'
    · exact ⟨true, uc '\n', by decide, by rw [if_pos hreturn]; rfl⟩
    · exact ⟨false, c, hc, by rw [if_neg hreturn, if_neg (by simp [hinvalid])]; rfl⟩
  obtain ⟨htype, htag⟩ := headType_blank hd
  have hpeek :
    peekType q = .ok .TEXT { q with rest := u ++ tail, peekReadedCR := cr, peeked := [d] } := by
    have hpeeked' : q.peeked = [] := by rw [hq]; exact hpeeked
    have hfirst := peek_fetch hpeeked'
    rw [hfetch] at hfirst
    rw [peekType_eq hfirst]
    show (if d = uc '<' then _ else .ok (headType d) _ : Outcome _ _ _) = _
    rw [if_neg htag, htype]
  obtain ⟨q', hround, cr', eos, line, column, text, hcr, hq'⟩ := doParse_blank env features
    readName (p := { q with
      rest := u ++ tail, peekReadedCR := cr, peeked := [d], type := .TEXT }) htail hu' rfl hd rfl
    (by rw [hq]; exact htoken) (by rw [hq]; exact hdegenerated) hdepth hfuel
  obtain ⟨n, rfl⟩ := Nat.exists_eq_succ_of_ne_zero (Nat.ne_zero_of_lt hfuel)
  refine ⟨{ q' with type := .IGNORABLE_WHITESPACE }, ?_, ?_⟩
  · show (peekType >>= _) p.stepPast = _
    rw [← hq, bind_of_ok hpeek]
    show loop (doParse env features (n + 1) readName) (n + 1) .TEXT _ = _
    rw [loop, bind_of_ok hround]
    rfl
  · rw [hq', hq]
    exact ⟨rfl, rfl, rfl, rfl, hcr, rfl, rfl, hdegenerated, htoken, rfl, rfl, rfl⟩

end

end BathyScaphe.Xml
