import BathyScaphe.Xml.Reading

/-!
# The text between two tags

`next` gives one event for the characters, references, sections, comments and
instructions between two tags of an element. Every run of characters and
references, and every other piece, is read with an empty text buffer, so that
the text of the event is the text of the last one.
-/

namespace BathyScaphe.Xml

open NSString Comp

inductive Piece where
  | character (c : UniChar)
  | entity (name : NSString) (code : UniChar)
  | cdata (w : NSString)
  | comment (w : NSString)
  | instruction (w : NSString)

namespace Piece

def render : Piece → NSString
  | character c => [c]
  | entity name _ => uc '&' :: (name ++ [uc ';'])
  | cdata w => ns "<!" ++ (ns "[CDATA[" ++ (w ++ ns "]]>"))
  | comment w => ns "<!" ++ (ns "--" ++ (w ++ ns "-->"))
  | instruction w => ns "<?" ++ (w ++ ns "?>")

def text : Piece → NSString
  | character c => [c]
  | entity _ code => [code]
  | cdata w => w
  | comment _ => []
  | instruction _ => []

def WellFormed (env : Environment) (features : Features) : Piece → Prop
  | character c => c ≠ uc '<' ∧ c ≠ uc '&'
  | entity name code => features.disableEntityResolving = false ∧ IsReference env name code
  | cdata w => IsSection w
  | comment w => IsComment w
  | instruction w => IsInstruction w ∧ w ≠ []

def isUnit : Piece → Bool
  | character _ => true
  | entity _ _ => true
  | _ => false

def isText : Piece → Bool
  | comment _ => false
  | instruction _ => false
  | _ => true

def isXm : Piece → Bool
  | instruction (c :: d :: _) => tolower c = uc 'x' && tolower d = uc 'm'
  | _ => false

def type : Piece → EventType
  | cdata _ => .CDSECT
  | comment _ => .COMMENT
  | instruction _ => .PROCESSING_INSTRUCTION
  | _ => .TEXT

end Piece

def renderAll (pieces : List Piece) : NSString := pieces.flatMap Piece.render

def textAll (pieces : List Piece) : NSString := pieces.flatMap Piece.text

section
variable {env : Environment} {features : Features} {fuel : Nat} {readName : Parser NSString}
  {p : SGXmlPullParser} {v : View} {s : NSString}

-- Runs of characters and references

theorem Piece.render_unit {piece : Piece} (hunit : piece.isUnit = true)
    (hw : piece.WellFormed env features)
    (hvalid : XML_INVALID_UNICHAR ∉ piece.render) :
    ∃ c u, piece.render = c :: u ∧ c ≠ uc '<' ∧ c ≠ XML_INVALID_UNICHAR := by
  cases piece with
  | character c => exact ⟨c, [], rfl, hw.1, (List.ne_of_not_mem_cons hvalid).symm⟩
  | entity name code => exact ⟨uc '&', name ++ [uc ';'], rfl, by decide, by decide⟩
  | _ => cases hunit

theorem parseTextUnit_at {piece : Piece} (hunit : piece.isUnit = true)
    (hw : piece.WellFormed env features)
    (htype : v.type ≠ .START_TAG)
    (hhead : piece.render = c :: u)
    (h : At p { v with left := piece.render ++ s }) (hne : p.peeked ≠ [])
    (hfuel : piece.render.length < fuel) :
    Returns (fun _ p' => At p' { v with left := s, text := v.text ++ piece.text })
      (parseTextUnit env features fuel c p) := by
  cases piece with
  | character d =>
    obtain rfl := (List.cons.inj hhead).1
    rw [parseTextUnit, if_neg hw.2]
    refine returns_bind (returns_get (Q := fun p' p'' => p' = p ∧ p'' = p) ⟨rfl, rfl⟩)
      fun _ p hp => ?_
    obtain ⟨rfl, rfl⟩ := hp
    refine returns_bind (read_at h) fun c p' hc => ?_
    obtain ⟨rfl, hat⟩ := hc
    have htype' : p.type ≠ .START_TAG := fun heq => htype (h.type.symm.trans heq)
    rw [if_neg (by simp [htype'])]
    exact push_at hat _
  | entity name code =>
    obtain rfl := (List.cons.inj hhead).1
    rw [parseTextUnit, if_pos rfl]
    have hat : At p { v with left := uc '&' :: (name ++ (uc ';' :: s)) } := by
      simpa [Piece.render] using h
    have hlength : name.length < fuel := by
      simp only [Piece.render, List.length_cons, List.length_append] at hfuel
      omega
    refine returns_bind (parseEntity_at hw.2 hw.1 hat hne hlength) fun _ p hp => ?_
    exact returns_pure hp
  | _ => cases hunit

theorem endsText_iff (hc : c ≠ XML_INVALID_UNICHAR) :
    endsText (uc '<') true c = true ↔ c = uc '<' := by
  have hspace : ¬ uc '<' = uc ' ' := by decide
  simp [endsText, hc, hspace, eq_comm]

theorem parseTextLoop_at {units : List Piece} (hunits : ∀ piece ∈ units, piece.isUnit = true)
    (hw : ∀ piece ∈ units, piece.WellFormed env features)
    (htype : v.type ≠ .START_TAG)
    (hhead : renderAll units ++ (uc '<' :: s) = c :: u)
    (h : At p { v with left := renderAll units ++ (uc '<' :: s) }) (hne : p.peeked ≠ [])
    (hfuel : (renderAll units).length < n) (hn : (renderAll units).length < fuel) :
    Returns (fun _ p' => At p' { v with left := uc '<' :: s, text := v.text ++ textAll units })
      (loop (parseTextRound env features fuel (uc '<') true) n c p) := by
  induction units generalizing p v c u n with
  | nil =>
    obtain ⟨n, rfl⟩ := Nat.exists_eq_succ_of_ne_zero (Nat.ne_zero_of_lt hfuel)
    obtain rfl := (List.cons.inj hhead).1
    refine returns_loop ?_
    rw [parseTextRound, if_pos ((endsText_iff (by decide)).mpr rfl)]
    exact returns_pure { h with text := h.text.trans (List.append_nil _).symm }
  | cons piece units ih =>
    obtain ⟨n, rfl⟩ := Nat.exists_eq_succ_of_ne_zero (Nat.ne_zero_of_lt hfuel)
    rw [renderAll, List.flatMap_cons, List.append_assoc] at hhead h
    rw [renderAll, List.flatMap_cons, List.length_append] at hfuel hn
    have hunmarked := h.unmarked
    obtain ⟨d, w, hrender, hd, hinvalid⟩ := Piece.render_unit (hunits piece List.mem_cons_self)
      (hw piece List.mem_cons_self) fun hmem => hunmarked (List.mem_append_left _ hmem)
    obtain rfl : d = c := by
      rw [hrender] at hhead
      exact (List.cons.inj hhead).1
    have hlength : 0 < piece.render.length := by
      rw [hrender]
      exact Nat.succ_pos _
    refine returns_loop ?_
    rw [parseTextRound, if_neg fun hends => hd ((endsText_iff hinvalid).mp hends)]
    refine returns_bind (parseTextUnit_at (hunits piece List.mem_cons_self)
      (hw piece List.mem_cons_self) htype hrender h hne (by omega)) fun _ p hp => ?_
    obtain ⟨c, u, hleft⟩ : ∃ c u, renderAll units ++ (uc '<' :: s) = c :: u := by
      cases renderAll units with
      | nil => exact ⟨_, _, rfl⟩
      | cons c u => exact ⟨_, _, rfl⟩
    refine returns_bind (peek_head hp hleft) fun c' p hc => ?_
    obtain ⟨rfl, hat, hne⟩ := hc
    rw [textAll, List.flatMap_cons, ← List.append_assoc]
    exact ih (v := { v with text := v.text ++ piece.text })
      (fun piece hmem => hunits piece (List.mem_cons_of_mem _ hmem))
      (fun piece hmem => hw piece (List.mem_cons_of_mem _ hmem)) htype hleft hat hne
      (show (renderAll units).length < _ by rw [renderAll]; omega) (by rw [renderAll]; omega)

-- Other pieces

theorem parseLegacy_of {willPush : Bool} {Q : EventType → SGXmlPullParser → Prop}
    (h : At p { v with left := uc '<' :: c :: s })
    (hQ : ∀ p', At p' { v with left := s, text := [] } →
      Returns Q ((if c = uc '!' then do
          let nc ← peek 0
          if nc = uc '-' then do
            parseComment features fuel willPush
            pure .COMMENT
          else if nc = uc '[' then do
            parseCDATA fuel
            pure .CDSECT
          else do
            parseDocType fuel willPush
            pure .DOCDECL
        else if c = uc '?' then parseLegacyInstruction env features fuel readName willPush
        else raiseParser (ns "Unknown Legacy Type(" ++ [c] ++ ns ")") : Parser EventType) p')) :
    Returns Q (parseLegacy env features fuel readName willPush p) := by
  refine returns_bind (readEnsureAll_at (u := [uc '<']) h) fun _ p₁ hp => ?_
  refine returns_bind (read_at hp) fun c p₂ hc => ?_
  obtain ⟨rfl, hat⟩ := hc
  refine returns_bind (clearText_at hat) fun _ p₃ hp => ?_
  exact hQ p₃ hp.1

theorem parseLegacyInstruction_at (hw : IsInstruction w) (hne : w ≠ [])
    (hxm : (Piece.instruction w).isXm = false) (h : At p { v with left := w ++ (ns "?>" ++ s) })
    (hfuel : w.length ≤ fuel) :
    Returns (fun type p' => type = .PROCESSING_INSTRUCTION ∧ At p' { v with left := s })
      (parseLegacyInstruction env features fuel readName false p) := by
  obtain ⟨d, e, s', hrest⟩ := exists_two w (uc '?') (uc '>') s
  have hat : At p { v with left := d :: e :: s' } := hrest ▸ h
  have hnot : ¬ (tolower d = uc 'x' ∧ tolower e = uc 'm') := by
    match w with
    | [] => exact absurd rfl hne
    | [c] =>
      obtain rfl := (List.cons.inj (List.cons.inj hrest).2).1
      exact fun hm => absurd hm.2 (by decide)
    | c :: c' :: w =>
      rw [List.cons_append, List.cons_append] at hrest
      obtain rfl := (List.cons.inj hrest).1
      obtain rfl := (List.cons.inj (List.cons.inj hrest).2).1
      simpa [Piece.isXm] using hxm
  refine returns_bind (peek_at hat (Nat.zero_le 1) (by simp)) fun x p₁ hx => ?_
  obtain ⟨hget, hat, -⟩ := hx
  obtain rfl : d = x := Option.some.inj hget
  refine returns_bind (Q := fun m p' => At p' { v with left := d :: e :: s' } ∧
    tolower m ≠ uc 'm') ?_ fun m p₂ hm => ?_
  · by_cases hx : tolower d = uc 'x'
    · rw [peekSecond, if_pos (by simpa using hx)]
      refine (peek_at hat (Nat.le_refl 1) (by simp)).imp fun m p hm => ⟨hm.2.1, ?_⟩
      obtain rfl : e = m := Option.some.inj hm.1
      exact fun hm => hnot ⟨hx, hm⟩
    · rw [peekSecond, if_neg (by simpa using hx)]
      exact returns_pure ⟨hat, by decide⟩
  · rw [if_neg hm.2]
    refine returns_bind (parseProccessingInstruction_at hw hne (hrest ▸ hm.1) hfuel) fun _ p hp =>
      ?_
    exact returns_pure ⟨rfl, hp⟩

theorem parseLegacy_at {piece : Piece} (hlegacy : piece.isUnit = false)
    (hw : piece.WellFormed env features) (hxm : piece.isXm = false)
    (h : At p { v with left := piece.render ++ s }) (hfuel : piece.render.length < fuel) :
    Returns (fun type p' => type = piece.type ∧ At p' { v with left := s, text := piece.text })
      (parseLegacy env features fuel readName false p) := by
  cases piece with
  | cdata w =>
    have hlength : w.length < fuel := by
      simp only [Piece.render, List.length_append] at hfuel
      omega
    have hrender : (Piece.cdata w).render ++ s =
        uc '<' :: uc '!' :: (ns "[CDATA[" ++ (w ++ (ns "]]>" ++ s))) := by
      simp only [Piece.render, List.append_assoc]
      rfl
    rw [hrender] at h
    refine parseLegacy_of h fun p₁ hat => ?_
    rw [if_pos rfl]
    refine returns_bind (peek_head (c := uc '[') hat rfl) fun nc p₂ hc => ?_
    obtain ⟨rfl, hat, -⟩ := hc
    rw [if_neg (by decide), if_pos rfl]
    refine returns_bind (parseCDATA_at (v := { v with text := [] }) hw hat hlength) fun _ p₃ hp =>
      ?_
    exact returns_pure ⟨rfl, hp⟩
  | comment w =>
    have hlength : w.length < fuel := by
      simp only [Piece.render, List.length_append] at hfuel
      omega
    have hrender : (Piece.comment w).render ++ s =
        uc '<' :: uc '!' :: (ns "--" ++ (w ++ (ns "-->" ++ s))) := by
      simp only [Piece.render, List.append_assoc]
      rfl
    rw [hrender] at h
    refine parseLegacy_of h fun p₁ hat => ?_
    rw [if_pos rfl]
    refine returns_bind (peek_head (c := uc '-') hat rfl) fun nc p₂ hc => ?_
    obtain ⟨rfl, hat, -⟩ := hc
    rw [if_pos rfl]
    refine returns_bind (parseComment_at (v := { v with text := [] }) hw hat hlength) fun _ p₃ hp =>
      ?_
    exact returns_pure ⟨rfl, hp⟩
  | instruction w =>
    have hlength : w.length ≤ fuel := by
      simp only [Piece.render, List.length_append] at hfuel
      omega
    have hrender : (Piece.instruction w).render ++ s = uc '<' :: uc '?' ::
      (w ++ (ns "?>" ++ s)) := by
      simp only [Piece.render, List.append_assoc]
      rfl
    rw [hrender] at h
    refine parseLegacy_of h fun p₁ hat => ?_
    rw [if_neg (by decide), if_pos rfl]
    exact parseLegacyInstruction_at (v := { v with text := [] }) hw.1 hw.2 hxm hat hlength
  | _ => cases hlegacy

-- Events

def unitType (c : UniChar) : EventType := if c = uc '&' then .ENTITY_REF else .TEXT

theorem peekType_unit (h : At p v) (hleft : v.left = c :: s) (hc : c ≠ uc '<') :
    Returns (fun type p' => type = unitType c ∧ At p' v) (peekType p) := by
  have hinvalid : c ≠ XML_INVALID_UNICHAR := by
    have hunmarked := h.unmarked
    rw [hleft] at hunmarked
    exact (List.ne_of_not_mem_cons hunmarked).symm
  refine returns_bind (peek_head h hleft) fun c' p' hc' => ?_
  obtain ⟨rfl, hat, -⟩ := hc'
  rw [if_neg hinvalid]
  unfold unitType
  split
  · exact returns_pure ⟨rfl, hat⟩
  · exact returns_pure ⟨rfl, hat⟩

def tagType (c : UniChar) : EventType :=
  if c = uc '/' then .END_TAG else if c = uc '?' || c = uc '!' then .LEGACY else .START_TAG

theorem peekType_tag (h : At p v) (hleft : v.left = uc '<' :: c :: s) :
    Returns (fun type p' => type = tagType c ∧ At p' v) (peekType p) := by
  refine returns_bind (peek_at h (Nat.zero_le 1) (by simp [hleft])) fun c' p' hc => ?_
  obtain ⟨hget, hat, -⟩ := hc
  obtain rfl : uc '<' = c' := by
    rw [hleft] at hget
    exact Option.some.inj hget
  refine returns_bind (peek_at hat (Nat.le_refl 1) (by simp [hleft])) fun d p' hd => ?_
  obtain ⟨hget, hat, -⟩ := hd
  obtain rfl : c = d := by
    rw [hleft] at hget
    exact Option.some.inj hget
  unfold tagType
  split
  · exact returns_pure ⟨rfl, hat⟩
  · split
    · exact returns_pure ⟨rfl, hat⟩
    · exact returns_pure ⟨rfl, hat⟩

theorem doParse_at {w : View} (h : At p v)
    (hevent : ∀ p', At p' { v with type := if t = .ENTITY_REF then .TEXT else t } →
      Returns (fun type p'' => type = t' ∧ At p'' w)
        (parseEvent env features fuel readName (if t = .ENTITY_REF then .TEXT else t) p'))
    (hdecl : t' ≠ .XML_DECL) :
    Returns (fun r p' => r = .inr t' ∧ At p' { w with type := t' })
      (doParse env features fuel readName t p) := by
  refine returns_bind (returns_get (Q := fun p' p'' => p' = p ∧ p'' = p) ⟨rfl, rfl⟩) fun _ p hp =>
    ?_
  obtain ⟨rfl, rfl⟩ := hp
  rw [if_neg (by simp [h.degenerated])]
  simp only [h.token, Bool.not_false, Bool.and_true, decide_eq_true_eq]
  refine returns_bind (setType_at h _) fun _ p₁ hp => ?_
  refine returns_bind (hevent p₁ hp) fun type p₂ htype => ?_
  obtain ⟨rfl, hat⟩ := htype
  refine returns_bind (setType_at hat type) fun _ p₃ hp => ?_
  rw [if_neg hdecl]
  exact returns_pure ⟨rfl, hp⟩

def View.enter (v : View) : View :=
  { v with depth := if v.type = .END_TAG then v.depth - 1 else v.depth }

theorem doNext_at {w : View} (h : At p v)
    (hpeek : ∀ p', At p' v.enter →
      Returns (fun type p'' => type = t ∧ At p'' v.enter) (peekType p'))
    (hparse : ∀ p', At p' { v.enter with type := t } →
      Returns (fun r p'' => r = .inr t' ∧ At p'' w) (doParse env features fuel readName t p'))
    (hfuel : 0 < fuel) :
    Returns (fun type p' => type = t' ∧ At p' w) (doNext env features fuel readName p) := by
  obtain ⟨n, hn⟩ := Nat.exists_eq_succ_of_ne_zero (Nat.ne_zero_of_lt hfuel)
  refine returns_bind (returns_modify (Q := fun _ p' => At p' v.enter) { h with depth := ?_ })
    fun _ p₁ hp => ?_
  · simp only [View.enter, h.type, h.depth]
  · refine returns_bind (hpeek p₁ hp) fun type p₂ htype => ?_
    obtain ⟨rfl, hat⟩ := htype
    refine returns_bind (setType_at hat type) fun _ p₃ hp => ?_
    rw [hn]
    refine returns_loop ?_
    rw [← hn]
    refine (hparse p₃ hp).imp fun r p₄ hr => ?_
    obtain ⟨rfl, hr⟩ := hr
    exact ⟨rfl, hr⟩

theorem renderAll_units {units : List Piece} (hne : units ≠ [])
    (hunits : ∀ piece ∈ units, piece.isUnit = true)
    (hw : ∀ piece ∈ units, piece.WellFormed env features)
    (hvalid : XML_INVALID_UNICHAR ∉ renderAll units) :
    ∃ c u, renderAll units = c :: u ∧ c ≠ uc '<' := by
  obtain ⟨piece, units, rfl⟩ := List.exists_cons_of_ne_nil hne
  rw [renderAll, List.flatMap_cons] at hvalid ⊢
  obtain ⟨c, u, hrender, hc, -⟩ := Piece.render_unit (hunits piece List.mem_cons_self)
    (hw piece List.mem_cons_self) fun hmem => hvalid (List.mem_append_left _ hmem)
  rw [hrender]
  exact ⟨c, u ++ units.flatMap Piece.render, rfl, hc⟩

theorem parseText_at {units : List Piece} (hunits : ∀ piece ∈ units, piece.isUnit = true)
    (hw : ∀ piece ∈ units, piece.WellFormed env features)
    (htype : v.type ≠ .START_TAG)
    (h : At p { v with left := renderAll units ++ (uc '<' :: s) })
    (hfuel : (renderAll units).length < fuel) :
    Returns (fun _ p' => At p' { v with left := uc '<' :: s, text := textAll units })
      (parseText env features fuel (uc '<') true p) := by
  obtain ⟨c, u, hhead⟩ : ∃ c u, renderAll units ++ (uc '<' :: s) = c :: u :=
    List.exists_cons_of_ne_nil (by simp)
  refine returns_bind (peek_head h hhead) fun c' p₁ hc => ?_
  obtain ⟨rfl, hat, hne⟩ := hc
  refine returns_bind (clearText_at hat) fun _ p₂ hp => ?_
  exact parseTextLoop_at (v := { v with text := [] }) hunits hw htype hhead hp.1
    (hp.2 ▸ hne) hfuel hfuel

theorem doNext_units {units : List Piece} (hne : units ≠ [])
    (hunits : ∀ piece ∈ units, piece.isUnit = true)
    (hw : ∀ piece ∈ units, piece.WellFormed env features)
    (hdepth : v.enter.depth ≠ 0)
    (h : At p { v with left := renderAll units ++ (uc '<' :: s) })
    (hfuel : (renderAll units).length < fuel) :
    Returns (fun type p' => type = .TEXT ∧ At p' { v.enter with
          left := uc '<' :: s, text := textAll units, type := .TEXT })
      (doNext env features fuel readName p) := by
  obtain ⟨c, u, hhead, hc⟩ := renderAll_units hne hunits hw
    fun hmem => h.unmarked (List.mem_append_left _ hmem)
  refine doNext_at (t := unitType c) h (fun p₁ hat => ?_) (fun p₁ hat => ?_)
    (Nat.zero_lt_of_lt hfuel)
  · exact peekType_unit hat (congrArg (· ++ uc '<' :: s) hhead) hc
  · have htype : (if unitType c = .ENTITY_REF then .TEXT else unitType c) = EventType.TEXT := by
      unfold unitType
      split <;> rfl
    refine doParse_at (w := { v.enter with
      left := uc '<' :: s, text := textAll units, type := .TEXT }) hat ?_ (by decide)
    rw [htype]
    intro p₂ hat
    refine returns_bind (returns_get (Q := fun p' p'' => p' = p₂ ∧ p'' = p₂) ⟨rfl, rfl⟩)
      fun _ p₂ hp => ?_
    obtain ⟨rfl, rfl⟩ := hp
    rw [hat.token]
    refine returns_bind (parseText_at (v := { v.enter with type := .TEXT }) hunits hw
      nofun hat hfuel) fun _ p₃ hp => ?_
    refine returns_bind (returns_get (Q := fun p' p'' => p' = p₃ ∧ p'' = p₃) ⟨rfl, rfl⟩)
      fun _ p₃ hp' => ?_
    obtain ⟨rfl, rfl⟩ := hp'
    have hdepth' : p₃.depth ≠ 0 := fun heq => hdepth (hp.depth.symm.trans heq)
    rw [if_neg (by simp [hdepth'])]
    exact returns_pure ⟨rfl, hp⟩

theorem Piece.render_legacy {piece : Piece} (hlegacy : piece.isUnit = false) :
    ∃ c u, piece.render = uc '<' :: c :: u ∧ tagType c = .LEGACY := by
  cases piece with
  | cdata w => exact ⟨uc '!', _, rfl, rfl⟩
  | comment w => exact ⟨uc '!', _, rfl, rfl⟩
  | instruction w => exact ⟨uc '?', _, rfl, rfl⟩
  | _ => cases hlegacy

theorem doParse_legacy {piece : Piece} (hlegacy : piece.isUnit = false)
    (hw : piece.WellFormed env features) (hxm : piece.isXm = false)
    (h : At p { v with left := piece.render ++ s, type := .LEGACY })
    (hfuel : piece.render.length < fuel) :
    Returns (fun r p' => r = .inr piece.type ∧ At p' { v with
          left := s, text := piece.text, type := piece.type })
      (doParse env features fuel readName .LEGACY p) := by
  refine doParse_at (w := { v with left := s, text := piece.text, type := .LEGACY }) h
    (fun p₂ hat => ?_) (by cases piece <;> nofun)
  refine returns_bind (returns_get (Q := fun p' p'' => p' = p₂ ∧ p'' = p₂) ⟨rfl, rfl⟩)
    fun _ p₂ hp => ?_
  obtain ⟨rfl, rfl⟩ := hp
  show Returns _ (parseLegacy env features fuel readName p₂.token p₂)
  rw [hat.token]
  exact parseLegacy_at (v := { v with type := .LEGACY }) hlegacy hw hxm hat hfuel

theorem doNext_legacy {piece : Piece} (hlegacy : piece.isUnit = false)
    (hw : piece.WellFormed env features) (hxm : piece.isXm = false)
    (h : At p { v with left := piece.render ++ s }) (hfuel : piece.render.length < fuel) :
    Returns (fun type p' => type = piece.type ∧ At p' { v.enter with
          left := s, text := piece.text, type := piece.type })
      (doNext env features fuel readName p) := by
  obtain ⟨c, u, hrender, htype⟩ := Piece.render_legacy hlegacy
  refine doNext_at (t := .LEGACY) h (fun p₁ hat => ?_) (fun p₁ hat => ?_)
    (Nat.zero_lt_of_lt hfuel)
  · refine (peekType_tag hat (congrArg (· ++ s) hrender)).imp fun t p₂ ht => ?_
    exact ⟨ht.1.trans htype, ht.2⟩
  · exact doParse_legacy (v := v.enter) hlegacy hw hxm hat hfuel

-- The event of `next`

/-- The text of the buffer after a piece; a run of characters and references goes
on, another piece starts anew. -/
def collect (state : NSString × Bool) (piece : Piece) : NSString × Bool :=
  if piece.isUnit then (if state.2 then state.1 ++ piece.text else piece.text, true)
  else (piece.text, false)

def delivered (pieces : List Piece) : NSString := (pieces.foldl collect ([], false)).1

theorem foldl_collect_units {units : List Piece} (hunits : ∀ piece ∈ units, piece.isUnit = true)
    (text : NSString) : units.foldl collect (text, true) = (text ++ textAll units, true) := by
  induction units generalizing text with
  | nil => simp [textAll]
  | cons piece units ih =>
    rw [List.foldl_cons, collect, if_pos (hunits piece List.mem_cons_self), if_pos rfl,
      ih fun piece hmem => hunits piece (List.mem_cons_of_mem _ hmem)]
    simp [textAll]

theorem foldl_collect_run {units : List Piece} (hne : units ≠ [])
    (hunits : ∀ piece ∈ units, piece.isUnit = true) (text : NSString) :
    units.foldl collect (text, false) = (textAll units, true) := by
  obtain ⟨piece, units, rfl⟩ := List.exists_cons_of_ne_nil hne
  rw [List.foldl_cons, collect, if_pos (hunits piece List.mem_cons_self), if_neg Bool.false_ne_true,
    foldl_collect_units fun piece hmem => hunits piece (List.mem_cons_of_mem _ hmem)]
  simp [textAll]

def Breaks (pieces : List Piece) : Prop := ∀ piece ∈ pieces.head?, piece.isUnit = false

theorem Breaks.foldl_collect {pieces : List Piece} (h : Breaks pieces) (text : NSString) :
    (pieces.foldl collect (text, true)).1 = (pieces.foldl collect (text, false)).1 := by
  cases pieces with
  | nil => rfl
  | cons piece pieces =>
    have hlegacy : piece.isUnit = false := h piece rfl
    rw [List.foldl_cons, List.foldl_cons, collect, collect, hlegacy]
    rfl

theorem Breaks.renderAll_append {pieces : List Piece} (h : Breaks pieces) (tag : NSString) :
    ∃ s, renderAll pieces ++ (uc '<' :: tag) = uc '<' :: s := by
  cases pieces with
  | nil => exact ⟨tag, rfl⟩
  | cons piece pieces =>
    obtain ⟨c, u, hrender, -⟩ := Piece.render_legacy (h piece rfl)
    rw [renderAll, List.flatMap_cons, hrender]
    exact ⟨_, rfl⟩

theorem exists_token {pieces : List Piece} (hne : pieces ≠ []) :
    (∃ units rest, units ≠ [] ∧ (∀ piece ∈ units, piece.isUnit = true) ∧ Breaks rest ∧
      pieces = units ++ rest) ∨
    ∃ piece rest, piece.isUnit = false ∧ pieces = piece :: rest := by
  obtain ⟨piece, rest, rfl⟩ := List.exists_cons_of_ne_nil hne
  cases hunit : piece.isUnit with
  | false => exact .inr ⟨piece, rest, hunit, rfl⟩
  | true =>
    refine .inl ⟨(piece :: rest).takeWhile Piece.isUnit, (piece :: rest).dropWhile Piece.isUnit,
      ?_, ?_,
      ?_, List.takeWhile_append_dropWhile.symm⟩
    · simp [hunit]
    · exact fun piece hmem => List.mem_takeWhile_imp hmem
    · intro next hnext
      have hhead := List.head?_dropWhile_not Piece.isUnit (piece :: rest)
      rw [Option.mem_def.mp hnext] at hhead
      simpa using hhead

/-- An event of the pieces, with what is left of them and the text it gives. -/
structure IsToken (pieces rest : List Piece) (type : EventType) (text : NSString) : Prop where
  suffix : rest <:+ pieces
  shorter : rest.length < pieces.length
  text_le : EventType.TEXT.code ≤ type.code
  collected : ∀ text', (pieces.foldl collect (text', false)).1 =
    (rest.foldl collect (text, false)).1
  isText : (∃ piece ∈ pieces, piece.isText = true) →
    type.code ≤ EventType.ENTITY_REF.code ∨ ∃ piece ∈ rest, piece.isText = true

theorem isToken_units {units rest : List Piece} (hne : units ≠ [])
    (hunits : ∀ piece ∈ units, piece.isUnit = true) (hrest : Breaks rest) :
    IsToken (units ++ rest) rest .TEXT (textAll units) where
  suffix := List.suffix_append units rest
  shorter := by
    have hpos := List.length_pos_of_ne_nil hne
    rw [List.length_append]
    omega
  text_le := Nat.le_refl _
  collected text' := by
    rw [List.foldl_append, foldl_collect_run hne hunits]
    exact hrest.foldl_collect _
  isText _ := .inl (by decide)

theorem isToken_legacy {piece : Piece} (hlegacy : piece.isUnit = false) (rest : List Piece) :
    IsToken (piece :: rest) rest piece.type piece.text where
  suffix := List.suffix_cons piece rest
  shorter := Nat.lt_succ_self _
  text_le := by cases piece <;> simp [Piece.type, EventType.code]
  collected text' := by
    rw [List.foldl_cons, collect, hlegacy]
    rfl
  isText htext := by
    obtain ⟨piece', hmem, htext⟩ := htext
    rcases List.mem_cons.mp hmem with rfl | hmem
    · cases piece' with
      | cdata w => exact .inl (Nat.le_succ _)
      | comment w => cases htext
      | instruction w => cases htext
      | _ => cases hlegacy
    · exact .inr ⟨piece', hmem, htext⟩

def IsTag (tag : NSString) : Prop :=
  ∃ c s, tag = uc '<' :: c :: s ∧ c ≠ uc '?' ∧ c ≠ uc '!'

variable {pieces rest : List Piece} {tag : NSString}

theorem doNext_token (hpieces : ∀ piece ∈ pieces, piece.WellFormed env features ∧
    piece.isXm = false)
    (hdepth : v.enter.depth ≠ 0)
    (htag : IsTag tag) (h : At p { v with left := renderAll pieces ++ tag }) (hne : pieces ≠ [])
    (hfuel : (renderAll pieces).length < fuel) :
    ∃ rest type text, IsToken pieces rest type text ∧
      Returns (fun type' p' => type' = type ∧ At p' { v.enter with
            left := renderAll rest ++ tag, text := text, type := type })
        (doNext env features fuel readName p) := by
  rcases exists_token hne with ⟨units, rest, hunits, hunit, hrest, rfl⟩
    | ⟨piece, rest, hlegacy, rfl⟩
  · refine ⟨rest, .TEXT, textAll units, isToken_units hunits hunit hrest, ?_⟩
    obtain ⟨s, hs⟩ : ∃ s, renderAll rest ++ tag = uc '<' :: s := by
      obtain ⟨c, s, rfl, -⟩ := htag
      exact hrest.renderAll_append (c :: s)
    rw [renderAll, List.flatMap_append, List.append_assoc] at h
    rw [renderAll, List.flatMap_append, List.length_append] at hfuel
    rw [hs]
    refine doNext_units hunits hunit
      (fun piece hmem => (hpieces piece (List.mem_append_left _ hmem)).1) hdepth
      (hs ▸ h) (Nat.lt_of_le_of_lt (Nat.le_add_right _ _) hfuel)
  · refine ⟨rest, piece.type, piece.text, isToken_legacy hlegacy rest, ?_⟩
    rw [renderAll, List.flatMap_cons, List.append_assoc] at h
    rw [renderAll, List.flatMap_cons, List.length_append] at hfuel
    obtain ⟨hw, hxm⟩ := hpieces piece List.mem_cons_self
    exact doNext_legacy hlegacy hw hxm h (Nat.lt_of_le_of_lt (Nat.le_add_right _ _) hfuel)

theorem peekType_rest (hpieces : ∀ piece ∈ pieces, piece.WellFormed env features) (htag : IsTag tag)
    (h : At p { v with left := renderAll pieces ++ tag }) :
    Returns (fun type p' => (EventType.TEXT.code ≤ type.code ↔ pieces ≠ []) ∧
        At p' { v with left := renderAll pieces ++ tag })
      (peekType p) := by
  cases pieces with
  | nil =>
    obtain ⟨c, s, rfl, hquestion, hmark⟩ := htag
    refine (peekType_tag h rfl).imp fun type p' htype => ?_
    obtain ⟨rfl, hat⟩ := htype
    refine ⟨?_, hat⟩
    unfold tagType
    split
    · simp [EventType.code]
    · simp [EventType.code, hquestion, hmark]
  | cons piece pieces =>
    have hleft : renderAll (piece :: pieces) ++ tag = piece.render ++
      (renderAll pieces ++ tag) := by
      rw [renderAll, List.flatMap_cons, List.append_assoc, renderAll]
    cases hunit : piece.isUnit with
    | false =>
      obtain ⟨c, u, hrender, htype⟩ := Piece.render_legacy hunit
      rw [hrender] at hleft
      refine (peekType_tag h hleft).imp fun type p' htype' => ?_
      obtain ⟨rfl, hat⟩ := htype'
      exact ⟨by simp [htype, EventType.code], hat⟩
    | true =>
      obtain ⟨c, u, hrender, hc, -⟩ := Piece.render_unit hunit (hpieces piece List.mem_cons_self)
        fun hmem => h.unmarked (hleft ▸ List.mem_append_left _ hmem)
      rw [hrender] at hleft
      refine (peekType_unit h hleft hc).imp fun type p' htype => ?_
      obtain ⟨rfl, hat⟩ := htype
      refine ⟨?_, hat⟩
      unfold unitType
      split <;> simp [EventType.code]

/-- The type of the event so far: none, or one of the types of text and of what
is skipped. -/
def IsMinimum (pieces : List Piece) : Option EventType → Prop
  | none => ∃ piece ∈ pieces, piece.isText = true
  | some type => EventType.TEXT.code ≤ type.code ∧
      (type.code ≤ EventType.ENTITY_REF.code ∨ ∃ piece ∈ pieces, piece.isText = true)

theorem IsToken.isMinimum {type : EventType} (h : IsToken pieces rest type text)
    (hminimum : IsMinimum pieces minimum) : IsMinimum rest (some (minType minimum type)) := by
  cases minimum with
  | none => exact ⟨h.text_le, h.isText hminimum⟩
  | some m =>
    obtain ⟨hle, hm⟩ := hminimum
    have hmin : minType (some m) type = if type.code < m.code then type else m := rfl
    rw [hmin]
    split
    · refine ⟨h.text_le, ?_⟩
      rcases hm with hm | hm
      · exact .inl (by omega)
      · exact h.isText hm
    · refine ⟨hle, ?_⟩
      rcases hm with hm | hm
      · exact .inl hm
      · exact (h.isText hm).imp_left fun htype => by omega

/-- The text of all pieces but the one before is gone. -/
def Delivers (pieces : List Piece) (text tag : NSString) (type : EventType) (p : SGXmlPullParser) :
    Prop :=
  EventType.TEXT.code ≤ type.code ∧
    p.peeked ++ packed p.peekReadedCR p.rest = tag ∧
    p.textBuf = (pieces.foldl collect (text, false)).1

theorem nextLoop_at (hpieces : ∀ piece ∈ pieces, piece.WellFormed env features ∧ piece.isXm = false)
    (hdepth : v.enter.depth ≠ 0)
    (htag : IsTag tag) (h : At p { v with left := renderAll pieces ++ tag })
    (hminimum : IsMinimum pieces minimum)
    (hne : pieces ≠ []) (hfuel : (renderAll pieces).length < fuel) (hn : pieces.length ≤ n) :
    Returns (Delivers pieces v.text tag)
      (loop (nextRound env features fuel readName) n minimum p) := by
  induction n generalizing p v pieces minimum with
  | zero => exact absurd (List.eq_nil_of_length_eq_zero (Nat.le_zero.mp hn)) hne
  | succ n ih =>
    obtain ⟨rest, type, text, htoken, hround⟩ :=
      doNext_token hpieces hdepth htag h hne hfuel
    have hmin := htoken.isMinimum hminimum
    obtain ⟨hle, hmore⟩ := id hmin
    have hrest : ∀ piece ∈ rest, piece.WellFormed env features ∧ piece.isXm = false :=
      fun piece hmem => hpieces piece (htoken.suffix.subset hmem)
    have hdepth' : (View.enter { v.enter with text := text, type := type }).depth ≠ 0 := by
      have htype : type ≠ .END_TAG := by
        rintro rfl
        exact absurd htoken.text_le (by decide)
      simpa [View.enter, htype] using hdepth
    have hfuel' : (renderAll rest).length < fuel := by
      obtain ⟨before, rfl⟩ := htoken.suffix
      rw [renderAll, List.flatMap_append, List.length_append] at hfuel
      exact Nat.lt_of_le_of_lt (Nat.le_add_left _ _) hfuel
    -- the rounds that are left, from the rest of the pieces on
    have hgoes : ∀ p', At p' { v.enter with
          left := renderAll rest ++ tag, text := text, type := type } → rest ≠ [] →
        Returns (Delivers pieces v.text tag)
          (loop (nextRound env features fuel readName) n (some (minType minimum type)) p') := by
      intro p' hbefore hnil
      refine (ih (v := { v.enter with
        text := text, type := type }) hrest hdepth' hbefore hmin hnil hfuel'
        (Nat.le_of_lt_succ (Nat.lt_of_lt_of_le htoken.shorter hn))).imp fun type' p'' hp => ?_
      exact ⟨hp.1, hp.2.1, hp.2.2.trans (htoken.collected v.text).symm⟩
    refine returns_loop (returns_bind hround fun type' p₁ hp => ?_)
    obtain ⟨rfl, hat⟩ := hp
    by_cases hskip : EventType.ENTITY_REF.code < (minType minimum type').code
    · rw [if_pos hskip]
      refine returns_pure (hgoes p₁ hat ?_)
      rintro rfl
      obtain ⟨piece, hmem, -⟩ := hmore.resolve_left (Nat.not_le_of_lt hskip)
      cases hmem
    · rw [if_neg hskip, if_pos hle]
      refine returns_bind (peekType_rest (v := { v.enter with text := text, type := type' })
        (fun piece hmem => (hrest piece hmem).1) htag hat) fun t p₂ ht => ?_
      obtain ⟨hnil, hbefore⟩ := ht
      by_cases hends : rest = []
      · rw [if_neg fun hcode => hnil.mp hcode hends]
        refine returns_pure ⟨hle, ?_, ?_⟩
        · rw [hbefore.left, hends]
          rfl
        · rw [hbefore.text, htoken.collected v.text, hends]
          rfl
      · rw [if_pos (hnil.mpr hends)]
        exact returns_pure (hgoes p₂ hbefore hends)

theorem length_le_renderAll (pieces : List Piece) : pieces.length ≤ (renderAll pieces).length := by
  induction pieces with
  | nil => exact Nat.le_refl 0
  | cons piece pieces ih =>
    have hpos : 0 < piece.render.length := by cases piece <;> exact Nat.succ_pos _
    rw [renderAll, List.flatMap_cons, List.length_append, List.length_cons]
    rw [renderAll] at ih
    omega

theorem foldl_collect_ne_nil (hne : pieces ≠ []) (text : NSString) :
    (pieces.foldl collect (text, false)).1 = delivered pieces := by
  obtain ⟨piece, pieces, rfl⟩ := List.exists_cons_of_ne_nil hne
  rfl

theorem next_at (hpieces : ∀ piece ∈ pieces, piece.WellFormed env features ∧ piece.isXm = false)
    (hdepth : v.enter.depth ≠ 0)
    (htag : IsTag tag) (htext : ∃ piece ∈ pieces, piece.isText = true)
    (h : At { p with isWhitespace := true, token := false }
      { v with left := renderAll pieces ++ tag })
    (hfuel : (renderAll pieces ++ tag).length < fuel) :
    Returns (fun type p' => type = .TEXT ∧ p'.peeked ++ packed p'.peekReadedCR p'.rest = tag ∧
        p'.textBuf = delivered pieces)
      (next env features fuel readName p) := by
  have hne : pieces ≠ [] := by
    rintro rfl
    obtain ⟨piece, hmem, -⟩ := htext
    cases hmem
  have hrender : (renderAll pieces).length < fuel := by
    rw [List.length_append] at hfuel
    omega
  have hlength := length_le_renderAll pieces
  refine returns_bind (returns_modify (Q := fun _ p' => At p'
    { v with left := renderAll pieces ++ tag }) h) fun _ p₁ hp => ?_
  refine returns_bind (nextLoop_at hpieces hdepth htag hp htext hne hrender (by omega))
    fun minimum p₂ hp => ?_
  obtain ⟨hle, hleft, htext⟩ := hp
  have htype : (if EventType.TEXT.code < minimum.code then .TEXT else minimum) =
    EventType.TEXT := by
    split
    · rfl
    · next hcode =>
      cases minimum <;> simp [EventType.code] at hle hcode ⊢
  rw [htype]
  refine returns_bind (returns_modify (Q := fun _ p' =>
    p'.peeked ++ packed p'.peekReadedCR p'.rest = tag ∧ p'.textBuf = delivered pieces)
    ⟨hleft, htext.trans (foldl_collect_ne_nil hne _)⟩) fun _ p₃ hp => ?_
  exact returns_pure ⟨rfl, hp⟩

-- The text of the pieces

/-- A run of characters and references, or one piece. -/
def IsLast (last : List Piece) : Prop :=
  (∀ piece ∈ last, piece.isUnit = true) ∨ ∃ piece, last = [piece]

/-- What stands before the last run, or before the last piece, has no text. -/
def TextLast (pieces : List Piece) : Prop :=
  ∃ before last, pieces = before ++ last ∧ (∀ piece ∈ before, piece.text = []) ∧ IsLast last

theorem Piece.isUnit_of_text_nil {piece : Piece} (h : piece.text = []) : piece.isUnit = false := by
  cases piece with
  | character c => cases h
  | entity name code => cases h
  | _ => rfl

theorem foldl_collect_silent (h : ∀ piece ∈ pieces, piece.text = []) :
    pieces.foldl collect ([], false) = ([], false) := by
  induction pieces with
  | nil => rfl
  | cons piece pieces ih =>
    have htext := h piece List.mem_cons_self
    rw [List.foldl_cons, collect, Piece.isUnit_of_text_nil htext, htext]
    exact ih fun piece hmem => h piece (List.mem_cons_of_mem _ hmem)

theorem IsLast.foldl_collect (h : IsLast pieces) :
    (pieces.foldl collect ([], false)).1 = textAll pieces := by
  rcases h with hunits | ⟨piece, rfl⟩
  · by_cases hne : pieces = []
    · rw [hne]
      rfl
    · rw [foldl_collect_run hne hunits]
  · rw [textAll, List.flatMap_singleton, List.foldl_cons, List.foldl_nil, collect]
    cases piece.isUnit <;> rfl

theorem exists_last (pieces : List Piece) :
    ∃ before last, pieces = before ++ last ∧ IsLast last ∧ delivered pieces = textAll last ∧
      ((pieces.foldl collect ([], false)).2 = true → ∀ piece ∈ last, piece.isUnit = true) := by
  induction pieces using List.reverseRecOn with
  | nil => exact ⟨[], [], rfl, .inl nofun, rfl, nofun⟩
  | append_singleton pieces piece ih =>
    obtain ⟨before, last, hpieces, hlast, htext, hrun⟩ := ih
    have hsingle : textAll [piece] = piece.text := List.flatMap_singleton _ _
    rw [delivered, List.foldl_append, List.foldl_cons, List.foldl_nil, collect]
    cases hunit : piece.isUnit with
    | false => exact ⟨pieces, [piece], rfl, .inr ⟨piece, rfl⟩, hsingle.symm, nofun⟩
    | true =>
      have hpiece : ∀ piece' ∈ [piece], piece'.isUnit = true := by
        rintro piece' hmem
        rw [List.mem_singleton.mp hmem]
        exact hunit
      cases hstate : (pieces.foldl collect ([], false)).2 with
      | false => exact ⟨pieces, [piece], rfl, .inr ⟨piece, rfl⟩, hsingle.symm, fun _ => hpiece⟩
      | true =>
        have hunits : ∀ piece' ∈ last ++ [piece], piece'.isUnit = true := by
          intro piece' hmem
          exact (List.mem_append.mp hmem).elim (hrun hstate piece') (hpiece piece')
        refine ⟨before, last ++ [piece], ?_, .inl hunits, ?_, fun _ => hunits⟩
        · rw [hpieces, List.append_assoc]
        · show delivered pieces ++ piece.text = textAll (last ++ [piece])
          rw [htext, textAll, textAll, List.flatMap_append, List.flatMap_singleton]

theorem delivered_eq_iff (pieces : List Piece) :
    delivered pieces = textAll pieces ↔ TextLast pieces := by
  constructor
  · intro h
    obtain ⟨before, last, hpieces, hlast, htext, -⟩ := exists_last pieces
    refine ⟨before, last, hpieces, ?_, hlast⟩
    rw [htext, hpieces, textAll, textAll, List.flatMap_append] at h
    exact List.flatMap_eq_nil_iff.mp (List.self_eq_append_left.mp h)
  · rintro ⟨before, last, rfl, hbefore, hlast⟩
    rw [delivered, List.foldl_append, foldl_collect_silent hbefore, hlast.foldl_collect, textAll,
      textAll, List.flatMap_append, List.flatMap_eq_nil_iff.mpr hbefore, List.nil_append]

-- Documents

/-- The parser has reached the pieces in an element of the source, with a tag
after them. -/
structure Stands (env : Environment) (features : Features) (source : NSString) (p : SGXmlPullParser)
    (pieces : List Piece) (tag : NSString) : Prop where
  valid : XML_INVALID_UNICHAR ∉ source
  reachable : Reachable env features source p
  left : p.peeked ++ packed p.peekReadedCR p.rest = renderAll pieces ++ tag
  wellFormed : ∀ piece ∈ pieces, piece.WellFormed env features
  text : ∃ piece ∈ pieces, piece.isText = true
  tag : IsTag tag
  degenerated : p.degenerated = false
  depth : (if p.type = .END_TAG then p.depth - 1 else p.depth) ≠ 0

/-- `next` gives one event, up to the tag, with the text of all pieces. -/
def Coalesces (env : Environment) (features : Features) (fuel : Nat) (p : SGXmlPullParser)
    (pieces : List Piece) (tag : NSString) : Prop :=
  ∃ p', next env features fuel (Xml.readName env features fuel) p = .ok .TEXT p' ∧
    p'.peeked ++ packed p'.peekReadedCR p'.rest = tag ∧ p'.textBuf = textAll pieces

theorem Stands.aligned {source : NSString} (h : Stands env features source p pieces tag) :
    Aligned source p := by
  refine h.reachable.placed.aligned.resolve_right fun hended => ?_
  have hlength := congrArg List.length h.left
  have hbuffered := h.reachable.placed.buffered
  have hpieces := length_le_renderAll pieces
  obtain ⟨piece, hmem, -⟩ := h.text
  have hpos := List.length_pos_of_mem hmem
  obtain ⟨c, s, htag, -⟩ := h.tag
  rw [hended.1, packed, List.append_nil, htag, List.length_append, List.length_cons,
    List.length_cons] at hlength
  omega

theorem Stands.shows {source : NSString} (h : Stands env features source p pieces tag) :
    At { p with isWhitespace := true, token := false }
      ⟨source, renderAll pieces ++ tag, p.textBuf, p.type, p.depth⟩ where
  source := h.reachable.placed.keeps
  valid := h.valid
  left := h.left
  unmarked := by
    obtain ⟨before, q, b, -, -, hpeeked, -⟩ := h.aligned
    rw [← h.left, hpeeked]
    intro hmem
    exact (List.mem_append.mp hmem).elim (packed_ne_invalid _ _) (packed_ne_invalid _ _)
  aligned := h.aligned
  buffered := h.reachable.placed.buffered
  text := rfl
  type := rfl
  depth := rfl
  token := rfl
  degenerated := h.degenerated

theorem Stands.coalesces_iff_delivered {source : NSString}
    (h : Stands env features source p pieces tag) (hxm : ∀ piece ∈ pieces, piece.isXm = false)
    (hfuel : (renderAll pieces ++ tag).length < fuel) :
    Coalesces env features fuel p pieces tag ↔ delivered pieces = textAll pieces := by
  have hnext : Returns _ (next env features fuel (Xml.readName env features fuel) p) := next_at
    (v := ⟨source, renderAll pieces ++ tag, p.textBuf, p.type, p.depth⟩)
    (fun piece hmem => ⟨h.wellFormed piece hmem, hxm piece hmem⟩) h.depth h.tag h.text h.shows hfuel
  obtain ⟨type, p', hok, rfl, hleft, htext⟩ := returns_iff_exists.mp hnext
  constructor
  · rintro ⟨p'', hok', -, htext'⟩
    rw [hok] at hok'
    cases hok'
    exact htext.symm.trans htext'
  · intro hdelivered
    exact ⟨p', hok, hleft, htext.trans hdelivered⟩

/-- The text of the event is that of all pieces if and only if the pieces before
the last run, or before the last piece, have none. -/
theorem coalesces_iff {source : NSString} (h : Stands env features source p pieces tag)
    (hxm : ∀ piece ∈ pieces, piece.isXm = false)
    (hfuel : (renderAll pieces ++ tag).length < fuel) :
    Coalesces env features fuel p pieces tag ↔ TextLast pieces :=
  (h.coalesces_iff_delivered hxm hfuel).trans (delivered_eq_iff pieces)

end

def afterStart (rest : NSString) : SGXmlPullParser where
  source := ns "<a>" ++ rest
  rest := rest
  position := 3
  isWhitespace := true
  type := .START_TAG
  name := some (ns "a")
  depth := 1
  column := 3

theorem isReference_hash65 : IsReference asciiEnvironment (ns "#65") (uc 'A') where
  ne_nil := by decide
  chars := show ∀ c ∈ [uc '6', uc '5'], IsReferenceChar asciiEnvironment c from
    List.forall_mem_cons.mpr ⟨⟨rfl, by decide, by decide⟩,
      List.forall_mem_cons.mpr ⟨⟨rfl, by decide, by decide⟩, nofun⟩⟩
  code := rfl

theorem isTag_endTag : IsTag (ns "</a>") := ⟨uc '/', ns "a>", rfl, by decide, by decide⟩

theorem stands_comment_first : Stands asciiEnvironment {} (ns "<a><!--c-->x&#65;</a>")
    (afterStart (ns "<!--c-->x&#65;</a>"))
    [.comment (ns "c"), .character (uc 'x'), .entity (ns "#65") (uc 'A')] (ns "</a>") where
  valid := by decide
  reachable :=
    .call .start (show Xml.call asciiEnvironment {} 9 (readName asciiEnvironment {} 9) .next
    (setInputSource (ns "<a><!--c-->x&#65;</a>")) = .ok .START_TAG _ from rfl)
  left := rfl
  wellFormed := List.forall_mem_cons.mpr ⟨show uc 'c' ≠ uc '-' by decide,
    List.forall_mem_cons.mpr ⟨show uc 'x' ≠ uc '<' ∧ uc 'x' ≠ uc '&' by decide,
      List.forall_mem_cons.mpr ⟨⟨rfl, isReference_hash65⟩, nofun⟩⟩⟩
  text := ⟨_, List.mem_cons_of_mem _ List.mem_cons_self, rfl⟩
  tag := isTag_endTag
  degenerated := rfl
  depth := by decide

theorem coalesces_comment_first : Coalesces asciiEnvironment {} 30
    (afterStart (ns "<!--c-->x&#65;</a>"))
    [.comment (ns "c"), .character (uc 'x'), .entity (ns "#65") (uc 'A')] (ns "</a>") := by
  refine (coalesces_iff stands_comment_first ?_ (by decide)).mpr ?_
  · exact List.forall_mem_cons.mpr ⟨rfl, List.forall_mem_cons.mpr ⟨rfl,
      List.forall_mem_cons.mpr ⟨rfl, nofun⟩⟩⟩
  · refine ⟨[.comment (ns "c")], [.character (uc 'x'), .entity (ns "#65") (uc 'A')],
      rfl, ?_, .inl ?_⟩
    · exact List.forall_mem_cons.mpr ⟨rfl, nofun⟩
    · exact List.forall_mem_cons.mpr ⟨rfl, List.forall_mem_cons.mpr ⟨rfl, nofun⟩⟩

/-- `<a>x<!--c--></a>`: the comment clears the text. -/
theorem not_coalesces_comment_last :
    Stands asciiEnvironment {} (ns "<a>x<!--c--></a>") (afterStart (ns "x<!--c--></a>"))
      [.character (uc 'x'), .comment (ns "c")] (ns "</a>") ∧
    ∀ fuel > 13, ¬ Coalesces asciiEnvironment {} fuel (afterStart (ns "x<!--c--></a>"))
      [.character (uc 'x'), .comment (ns "c")] (ns "</a>") := by
  have hstands : Stands asciiEnvironment {} (ns "<a>x<!--c--></a>")
    (afterStart (ns "x<!--c--></a>"))
      [.character (uc 'x'), .comment (ns "c")] (ns "</a>") := {
    valid := by decide
    reachable :=
      .call .start (show Xml.call asciiEnvironment {} 9 (readName asciiEnvironment {} 9) .next
      (setInputSource (ns "<a>x<!--c--></a>")) = .ok .START_TAG _ from rfl)
    left := rfl
    wellFormed := List.forall_mem_cons.mpr ⟨show uc 'x' ≠ uc '<' ∧ uc 'x' ≠ uc '&' by decide,
      List.forall_mem_cons.mpr ⟨show uc 'c' ≠ uc '-' by decide, nofun⟩⟩
    text := ⟨_, List.mem_cons_self, rfl⟩
    tag := isTag_endTag
    degenerated := rfl
    depth := by decide }
  refine ⟨hstands, fun fuel hfuel hcoalesces => ?_⟩
  have hdelivered := (hstands.coalesces_iff_delivered (List.forall_mem_cons.mpr ⟨rfl,
    List.forall_mem_cons.mpr ⟨rfl, nofun⟩⟩) hfuel).mp hcoalesces
  cases hdelivered

end BathyScaphe.Xml
