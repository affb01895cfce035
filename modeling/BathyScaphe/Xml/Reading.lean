import BathyScaphe.Xml.Buffer

/-!
# Reading the pieces of a text

What the parser does with each piece of the content of an element: a character,
an entity reference, a CDATA section, a comment and a processing instruction.
A view of the parser is what it has left to read, the text it has collected, the
type of its event and its depth.
-/

namespace BathyScaphe.Xml

open NSString Comp

structure View where
  source : NSString
  left : NSString
  text : NSString
  type : EventType
  depth : Int

/-- The parser shows the view, outside of `nextToken` and of empty tags, in a
source without the mark of the end. -/
structure At (p : SGXmlPullParser) (v : View) : Prop where
  source : p.source = v.source
  valid : XML_INVALID_UNICHAR ∉ v.source
  left : p.peeked ++ packed p.peekReadedCR p.rest = v.left
  unmarked : XML_INVALID_UNICHAR ∉ v.left
  aligned : Aligned v.source p
  buffered : p.peeked.length ≤ 2
  text : p.textBuf = v.text
  type : p.type = v.type
  depth : p.depth = v.depth
  token : p.token = false
  degenerated : p.degenerated = false

-- Characters

theorem fetch_keeps (rest : NSString) (p : SGXmlPullParser) :
    (fetch rest p).textBuf = p.textBuf ∧ (fetch rest p).type = p.type ∧
      (fetch rest p).depth = p.depth ∧ (fetch rest p).token = p.token ∧
      (fetch rest p).degenerated = p.degenerated := by
  obtain ⟨_, _, _, _, _, heq⟩ := fetch_eq rest p
  rw [heq]
  exact ⟨rfl, rfl, rfl, rfl, rfl⟩

theorem At.fetch (h : At p v) (hlt : p.peeked.length < v.left.length)
    (hbuffered : p.peeked.length < 2) : At (fetch p.rest p) v := by
  have hmore : packed p.peekReadedCR p.rest ≠ [] := by
    intro hnil
    have hleft := h.left
    rw [hnil, List.append_nil] at hleft
    rw [hleft] at hlt
    exact Nat.lt_irrefl _ hlt
  obtain ⟨htext, htype, hdepth, htoken, hdegenerated⟩ := fetch_keeps p.rest p
  obtain ⟨-, ⟨c, hpeeked, hpacked⟩ | ⟨-, hnil, -⟩⟩ := fetch_spec p.rest p
  · have hleft : (Xml.fetch p.rest p).peeked ++ packed (Xml.fetch p.rest p).peekReadedCR
        (Xml.fetch p.rest p).rest = v.left := by
      rw [hpeeked, List.append_assoc, List.singleton_append, ← hpacked, h.left]
    refine ⟨(fetch_source _ _).trans h.source, h.valid, hleft, h.unmarked, ?_,
      (fetch_length _ _).trans_le hbuffered, htext.trans h.text, htype.trans h.type,
      hdepth.trans h.depth, htoken.trans h.token, hdegenerated.trans h.degenerated⟩
    refine (h.aligned.fetch rfl).resolve_right fun hended => h.unmarked ?_
    have hlast : c = XML_INVALID_UNICHAR := hended.2 c (by rw [hpeeked]; simp)
    rw [← hleft, hpeeked, hlast]
    simp
  · exact absurd hnil hmore

theorem At.fill (h : At p v) (hlt : p.peeked.length + n ≤ v.left.length)
    (hbuffered : p.peeked.length + n ≤ 2) : At (fill n p) v := by
  induction n generalizing p with
  | zero => exact h
  | succ n ih =>
    have hlength := fetch_length p.rest p
    exact ih (h.fetch (by omega) (by omega)) (by omega) (by omega)

section
variable {p : SGXmlPullParser} {v : View} {s : NSString}

theorem peek_at (h : At p v) (hindex : index ≤ 1) (hlt : index < v.left.length) :
    Returns (fun c p' => v.left[index]? = some c ∧ At p' v ∧ p'.peeked ≠ []) (peek index p) := by
  have hpeeked : p.peeked.length ≤ v.left.length := by
    rw [← h.left, List.length_append]
    exact Nat.le_add_right _ _
  have hbuffered := h.buffered
  have hfill : At (fill (index + 1 - p.peeked.length) p) v := h.fill (by omega) (by omega)
  have hin : index < (fill (index + 1 - p.peeked.length) p).peeked.length := by
    rw [length_fill]
    omega
  refine ⟨?_, hfill, List.ne_nil_of_length_pos (Nat.zero_lt_of_lt hin)⟩
  rw [← hfill.left, List.getElem?_append_left hin, List.getD_eq_getElem?_getD,
    List.getElem?_eq_getElem hin, Option.getD_some]

theorem peek_head (h : At p v) (hleft : v.left = c :: s) :
    Returns (fun c' p' => c' = c ∧ At p' v ∧ p'.peeked ≠ []) (peek 0 p) := by
  refine (peek_at h (Nat.zero_le 1) (by simp [hleft])).imp fun c' p' hc => ⟨?_, hc.2⟩
  have hget := hc.1
  rw [hleft] at hget
  exact (Option.some.inj hget).symm

theorem read_at (h : At p { v with left := c :: s }) :
    Returns (fun c' p' => c' = c ∧ At p' { v with left := s }) (read p) := by
  refine returns_bind (peek_head h rfl) fun c' p' hc => ?_
  obtain ⟨rfl, hat, hne⟩ := hc
  obtain ⟨d, peeked, hpeeked⟩ := List.exists_cons_of_ne_nil hne
  have htail : p'.peeked = d :: p'.peeked.tail := by rw [hpeeked, List.tail_cons]
  have hleft := hat.left
  have hbuffered := hat.buffered
  rw [htail, List.cons_append] at hleft
  refine ⟨rfl, { hat with
    left := (List.cons.inj hleft).2
    unmarked := List.not_mem_of_not_mem_cons hat.unmarked
    aligned := hat.aligned.tail htail rfl rfl rfl
    buffered := ?_ }⟩
  rw [htail, List.length_cons] at hbuffered
  exact Nat.le_of_succ_le hbuffered

theorem readEnsure_at (h : At p { v with left := c :: s }) :
    Returns (fun _ p' => At p' { v with left := s }) (readEnsure c p) := by
  refine returns_bind (read_at h) fun c' p' hc => ?_
  rw [if_pos hc.1.symm]
  exact returns_pure hc.2

theorem readEnsureAll_at (h : At p { v with left := u ++ s }) :
    Returns (fun _ p' => At p' { v with left := s }) (readEnsureAll u p) := by
  induction u generalizing p with
  | nil => exact returns_pure h
  | cons c u ih => exact returns_bind (readEnsure_at h) fun _ p' hp => ih hp

theorem followedBy_at (h : At p { v with left := c :: d :: s }) (first second : UniChar) :
    Returns (fun b p' => b = (c = first ∧ d = second : Bool) ∧ At p' { v with left := c :: d :: s })
      (followedBy first second p) := by
  refine returns_bind (peek_at h (Nat.zero_le 1) (by simp)) fun c' p' hc => ?_
  obtain ⟨hget, hat, -⟩ := hc
  obtain rfl : c = c' := Option.some.inj hget
  by_cases hfirst : c = first
  · rw [if_pos hfirst]
    refine returns_bind (peek_at hat (Nat.le_refl 1) (by simp)) fun d' p' hd => ?_
    obtain ⟨hget, hat, -⟩ := hd
    obtain rfl : d = d' := Option.some.inj hget
    exact returns_pure ⟨by simp [hfirst], hat⟩
  · rw [if_neg hfirst]
    exact returns_pure ⟨by simp [hfirst], hat⟩

theorem push_at (h : At p v) (c : UniChar) :
    Returns (fun _ p' => At p' { v with text := v.text ++ [c] }) (push c p) :=
  { h with text := congrArg (· ++ [c]) h.text }

theorem clearText_at (h : At p v) :
    Returns (fun _ p' => At p' { v with text := [] } ∧ p'.peeked = p.peeked) (clearText p) :=
  ⟨{ h with text := rfl }, rfl⟩

theorem setType_at (h : At p v) (type : EventType) :
    Returns (fun _ p' => At p' { v with type := type }) (setType type p) :=
  { h with type := rfl }

theorem closesWith_at (h : At p { v with left := d :: e :: s }) (c delimiter : UniChar) :
    Returns (fun b p' => b = decide (c = delimiter ∧ d = delimiter ∧ e = uc '>') ∧
      At p' { v with left := d :: e :: s }) (closesWith c delimiter p) := by
  by_cases hc : c = delimiter
  · rw [closesWith, if_pos hc]
    exact (followedBy_at h delimiter (uc '>')).imp fun b p' hb => ⟨by simp [hb.1, hc], hb.2⟩
  · rw [closesWith, if_neg hc]
    exact returns_pure ⟨by simp [hc], h⟩

-- Comments, instructions and sections

def IsComment : NSString → Prop
  | [] => True
  | [c] => c ≠ uc '-'
  | c :: d :: w => ¬ (c = uc '-' ∧ d = uc '-') ∧ IsComment (d :: w)

def IsInstruction : NSString → Prop
  | c :: d :: w => ¬ (c = uc '?' ∧ d = uc '>') ∧ IsInstruction (d :: w)
  | _ => True

def decideIsInstruction : (w : NSString) → Decidable (IsInstruction w)
  | c :: d :: w =>
    have := decideIsInstruction (d :: w)
    inferInstanceAs (Decidable (¬ (c = uc '?' ∧ d = uc '>') ∧ IsInstruction (d :: w)))
  | [_] => isTrue trivial
  | [] => isTrue trivial

instance : DecidablePred IsInstruction := decideIsInstruction

def IsSection : NSString → Prop
  | c :: d :: e :: w => ¬ (c = uc ']' ∧ d = uc ']' ∧ e = uc '>') ∧ IsSection (d :: e :: w)
  | _ => True

variable {features : Features} {fuel : Nat}

theorem exists_two (w : NSString) (a b : UniChar) (s : NSString) :
    ∃ d e s', w ++ (a :: b :: s) = d :: e :: s' := by
  match w with
  | [] => exact ⟨a, b, s, rfl⟩
  | [d] => exact ⟨d, a, b :: s, rfl⟩
  | d :: e :: w => exact ⟨d, e, w ++ (a :: b :: s), rfl⟩

theorem IsComment.tail (h : IsComment (c :: w)) : IsComment w := by
  cases w with
  | nil => exact trivial
  | cons d w => exact h.2

theorem IsComment.not_closes (h : IsComment (c :: w))
    (hrest : w ++ (ns "-->" ++ s) = d :: e :: s') :
    ¬ (c = uc '-' ∧ d = uc '-' ∧ e = uc '>') := by
  cases w with
  | nil => exact fun hc => h hc.1
  | cons d' w =>
    rw [List.cons_append] at hrest
    obtain rfl := (List.cons.inj hrest).1
    exact fun hc => h.1 ⟨hc.1, hc.2.1⟩

theorem parseCommentLoop_at (hw : IsComment w) (hpc : w = [] → pc ≠ uc '-')
    (h : At p { v with left := w ++ (ns "-->" ++ s) }) (hfuel : w.length < fuel) :
    Returns (fun _ p' => At p' { v with left := ns "->" ++ s })
      (loop (parseCommentRound features false) fuel pc p) := by
  induction w generalizing p pc fuel with
  | nil =>
    obtain ⟨fuel, rfl⟩ := Nat.exists_eq_succ_of_ne_zero (Nat.ne_zero_of_lt hfuel)
    refine returns_loop (returns_bind (read_at h) fun c p hc => ?_)
    obtain ⟨rfl, hat⟩ := hc
    refine returns_bind (closesWith_at hat _ _) fun closes p hcloses => ?_
    obtain ⟨rfl, hat⟩ := hcloses
    rw [if_pos (by decide), if_neg (by simp [hpc rfl])]
    exact returns_pure hat
  | cons c w ih =>
    obtain ⟨fuel, rfl⟩ := Nat.exists_eq_succ_of_ne_zero (Nat.ne_zero_of_lt hfuel)
    have hinvalid : c ≠ XML_INVALID_UNICHAR := (List.ne_of_not_mem_cons h.unmarked).symm
    refine returns_loop (returns_bind (read_at h) fun c' p hc => ?_)
    obtain ⟨rfl, hat⟩ := hc
    obtain ⟨d, e, s', hrest⟩ := exists_two w (uc '-') (uc '-') (uc '>' :: s)
    have hopen := hw.not_closes hrest
    have hat' : At p { v with left := d :: e :: s' } := hrest ▸ hat
    refine returns_bind (closesWith_at hat' _ _) fun closes p hcloses => ?_
    obtain ⟨rfl, hat⟩ := hcloses
    rw [if_neg (by simpa using hopen), if_neg hinvalid]
    refine ih hw.tail ?_ (hrest ▸ hat) (Nat.lt_of_succ_lt_succ hfuel)
    rintro rfl
    exact hw

theorem parseComment_at (hw : IsComment w)
    (h : At p { v with left := ns "--" ++ (w ++ (ns "-->" ++ s)) }) (hfuel : w.length < fuel) :
    Returns (fun _ p' => At p' { v with left := s }) (parseComment features fuel false p) := by
  refine returns_bind (readEnsureAll_at h) fun _ p hp => ?_
  refine returns_bind (parseCommentLoop_at hw (fun _ => by decide) hp hfuel) fun _ p hp => ?_
  exact readEnsureAll_at hp

theorem IsInstruction.tail (h : IsInstruction (c :: w)) : IsInstruction w := by
  cases w with
  | nil => exact trivial
  | cons d w => exact h.2

theorem IsInstruction.not_closes (h : IsInstruction w) (hne : w ≠ [])
    (hrest : w ++ (ns "?>" ++ s) = d :: e :: s') : ¬ (d = uc '?' ∧ e = uc '>') := by
  match w with
  | [] => exact absurd rfl hne
  | [d'] =>
    obtain rfl := (List.cons.inj (List.cons.inj hrest).2).1
    exact fun hc => absurd hc.2 (by decide)
  | d' :: e' :: w =>
    rw [List.cons_append, List.cons_append] at hrest
    obtain rfl := (List.cons.inj hrest).1
    obtain rfl := (List.cons.inj (List.cons.inj hrest).2).1
    exact h.1

theorem parseProccessingInstructionLoop_at (hw : IsInstruction (c :: w))
    (h : At p { v with left := c :: w ++ (ns "?>" ++ s) }) (hfuel : w.length < fuel) :
    Returns (fun _ p' => At p' { v with left := ns "?>" ++ s })
      (loop (parseProccessingInstructionRound false) fuel () p) := by
  induction w generalizing p c fuel with
  | nil =>
    obtain ⟨fuel, rfl⟩ := Nat.exists_eq_succ_of_ne_zero (Nat.ne_zero_of_lt hfuel)
    refine returns_loop (returns_bind (read_at h) fun c' p hc => ?_)
    refine returns_bind (followedBy_at hc.2 _ _) fun closes p hcloses => ?_
    obtain ⟨rfl, hat⟩ := hcloses
    rw [if_pos (by decide)]
    exact returns_pure hat
  | cons d w ih =>
    obtain ⟨fuel, rfl⟩ := Nat.exists_eq_succ_of_ne_zero (Nat.ne_zero_of_lt hfuel)
    have hinvalid : c ≠ XML_INVALID_UNICHAR := (List.ne_of_not_mem_cons h.unmarked).symm
    refine returns_loop (returns_bind (read_at h) fun c' p hc => ?_)
    obtain ⟨rfl, hat⟩ := hc
    obtain ⟨d', e, s', hrest⟩ := exists_two (d :: w) (uc '?') (uc '>') s
    have hopen := hw.tail.not_closes (List.cons_ne_nil d w) hrest
    have hat' : At p { v with left := d' :: e :: s' } := hrest ▸ hat
    refine returns_bind (followedBy_at hat' _ _) fun closes p hcloses => ?_
    obtain ⟨rfl, hat⟩ := hcloses
    rw [if_neg (by simpa using hopen), if_neg hinvalid]
    exact ih hw.tail (hrest ▸ hat) (Nat.lt_of_succ_lt_succ hfuel)

theorem parseProccessingInstruction_at (hw : IsInstruction w) (hne : w ≠ [])
    (h : At p { v with left := w ++ (ns "?>" ++ s) }) (hfuel : w.length ≤ fuel) :
    Returns (fun _ p' => At p' { v with left := s })
      (parseProccessingInstruction fuel false p) := by
  obtain ⟨c, w, rfl⟩ := List.exists_cons_of_ne_nil hne
  refine returns_bind (parseProccessingInstructionLoop_at hw h hfuel) fun _ p hp => ?_
  exact readEnsureAll_at hp

theorem IsSection.tail (h : IsSection (c :: w)) : IsSection w := by
  match w with
  | [] => exact trivial
  | [d] => exact trivial
  | d :: e :: w => exact h.2

theorem IsSection.not_closes (h : IsSection (c :: w))
    (hrest : w ++ (ns "]]>" ++ s) = d :: e :: s') :
    ¬ (c = uc ']' ∧ d = uc ']' ∧ e = uc '>') := by
  match w with
  | [] =>
    obtain rfl := (List.cons.inj (List.cons.inj hrest).2).1
    exact fun hc => absurd hc.2.2 (by decide)
  | [d'] =>
    obtain rfl := (List.cons.inj (List.cons.inj hrest).2).1
    exact fun hc => absurd hc.2.2 (by decide)
  | d' :: e' :: w =>
    rw [List.cons_append, List.cons_append] at hrest
    obtain rfl := (List.cons.inj hrest).1
    obtain rfl := (List.cons.inj (List.cons.inj hrest).2).1
    exact h.1

theorem parseCDATALoop_at (hw : IsSection w)
    (h : At p { v with left := w ++ (ns "]]>" ++ s) }) (hfuel : w.length < fuel) :
    Returns (fun _ p' => At p' { v with left := ns "]>" ++ s, text := v.text ++ w })
      (loop parseCDATARound fuel () p) := by
  induction w generalizing p v fuel with
  | nil =>
    obtain ⟨fuel, rfl⟩ := Nat.exists_eq_succ_of_ne_zero (Nat.ne_zero_of_lt hfuel)
    refine returns_loop (returns_bind (read_at h) fun c p hc => ?_)
    obtain ⟨rfl, hat⟩ := hc
    refine returns_bind (closesWith_at hat _ _) fun closes p hcloses => ?_
    obtain ⟨rfl, hat⟩ := hcloses
    rw [if_pos (by decide), List.append_nil]
    exact returns_pure hat
  | cons c w ih =>
    obtain ⟨fuel, rfl⟩ := Nat.exists_eq_succ_of_ne_zero (Nat.ne_zero_of_lt hfuel)
    have hinvalid : c ≠ XML_INVALID_UNICHAR := (List.ne_of_not_mem_cons h.unmarked).symm
    refine returns_loop (returns_bind (read_at h) fun c' p hc => ?_)
    obtain ⟨rfl, hat⟩ := hc
    obtain ⟨d, e, s', hrest⟩ := exists_two w (uc ']') (uc ']') (uc '>' :: s)
    have hopen := hw.not_closes hrest
    have hat' : At p { v with left := d :: e :: s' } := hrest ▸ hat
    refine returns_bind (closesWith_at hat' _ _) fun closes p hcloses => ?_
    obtain ⟨rfl, hat⟩ := hcloses
    rw [if_neg (by simpa using hopen), if_neg hinvalid]
    refine returns_bind (push_at (hrest ▸ hat) _) fun _ p hp => ?_
    rw [← List.singleton_append, ← List.append_assoc]
    exact ih (v := { v with text := v.text ++ [c'] }) hw.tail hp (Nat.lt_of_succ_lt_succ hfuel)

theorem parseCDATA_at (hw : IsSection w)
    (h : At p { v with left := ns "[CDATA[" ++ (w ++ (ns "]]>" ++ s)) }) (hfuel : w.length < fuel) :
    Returns (fun _ p' => At p' { v with left := s, text := v.text ++ w }) (parseCDATA fuel p) := by
  refine returns_bind (readEnsureAll_at h) fun _ p hp => ?_
  refine returns_bind (parseCDATALoop_at hw hp hfuel) fun _ p hp => ?_
  exact readEnsureAll_at (v := { v with text := v.text ++ w }) hp

-- Entity references

/-- The units of the source from the next character on, with none of a line end
in the buffer. -/
structure Upon (p : SGXmlPullParser) (v : View) (u : NSString) : Prop where
  shows : At p v
  plain : p.peekReadedCR = false
  units : p.peeked ++ p.rest = u
  place : ∃ before, v.source = before ++ u ∧ before.length = p.position

theorem Upon.position (h : Upon p v u) : p.position + u.length = v.source.length := by
  obtain ⟨before, hsource, hlength⟩ := h.place
  rw [hsource, List.length_append, hlength]

theorem packed_plain (hvalid : XML_INVALID_UNICHAR ∉ q) (hq : uc '\n' ∉ packed false q) :
    packed false q = q ∧ afterCR false q = false := by
  induction q with
  | nil => exact ⟨rfl, rfl⟩
  | cons c q ih =>
    have hc : c ≠ XML_INVALID_UNICHAR := (List.ne_of_not_mem_cons hvalid).symm
    rw [packed] at hq ⊢
    by_cases hcr : c = uc '\r'
    · rw [if_pos hcr] at hq
      exact absurd List.mem_cons_self hq
    · rw [if_neg hcr, if_neg (by simp [hc])] at hq ⊢
      obtain ⟨hpacked, hafter⟩ :=
        ih (List.not_mem_of_not_mem_cons hvalid) (List.not_mem_of_not_mem_cons hq)
      refine ⟨congrArg (c :: ·) hpacked, ?_⟩
      rw [afterCR, decide_eq_false hcr]
      exact hafter

theorem packed_skipped (hvalid : XML_INVALID_UNICHAR ∉ q) (hq : uc '\n' ∉ packed b q)
    (hne : packed b q ≠ []) : ∃ skipped, q = skipped ++ packed b q ∧ afterCR b q = false := by
  cases q with
  | nil => exact absurd rfl hne
  | cons c q =>
    have hc : c ≠ XML_INVALID_UNICHAR := (List.ne_of_not_mem_cons hvalid).symm
    have hvalid' := List.not_mem_of_not_mem_cons hvalid
    rw [packed] at hq ⊢
    rw [afterCR]
    by_cases hcr : c = uc '\r'
    · rw [if_pos hcr] at hq
      exact absurd List.mem_cons_self hq
    · rw [if_neg hcr] at hq ⊢
      rw [decide_eq_false hcr]
      split at hq
      · next hskip =>
        obtain ⟨hpacked, hafter⟩ := packed_plain hvalid' hq
        rw [if_pos hskip]
        exact ⟨[c], by rw [hpacked, List.singleton_append], hafter⟩
      · next hskip =>
        obtain ⟨hpacked, hafter⟩ := packed_plain hvalid' (List.not_mem_of_not_mem_cons hq)
        rw [if_neg hskip]
        exact ⟨[], by rw [hpacked, List.nil_append], hafter⟩

theorem At.upon (h : At p v) (hne : p.peeked ≠ []) (hplain : uc '\n' ∉ p.peeked) :
    Upon p v (p.peeked ++ p.rest) := by
  obtain ⟨before, q, b, hsource, hcount, hq, hb⟩ := h.aligned
  have hvalid : XML_INVALID_UNICHAR ∉ q := by
    intro hmem
    refine h.valid ?_
    rw [hsource]
    exact List.mem_append_right _ (List.mem_append_left _ hmem)
  rw [hq] at hne hplain
  obtain ⟨skipped, hskipped, hafter⟩ := packed_skipped hvalid hplain hne
  rw [← hq] at hskipped
  refine ⟨h, hb.trans hafter, rfl, before ++ skipped, ?_, ?_⟩
  · rw [hsource, List.append_assoc, ← List.append_assoc skipped, ← hskipped]
  · have hlength := congrArg List.length hskipped
    rw [List.length_append] at hlength ⊢
    omega

theorem packed_cons (h : packed false rest = c :: s) (hc : c ≠ uc '\n')
    (hvalid : XML_INVALID_UNICHAR ∉ rest) : c ≠ uc '\r' ∧ ∃ r, rest = c :: r := by
  cases rest with
  | nil => exact absurd h (by simp [packed])
  | cons d r =>
    have hd : d ≠ XML_INVALID_UNICHAR := (List.ne_of_not_mem_cons hvalid).symm
    rw [packed] at h
    by_cases hcr : d = uc '\r'
    · rw [if_pos hcr] at h
      exact absurd (List.cons.inj h).1.symm hc
    · rw [if_neg hcr, if_neg (by simp [hd])] at h
      obtain rfl := (List.cons.inj h).1
      exact ⟨hcr, r, rfl⟩

theorem fetch_plain (hcr : c ≠ uc '\r') (hc : c ≠ uc '\n') (hinvalid : c ≠ XML_INVALID_UNICHAR)
    (rest : NSString) (p : SGXmlPullParser) :
    fetch (c :: rest) p =
      { p with rest := rest, peekReadedCR := false, peeked := p.peeked ++ [c] } := by
  rw [fetch, if_neg hcr, if_neg (by simp [hc, hinvalid])]

theorem Upon.peek (h : Upon p { v with left := c :: s } u) (hc : c ≠ uc '\n') :
    Returns (fun c' p' => c' = c ∧ Upon p' { v with left := c :: s } u ∧ p'.peeked ≠ [])
      (peek 0 p) := by
  have hleft := h.shows.left
  have hunits := h.units
  rw [h.plain] at hleft
  have hlooked : Returns (fun _ p' => p'.peekReadedCR = false ∧ p'.peeked ++ p'.rest = u ∧
      p'.position = p.position) (Xml.peek 0 p) := by
    show Comp.Returns _ (Comp.Outcome.ok _ (fill (0 + 1 - p.peeked.length) p))
    cases hpeeked : p.peeked with
    | nil =>
      rw [hpeeked, List.nil_append] at hleft hunits
      obtain ⟨before, hsource, -⟩ := h.place
      have hvalid : XML_INVALID_UNICHAR ∉ p.rest := by
        intro hmem
        refine h.shows.valid ?_
        rw [hsource, ← hunits]
        exact List.mem_append_right _ hmem
      obtain ⟨hcr, r, hrest⟩ := packed_cons hleft hc hvalid
      have hinvalid : c ≠ XML_INVALID_UNICHAR := by
        rw [hrest] at hvalid
        exact (List.ne_of_not_mem_cons hvalid).symm
      show (fetch p.rest p).peekReadedCR = false ∧
        (fetch p.rest p).peeked ++ (fetch p.rest p).rest = u ∧
        (fetch p.rest p).position = p.position
      rw [← hunits, hrest, fetch_plain hcr hc hinvalid]
      exact ⟨rfl, by simp [hpeeked], rfl⟩
    | cons d peeked =>
      have hzero : 0 + 1 - (d :: peeked).length = 0 := by simp
      rw [hzero]
      exact ⟨h.plain, h.units, rfl⟩
  refine ((peek_head h.shows rfl).and hlooked).imp fun c' p' hp => ?_
  obtain ⟨⟨hc', hat, hne⟩, hplain, hunits', hposition⟩ := hp
  exact ⟨hc', ⟨hat, hplain, hunits', hposition ▸ h.place⟩, hne⟩

theorem Upon.read (h : Upon p { v with left := c :: s } u) (hc : c ≠ uc '\n') :
    Returns (fun c' p' => c' = c ∧ ∃ u', u = c :: u' ∧ Upon p' { v with left := s } u')
      (read p) := by
  have htaken : Returns (fun _ p' => p'.peekReadedCR = false ∧ u = c :: (p'.peeked ++ p'.rest) ∧
      ∃ before, v.source = before ++ u ∧ before.length + 1 = p'.position) (Xml.read p) := by
    refine returns_bind (h.peek hc) fun c' p' hp => ?_
    obtain ⟨rfl, hupon, hne⟩ := hp
    obtain ⟨d, peeked, hpeeked⟩ := List.exists_cons_of_ne_nil hne
    have hleft := hupon.shows.left
    have hunits := hupon.units
    obtain ⟨before, hsource, hlength⟩ := hupon.place
    rw [hpeeked] at hleft hunits
    obtain rfl := (List.cons.inj hleft).1
    refine ⟨hupon.plain, ?_, before, hsource, congrArg Nat.succ hlength⟩
    show u = d :: (p'.peeked.tail ++ p'.rest)
    rw [hpeeked, List.tail_cons, ← hunits, List.cons_append]
  refine ((read_at h.shows).and htaken).imp fun c' p' hp => ?_
  obtain ⟨⟨hc', hat⟩, hplain, rfl, before, hsource, hlength⟩ := hp
  refine ⟨hc', p'.peeked ++ p'.rest, rfl, hat, hplain, rfl, before ++ [c], ?_, ?_⟩
  · rw [List.append_assoc, List.singleton_append]
    exact hsource
  · rw [List.length_append, List.length_singleton, hlength]

theorem Upon.readEnsure (h : Upon p { v with left := c :: s } u) (hc : c ≠ uc '\n') :
    Returns (fun c' p' => c' = c ∧ ∃ u', u = c :: u' ∧ Upon p' { v with left := s } u')
      (readEnsure c p) := by
  refine returns_bind (h.read hc) fun c' p' hp => ?_
  rw [if_pos hp.1.symm]
  exact returns_pure hp

theorem Upon.push (h : Upon p v u) (c : UniChar) :
    Returns (fun _ p' => Upon p' { v with text := v.text ++ [c] } u) (push c p) :=
  { h with shows := push_at h.shows c }

variable {env : Environment}

def IsReferenceChar (env : Environment) (c : UniChar) : Prop :=
  env.alphanumericCharacterSet c = true ∧ c ≠ uc ';' ∧ c ≠ uc '\n'

theorem scanEntity_at (hname : ∀ c ∈ name, IsReferenceChar env c)
    (h : Upon p { v with left := name ++ (uc ';' :: s) } u) (hfuel : name.length < fuel) :
    Returns (fun isValid p' => isValid = true ∧ ∃ u', u = name ++ (uc ';' :: u') ∧
        Upon p' { v with left := s, text := v.text ++ (name ++ [uc ';']) } u')
      (scanEntity env fuel p) := by
  induction name generalizing p v u fuel with
  | nil =>
    obtain ⟨fuel, rfl⟩ := Nat.exists_eq_succ_of_ne_zero (Nat.ne_zero_of_lt hfuel)
    refine returns_loop (returns_bind (h.peek (by decide)) fun c p hc => ?_)
    obtain ⟨rfl, hupon, -⟩ := hc
    rw [if_neg (by simp)]
    refine returns_bind (hupon.read (by decide)) fun c p hc => ?_
    obtain ⟨rfl, u', hu, hupon⟩ := hc
    refine returns_bind (hupon.push _) fun _ p hp => ?_
    exact ⟨rfl, u', hu, hp⟩
  | cons c name ih =>
    obtain ⟨fuel, rfl⟩ := Nat.exists_eq_succ_of_ne_zero (Nat.ne_zero_of_lt hfuel)
    obtain ⟨halphanumeric, hsemicolon, hfeed⟩ := hname c List.mem_cons_self
    refine returns_loop (returns_bind (h.peek hfeed) fun c' p hc => ?_)
    obtain ⟨rfl, hupon, -⟩ := hc
    rw [if_neg (by simp [halphanumeric])]
    refine returns_bind (hupon.read hfeed) fun c' p hc => ?_
    obtain ⟨rfl, u', hu, hupon⟩ := hc
    refine returns_bind (hupon.push _) fun _ p hp => ?_
    rw [if_neg hsemicolon]
    refine (ih (v := { v with text := v.text ++ [c'] })
      (fun d hd => hname d (List.mem_cons_of_mem _ hd)) hp (Nat.lt_of_succ_lt_succ hfuel)).imp ?_
    rintro isValid p ⟨hvalid, u'', rfl, hdone⟩
    rw [List.append_assoc] at hdone
    exact ⟨hvalid, u'', hu, hdone⟩

structure IsReference (env : Environment) (name : NSString) (code : UniChar) : Prop where
  ne_nil : name ≠ []
  chars : ∀ c ∈ (if name.head? = some (uc '#') then name.tail else name), IsReferenceChar env c
  code : characterForEntityReference env name = some code

theorem pushHash_at (href : IsReference env (c :: name) code)
    (h : Upon p { v with left := c :: name ++ (uc ';' :: s) } u) :
    Returns (fun _ p' => ∃ hash body u', c :: name = hash ++ body ∧ u = hash ++ u' ∧
        (∀ d ∈ body, IsReferenceChar env d) ∧
        Upon p' { v with left := body ++ (uc ';' :: s), text := v.text ++ hash } u')
      (when (c = uc '#') pushRead p) := by
  have hchars := href.chars
  rw [List.head?_cons, List.tail_cons] at hchars
  by_cases hhash : c = uc '#'
  · subst hhash
    rw [if_pos rfl] at hchars
    refine returns_bind (h.read (by decide)) fun c p hc => ?_
    obtain ⟨rfl, u', hu, hupon⟩ := hc
    exact (hupon.push _).imp fun _ p hp => ⟨[uc '#'], name, u', rfl, hu, hchars, hp⟩
  · rw [if_neg (by simpa using hhash)] at hchars
    rw [when, if_neg (by simpa using hhash)]
    refine returns_pure ⟨[], c :: name, u, rfl, rfl, hchars, ?_⟩
    rw [List.append_nil]
    exact h

theorem substringWithRange_at (hsource : p.source = fetched ++ (name ++ u)) :
    Returns (fun entityRef p' => entityRef = name ∧ p' = p)
      (substringWithRange ⟨fetched.length, name.length⟩ p) := by
  refine returns_bind (returns_get (Q := fun p' p'' => p' = p ∧ p'' = p) ⟨rfl, rfl⟩) fun _ _ hp =>
    ?_
  obtain ⟨rfl, rfl⟩ := hp
  rw [if_neg (by simp [hsource, NSRange.max])]
  refine returns_pure ⟨?_, rfl⟩
  rw [hsource, NSString.substringWithRange, List.drop_left, List.take_left]

theorem resolveEntity_at (href : IsReference env name code)
    (hsource : v.source = before ++ (name ++ (uc ';' :: u)))
    (h : Upon p { v with text := text ++ more } u) (hstart : index + 1 = before.length) :
    Returns (fun _ p' => At p' { v with text := text ++ [code] })
      (resolveEntity env features index text.length true p) := by
  have hposition := h.position
  have hplace : p.position - index = name.length + 2 := by
    simp only [hsource, List.length_append, List.length_cons] at hposition
    omega
  have hlong : ¬ name.length + 2 ≤ 2 := by
    have hpos := List.length_pos_of_ne_nil href.ne_nil
    omega
  refine returns_bind (returns_get (Q := fun p' p'' => p' = p ∧ p'' = p) ⟨rfl, rfl⟩) fun _ _ hp =>
    ?_
  obtain ⟨rfl, rfl⟩ := hp
  rw [hplace, if_neg (by simpa using hlong), if_pos rfl, hstart]
  refine returns_bind (substringWithRange_at (h.shows.source.trans hsource)) fun _ _ hp => ?_
  obtain ⟨rfl, rfl⟩ := hp
  simp only [if_pos, href.code]
  refine returns_bind (returns_modify (Q := fun _ p' => At p' { v with text := text })
    { h.shows with text := ?_ }) fun _ p hp => ?_
  · simp [h.shows.text]
  · exact returns_bind (push_at hp code) fun _ p' hp' => returns_pure hp'

/-- Before a reference the buffer holds no more than its first two characters. -/
theorem At.upon_reference (href : IsReference env name code)
    (h : At p { v with left := uc '&' :: (name ++ s) }) (hne : p.peeked ≠ []) :
    Upon p { v with left := uc '&' :: (name ++ s) } (p.peeked ++ p.rest) := by
  obtain ⟨c, name, rfl⟩ := List.exists_cons_of_ne_nil href.ne_nil
  have hc : c ≠ uc '\n' := by
    rintro rfl
    exact (href.chars (uc '\n') List.mem_cons_self).2.2 rfl
  refine h.upon hne fun hmem => ?_
  have hleft := h.left
  have hbuffered := h.buffered
  match hpeeked : p.peeked with
  | [] => exact hne hpeeked
  | [a] =>
    rw [hpeeked] at hleft hmem
    obtain rfl := (List.cons.inj hleft).1
    exact absurd (List.mem_singleton.mp hmem) (by decide)
  | [a, d] =>
    rw [hpeeked] at hleft hmem
    obtain rfl := (List.cons.inj hleft).1
    obtain rfl := (List.cons.inj (List.cons.inj hleft).2).1
    rcases List.mem_cons.mp hmem with hfeed | hmem
    · exact absurd hfeed (by decide)
    · exact hc (List.mem_singleton.mp hmem).symm
  | a :: d :: e :: peeked =>
    rw [hpeeked] at hbuffered
    simp at hbuffered

theorem parseEntity_at (href : IsReference env name code)
    (hresolve : features.disableEntityResolving = false)
    (h : At p { v with left := uc '&' :: (name ++ (uc ';' :: s)) }) (hne : p.peeked ≠ [])
    (hfuel : name.length < fuel) :
    Returns (fun _ p' => At p' { v with left := s, text := v.text ++ [code] })
      (parseEntity env features fuel false p) := by
  have hupon := h.upon_reference href hne
  obtain ⟨before, hsource, hstart⟩ := hupon.place
  refine returns_bind (returns_get (Q := fun p' p'' => p' = p ∧ p'' = p) ⟨rfl, rfl⟩) fun _ p hp =>
    ?_
  obtain ⟨rfl, rfl⟩ := hp
  refine returns_bind (returns_pure (Q := fun _ p' => p' = p) rfl) fun _ p hp => ?_
  subst hp
  refine returns_bind (returns_get (Q := fun p' p'' => p' = p ∧ p'' = p) ⟨rfl, rfl⟩) fun _ p hp =>
    ?_
  obtain ⟨rfl, rfl⟩ := hp
  refine returns_bind (hupon.readEnsure (by decide)) fun c p₁ hc => ?_
  obtain ⟨rfl, u, hu, hupon⟩ := hc
  refine returns_bind (hupon.push _) fun _ p₂ hupon => ?_
  obtain ⟨c, name, rfl⟩ := List.exists_cons_of_ne_nil href.ne_nil
  have hfeed : c ≠ uc '\n' := by
    rintro rfl
    exact (href.chars (uc '\n') List.mem_cons_self).2.2 rfl
  refine returns_bind (hupon.peek (v := { v with text := v.text ++ [uc '&'] }) hfeed)
    fun c' p₃ hc => ?_
  obtain ⟨rfl, hupon, -⟩ := hc
  refine returns_bind (pushHash_at (v := { v with text := v.text ++ [uc '&'] }) href hupon)
    fun _ p₄ hp => ?_
  obtain ⟨hash, body, u', hname, rfl, hbody, hupon⟩ := hp
  have hfuel' : body.length < fuel := by
    rw [hname, List.length_append] at hfuel
    omega
  refine returns_bind (scanEntity_at (v := { v with text := v.text ++ [uc '&'] ++ hash })
    hbody hupon hfuel') fun isValid p₅ hp => ?_
  obtain ⟨rfl, u'', rfl, hdone⟩ := hp
  rw [if_neg (by simp [hresolve])]
  have hsource' : v.source = (before ++ [uc '&']) ++ (c' :: name ++ (uc ';' :: u'')) := by
    rw [hsource, hu, ← List.append_assoc hash, ← hname, List.append_assoc, List.singleton_append]
  rw [h.text]
  simp only [List.append_assoc] at hdone
  refine resolveEntity_at (v := { v with left := s }) href hsource' hdone ?_
  rw [List.length_append, hstart, List.length_singleton]

end

end BathyScaphe.Xml
