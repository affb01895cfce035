import BathyScaphe.Xml.Scanning
import BathyScaphe.Xml.Termination

/-!
# The place of the buffer

The parser takes the characters of names and references from the source by the
place it has counted. In every state that calls of `next` and `nextToken` reach,
the characters of the buffer are those of the units of the source before the
rest, and every unit has been counted or is still in the buffer.
-/

namespace BathyScaphe.Xml

open NSString Comp

def afterCR : Bool → NSString → Bool
  | b, [] => b
  | _, c :: s => afterCR (c = uc '\r') s

theorem packed_append (b : Bool) (q s : NSString) :
    packed b (q ++ s) = packed b q ++ packed (afterCR b q) s := by
  induction q generalizing b with
  | nil => rfl
  | cons c q ih =>
    rw [List.cons_append, packed, packed, afterCR]
    by_cases hcr : c = uc '\r'
    · rw [if_pos hcr, if_pos hcr, ih, List.cons_append, decide_eq_true hcr]
    · rw [if_neg hcr, if_neg hcr, decide_eq_false hcr]
      split
      · exact ih false
      · rw [ih, List.cons_append]

theorem afterCR_append (b : Bool) (q s : NSString) :
    afterCR b (q ++ s) = afterCR (afterCR b q) s := by
  induction q generalizing b with
  | nil => rfl
  | cons c q ih => exact ih _

theorem packed_eq_cons (h : packed b q = c :: w) :
    ∃ taken q', q = taken ++ q' ∧ packed (afterCR b taken) q' = w := by
  induction q generalizing b with
  | nil => cases h
  | cons d q ih =>
    rw [packed] at h
    by_cases hcr : d = uc '\r'
    · rw [if_pos hcr] at h
      refine ⟨[d], q, rfl, ?_⟩
      rw [afterCR, afterCR, decide_eq_true hcr]
      exact (List.cons.inj h).2
    · rw [if_neg hcr] at h
      split at h
      · obtain ⟨taken, q', rfl, hw⟩ := ih h
        refine ⟨d :: taken, q', rfl, ?_⟩
        rw [afterCR, decide_eq_false hcr]
        exact hw
      · refine ⟨[d], q, rfl, ?_⟩
        rw [afterCR, afterCR, decide_eq_false hcr]
        exact (List.cons.inj h).2

/-- The buffer holds the units of the source before the rest. -/
def Aligned (source : NSString) (p : SGXmlPullParser) : Prop :=
  ∃ before q b, source = before ++ (q ++ p.rest) ∧
    p.position + p.peeked.length = before.length + q.length ∧
    p.peeked = packed b q ∧ p.peekReadedCR = afterCR b q

theorem Aligned.take {p p' : SGXmlPullParser} (h : Aligned source p) (hrest : p.rest = c :: p'.rest)
    (hpeeked : p'.peeked = p.peeked ++ packed p.peekReadedCR [c])
    (hposition : p'.position + p'.peeked.length = p.position + p.peeked.length + 1)
    (hcr : p'.peekReadedCR = (c = uc '\r' : Bool)) : Aligned source p' := by
  obtain ⟨before, q, b, hsource, hcount, hq, hb⟩ := h
  refine ⟨before, q ++ [c], b, ?_, ?_, ?_, ?_⟩
  · rw [hsource, hrest, List.append_assoc, List.singleton_append]
  · rw [List.length_append, List.length_singleton]
    omega
  · rw [hpeeked, hq, hb, packed_append]
  · rw [hcr, afterCR_append]
    rfl

/-- The rest is empty and the buffer ends with the mark. -/
def Ended (p : SGXmlPullParser) : Prop :=
  p.rest = [] ∧ ∀ c ∈ p.peeked.getLast?, c = XML_INVALID_UNICHAR

theorem Aligned.fetch (h : Aligned source p) (hrest : p.rest = rest) :
    Aligned source (fetch rest p) ∨ Ended (fetch rest p) := by
  induction rest generalizing p with
  | nil => exact .inr ⟨rfl, by simp [Xml.fetch]⟩
  | cons c rest ih =>
    rw [Xml.fetch]
    by_cases hcr : c = uc '\r'
    · rw [if_pos hcr]
      refine .inl (h.take hrest ?_ ?_ (decide_eq_true hcr).symm)
      · simp [packed, hcr]
      · simp only [List.length_append, List.length_singleton]
        omega
    · rw [if_neg hcr]
      split
      · next hskip =>
        refine ih (h.take hrest ?_ ?_ (decide_eq_false hcr).symm) rfl
        · rw [packed, if_neg hcr, if_pos hskip, packed, List.append_nil]
        · show p.position + 1 + p.peeked.length = _
          omega
      · next hskip =>
        refine .inl (h.take hrest ?_ ?_ (decide_eq_false hcr).symm)
        · rw [packed, if_neg hcr, if_neg hskip, packed]
        · simp only [List.length_append, List.length_singleton]
          omega

structure Placed (source : NSString) (p : SGXmlPullParser) : Prop where
  keeps : p.source = source
  aligned : Aligned source p ∨ Ended p
  buffered : p.peeked.length ≤ 2

theorem placed_setInputSource (source : NSString) : Placed source (setInputSource source) :=
  ⟨rfl, .inl ⟨[], [], false, rfl, rfl, rfl, rfl⟩, Nat.zero_le 2⟩

section
variable {source : NSString} {p : SGXmlPullParser}

theorem fetch_source (rest : NSString) (p : SGXmlPullParser) :
    (fetch rest p).source = p.source := by
  obtain ⟨_, _, _, _, _, heq⟩ := fetch_eq rest p
  rw [heq]

theorem fetch_length (rest : NSString) (p : SGXmlPullParser) :
    (fetch rest p).peeked.length = p.peeked.length + 1 := by
  obtain ⟨-, ⟨c, hpeeked, -⟩ | ⟨hpeeked, -⟩⟩ := fetch_spec rest p
  · rw [hpeeked, List.length_append, List.length_singleton]
  · rw [hpeeked, List.length_append, List.length_singleton]

theorem Placed.fetch (h : Placed source p) (hlength : p.peeked.length < 2) :
    Placed source (fetch p.rest p) := by
  refine ⟨(fetch_source _ _).trans h.keeps, ?_, (fetch_length _ _).trans_le hlength⟩
  rcases h.aligned with haligned | hended
  · exact haligned.fetch rfl
  · rw [hended.1]
    exact .inr ⟨rfl, by simp [Xml.fetch]⟩

theorem Placed.fill (h : Placed source p) (hlength : p.peeked.length + n ≤ 2) :
    Placed source (fill n p) := by
  induction n generalizing p with
  | zero => exact h
  | succ n ih =>
    refine ih (h.fetch (by omega)) ?_
    rw [fetch_length]
    omega

theorem maintains_peek (hindex : index ≤ 1) : Maintains (Placed source) (peek index) := by
  refine maintains_bind (maintains_modify fun p h => h.fill ?_) fun _ =>
    maintains_bind maintains_get fun _ => maintains_pure _
  have hbuffered := h.buffered
  omega

theorem Aligned.tail {p' : SGXmlPullParser} (h : Aligned source p)
    (hpeeked : p.peeked = c :: p'.peeked)
    (hrest : p'.rest = p.rest) (hposition : p'.position = p.position + 1)
    (hcr : p'.peekReadedCR = p.peekReadedCR) : Aligned source p' := by
  obtain ⟨before, q, b, hsource, hcount, hq, hb⟩ := h
  obtain ⟨taken, q', rfl, hw⟩ := packed_eq_cons (hq.symm.trans hpeeked)
  refine ⟨before ++ taken, q', afterCR b taken, ?_, ?_, hw.symm, ?_⟩
  · rw [hsource, hrest, List.append_assoc, List.append_assoc]
  · rw [hpeeked, List.length_cons, List.length_append] at hcount
    rw [List.length_append]
    omega
  · rw [hcr, hb, afterCR_append]

theorem Ended.tail {p' : SGXmlPullParser} (h : Ended p) (hpeeked : p.peeked = c :: p'.peeked)
    (hrest : p'.rest = p.rest) : Ended p' := by
  refine ⟨hrest.trans h.1, fun d hd => h.2 d ?_⟩
  rw [hpeeked]
  exact List.mem_getLast?_cons hd

theorem length_fill (n : Nat) (p : SGXmlPullParser) :
    (fill n p).peeked.length = p.peeked.length + n := by
  induction n generalizing p with
  | zero => rfl
  | succ n ih =>
    rw [fill, ih, fetch_length]
    omega

theorem maintains_read : Maintains (Placed source) read := by
  intro p c p' h hread
  have hbuffered := h.buffered
  have hfill : Placed source (fill (0 + 1 - p.peeked.length) p) := h.fill (by omega)
  obtain ⟨d, peeked, hpeeked⟩ := List.exists_cons_of_length_pos
    (show 0 < (fill (0 + 1 - p.peeked.length) p).peeked.length by rw [length_fill]; omega)
  have htail : (fill (0 + 1 - p.peeked.length) p).peeked =
      d :: (fill (0 + 1 - p.peeked.length) p).peeked.tail := by rw [hpeeked, List.tail_cons]
  cases hread
  refine ⟨hfill.keeps, ?_, ?_⟩
  · exact hfill.aligned.imp (fun haligned => haligned.tail htail rfl rfl rfl)
      fun hended => hended.tail htail rfl
  · have hlength := hfill.buffered
    show (fill (0 + 1 - p.peeked.length) p).peeked.tail.length ≤ 2
    rw [List.length_tail]
    omega

-- Every function keeps the place

variable {env : Environment} {features : Features} {fuel : Nat}

def SGXmlPullParser.place (p : SGXmlPullParser) : NSString × NSString × Nat × List UniChar × Bool :=
  (p.source, p.rest, p.position, p.peeked, p.peekReadedCR)

theorem Placed.congr {p' : SGXmlPullParser} (h : Placed source p) (hplace : p'.place = p.place) :
    Placed source p' := by
  simp only [SGXmlPullParser.place, Prod.mk.injEq] at hplace
  obtain ⟨hsource, hrest, hposition, hpeeked, hcr⟩ := hplace
  refine ⟨hsource.trans h.keeps, ?_, hpeeked ▸ h.buffered⟩
  unfold Aligned Ended
  rw [hrest, hposition, hpeeked, hcr]
  exact h.aligned

theorem maintains_elsewhere {f : SGXmlPullParser → SGXmlPullParser}
    (hf : ∀ p, (f p).place = p.place) :
    Maintains (Placed source) (modify f : Parser Unit) := maintains_modify fun p h => h.congr (hf p)

theorem scanned_placed : Scanned (Placed source) where
  peeks _ hindex := maintains_peek hindex
  reads := maintains_read
  texts _ _ _ h := h.congr rfl
  tags _ _ _ h := h.congr rfl

theorem maintains_setType (type : EventType) : Maintains (Placed source) (setType type) :=
  maintains_elsewhere fun _ => rfl

section
variable {readName : Parser NSString} (hname : Maintains (Placed source) readName)

include hname

theorem maintains_parseStartTag (xmlDecl : Bool) :
    Maintains (Placed source) (parseStartTag env features fuel readName xmlDecl) := by
  refine maintains_bind (maintains_when _ (scanned_placed.readEnsureAll _)) fun _ => ?_
  refine maintains_bind hname fun name => ?_
  refine maintains_bind (maintains_elsewhere fun _ => rfl) fun _ => ?_
  refine maintains_bind (maintains_elsewhere fun _ => rfl) fun _ => ?_
  refine maintains_bind ?_ fun counts =>
    maintains_when _ (maintains_elsewhere fun _ => rfl)
  refine maintains_loop (fun _ => maintains_bind (scanned_placed.skip fuel) fun _ => ?_) fuel ()
  refine maintains_bind scanned_placed.peekZero fun c => maintains_ite ?_ (maintains_ite ?_
    (maintains_ite ?_ (maintains_ite (maintains_raiseParser _) ?_)))
  · exact maintains_bind (scanned_placed.readEnsureAll _) fun _ => maintains_pure _
  · refine maintains_bind (maintains_elsewhere fun _ => rfl) fun _ => ?_
    refine maintains_bind scanned_placed.reads fun _ =>
      maintains_bind (scanned_placed.skip fuel) fun _ => ?_
    exact maintains_bind (scanned_placed.readEnsureAll _) fun _ => maintains_pure _
  · exact maintains_bind scanned_placed.reads fun _ => maintains_pure _
  · exact maintains_bind (scanned_placed.parseAttribute hname) fun _ => maintains_pure _

theorem maintains_parseEndTag : Maintains (Placed source) (parseEndTag fuel readName) := by
  refine maintains_bind (scanned_placed.readEnsureAll _) fun _ =>
    maintains_bind hname fun name => ?_
  refine maintains_bind (maintains_elsewhere fun _ => rfl) fun _ => ?_
  refine maintains_bind (scanned_placed.skip fuel) fun _ => ?_
  refine maintains_bind (scanned_placed.readEnsureAll _) fun _ =>
    maintains_bind maintains_get fun p => ?_
  exact maintains_ite (maintains_raiseParser _) (maintains_pure _)

theorem maintains_parseLegacyInstruction (willPush : Bool) :
    Maintains (Placed source) (parseLegacyInstruction env features fuel readName willPush) := by
  refine maintains_bind scanned_placed.peekZero fun x => ?_
  refine maintains_bind (scanned_placed.peekSecond _) fun m => maintains_ite ?_ ?_
  · refine maintains_bind scanned_placed.reads fun c => ?_
    refine maintains_bind (maintains_when _ (scanned_placed.pushed.push c)) fun _ => ?_
    refine maintains_bind scanned_placed.reads fun c => ?_
    refine maintains_bind (maintains_when _ (scanned_placed.pushed.push c)) fun _ => ?_
    refine maintains_bind scanned_placed.peekZero fun l => ?_
    refine maintains_bind (scanned_placed.peekSecond _) fun space =>
      maintains_ite ?_ (maintains_pure _)
    refine maintains_bind (maintains_parseStartTag hname true) fun _ => ?_
    exact maintains_bind (maintains_elsewhere fun _ => rfl) fun _ =>
      maintains_pure _
  · exact maintains_bind (scanned_placed.pushed.parseProccessingInstruction _) fun _ =>
      maintains_pure _

theorem maintains_parseLegacy (willPush : Bool) :
    Maintains (Placed source) (parseLegacy env features fuel readName willPush) := by
  refine maintains_bind (scanned_placed.readEnsureAll _) fun _ =>
    maintains_bind scanned_placed.reads fun c => ?_
  refine maintains_bind scanned_placed.clearText fun _ => maintains_ite ?_ (maintains_ite
    (maintains_parseLegacyInstruction hname _) (maintains_raiseParser _))
  refine maintains_bind scanned_placed.peekZero fun nc => maintains_ite ?_ (maintains_ite ?_ ?_)
  · exact maintains_bind (scanned_placed.pushed.parseComment _) fun _ => maintains_pure _
  · exact maintains_bind scanned_placed.pushed.parseCDATA fun _ => maintains_pure _
  · exact maintains_bind (scanned_placed.pushed.parseDocType _) fun _ => maintains_pure _

theorem maintains_parseEvent (type : EventType) :
    Maintains (Placed source) (parseEvent env features fuel readName type) := by
  refine maintains_bind maintains_get fun p => ?_
  cases type with
  | START_TAG => exact maintains_bind (maintains_parseStartTag hname _) fun _ => maintains_pure _
  | END_TAG => exact maintains_bind (maintains_parseEndTag hname) fun _ => maintains_pure _
  | ENTITY_REF => exact maintains_bind (scanned_placed.parseEntity _) fun _ => maintains_pure _
  | END_DOCUMENT => exact maintains_pure _
  | TEXT =>
    exact maintains_bind (scanned_placed.parseText _ _) fun _ =>
      maintains_bind maintains_get fun _ => maintains_pure _
  | _ => exact maintains_parseLegacy hname _

theorem maintains_doNext : Maintains (Placed source) (doNext env features fuel readName) := by
  refine maintains_bind (maintains_elsewhere fun _ => rfl) fun _ => ?_
  refine maintains_bind scanned_placed.peekType fun type => ?_
  refine maintains_bind (maintains_setType type) fun _ => ?_
  refine maintains_loop (fun type => maintains_bind maintains_get fun p => ?_) fuel type
  refine maintains_ite ?_ ?_
  · exact maintains_bind (maintains_elsewhere fun _ => rfl) fun _ =>
      maintains_pure _
  · refine maintains_bind (maintains_setType _) fun _ => ?_
    refine maintains_bind (maintains_parseEvent hname _) fun type => ?_
    exact maintains_bind (maintains_setType _) fun _ => maintains_pure _

theorem maintains_nextRound (minimum : Option EventType) :
    Maintains (Placed source) (nextRound env features fuel readName minimum) := by
  refine maintains_bind (maintains_doNext hname) fun type => maintains_ite (maintains_pure _) ?_
  refine maintains_ite (maintains_bind scanned_placed.peekType fun _ => maintains_pure _) ?_
  exact maintains_pure _

theorem maintains_call (call : Call) :
    Maintains (Placed source) (Xml.call env features fuel readName call) := by
  cases call with
  | next =>
    refine maintains_bind (maintains_elsewhere fun _ => rfl) fun _ => ?_
    refine maintains_bind (maintains_loop (maintains_nextRound hname) fuel none) fun minimum => ?_
    exact maintains_bind (maintains_setType _) fun _ => maintains_pure _
  | nextToken =>
    exact maintains_bind (maintains_elsewhere fun _ => rfl) fun _ =>
      maintains_doNext hname

end

/-- The states that calls of `next` and `nextToken` reach from the start of a
source. -/
inductive Reachable (env : Environment) (features : Features) (source : NSString) :
    SGXmlPullParser → Prop
  | start : Reachable env features source (setInputSource source)
  | call {fuel : Nat} {c : Call} {type : EventType} {p p' : SGXmlPullParser} :
      Reachable env features source p →
      Xml.call env features fuel (readName env features fuel) c p = .ok type p' →
      Reachable env features source p'

theorem Reachable.placed (h : Reachable env features source p) : Placed source p := by
  induction h with
  | start => exact placed_setInputSource source
  | call hp hcall ih =>
    exact maintains_call (scanned_placed.readName env features _) _ _ _ _ ih hcall

end

end BathyScaphe.Xml
