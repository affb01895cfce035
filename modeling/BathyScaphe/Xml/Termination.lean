import BathyScaphe.Xml.PullParser

/-!
# The pull parser ends outside of names

Every loop of the parser reads a character of the source in each round, or stops
at its end, with one exception: the mark of the end counts as a character of a
name. A parser that tests for the end there does the same as the parser, on
every source and for any order of calls, up to the name in which the source
ends; there the parser never comes back.
-/

namespace BathyScaphe.Xml

open NSString Comp

-- What is left of the source

def packed : Bool → NSString → NSString
  | _, [] => []
  | afterCR, c :: rest =>
    if c = uc '\r' then uc '\n' :: packed true rest
    else if (c = uc '\n' && afterCR) || c = XML_INVALID_UNICHAR then packed false rest
    else c :: packed false rest

/-- The parser has `s` left: the buffer and the rest are `s`, and marks of the
end after it. -/
def Left (p : SGXmlPullParser) (s : NSString) : Prop :=
  XML_INVALID_UNICHAR ∉ s ∧
    ∃ n, p.peeked ++ packed p.peekReadedCR p.rest = s ++ List.replicate n XML_INVALID_UNICHAR

theorem packed_ne_invalid (afterCR : Bool) (s : NSString) :
    XML_INVALID_UNICHAR ∉ packed afterCR s := by
  induction s generalizing afterCR with
  | nil => exact List.not_mem_nil
  | cons c rest ih =>
    rw [packed]
    split
    · exact List.not_mem_cons_of_ne_of_not_mem (by decide) (ih true)
    · split
      · exact ih false
      · rename_i hnot
        refine List.not_mem_cons_of_ne_of_not_mem ?_ (ih false)
        rintro rfl
        simp at hnot

theorem length_packed_le (afterCR : Bool) (s : NSString) :
    (packed afterCR s).length ≤ s.length := by
  induction s generalizing afterCR with
  | nil => exact Nat.le_refl 0
  | cons c rest ih =>
    rw [packed]
    split
    · exact Nat.succ_le_succ (ih true)
    · split
      · exact Nat.le_succ_of_le (ih false)
      · exact Nat.succ_le_succ (ih false)

theorem left_setInputSource (source : NSString) :
    Left (setInputSource source) (packed false source) :=
  ⟨packed_ne_invalid false source, 0, by simp [setInputSource]⟩

theorem fetch_spec (rest : NSString) (p : SGXmlPullParser) :
    (fetch rest p).degenerated = p.degenerated ∧
    ((∃ c, (fetch rest p).peeked = p.peeked ++ [c] ∧
        packed p.peekReadedCR rest = c :: packed (fetch rest p).peekReadedCR (fetch rest p).rest) ∨
      ((fetch rest p).peeked = p.peeked ++ [XML_INVALID_UNICHAR] ∧
        packed p.peekReadedCR rest = [] ∧
        packed (fetch rest p).peekReadedCR (fetch rest p).rest = [])) := by
  induction rest generalizing p with
  | nil => exact ⟨rfl, .inr ⟨rfl, rfl, rfl⟩⟩
  | cons c rest ih =>
    rw [fetch, packed]
    by_cases hcr : c = uc '\r'
    · rw [if_pos hcr, if_pos hcr]
      exact ⟨rfl, .inl ⟨_, rfl, rfl⟩⟩
    · rw [if_neg hcr, if_neg hcr]
      by_cases hskip : ((c = uc '\n' && p.peekReadedCR) || c = XML_INVALID_UNICHAR) = true
      · rw [if_pos hskip, if_pos hskip]
        exact ih { p with rest := rest, peekReadedCR := false, position := p.position + 1 }
      · rw [if_neg hskip, if_neg hskip]
        exact ⟨rfl, .inl ⟨_, rfl, rfl⟩⟩

theorem Left.fetch (h : Left p s) :
    Left (fetch p.rest p) s ∧ (fetch p.rest p).degenerated = p.degenerated ∧
      (fetch p.rest p).peeked.length = p.peeked.length + 1 := by
  obtain ⟨hs, n, hn⟩ := h
  obtain ⟨hdegenerated, ⟨c, hpeeked, hpacked⟩ | ⟨hpeeked, hpacked, hpacked'⟩⟩ := fetch_spec p.rest p
  · refine ⟨⟨hs, n, ?_⟩, hdegenerated, by rw [hpeeked, List.length_append]; rfl⟩
    rw [hpeeked, List.append_assoc, List.singleton_append, ← hpacked, hn]
  · refine ⟨⟨hs, n + 1, ?_⟩, hdegenerated, by rw [hpeeked, List.length_append]; rfl⟩
    rw [hpacked, List.append_nil] at hn
    rw [hpeeked, hpacked', hn, List.append_nil, List.append_assoc, ← List.replicate_succ']

theorem Left.fill (h : Left p s) (n : Nat) :
    Left (fill n p) s ∧ (fill n p).degenerated = p.degenerated ∧
      (fill n p).peeked.length = p.peeked.length + n := by
  induction n generalizing p with
  | zero => exact ⟨h, rfl, rfl⟩
  | succ n ih =>
    obtain ⟨hleft, hdegenerated, hlength⟩ := h.fetch
    obtain ⟨hleft', hdegenerated', hlength'⟩ := ih hleft
    refine ⟨hleft', hdegenerated'.trans hdegenerated, ?_⟩
    rw [Xml.fill, hlength', hlength]
    omega

theorem Left.getD_peeked (h : Left p s) (hindex : index < p.peeked.length) :
    p.peeked.getD index XML_INVALID_UNICHAR = s.getD index XML_INVALID_UNICHAR := by
  obtain ⟨-, n, hn⟩ := h
  have happend : p.peeked[index]? = (s ++ List.replicate n XML_INVALID_UNICHAR)[index]? := by
    rw [← hn, List.getElem?_append_left hindex]
  rw [List.getD_eq_getElem?_getD, List.getD_eq_getElem?_getD, happend]
  by_cases hs : index < s.length
  · rw [List.getElem?_append_left hs]
  · have hnone : s[index]? = none := List.getElem?_eq_none (Nat.le_of_not_lt hs)
    rw [List.getElem?_append_right (Nat.le_of_not_lt hs), hnone, List.getElem?_replicate]
    split <;> rfl

section
variable {p : SGXmlPullParser} {s : NSString}

theorem peek_ok (h : Left p s) (index : Nat) :
    ∃ p', peek index p = .ok (s.getD index XML_INVALID_UNICHAR) p' ∧ Left p' s ∧
      p'.degenerated = p.degenerated ∧ index < p'.peeked.length := by
  obtain ⟨hleft, hdegenerated, hlength⟩ := h.fill (index + 1 - p.peeked.length)
  have hindex : index < (fill (index + 1 - p.peeked.length) p).peeked.length := by
    rw [hlength]
    omega
  refine ⟨_, ?_, hleft, hdegenerated, hindex⟩
  rw [← hleft.getD_peeked hindex]
  rfl

theorem Left.tail {p' : SGXmlPullParser} (h : Left p s) (hpeeked : 0 < p.peeked.length)
    (htail : p'.peeked = p.peeked.tail) (hcr : p'.peekReadedCR = p.peekReadedCR)
    (hrest : p'.rest = p.rest) : Left p' s.tail := by
  obtain ⟨hs, n, hn⟩ := h
  obtain ⟨c, peeked, hpeeked⟩ := List.exists_cons_of_length_pos hpeeked
  refine ⟨fun hmem => hs (List.mem_of_mem_tail hmem), ?_⟩
  rw [htail, hcr, hrest, hpeeked, List.tail_cons]
  rw [hpeeked, List.cons_append] at hn
  cases s with
  | nil =>
    cases n with
    | zero => cases hn
    | succ n => exact ⟨n, (List.cons.inj hn).2⟩
  | cons c' s => exact ⟨n, (List.cons.inj hn).2⟩

theorem read_ok (h : Left p s) :
    ∃ p', read p = .ok (s.headD XML_INVALID_UNICHAR) p' ∧ Left p' s.tail := by
  obtain ⟨p', hpeek, hleft, -, hlength⟩ := peek_ok h 0
  have hhead : s.getD 0 XML_INVALID_UNICHAR = s.headD XML_INVALID_UNICHAR := by cases s <;> rfl
  rw [hhead] at hpeek
  exact ⟨_, bind_of_ok hpeek, hleft.tail hlength rfl rfl rfl⟩

def AtMost (n : Nat) (p : SGXmlPullParser) : Prop := ∃ s, Left p s ∧ s.length ≤ n

def Below (n : Nat) (p : SGXmlPullParser) : Prop := ∃ m < n, AtMost m p

theorem AtMost.le (h : AtMost m p) (hle : m ≤ n) : AtMost n p := by
  obtain ⟨s, hs, hlength⟩ := h
  exact ⟨s, hs, hlength.trans hle⟩

theorem Below.atMost (h : Below n p) : AtMost n p := by
  obtain ⟨m, hm, hleft⟩ := h
  exact hleft.le hm.le

theorem Below.le (h : Below m p) (hle : m ≤ n) : Below n p := by
  obtain ⟨k, hk, hleft⟩ := h
  exact ⟨k, hk.trans_le hle, hleft⟩

theorem Left.below (h : Left p s) (hlength : s.length < n) : Below n p :=
  ⟨s.length, hlength, s, h, le_rfl⟩

def Reads (c : UniChar) (n : Nat) (p : SGXmlPullParser) : Prop :=
  AtMost n p ∧ (c ≠ XML_INVALID_UNICHAR → Below n p)

theorem Reads.follows {x x' : Parser α} (h : Reads c n p)
    (hx : ∀ {m}, AtMost m p → Follows .endOfName (fun _ p' => AtMost m p') (x p) (x' p)) :
    Follows .endOfName (fun _ p' => Reads c n p') (x p) (x' p) := by
  by_cases hc : c = XML_INVALID_UNICHAR
  · exact (hx h.1).imp fun _ _ hleft => ⟨hleft, fun hne => absurd hc hne⟩
  · obtain ⟨m, hm, hleft⟩ := h.2 hc
    exact (hx hleft).imp fun _ _ hleft => ⟨hleft.le hm.le, fun _ => ⟨m, hm, hleft⟩⟩

theorem read_follows (h : AtMost n p) :
    Follows .endOfName (fun c p' => Reads c n p') (read p) (read p) := by
  obtain ⟨s, hs, hlength⟩ := h
  obtain ⟨p', hread, hleft⟩ := read_ok hs
  refine follows_of_ok hread
    ⟨⟨s.tail, hleft, (List.tail_sublist s).length_le.trans hlength⟩, fun hne => ?_⟩
  cases s with
  | nil => exact absurd rfl hne
  | cons c s => exact hleft.below hlength

theorem peek_follows (h : AtMost n p) (index : Nat) :
    Follows .endOfName (fun _ p' => AtMost n p') (peek index p) (peek index p) := by
  obtain ⟨s, hs, hlength⟩ := h
  obtain ⟨p', hpeek, hleft, -⟩ := peek_ok hs index
  exact follows_of_ok hpeek ⟨s, hleft, hlength⟩

def Next (c : UniChar) (n : Nat) (p : SGXmlPullParser) : Prop :=
  ∃ s, Left p s ∧ s.length ≤ n ∧ c = s.headD XML_INVALID_UNICHAR

theorem Next.atMost (h : Next c n p) : AtMost n p := by
  obtain ⟨s, hs, hlength, -⟩ := h
  exact ⟨s, hs, hlength⟩

theorem AtMost.next (h : AtMost n p) : ∃ c, Next c n p := by
  obtain ⟨s, hs, hlength⟩ := h
  exact ⟨_, s, hs, hlength, rfl⟩

theorem peek_same (h : Next c n p) :
    Follows .endOfName (fun c' p' => c' = c ∧ Next c n p') (peek 0 p) (peek 0 p) := by
  obtain ⟨s, hs, hlength, rfl⟩ := h
  obtain ⟨p', hpeek, hleft, -⟩ := peek_ok hs 0
  refine follows_of_ok hpeek ⟨?_, s, hleft, hlength, rfl⟩
  cases s <;> rfl

theorem peek_next (h : AtMost n p) :
    Follows .endOfName (fun c p' => Next c n p') (peek 0 p) (peek 0 p) := by
  obtain ⟨c, hc⟩ := h.next
  refine (peek_same hc).imp fun c' p' hc => ?_
  exact hc.1 ▸ hc.2

theorem read_next (h : Next c n p) :
    Follows .endOfName (fun c' p' => c' = c ∧ Reads c n p') (read p) (read p) := by
  obtain ⟨s, hs, hlength, rfl⟩ := h
  obtain ⟨p', hread, -⟩ := read_ok hs
  have hreads := read_follows ⟨s, hs, hlength⟩
  rw [hread] at hreads ⊢
  exact ⟨rfl, rfl, rfl, hreads.2.2⟩

theorem raiseParser_follows {Q : α → SGXmlPullParser → Prop} (reason : NSString) :
    Follows .endOfName Q (raiseParser reason p) (raiseParser reason p) :=
  follows_bind (Q := fun _ _ => True) (follows_get trivial)
    fun _ _ _ => follows_raise XmlException.noConfusion

theorem raiseUnexpectedEOF_follows {Q : α → SGXmlPullParser → Prop} (reason : NSString) :
    Follows .endOfName Q (raiseUnexpectedEOF reason p) (raiseUnexpectedEOF reason p) :=
  raiseParser_follows _

theorem substringWithRange_follows (h : AtMost n p) (range : NSRange) :
    Follows .endOfName (fun _ p' => AtMost n p') (substringWithRange range p)
      (substringWithRange range p) := by
  refine follows_bind (Q := fun _ p' => AtMost n p') (follows_get h) fun p' _ h => ?_
  exact follows_ite (fun _ => follows_raise XmlException.noConfusion) fun _ => follows_pure h

theorem readEnsure_follows (h : AtMost n p) (hc : c ≠ XML_INVALID_UNICHAR) :
    Follows .endOfName (fun _ p' => Below n p') (readEnsure c p) (readEnsure c p) := by
  refine follows_bind (read_follows h) fun c' p' hleft => ?_
  refine follows_ite (fun heq => ?_) fun _ => raiseParser_follows _
  exact follows_pure (hleft.2 (heq ▸ hc))

theorem readEnsureAll_follows (h : AtMost n p) (hs : XML_INVALID_UNICHAR ∉ s) :
    Follows .endOfName (fun _ p' => AtMost n p') (readEnsureAll s p) (readEnsureAll s p) := by
  induction s generalizing p with
  | nil => exact follows_pure h
  | cons c s ih =>
    obtain ⟨hc, hs⟩ := List.ne_and_not_mem_of_not_mem_cons hs
    exact follows_bind (readEnsure_follows h hc.symm) fun _ p' hleft => ih hleft.atMost hs

theorem readEnsureAll_below (h : AtMost n p) (hs : XML_INVALID_UNICHAR ∉ c :: s) :
    Follows .endOfName (fun _ p' => Below n p') (readEnsureAll (c :: s) p)
      (readEnsureAll (c :: s) p) := by
  obtain ⟨hc, hs⟩ := List.ne_and_not_mem_of_not_mem_cons hs
  refine follows_bind (readEnsure_follows h hc.symm) fun _ p' hleft => ?_
  obtain ⟨m, hm, hleft⟩ := hleft
  exact (readEnsureAll_follows hleft hs).imp fun _ _ hleft => ⟨m, hm, hleft⟩

theorem followedBy_follows (h : AtMost n p) (first second : UniChar) :
    Follows .endOfName (fun _ p' => AtMost n p') (followedBy first second p)
      (followedBy first second p) := by
  refine follows_bind (peek_follows h 0) fun c p' h => ?_
  exact follows_ite (fun _ => follows_bind (peek_follows h 1) fun _ _ h => follows_pure h)
    fun _ => follows_pure h

theorem closesWith_follows (h : AtMost n p) (c delimiter : UniChar) :
    Follows .endOfName (fun _ p' => AtMost n p') (closesWith c delimiter p)
      (closesWith c delimiter p) :=
  follows_ite (fun _ => followedBy_follows h _ _) fun _ => follows_pure h

theorem peekSecond_follows (h : AtMost n p) (fits : Bool) :
    Follows .endOfName (fun _ p' => AtMost n p') (peekSecond fits p) (peekSecond fits p) :=
  follows_ite (fun _ => peek_follows h 1) fun _ => follows_pure h

theorem modify_follows {f : SGXmlPullParser → SGXmlPullParser} (h : AtMost n p)
    (hf : ∀ p s, Left (f p) s ↔ Left p s) :
    Follows .endOfName (fun _ p' => AtMost n p') ((modify f : Parser Unit) p)
      ((modify f : Parser Unit) p) := by
  obtain ⟨s, hs, hlength⟩ := h
  exact follows_modify ⟨s, (hf p s).mpr hs, hlength⟩

theorem push_follows (h : AtMost n p) (c : UniChar) :
    Follows .endOfName (fun _ p' => AtMost n p') (push c p) (push c p) :=
  modify_follows h fun _ _ => Iff.rfl

theorem pushRead_follows (h : AtMost n p) :
    Follows .endOfName (fun _ p' => AtMost n p') (pushRead p) (pushRead p) :=
  follows_bind (read_follows h) fun c _ h => push_follows h.1 c

theorem push_below (h : Below n p) (c : UniChar) :
    Follows .endOfName (fun _ p' => Below n p') (push c p) (push c p) := by
  obtain ⟨m, hm, hleft⟩ := h
  exact (push_follows hleft c).imp fun _ _ hleft => ⟨m, hm, hleft⟩

theorem when_push_below (h : Below n p) (willPush : Bool) (c : UniChar) :
    Follows .endOfName (fun _ p' => Below n p') (when willPush (push c) p)
      (when willPush (push c) p) :=
  follows_when (fun _ => push_below h c) fun _ => h

-- Loops

variable {env : Environment} {features : Features} {fuel fuel' n : Nat}

def RoundReads (n : Nat) : β ⊕ α → SGXmlPullParser → Prop
  | .inl _, p => Below n p
  | .inr _, p => AtMost n p

theorem loop_follows {body body' : β → Parser (β ⊕ α)} (h : AtMost n p) (hfuel : n < fuel)
    (hfuel' : n < fuel')
    (hbody : ∀ {m b p}, m ≤ n → AtMost m p →
      Follows .endOfName (RoundReads m) (body b p) (body' b p)) (b : β) :
    Follows .endOfName (fun _ p' => AtMost n p') (loop body fuel b p) (loop body' fuel' b p) := by
  refine follows_loop (fun m _ p => m ≤ n ∧ AtMost m p) ?_ hfuel hfuel' ⟨le_rfl, h⟩
  intro m b p hm
  refine (hbody hm.1 hm.2).imp fun r p' hr => ?_
  cases r with
  | inl b =>
    obtain ⟨k, hk, hleft⟩ := hr
    exact ⟨k, hk, hk.le.trans hm.1, hleft⟩
  | inr a => exact AtMost.le hr hm.1

theorem skip_follows (h : AtMost n p) (hfuel : n < fuel) (hfuel' : n < fuel') :
    Follows .endOfName (fun _ p' => AtMost n p') (skip fuel p) (skip fuel' p) := by
  refine loop_follows h hfuel hfuel' (fun {m b p} _ h => ?_) ()
  refine follows_bind (peek_next h) fun c p hc => ?_
  refine follows_ite (fun _ => follows_pure hc.atMost) fun hgoes => ?_
  refine follows_bind (read_next hc) fun c' p hc => follows_pure (hc.2.2 ?_)
  rintro rfl
  exact hgoes (by decide)

theorem parseComment_follows (h : AtMost n p) (hfuel : n < fuel) (hfuel' : n < fuel')
    (willPush : Bool) :
    Follows .endOfName (fun _ p' => AtMost n p') (parseComment features fuel willPush p)
      (parseComment features fuel' willPush p) := by
  refine follows_bind (readEnsureAll_follows h (by decide)) fun _ p h => ?_
  refine follows_bind (loop_follows h hfuel hfuel' (fun {m pc p} _ h => ?_) _) fun _ p h =>
    readEnsureAll_follows h (by decide)
  refine follows_bind (read_follows h) fun c p hc => ?_
  refine follows_bind (Reads.follows hc fun h => closesWith_follows h c _) fun closes p hc => ?_
  refine follows_ite (fun _ => ?_) fun _ => ?_
  · exact follows_ite (fun _ => raiseParser_follows _) fun _ => follows_pure hc.1
  · refine follows_ite (fun _ => raiseUnexpectedEOF_follows _) fun hne => ?_
    exact follows_bind (when_push_below (hc.2 hne) willPush c) fun _ _ h => follows_pure h

theorem parseProccessingInstruction_follows (h : AtMost n p) (hfuel : n < fuel)
    (hfuel' : n < fuel') (willPush : Bool) :
    Follows .endOfName (fun _ p' => AtMost n p') (parseProccessingInstruction fuel willPush p)
      (parseProccessingInstruction fuel' willPush p) := by
  refine follows_bind (loop_follows h hfuel hfuel' (fun {m b p} _ h => ?_) _) fun _ p h =>
    readEnsureAll_follows h (by decide)
  refine follows_bind (read_follows h) fun c p hc => ?_
  refine follows_bind (Reads.follows hc fun h => followedBy_follows h _ _) fun closes p hc => ?_
  refine follows_ite (fun _ => follows_pure hc.1) fun _ => ?_
  refine follows_ite (fun _ => raiseUnexpectedEOF_follows _) fun hne => ?_
  exact follows_bind (when_push_below (hc.2 hne) willPush c) fun _ _ h => follows_pure h

theorem parseDocType_follows (h : AtMost n p) (hfuel : n < fuel) (hfuel' : n < fuel')
    (willPush : Bool) :
    Follows .endOfName (fun _ p' => AtMost n p') (parseDocType fuel willPush p)
      (parseDocType fuel' willPush p) := by
  refine follows_bind (readEnsureAll_follows h (by decide)) fun _ p h => ?_
  refine loop_follows h hfuel hfuel' (fun {m state p} _ h => ?_) _
  refine follows_bind (read_follows h) fun c p hc => ?_
  refine follows_ite (fun _ => raiseUnexpectedEOF_follows _) fun hne => ?_
  refine follows_ite (fun _ => follows_pure hc.1) fun _ => ?_
  exact follows_bind (when_push_below (hc.2 hne) willPush c) fun _ _ h => follows_pure h

theorem parseCDATA_follows (h : AtMost n p) (hfuel : n < fuel) (hfuel' : n < fuel') :
    Follows .endOfName (fun _ p' => AtMost n p') (parseCDATA fuel p) (parseCDATA fuel' p) := by
  refine follows_bind (readEnsureAll_follows h (by decide)) fun _ p h => ?_
  refine follows_bind (loop_follows h hfuel hfuel' (fun {m b p} _ h => ?_) _) fun _ p h =>
    readEnsureAll_follows h (by decide)
  refine follows_bind (read_follows h) fun c p hc => ?_
  refine follows_bind (Reads.follows hc fun h => closesWith_follows h c _) fun closes p hc => ?_
  refine follows_ite (fun _ => follows_pure hc.1) fun _ => ?_
  refine follows_ite (fun _ => raiseUnexpectedEOF_follows _) fun hne => ?_
  exact follows_bind (push_below (hc.2 hne) c) fun _ _ h => follows_pure h

-- Names

theorem readNameRound_eq (env : Environment) (h : Left p s) :
    ∃ p', Left p' s.tail ∧ ∀ test, readNameRound env test () p =
      (test (s.tail.headD XML_INVALID_UNICHAR) >>= fun _ =>
        pure (if isNameChar env (s.tail.headD XML_INVALID_UNICHAR) then .inl ()
          else .inr ())) p' := by
  obtain ⟨p₁, hread, hleft₁⟩ := read_ok h
  obtain ⟨p₂, hpeek, hleft₂, -⟩ := peek_ok hleft₁ 0
  have hhead : s.tail.getD 0 XML_INVALID_UNICHAR = s.tail.headD XML_INVALID_UNICHAR := by
    cases s.tail <;> rfl
  rw [hhead] at hpeek
  refine ⟨p₂, hleft₂, fun test => ?_⟩
  rw [readNameRound, bind_of_ok hread, bind_of_ok hpeek]

theorem isNameChar_invalid (env : Environment) : isNameChar env XML_INVALID_UNICHAR = true := by
  simp [isNameChar, XML_INVALID_UNICHAR]

/-- Before the end of the source the loop goes on, and the checked one raises. -/
theorem readNameRound_end (env : Environment) (h : Left p s) (hs : s.tail = []) :
    (∃ p', Left p' [] ∧ readNameRound env (fun _ => pure ()) () p = .ok (.inl ()) p') ∧
      readNameRound env checkEnd () p = .raised .endOfName := by
  obtain ⟨p', hleft, hround⟩ := readNameRound_eq env h
  rw [hs] at hleft hround
  refine ⟨⟨p', hleft, ?_⟩, ?_⟩
  · rw [hround]
    show Outcome.ok (if isNameChar env XML_INVALID_UNICHAR = true then _ else _) p' = _
    rw [if_pos (isNameChar_invalid env)]
  · rw [hround]
    rfl

theorem readNameRound_next (env : Environment) (h : Left p (c :: d :: s)) :
    ∃ p', Left p' (d :: s) ∧
      readNameRound env (fun _ => pure ()) () p =
        .ok (if isNameChar env d then .inl () else .inr ()) p' ∧
      readNameRound env checkEnd () p =
        .ok (if isNameChar env d then .inl () else .inr ()) p' := by
  obtain ⟨p', hleft, hround⟩ := readNameRound_eq env h
  have hd : d ≠ XML_INVALID_UNICHAR := by
    rintro rfl
    exact hleft.1 List.mem_cons_self
  refine ⟨p', hleft, hround _, ?_⟩
  have htest : checkEnd d p' = .ok () p' := by
    rw [checkEnd, if_neg hd]
    rfl
  rw [hround]
  exact bind_of_ok htest

theorem scanName_timeout (h : Left p s) (hs : s.tail = []) (fuel : Nat) :
    loop (readNameRound env fun _ => pure ()) fuel () p = .timeout := by
  induction fuel generalizing p s with
  | zero => rfl
  | succ fuel ih =>
    obtain ⟨⟨p', hleft, hround⟩, -⟩ := readNameRound_end env h hs
    rw [loop, bind_of_ok hround]
    exact ih hleft rfl

/-- Both loops stop at the same character of the source, or else the checked one
raises at the end and the other does not come back. -/
theorem scanName_follows (h : Left p (c :: s)) (hfuel : s.length < fuel)
    (hfuel' : s.length < fuel') :
    Follows .endOfName (fun _ p' => Below (s.length + 1) p')
      (loop (readNameRound env fun _ => pure ()) fuel () p)
      (loop (readNameRound env checkEnd) fuel' () p) := by
  induction s generalizing p c fuel fuel' with
  | nil =>
    obtain ⟨fuel', rfl⟩ := Nat.exists_eq_succ_of_ne_zero (Nat.ne_zero_of_lt hfuel')
    obtain ⟨-, hround⟩ := readNameRound_end env h rfl
    rw [scanName_timeout h rfl, loop, bind_of_raised hround]
    exact rfl
  | cons d s ih =>
    obtain ⟨fuel, rfl⟩ := Nat.exists_eq_succ_of_ne_zero (Nat.ne_zero_of_lt hfuel)
    obtain ⟨fuel', rfl⟩ := Nat.exists_eq_succ_of_ne_zero (Nat.ne_zero_of_lt hfuel')
    obtain ⟨p', hleft, hround, hround'⟩ := readNameRound_next env h
    rw [loop, loop, bind_of_ok hround, bind_of_ok hround']
    cases isNameChar env d with
    | false => exact follows_pure (hleft.below (Nat.lt_succ_self _))
    | true =>
      refine (ih hleft (Nat.lt_of_succ_lt_succ hfuel) (Nat.lt_of_succ_lt_succ hfuel')).imp ?_
      exact fun _ _ hleft => hleft.le (Nat.le_succ _)

/-- The checked loop raises where all that is left belongs to the name. -/
theorem scanNameChecked_raised_iff (h : Left p (c :: s)) (hfuel : s.length < fuel) :
    loop (readNameRound env checkEnd) fuel () p = .raised .endOfName ↔
      ∀ d ∈ s, isNameChar env d = true := by
  obtain ⟨fuel, rfl⟩ := Nat.exists_eq_succ_of_ne_zero (Nat.ne_zero_of_lt hfuel)
  induction s generalizing p c fuel with
  | nil =>
    obtain ⟨-, hround⟩ := readNameRound_end env h rfl
    rw [loop, bind_of_raised hround]
    simp
  | cons d s ih =>
    obtain ⟨p', hleft, -, hround⟩ := readNameRound_next env h
    rw [loop, bind_of_ok hround, List.forall_mem_cons]
    cases isNameChar env d with
    | false =>
      refine ⟨fun hraised => ?_, fun hall => absurd hall.1 (by decide)⟩
      cases hraised
    | true =>
      obtain ⟨fuel, rfl⟩ := Nat.exists_eq_succ_of_ne_zero
        (Nat.ne_zero_of_lt (Nat.lt_of_succ_lt_succ hfuel))
      exact (ih hleft fuel (Nat.lt_of_succ_lt_succ hfuel)).trans ⟨fun h => ⟨rfl, h⟩, And.right⟩

theorem readNameUsing_raised_iff {scan : Parser Unit} (hpeek : peek 0 p = .ok c p')
    (hstart : isNameStart env c = true) :
    readNameUsing env features scan p = .raised .endOfName ↔ scan p' = .raised .endOfName := by
  have hget : (get : Parser SGXmlPullParser) p = .ok p p := rfl
  rw [readNameUsing, bind_of_ok hget, bind_of_ok hpeek, hstart]
  show (scan >>= _) p' = _ ↔ _
  cases hscan : scan p' with
  | ok a p'' =>
    rw [bind_of_ok hscan]
    refine ⟨fun hraised => ?_, fun h => by cases h⟩
    refine absurd hraised (Follows.ne_raised (Q := fun _ _ => True) ?_)
    refine follows_bind (Q := fun _ _ => True) (follows_get trivial) fun _ p _ => ?_
    refine follows_bind (Q := fun _ _ => True) ?_ fun name p _ => ?_
    · refine follows_bind (Q := fun _ _ => True) (follows_get trivial) fun _ p _ => ?_
      exact follows_ite (fun _ => follows_raise XmlException.noConfusion) fun _ =>
        follows_pure trivial
    · exact follows_ite (fun _ => follows_raise XmlException.noConfusion) fun _ =>
        follows_pure trivial
  | raised e =>
    rw [bind_of_raised hscan]
    constructor
    · rintro ⟨⟩
      rfl
    · rintro ⟨⟩
      rfl
  | timeout =>
    show Comp.bind _ _ p' = _ ↔ _
    rw [Comp.bind, hscan]
    exact iff_of_false (fun h => by cases h) fun h => by cases h

/-- The end of the source is inside of a name where all that is left is a
name. -/
theorem readNameChecked_raised_iff (h : Left p s) (hfuel : s.length ≤ fuel) :
    readNameChecked env features fuel p = .raised .endOfName ↔
      ∃ c s', s = c :: s' ∧ isNameStart env c = true ∧ ∀ d ∈ s', isNameChar env d = true := by
  obtain ⟨p', hpeek, hleft, -⟩ := peek_ok h 0
  by_cases hstart : isNameStart env (s.getD 0 XML_INVALID_UNICHAR) = true
  · cases s with
    | nil =>
      have hinvalid : isNameStart env XML_INVALID_UNICHAR = false := by
        rw [isNameStart, env.letter_invalid]
        decide
      exact absurd (hinvalid.symm.trans hstart) (by decide)
    | cons c s =>
      rw [readNameChecked, readNameUsing_raised_iff hpeek hstart,
        scanNameChecked_raised_iff hleft hfuel]
      constructor
      · exact fun hall => ⟨c, s, rfl, hstart, hall⟩
      · rintro ⟨c', s', heq, -, hall⟩
        obtain ⟨-, rfl⟩ := List.cons.inj heq
        exact hall
  · refine ⟨fun hraised => ?_, ?_⟩
    · refine absurd hraised (Follows.ne_raised (Q := fun _ _ => True) ?_)
      have hget : (get : Parser SGXmlPullParser) p = .ok p p := rfl
      rw [readNameChecked, readNameUsing, bind_of_ok hget, bind_of_ok hpeek]
      exact follows_ite (fun _ => raiseParser_follows _) fun hnot =>
        absurd (by simpa using hstart) hnot
    · rintro ⟨c, s', rfl, hc, -⟩
      exact absurd hc hstart

/-- A reader of names and the one that tests for the end, where fewer than
`bound` characters are left. -/
def NamesFollow (bound : Nat) (readName readName' : Parser NSString) : Prop :=
  ∀ {n p}, AtMost n p → n < bound →
    Follows .endOfName (fun _ p' => Below n p') (readName p) (readName' p)

theorem readName_follows (hfuel : bound ≤ fuel) (hfuel' : bound ≤ fuel') :
    NamesFollow bound (readName env features fuel) (readNameChecked env features fuel') := by
  intro n p h hn
  refine follows_bind (Q := fun _ p' => AtMost n p') (follows_get h) fun start p h => ?_
  refine follows_bind (peek_next h) fun c p hc => ?_
  refine follows_ite (fun _ => raiseParser_follows _) fun hstart => ?_
  obtain ⟨s, hs, hlength, rfl⟩ := hc
  cases s with
  | nil =>
    refine absurd ?_ hstart
    simp [isNameStart, env.letter_invalid]
    decide
  | cons c s =>
    have hlt : s.length < n := hlength
    refine follows_bind ((scanName_follows hs (by omega) (by omega)).imp
      fun _ _ hleft => hleft.le hlength) fun _ p h => ?_
    refine follows_bind (Q := fun _ p' => Below n p') (follows_get h) fun p₂ p h => ?_
    obtain ⟨m, hm, hleft⟩ := h
    refine follows_bind (substringWithRange_follows hleft _) fun name p hleft => ?_
    exact follows_ite (fun _ => follows_raise XmlException.noConfusion)
      fun _ => follows_pure ⟨m, hm, hleft⟩

-- Text and entities

theorem scanEntity_follows (h : AtMost n p) (hfuel : n < fuel) (hfuel' : n < fuel') :
    Follows .endOfName (fun _ p' => AtMost n p') (scanEntity env fuel p)
      (scanEntity env fuel' p) := by
  refine loop_follows h hfuel hfuel' (fun {m b p} _ h => ?_) ()
  refine follows_bind (peek_next h) fun c p hc => ?_
  refine follows_ite (fun _ => follows_pure hc.atMost) fun hgoes => ?_
  have hne : c ≠ XML_INVALID_UNICHAR := by
    rintro rfl
    refine hgoes ?_
    rw [env.alphanumeric_invalid]
    decide
  refine follows_bind (read_next hc) fun c' p hc => ?_
  refine follows_bind (push_below (hc.2.2 hne) c') fun _ p h => follows_pure ?_
  by_cases hend : c' = uc ';'
  · rw [if_pos hend]
    exact h.atMost
  · rw [if_neg hend]
    exact h

theorem resolveEntity_follows (h : AtMost n p) (index textPos : Nat) (isValid : Bool) :
    Follows .endOfName (fun _ p' => AtMost n p')
      (resolveEntity env features index textPos isValid p)
      (resolveEntity env features index textPos isValid p) := by
  refine follows_bind (Q := fun _ p' => AtMost n p') (follows_get h) fun start p h => ?_
  refine follows_ite (fun _ => raiseParser_follows _) fun _ => ?_
  refine follows_bind (substringWithRange_follows h _) fun entityRef p h => ?_
  cases (if isValid then characterForEntityReference env entityRef else none) with
  | some code =>
    refine follows_bind (modify_follows h fun _ _ => Iff.rfl) fun _ p h => ?_
    exact follows_bind (push_follows h code) fun _ p h => follows_pure h
  | none =>
    refine follows_ite (fun _ => follows_pure h) fun _ => ?_
    exact follows_ite (fun _ => raiseUnexpectedEOF_follows _) fun _ => raiseParser_follows _

theorem parseEntity_follows (h : AtMost n p) (hfuel : n < fuel) (hfuel' : n < fuel')
    (willClearBuffer : Bool) :
    Follows .endOfName (fun _ p' => Below n p') (parseEntity env features fuel willClearBuffer p)
      (parseEntity env features fuel' willClearBuffer p) := by
  refine follows_bind (Q := fun _ p' => AtMost n p') (follows_get h) fun start p h => ?_
  refine follows_bind (follows_when (fun _ => modify_follows h fun _ _ => Iff.rfl) fun _ => h)
    fun _ p h => ?_
  refine follows_bind (Q := fun _ p' => AtMost n p') (follows_get h) fun start' p h => ?_
  refine follows_bind (readEnsure_follows h (by decide)) fun c p h => ?_
  -- the ampersand was read, and the rest reads no less
  obtain ⟨m, hm, h⟩ := h
  refine Follows.imp (Q := fun _ p' => AtMost m p') ?_ fun _ _ h => ⟨m, hm, h⟩
  refine follows_bind (push_follows h c) fun _ p h => ?_
  refine follows_bind (peek_follows h 0) fun c p h => ?_
  refine follows_bind (follows_when (fun _ => pushRead_follows h) fun _ => h) fun _ p h => ?_
  refine follows_bind (scanEntity_follows h (hm.trans hfuel) (hm.trans hfuel')) fun isValid p h =>
    ?_
  exact follows_ite (fun _ => follows_pure h) fun _ => resolveEntity_follows h _ _ _

theorem parseTextUnit_follows (h : Next c n p) (hc : c ≠ XML_INVALID_UNICHAR) (hfuel : n < fuel)
    (hfuel' : n < fuel') :
    Follows .endOfName (fun _ p' => Below n p') (parseTextUnit env features fuel c p)
      (parseTextUnit env features fuel' c p) := by
  refine follows_ite (fun _ => ?_) fun _ => ?_
  · exact follows_bind (parseEntity_follows h.atMost hfuel hfuel' false) fun _ p h => follows_pure h
  · refine follows_bind (Q := fun _ p' => Next c n p') (follows_get h) fun _ p h => ?_
    exact follows_bind (read_next h) fun c' p h => push_below (h.2.2 hc) _

theorem parseText_follows (h : Next c n p) (hfuel : n < fuel) (hfuel' : n < fuel')
    (delimiter : UniChar) (resolve : Bool) :
    Follows .endOfName
      (fun _ p' => AtMost n p' ∧ (endsText delimiter resolve c = false → Below n p'))
      (parseText env features fuel delimiter resolve p)
      (parseText env features fuel' delimiter resolve p) := by
  refine follows_bind (peek_same h) fun c' p hc => ?_
  obtain ⟨rfl, h⟩ := hc
  refine follows_bind (Q := fun _ p' => Next c' n p') (follows_modify h) fun _ p h => ?_
  refine follows_loop (fun m d p => Next d m p ∧ (m = n ∧ d = c' ∨ m < n)) (fun {m d p} hI => ?_)
    hfuel hfuel' ⟨h, .inl ⟨rfl, rfl⟩⟩
  obtain ⟨hd, hm⟩ := hI
  have hmn : m ≤ n := by omega
  refine follows_ite (fun hends => follows_pure ⟨hd.atMost.le hmn, fun hnot => ?_⟩) fun hends => ?_
  · rcases hm with ⟨-, rfl⟩ | hm
    · rw [hends] at hnot
      cases hnot
    · exact ⟨m, hm, hd.atMost⟩
  · have hne : d ≠ XML_INVALID_UNICHAR := by
      rintro rfl
      exact hends (by simp [endsText])
    refine follows_bind (parseTextUnit_follows hd hne (hmn.trans_lt hfuel) (hmn.trans_lt hfuel'))
      fun _ p h => ?_
    obtain ⟨k, hk, h⟩ := h
    refine follows_bind (peek_next h) fun c p hc => follows_pure ?_
    exact ⟨k, hk, hc, .inr (hk.trans_le hmn)⟩

-- Tags

/-- Two parsers whose loops have two rounds for each character and one more. -/
structure Bounds (bound fuel fuel' : Nat) (readName readName' : Parser NSString) : Prop where
  fuel_le : 2 * bound ≤ fuel
  fuel_le' : 2 * bound ≤ fuel'
  names : NamesFollow bound readName readName'

variable {bound : Nat} {readName readName' : Parser NSString}

theorem Bounds.lt (hb : Bounds bound fuel fuel' readName readName') (hn : n < bound) :
    n < fuel ∧ n < fuel' := by
  obtain ⟨hfuel, hfuel', -⟩ := hb
  exact ⟨by omega, by omega⟩

theorem parseQuotedValue_follows (hb : Bounds bound fuel fuel' readName readName') (hn : n < bound)
    (h : AtMost n p) (name : NSString) :
    Follows .endOfName (fun _ p' => AtMost n p') (parseQuotedValue env features fuel name p)
      (parseQuotedValue env features fuel' name p) := by
  obtain ⟨hfuel, hfuel'⟩ := hb.lt hn
  refine follows_bind (readEnsureAll_follows h (by decide)) fun _ p h => ?_
  refine follows_bind (skip_follows h hfuel hfuel') fun _ p h => ?_
  refine follows_bind (read_follows h) fun delimiter p h => ?_
  obtain ⟨c, hc⟩ := h.1.next
  refine follows_ite (fun _ => ?_) fun _ => follows_ite (fun _ => raiseParser_follows _) fun _ => ?_
  · refine follows_bind (parseText_follows hc hfuel hfuel' delimiter true) fun _ p h => ?_
    refine follows_bind (Q := fun _ p' => AtMost n p') (follows_get h.1) fun _ p h => ?_
    exact follows_bind (read_follows h) fun _ p h => follows_pure h.1
  · refine follows_bind (parseText_follows hc hfuel hfuel' _ true) fun _ p h => ?_
    exact follows_bind (Q := fun _ p' => AtMost n p') (follows_get h.1) fun _ p h => follows_pure h

theorem parseAttributeValue_follows (hb : Bounds bound fuel fuel' readName readName')
    (hn : n < bound) (h : AtMost n p) (name : NSString) :
    Follows .endOfName (fun _ p' => AtMost n p') (parseAttributeValue env features fuel name p)
      (parseAttributeValue env features fuel' name p) := by
  refine follows_bind (peek_follows h 0) fun c p h => ?_
  refine follows_ite (fun _ => parseQuotedValue_follows hb hn h name) fun _ => ?_
  refine follows_ite (fun _ => ?_) fun _ => raiseParser_follows _
  exact follows_ite (fun _ => follows_pure h) fun _ => raiseParser_follows _

theorem parseAttribute_follows (hb : Bounds bound fuel fuel' readName readName') (hn : n < bound)
    (h : AtMost n p) :
    Follows .endOfName (fun _ p' => Below n p') (parseAttribute env features fuel readName p)
      (parseAttribute env features fuel' readName' p) := by
  refine follows_bind (hb.names h hn) fun name p h => ?_
  obtain ⟨m, hm, h⟩ := h
  have hmb := hm.trans hn
  refine Follows.imp (Q := fun _ p' => AtMost m p') ?_ fun _ _ h => ⟨m, hm, h⟩
  refine follows_ite (fun _ => raiseParser_follows _) fun _ => ?_
  refine follows_bind (skip_follows h (hb.lt hmb).1 (hb.lt hmb).2) fun _ p h => ?_
  refine follows_bind (Q := fun _ p' => AtMost m p') (follows_get h) fun _ p h => ?_
  refine follows_ite (fun _ => raiseParser_follows _) fun _ => ?_
  refine follows_bind (parseAttributeValue_follows hb hmb h name) fun value p h => ?_
  exact modify_follows h fun _ _ => Iff.rfl

theorem parseStartTagRound_follows (hb : Bounds bound fuel fuel' readName readName')
    (hn : n < bound) (h : AtMost n p) (xmlDecl : Bool) (b : Unit) :
    Follows .endOfName (RoundReads n)
      (parseStartTagRound env features fuel readName xmlDecl b p)
      (parseStartTagRound env features fuel' readName' xmlDecl b p) := by
  obtain ⟨hfuel, hfuel'⟩ := hb.lt hn
  refine follows_bind (skip_follows h hfuel hfuel') fun _ p h => ?_
  refine follows_bind (peek_follows h 0) fun c p h => ?_
  refine follows_ite (fun _ => ?_) fun _ => follows_ite (fun _ => ?_) fun _ =>
    follows_ite (fun _ => ?_) fun _ => follows_ite (fun _ => raiseUnexpectedEOF_follows _)
      fun _ => ?_
  · exact follows_bind (readEnsureAll_follows h (by decide)) fun _ p h => follows_pure h
  · refine follows_bind (modify_follows h fun _ _ => Iff.rfl) fun _ p h => ?_
    refine follows_bind (read_follows h) fun _ p h => ?_
    refine follows_bind (skip_follows h.1 hfuel hfuel') fun _ p h => ?_
    exact follows_bind (readEnsureAll_follows h (by decide)) fun _ p h => follows_pure h
  · exact follows_bind (read_follows h) fun _ p h => follows_pure h.1
  · exact follows_bind (parseAttribute_follows hb hn h) fun _ p h => follows_pure h

theorem parseStartTag_follows (hb : Bounds bound fuel fuel' readName readName') (hn : n < bound)
    (h : AtMost n p) (xmlDecl : Bool) :
    Follows .endOfName (fun _ p' => Below n p') (parseStartTag env features fuel readName xmlDecl p)
      (parseStartTag env features fuel' readName' xmlDecl p) := by
  refine follows_bind (follows_when (fun _ => readEnsureAll_follows h (by decide)) fun _ => h)
    fun _ p h => ?_
  refine follows_bind (hb.names h hn) fun name p h => ?_
  obtain ⟨m, hm, h⟩ := h
  refine Follows.imp (Q := fun _ p' => AtMost m p') ?_ fun _ _ h => ⟨m, hm, h⟩
  refine follows_bind (modify_follows h fun _ _ => Iff.rfl) fun _ p h => ?_
  refine follows_bind (modify_follows h fun _ _ => Iff.rfl) fun _ p h => ?_
  obtain ⟨hfuel, hfuel'⟩ := hb.lt (hm.trans hn)
  refine follows_bind (loop_follows h hfuel hfuel' (fun {k b p} hk h => ?_) ()) fun counts p h => ?_
  · exact parseStartTagRound_follows hb ((hk.trans_lt hm).trans hn) h xmlDecl b
  · exact follows_when (fun _ => modify_follows h fun _ _ => Iff.rfl) fun _ => h

theorem parseEndTag_follows (hb : Bounds bound fuel fuel' readName readName') (hn : n < bound)
    (h : AtMost n p) :
    Follows .endOfName (fun _ p' => Below n p') (parseEndTag fuel readName p)
      (parseEndTag fuel' readName' p) := by
  refine follows_bind (readEnsureAll_follows h (by decide)) fun _ p h => ?_
  refine follows_bind (hb.names h hn) fun name p h => ?_
  obtain ⟨m, hm, h⟩ := h
  obtain ⟨hfuel, hfuel'⟩ := hb.lt (hm.trans hn)
  refine Follows.imp (Q := fun _ p' => AtMost m p') ?_ fun _ _ h => ⟨m, hm, h⟩
  refine follows_bind (modify_follows h fun _ _ => Iff.rfl) fun _ p h => ?_
  refine follows_bind (skip_follows h hfuel hfuel') fun _ p h => ?_
  refine follows_bind (readEnsureAll_follows h (by decide)) fun _ p h => ?_
  refine follows_bind (Q := fun _ p' => AtMost m p') (follows_get h) fun _ p h => ?_
  exact follows_ite (fun _ => raiseParser_follows _) fun _ => follows_pure h

theorem parseLegacyInstruction_follows (hb : Bounds bound fuel fuel' readName readName')
    (hn : n < bound) (h : AtMost n p) (willPush : Bool) :
    Follows .endOfName (fun _ p' => AtMost n p')
      (parseLegacyInstruction env features fuel readName willPush p)
      (parseLegacyInstruction env features fuel' readName' willPush p) := by
  obtain ⟨hfuel, hfuel'⟩ := hb.lt hn
  have hpush {p : SGXmlPullParser} (h : AtMost n p) (c : UniChar) :
      Follows .endOfName (fun _ p' => AtMost n p') (when willPush (push c) p)
        (when willPush (push c) p) :=
    follows_when (fun _ => push_follows h c) fun _ => h
  refine follows_bind (peek_follows h 0) fun x p h => ?_
  refine follows_bind (peekSecond_follows h _) fun m p h => ?_
  refine follows_ite (fun _ => ?_) fun _ => ?_
  · refine follows_bind (read_follows h) fun c p h => ?_
    refine follows_bind (hpush h.1 c) fun _ p h => ?_
    refine follows_bind (read_follows h) fun c p h => ?_
    refine follows_bind (hpush h.1 c) fun _ p h => ?_
    refine follows_bind (peek_follows h 0) fun l p h => ?_
    refine follows_bind (peekSecond_follows h _) fun space p h => ?_
    refine follows_ite (fun _ => ?_) fun _ => follows_pure h
    refine follows_bind (parseStartTag_follows hb hn h true) fun _ p h => ?_
    exact follows_bind (modify_follows h.atMost fun _ _ => Iff.rfl) fun _ p h => follows_pure h
  · exact follows_bind (parseProccessingInstruction_follows h hfuel hfuel' willPush)
      fun _ p h => follows_pure h

theorem parseLegacy_follows (hb : Bounds bound fuel fuel' readName readName') (hn : n < bound)
    (h : AtMost n p) (willPush : Bool) :
    Follows .endOfName (fun _ p' => Below n p') (parseLegacy env features fuel readName willPush p)
      (parseLegacy env features fuel' readName' willPush p) := by
  refine follows_bind (readEnsureAll_below h (by decide)) fun _ p h => ?_
  obtain ⟨m, hm, h⟩ := h
  obtain ⟨hfuel, hfuel'⟩ := hb.lt (hm.trans hn)
  refine Follows.imp (Q := fun _ p' => AtMost m p') ?_ fun _ _ h => ⟨m, hm, h⟩
  refine follows_bind (read_follows h) fun c p h => ?_
  refine follows_bind (modify_follows h.1 fun _ _ => Iff.rfl) fun _ p h => ?_
  refine follows_ite (fun _ => ?_) fun _ => follows_ite
    (fun _ => parseLegacyInstruction_follows hb (hm.trans hn) h willPush)
    fun _ => raiseParser_follows _
  refine follows_bind (peek_follows h 0) fun nc p h => ?_
  refine follows_ite (fun _ => ?_) fun _ => follows_ite (fun _ => ?_) fun _ => ?_
  · exact follows_bind (parseComment_follows h hfuel hfuel' willPush) fun _ p h => follows_pure h
  · exact follows_bind (parseCDATA_follows h hfuel hfuel') fun _ p h => follows_pure h
  · exact follows_bind (parseDocType_follows h hfuel hfuel' willPush) fun _ p h => follows_pure h

-- Events

def StartsAt (type : EventType) (c : UniChar) : Prop :=
  (type = .TEXT → c ≠ XML_INVALID_UNICHAR ∧ c ≠ uc '<' ∧ c ≠ uc '&') ∧
    (type = .ENTITY_REF → c = uc '&')

theorem peekType_follows (h : Next c n p) :
    Follows .endOfName (fun type p' => Next c n p' ∧ p'.degenerated = p.degenerated ∧
      StartsAt type c)
      (peekType p) (peekType p) := by
  obtain ⟨s, hs, hlength, hc⟩ := h
  obtain ⟨p₁, hpeek, hleft, hdegenerated, -⟩ := peek_ok hs 0
  have hhead : s.getD 0 XML_INVALID_UNICHAR = c := by
    rw [hc]
    cases s <;> rfl
  rw [hhead] at hpeek
  have hnext : Next c n p₁ := ⟨s, hleft, hlength, hc⟩
  rw [peekType, bind_of_ok hpeek]
  refine follows_ite (fun _ => follows_pure ⟨hnext, hdegenerated, nofun, nofun⟩) fun hne => ?_
  refine follows_ite (fun hamp => follows_pure ⟨hnext, hdegenerated, nofun, fun _ => hamp⟩)
    fun hamp => ?_
  refine follows_ite (fun _ => ?_) fun hlt =>
    follows_pure ⟨hnext, hdegenerated, fun _ => ⟨hne, hlt, hamp⟩, nofun⟩
  obtain ⟨p₂, hpeek, hleft, hdegenerated', -⟩ := peek_ok hleft 1
  have hnext : Next c n p₂ := ⟨s, hleft, hlength, hc⟩
  have hdegenerated := hdegenerated'.trans hdegenerated
  rw [bind_of_ok hpeek]
  refine follows_ite (fun _ => follows_pure ⟨hnext, hdegenerated, nofun, nofun⟩) fun _ => ?_
  refine follows_ite (fun _ => follows_pure ⟨hnext, hdegenerated, nofun, nofun⟩) fun _ => ?_
  exact follows_pure ⟨hnext, hdegenerated, nofun, nofun⟩

theorem parseEvent_follows (hb : Bounds bound fuel fuel' readName readName') (hn : n < bound)
    (h : Next c n p)
    (htext : type = .TEXT → c ≠ XML_INVALID_UNICHAR ∧ c ≠ uc '<' ∧ (c = uc '&' → p.token = false)) :
    Follows .endOfName (fun type' p' => type' = .END_DOCUMENT ∧ p' = p ∨ Below n p')
      (parseEvent env features fuel readName type p)
      (parseEvent env features fuel' readName' type p) := by
  obtain ⟨hfuel, hfuel'⟩ := hb.lt hn
  have hlegacy : Follows .endOfName (fun type' p' => type' = .END_DOCUMENT ∧ p' = p ∨ Below n p')
      (parseLegacy env features fuel readName p.token p)
      (parseLegacy env features fuel' readName' p.token p) :=
    (parseLegacy_follows hb hn h.atMost p.token).imp fun _ _ h => .inr h
  refine follows_bind (Q := fun p₁ p₂ => p = p₁ ∧ p = p₂) (follows_get ⟨rfl, rfl⟩) ?_
  rintro _ _ ⟨rfl, rfl⟩
  cases type with
  | START_TAG =>
    exact follows_bind (parseStartTag_follows hb hn h.atMost false) fun _ _ h =>
      follows_pure (.inr h)
  | END_TAG =>
    exact follows_bind (parseEndTag_follows hb hn h.atMost) fun _ _ h => follows_pure (.inr h)
  | ENTITY_REF =>
    exact follows_bind (parseEntity_follows h.atMost hfuel hfuel' _) fun _ _ h =>
      follows_pure (.inr h)
  | END_DOCUMENT => exact follows_pure (.inl ⟨rfl, rfl⟩)
  | TEXT =>
    obtain ⟨hne, hlt, hamp⟩ := htext rfl
    have hends : endsText (uc '<') (!p.token) c = false := by
      have hdelimiter : uc '<' ≠ uc ' ' := by decide
      by_cases hc : c = uc '&'
      · simp [endsText, hne, hlt.symm, hdelimiter, hamp hc]
      · simp [endsText, hne, hlt.symm, hdelimiter, hc]
    refine follows_bind (parseText_follows h hfuel hfuel' _ _) fun _ p' h => ?_
    refine follows_bind (Q := fun _ p' => Below n p') (follows_get (h.2 hends)) fun _ p' h => ?_
    exact follows_pure (.inr h)
  | _ => exact hlegacy

/-- What is left for a caller: the characters twice, and the end of an empty
element that is still to come. -/
def Size (k : Nat) (p : SGXmlPullParser) : Prop :=
  ∃ n, AtMost n p ∧ 2 * n + p.degenerated.toNat ≤ k

def Smaller (k : Nat) (p : SGXmlPullParser) : Prop := ∃ j < k, Size j p

theorem Below.smaller (h : Below n p) (hk : 2 * n ≤ k) : Smaller k p := by
  obtain ⟨m, hm, hleft⟩ := h
  have hbool := p.degenerated.toNat_le
  exact ⟨2 * m + p.degenerated.toNat, by omega, m, hleft, le_rfl⟩

def ParseReads (n k : Nat) : EventType ⊕ EventType → SGXmlPullParser → Prop
  | .inl type, p => type = .XML_DECL ∧ Below n p
  | .inr type, p => type = .END_DOCUMENT ∧ Size k p ∨ Smaller k p

/-- Text starts with a character of text, or with a reference that is resolved. -/
theorem StartsAt.text (h : StartsAt type c)
    (htext : (if type = .ENTITY_REF && !token then .TEXT else type) = EventType.TEXT) :
    c ≠ XML_INVALID_UNICHAR ∧ c ≠ uc '<' ∧ (c = uc '&' → token = false) := by
  split at htext
  · rename_i hentity
    obtain ⟨hentity, hresolve⟩ := Bool.and_eq_true_iff.mp hentity
    have hc : c = uc '&' := h.2 (of_decide_eq_true hentity)
    subst hc
    exact ⟨by decide, by decide, fun _ => by simpa using hresolve⟩
  · obtain ⟨hne, hlt, hamp⟩ := h.1 htext
    exact ⟨hne, hlt, fun hc => absurd hc hamp⟩

theorem doParse_follows (hb : Bounds bound fuel fuel' readName readName') (hn : n < bound)
    (h : Next c n p) (hstarts : StartsAt type c) (hk : 2 * n + p.degenerated.toNat ≤ k) :
    Follows .endOfName (ParseReads n k) (doParse env features fuel readName type p)
      (doParse env features fuel' readName' type p) := by
  refine follows_bind (Q := fun p₁ p₂ => p = p₁ ∧ p = p₂) (follows_get ⟨rfl, rfl⟩) ?_
  rintro _ _ ⟨rfl, rfl⟩
  refine follows_ite (fun hdegenerated => ?_) fun hdegenerated => ?_
  · refine follows_bind (Q := fun _ p' => Smaller k p') (follows_modify ?_) fun _ p' h =>
      follows_pure (.inr h)
    rw [hdegenerated] at hk
    exact ⟨2 * n, hk, n, h.atMost, le_rfl⟩
  · refine follows_bind (Q := fun _ p' => Next c n p' ∧ p'.token = p.token ∧
      p'.degenerated = p.degenerated) (follows_modify ⟨h, rfl, rfl⟩) fun _ p₁ h => ?_
    obtain ⟨h, htoken, hsame⟩ := h
    refine follows_bind (parseEvent_follows hb hn h fun htext => ?_) fun type' p' h => ?_
    · rw [htoken]
      exact hstarts.text htext
    · refine follows_bind (Q := fun _ p'' => type' = .END_DOCUMENT ∧ Size k p'' ∨ Below n p'')
        (follows_modify ?_) fun _ p'' h => follows_pure ?_
      · rcases h with ⟨htype, rfl⟩ | h
        · refine .inl ⟨htype, n, h.atMost, ?_⟩
          show 2 * n + p'.degenerated.toNat ≤ k
          rw [hsame]
          exact hk
        · exact .inr h
      · by_cases hdecl : type' = .XML_DECL
        · rw [if_pos hdecl]
          rcases h with ⟨htype, -⟩ | h
          · rw [htype] at hdecl
            cases hdecl
          · exact ⟨hdecl, h⟩
        · rw [if_neg hdecl]
          exact h.imp_right fun h => h.smaller ((Nat.le_add_right _ _).trans hk)

theorem doNext_follows (hb : Bounds bound fuel fuel' readName readName') (hk : k < 2 * bound)
    (h : Size k p) :
    Follows .endOfName (fun type p' => type = .END_DOCUMENT ∧ Size k p' ∨ Smaller k p')
      (doNext env features fuel readName p) (doNext env features fuel' readName' p) := by
  obtain ⟨n, hleft, hsize⟩ := h
  obtain ⟨c, hc⟩ := hleft.next
  refine follows_bind (Q := fun _ p' => Next c n p' ∧ p'.degenerated = p.degenerated)
    (follows_modify ⟨hc, rfl⟩) fun _ p₁ h => ?_
  obtain ⟨hc, hdegenerated⟩ := h
  refine follows_bind (peekType_follows hc) fun type p₂ h => ?_
  obtain ⟨hc, hdegenerated', hstarts⟩ := h
  rw [← hdegenerated, ← hdegenerated'] at hsize
  refine follows_bind (Q := fun _ p' => Next c n p' ∧ 2 * n + p'.degenerated.toNat ≤ k)
    (follows_modify ⟨hc, hsize⟩) fun _ p₃ h => ?_
  have hn : n < bound := by omega
  refine follows_loop (fun m type p => m ≤ n ∧ ∃ c, Next c m p ∧ StartsAt type c ∧
      2 * m + p.degenerated.toNat ≤ k) (fun {m type p} hI => ?_) (hb.lt hn).1 (hb.lt hn).2
    ⟨le_rfl, c, h.1, hstarts, h.2⟩
  obtain ⟨hm, c, hc, hstarts, hsize⟩ := hI
  refine (doParse_follows hb (hm.trans_lt hn) hc hstarts hsize).imp fun r p' hr => ?_
  cases r with
  | inl type =>
    obtain ⟨rfl, j, hj, hleft⟩ := hr
    obtain ⟨c, hc⟩ := hleft.next
    have hbool := p'.degenerated.toNat_le
    exact ⟨j, hj, hj.le.trans hm, c, hc, ⟨nofun, nofun⟩, by omega⟩
  | inr type => exact hr

theorem code_minType_le (minimum : Option EventType) (type : EventType) :
    (minType minimum type).code ≤ type.code := by
  cases minimum with
  | none => exact le_rfl
  | some minimum =>
    rw [minType]
    split
    · exact le_rfl
    · omega

theorem peekType_size (h : Size k p) :
    Follows .endOfName (fun _ p' => Size k p') (peekType p) (peekType p) := by
  obtain ⟨n, hleft, hsize⟩ := h
  obtain ⟨c, hc⟩ := hleft.next
  refine (peekType_follows hc).imp fun type p' h => ⟨n, h.1.atMost, ?_⟩
  rw [h.2.1]
  exact hsize

/-- A round of `next` that goes on is smaller, and so is one that stops with
another event than the end. -/
def NextReads (j k : Nat) : Option EventType ⊕ EventType → SGXmlPullParser → Prop
  | .inl _, p => Smaller j p
  | .inr type, p => type = .END_DOCUMENT ∨ Smaller k p

theorem nextRound_follows (hb : Bounds bound fuel fuel' readName readName') (hk : k < 2 * bound)
    (h : Size j p) (hj : j = k ∧ minimum = none ∨ j < k) :
    Follows .endOfName (NextReads j k) (nextRound env features fuel readName minimum p)
      (nextRound env features fuel' readName' minimum p) := by
  have hjk : j ≤ k := by omega
  refine follows_bind (doNext_follows hb (hjk.trans_lt hk) h) fun type p h => ?_
  rcases h with ⟨rfl, h⟩ | ⟨i, hi, h⟩
  · -- the end is below every other event, so this is the last round
    have hcode : (minType minimum .END_DOCUMENT).code ≤ 1 := code_minType_le minimum _
    refine follows_ite (fun hgoes => ?_) fun _ => follows_ite (fun hgoes => ?_) fun _ =>
      follows_pure ?_
    · exact absurd (hgoes.trans_le hcode) (by decide)
    · exact absurd (hgoes.trans hcode) (by decide)
    · rcases hj with ⟨-, rfl⟩ | hj
      · exact .inl rfl
      · exact .inr ⟨j, hj, h⟩
  · have hik : i < k := hi.trans_le hjk
    refine follows_ite (fun _ => follows_pure ⟨i, hi, h⟩) fun _ =>
      follows_ite (fun _ => ?_) fun _ => follows_pure (.inr ⟨i, hik, h⟩)
    refine follows_bind (peekType_size h) fun type p h => follows_pure ?_
    by_cases hgoes : EventType.TEXT.code ≤ type.code
    · rw [if_pos hgoes]
      exact ⟨i, hi, h⟩
    · rw [if_neg hgoes]
      exact .inr ⟨i, hik, h⟩

theorem next_follows (hb : Bounds bound fuel fuel' readName readName') (hk : k < 2 * bound)
    (h : Size k p) :
    Follows .endOfName (fun type p' => type = .END_DOCUMENT ∨ Smaller k p')
      (next env features fuel readName p) (next env features fuel' readName' p) := by
  refine follows_bind (Q := fun _ p' => Size k p') (follows_modify h) fun _ p h => ?_
  refine follows_bind (Q := fun type p' => type = .END_DOCUMENT ∨ Smaller k p')
    (follows_loop (fun j minimum p => Size j p ∧ (j = k ∧ minimum = none ∨ j < k)) ?_
      (hk.trans_le hb.fuel_le) (hk.trans_le hb.fuel_le') ⟨h, .inl ⟨rfl, rfl⟩⟩)
    fun minimum p h => ?_
  · intro j minimum p hI
    refine (nextRound_follows hb hk hI.1 hI.2).imp fun r p' hr => ?_
    cases r with
    | inl minimum =>
      obtain ⟨i, hi, h⟩ := hr
      have hjk : j ≤ k := by omega
      exact ⟨i, hi, h, .inr (hi.trans_le hjk)⟩
    | inr type => exact hr
  · refine follows_bind (Q := fun _ p' => minimum = .END_DOCUMENT ∨ Smaller k p') (follows_modify h)
      fun _ p h => follows_pure (h.imp_left ?_)
    rintro rfl
    rfl

theorem call_follows (hb : Bounds bound fuel fuel' readName readName') (hk : k < 2 * bound)
    (h : Size k p) (call : Call) :
    Follows .endOfName (fun type p' => type = .END_DOCUMENT ∨ Smaller k p')
      (Xml.call env features fuel readName call p)
      (Xml.call env features fuel' readName' call p) := by
  cases call with
  | next => exact next_follows hb hk h
  | nextToken =>
    refine follows_bind (Q := fun _ p' => Size k p') (follows_modify h) fun _ p h => ?_
    exact (doNext_follows hb hk h).imp fun _ _ h => h.imp_left And.left

theorem callUntilEnd_follows (hb : Bounds bound fuel fuel' readName readName') (hk : k < 2 * bound)
    (h : Size k p) (calls : Nat → Call) :
    Follows .endOfName (fun _ _ => True) (callUntilEnd env features fuel readName calls p)
      (callUntilEnd env features fuel' readName' calls p) := by
  refine follows_loop (fun j _ p => j ≤ k ∧ Size j p) (fun {j i p} hI => ?_)
    (hk.trans_le hb.fuel_le) (hk.trans_le hb.fuel_le') ⟨le_rfl, h⟩
  obtain ⟨hj, h⟩ := hI
  refine follows_bind (call_follows hb (hj.trans_lt hk) h (calls i)) fun type p h =>
    follows_pure ?_
  by_cases hend : type = .END_DOCUMENT
  · rw [if_pos hend]
    trivial
  · rw [if_neg hend]
    obtain ⟨l, hl, h⟩ := h.resolve_left hend
    exact ⟨l, hl, hl.le.trans hj, h⟩

end

-- Sources

def rounds (source : NSString) : Nat := 2 * (source.length + 1)

/-- From some number of rounds on, the calls reach the end of the document or
raise. -/
def Terminates (env : Environment) (features : Features) (calls : Nat → Call) (source : NSString) :
    Prop :=
  ∃ n, ∀ fuel ≥ n,
    (∃ i p, callUntilEnd env features fuel (readName env features fuel) calls
      (setInputSource source) = .ok i p) ∨
    ∃ e, callUntilEnd env features fuel (readName env features fuel) calls
      (setInputSource source) = .raised e

/-- The source ends inside of a name: a reader of names that tests for the end
finds it. -/
def EndsInName (env : Environment) (features : Features) (calls : Nat → Call) (source : NSString) :
    Prop :=
  callUntilEnd env features (rounds source) (readNameChecked env features (rounds source)) calls
    (setInputSource source) = .raised .endOfName

theorem callUntilEnd_readName_follows (env : Environment) (features : Features)
    (calls : Nat → Call) (source : NSString) (hfuel : rounds source ≤ fuel) :
    Follows .endOfName (fun _ _ => True)
      (callUntilEnd env features fuel (readName env features fuel) calls (setInputSource source))
      (callUntilEnd env features (rounds source) (readNameChecked env features
        (rounds source)) calls
        (setInputSource source)) := by
  have hbounds : Bounds (source.length + 1) fuel (rounds source) (readName env features fuel)
      (readNameChecked env features (rounds source)) := by
    refine ⟨hfuel, le_rfl, readName_follows ?_ ?_⟩
    · rw [rounds] at hfuel
      omega
    · rw [rounds]
      omega
  have hsize : Size (2 * source.length) (setInputSource source) :=
    ⟨source.length, ⟨_, left_setInputSource source, length_packed_le false source⟩, le_rfl⟩
  exact callUntilEnd_follows hbounds (by omega) hsize calls

theorem EndsInName.not_terminates (h : EndsInName env features calls source) :
    ¬ Terminates env features calls source := by
  rintro ⟨n, hends⟩
  have hfollows := callUntilEnd_readName_follows env features calls source
    (le_max_right n (rounds source))
  have htimeout := hfollows.timeout_iff.mpr h
  exact Outcome.ne_timeout_iff.mpr (hends _ (le_max_left n (rounds source))) htimeout

/-- Calls of `next` and `nextToken`, in any order, come to the end of every
source or raise, unless the source ends inside of a name. -/
theorem terminates_iff (env : Environment) (features : Features) (calls : Nat → Call)
    (source : NSString) :
    Terminates env features calls source ↔ ¬ EndsInName env features calls source := by
  refine ⟨fun hends hname => hname.not_terminates hends, fun hname => ?_⟩
  refine ⟨rounds source, fun fuel hfuel => Outcome.ne_timeout_iff.mp fun htimeout => ?_⟩
  have hfollows := callUntilEnd_readName_follows env features calls source hfuel
  exact hname (hfollows.timeout_iff.mp htimeout)

def asciiEnvironment : Environment where
  letterCharacterSet c := (uc 'a' ≤ c && c ≤ uc 'z') || (uc 'A' ≤ c && c ≤ uc 'Z')
  alphanumericCharacterSet c :=
    (uc 'a' ≤ c && c ≤ uc 'z') || (uc 'A' ≤ c && c ≤ uc 'Z') || (uc '0' ≤ c && c ≤ uc '9')
  lowercaseString s := s.map fun c => if uc 'A' ≤ c && c ≤ uc 'Z' then c + 32 else c
  entityReferenceTable _ := none
  letter_invalid := rfl
  alphanumeric_invalid := rfl

/-- A start tag that breaks off in its name. -/
theorem not_terminates_startTag :
    ¬ Terminates asciiEnvironment {} (fun _ => .next) (ns "<a") :=
  EndsInName.not_terminates rfl

end BathyScaphe.Xml
