import BathyScaphe.Xml.PullParser

/-!
# What scanning leaves alone

Peeking and reading change the buffer and the counted place. Below the tags the
functions of the parser do that, put characters into the text buffer and set names.
What each of these keeps, all the functions keep.
-/

namespace BathyScaphe.Xml

open NSString Comp

-- The buffer

theorem fetch_eq (rest : NSString) (p : SGXmlPullParser) :
    ∃ rest' position peeked peekReadedCR eos, fetch rest p = { p with
      rest := rest', position := position, peeked := peeked, peekReadedCR :=
        peekReadedCR, eos := eos } := by
  induction rest generalizing p with
  | nil => exact ⟨_, _, _, _, _, rfl⟩
  | cons c rest ih =>
    rw [fetch]
    split
    · exact ⟨_, _, _, _, _, rfl⟩
    · split
      · obtain ⟨rest', position, peeked, cr, eos, heq⟩ := ih { p with
          rest := rest, peekReadedCR := false, position := p.position + 1 }
        exact ⟨rest', position, peeked, cr, eos, heq⟩
      · exact ⟨_, _, _, _, _, rfl⟩

structure Buffered (I : SGXmlPullParser → Prop) : Prop where
  peeks : ∀ index ≤ 1, Maintains I (peek index)
  reads : Maintains I read

/-- What a character behind the text keeps, or behind the start of it. -/
structure Pushed (I : SGXmlPullParser → Prop) : Prop extends Buffered I where
  pushes :
  ∀ p c, I p → I { p with isWhitespace := NSString.isWhitespace c, textBuf := p.textBuf ++ [c] }
  resolves : ∀ p n c, I p →
    I { p with isWhitespace := NSString.isWhitespace c, textBuf := p.textBuf.take n ++ [c] }

structure Scanned (I : SGXmlPullParser → Prop) : Prop extends Buffered I where
  texts : ∀ p isWhitespace textBuf, I p →
    I { p with isWhitespace := isWhitespace, textBuf := textBuf }
  tags : ∀ p name attributes, I p → I { p with name := name, attributes := attributes }

section
variable {I : SGXmlPullParser → Prop} {env : Environment} {features : Features} {fuel : Nat}

theorem buffered_of (h : ∀ p rest position peeked peekReadedCR eos line column, I p →
    I { p with
      rest := rest, position := position, peeked := peeked, peekReadedCR :=
        peekReadedCR, eos := eos,
      line := line, column := column }) : Buffered I := by
  have hfill : ∀ n p, I p → I (fill n p) := by
    intro n
    induction n with
    | zero => exact fun p hp => hp
    | succ n ih =>
      intro p hp
      obtain ⟨rest, position, peeked, cr, eos, heq⟩ := fetch_eq p.rest p
      rw [fill]
      apply ih
      rw [heq]
      exact h p rest position peeked cr eos p.line p.column hp
  have hpeek : ∀ index, Maintains I (peek index) := fun index =>
    maintains_bind (maintains_modify fun p hp => hfill _ p hp) fun _ =>
      maintains_bind maintains_get fun _ => maintains_pure _
  refine ⟨fun index _ => hpeek index, maintains_bind (hpeek 0) fun c => ?_⟩
  exact maintains_bind (maintains_modify fun p hp => h p _ _ _ _ _ _ _ hp) fun _ => maintains_pure c

theorem ensures_raiseParser {Q : α → SGXmlPullParser → Prop} (reason : NSString) :
    Ensures I (raiseParser reason) Q :=
  ensures_bind ensures_get fun _ => ensures_raise _

theorem maintains_raiseParser (reason : NSString) :
    Maintains I (raiseParser reason : Parser α) := ensures_raiseParser reason

theorem maintains_substringWithRange (range : NSRange) :
    Maintains I (substringWithRange range) :=
  maintains_bind maintains_get fun _ => maintains_ite (maintains_raise _) (maintains_pure _)

section
variable (hI : Buffered I)

include hI

theorem Buffered.peekZero : Maintains I (peek 0) := hI.peeks 0 (Nat.zero_le 1)

theorem Buffered.peekOne : Maintains I (peek 1) := hI.peeks 1 (Nat.le_refl 1)

theorem Buffered.readEnsure (c : UniChar) : Maintains I (readEnsure c) :=
  maintains_bind hI.reads fun _ => maintains_ite (maintains_pure _) (maintains_raiseParser _)

theorem Buffered.readEnsureAll (s : NSString) : Maintains I (readEnsureAll s) := by
  induction s with
  | nil => exact maintains_pure ()
  | cons c s ih => exact maintains_bind (hI.readEnsure c) fun _ => ih

theorem Buffered.peekType : Maintains I peekType := by
  refine maintains_bind hI.peekZero fun c => ?_
  refine maintains_ite (maintains_pure _) (maintains_ite (maintains_pure _) ?_)
  refine maintains_ite ?_ (maintains_pure _)
  refine maintains_bind hI.peekOne fun nc => ?_
  exact maintains_ite (maintains_pure _) (maintains_ite (maintains_pure _) (maintains_pure _))

theorem Buffered.followedBy (first second : UniChar) :
    Maintains I (followedBy first second) :=
  maintains_bind hI.peekZero fun _ => maintains_ite
    (maintains_bind hI.peekOne fun _ => maintains_pure _) (maintains_pure _)

theorem Buffered.peekSecond (fits : Bool) : Maintains I (peekSecond fits) :=
  maintains_ite hI.peekOne (maintains_pure _)

theorem Buffered.closesWith (c delimiter : UniChar) :
    Maintains I (closesWith c delimiter) :=
  maintains_ite (hI.followedBy _ _) (maintains_pure _)

theorem Buffered.skip (fuel : Nat) : Maintains I (skip fuel) := by
  refine maintains_loop (fun _ => ?_) fuel ()
  refine maintains_bind hI.peekZero fun c => maintains_ite (maintains_pure _) ?_
  exact maintains_bind hI.reads fun _ => maintains_pure _

theorem Buffered.readName (env : Environment) (features : Features) (fuel : Nat) :
    Maintains I (readName env features fuel) := by
  refine maintains_bind maintains_get fun p => maintains_bind hI.peekZero fun c => ?_
  refine maintains_ite (maintains_raiseParser _) (maintains_bind ?_ fun _ => ?_)
  · refine maintains_loop (fun _ => maintains_bind hI.reads fun _ => ?_) fuel ()
    exact maintains_bind hI.peekZero fun _ =>
      maintains_bind (maintains_pure ()) fun _ => maintains_pure _
  · refine maintains_bind maintains_get fun p' =>
      maintains_bind (maintains_substringWithRange _) fun name => ?_
    exact maintains_ite (maintains_raise _) (maintains_pure _)

end

-- Texts and names

section
variable (hI : Pushed I)

include hI

theorem Pushed.push (c : UniChar) : Maintains I (push c) := maintains_modify fun p h =>
    hI.pushes p c h

theorem Pushed.pushRead : Maintains I pushRead := maintains_bind hI.reads hI.push

theorem Pushed.resolveEntity (index textPos : Nat) (isValid : Bool) :
    Maintains I (resolveEntity env features index textPos isValid) := by
  refine maintains_bind maintains_get fun p => maintains_ite (maintains_raiseParser _) ?_
  refine maintains_bind (maintains_substringWithRange _) fun entityRef => ?_
  cases (if isValid then characterForEntityReference env entityRef else none) with
  | some code =>
    -- the text that is cut off need not be kept, only with the character behind it
    refine ensures_bind (ensures_modify (Q := fun _ p' => ∃ p, I p ∧ p' = { p with
      textBuf := p.textBuf.take textPos })
      fun p h => ⟨p, h, rfl⟩) fun _ => ensures_bind (ensures_modify (Q := fun _ => I) ?_) fun _ =>
        ensures_pure fun _ h => h
    rintro _ ⟨p, h, rfl⟩
    exact hI.resolves p textPos code h
  | none =>
    refine maintains_ite (maintains_pure false) (maintains_ite ?_ (maintains_raiseParser _))
    exact maintains_raiseParser _

theorem Pushed.scanEntity : Maintains I (scanEntity env fuel) := by
  refine maintains_loop (fun _ => maintains_bind hI.peekZero fun c => ?_) fuel ()
  refine maintains_ite (maintains_pure _) (maintains_bind hI.reads fun c => ?_)
  exact maintains_bind (hI.push c) fun _ => maintains_pure _

theorem Pushed.parseEntity {P : SGXmlPullParser → Prop} (willClearBuffer : Bool)
    (hclear : Ensures P (when willClearBuffer clearText) fun _ => I) :
    Ensures P (parseEntity env features fuel willClearBuffer) fun _ => I := by
  refine ensures_bind (ensures_get.imp fun _ _ h => h.1 ▸ h.2) fun start =>
    ensures_bind hclear fun _ => ?_
  refine maintains_bind maintains_get fun p => ?_
  refine maintains_bind (hI.readEnsure _) fun c => ?_
  refine maintains_bind (hI.push c) fun _ => ?_
  refine maintains_bind hI.peekZero fun c => ?_
  refine maintains_bind (maintains_when _ hI.pushRead) fun _ => ?_
  refine maintains_bind hI.scanEntity fun isValid => ?_
  exact maintains_ite (maintains_pure _) (hI.resolveEntity _ _ _)

theorem Pushed.parseText {P : SGXmlPullParser → Prop} (delimiter : UniChar) (resolve : Bool)
    (hpeek : Maintains P (peek 0)) (hclear : Ensures P clearText fun _ => I) :
    Ensures P (parseText env features fuel delimiter resolve) fun _ => I := by
  refine ensures_bind hpeek.ensures fun c => ensures_bind hclear fun _ => ?_
  refine maintains_loop (fun c => maintains_ite (maintains_pure _) (maintains_bind ?_ fun _ => ?_))
    fuel c
  · refine maintains_ite (maintains_bind (hI.parseEntity _ (maintains_pure ()).ensures) fun _ =>
      maintains_pure _) ?_
    exact maintains_bind maintains_get fun _ => maintains_bind hI.reads fun _ =>
      hI.push _
  · exact maintains_bind hI.peekZero fun c => maintains_pure _

theorem Pushed.parseComment (willPush : Bool) :
    Maintains I (parseComment features fuel willPush) := by
  refine maintains_bind (hI.readEnsureAll _) fun _ => maintains_bind ?_ fun _ =>
    hI.readEnsureAll _
  refine maintains_loop (fun pc => maintains_bind hI.reads fun c => ?_) fuel _
  refine maintains_bind (hI.closesWith _ _) fun closes => maintains_ite ?_ ?_
  · exact maintains_ite (maintains_raiseParser _) (maintains_pure _)
  · refine maintains_ite (maintains_raiseParser _) ?_
    exact maintains_bind (maintains_when _ (hI.push c)) fun _ => maintains_pure _

theorem Pushed.parseProccessingInstruction (willPush : Bool) :
    Maintains I (parseProccessingInstruction fuel willPush) := by
  refine maintains_bind ?_ fun _ => hI.readEnsureAll _
  refine maintains_loop (fun _ => maintains_bind hI.reads fun c => ?_) fuel ()
  refine maintains_bind (hI.followedBy _ _) fun closes => maintains_ite (maintains_pure _) ?_
  refine maintains_ite (maintains_raiseParser _) ?_
  exact maintains_bind (maintains_when _ (hI.push c)) fun _ => maintains_pure _

theorem Pushed.parseDocType (willPush : Bool) :
    Maintains I (parseDocType fuel willPush) := by
  refine maintains_bind (hI.readEnsureAll _) fun _ => ?_
  refine maintains_loop (fun state => maintains_bind hI.reads fun c => ?_) fuel _
  refine maintains_ite (maintains_raiseParser _) (maintains_ite (maintains_pure _) ?_)
  exact maintains_bind (maintains_when _ (hI.push c)) fun _ => maintains_pure _

theorem Pushed.parseCDATA : Maintains I (parseCDATA fuel) := by
  refine maintains_bind (hI.readEnsureAll _) fun _ => maintains_bind ?_ fun _ =>
    hI.readEnsureAll _
  refine maintains_loop (fun _ => maintains_bind hI.reads fun c => ?_) fuel ()
  refine maintains_bind (hI.closesWith _ _) fun closes => maintains_ite (maintains_pure _) ?_
  refine maintains_ite (maintains_raiseParser _) ?_
  exact maintains_bind (hI.push c) fun _ => maintains_pure _

end

section
variable (hI : Scanned I)

include hI

theorem Scanned.pushed : Pushed I where
  toBuffered := hI.toBuffered
  pushes p _ h := hI.texts p _ _ h
  resolves p _ _ h := hI.texts p _ _ h

theorem Scanned.clearText : Maintains I clearText :=
  maintains_modify fun _ h => hI.texts _ _ _ h

theorem Scanned.parseEntity (willClearBuffer : Bool) :
    Maintains I (parseEntity env features fuel willClearBuffer) :=
  hI.pushed.parseEntity _ (maintains_when _ hI.clearText).ensures

theorem Scanned.parseText (delimiter : UniChar) (resolve : Bool) :
    Maintains I (parseText env features fuel delimiter resolve) :=
  hI.pushed.parseText _ _ hI.peekZero hI.clearText.ensures

theorem Scanned.parseAttributeValue (name : NSString) :
    Maintains I (parseAttributeValue env features fuel name) := by
  refine maintains_bind hI.peekZero fun c => maintains_ite ?_ (maintains_ite ?_ ?_)
  · refine maintains_bind (hI.readEnsureAll _) fun _ =>
      maintains_bind (hI.skip fuel) fun _ => maintains_bind hI.reads fun delimiter => ?_
    refine maintains_ite ?_ (maintains_ite (maintains_raiseParser _) ?_)
    · refine maintains_bind (hI.parseText _ _) fun _ => maintains_bind maintains_get fun _ => ?_
      exact maintains_bind hI.reads fun _ => maintains_pure _
    · exact maintains_bind (hI.parseText _ _) fun _ =>
        maintains_bind maintains_get fun _ => maintains_pure _
  · exact maintains_ite (maintains_pure _) (maintains_raiseParser _)
  · exact maintains_raiseParser _

theorem Scanned.setName (name : NSString) : Maintains I (setName name) :=
  maintains_modify fun p h => hI.tags p (some name) p.attributes h

section
variable {readName : Parser NSString} (hname : Maintains I readName)

include hname

theorem Scanned.parseAttribute :
    Maintains I (parseAttribute env features fuel readName) := by
  refine maintains_bind hname fun name => maintains_ite (maintains_raiseParser _) ?_
  refine maintains_bind (hI.skip fuel) fun _ => maintains_bind maintains_get fun p => ?_
  refine maintains_ite (maintains_raiseParser _) ?_
  exact maintains_bind (hI.parseAttributeValue name) fun _ =>
    maintains_modify fun _ h => hI.tags _ _ _ h

end

end

end

end BathyScaphe.Xml
