import BathyScaphe.Lib.Undo
import BathyScaphe.Message.ThreadMessage

/-!
# Changes of attributes that can be undone

Every setter with an undo manager registers the same setter with the other value,
whatever the attribute was before. What is undone last is the first change of an
attribute, so the attribute is restored when this one change was a change, and the
bookmark when it was the one that the setter writes.
-/

namespace BathyScaphe.CMRThreadMessage

def BOOKMARK_FLAG : UInt32 := 0x7000

def INT2BOOKMARK (v : UInt32) : UInt32 := (v <<< 12) &&& BOOKMARK_FLAG

def BOOKMARK2INT (v : UInt32) : UInt32 := (v >>> 12) &&& 0x7

def isAsciiArt (m : CMRThreadMessage) : Bool := m.flagAt ASCII_ART_FLAG

def setLocalAboned (m : CMRThreadMessage) (flag : Bool) : CMRThreadMessage :=
  m.setFlag LOCAL_ABONED_FLAG flag
def setInvisibleAboned (m : CMRThreadMessage) (flag : Bool) : CMRThreadMessage :=
  m.setFlag INVISIBLE_ABONED_FLAG flag
def setAsciiArt (m : CMRThreadMessage) (flag : Bool) : CMRThreadMessage :=
  m.setFlag ASCII_ART_FLAG flag
def setSpam (m : CMRThreadMessage) (flag : Bool) : CMRThreadMessage := m.setFlag SPAM_FLAG flag

def bookmark (m : CMRThreadMessage) : UInt32 := BOOKMARK2INT m.flags

def setBookmark (m : CMRThreadMessage) (bookmark : UInt32) : CMRThreadMessage :=
  { m with flags := m.flags &&& ~~~BOOKMARK_FLAG ||| INT2BOOKMARK bookmark }

def hasBookmark (m : CMRThreadMessage) : Bool := m.bookmark != 0

def setHasBookmark (m : CMRThreadMessage) (bookmark : Bool) : CMRThreadMessage :=
  if bookmark = false then m.setBookmark 0
  else if m.hasBookmark = false then m.setBookmark 1 else m

-- The setters with an undo manager

inductive UndoableSetter where
  | localAboned
  | invisibleAboned
  | asciiArt
  | hasBookmark
  | spam
  deriving DecidableEq

structure UndoableChange where
  setter : UndoableSetter
  flag : Bool
  deriving DecidableEq

def UndoableChange.perform (c : UndoableChange) (m : CMRThreadMessage) : CMRThreadMessage :=
  match c.setter with
  | .localAboned => m.setLocalAboned c.flag
  | .invisibleAboned => m.setInvisibleAboned c.flag
  | .asciiArt => m.setAsciiArt c.flag
  | .hasBookmark => m.setHasBookmark c.flag
  | .spam => m.setSpam c.flag

def UndoableChange.inverse (c : UndoableChange) : UndoableChange := { c with flag := !c.flag }

/-- A message with the invocations for it on the stacks of the undo manager. -/
abbrev Undoable := Undo.Session CMRThreadMessage UndoableChange

def setUndoManager (setter : UndoableSetter) (flag : Bool) (s : Undoable) : Undoable :=
  s.change UndoableChange.perform UndoableChange.inverse ⟨setter, flag⟩

def setLocalAbonedUndoManager : Bool → Undoable → Undoable := setUndoManager .localAboned
def setInvisibleAbonedUndoManager : Bool → Undoable → Undoable := setUndoManager .invisibleAboned
def setAsciiArtUndoManager : Bool → Undoable → Undoable := setUndoManager .asciiArt
def setHasBookmarkUndoManager : Bool → Undoable → Undoable := setUndoManager .hasBookmark
def setSpamUndoManager : Bool → Undoable → Undoable := setUndoManager .spam

def UndoableChange.set (c : UndoableChange) : Undoable → Undoable :=
  match c.setter with
  | .localAboned => setLocalAbonedUndoManager c.flag
  | .invisibleAboned => setInvisibleAbonedUndoManager c.flag
  | .asciiArt => setAsciiArtUndoManager c.flag
  | .hasBookmark => setHasBookmarkUndoManager c.flag
  | .spam => setSpamUndoManager c.flag

def setAll (changes : List UndoableChange) (s : Undoable) : Undoable :=
  changes.foldl (fun s c => c.set s) s

def undone (n : Nat) (s : Undoable) : CMRThreadMessage :=
  (s.undoMany UndoableChange.perform UndoableChange.inverse n).state

theorem UndoableChange.set_eq (c : UndoableChange) (s : Undoable) :
    c.set s = s.change UndoableChange.perform UndoableChange.inverse c := by
  obtain ⟨setter, flag⟩ := c
  cases setter <;> rfl

theorem setAll_eq (changes : List UndoableChange) (s : Undoable) :
    setAll changes s = s.changeAll UndoableChange.perform UndoableChange.inverse changes := by
  simp only [setAll, Undo.Session.changeAll, UndoableChange.set_eq]

-- The part of a setter

def UndoableSetter.mask : UndoableSetter → UInt32
  | .localAboned => LOCAL_ABONED_FLAG
  | .invisibleAboned => INVISIBLE_ABONED_FLAG
  | .asciiArt => ASCII_ART_FLAG
  | .hasBookmark => BOOKMARK_FLAG
  | .spam => SPAM_FLAG

def UndoableSetter.act (setter : UndoableSetter) (part : UInt32) (c : UndoableChange) : UInt32 :=
  if c.flag = false then 0
  else if setter = .hasBookmark then (if part = 0 then INT2BOOKMARK 1 else part)
  else setter.mask

theorem bookmark_eq (m : CMRThreadMessage) : m.bookmark = (m.flags &&& BOOKMARK_FLAG) >>> 12 := by
  rw [bookmark, BOOKMARK2INT, UInt32.shiftRight_and]
  rfl

theorem and_bookmark (m : CMRThreadMessage) : m.flags &&& BOOKMARK_FLAG = m.bookmark <<< 12 := by
  have hback : ∀ word : UInt32, word >>> 12 <<< 12 = word &&& 0xfffff000 := by
    intro word
    apply UInt32.toBitVec_inj.1
    exact BitVec.shiftLeft_ushiftRight
  rw [bookmark_eq, hback, Flags.and_and]
  rfl

theorem bookmark_eq_iff (m : CMRThreadMessage) {v : UInt32} (hv : v <<< 12 >>> 12 = v) :
    m.bookmark = v ↔ m.flags &&& BOOKMARK_FLAG = v <<< 12 := by
  constructor
  · intro h
    rw [and_bookmark, h]
  · intro h
    rw [bookmark_eq, h, hv]

theorem setFlag_and (m : CMRThreadMessage) (flag : UInt32) (isSet : Bool) :
    (m.setFlag flag isSet).flags &&& flag = if isSet = false then 0 else flag := by
  cases isSet with
  | true => exact Flags.or_and_self m.flags flag
  | false =>
    show m.flags &&& ~~~flag &&& flag = 0
    rw [Flags.and_and, UInt32.not_and_self, UInt32.and_zero]

theorem setFlag_and_of_disjoint (m : CMRThreadMessage) {flag mask : UInt32} (h : flag &&& mask = 0)
    (h' : ~~~flag &&& mask = mask) (isSet : Bool) :
    (m.setFlag flag isSet).flags &&& mask = m.flags &&& mask := by
  cases isSet with
  | true => exact Flags.or_and_of_disjoint h
  | false => exact Flags.and_and_of_subset h'

theorem setBookmark_and (m : CMRThreadMessage) (v : UInt32) :
    (m.setBookmark v).flags &&& BOOKMARK_FLAG = INT2BOOKMARK v := by
  show (m.flags &&& ~~~BOOKMARK_FLAG ||| INT2BOOKMARK v) &&& BOOKMARK_FLAG = _
  rw [Flags.or_and, Flags.and_and, UInt32.not_and_self, UInt32.and_zero, UInt32.zero_or,
    INT2BOOKMARK, Flags.and_and, UInt32.and_self]

theorem setBookmark_and_of_disjoint (m : CMRThreadMessage) (v : UInt32) {mask : UInt32}
    (h : BOOKMARK_FLAG &&& mask = 0) (h' : ~~~BOOKMARK_FLAG &&& mask = mask) :
    (m.setBookmark v).flags &&& mask = m.flags &&& mask := by
  show (m.flags &&& ~~~BOOKMARK_FLAG ||| INT2BOOKMARK v) &&& mask = _
  rw [Flags.or_and_of_disjoint, Flags.and_and_of_subset h']
  rw [INT2BOOKMARK, Flags.and_and, h, UInt32.and_zero]

theorem perform_and (c : UndoableChange) (m : CMRThreadMessage) :
    (c.perform m).flags &&& c.setter.mask = c.setter.act (m.flags &&& c.setter.mask) c := by
  obtain ⟨setter, flag⟩ := c
  cases setter with
  | hasBookmark =>
    have hzero : m.bookmark = 0 ↔ m.flags &&& BOOKMARK_FLAG = 0 := bookmark_eq_iff m rfl
    cases flag with
    | false => exact setBookmark_and m 0
    | true =>
      show (if m.hasBookmark = false then m.setBookmark 1 else m).flags &&& BOOKMARK_FLAG =
        if m.flags &&& BOOKMARK_FLAG = 0 then INT2BOOKMARK 1 else m.flags &&& BOOKMARK_FLAG
      by_cases hnone : m.flags &&& BOOKMARK_FLAG = 0
      · rw [if_pos hnone, if_pos (by rw [hasBookmark, hzero.mpr hnone]; rfl)]
        exact setBookmark_and m 1
      · rw [if_neg hnone, if_neg (by simp [hasBookmark, hzero, hnone])]
  | _ => exact setFlag_and m _ flag

theorem perform_and_of_disjoint (c : UndoableChange) (m : CMRThreadMessage) {mask : UInt32}
    (h : c.setter.mask &&& mask = 0) (h' : ~~~c.setter.mask &&& mask = mask) :
    (c.perform m).flags &&& mask = m.flags &&& mask := by
  obtain ⟨setter, flag⟩ := c
  cases setter with
  | hasBookmark =>
    show (m.setHasBookmark flag).flags &&& mask = _
    rw [setHasBookmark]
    split
    · exact setBookmark_and_of_disjoint m 0 h h'
    · split
      · exact setBookmark_and_of_disjoint m 1 h h'
      · rfl
  | _ => exact setFlag_and_of_disjoint m h h' flag

-- Undoing

theorem foldl_act_bookmark (changes : List UndoableChange) {part : UInt32}
    (h : part = 0 ∨ part = INT2BOOKMARK 1) :
    changes.foldl UndoableSetter.hasBookmark.act part = 0 ∨
      changes.foldl UndoableSetter.hasBookmark.act part = INT2BOOKMARK 1 := by
  induction changes generalizing part with
  | nil => exact h
  | cons c changes ih =>
    refine ih ?_
    obtain ⟨setter, flag⟩ := c
    cases flag with
    | false => exact .inl rfl
    | true =>
      obtain rfl | rfl := h
      · exact .inr rfl
      · exact .inr rfl

/-- Taking back the first change of a part does not depend on the changes after it. -/
theorem act_inverse (setter : UndoableSetter) (c : UndoableChange) (changes : List UndoableChange)
    (part : UInt32) :
    setter.act ((Undo.roundTrip UndoableChange.inverse changes).foldl setter.act
      (setter.act part c)) c.inverse =
      setter.act 0 c.inverse := by
  obtain ⟨name, flag⟩ := c
  cases setter with
  | hasBookmark =>
    cases flag with
    | true => rfl
    | false =>
      obtain hzero | hone :=
        foldl_act_bookmark (Undo.roundTrip UndoableChange.inverse changes) (.inl rfl)
      · exact congrArg (UndoableSetter.hasBookmark.act · ⟨name, true⟩) hzero
      · exact (congrArg (UndoableSetter.hasBookmark.act · ⟨name, true⟩) hone).trans rfl
  | _ => rfl

/-- The part of a setter after its changes are made and undone is as before if and only if
the first of them is taken back by its inverse. -/
theorem roundTrip_eq_iff (setter : UndoableSetter) (changes : List UndoableChange) (part : UInt32) :
    (Undo.roundTrip UndoableChange.inverse changes).foldl setter.act part = part ↔
      ∀ c ∈ changes.head?, setter.act 0 c.inverse = part := by
  cases changes with
  | nil => exact ⟨fun _ => nofun, fun _ => rfl⟩
  | cons c changes =>
    rw [Undo.foldl_roundTrip_cons, act_inverse]
    simp

/-- The change writes what the attribute is not, and the bookmark is the one the setter writes. -/
def UndoableChange.IsToggle (c : UndoableChange) (m : CMRThreadMessage) : Prop :=
  match c.setter with
  | .localAboned => m.isLocalAboned = !c.flag
  | .invisibleAboned => m.isInvisibleAboned = !c.flag
  | .asciiArt => m.isAsciiArt = !c.flag
  | .hasBookmark => m.bookmark = if c.flag then 0 else 1
  | .spam => m.isSpam = !c.flag

theorem flagAt_eq_not_iff (m : CMRThreadMessage) (flag : Bool) {mask : UInt32}
    {k : Nat} (h : mask.toNat = 2 ^ k) :
    m.flagAt mask = !flag ↔ (if (!flag) = false then 0 else mask) = m.flags &&& mask := by
  have hpos : 0 < mask := by
    rw [UInt32.lt_iff_toNat_lt, h]
    exact Nat.two_pow_pos k
  have hne : mask ≠ 0 := (UInt32.pos_iff_ne_zero.mp hpos)
  obtain hzero | hmask := Flags.and_eq_zero_or m.flags h
  · rw [flagAt, hzero]
    cases flag <;> simp [hne]
  · rw [flagAt, hmask]
    cases flag <;> simp [hne.symm, hpos]

theorem isToggle_iff (c : UndoableChange) (m : CMRThreadMessage) :
    c.IsToggle m ↔ c.setter.act 0 c.inverse = m.flags &&& c.setter.mask := by
  obtain ⟨setter, flag⟩ := c
  cases setter with
  | hasBookmark =>
    cases flag with
    | true => exact (bookmark_eq_iff m rfl).trans eq_comm
    | false => exact (bookmark_eq_iff m rfl).trans eq_comm
  | localAboned => exact flagAt_eq_not_iff m flag (k := 7) rfl
  | invisibleAboned => exact flagAt_eq_not_iff m flag (k := 8) rfl
  | asciiArt => exact flagAt_eq_not_iff m flag (k := 9) rfl
  | spam => exact flagAt_eq_not_iff m flag (k := 10) rfl

def otherFlags : UInt32 := 0xffff887f

theorem flags_eq_iff (m m' : CMRThreadMessage)
    (hother : m'.flags &&& otherFlags = m.flags &&& otherFlags) :
    m'.flags = m.flags ↔ ∀ setter : UndoableSetter, m'.flags &&& setter.mask =
      m.flags &&& setter.mask := by
  refine ⟨fun h setter => by rw [h], fun h => ?_⟩
  have hall := Flags.and_or_congr (Flags.and_or_congr (Flags.and_or_congr
      (Flags.and_or_congr (Flags.and_or_congr
    hother (h .localAboned)) (h .invisibleAboned)) (h .asciiArt)) (h .hasBookmark)) (h .spam)
  have hmask : ∀ word : UInt32, word &&& (otherFlags ||| UndoableSetter.localAboned.mask |||
      UndoableSetter.invisibleAboned.mask ||| UndoableSetter.asciiArt.mask |||
        UndoableSetter.hasBookmark.mask |||
      UndoableSetter.spam.mask) = word := fun word => UInt32.and_neg_one
  rw [hmask, hmask] at hall
  exact hall

theorem masks_disjoint : ∀ setter setter' : UndoableSetter, setter ≠ setter' →
    setter.mask &&& setter'.mask = 0 ∧ ~~~setter.mask &&& setter'.mask = setter'.mask := by
  intro setter setter' h
  cases setter <;> cases setter' <;> first | exact absurd rfl h | exact ⟨rfl, rfl⟩

theorem otherFlags_disjoint (setter : UndoableSetter) :
    setter.mask &&& otherFlags = 0 ∧ ~~~setter.mask &&& otherFlags = otherFlags := by
  cases setter <;> exact ⟨rfl, rfl⟩

theorem undone_and_other (changes : List UndoableChange) (s : Undoable) :
    (undone changes.length (setAll changes s)).flags &&& otherFlags =
      s.state.flags &&& otherFlags := by
  rw [undone, setAll_eq, Undo.undoMany_changeAll]
  generalize Undo.roundTrip UndoableChange.inverse changes = all
  generalize s.state = m
  induction all generalizing m with
  | nil => rfl
  | cons c all ih =>
    obtain ⟨h, h'⟩ := otherFlags_disjoint c.setter
    exact (ih (c.perform m)).trans (perform_and_of_disjoint c m h h')

theorem undone_and_mask (setter : UndoableSetter) (changes : List UndoableChange) (s : Undoable) :
    (undone changes.length (setAll changes s)).flags &&& setter.mask =
      (Undo.roundTrip UndoableChange.inverse (changes.filter fun c =>
        c.setter = setter)).foldl setter.act
        (s.state.flags &&& setter.mask) := by
  rw [undone, setAll_eq]
  refine Undo.part_undoMany UndoableChange.perform UndoableChange.inverse
    (fun m => m.flags &&& setter.mask)
    (fun c => c.setter = setter) setter.act (fun _ => rfl) (fun m c hc => ?_)
    (fun m c hc => ?_) changes s
  · obtain rfl := of_decide_eq_true hc
    exact perform_and c m
  · obtain ⟨h, h'⟩ := masks_disjoint c.setter setter (of_decide_eq_false hc)
    exact perform_and_of_disjoint c m h h'

/-- Undoing changes restores the flags if and only if the first change of each attribute was
one, and the bookmark was the one that the setter writes. -/
theorem undone_flags_iff (changes : List UndoableChange) (s : Undoable) :
    (undone changes.length (setAll changes s)).flags = s.state.flags ↔
      ∀ setter, ∀ c ∈ changes.find? fun c => c.setter = setter, c.IsToggle s.state := by
  rw [flags_eq_iff _ _ (undone_and_other changes s)]
  refine forall_congr' fun setter => ?_
  rw [undone_and_mask, roundTrip_eq_iff, List.head?_filter]
  refine forall_congr' fun c => imp_congr_right fun hc => ?_
  have hsetter : c.setter = setter := by
    have hfound := List.find?_some (Option.mem_def.mp hc)
    exact of_decide_eq_true hfound
  rw [isToggle_iff, hsetter]

/-- A third bookmark comes back as the first one, and a mark that is made once more is lost. -/
theorem not_undone :
    (undone 1 (setAll [⟨.hasBookmark, false⟩] { state := { flags := 0x3000 } })).flags = 0x1000 ∧
      (undone 1 (setAll [⟨.localAboned, true⟩] { state := { flags := LOCAL_ABONED_FLAG } })).flags =
        0 := by
  decide

end BathyScaphe.CMRThreadMessage
