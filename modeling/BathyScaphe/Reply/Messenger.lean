import BathyScaphe.Foundation.NSString
import BathyScaphe.Lib.Run
import Mathlib.Logic.Function.Basic

/-!
# Posting a reply

A reply document sends its message through a connector, which reports to it how
the post has ended. The document is marked as posted before anything is sent, and
the mark is taken back when a failure is reported; a save of a marked document
writes an empty message. A redirect with status 302 is reported as the end of the
post, and the connection goes on after it.
-/

namespace BathyScaphe.Reply

inductive Outcome where
  | finished
  | failed
  deriving DecidableEq, Repr

/-- What the error handler makes of the contents of a response. -/
inductive Judgement where
  | none
  /-- An error, and whether it asks for a confirmation. -/
  | error (isContribution : Bool)
  deriving DecidableEq, Repr

/-- The form that can be encoded, which is made of the message and of whatever else is
sent at that time (the name, the mail, the thread, the session), and the judgement of the
contents received. -/
structure Connector (φ : Type) where
  writeForm : φ → NSString → Bool
  handleError : List UInt8 → Judgement

/-- A post that was started: its connection, and what it has reported. -/
structure Post where
  isConnected : Bool := false
  data : List UInt8 := []
  outcomes : List Outcome := []

/-- What a save has written, and what the editor showed at that time. -/
structure Save where
  written : NSString
  text : NSString
  /-- A post had been reported as finished before. -/
  isAfterFinish : Bool

structure Messenger where
  textStorage : NSString
  replyMessage : NSString
  isEndPost : Bool := false
  isInProgress : Bool := false
  /-- The document has its window, until it is closed. -/
  isOpen : Bool := true
  /-- The confirmation sheets that are shown. -/
  confirmations : Nat := 0
  posts : Nat → Post := fun _ => {}
  started : Nat := 0
  hasFinished : Bool := false
  saves : List Save := []

inductive Event (φ : Type) where
  | edit (text : NSString)
  | sendMessage (form : φ)
  | saveDocument
  /-- `willSendRequest:redirectResponse:` with a redirect. -/
  | redirect (c : Nat) (status : Nat)
  | didReceiveResponse (c : Nat)
  | didReceiveData (c : Nat) (data : List UInt8)
  | didFinish (c : Nat)
  | didFail (c : Nat)
  /-- A confirmation sheet ends, with its first button or not. -/
  | sheetDidEnd (tryAgain : Bool) (form : φ)

namespace Messenger

variable {φ : Type} (con : Connector φ)

def setPost (m : Messenger) (c : Nat) (post : Post) : Messenger :=
  { m with posts := Function.update m.posts c post }

/-- `synchronizeDocumentContentsWithWindowControllers`, which finds no controller
once the document is closed. -/
def synchronize (m : Messenger) : Messenger :=
  if m.isOpen then { m with replyMessage := m.textStorage } else m

def saveDocument (m : Messenger) : Messenger :=
  let m' := m.synchronize
  let message := if m'.isEndPost then [] else m'.replyMessage
  { m' with
    replyMessage := message, saves := m'.saves ++ [⟨message, m'.textStorage, m'.hasFinished⟩] }

def startSendingMessage (form : φ) (m : Messenger) : Messenger :=
  let m' := m.synchronize
  if con.writeForm form m'.replyMessage then
    { m'.setPost m'.started { isConnected := true } with
      isEndPost := true, isInProgress := true, started := m'.started + 1 }
  else { m' with isEndPost := false }

def report (m : Messenger) (c : Nat) (outcome : Outcome) : Messenger :=
  m.setPost c { m.posts c with outcomes := (m.posts c).outcomes ++ [outcome] }

def didFinishPosting (m : Messenger) : Messenger :=
  { { m with isInProgress := false }.saveDocument with isOpen := false }

def didFailPosting (m : Messenger) : Messenger :=
  { m with isInProgress := false, isEndPost := false }

def connectorResourceDidFinishLoading (m : Messenger) (c : Nat) : Messenger :=
  { m.report c .finished with hasFinished := true }.didFinishPosting

/-- Both callbacks for a failure; the sheet of the error handler may ask for a
confirmation. -/
def resourceDidFailLoading (m : Messenger) (c : Nat) (isContribution : Bool) : Messenger :=
  let m' := (m.report c .failed).didFailPosting
  if isContribution then { m' with confirmations := m'.confirmations + 1 } else m'

def disconnect (m : Messenger) (c : Nat) : Messenger :=
  m.setPost c { m.posts c with isConnected := false }

def redirect (m : Messenger) (c : Nat) (status : Nat) : Messenger :=
  if status = 302 then m.connectorResourceDidFinishLoading c else m

def connectionDidFinishLoading (m : Messenger) (c : Nat) : Messenger :=
  match con.handleError (m.posts c).data with
  | .none => (m.disconnect c).connectorResourceDidFinishLoading c
  | .error isContribution => (m.disconnect c).resourceDidFailLoading c isContribution

def didReceiveData (m : Messenger) (c : Nat) (data : List UInt8) : Messenger :=
  m.setPost c { m.posts c with data := (m.posts c).data ++ data }

/-- `none` where the event cannot come: the menu and the toolbar offer to send only an
unmarked document with a text, and callbacks come from open connections. -/
def step (m : Messenger) : Event φ → Option Messenger
  | .edit text => if m.isOpen then some { m with textStorage := text } else none
  | .sendMessage form =>
    if m.isOpen ∧ m.isEndPost = false ∧ m.textStorage ≠ [] then
      some (startSendingMessage con form m)
    else none
  | .saveDocument => if m.isOpen then some m.saveDocument else none
  | .redirect c status => if (m.posts c).isConnected then some (m.redirect c status) else none
  | .didReceiveResponse c => if (m.posts c).isConnected then some m else none
  | .didReceiveData c data => if (m.posts c).isConnected then some (m.didReceiveData c data)
      else none
  | .didFinish c => if (m.posts c).isConnected then some (m.connectionDidFinishLoading con c)
      else none
  | .didFail c =>
    if (m.posts c).isConnected then some ((m.disconnect c).resourceDidFailLoading c false) else none
  | .sheetDidEnd tryAgain form =>
    if m.isOpen ∧ 0 < m.confirmations then
      let m' := { m with confirmations := m.confirmations - 1 }
      some (if tryAgain then startSendingMessage con form m' else m')
    else none

-- What a post reports, and what a save writes

/-- Every post reports at most one outcome, and one when its connection has ended;
every save made before a post was reported as finished wrote the text of the
editor. -/
structure Sound (m : Messenger) : Prop where
  once : ∀ c, c < m.started → (m.posts c).outcomes.length ≤ 1 ∧
    ((m.posts c).isConnected = false → (m.posts c).outcomes.length = 1)
  kept : ∀ save ∈ m.saves, save.isAfterFinish = false → save.written = save.text

structure Inv (m : Messenger) : Prop extends m.Sound where
  fresh : ∀ c, m.started ≤ c → m.posts c = {}

variable {m m' : Messenger} {c : Nat}

theorem inv_new (text : NSString) : Inv { textStorage := text, replyMessage := text } where
  once _ hc := absurd hc (Nat.not_lt_zero _)
  kept _ hsave := absurd hsave List.not_mem_nil
  fresh _ _ := rfl

theorem Inv.congr (h : m.Inv) (hposts : m'.posts = m.posts) (hstarted : m'.started = m.started)
    (hsaves : ∀ save ∈ m'.saves, save ∈ m.saves ∨ save.isAfterFinish = true ∨
      save.written = save.text) :
    m'.Inv := by
  refine ⟨⟨?_, fun save hsave hbefore => ?_⟩, ?_⟩
  · rw [hposts, hstarted]
    exact h.once
  · obtain hold | hafter | htext := hsaves save hsave
    · exact h.kept save hold hbefore
    · exact absurd (hbefore.symm.trans hafter) Bool.false_ne_true
    · exact htext
  · rw [hposts, hstarted]
    exact h.fresh

theorem Inv.lt_started (h : m.Inv) (hc : (m.posts c).isConnected = true) : c < m.started := by
  by_contra hle
  rw [h.fresh c (Nat.le_of_not_lt hle)] at hc
  cases hc

theorem Inv.setPost (h : m.Inv) (hc : c < m.started) (hpost : post.outcomes.length ≤ 1 ∧
    (post.isConnected = false → post.outcomes.length = 1)) : (m.setPost c post).Inv := by
  refine ⟨⟨fun c' hc' => ?_, h.kept⟩, fun c' hc' => ?_⟩
  · by_cases heq : c' = c
    · subst heq
      simpa [Messenger.setPost] using hpost
    · simpa [Messenger.setPost, heq] using h.once c' hc'
  · have heq : c' ≠ c := fun heq => absurd (heq ▸ hc) (Nat.not_lt.mpr hc')
    simpa [Messenger.setPost, heq] using h.fresh c' hc'

theorem posts_synchronize (m : Messenger) : m.synchronize.posts = m.posts := by
  unfold synchronize
  split <;> rfl

theorem started_synchronize (m : Messenger) : m.synchronize.started = m.started := by
  unfold synchronize
  split <;> rfl

theorem saves_synchronize (m : Messenger) : m.synchronize.saves = m.saves := by
  unfold synchronize
  split <;> rfl

theorem synchronize_of_isOpen (h : m.isOpen = true) :
    m.synchronize = { m with replyMessage := m.textStorage } := if_pos h

theorem Inv.synchronize (h : m.Inv) : m.synchronize.Inv :=
  h.congr (posts_synchronize m) (started_synchronize m) fun _ hsave =>
    .inl (saves_synchronize m ▸ hsave)

/-- A save of a document that is not marked as posted, or after a finished post. -/
theorem Inv.saveDocument (h : m.Inv)
    (hm : m.isOpen = true ∧ m.isEndPost = false ∨ m.hasFinished = true) : m.saveDocument.Inv := by
  refine h.congr (posts_synchronize m) (started_synchronize m) fun save hsave => ?_
  obtain hold | rfl := List.mem_append.mp hsave |>.imp id List.mem_singleton.mp
  · exact .inl (saves_synchronize m ▸ hold)
  · obtain ⟨hopen, hend⟩ | hfinished := hm
    · simp [synchronize_of_isOpen hopen, hend]
    · refine .inr (.inl ?_)
      unfold Messenger.synchronize
      split <;> exact hfinished

theorem Inv.startSendingMessage (h : m.Inv) (form : φ) : (startSendingMessage con form m).Inv := by
  have hsync := h.synchronize
  unfold Messenger.startSendingMessage
  dsimp only
  split
  · refine ⟨⟨fun c hc => ?_, hsync.kept⟩, fun c hc => ?_⟩
    · by_cases heq : c = m.synchronize.started
      · subst heq
        simp [Messenger.setPost]
      · have hlt : c < m.synchronize.started := Nat.lt_of_le_of_ne (Nat.le_of_lt_succ hc) heq
        simpa [Messenger.setPost, heq] using hsync.once c hlt
    · have heq : c ≠ m.synchronize.started := fun heq => absurd hc (by simp [heq])
      simpa [Messenger.setPost, heq] using hsync.fresh c (Nat.le_of_succ_le hc)
  · exact ⟨⟨hsync.once, hsync.kept⟩, hsync.fresh⟩

-- One step

theorem Inv.report (h : m.Inv) (hc : c < m.started) (hnone : (m.posts c).outcomes = [])
    (outcome : Outcome) : (m.report c outcome).Inv :=
  h.setPost hc (by simp [hnone])

theorem Inv.report_disconnect (h : m.Inv) (hc : c < m.started) (hnone : (m.posts c).outcomes = [])
    (outcome : Outcome) : ((m.disconnect c).report c outcome).Inv := by
  have heq : (m.disconnect c).report c outcome =
      m.setPost c { m.posts c with isConnected := false, outcomes := [outcome] } := by
    simp [Messenger.report, disconnect, Messenger.setPost, hnone]
  rw [heq]
  exact h.setPost hc (by simp)

theorem Inv.didFinishPosting (h : m.Inv) :
    ({ m with hasFinished := true }.didFinishPosting).Inv := by
  have hsaved : ({ m with hasFinished := true, isInProgress := false }.saveDocument).Inv :=
    Inv.saveDocument (h.congr rfl rfl fun _ hsave => .inl hsave) (.inr rfl)
  exact hsaved.congr rfl rfl fun _ hsave => .inl hsave

theorem Inv.didFailPosting (h : m.Inv) (n : Nat) :
    { m.didFailPosting with confirmations := n }.Inv :=
  h.congr rfl rfl fun _ hsave => .inl hsave

/-- No save is made while the document is marked as posted, and nothing is reported
of a post that a redirect has already reported as finished. -/
def Allowed (m : Messenger) : Event φ → Prop
  | .saveDocument => m.isEndPost = false
  | .redirect c status => status = 302 → (m.posts c).outcomes = []
  | .didFinish c => (m.posts c).outcomes = []
  | .didFail c => (m.posts c).outcomes = []
  | _ => True

theorem enabled {p : Prop} [Decidable p] {a b : Messenger}
    (h : (if p then some a else none) = some b) :
    p ∧ a = b := by
  obtain ⟨hp, hab⟩ := Option.ite_none_right_eq_some.mp h
  exact ⟨hp, Option.some.inj hab⟩

theorem step_inv (h : m.Inv) (ha : m.Allowed e) (hstep : m.step con e = some m') : m'.Inv := by
  cases e with
  | edit text =>
    obtain ⟨-, rfl⟩ := enabled hstep
    exact h.congr rfl rfl fun _ hsave => .inl hsave
  | sendMessage form =>
    obtain ⟨-, rfl⟩ := enabled hstep
    exact h.startSendingMessage con form
  | saveDocument =>
    obtain ⟨hopen, rfl⟩ := enabled hstep
    exact h.saveDocument (.inl ⟨hopen, ha⟩)
  | redirect c status =>
    obtain ⟨hc, rfl⟩ := enabled hstep
    unfold Messenger.redirect
    by_cases hstatus : status = 302
    · rw [if_pos hstatus]
      exact (h.report (h.lt_started hc) (ha hstatus) .finished).didFinishPosting
    · rw [if_neg hstatus]
      exact h
  | didReceiveResponse c =>
    obtain ⟨-, rfl⟩ := enabled hstep
    exact h
  | didReceiveData c data =>
    obtain ⟨hc, rfl⟩ := enabled hstep
    exact h.setPost (h.lt_started hc) (h.once c (h.lt_started hc))
  | didFinish c =>
    obtain ⟨hc, rfl⟩ := enabled hstep
    have hreport := h.report_disconnect (h.lt_started hc) ha
    unfold connectionDidFinishLoading
    split
    · exact (hreport .finished).didFinishPosting
    · next isContribution _ =>
      cases isContribution with
      | true => exact (hreport .failed).didFailPosting _
      | false => exact (hreport .failed).didFailPosting _
  | didFail c =>
    obtain ⟨hc, rfl⟩ := enabled hstep
    exact (h.report_disconnect (h.lt_started hc) ha .failed).didFailPosting _
  | sheetDidEnd tryAgain form =>
    obtain ⟨-, rfl⟩ := enabled hstep
    have hsheet : { m with confirmations := m.confirmations - 1 }.Inv :=
      h.congr rfl rfl fun _ hsave => .inl hsave
    cases tryAgain with
    | true => exact hsheet.startSendingMessage con form
    | false => exact hsheet

def Sendable (m : Messenger) : Prop := m.isInProgress = false ∧ m.isEndPost = false

def Fails (m m' : Messenger) : Prop :=
  ∃ c, (m'.posts c).outcomes = (m.posts c).outcomes ++ [.failed]

theorem resourceDidFailLoading_sendable (m : Messenger) (c : Nat) (isContribution : Bool) :
    (m.resourceDidFailLoading c isContribution).Sendable := by
  cases isContribution <;> exact ⟨rfl, rfl⟩

theorem not_fails_of_posts (h : m'.posts = m.posts) : ¬ m.Fails m' := by
  rintro ⟨c, hc⟩
  rw [h] at hc
  simpa using congrArg List.length hc

theorem posts_didFinishPosting (m : Messenger) : m.didFinishPosting.posts = m.posts :=
  posts_synchronize _

theorem not_fails_finished (m₀ : Messenger) (h : m₀.posts = m.posts ∨ m₀ = m.disconnect c) :
    ¬ m.Fails (m₀.connectorResourceDidFinishLoading c) := by
  rintro ⟨c', hc'⟩
  rw [connectorResourceDidFinishLoading, posts_didFinishPosting] at hc'
  obtain h | rfl := h
  · by_cases heq : c' = c
    · subst heq
      simp [Messenger.report, Messenger.setPost, h] at hc'
    · simp [Messenger.report, Messenger.setPost, heq, h] at hc'
  · by_cases heq : c' = c
    · subst heq
      simp [Messenger.report, disconnect, Messenger.setPost] at hc'
    · simp [Messenger.report, disconnect, Messenger.setPost, heq] at hc'

theorem not_fails_startSendingMessage (form : φ) (m : Messenger) :
    ¬ m.Fails (startSendingMessage con form m) := by
  rintro ⟨c, hc⟩
  unfold Messenger.startSendingMessage at hc
  dsimp only at hc
  split at hc
  · by_cases heq : c = m.started
    · simp [Messenger.setPost, started_synchronize, heq] at hc
    · simp [Messenger.setPost, started_synchronize, posts_synchronize, heq] at hc
  · simp [posts_synchronize] at hc

theorem sendable_of_fails (hstep : m.step con e = some m') (hfails : m.Fails m') :
    m'.Sendable := by
  cases e with
  | edit text =>
    obtain ⟨-, rfl⟩ := enabled hstep
    exact absurd hfails (not_fails_of_posts rfl)
  | sendMessage form =>
    obtain ⟨-, rfl⟩ := enabled hstep
    exact absurd hfails (not_fails_startSendingMessage con form m)
  | saveDocument =>
    obtain ⟨-, rfl⟩ := enabled hstep
    exact absurd hfails (not_fails_of_posts (posts_synchronize m))
  | redirect c status =>
    obtain ⟨-, rfl⟩ := enabled hstep
    unfold Messenger.redirect at hfails
    split at hfails
    · exact absurd hfails (not_fails_finished m (.inl rfl))
    · exact absurd hfails (not_fails_of_posts rfl)
  | didReceiveResponse c =>
    obtain ⟨-, rfl⟩ := enabled hstep
    exact absurd hfails (not_fails_of_posts rfl)
  | didReceiveData c data =>
    obtain ⟨-, rfl⟩ := enabled hstep
    obtain ⟨c', hc'⟩ := hfails
    by_cases heq : c' = c
    · simp [Messenger.didReceiveData, Messenger.setPost, heq] at hc'
    · simp [Messenger.didReceiveData, Messenger.setPost, heq] at hc'
  | didFinish c =>
    obtain ⟨-, rfl⟩ := enabled hstep
    unfold connectionDidFinishLoading at hfails ⊢
    split at hfails
    · exact absurd hfails (not_fails_finished _ (.inr rfl))
    · exact resourceDidFailLoading_sendable _ c _
  | didFail c =>
    obtain ⟨-, rfl⟩ := enabled hstep
    exact resourceDidFailLoading_sendable _ c false
  | sheetDidEnd tryAgain form =>
    obtain ⟨-, rfl⟩ := enabled hstep
    cases tryAgain with
    | true =>
      exact absurd hfails
        (not_fails_startSendingMessage con form { m with confirmations := m.confirmations - 1 })
    | false => exact absurd hfails (not_fails_of_posts rfl)

/-- A server that asks for a confirmation where it has nothing to say. -/
def confirming : Connector NSString :=
  ⟨fun name text => !(name ++ text).isEmpty, fun data => if data.isEmpty then .error true
    else .none⟩

end Messenger

end BathyScaphe.Reply
