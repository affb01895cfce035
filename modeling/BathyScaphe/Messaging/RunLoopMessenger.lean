import BathyScaphe.Lib.Run
import Mathlib.Data.List.Nodup

/-!
# The run loop messenger

Any number of sender threads send invocations to a port; the run loop of the
receiving thread takes them out and invokes them. A sender that wants the result
sleeps on the message's condition lock until the receiver has passed it.

A message is known by the ticket of its call. Its structure is copied into the
port message, so the receiver works on the invocation and the lock, and not on
the sender's memory. Each region under the lock is one step.
-/

namespace BathyScaphe.Messaging

-- Messages

inductive ResultCondition where
  | kNotReturnYet
  | kValueReturned
  deriving DecidableEq

/-- How far a message has come: made by its sender, sent or not, invoked by the
receiver, and then handled to the end or left by an exception. -/
inductive Phase where
  | unissued | made | sendFailed | queued
  | invoking
  | returned
  | signalled
  | handled | raised
  deriving DecidableEq

namespace Phase

def Sent : Phase → Prop
  | .unissued | .made | .sendFailed => False
  | _ => True

def Handling : Phase → Prop
  | .invoking | .returned | .signalled => True
  | _ => False

def Completed : Phase → Prop
  | .returned | .signalled | .handled => True
  | _ => False

/-- The handling has ended, normally or by an exception. -/
def Ended : Phase → Prop
  | .handled | .raised => True
  | _ => False

def Over : Phase → Prop
  | .sendFailed | .handled | .raised => True
  | _ => False

/-- The message was left by an exception of its sender or its receiver. -/
def Broken : Phase → Prop
  | .sendFailed | .raised => True
  | _ => False

end Phase

/-- `struct message_t` with the state of the invocation. `releases` counts the
releases of the retain that `invokeMessage:withResult:` hands to the receiver. -/
structure Message (κ ρ : Type) where
  owner : Option κ
  resultLock : Option ResultCondition
  phase : Phase
  returnValue : Option ρ
  releases : Nat

namespace Message

variable {κ ρ : Type}

def unissued : Message κ ρ := ⟨none, none, .unissued, none, 0⟩

/-- The lock is passed and the invocation released where the handler has come
to it, and nowhere else. -/
def Ok (message : Message κ ρ) : Prop :=
  match message.phase with
  | .signalled => message.resultLock ≠ some .kNotReturnYet ∧ message.releases = 0
  | .handled => message.resultLock ≠ some .kNotReturnYet ∧ message.releases = 1
  | _ => message.resultLock ≠ some .kValueReturned ∧ message.releases = 0

theorem Ok.completed {message : Message κ ρ} (hok : message.Ok)
    (hlock : message.resultLock = some .kValueReturned) : message.phase.Completed := by
  cases hphase : message.phase <;> simp [Ok, hphase, hlock] at hok <;> trivial

/-- Where a message is over, its invocation has been released unless the message
was left by an exception. -/
theorem Ok.releases_eq_one_iff {message : Message κ ρ} (hok : message.Ok)
    (hover : message.phase.Over) : message.releases = 1 ↔ ¬ message.phase.Broken := by
  cases hphase : message.phase <;> simp [Ok, Phase.Over, Phase.Broken, hphase] at * <;> simp [hok]

end Message

-- States and actions

/-- Where a sender is: out of the messenger, in front of the send, asleep on the
result lock, or behind it. -/
inductive SenderState where
  | idle
  | sending (m : Nat)
  | waiting (m : Nat)
  | finishing (m : Nat)
  deriving DecidableEq

/-- `handlers` is the stack of the messages being handled: an invocation may run
the run loop again. `sent`, `invoked` and `resumed` record the tickets so far, and
`results` what the calls have returned. -/
structure RunLoopMessenger (κ ρ : Type) where
  sender : κ → SenderState
  message : Nat → Message κ ρ
  nextTicket : Nat
  port : List Nat
  handlers : List Nat
  sent : List Nat
  invoked : List Nat
  resumed : List Nat
  results : List (Nat × Option ρ)

inductive SenderAction where
  | call (withResult : Bool)
  | send | sendFails
  | resume
  | finish
  deriving DecidableEq

inductive ReceiverAction (ρ : Type) where
  | receive
  | returns (value : Option ρ)
  | raises | signal | release

inductive MessengerAction (κ ρ : Type) where
  | sender (c : κ) (a : SenderAction)
  | receiver (a : ReceiverAction ρ)

namespace RunLoopMessenger

variable {κ ρ : Type}

def initial : RunLoopMessenger κ ρ where
  sender _ := .idle
  message _ := .unissued
  nextTicket := 0
  port := []
  handlers := []
  sent := []
  invoked := []
  resumed := []
  results := []

def phase (s : RunLoopMessenger κ ρ) (m : Nat) : Phase := (s.message m).phase

def setMessage (m : Nat) (message : Message κ ρ) (s : RunLoopMessenger κ ρ) :
    RunLoopMessenger κ ρ :=
  { s with message := Function.update s.message m message }

/-- The receiver is in the run loop: at its bottom or inside an invocation. -/
def inRunLoop (s : RunLoopMessenger κ ρ) : Bool :=
  match s.handlers with
  | [] => true
  | m :: _ => s.phase m = .invoking

/-- The handler on top of the stack goes on, where its message is in phase `p`. -/
def onTop (s : RunLoopMessenger κ ρ) (p : Phase)
    (next : Nat → List Nat → RunLoopMessenger κ ρ) : Option (RunLoopMessenger κ ρ) :=
  match s.handlers with
  | [] => none
  | m :: rest => if (s.message m).phase = p then some (next m rest) else none

theorem onTop_eq_some {s s' : RunLoopMessenger κ ρ} :
    onTop s p next = some s' ↔
      ∃ m rest, s.handlers = m :: rest ∧ (s.message m).phase = p ∧ s' = next m rest := by
  cases htop : s.handlers <;> simp [onTop, htop, eq_comm]

/-- `handlePortMessage:`. The run loop survives an exception of the invocation,
which leaves the handler at once. -/
def receiverStep (s : RunLoopMessenger κ ρ) :
    ReceiverAction ρ → Option (RunLoopMessenger κ ρ)
  | .receive =>
    match s.port with
    | [] => none
    | m :: port =>
      if s.inRunLoop then
        some (setMessage m { s.message m with phase := .invoking }
          { s with port := port, handlers := m :: s.handlers, invoked := s.invoked ++ [m] })
      else none
  | .returns value => onTop s .invoking fun m _ =>
      setMessage m { s.message m with phase := .returned, returnValue := value } s
  | .raises => onTop s .invoking fun m rest =>
      setMessage m { s.message m with phase := .raised } { s with handlers := rest }
  | .signal => onTop s .returned fun m _ =>
      setMessage m { s.message m with
        phase := .signalled
        resultLock := (s.message m).resultLock.map fun _ => .kValueReturned } s
  | .release => onTop s .signalled fun m rest =>
      setMessage m { s.message m with
        phase := .handled
        releases := (s.message m).releases + 1 } { s with handlers := rest }

theorem receiverStep_receive {s : RunLoopMessenger κ ρ} (hport : s.port = m :: queue)
    (hloop : s.inRunLoop = true) :
    receiverStep s .receive = some (setMessage m { s.message m with phase := .invoking }
      { s with port := queue, handlers := m :: s.handlers, invoked := s.invoked ++ [m] }) := by
  simp [receiverStep, hport, hloop]

variable [DecidableEq κ]

def setSender (c : κ) (state : SenderState) (s : RunLoopMessenger κ ρ) : RunLoopMessenger κ ρ :=
  { s with sender := Function.update s.sender c state }

/-- `target:performSelector:withObject:withObject:withResult:` around
`invokeMessage:withResult:`. A failed send raises an exception through both. -/
def senderStep (c : κ) (s : RunLoopMessenger κ ρ) :
    SenderAction → Option (RunLoopMessenger κ ρ)
  | .call withResult =>
    match s.sender c with
    | .idle =>
      some (setSender c (.sending s.nextTicket) (setMessage s.nextTicket
        { owner := some c
          resultLock := if withResult then some .kNotReturnYet else none
          phase := .made
          returnValue := none
          releases := 0 } { s with nextTicket := s.nextTicket + 1 }))
    | _ => none
  | .send =>
    match s.sender c with
    | .sending m =>
      some (setSender c (if (s.message m).resultLock.isSome then .waiting m else .finishing m)
        (setMessage m { s.message m with phase := .queued }
          { s with port := s.port ++ [m], sent := s.sent ++ [m] }))
    | _ => none
  | .sendFails =>
    match s.sender c with
    | .sending m =>
      some (setSender c .idle (setMessage m { s.message m with phase := .sendFailed } s))
    | _ => none
  | .resume =>
    match s.sender c with
    | .waiting m =>
      if (s.message m).resultLock = some .kValueReturned then
        some (setSender c (.finishing m) { s with resumed := s.resumed ++ [m] })
      else none
    | _ => none
  | .finish =>
    match s.sender c with
    | .finishing m =>
      some (setSender c .idle { s with results := s.results ++
        [(m, if (s.message m).resultLock.isSome then (s.message m).returnValue else none)] })
    | _ => none

def step (s : RunLoopMessenger κ ρ) : MessengerAction κ ρ → Option (RunLoopMessenger κ ρ)
  | .sender c a => senderStep c s a
  | .receiver a => receiverStep s a

-- What holds in every state

omit [DecidableEq κ] in
theorem phase_setMessage (s : RunLoopMessenger κ ρ) :
    (setMessage m msg s).phase k = if k = m then msg.phase else s.phase k := by
  simp only [phase, setMessage, Function.update_apply]
  split <;> rfl

def SenderOk (s : RunLoopMessenger κ ρ) (c : κ) : SenderState → Prop
  | .sending m => s.phase m = .made ∧ (s.message m).owner = some c ∧
      ∀ k ∈ s.sent, (s.message k).owner = some c → k < m
  | .waiting m => (s.message m).resultLock.isSome ∧ (s.phase m).Sent
  | .idle | .finishing _ => True

/-- Of two messages of one sender, the first was called first. -/
def InCallOrder (s : RunLoopMessenger κ ρ) (tickets : List Nat) : Prop :=
  tickets.Pairwise fun m k => (s.message m).owner = (s.message k).owner → m < k

structure Ok (s : RunLoopMessenger κ ρ) : Prop where
  queue : s.invoked ++ s.port = s.sent
  nodup : s.sent.Nodup
  issued : ∀ m, s.phase m ≠ .unissued → m < s.nextTicket
  sent : ∀ m, m ∈ s.sent ↔ (s.phase m).Sent
  port : ∀ m ∈ s.port, s.phase m = .queued
  nested : s.handlers.Nodup
  handlers : ∀ m ∈ s.handlers, (s.phase m).Handling
  order : s.InCallOrder s.sent
  message : ∀ m, (s.message m).Ok
  sender : ∀ c, s.SenderOk c (s.sender c)
  resumed : ∀ m ∈ s.resumed, (s.phase m).Completed

omit [DecidableEq κ] in
theorem ok_initial : Ok (initial : RunLoopMessenger κ ρ) where
  queue := rfl
  nodup := List.nodup_nil
  issued := by simp [initial, phase, Message.unissued]
  sent := by simp [initial, phase, Message.unissued, Phase.Sent]
  port := by simp [initial]
  nested := List.nodup_nil
  handlers := by simp [initial]
  order := List.Pairwise.nil
  message := by simp [initial, Message.unissued, Message.Ok]
  sender := by simp [initial, SenderOk]
  resumed := by simp [initial]

omit [DecidableEq κ] in
theorem owner_setMessage {s : RunLoopMessenger κ ρ} (howner : msg.owner = (s.message m).owner)
    (k : Nat) : ((setMessage m msg s).message k).owner = (s.message k).owner := by
  simp only [setMessage, Function.update_apply]
  split
  · next heq => rw [heq, howner]
  · rfl

section
variable {s : RunLoopMessenger κ ρ} {msg : Message κ ρ} {port handlers invoked : List Nat}

omit [DecidableEq κ] in
theorem SenderOk.advance (hc : s.SenderOk c state) (hm : (s.phase m).Sent)
    (howner : msg.owner = (s.message m).owner)
    (hlock : msg.resultLock.isSome = (s.message m).resultLock.isSome) (hsent : msg.phase.Sent) :
    (setMessage m msg s).SenderOk c state := by
  have howners := owner_setMessage howner
  cases state with
  | idle | finishing k => trivial
  | sending k =>
    obtain ⟨hmade, hfrom, hlast⟩ := hc
    have hne : k ≠ m := by
      rintro rfl
      rw [hmade] at hm
      exact hm
    refine ⟨?_, (howners k).trans hfrom, fun j hj h => hlast j hj ((howners j).symm.trans h)⟩
    rwa [phase_setMessage, if_neg hne]
  | waiting k =>
    obtain ⟨hsome, hk⟩ := hc
    simp only [SenderOk, phase_setMessage]
    simp only [setMessage, Function.update_apply]
    split
    · next heq => exact ⟨by rw [hlock, ← heq, hsome], hsent⟩
    · exact ⟨hsome, hk⟩

omit [DecidableEq κ] in
theorem Ok.advance (hok : Ok s) (hm : (s.phase m).Sent)
    (howner : msg.owner = (s.message m).owner)
    (hlock : msg.resultLock.isSome = (s.message m).resultLock.isSome) (hsent : msg.phase.Sent)
    (hcompleted : (s.phase m).Completed → msg.phase.Completed) (hmsg : msg.Ok)
    (hqueue : invoked ++ port = s.sent)
    (hport : ∀ k ∈ port, k ≠ m ∧ s.phase k = .queued) (hnested : handlers.Nodup)
    (hhandlers : ∀ k ∈ handlers, if k = m then msg.phase.Handling else (s.phase k).Handling) :
    Ok (setMessage m msg { s with port := port, handlers := handlers, invoked := invoked }) := by
  refine ⟨hqueue, hok.nodup, ?_, ?_, ?_, hnested, ?_, ?_, ?_, ?_, ?_⟩
  · intro k hk
    rw [phase_setMessage] at hk
    split at hk
    · next heq =>
      refine hok.issued k fun hphase => ?_
      rw [← heq, hphase] at hm
      exact hm
    · exact hok.issued k hk
  · intro k
    rw [phase_setMessage]
    split
    · next heq => exact iff_of_true ((hok.sent k).mpr (heq ▸ hm)) hsent
    · exact hok.sent k
  · intro k hk
    obtain ⟨hne, hqueued⟩ := hport k hk
    rwa [phase_setMessage, if_neg hne]
  · intro k hk
    have hhandling := hhandlers k hk
    rw [phase_setMessage]
    split at hhandling
    · next heq => rwa [if_pos heq]
    · next hne => rwa [if_neg hne]
  · have howners := owner_setMessage howner
    exact hok.order.imp fun h heq => h ((howners _).symm.trans (heq.trans (howners _)))
  · intro k
    simp only [setMessage, Function.update_apply]
    split
    · exact hmsg
    · exact hok.message k
  · exact fun c => (hok.sender c).advance hm howner hlock hsent
  · intro k hk
    have hk := hok.resumed k hk
    rw [phase_setMessage]
    split
    · next heq => exact hcompleted (heq ▸ hk)
    · exact hk

end

variable {s s' : RunLoopMessenger κ ρ}

omit [DecidableEq κ] in
theorem Ok.top (hok : Ok s) (htop : s.handlers = m :: rest) :
    (s.phase m).Handling ∧ m ∉ rest ∧ rest.Nodup ∧ (∀ k ∈ rest, (s.phase k).Handling) := by
  have hnested := hok.nested
  have hall := hok.handlers
  simp only [htop, List.nodup_cons, List.forall_mem_cons] at hnested hall
  exact ⟨hall.1, hnested.1, hnested.2, hall.2⟩

omit [DecidableEq κ] in
/-- The handler on top of the stack moves on within the handler, or leaves it. -/
theorem Ok.advance_top (hok : Ok s) (htop : s.handlers = m :: rest) {msg : Message κ ρ}
    (howner : msg.owner = (s.message m).owner)
    (hlock : msg.resultLock.isSome = (s.message m).resultLock.isSome) (hsent : msg.phase.Sent)
    (hcompleted : (s.phase m).Completed → msg.phase.Completed) (hmsg : msg.Ok)
    (hstack : stack = s.handlers ∧ msg.phase.Handling ∨ stack = rest) :
    Ok (setMessage m msg { s with handlers := stack }) := by
  obtain ⟨hhandling, hnot, hnodup, hrest⟩ := hok.top htop
  have hm : (s.phase m).Sent := by
    cases hphase : s.phase m <;> simp [hphase, Phase.Handling] at hhandling <;> trivial
  have hport : ∀ k ∈ s.port, k ≠ m ∧ s.phase k = .queued := by
    intro k hk
    have hqueued := hok.port k hk
    refine ⟨?_, hqueued⟩
    rintro rfl
    simp [hqueued, Phase.Handling] at hhandling
  have hbelow : ∀ k ∈ rest, if k = m then msg.phase.Handling else (s.phase k).Handling := by
    intro k hk
    have hne : k ≠ m := by
      rintro rfl
      exact hnot hk
    simpa [hne] using hrest k hk
  rcases hstack with ⟨rfl, hstays⟩ | rfl
  · refine hok.advance hm howner hlock hsent hcompleted hmsg hok.queue hport hok.nested ?_
    rw [htop]
    exact List.forall_mem_cons.mpr ⟨by simpa using hstays, hbelow⟩
  · exact hok.advance hm howner hlock hsent hcompleted hmsg hok.queue hport hnodup hbelow

omit [DecidableEq κ] in
theorem receiverStep_ok (hok : Ok s) (h : receiverStep s a = some s') : Ok s' := by
  cases a with
  | receive =>
    cases hport : s.port with
    | nil => simp [receiverStep, hport] at h
    | cons m port =>
      simp only [receiverStep, hport, Option.ite_none_right_eq_some, Option.some.injEq] at h
      obtain ⟨-, rfl⟩ := h
      have hqueued : ∀ k ∈ m :: port, s.phase k = .queued := hport ▸ hok.port
      have hphase : s.phase m = .queued := hqueued m List.mem_cons_self
      have hmsg := hok.message m
      have hnot : m ∉ s.handlers := by
        intro hm
        have hhandling := hok.handlers m hm
        rw [hphase] at hhandling
        exact hhandling
      have hdistinct : m ∉ port := by
        have hnodup := hok.nodup
        rw [← hok.queue, hport] at hnodup
        exact (List.nodup_cons.mp hnodup.of_append_right).1
      refine hok.advance (by simp [hphase, Phase.Sent]) rfl rfl trivial
        (by simp [hphase, Phase.Completed]) ?_ ?_ ?_ (List.nodup_cons.mpr ⟨hnot, hok.nested⟩) ?_
      · rw [phase] at hphase
        simpa [Message.Ok, hphase] using hmsg
      · rw [List.append_assoc, List.singleton_append, ← hport, hok.queue]
      · intro k hk
        refine ⟨?_, hqueued k (List.mem_cons_of_mem m hk)⟩
        rintro rfl
        exact hdistinct hk
      · refine List.forall_mem_cons.mpr ⟨by simp [Phase.Handling], fun k hk => ?_⟩
        split
        · trivial
        · exact hok.handlers k hk
  | returns value =>
    obtain ⟨m, rest, htop, hphase, rfl⟩ := onTop_eq_some.mp h
    have hmsg := hok.message m
    refine hok.advance_top htop rfl rfl trivial (fun _ => trivial) ?_ (.inl ⟨rfl, trivial⟩)
    simpa [Message.Ok, hphase] using hmsg
  | raises =>
    obtain ⟨m, rest, htop, hphase, rfl⟩ := onTop_eq_some.mp h
    have hmsg := hok.message m
    refine hok.advance_top htop rfl rfl trivial ?_ ?_ (.inr rfl)
    · simp [phase, hphase, Phase.Completed]
    · simpa [Message.Ok, hphase] using hmsg
  | signal =>
    obtain ⟨m, rest, htop, hphase, rfl⟩ := onTop_eq_some.mp h
    have hmsg := hok.message m
    refine hok.advance_top htop rfl (by simp) trivial (fun _ => trivial) ?_ (.inl ⟨rfl, trivial⟩)
    simp only [Message.Ok, hphase] at hmsg ⊢
    cases (s.message m).resultLock <;> simp [hmsg.2]
  | release =>
    obtain ⟨m, rest, htop, hphase, rfl⟩ := onTop_eq_some.mp h
    have hmsg := hok.message m
    refine hok.advance_top htop rfl rfl trivial (fun _ => trivial) ?_ (.inr rfl)
    simpa [Message.Ok, hphase] using hmsg

omit [DecidableEq κ] in
theorem Ok.phase_nextTicket (hok : Ok s) : s.phase s.nextTicket = .unissued := by
  by_contra hphase
  exact Nat.lt_irrefl _ (hok.issued _ hphase)

omit [DecidableEq κ] in
theorem Ok.fresh (hok : Ok s) (hm : ¬ (s.phase m).Sent) :
    (∀ k ∈ s.sent, k ≠ m) ∧ (∀ k ∈ s.port, k ≠ m) ∧ (∀ k ∈ s.handlers, k ≠ m) ∧
      ∀ k ∈ s.resumed, k ≠ m := by
  refine ⟨?_, ?_, ?_, ?_⟩
  · rintro k hk rfl
    exact hm ((hok.sent k).mp hk)
  · rintro k hk rfl
    rw [hok.port k hk] at hm
    exact hm trivial
  · rintro k hk rfl
    have hhandling := hok.handlers k hk
    cases hphase : s.phase k <;> simp [hphase, Phase.Handling, Phase.Sent] at hhandling hm
  · rintro k hk rfl
    have hcompleted := hok.resumed k hk
    cases hphase : s.phase k <;> simp [hphase, Phase.Completed, Phase.Sent] at hcompleted hm

omit [DecidableEq κ] in
theorem SenderOk.frame (hok : Ok s) (hc : s.SenderOk c state) (hm : ¬ (s.phase m).Sent)
    (hne : ∀ k, state = .sending k → k ≠ m) : (setMessage m msg s).SenderOk c state := by
  have hsent := (hok.fresh hm).1
  cases state with
  | idle | finishing k => trivial
  | sending k =>
    obtain ⟨hmade, hfrom, hlast⟩ := hc
    have hk := hne k rfl
    refine ⟨?_, ?_, fun j hj h => hlast j hj ?_⟩
    · rwa [phase_setMessage, if_neg hk]
    · simpa [setMessage, Function.update_of_ne hk] using hfrom
    · simpa [setMessage, Function.update_of_ne (hsent j hj)] using h
  | waiting k =>
    obtain ⟨hsome, hk⟩ := hc
    have hkm : k ≠ m := by
      rintro rfl
      exact hm hk
    refine ⟨?_, ?_⟩
    · simpa [setMessage, Function.update_of_ne hkm] using hsome
    · rwa [phase_setMessage, if_neg hkm]

omit [DecidableEq κ] in
theorem Ok.setFresh (hok : Ok s) (hm : ¬ (s.phase m).Sent) {msg : Message κ ρ} (hmsg : msg.Ok)
    (hfresh : ¬ msg.phase.Sent) (hnext : s.nextTicket ≤ n) (hlt : m < n)
    (hsender : ∀ c, (setMessage m msg s).SenderOk c (state c)) :
    Ok { setMessage m msg s with nextTicket := n, sender := state } := by
  obtain ⟨hsent, hport, hhandlers, hresumed⟩ := hok.fresh hm
  have hphase : ∀ k, k ≠ m → (setMessage m msg s).phase k = s.phase k := by
    intro k hk
    rw [phase_setMessage, if_neg hk]
  refine ⟨hok.queue, hok.nodup, ?_, ?_, ?_, hok.nested, ?_, ?_, ?_, hsender, ?_⟩
  · intro k hk
    by_cases heq : k = m
    · exact heq ▸ hlt
    · exact Nat.lt_of_lt_of_le (hok.issued k (hphase k heq ▸ hk)) hnext
  · intro k
    change k ∈ s.sent ↔ ((setMessage m msg s).phase k).Sent
    rw [phase_setMessage]
    split
    · next heq => exact iff_of_false (fun hk => hsent k hk heq) hfresh
    · exact hok.sent k
  · exact fun k hk => (hphase k (hport k hk)).trans (hok.port k hk)
  · intro k hk
    change ((setMessage m msg s).phase k).Handling
    rw [hphase k (hhandlers k hk)]
    exact hok.handlers k hk
  · refine hok.order.imp_of_mem fun {j k} hj hk h => ?_
    simpa [setMessage, Function.update_of_ne (hsent j hj), Function.update_of_ne (hsent k hk)]
      using h
  · intro k
    simp only [setMessage, Function.update_apply]
    split
    · exact hmsg
    · exact hok.message k
  · intro k hk
    change ((setMessage m msg s).phase k).Completed
    rw [hphase k (hresumed k hk)]
    exact hok.resumed k hk

omit [DecidableEq κ] in
theorem SenderOk.frame_sent (hok : Ok s) (hd : s.SenderOk d state) (hm : ¬ (s.phase m).Sent)
    (hne : d ≠ c) (hfrom : (s.message m).owner = some c) {msg : Message κ ρ}
    (howner : msg.owner = (s.message m).owner) (port : List Nat) :
    (setMessage m msg { s with port := port, sent := s.sent ++ [m] }).SenderOk d state := by
  have hdiff : ∀ k, state = .sending k → k ≠ m := by
    rintro k rfl rfl
    exact hne (Option.some.inj (hd.2.1.symm.trans hfrom))
  have hframe : (setMessage m msg s).SenderOk d state := hd.frame hok hm hdiff
  cases state with
  | idle | finishing k => trivial
  | waiting k => exact hframe
  | sending k =>
    obtain ⟨hmade, hk, hlast⟩ := hframe
    refine ⟨hmade, hk, fun j hj h => ?_⟩
    rcases List.mem_append.mp hj with hj | hj
    · exact hlast j hj h
    · obtain rfl := List.mem_singleton.mp hj
      have howners := owner_setMessage howner j
      exact absurd (Option.some.inj (h.symm.trans (howners.trans hfrom))) hne

theorem Ok.send (hok : Ok s) (hc : s.sender c = .sending m) {msg : Message κ ρ}
    (howner : msg.owner = (s.message m).owner) (hqueued : msg.phase = .queued) (hmsg : msg.Ok)
    (hstate : state = .waiting m ∧ msg.resultLock.isSome ∨ state = .finishing m) :
    Ok (setSender c state (setMessage m msg
      { s with port := s.port ++ [m], sent := s.sent ++ [m] })) := by
  have hsender := hok.sender c
  simp only [hc, SenderOk] at hsender
  obtain ⟨hmade, hfrom, hlast⟩ := hsender
  have hm : ¬ (s.phase m).Sent := by simp [hmade, Phase.Sent]
  obtain ⟨hsent, hport, hhandlers, hresumed⟩ := hok.fresh hm
  have howners := owner_setMessage howner
  have hself : (setMessage m msg s).phase m = .queued := by
    rw [phase_setMessage, if_pos rfl, hqueued]
  have hphase : ∀ k, k ≠ m → (setMessage m msg s).phase k = s.phase k := by
    intro k hk
    rw [phase_setMessage, if_neg hk]
  refine ⟨?_, ?_, ?_, ?_, ?_, hok.nested, ?_, ?_, ?_, ?_, ?_⟩
  · exact (List.append_assoc ..).symm.trans (congrArg (· ++ [m]) hok.queue)
  · exact List.nodup_append.mpr ⟨hok.nodup, List.nodup_singleton m, by simpa using hsent⟩
  · intro k hk
    by_cases heq : k = m
    · exact hok.issued k (by simp [heq, hmade])
    · exact hok.issued k (hphase k heq ▸ hk)
  · intro k
    change k ∈ s.sent ++ [m] ↔ ((setMessage m msg s).phase k).Sent
    rw [phase_setMessage, List.mem_append, List.mem_singleton]
    split
    · next heq => exact iff_of_true (.inr heq) (by simp [hqueued, Phase.Sent])
    · next hne => simpa [hne] using hok.sent k
  · intro k hk
    change (setMessage m msg s).phase k = .queued
    rcases List.mem_append.mp hk with hk | hk
    · rw [hphase k (hport k hk), hok.port k hk]
    · rw [List.mem_singleton.mp hk, hself]
  · intro k hk
    change ((setMessage m msg s).phase k).Handling
    rw [hphase k (hhandlers k hk)]
    exact hok.handlers k hk
  · have horder : (setMessage m msg s).InCallOrder s.sent :=
      hok.order.imp fun h heq => h ((howners _).symm.trans (heq.trans (howners _)))
    refine List.pairwise_append.mpr ⟨horder, List.pairwise_singleton _ m, ?_⟩
    intro j hj k hk heq
    rw [List.mem_singleton.mp hk] at heq ⊢
    exact hlast j hj ((howners j).symm.trans (heq.trans ((howners m).trans hfrom)))
  · intro k
    simp only [setSender, setMessage, Function.update_apply]
    split
    · exact hmsg
    · exact hok.message k
  · refine (Function.forall_update_iff s.sender (SenderOk _)).mpr ⟨?_, fun d hd => ?_⟩
    · rcases hstate with ⟨rfl, hlock⟩ | rfl
      · refine ⟨by simpa [setSender, setMessage] using hlock, ?_⟩
        change ((setMessage m msg s).phase m).Sent
        rw [hself]
        trivial
      · trivial
    · exact (hok.sender d).frame_sent hok hm hd hfrom howner _
  · intro k hk
    change ((setMessage m msg s).phase k).Completed
    rw [hphase k (hresumed k hk)]
    exact hok.resumed k hk

theorem Ok.setSender (hok : Ok s) (hc : s.SenderOk c state) {tickets : List Nat}
    (hresumed : ∀ m ∈ tickets, (s.phase m).Completed) (values : List (Nat × Option ρ)) :
    Ok (setSender c state { s with resumed := tickets, results := values }) where
  queue := hok.queue
  nodup := hok.nodup
  issued := hok.issued
  sent := hok.sent
  port := hok.port
  nested := hok.nested
  handlers := hok.handlers
  order := hok.order
  message := hok.message
  sender := (Function.forall_update_iff s.sender (SenderOk _)).mpr ⟨hc, fun d _ => hok.sender d⟩
  resumed := hresumed

theorem senderStep_ok (hok : Ok s) (h : senderStep c s a = some s') : Ok s' := by
  have hc := hok.sender c
  cases a with
  | call withResult =>
    cases hstate : s.sender c <;> simp only [senderStep, hstate] at h <;> cases h
    have hphase := hok.phase_nextTicket
    have hm : ¬ (s.phase s.nextTicket).Sent := by simp [hphase, Phase.Sent]
    refine hok.setFresh hm ?_ (by simp [Phase.Sent]) (Nat.le_succ _) (Nat.lt_succ_self _) ?_
    · cases withResult <;> simp [Message.Ok]
    · refine (Function.forall_update_iff s.sender (SenderOk _)).mpr ⟨?_, fun d _ => ?_⟩
      · refine ⟨by simp [phase_setMessage], by simp [setMessage], fun k hk _ => hok.issued k ?_⟩
        intro hunissued
        have hsent := (hok.sent k).mp hk
        rw [hunissued] at hsent
        exact hsent
      · refine (hok.sender d).frame hok hm fun k hk heq => ?_
        have hd := hok.sender d
        rw [hk, heq] at hd
        simp [SenderOk, hphase] at hd
  | send =>
    cases hstate : s.sender c with
    | sending m =>
      simp only [senderStep, hstate] at h
      obtain rfl := Option.some.inj h
      have hmsg := hok.message m
      rw [hstate] at hc
      have hmade : (s.message m).phase = .made := hc.1
      refine hok.send hstate rfl rfl ?_ ?_
      · simpa [Message.Ok, hmade] using hmsg
      · cases hlock : (s.message m).resultLock <;> simp
    | idle | waiting k | finishing k => simp [senderStep, hstate] at h
  | sendFails =>
    cases hstate : s.sender c with
    | sending m =>
      simp only [senderStep, hstate] at h
      obtain rfl := Option.some.inj h
      have hmsg := hok.message m
      rw [hstate] at hc
      obtain ⟨hmade, hfrom, -⟩ := hc
      have hmade' : (s.message m).phase = .made := hmade
      have hm : ¬ (s.phase m).Sent := by simp [hmade, Phase.Sent]
      refine hok.setFresh hm ?_ (by simp [Phase.Sent]) (Nat.le_refl _)
        (hok.issued m (by simp [hmade])) ?_
      · simpa [Message.Ok, hmade'] using hmsg
      · refine (Function.forall_update_iff s.sender (SenderOk _)).mpr ⟨trivial, fun d hd => ?_⟩
        refine (hok.sender d).frame hok hm fun k hk heq => hd ?_
        have hown := hok.sender d
        rw [hk, heq] at hown
        exact Option.some.inj (hown.2.1.symm.trans hfrom)
    | idle | waiting k | finishing k => simp [senderStep, hstate] at h
  | resume =>
    cases hstate : s.sender c with
    | waiting m =>
      simp only [senderStep, hstate, Option.ite_none_right_eq_some, Option.some.injEq] at h
      obtain ⟨hlock, rfl⟩ := h
      have hfinishing : s.SenderOk c (.finishing m) := trivial
      refine hok.setSender hfinishing (fun k hk => ?_) _
      rcases List.mem_append.mp hk with hk | hk
      · exact hok.resumed k hk
      · rw [List.mem_singleton.mp hk]
        exact (hok.message m).completed hlock
    | idle | sending k | finishing k => simp [senderStep, hstate] at h
  | finish =>
    cases hstate : s.sender c with
    | finishing m =>
      simp only [senderStep, hstate] at h
      obtain rfl := Option.some.inj h
      have hidle : s.SenderOk c .idle := trivial
      exact hok.setSender hidle hok.resumed _
    | idle | sending k | waiting k => simp [senderStep, hstate] at h

theorem step_ok (hok : Ok s) (h : step s a = some s') : Ok s' := by
  cases a with
  | sender c a => exact senderStep_ok hok h
  | receiver a => exact receiverStep_ok hok h

theorem run_reachable (hrun : Run.run step initial actions = some s) : Ok s :=
  Run.run_invariant (fun hok h => step_ok hok h) hrun ok_initial

end RunLoopMessenger

end BathyScaphe.Messaging
