import BathyScaphe.Messaging.RunLoopMessenger

/-!
# Delivery of messages

Whatever the interleaving, every message that was sent is invoked once and in
order, and a sender that waits goes on only after its invocation has returned.
The rest of the contract depends on the two places where an exception leaves the
code between a retain and its release: a failed send and an invocation that
raises. A message left there is never released, and a sender that waits for the
second kind sleeps for ever.
-/

namespace BathyScaphe.Messaging.RunLoopMessenger

variable {κ ρ : Type} [DecidableEq κ] {s s' : RunLoopMessenger κ ρ}

-- Messages left by an exception

/-- A send that fails or an invocation that raises. -/
def Raises : MessengerAction κ ρ → Prop
  | .sender _ .sendFails => True
  | .receiver .raises => True
  | _ => False

def HasBroken (s : RunLoopMessenger κ ρ) : Prop := ∃ m, (s.phase m).Broken

omit [DecidableEq κ] in
theorem hasBroken_setMessage (hphase : s.phase m = p) (hp : ¬ p.Broken) :
    (setMessage m msg s).HasBroken ↔ s.HasBroken ∨ msg.phase.Broken := by
  constructor
  · rintro ⟨k, hk⟩
    rw [phase_setMessage] at hk
    split at hk
    · exact .inr hk
    · exact .inl ⟨k, hk⟩
  · rintro (⟨k, hk⟩ | hmsg)
    · have hne : k ≠ m := by
        rintro rfl
        exact hp (hphase ▸ hk)
      exact ⟨k, by rwa [phase_setMessage, if_neg hne]⟩
    · exact ⟨m, by rwa [phase_setMessage, if_pos rfl]⟩

omit [DecidableEq κ] in
theorem receiverStep_hasBroken (hok : Ok s) (h : receiverStep s a = some s') :
    s'.HasBroken ↔ s.HasBroken ∨ Raises (.receiver a : MessengerAction κ ρ) := by
  cases a with
  | receive =>
    cases hport : s.port with
    | nil => simp [receiverStep, hport] at h
    | cons m port =>
      simp only [receiverStep, hport, Option.ite_none_right_eq_some, Option.some.injEq] at h
      obtain ⟨-, rfl⟩ := h
      have hphase : s.phase m = .queued := hok.port m (by simp [hport])
      exact hasBroken_setMessage hphase id
  | returns value | raises | signal | release =>
    obtain ⟨m, rest, -, hphase, rfl⟩ := onTop_eq_some.mp h
    exact hasBroken_setMessage hphase id

theorem senderStep_hasBroken (hok : Ok s) (h : senderStep c s a = some s') :
    s'.HasBroken ↔ s.HasBroken ∨ Raises (.sender c a : MessengerAction κ ρ) := by
  have hc := hok.sender c
  cases a with
  | call withResult =>
    cases hstate : s.sender c <;> simp only [senderStep, hstate] at h <;> cases h
    exact hasBroken_setMessage hok.phase_nextTicket id
  | send | sendFails =>
    cases hstate : s.sender c <;> simp only [senderStep, hstate] at h <;> cases h
    rw [hstate] at hc
    exact hasBroken_setMessage hc.1 id
  | resume =>
    cases hstate : s.sender c <;> simp only [senderStep, hstate, reduceCtorEq] at h
    simp only [Option.ite_none_right_eq_some, Option.some.injEq] at h
    obtain ⟨-, rfl⟩ := h
    exact (or_false _).symm.to_iff
  | finish =>
    cases hstate : s.sender c <;> simp only [senderStep, hstate] at h <;> cases h
    exact (or_false _).symm.to_iff

/-- A message is left by an exception exactly in a run with a step that raises. -/
theorem run_hasBroken (hok : Ok s) (hrun : Run.run step s actions = some s') :
    s'.HasBroken ↔ s.HasBroken ∨ ∃ a ∈ actions, Raises a := by
  induction actions generalizing s with
  | nil =>
    obtain rfl := Option.some.inj hrun
    simp
  | cons a actions ih =>
    obtain ⟨s₁, h₁, hrun⟩ := Run.run_cons.mp hrun
    have hstep : s₁.HasBroken ↔ s.HasBroken ∨ Raises a := by
      cases a with
      | sender c a => exact senderStep_hasBroken hok h₁
      | receiver a => exact receiverStep_hasBroken hok h₁
    rw [ih (step_ok hok h₁) hrun, hstep, or_assoc, List.exists_mem_cons_iff]

-- The port can be emptied

def Receives (s s' : RunLoopMessenger κ ρ) : Prop :=
  ∃ actions : List (ReceiverAction ρ), Run.run step s (actions.map .receiver) = some s'

theorem Receives.refl (s : RunLoopMessenger κ ρ) : Receives s s := ⟨[], rfl⟩

theorem Receives.head (h : receiverStep s a = some s₁) (hrest : Receives s₁ s') :
    Receives s s' := by
  obtain ⟨actions, hrun⟩ := hrest
  exact ⟨a :: actions, Run.run_cons.mpr ⟨s₁, h, hrun⟩⟩

theorem Receives.ok (hok : Ok s) (h : Receives s s') : Ok s' := by
  obtain ⟨actions, hrun⟩ := h
  exact Run.run_invariant (fun hok h => step_ok hok h) hrun hok

theorem Receives.trans (h : Receives s s₁) (h' : Receives s₁ s') : Receives s s' := by
  obtain ⟨actions, hrun⟩ := h
  obtain ⟨actions', hrun'⟩ := h'
  refine ⟨actions ++ actions', ?_⟩
  rw [List.map_append]
  exact Run.run_append.mpr ⟨s₁, hrun, hrun'⟩

/-- A state without the handler on top of the stack. -/
def CanPop (s : RunLoopMessenger κ ρ) (rest : List Nat) : Prop :=
  ∃ s', Receives s s' ∧ s'.handlers = rest ∧ s'.port = s.port ∧ s'.sent = s.sent

theorem CanPop.head (h : receiverStep s a = some s₁) (hport : s₁.port = s.port)
    (hsent : s₁.sent = s.sent) (hpop : CanPop s₁ rest) : CanPop s rest := by
  obtain ⟨s', hs', hhandlers, hport', hsent'⟩ := hpop
  exact ⟨s', hs'.head h, hhandlers, hport'.trans hport, hsent'.trans hsent⟩

theorem canPop_of_signalled (htop : s.handlers = m :: rest) (hphase : s.phase m = .signalled) :
    CanPop s rest := by
  have hstep : receiverStep s .release = some _ :=
    onTop_eq_some.mpr ⟨m, rest, htop, hphase, rfl⟩
  exact ⟨_, (Receives.refl _).head hstep, rfl, rfl, rfl⟩

theorem canPop_of_returned (htop : s.handlers = m :: rest) (hphase : s.phase m = .returned) :
    CanPop s rest := by
  have hstep : receiverStep s .signal = some _ :=
    onTop_eq_some.mpr ⟨m, rest, htop, hphase, rfl⟩
  refine CanPop.head hstep rfl rfl (canPop_of_signalled htop ?_)
  rw [phase_setMessage, if_pos rfl]

theorem canPop_of_invoking (htop : s.handlers = m :: rest) (hphase : s.phase m = .invoking) :
    CanPop s rest := by
  have hstep : receiverStep s (.returns none) = some _ :=
    onTop_eq_some.mpr ⟨m, rest, htop, hphase, rfl⟩
  refine CanPop.head hstep rfl rfl (canPop_of_returned htop ?_)
  rw [phase_setMessage, if_pos rfl]

theorem Ok.canPop (hok : Ok s) (htop : s.handlers = m :: rest) : CanPop s rest := by
  have hhandling := (hok.top htop).1
  cases hphase : s.phase m with
  | invoking => exact canPop_of_invoking htop hphase
  | returned => exact canPop_of_returned htop hphase
  | signalled => exact canPop_of_signalled htop hphase
  | unissued | made | sendFailed | queued | handled | raised =>
    rw [hphase] at hhandling
    exact hhandling.elim

theorem Ok.canPop_all (hok : Ok s) : CanPop s [] := by
  generalize hstack : s.handlers = handlers
  induction handlers generalizing s with
  | nil => exact ⟨s, .refl s, hstack, rfl, rfl⟩
  | cons m rest ih =>
    obtain ⟨s₁, h₁, hhandlers, hport, hsent⟩ := hok.canPop hstack
    obtain ⟨s', h', hhandlers', hport', hsent'⟩ := ih (h₁.ok hok) hhandlers
    exact ⟨s', h₁.trans h', hhandlers', hport'.trans hport, hsent'.trans hsent⟩

theorem Ok.drains (hok : Ok s) : ∃ s', Receives s s' ∧ s'.invoked = s.sent := by
  generalize hqueued : s.port = port
  induction port generalizing s with
  | nil =>
    have hqueue := hok.queue
    rw [hqueued, List.append_nil] at hqueue
    exact ⟨s, .refl s, hqueue⟩
  | cons m port ih =>
    obtain ⟨s₁, h₁, hhandlers, hport, hsent⟩ := hok.canPop_all
    have hstep := receiverStep_receive (hport.trans hqueued) (by simp [inRunLoop, hhandlers])
    have hok₁ := h₁.ok hok
    obtain ⟨s', h', hinvoked⟩ := ih (receiverStep_ok hok₁ hstep) rfl
    exact ⟨s', h₁.trans (h'.head hstep), hinvoked.trans hsent⟩

-- The contract

/-- The sender sleeps on the result lock of the message. -/
def Asleep (s : RunLoopMessenger κ ρ) (c : κ) (m : Nat) : Prop :=
  s.sender c = .waiting m ∧ (s.message m).resultLock ≠ some .kValueReturned

structure Delivers (s : RunLoopMessenger κ ρ) : Prop where
  /-- What was sent has been invoked once or is still in the port, -/
  once : s.sent.Nodup ∧ s.invoked ++ s.port = s.sent
  /-- from where the receiver can invoke it. -/
  drains : ∃ s', Receives s s' ∧ s'.invoked = s.sent
  inOrder : s.InCallOrder s.invoked
  resumes : ∀ m ∈ s.resumed, (s.phase m).Completed
  wakes : ∀ c m, (s.phase m).Ended → ¬ s.Asleep c m
  released : ∀ m, (s.phase m).Over → (s.message m).releases = 1

theorem Ok.delivers_of_not_hasBroken (hok : Ok s) (hbroken : ¬ s.HasBroken) : Delivers s where
  once := ⟨hok.nodup, hok.queue⟩
  drains := hok.drains
  inOrder := by
    have horder := hok.order
    rw [InCallOrder, ← hok.queue] at horder
    exact (List.pairwise_append.mp horder).1
  resumes := hok.resumed
  wakes := by
    rintro c m hended ⟨hwaiting, hlock⟩
    have hsender := hok.sender c
    rw [hwaiting] at hsender
    have hmsg := hok.message m
    have hnot : ¬ (s.phase m).Broken := fun h => hbroken ⟨m, h⟩
    cases hphase : s.phase m <;> simp [hphase, Phase.Ended, Phase.Broken] at hended hnot
    rw [phase] at hphase
    simp only [Message.Ok, hphase] at hmsg
    cases hcondition : (s.message m).resultLock with
    | none => simp [SenderOk, hcondition] at hsender
    | some condition => cases condition <;> simp [hcondition] at hlock hmsg
  released := fun m hover => ((hok.message m).releases_eq_one_iff hover).mpr fun h => hbroken ⟨m, h⟩

theorem Delivers.not_hasBroken (hok : Ok s) (h : Delivers s) : ¬ s.HasBroken := by
  rintro ⟨m, hm⟩
  have hover : (s.phase m).Over := by
    cases hphase : s.phase m <;> simp [hphase, Phase.Broken] at hm <;> trivial
  exact ((hok.message m).releases_eq_one_iff hover).mp (h.released m hover) hm

/-- The contract holds in a state exactly when no send has failed and no
invocation has raised on the way to it. -/
theorem delivers_iff {actions : List (MessengerAction κ ρ)}
    (hrun : Run.run step initial actions = some s) :
    Delivers s ↔ ∀ a ∈ actions, ¬ Raises a := by
  have hok := run_reachable hrun
  have hinitial : ¬ (initial : RunLoopMessenger κ ρ).HasBroken := by
    rintro ⟨m, hm⟩
    exact hm
  have hbroken := run_hasBroken ok_initial hrun
  have hiff : Delivers s ↔ ¬ s.HasBroken :=
    ⟨fun h => h.not_hasBroken hok, hok.delivers_of_not_hasBroken⟩
  rw [hiff, hbroken]
  simp [hinitial]

/-- One sender waits for its result while another sends and goes on. -/
def twoSenders : List (MessengerAction Bool Nat) :=
  [.sender true (.call true), .sender false (.call false), .sender false .send,
    .sender true .send, .sender false .finish, .receiver .receive, .receiver (.returns none),
    .receiver .signal, .receiver .release, .receiver .receive, .receiver (.returns (some 7)),
    .receiver .signal, .sender true .resume, .receiver .release, .sender true .finish]

theorem delivers_two_senders :
    ∃ s : RunLoopMessenger Bool Nat,
      Run.run step initial twoSenders = some s ∧ s.invoked = [1, 0] ∧ s.results =
        [(1, none), (0, some 7)] ∧ Delivers s := by
  have hrun : ∃ s : RunLoopMessenger Bool Nat,
      Run.run step initial twoSenders = some s ∧ s.invoked = [1, 0] ∧ s.results =
        [(1, none), (0, some 7)] := ⟨_, rfl, rfl, rfl⟩
  obtain ⟨s, hrun, hinvoked, hresults⟩ := hrun
  exact ⟨s, hrun, hinvoked, hresults, (delivers_iff hrun).mpr (by simp [twoSenders, Raises])⟩

/-- The invocation raises: its sender sleeps on a message that is no longer
handled, and nobody has released the invocation. -/
theorem not_delivers_of_raises :
    ∃ s : RunLoopMessenger Unit Nat,
      Run.run step initial [.sender () (.call true), .sender () .send, .receiver .receive,
        .receiver .raises] = some s ∧
      s.phase 0 = .raised ∧ s.Asleep () 0 ∧ (s.message 0).releases = 0 ∧ ¬ Delivers s := by
  refine ⟨_, rfl, rfl, ⟨rfl, by decide⟩, rfl, fun h => ?_⟩
  exact h.wakes () 0 trivial ⟨rfl, by decide⟩

end BathyScaphe.Messaging.RunLoopMessenger
