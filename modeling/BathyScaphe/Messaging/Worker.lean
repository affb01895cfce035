import BathyScaphe.Lib.Run

/-!
# The worker context

A worker thread takes works from a queue that any number of clients fill. The
queue's condition lock tells the sleeping worker whether there is work. Each
region under the lock is one step, and so is each access to the continue flag,
which no lock protects.

Every `put` hands out the next ticket, so that a work that is pushed twice is
two entries; `executed`, `removed` and `cancelled` record what happened to the
tickets so far.
-/

namespace BathyScaphe.Messaging

-- SGBaseQueue

namespace SGBaseQueue

def put (item : α) (queue : List α) : List α := queue ++ [item]

def take : List α → Option α × List α
  | [] => (none, [])
  | item :: queue => (some item, queue)

/-- `while ([queue take]) ;` with the items taken and the queue left. -/
def takeAll : List α → List α × List α
  | [] => ([], [])
  | item :: queue => (item :: (takeAll queue).1, (takeAll queue).2)

@[simp] theorem takeAll_eq (queue : List α) : takeAll queue = (queue, []) := by
  induction queue with
  | nil => rfl
  | cons item queue ih => simp [takeAll, ih]

end SGBaseQueue

-- States and actions

inductive Condition where
  | empty
  | hasWork
  deriving DecidableEq

/-- Where the worker thread is: in front of the loop's test, asleep in
`nextWork`, with a work in hand, running it, done with it, or gone. -/
inductive WorkerState where
  | notStarted
  | loopTest
  | waiting
  | taken (ticket : Nat)
  | running (ticket : Nat)
  | finished (ticket : Nat)
  | exited
  deriving DecidableEq

/-- Where a client is in `cancel:` or `shutdown:`. -/
inductive ClientState where
  | idle
  | cancelWork
  | shutdownFlag
  | shutdownRemove
  | shutdownPush
  deriving DecidableEq

structure WorkerContext (κ : Type) where
  toBeContinued : Bool
  condition : Condition
  workQueue : List Nat
  work : Option Nat
  worker : WorkerState
  client : κ → ClientState
  nextTicket : Nat
  executed : List Nat
  removed : List Nat
  cancelled : List (κ × Nat)

inductive WorkerAction where
  | start | testLoop
  | nextWork
  | beginRun | endRun | clearWork
  deriving DecidableEq

/-- A call of a client, or the next step of the one it is in. -/
inductive Call where
  | push
  | removeAll
  | cancel
  | cancelWork
  | shutdown
  | shutdownFlag
  | shutdownRemove
  | shutdownPush
  deriving DecidableEq

inductive Action (κ : Type) where
  | worker (a : WorkerAction)
  | client (c : κ) (call : Call)

def Call.site : Call → ClientState
  | .push => .idle
  | .removeAll => .idle
  | .cancel => .idle
  | .shutdown => .idle
  | .cancelWork => .cancelWork
  | .shutdownFlag => .shutdownFlag
  | .shutdownRemove => .shutdownRemove
  | .shutdownPush => .shutdownPush

namespace WorkerContext

variable {κ : Type}

def initial : WorkerContext κ where
  toBeContinued := false
  condition := .empty
  workQueue := []
  work := none
  worker := .notStarted
  client _ := .idle
  nextTicket := 0
  executed := []
  removed := []
  cancelled := []

def putWork (s : WorkerContext κ) : WorkerContext κ :=
  { s with
    workQueue := SGBaseQueue.put s.nextTicket s.workQueue
    nextTicket := s.nextTicket + 1
    condition := .hasWork }

/-- `[[self work] cancel : sender]`, where a message to `nil` does nothing. -/
def deliverCancel (c : κ) (s : WorkerContext κ) : WorkerContext κ :=
  match s.work with
  | some ticket => { s with cancelled := s.cancelled ++ [(c, ticket)] }
  | none => s

def removeWorks (c : κ) (s : WorkerContext κ) : WorkerContext κ :=
  let (taken, left) := SGBaseQueue.takeAll s.workQueue
  let s := { s with workQueue := left, removed := s.removed ++ taken }
  let s := if s.toBeContinued then deliverCancel c s else s
  { s with condition := .empty }

/-- The region of `nextWork`, entered when the condition is `hasWork`. The
queue may still be empty, and then the thread sleeps again. -/
def takeWork (s : WorkerContext κ) : WorkerContext κ :=
  match SGBaseQueue.take s.workQueue with
  | (none, _) => { s with condition := .empty }
  | (some ticket, queue) =>
    { s with
      workQueue := queue
      work := some ticket
      worker := .taken ticket
      condition := if queue.isEmpty then .empty else .hasWork }

@[simp] theorem deliverCancel_worker (s : WorkerContext κ) :
    (deliverCancel c s).worker = s.worker := by
  cases hwork : s.work <;> simp [deliverCancel, hwork]

@[simp] theorem deliverCancel_client (s : WorkerContext κ) :
    (deliverCancel c s).client = s.client := by
  cases hwork : s.work <;> simp [deliverCancel, hwork]

@[simp] theorem deliverCancel_toBeContinued (s : WorkerContext κ) :
    (deliverCancel c s).toBeContinued = s.toBeContinued := by
  cases hwork : s.work <;> simp [deliverCancel, hwork]

@[simp] theorem removeWorks_worker (s : WorkerContext κ) :
    (removeWorks c s).worker = s.worker := by
  cases hflag : s.toBeContinued <;> simp [removeWorks, hflag]

@[simp] theorem removeWorks_client (s : WorkerContext κ) :
    (removeWorks c s).client = s.client := by
  cases hflag : s.toBeContinued <;> simp [removeWorks, hflag]

@[simp] theorem removeWorks_toBeContinued (s : WorkerContext κ) :
    (removeWorks c s).toBeContinued = s.toBeContinued := by
  cases hflag : s.toBeContinued <;> simp [removeWorks, hflag]

@[simp] theorem removeWorks_removed (s : WorkerContext κ) :
    (removeWorks c s).removed = s.removed ++ s.workQueue := by
  cases hflag : s.toBeContinued <;> cases hwork : s.work <;>
    simp [removeWorks, hflag, deliverCancel, hwork]

@[simp] theorem putWork_worker (s : WorkerContext κ) : (putWork s).worker = s.worker := rfl

@[simp] theorem putWork_client (s : WorkerContext κ) : (putWork s).client = s.client := rfl

@[simp] theorem putWork_toBeContinued (s : WorkerContext κ) :
    (putWork s).toBeContinued = s.toBeContinued := rfl

/-- The loop of `start:` around `nextWork`. The run of a work ends whether it
returns or raises. -/
def workerStep (s : WorkerContext κ) : WorkerAction → Option (WorkerContext κ)
  | .start =>
    if s.worker = .notStarted then some { s with toBeContinued := true, worker := .loopTest }
    else none
  | .testLoop =>
    if s.worker = .loopTest then
      some { s with worker := if s.toBeContinued then .waiting else .exited }
    else none
  | .nextWork =>
    if s.worker = .waiting ∧ s.condition = .hasWork then some (takeWork s) else none
  | .beginRun =>
    match s.worker with
    | .taken t => some { s with worker := .running t, executed := s.executed ++ [t] }
    | _ => none
  | .endRun =>
    match s.worker with
    | .running t => some { s with worker := .finished t }
    | _ => none
  | .clearWork =>
    match s.worker with
    | .finished _ => some { s with worker := .loopTest, work := none }
    | _ => none

variable [DecidableEq κ]

def setClient (c : κ) (state : ClientState) (s : WorkerContext κ) : WorkerContext κ :=
  { s with client := Function.update s.client c state }

@[simp] theorem setClient_worker (s : WorkerContext κ) :
    (setClient c state s).worker = s.worker := rfl

@[simp] theorem setClient_client (s : WorkerContext κ) :
    (setClient c state s).client = Function.update s.client c state := rfl

@[simp] theorem setClient_toBeContinued (s : WorkerContext κ) :
    (setClient c state s).toBeContinued = s.toBeContinued := rfl

/-- `push:`, `removeAll:`, `cancel:` and `shutdown:`, step by step. -/
def clientEffect (c : κ) (s : WorkerContext κ) : Call → WorkerContext κ
  | .push => putWork s
  | .removeAll => removeWorks c s
  | .cancel => if s.toBeContinued then setClient c .cancelWork s else s
  | .cancelWork => setClient c .idle (deliverCancel c s)
  | .shutdown => if s.toBeContinued then setClient c .shutdownFlag s else s
  | .shutdownFlag => setClient c .shutdownRemove { s with toBeContinued := false }
  | .shutdownRemove => setClient c .shutdownPush (removeWorks c s)
  | .shutdownPush => setClient c .idle (putWork s)

def step (s : WorkerContext κ) : Action κ → Option (WorkerContext κ)
  | .worker a => workerStep s a
  | .client c call => if s.client c = call.site then some (clientEffect c s call) else none

theorem step_client {s s' : WorkerContext κ} :
    step s (.client c call) = some s' ↔ s.client c = call.site ∧ s' = clientEffect c s call := by
  simp [step, eq_comm]

@[simp] theorem clientEffect_worker (s : WorkerContext κ) :
    (clientEffect c s call).worker = s.worker := by
  cases call <;> simp only [clientEffect, putWork_worker, removeWorks_worker, setClient_worker,
    deliverCancel_worker] <;> split <;> rfl

theorem clientEffect_client_ne {s : WorkerContext κ} (hd : d ≠ c) :
    (clientEffect d s call).client c = s.client c := by
  cases call <;> simp only [clientEffect] <;> try split
  all_goals simp [Function.update_of_ne hd.symm]

end WorkerContext

-- The ledger of tickets

/-- What a worker context is for, without threads: where each ticket is. -/
structure Ledger where
  condition : Condition
  queue : List Nat
  inHand : List Nat
  nextTicket : Nat
  executed : List Nat
  removed : List Nat

namespace Ledger

inductive Step : Ledger → Ledger → Prop
  | keep (l : Ledger) : Step l l
  | put (l : Ledger) : Step l { l with
      queue := l.queue ++ [l.nextTicket], nextTicket := l.nextTicket + 1, condition := .hasWork }
  | removeAll (l : Ledger) : Step l { l with
      queue := [], removed := l.removed ++ l.queue, condition := .empty }
  | take (l : Ledger) (ticket : Nat) (queue : List Nat) (hqueue : l.queue = ticket :: queue)
      (hhand : l.inHand = []) : Step l { l with
      queue := queue, inHand := [ticket], condition := if queue.isEmpty then .empty else .hasWork }
  | execute (l : Ledger) (ticket : Nat) (hhand : l.inHand = [ticket]) : Step l { l with
      inHand := [], executed := l.executed ++ [ticket] }

/-- Tickets that are not removed, in the order they were handed out. -/
def live (l : Ledger) : List Nat := l.executed ++ l.inHand ++ l.queue

structure Ok (l : Ledger) : Prop where
  condition : l.condition = .hasWork ↔ l.queue ≠ []
  sorted : l.live.Pairwise (· < ·)
  issued : ∀ t, t < l.nextTicket ↔ t ∈ l.live ∨ t ∈ l.removed
  disjoint : ∀ t ∈ l.removed, t ∉ l.live

theorem Ok.of_live (hok : Ok l) (hnext : l'.nextTicket = l.nextTicket)
    (hremoved : l'.removed = l.removed) (hlive : l'.live = l.live)
    (hcondition : l'.condition = .hasWork ↔ l'.queue ≠ []) : Ok l' :=
  ⟨hcondition, hlive ▸ hok.sorted, by rw [hnext, hlive, hremoved]; exact hok.issued,
    by rw [hlive, hremoved]; exact hok.disjoint⟩

theorem Step.removed_subset (h : Step l l') (ht : t ∈ l.removed) : t ∈ l'.removed := by
  cases h with
  | removeAll => exact List.mem_append_left _ ht
  | _ => exact ht

theorem Step.ok (h : Step l l') (hok : Ok l) : Ok l' := by
  cases h with
  | keep => exact hok
  | put =>
    have hlive : ∀ t ∈ l.live, t < l.nextTicket := fun t ht => (hok.issued t).mpr (.inl ht)
    have heq : l.executed ++ l.inHand ++ (l.queue ++ [l.nextTicket]) =
      l.live ++ [l.nextTicket] := by
      simp [live]
    refine ⟨by simp, ?_, ?_, ?_⟩
    · rw [live, heq, List.pairwise_append]
      exact ⟨hok.sorted, List.pairwise_singleton _ _, by simpa using hlive⟩
    · intro t
      have := hok.issued t
      rw [live, heq, List.mem_append, List.mem_singleton]
      constructor
      · intro ht
        rcases Nat.lt_or_eq_of_le (Nat.le_of_lt_succ ht) with hlt | heq
        · exact (this.mp hlt).imp_left .inl
        · exact .inl (.inr heq)
      · rintro ((ht | rfl) | ht)
        · exact Nat.lt_succ_of_lt (this.mpr (.inl ht))
        · exact Nat.lt_succ_self _
        · exact Nat.lt_succ_of_lt (this.mpr (.inr ht))
    · intro t ht hmem
      rw [live, heq, List.mem_append, List.mem_singleton] at hmem
      rcases hmem with hmem | rfl
      · exact hok.disjoint t ht hmem
      · exact Nat.lt_irrefl _ ((hok.issued _).mpr (.inr ht))
  | removeAll =>
    have hsorted := List.pairwise_append.mp hok.sorted
    refine ⟨by simp, ?_, ?_, ?_⟩
    · simpa [live] using hsorted.1
    · intro t
      rw [hok.issued t]
      simp only [live, List.append_nil, List.mem_append]
      tauto
    · intro t ht hmem
      simp only [live, List.append_nil] at hmem
      rcases List.mem_append.mp ht with ht | ht
      · exact hok.disjoint t ht (List.mem_append_left _ hmem)
      · exact Nat.lt_irrefl t (hsorted.2.2 t hmem t ht)
  | take ticket queue hqueue hhand =>
    refine hok.of_live rfl rfl (by simp [live, hqueue, hhand]) ?_
    cases queue <;> simp
  | execute ticket hhand =>
    exact hok.of_live rfl rfl (by simp [live, hhand]) hok.condition

end Ledger

-- Safety of the queue

namespace WorkerContext

variable {κ : Type}

def inHand : WorkerState → List Nat
  | .taken t => [t]
  | _ => []

def ledger (s : WorkerContext κ) : Ledger where
  condition := s.condition
  queue := s.workQueue
  inHand := inHand s.worker
  nextTicket := s.nextTicket
  executed := s.executed
  removed := s.removed

theorem ledger_deliverCancel (s : WorkerContext κ) : (deliverCancel c s).ledger = s.ledger := by
  cases hwork : s.work <;> simp [deliverCancel, hwork, ledger]

theorem ledger_putWork (s : WorkerContext κ) : Ledger.Step s.ledger (putWork s).ledger :=
  .put s.ledger

theorem ledger_removeWorks (s : WorkerContext κ) :
    Ledger.Step s.ledger (removeWorks c s).ledger := by
  have h : (removeWorks c s).ledger = { s.ledger with
      queue := [], removed := s.removed ++ s.workQueue, condition := .empty } := by
    cases hflag : s.toBeContinued <;> cases hwork : s.work <;>
      simp [removeWorks, hflag, deliverCancel, hwork, ledger]
  rw [h]
  exact .removeAll s.ledger

/-- With the condition right, the worker never finds the queue empty. -/
theorem ledger_takeWork {s : WorkerContext κ} (hok : s.ledger.Ok) (hworker : s.worker = .waiting)
    (hcondition : s.condition = .hasWork) : Ledger.Step s.ledger (takeWork s).ledger := by
  cases hqueue : s.workQueue with
  | nil => exact absurd hqueue (hok.condition.mp hcondition)
  | cons ticket queue =>
    have h : (takeWork s).ledger = { s.ledger with
        queue := queue
        inHand := [ticket]
        condition := if queue.isEmpty then .empty else .hasWork } := by
      simp [takeWork, SGBaseQueue.take, hqueue, ledger, inHand]
    rw [h]
    exact .take s.ledger ticket queue hqueue (by simp [ledger, hworker, inHand])

theorem workerStep_ledger {s s' : WorkerContext κ} (hok : s.ledger.Ok)
    (h : workerStep s a = some s') : Ledger.Step s.ledger s'.ledger := by
  have hkeep : ∀ {s' : WorkerContext κ}, s'.ledger = s.ledger → Ledger.Step s.ledger s'.ledger :=
    fun heq => heq ▸ .keep _
  cases a with
  | start =>
    simp only [workerStep, Option.ite_none_right_eq_some, Option.some.injEq] at h
    obtain ⟨hworker, rfl⟩ := h
    exact hkeep (by simp [ledger, hworker, inHand])
  | testLoop =>
    simp only [workerStep, Option.ite_none_right_eq_some, Option.some.injEq] at h
    obtain ⟨hworker, rfl⟩ := h
    exact hkeep (by cases s.toBeContinued <;> simp [ledger, hworker, inHand])
  | nextWork =>
    simp only [workerStep, Option.ite_none_right_eq_some, Option.some.injEq] at h
    obtain ⟨⟨hworker, hcondition⟩, rfl⟩ := h
    exact ledger_takeWork hok hworker hcondition
  | beginRun =>
    cases hworker : s.worker <;> simp only [workerStep, hworker] at h <;> cases h
    exact .execute s.ledger _ (by simp [ledger, hworker, inHand])
  | endRun =>
    cases hworker : s.worker <;> simp only [workerStep, hworker] at h <;> cases h
    exact hkeep (by simp [ledger, hworker, inHand])
  | clearWork =>
    cases hworker : s.worker <;> simp only [workerStep, hworker] at h <;> cases h
    exact hkeep (by simp [ledger, hworker, inHand])

variable [DecidableEq κ]

theorem clientEffect_ledger (s : WorkerContext κ) :
    Ledger.Step s.ledger (clientEffect c s call).ledger := by
  have hkeep : ∀ {s' : WorkerContext κ}, s'.ledger = s.ledger → Ledger.Step s.ledger s'.ledger :=
    fun heq => heq ▸ .keep _
  cases call with
  | push => exact ledger_putWork s
  | removeAll => exact ledger_removeWorks s
  | cancel => exact hkeep (by simp only [clientEffect]; split <;> rfl)
  | cancelWork => exact hkeep (ledger_deliverCancel s)
  | shutdown => exact hkeep (by simp only [clientEffect]; split <;> rfl)
  | shutdownFlag => exact hkeep rfl
  | shutdownRemove => exact ledger_removeWorks s
  | shutdownPush => exact ledger_putWork s

theorem step_ledger {s s' : WorkerContext κ} (hok : s.ledger.Ok) (h : step s a = some s') :
    Ledger.Step s.ledger s'.ledger := by
  cases a with
  | worker a => exact workerStep_ledger hok h
  | client c call =>
    obtain ⟨-, rfl⟩ := step_client.mp h
    exact clientEffect_ledger s

omit [DecidableEq κ] in
theorem ok_initial : (initial : WorkerContext κ).ledger.Ok := by
  constructor <;> simp [initial, ledger, Ledger.live, inHand]

theorem run_ok {s s' : WorkerContext κ} (hrun : Run.run step s actions = some s')
    (hs : s.ledger.Ok) : s'.ledger.Ok :=
  Run.run_invariant (I := fun s => s.ledger.Ok) (fun hok h => (step_ledger hok h).ok hok)
    hrun hs

theorem step_taken {s s' : WorkerContext κ} (hworker : s.worker = .taken t)
    (h : step s a = some s') : s'.worker = .taken t ∨ t ∈ s'.executed := by
  cases a with
  | worker a =>
    cases a <;> simp only [step, workerStep, hworker, reduceCtorEq, false_and, if_false] at h
    cases h
    exact .inr (by simp)
  | client c call =>
    obtain ⟨-, rfl⟩ := step_client.mp h
    exact .inl ((clientEffect_worker s).trans hworker)

theorem workQueue_safe {s : WorkerContext κ} (hrun : Run.run step initial actions = some s) :
    (s.condition = .hasWork ↔ s.workQueue ≠ []) ∧
      s.executed.Nodup ∧ s.executed.Pairwise (· < ·) ∧
      (∀ t ∈ s.removed, t ∉ s.executed) ∧
      (∀ t < s.nextTicket, t ∉ s.removed →
        t ∈ s.workQueue ∨ s.worker = .taken t ∨ t ∈ s.executed) ∧
      ∀ t, s.worker = .taken t →
        (∃ s', step s (.worker .beginRun) = some s' ∧ t ∈ s'.executed) ∧
          ∀ a s', step s a = some s' → s'.worker = .taken t ∨ t ∈ s'.executed := by
  have hok : s.ledger.Ok := run_ok hrun ok_initial
  have hsorted : s.executed.Pairwise (· < ·) :=
    (List.pairwise_append.mp (List.pairwise_append.mp hok.sorted).1).1
  refine ⟨hok.condition, hsorted.imp Nat.ne_of_lt, hsorted, ?_, ?_, ?_⟩
  · intro t ht hexec
    exact hok.disjoint t ht (by simp [Ledger.live, ledger, hexec])
  · intro t ht hremoved
    have hlive : t ∈ s.ledger.live := ((hok.issued t).mp ht).resolve_right hremoved
    simp only [Ledger.live, ledger, List.mem_append] at hlive
    rcases hlive with (hexec | hhand) | hqueue
    · exact .inr (.inr hexec)
    · cases hworker : s.worker <;> simp [hworker, inHand] at hhand
      exact .inr (.inl (by rw [hhand]))
    · exact .inl hqueue
  · intro t hworker
    refine ⟨⟨{ s with worker := .running t, executed := s.executed ++ [t] }, ?_, by simp⟩,
      fun a s' h => step_taken hworker h⟩
    simp only [step, workerStep, hworker]

def twoPushes : List (Action Unit) :=
  [.worker .start, .client () .push, .client () .push, .worker .testLoop, .worker .nextWork,
    .worker .beginRun]

theorem workQueue_safe_twoPushes :
    ∃ s : WorkerContext Unit, Run.run step initial twoPushes = some s ∧
      s.executed = [0] ∧ s.workQueue = [1] ∧ (s.condition = .hasWork ↔ s.workQueue ≠ []) := by
  have hrun : ∃ s : WorkerContext Unit, Run.run step initial twoPushes = some s ∧
      s.executed = [0] ∧ s.workQueue = [1] := ⟨_, rfl, rfl, rfl⟩
  obtain ⟨s, hrun, hexecuted, hqueue⟩ := hrun
  exact ⟨s, hrun, hexecuted, hqueue, (workQueue_safe hrun).1⟩

end WorkerContext

end BathyScaphe.Messaging
