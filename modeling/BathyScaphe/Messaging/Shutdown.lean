import BathyScaphe.Messaging.Worker

/-!
# Shutting a worker down

`shutdown:` clears the continue flag and then empties the queue with
`removeAll:`, whose `cancel:` looks at the flag first. So the cancel is never
delivered: the call does what it is for exactly when no work is running. The
works in the queue are dropped, provided that the worker thread has started
and takes none of them before the queue is emptied.
-/

namespace BathyScaphe.Messaging.WorkerContext

variable {κ : Type} {s s' s₀ s₁ s₂ : WorkerContext κ} {c d : κ}

/-- The call of `shutdown:` in `s` by `c` has cancelled, by the time of `s'`,
the work that was running, and none of the works then queued has run. -/
def ShutdownCancels (c : κ) (s s' : WorkerContext κ) : Prop :=
  (∀ t, s.worker = .running t → (c, t) ∈ s'.cancelled.drop s.cancelled.length) ∧
    ∀ t ∈ s.workQueue, t ∉ s'.executed

/-- The worker takes no work while `c` is between its call of `shutdown:` and
the removal of the works. -/
def NoTake (c : κ) (s : WorkerContext κ) (a : Action κ) : Prop :=
  a = .worker .nextWork → s.client c ≠ .shutdownFlag ∧ s.client c ≠ .shutdownRemove

-- No cancel is delivered

def Quiet (c : κ) (s₀ s : WorkerContext κ) : Prop :=
  ∃ since, s.cancelled = s₀.cancelled ++ since ∧ ∀ p ∈ since, p.1 ≠ c

/-- The worker thread has started, `c` is about to clear the flag or it is
clear, and `c` has delivered no cancel since `s₀`. -/
structure Silent (c : κ) (s₀ s : WorkerContext κ) : Prop where
  started : s.worker ≠ .notStarted
  phase : s.client c = .shutdownFlag ∨ s.toBeContinued = false ∧ s.client c ≠ .cancelWork
  quiet : Quiet c s₀ s

theorem workerStep_started (hs : s.worker ≠ .notStarted) (h : workerStep s a = some s') :
    s'.worker ≠ .notStarted ∧ s'.toBeContinued = s.toBeContinued ∧ s'.client = s.client ∧
      s'.cancelled = s.cancelled := by
  cases a with
  | start => simp [workerStep, hs] at h
  | testLoop =>
    simp only [workerStep, Option.ite_none_right_eq_some, Option.some.injEq] at h
    obtain ⟨-, rfl⟩ := h
    cases hflag : s.toBeContinued <;> simp
  | nextWork =>
    simp only [workerStep, Option.ite_none_right_eq_some, Option.some.injEq] at h
    obtain ⟨-, rfl⟩ := h
    cases hqueue : s.workQueue <;> simp [takeWork, SGBaseQueue.take, hqueue, hs]
  | beginRun | endRun | clearWork =>
    cases hworker : s.worker <;> simp only [workerStep, hworker] at h <;> cases h
    simp

theorem quiet_deliverCancel (hd : d ≠ c) (hs : Quiet c s₀ s) :
    Quiet c s₀ (deliverCancel d s) := by
  cases hwork : s.work with
  | none => simpa [Quiet, deliverCancel, hwork] using hs
  | some t =>
    obtain ⟨since, hsince, hquiet⟩ := hs
    refine ⟨since ++ [(d, t)], by simp [deliverCancel, hwork, hsince], ?_⟩
    simp only [List.mem_append, List.mem_singleton]
    rintro p (hp | rfl)
    · exact hquiet p hp
    · exact hd

theorem quiet_removeWorks (hd : d ≠ c ∨ s.toBeContinued = false) (hs : Quiet c s₀ s) :
    Quiet c s₀ (removeWorks d s) := by
  cases hflag : s.toBeContinued with
  | false => simpa [Quiet, removeWorks, hflag] using hs
  | true =>
    have hne : d ≠ c := hd.resolve_right (by simp [hflag])
    have hdeliver := quiet_deliverCancel hne hs
    cases hwork : s.work <;>
      simpa [Quiet, removeWorks, hflag, deliverCancel, hwork] using hdeliver

variable [DecidableEq κ]

theorem silent_clientEffect_ne (hd : d ≠ c) (hs : Silent c s₀ s) :
    Silent c s₀ (clientEffect d s call) := by
  have hstarted : (clientEffect d s call).worker ≠ .notStarted := by
    rw [clientEffect_worker]
    exact hs.started
  have hflag : s.toBeContinued = false → (clientEffect d s call).toBeContinued = false := by
    intro hflag
    cases call <;> simp [clientEffect, hflag]
  refine ⟨hstarted, ?_, ?_⟩
  · rw [clientEffect_client_ne hd]
    exact hs.phase.imp_right fun h => ⟨hflag h.1, h.2⟩
  · cases call with
    | removeAll => exact quiet_removeWorks (.inl hd) hs.quiet
    | shutdownRemove => exact quiet_removeWorks (.inl hd) hs.quiet
    | cancelWork => exact quiet_deliverCancel hd hs.quiet
    | cancel => simp only [clientEffect]; split <;> exact hs.quiet
    | shutdown => simp only [clientEffect]; split <;> exact hs.quiet
    | _ => exact hs.quiet

theorem silent_clientEffect_self (hsite : s.client c = call.site) (hs : Silent c s₀ s) :
    Silent c s₀ (clientEffect c s call) := by
  have hstarted : (clientEffect c s call).worker ≠ .notStarted := by
    rw [clientEffect_worker]
    exact hs.started
  rcases hs.phase with hphase | ⟨hflag, hphase⟩
  · -- the only step from there clears the flag
    rw [hphase] at hsite
    cases call <;> simp only [Call.site, reduceCtorEq] at hsite
    exact ⟨hstarted, .inr (by simp [clientEffect]), hs.quiet⟩
  · cases call with
    | cancelWork => exact absurd hsite hphase
    | removeAll =>
      exact ⟨hstarted, .inr (by simp [clientEffect, hflag, hphase]),
        quiet_removeWorks (.inr hflag) hs.quiet⟩
    | shutdownRemove =>
      exact ⟨hstarted, .inr (by simp [clientEffect, hflag]),
        quiet_removeWorks (.inr hflag) hs.quiet⟩
    | cancel => simpa [clientEffect, hflag] using hs
    | shutdown => simpa [clientEffect, hflag] using hs
    | push => exact ⟨hstarted, .inr (by simp [clientEffect, hflag, hphase]), hs.quiet⟩
    | shutdownFlag => exact ⟨hstarted, .inr (by simp [clientEffect]), hs.quiet⟩
    | shutdownPush => exact ⟨hstarted, .inr (by simp [clientEffect, hflag]), hs.quiet⟩

theorem step_silent (hs : Silent c s₀ s) (h : step s a = some s') : Silent c s₀ s' := by
  cases a with
  | worker a =>
    obtain ⟨hstarted, hflag, hclient, hcancelled⟩ := workerStep_started hs.started h
    refine ⟨hstarted, ?_, ?_⟩
    · rw [hclient, hflag]
      exact hs.phase
    · rw [Quiet, hcancelled]
      exact hs.quiet
  | client d call =>
    obtain ⟨hsite, rfl⟩ := step_client.mp h
    by_cases hd : d = c
    · subst hd
      exact silent_clientEffect_self hsite hs
    · exact silent_clientEffect_ne hd hs

/-- After a call of `shutdown:` with the worker thread started, its client
delivers no cancel any more. -/
theorem quiet_of_shutdown (hstarted : s.worker ≠ .notStarted)
    (hcall : step s (.client c .shutdown) = some s₁) (hrun : Run.run step s₁ actions = some s₂) :
    Quiet c s s₂ := by
  obtain ⟨hsite, rfl⟩ := step_client.mp hcall
  have hquiet : Quiet c s s := ⟨[], by simp⟩
  have hsilent : Silent c s (clientEffect c s .shutdown) := by
    cases hflag : s.toBeContinued with
    | false =>
      simp only [clientEffect, hflag, Bool.false_eq_true, if_false]
      exact ⟨hstarted, .inr ⟨hflag, by rw [hsite]; decide⟩, hquiet⟩
    | true =>
      simp only [clientEffect, hflag, if_true]
      exact ⟨hstarted, .inl (by simp), hquiet⟩
  exact (Run.run_invariant (fun hs h => step_silent hs h) hrun hsilent).quiet

-- The queued works are dropped

omit [DecidableEq κ] in
theorem workerStep_retains (ha : a ≠ .nextWork) (h : workerStep s a = some s') :
    s'.workQueue = s.workQueue ∧ s'.removed = s.removed ∧ s'.client = s.client := by
  cases a with
  | nextWork => exact absurd rfl ha
  | start | testLoop =>
    simp only [workerStep, Option.ite_none_right_eq_some, Option.some.injEq] at h
    obtain ⟨-, rfl⟩ := h
    exact ⟨rfl, rfl, rfl⟩
  | beginRun | endRun | clearWork =>
    cases hworker : s.worker <;> simp only [workerStep, hworker] at h <;> cases h
    exact ⟨rfl, rfl, rfl⟩

theorem clientEffect_retains (ht : t ∈ s.workQueue ∨ t ∈ s.removed) :
    t ∈ (clientEffect d s call).workQueue ∨ t ∈ (clientEffect d s call).removed := by
  have hput : t ∈ (putWork s).workQueue ∨ t ∈ (putWork s).removed :=
    ht.imp_left (List.mem_append_left _)
  have hremove : t ∈ (removeWorks d s).removed := by
    rw [removeWorks_removed]
    exact List.mem_append.mpr ht.symm
  cases call with
  | push | shutdownPush => exact hput
  | removeAll | shutdownRemove => exact .inr hremove
  | cancelWork => cases hwork : s.work <;> 
    simpa [clientEffect, setClient, deliverCancel, hwork] using ht
  | cancel | shutdown => simp only [clientEffect]; split <;> exact ht
  | shutdownFlag => exact ht

/-- The tickets are removed, or `c` is on its way to remove them and none has
left the queue otherwise. -/
structure Dropping (c : κ) (tickets : List Nat) (s : WorkerContext κ) : Prop where
  ok : s.ledger.Ok
  dropped : (∀ t ∈ tickets, t ∈ s.removed) ∨
    (s.client c = .shutdownFlag ∨ s.client c = .shutdownRemove) ∧
      ∀ t ∈ tickets, t ∈ s.workQueue ∨ t ∈ s.removed

theorem step_dropping (hs : Dropping c tickets s) (hguard : NoTake c s a)
    (h : step s a = some s') : Dropping c tickets s' := by
  have hledger : Ledger.Step s.ledger s'.ledger := step_ledger hs.ok h
  refine ⟨hledger.ok hs.ok, ?_⟩
  rcases hs.dropped with hremoved | ⟨hphase, hqueued⟩
  · exact .inl fun t ht => hledger.removed_subset (hremoved t ht)
  · cases a with
    | worker a =>
      have hne : a ≠ .nextWork := by
        rintro rfl
        have := hguard rfl
        tauto
      obtain ⟨hqueue, hremoved, hclient⟩ := workerStep_retains hne h
      rw [hqueue, hremoved, hclient]
      exact .inr ⟨hphase, hqueued⟩
    | client d call =>
      obtain ⟨hsite, rfl⟩ := step_client.mp h
      by_cases hd : d = c
      · subst hd
        rcases hphase with hphase | hphase
        · rw [hphase] at hsite
          cases call <;> simp only [Call.site, reduceCtorEq] at hsite
          exact .inr ⟨.inr (by simp [clientEffect]), hqueued⟩
        · -- the removal itself
          rw [hphase] at hsite
          cases call <;> simp only [Call.site, reduceCtorEq] at hsite
          refine .inl fun t ht => ?_
          change t ∈ (removeWorks d s).removed
          rw [removeWorks_removed]
          exact List.mem_append.mpr (hqueued t ht).symm
      · rw [clientEffect_client_ne hd]
        exact .inr ⟨hphase, fun t ht => clientEffect_retains (hqueued t ht)⟩

omit [DecidableEq κ] in
theorem Dropping.not_executed (hs : Dropping c tickets s) (ht : t ∈ tickets) :
    t ∉ s.executed := by
  intro hexec
  have hqueued : t ∈ s.workQueue ∨ t ∈ s.removed :=
    hs.dropped.elim (fun h => .inr (h t ht)) fun h => h.2 t ht
  rcases hqueued with hqueue | hremoved
  · exact Nat.lt_irrefl t ((List.pairwise_append.mp hs.ok.sorted).2.2 t
      (List.mem_append_left _ hexec) t hqueue)
  · exact hs.ok.disjoint t hremoved (by simp [Ledger.live, ledger, hexec])

theorem dropping_of_shutdown (hok : s.ledger.Ok) (hflag : s.toBeContinued = true)
    (hcall : step s (.client c .shutdown) = some s₁) : Dropping c s.workQueue s₁ := by
  refine ⟨(step_ledger hok hcall).ok hok, .inr ?_⟩
  obtain ⟨-, rfl⟩ := step_client.mp hcall
  simp only [clientEffect, hflag, if_true]
  exact ⟨.inl (by simp), fun t ht => .inl ht⟩

-- What a shutdown does

theorem shutdown_cancels_iff (hbefore : Run.run step initial before = some s)
    (hcall : step s (.client c .shutdown) = some s₁)
    (hflag : s.toBeContinued = true ∨ s.workQueue = [])
    (hguard : Run.Guarded step (NoTake c) s₁ after) (hafter : Run.run step s₁ after = some s₂) :
    ShutdownCancels c s s₂ ↔ ∀ t, s.worker ≠ .running t := by
  have hok : s.ledger.Ok := run_ok hbefore ok_initial
  constructor
  · rintro ⟨hcancelled, -⟩ t hworker
    obtain ⟨since, hsince, hquiet⟩ :=
      quiet_of_shutdown (by simp [hworker]) hcall hafter
    have hdelivered := hcancelled t hworker
    rw [hsince, List.drop_left] at hdelivered
    exact hquiet _ hdelivered rfl
  · intro hidle
    refine ⟨fun t hworker => absurd hworker (hidle t), ?_⟩
    rcases hflag with hflag | hempty
    · have hdropping : Dropping c s.workQueue s₂ :=
        Run.guarded_invariant (fun hs hguard h => step_dropping hs hguard h) hguard hafter
          (dropping_of_shutdown hok hflag hcall)
      exact fun t ht => hdropping.not_executed ht
    · simp [hempty]

/-- The steps of a `shutdown:` that sees the flag set, up to its return. -/
def shutdownSteps : List (Action Unit) :=
  [.client () .shutdownFlag, .client () .shutdownRemove, .client () .shutdownPush]

/-- Shutting down a started worker with a work in its queue. -/
theorem shutdown_cancels_queued :
    ∃ s s₁ s₂ : WorkerContext Unit,
      Run.run step initial [.worker .start, .client () .push] = some s ∧
      step s (.client () .shutdown) = some s₁ ∧ Run.run step s₁ shutdownSteps = some s₂ ∧
      s.workQueue = [0] ∧ ShutdownCancels () s s₂ := by
  have hrun : ∃ s s₁ s₂ : WorkerContext Unit,
      Run.run step initial [.worker .start, .client () .push] = some s ∧
      step s (.client () .shutdown) = some s₁ ∧ Run.run step s₁ shutdownSteps = some s₂ ∧
      s.workQueue = [0] ∧ s.toBeContinued = true ∧ s.worker = .loopTest :=
    ⟨_, _, _, rfl, rfl, rfl, rfl, rfl, rfl⟩
  obtain ⟨s, s₁, s₂, hbefore, hcall, hafter, hqueue, hflag, hworker⟩ := hrun
  have hguard : Run.Guarded step (NoTake ()) s₁ shutdownSteps :=
    Run.guarded_of_forall (by simp [shutdownSteps, NoTake]) s₁
  exact ⟨s, s₁, s₂, hbefore, hcall, hafter, hqueue,
    (shutdown_cancels_iff hbefore hcall (.inl hflag) hguard hafter).mpr (by simp [hworker])⟩

/-- A work is running when `shutdown:` is called: the call returns, the work ends
and the worker thread exits without a cancel. -/
theorem shutdown_running_fails :
    ∃ s s₁ s₂ : WorkerContext Unit,
      Run.run step initial [.worker .start, .client () .push, .worker .testLoop,
        .worker .nextWork, .worker .beginRun] = some s ∧ s.worker = .running 0 ∧
      step s (.client () .shutdown) = some s₁ ∧
      Run.run step s₁ (shutdownSteps ++ [.worker .endRun, .worker .clearWork,
        .worker .testLoop]) = some s₂ ∧
      s₂.client () = .idle ∧ s₂.worker = .exited ∧ s₂.cancelled = [] ∧
      ¬ ShutdownCancels () s s₂ := by
  refine ⟨_, _, _, rfl, rfl, rfl, rfl, rfl, rfl, rfl, ?_⟩
  rintro ⟨hcancelled, -⟩
  exact absurd (hcancelled 0 rfl) (by decide)

end BathyScaphe.Messaging.WorkerContext
