import BathyScaphe.Lib.Run
import Mathlib.Logic.Function.Basic

/-!
# The queue with a lock

`SGBaseThreadSafeQueue` takes its lock, lets the plain queue work and gives the
lock back. A step of a thread is one message to the lock or to the array, or the
test for `nil` in between; the steps of any number of threads interleave. An
exception ends the operation where it is raised, so that nothing behind it runs.
-/

namespace BathyScaphe.Foundation

/-- What a thread does next, with the local variables of its operation. -/
inductive QueueSite (α : Type) where
  | idle
  | putLock (item : Option α)
  | putTest (item : Option α)
  | putAdd (item : α)
  | putUnlock (item : α)
  | takeLock
  | takeCount
  | takeFirst
  | takeRemove (item : α)
  | takeUnlock (item : Option α)
  deriving DecidableEq

/-- The operations that a thread calls, and its next step in one. -/
inductive QueueAction (α : Type) where
  | put (item : Option α)
  | take
  | next
  deriving DecidableEq

/-- The lists record what was added to the array and removed from it by which thread,
and, for each thread, the items of its `put:` and `take` that came back. -/
structure SGBaseThreadSafeQueue (τ α : Type) where
  _mutableArray : List α
  _lock : Option τ
  site : τ → QueueSite α
  added : List (τ × α)
  removed : List (τ × α)
  returnedFromPut : τ → List α
  returnedFromTake : τ → List α

namespace QueueSite

variable {α : Type}

def Locked : QueueSite α → Prop
  | .idle | .putLock _ | .takeLock => False
  | _ => True

def added : QueueSite α → List α
  | .putUnlock item => [item]
  | _ => []

def removed : QueueSite α → List α
  | .takeUnlock (some item) => [item]
  | _ => []

def Knows (array : List α) : QueueSite α → Prop
  | .takeFirst => array ≠ []
  | .takeRemove item => array.head? = some item
  | _ => True

end QueueSite

namespace SGBaseThreadSafeQueue

variable {τ α : Type} [DecidableEq τ]

def initial : SGBaseThreadSafeQueue τ α where
  _mutableArray := []
  _lock := none
  site _ := .idle
  added := []
  removed := []
  returnedFromPut _ := []
  returnedFromTake _ := []

def goto (s : SGBaseThreadSafeQueue τ α) (t : τ) (site : QueueSite α) : SGBaseThreadSafeQueue τ α :=
  { s with site := Function.update s.site t site }

def lock (s : SGBaseThreadSafeQueue τ α) (t : τ) (site : QueueSite α) :
    Option (SGBaseThreadSafeQueue τ α) :=
  if s._lock.isNone then some ({ s with _lock := some t }.goto t site) else none

def unlock (s : SGBaseThreadSafeQueue τ α) (t : τ) : SGBaseThreadSafeQueue τ α :=
  { s with _lock := none }.goto t .idle

def raise (s : SGBaseThreadSafeQueue τ α) (t : τ) : SGBaseThreadSafeQueue τ α := s.goto t .idle

def next (s : SGBaseThreadSafeQueue τ α) (t : τ) : Option (SGBaseThreadSafeQueue τ α) :=
  match s.site t with
  | .idle => none
  | .putLock item => s.lock t (.putTest item)
  | .putTest none => some (s.raise t)
  | .putTest (some item) => some (s.goto t (.putAdd item))
  | .putAdd item =>
    some ({ s with _mutableArray := s._mutableArray ++ [item], added := s.added ++ [(t, item)]
      }.goto t (.putUnlock item))
  | .putUnlock item =>
    let returned := s.returnedFromPut t ++ [item]
    some ({ s with returnedFromPut := Function.update s.returnedFromPut t returned }.unlock t)
  | .takeLock => s.lock t .takeCount
  | .takeCount => some (s.goto t (if s._mutableArray.isEmpty then .takeUnlock none else .takeFirst))
  | .takeFirst =>
    match s._mutableArray with
    | [] => some (s.raise t)
    | item :: _ => some (s.goto t (.takeRemove item))
  | .takeRemove item =>
    match s._mutableArray with
    | [] => some (s.raise t)
    | _ :: array =>
      some ({ s with _mutableArray := array, removed := s.removed ++ [(t, item)] }.goto t
        (.takeUnlock (some item)))
  | .takeUnlock item =>
    let returned := s.returnedFromTake t ++ item.toList
    some ({ s with returnedFromTake := Function.update s.returnedFromTake t returned }.unlock t)

def step (s : SGBaseThreadSafeQueue τ α) : τ × QueueAction α → Option (SGBaseThreadSafeQueue τ α)
  | (t, .put item) => match s.site t with
    | .idle => some (s.goto t (.putLock item))
    | _ => none
  | (t, .take) => match s.site t with
    | .idle => some (s.goto t .takeLock)
    | _ => none
  | (t, .next) => s.next t

def byThread (t : τ) (log : List (τ × α)) : List α :=
  (log.filter fun entry => entry.1 = t).map Prod.snd

/-- Items are taken in the order in which they were put, none twice, and those that are
not taken are in the array. What a thread put and what it was given are the items that
its operations added and removed. -/
structure Ordered (s : SGBaseThreadSafeQueue τ α) : Prop where
  fifo : s.added.map Prod.snd = s.removed.map Prod.snd ++ s._mutableArray
  put : ∀ t, byThread t s.added = s.returnedFromPut t ++ (s.site t).added
  taken : ∀ t, byThread t s.removed = s.returnedFromTake t ++ (s.site t).removed

/-- A thread that is in no operation does not have the lock. -/
def Released (s : SGBaseThreadSafeQueue τ α) : Prop :=
  ∀ t, s.site t = .idle → s._lock ≠ some t

/-- The step is not the test for `nil` of an item that is `nil`. -/
def PutsItem (s : SGBaseThreadSafeQueue τ α) : τ × QueueAction α → Prop
  | (t, .next) => s.site t ≠ .putTest none
  | _ => True

-- What a step keeps

structure Inv (s : SGBaseThreadSafeQueue τ α) : Prop where
  ordered : Ordered s
  holder : ∀ t, (s.site t).Locked → s._lock = some t
  knows : ∀ t, (s.site t).Knows s._mutableArray

variable {s s' : SGBaseThreadSafeQueue τ α} {t u : τ} {item : α} {here site : QueueSite α}
  {log : List (τ × α)}
  {action : τ × QueueAction α} {actions : List (τ × QueueAction α)}

@[simp] theorem goto_site : (s.goto t site).site = Function.update s.site t site := rfl

@[simp] theorem goto_lock : (s.goto t site)._lock = s._lock := rfl

@[simp] theorem goto_array : (s.goto t site)._mutableArray = s._mutableArray := rfl

@[simp] theorem byThread_nil : byThread t ([] : List (τ × α)) = [] := rfl

theorem byThread_append : byThread u (log ++ [(t, item)]) = byThread u log ++ if t = u then [item]
    else [] := by
  by_cases h : t = u
  · simp [byThread, h]
  · simp [byThread, h]

theorem inv_initial : Inv (initial : SGBaseThreadSafeQueue τ α) where
  ordered := ⟨rfl, fun _ => rfl, fun _ => rfl⟩
  holder _ hlocked := hlocked.elim
  knows _ := trivial

theorem Inv.alone (h : Inv s) (ht : s._lock = none ∨ (s.site t).Locked) (hu : u ≠ t) :
    ¬(s.site u).Locked := by
  intro hlocked
  have hholder := h.holder u hlocked
  rcases ht with hfree | ht
  · simp [hfree] at hholder
  · exact hu (Option.some.inj (hholder.symm.trans (h.holder t ht)))

theorem knows_of_not_locked (h : ¬site.Locked) (array : List α) : site.Knows array := by
  cases site with
  | takeFirst => exact absurd trivial h
  | takeRemove item => exact absurd trivial h
  | _ => trivial

theorem Ordered.of_others (h : Ordered s)
    (hothers : ∀ u ≠ t, s'.site u = s.site u ∧ byThread u s'.added = byThread u s.added ∧
      byThread u s'.removed = byThread u s.removed ∧ s'.returnedFromPut u = s.returnedFromPut u ∧
      s'.returnedFromTake u = s.returnedFromTake u)
    (hfifo : s'.added.map Prod.snd = s'.removed.map Prod.snd ++ s'._mutableArray)
    (hput : byThread t s'.added = s'.returnedFromPut t ++ (s'.site t).added)
    (htaken : byThread t s'.removed = s'.returnedFromTake t ++ (s'.site t).removed) :
    Ordered s' := by
  refine ⟨hfifo, fun u => ?_, fun u => ?_⟩
  · by_cases hu : u = t
    · exact hu ▸ hput
    · obtain ⟨hsite, hadded, -, hreturned, -⟩ := hothers u hu
      rw [hsite, hadded, hreturned]
      exact h.put u
  · by_cases hu : u = t
    · exact hu ▸ htaken
    · obtain ⟨hsite, -, hremoved, -, hreturned⟩ := hothers u hu
      rw [hsite, hremoved, hreturned]
      exact h.taken u

theorem Ordered.goto (h : Ordered s) (hadded : site.added = (s.site t).added)
    (hremoved : site.removed = (s.site t).removed) : Ordered (s.goto t site) := by
  refine h.of_others (t := t) (fun u hu => ?_) h.fifo ?_ ?_
  · simp [SGBaseThreadSafeQueue.goto, hu]
  · simpa [hadded, SGBaseThreadSafeQueue.goto] using h.put t
  · simpa [hremoved, SGBaseThreadSafeQueue.goto] using h.taken t

theorem Inv.call (h : Inv s) (hidle : s.site t = .idle) (hlocked : ¬site.Locked)
    (hadded : site.added = []) (hremoved : site.removed = []) : Inv (s.goto t site) where
  ordered := h.ordered.goto (by rw [hidle, hadded]; rfl) (by rw [hidle, hremoved]; rfl)
  holder u := by
    by_cases hu : u = t
    · simp [hu, hlocked]
    · simpa [hu] using h.holder u
  knows u := by
    by_cases hu : u = t
    · simpa [hu] using knows_of_not_locked hlocked _
    · simpa [hu] using h.knows u

theorem Inv.of_alone (halone : ∀ u ≠ t, ¬(s.site u).Locked)
    (hsite : s'.site = Function.update s.site t site)
    (hholder : site.Locked → s'._lock = some t) (hknows : site.Knows s'._mutableArray)
    (hordered : Ordered s') :
    Inv s' where
  ordered := hordered
  holder u := by
    by_cases hu : u = t
    · simpa [hsite, hu] using hholder
    · simp [hsite, hu, halone u hu]
  knows u := by
    by_cases hu : u = t
    · simpa [hsite, hu] using hknows
    · simpa [hsite, hu] using knows_of_not_locked (halone u hu) _

theorem lock_inv (h : Inv s) (hsite : s.site t = here) (hknows : site.Knows s._mutableArray)
    (hadded : site.added = here.added) (hremoved : site.removed = here.removed)
    (hlock : s.lock t site = some s') :
    Inv s' := by
  subst hsite
  unfold lock at hlock
  split at hlock
  · next hfree =>
    obtain rfl := Option.some.inj hlock
    have halone : ∀ u ≠ t, ¬(s.site u).Locked :=
      fun u hu => h.alone (.inl (Option.isNone_iff_eq_none.mp hfree)) hu
    obtain ⟨hfifo, hput, htaken⟩ := h.ordered.goto hadded hremoved
    exact Inv.of_alone halone rfl (fun _ => rfl) hknows ⟨hfifo, hput, htaken⟩
  · contradiction

/-- The thread that has the lock goes on, or leaves its operation by an exception. -/
theorem goto_inv (h : Inv s) (hsite : s.site t = here) (hlocked : here.Locked)
    (hknows : site.Knows s._mutableArray)
    (hadded : site.added = here.added) (hremoved : site.removed = here.removed) :
    Inv (s.goto t site) := by
  subst hsite
  exact Inv.of_alone (fun _ hu => h.alone (.inr hlocked) hu) rfl
    (fun _ => h.holder t hlocked) hknows
    (h.ordered.goto hadded hremoved)

theorem putAdd_inv (h : Inv s) (hsite : s.site t = .putAdd item) :
    Inv ({ s with
      _mutableArray := s._mutableArray ++ [item], added := s.added ++ [(t, item)] }.goto t
      (.putUnlock item)) := by
  have hlocked : (s.site t).Locked := by simp [hsite, QueueSite.Locked]
  refine Inv.of_alone (fun _ hu => h.alone (.inr hlocked) hu) rfl
    (fun _ => h.holder t hlocked) trivial ?_
  refine h.ordered.of_others (t := t) (fun u hu => ?_) ?_ ?_ ?_
  · simp [goto, hu, byThread_append, hu.symm]
  · simp [goto, h.ordered.fifo]
  · have hput := h.ordered.put t
    simp only [hsite, QueueSite.added, List.append_nil] at hput
    simp [goto, byThread_append, hput, QueueSite.added]
  · have htaken := h.ordered.taken t
    simp only [hsite, QueueSite.removed] at htaken
    simpa [goto, QueueSite.removed] using htaken

theorem takeRemove_inv {array : List α} {first : α} (h : Inv s)
    (hsite : s.site t = .takeRemove item)
    (harray : s._mutableArray = first :: array) :
    Inv ({ s with _mutableArray := array, removed := s.removed ++ [(t, item)] }.goto t
      (.takeUnlock (some item))) := by
  have hlocked : (s.site t).Locked := by simp [hsite, QueueSite.Locked]
  have hfirst : first = item := by
    have hknown := h.knows t
    simpa [hsite, QueueSite.Knows, harray] using hknown
  refine Inv.of_alone (fun _ hu => h.alone (.inr hlocked) hu) rfl
    (fun _ => h.holder t hlocked) trivial ?_
  refine h.ordered.of_others (t := t) (fun u hu => ?_) ?_ ?_ ?_
  · simp [goto, hu, byThread_append, hu.symm]
  · simp [goto, h.ordered.fifo, harray, hfirst]
  · have hput := h.ordered.put t
    simp only [hsite, QueueSite.added] at hput
    simpa [goto, QueueSite.added] using hput
  · have htaken := h.ordered.taken t
    simp only [hsite, QueueSite.removed, List.append_nil] at htaken
    simp [goto, byThread_append, htaken, QueueSite.removed]

theorem unlock_inv (h : Inv s) (hlocked : (s.site t).Locked) :
    Inv ({ s with
      returnedFromPut :=
        Function.update s.returnedFromPut t (s.returnedFromPut t ++ (s.site t).added)
      returnedFromTake := Function.update s.returnedFromTake t
        (s.returnedFromTake t ++ (s.site t).removed) }.unlock t) := by
  refine Inv.of_alone (fun _ hu => h.alone (.inr hlocked) hu) rfl
    (fun hidle => hidle.elim) trivial ?_
  refine h.ordered.of_others (t := t) (fun u hu => ?_) h.ordered.fifo ?_ ?_
  · simp [unlock, goto, hu]
  · simpa [unlock, goto, QueueSite.added] using h.ordered.put t
  · simpa [unlock, goto, QueueSite.removed] using h.ordered.taken t

theorem next_inv (h : Inv s) (hnext : s.next t = some s') : Inv s' := by
  unfold next at hnext
  cases hsite : s.site t with
  | idle => simp [hsite] at hnext
  | putLock item =>
    simp only [hsite] at hnext
    exact lock_inv h hsite (show (QueueSite.putTest item).Knows _ from trivial) rfl rfl hnext
  | takeLock =>
    simp only [hsite] at hnext
    exact lock_inv h hsite (show QueueSite.takeCount.Knows _ from trivial) rfl rfl hnext
  | putTest item =>
    cases item with
    | none =>
      simp only [hsite, Option.some.injEq] at hnext
      subst hnext
      exact goto_inv h hsite trivial trivial rfl rfl
    | some item =>
      simp only [hsite, Option.some.injEq] at hnext
      subst hnext
      exact goto_inv h hsite trivial trivial rfl rfl
  | putAdd item =>
    simp only [hsite, Option.some.injEq] at hnext
    subst hnext
    exact putAdd_inv h hsite
  | putUnlock item =>
    simp only [hsite, Option.some.injEq] at hnext
    subst hnext
    simpa [hsite, QueueSite.added, QueueSite.removed] using unlock_inv h (t := t)
      (by simp [hsite, QueueSite.Locked])
  | takeUnlock item =>
    simp only [hsite, Option.some.injEq] at hnext
    subst hnext
    have hremoved : (QueueSite.takeUnlock item).removed = item.toList := by
      cases item with
      | none => rfl
      | some item => rfl
    simpa [hsite, hremoved, QueueSite.added] using unlock_inv h (t := t)
      (by simp [hsite, QueueSite.Locked])
  | takeCount =>
    simp only [hsite, Option.some.injEq] at hnext
    subst hnext
    split
    · exact goto_inv h hsite trivial trivial rfl rfl
    · next hcount =>
      exact goto_inv h hsite trivial (by simpa [QueueSite.Knows] using hcount) rfl rfl
  | takeFirst =>
    simp only [hsite] at hnext
    split at hnext
    · obtain rfl := Option.some.inj hnext
      exact goto_inv h hsite trivial trivial rfl rfl
    · next item array harray =>
      obtain rfl := Option.some.inj hnext
      exact goto_inv h hsite trivial (by simp [QueueSite.Knows, harray]) rfl rfl
  | takeRemove item =>
    simp only [hsite] at hnext
    split at hnext
    · obtain rfl := Option.some.inj hnext
      exact goto_inv h hsite trivial trivial rfl rfl
    · next first array harray =>
      obtain rfl := Option.some.inj hnext
      exact takeRemove_inv h hsite harray

theorem step_inv (h : Inv s) (hstep : s.step action = some s') : Inv s' := by
  obtain ⟨t, action⟩ := action
  cases action with
  | put item =>
    simp only [step] at hstep
    split at hstep
    · next hidle =>
      obtain rfl := Option.some.inj hstep
      exact h.call hidle (fun hlocked => hlocked) rfl rfl
    · contradiction
  | take =>
    simp only [step] at hstep
    split at hstep
    · next hidle =>
      obtain rfl := Option.some.inj hstep
      exact h.call hidle (fun hlocked => hlocked) rfl rfl
    · contradiction
  | next => exact next_inv h hstep

-- The lock

theorem released_goto (h : Released s) (hsite : site ≠ .idle) : Released (s.goto t site) := by
  intro u
  by_cases hu : u = t
  · simp [hu, hsite]
  · simpa [hu] using h u

theorem released_lock (hlock : s.lock t site = some s') (hsite : site ≠ .idle) : Released s' := by
  unfold lock at hlock
  split at hlock
  · obtain rfl := Option.some.inj hlock
    intro u hidle hholder
    obtain rfl : t = u := Option.some.inj hholder
    exact hsite (by simpa using hidle)
  · contradiction

/-- The steps of an operation keep the lock out of idle hands, unless `put:` raises. -/
theorem released_next (h : Inv s) (hreleased : Released s) (hitem : s.site t ≠ .putTest none)
    (hnext : s.next t = some s') : Released s' := by
  have hknown := h.knows t
  unfold next at hnext
  cases hsite : s.site t with
  | idle => simp [hsite] at hnext
  | putLock item =>
    simp only [hsite] at hnext
    exact released_lock hnext nofun
  | takeLock =>
    simp only [hsite] at hnext
    exact released_lock hnext nofun
  | putTest item =>
    cases item with
    | none => exact absurd hsite hitem
    | some item =>
      simp only [hsite, Option.some.injEq] at hnext
      exact hnext ▸ released_goto hreleased nofun
  | putAdd item =>
    simp only [hsite, Option.some.injEq] at hnext
    exact hnext ▸ released_goto (s := { s with _mutableArray := _, added := _ }) hreleased nofun
  | putUnlock item =>
    simp only [hsite, Option.some.injEq] at hnext
    exact hnext ▸ fun _ _ => nofun
  | takeUnlock item =>
    simp only [hsite, Option.some.injEq] at hnext
    exact hnext ▸ fun _ _ => nofun
  | takeCount =>
    simp only [hsite, Option.some.injEq] at hnext
    subst hnext
    split
    · exact released_goto hreleased nofun
    · exact released_goto hreleased nofun
  | takeFirst =>
    simp only [hsite, QueueSite.Knows] at hknown hnext
    split at hnext
    · contradiction
    · obtain rfl := Option.some.inj hnext
      exact released_goto hreleased nofun
  | takeRemove item =>
    simp only [hsite, QueueSite.Knows] at hknown hnext
    split at hnext
    · next harray => simp [harray] at hknown
    · exact Option.some.inj hnext ▸ released_goto (s := { s with
        _mutableArray := _, removed := _ }) hreleased nofun

theorem step_released (h : Inv s ∧ Released s) (hitem : PutsItem s action)
    (hstep : s.step action = some s') :
    Inv s' ∧ Released s' := by
  refine ⟨step_inv h.1 hstep, ?_⟩
  obtain ⟨t, action⟩ := action
  cases action with
  | put item =>
    simp only [step] at hstep
    split at hstep
    · exact Option.some.inj hstep ▸ released_goto h.2 nofun
    · contradiction
  | take =>
    simp only [step] at hstep
    split at hstep
    · exact Option.some.inj hstep ▸ released_goto h.2 nofun
    · contradiction
  | next => exact released_next h.1 h.2 hitem hstep

theorem raise_not_released (h : Inv s) (hitem : ¬PutsItem s action) :
    ∃ s', s.step action = some s' ∧ ¬(Ordered s' ∧ Released s') := by
  match action, hitem with
  | (t, .next), hitem =>
    have hsite : s.site t = .putTest none := Classical.not_not.mp hitem
    have hholder : s._lock = some t := h.holder t (by simp [hsite, QueueSite.Locked])
    refine ⟨s.raise t, by simp [step, next, hsite], fun hboth => hboth.2 t ?_ hholder⟩
    simp [raise]
  | (_, .put _), hitem => exact absurd trivial hitem
  | (_, .take), hitem => exact absurd trivial hitem

/-- Items come out in the order they went in, whatever raises. The lock is free after
every operation just where no item that is put is `nil`. -/
theorem released_iff (actions : List (τ × QueueAction α)) :
    ((∀ pre, pre <+: actions → ∀ s,
      Run.run step (initial : SGBaseThreadSafeQueue τ α) pre = some s →
        Ordered s ∧ Released s) ↔ Run.Guarded step PutsItem (initial :
        SGBaseThreadSafeQueue τ α) actions) ∧
    ∀ s, Run.run step (initial : SGBaseThreadSafeQueue τ α) actions = some s → Ordered s := by
  constructor
  · exact Run.holds_iff (fun h => ⟨h.1.ordered, h.2⟩) step_released
      (fun h => raise_not_released h.1)
      ⟨inv_initial, fun _ _ => nofun⟩
  · exact fun s hrun => (Run.run_invariant step_inv hrun inv_initial).ordered

/-- One thread puts `nil`: it is done, and the lock is its own. -/
theorem put_nil_keeps_lock :
    ∃ s, Run.run step (initial : SGBaseThreadSafeQueue Nat Nat)
      [(0, .put none), (0, .next), (0, .next)] = some s ∧
      s.site 0 = .idle ∧ s._lock = some 0 :=
  ⟨_, rfl, rfl, rfl⟩

structure Kept (t : τ) (added removed : List (τ × α)) (s : SGBaseThreadSafeQueue τ α) : Prop where
  inv : Inv s
  lock : s._lock = some t
  outside : ¬(s.site t).Locked
  added : s.added = added
  removed : s.removed = removed

theorem kept_goto {added removed : List (τ × α)} (h : Kept t added removed s)
    (hinv : Inv (s.goto u site)) (hsite : ¬site.Locked) : Kept t added removed (s.goto u site) := by
  refine ⟨hinv, h.lock, ?_, h.added, h.removed⟩
  by_cases hu : t = u
  · simpa [hu] using hsite
  · simpa [hu] using h.outside

theorem kept_step {added removed : List (τ × α)} (h : Kept t added removed s)
    (hstep : s.step action = some s') :
    Kept t added removed s' := by
  have hinv := step_inv h.inv hstep
  obtain ⟨u, action⟩ := action
  cases action with
  | put item =>
    simp only [step] at hstep
    split at hstep
    · obtain rfl := Option.some.inj hstep
      exact kept_goto h hinv fun hlocked => hlocked
    · contradiction
  | take =>
    simp only [step] at hstep
    split at hstep
    · obtain rfl := Option.some.inj hstep
      exact kept_goto h hinv fun hlocked => hlocked
    · contradiction
  | next =>
    -- no thread is in the locked part, and none gets there
    exfalso
    have houtside : ¬(s.site u).Locked := by
      intro hlocked
      obtain rfl := Option.some.inj ((h.inv.holder u hlocked).symm.trans h.lock)
      exact h.outside hlocked
    simp only [step, next, lock, h.lock] at hstep
    cases hsite : s.site u with
    | idle => simp [hsite] at hstep
    | putLock item => simp [hsite] at hstep
    | takeLock => simp [hsite] at hstep
    | _ => exact houtside (by simp [hsite, QueueSite.Locked])

theorem stuck_of_raise (h : Inv s) (hsite : s.site t = .putTest none)
    (hrun : Run.run step (s.raise t) actions = some s') :
    s'._lock = some t ∧ s'.added = s.added ∧ s'.removed = s.removed := by
  have hlocked : (s.site t).Locked := by simp [hsite, QueueSite.Locked]
  have hkept : Kept t s.added s.removed (s.raise t) :=
    ⟨goto_inv h hsite trivial trivial rfl rfl, h.holder t hlocked,
      by simp [raise, QueueSite.Locked], rfl, rfl⟩
  have hkept' := Run.run_invariant kept_step hrun hkept
  exact ⟨hkept'.lock, hkept'.added, hkept'.removed⟩

/-- Once `nil` has been put, nothing is put or taken any more, in whatever order the threads go
on. -/
theorem run_stuck {before after : List (τ × QueueAction α)}
    (hbefore : Run.run step initial before = some s)
    (hsite : s.site t = .putTest none) (hafter : Run.run step s ((t, .next) :: after) = some s') :
    s'._lock = some t ∧ s'.added = s.added ∧ s'.removed = s.removed := by
  obtain ⟨s₁, hraise, hrest⟩ := Run.run_cons.mp hafter
  simp only [step, next, hsite] at hraise
  obtain rfl := Option.some.inj hraise
  exact stuck_of_raise (Run.run_invariant step_inv hbefore inv_initial) hsite hrest

theorem run_stuck_two : ∃ s s',
    Run.run step (initial : SGBaseThreadSafeQueue Nat Nat) [(1, .put (some 5)),
      (0, .put none), (0, .next)] = some s ∧
    Run.run step s [(0, .next), (0, .take)] = some s' ∧ s'._lock = some 0 ∧ s'.added = s.added ∧
    s'.removed = s.removed :=
  have hbefore : Run.run step (initial : SGBaseThreadSafeQueue Nat Nat) [(1, .put (some 5)),
    (0, .put none), (0, .next)] =
      some _ := rfl
  ⟨_, _, hbefore, rfl, run_stuck hbefore rfl (show Run.run step _ ((0, .next) :: [(0, .take)]) =
    some _ from rfl)⟩

end SGBaseThreadSafeQueue

end BathyScaphe.Foundation
