import BathyScaphe.Foundation.NSString
import BathyScaphe.Lib.Run
import Mathlib.Data.List.Nodup
import Mathlib.Data.List.Perm.Basic
import Mathlib.Logic.Function.Iterate

/-!
# The task manager

The manager makes a controller for every task that is added, and finds it again in a
dictionary by the identifier of the task. Tasks with equal identifiers share one entry
of the dictionary, and every task that finishes takes the current task away.
-/

namespace BathyScaphe.Tasks

variable {τ : Type} [DecidableEq τ]

structure CMRTaskItemController (τ : Type) where
  number : Nat
  task : τ
  deriving DecidableEq

/-- `registered` has a task once for each time the manager registered with the
notification center for it. -/
structure CMRTaskManager (τ : Type) where
  taskItemControllers : List (CMRTaskItemController τ) := []
  controllerMapping : NSString → Option (CMRTaskItemController τ) := fun _ => none
  tasksInProgress : List τ := []
  currentTask : Option τ := none
  registered : List τ := []
  controllersMade : Nat := 0

namespace CMRTaskManager

variable (identifier : τ → Option NSString)

def controllerForTask (manager : CMRTaskManager τ) (aTask : τ) : Option (CMRTaskItemController τ) :=
  (identifier aTask).bind manager.controllerMapping

def addTask (aTask : τ) (manager : CMRTaskManager τ) : CMRTaskManager τ :=
  match identifier aTask with
  | none => manager
  | some name =>
    let controller := ⟨manager.controllersMade, aTask⟩
    { manager with
      taskItemControllers := manager.taskItemControllers ++ [controller]
      controllerMapping := fun key => if key = name then some controller
      else manager.controllerMapping key
      registered := manager.registered ++ [aTask]
      controllersMade := manager.controllersMade + 1 }

def addTaskInProgress (aTask : τ) (manager : CMRTaskManager τ) : CMRTaskManager τ :=
  match manager.controllerForTask identifier aTask with
  | none => manager
  | some _ => { manager with tasksInProgress := manager.tasksInProgress ++ [aTask] }

def removeTask (aTask : τ) (manager : CMRTaskManager τ) : CMRTaskManager τ :=
  match manager.controllerForTask identifier aTask with
  | none => manager
  | some controller =>
    { manager with
      tasksInProgress := manager.tasksInProgress.filter fun other => other ≠ aTask
      controllerMapping := fun key => if identifier aTask = some key then none
      else manager.controllerMapping key
      taskItemControllers := manager.taskItemControllers.filter fun other => other ≠ controller }

def taskWillStartProcessing (aTask : τ) (manager : CMRTaskManager τ) : CMRTaskManager τ :=
  { manager.addTaskInProgress identifier aTask with currentTask := some aTask }

def removeFromNotificationWithTask (aTask : τ) (manager : CMRTaskManager τ) : CMRTaskManager τ :=
  { manager with registered := manager.registered.filter fun other => other ≠ aTask }

def taskDidFinishProcessing (aTask : τ) (manager : CMRTaskManager τ) : CMRTaskManager τ :=
  removeTask identifier aTask { manager.removeFromNotificationWithTask aTask with
    currentTask := none }

def post (handler : τ → CMRTaskManager τ → CMRTaskManager τ) (aTask : τ)
    (manager : CMRTaskManager τ) : CMRTaskManager τ :=
  (handler aTask)^[manager.registered.count aTask] manager

end CMRTaskManager

inductive TaskEvent (τ : Type) where
  | addTask (task : τ)
  | willStart (task : τ)
  | didFinish (task : τ)

def CMRTaskManager.receive (identifier : τ → Option NSString) (manager : CMRTaskManager τ) :
    TaskEvent τ → CMRTaskManager τ
  | .addTask task => manager.addTask identifier task
  | .willStart task => manager.post (taskWillStartProcessing identifier) task
  | .didFinish task => manager.post (taskDidFinishProcessing identifier) task

-- What happened to the tasks

/-- The tasks that are added and not yet finished, and those that are started and not
yet finished. -/
structure TaskRecord (τ : Type) where
  added : List τ := []
  started : List τ := []

def TaskRecord.receive (record : TaskRecord τ) : TaskEvent τ → TaskRecord τ
  | .addTask task => if task ∈ record.added then record
      else { record with added := record.added ++ [task] }
  | .willStart task => { record with started := record.started ++ [task] }
  | .didFinish task =>
    { added := record.added.filter fun other => other ≠ task
      started := record.started.filter fun other => other ≠ task }

/-- The manager has just one controller for each task that is added and not finished,
just those of them that are started are in progress, and the current task is one of
these unless there are none. -/
structure Agrees (manager : CMRTaskManager τ) (record : TaskRecord τ) : Prop where
  controllers : (manager.taskItemControllers.map CMRTaskItemController.task).Perm record.added
  inProgress : ∀ task, task ∈ manager.tasksInProgress ↔ task ∈ record.added ∧ task ∈ record.started
  current : ∀ task, manager.currentTask = some task → task ∈ manager.tasksInProgress
  idle : manager.currentTask = none → manager.tasksInProgress = []

structure Session (τ : Type) where
  manager : CMRTaskManager τ := {}
  record : TaskRecord τ := {}

def Session.receive (identifier : τ → Option NSString) (session : Session τ) (event : TaskEvent τ) :
    Session τ :=
  ⟨session.manager.receive identifier event, session.record.receive event⟩

/-- A task that is added has an identifier and is neither added nor started. When an
added task starts, the dictionary has a controller for its identifier; when it finishes,
this is its own and no other task is in progress. -/
def Meets (identifier : τ → Option NSString) (session : Session τ) : TaskEvent τ → Prop
  | .addTask task =>
    (identifier task).isSome ∧ task ∉ session.record.added ∧ task ∉ session.record.started
  | .willStart task =>
    task ∈ session.record.added → (session.manager.controllerForTask identifier task).isSome
  | .didFinish task =>
    task ∈ session.record.added →
      (∃ controller, session.manager.controllerForTask identifier task = some controller ∧
        controller.task = task) ∧ ∀ other ∈ session.manager.tasksInProgress, other = task

structure Kept (identifier : τ → Option NSString) (session : Session τ) : Prop where
  agrees : Agrees session.manager session.record
  nodup : session.record.added.Nodup
  identified : ∀ task ∈ session.record.added, (identifier task).isSome
  registered : ∀ task, session.manager.registered.count task = if task ∈ session.record.added then 1
  else 0
  mapped : ∀ name controller, session.manager.controllerMapping name = some controller →
    controller ∈ session.manager.taskItemControllers ∧ identifier controller.task = some name
  startedMapped : ∀ task ∈ session.manager.tasksInProgress,
    (session.manager.controllerForTask identifier task).isSome

section
variable {identifier : τ → Option NSString} {session : Session τ} {task : τ}

theorem kept_empty (identifier : τ → Option NSString) : Kept identifier ({} : Session τ) where
  agrees := ⟨List.Perm.refl [], fun _ => by simp, nofun, fun _ => rfl⟩
  nodup := List.nodup_nil
  identified := nofun
  registered _ := rfl
  mapped := nofun
  startedMapped := nofun

theorem Kept.post_not_added (h : Kept identifier session) (hnot : task ∉ session.record.added)
    (handler : τ → CMRTaskManager τ → CMRTaskManager τ) :
    session.manager.post handler task = session.manager := by
  rw [CMRTaskManager.post, h.registered task, if_neg hnot]
  rfl

theorem Kept.post_added (h : Kept identifier session) (hadded : task ∈ session.record.added)
    (handler : τ → CMRTaskManager τ → CMRTaskManager τ) :
    session.manager.post handler task = handler task session.manager := by
  rw [CMRTaskManager.post, h.registered task, if_pos hadded]
  rfl

theorem Kept.mem_added (h : Kept identifier session) :
    (∃ controller ∈ session.manager.taskItemControllers, controller.task = task) ↔
      task ∈ session.record.added := by
  rw [← h.agrees.controllers.mem_iff, List.mem_map]

-- Adding

abbrev AgreesAfter (identifier : τ → Option NSString) (session : Session τ)
    (event : TaskEvent τ) : Prop :=
  Agrees (session.receive identifier event).manager (session.receive identifier event).record

omit [DecidableEq τ] in
theorem addTask_eq (hname : identifier task = some name) (manager : CMRTaskManager τ) :
    manager.addTask identifier task =
      { manager with
        taskItemControllers := manager.taskItemControllers ++ [⟨manager.controllersMade, task⟩]
        controllerMapping := fun key =>
          if key = name then some ⟨manager.controllersMade, task⟩ else manager.controllerMapping key
        registered := manager.registered ++ [task]
        controllersMade := manager.controllersMade + 1 } := by
  rw [CMRTaskManager.addTask, hname]

theorem Kept.meets_addTask (h : Kept identifier session)
    (hafter : AgreesAfter identifier session (.addTask task)) :
    Meets identifier session (.addTask task) := by
  obtain ⟨hcontrollers, hprogress, -, -⟩ := hafter
  change ((session.manager.addTask identifier task).taskItemControllers.map _).Perm
    (session.record.receive (.addTask task)).added at hcontrollers
  have hlength := h.agrees.controllers.length_eq
  cases hname : identifier task with
  | none =>
    -- no controller is made for the task
    have hnot : task ∉ session.record.added := fun hadded => by
      have hsome := h.identified task hadded
      rw [hname] at hsome
      cases hsome
    rw [CMRTaskManager.addTask, hname, TaskRecord.receive, if_neg hnot] at hcontrollers
    have hmore := hcontrollers.length_eq
    rw [List.length_append, hlength] at hmore
    simp at hmore
  | some name =>
    by_cases hadded : task ∈ session.record.added
    · -- the task has a controller already
      rw [addTask_eq hname, TaskRecord.receive, if_pos hadded] at hcontrollers
      have hmore := hcontrollers.length_eq
      rw [List.map_append, List.length_append, hlength] at hmore
      simp at hmore
    · refine ⟨hname ▸ rfl, hadded, fun hstarted => hadded ?_⟩
      have hin := (hprogress task).mpr
      simp only [Session.receive, CMRTaskManager.receive, addTask_eq hname, TaskRecord.receive,
        if_neg hadded] at hin
      exact ((h.agrees.inProgress task).mp (hin ⟨List.mem_append_right _ List.mem_cons_self,
        hstarted⟩)).1

theorem Kept.addTask (h : Kept identifier session)
    (hmeets : Meets identifier session (.addTask task)) :
    Kept identifier (session.receive identifier (.addTask task)) := by
  obtain ⟨hsome, hadded, hstarted⟩ := hmeets
  obtain ⟨name, hname⟩ := Option.isSome_iff_exists.mp hsome
  rw [Session.receive, CMRTaskManager.receive, addTask_eq hname, TaskRecord.receive, if_neg hadded]
  refine ⟨⟨?_, fun other => ?_, h.agrees.current, h.agrees.idle⟩, ?_, fun other hother =>
    ?_, fun other => ?_,
    fun key controller hkey => ?_, fun other hother => ?_⟩
  · rw [List.map_append]
    exact h.agrees.controllers.append_right [task]
  · rw [h.agrees.inProgress other, List.mem_append, List.mem_singleton]
    refine ⟨fun ⟨hin, hother⟩ => ⟨.inl hin, hother⟩, fun ⟨hin, hother⟩ =>
      ⟨hin.resolve_right ?_, hother⟩⟩
    rintro rfl
    exact hstarted hother
  · exact List.nodup_append.mpr ⟨h.nodup, List.pairwise_singleton _ task,
      fun other hother same hsame heq =>
      hadded (List.mem_singleton.mp hsame ▸ heq ▸ hother)⟩
  · obtain hother | hother := List.mem_append.mp hother
    · exact h.identified other hother
    · rw [List.mem_singleton.mp hother, hname]
      rfl
  · rw [List.count_append, h.registered other]
    obtain rfl | hne := eq_or_ne other task
    · rw [if_neg hadded, if_pos (List.mem_append_right _ List.mem_cons_self),
        List.count_singleton_self]
    · rw [List.count_eq_zero_of_not_mem (mt List.mem_singleton.mp hne)]
      simp only [List.mem_append, List.mem_singleton, hne, or_false, Nat.add_zero]
  · change (if key = name then some ⟨session.manager.controllersMade, task⟩
      else session.manager.controllerMapping key) = some controller at hkey
    split at hkey
    · rename_i heq
      obtain rfl := Option.some.inj hkey
      exact ⟨List.mem_append_right _ List.mem_cons_self, heq ▸ hname⟩
    · obtain ⟨hin, hidentifier⟩ := h.mapped key controller hkey
      exact ⟨List.mem_append_left _ hin, hidentifier⟩
  · obtain ⟨found, hfound⟩ := Option.isSome_iff_exists.mp (h.startedMapped other hother)
    obtain ⟨key, hkey, hmapped⟩ := Option.bind_eq_some_iff.mp hfound
    rw [CMRTaskManager.controllerForTask, hkey, Option.bind_some]
    change (if key = name then some ⟨session.manager.controllersMade, task⟩
      else session.manager.controllerMapping key : Option (CMRTaskItemController τ)).isSome
    split
    · rfl
    · rw [hmapped]
      rfl

-- Starting

theorem Kept.willStart_not_added (h : Kept identifier session)
    (hnot : task ∉ session.record.added) :
    Kept identifier (session.receive identifier (.willStart task)) := by
  rw [Session.receive, CMRTaskManager.receive, h.post_not_added hnot]
  refine ⟨⟨h.agrees.controllers, fun other => ?_, h.agrees.current, h.agrees.idle⟩,
    h.nodup, h.identified,
    h.registered, h.mapped, h.startedMapped⟩
  rw [h.agrees.inProgress other]
  show _ ↔ other ∈ session.record.added ∧ other ∈ session.record.started ++ [task]
  rw [List.mem_append, List.mem_singleton]
  refine and_congr_right fun hadded => ⟨.inl, fun hother => hother.resolve_right ?_⟩
  rintro rfl
  exact hnot hadded

theorem Kept.meets_willStart (h : Kept identifier session)
    (hafter : AgreesAfter identifier session (.willStart task)) :
    Meets identifier session (.willStart task) := by
  intro hadded
  by_contra hnone
  rw [Option.not_isSome_iff_eq_none] at hnone
  have hin := (hafter.inProgress task).mpr ⟨hadded, List.mem_append_right _ List.mem_cons_self⟩
  simp only [Session.receive, CMRTaskManager.receive, h.post_added hadded,
    CMRTaskManager.taskWillStartProcessing, CMRTaskManager.addTaskInProgress, hnone] at hin
  have hsome := h.startedMapped task hin
  rw [hnone] at hsome
  cases hsome

theorem Kept.willStart (h : Kept identifier session)
    (hmeets : Meets identifier session (.willStart task)) :
    Kept identifier (session.receive identifier (.willStart task)) := by
  by_cases hadded : task ∈ session.record.added
  · obtain ⟨controller, hcontroller⟩ := Option.isSome_iff_exists.mp (hmeets hadded)
    rw [Session.receive, CMRTaskManager.receive, h.post_added hadded,
      CMRTaskManager.taskWillStartProcessing, CMRTaskManager.addTaskInProgress, hcontroller]
    refine ⟨⟨h.agrees.controllers, fun other => ?_, fun other hother => ?_, nofun⟩,
      h.nodup, h.identified,
      h.registered, h.mapped, fun other hother => ?_⟩
    · show other ∈ session.manager.tasksInProgress ++ [task] ↔
        other ∈ session.record.added ∧ other ∈ session.record.started ++ [task]
      rw [List.mem_append, List.mem_append, List.mem_singleton, h.agrees.inProgress other]
      constructor
      · rintro (⟨hother, hin⟩ | rfl)
        · exact ⟨hother, .inl hin⟩
        · exact ⟨hadded, .inr rfl⟩
      · rintro ⟨hother, hin | rfl⟩
        · exact .inl ⟨hother, hin⟩
        · exact .inr rfl
    · rw [← Option.some.inj hother]
      exact List.mem_append_right _ List.mem_cons_self
    · obtain hother | hother := List.mem_append.mp hother
      · exact h.startedMapped other hother
      · rw [List.mem_singleton.mp hother]
        exact hmeets hadded
  · exact h.willStart_not_added hadded

-- Finishing

/-- Without the one controller of a task, the others are those of the other tasks. -/
theorem map_task_filter {controllers : List (CMRTaskItemController τ)}
    (h : (controllers.map CMRTaskItemController.task).Nodup) {controller : CMRTaskItemController τ}
    (hin : controller ∈ controllers) :
    (controllers.filter fun other => other ≠ controller).map CMRTaskItemController.task =
      (controllers.map CMRTaskItemController.task).filter fun other => other ≠ controller.task := by
  rw [List.filter_map]
  refine congrArg (List.map _) (List.filter_congr fun other hother => ?_)
  have hsame : other.task = controller.task ↔ other = controller :=
    ⟨fun heq => List.inj_on_of_nodup_map h hother hin heq, fun heq => congrArg _ heq⟩
  simp only [Function.comp_apply, ne_eq, hsame]

theorem mem_filter_ne {tasks : List τ} {other : τ} :
    other ∈ tasks.filter (fun other => other ≠ task) ↔ other ∈ tasks ∧ other ≠ task := by
  rw [List.mem_filter, decide_eq_true_iff]

theorem Kept.didFinish_not_added (h : Kept identifier session)
    (hnot : task ∉ session.record.added) :
    Kept identifier (session.receive identifier (.didFinish task)) := by
  have hadded : session.record.added.filter (fun other => other ≠ task) = session.record.added :=
    List.filter_eq_self.mpr fun other hother => decide_eq_true fun heq => hnot (heq ▸ hother)
  rw [Session.receive, CMRTaskManager.receive, h.post_not_added hnot, TaskRecord.receive, hadded]
  refine ⟨⟨h.agrees.controllers, fun other => ?_, h.agrees.current, h.agrees.idle⟩,
    h.nodup, h.identified,
    h.registered, h.mapped, h.startedMapped⟩
  rw [h.agrees.inProgress other, mem_filter_ne]
  refine and_congr_right fun hother => ⟨fun hstarted => ⟨hstarted, ?_⟩, And.left⟩
  rintro rfl
  exact hnot hother

theorem taskDidFinishProcessing_eq {manager : CMRTaskManager τ}
    (h : manager.controllerForTask identifier task = some controller) :
    manager.taskDidFinishProcessing identifier task =
      { manager with
        tasksInProgress := manager.tasksInProgress.filter fun other => other ≠ task
        controllerMapping := fun key => if identifier task = some key then none
        else manager.controllerMapping key
        taskItemControllers := manager.taskItemControllers.filter fun other => other ≠ controller
        registered := manager.registered.filter fun other => other ≠ task
        currentTask := none } := by
  have hkept : CMRTaskManager.controllerForTask identifier
      { manager.removeFromNotificationWithTask task with currentTask := none } task =
        some controller := h
  rw [CMRTaskManager.taskDidFinishProcessing, CMRTaskManager.removeTask, hkept]
  rfl

theorem taskDidFinishProcessing_none {manager : CMRTaskManager τ}
    (h : manager.controllerForTask identifier task = none) :
    manager.taskDidFinishProcessing identifier task =
      { manager with
        registered := manager.registered.filter fun other => other ≠ task
        currentTask := none } := by
  have hnone : CMRTaskManager.controllerForTask identifier
      { manager.removeFromNotificationWithTask task with currentTask := none } task = none := h
  rw [CMRTaskManager.taskDidFinishProcessing, CMRTaskManager.removeTask, hnone]
  rfl

theorem Kept.meets_didFinish (h : Kept identifier session)
    (hafter : AgreesAfter identifier session (.didFinish task)) :
    Meets identifier session (.didFinish task) := by
  intro hadded
  obtain ⟨controller, hin, htask⟩ := h.mem_added.mpr hadded
  obtain ⟨hcontrollers, -, -, hidle⟩ := hafter
  simp only [Session.receive, CMRTaskManager.receive, h.post_added hadded] at hcontrollers hidle
  -- the task that finished has no controller any more
  have hgone :
    task ∉ (session.manager.taskDidFinishProcessing identifier task).taskItemControllers.map
      CMRTaskItemController.task := by
    rw [hcontrollers.mem_iff, TaskRecord.receive, mem_filter_ne]
    exact fun hmem => hmem.2 rfl
  cases hfound : session.manager.controllerForTask identifier task with
  | none =>
    rw [taskDidFinishProcessing_none hfound] at hgone
    exact absurd (List.mem_map.mpr ⟨controller, hin, htask⟩) hgone
  | some found =>
    rw [taskDidFinishProcessing_eq hfound] at hgone hidle
    refine ⟨⟨found, rfl, ?_⟩, fun other hother => ?_⟩
    · by_contra hne
      refine hgone (List.mem_map.mpr ⟨controller, ?_, htask⟩)
      rw [List.mem_filter]
      refine ⟨hin, decide_eq_true fun heq => hne ?_⟩
      rw [← heq]
      exact htask
    · by_contra hne
      have hleft : other ∈ session.manager.tasksInProgress.filter fun other => other ≠ task :=
        mem_filter_ne.mpr ⟨hother, hne⟩
      have hnone : session.manager.tasksInProgress.filter (fun other => other ≠ task) = [] :=
        hidle rfl
      rw [hnone] at hleft
      cases hleft

theorem Kept.didFinish (h : Kept identifier session)
    (hmeets : Meets identifier session (.didFinish task)) :
    Kept identifier (session.receive identifier (.didFinish task)) := by
  by_cases hadded : task ∈ session.record.added
  · obtain ⟨⟨controller, hfound, htask⟩, hothers⟩ := hmeets hadded
    obtain ⟨name, hname, hmapped⟩ := Option.bind_eq_some_iff.mp hfound
    have hin := (h.mapped name controller hmapped).1
    have hdistinct : (session.manager.taskItemControllers.map CMRTaskItemController.task).Nodup :=
      h.agrees.controllers.nodup_iff.mpr h.nodup
    have hidle : session.manager.tasksInProgress.filter (fun other => other ≠ task) = [] :=
      List.filter_eq_nil_iff.mpr fun other hother => by
        rw [hothers other hother]
        simp
    rw [Session.receive, CMRTaskManager.receive, h.post_added hadded,
      taskDidFinishProcessing_eq hfound, TaskRecord.receive]
    refine ⟨⟨?_, fun other => ?_, nofun, fun _ => hidle⟩, h.nodup.filter _, fun other hother =>
      ?_, fun other => ?_,
      fun key found hkey => ?_, fun other hother => ?_⟩
    · rw [map_task_filter hdistinct hin, htask]
      exact h.agrees.controllers.filter _
    · rw [mem_filter_ne, mem_filter_ne, mem_filter_ne, h.agrees.inProgress other]
      exact ⟨fun ⟨⟨hother, hstarted⟩, hne⟩ => ⟨⟨hother, hne⟩, hstarted, hne⟩,
        fun ⟨⟨hother, hne⟩, hstarted, _⟩ => ⟨⟨hother, hstarted⟩, hne⟩⟩
    · exact h.identified other (mem_filter_ne.mp hother).1
    · simp only [mem_filter_ne]
      obtain rfl | hne := eq_or_ne other task
      · rw [if_neg fun hmem => hmem.2 rfl]
        exact List.count_eq_zero_of_not_mem fun hmem => (mem_filter_ne.mp hmem).2 rfl
      · rw [List.count_filter (p := fun other => decide (other ≠ task)) (decide_eq_true hne),
          h.registered other]
        simp only [hne, ne_eq, not_false_eq_true, and_true]
    · change (if identifier task = some key then none else session.manager.controllerMapping key) =
        some found at hkey
      split at hkey
      · cases hkey
      · rename_i hother
        obtain ⟨hfoundIn, hidentifier⟩ := h.mapped key found hkey
        refine ⟨List.mem_filter.mpr ⟨hfoundIn, decide_eq_true fun heq => hother ?_⟩, hidentifier⟩
        rw [← hidentifier, heq, htask]
    · rw [hidle] at hother
      cases hother
  · exact h.didFinish_not_added hadded

-- Runs

theorem Kept.meets (h : Kept identifier session) (event : TaskEvent τ)
    (hafter : AgreesAfter identifier session event) : Meets identifier session event := by
  cases event with
  | addTask task => exact h.meets_addTask hafter
  | willStart task => exact h.meets_willStart hafter
  | didFinish task => exact h.meets_didFinish hafter

theorem Kept.receive (h : Kept identifier session) (event : TaskEvent τ)
    (hmeets : Meets identifier session event) :
    Kept identifier (session.receive identifier event) := by
  cases event with
  | addTask task => exact h.addTask hmeets
  | willStart task => exact h.willStart hmeets
  | didFinish task => exact h.didFinish hmeets

end

/-- Over every sequence of events the lists of the manager are those of the tasks after
each of them, just when each of them meets the condition. -/
theorem receive_agreesAfter_iff (identifier : τ → Option NSString) (events : List (TaskEvent τ)) :
    Run.Guarded (fun session event => some (Session.receive identifier session event))
      (AgreesAfter identifier) {}
        events ↔
      Run.Guarded (fun session event => some (Session.receive identifier session event))
        (Meets identifier) {}
        events := by
  constructor
  · refine Run.Guarded.imp (fun {session event} h hafter => ?_) (kept_empty identifier)
    have hmeets := h.meets event hafter
    exact ⟨hmeets, fun _ hnext => Option.some.inj hnext ▸ h.receive event hmeets⟩
  · refine Run.Guarded.imp (fun {session event} h hmeets => ?_) (kept_empty identifier)
    have hkept := h.receive event hmeets
    exact ⟨hkept.agrees, fun _ hnext => Option.some.inj hnext ▸ hkept⟩

/-- Two tasks with one identifier, of which the first finishes. -/
theorem receive_equal_identifiers_fails :
    ¬Run.Guarded (fun session event =>
      some (Session.receive (fun _ => some (ns "t")) session event))
      (AgreesAfter fun _ => some (ns "t")) {} [TaskEvent.addTask false, .addTask true,
        .didFinish false] := by
  intro h
  have hthird := (((h.2 _ rfl).2 _ rfl).1).controllers
  exact absurd (hthird.mem_iff (a := false)) (by decide)

end BathyScaphe.Tasks
