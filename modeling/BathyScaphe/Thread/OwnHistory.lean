import BathyScaphe.Lib.Adjacent
import BathyScaphe.Lib.Run

/-!
# The history of a viewer

A viewer keeps the threads it has shown and the place of the one that it shows. A visit puts
a thread behind the current entry, merges equal neighbours and looks the place of the thread
up again; going back and forth moves the place only. The place that is looked up is that of
the first entry of the thread, so a thread that also stands in front of the current entry is
found there.
-/

namespace BathyScaphe.Thread

open Adjacent

/-- The thread that is shown, the entries, and the place of the current one; `none` stands
for `NSNotFound`. -/
structure OwnHistory (τ : Type u) where
  threadIdentifier : Option τ
  threadHistoryArray : List τ
  historyIndex : Option Nat

namespace OwnHistory

variable {τ : Type u}

def empty : OwnHistory τ := ⟨none, [], none⟩

section
variable [DecidableEq τ]

def threadIdentifierFromHistoryWithRelativeIndex (viewer : OwnHistory τ)
    (relativeIndex : Int) : Option τ :=
  match viewer.historyIndex with
  | none => none
  | some historyIndex =>
    if viewer.threadHistoryArray.length = 0 then none
    else
      let newIndex := historyIndex + relativeIndex
      if 0 ≤ newIndex ∧ newIndex < viewer.threadHistoryArray.length then
        viewer.threadHistoryArray[newIndex.toNat]?
      else none

/-- The loop of `compactThreadHistoryItems` over the first entries, from the last one on. -/
def compactFrom (items : List τ) (prev : Option τ) : Nat → List τ
  | 0 => items
  | i + 1 =>
    match items[i]? with
    | none => items
    | some object =>
      if prev = some object then compactFrom (items.eraseIdx i) prev i
      else compactFrom items (some object) i

def compactThreadHistoryItems (items : List τ) : List τ := compactFrom items none items.length

def noteHistoryThreadChanged (viewer : OwnHistory τ) (relativeIndex : Int) : OwnHistory τ :=
  if relativeIndex = 0 then
    match viewer.threadIdentifier with
    | none => viewer
    | some identifier =>
      let items :=
        match viewer.historyIndex with
        | none => viewer.threadHistoryArray ++ [identifier]
        | some historyIndex =>
          if historyIndex = viewer.threadHistoryArray.length - 1 then viewer.threadHistoryArray ++
            [identifier]
          else viewer.threadHistoryArray.insertIdx (historyIndex + 1) identifier
      let items := compactThreadHistoryItems items
      { viewer with threadHistoryArray := items, historyIndex := some (items.idxOf identifier) }
  else
    match viewer.historyIndex with
    | none => viewer
    | some historyIndex =>
      let count := viewer.threadHistoryArray.length
      let newIndex := historyIndex + relativeIndex
      let newIndex := if newIndex < 0 then 0 else newIndex
      let newIndex := if (count : Int) ≤ newIndex then (count : Int) - 1 else newIndex
      { viewer with historyIndex := some newIndex.toNat }

def clearThreadHistories (viewer : OwnHistory τ) : OwnHistory τ :=
  { viewer with threadHistoryArray := [], historyIndex := none }

def applicationDidReset (viewer : OwnHistory τ) : OwnHistory τ :=
  viewer.clearThreadHistories.noteHistoryThreadChanged 0

def setThreadContentWithFilePath (viewer : OwnHistory τ) (thread : τ) (relativeIndex : Int) :
    OwnHistory τ :=
  { viewer with threadIdentifier := some thread }.noteHistoryThreadChanged relativeIndex

/-- `isOpen` stands for a thread that another window shows already. -/
def setThreadContentWithThreadIdentifier (viewer : OwnHistory τ) (thread : τ) (isOpen : Bool)
    (relativeIndex : Int) : OwnHistory τ :=
  if viewer.threadIdentifier = some thread then viewer
  else if isOpen then viewer
  else viewer.setThreadContentWithFilePath thread relativeIndex

def performHistoryWithRelativeIndex (viewer : OwnHistory τ) (relativeIndex : Int) (isOpen : Bool) :
    OwnHistory τ :=
  match viewer.threadIdentifierFromHistoryWithRelativeIndex relativeIndex with
  | none => viewer
  | some thread => viewer.setThreadContentWithThreadIdentifier thread isOpen relativeIndex

inductive Event (τ : Type u)
  | visit (thread : τ)
  | go (relativeIndex : Int) (isOpen : Bool)
  | reset

def perform (viewer : OwnHistory τ) : Event τ → OwnHistory τ
  | .visit thread => viewer.setThreadContentWithFilePath thread 0
  | .go relativeIndex isOpen => viewer.performHistoryWithRelativeIndex relativeIndex isOpen
  | .reset => viewer.applicationDidReset

def step (viewer : OwnHistory τ) (event : Event τ) : Option (OwnHistory τ) :=
  some (viewer.perform event)

end

-- What a history is to be

/-- The place is that of an entry, and no two neighbours are equal. -/
structure Consistent (viewer : OwnHistory τ) : Prop where
  index : ∀ i ∈ viewer.historyIndex, i < viewer.threadHistoryArray.length
  apart : viewer.threadHistoryArray.IsChain (· ≠ ·)

def front (viewer : OwnHistory τ) : List τ := viewer.historyIndex.elim [] fun i =>
    viewer.threadHistoryArray.take (i + 1)

def back (viewer : OwnHistory τ) : List τ :=
  viewer.historyIndex.elim viewer.threadHistoryArray fun i => viewer.threadHistoryArray.drop (i + 1)

section
variable [DecidableEq τ]

/-- The thread stands between the entries that were in front and behind, or is merged with
one that is equal; its entry is the current one, and the one before is that which was current. -/
structure Visited (viewer : OwnHistory τ) (thread : τ) (viewer' : OwnHistory τ) : Prop where
  entries : viewer'.threadHistoryArray =
    if viewer.front.getLast? = some thread ∨ viewer.back.head? = some thread
      then viewer.front ++ viewer.back
    else viewer.front ++ thread :: viewer.back
  current : viewer'.historyIndex =
    some (if viewer.front.getLast? = some thread then viewer.front.length - 1
      else viewer.front.length)
  goesBack : ∀ current ∈ viewer.front.getLast?, current ≠ thread →
    viewer'.threadIdentifierFromHistoryWithRelativeIndex (-1) = some current

/-- What is asked of an event: the history stays consistent, and a visit is one. -/
structure Keeps (viewer : OwnHistory τ) (event : Event τ) : Prop where
  consistent : (viewer.perform event).Consistent
  visited : ∀ thread, event = .visit thread → Visited viewer thread (viewer.perform event)

end

/-- A visited thread has no entry in front of the current one. -/
def VisitsNew (viewer : OwnHistory τ) (event : Event τ) : Prop :=
  ∀ thread, event = .visit thread → ∀ i ∈ viewer.historyIndex,
    thread ∉ viewer.threadHistoryArray.take i

-- Compacting

section
variable [DecidableEq τ]

theorem compactFrom_append (items rest : List τ) :
    compactFrom (items ++ rest) rest.head? items.length = items.foldr push rest := by
  induction items using List.reverseRecOn generalizing rest with
  | nil => rfl
  | append_singleton items x ih =>
    have hget : (items ++ [x] ++ rest)[items.length]? = some x := by simp
    rw [List.length_append, List.length_singleton, compactFrom, hget, List.foldr_append,
      List.foldr_cons, List.foldr_nil]
    simp only
    split
    · rename_i hhead
      rw [push_of_head hhead, ← ih, List.append_assoc, List.eraseIdx_append_of_length_le
        (Nat.le_refl _), Nat.sub_self]
      rfl
    · rename_i hne
      rw [push_of_ne hne, ← ih, List.append_assoc]
      rfl

theorem compactThreadHistoryItems_eq (items : List τ) :
    compactThreadHistoryItems items = squeeze items := by
  have happend := compactFrom_append items []
  rwa [List.append_nil] at happend

end

-- A visit

/-- What every state has: besides, there are no entries without a current one. -/
structure Valid (viewer : OwnHistory τ) : Prop extends viewer.Consistent where
  unset : viewer.historyIndex = none → viewer.threadHistoryArray = []

section
variable {viewer : OwnHistory τ} {i : Nat}

theorem valid_clear (viewer : OwnHistory τ) : viewer.clearThreadHistories.Valid where
  index := by simp [clearThreadHistories]
  apart := .nil
  unset _ := rfl

theorem valid_empty : (empty : OwnHistory τ).Valid where
  index := by simp [empty]
  apart := .nil
  unset _ := rfl

theorem front_append_back (viewer : OwnHistory τ) :
    viewer.front ++ viewer.back = viewer.threadHistoryArray := by
  unfold front back
  cases viewer.historyIndex with
  | none => rfl
  | some i => exact List.take_append_drop _ _

theorem exists_current (h : viewer.Valid) (hi : viewer.historyIndex = some i) :
    ∃ current, viewer.threadHistoryArray[i]? = some current ∧
      viewer.front = viewer.threadHistoryArray.take i ++ [current] := by
  have hlt := h.index i hi
  refine ⟨viewer.threadHistoryArray[i], List.getElem?_eq_getElem hlt, ?_⟩
  rw [front, hi]
  exact List.take_succ_eq_append_getElem hlt

theorem lookup_back (hi : viewer.historyIndex = some (i + 1))
    (hlt : i + 1 < viewer.threadHistoryArray.length) :
    viewer.threadIdentifierFromHistoryWithRelativeIndex (-1) = viewer.threadHistoryArray[i]? := by
  have hback : ((i + 1 : Nat) : Int) + -1 = i := by omega
  simp only [threadIdentifierFromHistoryWithRelativeIndex, hi, hback]
  rw [if_neg (by omega), if_pos (by omega), Int.toNat_natCast]

theorem insertIdx_eq (items : List τ) (thread : τ) (h : i ≤ items.length) :
    items.insertIdx i thread = items.take i ++ thread :: items.drop i := by
  induction items generalizing i with
  | nil =>
    obtain rfl := Nat.le_zero.mp h
    rfl
  | cons x items ih =>
    cases i with
    | zero => rfl
    | succ i => simp [ih (Nat.le_of_succ_le_succ h)]

end

section
variable [DecidableEq τ] {viewer : OwnHistory τ}

theorem perform_visit (h : viewer.Valid) (thread : τ) :
    viewer.perform (.visit thread) =
      ⟨some thread, squeeze (viewer.front ++ thread :: viewer.back),
        some ((squeeze (viewer.front ++ thread :: viewer.back)).idxOf thread)⟩ := by
  simp only [perform, setThreadContentWithFilePath, noteHistoryThreadChanged, if_true,
    compactThreadHistoryItems_eq]
  cases hindex : viewer.historyIndex with
  | none => simp [front, back, hindex, h.unset hindex]
  | some i =>
    have hlt := h.index i hindex
    simp only [front, back, hindex, Option.elim_some]
    split
    · rename_i hlast
      rw [List.take_of_length_le (by omega), List.drop_of_length_le (by omega)]
    · rw [insertIdx_eq _ _ hlt]

/-- The entry of the visited thread, and what stands in front of it and behind. -/
theorem exists_entry (h : viewer.Valid) (thread : τ) :
    ∃ before after,
      (if viewer.front.getLast? = some thread ∨ viewer.back.head? = some thread
        then viewer.front ++ viewer.back
        else viewer.front ++ thread :: viewer.back) = before ++ thread :: after ∧
      before.length =
        (if viewer.front.getLast? = some thread then viewer.front.length - 1
          else viewer.front.length) ∧
      (thread ∈ before ↔ ∃ i ∈ viewer.historyIndex, thread ∈ viewer.threadHistoryArray.take i) ∧
      ∀ current ∈ viewer.front.getLast?, current ≠ thread → before.getLast? = some current := by
  cases hindex : viewer.historyIndex with
  | none =>
    have hitems := h.unset hindex
    exact ⟨[], [], by simp [front, back, hindex, hitems]⟩
  | some i =>
    obtain ⟨current, -, hfront⟩ := exists_current h hindex
    have hlast : viewer.front.getLast? = some current := by simp [hfront]
    rw [hlast]
    by_cases hcurrent : current = thread
    · -- the current entry is one of the thread
      subst hcurrent
      refine ⟨viewer.threadHistoryArray.take i, viewer.back, ?_, ?_, by simp, by simp⟩
      · simp [hfront]
      · simp [hfront]
    · have hne : some current ≠ some thread := fun heq => hcurrent (Option.some.inj heq)
      have hmem : thread ∈ viewer.front ↔
        ∃ i' ∈ some i, thread ∈ viewer.threadHistoryArray.take i' := by
        simp [hfront, Ne.symm hcurrent]
      by_cases hnext : viewer.back.head? = some thread
      · obtain ⟨after, hafter⟩ := List.head?_eq_some_iff.mp hnext
        refine ⟨viewer.front, after, ?_, by rw [if_neg hne], hmem, fun c hc _ => hlast.trans hc⟩
        rw [if_pos (.inr hnext), hafter]
      · refine ⟨viewer.front, viewer.back, ?_,
          by rw [if_neg hne], hmem, fun c hc _ => hlast.trans hc⟩
        rw [if_neg (not_or.mpr ⟨hne, hnext⟩)]

/-- The place that is looked up is that of the entry if the thread is not found in front of it. -/
theorem visited_iff (h : viewer.Valid) (thread : τ) :
    Visited viewer thread (viewer.perform (.visit thread)) ↔
      ∀ i ∈ viewer.historyIndex, thread ∉ viewer.threadHistoryArray.take i := by
  have hchain : (viewer.front ++ viewer.back).IsChain (· ≠ ·) :=
    (front_append_back viewer).symm ▸ h.apart
  obtain ⟨before, after, hentries, hlength, hmem, hlast⟩ := exists_entry h thread
  have hsqueeze := (squeeze_insert hchain thread).trans hentries
  have hnot : (∀ i ∈ viewer.historyIndex, thread ∉ viewer.threadHistoryArray.take i) ↔
    thread ∉ before := by
    rw [hmem]
    simp
  rw [hnot, perform_visit h, hsqueeze]
  constructor
  · intro hvisited hin
    have hcurrent := Option.some.inj hvisited.current
    have hlt := List.idxOf_lt_length_of_mem hin
    simp only [List.idxOf_append_of_mem hin] at hcurrent
    omega
  · intro hin
    have hidx : (before ++ thread :: after).idxOf thread = before.length := by
      simp [List.idxOf_append_of_notMem hin]
    refine ⟨hentries.symm, by simp only [hidx, hlength], fun current hcurrent hne => ?_⟩
    obtain ⟨before, rfl⟩ := List.getLast?_eq_some_iff.mp (hlast current hcurrent hne)
    rw [List.length_append, List.length_singleton] at hidx
    rw [lookup_back (congrArg some hidx) (by simp)]
    simp

theorem valid_visit (h : viewer.Valid) (thread : τ) : (viewer.perform (.visit thread)).Valid := by
  have hchain : (viewer.front ++ viewer.back).IsChain (· ≠ ·) :=
    (front_append_back viewer).symm ▸ h.apart
  obtain ⟨before, after, hentries, -⟩ := exists_entry h thread
  rw [perform_visit h]
  refine ⟨⟨?_, isChain_squeeze _⟩, by simp⟩
  rintro i hi
  obtain rfl := Option.some.inj hi
  apply List.idxOf_lt_length_of_mem
  rw [squeeze_insert hchain, hentries]
  simp

-- Runs

theorem valid_setThreadContent (h : viewer.Valid) (thread : τ) (relativeIndex : Int) :
    (viewer.setThreadContentWithFilePath thread relativeIndex).Valid := by
  by_cases hzero : relativeIndex = 0
  · subst hzero
    exact valid_visit h thread
  · unfold setThreadContentWithFilePath noteHistoryThreadChanged
    rw [if_neg hzero]
    cases hindex : viewer.historyIndex with
    | none => exact ⟨⟨by simp, h.apart⟩, fun _ => h.unset hindex⟩
    | some i =>
      have hlt := h.index i hindex
      refine ⟨⟨?_, h.apart⟩, by simp⟩
      rintro j hj
      obtain rfl := Option.some.inj hj
      simp only
      split <;> split <;> omega

theorem valid_go (h : viewer.Valid) (relativeIndex : Int) (isOpen : Bool) :
    (viewer.performHistoryWithRelativeIndex relativeIndex isOpen).Valid := by
  unfold performHistoryWithRelativeIndex setThreadContentWithThreadIdentifier
  cases viewer.threadIdentifierFromHistoryWithRelativeIndex relativeIndex with
  | none => exact h
  | some thread =>
    simp only
    split
    · exact h
    · split
      · exact h
      · exact valid_setThreadContent h thread relativeIndex

theorem valid_reset (viewer : OwnHistory τ) : viewer.applicationDidReset.Valid := by
  unfold applicationDidReset
  cases hthread : viewer.threadIdentifier with
  | none =>
    unfold noteHistoryThreadChanged
    simpa [clearThreadHistories, hthread] using valid_clear viewer
  | some thread =>
    have hsame : { viewer.clearThreadHistories with threadIdentifier := some thread } =
        viewer.clearThreadHistories := by simp [clearThreadHistories, hthread]
    have hvalid := valid_setThreadContent (valid_clear viewer) thread 0
    rwa [setThreadContentWithFilePath, hsame] at hvalid

theorem valid_perform (h : viewer.Valid) (event : Event τ) : (viewer.perform event).Valid := by
  cases event with
  | visit thread => exact valid_visit h thread
  | go relativeIndex isOpen => exact valid_go h relativeIndex isOpen
  | reset => exact valid_reset viewer

theorem keeps_iff (h : viewer.Valid) (event : Event τ) : Keeps viewer event ↔
    VisitsNew viewer event := by
  constructor
  · rintro hkeeps thread rfl
    exact (visited_iff h thread).mp (hkeeps.visited thread rfl)
  · intro hnew
    refine ⟨(valid_perform h event).toConsistent, ?_⟩
    rintro thread rfl
    exact (visited_iff h thread).mpr (hnew thread rfl)

/-- Each event of a run keeps the history exactly when each visit of the run is to a thread
that has no entry in front of the current one. -/
theorem keepsHistory_iff (events : List (Event τ)) :
    Run.Guarded step Keeps (empty : OwnHistory τ) events ↔
      Run.Guarded step VisitsNew empty events := by
  constructor
  · refine Run.Guarded.imp (fun {viewer event} hvalid hkeeps =>
      ⟨(keeps_iff hvalid event).mp hkeeps, ?_⟩) valid_empty
    exact fun viewer' hstep => Option.some.inj hstep ▸ valid_perform hvalid event
  · refine Run.Guarded.imp (fun {viewer event} hvalid hnew =>
      ⟨(keeps_iff hvalid event).mpr hnew, ?_⟩) valid_empty
    exact fun viewer' hstep => Option.some.inj hstep ▸ valid_perform hvalid event

/-- Coming back to the thread that was visited first. -/
theorem not_keepsHistory_return :
    ¬ Run.Guarded step Keeps (empty : OwnHistory Nat) [.visit 0, .visit 1, .visit 0] := by
  rintro ⟨-, hrest⟩
  obtain ⟨-, hrest⟩ := hrest _ rfl
  obtain ⟨hkeeps, -⟩ := hrest _ rfl
  exact absurd (hkeeps.visited 0 rfl).current (by decide)

end

end OwnHistory

end BathyScaphe.Thread
