import BathyScaphe.Database.ThreadAccess

/-!
# The subject list update

`BSDBThreadsListDBUpdateTask2` after its text has been read line by line: it
writes a row and a thread number for every line that names a thread, in one
transaction, and then deletes the rows nothing refers to in a second one.
-/

namespace BathyScaphe.Database

open SQLiteDB

structure SubjectLine where
  datString : NSString
  title : NSString
  count : UInt32
  count_le : count ≤ 0x7fffffff := by decide

/-- The key of the row, where `threadID` is what the column makes of a text. -/
def SubjectLine.key (threadID : NSString → Nat) (boardID : UInt32) (line : SubjectLine) :
    ThreadKey :=
  ⟨boardID, threadID line.datString⟩

def SubjectLine.numberKey (boardID : UInt32) (line : SubjectLine) : NumberKey :=
  ⟨boardID, line.datString⟩

/-- The statements the task prepares: one select, one insert, one update and one
for the thread numbers. -/
def makeQuerys : Db Tables Bool := do
  if ← reservedQuery then
    if ← reservedQuery then
      if ← reservedQuery then reservedQuery else return false
    else return false
  else return false

def listedStatus (newNumber readNumber : UInt32) : ThreadStatus :=
  if readNumber = 0 then .noCache
  else if newNumber ≤ readNumber then .logCached
  else .updated

def SubjectLine.newRow (line : SubjectLine) : ThreadInfo :=
  { threadName := line.title
    numberOfAll := line.count
    threadStatus := some .newCreated }

def ThreadInfo.relisted (row : ThreadInfo) (numberOfAll : Option UInt32)
    (threadStatus : Option ThreadStatus) : ThreadInfo :=
  { row with numberOfAll := numberOfAll, threadStatus := threadStatus }

/-- The statement for a listed thread, `none` when its row needs no change. -/
def lineStatement (k : ThreadKey) (line : SubjectLine) :
    Option ThreadInfo → Option (Tables → Option Tables)
  | none => some (Tables.insertThread k line.newRow)
  | some row =>
    let currentNumber := columnValue row.numberOfAll
    let currentStatus := row.threadStatus.getD .standard
    let newStatus := listedStatus line.count (columnValue row.numberOfRead)
    if currentNumber ≠ line.count ∨ currentStatus ≠ newStatus then
      some fun t => some (t.updateThread k (·.relisted line.count (some newStatus)))
    else none

def performIfNeeded : Option (Tables → Option Tables) → Db Tables Unit
  | some stmt => performQuery stmt
  | none => return ()

section
variable (threadID : NSString → Nat)

/-- `updateDB:ID:title:count:index:`, which fails only with its select; the other
errors are logged. -/
def updateDB (boardID : UInt32) (line : SubjectLine) (index : UInt32) : Db Tables Bool := do
  let k := line.key threadID boardID
  match ← cursorForSQL fun t => t.threadInfo.find k with
  | none => return false
  | some row =>
    performIfNeeded (lineStatement k line row)
    performQuery (Tables.insertNumber (line.numberKey boardID) index)
    return true

/-- The loop over the lines, `none` for a line the pattern does not match. It
answers whether the task goes on. -/
def registerLines (boardID : UInt32) : Nat → List (Option SubjectLine) → Db Tables Bool
  | _, [] => return true
  | i, line :: lines => do
    if ← isInterrupted then return false
    else match line with
      | none => registerLines boardID (i + 1) lines
      | some line =>
        if ← updateDB threadID boardID line (UInt32.ofNat i + 1) then
          registerLines boardID (i + 1) lines
        else return false

/-- A thread number of the board has a text that compares equal with the key. -/
def Tables.isNumbered (t : Tables) (k : ThreadKey) : Bool :=
  t.tempThreadNumber.rows.any fun (n, _) => n.boardID == k.boardID &&
    threadID n.threadID == k.threadID

def isUnused (boardID : UInt32) (t : Tables) (k : ThreadKey) (row : ThreadInfo) : Bool :=
  k.boardID == boardID && row.numberOfRead.isNone && !t.isNumbered threadID k

/-- `isDelete` is the template `System - Delete Unused Thread Informations`. -/
def deleteUnusedInfomations (isDelete : Bool) (boardID : UInt32) : Db Tables Unit := do
  if !isDelete then return ()
  else if ← beginTransaction then
    performQuery fun t => some (t.deleteThreads (isUnused threadID boardID t))
    let _ ← commitTransaction
  else return ()

end

def insertOrUpdateFromLogFiles : List LogFile → Db Tables Unit
  | [] => return ()
  | file :: files => do
    let _ ← insertThread file
    insertOrUpdateFromLogFiles files

structure UpdateTask where
  boardID : UInt32
  isRebuilding : Bool := false
  /-- The log files of the board, which a rebuilding task registers. -/
  logFiles : List LogFile := []
  isDelete : Bool := true
  /-- What the column `ThreadID` of `ThreadInfo`, an `INTEGER`, makes of a text. -/
  threadID : NSString → Nat

namespace UpdateTask

def finish (task : UpdateTask) : Db Tables Unit :=
  if task.isRebuilding then insertOrUpdateFromLogFiles task.logFiles
  else deleteUnusedInfomations task.threadID task.isDelete task.boardID

/-- `run` from the point where it has split the text. It answers whether the
lines were committed and the second part reached. -/
def run (task : UpdateTask) (lines : List (Option SubjectLine)) : Db Tables Bool := do
  if ← beginTransaction then
    if ← makeQuerys then
      if ← isInterrupted then abort
      else
        performQuery fun t => some (t.clearNumbers task.boardID)
        if ← registerLines task.threadID task.boardID 0 lines then
          let _ ← commitTransaction
          task.finish
          return true
        else abort
    else abort
  else
    task.finish
    return true

end UpdateTask

-- What it does when every statement succeeds

section
variable {threadID : NSString → Nat} {t : Tables} {e : Code} {i : Nat → Bool}

def Tables.listRow (threadID : NSString → Nat) (boardID : UInt32) (t : Tables)
    (line : SubjectLine) : Tables :=
  let k := line.key threadID boardID
  ((lineStatement k line (t.threadInfo.find k)).bind (· t)).getD t

/-- The number of a listed thread written, unless it has one. -/
def Tables.listNumber (k : NumberKey) (index : UInt32) (t : Tables) : Tables :=
  (t.insertNumber k index).getD t

def Tables.listLine (threadID : NSString → Nat) (boardID : UInt32) (index : UInt32) (t : Tables)
    (line : SubjectLine) : Tables :=
  (t.listRow threadID boardID line).listNumber (line.numberKey boardID) index

def Tables.listLines (threadID : NSString → Nat) (boardID : UInt32) :
    Nat → List (Option SubjectLine) → Tables → Tables
  | _, [], t => t
  | n, none :: lines, t => Tables.listLines threadID boardID (n + 1) lines t
  | n, some line :: lines, t =>
    Tables.listLines threadID boardID (n + 1) lines
      (t.listLine threadID boardID (UInt32.ofNat n + 1) line)

/-- The thread number the lines give a text: the place of the first line that has it. -/
def positionOf (datString : NSString) : Nat → List (Option SubjectLine) → Option UInt32
  | _, [] => none
  | n, none :: lines => positionOf datString (n + 1) lines
  | n, some line :: lines =>
    if line.datString = datString then some (UInt32.ofNat n + 1)
    else positionOf datString (n + 1) lines

theorem listRow_cases (threadID : NSString → Nat) (t : Tables) (boardID : UInt32)
    (line : SubjectLine) :
    let k := line.key threadID boardID
    (t.threadInfo.find k = none ∧
      t.insertThread k line.newRow = some (t.listRow threadID boardID line)) ∨
    (∃ row, t.threadInfo.find k = some row ∧
      t.listRow threadID boardID line = t.updateThread k
        (·.relisted line.count (some (listedStatus line.count (columnValue row.numberOfRead))))) ∨
    (∃ row, t.threadInfo.find k = some row ∧ t.listRow threadID boardID line = t ∧
      columnValue row.numberOfAll = line.count ∧
      row.threadStatus.getD .standard = listedStatus line.count
        (columnValue row.numberOfRead)) := by
  unfold Tables.listRow lineStatement
  dsimp only
  split
  · next hnone =>
    obtain ⟨rows, hrows⟩ := Table.insert_of_find_eq_none (r := line.newRow) hnone
    exact .inl ⟨hnone, by simp [Tables.insertThread, hrows]⟩
  · next row hrow =>
    split
    · exact .inr (.inl ⟨row, hrow, rfl⟩)
    · next hsame =>
      rw [not_or, not_not, not_not] at hsame
      exact .inr (.inr ⟨row, hrow, rfl, hsame⟩)

theorem listRow_eq (threadID : NSString → Nat) (t : Tables) (boardID : UInt32)
    (line : SubjectLine) :
    ∃ rows, t.listRow threadID boardID line = { t with threadInfo := rows } := by
  obtain ⟨-, hinsert⟩ | ⟨row, -, hupdate⟩ | ⟨row, -, hsame, -⟩ :=
    listRow_cases threadID t boardID line
  · obtain ⟨rows, -, heq⟩ := Option.map_eq_some_iff.mp hinsert
    exact ⟨rows, heq.symm⟩
  · exact ⟨_, hupdate⟩
  · exact ⟨_, hsame⟩

theorem tempThreadNumber_listRow (boardID : UInt32) (line : SubjectLine) :
    (t.listRow threadID boardID line).tempThreadNumber = t.tempThreadNumber := by
  obtain ⟨rows, hrows⟩ := listRow_eq threadID t boardID line
  rw [hrows]

theorem favorites_listLine (boardID index : UInt32) (line : SubjectLine) :
    (t.listLine threadID boardID index line).favorites = t.favorites := by
  obtain ⟨rows, hrows⟩ := listRow_eq threadID t boardID line
  unfold Tables.listLine Tables.listNumber Tables.insertNumber
  rw [hrows]
  cases t.tempThreadNumber.insert (line.numberKey boardID) index <;> rfl

theorem favorites_listLines (boardID : UInt32) (n : Nat) (lines : List (Option SubjectLine)) :
    (t.listLines threadID boardID n lines).favorites = t.favorites := by
  induction lines generalizing n t with
  | nil => rfl
  | cons line lines ih =>
    cases line with
    | none => exact ih (n + 1)
    | some line => exact (ih (n + 1)).trans (favorites_listLine boardID _ line)

theorem find_listNumber (k k' : NumberKey) (index : UInt32) :
    (t.listNumber k index).tempThreadNumber.find k' =
      (t.tempThreadNumber.find k').or (if k' = k then some index else none) := by
  unfold Tables.listNumber Tables.insertNumber
  cases h : t.tempThreadNumber.insert k index with
  | some rows =>
    have hnone : t.tempThreadNumber.find k = none := by
      cases hf : t.tempThreadNumber.find k with
      | none => rfl
      | some r => simp [Table.insert_eq_none.mpr (Option.isSome_of_eq_some hf)] at h
    rw [Option.map_some, Option.getD_some, Table.find_insert h]
    by_cases hk : k' = k
    · rw [hk, if_pos rfl, if_pos rfl, hnone, Option.none_or]
    · rw [if_neg hk, if_neg hk, Option.or_none]
  | none =>
    rw [Option.map_none, Option.getD_none]
    by_cases hk : k' = k
    · obtain ⟨r, hr⟩ := Option.isSome_iff_exists.mp (Table.insert_eq_none.mp h)
      rw [hk, hr, Option.some_or]
    · rw [if_neg hk, Option.or_none]

theorem find_listLines (boardID : UInt32) (n : Nat) (lines : List (Option SubjectLine))
    (k : NumberKey) :
    (t.listLines threadID boardID n lines).tempThreadNumber.find k = (t.tempThreadNumber.find k).or
      (if k.boardID = boardID then positionOf k.threadID n lines else none) := by
  induction lines generalizing n t with
  | nil => simp [Tables.listLines, positionOf]
  | cons line lines ih =>
    cases line with
    | none => simp only [Tables.listLines, positionOf, ih]
    | some line =>
      simp only [Tables.listLines, ih, Tables.listLine, find_listNumber, tempThreadNumber_listRow,
        positionOf, SubjectLine.numberKey]
      by_cases hb : k.boardID = boardID
      · by_cases hid : line.datString = k.threadID
        · have hk : k = ⟨boardID, line.datString⟩ := by
            cases k
            simp_all
          simp [hk]
        · have hk : k ≠ ⟨boardID, line.datString⟩ := fun h => hid (by rw [h])
          simp [hb, hid, hk]
      · have hk : k ≠ ⟨boardID, line.datString⟩ := fun h => hb (by rw [h])
        simp [hb, hk]

theorem isNumbered_iff (k : ThreadKey) : t.isNumbered threadID k = true ↔
    ∃ datString, threadID datString = k.threadID ∧
      (t.tempThreadNumber.find ⟨k.boardID, datString⟩).isSome := by
  unfold Tables.isNumbered
  rw [List.any_eq_true]
  constructor
  · rintro ⟨⟨⟨boardID, datString⟩, index⟩, hmem, hequal⟩
    simp only [Bool.and_eq_true, beq_iff_eq] at hequal
    obtain ⟨rfl, hid⟩ := hequal
    exact ⟨datString, hid, by rw [Table.find_eq_some.mpr hmem]; rfl⟩
  · rintro ⟨datString, hid, hsome⟩
    obtain ⟨index, hfind⟩ := Option.isSome_iff_exists.mp hsome
    exact ⟨_, Table.find_eq_some.mp hfind, by simp [hid]⟩

theorem find_listRow (threadID : NSString → Nat) (boardID : UInt32) (line : SubjectLine)
    (h : t.threadInfo.find k = some row) :
    ∃ all status,
      (t.listRow threadID boardID line).threadInfo.find k = some (row.relisted all status) := by
  have hsame : some row = some (row.relisted row.numberOfAll row.threadStatus) := rfl
  obtain ⟨hnone, hinsert⟩ | ⟨row', -, hupdate⟩ | ⟨row', -, heq, -⟩ :=
    listRow_cases threadID t boardID line
  · have hk : k ≠ line.key threadID boardID := by
      rintro rfl
      rw [h] at hnone
      cases hnone
    obtain ⟨rows, hrows, heq⟩ := Option.map_eq_some_iff.mp hinsert
    rw [← heq]
    exact ⟨_, _, by rw [Table.find_insert hrows, if_neg hk, h, hsame]⟩
  · rw [hupdate, Tables.updateThread, Table.find_update_key, h]
    by_cases hk : k = line.key threadID boardID
    · exact ⟨_, _, by rw [if_pos hk]; rfl⟩
    · exact ⟨_, _, by rw [if_neg hk, hsame]⟩
  · rw [heq]
    exact ⟨_, _, h.trans hsame⟩

theorem threadInfo_listLine (boardID index : UInt32) (line : SubjectLine) :
    (t.listLine threadID boardID index line).threadInfo =
      (t.listRow threadID boardID line).threadInfo := by
  unfold Tables.listLine Tables.listNumber Tables.insertNumber
  cases (t.listRow threadID boardID line).tempThreadNumber.insert
    (line.numberKey boardID) index <;> rfl

theorem find_threadInfo_listLines (threadID : NSString → Nat) (t : Tables)
    (boardID : UInt32) (n : Nat)
    (lines : List (Option SubjectLine)) (h : t.threadInfo.find k = some row) :
    ∃ all status,
      (t.listLines threadID boardID n lines).threadInfo.find k =
        some (row.relisted all status) := by
  induction lines generalizing n t row with
  | nil => exact ⟨row.numberOfAll, row.threadStatus, h⟩
  | cons line lines ih =>
    cases line with
    | none => exact ih t (n + 1) h
    | some line =>
      obtain ⟨all, status, hrow⟩ := find_listRow threadID boardID line h
      rw [← threadInfo_listLine boardID (UInt32.ofNat n + 1) line] at hrow
      obtain ⟨all', status', hrow'⟩ := ih _ (n + 1) hrow
      exact ⟨all', status', hrow'⟩

theorem performIfNeeded_working (stmt : Option (Tables → Option Tables)) :
    ∃ e', performIfNeeded stmt (working start t e i) =
      .ok () (working start ((stmt.bind (· t)).getD t) e' i) := by
  cases stmt with
  | none => exact ⟨e, by simp [performIfNeeded]⟩
  | some stmt => exact ⟨codeOf (stmt t), by simp [performIfNeeded]⟩

theorem updateDB_working (threadID : NSString → Nat) (boardID : UInt32) (line : SubjectLine)
    (index : UInt32) :
    ∃ e', updateDB threadID boardID line index (working start t e i) =
      .ok true (working start (t.listLine threadID boardID index line) e' i) := by
  obtain ⟨e₁, h₁⟩ : ∃ e', performIfNeeded
      (lineStatement (line.key threadID boardID) line (t.threadInfo.find
        (line.key threadID boardID)))
      (working start t .ok i) = .ok () (working start (t.listRow threadID boardID line) e' i) :=
    performIfNeeded_working _
  refine ⟨codeOf ((t.listRow threadID boardID line).insertNumber (line.numberKey boardID) index),
    ?_⟩
  simp [updateDB, h₁, Tables.listLine, Tables.listNumber]

theorem registerLines_working (threadID : NSString → Nat) (boardID : UInt32) (n : Nat)
    (lines : List (Option SubjectLine)) :
    ∃ b t' e' i', registerLines threadID boardID n lines (working start t e i) =
      .ok b (working start t' e' i') ∧ (b = true → t' = t.listLines threadID boardID n lines) := by
  induction lines generalizing n t e i with
  | nil => exact ⟨true, t, e, i, by simp [registerLines], fun _ => rfl⟩
  | cons line lines ih =>
    by_cases hi : i 0 = true
    · exact ⟨false, t, e, fun n => i (n + 1), by simp [registerLines, hi], by simp⟩
    · cases line with
      | none => simpa [registerLines, hi, Tables.listLines] using ih (n + 1)
      | some line =>
        obtain ⟨e₁, h₁⟩ : ∃ e', updateDB threadID boardID line (UInt32.ofNat n + 1)
            (working start t e fun n => i (n + 1)) = .ok true (working start
              (t.listLine threadID boardID (UInt32.ofNat n + 1) line) e' fun n => i (n + 1)) :=
          updateDB_working threadID boardID line (UInt32.ofNat n + 1)
        simpa [registerLines, hi, h₁, Tables.listLines] using ih (n + 1)

theorem insertOrUpdateFromLogFiles_idle (files : List LogFile) :
    ∃ e', insertOrUpdateFromLogFiles files (idle t e i) =
      .ok () (idle (files.foldl (fun t file => t.logged file) t) e' i) := by
  induction files generalizing t e with
  | nil => exact ⟨e, by simp [insertOrUpdateFromLogFiles]⟩
  | cons file files ih =>
    obtain ⟨b, e₁, h₁⟩ : ∃ b e', insertThread file (idle t e i) =
      .ok b (idle (t.logged file) e' i) := insertThread_idle file
    simpa [insertOrUpdateFromLogFiles, h₁] using ih

def UpdateTask.finished (task : UpdateTask) (t : Tables) : Tables :=
  if task.isRebuilding then task.logFiles.foldl (fun t file => t.logged file) t
  else if task.isDelete then t.deleteThreads (isUnused task.threadID task.boardID t)
  else t

theorem UpdateTask.finish_idle (task : UpdateTask) :
    ∃ e', task.finish (idle t e i) = .ok () (idle (task.finished t) e' i) := by
  unfold finish finished
  by_cases hr : task.isRebuilding = true
  · simpa only [hr, if_true] using insertOrUpdateFromLogFiles_idle task.logFiles
  · by_cases hd : task.isDelete = true
    · exact ⟨.ok, by simp [hr, hd, deleteUnusedInfomations]⟩
    · exact ⟨e, by simp [hr, hd, deleteUnusedInfomations]⟩

/-- The tables after the first part of a task that was not interrupted. -/
def UpdateTask.listed (task : UpdateTask) (lines : List (Option SubjectLine))
    (t : Tables) : Tables :=
  (t.clearNumbers task.boardID).listLines task.threadID task.boardID 0 lines

def UpdateTask.updated (task : UpdateTask) (lines : List (Option SubjectLine))
    (t : Tables) : Tables :=
  task.finished (task.listed lines t)

theorem find_clearNumbers (boardID : UInt32) (k : NumberKey) :
    (t.clearNumbers boardID).tempThreadNumber.find k =
      if k.boardID = boardID then none else t.tempThreadNumber.find k := by
  rw [Tables.clearNumbers, Table.find_delete]
  by_cases hk : k.boardID = boardID <;> cases t.tempThreadNumber.find k <;> simp [hk]

theorem positionOf_isSome_iff (datString : NSString) (n : Nat) (lines : List (Option SubjectLine)) :
    (positionOf datString n lines).isSome ↔ ∃ line, some line ∈ lines ∧
      line.datString = datString := by
  induction lines generalizing n with
  | nil => simp [positionOf]
  | cons line lines ih =>
    cases line with
    | none => simpa [positionOf] using ih (n + 1)
    | some line =>
      by_cases hid : line.datString = datString
      · simp [positionOf, hid]
      · simpa [positionOf, hid] using ih (n + 1)

theorem UpdateTask.find_listed (task : UpdateTask) (lines : List (Option SubjectLine))
    (k : NumberKey) :
    (task.listed lines t).tempThreadNumber.find k =
      if k.boardID = task.boardID then positionOf k.threadID 0 lines
      else t.tempThreadNumber.find k := by
  rw [listed, find_listLines, find_clearNumbers]
  by_cases hk : k.boardID = task.boardID <;> simp [hk]

theorem UpdateTask.isNumbered_listed (task : UpdateTask) (lines : List (Option SubjectLine))
    {k : ThreadKey} (hk : k.boardID = task.boardID) :
    (task.listed lines t).isNumbered task.threadID k = true ↔
      ∃ line, some line ∈ lines ∧ line.key task.threadID task.boardID = k := by
  rw [isNumbered_iff]
  simp only [find_listed, hk, if_true, positionOf_isSome_iff]
  constructor
  · rintro ⟨datString, hid, line, hline, rfl⟩
    exact ⟨line, hline, by rw [SubjectLine.key, hid, ← hk]⟩
  · rintro ⟨line, hline, rfl⟩
    exact ⟨line.datString, rfl, line, hline, rfl⟩

theorem UpdateTask.run_idle (task : UpdateTask) (lines : List (Option SubjectLine)) :
    ∃ b t' e' i', task.run lines (idle t e i) = .ok b (idle t' e' i') ∧
      (t' = t ∨ t' = task.updated lines t) := by
  have hquerys : makeQuerys (working t t .ok i) = .ok true (working t t .ok i) := by
    simp [makeQuerys]
  by_cases hi : i 0 = true
  · exact ⟨false, t, .ok, fun n => i (n + 1), by simp [run, hquerys, hi, abort], .inl rfl⟩
  · obtain ⟨b, t', e', i', hlines, ht'⟩ :
      ∃ b t' e' i', registerLines task.threadID task.boardID 0 lines
        (working t (t.clearNumbers task.boardID) .ok fun n => i (n + 1)) =
        .ok b (working t t' e' i') ∧ (b = true → t' = task.listed lines t) :=
      registerLines_working task.threadID task.boardID 0 lines
    cases b with
    | false =>
        exact ⟨false, t, .ok, i', by simp [run, hquerys, hi, codeOf, hlines, abort], .inl rfl⟩
    | true =>
      obtain ⟨e'', hfinish⟩ : ∃ e'', task.finish (idle t' .ok i') =
        .ok () (idle (task.finished t') e'' i') := task.finish_idle
      exact ⟨true, task.finished t', e'', i', by simp [run, hquerys, hi, codeOf, hlines, hfinish],
        .inr (congrArg task.finished (ht' rfl))⟩

end

end BathyScaphe.Database
