import BathyScaphe.Database.SQLiteDB
import BathyScaphe.Database.Tables

/-!
# Thread rows

The operations of the database manager and of the tasks that write the rows of
threads. A favorite is kept twice: as a row of `Favorites` and in the column
`IsFavorite` of its `ThreadInfo` row.
-/

namespace BathyScaphe.Database

open SQLiteDB

-- Favorites

/-- The label `abort` of an operation that answers `NO` after its rollback. -/
def abort : Db Tables Bool := do
  let _ ← rollbackTransaction
  return false

/-- Both favorite operations: the column, then the row of `Favorites`, in one
transaction. -/
def changeFavorite (k : ThreadKey) (flag : Bool) (stmt : Tables → Option Tables) :
    Db Tables Bool := do
  if ← beginTransaction then
    performQuery fun t => some (t.updateThread k ({ · with isFavorite := flag }))
    if (← lastErrorID) ≠ .ok then abort else
      performQuery stmt
      if (← lastErrorID) ≠ .ok then abort else
        let _ ← commitTransaction
        return true else return false

def appendFavorite (k : ThreadKey) : Db Tables Bool :=
  changeFavorite k true (Tables.insertFavorite k)

def removeFavorite (k : ThreadKey) : Db Tables Bool :=
  changeFavorite k false fun t => some (t.deleteFavorite k)

-- Log files

structure LogFile where
  key : ThreadKey
  title : NSString
  count : UInt32
  date : Int
  isDatOchi : Bool

def isRegisteredWithFavoritesTable (k : ThreadKey) : Db Tables Bool := do
  match ← cursorForSQL fun t => (t.favorites.find k).isSome with
  | some found => return found
  | none => return false

/-- `none` when there is no row, else its `numberOfAll`; a `NULL` there leaves
the caller's number at 0. -/
def isThreadIdentifierRegistered (k : ThreadKey) : Db Tables (Option UInt32) := do
  match ← cursorForSQL fun t => t.threadInfo.find k with
  | some (some row) => return some (columnValue row.numberOfAll)
  | _ => return none

/-- The columns an existing row gets, with the `numberOfAll` it had. -/
def LogFile.update (file : LogFile) (isFavorite : Bool) (number : UInt32) (row : ThreadInfo) :
    ThreadInfo :=
  { row with
    numberOfAll := some (if number < file.count then file.count else number)
    numberOfRead := file.count
    threadStatus := some (if number > file.count then .updated else .logCached)
    modifiedDate := file.date
    isFavorite := isFavorite
    isDatOchi := file.isDatOchi }

def LogFile.row (file : LogFile) (isFavorite : Bool) : ThreadInfo :=
  { threadName := file.title
    numberOfAll := file.count
    numberOfRead := file.count
    modifiedDate := file.date
    threadStatus := some .logCached
    isFavorite := isFavorite
    isDatOchi := file.isDatOchi }

def LogFile.statement (file : LogFile) (isFavorite : Bool) : Option UInt32 → Tables → Option Tables
  | some number => fun t => some (t.updateThread file.key (file.update isFavorite number))
  | none => Tables.insertThread file.key (file.row isFavorite)

def insertThread (file : LogFile) : Db Tables Bool := do
  let isFavorite ← isRegisteredWithFavoritesTable file.key
  let registered ← isThreadIdentifierRegistered file.key
  performQuery (file.statement isFavorite registered)
  return (← lastErrorID) = .ok

def deleteAllRecords (boardID : UInt32) : Db Tables Bool := do
  performQuery fun t => some (t.deleteThreads fun k _ => k.boardID == boardID)
  return (← lastErrorID) = .ok

def ThreadInfo.removed (row : ThreadInfo) : ThreadInfo :=
  { row with
    numberOfRead := none
    modifiedDate := none
    threadStatus := some .noCache
    threadAboneType := none
    threadLabel := none
    isDatOchi := false
    isFavorite := false }

/-- The loop over the removed files that belong to a registered board. -/
def cleanUpLoop : List ThreadKey → Db Tables Bool
  | [] => do
    let _ ← commitTransaction
    return true
  | k :: files => do
    performQuery fun t => some (t.updateThread k ThreadInfo.removed)
    if (← lastErrorID) ≠ .ok then abort else
      performQuery fun t => some (t.deleteFavorite k)
      if (← lastErrorID) ≠ .ok then abort
      else cleanUpLoop files

def cleanUp (files : List ThreadKey) : Db Tables Bool := do
  if ← beginTransaction then cleanUpLoop files else return false

def ThreadInfo.downloaded (count : UInt32) (modDate : Int) (row : ThreadInfo) : ThreadInfo :=
  { row with
    numberOfAll := count
    numberOfRead := count
    threadStatus := some .logCached
    modifiedDate := modDate }

/-- `threadTextDownloader:didUpdateWithContents:` for a board that is registered. -/
def didUpdate (k : ThreadKey) (count : UInt32) (modDate : Int) : Db Tables Unit :=
  performQuery fun t => some (t.updateThread k (ThreadInfo.downloaded count modDate))

-- The check of a smart board

def queriedThreads (query : ThreadKey → ThreadInfo → Bool) (t : Tables) :
    List (ThreadKey × ThreadInfo) :=
  t.threadInfo.rows.filter fun (k, row) => query k row

def threadInfomations (query : ThreadKey → ThreadInfo → Bool) :
    Db Tables (Option (List (ThreadKey × ThreadInfo))) := do
  if ← beginTransaction then
    match ← cursorForSQL (queriedThreads query) with
    | some rows =>
      let _ ← commitTransaction
      return some rows
    | none =>
      let _ ← rollbackTransaction
      return none
  else return none

def minimumThreadCount : Nat := 50

def checkHOGELoop (query : ThreadKey → ThreadInfo → Bool) (result : List (UInt32 × Nat)) :
    List UInt32 → Db Tables (Option (List (UInt32 × Nat)))
  | [] => do
    let _ ← commitTransaction
    return some result
  | b :: boards => do
    match ← cursorForSQL fun t => (queriedThreads query t).countP (·.1.boardID == b) with
    | some count =>
      checkHOGELoop query (if minimumThreadCount < count then result ++ [(b, count)]
        else result) boards
    | none =>
      let _ ← rollbackTransaction
      return none

/-- The boards with so many threads in the query that their subject list is asked
for instead. -/
def checkHOGE (query : ThreadKey → ThreadInfo → Bool) : Db Tables (Option (List (UInt32 × Nat))) :=
  do
  if ← beginTransaction then
    match ← cursorForSQL fun t => ((queriedThreads query t).map (·.1.boardID)).eraseDups with
    | some boards =>
      if ← reservedQuery then checkHOGELoop query [] boards
      else
        let _ ← rollbackTransaction
        return none
    | none =>
      let _ ← rollbackTransaction
      return none
  else return some []

def newThreads (query : ThreadKey → ThreadInfo → Bool) (t : Tables) : List ThreadKey :=
  (t.threadInfo.rows.filter fun (k, row) =>
    query k row && row.threadStatus == some .newCreated).map Prod.fst

def setStatus (status : ThreadStatus) (k : ThreadKey) (t : Tables) : Tables :=
  t.updateThread k ({ · with threadStatus := some status })

/-- The statement bound to one row after the other; its errors are not looked at. -/
def resetStatusLoop : List ThreadKey → Db Tables Unit
  | [] => return ()
  | k :: keys => do
    performQuery fun t => some (setStatus .noCache k t)
    resetStatusLoop keys

def resetNewStatus (query : ThreadKey → ThreadInfo → Bool) : Db Tables Unit := do
  if ← beginTransaction then
    let keys := (← cursorForSQL (newThreads query)).getD []
    if keys.isEmpty then
      let _ ← commitTransaction
    else if ← reservedQuery then
      resetStatusLoop keys
      let _ ← commitTransaction
    else
      let _ ← commitTransaction
  else return ()

/-- `updateDB:` of the check, over the threads the server has newer. -/
def headModifiedLoop : List ThreadKey → Db Tables Unit
  | [] => do
    let _ ← commitTransaction
  | k :: threads => do
    checkIsInterrupted
    performQuery fun t => some (setStatus .headModified k t)
    headModifiedLoop threads

def updateHeadModified (threads : List ThreadKey) : Db Tables Unit := do
  if threads.isEmpty then return ()
  else if ← beginTransaction then headModifiedLoop threads
  else return ()

-- What they do when every statement succeeds

section
variable {t : Tables} {e : Code} {i : Nat → Bool}

theorem changeFavorite_idle (stmt : Tables → Option Tables) :
    ∃ b, changeFavorite k flag stmt (idle t e i) = .ok b
      (idle ((stmt (t.updateThread k ({ · with isFavorite := flag }))).getD t) .ok i) := by
  cases h : stmt (t.updateThread k ({ · with isFavorite := flag })) with
  | none => exact ⟨false, by simp [changeFavorite, abort, codeOf, h]⟩
  | some t' => exact ⟨true, by simp [changeFavorite, codeOf, h]⟩

def Tables.registered (k : ThreadKey) (t : Tables) : Option UInt32 :=
  (t.threadInfo.find k).map fun row => columnValue row.numberOfAll

def Tables.logged (file : LogFile) (t : Tables) : Tables :=
  (file.statement (t.favorites.find file.key).isSome (t.registered file.key) t).getD t

theorem insertThread_idle (file : LogFile) :
    ∃ b e', insertThread file (idle t e i) = .ok b (idle (t.logged file) e' i) := by
  let stmt := file.statement (t.favorites.find file.key).isSome (t.registered file.key)
  refine ⟨codeOf (stmt t) = .ok, codeOf (stmt t), ?_⟩
  have hregistered : isThreadIdentifierRegistered file.key (idle t .ok i) =
      .ok (t.registered file.key) (idle t .ok i) := by
    cases h : t.threadInfo.find file.key <;>
      simp [isThreadIdentifierRegistered, Tables.registered, h]
  simp [insertThread, isRegisteredWithFavoritesTable, hregistered, Tables.logged, stmt]

def Tables.cleanUp (t : Tables) (k : ThreadKey) : Tables :=
  (t.updateThread k ThreadInfo.removed).deleteFavorite k

theorem cleanUpLoop_working (files : List ThreadKey) :
    cleanUpLoop files (working start t e i) =
      .ok true (idle (files.foldl Tables.cleanUp t) .ok i) := by
  induction files generalizing t e with
  | nil => simp [cleanUpLoop]
  | cons k files ih => simp [cleanUpLoop, codeOf, ih, Tables.cleanUp]

theorem cleanUp_idle (files : List ThreadKey) :
    cleanUp files (idle t e i) = .ok true (idle (files.foldl Tables.cleanUp t) .ok i) := by
  simp [cleanUp, cleanUpLoop_working]

theorem deleteAllRecords_idle (boardID : UInt32) : deleteAllRecords boardID (idle t e i) =
    .ok true (idle (t.deleteThreads fun k _ => k.boardID == boardID) .ok i) := by
  simp [deleteAllRecords, codeOf]

end

end BathyScaphe.Database
