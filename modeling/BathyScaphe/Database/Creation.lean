import BathyScaphe.Database.SQLiteDB
import BathyScaphe.Database.Tables

/-!
# The schema of the database

The tables with their columns, the indexes and the view `BoardThreadInfo`, as
`createTables` makes them for a new database file. Every operation that changes
the schema sends its statements inside a transaction of its own and stops at the
first that fails.
-/

namespace BathyScaphe.Database

open SQLiteDB

inductive TableName where
  | favorites
  | boardInfo
  | threadInfo
  | boardInfoHistory
  | tempThreadNumber
  deriving DecidableEq, Repr

inductive Column where
  | boardID
  | boardName
  | boardURL
  | threadID
  | threadName
  | numberOfAll | numberOfRead
  | modifiedDate
  | lastWrittenDate
  | threadStatus
  | threadAboneType
  | threadLabel
  | isDatOchi
  | isFavorite
  | threadNumber
  | numberOfDifference
  | isCached
  | isUpdated
  | isNew
  | isHeadModified
  deriving DecidableEq, Repr

inductive DataType where
  | integerPrimaryKey
  | integerNotNull
  | textNotNull
  | text
  | number
  deriving DecidableEq, Repr

structure ColumnDef where
  column : Column
  dataType : DataType
  defaultValue : Option Int := none
  /-- The values of `CHECK(column IN (…))`. -/
  check : Option (List Int) := none
  deriving DecidableEq, Repr

/-- `table_column_INDEX` of the connection, and `table_columns_IDX` of the manager. -/
inductive IndexName where
  | index (table : TableName) (column : Column)
  | idx (table : TableName) (columns : List Column)
  deriving DecidableEq, Repr

structure Schema where
  columns : TableName → Option (List ColumnDef)
  /-- The indexes, and whether they are unique. -/
  indexes : IndexName → Option Bool
  /-- The columns that the view computes besides those of `ThreadInfo` and
  `BoardInfo`, which it takes as they are when it is read. -/
  view : Option (List Column)

structure Store where
  schema : Schema
  tables : Tables
  /-- `user_version` -/
  version : Int

namespace Store

def new : Store := ⟨⟨fun _ => none, fun _ => none, none⟩, Tables.empty, 0⟩

def setColumns (table : TableName) (defs : List ColumnDef) (s : Store) : Store :=
  { s with
    schema := { s.schema with columns := Function.update s.schema.columns table (some defs) } }

def setIndex (name : IndexName) (isUnique : Option Bool) (s : Store) : Store :=
  { s with schema := { s.schema with indexes := Function.update s.schema.indexes name isUnique } }

def setView (view : Option (List Column)) (s : Store) : Store :=
  { s with schema := { s.schema with view := view } }

def createTable (table : TableName) (defs : List ColumnDef) (s : Store) : Option Store :=
  if (s.schema.columns table).isSome then none else some (s.setColumns table defs)

def createIndex (name : IndexName) (isUnique : Bool) (s : Store) : Option Store :=
  if (s.schema.indexes name).isSome then none else some (s.setIndex name (some isUnique))

def dropIndex (name : IndexName) (s : Store) : Option Store :=
  if (s.schema.indexes name).isSome then some (s.setIndex name none) else none

/-- `ALTER TABLE ThreadInfo ADD COLUMN`; `fill` gives the rows the default. -/
def addThreadInfoColumn (d : ColumnDef) (fill : ThreadInfo → ThreadInfo) (s : Store) :
    Option Store :=
  match s.schema.columns .threadInfo with
  | none => none
  | some defs =>
    if defs.any (·.column = d.column) then none
    else some { s.setColumns .threadInfo (defs ++ [d]) with
      tables := { s.tables with threadInfo := s.tables.threadInfo.update (fun _ _ => true) fill } }

def dropView (s : Store) : Option Store :=
  if s.schema.view.isSome then some (s.setView none) else none

def createView (computed : List Column) (s : Store) : Option Store :=
  if s.schema.view.isSome then none else some (s.setView (some computed))

def setVersion (version : Int) (s : Store) : Option Store := some { s with version := version }

def insertDummyBoard (s : Store) : Option Store :=
  (s.tables.boards.boardInfo.insert 0 ⟨[], []⟩).map fun rows =>
    { s with tables := { s.tables with boards := { s.tables.boards with boardInfo := rows } } }

def insertDummyThread (s : Store) : Option Store :=
  (s.tables.insertThread ⟨0, 0⟩ { threadName := [] }).map fun tables => { s with tables := tables }

end Store

namespace Schema

def columnNames (s : Schema) (table : TableName) : Option (List Column) :=
  (s.columns table).map (·.map (·.column))

/-- The columns of `SELECT * FROM ThreadInfo INNER JOIN BoardInfo USING(boardID)`,
and the computed ones. -/
def viewColumns (s : Schema) : Option (List Column) := do
  let computed ← s.view
  let threads ← s.columnNames .threadInfo
  let boards ← s.columnNames .boardInfo
  return threads ++ boards.filter (· ≠ .boardID) ++ computed

end Schema

-- Creating the tables

def favoritesColumns : List ColumnDef := [⟨.boardID, .integerNotNull, none, none⟩,
  ⟨.threadID, .textNotNull, none, none⟩]

def boardInfoColumns : List ColumnDef := [⟨.boardID, .integerPrimaryKey, none, none⟩,
  ⟨.boardName, .textNotNull, none, none⟩, ⟨.boardURL, .textNotNull, none, none⟩]

def isDatOchiDef : ColumnDef := ⟨.isDatOchi, .integerNotNull, some 0, some [0, 1]⟩

def isFavoriteDef : ColumnDef := ⟨.isFavorite, .integerNotNull, some 0, some [0, 1]⟩

def oldThreadInfoColumns : List ColumnDef := [⟨.boardID, .integerNotNull, none, none⟩,
  ⟨.threadID, .integerNotNull, none, none⟩, ⟨.threadName, .textNotNull, none, none⟩,
  ⟨.numberOfAll, .number, none, none⟩, ⟨.numberOfRead, .number, none, none⟩,
  ⟨.modifiedDate, .number, none, none⟩, ⟨.lastWrittenDate, .number, none, none⟩,
  ⟨.threadStatus, .number, none, none⟩, ⟨.threadAboneType, .number, none, none⟩,
  ⟨.threadLabel, .number, none, none⟩]

def threadInfoColumns : List ColumnDef := oldThreadInfoColumns ++ [isDatOchiDef, isFavoriteDef]

def boardInfoHistoryColumns : List ColumnDef := [⟨.boardID, .integerNotNull, none, none⟩,
  ⟨.boardName, .text, none, none⟩, ⟨.boardURL, .text, none, none⟩]

def tempThreadNumberColumns : List ColumnDef := [⟨.boardID, .integerNotNull, none, none⟩,
  ⟨.threadID, .textNotNull, none, none⟩, ⟨.threadNumber, .integerNotNull, none, none⟩]

/-- The list of tables and views is asked for a name; a failed query answers `NO`. -/
def containsTable (named : Store → Bool) : Db Store Bool := do
  return (← cursorForSQL named).getD false

def createUnlessThere (named : Store → Bool) (stmts : List (Store → Option Store)) :
    Db Store Bool := do
  if ← containsTable named then return true
  else performInTransaction (performAll stmts) true

def hasTable (table : TableName) (s : Store) : Bool := (s.schema.columns table).isSome

def createFavoritesTable : Db Store Bool := createUnlessThere (hasTable .favorites)
  [Store.createTable .favorites favoritesColumns,
    Store.createIndex (.idx .favorites [.boardID, .threadID]) true]

def createBoardInfoTable : Db Store Bool := createUnlessThere (hasTable .boardInfo)
  [Store.createTable .boardInfo boardInfoColumns,
    Store.createIndex (.index .boardInfo .boardID) true,
    Store.createIndex (.index .boardInfo .boardURL) true,
    Store.insertDummyBoard]

def createThreadInfoTable : Db Store Bool := createUnlessThere (hasTable .threadInfo)
  [Store.createTable .threadInfo threadInfoColumns,
    Store.createIndex (.idx .threadInfo [.boardID]) false,
    Store.createIndex (.idx .threadInfo [.threadID]) false,
    Store.createIndex (.idx .threadInfo [.boardID, .threadID]) true,
    Store.insertDummyThread]

def createBoardInfoHistoryTable : Db Store Bool := createUnlessThere (hasTable .boardInfoHistory)
  [Store.createTable .boardInfoHistory boardInfoHistoryColumns,
    Store.createIndex (.index .boardInfoHistory .boardID) false]

def createTempThreadNumberTable : Db Store Bool := createUnlessThere (hasTable .tempThreadNumber)
  [Store.createTable .tempThreadNumber tempThreadNumberColumns,
    Store.createIndex (.idx .tempThreadNumber [.boardID, .threadID]) true]

def createBoardThreadInfoView : Db Store Bool := createUnlessThere (fun s => s.schema.view.isSome)
  [Store.createView [.numberOfDifference]]

def databaseFileVersion : Int := 5

def createTables : Db Store Bool := do
  if ← createFavoritesTable then
    if ← createBoardInfoTable then
      if ← createThreadInfoTable then
        if ← createBoardInfoHistoryTable then
          if ← createTempThreadNumberTable then
            if ← createBoardThreadInfoView then performAll [Store.setVersion databaseFileVersion]
            else return false
          else return false
        else return false
      else return false
    else return false
  else return false

def created : Store := (after createTables (idle Store.new .ok fun _ => false)).contents

theorem viewColumns_created : created.schema.viewColumns =
    some (threadInfoColumns.map (·.column) ++ [.boardName, .boardURL] ++
      [.numberOfDifference]) := by
  simp [created, after, createTables, createFavoritesTable, createBoardInfoTable,
    createThreadInfoTable, createBoardInfoHistoryTable, createTempThreadNumberTable,
    createBoardThreadInfoView, createUnlessThere, containsTable, hasTable, performInTransaction,
    performAll, codeOf, Store.new, Store.createTable, Store.createIndex, Store.setColumns,
    Store.setIndex, Store.insertDummyBoard, Store.insertDummyThread, Tables.insertThread,
    Table.insert, Tables.empty, Table.empty, Store.createView, Store.setView, Store.setVersion,
    Schema.viewColumns, Schema.columnNames, boardInfoColumns]

end BathyScaphe.Database
