import BathyScaphe.Foundation.NSString
import BathyScaphe.Lib.Table

/-!
# The tables of the database

The rows of boards, threads and favorites, and the statements that change thread
rows. The statements on board rows are with the operations on boards.
-/

namespace BathyScaphe.Database

inductive ThreadStatus where
  | standard
  | noCache
  | logCached
  | updated
  | newCreated
  | headModified
  deriving DecidableEq, Repr

structure ThreadKey where
  boardID : UInt32
  threadID : Nat
  deriving DecidableEq, Repr

/-- The key of `TempThreadNumber`, whose column `ThreadID` keeps a text as it is. -/
structure NumberKey where
  boardID : UInt32
  threadID : NSString
  deriving DecidableEq

/-- The columns of `ThreadInfo` besides its key; `none` is `NULL`. -/
structure ThreadInfo where
  threadName : NSString
  numberOfAll : Option UInt32 := none
  numberOfRead : Option UInt32 := none
  modifiedDate : Option Int := none
  lastWrittenDate : Option Int := none
  threadStatus : Option ThreadStatus := none
  threadAboneType : Option Int := none
  threadLabel : Option Int := none
  isDatOchi : Bool := false
  isFavorite : Bool := false
  deriving DecidableEq

structure BoardInfo where
  boardName : NSString
  boardURL : NSString
  deriving DecidableEq

structure BoardInfoHistory where
  boardID : Nat
  boardName : Option NSString
  boardURL : Option NSString

structure BoardTables where
  boardInfo : Table Nat BoardInfo
  boardInfoHistory : List BoardInfoHistory

structure Tables where
  boards : BoardTables
  threadInfo : Table ThreadKey ThreadInfo
  favorites : Table ThreadKey Unit
  /-- The thread numbers of the last subject list of each board. -/
  tempThreadNumber : Table NumberKey UInt32

def isAsciiDigit (c : UniChar) : Bool := uc '0' ≤ c && c ≤ uc '9'

def decimalValue (digits : NSString) : Nat :=
  digits.foldl (fun v c => 10 * v + (c.toNat - (uc '0').toNat)) 0

/-- `intValue` of the text of a number column, which stops at `INT_MAX`. -/
def intValue (n : UInt32) : UInt32 := if n ≤ 0x7fffffff then n else 0x7fffffff

/-- `intValue` of a number column, sent to `nil` where the column is `NULL`. -/
def columnValue (column : Option UInt32) : UInt32 := (column.map intValue).getD 0

namespace Tables

def empty : Tables := ⟨⟨Table.empty, []⟩, Table.empty, Table.empty, Table.empty⟩

def updateThread (k : ThreadKey) (f : ThreadInfo → ThreadInfo) (t : Tables) : Tables :=
  { t with threadInfo := t.threadInfo.update (fun k' _ => k' == k) f }

def insertThread (k : ThreadKey) (row : ThreadInfo) (t : Tables) : Option Tables :=
  (t.threadInfo.insert k row).map fun rows => { t with threadInfo := rows }

def deleteThreads (p : ThreadKey → ThreadInfo → Bool) (t : Tables) : Tables :=
  { t with threadInfo := t.threadInfo.delete p }

def insertFavorite (k : ThreadKey) (t : Tables) : Option Tables :=
  (t.favorites.insert k ()).map fun rows => { t with favorites := rows }

def deleteFavorite (k : ThreadKey) (t : Tables) : Tables :=
  { t with favorites := t.favorites.delete fun k' _ => k' == k }

def insertNumber (k : NumberKey) (index : UInt32) (t : Tables) : Option Tables :=
  (t.tempThreadNumber.insert k index).map fun rows => { t with tempThreadNumber := rows }

def clearNumbers (boardID : UInt32) (t : Tables) : Tables :=
  { t with tempThreadNumber := t.tempThreadNumber.delete fun k _ => k.boardID == boardID }

end Tables

end BathyScaphe.Database
