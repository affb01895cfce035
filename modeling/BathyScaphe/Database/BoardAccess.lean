import BathyScaphe.Database.QueryText
import BathyScaphe.Database.SQLiteDB
import BathyScaphe.Database.Tables

/-!
# Board rows

A board is known by its number; its URL and its name are columns that can
change, and the values they had before are kept as history. Numbers are found by
URL or, with `LIKE`, by name; what was found by name is remembered in a cache of
the whole process that no rollback undoes. Whether a string is a URL is left to
Foundation.
-/

namespace BathyScaphe.Database

open SQLiteDB

abbrev NameCache := List (NSString × List Nat)

namespace BoardTables

def idForURL (url : NSString) (t : BoardTables) : Option Nat :=
  (t.boardInfo.rows.find? fun r => r.2.boardURL == url).map Prod.fst

def historyIDForURL (url : NSString) (t : BoardTables) : Option Nat :=
  (t.boardInfoHistory.find? fun h => h.boardURL == some url).map (·.boardID)

def likeName (name boardName : NSString) : Bool := sqlite.like (rawValue name) (rawValue boardName)

def idsLikeName (name : NSString) (t : BoardTables) : List Nat :=
  (t.boardInfo.rows.filter fun r => likeName name r.2.boardName).map Prod.fst

def historyIDsLikeName (name : NSString) (t : BoardTables) : List Nat :=
  (t.boardInfoHistory.filter fun h => h.boardName.any (likeName name)).map (·.boardID)

/-- `(SELECT max(boardID) FROM BoardInfo) + 1`, and 1 where there is no row. -/
def newID (t : BoardTables) : Nat := (t.boardInfo.rows.map Prod.fst).foldr max 0 + 1

def insertBoard (name url : NSString) (t : BoardTables) : Option BoardTables :=
  if (t.idForURL url).isSome then none
  else (t.boardInfo.insert t.newID ⟨name, url⟩).map fun rows => { t with boardInfo := rows }

def setURL (boardID : Nat) (url : NSString) (t : BoardTables) : Option BoardTables :=
  if (t.boardInfo.find boardID).isSome ∧
      t.boardInfo.rows.any (fun r => r.1 != boardID && r.2.boardURL == url) then none
  else some { t with
    boardInfo := t.boardInfo.update (fun k _ => k == boardID) ({ · with boardURL := url }) }

def setName (boardID : Nat) (name : NSString) (t : BoardTables) : BoardTables :=
  { t with
    boardInfo := t.boardInfo.update (fun k _ => k == boardID) ({ · with boardName := name }) }

def addHistory (row : BoardInfoHistory) (t : BoardTables) : BoardTables :=
  { t with boardInfoHistory := t.boardInfoHistory ++ [row] }

end BoardTables

def performBoardQuery (stmt : BoardTables → Option BoardTables) : Db Tables Unit :=
  performQuery fun t => (stmt t.boards).map fun boards => { t with boards := boards }

def boardIDForURLStringExceptingHistory (url : NSString) : Db Tables (Option Nat) := do
  return (← cursorForSQL fun t => t.boards.idForURL url).join

def boardIDForURLString (url : NSString) : Db Tables (Option Nat) := do
  match ← boardIDForURLStringExceptingHistory url with
  | some boardID => return some boardID
  | none => return (← cursorForSQL fun t => t.boards.historyIDForURL url).join

def urlStringForBoardID (isURL : NSString → Bool) (boardID : Nat) :
    Db Tables (Option NSString) := do
  if boardID = 0 then return none
  else
    let value ← cursorForSQL fun t => (t.boards.boardInfo.find boardID).map (·.boardURL)
    return value.join.filter isURL

def nameForBoardID (boardID : Nat) : Db Tables (Option NSString) := do
  if boardID = 0 then return none
  else return (← cursorForSQL fun t => (t.boards.boardInfo.find boardID).map (·.boardName)).join

def boardIDsForName (cache : NameCache) (name : NSString) : Db Tables (List Nat × NameCache) := do
  match cache.lookup name with
  | some ids => return (ids, cache)
  | none =>
    let ids := (← cursorForSQL fun t => t.boards.idsLikeName name).getD []
    if ids ≠ [] then return (ids, (name, ids) :: cache)
    else
      let ids := (← cursorForSQL fun t => t.boards.historyIDsLikeName name).getD []
      return (ids, if ids ≠ [] then (name, ids) :: cache else cache)

def registerBoardName (isURL : NSString → Bool) (name url : NSString) : Db Tables Bool := do
  if !isURL url then return false
  else
    performBoardQuery (·.insertBoard name url)
    return (← lastErrorID) = .ok

def abortChange : Db Tables Bool := do
  let _ ← rollbackTransaction
  return false

/-- The transaction of `moveBoardID:` and `renameBoardID:`. A transaction that is
open already is joined; its failure is rolled back here all the same. -/
def changeBoard (history : BoardInfoHistory) (stmt : BoardTables → Option BoardTables) :
    Db Tables Bool := do
  let begun ← beginTransaction
  if begun = false ∧ (← lastErrorID) ≠ .ok then return false
  else
    performBoardQuery fun t => some (t.addHistory history)
    let code ← lastErrorID
    if code ≠ .ok ∧ code ≠ .constraint then abortChange
    else
      performBoardQuery stmt
      if (← lastErrorID) ≠ .ok then abortChange
      else if begun then
        let _ ← commitTransaction
        return true
      else return true

def nullText : NSString := ns "(NULL)"

def moveBoardID (isURL : NSString → Bool) (boardID : Nat) (url : NSString) : Db Tables Bool := do
  if url = [] then return false
  else
    let current ← urlStringForBoardID isURL boardID
    if current = some url then return true
    else changeBoard ⟨boardID, none, some (current.getD nullText)⟩ (·.setURL boardID url)

def renameBoardID (cache : NameCache) (boardID : Nat) (name : NSString) :
    Db Tables (Bool × NameCache) := do
  if name = [] then return (false, cache)
  else
    let current ← nameForBoardID boardID
    if current = some name then return (true, cache)
    else
      let result ← changeBoard ⟨boardID, some (current.getD nullText), none⟩
        fun t => some (t.setName boardID name)
      return (result, [])

end BathyScaphe.Database
