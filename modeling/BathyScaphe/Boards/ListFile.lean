import BathyScaphe.Database.BoardAccess
import BathyScaphe.Smart.Coding

/-!
# The board list file

`plist` of a board list and `initWithContentsOfFile:`. A board is written with its
name, its URL and its represented name. Loading looks it up in the database by
URL, then by name; a board found by name gets the URL of the file, and one that
is not found is registered.
-/

namespace BathyScaphe.Boards

open Database SQLiteDB

/-- Board lists over what a board and a condition are. -/
inductive Tree (β γ : Type) where
  | board (b : β)
  | smart (name : NSString) (condition : γ)
  | favorites
  | folder (name : NSString) (items : List (Tree β γ))

structure SavedBoard where
  name : NSString
  url : NSString
  representName : Option NSString

/-- `representName`, which is the name where none is set. -/
def SavedBoard.shownName (b : SavedBoard) : NSString := b.representName.getD b.name

/-- The keys of a dictionary that the board list reads, but `Contents`. -/
structure PlistKeys where
  name : Option NSString := none
  url : Option NSString := none
  representName : Option NSString := none
  condition : Option Smart.Archived := none

inductive BoardPlist where
  | array (objects : List BoardPlist)
  | dict (keys : PlistKeys) (contents : Option (List BoardPlist))

-- Writing

def topName : NSString := ns "Top"

variable (isURL : NSString → Bool) (floatValue : Decimal → ℚ)

mutual

def plist : Tree SavedBoard (Smart.Built floatValue) → BoardPlist
  | .board b => .dict ⟨some b.name, some b.url, some b.shownName, none⟩ none
  | .smart name condition => .dict ⟨some name, none, none, some condition.val.encode⟩ none
  | .favorites => .array []  -- never asked
  | .folder name items =>
    -- the root has no dictionary of its own, and any other folder of its name has none either
    if name = topName then .array (itemsWithoutFavoriteItem items)
    else .dict { name := some name } (some (itemsWithoutFavoriteItem items))

def itemsWithoutFavoriteItem : List (Tree SavedBoard (Smart.Built floatValue)) → List BoardPlist
  | [] => []
  | .favorites :: rest => itemsWithoutFavoriteItem rest
  | item :: rest => plist item :: itemsWithoutFavoriteItem rest

end

-- Loading

def blockedURL : NSString := ns "http://sakura01.bbspink.com/bbbb/"

/-- `boardBoardListItemFromPlist:` of a dictionary with these values. -/
def boardFromPlist (cache : NameCache) (name url : NSString) :
    Db Tables (Option Nat × NameCache) := do
  if url = blockedURL then return (none, cache)
  else
    match ← boardIDForURLStringExceptingHistory url with
    | some boardID => return (some boardID, cache)
    | none =>
      match ← boardIDsForName cache name with
      | ([], cache) =>
        let isOK ← registerBoardName isURL name url
        let boardID ← boardIDForURLString url
        return (if isOK then boardID else none, cache)
      | (boardID :: _, cache) =>
        let _ ← moveBoardID isURL boardID url
        return (some boardID, cache)

/-- The entry `URL` of a dictionary; a board takes the place of what was made
before. -/
def urlFromPlist (cache : NameCache) (name : NSString) (item : Option (Tree Nat Smart.Condition)) :
    Option NSString → Db Tables (Option (Tree Nat Smart.Condition) × NameCache)
  | none => return (item, cache)
  | some url => do
    let board ← boardFromPlist isURL cache name url
    return (board.1.map .board, board.2)

def conditionFromPlist (name : NSString) (item : Option (Tree Nat Smart.Condition)) :
    Option Smart.Archived → Option (Tree Nat Smart.Condition)
  | none => item
  | some archive => (Smart.decode floatValue archive).map (.smart name)

mutual

/-- `baordListItemFromPlist:`. A dictionary is taken for a folder, a board and a
smart board in turn, and the last of them counts. -/
def itemFromPlist (cache : NameCache) :
    BoardPlist → Db Tables (Option (Tree Nat Smart.Condition) × NameCache)
  | .array _ => throw .assertion
  | .dict keys contents =>
    match keys.name with
    | none => return (none, cache)
    | some name => do
      let folder ← folderFromPlist cache name contents
      let board ← urlFromPlist isURL folder.2 name folder.1 keys.url
      return (conditionFromPlist floatValue name board.1 keys.condition, board.2)

def folderFromPlist (cache : NameCache) (name : NSString) :
    Option (List BoardPlist) → Db Tables (Option (Tree Nat Smart.Condition) × NameCache)
  | none => return (none, cache)
  | some contents => do
    let items ← itemsFromPlist cache contents
    return (some (.folder name items.1), items.2)

def itemsFromPlist (cache : NameCache) :
    List BoardPlist → Db Tables (List (Tree Nat Smart.Condition) × NameCache)
  | [] => return ([], cache)
  | object :: rest => do
    let item ← itemFromPlist cache object
    let items ← itemsFromPlist item.2 rest
    return (item.1.toList ++ items.1, items.2)

end

/-- `initWithContentsOfFile:` of a file that could be read: the items of the folder
`Top`. -/
def initWithContentsOfFile (cache : NameCache) (array : List BoardPlist) :
    Db Tables (List (Tree Nat Smart.Condition) × NameCache) := do
  if ← beginTransaction then
    let result ← itemsFromPlist isURL floatValue cache array
    let _ ← commitTransaction
    return result
  else return ([], cache)

end BathyScaphe.Boards
