import BathyScaphe.Database.BoardAccess
import BathyScaphe.Lib.Memo
import BathyScaphe.Lib.Run

/-!
# Names of boards that are remembered

Two caches stand in front of the names of boards: the numbers that were found by a name, for the
whole process, and the name that the shared item of a board has read. Renaming a board empties the
first; registering a board does not, and nothing changes the name of an item.
-/

namespace BathyScaphe.Database

open SQLiteDB

-- The items of boards

/-- The names of the shared items, by the number of the board. -/
abbrev ItemNames := List (Nat × NSString)

namespace BoardBoardListItem

def name (itemNames : ItemNames) (boardID : Nat) : Db Tables (Option NSString × ItemNames) := do
  match itemNames.lookup boardID with
  | some name => return (some name, itemNames)
  | none =>
    match ← nameForBoardID boardID with
    | some name => return (some name, (boardID, name) :: itemNames)
    | none => return (none, itemNames)

def setName (cache : NameCache) (boardID : Nat) (name : NSString) : Db Tables NameCache := do
  let currentName ← nameForBoardID boardID
  if currentName = some name then return cache
  else
    let (_, cache) ← renameBoardID cache boardID name
    return cache

end BoardBoardListItem

-- Calls

structure NameState where
  db : SQLiteDB Tables
  boardIDNameCache : NameCache
  itemNames : ItemNames

inductive NameCall
  | registerBoardName (name url : NSString)
  | renameBoardID (boardID : Nat) (name : NSString)
  | setName (boardID : Nat) (name : NSString)
  | boardIDsForName (name : NSString)
  | name (boardID : Nat)

namespace NameState

variable {α : Type}

def after (s : NameState) (x : Db Tables α) (next : α → NameState → NameState) : NameState :=
  match x s.db with
  | .ok a db => next a { s with db := db }
  | .error _ db => { s with db := db }

def perform (isURL : NSString → Bool) (s : NameState) : NameCall → NameState
  | .registerBoardName name url => s.after (registerBoardName isURL name url) fun _ s => s
  | .renameBoardID boardID name =>
    s.after (renameBoardID s.boardIDNameCache boardID name) fun r s =>
      { s with boardIDNameCache := r.2 }
  | .setName boardID name =>
    s.after (BoardBoardListItem.setName s.boardIDNameCache boardID name) fun cache s =>
      { s with boardIDNameCache := cache }
  | .boardIDsForName name =>
    s.after (boardIDsForName s.boardIDNameCache name) fun r s => { s with boardIDNameCache := r.2 }
  | .name boardID => s.after (BoardBoardListItem.name s.itemNames boardID) fun r s =>
      { s with itemNames := r.2 }

def step (isURL : NSString → Bool) (s : NameState) (call : NameCall) : Option NameState :=
  some (s.perform isURL call)

end NameState

-- What the caches should be

namespace BoardTables

def sameName (name boardName : NSString) : Bool := rawValue name = rawValue boardName

def namedRows (name : NSString) (t : BoardTables) : List Nat :=
  (t.boardInfo.rows.filter fun r => sameName name r.2.boardName).map Prod.fst

def namedHistory (name : NSString) (t : BoardTables) : List Nat :=
  (t.boardInfoHistory.filter fun h => h.boardName.any (sameName name)).map (·.boardID)

/-- The boards of a name, and those that had it where there are none. -/
def idsNamed (name : NSString) (t : BoardTables) : List Nat :=
  if t.namedRows name ≠ [] then t.namedRows name else t.namedHistory name

def currentName (boardID : Nat) (t : BoardTables) : Option NSString :=
  (t.boardInfo.find boardID).map (·.boardName)

/-- As a pattern the name stands for itself among the names that are compared with it. -/
def Literal (name : NSString) (t : BoardTables) : Prop :=
  (∀ r ∈ t.boardInfo.rows, likeName name r.2.boardName = true →
    sameName name r.2.boardName = true) ∧
    (t.namedRows name = [] → ∀ h ∈ t.boardInfoHistory, ∀ boardName ∈ h.boardName,
      likeName name boardName = true → sameName name boardName = true)

end BoardTables

namespace NameState

variable (isURL : NSString → Bool) (s : NameState)

def boards : BoardTables := s.db.contents.boards

def Transparent : NameCall → Prop
  | .boardIDsForName name =>
    ∃ cache db, Database.boardIDsForName s.boardIDNameCache name s.db =
      .ok (s.boards.idsNamed name, cache) db
  | .name boardID =>
    ∃ names db, BoardBoardListItem.name s.itemNames boardID s.db =
      .ok (s.boards.currentName boardID, names) db
  | _ => True

def Answered : Prop := s.db.Succeed 4 ∧ s.db.begins 0 = .ok ∧ s.db.commits 0 = .ok

/-- The item of a board that gets another name has not read its name. -/
def Renames (boardID : Nat) (name : NSString) : Prop :=
  name = [] ∨ s.Answered ∧ (s.boards.currentName boardID = some name ∨
    s.itemNames.lookup boardID = none)

def Allowed : NameCall → Prop
  | .registerBoardName name url =>
    isURL url = false ∨ (s.boards.idForURL url).isSome ∨
      ∀ cached ids, s.boardIDNameCache.lookup cached = some ids →
      BoardTables.sameName cached name = false
  | .renameBoardID boardID name | .setName boardID name => s.Renames boardID name
  | .boardIDsForName name => (s.boardIDNameCache.lookup name).isSome ∨ s.Answered ∧
      s.boards.Literal name
  | .name boardID => (s.itemNames.lookup boardID).isSome ∨ s.Answered ∧ boardID ≠ 0

structure Fresh : Prop where
  cache : s.boardIDNameCache = []
  names : s.itemNames = []
  transaction : s.db.transaction = false
  saved : s.db.saved = none

structure Coherent : Prop where
  cache : Memo.Agrees s.boardIDNameCache fun name => some (s.boards.idsNamed name)
  names : Memo.Agrees s.itemNames fun boardID => s.boards.currentName boardID
  transaction : s.db.transaction = false
  saved : s.db.saved = none

end NameState

-- Statements that are answered

section
variable {db : SQLiteDB Tables} {isURL : NSString → Bool} {α : Type} {n : Nat}

theorem cursorForSQL_of_succeed (h : db.Succeed (n + 1)) (query : Tables → α) :
    cursorForSQL query db = .ok (some (query db.contents)) (db.answered .ok) ∧
      (db.answered .ok).Succeed n := by
  refine ⟨?_, fun i hi => h (i + 1) (Nat.succ_lt_succ hi)⟩
  unfold cursorForSQL
  rw [if_pos (h 0 (Nat.succ_pos n))]

theorem nameForBoardID_of_succeed (h : db.Succeed (n + 1)) {boardID : Nat} (hid : boardID ≠ 0) :
    nameForBoardID boardID db = .ok (db.contents.boards.currentName boardID) (db.answered .ok) := by
  unfold nameForBoardID
  rw [if_neg hid]
  simp only [bind_apply, (cursorForSQL_of_succeed h _).1, pure_apply, Option.join_some]
  rfl

theorem nameForBoardID_keeps (db : SQLiteDB Tables) (hsaved : db.saved = none) (boardID : Nat) :
    ∃ current db',
    nameForBoardID boardID db = .ok current db' ∧ SameTransaction db db' ∧
    db'.contents = db.contents ∧
      (∀ n, db.Succeed (n + 1) → db'.Succeed n) ∧
        ∀ name, current = some name → db.contents.boards.currentName boardID = some name := by
  unfold nameForBoardID
  split
  · exact ⟨none, db, rfl, ⟨rfl, rfl, rfl, rfl⟩, rfl, fun n h i hi => h i (by omega), fun _ hname =>
      by cases hname⟩
  · by_cases h0 : db.answers 0 = .ok
    · refine ⟨_, db.answered .ok, ?_, ⟨rfl, rfl, rfl, rfl⟩, rfl, fun n h i hi =>
        h (i + 1) (by omega), fun _ hname => hname⟩
      simp [cursorForSQL, h0, BoardTables.currentName]
    · refine ⟨none, db.answered (db.answers 0), ?_, ⟨rfl, rfl, rfl, rfl⟩, rfl,
        fun n h => absurd (h 0 (Nat.succ_pos n)) h0, fun _ hname => by cases hname⟩
      simp [cursorForSQL, h0, refused_of_saved db hsaved]

theorem registerBoardName_keeps (db : SQLiteDB Tables) (hsaved : db.saved = none)
    (name url : NSString) : ∃ b db',
    registerBoardName isURL name url db = .ok b db' ∧ SameTransaction db db' ∧
      (db'.contents = db.contents ∨ isURL url = true ∧ ∃ t,
        db.contents.boards.insertBoard name url = some t ∧
        db'.contents = { db.contents with boards := t }) := by
  unfold registerBoardName
  cases hurl : isURL url with
  | false => exact ⟨false, db, rfl, ⟨rfl, rfl, rfl, rfl⟩, .inl rfl⟩
  | true =>
    by_cases h0 : db.answers 0 = .ok
    · cases hinsert : db.contents.boards.insertBoard name url with
      | none =>
        refine ⟨false, db.answered .constraint, ?_, ⟨rfl, rfl, rfl, rfl⟩, .inl rfl⟩
        simp [performBoardQuery, performQuery, h0, hinsert, answered]
      | some t =>
        refine ⟨true, { db.answered .ok with contents := { db.contents with boards := t } },
          ?_, ⟨rfl, rfl, rfl, rfl⟩,
          .inr ⟨rfl, t, rfl, rfl⟩⟩
        simp [performBoardQuery, performQuery, h0, hinsert, answered]
    · refine ⟨false, db.answered (db.answers 0), ?_, ⟨rfl, rfl, rfl, rfl⟩, .inl rfl⟩
      simp [performBoardQuery, performQuery, h0, refused_of_saved db hsaved, answered]

theorem changeBoard_of_answered (h : db.Succeed 2) (hbegin : db.begins 0 = .ok)
    (hcommit : db.commits 0 = .ok)
    (htransaction : db.transaction = false) (hsaved : db.saved = none) (history : BoardInfoHistory)
    (boardID : Nat)
    (name : NSString) : ∃ db', changeBoard history (fun t => some (t.setName boardID name)) db =
      .ok true db' ∧
      db'.transaction = false ∧ db'.saved = none ∧
        db'.contents = { db.contents with
          boards := (db.contents.boards.addHistory history).setName boardID name } := by
  have h0 := h 0 (by omega)
  have h1 := h 1 (by omega)
  refine ⟨{ db with
    contents :=
      { db.contents with boards := (db.contents.boards.addHistory history).setName boardID name }
    saved := none, transaction := false, errcode := .ok
    begins := fun i => db.begins (i + 1), commits := fun i => db.commits (i + 1)
    answers := fun i => db.answers (i + 2), undoes := fun i => db.undoes (i + 2) },
      ?_, rfl, rfl, rfl⟩
  simp [changeBoard, beginTransaction, isTransaction, setTransaction, performBegin,
    performBoardQuery, performQuery,
    commitTransaction, performCommit, answered, htransaction, hsaved, hbegin, hcommit, h0, h1]

/-- A renaming leaves all as it is, or it empties the cache and renames the board. -/
theorem renameBoardID_of_answered (h : db.Succeed 3) (hbegin : db.begins 0 = .ok)
    (hcommit : db.commits 0 = .ok)
    (htransaction : db.transaction = false) (hsaved : db.saved = none) (cache : NameCache)
    (boardID : Nat)
    (name : NSString) : ∃ r cache' db', renameBoardID cache boardID name db = .ok (r, cache') db' ∧
      db'.transaction = false ∧ db'.saved = none ∧
        (cache' = cache ∧ db'.contents = db.contents ∨ cache' = [] ∧ ∃ history,
          db'.contents = { db.contents with
            boards := (db.contents.boards.addHistory history).setName boardID name }) := by
  unfold renameBoardID
  split
  · exact ⟨false, cache, db, rfl, htransaction, hsaved, .inl ⟨rfl, rfl⟩⟩
  · obtain ⟨current, db₁, hname, hsame, hcontents, hsucceed, -⟩ :=
      nameForBoardID_keeps db hsaved boardID
    rw [bind_apply, hname]
    dsimp only
    split
    · exact ⟨true, cache, db₁, rfl, hsame.transaction.trans htransaction, hsame.saved.trans hsaved,
        .inl ⟨rfl, hcontents⟩⟩
    · obtain ⟨db₂, hchange, htransaction', hsaved', hcontents'⟩ :=
        changeBoard_of_answered (hsucceed 2 h)
        (by rw [hsame.begins, hbegin]) (by rw [hsame.commits, hcommit])
        (hsame.transaction.trans htransaction)
        (hsame.saved.trans hsaved) ⟨boardID, some (current.getD nullText), none⟩ boardID name
      refine ⟨true, [], db₂, ?_, htransaction', hsaved',
        .inr ⟨rfl, ⟨boardID, some (current.getD nullText), none⟩, ?_⟩⟩
      · rw [bind_apply, hchange]
        rfl
      · rw [hcontents', hcontents]

theorem setName_of_answered (h : db.Succeed 4) (hbegin : db.begins 0 = .ok)
    (hcommit : db.commits 0 = .ok)
    (htransaction : db.transaction = false) (hsaved : db.saved = none) (cache : NameCache)
    (boardID : Nat)
    (name : NSString) : ∃ cache' db', BoardBoardListItem.setName cache boardID name db =
      .ok cache' db' ∧
      db'.transaction = false ∧ db'.saved = none ∧
        (cache' = cache ∧ db'.contents = db.contents ∨ cache' = [] ∧ ∃ history,
          db'.contents = { db.contents with
            boards := (db.contents.boards.addHistory history).setName boardID name }) := by
  obtain ⟨current, db₁, hname, hsame, hcontents, hsucceed, -⟩ :=
    nameForBoardID_keeps db hsaved boardID
  unfold BoardBoardListItem.setName
  rw [bind_apply, hname]
  dsimp only
  split
  · exact ⟨cache, db₁, rfl, hsame.transaction.trans htransaction, hsame.saved.trans hsaved,
      .inl ⟨rfl, hcontents⟩⟩
  · obtain ⟨r, cache', db₂, hrename, hafter⟩ := renameBoardID_of_answered (hsucceed 3 h)
      (by rw [hsame.begins, hbegin]) (by rw [hsame.commits, hcommit])
      (hsame.transaction.trans htransaction)
      (hsame.saved.trans hsaved) cache boardID name
    rw [hcontents] at hafter
    exact ⟨cache', db₂, by rw [bind_apply, hrename]; rfl, hafter⟩

theorem setName_nil (db : SQLiteDB Tables) (hsaved : db.saved = none) (cache : NameCache)
    (boardID : Nat) : ∃ db',
    BoardBoardListItem.setName cache boardID [] db = .ok cache db' ∧ SameTransaction db db' ∧
    db'.contents = db.contents := by
  obtain ⟨current, db₁, hname, hsame, hcontents, -⟩ := nameForBoardID_keeps db hsaved boardID
  refine ⟨db₁, ?_, hsame, hcontents⟩
  unfold BoardBoardListItem.setName
  rw [bind_apply, hname]
  dsimp only
  split <;> rfl

theorem name_of_answered (h : db.Succeed 1) {boardID : Nat} (hid : boardID ≠ 0)
    {itemNames : ItemNames}
    (hnew : itemNames.lookup boardID = none) :
    ∃ names db', BoardBoardListItem.name itemNames boardID db =
        .ok (db.contents.boards.currentName boardID, names) db' ∧
      SameTransaction db db' ∧ db'.contents = db.contents ∧
        (names = itemNames ∨ ∃ name, db.contents.boards.currentName boardID = some name ∧
          names = (boardID, name) :: itemNames) := by
  unfold BoardBoardListItem.name
  rw [hnew]
  dsimp only
  rw [bind_apply, nameForBoardID_of_succeed h hid]
  cases hcurrent : db.contents.boards.currentName boardID with
  | none => exact ⟨itemNames, db.answered .ok, rfl, ⟨rfl, rfl, rfl, rfl⟩, rfl, .inl rfl⟩
  | some name => exact ⟨(boardID, name) :: itemNames, db.answered .ok, rfl, ⟨rfl, rfl, rfl, rfl⟩,
      rfl, .inr ⟨name, rfl, rfl⟩⟩

theorem likeName_of_sameName {name boardName : NSString}
    (h : BoardTables.sameName name boardName = true) :
    BoardTables.likeName name boardName = true := by
  unfold BoardTables.likeName
  rw [← of_decide_eq_true h]
  exact Wildcards.like_self _

theorem idsLikeName_of_literal {name : NSString} {t : BoardTables} (h : t.Literal name) :
    t.idsLikeName name = t.namedRows name := by
  unfold BoardTables.idsLikeName BoardTables.namedRows
  congr 1
  exact List.filter_congr fun r hr => Bool.eq_iff_iff.mpr ⟨h.1 r hr, likeName_of_sameName⟩

theorem historyIDsLikeName_of_literal {name : NSString} {t : BoardTables} (h : t.Literal name)
    (hrows : t.namedRows name = []) : t.historyIDsLikeName name = t.namedHistory name := by
  unfold BoardTables.historyIDsLikeName BoardTables.namedHistory
  congr 1
  refine List.filter_congr fun row hrow => ?_
  cases hname : row.boardName with
  | none => rfl
  | some boardName =>
    exact Bool.eq_iff_iff.mpr ⟨h.2 hrows row hrow boardName hname, likeName_of_sameName⟩

theorem boardIDsForName_of_answered (h : db.Succeed 2) {cache : NameCache} {name : NSString}
    (hnew : cache.lookup name = none) (hliteral : db.contents.boards.Literal name) :
    ∃ cache' db', boardIDsForName cache name db =
      .ok (db.contents.boards.idsNamed name, cache') db' ∧
      SameTransaction db db' ∧ db'.contents = db.contents ∧
        (cache' = cache ∨ cache' = (name, db.contents.boards.idsNamed name) :: cache) := by
  unfold boardIDsForName BoardTables.idsNamed
  rw [hnew]
  dsimp only
  rw [bind_apply, (cursorForSQL_of_succeed h _).1]
  dsimp only
  rw [Option.getD_some, idsLikeName_of_literal hliteral]
  by_cases hrows : db.contents.boards.namedRows name = []
  · rw [if_neg (not_not.mpr hrows), if_neg (not_not.mpr hrows)]
    have hsecond := cursorForSQL_of_succeed (cursorForSQL_of_succeed h fun t => t).2 fun t =>
      t.boards.historyIDsLikeName name
    have hhistory : (db.answered .ok).contents.boards.historyIDsLikeName name =
      db.contents.boards.namedHistory name :=
      historyIDsLikeName_of_literal hliteral hrows
    rw [bind_apply, hsecond.1]
    dsimp only
    rw [Option.getD_some, hhistory]
    refine ⟨_, _, rfl, ⟨rfl, rfl, rfl, rfl⟩, rfl, ?_⟩
    split
    · exact .inr rfl
    · exact .inl rfl
  · rw [if_pos hrows, if_pos hrows]
    exact ⟨_, _, rfl, ⟨rfl, rfl, rfl, rfl⟩, rfl, .inr rfl⟩

end

-- The caches and the tables

namespace BoardTables

variable {t t' : BoardTables} {name url : NSString} {boardID : Nat}

theorem insertBoard_eq_some (h : t.insertBoard name url = some t') : t.idForURL url = none ∧
    ∃ boardInfo, t.boardInfo.insert t.newID ⟨name, url⟩ = some boardInfo ∧
    t' = { t with boardInfo := boardInfo } := by
  unfold insertBoard at h
  split at h
  · cases h
  · rename_i hurl
    obtain ⟨boardInfo, hinsert, rfl⟩ := Option.map_eq_some_iff.mp h
    exact ⟨by simpa using hurl, boardInfo, hinsert, rfl⟩

theorem idsNamed_insertBoard (h : t.insertBoard name url = some t') {other : NSString}
    (hother : sameName other name = false) : t'.idsNamed other = t.idsNamed other := by
  obtain ⟨-, boardInfo, hinsert, rfl⟩ := insertBoard_eq_some h
  have hrows : boardInfo.rows = t.boardInfo.rows ++ [(t.newID, ⟨name, url⟩)] := by
    unfold Table.insert at hinsert
    split at hinsert
    · cases hinsert
    · obtain rfl := Option.some.inj hinsert
      rfl
  unfold idsNamed namedRows
  rw [hrows, List.filter_append, List.filter_singleton, hother]
  simp only [cond_false, List.append_nil]
  rfl

theorem currentName_insertBoard (h : t.insertBoard name url = some t') {current : NSString}
    (hcurrent : t.currentName boardID = some current) :
    t'.currentName boardID = t.currentName boardID := by
  obtain ⟨-, boardInfo, hinsert, rfl⟩ := insertBoard_eq_some h
  have hnone : t.boardInfo.find t.newID = none := by
    cases hfind : t.boardInfo.find t.newID with
    | none => rfl
    | some row => rw [Table.insert_eq_none.mpr (by simp [hfind])] at hinsert; cases hinsert
  have hne : boardID ≠ t.newID := by
    rintro rfl
    rw [currentName, hnone] at hcurrent
    cases hcurrent
  unfold currentName
  rw [Table.find_insert hinsert, if_neg hne]

theorem currentName_setName (history : BoardInfoHistory) (other : Nat) :
    ((t.addHistory history).setName boardID name).currentName other =
      if other = boardID then (t.currentName other).map fun _ => name else t.currentName other := by
  unfold currentName setName addHistory
  dsimp only
  rw [Table.find_update_key]
  split
  · cases t.boardInfo.find other <;> rfl
  · rfl

end BoardTables

namespace NameState

variable {isURL : NSString → Bool} {s : NameState}

theorem coherent_renamed (h : s.Coherent) {boardID : Nat} {name : NSString} {cache' : NameCache}
    {db' : SQLiteDB Tables}
    (hitem : s.boards.currentName boardID = some name ∨ s.itemNames.lookup boardID = none)
    (htransaction : db'.transaction = false) (hsaved : db'.saved = none)
    (hafter : cache' = s.boardIDNameCache ∧ db'.contents = s.db.contents ∨ cache' = [] ∧ ∃ history,
      db'.contents = { s.db.contents with
        boards := (s.boards.addHistory history).setName boardID name }) :
    Coherent { s with db := db', boardIDNameCache := cache' } := by
  obtain ⟨rfl, hcontents⟩ | ⟨rfl, history, hcontents⟩ := hafter
  · refine ⟨?_, ?_, htransaction, hsaved⟩
    · simpa only [boards, hcontents] using h.cache
    · simpa only [boards, hcontents] using h.names
  · refine ⟨Memo.agrees_nil _, h.names.congr fun other current hlookup => ?_, htransaction, hsaved⟩
    have hcurrent := h.names other current hlookup
    simp only [boards, hcontents] at hcurrent ⊢
    rw [BoardTables.currentName_setName]
    split
    · rename_i hsame
      subst hsame
      obtain hname | hnone := hitem
      · rw [boards] at hname
        rw [hname]
        rfl
      · rw [hnone] at hlookup
        cases hlookup
    · rfl

theorem coherent_registered (h : s.Coherent) {name url : NSString} {db' : SQLiteDB Tables}
    (hallowed : s.Allowed isURL (.registerBoardName name url)) (hsame : SameTransaction s.db db')
    (hafter : db'.contents = s.db.contents ∨ isURL url = true ∧ ∃ t,
      s.boards.insertBoard name url = some t ∧
      db'.contents = { s.db.contents with boards := t }) : Coherent { s with db := db' } := by
  have htransaction := hsame.transaction.trans h.transaction
  have hsaved := hsame.saved.trans h.saved
  obtain hcontents | ⟨hurl, t, hinsert, hcontents⟩ := hafter
  · refine ⟨?_, ?_, htransaction, hsaved⟩
    · simpa only [boards, hcontents] using h.cache
    · simpa only [boards, hcontents] using h.names
  · have hunknown := (BoardTables.insertBoard_eq_some hinsert).1
    have hcached : ∀ cached ids, s.boardIDNameCache.lookup cached = some ids →
      BoardTables.sameName cached name = false := by
      obtain hno | hknown | hcached := hallowed
      · rw [hurl] at hno
        cases hno
      · rw [hunknown] at hknown
        cases hknown
      · exact hcached
    refine ⟨h.cache.congr fun cached ids hlookup => ?_, h.names.congr fun boardID current hlookup =>
      ?_, htransaction, hsaved⟩
    · simp only [boards, hcontents]
      exact congrArg some (BoardTables.idsNamed_insertBoard hinsert (hcached cached ids hlookup))
    · simp only [boards, hcontents]
      exact BoardTables.currentName_insertBoard hinsert (h.names boardID current hlookup)

theorem coherent_contents {db' : SQLiteDB Tables} (h : s.Coherent)
    (hsame : SameTransaction s.db db')
    (hcontents : db'.contents = s.db.contents) : Coherent { s with db := db' } := by
  refine ⟨?_, ?_, hsame.transaction.trans h.transaction, hsame.saved.trans h.saved⟩
  · simpa only [boards, hcontents] using h.cache
  · simpa only [boards, hcontents] using h.names

/-- One call keeps the caches in agreement with the tables, and answers with what is in them. -/
theorem coherent_perform (h : s.Coherent) (call : NameCall) (hallowed : s.Allowed isURL call) :
    s.Transparent call ∧ (s.perform isURL call).Coherent := by
  cases call with
  | registerBoardName name url =>
    obtain ⟨b, db', hregister, hsame, hafter⟩ :=
      @registerBoardName_keeps isURL s.db h.saved name url
    refine ⟨trivial, ?_⟩
    rw [perform, NameState.after, hregister]
    exact coherent_registered h hallowed hsame hafter
  | renameBoardID boardID name =>
    refine ⟨trivial, ?_⟩
    obtain rfl | ⟨⟨hsucceed, hbegin, hcommit⟩, hitem⟩ := hallowed
    · exact h
    · obtain ⟨r, cache', db', hrename, htransaction, hsaved, hafter⟩ := renameBoardID_of_answered
        (fun i hi => hsucceed i (by omega)) hbegin hcommit h.transaction h.saved
        s.boardIDNameCache boardID name
      rw [perform, NameState.after, hrename]
      exact coherent_renamed h hitem htransaction hsaved hafter
  | setName boardID name =>
    refine ⟨trivial, ?_⟩
    obtain rfl | ⟨⟨hsucceed, hbegin, hcommit⟩, hitem⟩ := hallowed
    · obtain ⟨db', hset, hsame, hcontents⟩ := setName_nil s.db h.saved s.boardIDNameCache boardID
      rw [perform, NameState.after, hset]
      exact coherent_contents h hsame hcontents
    · obtain ⟨cache', db', hset, htransaction, hsaved, hafter⟩ := setName_of_answered
        hsucceed hbegin hcommit h.transaction h.saved s.boardIDNameCache boardID name
      rw [perform, NameState.after, hset]
      exact coherent_renamed h hitem htransaction hsaved hafter
  | boardIDsForName name =>
    cases hlookup : s.boardIDNameCache.lookup name with
    | some ids =>
      have hids := h.cache name ids hlookup
      have hrun : boardIDsForName s.boardIDNameCache name s.db =
        .ok (s.boards.idsNamed name, s.boardIDNameCache) s.db := by
        rw [boardIDsForName, hlookup, Option.some.inj hids]
        rfl
      refine ⟨⟨_, _, hrun⟩, ?_⟩
      rw [perform, NameState.after, hrun]
      exact h
    | none =>
      obtain hcached | ⟨⟨hsucceed, -⟩, hliteral⟩ := hallowed
      · rw [hlookup] at hcached
        cases hcached
      · obtain ⟨cache', db', hrun, hsame, hcontents, hcache⟩ :=
          boardIDsForName_of_answered (fun i hi => hsucceed i (by omega)) hlookup hliteral
        refine ⟨⟨_, _, hrun⟩, ?_⟩
        rw [perform, NameState.after, hrun]
        have hthen := coherent_contents h hsame hcontents
        obtain rfl | rfl := hcache
        · exact hthen
        · refine ⟨hthen.cache.cons ?_, hthen.names, hthen.transaction, hthen.saved⟩
          simp only [boards, hcontents]
  | name boardID =>
    cases hlookup : s.itemNames.lookup boardID with
    | some current =>
      have hrun : BoardBoardListItem.name s.itemNames boardID s.db =
          .ok (s.boards.currentName boardID, s.itemNames) s.db := by
        have hcurrent : s.boards.currentName boardID = some current :=
          h.names boardID current hlookup
        rw [BoardBoardListItem.name, hlookup, hcurrent]
        rfl
      refine ⟨⟨_, _, hrun⟩, ?_⟩
      rw [perform, NameState.after, hrun]
      exact h
    | none =>
      obtain hread | ⟨⟨hsucceed, -⟩, hid⟩ := hallowed
      · rw [hlookup] at hread
        cases hread
      · obtain ⟨names, db', hrun, hsame, hcontents, hnames⟩ :=
          name_of_answered (fun i hi => hsucceed i (by omega)) hid hlookup
        refine ⟨⟨_, _, hrun⟩, ?_⟩
        rw [perform, NameState.after, hrun]
        have hthen := coherent_contents h hsame hcontents
        obtain rfl | ⟨current, hcurrent, rfl⟩ := hnames
        · exact hthen
        · refine ⟨hthen.cache, hthen.names.cons ?_, hthen.transaction, hthen.saved⟩
          simp only [boards, hcontents]
          exact hcurrent

/-- In a run whose calls are allowed every lookup answers with what is in the tables. -/
theorem transparent_run (isURL : NSString → Bool) (s : NameState) (calls : List NameCall)
    (hs : s.Fresh)
    (hguard : Run.Guarded (step isURL) (Allowed isURL) s calls) :
    Run.Guarded (step isURL) Transparent s calls := by
  refine Run.Guarded.imp (I := Coherent) (fun hcoherent hallowed => ?_)
    ⟨?_, ?_, hs.transaction, hs.saved⟩ hguard
  · obtain ⟨htransparent, hnext⟩ := coherent_perform hcoherent _ hallowed
    exact ⟨htransparent, fun s' hs' => Option.some.inj hs' ▸ hnext⟩
  · rw [hs.cache]
    exact Memo.agrees_nil _
  · rw [hs.names]
    exact Memo.agrees_nil _

def oneBoard : NameState :=
  ⟨idle { Tables.empty with
    boards := ⟨⟨[(1, ⟨ns "a", ns "http://a/"⟩)], List.nodup_singleton 1⟩, []⟩ } .ok fun _ => false,
    [], []⟩

theorem transparent_run_lookup : Run.Guarded (step fun _ => true) Transparent oneBoard
    [.boardIDsForName (ns "a"), .name 1] := by
  apply transparent_run
  · exact ⟨rfl, rfl, rfl, rfl⟩
  · refine ⟨.inr ⟨⟨fun _ _ => rfl, rfl, rfl⟩, by decide, fun hnone => absurd hnone (by decide)⟩,
      fun s' hs' => ?_⟩
    obtain rfl := Option.some.inj hs'
    exact ⟨.inr ⟨⟨fun _ _ => rfl, rfl, rfl⟩, by decide⟩, fun _ _ => trivial⟩

/-- A second board of the same name is not found after the name has been looked up. -/
theorem not_transparent_registered : ¬ Run.Guarded (step fun _ => true) Transparent oneBoard
    [.boardIDsForName (ns "a"), .registerBoardName (ns "a") (ns "http://b/"),
      .boardIDsForName (ns "a")] := by
  rintro ⟨-, hfirst⟩
  obtain ⟨-, hsecond⟩ := hfirst _ rfl
  obtain ⟨⟨cache, db, hlookup⟩, -⟩ := hsecond _ rfl
  have hids : [1] = [1, 2] := congrArg (fun r => match r with
    | .ok found _ => found.1
    | .error _ _ => []) hlookup
  cases hids

end NameState

end BathyScaphe.Database
