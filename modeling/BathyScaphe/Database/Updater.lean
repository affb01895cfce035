import BathyScaphe.Database.Creation

/-!
# Updating an old database

`DatabaseUpdater` takes a database file from the version it was written with to
the present one, one transaction for each step; the chain ends at the first step
that answers `NO`. `DatabaseUpdaterToThree` and `DatabaseUpdaterToFive` never set
the answer they return, so they answer `NO` also when they have done everything.
-/

namespace BathyScaphe.Database

open SQLiteDB

inductive DatabaseUpdater where
  | oneToTow
  | toThree
  | toFour
  | toFive
  deriving DecidableEq, Repr

def Store.markFavorite (s : Store) (k : ThreadKey) : Store :=
  { s with tables := s.tables.updateThread k ({ · with isFavorite := true }) }

/-- `restoreFavoriteOnDatabase:` over the rows of `Favorites`. The statement may be
`nil`; the error of its preparation is then found in the first round. -/
def restoreLoop (prepared : Bool) : List ThreadKey → Db Store Bool
  | [] => return true
  | k :: keys => do
    if prepared then performQuery fun s => some (s.markFavorite k)
    if (← lastErrorID) ≠ .ok then return false
    else restoreLoop prepared keys

def restoreFavoriteOnDatabase : Db Store Bool := do
  match ← cursorForSQL fun s => s.tables.favorites.rows.map Prod.fst with
  | none => return false
  | some [] => return true
  | some keys => do
    let prepared ← reservedQuery
    restoreLoop prepared keys

def updateVersion (newVersion : Int) : Db Store Bool := performAll [Store.setVersion newVersion]

def newViewColumns : List Column :=
  [.numberOfDifference, .isCached, .isUpdated, .isNew, .isHeadModified]

namespace DatabaseUpdater

def version : DatabaseUpdater → Int
  | .oneToTow => 2
  | .toThree => 3
  | .toFour => 4
  | .toFive => 5

def historyIndex : IndexName := .index .boardInfoHistory .boardID

def isOK : DatabaseUpdater → Bool
  | .oneToTow => true
  | .toThree => false
  | .toFour => true
  | .toFive => false

def body : DatabaseUpdater → Db Store Bool
  | .oneToTow => performAll [Store.dropIndex historyIndex, Store.createIndex historyIndex false,
      Store.setVersion 2]
  | .toThree => performAll [Store.addThreadInfoColumn isDatOchiDef ({ · with isDatOchi := false }),
      Store.setVersion 3]
  | .toFour => do
    if ← performAll [Store.addThreadInfoColumn isFavoriteDef ({ · with isFavorite := false })] then
      if ← restoreFavoriteOnDatabase then updateVersion 4
      else return false
    else return false
  | .toFive => performAll [Store.dropView, Store.createView newViewColumns, Store.setVersion 5]

def updateDB (u : DatabaseUpdater) : Db Store Bool := performInTransaction u.body u.isOK

end DatabaseUpdater

def updateIf (c : Prop) [Decidable c] (u : DatabaseUpdater) : Db Store Bool :=
  if c then u.updateDB else return true

def updateFrom (fromVersion toVersion : Int) : Db Store Bool := do
  if fromVersion < 0 then return true
  else if ← updateIf (fromVersion < 2 ∧ toVersion ≥ 2) .oneToTow then
    if ← updateIf (fromVersion < 3 ∧ toVersion ≥ 3) .toThree then
      if ← updateIf (fromVersion < 4 ∧ toVersion ≥ 4) .toFour then
        updateIf (fromVersion < 5 ∧ toVersion ≥ 5) .toFive
      else return false
    else return false
  else return false

-- Versions

def columnsOf (v : Int) : TableName → List ColumnDef
  | .favorites => favoritesColumns
  | .boardInfo => boardInfoColumns
  | .threadInfo => oldThreadInfoColumns ++ (if 3 ≤ v then [isDatOchiDef] else []) ++
      (if 4 ≤ v then [isFavoriteDef] else [])
  | .boardInfoHistory => boardInfoHistoryColumns
  | .tempThreadNumber => tempThreadNumberColumns

/-- A file of version `v`, as the list of versions at the head of the updater
describes it. -/
structure Store.At (s : Store) (v : Int) : Prop where
  version : s.version = v
  columns : ∀ table, s.schema.columns table = some (columnsOf v table)
  historyIndex : s.schema.indexes DatabaseUpdater.historyIndex = some (decide (v < 2))
  view : s.schema.view = some (if 5 ≤ v then newViewColumns else [.numberOfDifference])

def ThreadInfo.columnsAt (v : Int) (row : ThreadInfo) : ThreadInfo :=
  { row with
    isDatOchi := if 3 ≤ v then row.isDatOchi else false
    isFavorite := if 4 ≤ v then row.isFavorite else false }

structure Store.Kept (v : Int) (s s' : Store) : Prop where
  boards : s'.tables.boards = s.tables.boards
  favorites : s'.tables.favorites = s.tables.favorites
  numbers : s'.tables.tempThreadNumber = s.tables.tempThreadNumber
  threads : ∀ k, (s'.tables.threadInfo.find k).map (·.columnsAt v) =
    (s.tables.threadInfo.find k).map (·.columnsAt v)

/-- The column `IsFavorite` is 1 on exactly the rows listed in `Favorites`. -/
def Store.Marked (s : Store) : Prop := ∀ k row, s.tables.threadInfo.find k = some row →
  (row.isFavorite = true ↔ (s.tables.favorites.find k).isSome)

namespace Store

variable {s s' s'' : Store} {v w : Int}

theorem Kept.refl : Kept v s s := ⟨rfl, rfl, rfl, fun _ => rfl⟩

theorem columnsAt_columnsAt (h : v ≤ w) (row : ThreadInfo) :
    (row.columnsAt w).columnsAt v = row.columnsAt v := by
  have h3 : 3 ≤ v → 3 ≤ w := fun h3 => Int.le_trans h3 h
  have h4 : 4 ≤ v → 4 ≤ w := fun h4 => Int.le_trans h4 h
  unfold ThreadInfo.columnsAt
  congr 1
  · split
    · next hv => exact if_pos (h3 hv)
    · rfl
  · split
    · next hv => exact if_pos (h4 hv)
    · rfl

theorem Kept.trans (h : Kept v s s') (h' : Kept w s' s'') (hvw : v ≤ w) : Kept v s s'' := by
  refine ⟨h'.boards.trans h.boards, h'.favorites.trans h.favorites, h'.numbers.trans h.numbers,
    fun k => ?_⟩
  have hfactor (o : Option ThreadInfo) :
      o.map (·.columnsAt v) = (o.map (·.columnsAt w)).map (·.columnsAt v) := by
    cases o with
    | none => rfl
    | some row => simp [columnsAt_columnsAt hvw]
  rw [← h.threads k, hfactor, h'.threads k, ← hfactor]

end Store

-- One step

/-- The statements of `restoreFavoriteOnDatabase:`, the preparation included. -/
def restoreStatements : List ThreadKey → Nat
  | [] => 1
  | keys => 2 + keys.length

theorem restoreLoop_true (keys : List ThreadKey) :
    restoreLoop true keys = performAll (keys.map fun k s => some (s.markFavorite k)) := by
  induction keys with
  | nil => rfl
  | cons k keys ih => simp [restoreLoop, performAll, ih]

theorem foldlM_markFavorite (keys : List ThreadKey) (s : Store) :
    (keys.map fun k (s : Store) => some (s.markFavorite k)).foldlM (fun c stmt => stmt c) s =
      some (keys.foldl Store.markFavorite s) := by
  induction keys generalizing s with
  | nil => rfl
  | cons k keys ih => exact ih (s.markFavorite k)

theorem sends_restoreFavorite {db : SQLiteDB Store} {keys : List ThreadKey}
    (hkeys : db.contents.tables.favorites.rows.map Prod.fst = keys) :
    Sends restoreFavoriteOnDatabase (restoreStatements keys) db
      (keys.foldl Store.markFavorite db.contents) := by
  by_cases h0 : db.answers 0 = .ok
  · cases keys with
    | nil =>
      refine sends_one (db.answered .ok) (fun _ => ⟨?_, ⟨rfl, rfl, rfl, rfl⟩, rfl, rfl⟩)
        fun h => absurd h0 h
      simp [restoreFavoriteOnDatabase, cursorForSQL, h0, hkeys]
    | cons k keys =>
      let db₁ := (db.answered .ok).answered (db.answers 1)
      have hfirst : SameTransaction db db₁ := ⟨rfl, rfl, rfl, rfl⟩
      have hprepared : restoreFavoriteOnDatabase db =
          restoreLoop (decide (db.answers 1 = .ok)) (k :: keys) db₁ := by
        simp [restoreFavoriteOnDatabase, cursorForSQL, h0, hkeys, reservedQuery, db₁, answered]
      by_cases h1 : db.answers 1 = .ok
      · have hsends : Sends (performAll _) _ db₁ _ :=
          sends_performAll _ (foldlM_markFavorite (k :: keys) db.contents)
        obtain ⟨b, db₂, hloop, hleaves, hb, hthen⟩ := hsends
        rw [List.length_map] at hb hthen
        have htwo : db.Succeed 2 := fun i hi => by
          obtain rfl | rfl : i = 0 ∨ i = 1 := by omega
          · exact h0
          · exact h1
        refine ⟨b, db₂, ?_, hfirst.trans_leaves hleaves, ?_, fun h => ?_⟩
        · rw [hprepared, decide_eq_true h1, restoreLoop_true, hloop]
        · exact hb.trans (succeed_add rfl htwo).symm
        · obtain ⟨hsame, hcontents, hanswers⟩ := hthen h
          refine ⟨hfirst.trans hsame, hcontents, hanswers.trans ?_⟩
          funext i
          exact congrArg db.answers (by simp only [restoreStatements]; omega)
      · refine ⟨false, db₁, ?_, hfirst.leaves, ?_, fun h => absurd h Bool.false_ne_true⟩
        · rw [hprepared]
          simp [restoreLoop, h1, db₁, answered]
        · have hnot : ¬ db.Succeed (restoreStatements (k :: keys)) := fun h =>
            h1 (h 1 (by simp only [restoreStatements]; omega))
          simp [hnot]
  · refine ⟨false, db.refused, ?_, leaves_refused db, ?_, fun h => absurd h Bool.false_ne_true⟩
    · simp [restoreFavoriteOnDatabase, cursorForSQL, h0]
    · have hnot : ¬ db.Succeed (restoreStatements keys) := fun h =>
        h0 (h 0 (by cases keys <;> simp only [restoreStatements] <;> omega))
      simp [hnot]

section
variable {s : Store}

theorem find_foldl_markFavorite (keys : List ThreadKey) (k : ThreadKey) :
    (keys.foldl Store.markFavorite s).tables.threadInfo.find k =
      (s.tables.threadInfo.find k).map fun row =>
        { row with isFavorite := row.isFavorite || decide (k ∈ keys) } := by
  induction keys generalizing s with
  | nil => simp
  | cons k' keys ih =>
    rw [List.foldl_cons, ih]
    simp only [Store.markFavorite, Tables.updateThread, Table.find_update_key]
    by_cases hk : k = k'
    · cases s.tables.threadInfo.find k <;> simp [hk]
    · cases s.tables.threadInfo.find k <;> simp [hk]

theorem foldl_markFavorite_frame (keys : List ThreadKey) (s : Store) :
    let s' := keys.foldl Store.markFavorite s
    s'.schema = s.schema ∧ s'.version = s.version ∧ s'.tables.boards = s.tables.boards ∧
      s'.tables.favorites = s.tables.favorites ∧
      s'.tables.tempThreadNumber = s.tables.tempThreadNumber := by
  induction keys generalizing s with
  | nil => exact ⟨rfl, rfl, rfl, rfl, rfl⟩
  | cons k keys ih => exact ih (s.markFavorite k)

end

namespace DatabaseUpdater

def Follows : DatabaseUpdater → Int → Prop
  | .oneToTow, v => 0 ≤ v ∧ v < 2
  | .toThree, v => v = 2
  | .toFour, v => v = 3
  | .toFive, v => v = 4

theorem Follows.lt {u : DatabaseUpdater} (h : u.Follows v) : v < u.version := by
  cases u <;> simp only [Follows, version] at * <;> omega

def statements (u : DatabaseUpdater) (s : Store) : Nat :=
  match u with
  | .oneToTow => 3
  | .toThree => 2
  | .toFour => 1 + (restoreStatements (s.tables.favorites.rows.map Prod.fst) + 1)
  | .toFive => 3

variable {s : Store} {v : Int}

theorem upgrade_oneToTow (h : s.At v) (hv : oneToTow.Follows v) :
    ∃ s', (∀ db, db.contents = s → Sends oneToTow.body (oneToTow.statements s) db s') ∧ s'.At 2 ∧
      Store.Kept v s s' := by
  let s' : Store := { (s.setIndex historyIndex none).setIndex historyIndex (some false) with
    version := 2 }
  obtain ⟨h0, h2⟩ := hv
  refine ⟨s', ?_, ⟨rfl, fun table => ?_, ?_, ?_⟩, ⟨rfl, rfl, rfl, fun _ => rfl⟩⟩
  · rintro db rfl
    refine sends_performAll [_, _, _] ?_
    simp [Store.dropIndex, Store.createIndex, Store.setVersion, Store.setIndex, h.historyIndex, s']
  · rw [show s'.schema.columns table = s.schema.columns table from rfl, h.columns]
    have hle : ¬ 3 ≤ v ∧ ¬ 4 ≤ v := by omega
    cases table <;> simp [columnsOf, hle]
  · simp [s', Store.setIndex]
  · rw [show s'.schema.view = s.schema.view from rfl, h.view, if_neg (by omega), if_neg (by omega)]

theorem addThreadInfoColumn_eq (h : s.At v) (d : ColumnDef) (fill : ThreadInfo → ThreadInfo)
    (hnew : (columnsOf v .threadInfo).any (·.column = d.column) = false) :
    s.addThreadInfoColumn d fill =
      some { s.setColumns .threadInfo (columnsOf v .threadInfo ++ [d]) with
      tables :=
        { s.tables with threadInfo := s.tables.threadInfo.update (fun _ _ => true) fill } } := by
  simp [Store.addThreadInfoColumn, h.columns, hnew]

theorem columnsOf_of_ne (v w : Int) {table : TableName} (h : table ≠ .threadInfo) :
    columnsOf w table = columnsOf v table := by
  cases table <;> first | rfl | exact absurd rfl h

theorem columns_setColumns (h : s.At v) {w : Int} {defs : List ColumnDef}
    (hinfo : columnsOf w .threadInfo = defs)
    (table : TableName) : (s.setColumns .threadInfo defs).schema.columns table =
      some (columnsOf w table) := by
  by_cases htable : table = .threadInfo
  · subst htable
    rw [hinfo]
    exact Function.update_self TableName.threadInfo (some defs) s.schema.columns
  · rw [columnsOf_of_ne v w htable, ← h.columns table]
    exact Function.update_of_ne htable (some defs) s.schema.columns

theorem sends_toThree (h : s.At v) (hv : v < 3) : ∃ s',
    s' = { s.setColumns .threadInfo (columnsOf v .threadInfo ++ [isDatOchiDef]) with
      tables := { s.tables with
        threadInfo := s.tables.threadInfo.update (fun _ _ => true) ({ · with isDatOchi := false }) }
      version := 3 } ∧
    ∀ db, db.contents = s → Sends toThree.body (toThree.statements s) db s' := by
  have hnew : (columnsOf v .threadInfo).any (·.column = isDatOchiDef.column) = false := by
    have hle : ¬ 3 ≤ v ∧ ¬ 4 ≤ v := by omega
    simp only [columnsOf, hle, if_false]
    decide
  have hcolumn := addThreadInfoColumn_eq h isDatOchiDef ({ · with isDatOchi := false }) hnew
  refine ⟨_, rfl, ?_⟩
  rintro db rfl
  exact sends_performAll [_, _] (by simp [hcolumn, Store.setVersion])

theorem upgrade_toThree (h : s.At 2) :
    ∃ s', (∀ db, db.contents = s → Sends toThree.body (toThree.statements s) db s') ∧ s'.At 3 ∧
      Store.Kept 2 s s' := by
  obtain ⟨s', rfl, hsends⟩ := sends_toThree h (by decide)
  refine ⟨_, hsends, ⟨rfl, columns_setColumns h (by rfl), h.historyIndex, h.view⟩,
    ⟨rfl, rfl, rfl, fun k => ?_⟩⟩
  rw [Table.find_update]
  cases s.tables.threadInfo.find k <;> simp [ThreadInfo.columnsAt]

theorem upgrade_toFour (h : s.At 3) :
    ∃ s', (∀ db, db.contents = s → Sends toFour.body (toFour.statements s) db s') ∧ s'.At 4 ∧
      Store.Kept 3 s s' ∧ s'.Marked := by
  let keys := s.tables.favorites.rows.map Prod.fst
  obtain ⟨s₁, hs₁⟩ : ∃ s₁, s.addThreadInfoColumn isFavoriteDef ({ · with
    isFavorite := false }) = some s₁ :=
    ⟨_, addThreadInfoColumn_eq h _ _ (by decide)⟩
  have hs₁' := hs₁
  rw [addThreadInfoColumn_eq h _ _ (by decide)] at hs₁'
  have hkeys : s₁.tables.favorites.rows.map Prod.fst = keys := by
    rw [← Option.some.inj hs₁']
  obtain ⟨hschema, -, hboards, hfavorites, hnumbers⟩ := foldl_markFavorite_frame keys s₁
  refine ⟨{ keys.foldl Store.markFavorite s₁ with version := 4 }, ?_, ?_, ?_, ?_⟩
  · rintro db rfl
    refine Sends.and (sends_performAll [_] (c := s₁) (by simp [hs₁])) fun db₁ hdb₁ => ?_
    refine Sends.and (sends_restoreFavorite (hdb₁ ▸ hkeys)) fun db₂ hdb₂ => ?_
    exact sends_performAll [_] (by simp [Store.setVersion, hdb₂, hdb₁, keys])
  · obtain rfl := Option.some.inj hs₁'
    refine ⟨rfl, fun table => ?_, ?_, ?_⟩
    · dsimp only
      rw [hschema]
      exact columns_setColumns h (by rfl) table
    · dsimp only
      rw [hschema]
      exact h.historyIndex
    · dsimp only
      rw [hschema]
      exact h.view
  · obtain rfl := Option.some.inj hs₁'
    refine ⟨hboards, hfavorites, hnumbers, fun k => ?_⟩
    dsimp only
    rw [find_foldl_markFavorite, Table.find_update]
    cases s.tables.threadInfo.find k <;> simp [ThreadInfo.columnsAt]
  · obtain rfl := Option.some.inj hs₁'
    intro k row hrow
    dsimp only at hrow ⊢
    rw [find_foldl_markFavorite, Table.find_update] at hrow
    rw [hfavorites]
    have hlisted : (s.tables.favorites.find k).isSome ↔ k ∈ keys := by
      rw [Option.isSome_iff_ne_none, ne_eq, Table.find_eq_none, not_not]
    rw [hlisted]
    cases hfind : s.tables.threadInfo.find k with
    | none => simp [hfind] at hrow
    | some row₀ =>
      simp only [hfind, if_true, Option.map_some, Option.some.injEq] at hrow
      simp [← hrow]

theorem sends_toFive (h : s.At v) : ∃ s',
    s' = { (s.setView none).setView (some newViewColumns) with version := 5 } ∧
    ∀ db, db.contents = s → Sends toFive.body (toFive.statements s) db s' := by
  refine ⟨_, rfl, ?_⟩
  rintro db rfl
  exact sends_performAll [_, _, _] (by
    simp [Store.dropView, Store.createView, Store.setVersion, Store.setView, h.view])

theorem upgrade_toFive (h : s.At 4) :
    ∃ s', (∀ db, db.contents = s → Sends toFive.body (toFive.statements s) db s') ∧ s'.At 5 ∧
      Store.Kept 4 s s' ∧ (s.Marked → s'.Marked) := by
  obtain ⟨s', rfl, hsends⟩ := sends_toFive h
  refine ⟨_, hsends, ⟨rfl, fun table => ?_, h.historyIndex, rfl⟩, ⟨rfl, rfl, rfl, fun _ => rfl⟩,
    fun hm => hm⟩
  show s.schema.columns table = some (columnsOf 5 table)
  rw [h.columns]
  cases table <;> rfl

theorem upgrade {u : DatabaseUpdater} (h : s.At v) (hv : u.Follows v) :
    ∃ s', (∀ db, db.contents = s → Sends u.body (u.statements s) db s') ∧ s'.At u.version ∧
      Store.Kept v s s' ∧ ((v < 4 ∨ s.Marked) → 4 ≤ u.version → s'.Marked) := by
  cases u with
  | oneToTow =>
    obtain ⟨s', hsends, hat, hkept⟩ := upgrade_oneToTow h hv
    exact ⟨s', hsends, hat, hkept, fun _ h4 => absurd h4 (by decide)⟩
  | toThree =>
    obtain rfl := hv
    obtain ⟨s', hsends, hat, hkept⟩ := upgrade_toThree h
    exact ⟨s', hsends, hat, hkept, fun _ h4 => absurd h4 (by decide)⟩
  | toFour =>
    obtain rfl := hv
    obtain ⟨s', hsends, hat, hkept, hmarked⟩ := upgrade_toFour h
    exact ⟨s', hsends, hat, hkept, fun _ _ => hmarked⟩
  | toFive =>
    obtain rfl := hv
    obtain ⟨s', hsends, hat, hkept, hmarked⟩ := upgrade_toFive h
    exact ⟨s', hsends, hat, hkept, fun hm _ => hmarked (hm.resolve_left (by decide))⟩

/-- A step that is begun outside a transaction. The file changes if and only if all
of its statements succeed. -/
theorem updateDB_spec {u : DatabaseUpdater} {db : SQLiteDB Store} (hflag : db.transaction = false)
    (hsaved : db.saved = none) (h : db.contents.At v) (hv : u.Follows v) :
    ∃ b db' s', u.updateDB db = .ok b db' ∧ s'.At u.version ∧ Store.Kept v db.contents s' ∧
      ((v < 4 ∨ db.contents.Marked) → 4 ≤ u.version → s'.Marked) ∧
      (db.Commits (u.statements db.contents) → b = u.isOK ∧ db'.transaction = false ∧
        db'.saved = none ∧ db'.contents = s') ∧
      (¬ db.Commits (u.statements db.contents) → db'.durable = db.contents ∧
        (b = true → u.isOK = true ∧ db'.transaction = false ∧
          (¬ db.LosesCommit (u.statements db.contents) ∧ db'.saved = some db.contents ∨
            db.LosesCommit (u.statements db.contents) ∧ db'.saved = none ∧
              db'.contents = db.contents))) := by
  obtain ⟨s', hsends, hat, hkept, hmarked⟩ := upgrade h hv
  obtain ⟨b, db', hrun, hcommits, hfails⟩ := performInTransaction_spec u.isOK hflag hsaved hsends
  exact ⟨b, db', s', hrun, hat, hkept, hmarked, hcommits, hfails⟩

theorem updateDB_false {u : DatabaseUpdater} {db : SQLiteDB Store} {s' : Store}
    (hOK : u.isOK = false)
    (hflag : db.transaction = false) (hsaved : db.saved = none)
    (hsends : ∀ db', db'.contents = db.contents → Sends u.body (u.statements db.contents) db' s') :
    ∃ db', u.updateDB db = .ok false db' ∧
      (db.Commits (u.statements db.contents) → db'.durable = s') ∧
      (¬ db.Commits (u.statements db.contents) → db'.durable = db.contents) := by
  obtain ⟨b, db', hrun, hcommits, hfails⟩ := performInTransaction_spec u.isOK hflag hsaved hsends
  have hb : b = false := by
    by_cases hc : db.Commits (u.statements db.contents)
    · exact (hcommits hc).1.trans hOK
    · cases b with
      | false => rfl
      | true => exact absurd ((hfails hc).2 rfl).1 (by rw [hOK]; decide)
  subst hb
  refine ⟨db', hrun, fun hc => ?_, fun hc => (hfails hc).1⟩
  obtain ⟨-, -, hnone, hcontents⟩ := hcommits hc
  rw [durable, hnone, hcontents]
  rfl

/-- The step behind one that answers `YES`, made from the version before that one, does
not lead to its own version. -/
theorem updateDB_skipping {u u' : DatabaseUpdater} {db : SQLiteDB Store} (hOK : u.isOK = true)
    (hv : u.Follows v) (hv' : u'.Follows u.version) (hflag : db.transaction = false)
    (hsaved : db.saved = none) (h : db.contents.At v) :
    ∃ db', u'.updateDB db = .ok false db' ∧
      (db.Commits (u'.statements db.contents) → ¬ db'.durable.At u'.version) ∧
      (¬ db.Commits (u'.statements db.contents) → db'.durable = db.contents) := by
  suffices hsends : u'.isOK = false ∧ ∃ s', ¬ s'.At u'.version ∧
      ∀ db', db'.contents = db.contents → Sends u'.body (u'.statements db.contents) db' s' by
    obtain ⟨hOK', s', hnot, hsends⟩ := hsends
    obtain ⟨db', hrun, hcommits, hfails⟩ := updateDB_false hOK' hflag hsaved hsends
    exact ⟨db', hrun, fun hc => by rwa [hcommits hc], hfails⟩
  cases u with
  | toThree => cases hOK
  | toFive => cases hOK
  | oneToTow =>
    obtain rfl : u' = toThree := by
      cases u' <;> simp [Follows, version] at hv' ⊢
    obtain ⟨s', rfl, hsends⟩ := sends_toThree h (by have := hv.2; omega)
    -- The index of the history is still unique.
    refine ⟨rfl, _, fun hat => ?_, hsends⟩
    have hindex := h.historyIndex.symm.trans hat.historyIndex
    rw [decide_eq_true hv.2] at hindex
    exact absurd hindex (by decide)
  | toFour =>
    obtain rfl : u' = toFive := by
      cases u' <;> simp [Follows, version] at hv' ⊢
    obtain rfl : v = 3 := hv
    obtain ⟨s', rfl, hsends⟩ := sends_toFive h
    -- The rows of threads have no column for favorites.
    refine ⟨rfl, _, fun hat => ?_, hsends⟩
    have hcolumns := (h.columns .threadInfo).symm.trans (hat.columns .threadInfo)
    exact absurd hcolumns (by decide)

-- The chain

/-- The steps in turn, up to the first that answers `NO`. -/
def updateAll : List DatabaseUpdater → Db Store Bool
  | [] => return true
  | u :: us => do if ← u.updateDB then updateAll us else return false

def needed (v : Int) : List DatabaseUpdater :=
  [oneToTow, toThree, toFour, toFive].filter fun u => v < u.version

/-- The steps that are begun, with the connection as each of them finds it. -/
def begun : List DatabaseUpdater → SQLiteDB Store → List (DatabaseUpdater × SQLiteDB Store)
  | [], _ => []
  | u :: us, db => (u, db) :: match u.updateDB db with
    | .ok true db' => begun us db'
    | _ => []

/-- Every statement of the step succeeds, `BEGIN` and `COMMIT` included. -/
def Completes (p : DatabaseUpdater × SQLiteDB Store) : Prop :=
  p.2.Commits (p.1.statements p.2.contents)

instance : DecidablePred Completes := fun p => by
  unfold Completes Commits Succeed
  infer_instance

/-- The statements of the step succeed, and SQLite rolls it back at its `COMMIT`. -/
def Loses (p : DatabaseUpdater × SQLiteDB Store) : Prop :=
  p.2.LosesCommit (p.1.statements p.2.contents)

def Skips : List (DatabaseUpdater × SQLiteDB Store) → Prop
  | p :: q :: ps => Loses p ∧ Completes q ∨ Skips (q :: ps)
  | _ => False

theorem skips_of_not_loses {p : DatabaseUpdater × SQLiteDB Store} (h : ¬ Loses p) :
    Skips (p :: ps) ↔ Skips ps := by
  cases ps with
  | nil => simp [Skips]
  | cons q ps => simp [Skips, h]

theorem exists_not_completes_of_skips {ps : List (DatabaseUpdater × SQLiteDB Store)}
    (h : Skips ps) :
    ∃ p ∈ ps, ¬ Completes p := by
  induction ps with
  | nil => exact h.elim
  | cons p ps ih =>
    by_cases hp : Loses p
    · exact ⟨p, List.mem_cons_self, not_commits_of_losesCommit hp⟩
    · obtain ⟨q, hq, hnot⟩ := ih ((skips_of_not_loses hp).mp h)
      exact ⟨q, List.mem_cons_of_mem p hq, hnot⟩

def lastCompleted (v : Int) : List (DatabaseUpdater × SQLiteDB Store) → Int
  | [] => v
  | p :: ps => if Completes p then lastCompleted p.1.version ps else lastCompleted v ps

theorem lastCompleted_of_completes (h : Completes p) :
    lastCompleted v (p :: ps) = lastCompleted p.1.version ps := if_pos h

theorem lastCompleted_of_not_completes (h : ¬ Completes p) :
    lastCompleted v (p :: ps) = lastCompleted v ps := if_neg h

def Chain : Int → List DatabaseUpdater → Prop
  | _, [] => True
  | v, u :: us => u.Follows v ∧ Chain u.version us

structure Reaches (v w : Int) (s s' : Store) : Prop where
  at_version : s'.At w
  kept : Store.Kept v s s'
  marked : (v < 4 ∨ s.Marked) → 4 ≤ w → s'.Marked

theorem Reaches.refl (h : s.At v) : Reaches v v s s :=
  ⟨h, .refl, fun hm h4 => hm.resolve_left (by omega)⟩

theorem Reaches.trans {v w w' : Int} {s s' s'' : Store} (h : Reaches v w s s')
    (h' : Reaches w w' s' s'') (hvw : v ≤ w) : Reaches v w' s s'' := by
  refine ⟨h'.at_version, h.kept.trans h'.kept hvw, fun hm h4 => ?_⟩
  by_cases hw : w < 4
  · exact h'.marked (.inl hw) h4
  · exact h'.marked (.inr (h.marked hm (by omega))) h4

structure Updates (us : List DatabaseUpdater) (v : Int) (db db' : SQLiteDB Store)
    (b : Bool) : Prop where
  answer : b = true → ∀ u ∈ us, u.isOK = true
  reaches : ¬ Skips (begun us db) →
    Reaches v (lastCompleted v (begun us db)) db.contents db'.durable
  skips : Skips (begun us db) → ¬ db'.durable.At (lastCompleted v (begun us db))

theorem Updates.of_unchanged {u : DatabaseUpdater} {us : List DatabaseUpdater}
    {db db' : SQLiteDB Store}
    {b : Bool} (hbegun : begun (u :: us) db = [(u, db)]) (hc : ¬ Completes (u, db))
    (hanswer : b = true → ∀ u' ∈ u :: us, u'.isOK = true) (h : db.contents.At v)
    (hdurable : db'.durable = db.contents) : Updates (u :: us) v db db' b := by
  refine ⟨hanswer, fun _ => ?_, fun hskips => ?_⟩
  · rw [hbegun, lastCompleted_of_not_completes hc, hdurable]
    exact .refl h
  · rw [hbegun] at hskips
    exact hskips.elim

/-- Behind a `COMMIT` that has left its transaction open the next step is not begun. -/
theorem updateAll_open {u u' : DatabaseUpdater} {db db' : SQLiteDB Store}
    (us : List DatabaseUpdater) (hrun : u.updateDB db = .ok true db') (hc : ¬ Completes (u, db))
    (hloses : ¬ Loses (u, db)) (hflag : db'.transaction = false)
    (hsaved : db'.saved = some db.contents) (h : db.contents.At v) :
    ∃ b db'', updateAll (u :: u' :: us) db = .ok b db'' ∧
      Updates (u :: u' :: us) v db db'' b := by
  obtain ⟨db'', hrun', hdurable⟩ := performInTransaction_of_saved u'.body u'.isOK hflag hsaved
  have hc' : ¬ Completes (u', db') := fun h' => by simpa [inTransaction, hsaved] using h'.1
  have hrun'' : u'.updateDB db' = .ok false db'' := hrun'
  have hbegun : begun (u :: u' :: us) db = [(u, db), (u', db')] := by
    simp only [begun, hrun, hrun'']
  refine ⟨false, db'', by simp [updateAll, hrun, hrun''],
    fun hb => absurd hb Bool.false_ne_true, fun _ => ?_, fun hskips => ?_⟩
  · rw [hbegun, lastCompleted_of_not_completes hc, lastCompleted_of_not_completes hc', hdurable]
    exact .refl h
  · rw [hbegun, skips_of_not_loses (p := (u, db)) hloses] at hskips
    exact hskips.elim

/-- Behind a step that was rolled back the next one finds the file that step found. -/
theorem updateAll_lost {u u' : DatabaseUpdater} {db db' : SQLiteDB Store}
    (us : List DatabaseUpdater) (hrun : u.updateDB db = .ok true db') (hOK : u.isOK = true)
    (hv : u.Follows v) (hv' : u'.Follows u.version) (hc : ¬ Completes (u, db))
    (hloses : Loses (u, db)) (hflag : db'.transaction = false) (hsaved : db'.saved = none)
    (hcontents : db'.contents = db.contents) (h : db.contents.At v) :
    ∃ b db'', updateAll (u :: u' :: us) db = .ok b db'' ∧
      Updates (u :: u' :: us) v db db'' b := by
  rw [← hcontents] at h
  obtain ⟨db'', hrun', hcompletes, hnot⟩ := updateDB_skipping hOK hv hv' hflag hsaved h
  have hbegun : begun (u :: u' :: us) db = [(u, db), (u', db')] := by
    simp only [begun, hrun, hrun']
  refine ⟨false, db'', by simp [updateAll, hrun, hrun'],
    fun hb => absurd hb Bool.false_ne_true, fun hskips => ?_, fun hskips => ?_⟩
  · rw [hbegun] at hskips ⊢
    have hc' : ¬ Completes (u', db') := fun hc' => hskips (.inl ⟨hloses, hc'⟩)
    rw [lastCompleted_of_not_completes hc, lastCompleted_of_not_completes hc', hnot hc', hcontents]
    exact .refl (hcontents ▸ h)
  · rw [hbegun] at hskips ⊢
    have hc' : Completes (u', db') := hskips.elim And.right False.elim
    rw [lastCompleted_of_not_completes hc, lastCompleted_of_completes hc']
    exact hcompletes hc'

/-- Whatever SQLite answers, the file is in the version of the last step that was
completed, with the schema of that version and every row it had, unless that step came
behind one that was rolled back; and the chain answers `YES` only if every step would. -/
theorem updateAll_spec {us : List DatabaseUpdater} {db : SQLiteDB Store} (hchain : Chain v us)
    (hflag : db.transaction = false) (hsaved : db.saved = none) (h : db.contents.At v) :
    ∃ b db', updateAll us db = .ok b db' ∧ Updates us v db db' b := by
  induction us generalizing v db with
  | nil =>
    refine ⟨true, db, rfl, by simp, fun _ => ?_, fun hskips => hskips.elim⟩
    rw [show db.durable = db.contents from by simp [durable, hsaved]]
    exact .refl h
  | cons u us ih =>
    obtain ⟨b, db', s', hrun, hat, hkept, hmarked, hcommits, hfails⟩ :=
      updateDB_spec hflag hsaved h hchain.1
    by_cases hc : Completes (u, db)
    · have hfirst : Reaches v u.version db.contents s' := ⟨hat, hkept, hmarked⟩
      have hloses : ¬ Loses (u, db) := fun hloses => not_commits_of_losesCommit hloses hc
      obtain ⟨rfl, hflag', hsaved', rfl⟩ := hcommits hc
      cases hOK : u.isOK with
      | true =>
        rw [hOK] at hrun
        obtain ⟨b, db'', hrun', hupdates⟩ := ih hchain.2 hflag' hsaved' hat
        refine ⟨b, db'', by simp [updateAll, hrun, hrun'], fun hb u' hu' => ?_, ?_, ?_⟩
        · obtain rfl | hu' := List.mem_cons.mp hu'
          · exact hOK
          · exact hupdates.answer hb u' hu'
        · simp only [begun, hrun]
          rw [lastCompleted_of_completes hc, skips_of_not_loses hloses]
          exact fun hskips => hfirst.trans (hupdates.reaches hskips) (Int.le_of_lt hchain.1.lt)
        · simp only [begun, hrun]
          rw [lastCompleted_of_completes hc, skips_of_not_loses hloses]
          exact hupdates.skips
      | false =>
        rw [hOK] at hrun
        have hbegun : begun (u :: us) db = [(u, db)] := by simp only [begun, hrun]
        refine ⟨false, db', by simp [updateAll, hrun], fun hb => absurd hb Bool.false_ne_true,
          fun _ => ?_, fun hskips => ?_⟩
        · rw [hbegun, lastCompleted_of_completes hc,
            show db'.durable = db'.contents from by simp [durable, hsaved']]
          exact hfirst
        · rw [hbegun] at hskips
          exact hskips.elim
    · obtain ⟨hdurable, hb⟩ := hfails hc
      cases b with
      | false =>
        refine ⟨false, db', by simp [updateAll, hrun], .of_unchanged ?_ hc
          (fun hb => absurd hb Bool.false_ne_true) h hdurable⟩
        simp only [begun, hrun]
      | true =>
        obtain ⟨hOK, hflag', hopen⟩ := hb rfl
        cases us with
        | nil =>
          refine ⟨true, db', by simp [updateAll, hrun], .of_unchanged ?_ hc
            (fun _ => by simpa using hOK) h hdurable⟩
          simp only [begun, hrun]
        | cons u' us =>
          obtain ⟨hloses, hsaved'⟩ | ⟨hloses, hsaved', hcontents'⟩ := hopen
          · exact updateAll_open us hrun hc hloses hflag' hsaved' h
          · exact updateAll_lost us hrun hOK hchain.1 hchain.2.1 hc hloses hflag' hsaved' hcontents' h

theorem updateAll_filter (v : Int) (u : DatabaseUpdater) (us : List DatabaseUpdater) :
    updateAll ((u :: us).filter fun u => v < u.version) = (do
      if ← updateIf (v < u.version) u then updateAll (us.filter fun u => v < u.version)
      else return false) := by
  unfold updateIf
  by_cases h : v < u.version
  · rw [List.filter_cons_of_pos (by simpa using h), if_pos h]
    rfl
  · rw [List.filter_cons_of_neg (by simpa using h), if_neg h]
    rfl

theorem updateIf_true (u : DatabaseUpdater) (c : Prop) [Decidable c] :
    (do if ← updateIf c u then return true else return false) = updateIf c u := by
  funext db
  unfold updateIf
  by_cases hc : c
  · simp only [if_pos hc, bind_apply]
    cases u.updateDB db with
    | ok b db' => cases b <;> rfl
    | error r db' => rfl
  · simp [if_neg hc]

theorem updateIf_and {c d : Prop} [Decidable c] [Decidable d] (h : d) (u : DatabaseUpdater) :
    updateIf (c ∧ d) u = updateIf c u := by
  unfold updateIf
  by_cases hc : c <;> simp [hc, h]

theorem updateFrom_eq (h0 : 0 ≤ v) : updateFrom v databaseFileVersion = updateAll (needed v) := by
  have hneg : ¬ v < 0 := by omega
  have hfive : updateAll ([toFive].filter fun u => v < u.version) = updateIf (v < 5) toFive := by
    rw [updateAll_filter]
    exact updateIf_true toFive (v < 5)
  unfold needed
  rw [updateAll_filter, updateAll_filter, updateAll_filter, hfive]
  unfold updateFrom databaseFileVersion
  rw [if_neg hneg, updateIf_and (by decide), updateIf_and (by decide), updateIf_and (by decide),
    updateIf_and (by decide)]
  rfl

theorem chain_needed (h0 : 0 ≤ v) (h4 : v ≤ 4) : Chain v (needed v) := by
  obtain rfl | rfl | rfl | rfl | rfl : v = 0 ∨ v = 1 ∨ v = 2 ∨ v = 3 ∨ v = 4 := by omega
  all_goals simp [needed, version, Chain, Follows]

def AllSucceed (v : Int) (db : SQLiteDB Store) : Prop := ∀ p ∈ begun (needed v) db, Completes p

/-- An update that does what it is for: if nothing fails, it answers `YES` and has
made the file one that `createTables` could have made, with the rows it had and the
favorites marked; else the file is in the version of the last completed step. -/
structure Migrates (v : Int) (db : SQLiteDB Store) : Prop where
  succeeded : AllSucceed v db → ∃ db', updateFrom v databaseFileVersion db = .ok true db' ∧
    db'.durable.version = databaseFileVersion ∧ Store.Kept v db.contents db'.durable ∧
    db'.durable.Marked ∧
    (∀ table, db'.durable.schema.columnNames table = created.schema.columnNames table) ∧
    db'.durable.schema.viewColumns = created.schema.viewColumns
  failed : ¬ AllSucceed v db → (after (updateFrom v databaseFileVersion) db).durable.At
    (lastCompleted v (begun (needed v) db))

theorem updateFrom_spec {db : SQLiteDB Store} (h0 : 0 ≤ v) (h4 : v ≤ 4)
    (hflag : db.transaction = false) (hsaved : db.saved = none) (h : db.contents.At v) :
    ∃ db', updateFrom v databaseFileVersion db = .ok false db' ∧
      Updates (needed v) v db db' false := by
  obtain ⟨b, db', hrun, hupdates⟩ := updateAll_spec (chain_needed h0 h4) hflag hsaved h
  rw [← updateFrom_eq h0] at hrun
  cases b with
  | false => exact ⟨db', hrun, hupdates⟩
  | true =>
    have hfive : toFive ∈ needed v := by
      simp only [needed, List.mem_filter, decide_eq_true_eq]
      exact ⟨by simp, show v < 5 by omega⟩
    exact absurd (hupdates.answer rfl toFive hfive) (by decide)

/-- The update of an old file does what it is for if and only if one of its statements
fails and no step completes behind one that SQLite has rolled back. -/
theorem migrates_iff {db : SQLiteDB Store} (h0 : 0 ≤ v) (h4 : v ≤ 4)
    (hflag : db.transaction = false) (hsaved : db.saved = none) (h : db.contents.At v) :
    Migrates v db ↔ ¬ AllSucceed v db ∧ ¬ Skips (begun (needed v) db) := by
  obtain ⟨db', hrun, hupdates⟩ := updateFrom_spec h0 h4 hflag hsaved h
  have hafter : after (updateFrom v databaseFileVersion) db = db' := by simp only [after, hrun]
  constructor
  · intro hm
    refine ⟨fun hall => ?_, fun hskips => ?_⟩
    · obtain ⟨db'', hrun', -⟩ := hm.succeeded hall
      rw [hrun] at hrun'
      cases hrun'
    · obtain ⟨p, hp, hnot⟩ := exists_not_completes_of_skips hskips
      have hat := hm.failed fun hall => hnot (hall p hp)
      rw [hafter] at hat
      exact hupdates.skips hskips hat
  · rintro ⟨hfails, hskips⟩
    refine ⟨fun hall => absurd hall hfails, fun _ => ?_⟩
    rw [hafter]
    exact (hupdates.reaches hskips).at_version

/-- The view of an updated file has columns that `createTables` does not give it. -/
theorem viewColumns_ne_created (h : s.At 5) :
    s.schema.viewColumns ≠ created.schema.viewColumns := by
  rw [viewColumns_created]
  simp [Schema.viewColumns, Schema.columnNames, h.view, h.columns, columnsOf, boardInfoColumns,
    threadInfoColumns, newViewColumns]

def versionFour : Store where
  schema := ⟨fun table => some (columnsOf 4 table), fun name =>
    if name = historyIndex then some false else none,
    some [.numberOfDifference]⟩
  tables := Tables.empty
  version := 4

theorem at_versionFour : versionFour.At 4 := ⟨rfl, fun _ => rfl, by decide, rfl⟩

theorem begun_four : begun (needed 4) db = [(toFive, db)] := by
  rw [show needed 4 = [toFive] from rfl]
  simp only [begun]
  split <;> rfl

theorem allSucceed_four : AllSucceed 4 db ↔ Completes (toFive, db) := by
  simp [AllSucceed, begun_four]

/-- The view cannot be dropped because the file is busy. -/
theorem migrates_busy : Migrates 4
    { idle versionFour .ok fun _ => false with answers := fun _ => .busy } := by
  refine (migrates_iff (by decide) (by decide) rfl rfl at_versionFour).mpr ⟨?_, ?_⟩
  · rw [allSucceed_four]
    exact fun h => absurd (h.2.2.1 0 (by decide)) (by decide)
  · rw [begun_four]
    exact id

/-- The last step alone: everything succeeds, and the answer is `NO`. -/
theorem not_migrates : ¬ ∀ (v : Int) (db : SQLiteDB Store), 0 ≤ v → v ≤ 4 → db.transaction = false →
    db.saved = none → db.contents.At v → Migrates v db := by
  intro h
  let db : SQLiteDB Store := idle versionFour .ok fun _ => false
  have hall : AllSucceed 4 db := allSucceed_four.mpr ⟨rfl, rfl, fun _ _ => rfl, rfl⟩
  obtain ⟨db', hrun, -⟩ :=
    (h 4 db (by decide) (by decide) rfl rfl at_versionFour).succeeded hall
  have hat : db.contents.At 4 := at_versionFour
  obtain ⟨db'', hrun', -⟩ := updateFrom_spec (by decide) (by decide) rfl rfl hat
  rw [hrun'] at hrun
  cases hrun

end DatabaseUpdater

end BathyScaphe.Database
