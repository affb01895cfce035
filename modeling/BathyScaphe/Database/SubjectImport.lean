import BathyScaphe.Database.SubjectRows
import BathyScaphe.Database.Transactions

/-!
# Importing a subject list

What the update task makes of a subject list whose statements succeed, and when
this is what the list says. A list in the first of the two forms gives new threads a
title with a space at its end.
-/

namespace BathyScaphe.Database

open SQLiteDB

namespace SQLiteDB

section
variable {τ α : Type} {db db' db'' : SQLiteDB τ}

def Begins (db : SQLiteDB τ) : Prop :=
  db.transaction = false ∧ db.saved = none ∧ db.begins 0 = .ok

def begun (db : SQLiteDB τ) : SQLiteDB τ :=
  { db with
    transaction := true, errcode := .ok, saved := some db.contents,
    begins := fun i => db.begins (i + 1) }

def ended (db : SQLiteDB τ) : SQLiteDB τ :=
  { db with
    transaction := false, errcode := .ok, saved := none, commits := fun i => db.commits (i + 1) }

/-- The flag is the one it was, and a transaction that is still open is the one it was. -/
structure SameFlag (db db' : SQLiteDB τ) : Prop where
  transaction : db'.transaction = db.transaction
  begins : db'.begins = db.begins
  commits : db'.commits = db.commits
  saved : db'.inTransaction = true → db'.saved = db.saved

theorem SameTransaction.sameFlag (h : SameTransaction db db') : SameFlag db db' :=
  ⟨h.transaction, h.begins, h.commits, fun _ => h.saved⟩

theorem SameFlag.sameTransaction (h : SameFlag db db') (hin : db'.inTransaction = true) :
    SameTransaction db db' := ⟨h.saved hin, h.transaction, h.begins, h.commits⟩

theorem SameFlag.trans (h : SameFlag db db') (h' : SameFlag db' db'') : SameFlag db db'' := by
  refine ⟨h'.transaction.trans h.transaction, h'.begins.trans h.begins, h'.commits.trans h.commits,
    fun hin => ?_⟩
  have hsaved := h'.saved hin
  have hin' : db'.inTransaction = true := by rw [inTransaction, ← hsaved, ← inTransaction, hin]
  exact hsaved.trans (h.saved hin')

theorem Leaves.sameFlag (h : Leaves db db') : SameFlag db db' := by
  refine ⟨h.transaction, h.begins, h.commits, fun hin => ?_⟩
  have hnone (hsaved : db'.saved = none) : db'.inTransaction = false := by
    simp [inTransaction, hsaved]
  cases hsaved : db.saved with
  | none =>
    rw [hnone (h.outside hsaved)] at hin
    cases hin
  | some c =>
    obtain hsame | ⟨hundone, -⟩ := h.inside c hsaved
    · exact hsame
    · rw [hnone hundone] at hin
      cases hin

theorem performQuery_spec (db : SQLiteDB τ) (stmt : τ → Option τ) :
    ∃ db', performQuery stmt db = .ok () db' ∧ SameFlag db db' ∧
      (db.answers 0 = .ok → SameTransaction db db' ∧
        db'.contents = (stmt db.contents).getD db.contents ∧
        db'.answers = fun i => db.answers (i + 1)) := by
  unfold performQuery
  by_cases hok : db.answers 0 = .ok
  · rw [if_pos hok]
    cases stmt db.contents with
    | some c =>
      have hsame : SameTransaction db { db.answered .ok with contents := c } := ⟨rfl, rfl, rfl, rfl⟩
      exact ⟨_, rfl, hsame.sameFlag, fun _ => ⟨hsame, rfl, rfl⟩⟩
    | none =>
      have hsame : SameTransaction db (db.answered .constraint) := ⟨rfl, rfl, rfl, rfl⟩
      exact ⟨_, rfl, hsame.sameFlag, fun _ => ⟨hsame, rfl, rfl⟩⟩
  · rw [if_neg hok]
    exact ⟨_, rfl, (leaves_refused db).sameFlag, fun h => absurd h hok⟩

theorem beginTransaction_of_begins (h : db.Begins) : beginTransaction db = .ok true db.begun := by
  obtain ⟨hflag, hsaved, hbegin⟩ := h
  simp [beginTransaction, isTransaction, setTransaction, performBegin, hflag, hsaved, hbegin, begun]

theorem beginTransaction_of_not_begins (h : ¬ db.Begins) :
    ∃ db', beginTransaction db = .ok false db' ∧ db'.transaction = true ∧
      db'.contents = db.contents ∧ db'.saved = db.saved ∧ db'.answers = db.answers := by
  by_cases hflag : db.transaction = true
  · exact ⟨db, by simp [beginTransaction, isTransaction, hflag], hflag, rfl, rfl, rfl⟩
  · by_cases hbegin : db.begins 0 = .ok
    · cases hsaved : db.saved with
      | none => exact absurd ⟨by simpa using hflag, hsaved, hbegin⟩ h
      | some c =>
        refine ⟨{ db with
          transaction := true, errcode := .error, begins := fun i => db.begins (i + 1) },
            ?_, rfl, rfl,
          hsaved, rfl⟩
        simp [beginTransaction, isTransaction, setTransaction, performBegin, hflag, hsaved, hbegin]
    · refine ⟨{ db with
        transaction := true, errcode := db.begins 0, begins :=
          fun i => db.begins (i + 1) }, ?_, rfl,
        rfl, rfl, rfl⟩
      simp [beginTransaction, isTransaction, setTransaction, performBegin, hflag, hbegin]

theorem commitTransaction_of_saved {c : τ} (hflag : db.transaction = true)
    (hsaved : db.saved = some c) (hcommit : db.commits 0 = .ok) :
    commitTransaction db = .ok true db.ended := by
  simp [commitTransaction, isTransaction, setTransaction, performCommit, hflag,
    hsaved, hcommit, ended]

theorem after_of_eq {x : Db τ α} {a : α} (h : x db = .ok a db') : after x db = db' := by
  rw [after, h]

end

end SQLiteDB

-- What the database answers

namespace UpdateTask

/-- The number of queries a line is registered with: the select, the statement for the
row if there is one, and the thread number. -/
def queries (task : UpdateTask) (line : SubjectLine) (t : Tables) : Nat :=
  let k := line.key task.threadID task.boardID
  (lineStatement k line (t.threadInfo.find k)).toList.length + 2

/-- From `db` on, the loop over the lines is not interrupted and SQLite fails none of
its queries. -/
def LinesComplete (task : UpdateTask) : Nat → List (Option SubjectLine) → SQLiteDB Tables → Prop
  | _, [], _ => True
  | n, none :: lines, db =>
    db.interruptions 0 = false ∧ task.LinesComplete (n + 1) lines (after isInterrupted db)
  | n, some line :: lines, db =>
    db.interruptions 0 = false ∧ db.Succeed (task.queries line db.contents) ∧
      task.LinesComplete (n + 1) lines (after
        (updateDB task.threadID task.boardID line (UInt32.ofNat n + 1)) (after isInterrupted db))

/-- From `db` on, the loop over the lines is interrupted or one of its selects fails,
and up to there SQLite has not rolled the transaction back. -/
def LinesStop (task : UpdateTask) : Nat → List (Option SubjectLine) → SQLiteDB Tables → Prop
  | _, [], _ => False
  | n, none :: lines, db =>
    db.interruptions 0 = true ∨ task.LinesStop (n + 1) lines (after isInterrupted db)
  | n, some line :: lines, db =>
    db.interruptions 0 = true ∨ db.answers 0 ≠ .ok ∨
      let db' := after (updateDB task.threadID task.boardID line (UInt32.ofNat n + 1))
        (after isInterrupted db)
      db'.inTransaction = true ∧ task.LinesStop (n + 1) lines db'

def cleared (task : UpdateTask) (db : SQLiteDB Tables) : SQLiteDB Tables :=
  after (performQuery fun t => some (t.clearNumbers task.boardID))
    (after isInterrupted (after makeQuerys (after beginTransaction db)))

def committed (task : UpdateTask) (lines : List (Option SubjectLine)) (db : SQLiteDB Tables) :
    SQLiteDB Tables :=
  after commitTransaction
    (after (registerLines task.threadID task.boardID 0 lines) (task.cleared db))

/-- The task is not interrupted and SQLite fails none of its queries, of which a log
file has three. -/
structure Completes (task : UpdateTask) (lines : List (Option SubjectLine)) (db : SQLiteDB Tables) :
    Prop where
  begins : db.Begins
  prepares : db.Succeed 4
  uninterrupted : db.interruptions 0 = false
  clears : db.answers 4 = .ok
  lists : task.LinesComplete 0 lines (task.cleared db)
  commits : db.commits 0 = .ok
  registers : task.isRebuilding = true →
    (task.committed lines db).Succeed (3 * task.logFiles.length)
  deletes : task.isRebuilding = false → task.isDelete = true →
    db.begins 1 = .ok ∧ (task.committed lines db).answers 0 = .ok ∧ db.commits 1 = .ok

/-- The transaction is not begun, or it is and the task is interrupted, or a
preparation or a select fails. Log files are registered without a transaction too. -/
def Stops (task : UpdateTask) (lines : List (Option SubjectLine)) (db : SQLiteDB Tables) : Prop :=
  ¬ db.Begins ∧ (task.isRebuilding = true → db.Succeed (3 * task.logFiles.length)) ∨
  db.Begins ∧ (¬ db.Succeed 4 ∨ db.interruptions 0 = true ∨
    (task.cleared db).inTransaction = true ∧ task.LinesStop 0 lines (task.cleared db))

end UpdateTask

-- One line, all lines

section
variable (db : SQLiteDB Tables)

theorem performIfNeeded_spec (stmt : Option (Tables → Option Tables)) :
    ∃ db', performIfNeeded stmt db = .ok () db' ∧ SameFlag db db' ∧
      (db.Succeed stmt.toList.length → SameTransaction db db' ∧
        db'.contents = (stmt.bind (· db.contents)).getD db.contents ∧
        db'.answers = fun i => db.answers (i + stmt.toList.length)) := by
  cases stmt with
  | none =>
    have hsame : SameTransaction db db := ⟨rfl, rfl, rfl, rfl⟩
    exact ⟨db, rfl, hsame.sameFlag, fun _ => ⟨hsame, rfl, rfl⟩⟩
  | some stmt =>
    obtain ⟨db', hquery, hsame, hthen⟩ := performQuery_spec db stmt
    exact ⟨db', hquery, hsame, fun hok => hthen (hok 0 Nat.one_pos)⟩

theorem updateDB_of_refused (threadID : NSString → Nat) (boardID : UInt32) (line : SubjectLine)
    (index : UInt32) (hfail : db.answers 0 ≠ .ok) :
    updateDB threadID boardID line index db = .ok false db.refused := by
  simp [updateDB, cursorForSQL, hfail]

theorem updateDB_of_selected (task : UpdateTask) (line : SubjectLine) (index : UInt32)
    (hok : db.answers 0 = .ok) :
    ∃ db', updateDB task.threadID task.boardID line index db = .ok true db' ∧ SameFlag db db' ∧
      (db.Succeed (task.queries line db.contents) → SameTransaction db db' ∧
        db'.contents = db.contents.listLine task.threadID task.boardID index line) := by
  unfold updateDB UpdateTask.queries Tables.listLine Tables.listRow Tables.listNumber
  generalize line.key task.threadID task.boardID = k
  dsimp only
  have hcursor : cursorForSQL (fun t => t.threadInfo.find k) db =
      .ok (some (db.contents.threadInfo.find k)) (db.answered .ok) := by
    simp [cursorForSQL, hok]
  have hselect : SameTransaction db (db.answered .ok) := ⟨rfl, rfl, rfl, rfl⟩
  generalize hstmt : lineStatement k line (db.contents.threadInfo.find k) = stmt
  obtain ⟨db₁, hrow, hflag₁, hthen₁⟩ := performIfNeeded_spec (db.answered .ok) stmt
  obtain ⟨db₂, hnumber, hflag₂, hthen₂⟩ :=
    performQuery_spec db₁ (Tables.insertNumber (line.numberKey task.boardID) index)
  refine ⟨db₂, ?_, (hselect.sameFlag.trans hflag₁).trans hflag₂, fun hall => ?_⟩
  · simp [hcursor, hstmt, hrow, hnumber]
  · obtain ⟨hsame₁, hcontents₁, hanswers₁⟩ := hthen₁ fun i hi => hall (i + 1) (by omega)
    have hlast : db₁.answers 0 = .ok := by
      rw [hanswers₁]
      exact hall (0 + stmt.toList.length + 1) (by omega)
    obtain ⟨hsame₂, hcontents₂, -⟩ := hthen₂ hlast
    refine ⟨(hselect.trans hsame₁).trans hsame₂, ?_⟩
    rw [hcontents₂, hcontents₁]
    rfl

variable {db} {task : UpdateTask} {lines : List (Option SubjectLine)}

/-- A loop that is stopped leaves the transaction, or SQLite has rolled it back with
the last statement. -/
theorem registerLines_of_linesStop {n : Nat} (h : task.LinesStop n lines db) :
    ∃ db', registerLines task.threadID task.boardID n lines db = .ok false db' ∧ Leaves db db' := by
  induction lines generalizing n db with
  | nil => exact absurd h id
  | cons line lines ih =>
    have hcheck : SameTransaction db (after isInterrupted db) := ⟨rfl, rfl, rfl, rfl⟩
    by_cases hi : db.interruptions 0 = true
    · refine ⟨after isInterrupted db, ?_, hcheck.leaves⟩
      simp [registerLines, isInterrupted, hi, after]
    · have hstep : isInterrupted db = .ok false (after isInterrupted db) := by
        simp [isInterrupted, after, hi]
      cases line with
      | none =>
        obtain ⟨db', hlines, hleaves⟩ := ih (h.resolve_left hi)
        exact ⟨db', by simp [registerLines, hstep, hlines], hcheck.trans_leaves hleaves⟩
      | some line =>
        by_cases hok : db.answers 0 = .ok
        · obtain ⟨db₁, hline, hflag, -⟩ :=
            updateDB_of_selected (after isInterrupted db) task line (UInt32.ofNat n + 1) hok
          obtain ⟨hin, hrest⟩ := (h.resolve_left hi).resolve_left (not_not.mpr hok)
          rw [after_of_eq hline] at hin hrest
          obtain ⟨db', hlines, hleaves⟩ := ih hrest
          refine ⟨db', by simp [registerLines, hstep, hline, hlines], ?_⟩
          exact (hcheck.trans (hflag.sameTransaction hin)).trans_leaves hleaves
        · have hline := updateDB_of_refused (after isInterrupted db) task.threadID task.boardID line
            (UInt32.ofNat n + 1) hok
          exact ⟨_, by simp [registerLines, hstep, hline], hcheck.trans_leaves (leaves_refused _)⟩

theorem registerLines_of_linesComplete {n : Nat} (h : task.LinesComplete n lines db) :
    ∃ db', registerLines task.threadID task.boardID n lines db = .ok true db' ∧
      SameTransaction db db' ∧
      db'.contents = db.contents.listLines task.threadID task.boardID n lines := by
  induction lines generalizing n db with
  | nil => exact ⟨db, rfl, ⟨rfl, rfl, rfl, rfl⟩, rfl⟩
  | cons line lines ih =>
    have hcheck : SameTransaction db (after isInterrupted db) := ⟨rfl, rfl, rfl, rfl⟩
    have hstep (hi : db.interruptions 0 = false) :
        isInterrupted db = .ok false (after isInterrupted db) := by
      simp [isInterrupted, after, hi]
    cases line with
    | none =>
      obtain ⟨hi, hrest⟩ := h
      obtain ⟨db', hlines, hsame, hcontents⟩ := ih hrest
      exact ⟨db', by simp [registerLines, hstep hi, hlines], hcheck.trans hsame, hcontents⟩
    | some line =>
      obtain ⟨hi, hqueries, hrest⟩ := h
      obtain ⟨db₁, hline, -, hthen⟩ := updateDB_of_selected (after isInterrupted db) task line
        (UInt32.ofNat n + 1) (hqueries 0 (Nat.succ_pos _))
      obtain ⟨hsame₁, hcontents₁⟩ := hthen hqueries
      rw [after_of_eq hline] at hrest
      obtain ⟨db', hlines, hsame, hcontents⟩ := ih hrest
      refine ⟨db', by simp [registerLines, hstep hi, hline, hlines],
        (hcheck.trans hsame₁).trans hsame, ?_⟩
      rw [hcontents, hcontents₁]
      rfl

-- Log files

theorem insertThread_of_succeed (file : LogFile) (h : db.Succeed 3) :
    ∃ b db', insertThread file db = .ok b db' ∧ SameTransaction db db' ∧
      db'.contents = db.contents.logged file ∧ db'.answers = fun i => db.answers (i + 3) := by
  have h₀ : db.answers 0 = .ok := h 0 (by omega)
  have h₁ : db.answers 1 = .ok := h 1 (by omega)
  have h₂ : db.answers 2 = .ok := h 2 (by omega)
  have hfavorite : isRegisteredWithFavoritesTable file.key db =
      .ok (db.contents.favorites.find file.key).isSome (db.answered .ok) := by
    simp [isRegisteredWithFavoritesTable, cursorForSQL, h₀]
  have hregistered : isThreadIdentifierRegistered file.key (db.answered .ok) =
      .ok (db.contents.registered file.key) ((db.answered .ok).answered .ok) := by
    cases hrow : db.contents.threadInfo.find file.key <;>
      simp [isThreadIdentifierRegistered, cursorForSQL, answered, Tables.registered, h₁, hrow]
  obtain ⟨db', hquery, -, hthen⟩ := performQuery_spec ((db.answered .ok).answered .ok)
    (file.statement (db.contents.favorites.find file.key).isSome (db.contents.registered file.key))
  obtain ⟨hsame, hcontents, hanswers⟩ := hthen h₂
  refine ⟨db'.errcode = .ok, db', ?_, ⟨hsame.saved, hsame.transaction, hsame.begins, hsame.commits⟩,
    hcontents, hanswers⟩
  simp [insertThread, hfavorite, hregistered, hquery]

theorem insertOrUpdateFromLogFiles_of_succeed {files : List LogFile}
    (h : db.Succeed (3 * files.length)) :
    ∃ db', insertOrUpdateFromLogFiles files db = .ok () db' ∧ SameTransaction db db' ∧
      db'.contents = files.foldl (fun t file => t.logged file) db.contents := by
  induction files generalizing db with
  | nil => exact ⟨db, rfl, ⟨rfl, rfl, rfl, rfl⟩, rfl⟩
  | cons file files ih =>
    rw [List.length_cons] at h
    obtain ⟨b, db₁, hfile, hsame₁, hcontents₁, hanswers₁⟩ :=
      insertThread_of_succeed file fun i hi => h i (by omega)
    have hrest : db₁.Succeed (3 * files.length) := fun i hi => by
      rw [hanswers₁]
      exact h (i + 3) (by omega)
    obtain ⟨db', hfiles, hsame, hcontents⟩ := ih hrest
    refine ⟨db', by simp [insertOrUpdateFromLogFiles, hfile, hfiles], hsame₁.trans hsame, ?_⟩
    rw [hcontents, hcontents₁]
    rfl

-- The whole task

theorem finish_of_rebuilding (hr : task.isRebuilding = true)
    (h : db.Succeed (3 * task.logFiles.length)) :
    ∃ db', task.finish db = .ok () db' ∧ SameTransaction db db' ∧
      db'.contents = task.finished db.contents := by
  obtain ⟨db', hfiles, hsame, hcontents⟩ := insertOrUpdateFromLogFiles_of_succeed h
  refine ⟨db', by rw [UpdateTask.finish, if_pos hr, hfiles], hsame, ?_⟩
  rw [hcontents, UpdateTask.finished, if_pos hr]

/-- The deletion of a task whose transaction was not begun does nothing. -/
theorem finish_of_transaction (hr : task.isRebuilding = false) (hflag : db.transaction = true) :
    task.finish db = .ok () db := by
  by_cases hd : task.isDelete = true
  · simp [UpdateTask.finish, hr, deleteUnusedInfomations, hd, beginTransaction,
      isTransaction, hflag]
  · simp [UpdateTask.finish, hr, deleteUnusedInfomations, hd]

theorem finish_of_begins (db : SQLiteDB Tables) (hr : task.isRebuilding = false)
    (hdb : db.transaction = false ∧ db.saved = none)
    (hok : task.isDelete = true → db.begins 0 = .ok ∧ db.answers 0 = .ok ∧ db.commits 0 = .ok) :
    ∃ db', task.finish db = .ok () db' ∧ db'.contents = task.finished db.contents ∧
      db'.saved = none := by
  by_cases hd : task.isDelete = true
  · obtain ⟨hbegin, hanswer, hcommit⟩ := hok hd
    have hbegun := beginTransaction_of_begins ⟨hdb.1, hdb.2, hbegin⟩
    obtain ⟨db₁, hquery, -, hthen⟩ := performQuery_spec db.begun fun t =>
      some (t.deleteThreads (isUnused task.threadID task.boardID t))
    obtain ⟨hsame, hcontents, -⟩ := hthen hanswer
    have hcommitted := commitTransaction_of_saved hsame.transaction hsame.saved
      ((congrFun hsame.commits 0).trans hcommit)
    have hended : db₁.ended.contents =
        db.contents.deleteThreads (isUnused task.threadID task.boardID db.contents) := hcontents
    refine ⟨db₁.ended, ?_, ?_, rfl⟩
    · simp only [UpdateTask.finish, hr, deleteUnusedInfomations, hd]
      simp [hbegun, hquery, hcommitted]
    · simp [hended, UpdateTask.finished, hr, hd]
  · refine ⟨db, ?_, ?_, hdb.2⟩
    · simp [UpdateTask.finish, hr, deleteUnusedInfomations, hd]
    · simp [UpdateTask.finished, hr, hd]

theorem sends_makeQuerys (db : SQLiteDB Tables) : Sends makeQuerys 4 db db.contents := by
  have hone (db : SQLiteDB Tables) : Sends reservedQuery 1 db db.contents := by
    have hsame (code : Code) : SameTransaction db (db.answered code) := ⟨rfl, rfl, rfl, rfl⟩
    refine sends_one (db.answered .ok) (fun hok => ⟨?_, hsame .ok, rfl, rfl⟩) fun hfails => ?_
    · simp [reservedQuery, hok]
    · exact ⟨db.answered (db.answers 0), by simp [reservedQuery, hfails], (hsame _).leaves⟩
  exact (hone db).and fun db₁ h₁ => (h₁ ▸ hone db₁).and fun db₂ h₂ =>
    (h₂ ▸ hone db₂).and fun db₃ h₃ =>
    h₃ ▸ hone db₃

theorem makeQuerys_of_succeed (db : SQLiteDB Tables) (hok : db.Succeed 4) :
    makeQuerys db = .ok true { db with
      errcode := .ok, answers := fun n => db.answers (n + 4), undoes :=
        fun n => db.undoes (n + 4) } := by
  have h₀ : db.answers 0 = .ok := hok 0 (by omega)
  have h₁ : db.answers 1 = .ok := hok 1 (by omega)
  have h₂ : db.answers 2 = .ok := hok 2 (by omega)
  have h₃ : db.answers 3 = .ok := hok 3 (by omega)
  simp [makeQuerys, reservedQuery, answered, h₀, h₁, h₂, h₃]

def prepared (db : SQLiteDB Tables) : SQLiteDB Tables :=
  { db.begun with answers := fun n => db.answers (n + 4), undoes := fun n => db.undoes (n + 4) }

theorem run_of_prepared (hbegin : db.Begins) (hok : db.Succeed 4) :
    task.run lines db = (do
      if ← isInterrupted then abort
      else
        performQuery fun t => some (t.clearNumbers task.boardID)
        if ← registerLines task.threadID task.boardID 0 lines then
          let _ ← commitTransaction
          task.finish
          return true
        else abort : Db Tables Bool) (prepared db) := by
  have hquerys := makeQuerys_of_succeed db.begun hok
  rw [UpdateTask.run, bind_apply, beginTransaction_of_begins hbegin]
  simp only [if_true, bind_apply, hquerys]
  rfl

theorem cleared_of_prepared (hbegin : db.Begins) (hok : db.Succeed 4) : task.cleared db =
    after (performQuery fun t => some (t.clearNumbers task.boardID))
      (after isInterrupted (prepared db)) := by
  have hquerys := makeQuerys_of_succeed db.begun hok
  have hprepared : after makeQuerys (after beginTransaction db) = prepared db := by
    rw [after_of_eq (beginTransaction_of_begins hbegin), after_of_eq hquerys]
    rfl
  rw [UpdateTask.cleared, hprepared]

theorem cleared_spec (task : UpdateTask) (hbegin : db.Begins) (hok : db.Succeed 4) :
    performQuery (fun t => some (t.clearNumbers task.boardID)) (after isInterrupted (prepared db)) =
        .ok () (task.cleared db) ∧
      SameFlag (prepared db) (task.cleared db) ∧
      (db.answers 4 = .ok → SameTransaction (prepared db) (task.cleared db) ∧
        (task.cleared db).contents = db.contents.clearNumbers task.boardID) := by
  obtain ⟨db₁, hquery, hflag, hthen⟩ := performQuery_spec (after isInterrupted (prepared db))
    fun t => some (t.clearNumbers task.boardID)
  have hcleared : task.cleared db = db₁ := by
    rw [cleared_of_prepared hbegin hok, after_of_eq hquery]
  rw [hcleared]
  refine ⟨hquery, ⟨hflag.transaction, hflag.begins, hflag.commits, hflag.saved⟩, fun hclear => ?_⟩
  obtain ⟨hsame, hcontents, -⟩ := hthen hclear
  exact ⟨⟨hsame.saved, hsame.transaction, hsame.begins, hsame.commits⟩, hcontents⟩

theorem abort_of_leaves {db' : SQLiteDB Tables} (h : Leaves db db') (hflag : db.transaction = true)
    (hsaved : db.saved = some c) :
    ∃ db'', abort db' = .ok false db'' ∧ db''.contents = c ∧ db''.saved = none := by
  obtain ⟨b, db'', hrollback, -, hnone, hcontents⟩ := h.rollbackTransaction hflag hsaved
  exact ⟨db'', by simp [abort, hrollback], hcontents, hnone⟩

theorem run_of_not_begins (hbegin : ¬ db.Begins)
    (hregisters : task.isRebuilding = true → db.Succeed (3 * task.logFiles.length)) :
    ∃ db', task.run lines db = .ok true db' ∧ db'.saved = db.saved ∧
      db'.contents = if task.isRebuilding then task.finished db.contents else db.contents := by
  obtain ⟨db₁, hbegun, hflag, hcontents, hsaved, hanswers⟩ := beginTransaction_of_not_begins hbegin
  cases hr : task.isRebuilding with
  | true =>
    have hrest : db₁.Succeed (3 * task.logFiles.length) := fun i hi => by
      rw [hanswers]
      exact hregisters hr i hi
    obtain ⟨db', hfinish, hsame, hfinished⟩ := finish_of_rebuilding hr hrest
    refine ⟨db', ?_, hsame.saved.trans hsaved, by rw [hfinished, hcontents, if_pos rfl]⟩
    rw [UpdateTask.run, bind_apply, hbegun]
    simp [hfinish]
  | false =>
    refine ⟨db₁, ?_, hsaved, hcontents⟩
    rw [UpdateTask.run, bind_apply, hbegun]
    simp [finish_of_transaction hr hflag]

/-- A task that is stopped in its transaction leaves the tables as they were. -/
theorem run_of_stopped (hbegin : db.Begins) (h : ¬ db.Succeed 4 ∨ db.interruptions 0 = true ∨
    (task.cleared db).inTransaction = true ∧ task.LinesStop 0 lines (task.cleared db)) :
    ∃ db', task.run lines db = .ok false db' ∧ db'.contents = db.contents ∧
      db'.saved = db.saved := by
  have hsaved : db.saved = none := hbegin.2.1
  by_cases hok : db.Succeed 4
  · rw [run_of_prepared hbegin hok, hsaved]
    by_cases hi : db.interruptions 0 = true
    · have hcheck : SameTransaction (prepared db) (after isInterrupted (prepared db)) :=
        ⟨rfl, rfl, rfl, rfl⟩
      obtain ⟨db', habort, hcontents, hnone⟩ := abort_of_leaves hcheck.leaves rfl rfl
      refine ⟨db', ?_, hcontents, hnone⟩
      have hflag : isInterrupted (prepared db) = .ok true (after isInterrupted (prepared db)) :=
        congrArg (EStateM.Result.ok · _) hi
      simp [hflag, habort]
    · have hflag : isInterrupted (prepared db) = .ok false (after isInterrupted (prepared db)) :=
        congrArg (EStateM.Result.ok · _) (by simpa using hi : db.interruptions 0 = false)
      obtain ⟨hclear, hsame, -⟩ := cleared_spec task hbegin hok
      obtain ⟨hin, hstop⟩ := (h.resolve_left (not_not.mpr hok)).resolve_left hi
      obtain ⟨db₁, hlines, hleaves⟩ := registerLines_of_linesStop hstop
      obtain ⟨db', habort, hcontents, hnone⟩ :=
        abort_of_leaves ((hsame.sameTransaction hin).trans_leaves hleaves) rfl rfl
      exact ⟨db', by simp [hflag, hclear, hlines, habort], hcontents, hnone⟩
  · obtain ⟨b, db₁, hquerys, hleaves, hb, -⟩ := sends_makeQuerys db.begun
    have hb : b = false := by
      cases b with
      | false => rfl
      | true => exact absurd (hb.mp rfl) hok
    subst hb
    obtain ⟨db', habort, hcontents, hnone⟩ := abort_of_leaves hleaves rfl rfl
    refine ⟨db', ?_, hcontents, hnone.trans hsaved.symm⟩
    rw [UpdateTask.run, bind_apply, beginTransaction_of_begins hbegin]
    simp [hquerys, habort]

theorem run_of_completes (h : task.Completes lines db) :
    ∃ db', task.run lines db = .ok true db' ∧ db'.contents = task.updated lines db.contents ∧
      db'.saved = none := by
  have hflag : isInterrupted (prepared db) = .ok false (after isInterrupted (prepared db)) :=
    congrArg (EStateM.Result.ok · _) h.uninterrupted
  obtain ⟨hclear, -, hthen⟩ := cleared_spec task h.begins h.prepares
  obtain ⟨hsame, hcleared⟩ := hthen h.clears
  obtain ⟨db₁, hlines, hsame₁, hlisted⟩ := registerLines_of_linesComplete h.lists
  have hall := hsame.trans hsame₁
  have hcommitted := commitTransaction_of_saved hall.transaction hall.saved
    ((congrFun hall.commits 0).trans h.commits)
  have hstate : task.committed lines db = db₁.ended := by
    rw [UpdateTask.committed, after_of_eq hlines, after_of_eq hcommitted]
  have hcontents : db₁.ended.contents = task.listed lines db.contents := by
    rw [UpdateTask.listed, ← hcleared, ← hlisted]
    rfl
  obtain ⟨db', hfinish, hfinished, hnone⟩ : ∃ db', task.finish db₁.ended = .ok () db' ∧
      db'.contents = task.finished db₁.ended.contents ∧ db'.saved = none := by
    cases hr : task.isRebuilding with
    | true =>
      obtain ⟨db', hfinish, hsame', hfinished⟩ :=
        finish_of_rebuilding hr (hstate ▸ h.registers hr)
      exact ⟨db', hfinish, hfinished, hsame'.saved⟩
    | false =>
      refine finish_of_begins db₁.ended hr ⟨rfl, rfl⟩ fun hd => ?_
      obtain ⟨hbegin, hanswer, hcommit⟩ := h.deletes hr hd
      rw [hstate] at hanswer
      exact ⟨(congrFun hall.begins 0).trans hbegin, hanswer,
        (congrFun hall.commits 1).trans hcommit⟩
  refine ⟨db', ?_, by rw [hfinished, hcontents, UpdateTask.updated], hnone⟩
  rw [run_of_prepared h.begins h.prepares]
  simp [hflag, hclear, hlines, hcommitted, hfinish]

end

-- What the list says, and when it is imported

structure Listed (env : SubjectServices) (text : SubjectText) (task : UpdateTask) (t t' : Tables) :
    Prop where
  rows : ∀ line ∈ text.lines, ∀ key title number, ListsThread line key title number →
    ∃ row m, t'.threadInfo.find ⟨task.boardID, task.threadID key⟩ = some row ∧
      row.numberOfAll = some m ∧ m.toNat = decimalValue number ∧
      (t.threadInfo.find ⟨task.boardID, task.threadID key⟩ = none → row.threadName = title)
  numbers : ∀ key m, t'.tempThreadNumber.find ⟨task.boardID, key⟩ = some m ↔
    ∃ (i : Nat) (line : SubjectLine), (text.subjectLines env)[i]? = some (some line) ∧
      line.datString = key ∧ m.toNat = i + 1
  others : ∀ boardID, boardID ≠ task.boardID →
    (∀ threadID, t'.threadInfo.find ⟨boardID, threadID⟩ = t.threadInfo.find ⟨boardID, threadID⟩) ∧
    ∀ key, t'.tempThreadNumber.find ⟨boardID, key⟩ = t.tempThreadNumber.find ⟨boardID, key⟩
  kept : ∀ k row, t.threadInfo.find k = some row → row.numberOfRead.isSome →
    (t'.threadInfo.find k).isSome

/-- No two lines have the key of one thread. A line of the two forms for a new thread is
of the second one and has a title without entity references; where a line with another
spelling of the key comes before it, that one has the title. The number which the lines
and the log files of the thread leave is that of the line. -/
structure Importable (env : SubjectServices) (text : SubjectText) (task : UpdateTask) (t : Tables) :
    Prop where
  distinct : ∀ (i j : Nat) (a b : SubjectLine), (text.subjectLines env)[i]? = some (some a) →
    (text.subjectLines env)[j]? = some (some b) → a.datString = b.datString → i = j
  titles : ∀ line ∈ text.lines, ∀ key title number, ListsThread line key title number →
    t.threadInfo.find ⟨task.boardID, task.threadID key⟩ = none →
    ∀ first ∈ (task.naming ⟨task.boardID, task.threadID key⟩ (text.subjectLines env)).head?,
      if first.datString = key then
        line = commaForm key title number ∧ replaceEntityReferenceWithString env title = title
      else first.title = title
  counts : ∀ line ∈ text.lines, ∀ key title number, ListsThread line key title number →
    let k : ThreadKey := ⟨task.boardID, task.threadID key⟩
    (loggedNumber (task.logging k) (listedNumber (task.naming k (text.subjectLines env))
      (t.threadInfo.find k))).map UInt32.toNat = some (decimalValue number)
  others : ∀ k : ThreadKey, k.boardID ≠ task.boardID →
    loggedRows (task.logging k) (t.favorites.find k).isSome (t.threadInfo.find k) =
      t.threadInfo.find k

/-- A task that completes imports the list, any other leaves the tables as they were. -/
def UpdateTask.Imports (env : SubjectServices) (task : UpdateTask) (text : SubjectText)
    (db : SQLiteDB Tables) : Prop :=
  (task.Completes (text.subjectLines env) db →
    (after (task.run (text.subjectLines env)) db).saved = none ∧
    Listed env text task db.contents (after (task.run (text.subjectLines env)) db).contents) ∧
  (¬ task.Completes (text.subjectLines env) db →
    (after (task.run (text.subjectLines env)) db).contents = db.contents ∧
    (after (task.run (text.subjectLines env)) db).saved = db.saved)

section
variable {env : SubjectServices} {text : SubjectText} {task : UpdateTask} {t : Tables}

theorem toNat_position {i : Nat} {line : SubjectLine}
    (hi : (text.subjectLines env)[i]? = some (some line)) : (UInt32.ofNat i + 1).toNat = i + 1 := by
  have hlt : i < (text.subjectLines env).length := (List.getElem?_eq_some_iff.mp hi).1
  have hlength : (text.subjectLines env).length ≤ text.units.length + 1 := by
    rw [SubjectText.subjectLines, List.length_map]
    exact NSString.length_componentsSeparatedByNewline_le
  have htext := text.length_lt
  rw [UInt32.toNat_add, UInt32.toNat_ofNat_of_lt' (by simp [UInt32.size]; omega)]
  exact Nat.mod_eq_of_lt (by simp; omega)

theorem exists_subjectLine (env : SubjectServices) {line key title number : NSString}
    (hline : line ∈ text.lines) (h : ListsThread line key title number) :
    ∃ held, (line = spacedForm key title number ∧ held = title ++ ns " " ∨
        line = commaForm key title number ∧ held = title) ∧
      some ⟨key, replaceEntityReferenceWithString env held, textIntValue number,
        textIntValue_le number⟩ ∈ text.subjectLines env := by
  obtain ⟨held, hheld, hsubject⟩ := subjectLine_of_listsThread env hline h
  exact ⟨held, hheld, List.mem_map.mpr ⟨line, hline, hsubject⟩⟩

theorem exists_updated_of_listsThread (env : SubjectServices) (task : UpdateTask) (t : Tables)
    {line key title number : NSString} (hline : line ∈ text.lines)
    (h : ListsThread line key title number) :
    let k : ThreadKey := ⟨task.boardID, task.threadID key⟩
    ∃ first row, (task.naming k (text.subjectLines env)).head? = some first ∧
      (task.updated (text.subjectLines env) t).threadInfo.find k = some row ∧
      row.numberOfAll = loggedNumber (task.logging k)
        (listedNumber (task.naming k (text.subjectLines env)) (t.threadInfo.find k)) ∧
      (t.threadInfo.find k = none → row.threadName = first.title) := by
  dsimp only
  generalize hk : (⟨task.boardID, task.threadID key⟩ : ThreadKey) = k
  obtain ⟨held, -, hmem⟩ := exists_subjectLine env hline h
  have hnaming := List.ne_nil_of_mem (UpdateTask.mem_naming.mpr ⟨hmem, hk⟩)
  have hupdated := task.find_updated_of_named (t := t) hnaming
  obtain ⟨first, rest, hnamed⟩ := List.exists_cons_of_ne_nil hnaming
  obtain ⟨listed, hlisted, hname, hnumber⟩ : ∃ row,
      listedRows (task.naming k (text.subjectLines env)) (t.threadInfo.find k) = some row ∧
      (t.threadInfo.find k = none → row.threadName = first.title) ∧
      row.numberOfAll = listedNumber (task.naming k (text.subjectLines env))
        (t.threadInfo.find k) := by
    cases hrow : t.threadInfo.find k with
    | none =>
      obtain ⟨listed, hlisted, hname, hnumber⟩ := listedRows_none first rest
      rw [hnamed]
      exact ⟨listed, hlisted, fun _ => hname, hnumber⟩
    | some row =>
      obtain ⟨listed, hlisted, -, hnumber⟩ :=
        listedRows_some (task.naming k (text.subjectLines env)) row
      exact ⟨listed, hlisted, fun hnone => (nomatch hnone), hnumber⟩
  obtain ⟨row, hrow, hrowName, hrowNumber⟩ :=
    loggedRows_some (task.logging k) (t.favorites.find k).isSome listed
  rw [hlisted, hrow] at hupdated
  refine ⟨first, row, by rw [hnamed, List.head?_cons], hupdated, ?_, fun hnone => ?_⟩
  · rw [hrowNumber, hnumber]
  · rw [hrowName, hname hnone]

theorem title_eq_iff {line key title number : NSString} {first : SubjectLine}
    (hdistinct : ∀ (i j : Nat) (a b : SubjectLine), (text.subjectLines env)[i]? = some (some a) →
      (text.subjectLines env)[j]? = some (some b) → a.datString = b.datString → i = j)
    (hline : line ∈ text.lines) (h : ListsThread line key title number)
    (hfirst : some first ∈ text.subjectLines env) :
    first.title = title ↔
      if first.datString = key then
        line = commaForm key title number ∧ replaceEntityReferenceWithString env title = title
      else first.title = title := by
  by_cases hkey : first.datString = key
  · rw [if_pos hkey]
    obtain ⟨held, hheld, hmem⟩ := exists_subjectLine env hline h
    obtain ⟨i, hi⟩ := List.mem_iff_getElem?.mp hfirst
    obtain ⟨j, hj⟩ := List.mem_iff_getElem?.mp hmem
    obtain rfl := hdistinct i j _ _ hi hj hkey
    have hsame := Option.some.inj (Option.some.inj (hi.symm.trans hj))
    rw [hsame]
    dsimp only
    obtain ⟨hspaced, rfl⟩ | ⟨hcomma, rfl⟩ := hheld
    · have hspace := replaceEntityReferenceWithString_ne env title
      refine iff_of_false hspace fun hboth => ?_
      exact spacedForm_ne_commaForm key title number (hspaced.symm.trans hboth.1)
    · exact (and_iff_right hcomma).symm
  · rw [if_neg hkey]

/-- The tables hold what the list says if and only if the list is importable. -/
theorem listed_iff :
    Listed env text task t (task.updated (text.subjectLines env) t) ↔
      Importable env text task t := by
  constructor
  · intro h
    have hdistinct : ∀ (i j : Nat) (a b : SubjectLine), (text.subjectLines env)[i]? =
      some (some a) →
        (text.subjectLines env)[j]? = some (some b) → a.datString = b.datString → i = j := by
      intro i j a b hi hj hkey
      have ha := (h.numbers a.datString (UInt32.ofNat i + 1)).mpr ⟨i, a, hi, rfl, toNat_position hi⟩
      have hb := (h.numbers b.datString (UInt32.ofNat j + 1)).mpr ⟨j, b, hj, rfl, toNat_position hj⟩
      rw [hkey, hb, Option.some.injEq] at ha
      have hposition := congrArg UInt32.toNat ha
      rw [toNat_position hi, toNat_position hj] at hposition
      exact (Nat.succ.inj hposition).symm
    refine ⟨hdistinct, fun line hline key title number hlists hnone first hfirst => ?_,
      fun line hline key title number hlists => ?_, fun k hk => ?_⟩
    · obtain ⟨first', row, hfirst', hrow, -, hname⟩ :=
        exists_updated_of_listsThread env task t hline hlists
      obtain rfl := Option.some.inj (hfirst.symm.trans hfirst')
      obtain ⟨row', m, hrow', -, -, htitle⟩ := h.rows line hline key title number hlists
      obtain rfl := Option.some.inj (hrow.symm.trans hrow')
      have hmem := (UpdateTask.mem_naming.mp (List.mem_of_mem_head? hfirst)).1
      exact (title_eq_iff hdistinct hline hlists hmem).mp ((hname hnone).symm.trans (htitle hnone))
    · obtain ⟨first, row, -, hrow, hnumber, -⟩ :=
        exists_updated_of_listsThread env task t hline hlists
      obtain ⟨row', m, hrow', hall, hm, -⟩ := h.rows line hline key title number hlists
      obtain rfl := Option.some.inj (hrow.symm.trans hrow')
      dsimp only
      rw [← hnumber, hall, Option.map_some, hm]
    · rw [← task.find_updated_of_ne hk]
      exact (h.others k.boardID hk).1 k.threadID
  · intro h
    refine ⟨fun line hline key title number hlists => ?_, fun key m => ?_, fun boardID hb => ?_,
      fun k row hrow hread => task.isSome_find_updated hrow hread⟩
    · obtain ⟨first, row, hfirst, hrow, hnumber, hname⟩ :=
        exists_updated_of_listsThread env task t hline hlists
      have hcount := h.counts line hline key title number hlists
      dsimp only at hcount
      rw [← hnumber] at hcount
      obtain ⟨m, hall, hm⟩ := Option.map_eq_some_iff.mp hcount
      refine ⟨row, m, hrow, hall, hm, fun hnone => (hname hnone).trans ?_⟩
      have hmem := (UpdateTask.mem_naming.mp (List.mem_of_mem_head? hfirst)).1
      exact (title_eq_iff h.distinct hline hlists hmem).mpr
        (h.titles line hline key title number hlists hnone first hfirst)
    · rw [task.tempThreadNumber_updated, if_pos rfl]
      constructor
      · intro hm
        obtain ⟨i, line, hi, hkey, rfl⟩ := positionOf_eq_some hm
        rw [Nat.zero_add, toNat_position hi]
        exact ⟨i, line, hi, hkey, rfl⟩
      · rintro ⟨i, line, hi, rfl, hm⟩
        obtain ⟨m', hm'⟩ := Option.isSome_iff_exists.mp ((positionOf_isSome_iff line.datString 0
          (text.subjectLines env)).mpr ⟨line, List.mem_of_getElem? hi, rfl⟩)
        obtain ⟨j, line', hj, hkey, hposition⟩ := positionOf_eq_some hm'
        obtain rfl := h.distinct j i line' line hj hi hkey
        rw [hm', Option.some.injEq, ← UInt32.toNat_inj, hm, hposition, Nat.zero_add,
          toNat_position hi]
    · refine ⟨fun threadID => ?_, fun key => by rw [task.tempThreadNumber_updated, if_neg hb]⟩
      rw [task.find_updated_of_ne hb, h.others _ hb]

end

-- Two lists

theorem linesComplete_working (task : UpdateTask) (n : Nat) (lines : List (Option SubjectLine))
    (start t : Tables) (e : Code) :
    task.LinesComplete n lines (working start t e fun _ => false) := by
  induction lines generalizing n t e with
  | nil => exact trivial
  | cons line lines ih =>
    cases line with
    | none => exact ⟨rfl, ih (n + 1) t e⟩
    | some line =>
      obtain ⟨e', hline⟩ : ∃ e', updateDB task.threadID task.boardID line (UInt32.ofNat n + 1)
          (working start t e fun _ => false) = .ok true (working start
            (t.listLine task.threadID task.boardID (UInt32.ofNat n + 1) line) e' fun _ => false) :=
        updateDB_working task.threadID task.boardID line (UInt32.ofNat n + 1)
      refine ⟨rfl, fun _ _ => rfl, ?_⟩
      rw [show after isInterrupted (working start t e fun _ => false) =
        working start t e fun _ => false from rfl, after_of_eq hline]
      exact ih (n + 1) _ e'

theorem completes_idle (task : UpdateTask) (lines : List (Option SubjectLine)) (t : Tables) :
    task.Completes lines (idle t .ok fun _ => false) := by
  have hcleared : task.cleared (idle t .ok fun _ => false) =
      working t (t.clearNumbers task.boardID) .ok fun _ => false := rfl
  obtain ⟨b, t', e', i', hlines, -⟩ : ∃ b t' e' i',
      registerLines task.threadID task.boardID 0 lines
        (working t (t.clearNumbers task.boardID) .ok fun _ => false) = .ok b (working t t' e' i') ∧
      (b = true → t' = task.listed lines t) :=
    registerLines_working task.threadID task.boardID 0 lines
  have hcommitted : task.committed lines (idle t .ok fun _ => false) = idle t' .ok i' := by
    rw [UpdateTask.committed, hcleared, after_of_eq hlines, after_of_eq commitTransaction_working]
  refine ⟨⟨rfl, rfl, rfl⟩, fun _ _ => rfl, rfl, rfl, ?_, rfl, fun _ => ?_, fun _ _ =>
    ⟨rfl, ?_, rfl⟩⟩
  · rw [hcleared]
    exact linesComplete_working task 0 lines t _ .ok
  · rw [hcommitted]
    exact fun _ _ => rfl
  · rw [hcommitted]
    rfl

def asciiServices : SubjectServices where
  isDigit := isAsciiDigit
  isSpace c := c == uc ' '
  stringForEntityReference entity := if entity = ns "amp" then some (ns "&") else none
  isDigit_ascii _ h := h
  isDigit_stop := by decide
  isDigit_bracket := by decide

def asciiTask : UpdateTask := { boardID := 1, threadID := decimalValue }

/-- Two threads, and between them a line the pattern does not match. -/
def commaText : SubjectText := ⟨ns "1.dat,a(5)\nx\n02.dat,b(7)", by decide⟩

def spacedText : SubjectText := ⟨ns "1.dat<>a (5)", by decide⟩

theorem lines_commaText : commaText.lines =
    [commaForm (ns "1") (ns "a") (ns "5"), ns "x", commaForm (ns "02") (ns "b") (ns "7")] := by
  decide

theorem subjectLines_commaText : commaText.subjectLines asciiServices =
    [some { datString := ns "1", title := ns "a", count := 5 }, none,
      some { datString := ns "02", title := ns "b", count := 7 }] := by
  have hline {key title number : NSString} (hkey : IsNumber key) (hnumber : IsNumber number)
      (htitle : uc '\n' ∉ title) (hamp : uc '&' ∉ title) :
      subjectLine asciiServices (commaForm key title number) =
        some ⟨key, title, textIntValue number, textIntValue_le number⟩ := by
    rw [commaForm, subjectLine_form asciiServices hkey (.inr rfl) htitle hnumber,
      replaceEntityReferenceWithString_of_not_mem asciiServices hamp]
  rw [SubjectText.subjectLines, lines_commaText, List.map_cons, List.map_cons, List.map_cons,
    List.map_nil, hline (by decide) (by decide) (by decide) (by decide),
    hline (by decide) (by decide) (by decide) (by decide)]
  rfl

theorem listsThread_commaText {line key title number : NSString} (hline : line ∈ commaText.lines)
    (h : ListsThread line key title number) :
    line = commaForm key title number ∧
      (key = ns "1" ∧ title = ns "a" ∧ number = ns "5" ∨
        key = ns "02" ∧ title = ns "b" ∧ number = ns "7") := by
  rw [lines_commaText, List.mem_cons, List.mem_cons, List.mem_singleton] at hline
  obtain rfl | rfl | rfl := hline
  · obtain ⟨rfl, rfl, rfl⟩ := h.eq_of_commaForm asciiServices (by decide) (by decide) (by decide)
    exact ⟨rfl, .inl ⟨rfl, rfl, rfl⟩⟩
  · obtain ⟨⟨hne, hdigits⟩, -, hform⟩ := h
    obtain ⟨c, rest, rfl⟩ := List.exists_cons_of_ne_nil hne
    have hhead : uc 'x' = c := by obtain hform | hform := hform <;> exact (List.cons.inj hform).1
    exact absurd (hdigits c List.mem_cons_self) (by rw [← hhead]; decide)
  · obtain ⟨rfl, rfl, rfl⟩ := h.eq_of_commaForm asciiServices (by decide) (by decide) (by decide)
    exact ⟨rfl, .inr ⟨rfl, rfl, rfl⟩⟩

end BathyScaphe.Database
