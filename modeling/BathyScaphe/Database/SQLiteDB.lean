import BathyScaphe.Lib.Triple

/-!
# A database connection

`SQLiteDB` sends statements to SQLite and keeps `_transaction`, its own note of
being inside a transaction. What SQLite answers to the coming statements is part
of the state, as streams of result codes: a statement whose answer is not `ok`
has no effect, but a special error may make SQLite roll the transaction back with
it, of which the flag learns nothing. A failed `BEGIN` opens no transaction; a
failed `COMMIT` leaves it open, or rolls it back where the error is a special one;
`ROLLBACK` returns to the contents at `BEGIN`. The contents are a parameter.
-/

namespace BathyScaphe.Database

inductive Code where
  | ok
  | busy
  | constraint
  | error
  | full
  | ioerr
  | nomem
  | interrupt
  deriving DecidableEq, Repr

/-- The errors for which `sqlite3VdbeHalt` may roll the whole transaction back. -/
def Code.isSpecialError : Code → Bool
  | .nomem | .ioerr | .interrupt | .full => true
  | _ => false

/-- What ends a task from the inside: an interruption check that raises, or a
failed assertion. -/
inductive Raised where
  | interrupted
  | assertion
  deriving DecidableEq, Repr

structure SQLiteDB (τ : Type) where
  contents : τ
  /-- What `ROLLBACK` returns to, while SQLite is inside a transaction. -/
  saved : Option τ
  /-- The instance variable `_transaction`. -/
  transaction : Bool
  errcode : Code
  /-- The answers to the coming `BEGIN`s, `COMMIT`s and other statements. -/
  begins : Nat → Code
  commits : Nat → Code
  answers : Nat → Code
  /-- Whether a special error in `answers` takes the transaction with it. It does not
  where the statement has a journal of its own or could not be prepared. -/
  undoes : Nat → Bool
  /-- What the coming readings of the interruption flag of the running task find. -/
  interruptions : Nat → Bool

abbrev Db (τ α : Type) : Type := EStateM Raised (SQLiteDB τ) α

namespace SQLiteDB

variable {τ α : Type}

def inTransaction (db : SQLiteDB τ) : Bool := db.saved.isSome

def durable (db : SQLiteDB τ) : τ := db.saved.getD db.contents

/-- The state after SQLite has taken a statement and answered with `code`. -/
def answered (db : SQLiteDB τ) (code : Code) : SQLiteDB τ :=
  { db with
    errcode := code, answers := fun n => db.answers (n + 1), undoes := fun n => db.undoes (n + 1) }

def undone (db : SQLiteDB τ) : SQLiteDB τ := { db with contents := db.durable, saved := none }

/-- The state after a statement that SQLite has answered with an error. -/
def refused (db : SQLiteDB τ) : SQLiteDB τ :=
  if (db.answers 0).isSpecialError && db.undoes 0 then (db.answered (db.answers 0)).undone
  else db.answered (db.answers 0)

/-- `performQuery:` of a statement that changes rows; `stmt` is `none` where a
constraint refuses it. -/
def performQuery (stmt : τ → Option τ) : Db τ Unit := fun db =>
  if db.answers 0 = .ok then
    match stmt db.contents with
    | some contents => .ok () { db.answered .ok with contents := contents }
    | none => .ok () (db.answered .constraint)
  else .ok () db.refused

/-- `performQuery:` of a `SELECT`, `none` for a `nil` cursor. -/
def cursorForSQL (query : τ → α) : Db τ (Option α) := fun db =>
  if db.answers 0 = .ok then .ok (some (query db.contents)) (db.answered .ok)
  else .ok none db.refused

def lastErrorID : Db τ Code := fun db => .ok db.errcode db

def reservedQuery : Db τ Bool := fun db =>
  .ok (db.answers 0 = .ok) (db.answered (db.answers 0))

def performBegin : Db τ Unit := fun db =>
  let db' := { db with begins := fun n => db.begins (n + 1) }
  if db.begins 0 = .ok then
    match db.saved with
    | none => .ok () { db' with errcode := .ok, saved := some db.contents }
    | some _ => .ok () { db' with errcode := .error }
  else .ok () { db' with errcode := db.begins 0 }

def performCommit : Db τ Unit := fun db =>
  let db' := { db with commits := fun n => db.commits (n + 1) }
  if db.commits 0 = .ok then
    match db.saved with
    | some _ => .ok () { db' with errcode := .ok, saved := none }
    | none => .ok () { db' with errcode := .error }
  else if (db.commits 0).isSpecialError then .ok () { db'.undone with errcode := db.commits 0 }
  else .ok () { db' with errcode := db.commits 0 }

def performRollback : Db τ Unit := fun db =>
  match db.saved with
  | some contents => .ok () { db with errcode := .ok, contents := contents, saved := none }
  | none => .ok () { db with errcode := .error }

def setTransaction (flag : Bool) : Db τ Unit := fun db => .ok () { db with transaction := flag }

def isTransaction : Db τ Bool := fun db => .ok db.transaction db

def beginTransaction : Db τ Bool := do
  if ← isTransaction then return false
  else
    setTransaction true
    performBegin
    return (← lastErrorID) = .ok

def commitTransaction : Db τ Bool := do
  if !(← isTransaction) then return false
  else
    setTransaction false
    performCommit
    return (← lastErrorID) = .ok

def rollbackTransaction : Db τ Bool := do
  if !(← isTransaction) then return false
  else
    setTransaction false
    performRollback
    return (← lastErrorID) = .ok

def performAll : List (τ → Option τ) → Db τ Bool
  | [] => return true
  | stmt :: stmts => do
    performQuery stmt
    if (← lastErrorID) ≠ .ok then return false
    else performAll stmts

/-- The shape of the operations that change the schema: a transaction around `body`,
rolled back where `body` fails. `done` is what the operation answers after `COMMIT`,
whose own answer is not looked at. -/
def performInTransaction (body : Db τ Bool) (done : Bool) : Db τ Bool := do
  if ← beginTransaction then
    if ← body then
      let _ ← commitTransaction
      return done
    else
      let _ ← rollbackTransaction
      return false
  else return false

def isInterrupted : Db τ Bool := fun db =>
  .ok (db.interruptions 0) { db with interruptions := fun n => db.interruptions (n + 1) }

def checkIsInterrupted : Db τ Unit := do
  if ← isInterrupted then throw .interrupted
  else return ()

/-- The connection after an operation, whether it has ended or raised. -/
def after (x : Db τ α) (db : SQLiteDB τ) : SQLiteDB τ :=
  match x db with
  | .ok _ db' => db'
  | .error _ db' => db'

theorem triple_after {x : Db τ α} {pre post : SQLiteDB τ → Prop}
    (h : Triple pre x (fun _ => post) post) (hdb : pre db) : post (after x db) := by
  have hx := h db hdb
  unfold after
  cases hxdb : x db <;> rw [hxdb] at hx <;> exact hx

-- A connection on which every statement succeeds

def idle (contents : τ) (code : Code) (interruptions : Nat → Bool) : SQLiteDB τ :=
  ⟨contents, none, false, code, fun _ => .ok, fun _ => .ok, fun _ => .ok, fun _ => false,
    interruptions⟩

def working (start contents : τ) (code : Code) (interruptions : Nat → Bool) : SQLiteDB τ :=
  ⟨contents, some start, true, code, fun _ => .ok, fun _ => .ok, fun _ => .ok, fun _ => false,
    interruptions⟩

/-- The code SQLite leaves after a statement that a constraint may refuse. -/
def codeOf : Option τ → Code
  | some _ => .ok
  | none => .constraint

variable {start c : τ} {e : Code} {i : Nat → Bool}

@[simp] theorem bind_apply {β : Type} (x : Db τ α) (f : α → Db τ β) (db : SQLiteDB τ) :
    (x >>= f) db = match x db with
      | .ok a db' => f a db'
      | .error r db' => .error r db' := by
  show EStateM.bind x f db = _
  unfold EStateM.bind
  cases x db <;> rfl

@[simp] theorem pure_apply (a : α) (db : SQLiteDB τ) : (pure a : Db τ α) db = .ok a db := rfl

@[simp] theorem map_apply {β : Type} (f : α → β) (x : Db τ α) (db : SQLiteDB τ) :
    (f <$> x) db = match x db with
      | .ok a db' => .ok (f a) db'
      | .error r db' => .error r db' := by
  show EStateM.map f x db = _
  unfold EStateM.map
  cases x db <;> rfl

@[simp] theorem ite_apply (p : Prop) [Decidable p] (x y : Db τ α) (db : SQLiteDB τ) :
    (if p then x else y) db = if p then x db else y db := by
  split <;> rfl

@[simp] theorem beginTransaction_idle :
    beginTransaction (idle c e i) = .ok true (working c c .ok i) := rfl

@[simp] theorem commitTransaction_working :
    commitTransaction (working start c e i) = .ok true (idle c .ok i) := rfl

@[simp] theorem rollbackTransaction_working :
    rollbackTransaction (working start c e i) = .ok true (idle start .ok i) := rfl

@[simp] theorem performQuery_idle (stmt : τ → Option τ) : performQuery stmt (idle c e i) =
    .ok () (idle ((stmt c).getD c) (codeOf (stmt c)) i) := by
  unfold performQuery idle
  cases stmt c <;> simp [answered, codeOf]

@[simp] theorem performQuery_working (stmt : τ → Option τ) :
    performQuery stmt (working start c e i) =
    .ok () (working start ((stmt c).getD c) (codeOf (stmt c)) i) := by
  unfold performQuery working
  cases stmt c <;> simp [answered, codeOf]

@[simp] theorem cursorForSQL_idle (query : τ → α) :
    cursorForSQL query (idle c e i) = .ok (some (query c)) (idle c .ok i) := rfl

@[simp] theorem cursorForSQL_working (query : τ → α) :
    cursorForSQL query (working start c e i) = .ok (some (query c)) (working start c .ok i) := rfl

@[simp] theorem reservedQuery_working :
    reservedQuery (working start c e i) = .ok true (working start c .ok i) := rfl

@[simp] theorem lastErrorID_apply (db : SQLiteDB τ) : lastErrorID db = .ok db.errcode db := rfl

@[simp] theorem contents_idle : (idle c e i).contents = c := rfl

@[simp] theorem errcode_idle : (idle c e i).errcode = e := rfl

@[simp] theorem errcode_working : (working start c e i).errcode = e := rfl

@[simp] theorem isInterrupted_working : isInterrupted (working start c e i) =
    .ok (i 0) (working start c e fun n => i (n + 1)) := rfl

-- What a failed statement leaves

@[simp] theorem errcode_refused (db : SQLiteDB τ) : db.refused.errcode = db.answers 0 := by
  unfold refused
  split <;> rfl

@[simp] theorem transaction_refused (db : SQLiteDB τ) :
    db.refused.transaction = db.transaction := by
  unfold refused
  split <;> rfl

@[simp] theorem begins_refused (db : SQLiteDB τ) : db.refused.begins = db.begins := by
  unfold refused
  split <;> rfl

@[simp] theorem commits_refused (db : SQLiteDB τ) : db.refused.commits = db.commits := by
  unfold refused
  split <;> rfl

@[simp] theorem interruptions_refused (db : SQLiteDB τ) :
    db.refused.interruptions = db.interruptions := by
  unfold refused
  split <;> rfl

@[simp] theorem durable_undone (db : SQLiteDB τ) : db.undone.durable = db.durable := rfl

theorem refused_cases (db : SQLiteDB τ) :
    db.refused = db.answered (db.answers 0) ∨ db.refused = (db.answered (db.answers 0)).undone := by
  unfold refused
  split
  · exact .inr rfl
  · exact .inl rfl

theorem refused_of_saved (db : SQLiteDB τ) (h : db.saved = none) :
    db.refused = db.answered (db.answers 0) := by
  obtain heq | heq := refused_cases db
  · exact heq
  · rw [heq]
    simp [undone, durable, answered, h]

-- What holds of the contents whatever SQLite answers

/-- `P` holds of the contents, now and after a rollback. -/
def Stable (P : τ → Prop) (db : SQLiteDB τ) : Prop :=
  P db.contents ∧ ∀ c, db.saved = some c → P c

section
variable {P : τ → Prop}

theorem Stable.undone {db : SQLiteDB τ} (h : db.Stable P) : db.undone.Stable P := by
  refine ⟨?_, fun _ hc => nomatch hc⟩
  unfold SQLiteDB.undone durable
  cases hsaved : db.saved with
  | none => exact h.1
  | some c => exact h.2 c hsaved

theorem Stable.refused {db : SQLiteDB τ} (h : db.Stable P) : db.refused.Stable P := by
  obtain heq | heq := refused_cases db
  · rw [heq]
    exact h
  · rw [heq]
    have hanswered : (db.answered (db.answers 0)).Stable P := h
    exact hanswered.undone

theorem triple_performQuery {A : τ → Prop} {stmt : τ → Option τ}
    (h : ∀ c c', P c → A c → stmt c = some c' → P c') :
    Triple (fun db => db.Stable P ∧ A db.contents) (performQuery stmt) (fun _ => Stable P)
      (Stable P) := by
  intro db hdb
  unfold performQuery
  by_cases hok : db.answers 0 = .ok
  · rw [if_pos hok]
    cases hstmt : stmt db.contents with
    | none => exact hdb.1
    | some c => exact ⟨h _ c hdb.1.1 hdb.2 hstmt, hdb.1.2⟩
  · rw [if_neg hok]
    exact hdb.1.refused

theorem keeps_performQuery {stmt : τ → Option τ} (h : ∀ c c', P c → stmt c = some c' → P c') :
    Keeps (Stable P) (performQuery stmt) :=
  (triple_performQuery fun c c' hc (_ : True) => h c c' hc).imp
    (fun _ hs => ⟨hs, trivial⟩) (fun _ _ hs => hs) fun _ hs => hs

theorem triple_cursorForSQL (query : τ → α) : Triple (Stable P) (cursorForSQL query)
    (fun r db => db.Stable P ∧ ∀ a, r = some a → a = query db.contents) (Stable P) := by
  intro db hdb
  unfold cursorForSQL
  by_cases hok : db.answers 0 = .ok
  · rw [if_pos hok]
    exact ⟨hdb, fun a ha => (Option.some.inj ha).symm⟩
  · rw [if_neg hok]
    exact ⟨hdb.refused, fun a ha => nomatch ha⟩

theorem triple_cursorForSQL_begun (query : τ → α) :
    Triple (fun db => db.Stable P ∧ db.saved = some db.contents) (cursorForSQL query)
      (fun r db => db.Stable P ∧ ∀ a, r = some a → a = query db.contents ∧
        db.saved = some db.contents)
      (Stable P) := by
  rintro db ⟨hdb, hsaved⟩
  unfold cursorForSQL
  by_cases hok : db.answers 0 = .ok
  · rw [if_pos hok]
    exact ⟨hdb, fun a ha => ⟨(Option.some.inj ha).symm, hsaved⟩⟩
  · rw [if_neg hok]
    exact ⟨hdb.refused, fun a ha => nomatch ha⟩

theorem keeps_cursorForSQL (query : τ → α) : Keeps (Stable P) (cursorForSQL query) :=
  (triple_cursorForSQL query).imp (fun _ hs => hs) (fun _ _ hs => hs.1) fun _ hs => hs

theorem keeps_reservedQuery : Keeps (Stable P) (reservedQuery (τ := τ)) := fun _ hdb => hdb

theorem keeps_lastErrorID : Keeps (Stable P) (lastErrorID (τ := τ)) := fun _ hdb => hdb

theorem keeps_isInterrupted : Keeps (Stable P) (isInterrupted (τ := τ)) := fun _ hdb => hdb

theorem keeps_checkIsInterrupted : Keeps (Stable P) (checkIsInterrupted (τ := τ)) :=
  keeps_isInterrupted.bind fun _ => Keeps.ite (Triple.throw fun _ h => h) Keeps.pure

theorem keeps_performBegin : Keeps (Stable P) (performBegin (τ := τ)) := by
  intro db hdb
  unfold performBegin
  dsimp only
  by_cases hok : db.begins 0 = .ok
  · rw [if_pos hok]
    cases hsaved : db.saved with
    | none => exact ⟨hdb.1, fun c hc => Option.some.inj hc ▸ hdb.1⟩
    | some c => exact ⟨hdb.1, fun c' hc => hdb.2 c' (hsaved.trans hc)⟩
  · rw [if_neg hok]
    exact hdb

theorem keeps_performCommit : Keeps (Stable P) (performCommit (τ := τ)) := by
  intro db hdb
  unfold performCommit
  dsimp only
  by_cases hok : db.commits 0 = .ok
  · rw [if_pos hok]
    cases hsaved : db.saved with
    | none => exact ⟨hdb.1, fun _ hc => nomatch hc⟩
    | some c => exact ⟨hdb.1, fun _ hc => nomatch hc⟩
  · rw [if_neg hok]
    by_cases hspecial : (db.commits 0).isSpecialError = true
    · rw [if_pos hspecial]
      exact hdb.undone
    · rw [if_neg hspecial]
      exact hdb

theorem keeps_performRollback : Keeps (Stable P) (performRollback (τ := τ)) := by
  intro db hdb
  unfold performRollback
  cases hsaved : db.saved with
  | none => exact ⟨hdb.1, fun _ hc => nomatch hc⟩
  | some c => exact ⟨hdb.2 c hsaved, fun _ hc => nomatch hc⟩

theorem keeps_transaction (flag : Bool) {x : Db τ Unit} (hx : Keeps (Stable P) x) :
    Keeps (Stable P) (do
      setTransaction flag
      x
      return (← lastErrorID) = .ok : Db τ Bool) :=
  Keeps.bind (fun _ h => h) fun _ => hx.bind fun _ => keeps_lastErrorID.bind fun _ => Keeps.pure

theorem keeps_beginTransaction : Keeps (Stable P) (beginTransaction (τ := τ)) :=
  Keeps.bind (fun _ h => h) fun _ =>
    Keeps.ite Keeps.pure (keeps_transaction true keeps_performBegin)

theorem triple_beginTransaction : Triple (Stable P) (beginTransaction (τ := τ))
    (fun b db => db.Stable P ∧ (b = true → db.saved = some db.contents)) (Stable P) := by
  intro db hdb
  have hkept := keeps_beginTransaction (P := P) db hdb
  suffices h : ∃ b db', beginTransaction db = .ok b db' ∧
    (b = true → db'.saved = some db'.contents) by
    obtain ⟨b, db', hbegin, hsaved⟩ := h
    rw [hbegin] at hkept ⊢
    exact ⟨hkept, hsaved⟩
  by_cases hflag : db.transaction = true
  · exact ⟨false, db, by simp [beginTransaction, isTransaction, hflag], fun h => nomatch h⟩
  · have hbegin : beginTransaction db = (do performBegin; return (← lastErrorID) = .ok : Db τ Bool)
        { db with transaction := true } := by
      simp [beginTransaction, isTransaction, setTransaction, hflag]
    rw [hbegin]
    by_cases hok : db.begins 0 = .ok
    · cases hsaved : db.saved with
      | none => exact ⟨true, _, by simp [performBegin, hok]; rfl, fun _ => rfl⟩
      | some c => exact ⟨false, _, by simp [performBegin, hok]; rfl, fun h => nomatch h⟩
    · exact ⟨false, _, by simp [performBegin, hok]; rfl, fun h => nomatch h⟩

theorem keeps_commitTransaction : Keeps (Stable P) (commitTransaction (τ := τ)) :=
  Keeps.bind (fun _ h => h) fun _ =>
    Keeps.ite Keeps.pure (keeps_transaction false keeps_performCommit)

theorem keeps_rollbackTransaction : Keeps (Stable P) (rollbackTransaction (τ := τ)) :=
  Keeps.bind (fun _ h => h) fun _ =>
    Keeps.ite Keeps.pure (keeps_transaction false keeps_performRollback)

end

-- Statements sent in turn

structure SameTransaction (db db' : SQLiteDB τ) : Prop where
  saved : db'.saved = db.saved
  transaction : db'.transaction = db.transaction
  begins : db'.begins = db.begins
  commits : db'.commits = db.commits

theorem SameTransaction.trans {db db' db'' : SQLiteDB τ} (h : SameTransaction db db')
    (h' : SameTransaction db' db'') : SameTransaction db db'' :=
  ⟨h'.saved.trans h.saved, h'.transaction.trans h.transaction, h'.begins.trans h.begins,
    h'.commits.trans h.commits⟩

/-- The transaction is the one it was, or SQLite has rolled it back, of which the flag
learns nothing. -/
structure Leaves (db db' : SQLiteDB τ) : Prop where
  transaction : db'.transaction = db.transaction
  begins : db'.begins = db.begins
  commits : db'.commits = db.commits
  outside : db.saved = none → db'.saved = none
  inside : ∀ c, db.saved = some c → db'.saved = some c ∨ db'.saved = none ∧ db'.contents = c

theorem SameTransaction.leaves {db db' : SQLiteDB τ} (h : SameTransaction db db') : Leaves db db' :=
  ⟨h.transaction, h.begins, h.commits, h.saved.trans, fun _ hc => .inl (h.saved.trans hc)⟩

theorem SameTransaction.trans_leaves {db db' db'' : SQLiteDB τ} (h : SameTransaction db db')
    (h' : Leaves db' db'') : Leaves db db'' :=
  ⟨h'.transaction.trans h.transaction, h'.begins.trans h.begins, h'.commits.trans h.commits,
    fun hnone => h'.outside (h.saved.trans hnone), fun c hc => h'.inside c (h.saved.trans hc)⟩

theorem leaves_refused (db : SQLiteDB τ) : Leaves db db.refused := by
  refine ⟨transaction_refused db, begins_refused db, commits_refused db, fun hnone =>
    ?_, fun c hc => ?_⟩
  · rw [refused_of_saved db hnone]
    exact hnone
  · obtain heq | heq := refused_cases db
    · rw [heq]
      exact .inl hc
    · rw [heq]
      exact .inr ⟨rfl, by simp [undone, durable, answered, hc]⟩

/-- Whatever the flag says, the contents are those at `BEGIN` after a rollback. -/
theorem Leaves.rollbackTransaction {db db' : SQLiteDB τ} (h : Leaves db db')
    (hflag : db.transaction = true)
    (hsaved : db.saved = some c) : ∃ b db'', rollbackTransaction db' = .ok b db'' ∧
      db''.transaction = false ∧ db''.saved = none ∧ db''.contents = c := by
  have hflag' : db'.transaction = true := h.transaction.trans hflag
  obtain hsaved' | ⟨hsaved', hcontents⟩ := h.inside c hsaved
  · refine ⟨true, { db' with transaction := false, errcode := .ok, contents := c, saved := none },
      ?_, rfl, rfl, rfl⟩
    simp [SQLiteDB.rollbackTransaction, isTransaction, setTransaction, performRollback,
      hflag', hsaved']
  · refine ⟨false, { db' with transaction := false, errcode := .error }, ?_, rfl,
      hsaved', hcontents⟩
    simp [SQLiteDB.rollbackTransaction, isTransaction, setTransaction, performRollback,
      hflag', hsaved']

def Succeed (db : SQLiteDB τ) (n : Nat) : Prop := ∀ i, i < n → db.answers i = .ok

/-- From `db` on, `x` sends `n` statements up to the first that fails, answers
whether all of them succeeded, and has then made the contents `c`. -/
def Sends (x : Db τ Bool) (n : Nat) (db : SQLiteDB τ) (c : τ) : Prop :=
  ∃ b db', x db = .ok b db' ∧ Leaves db db' ∧ (b = true ↔ db.Succeed n) ∧
    (b = true → SameTransaction db db' ∧ db'.contents = c ∧ db'.answers = fun i =>
      db.answers (i + n))

theorem succeed_add {db db' : SQLiteDB τ} {m n : Nat}
    (h : db'.answers = fun i => db.answers (i + m)) (hm : db.Succeed m) :
    db.Succeed (m + n) ↔ db'.Succeed n := by
  unfold Succeed
  rw [h]
  constructor
  · intro hall i hi
    exact hall (i + m) (by omega)
  · intro hall i hi
    by_cases hlt : i < m
    · exact hm i hlt
    · have hrest : db.answers (i - m + m) = .ok := hall (i - m) (by omega)
      rwa [Nat.sub_add_cancel (Nat.le_of_not_lt hlt)] at hrest

/-- A statement that leaves the transaction alone and reports its own answer. -/
theorem sends_one {x : Db τ Bool} {db : SQLiteDB τ} (db' : SQLiteDB τ)
    (hok : db.answers 0 = .ok → x db = .ok true db' ∧ SameTransaction db db' ∧ db'.contents = c ∧
      db'.answers = fun i => db.answers (i + 1))
    (hfails : db.answers 0 ≠ .ok → ∃ db', x db = .ok false db' ∧ Leaves db db') :
    Sends x 1 db c := by
  have hone : db.Succeed 1 ↔ db.answers 0 = .ok := by simp [Succeed]
  by_cases h : db.answers 0 = .ok
  · obtain ⟨hx, hsame, hrest⟩ := hok h
    exact ⟨true, db', hx, hsame.leaves, by simp [hone, h], fun _ => ⟨hsame, hrest⟩⟩
  · obtain ⟨db', hx, hleaves⟩ := hfails h
    exact ⟨false, db', hx, hleaves, by simp [hone, h], fun h => (nomatch h)⟩

theorem sends_pure (db : SQLiteDB τ) : Sends (pure true) 0 db db.contents :=
  have hsame : SameTransaction db db := ⟨rfl, rfl, rfl, rfl⟩
  ⟨true, db, rfl, hsame.leaves, by simp [Succeed], fun _ => ⟨hsame, rfl, rfl⟩⟩

theorem Sends.and {x y : Db τ Bool} {m n : Nat} {db : SQLiteDB τ} {c c' : τ} (hx : Sends x m db c)
    (hy : ∀ db', db'.contents = c → Sends y n db' c') :
    Sends (do if ← x then y else return false) (m + n) db c' := by
  obtain ⟨b, db₁, hx, hleaves, hb, hthen⟩ := hx
  cases b with
  | false =>
    have hnot : ¬ db.Succeed (m + n) := fun h =>
      Bool.false_ne_true (hb.mpr fun i hi => h i (by omega))
    exact ⟨false, db₁, by simp [hx], hleaves, by simp [hnot], fun h => (nomatch h)⟩
  | true =>
    obtain ⟨hsame, hcontents, hanswers⟩ := hthen rfl
    obtain ⟨b', db₂, hy, hleaves', hb', hthen'⟩ := hy db₁ hcontents
    refine ⟨b', db₂, by simp [hx, hy], hsame.trans_leaves hleaves', ?_, fun h => ?_⟩
    · rw [hb', succeed_add hanswers (hb.mp rfl)]
    · obtain ⟨hsame', hcontents', hanswers'⟩ := hthen' h
      refine ⟨hsame.trans hsame', hcontents', hanswers'.trans ?_⟩
      funext i
      rw [hanswers]
      exact congrArg db.answers (by omega)

theorem sends_performQuery {stmt : τ → Option τ} {db : SQLiteDB τ} (h : stmt db.contents = some c) :
    Sends (do performQuery stmt; return (← lastErrorID) = .ok) 1 db c := by
  refine sends_one { db.answered .ok with contents := c } (fun hok => ?_) fun hfails => ?_
  · exact ⟨by simp [performQuery, hok, h, answered], ⟨rfl, rfl, rfl, rfl⟩, rfl, rfl⟩
  · exact ⟨db.refused, by simp [performQuery, hfails], leaves_refused db⟩

theorem performAll_cons (stmt : τ → Option τ) (stmts : List (τ → Option τ)) :
    performAll (stmt :: stmts) = (do
      if ← (do performQuery stmt; return (← lastErrorID) = .ok : Db τ Bool) then performAll stmts
      else return false) := by
  funext db
  simp only [performAll, bind_apply, pure_apply]
  cases performQuery stmt db with
  | error r db' => rfl
  | ok u db' => by_cases h : db'.errcode = .ok <;> simp [h]

theorem sends_performAll (stmts : List (τ → Option τ)) {db : SQLiteDB τ}
    (h : stmts.foldlM (fun c stmt => stmt c) db.contents = some c) :
    Sends (performAll stmts) stmts.length db c := by
  induction stmts generalizing db with
  | nil =>
    obtain rfl := Option.some.inj h
    exact sends_pure db
  | cons stmt stmts ih =>
    obtain ⟨c', hstmt, hrest⟩ := Option.bind_eq_some_iff.mp h
    rw [performAll_cons, List.length_cons, Nat.add_comm]
    exact (sends_performQuery hstmt).and fun db' hdb' => ih (hdb' ▸ hrest)

/-- A transaction that is begun, all of whose statements succeed and which is
committed. -/
def Commits (db : SQLiteDB τ) (n : Nat) : Prop :=
  db.inTransaction = false ∧ db.begins 0 = .ok ∧ db.Succeed n ∧ db.commits 0 = .ok

/-- A transaction that is begun, all of whose statements succeed and which SQLite rolls
back at its `COMMIT`. -/
def LosesCommit (db : SQLiteDB τ) (n : Nat) : Prop :=
  db.inTransaction = false ∧ db.begins 0 = .ok ∧ db.Succeed n ∧ (db.commits 0).isSpecialError = true

theorem not_commits_of_losesCommit {db : SQLiteDB τ} {n : Nat} (h : db.LosesCommit n) :
    ¬ db.Commits n := by
  intro hcommits
  have hspecial := h.2.2.2
  rw [hcommits.2.2.2] at hspecial
  cases hspecial

/-- A transaction changes the file if and only if all of it succeeds. Where it answers
`done` all the same, it is still open, or SQLite has rolled it back. -/
theorem performInTransaction_spec {body : Db τ Bool} (done : Bool) {db : SQLiteDB τ}
    (hflag : db.transaction = false) (hsaved : db.saved = none)
    (hbody : ∀ db', db'.contents = db.contents → Sends body n db' c) :
    ∃ b db', performInTransaction body done db = .ok b db' ∧
      (db.Commits n → b = done ∧ db'.transaction = false ∧ db'.saved = none ∧ db'.contents = c) ∧
      (¬ db.Commits n → db'.durable = db.contents ∧
        (b = true → done = true ∧ db'.transaction = false ∧
          (¬ db.LosesCommit n ∧ db'.saved = some db.contents ∨
            db.LosesCommit n ∧ db'.saved = none ∧ db'.contents = db.contents))) := by
  by_cases hbegin : db.begins 0 = .ok
  · let db₁ : SQLiteDB τ := { db with
      transaction := true, errcode := .ok, saved := some db.contents,
      begins := fun i => db.begins (i + 1) }
    have hbegun : beginTransaction db = .ok true db₁ := by
      simp [beginTransaction, isTransaction, setTransaction, performBegin, hflag,
        hsaved, hbegin, db₁]
    obtain ⟨b, db₂, hx, hleaves, hb, hthen⟩ := hbody db₁ rfl
    cases b with
    | false =>
      have hnot : ¬ db.Commits n := fun h => Bool.false_ne_true (hb.mpr h.2.2.1)
      obtain ⟨b', db₃, hrollback, -, hsaved₃, hcontents₃⟩ := hleaves.rollbackTransaction rfl rfl
      refine ⟨false, db₃, ?_, fun h => absurd h hnot, fun _ => ⟨?_, fun h => (nomatch h)⟩⟩
      · simp [performInTransaction, hbegun, hx, hrollback]
      · simp [durable, hsaved₃, hcontents₃]
    | true =>
      obtain ⟨hsame, hcontents, -⟩ := hthen rfl
      have hout : db.inTransaction = false := by simp [inTransaction, hsaved]
      have hsucceed : db.Succeed n := hb.mp rfl
      by_cases hcommit : db.commits 0 = .ok
      · refine ⟨done, { db₂ with
          transaction := false, errcode := .ok, saved := none,
          commits := fun i => db₂.commits (i + 1) }, ?_, fun _ =>
            ⟨rfl, rfl, rfl, hcontents⟩, fun h => ?_⟩
        · simp [performInTransaction, hbegun, hx, commitTransaction, isTransaction, setTransaction,
            performCommit, hsame.transaction, hsame.saved, hsame.commits, hcommit, db₁]
        · exact absurd ⟨hout, hbegin, hsucceed, hcommit⟩ h
      by_cases hspecial : (db.commits 0).isSpecialError = true
      · have hloses : db.LosesCommit n := ⟨hout, hbegin, hsucceed, hspecial⟩
        refine ⟨done, { db₂ with
          transaction := false, errcode := db.commits 0, contents := db.contents, saved := none,
          commits := fun i => db₂.commits (i + 1) }, ?_, fun h => absurd h.2.2.2 hcommit,
          fun _ => ⟨rfl, fun h => ⟨h, rfl, .inr ⟨hloses, rfl, rfl⟩⟩⟩⟩
        simp [performInTransaction, hbegun, hx, commitTransaction, isTransaction, setTransaction,
          performCommit, undone, durable, hsame.transaction, hsame.saved, hsame.commits, hcommit,
          hspecial, db₁]
      · have hnot : ¬ db.LosesCommit n := fun h => hspecial h.2.2.2
        refine ⟨done, { db₂ with
          transaction := false, errcode := db.commits 0, commits :=
            fun i => db₂.commits (i + 1) }, ?_, fun h => absurd h.2.2.2 hcommit,
          fun _ => ⟨?_, fun h => ⟨h, rfl, .inl ⟨hnot, hsame.saved⟩⟩⟩⟩
        · simp [performInTransaction, hbegun, hx, commitTransaction, isTransaction, setTransaction,
            performCommit, hsame.transaction, hsame.commits, hcommit, hspecial, db₁]
        · simp [durable, hsame.saved, db₁]
  · refine ⟨false, { db with
      transaction := true, errcode := db.begins 0, begins := fun i => db.begins (i + 1) }, ?_,
      fun h => absurd h.2.1 hbegin, fun _ => ⟨by simp [durable, hsaved], fun h => (nomatch h)⟩⟩
    simp [performInTransaction, beginTransaction, isTransaction, setTransaction, performBegin,
      hflag, hbegin]

theorem performInTransaction_of_saved (body : Db τ Bool) (done : Bool) {db : SQLiteDB τ}
    (hflag : db.transaction = false) (hsaved : db.saved = some c) :
    ∃ db', performInTransaction body done db = .ok false db' ∧ db'.durable = c := by
  by_cases hbegin : db.begins 0 = .ok
  · refine ⟨{ db with
      transaction := true, errcode := .error, begins := fun i => db.begins (i + 1) }, ?_, ?_⟩
    · simp [performInTransaction, beginTransaction, isTransaction, setTransaction, performBegin,
        hflag, hsaved, hbegin]
    · simp [durable, hsaved]
  · refine ⟨{ db with
      transaction := true, errcode := db.begins 0, begins := fun i => db.begins (i + 1) }, ?_, ?_⟩
    · simp [performInTransaction, beginTransaction, isTransaction, setTransaction, performBegin,
        hflag, hbegin]
    · simp [durable, hsaved]

end SQLiteDB

end BathyScaphe.Database
