import BathyScaphe.Boards.ListFile
import BathyScaphe.Database.UpdateTask
import BathyScaphe.Lib.Run

/-!
# The transaction flag

`_transaction` is changed before `BEGIN` or `COMMIT` is sent and is not changed back when the
statement fails. As long as both succeed and SQLite rolls nothing back by itself, the flag says
whether the connection is inside a transaction, whatever other errors there are and wherever a
task is interrupted. Two tasks can leave a transaction open all the same: the check of a smart
board when it is interrupted between `BEGIN` and `COMMIT`, and the loading of a board list that
raises. -/

namespace BathyScaphe.Database

open SQLiteDB

namespace SQLiteDB

variable {τ α β : Type}

/-- The flag says whether SQLite is inside a transaction. -/
def Truthful (db : SQLiteDB τ) : Prop := db.transaction = db.inTransaction

/-- No special error in the coming answers takes the transaction with it. -/
def Unforced (db : SQLiteDB τ) : Prop :=
  ∀ n, (db.answers n).isSpecialError = true → db.undoes n = false

/-- No coming `BEGIN` or `COMMIT` fails, and SQLite rolls nothing back by itself. -/
structure Unrefused (db : SQLiteDB τ) : Prop where
  begins : ∀ n, db.begins n = .ok
  commits : ∀ n, db.commits n = .ok
  unforced : db.Unforced

structure Outside (db : SQLiteDB τ) : Prop where
  unrefused : db.Unrefused
  transaction : db.transaction = false
  saved : db.saved = none

structure Inside (db : SQLiteDB τ) : Prop where
  unrefused : db.Unrefused
  transaction : db.transaction = true
  saved : ∃ c, db.saved = some c

def Sound (db : SQLiteDB τ) : Prop := db.Outside ∨ db.Inside

theorem sound_iff {db : SQLiteDB τ} : db.Sound ↔ db.Unrefused ∧ db.Truthful := by
  constructor
  · rintro (h | h)
    · exact ⟨h.unrefused, by simp [Truthful, inTransaction, h.transaction, h.saved]⟩
    · obtain ⟨c, hc⟩ := h.saved
      exact ⟨h.unrefused, by simp [Truthful, inTransaction, h.transaction, hc]⟩
  · rintro ⟨hu, ht⟩
    unfold Truthful inTransaction at ht
    cases hs : db.saved with
    | none => exact .inl ⟨hu, by simpa [hs] using ht, hs⟩
    | some c => exact .inr ⟨hu, by simpa [hs] using ht, c, hs⟩

theorem Unforced.answered {db : SQLiteDB τ} (h : db.Unforced) (code : Code) :
    (db.answered code).Unforced := fun n => h (n + 1)

theorem Unforced.refused_eq {db : SQLiteDB τ} (h : db.Unforced) :
    db.refused = db.answered (db.answers 0) := by
  unfold refused
  by_cases hspecial : (db.answers 0).isSpecialError = true
  · simp [h 0 hspecial]
  · simp [hspecial]

/-- The transaction is the one it was, and SQLite goes on as it was to. -/
structure GoesOn (db db' : SQLiteDB τ) : Prop where
  same : SameTransaction db db'
  unforced : db'.Unforced

theorem Unrefused.goesOn {db db' : SQLiteDB τ} (h : db.Unrefused) (hs : GoesOn db db') :
    db'.Unrefused :=
  ⟨fun n =>
    by rw [hs.same.begins, h.begins], fun n => by rw [hs.same.commits, h.commits], hs.unforced⟩

theorem Outside.goesOn {db db' : SQLiteDB τ} (h : db.Outside) (hs : GoesOn db db') : db'.Outside :=
  ⟨h.unrefused.goesOn hs, hs.same.transaction.trans h.transaction, hs.same.saved.trans h.saved⟩

theorem Inside.goesOn {db db' : SQLiteDB τ} (h : db.Inside) (hs : GoesOn db db') : db'.Inside := by
  obtain ⟨c, hc⟩ := h.saved
  exact ⟨h.unrefused.goesOn hs, hs.same.transaction.trans h.transaction, c, hs.same.saved.trans hc⟩

-- Computations that only send statements

def SendsOnly (x : Db τ α) : Prop :=
  ∀ db, db.Unforced → ∃ a db', x db = .ok a db' ∧ GoesOn db db'

theorem SendsOnly.pure {a : α} : SendsOnly (Pure.pure a : Db τ α) :=
  fun db h => ⟨a, db, rfl, ⟨rfl, rfl, rfl, rfl⟩, h⟩

theorem SendsOnly.bind {x : Db τ α} {f : α → Db τ β} (hx : SendsOnly x)
    (hf : ∀ a, SendsOnly (f a)) :
    SendsOnly (x >>= f) := by
  intro db h
  obtain ⟨a, db₁, hx, hgoes⟩ := hx db h
  obtain ⟨b, db₂, hf, hgoes'⟩ := hf a db₁ hgoes.unforced
  exact ⟨b, db₂, by simp [hx, hf], hgoes.same.trans hgoes'.same, hgoes'.unforced⟩

theorem SendsOnly.ite {c : Prop} [Decidable c] {x y : Db τ α} (hx : SendsOnly x)
    (hy : SendsOnly y) :
    SendsOnly (if c then x else y) := by
  by_cases hc : c
  · rwa [if_pos hc]
  · rwa [if_neg hc]

theorem sendsOnly_performQuery (stmt : τ → Option τ) : SendsOnly (performQuery stmt) := by
  intro db h
  unfold performQuery
  by_cases hok : db.answers 0 = .ok
  · rw [if_pos hok]
    cases stmt db.contents <;> exact ⟨_, _, rfl, ⟨rfl, rfl, rfl, rfl⟩, fun n => h (n + 1)⟩
  · rw [if_neg hok, h.refused_eq]
    exact ⟨_, _, rfl, ⟨rfl, rfl, rfl, rfl⟩, h.answered _⟩

theorem sendsOnly_cursorForSQL (query : τ → α) : SendsOnly (cursorForSQL query) := by
  intro db h
  unfold cursorForSQL
  by_cases hok : db.answers 0 = .ok
  · rw [if_pos hok]
    exact ⟨_, _, rfl, ⟨rfl, rfl, rfl, rfl⟩, h.answered _⟩
  · rw [if_neg hok, h.refused_eq]
    exact ⟨_, _, rfl, ⟨rfl, rfl, rfl, rfl⟩, h.answered _⟩

theorem sendsOnly_reservedQuery : SendsOnly (reservedQuery : Db τ Bool) :=
  fun _ h => ⟨_, _, rfl, ⟨rfl, rfl, rfl, rfl⟩, h.answered _⟩

theorem sendsOnly_lastErrorID : SendsOnly (lastErrorID : Db τ Code) :=
  fun _ h => ⟨_, _, rfl, ⟨rfl, rfl, rfl, rfl⟩, h⟩

theorem sendsOnly_isInterrupted : SendsOnly (isInterrupted : Db τ Bool) :=
  fun _ h => ⟨_, _, rfl, ⟨rfl, rfl, rfl, rfl⟩, h⟩

theorem sendsOnly_performAll (stmts : List (τ → Option τ)) : SendsOnly (performAll stmts) := by
  induction stmts with
  | nil => exact .pure
  | cons stmt stmts ih =>
    exact (sendsOnly_performQuery stmt).bind fun _ => sendsOnly_lastErrorID.bind fun _ =>
      .ite .pure ih

theorem SendsOnly.triple {P : SQLiteDB τ → Prop} {R : SQLiteDB τ → Prop} {x : Db τ α}
    (hx : SendsOnly x)
    (hunforced : ∀ {db}, P db → db.Unforced) (hP : ∀ {db db'}, P db → GoesOn db db' → P db') :
    Triple P x (fun _ => P) R := by
  intro db hdb
  obtain ⟨a, db', hx, hgoes⟩ := hx db (hunforced hdb)
  rw [hx]
  exact hP hdb hgoes

theorem SendsOnly.outside {R : SQLiteDB τ → Prop} {x : Db τ α} (hx : SendsOnly x) :
    Triple Outside x (fun _ => Outside) R :=
  hx.triple (fun h => h.unrefused.unforced) Outside.goesOn

theorem SendsOnly.inside {R : SQLiteDB τ → Prop} {x : Db τ α} (hx : SendsOnly x) :
    Triple Inside x (fun _ => Inside) R := hx.triple (fun h => h.unrefused.unforced) Inside.goesOn

-- Computations that end the transaction they are in

def Ends (x : Db τ α) : Prop := Triple Inside x (fun _ => Outside) fun _ => False

/-- `x` does not raise, leaves no transaction open that it did not find open, and
keeps the flag truthful from every state. -/
structure Closed (x : Db τ α) : Prop where
  outside : Triple Outside x (fun _ => Outside) fun _ => False
  inside : Triple Inside x (fun _ => Sound) fun _ => False

theorem Closed.sound {x : Db τ α} (h : Closed x) :
    Triple Sound x (fun _ => Sound) fun _ => False := by
  intro db hdb
  obtain hdb | hdb := hdb
  · exact h.outside.imp (fun _ h => h) (fun _ _ => .inl) (fun _ h => h) db hdb
  · exact h.inside db hdb

theorem SendsOnly.closed {x : Db τ α} (hx : SendsOnly x) : Closed x :=
  ⟨hx.outside, hx.inside.imp (fun _ h => h) (fun _ _ => .inr) fun _ h => h⟩

theorem Closed.bind {x : Db τ α} {f : α → Db τ β} (hx : Closed x) (hf : ∀ a, Closed (f a)) :
    Closed (x >>= f) :=
  ⟨hx.outside.bind fun a => (hf a).outside, hx.inside.bind fun a => (hf a).sound⟩

theorem Closed.ite {c : Prop} [Decidable c] {x y : Db τ α} (hx : Closed x) (hy : Closed y) :
    Closed (if c then x else y) :=
  ⟨Triple.ite (fun _ => hx.outside) fun _ => hy.outside,
    Triple.ite (fun _ => hx.inside) fun _ => hy.inside⟩

theorem triple_beginTransaction_outside {R : SQLiteDB τ → Prop} :
    Triple Outside (beginTransaction : Db τ Bool)
    (fun b db => b = true ∧ db.Inside) R := by
  intro db hdb
  have hbegin := hdb.unrefused.begins 0
  simp only [beginTransaction, isTransaction, setTransaction, performBegin, hdb.transaction,
    hdb.saved, hbegin, bind_apply, Bool.false_eq_true, if_false, if_true, pure_apply,
    lastErrorID_apply, decide_true]
  exact ⟨trivial, ⟨fun n => hdb.unrefused.begins (n + 1), hdb.unrefused.commits,
    hdb.unrefused.unforced⟩, rfl, _, rfl⟩

theorem triple_beginTransaction_inside {R : SQLiteDB τ → Prop} :
    Triple Inside (beginTransaction : Db τ Bool)
    (fun b db => b = false ∧ db.Inside) R := by
  intro db hdb
  simp only [beginTransaction, isTransaction, hdb.transaction, bind_apply, if_true, pure_apply]
  exact ⟨trivial, hdb⟩

theorem ends_commitTransaction : Ends (commitTransaction : Db τ Bool) := by
  intro db hdb
  obtain ⟨c, hc⟩ := hdb.saved
  have hcommit := hdb.unrefused.commits 0
  simp only [commitTransaction, isTransaction, setTransaction, performCommit, hdb.transaction, hc,
    hcommit, bind_apply, Bool.not_true, Bool.false_eq_true, if_false, if_true, pure_apply,
    lastErrorID_apply]
  exact ⟨⟨hdb.unrefused.begins, fun n => hdb.unrefused.commits (n + 1),
    hdb.unrefused.unforced⟩, rfl, rfl⟩

theorem ends_rollbackTransaction : Ends (rollbackTransaction : Db τ Bool) := by
  intro db hdb
  obtain ⟨c, hc⟩ := hdb.saved
  simp only [rollbackTransaction, isTransaction, setTransaction, performRollback, hdb.transaction,
    hc, bind_apply, Bool.not_true, Bool.false_eq_true, if_false, pure_apply, lastErrorID_apply]
  exact ⟨⟨hdb.unrefused.begins, hdb.unrefused.commits, hdb.unrefused.unforced⟩, rfl, rfl⟩

theorem triple_commitTransaction_outside {R : SQLiteDB τ → Prop} :
    Triple Outside (commitTransaction : Db τ Bool) (fun _ => Outside) R := by
  intro db hdb
  simp only [commitTransaction, isTransaction, hdb.transaction, bind_apply, Bool.not_false, if_true,
    pure_apply]
  exact hdb

theorem triple_rollbackTransaction_outside {R : SQLiteDB τ → Prop} :
    Triple Outside (rollbackTransaction : Db τ Bool) (fun _ => Outside) R := by
  intro db hdb
  simp only [rollbackTransaction, isTransaction, hdb.transaction, bind_apply, Bool.not_false,
    if_true, pure_apply]
  exact hdb

theorem Ends.bind {x : Db τ α} {f : α → Db τ β} (hx : Ends x) (hf : ∀ a, Closed (f a)) :
    Ends (x >>= f) := Triple.bind hx fun a => (hf a).outside

theorem SendsOnly.ends {x : Db τ α} {f : α → Db τ β} (hx : SendsOnly x) (hf : ∀ a, Ends (f a)) :
    Ends (x >>= f) := Triple.bind hx.inside hf

theorem Ends.ite {c : Prop} [Decidable c] {x y : Db τ α} (hx : Ends x) (hy : Ends y) :
    Ends (if c then x else y) := Triple.ite (fun _ => hx) fun _ => hy

/-- What begins a transaction and ends it, unless there was one already. -/
theorem closed_beginTransaction {rest : Bool → Db τ α} (hbegun : Ends (rest true))
    (hrefused : Triple Inside (rest false) (fun _ => Sound) fun _ => False) :
    Closed (beginTransaction >>= rest) := by
  constructor
  · refine triple_beginTransaction_outside.bind fun b => ?_
    rintro db ⟨rfl, hdb⟩
    exact hbegun db hdb
  · refine triple_beginTransaction_inside.bind fun b => ?_
    rintro db ⟨rfl, hdb⟩
    exact hrefused db hdb

/-- The usual form, where nothing is done inside another transaction. -/
theorem closed_ifBegun {body rest : Db τ α} (hbody : Ends body) (hrest : Closed rest) :
    Closed (do if ← beginTransaction then body else rest) :=
  closed_beginTransaction hbody hrest.inside

theorem triple_commitTransaction_sound {R : SQLiteDB τ → Prop} :
    Triple Sound (commitTransaction : Db τ Bool) (fun _ => Outside) R := by
  rintro db (hdb | hdb)
  · exact triple_commitTransaction_outside db hdb
  · exact ends_commitTransaction.imp (fun _ h => h) (fun _ _ h => h) (fun _ => False.elim) db hdb

theorem Ends.closed {x : Db τ α} (hx : Ends x)
    (houtside : Triple Outside x (fun _ => Outside) fun _ => False) : Closed x :=
  ⟨houtside, hx.imp (fun _ h => h) (fun _ _ => .inl) fun _ h => h⟩

theorem closed_pure {a : α} : Closed (pure a : Db τ α) := SendsOnly.pure.closed

end SQLiteDB

-- Threads

theorem ends_abort : Ends abort := ends_rollbackTransaction.bind fun _ => closed_pure

theorem ends_check {stmt : Tables → Option Tables} {rest : Db Tables Bool} (hrest : Ends rest) :
    Ends (do
      performQuery stmt
      if (← lastErrorID) ≠ .ok then abort else rest) :=
  (sendsOnly_performQuery stmt).ends fun _ => sendsOnly_lastErrorID.ends fun _ =>
    .ite ends_abort hrest

theorem closed_changeFavorite (k : ThreadKey) (flag : Bool) (stmt : Tables → Option Tables) :
    Closed (changeFavorite k flag stmt) := by
  refine closed_ifBegun (ends_check (ends_check ?_)) closed_pure
  exact ends_commitTransaction.bind fun _ => closed_pure

theorem sendsOnly_insertThread (file : LogFile) : SendsOnly (insertThread file) := by
  have hfavorite : SendsOnly (isRegisteredWithFavoritesTable file.key) :=
    (sendsOnly_cursorForSQL _).bind fun r => by cases r <;> exact .pure
  have hregistered : SendsOnly (isThreadIdentifierRegistered file.key) :=
    (sendsOnly_cursorForSQL _).bind fun r => by obtain _ | _ | row := r <;> exact .pure
  exact hfavorite.bind fun _ => hregistered.bind fun _ => (sendsOnly_performQuery _).bind fun _ =>
    sendsOnly_lastErrorID.bind fun _ => .pure

theorem sendsOnly_deleteAllRecords (boardID : UInt32) : SendsOnly (deleteAllRecords boardID) :=
  (sendsOnly_performQuery _).bind fun _ => sendsOnly_lastErrorID.bind fun _ => .pure

theorem ends_cleanUpLoop (files : List ThreadKey) : Ends (cleanUpLoop files) := by
  induction files with
  | nil => exact ends_commitTransaction.bind fun _ => closed_pure
  | cons k files ih => exact ends_check (ends_check ih)

theorem closed_cleanUp (files : List ThreadKey) : Closed (cleanUp files) :=
  closed_ifBegun (ends_cleanUpLoop files) closed_pure

-- The subject list update

theorem sendsOnly_makeQuerys : SendsOnly makeQuerys :=
  sendsOnly_reservedQuery.bind fun _ => .ite (sendsOnly_reservedQuery.bind fun _ => .ite
    (sendsOnly_reservedQuery.bind fun _ => .ite sendsOnly_reservedQuery .pure) .pure) .pure

theorem sendsOnly_updateDB (threadID : NSString → Nat) (boardID : UInt32) (line : SubjectLine)
    (index : UInt32) : SendsOnly (updateDB threadID boardID line index) := by
  have hneeded (stmt : Option (Tables → Option Tables)) : SendsOnly (performIfNeeded stmt) := by
    cases stmt with
    | none => exact .pure
    | some stmt => exact sendsOnly_performQuery stmt
  refine (sendsOnly_cursorForSQL _).bind fun r => ?_
  cases r with
  | none => exact .pure
  | some row => exact (hneeded _).bind fun _ => (sendsOnly_performQuery _).bind fun _ => .pure

theorem sendsOnly_registerLines (threadID : NSString → Nat) (boardID : UInt32) (n : Nat)
    (lines : List (Option SubjectLine)) : SendsOnly (registerLines threadID boardID n lines) := by
  induction lines generalizing n with
  | nil => exact .pure
  | cons line lines ih =>
    refine sendsOnly_isInterrupted.bind fun _ => .ite .pure ?_
    cases line with
    | none => exact ih (n + 1)
    | some line =>
      exact (sendsOnly_updateDB threadID boardID line _).bind fun _ => .ite (ih (n + 1)) .pure

theorem closed_deleteUnusedInfomations (threadID : NSString → Nat) (isDelete : Bool)
    (boardID : UInt32) :
    Closed (deleteUnusedInfomations threadID isDelete boardID) := by
  refine .ite closed_pure (closed_ifBegun ?_ closed_pure)
  exact (sendsOnly_performQuery _).ends fun _ => ends_commitTransaction.bind fun _ => closed_pure

theorem sendsOnly_insertOrUpdateFromLogFiles (files : List LogFile) :
    SendsOnly (insertOrUpdateFromLogFiles files) := by
  induction files with
  | nil => exact .pure
  | cons file files ih => exact (sendsOnly_insertThread file).bind fun _ => ih

theorem closed_finish (task : UpdateTask) : Closed task.finish :=
  .ite (sendsOnly_insertOrUpdateFromLogFiles task.logFiles).closed
    (closed_deleteUnusedInfomations task.threadID task.isDelete task.boardID)

theorem closed_run (task : UpdateTask) (lines : List (Option SubjectLine)) :
    Closed (task.run lines) := by
  have hfinish : Closed (do task.finish; return true) :=
    (closed_finish task).bind fun _ => closed_pure
  refine closed_ifBegun (sendsOnly_makeQuerys.ends fun _ => .ite ?_ ends_abort) hfinish
  refine sendsOnly_isInterrupted.ends fun _ => .ite ends_abort ?_
  refine (sendsOnly_performQuery _).ends fun _ => ?_
  refine (sendsOnly_registerLines task.threadID task.boardID 0 lines).ends fun _ =>
    .ite ?_ ends_abort
  exact ends_commitTransaction.bind fun _ => hfinish

-- The check of a smart board

theorem ends_rollback_none {α : Type} : Ends (do
    let _ ← rollbackTransaction
    return none : Db Tables (Option α)) :=
  ends_rollbackTransaction.bind fun _ => closed_pure

theorem closed_threadInfomations (query : ThreadKey → ThreadInfo → Bool) :
    Closed (threadInfomations query) := by
  refine closed_ifBegun ((sendsOnly_cursorForSQL _).ends fun r => ?_) closed_pure
  cases r with
  | none => exact ends_rollback_none
  | some rows => exact ends_commitTransaction.bind fun _ => closed_pure

theorem ends_checkHOGELoop (query : ThreadKey → ThreadInfo → Bool) (boards : List UInt32) :
    ∀ result, Ends (checkHOGELoop query result boards) := by
  induction boards with
  | nil => exact fun _ => ends_commitTransaction.bind fun _ => closed_pure
  | cons b boards ih =>
    refine fun result => (sendsOnly_cursorForSQL _).ends fun r => ?_
    cases r with
    | none => exact ends_rollback_none
    | some count => exact ih _

theorem closed_checkHOGE (query : ThreadKey → ThreadInfo → Bool) : Closed (checkHOGE query) := by
  refine closed_ifBegun ((sendsOnly_cursorForSQL _).ends fun r => ?_) closed_pure
  cases r with
  | none => exact ends_rollback_none
  | some boards =>
    exact sendsOnly_reservedQuery.ends fun _ =>
      .ite (ends_checkHOGELoop query boards []) ends_rollback_none

theorem closed_resetNewStatus (query : ThreadKey → ThreadInfo → Bool) :
    Closed (resetNewStatus query) := by
  have hcommit : Ends (do let _ ← commitTransaction : Db Tables Unit) :=
    ends_commitTransaction.bind fun _ => closed_pure
  have hloop (keys : List ThreadKey) : SendsOnly (resetStatusLoop keys) := by
    induction keys with
    | nil => exact .pure
    | cons k keys ih => exact (sendsOnly_performQuery _).bind fun _ => ih
  refine closed_ifBegun ((sendsOnly_cursorForSQL _).ends fun r => .ite hcommit ?_) closed_pure
  exact sendsOnly_reservedQuery.ends fun _ => .ite ((hloop _).ends fun _ => hcommit) hcommit

/-- The task is not interrupted in the coming `n` checks. -/
def Uninterrupted (n : Nat) (db : SQLiteDB Tables) : Prop := ∀ m, m < n → db.interruptions m = false

theorem interruptions_performQuery (stmt : Tables → Option Tables) (db : SQLiteDB Tables) :
    (after (performQuery stmt) db).interruptions = db.interruptions := by
  unfold after performQuery
  by_cases hok : db.answers 0 = .ok
  · rw [if_pos hok]
    cases stmt db.contents <;> rfl
  · rw [if_neg hok]
    exact interruptions_refused db

theorem triple_headModifiedLoop_sound (threads : List ThreadKey) :
    Triple Inside (headModifiedLoop threads) (fun _ => Sound) Sound := by
  induction threads with
  | nil =>
    exact (ends_commitTransaction.bind fun _ => closed_pure).imp (fun _ h => h) (fun _ _ => .inl)
      fun _ => False.elim
  | cons k threads ih =>
    have hcheck : Triple Inside (checkIsInterrupted : Db Tables Unit) (fun _ => Inside) Sound :=
      sendsOnly_isInterrupted.inside.bind fun _ =>
        Triple.ite (fun _ => Triple.throw fun _ => .inr) fun _ => Triple.pure fun _ h => h
    exact hcheck.bind fun _ => (sendsOnly_performQuery _).inside.bind fun _ => ih

theorem triple_headModifiedLoop (threads : List ThreadKey) :
    Triple (fun db => db.Inside ∧ Uninterrupted threads.length db) (headModifiedLoop threads)
      (fun _ => Outside) fun _ => False := by
  induction threads with
  | nil =>
    exact (ends_commitTransaction.bind fun _ => closed_pure).imp (fun _ h => h.1) (fun _ _ h => h)
      fun _ h => h
  | cons k threads ih =>
    have hcheck : Triple (fun db => db.Inside ∧ Uninterrupted (threads.length + 1) db)
        (checkIsInterrupted : Db Tables Unit)
        (fun _ db => db.Inside ∧ Uninterrupted threads.length db) fun _ => False := by
      rintro db ⟨hdb, hi⟩
      have h0 : db.interruptions 0 = false := hi 0 (by omega)
      simp only [checkIsInterrupted, isInterrupted, bind_apply, h0, Bool.false_eq_true, if_false,
        pure_apply]
      exact ⟨hdb.goesOn ⟨⟨rfl, rfl, rfl, rfl⟩, hdb.unrefused.unforced⟩, fun m hm =>
        hi (m + 1) (by omega)⟩
    have hquery (stmt : Tables → Option Tables) :
        Triple (fun db => db.Inside ∧ Uninterrupted threads.length db) (performQuery stmt)
          (fun _ db => db.Inside ∧ Uninterrupted threads.length db) fun _ => False := by
      rintro db ⟨hdb, hi⟩
      obtain ⟨a, db', hrun, hgoes⟩ := sendsOnly_performQuery stmt db hdb.unrefused.unforced
      have hkept := interruptions_performQuery stmt db
      simp only [after, hrun] at hkept ⊢
      exact ⟨hdb.goesOn hgoes, fun m hm => hkept ▸ hi m hm⟩
    exact hcheck.bind fun _ => (hquery _).bind fun _ => ih

theorem keeps_updateHeadModified_sound (threads : List ThreadKey) :
    Keeps Sound (updateHeadModified threads) := by
  refine Keeps.ite Keeps.pure ?_
  rintro db (hdb | hdb)
  · refine triple_beginTransaction_outside.bind (fun b => ?_) db hdb
    rintro db ⟨rfl, hdb⟩
    exact triple_headModifiedLoop_sound threads db hdb
  · refine triple_beginTransaction_inside.bind (fun b => ?_) db hdb
    rintro db ⟨rfl, hdb⟩
    exact .inr hdb

theorem triple_updateHeadModified (threads : List ThreadKey) :
    Triple (fun db => db.Outside ∧ Uninterrupted threads.length db) (updateHeadModified threads)
      (fun _ => Outside) fun _ => False := by
  refine Triple.ite (fun _ => Triple.pure fun _ h => h.1) fun _ => ?_
  have hbegin : Triple (fun db : SQLiteDB Tables => db.Outside ∧ Uninterrupted threads.length db)
      beginTransaction
      (fun b db => b = true ∧ db.Inside ∧ Uninterrupted threads.length db) fun _ => False := by
    rintro db ⟨hdb, hi⟩
    have hok := hdb.unrefused.begins 0
    simp only [beginTransaction, isTransaction, setTransaction, performBegin, hdb.transaction,
      hdb.saved, hok, bind_apply, Bool.false_eq_true, if_false, if_true, pure_apply,
      lastErrorID_apply, decide_true]
    exact ⟨trivial, ⟨⟨fun n => hdb.unrefused.begins (n + 1), hdb.unrefused.commits,
      hdb.unrefused.unforced⟩, rfl, _, rfl⟩, hi⟩
  refine hbegin.bind fun b => ?_
  rintro db ⟨rfl, hdb⟩
  exact triple_headModifiedLoop threads db hdb

-- Boards

section
variable (isURL : NSString → Bool) (floatValue : Decimal → ℚ)

theorem sendsOnly_urlStringForBoardID (boardID : Nat) :
    SendsOnly (urlStringForBoardID isURL boardID) :=
  .ite .pure ((sendsOnly_cursorForSQL _).bind fun _ => .pure)

theorem sendsOnly_nameForBoardID (boardID : Nat) : SendsOnly (nameForBoardID boardID) :=
  .ite .pure ((sendsOnly_cursorForSQL _).bind fun _ => .pure)

theorem sendsOnly_boardIDForURLStringExceptingHistory (url : NSString) :
    SendsOnly (boardIDForURLStringExceptingHistory url) :=
  (sendsOnly_cursorForSQL _).bind fun _ => .pure

theorem sendsOnly_boardIDForURLString (url : NSString) : SendsOnly (boardIDForURLString url) := by
  refine (sendsOnly_boardIDForURLStringExceptingHistory url).bind fun r => ?_
  cases r with
  | some boardID => exact .pure
  | none => exact (sendsOnly_cursorForSQL _).bind fun _ => .pure

theorem sendsOnly_boardIDsForName (cache : NameCache) (name : NSString) :
    SendsOnly (boardIDsForName cache name) := by
  unfold boardIDsForName
  cases cache.lookup name with
  | some ids => exact .pure
  | none =>
    exact (sendsOnly_cursorForSQL _).bind fun _ => .ite .pure
      ((sendsOnly_cursorForSQL _).bind fun _ => .pure)

theorem sendsOnly_registerBoardName (name url : NSString) :
    SendsOnly (registerBoardName isURL name url) :=
  .ite .pure ((sendsOnly_performQuery _).bind fun _ => sendsOnly_lastErrorID.bind fun _ => .pure)

theorem closed_changeBoard (history : BoardInfoHistory) (stmt : BoardTables → Option BoardTables) :
    Closed (changeBoard history stmt) := by
  have habort : Ends abortChange := ends_rollbackTransaction.bind fun _ => closed_pure
  have hstay : Triple Inside (pure true : Db Tables Bool) (fun _ => Sound) fun _ => False :=
    Triple.pure fun _ => .inr
  have habort' : Triple Inside abortChange (fun _ => Sound) fun _ => False :=
    habort.imp (fun _ h => h) (fun _ _ => .inl) fun _ h => h
  refine closed_beginTransaction (sendsOnly_lastErrorID.ends fun code => ?_) ?_
  · refine Triple.ite (fun h => absurd h.1 (by decide)) fun _ => ?_
    refine (sendsOnly_performQuery _).ends fun _ => sendsOnly_lastErrorID.ends fun _ =>
      .ite habort ?_
    refine (sendsOnly_performQuery _).ends fun _ => sendsOnly_lastErrorID.ends fun _ =>
      .ite habort ?_
    exact ends_commitTransaction.bind fun _ => closed_pure
  · refine sendsOnly_lastErrorID.inside.bind fun code =>
      Triple.ite (fun _ => Triple.pure fun _ => .inr) fun _ => ?_
    refine (sendsOnly_performQuery _).inside.bind fun _ =>
      sendsOnly_lastErrorID.inside.bind fun _ => Triple.ite (fun _ => habort') fun _ => ?_
    exact (sendsOnly_performQuery _).inside.bind fun _ =>
      sendsOnly_lastErrorID.inside.bind fun _ => Triple.ite (fun _ => habort') fun _ => hstay

theorem closed_moveBoardID (boardID : Nat) (url : NSString) :
    Closed (moveBoardID isURL boardID url) :=
  .ite closed_pure ((sendsOnly_urlStringForBoardID isURL boardID).closed.bind fun _ =>
    .ite closed_pure (closed_changeBoard _ _))

theorem closed_renameBoardID (cache : NameCache) (boardID : Nat) (name : NSString) :
    Closed (renameBoardID cache boardID name) :=
  .ite closed_pure ((sendsOnly_nameForBoardID boardID).closed.bind fun _ =>
    .ite closed_pure ((closed_changeBoard _ _).bind fun _ => closed_pure))

end

end BathyScaphe.Database

namespace BathyScaphe.Boards

open Database SQLiteDB

-- Loading a board list

mutual

def BoardPlist.holdsArray : BoardPlist → Bool
  | .array _ => true
  | .dict keys contents => keys.name.isSome && contentsHoldArray contents

def contentsHoldArray : Option (List BoardPlist) → Bool
  | none => false
  | some objects => holdArray objects

def holdArray : List BoardPlist → Bool
  | [] => false
  | object :: rest => object.holdsArray || holdArray rest

end

section
variable (isURL : NSString → Bool) (floatValue : Decimal → ℚ)

theorem closed_boardFromPlist (cache : NameCache) (name url : NSString) :
    Closed (boardFromPlist isURL cache name url) := by
  refine .ite closed_pure ((sendsOnly_boardIDForURLStringExceptingHistory url).closed.bind fun r =>
    ?_)
  cases r with
  | some boardID => exact closed_pure
  | none =>
    refine (sendsOnly_boardIDsForName cache name).closed.bind fun found => ?_
    obtain ⟨_ | ⟨boardID, ids⟩, cache'⟩ := found
    · exact ((sendsOnly_registerBoardName isURL name url).bind fun _ =>
        (sendsOnly_boardIDForURLString url).bind fun _ => .pure).closed
    · exact (closed_moveBoardID isURL boardID url).bind fun _ => closed_pure

theorem closed_urlFromPlist (cache : NameCache) (name : NSString)
    (item : Option (Tree Nat Smart.Condition)) (url : Option NSString) :
    Closed (urlFromPlist isURL cache name item url) := by
  cases url with
  | none => exact closed_pure
  | some url => exact (closed_boardFromPlist isURL cache name url).bind fun _ => closed_pure

/-- Loading keeps the flag truthful, and raises only at an array. -/
def LoadsSoundly {α : Type} (x : Db Tables α) (holdsArray : Bool) : Prop :=
  Triple Sound x (fun _ => Sound) fun db => db.Sound ∧ holdsArray = true

theorem LoadsSoundly.of_closed {α : Type} {x : Db Tables α} (hx : Closed x) (b : Bool) :
    LoadsSoundly x b := hx.sound.imp (fun _ h => h) (fun _ _ h => h) fun _ => False.elim

theorem LoadsSoundly.imp {α : Type} {x : Db Tables α} {b c : Bool} (hx : LoadsSoundly x b)
    (h : b = true → c = true) : LoadsSoundly x c :=
  Triple.imp hx (fun _ h => h) (fun _ _ h => h) fun _ hdb => ⟨hdb.1, h hdb.2⟩

mutual

theorem loadsSoundly_itemFromPlist (cache : NameCache) :
    (object : BoardPlist) →
      LoadsSoundly (itemFromPlist isURL floatValue cache object) object.holdsArray
  | .array _ => Triple.throw fun _ hdb => ⟨hdb, rfl⟩
  | .dict keys contents => by
    unfold itemFromPlist
    cases hname : keys.name with
    | none => exact .of_closed closed_pure _
    | some name =>
      refine Triple.bind ((loadsSoundly_folderFromPlist cache name contents).imp fun h =>
        ?_) fun _ => ?_
      · simp [BoardPlist.holdsArray, hname, h]
      · exact LoadsSoundly.of_closed
          ((closed_urlFromPlist isURL _ name _ keys.url).bind fun _ => closed_pure) _

theorem loadsSoundly_folderFromPlist (cache : NameCache) (name : NSString) :
    (contents : Option (List BoardPlist)) →
      LoadsSoundly (folderFromPlist isURL floatValue cache name contents)
        (contentsHoldArray contents)
  | none => by
    unfold folderFromPlist
    exact .of_closed closed_pure _
  | some contents => by
    unfold folderFromPlist contentsHoldArray
    exact Triple.bind (loadsSoundly_itemsFromPlist cache contents) fun _ => Triple.pure fun _ h => h

theorem loadsSoundly_itemsFromPlist (cache : NameCache) :
    (objects : List BoardPlist) →
      LoadsSoundly (itemsFromPlist isURL floatValue cache objects) (holdArray objects)
  | [] => by
    unfold itemsFromPlist
    exact .of_closed closed_pure _
  | object :: rest => by
    unfold itemsFromPlist holdArray
    refine Triple.bind ((loadsSoundly_itemFromPlist cache object).imp fun h =>
      by simp [h]) fun item => ?_
    exact Triple.bind ((loadsSoundly_itemsFromPlist item.2 rest).imp fun h => by simp [h])
      fun _ => Triple.pure fun _ h => h

end

theorem triple_initWithContentsOfFile (cache : NameCache) (array : List BoardPlist) :
    Triple Outside (initWithContentsOfFile isURL floatValue cache array) (fun _ => Outside)
      fun db => db.Sound ∧ holdArray array = true := by
  refine triple_beginTransaction_outside.bind fun b => ?_
  rintro db ⟨rfl, hdb⟩
  refine Triple.bind (loadsSoundly_itemsFromPlist isURL floatValue cache array)
    (fun _ => ?_) db (.inr hdb)
  exact triple_commitTransaction_sound.bind fun _ => Triple.pure fun _ h => h

theorem keeps_initWithContentsOfFile (cache : NameCache) (array : List BoardPlist) :
    Keeps Sound (initWithContentsOfFile isURL floatValue cache array) := by
  rintro db (hdb | hdb)
  · exact (triple_initWithContentsOfFile isURL floatValue cache array).imp (fun _ h => h)
      (fun _ _ => .inl) (fun _ h => h.1) db hdb
  · refine triple_beginTransaction_inside.bind (fun b => ?_) db hdb
    rintro db ⟨rfl, hdb⟩
    exact .inr hdb

end

end BathyScaphe.Boards

namespace BathyScaphe.Database

open SQLiteDB Boards

-- Runs

/-- Everything that begins a transaction, and what else is done on a connection. -/
inductive TransactionOp where
  | beginTransaction
  | commitTransaction
  | rollbackTransaction
  | appendFavorite (k : ThreadKey)
  | removeFavorite (k : ThreadKey)
  | insertThread (file : LogFile)
  | deleteAllRecords (boardID : UInt32)
  | cleanUp (files : List ThreadKey)
  | didUpdate (k : ThreadKey) (count : UInt32) (modDate : Int)
  | updateTask (task : UpdateTask) (lines : List (Option SubjectLine))
  | threadInfomations (query : ThreadKey → ThreadInfo → Bool)
  | checkHOGE (query : ThreadKey → ThreadInfo → Bool)
  | resetNewStatus (query : ThreadKey → ThreadInfo → Bool)
  | updateHeadModified (threads : List ThreadKey)
  | registerBoardName (name url : NSString)
  | moveBoardID (boardID : Nat) (url : NSString)
  | renameBoardID (cache : NameCache) (boardID : Nat) (name : NSString)
  | loadBoardList (cache : NameCache) (array : List BoardPlist)
  /-- The creation of a table or a step of the updater. -/
  | changeSchema (stmts : List (Tables → Option Tables)) (done : Bool)

namespace TransactionOp

variable (isURL : NSString → Bool) (floatValue : Decimal → ℚ)

def exec : TransactionOp → Db Tables Unit
  | .beginTransaction => do let _ ← SQLiteDB.beginTransaction
  | .commitTransaction => do let _ ← SQLiteDB.commitTransaction
  | .rollbackTransaction => do let _ ← SQLiteDB.rollbackTransaction
  | .appendFavorite k => do let _ ← Database.appendFavorite k
  | .removeFavorite k => do let _ ← Database.removeFavorite k
  | .insertThread file => do let _ ← Database.insertThread file
  | .deleteAllRecords boardID => do let _ ← Database.deleteAllRecords boardID
  | .cleanUp files => do let _ ← Database.cleanUp files
  | .didUpdate k count modDate => do let _ ← Database.didUpdate k count modDate
  | .updateTask task lines => do let _ ← task.run lines
  | .threadInfomations query => do let _ ← Database.threadInfomations query
  | .checkHOGE query => do let _ ← Database.checkHOGE query
  | .resetNewStatus query => do let _ ← Database.resetNewStatus query
  | .updateHeadModified threads => do let _ ← Database.updateHeadModified threads
  | .registerBoardName name url => do let _ ← Database.registerBoardName isURL name url
  | .moveBoardID boardID url => do let _ ← Database.moveBoardID isURL boardID url
  | .renameBoardID cache boardID name => do let _ ← Database.renameBoardID cache boardID name
  | .loadBoardList cache array => do
    let _ ← initWithContentsOfFile isURL floatValue cache array
  | .changeSchema stmts done => do let _ ← performInTransaction (performAll stmts) done

def step (db : SQLiteDB Tables) (op : TransactionOp) : Option (SQLiteDB Tables) :=
  some (after (op.exec isURL floatValue) db)

/-- The operation does not leave a transaction open: it is no bare `BEGIN`, no
interruption check of `updateDB:` raises after its `BEGIN`, and no array is loaded
in the place of an item. -/
def Allowed (db : SQLiteDB Tables) : TransactionOp → Prop
  | .beginTransaction => False
  | .updateHeadModified threads => Uninterrupted threads.length db
  | .loadBoardList _ array => holdArray array = false
  | _ => True

theorem closed_changeSchema (stmts : List (Tables → Option Tables)) (done : Bool) :
    Closed (performInTransaction (performAll stmts) done) := by
  refine closed_ifBegun ((sendsOnly_performAll stmts).ends fun _ => .ite ?_ ?_) closed_pure
  · exact ends_commitTransaction.bind fun _ => closed_pure
  · exact ends_rollbackTransaction.bind fun _ => closed_pure

def MayStayOpen : TransactionOp → Prop
  | .beginTransaction => True
  | .updateHeadModified _ => True
  | .loadBoardList _ _ => True
  | _ => False

theorem closed_exec (op : TransactionOp) (hop : ¬ op.MayStayOpen) :
    Closed (op.exec isURL floatValue) := by
  have hrun {α : Type} {x : Db Tables α} (hx : Closed x) : Closed (do let _ ← x : Db Tables Unit) :=
    hx.bind fun _ => closed_pure
  cases op with
  | beginTransaction => exact absurd trivial hop
  | updateHeadModified threads => exact absurd trivial hop
  | loadBoardList cache array => exact absurd trivial hop
  | commitTransaction => exact hrun (ends_commitTransaction.closed triple_commitTransaction_outside)
  | rollbackTransaction =>
      exact hrun (ends_rollbackTransaction.closed triple_rollbackTransaction_outside)
  | appendFavorite k => exact hrun (closed_changeFavorite k true _)
  | removeFavorite k => exact hrun (closed_changeFavorite k false _)
  | insertThread file => exact hrun (sendsOnly_insertThread file).closed
  | deleteAllRecords boardID => exact hrun (sendsOnly_deleteAllRecords boardID).closed
  | cleanUp files => exact hrun (closed_cleanUp files)
  | didUpdate k count modDate => exact hrun (sendsOnly_performQuery _).closed
  | updateTask task lines => exact hrun (closed_run task lines)
  | threadInfomations query => exact hrun (closed_threadInfomations query)
  | checkHOGE query => exact hrun (closed_checkHOGE query)
  | resetNewStatus query => exact hrun (closed_resetNewStatus query)
  | registerBoardName name url => exact hrun (sendsOnly_registerBoardName isURL name url).closed
  | moveBoardID boardID url => exact hrun (closed_moveBoardID isURL boardID url)
  | renameBoardID cache boardID name => exact hrun (closed_renameBoardID cache boardID name)
  | changeSchema stmts done => exact hrun (closed_changeSchema stmts done)

/-- Every operation keeps the flag truthful, also where it raises. -/
theorem sound_step (op : TransactionOp) (h : db.Sound) :
    (after (op.exec isURL floatValue) db).Sound := by
  have hrun {α : Type} {x : Db Tables α} (hx : Keeps Sound x) :
      Keeps Sound (do let _ ← x : Db Tables Unit) := hx.bind fun _ => Keeps.pure
  refine triple_after ?_ h
  by_cases hop : op.MayStayOpen
  · cases op with
    | beginTransaction =>
      refine hrun ?_
      rintro db (hdb | hdb)
      · exact triple_beginTransaction_outside.imp (fun _ h => h) (fun _ _ h => .inr h.2)
          (fun _ h => h) db hdb
      · exact triple_beginTransaction_inside.imp (fun _ h => h) (fun _ _ h => .inr h.2)
          (fun _ h => h) db hdb
    | updateHeadModified threads => exact hrun (keeps_updateHeadModified_sound threads)
    | loadBoardList cache array =>
        exact hrun (keeps_initWithContentsOfFile isURL floatValue cache array)
    | _ => exact absurd hop (fun h => h)
  · exact (closed_exec isURL floatValue op hop).sound.imp (fun _ h => h) (fun _ _ h => h) fun _ =>
      False.elim

theorem outside_step (op : TransactionOp) (h : db.Outside) (ha : op.Allowed db) :
    (after (op.exec isURL floatValue) db).Outside := by
  by_cases hop : op.MayStayOpen
  · cases op with
    | beginTransaction => exact ha.elim
    | updateHeadModified threads =>
      exact triple_after (((triple_updateHeadModified threads).bind fun _ =>
        Triple.pure fun _ h => h).imp
        (fun _ h => h) (fun _ _ h => h) fun _ => False.elim) ⟨h, ha⟩
    | loadBoardList cache array =>
      have hload := triple_initWithContentsOfFile isURL floatValue cache array
      exact triple_after ((hload.bind fun _ => Triple.pure fun _ h => h).imp
        (fun _ h => h) (fun _ _ h => h) fun _ hdb => by
      simp [show holdArray array = false from ha] at hdb) h
    | _ => exact absurd hop (fun h => h)
  · exact triple_after ((closed_exec isURL floatValue op hop).outside.imp (fun _ h => h)
      (fun _ _ h => h)
      fun _ => False.elim) h

/-- Along every run on which no `BEGIN` and no `COMMIT` fails and SQLite rolls nothing back by
itself, whatever other errors there are and wherever tasks are interrupted, the flag says whether
the connection is inside a transaction. If no operation leaves its transaction open, the next one
can always be begun. -/
theorem transaction_truthful (hu : db.Unrefused) (ht : db.Truthful)
    (hrun : Run.run (step isURL floatValue) db ops = some db') :
    db'.Truthful ∧ (db.transaction = false →
      Run.Guarded (step isURL floatValue) (fun db op => op.Allowed db) db ops →
      ∃ db'', SQLiteDB.beginTransaction db' = .ok true db'') := by
  constructor
  · have hsound : db'.Sound := by
      refine Run.run_invariant (fun {s op s'} hs hstep => ?_) hrun (sound_iff.mpr ⟨hu, ht⟩)
      obtain rfl := Option.some.inj hstep
      exact sound_step isURL floatValue op hs
    exact (sound_iff.mp hsound).2
  · intro hflag hguard
    have hstart : db.Outside := by
      obtain h | h := sound_iff.mpr ⟨hu, ht⟩
      · exact h
      · exact absurd (hflag.symm.trans h.transaction) (by decide)
    have houtside : db'.Outside := by
      refine Run.guarded_invariant (fun {s op s'} hs ha hstep => ?_) hguard hrun hstart
      obtain rfl := Option.some.inj hstep
      exact outside_step isURL floatValue op hs ha
    have hbegin := triple_beginTransaction_outside (R := fun _ => False) db' houtside
    cases hresult : SQLiteDB.beginTransaction db' with
    | error r db'' =>
      rw [hresult] at hbegin
      exact hbegin.elim
    | ok b db'' =>
      rw [hresult] at hbegin
      exact ⟨db'', by rw [hbegin.1]⟩

/-- Two tasks that are interrupted at once, one of them in its transaction. -/
theorem transaction_truthful_interrupted :
    ∃ db, Run.run (step (fun _ => true) fun _ => 0) (idle Tables.empty .ok fun _ => true)
        [.updateTask ⟨1, false, [], true, decimalValue⟩ [], .appendFavorite ⟨1, 10⟩] = some db ∧
      db.Truthful ∧ ∃ db', SQLiteDB.beginTransaction db = .ok true db' := by
  refine ⟨_, rfl, ?_⟩
  obtain ⟨htruthful, hbegin⟩ := transaction_truthful (fun _ => true) (fun _ => 0)
    (⟨fun _ => rfl, fun _ => rfl, fun _ _ => rfl⟩ : (idle Tables.empty .ok fun _ =>
      true).Unrefused) rfl
    (rfl : Run.run _ _ [.updateTask ⟨1, false, [], true, decimalValue⟩ [],
      .appendFavorite ⟨1, 10⟩] = some _)
  exact ⟨htruthful, hbegin rfl (Run.guarded_of_forall (by simp [Allowed]) _)⟩

/-- A `BEGIN` answered with `SQLITE_BUSY` leaves the flag set without a transaction;
an interruption between `BEGIN` and `COMMIT` leaves both, and every later
`beginTransaction` is refused. -/
theorem not_transaction_truthful :
    (¬ ∀ (db db' : SQLiteDB Tables) (ops : List TransactionOp), db.Truthful →
      Run.run (step (fun _ => true) fun _ => 0) db ops = some db' → db'.Truthful) ∧
    ¬ ∀ (db db' : SQLiteDB Tables) (ops : List TransactionOp), db.Unrefused → db.Truthful →
      db.transaction = false → .beginTransaction ∉ ops →
      Run.run (step (fun _ => true) fun _ => 0) db ops = some db' →
      ∃ db'', SQLiteDB.beginTransaction db' = .ok true db'' := by
  constructor
  · intro h
    have hflag := h { idle Tables.empty .ok fun _ => false with begins := fun _ => .busy } _
      [.appendFavorite ⟨1, 10⟩] rfl rfl
    exact absurd hflag (by unfold Truthful; decide +kernel)
  · intro h
    obtain ⟨db'', hbegin⟩ :=
      h (idle Tables.empty .ok fun _ => true) _ [.updateHeadModified [⟨1, 10⟩]]
      ⟨fun _ => rfl, fun _ => rfl, fun _ _ => rfl⟩ rfl rfl (by simp) rfl
    cases hbegin

end TransactionOp

end BathyScaphe.Database
