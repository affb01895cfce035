import BathyScaphe.Lib.Run
import BathyScaphe.Database.UpdateTask

/-!
# Thread status

The status of a thread row is a function of its two counts, computed in four
places. Every statement of every operation keeps it so, whatever SQLite answers
and wherever a task is interrupted, as long as no log without messages is
registered and no download ends without messages; both are written as cached.
-/

namespace BathyScaphe.Database

open SQLiteDB

namespace ThreadInfo

def Unread (row : ThreadInfo) : Prop := row.numberOfRead = none ∨ row.numberOfRead = some 0

structure StatusOK (row : ThreadInfo) : Prop where
  logCached : row.threadStatus = some .logCached ↔ ∃ all read,
    row.numberOfAll = some all ∧ row.numberOfRead = some read ∧ 0 < read ∧ all ≤ read
  updated : row.threadStatus = some .updated ↔ ∃ all read,
    row.numberOfAll = some all ∧ row.numberOfRead = some read ∧ 0 < read ∧ read < all
  noCache : row.threadStatus = some .noCache ∨ row.threadStatus = some .newCreated ↔ row.Unread

variable {row : ThreadInfo} {all read : UInt32}

theorem statusOK_of_unread (hread : row.Unread)
    (hstatus : row.threadStatus = some .noCache ∨ row.threadStatus = some .newCreated) :
    row.StatusOK := by
  have hzero (all read : UInt32) (hr : row.numberOfRead = some read) (hpos : 0 < read) : False := by
    obtain h | h := hread
    · rw [h] at hr
      cases hr
    · rw [h] at hr
      cases hr
      exact absurd hpos (by decide)
  refine ⟨⟨fun h => ?_, ?_⟩, ⟨fun h => ?_, ?_⟩, ⟨fun _ => hread, fun _ => hstatus⟩⟩
  · obtain hs | hs := hstatus <;> rw [hs] at h <;> cases h
  · rintro ⟨all, read, -, hr, hpos, -⟩
    exact (hzero all read hr hpos).elim
  · obtain hs | hs := hstatus <;> rw [hs] at h <;> cases h
  · rintro ⟨all, read, -, hr, hpos, -⟩
    exact (hzero all read hr hpos).elim

theorem statusOK_of_read (hall : row.numberOfAll = some all) (hread : row.numberOfRead = some read)
    (hpos : read ≠ 0)
    (hstatus : row.threadStatus = some (if all ≤ read then .logCached else .updated)) :
    row.StatusOK := by
  have hpos' : 0 < read := UInt32.pos_iff_ne_zero.mpr hpos
  have hunread : ¬ row.Unread := by
    rintro (h | h) <;> rw [hread] at h <;> cases h
    exact hpos rfl
  by_cases hle : all ≤ read
  · rw [if_pos hle] at hstatus
    refine ⟨⟨fun _ => ⟨all, read, hall, hread, hpos', hle⟩, fun _ => hstatus⟩, ?_, ?_⟩
    · simp [hstatus, hall, hread, hpos', UInt32.not_lt.mpr hle]
    · simp [hstatus, hunread]
  · rw [if_neg hle] at hstatus
    refine ⟨?_, ⟨fun _ => ⟨all, read, hall, hread, hpos', UInt32.not_le.mp hle⟩, fun _ =>
      hstatus⟩, ?_⟩
    · simp [hstatus, hall, hread, hle]
    · simp [hstatus, hunread]

theorem le_intValue (h : n ≤ 0x7fffffff) : n ≤ intValue m ↔ n ≤ m := by
  unfold intValue
  split
  · exact Iff.rfl
  · next hm =>
    rw [UInt32.not_le] at hm
    exact ⟨fun _ => UInt32.le_trans h (UInt32.le_of_lt hm), fun _ => h⟩

theorem intValue_eq_zero : intValue n = 0 ↔ n = 0 := by
  unfold intValue
  split
  · exact Iff.rfl
  · next h =>
    refine ⟨fun h0 => absurd h0 (by decide), ?_⟩
    rintro rfl
    exact absurd (by decide) h

theorem statusOK_relisted (row : ThreadInfo) (line : SubjectLine) :
    (row.relisted line.count
      (some (listedStatus line.count (columnValue row.numberOfRead)))).StatusOK := by
  cases hread : row.numberOfRead with
  | none => exact statusOK_of_unread (.inl hread) (.inl rfl)
  | some read =>
    by_cases hzero : read = 0
    · subst hzero
      exact statusOK_of_unread (.inr hread) (.inl rfl)
    · have hvalue : intValue read ≠ 0 := mt intValue_eq_zero.mp hzero
      refine statusOK_of_read rfl hread hzero ?_
      simp [relisted, columnValue, listedStatus, hvalue, le_intValue line.count_le]

theorem statusOK_newRow (line : SubjectLine) : line.newRow.StatusOK :=
  statusOK_of_unread (.inl rfl) (.inr rfl)

theorem statusOK_update (file : LogFile) (hcount : file.count ≠ 0) (isFavorite : Bool)
    (number : UInt32) (row : ThreadInfo) : (file.update isFavorite number row).StatusOK := by
  refine statusOK_of_read rfl rfl hcount ?_
  by_cases hgt : number > file.count
  · have hnlt : ¬ number < file.count := UInt32.not_lt.mpr (UInt32.le_of_lt hgt)
    simp [LogFile.update, hgt, hnlt, UInt32.not_le.mpr hgt]
  · have hle : (if number < file.count then file.count else number) ≤ file.count := by
      split
      · exact UInt32.le_refl _
      · exact UInt32.not_lt.mp hgt
    simp [LogFile.update, hgt, hle]

theorem statusOK_row (file : LogFile) (hcount : file.count ≠ 0) (isFavorite : Bool) :
    (file.row isFavorite).StatusOK :=
  statusOK_of_read rfl rfl hcount (by simp [LogFile.row])

theorem statusOK_removed (row : ThreadInfo) : row.removed.StatusOK :=
  statusOK_of_unread (.inl rfl) (.inl rfl)

theorem statusOK_downloaded (hcount : count ≠ 0) (modDate : Int) (row : ThreadInfo) :
    (row.downloaded count modDate).StatusOK :=
  statusOK_of_read rfl rfl hcount (by simp [downloaded])

end ThreadInfo

-- Statements

/-- The row of the thread, if there is one, has the status of its counts or is
marked by the check of a smart board. -/
def StatusAt (k : ThreadKey) (t : Tables) : Prop :=
  ∀ row, t.threadInfo.find k = some row →
    row.threadStatus = some .headModified ∨ row.StatusOK

section
variable {k k' : ThreadKey} {t t' : Tables}

theorem statusAt_updateThread (h : StatusAt k t)
    (hf : ∀ row, t.threadInfo.find k' = some row →
      (f row).threadStatus = some .headModified ∨ (f row).StatusOK) :
    StatusAt k (t.updateThread k' f) := by
  intro row hrow
  rw [Tables.updateThread, Table.find_update_key] at hrow
  by_cases hk : k = k'
  · rw [if_pos hk, hk] at hrow
    obtain ⟨row₀, hrow₀, rfl⟩ := Option.map_eq_some_iff.mp hrow
    exact hf row₀ hrow₀
  · rw [if_neg hk] at hrow
    exact h row hrow

theorem statusAt_insertThread (h : StatusAt k t) (hrow : row.StatusOK)
    (ht' : t.insertThread k' row = some t') : StatusAt k t' := by
  obtain ⟨rows, hrows, rfl⟩ := Option.map_eq_some_iff.mp ht'
  intro row' hrow'
  rw [Table.find_insert hrows] at hrow'
  by_cases hk : k = k'
  · rw [if_pos hk] at hrow'
    exact .inr (Option.some.inj hrow' ▸ hrow)
  · rw [if_neg hk] at hrow'
    exact h row' hrow'

theorem statusAt_deleteThreads (h : StatusAt k t) : StatusAt k (t.deleteThreads p) := by
  intro row hrow
  rw [Tables.deleteThreads, Table.find_delete] at hrow
  exact h row (Option.eq_some_of_filter_eq_some hrow)

theorem statusAt_insertNumber {number : NumberKey} (h : StatusAt k t)
    (ht' : t.insertNumber number index = some t') :
    StatusAt k t' := by
  obtain ⟨rows, -, rfl⟩ := Option.map_eq_some_iff.mp ht'
  exact h

end

-- Operations

section
variable {k : ThreadKey}

theorem keeps_abort : Keeps (Stable (StatusAt k)) abort :=
  keeps_rollbackTransaction.bind fun _ => Keeps.pure

theorem keeps_update (hf : ∀ row, (f row).threadStatus = some .headModified ∨ (f row).StatusOK) :
    Keeps (Stable (StatusAt k)) (performQuery fun t : Tables => some (t.updateThread k' f)) := by
  refine keeps_performQuery fun t t' ht hstmt => ?_
  obtain rfl := Option.some.inj hstmt
  exact statusAt_updateThread ht fun row _ => hf row

theorem keeps_insertThread (hcount : file.count ≠ 0) :
    Keeps (Stable (StatusAt k)) (insertThread file) := by
  have hfavorite : Keeps (Stable (StatusAt k)) (isRegisteredWithFavoritesTable file.key) :=
    (keeps_cursorForSQL _).bind fun r => by cases r <;> exact Keeps.pure
  have hregistered : Keeps (Stable (StatusAt k)) (isThreadIdentifierRegistered file.key) :=
    (keeps_cursorForSQL _).bind fun r => by
      obtain _ | _ | row := r <;> exact Keeps.pure
  have hstmt (isFavorite : Bool) (number : Option UInt32) :
      Keeps (Stable (StatusAt k)) (performQuery (file.statement isFavorite number)) := by
    cases number with
    | some number =>
      exact keeps_update fun row =>
        .inr (ThreadInfo.statusOK_update file hcount isFavorite number row)
    | none =>
      exact keeps_performQuery fun t t' ht ht' =>
        statusAt_insertThread ht (ThreadInfo.statusOK_row file hcount isFavorite) ht'
  exact hfavorite.bind fun isFavorite => hregistered.bind fun number =>
    (hstmt isFavorite number).bind fun _ => keeps_lastErrorID.bind fun _ => Keeps.pure

theorem keeps_cleanUpLoop (files : List ThreadKey) :
    Keeps (Stable (StatusAt k)) (cleanUpLoop files) := by
  induction files with
  | nil => exact keeps_commitTransaction.bind fun _ => Keeps.pure
  | cons k' files ih =>
    have hdelete : Keeps (Stable (StatusAt k))
        (performQuery fun t : Tables => some (t.deleteFavorite k')) := by
      refine keeps_performQuery fun t t' ht hstmt => ?_
      obtain rfl := Option.some.inj hstmt
      exact ht
    exact (keeps_update fun row => .inr row.statusOK_removed).bind fun _ =>
      keeps_lastErrorID.bind fun _ => Keeps.ite keeps_abort <|
        hdelete.bind fun _ => keeps_lastErrorID.bind fun _ => Keeps.ite keeps_abort ih

theorem keeps_cleanUp (files : List ThreadKey) : Keeps (Stable (StatusAt k)) (cleanUp files) :=
  keeps_beginTransaction.bind fun _ => Keeps.ite (keeps_cleanUpLoop files) Keeps.pure

theorem triple_performIfNeeded (k' : ThreadKey) (line : SubjectLine) (row : Option ThreadInfo) :
    Triple (fun db => db.Stable (StatusAt k) ∧ row = db.contents.threadInfo.find k')
      (performIfNeeded (lineStatement k' line row))
      (fun _ => Stable (StatusAt k)) (Stable (StatusAt k)) := by
  cases row with
  | none =>
    unfold performIfNeeded lineStatement
    exact triple_performQuery (A := fun t : Tables => none = t.threadInfo.find k')
      fun t t' ht _ ht' => statusAt_insertThread ht (ThreadInfo.statusOK_newRow line) ht'
  | some row =>
    simp only [lineStatement]
    split
    · unfold performIfNeeded
      refine triple_performQuery (A := fun t : Tables => some row = t.threadInfo.find k')
        fun t t' ht hrow hstmt => ?_
      obtain rfl := Option.some.inj hstmt
      refine statusAt_updateThread ht fun row' hrow' => .inr ?_
      obtain rfl : row = row' := Option.some.inj (hrow.trans hrow')
      exact row.statusOK_relisted line
    · exact Triple.pure fun _ h => h.1

section
variable (threadID : NSString → Nat)

theorem keeps_updateDB (boardID : UInt32) (line : SubjectLine) (index : UInt32) :
    Keeps (Stable (StatusAt k)) (updateDB threadID boardID line index) := by
  refine Triple.bind (triple_cursorForSQL _) fun r => ?_
  cases r with
  | none => exact Triple.pure fun _ h => h.1
  | some row =>
    refine Triple.bind ((triple_performIfNeeded (line.key threadID boardID) line row).imp
      (fun _ h => ⟨h.1, h.2 row rfl⟩) (fun _ _ h => h) fun _ h => h) fun _ => ?_
    exact (keeps_performQuery fun t t' ht ht' => statusAt_insertNumber ht ht').bind fun _ =>
      Keeps.pure

theorem keeps_registerLines (boardID : UInt32) (n : Nat) (lines : List (Option SubjectLine)) :
    Keeps (Stable (StatusAt k)) (registerLines threadID boardID n lines) := by
  induction lines generalizing n with
  | nil => exact Keeps.pure
  | cons line lines ih =>
    refine keeps_isInterrupted.bind fun _ => Keeps.ite Keeps.pure ?_
    cases line with
    | none => exact ih (n + 1)
    | some line =>
      exact (keeps_updateDB threadID boardID line _).bind fun _ => Keeps.ite (ih (n + 1)) Keeps.pure

theorem keeps_deleteUnusedInfomations (isDelete : Bool) (boardID : UInt32) :
    Keeps (Stable (StatusAt k)) (deleteUnusedInfomations threadID isDelete boardID) := by
  have hdelete : Keeps (Stable (StatusAt k))
      (performQuery fun t : Tables => some (t.deleteThreads (isUnused threadID boardID t))) := by
    refine keeps_performQuery fun t t' ht hstmt => ?_
    obtain rfl := Option.some.inj hstmt
    exact statusAt_deleteThreads ht
  exact Keeps.ite Keeps.pure <| keeps_beginTransaction.bind fun _ => Keeps.ite
    (hdelete.bind fun _ => keeps_commitTransaction.bind fun _ => Keeps.pure) Keeps.pure

end

theorem keeps_insertOrUpdateFromLogFiles (hcount : ∀ file ∈ files, file.count ≠ 0) :
    Keeps (Stable (StatusAt k)) (insertOrUpdateFromLogFiles files) := by
  induction files with
  | nil => exact Keeps.pure
  | cons file files ih =>
    exact (keeps_insertThread (hcount file (by simp))).bind fun _ =>
      ih fun file hfile => hcount file (List.mem_cons_of_mem _ hfile)

theorem keeps_makeQuerys : Keeps (Stable (StatusAt k)) makeQuerys :=
  keeps_reservedQuery.bind fun _ => Keeps.ite (keeps_reservedQuery.bind fun _ => Keeps.ite
    (keeps_reservedQuery.bind fun _ => Keeps.ite keeps_reservedQuery Keeps.pure) Keeps.pure)
    Keeps.pure

theorem keeps_finish {task : UpdateTask}
    (hcount : task.isRebuilding = true → ∀ file ∈ task.logFiles, file.count ≠ 0) :
    Keeps (Stable (StatusAt k)) task.finish :=
  Triple.ite (fun hr => keeps_insertOrUpdateFromLogFiles (hcount hr)) fun _ =>
    keeps_deleteUnusedInfomations task.threadID task.isDelete task.boardID

theorem keeps_run {task : UpdateTask} (lines : List (Option SubjectLine))
    (hcount : task.isRebuilding = true → ∀ file ∈ task.logFiles, file.count ≠ 0) :
    Keeps (Stable (StatusAt k)) (task.run lines) := by
  have hclear : Keeps (Stable (StatusAt k))
      (performQuery fun t : Tables => some (t.clearNumbers task.boardID)) := by
    refine keeps_performQuery fun t t' ht hstmt => ?_
    obtain rfl := Option.some.inj hstmt
    exact ht
  have hfinish : Keeps (Stable (StatusAt k)) (do task.finish; return true) :=
    (keeps_finish hcount).bind fun _ => Keeps.pure
  refine keeps_beginTransaction.bind fun _ => Keeps.ite ?_ hfinish
  refine keeps_makeQuerys.bind fun _ => Keeps.ite ?_ keeps_abort
  refine keeps_isInterrupted.bind fun _ => Keeps.ite keeps_abort ?_
  refine hclear.bind fun _ => (keeps_registerLines task.threadID task.boardID 0 lines).bind fun _ =>
    Keeps.ite ?_ keeps_abort
  exact keeps_commitTransaction.bind fun _ => hfinish

/-- A thread still to be reset is unread, whether it is still new or not. -/
def UnreadIn (keys : List ThreadKey) (k : ThreadKey) (t : Tables) : Prop :=
  k ∈ keys → ∀ row, t.threadInfo.find k = some row → row.Unread

theorem unreadIn_setStatus (h : UnreadIn keys k t) : UnreadIn keys k (setStatus status k' t) := by
  intro hk row hrow
  rw [setStatus, Tables.updateThread, Table.find_update_key] at hrow
  by_cases hkk : k = k'
  · rw [if_pos hkk] at hrow
    obtain ⟨row₀, hrow₀, rfl⟩ := Option.map_eq_some_iff.mp hrow
    exact h hk row₀ hrow₀
  · rw [if_neg hkk] at hrow
    exact h hk row hrow

/-- The row stays one of an unread thread, also after a rollback. -/
def ResetsTo (keys : List ThreadKey) (k : ThreadKey) (t : Tables) : Prop :=
  StatusAt k t ∧ UnreadIn keys k t

theorem stable_statusAt {db : SQLiteDB Tables} (h : db.Stable (ResetsTo keys k)) :
    db.Stable (StatusAt k) :=
  ⟨h.1.1, fun c hc => (h.2 c hc).1⟩

theorem triple_resetStatusLoop (keys : List ThreadKey) :
    Triple (Stable (ResetsTo keys k)) (resetStatusLoop keys) (fun _ => Stable (StatusAt k))
      (Stable (StatusAt k)) := by
  induction keys with
  | nil => exact Triple.pure fun _ h => stable_statusAt h
  | cons k' keys ih =>
    have hrest {t : Tables} (h : ResetsTo (k' :: keys) k t) : ResetsTo keys k t :=
      ⟨h.1, fun hk => h.2 (List.mem_cons_of_mem k' hk)⟩
    have hreset : Triple (Stable (ResetsTo (k' :: keys) k))
        (performQuery fun t : Tables => some (setStatus .noCache k' t))
        (fun _ => Stable (ResetsTo keys k)) (Stable (StatusAt k)) := by
      intro db hdb
      have hkept : db.Stable (ResetsTo keys k) := ⟨hrest hdb.1, fun c hc => hrest (hdb.2 c hc)⟩
      unfold performQuery
      by_cases hok : db.answers 0 = .ok
      · rw [if_pos hok]
        refine ⟨⟨?_, unreadIn_setStatus hkept.1.2⟩, hkept.2⟩
        by_cases hk : k = k'
        · subst hk
          refine statusAt_updateThread hdb.1.1 fun row hrow => .inr ?_
          exact ThreadInfo.statusOK_of_unread (hdb.1.2 List.mem_cons_self row hrow) (.inl rfl)
        · intro row hrow
          rw [setStatus, Tables.updateThread, Table.find_update_key, if_neg hk] at hrow
          exact hdb.1.1 row hrow
      · rw [if_neg hok]
        exact hkept.refused
    exact hreset.bind fun _ => ih

theorem unreadIn_newThreads (h : StatusAt k t) (query : ThreadKey → ThreadInfo → Bool) :
    UnreadIn (newThreads query t) k t := by
  intro hk row hrow
  simp only [newThreads, List.mem_map, List.mem_filter, Bool.and_eq_true, beq_iff_eq] at hk
  obtain ⟨⟨k', row'⟩, ⟨hmem, -, hnew⟩, rfl⟩ := hk
  obtain rfl : row' = row := Option.some.inj ((Table.find_eq_some.mpr hmem).symm.trans hrow)
  obtain hhead | hok := h row' hrow
  · rw [hnew] at hhead
    cases hhead
  · exact hok.noCache.mp (.inr hnew)

theorem keeps_resetNewStatus (query : ThreadKey → ThreadInfo → Bool) :
    Keeps (Stable (StatusAt k)) (resetNewStatus query) := by
  have hcommit : Keeps (Stable (StatusAt k)) (do let _ ← commitTransaction : Db Tables Unit) :=
    keeps_commitTransaction.bind fun _ => Keeps.pure
  refine triple_beginTransaction.bind (S := fun _ => Stable (StatusAt k)) fun b => ?_
  refine Triple.ite (fun hb => ?_) fun _ => Triple.pure fun _ h => h.1
  refine Triple.bind ((triple_cursorForSQL_begun (P := StatusAt k) (newThreads query)).imp
    (fun _ h => ⟨h.1, h.2 hb⟩) (fun _ _ h => h) fun _ h => h) fun r => ?_
  refine Triple.imp (P := Stable (ResetsTo (r.getD []) k)) ?_ (fun db hdb => ?_) (fun _ _ h => h)
    fun _ h => h
  · refine Triple.ite (fun _ => hcommit.imp (fun _ => stable_statusAt) (fun _ _ h => h) fun _ h =>
      h) fun _ => ?_
    refine keeps_reservedQuery.imp (P := Stable (ResetsTo (r.getD []) k))
      (T := Stable (StatusAt k)) (fun _ h => h) (fun _ _ h => h) (fun _ => stable_statusAt)
      |>.bind fun _ => Triple.ite (fun _ => ?_) fun _ => ?_
    · exact (triple_resetStatusLoop (r.getD [])).bind fun _ => hcommit
    · exact hcommit.imp (fun _ => stable_statusAt) (fun _ _ h => h) fun _ h => h
  · cases r with
    | none =>
      exact ⟨⟨hdb.1.1, fun hk => absurd hk List.not_mem_nil⟩,
        fun c hc => ⟨hdb.1.2 c hc, fun hk => absurd hk List.not_mem_nil⟩⟩
    | some keys =>
      obtain ⟨rfl, hsaved⟩ := hdb.2 keys rfl
      have hreset : ResetsTo (newThreads query db.contents) k db.contents :=
        ⟨hdb.1.1, unreadIn_newThreads hdb.1.1 query⟩
      exact ⟨hreset, fun c hc => Option.some.inj (hsaved.symm.trans hc) ▸ hreset⟩

theorem keeps_headModifiedLoop (threads : List ThreadKey) :
    Keeps (Stable (StatusAt k)) (headModifiedLoop threads) := by
  induction threads with
  | nil => exact keeps_commitTransaction.bind fun _ => Keeps.pure
  | cons k' threads ih =>
    exact keeps_checkIsInterrupted.bind fun _ => (keeps_update fun _ => .inl rfl).bind fun _ => ih

theorem keeps_updateHeadModified (threads : List ThreadKey) :
    Keeps (Stable (StatusAt k)) (updateHeadModified threads) :=
  Keeps.ite Keeps.pure <| keeps_beginTransaction.bind fun _ =>
    Keeps.ite (keeps_headModifiedLoop threads) Keeps.pure

end

-- Runs

inductive StatusOp where
  | updateTask (task : UpdateTask) (lines : List (Option SubjectLine))
  | insertThread (file : LogFile)
  | didUpdate (k : ThreadKey) (count : UInt32) (modDate : Int)
  | cleanUp (files : List ThreadKey)
  | resetNewStatus (query : ThreadKey → ThreadInfo → Bool)
  | updateHeadModified (threads : List ThreadKey)

namespace StatusOp

def exec : StatusOp → Db Tables Unit
  | .updateTask task lines => do let _ ← task.run lines
  | .insertThread file => do let _ ← Database.insertThread file
  | .didUpdate k count modDate => Database.didUpdate k count modDate
  | .cleanUp files => do let _ ← Database.cleanUp files
  | .resetNewStatus query => Database.resetNewStatus query
  | .updateHeadModified threads => Database.updateHeadModified threads

def step (db : SQLiteDB Tables) (op : StatusOp) : Option (SQLiteDB Tables) :=
  some (after op.exec db)

/-- No log without messages is registered, and no thread with a row is downloaded
without messages. -/
def Allowed (t : Tables) : StatusOp → Prop
  | .updateTask task _ => task.isRebuilding = true → ∀ file ∈ task.logFiles, file.count ≠ 0
  | .insertThread file => file.count ≠ 0
  | .didUpdate k count _ => count ≠ 0 ∨ t.threadInfo.find k = none
  | _ => True

theorem triple_exec (op : StatusOp) (k : ThreadKey) :
    Triple (fun db => db.Stable (StatusAt k) ∧ op.Allowed db.contents) op.exec
      (fun _ => Stable (StatusAt k)) (Stable (StatusAt k)) := by
  have hkeeps {α : Type} {x : Db Tables α} {A : Tables → Prop}
      (hx : ∀ t, A t → Keeps (Stable (StatusAt k)) x) :
      Triple (fun db => db.Stable (StatusAt k) ∧ A db.contents) (do let _ ← x : Db Tables Unit)
        (fun _ => Stable (StatusAt k)) (Stable (StatusAt k)) := fun db hdb =>
    (hx db.contents hdb.2).bind (fun _ => Keeps.pure) db hdb.1
  cases op with
  | updateTask task lines => exact hkeeps fun _ h => keeps_run lines h
  | insertThread file => exact hkeeps fun _ h => keeps_insertThread h
  | didUpdate k' count modDate =>
    refine triple_performQuery (A := fun t => Allowed t (.didUpdate k' count modDate))
      (fun t t' ht ha hstmt => ?_ : ∀ t t' : Tables, StatusAt k t → _ →
        some (t.updateThread k' (ThreadInfo.downloaded count modDate)) = some t' → StatusAt k t')
    obtain rfl := Option.some.inj hstmt
    refine statusAt_updateThread ht fun row hrow => .inr ?_
    obtain hcount | hnone := ha
    · exact ThreadInfo.statusOK_downloaded hcount modDate row
    · rw [hrow] at hnone
      cases hnone
  | cleanUp files => exact hkeeps (A := fun _ => True) fun _ _ => keeps_cleanUp files
  | resetNewStatus query => exact fun db hdb => keeps_resetNewStatus query db hdb.1
  | updateHeadModified threads => exact fun db hdb => keeps_updateHeadModified threads db hdb.1

/-- Along every run in which no log and no download without messages is written,
whatever SQLite answers and wherever a task is interrupted, a thread whose row
has the status of its counts, or which has no row yet, keeps it so. -/
theorem status_agrees (h : db.Stable (StatusAt k))
    (hguard : Run.Guarded step (fun db op => op.Allowed db.contents) db ops)
    (hrun : Run.run step db ops = some db') : db'.Stable (StatusAt k) := by
  refine Run.guarded_invariant (fun {s op s'} hs ha hstep => ?_) hguard hrun h
  obtain rfl := Option.some.inj hstep
  exact triple_after (op.triple_exec k) ⟨hs, ha⟩

theorem stable_empty : (idle Tables.empty e i).Stable (StatusAt k) :=
  ⟨fun _ h => (nomatch h), fun _ h => (nomatch h)⟩

/-- The empty tables, a subject list, its thread downloaded and listed again. -/
theorem status_agrees_listed :
    ∃ db, Run.run step (idle Tables.empty .ok fun _ => false)
        [.updateTask ⟨1, false, [], true, decimalValue⟩
          [some { datString := ns "10", title := [], count := 5 }],
          .didUpdate ⟨1, 10⟩ 5 0,
          .updateTask ⟨1, false, [], true, decimalValue⟩
            [some { datString := ns "10", title := [], count := 8 }]] =
        some db ∧
      (db.contents.threadInfo.find ⟨1, 10⟩).map ThreadInfo.threadStatus = some (some .updated) ∧
      db.Stable (StatusAt ⟨1, 10⟩) := by
  have hstatus : (Run.run step (idle Tables.empty .ok fun _ => false)
      [.updateTask ⟨1, false, [], true, decimalValue⟩
        [some { datString := ns "10", title := [], count := 5 }],
        .didUpdate ⟨1, 10⟩ 5 0,
        .updateTask ⟨1, false, [], true, decimalValue⟩
          [some { datString := ns "10", title := [], count := 8 }]]).map
        (fun db => (db.contents.threadInfo.find ⟨1, 10⟩).map ThreadInfo.threadStatus) =
      some (some (some .updated)) := by decide +kernel
  obtain ⟨db, hrun, hdb⟩ := Option.map_eq_some_iff.mp hstatus
  refine ⟨db, hrun, hdb, status_agrees stable_empty ?_ hrun⟩
  refine ⟨fun h => (nomatch h), fun _ _ => ⟨.inl (by decide), fun _ _ =>
    ⟨fun h => (nomatch h), ?_⟩⟩⟩
  exact fun _ _ => trivial

/-- A log file without messages is registered as cached. -/
theorem not_status_agrees : ¬ ∀ (k : ThreadKey) (db : SQLiteDB Tables) (ops : List StatusOp)
    (db' : SQLiteDB Tables), db.Stable (StatusAt k) → Run.run step db ops = some db' →
      StatusAt k db'.contents := by
  intro h
  have hrow : (Run.run step (idle Tables.empty .ok fun _ => false)
      [.insertThread ⟨⟨1, 10⟩, [], 0, 0, false⟩]).map
        (fun db => db.contents.threadInfo.find ⟨1, 10⟩) =
      some (some (LogFile.row ⟨⟨1, 10⟩, [], 0, 0, false⟩ false)) := by decide +kernel
  obtain ⟨db, hrun, hdb⟩ := Option.map_eq_some_iff.mp hrow
  obtain hhead | hok := h ⟨1, 10⟩ _ _ db stable_empty hrun _ hdb
  · cases hhead
  · obtain ⟨all, read, -, hread, hpos, -⟩ := hok.logCached.mp rfl
    cases hread
    exact absurd hpos (by decide)

end StatusOp

end BathyScaphe.Database
