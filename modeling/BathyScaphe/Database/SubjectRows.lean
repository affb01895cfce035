import BathyScaphe.Database.SubjectText
import Mathlib.Data.List.ReduceOption

/-!
# The rows of the listed threads

What the lines of a subject list make of the row of a thread, one after the other,
and after them the log files of a rebuilding task. Two lines can name one row: the
column `ThreadID` of a row is a number, that of a thread number is a text.
-/

namespace BathyScaphe.Database

/-- The row is left alone, since its number and its status read as what they would be
set to. -/
def IsKept (row : ThreadInfo) (count : UInt32) : Prop :=
  columnValue row.numberOfAll = count ∧
    row.threadStatus.getD .standard = listedStatus count (columnValue row.numberOfRead)

instance (row : ThreadInfo) (count : UInt32) : Decidable (IsKept row count) := instDecidableAnd

def SubjectLine.listedRow (line : SubjectLine) : Option ThreadInfo → ThreadInfo
  | none => line.newRow
  | some row =>
    if IsKept row line.count then row
    else row.relisted line.count (some (listedStatus line.count (columnValue row.numberOfRead)))

def LogFile.loggedRow (file : LogFile) (isFavorite : Bool) : Option ThreadInfo → ThreadInfo
  | none => file.row isFavorite
  | some row => file.update isFavorite (columnValue row.numberOfAll) row

def listedRows (named : List SubjectLine) (row : Option ThreadInfo) : Option ThreadInfo :=
  named.foldl (fun row line => some (line.listedRow row)) row

def loggedRows (files : List LogFile) (isFavorite : Bool) (row : Option ThreadInfo) :
    Option ThreadInfo :=
  files.foldl (fun row file => some (file.loggedRow isFavorite row)) row

/-- The number in the row: that of the last line, unless all lines leave the row alone. -/
def listedNumber (named : List SubjectLine) : Option ThreadInfo → Option UInt32
  | none => named.getLast?.map SubjectLine.count
  | some row =>
    if ∀ line ∈ named, IsKept row line.count then row.numberOfAll
    else named.getLast?.map SubjectLine.count

/-- The larger of the number in the row and the number of messages, for each log file. -/
def loggedNumber (files : List LogFile) (number : Option UInt32) : Option UInt32 :=
  files.foldl (fun number file =>
    some (if columnValue number < file.count then file.count else columnValue number)) number

namespace UpdateTask

def naming (task : UpdateTask) (k : ThreadKey) (lines : List (Option SubjectLine)) :
    List SubjectLine :=
  lines.reduceOption.filter fun line => line.key task.threadID task.boardID = k

def logging (task : UpdateTask) (k : ThreadKey) : List LogFile :=
  if task.isRebuilding then task.logFiles.filter fun file => file.key = k else []

end UpdateTask

-- Lines

section
variable {t : Tables} {lines : List (Option SubjectLine)} {task : UpdateTask}

theorem columnValue_count (line : SubjectLine) : columnValue (some line.count) = line.count := by
  rw [columnValue, Option.map_some, Option.getD_some, intValue, if_pos line.count_le]

theorem listedNumber_of_numberOfAll {row : ThreadInfo} {line : SubjectLine}
    (named : List SubjectLine)
    (h : row.numberOfAll = some line.count) :
    listedNumber named (some row) = (line :: named).getLast?.map SubjectLine.count := by
  rw [listedNumber, List.getLast?_cons]
  by_cases hkept : ∀ line' ∈ named, IsKept row line'.count
  · rw [if_pos hkept, h]
    cases hlast : named.getLast? with
    | none => rfl
    | some last =>
      have hcount := (hkept last (List.mem_of_getLast? hlast)).1
      rw [h, columnValue_count] at hcount
      simp [hcount]
  · rw [if_neg hkept]
    cases hlast : named.getLast? with
    | none =>
      obtain rfl := List.getLast?_eq_none_iff.mp hlast
      simp at hkept
    | some last => rfl

theorem listedRows_some (named : List SubjectLine) (row : ThreadInfo) :
    ∃ row', listedRows named (some row) = some row' ∧ row'.threadName = row.threadName ∧
      row'.numberOfAll = listedNumber named (some row) := by
  induction named generalizing row with
  | nil => exact ⟨row, rfl, rfl, by simp [listedNumber]⟩
  | cons line named ih =>
    obtain ⟨row', hrow', hname, hnumber⟩ := ih (line.listedRow (some row))
    by_cases hkept : IsKept row line.count
    · have heq : line.listedRow (some row) = row := by rw [SubjectLine.listedRow, if_pos hkept]
      rw [heq] at hname hnumber
      refine ⟨row', hrow', hname, hnumber.trans ?_⟩
      simp only [listedNumber, List.forall_mem_cons, hkept, true_and]
      by_cases hall : ∀ line ∈ named, IsKept row line.count
      · rw [if_pos hall, if_pos hall]
      · have hne : named ≠ [] := by
          rintro rfl
          simp at hall
        rw [if_neg hall, if_neg hall, List.getLast?_cons_of_ne_nil hne]
    · have heq : line.listedRow (some row) = row.relisted line.count
          (some (listedStatus line.count (columnValue row.numberOfRead))) := by
        rw [SubjectLine.listedRow, if_neg hkept]
      rw [heq] at hname hnumber
      refine ⟨row', hrow', hname, hnumber.trans ?_⟩
      rw [listedNumber_of_numberOfAll named rfl, listedNumber, if_neg]
      exact fun hall => hkept (hall line List.mem_cons_self)

theorem listedRows_none (line : SubjectLine) (named : List SubjectLine) :
    ∃ row', listedRows (line :: named) none = some row' ∧ row'.threadName = line.title ∧
      row'.numberOfAll = listedNumber (line :: named) none := by
  obtain ⟨row', hrow', hname, hnumber⟩ := listedRows_some named line.newRow
  exact ⟨row', hrow', hname, hnumber.trans (listedNumber_of_numberOfAll named rfl)⟩

theorem find_listRow_eq (threadID : NSString → Nat) (boardID : UInt32) (line : SubjectLine)
    (k : ThreadKey) : (t.listRow threadID boardID line).threadInfo.find k =
      if k = line.key threadID boardID then some (line.listedRow (t.threadInfo.find k))
      else t.threadInfo.find k := by
  unfold Tables.listRow lineStatement
  dsimp only
  cases hrow : t.threadInfo.find (line.key threadID boardID) with
  | none =>
    obtain ⟨rows, hrows⟩ := Table.insert_of_find_eq_none (r := line.newRow) hrow
    simp only [Option.bind_some, Tables.insertThread, hrows, Option.map_some, Option.getD_some]
    rw [Table.find_insert hrows]
    by_cases hk : k = line.key threadID boardID
    · rw [if_pos hk, if_pos hk, hk, hrow, SubjectLine.listedRow]
    · rw [if_neg hk, if_neg hk]
  | some row =>
    by_cases hkept : IsKept row line.count
    · simp only [hkept.1, hkept.2, ne_eq, not_true_eq_false, or_self, if_false, Option.bind_none,
        Option.getD_none]
      by_cases hk : k = line.key threadID boardID
      · rw [if_pos hk, hk, hrow, SubjectLine.listedRow, if_pos hkept]
      · rw [if_neg hk]
    · have hchanged : columnValue row.numberOfAll ≠ line.count ∨
          row.threadStatus.getD .standard ≠ listedStatus line.count
            (columnValue row.numberOfRead) :=
        not_and_or.mp hkept
      simp only [if_pos hchanged, Option.bind_some, Option.getD_some]
      rw [Tables.updateThread, Table.find_update_key]
      by_cases hk : k = line.key threadID boardID
      · rw [if_pos hk, if_pos hk, hk, hrow, Option.map_some, SubjectLine.listedRow, if_neg hkept]
      · rw [if_neg hk, if_neg hk]

theorem find_listLines_eq (n : Nat) (k : ThreadKey) :
    (t.listLines task.threadID task.boardID n lines).threadInfo.find k =
      listedRows (task.naming k lines) (t.threadInfo.find k) := by
  induction lines generalizing n t with
  | nil => rfl
  | cons line lines ih =>
    cases line with
    | none => exact ih (n + 1)
    | some line =>
      have hnaming : task.naming k (some line :: lines) =
          if line.key task.threadID task.boardID = k then line :: task.naming k lines
          else task.naming k lines := by
        simp [UpdateTask.naming, List.filter_cons]
      rw [Tables.listLines, ih, threadInfo_listLine, find_listRow_eq, hnaming]
      by_cases hk : k = line.key task.threadID task.boardID
      · rw [if_pos hk, if_pos hk.symm]
        rfl
      · rw [if_neg hk, if_neg (Ne.symm hk)]

theorem UpdateTask.find_threadInfo_listed (k : ThreadKey) :
    (task.listed lines t).threadInfo.find k =
      listedRows (task.naming k lines) (t.threadInfo.find k) := find_listLines_eq 0 k

theorem UpdateTask.mem_naming {k : ThreadKey} {line : SubjectLine} :
    line ∈ task.naming k lines ↔ some line ∈ lines ∧ line.key task.threadID task.boardID = k := by
  simp [UpdateTask.naming, List.reduceOption_mem_iff]

theorem UpdateTask.naming_eq_nil {k : ThreadKey} (hk : k.boardID ≠ task.boardID) :
    task.naming k lines = [] := by
  refine List.eq_nil_iff_forall_not_mem.mpr fun line hline => hk ?_
  rw [← (UpdateTask.mem_naming.mp hline).2]
  rfl

end

-- Log files

section
variable {t : Tables} {files : List LogFile}

theorem logged_eq (file : LogFile) : ∃ rows, t.logged file = { t with threadInfo := rows } := by
  unfold Tables.logged LogFile.statement
  cases t.registered file.key with
  | some number => exact ⟨_, rfl⟩
  | none =>
    cases h : t.insertThread file.key (file.row (t.favorites.find file.key).isSome) with
    | none => exact ⟨t.threadInfo, by simp [h]⟩
    | some t' =>
      obtain ⟨rows, -, rfl⟩ := Option.map_eq_some_iff.mp h
      exact ⟨rows, by simp [h]⟩

theorem foldl_logged_eq (files : List LogFile) (t : Tables) :
    ∃ rows, files.foldl (fun t file => t.logged file) t = { t with threadInfo := rows } := by
  induction files generalizing t with
  | nil => exact ⟨t.threadInfo, rfl⟩
  | cons file files ih =>
    obtain ⟨rows, hrows⟩ := logged_eq (t := t) file
    obtain ⟨rows', hrows'⟩ := ih (t.logged file)
    exact ⟨rows', by rw [List.foldl_cons, hrows', hrows]⟩

theorem find_logged (file : LogFile) (k : ThreadKey) : (t.logged file).threadInfo.find k =
    if file.key = k then some (file.loggedRow (t.favorites.find k).isSome (t.threadInfo.find k))
    else t.threadInfo.find k := by
  unfold Tables.logged Tables.registered LogFile.statement
  cases hrow : t.threadInfo.find file.key with
  | none =>
    obtain ⟨rows, hrows⟩ := Table.insert_of_find_eq_none
      (r := file.row (t.favorites.find file.key).isSome) hrow
    simp only [Option.map_none, Tables.insertThread, hrows, Option.map_some, Option.getD_some]
    rw [Table.find_insert hrows]
    by_cases hk : file.key = k
    · rw [if_pos hk.symm, if_pos hk, ← hk, hrow, LogFile.loggedRow]
    · rw [if_neg (Ne.symm hk), if_neg hk]
  | some row =>
    simp only [Option.map_some, Option.getD_some]
    rw [Tables.updateThread, Table.find_update_key]
    by_cases hk : file.key = k
    · rw [if_pos hk.symm, if_pos hk, ← hk, hrow, Option.map_some, LogFile.loggedRow]
    · rw [if_neg (Ne.symm hk), if_neg hk]

theorem find_foldl_logged (files : List LogFile) (t : Tables) (k : ThreadKey) :
    (files.foldl (fun t file => t.logged file) t).threadInfo.find k =
      loggedRows (files.filter fun file => file.key = k) (t.favorites.find k).isSome
        (t.threadInfo.find k) := by
  induction files generalizing t with
  | nil => rfl
  | cons file files ih =>
    obtain ⟨rows, hrows⟩ := logged_eq (t := t) file
    have hfavorites : (t.logged file).favorites = t.favorites := by rw [hrows]
    rw [List.foldl_cons, ih, hfavorites, find_logged, List.filter_cons]
    by_cases hk : file.key = k
    · rw [if_pos hk, if_pos (by simp [hk])]
      rfl
    · rw [if_neg hk, if_neg (by simp [hk])]

theorem isSome_loggedRows (files : List LogFile) (isFavorite : Bool) {row : Option ThreadInfo}
    (h : files ≠ [] ∨ row.isSome) : (loggedRows files isFavorite row).isSome := by
  induction files generalizing row with
  | nil => exact h.resolve_left fun hne => hne rfl
  | cons file files ih => exact ih (.inr rfl)

theorem loggedRows_some (files : List LogFile) (isFavorite : Bool) (row : ThreadInfo) :
    ∃ row', loggedRows files isFavorite (some row) = some row' ∧ row'.threadName = row.threadName ∧
      row'.numberOfAll = loggedNumber files row.numberOfAll := by
  induction files generalizing row with
  | nil => exact ⟨row, rfl, rfl, rfl⟩
  | cons file files ih =>
    obtain ⟨row', hrow', hname, hnumber⟩ := ih (file.loggedRow isFavorite (some row))
    exact ⟨row', hrow', hname, hnumber⟩

theorem keys_foldl_logged (h : ∀ file ∈ files, (t.threadInfo.find file.key).isSome) :
    (files.foldl (fun t file => t.logged file) t).threadInfo.rows.map Prod.fst =
      t.threadInfo.rows.map Prod.fst := by
  induction files generalizing t with
  | nil => rfl
  | cons file files ih =>
    obtain ⟨row, hrow⟩ := Option.isSome_iff_exists.mp (h file List.mem_cons_self)
    have hkeys : (t.logged file).threadInfo.rows.map Prod.fst = t.threadInfo.rows.map Prod.fst := by
      simp [Tables.logged, Tables.registered, LogFile.statement, hrow, Tables.updateThread,
        Table.update]
    rw [List.foldl_cons, ih, hkeys]
    intro file' hfile'
    rw [find_logged]
    split
    · rfl
    · exact h file' (List.mem_cons_of_mem _ hfile')

/-- Log files leave the tables as they are if and only if the rows they are registered
in have what they say already. -/
theorem foldl_logged_eq_self : files.foldl (fun t file => t.logged file) t = t ↔
    ∀ k, loggedRows (files.filter fun file => file.key = k) (t.favorites.find k).isSome
      (t.threadInfo.find k) = t.threadInfo.find k := by
  constructor
  · intro h k
    rw [← find_foldl_logged, h]
  · intro h
    have hknown : ∀ file ∈ files, (t.threadInfo.find file.key).isSome := by
      intro file hfile
      rw [← h file.key]
      refine isSome_loggedRows _ _ (.inl (List.ne_nil_of_mem (a := file) ?_))
      simp [hfile]
    obtain ⟨rows, hrows⟩ := foldl_logged_eq files t
    have hkeys := keys_foldl_logged hknown
    have hfind := find_foldl_logged files t
    rw [hrows] at hkeys hfind ⊢
    have hsame : rows = t.threadInfo := Table.eq_of_find hkeys fun k => (hfind k).trans (h k)
    rw [hsame]

end

-- The tables after the task

section
variable {t : Tables} {lines : List (Option SubjectLine)} {task : UpdateTask}

namespace UpdateTask

theorem find_updated (k : ThreadKey)
    (h : ∀ row, (task.listed lines t).threadInfo.find k = some row →
      isUnused task.threadID task.boardID (task.listed lines t) k row = false) :
    (task.updated lines t).threadInfo.find k =
      loggedRows (task.logging k) (t.favorites.find k).isSome
        (listedRows (task.naming k lines) (t.threadInfo.find k)) := by
  rw [← find_threadInfo_listed]
  unfold updated finished logging
  by_cases hr : task.isRebuilding = true
  · have hfavorites : (task.listed lines t).favorites = t.favorites :=
      favorites_listLines task.boardID 0 lines
    rw [if_pos hr, if_pos hr, find_foldl_logged, hfavorites]
  · rw [if_neg hr, if_neg hr]
    by_cases hd : task.isDelete = true
    · rw [if_pos hd, Tables.deleteThreads, Table.find_delete]
      cases hrow : (task.listed lines t).threadInfo.find k with
      | none => rfl
      | some row => simp [h row hrow, loggedRows]
    · rw [if_neg hd]
      rfl

theorem find_updated_of_named {k : ThreadKey} (hk : task.naming k lines ≠ []) :
    (task.updated lines t).threadInfo.find k =
      loggedRows (task.logging k) (t.favorites.find k).isSome
        (listedRows (task.naming k lines) (t.threadInfo.find k)) := by
  refine task.find_updated k fun row _ => ?_
  obtain ⟨line, hline⟩ := List.exists_mem_of_ne_nil _ hk
  obtain ⟨hlines, hkey⟩ := mem_naming.mp hline
  have hboard : k.boardID = task.boardID := by
    rw [← hkey]
    rfl
  have hnumbered := (task.isNumbered_listed (t := t) lines hboard).mpr ⟨line, hlines, hkey⟩
  simp [isUnused, hnumbered]

theorem find_updated_of_ne {k : ThreadKey} (hk : k.boardID ≠ task.boardID) :
    (task.updated lines t).threadInfo.find k =
      loggedRows (task.logging k) (t.favorites.find k).isSome (t.threadInfo.find k) := by
  rw [task.find_updated k fun row _ => by simp [isUnused, hk], naming_eq_nil hk]
  rfl

theorem isSome_find_updated {k : ThreadKey} {row : ThreadInfo}
    (hrow : t.threadInfo.find k = some row)
    (hread : row.numberOfRead.isSome) : ((task.updated lines t).threadInfo.find k).isSome := by
  rw [task.find_updated k fun row' hrow' => ?_]
  · obtain ⟨row', hrow', -⟩ := listedRows_some (task.naming k lines) row
    exact isSome_loggedRows _ _ (.inr (by rw [hrow, hrow']; rfl))
  · obtain ⟨all, status, hlisted⟩ := find_threadInfo_listLines task.threadID
      (t.clearNumbers task.boardID) task.boardID 0 lines hrow
    obtain rfl := Option.some.inj (hrow'.symm.trans hlisted)
    have hsome : (row.relisted all status).numberOfRead.isNone = false :=
      Option.isNone_eq_false_iff.mpr hread
    simp [isUnused, hsome]

theorem tempThreadNumber_updated (k : NumberKey) : (task.updated lines t).tempThreadNumber.find k =
    if k.boardID = task.boardID then positionOf k.threadID 0 lines
    else t.tempThreadNumber.find k := by
  rw [← find_listed]
  unfold updated finished
  by_cases hr : task.isRebuilding = true
  · obtain ⟨rows, hrows⟩ := foldl_logged_eq task.logFiles (task.listed lines t)
    rw [if_pos hr, hrows]
  · by_cases hd : task.isDelete = true <;> simp [hr, hd, Tables.deleteThreads]

end UpdateTask

theorem positionOf_eq_some {datString : NSString} {n : Nat} {m : UInt32}
    (h : positionOf datString n lines = some m) :
    ∃ i line, lines[i]? = some (some line) ∧ line.datString = datString ∧
      m = UInt32.ofNat (n + i) + 1 := by
  induction lines generalizing n with
  | nil => cases h
  | cons first lines ih =>
    have hlater (h : positionOf datString (n + 1) lines = some m) :
        ∃ i line, (first :: lines)[i]? = some (some line) ∧ line.datString = datString ∧
          m = UInt32.ofNat (n + i) + 1 := by
      obtain ⟨i, line, hi, hid, hm⟩ := ih h
      exact ⟨i + 1, line, hi, hid, by rw [hm, Nat.add_right_comm, Nat.add_assoc]⟩
    cases first with
    | none => exact hlater h
    | some first =>
      rw [positionOf] at h
      by_cases hid : first.datString = datString
      · rw [if_pos hid] at h
        exact ⟨0, first, rfl, hid, (Option.some.inj h).symm⟩
      · rw [if_neg hid] at h
        exact hlater h

end

end BathyScaphe.Database
