import BathyScaphe.Lib.Run
import BathyScaphe.Database.UpdateTask

/-!
# Favorites

A favorite is a row of `Favorites` and a `ThreadInfo` row with `IsFavorite`; the
favorites list of the browser is read from the second. The two agree along every
run in which a favorite is appended only for a thread that has a row, and in
which neither the subject list update nor the deletion of a board's records takes
away the row of a favorite.
-/

namespace BathyScaphe.Database

open SQLiteDB

namespace Tables

def isListed (t : Tables) (k : ThreadKey) : Bool := (t.favorites.find k).isSome

/-- The thread is in the favorites list: its row exists and has `IsFavorite = 1`. -/
def isFavorite (t : Tables) (k : ThreadKey) : Bool :=
  ((t.threadInfo.find k).map ThreadInfo.isFavorite).getD false

def Agree (t : Tables) : Prop := ∀ k, t.isListed k = t.isFavorite k

theorem agree_empty : empty.Agree := fun _ => rfl

-- Statements

variable {t t' : Tables} {k k' : ThreadKey}

@[simp] theorem isListed_updateThread : (t.updateThread k' f).isListed k = t.isListed k := rfl

@[simp] theorem isListed_deleteThreads : (t.deleteThreads p).isListed k = t.isListed k := rfl

@[simp] theorem isListed_clearNumbers : (t.clearNumbers boardID).isListed k = t.isListed k := rfl

@[simp] theorem isFavorite_clearNumbers : (t.clearNumbers boardID).isFavorite k = t.isFavorite k :=
  rfl

@[simp] theorem isFavorite_deleteFavorite : (t.deleteFavorite k').isFavorite k = t.isFavorite k :=
  rfl

theorem isListed_deleteFavorite :
    (t.deleteFavorite k').isListed k = if k = k' then false else t.isListed k := by
  unfold isListed deleteFavorite
  rw [Table.find_delete_key]
  by_cases hk : k = k' <;> simp [hk]

theorem isFavorite_updateThread : (t.updateThread k' f).isFavorite k =
    if k = k' then ((t.threadInfo.find k).map fun row => (f row).isFavorite).getD false
    else t.isFavorite k := by
  unfold isFavorite updateThread
  rw [Table.find_update_key]
  by_cases hk : k = k' <;> simp [hk, Function.comp_def]

theorem isFavorite_updateThread_of_eq (hf : ∀ row, (f row).isFavorite = row.isFavorite) :
    (t.updateThread k' f).isFavorite k = t.isFavorite k := by
  rw [isFavorite_updateThread]
  simp only [hf]
  split <;> rfl

theorem isFavorite_insertThread (h : t.insertThread k' row = some t') :
    t'.isFavorite k = if k = k' then row.isFavorite else t.isFavorite k := by
  obtain ⟨rows, hrows, rfl⟩ := Option.map_eq_some_iff.mp h
  unfold isFavorite
  rw [Table.find_insert hrows]
  split <;> rfl

theorem isFavorite_insertFavorite (h : t.insertFavorite k' = some t') :
    t'.isFavorite k = t.isFavorite k := by
  obtain ⟨rows, -, rfl⟩ := Option.map_eq_some_iff.mp h
  rfl

theorem isListed_insertFavorite (h : t.insertFavorite k' = some t') :
    t'.isListed k = if k = k' then true else t.isListed k := by
  obtain ⟨rows, hrows, rfl⟩ := Option.map_eq_some_iff.mp h
  unfold isListed
  rw [Table.find_insert hrows]
  split <;> rfl

theorem isFavorite_of_find (h : t.threadInfo.find k = some row) :
    t.isFavorite k = row.isFavorite := by
  simp [isFavorite, h]

theorem isFavorite_of_find_none (h : t.threadInfo.find k = none) : t.isFavorite k = false := by
  simp [isFavorite, h]

theorem isFavorite_deleteThreads
    (h : ∀ k row, t.threadInfo.find k = some row → row.isFavorite = true → p k row = false) :
    (t.deleteThreads p).isFavorite k = t.isFavorite k := by
  unfold isFavorite deleteThreads
  rw [Table.find_delete]
  cases hfind : t.threadInfo.find k with
  | none => rfl
  | some row =>
    cases hrow : row.isFavorite with
    | true => simp [Option.filter, h k row hfind hrow, hrow]
    | false => cases hp : p k row <;> simp [Option.filter, hp, hrow]

-- Operations

theorem isListed_logged (file : LogFile) : (t.logged file).isListed k = t.isListed k := by
  unfold logged registered
  cases hfind : t.threadInfo.find file.key with
  | some row => rfl
  | none =>
    obtain ⟨rows, hrows⟩ := Table.insert_of_find_eq_none
      (r := file.row (t.favorites.find file.key).isSome) hfind
    simp [LogFile.statement, insertThread, hrows, isListed]

theorem isFavorite_logged (file : LogFile) : (t.logged file).isFavorite k =
    if k = file.key then t.isListed k else t.isFavorite k := by
  unfold logged registered
  cases hfind : t.threadInfo.find file.key with
  | some row =>
    simp only [Option.map_some, LogFile.statement, Option.getD_some, isFavorite_updateThread]
    by_cases hk : k = file.key
    · rw [if_pos hk, if_pos hk, hk, hfind]
      rfl
    · rw [if_neg hk, if_neg hk]
  | none =>
    obtain ⟨t', ht'⟩ : ∃ t', t.insertThread file.key
        (file.row (t.favorites.find file.key).isSome) = some t' := by
      obtain ⟨rows, hrows⟩ := Table.insert_of_find_eq_none
        (r := file.row (t.favorites.find file.key).isSome) hfind
      exact ⟨_, by rw [insertThread, hrows, Option.map_some]⟩
    simp only [Option.map_none, LogFile.statement, ht', Option.getD_some,
      isFavorite_insertThread ht']
    by_cases hk : k = file.key
    · rw [if_pos hk, if_pos hk, hk]
      rfl
    · rw [if_neg hk, if_neg hk]

theorem Agree.logged (h : t.Agree) (file : LogFile) : (t.logged file).Agree := by
  intro k
  rw [isListed_logged, isFavorite_logged]
  by_cases hk : k = file.key
  · rw [if_pos hk]
  · rw [if_neg hk, h k]

theorem Agree.isFavorite_logged (h : t.Agree) (file : LogFile) :
    (t.logged file).isFavorite k = t.isFavorite k := by
  rw [Tables.isFavorite_logged, h k]
  split <;> rfl

theorem Agree.foldl_logged (h : t.Agree) (files : List LogFile) :
    (files.foldl (fun t file => t.logged file) t).Agree ∧
      ∀ k, (files.foldl (fun t file => t.logged file) t).isFavorite k = t.isFavorite k := by
  induction files generalizing t with
  | nil => exact ⟨h, fun _ => rfl⟩
  | cons file files ih =>
    obtain ⟨hagree, hsame⟩ := ih (h.logged file)
    exact ⟨hagree, fun k => (hsame k).trans (h.isFavorite_logged file)⟩

theorem isFavorite_cleanUp :
    (t.cleanUp k').isFavorite k = if k = k' then false else t.isFavorite k := by
  unfold cleanUp
  rw [isFavorite_deleteFavorite, isFavorite_updateThread]
  by_cases hk : k = k'
  · rw [if_pos hk, if_pos hk]
    cases t.threadInfo.find k <;> rfl
  · rw [if_neg hk, if_neg hk]

theorem Agree.cleanUp (h : t.Agree) (k' : ThreadKey) : (t.cleanUp k').Agree := by
  intro k
  rw [isFavorite_cleanUp, Tables.cleanUp, isListed_deleteFavorite, isListed_updateThread, h k]

theorem Agree.foldl_cleanUp (h : t.Agree) (files : List ThreadKey) :
    (files.foldl Tables.cleanUp t).Agree ∧
      ∀ k ∉ files, (files.foldl Tables.cleanUp t).isFavorite k = t.isFavorite k := by
  induction files generalizing t with
  | nil => exact ⟨h, fun _ _ => rfl⟩
  | cons k' files ih =>
    obtain ⟨hagree, hsame⟩ := ih (h.cleanUp k')
    refine ⟨hagree, fun k hk => ?_⟩
    rw [List.mem_cons, not_or] at hk
    exact (hsame k hk.2).trans (by rw [isFavorite_cleanUp, if_neg hk.1])

variable {threadID : NSString → Nat}

theorem isFavorite_listLine (boardID index : UInt32) (line : SubjectLine) :
    (t.listLine threadID boardID index line).isFavorite k = t.isFavorite k := by
  have hrow : (t.listLine threadID boardID index line).isFavorite k =
    (t.listRow threadID boardID line).isFavorite k := by
    unfold isFavorite
    rw [threadInfo_listLine]
  rw [hrow]
  obtain ⟨hnone, hinsert⟩ | ⟨row, -, hupdate⟩ | ⟨row, -, hsame, -⟩ :=
    listRow_cases threadID t boardID line
  · rw [isFavorite_insertThread hinsert]
    by_cases hk : k = line.key threadID boardID
    · rw [if_pos hk, hk, isFavorite_of_find_none hnone]
      rfl
    · rw [if_neg hk]
  · rw [hupdate]
    exact isFavorite_updateThread_of_eq fun _ => rfl
  · rw [hsame]

theorem isListed_listLines (boardID : UInt32) (n : Nat) (lines : List (Option SubjectLine)) :
    (t.listLines threadID boardID n lines).isListed k = t.isListed k := by
  rw [isListed, favorites_listLines, isListed]

theorem isFavorite_listLines (boardID : UInt32) (n : Nat) (lines : List (Option SubjectLine)) :
    (t.listLines threadID boardID n lines).isFavorite k = t.isFavorite k := by
  induction lines generalizing n t with
  | nil => rfl
  | cons line lines ih =>
    cases line with
    | none => exact ih (n + 1)
    | some line => exact (ih (n + 1)).trans (isFavorite_listLine boardID _ line)

end Tables

-- Runs

inductive FavoriteOp where
  | append (k : ThreadKey)
  | remove (k : ThreadKey)
  | insertThread (file : LogFile)
  | updateTask (task : UpdateTask) (lines : List (Option SubjectLine))
  | deleteAllRecords (boardID : UInt32)
  | cleanUp (files : List ThreadKey)

namespace FavoriteOp

def exec : FavoriteOp → Db Tables Unit
  | .append k => do let _ ← appendFavorite k
  | .remove k => do let _ ← removeFavorite k
  | .insertThread file => do let _ ← Database.insertThread file
  | .updateTask task lines => do let _ ← task.run lines
  | .deleteAllRecords boardID => do let _ ← Database.deleteAllRecords boardID
  | .cleanUp files => do let _ ← Database.cleanUp files

def step (db : SQLiteDB Tables) (op : FavoriteOp) : Option (SQLiteDB Tables) :=
  some (after op.exec db)

def Names (task : UpdateTask) (lines : List (Option SubjectLine)) (k : ThreadKey) : Prop :=
  ∃ line, some line ∈ lines ∧ line.key task.threadID task.boardID = k

/-- A favorite is appended for a thread with a row, and no favorite is among the
rows that are deleted: a deletion of unused rows meets no favorite that was never
read and is not listed, and the records of a board go only without favorites. -/
def Allowed (t : Tables) : FavoriteOp → Prop
  | .append k => (t.threadInfo.find k).isSome
  | .updateTask task lines => task.isRebuilding = false → task.isDelete = true →
      ∀ k row, t.threadInfo.find k = some row → row.isFavorite = true →
        k.boardID = task.boardID → row.numberOfRead = none → Names task lines k
  | .deleteAllRecords boardID => ∀ k, k.boardID = boardID → t.isListed k = false
  | _ => True

def Removes : FavoriteOp → ThreadKey → Prop
  | .remove k, k' => k' = k
  | .cleanUp files, k' => k' ∈ files
  | _, _ => False

/-- What an operation does to the tables when every statement succeeds. -/
def Effect (t : Tables) : FavoriteOp → Tables → Prop
  | .append k, t' =>
    t' = ((t.updateThread k ({ · with isFavorite := true })).insertFavorite k).getD t
  | .remove k, t' => t' = (t.updateThread k ({ · with isFavorite := false })).deleteFavorite k
  | .insertThread file, t' => t' = t.logged file
  | .updateTask task lines, t' => t' = t ∨ t' = task.updated lines t
  | .deleteAllRecords boardID, t' => t' = t.deleteThreads fun k _ => k.boardID == boardID
  | .cleanUp files, t' => t' = files.foldl Tables.cleanUp t

theorem step_of_ok {x : Db Tables α} {op : FavoriteOp} (hexec : op.exec = do let _ ← x)
    (h : x db = .ok a db') : step db op = some db' := by
  simp [step, after, hexec, h]

theorem step_idle (op : FavoriteOp) (t : Tables) (e : Code) (i : Nat → Bool) :
    ∃ t' e' i', step (idle t e i) op = some (idle t' e' i') ∧ op.Effect t t' := by
  cases op with
  | append k =>
    obtain ⟨b, h⟩ : ∃ b, appendFavorite k (idle t e i) = .ok b _ := changeFavorite_idle _
    exact ⟨_, _, _, step_of_ok rfl h, rfl⟩
  | remove k =>
    obtain ⟨b, h⟩ : ∃ b, removeFavorite k (idle t e i) = .ok b _ := changeFavorite_idle _
    exact ⟨_, _, _, step_of_ok rfl h, rfl⟩
  | insertThread file =>
    obtain ⟨b, e', h⟩ : ∃ b e', Database.insertThread file (idle t e i) =
      .ok b (idle (t.logged file) e' i) := insertThread_idle file
    exact ⟨_, _, _, step_of_ok rfl h, rfl⟩
  | updateTask task lines =>
    obtain ⟨b, t', e', i', h, ht'⟩ : ∃ b t' e' i', task.run lines (idle t e i) =
      .ok b (idle t' e' i') ∧ (t' = t ∨ t' = task.updated lines t) := task.run_idle lines
    exact ⟨_, _, _, step_of_ok rfl h, ht'⟩
  | deleteAllRecords boardID => exact ⟨_, _, _, step_of_ok rfl (deleteAllRecords_idle boardID), rfl⟩
  | cleanUp files => exact ⟨_, _, _, step_of_ok rfl (cleanUp_idle files), rfl⟩

-- One step

theorem isUnused_listLines (ha : Allowed t (.updateTask task lines))
    (hr : task.isRebuilding = false) (hd : task.isDelete = true) :
    let t₁ := task.listed lines t
    ∀ k row, t₁.threadInfo.find k = some row → row.isFavorite = true →
      isUnused task.threadID task.boardID t₁ k row = false := by
  intro t₁ k row hrow hfavorite
  have ht : t.isFavorite k = true := by
    rw [← Tables.isFavorite_of_find hrow] at hfavorite
    exact (Tables.isFavorite_listLines (t := t.clearNumbers task.boardID) task.boardID 0
      lines).symm.trans hfavorite
  obtain ⟨row₀, hrow₀, hfavorite₀⟩ : ∃ row₀, t.threadInfo.find k = some row₀ ∧
      row₀.isFavorite = true := by
    cases hfind : t.threadInfo.find k with
    | none => simp [Tables.isFavorite_of_find_none hfind] at ht
    | some row₀ => exact ⟨row₀, rfl, (Tables.isFavorite_of_find hfind).symm.trans ht⟩
  obtain ⟨all, status, hrow'⟩ := find_threadInfo_listLines task.threadID
    (t.clearNumbers task.boardID) task.boardID 0 lines hrow₀
  obtain rfl : row = row₀.relisted all status := Option.some.inj (hrow.symm.trans hrow')
  by_contra hunused
  simp only [isUnused, Bool.not_eq_false, Bool.and_eq_true, beq_iff_eq, Option.isNone_iff_eq_none]
    at hunused
  obtain ⟨⟨hboard, hread⟩, hnumber⟩ := hunused
  rw [(task.isNumbered_listed lines hboard).mpr (ha hr hd k row₀ hrow₀ hfavorite₀ hboard hread)]
    at hnumber
  cases hnumber

theorem updated_spec (h : t.Agree) (ha : Allowed t (.updateTask task lines)) :
    (task.updated lines t).Agree ∧ ∀ k, (task.updated lines t).isFavorite k = t.isFavorite k := by
  let t₁ := task.listed lines t
  have hfavorite (k : ThreadKey) : t₁.isFavorite k = t.isFavorite k :=
    Tables.isFavorite_listLines task.boardID 0 lines
  have hlisted (k : ThreadKey) : t₁.isListed k = t.isListed k :=
    Tables.isListed_listLines task.boardID 0 lines
  have hagree : t₁.Agree := fun k => by rw [hlisted, hfavorite, h k]
  suffices hfinish : (task.finished t₁).Agree ∧
      ∀ k, (task.finished t₁).isFavorite k = t₁.isFavorite k from
    ⟨hfinish.1, fun k => (hfinish.2 k).trans (hfavorite k)⟩
  unfold UpdateTask.finished
  cases hr : task.isRebuilding with
  | true => exact hagree.foldl_logged task.logFiles
  | false =>
    cases hd : task.isDelete with
    | false => exact ⟨hagree, fun _ => rfl⟩
    | true =>
      have hsame (k : ThreadKey) :
        (t₁.deleteThreads (isUnused task.threadID task.boardID t₁)).isFavorite k =
          t₁.isFavorite k := Tables.isFavorite_deleteThreads (isUnused_listLines ha hr hd)
      exact ⟨fun k => (hagree k).trans (hsame k).symm, hsame⟩

theorem effect_spec (h : t.Agree) (ha : Allowed t op) (heffect : Effect t op t') :
    t'.Agree ∧ ∀ k, ¬ op.Removes k → t.isFavorite k = true → t'.isFavorite k = true := by
  cases op with
  | append k' =>
    obtain ⟨row, hrow⟩ := Option.isSome_iff_exists.mp ha
    have hfavorite (k : ThreadKey) :
      (t.updateThread k' ({ · with isFavorite := true })).isFavorite k =
        if k = k' then true else t.isFavorite k := by
      rw [Tables.isFavorite_updateThread]
      by_cases hk : k = k'
      · rw [if_pos hk, if_pos hk, hk, hrow]
        rfl
      · rw [if_neg hk, if_neg hk]
    cases hinsert : (t.updateThread k' ({ · with isFavorite := true })).insertFavorite k' with
    | none =>
      rw [Effect, hinsert, Option.getD_none] at heffect
      subst heffect
      exact ⟨h, fun _ _ hk => hk⟩
    | some t'' =>
      rw [Effect, hinsert, Option.getD_some] at heffect
      subst heffect
      have hsame (k : ThreadKey) : t'.isFavorite k = if k = k' then true else t.isFavorite k :=
        (Tables.isFavorite_insertFavorite hinsert).trans (hfavorite k)
      refine ⟨fun k => ?_, fun k _ hk => ?_⟩
      · rw [hsame, Tables.isListed_insertFavorite hinsert, Tables.isListed_updateThread, h k]
      · rw [hsame]
        split
        · rfl
        · exact hk
  | remove k' =>
    obtain rfl := heffect
    have hfavorite (k : ThreadKey) :
      ((t.updateThread k' ({ · with isFavorite := false })).deleteFavorite
        k').isFavorite k = if k = k' then false else t.isFavorite k := by
      rw [Tables.isFavorite_deleteFavorite, Tables.isFavorite_updateThread]
      split
      · cases t.threadInfo.find k <;> rfl
      · rfl
    refine ⟨fun k => ?_, fun k hk hfav => ?_⟩
    · rw [hfavorite, Tables.isListed_deleteFavorite, Tables.isListed_updateThread, h k]
    · rw [hfavorite, if_neg (show k ≠ k' from hk), hfav]
  | insertThread file =>
    obtain rfl := heffect
    exact ⟨h.logged file, fun k _ hk => (h.isFavorite_logged file).trans hk⟩
  | updateTask task lines =>
    obtain rfl | rfl := heffect
    · exact ⟨h, fun _ _ hk => hk⟩
    · obtain ⟨hagree, hsame⟩ := updated_spec h ha
      exact ⟨hagree, fun k _ hk => (hsame k).trans hk⟩
  | deleteAllRecords boardID =>
    obtain rfl := heffect
    have hsame (k : ThreadKey) : (t.deleteThreads fun k _ => k.boardID == boardID).isFavorite k =
        t.isFavorite k := by
      refine Tables.isFavorite_deleteThreads fun k row hrow hfav => ?_
      have hlisted : t.isListed k = true :=
        (h k).trans ((Tables.isFavorite_of_find hrow).trans hfav)
      by_contra hboard
      rw [Bool.not_eq_false, beq_iff_eq] at hboard
      simp [ha k hboard] at hlisted
    exact ⟨fun k => (h k).trans (hsame k).symm, fun k _ hk => (hsame k).trans hk⟩
  | cleanUp files =>
    obtain rfl := heffect
    obtain ⟨hagree, hsame⟩ := h.foldl_cleanUp files
    exact ⟨hagree, fun k hk hfav => (hsame k hk).trans hfav⟩

end FavoriteOp

end BathyScaphe.Database
