import BathyScaphe.Boards.ListFile

/-!
# Board lists that survive writing and loading

Loading resolves the boards of a list one after another, each against the
database that the boards before it left behind. The list comes back as it was
when every board is resolved to a row that shows its URL and its represented name
and that no later board takes over.
-/

namespace BathyScaphe.Boards

open Database SQLiteDB

variable (isURL : NSString → Bool) (floatValue : Decimal → ℚ)

/-- The database of the boards and the cache of names found in it. Rows of boards
are never deleted, so that a number in the history or in the cache has a row. -/
structure Catalog where
  tables : BoardTables
  cache : NameCache
  history_known : ∀ h ∈ tables.boardInfoHistory, (tables.boardInfo.find h.boardID).isSome
  cache_known : ∀ name ids, cache.lookup name = some ids →
    ∀ boardID ∈ ids, (tables.boardInfo.find boardID).isSome

/-- What a list shows of a board: `urlStringForBoardID:` and `nameForBoardID:`. -/
structure Shown where
  url : Option NSString
  name : Option NSString

def shownBoard (t : BoardTables) (boardID : Nat) : Shown :=
  if boardID = 0 then ⟨none, none⟩
  else ⟨((t.boardInfo.find boardID).map (·.boardURL)).filter isURL,
    (t.boardInfo.find boardID).map (·.boardName)⟩

def SavedBoard.shown (b : SavedBoard) : Shown := ⟨some b.url, some b.shownName⟩

namespace Tree

variable {β β' γ γ' : Type}

/-- The list without the favorites item, with boards and conditions read by `f`
and `g`. -/
def shape (f : β → β') (g : γ → γ') : List (Tree β γ) → List (Tree β' γ')
  | [] => []
  | .board b :: rest => .board (f b) :: shape f g rest
  | .smart name condition :: rest => .smart name (g condition) :: shape f g rest
  | .favorites :: rest => shape f g rest
  | .folder name items :: rest => .folder name (shape f g items) :: shape f g rest

def boards : List (Tree β γ) → List β
  | [] => []
  | .board b :: rest => b :: boards rest
  | .folder _ items :: rest => boards items ++ boards rest
  | _ :: rest => boards rest

def NoTop : List (Tree β γ) → Prop
  | [] => True
  | .folder name items :: rest => name ≠ topName ∧ NoTop items ∧ NoTop rest
  | _ :: rest => NoTop rest

theorem length_shape_le (f : β → β') (g : γ → γ') (items : List (Tree β γ)) :
    (shape f g items).length ≤ items.length := by
  induction items with
  | nil => simp [shape]
  | cons item rest ih => cases item <;> simp only [shape, List.length_cons] <;> omega

end Tree

/-- Writing the list and loading it against the catalog gives it back. -/
def RoundTrips (t : Tables) (catalog : Catalog) (code : Code) (interruptions : Nat → Bool)
    (items : List (Tree SavedBoard (Smart.Built floatValue))) : Prop :=
  ∃ loaded cache db,
    initWithContentsOfFile isURL floatValue catalog.cache
      (itemsWithoutFavoriteItem floatValue items)
      (idle { t with boards := catalog.tables } code interruptions) = .ok (loaded, cache) db ∧
    Tree.shape (shownBoard isURL db.contents.boards) id loaded =
      Tree.shape SavedBoard.shown Subtype.val items

-- One board

/-- The board tables and the cache while a file is loaded. -/
abbrev Loading := BoardTables × NameCache

def namesFor (s : Loading) (name : NSString) : List Nat × NameCache :=
  match s.2.lookup name with
  | some ids => (ids, s.2)
  | none =>
    let ids := if s.1.idsLikeName name ≠ [] then s.1.idsLikeName name
      else s.1.historyIDsLikeName name
    (ids, if ids ≠ [] then (name, ids) :: s.2 else s.2)

/-- The tables after `moveBoardID:toURLString:` to a URL that no board has. -/
def moved (t : BoardTables) (boardID : Nat) (url : NSString) : BoardTables :=
  if url = [] then t
  else
    let history := ⟨boardID, none, some ((shownBoard isURL t boardID).url.getD nullText)⟩
    { (t.addHistory history) with
      boardInfo := t.boardInfo.update (fun k _ => k == boardID) ({ · with boardURL := url }) }

def resolve (s : Loading) (b : SavedBoard) : Option Nat × Loading :=
  if b.url = blockedURL then (none, s)
  else
    match s.1.idForURL b.url with
    | some boardID => (some boardID, s)
    | none =>
      match namesFor s b.name with
      | ([], cache) =>
        if isURL b.url then (some s.1.newID, ((s.1.insertBoard b.name b.url).getD s.1, cache))
        else (none, (s.1, cache))
      | (boardID :: _, cache) => (some boardID, (moved isURL s.1 boardID b.url, cache))

/-- Each board in turn, with the rows given so far: it is resolved to a row with
its represented name, and its URL is taken from no row that is given already. -/
def Fits (given : List Nat) (s : Loading) : List SavedBoard → Prop
  | [] => True
  | b :: rest =>
    b.url ≠ blockedURL ∧ isURL b.url ∧
    match s.1.idForURL b.url with
    | some boardID =>
      (shownBoard isURL s.1 boardID).name = some b.shownName ∧
        Fits (boardID :: given) s rest
    | none =>
      match namesFor s b.name with
      | ([], cache) =>
        b.name = b.shownName ∧
          Fits (s.1.newID :: given) ((s.1.insertBoard b.name b.url).getD s.1, cache) rest
      | (boardID :: _, cache) =>
        b.url ≠ [] ∧ boardID ∉ given ∧
          (shownBoard isURL s.1 boardID).name = some b.shownName ∧
          Fits (boardID :: given) (moved isURL s.1 boardID b.url, cache) rest

-- The statements of one board

/-- Inside a transaction on which every statement succeeds, `x` answers `a` and
takes the tables from `t` to `t'`. -/
def Yields {α : Type} (x : Db Tables α) (t : Tables) (a : α) (t' : Tables) : Prop :=
  ∀ start i, x (working start t .ok i) = .ok a (working start t' .ok i)

namespace Yields

variable {α β : Type} {x : Db Tables α} {f : α → Db Tables β} {t t' t'' : Tables} {a : α} {b : β}

theorem pure : Yields (Pure.pure a) t a t := fun _ _ => rfl

theorem bind (hx : Yields x t a t') (hf : Yields (f a) t' b t'') : Yields (x >>= f) t b t'' := by
  intro start i
  rw [bind_apply, hx start i]
  exact hf start i

end Yields

theorem yields_cursorForSQL {α : Type} (query : Tables → α) (t : Tables) :
    Yields (cursorForSQL query) t (some (query t)) t := fun _ _ => cursorForSQL_working query

variable {t : Tables} {cache : NameCache} {name url : NSString} {boardID : Nat}

theorem yields_boardIDForURLStringExceptingHistory :
    Yields (boardIDForURLStringExceptingHistory url) t (t.boards.idForURL url) t :=
  (yields_cursorForSQL _ t).bind Yields.pure

theorem yields_boardIDsForName :
    Yields (boardIDsForName cache name) t (namesFor (t.boards, cache) name) t := by
  intro start i
  unfold boardIDsForName namesFor
  cases cache.lookup name with
  | some ids => rfl
  | none =>
    by_cases hids : t.boards.idsLikeName name = []
    · simp [hids]
    · simp [hids]

theorem row_of_idForURL {b : BoardTables} (h : b.idForURL url = some boardID) :
    ∃ row, b.boardInfo.find boardID = some row ∧ row.boardURL = url := by
  obtain ⟨⟨k, row⟩, hfind, rfl⟩ := Option.map_eq_some_iff.mp h
  have hurl := List.find?_some hfind
  exact ⟨row, Table.find_eq_some.mpr (List.mem_of_find?_eq_some hfind), by simpa using hurl⟩

theorem idForURL_eq_none {b : BoardTables} : b.idForURL url = none ↔
    ∀ boardID row, b.boardInfo.find boardID = some row → row.boardURL ≠ url := by
  simp only [BoardTables.idForURL, Option.map_eq_none_iff, List.find?_eq_none, Table.find_eq_some]
  constructor
  · intro h boardID row hrow
    simpa using h _ hrow
  · rintro h ⟨boardID, row⟩ hrow
    simpa using h boardID row hrow

theorem le_foldr_max {n : Nat} {l : List Nat} (h : n ∈ l) : n ≤ l.foldr max 0 := by
  induction l with
  | nil => cases h
  | cons m l ih =>
    rcases List.mem_cons.mp h with rfl | h
    · exact le_max_left _ _
    · exact (ih h).trans (le_max_right _ _)

theorem find_newID (b : BoardTables) : b.boardInfo.find b.newID = none := by
  rw [Table.find_eq_none]
  intro hmem
  have hle := le_foldr_max hmem
  unfold BoardTables.newID at hle
  omega

theorem insertBoard_spec {b : BoardTables} (hurl : b.idForURL url = none) (name : NSString) :
    ∃ b', b.insertBoard name url = some b' ∧ b'.boardInfoHistory = b.boardInfoHistory ∧
      ∀ k, b'.boardInfo.find k =
        if k = b.newID then some ⟨name, url⟩ else b.boardInfo.find k := by
  obtain ⟨rows, hrows⟩ := Table.insert_of_find_eq_none (r := ⟨name, url⟩) (find_newID b)
  refine ⟨{ b with boardInfo := rows }, ?_, rfl, fun k => Table.find_insert hrows⟩
  simp [BoardTables.insertBoard, hurl, hrows]

theorem idForURL_insertBoard {b b' : BoardTables} (hurl : b.idForURL url = none)
    (hb : b.insertBoard name url = some b') : b'.idForURL url = some b.newID := by
  obtain ⟨b₁, hb₁, -, hfind⟩ := insertBoard_spec hurl name
  obtain rfl := Option.some.inj (hb.symm.trans hb₁)
  cases hid : b'.idForURL url with
  | none => exact absurd rfl (idForURL_eq_none.mp hid b.newID _ ((hfind _).trans (if_pos rfl)))
  | some k =>
    obtain ⟨row, hrow, hrowURL⟩ := row_of_idForURL hid
    by_cases hk : k = b.newID
    · rw [hk]
    · rw [hfind, if_neg hk] at hrow
      exact absurd hrowURL (idForURL_eq_none.mp hurl k row hrow)

theorem yields_register (hurl : t.boards.idForURL url = none) (hisURL : isURL url = true) :
    Yields (registerBoardName isURL name url) t true
      { t with boards := (t.boards.insertBoard name url).getD t.boards } := by
  obtain ⟨b', hb', -⟩ := insertBoard_spec hurl name
  intro start i
  simp [registerBoardName, hisURL, performBoardQuery, hb', codeOf]

theorem yields_boardIDForURLString (t : Tables) (url : NSString) :
    Yields (boardIDForURLString url) t ((t.boards.idForURL url).or
      (t.boards.historyIDForURL url)) t := by
  refine yields_boardIDForURLStringExceptingHistory.bind ?_
  cases t.boards.idForURL url with
  | some boardID => exact Yields.pure
  | none => exact (yields_cursorForSQL _ t).bind Yields.pure

theorem yields_urlStringForBoardID :
    Yields (urlStringForBoardID isURL boardID) t (shownBoard isURL t.boards boardID).url t := by
  intro start i
  unfold urlStringForBoardID shownBoard
  by_cases hzero : boardID = 0
  · simp [hzero]
  · simp [hzero]

theorem setURL_of_idForURL {b : BoardTables} (hurl : b.idForURL url = none) (boardID : Nat) :
    b.setURL boardID url = some { b with
      boardInfo := b.boardInfo.update (fun k _ => k == boardID) ({ · with boardURL := url }) } := by
  have hnone : b.boardInfo.rows.any (fun r => r.1 != boardID && r.2.boardURL == url) = false := by
    rw [List.any_eq_false]
    rintro ⟨k, row⟩ hrow
    have hne := idForURL_eq_none.mp hurl k row (Table.find_eq_some.mpr hrow)
    simp [hne]
  simp [BoardTables.setURL, hnone]

theorem yields_changeBoard {history : BoardInfoHistory} {stmt : BoardTables → Option BoardTables}
    {b : BoardTables} (hstmt : stmt (t.boards.addHistory history) = some b) :
    Yields (changeBoard history stmt) t true { t with boards := b } := by
  intro start i
  have hbegin : beginTransaction (working start t .ok i) = .ok false (working start t .ok i) := rfl
  simp [changeBoard, hbegin, performBoardQuery, hstmt, codeOf]

theorem shownBoard_url_ne {b : BoardTables} (hurl : b.idForURL url = none) :
    (shownBoard isURL b boardID).url ≠ some url := by
  intro h
  unfold shownBoard at h
  split at h
  · cases h
  · obtain ⟨hrow, -⟩ := Option.filter_eq_some_iff.mp h
    obtain ⟨row, hfind, heq⟩ := Option.map_eq_some_iff.mp hrow
    exact idForURL_eq_none.mp hurl boardID row hfind heq

theorem yields_moveBoardID (hurl : t.boards.idForURL url = none) :
    ∃ result, Yields (moveBoardID isURL boardID url) t result
      { t with boards := moved isURL t.boards boardID url } := by
  unfold moveBoardID moved
  by_cases hempty : url = []
  · rw [if_pos hempty, if_pos hempty]
    exact ⟨false, Yields.pure⟩
  · rw [if_neg hempty, if_neg hempty]
    refine ⟨true, (yields_urlStringForBoardID isURL).bind ?_⟩
    rw [if_neg (shownBoard_url_ne isURL hurl)]
    exact yields_changeBoard (setURL_of_idForURL (b := t.boards.addHistory _) hurl boardID)

theorem yields_boardFromPlist (t : Tables) (cache : NameCache) (b : SavedBoard) :
    Yields (boardFromPlist isURL cache b.name b.url) t
      ((resolve isURL (t.boards, cache) b).1, (resolve isURL (t.boards, cache) b).2.2)
      { t with boards := (resolve isURL (t.boards, cache) b).2.1 } := by
  unfold boardFromPlist resolve
  by_cases hblocked : b.url = blockedURL
  · rw [if_pos hblocked, if_pos hblocked]
    exact Yields.pure
  rw [if_neg hblocked, if_neg hblocked]
  refine yields_boardIDForURLStringExceptingHistory.bind ?_
  cases hurl : t.boards.idForURL b.url with
  | some boardID => exact Yields.pure
  | none =>
    refine yields_boardIDsForName.bind ?_
    obtain ⟨ids, cache'⟩ := namesFor (t.boards, cache) b.name
    cases ids with
    | cons boardID ids =>
      obtain ⟨result, hmove⟩ := yields_moveBoardID isURL hurl
      exact hmove.bind Yields.pure
    | nil =>
      by_cases hisURL : isURL b.url = true
      · obtain ⟨b', hb', -⟩ := insertBoard_spec hurl b.name
        refine (yields_register isURL hurl hisURL).bind ((yields_boardIDForURLString _ _).bind ?_)
        simp only [hb', Option.getD_some, idForURL_insertBoard hurl hb', hisURL, if_true]
        exact Yields.pure
      · have hregister : Yields (registerBoardName isURL b.name b.url) t false t := by
          unfold registerBoardName
          rw [if_pos (by simpa using hisURL)]
          exact Yields.pure
        refine hregister.bind ((yields_boardIDForURLString _ _).bind ?_)
        simp only [hisURL, Bool.false_eq_true, if_false]
        exact Yields.pure

-- What resolving a board changes

inductive Resolution (s : Loading) (b : SavedBoard) : Option Nat × Loading → Prop
  | blocked (hblocked : b.url = blockedURL) : Resolution s b (none, s)
  | known (hblocked : b.url ≠ blockedURL) (boardID : Nat)
      (hurl : s.1.idForURL b.url = some boardID) :
    Resolution s b (some boardID, s)
  | refused (hblocked : b.url ≠ blockedURL) (hurl : s.1.idForURL b.url = none) (cache : NameCache)
    (hnames : namesFor s b.name = ([], cache)) (hisURL : isURL b.url = false) :
    Resolution s b (none, (s.1, cache))
  | registered (hblocked : b.url ≠ blockedURL) (hurl : s.1.idForURL b.url = none)
      (cache : NameCache)
    (hnames : namesFor s b.name = ([], cache)) (hisURL : isURL b.url = true) :
    Resolution s b (some s.1.newID, ((s.1.insertBoard b.name b.url).getD s.1, cache))
  | moved (hblocked : b.url ≠ blockedURL) (hurl : s.1.idForURL b.url = none) (boardID : Nat)
    (ids : List Nat) (cache : NameCache) (hnames : namesFor s b.name = (boardID :: ids, cache)) :
    Resolution s b (some boardID, (moved isURL s.1 boardID b.url, cache))

theorem resolution (s : Loading) (b : SavedBoard) : Resolution isURL s b (resolve isURL s b) := by
  unfold resolve
  by_cases hblocked : b.url = blockedURL
  · rw [if_pos hblocked]
    exact .blocked hblocked
  rw [if_neg hblocked]
  cases hurl : s.1.idForURL b.url with
  | some boardID => exact .known hblocked boardID hurl
  | none =>
    cases hnames : namesFor s b.name with
    | mk ids cache =>
      cases ids with
      | cons boardID ids => exact .moved hblocked hurl boardID ids cache hnames
      | nil =>
        cases hisURL : isURL b.url with
        | true => exact .registered hblocked hurl cache hnames hisURL
        | false => exact .refused hblocked hurl cache hnames hisURL

structure Known (s : Loading) : Prop where
  history : ∀ h ∈ s.1.boardInfoHistory, (s.1.boardInfo.find h.boardID).isSome
  cache : ∀ name ids, s.2.lookup name = some ids →
    ∀ boardID ∈ ids, (s.1.boardInfo.find boardID).isSome

theorem isSome_of_mem_rows {b : BoardTables} {row : BoardInfo}
    (h : (boardID, row) ∈ b.boardInfo.rows) :
    (b.boardInfo.find boardID).isSome := by
  rw [Table.find_eq_some.mpr h]
  rfl

theorem known_namesFor {s : Loading} (h : Known s) (name : NSString) :
    (∀ boardID ∈ (namesFor s name).1, (s.1.boardInfo.find boardID).isSome) ∧
      Known (s.1, (namesFor s name).2) := by
  unfold namesFor
  cases hlookup : s.2.lookup name with
  | some ids => exact ⟨h.cache name ids hlookup, h⟩
  | none =>
    dsimp only
    generalize hids : (if s.1.idsLikeName name ≠ [] then s.1.idsLikeName name
      else s.1.historyIDsLikeName name) = ids
    have hknown : ∀ boardID ∈ ids, (s.1.boardInfo.find boardID).isSome := by
      intro boardID hmem
      rw [← hids] at hmem
      split at hmem
      · obtain ⟨⟨k, row⟩, hrow, rfl⟩ := List.mem_map.mp hmem
        exact isSome_of_mem_rows (List.mem_filter.mp hrow).1
      · obtain ⟨hist, hhist, rfl⟩ := List.mem_map.mp hmem
        exact h.history hist (List.mem_filter.mp hhist).1
    refine ⟨hknown, h.history, fun name' ids' hlookup' => ?_⟩
    split at hlookup'
    · rw [List.lookup_cons] at hlookup'
      split at hlookup'
      · obtain rfl := Option.some.inj hlookup'
        exact hknown
      · exact h.cache name' ids' hlookup'
    · exact h.cache name' ids' hlookup'

/-- Resolving a board keeps the names of the rows there are, and the URLs of all
rows but the one it is resolved to, which does not get an empty one. -/
structure Preserves (t t' : BoardTables) (boardID : Option Nat) : Prop where
  row : ∀ k row, t.boardInfo.find k = some row → ∃ row', t'.boardInfo.find k = some row' ∧
    row'.boardName = row.boardName ∧ (boardID ≠ some k → row' = row) ∧
    (row'.boardURL = [] → row.boardURL = [])

theorem preserves_self (t : BoardTables) (boardID : Option Nat) : Preserves t t boardID :=
  ⟨fun _ row hrow => ⟨row, hrow, rfl, fun _ => rfl, id⟩⟩

theorem find_moved (t : BoardTables) (boardID k : Nat) (url : NSString) :
    (moved isURL t boardID url).boardInfo.find k =
      if url ≠ [] ∧ k = boardID then (t.boardInfo.find k).map ({ · with boardURL := url })
      else t.boardInfo.find k := by
  unfold moved
  by_cases hempty : url = []
  · simp [hempty]
  · rw [if_neg hempty]
    dsimp only
    rw [Table.find_update_key]
    by_cases hk : k = boardID <;> simp [hk, hempty]

theorem preserves_resolve (s : Loading) (b : SavedBoard) :
    Preserves s.1 (resolve isURL s b).2.1 (resolve isURL s b).1 := by
  generalize hr : resolve isURL s b = r
  have hres := resolution isURL s b
  rw [hr] at hres
  cases hres with
  | blocked hblocked => exact preserves_self _ _
  | known hblocked boardID hurl => exact preserves_self _ _
  | refused hblocked hurl cache hnames hisURL => exact preserves_self _ _
  | registered hblocked hurl cache hnames hisURL =>
    obtain ⟨b', hb', -, hfind⟩ := insertBoard_spec hurl b.name
    refine ⟨fun k row hrow => ⟨row, ?_, rfl, fun _ => rfl, id⟩⟩
    have hne : k ≠ s.1.newID := by
      rintro rfl
      rw [find_newID] at hrow
      cases hrow
    rw [hb', Option.getD_some, hfind, if_neg hne]
    exact hrow
  | moved hblocked hurl boardID ids cache hnames =>
    refine ⟨fun k row hrow => ?_⟩
    rw [find_moved, hrow]
    by_cases hk : b.url ≠ [] ∧ k = boardID
    · rw [if_pos hk]
      exact ⟨_, rfl, rfl, fun hne => absurd (hk.2 ▸ rfl) hne, fun hempty => absurd hempty hk.1⟩
    · rw [if_neg hk]
      exact ⟨row, rfl, rfl, fun _ => rfl, id⟩

theorem Preserves.isSome {t t' : BoardTables} {r : Option Nat} (h : Preserves t t' r) {k : Nat}
    (hk : (t.boardInfo.find k).isSome) : (t'.boardInfo.find k).isSome := by
  obtain ⟨row, hrow⟩ := Option.isSome_iff_exists.mp hk
  obtain ⟨row', hrow', -⟩ := h.row k row hrow
  rw [hrow']
  rfl

theorem known_resolve {s : Loading} (h : Known s) (b : SavedBoard) :
    Known (resolve isURL s b).2 := by
  have hpreserves := preserves_resolve isURL s b
  obtain ⟨hids, hnamesKnown⟩ := known_namesFor h b.name
  generalize hr : resolve isURL s b = r at hpreserves
  have hres := resolution isURL s b
  rw [hr] at hres
  have hcache : ∀ name ids, (namesFor s b.name).2.lookup name = some ids →
      ∀ boardID ∈ ids, (r.2.1.boardInfo.find boardID).isSome :=
    fun name ids hlookup k hk => hpreserves.isSome (hnamesKnown.cache name ids hlookup k hk)
  cases hres with
  | blocked hblocked => exact h
  | known hblocked boardID hurl => exact h
  | refused hblocked hurl cache hnames hisURL =>
    rw [hnames] at hnamesKnown
    exact hnamesKnown
  | registered hblocked hurl cache hnames hisURL =>
    obtain ⟨b', hb', hhistory, -⟩ := insertBoard_spec hurl b.name
    rw [hnames] at hcache
    refine ⟨fun hist hhist => hpreserves.isSome (h.history hist ?_), hcache⟩
    rw [hb', Option.getD_some, hhistory] at hhist
    exact hhist
  | moved hblocked hurl boardID ids cache hnames =>
    rw [hnames] at hcache hids
    refine ⟨fun hist hhist => ?_, hcache⟩
    have hold : hist ∈ s.1.boardInfoHistory ∨ hist.boardID = boardID := by
      unfold Boards.moved at hhist
      split at hhist
      · exact .inl hhist
      · rcases List.mem_append.mp hhist with hhist | hhist
        · exact .inl hhist
        · right
          rw [List.mem_singleton.mp hhist]
    rcases hold with hold | hold
    · exact hpreserves.isSome (h.history hist hold)
    · rw [hold]
      exact hpreserves.isSome (hids boardID List.mem_cons_self)

-- All boards of a list

def resolveAll (s : Loading) : List SavedBoard → Loading
  | [] => s
  | b :: rest => resolveAll (resolve isURL s b).2 rest

/-- In the tables `final`, each board is shown by the row it was resolved to. -/
def Restored (final : BoardTables) (s : Loading) : List SavedBoard → Prop
  | [] => True
  | b :: rest =>
    (∃ boardID, (resolve isURL s b).1 = some boardID ∧ shownBoard isURL final boardID = b.shown) ∧
      Restored final (resolve isURL s b).2 rest

theorem row_resolveAll (rest : List SavedBoard) {s : Loading} {k : Nat} {row : BoardInfo}
    (hrow : s.1.boardInfo.find k = some row) :
    ∃ row', (resolveAll isURL s rest).1.boardInfo.find k = some row' ∧
      row'.boardName = row.boardName ∧ (row'.boardURL = [] → row.boardURL = []) := by
  induction rest generalizing s row with
  | nil => exact ⟨row, hrow, rfl, id⟩
  | cons b rest ih =>
    obtain ⟨row₁, hrow₁, hname₁, -, hempty₁⟩ := (preserves_resolve isURL s b).row k row hrow
    obtain ⟨row', hrow', hname', hempty'⟩ := ih hrow₁
    exact ⟨row', hrow', hname'.trans hname₁, fun h => hempty₁ (hempty' h)⟩

theorem shownBoard_eq {t : BoardTables} {k : Nat} {row : BoardInfo} (hk : k ≠ 0)
    (hrow : t.boardInfo.find k = some row) :
    shownBoard isURL t k = ⟨(some row.boardURL).filter isURL, some row.boardName⟩ := by
  unfold shownBoard
  rw [if_neg hk, hrow]
  rfl

variable {isURL} in
theorem shownBoard_eq_shown {t : BoardTables} {k : Nat} {b : SavedBoard} :
    shownBoard isURL t k = b.shown ↔ k ≠ 0 ∧ isURL b.url = true ∧
      t.boardInfo.find k = some ⟨b.shownName, b.url⟩ := by
  constructor
  · intro h
    by_cases hk : k = 0
    · simp [shownBoard, hk, SavedBoard.shown] at h
    · cases hrow : t.boardInfo.find k with
      | none => simp [shownBoard, hk, hrow, SavedBoard.shown] at h
      | some row =>
        rw [shownBoard_eq isURL hk hrow] at h
        obtain ⟨hurl, hname⟩ := Shown.mk.inj h
        obtain ⟨heq, hisURL⟩ := Option.filter_eq_some_iff.mp hurl
        rw [← Option.some.inj heq, ← Option.some.inj hname]
        exact ⟨hk, Option.some.inj heq ▸ hisURL, rfl⟩
  · rintro ⟨hk, hisURL, hrow⟩
    rw [shownBoard_eq isURL hk hrow]
    simp [SavedBoard.shown, hisURL]

variable {isURL} in
theorem Preserves.shown {t t' : BoardTables} {r : Option Nat} (h : Preserves t t' r) {k : Nat}
    {b : SavedBoard} (hk : shownBoard isURL t k = b.shown) (hne : r ≠ some k) :
    shownBoard isURL t' k = b.shown := by
  obtain ⟨hzero, hisURL, hrow⟩ := shownBoard_eq_shown.mp hk
  obtain ⟨row', hrow', -, hsame, -⟩ := h.row k _ hrow
  rw [hsame hne] at hrow'
  exact shownBoard_eq_shown.mpr ⟨hzero, hisURL, hrow'⟩

variable {isURL} in
/-- A row with the URL of a board shows it in the end only if it does so now. -/
theorem shown_of_final {s : Loading} {rest : List SavedBoard} {k : Nat} {b : SavedBoard}
    {row : BoardInfo} (hrow : s.1.boardInfo.find k = some row) (hurl : row.boardURL = b.url)
    (h : shownBoard isURL (resolveAll isURL s rest).1 k = b.shown) :
    shownBoard isURL s.1 k = b.shown := by
  obtain ⟨hzero, hisURL, hfinal⟩ := shownBoard_eq_shown.mp h
  obtain ⟨row', hrow', hname, -⟩ := row_resolveAll isURL rest hrow
  obtain rfl := Option.some.inj (hrow'.symm.trans hfinal)
  refine shownBoard_eq_shown.mpr ⟨hzero, hisURL, ?_⟩
  rw [hrow]
  exact congrArg some (by cases row; simp_all)

variable {isURL} in
theorem shownBoard_name_iff {t : BoardTables} {k : Nat} {b : SavedBoard} {row : BoardInfo}
    (hrow : t.boardInfo.find k = some row) (hurl : row.boardURL = b.url) :
    shownBoard isURL t k = b.shown ↔
      isURL b.url = true ∧ (shownBoard isURL t k).name = some b.shownName := by
  rw [shownBoard_eq_shown, hrow]
  unfold shownBoard
  by_cases hk : k = 0
  · simp [hk]
  · cases row
    simp only at hurl
    simp [hk, hrow, hurl, and_comm]

/-- The boards given before and the boards to come are all shown in the end. -/
def RestoredWith (given : List (Nat × SavedBoard)) (s : Loading) (rest : List SavedBoard) : Prop :=
  (∀ p ∈ given, shownBoard isURL (resolveAll isURL s rest).1 p.1 = p.2.shown) ∧
    Restored isURL (resolveAll isURL s rest).1 s rest

section

variable {isURL} {s s₁ : Loading} {b : SavedBoard} {rest : List SavedBoard}
  {given : List (Nat × SavedBoard)}

theorem not_restoredWith_of_none (hr : resolve isURL s b = (none, s₁)) :
    ¬ RestoredWith isURL given s (b :: rest) := by
  rintro ⟨-, ⟨k, hk, -⟩, -⟩
  rw [hr] at hk
  cases hk

theorem restoredWith_cons (hr : resolve isURL s b = (some boardID, s₁)) :
    RestoredWith isURL given s (b :: rest) ↔
      RestoredWith isURL ((boardID, b) :: given) s₁ rest := by
  simp only [RestoredWith, resolveAll, Restored, hr, List.forall_mem_cons]
  constructor
  · rintro ⟨hold, ⟨k, hk, hshown⟩, hrest⟩
    obtain rfl := Option.some.inj hk
    exact ⟨⟨hshown, hold⟩, hrest⟩
  · rintro ⟨⟨hshown, hold⟩, hrest⟩
    exact ⟨hold, ⟨boardID, rfl, hshown⟩, hrest⟩

theorem restoredWith_cons_iff (hr : resolve isURL s b = (some boardID, s₁))
    (hgiven : ∀ p ∈ given, shownBoard isURL s₁.1 p.1 = p.2.shown) {row : BoardInfo}
    (hrow : s₁.1.boardInfo.find boardID = some row) (hurl : row.boardURL = b.url)
    (ih : ∀ given, (∀ p ∈ given, shownBoard isURL s₁.1 p.1 = p.2.shown) →
      (RestoredWith isURL given s₁ rest ↔ Fits isURL (given.map Prod.fst) s₁ rest)) :
    RestoredWith isURL given s (b :: rest) ↔
      isURL b.url = true ∧ (shownBoard isURL s₁.1 boardID).name = some b.shownName ∧
        Fits isURL (boardID :: given.map Prod.fst) s₁ rest := by
  rw [restoredWith_cons hr, ← and_assoc, ← shownBoard_name_iff hrow hurl]
  constructor
  · intro h
    have hnow := shown_of_final hrow hurl (h.1 _ List.mem_cons_self)
    exact ⟨hnow, (ih _ (List.forall_mem_cons.mpr ⟨hnow, hgiven⟩)).mp h⟩
  · rintro ⟨hnow, hfits⟩
    exact (ih _ (List.forall_mem_cons.mpr ⟨hnow, hgiven⟩)).mpr hfits

theorem newID_ne_zero (t : BoardTables) : t.newID ≠ 0 := Nat.succ_ne_zero _

theorem newID_ne_of_shown (h : shownBoard isURL s.1 boardID = b.shown) : s.1.newID ≠ boardID := by
  rintro rfl
  obtain ⟨-, -, hrow⟩ := shownBoard_eq_shown.mp h
  rw [find_newID] at hrow
  cases hrow

/-- Two boards with different URLs cannot both be shown by one row, and a row does
not get an empty URL. -/
theorem not_restoredWith_of_moved (hr : resolve isURL s b = (some boardID, s₁))
    (hurl : s.1.idForURL b.url = none) {row : BoardInfo}
    (hrow : s.1.boardInfo.find boardID = some row)
    (hgiven : ∀ p ∈ given, shownBoard isURL s.1 p.1 = p.2.shown)
    (h : b.url = [] ∨ boardID ∈ given.map Prod.fst) : ¬ RestoredWith isURL given s (b :: rest) := by
  intro hrestored
  have hall := ((restoredWith_cons hr).mp hrestored).1
  obtain ⟨-, -, hfinal⟩ := shownBoard_eq_shown.mp (hall _ List.mem_cons_self)
  rcases h with hempty | hmem
  · have hpreserves := preserves_resolve isURL s b
    rw [hr] at hpreserves
    obtain ⟨row₁, hrow₁, -, -, hempty₁⟩ := hpreserves.row boardID row hrow
    obtain ⟨row', hrow', -, hempty'⟩ := row_resolveAll isURL rest hrow₁
    obtain rfl := Option.some.inj (hrow'.symm.trans hfinal)
    exact idForURL_eq_none.mp hurl boardID row hrow ((hempty₁ (hempty' hempty)).trans hempty.symm)
  · obtain ⟨⟨k, g⟩, hp, rfl⟩ := List.mem_map.mp hmem
    obtain ⟨-, -, hfinal'⟩ := shownBoard_eq_shown.mp (hall _ (List.mem_cons_of_mem _ hp))
    obtain ⟨-, -, hnow⟩ := shownBoard_eq_shown.mp (hgiven _ hp)
    have hsame : g.url = b.url :=
      (BoardInfo.mk.inj (Option.some.inj (hfinal'.symm.trans hfinal))).2
    exact idForURL_eq_none.mp hurl k _ hnow hsame

end

theorem restoredWith_iff_fits (rest : List SavedBoard) :
    ∀ (s : Loading) (given : List (Nat × SavedBoard)), Known s →
      (∀ p ∈ given, shownBoard isURL s.1 p.1 = p.2.shown) →
      (RestoredWith isURL given s rest ↔ Fits isURL (given.map Prod.fst) s rest) := by
  induction rest with
  | nil =>
    intro s given _ hgiven
    simp only [RestoredWith, resolveAll, Restored, Fits, and_true]
    exact iff_true_intro hgiven
  | cons b rest ih =>
    intro s given hs hgiven
    have hpreserves := preserves_resolve isURL s b
    have hknown := known_resolve isURL hs b
    generalize hr : resolve isURL s b = r at hpreserves hknown
    have hres := resolution isURL s b
    rw [hr] at hres
    cases hres with
    | blocked hblocked =>
      exact iff_of_false (not_restoredWith_of_none hr) fun hfits => hfits.1 hblocked
    | refused hblocked hurl cache hnames hisURL =>
      refine iff_of_false (not_restoredWith_of_none hr) fun hfits => ?_
      rw [hfits.2.1] at hisURL
      cases hisURL
    | known hblocked boardID hurl =>
      obtain ⟨row, hrow, hrowURL⟩ := row_of_idForURL hurl
      rw [restoredWith_cons_iff hr hgiven hrow hrowURL fun given => ih s given hs, Fits, hurl]
      simp only [hblocked, ne_eq, not_false_eq_true, true_and]
    | registered hblocked hurl cache hnames hisURL =>
      obtain ⟨b', hb', -, hfind⟩ := insertBoard_spec hurl b.name
      have hrow := (hfind s.1.newID).trans (if_pos rfl)
      rw [hb', Option.getD_some] at hr hpreserves hknown
      have hgiven₁ : ∀ p ∈ given, shownBoard isURL b' p.1 = p.2.shown := fun p hp =>
        hpreserves.shown (hgiven p hp) fun h => newID_ne_of_shown (hgiven p hp) (Option.some.inj h)
      have hname : (shownBoard isURL b' s.1.newID).name = some b.name := by
        rw [shownBoard_eq isURL (newID_ne_zero s.1) hrow]
      rw [restoredWith_cons_iff hr hgiven₁ hrow rfl fun given =>
        ih (b', cache) given hknown, Fits, hurl]
      simp only [hblocked, ne_eq, not_false_eq_true, true_and, hnames, hname, hb', Option.getD_some,
        Option.some.injEq]
    | moved hblocked hurl boardID ids cache hnames =>
      have hids := (known_namesFor hs b.name).1
      rw [hnames] at hids
      obtain ⟨row, hrow⟩ := Option.isSome_iff_exists.mp (hids boardID List.mem_cons_self)
      by_cases hbad : b.url = [] ∨ boardID ∈ given.map Prod.fst
      · refine iff_of_false (not_restoredWith_of_moved hr hurl hrow hgiven hbad) fun hfits => ?_
        rw [Fits, hurl] at hfits
        simp only [hnames] at hfits
        exact hbad.elim hfits.2.2.1 hfits.2.2.2.1
      · obtain ⟨hempty, hfree⟩ := not_or.mp hbad
        have hrow₁ := find_moved isURL s.1 boardID boardID b.url
        rw [if_pos ⟨hempty, rfl⟩, hrow, Option.map_some] at hrow₁
        have hgiven₁ : ∀ p ∈ given, shownBoard isURL (moved isURL s.1 boardID b.url) p.1 =
          p.2.shown :=
          fun p hp => hpreserves.shown (hgiven p hp) fun h =>
            hfree (Option.some.inj h ▸ List.mem_map_of_mem hp)
        have hname : (shownBoard isURL (moved isURL s.1 boardID b.url) boardID).name =
            (shownBoard isURL s.1 boardID).name := by
          unfold shownBoard
          by_cases hzero : boardID = 0
          · rw [if_pos hzero, if_pos hzero]
          · rw [if_neg hzero, if_neg hzero, hrow₁, hrow]
            rfl
        rw [restoredWith_cons_iff hr hgiven₁ hrow₁ rfl fun given => ih _ given hknown, Fits, hurl]
        simp only [hblocked, ne_eq, not_false_eq_true, true_and, hnames, hname, hempty, hfree]

-- Whole lists

theorem resolveAll_append (s : Loading) (l l' : List SavedBoard) :
    resolveAll isURL s (l ++ l') = resolveAll isURL (resolveAll isURL s l) l' := by
  induction l generalizing s with
  | nil => rfl
  | cons b l ih => exact ih _

theorem restored_append (final : BoardTables) (s : Loading) (l l' : List SavedBoard) :
    Restored isURL final s (l ++ l') ↔
      Restored isURL final s l ∧ Restored isURL final (resolveAll isURL s l) l' := by
  induction l generalizing s with
  | nil => simp [Restored, resolveAll]
  | cons b l ih =>
    simp only [List.cons_append, Restored, resolveAll, ih]
    exact and_assoc.symm

section

variable {isURL floatValue} {object : BoardPlist} {rest : List BoardPlist} {t' t'' : Tables}
  {cache' cache'' : NameCache} {item : Option (Tree Nat Smart.Condition)}
  {items : List (Tree Nat Smart.Condition)}

theorem yields_itemsFromPlist_cons
    (hitem : Yields (itemFromPlist isURL floatValue cache object) t (item, cache') t')
    (hrest : Yields (itemsFromPlist isURL floatValue cache' rest) t' (items, cache'') t'') :
    Yields (itemsFromPlist isURL floatValue cache (object :: rest)) t
      (item.toList ++ items, cache'') t'' := by
  unfold itemsFromPlist
  exact hitem.bind (hrest.bind Yields.pure)

theorem yields_itemFromPlist_board (b : SavedBoard) :
    Yields (itemFromPlist isURL floatValue cache (plist floatValue (.board b))) t
      ((resolve isURL (t.boards, cache) b).1.map .board, (resolve isURL (t.boards, cache) b).2.2)
      { t with boards := (resolve isURL (t.boards, cache) b).2.1 } := by
  unfold plist itemFromPlist folderFromPlist
  refine Yields.pure.bind ?_
  have hboard : Yields (urlFromPlist isURL cache b.name none (some b.url)) t _ _ :=
    (yields_boardFromPlist isURL t cache b).bind Yields.pure
  exact hboard.bind Yields.pure

theorem yields_itemFromPlist_smart (name : NSString) (condition : Smart.Built floatValue) :
    Yields (itemFromPlist isURL floatValue cache (plist floatValue (.smart name condition))) t
      (some (.smart name condition.val), cache) t := by
  unfold plist itemFromPlist folderFromPlist
  refine Yields.pure.bind (Yields.pure.bind ?_)
  simp only [conditionFromPlist, Smart.decode_encode floatValue condition.val condition.property,
    Option.map_some]
  exact Yields.pure

theorem yields_itemFromPlist_folder (name : NSString)
    (h : Yields (itemsFromPlist isURL floatValue cache rest) t (items, cache') t') :
    Yields (itemFromPlist isURL floatValue cache (.dict { name := some name } (some rest))) t
      (some (.folder name items), cache') t' := by
  have hfolder : Yields (folderFromPlist isURL floatValue cache name (some rest)) t
      (some (.folder name items), cache') t' := by
    unfold folderFromPlist
    exact h.bind Yields.pure
  unfold itemFromPlist
  exact hfolder.bind (Yields.pure.bind Yields.pure)

end

/-- A list without a nested `Top` is loaded, and it comes back when its boards are
restored. -/
theorem load_spec : (items : List (Tree SavedBoard (Smart.Built floatValue))) → Tree.NoTop items →
    ∀ (t : Tables) (cache : NameCache), ∃ loaded,
      Yields (itemsFromPlist isURL floatValue cache (itemsWithoutFavoriteItem floatValue items)) t
        (loaded, (resolveAll isURL (t.boards, cache) (Tree.boards items)).2)
        { t with boards := (resolveAll isURL (t.boards, cache) (Tree.boards items)).1 } ∧
      loaded.length ≤ (Tree.shape SavedBoard.shown Subtype.val items).length ∧
      ∀ final, Tree.shape (shownBoard isURL final) id loaded =
          Tree.shape SavedBoard.shown Subtype.val items ↔
        Restored isURL final (t.boards, cache) (Tree.boards items)
  | [], _, t, cache => by
    refine ⟨[], ?_, Nat.zero_le _, fun final => by simp [Tree.shape, Tree.boards, Restored]⟩
    simp only [itemsWithoutFavoriteItem, Tree.boards, resolveAll]
    unfold itemsFromPlist
    exact Yields.pure
  | .favorites :: rest, hrest, t, cache => by
    simp only [itemsWithoutFavoriteItem, Tree.boards, Tree.shape]
    exact load_spec rest (by simpa [Tree.NoTop] using hrest) t cache
  | .board b :: rest, hrest, t, cache => by
    obtain ⟨loaded, hload, hlength, hshape⟩ := load_spec rest (by simpa [Tree.NoTop] using hrest)
      { t with boards := (resolve isURL (t.boards, cache) b).2.1 }
      (resolve isURL (t.boards, cache) b).2.2
    have hloaded := yields_itemsFromPlist_cons (yields_itemFromPlist_board b) hload
    simp only [itemsWithoutFavoriteItem, Tree.boards, Tree.shape, resolveAll, Restored]
    refine ⟨_, hloaded, ?_, fun final => ?_⟩
    · cases (resolve isURL (t.boards, cache) b).1 with
      | none => exact hlength.trans (Nat.le_succ _)
      | some boardID => exact Nat.succ_le_succ hlength
    · rw [← hshape final]
      cases (resolve isURL (t.boards, cache) b).1 with
      | some boardID => simp [Tree.shape]
      | none =>
        -- a board that is left out leaves the list too short
        have hshort := (Tree.length_shape_le (shownBoard isURL final) id loaded).trans hlength
        refine iff_of_false (fun h => ?_) (by simp)
        have hlong := congrArg List.length h
        simp only [Option.map_none, Option.toList_none, List.nil_append, List.length_cons] at hlong
        omega
  | .smart name condition :: rest, hrest, t, cache => by
    obtain ⟨loaded, hload, hlength, hshape⟩ :=
      load_spec rest (by simpa [Tree.NoTop] using hrest) t cache
    have hloaded := yields_itemsFromPlist_cons (yields_itemFromPlist_smart name condition) hload
    simp only [itemsWithoutFavoriteItem, Tree.boards, Tree.shape]
    refine ⟨_, hloaded, by simpa using hlength, fun final => ?_⟩
    rw [← hshape final]
    simp [Tree.shape]
  | .folder name inner :: rest, htop, t, cache => by
    simp only [Tree.NoTop] at htop
    obtain ⟨hname, hinner, hrest⟩ := htop
    obtain ⟨loadedInner, hloadInner, -, hshapeInner⟩ := load_spec inner hinner t cache
    obtain ⟨loaded, hload, hlength, hshape⟩ := load_spec rest hrest
      { t with boards := (resolveAll isURL (t.boards, cache) (Tree.boards inner)).1 }
      (resolveAll isURL (t.boards, cache) (Tree.boards inner)).2
    have hloaded := yields_itemsFromPlist_cons (yields_itemFromPlist_folder name hloadInner) hload
    simp only [itemsWithoutFavoriteItem, plist, if_neg hname, Tree.boards, Tree.shape,
      resolveAll_append, restored_append]
    refine ⟨_, hloaded, by simpa using hlength, fun final => ?_⟩
    rw [← hshape final, ← hshapeInner final]
    simp [Tree.shape]

/-- Inside a transaction on which every statement succeeds, `x` raises. -/
def Raises {α : Type} (x : Db Tables α) (t : Tables) : Prop :=
  ∀ start i, ∃ r db, x (working start t .ok i) = .error r db

theorem Raises.bind {α β : Type} {x : Db Tables α} {f : α → Db Tables β} (h : Raises x t) :
    Raises (x >>= f) t := by
  intro start i
  obtain ⟨r, db, hx⟩ := h start i
  exact ⟨r, db, by rw [bind_apply, hx]⟩

theorem Yields.raises {α β : Type} {x : Db Tables α} {f : α → Db Tables β} {a : α} {t' : Tables}
    (hx : Yields x t a t') (hf : Raises (f a) t') : Raises (x >>= f) t := by
  intro start i
  obtain ⟨r, db, hfa⟩ := hf start i
  exact ⟨r, db, by rw [bind_apply, hx start i]; exact hfa⟩

theorem load_raises : (items : List (Tree SavedBoard (Smart.Built floatValue))) →
    ¬ Tree.NoTop items →
    ∀ (t : Tables) (cache : NameCache),
      Raises (itemsFromPlist isURL floatValue cache (itemsWithoutFavoriteItem floatValue items)) t
  | [], htop, _, _ => absurd (by simp [Tree.NoTop]) htop
  | .favorites :: rest, htop, t, cache => by
    simp only [itemsWithoutFavoriteItem]
    exact load_raises rest (by simpa [Tree.NoTop] using htop) t cache
  | .board b :: rest, htop, t, cache => by
    simp only [itemsWithoutFavoriteItem]
    unfold itemsFromPlist
    exact (yields_itemFromPlist_board b).raises
      (load_raises rest (by simpa [Tree.NoTop] using htop) _ _).bind
  | .smart name condition :: rest, htop, t, cache => by
    simp only [itemsWithoutFavoriteItem]
    unfold itemsFromPlist
    exact (yields_itemFromPlist_smart name condition).raises
      (load_raises rest (by simpa [Tree.NoTop] using htop) _ _).bind
  | .folder name inner :: rest, htop, t, cache => by
    simp only [itemsWithoutFavoriteItem, plist]
    unfold itemsFromPlist
    by_cases hname : name = topName
    · rw [if_pos hname]
      refine Raises.bind fun start i => ?_
      unfold itemFromPlist
      exact ⟨_, _, rfl⟩
    · rw [if_neg hname]
      by_cases hinner : Tree.NoTop inner
      · obtain ⟨loaded, hload, -⟩ := load_spec isURL floatValue inner hinner t cache
        refine (yields_itemFromPlist_folder name hload).raises
          (load_raises rest (fun hrest => ?_) _ _).bind
        exact htop (by simpa [Tree.NoTop] using ⟨hname, hinner, hrest⟩)
      · refine Raises.bind ?_
        unfold itemFromPlist folderFromPlist
        exact (load_raises inner hinner t cache).bind.bind

section

variable {isURL floatValue} {array : List BoardPlist} (code : Code) (i : Nat → Bool)

theorem initWithContentsOfFile_of_yields {t' : Tables} {cache' : NameCache}
    {loaded : List (Tree Nat Smart.Condition)}
    (h : Yields (itemsFromPlist isURL floatValue cache array) t (loaded, cache') t') :
    initWithContentsOfFile isURL floatValue cache array (idle t code i) =
      .ok (loaded, cache') (idle t' .ok i) := by
  unfold initWithContentsOfFile
  rw [bind_apply, beginTransaction_idle]
  simp [h t i]

theorem initWithContentsOfFile_of_raises
    (h : Raises (itemsFromPlist isURL floatValue cache array) t) :
    ∃ r db, initWithContentsOfFile isURL floatValue cache array (idle t code i) = .error r db := by
  obtain ⟨r, db, hx⟩ := h t i
  refine ⟨r, db, ?_⟩
  unfold initWithContentsOfFile
  rw [bind_apply, beginTransaction_idle]
  simp [hx]

end

theorem roundTrips_of_noTop (t : Tables) (catalog : Catalog) (code : Code)
    (interruptions : Nat → Bool) {items : List (Tree SavedBoard (Smart.Built floatValue))}
    (htop : Tree.NoTop items) :
    RoundTrips isURL floatValue t catalog code interruptions items ↔
      Restored isURL (resolveAll isURL (catalog.tables, catalog.cache) (Tree.boards items)).1
        (catalog.tables, catalog.cache) (Tree.boards items) := by
  obtain ⟨loaded, hload, -, hshape⟩ :=
    load_spec isURL floatValue items htop { t with boards := catalog.tables } catalog.cache
  have hrun := initWithContentsOfFile_of_yields code interruptions hload
  constructor
  · rintro ⟨loaded', cache', db', hrun', hsame⟩
    rw [hrun] at hrun'
    cases hrun'
    exact (hshape _).mp hsame
  · intro h
    exact ⟨loaded, _, _, hrun, (hshape _).mpr h⟩

theorem noTop_of_roundTrips {t : Tables} {catalog : Catalog} {code : Code}
    {interruptions : Nat → Bool} {items : List (Tree SavedBoard (Smart.Built floatValue))}
    (h : RoundTrips isURL floatValue t catalog code interruptions items) : Tree.NoTop items := by
  by_contra htop
  obtain ⟨loaded, cache', db', hrun, -⟩ := h
  obtain ⟨r, db, hraise⟩ := initWithContentsOfFile_of_raises code interruptions
    (load_raises isURL floatValue items htop { t with boards := catalog.tables } catalog.cache)
  rw [hraise] at hrun
  cases hrun

/-- A list comes back exactly when no folder in it has the root's name and its
boards fit the catalog. -/
theorem roundTrips_iff (t : Tables) (catalog : Catalog) (code : Code) (interruptions : Nat → Bool)
    (items : List (Tree SavedBoard (Smart.Built floatValue))) :
    RoundTrips isURL floatValue t catalog code interruptions items ↔
      Tree.NoTop items ∧ Fits isURL [] (catalog.tables, catalog.cache) (Tree.boards items) := by
  have hknown : Known (catalog.tables, catalog.cache) :=
    ⟨catalog.history_known, catalog.cache_known⟩
  have hnil : ∀ p ∈ ([] : List (Nat × SavedBoard)), shownBoard isURL catalog.tables p.1 =
    p.2.shown :=
    fun p hp => nomatch hp
  have hfits := restoredWith_iff_fits isURL (Tree.boards items) _ [] hknown hnil
  constructor
  · intro h
    have htop := noTop_of_roundTrips isURL floatValue h
    have hrestored := (roundTrips_of_noTop isURL floatValue t catalog code interruptions htop).mp h
    exact ⟨htop, hfits.mp ⟨fun p hp => (nomatch hp), hrestored⟩⟩
  · rintro ⟨htop, hboards⟩
    exact (roundTrips_of_noTop isURL floatValue t catalog code interruptions htop).mpr
      (hfits.mpr hboards).2

def newCatalog : Catalog where
  tables := ⟨Table.empty, []⟩
  cache := []
  history_known _ hmem := nomatch hmem
  cache_known _ _ hlookup := nomatch hlookup

/-- Two boards of one name: the second is found by its name and takes the URL of
the first away. -/
theorem not_roundTrips : ¬ RoundTrips (fun _ => true) (fun d => d.value) Tables.empty newCatalog .ok
    (fun _ => false)
    [.board ⟨ns "news", ns "http://a/news/", none⟩,
      .board ⟨ns "news", ns "http://b/news/", none⟩] := by
  intro h
  have htop := noTop_of_roundTrips _ _ h
  have hrestored := (roundTrips_of_noTop _ _ _ _ _ _ htop).mp h
  simp only [Tree.boards, Restored] at hrestored
  obtain ⟨⟨k, hk, hfirst⟩, ⟨k', hk', hsecond⟩, -⟩ := hrestored
  have hsame : k = k' := by
    obtain rfl : k = 1 := Option.some.inj (hk.symm.trans (by decide +kernel))
    obtain rfl : k' = 1 := Option.some.inj (hk'.symm.trans (by decide +kernel))
    rfl
  subst hsame
  have hurl := congrArg Shown.url (hfirst.symm.trans hsecond)
  exact absurd (Option.some.inj hurl) (by decide)

end BathyScaphe.Boards
