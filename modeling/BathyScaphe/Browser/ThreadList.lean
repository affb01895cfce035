import Mathlib.Data.List.DropRight
import BathyScaphe.Foundation.NSString
import BathyScaphe.Lib.PartialKey
import BathyScaphe.Lib.Run
import Mathlib.Data.List.Infix

/-!
# The thread list of the browser

The list keeps the items of the last cursor in sorted form and the items that the
search string leaves. An operation refreshes the second from the first; a thread is
looked up in either by the identifier of its log path alone.
-/

namespace BathyScaphe

namespace NSString

def lastPathComponent (path : NSString) : NSString :=
  match path.rdropWhile (· == uc '/') with
  | [] => path.take 1
  | path => path.rtakeWhile (· != uc '/')

def stringByDeletingLastPathComponent (path : NSString) : NSString :=
  match path.rdropWhile (· == uc '/') with
  | [] => path.take 1
  | path =>
    let parent := path.rdropWhile (· != uc '/')
    match parent.rdropWhile (· == uc '/') with
    | [] => parent.take 1
    | parent => parent

def stringByDeletingPathExtension (path : NSString) : NSString :=
  match path.rdropWhile (· == uc '/') with
  | [] => path.take 1
  | path =>
    let stem := (path.rtakeWhile (· != uc '/')).rdropWhile (· != uc '.')
    if stem.length ≤ 1 then path else (path.rdropWhile (· != uc '.')).dropLast

end NSString

namespace Browser

def CMRThreadSubjectIndexKey : NSString := ns "Number"

def ThreadNameColumn : NSString := ns "threadName"

structure NSSortDescriptor where
  key : NSString
  ascending : Bool
  selector : NSString
  deriving DecidableEq

structure SQLiteRow where
  boardID : Nat
  boardName : NSString
  identifier : NSString
  threadName : NSString
  numberOfAll : Option Int
  numberOfRead : Option Int
  modifiedDate : Option Int
  threadStatus : Int
  isDatOchi : Option Int
  isNew : Option Int
  threadNumber : Option Int
  deriving DecidableEq

/-- An item holds the columns of its row, which is that of a board: the database
numbers the boards from one. -/
abbrev BSThreadListItem := { row : SQLiteRow // row.boardID ≠ 0 }

namespace BSThreadListItem

def identifier (item : BSThreadListItem) : NSString := item.val.identifier

def boardName (item : BSThreadListItem) : NSString := item.val.boardName

def threadName (item : BSThreadListItem) : NSString := item.val.threadName

def itemFromRow (row : SQLiteRow) : Option BSThreadListItem :=
  if h : row.boardID = 0 then none else some ⟨row, h⟩

def threadItemArrayFromCursor (cursor : List SQLiteRow) : List BSThreadListItem :=
  cursor.filterMap itemFromRow

theorem itemFromRow_val (item : BSThreadListItem) : itemFromRow item.val = some item := by
  simp [itemFromRow, item.property]

@[simp] theorem threadItemArrayFromCursor_val (items : List BSThreadListItem) :
    threadItemArrayFromCursor (items.map (·.val)) = items := by
  rw [threadItemArrayFromCursor, List.filterMap_map]
  exact (List.filterMap_congr fun item _ => itemFromRow_val item).trans List.filterMap_some

end BSThreadListItem

open BSThreadListItem

/-- The place of the first item with the identifier; `NSNotFound` is `none`. -/
def indexOfIdentifier (array : List BSThreadListItem) (search : NSString) : Option Nat :=
  array.findIdx? fun item => search == item.identifier

/-- The first descriptor that tells two items apart decides their order. -/
def compareByDescriptors (compareObject : NSSortDescriptor → BSThreadListItem →
    BSThreadListItem → Ordering)
    (descriptors : List NSSortDescriptor) (a b : BSThreadListItem) : Ordering :=
  descriptors.foldr (fun descriptor later => (compareObject descriptor a b).then later) .eq

/-- What sorting, predicates and string normalisation are to the code. -/
structure Cocoa where
  compareObject : NSSortDescriptor → BSThreadListItem → BSThreadListItem → Ordering
  sortedArrayUsingDescriptors : List BSThreadListItem → List NSSortDescriptor →
    List BSThreadListItem
  /-- `CONTAINS[cd]` -/
  containsCD : NSString → NSString → Bool
  /-- `CFStringNormalize` to form C -/
  normalizedFormC : NSString → NSString
  sorted_perm : ∀ items descriptors, (sortedArrayUsingDescriptors items descriptors).Perm items
  sorted_pairwise : ∀ items descriptors, (sortedArrayUsingDescriptors items descriptors).Pairwise
    fun a b =>
    compareByDescriptors compareObject descriptors a b ≠ .gt

variable (cocoa : Cocoa)

def datIdentifierWithLogPath (filepath : NSString) : NSString :=
  filepath.lastPathComponent.stringByDeletingPathExtension

def boardNameWithLogPath (filepath : NSString) : NSString :=
  cocoa.normalizedFormC filepath.stringByDeletingLastPathComponent.lastPathComponent

inductive BoardListItemKind where
  | favorites
  | smart
  | board
  | folder
  deriving DecidableEq

structure BSDBThreadList where
  boardListItem : BoardListItemKind
  mCursor : Option (List BSThreadListItem) := none
  filteredThreads : Option (List BSThreadListItem) := none
  mSearchString : Option NSString := none
  mSortDescriptors : Option (List NSSortDescriptor) := none

namespace BSDBThreadList

def isFavorites (list : BSDBThreadList) : Bool := list.boardListItem = .favorites

def isSmartItem (list : BSDBThreadList) : Bool := list.boardListItem = .smart

def cachedDescriptor : NSSortDescriptor :=
  { key := ns "isnew", ascending := false, selector := ns "numericCompare:" }

def adjustedSortDescriptors (collectByNew : Bool) (list : BSDBThreadList) :
    Option (List NSSortDescriptor) :=
  if !collectByNew then
    list.mSortDescriptors
  else
    list.mSortDescriptors.map (cachedDescriptor :: ·)

def predicate (searchString : NSString) (item : BSThreadListItem) : Bool :=
  cocoa.containsCD item.threadName searchString

def updateFilteredThreadsIfNeeded (list : BSDBThreadList) : BSDBThreadList :=
  match list.mSearchString with
  | some searchString =>
    if 0 < searchString.length then
      { list with filteredThreads := list.mCursor.map (·.filter (predicate cocoa searchString)) }
    else
      { list with filteredThreads := list.mCursor }
  | none => { list with filteredThreads := list.mCursor }

def sortCursor (collectByNew : Bool) (list : BSDBThreadList) : BSDBThreadList :=
  let descriptors := (list.adjustedSortDescriptors collectByNew).getD []
  updateFilteredThreadsIfNeeded cocoa
    { list with mCursor := list.mCursor.map (cocoa.sortedArrayUsingDescriptors · descriptors) }

/-- `none` where `objectAtIndex:` raises -/
def sortByDescriptors (collectByNew : Bool) (list : BSDBThreadList) : Option BSDBThreadList :=
  if list.isFavorites || list.isSmartItem then
    match list.mSortDescriptors with
    | none => some (list.sortCursor cocoa collectByNew)
    | some [] => none
    | some (descriptor :: _) =>
      if descriptor.key = CMRThreadSubjectIndexKey then
        some list
      else some (list.sortCursor cocoa collectByNew)
  else some (list.sortCursor cocoa collectByNew)

def setSortDescriptors (inDescs : List NSSortDescriptor) (list : BSDBThreadList) : BSDBThreadList :=
  { list with mSortDescriptors := some inDescs }

def setCursorOnMainThread (collectByNew : Bool) (cursor : Option (List SQLiteRow))
    (list : BSDBThreadList) : BSDBThreadList :=
  match cursor with
  | none => list
  | some cursor =>
    let descriptors := (list.adjustedSortDescriptors collectByNew).getD []
    let array := threadItemArrayFromCursor cursor
    updateFilteredThreadsIfNeeded cocoa
      { list with mCursor := some (cocoa.sortedArrayUsingDescriptors array descriptors) }

def filterByString (string : Option NSString) (list : BSDBThreadList) : BSDBThreadList :=
  updateFilteredThreadsIfNeeded cocoa { list with mSearchString := string }

def searched (list : BSDBThreadList) (ignores : Bool) : List BSThreadListItem :=
  if ignores then list.mCursor.getD [] else list.filteredThreads.getD []

def indexOfThreadWithPath (filepath : NSString) (ignores : Bool) (list : BSDBThreadList) :
    Option Nat :=
  indexOfIdentifier (list.searched ignores) (datIdentifierWithLogPath filepath)

def mixes (list : BSDBThreadList) : Bool := list.isFavorites || list.isSmartItem

end BSDBThreadList

/-- A list under the preference, with what the last lookup answered. -/
structure Session where
  list : BSDBThreadList
  collectByNew : Bool
  answer : Option (NSString × Bool × Option Nat) := none

/-- A cursor has rows of boards only. -/
inductive Operation where
  | setCursor (cursor : Option (List BSThreadListItem))
  | setSortDescriptors (inDescs : List NSSortDescriptor)
  | setCollectByNew (flag : Bool)
  | filterByString (string : Option NSString)
  | indexOfThreadWithPath (filepath : NSString) (ignores : Bool)

namespace Session

def step (s : Session) : Operation → Option Session
  | .setCursor cursor =>
    let list := s.list.setCursorOnMainThread cocoa s.collectByNew (cursor.map (·.map (·.val)))
    some { s with list, answer := none }
  | .setSortDescriptors inDescs => do
    let list ← (s.list.setSortDescriptors inDescs).sortByDescriptors cocoa s.collectByNew
    return { s with list, answer := none }
  | .setCollectByNew flag => do
    let list ← s.list.sortByDescriptors cocoa flag
    return { list, collectByNew := flag }
  | .filterByString string =>
      some { s with list := s.list.filterByString cocoa string, answer := none }
  | .indexOfThreadWithPath filepath ignores =>
    some { s with
      answer := some (filepath, ignores, s.list.indexOfThreadWithPath filepath ignores) }

end Session

structure Asked where
  rows : List BSThreadListItem := []
  searchString : Option NSString := none
  descriptors : Option (List NSSortDescriptor) := none
  collectByNew : Bool

namespace Asked

def perform (t : Asked) : Operation → Asked
  | .setCursor none => t
  | .setCursor (some rows) => { t with rows }
  | .setSortDescriptors inDescs => { t with descriptors := some inDescs }
  | .setCollectByNew flag => { t with collectByNew := flag }
  | .filterByString string => { t with searchString := string }
  | .indexOfThreadWithPath _ _ => t

/-- New threads come first where they are collected; before the first descriptors
there is no order. -/
def adjusted (t : Asked) : List NSSortDescriptor :=
  match t.descriptors with
  | none => []
  | some descriptors => if t.collectByNew then BSDBThreadList.cachedDescriptor :: descriptors
      else descriptors

def wants (t : Asked) (item : BSThreadListItem) : Bool :=
  match t.searchString with
  | none | some [] => true
  | some searchString => cocoa.containsCD item.threadName searchString

def searched (t : Asked) (ignores : Bool) : List BSThreadListItem :=
  if ignores then t.rows else t.rows.filter (t.wants cocoa)

end Asked

def IsThread (filepath : NSString) (item : BSThreadListItem) : Prop :=
  item.boardName = boardNameWithLogPath cocoa filepath ∧ item.identifier =
    datIdentifierWithLogPath filepath

structure Shows (s : Session) (t : Asked) : Prop where
  perm : (s.list.filteredThreads.getD []).Perm (t.rows.filter (t.wants cocoa))
  ordered : (s.list.filteredThreads.getD []).Pairwise fun a b =>
    compareByDescriptors cocoa.compareObject t.adjusted a b ≠ .gt
  answers : ∀ filepath ignores found, s.answer = some (filepath, ignores, found) →
    match found with
    | some i => ∃ item, (s.list.searched ignores)[i]? = some item ∧ IsThread cocoa filepath item
    | none => ∀ item ∈ t.searched cocoa ignores, ¬IsThread cocoa filepath item

def Operation.NotByIndex (mixes : Bool) : Operation → Prop
  | .setSortDescriptors inDescs => mixes → ∀ d ∈ inDescs.head?, d.key ≠ CMRThreadSubjectIndexKey
  | _ => True

/-- No list of several boards is sorted by an empty array, and in an array that is gone
through for a thread, a row of another board with its identifier only comes after the
thread's own. -/
def Session.Allowed (s : Session) : Operation → Prop
  | .setSortDescriptors inDescs => s.list.mixes → inDescs ≠ []
  | .setCollectByNew _ => s.list.mixes → s.list.mSortDescriptors ≠ some []
  | .indexOfThreadWithPath filepath ignores =>
    PartialKey.Leads (fun item => datIdentifierWithLogPath filepath == item.identifier)
      (IsThread cocoa filepath)
      (s.list.searched ignores)
  | _ => True

/-- The cursor holds the rows that are asked for, under what else is asked. -/
structure Holds (kind : BoardListItemKind) (list : BSDBThreadList) (t : Asked) : Prop where
  perm : (list.mCursor.getD []).Perm t.rows
  search : list.mSearchString = t.searchString
  descriptors : list.mSortDescriptors = t.descriptors
  kind : list.boardListItem = kind
  notByIndex : list.mixes → ∀ descriptors ∈ t.descriptors, ∀ d ∈ descriptors.head?,
    d.key ≠ CMRThreadSubjectIndexKey

def Ordered (list : BSDBThreadList) (t : Asked) : Prop :=
  (list.mCursor.getD []).Pairwise fun a b =>
    compareByDescriptors cocoa.compareObject t.adjusted a b ≠ .gt

/-- What every step keeps: the sorted form holds the rows of the cursor, and the filtered
form is what the search string leaves of it. -/
structure Tracks (kind : BoardListItemKind) (s : Session) (t : Asked) : Prop where
  holds : Holds kind s.list t
  ordered : Ordered cocoa s.list t
  filtered : s.list.filteredThreads.getD [] = (s.list.mCursor.getD []).filter (t.wants cocoa)
  collectByNew : s.collectByNew = t.collectByNew

variable {cocoa}

namespace BSDBThreadList

theorem updateFilteredThreadsIfNeeded_eq (cocoa : Cocoa) (list : BSDBThreadList) :
    ∃ threads, list.updateFilteredThreadsIfNeeded cocoa = { list with filteredThreads := threads } ∧
      ∀ t : Asked, list.mSearchString = t.searchString →
        threads.getD [] = (list.mCursor.getD []).filter (t.wants cocoa) := by
  unfold updateFilteredThreadsIfNeeded
  cases hsearch : list.mSearchString with
  | none =>
    refine ⟨list.mCursor, rfl, fun t ht => ?_⟩
    have hwants : t.wants cocoa = fun _ => true := funext fun item => by simp [Asked.wants, ← ht]
    simp [hwants]
  | some searchString =>
    cases searchString with
    | nil =>
      refine ⟨list.mCursor, rfl, fun t ht => ?_⟩
      have hwants : t.wants cocoa = fun _ => true := funext fun item => by simp [Asked.wants, ← ht]
      simp [hwants]
    | cons c rest =>
      refine ⟨_, if_pos (Nat.zero_lt_succ _), fun t ht => ?_⟩
      have hwants : t.wants cocoa = predicate cocoa (c :: rest) :=
        funext fun item => by simp [Asked.wants, ← ht, predicate]
      rw [hwants]
      cases list.mCursor <;> rfl

theorem adjustedSortDescriptors_eq {list : BSDBThreadList} {t : Asked}
    (h : list.mSortDescriptors = t.descriptors) :
    (list.adjustedSortDescriptors t.collectByNew).getD [] = t.adjusted := by
  unfold adjustedSortDescriptors Asked.adjusted
  rw [h]
  cases t.descriptors <;> cases t.collectByNew <;> rfl

/-- A list of several boards that is sorted by an empty array raises, and no other. -/
theorem sortByDescriptors_eq {list : BSDBThreadList}
    (h : list.mixes → ∀ descriptors ∈ list.mSortDescriptors, ∀ d ∈ descriptors.head?,
      d.key ≠ CMRThreadSubjectIndexKey)
    (collectByNew : Bool) :
    list.sortByDescriptors cocoa collectByNew =
      if list.mixes = true ∧ list.mSortDescriptors = some [] then none
      else some (list.sortCursor cocoa collectByNew) := by
  unfold sortByDescriptors
  cases hmixes : list.isFavorites || list.isSmartItem with
  | false => simp [mixes, hmixes]
  | true =>
    rcases hdescriptors : list.mSortDescriptors with _ | descriptors
    · simp
    · cases descriptors with
      | nil => simp [mixes, hmixes]
      | cons d rest =>
        have hkey : d.key ≠ CMRThreadSubjectIndexKey := h hmixes _ hdescriptors d rfl
        simp [hkey]

theorem exists_sortByDescriptors_iff (cocoa : Cocoa) (list : BSDBThreadList)
    (h : list.mixes → ∀ descriptors ∈ list.mSortDescriptors, ∀ d ∈ descriptors.head?,
      d.key ≠ CMRThreadSubjectIndexKey)
    (collectByNew : Bool) :
    (∃ list', list.sortByDescriptors cocoa collectByNew = some list') ↔
      (list.mixes → list.mSortDescriptors ≠ some []) := by
  rw [sortByDescriptors_eq h]
  split
  next hempty => exact iff_of_false (by simp) fun hsorted => hsorted hempty.1 hempty.2
  next hsorted => exact iff_of_true ⟨_, rfl⟩ fun hmixes hempty => hsorted ⟨hmixes, hempty⟩

end BSDBThreadList

theorem tracks_refresh (h : Holds kind list t) (hordered : Ordered cocoa list t)
    (hcollect : collectByNew = t.collectByNew)
    (answer : Option (NSString × Bool × Option Nat)) :
    Tracks cocoa kind
      { list := list.updateFilteredThreadsIfNeeded cocoa, collectByNew, answer } t := by
  obtain ⟨threads, hupdate, hthreads⟩ := list.updateFilteredThreadsIfNeeded_eq cocoa
  rw [hupdate]
  exact ⟨⟨h.perm, h.search, h.descriptors, h.kind, h.notByIndex⟩, hordered,
    hthreads t h.search, hcollect⟩

/-- Sorting again brings the rows in the order of the descriptors that are set. -/
theorem tracks_sortByDescriptors (h : Holds kind list t) (hcollect : collectByNew = t.collectByNew)
    (hsort : list.sortByDescriptors cocoa collectByNew = some list')
    (answer : Option (NSString × Bool × Option Nat)) :
    Tracks cocoa kind { list := list', collectByNew, answer } t := by
  rw [BSDBThreadList.sortByDescriptors_eq (by simpa only [h.descriptors] using h.notByIndex)]
    at hsort
  split at hsort
  · simp at hsort
  · obtain rfl := Option.some.inj hsort
    simp only [BSDBThreadList.sortCursor, hcollect,
      BSDBThreadList.adjustedSortDescriptors_eq h.descriptors]
    apply tracks_refresh _ _ rfl
    · refine ⟨?_, h.search, h.descriptors, h.kind, h.notByIndex⟩
      cases hcursor : list.mCursor with
      | none => simpa [hcursor] using h.perm
      | some items =>
        exact (cocoa.sorted_perm items t.adjusted).trans (by simpa [hcursor] using h.perm)
    · unfold Ordered
      cases list.mCursor with
      | none => exact List.Pairwise.nil
      | some items => exact cocoa.sorted_pairwise items t.adjusted

theorem tracks_step (hindex : op.NotByIndex s.list.mixes) (h : Tracks cocoa kind s t)
    (hstep : s.step cocoa op = some s') :
    Tracks cocoa kind s' (t.perform op) := by
  obtain ⟨hholds, hordered, hfiltered, hcollect⟩ := h
  cases op with
  | setCursor cursor =>
    obtain rfl := Option.some.inj hstep
    cases cursor with
    | none => exact ⟨hholds, hordered, hfiltered, hcollect⟩
    | some rows =>
      simp only [BSDBThreadList.setCursorOnMainThread, Option.map_some,
        threadItemArrayFromCursor_val, hcollect,
        BSDBThreadList.adjustedSortDescriptors_eq hholds.descriptors]
      apply tracks_refresh
      · exact ⟨cocoa.sorted_perm rows t.adjusted, hholds.search, hholds.descriptors,
          hholds.kind, hholds.notByIndex⟩
      · exact cocoa.sorted_pairwise rows t.adjusted
      · rfl
  | setSortDescriptors inDescs =>
    obtain ⟨list, hsort, hs'⟩ := Option.bind_eq_some_iff.mp hstep
    obtain rfl := Option.some.inj hs'
    apply tracks_sortByDescriptors _ _ hsort
    · refine ⟨hholds.perm, hholds.search, rfl, hholds.kind, fun hmixes descriptors hset => ?_⟩
      obtain rfl := Option.some.inj hset
      exact hindex hmixes
    · exact hcollect
  | setCollectByNew flag =>
    obtain ⟨list, hsort, hs'⟩ := Option.bind_eq_some_iff.mp hstep
    obtain rfl := Option.some.inj hs'
    apply tracks_sortByDescriptors _ _ hsort
    · exact ⟨hholds.perm, hholds.search, hholds.descriptors, hholds.kind, hholds.notByIndex⟩
    · rfl
  | filterByString string =>
    obtain rfl := Option.some.inj hstep
    apply tracks_refresh
    · exact ⟨hholds.perm, rfl, hholds.descriptors, hholds.kind, hholds.notByIndex⟩
    · exact hordered
    · exact hcollect
  | indexOfThreadWithPath filepath ignores =>
    obtain rfl := Option.some.inj hstep
    exact ⟨hholds, hordered, hfiltered, hcollect⟩

theorem mixes_of_holds (h : Holds kind list t) : list.mixes = BSDBThreadList.mixes
    { boardListItem := kind } := by
  simp [BSDBThreadList.mixes, BSDBThreadList.isFavorites, BSDBThreadList.isSmartItem, h.kind]

theorem Tracks.shows (h : Tracks cocoa kind s t) (hanswer : s.answer = none) : Shows cocoa s t where
  perm := h.filtered ▸ h.holds.perm.filter (t.wants cocoa)
  ordered := h.filtered ▸ h.ordered.filter (t.wants cocoa)
  answers filepath ignores found hfound := by simp [hanswer] at hfound

theorem Tracks.searched_perm (h : Tracks cocoa kind s t) (ignores : Bool) :
    (s.list.searched ignores).Perm (t.searched cocoa ignores) := by
  cases ignores with
  | true => exact h.holds.perm
  | false =>
    unfold BSDBThreadList.searched
    rw [if_neg Bool.false_ne_true, h.filtered]
    exact h.holds.perm.filter (t.wants cocoa)

/-- A lookup answers for the thread of the path just where no row of another board leads
in the array. -/
theorem answers_iff (h : Tracks cocoa kind s t) (filepath : NSString) (ignores : Bool) :
    (match s.list.indexOfThreadWithPath filepath ignores with
      | some i => ∃ item, (s.list.searched ignores)[i]? = some item ∧ IsThread cocoa filepath item
      | none => ∀ item ∈ t.searched cocoa ignores, ¬IsThread cocoa filepath item) ↔
      s.Allowed cocoa (.indexOfThreadWithPath filepath ignores) := by
  have hpart : ∀ item, IsThread cocoa filepath item →
    (datIdentifierWithLogPath filepath == item.identifier) = true :=
    fun item hitem => by simp [hitem.2]
  refine Iff.trans ?_ (PartialKey.finds_findIdx?_iff hpart (s.list.searched ignores))
  unfold BSDBThreadList.indexOfThreadWithPath indexOfIdentifier
  cases (s.list.searched ignores).findIdx? fun item => datIdentifierWithLogPath filepath ==
    item.identifier with
  | some i => exact Iff.rfl
  | none => exact forall_congr' fun item => imp_congr_left (h.searched_perm ignores).mem_iff.symm

theorem step_sorts_iff {sorted : Option BSDBThreadList} {make : BSDBThreadList → Session}
    (hindex : op.NotByIndex s.list.mixes) (h : Tracks cocoa kind s t)
    (hstep : s.step cocoa op = sorted.bind fun list => some (make list))
    (hanswer : ∀ list, (make list).answer = none) :
    (∃ s', s.step cocoa op = some s' ∧ Shows cocoa s' (t.perform op)) ↔
      ∃ list, sorted = some list := by
  constructor
  · rintro ⟨s', hs', -⟩
    obtain ⟨list, hsort, -⟩ := Option.bind_eq_some_iff.mp (hstep.symm.trans hs')
    exact ⟨list, hsort⟩
  · rintro ⟨list, hsort⟩
    have hs' : s.step cocoa op = some (make list) := by rw [hstep, hsort, Option.bind_some]
    exact ⟨_, hs', (tracks_step hindex h hs').shows (hanswer list)⟩

theorem step_shows_iff (hindex : op.NotByIndex s.list.mixes) (h : Tracks cocoa kind s t) :
    (∃ s', s.step cocoa op = some s' ∧ Shows cocoa s' (t.perform op)) ↔ s.Allowed cocoa op := by
  cases op with
  | setCursor cursor => exact iff_of_true ⟨_, rfl, (tracks_step hindex h rfl).shows rfl⟩ trivial
  | filterByString string => exact iff_of_true ⟨_, rfl,
      (tracks_step hindex h rfl).shows rfl⟩ trivial
  | setSortDescriptors inDescs =>
    have hsorts := (s.list.setSortDescriptors inDescs).exists_sortByDescriptors_iff cocoa
      (fun hmixes descriptors hset => Option.some.inj hset ▸ hindex hmixes) s.collectByNew
    refine (step_sorts_iff hindex h rfl fun _ => rfl).trans ?_
    exact hsorts.trans (imp_congr_right fun _ => not_congr Option.some_inj)
  | setCollectByNew flag =>
    have hsorts :=
      s.list.exists_sortByDescriptors_iff cocoa (h.holds.descriptors ▸ h.holds.notByIndex) flag
    exact (step_sorts_iff hindex h rfl fun _ => rfl).trans hsorts
  | indexOfThreadWithPath filepath ignores =>
    rw [← answers_iff h]
    constructor
    · rintro ⟨s', hstep, hshows⟩
      obtain rfl := Option.some.inj hstep
      exact hshows.answers filepath ignores _ rfl
    · intro hanswer
      have hshows := Tracks.shows (s := { s with answer := none })
        ⟨h.holds, h.ordered, h.filtered, h.collectByNew⟩ rfl
      refine ⟨_, rfl, hshows.perm, hshows.ordered, fun path ignored found hfound => ?_⟩
      obtain ⟨rfl, rfl, rfl⟩ : filepath = path ∧ ignores = ignored ∧
        s.list.indexOfThreadWithPath filepath ignores = found := by
        simpa using hfound
      exact hanswer

/-- Over every run of operations that sort no list of several boards by the index column,
the list shows what was asked of it just where no array without descriptors sorts such a
list, and no lookup goes through an array where a row of another board leads. -/
theorem run_shows_iff (kind : BoardListItemKind) (collectByNew : Bool) (ops : List Operation)
    (h : ∀ op ∈ ops, op.NotByIndex (BSDBThreadList.mixes { boardListItem := kind })) :
    (∀ pre, pre <+: ops → ∃ s,
        Run.run (Session.step cocoa) { list := { boardListItem := kind }, collectByNew } pre =
          some s ∧
          Shows cocoa s (pre.foldl Asked.perform { collectByNew })) ↔
      Run.Guarded (Session.step cocoa) (Session.Allowed cocoa)
        { list := { boardListItem := kind }, collectByNew } ops := by
  have hstart : Tracks cocoa kind { list := { boardListItem := kind }, collectByNew }
    { collectByNew } := by
    refine ⟨⟨List.Perm.nil, rfl, rfl, rfl, fun _ descriptors hset => ?_⟩,
      List.Pairwise.nil, rfl, rfl⟩
    simp at hset
  apply Run.follows_partial_iff _ _ h hstart (hstart.shows rfl)
  · intro s t op s' hop hs hstep
    exact tracks_step (mixes_of_holds hs.holds ▸ hop) hs hstep
  · intro s t op hop hs _
    exact step_shows_iff (mixes_of_holds hs.holds ▸ hop) hs

/-- Rows that are equal in every column that is sorted by stay as they are. -/
def unsortedCocoa : Cocoa where
  compareObject _ _ _ := .eq
  sortedArrayUsingDescriptors items _ := items
  containsCD title searchString := decide (searchString <:+: title)
  normalizedFormC s := s
  sorted_perm items _ := List.Perm.refl items
  sorted_pairwise items descriptors := by
    have heq : ∀ a b : BSThreadListItem, compareByDescriptors (fun _ _ _ => .eq) descriptors a b =
      .eq := by
      intro a b
      induction descriptors with
      | nil => rfl
      | cons d descriptors ih => exact ih
    exact List.pairwise_iff_forall_sublist.mpr fun _ => by simp [heq]

def itemOfBoard (boardID : Nat) (boardName : String) (h : boardID ≠ 0) : BSThreadListItem :=
  ⟨{ boardID, boardName := ns boardName, identifier := ns "1200000000", threadName := ns "t",
     numberOfAll := none, numberOfRead := none, modifiedDate := none, threadStatus := 0,
     isDatOchi := none, isNew := none, threadNumber := none }, h⟩

/-- Favorites with the threads of two boards that have the same identifier -/
def twins : List BSThreadListItem := [itemOfBoard 1 "a" (by decide), itemOfBoard 2 "b" (by decide)]

def byTitle : NSSortDescriptor := ⟨ThreadNameColumn, true, ns "compare:"⟩

def filteredTwins : List Operation :=
  [.setSortDescriptors [byTitle], .setCursor (some twins), .filterByString (some (ns "t")),
    .indexOfThreadWithPath (ns "/a/1200000000.thread") false]

theorem run_shows_favorites :
    ∃ s, Run.run (Session.step unsortedCocoa)
      { list := { boardListItem := .favorites }, collectByNew := true }
        filteredTwins = some s ∧
      Shows unsortedCocoa s (filteredTwins.foldl Asked.perform { collectByNew := true }) := by
  refine (run_shows_iff .favorites true filteredTwins ?_).mpr ?_ filteredTwins List.prefix_rfl
  · simp [filteredTwins, Operation.NotByIndex, byTitle, ThreadNameColumn,
      CMRThreadSubjectIndexKey, ns]
  · apply Run.guarded_cons rfl (fun _ => List.cons_ne_nil _ _)
    apply Run.guarded_cons rfl trivial
    apply Run.guarded_cons rfl trivial
    refine Run.guarded_cons rfl ?_ trivial
    exact PartialKey.leads_cons_iff.mpr (.inl ⟨by decide, by decide⟩)

/-- The thread of a board is looked up in favorites that list another board's first. -/
theorem not_shows_twins :
    ¬∀ pre, pre <+: [.setSortDescriptors [byTitle], .setCursor (some twins),
        .indexOfThreadWithPath (ns "/b/1200000000.thread") false] →
      ∃ s, Run.run (Session.step unsortedCocoa)
        { list := { boardListItem := .favorites }, collectByNew := false } pre = some s ∧
        Shows unsortedCocoa s (pre.foldl Asked.perform { collectByNew := false }) := by
  intro h
  obtain ⟨s, hrun, hshows⟩ := h _ List.prefix_rfl
  obtain rfl := Option.some.inj hrun
  obtain ⟨item, hitem, hboard, -⟩ :=
    hshows.answers (ns "/b/1200000000.thread") false (some 0) (by decide)
  obtain rfl := Option.some.inj hitem
  exact absurd hboard (by decide)

end Browser

end BathyScaphe
