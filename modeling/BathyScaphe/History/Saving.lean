import BathyScaphe.Boards.BoardListItem
import BathyScaphe.Foundation.PropertyList
import BathyScaphe.History.HistoryManager
import BathyScaphe.Lib.Fields
import BathyScaphe.Smart.Coding
import Mathlib.Data.List.Pairwise

/-!
# The history file

An item has a property list and a keyed archive. The archive puts the type under the
key of the visited count and reads it back from there, and most of the represented
objects do not write themselves to an archive at all. Loading adds the items of the
file one by one to empty arrays.
-/

namespace BathyScaphe.History

open Smart (Built unarchive)

variable {floatValue : Decimal → ℚ}

/-- The values of the file. The data in it is the archive of a condition. -/
inductive HistoryPlist where
  | string (s : NSString)
  | number (n : Int)
  | date (t : Int)
  | data (archive : Smart.Archived)
  | array (objects : List HistoryPlist)
  | dict (entries : List (String × HistoryPlist))

namespace HistoryPlist

def asString : HistoryPlist → Option NSString
  | .string s => some s
  | _ => none

def asNumber : HistoryPlist → Option Int
  | .number n => some n
  | _ => none

def asDate : HistoryPlist → Option Int
  | .date t => some t
  | _ => none

def asData : HistoryPlist → Option Smart.Archived
  | .data archive => some archive
  | _ => none

def asArray : HistoryPlist → Option (List HistoryPlist)
  | .array objects => some objects
  | _ => none

def asDict : HistoryPlist → Option (List (String × HistoryPlist))
  | .dict entries => some entries
  | _ => none

end HistoryPlist

def setNoneNil (entries : List (String × α)) (obj : Option α) (key : String) : List (String × α) :=
  match obj with
  | some obj => (key, obj) :: entries
  | none => entries

theorem lookup_setNoneNil (entries : List (String × α)) (obj : Option α) (key k : String) :
    (setNoneNil entries obj key).lookup k = if k = key then obj.or (entries.lookup k)
    else entries.lookup k := by
  cases obj with
  | none => simp [setNoneNil]
  | some obj =>
    rw [setNoneNil, List.lookup_cons]
    split <;> simp_all

-- Property lists of the represented objects

namespace HistoryObject

variable (names : Boards.Names)

def className : HistoryObject γ → NSString
  | .thread .. => ns "CMRThreadSignature"
  | .board _ => ns "BoardBoardListItem"
  | .favorites => ns "FavoritesBoardListItem"
  | .smart .. => ns "SmartBoardListItem"
  | .folder _ => ns "FolderBoardListItem"

/-- A folder does not recognize the selector, which raises. -/
def propertyListRepresentation : HistoryObject (Built floatValue) → Option HistoryPlist
  | .thread identifier boardName => some (.dict [("DAT", .string identifier),
      ("BBS", .string boardName)])
  | .board boardID =>
    some (.dict (setNoneNil [("BoardID", .number boardID.toNat)]
      ((names.representName boardID).map .string) "RepresentName"))
  | .favorites => some (.string names.favoritesDirectoryName)
  | .smart name condition =>
    some (.dict [("Name", .string name), ("SmartConditionConditionKey",
      .data condition.val.encode)])
  | .folder _ => none

/-- The initializers with a property list answer `nil`, which is `some none`, or
raise. -/
def threadFromPlist : HistoryPlist → Option (Option (HistoryObject (Built floatValue)))
  | .dict entries =>
    some do
      let boardName ← (entries.lookup "BBS").bind HistoryPlist.asString
      let identifier ← (entries.lookup "DAT").bind HistoryPlist.asString
      return .thread identifier boardName
  | _ => some none

def boardFromPlist : HistoryPlist → Option (Option (HistoryObject (Built floatValue)))
  | .number n => some (some (.board (PropertyList.unsignedIntValue n)))
  | .dict entries =>
    let boardID := (entries.lookup "BoardID").bind HistoryPlist.asNumber
    some (some (.board (boardID.elim 0 PropertyList.unsignedIntValue)))
  | _ => none

def smartFromPlist : HistoryPlist → Option (Option (HistoryObject (Built floatValue)))
  | .dict entries =>
    some do
      let name ← (entries.lookup "Name").bind HistoryPlist.asString
      let archive ← (entries.lookup "SmartConditionConditionKey").bind HistoryPlist.asData
      let condition ← unarchive floatValue archive
      return .smart name condition
  | _ => none

/-- `objectWithPropertyListRepresentation:` of the class with a name; a class that does
not exist is `nil`, which answers `nil`. -/
def objectWithPropertyListRepresentation (className : Option NSString) (rep : HistoryPlist) :
    Option (Option (HistoryObject (Built floatValue))) :=
  if className = some (ns "CMRThreadSignature") then threadFromPlist rep
  else if className = some (ns "BoardBoardListItem") then boardFromPlist rep
  else if className = some (ns "FavoritesBoardListItem") then some (some .favorites)
  else if className = some (ns "SmartBoardListItem") then smartFromPlist rep
  else if className = some (ns "FolderBoardListItem") then none
  else some none

theorem object_propertyListRepresentation {object : HistoryObject (Built floatValue)}
    {rep : HistoryPlist}
    (h : object.propertyListRepresentation names = some rep) :
    objectWithPropertyListRepresentation (some object.className) rep = some (some object) := by
  cases object with
  | thread identifier boardName =>
    obtain rfl := Option.some.inj h
    rfl
  | board boardID =>
    obtain rfl := Option.some.inj h
    have hlookup : (setNoneNil [("BoardID", HistoryPlist.number boardID.toNat)]
        ((names.representName boardID).map .string) "RepresentName").lookup "BoardID" =
        some (.number boardID.toNat) := by
      rw [lookup_setNoneNil, if_neg (by decide)]
      rfl
    rw [objectWithPropertyListRepresentation, className, if_neg (by decide), if_pos rfl,
      boardFromPlist, hlookup]
    exact congrArg (fun boardID => some (some (HistoryObject.board boardID)))
      (PropertyList.unsignedIntValue_toNat boardID)
  | favorites => rfl
  | smart name condition =>
    obtain rfl := Option.some.inj h
    have hcondition := Smart.unarchive_encode floatValue condition
    rw [objectWithPropertyListRepresentation, className, if_neg (by decide), if_neg (by decide),
      if_neg (by decide), if_pos rfl, smartFromPlist]
    show some ((unarchive floatValue condition.val.encode).bind fun condition =>
      some (HistoryObject.smart name condition)) = _
    rw [hcondition, Option.bind_some]
  | folder name => cases h

theorem propertyListRepresentation_eq_none {object : HistoryObject (Built floatValue)} :
    object.propertyListRepresentation names = none ↔ ∃ name, object = .folder name := by
  cases object <;> simp [propertyListRepresentation]

end HistoryObject

-- Items

namespace CMRHistoryItem

variable (names : Boards.Names)

def objectRepresentation : Option (HistoryObject (Built floatValue)) → Option (Option HistoryPlist)
  | none => some none
  | some object => (object.propertyListRepresentation names).map some

def dictionary (item : CMRHistoryItem (Built floatValue)) (object : Option HistoryPlist) :
    List (String × HistoryPlist) :=
  let dict := setNoneNil [] (item.title.map .string) "Title"
  let dict := setNoneNil dict (some (.date item.historyDate)) "HistoryDate"
  let className := item.representedObject.map fun object => .string object.className
  let dict := setNoneNil dict className "RepresentedClass"
  let dict := setNoneNil dict object "RepresentedObject"
  let dict := setNoneNil dict (some (.number item.type)) "HistoryType"
  setNoneNil dict (some (.number item.visitedCount.toNat)) "VisitedCount"

def propertyListRepresentation (item : CMRHistoryItem (Built floatValue)) : Option HistoryPlist :=
  (objectRepresentation names item.representedObject).map fun object =>
    .dict (item.dictionary object)

/-- An object that is not there is asked as `nil` by a class that is not there. -/
def objectFromDictionary (entries : List (String × HistoryPlist)) :
    Option (Option (HistoryObject (Built floatValue))) :=
  match entries.lookup "RepresentedObject" with
  | none => some none
  | some rep =>
    HistoryObject.objectWithPropertyListRepresentation
      ((entries.lookup "RepresentedClass").bind HistoryPlist.asString) rep

/-- `nil`, which is `some none`, for everything but a dictionary. No item without a
date is made. -/
def objectWithPropertyListRepresentation : HistoryPlist → Option
    (Option (CMRHistoryItem (Built floatValue)))
  | .dict entries =>
    (objectFromDictionary entries).bind fun object =>
      ((entries.lookup "HistoryDate").bind HistoryPlist.asDate).map fun historyDate =>
        some
          { title := (entries.lookup "Title").bind HistoryPlist.asString
            type := ((entries.lookup "HistoryType").bind HistoryPlist.asNumber).getD 0
            historyDate := historyDate
            representedObject := object
            visitedCount :=
              ((entries.lookup "VisitedCount").bind HistoryPlist.asNumber).elim
              0 PropertyList.unsignedIntValue }
  | _ => some none

theorem propertyListRepresentation_eq_none {item : CMRHistoryItem (Built floatValue)} :
    item.propertyListRepresentation names = none ↔ ∃ name, item.representedObject =
      some (.folder name) := by
  cases hobject : item.representedObject with
  | none => simp [propertyListRepresentation, objectRepresentation, hobject]
  | some object =>
    rw [propertyListRepresentation, hobject, objectRepresentation, Option.map_map,
      Option.map_eq_none_iff, HistoryObject.propertyListRepresentation_eq_none]
    simp

theorem objectFromDictionary_dictionary {item : CMRHistoryItem (Built floatValue)}
    {object : Option HistoryPlist}
    (h : objectRepresentation names item.representedObject = some object) :
    objectFromDictionary (item.dictionary object) = some item.representedObject := by
  have hobject : (item.dictionary object).lookup "RepresentedObject" = object := by
    simp [dictionary, lookup_setNoneNil]
  have hclass : ((item.dictionary object).lookup "RepresentedClass").bind HistoryPlist.asString =
      item.representedObject.map HistoryObject.className := by
    cases hclass : item.representedObject <;>
      simp [dictionary, lookup_setNoneNil, hclass, HistoryPlist.asString]
  rw [objectFromDictionary, hobject, hclass]
  cases hrepresented : item.representedObject with
  | none =>
    rw [hrepresented] at h
    obtain rfl := Option.some.inj h
    rfl
  | some represented =>
    rw [hrepresented, objectRepresentation, Option.map_eq_some_iff] at h
    obtain ⟨rep, hrep, rfl⟩ := h
    exact HistoryObject.object_propertyListRepresentation names hrep

theorem object_propertyListRepresentation {item : CMRHistoryItem (Built floatValue)}
    {rep : HistoryPlist}
    (h : item.propertyListRepresentation names = some rep) :
    objectWithPropertyListRepresentation rep = some (some item) := by
  rw [propertyListRepresentation, Option.map_eq_some_iff] at h
  obtain ⟨object, hobject, rfl⟩ := h
  have hdecoded : objectFromDictionary (item.dictionary object) = some item.representedObject :=
    objectFromDictionary_dictionary names hobject
  have htitle : ((item.dictionary object).lookup "Title").bind HistoryPlist.asString =
    item.title := by
    cases htitle : item.title <;> simp [dictionary, lookup_setNoneNil, htitle,
      HistoryPlist.asString]
  have hdate : ((item.dictionary object).lookup "HistoryDate").bind HistoryPlist.asDate =
      some item.historyDate := by
    simp [dictionary, lookup_setNoneNil, HistoryPlist.asDate]
  have htype : ((item.dictionary object).lookup "HistoryType").bind HistoryPlist.asNumber =
    some item.type := by
    simp [dictionary, lookup_setNoneNil, HistoryPlist.asNumber]
  have hcount : ((item.dictionary object).lookup "VisitedCount").bind HistoryPlist.asNumber =
      some (item.visitedCount.toNat : Int) := by
    simp [dictionary, lookup_setNoneNil, HistoryPlist.asNumber]
  rw [objectWithPropertyListRepresentation, hdecoded, htitle, hdate, htype, hcount]
  simp [PropertyList.unsignedIntValue_toNat]

/-- An item comes back from its property list unless its object is a folder. -/
theorem restored_iff (item : CMRHistoryItem (Built floatValue)) :
    (item.propertyListRepresentation names).bind objectWithPropertyListRepresentation =
      some (some item) ↔ ¬∃ name, item.representedObject = some (.folder name) := by
  rw [← propertyListRepresentation_eq_none names]
  cases hrep : item.propertyListRepresentation names with
  | none => simp
  | some rep => simp [object_propertyListRepresentation names hrep]

end CMRHistoryItem

-- Keyed archives

/-- The archive of an object of the board list: what it has beside its class is not
encoded. -/
inductive ArchivedItem where
  | board
  | favorites
  | smart
  | folder

/-- The values in the keyed archive of an item. -/
inductive ArchivedValue where
  | string (s : NSString)
  | date (t : Int)
  | object (archived : ArchivedItem)
  | int32 (n : Int)

def HistoryObject.encodeWithCoder : HistoryObject γ → Option ArchivedItem
  | .thread .. => none  -- does not recognize the selector
  | .board _ => some .board
  | .favorites => some .favorites
  | .smart .. => some .smart
  | .folder _ => some .folder

/-- `initWithCoder:` is `init`. What it makes of a smart board or a folder has no name;
there is no such object in a history. -/
def HistoryObject.initWithCoder : ArchivedItem → Option (HistoryObject γ)
  | .board => some (.board 0)
  | .favorites => some .favorites
  | .smart => none
  | .folder => none

namespace ArchivedValue

def asString : ArchivedValue → Option NSString
  | .string s => some s
  | _ => none

def asDate : ArchivedValue → Option Int
  | .date t => some t
  | _ => none

def asInt32 : ArchivedValue → Option Int
  | .int32 n => some n
  | _ => none

def asObject : ArchivedValue → Option ArchivedItem
  | .object archived => some archived
  | _ => none

end ArchivedValue

namespace CMRHistoryItem

def objectArchive : Option (HistoryObject γ) → Option (Option ArchivedItem)
  | none => some none
  | some object => object.encodeWithCoder.map some

def archive (item : CMRHistoryItem γ) (object : Option ArchivedItem) :
    List (String × ArchivedValue) :=
  let coder := setNoneNil [] (item.title.map .string) "Title"
  let coder := setNoneNil coder (some (.date item.historyDate)) "HistoryDate"
  let coder := setNoneNil coder (object.map .object) "RepresentedObject"
  let coder := setNoneNil coder (some (.int32 item.type)) "HistoryType"
  setNoneNil coder (some (.int32 item.type)) "VisitedCount"

def encodeWithCoder (item : CMRHistoryItem γ) : Option (List (String × ArchivedValue)) :=
  (objectArchive item.representedObject).map item.archive

def objectFromArchive : Option ArchivedItem → Option (Option (HistoryObject γ))
  | none => some none
  | some archived => (HistoryObject.initWithCoder archived).map some

def decodeInt32ForKey (coder : List (String × ArchivedValue)) (key : String) : Int :=
  ((coder.lookup key).bind ArchivedValue.asInt32).getD 0

def initWithCoder (coder : List (String × ArchivedValue)) : Option (CMRHistoryItem γ) :=
  (objectFromArchive ((coder.lookup "RepresentedObject").bind ArchivedValue.asObject)).bind
  fun object =>
    ((coder.lookup "HistoryDate").bind ArchivedValue.asDate).map fun historyDate =>
      { title := (coder.lookup "Title").bind ArchivedValue.asString
        historyDate := historyDate
        representedObject := object
        -- `HistoryType` is decoded into the type too, before this
        type := decodeInt32ForKey coder "VisitedCount"
        visitedCount := 0 }

theorem initWithCoder_archive (item : CMRHistoryItem γ) (object : Option ArchivedItem) :
    initWithCoder (item.archive object) =
      (objectFromArchive object).map fun represented : Option (HistoryObject γ) =>
        { item with representedObject := represented, visitedCount := 0 } := by
  have htitle : ((item.archive object).lookup "Title").bind ArchivedValue.asString =
    item.title := by
    cases htitle : item.title <;> simp [archive, lookup_setNoneNil, htitle, ArchivedValue.asString]
  have hdate : ((item.archive object).lookup "HistoryDate").bind ArchivedValue.asDate =
    some item.historyDate := by
    simp [archive, lookup_setNoneNil, ArchivedValue.asDate]
  have htype : decodeInt32ForKey (item.archive object) "VisitedCount" = item.type := by
    simp [decodeInt32ForKey, archive, lookup_setNoneNil, ArchivedValue.asInt32]
  have hobject : ((item.archive object).lookup "RepresentedObject").bind ArchivedValue.asObject =
    object := by
    cases object <;> simp [archive, lookup_setNoneNil, ArchivedValue.asObject]
  rw [initWithCoder, hobject, htitle, hdate, htype]
  cases (objectFromArchive object : Option (Option (HistoryObject γ))) <;> rfl

/-- An item comes back from its keyed archive just when it was never visited and its
object is one that the archive has all of. -/
theorem coded_iff (item : CMRHistoryItem γ) :
    item.encodeWithCoder.bind initWithCoder = some item ↔
      item.visitedCount = 0 ∧ (item.representedObject = none ∨ item.representedObject =
        some .favorites ∨
        item.representedObject = some (.board 0)) := by
  obtain ⟨type, visitedCount, title, historyDate, representedObject⟩ := item
  cases representedObject with
  | none => simp [encodeWithCoder, objectArchive, initWithCoder_archive, objectFromArchive, eq_comm]
  | some object =>
    cases object <;>
      simp [encodeWithCoder, objectArchive, initWithCoder_archive, objectFromArchive,
        HistoryObject.encodeWithCoder, HistoryObject.initWithCoder, eq_comm]

end CMRHistoryItem

-- Adding in turn

/-- The order of equal dates is the order before the sort. -/
def SortedByDate.IsStable (order : SortedByDate γ) : Prop :=
  ∀ {items : List (CMRHistoryItem γ)} {item other : CMRHistoryItem γ},
    item.IsNoOlder other → [item, other].Sublist items →
    [item, other].Sublist (order.sortedArray items)

theorem not_sublist_swap {items : List α} (h : items.Nodup) (hpair : [a, b].Sublist items) :
    ¬[b, a].Sublist items := by
  induction items with
  | nil => cases hpair
  | cons x items ih =>
    obtain ⟨hx, hnodup⟩ := List.nodup_cons.mp h
    intro hswap
    obtain htail | ⟨rest, hrest, hb⟩ := List.sublist_cons_iff.mp hpair
    · obtain hswap | ⟨rest, hrest, -⟩ := List.sublist_cons_iff.mp hswap
      · exact ih hnodup htail hswap
      · obtain ⟨rfl, -⟩ := List.cons.inj hrest
        exact hx (htail.subset (List.mem_cons_of_mem a List.mem_cons_self))
    · obtain ⟨rfl, rfl⟩ := List.cons.inj hrest
      obtain hswap | ⟨rest, hrest, -⟩ := List.sublist_cons_iff.mp hswap
      · exact hx (hswap.subset (List.mem_cons_of_mem b List.mem_cons_self))
      · obtain ⟨rfl, -⟩ := List.cons.inj hrest
        exact hx (List.singleton_sublist.mp hb)

namespace CMRHistoryManager

section
variable {query : γ → NSString} {order : SortedByDate γ} {limit : UInt32} {now : Int}
  {itemArray items : List (CMRHistoryItem γ)}

theorem addToItemArray_new (hnew : ∀ item ∈ itemArray, anItem.key query ≠ item.key query)
    (hroom : limit = 0 ∨ itemArray.length < limit.toNat) :
    addToItemArray query order limit now anItem itemArray = order.sortedArray
      (anItem :: itemArray) := by
  have hfind : itemArray.findIdx? (anItem.isEqual query) = none := by
    rw [List.findIdx?_eq_none_iff]
    intro item hitem
    rw [Bool.eq_false_iff]
    exact mt (CMRHistoryItem.isEqual_iff query).mp (hnew item hitem)
  have hkept :
    (if limit.toNat = itemArray.length then removeItem (indexOfOldestItem itemArray) itemArray
      else itemArray) = itemArray := by
    split
    · rename_i hfull
      obtain rfl | hroom := hroom
      · obtain rfl := List.length_eq_zero_iff.mp hfull.symm
        rfl
      · omega
    · rfl
  rw [addToItemArray, hfind]
  exact congrArg (fun rest => order.sortedArray (anItem :: rest)) hkept

def addAll (query : γ → NSString) (order : SortedByDate γ) (limit : UInt32) (now : Int) :
    List (CMRHistoryItem γ) → List (CMRHistoryItem γ) → List (CMRHistoryItem γ)
  | itemArray, [] => itemArray
  | itemArray, item :: items =>
    addAll query order limit now (addToItemArray query order limit now item itemArray) items

structure Fits (query : γ → NSString) (limit : UInt32) (itemArray items : List (CMRHistoryItem γ)) :
    Prop where
  distinct : ((itemArray ++ items).map (CMRHistoryItem.key query)).Nodup
  room : limit = 0 ∨ (itemArray ++ items).length ≤ limit.toNat

theorem Fits.addToItemArray_eq (h : Fits query limit itemArray (item :: items)) :
    addToItemArray query order limit now item itemArray = order.sortedArray
      (item :: itemArray) := by
  refine addToItemArray_new (fun other hother heq => ?_) (h.room.imp_right fun hroom => ?_)
  · have hdistinct := h.distinct
    rw [List.map_append, List.map_cons, List.nodup_append] at hdistinct
    exact hdistinct.2.2 _ (List.mem_map_of_mem hother) _ List.mem_cons_self heq.symm
  · rw [List.length_append, List.length_cons] at hroom
    omega

theorem Fits.next (order : SortedByDate γ) (now : Int)
    (h : Fits query limit itemArray (item :: items)) :
    Fits query limit (addToItemArray query order limit now item itemArray) items := by
  have hperm : (addToItemArray query order limit now item itemArray ++ items).Perm
      (itemArray ++ item :: items) := by
    rw [h.addToItemArray_eq]
    exact ((order.perm _).append_right items).trans List.perm_middle.symm
  exact ⟨(hperm.map _).nodup_iff.mpr h.distinct, hperm.length_eq ▸ h.room⟩

theorem addAll_perm (h : Fits query limit itemArray items) :
    (addAll query order limit now itemArray items).Perm (itemArray ++ items) := by
  induction items generalizing itemArray with
  | nil =>
    rw [List.append_nil]
    exact List.Perm.refl itemArray
  | cons item items ih =>
    refine (ih (h.next order now)).trans ?_
    rw [h.addToItemArray_eq]
    exact ((order.perm _).append_right items).trans List.perm_middle.symm

theorem addAll_sorted (hsorted : itemArray.Pairwise fun item other =>
    other.historyDate ≤ item.historyDate) :
    (addAll query order limit now itemArray items).Pairwise fun item other =>
      other.historyDate ≤ item.historyDate := by
  induction items generalizing itemArray with
  | nil => exact hsorted
  | cons item items ih => exact ih (order.sorted _)

theorem length_addAll_le (hpos : 0 < limit.toNat) (hle : itemArray.length ≤ limit.toNat) :
    (addAll query order limit now itemArray items).length ≤ limit.toNat := by
  induction items generalizing itemArray with
  | nil => exact hle
  | cons item items ih =>
    exact ih ((length_addToItemArray_le_iff query order limit now item itemArray).mpr ⟨hpos, hle⟩)

theorem sublist_addAll (hstable : order.IsStable) (h : Fits query limit itemArray items)
    (hdate : later.IsNoOlder earlier) (hpair : [later, earlier].Sublist itemArray) :
    [later, earlier].Sublist (addAll query order limit now itemArray items) := by
  induction items generalizing itemArray with
  | nil => exact hpair
  | cons item items ih =>
    refine ih (h.next order now) ?_
    rw [h.addToItemArray_eq]
    exact hstable hdate (hpair.cons item)

theorem sublist_addAll_of_mem (hstable : order.IsStable) (h : Fits query limit itemArray items)
    (hdate : later.IsNoOlder earlier) (hearlier : earlier ∈ itemArray) (hlater : later ∈ items) :
    [later, earlier].Sublist (addAll query order limit now itemArray items) := by
  induction items generalizing itemArray with
  | nil => cases hlater
  | cons item items ih =>
    rw [addAll]
    obtain rfl | hlater := List.mem_cons.mp hlater
    · refine sublist_addAll hstable (h.next order now) hdate ?_
      rw [h.addToItemArray_eq]
      exact hstable hdate ((List.singleton_sublist.mpr hearlier).cons_cons later)
    · refine ih (h.next order now) ?_ hlater
      rw [h.addToItemArray_eq, (order.perm _).mem_iff]
      exact List.mem_cons_of_mem item hearlier

theorem sublist_addAll_of_sublist (hstable : order.IsStable) (h : Fits query limit itemArray items)
    (hdate : later.IsNoOlder earlier) (hpair : [earlier, later].Sublist items) :
    [later, earlier].Sublist (addAll query order limit now itemArray items) := by
  induction items generalizing itemArray with
  | nil => cases hpair
  | cons item items ih =>
    rw [addAll]
    obtain hpair | ⟨rest, hrest, hlater⟩ := List.sublist_cons_iff.mp hpair
    · exact ih (h.next order now) hpair
    · obtain ⟨rfl, rfl⟩ := List.cons.inj hrest
      refine sublist_addAll_of_mem hstable (h.next order now) hdate ?_
        (List.singleton_sublist.mp hlater)
      rw [h.addToItemArray_eq, (order.perm _).mem_iff]
      exact List.mem_cons_self

/-- No two items of the same date, and no more items than the limit lets in. -/
structure Reloads (limit : UInt32) (items : List (CMRHistoryItem γ)) : Prop where
  inLimit : limit = 0 ∨ items.length ≤ limit.toNat
  decreasing : items.Pairwise fun item other => other.historyDate < item.historyDate

theorem addAll_nil_eq (h : Kept query items) (hreloads : Reloads limit items) :
    addAll query order limit now [] items = items := by
  have hperm : (addAll query order limit now [] items).Perm items :=
    addAll_perm ⟨h.distinct, hreloads.inLimit⟩
  have hdates : items.Pairwise fun item other => item.historyDate ≠ other.historyDate :=
    hreloads.decreasing.imp fun hlt => (Int.ne_of_lt hlt).symm
  have : Std.Symm fun item other : CMRHistoryItem γ => item.historyDate ≠ other.historyDate :=
    ⟨fun _ _ hdate => hdate.symm⟩
  refine hperm.eq_of_pairwise (fun item other hitem hother hle hge => ?_)
    (addAll_sorted List.Pairwise.nil) h.sorted
  by_contra hne
  exact hdates.forall (hperm.subset hitem) hother hne (Int.le_antisymm hge hle)

theorem reloads_of_addAll_nil_eq (hstable : order.IsStable) (h : Kept query items)
    (heq : addAll query order limit now [] items = items) : Reloads limit items := by
  have hlimit : limit = 0 ∨ items.length ≤ limit.toNat := by
    obtain hzero | hpos := Nat.eq_zero_or_pos limit.toNat
    · exact .inl (UInt32.toNat_inj.mp hzero)
    · right
      rw [← heq]
      exact length_addAll_le hpos (Nat.zero_le _)
  refine ⟨hlimit, List.pairwise_iff_forall_sublist.mpr fun {item other} hpair => ?_⟩
  by_contra hnot
  have hswap : [other, item].Sublist (addAll query order limit now [] items) :=
    sublist_addAll_of_sublist hstable ⟨h.distinct, hlimit⟩ (Int.not_lt.mp hnot) hpair
  rw [heq] at hswap
  exact not_sublist_swap (List.Nodup.of_map _ h.distinct) hpair hswap

-- The managers that there are

structure Lawful (query : γ → NSString) (manager : CMRHistoryManager γ) : Prop where
  kept : ∀ type, Kept query (manager.backets type)
  typed : ∀ type, ∀ item ∈ manager.backets type, HistoryEntryType.ofInt item.type = some type

theorem type_of_mem_addToItemArray {item : CMRHistoryItem γ}
    (hin : item ∈ addToItemArray query order limit now anItem itemArray) :
    item.type = anItem.type ∨ ∃ other ∈ itemArray, item.type = other.type := by
  obtain ⟨index, found, hfound, hkey, hperm⟩ | ⟨hnew, hperm⟩ :=
    addToItemArray_perm query order limit now anItem itemArray
  · obtain ⟨k, hk⟩ := List.getElem?_of_mem (hperm.subset hin)
    rw [List.getElem?_modify, Option.map_eq_map, Option.map_eq_some_iff] at hk
    obtain ⟨other, hother, rfl⟩ := hk
    refine .inr ⟨other, List.mem_of_getElem? hother, ?_⟩
    split <;> rfl
  · obtain rfl | hrest := List.mem_cons.mp (hperm.subset hin)
    · exact .inl rfl
    · refine .inr ⟨item, ?_, rfl⟩
      split at hrest
      · exact (removeItem_oldest itemArray).1.subset hrest
      · exact hrest

theorem lawful_empty : Lawful query (empty : CMRHistoryManager γ) :=
  ⟨fun _ => ⟨List.nodup_nil, List.Pairwise.nil⟩, nofun⟩

theorem Lawful.add {manager manager' : CMRHistoryManager γ} (h : Lawful query manager)
    {addition : Addition γ}
    (hadd : manager.add query order addition = some manager') : Lawful query manager' := by
  obtain rfl := Option.some.inj hadd
  cases htype : HistoryEntryType.ofInt addition.item.type with
  | none =>
    rw [addItem, htype, Option.map_none, Option.getD_none]
    exact h
  | some type =>
    rw [addItem, htype, Option.map_some, Option.getD_some]
    refine ⟨fun other => ?_, fun other item hin => ?_⟩
    · rw [backets_setItems]
      split
      · exact kept_addToItemArray order (h.kept type).distinct _ _ _
      · exact h.kept other
    · rw [backets_setItems] at hin
      split at hin
      · rename_i heq
        rw [heq]
        obtain hnew | ⟨old, hold, hsame⟩ := type_of_mem_addToItemArray hin
        · rw [hnew, htype]
        · rw [hsame]
          exact h.typed type old hold
      · exact h.typed other item hin

theorem lawful_run {additions : List (Addition γ)}
    (hrun : Run.run (CMRHistoryManager.add query order) empty additions = some manager) :
    Lawful query manager :=
  Run.run_invariant (fun h hadd => h.add hadd) hrun lawful_empty

end

end CMRHistoryManager

-- The file

def stHistoryPropertyKey : HistoryEntryType → String
  | .board => "Board"
  | .thread => "Thread"

def historyItemLimitForType (limits : HistoryEntryType → UInt32) (aType : Int) : UInt32 :=
  (HistoryEntryType.ofInt aType).elim 10 limits

namespace CMRHistoryManager

variable (names : Boards.Names)

def genHistoriesPropertyListRepresentation (histories : List (CMRHistoryItem (Built floatValue))) :
    Option HistoryPlist :=
  (histories.mapM (CMRHistoryItem.propertyListRepresentation names)).map .array

/-- Before the first addition neither key is there, which loads like two empty arrays. -/
def historiesPropertyListRepresentation (manager : CMRHistoryManager (Built floatValue)) :
    Option HistoryPlist := do
  let boards ← genHistoriesPropertyListRepresentation names (manager.backets .board)
  let threads ← genHistoriesPropertyListRepresentation names (manager.backets .thread)
  return .dict [(stHistoryPropertyKey .board, boards), (stHistoryPropertyKey .thread, threads)]

def dictionaryRepresentation (manager : CMRHistoryManager (Built floatValue)) :
    Option (List (String × HistoryPlist)) :=
  (historiesPropertyListRepresentation names manager).map fun histories =>
    [("HistoryFileVersion", .number 2), ("HistoryDates", histories)]

variable (query : Built floatValue → NSString) (order : SortedByDate (Built floatValue))
  (limits : HistoryEntryType → UInt32) (now : Int)

def addEntry (manager : CMRHistoryManager (Built floatValue)) (entry : HistoryPlist) :
    Option (CMRHistoryManager (Built floatValue)) :=
  (CMRHistoryItem.objectWithPropertyListRepresentation entry).bind fun
    | none => some manager
    | some item => manager.addItem query order (historyItemLimitForType limits item.type) now item

def loadItemArray (histories : List (String × HistoryPlist))
    (manager : CMRHistoryManager (Built floatValue))
    (type : HistoryEntryType) : Option (CMRHistoryManager (Built floatValue)) :=
  (((histories.lookup (stHistoryPropertyKey type)).bind HistoryPlist.asArray).getD []).foldlM
    (addEntry query order limits now) manager

def typesOfVersion : Int → Option (List HistoryEntryType)
  | 1 => some [.thread]
  | 2 => some [.board, .thread]
  | _ => none

def loadDictionaryRepresentation (aDictionary : List (String × HistoryPlist))
    (manager : CMRHistoryManager (Built floatValue)) :
    Option (CMRHistoryManager (Built floatValue)) :=
  let fileVersion := ((aDictionary.lookup "HistoryFileVersion").bind HistoryPlist.asNumber).getD 0
  let histories := ((aDictionary.lookup "HistoryDates").bind HistoryPlist.asDict).getD []
  match typesOfVersion fileVersion with
  | none => some manager
  | some types => types.foldlM (loadItemArray query order limits now histories) empty

variable {names query order limits now}

@[simp] theorem setItems_setItems (type : HistoryEntryType) (items other : List (CMRHistoryItem γ))
    (manager : CMRHistoryManager γ) :
    (manager.setItems type items).setItems type other = manager.setItems type other := by
  refine congrArg CMRHistoryManager.mk (funext fun type' => ?_)
  rw [backets_setItems]
  split <;> rfl

@[simp] theorem setItems_backets (type : HistoryEntryType) (manager : CMRHistoryManager γ) :
    manager.setItems type (manager.backets type) = manager := by
  refine congrArg CMRHistoryManager.mk (funext fun other => ?_)
  split
  · rename_i heq
    rw [heq]
  · rfl

theorem foldlM_addEntry {items : List (CMRHistoryItem (Built floatValue))}
    {reps : List HistoryPlist}
    (htyped : ∀ item ∈ items, HistoryEntryType.ofInt item.type = some type)
    (hreps : items.mapM (CMRHistoryItem.propertyListRepresentation names) = some reps)
    (manager : CMRHistoryManager (Built floatValue)) :
    reps.foldlM (addEntry query order limits now) manager =
      some (manager.setItems type (addAll query order (limits type) now
        (manager.backets type) items)) := by
  induction items generalizing reps manager with
  | nil =>
    obtain rfl := Option.some.inj hreps
    exact congrArg some (setItems_backets type manager).symm
  | cons item items ih =>
    rw [List.mapM_cons] at hreps
    obtain ⟨rep, hrep, hreps⟩ := Option.bind_eq_some_iff.mp hreps
    obtain ⟨rest, hrest, hreps⟩ := Option.bind_eq_some_iff.mp hreps
    obtain rfl := Option.some.inj hreps
    have htype := htyped item List.mem_cons_self
    have hadd : addEntry query order limits now manager rep = some (manager.setItems type
        (addToItemArray query order (limits type) now item (manager.backets type))) := by
      rw [addEntry, CMRHistoryItem.object_propertyListRepresentation names hrep]
      show manager.addItem query order (historyItemLimitForType limits item.type) now item = _
      rw [addItem, historyItemLimitForType, htype]
      rfl
    rw [List.foldlM_cons, hadd, Option.bind_eq_bind, Option.bind_some,
      ih (fun other hother => htyped other (List.mem_cons_of_mem item hother)) hrest,
      setItems_setItems,
      backets_setItems, if_pos rfl, addAll]

theorem genHistoriesPropertyListRepresentation_eq_none (names : Boards.Names)
    {items : List (CMRHistoryItem (Built floatValue))} :
    genHistoriesPropertyListRepresentation names items = none ↔
      ∃ item ∈ items, ∃ name, item.representedObject = some (.folder name) := by
  rw [genHistoriesPropertyListRepresentation, Option.map_eq_none_iff, Fields.mapM_eq_none_iff]
  simp only [CMRHistoryItem.propertyListRepresentation_eq_none]

theorem loadItemArray_genHistories {items : List (CMRHistoryItem (Built floatValue))}
    {rep : HistoryPlist}
    (htyped : ∀ item ∈ items, HistoryEntryType.ofInt item.type = some type)
    (hrep : genHistoriesPropertyListRepresentation names items = some rep)
    {histories : List (String × HistoryPlist)}
    (hlookup : histories.lookup (stHistoryPropertyKey type) = some rep)
    (manager : CMRHistoryManager (Built floatValue)) :
    loadItemArray query order limits now histories manager type =
      some (manager.setItems type (addAll query order (limits type) now
        (manager.backets type) items)) := by
  rw [genHistoriesPropertyListRepresentation, Option.map_eq_some_iff] at hrep
  obtain ⟨reps, hreps, rfl⟩ := hrep
  rw [loadItemArray, hlookup]
  exact foldlM_addEntry htyped hreps manager

theorem load_dictionaryRepresentation {manager : CMRHistoryManager (Built floatValue)}
    (h : Lawful query manager) {rep : List (String × HistoryPlist)}
    (hrep : manager.dictionaryRepresentation names = some rep)
    (other : CMRHistoryManager (Built floatValue)) :
    other.loadDictionaryRepresentation query order limits now rep =
      some ⟨fun type => addAll query order (limits type) now [] (manager.backets type)⟩ := by
  rw [dictionaryRepresentation, Option.map_eq_some_iff] at hrep
  obtain ⟨histories, hhistories, rfl⟩ := hrep
  obtain ⟨boards, hboards, hhistories⟩ := Option.bind_eq_some_iff.mp hhistories
  obtain ⟨threads, hthreads, hhistories⟩ := Option.bind_eq_some_iff.mp hhistories
  obtain rfl := Option.some.inj hhistories
  show ([.board, .thread] : List HistoryEntryType).foldlM (loadItemArray query order limits now
    [(stHistoryPropertyKey .board, boards), (stHistoryPropertyKey .thread, threads)]) empty = _
  rw [List.foldlM_cons, loadItemArray_genHistories (h.typed .board) hboards rfl,
    Option.bind_eq_bind,
    Option.bind_some, List.foldlM_cons, loadItemArray_genHistories (h.typed .thread) hthreads rfl,
    Option.bind_eq_bind, Option.bind_some, List.foldlM_nil]
  refine congrArg (fun backets => some (CMRHistoryManager.mk backets)) (funext fun type => ?_)
  cases type <;> rfl

/-- The manager that is loaded from the file has the same items in the same order. -/
def Restored (names : Boards.Names) (query : Built floatValue → NSString)
    (order : SortedByDate (Built floatValue)) (limits : HistoryEntryType → UInt32) (now : Int)
    (manager : CMRHistoryManager (Built floatValue)) : Prop :=
  (manager.dictionaryRepresentation names).bind
  (empty.loadDictionaryRepresentation query order limits now) =
    some manager

/-- No folders, no two items of one date, and no more items than the limit at the time
of loading lets in. -/
structure Restorable (limits : HistoryEntryType → UInt32) (manager : CMRHistoryManager γ) :
    Prop where
  noFolder : ∀ type, ¬∃ item ∈ manager.backets type, ∃ name, item.representedObject =
    some (.folder name)
  reloads : ∀ type, Reloads (limits type) (manager.backets type)

theorem exists_type_iff {p : HistoryEntryType → Prop} : (∃ type, p type) ↔
    p .board ∨ p .thread := by
  constructor
  · rintro ⟨type, htype⟩
    cases type with
    | board => exact .inl htype
    | thread => exact .inr htype
  · rintro (hboard | hthread)
    · exact ⟨.board, hboard⟩
    · exact ⟨.thread, hthread⟩

theorem restored_iff {manager : CMRHistoryManager (Built floatValue)} (h : Lawful query manager) :
    Restored names query order limits now manager ↔
      (∀ type, ¬∃ item ∈ manager.backets type, ∃ name, item.representedObject =
        some (.folder name)) ∧
        ∀ type, addAll query order (limits type) now [] (manager.backets type) =
          manager.backets type := by
  have hnone : manager.dictionaryRepresentation names = none ↔
      ∃ type, ∃ item ∈ manager.backets type, ∃ name, item.representedObject =
        some (.folder name) := by
    rw [dictionaryRepresentation, Option.map_eq_none_iff, exists_type_iff,
      ← genHistoriesPropertyListRepresentation_eq_none names,
      ← genHistoriesPropertyListRepresentation_eq_none names, historiesPropertyListRepresentation]
    cases genHistoriesPropertyListRepresentation names (manager.backets .board) <;>
      cases genHistoriesPropertyListRepresentation names (manager.backets .thread) <;> simp
  rw [Restored]
  cases hrep : manager.dictionaryRepresentation names with
  | none =>
    refine iff_of_false nofun fun ⟨hno, _⟩ => ?_
    obtain ⟨type, hfolder⟩ := hnone.mp hrep
    exact hno type hfolder
  | some rep =>
    have hno (type : HistoryEntryType) :
        ¬∃ item ∈ manager.backets type, ∃ name, item.representedObject = some (.folder name) := by
      intro hfolder
      rw [hnone.mpr ⟨type, hfolder⟩] at hrep
      cases hrep
    rw [Option.bind_some, load_dictionaryRepresentation h hrep, Option.some.injEq]
    refine ⟨fun heq => ⟨hno, fun type => ?_⟩, fun ⟨_, heq⟩ =>
      congrArg CMRHistoryManager.mk (funext heq)⟩
    exact congrFun (congrArg CMRHistoryManager.backets heq) type

/-- Saving and loading give the same items in the same order, and an item comes back
from its property list and from its keyed archive, each just when it can. -/
theorem saving_restores_iff (names : Boards.Names) (query : Built floatValue → NSString)
    (order : SortedByDate (Built floatValue)) (limits : HistoryEntryType → UInt32) (now : Int) :
    (∀ additions manager, Run.run (CMRHistoryManager.add query order) empty additions =
      some manager →
      (Restorable limits manager → Restored names query order limits now manager) ∧
        (order.IsStable → Restored names query order limits now manager →
          Restorable limits manager)) ∧
    (∀ item : CMRHistoryItem (Built floatValue),
      (item.propertyListRepresentation names).bind
      CMRHistoryItem.objectWithPropertyListRepresentation =
        some (some item) ↔ ¬∃ name, item.representedObject = some (.folder name)) ∧
    ∀ item : CMRHistoryItem (Built floatValue),
      item.encodeWithCoder.bind CMRHistoryItem.initWithCoder = some item ↔
        item.visitedCount = 0 ∧ (item.representedObject = none ∨ item.representedObject =
          some .favorites ∨
          item.representedObject = some (.board 0)) := by
  refine ⟨fun additions manager hrun => ?_, CMRHistoryItem.restored_iff names,
    CMRHistoryItem.coded_iff⟩
  have h : Lawful query manager := lawful_run hrun
  rw [restored_iff h]
  refine ⟨fun hrestorable => ⟨hrestorable.noFolder, fun type => ?_⟩,
    fun hstable ⟨hno, heq⟩ => ⟨hno, fun type => ?_⟩⟩
  · exact addAll_nil_eq (h.kept type) (hrestorable.reloads type)
  · exact reloads_of_addAll_nil_eq hstable (h.kept type) (heq type)

/-- An item that was visited once comes back from its keyed archive as one that never
was. -/
theorem saving_restores_visited_fails :
    ¬∀ item : CMRHistoryItem Empty, item.encodeWithCoder.bind CMRHistoryItem.initWithCoder =
      some item := by
  intro h
  have hcoded :=
    h { type := 0, visitedCount := 1, historyDate := 0, representedObject := some .favorites }
  exact absurd (congrArg (Option.map CMRHistoryItem.visitedCount) hcoded) (by decide)

end CMRHistoryManager

end BathyScaphe.History
