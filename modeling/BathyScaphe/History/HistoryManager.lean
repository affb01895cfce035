import BathyScaphe.Foundation.NSString
import BathyScaphe.Lib.Run
import Mathlib.Data.List.Sort

/-!
# The history of boards and threads

`CMRHistoryManager` keeps one array of items for each type of entry. An item that is
added again is brought up to date; a new one takes the place of the oldest when the
array has just as many items as the limit allows. A limit that has become lower than
the number of items, or is zero, lets the array grow on.
-/

namespace BathyScaphe.History

-- Items

/-- The objects with a history: signatures of threads, and the items of the board
list. Conditions of smart boards are `γ`. -/
inductive HistoryObject (γ : Type) where
  | thread (identifier boardName : NSString)
  | board (boardID : UInt32)
  | favorites
  | smart (name : NSString) (condition : γ)
  | folder (name : NSString)

inductive HistoryKey where
  | thread (identifier boardName : NSString)
  | board (boardID : UInt32)
  | favorites
  | smart (query : NSString)
  | folder
  deriving DecidableEq

def HistoryObject.key (query : γ → NSString) : HistoryObject γ → HistoryKey
  | .thread identifier boardName => .thread identifier boardName
  | .board boardID => .board boardID
  | .favorites => .favorites
  | .smart _ condition => .smart (query condition)
  | .folder _ => .folder

def isHistoryEqual (query : γ → NSString) (object anObject : HistoryObject γ) : Bool :=
  object.key query == anObject.key query

structure CMRHistoryItem (γ : Type) where
  type : Int := -1
  visitedCount : UInt32 := 1
  title : Option NSString := none
  historyDate : Int
  representedObject : Option (HistoryObject γ) := none

namespace CMRHistoryItem

variable (query : γ → NSString)

def isEqual (item other : CMRHistoryItem γ) : Bool :=
  item.type == other.type &&
    match item.representedObject, other.representedObject with
    | none, none => true
    | some object, some anObject => isHistoryEqual query object anObject
    | _, _ => false

def key (item : CMRHistoryItem γ) : Int × Option HistoryKey :=
  (item.type, item.representedObject.map (HistoryObject.key query))

theorem isEqual_iff {item other : CMRHistoryItem γ} :
    item.isEqual query other = true ↔ item.key query = other.key query := by
  rw [isEqual, key, key, Bool.and_eq_true, beq_iff_eq, Prod.mk.injEq]
  refine and_congr_right fun _ => ?_
  cases item.representedObject <;> cases other.representedObject <;> simp [isHistoryEqual]

end CMRHistoryItem

-- The manager

inductive HistoryEntryType where
  | board
  | thread
  deriving DecidableEq

def HistoryEntryType.ofInt : Int → Option HistoryEntryType
  | 0 => some .board
  | 1 => some .thread
  | _ => none

structure CMRHistoryManager (γ : Type) where
  backets : HistoryEntryType → List (CMRHistoryItem γ)

/-- `sortedArrayUsingSelector:` with `_compareByDate:`, which need not be stable. -/
structure SortedByDate (γ : Type) where
  sortedArray : List (CMRHistoryItem γ) → List (CMRHistoryItem γ)
  perm : ∀ items, (sortedArray items).Perm items
  sorted : ∀ items, (sortedArray items).Pairwise fun item other =>
    other.historyDate ≤ item.historyDate

/-- Not before the other in the order of `_compareByDate:`. -/
def CMRHistoryItem.IsNoOlder (item other : CMRHistoryItem γ) : Prop :=
  other.historyDate ≤ item.historyDate

instance : DecidableRel (CMRHistoryItem.IsNoOlder (γ := γ)) :=
  fun item other => inferInstanceAs (Decidable (other.historyDate ≤ item.historyDate))

instance : Std.Total (CMRHistoryItem.IsNoOlder (γ := γ)) where
  total item other := Int.le_total other.historyDate item.historyDate

instance : IsTrans (CMRHistoryItem γ) CMRHistoryItem.IsNoOlder where
  trans _ _ _ hfirst hsecond := Int.le_trans hsecond hfirst

def SortedByDate.stable : SortedByDate γ where
  sortedArray := List.insertionSort CMRHistoryItem.IsNoOlder
  perm := List.perm_insertionSort CMRHistoryItem.IsNoOlder
  sorted := List.pairwise_insertionSort CMRHistoryItem.IsNoOlder

namespace CMRHistoryManager

variable (query : γ → NSString) (order : SortedByDate γ)

/-- The loop of `indexOfOldestItemForType:` from index `i` on; `none` is `-1`. -/
def indexOfOldestItemFrom : Nat → Option (Nat × CMRHistoryItem γ) → List
    (CMRHistoryItem γ) → Option Nat
  | _, oldest, [] => oldest.map Prod.fst
  | i, oldest, item :: items =>
    if oldest.all fun oldest => item.historyDate < oldest.2.historyDate then
      indexOfOldestItemFrom (i + 1) (some (i, item)) items
    else indexOfOldestItemFrom (i + 1) oldest items

def indexOfOldestItem (itemArray : List (CMRHistoryItem γ)) : Option Nat :=
  indexOfOldestItemFrom 0 none itemArray

/-- `removeItemForType:atIndex:`. The index `-1` is behind every array. -/
def removeItem (index : Option Nat) (itemArray : List (CMRHistoryItem γ)) :
    List (CMRHistoryItem γ) :=
  match index with
  | none => itemArray
  | some index => itemArray.eraseIdx index

def exchangeWithFirst (index : Nat) (itemArray : List (CMRHistoryItem γ)) :
    List (CMRHistoryItem γ) :=
  match itemArray[0]?, itemArray[index]? with
  | some first, some item => (itemArray.set index first).set 0 item
  | _, _ => itemArray

def update (now : Int) (anItem item : CMRHistoryItem γ) : CMRHistoryItem γ :=
  { item with
    title := anItem.title
    representedObject := anItem.representedObject
    historyDate := now
    visitedCount := item.visitedCount + 1 }

/-- The array of `addItem:`, and the date of the clock for an update. -/
def addToItemArray (limit : UInt32) (now : Int) (anItem : CMRHistoryItem γ)
    (itemArray : List (CMRHistoryItem γ)) : List (CMRHistoryItem γ) :=
  order.sortedArray <|
    match itemArray.findIdx? (anItem.isEqual query) with
    | some index => exchangeWithFirst index (itemArray.modify index (update now anItem))
    | none =>
      anItem ::
        if limit.toNat = itemArray.length then removeItem (indexOfOldestItem itemArray) itemArray
        else itemArray

def setItems (type : HistoryEntryType) (items : List (CMRHistoryItem γ))
    (manager : CMRHistoryManager γ) :
    CMRHistoryManager γ :=
  { backets := fun other => if other = type then items else manager.backets other }

@[simp] theorem backets_setItems (type other : HistoryEntryType) (items : List (CMRHistoryItem γ))
    (manager : CMRHistoryManager γ) :
    (manager.setItems type items).backets other = if other = type then items
    else manager.backets other := rfl

/-- `none` is an `NSRangeException`, for a type without a backet. -/
def addItem (limit : UInt32) (now : Int) (anItem : CMRHistoryItem γ)
    (manager : CMRHistoryManager γ) :
    Option (CMRHistoryManager γ) :=
  (HistoryEntryType.ofInt anItem.type).map fun type =>
    manager.setItems type (addToItemArray query order limit now anItem (manager.backets type))

end CMRHistoryManager

/-- An addition, with the limit for its type and the date at that time. -/
structure Addition (γ : Type) where
  limit : UInt32
  now : Int
  item : CMRHistoryItem γ

/-- An addition that raises leaves the manager as it is. -/
def CMRHistoryManager.add (query : γ → NSString) (order : SortedByDate γ)
    (manager : CMRHistoryManager γ)
    (addition : Addition γ) : Option (CMRHistoryManager γ) :=
  some ((manager.addItem query order addition.limit addition.now addition.item).getD manager)

-- One array

section
variable {query : γ → NSString} {order : SortedByDate γ} {items : List (CMRHistoryItem γ)}
  {anItem : CMRHistoryItem γ}

namespace CMRHistoryManager

theorem indexOfOldestItemFrom_lt {oldest : Option (Nat × CMRHistoryItem γ)}
    (holdest : ∀ found ∈ oldest, found.1 < i) (hsome : oldest = none → items ≠ []) :
    ∃ index, indexOfOldestItemFrom i oldest items = some index ∧ index < i + items.length := by
  induction items generalizing i oldest with
  | nil =>
    cases oldest with
    | none => exact absurd rfl (hsome rfl)
    | some found => exact ⟨found.1, rfl, holdest found rfl⟩
  | cons item items ih =>
    rw [indexOfOldestItemFrom, List.length_cons]
    split
    · obtain ⟨index, hindex, hlt⟩ := @ih (i + 1) (some (i, item))
        (fun found hfound => Option.some.inj hfound ▸ Nat.lt_succ_self i) nofun
      exact ⟨index, hindex, by omega⟩
    · rename_i hlater
      have hfound : oldest ≠ none := by
        rintro rfl
        exact hlater rfl
      obtain ⟨index, hindex, hlt⟩ := @ih (i + 1) oldest
        (fun found hin => Nat.lt_succ_of_lt (holdest found hin)) fun hnone => absurd hnone hfound
      exact ⟨index, hindex, by omega⟩

theorem removeItem_oldest (items : List (CMRHistoryItem γ)) :
    (removeItem (indexOfOldestItem items) items).Sublist items ∧
      (removeItem (indexOfOldestItem items) items).length = items.length - 1 := by
  cases items with
  | nil => exact ⟨List.Sublist.refl [], rfl⟩
  | cons item items =>
    obtain ⟨index, hindex, hlt⟩ : ∃ index, indexOfOldestItemFrom 0 none (item :: items) =
      some index ∧
        index < 0 + (item :: items).length :=
      indexOfOldestItemFrom_lt nofun fun _ => List.cons_ne_nil item items
    rw [Nat.zero_add] at hlt
    rw [indexOfOldestItem, hindex, removeItem]
    exact ⟨List.eraseIdx_sublist _ _, List.length_eraseIdx_of_lt hlt⟩

theorem exchangeWithFirst_perm (index : Nat) (items : List (CMRHistoryItem γ)) :
    (exchangeWithFirst index items).Perm items := by
  rw [exchangeWithFirst]
  split
  · rename_i first item hfirst hitem
    obtain ⟨hzero, rfl⟩ := List.getElem?_eq_some_iff.mp hfirst
    obtain ⟨hindex, rfl⟩ := List.getElem?_eq_some_iff.mp hitem
    exact List.set_set_perm hindex hzero
  · exact List.Perm.refl items

theorem addToItemArray_perm (query : γ → NSString) (order : SortedByDate γ)
    (limit : UInt32) (now : Int)
    (anItem : CMRHistoryItem γ) (items : List (CMRHistoryItem γ)) :
    (∃ index item, items[index]? = some item ∧ anItem.key query = item.key query ∧
      (addToItemArray query order limit now anItem items).Perm
      (items.modify index (update now anItem))) ∨
    ((∀ item ∈ items, anItem.key query ≠ item.key query) ∧
      (addToItemArray query order limit now anItem items).Perm (anItem ::
        if limit.toNat = items.length then removeItem (indexOfOldestItem items) items
        else items)) := by
  rw [addToItemArray]
  cases hfind : items.findIdx? (anItem.isEqual query) with
  | some index =>
    obtain ⟨hlt, hequal, -⟩ := List.findIdx?_eq_some_iff_getElem.mp hfind
    exact .inl ⟨index, items[index], List.getElem?_eq_getElem hlt,
      CMRHistoryItem.isEqual_iff query |>.mp hequal,
      (order.perm _).trans (exchangeWithFirst_perm index _)⟩
  | none =>
    refine .inr ⟨fun item hitem heq => ?_, order.perm _⟩
    have hnot := List.findIdx?_eq_none_iff.mp hfind item hitem
    rw [(CMRHistoryItem.isEqual_iff query).mpr heq] at hnot
    cases hnot

theorem key_update (h : anItem.key query = item.key query) (now : Int) :
    (update now anItem item).key query = item.key query := by
  rw [CMRHistoryItem.key, CMRHistoryItem.key, Prod.mk.injEq] at h
  exact Prod.ext rfl h.2

theorem map_key_modify (hitem : items[index]? = some item) (h : anItem.key query = item.key query)
    (now : Int) :
    (items.modify index (update now anItem)).map (CMRHistoryItem.key query) =
      items.map (CMRHistoryItem.key query) := by
  refine List.ext_getElem? fun k => ?_
  rw [List.getElem?_map, List.getElem?_map, List.getElem?_modify]
  cases hk : items[k]? with
  | none => rfl
  | some other =>
    refine congrArg some ?_
    show (if index = k then update now anItem other else other).key query = other.key query
    split
    · rename_i heq
      obtain rfl := Option.some.inj ((heq ▸ hitem).symm.trans hk)
      exact key_update h now
    · rfl

/-- What is kept of the items of one type, whatever the limit is. -/
structure Kept (query : γ → NSString) (items : List (CMRHistoryItem γ)) : Prop where
  distinct : (items.map (CMRHistoryItem.key query)).Nodup
  sorted : items.Pairwise fun item other => other.historyDate ≤ item.historyDate

theorem kept_addToItemArray (order : SortedByDate γ)
    (h : (items.map (CMRHistoryItem.key query)).Nodup)
    (limit : UInt32) (now : Int) (anItem : CMRHistoryItem γ) :
    Kept query (addToItemArray query order limit now anItem items) := by
  refine ⟨?_, order.sorted _⟩
  obtain ⟨index, item, hitem, hkey, hperm⟩ | ⟨hnew, hperm⟩ :=
    addToItemArray_perm query order limit now anItem items
  · rw [(hperm.map (CMRHistoryItem.key query)).nodup_iff, map_key_modify hitem hkey]
    exact h
  · rw [(hperm.map (CMRHistoryItem.key query)).nodup_iff, List.map_cons, List.nodup_cons]
    have hrest : (if limit.toNat = items.length then removeItem (indexOfOldestItem items) items
        else items).Sublist items := by
      split
      · exact (removeItem_oldest items).1
      · exact List.Sublist.refl items
    refine ⟨fun hmem => ?_, h.sublist (hrest.map _)⟩
    obtain ⟨item, hitem, heq⟩ := List.mem_map.mp hmem
    exact hnew item (hrest.subset hitem) heq.symm

theorem exists_mem_addToItemArray (limit : UInt32) (now : Int) (anItem : CMRHistoryItem γ)
    (items : List (CMRHistoryItem γ)) :
    ∃ item ∈ addToItemArray query order limit now anItem items, item.isEqual query anItem = true ∧
      item.title = anItem.title ∧ item.representedObject = anItem.representedObject := by
  obtain ⟨index, item, hitem, hkey, hperm⟩ | ⟨hnew, hperm⟩ :=
    addToItemArray_perm query order limit now anItem items
  · refine ⟨update now anItem item, hperm.mem_iff.mpr ?_,
      (CMRHistoryItem.isEqual_iff query).mpr ((key_update hkey now).trans hkey.symm), rfl, rfl⟩
    have hmodified : (items.modify index (update now anItem))[index]? =
      some (update now anItem item) := by
      rw [List.getElem?_modify_eq, hitem]
      rfl
    exact List.mem_of_getElem? hmodified
  · exact ⟨anItem, hperm.mem_iff.mpr List.mem_cons_self, (CMRHistoryItem.isEqual_iff query).mpr rfl,
      rfl, rfl⟩

/-- The array stays in the limit just when it was in it and the limit is not zero. -/
theorem length_addToItemArray_le_iff (query : γ → NSString) (order : SortedByDate γ)
    (limit : UInt32)
    (now : Int) (anItem : CMRHistoryItem γ) (items : List (CMRHistoryItem γ)) :
    (addToItemArray query order limit now anItem items).length ≤ limit.toNat ↔
      0 < limit.toNat ∧ items.length ≤ limit.toNat := by
  obtain ⟨index, item, hitem, hkey, hperm⟩ | ⟨hnew, hperm⟩ :=
    addToItemArray_perm query order limit now anItem items
  · have hlt := (List.getElem?_eq_some_iff.mp hitem).1
    rw [hperm.length_eq, List.length_modify]
    omega
  · rw [hperm.length_eq, List.length_cons]
    split
    · rw [(removeItem_oldest items).2]
      omega
    · omega

-- Runs

structure KeptInLimit (query : γ → NSString) (addition : Addition γ)
    (items : List (CMRHistoryItem γ)) : Prop where
  atMost : items.length ≤ addition.limit.toNat
  distinct : items.Pairwise fun item other => item.isEqual query other = false
  added : 0 < addition.limit → ∃ item ∈ items, item.isEqual query addition.item = true ∧
    item.title = addition.item.title ∧ item.representedObject = addition.item.representedObject
  sorted : items.Pairwise fun item other => other.historyDate ≤ item.historyDate

theorem Kept.distinct_items (h : Kept query items) :
    items.Pairwise fun item other => item.isEqual query other = false := by
  refine (List.pairwise_map.mp h.distinct).imp fun hne => ?_
  rw [Bool.eq_false_iff]
  exact mt (CMRHistoryItem.isEqual_iff query).mp hne

/-- The manager with the items of a type after an addition. -/
def HoldsAfter (query : γ → NSString) (order : SortedByDate γ) (manager : CMRHistoryManager γ)
    (addition : Addition γ) : Prop :=
  ∀ manager', manager.addItem query order addition.limit addition.now addition.item =
    some manager' →
    ∀ type, HistoryEntryType.ofInt addition.item.type = some type →
      KeptInLimit query addition (manager'.backets type)

/-- The limit is not zero, and no fewer than the items of the type. -/
def WithinLimit (manager : CMRHistoryManager γ) (addition : Addition γ) : Prop :=
  ∀ type, HistoryEntryType.ofInt addition.item.type = some type →
    0 < addition.limit.toNat ∧ (manager.backets type).length ≤ addition.limit.toNat

def AllDistinct (query : γ → NSString) (manager : CMRHistoryManager γ) : Prop :=
  ∀ type, ((manager.backets type).map (CMRHistoryItem.key query)).Nodup

theorem holdsAfter_iff (order : SortedByDate γ) {manager : CMRHistoryManager γ}
    (h : AllDistinct query manager) (addition : Addition γ) :
    (HoldsAfter query order manager addition ↔ WithinLimit manager addition) ∧
      ∀ manager', manager.add query order addition = some manager' →
      AllDistinct query manager' := by
  cases htype : HistoryEntryType.ofInt addition.item.type with
  | none =>
    have hraises : manager.addItem query order addition.limit addition.now addition.item =
      none := by
      rw [addItem, htype, Option.map_none]
    refine ⟨iff_of_true (fun manager' hadd => ?_) fun type hsome => ?_, fun manager' hadd => ?_⟩
    · rw [hraises] at hadd
      cases hadd
    · rw [htype] at hsome
      cases hsome
    · rw [add, hraises] at hadd
      obtain rfl := Option.some.inj hadd
      exact h
  | some type =>
    have hadds : manager.addItem query order addition.limit addition.now addition.item =
        some (manager.setItems type
          (addToItemArray query order addition.limit addition.now addition.item
            (manager.backets type))) := by
      rw [addItem, htype, Option.map_some]
    have hkept := kept_addToItemArray order (h type) addition.limit addition.now addition.item
    have hlength := length_addToItemArray_le_iff query order addition.limit addition.now
      addition.item (manager.backets type)
    refine ⟨⟨fun hholds type' hsome => ?_, fun hlimit manager' hadd type' hsome => ?_⟩,
      fun manager' hadd => ?_⟩
    · obtain rfl := Option.some.inj (htype.symm.trans hsome)
      have hin := (hholds _ hadds type htype).atMost
      rw [backets_setItems, if_pos rfl] at hin
      exact hlength.mp hin
    · obtain rfl := Option.some.inj (htype.symm.trans hsome)
      obtain rfl := Option.some.inj (hadds.symm.trans hadd)
      rw [backets_setItems, if_pos rfl]
      exact ⟨hlength.mpr (hlimit type htype), hkept.distinct_items,
        fun _ => exists_mem_addToItemArray _ _ _ _, hkept.sorted⟩
    · rw [add, hadds] at hadd
      obtain rfl := Option.some.inj hadd
      intro other
      rw [Option.getD_some, backets_setItems]
      split
      · exact hkept.distinct
      · exact h other

def empty : CMRHistoryManager γ := ⟨fun _ => []⟩

/-- Over every sequence of additions the items keep the limit, are distinct and in
order, and have the item just added, just when every limit is at least one and no
lower than the number of items. -/
theorem additions_holdAfter_iff (query : γ → NSString) (order : SortedByDate γ)
    (additions : List (Addition γ)) :
    Run.Guarded (CMRHistoryManager.add query order) (HoldsAfter query order) empty additions ↔
      Run.Guarded (CMRHistoryManager.add query order) WithinLimit empty additions := by
  have hempty : AllDistinct query (empty : CMRHistoryManager γ) := fun _ => List.nodup_nil
  constructor
  · refine Run.Guarded.imp (fun {manager addition} h hholds => ?_) hempty
    obtain ⟨hiff, hnext⟩ := holdsAfter_iff order h addition
    exact ⟨hiff.mp hholds, hnext⟩
  · refine Run.Guarded.imp (fun {manager addition} h hlimit => ?_) hempty
    obtain ⟨hiff, hnext⟩ := holdsAfter_iff order h addition
    exact ⟨hiff.mpr hlimit, hnext⟩

/-- Two boards with room for both, and a third when there is room for one. -/
theorem additions_three_fails :
    ¬Run.Guarded (CMRHistoryManager.add Empty.elim .stable) (HoldsAfter Empty.elim .stable) empty
      [⟨2, 0, { type := 0, historyDate := 0, representedObject := some (.board 1) }⟩,
        ⟨2, 1, { type := 0, historyDate := 1, representedObject := some (.board 2) }⟩,
        ⟨1, 2, { type := 0, historyDate := 2, representedObject := some (.board 3) }⟩] := by
  intro h
  have hthird := (((h.2 _ rfl).2 _ rfl).1 _ rfl .board rfl).atMost
  exact absurd hthird (by decide)

end CMRHistoryManager

end

end BathyScaphe.History
