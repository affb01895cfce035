import BathyScaphe.Foundation.NSString

/-!
# The board list tree

Folders hold boards, smart boards, other folders and the favorites item. A
board is one shared instance per board identifier, so its name and its
represented name are looked up by that identifier and two occurrences of a
board are always the same object; `isEqual` compares the other kinds by
content.
-/

namespace BathyScaphe.Boards

inductive BoardListItem where
  | board (boardID : UInt32)
  | smart (name query : NSString)
  | favorites
  | folder (name : NSString) (items : List BoardListItem)

/-- What the board items read elsewhere: the database's name of a board, the
represented name set on its shared instance, the name of the favorites. -/
structure Names where
  nameForBoardID : UInt32 → NSString
  representName : UInt32 → Option NSString
  favoritesDirectoryName : NSString

namespace BoardListItem

mutual
def isEqual : BoardListItem → BoardListItem → Bool
  | .board i, .board j => i == j
  | .smart n q, .smart m r => n == m && q == r
  | .favorites, .favorites => true
  | .folder n xs, .folder m ys => n == m && xs.length == ys.length && itemsEqual xs ys
  | _, _ => false
/-- The loop of the folder's `isEqual:`, entered with two lists of one length. -/
def itemsEqual : List BoardListItem → List BoardListItem → Bool
  | x :: xs, y :: ys => isEqual x y && itemsEqual xs ys
  | _, _ => true
end

mutual
theorem isEqual_iff : (a b : BoardListItem) → (isEqual a b = true ↔ a = b)
  | .board _, b => by cases b <;> simp [isEqual]
  | .smart _ _, b => by cases b <;> simp [isEqual]
  | .favorites, b => by cases b <;> simp [isEqual]
  | .folder n xs, b => by
    cases b with
    | folder m ys =>
      simp only [isEqual, Bool.and_eq_true, beq_iff_eq, folder.injEq, and_assoc]
      exact and_congr_right fun _ => itemsEqual_iff xs ys
    | _ => simp [isEqual]
theorem itemsEqual_iff : (xs ys : List BoardListItem) →
    (xs.length = ys.length ∧ itemsEqual xs ys = true ↔ xs = ys)
  | [], ys => by cases ys <;> simp [itemsEqual]
  | x :: xs, [] => by simp
  | x :: xs, y :: ys => by
    simp only [List.length_cons, Nat.add_right_cancel_iff, itemsEqual, Bool.and_eq_true,
      isEqual_iff x y, List.cons.injEq, ← itemsEqual_iff xs ys]
    exact and_left_comm
end

@[simp] theorem isEqual_self (a : BoardListItem) : isEqual a a = true := (isEqual_iff a a).mpr rfl

theorem isEqual_eq_false {a b : BoardListItem} (h : ¬ a = b) : isEqual a b = false :=
  Bool.eq_false_iff.mpr (mt (isEqual_iff a b).mp h)

instance : DecidableEq BoardListItem := fun a b => decidable_of_iff _ (isEqual_iff a b)

variable (names : Names)

def name : BoardListItem → NSString
  | .board i => names.nameForBoardID i
  | .smart n _ => n
  | .favorites => names.favoritesDirectoryName
  | .folder n _ => n

def representName : BoardListItem → NSString
  | .board i => (names.representName i).getD (names.nameForBoardID i)
  | item => item.name names

/-- The type bits `BoardListBoardItem`, `BoardListCategoryItem`,
`BoardListFavoritesItem` and `BoardListSmartBoardItem`. -/
def type : BoardListItem → UInt32
  | .board _ => 1
  | .folder _ _ => 2
  | .favorites => 4
  | .smart _ _ => 32

def items : BoardListItem → List BoardListItem
  | .folder _ xs => xs
  | _ => []

def hasChildren (item : BoardListItem) : Bool := item.items.length != 0

mutual
/-- `itemForRepresentName:ofType:deepSearch:` of a folder with these items. -/
def itemForRepresentName (n : NSString) (mask : UInt32) (deep : Bool) :
    List BoardListItem → Option BoardListItem
  | [] => none
  | obj :: rest =>
    if n == obj.representName names && mask &&& obj.type != 0 then some obj
    else match (if deep && obj.hasChildren then searchItem n mask obj else none) with
      | some found => some found
      | none => itemForRepresentName n mask deep rest
def searchItem (n : NSString) (mask : UInt32) : BoardListItem → Option BoardListItem
  | .folder _ xs => itemForRepresentName n mask true xs
  | _ => none
end

-- Occurrence

mutual
/-- All items of a list of items and of the folders in it, in search order. -/
def nodes : List BoardListItem → List BoardListItem
  | [] => []
  | x :: xs => x :: (nodesBelow x ++ nodes xs)
def nodesBelow : BoardListItem → List BoardListItem
  | .folder _ xs => nodes xs
  | _ => []
end

theorem mem_nodes_of_mem (h : x ∈ xs) : x ∈ nodes xs := by
  induction xs with
  | nil => cases h
  | cons y ys ih =>
    rcases List.mem_cons.mp h with rfl | h
    · simp [nodes]
    · simp [nodes, ih h]

/-- The name the user gives an item is not used by the tree: no item has it,
neither as its name nor as the name shown for it. -/
def NameFresh (item : BoardListItem) (xs : List BoardListItem) : Prop :=
  ∀ x ∈ nodes xs, x.name names ≠ item.name names ∧ x.representName names ≠ item.name names

variable {names}

theorem NameFresh.not_mem (h : NameFresh names item xs) : item ∉ nodes xs :=
  fun hm => (h item hm).1 rfl

mutual
theorem itemForRepresentName_eq_none (deep : Bool) : (xs : List BoardListItem) →
    (∀ x ∈ nodes xs, x.representName names ≠ n) →
    itemForRepresentName names n mask deep xs = none
  | [], _ => by simp [itemForRepresentName]
  | x :: xs, h => by
    have hx : (n == x.representName names) = false := by
      simpa using (h x (by simp [nodes])).symm
    have hbelow : searchItem names n mask x = none :=
      searchItem_eq_none x fun y hy => h y (by simp [nodes, hy])
    have hrest : itemForRepresentName names n mask deep xs = none :=
      itemForRepresentName_eq_none deep xs fun y hy => h y (by simp [nodes, hy])
    simp [itemForRepresentName, hx, hbelow, hrest]
theorem searchItem_eq_none : (x : BoardListItem) →
    (∀ y ∈ nodesBelow x, y.representName names ≠ n) → searchItem names n mask x = none
  | .folder _ xs, h => by
    simpa [searchItem] using itemForRepresentName_eq_none true xs h
  | .board _, _ => by simp [searchItem]
  | .smart _ _, _ => by simp [searchItem]
  | .favorites, _ => by simp [searchItem]
end

end BoardListItem

end BathyScaphe.Boards
