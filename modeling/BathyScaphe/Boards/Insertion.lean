import BathyScaphe.Boards.BoardListItem

/-!
# Inserting an item after another

`insertItem:afterItem:deepSearch:` searches a folder and the folders in it
for the target, and `addItem:afterObject:` of the board list turns the
search's `NSRangeException` into its answer. `insertAfterFirst` says what
the pair is for: the item goes directly behind the first occurrence of the
target, in the target's own folder. The two agree when the target is not in
the tree at all or is the second item of the top level, and never else.
-/

namespace BathyScaphe.Boards

open BoardListItem

/-- What a message to a folder leaves behind: the folder's items, changed or
not, and whether it ended by raising `NSRangeException`. -/
structure Insertion where
  items : List BoardListItem
  raised : Bool

def insertObject (item : BoardListItem) (index : Nat) (items : List BoardListItem) : Insertion :=
  if index ≤ items.length then ⟨items.insertIdx index item, false⟩ else ⟨items, true⟩

mutual
/-- The `for` loop at index `i`, with the items before `i` in `done`. -/
def insertLoop (item object : BoardListItem) (deep : Bool) (i : Nat) (done : List BoardListItem) :
    List BoardListItem → Insertion
  | [] => ⟨done, true⟩
  | obj :: rest =>
    if object.isEqual obj then insertObject item (i + i) (done ++ obj :: rest)
    else insertLoop item object deep (i + 1)
      (done ++ [if deep && obj.hasChildren then insertBelow item object obj else obj]) rest
/-- The recursive message to a child. The loop catches the child's
`NSRangeException` and goes on whatever the child did. -/
def insertBelow (item object : BoardListItem) : BoardListItem → BoardListItem
  | .folder n xs => .folder n (insertLoop item object true 0 [] xs).items
  | obj => obj
end

def insertItem (item object : BoardListItem) (deep : Bool) (items : List BoardListItem) :
    Insertion :=
  insertLoop item object deep 0 [] items

/-- `addItem:afterObject:` on the items of the top level folder, with the
items it leaves and its answer. -/
def addItem (names : Names) (top : List BoardListItem) (item : BoardListItem)
    (target : Option BoardListItem) : List BoardListItem × Bool :=
  let mask : UInt32 := if item.type == 2 then 2 else 1 ||| 32
  if (itemForRepresentName names (item.name names) mask true top).isSome then (top, false)
  else match target with
    | none => (top ++ [item], true)
    | some object =>
      let result := insertItem item object true top
      (result.items, !result.raised)

-- What it is for

mutual
/-- The item directly behind the first occurrence of the target in search
order, `none` when there is no occurrence. -/
def insertAfterFirst (item object : BoardListItem) :
    List BoardListItem → Option (List BoardListItem)
  | [] => none
  | x :: xs =>
    if x = object then some (x :: item :: xs)
    else match insertAfterBelow item object x with
      | some y => some (y :: xs)
      | none => (insertAfterFirst item object xs).map (x :: ·)
def insertAfterBelow (item object : BoardListItem) : BoardListItem → Option BoardListItem
  | .folder n xs => (insertAfterFirst item object xs).map (.folder n)
  | _ => none
end

mutual
theorem insertAfterFirst_eq_none : (xs : List BoardListItem) →
    (insertAfterFirst item object xs = none ↔ object ∉ nodes xs)
  | [] => by simp [insertAfterFirst, nodes]
  | x :: xs => by
    simp only [insertAfterFirst, nodes, List.mem_cons, List.mem_append, not_or]
    by_cases hx : x = object
    · simp [hx]
    · simp only [hx, Ne.symm hx, if_false, not_false_eq_true, true_and,
        ← @insertAfterBelow_eq_none item object x, ← @insertAfterFirst_eq_none item object xs]
      cases insertAfterBelow item object x <;> simp
theorem insertAfterBelow_eq_none : (x : BoardListItem) →
    (insertAfterBelow item object x = none ↔ object ∉ nodesBelow x)
  | .folder _ xs => by simpa [insertAfterBelow, nodesBelow] using insertAfterFirst_eq_none xs
  | .board _ => by simp [insertAfterBelow, nodesBelow]
  | .smart _ _ => by simp [insertAfterBelow, nodesBelow]
  | .favorites => by simp [insertAfterBelow, nodesBelow]
end

theorem insertAfterFirst_append (h : object ∉ nodes pre) :
    insertAfterFirst item object (pre ++ object :: rest) =
      some (pre ++ object :: item :: rest) := by
  induction pre with
  | nil => simp [insertAfterFirst]
  | cons x pre ih =>
    simp only [nodes, List.mem_cons, List.mem_append, not_or] at h
    have hbelow : insertAfterBelow item object x = none := (insertAfterBelow_eq_none x).mpr h.2.1
    simp [insertAfterFirst, Ne.symm h.1, hbelow, ih h.2.2]

/-- An occurrence inside a folder of `pre` is served there, and the top level
keeps its length. -/
theorem length_insertAfterFirst (hpre : object ∉ pre) (h : object ∈ nodes pre)
    (hys : insertAfterFirst item object (pre ++ rest) = some ys) :
    ys.length = (pre ++ rest).length := by
  induction pre generalizing ys with
  | nil => simp [nodes] at h
  | cons x pre ih =>
    simp only [List.mem_cons, not_or] at hpre
    simp only [List.cons_append, insertAfterFirst, Ne.symm hpre.1, if_false] at hys
    cases hb : insertAfterBelow item object x with
    | some y =>
      simp only [hb, Option.some.injEq] at hys
      simp [← hys]
    | none =>
      have hx : object ∉ nodesBelow x := (insertAfterBelow_eq_none x).mp hb
      have hn : object ∈ nodes pre := by simpa [nodes, hpre.1, hx] using h
      simp only [hb, Option.map_eq_some_iff] at hys
      obtain ⟨zs, hzs, rfl⟩ := hys
      simp [ih hpre.2 hn hzs]

-- What the loop does

mutual
theorem insertLoop_not_mem (done : List BoardListItem) : (xs : List BoardListItem) →
    object ∉ nodes xs → insertLoop item object true i done xs = ⟨done ++ xs, true⟩
  | [], _ => by simp [insertLoop]
  | x :: xs, h => by
    simp only [nodes, List.mem_cons, List.mem_append, not_or] at h
    have hne : object.isEqual x = false := isEqual_eq_false h.1
    have hx : insertBelow item object x = x := insertBelow_not_mem x h.2.1
    simp [insertLoop, hne, hx, insertLoop_not_mem (done ++ [x]) xs h.2.2]
theorem insertBelow_not_mem : (x : BoardListItem) →
    object ∉ nodesBelow x → insertBelow item object x = x
  | .folder _ xs, h => by simp [insertBelow, insertLoop_not_mem [] xs h]
  | .board _, _ => by simp [insertBelow]
  | .smart _ _, _ => by simp [insertBelow]
  | .favorites, _ => by simp [insertBelow]
end

/-- Sending the message to a child without children changes nothing, so the
test of `hasChildren` does not matter. -/
theorem insertBelow_hasChildren (x : BoardListItem) :
    (if true && x.hasChildren then insertBelow item object x else x) =
      insertBelow item object x := by
  cases x with
  | folder n xs => cases xs <;> simp [hasChildren, BoardListItem.items, insertBelow, insertLoop]
  | _ => simp [insertBelow]

/-- The loop over items that are not the target: each child gets the message. -/
theorem insertLoop_append (h : object ∉ pre) (i : Nat) (done : List BoardListItem) :
    insertLoop item object true i done (pre ++ rest) =
      insertLoop item object true (i + pre.length)
        (done ++ pre.map (insertBelow item object)) rest := by
  induction pre generalizing i done with
  | nil => simp
  | cons x pre ih =>
    simp only [List.mem_cons, not_or] at h
    have hne : object.isEqual x = false := isEqual_eq_false h.1
    simp only [List.cons_append, insertLoop, hne, Bool.false_eq_true, if_false,
      insertBelow_hasChildren, ih h.2, List.length_cons, List.map_cons, List.append_assoc,
      List.nil_append]
    congr 1
    omega

theorem insertItem_of_not_mem (h : object ∉ xs) :
    (insertItem item object true xs).raised = true := by
  rw [insertItem, ← List.append_nil xs, insertLoop_append h, insertLoop]

theorem insertItem_append (h : object ∉ pre) :
    insertItem item object true (pre ++ object :: rest) =
      insertObject item (pre.length + pre.length)
        (pre.map (insertBelow item object) ++ object :: rest) := by
  simp [insertItem, insertLoop_append h, insertLoop]

theorem map_insertBelow (h : object ∉ nodes pre) : pre.map (insertBelow item object) = pre := by
  induction pre with
  | nil => rfl
  | cons x pre ih =>
    simp only [nodes, List.mem_cons, List.mem_append, not_or] at h
    simp [insertBelow_not_mem x h.2.1, ih h.2.2]

-- Where the two agree

/-- The item goes where `insertAfterFirst` puts it and the answer is `YES`; or
the target is not in the tree, the tree stays and the answer is `NO`. -/
def AddsAfter (names : Names) (top : List BoardListItem) (item target : BoardListItem) : Prop :=
  addItem names top item (some target) =
    match insertAfterFirst item target top with
    | some top' => (top', true)
    | none => (top, false)

theorem addItem_of_nameFresh (h : NameFresh names item top) :
    addItem names top item (some target) =
      ((insertItem item target true top).items, !(insertItem item target true top).raised) := by
  have hnone : ∀ mask, itemForRepresentName names (item.name names) mask true top = none :=
    fun mask => itemForRepresentName_eq_none true top fun x hx => (h x hx).2
  simp [addItem, hnone]

/-- Inserting an item the list does not have at two places gives one list only
when the places are the same. -/
theorem insertIdx_inj {xs : List BoardListItem} (hx : item ∉ xs) (hi : i ≤ xs.length)
    (hj : j ≤ xs.length) (h : xs.insertIdx i item = xs.insertIdx j item) : i = j := by
  have key : ∀ {a b : Nat}, a < b → b ≤ xs.length →
      xs.insertIdx a item = xs.insertIdx b item → False := by
    intro a b hab hb heq
    have ha : (xs.insertIdx b item)[a]? = xs[a]? := List.getElem?_insertIdx_of_lt hab
    rw [← heq, List.getElem?_insertIdx_self, if_pos (by omega)] at ha
    exact hx (List.mem_of_getElem? ha.symm)
  rcases Nat.lt_trichotomy i j with hlt | heq | hgt
  · exact (key hlt hj h).elim
  · exact heq
  · exact (key hgt hi h.symm).elim

theorem insertIdx_append (pre rest : List BoardListItem) :
    (pre ++ object :: rest).insertIdx (pre.length + 1) item = pre ++ object :: item :: rest := by
  induction pre with
  | nil => simp
  | cons x pre ih => simpa using ih

theorem length_insertItem (hpre : object ∉ pre)
    (h : (insertItem item object true (pre ++ object :: rest)).raised = false) :
    (insertItem item object true (pre ++ object :: rest)).items.length =
      (pre ++ object :: rest).length + 1 := by
  rw [insertItem_append hpre] at h ⊢
  unfold insertObject at h ⊢
  split at h
  · next hle =>
    rw [if_pos hle, List.length_insertIdx_of_le_length hle]
    simp
  · cases h

/-- The index `i + i` is the index `i + 1` of the item behind the target only
for the second item. -/
theorem length_eq_one_of_agree (hpre : object ∉ pre) (hnodes : object ∉ nodes pre)
    (hitem : item ∉ pre ++ object :: rest)
    (h : (insertItem item object true (pre ++ object :: rest)).raised = false)
    (hagree : (insertItem item object true (pre ++ object :: rest)).items =
      pre ++ object :: item :: rest) : pre.length = 1 := by
  rw [insertItem_append hpre, map_insertBelow hnodes] at h hagree
  unfold insertObject at h hagree
  split at h
  · next hle =>
    rw [if_pos hle, ← insertIdx_append] at hagree
    have := insertIdx_inj hitem hle (by simp) hagree
    omega
  · cases h

theorem addItem_afterObject_iff (hfresh : NameFresh names item top) :
    AddsAfter names top item target ↔
      target ∉ nodes top ∨
        ∃ first rest, top = first :: target :: rest ∧ target ∉ nodes [first] := by
  rw [AddsAfter, addItem_of_nameFresh hfresh]
  constructor
  · intro h
    by_cases hin : target ∈ nodes top
    · right
      obtain ⟨top', htop'⟩ := Option.ne_none_iff_exists'.mp
        (mt (@insertAfterFirst_eq_none item target top).mp (not_not.mpr hin))
      simp only [htop', Prod.mk.injEq, Bool.not_eq_true'] at h
      obtain ⟨hitems, hraised⟩ := h
      -- the answer is `YES` only when the target stands on the top level
      by_cases hmem : target ∈ top
      · obtain ⟨pre, rest, rfl, hpre⟩ := List.eq_append_cons_of_mem hmem
        have hlen := length_insertItem hpre hraised
        have hnodes : target ∉ nodes pre := by
          intro hn
          have := length_insertAfterFirst hpre hn htop'
          rw [← hitems] at this
          omega
        have hone : pre.length = 1 :=
          length_eq_one_of_agree hpre hnodes (mt mem_nodes_of_mem hfresh.not_mem) hraised
            (hitems.trans (Option.some.inj (htop'.symm.trans (insertAfterFirst_append hnodes))))
        obtain ⟨first, rfl⟩ := List.length_eq_one_iff.mp hone
        exact ⟨first, rest, rfl, hnodes⟩
      · rw [insertItem_of_not_mem hmem] at hraised
        cases hraised
    · exact .inl hin
  · rintro (hout | ⟨first, rest, rfl, hfirst⟩)
    · rw [(insertAfterFirst_eq_none top).mpr hout]
      simp [insertItem, insertLoop_not_mem [] top hout]
    · have hmem : target ∉ [first] := mt mem_nodes_of_mem hfirst
      rw [show first :: target :: rest = [first] ++ target :: rest from rfl,
        insertItem_append hmem, insertAfterFirst_append hfirst, map_insertBelow hfirst]
      simp [insertObject]

def boardNames : Names where
  nameForBoardID i := if i = 1 then ns "news" else ns "mac"
  representName _ := none
  favoritesDirectoryName := ns "Favorites"

def newFolder : BoardListItem := .folder (ns "New") []

/-- A new folder behind the second board of the top level goes there. -/
theorem addItem_after_second :
    NameFresh boardNames newFolder [.board 1, .board 2] ∧
      AddsAfter boardNames [.board 1, .board 2] newFolder (.board 2) := by
  have hfresh : NameFresh boardNames newFolder [.board 1, .board 2] := by
    simp only [NameFresh, nodes, nodesBelow]
    decide
  refine ⟨hfresh, (addItem_afterObject_iff hfresh).mpr (.inr ⟨.board 1, [], rfl, ?_⟩)⟩
  simp [nodes, nodesBelow]

/-- A new folder behind the only board of the list goes before it. -/
theorem addItem_after_first_fails :
    NameFresh boardNames newFolder [.board 1] ∧
      insertAfterFirst newFolder (.board 1) [.board 1] = some [.board 1, newFolder] ∧
      addItem boardNames [.board 1] newFolder (some (.board 1)) = ([newFolder, .board 1], true) ∧
      ¬ AddsAfter boardNames [.board 1] newFolder (.board 1) := by
  have hfresh : NameFresh boardNames newFolder [.board 1] := by
    simp only [NameFresh, nodes, nodesBelow]
    decide
  have hafter : insertAfterFirst newFolder (.board 1) [.board 1] =
      some [.board 1, newFolder] := by simp [insertAfterFirst]
  have hadd : addItem boardNames [.board 1] newFolder (some (.board 1)) =
      ([newFolder, .board 1], true) := by
    simp [addItem_of_nameFresh hfresh, insertItem, insertLoop, insertObject]
  refine ⟨hfresh, hafter, hadd, ?_⟩
  rw [AddsAfter, hadd, hafter]
  simp [newFolder]

end BathyScaphe.Boards
