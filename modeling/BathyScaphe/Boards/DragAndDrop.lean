import BathyScaphe.Boards.Frames
import BathyScaphe.Boards.ListFile
import BathyScaphe.Lib.Relocate

/-!
# Dragging and dropping items of the board list

The dragged items travel as property lists. A drop makes items of them again, takes
the originals out of the tree by name and type, and puts the copies into the target
folder, beginning with the last of them.
-/

namespace BathyScaphe.Boards

namespace BoardListItem

variable (names : Names) (isBlocked : UInt32 → Bool)

-- Copies

mutual
/-- `baordListItemFromPlist:` of the property list of an item: `none` when it raises,
`some none` for `nil`. A board is found in the database by its URL, unless it is the
one that is blocked. A folder with the name of the top folder is written as an
array, which is no dictionary, and the favorites are not written at all. -/
def recreate : BoardListItem → Option (Option BoardListItem)
  | .board i => some (if isBlocked i then none else some (.board i))
  | .smart n q => some (some (.smart n q))
  | .favorites => none
  | .folder n xs => if n = topName then none else (recreateItems xs).map fun ys =>
      some (.folder n ys)
def recreateItems : List BoardListItem → Option (List BoardListItem)
  | [] => some []
  | .favorites :: rest => recreateItems rest
  | x :: rest =>
    match recreate x with
    | none => none
    | some copy => (recreateItems rest).map (copy.toList ++ ·)
end

-- Searching and changing the tree

def itemForName (n : NSString) (mask : UInt32) (xs : List BoardListItem) : Option BoardListItem :=
  (nodes xs).find? fun obj => n == obj.name names && mask &&& obj.type != 0

mutual
/-- The deep part of `parentForItem:`, with the item removed from the parent that is
found. -/
def removeBelow (original : BoardListItem) : List BoardListItem → Option (List BoardListItem)
  | [] => none
  | obj :: rest =>
    match removeInside original obj with
    | some obj => some (obj :: rest)
    | none => (removeBelow original rest).map (obj :: ·)
def removeInside (original : BoardListItem) : BoardListItem → Option BoardListItem
  | .folder n items =>
    (if original ∈ items then some (items.filter (· ≠ original))
      else removeBelow original items).map
      (.folder n)
  | _ => none
end

/-- `parentForItem:` and `removeItem:` of that parent; `none` when there is none. -/
def removeFromParent (original : BoardListItem) (items : List BoardListItem) :
    Option (List BoardListItem) :=
  if original ∈ items then some (items.filter (· ≠ original)) else removeBelow original items

def isFolderNamed (n : NSString) : BoardListItem → Bool
  | .folder m _ => m == n
  | _ => false

/-- The items of the target: of the top folder for `nil`, else of the folder with this
name. A folder that is no longer in the tree has none. -/
def targetItems (xs : List BoardListItem) : Option NSString → Option (List BoardListItem)
  | none => some xs
  | some n => ((nodes xs).find? (isFolderNamed n)).map items

mutual
def changeFolder (n : NSString) (f : List BoardListItem → List BoardListItem) :
    List BoardListItem → List BoardListItem
  | [] => []
  | x :: xs => changeItem n f x :: changeFolder n f xs
def changeItem (n : NSString) (f : List BoardListItem → List BoardListItem) :
    BoardListItem → BoardListItem
  | .folder m xs => if m = n then .folder m (f xs) else .folder m (changeFolder n f xs)
  | x => x
end

def changeTarget (f : List BoardListItem → List BoardListItem) (xs : List BoardListItem) :
    Option NSString → List BoardListItem
  | none => f xs
  | some n => changeFolder n f xs

-- The drop

/-- The top folder during a drop, and the index where the next item goes. -/
structure Drop where
  items : List BoardListItem
  index : Int

/-- The loop body of `outlineView:handleDroppedBoards:item:childIndex:` for a copy. -/
def Drop.dropItem (target : Option NSString) (dropped : BoardListItem) (s : Drop) : Drop :=
  let index := Relocate.adjust s.index ((targetItems s.items target).bind (·.idxOf? dropped))
  let original := itemForName names (dropped.name names) dropped.type s.items
  let items := (original.bind (removeFromParent · s.items)).getD s.items
  ⟨changeTarget (Relocate.insertAt index dropped) items target, index⟩

/-- The loop over the dragged items in reverse order. It ends early with the tree it
has reached when a copy cannot be made. -/
def dropLoop (target : Option NSString) : List BoardListItem → Drop → Except Drop Drop
  | [], s => .ok s
  | obj :: rest, s =>
    match recreate isBlocked obj with
    | none => .error s
    | some none => dropLoop target rest s
    | some (some .favorites) => dropLoop target rest s
    | some (some dropped) => dropLoop target rest (s.dropItem names target dropped)

/-- A selection that is dropped: the dragged items as they were, the target, `none` for
the top level, and the index, -1 for a drop on the target itself. -/
structure Dragging where
  dragged : List BoardListItem
  target : Option NSString
  index : Int

def handleDroppedBoards (drag : Dragging) (xs : List BoardListItem) : Except Drop Drop :=
  dropLoop names isBlocked drag.target drag.dragged.reverse ⟨xs, drag.index⟩

def refuses (item : BoardListItem) : Option (Option BoardListItem) → Bool
  | none => true
  | some none => false
  | some (some copy) => item == copy || (nodesBelow copy).contains item

/-- `outlineView:validateDrop:proposedItem:proposedChildIndex:` for board list items. -/
def validateDrop (drag : Dragging) (xs : List BoardListItem) : Bool :=
  match drag.target with
  | none => drag.index > 0
  | some n =>
    match (nodes xs).find? (isFolderNamed n) with
    | none => false
    | some item => drag.dragged.all fun obj => !refuses item (recreate isBlocked obj)

-- Trees in which no two items share name and type

def label (x : BoardListItem) : NSString × UInt32 := (x.name names, x.type)

def Distinct (xs : List BoardListItem) : Prop := ((nodes xs).map (label names)).Nodup

variable {names} {xs ys l r ts : List BoardListItem} {d x y : BoardListItem} {frames : List Frame}

theorem label_ident (x : BoardListItem) : label names (ident x) = label names x := by
  cases x <;> rfl

theorem map_label_ident (xs : List BoardListItem) :
    (xs.map ident).map (label names) = xs.map (label names) := by
  rw [List.map_map]
  exact List.map_congr_left fun x _ => label_ident x

theorem Distinct.of_perm (h : Distinct names xs)
    (hperm : ((nodes ys).map ident).Perm ((nodes xs).map ident)) : Distinct names ys := by
  have hlabels := hperm.map (label names)
  rw [map_label_ident, map_label_ident] at hlabels
  exact hlabels.nodup_iff.mpr h

theorem Distinct.nodup_ident (h : Distinct names xs) : ((nodes xs).map ident).Nodup := by
  rw [Distinct, ← map_label_ident] at h
  exact h.of_map _

theorem Distinct.eq_of_label (h : Distinct names xs) (hx : x ∈ nodes xs) (hy : y ∈ nodes xs)
    (heq : label names x = label names y) : x = y :=
  List.inj_on_of_nodup_map h hx hy heq

theorem Distinct.eq_of_ident (h : Distinct names xs) (hx : x ∈ nodes xs) (hy : y ∈ nodes xs)
    (heq : ident x = ident y) : x = y :=
  List.inj_on_of_nodup_map h.nodup_ident hx hy heq

theorem Distinct.plug_tail {f : Frame} (h : Distinct names (plug (f :: frames) ys)) :
    Distinct names (plug frames ys) := by
  simp only [Distinct, plug, nodes_append, nodes_cons, nodesBelow, List.map_append,
    List.map_cons] at h
  exact ((List.nodup_cons.mp (List.nodup_append.mp h).2.1).2.of_append_left)

theorem Distinct.not_mem_plug (h : Distinct names (plug frames (l ++ d :: r)))
    (hx : x ∈ d :: nodesBelow d) : label names x ∉ (nodes (plug frames (l ++ r))).map
    (label names) := by
  have hlabels := (perm_nodes_plug frames l r d).map (label names)
  rw [List.map_append, map_label_ident, map_label_ident, map_label_ident] at hlabels
  have hnodup := hlabels.nodup_iff.mp h
  exact fun hmem => (List.nodup_append.mp hnodup).2.2 _ (List.mem_map_of_mem hx) _ hmem rfl

theorem Distinct.not_mem_nodesBelow (h : Distinct names (plug frames (l ++ d :: r))) :
    d ∉ nodesBelow d := by
  have hlabels := (perm_nodes_plug frames l r d).map (label names)
  rw [List.map_append, map_label_ident, map_label_ident, map_label_ident] at hlabels
  have hnodup := (List.nodup_append.mp (hlabels.nodup_iff.mp h)).1
  rw [List.map_cons] at hnodup
  exact fun hmem => (List.nodup_cons.mp hnodup).1 (List.mem_map_of_mem hmem)

-- Taking an item out

mutual
theorem removeBelow_eq_none : (xs : List BoardListItem) → d ∉ nodes xs → removeBelow d xs = none
  | [], _ => by simp [removeBelow]
  | x :: xs, h => by
    simp only [nodes_cons, List.mem_cons, List.mem_append, not_or] at h
    rw [removeBelow, removeInside_eq_none x h.2.1, removeBelow_eq_none xs h.2.2]
    rfl
theorem removeInside_eq_none : (x : BoardListItem) → d ∉ nodesBelow x → removeInside d x = none
  | .folder _ ys, h => by
    rw [nodesBelow] at h
    have hmem : d ∉ ys := fun hd => h (mem_nodes_of_mem hd)
    rw [removeInside, if_neg hmem, removeBelow_eq_none ys h]
    rfl
  | .board _, _ => by simp [removeInside]
  | .smart _ _, _ => by simp [removeInside]
  | .favorites, _ => by simp [removeInside]
end

theorem removeBelow_append (hl : d ∉ nodes l) (rest : List BoardListItem) :
    removeBelow d (l ++ rest) = (removeBelow d rest).map (l ++ ·) := by
  induction l with
  | nil => simp
  | cons x l ih =>
    simp only [nodes_cons, List.mem_cons, List.mem_append, not_or] at hl
    rw [List.cons_append, removeBelow, removeInside_eq_none x hl.2.1, ih hl.2.2, Option.map_map]
    rfl

theorem removeFromParent_plug (h : Distinct names (plug frames (l ++ d :: r))) :
    removeFromParent d (plug frames (l ++ d :: r)) = some (plug frames (l ++ r)) := by
  have hnot : d ∉ nodes (plug frames (l ++ r)) := fun hmem =>
    h.not_mem_plug List.mem_cons_self (List.mem_map_of_mem hmem)
  induction frames with
  | nil =>
    rw [plug, nodes_append, List.mem_append, not_or] at hnot
    have hl : ∀ x ∈ l, x ≠ d := fun x hx heq => hnot.1 (mem_nodes_of_mem (heq ▸ hx))
    have hr : ∀ x ∈ r, x ≠ d := fun x hx heq => hnot.2 (mem_nodes_of_mem (heq ▸ hx))
    have hfilter : (l ++ d :: r).filter (· ≠ d) = l ++ r := by
      rw [List.filter_append, List.filter_cons_of_neg (by simp),
        List.filter_eq_self.mpr (by simpa using hl), List.filter_eq_self.mpr (by simpa using hr)]
    rw [removeFromParent, plug, if_pos (by simp), hfilter]
    rfl
  | cons f frames ih =>
    simp only [plug, nodes_append, nodes_cons, nodesBelow, List.mem_append, List.mem_cons,
      not_or] at hnot
    obtain ⟨hbefore, -, hinner, hafter⟩ := hnot
    have hself : d ≠ .folder f.name (plug frames (l ++ d :: r)) := by
      intro heq
      refine h.not_mem_nodesBelow ?_
      rw [heq, nodesBelow, ← heq]
      exact mem_nodes_plug.mpr (.inr (.inr (mem_nodes_of_mem (by simp))))
    have htop : d ∉ plug (f :: frames) (l ++ d :: r) := by
      simp only [plug, List.mem_append, List.mem_cons, not_or]
      exact ⟨fun hd => hbefore (mem_nodes_of_mem hd), hself, fun hd => hafter (mem_nodes_of_mem hd)⟩
    have hinside : removeInside d (.folder f.name (plug frames (l ++ d :: r))) =
        some (.folder f.name (plug frames (l ++ r))) := by
      have hih := ih h.plug_tail hinner
      rw [removeFromParent] at hih
      rw [removeInside, hih]
      rfl
    rw [removeFromParent, if_neg htop, plug, removeBelow_append hbefore, removeBelow, hinside]
    rfl

theorem type_and_type (x y : BoardListItem) : (x.type &&& y.type != 0) = true ↔
    x.type = y.type := by
  cases x <;> cases y <;> simp only [type] <;> decide

theorem itemForName_of_mem (h : Distinct names xs) (hd : d ∈ nodes xs) :
    itemForName names (d.name names) d.type xs = some d := by
  have hlabel (y : BoardListItem) :
      (d.name names == y.name names && d.type &&& y.type != 0) = true ↔
        label names d = label names y := by
    rw [Bool.and_eq_true, beq_iff_eq, type_and_type, label, label, Prod.mk.injEq]
  rw [itemForName]
  cases hfind : (nodes xs).find? fun y => d.name names == y.name names &&
    d.type &&& y.type != 0 with
  | none => exact absurd ((hlabel d).mpr rfl) (List.find?_eq_none.mp hfind d hd)
  | some y =>
    have hy := List.find?_some hfind
    rw [h.eq_of_label hd (List.mem_of_find?_eq_some hfind) ((hlabel y).mp hy)]

-- The target

def AtTarget (xs : List BoardListItem) (ts : List BoardListItem) : Option NSString → Prop
  | none => xs = ts
  | some n => .folder n ts ∈ nodes xs

def HoldsTarget (x : BoardListItem) : Option NSString → Prop
  | none => False
  | some n => ∃ ts, .folder n ts ∈ x :: nodesBelow x

theorem isFolderNamed_iff {n : NSString} : isFolderNamed n x = true ↔ ∃ ts, x = .folder n ts := by
  cases x with
  | folder m ys => simp [isFolderNamed]
  | _ => simp [isFolderNamed]

theorem targetItems_of_atTarget (h : Distinct names xs) (target : Option NSString)
    (ht : AtTarget xs ts target) : targetItems xs target = some ts := by
  cases target with
  | none => exact congrArg some ht
  | some n =>
    rw [targetItems]
    cases hfind : (nodes xs).find? (isFolderNamed n) with
    | none => exact absurd (isFolderNamed_iff.mpr ⟨ts, rfl⟩) (List.find?_eq_none.mp hfind _ ht)
    | some y =>
      obtain ⟨ts', rfl⟩ := isFolderNamed_iff.mp (List.find?_some hfind)
      have heq := h.eq_of_label ht (List.mem_of_find?_eq_some hfind) rfl
      rw [Option.map_some, ← heq]
      rfl

theorem AtTarget.remove (target : Option NSString)
    (ht : AtTarget (plug frames (l ++ d :: r)) ts target) (hd : ¬ HoldsTarget d target) :
    ∃ ts', AtTarget (plug frames (l ++ r)) ts' target ∧
      (ts'.map ident = ts.map ident ∨ ts = l ++ d :: r ∧ ts' = l ++ r) := by
  cases target with
  | none =>
    cases frames with
    | nil => exact ⟨l ++ r, rfl, .inr ⟨ht.symm, rfl⟩⟩
    | cons f frames =>
      have ht : plug (f :: frames) (l ++ d :: r) = ts := ht
      exact ⟨_, rfl, .inl (by simp [← ht, plug, ident])⟩
  | some n =>
    obtain hside | hspine | hinner := mem_nodes_plug.mp ht
    · exact ⟨ts, mem_nodes_plug.mpr (.inl hside), .inl rfl⟩
    · obtain ⟨ts', hmem, hts'⟩ := spine_plug hspine (l ++ r)
      exact ⟨ts', mem_nodes_plug.mpr (.inr (.inl hmem)), hts'⟩
    · refine ⟨ts, mem_nodes_plug.mpr (.inr (.inr ?_)), .inl rfl⟩
      rw [nodes_append, nodes_cons, List.mem_append, ← List.cons_append, List.mem_append] at hinner
      rw [nodes_append, List.mem_append]
      obtain hl | hself | hr := hinner
      · exact .inl hl
      · exact absurd ⟨ts, hself⟩ hd
      · exact .inr hr

mutual
theorem changeFolder_eq_self {n : NSString} {f : List BoardListItem → List BoardListItem} :
    (xs : List BoardListItem) → (∀ z ∈ nodes xs, isFolderNamed n z = false) →
      changeFolder n f xs = xs
  | [], _ => by simp [changeFolder]
  | x :: xs, h => by
    simp only [nodes_cons, List.mem_cons, List.mem_append] at h
    rw [changeFolder, changeItem_eq_self x (h x (.inl rfl)) fun z hz => h z (.inr (.inl hz)),
      changeFolder_eq_self xs fun z hz => h z (.inr (.inr hz))]
theorem changeItem_eq_self {n : NSString} {f : List BoardListItem → List BoardListItem} :
    (x : BoardListItem) → isFolderNamed n x = false →
      (∀ z ∈ nodesBelow x, isFolderNamed n z = false) →
      changeItem n f x = x
  | .folder m ys, hx, h => by
    rw [nodesBelow] at h
    have hne : m ≠ n := by simpa [isFolderNamed] using hx
    rw [changeItem, if_neg hne, changeFolder_eq_self ys h]
  | .board _, _, _ => by simp [changeItem]
  | .smart _ _, _, _ => by simp [changeItem]
  | .favorites, _, _ => by simp [changeItem]
end

theorem changeFolder_append (n : NSString) (f : List BoardListItem → List BoardListItem)
    (xs ys : List BoardListItem) : changeFolder n f (xs ++ ys) = changeFolder n f xs ++
      changeFolder n f ys := by
  induction xs with
  | nil => simp [changeFolder]
  | cons x xs ih => simp [changeFolder, ih]

theorem changeFolder_plug {n : NSString} (f : List BoardListItem → List BoardListItem)
    (h : ∀ z ∈ nodes (plug frames (l ++ r)), isFolderNamed n z = false) :
    changeFolder n f (plug frames (l ++ .folder n ts :: r)) = plug frames
      (l ++ .folder n (f ts) :: r) := by
  induction frames with
  | nil =>
    simp only [plug, nodes_append, List.mem_append] at h
    rw [plug, plug, changeFolder_append, changeFolder, changeItem, if_pos rfl,
      changeFolder_eq_self l fun z hz => h z (.inl hz), changeFolder_eq_self r fun z hz =>
        h z (.inr hz)]
  | cons g frames ih =>
    simp only [plug, nodes_append, nodes_cons, nodesBelow, List.mem_append, List.mem_cons] at h
    have hname : g.name ≠ n := by
      simpa [isFolderNamed] using h (.folder g.name (plug frames (l ++ r))) (.inr (.inl rfl))
    rw [plug, plug, changeFolder_append, changeFolder, changeItem, if_neg hname,
      ih fun z hz => h z (.inr (.inr (.inl hz))), changeFolder_eq_self _ fun z hz => h z (.inl hz),
      changeFolder_eq_self _ fun z hz => h z (.inr (.inr (.inr hz)))]

theorem AtTarget.exists_plug (h : Distinct names xs) (target : Option NSString)
    (ht : AtTarget xs ts target) :
    ∃ frames, xs = plug frames ts ∧ (∀ f, changeTarget f xs target = plug frames (f ts)) ∧
      (∀ zs, AtTarget (plug frames zs) zs target) ∧ ∀ y ∈ spine frames ts,
      HoldsTarget y target := by
  cases target with
  | none => exact ⟨[], ht, fun f => congrArg f ht, fun zs => rfl, fun y hy => (nomatch hy)⟩
  | some n =>
    obtain ⟨outer, l, r, rfl⟩ := BoardListItem.exists_plug xs ht
    have hnot : ∀ z ∈ nodes (plug outer (l ++ r)), isFolderNamed n z = false := by
      intro z hz
      rw [Bool.eq_false_iff, ne_eq, isFolderNamed_iff]
      rintro ⟨ts', rfl⟩
      exact h.not_mem_plug List.mem_cons_self (List.mem_map.mpr ⟨_, hz, rfl⟩)
    have hplug (zs : List BoardListItem) :
        plug (outer ++ [⟨l, n, r⟩]) zs = plug outer (l ++ .folder n zs :: r) :=
      plug_append outer _ zs
    refine ⟨outer ++ [⟨l, n, r⟩], (hplug ts).symm, fun f => ?_, fun zs => ?_, fun y hy => ?_⟩
    · rw [hplug]
      exact changeFolder_plug f hnot
    · rw [hplug]
      exact mem_nodes_plug.mpr (.inr (.inr (mem_nodes_of_mem (by simp))))
    · rw [spine_append, List.mem_append] at hy
      obtain hy | hy := hy
      · exact ⟨ts, List.mem_cons_of_mem _ (mem_nodesBelow_spine hy
          (mem_nodes_of_mem (by simp [plug])))⟩
      · obtain rfl := List.mem_singleton.mp hy
        exact ⟨ts, List.mem_cons_self⟩

end BoardListItem

end BathyScaphe.Boards
