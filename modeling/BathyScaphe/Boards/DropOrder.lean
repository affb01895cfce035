import BathyScaphe.Boards.DragAndDrop

/-!
# A drop keeps the board list

Where every dragged item is made again as it was and no folder is dragged before an
item in it, each step of a drop takes an item out of the tree and puts it back at its
new place. Between two items the dragged items end up in their order; dropped on a
folder, they end up in the opposite order.
-/

namespace BathyScaphe.Boards

namespace BoardListItem

variable {names : Names} {isBlocked : UInt32 → Bool}

/-- The tree after the items `done` were dropped, with `rest` still to come. `start`
is the index and what the target held in the beginning. -/
structure Reached (target : Option NSString) (start : Int × List BoardListItem)
    (all rest done : List BoardListItem) (s : Drop) : Prop where
  nodes : ((nodes s.items).map ident).Perm all
  target : ∃ ts, AtTarget s.items ts target ∧
    (s.index, ts.map ident) = Relocate.moveAll (done.map ident) start
  rest : ∀ d ∈ rest, d ∈ BoardListItem.nodes s.items

section
variable {xs ts l r all rest done : List BoardListItem} {d x y : BoardListItem}
  {frames : List Frame}
variable {target : Option NSString} {start : Int × List BoardListItem} {s : Drop}

theorem AtTarget.subset (h : AtTarget xs ts target) : ∀ x ∈ ts, x ∈ nodes xs := by
  intro x hx
  cases target with
  | none =>
    rw [show xs = ts from h]
    exact mem_nodes_of_mem hx
  | some n =>
    refine nodesBelow_subset xs h ?_
    rw [nodesBelow]
    exact mem_nodes_of_mem hx

theorem Distinct.remove (h : Distinct names (plug frames (l ++ d :: r))) :
    Distinct names (plug frames (l ++ r)) := by
  have hlabels := (perm_nodes_plug frames l r d).map (label names)
  rw [List.map_append, map_label_ident, map_label_ident, map_label_ident] at hlabels
  exact (List.nodup_append.mp (hlabels.nodup_iff.mp h)).2.1

theorem AtTarget.map_ident_remove (h : Distinct names (plug frames (l ++ d :: r)))
    (ht : AtTarget (plug frames (l ++ d :: r)) ts target) (hd : ¬ HoldsTarget d target) :
    ∃ ts', AtTarget (plug frames (l ++ r)) ts' target ∧
      ts'.map ident = (ts.map ident).erase (ident d) := by
  obtain ⟨ts', hat, hts'⟩ := ht.remove target hd
  have hnot : ident d ∉ (nodes (plug frames (l ++ r))).map ident := by
    intro hmem
    have hlabel := List.mem_map_of_mem (f := label names) hmem
    rw [map_label_ident, label_ident] at hlabel
    exact h.not_mem_plug List.mem_cons_self hlabel
  refine ⟨ts', hat, ?_⟩
  obtain heq | ⟨rfl, rfl⟩ := hts'
  · have hnot' : ident d ∉ ts'.map ident := by
      intro hmem
      obtain ⟨y, hy, heq⟩ := List.mem_map.mp hmem
      exact hnot (List.mem_map.mpr ⟨y, hat.subset y hy, heq⟩)
    rw [← heq, List.erase_of_not_mem hnot']
  · have hl : ident d ∉ l.map ident := by
      intro hmem
      obtain ⟨y, hy, heq⟩ := List.mem_map.mp hmem
      exact hnot (List.mem_map.mpr ⟨y, hat.subset y (List.mem_append_left r hy), heq⟩)
    rw [List.map_append, List.map_append, List.map_cons, List.erase_append_right _ hl,
      List.erase_cons_head]

theorem Reached.step (hxs : Distinct names xs)
    (h : Reached target start ((BoardListItem.nodes xs).map ident) (rest ++ [d]) done s)
    (hd : ¬ HoldsTarget d target) (hbelow : ∀ x ∈ rest, d ∉ nodesBelow x)
    (hrest : ∀ x ∈ rest, ¬ HoldsTarget x target) :
    Reached target start ((BoardListItem.nodes xs).map ident) rest (d :: done)
      (s.dropItem names target d) := by
  have hdistinct : Distinct names s.items := hxs.of_perm h.nodes
  obtain ⟨ts, hat, hmoved⟩ := h.target
  have hmem : d ∈ BoardListItem.nodes s.items := h.rest d (by simp)
  obtain ⟨frames, l, r, hitems⟩ := BoardListItem.exists_plug s.items hmem
  -- the index goes down as in the list of what the target holds
  have hindex : (targetItems s.items target).bind (·.idxOf? d) = (ts.map ident).idxOf?
    (ident d) := by
    rw [targetItems_of_atTarget hdistinct target hat, Option.bind_some]
    exact (Relocate.idxOf?_map ident fun y hy heq =>
      hdistinct.eq_of_ident (hat.subset y hy) hmem heq).symm
  have horiginal := itemForName_of_mem hdistinct hmem
  have hremoved : removeFromParent d s.items = some (plug frames (l ++ r)) := by
    rw [hitems] at hdistinct ⊢
    exact removeFromParent_plug hdistinct
  rw [hitems] at hat hdistinct
  obtain ⟨ts', hat', hts'⟩ := hat.map_ident_remove hdistinct hd
  obtain ⟨frames', hplug, hchange, hplace, hspine⟩ := hat'.exists_plug hdistinct.remove target
  generalize hnew : Relocate.adjust s.index ((ts.map ident).idxOf? (ident d)) = index
  obtain ⟨l', r', rfl, hinsert⟩ := Relocate.insertAt_eq_append index d ts'
  have hstep : s.dropItem names target d = ⟨plug frames' (l' ++ d :: r'), index⟩ := by
    rw [Drop.dropItem, hindex, hnew, horiginal, Option.bind_some, hremoved, Option.getD_some,
      hchange, hinsert]
  rw [hstep]
  refine ⟨?_, ⟨l' ++ d :: r', hplace _, ?_⟩, fun x hx => ?_⟩
  · have hout := perm_nodes_plug frames l r d
    have hin := perm_nodes_plug frames' l' r' d
    rw [← hplug] at hin
    rw [← hitems] at hout
    exact (hin.trans hout.symm).trans h.nodes
  · have hmove : Relocate.move (ident d) (s.index, ts.map ident) =
        (index, (l' ++ d :: r').map ident) := by
      rw [Relocate.move, hnew, ← hts', ← Relocate.map_insertAt, hinsert]
    rw [List.map_cons, Relocate.moveAll, List.foldr_cons, ← Relocate.moveAll, ← hmoved, hmove]
  · have hx' := h.rest x (List.mem_append_left _ hx)
    by_cases hinside : x ∈ d :: nodesBelow d
    · exact mem_nodes_inserted hinside
    · rw [hitems] at hx'
      have hkept := mem_nodes_remove hx' (hbelow x hx) hinside
      rw [hplug] at hkept
      exact mem_nodes_insert hkept fun hs => hrest x hx (hspine x hs)

theorem dropLoop_cons (hd : recreate isBlocked d = some (some d)) (rest : List BoardListItem)
    (s : Drop) :
    dropLoop names isBlocked target (d :: rest) s =
      dropLoop names isBlocked target rest (s.dropItem names target d) := by
  rw [dropLoop, hd]
  cases d with
  | favorites => simp [recreate] at hd
  | _ => rfl

theorem Reached.dropLoop (hxs : Distinct names xs)
    (h : Reached target start ((BoardListItem.nodes xs).map ident) rest done s)
    (hcopies : ∀ d ∈ rest, recreate isBlocked d = some (some d))
    (horder : rest.Pairwise fun x y => y ∉ nodesBelow x)
    (htarget : ∀ d ∈ rest, ¬ HoldsTarget d target) :
    ∃ s', dropLoop names isBlocked target rest.reverse s = .ok s' ∧
      Reached target start ((BoardListItem.nodes xs).map ident) [] (rest ++ done) s' := by
  induction rest using List.reverseRecOn generalizing done s with
  | nil => exact ⟨s, rfl, h⟩
  | append_singleton rest d ih =>
    obtain ⟨horder, -, hbelow⟩ := List.pairwise_append.mp horder
    have hleft {x : BoardListItem} (hx : x ∈ rest) : x ∈ rest ++ [d] := List.mem_append_left _ hx
    have hd : d ∈ rest ++ [d] := by simp
    have hstep := h.step hxs (htarget d hd) (fun x hx => hbelow x hx d (by simp))
      fun x hx => htarget x (hleft hx)
    obtain ⟨s', hloop, hreached⟩ :=
      ih hstep (fun x hx => hcopies x (hleft hx)) horder fun x hx => htarget x (hleft hx)
    refine ⟨s', ?_, by rwa [List.append_assoc]⟩
    rw [List.reverse_append, List.reverse_singleton, List.singleton_append,
      dropLoop_cons (hcopies d hd), hloop]

end

-- The drop

/-- Where a drop puts its items among `count` items of the target. -/
def Dragging.place (drag : Dragging) (count : Nat) : Nat :=
  if drag.index < 0 then count else drag.index.toNat

/-- `ys` has the items of `xs`, with the dragged ones in a row and in their order at the
place of the drop. -/
structure Kept (drag : Dragging) (xs ys : List BoardListItem) : Prop where
  same : ((nodes ys).map ident).Perm ((nodes xs).map ident)
  place : ∃ old new, targetItems xs drag.target = some old ∧ targetItems ys drag.target = some new ∧
    new.map ident =
      ((old.map ident).take (drag.place old.length)).filter (· ∉ drag.dragged.map ident) ++
        (drag.dragged.map ident ++
          ((old.map ident).drop (drag.place old.length)).filter (· ∉ drag.dragged.map ident))

def KeepsList (names : Names) (isBlocked : UInt32 → Bool) (drag : Dragging)
    (xs : List BoardListItem) :
    Prop := ∃ s, handleDroppedBoards names isBlocked drag xs = .ok s ∧ Kept drag xs s.items

/-- A selection of items of the tree, with a place that an outline view proposes: on an
item, or between its children. -/
structure Dragging.Of (drag : Dragging) (xs : List BoardListItem) : Prop where
  mem : ∀ d ∈ drag.dragged, d ∈ nodes xs
  nodup : drag.dragged.Nodup
  index : drag.index = -1 ∨
    0 ≤ drag.index ∧ ∀ ts, targetItems xs drag.target = some ts → drag.index ≤ ts.length

/-- Every dragged item is made again as it was, and no folder is dragged before an item
that is in it. -/
structure Dragging.Movable (isBlocked : UInt32 → Bool) (drag : Dragging) : Prop where
  copies : ∀ d ∈ drag.dragged, recreate isBlocked d = some (some d)
  order : drag.dragged.Pairwise fun x y => y ∉ nodesBelow x

section
variable {drag : Dragging} {xs : List BoardListItem}

theorem validateDrop_spec (hxs : Distinct names xs) (hdrag : drag.Of xs)
    (hcopies : ∀ d ∈ drag.dragged, recreate isBlocked d = some (some d))
    (hvalid : validateDrop isBlocked drag xs = true) :
    (∃ ts, AtTarget xs ts drag.target) ∧ ∀ d ∈ drag.dragged, ¬ HoldsTarget d drag.target := by
  unfold validateDrop at hvalid
  cases htarget : drag.target with
  | none => exact ⟨⟨xs, rfl⟩, fun _ _ h => h⟩
  | some n =>
    rw [htarget] at hvalid
    cases hfind : (nodes xs).find? (isFolderNamed n) with
    | none => simp [hfind] at hvalid
    | some item =>
      obtain ⟨ts, rfl⟩ := isFolderNamed_iff.mp (List.find?_some hfind)
      have hitem : .folder n ts ∈ nodes xs := List.mem_of_find?_eq_some hfind
      refine ⟨⟨ts, hitem⟩, ?_⟩
      rintro d hd ⟨ts', hts'⟩
      have hbelow : .folder n ts' ∈ nodes xs := by
        obtain heq | hmem := List.mem_cons.mp hts'
        · exact heq ▸ hdrag.mem d hd
        · exact nodesBelow_subset xs (hdrag.mem d hd) hmem
      have heq := hxs.eq_of_label hbelow hitem rfl
      have hrefuses : refuses (.folder n ts) (some (some d)) = false := by
        have hall := List.all_eq_true.mp (by simpa only [hfind] using hvalid) d hd
        simpa [hcopies d hd] using hall
      simp only [refuses, Bool.or_eq_false_iff, beq_eq_false_iff_ne] at hrefuses
      rw [heq] at hts'
      obtain hself | hmem := List.mem_cons.mp hts'
      · exact hrefuses.1 hself
      · exact absurd hmem (by simpa using hrefuses.2)

theorem nodup_map_ident (hxs : Distinct names xs) {l : List BoardListItem} (hl : l.Nodup)
    (hmem : ∀ x ∈ l, x ∈ nodes xs) : (l.map ident).Nodup :=
  hl.map_on fun x hx y hy heq => hxs.eq_of_ident (hmem x hx) (hmem y hy) heq

theorem sublist_nodes (xs : List BoardListItem) : xs.Sublist (nodes xs) := by
  induction xs with
  | nil => exact List.nil_sublist _
  | cons x xs ih =>
    rw [nodes_cons]
    exact (ih.trans (List.sublist_append_right _ _)).cons_cons x

theorem Distinct.of_plug {frames : List Frame} {ys : List BoardListItem}
    (h : Distinct names (plug frames ys)) : Distinct names ys := by
  induction frames with
  | nil => exact h
  | cons f frames ih => exact ih h.plug_tail

/-- A movable selection ends up in its order if and only if it has one item or is
dropped between two items. -/
theorem keepsList_iff (hxs : Distinct names xs) (hdrag : drag.Of xs)
    (hvalid : validateDrop isBlocked drag xs = true) (hmovable : drag.Movable isBlocked) :
    KeepsList names isBlocked drag xs ↔ (drag.index = -1 → drag.dragged.length ≤ 1) := by
  obtain ⟨⟨old, hold⟩, htarget⟩ := validateDrop_spec hxs hdrag hmovable.copies hvalid
  have hstart : Reached drag.target (drag.index, old.map ident)
    ((nodes xs).map ident) drag.dragged []
      ⟨xs, drag.index⟩ := ⟨.refl _, ⟨old, hold, rfl⟩, hdrag.mem⟩
  obtain ⟨s, hloop, hend⟩ := hstart.dropLoop hxs hmovable.copies hmovable.order htarget
  obtain ⟨new, hnew, hmoved⟩ := hend.target
  rw [List.append_nil] at hmoved
  have hitems := targetItems_of_atTarget hxs drag.target hold
  have hitems' := targetItems_of_atTarget (hxs.of_perm hend.nodes) drag.target hnew
  have hdragged := nodup_map_ident hxs hdrag.nodup hdrag.mem
  have holdnodup : (old.map ident).Nodup := by
    obtain ⟨frames, hplug, -⟩ := hold.exists_plug hxs drag.target
    rw [hplug] at hxs
    exact hxs.of_plug.nodup_ident.sublist ((sublist_nodes old).map ident)
  -- the drop keeps the list if and only if the target holds what it should
  have hkeeps : KeepsList names isBlocked drag xs ↔ new.map ident =
      ((old.map ident).take (drag.place old.length)).filter (· ∉ drag.dragged.map ident) ++
        (drag.dragged.map ident ++
          ((old.map ident).drop (drag.place old.length)).filter (· ∉ drag.dragged.map ident)) := by
    constructor
    · rintro ⟨s', hs', -, old', new', hold', hnew', hplace⟩
      rw [handleDroppedBoards, hloop] at hs'
      obtain rfl := Except.ok.inj hs'
      rw [hitems, Option.some.injEq] at hold'
      rw [hitems', Option.some.injEq] at hnew'
      rwa [hold', hnew']
    · exact fun hplace => ⟨s, hloop, hend.nodes, old, new, hitems, hitems', hplace⟩
  rw [hkeeps]
  obtain hon | ⟨hnonneg, hle⟩ := hdrag.index
  · have hneg : drag.index < 0 := by omega
    have hlist := (Relocate.moveAll_of_neg hneg holdnodup hdragged).2
    rw [← hmoved] at hlist
    dsimp only at hlist
    have hplace : drag.place old.length = (old.map ident).length := by
      rw [Dragging.place, if_pos hneg, List.length_map]
    rw [hlist, hplace, List.take_length, List.drop_length, List.filter_nil, List.append_nil,
      List.append_cancel_left_eq, Relocate.reverse_eq_self_iff hdragged, List.length_map]
    exact ⟨fun h _ => h, fun h => h hon⟩
  · have hle := hle old hitems
    obtain ⟨p, hp⟩ := Int.eq_ofNat_of_zero_le hnonneg
    have hplace : drag.place old.length = p := by
      rw [Dragging.place, if_neg (by omega), hp]
      rfl
    have hbefore : ((old.map ident).take p).length = p := by
      rw [List.length_take, List.length_map]
      omega
    have hmove := Relocate.moveAll_append
      (by rwa [List.take_append_drop] : ((old.map ident).take p ++ (old.map ident).drop p).Nodup)
      hdragged
    rw [List.take_append_drop, hbefore, ← show drag.index = (p : Int) from hp, ← hmoved,
      Prod.mk.injEq] at hmove
    rw [hplace, hmove.2]
    exact ⟨fun _ hon => absurd hon (by omega), fun _ => rfl⟩

end

-- Drops of a small list

def smallNames : Names := ⟨fun i => [UInt16.ofNat i.toNat], fun _ => none, ns "Favorites"⟩

def smallList : List BoardListItem :=
  [.favorites, .folder (ns "A") [.board 1, .board 2], .folder (ns "B") [], .board 3]

/-- Two boards from different folders are dropped into the empty folder. -/
theorem keepsList_between :
    KeepsList smallNames (fun _ => false) ⟨[.board 1, .board 3], some (ns "B"), 0⟩ smallList := by
  refine (keepsList_iff (by unfold Distinct; decide) ⟨by decide, by decide, .inr ⟨by decide, ?_⟩⟩
    (by decide) ⟨by decide, by decide⟩).mpr fun h => absurd h (by decide)
  intro ts _
  exact Int.natCast_nonneg _

/-- Two boards dropped on a folder are exchanged, and a board dragged with the folder it
is in is there twice. -/
theorem not_keepsList :
    ¬ KeepsList smallNames (fun _ => false) ⟨[.board 1, .board 2], some (ns "B"), -1⟩ smallList ∧
    ¬ KeepsList smallNames (fun _ => false)
      ⟨[.folder (ns "A") [.board 1, .board 2], .board 1], none, 3⟩ smallList := by
  constructor
  · rintro ⟨s, hs, -, old, new, hold, hnew, hplace⟩
    have hrun : handleDroppedBoards smallNames (fun _ => false)
        ⟨[.board 1, .board 2], some (ns "B"), -1⟩ smallList =
        .ok ⟨[.favorites, .folder (ns "A") [], .folder (ns "B") [.board 2, .board 1],
          .board 3], -1⟩ :=
      rfl
    obtain rfl := Except.ok.inj (hs.symm.trans hrun)
    obtain rfl : old = [] := Option.some.inj (hold.symm.trans rfl)
    obtain rfl : new = [.board 2, .board 1] := Option.some.inj (hnew.symm.trans rfl)
    exact absurd hplace (by decide)
  · rintro ⟨s, hs, hsame, -⟩
    have hrun : handleDroppedBoards smallNames (fun _ => false)
        ⟨[.folder (ns "A") [.board 1, .board 2], .board 1], none, 3⟩ smallList =
        .ok ⟨[.favorites, .folder (ns "B") [], .board 1, .folder (ns "A") [.board 1, .board 2],
          .board 3],
          3⟩ := rfl
    obtain rfl := Except.ok.inj (hs.symm.trans hrun)
    exact absurd hsame.length_eq (by decide)

end BoardListItem

end BathyScaphe.Boards
