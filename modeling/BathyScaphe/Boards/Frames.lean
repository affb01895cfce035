import BathyScaphe.Boards.BoardListItem

/-!
# Places in the board list

An item of the tree stands in the items of a folder, which stands in the items of
another one, up to the top folder. The frames are the folders on the way down, each
without the items on the way; `plug` puts a list of items into the innermost one.
-/

namespace BathyScaphe.Boards

namespace BoardListItem

def ident : BoardListItem → BoardListItem
  | .folder n _ => .folder n []
  | x => x

structure Frame where
  before : List BoardListItem
  name : NSString
  after : List BoardListItem

def plug : List Frame → List BoardListItem → List BoardListItem
  | [], ys => ys
  | f :: frames, ys => f.before ++ .folder f.name (plug frames ys) :: f.after

def sides : List Frame → List BoardListItem
  | [] => []
  | f :: frames => nodes f.before ++ (nodes f.after ++ sides frames)

def spine : List Frame → List BoardListItem → List BoardListItem
  | [], _ => []
  | f :: frames, ys => .folder f.name (plug frames ys) :: spine frames ys

variable {xs ys l r : List BoardListItem} {d x y : BoardListItem} {frames : List Frame}

theorem nodes_append (xs ys : List BoardListItem) : nodes (xs ++ ys) = nodes xs ++ nodes ys := by
  induction xs with
  | nil => simp [nodes]
  | cons x xs ih => simp [nodes, ih]

theorem nodes_cons (x : BoardListItem) (xs : List BoardListItem) :
    nodes (x :: xs) = x :: (nodesBelow x ++ nodes xs) := by
  simp [nodes]

mutual
theorem nodesBelow_subset : (xs : List BoardListItem) → x ∈ nodes xs → nodesBelow x ⊆ nodes xs
  | [], h => by simp [nodes] at h
  | y :: ys, h => by
    rw [nodes_cons] at h ⊢
    obtain rfl | h := List.mem_cons.mp h
    · exact fun z hz => List.mem_cons_of_mem _ (List.mem_append_left _ hz)
    · obtain h | h := List.mem_append.mp h
      · exact fun z hz => List.mem_cons_of_mem _ (List.mem_append_left _ (nodesBelow_trans y h hz))
      · exact fun z hz =>
          List.mem_cons_of_mem _ (List.mem_append_right _ (nodesBelow_subset ys h hz))
theorem nodesBelow_trans : (y : BoardListItem) → x ∈ nodesBelow y → nodesBelow x ⊆ nodesBelow y
  | .folder _ ys, h => by
    rw [nodesBelow] at h ⊢
    exact nodesBelow_subset ys h
  | .board _, h => by simp [nodesBelow] at h
  | .smart _ _, h => by simp [nodesBelow] at h
  | .favorites, h => by simp [nodesBelow] at h
end

mutual
theorem exists_plug : (xs : List BoardListItem) → d ∈ nodes xs →
    ∃ frames l r, xs = plug frames (l ++ d :: r)
  | [], h => by simp [nodes] at h
  | x :: xs, h => by
    rw [nodes_cons] at h
    obtain rfl | h := List.mem_cons.mp h
    · exact ⟨[], [], xs, rfl⟩
    · obtain h | h := List.mem_append.mp h
      · obtain ⟨n, frames, l, r, rfl⟩ := exists_plug_below x h
        exact ⟨⟨[], n, xs⟩ :: frames, l, r, rfl⟩
      · obtain ⟨frames, l, r, hxs⟩ := exists_plug xs h
        cases frames with
        | nil => exact ⟨[], x :: l, r, by rw [hxs]; rfl⟩
        | cons f frames => exact ⟨⟨x :: f.before, f.name, f.after⟩ :: frames, l,
            r, by rw [hxs]; rfl⟩
theorem exists_plug_below : (x : BoardListItem) → d ∈ nodesBelow x →
    ∃ n frames l r, x = .folder n (plug frames (l ++ d :: r))
  | .folder n ys, h => by
    rw [nodesBelow] at h
    obtain ⟨frames, l, r, rfl⟩ := exists_plug ys h
    exact ⟨n, frames, l, r, rfl⟩
  | .board _, h => by simp [nodesBelow] at h
  | .smart _ _, h => by simp [nodesBelow] at h
  | .favorites, h => by simp [nodesBelow] at h
end

theorem mem_nodes_plug : y ∈ nodes (plug frames ys) ↔
    y ∈ sides frames ∨ y ∈ spine frames ys ∨ y ∈ nodes ys := by
  induction frames with
  | nil => simp [plug, sides, spine]
  | cons f frames ih =>
    simp only [plug, sides, spine, nodes_append, nodes_cons, nodesBelow, List.mem_append,
      List.mem_cons, ih]
    tauto

theorem mem_nodesBelow_spine (hy : y ∈ spine frames ys) (hd : d ∈ nodes ys) : d ∈ nodesBelow y := by
  induction frames with
  | nil => cases hy
  | cons f frames ih =>
    obtain rfl | hy := List.mem_cons.mp hy
    · rw [nodesBelow]
      exact mem_nodes_plug.mpr (.inr (.inr hd))
    · exact ih hy

theorem spine_plug {n : NSString} {ts : List BoardListItem} (h : .folder n ts ∈ spine frames ys)
    (zs : List BoardListItem) : ∃ ts', .folder n ts' ∈ spine frames zs ∧
      (ts'.map ident = ts.map ident ∨ ts = ys ∧ ts' = zs) := by
  induction frames with
  | nil => cases h
  | cons f frames ih =>
    obtain h | h := List.mem_cons.mp h
    · obtain ⟨rfl, rfl⟩ := BoardListItem.folder.inj h
      refine ⟨plug frames zs, List.mem_cons_self, ?_⟩
      cases frames with
      | nil => exact .inr ⟨rfl, rfl⟩
      | cons g frames => exact .inl (by simp [plug, ident])
    · obtain ⟨ts', hmem, hts'⟩ := ih h
      exact ⟨ts', List.mem_cons_of_mem _ hmem, hts'⟩

theorem plug_append (outer inner : List Frame) (ys : List BoardListItem) :
    plug (outer ++ inner) ys = plug outer (plug inner ys) := by
  induction outer with
  | nil => rfl
  | cons f outer ih => rw [List.cons_append, plug, plug, ih]

theorem spine_append (outer inner : List Frame) (ys : List BoardListItem) :
    spine (outer ++ inner) ys = spine outer (plug inner ys) ++ spine inner ys := by
  induction outer with
  | nil => rfl
  | cons f outer ih => rw [List.cons_append, spine, spine, ih, plug_append, List.cons_append]

theorem perm_nodes_plug (frames : List Frame) (l r : List BoardListItem) (d : BoardListItem) :
    ((nodes (plug frames (l ++ d :: r))).map ident).Perm
      ((d :: nodesBelow d).map ident ++ (nodes (plug frames (l ++ r))).map ident) := by
  induction frames with
  | nil =>
    simp only [plug, nodes_append, nodes_cons, List.map_append, List.map_cons, List.cons_append]
    refine List.perm_middle.trans (.cons _ ?_)
    rw [← List.append_assoc, ← List.append_assoc]
    exact List.perm_append_comm.append_right _
  | cons f frames ih =>
    have hinner :=
      ((ih.append_right ((nodes f.after).map ident)).cons (.folder f.name [])).append_left
      ((nodes f.before).map ident)
    have hcommute := List.perm_append_comm_assoc ((nodes f.before).map ident ++ [.folder f.name []])
      ((d :: nodesBelow d).map ident)
      ((nodes (plug frames (l ++ r))).map ident ++ (nodes f.after).map ident)
    simp only [plug, nodes_append, nodes_cons, nodesBelow, List.map_append, List.map_cons, ident,
      List.append_assoc, List.cons_append, List.nil_append] at hinner hcommute ⊢
    exact hinner.trans hcommute

/-- An item that neither is, holds nor is in `d` stays when `d` is taken out. -/
theorem mem_nodes_remove (hy : y ∈ nodes (plug frames (l ++ d :: r))) (hd : d ∉ nodesBelow y)
    (hnot : y ∉ d :: nodesBelow d) : y ∈ nodes (plug frames (l ++ r)) := by
  obtain hside | hspine | hinner := mem_nodes_plug.mp hy
  · exact mem_nodes_plug.mpr (.inl hside)
  · exact absurd (mem_nodesBelow_spine hspine (mem_nodes_of_mem (by simp))) hd
  · refine mem_nodes_plug.mpr (.inr (.inr ?_))
    rw [nodes_append, nodes_cons, List.mem_append, ← List.cons_append, List.mem_append] at hinner
    rw [nodes_append, List.mem_append]
    obtain hl | hself | hr := hinner
    · exact .inl hl
    · exact absurd hself hnot
    · exact .inr hr

theorem mem_nodes_insert (hy : y ∈ nodes (plug frames (l ++ r)))
    (hspine : y ∉ spine frames (l ++ r)) :
    y ∈ nodes (plug frames (l ++ d :: r)) := by
  obtain hside | hmem | hinner := mem_nodes_plug.mp hy
  · exact mem_nodes_plug.mpr (.inl hside)
  · exact absurd hmem hspine
  · refine mem_nodes_plug.mpr (.inr (.inr ?_))
    rw [nodes_append, List.mem_append] at hinner
    rw [nodes_append, nodes_cons, List.mem_append, List.mem_cons, List.mem_append]
    obtain hl | hr := hinner
    · exact .inl hl
    · exact .inr (.inr (.inr hr))

theorem mem_nodes_inserted (hy : y ∈ d :: nodesBelow d) :
    y ∈ nodes (plug frames (l ++ d :: r)) := by
  refine mem_nodes_plug.mpr (.inr (.inr ?_))
  rw [nodes_append, nodes_cons, List.mem_append, ← List.cons_append, List.mem_append]
  exact .inr (.inl hy)

end BoardListItem

end BathyScaphe.Boards
