import BathyScaphe.Lib.Swap
import Mathlib.Algebra.Order.BigOperators.Group.List
import Mathlib.Algebra.Order.Ring.Nat

/-!
# Fields with a name and a value

A list of names and values is written with `eq` between a name and its value and `amp` between
the fields. It is read by cutting at every `amp` and at the first `eq` of each field.
-/

namespace Fields

variable {α : Type u} [DecidableEq α] {amp eq : α}

def cut (eq : α) (s : List α) : List α × List α :=
  (s.takeWhile (· ≠ eq), (s.dropWhile (· ≠ eq)).tail)

def field (eq : α) (s : List α) : Option (List α × List α) :=
  if eq ∈ s then some (cut eq s) else none

def fields (amp eq : α) (s : List α) : Option (List (List α × List α)) :=
  (s.splitOn amp).mapM (field eq)

def assignment (eq : α) (p : List α × List α) : List α := p.1 ++ eq :: p.2

def joined (amp eq : α) (ps : List (List α × List α)) : List α :=
  [amp].intercalate (ps.map (assignment eq))

theorem mapM_eq_some_iff {β : Type v} {γ : Type w} {g : β → Option γ} {l : List β} {ds : List γ} :
    l.mapM g = some ds ↔ l.map g = ds.map some := by
  induction l generalizing ds with
  | nil => cases ds <;> simp
  | cons x l ih =>
    rw [List.mapM_cons, List.map_cons]
    cases hx : g x with
    | none => cases ds <;> simp
    | some y =>
      cases ds with
      | nil => cases h : l.mapM g <;> simp
      | cons d ds =>
        simp only [List.map_cons, List.cons.injEq, Option.some.injEq, ← ih]
        cases h : l.mapM g <;> simp

theorem mapM_eq_none_iff {β : Type v} {γ : Type w} {g : β → Option γ} {l : List β} :
    l.mapM g = none ↔ ∃ x ∈ l, g x = none := by
  induction l with
  | nil => simp
  | cons x l ih =>
    rw [List.mapM_cons, List.exists_mem_cons_iff, ← ih]
    cases g x <;> cases l.mapM g <;> simp

theorem eq_map_of_map_some {β : Type v} {γ : Type w} {g : β → Option γ} {l : List β}
    {ds : List γ} (d : γ)
    (h : l.map g = ds.map some) : (∀ x ∈ l, g x = some ((g x).getD d)) ∧ ds = l.map fun x =>
      (g x).getD d := by
  constructor
  · intro x hx
    have hmem : g x ∈ ds.map some := by
      rw [← h]
      exact List.mem_map_of_mem hx
    obtain ⟨y, -, hy⟩ := List.mem_map.mp hmem
    rw [← hy, Option.getD_some]
  · have hback := congrArg (List.map fun o : Option γ => o.getD d) h
    rw [List.map_map, List.map_map] at hback
    exact (List.map_id ds).symm.trans hback.symm

-- Written and read

variable {p : List α × List α} {ps qs : List (List α × List α)}

theorem field_assignment (p : List α × List α) : field eq (assignment eq p) = some
    (cut eq (assignment eq p)) :=
  if_pos (by simp [assignment])

theorem cut_assignment (h : eq ∉ p.1) : cut eq (assignment eq p) = p := by
  have hname : ∀ x ∈ p.1, decide (x ≠ eq) = true := by
    intro x hx
    rw [decide_eq_true_eq]
    rintro rfl
    exact h hx
  unfold cut assignment
  rw [List.takeWhile_append_of_pos hname, List.dropWhile_append_of_pos hname]
  simp

theorem cut_assignment_fst (p : List α × List α) : (cut eq (assignment eq p)).1 = p.1.takeWhile
    (· ≠ eq) := by
  unfold cut assignment
  generalize p.1 = name
  induction name with
  | nil => simp
  | cons x name ih =>
    rw [List.cons_append, List.takeWhile_cons, List.takeWhile_cons]
    split
    · exact congrArg _ ih
    · rfl

theorem takeWhile_of_not_mem {s : List α} (h : eq ∉ s) : s.takeWhile (· ≠ eq) = s := by
  rw [List.takeWhile_eq_self_iff]
  intro x hx
  rw [decide_eq_true_eq]
  rintro rfl
  exact h hx

theorem not_mem_of_length_takeWhile {s : List α} (h : (s.takeWhile (· ≠ eq)).length = s.length) :
    eq ∉ s := by
  intro hmem
  rw [← List.takeWhile_sublist _ |>.eq_of_length h] at hmem
  simpa using List.mem_takeWhile_imp hmem

theorem length_splitOn (c : α) (s : List α) : (s.splitOn c).length = s.count c + 1 := by
  induction s with
  | nil => rfl
  | cons x s ih =>
    rw [List.splitOn_cons_eq_if_modifyHead, List.count_cons]
    split
    · rw [List.length_cons, ih]
    · rw [List.length_modifyHead, ih, Nat.add_zero]

theorem fields_joined (hne : ps ≠ []) (h : ∀ p ∈ ps, amp ∉ assignment eq p) :
    fields amp eq (joined amp eq ps) = some (ps.map fun p => cut eq (assignment eq p)) := by
  unfold fields joined
  have hparts : ∀ part ∈ ps.map (assignment eq), amp ∉ part := List.forall_mem_map.mpr h
  rw [List.splitOn_intercalate amp hparts (by simpa using hne), mapM_eq_some_iff,
    List.map_map, List.map_map]
  exact List.map_congr_left fun p _ => field_assignment p

theorem length_of_fields (hne : ps ≠ []) (h : fields amp eq (joined amp eq ps) = some qs) :
    qs.length = ((ps.map (assignment eq)).map (List.count amp)).sum + ps.length := by
  have hlength := congrArg List.length (mapM_eq_some_iff.mp h)
  have hcount := Swap.count_intercalate (c := amp) (ps.map (assignment eq)) (by simpa using hne)
  rw [List.length_map, List.length_map, length_splitOn] at hlength
  rw [List.length_map] at hcount
  rw [← hlength]
  exact hcount

/-- As many fields as are written only where there is no `amp` inside of them. -/
theorem not_mem_of_length (hne : ps ≠ []) (h : fields amp eq (joined amp eq ps) = some qs)
    (hlength : qs.length = ps.length) : ∀ p ∈ ps, amp ∉ assignment eq p := by
  have hsum := length_of_fields hne h
  intro p hp hmem
  have hpos : 0 < (assignment eq p).count amp := List.count_pos_iff.mpr hmem
  have hle : (assignment eq p).count amp ≤ ((ps.map (assignment eq)).map (List.count amp)).sum :=
    List.le_sum_of_mem (List.mem_map.mpr ⟨_, List.mem_map.mpr ⟨p, hp, rfl⟩, rfl⟩)
  omega

omit [DecidableEq α]

theorem dropLast_flatMap (amp eq : α) (ps : List (List α × List α)) :
    (ps.flatMap fun p => assignment eq p ++ [amp]).dropLast = joined amp eq ps := by
  unfold joined
  induction ps with
  | nil => rfl
  | cons p ps ih =>
    cases ps with
    | nil => simp
    | cons q ps =>
      have hnext : ((q :: ps).flatMap fun p => assignment eq p ++ [amp]) ≠ [] := by
        simp [assignment]
      rw [List.flatMap_cons, List.dropLast_append_of_ne_nil hnext, ih]
      simp only [List.map_cons, List.intercalate_cons_cons, List.append_assoc]

theorem map_joined {β : Type v} (f : α → β) (amp eq : α) (ps : List (List α × List α)) :
    (joined amp eq ps).map f = joined (f amp) (f eq)
    (ps.map (Prod.map (List.map f) (List.map f))) := by
  rw [← dropLast_flatMap, ← dropLast_flatMap, List.map_dropLast, List.map_flatMap, List.flatMap_map]
  simp [assignment]

-- Names that are the same in another order

variable {β : Type v} {γ : Type w} {f : β → β} {m : β → Nat} {ks : List β}

theorem measure_eq_of_perm (hperm : (ks.map f).Perm ks) (hle : ∀ k ∈ ks, m (f k) ≤ m k) :
    ∀ k ∈ ks, m (f k) = m k := by
  intro k hk
  by_contra hne
  have hlt : (ks.map fun k => m (f k)).sum < (ks.map m).sum :=
    List.sum_lt_sum _ _ hle ⟨k, hk, Nat.lt_of_le_of_ne (hle k hk) hne⟩
  have hsum := (hperm.map m).sum_eq
  rw [List.map_map] at hsum
  exact absurd hsum (Nat.ne_of_lt hlt)

theorem eq_of_perm {as bs : List (β × γ)} (hperm : as.Perm bs)
    (hkeys : as.map Prod.fst = bs.map Prod.fst)
    (hnodup : (bs.map Prod.fst).Nodup) : as = bs := by
  induction bs generalizing as with
  | nil => exact List.perm_nil.mp hperm
  | cons b bs ih =>
    cases as with
    | nil => cases hkeys
    | cons a as =>
      rw [List.map_cons, List.map_cons] at hkeys
      have hfst := (List.cons.inj hkeys).1
      rw [List.map_cons, List.nodup_cons] at hnodup
      have hab : a = b := by
        obtain hab | hlater := List.mem_cons.mp (hperm.subset List.mem_cons_self)
        · exact hab
        · exact absurd (List.mem_map.mpr ⟨a, hlater, hfst⟩) hnodup.1
      subst hab
      rw [ih ((List.perm_cons a).mp hperm) (List.cons.inj hkeys).2 hnodup.2]

end Fields
