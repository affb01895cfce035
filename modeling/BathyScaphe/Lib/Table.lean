import Mathlib.Data.List.Nodup

/-!
# Tables with a unique key

The rows of a table that a unique index covers: a key and the other columns.
The four statements read, add, change and delete rows; `find` says what each of
them leaves under a key.
-/

structure Table (κ : Type u) (ρ : Type v) where
  rows : List (κ × ρ)
  unique : (rows.map Prod.fst).Nodup

namespace Table

variable {κ : Type u} {ρ : Type v} [DecidableEq κ] {t t' : Table κ ρ} {k k' : κ} {r r' : ρ}

def empty : Table κ ρ := ⟨[], List.nodup_nil⟩

def find (t : Table κ ρ) (k : κ) : Option ρ := t.rows.lookup k

def insert (t : Table κ ρ) (k : κ) (r : ρ) : Option (Table κ ρ) :=
  if h : k ∈ t.rows.map Prod.fst then none
  else some ⟨t.rows ++ [(k, r)], by
    rw [List.map_append]
    refine List.nodup_append.mpr ⟨t.unique, List.nodup_singleton k, ?_⟩
    rintro a ha b hb rfl
    obtain rfl := List.mem_singleton.mp hb
    exact h ha⟩

def update (t : Table κ ρ) (p : κ → ρ → Bool) (f : ρ → ρ) : Table κ ρ :=
  ⟨t.rows.map fun (k, r) => (k, if p k r then f r else r), by
    rw [List.map_map]
    exact t.unique⟩

def delete (t : Table κ ρ) (p : κ → ρ → Bool) : Table κ ρ :=
  ⟨t.rows.filter fun (k, r) => !p k r, t.unique.sublist (List.filter_sublist.map Prod.fst)⟩

theorem find_eq_none : t.find k = none ↔ k ∉ t.rows.map Prod.fst := by
  simp only [find, List.lookup_eq_none_iff, List.mem_map, not_exists, not_and]
  constructor
  · intro h p hp hk
    have hne := h p hp
    simp [hk] at hne
  · intro h p hp
    simpa using fun hk => h p hp hk.symm

theorem find_eq_some : t.find k = some r ↔ (k, r) ∈ t.rows := by
  obtain ⟨rows, unique⟩ := t
  simp only [find]
  induction rows with
  | nil => simp
  | cons p rows ih =>
    obtain ⟨k', r'⟩ := p
    rw [List.map_cons, List.nodup_cons] at unique
    by_cases hk : k = k'
    · subst hk
      have hnot : (k, r) ∉ rows := fun h => unique.1 (List.mem_map.mpr ⟨_, h, rfl⟩)
      simp [hnot, eq_comm]
    · have hne : (k == k') = false := beq_false_of_ne hk
      simp [List.lookup_cons, hne, hk, ih unique.2]

@[simp] theorem find_empty : (empty : Table κ ρ).find k = none := rfl

/-- Tables with the same keys in the same order are told apart by what they find. -/
theorem eq_of_find (hkeys : t.rows.map Prod.fst = t'.rows.map Prod.fst)
    (h : ∀ k, t.find k = t'.find k) : t = t' := by
  obtain ⟨rows, unique⟩ := t
  obtain ⟨rows', unique'⟩ := t'
  have hrows : rows = rows' := by
    refine List.ext_getElem (by simpa using congrArg List.length hkeys) fun i hi hi' => ?_
    have hkey : rows[i].1 = rows'[i].1 := by
      have hkey := congrArg (fun keys => keys[i]?) hkeys
      simpa [hi, hi'] using hkey
    have hfind : (⟨rows, unique⟩ : Table κ ρ).find rows[i].1 = some rows[i].2 :=
      find_eq_some.mpr (List.getElem_mem hi)
    have hfind' : (⟨rows', unique'⟩ : Table κ ρ).find rows'[i].1 = some rows'[i].2 :=
      find_eq_some.mpr (List.getElem_mem hi')
    rw [h, hkey, hfind'] at hfind
    exact Prod.ext hkey (Option.some.inj hfind).symm
  subst hrows
  rfl

theorem insert_eq_none : t.insert k r = none ↔ (t.find k).isSome := by
  rw [insert, Option.isSome_iff_ne_none, ne_eq, find_eq_none]
  by_cases h : k ∈ t.rows.map Prod.fst <;> simp [h]

theorem find_insert (h : t.insert k r = some t') :
    t'.find k' = if k' = k then some r else t.find k' := by
  rw [insert] at h
  split at h
  · cases h
  · next hk =>
    cases h
    by_cases hkk : k' = k
    · subst hkk
      rw [if_pos rfl, find_eq_some]
      simp
    · rw [if_neg hkk]
      refine Option.ext fun r' => ?_
      rw [find_eq_some, find_eq_some]
      simp [hkk]

theorem insert_of_find_eq_none (h : t.find k = none) : ∃ t', t.insert k r = some t' := by
  cases hi : t.insert k r with
  | some t' => exact ⟨t', rfl⟩
  | none => simp [insert_eq_none, h] at hi

theorem find_update : (t.update p f).find k = (t.find k).map fun r => if p k r then f r else r := by
  obtain ⟨rows, unique⟩ := t
  simp only [find, update]
  clear unique
  induction rows with
  | nil => rfl
  | cons q rows ih =>
    obtain ⟨k', r⟩ := q
    by_cases hk : k = k'
    · subst hk
      simp
    · have hne : (k == k') = false := beq_false_of_ne hk
      simp [List.lookup_cons, hne, ih]

theorem find_delete : (t.delete p).find k = (t.find k).filter fun r => !p k r := by
  refine Option.ext fun r => ?_
  rw [find_eq_some]
  simp [delete, find_eq_some]

theorem find_update_key : (t.update (fun k' _ => k' == k) f).find k' =
    if k' = k then (t.find k').map f else t.find k' := by
  rw [find_update]
  by_cases hk : k' = k <;> simp [hk]

theorem find_delete_key : (t.delete (fun k' _ => k' == k)).find k' =
    if k' = k then none else t.find k' := by
  rw [find_delete]
  by_cases hk : k' = k <;> cases t.find k' <;> simp [hk]

theorem filter_eq_eraseIdx {rows : List (κ × ρ)} (hnodup : (rows.map Prod.fst).Nodup) {index : Nat}
    (h : rows[index]? = some (k, r)) : (rows.filter fun row => !(row.1 == k)) =
      rows.eraseIdx index := by
  induction rows generalizing index with
  | nil => cases h
  | cons row rows ih =>
    rw [List.map_cons, List.nodup_cons] at hnodup
    cases index with
    | zero =>
      obtain rfl := Option.some.inj h
      rw [List.filter_cons_of_neg (by simp), List.eraseIdx_cons_zero, List.filter_eq_self]
      intro row hrow
      have hne : row.1 ≠ k := fun heq => hnodup.1 (List.mem_map.mpr ⟨row, hrow, heq⟩)
      simpa using hne
    | succ index =>
      have hmem : (k, r) ∈ rows := List.mem_of_getElem? h
      have hne : row.1 ≠ k := fun heq => hnodup.1 (List.mem_map.mpr ⟨(k, r), hmem, heq.symm⟩)
      rw [List.filter_cons_of_pos (by simpa using hne), List.eraseIdx_cons_succ, ih hnodup.2 h]

theorem rows_delete_of_getElem? {index : Nat} (h : t.rows[index]? = some (k, r)) :
    (t.delete fun k' _ => k' == k).rows = t.rows.eraseIdx index :=
  filter_eq_eraseIdx t.unique h

end Table
