import Mathlib.Data.List.Basic

/-!
# Regular expressions with groups

Matching as backtracking engines do it: the configurations an expression leads to
are listed in the order in which they are tried, so that repetitions and options
are greedy, and the first one is the match. A search takes the leftmost place
with a match. Repetitions are those of one class of elements.
-/

inductive Regex (α : Type u) where
  | empty
  | start
  | sat (p : α → Bool)
  | star (p : α → Bool)
  | opt (r : Regex α)
  | seq (r t : Regex α)
  | alt (r t : Regex α)
  | group (i : Nat) (r : Regex α)

namespace Regex

variable {α : Type u}

/-- A place in the text, what follows it, and the groups that have been matched
with their ends, the last one first. -/
structure Config (α : Type u) where
  pos : Nat
  rest : List α
  groups : List (Nat × Nat × Nat)

@[simp] def runStar (p : α → Bool) (groups : List (Nat × Nat × Nat)) :
    Nat → List α → List (Config α)
  | pos, [] => [⟨pos, [], groups⟩]
  | pos, x :: rest =>
    if p x then runStar p groups (pos + 1) rest ++ [⟨pos, x :: rest, groups⟩]
    else [⟨pos, x :: rest, groups⟩]

@[simp] def run : Regex α → Config α → List (Config α)
  | empty, c => [c]
  | start, c => if c.pos = 0 then [c] else []
  | sat p, c =>
    match c.rest with
    | [] => []
    | x :: rest => if p x then [⟨c.pos + 1, rest, c.groups⟩] else []
  | star p, c => runStar p c.groups c.pos c.rest
  | opt r, c => r.run c ++ [c]
  | seq r t, c => (r.run c).flatMap t.run
  | alt r t, c => r.run c ++ t.run c
  | group i r, c => (r.run c).map fun c' => { c' with groups := (i, c.pos, c'.pos) :: c'.groups }

@[simp] def findFrom (r : Regex α) : Nat → List α → Option (Nat × Config α)
  | pos, [] => (r.run ⟨pos, [], []⟩).head?.map (pos, ·)
  | pos, x :: rest =>
    match (r.run ⟨pos, x :: rest, []⟩).head? with
    | some c => some (pos, c)
    | none => findFrom r (pos + 1) rest

/-- The place of the first match, and the configuration at its end. -/
def find (r : Regex α) (s : List α) : Option (Nat × Config α) := findFrom r 0 s

@[simp] def sats : List (α → Bool) → Regex α
  | [] => empty
  | p :: ps => seq (sat p) (sats ps)

def text [DecidableEq α] (w : List α) : Regex α := sats (w.map fun x y => decide (y = x))

variable {r t : Regex α} {c c' c'' : Config α}

-- The first configuration

def Leads (r : Regex α) (c c' : Config α) : Prop := (r.run c).head? = some c'

def Fails (r : Regex α) (c : Config α) : Prop := r.run c = []

theorem Fails.not_leads (h : Fails r c) : ¬ Leads r c c' := by
  rw [Leads, show r.run c = [] from h, List.head?_nil]
  exact nofun

theorem Leads.seq (hr : Leads r c c') (ht : Leads t c' c'') : Leads (.seq r t) c c'' := by
  obtain ⟨cs, hcs⟩ := List.head?_eq_some_iff.mp hr
  rw [Leads, run, hcs, List.flatMap_cons, List.head?_append, ht, Option.some_or]

theorem Fails.seq (hr : Fails r c) : Fails (.seq r t) c := by
  rw [Fails, run, hr, List.flatMap_nil]

theorem fails_seq_of_forall (h : ∀ c' ∈ r.run c, Fails t c') : Fails (.seq r t) c :=
  List.flatMap_eq_nil_iff.mpr h

theorem Leads.opt (hr : Leads r c c') : Leads (.opt r) c c' := by
  rw [Leads, run, List.head?_append, hr, Option.some_or]

theorem Fails.opt (hr : Fails r c) : Leads (.opt r) c c := by
  rw [Leads, run, hr, List.nil_append, List.head?_cons]

theorem Leads.alt (hr : Leads r c c') : Leads (.alt r t) c c' := by
  rw [Leads, run, List.head?_append, hr, Option.some_or]

theorem Fails.alt_right (hr : Fails r c) (ht : Leads t c c') : Leads (.alt r t) c c' := by
  rw [Leads, run, hr, List.nil_append]
  exact ht

theorem Fails.alt (hr : Fails r c) (ht : Fails t c) : Fails (.alt r t) c := by
  rw [Fails, run, hr, ht, List.nil_append]

theorem Leads.group (hr : Leads r c c') :
    Leads (.group i r) c { c' with groups := (i, c.pos, c'.pos) :: c'.groups } := by
  rw [Leads, run, List.head?_map, hr, Option.map_some]

theorem Fails.group (hr : Fails r c) : Fails (.group i r) c := by
  rw [Fails, run, hr, List.map_nil]

theorem leads_start : Leads (.start : Regex α) ⟨0, s, groups⟩ ⟨0, s, groups⟩ := rfl

theorem fails_start (hpos : pos ≠ 0) : Fails (.start : Regex α) ⟨pos, s, groups⟩ := by
  rw [Fails, run, if_neg hpos]

-- Elements

def startsWith : List (α → Bool) → List α → Bool
  | [], _ => true
  | _ :: _, [] => false
  | p :: ps, x :: rest => p x && startsWith ps rest

theorem length_le_of_startsWith {ps : List (α → Bool)} {s : List α} (h : startsWith ps s = true) :
    ps.length ≤ s.length := by
  induction ps generalizing s with
  | nil => exact Nat.zero_le _
  | cons p ps ih =>
    cases s with
    | nil => cases h
    | cons x s =>
      rw [startsWith, Bool.and_eq_true] at h
      exact Nat.succ_le_succ (ih h.2)

theorem run_sats (ps : List (α → Bool)) (pos : Nat) (rest : List α)
    (groups : List (Nat × Nat × Nat)) :
    (sats ps).run ⟨pos, rest, groups⟩ =
      if startsWith ps rest then [⟨pos + ps.length, rest.drop ps.length, groups⟩] else [] := by
  induction ps generalizing pos rest with
  | nil => rfl
  | cons p ps ih =>
    cases rest with
    | nil => rfl
    | cons x rest =>
      have hlength : pos + (p :: ps).length = pos + 1 + ps.length := by
        rw [List.length_cons, Nat.add_right_comm, Nat.add_assoc]
      rw [sats, run, run, startsWith, hlength, List.length_cons, List.drop_succ_cons]
      cases hx : p x with
      | false => simp [hx]
      | true => simpa [hx] using ih (pos + 1) rest

theorem leads_sats (h : startsWith ps rest = true) :
    Leads (sats ps) ⟨pos, rest, groups⟩ ⟨pos + ps.length, rest.drop ps.length, groups⟩ := by
  rw [Leads, run_sats, if_pos h, List.head?_cons]

theorem fails_sats (h : startsWith ps rest = false) : Fails (sats ps) ⟨pos, rest, groups⟩ := by
  rw [Fails, run_sats, if_neg (by simp [h])]

theorem leads_sat {x : α} (hx : p x = true) :
    Leads (.sat p) ⟨pos, x :: rest, groups⟩ ⟨pos + 1, rest, groups⟩ := by
  rw [Leads, run]
  simp [hx]

theorem fails_sat {rest : List α} (h : ∀ x ∈ rest.head?, p x = false) :
    Fails (.sat p) ⟨pos, rest, groups⟩ := by
  cases rest with
  | nil => rfl
  | cons x rest =>
    rw [Fails, run]
    simp [h x rfl]

section
variable [DecidableEq α] {w : List α}

theorem startsWith_text (w rest : List α) :
    startsWith (w.map fun x y => decide (y = x)) rest = decide (w <+: rest) := by
  induction w generalizing rest with
  | nil => simp [startsWith]
  | cons x w ih =>
    cases rest with
    | nil => simp [startsWith]
    | cons y rest =>
      rw [List.map_cons, startsWith, ih]
      simp [List.cons_prefix_cons, eq_comm]

theorem leads_text (w rest : List α) :
    Leads (text w) ⟨pos, w ++ rest, groups⟩ ⟨pos + w.length, rest, groups⟩ := by
  have hstarts : startsWith (w.map fun x y => decide (y = x)) (w ++ rest) = true := by
    rw [startsWith_text]
    exact decide_eq_true (List.prefix_append w rest)
  have hleads : Leads (text w) ⟨pos, w ++ rest, groups⟩ _ := leads_sats hstarts
  rw [List.length_map, List.drop_left] at hleads
  exact hleads

theorem mem_run_text (h : c ∈ (text w).run ⟨pos, rest, groups⟩) :
    ∃ y, rest = w ++ y ∧ c = ⟨pos + w.length, y, groups⟩ := by
  rw [text, run_sats, startsWith_text, List.length_map] at h
  by_cases hw : w <+: rest
  · obtain ⟨y, rfl⟩ := hw
    rw [if_pos (decide_eq_true (List.prefix_append w y)), List.drop_left] at h
    exact ⟨y, rfl, List.mem_singleton.mp h⟩
  · rw [if_neg (by simp [hw])] at h
    cases h

theorem fails_text (h : ¬ w <+: rest) : Fails (text w) ⟨pos, rest, groups⟩ := by
  refine fails_sats ?_
  rw [startsWith_text]
  exact decide_eq_false h

end

-- Repetitions

/-- Every end of a repetition but the shortest is behind its start. -/
theorem runStar_eq (p : α → Bool) (groups : List (Nat × Nat × Nat)) (pos : Nat) (rest : List α) :
    ∃ longer, runStar p groups pos rest = longer ++ [⟨pos, rest, groups⟩] ∧
      ∀ c ∈ longer, ∃ v w, rest = v ++ w ∧ v ≠ [] ∧ c = ⟨pos + v.length, w, groups⟩ := by
  induction rest generalizing pos with
  | nil => exact ⟨[], rfl, nofun⟩
  | cons x rest ih =>
    rw [runStar]
    split
    · obtain ⟨longer, hlonger, hmem⟩ := ih (pos + 1)
      refine ⟨runStar p groups (pos + 1) rest, rfl, fun c hc => ?_⟩
      rw [hlonger] at hc
      rcases List.mem_append.mp hc with hc | hc
      · obtain ⟨v, w, rfl, -, rfl⟩ := hmem c hc
        refine ⟨x :: v, w, rfl, List.cons_ne_nil x v, ?_⟩
        rw [List.length_cons, Nat.add_right_comm, Nat.add_assoc]
      · rw [List.mem_singleton.mp hc]
        exact ⟨[x], rest, rfl, List.cons_ne_nil x [], rfl⟩
    · exact ⟨[], rfl, nofun⟩

theorem mem_run_star (h : c ∈ (Regex.star p).run ⟨pos, rest, groups⟩) :
    ∃ v w, rest = v ++ w ∧ c = ⟨pos + v.length, w, groups⟩ := by
  obtain ⟨longer, hlonger, hmem⟩ := runStar_eq p groups pos rest
  rw [run, hlonger] at h
  rcases List.mem_append.mp h with h | h
  · obtain ⟨v, w, hrest, -, hc⟩ := hmem c h
    exact ⟨v, w, hrest, hc⟩
  · exact ⟨[], rest, rfl, List.mem_singleton.mp h⟩

theorem head?_flatMap_runStar {β : Type v} (f : Config α → List β) {u rest : List α} {y : β}
    (hu : ∀ x ∈ u, p x = true)
    (hlater : ∀ v w, rest = v ++ w → v ≠ [] → f ⟨pos + u.length + v.length, w, groups⟩ = [])
    (hf : (f ⟨pos + u.length, rest, groups⟩).head? = some y) :
    ((runStar p groups pos (u ++ rest)).flatMap f).head? = some y := by
  induction u generalizing pos with
  | nil =>
    obtain ⟨longer, hlonger, hmem⟩ := runStar_eq p groups pos rest
    have hnil : longer.flatMap f = [] := by
      refine List.flatMap_eq_nil_iff.mpr fun c' hc' => ?_
      obtain ⟨v, w, hrest, hv, rfl⟩ := hmem c' hc'
      exact hlater v w hrest hv
    rw [List.nil_append, hlonger, List.flatMap_append, hnil, List.nil_append,
      List.flatMap_singleton]
    exact hf
  | cons x u ih =>
    have hlength : pos + (x :: u).length = pos + 1 + u.length := by
      rw [List.length_cons, Nat.add_right_comm, Nat.add_assoc]
    rw [List.cons_append, runStar, if_pos (hu x List.mem_cons_self), List.flatMap_append,
      List.head?_append]
    rw [hlength] at hlater hf
    rw [ih (fun y hy => hu y (List.mem_cons_of_mem x hy)) hlater hf, Option.some_or]

theorem leads_star_seq {u rest : List α} (hu : ∀ x ∈ u, p x = true)
    (hlater : ∀ v w, rest = v ++ w → v ≠ [] → Fails t ⟨pos + u.length + v.length, w, groups⟩)
    (ht : Leads t ⟨pos + u.length, rest, groups⟩ c) :
    Leads (.seq (.star p) t) ⟨pos, u ++ rest, groups⟩ c :=
  head?_flatMap_runStar t.run hu hlater ht

theorem leads_group_star_seq {u rest : List α} (hu : ∀ x ∈ u, p x = true)
    (hlater : ∀ v w groups, rest = v ++ w → v ≠ [] → Fails t ⟨pos + u.length + v.length, w, groups⟩)
    (ht : Leads t ⟨pos + u.length, rest, (i, pos, pos + u.length) :: groups⟩ c) :
    Leads (.seq (.group i (.star p)) t) ⟨pos, u ++ rest, groups⟩ c := by
  rw [Leads, run, run, run, List.flatMap_map]
  exact head?_flatMap_runStar _ hu (fun v w hrest hv => hlater v w _ hrest hv) ht

theorem leads_star {u : List α} (hu : ∀ x ∈ u, p x = true) (hrest : ∀ x ∈ rest.head?, p x = false) :
    Leads (.star p) ⟨pos, u ++ rest, groups⟩ ⟨pos + u.length, rest, groups⟩ := by
  rw [Leads, run]
  induction u generalizing pos with
  | nil =>
    cases rest with
    | nil => rfl
    | cons x rest =>
      rw [List.nil_append, runStar, if_neg (by simp [hrest x rfl])]
      rfl
  | cons x u ih =>
    rw [List.cons_append, runStar, if_pos (hu x List.mem_cons_self), List.head?_append,
      ih fun y hy => hu y (List.mem_cons_of_mem x hy), Option.some_or, List.length_cons,
      Nat.add_right_comm, Nat.add_assoc]

theorem leads_star_takeWhile (p : α → Bool) (s : List α) :
    Leads (.star p) ⟨pos, s, groups⟩ ⟨pos + (s.takeWhile p).length, s.dropWhile p, groups⟩ := by
  have hleads : Leads (.star p) ⟨pos, s.takeWhile p ++ s.dropWhile p, groups⟩ _ :=
    leads_star (List.all_eq_true.mp List.all_takeWhile) fun x hx => by
      have hnot := List.head?_dropWhile_not p s
      rw [Option.mem_def.mp hx] at hnot
      simpa using hnot
  rwa [List.takeWhile_append_dropWhile] at hleads

def dropOne (p : α → Bool) : List α → List α
  | [] => []
  | x :: rest => if p x then rest else x :: rest

theorem dropOne_eq_self_iff {s : List α} : dropOne p s = s ↔ ∀ x ∈ s.head?, p x = false := by
  cases s with
  | nil => simp [dropOne]
  | cons x s => cases hx : p x <;> simp [dropOne, hx]

theorem exists_dropOne (p : α → Bool) (s : List α) : ∃ taken, s = taken ++ dropOne p s ∧
    ∀ pos groups, Leads (.opt (.sat p)) ⟨pos, s, groups⟩
      ⟨pos + taken.length, dropOne p s, groups⟩ := by
  cases s with
  | nil => exact ⟨[], rfl, fun _ _ => rfl⟩
  | cons x s =>
    cases hx : p x with
    | true =>
      refine ⟨[x], by simp [dropOne, hx], fun pos groups => ?_⟩
      rw [dropOne, hx, if_pos rfl]
      exact (leads_sat hx).opt
    | false =>
      refine ⟨[], by simp [dropOne, hx], fun pos groups => ?_⟩
      rw [dropOne, hx, if_neg Bool.false_ne_true]
      exact (fails_sat fun y hy => Option.some.inj hy ▸ hx).opt

-- The last place

structure IsLast (P : List α → Prop) (w : List α) : Prop where
  holds : P w
  later : ∀ v w', w = v ++ w' → v ≠ [] → ¬ P w'

theorem exists_isLast (P : List α → Prop) (s : List α) :
    (∀ v w, s = v ++ w → ¬ P w) ∨ ∃ v w, s = v ++ w ∧ IsLast P w := by
  induction s with
  | nil =>
    by_cases hP : P []
    · refine .inr ⟨[], [], rfl, hP, fun v w hnil hv => absurd ?_ hv⟩
      exact (List.append_eq_nil_iff.mp hnil.symm).1
    · refine .inl fun v w hnil => ?_
      rwa [(List.append_eq_nil_iff.mp hnil.symm).2]
  | cons x s ih =>
    obtain hnone | ⟨v, w, rfl, hlast⟩ := ih
    · have hrest : ∀ v w, x :: s = v ++ w → v ≠ [] → ¬ P w := by
        intro v w hs hv
        obtain ⟨y, v, rfl⟩ := List.exists_cons_of_ne_nil hv
        exact hnone v w (List.cons.inj hs).2
      by_cases hP : P (x :: s)
      · exact .inr ⟨[], x :: s, rfl, hP, hrest⟩
      · refine .inl fun v w hs => ?_
        cases v with
        | nil => exact (List.nil_append w ▸ hs) ▸ hP
        | cons y v => exact hrest (y :: v) w hs (List.cons_ne_nil y v)
    · exact .inr ⟨x :: v, w, rfl, hlast⟩

-- Searches

theorem find_of_leads (h : Leads r ⟨0, s, []⟩ c) : find r s = some (0, c) := by
  rw [Leads] at h
  cases s with
  | nil => rw [find, findFrom, h, Option.map_some]
  | cons x s => rw [find, findFrom, h]

theorem findFrom_eq_none (h : ∀ v w, s = v ++ w → Fails r ⟨pos + v.length, w, []⟩) :
    findFrom r pos s = none := by
  induction s generalizing pos with
  | nil =>
    rw [findFrom, show r.run ⟨pos, [], []⟩ = [] from h [] [] rfl]
    rfl
  | cons x s ih =>
    rw [findFrom, show r.run ⟨pos, x :: s, []⟩ = [] from h [] (x :: s) rfl]
    refine ih fun v w hs => ?_
    have hfails := h (x :: v) w (by rw [hs, List.cons_append])
    rw [List.length_cons, ← Nat.add_assoc, Nat.add_right_comm] at hfails
    exact hfails

theorem find_eq_none (h : ∀ v w, s = v ++ w → Fails r ⟨v.length, w, []⟩) : find r s = none :=
  findFrom_eq_none fun v w hs => (Nat.zero_add v.length).symm ▸ h v w hs

theorem findFrom_eq_some (h : findFrom r pos s = some (n, c)) :
    ∃ u w, s = u ++ w ∧ n = pos + u.length ∧ Leads r ⟨n, w, []⟩ c := by
  induction s generalizing pos with
  | nil =>
    obtain ⟨c', hc', heq⟩ := Option.map_eq_some_iff.mp h
    cases heq
    exact ⟨[], [], rfl, rfl, hc'⟩
  | cons x s ih =>
    rw [findFrom] at h
    split at h
    · next c' hc' =>
      cases h
      exact ⟨[], x :: s, rfl, rfl, hc'⟩
    · obtain ⟨u, w, rfl, rfl, hleads⟩ := ih h
      refine ⟨x :: u, w, rfl, ?_, hleads⟩
      rw [List.length_cons, Nat.add_right_comm, Nat.add_assoc]

theorem find_eq_some (h : find r s = some (n, c)) :
    ∃ u w, s = u ++ w ∧ n = u.length ∧ Leads r ⟨n, w, []⟩ c := by
  obtain ⟨u, w, hs, hn, hleads⟩ := findFrom_eq_some h
  exact ⟨u, w, hs, hn.trans (Nat.zero_add _), hleads⟩

theorem findFrom_isSome {v w : List α} (h : Leads r ⟨pos + v.length, w, []⟩ c) :
    (findFrom r pos (v ++ w)).isSome := by
  induction v generalizing pos with
  | nil =>
    have hhead : (r.run ⟨pos, w, []⟩).head? = some c := h
    cases w <;> simp [hhead]
  | cons x v ih =>
    rw [List.cons_append, findFrom]
    split
    · rfl
    · refine ih ?_
      rwa [List.length_cons, ← Nat.add_assoc, Nat.add_right_comm] at h

theorem find_isSome {v w : List α} (h : Leads r ⟨v.length, w, []⟩ c) : (find r (v ++ w)).isSome :=
  findFrom_isSome (by rwa [Nat.zero_add])

theorem pos_of_find (hfails : Fails r ⟨0, s, []⟩) (h : find r s = some (n, c)) : 0 < n := by
  obtain ⟨u, w, rfl, rfl, hleads⟩ := find_eq_some h
  cases u with
  | nil => exact absurd hleads hfails.not_leads
  | cons x u => exact Nat.succ_pos _

end Regex
