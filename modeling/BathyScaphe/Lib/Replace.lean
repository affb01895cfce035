import Mathlib.Data.List.Infix

/-!
# Replacing the occurrences of a pattern

A pattern is one test for each element of an occurrence. The occurrences are taken from
the left and do not overlap. Text behind a list does not change the occurrences in it,
it only adds some.
-/

namespace Replace

variable {α : Type u}

abbrev Pattern (α : Type u) := List (α → Bool)

def begins : Pattern α → List α → Bool
  | [], _ => true
  | _ :: _, [] => false
  | q :: p, c :: t => q c && begins p t

/-- An occurrence of the pattern begins here. An empty pattern has none. -/
def occurs (p : Pattern α) (t : List α) : Bool := !p.isEmpty && begins p t

def find (p : Pattern α) (s : List α) : Option Nat := s.tails.findIdx? (occurs p)

section
variable (p : Pattern α) (new : List α)

/-- `skip` counts the elements of an occurrence that are still to be passed. -/
def replaceFrom : Nat → List α → List α
  | _, [] => []
  | skip + 1, _ :: s => replaceFrom skip s
  | 0, c :: s => if occurs p (c :: s) then new ++ replaceFrom (p.length - 1) s
      else c :: replaceFrom 0 s

def replaceAll (s : List α) : List α := replaceFrom p new 0 s

def occurrencesFrom : Nat → List α → List (List α)
  | _, [] => []
  | skip + 1, _ :: s => occurrencesFrom skip s
  | 0, c :: s =>
    if occurs p (c :: s) then (c :: s).take p.length :: occurrencesFrom (p.length - 1) s
    else occurrencesFrom 0 s

def occurrences (s : List α) : List (List α) := occurrencesFrom p 0 s

/-- No occurrence begins in `u`, which `t` follows. -/
def NoneBefore (u t : List α) : Prop := ∀ i < u.length, occurs p ((u ++ t).drop i) = false

end

variable {p : Pattern α} {new s t u m v : List α} {c : α}

-- Occurrences

theorem begins_length (h : begins p t = true) : p.length ≤ t.length := by
  induction p generalizing t with
  | nil => exact Nat.zero_le _
  | cons q p ih =>
    cases t with
    | nil => cases h
    | cons c t =>
      rw [begins, Bool.and_eq_true] at h
      exact Nat.succ_le_succ (ih h.2)

theorem occurs_length (h : occurs p t = true) : 0 < p.length ∧ p.length ≤ t.length := by
  rw [occurs, Bool.and_eq_true, Bool.not_eq_true', List.isEmpty_eq_false_iff] at h
  exact ⟨List.length_pos_iff.mpr h.1, begins_length h.2⟩

theorem begins_append (h : p.length ≤ t.length) (w : List α) : begins p (t ++ w) = begins p t := by
  induction p generalizing t with
  | nil => rw [begins, begins]
  | cons q p ih =>
    cases t with
    | nil => cases h
    | cons c t => rw [List.cons_append, begins, begins, ih (Nat.le_of_succ_le_succ h)]

theorem occurs_append (h : p.length ≤ t.length) (w : List α) : occurs p (t ++ w) = occurs p t := by
  rw [occurs, occurs, begins_append h]

theorem noneBefore_nil : NoneBefore p [] t := fun i hi => absurd hi (Nat.not_lt_zero i)

theorem noneBefore_cons :
    NoneBefore p (c :: u) t ↔ occurs p (c :: (u ++ t)) = false ∧ NoneBefore p u t := by
  constructor
  · exact fun h => ⟨h 0 (Nat.succ_pos _), fun i hi => h (i + 1) (Nat.succ_lt_succ hi)⟩
  · rintro ⟨hhere, hlater⟩ i hi
    cases i with
    | zero => exact hhere
    | succ i => exact hlater i (Nat.lt_of_succ_lt_succ hi)

/-- What stands behind an occurrence does not decide whether it is the first. -/
theorem NoneBefore.append (h : NoneBefore p u (m ++ v)) (hm : m.length = p.length) (w : List α) :
    NoneBefore p u (m ++ (v ++ w)) := by
  induction u with
  | nil => exact noneBefore_nil
  | cons c u ih =>
    obtain ⟨hhere, hlater⟩ := noneBefore_cons.mp h
    refine noneBefore_cons.mpr ⟨?_, ih hlater⟩
    have hlength : p.length ≤ (c :: (u ++ (m ++ v))).length := by
      rw [List.length_cons, List.length_append, List.length_append]
      omega
    rw [← hhere, ← occurs_append hlength w]
    simp only [List.cons_append, List.append_assoc]

theorem find_eq_none (h : find p s = none) : NoneBefore p s [] := by
  intro i hi
  rw [List.append_nil]
  exact List.findIdx?_eq_none_iff.mp h _ ((List.mem_tails _ _).mpr (List.drop_suffix i s))

/-- The text before the first occurrence, the occurrence and the text behind it. -/
theorem find_eq_some {i : Nat} (h : find p s = some i) :
    ∃ u m v, s = u ++ (m ++ v) ∧ u.length = i ∧ m.length = p.length ∧ occurs p (m ++ v) = true ∧
      NoneBefore p u (m ++ v) := by
  obtain ⟨hlt, hhere, hbefore⟩ := List.findIdx?_eq_some_iff_getElem.mp h
  rw [List.getElem_tails] at hhere
  have hle : i ≤ s.length := by
    rw [List.length_tails] at hlt
    exact Nat.le_of_lt_succ hlt
  have hlength : (s.take i).length = i := List.length_take_of_le hle
  refine ⟨s.take i, (s.drop i).take p.length, (s.drop i).drop p.length, ?_, hlength, ?_, ?_, ?_⟩
  · rw [List.take_append_drop, List.take_append_drop]
  · exact List.length_take_of_le (occurs_length hhere).2
  · rw [List.take_append_drop]
    exact hhere
  · intro j hj
    rw [hlength] at hj
    have hnot := hbefore j hj
    rw [List.getElem_tails, Bool.not_eq_true] at hnot
    rw [List.take_append_drop, List.take_append_drop]
    exact hnot

theorem find_of_noneBefore (h : NoneBefore p s []) : find p s = none := by
  cases hfind : find p s with
  | none => rfl
  | some i =>
    obtain ⟨u, m, v, rfl, -, hm, hoccurs, -⟩ := find_eq_some hfind
    have hpos := occurs_length hoccurs
    have hlt : u.length < (u ++ (m ++ v)).length := by
      rw [List.length_append]
      omega
    have hnot := h u.length hlt
    rw [List.append_nil, List.drop_left, hoccurs] at hnot
    cases hnot

theorem find_of_first (hoccurs : occurs p t = true) (hbefore : NoneBefore p u t) :
    find p (u ++ t) = some u.length := by
  rw [find, List.findIdx?_eq_some_iff_getElem]
  have hlt : u.length < (u ++ t).tails.length := by
    rw [List.length_tails, List.length_append]
    omega
  refine ⟨hlt, ?_, fun j hj => ?_⟩
  · rwa [List.getElem_tails, List.drop_left]
  · rw [List.getElem_tails, Bool.not_eq_true]
    exact hbefore j hj

@[elab_as_elim] theorem induction {motive : List α → Prop} (p : Pattern α)
    (hnone : ∀ s, NoneBefore p s [] → motive s)
    (hfirst : ∀ u m v, m.length = p.length → occurs p (m ++ v) = true →
      NoneBefore p u (m ++ v) → motive v →
      motive (u ++ (m ++ v))) (s : List α) : motive s := by
  induction hn : s.length using Nat.strong_induction_on generalizing s with
  | _ n ih =>
    subst hn
    cases h : find p s with
    | none => exact hnone s (find_eq_none h)
    | some i =>
      obtain ⟨u, m, v, rfl, -, hm, hoccurs, hbefore⟩ := find_eq_some h
      apply hfirst u m v hm hoccurs hbefore
      apply ih v.length _ v rfl
      have hpos := (occurs_length hoccurs).1
      rw [List.length_append, List.length_append]
      omega

-- From one occurrence to the next

theorem replaceFrom_length (m v : List α) : replaceFrom p new m.length
    (m ++ v) = replaceAll p new v := by
  induction m with
  | nil => rfl
  | cons c m ih => rw [List.length_cons, List.cons_append, replaceFrom, ih]

theorem occurrencesFrom_length (m v : List α) : occurrencesFrom p m.length
    (m ++ v) = occurrences p v := by
  induction m with
  | nil => rfl
  | cons c m ih => rw [List.length_cons, List.cons_append, occurrencesFrom, ih]

theorem replaceAll_of_noneBefore (h : NoneBefore p s []) : replaceAll p new s = s := by
  induction s with
  | nil => rfl
  | cons c s ih =>
    obtain ⟨hhere, hlater⟩ := noneBefore_cons.mp h
    rw [List.append_nil] at hhere
    rw [replaceAll, replaceFrom, hhere, if_neg Bool.false_ne_true]
    exact congrArg (c :: ·) (ih hlater)

theorem occurrences_of_noneBefore (h : NoneBefore p s []) : occurrences p s = [] := by
  induction s with
  | nil => rfl
  | cons c s ih =>
    obtain ⟨hhere, hlater⟩ := noneBefore_cons.mp h
    rw [List.append_nil] at hhere
    rw [occurrences, occurrencesFrom, hhere, if_neg Bool.false_ne_true]
    exact ih hlater

theorem replaceAll_first (hm : m.length = p.length) (hoccurs : occurs p (m ++ v) = true)
    (hbefore : NoneBefore p u (m ++ v)) : replaceAll p new (u ++ (m ++ v)) =
      u ++ (new ++ replaceAll p new v) := by
  induction u with
  | nil =>
    have hpos := (occurs_length hoccurs).1
    cases m with
    | nil => exact absurd hm (Nat.ne_of_lt hpos)
    | cons c m =>
      rw [List.cons_append] at hoccurs
      have hlength : p.length - 1 = m.length := by
        rw [← hm, List.length_cons, Nat.add_sub_cancel]
      rw [List.nil_append, List.cons_append, replaceAll, replaceFrom, hoccurs, if_pos rfl, hlength,
        replaceFrom_length]
      rfl
  | cons c u ih =>
    obtain ⟨hhere, hlater⟩ := noneBefore_cons.mp hbefore
    rw [List.cons_append, replaceAll, replaceFrom, hhere, if_neg Bool.false_ne_true]
    exact congrArg (c :: ·) (ih hlater)

theorem occurrences_first (hm : m.length = p.length) (hoccurs : occurs p (m ++ v) = true)
    (hbefore : NoneBefore p u (m ++ v)) : occurrences p (u ++ (m ++ v)) = m :: occurrences p v := by
  induction u with
  | nil =>
    have hpos := (occurs_length hoccurs).1
    have htake : (m ++ v).take p.length = m := by
      rw [← hm]
      exact List.take_left
    cases m with
    | nil => exact absurd hm (Nat.ne_of_lt hpos)
    | cons c m =>
      rw [List.cons_append] at hoccurs htake
      have hlength : p.length - 1 = m.length := by
        rw [← hm, List.length_cons, Nat.add_sub_cancel]
      rw [List.nil_append, List.cons_append, occurrences, occurrencesFrom, hoccurs, if_pos rfl,
        htake, hlength, occurrencesFrom_length]
  | cons c u ih =>
    obtain ⟨hhere, hlater⟩ := noneBefore_cons.mp hbefore
    rw [List.cons_append, occurrences, occurrencesFrom, hhere, if_neg Bool.false_ne_true]
    exact ih hlater

theorem first_append (hm : m.length = p.length) (hoccurs : occurs p (m ++ v) = true)
    (hbefore : NoneBefore p u (m ++ v)) (new w : List α) :
    replaceAll p new (u ++ (m ++ v) ++ w) = u ++ (new ++ replaceAll p new (v ++ w)) ∧
      occurrences p (u ++ (m ++ v) ++ w) = m :: occurrences p (v ++ w) := by
  have hoccurs' : occurs p (m ++ (v ++ w)) = true := by
    rwa [← List.append_assoc, occurs_append (occurs_length hoccurs).2]
  have hassoc : u ++ (m ++ v) ++ w = u ++ (m ++ (v ++ w)) := by
    simp only [List.append_assoc]
  rw [hassoc]
  exact ⟨replaceAll_first hm hoccurs' (hbefore.append hm w),
    occurrences_first hm hoccurs' (hbefore.append hm w)⟩

/-- Text behind a list leaves what is replaced in the list, and is read on from behind the
last occurrence there. -/
theorem exists_rest (p : Pattern α) (new s : List α) :
    ∃ front rest, replaceAll p new s = front ++ rest ∧
    ∀ w, replaceAll p new (s ++ w) = front ++ replaceAll p new (rest ++ w) ∧
      occurrences p (s ++ w) = occurrences p s ++ occurrences p (rest ++ w) := by
  induction s using Replace.induction p with
  | hnone s h =>
    refine ⟨[], s, replaceAll_of_noneBefore h, fun w => ⟨rfl, ?_⟩⟩
    rw [occurrences_of_noneBefore h, List.nil_append]
  | hfirst u m v hm hoccurs hbefore ih =>
    obtain ⟨front, rest, hall, hrest⟩ := ih
    refine ⟨u ++ (new ++ front), rest, ?_, fun w => ?_⟩
    · rw [replaceAll_first hm hoccurs hbefore, hall]
      simp only [List.append_assoc]
    · obtain ⟨hreplaced, hoccurrences⟩ := first_append hm hoccurs hbefore new w
      rw [hreplaced, hoccurrences, occurrences_first hm hoccurs hbefore, (hrest w).1, (hrest w).2]
      simp only [List.append_assoc, List.cons_append, and_self]

-- When nothing changes

theorem length_replaceAll (p : Pattern α) (new s : List α) :
    (replaceAll p new s).length + (occurrences p s).length * p.length =
      s.length + (occurrences p s).length * new.length := by
  induction s using Replace.induction p with
  | hnone s h =>
    rw [replaceAll_of_noneBefore h, occurrences_of_noneBefore h, List.length_nil,
      Nat.zero_mul, Nat.zero_mul]
  | hfirst u m v hm hoccurs hbefore ih =>
    rw [replaceAll_first hm hoccurs hbefore, occurrences_first hm hoccurs hbefore]
    simp only [List.length_append, List.length_cons, Nat.succ_mul]
    omega

/-- A list stays as it is if and only if every occurrence in it is the new text. -/
theorem replaceAll_eq_self_iff (p : Pattern α) (new s : List α) :
    replaceAll p new s = s ↔ ∀ m ∈ occurrences p s, m = new := by
  induction s using Replace.induction p with
  | hnone s h =>
    rw [replaceAll_of_noneBefore h, occurrences_of_noneBefore h]
    exact ⟨fun _ m hm => absurd hm List.not_mem_nil, fun _ => rfl⟩
  | hfirst u m v hm hoccurs hbefore ih =>
    rw [occurrences_first hm hoccurs hbefore, List.forall_mem_cons, ← ih]
    constructor
    · intro h
      have hlength := length_replaceAll p new (u ++ (m ++ v))
      rw [h, occurrences_first hm hoccurs hbefore, List.length_cons] at hlength
      have hnew : m.length = new.length :=
        hm.trans (Nat.eq_of_mul_eq_mul_left (Nat.succ_pos _) (Nat.add_left_cancel hlength))
      rw [replaceAll_first hm hoccurs hbefore] at h
      obtain ⟨heq, hrest⟩ := List.append_inj (List.append_cancel_left h) hnew.symm
      exact ⟨heq.symm, hrest⟩
    · rintro ⟨rfl, hrest⟩
      rw [replaceAll_first hm hoccurs hbefore, hrest]

end Replace
