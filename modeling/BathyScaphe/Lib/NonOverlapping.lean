import Mathlib.Data.List.TakeWhile
import Mathlib.Data.List.Pairwise

/-!
# Matches that do not overlap

Places where something of the length `n` matches are taken from left to right, each behind the
end of the one before. The matches of a shorter range are the first ones of a longer range,
and behind a match the search goes on as it would begin there.
-/

namespace NonOverlapping

variable (hit : Nat → Bool) (n : Nat)

def scan : (skip len a : Nat) → List Nat
  | _, 0, _ => []
  | skip + 1, len + 1, a => scan skip len (a + 1)
  | 0, len + 1, a => if n ≤ len + 1 ∧ hit a then a :: scan (n - 1) len (a + 1)
      else scan 0 len (a + 1)

def matchesIn (a b : Nat) : List Nat := scan hit n 0 (b - a) a

variable {hit n} {a b m : Nat} {xs ys : List Nat}

theorem scan_skip (skip len a : Nat) : scan hit n skip len a = scan hit n 0 (len - skip)
    (a + skip) := by
  induction skip generalizing len a with
  | zero => rfl
  | succ skip ih =>
    cases len with
    | zero => simp [scan]
    | succ len =>
      rw [scan, ih, Nat.add_sub_add_right, Nat.add_assoc, Nat.add_comm 1]

theorem matchesIn_of_le (h : b ≤ a) : matchesIn hit n a b = [] := by
  rw [matchesIn, Nat.sub_eq_zero_of_le h, scan]

theorem matchesIn_of_hit (hn : 0 < n) (hfits : a + n ≤ b) (hhit : hit a = true) :
    matchesIn hit n a b = a :: matchesIn hit n (a + n) b := by
  obtain ⟨len, hlen⟩ : ∃ len, b - a = len + 1 :=
    Nat.exists_eq_add_of_lt (by omega : 0 < b - a) |>.imp fun _ h => by omega
  rw [matchesIn, hlen, scan, if_pos ⟨by omega, hhit⟩, scan_skip, matchesIn]
  congr 2 <;> omega

theorem matchesIn_of_miss (h : ¬ (a + n ≤ b ∧ hit a = true)) :
    matchesIn hit n a b = matchesIn hit n (a + 1) b := by
  by_cases hlt : a < b
  · obtain ⟨len, hlen⟩ : ∃ len, b - a = len + 1 := ⟨b - a - 1, by omega⟩
    rw [matchesIn, hlen, scan, if_neg, matchesIn]
    · congr 1
      omega
    · rintro ⟨hfits, hhit⟩
      exact h ⟨by omega, hhit⟩
  · rw [matchesIn_of_le (by omega), matchesIn_of_le (by omega)]

variable (hit) in
theorem induction (hn : 0 < n) (b : Nat) {motive : Nat → Prop} (hend : ∀ a, b ≤ a → motive a)
    (hhit : ∀ a, a + n ≤ b → hit a = true → motive (a + n) → motive a)
    (hmiss : ∀ a, a < b → ¬ (a + n ≤ b ∧ hit a = true) → motive (a + 1) → motive a) (a : Nat) :
    motive a := by
  induction hlen : b - a using Nat.strong_induction_on generalizing a with
  | _ len ih =>
    by_cases hlt : a < b
    · by_cases h : a + n ≤ b ∧ hit a = true
      · exact hhit a h.1 h.2 (ih _ (by omega) _ rfl)
      · exact hmiss a hlt h (ih _ (by omega) _ rfl)
    · exact hend a (by omega)

theorem of_mem_matchesIn (hn : 0 < n) (h : m ∈ matchesIn hit n a b) : a ≤ m ∧ m + n ≤ b := by
  induction a using induction hit hn b with
  | hend a ha =>
    rw [matchesIn_of_le ha] at h
    cases h
  | hhit a hfits hhit ih =>
    rw [matchesIn_of_hit hn hfits hhit, List.mem_cons] at h
    obtain rfl | h := h
    · exact ⟨Nat.le_refl _, hfits⟩
    · exact ⟨by have hle := (ih h).1; omega, (ih h).2⟩
  | hmiss a _ hno ih =>
    rw [matchesIn_of_miss hno] at h
    exact ⟨Nat.le_of_succ_le (ih h).1, (ih h).2⟩

theorem matchesIn_behind (hn : 0 < n) (h : matchesIn hit n a b = xs ++ m :: ys) :
    matchesIn hit n (m + n) b = ys := by
  induction a using induction hit hn b generalizing xs with
  | hend a ha =>
    rw [matchesIn_of_le ha] at h
    simp at h
  | hhit a hfits hhit ih =>
    rw [matchesIn_of_hit hn hfits hhit] at h
    cases xs with
    | nil =>
      rw [List.nil_append, List.cons.injEq] at h
      rw [← h.1, h.2]
    | cons x xs =>
      rw [List.cons_append, List.cons.injEq] at h
      exact ih h.2
  | hmiss a _ hno ih =>
    rw [matchesIn_of_miss hno] at h
    exact ih h

theorem matchesIn_behind_first (hn : 0 < n) (h : matchesIn hit n a b = m :: ys) :
    matchesIn hit n (m + n) b = ys := by
  apply matchesIn_behind hn
  rw [h, List.nil_append]

theorem le_of_split (hn : 0 < n) (h : matchesIn hit n a b = xs ++ m :: ys) :
    ∀ x ∈ ys, m + n ≤ x := by
  rw [← matchesIn_behind hn h]
  intro x hx
  exact (of_mem_matchesIn hn hx).1

theorem le_of_split_left (hn : 0 < n) (h : matchesIn hit n a b = xs ++ m :: ys) :
    ∀ x ∈ xs, x + n ≤ m := by
  intro x hx
  obtain ⟨front, back, rfl⟩ := List.append_of_mem hx
  rw [List.append_assoc, List.cons_append] at h
  exact le_of_split hn h m (by simp)

theorem matchesIn_takeWhile (hn : 0 < n) {b' : Nat} (hle : b ≤ b') :
    matchesIn hit n a b = (matchesIn hit n a b').takeWhile fun x => x + n ≤ b := by
  induction a using induction hit hn b' with
  | hend a ha => rw [matchesIn_of_le (by omega), matchesIn_of_le ha, List.takeWhile_nil]
  | hhit a hfits hhit ih =>
    rw [matchesIn_of_hit hn hfits hhit]
    by_cases hshort : a + n ≤ b
    · rw [matchesIn_of_hit hn hshort hhit, List.takeWhile_cons_of_pos (by simpa using hshort), ih]
    · rw [List.takeWhile_cons_of_neg (by simpa using hshort)]
      apply List.eq_nil_iff_forall_not_mem.mpr
      intro x hx
      have hx' := of_mem_matchesIn hn hx
      omega
  | hmiss a _ hno ih =>
    rw [matchesIn_of_miss hno, matchesIn_of_miss fun h => hno ⟨by omega, h.2⟩, ih]

/-- A range that ends in front of the last match's end has the matches in front of it. -/
theorem matchesIn_of_concat (hn : 0 < n) {b' : Nat} (h : matchesIn hit n a b' = xs ++ [m])
    (hle : m ≤ b)
    (hlt : b < m + n) : matchesIn hit n a b = xs := by
  have hend :=
    of_mem_matchesIn hn (h ▸ List.mem_append_right xs List.mem_cons_self : m ∈ matchesIn hit n a b')
  rw [matchesIn_takeWhile hn (by omega : b ≤ b'), h, List.takeWhile_append_of_pos,
    List.takeWhile_cons_of_neg]
  · exact List.append_nil xs
  · simpa using hlt
  · intro x hx
    have hx' := le_of_split_left hn h x hx
    rw [decide_eq_true_eq]
    omega

theorem mem_matchesIn_of_le (hn : 0 < n) {b' : Nat} (h : m ∈ matchesIn hit n a b)
    (hle : m + n ≤ b') :
    m ∈ matchesIn hit n a b' := by
  by_cases hlonger : b ≤ b'
  · rw [matchesIn_takeWhile hn hlonger] at h
    exact (List.takeWhile_prefix _).subset h
  · obtain ⟨xs, ys, hsplit⟩ := List.append_of_mem h
    rw [matchesIn_takeWhile hn (Nat.le_of_not_le hlonger), hsplit, List.takeWhile_append_of_pos,
      List.takeWhile_cons_of_pos (by simpa using hle)]
    · simp
    · intro x hx
      have hx' := le_of_split_left hn hsplit x hx
      rw [decide_eq_true_eq]
      omega

theorem le_getLast (hn : 0 < n) {x : Nat} (h : m ∈ matchesIn hit n a b)
    (hlast : (matchesIn hit n a b).getLast? = some x) : m ≤ x := by
  obtain ⟨xs, ys, hsplit⟩ := List.append_of_mem h
  have hbehind := le_of_split hn hsplit
  rw [hsplit, List.getLast?_append, List.getLast?_cons, Option.some_or, Option.some.injEq] at hlast
  subst hlast
  cases hys : ys.getLast? with
  | none => exact Nat.le_refl m
  | some y => exact Nat.le_trans (Nat.le_add_right m n) (hbehind y (List.mem_of_getLast? hys))

end NonOverlapping
