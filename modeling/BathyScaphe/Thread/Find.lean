import BathyScaphe.Foundation.NSString
import BathyScaphe.Lib.NonOverlapping

/-!
# Finding text in a thread

A search goes on behind a match whose key is none of those that are asked for. Forwards it
then leaves the range it was given, backwards it takes the location of the match for the
length of what is left; and where what is left is too short for the text that is looked for,
the match that was turned down is selected.
-/

namespace BathyScaphe.Thread.Find

/-- What is looked for, and where. The characters of the text are compared one by one, with or
without their case. -/
structure Search where
  same : UniChar → UniChar → Bool
  text : NSString
  BSMessageKeyAttributeName : Nat → Option NSString
  aString : NSString
  aString_ne_nil : aString ≠ []
  keysArray : List NSString
  CMRSearchOptionBackwards : Bool

namespace Search

variable (search : Search)

def strLength : Nat := search.aString.length

def matchesAt (location : Nat) : Bool :=
  ((search.text.drop location).take search.strLength).isEqv search.aString search.same

def locations (range : NSRange) : List Nat :=
  NonOverlapping.matchesIn search.matchesAt search.strLength range.location range.max

def found (location : Nat) : NSRange := ⟨location, search.strLength⟩

def allMatchesInString (range : NSRange) : Option (List NSRange) :=
  if range.max ≤ search.text.length then some ((search.locations range).map search.found) else none

/-- `rangeOfString:searchMask:range:`, the inner `none` for `NSNotFound`. -/
def rangeOfString (range : NSRange) : Option (Option NSRange) :=
  (search.allMatchesInString range).map fun ms => if search.CMRSearchOptionBackwards
    then ms.getLast? else ms.head?

def check (location : Nat) : Bool :=
  match search.BSMessageKeyAttributeName location with
  | some key => search.keysArray.contains key
  | none => false

/-- The loop with the range that is left and the result of the last round; `none` where it raises
or has not come to an end. -/
def findLoop : Nat → NSRange → Option NSRange → Option (Option NSRange)
  | 0, _, _ => none
  | fuel + 1, aRange, result =>
    if search.strLength ≤ aRange.length then
      match search.rangeOfString aRange with
      | none => none
      | some none => some none
      | some (some result) =>
        if search.check result.location then some (some result)
        else if search.CMRSearchOptionBackwards then findLoop fuel
          ⟨aRange.location, result.location⟩ (some result)
        else findLoop fuel ⟨result.max, search.text.length - result.max⟩ (some result)
    else some result

def findText (fuel : Nat) (aRange : NSRange) : Option (Option NSRange) :=
  if search.text.length = 0 then some none else search.findLoop fuel aRange none

def hiliteLoop : Nat → NSRange → Option (List NSRange)
  | 0, _ => none
  | fuel + 1, searchRange =>
    match search.rangeOfString searchRange with
    | none => none
    | some none => some []
    | some (some found) =>
      let marks := if search.check found.location then [found] else []
      let rest : NSRange := ⟨found.max, search.text.length - found.max⟩
      if rest.length = 0 then some marks else (hiliteLoop fuel rest).map (marks ++ ·)

def setTemporaryAttributes (fuel : Nat) : Option (List NSRange) :=
  search.hiliteLoop fuel ⟨0, search.text.length⟩

-- What is asked of the search

/-- The first match in the range with one of the keys, or the last. -/
def selection (aRange : NSRange) : Option NSRange :=
  let ms := search.locations aRange
  ((if search.CMRSearchOptionBackwards then ms.reverse else ms).find? search.check).map search.found

def hilited : List NSRange :=
  ((search.locations ⟨0, search.text.length⟩).filter search.check).map search.found

structure Right (aRange : NSRange) : Prop where
  finds : ∃ fuel, search.findText fuel aRange = some (search.selection aRange)
  hilites : ∃ fuel, search.setTemporaryAttributes fuel = some search.hilited

/-- Forwards, where no match in the range is taken none is behind it, and the text goes on behind
the last match of all. -/
def Forwards (aRange : NSRange) : Prop :=
  let ms := search.locations aRange
  let all := search.locations ⟨aRange.location, search.text.length - aRange.location⟩
  ms = [] ∨ (∃ m ∈ ms, search.check m = true) ∨
    (∀ m ∈ all, search.check m = false) ∧ ∀ m ∈ all.getLast?, m + 2 * search.strLength ≤
      search.text.length

/-- Backwards, the last match is taken; or the range begins near the beginning of the text, and
another match is taken or the first one is not as near. -/
def Backwards (aRange : NSRange) : Prop :=
  let ms := search.locations aRange
  (∀ m ∈ ms.getLast?, search.check m = true) ∨
    aRange.location < search.strLength ∧
      ((∃ m ∈ ms, search.check m = true) ∨ ∀ m ∈ ms.head?, search.strLength ≤ m)

/-- Backwards, only the last match is marked. -/
def HiliteBackwards : Prop :=
  ∀ m ∈ (search.locations ⟨0, search.text.length⟩).dropLast, search.check m = false

def Holds (aRange : NSRange) : Prop :=
  if search.CMRSearchOptionBackwards then search.Backwards aRange ∧ search.HiliteBackwards
  else search.Forwards aRange

-- One round

variable {search} {aRange : NSRange} {result : Option NSRange} {m fuel a : Nat} {ms : List Nat}

theorem strLength_pos : 0 < search.strLength := List.length_pos_of_ne_nil search.aString_ne_nil

theorem of_mem_locations (h : m ∈ search.locations aRange) :
    aRange.location ≤ m ∧ m + search.strLength ≤ aRange.max :=
  NonOverlapping.of_mem_matchesIn strLength_pos h

theorem locations_tail (ha : a ≤ search.text.length) :
    search.locations ⟨a, search.text.length - a⟩ =
    NonOverlapping.matchesIn search.matchesAt search.strLength a search.text.length := by
  rw [locations, NSRange.max, Nat.add_sub_cancel' ha]

theorem max_tail (ha : a ≤ search.text.length) :
    (⟨a, search.text.length - a⟩ : NSRange).max ≤ search.text.length := by
  simp only [NSRange.max]
  omega

theorem locations_behind_match {front : List Nat} (ha : a ≤ search.text.length)
    (hms : search.locations ⟨a, search.text.length - a⟩ = front ++ m :: ms) :
    m + search.strLength ≤ search.text.length ∧
      search.locations ⟨m + search.strLength, search.text.length - (m + search.strLength)⟩ =
        ms := by
  have hm := of_mem_locations (hms ▸ List.mem_append_right front List.mem_cons_self :
    m ∈ search.locations ⟨a, search.text.length - a⟩)
  simp only [NSRange.max, Nat.add_sub_cancel' ha] at hm
  refine ⟨hm.2, ?_⟩
  rw [locations_tail hm.2]
  rw [locations_tail ha] at hms
  exact NonOverlapping.matchesIn_behind strLength_pos hms

theorem rangeOfString_inside (hinside : aRange.max ≤ search.text.length) :
    search.rangeOfString aRange =
    some ((if search.CMRSearchOptionBackwards then (search.locations aRange).getLast?
      else (search.locations aRange).head?).map search.found) := by
  rw [rangeOfString, allMatchesInString, if_pos hinside, Option.map_some]
  split
  · rw [List.getLast?_map]
  · rw [List.head?_map]

theorem findLoop_nil (hinside : aRange.max ≤ search.text.length)
    (hnil : search.locations aRange = []) :
    search.findLoop (fuel + 1) aRange result = some (if search.strLength ≤ aRange.length then none
      else result) := by
  rw [findLoop, rangeOfString_inside hinside, hnil]
  split <;> simp

theorem strLength_le (h : m ∈ search.locations aRange) : search.strLength ≤ aRange.length := by
  have hm := of_mem_locations h
  simp only [NSRange.max] at hm
  omega

section

variable (hinside : aRange.max ≤ search.text.length)

include hinside

theorem findLoop_forward (hforward : search.CMRSearchOptionBackwards = false)
    (hm : (search.locations aRange).head? = some m) : search.findLoop (fuel + 1) aRange result =
      if search.check m then some (some (search.found m))
      else search.findLoop fuel ⟨m + search.strLength, search.text.length - (m + search.strLength)⟩
        (some (search.found m)) := by
  rw [findLoop, if_pos (strLength_le (List.mem_of_head? hm)), rangeOfString_inside hinside,
    hforward, hm]
  rfl

theorem findLoop_backward (hbackward : search.CMRSearchOptionBackwards = true)
    (hm : (search.locations aRange).getLast? = some m) : search.findLoop (fuel + 1) aRange result =
      if search.check m then some (some (search.found m))
      else search.findLoop fuel ⟨aRange.location, m⟩ (some (search.found m)) := by
  rw [findLoop, if_pos (strLength_le (List.mem_of_getLast? hm)), rangeOfString_inside hinside,
    hbackward, hm]
  rfl

end

theorem findLoop_mono (h : search.findLoop fuel aRange result = some r) (more : Nat) :
    search.findLoop (fuel + more) aRange result = some r := by
  induction fuel generalizing aRange result with
  | zero => cases h
  | succ fuel ih =>
    rw [Nat.add_right_comm]
    unfold findLoop at h ⊢
    split at h
    · rename_i hlong
      rw [if_pos hlong]
      split at h
      · cases h
      · exact h
      · split at h
        · rename_i hcheck
          rw [if_pos hcheck]
          exact h
        · rename_i hcheck
          rw [if_neg hcheck]
          split at h
          · rename_i hbackward
            rw [if_pos hbackward]
            exact ih h
          · rename_i hforward
            rw [if_neg hforward]
            exact ih h
    · rename_i hshort
      rw [if_neg hshort]
      exact h

theorem findLoop_unique {r r' : Option NSRange} {fuel' : Nat}
    (h : search.findLoop fuel aRange result = some r)
    (h' : search.findLoop fuel' aRange result = some r') : r = r' := by
  have hmore := findLoop_mono h fuel'
  rw [Nat.add_comm, findLoop_mono h' fuel, Option.some.injEq] at hmore
  exact hmore.symm

-- Forwards

/-- The search to the end of the text takes the first match with one of the keys. Where there is
none, what is left behind the last match decides whether the result of the last round stays. -/
theorem findLoop_tail (hforward : search.CMRSearchOptionBackwards = false)
    (ha : a ≤ search.text.length)
    (hms : search.locations ⟨a, search.text.length - a⟩ = ms) (hfuel : ms.length < fuel) :
    search.findLoop fuel ⟨a, search.text.length - a⟩ result =
      some (match ms.find? search.check with
        | some m => some (search.found m)
        | none =>
          if (ms.getLast?.map (· + search.strLength)).getD a + search.strLength ≤
            search.text.length then none
          else (ms.getLast?.map search.found).or result) := by
  obtain ⟨more, rfl⟩ := Nat.exists_eq_add_of_le' hfuel
  have hinside : (⟨a, search.text.length - a⟩ : NSRange).max ≤ search.text.length := max_tail ha
  induction ms generalizing a result with
  | nil =>
    have hroom : search.strLength ≤ search.text.length - a ↔
      a + search.strLength ≤ search.text.length := by
      have hpos := search.strLength_pos
      omega
    rw [Nat.add_succ, findLoop_nil hinside hms]
    exact congrArg some (if_congr hroom rfl rfl)
  | cons m ms ih =>
    obtain ⟨hm, hbehind⟩ := @locations_behind_match search m a ms [] ha hms
    rw [List.length_cons, Nat.succ_eq_add_one, ← Nat.add_assoc,
      findLoop_forward hinside hforward (by rw [hms, List.head?_cons]), List.find?_cons]
    cases hcheck : search.check m with
    | true => rfl
    | false =>
      have hrest : search.findLoop (more + (ms.length + 1)) _ (some (search.found m)) = _ :=
        ih hm hbehind (by omega) (max_tail hm)
      simp only [Bool.false_eq_true, if_false, hrest]
      cases ms with
      | nil => rfl
      | cons next ms => rfl

theorem ends_iff {r r' : Option NSRange} (h : search.findLoop fuel aRange none = some r) :
    (∃ fuel, search.findLoop fuel aRange none = some r') ↔ r = r' := by
  constructor
  · rintro ⟨fuel', h'⟩
    exact findLoop_unique h h'
  · rintro rfl
    exact ⟨fuel, h⟩

theorem findText_iff {r : Option NSRange} (hinside : aRange.max ≤ search.text.length) :
    (∃ fuel, search.findText fuel aRange = some r) ↔ ∃ fuel, search.findLoop fuel aRange none =
      some r := by
  by_cases hempty : search.text.length = 0
  · have hnil : search.locations aRange = [] := by
      apply List.eq_nil_iff_forall_not_mem.mpr
      intro m hm
      have hpos := search.strLength_pos
      have hlast := (of_mem_locations hm).2
      omega
    have hloop := @findLoop_nil search aRange none 0 hinside hnil
    rw [ite_self] at hloop
    simp only [findText, hempty, if_true, ends_iff hloop, exists_const, Option.some.injEq]
  · simp only [findText, hempty, if_false]

theorem two_mul_le_iff (m : Nat) (ms : List Nat) :
    (ms.getLast?.map (· + search.strLength)).getD (m + search.strLength) + search.strLength ≤
      search.text.length ↔
      ∀ x ∈ (m :: ms).getLast?, x + 2 * search.strLength ≤ search.text.length := by
  have hlast : (ms.getLast?.map (· + search.strLength)).getD (m + search.strLength) =
      ms.getLast?.getD m + search.strLength := Option.getD_map _ _ _
  rw [hlast, List.getLast?_cons, Nat.add_assoc, ← Nat.two_mul]
  simp

theorem locations_behind (hinside : aRange.max ≤ search.text.length)
    (hms : search.locations aRange = m :: ms) :
    ∃ all, search.locations ⟨m + search.strLength, search.text.length - (m + search.strLength)⟩ =
      all ∧
      search.locations ⟨aRange.location, search.text.length - aRange.location⟩ = m :: all ∧
      ms <+: all := by
  have hm := of_mem_locations (hms ▸ List.mem_cons_self : m ∈ search.locations aRange)
  have hshorter : search.locations aRange = _ :=
    NonOverlapping.matchesIn_takeWhile strLength_pos hinside
  rw [hms] at hshorter
  rw [locations_tail (by omega), locations_tail (by simp only [NSRange.max] at hinside; omega)]
  cases hall :
    NonOverlapping.matchesIn search.matchesAt search.strLength aRange.location search.text.length
      with
  | nil =>
    rw [hall] at hshorter
    cases hshorter
  | cons first all =>
    have hbehind := NonOverlapping.matchesIn_behind_first strLength_pos hall
    rw [hall, List.takeWhile_cons] at hshorter
    split at hshorter
    · rw [List.cons.injEq] at hshorter
      obtain ⟨rfl, rfl⟩ := hshorter
      exact ⟨all, hbehind, rfl, List.takeWhile_prefix _⟩
    · cases hshorter

theorem finds_forward_iff (hinside : aRange.max ≤ search.text.length)
    (hforward : search.CMRSearchOptionBackwards = false) :
    (∃ fuel, search.findText fuel aRange = some (search.selection aRange)) ↔
      search.Forwards aRange := by
  rw [findText_iff hinside, selection, hforward]
  simp only [Bool.false_eq_true, if_false]
  unfold Forwards
  cases hms : search.locations aRange with
  | nil =>
    have hloop := @findLoop_nil search aRange none 0 hinside hms
    rw [ite_self] at hloop
    simp [ends_iff hloop]
  | cons m ms =>
    have hround (fuel : Nat) :=
      @findLoop_forward search aRange none m fuel hinside hforward (by rw [hms, List.head?_cons])
    cases hcheck : search.check m with
    | true =>
      have hloop := hround 0
      rw [hcheck, if_pos rfl] at hloop
      simp [ends_iff hloop, hcheck]
    | false =>
      obtain ⟨all, hbehind, hall, hstarts⟩ := locations_behind hinside hms
      have hm := of_mem_locations (hms ▸ List.mem_cons_self : m ∈ search.locations aRange)
      have hloop := hround (all.length + 1)
      rw [hcheck, if_neg Bool.false_ne_true, findLoop_tail hforward (by omega) hbehind
        (Nat.lt_succ_self _)] at hloop
      rw [ends_iff hloop, hall, List.find?_cons, hcheck]
      dsimp only
      by_cases hany : ∃ x ∈ ms, search.check x = true
      · obtain ⟨rest, rfl⟩ := hstarts
        obtain ⟨first, hfirst⟩ := Option.isSome_iff_exists.mp (List.find?_isSome.mpr hany)
        obtain ⟨x, hx, hxcheck⟩ := hany
        rw [List.find?_append, hfirst]
        exact iff_of_true rfl (Or.inr (Or.inl ⟨x, List.mem_cons_of_mem m hx, hxcheck⟩))
      · have hnone : ms.find? search.check = none := by simpa using hany
        have hnot : ¬ ∃ x ∈ m :: ms, search.check x = true := by
          rintro ⟨x, hx, hxcheck⟩
          obtain rfl | hx := List.mem_cons.mp hx
          · rw [hcheck] at hxcheck
            cases hxcheck
          · exact hany ⟨x, hx, hxcheck⟩
        rw [hnone, Option.map_none, or_iff_right (List.cons_ne_nil m ms), or_iff_right hnot]
        cases hfind : all.find? search.check with
        | some x =>
          refine iff_of_false (by simp) fun h => ?_
          have hx := h.1 x (List.mem_cons_of_mem m (List.mem_of_find?_eq_some hfind))
          rw [List.find?_some hfind] at hx
          cases hx
        | none =>
          have hall' : ∀ x ∈ m :: all, search.check x = false := by
            rw [List.forall_mem_cons]
            exact ⟨hcheck, by simpa using hfind⟩
          rw [and_iff_right hall', ← two_mul_le_iff]
          dsimp only
          split
          · rename_i hroom
            exact iff_of_true rfl hroom
          · rename_i hroom
            exact iff_of_false (by cases all.getLast? <;> simp) hroom

-- Backwards

/-- Near the beginning of the text the range that is left ends inside the match that is turned
down, so that the matches in front of it are what is left. -/
theorem locations_before {range : NSRange} (hlocation : range.location < search.strLength)
    (hms : search.locations range = ms ++ [m]) : search.locations ⟨range.location, m⟩ = ms := by
  have hm := of_mem_locations (hms ▸ List.mem_append_right ms List.mem_cons_self : m ∈
    search.locations range)
  apply NonOverlapping.matchesIn_of_concat strLength_pos hms
  · simp only [NSRange.max]
    omega
  · simp only [NSRange.max]
    omega

theorem findLoop_back (hbackward : search.CMRSearchOptionBackwards = true)
    (hinside : aRange.max ≤ search.text.length)
    (hlocation : aRange.location < search.strLength) (hms : search.locations aRange = ms.reverse)
    (hfuel : ms.length < fuel) :
    search.findLoop fuel aRange result =
      some (match ms.find? search.check with
        | some m => some (search.found m)
        | none =>
          if search.strLength ≤ ms.getLast?.getD aRange.length then none
          else (ms.getLast?.map search.found).or result) := by
  obtain ⟨more, rfl⟩ := Nat.exists_eq_add_of_le' hfuel
  induction ms generalizing aRange result with
  | nil => rw [Nat.add_succ, findLoop_nil hinside hms]; rfl
  | cons m ms ih =>
    rw [List.reverse_cons] at hms
    have hm := of_mem_locations (hms ▸ List.mem_append_right _ List.mem_cons_self : m ∈
      search.locations aRange)
    have hbefore := @locations_before search m ms.reverse aRange hlocation hms
    rw [List.length_cons, Nat.succ_eq_add_one, ← Nat.add_assoc,
      findLoop_backward hinside hbackward (by rw [hms, List.getLast?_concat]), List.find?_cons]
    cases hcheck : search.check m with
    | true => rfl
    | false =>
      have hnext : (⟨aRange.location, m⟩ : NSRange).max ≤ search.text.length := by
        simp only [NSRange.max]
        omega
      have hrest : search.findLoop (more + (ms.length + 1)) _ (some (search.found m)) = _ :=
        ih hnext hlocation hbefore (by omega)
      simp only [Bool.false_eq_true, if_false, hrest]
      cases ms with
      | nil => rfl
      | cons next ms => rfl

theorem findLoop_outside (houtside : ¬ aRange.max ≤ search.text.length)
    (hlong : search.strLength ≤ aRange.length) :
    search.findLoop (fuel + 1) aRange result = none := by
  rw [findLoop, if_pos hlong, rangeOfString, allMatchesInString, if_neg houtside]
  rfl

/-- Farther from the beginning the range that is left still holds the match that was turned down.
The loop never gets in front of it. -/
theorem findLoop_stuck (hbackward : search.CMRSearchOptionBackwards = true)
    (hlocation : search.strLength ≤ aRange.location) (hm : m ∈ search.locations aRange)
    (h : search.findLoop fuel aRange result = some r) :
    ∃ x, r = some (search.found x) ∧ m ≤ x ∧ search.check x = true := by
  induction fuel generalizing aRange result with
  | zero => cases h
  | succ fuel ih =>
    by_cases hinside : aRange.max ≤ search.text.length
    · obtain ⟨x, hx⟩ : ∃ x, (search.locations aRange).getLast? = some x := by
        rw [← Option.isSome_iff_exists, List.getLast?_isSome]
        exact List.ne_nil_of_mem hm
      have hle : m ≤ x := NonOverlapping.le_getLast strLength_pos hm hx
      rw [findLoop_backward hinside hbackward hx] at h
      split at h
      · rename_i hcheck
        cases h
        exact ⟨x, rfl, hle, hcheck⟩
      · have hnext : m ∈ search.locations ⟨aRange.location, x⟩ := by
          apply NonOverlapping.mem_matchesIn_of_le strLength_pos hm
          simp only [NSRange.max]
          omega
        refine ih ?_ hnext h
        exact hlocation
    · rw [findLoop_outside hinside (strLength_le hm)] at h
      cases h

theorem finds_backward_iff (hinside : aRange.max ≤ search.text.length)
    (hbackward : search.CMRSearchOptionBackwards = true) :
    (∃ fuel, search.findText fuel aRange = some (search.selection aRange)) ↔
      search.Backwards aRange := by
  rw [findText_iff hinside, selection, hbackward]
  simp only [if_true]
  unfold Backwards
  obtain ⟨ms, hms⟩ : ∃ ms, search.locations aRange = List.reverse ms :=
    ⟨_, (List.reverse_reverse _).symm⟩
  rw [hms]
  simp only [List.reverse_reverse, List.getLast?_reverse, List.head?_reverse, List.mem_reverse]
  by_cases hlocation : aRange.location < search.strLength
  · have hloop :=
      @findLoop_back search aRange none (ms.length + 1) ms hbackward hinside hlocation hms
      (Nat.lt_succ_self _)
    rw [ends_iff hloop, and_iff_right hlocation]
    cases hfind : ms.find? search.check with
    | some x => exact iff_of_true rfl (Or.inr (Or.inl ⟨x, List.mem_of_find?_eq_some hfind,
        List.find?_some hfind⟩))
    | none =>
      have hnone : ∀ x ∈ ms, search.check x = false := by simpa using hfind
      cases ms with
      | nil => simp
      | cons m ms =>
        have hfirst : ¬ ∀ x ∈ (m :: ms).head?, search.check x = true := by simp [hnone m]
        have hany : ¬ ∃ x ∈ m :: ms, search.check x = true := by
          rintro ⟨x, hx, hcheck⟩
          rw [hnone x hx] at hcheck
          cases hcheck
        rw [or_iff_right hfirst, or_iff_right hany, List.getLast?_cons]
        simp
  · rw [or_iff_left fun h => hlocation h.1]
    cases ms with
    | nil =>
      have hloop := @findLoop_nil search aRange none 0 hinside hms
      rw [ite_self] at hloop
      simp [ends_iff hloop]
    | cons m ms =>
      rw [List.reverse_cons] at hms
      have hround := @findLoop_backward search aRange none m 0 hinside hbackward
        (by rw [hms, List.getLast?_concat])
      cases hcheck : search.check m with
      | true =>
        rw [hcheck, if_pos rfl] at hround
        simp [ends_iff hround, hcheck]
      | false =>
        refine iff_of_false ?_ (by simp [hcheck])
        rintro ⟨fuel, hloop⟩
        obtain ⟨x, hx, hle, -⟩ := findLoop_stuck hbackward (Nat.le_of_not_lt hlocation)
          (hms ▸ List.mem_append_right _ List.mem_cons_self : m ∈ search.locations aRange) hloop
        rw [List.find?_cons, hcheck] at hx
        obtain ⟨y, hy, heq⟩ := Option.map_eq_some_iff.mp hx
        have hbefore := NonOverlapping.le_of_split_left strLength_pos hms y
          (List.mem_reverse.mpr (List.mem_of_find?_eq_some hy))
        have hsame : y = x := congrArg NSRange.location heq
        have hpos := search.strLength_pos
        omega

-- Marking all matches

theorem hiliteLoop_mono {marks : List NSRange} (h : search.hiliteLoop fuel aRange = some marks)
    (more : Nat) :
    search.hiliteLoop (fuel + more) aRange = some marks := by
  induction fuel generalizing aRange marks with
  | zero => cases h
  | succ fuel ih =>
    rw [Nat.add_right_comm]
    unfold hiliteLoop at h ⊢
    split at h
    · cases h
    · exact h
    · dsimp only at h ⊢
      split at h
      · rename_i hend
        rw [if_pos hend]
        exact h
      · rename_i hend
        rw [if_neg hend]
        obtain ⟨rest, hrest, rfl⟩ := Option.map_eq_some_iff.mp h
        rw [ih hrest, Option.map_some]

theorem hiliteLoop_nil (hinside : aRange.max ≤ search.text.length)
    (hnil : search.locations aRange = []) :
    search.hiliteLoop (fuel + 1) aRange = some [] := by
  rw [hiliteLoop, rangeOfString_inside hinside, hnil]
  split <;> simp_all

theorem hiliteLoop_found (hinside : aRange.max ≤ search.text.length)
    (hm : (if search.CMRSearchOptionBackwards then (search.locations aRange).getLast?
      else (search.locations aRange).head?) = some m) :
    search.hiliteLoop (fuel + 1) aRange =
      let marks := if search.check m then [search.found m] else []
      let rest : NSRange := ⟨m + search.strLength, search.text.length - (m + search.strLength)⟩
      if rest.length = 0 then some marks else (search.hiliteLoop fuel rest).map (marks ++ ·) := by
  rw [hiliteLoop, rangeOfString_inside hinside, hm]
  rfl

theorem locations_end (h : search.text.length - a = 0) :
    search.locations ⟨a, search.text.length - a⟩ = [] := by
  apply NonOverlapping.matchesIn_of_le
  simp only [NSRange.max]
  omega

theorem hiliteLoop_forward (hforward : search.CMRSearchOptionBackwards = false)
    (ha : a ≤ search.text.length)
    (hms : search.locations ⟨a, search.text.length - a⟩ = ms) (hfuel : ms.length < fuel) :
    search.hiliteLoop fuel ⟨a, search.text.length - a⟩ =
      some ((ms.filter search.check).map search.found) := by
  obtain ⟨more, rfl⟩ := Nat.exists_eq_add_of_le' hfuel
  induction ms generalizing a with
  | nil => exact hiliteLoop_nil (max_tail ha) hms
  | cons m ms ih =>
    obtain ⟨hm, hbehind⟩ := @locations_behind_match search m a ms [] ha hms
    have hrest : search.hiliteLoop (more + (ms.length + 1)) _ = _ := ih hm hbehind (by omega)
    rw [List.length_cons, Nat.succ_eq_add_one, ← Nat.add_assoc,
      hiliteLoop_found (max_tail ha) (by rw [hforward, hms]; rfl)]
    dsimp only
    split
    · rename_i hend
      rw [locations_end hend] at hbehind
      subst hbehind
      cases hcheck : search.check m <;> simp [hcheck]
    · rw [hrest, Option.map_some]
      cases hcheck : search.check m <;> simp [hcheck]

theorem setTemporaryAttributes_backward (hbackward : search.CMRSearchOptionBackwards = true)
    (hms : search.locations ⟨0, search.text.length⟩ = ms ++ [m]) : search.setTemporaryAttributes 2 =
      some (if search.check m then [search.found m] else []) := by
  obtain ⟨hm, hbehind⟩ := locations_behind_match (Nat.zero_le _) hms
  have hinside : (⟨0, search.text.length⟩ : NSRange).max ≤ search.text.length := by
    simp [NSRange.max]
  rw [setTemporaryAttributes, @hiliteLoop_found search _ m 1 hinside (by simp [hbackward, hms])]
  dsimp only
  split
  · rfl
  · rw [hiliteLoop_nil (max_tail hm) hbehind, Option.map_some, List.append_nil]

theorem hilites_backward_iff (hbackward : search.CMRSearchOptionBackwards = true) :
    (∃ fuel, search.setTemporaryAttributes fuel = some search.hilited) ↔
      search.HiliteBackwards := by
  have hinside : (⟨0, search.text.length⟩ : NSRange).max ≤ search.text.length := by
    simp [NSRange.max]
  unfold HiliteBackwards hilited
  obtain hms | ⟨ms, m, hms⟩ := List.eq_nil_or_concat' (search.locations ⟨0, search.text.length⟩)
  · rw [hms]
    exact iff_of_true ⟨1, hiliteLoop_nil hinside hms⟩ (by simp)
  · have hloop := setTemporaryAttributes_backward hbackward hms
    have hunique (marks : List NSRange) :
      (∃ fuel, search.setTemporaryAttributes fuel = some marks) ↔
        (if search.check m then [search.found m] else []) = marks := by
      constructor
      · rintro ⟨fuel, h⟩
        have hmore := hiliteLoop_mono h 2
        rw [Nat.add_comm] at hmore
        exact Option.some.inj ((hiliteLoop_mono hloop fuel).symm.trans hmore)
      · rintro rfl
        exact ⟨2, hloop⟩
    have hlast : ([m].filter search.check).map search.found = if search.check m
      then [search.found m] else [] := by
      cases hcheck : search.check m <;> simp [hcheck]
    rw [hunique, hms, List.dropLast_concat, List.filter_append, List.map_append, hlast,
      List.self_eq_append_left, List.map_eq_nil_iff, List.filter_eq_nil_iff]
    simp only [Bool.not_eq_true]

/-- The text is found and marked as it should be exactly under what is said of its matches. -/
theorem right_iff (search : Search)
    (aRange : { range : NSRange // range.max ≤ search.text.length }) :
    search.Right aRange.1 ↔ search.Holds aRange.1 := by
  have hright : search.Right aRange.1 ↔
      (∃ fuel, search.findText fuel aRange.1 = some (search.selection aRange.1)) ∧
        ∃ fuel, search.setTemporaryAttributes fuel = some search.hilited :=
    ⟨fun h => ⟨h.finds, h.hilites⟩, fun h => ⟨h.1, h.2⟩⟩
  rw [hright]
  unfold Holds
  cases hdirection : search.CMRSearchOptionBackwards with
  | true =>
    rw [if_pos rfl, finds_backward_iff aRange.2 hdirection, hilites_backward_iff hdirection]
  | false =>
    have hmarks : ∃ fuel, search.setTemporaryAttributes fuel = some search.hilited :=
      ⟨_, hiliteLoop_forward hdirection (Nat.zero_le _) rfl (Nat.lt_succ_self _)⟩
    rw [if_neg Bool.false_ne_true, and_iff_left hmarks, finds_forward_iff aRange.2 hdirection]

def rejected : Search where
  same c d := c == d
  text := ns "ab"
  BSMessageKeyAttributeName _ := some (ns "name")
  aString := ns "b"
  aString_ne_nil := by decide
  keysArray := [ns "mail"]
  CMRSearchOptionBackwards := false

theorem not_right_rejected : ¬ ∀ search : Search, ∀ aRange :
    { range : NSRange // range.max ≤ search.text.length },
    search.Right aRange.1 := by
  intro h
  obtain ⟨⟨fuel, hfind⟩, -⟩ := h rejected ⟨⟨0, 2⟩, by decide⟩
  -- the loop ends with the match that was turned down
  have hloop : rejected.findLoop 2 ⟨0, 2⟩ none = some (some ⟨1, 1⟩) := by decide
  have hsame := findLoop_unique hloop (hfind : rejected.findLoop fuel ⟨0, 2⟩ none = _)
  revert hsame
  decide

end Search

end BathyScaphe.Thread.Find
