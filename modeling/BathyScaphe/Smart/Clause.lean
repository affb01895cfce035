import Mathlib.Data.List.TakeWhile
import BathyScaphe.Smart.Condition

/-!
# When a condition means what it says

The text of `conditionString` is read back as SQLite reads it and compared with
the condition itself, over every thread row. Three things come between them: the
wildcards of `LIKE` in a literal value, the strict bounds of the days operators,
and date ranges whose values are the wrong way round.
-/

namespace BathyScaphe.Smart

open Database NSString Where

def ThreadRow.columns (row : ThreadRow) : Columns where
  text column :=
    if column = StringTarget.threadName.key then some (row.text .threadName)
    else if column = StringTarget.boardName.key then some (row.text .boardName)
    else none
  number column :=
    if column = NumberTarget.numberOfAll.key then some (row.number .numberOfAll)
    else if column = NumberTarget.numberOfRead.key then some (row.number .numberOfRead)
    else if column = NumberTarget.numberOfDifference.key then some (row.number .numberOfDifference)
    else if column = DateTarget.modifiedDate.key then some (row.date .modifiedDate)
    else if column = DateTarget.LastWrittenDate.key then some (row.date .LastWrittenDate)
    else if column = DateTarget.threadID.key then some (row.date .threadID)
    else none

/-- The text is defined, and SQLite selects with it the rows that satisfy the
condition. -/
def MeansWhatItSays (clock : Clock) (c : Condition) : Prop :=
  ∃ text, c.conditionString clock = some text ∧
    ∀ row, selects sqlite text row.columns = true ↔ c.Holds clock row

/-- `Occurs c' c`: the condition `c'` is `c` or one of its members, at any depth. -/
inductive Occurs (c' : Condition) : Condition → Prop
  | self : Occurs c' c'
  | first {operator first others} : Occurs c' first → Occurs c' (.composit operator first others)
  | other {operator first others c} :
    c ∈ others → Occurs c' c → Occurs c' (.composit operator first others)

def Test.values {ν : Type} : Test ν → List ν
  | .compare _ value => [value]
  | .range value1 value2 => [value1, value2]

/-- No whole number lies between the values of a range that is the wrong way round. -/
def Test.InOrder : Test ℚ → Prop
  | .compare _ _ => True
  | .range v1 v2 => ∀ x : Int, ¬ (v2 < x ∧ x < v1)

def SmartCondition.Plain (clock : Clock) : SmartCondition → Prop
  | .string _ _ value => ∃ v, UTF8String value = some v ∧ sqlite.isLiteral v ∧ '\x00' ∉ v
  | .number _ test => (test.map Decimal.value).InOrder
  | .absoluteDate _ test => (test.map Decimal.value).InOrder
  | .relativeDate _ test =>
    (∀ value ∈ test.values, -2 ^ 31 ≤ clock.date value ∧ clock.date value < 2 ^ 31) ∧
      (test.map fun value => (clock.date value : ℚ)).InOrder
  | .days _ _ => False

-- Columns

theorem StringTarget.lexes_key (target : StringTarget) :
    Lexes Breaks target.key [.word target.key] := by
  cases target <;> exact lexes_word (by decide) (List.all_eq_true.mp (by decide))

theorem NumberTarget.lexes_key (target : NumberTarget) :
    Lexes Breaks target.key [.word target.key] := by
  cases target <;> exact lexes_word (by decide) (List.all_eq_true.mp (by decide))

theorem DateTarget.lexes_key (target : DateTarget) :
    Lexes Breaks target.key [.word target.key] := by
  cases target <;> exact lexes_word (by decide) (List.all_eq_true.mp (by decide))

@[simp] theorem columns_text (row : ThreadRow) (target : StringTarget) :
    row.columns.text target.key = some (row.text target) := by
  cases target <;> rfl

@[simp] theorem columns_number (row : ThreadRow) (target : NumberTarget) :
    row.columns.number target.key = some (row.number target : ℚ) := by
  cases target <;> rfl

@[simp] theorem columns_date (row : ThreadRow) (target : DateTarget) :
    row.columns.number target.key = some (row.date target : ℚ) := by
  cases target <;> rfl

-- String conditions

def StringOperator.pattern (v : List Char) : StringOperator → List Char
  | .contaions => '%' :: v ++ ['%']
  | .notContains => '%' :: v ++ ['%']
  | .exact => v
  | .notExact => v
  | .beginsWith => v ++ ['%']
  | .endsWith => '%' :: v

def StringOperator.negated : StringOperator → Bool
  | .notContains => true
  | .notExact => true
  | _ => false

theorem reads_string (target : StringTarget) (operator : StringOperator) (v : List Char) :
    Reads .or (operator.conditionString target.key (escape v))
      (.like operator.negated target.key (operator.pattern v)) := by
  have hlike := fun pattern => (Reads.like target.lexes_key pattern).atom_and.and_or
  have hnot := fun pattern => (Reads.notLike target.lexes_key pattern).atom_and.and_or
  cases operator with
  | contaions =>
    simpa [StringOperator.conditionString, StringOperator.negated, StringOperator.pattern,
      escape_append, escape] using hlike ('%' :: v ++ ['%'])
  | notContains =>
    simpa [StringOperator.conditionString, StringOperator.negated, StringOperator.pattern,
      escape_append, escape] using hnot ('%' :: v ++ ['%'])
  | exact =>
    simpa [StringOperator.conditionString, StringOperator.negated, StringOperator.pattern]
      using hlike v
  | notExact =>
    simpa [StringOperator.conditionString, StringOperator.negated, StringOperator.pattern]
      using hnot v
  | beginsWith =>
    simpa [StringOperator.conditionString, StringOperator.negated, StringOperator.pattern,
      escape_append, escape] using hlike (v ++ ['%'])
  | endsWith =>
    simpa [StringOperator.conditionString, StringOperator.negated, StringOperator.pattern,
      escape] using hlike ('%' :: v)

theorem eval_string (row : ThreadRow) (target : StringTarget) (operator : StringOperator)
    (v : List Char) :
    eval sqlite row.columns (.like operator.negated target.key (operator.pattern v)) =
      (sqlite.like (operator.pattern v) (row.text target) != operator.negated) := by
  rw [eval, columns_text]

theorem like_pattern_iff {v : List Char} (hv : sqlite.isLiteral v) (operator : StringOperator)
    (text : List Char) :
    (sqlite.like (operator.pattern v) text != operator.negated) = true ↔
      operator.Holds text (some v) := by
  have hcontains : sqlite.like ('%' :: v ++ ['%']) text = true ↔
      v.map Char.toLower <:+: text.map Char.toLower := Wildcards.like_many_literal_many hv
  have hexact : sqlite.like v text = true ↔ text.map Char.toLower = v.map Char.toLower :=
    Wildcards.like_literal hv
  cases operator with
  | contaions => simpa [StringOperator.pattern, StringOperator.negated, StringOperator.Holds]
      using hcontains
  | notContains =>
    simpa [StringOperator.pattern, StringOperator.negated, StringOperator.Holds]
      using not_congr hcontains
  | exact => simpa [StringOperator.pattern, StringOperator.negated, StringOperator.Holds]
      using hexact
  | notExact =>
    simpa [StringOperator.pattern, StringOperator.negated, StringOperator.Holds]
      using not_congr hexact
  | beginsWith =>
    have hbegins : sqlite.like (v ++ ['%']) text = true ↔
        v.map Char.toLower <+: text.map Char.toLower := Wildcards.like_literal_many hv
    simpa [StringOperator.pattern, StringOperator.negated, StringOperator.Holds] using hbegins
  | endsWith =>
    have hends : sqlite.like ('%' :: v) text = true ↔
        v.map Char.toLower <:+ text.map Char.toLower := Wildcards.like_many_literal hv
    simpa [StringOperator.pattern, StringOperator.negated, StringOperator.Holds] using hends

theorem like_pattern_fill (operator : StringOperator) (v : List Char) :
    sqlite.like (operator.pattern v) (sqlite.fill 'x' v) = true := by
  have hnil : sqlite.like [] [] = true := rfl
  have hmany : sqlite.like ['%'] [] = true := rfl
  have hself : sqlite.like v (sqlite.fill 'x' v) = true := by
    simpa using Wildcards.like_fill_append (v := v) (x := 'x') hnil
  have hopen : sqlite.like (v ++ ['%']) (sqlite.fill 'x' v) = true := by
    simpa using Wildcards.like_fill_append (v := v) (x := 'x') hmany
  have hbefore : ∀ pattern, sqlite.like pattern (sqlite.fill 'x' v) = true →
      sqlite.like ('%' :: pattern) (sqlite.fill 'x' v) = true :=
    fun pattern h => (Wildcards.like_many_cons pattern).mpr ⟨[], _, rfl, h⟩
  cases operator with
  | contaions => exact hbefore _ hopen
  | notContains => exact hbefore _ hopen
  | exact => exact hself
  | notExact => exact hself
  | beginsWith => exact hopen
  | endsWith => exact hbefore _ hself

theorem exists_infix_of_holds (operator : StringOperator) {text : List Char}
    {value : Option (List Char)} (h : operator.negated = false ↔ operator.Holds text value) :
    ∃ v ∈ value, v.map Char.toLower <:+: text.map Char.toLower := by
  cases operator with
  | contaions => exact h.mp rfl
  | notContains =>
    by_contra hnone
    exact nomatch h.mpr hnone
  | exact =>
    obtain ⟨v, hv, heq⟩ := h.mp rfl
    exact ⟨v, hv, heq ▸ List.infix_rfl⟩
  | notExact =>
    by_contra hnone
    refine nomatch h.mpr fun hsome => ?_
    obtain ⟨v, hv, heq⟩ := hsome
    exact hnone ⟨v, hv, heq ▸ List.infix_rfl⟩
  | beginsWith =>
    obtain ⟨v, hv, hpre⟩ := h.mp rfl
    exact ⟨v, hv, hpre.isInfix⟩
  | endsWith =>
    obtain ⟨v, hv, hsuf⟩ := h.mp rfl
    exact ⟨v, hv, hsuf.isInfix⟩

theorem plain_string_of_infix {value : NSString}
    (h : ∃ v ∈ UTF8String value,
      v.map Char.toLower <:+: (sqlite.fill 'x' (rawValue value)).map Char.toLower) :
    ∃ v, UTF8String value = some v ∧ sqlite.isLiteral v ∧ '\x00' ∉ v := by
  obtain ⟨v, hv, hinfix⟩ := h
  have hraw : rawValue value = v.takeWhile (· ≠ '\x00') := by
    unfold rawValue
    rw [Option.mem_def.mp hv]
  rw [hraw] at hinfix
  -- the row is no longer than the value before its NUL, and the value fits into it
  have hle := hinfix.length_le
  rw [List.length_map, List.length_map, Wildcards.length_fill] at hle
  have hprefix := List.takeWhile_prefix (l := v) (· ≠ '\x00')
  have htake : v.takeWhile (· ≠ '\x00') = v :=
    hprefix.eq_of_length (le_antisymm hprefix.length_le hle)
  rw [htake] at hinfix
  have heq := hinfix.eq_of_length (by rw [List.length_map, List.length_map, Wildcards.length_fill])
  refine ⟨v, hv, Wildcards.isLiteral_of_map_fill (by decide) (by decide) heq.symm, fun hnul => ?_⟩
  have hkept := List.takeWhile_eq_self_iff.mp htake _ hnul
  simp at hkept

-- Number and date conditions

def CompareOperator.comparison : CompareOperator → Comparison
  | .equal => .eq
  | .notEqual => .ne
  | .larger => .gt
  | .smaller => .lt

def Test.expr (key : List Char) : Test ℚ → Expr
  | .compare operator v => .compare key operator.comparison v
  | .range v1 v2 => .and (.compare key .gt v1) (.compare key .lt v2)

theorem reads_range {key : List Char} (hkey : Lexes Breaks key [.word key])
    (value1 value2 : Decimal) :
    Reads .or ("(".toList ++ key ++ " > ".toList ++ value1.text ++ " AND ".toList ++ key ++
        " < ".toList ++ value2.text ++ ")".toList)
      (.and (.compare key .gt value1.value) (.compare key .lt value2.value)) := by
  have hlarger : Reads .atom (key ++ " > ".toList ++ value1.text) (.compare key .gt value1.value) :=
    Reads.compare hkey .gt value1
  have hsmaller : Reads .atom (key ++ " < ".toList ++ value2.text)
    (.compare key .lt value2.value) :=
    Reads.compare hkey .lt value2
  have hrange := (hlarger.and hsmaller.atom_and).and_or.paren.atom_and.and_or
  simpa using hrange

theorem reads_test {key : List Char} (hkey : Lexes Breaks key [.word key]) (test : Test Decimal) :
    Reads .or ((test.map Decimal.text).conditionString key)
      ((test.map Decimal.value).expr key) := by
  cases test with
  | range value1 value2 => exact reads_range hkey value1 value2
  | compare operator value =>
    cases operator with
    | equal => exact (Reads.compare hkey .eq value).atom_and.and_or
    | notEqual => exact (Reads.compare hkey .ne value).atom_and.and_or
    | larger => exact (Reads.compare hkey .gt value).atom_and.and_or
    | smaller => exact (Reads.compare hkey .lt value).atom_and.and_or

theorem eval_range {row : Columns} {key : List Char} {x : ℚ} (hx : row.number key = some x)
    (v1 v2 : ℚ) :
    eval sqlite row (.and (.compare key .gt v1) (.compare key .lt v2)) = true ↔
      v1 < x ∧ x < v2 := by
  simp [eval, hx, Comparison.holds]

theorem eval_test {row : Columns} {key : List Char} {x : Int} (hx : row.number key = some (x : ℚ))
    {test : Test ℚ} (htest : test.InOrder) :
    eval sqlite row (test.expr key) = true ↔ test.Holds x := by
  cases test with
  | compare operator v =>
    cases operator <;> simp [Test.expr, CompareOperator.comparison, eval, hx,
      Comparison.holds, Test.Holds]
  | range v1 v2 =>
    rw [Test.expr, eval_range hx, Test.Holds]
    obtain hle | hlt := le_or_gt v1 v2
    · rw [min_eq_left hle, max_eq_right hle]
    · rw [min_eq_right hlt.le, max_eq_left hlt.le]
      constructor
      · rintro ⟨h1, h2⟩
        exact absurd (h1.trans h2) hlt.asymm
      · intro hx
        exact absurd hx (htest x)

theorem inOrder_of_eval {key : List Char} {test : Test ℚ} (row : Int → Columns)
    (hrow : ∀ x, (row x).number key = some (x : ℚ))
    (h : ∀ x, eval sqlite (row x) (test.expr key) = true ↔ test.Holds x) : test.InOrder := by
  cases test with
  | compare operator v => trivial
  | range v1 v2 =>
    rintro x ⟨h2, h1⟩
    have hle : v2 ≤ v1 := (h2.trans h1).le
    have hx := (h x).mpr (by
      rw [Test.Holds, min_eq_right hle, max_eq_left hle]
      exact ⟨h2, h1⟩)
    rw [Test.expr, eval_range (hrow x)] at hx
    exact absurd hx.1 h1.asymm

theorem intOfTime_eq_some {t n : Int} :
    intOfTime t = some n ↔ n = t ∧ -2 ^ 31 ≤ t ∧ t < 2 ^ 31 := by
  unfold intOfTime
  split
  · rename_i hrange
    constructor
    · intro h
      exact ⟨(Option.some.inj h).symm, hrange⟩
    · rintro ⟨rfl, -⟩
      rfl
  · rename_i hrange
    constructor
    · intro h
      exact nomatch h
    · rintro ⟨-, h⟩
      exact absurd h hrange

theorem processedTest_eq_some {clock : Clock} {test : Test Int32} {t : Test Int} :
    clock.processedTest test = some t ↔ t = test.map clock.date ∧
      ∀ value ∈ test.values, -2 ^ 31 ≤ clock.date value ∧ clock.date value < 2 ^ 31 := by
  cases test with
  | compare operator value =>
    simp only [Clock.processedTest, Option.map_eq_some_iff, Clock.processedValue, intOfTime_eq_some,
      Test.values, List.forall_mem_singleton]
    constructor
    · rintro ⟨n, ⟨rfl, hrange⟩, rfl⟩
      exact ⟨rfl, hrange⟩
    · rintro ⟨rfl, hrange⟩
      exact ⟨_, ⟨rfl, hrange⟩, rfl⟩
  | range value1 value2 =>
    simp only [Clock.processedTest, Clock.processedValue, Test.values, List.forall_mem_cons,
      List.not_mem_nil, false_imp_iff, implies_true, and_true]
    constructor
    · intro h
      split at h
      · rename_i v1 v2 h1 h2
        obtain ⟨rfl, hrange1⟩ := intOfTime_eq_some.mp h1
        obtain ⟨rfl, hrange2⟩ := intOfTime_eq_some.mp h2
        exact ⟨(Option.some.inj h).symm, hrange1, hrange2⟩
      · cases h
    · rintro ⟨rfl, hrange1, hrange2⟩
      rw [intOfTime_eq_some.mpr ⟨rfl, hrange1⟩, intOfTime_eq_some.mpr ⟨rfl, hrange2⟩]
      rfl

theorem map_intText (test : Test Int) :
    (test.map intText) = (test.map Decimal.ofInt).map Decimal.text := by
  cases test <;> rfl

theorem map_value_ofInt (clock : Clock) (test : Test Int32) :
    ((test.map clock.date).map Decimal.ofInt).map Decimal.value =
      test.map fun value => (clock.date value : ℚ) := by
  cases test <;> simp [Test.map]

theorem midnight_lt_add {clock : Clock} (d : Int) (n : Nat) :
    clock.midnight d < clock.midnight (d + (n + 1 : Nat)) := by
  induction n with
  | zero => exact clock.midnight_lt d
  | succ n ih =>
    have hnext := clock.midnight_lt (d + (n + 1 : Nat))
    rw [show d + ((n + 1 + 1 : Nat) : Int) = d + (n + 1 : Nat) + 1 by push_cast; ring]
    exact ih.trans hnext

-- Composites

/-- The text is read as an expression that holds of the rows that satisfy `P`. -/
def ReadsAs (l : Level) (s : List Char) (P : ThreadRow → Prop) : Prop :=
  ∃ e, Reads l s e ∧ ∀ row, eval sqlite row.columns e = true ↔ P row

theorem ReadsAs.paren {s : List Char} {P : ThreadRow → Prop} (h : ReadsAs .or s P) :
    ReadsAs .atom ("(".toList ++ s ++ ")".toList) P := by
  obtain ⟨e, hreads, heval⟩ := h
  exact ⟨e, hreads.paren, heval⟩

theorem ReadsAs.atom_and {s : List Char} {P : ThreadRow → Prop} (h : ReadsAs .atom s P) :
    ReadsAs .and s P := by
  obtain ⟨e, hreads, heval⟩ := h
  exact ⟨e, hreads.atom_and, heval⟩

theorem ReadsAs.and_or {s : List Char} {P : ThreadRow → Prop} (h : ReadsAs .and s P) :
    ReadsAs .or s P := by
  obtain ⟨e, hreads, heval⟩ := h
  exact ⟨e, hreads.and_or, heval⟩

theorem ReadsAs.imp {l : Level} {s : List Char} {P Q : ThreadRow → Prop} (h : ReadsAs l s P)
    (hPQ : ∀ row, P row ↔ Q row) : ReadsAs l s Q := by
  obtain ⟨e, hreads, heval⟩ := h
  exact ⟨e, hreads, fun row => (heval row).trans (hPQ row)⟩

theorem ReadsAs.and {s s' : List Char} {P Q : ThreadRow → Prop} (h : ReadsAs .atom s P)
    (h' : ReadsAs .and s' Q) :
    ReadsAs .and (s ++ " AND ".toList ++ s') fun row => P row ∧ Q row := by
  obtain ⟨e, hreads, heval⟩ := h
  obtain ⟨e', hreads', heval'⟩ := h'
  refine ⟨.and e e', hreads.and hreads', fun row => ?_⟩
  rw [eval, Bool.and_eq_true, heval row, heval' row]

theorem ReadsAs.or {s s' : List Char} {P Q : ThreadRow → Prop} (h : ReadsAs .and s P)
    (h' : ReadsAs .or s' Q) :
    ReadsAs .or (s ++ " OR ".toList ++ s') fun row => P row ∨ Q row := by
  obtain ⟨e, hreads, heval⟩ := h
  obtain ⟨e', hreads', heval'⟩ := h'
  refine ⟨.or e e', hreads.or hreads', fun row => ?_⟩
  rw [eval, Bool.or_eq_true, heval row, heval' row]

/-- The condition has a text that is read as the condition. -/
def Agrees (clock : Clock) (c : Condition) : Prop :=
  ∃ s, c.conditionString clock = some s ∧ ReadsAs .or s (c.Holds clock)

theorem Agrees.meansWhatItSays {clock : Clock} {c : Condition} (h : Agrees clock c) :
    MeansWhatItSays clock c := by
  obtain ⟨s, hs, e, hreads, heval⟩ := h
  refine ⟨s, hs, fun row => ?_⟩
  rw [selects_eq hreads]
  exact heval row

variable {clock : Clock} {s : List Char} {P : ThreadRow → Prop}

theorem readsAs_union {others : List Condition} (h : ReadsAs .or s P)
    (hothers : ∀ c ∈ others, Agrees clock c) :
    ∃ joined, joinedStrings clock SCCOperator.union.comp others = some joined ∧
      ReadsAs .and ("(".toList ++ s ++ joined ++ ")".toList)
        fun row => P row ∧ AllHold clock row others := by
  induction others generalizing s P with
  | nil =>
    refine ⟨[], by simp [joinedStrings], ?_⟩
    rw [List.append_nil]
    exact h.paren.atom_and.imp fun row => by simp [AllHold]
  | cons c others ih =>
    obtain ⟨s', hs', hc⟩ := hothers c List.mem_cons_self
    obtain ⟨joined, hjoined, hrest⟩ := ih hc fun d hd => hothers d (List.mem_cons_of_mem _ hd)
    refine ⟨SCCOperator.union.comp ++ s' ++ joined, by simp [joinedStrings, hs', hjoined], ?_⟩
    have hand := (h.paren.and hrest).imp fun row => by rw [← AllHold]
    simpa [SCCOperator.comp_union] using hand

theorem readsAs_intersection {others : List Condition} (h : ReadsAs .or s P)
    (hothers : ∀ c ∈ others, Agrees clock c) :
    ∃ joined, joinedStrings clock SCCOperator.intersection.comp others = some joined ∧
      ReadsAs .or ("(".toList ++ s ++ joined ++ ")".toList)
        fun row => P row ∨ AnyHolds clock row others := by
  induction others generalizing s P with
  | nil =>
    refine ⟨[], by simp [joinedStrings], ?_⟩
    rw [List.append_nil]
    exact h.paren.atom_and.and_or.imp fun row => by simp [AnyHolds]
  | cons c others ih =>
    obtain ⟨s', hs', hc⟩ := hothers c List.mem_cons_self
    obtain ⟨joined, hjoined, hrest⟩ := ih hc fun d hd => hothers d (List.mem_cons_of_mem _ hd)
    refine ⟨SCCOperator.intersection.comp ++ s' ++ joined,
      by simp [joinedStrings, hs', hjoined], ?_⟩
    have hor := (h.paren.atom_and.or hrest).imp fun row => by rw [← AnyHolds]
    simpa [SCCOperator.comp_intersection] using hor

theorem agrees_composit {operator : SCCOperator} {first : Condition} {others : List Condition}
    (hfirst : Agrees clock first) (hothers : ∀ c ∈ others, Agrees clock c) :
    Agrees clock (.composit operator first others) := by
  obtain ⟨s, hs, h⟩ := hfirst
  cases operator with
  | union =>
    obtain ⟨joined, hjoined, hreads⟩ := readsAs_union h hothers
    refine ⟨_, by rw [Condition.conditionString, hs, hjoined], ?_⟩
    exact hreads.and_or.imp fun row => by rw [Condition.Holds]
  | intersection =>
    obtain ⟨joined, hjoined, hreads⟩ := readsAs_intersection h hothers
    refine ⟨_, by rw [Condition.conditionString, hs, hjoined], ?_⟩
    exact hreads.imp fun row => by rw [Condition.Holds]

-- Single conditions

theorem agrees_leaf {l : SmartCondition} (h : l.Plain clock) : Agrees clock (.leaf l) := by
  cases l with
  | string target operator value =>
    obtain ⟨v, hv, hliteral, hnul⟩ := h
    have hraw : rawValue value = v := by
      unfold rawValue
      rw [hv]
      exact List.takeWhile_eq_self_iff.mpr fun c hc =>
        decide_eq_true fun hzero => hnul (hzero ▸ hc)
    refine ⟨_, by rw [Condition.conditionString, SmartCondition.conditionString], _,
      prepareStringForQuery_eq value ▸ reads_string target operator (rawValue value), fun row => ?_⟩
    simp only [Condition.Holds, SmartCondition.Holds]
    rw [eval_string, hraw, like_pattern_iff hliteral, hv]
  | number target test =>
    refine ⟨_, by rw [Condition.conditionString, SmartCondition.conditionString], _,
      reads_test target.lexes_key test, fun row => ?_⟩
    simp only [Condition.Holds, SmartCondition.Holds]
    rw [eval_test (columns_number row target) h]
  | absoluteDate target test =>
    refine ⟨_, by rw [Condition.conditionString, SmartCondition.conditionString], _,
      reads_test target.lexes_key test, fun row => ?_⟩
    simp only [Condition.Holds, SmartCondition.Holds]
    rw [eval_test (columns_date row target) h]
  | relativeDate target test =>
    obtain ⟨hrange, horder⟩ := h
    have hprocessed := processedTest_eq_some.mpr ⟨rfl, hrange⟩
    refine ⟨_, by rw [Condition.conditionString, SmartCondition.conditionString, hprocessed,
      Option.map_some, map_intText], _, reads_test target.lexes_key _, fun row => ?_⟩
    simp only [Condition.Holds, SmartCondition.Holds]
    rw [map_value_ofInt, eval_test (columns_date row target) horder]
  | days target operator => exact h.elim

def uniformRow (text : List Char) (x : Int) : ThreadRow := ⟨fun _ => text, fun _ => x, fun _ => x⟩

theorem plain_of_meansWhatItSays {l : SmartCondition} (h : MeansWhatItSays clock (.leaf l)) :
    l.Plain clock := by
  obtain ⟨s, hs, hselects⟩ := h
  rw [Condition.conditionString] at hs
  simp only [Condition.Holds] at hselects
  cases l with
  | string target operator value =>
    -- the row that has an `x` where the value has a wildcard is selected
    obtain rfl := Option.some.inj hs
    have hrow := hselects (uniformRow (sqlite.fill 'x' (rawValue value)) 0)
    rw [prepareStringForQuery_eq, selects_eq (reads_string target operator _), eval_string] at hrow
    refine plain_string_of_infix (exists_infix_of_holds operator ?_)
    rw [← Bool.not_eq_true] at *
    simpa [uniformRow, like_pattern_fill, SmartCondition.Holds] using hrow
  | number target test =>
    obtain rfl := Option.some.inj hs
    refine inOrder_of_eval (fun x => (uniformRow [] x).columns)
      (fun x => columns_number _ target) fun x => ?_
    rw [← selects_eq (reads_test target.lexes_key test)]
    exact hselects (uniformRow [] x)
  | absoluteDate target test =>
    obtain rfl := Option.some.inj hs
    refine inOrder_of_eval (fun x => (uniformRow [] x).columns)
      (fun x => columns_date _ target) fun x => ?_
    rw [← selects_eq (reads_test target.lexes_key test)]
    exact hselects (uniformRow [] x)
  | relativeDate target test =>
    obtain ⟨t, ht, rfl⟩ := Option.map_eq_some_iff.mp hs
    obtain ⟨rfl, hrange⟩ := processedTest_eq_some.mp ht
    refine ⟨hrange, inOrder_of_eval (fun x => (uniformRow [] x).columns)
      (fun x => columns_date _ target) fun x => ?_⟩
    have hrow := hselects (uniformRow [] x)
    rw [map_intText, selects_eq (reads_test target.lexes_key _), map_value_ofInt] at hrow
    exact hrow
  | days target operator =>
    -- the first second of the first day is not selected
    obtain rfl := Option.some.inj hs
    have hlt : clock.midnight (operator.firstDay clock) <
        clock.midnight (operator.firstDay clock + operator.days) := by
      cases operator with
      | today => exact midnight_lt_add _ 0
      | yesterday => exact midnight_lt_add _ 0
      | thisWeek => exact midnight_lt_add _ 6
      | lastWeek => exact midnight_lt_add _ 6
    have hrow := (hselects (uniformRow [] (operator.begineTime clock))).mpr ⟨le_rfl, hlt⟩
    rw [intText, intText, selects_eq (reads_range target.lexes_key _ _),
      eval_range (columns_date _ target)] at hrow
    simp [uniformRow] at hrow

-- Every condition

theorem Occurs.trans {c c' c'' : Condition} (h : Occurs c c') (h' : Occurs c' c'') :
    Occurs c c'' := by
  induction h' with
  | self => exact h
  | first _ ih => exact .first ih
  | other hc _ ih => exact .other hc ih

theorem agrees_of_plain : (c : Condition) → (∀ l, Occurs (.leaf l) c → l.Plain clock) →
    Agrees clock c
  | .leaf l, h => agrees_leaf (h l .self)
  | .composit _ first others, h =>
    agrees_composit (agrees_of_plain first fun l hl => h l (.first hl))
      fun c hc => agrees_of_plain c fun l hl => h l (.other hc hl)

/-- A condition and all its members mean what they say exactly when every string
is a text without `%`, `_` and NUL, no range is the wrong way round, every
relative date is in the range of `int`, and no day or week is asked for. -/
theorem meansWhatItSays_iff (clock : Clock) (c : Condition) :
    (∀ c', Occurs c' c → MeansWhatItSays clock c') ↔
      ∀ l, Occurs (.leaf l) c → l.Plain clock := by
  constructor
  · intro h l hl
    exact plain_of_meansWhatItSays (h _ hl)
  · intro h c' hc'
    exact (agrees_of_plain c' fun l hl => h l (hl.trans hc')).meansWhatItSays

def someClock : Clock where
  now := 1136073600
  today := 13149
  dayOfWeek := 0
  midnight d := d * 86400
  midnight_lt d := by omega
  dateByAdding t days hours minutes seconds :=
    t + days * 86400 + hours * 3600 + minutes * 60 + seconds

/-- The title `100x` contains `100%` for SQLite. -/
theorem not_meansWhatItSays : ¬ MeansWhatItSays someClock
    (.leaf (.string .threadName .contaions (ns "100%"))) := by
  intro h
  obtain ⟨v, hv, hliteral, -⟩ := plain_of_meansWhatItSays h
  obtain rfl :=
    Option.some.inj (hv.symm.trans (by decide : UTF8String (ns "100%") = some "100%".toList))
  exact absurd hliteral (by decide)

end BathyScaphe.Smart
