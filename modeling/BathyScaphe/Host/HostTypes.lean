import Mathlib.Data.List.DropRight

/-!
# The host and the board of a board URL

The text of the URL is copied into a buffer and cut there: the host is what
stands behind the colon and its slashes, and each round writes a zero over the
last slash, until something other than a zero stands behind the cut.

Positions are those of the copy. The buffer may go on behind the copy with
what earlier callers left, but that is never looked at: a look or a write
there is `outside`.
-/

namespace BathyScaphe.Host.HostTypes

structure CString where
  bytes : List UInt8
  noZero : 0 ∉ bytes

structure URLStrings where
  absoluteString : CString
  scheme : Option CString

inductive Failure where
  | outside
  /-- The rounds that were given are used up. -/
  | timeout
  deriving DecidableEq

def slash : UInt8 := 47

def colon : UInt8 := 58

def read (copy : List UInt8) (p : Nat) : Except Failure UInt8 :=
  match copy[p]? with
  | some c => .ok c
  | none => .error .outside

def write (copy : List UInt8) (p : Nat) (c : UInt8) : Except Failure (List UInt8) :=
  if p < copy.length then .ok (copy.set p c) else .error .outside

def stringAt (copy : List UInt8) (p : Nat) : Except Failure (List UInt8) :=
  if 0 ∈ copy.drop p then .ok ((copy.drop p).takeWhile (· ≠ 0)) else .error .outside

def lastIndex (c : UInt8) : List UInt8 → Option Nat
  | [] => none
  | x :: xs =>
    match lastIndex c xs with
    | some i => some (i + 1)
    | none => if x = c then some 0 else none

def strrchr (copy : List UInt8) (p : Nat) (c : UInt8) : Except Failure (Option Nat) := do
  let s ← stringAt copy p
  .ok ((lastIndex c s).map (p + ·))

def skipSlashes (copy : List UInt8) : Nat → Nat → Except Failure Nat
  | 0, _ => .error .timeout
  | rounds + 1, host => do
    let c ← read copy host
    if c = slash then skipSlashes copy rounds (host + 1) else .ok host

def cutSlashes (host : Nat) : Nat → List UInt8 → Except Failure (List UInt8 × Option Nat)
  | 0, _ => .error .timeout
  | rounds + 1, copy => do
    match ← strrchr copy host slash with
    | none => .ok (copy, none)
    | some p => do
      let copy ← write copy p 0
      let c ← read copy (p + 1)
      if c ≠ 0 then .ok (copy, some (p + 1)) else cutSlashes host rounds copy

structure Parts where
  copy : List UInt8
  host : Nat
  bbs : Option Nat

/-- `none` is `NULL`. Each loop is given so many rounds. -/
def CMRGetHostCStringFromBoardURL (rounds : Nat) (anURL : Option URLStrings) :
    Except Failure (Option Parts) :=
  match anURL with
  | none => .ok none
  | some anURL =>
    let copy := anURL.absoluteString.bytes ++ [0]
    match anURL.scheme with
    | none => .ok none
    | some scheme => do
      let c ← read copy scheme.bytes.length
      if c ≠ colon then .ok none
      else do
        let host ← skipSlashes copy rounds (scheme.bytes.length + 1)
        let (copy, bbs) ← cutSlashes host rounds copy
        .ok (some ⟨copy, host, bbs⟩)

-- The parts of a URL

def nonemptyParts (s : List UInt8) : List (List UInt8) :=
  (s.splitOn slash).filter fun part => !part.isEmpty

def pathParts (rest : List UInt8) : List (List UInt8) := (nonemptyParts rest).tail

def isSlash (c : UInt8) : Bool := c = slash

def core (rest : List UInt8) : List UInt8 := (rest.dropWhile isSlash).rdropWhile isSlash

def ofText (scheme rest : CString) : URLStrings where
  absoluteString := ⟨scheme.bytes ++ colon :: rest.bytes, by
    simp [scheme.noZero, rest.noZero, colon]⟩
  scheme := some scheme

def Parts.hostString (parts : Parts) : Except Failure (List UInt8) := stringAt parts.copy parts.host

def Parts.bbsString (parts : Parts) : Except Failure (Option (List UInt8)) :=
  match parts.bbs with
  | none => .ok none
  | some p => (stringAt parts.copy p).map some

/-- The host `h` and the board `b` of what stands behind the colon. -/
structure Splits (rest h : List UInt8) (b : Option (List UInt8)) : Prop where
  board : b = (pathParts rest).getLast?
  whole : ∃ n, core rest = h ++ (List.replicate n slash ++ b.getD []) ∧ (n = 0 ↔ b = none)
  noSlash : ∀ part ∈ b, slash ∉ part

section
variable {c : UInt8} {s pre zs rest h b : List UInt8}

-- Looks and writes inside the copy

theorem read_append (pre s : List UInt8) (c : UInt8) : read (pre ++ c :: s) pre.length = .ok c := by
  simp [read]

theorem write_append (pre s : List UInt8) (x c : UInt8) : write (pre ++ x :: s) pre.length c = .ok
    (pre ++ c :: s) := by
  simp [write]

theorem stringAt_append (pre zs : List UInt8) (h : 0 ∉ s) :
    stringAt (pre ++ (s ++ 0 :: zs)) pre.length = .ok s := by
  have htake : (s ++ 0 :: zs).takeWhile (· ≠ 0) = s := by
    rw [List.takeWhile_append_of_pos]
    · simp
    · intro c hc
      simpa using fun hzero : c = 0 => h (hzero ▸ hc)
  rw [stringAt, List.drop_left, if_pos (by simp), htake]

theorem lastIndex_of_not_mem (h : c ∉ s) : lastIndex c s = none := by
  induction s with
  | nil => rfl
  | cons x s ih =>
    rw [List.mem_cons, not_or] at h
    simp [lastIndex, ih h.2, Ne.symm h.1]

theorem lastIndex_append (h : c ∉ t) : lastIndex c (s ++ c :: t) = some s.length := by
  induction s with
  | nil => simp [lastIndex, lastIndex_of_not_mem h]
  | cons x s ih => simp [lastIndex, ih]

theorem eq_append_last (h : c ∈ s) : ∃ s' t, s = s' ++ c :: t ∧ c ∉ t := by
  obtain ⟨t, s', hreverse, ht⟩ := List.eq_append_cons_of_mem (List.mem_reverse.mpr h)
  refine ⟨s'.reverse, t.reverse, ?_, by simpa using ht⟩
  rw [← List.reverse_reverse s, hreverse]
  simp

-- The loops

theorem skipSlashes_eq (pre : List UInt8) (h : 0 ∉ rest) (hrounds : rest.length < rounds) :
    skipSlashes (pre ++ (rest ++ [0])) rounds pre.length =
      .ok (pre ++ rest.takeWhile isSlash).length := by
  induction rest generalizing pre rounds with
  | nil =>
    obtain ⟨rounds, rfl⟩ := Nat.exists_eq_succ_of_ne_zero (Nat.ne_of_gt hrounds)
    rw [skipSlashes, List.nil_append, read_append]
    simp [bind, Except.bind, slash]
  | cons c rest ih =>
    obtain ⟨rounds, rfl⟩ := Nat.exists_eq_succ_of_ne_zero (Nat.ne_of_gt (Nat.zero_lt_of_lt hrounds))
    rw [skipSlashes, List.cons_append, read_append]
    by_cases hc : c = slash
    · have hnext := ih (pre ++ [c]) (fun hmem => h (List.mem_cons_of_mem c hmem))
        (Nat.lt_of_succ_lt_succ hrounds)
      rw [List.append_assoc, List.length_append] at hnext
      show (if c = slash then _ else _) = _
      rw [if_pos hc, List.takeWhile_cons_of_pos (by simpa [isSlash] using hc)]
      simpa using hnext
    · show (if c = slash then _ else _) = _
      rw [if_neg hc, List.takeWhile_cons_of_neg (by simpa [isSlash] using hc)]
      simp

theorem rdropWhile_of_last (hc : c ≠ slash) : (s ++ [c]).rdropWhile isSlash = s ++ [c] :=
  List.rdropWhile_concat_neg _ _ _ (by simpa [isSlash] using hc)

theorem cutSlashes_of_not_mem (hs : 0 ∉ s) (h : slash ∉ s) :
    cutSlashes pre.length (rounds + 1) (pre ++ (s ++ 0 :: zs)) =
      .ok (pre ++ (s ++ 0 :: zs), none) := by
  rw [cutSlashes, strrchr, stringAt_append pre zs hs]
  simp [bind, Except.bind, lastIndex_of_not_mem h]

theorem cutSlashes_cut (hs : 0 ∉ s ++ slash :: b) (h : slash ∉ b) (hcut : b ++ 0 :: zs = c :: zs') :
    cutSlashes pre.length (rounds + 1) (pre ++ (s ++ slash :: b ++ 0 :: zs)) =
      if c ≠ 0 then .ok (pre ++ (s ++ 0 :: c :: zs'), some (pre ++ (s ++ [0])).length)
      else cutSlashes pre.length rounds (pre ++ (s ++ 0 :: c :: zs')) := by
  have hwrite : write (pre ++ (s ++ slash :: (b ++ 0 :: zs))) (pre.length + s.length) 0 =
      .ok (pre ++ (s ++ 0 :: c :: zs')) := by
    simpa [hcut] using write_append (pre ++ s) (b ++ 0 :: zs) slash 0
  have hread : read (pre ++ (s ++ 0 :: c :: zs')) (pre.length + (s.length + 1)) = .ok c := by
    have hread := read_append (pre ++ (s ++ [0])) zs' c
    rwa [List.length_append, List.length_append, List.append_assoc, List.append_assoc] at hread
  rw [cutSlashes, strrchr, stringAt_append pre zs hs]
  simp [bind, Except.bind, lastIndex_append h, hwrite, hread, Nat.add_assoc]

/-- Each round takes one slash from the end, until there is none or a board
stands behind it. -/
theorem cutSlashes_eq (pre : List UInt8) (hs : 0 ∉ s) (zs : List UInt8) :
    (slash ∉ s.rdropWhile isSlash ∧ ∃ zs', ∀ rounds > s.length,
        cutSlashes pre.length rounds (pre ++ (s ++ 0 :: zs)) =
          .ok (pre ++ (s.rdropWhile isSlash ++ 0 :: zs'), none)) ∨
      ∃ h b zs', s.rdropWhile isSlash = h ++ slash :: b ∧ slash ∉ b ∧ b ≠ [] ∧
        ∀ rounds > s.length, cutSlashes pre.length rounds (pre ++ (s ++ 0 :: zs)) =
          .ok (pre ++ (h ++ 0 :: (b ++ 0 :: zs')), some (pre ++ (h ++ [0])).length) := by
  have hsucc : ∀ {n rounds : Nat}, rounds > n → ∃ r, rounds = r + 1 ∧ r ≥ n := fun hlt =>
    ⟨_, (Nat.succ_pred_eq_of_pos (Nat.zero_lt_of_lt hlt)).symm, Nat.le_pred_of_lt hlt⟩
  induction s using List.reverseRecOn generalizing zs with
  | nil =>
    refine .inl ⟨by simp, zs, fun rounds hrounds => ?_⟩
    obtain ⟨r, rfl, -⟩ := hsucc hrounds
    exact cutSlashes_of_not_mem hs List.not_mem_nil
  | append_singleton s c ih =>
    by_cases hc : c = slash
    · subst hc
      have hcut : ∀ r, cutSlashes pre.length (r + 1) (pre ++ (s ++ [slash] ++ 0 :: zs)) =
          cutSlashes pre.length r (pre ++ (s ++ 0 :: 0 :: zs)) := fun r =>
        (cutSlashes_cut hs List.not_mem_nil rfl).trans (if_neg (by simp))
      rw [List.rdropWhile_concat_pos _ _ _ (by simp [isSlash])]
      refine (ih (fun hzero => hs (List.mem_append_left _ hzero)) (0 :: zs)).imp ?_ ?_
      · rintro ⟨hmem, zs', hzs'⟩
        refine ⟨hmem, zs', fun rounds hrounds => ?_⟩
        obtain ⟨r, rfl, hr⟩ := hsucc hrounds
        rw [hcut, hzs' r (by simpa [Nat.succ_le_iff] using hr)]
      · rintro ⟨h, b, zs', hsplit, hb, hne, hzs'⟩
        refine ⟨h, b, zs', hsplit, hb, hne, fun rounds hrounds => ?_⟩
        obtain ⟨r, rfl, hr⟩ := hsucc hrounds
        rw [hcut, hzs' r (by simpa [Nat.succ_le_iff] using hr)]
    · rw [rdropWhile_of_last hc]
      by_cases hmem : slash ∈ s ++ [c]
      · obtain ⟨h, b, hsplit, hb⟩ := eq_append_last hmem
        cases b with
        | nil =>
          have hlast := congrArg List.getLast? hsplit
          simp [hc] at hlast
        | cons x b =>
          have hx : x ≠ 0 := by
            rintro rfl
            exact hs (by simp [hsplit])
          refine .inr ⟨h, x :: b, zs, hsplit, hb, List.cons_ne_nil x b, fun rounds hrounds => ?_⟩
          obtain ⟨r, rfl, -⟩ := hsucc hrounds
          rw [hsplit]
          exact (cutSlashes_cut (hsplit ▸ hs) hb rfl).trans (if_pos hx)
      · refine .inl ⟨hmem, zs, fun rounds hrounds => ?_⟩
        obtain ⟨r, rfl, -⟩ := hsucc hrounds
        exact cutSlashes_of_not_mem hs hmem

-- The parts

theorem nonemptyParts_append (s t : List UInt8) :
    nonemptyParts (s ++ slash :: t) = nonemptyParts s ++ nonemptyParts t := by
  simp [nonemptyParts, List.splitOn_append_cons_self]

theorem nonemptyParts_of_not_mem (hne : s ≠ []) (h : slash ∉ s) : nonemptyParts s = [s] := by
  simp [nonemptyParts, List.splitOn_eq_singleton h, hne]

theorem nonemptyParts_dropWhile (s : List UInt8) :
    nonemptyParts (s.dropWhile isSlash) = nonemptyParts s := by
  induction s with
  | nil => rfl
  | cons c s ih =>
    by_cases hc : isSlash c = true
    · have hslash : c = slash := by simpa [isSlash] using hc
      have hcons := nonemptyParts_append [] s
      rw [List.dropWhile_cons_of_pos hc, ih, hslash]
      exact hcons.symm
    · rw [List.dropWhile_cons_of_neg hc]

theorem nonemptyParts_rdropWhile (s : List UInt8) :
    nonemptyParts (s.rdropWhile isSlash) = nonemptyParts s := by
  induction s using List.reverseRecOn with
  | nil => rfl
  | append_singleton s c ih =>
    by_cases hc : isSlash c = true
    · have hslash : c = slash := by simpa [isSlash] using hc
      have hconcat := nonemptyParts_append s []
      rw [List.rdropWhile_concat_pos _ _ _ hc, ih, hslash, hconcat]
      exact (List.append_nil _).symm
    · rw [List.rdropWhile_concat_neg _ _ _ hc]

theorem nonemptyParts_core (rest : List UInt8) :
    nonemptyParts (core rest) = nonemptyParts rest := by
  rw [core, nonemptyParts_rdropWhile, nonemptyParts_dropWhile]

theorem nonemptyParts_ne_nil (hc : c ≠ slash) (s : List UInt8) : nonemptyParts (c :: s) ≠ [] := by
  by_cases hmem : slash ∈ s
  · obtain ⟨s', t, rfl, hs'⟩ := List.eq_append_cons_of_mem hmem
    have hfirst := nonemptyParts_of_not_mem (List.cons_ne_nil c s') (by simp [hc.symm, hs'])
    rw [← List.cons_append, nonemptyParts_append, hfirst]
    exact List.cons_ne_nil _ _
  · rw [nonemptyParts_of_not_mem (List.cons_ne_nil c s) (by simp [hc.symm, hmem])]
    exact List.cons_ne_nil _ _

theorem head_core_ne (h : core rest = c :: s) : c ≠ slash := by
  obtain ⟨t, ht⟩ : core rest <+: rest.dropWhile isSlash := List.rdropWhile_prefix isSlash _
  have hhead := List.head?_dropWhile_not isSlash rest
  rw [← ht, h] at hhead
  simpa [isSlash] using hhead

/-- The strings that the rounds leave are the host and the board. -/
theorem splits_of_core (h : core rest = s ++ slash :: b) (hb : slash ∉ b) (hne : b ≠ []) :
    Splits rest s (some b) where
  board := by
    have hparts : nonemptyParts s ≠ [] := by
      cases s with
      | nil => exact absurd rfl (head_core_ne h)
      | cons c s => exact nonemptyParts_ne_nil (head_core_ne h) s
    rw [pathParts, ← nonemptyParts_core, h, nonemptyParts_append, nonemptyParts_of_not_mem hne hb,
      List.tail_append_of_ne_nil hparts, List.getLast?_concat]
  whole := ⟨1, by simpa using h, by simp⟩
  noSlash := by simpa using hb

theorem splits_of_not_mem (h : slash ∉ core rest) : Splits rest (core rest) none where
  board := by
    rw [pathParts, ← nonemptyParts_core]
    by_cases hnil : core rest = []
    · rw [hnil]
      rfl
    · rw [nonemptyParts_of_not_mem hnil h]
      rfl
  whole := ⟨0, by simp, by simp⟩
  noSlash := nofun

-- The whole function

def inFront (scheme rest : CString) : List UInt8 :=
  scheme.bytes ++ colon :: rest.bytes.takeWhile isSlash

theorem ofText_bytes (scheme rest : CString) : (ofText scheme rest).absoluteString.bytes ++ [0] =
    inFront scheme rest ++ (rest.bytes.dropWhile isSlash ++ 0 :: []) := by
  have htext := List.takeWhile_append_dropWhile (p := isSlash) (l := rest.bytes)
  simp only [ofText, inFront, List.append_assoc, List.cons_append]
  rw [← List.append_assoc (rest.bytes.takeWhile isSlash), htext]

theorem boardURL_eq (scheme rest : CString) (hrounds : rounds > rest.bytes.length) :
    CMRGetHostCStringFromBoardURL rounds (some (ofText scheme rest)) =
      (cutSlashes (inFront scheme rest).length rounds
        (inFront scheme rest ++ (rest.bytes.dropWhile isSlash ++ 0 :: []))).map
          fun cut => some ⟨cut.1, (inFront scheme rest).length, cut.2⟩ := by
  have hread : read ((ofText scheme rest).absoluteString.bytes ++ [0]) scheme.bytes.length =
      .ok colon := by
    simpa [ofText] using read_append scheme.bytes (rest.bytes ++ [0]) colon
  have hskip : skipSlashes ((ofText scheme rest).absoluteString.bytes ++ [0]) rounds
      (scheme.bytes.length + 1) = .ok (inFront scheme rest).length := by
    simpa [ofText, inFront] using
      skipSlashes_eq (scheme.bytes ++ [colon]) rest.noZero hrounds
  have hscheme : (ofText scheme rest).scheme = some scheme := rfl
  rw [← ofText_bytes]
  simp only [CMRGetHostCStringFromBoardURL, hscheme]
  simp only [bind, Except.bind, hread, hskip, ne_eq, not_true, if_false]
  cases cutSlashes (inFront scheme rest).length rounds
    ((ofText scheme rest).absoluteString.bytes ++ [0]) <;> rfl

/-- With rounds for every byte the function ends inside the copy, and returns
the host and the board. -/
theorem boardURL_splits (scheme rest : CString) :
    ∃ parts h b, (∀ rounds > rest.bytes.length,
        CMRGetHostCStringFromBoardURL rounds (some (ofText scheme rest)) = .ok (some parts)) ∧
      parts.hostString = .ok h ∧ parts.bbsString = .ok b ∧ Splits rest.bytes h b := by
  have hlength : (rest.bytes.dropWhile isSlash).length ≤ rest.bytes.length :=
    (List.dropWhile_suffix isSlash).length_le
  have hzero : 0 ∉ rest.bytes.dropWhile isSlash := fun hmem =>
    rest.noZero ((List.dropWhile_suffix isSlash).subset hmem)
  have hcore : 0 ∉ core rest.bytes := fun hmem =>
    hzero ((List.rdropWhile_prefix isSlash _).subset hmem)
  rcases cutSlashes_eq (inFront scheme rest) hzero [] with
    ⟨hmem, zs, hcut⟩ | ⟨h, b, zs, hsplit, hb, hne, hcut⟩
  · refine ⟨⟨inFront scheme rest ++ (core rest.bytes ++ 0 :: zs),
      (inFront scheme rest).length, none⟩,
      core rest.bytes, none, fun rounds hrounds => ?_, stringAt_append _ _ hcore, rfl,
      splits_of_not_mem hmem⟩
    rw [boardURL_eq scheme rest hrounds, hcut rounds (by omega)]
    rfl
  · have hparts : core rest.bytes = h ++ slash :: b := hsplit
    rw [hparts, List.mem_append, List.mem_cons, not_or, not_or] at hcore
    refine ⟨⟨inFront scheme rest ++ (h ++ 0 :: (b ++ 0 :: zs)), (inFront scheme rest).length,
      some (inFront scheme rest ++ (h ++ [0])).length⟩, h, some b, fun rounds hrounds => ?_,
      stringAt_append _ _ hcore.1, ?_, splits_of_core hparts hb hne⟩
    · rw [boardURL_eq scheme rest hrounds, hcut rounds (by omega)]
      rfl
    · have hboard := stringAt_append (inFront scheme rest ++ (h ++ [0])) zs hcore.2.2
      simp only [List.append_assoc, List.cons_append, List.nil_append] at hboard
      simp only [Parts.bbsString, hboard]
      rfl

end

end BathyScaphe.Host.HostTypes
