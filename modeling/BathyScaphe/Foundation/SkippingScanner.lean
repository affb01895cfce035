import BathyScaphe.Foundation.StringComponents
import BathyScaphe.Lib.Occurrence

/-!
# Scanners that skip white space

A scanner with its default settings skips white space and newlines in front of what it reads
and does not distinguish the case of letters. It is given by the text it has not read yet.
-/

namespace BathyScaphe

open NSString

/-- The parts of scanning that hold nothing for the sources: how case is folded, and whether
white space is left unread where nothing else is read. -/
structure Scanning where
  fold : UniChar → UniChar
  failed : NSString → NSString
  fold_letter : ∀ c, uc 'A' ≤ c → c ≤ uc 'Z' → fold c = fold (c + 32)
  fold_caseless : ∀ c d, isWhitespace d = true ∨ d = uc ':' → fold c = fold d → c = d
  failed_or : ∀ s, failed s = s ∨ failed s = s.dropWhile isWhitespace

/-- The text in front of the first place where `stop` holds, and the text from there on. -/
def upTo (stop : NSString → Bool) : NSString → NSString × NSString
  | [] => ([], [])
  | c :: s => if stop (c :: s) then ([], c :: s) else (c :: (upTo stop s).1, (upTo stop s).2)

theorem upTo_append (stop : NSString → Bool) (s : NSString) :
    (upTo stop s).1 ++ (upTo stop s).2 = s := by
  induction s with
  | nil => rfl
  | cons c s ih =>
    unfold upTo
    split
    · rfl
    · rw [List.cons_append, ih]

theorem stop_upTo (stop : NSString → Bool) (s : NSString) (h : (upTo stop s).2 ≠ []) :
    stop (upTo stop s).2 = true := by
  induction s with
  | nil => exact absurd rfl h
  | cons c s ih =>
    unfold upTo at h ⊢
    split at h
    · rename_i hstop
      simp [hstop]
    · rename_i hstop
      simpa [hstop] using ih h

theorem not_stop_upTo (stop : NSString → Bool) (s : NSString) {i : Nat}
    (hi : i < (upTo stop s).1.length) :
    stop (s.drop i) = false := by
  induction s generalizing i with
  | nil => cases hi
  | cons c s ih =>
    unfold upTo at hi
    split at hi
    · cases hi
    · rename_i hstop
      cases i with
      | zero => simpa using hstop
      | succ i => exact ih (Nat.lt_of_succ_lt_succ hi)

namespace Scanning

variable (scanning : Scanning)

def starts (pattern text : NSString) : Bool :=
  (text.take pattern.length).map scanning.fold == pattern.map scanning.fold

def scanString (pattern rest : NSString) : Bool × NSString :=
  let text := rest.dropWhile isWhitespace
  if scanning.starts pattern text then (true, text.drop pattern.length)
  else (false, scanning.failed rest)

def scanUpToString (pattern rest : NSString) : Option NSString × NSString :=
  let text := rest.dropWhile isWhitespace
  if (upTo (scanning.starts pattern) text).1 = [] then (none, scanning.failed rest)
  else (some (upTo (scanning.starts pattern) text).1, (upTo (scanning.starts pattern) text).2)

def scanUpToCharactersFromSet (set : UniChar → Bool) (rest : NSString) :
    Option NSString × NSString :=
  let text := rest.dropWhile isWhitespace
  if text.takeWhile (fun c => !set c) = [] then (none, scanning.failed rest)
  else (some (text.takeWhile fun c => !set c), text.dropWhile fun c => !set c)

def scanCharactersFromSet (set : UniChar → Bool) (rest : NSString) : Option NSString × NSString :=
  let text := rest.dropWhile isWhitespace
  if text.takeWhile set = [] then (none, scanning.failed rest)
  else (some (text.takeWhile set), text.dropWhile set)

variable {scanning}

theorem starts_of_standing {pattern text : NSString} (h : pattern <+: text) :
    scanning.starts pattern text = true := by
  obtain ⟨rest, rfl⟩ := h
  simp [starts]

@[simp] theorem starts_nil : scanning.starts [] text = true := rfl

@[simp] theorem starts_cons_nil : scanning.starts (d :: pattern) [] = false := rfl

@[simp] theorem starts_cons_cons : scanning.starts (d :: pattern) (c :: text) =
    (scanning.fold c == scanning.fold d && scanning.starts pattern text) := by
  simp [starts, Bool.beq_eq_decide_eq]

theorem starts_caseless {pattern : NSString}
    (h : ∀ c, ∀ d ∈ pattern, scanning.fold c = scanning.fold d → c = d)
    (text : NSString) : scanning.starts pattern text = pattern.isPrefixOf text := by
  induction pattern generalizing text with
  | nil => simp
  | cons d pattern ih =>
    cases text with
    | nil => simp
    | cons c text =>
      have hcd : (scanning.fold c == scanning.fold d) = (d == c) := by
        rw [Bool.eq_iff_iff, beq_iff_eq, beq_iff_eq]
        constructor
        · intro hfold
          exact (h c d List.mem_cons_self hfold).symm
        · rintro rfl
          rfl
      rw [starts_cons_cons, hcd, List.isPrefixOf_cons_cons, ih fun c d hd =>
        h c d (List.mem_cons_of_mem _ hd)]

theorem length_le_of_starts {pattern text : NSString} (h : scanning.starts pattern text = true) :
    pattern.length ≤ text.length := by
  induction pattern generalizing text with
  | nil => simp
  | cons d pattern ih =>
    cases text with
    | nil => simp at h
    | cons c text =>
      rw [starts_cons_cons, Bool.and_eq_true] at h
      exact Nat.succ_le_succ (ih h.2)

theorem starts_append {pattern : NSString} (h : ∀ d ∈ pattern, scanning.fold c ≠ scanning.fold d)
    (text rest : NSString) : scanning.starts pattern (text ++ c :: rest) =
      scanning.starts pattern text := by
  induction pattern generalizing text with
  | nil => simp
  | cons d pattern ih =>
    cases text with
    | nil => simp [h d List.mem_cons_self]
    | cons c' text =>
      rw [List.cons_append, starts_cons_cons, starts_cons_cons, ih fun d hd =>
        h d (List.mem_cons_of_mem _ hd)]

@[simp] theorem failed_nil : scanning.failed [] = [] := by
  obtain h | h := scanning.failed_or []
  · exact h
  · exact h

theorem dropWhile_failed (s : NSString) : (scanning.failed s).dropWhile isWhitespace =
    s.dropWhile isWhitespace := by
  obtain h | h := scanning.failed_or s
  · rw [h]
  · rw [h, List.dropWhile_idempotent]

theorem failed_eq (h : s.dropWhile isWhitespace = s) : scanning.failed s = s := by
  obtain hfailed | hfailed := scanning.failed_or s
  · exact hfailed
  · rw [hfailed, h]

/-- Where a pattern stands that begins with a character other than white space, nothing is
skipped. -/
theorem dropWhile_of_starts {pattern text : NSString}
    (h : scanning.starts (d :: pattern) text = true)
    (hd : isWhitespace d = false) : text.dropWhile isWhitespace = text := by
  cases text with
  | nil => rfl
  | cons c text =>
    apply List.dropWhile_cons_of_neg
    intro hc
    have hfold : scanning.fold d = scanning.fold c := by
      simp only [starts, List.length_cons, List.take_succ_cons, List.map_cons,
        beq_iff_eq, List.cons.injEq] at h
      exact h.1.symm
    rw [scanning.fold_caseless d c (Or.inl hc) hfold, hc] at hd
    cases hd

theorem starts_colon_cons : scanning.starts [uc ':'] (c :: s) = true ↔ c = uc ':' := by
  constructor
  · intro h
    apply scanning.fold_caseless c _ (Or.inr rfl)
    simpa [starts] using h
  · rintro rfl
    simp [starts]

theorem upTo_colon (s : NSString) :
    upTo (scanning.starts [uc ':']) s = (s.takeWhile (· != uc ':'), s.dropWhile (· != uc ':')) := by
  induction s with
  | nil => rfl
  | cons c s ih =>
    by_cases hc : c = uc ':'
    · subst hc
      rw [upTo, if_pos (starts_colon_cons.mpr rfl)]
      simp
    · rw [upTo, if_neg (mt starts_colon_cons.mp hc), ih]
      simp [hc]

end Scanning

end BathyScaphe
