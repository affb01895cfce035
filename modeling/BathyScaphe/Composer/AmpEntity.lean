import BathyScaphe.Database.SubjectText
import BathyScaphe.Foundation.Search

/-!
# Ampersand references without their end

`resolveInvalidAmpEntity` writes the missing `;` behind `&amp`. It compares the next
unit without its high bits, so a unit such as `セ` counts as the `;`, and it stops at
an `&amp` that ends the text.
-/

namespace BathyScaphe.Composer

open NSString Database

def kInvalidAmpEntity : NSString := ns "&amp"
def kAmpEntity : NSString := ns "&amp;"
def kAmpEntityLength : Nat := 4

/-- The loop of `resolveInvalidAmpEntity`; the text is searched from `location` to its end. -/
def resolveInvalidAmpEntityFrom (src : NSString) (location : Nat) : NSString :=
  match _hresult : src.rangeOfString kInvalidAmpEntity (src.rangeFrom location) with
  | none => src
  | some result =>
    match src[result.max]? with
    | none => src
    | some next =>
      if next &&& 0x7f ≠ uc ';' then
        resolveInvalidAmpEntityFrom (src.replaceCharactersInRange result kAmpEntity)
          (result.location + kAmpEntityLength)
      else
        resolveInvalidAmpEntityFrom src result.max
termination_by src.length - location
decreasing_by
  all_goals
    obtain ⟨hlocation, hlength, hmax⟩ := max_rangeOfString_rangeFrom _hresult
    have hfour : kInvalidAmpEntity.length = 4 := rfl
    have hfive : kAmpEntity.length = 5 := rfl
    rw [NSRange.max] at *
  · rw [replaceCharactersInRange, NSRange.max]
    simp only [List.length_append, List.length_take, List.length_drop, kAmpEntityLength]
    omega
  · omega

def resolveInvalidAmpEntity (src : NSString) : NSString := resolveInvalidAmpEntityFrom src 0

-- From one reference to the next

def missing (v : NSString) : NSString := if v.head?.any (fun c => c &&& 0x7f != uc ';')
    then [uc ';'] else []

variable {s u v w : NSString}

theorem kInvalidAmpEntity_ne_nil : kInvalidAmpEntity ≠ [] := by decide

theorem resolveAmpFrom_of_absent (h : ¬ kInvalidAmpEntity <:+: s) : resolveAmpFrom 0 s = s := by
  induction s with
  | nil => rfl
  | cons c s ih =>
    have hhere : ¬ ns "&amp" <+: c :: s := fun hstarts => h hstarts.isInfix
    rw [resolveAmpFrom, if_neg hhere, ih fun hinside =>
      h (hinside.trans (List.suffix_cons c s).isInfix)]

theorem resolveAmpFrom_amp (v : NSString) :
    resolveAmpFrom 0 (kInvalidAmpEntity ++ v) = kInvalidAmpEntity ++
      (missing v ++ resolveAmpFrom 0 v) := by
  have hamp : kInvalidAmpEntity = [uc '&', uc 'a', uc 'm', uc 'p'] := rfl
  have hstarts : ns "&amp" <+: uc '&' :: uc 'a' :: uc 'm' :: uc 'p' :: v :=
    List.prefix_append (ns "&amp") v
  rw [hamp]
  simp only [List.cons_append, List.nil_append]
  rw [resolveAmpFrom, if_pos hstarts, resolveAmpFrom, if_neg (by simp), resolveAmpFrom,
    if_neg (by simp),
    resolveAmpFrom, missing]
  by_cases hmissing : v.head?.any (fun c => c &&& 0x7f != uc ';') = true
  · rw [if_pos ⟨rfl, hmissing⟩, if_pos hmissing]
    rfl
  · rw [if_neg fun h => hmissing h.2, if_neg hmissing]
    rfl

theorem resolveAmpFrom_of_isFirst (h : Occurrence.IsFirst kInvalidAmpEntity u v) :
    resolveAmpFrom 0 (u ++ (kInvalidAmpEntity ++ v)) =
      u ++ (kInvalidAmpEntity ++ (missing v ++ resolveAmpFrom 0 v)) := by
  induction u with
  | nil => exact resolveAmpFrom_amp v
  | cons c u ih =>
    obtain ⟨hhere, hlater⟩ := Occurrence.isFirst_cons.mp h
    have hcons : ¬ ns "&amp" <+: c :: (u ++ (kInvalidAmpEntity ++ v)) := hhere
    rw [List.cons_append, resolveAmpFrom, if_neg hcons, ih hlater]
    rfl

theorem resolveAmpFrom_semicolon (v : NSString) :
    resolveAmpFrom 0 (uc ';' :: v) = uc ';' :: resolveAmpFrom 0 v := by
  rw [resolveAmpFrom, if_neg]
  intro hstarts
  exact absurd (List.cons_prefix_cons.mp hstarts).1 (by decide)

/-- The loop does to the text from its location on what the reading of titles does. -/
theorem resolveInvalidAmpEntityFrom_eq (src : NSString) (location : Nat) :
    resolveInvalidAmpEntityFrom src location = src.take location ++ resolveAmpFrom 0
      (src.drop location) := by
  fun_induction resolveInvalidAmpEntityFrom src location with
  | case1 src location hnone =>
    rw [rangeOfString_eq_none_iff kInvalidAmpEntity_ne_nil, substringWithRange_rangeFrom] at hnone
    rw [resolveAmpFrom_of_absent hnone, List.take_append_drop]
  | case2 src location result hresult hend =>
    obtain ⟨done, u, v, rfl, rfl, rfl, hfirst⟩ := rangeOfString_rangeFrom_eq_some hresult
    rw [getElem?_max_append] at hend
    obtain rfl : v = [] := List.head?_eq_none_iff.mp hend
    rw [List.append_assoc, List.take_left, List.drop_left, resolveAmpFrom_of_isFirst hfirst]
    rfl
  | case3 src location result hresult next hnext hmissing ih =>
    obtain ⟨done, u, v, rfl, rfl, rfl, hfirst⟩ := rangeOfString_rangeFrom_eq_some hresult
    rw [getElem?_max_append] at hnext
    have hreplaced : done ++ u ++ kAmpEntity ++ v = (done ++ u ++ kInvalidAmpEntity) ++
      (uc ';' :: v) := by
      rw [List.append_assoc, List.append_assoc (done ++ u) kInvalidAmpEntity]
      rfl
    have hlength : (done ++ u).length + kAmpEntityLength =
      (done ++ u ++ kInvalidAmpEntity).length :=
      @List.length_append _ (done ++ u) kInvalidAmpEntity |>.symm
    rw [replaceCharactersInRange_append, hreplaced, hlength, List.take_left, List.drop_left,
      resolveAmpFrom_semicolon] at ih
    rw [replaceCharactersInRange_append, hreplaced, hlength, ih]
    simp only [List.append_assoc]
    rw [List.take_left, List.drop_left, resolveAmpFrom_of_isFirst hfirst, missing, hnext,
      if_pos (by simpa using hmissing)]
    rfl
  | case4 src location result hresult next hnext hpresent ih =>
    obtain ⟨done, u, v, rfl, rfl, rfl, hfirst⟩ := rangeOfString_rangeFrom_eq_some hresult
    rw [getElem?_max_append] at hnext
    rw [NSRange.max, ← List.length_append, ← List.append_assoc, List.take_left,
      List.drop_left] at ih
    rw [NSRange.max, ← List.length_append, ← List.append_assoc, ih]
    simp only [List.append_assoc]
    rw [List.take_left, List.drop_left, resolveAmpFrom_of_isFirst hfirst, missing, hnext,
      if_neg (by simpa using hpresent), List.nil_append]

theorem resolveInvalidAmpEntity_eq (src : NSString) :
    resolveInvalidAmpEntity src = Database.resolveInvalidAmpEntity src := by
  rw [resolveInvalidAmpEntity, resolveInvalidAmpEntityFrom_eq]
  rfl

-- What follows the references

def BehindAmp (P : NSString → Prop) (s : NSString) : Prop := ∀ v, kInvalidAmpEntity ++ v <:+ s → P v

def IsComplete (s : NSString) : Prop := BehindAmp (fun v => v.head? = some (uc ';')) s

/-- `t` is `s` with a `;` behind some of the `&amp` that have none. -/
inductive Completes : NSString → NSString → Prop
  | nil : Completes [] []
  | keep {c : UniChar} {s t : NSString} : Completes s t → Completes (c :: s) (c :: t)
  | insert {s t : NSString} :
    s.head? ≠ some (uc ';') → Completes s t → Completes (kInvalidAmpEntity ++ s) (kAmpEntity ++ t)

variable {P : NSString → Prop} {c : UniChar}

theorem behindAmp_cons (hc : c ≠ uc '&') : BehindAmp P (c :: s) ↔ BehindAmp P s := by
  refine forall_congr' fun v => imp_congr_left ?_
  rw [List.suffix_cons_iff]
  refine ⟨fun h => h.resolve_left fun heq => ?_, Or.inr⟩
  exact hc (List.cons.inj heq).1.symm

theorem behindAmp_of_absent (h : ¬ kInvalidAmpEntity <:+: s) : BehindAmp P s :=
  fun v hv => absurd ((List.prefix_append _ v).isInfix.trans hv.isInfix) h

theorem behindAmp_amp (v : NSString) : BehindAmp P (kInvalidAmpEntity ++ v) ↔
    P v ∧ BehindAmp P v := by
  have hcons : BehindAmp P (uc 'a' :: uc 'm' :: uc 'p' :: v) ↔ BehindAmp P v := by
    rw [behindAmp_cons (by decide), behindAmp_cons (by decide), behindAmp_cons (by decide)]
  rw [← hcons]
  constructor
  · exact fun h => ⟨h v (List.suffix_refl _), fun w hw => h w (hw.trans (List.suffix_cons _ _))⟩
  · rintro ⟨hhere, hlater⟩ w hw
    obtain heq | hsuffix := List.suffix_cons_iff.mp hw
    · rwa [List.append_cancel_left heq]
    · exact hlater w hsuffix

theorem behindAmp_of_isFirst (h : Occurrence.IsFirst kInvalidAmpEntity u v) :
    BehindAmp P (u ++ (kInvalidAmpEntity ++ v)) ↔ P v ∧ BehindAmp P v := by
  induction u with
  | nil => exact behindAmp_amp v
  | cons c u ih =>
    obtain ⟨hhere, hlater⟩ := Occurrence.isFirst_cons.mp h
    rw [← ih hlater]
    refine forall_congr' fun w => imp_congr_left ?_
    rw [List.cons_append, List.suffix_cons_iff]
    refine ⟨fun h => h.resolve_left fun heq => ?_, Or.inr⟩
    exact hhere ⟨w, heq⟩

theorem behindAmp_missing (v w : NSString) : BehindAmp P (missing v ++ w) ↔ BehindAmp P w := by
  rw [missing]
  split
  · exact behindAmp_cons (by decide)
  · rfl

-- What the repair gives

theorem Completes.refl (s : NSString) : Completes s s := by
  induction s with
  | nil => exact .nil
  | cons c s ih => exact .keep ih

theorem Completes.append_left (h : Completes v w) (u : NSString) : Completes (u ++ v) (u ++ w) := by
  induction u with
  | nil => exact h
  | cons c u ih => exact .keep ih

theorem completes_resolveAmpFrom (s : NSString) : Completes s (resolveAmpFrom 0 s) := by
  induction s using Occurrence.induction kInvalidAmpEntity_ne_nil with
  | hnone s h =>
    rw [resolveAmpFrom_of_absent h]
    exact .refl s
  | hfirst u v hfirst ih =>
    rw [resolveAmpFrom_of_isFirst hfirst]
    apply Completes.append_left
    rw [missing]
    split
    · rename_i hmissing
      refine .insert (fun hhead => ?_) ih
      rw [hhead] at hmissing
      exact absurd hmissing (by decide)
    · exact ih.append_left kInvalidAmpEntity

theorem head?_resolveAmpFrom (v : NSString) : (resolveAmpFrom 0 v).head? = v.head? := by
  cases v with
  | nil => rfl
  | cons c v => rfl

theorem missing_resolved (v : NSString) : missing (missing v ++ resolveAmpFrom 0 v) = [] := by
  by_cases h : v.head?.any (fun c => c &&& 0x7f != uc ';') = true
  · rw [missing, missing, if_pos h]
    rfl
  · have hmissing : missing v = [] := if_neg h
    rw [hmissing, List.nil_append, missing, head?_resolveAmpFrom, if_neg h]

theorem resolveAmpFrom_resolved (s : NSString) :
    resolveAmpFrom 0 (resolveAmpFrom 0 s) = resolveAmpFrom 0 s := by
  induction s using Occurrence.induction kInvalidAmpEntity_ne_nil with
  | hnone s h => rw [resolveAmpFrom_of_absent h, resolveAmpFrom_of_absent h]
  | hfirst u v hfirst ih =>
    have hrest : resolveAmpFrom 0 (missing v ++ resolveAmpFrom 0 v) =
      missing v ++ resolveAmpFrom 0 v := by
      rw [missing]
      split
      · rw [List.cons_append, resolveAmpFrom_semicolon, List.nil_append, ih]
      · exact ih
    rw [resolveAmpFrom_of_isFirst hfirst, resolveAmpFrom_of_isFirst (hfirst.congr _),
      missing_resolved, hrest, List.nil_append]

/-- A unit follows, and it is no other unit that the loop takes for `;`. -/
def IsSeen (v : NSString) : Prop := ∃ c, v.head? = some c ∧ (c &&& 0x7f = uc ';' → c = uc ';')

theorem head?_missing_iff (v : NSString) :
    (missing v ++ resolveAmpFrom 0 v).head? = some (uc ';') ↔ IsSeen v := by
  cases v with
  | nil =>
    constructor
    · intro h
      cases h
    · rintro ⟨c, hc, -⟩
      cases hc
  | cons c v =>
    have hany : (c :: v).head?.any (fun c => c &&& 0x7f != uc ';') = true ↔
      c &&& 0x7f ≠ uc ';' := by
      rw [List.head?_cons, Option.any_some, bne_iff_ne]
    have hseen : IsSeen (c :: v) ↔ (c &&& 0x7f = uc ';' → c = uc ';') := by
      simp only [IsSeen, List.head?_cons, Option.some.injEq, exists_eq_left']
    rw [hseen, missing]
    by_cases hmissing : c &&& 0x7f = uc ';'
    · rw [if_neg fun h => hany.mp h hmissing, List.nil_append, head?_resolveAmpFrom,
        List.head?_cons, Option.some.injEq]
      exact ⟨fun h _ => h, fun h => h hmissing⟩
    · rw [if_pos (hany.mpr hmissing)]
      exact ⟨fun _ h => absurd h hmissing, fun _ => rfl⟩

theorem isComplete_resolveAmpFrom_iff (s : NSString) : IsComplete (resolveAmpFrom 0 s) ↔
    BehindAmp IsSeen s := by
  induction s using Occurrence.induction kInvalidAmpEntity_ne_nil with
  | hnone s h =>
    rw [resolveAmpFrom_of_absent h]
    exact ⟨fun _ => behindAmp_of_absent h, fun _ => behindAmp_of_absent h⟩
  | hfirst u v hfirst ih =>
    rw [resolveAmpFrom_of_isFirst hfirst, IsComplete, behindAmp_of_isFirst (hfirst.congr _),
      behindAmp_of_isFirst hfirst, behindAmp_missing, head?_missing_iff]
    exact and_congr_right fun _ => ih

/-- The text is repaired if and only if no `&amp` ends it or stands before a unit that the
loop takes for `;`. -/
theorem resolveInvalidAmpEntity_repairs_iff (s : NSString) :
    (Completes s (resolveInvalidAmpEntity s) ∧ IsComplete (resolveInvalidAmpEntity s) ∧
      resolveInvalidAmpEntity (resolveInvalidAmpEntity s) = resolveInvalidAmpEntity s) ↔
        BehindAmp IsSeen s := by
  rw [resolveInvalidAmpEntity_eq, resolveInvalidAmpEntity_eq]
  have hcomplete := isComplete_resolveAmpFrom_iff s
  constructor
  · exact fun h => hcomplete.mp h.2.1
  · exact fun h => ⟨completes_resolveAmpFrom s, hcomplete.mpr h, resolveAmpFrom_resolved s⟩

/-- Nothing is written behind the reference that ends a text. -/
theorem not_isComplete_amp : ¬ IsComplete (resolveInvalidAmpEntity (ns "&amp")) := by
  rw [resolveInvalidAmpEntity_eq]
  intro h
  exact absurd (h [] (by decide)) (by decide)

end BathyScaphe.Composer
