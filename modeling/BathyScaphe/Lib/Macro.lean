import BathyScaphe.Lib.Occurrence
import Mathlib.Data.List.Nodup

/-!
# Expanding macros

A call is a name in brackets. `Expands` says what a text with its calls replaced is.

A loop looks for the name of a macro and gives up at the first occurrence that stands
outside of brackets; it does so for one macro after the other. It leaves a call where an
occurrence of its name outside of brackets comes first, and only there.
-/

namespace Macro

variable {α : Type u} (o c : α)

def call (name : List α) : List α := o :: (name ++ [c])

/-- Every call is replaced by the value of its macro, and nothing else is changed. -/
inductive Expands (entries : List (List α × α)) : List α → List α → Prop
  | nil : Expands entries [] []
  | replaced (h : e ∈ entries) (hrest : Expands entries s t) :
      Expands entries (call o c e.1 ++ s) (e.2 :: t)
  | kept (h : ∀ e ∈ entries, ¬call o c e.1 <+: x :: s) (hrest : Expands entries s t) :
    Expands entries (x :: s) (x :: t)

/-- Names do not hold brackets, values do not make calls, and a name has one value. -/
structure Plain (entries : List (List α × α)) : Prop where
  brackets : o ≠ c
  name_ne_nil : ∀ e ∈ entries, e.1 ≠ []
  opens_not_mem : ∀ e ∈ entries, o ∉ e.1
  closes_not_mem : ∀ e ∈ entries, c ∉ e.1
  value_ne_opens : ∀ e ∈ entries, e.2 ≠ o
  value_ne_closes : ∀ e ∈ entries, e.2 ≠ c
  value_not_mem : ∀ e ∈ entries, ∀ e' ∈ entries, e.2 ∉ e'.1
  nodup : (entries.map Prod.fst).Nodup

variable {o c} {entries : List (List α × α)} {e : List α × α} {s t u w x y : List α}

theorem Plain.sublist (h : Plain o c entries) (hsub : part.Sublist entries) : Plain o c part where
  brackets := h.brackets
  name_ne_nil e he := h.name_ne_nil e (hsub.subset he)
  opens_not_mem e he := h.opens_not_mem e (hsub.subset he)
  closes_not_mem e he := h.closes_not_mem e (hsub.subset he)
  value_ne_opens e he := h.value_ne_opens e (hsub.subset he)
  value_ne_closes e he := h.value_ne_closes e (hsub.subset he)
  value_not_mem e he e' he' := h.value_not_mem e (hsub.subset he) e' (hsub.subset he')
  nodup := h.nodup.sublist (hsub.map Prod.fst)

-- Where calls stand

theorem call_append (name s : List α) : call o c name ++ s = o :: (name ++ c :: s) := by
  simp [call]

theorem call_prefix_cons_iff {a : α} : call o c name <+: a :: s ↔ o = a ∧ name ++ [c] <+: s :=
  List.cons_prefix_cons

theorem call_infix_append_of_not_mem (h : o ∉ x) : call o c name <:+: x ++ s ↔
    call o c name <:+: s := by
  induction x with
  | nil => exact Iff.rfl
  | cons a x ih =>
    have ha : o ≠ a := fun ha => h (ha ▸ List.mem_cons_self)
    rw [List.cons_append, List.infix_cons_iff, call_prefix_cons_iff, ih fun hx =>
      h (List.mem_cons_of_mem a hx)]
    simp [ha]

theorem not_call_infix (h : o ∉ s) : ¬call o c name <:+: s := by
  intro hcall
  exact h (hcall.subset List.mem_cons_self)

/-- A call that another call's bracket follows lies in front of it or behind. -/
theorem call_infix_append_cons (hopens : o ∉ name) (hne : o ≠ c)
    (h : call o c name <:+: x ++ o :: y) :
    call o c name <:+: x ∨ call o c name <:+: o :: y := by
  obtain ⟨a, b, hab⟩ := h
  have hparts : a ++ (call o c name ++ b) = x ++ o :: y := by rw [← hab, List.append_assoc]
  rcases List.append_eq_append_iff.mp hparts with ⟨z, rfl, hz⟩ | ⟨z, rfl, hz⟩
  · cases z with
    | nil => exact .inr ⟨[], b, hz⟩
    | cons d z =>
      rw [call, List.cons_append, List.cons_append, List.cons.injEq] at hz
      obtain ⟨rfl, hz⟩ := hz
      rcases List.append_eq_append_iff.mp hz with ⟨r, rfl, hr⟩ | ⟨r, hr, hr'⟩
      · exact .inl ⟨a, r, by simp [call]⟩
      · cases r with
        | nil => exact .inl ⟨a, [], by simpa [call] using hr⟩
        | cons d' r =>
          obtain ⟨rfl, -⟩ := List.cons.inj hr'
          have hmem : o ∈ name ++ [c] := hr ▸ List.mem_append_right z List.mem_cons_self
          simp [hopens, hne] at hmem
  · exact .inr ⟨z, b, by rw [List.append_assoc, ← hz]⟩

theorem name_eq_of_starts (h : c ∉ name) (h' : c ∉ name')
    (hstarts : name ++ [c] <+: name' ++ c :: s) : name = name' := by
  obtain ⟨b, hb⟩ := hstarts
  rw [List.append_assoc, List.singleton_append] at hb
  rcases List.append_eq_append_iff.mp hb with ⟨z, rfl, hz⟩ | ⟨z, rfl, hz⟩
  · cases z with
    | nil => simp
    | cons d z =>
        exact absurd ((List.cons.inj hz).1 ▸ List.mem_append_right name List.mem_cons_self) h'
  · cases z with
    | nil => simp
    | cons d z =>
        exact absurd ((List.cons.inj hz).1 ▸ List.mem_append_right name' List.mem_cons_self) h

-- Expansions

theorem Expands.append (hcalls : ∀ e ∈ entries, ∀ z, z <:+ x → z ≠ [] → ¬call o c e.1 <+: z ++ s)
    (h : Expands o c entries s t) : Expands o c entries (x ++ s) (x ++ t) := by
  induction x with
  | nil => exact h
  | cons a x ih =>
    refine .kept (fun e he => hcalls e he (a :: x) List.suffix_rfl (List.cons_ne_nil a x))
      (ih fun e he z hz => ?_)
    exact hcalls e he z (hz.trans (List.suffix_cons a x))

theorem Expands.append_of_not_mem (hx : o ∉ x) (h : Expands o c entries s t) :
    Expands o c entries (x ++ s) (x ++ t) := by
  refine h.append fun e _ z hz hne hcall => ?_
  cases z with
  | nil => exact hne rfl
  | cons a z => exact hx (hz.subset ((call_prefix_cons_iff.mp hcall).1 ▸ List.mem_cons_self))

theorem expands_self (h : ∀ e ∈ entries, ¬call o c e.1 <:+: s) : Expands o c entries s s := by
  rw [← List.append_nil s]
  refine .append (fun e he z hz _ hcall => ?_) .nil
  rw [List.append_nil] at hcall
  exact h e he (hcall.isInfix.trans hz.isInfix)

theorem expands_append_of_not_mem_inv (hx : o ∉ x) (h : Expands o c entries (x ++ s) t) :
    ∃ t', t = x ++ t' ∧ Expands o c entries s t' := by
  induction x generalizing t with
  | nil => exact ⟨t, rfl, h⟩
  | cons a x ih =>
    have ha : o ≠ a := fun ha => hx (ha ▸ List.mem_cons_self)
    generalize hs : a :: x ++ s = whole at h
    cases h with
    | nil => cases hs
    | replaced he hrest => exact absurd (List.cons.inj hs).1.symm ha
    | kept hcalls hrest =>
      obtain ⟨rfl, rfl⟩ := List.cons.inj hs
      obtain ⟨t', rfl, ht'⟩ := ih (fun hmem => hx (List.mem_cons_of_mem a hmem)) hrest
      exact ⟨t', rfl, ht'⟩

theorem expands_to_append_inv (hx : o ∉ x) (hvalues : ∀ e ∈ entries, e.2 ∉ x)
    (h : Expands o c entries s (x ++ t)) :
    ∃ s', s = x ++ s' ∧ Expands o c entries s' t := by
  induction x generalizing s with
  | nil => exact ⟨s, rfl, h⟩
  | cons a x ih =>
    generalize ht : a :: x ++ t = whole at h
    cases h with
    | nil => cases ht
    | replaced he hrest => exact absurd ((List.cons.inj ht).1 ▸ List.mem_cons_self) (hvalues _ he)
    | kept hcalls hrest =>
      obtain ⟨rfl, rfl⟩ := List.cons.inj ht
      obtain ⟨s', rfl, hs'⟩ := ih (fun hmem => hx (List.mem_cons_of_mem a hmem))
        (fun e he hmem => hvalues e he (List.mem_cons_of_mem a hmem)) hrest
      exact ⟨s', rfl, hs'⟩

theorem expands_unique (hplain : Plain o c entries) (h : Expands o c entries s t)
    (h' : Expands o c entries s t') :
    t = t' := by
  induction h generalizing t' with
  | nil => cases h' with
    | nil => rfl
  | @replaced e s t he hrest ih =>
    generalize hs : call o c e.1 ++ s = whole at h'
    cases h' with
    | nil => simp [call] at hs
    | @replaced e' s' t' he' hrest' =>
      rw [call_append, call_append, List.cons.injEq] at hs
      have hname : e.1 = e'.1 := by
        have hprefix : e.1 ++ [c] <+: e'.1 ++ c :: s' :=
          ⟨s, by rw [List.append_assoc, List.singleton_append, hs.2]⟩
        exact name_eq_of_starts (hplain.closes_not_mem e he) (hplain.closes_not_mem e' he') hprefix
      obtain rfl := List.inj_on_of_nodup_map hplain.nodup he he' hname
      obtain rfl := (List.cons.inj (List.append_cancel_left hs.2)).2
      rw [ih hrest']
    | kept hcalls hrest' => exact absurd (hs ▸ List.prefix_append _ _) (hcalls e he)
  | @kept a s t hcalls hrest ih =>
    generalize hs : a :: s = whole at h'
    cases h' with
    | nil => cases hs
    | @replaced e' s' t' he' hrest' => exact absurd (hs ▸ List.prefix_append _ _) (hcalls e' he')
    | kept hcalls' hrest' =>
      obtain ⟨rfl, rfl⟩ := List.cons.inj hs
      rw [ih hrest']

theorem not_mem_name_append (hplain : Plain o c entries) (he : e ∈ entries) : o ∉ e.1 ++ [c] := by
  simp [hplain.opens_not_mem e he, hplain.brackets]

theorem Expands.not_call (hplain : Plain o c entries) (h : Expands o c entries s t)
    (he : e ∈ entries) :
    ¬call o c e.1 <:+: t := by
  induction h with
  | nil => exact not_call_infix (by simp)
  | @replaced d s t hd hrest ih =>
    rw [List.infix_cons_iff, call_prefix_cons_iff]
    rintro (⟨hopens, -⟩ | hcall)
    · exact hplain.value_ne_opens d hd hopens.symm
    · exact ih hcall
  | @kept a s t hcalls hrest ih =>
    rw [List.infix_cons_iff, call_prefix_cons_iff]
    rintro (⟨rfl, t', rfl⟩ | hcall)
    · have hvalues : ∀ d ∈ entries, d.2 ∉ e.1 ++ [c] := by
        intro d hd
        simp [hplain.value_not_mem d hd e he, hplain.value_ne_closes d hd]
      obtain ⟨s', rfl, -⟩ := expands_to_append_inv (not_mem_name_append hplain he) hvalues hrest
      exact hcalls e he (call_prefix_cons_iff.mpr ⟨rfl, List.prefix_append _ s'⟩)
    · exact ih hcall

/-- Expanding the calls of some macros first does not change what is expanded. -/
theorem Expands.trans {later : List (List α × α)} (hplain : Plain o c (entries ++ later))
    (h : Expands o c entries s t) (h' : Expands o c later t u) :
    Expands o c (entries ++ later) s u := by
  have hbracket : ∀ {e}, e ∈ entries ++ later → o ∉ e.1 ++ [c] := not_mem_name_append hplain
  induction h' generalizing s with
  | nil => cases h with
    | nil => exact .nil
  | @replaced e t u he hrest ih =>
    have he' := List.mem_append_right entries he
    generalize ht : call o c e.1 ++ t = whole at h
    cases h with
    | nil => simp [call] at ht
    | replaced hd _ =>
      exact absurd (List.cons.inj ht).1.symm (hplain.value_ne_opens _
        (List.mem_append_left later hd))
    | kept hcalls hs =>
      obtain ⟨rfl, rfl⟩ := List.cons.inj ht
      have hvalues : ∀ d ∈ entries, d.2 ∉ e.1 ++ [c] := by
        intro d hd
        have hd' := List.mem_append_left later hd
        simp [hplain.value_not_mem d hd' e he', hplain.value_ne_closes d hd']
      obtain ⟨s', rfl, hs'⟩ := expands_to_append_inv (hbracket he') hvalues hs
      exact .replaced he' (ih hs')
  | @kept a t u hcalls hrest ih =>
    generalize ht : a :: t = whole at h
    cases h with
    | nil => cases ht
    | replaced hd hs =>
      obtain ⟨rfl, rfl⟩ := List.cons.inj ht
      exact .replaced (List.mem_append_left later hd) (ih hs)
    | kept hcalls' hs =>
      obtain ⟨rfl, rfl⟩ := List.cons.inj ht
      refine .kept (fun d hd hcall => ?_) (ih hs)
      rcases List.mem_append.mp hd with hd' | hd'
      · exact hcalls' d hd' hcall
      · obtain ⟨rfl, s', rfl⟩ := call_prefix_cons_iff.mp hcall
        obtain ⟨t', rfl, -⟩ := expands_append_of_not_mem_inv (hbracket hd) hs
        exact hcalls d hd' (call_prefix_cons_iff.mpr ⟨rfl, List.prefix_append _ t'⟩)

-- The loop

/-- The text in front of an occurrence and the text behind it hold its brackets. -/
def Bracketed (o c : α) (u w : List α) : Prop := u.getLast? = some o ∧ w.head? = some c

/-- The loop for one macro: it replaces calls up to the first occurrence of the name outside
of brackets. -/
inductive Loop (o c : α) (e : List α × α) : List α → List α → Prop
  | stop {s : List α} (h : ∀ u w, s = u ++ (e.1 ++ w) → Occurrence.IsFirst e.1 u w →
      ¬Bracketed o c u w) : Loop o c e s s
  | next {u s t : List α} (h : Occurrence.IsFirst e.1 (u ++ [o]) (c :: s))
      (hrest : Loop o c e s t) :
    Loop o c e (u ++ (call o c e.1 ++ s)) (u ++ e.2 :: t)

/-- Each occurrence of the name in front of a call stands in brackets itself. -/
def Clear (o c : α) (name s : List α) : Prop :=
  ∀ u w, s = u ++ (name ++ w) → call o c name <:+: w → Bracketed o c u w

theorem call_infix_of_first (hopens : o ∉ name) (hfirst : Occurrence.IsFirst name u w)
    (h : call o c name <:+: u ++ (name ++ w)) : Bracketed o c u w ∨ call o c name <:+: w := by
  induction u with
  | nil => exact .inr ((call_infix_append_of_not_mem hopens).mp h)
  | cons a u ih =>
    have hlater := (Occurrence.isFirst_cons.mp hfirst).2
    rw [List.cons_append, List.infix_cons_iff, call_prefix_cons_iff] at h
    rcases h with ⟨rfl, hprefix⟩ | h
    · cases u with
      | nil =>
        obtain ⟨b, hb⟩ := (List.prefix_append_right_inj name).mp hprefix
        exact .inl ⟨rfl, by rw [← hb]; rfl⟩
      | cons d u =>
        exact absurd ((List.prefix_append name [c]).trans hprefix)
          (Occurrence.isFirst_cons.mp hlater).1
    · rcases ih hlater h with ⟨hlast, hhead⟩ | h
      · exact .inl ⟨by rw [List.getLast?_cons, hlast]; rfl, hhead⟩
      · exact .inr h

theorem not_call_prefix_of_first (hfirst : Occurrence.IsFirst name (u ++ [o]) (c :: s))
    (hz : z <:+ u) (hne : z ≠ []) :
    ¬call o c name <+: z ++ (call o c name ++ s) := by
  intro hcall
  cases z with
  | nil => exact hne rfl
  | cons a z =>
    obtain ⟨before, rfl⟩ := hz
    obtain ⟨rfl, hprefix⟩ := call_prefix_cons_iff.mp hcall
    refine hfirst (before.length + 1) (by simp) ?_
    have hsplit : before ++ o :: z ++ [o] ++ (name ++ c :: s) = before ++ [o] ++
      (z ++ (call o c name ++ s)) := by
      simp [call]
    rw [hsplit, List.drop_left' (by simp)]
    exact (List.prefix_append name [c]).trans hprefix

theorem getLast?_call_append (u a : List α) :
    (u ++ (call o c name ++ a)).getLast? = a.getLast?.or (some c) := by
  have hlast : (call o c name).getLast? = some c := by simp [call, List.getLast?_cons]
  rw [List.getLast?_append, List.getLast?_append, hlast]
  cases a.getLast? <;> rfl

theorem clear_of_append (hbrackets : o ≠ c) (h : Clear o c name (u ++ (call o c name ++ s))) :
    Clear o c name s := by
  intro a w hs hcall
  obtain ⟨hlast, hhead⟩ := h (u ++ (call o c name ++ a)) w (by simp [hs]) hcall
  refine ⟨?_, hhead⟩
  rw [getLast?_call_append] at hlast
  cases ha : a.getLast? with
  | none => simp [ha, hbrackets.symm] at hlast
  | some d => simpa [ha] using hlast

theorem clear_append (hname : name ≠ []) (hcloses : c ∉ name)
    (hfirst : Occurrence.IsFirst name (u ++ [o]) (c :: s)) (h : Clear o c name s) :
    Clear o c name (u ++ (call o c name ++ s)) := by
  intro a w hs hcall
  have hparts : u ++ [o] ++ (name ++ c :: s) = a ++ (name ++ w) := by
    rw [← hs]
    simp [call]
  rcases List.append_eq_append_iff.mp hparts with ⟨z, rfl, hz⟩ | ⟨z, hz, hz'⟩
  · -- The occurrence does not begin in front of the first one.
    rcases List.append_eq_append_iff.mp hz with ⟨r, rfl, hr⟩ | ⟨r, hr, hr'⟩
    · cases r with
      | nil =>
        cases name with
        | nil => exact absurd rfl hname
        | cons d name => exact absurd ((List.cons.inj hr).1 ▸ List.mem_cons_self) hcloses
      | cons d r =>
        obtain ⟨rfl, rfl⟩ := List.cons.inj hr
        obtain ⟨hlast, hhead⟩ := h r w rfl hcall
        refine ⟨?_, hhead⟩
        have hwhole : u ++ [o] ++ (name ++ c :: r) = u ++ (call o c name ++ r) := by simp [call]
        rw [hwhole, getLast?_call_append, hlast]
        rfl
    · cases z with
      | nil =>
        obtain rfl : name = r := by simpa using hr
        obtain rfl := List.append_cancel_left hr'
        exact ⟨by simp, rfl⟩
      | cons d z =>
        have hlength := congrArg List.length hr
        simp only [List.length_append, List.length_cons] at hlength
        obtain ⟨b, hb⟩ : r ++ [c] <+: name := by
          refine List.prefix_of_prefix_length_le ⟨s, ?_⟩ (List.prefix_append name w)
            (by simp; omega)
          rw [hr', List.append_assoc, List.singleton_append]
        exact absurd (hb ▸ List.mem_append_left b
          (List.mem_append_right r List.mem_cons_self)) hcloses
  · cases z with
    | nil =>
      obtain rfl := List.append_cancel_left hz'
      rw [List.append_nil] at hz
      exact ⟨by simp [← hz], rfl⟩
    | cons d z =>
      refine absurd ?_ (hfirst a.length (by simp [hz]))
      rw [hparts, List.drop_left]
      exact List.prefix_append name w

-- What the loop leaves

theorem Loop.expands (hplain : Plain o c [e]) (h : Loop o c e s t) (hclear : Clear o c e.1 s) :
    Expands o c [e] s t := by
  have hopens := hplain.opens_not_mem e List.mem_cons_self
  induction h with
  | @stop s hstop =>
    refine expands_self fun d hd hcall => ?_
    obtain rfl := List.mem_singleton.mp hd
    have hname : d.1 <:+: s := by
      refine List.IsInfix.trans ⟨[o], [c], ?_⟩ hcall
      simp [call]
    obtain ⟨u, w, rfl, hfirst⟩ := Occurrence.exists_isFirst hname
    rcases call_infix_of_first hopens hfirst hcall with hbracketed | hlater
    · exact hstop u w rfl hfirst hbracketed
    · exact hstop u w rfl hfirst (hclear u w rfl hlater)
  | @next u s t hfirst hrest ih =>
    refine Expands.append (fun d hd z hz hne => ?_) (.replaced List.mem_cons_self ?_)
    · obtain rfl := List.mem_singleton.mp hd
      exact not_call_prefix_of_first hfirst hz hne
    · exact ih (clear_of_append hplain.brackets hclear)

theorem Loop.call_infix (hplain : Plain o c [e]) (h : Loop o c e s t) (hclear : ¬Clear o c e.1 s) :
    call o c e.1 <:+: t := by
  induction h with
  | stop hstop =>
    simp only [Clear, not_forall] at hclear
    obtain ⟨u, w, rfl, hcall, -⟩ := hclear
    exact hcall.trans ⟨u ++ e.1, [], by simp⟩
  | @next u s t hfirst hrest ih =>
    have hlater := ih fun h => hclear <|
      clear_append (hplain.name_ne_nil e List.mem_cons_self)
        (hplain.closes_not_mem e List.mem_cons_self) hfirst h
    exact hlater.trans ⟨u ++ [e.2], [], by simp⟩

theorem Loop.keeps_call {d : List α × α} (hplain : Plain o c entries) (he : e ∈ entries)
    (hd : d ∈ entries)
    (hne : d.1 ≠ e.1) (h : Loop o c e s t) (hcall : call o c d.1 <:+: s) : call o c d.1 <:+: t := by
  have hopens := hplain.opens_not_mem d hd
  induction h with
  | stop hstop => exact hcall
  | @next u s t hfirst hrest ih =>
    rw [call_append] at hcall
    rcases call_infix_append_cons hopens hplain.brackets hcall with hbefore | hbehind
    · exact hbefore.trans ⟨[], e.2 :: t, by simp⟩
    · rw [List.infix_cons_iff, call_prefix_cons_iff] at hbehind
      rcases hbehind with ⟨-, hprefix⟩ | hbehind
      · exact absurd (name_eq_of_starts (hplain.closes_not_mem d hd)
          (hplain.closes_not_mem e he) hprefix) hne
      · rw [List.append_cons] at hbehind
        have hlater :=
          ih ((call_infix_append_of_not_mem (not_mem_name_append hplain he)).mp hbehind)
        exact hlater.trans ⟨u ++ [e.2], [], by simp⟩

-- One macro after the other

/-- With the macros before it expanded, the calls of each macro are clear. -/
def AllClear (o c : α) (entries : List (List α × α)) (s : List α) : Prop :=
  ∀ before e, before ++ [e] <+: entries → ∀ t, Expands o c before s t → Clear o c e.1 t

variable {loop : List α × α → List α → List α}

theorem allClear_append_iff (hplain : Plain o c (entries ++ [e])) (h : Expands o c entries s t) :
    AllClear o c (entries ++ [e]) s ↔ AllClear o c entries s ∧ Clear o c e.1 t := by
  constructor
  · intro hclear
    refine ⟨fun before d hd => hclear before d (hd.trans (List.prefix_append _ _)), ?_⟩
    exact hclear entries e List.prefix_rfl t h
  · rintro ⟨hclear, hlast⟩ before d hd t' ht'
    rcases List.prefix_concat_iff.mp hd with heq | hd
    · obtain ⟨hlists, hheads⟩ := List.append_inj' heq rfl
      obtain rfl := List.singleton_inj.mp hheads
      rw [hlists] at ht'
      obtain rfl := expands_unique (hplain.sublist (List.sublist_append_left _ _)) h ht'
      exact hlast
    · exact hclear before d hd t' ht'

/-- Where the calls are clear, the loops expand them. Elsewhere they leave one. -/
theorem foldl_loop (hplain : Plain o c entries)
    (hloop : ∀ e ∈ entries, ∀ s, Loop o c e s (loop e s)) (s : List α) :
    (AllClear o c entries s → Expands o c entries s (entries.foldl (fun s e => loop e s) s)) ∧
      (¬AllClear o c entries s → ∃ e ∈ entries, call o c e.1 <:+: entries.foldl
        (fun s e => loop e s) s) := by
  induction entries using List.reverseRecOn with
  | nil =>
    refine ⟨fun _ => expands_self (by simp), fun hclear =>
      absurd (fun before e hbefore => ?_) hclear⟩
    simp at hbefore
  | append_singleton entries e ih =>
    have hbefore := hplain.sublist (List.sublist_append_left entries [e])
    have hlast := hplain.sublist (List.sublist_append_right entries [e])
    have hmem : e ∈ entries ++ [e] := List.mem_append_right entries List.mem_cons_self
    have hstep := hloop e hmem (entries.foldl (fun s e => loop e s) s)
    obtain ⟨hexpands, hleaves⟩ := ih hbefore fun d hd => hloop d (List.mem_append_left [e] hd)
    rw [List.foldl_append, List.foldl_cons, List.foldl_nil]
    constructor
    · intro hclear
      have hfirst := hexpands fun before d hd => hclear before d (hd.trans (List.prefix_append _ _))
      exact hfirst.trans hplain (hstep.expands hlast
        ((allClear_append_iff hplain hfirst).mp hclear).2)
    · intro hclear
      by_cases hfirst : AllClear o c entries s
      · have hnot : ¬Clear o c e.1 (entries.foldl (fun s e => loop e s) s) := fun h =>
          hclear ((allClear_append_iff hplain (hexpands hfirst)).mpr ⟨hfirst, h⟩)
        exact ⟨e, hmem, hstep.call_infix hlast hnot⟩
      · obtain ⟨d, hd, hcall⟩ := hleaves hfirst
        have hd' := List.mem_append_left [e] hd
        have hne : d.1 ≠ e.1 := by
          intro heq
          have hnodup := hplain.nodup
          rw [List.map_append] at hnodup
          exact List.disjoint_of_nodup_append hnodup (List.mem_map_of_mem hd) (by simp [heq])
        exact ⟨d, hd', hstep.keeps_call hplain hmem hd' hne hcall⟩

theorem expands_foldl_iff (hplain : Plain o c entries)
    (hloop : ∀ e ∈ entries, ∀ s, Loop o c e s (loop e s)) (s : List α) :
    Expands o c entries s (entries.foldl (fun s e => loop e s) s) ↔ AllClear o c entries s := by
  obtain ⟨hexpands, hleaves⟩ := foldl_loop hplain hloop s
  refine ⟨fun h => ?_, hexpands⟩
  by_contra hclear
  obtain ⟨e, he, hcall⟩ := hleaves hclear
  exact h.not_call hplain he hcall

theorem allClear_of_not_call (hplain : Plain o c entries)
    (h : ∀ e ∈ entries, ¬call o c e.1 <:+: s) :
    AllClear o c entries s := by
  intro before e hbefore t ht u w hs hcall
  have hsub : before.Sublist entries := (List.sublist_append_left before [e]).trans hbefore.sublist
  obtain rfl := expands_unique (hplain.sublist hsub) ht (expands_self fun d hd =>
    h d (hsub.subset hd))
  refine absurd (hcall.trans ⟨u ++ e.1, [], by simp [hs]⟩) (h e (hbefore.subset ?_))
  exact List.mem_append_right before List.mem_cons_self

theorem subset_of_append_eq (hx : x ++ o :: y = u ++ w) (hy : o ∉ y) (hw : o ∈ w) : u ⊆ x := by
  rcases List.append_eq_append_iff.mp hx with ⟨z, rfl, hz⟩ | ⟨z, rfl, -⟩
  · cases z with
    | nil => simp
    | cons d z => exact absurd ((List.cons.inj hz).2 ▸ List.mem_append_right z hw) hy
  · exact List.subset_append_left u z

theorem allClear_append_call (hplain : Plain o c entries) (hx : o ∉ x)
    (hnames : ∀ e ∈ entries, ¬e.1 ⊆ x)
    (he : e ∈ entries) : AllClear o c entries (x ++ call o c e.1) := by
  intro before d hbefore t ht u w hs hcall
  have hsub : before.Sublist entries := (List.sublist_append_left before [d]).trans hbefore.sublist
  have hd : d ∈ entries := hbefore.subset (List.mem_append_right before List.mem_cons_self)
  have hopens : o ∈ w := hcall.subset List.mem_cons_self
  by_cases hdone : e ∈ before
  · have hexpanded : Expands o c before (x ++ call o c e.1) (x ++ [e.2]) := by
      refine .append_of_not_mem hx ?_
      simpa using Expands.replaced (o := o) (c := c) hdone .nil
    obtain rfl := expands_unique (hplain.sublist hsub) ht hexpanded
    have hmem : o ∈ x ++ [e.2] := hs ▸ List.mem_append_right u (List.mem_append_right d.1 hopens)
    simp [hx, (hplain.value_ne_opens e he).symm] at hmem
  · have hkept : Expands o c before (x ++ call o c e.1) (x ++ call o c e.1) := by
      refine expands_self fun f hf hcall => ?_
      rw [call_infix_append_of_not_mem hx] at hcall
      rcases List.infix_cons_iff.mp hcall with hprefix | hinside
      · have hname := name_eq_of_starts (hplain.closes_not_mem f (hsub.subset hf))
          (hplain.closes_not_mem e he)
          (call_prefix_cons_iff.mp hprefix).2
        exact hdone (List.inj_on_of_nodup_map hplain.nodup (hsub.subset hf) he hname ▸ hf)
      · exact not_call_infix (not_mem_name_append hplain he) hinside
    obtain rfl := expands_unique (hplain.sublist hsub) ht hkept
    rw [← List.append_assoc] at hs
    have hsubset := subset_of_append_eq hs (not_mem_name_append hplain he) hopens
    exact absurd (fun _ ha => hsubset (List.mem_append_right u ha)) (hnames d hd)

end Macro
