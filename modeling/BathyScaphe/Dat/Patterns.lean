import BathyScaphe.Dat.TextParser
import BathyScaphe.Lib.Regex

/-!
# The patterns of a DAT line

The expressions that `CMXTextParser` searches with, as the engine compiles them,
and what they give on a field with a date and one ID or host behind it. The
classes of digits and of white space are those of the engine.
-/

namespace BathyScaphe.Dat

open NSString Regex

structure Classes where
  digit : UniChar → Bool
  space : UniChar → Bool

namespace Classes

variable (cls : Classes)

def any (c : UniChar) : Bool := c ≠ uc '\n'

def time : List (UniChar → Bool) := [cls.digit, cls.digit, (· = uc ':'), cls.digit, cls.digit]

def comma : List (UniChar → Bool) := [(· = uc ','), cls.digit, cls.digit]

def eraPrefix : Regex UniChar :=
  .seq .start (.seq (.group 1 (.star any)) (.seq (sats cls.comma)
    (.seq (.opt (.sat cls.digit)) (.opt (.sat cls.digit)))))

def hundredths : List (UniChar → Bool) := [(· = uc '.'), cls.digit, cls.digit]

def stockOpen : NSString := ns " <a href=\"http://2ch.se/\">"

def stockClose : NSString := ns "</a>"

def stock : Regex UniChar :=
  .group 3 (.seq (text stockOpen) (.seq (.star any) (text stockClose)))

def stockAndExtra : Regex UniChar :=
  .seq (.opt (.sat (· = uc ' '))) (.seq (.opt stock)
    (.seq (.opt (.sat (· = uc ' '))) (.group 4 (.star any))))

def dateAndExtra : Regex UniChar :=
  .seq .start (.seq (.group 1 (.seq (.star any) (sats cls.time)))
    (.seq (.opt (.group 2 (sats cls.hundredths))) stockAndExtra))

def idField : Regex UniChar :=
  .seq (text (ns "ID:")) (.seq (.opt (.sat cls.space))
    (.seq (.group 1 (.star fun c => !cls.space c)) (.opt (.sat cls.space))))

def beField : Regex UniChar :=
  .seq (text (ns "BE:")) (.seq (.opt (.sat cls.space))
    (.seq (.group 1 (.star any)) (.opt (.sat cls.space))))

/-- `(HOST:|IP:)\s?(.*)`, with the name of the field of another board. -/
def hostField (siberia : NSString) : Regex UniChar :=
  .seq (.group 1 (.alt (text (ns "HOST:")) (text (siberia ++ ns ":"))))
    (.seq (.opt (.sat cls.space)) (.group 2 (.star any)))

end Classes

def matchOf (r : Regex UniChar) (s : NSString) : Option OGRegularExpressionMatch :=
  (r.find s).map fun (location, c) =>
    { rangeOfMatchedString := ⟨location, c.pos - location⟩
      rangeOfSubstringAtIndex := fun i =>
        (c.groups.lookup i).map fun (first, last) => ⟨first, last - first⟩ }

def captured (s : NSString) (groups : List (Nat × Nat × Nat)) (i : Nat) : Option NSString :=
  (groups.lookup i).map fun (first, last) => s.substringWithRange ⟨first, last - first⟩

theorem captured_cons_self {u v w : NSString} (hs : s = u ++ (v ++ w)) (hfirst : first = u.length)
    (hlast : last = first + v.length) (groups : List (Nat × Nat × Nat)) (i : Nat) :
    captured s ((i, first, last) :: groups) i = some v := by
  subst hs hfirst hlast
  simp [captured, substringWithRange]

theorem captured_cons_ne (s : NSString) (first last : Nat) (groups : List (Nat × Nat × Nat))
    (h : i ≠ j) :
    captured s ((j, first, last) :: groups) i = captured s groups i := by
  have hne : (i == j) = false := beq_false_of_ne h
  simp [captured, List.lookup_cons, hne]

/-- The engine searches one line with the patterns as they are written. -/
structure Compiles (env : TextServices) (cls : Classes) : Prop where
  eraPrefix : ∀ s, uc '\n' ∉ s →
    env.matchInString (ns "^(.*),\\d\x7b2,4\x7d") s = matchOf cls.eraPrefix s
  dateAndExtra : ∀ s, uc '\n' ∉ s →
    env.matchInString (ns ("^(.*\\d\x7b2\x7d:\\d\x7b2\x7d)(\\.\\d\x7b2\x7d)? ?" ++
      "( <a href=\"http://2ch.se/\">.*</a>)? ?(.*)")) s = matchOf cls.dateAndExtra s
  idField : ∀ s, uc '\n' ∉ s →
    env.matchInString (ns "ID:\\s?(\\S*)\\s?") s = matchOf cls.idField s
  beField : ∀ s, uc '\n' ∉ s →
    env.matchInString (ns "BE:\\s?(.*)\\s?") s = matchOf cls.beField s
  hostField : ∀ s, uc '\n' ∉ s → env.matchInString
    (ns "(HOST:|" ++ env.localizedString (ns "siberia IP field") ++ ns ":)\\s?(.*)") s =
      matchOf (cls.hostField (env.localizedString (ns "siberia IP field"))) s

variable {env : TextServices} {cls : Classes} {s code : NSString} {m : CMRThreadMessage}

-- The ID

def idOf (cls : Classes) (code : NSString) : NSString :=
  (dropOne cls.space code).takeWhile fun c => !cls.space c

theorem idOf_eq_self_iff (cls : Classes) : idOf cls code = code ↔
    ∀ c ∈ code, cls.space c = false := by
  constructor
  · intro h c hc
    rw [← h] at hc
    simpa using List.all_eq_true.mp List.all_takeWhile c hc
  · intro h
    have hdrop : dropOne cls.space code = code := by
      cases code with
      | nil => rfl
      | cons c code => rw [dropOne, h c List.mem_cons_self, if_neg Bool.false_ne_true]
    rw [idOf, hdrop]
    exact List.takeWhile_eq_self_iff.mpr fun c hc => by simp [h c hc]

theorem length_idOf_le (cls : Classes) (code : NSString) :
    (idOf cls code).length ≤ code.length := by
  obtain ⟨taken, htaken, -⟩ := exists_dropOne cls.space code
  have hle : (dropOne cls.space code).length ≤ code.length := by
    conv_rhs => rw [htaken]
    simp
  exact (List.takeWhile_prefix _).length_le.trans hle

theorem leads_idField (cls : Classes) (before code : NSString) :
    ∃ c, Leads cls.idField ⟨before.length, ns "ID:" ++ code, []⟩ c ∧
      captured (before ++ (ns "ID:" ++ code)) c.groups 1 = some (idOf cls code) := by
  obtain ⟨taken, htaken, hopt⟩ := exists_dropOne cls.space code
  obtain ⟨last, -, hlast⟩ :=
    exists_dropOne cls.space ((dropOne cls.space code).dropWhile fun c => !cls.space c)
  have hstar : Leads (.star fun c => !cls.space c)
      ⟨before.length + (ns "ID:").length + taken.length, dropOne cls.space code, []⟩ _ :=
    leads_star_takeWhile _ _
  refine ⟨_, (leads_text (ns "ID:") code).seq ((hopt _ _).seq (hstar.group.seq (hlast _ _))), ?_⟩
  have htext : before ++ (ns "ID:" ++ code) = (before ++ ns "ID:" ++ taken) ++
      (idOf cls code ++ (dropOne cls.space code).dropWhile fun c => !cls.space c) := by
    rw [idOf, List.takeWhile_append_dropWhile]
    conv_lhs => rw [htaken]
    simp only [List.append_assoc]
  have hfirst : before.length + (ns "ID:").length + taken.length =
    (before ++ ns "ID:" ++ taken).length := by
    rw [List.length_append, List.length_append]
  exact captured_cons_self htext hfirst rfl [] 1

theorem parseID_of_find (before : NSString) {c : Config UniChar} (hc : Compiles env cls)
    (hline : uc '\n' ∉ before ++ (ns "ID:" ++ code))
    (hfind : cls.idField.find (before ++ (ns "ID:" ++ code)) = some (before.length, c))
    (hleads : Leads cls.idField ⟨before.length, ns "ID:" ++ code, []⟩ c) (m : CMRThreadMessage) :
    parseID env (before ++ (ns "ID:" ++ code)) m = { m with IDString := some (idOf cls code) } := by
  obtain ⟨c', hleads', hgroup⟩ := leads_idField cls before code
  obtain rfl : c' = c := Option.some.inj (hleads'.symm.trans hleads)
  have hmatch := hc.idField _ hline
  rw [matchOf, hfind, Option.map_some] at hmatch
  rw [parseID, hmatch]
  simp only [substringAtIndex, Option.map_map]
  rw [← hgroup]
  rfl

theorem parseID_append (hc : Compiles env cls) (hline : uc '\n' ∉ code) (m : CMRThreadMessage) :
    parseID env (ns "ID:" ++ code) m = { m with IDString := some (idOf cls code) } := by
  obtain ⟨c, hleads, -⟩ := leads_idField cls [] code
  have hline' : uc '\n' ∉ ns "ID:" ++ code := fun hmem =>
    (List.mem_append.mp hmem).elim (by decide) hline
  exact parseID_of_find [] hc hline' (find_of_leads hleads) hleads m

theorem length_parseID (hc : Compiles env cls) (hline : uc '\n' ∉ s)
    (h : (parseID env s m).IDString = some code) : m.IDString = some code ∨
      code.length + 3 ≤ s.length := by
  cases hfind : cls.idField.find s with
  | none =>
    rw [parseID, hc.idField s hline, matchOf, hfind] at h
    exact .inl h
  | some found =>
    obtain ⟨n, c⟩ := found
    obtain ⟨before, rest, rfl, rfl, hleads⟩ := find_eq_some hfind
    obtain ⟨rest, rfl⟩ : ns "ID:" <+: rest := by
      by_contra hnot
      exact (fails_text hnot).seq.not_leads hleads
    rw [parseID_of_find before hc hline hfind hleads] at h
    obtain rfl := Option.some.inj h
    have hle := length_idOf_le cls rest
    have hlength : (ns "ID:").length = 3 := rfl
    refine .inr ?_
    rw [List.length_append, List.length_append]
    omega

theorem length_parseBeProfile (hc : Compiles env cls) (hline : uc '\n' ∉ s)
    (h : (parseBeProfile env s m).IDString = some code) :
    m.IDString = some code ∨ code.length + 3 ≤ s.length := by
  have hparse {m' : CMRThreadMessage} (h : (parseID env s m').IDString = some code)
      (hm : m'.IDString = m.IDString) := hm ▸ length_parseID hc hline h
  rw [parseBeProfile] at h
  simp only at h
  split at h
  · exact hparse h rfl
  · split at h
    · split at h
      · exact .inl h
      · exact hparse h rfl
    · exact hparse h rfl

theorem parseBeProfile_id (hc : Compiles env cls) (hline : uc '\n' ∉ code) (m : CMRThreadMessage) :
    (parseBeProfile env (ns "ID:" ++ code) m).IDString = some (idOf cls code) := by
  have hline' : uc '\n' ∉ ns "ID:" ++ code := fun hmem =>
    (List.mem_append.mp hmem).elim (by decide) hline
  rw [parseBeProfile]
  simp only
  split
  · rw [parseID_append hc hline]
  · cases hbe : env.matchInString (ns "BE:\\s?(.*)\\s?") (ns "ID:" ++ code) with
    | none => simp only [parseID_append hc hline]
    | some mt =>
      have hpos : mt.rangeOfMatchedString.location ≠ 0 := by
        rw [hc.beField _ hline', matchOf] at hbe
        obtain ⟨⟨n, c⟩, hfind, rfl⟩ := Option.map_eq_some_iff.mp hbe
        have hfails : Fails cls.beField ⟨0, ns "ID:" ++ code, []⟩ := by
          refine Fails.seq (fails_text ?_)
          rintro ⟨t, ht⟩
          exact absurd (List.cons.inj ht).1 (by decide)
        exact Nat.ne_of_gt (pos_of_find hfails hfind)
      simp only [if_neg hpos, parseID_append hc hline]

-- The host

theorem find_hostField_eq_none_iff (cls : Classes) {siberia : NSString} (hline : uc '\n' ∉ s) :
    (cls.hostField siberia).find s = none ↔
      ¬ ns "HOST:" <:+: s ∧ ¬ siberia ++ ns ":" <:+: s := by
  constructor
  · intro h
    have hfound : ∀ before name rest, s = before ++ (name ++ rest) →
        (∃ c, Leads (.alt (text (ns "HOST:")) (text (siberia ++ ns ":")))
          ⟨before.length, name ++ rest, []⟩ c) → False := by
      rintro before name rest rfl ⟨c, hc⟩
      obtain ⟨taken, -, hopt⟩ := exists_dropOne cls.space c.rest
      have hleads : Leads (cls.hostField siberia) ⟨before.length, name ++ rest, []⟩ _ :=
        hc.group.seq ((hopt _ _).seq (leads_star_takeWhile _ _).group)
      have hsome := find_isSome hleads
      rw [h] at hsome
      cases hsome
    constructor
    · rintro ⟨before, rest, hs⟩
      refine hfound before (ns "HOST:") rest (by rw [← hs, List.append_assoc]) ?_
      exact ⟨_, (leads_text _ _).alt⟩
    · rintro ⟨before, rest, hs⟩
      refine hfound before (siberia ++ ns ":") rest (by rw [← hs, List.append_assoc]) ?_
      by_cases hhost : ns "HOST:" <+: siberia ++ ns ":" ++ rest
      · obtain ⟨rest', hrest'⟩ := hhost
        rw [← hrest']
        exact ⟨_, (leads_text _ _).alt⟩
      · exact ⟨_, (fails_text hhost).alt_right (leads_text _ _)⟩
  · rintro ⟨hhost, hsiberia⟩
    refine find_eq_none fun v w hs => Fails.seq (Fails.group (Fails.alt ?_ ?_))
    · exact fails_text fun hstart =>
        hhost (hs ▸ hstart.isInfix.trans (List.suffix_append v w).isInfix)
    · exact fails_text fun hstart =>
        hsiberia (hs ▸ hstart.isInfix.trans (List.suffix_append v w).isInfix)

theorem parseExtraField_host (hc : Compiles env cls) (hline : uc '\n' ∉ code)
    (m : CMRThreadMessage) :
    (parseExtraField env (some (ns "HOST:" ++ code)) m).host = some (dropOne cls.space code) := by
  obtain ⟨taken, htaken, hopt⟩ := exists_dropOne cls.space code
  have hany : ∀ c ∈ dropOne cls.space code, Classes.any c = true := by
    intro c hmem
    refine decide_eq_true ?_
    rintro rfl
    exact hline (htaken ▸ List.mem_append_right taken hmem)
  have hstar : Leads (.star Classes.any) ⟨5 + taken.length, dropOne cls.space code ++ [],
    [(1, 0, 5)]⟩ _ :=
    leads_star hany nofun
  rw [List.append_nil] at hstar
  have hfind : (cls.hostField (env.localizedString (ns "siberia IP field"))).find
      (ns "HOST:" ++ code) = some (0, _) :=
    find_of_leads ((leads_text (ns "HOST:") code).alt.group.seq ((hopt 5 _).seq hstar.group))
  have hline' : uc '\n' ∉ ns "HOST:" ++ code := fun hmem =>
    (List.mem_append.mp hmem).elim (by decide) hline
  have hmatch := hc.hostField _ hline'
  rw [matchOf, hfind, Option.map_some] at hmatch
  have hlength : (ns "HOST:" ++ code).length = 5 + code.length := List.length_append
  rw [parseExtraField]
  simp only [hlength, hmatch]
  rw [if_neg (by omega), if_neg (by omega), if_pos trivial]
  have htext : ns "HOST:" ++ code = (ns "HOST:" ++ taken) ++ (dropOne cls.space code ++ []) := by
    rw [List.append_nil, List.append_assoc, ← htaken]
  have hfirst : 5 + taken.length = (ns "HOST:" ++ taken).length := by
    rw [List.length_append]
    rfl
  simp only [substringAtIndex, Option.map_map]
  exact captured_cons_self htext hfirst rfl [(1, 0, 5)] 2

/-- The ID is read back if it has no white space and no name of a host in it. -/
theorem parseExtraField_id_iff (hc : Compiles env cls) (hline : uc '\n' ∉ code)
    (hm : m.IDString = none) :
    (parseExtraField env (some (ns "ID:" ++ code)) m).IDString = some code ↔
      (∀ c ∈ code, cls.space c = false) ∧ ¬ ns "HOST:" <:+: ns "ID:" ++ code ∧
        ¬ env.localizedString (ns "siberia IP field") ++ ns ":" <:+: ns "ID:" ++ code := by
  have hline' : uc '\n' ∉ ns "ID:" ++ code := fun hmem =>
    (List.mem_append.mp hmem).elim (by decide) hline
  have hlength : (ns "ID:" ++ code).length = 3 + code.length := List.length_append
  rw [← find_hostField_eq_none_iff cls hline', ← idOf_eq_self_iff cls, parseExtraField]
  simp only [hlength, hc.hostField _ hline', matchOf]
  rw [if_neg (by omega), if_neg (by omega)]
  cases hfind : (cls.hostField (env.localizedString (ns "siberia IP field"))).find
    (ns "ID:" ++ code) with
  | none =>
    simp only [Option.map_none, parseBeProfile_id hc hline, Option.some.injEq, and_true]
  | some found =>
    obtain ⟨n, c⟩ := found
    simp only [Option.map_some, reduceCtorEq, and_false, iff_false]
    intro hid
    split at hid
    · rw [hm] at hid
      cases hid
    · next hn =>
      obtain ⟨before, rest, hs, rfl, -⟩ := find_eq_some hfind
      have htake : uc '\n' ∉ (ns "ID:" ++ code).take (before.length - 1) := fun hmem =>
        hline' (List.mem_of_mem_take hmem)
      obtain hnone | hle := length_parseBeProfile hc htake hid
      · rw [hm] at hnone
        cases hnone
      · have hle' := congrArg List.length hs
        rw [hlength, List.length_append] at hle'
        rw [List.length_take, hlength] at hle
        omega

end BathyScaphe.Dat
