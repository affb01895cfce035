import BathyScaphe.Dat.Patterns

/-!
# The date of a line

How the parser takes the third field of a line apart: an era in front of the last
comma with digits, the date up to the last time, hundredths of a second, the link of a
stock holder, and behind a blank the extra field.
-/

namespace BathyScaphe.Dat

open NSString Regex

structure DateParts where
  era : Option NSString
  time : NSString
  hundredths : Option NSString
  stock : Option NSString
  extra : NSString

def DateParts.date (p : DateParts) : NSString :=
  (p.era.map (· ++ ns ",")).getD [] ++ p.time ++ p.hundredths.getD [] ++
    (p.stock.map (ns " " ++ ·)).getD []

section
variable (cls : Classes)

/-- The era stands in front of the last comma with two digits. -/
inductive EraEnds : Option NSString → NSString → NSString → Prop
  | none (h : ∀ v w, field = v ++ w → startsWith cls.comma w = false) : EraEnds none field field
  | some (h : IsLast (fun w => startsWith cls.comma w = true) (uc ',' :: rest)) :
    EraEnds (some era) (era ++ uc ',' :: rest) rest

inductive TimeEnds : NSString → NSString → NSString → Prop
  | intro (day : NSString) (h : IsLast (fun w => startsWith cls.time w = true) clock) :
    TimeEnds (day ++ clock.take 5) (day ++ clock) (clock.drop 5)

inductive HundredthsEnd : Option NSString → NSString → NSString → Prop
  | none (h : startsWith cls.hundredths tail = false) : HundredthsEnd none tail tail
  | some (h : startsWith cls.hundredths tail = true) :
    HundredthsEnd (some (tail.take 3)) tail (tail.drop 3)

end

/-- The link of a stock holder ends with the last end of a link. -/
inductive StockEnds : Option NSString → NSString → NSString → Prop
  | none (h : ∀ y, tail = Classes.stockOpen ++ y → ¬ Classes.stockClose <:+: y) :
    StockEnds none tail tail
  | some (title : NSString) (h : IsLast (Classes.stockClose <+: ·) (Classes.stockClose ++ rest)) :
    StockEnds (some (Classes.stockOpen ++ (title ++ Classes.stockClose)))
      (Classes.stockOpen ++ (title ++ (Classes.stockClose ++ rest))) rest

def dropBlank (s : NSString) : NSString := dropOne (fun c => decide (c = uc ' ')) s

structure Divides (cls : Classes) (p : DateParts) (field : NSString) : Prop where
  line : uc '\n' ∉ field
  ends : ∃ dated timed tail rest, EraEnds cls p.era field dated ∧ TimeEnds cls p.time dated timed ∧
    HundredthsEnd cls p.hundredths timed tail ∧ StockEnds p.stock (dropBlank tail) rest ∧
    p.extra = dropBlank rest

variable {cls : Classes} {p : DateParts} {field date extra : NSString}

theorem TimeEnds.of_eq (day : NSString) {clock time timed tail : NSString}
    (h : IsLast (fun w => startsWith cls.time w = true) clock)
    (heq : time = day ++ clock.take 5 ∧ timed = day ++ clock ∧ tail = clock.drop 5) :
    TimeEnds cls time timed tail := by
  obtain ⟨rfl, rfl, rfl⟩ := heq
  exact .intro day h

theorem any_of_line {s : NSString} (hline : uc '\n' ∉ s) : ∀ c ∈ s, Classes.any c = true := by
  intro c hc
  refine decide_eq_true ?_
  rintro rfl
  exact hline hc

-- What the engine finds

theorem fails_stock {tail : NSString} (h : ∀ y, tail = Classes.stockOpen ++ y →
    ¬ Classes.stockClose <:+: y) :
    Fails Classes.stock ⟨pos, tail, groups⟩ := by
  refine Fails.group (fails_seq_of_forall fun c hc => ?_)
  obtain ⟨y, hy, rfl⟩ := mem_run_text hc
  refine fails_seq_of_forall fun c hc => ?_
  obtain ⟨v, w, rfl, rfl⟩ := mem_run_star hc
  refine fails_text fun hclose => h _ hy ?_
  exact hclose.isInfix.trans (List.suffix_append v w).isInfix

theorem leads_stock (pos : Nat) (groups : List (Nat × Nat × Nat)) {title rest : NSString}
    (hline : uc '\n' ∉ title)
    (h : IsLast (Classes.stockClose <+: ·) (Classes.stockClose ++ rest)) :
    ∃ last, last = pos + (Classes.stockOpen ++ (title ++ Classes.stockClose)).length ∧
      Leads Classes.stock ⟨pos, Classes.stockOpen ++ (title ++ (Classes.stockClose ++ rest)),
        groups⟩
        ⟨last, rest, (3, pos, last) :: groups⟩ := by
  refine ⟨pos + Classes.stockOpen.length + title.length + Classes.stockClose.length, ?_, ?_⟩
  · simp only [List.length_append]
    omega
  · refine Leads.group ((leads_text _ _).seq (leads_star_seq (any_of_line hline) ?_
      (leads_text _ _)))
    exact fun v w hrest hv => fails_text (h.later v w hrest hv)

theorem leads_all {s : NSString} (hline : uc '\n' ∉ s) :
    Leads (.star Classes.any) ⟨pos, s, groups⟩ ⟨pos + s.length, [], groups⟩ := by
  have hstar : Leads (.star Classes.any) ⟨pos, s ++ [], groups⟩ _ :=
    leads_star (any_of_line hline) nofun
  rwa [List.append_nil] at hstar

theorem leads_extra (before : NSString) (groups : List (Nat × Nat × Nat)) {rest : NSString}
    (hline : uc '\n' ∉ rest) :
    ∃ c, Leads (.seq (.opt (.sat (· = uc ' '))) (.group 4 (.star Classes.any)))
      ⟨before.length, rest, groups⟩ c ∧
      captured (before ++ rest) c.groups 4 = some (dropBlank rest) ∧
      ∀ i, i ≠ 4 → captured (before ++ rest) c.groups i = captured (before ++ rest) groups i := by
  obtain ⟨taken, htaken, hopt⟩ := exists_dropOne (fun c => decide (c = uc ' ')) rest
  have hdropped : uc '\n' ∉ dropBlank rest :=
    fun hmem => hline (htaken ▸ List.mem_append_right taken hmem)
  refine ⟨_, (hopt _ _).seq (leads_all hdropped).group, ?_, fun i hi => captured_cons_ne _ _ _ _ hi⟩
  have htext : before ++ rest = (before ++ taken) ++ (dropBlank rest ++ []) := by
    rw [List.append_nil, List.append_assoc]
    exact congrArg (before ++ ·) htaken
  have hfirst : before.length + taken.length = (before ++ taken).length := List.length_append.symm
  exact captured_cons_self htext hfirst rfl groups 4

theorem leads_stockAndExtra (before : NSString) {tail rest : NSString} (hline : uc '\n' ∉ tail)
    (h : StockEnds stock (dropBlank tail) rest) (hnone : groups.lookup 3 = none) :
    ∃ c, Leads Classes.stockAndExtra ⟨before.length, tail, groups⟩ c ∧
      captured (before ++ tail) c.groups 3 = stock ∧
      captured (before ++ tail) c.groups 4 = some (dropBlank rest) ∧
      ∀ i, i ≠ 3 → i ≠ 4 → captured (before ++ tail) c.groups i =
        captured (before ++ tail) groups i := by
  obtain ⟨taken, htaken, hopt⟩ := exists_dropOne (fun c => decide (c = uc ' ')) tail
  have hline' : uc '\n' ∉ dropBlank tail :=
    fun hmem => hline (htaken ▸ List.mem_append_right taken hmem)
  have htext : before ++ tail = (before ++ taken) ++ dropBlank tail := by
    rw [List.append_assoc]
    exact congrArg (before ++ ·) htaken
  have hfirst : before.length + taken.length = (before ++ taken).length := List.length_append.symm
  have hblank : Leads (.opt (.sat (· = uc ' '))) ⟨before.length, tail, groups⟩
      ⟨(before ++ taken).length, dropBlank tail, groups⟩ := hfirst ▸ hopt _ _
  rw [htext]
  generalize dropBlank tail = dropped at h hline' hblank
  cases h with
  | none h =>
    obtain ⟨c, hleads, hextra, hother⟩ := leads_extra (before ++ taken) groups hline'
    refine ⟨c, hblank.seq ((fails_stock h).opt.seq hleads), ?_, hextra, fun i _ hi => hother i hi⟩
    rw [hother 3 (by decide), captured, hnone, Option.map_none]
  | some title h =>
    have htitle : uc '\n' ∉ title := fun hmem => hline' (by simp [hmem])
    have hrest : uc '\n' ∉ rest := fun hmem => hline' (by simp [hmem])
    obtain ⟨last, rfl, hstock⟩ := leads_stock (before ++ taken).length groups htitle h
    set link := Classes.stockOpen ++ (title ++ Classes.stockClose) with hlink
    have hsplit : Classes.stockOpen ++ (title ++ (Classes.stockClose ++ rest)) = link ++ rest := by
      simp only [hlink, List.append_assoc]
    have hwhole :
      before ++ taken ++ (Classes.stockOpen ++ (title ++ (Classes.stockClose ++ rest))) =
        (before ++ taken ++ link) ++ rest := by
      rw [hsplit, List.append_assoc (before ++ taken)]
    obtain ⟨c, hleads, hextra, hother⟩ := leads_extra (before ++ taken ++ link)
      ((3, (before ++ taken).length, (before ++ taken).length + link.length) :: groups) hrest
    rw [← hwhole] at hextra hother
    have hlength : (before ++ taken ++ link).length = (before ++ taken).length + link.length :=
      List.length_append
    refine ⟨c, hblank.seq (hstock.opt.seq (hlength ▸ hleads)), ?_, hextra, fun i h3 h4 => ?_⟩
    · rw [hother 3 (by decide)]
      exact captured_cons_self (hwhole.trans (List.append_assoc _ _ _)) rfl rfl groups 3
    · rw [hother i h4, captured_cons_ne _ _ _ _ h3]

theorem leads_time (hline : uc '\n' ∉ dated) (htime : TimeEnds cls time dated timed)
    (hhundredths : HundredthsEnd cls hundredths timed tail) :
    ∃ before groups, dated = before ++ tail ∧ captured dated groups 1 = some time ∧
      captured dated groups 2 = hundredths ∧ groups.lookup 3 = none ∧
      ∀ t c, Leads t ⟨before.length, tail, groups⟩ c →
        Leads (.seq .start (.seq (.group 1 (.seq (.star Classes.any) (sats cls.time)))
          (.seq (.opt (.group 2 (sats cls.hundredths))) t))) ⟨0, dated, []⟩ c := by
  cases htime with
  | intro day h =>
    rename_i clock
    have hclock : 5 ≤ clock.length := length_le_of_startsWith h.holds
    have hday : uc '\n' ∉ day := fun hmem => hline (List.mem_append_left clock hmem)
    have hlength : (day ++ clock.take 5).length = 0 + day.length + 5 := by
      rw [List.length_append, List.length_take, Nat.min_eq_left hclock, Nat.zero_add]
    have hwhole : day ++ clock = (day ++ clock.take 5) ++ clock.drop 5 := by
      rw [List.append_assoc, List.take_append_drop]
    have hfirst : Leads (.group 1 (.seq (.star Classes.any) (sats cls.time))) ⟨0, day ++ clock, []⟩
        ⟨(day ++ clock.take 5).length, clock.drop 5, [(1, 0, (day ++ clock.take 5).length)]⟩ := by
      rw [hlength]
      refine Leads.group (leads_star_seq (any_of_line hday) ?_ (leads_sats h.holds))
      exact fun v w hclock hv => fails_sats (Bool.eq_false_of_not_eq_true (h.later v w hclock hv))
    have htext : day ++ clock = [] ++ ((day ++ clock.take 5) ++ clock.drop 5) := hwhole
    cases hhundredths with
    | none hnone =>
      refine ⟨_, _, hwhole, captured_cons_self htext rfl (Nat.zero_add _).symm [] 1,
        rfl, rfl, fun t c ht => ?_⟩
      exact leads_start.seq (hfirst.seq ((fails_sats hnone).group.opt.seq ht))
    | some hsome =>
      have hthree : 3 ≤ (clock.drop 5).length := length_le_of_startsWith hsome
      have htwo : day ++ clock =
          (day ++ clock.take 5) ++ ((clock.drop 5).take 3 ++ (clock.drop 5).drop 3) := by
        rw [List.take_append_drop, ← hwhole]
      have hbefore : day ++ clock = (day ++ clock.take 5 ++ (clock.drop 5).take 3) ++
        (clock.drop 5).drop 3 := by
        rw [List.append_assoc _ _ ((clock.drop 5).drop 3), ← htwo]
      have hdots : (day ++ clock.take 5).length + 3 = (day ++ clock.take 5).length +
        ((clock.drop 5).take 3).length := by
        rw [List.length_take, Nat.min_eq_left hthree]
      have hend : (day ++ clock.take 5).length + 3 =
        (day ++ clock.take 5 ++ (clock.drop 5).take 3).length :=
        hdots.trans List.length_append.symm
      refine ⟨_, [(2, (day ++ clock.take 5).length, (day ++ clock.take 5).length + 3),
        (1, 0, (day ++ clock.take 5).length)], hbefore, ?_, ?_, rfl, fun t c ht => ?_⟩
      · rw [captured_cons_ne _ _ _ _ (by decide)]
        exact captured_cons_self htext rfl (Nat.zero_add _).symm [] 1
      · exact captured_cons_self htwo rfl hdots _ 2
      · rw [← hend] at ht
        exact leads_start.seq (hfirst.seq ((leads_sats hsome).group.opt.seq ht))

theorem leads_dateAndExtra (hline : uc '\n' ∉ dated) (htime : TimeEnds cls time dated timed)
    (hhundredths : HundredthsEnd cls hundredths timed tail)
    (hstock : StockEnds stock (dropBlank tail) rest) :
    ∃ c, Leads cls.dateAndExtra ⟨0, dated, []⟩ c ∧ captured dated c.groups 1 = some time ∧
      captured dated c.groups 2 = hundredths ∧ captured dated c.groups 3 = stock ∧
      captured dated c.groups 4 = some (dropBlank rest) := by
  obtain ⟨before, groups, rfl, hone, htwo, hnone, hleads⟩ := leads_time hline htime hhundredths
  have htail : uc '\n' ∉ tail := fun hmem => hline (List.mem_append_right before hmem)
  obtain ⟨c, hc, hthree, hfour, hother⟩ := leads_stockAndExtra before htail hstock hnone
  refine ⟨c, hleads _ c hc, ?_, ?_, hthree, hfour⟩
  · rw [hother 1 (by decide) (by decide), hone]
  · rw [hother 2 (by decide) (by decide), htwo]

theorem find_dateAndExtra_eq_none (h : ∀ v w, dated = v ++ w → startsWith cls.time w = false) :
    cls.dateAndExtra.find dated = none := by
  refine find_eq_none fun v w hs => ?_
  cases v with
  | cons x v => exact Fails.seq (fails_start (Nat.succ_ne_zero _))
  | nil =>
    refine fails_seq_of_forall fun c hc =>
      Fails.seq (Fails.group (fails_seq_of_forall fun c' hc' => ?_))
    obtain rfl : c = ⟨0, w, []⟩ := by simpa using hc
    obtain ⟨v, w', rfl, rfl⟩ := mem_run_star hc'
    exact fails_sats (h v w' hs)

theorem exists_leads_digits (cls : Classes) (c : Config UniChar) :
    ∃ c', Leads (.seq (.opt (.sat cls.digit)) (.opt (.sat cls.digit))) c c' ∧
      c'.groups = c.groups := by
  obtain ⟨pos, rest, groups⟩ := c
  obtain ⟨taken, -, hfirst⟩ := exists_dropOne cls.digit rest
  obtain ⟨taken', -, hsecond⟩ := exists_dropOne cls.digit (dropOne cls.digit rest)
  exact ⟨_, (hfirst _ _).seq (hsecond _ _), rfl⟩

theorem find_eraPrefix (hline : uc '\n' ∉ field) (h : EraEnds cls (some era) field dated) :
    ∃ c, cls.eraPrefix.find field = some (0, c) ∧ c.groups = [(1, 0, era.length)] := by
  cases h with
  | some h =>
    have hera : uc '\n' ∉ era := fun hmem => hline (List.mem_append_left _ hmem)
    obtain ⟨c, hc, hgroups⟩ := exists_leads_digits cls
      ⟨0 + era.length + 3, (uc ',' :: dated).drop 3, [(1, 0, 0 + era.length)]⟩
    refine ⟨c, find_of_leads (leads_start.seq (leads_group_star_seq (any_of_line hera) ?_ ?_)), ?_⟩
    · exact fun v w groups hrest hv =>
        Fails.seq (fails_sats (Bool.eq_false_of_not_eq_true (h.later v w hrest hv)))
    · exact (leads_sats h.holds).seq hc
    · rw [hgroups, Nat.zero_add]

theorem find_eraPrefix_eq_none (h : EraEnds cls none field dated) :
    cls.eraPrefix.find field = none := by
  cases h with
  | none h =>
    refine find_eq_none fun v w hs => ?_
    cases v with
    | cons x v => exact Fails.seq (fails_start (Nat.succ_ne_zero _))
    | nil =>
      refine fails_seq_of_forall fun c hc => fails_seq_of_forall fun c' hc' => Fails.seq ?_
      obtain rfl : c = ⟨0, w, []⟩ := by simpa using hc
      obtain ⟨c'', hc'', rfl⟩ := List.mem_map.mp hc'
      obtain ⟨v, w', rfl, rfl⟩ := mem_run_star hc''
      exact fails_sats (h v w' hs)

-- What the parser makes of it

variable {env : TextServices}

theorem matchOf_of_find {r : Regex UniChar} {s : NSString} (h : r.find s = some (n, c)) :
    ∃ mt, matchOf r s = some mt ∧ (∀ i, substringAtIndex mt s i = captured s c.groups i) ∧
      mt.rangeOfSubstringAtIndex = fun i => (c.groups.lookup i).map fun (first, last) =>
        ⟨first, last - first⟩ := by
  refine ⟨_, by rw [matchOf, h, Option.map_some], fun i => ?_, rfl⟩
  rw [substringAtIndex, captured, Option.map_map]
  rfl

theorem EraEnds.line (h : EraEnds cls era field dated) (hline : uc '\n' ∉ field) :
    uc '\n' ∉ dated := by
  cases h with
  | none => exact hline
  | some => exact fun hmem => hline (List.mem_append_right _ (List.mem_cons_of_mem _ hmem))

theorem matchInString_eraPrefix (hc : Compiles env cls) (hline : uc '\n' ∉ field)
    (h : EraEnds cls era field dated) :
    ∃ mt cut, env.matchInString (ns "^(.*),\\d\x7b2,4\x7d") field = mt ∧
      (mt.bind fun mt => substringAtIndex mt field 1) = era ∧
      (mt.bind fun mt => mt.rangeOfSubstringAtIndex 1) = cut ∧
      dated = cut.elim field fun cutRange => field.drop (cutRange.max + 1) := by
  rw [hc.eraPrefix field hline]
  cases era with
  | none =>
    rw [matchOf, find_eraPrefix_eq_none h, Option.map_none]
    cases h with
    | none => exact ⟨none, none, rfl, rfl, rfl, rfl⟩
  | some era =>
    obtain ⟨c, hfind, hgroups⟩ := find_eraPrefix hline h
    obtain ⟨mt, hmatch, htext, hrange⟩ := matchOf_of_find hfind
    refine ⟨some mt, some ⟨0, era.length - 0⟩, hmatch, ?_, ?_, ?_⟩
    · rw [Option.bind_some, htext, hgroups]
      cases h with
      | some h => exact captured_cons_self (u := []) rfl rfl (Nat.zero_add _).symm [] 1
    · rw [Option.bind_some, hrange, hgroups]
      rfl
    · cases h with
      | some h => simp [NSRange.max]

theorem divideField_divides (hc : Compiles env cls) (h : Divides cls p field)
    (m : CMRThreadMessage) :
    divideField env field m = (some p.time, some p.extra, { m with
      dateRepresentation := some p.date }) := by
  obtain ⟨dated, timed, tail, rest, hera, htime, hhundredths, hstock, hextra⟩ := h.ends
  obtain ⟨mt, cut, hmatch, hprefix, hrange, hcut⟩ := matchInString_eraPrefix hc h.line hera
  have hline := hera.line h.line
  obtain ⟨c, hleads, hone, htwo, hthree, hfour⟩ := leads_dateAndExtra hline htime hhundredths hstock
  obtain ⟨mt', hmatch', htext, -⟩ := matchOf_of_find (find_of_leads hleads)
  rw [← hc.dateAndExtra dated hline] at hmatch'
  rw [divideField]
  simp only [hmatch, hprefix, hrange]
  obtain ⟨era, time, hundredths, stock, extra⟩ := p
  cases cut with
  | none =>
    obtain rfl : dated = field := hcut
    simp only [hmatch', htext, hone, htwo, hthree, hfour, ← hextra]
    cases era <;> cases hundredths <;> cases stock <;> simp [DateParts.date, formatted]
  | some cutRange =>
    obtain rfl : dated = field.drop (cutRange.max + 1) := hcut
    simp only [hmatch', htext, hone, htwo, hthree, hfour, ← hextra]
    cases era <;> cases hundredths <;> cases stock <;> simp [DateParts.date, formatted]

theorem Divides.time_eq (hc : Compiles env cls) (h : Divides cls p field)
    (h' : Divides cls p' field) :
    p.time = p'.time ∧ p.date = p'.date ∧ p.extra = p'.extra := by
  have heq := (divideField_divides hc h {}).symm.trans (divideField_divides hc h' {})
  simp only [Prod.mk.injEq, Option.some.injEq, CMRThreadMessage.mk.injEq] at heq
  exact ⟨heq.1, heq.2.2.2.2.2.2.1, heq.2.1⟩

theorem divides_or_timeless (hc : Compiles env cls) (hline : uc '\n' ∉ field) :
    (∃ p, Divides cls p field) ∨ ∀ m, ∃ extra, divideField env field m = (none, extra, m) := by
  obtain ⟨era, dated, hera⟩ : ∃ era dated, EraEnds cls era field dated := by
    obtain hnone | ⟨v, w, rfl, hlast⟩ :=
      exists_isLast (fun w => startsWith cls.comma w = true) field
    · exact ⟨none, field, .none fun v w hs => Bool.eq_false_of_not_eq_true (hnone v w hs)⟩
    · cases w with
      | nil => cases hlast.holds
      | cons x w =>
        have hcomma := hlast.holds
        rw [Classes.comma, startsWith, Bool.and_eq_true] at hcomma
        obtain rfl : x = uc ',' := of_decide_eq_true hcomma.1
        exact ⟨some v, w, .some hlast⟩
  obtain hnone | ⟨day, clock, rfl, hlast⟩ :=
    exists_isLast (fun w => startsWith cls.time w = true) dated
  · refine .inr fun m => ?_
    obtain ⟨mt, cut, hmatch, -, hrange, hcut⟩ := matchInString_eraPrefix hc hline hera
    have hfind := find_dateAndExtra_eq_none fun v w hs =>
      Bool.eq_false_of_not_eq_true (hnone v w hs)
    have hmatch' := hc.dateAndExtra dated (hera.line hline)
    rw [matchOf, hfind, Option.map_none] at hmatch'
    rw [divideField]
    simp only [hmatch, hrange]
    cases cut with
    | none =>
      obtain rfl : dated = field := hcut
      simp only [hmatch']
      exact ⟨_, rfl⟩
    | some cutRange =>
      obtain rfl : dated = field.drop (cutRange.max + 1) := hcut
      simp only [hmatch']
      exact ⟨_, rfl⟩
  · obtain ⟨hundredths, tail, hhundredths⟩ : ∃ hundredths tail,
        HundredthsEnd cls hundredths (clock.drop 5) tail := by
      cases hstarts : startsWith cls.hundredths (clock.drop 5) with
      | false => exact ⟨none, _, .none hstarts⟩
      | true => exact ⟨some _, _, .some hstarts⟩
    obtain ⟨stock, rest, hstock⟩ : ∃ stock rest, StockEnds stock (dropBlank tail) rest := by
      by_cases hopen : Classes.stockOpen <+: dropBlank tail
      · obtain ⟨y, hy⟩ := hopen
        rw [← hy]
        obtain hnone | ⟨title, w, rfl, hlast⟩ := exists_isLast (Classes.stockClose <+: ·) y
        · refine ⟨none, _, .none ?_⟩
          rintro y' hy' ⟨before, after, rfl⟩
          refine hnone before (Classes.stockClose ++ after) ?_ (List.prefix_append _ _)
          rw [List.append_cancel_left hy', List.append_assoc]
        · obtain ⟨rest, rfl⟩ := hlast.holds
          exact ⟨_, rest, .some title hlast⟩
      · exact ⟨none, _, .none fun y hy => absurd ⟨y, hy.symm⟩ hopen⟩
    exact .inl ⟨⟨era, day ++ clock.take 5, hundredths, stock, dropBlank rest⟩,
      hline, _, _, _, _, hera,
      .intro day hlast, hhundredths, hstock, rfl⟩

theorem EraEnds.field_eq (h : EraEnds cls era field dated) :
    field = (era.map (· ++ ns ",")).getD [] ++ dated := by
  cases h with
  | none => rfl
  | some => simp [ns, uc]

theorem TimeEnds.dated_eq (h : TimeEnds cls time dated timed) : dated = time ++ timed := by
  cases h with
  | intro => rw [List.append_assoc, List.take_append_drop]

theorem HundredthsEnd.timed_eq (h : HundredthsEnd cls hundredths timed tail) :
    timed = hundredths.getD [] ++ tail := by
  cases h with
  | none => rfl
  | some => exact (List.take_append_drop 3 timed).symm

theorem TimeEnds.length_le (h : TimeEnds cls time dated timed) : 5 ≤ dated.length := by
  cases h with
  | intro day h =>
    rename_i clock
    have hclock : 5 ≤ clock.length := length_le_of_startsWith h.holds
    rw [List.length_append]
    omega

theorem Divides.length_ne_zero (h : Divides cls p field) : field.length ≠ 0 := by
  obtain ⟨dated, timed, tail, rest, hera, htime, -⟩ := h.ends
  have hdated := htime.length_le
  rw [hera.field_eq, List.length_append]
  omega

theorem parseDateExtraField_divides (hc : Compiles env cls) (h : Divides cls p field)
    (m : CMRThreadMessage) :
    ∃ d, dateWith2chDateString env (some p.time) none = some d ∧ parseDateExtraField env field m =
      some (parseExtraField env (some p.extra)
        ({ m with dateRepresentation := some p.date }.setDate (some d))) := by
  obtain ⟨d, hd⟩ : ∃ d, dateWith2chDateString env (some p.time) none = some d := by
    cases p.time <;> exact ⟨_, rfl⟩
  refine ⟨d, hd, ?_⟩
  simp only [parseDateExtraField, if_neg h.length_ne_zero, divideField_divides hc h m, hd]

/-- A text is the date of a field if the parser takes it for that. -/
def IsDated (cls : Classes) (date extra : NSString) : Prop :=
  ∃ p, Divides cls p (date ++ extra) ∧ p.date = date

theorem divides_of_parse (hc : Compiles env cls) (hline : uc '\n' ∉ field)
    (hparse : parseDateExtraField env field {} = some m)
    (hdate : m.dateRepresentation = some date) :
    ∃ p, Divides cls p field ∧ p.date = date := by
  obtain ⟨p, hp⟩ | htimeless := divides_or_timeless hc hline
  · obtain ⟨d, -, heq⟩ := parseDateExtraField_divides hc hp {}
    obtain ⟨host, beProfile, IDString, hsets⟩ := parseExtraField_sets env (some p.extra)
      ({ ({} : CMRThreadMessage) with dateRepresentation := some p.date }.setDate (some d))
    rw [heq, hsets] at hparse
    rw [← Option.some.inj hparse] at hdate
    exact ⟨p, hp, Option.some.inj hdate⟩
  · obtain ⟨extraPart, hdivide⟩ := htimeless {}
    obtain ⟨host, beProfile, IDString, hsets⟩ := parseExtraField_sets env extraPart {}
    simp only [parseDateExtraField, hdivide, hsets] at hparse
    split at hparse <;> rw [← Option.some.inj hparse] at hdate <;> cases hdate

-- What stands behind the date

theorem dropBlank_blank (s : NSString) : dropBlank (uc ' ' :: s) = s := rfl

theorem dropBlank_of_ne (h : uc ' ' ∉ s.head?) : dropBlank s = s := by
  cases s with
  | nil => rfl
  | cons c s =>
    have hc : c ≠ uc ' ' := fun hc => h (hc ▸ rfl)
    rw [dropBlank, dropOne, if_neg (by simpa using hc)]

theorem Divides.field_eq (h : Divides cls p field) :
    ∃ w, field = p.date ++ w ∧ (p.extra = dropBlank w ∨ p.extra = dropBlank (dropBlank w)) := by
  obtain ⟨dated, timed, tail, rest, hera, htime, hhundredths, hstock, hextra⟩ := h.ends
  rw [DateParts.date, hextra, hera.field_eq, htime.dated_eq, hhundredths.timed_eq]
  generalize hdropped : dropBlank tail = dropped at hstock
  generalize p.stock = stock at hstock ⊢
  cases hstock with
  | none => exact ⟨tail, by simp, .inr (hdropped ▸ rfl)⟩
  | some title h =>
    -- the link has a blank of its own, so that another one is in front of it
    have htail :
      tail = uc ' ' :: (Classes.stockOpen ++ (title ++ (Classes.stockClose ++ rest))) := by
      by_cases hblank : uc ' ' ∈ tail.head?
      · obtain ⟨tail, rfl⟩ := List.head?_eq_some_iff.mp hblank
        rw [← hdropped, dropBlank_blank]
      · rw [dropBlank_of_ne hblank] at hdropped
        rw [hdropped] at hblank
        exact absurd rfl hblank
    exact ⟨rest, by rw [htail]; simp [ns, uc], .inl rfl⟩

/-- A field that is empty, or starts with one blank. -/
def StartsWithBlank (extra : NSString) : Prop :=
  extra = [] ∨ ∃ s, extra = uc ' ' :: s ∧ uc ' ' ∉ s.head?

theorem Divides.extra_eq (h : Divides cls p (date ++ extra)) (hdate : p.date = date)
    (hextra : StartsWithBlank extra) :
    p.extra = extra.drop 1 := by
  obtain ⟨w, hw, hpart⟩ := h.field_eq
  rw [hdate] at hw
  obtain rfl := List.append_cancel_left hw
  obtain rfl | ⟨s, rfl, hs⟩ := hextra
  · exact hpart.elim id id
  · rw [dropBlank_blank, dropBlank_of_ne hs] at hpart
    exact hpart.elim id id

theorem Divides.extra_subset (h : Divides cls p field) : p.date ⊆ field ∧ p.extra ⊆ field := by
  have hdrop : ∀ w : NSString, dropBlank w ⊆ w := by
    intro w
    obtain ⟨taken, htaken, -⟩ := exists_dropOne (fun c => decide (c = uc ' ')) w
    conv_rhs => rw [htaken]
    exact List.subset_append_right _ _
  obtain ⟨w, rfl, hextra⟩ := h.field_eq
  refine ⟨List.subset_append_left _ _, List.Subset.trans ?_ (List.subset_append_right _ _)⟩
  obtain hextra | hextra := hextra
  · exact hextra ▸ hdrop w
  · exact hextra ▸ List.Subset.trans (hdrop _) (hdrop w)

-- What a message holds stands in its line

theorem substringAtIndex_subset {mt : OGRegularExpressionMatch}
    (h : substringAtIndex mt s i = some t) :
    t ⊆ s := by
  obtain ⟨range, -, rfl⟩ := Option.map_eq_some_iff.mp h
  exact List.Subset.trans (List.take_subset _ _) (List.drop_subset _ _)

theorem parseID_subset (h : (parseID env s m).IDString = some t) : m.IDString = some t ∨ t ⊆ s := by
  rw [parseID] at h
  split at h
  · exact .inr (substringAtIndex_subset h)
  · exact .inl h

theorem parseBeProfile_subset (h : (parseBeProfile env s m).IDString = some t) :
    m.IDString = some t ∨ t ⊆ s := by
  simp only [parseBeProfile] at h
  have hparse {m' : CMRThreadMessage} (h : (parseID env s m').IDString = some t)
      (hm : m'.IDString = m.IDString) := hm ▸ parseID_subset h
  split at h
  · exact hparse h rfl
  · split at h
    · split at h
      · exact .inl h
      · exact hparse h rfl
    · exact hparse h rfl

theorem parseBeProfile_host : (parseBeProfile env s m).host = m.host := by
  obtain ⟨beProfile, IDString, hsets⟩ := parseBeProfile_sets env s m
  rw [hsets]

theorem parseExtraField_ID_subset (h : (parseExtraField env (some s) m).IDString = some t) :
    m.IDString = some t ∨ t ⊆ s := by
  simp only [parseExtraField] at h
  split at h
  · exact .inl h
  · split at h
    · exact .inl h
    · split at h
      · split at h
        · exact .inl h
        · have hsub := parseBeProfile_subset h
          exact hsub.imp_right fun hsub => List.Subset.trans hsub (List.take_subset _ _)
      · exact parseBeProfile_subset h

theorem parseExtraField_host_subset (h : (parseExtraField env (some s) m).host = some t) :
    m.host = some t ∨ t ⊆ s := by
  simp only [parseExtraField] at h
  split at h
  · exact .inl h
  · split at h
    · exact .inr (Option.some.inj h ▸ List.Subset.refl _)
    · split at h
      · split at h
        · exact .inr (substringAtIndex_subset h)
        · rw [parseBeProfile_host] at h
          exact .inr (substringAtIndex_subset h)
      · rw [parseBeProfile_host] at h
        exact .inl h

theorem mem_separatedLine (h : separatedLine line = some components) (hfield : field ∈ components)
    (hc : c ∈ field) : c ∈ line ∨ c = uc ',' := by
  have hpieces {separator s piece : NSString} (hne : separator ≠ [])
      (hmem : piece ∈ s.componentsSeparatedByString separator) : piece ⊆ s :=
    Split.subset_of_mem_pieces hne hmem
  cases hseparator : line.containsString (ns "<>") with
  | true =>
    rw [(separatedLine_of_separator hseparator).2, fieldsOfLine, if_pos hseparator] at h
    obtain rfl := Option.some.inj h
    exact .inl (hpieces (by decide) hfield hc)
  | false =>
    rw [separatedLine_of_comma hseparator] at h
    split at h
    · cases h
    · obtain rfl := Option.some.inj h
      obtain ⟨piece, hpiece, rfl⟩ := List.mem_map.mp hfield
      rw [fieldsOfLine, hseparator, if_neg Bool.false_ne_true] at hpiece
      have hline : piece ⊆ line := hpieces (by decide) hpiece
      rw [stringByReplaceCharacters] at hc
      split at hc
      · have hall : ∀ x ∈ (ns ",").intercalate (Split.pieces stringWillConvertToComma piece),
            x ∈ line ∨ x = uc ',' := by
          refine Split.forall_mem_intercalate (fun x hx =>
            .inr (List.mem_singleton.mp hx)) |>.mpr ?_
          exact fun part hpart x hx => .inl (hline (hpieces (by decide) hpart hx))
        exact hall c hc
      · exact .inl (hline hc)

end BathyScaphe.Dat
