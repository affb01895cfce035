import BathyScaphe.Host.LivedoorHandler

/-!
# The DAT of a rawmode response

When the conversion gives the DAT of the records: every line that is not a record
has to start with no number or zero, and the first line has to have the field of
the title.
-/

namespace BathyScaphe.Host

open NSString Dat

theorem length_datLines_cons (h : Increasing number (r :: records)) :
    (datLines number (r :: records)).length = r.number - number +
      (datLines r.number records).length := by
  have hlt := h.head_lt
  rw [datLines, List.length_append, List.length_replicate, List.length_cons]
  omega

theorem length_datLines (h : Increasing number records) :
    (datLines number records).length = (records.getLast?.map fun r =>
      r.number - number).getD 0 := by
  induction records generalizing number with
  | nil => rfl
  | cons r records ih =>
    rw [length_datLines_cons h, ih h.tail]
    cases hlast : records.getLast? with
    | none =>
      rw [List.getLast?_eq_none_iff.mp hlast]
      rfl
    | some last =>
      have hlt := h.head_lt
      have hlast' := h.tail.greater last (List.mem_of_getLast? hlast)
      rw [List.getLast?_cons, hlast]
      simp only [Option.map_some, Option.getD_some]
      omega

theorem getElem?_datLines_cons (h : Increasing number (r :: records)) (k : Nat) :
    (datLines number (r :: records))[r.number - number + k]? = (datLines r.number records)[k]? := by
  have hlt := h.head_lt
  have hindex : r.number - number + k - (r.number - (number + 1)) = k + 1 := by omega
  rw [datLines, List.getElem?_append_right (by rw [List.length_replicate]; omega),
    List.length_replicate, hindex, List.getElem?_cons_succ]

theorem isDat_datLines (h : Increasing number records) :
    IsDat number records (datLines number records) := by
  refine ⟨length_datLines h, ?_, ?_⟩
  · induction records generalizing number with
    | nil => exact nofun
    | cons r records ih =>
      intro r' hr'
      have hlt := h.head_lt
      obtain rfl | hr' := List.mem_cons.mp hr'
      · have hindex : r'.number - number - 1 - (r'.number - (number + 1)) = 0 := by omega
        rw [datLines, List.getElem?_append_right (by rw [List.length_replicate]; omega),
          List.length_replicate, hindex, List.getElem?_cons_zero]
      · have hlater := h.tail.greater r' hr'
        rw [← ih h.tail r' hr', ← getElem?_datLines_cons h]
        congr 1
        omega
  · induction records generalizing number with
    | nil => exact nofun
    | cons r records ih =>
      intro k hk hmissing
      have hlt := h.head_lt
      rw [length_datLines_cons h] at hk
      by_cases hbefore : k < r.number - (number + 1)
      · rw [datLines, List.getElem?_append_left (by rw [List.length_replicate]; omega),
          List.getElem?_replicate_of_lt hbefore]
      · have hr := hmissing r List.mem_cons_self
        obtain ⟨j, rfl⟩ : ∃ j, k = r.number - number + j := ⟨k - (r.number - number), by omega⟩
        rw [getElem?_datLines_cons h]
        refine ih h.tail j (by omega) fun r' hr' => ?_
        have hr' := hmissing r' (List.mem_cons_of_mem r hr')
        omega

theorem IsDat.unique (h : IsDat number records lines) (h' : IsDat number records lines') :
    lines = lines' := by
  refine List.ext_getElem? fun k => ?_
  by_cases hk : k < lines.length
  · have hk' : k < lines'.length := by rwa [h'.length, ← h.length]
    by_cases hrecord : ∃ r ∈ records, r.number = number + 1 + k
    · obtain ⟨r, hr, hnumber⟩ := hrecord
      have hindex : k = r.number - number - 1 := by omega
      rw [hindex, h.record r hr, h'.record r hr]
    · have hmissing : ∀ r ∈ records, r.number ≠ number + 1 + k :=
        fun r hr hnumber => hrecord ⟨r, hr, hnumber⟩
      rw [h.missing k hk hmissing, h'.missing k hk' hmissing]
  · have hk' : ¬ k < lines'.length := by rwa [h'.length, ← h.length]
    rw [List.getElem?_eq_none (Nat.not_lt.mp hk), List.getElem?_eq_none (Nat.not_lt.mp hk')]

/-- No number is missing in front of one that an `int` does not hold. -/
def NoGapBeforeLarge (number : Nat) (records : List Record) : Prop :=
  ∀ r ∈ records, 2 ^ 31 ≤ r.number →
    r.number = number + 1 ∨ ∃ r' ∈ records, r'.number + 1 = r.number

theorem noGapBeforeLarge_cons (h : Increasing number (r :: records)) :
    NoGapBeforeLarge number (r :: records) ↔
      (2 ^ 31 ≤ r.number → r.number = number + 1) ∧ NoGapBeforeLarge r.number records := by
  have hlt := h.head_lt
  have hlater := h.tail.greater
  constructor
  · intro hgap
    refine ⟨?_, ?_⟩
    · intro hlarge
      obtain hnext | ⟨r', hr', hnumber⟩ := hgap r List.mem_cons_self hlarge
      · exact hnext
      · obtain rfl | hr' := List.mem_cons.mp hr'
        · omega
        · have hr' := hlater r' hr'
          omega
    · intro r' hr' hlarge
      obtain hnext | ⟨r'', hr'', hnumber⟩ := hgap r' (List.mem_cons_of_mem r hr') hlarge
      · have hr' := hlater r' hr'
        omega
      · obtain rfl | hr'' := List.mem_cons.mp hr''
        · exact .inl hnumber.symm
        · exact .inr ⟨r'', hr'', hnumber⟩
  · rintro ⟨hfirst, hrest⟩
    refine List.forall_mem_cons.mpr ⟨fun hlarge => .inl (hfirst hlarge), ?_⟩
    intro r' hr' hlarge
    obtain hnext | ⟨r'', hr'', hnumber⟩ := hrest r' hr' hlarge
    · exact .inr ⟨r, List.mem_cons_self, hnext.symm⟩
    · exact .inr ⟨r'', List.mem_cons_of_mem r hr'', hnumber⟩

theorem length_writtenLines (h : Increasing number records) :
    (writtenLines number records).length ≤ (datLines number records).length ∧
      ((writtenLines number records).length = (datLines number records).length ↔
        NoGapBeforeLarge number records) := by
  induction records generalizing number with
  | nil => exact ⟨Nat.le_refl _, fun _ => nofun, fun _ => rfl⟩
  | cons r records ih =>
    have hlt := h.head_lt
    obtain ⟨hle, hiff⟩ := ih h.tail
    have hfill : capped r.number - (capped number + 1) ≤ r.number - (number + 1) ∧
        (capped r.number - (capped number + 1) = r.number - (number + 1) ↔
          (2 ^ 31 ≤ r.number → r.number = number + 1)) := by
      rw [capped, capped]
      omega
    rw [noGapBeforeLarge_cons h, ← hiff, ← hfill.2, writtenLines, datLines, List.length_append,
      List.length_append, List.length_replicate, List.length_replicate, List.length_cons,
      List.length_cons]
    omega

theorem writtenLines_eq (h : Increasing number records) (hgap : NoGapBeforeLarge number records) :
    writtenLines number records = datLines number records := by
  induction records generalizing number with
  | nil => rfl
  | cons r records ih =>
    obtain ⟨hfirst, hrest⟩ := (noGapBeforeLarge_cons h).mp hgap
    have hlt := h.head_lt
    have hfill : capped r.number - (capped number + 1) = r.number - (number + 1) := by
      rw [capped, capped]
      omega
    rw [writtenLines, datLines, hfill, ih h.tail hrest]

-- The first line

theorem newline_not_mem_datLine (h : recordOf components = some r)
    (hfields : ∀ field ∈ components, uc '\n' ∉ field) :
    uc '\n' ∉ r.datLine ∧ uc '\n' ∉ r.title := by
  obtain ⟨number, -, rfl⟩ := recordOf_eq_some h
  simp only [List.forall_mem_cons] at hfields
  obtain ⟨-, hname, hmail, hdate, hbody, htitle, hid, -⟩ := hfields
  have hextra : uc '\n' ∉ r.extra := by
    rw [Record.extra]
    split
    · exact List.not_mem_nil
    · rw [List.mem_append]
      rintro (hmem | hmem)
      · split at hmem
        · exact absurd hmem (by decide)
        · exact absurd hmem (by decide)
      · exact hid hmem
  have hsep : uc '\n' ∉ ns "<>" := by decide
  refine ⟨?_, htitle⟩
  simp only [Record.datLine, List.mem_append, not_or]
  exact ⟨⟨⟨⟨⟨⟨⟨hname, hsep⟩, hmail⟩, hsep⟩, hdate, hextra⟩, hsep⟩, hbody⟩, hsep⟩

theorem parseComponents_first (h : Numbered number (components :: lines))
    (hr : recordOf components = some r) (hfields : ∀ field ∈ components, uc '\n' ∉ field) :
    parseComponents ⟨[], UInt32.ofNat (capped number), false⟩ components =
      .ok ⟨textOfLines
        (addTitle [r] (List.replicate (capped r.number - (capped number + 1)) placeholderLine ++
        [r.datLine])), UInt32.ofNat (capped r.number), true⟩ := by
  have hadd := addDatLine_record hr (h.record hr).1 []
  obtain ⟨hdat, -⟩ := newline_not_mem_datLine hr hfields
  obtain ⟨first, rest, hlines, hfirst⟩ : ∃ first rest,
      List.replicate (capped r.number - (capped number + 1)) placeholderLine ++ [r.datLine] =
        first :: rest ∧
        uc '\n' ∉ first := by
    cases capped r.number - (capped number + 1) with
    | zero => exact ⟨r.datLine, [], rfl, hdat⟩
    | succ k => exact ⟨placeholderLine, _, rfl, by decide⟩
  rw [List.nil_append, hlines] at hadd
  rw [hlines, addTitle]
  have htitle : objectAtIndex components 5 = .ok r.title := by
    obtain ⟨s, -, rfl⟩ := recordOf_eq_some hr
    rfl
  rw [parseComponents]
  simp only
  rw [show addDatLine components [] (UInt32.ofNat (capped number)) = _ from hadd, htitle]
  have hinsert := insertTitle_textOfLines hfirst r.title rest
  show Except.ok (Conversion.mk (if r.title = [] then _ else insertTitle _ _) _ _) = _
  split
  · rename_i hnone
    simp only [List.head?_cons, Option.map_some, Option.getD_some, hnone, List.modifyHead_cons,
      List.append_nil]
  · rw [hinsert]
    rfl

theorem IsRawmode.increasing_records (h : IsRawmode loadedCount response) :
    Increasing loadedCount.toNat (recordsOf response) :=
  ⟨h.increasing, h.greater⟩

theorem IsRawmode.numbered (h : IsRawmode loadedCount response)
    (hshort : ∀ components ∈ linesOf response, components.length < 7 →
      unsignedOfInt (intValue (components.headD [])) = 0) :
    Numbered loadedCount.toNat (linesOf response) :=
  ⟨fun _ => ne_nil_of_mem_linesOf, h.lines, hshort, h.increasing_records⟩

theorem ofNat_capped (hcount : loadedCount.toNat < 2 ^ 31) :
    UInt32.ofNat (capped loadedCount.toNat) = loadedCount := by
  have hcapped : capped loadedCount.toNat = loadedCount.toNat := by
    rw [capped]
    omega
  rw [hcapped, UInt32.ofNat_toNat]

theorem addTitle_append (hne : lines ≠ []) (r : Record) (records : List Record)
    (lines' : List NSString) :
    addTitle (r :: records) (lines ++ lines') = addTitle [r] lines ++ lines' := by
  obtain ⟨first, rest, rfl⟩ := List.exists_cons_of_ne_nil hne
  rfl

theorem parseHTML_record_first (h : Numbered loadedCount.toNat (linesOf response))
    (hcount : loadedCount.toNat < 2 ^ 31) (hlines : linesOf response = components :: lines)
    (hr : recordOf components = some r) :
    parseHTML response [] loadedCount = .ok (textOfLines
      (addTitle (recordsOf response) (writtenLines loadedCount.toNat (recordsOf response)))) := by
  have hfields : ∀ field ∈ components, uc '\n' ∉ field :=
    newline_not_mem_of_linesOf (hlines ▸ List.mem_cons_self)
  rw [hlines] at h
  have hfirst := parseComponents_first h hr hfields
  obtain ⟨count, hrest⟩ := foldlM_parseComponents (h.record hr).2 (addTitle [r]
    (List.replicate (capped r.number - (capped loadedCount.toNat + 1)) placeholderLine ++
      [r.datLine]))
  rw [ofNat_capped hcount] at hfirst
  rw [parseHTML_eq, recordsOf, hlines, List.foldlM_cons, hfirst, List.filterMap_cons_some hr,
    writtenLines]
  show Except.map _ (List.foldlM parseComponents _ lines) = _
  rw [hrest, ← addTitle_append (by simp) r (lines.filterMap recordOf), List.append_assoc,
    List.singleton_append]
  rfl

theorem parseHTML_other_first (h : Numbered loadedCount.toNat (linesOf response))
    (hcount : loadedCount.toNat < 2 ^ 31) (hlines : linesOf response = components :: lines)
    (hr : recordOf components = none) (hsix : components.length = 6) :
    parseHTML response [] loadedCount =
      .ok (textOfLines (writtenLines loadedCount.toNat (recordsOf response))) := by
  rw [hlines] at h
  have hadd := (h.addDatLine_other hr [] loadedCount).2
  obtain ⟨count, hrest⟩ := foldlM_parseComponents (h.other hr) []
  rw [ofNat_capped hcount] at hrest
  -- there is no line yet that could get the title
  have hfirst : parseComponents ⟨[], loadedCount, false⟩ components =
    .ok ⟨[], loadedCount, true⟩ := by
    have htitle : objectAtIndex components 5 = .ok (components.get ⟨5, by omega⟩) := by
      rw [objectAtIndex, List.getElem?_eq_getElem (by omega)]
      rfl
    rw [parseComponents]
    simp only [hadd, htitle]
    show Except.ok (Conversion.mk (if _ then [] else insertTitle _ []) _ _) = _
    rw [insertTitle, if_neg List.not_mem_nil, ite_self]
  rw [parseHTML_eq, recordsOf, hlines, List.foldlM_cons, hfirst, List.filterMap_cons_none hr]
  show Except.map _ (List.foldlM parseComponents _ lines) = _
  rw [show List.foldlM parseComponents ⟨[], loadedCount, true⟩ lines = _ from hrest]
  rfl

theorem count_textOfLines (h : ∀ line ∈ lines, uc '\n' ∉ line) :
    (textOfLines lines).count (uc '\n') = lines.length := by
  induction lines with
  | nil => rfl
  | cons line lines ih =>
    obtain ⟨hline, hlines⟩ := List.forall_mem_cons.mp h
    rw [textOfLines_cons, List.count_append, List.count_cons_self, ih hlines,
      List.count_eq_zero_of_not_mem hline, List.length_cons, Nat.zero_add]

theorem length_textOfLines_addTitle (hne : lines ≠ []) (r : Record) (records : List Record) :
    (textOfLines (addTitle (r :: records) lines)).length =
      (textOfLines lines).length + r.title.length := by
  obtain ⟨first, rest, rfl⟩ := List.exists_cons_of_ne_nil hne
  rw [addTitle, List.modifyHead_cons, textOfLines_cons, textOfLines_cons, List.length_append,
    List.length_append, List.length_append]
  simp only [List.head?_cons, Option.map_some, Option.getD_some]
  omega

theorem length_addTitle : (addTitle records lines).length = lines.length :=
  List.length_modifyHead

theorem newline_not_mem_datLines (h : ∀ r ∈ records, uc '\n' ∉ r.datLine) (number : Nat) :
    (∀ line ∈ datLines number records, uc '\n' ∉ line) ∧
      ∀ line ∈ writtenLines number records, uc '\n' ∉ line := by
  have hplaceholder : uc '\n' ∉ placeholderLine := by decide
  induction records generalizing number with
  | nil => exact ⟨nofun, nofun⟩
  | cons r records ih =>
    obtain ⟨hr, hrecords⟩ := List.forall_mem_cons.mp h
    obtain ⟨hdat, hwritten⟩ := ih hrecords r.number
    have hfill : ∀ k, ∀ line ∈ List.replicate k placeholderLine, uc '\n' ∉ line := by
      intro k line hline
      rw [(List.mem_replicate.mp hline).2]
      exact hplaceholder
    rw [datLines, writtenLines, List.forall_mem_append, List.forall_mem_append,
      List.forall_mem_cons, List.forall_mem_cons]
    exact ⟨⟨hfill _, hr, hdat⟩, hfill _, hr, hwritten⟩

theorem newline_not_mem_addTitle (h : ∀ line ∈ lines, uc '\n' ∉ line)
    (htitle : ∀ r ∈ records, uc '\n' ∉ r.title) : ∀ line ∈ addTitle records lines,
      uc '\n' ∉ line := by
  cases lines with
  | nil => exact nofun
  | cons first lines =>
    obtain ⟨hfirst, hlines⟩ := List.forall_mem_cons.mp h
    rw [addTitle, List.modifyHead_cons, List.forall_mem_cons]
    refine ⟨?_, hlines⟩
    cases records with
    | nil => simpa using hfirst
    | cons r records =>
      simp only [List.head?_cons, Option.map_some, Option.getD_some, List.mem_append, not_or]
      exact ⟨hfirst, htitle r List.mem_cons_self⟩

theorem newline_not_mem_recordsOf (h : r ∈ recordsOf response) :
    uc '\n' ∉ r.datLine ∧ uc '\n' ∉ r.title := by
  obtain ⟨components, hcomponents, hr⟩ := List.mem_filterMap.mp h
  exact newline_not_mem_datLine hr (newline_not_mem_of_linesOf hcomponents)

theorem newline_not_mem_lines (response : NSString) (number : Nat) :
    (∀ line ∈ datLines number (recordsOf response), uc '\n' ∉ line) ∧
      ∀ line ∈ writtenLines number (recordsOf response), uc '\n' ∉ line :=
  newline_not_mem_datLines (fun _ hr => (newline_not_mem_recordsOf hr).1) number

/-- The text has as many lines as the DAT only if every number is written as it is. -/
theorem noGapBeforeLarge_of_text (h : Increasing number (recordsOf response))
    (htext : textOfLines lines =
      textOfLines (addTitle (recordsOf response) (datLines number (recordsOf response))))
    (hlength : lines.length = (writtenLines number (recordsOf response)).length)
    (hlines : ∀ line ∈ lines, uc '\n' ∉ line) : NoGapBeforeLarge number (recordsOf response) := by
  have htitles : ∀ r ∈ recordsOf response, uc '\n' ∉ r.title :=
    fun r hr => (newline_not_mem_recordsOf hr).2
  have hcount := congrArg (List.count (uc '\n')) htext
  rw [count_textOfLines hlines,
    count_textOfLines (newline_not_mem_addTitle (newline_not_mem_lines response number).1 htitles),
    length_addTitle, hlength] at hcount
  exact (length_writtenLines h).2.mp hcount

theorem exists_linesOf_eq_cons (response : NSString) :
    ∃ components lines, linesOf response = components :: lines := by
  refine List.exists_cons_of_ne_nil fun hnil => ?_
  exact Split.piecesFrom_ne_nil _ _ _ (List.map_eq_nil_iff.mp hnil)

theorem parseHTML_ok (h : parseHTML response [] loadedCount = .ok thread) :
    (∀ components ∈ linesOf response, components.length < 7 →
      unsignedOfInt (intValue (components.headD [])) = 0) ∧
    ∀ components ∈ (linesOf response).head?, 6 ≤ components.length := by
  rw [parseHTML_eq] at h
  cases hfold : (linesOf response).foldlM parseComponents ⟨[], loadedCount, false⟩ with
  | error e =>
    rw [hfold] at h
    cases h
  | ok state =>
    refine ⟨foldlM_parseComponents_ok (fun _ => ne_nil_of_mem_linesOf) hfold, ?_⟩
    intro components hhead
    obtain ⟨first, rest, hlines⟩ := exists_linesOf_eq_cons response
    have hne : first ≠ [] := ne_nil_of_mem_linesOf (hlines ▸ List.mem_cons_self)
    rw [hlines, List.head?_cons] at hhead
    obtain rfl := Option.some.inj hhead
    rw [hlines, List.foldlM_cons] at hfold
    cases hstep : parseComponents ⟨[], loadedCount, false⟩ first with
    | error e =>
      rw [hstep] at hfold
      cases hfold
    | ok next => exact (parseComponents_ok hne hstep).2 rfl

theorem IsRawmode.noGapBeforeLarge_iff (hcount : loadedCount < NSNotFound) :
    NoGapBeforeLarge loadedCount.toNat (recordsOf response) ↔
      ∀ r ∈ recordsOf response, 2 ^ 31 ≤ r.number →
        ∃ r' ∈ recordsOf response, r'.number + 1 = r.number := by
  have hcount : loadedCount.toNat < 2 ^ 31 - 1 := hcount
  constructor
  · intro hgap r hr hlarge
    obtain hnext | hexists := hgap r hr hlarge
    · omega
    · exact hexists
  · exact fun h r hr hlarge => .inr (h r hr hlarge)

theorem converts_of_convertible (h : IsRawmode loadedCount response)
    (hcount : loadedCount < NSNotFound) (hc : Convertible loadedCount response) :
    Converts loadedCount response := by
  have hcount' : loadedCount.toNat < 2 ^ 31 := Nat.lt_trans hcount (by decide)
  have hnumbered := h.numbered hc.short
  have hwritten := writtenLines_eq h.increasing_records
    ((IsRawmode.noGapBeforeLarge_iff hcount).mpr hc.large)
  obtain ⟨components, lines, hlines⟩ := exists_linesOf_eq_cons response
  refine ⟨datLines loadedCount.toNat (recordsOf response), isDat_datLines h.increasing_records, ?_⟩
  have hfirst := hc.first components (by rw [hlines]; rfl)
  cases hr : recordOf components with
  | some r => rw [parseHTML_record_first hnumbered hcount' hlines hr, hwritten]
  | none =>
    rw [hr] at hfirst
    obtain ⟨hsix, htitle⟩ := hfirst.resolve_left nofun
    have hnone : addTitle (recordsOf response) (datLines loadedCount.toNat (recordsOf response)) =
        datLines loadedCount.toNat (recordsOf response) := by
      cases hrecords : recordsOf response with
      | nil => rfl
      | cons r records =>
        rw [hrecords] at htitle
        rw [addTitle, List.head?_cons, Option.map_some, htitle r rfl]
        cases datLines loadedCount.toNat (r :: records) with
        | nil => rfl
        | cons line lines => simp
    rw [parseHTML_other_first hnumbered hcount' hlines hr hsix, hwritten, hnone]

theorem convertible_of_converts (h : IsRawmode loadedCount response)
    (hcount : loadedCount < NSNotFound) (hc : Converts loadedCount response) :
    Convertible loadedCount response := by
  have hcount' : loadedCount.toNat < 2 ^ 31 := Nat.lt_trans hcount (by decide)
  obtain ⟨lines, hdat, hparse⟩ := hc
  obtain rfl := hdat.unique (isDat_datLines h.increasing_records)
  obtain ⟨hshort, hsix⟩ := parseHTML_ok hparse
  have hnumbered := h.numbered hshort
  obtain ⟨components, lines, hlines⟩ := exists_linesOf_eq_cons response
  cases hr : recordOf components with
  | some r =>
    rw [parseHTML_record_first hnumbered hcount' hlines hr, Except.ok.injEq] at hparse
    have hgap := noGapBeforeLarge_of_text h.increasing_records hparse length_addTitle
      (newline_not_mem_addTitle (newline_not_mem_lines response _).2
        fun r hr => (newline_not_mem_recordsOf hr).2)
    refine ⟨hshort, ?_, (IsRawmode.noGapBeforeLarge_iff hcount).mp hgap⟩
    intro c hc
    rw [hlines, List.head?_cons] at hc
    obtain rfl := Option.some.inj hc
    exact .inl (by rw [hr]; rfl)
  | none =>
    have hlength : components.length = 6 := by
      have hsix := hsix components (by rw [hlines]; rfl)
      obtain ⟨hfew, -⟩ := (hlines ▸ hnumbered).addDatLine_other hr [] 0
      omega
    rw [parseHTML_other_first hnumbered hcount' hlines hr hlength, Except.ok.injEq] at hparse
    have hgap := noGapBeforeLarge_of_text h.increasing_records hparse rfl
      (newline_not_mem_lines response _).2
    rw [writtenLines_eq h.increasing_records hgap] at hparse
    refine ⟨hshort, ?_, (IsRawmode.noGapBeforeLarge_iff hcount).mp hgap⟩
    intro c hc
    rw [hlines, List.head?_cons] at hc
    obtain rfl := Option.some.inj hc
    refine .inr ⟨hlength, ?_⟩
    intro r hhead
    cases hrecords : recordsOf response with
    | nil =>
      rw [hrecords] at hhead
      cases hhead
    | cons first records =>
      rw [hrecords] at hhead hparse
      obtain rfl := Option.some.inj hhead
      -- a title would make the text longer
      have hlong := congrArg List.length hparse
      rw [length_textOfLines_addTitle (by simp [datLines])] at hlong
      exact List.eq_nil_of_length_eq_zero (by omega)

end BathyScaphe.Host
