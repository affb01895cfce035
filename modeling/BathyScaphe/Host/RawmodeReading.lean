import BathyScaphe.Dat.DateField
import BathyScaphe.Host.RawmodeDat

/-!
# Reading the DAT of a rawmode response

The DAT is read by `CMR2chDATReader`, which takes the date and the ID or the host
apart again. It finds them just where the parser takes the same text for the date and
nothing in the fields looks like another part of a DAT.
-/

namespace BathyScaphe.Host

open NSString Dat Dat.CMR2chDATReader Regex

structure Readable (env : TextServices) (cls : Classes) (r : Record) : Prop where
  line : ∀ c ∈ r.datLine, isLineTerminator c = false
  dated : IsDated cls r.date r.extra
  space : if r.idOrHost.length < 11 then ∀ c ∈ r.idOrHost, cls.space c = false
    else ∀ c ∈ r.idOrHost.head?, cls.space c = false
  host : r.idOrHost ≠ [] → r.idOrHost.length < 11 → ¬ ns "HOST:" <:+: ns "ID:" ++ r.idOrHost ∧
    ¬ env.localizedString (ns "siberia IP field") ++ ns ":" <:+: ns "ID:" ++ r.idOrHost

/-- A message has what the record has. Its date is read from the part of the text without
the era, the hundredths and the link. -/
structure IsMessageOf (env : TextServices) (cls : Classes) (r : Record)
    (m : CMRThreadMessage) : Prop where
  name : m.name = some r.name
  mail : m.mail = some r.mail
  dateRepresentation : m.dateRepresentation = some r.date
  date : ∀ p, Divides cls p (r.date ++ r.extra) → m.date = dateWith2chDateString env
    (some p.time) none
  body : m.messageSource = some r.body
  idOrHost : r.idOrHost ≠ [] →
    if r.idOrHost.length < 11 then m.IDString = some r.idOrHost else m.host = some r.idOrHost

/-- Every record is found again in the DAT, in the place of its number, and there are no
messages behind the last one. -/
def IsReadBack (env : TextServices) (cls : Classes) (loadedCount : UInt32)
    (response : NSString) : Prop :=
  ∃ thread messages, parseHTML response [] loadedCount = .ok thread ∧
    composeWithComposer env ((initWithContents thread).setNextMessageIndex loadedCount) = messages ∧
    messages.length =
      ((recordsOf response).getLast?.map fun r => r.number - loadedCount.toNat).getD 0 ∧
    ∀ r ∈ recordsOf response, ∃ m,
      messages[r.number - loadedCount.toNat - 1]? = some m ∧ IsMessageOf env cls r m

-- Fields

theorem pieces_field (h : ¬ ns "<>" <:+: field) (rest : NSString) :
    Split.pieces (ns "<>") (field ++ (ns "<>" ++ rest)) = field :: Split.pieces (ns "<>") rest := by
  refine Split.pieces_append (by decide) fun hinfix => ?_
  obtain hfield | hbracket | ⟨-, hhead⟩ := Split.pair_infix_append hinfix
  · exact h hfield
  · exact absurd hbracket (by decide)
  · exact absurd (Option.some.inj hhead) (by decide)

theorem separatedLine_datLine (hname : ¬ ns "<>" <:+: name) (hmail : ¬ ns "<>" <:+: mail)
    (hdate : ¬ ns "<>" <:+: date) (hbody : ¬ ns "<>" <:+: body) (htitle : ¬ ns "<>" <:+: title) :
    separatedLine (name ++ ns "<>" ++ mail ++ ns "<>" ++ date ++ ns "<>" ++ body ++
      ns "<>" ++ title) =
      some [name, mail, date, body, title] := by
  have hpieces : Split.pieces (ns "<>")
      (name ++ ns "<>" ++ mail ++ ns "<>" ++ date ++ ns "<>" ++ body ++ ns "<>" ++ title) =
        [name, mail, date, body, title] := by
    simp only [List.append_assoc]
    rw [pieces_field hname, pieces_field hmail, pieces_field hdate, pieces_field hbody,
      Split.pieces_of_not_contains htitle]
  rw [separatedLine, componentsSeparatedByString, hpieces]
  rfl

theorem not_separator_of_mem {r : Record} (h : r ∈ recordsOf response) :
    ∀ field ∈ [r.name, r.mail, r.date, r.body, r.title, r.idOrHost], ¬ ns "<>" <:+: field := by
  obtain ⟨components, hcomponents, hr⟩ := List.mem_filterMap.mp h
  obtain ⟨line, -, hline⟩ := List.mem_map.mp hcomponents
  obtain ⟨number, -, rfl⟩ := recordOf_eq_some hr
  intro field hfield
  have hmem : field ∈ Split.pieces (ns "<>") line := by
    rw [show Split.pieces (ns "<>") line = _ from hline]
    exact List.mem_cons_of_mem number hfield
  exact Split.not_infix_of_mem_pieces (by decide) hmem

theorem not_separator_append {x y : NSString} (hx : ¬ ns "<>" <:+: x) (hy : ¬ ns "<>" <:+: y)
    (hcross : uc '<' ∉ x.getLast? ∨ uc '>' ∉ y.head?) : ¬ ns "<>" <:+: x ++ y := by
  intro h
  obtain h | h | ⟨hlast, hhead⟩ := Split.pair_infix_append h
  · exact hx h
  · exact hy h
  · exact hcross.elim (fun hno => hno hlast) fun hno => hno hhead

theorem not_separator_extra {r : Record} (hdate : ¬ ns "<>" <:+: r.date)
    (hid : ¬ ns "<>" <:+: r.idOrHost) : ¬ ns "<>" <:+: r.date ++ r.extra := by
  rw [Record.extra]
  split
  · rwa [List.append_nil]
  · split
    · have hextra : ¬ ns "<>" <:+: ns " ID:" ++ r.idOrHost :=
        not_separator_append (by decide) hid (.inl (by decide))
      exact not_separator_append hdate hextra (.inr (by simp [ns, uc]))
    · have hextra : ¬ ns "<>" <:+: ns " HOST:" ++ r.idOrHost :=
        not_separator_append (by decide) hid (.inl (by decide))
      exact not_separator_append hdate hextra (.inr (by simp [ns, uc]))

variable {env : TextServices} {cls : Classes} {r : Record} {m : CMRThreadMessage}

theorem startsWithBlank_extra (r : Record) : StartsWithBlank r.extra := by
  rw [Record.extra]
  split
  · exact .inl rfl
  · split
    · exact .inr ⟨ns "ID:" ++ r.idOrHost, rfl, by simp [ns, uc]⟩
    · exact .inr ⟨ns "HOST:" ++ r.idOrHost, rfl, by simp [ns, uc]⟩

theorem extra_subset (r : Record) : r.idOrHost ⊆ r.extra := by
  rw [Record.extra]
  split
  · next h =>
    rw [h]
    exact List.nil_subset _
  · exact List.subset_append_right _ _

theorem parseExtraField_extra_iff (hc : Compiles env cls) (hline : uc '\n' ∉ r.idOrHost)
    (hne : r.idOrHost ≠ []) (hm : m.IDString = none) :
    (if r.idOrHost.length < 11 then
        (parseExtraField env (some (r.extra.drop 1)) m).IDString = some r.idOrHost
      else (parseExtraField env (some (r.extra.drop 1)) m).host = some r.idOrHost) ↔
      (if r.idOrHost.length < 11 then ∀ c ∈ r.idOrHost, cls.space c = false
        else ∀ c ∈ r.idOrHost.head?, cls.space c = false) ∧
      (r.idOrHost ≠ [] → r.idOrHost.length < 11 → ¬ ns "HOST:" <:+: ns "ID:" ++ r.idOrHost ∧
        ¬ env.localizedString (ns "siberia IP field") ++ ns ":" <:+: ns "ID:" ++ r.idOrHost) := by
  by_cases hshort : r.idOrHost.length < 11
  · simp only [Record.extra, ne_eq, hne, not_false_eq_true, hshort, if_true, if_false, forall_const]
    exact parseExtraField_id_iff hc hline hm
  · simp only [Record.extra, if_neg hne, hshort, if_false, false_implies, implies_true, and_true]
    have hhost : (parseExtraField env (some (ns "HOST:" ++ r.idOrHost)) m).host = _ :=
      parseExtraField_host hc hline m
    rw [show (ns " HOST:" ++ r.idOrHost).drop 1 = ns "HOST:" ++ r.idOrHost from rfl, hhost,
      Option.some.injEq, dropOne_eq_self_iff]

theorem messageOfLine_datLine (hc : Compiles env cls)
    (hline : ∀ c ∈ r.datLine, isLineTerminator c = false)
    (hfields : ∀ field ∈ [r.name, r.mail, r.date, r.body, r.title, r.idOrHost],
      ¬ ns "<>" <:+: field)
    (htitle : ¬ ns "<>" <:+: title) :
    ∃ m, messageOfLine env (r.datLine ++ title) = some m ∧
      (IsMessageOf env cls r m ↔ Readable env cls r) := by
  simp only [List.forall_mem_cons] at hfields
  obtain ⟨hname, hmail, hdate, hbody, -, hid, -⟩ := hfields
  have hseparated : separatedLine (r.datLine ++ title) = _ :=
    separatedLine_datLine hname hmail (not_separator_extra hdate hid) hbody htitle
  obtain ⟨parsed, hparse⟩ :=
    Option.isSome_iff_exists.mp (parseDateExtraField_isSome env (r.date ++ r.extra) {})
  have hcomponents : ¬[r.name, r.mail, r.date ++ r.extra, r.body, title].length ≤
    k2chDATMessageIndex :=
    Nat.not_le.mpr (show 3 < 5 by omega)
  have hfield : [r.name, r.mail, r.date ++ r.extra, r.body,
    title].getD k2chDATDateExtraFieldIndex [] =
      r.date ++ r.extra := rfl
  have hmessage : messageOfLine env (r.datLine ++ title) =
      some { parsed with
        name := some r.name, mail := some r.mail, messageSource := some r.body } := by
    have hdat : messageWithDATLine env (r.datLine ++ title) =
        some { parsed with
          name := some r.name, mail := some r.mail, messageSource := some r.body } := by
      rw [messageWithDATLine, hseparated, messageWithDATLineComponentsSeparatedByNewline,
        if_neg hcomponents, hfield, hparse]
      rfl
    simp only [messageOfLine, hdat]
  have hnewline : uc '\n' ∉ r.date ++ r.extra := by
    intro hmem
    refine absurd (hline (uc '\n') ?_) (by decide)
    simp only [Record.datLine, List.mem_append] at hmem ⊢
    tauto
  refine ⟨_, hmessage, ?_⟩
  by_cases hdated : IsDated cls r.date r.extra
  · obtain ⟨p, hp, hpdate⟩ := hdated
    obtain ⟨d, hd, hparse'⟩ := parseDateExtraField_divides hc hp {}
    rw [hp.extra_eq hpdate (startsWithBlank_extra r), hpdate] at hparse'
    rw [hparse] at hparse'
    have hextra := parseExtraField_extra_iff (r := r) (m := ({ ({} : CMRThreadMessage) with
      dateRepresentation := some r.date }.setDate (some d))) hc
      (fun hmem => hnewline (List.mem_append_right _ (extra_subset r hmem)))
    have hsets := parseExtraField_sets env (some (r.extra.drop 1))
      ({ ({} : CMRThreadMessage) with dateRepresentation := some r.date }.setDate (some d))
    rw [← Option.some.inj hparse'] at hextra hsets
    constructor
    · intro h
      by_cases hne : r.idOrHost = []
      · exact ⟨hline, ⟨p, hp, hpdate⟩, by simp [hne], fun hne' => absurd hne hne'⟩
      · obtain ⟨hspace, hhost⟩ := (hextra hne rfl).mp (h.idOrHost hne)
        exact ⟨hline, ⟨p, hp, hpdate⟩, hspace, hhost⟩
    · intro h
      obtain ⟨host, beProfile, IDString, hsets⟩ := hsets
      refine ⟨rfl, rfl, by rw [hsets]; rfl, fun p' hp' => ?_, rfl, fun hne => ?_⟩
      · rw [← (hp.time_eq hc hp').1, hd, hsets]
        rfl
      · exact (hextra hne rfl).mpr ⟨h.space, h.host⟩
  · constructor
    · exact fun h => absurd (divides_of_parse hc hnewline hparse h.dateRepresentation) hdated
    · exact fun h => absurd h.dated hdated

-- Lines

theorem messagesOfContents_textOfLines {lines : List NSString}
    (h : ∀ line ∈ lines, ∀ c ∈ line, isLineTerminator c = false) :
    messagesOfContents env (textOfLines lines) = lines.filterMap (messageOfLine env) := by
  induction lines with
  | nil => exact messagesOfContents_nil env
  | cons line lines ih =>
    obtain ⟨hline, hlines⟩ := List.forall_mem_cons.mp h
    have hone : messagesOfContents env (line ++ [uc '\n']) = [line].filterMap
      (messageOfLine env) := by
      rw [messagesOfContents_eq, lineContents_line hline]
    rw [textOfLines_cons, List.append_cons, messagesOfContents_append (by simp), hone, ih hlines,
      ← List.filterMap_append, List.singleton_append]

theorem mem_datLines (h : line ∈ datLines number records) :
    line = placeholderLine ∨ ∃ r ∈ records, line = r.datLine := by
  induction records generalizing number with
  | nil => cases h
  | cons r records ih =>
    rw [datLines, List.mem_append, List.mem_cons] at h
    obtain hfill | rfl | hlater := h
    · exact .inl (List.mem_replicate.mp hfill).2
    · exact .inr ⟨r, List.mem_cons_self, rfl⟩
    · obtain rfl | ⟨r', hr', rfl⟩ := ih hlater
      · exact .inl rfl
      · exact .inr ⟨r', List.mem_cons_of_mem r hr', rfl⟩

theorem messageOfLine_placeholderLine (htitle : ¬ ns "<>" <:+: title) :
    (messageOfLine env (placeholderLine ++ title)).isSome := by
  have hnil : ¬ ns "<>" <:+: [] := by decide
  have hempty : placeholderLine = [] ++ ns "<>" ++ [] ++ ns "<>" ++ [] ++ ns "<>" ++
      [] ++ ns "<>" := rfl
  have hseparated : separatedLine (placeholderLine ++ title) = some [[], [], [], [], title] := by
    rw [hempty]
    exact separatedLine_datLine hnil hnil hnil hnil htitle
  have hfour : (messageWithDATLine env (placeholderLine ++ title)).isSome := by
    rw [messageWithDATLine, hseparated]
    rfl
  obtain ⟨m, hm⟩ := Option.isSome_iff_exists.mp hfour
  rw [messageOfLine, hm]
  rfl

theorem getElem?_modifyHead_append {lines : List NSString} {k : Nat} (h : lines[k]? = some line)
    (t : NSString) :
    ∃ t', (lines.modifyHead (· ++ t))[k]? = some (line ++ t') ∧ (t' = [] ∨ t' = t) := by
  cases lines with
  | nil => cases h
  | cons first lines =>
    cases k with
    | zero =>
      obtain rfl := Option.some.inj h
      exact ⟨t, rfl, .inr rfl⟩
    | succ k => exact ⟨[], by rw [List.append_nil]; exact h, .inl rfl⟩

def laterLines (title : NSString) : List NSString := (lineContents (title ++ [uc '\n'])).tail

/-- The records of a response that the reader understands, behind whose title there is no
line with a message of its own. -/
structure ReadableRecords (env : TextServices) (cls : Classes) (records : List Record) : Prop where
  readable : ∀ r ∈ records, Readable env cls r
  title : ∀ r ∈ records.head?, ∀ line ∈ laterLines r.title, ¬ HasMessage line

def firstLine (title : NSString) : NSString := title.takeWhile fun c => !isLineTerminator c

theorem messagesOfContents_title (env : TextServices) (title : NSString) {first : NSString}
    {lines : List NSString}
    (hfirst : ∀ c ∈ first, isLineTerminator c = false)
    (hlines : ∀ line ∈ lines, ∀ c ∈ line, isLineTerminator c = false) :
    messagesOfContents env (textOfLines ((first ++ title) :: lines)) =
      (messageOfLine env (first ++ firstLine title)).toList ++
        ((laterLines title).filterMap (messageOfLine env) ++ lines.filterMap
          (messageOfLine env)) := by
  have hhead : (lineContents (title ++ [uc '\n'])).head? = some (firstLine title) := by
    rw [head?_lineContents, firstLine, List.takeWhile_append]
    split
    · next h =>
      rw [List.takeWhile_cons_of_neg (by decide), List.append_nil,
        (List.takeWhile_prefix _).eq_of_length h]
    · rfl
  obtain ⟨later, hlater⟩ := List.head?_eq_some_iff.mp hhead
  have hone : messagesOfContents env (first ++ title ++ [uc '\n']) =
      (messageOfLine env (first ++ firstLine title)).toList ++
        (laterLines title).filterMap (messageOfLine env) := by
    rw [messagesOfContents_eq, List.append_assoc, lineContents_line_append hfirst, laterLines,
      hlater, List.modifyHead_cons, List.tail_cons, List.filterMap_cons]
    cases messageOfLine env (first ++ firstLine title) <;> rfl
  rw [textOfLines_cons, List.append_cons, messagesOfContents_append (by simp), hone,
    messagesOfContents_textOfLines hlines, List.append_assoc]

theorem exists_components (hm : messageOfLine env line = some m)
    (hdate : m.dateRepresentation = some date) :
    ∃ components parsed, separatedLine line = some components ∧ k2chDATMessageIndex <
      components.length ∧
      parseDateExtraField env (components.getD k2chDATDateExtraFieldIndex []) {} = some parsed ∧
      m = { parsed with
        name := components[k2chDATNameIndex]?
        mail := components[k2chDATMailIndex]?
        messageSource := components[k2chDATMessageIndex]? } := by
  have hdat : messageWithDATLine env line = some m := by
    rw [messageOfLine] at hm
    split at hm
    · next m' hm' => rw [hm', hm]
    · split at hm
      · rw [messageWithInvalidDATLineDetected] at hm
        split at hm
        · cases hm
        · simp only at hm
          split at hm
          · cases hm
          · obtain rfl := Option.some.inj hm
            cases hdate
      · cases hm
  rw [messageWithDATLine] at hdat
  cases hseparated : separatedLine line with
  | none =>
    rw [hseparated] at hdat
    cases hdat
  | some components =>
    rw [hseparated, messageWithDATLineComponentsSeparatedByNewline] at hdat
    split at hdat
    · cases hdat
    · next hlength =>
      cases hparse : parseDateExtraField env (components.getD k2chDATDateExtraFieldIndex []) {} with
      | none =>
        rw [hparse] at hdat
        cases hdat
      | some parsed =>
        rw [hparse] at hdat
        exact ⟨components, parsed, rfl, Nat.lt_of_not_le hlength, hparse,
          (Option.some.inj hdat).symm⟩

theorem separator_not_terminator : ∀ c ∈ ns "<>", isLineTerminator c = false :=
  List.forall_mem_iff_getElem.mpr (by decide)

theorem extra_not_terminator (h : ∀ c ∈ r.idOrHost, isLineTerminator c = false) :
    ∀ c ∈ r.extra, isLineTerminator c = false := by
  rw [Record.extra]
  split
  · exact fun c hc => absurd hc List.not_mem_nil
  · refine List.forall_mem_append.mpr ⟨?_, h⟩
    split <;> exact List.forall_mem_iff_getElem.mpr (by decide)

theorem line_of_isMessageOf (hc : Compiles env cls) (hline : ∀ c ∈ line, isLineTerminator c = false)
    (hm : messageOfLine env line = some m) (h : IsMessageOf env cls r m) :
    ∀ c ∈ r.datLine, isLineTerminator c = false := by
  obtain ⟨components, parsed, hseparated, hlength, hparse, rfl⟩ :=
    exists_components hm h.dateRepresentation
  have hfree : ∀ field ∈ components, ∀ c ∈ field, isLineTerminator c = false := by
    intro field hfield c hcmem
    obtain hmem | rfl := mem_separatedLine hseparated hfield hcmem
    · exact hline c hmem
    · decide
  have hcomponent {i : Nat} {t : NSString} (ht : components[i]? = some t) :
      ∀ c ∈ t, isLineTerminator c = false := hfree t (List.mem_of_getElem? ht)
  have hfield : components.getD k2chDATDateExtraFieldIndex [] ∈ components := by
    have hindex : k2chDATDateExtraFieldIndex < components.length := Nat.lt_of_succ_lt hlength
    rw [List.getD_eq_getElem _ _ hindex]
    exact List.getElem_mem hindex
  have hnewline : uc '\n' ∉ components.getD k2chDATDateExtraFieldIndex [] := fun hmem =>
    absurd (hfree _ hfield _ hmem) (by decide)
  obtain ⟨p, hp, hpdate⟩ := divides_of_parse hc hnewline hparse h.dateRepresentation
  obtain ⟨d, -, hparse'⟩ := parseDateExtraField_divides hc hp {}
  obtain rfl := Option.some.inj (hparse.symm.trans hparse')
  have hdate : ∀ c ∈ r.date, isLineTerminator c = false := fun c hmem =>
    hfree _ hfield c (hp.extra_subset.1 (hpdate ▸ hmem))
  have hextra : ∀ c ∈ r.idOrHost, isLineTerminator c = false := by
    by_cases hne : r.idOrHost = []
    · rw [hne]
      exact nofun
    · have hsub : r.idOrHost ⊆ p.extra := by
        have hid := h.idOrHost hne
        split at hid
        · exact (parseExtraField_ID_subset hid).resolve_left nofun
        · exact (parseExtraField_host_subset hid).resolve_left nofun
      exact fun c hmem => hfree _ hfield c (hp.extra_subset.2 (hsub hmem))
  have hseparator := separator_not_terminator
  simp only [Record.datLine, List.forall_mem_append]
  exact ⟨⟨⟨⟨⟨⟨⟨hcomponent h.name, hseparator⟩, hcomponent h.mail⟩, hseparator⟩,
    hdate, extra_not_terminator hextra⟩, hseparator⟩, hcomponent h.body⟩, hseparator⟩

-- The whole response

theorem isMessageOf_index {index : UInt32} :
    IsMessageOf env cls r { m with index := index } ↔ IsMessageOf env cls r m :=
  ⟨fun h => ⟨h.name, h.mail, h.dateRepresentation, h.date, h.body, h.idOrHost⟩,
    fun h => ⟨h.name, h.mail, h.dateRepresentation, h.date, h.body, h.idOrHost⟩⟩

theorem line_of_isReadBack (hc : Compiles env cls) (h : IsReadBack env cls loadedCount response) :
    ∀ r ∈ recordsOf response, ∀ c ∈ r.datLine, isLineTerminator c = false := by
  obtain ⟨thread, messages, -, rfl, -, hback⟩ := h
  intro r hr
  obtain ⟨m, hm, his⟩ := hback r hr
  rw [composeWithComposer_contents, getElem?_numberFrom] at hm
  obtain ⟨m₀, hm₀, rfl⟩ := Option.map_eq_some_iff.mp hm
  obtain ⟨line, hline, hmessage⟩ := List.mem_filterMap.mp (List.mem_of_getElem? hm₀)
  exact line_of_isMessageOf hc (isLineTerminator_of_mem_components hline) hmessage
    (isMessageOf_index.mp his)

variable {lines : List NSString} {loadedCount : UInt32}

/-- Every line of the DAT has its message, whatever is behind it. -/
theorem messageOfLine_datLines (hc : Compiles env cls)
    (hdat : IsDat loadedCount.toNat (recordsOf response) lines)
    (hincreasing : Increasing loadedCount.toNat (recordsOf response))
    (hline : ∀ r ∈ recordsOf response, ∀ c ∈ r.datLine, isLineTerminator c = false)
    (h : line ∈ lines) :
    (∀ c ∈ line, isLineTerminator c = false) ∧
      ∀ t, ¬ ns "<>" <:+: t → (messageOfLine env (line ++ t)).isSome := by
  rw [hdat.unique (isDat_datLines hincreasing)] at h
  obtain rfl | ⟨r, hr, rfl⟩ := mem_datLines h
  · exact ⟨List.forall_mem_iff_getElem.mpr (by decide), fun t ht =>
      messageOfLine_placeholderLine ht⟩
  · refine ⟨hline r hr, fun t ht => ?_⟩
    obtain ⟨m, hm, -⟩ := messageOfLine_datLine hc (hline r hr) (not_separator_of_mem hr) ht
    rw [hm]
    rfl

theorem exists_message (hc : Compiles env cls)
    (hdat : IsDat loadedCount.toNat (recordsOf response) lines)
    (hline : ∀ r ∈ recordsOf response, ∀ c ∈ r.datLine, isLineTerminator c = false)
    (ht : ¬ ns "<>" <:+: t)
    (hsome : ∀ line ∈ lines.modifyHead (· ++ t), (messageOfLine env line).isSome)
    (hr : r ∈ recordsOf response) :
    ∃ m, ((lines.modifyHead (· ++ t)).filterMap (messageOfLine env))[
        r.number - loadedCount.toNat - 1]? = some m ∧
      (IsMessageOf env cls r m ↔ Readable env cls r) := by
  obtain ⟨t', hplace, ht'⟩ := getElem?_modifyHead_append (hdat.record r hr) t
  have hseparator : ¬ ns "<>" <:+: t' := by
    obtain rfl | rfl := ht'
    · decide
    · exact ht
  obtain ⟨m, hm, hiff⟩ := messageOfLine_datLine hc (hline r hr) (not_separator_of_mem hr) hseparator
  exact ⟨m, by rw [getElem?_filterMap_messageOfLine hsome, hplace, Option.bind_some, hm], hiff⟩

theorem isReadBack_iff_of_line (hc : Compiles env cls) (h : IsRawmode loadedCount response)
    (hconverts : Converts loadedCount response)
    (hline : ∀ r ∈ recordsOf response, ∀ c ∈ r.datLine, isLineTerminator c = false) :
    IsReadBack env cls loadedCount response ↔ ReadableRecords env cls (recordsOf response) := by
  obtain ⟨lines, hdat, hparse⟩ := hconverts
  have hall := fun line (hmem : line ∈ lines) =>
    messageOfLine_datLines hc hdat h.increasing_records hline hmem
  cases hhead : (recordsOf response).head? with
  | none =>
    have hnil := List.head?_eq_none_iff.mp hhead
    rw [hnil] at hdat hparse
    obtain rfl := List.eq_nil_of_length_eq_zero hdat.length
    rw [IsReadBack, hnil]
    refine ⟨fun _ => ⟨nofun, nofun⟩, fun _ => ⟨_, _, hparse, rfl, ?_, nofun⟩⟩
    rw [composeWithComposer_contents]
    exact length_numberFrom.trans (congrArg List.length (messagesOfContents_nil env))
  | some r₀ =>
    have hr₀ : r₀ ∈ recordsOf response := List.mem_of_mem_head? hhead
    have htitle : ¬ ns "<>" <:+: firstLine r₀.title := fun hinside =>
      not_separator_of_mem hr₀ r₀.title (by simp) (hinside.trans (List.takeWhile_prefix _).isInfix)
    obtain ⟨first, rest, rfl⟩ : ∃ first rest, lines = first :: rest := by
      refine List.exists_cons_of_ne_nil ?_
      rintro rfl
      cases hdat.record r₀ hr₀
    obtain ⟨hfirst, hrest⟩ := List.forall_mem_cons.mp hall
    -- each line has a message if the title ends with its first line
    have hsome : ∀ line ∈ (first :: rest).modifyHead (· ++ firstLine r₀.title),
        (messageOfLine env line).isSome := by
      refine List.forall_mem_cons.mpr ⟨hfirst.2 _ htitle, fun line hmem => ?_⟩
      have hmessage := (hrest line hmem).2 [] (by decide)
      rwa [List.append_nil] at hmessage
    have hmessage := fun {r} => exists_message (r := r) hc hdat hline htitle hsome
    have hmessages := messagesOfContents_title env r₀.title hfirst.1
      fun line hmem => (hrest line hmem).1
    have hthread : addTitle (recordsOf response) (first :: rest) = (first ++ r₀.title) :: rest := by
      rw [addTitle, hhead]
      rfl
    rw [hthread] at hparse
    have hcount : (((first :: rest).modifyHead (· ++ firstLine r₀.title)).filterMap
        (messageOfLine env)).length = (first :: rest).length := by
      rw [List.length_filterMap_eq_countP, List.countP_eq_length.mpr hsome, List.length_modifyHead]
    rw [hdat.length] at hcount
    obtain ⟨m₀, hm₀⟩ := Option.isSome_iff_exists.mp (hfirst.2 _ htitle)
    rw [hm₀, Option.toList_some, List.singleton_append] at hmessages
    rw [List.modifyHead_cons, List.filterMap_cons_some hm₀] at hcount hmessage
    have hlater : (laterLines r₀.title).filterMap (messageOfLine env) = [] ↔
        ∀ line ∈ laterLines r₀.title, ¬ HasMessage line := by
      rw [List.filterMap_eq_nil_iff]
      refine forall₂_congr fun line _ => ?_
      rw [← messageOfLine_isSome_iff env, Option.not_isSome_iff_eq_none]
    constructor
    · rintro ⟨thread, messages, hparse', rfl, hlength, hback⟩
      obtain rfl : _ = thread := Except.ok.inj (hparse.symm.trans hparse')
      rw [composeWithComposer_contents] at hlength hback
      -- the lines of the title would be too many messages
      have hnil : (laterLines r₀.title).filterMap (messageOfLine env) = [] := by
        refine List.eq_nil_of_length_eq_zero ?_
        rw [length_numberFrom, hmessages, ← hcount] at hlength
        simp only [List.length_append, List.length_cons] at hlength
        omega
      rw [hnil, List.nil_append] at hmessages
      refine ⟨fun r hr => ?_, fun r hr => ?_⟩
      · obtain ⟨m, hm, hiff⟩ := hmessage hr
        obtain ⟨m', hm', his⟩ := hback r hr
        rw [getElem?_numberFrom, hmessages, hm] at hm'
        obtain rfl := Option.some.inj hm'
        exact hiff.mp (isMessageOf_index.mp his)
      · obtain rfl := Option.some.inj (hhead.symm.trans hr)
        exact hlater.mp hnil
    · intro hreadable
      rw [hlater.mpr (hreadable.title r₀ hhead), List.nil_append] at hmessages
      refine ⟨_, _, hparse, rfl, ?_, fun r hr => ?_⟩
      · rw [composeWithComposer_contents, length_numberFrom, hmessages, hcount]
      · obtain ⟨m, hm, hiff⟩ := hmessage hr
        refine ⟨{ m with index := loadedCount + UInt32.ofNat (r.number - loadedCount.toNat - 1) },
          ?_,
          isMessageOf_index.mpr (hiff.mpr (hreadable.readable r hr))⟩
        rw [composeWithComposer_contents, getElem?_numberFrom, hmessages]
        exact congrArg (Option.map _) hm

def asciiClasses : Classes where
  digit c := uc '0' ≤ c && c ≤ uc '9'
  space := isWhitespace

def patterns : List (NSString × Regex UniChar) :=
  [(ns "^(.*),\\d\x7b2,4\x7d", asciiClasses.eraPrefix),
   (ns ("^(.*\\d\x7b2\x7d:\\d\x7b2\x7d)(\\.\\d\x7b2\x7d)? ?" ++
     "( <a href=\"http://2ch.se/\">.*</a>)? ?(.*)"), asciiClasses.dateAndExtra),
   (ns "ID:\\s?(\\S*)\\s?", asciiClasses.idField),
   (ns "BE:\\s?(.*)\\s?", asciiClasses.beField),
   (ns "(HOST:|siberia IP field:)\\s?(.*)", asciiClasses.hostField (ns "siberia IP field"))]

def searchingServices : TextServices where
  matchInString pattern s := (patterns.lookup pattern).bind fun r => matchOf r s
  localizedString key := key
  dateFromString _ _ := none
  stringForEntityReference _ := none

theorem compiles_searchingServices : Compiles searchingServices asciiClasses where
  eraPrefix _ _ := rfl
  dateAndExtra _ _ := rfl
  idField _ _ := rfl
  beField _ _ := rfl
  hostField _ _ := rfl

theorem forall_cut {s : NSString} {P : NSString → Prop} (h : ∀ k < s.length + 1, P (s.drop k)) :
    ∀ v w, s = v ++ w → P w := by
  rintro v w rfl
  have hcut := h v.length (by rw [List.length_append]; omega)
  rwa [List.drop_left] at hcut

theorem isLast_of_forall {s : NSString} {P : NSString → Prop} (hholds : P s)
    (h : ∀ k < s.length, ¬ P (s.drop (k + 1))) : IsLast P s := by
  refine ⟨hholds, ?_⟩
  rintro v w rfl hv
  obtain ⟨c, v, rfl⟩ := List.exists_cons_of_ne_nil hv
  have hcut := h v.length (by rw [List.length_append, List.length_cons]; omega)
  rwa [List.cons_append, List.drop_succ_cons, List.drop_left] at hcut

/-- A message with hundredths of a second and an ID, and one with an era and a host. -/
def twoRecords : NSString :=
  ns ("2<>n<>m<>2008/01/02(Wed) 03:04:05.67<>b<>t<>abc\n\n" ++
    "4<>o<>p<>X,2005/04/02 12:34<>c<><>host.example.jp\n")

theorem recordsOf_twoRecords : recordsOf twoRecords =
    [⟨2, ns "n", ns "m", ns "2008/01/02(Wed) 03:04:05.67", ns "b", ns "t", ns "abc"⟩,
      ⟨4, ns "o", ns "p", ns "X,2005/04/02 12:34", ns "c", [], ns "host.example.jp"⟩] := by
  decide +kernel

theorem isRawmode_twoRecords : IsRawmode 0 twoRecords := by
  refine ⟨?_, ?_, ?_⟩
  · decide +kernel
  · rw [recordsOf_twoRecords]
    decide
  · rw [recordsOf_twoRecords]
    decide

theorem convertible_twoRecords : Convertible 0 twoRecords := by
  refine ⟨?_, ?_, ?_⟩
  · decide +kernel
  · intro components hhead
    have hfirst : ((linesOf twoRecords).head?.bind recordOf).isSome := by decide +kernel
    rw [Option.mem_def.mp hhead, Option.bind_some] at hfirst
    exact .inl hfirst
  · rw [recordsOf_twoRecords]
    simp

theorem isDated_hundredths : IsDated asciiClasses (ns "2008/01/02(Wed) 03:04:05.67")
    (ns " ID:abc") := by
  have hclock : IsLast (fun w => startsWith asciiClasses.time w = true) (ns "04:05.67 ID:abc") :=
    isLast_of_forall (by decide) (by decide +kernel)
  have hdots : startsWith asciiClasses.hundredths (ns ".67 ID:abc") = true := by decide
  refine ⟨⟨none, ns "2008/01/02(Wed) 03:04:05", some (ns ".67"), none, ns "ID:abc"⟩,
    ⟨by decide, ?_⟩, rfl⟩
  refine ⟨_, ns ".67 ID:abc", ns " ID:abc", ns "ID:abc", .none ?_, ?_, .some hdots, .none ?_, rfl⟩
  · exact forall_cut (P := fun w => startsWith asciiClasses.comma w = false) (by decide +kernel)
  · exact TimeEnds.of_eq (ns "2008/01/02(Wed) 03:") hclock (by decide +kernel)
  · intro y hy
    exact absurd (List.cons.inj hy).1 (by decide)

theorem isDated_era : IsDated asciiClasses (ns "X,2005/04/02 12:34")
    (ns " HOST:host.example.jp") := by
  have hcomma : IsLast (fun w => startsWith asciiClasses.comma w = true)
      (ns ",2005/04/02 12:34 HOST:host.example.jp") := isLast_of_forall (by decide)
      (by decide +kernel)
  have hclock : IsLast (fun w => startsWith asciiClasses.time w = true)
      (ns "12:34 HOST:host.example.jp") := isLast_of_forall (by decide) (by decide +kernel)
  refine ⟨⟨some (ns "X"), ns "2005/04/02 12:34", none, none, ns "HOST:host.example.jp"⟩,
    ⟨by decide, ?_⟩, rfl⟩
  refine ⟨ns "2005/04/02 12:34 HOST:host.example.jp", ns " HOST:host.example.jp", _,
    ns "HOST:host.example.jp", .some hcomma,
    .of_eq (ns "2005/04/02 ") hclock (by decide +kernel), .none rfl, .none ?_, rfl⟩
  intro y hy
  exact absurd (List.cons.inj hy).1 (by decide)

theorem readableRecords_twoRecords :
    ReadableRecords searchingServices asciiClasses (recordsOf twoRecords) := by
  rw [recordsOf_twoRecords]
  refine ⟨List.forall_mem_cons.mpr ⟨⟨?_, isDated_hundredths, ?_, ?_⟩,
    List.forall_mem_singleton.mpr ⟨?_, isDated_era, ?_, ?_⟩⟩, ?_⟩
  · exact List.forall_mem_iff_getElem.mpr (by decide +kernel)
  · rw [if_pos (by decide)]
    exact List.forall_mem_iff_getElem.mpr (by decide +kernel)
  · decide
  · exact List.forall_mem_iff_getElem.mpr (by decide +kernel)
  · rw [if_neg (by decide)]
    intro c hc
    obtain rfl := Option.some.inj hc
    decide
  · decide
  · intro r hr
    obtain rfl := Option.some.inj hr
    decide

end BathyScaphe.Host
