import BathyScaphe.Dat.Downloader
import Mathlib.Data.List.Find

/-!
# Downloading in parts

Downloads of the parts of a DAT that grows by whole lines store what one
download of the whole would. Two things have to be the same for all parts: the
converter that reads them, and whether their messages are marked as ASCII art.
The second is not when all threads of the board should be, since the mark is
taken from the board only for a thread that is not stored yet.
-/

namespace BathyScaphe.Dat.ThreadTextDownloader

open NSString CMR2chDATReader

-- Converters

/-- A converter that reads lines on their own: a line feed is always the end of
one, and never a part of another character. -/
structure LineWise (convert : List UInt8 → Option NSString) : Prop where
  newline : convert [0x0A] = some [uc '\n']
  append : ∀ a b, a.getLast? = some 0x0A →
    convert (a ++ b) = (convert a).bind fun x => (convert b).map (x ++ ·)
  getLast : ∀ a x, a.getLast? = some 0x0A → convert a = some x → x.getLast? = some (uc '\n')

theorem LineWise.newline_cons {convert : List UInt8 → Option NSString} (h : LineWise convert)
    (b : List UInt8) : convert (0x0A :: b) = (convert b).map (uc '\n' :: ·) := by
  have happend := h.append [0x0A] b rfl
  rw [h.newline] at happend
  exact happend

section Find
variable {α : Type u} {β : Type v} {l : List α}

theorem findSome?_eq_bind_find? (f : α → Option β) :
    l.findSome? f = (l.find? fun a => (f a).isSome).bind f := by
  induction l with
  | nil => rfl
  | cons a l ih =>
    cases h : f a with
    | none => simp [h, ih]
    | some b => simp [h]

theorem find?_and {p q : α → Bool} (h : l.find? p = l.find? q) :
    (l.find? fun a => p a && q a) = l.find? p := by
  induction l with
  | nil => rfl
  | cons a l ih =>
    cases hp : p a <;> cases hq : q a
    · simp only [List.find?_cons, hp, hq, Bool.and_false] at h ⊢
      exact ih h
    · simp only [List.find?_cons, hp, hq] at h
      exact absurd (List.find?_some h) (by simp [hp])
    · simp only [List.find?_cons, hp, hq] at h
      exact absurd (List.find?_some h.symm) (by simp [hq])
    · simp [hp, hq]

end Find

variable (downloader : ThreadTextDownloader)

/-- The encoding that reads the data; without one the text encoding converter
does. -/
def usedEncoding (data : List UInt8) : Option CFStringEncoding :=
  (triedEncodings downloader.encodingForLoadedData).find? fun e =>
    (downloader.createWithBytes e data).isSome

def convertUsing (e : Option CFStringEncoding) (data : List UInt8) : Option NSString :=
  match e with
  | some e => downloader.createWithBytes e data
  | none => downloader.initWithDataUsingTEC downloader.encodingForLoadedData data

structure ReadsLines : Prop where
  createWithBytes : ∀ e ∈ triedEncodings downloader.encodingForLoadedData,
    LineWise (downloader.createWithBytes e)
  initWithDataUsingTEC : LineWise (downloader.initWithDataUsingTEC downloader.encodingForLoadedData)

variable {downloader}

theorem ReadsLines.convertUsing (h : downloader.ReadsLines) (data : List UInt8) :
    LineWise (downloader.convertUsing (downloader.usedEncoding data)) := by
  cases hused : downloader.usedEncoding data with
  | none => exact h.initWithDataUsingTEC
  | some e => exact h.createWithBytes e (List.mem_of_find?_eq_some hused)

theorem contentsWithData_eq (h : data ≠ []) :
    downloader.contentsWithData data =
      downloader.convertUsing (downloader.usedEncoding data) data := by
  have hlength : ¬ data.length = 0 := by simpa using h
  rw [contentsWithData, if_neg hlength, stringWithData]
  simp only [findSome?_eq_bind_find?]
  rw [← usedEncoding]
  cases hused : downloader.usedEncoding data with
  | none =>
    simp only [Option.bind_none, Option.none_or, convertUsing, Option.or_self]
  | some e =>
    have hsome : (downloader.createWithBytes e data).isSome = true := by
      exact List.find?_some (p := fun e => (downloader.createWithBytes e data).isSome) hused
    obtain ⟨x, hx⟩ := Option.isSome_iff_exists.mp hsome
    simp only [Option.bind_some, convertUsing, hx, Option.some_or]

section
variable (hlines : downloader.ReadsLines)
include hlines

theorem usedEncoding_append (hdat : dat.getLast? = some 0x0A)
    (hsame : downloader.usedEncoding (0x0A :: new) = downloader.usedEncoding dat) :
    downloader.usedEncoding (dat ++ new) = downloader.usedEncoding dat := by
  have hnew : downloader.usedEncoding (0x0A :: new) = downloader.usedEncoding new := by
    refine List.find?_congr fun e he => ?_
    rw [(hlines.createWithBytes e he).newline_cons, Option.isSome_map]
  have hwhole : downloader.usedEncoding (dat ++ new) =
      (triedEncodings downloader.encodingForLoadedData).find? fun e =>
        (downloader.createWithBytes e dat).isSome && (downloader.createWithBytes e new).isSome := by
    refine List.find?_congr fun e he => ?_
    rw [(hlines.createWithBytes e he).append dat new hdat]
    cases downloader.createWithBytes e dat <;> simp
  rw [hwhole]
  rw [hnew] at hsame
  exact find?_and hsame.symm

/-- The text of the whole is the text of the stored part and the text of the
rest, which comes with the line feed of the overlap. -/
theorem contentsWithData_append (hdat : dat.getLast? = some 0x0A)
    (hsame : downloader.usedEncoding (0x0A :: new) = downloader.usedEncoding dat)
    (hnew : (downloader.contentsWithData (0x0A :: new)).isSome)
    (htext : downloader.contentsWithData dat = some text) :
    ∃ rest, downloader.contentsWithData (0x0A :: new) = some (uc '\n' :: rest) ∧
      downloader.contentsWithData (dat ++ new) = some (text ++ rest) := by
  have hne : dat ≠ [] := by
    rintro rfl
    cases hdat
  have hline := hlines.convertUsing dat
  rw [contentsWithData_eq (List.cons_ne_nil _ _), hsame, hline.newline_cons] at hnew ⊢
  rw [contentsWithData_eq hne] at htext
  rw [contentsWithData_eq (by simp [hne]), usedEncoding_append hlines hdat hsame,
    hline.append dat new hdat, htext]
  rw [Option.isSome_map] at hnew
  obtain ⟨rest, hrest⟩ := Option.isSome_iff_exists.mp hnew
  exact ⟨rest, by rw [hrest]; rfl, by rw [hrest]; rfl⟩

theorem getLast?_contentsWithData (hdat : dat.getLast? = some 0x0A)
    (htext : downloader.contentsWithData dat = some text) : text.getLast? = some (uc '\n') := by
  have hne : dat ≠ [] := by
    rintro rfl
    cases hdat
  rw [contentsWithData_eq hne] at htext
  exact (hlines.convertUsing dat).getLast dat text hdat htext

end

-- What a download writes

structure IsThread (thread : PropertyList) (length : UInt32) (entries : List PropertyList) :
    Prop where
  isDict : thread.IsDict
  status : thread.objectForKey "Status" = none
  length : thread.objectForKey "Length" = some (.ofUnsignedInt length)
  contents : thread.objectForKey "Contents" = some (.array entries)

theorem IsThread.storedMessages_eq {length : UInt32} (h : IsThread thread length entries) :
    storedMessages thread = entries := by
  simp [storedMessages, PropertyList.arrayForKey, h.contents, PropertyList.asArray]

theorem isThread_setEntries (downloader : ThreadTextDownloader) (thread : PropertyList)
    (length : UInt32) (modified : Option Int) (entries : List PropertyList) (hdict : thread.IsDict)
    (hstatus : thread.objectForKey "Status" = none) :
    IsThread (downloader.setEntries thread length modified entries) length entries := by
  constructor
  · simp [setEntries, hdict]
  all_goals
    simp [setEntries, PropertyList.objectForKey_setNoneNil, PropertyList.objectForKey_setObject,
      hdict, hstatus]

theorem dictionaryByAppendingContents_first (downloader : ThreadTextDownloader)
    (lastDate : Option Int) (length : UInt32)
    (h : text ≠ []) :
    ∃ thread, downloader.dictionaryByAppendingContents none lastDate (some text) length =
        (some thread, numberFrom 0 (messagesOfContents downloader.services text)) ∧
      IsThread thread length ((numberFrom 0 (messagesOfContents downloader.services text)).map
        (plistEntry (downloader.isAAThread none))) := by
  have hlength : ¬ text.length = 0 := by simpa using h
  have hthread (title created : Option PropertyList) (entries : List PropertyList) :=
    isThread_setEntries downloader
      (((PropertyList.dict []).setNoneNil title "Title").setNoneNil created "CreatedDate") length
      (lastDate.or (lastMessageDate downloader.services (initWithContents text))) entries
      (by simp) (by simp [PropertyList.objectForKey_setNoneNil])
  refine ⟨_, ?_, hthread ((threadTitle downloader.services (initWithContents text)).map .string)
    ((firstMessageDate downloader.services (initWithContents text)).map .date) _⟩
  simp only [dictionaryByAppendingContents, hlength, if_false, partialContentsRequested,
    Option.bind_none, Option.isSome_none, Bool.false_eq_true, List.length_nil, List.nil_append]
  rw [show UInt32.ofNat 0 = 0 from rfl, composeWithComposer_contents]

theorem dictionaryByAppendingContents_partial (downloader : ThreadTextDownloader)
    (lastDate : Option Int) (received : UInt32)
    (hthread : IsThread thread length entries) (h : text ≠ []) :
    ∃ thread', downloader.dictionaryByAppendingContents (some thread) lastDate
      (some text) received =
        (some thread', numberFrom (UInt32.ofNat entries.length)
          (messagesOfContents downloader.services text)) ∧
      IsThread thread' (if 0 < received + length then received + length - 1 else received + length)
        (entries ++ (numberFrom (UInt32.ofNat entries.length)
          (messagesOfContents downloader.services text)).map (plistEntry false)) := by
  have hlength : ¬ text.length = 0 := by simpa using h
  have hstored : thread.unsignedIntForKey "Length" = length := by
    simp [PropertyList.unsignedIntForKey, PropertyList.numberForKey, hthread.length,
      PropertyList.asNumber, PropertyList.ofUnsignedInt]
  have hAA : downloader.isAAThread (some thread) = false := by
    simp [isAAThread, hthread.status, userStatusWithRepresentation]
  refine ⟨_, ?_, isThread_setEntries downloader thread _
    (lastDate.or (lastMessageDate downloader.services (initWithContents text))) _
    hthread.isDict hthread.status⟩
  simp only [dictionaryByAppendingContents, hlength, if_false, partialContentsRequested,
    Option.bind_some, hthread.length, Option.isSome_some, if_true, Option.getD_some,
    hthread.storedMessages_eq, hstored, hAA]
  rw [composeWithComposer_contents]

-- The stored thread and the DAT

structure Stored (downloader : ThreadTextDownloader) (log : ThreadLog) (thread : PropertyList)
    (text : NSString) : Prop where
  file : log.file = some thread
  isThread : IsThread thread (UInt32.ofNat log.dat.length)
    (log.composed.map (plistEntry (downloader.isAAThread none)))
  composed : log.composed = numberFrom 0 (messagesOfContents downloader.services text)
  contents : downloader.contentsWithData log.dat = some text
  wholeLines : log.dat.getLast? = some 0x0A

def Inv (downloader : ThreadTextDownloader) (log : ThreadLog) : Prop :=
  (log.file = none ∧ log.composed = [] ∧ downloader.contentsWithData log.dat = none ∧
      (log.dat = [] ∨ log.dat.getLast? = some 0x0A)) ∨
    ∃ thread text, Stored downloader log thread text

/-- The DAT of the server only grows, and by whole lines. -/
def GrowsByLines (log : ThreadLog) (download : Download) : Prop :=
  log.dat <+: download.dat ∧ (download.dat = [] ∨ download.dat.getLast? = some 0x0A)

/-- The length fits the request, and the answer is read by the converter that
read the stored part. -/
def SameConversion (downloader : ThreadTextDownloader) (log : ThreadLog) (download : Download) :
    Prop :=
  let received := resourceData download.dat (requestedRange log.file)
  download.dat.length < 2 ^ 31 ∧
    downloader.usedEncoding received = downloader.usedEncoding log.dat ∧
    (downloader.contentsWithData received).isSome

/-- What a download that adds to a stored thread asks for, besides: the board
does not mark its threads. -/
def KeepsStored (downloader : ThreadTextDownloader) (log : ThreadLog)
    (download : Download) : Prop :=
  download.inProgress = false → log.file.isSome →
    downloader.isAAThread none = false ∧ SameConversion downloader log download

/-- The messages, the length and the messages that were composed, with their
indexes. -/
def SameStored (log log' : ThreadLog) : Prop :=
  log.file.map storedMessages = log'.file.map storedMessages ∧
    (log.file.bind (·.objectForKey "Length")) = (log'.file.bind (·.objectForKey "Length")) ∧
    log.composed = log'.composed

theorem Inv.wholeLines (h : Inv downloader log) :
    log.dat = [] ∨ log.dat.getLast? = some 0x0A := by
  rcases h with ⟨-, -, -, hdat⟩ | ⟨thread, text, hs⟩
  · exact hdat
  · exact .inr hs.wholeLines

theorem Inv.sameStored (h : Inv downloader log) (h' : Inv downloader log')
    (hdat : log.dat = log'.dat) :
    SameStored log log' := by
  rcases h with ⟨hfile, hcomposed, hnone, -⟩ | ⟨thread, text, hs⟩ <;>
    rcases h' with ⟨hfile', hcomposed', hnone', -⟩ | ⟨thread', text', hs'⟩
  · rw [SameStored, hfile, hfile', hcomposed, hcomposed']
    exact ⟨rfl, rfl, rfl⟩
  · rw [hdat, hs'.contents] at hnone
    cases hnone
  · rw [← hdat, hs.contents] at hnone'
    cases hnone'
  · have htext : text = text' := by
      have := hs.contents
      rw [hdat, hs'.contents] at this
      exact (Option.some.inj this).symm
    have hcomposed : log.composed = log'.composed := by
      rw [hs.composed, hs'.composed, htext]
    refine ⟨?_, ?_, hcomposed⟩
    · rw [hs.file, hs'.file, Option.map_some, Option.map_some, hs.isThread.storedMessages_eq,
        hs'.isThread.storedMessages_eq, hcomposed]
    · rw [hs.file, hs'.file, Option.bind_some, Option.bind_some, hs.isThread.length,
        hs'.isThread.length, hdat]

theorem requestedRange_of_isThread (h : IsThread thread (UInt32.ofNat n) entries)
    (hn : n < 2 ^ 31) :
    requestedRange (some thread) = some ((n : Int) - 1) := by
  have hsmall : (UInt32.ofNat n).toNat = n :=
    UInt32.toNat_ofNat_of_lt (Nat.lt_of_lt_of_le hn (by decide))
  have hbmod : (n : Int).bmod (2 ^ 32) = n := by
    rw [Int.bmod_eq_of_le] <;> omega
  simp only [requestedRange, PropertyList.numberForKey, h.length, PropertyList.ofUnsignedInt,
    PropertyList.asNumber, Option.bind_some, Option.map_some, hsmall, hbmod]

theorem resourceData_append (hdat : dat.getLast? = some 0x0A) :
    resourceData (dat ++ new) (some ((dat.length : Int) - 1)) = 0x0A :: new := by
  obtain ⟨init, rfl⟩ := List.getLast?_eq_some_iff.mp hdat
  have hfirst : (((init ++ [(0x0A : UInt8)]).length : Int) - 1) = (init.length : Int) := by
    rw [List.length_append, List.length_singleton]
    omega
  rw [hfirst, resourceData, if_neg (by omega), Int.toNat_natCast, List.append_assoc,
    List.drop_left]
  rfl

theorem length_append_overlap (h : m + n < 2 ^ 31) :
    (if 0 < UInt32.ofNat (n + 1) + UInt32.ofNat m then UInt32.ofNat (n + 1) + UInt32.ofNat m - 1
      else UInt32.ofNat (n + 1) + UInt32.ofNat m) = UInt32.ofNat (m + n) := by
  have hsum : UInt32.ofNat (n + 1) + UInt32.ofNat m = UInt32.ofNat (m + n + 1) := by
    rw [← UInt32.ofNat_add]
    congr 1
    omega
  have hpos : 0 < UInt32.ofNat (m + n + 1) := by
    have hzero : (0 : UInt32).toNat = 0 := rfl
    rw [UInt32.lt_iff_toNat_lt, UInt32.toNat_ofNat', hzero]
    omega
  rw [hsum, if_pos hpos, UInt32.ofNat_add, show UInt32.ofNat 1 = 1 from rfl, UInt32.add_sub_cancel]

theorem load_of_dataProcess {download : Download} (hprogress : download.inProgress = false)
    (hprocess : downloader.dataProcess log.file download.lastModified
      (resourceData download.dat (requestedRange log.file)) = some (thread, composed)) :
    downloader.load log download = ⟨thread.or log.file, log.composed ++ composed,
      download.dat⟩ := by
  rw [load, if_neg (by simp [hprogress])]
  simp only [hprocess]

/-- Without a line feed in front only a first download is accepted. -/
theorem dataProcess_first (downloader : ThreadTextDownloader) (lastDate : Option Int)
    (hdata : data ≠ []) :
    downloader.dataProcess none lastDate data =
      some (downloader.dictionaryByAppendingContents none lastDate
        (downloader.contentsWithData data) (UInt32.ofNat data.length)) := by
  have hlength : ¬ data.length = 0 := by simpa using hdata
  simp [dataProcess, hlength, partialContentsRequested]

theorem dataProcess_newline_cons (downloader : ThreadTextDownloader)
    (localThread : Option PropertyList) (lastDate : Option Int) (new : List UInt8) :
    downloader.dataProcess localThread lastDate (0x0A :: new) =
      some (downloader.dictionaryByAppendingContents localThread lastDate
        (downloader.contentsWithData (0x0A :: new)) (UInt32.ofNat (new.length + 1))) := by
  simp [dataProcess]

section
variable (hlines : downloader.ReadsLines)
include hlines

theorem load_first_stored (hfile : log.file = none) (hcomposed : log.composed = [])
    (hprogress : download.inProgress = false) (hdat : download.dat.getLast? = some 0x0A)
    (hcontents : downloader.contentsWithData download.dat = some text) :
    (downloader.load log download).dat = download.dat ∧
      ∃ thread, Stored downloader (downloader.load log download) thread text := by
  have hne : download.dat ≠ [] := by
    intro hnil
    rw [hnil] at hdat
    cases hdat
  have htext : text ≠ [] := by
    rintro rfl
    cases getLast?_contentsWithData hlines hdat hcontents
  obtain ⟨thread, hthread, his⟩ := dictionaryByAppendingContents_first downloader
    download.lastModified (UInt32.ofNat download.dat.length) htext
  have hprocess := dataProcess_first downloader download.lastModified hne
  rw [hcontents, hthread] at hprocess
  rw [load_of_dataProcess hprogress (by rw [hfile]; exact hprocess), hcomposed]
  exact ⟨rfl, thread, rfl, his, rfl, hcontents, hdat⟩

theorem load_first (log : ThreadLog) (download : Download) (hfile : log.file = none)
    (hcomposed : log.composed = []) (hprogress : download.inProgress = false)
    (hdat : download.dat = [] ∨ download.dat.getLast? = some 0x0A) :
    Inv downloader (downloader.load log download) ∧
      (downloader.load log download).dat = download.dat := by
  by_cases hne : download.dat = []
  · have hprocess : downloader.dataProcess log.file download.lastModified
        (resourceData download.dat (requestedRange log.file)) = none := by
      rw [hne, hfile]
      rfl
    have hload : downloader.load log download = { log with dat := download.dat } := by
      rw [load, if_neg (by simp [hprogress])]
      simp only [hprocess]
    rw [hload]
    refine ⟨.inl ⟨hfile, hcomposed, ?_, hdat⟩, rfl⟩
    rw [hne]
    rfl
  · cases hcontents : downloader.contentsWithData download.dat with
    | none =>
      have hprocess := dataProcess_first downloader download.lastModified hne
      rw [hcontents] at hprocess
      rw [load_of_dataProcess hprogress (by rw [hfile]; exact hprocess), hcomposed, hfile]
      exact ⟨.inl ⟨rfl, rfl, hcontents, hdat⟩, rfl⟩
    | some text =>
      obtain ⟨hload, thread, hs⟩ := load_first_stored hlines hfile hcomposed hprogress
        (hdat.resolve_left hne) hcontents
      exact ⟨.inr ⟨thread, text, hs⟩, hload⟩

/-- A later download appends the messages of the rest, without a mark. The new
indexes go on where the stored ones end. -/
theorem load_partial_file (hs : Stored downloader log thread text)
    (hdat : log.dat ++ new = download.dat) (hsame : SameConversion downloader log download)
    (hprogress : download.inProgress = false) :
    ∃ thread' rest, downloader.load log download =
        ⟨some thread', numberFrom 0 (messagesOfContents downloader.services (text ++ rest)),
          download.dat⟩ ∧
      downloader.contentsWithData (0x0A :: new) = some (uc '\n' :: rest) ∧
      downloader.contentsWithData download.dat = some (text ++ rest) ∧
      ∃ appended, numberFrom 0 (messagesOfContents downloader.services (text ++ rest)) =
          log.composed ++ appended ∧
        IsThread thread' (UInt32.ofNat download.dat.length)
          (log.composed.map (plistEntry (downloader.isAAThread none)) ++
            appended.map (plistEntry false)) := by
  obtain ⟨hsize, hsame, hsome⟩ := hsame
  rw [← hdat, List.length_append] at hsize
  have hreceived : resourceData download.dat (requestedRange log.file) = 0x0A :: new := by
    rw [hs.file, requestedRange_of_isThread hs.isThread (by omega), ← hdat,
      resourceData_append hs.wholeLines]
  rw [hreceived] at hsame hsome
  obtain ⟨rest, hrest, hcontents⟩ :=
    contentsWithData_append hlines hs.wholeLines hsame hsome hs.contents
  obtain ⟨thread', hthread', his'⟩ := dictionaryByAppendingContents_partial downloader
    download.lastModified (UInt32.ofNat (new.length + 1)) hs.isThread
    (List.cons_ne_nil (uc '\n') rest)
  rw [messagesOfContents_newline_cons] at hthread' his'
  have hcomposed : numberFrom 0 (messagesOfContents downloader.services (text ++ rest)) =
      log.composed ++ numberFrom (UInt32.ofNat
        (log.composed.map (plistEntry (downloader.isAAThread none))).length)
        (messagesOfContents downloader.services rest) := by
    rw [messagesOfContents_append (getLast?_contentsWithData hlines hs.wholeLines hs.contents),
      numberFrom_append, ← hs.composed, List.length_map, UInt32.zero_add, hs.composed,
      length_numberFrom]
  have hprocess := dataProcess_newline_cons downloader (some thread) download.lastModified new
  rw [hrest, hthread'] at hprocess
  rw [length_append_overlap hsize, ← List.length_append, hdat] at his'
  refine ⟨thread', rest, ?_, hrest, by rw [← hdat]; exact hcontents, _, hcomposed, his'⟩
  rw [load_of_dataProcess hprogress (by rw [hreceived, hs.file]; exact hprocess), hcomposed]
  rfl

theorem load_inv (hinv : Inv downloader log) (hgrows : GrowsByLines log download)
    (hkeeps : KeepsStored downloader log download) :
    Inv downloader (downloader.load log download) := by
  by_cases hprogress : download.inProgress = true
  · rw [load, if_pos hprogress]
    exact hinv
  · have hprogress : download.inProgress = false := by simpa using hprogress
    rcases hinv with ⟨hfile, hcomposed, -⟩ | ⟨thread, text, hs⟩
    · exact (load_first hlines log download hfile hcomposed hprogress hgrows.2).1
    · obtain ⟨⟨new, hnew⟩, hwhole⟩ := hgrows
      obtain ⟨hAA, hsame⟩ := hkeeps hprogress (by rw [hs.file]; rfl)
      obtain ⟨thread', rest, hload, -, hcontents, appended, hcomposed, his⟩ :=
        load_partial_file hlines hs hnew hsame hprogress
      have hlast : download.dat.getLast? = some 0x0A := by
        refine hwhole.resolve_left fun hnil => ?_
        have hdat : log.dat.getLast? = some 0x0A := hs.wholeLines
        rw [(List.append_eq_nil_iff.mp (hnew.trans hnil)).1] at hdat
        cases hdat
      rw [hload]
      refine .inr ⟨thread', text ++ rest, rfl, ?_, rfl, hcontents, hlast⟩
      rw [hAA, ← List.map_append, ← hcomposed, ← hAA] at his
      exact his

/-- In every run of downloads of a DAT that grows by lines, of which those that
add to a stored thread keep what is stored, the stored messages, their indexes
and the length are those of one download of the last DAT. -/
theorem run_sameStored_full
    (hgrows : Run.Guarded (step downloader) GrowsByLines initialLog downloads)
    (hkeeps : Run.Guarded (step downloader) (KeepsStored downloader) initialLog downloads) :
    ∃ log, Run.run (step downloader) initialLog downloads = some log ∧
      SameStored log (downloader.load initialLog ⟨log.dat, none, false⟩) := by
  have hinitial : Inv downloader initialLog := .inl ⟨rfl, rfl, rfl, .inl rfl⟩
  obtain ⟨log, hrun, hinv⟩ := Run.guarded_total (I := Inv downloader)
    (fun hlog hallowed => ⟨_, rfl, load_inv hlines hlog hallowed.1 hallowed.2⟩)
    (hgrows.and hkeeps) hinitial
  obtain ⟨hfull, hdat⟩ :=
    load_first hlines initialLog ⟨log.dat, none, false⟩ rfl rfl rfl hinv.wholeLines
  exact ⟨log, hrun, hinv.sameStored hfull hdat.symm⟩

end

-- Two downloads of a board

def bytes (s : String) : List UInt8 := s.toList.map fun c => UInt8.ofNat c.toNat

def asciiCharacters (data : List UInt8) : Option NSString :=
  if data.all (· < 0x80) then some (data.map (·.toUInt16)) else none

theorem lineWise_asciiCharacters : LineWise asciiCharacters where
  newline := rfl
  append a b _ := by
    simp only [asciiCharacters, List.all_append, List.map_append]
    cases a.all (· < 0x80) <;> cases b.all (· < 0x80) <;> rfl
  getLast a x ha hx := by
    obtain ⟨init, rfl⟩ := List.getLast?_eq_some_iff.mp ha
    rw [asciiCharacters] at hx
    split at hx
    · cases hx
      simp [uc]
    · cases hx

def asciiDownloader (allThreadsShouldAAThread : Bool) : ThreadTextDownloader where
  services := silentServices
  createWithBytes _ := asciiCharacters
  initWithDataUsingTEC _ := asciiCharacters
  encodingForLoadedData := kCFStringEncodingDOSJapanese
  boardName := some (ns "aasaloon")
  identifier := some (ns "1")
  allThreadsShouldAAThread := allThreadsShouldAAThread

theorem readsLines_asciiDownloader (isAA : Bool) : (asciiDownloader isAA).ReadsLines :=
  ⟨fun _ _ => lineWise_asciiCharacters, lineWise_asciiCharacters⟩

def firstDownload : Download := ⟨bytes "a<>b<>c<>d\n", none, false⟩

def secondDownload : Download := ⟨bytes "a<>b<>c<>d\ne<>f<>g<>h\n", none, false⟩

theorem load_firstDownload (isAA : Bool) :
    ((asciiDownloader isAA).load initialLog firstDownload).dat = firstDownload.dat ∧
      ∃ thread, Stored (asciiDownloader isAA) ((asciiDownloader isAA).load initialLog firstDownload)
        thread (ns "a<>b<>c<>d\n") :=
  load_first_stored (readsLines_asciiDownloader isAA) rfl rfl rfl (by decide)
    (by cases isAA <;> decide)

theorem sameConversion_secondDownload (isAA : Bool) :
    SameConversion (asciiDownloader isAA) ((asciiDownloader isAA).load initialLog firstDownload)
      secondDownload := by
  obtain ⟨hdat, thread, hs⟩ := load_firstDownload isAA
  have hreceived : resourceData secondDownload.dat
      (requestedRange ((asciiDownloader isAA).load initialLog firstDownload).file) =
      0x0A :: bytes "e<>f<>g<>h\n" := by
    have hlength := hs.isThread
    rw [hdat] at hlength
    rw [hs.file, requestedRange_of_isThread hlength (by decide)]
    decide
  rw [SameConversion, hreceived, hdat]
  refine ⟨by decide, ?_, ?_⟩
  · cases isAA <;> decide
  · cases isAA <;> decide

theorem growsByLines_downloads (isAA : Bool) :
    Run.Guarded (step (asciiDownloader isAA)) GrowsByLines initialLog
      [firstDownload, secondDownload] := by
  refine Run.guarded_cons rfl ⟨by decide, by decide⟩ (Run.guarded_cons rfl ⟨?_, by decide⟩ trivial)
  rw [(load_firstDownload isAA).1]
  decide

/-- Two downloads from a board that does not mark its threads. -/
theorem run_sameStored_full_two :
    ∃ log, Run.run (step (asciiDownloader false)) initialLog [firstDownload, secondDownload] =
        some log ∧
      SameStored log ((asciiDownloader false).load initialLog ⟨log.dat, none, false⟩) := by
  refine run_sameStored_full (readsLines_asciiDownloader false) (growsByLines_downloads false) ?_
  refine Run.guarded_cons rfl (fun _ h => absurd h (by decide)) (Run.guarded_cons rfl ?_ trivial)
  exact fun _ _ => ⟨rfl, sameConversion_secondDownload false⟩

/-- From a board that marks all its threads: the message of the second download
is stored without the mark, which one download of both would give it. -/
theorem run_sameStored_marked_fails :
    Run.Guarded (step (asciiDownloader true)) GrowsByLines initialLog
        [firstDownload, secondDownload] ∧
      ∃ log, Run.run (step (asciiDownloader true)) initialLog [firstDownload, secondDownload] =
          some log ∧ log.dat = secondDownload.dat ∧
        ¬ SameStored log ((asciiDownloader true).load initialLog ⟨log.dat, none, false⟩) := by
  refine ⟨growsByLines_downloads true, _, rfl, ?_⟩
  obtain ⟨hdat, thread, hs⟩ := load_firstDownload true
  obtain ⟨thread', rest, hload, hrest, -, appended, hcomposed, his⟩ :=
    load_partial_file (readsLines_asciiDownloader true) hs
      (show _ ++ bytes "e<>f<>g<>h\n" = secondDownload.dat by rw [hdat]; decide)
      (sameConversion_secondDownload true) rfl
  obtain rfl : rest = ns "e<>f<>g<>h\n" := by
    have hdecode : (asciiDownloader true).contentsWithData (0x0A :: bytes "e<>f<>g<>h\n") =
        some (uc '\n' :: ns "e<>f<>g<>h\n") := by decide
    rw [hdecode] at hrest
    exact (List.cons.inj (Option.some.inj hrest)).2.symm
  rw [hload]
  refine ⟨rfl, ?_⟩
  rintro ⟨hmessages, -, -⟩
  obtain ⟨-, full, hfull⟩ : _ ∧ ∃ thread, Stored (asciiDownloader true)
      ((asciiDownloader true).load initialLog ⟨secondDownload.dat, none, false⟩) thread
      (ns "a<>b<>c<>d\ne<>f<>g<>h\n") :=
    load_first_stored (readsLines_asciiDownloader true) rfl rfl rfl (by decide) (by decide)
  have happended : appended = (numberFrom 0 (messagesOfContents (asciiDownloader true).services
      (ns "a<>b<>c<>d\n" ++ ns "e<>f<>g<>h\n"))).drop 1 := by
    rw [hcomposed, hs.composed]
    exact (List.drop_left' (by decide)).symm
  rw [hfull.file, Option.map_some, Option.map_some, his.storedMessages_eq,
    hfull.isThread.storedMessages_eq, happended, hs.composed, hfull.composed] at hmessages
  have hstatus := congrArg (List.map fun entry => PropertyList.numberForKey entry "Status")
    (Option.some.inj hmessages)
  exact absurd hstatus (by decide)

end BathyScaphe.Dat.ThreadTextDownloader
