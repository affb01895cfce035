import BathyScaphe.Host.HostTypes
import BathyScaphe.Host.URLText
import BathyScaphe.Thread.StandardLink

/-!
# Building read URLs

Each handler writes the board, the DAT and the indexes into a URL. What it writes is to be
what the parser reads: the board and the DAT at the places of the properties, a single index
as the start and the end, and the first message as the parser shows it.
-/

namespace BathyScaphe.Host

open NSString Dat Thread CMRThreadLinkProcessor

-- The source

structure BoardURL where
  scheme : NSString
  host : NSString
  directories : List NSString
  scheme_isPart : IsPart scheme
  host_isPart : IsPart host
  directories_isPart : ∀ d ∈ directories, IsPart d
  directories_ne_nil : directories ≠ []

def BoardURL.url (boardURL : BoardURL) : NSURL :=
  ⟨boardURL.scheme, some boardURL.host, boardURL.directories, true, none⟩

def BoardURL.bbs (boardURL : BoardURL) : NSString :=
  boardURL.directories.getLast boardURL.directories_ne_nil

/-- A part of a path, behind those in front of it. Nothing is above the root. -/
def resolvePart (directories : List NSString) (part : NSString) : List NSString :=
  if part = ns "." then directories
  else if part = ns ".." then directories.dropLast
  else directories ++ [part]

def resolve (parts : List NSString) : List NSString := parts.foldl resolvePart []

/-- `URLWithString:relativeToURL:` of a path, relative to a directory -/
def NSURL.URLWithStringRelativeTo (path : NSString) (directory : NSURL) : NSURL :=
  { directory with
    path := resolve (directory.path ++ partsOfPath path), directory := false, query := none }

def cString (s : NSString) : HostTypes.CString :=
  ⟨(s.map UInt16.toUInt8).takeWhile (· ≠ 0), fun h => by simpa using List.mem_takeWhile_imp h⟩

def bbsOfBoardURL (anURL : NSURL) : Option NSString :=
  let strings : HostTypes.URLStrings := ⟨cString anURL.absoluteString, some (cString anURL.scheme)⟩
  match HostTypes.CMRGetHostCStringFromBoardURL (anURL.absoluteString.length + 1)
    (some strings) with
  | .ok (some parts) =>
    match parts.bbsString with
    | .ok bbs => bbs.map fun bbs => bbs.map UInt8.toUInt16
    | .error _ => none
  | _ => none

def lastPathComponent (path : NSString) : NSString := (path.rdropWhile (· == uc '/')).rtakeWhile
    (· != uc '/')

def unsignedFormat (n : UInt32) : NSString := (Nat.toDigits 10 n.toNat).map uc

namespace CMRHostHandler

def readURLOfBoard (handler : CMRHostHandler) (boardURL : NSURL) : NSURL :=
  boardURL.URLWithStringRelativeTo handler.readCGIProperties.relativePath

def makeURLStringWithBoard (handler : CMRHostHandler) (boardURL : NSURL) (datName : NSString) :
    Option NSString := do
  let location := handler.readURLOfBoard boardURL
  match handler with
  | .channel2 | .channel2Other =>
    let bbs ← bbsOfBoardURL boardURL
    return location.absoluteString ++ (ns "/" ++ (bbs ++ (ns "/" ++ (datName ++ ns "/"))))
  | .livedoor =>
    let bbs ← bbsOfBoardURL boardURL
    let category ← boardURL.pathComponents[1]?
    return location.absoluteString ++
      (ns "/" ++ (category ++ (ns "/" ++ (bbs ++ (ns "/" ++ (datName ++ ns "/"))))))
  | .machibbs =>
    let properties := handler.readCGIProperties
    return location.absoluteString ++ (ns "?" ++ (properties.paramBBS ++ (ns "=" ++
      (lastPathComponent boardURL.absoluteString ++
        (ns "&" ++ (properties.paramID ++ (ns "=" ++ datName)))))))

def indexString (handler : CMRHostHandler) (startIndex endIndex : UInt32)
    (nofirst : Bool) : NSString :=
  match handler with
  | .channel2 | .channel2Other =>
    (if startIndex ≠ NSNotFound then unsignedFormat startIndex else []) ++
      if endIndex ≠ NSNotFound ∧ endIndex ≠ startIndex then
        (if NSNotFound = startIndex then ns "1" else []) ++ (ns "-" ++ unsignedFormat endIndex)
      else []
  | .livedoor =>
    (if startIndex ≠ NSNotFound then unsignedFormat startIndex
      else []) ++ ((if nofirst then ns "n-" else ns "-") ++
      if endIndex ≠ NSNotFound ∧ endIndex ≠ startIndex then
        (if NSNotFound = startIndex then ns "1-" else []) ++ unsignedFormat endIndex else [])
  | .machibbs =>
    let properties := handler.readCGIProperties
    (if startIndex ≠ NSNotFound
      then ns "&" ++ (properties.paramStart ++ (ns "=" ++ unsignedFormat startIndex))
      else []) ++
    ((if endIndex ≠ NSNotFound
      then ns "&" ++ (properties.paramEnd ++ (ns "=" ++ unsignedFormat endIndex)) else []) ++
      if nofirst then ns "&" ++ (properties.paramNoFirst ++ (ns "=" ++ properties.paramTrue))
      else [])

def readURLWithBoard (handler : CMRHostHandler) (boardURL : NSURL) (datName : NSString)
    (startIndex endIndex : UInt32)
    (nofirst : Bool) : Option NSURL := do
  let base ← handler.makeURLStringWithBoard boardURL datName
  URLWithString (base ++ handler.indexString startIndex endIndex nofirst)

end CMRHostHandler

-- What is read back

def BoardURL.above (board : BoardURL) : List NSString := (resolve board.directories).dropLast

def threadPath (handler : CMRHostHandler) (board : BoardURL) (datName : NSString) : List NSString :=
  match handler with
  | .channel2 | .channel2Other =>
    board.above ++ [ns "test", ns "read.cgi", board.bbs, datName]
  | .livedoor =>
    board.above.dropLast ++
      [ns "bbs", ns "read.cgi", board.directories.head board.directories_ne_nil, board.bbs, datName]
  | .machibbs => board.above ++ [ns "bbs", ns "read.cgi"]

/-- The directory and the name of the CGI are at their places, and the rest is behind them. -/
def AtCGI (properties : ReadCGIProperties) (path rest : List NSString) : Prop :=
  ∃ name, properties.name <+: name ∧
    (ns "/" :: path).drop properties.directoryIndex = properties.directory :: name :: rest

/-- What the thread and the indexes have to be like. Where the path has more parts than the
CGI, the board and the DAT, its last part is read as indexes. -/
def Returnable (handler : CMRHostHandler) (board : BoardURL) (datName : NSString)
    (startIndex endIndex : UInt32)
    (nofirst : Bool) : Prop :=
  let AtThread :=
    fun rest => AtCGI handler.readCGIProperties (threadPath handler board datName) rest
  match handler with
  | .channel2 | .channel2Other =>
    ∃ rest, AtThread (board.bbs :: datName :: rest) ∧
      ((nofirst = true ∧ startIndex < NSNotFound ∧ endIndex < NSNotFound) ∨
        (startIndex = NSNotFound ∧ endIndex = NSNotFound ∧
          if rest = [] then nofirst = false
          else nofirst = true ∧ scanIndexString datName = (NSNotFound, NSNotFound)))
  | .livedoor =>
    ∃ rest, AtThread (board.bbs :: datName :: rest) ∧ nofirst = true ∧
      ((startIndex < NSNotFound ∧ endIndex = startIndex) ∨
        (startIndex = NSNotFound ∧ endIndex = NSNotFound))
  | .machibbs =>
    (∃ rest, AtThread rest) ∧ nofirst = true ∧ startIndex ≤ NSNotFound ∧ endIndex ≤ NSNotFound

-- Numbers

theorem decimalDigit_uc {c : Char} (h : c.isDigit = true) : Xml.decimalDigit (uc c) = some
    (c.toNat - '0'.toNat) := by
  obtain ⟨hlow, hhigh⟩ := Char.isDigit_iff_toNat.mp h
  have hunit : (uc c).toNat = c.toNat :=
    UInt16.toNat_ofNat_of_lt' (Nat.lt_of_le_of_lt hhigh (by decide))
  have hzero : uc '0' ≤ uc c := UInt16.le_iff_toNat_le.mpr (hunit ▸ hlow)
  have hnine : uc c ≤ uc '9' := UInt16.le_iff_toNat_le.mpr (hunit ▸ hhigh)
  rw [Xml.decimalDigit,
    if_pos (by rw [Bool.and_eq_true]; exact ⟨decide_eq_true hzero, decide_eq_true hnine⟩),
    UInt16.toNat_sub_of_le _ _ hzero, hunit]
  rfl

theorem decimal_unsignedFormat (n : UInt32) : Xml.decimal (unsignedFormat n) = some n.toNat := by
  have hdigit : ∀ c ∈ Nat.toDigits 10 n.toNat, c.isDigit = true := fun c hc =>
    Nat.isDigit_of_mem_toDigits (by decide) (by decide) hc
  have hall : ∀ c ∈ unsignedFormat n, (Xml.decimalDigit c).isSome = true := by
    intro c hc
    obtain ⟨d, hd, rfl⟩ := List.mem_map.mp hc
    rw [decimalDigit_uc (hdigit d hd)]
    rfl
  have hdigits : (unsignedFormat n).filterMap Xml.decimalDigit =
      (Nat.toDigits 10 n.toNat).map fun c => c.toNat - '0'.toNat := by
    rw [unsignedFormat, List.filterMap_map, ← List.filterMap_eq_map]
    exact List.filterMap_congr fun c hc => decimalDigit_uc (hdigit c hc)
  have hvalue : ((Nat.toDigits 10 n.toNat).map fun c => c.toNat - '0'.toNat).foldl
    (fun n d => n * 10 + d) 0 =
      n.toNat := by
    rw [List.foldl_map]
    conv_rhs => rw [← @Nat.ofDigitChars_ten_toDigits n.toNat, Nat.ofDigitChars_eq_foldl]
    simp only [Nat.mul_comm 10]
  rw [Xml.decimal, Xml.numeral, if_pos (List.all_eq_true.mpr hall), Xml.scanDigits,
    List.takeWhile_eq_self_iff.mpr hall, hdigits]
  split
  · rename_i hnil
    exact absurd (List.map_eq_nil_iff.mp hnil) Nat.toDigits_ne_nil
  · rw [hvalue]

theorem isUnreserved_of_digit {c : UniChar} (h : (Xml.decimalDigit c).isSome = true) :
    isUnreserved c = true := by
  have hrange : (uc '0' ≤ c && c ≤ uc '9') = true := by
    by_contra hout
    rw [Xml.decimalDigit, if_neg hout] at h
    cases h
  rw [isUnreserved, hrange, Bool.or_true, Bool.true_or]

theorem isPart_unsignedFormat (n : UInt32) : IsPart (unsignedFormat n) := by
  obtain ⟨-, hall, hne⟩ := numberOf_of_decimal (decimal_unsignedFormat n)
  exact ⟨hne, fun c hc => isUnreserved_of_digit (hall c hc)⟩

-- The board

section
variable {s t u : NSString} {c : UniChar} {handler : CMRHostHandler} {board : BoardURL}
  {datName : NSString}

theorem IsPart.not_mem (h : IsPart s) (hc : isUnreserved c = false) : c ∉ s := fun hmem =>
  ne_of_isUnreserved (h.2 c hmem) hc rfl

theorem pathText_append (path path' : List NSString) :
    pathText (path ++ path') = pathText path ++ pathText path' :=
  List.flatMap_append

theorem pathText_cons (part : NSString) (path : List NSString) :
    pathText (part :: path) = uc '/' :: (part ++ pathText path) := List.flatMap_cons

theorem isPart_bbs (board : BoardURL) : IsPart board.bbs :=
  board.directories_isPart _ (List.getLast_mem board.directories_ne_nil)

theorem directories_eq (board : BoardURL) :
    board.directories = board.directories.dropLast ++ [board.bbs] :=
  (List.dropLast_append_getLast board.directories_ne_nil).symm

theorem rdropWhile_slash (hs : IsPart s) (u : NSString) :
    (u ++ uc '/' :: (s ++ ns "/")).rdropWhile (· == uc '/') = u ++ uc '/' :: s := by
  have hlast : ¬ (s.getLast hs.1 == uc '/') = true := fun heq =>
    hs.not_mem (by decide) (beq_iff_eq.mp heq ▸ List.getLast_mem hs.1)
  have hconcat : u ++ uc '/' :: s = (u ++ uc '/' :: s.dropLast) ++ [s.getLast hs.1] := by
    rw [List.append_assoc, List.cons_append, List.dropLast_append_getLast]
  calc (u ++ uc '/' :: (s ++ ns "/")).rdropWhile (· == uc '/')
      = ((u ++ uc '/' :: s) ++ [uc '/']).rdropWhile (· == uc '/') := by
        rw [List.append_assoc, List.cons_append]
        rfl
    _ = (u ++ uc '/' :: s).rdropWhile (· == uc '/') :=
      List.rdropWhile_concat_pos _ _ _ (beq_self_eq_true _)
    _ = u ++ uc '/' :: s := by
      rw [hconcat]
      exact List.rdropWhile_concat_neg _ _ _ hlast

theorem rtakeWhile_slash (hs : IsPart s) (u : NSString) : (u ++ uc '/' :: s).rtakeWhile
    (· != uc '/') = s := by
  have hmem : uc '/' ∉ s.reverse := by
    rw [List.mem_reverse]
    exact hs.not_mem (by decide)
  have htake := (takeWhile_ne hmem (fun d hd =>
    (Option.some.inj hd).symm : ∀ d ∈ (uc '/' :: u.reverse).head?, _)).1
  rw [List.rtakeWhile, List.reverse_append, List.reverse_cons, List.append_assoc,
    List.singleton_append, htake, List.reverse_reverse]

theorem absoluteString_url (board : BoardURL) : board.url.absoluteString =
    board.scheme ++ (ns "://" ++ (board.host ++
      (pathText board.directories.dropLast ++ uc '/' :: (board.bbs ++ ns "/")))) := by
  rw [NSURL.absoluteString, BoardURL.url]
  conv_lhs => rw [directories_eq board, pathText_append, pathText_cons]
  simp [pathText]

theorem toNat_of_isUnreserved (h : isUnreserved c = true) : c.toNat ≠ 0 ∧ c.toNat < 128 := by
  simp only [isUnreserved, Bool.or_eq_true, Bool.and_eq_true, decide_eq_true_eq,
    UInt16.le_iff_toNat_le] at h
  obtain ((⟨hlow, hhigh⟩ | ⟨hlow, hhigh⟩) | ⟨hlow, hhigh⟩) | hmem := h
  · exact ⟨by simp [uc] at hlow; omega, by simp [uc] at hhigh; omega⟩
  · exact ⟨by simp [uc] at hlow; omega, by simp [uc] at hhigh; omega⟩
  · exact ⟨by simp [uc] at hlow; omega, by simp [uc] at hhigh; omega⟩
  · have hmarks : ∀ d ∈ ns "-_.!~*'()", d.toNat ≠ 0 ∧ d.toNat < 128 :=
      List.forall_mem_iff_getElem.mpr (by decide)
    exact hmarks c hmem

def IsURLText (s : NSString) : Prop := ∀ c ∈ s, isUnreserved c = true ∨ c = uc ':' ∨ c = uc '/'

theorem IsURLText.toNat (h : IsURLText s) : ∀ c ∈ s, c.toNat ≠ 0 ∧ c.toNat < 128 := by
  intro c hc
  obtain hc | rfl | rfl := h c hc
  · exact toNat_of_isUnreserved hc
  · decide
  · decide

theorem IsURLText.bytes_cString (h : IsURLText s) : (cString s).bytes = s.map UInt16.toUInt8 := by
  refine List.takeWhile_eq_self_iff.mpr fun d hd => ?_
  obtain ⟨c, hc, rfl⟩ := List.mem_map.mp hd
  obtain ⟨hne, hlt⟩ := h.toNat c hc
  rw [decide_eq_true_eq, Ne, ← UInt8.toNat_inj, UInt16.toNat_toUInt8]
  rw [Nat.mod_eq_of_lt (by omega)]
  exact hne

theorem IsPart.slash_not_mem_bytes (h : IsPart s) : HostTypes.slash ∉ s.map UInt16.toUInt8 := by
  intro hmem
  obtain ⟨c, hc, hslash⟩ := List.mem_map.mp hmem
  have hlt := (toNat_of_isUnreserved (h.2 c hc)).2
  have hnat := congrArg UInt8.toNat hslash
  rw [UInt16.toNat_toUInt8, Nat.mod_eq_of_lt (by omega)] at hnat
  obtain rfl : c = uc '/' := UInt16.toNat_inj.mp hnat
  exact h.not_mem (by decide) hc

theorem IsPart.map_toUInt16 (h : IsPart s) : (s.map UInt16.toUInt8).map UInt8.toUInt16 = s := by
  rw [List.map_map]
  refine (List.map_congr_left fun c hc => ?_).trans (List.map_id s)
  have hlt := (toNat_of_isUnreserved (h.2 c hc)).2
  refine UInt16.toNat_inj.mp ?_
  rw [Function.comp_apply, UInt8.toNat_toUInt16, UInt16.toNat_toUInt8, id,
    Nat.mod_eq_of_lt (by omega)]

theorem isURLText_pathText {path : List NSString} (h : ∀ d ∈ path, IsPart d) :
    IsURLText (pathText path) := by
  intro c hc
  obtain ⟨d, hd, hc⟩ := List.mem_flatMap.mp hc
  obtain rfl | hc := List.mem_cons.mp hc
  · exact .inr (.inr rfl)
  · exact .inl ((h d hd).2 c hc)

theorem getLast?_pathParts {host up bbs : List UInt8} (hhost : host ≠ [])
    (hslash : HostTypes.slash ∉ host)
    (hbbs : bbs ≠ []) (hslash' : HostTypes.slash ∉ bbs) :
    (HostTypes.pathParts ((HostTypes.slash :: HostTypes.slash :: (host ++ up)) ++
      HostTypes.slash :: (bbs ++ HostTypes.slash :: []))).getLast? = some bbs := by
  obtain ⟨c, host, rfl⟩ := List.exists_cons_of_ne_nil hhost
  have hc : c ≠ HostTypes.slash := by
    rintro rfl
    exact hslash List.mem_cons_self
  have hcons : ∀ s, HostTypes.nonemptyParts (HostTypes.slash :: s) = HostTypes.nonemptyParts s :=
    HostTypes.nonemptyParts_append []
  have hfront := HostTypes.nonemptyParts_ne_nil hc (host ++ up)
  rw [HostTypes.pathParts, HostTypes.nonemptyParts_append, HostTypes.nonemptyParts_append,
    HostTypes.nonemptyParts_of_not_mem hbbs hslash', hcons, hcons]
  show (HostTypes.nonemptyParts (c :: (host ++ up)) ++ [bbs]).tail.getLast? = _
  rw [List.tail_append_of_ne_nil hfront, List.getLast?_concat]

theorem bbsOfBoardURL_url (board : BoardURL) : bbsOfBoardURL board.url = some board.bbs := by
  have hpart : ∀ {t : NSString}, IsPart t → IsURLText t := fun ht c hc => .inl (ht.2 c hc)
  have hup := isURLText_pathText fun d hd =>
    board.directories_isPart d (List.mem_of_mem_dropLast hd)
  have hbbs := isPart_bbs board
  let rest : NSString := ns "//" ++ (board.host ++ pathText board.directories.dropLast) ++
    uc '/' :: (board.bbs ++ ns "/")
  have hmarks : ∀ {t : NSString}, (∀ i (h : i < t.length), t[i] = uc ':' ∨ t[i] = uc '/') →
      IsURLText t := by
    intro t ht c hc
    obtain ⟨i, hi, rfl⟩ := List.getElem_of_mem hc
    exact .inr (ht i hi)
  have hrest : IsURLText rest := by
    refine List.forall_mem_append.mpr ⟨List.forall_mem_append.mpr ⟨hmarks (by decide), ?_⟩, ?_⟩
    · exact List.forall_mem_append.mpr ⟨hpart board.host_isPart, hup⟩
    · exact List.forall_mem_cons.mpr ⟨.inr (.inr rfl), List.forall_mem_append.mpr
        ⟨hpart hbbs, hmarks (by decide)⟩⟩
  have htext : board.url.absoluteString = board.scheme ++ uc ':' :: rest := by
    rw [absoluteString_url]
    simp [rest]
    rfl
  have hwhole : IsURLText (board.scheme ++ uc ':' :: rest) :=
    List.forall_mem_append.mpr ⟨hpart board.scheme_isPart,
      List.forall_mem_cons.mpr ⟨.inr (.inl rfl), hrest⟩⟩
  have hstrings :
    (⟨cString board.url.absoluteString, some (cString board.url.scheme)⟩ : HostTypes.URLStrings) =
      HostTypes.ofText (cString board.scheme) (cString rest) := by
    have hext : ∀ {x y : HostTypes.CString}, x.bytes = y.bytes → x = y := by
      rintro ⟨x, _⟩ ⟨y, _⟩ rfl
      rfl
    rw [HostTypes.ofText, htext]
    refine congrArg (HostTypes.URLStrings.mk · _) (hext ?_)
    show (cString _).bytes = (cString board.scheme).bytes ++ HostTypes.colon :: (cString rest).bytes
    rw [hwhole.bytes_cString, (hpart board.scheme_isPart).bytes_cString, hrest.bytes_cString,
      List.map_append, List.map_cons]
    rfl
  obtain ⟨parts, h, b, hparts, -, hb, hsplits⟩ :=
    HostTypes.boardURL_splits (cString board.scheme) (cString rest)
  have hrounds : (cString rest).bytes.length < board.url.absoluteString.length + 1 := by
    have hlength := congrArg List.length htext
    rw [List.length_append, List.length_cons] at hlength
    rw [hrest.bytes_cString, List.length_map, hlength]
    omega
  have hlast := @getLast?_pathParts _ ((pathText board.directories.dropLast).map UInt16.toUInt8) _
    (mt List.map_eq_nil_iff.mp board.host_isPart.1) board.host_isPart.slash_not_mem_bytes
    (mt List.map_eq_nil_iff.mp hbbs.1) hbbs.slash_not_mem_bytes
  have hbytes :
    (cString rest).bytes = (HostTypes.slash :: HostTypes.slash :: (board.host.map UInt16.toUInt8 ++
      (pathText board.directories.dropLast).map UInt16.toUInt8)) ++
        HostTypes.slash :: (board.bbs.map UInt16.toUInt8 ++ HostTypes.slash :: []) := by
    rw [hrest.bytes_cString]
    simp only [rest, List.map_append, List.map_cons]
    rfl
  rw [← hbytes, ← hsplits.board] at hlast
  subst hlast
  rw [bbsOfBoardURL]
  simp only [hstrings, hparts _ hrounds, hb, Option.map_some, hbbs.map_toUInt16]

theorem lastPathComponent_url (board : BoardURL) :
    lastPathComponent board.url.absoluteString = board.bbs := by
  have htext : board.url.absoluteString =
      (board.scheme ++ (ns "://" ++ (board.host ++ pathText board.directories.dropLast))) ++
        uc '/' :: (board.bbs ++ ns "/") := by
    rw [absoluteString_url]
    simp only [List.append_assoc]
  rw [htext, lastPathComponent, rdropWhile_slash (isPart_bbs board),
    rtakeWhile_slash (isPart_bbs board)]

-- The URL that is built

theorem resolve_append_singleton (parts : List NSString) (part : NSString) :
    resolve (parts ++ [part]) = resolvePart (resolve parts) part := by
  rw [resolve, List.foldl_append]
  rfl

theorem resolve_subset (parts : List NSString) : resolve parts ⊆ parts := by
  induction parts using List.reverseRecOn with
  | nil => exact List.Subset.refl _
  | append_singleton parts part ih =>
    rw [resolve_append_singleton, resolvePart]
    have hleft := List.subset_append_of_subset_left [part] ih
    split
    · exact hleft
    · split
      · exact fun d hd => hleft (List.mem_of_mem_dropLast hd)
      · exact List.append_subset.mpr ⟨hleft, List.subset_append_right _ _⟩

theorem isPart_of_mem_above : ∀ d ∈ board.above, IsPart d := fun d hd =>
  board.directories_isPart d (resolve_subset _ (List.mem_of_mem_dropLast hd))

def cgiPath (handler : CMRHostHandler) (board : BoardURL) : List NSString :=
  match handler with
  | .channel2 | .channel2Other => board.above ++ [ns "test", ns "read.cgi"]
  | .livedoor => board.above.dropLast ++ [ns "bbs", ns "read.cgi"]
  | .machibbs => board.above ++ [ns "bbs", ns "read.cgi"]

theorem resolve_up (directories : List NSString) {a b : NSString} (ha : a ∉ [ns ".", ns ".."])
    (hb : b ∉ [ns ".", ns ".."]) : [ns "..", a, b].foldl resolvePart directories =
      directories.dropLast ++ [a, b] := by
  simp only [List.mem_cons, List.not_mem_nil, or_false, not_or] at ha hb
  simp only [List.foldl_cons, List.foldl_nil, resolvePart, if_neg ha.1, if_neg ha.2, if_neg hb.1,
    if_neg hb.2, List.append_assoc]
  rfl

theorem readURLOfBoard_url (handler : CMRHostHandler) (board : BoardURL) :
    handler.readURLOfBoard board.url = ⟨board.scheme, some board.host, cgiPath handler board,
      false, none⟩ := by
  have hresolve : ∀ {path : NSString} {parts : List NSString}, partsOfPath path = parts →
      board.url.URLWithStringRelativeTo path =
        ⟨board.scheme, some board.host, parts.foldl resolvePart (resolve board.directories),
          false, none⟩ := by
    rintro path _ rfl
    exact congrArg (NSURL.mk board.scheme (some board.host) · false none) List.foldl_append
  cases handler with
  | channel2 | channel2Other =>
    have hparts : partsOfPath (ns "../test/read.cgi") = [ns "..", ns "test", ns "read.cgi"] := by
      decide
    exact (hresolve hparts).trans (by rw [resolve_up _ (by decide) (by decide)]; rfl)
  | machibbs =>
    have hparts : partsOfPath (ns "../bbs/read.cgi") = [ns "..", ns "bbs", ns "read.cgi"] := by
      decide
    exact (hresolve hparts).trans (by rw [resolve_up _ (by decide) (by decide)]; rfl)
  | livedoor =>
    have hparts : partsOfPath (ns "../../bbs/read.cgi") =
      [ns "..", ns "..", ns "bbs", ns "read.cgi"] := by decide
    exact (hresolve hparts).trans
      (by rw [List.foldl_cons, resolve_up _ (by decide) (by decide)]; rfl)

theorem isPart_of_all (hne : s ≠ []) (h : s.all isUnreserved = true) : IsPart s :=
  ⟨hne, List.all_eq_true.mp h⟩

theorem isPart_cgi : ∀ d ∈ [ns "test", ns "read.cgi", ns "bbs"], IsPart d := by
  intro d hd
  have hall : [ns "test", ns "read.cgi", ns "bbs"].all (fun d => !d.isEmpty && d.all isUnreserved) =
    true := by decide
  have hd := List.all_eq_true.mp hall d hd
  rw [Bool.and_eq_true, Bool.not_eq_true', List.isEmpty_eq_false_iff] at hd
  exact isPart_of_all hd.1 hd.2

theorem isPart_threadPath (hdat : IsPart datName) : ∀ d ∈ threadPath handler board datName,
    IsPart d := by
  have hcgi := isPart_cgi
  have hup : ∀ d ∈ board.above, IsPart d := isPart_of_mem_above
  have hupper : ∀ d ∈ board.above.dropLast, IsPart d :=
    fun d hd => hup d (List.mem_of_mem_dropLast hd)
  have hhead := board.directories_isPart _ (List.head_mem board.directories_ne_nil)
  have hbbs := isPart_bbs board
  simp only [List.mem_cons, List.not_mem_nil, or_false, forall_eq_or_imp, forall_eq] at hcgi
  obtain ⟨htest, hread, hboard⟩ := hcgi
  intro d hd
  cases handler <;>
    simp only [threadPath, List.mem_append, List.mem_cons, List.not_mem_nil, or_false] at hd <;>
    grind

def pathLink (handler : CMRHostHandler) (board : BoardURL) (datName index : NSString) : NSURL :=
  ⟨board.scheme, some board.host, threadPath handler board datName ++
    (if index = [] then [] else [index]),
    index = [], none⟩

theorem absoluteString_pathLink (handler : CMRHostHandler) (board : BoardURL)
    (datName index : NSString) :
    (pathLink handler board datName index).absoluteString = board.scheme ++
      (ns "://" ++ (board.host ++
      (pathText (threadPath handler board datName) ++ (ns "/" ++ index)))) := by
  rw [pathLink, NSURL.absoluteString]
  by_cases hindex : index = []
  · simp [hindex]
  · simp [hindex, pathText]
    rfl

theorem isPlain_pathLink (hdat : IsPart datName) {index : NSString}
    (hindex : ∀ c ∈ index, isUnreserved c = true) :
    IsPlain (pathLink handler board datName index) where
  scheme := board.scheme_isPart
  host := fun host hhost => Option.some.inj hhost ▸ board.host_isPart
  isSome := rfl
  path := by
    intro part hpart
    obtain hpart | hpart := List.mem_append.mp hpart
    · exact isPart_threadPath hdat part hpart
    · split at hpart
      · cases hpart
      · rename_i hne
        exact List.mem_singleton.mp hpart ▸ ⟨hne, hindex⟩
  query := nofun

theorem forall_mem_ite {q : α → Prop} {p : Prop} [Decidable p] {xs ys : List α} (hs : ∀ x ∈ xs, q x)
    (ht : ∀ y ∈ ys, q y) : ∀ x ∈ if p then xs else ys, q x := by
  split
  · exact hs
  · exact ht

theorem isUnreserved_indexString (hhandler : handler ≠ .machibbs) (startIndex endIndex : UInt32)
    (nofirst : Bool) :
    ∀ c ∈ handler.indexString startIndex endIndex nofirst, isUnreserved c = true := by
  have hnumber : ∀ n, ∀ c ∈ unsignedFormat n, isUnreserved c = true :=
    fun n => (isPart_unsignedFormat n).2
  have hmarks : ∀ {marks : NSString}, marks.all isUnreserved = true →
    ∀ c ∈ marks, isUnreserved c = true :=
    fun h => List.all_eq_true.mp h
  have hnone : ∀ c ∈ ([] : NSString), isUnreserved c = true := nofun
  cases handler with
  | machibbs => exact absurd rfl hhandler
  | channel2 | channel2Other =>
    refine List.forall_mem_append.mpr ⟨forall_mem_ite (hnumber _) hnone, forall_mem_ite ?_ hnone⟩
    refine List.forall_mem_append.mpr ⟨forall_mem_ite (hmarks (by decide)) hnone, ?_⟩
    exact List.forall_mem_append.mpr ⟨hmarks (by decide), hnumber _⟩
  | livedoor =>
    refine List.forall_mem_append.mpr ⟨forall_mem_ite (hnumber _) hnone, ?_⟩
    refine List.forall_mem_append.mpr ⟨forall_mem_ite (hmarks (by decide)) (hmarks (by decide)), ?_⟩
    refine forall_mem_ite (List.forall_mem_append.mpr ⟨?_, hnumber _⟩) hnone
    exact forall_mem_ite (hmarks (by decide)) hnone

theorem makeURLStringWithBoard_eq_some (hhandler : handler ≠ .machibbs) {base : NSString}
    (h : handler.makeURLStringWithBoard board.url datName = some base) :
    base = board.scheme ++
      (ns "://" ++ (board.host ++ (pathText (threadPath handler board datName) ++ ns "/"))) := by
  have hcategory :
    board.url.pathComponents[1]? = some (board.directories.head board.directories_ne_nil) := by
    rw [NSURL.pathComponents, List.getElem?_cons_succ, BoardURL.url, ← List.head?_eq_getElem?,
      List.head?_eq_some_head board.directories_ne_nil]
  cases handler with
  | machibbs => exact absurd rfl hhandler
  | _ =>
    simp only [CMRHostHandler.makeURLStringWithBoard, readURLOfBoard_url, bbsOfBoardURL_url,
      hcategory, Option.bind_eq_bind, Option.bind_some, Option.pure_def, Option.some.injEq] at h
    subst h
    simp only [NSURL.absoluteString, cgiPath, threadPath, pathText, List.flatMap_append,
      List.flatMap_cons, List.flatMap_nil, List.append_assoc, List.append_nil, Option.elim_none,
      Option.getD_some, List.cons_append]
    rfl

theorem readURLWithBoard_eq_some (hhandler : handler ≠ .machibbs) (hdat : IsPart datName)
    {link : NSURL}
    (h : handler.readURLWithBoard board.url datName startIndex endIndex nofirst = some link) :
    link = pathLink handler board datName (handler.indexString startIndex endIndex nofirst) := by
  obtain ⟨base, hbase, hlink⟩ := Option.bind_eq_some_iff.mp h
  have htext : base ++ handler.indexString startIndex endIndex nofirst =
      (pathLink handler board datName
        (handler.indexString startIndex endIndex nofirst)).absoluteString := by
    rw [absoluteString_pathLink, makeURLStringWithBoard_eq_some hhandler hbase]
    simp only [List.append_assoc]
  rw [htext, URLWithString_absoluteString (isPlain_pathLink hdat
    (isUnreserved_indexString hhandler _ _ _))] at hlink
  exact (Option.some.inj hlink).symm

-- The URL that is read

/-- The indexes that are read from the parts behind the DAT. -/
def ReadsIndexes (indexes : List NSString) (startIndex endIndex : UInt32)
    (showFirst : Bool) : Prop :=
  (indexes = [] ∧ startIndex = NSNotFound ∧ endIndex = NSNotFound ∧ showFirst = true) ∨
    ∃ index ∈ indexes.getLast?, scanIndexString index = (startIndex, endIndex) ∧ showFirst = false

theorem parsePath_eq_some {bbs key : NSString} {indexes : List NSString} {p : ReadParameters} :
    parsePath (bbs :: key :: indexes) = some p ↔
      bbs = p.bbs ∧ key = p.key ∧ ReadsIndexes indexes p.startIndex p.endIndex p.showFirst := by
  obtain ⟨pbbs, pkey, startIndex, endIndex, showFirst⟩ := p
  cases indexes with
  | nil => simp [parsePath, ReadsIndexes, eq_comm]
  | cons index indexes =>
    simp [parsePath, ReadsIndexes, List.getLast?_eq_getLast_of_ne_nil, Prod.ext_iff,
      eq_comm, and_assoc]

theorem four_le_length_drop (handler : CMRHostHandler) (hhandler : handler ≠ .machibbs)
    (board : BoardURL) (datName : NSString) :
    4 ≤ ((ns "/" :: threadPath handler board datName).drop
      handler.readCGIProperties.directoryIndex).length := by
  cases handler with
  | machibbs => exact absurd rfl hhandler
  | channel2 | channel2Other =>
    simp [threadPath, CMRHostHandler.readCGIProperties]
  | livedoor =>
    simp [threadPath, CMRHostHandler.readCGIProperties]

theorem parse_pathLink_iff (hhandler : handler ≠ .machibbs)
    (hcan : handler.canHandleURL board.url = true)
    {index : NSString} {startIndex endIndex : UInt32} {showFirst : Bool} :
    handler.parseParametersWithReadURL (pathLink handler board datName index) =
        some ⟨board.bbs, datName, startIndex, endIndex, showFirst⟩ ↔
      ∃ rest, AtCGI handler.readCGIProperties (threadPath handler board datName)
        (board.bbs :: datName :: rest) ∧
        ReadsIndexes (rest ++ if index = [] then [] else [index]) startIndex endIndex
          showFirst := by
  have hlong := four_le_length_drop handler hhandler board datName
  have hcomponents : (pathLink handler board datName index).pathComponents.drop
      handler.readCGIProperties.directoryIndex =
        (ns "/" :: threadPath handler board datName).drop
        handler.readCGIProperties.directoryIndex ++
          if index = [] then [] else [index] := by
    rw [NSURL.pathComponents, pathLink, ← List.cons_append, List.drop_append_of_le_length]
    rw [List.length_drop] at hlong
    omega
  have hcan' : handler.canHandleURL (pathLink handler board datName index) = true := hcan
  rw [parseParametersWithReadURL_eq_some, hcomponents]
  simp only [AtCGI]
  generalize (ns "/" :: threadPath handler board datName).drop
    handler.readCGIProperties.directoryIndex = parts
    at hlong ⊢
  obtain ⟨a, b, c, d, parts, rfl⟩ : ∃ a b c d rest, parts = a :: b :: c :: d :: rest := by
    match parts, hlong with
    | a :: b :: c :: d :: rest, _ => exact ⟨a, b, c, d, rest, rfl⟩
  constructor
  · rintro ⟨-, name, rest, hparts, hname, hread⟩
    simp only [List.cons_append, List.cons.injEq] at hparts
    obtain ⟨rfl, rfl, rfl⟩ := hparts
    obtain ⟨hbbs, hkey, hindexes⟩ := parsePath_eq_some.mp hread
    subst hbbs hkey
    exact ⟨parts, ⟨b, hname, rfl⟩, hindexes⟩
  · rintro ⟨rest, ⟨name, hname, hparts⟩, hindexes⟩
    simp only [List.cons.injEq] at hparts
    obtain ⟨rfl, rfl, rfl, rfl, rfl⟩ := hparts
    exact ⟨hcan', b, _, rfl, hname, parsePath_eq_some.mpr ⟨rfl, rfl, hindexes⟩⟩

theorem readsIndexes_concat {rest : List NSString} {index : NSString} {startIndex endIndex : UInt32}
    {showFirst : Bool} : ReadsIndexes (rest ++ [index]) startIndex endIndex showFirst ↔
      scanIndexString index = (startIndex, endIndex) ∧ showFirst = false := by
  simp [ReadsIndexes]

-- The indexes that are written

variable {m n startIndex endIndex : UInt32} {nofirst : Bool}

theorem ofNat_min_eq_iff : UInt32.ofNat (min n.toNat INT_MAX) = n ↔ n ≤ NSNotFound := by
  have hmin : (UInt32.ofNat (min n.toNat INT_MAX)).toNat = min n.toNat INT_MAX :=
    UInt32.toNat_ofNat_of_lt' (Nat.lt_of_le_of_lt (Nat.min_le_right _ INT_MAX) (by decide))
  rw [← UInt32.toNat_inj, hmin, UInt32.le_iff_toNat_le, show NSNotFound.toNat = INT_MAX from rfl]
  omega

theorem scanIndexString_number (n : UInt32) {after : NSString}
    (hafter : ∀ c ∈ after.head?, (Xml.decimalDigit c).isSome = false ∧ isWhitespace c = false ∧
      c ≠ uc '-') :
    scanIndexString (unsignedFormat n ++ after) =
      (UInt32.ofNat (min n.toNat INT_MAX), UInt32.ofNat (min n.toNat INT_MAX)) :=
  (@Spells.number [] _ _ after nofun (decimal_unsignedFormat n) hafter).scanIndexString

theorem scanIndexString_range {before s : NSString}
    (hbefore : ∀ c ∈ before, decimalDigitCharacterSet c = false)
    (hs : Xml.decimal s = some m.toNat) (n : UInt32) :
    scanIndexString (before ++ (s ++ (ns "-" ++ unsignedFormat n))) =
      (UInt32.ofNat (min m.toNat INT_MAX), UInt32.ofNat (min n.toNat INT_MAX)) := by
  have hspells := @Spells.range before s _ _ _ [] hbefore hs (decimal_unsignedFormat n) nofun
  rw [List.append_nil] at hspells
  exact hspells.scanIndexString

theorem ne_of_lt_notFound (h : n < NSNotFound) : n ≠ NSNotFound := by
  rintro rfl
  exact absurd h (by decide)

theorem lt_notFound_of (hle : n ≤ NSNotFound) (hne : n ≠ NSNotFound) : n < NSNotFound :=
  UInt32.lt_of_le_of_ne hle hne

/-- Indexes in the form of 2channel are read as they are if and only if both are given. -/
theorem scanIndexString_channel2_iff (h : ¬ (startIndex = NSNotFound ∧ endIndex = NSNotFound)) :
    scanIndexString (CMRHostHandler.channel2.indexString startIndex endIndex nofirst) =
      (startIndex, endIndex) ↔
      startIndex < NSNotFound ∧ endIndex < NSNotFound := by
  rw [CMRHostHandler.indexString]
  by_cases hstart : startIndex = NSNotFound
  · have hend : endIndex ≠ NSNotFound := fun hend => h ⟨hstart, hend⟩
    have hscan := @scanIndexString_range 1 [] (ns "1") nofun rfl endIndex
    subst hstart
    rw [if_neg (not_not.mpr rfl), if_pos ⟨hend, hend⟩, if_pos rfl]
    rw [List.nil_append] at hscan ⊢
    rw [hscan]
    refine iff_of_false (fun heq => ?_) (fun hlt => absurd hlt.1 (by decide))
    exact absurd (Prod.mk.inj heq).1 (by decide)
  · rw [if_pos hstart]
    by_cases hrange : endIndex ≠ NSNotFound ∧ endIndex ≠ startIndex
    · have hscan :=
        @scanIndexString_range startIndex [] _ nofun (decimal_unsignedFormat startIndex) endIndex
      rw [List.nil_append] at hscan
      rw [if_pos hrange, if_neg (Ne.symm hstart), List.nil_append, hscan, Prod.mk.injEq,
        ofNat_min_eq_iff, ofNat_min_eq_iff]
      exact and_congr ⟨fun hle => lt_notFound_of hle hstart, UInt32.le_of_lt⟩
        ⟨fun hle => lt_notFound_of hle hrange.1, UInt32.le_of_lt⟩
    · have hscan := @scanIndexString_number startIndex [] nofun
      rw [if_neg hrange, hscan, Prod.mk.injEq, ofNat_min_eq_iff]
      constructor
      · rintro ⟨hle, hend⟩
        rw [ofNat_min_eq_iff.mpr hle] at hend
        exact ⟨lt_notFound_of hle hstart, hend ▸ lt_notFound_of hle hstart⟩
      · rintro ⟨hlt, hend⟩
        obtain rfl : endIndex = startIndex := by
          by_contra hne
          exact hrange ⟨ne_of_lt_notFound hend, hne⟩
        exact ⟨UInt32.le_of_lt hlt, ofNat_min_eq_iff.mpr (UInt32.le_of_lt hlt)⟩

/-- Indexes in the form of livedoor, with the mark `n`, are read as they are if and only if
they are one index or none. -/
theorem scanIndexString_livedoor_iff :
    scanIndexString (CMRHostHandler.livedoor.indexString startIndex endIndex true) =
      (startIndex, endIndex) ↔
      (startIndex < NSNotFound ∧ endIndex = startIndex) ∨
        (startIndex = NSNotFound ∧ endIndex = NSNotFound) := by
  rw [CMRHostHandler.indexString]
  by_cases hstart : startIndex = NSNotFound
  · subst hstart
    rw [if_neg (not_not.mpr rfl), List.nil_append, if_pos rfl]
    by_cases hend : endIndex = NSNotFound
    · subst hend
      exact iff_of_true (by decide) (.inr ⟨rfl, rfl⟩)
    · have hbefore : ∀ c ∈ ns "n-", decimalDigitCharacterSet c = false := by
        have hall : (ns "n-").all (fun c => !decimalDigitCharacterSet c) = true := by decide
        exact fun c hc => by simpa using List.all_eq_true.mp hall c hc
      have hscan := @scanIndexString_range 1 (ns "n-") (ns "1") hbefore rfl endIndex
      rw [if_pos ⟨hend, hend⟩, if_pos rfl]
      rw [show ns "1-" = ns "1" ++ ns "-" from rfl, List.append_assoc, hscan]
      refine iff_of_false (fun heq => absurd (Prod.mk.inj heq).1 (by decide)) ?_
      rintro (⟨hlt, -⟩ | ⟨-, heq⟩)
      · exact absurd hlt (by decide)
      · exact hend heq
  · rw [if_pos hstart, if_pos rfl]
    generalize (if endIndex ≠ NSNotFound ∧ endIndex ≠ startIndex then
      (if NSNotFound = startIndex then ns "1-" else []) ++ unsignedFormat endIndex else []) = tail
    have hscan := @scanIndexString_number startIndex (ns "n-" ++ tail) (by
      rintro c hc
      obtain rfl := Option.some.inj hc
      decide)
    rw [hscan, Prod.mk.injEq, ofNat_min_eq_iff, or_iff_left fun heq => hstart heq.1]
    constructor
    · rintro ⟨hle, hend⟩
      rw [ofNat_min_eq_iff.mpr hle] at hend
      exact ⟨lt_notFound_of hle hstart, hend.symm⟩
    · rintro ⟨hlt, rfl⟩
      exact ⟨UInt32.le_of_lt hlt, ofNat_min_eq_iff.mpr (UInt32.le_of_lt hlt)⟩

-- Queries

def parameterText (param : NSString × NSString) : NSString := param.1 ++ uc '=' :: param.2

def queryText (params : List (NSString × NSString)) : NSString :=
  [uc '&'].intercalate (params.map parameterText)

theorem queryDictionary_queryText {link : NSURL} {params : List (NSString × NSString)}
    (hne : params ≠ [])
    (hparams : ∀ param ∈ params, IsPart param.1 ∧ IsPart param.2)
    (hquery : link.query = some (queryText params)) :
    link.queryDictionary = some params := by
  have hamp : ∀ s ∈ params.map parameterText, uc '&' ∉ s := by
    rw [List.forall_mem_map]
    intro param hparam hmem
    obtain ⟨hkey, hobject⟩ := hparams param hparam
    obtain hmem | hmem := List.mem_append.mp hmem
    · exact hkey.not_mem (by decide) hmem
    · exact (List.mem_cons.mp hmem).elim (by decide) (hobject.not_mem (by decide))
  have hlength : ∀ param ∈ params, 2 ≤ (parameterText param).length := by
    intro param hparam
    have hkey := List.length_pos_of_ne_nil (hparams param hparam).1.1
    rw [parameterText, List.length_append, List.length_cons]
    omega
  have hlong : ¬ (queryText params).length ≤ 1 := by
    obtain ⟨param, params, rfl⟩ := List.exists_cons_of_ne_nil hne
    have hfirst := hlength param List.mem_cons_self
    have hprefix : parameterText param <+: queryText (param :: params) := by
      cases params with
      | nil => rw [queryText, List.map_singleton, List.intercalate_singleton]
      | cons =>
        rw [queryText, List.map_cons, List.map_cons, List.intercalate_cons_cons, List.append_assoc]
        exact List.prefix_append _ _
    have hle := hprefix.length_le
    omega
  rw [NSURL.queryDictionary, hquery, Option.map_some, if_neg hlong, componentsSeparatedByString,
    show ns "&" = [uc '&'] from rfl, Swap.pieces_singleton, queryText,
    List.splitOn_intercalate _ hamp (by simpa using hne), List.filterMap_map]
  refine congrArg some ((List.filterMap_congr (fun param hparam => ?_)).trans List.filterMap_some)
  have hpieces : (parameterText param).componentsSeparatedByString (ns "=") =
    [param.1, param.2] := by
    obtain ⟨hkey, hobject⟩ := hparams param hparam
    rw [componentsSeparatedByString, show ns "=" = [uc '='] from rfl, Swap.pieces_singleton,
      parameterText,
      List.splitOn_append_cons_self_of_not_mem (hkey.not_mem (by decide)),
      List.splitOn_eq_singleton (hobject.not_mem (by decide))]
  rw [Function.comp_apply, if_neg (Nat.not_lt.mpr (hlength param hparam)), hpieces]

def threadParameters (board : BoardURL) (datName : NSString) (startIndex endIndex : UInt32)
    (nofirst : Bool) :
    List (NSString × NSString) :=
  [(ns "BBS", board.bbs), (ns "KEY", datName)] ++
    ((if startIndex ≠ NSNotFound then [(ns "START", unsignedFormat startIndex)] else []) ++
    ((if endIndex ≠ NSNotFound then [(ns "END", unsignedFormat endIndex)] else []) ++
      if nofirst then [(ns "NOFIRST", ns "TRUE")] else []))

def queryLink (board : BoardURL) (datName : NSString) (startIndex endIndex : UInt32)
    (nofirst : Bool) : NSURL :=
  ⟨board.scheme, some board.host, cgiPath .machibbs board, false,
    some (queryText (threadParameters board datName startIndex endIndex nofirst))⟩

theorem isPart_threadParameters (hdat : IsPart datName) :
    ∀ param ∈ threadParameters board datName startIndex endIndex nofirst, IsPart param.1 ∧
      IsPart param.2 := by
  have hone : ∀ {key object : NSString}, IsPart key → IsPart object →
      ∀ param ∈ [(key, object)], IsPart param.1 ∧ IsPart param.2 := by
    intro key object hkey hobject param hparam
    obtain rfl := List.mem_singleton.mp hparam
    exact ⟨hkey, hobject⟩
  have hbbs : IsPart (ns "BBS") := isPart_of_all (by decide) (by decide)
  have hkey : IsPart (ns "KEY") := isPart_of_all (by decide) (by decide)
  have hstart : IsPart (ns "START") := isPart_of_all (by decide) (by decide)
  have hend : IsPart (ns "END") := isPart_of_all (by decide) (by decide)
  have hnofirst : IsPart (ns "NOFIRST") := isPart_of_all (by decide) (by decide)
  have htrue : IsPart (ns "TRUE") := isPart_of_all (by decide) (by decide)
  refine List.forall_mem_append.mpr ⟨List.forall_mem_cons.mpr
    ⟨⟨hbbs, isPart_bbs board⟩, hone hkey hdat⟩, ?_⟩
  refine List.forall_mem_append.mpr ⟨forall_mem_ite (hone hstart (isPart_unsignedFormat _)) nofun,
    ?_⟩
  refine List.forall_mem_append.mpr ⟨forall_mem_ite (hone hend (isPart_unsignedFormat _)) nofun, ?_⟩
  exact forall_mem_ite (hone hnofirst htrue) nofun

theorem queryText_threadParameters (board : BoardURL) (datName : NSString)
    (startIndex endIndex : UInt32)
    (nofirst : Bool) : queryText (threadParameters board datName startIndex endIndex nofirst) =
      ns "BBS" ++ (ns "=" ++ (board.bbs ++ (ns "&" ++ (ns "KEY" ++ (ns "=" ++ (datName ++
        CMRHostHandler.machibbs.indexString startIndex endIndex nofirst)))))) := by
  have hcons : ∀ param next params, queryText (param :: next :: params) =
      parameterText param ++ (ns "&" ++ queryText (next :: params)) := by
    intro param next params
    rw [queryText, List.map_cons, List.map_cons, List.intercalate_cons_cons, List.append_assoc]
    rfl
  have hone : ∀ param, queryText [param] = parameterText param :=
    fun param => List.intercalate_singleton
  have htext : ∀ key object, parameterText (key, object) = key ++ (ns "=" ++ object) :=
    fun _ _ => rfl
  rw [CMRHostHandler.indexString, threadParameters]
  split <;> split <;> cases nofirst <;>
    simp only [List.cons_append, List.nil_append, List.append_nil, if_true, if_false,
      Bool.false_eq_true, hcons, hone, htext, List.append_assoc, CMRHostHandler.readCGIProperties]

theorem isPart_of_mem_cgiPath : ∀ d ∈ cgiPath .machibbs board, IsPart d := by
  intro d hd
  obtain hd | hd := List.mem_append.mp hd
  · exact isPart_of_mem_above d hd
  · refine isPart_cgi d ?_
    obtain rfl | rfl : d = ns "bbs" ∨ d = ns "read.cgi" := by simpa using hd
    · decide
    · decide

theorem isPlain_queryLink (hdat : IsPart datName) :
    IsPlain (queryLink board datName startIndex endIndex nofirst) where
  scheme := board.scheme_isPart
  host := fun host hhost => Option.some.inj hhost ▸ board.host_isPart
  isSome := rfl
  path := isPart_of_mem_cgiPath
  query := by
    intro query hquery
    obtain rfl := Option.some.inj hquery
    refine (Split.forall_mem_intercalate fun c hc => .inr (.inl (List.mem_singleton.mp hc))).mpr ?_
    rw [List.forall_mem_map]
    intro param hparam c hc
    obtain ⟨hkey, hobject⟩ := isPart_threadParameters hdat param hparam
    obtain hc | hc := List.mem_append.mp hc
    · exact .inl (hkey.2 c hc)
    · obtain rfl | hc := List.mem_cons.mp hc
      · exact .inr (.inr rfl)
      · exact .inl (hobject.2 c hc)

theorem readURLWithBoard_machibbs_eq_some (hdat : IsPart datName) {link : NSURL}
    (h : CMRHostHandler.machibbs.readURLWithBoard board.url datName startIndex endIndex nofirst =
      some link) :
    link = queryLink board datName startIndex endIndex nofirst := by
  have hlink := URLWithString_absoluteString
    (@isPlain_queryLink board datName startIndex endIndex nofirst hdat)
  rw [CMRHostHandler.readURLWithBoard] at h
  simp only [CMRHostHandler.makeURLStringWithBoard, readURLOfBoard_url, lastPathComponent_url,
    Option.pure_def, Option.bind_eq_bind, Option.bind_some] at h
  simp only [queryLink, NSURL.absoluteString, queryText_threadParameters, List.append_assoc,
    List.append_nil, Option.elim_none, Option.elim_some, Option.getD_some,
    CMRHostHandler.readCGIProperties, Bool.false_eq_true, if_false, List.nil_append] at h hlink ⊢
  exact Option.some.inj (h.symm.trans hlink)

theorem indexOfParameter_iff :
    n = indexOfParameter (if n ≠ NSNotFound then some (unsignedFormat n) else none) ↔
      n ≤ NSNotFound := by
  by_cases hn : n = NSNotFound
  · subst hn
    exact iff_of_true rfl (UInt32.le_refl _)
  · rw [if_pos hn, indexOfParameter_decimal (decimal_unsignedFormat n), eq_comm, ofNat_min_eq_iff]

theorem parseQuery_threadParameters_iff {showFirst : Bool} :
    parseQuery CMRHostHandler.machibbs.readCGIProperties
      (threadParameters board datName startIndex endIndex nofirst) =
        some ⟨board.bbs, datName, startIndex, endIndex, showFirst⟩ ↔
      showFirst = false ∧ startIndex ≤ NSNotFound ∧ endIndex ≤ NSNotFound := by
  have hkeys : ∀ params, params = threadParameters board datName startIndex endIndex nofirst →
      objectForKey params (ns "BBS") = some board.bbs ∧
      objectForKey params (ns "KEY") = some datName ∧
      objectForKey params (ns "START") =
        (if startIndex ≠ NSNotFound then some (unsignedFormat startIndex) else none) ∧
      objectForKey params (ns "END") =
        (if endIndex ≠ NSNotFound then some (unsignedFormat endIndex) else none) ∧
      (objectForKey params (ns "NOFIRST")).getD (ns "TRUE") = ns "TRUE" := by
    rintro _ rfl
    rw [threadParameters]
    split <;> split <;> cases nofirst <;> exact ⟨rfl, rfl, rfl, rfl, rfl⟩
  obtain ⟨hbbs, hkey, hstart, hend, hnofirst⟩ := hkeys _ rfl
  rw [parseQuery_eq_some]
  simp only [CMRHostHandler.readCGIProperties, hbbs, hkey, hstart, hend, hnofirst, true_and,
    indexOfParameter_iff, ne_eq, not_true_eq_false, decide_false]
  exact ⟨fun h => ⟨h.2.2, h.1, h.2.1⟩, fun h => ⟨h.2.1, h.2.2, h.1⟩⟩

theorem parse_queryLink_iff (hcan : CMRHostHandler.machibbs.canHandleURL board.url = true)
    (hdat : IsPart datName)
    {showFirst : Bool} :
    CMRHostHandler.machibbs.parseParametersWithReadURL
      (queryLink board datName startIndex endIndex nofirst) =
        some ⟨board.bbs, datName, startIndex, endIndex, showFirst⟩ ↔
      (∃ rest, AtCGI CMRHostHandler.machibbs.readCGIProperties
        (threadPath .machibbs board datName) rest) ∧
        showFirst = false ∧ startIndex ≤ NSNotFound ∧ endIndex ≤ NSNotFound := by
  have hquery : (queryLink board datName startIndex endIndex nofirst).queryDictionary =
      some (threadParameters board datName startIndex endIndex nofirst) :=
    queryDictionary_queryText (List.cons_ne_nil _ _) (isPart_threadParameters hdat) rfl
  rw [parseParametersWithReadURL_eq_some]
  simp only [hquery, Option.elim_some, parseQuery_threadParameters_iff]
  constructor
  · rintro ⟨-, name, rest, hparts, hname, hindexes⟩
    exact ⟨⟨rest, name, hname, hparts⟩, hindexes⟩
  · rintro ⟨⟨rest, name, hname, hparts⟩, hindexes⟩
    exact ⟨hcan, name, rest, hparts, hname, hindexes⟩

-- Round trips

/-- Behind the CGI, the board and the DAT the last part of the path is the DAT. -/
theorem getLast?_rest {rest : List NSString}
    (h : AtCGI CMRHostHandler.channel2.readCGIProperties (threadPath .channel2 board datName)
      (board.bbs :: datName :: rest)) (hne : rest ≠ []) : rest.getLast? = some datName := by
  obtain ⟨name, -, hparts⟩ := h
  have hlast : (threadPath .channel2 board datName).getLast? = some datName := by
    rw [threadPath, List.getLast?_append_of_ne_nil _ (List.cons_ne_nil _ _)]
    rfl
  rw [show CMRHostHandler.channel2.readCGIProperties.directoryIndex = 1 from rfl,
    List.drop_succ_cons, List.drop_zero]
    at hparts
  obtain ⟨part, rest, rfl⟩ := List.exists_cons_of_ne_nil hne
  rw [hparts] at hlast
  simpa using hlast

theorem indexString_channel2_ne_nil (h : ¬ (startIndex = NSNotFound ∧ endIndex = NSNotFound)) :
    CMRHostHandler.channel2.indexString startIndex endIndex nofirst ≠ [] := by
  rw [CMRHostHandler.indexString]
  by_cases hstart : startIndex = NSNotFound
  · have hend : endIndex ≠ NSNotFound := fun hend => h ⟨hstart, hend⟩
    subst hstart
    rw [if_neg (not_not.mpr rfl), if_pos ⟨hend, hend⟩, if_pos rfl]
    exact List.cons_ne_nil _ _
  · rw [if_pos hstart]
    exact List.append_ne_nil_of_left_ne_nil (isPart_unsignedFormat startIndex).1 _

theorem indexString_livedoor_ne_nil :
    CMRHostHandler.livedoor.indexString startIndex endIndex nofirst ≠ [] := by
  rw [CMRHostHandler.indexString]
  refine List.append_ne_nil_of_right_ne_nil _ (List.append_ne_nil_of_left_ne_nil ?_ _)
  cases nofirst <;> exact List.cons_ne_nil _ _

theorem readsIndexes_channel2_iff {rest : List NSString}
    (h : AtCGI CMRHostHandler.channel2.readCGIProperties (threadPath .channel2 board datName)
      (board.bbs :: datName :: rest)) :
    ReadsIndexes
        (rest ++ if CMRHostHandler.channel2.indexString startIndex endIndex nofirst = [] then []
          else [CMRHostHandler.channel2.indexString startIndex endIndex nofirst])
            startIndex endIndex (!nofirst) ↔
      (nofirst = true ∧ startIndex < NSNotFound ∧ endIndex < NSNotFound) ∨
        (startIndex = NSNotFound ∧ endIndex = NSNotFound ∧
          if rest = [] then nofirst = false
          else nofirst = true ∧ scanIndexString datName = (NSNotFound, NSNotFound)) := by
  by_cases hnone : startIndex = NSNotFound ∧ endIndex = NSNotFound
  · obtain ⟨rfl, rfl⟩ := hnone
    have hempty : CMRHostHandler.channel2.indexString NSNotFound NSNotFound nofirst = [] := rfl
    rw [if_pos hempty, List.append_nil, or_iff_right fun hlt => absurd hlt.2.1 (by decide)]
    by_cases hrest : rest = []
    · simp [ReadsIndexes, hrest]
    · simp [ReadsIndexes, hrest, getLast?_rest h hrest, and_comm]
  · rw [if_neg (indexString_channel2_ne_nil hnone), readsIndexes_concat,
      scanIndexString_channel2_iff hnone,
      Bool.not_eq_false', and_comm, or_iff_left fun hboth => hnone ⟨hboth.1, hboth.2.1⟩]

/-- What is built is read as the same thread, indexes and first message if and only if the CGI
and the thread are at their places and the indexes have a form that is read. -/
theorem returns_iff (hcan : handler.canHandleURL board.url = true) (hdat : IsPart datName)
    {link : NSURL}
    (hlink : handler.readURLWithBoard board.url datName startIndex endIndex nofirst = some link) :
    handler.parseParametersWithReadURL link = some ⟨board.bbs, datName, startIndex,
      endIndex, !nofirst⟩ ↔
      Returnable handler board datName startIndex endIndex nofirst := by
  cases handler with
  | machibbs =>
    obtain rfl := readURLWithBoard_machibbs_eq_some hdat hlink
    rw [parse_queryLink_iff hcan hdat, Returnable, Bool.not_eq_false']
  | channel2 =>
    obtain rfl := readURLWithBoard_eq_some (by decide) hdat hlink
    rw [parse_pathLink_iff (by decide) hcan]
    exact exists_congr fun rest => and_congr_right readsIndexes_channel2_iff
  | channel2Other =>
    obtain rfl := readURLWithBoard_eq_some (by decide) hdat hlink
    rw [parse_pathLink_iff (by decide) hcan]
    exact exists_congr fun rest => and_congr_right readsIndexes_channel2_iff
  | livedoor =>
    obtain rfl := readURLWithBoard_eq_some (by decide) hdat hlink
    rw [parse_pathLink_iff (by decide) hcan]
    refine exists_congr fun rest => and_congr_right fun _ => ?_
    rw [if_neg indexString_livedoor_ne_nil, readsIndexes_concat, Bool.not_eq_false', and_comm]
    refine and_congr_right fun hnofirst => ?_
    rw [hnofirst]
    exact scanIndexString_livedoor_iff

def boardOf (host bbs : NSString) (hhost : IsPart host) (hbbs : IsPart bbs) : BoardURL where
  scheme := ns "http"
  host
  directories := [bbs]
  scheme_isPart := isPart_of_all (by decide) (by decide)
  host_isPart := hhost
  directories_isPart := fun d hd => List.mem_singleton.mp hd ▸ hbbs
  directories_ne_nil := List.cons_ne_nil bbs []

theorem returns_range :
    let board := boardOf (ns "pc.2ch.net") (ns "mac") (isPart_of_all (by decide) (by decide))
      (isPart_of_all (by decide) (by decide))
    CMRHostHandler.channel2.parseParametersWithReadURL (pathLink .channel2 board
      (ns "1200000000") (ns "10-20")) =
      some ⟨board.bbs, ns "1200000000", 10, 20, false⟩ := by
  intro board
  have hdat : IsPart (ns "1200000000") := isPart_of_all (by decide) (by decide)
  have hlink : CMRHostHandler.channel2.readURLWithBoard board.url (ns "1200000000") 10 20 true =
      some (pathLink .channel2 board (ns "1200000000") (ns "10-20")) := by decide
  refine (returns_iff (by decide) hdat hlink).mpr ?_
  exact ⟨[], ⟨ns "read.cgi", List.prefix_rfl, rfl⟩, .inl ⟨rfl, by decide, by decide⟩⟩

/-- The URL of a board of machibbs has `read.cgi` in it, where the parser looks for `read.pl`. -/
theorem not_returns_machibbs :
    let board := boardOf (ns "www.machi.to") (ns "tokyo") (isPart_of_all (by decide) (by decide))
      (isPart_of_all (by decide) (by decide))
    hostHandlerForURL board.url = some .machibbs ∧
      CMRHostHandler.machibbs.readURLWithBoard board.url (ns "1200000000") 10 20 true =
        some (queryLink board (ns "1200000000") 10 20 true) ∧
      CMRHostHandler.machibbs.parseParametersWithReadURL
        (queryLink board (ns "1200000000") 10 20 true) ≠
        some ⟨board.bbs, ns "1200000000", 10, 20, false⟩ := by
  refine ⟨by decide, by decide, by decide⟩

end

end BathyScaphe.Host
