import BathyScaphe.Host.LivedoorHandler
import BathyScaphe.Thread.LinkProcessor

/-!
# Read URLs

The URL of a thread names the board, the DAT and some of the messages, in its path or in
its query. Each handler of a host has its own names for the parts; they come from
`HostProperties.plist`. Numbers are read as `int`s, and `NSNotFound` stands for a number
that is not given.
-/

namespace BathyScaphe.Host

open NSString Dat Thread CMRThreadLinkProcessor

-- URLs

/-- A URL with its path in parts; `directory` when there is a slash behind the path. -/
structure NSURL where
  scheme : NSString
  host : Option NSString
  path : List NSString
  directory : Bool
  query : Option NSString
  deriving DecidableEq

/-- `[[link path] pathComponents]`. The path has no slash at its end. -/
def NSURL.pathComponents (link : NSURL) : List NSString := ns "/" :: link.path

/-- The pairs of `queryDictionary` in the order in which they are set. -/
def NSURL.queryDictionary (link : NSURL) : Option (List (NSString × NSString)) :=
  link.query.map fun query =>
    if query.length ≤ 1 then []
    else (query.componentsSeparatedByString (ns "&")).filterMap fun pstr =>
      if pstr.length < 2 then none
      else
        match pstr.componentsSeparatedByString (ns "=") with
        | [key, object] => some (key, object)
        | _ => none

def objectForKey (params : List (NSString × NSString)) (key : NSString) : Option NSString :=
  params.reverse.lookup key

-- Hosts

def strstr (host pattern : NSString) : Option NSString :=
  (host.tails.find? fun t => pattern.isPrefixOf t).map (·.drop pattern.length)

/-- A number of an address, with a period behind it, whose bits of the mask are 128. -/
def isInNetwork (mask : UInt32) (p : NSString) : Bool :=
  match scanInt (fun _ => false) p with
  | some (l, ep) => ep.head? = some (uc '.') && unsignedOfInt l &&& mask = 128
  | none => false

def can_readcgi (host : NSString) : Bool :=
  if host.containsString (ns ".2ch.net") then
    !host.containsString (ns "tako") && !host.containsString (ns "piza.")
  else if host.containsString (ns ".bbspink.com") then !host.containsString (ns "www.")
  else
    ((strstr host (ns "64.71.")).any (isInNetwork 0xc0)) ||
      ((strstr host (ns "216.218.")).any (isInNetwork 0x80)) ||
      host.containsString (ns ".he.net")

def is_2channel (host : NSString) : Bool := can_readcgi host

def is_jbbs_shita (host : NSString) : Bool :=
  host.containsString (ns "jbbs.shitaraba.com") || host.containsString (ns "jbbs.livedoor.jp") ||
    host.containsString (ns "jbbs.livedoor.com")

def is_machi (host : NSString) : Bool :=
  host.containsString (ns ".machi.to") || host.containsString (ns ".machibbs.com")

inductive CMRHostHandler where
  | channel2
  | livedoor
  | machibbs
  | channel2Other
  deriving DecidableEq

def CMRHostHandler.canHandleURL (handler : CMRHostHandler) (anURL : NSURL) : Bool :=
  match anURL.host with
  | none => false
  | some host =>
    match handler with
    | .channel2 => is_2channel host
    | .livedoor => is_jbbs_shita host
    | .machibbs => is_machi host
    | .channel2Other => true

def registeredHostHandlers : List CMRHostHandler :=
  [.channel2, .livedoor, .machibbs, .channel2Other]

def hostHandlerForURL (anURL : NSURL) : Option CMRHostHandler :=
  registeredHostHandlers.find? fun handler => handler.canHandleURL anURL

structure ReadCGIProperties where
  relativePath : NSString
  directoryIndex : Nat
  name : NSString
  directory : NSString
  paramBBS : NSString
  paramID : NSString
  paramStart : NSString
  paramEnd : NSString
  paramNoFirst : NSString
  paramTrue : NSString

def CMRHostHandler.readCGIProperties : CMRHostHandler → ReadCGIProperties
  | .channel2 | .channel2Other =>
    ⟨ns "../test/read.cgi", 1, ns "read.cgi", ns "test", ns "bbs", ns "key", ns "st",
      ns "to", ns "nofirst", ns "true"⟩
  | .livedoor =>
    ⟨ns "../../bbs/read.cgi", 2, ns "read.cgi", ns "bbs", ns "BBS", ns "KEY", ns "START",
      ns "END", ns "NOFIRST",
      ns "TRUE"⟩
  | .machibbs =>
    ⟨ns "../bbs/read.cgi", 1, ns "read.pl", ns "bbs", ns "BBS", ns "KEY", ns "START",
      ns "END", ns "NOFIRST",
      ns "TRUE"⟩

-- Parsing

structure ReadParameters where
  bbs : NSString
  key : NSString
  startIndex : UInt32
  endIndex : UInt32
  showFirst : Bool
  deriving DecidableEq

/-- The zeros of the scripts that have digits; the other digits follow them. -/
def decimalZeros : List UniChar :=
  [0x0030, 0x0660, 0x06F0, 0x07C0, 0x0966, 0x09E6, 0x0A66, 0x0AE6, 0x0B66, 0x0BE6,
    0x0C66, 0x0CE6, 0x0D66, 0x0E50,
    0x0ED0, 0x0F20, 0x1040, 0x17E0, 0x1810, 0x1946, 0x19D0, 0x1B50, 0xFF10]

def decimalDigitCharacterSet (c : UniChar) : Bool := decimalZeros.any fun zero =>
    zero ≤ c && c - zero < 10

/-- The indexes at the end of a path. One number is the start and the end. -/
def scanIndexString (mesIndexStr : NSString) : UInt32 × UInt32 :=
  match scanInt isWhitespace (mesIndexStr.dropWhile fun c => !decimalDigitCharacterSet c) with
  | none => (NSNotFound, NSNotFound)
  | some (index, rest) =>
    let last := (scanString (ns "-") rest).bind (scanInt isWhitespace)
    (unsignedOfInt index, unsignedOfInt ((last.map Prod.fst).getD index))

def indexOfParameter (object : Option NSString) : UInt32 :=
  (object.map fun s => unsignedOfInt (intValue s)).getD NSNotFound

def parseQuery (properties : ReadCGIProperties) (params : List (NSString × NSString)) :
    Option ReadParameters := do
  let bbs ← objectForKey params properties.paramBBS
  let key ← objectForKey params properties.paramID
  let nofirst := (objectForKey params properties.paramNoFirst).getD properties.paramTrue
  return {
    bbs, key
    startIndex := indexOfParameter (objectForKey params properties.paramStart)
    endIndex := indexOfParameter (objectForKey params properties.paramEnd)
    showFirst := nofirst ≠ properties.paramTrue }

def parsePath : List NSString → Option ReadParameters
  | [bbs, key] => some ⟨bbs, key, NSNotFound, NSNotFound, true⟩
  | bbs :: key :: index :: rest =>
    let indexes := scanIndexString ((index :: rest).getLast (List.cons_ne_nil index rest))
    some ⟨bbs, key, indexes.1, indexes.2, false⟩
  | _ => none

def CMRHostHandler.parseParametersWithReadURL (handler : CMRHostHandler) (link : NSURL) :
    Option ReadParameters :=
  let properties := handler.readCGIProperties
  if !handler.canHandleURL link then none
  else
    match link.pathComponents.drop properties.directoryIndex with
    | directory :: name :: rest =>
      if directory = properties.directory ∧ properties.name <+: name then
        match link.queryDictionary with
        | some params => parseQuery properties params
        | none => parsePath rest
      else none
    | _ => none

variable {handler : CMRHostHandler} {link : NSURL} {p : ReadParameters}
  {properties : ReadCGIProperties}
variable {params : List (NSString × NSString)}

theorem parseQuery_eq_some : parseQuery properties params = some p ↔
    objectForKey params properties.paramBBS = some p.bbs ∧ objectForKey params properties.paramID =
      some p.key ∧
      p.startIndex = indexOfParameter (objectForKey params properties.paramStart) ∧
      p.endIndex = indexOfParameter (objectForKey params properties.paramEnd) ∧
      p.showFirst =
        ((objectForKey params properties.paramNoFirst).getD properties.paramTrue ≠
          properties.paramTrue : Bool) := by
  rw [parseQuery]
  cases hbbs : objectForKey params properties.paramBBS with
  | none => exact iff_of_false nofun fun h => nomatch h.1
  | some bbs =>
    cases hkey : objectForKey params properties.paramID with
    | none => exact iff_of_false nofun fun h => nomatch h.2.1
    | some key =>
      obtain ⟨pbbs, pkey, startIndex, endIndex, showFirst⟩ := p
      simp only [Option.bind_eq_bind, Option.bind_some, Option.pure_def, Option.some.injEq,
        ReadParameters.mk.injEq, eq_comm]

theorem parseParametersWithReadURL_eq_some : handler.parseParametersWithReadURL link = some p ↔
    handler.canHandleURL link = true ∧ ∃ name rest,
      link.pathComponents.drop handler.readCGIProperties.directoryIndex =
        handler.readCGIProperties.directory :: name :: rest ∧
      handler.readCGIProperties.name <+: name ∧
      (link.queryDictionary.elim (parsePath rest) (parseQuery handler.readCGIProperties)) =
        some p := by
  rw [CMRHostHandler.parseParametersWithReadURL]
  constructor
  · intro h
    split at h
    · cases h
    · rename_i hcan
      split at h
      · rename_i directory name rest hcomponents
        split at h
        · rename_i hcgi
          obtain ⟨rfl, hname⟩ := hcgi
          refine ⟨by simpa using hcan, name, rest, hcomponents, hname, ?_⟩
          split at h <;> rename_i hquery <;> rw [hquery] <;> exact h
        · cases h
      · cases h
  · rintro ⟨hcan, name, rest, hcomponents, hname, hrest⟩
    rw [hcan, hcomponents]
    cases hquery : link.queryDictionary <;> rw [hquery] at hrest <;> simpa [hname] using hrest

end BathyScaphe.Host
