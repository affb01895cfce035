import BathyScaphe.Dat.Reader
import BathyScaphe.Foundation.PropertyList
import BathyScaphe.Lib.Run

/-!
# Downloading a DAT

A thread is stored as a dictionary with its messages and the number of bytes of
the DAT they come from. A later download asks the server for the rest of the
DAT from its last known byte on: that byte has to be the end of a line, and the
rest is read and appended to the messages.

The converters of the system from bytes to characters are parameters.
-/

namespace BathyScaphe.Dat

open NSString

abbrev CFStringEncoding := UInt32

def kCFStringEncodingMacJapanese : CFStringEncoding := 0x0001
def kCFStringEncodingDOSJapanese : CFStringEncoding := 0x0420
def kCFStringEncodingShiftJIS : CFStringEncoding := 0x0A01

def TUS_FL_NOT_TEMP_MASK : UInt32 := 0xfffff
def TUS_VERSION_1_0_MAGIC : UInt32 := 0x800000
def TUS_VERSION_MASK : UInt32 := 0x3800000
def TUS_ASCII_ART_FLAG : UInt32 := 0x40

structure ThreadTextDownloader where
  services : TextServices
  /-- `CFStringCreateWithBytes` -/
  createWithBytes : CFStringEncoding → List UInt8 → Option NSString
  initWithDataUsingTEC : CFStringEncoding → List UInt8 → Option NSString
  /-- The encoding of the host of the board. -/
  encodingForLoadedData : CFStringEncoding
  boardName : Option NSString
  identifier : Option NSString
  /-- The setting of the board that all its threads are ASCII art. -/
  allThreadsShouldAAThread : Bool

namespace ThreadTextDownloader

-- From bytes to characters

def shiftJISFamily : List CFStringEncoding :=
  [kCFStringEncodingDOSJapanese, kCFStringEncodingMacJapanese, kCFStringEncodingShiftJIS]

/-- One encoding of the family stands for all of them; the given one comes
first, in exchange with the first. -/
def triedEncodings (enc : CFStringEncoding) : List CFStringEncoding :=
  match shiftJISFamily.findIdx? (· = enc) with
  | some i => (shiftJISFamily.set i kCFStringEncodingDOSJapanese).set 0 enc
  | none => [enc]

variable (downloader : ThreadTextDownloader)

def stringWithData (data : List UInt8) : Option NSString :=
  let enc := downloader.encodingForLoadedData
  ((triedEncodings enc).findSome? fun e => downloader.createWithBytes e data).or
    (downloader.initWithDataUsingTEC enc data)

def contentsWithData (data : List UInt8) : Option NSString :=
  if data.length = 0 then none
  else (downloader.stringWithData data).or
    (downloader.initWithDataUsingTEC downloader.encodingForLoadedData data)

-- The property list of a thread

/-- What `CMRThreadPlistComposer` adds for a message. The index is not written:
it is the place of the entry. -/
def plistEntry (isAAThread : Bool) (m : CMRThreadMessage) : PropertyList :=
  let attributes := if isAAThread then m.setFlag ASCII_ART_FLAG true else m
  PropertyList.dict []
    |>.setNoneNil (m.name.map .string) "Name"
    |>.setNoneNil (m.mail.map .string) "Mail"
    |>.setNoneNil (m.date.map CMRThreadMessage.dateObject) "Date"
    |>.setNoneNil (m.dateRepresentation.map .string) "DateRepresentation"
    |>.setNoneNil (m.IDString.map .string) "ID"
    |>.setNoneNil (m.beProfile.map fun be => .array (be.map .string)) "BeProfileLink"
    |>.setNoneNil (m.host.map .string) "Host"
    |>.setNoneNil (m.messageSource.map .string) "Message"
    |>.setNoneNil (some attributes.attributesRepresentation) "Status"

/-- `objectWithPropertyListRepresentation:` of the user's status of a thread. -/
def userStatusWithRepresentation (rep : Option PropertyList) : Option UInt32 :=
  match rep with
  | some (.number n) =>
    let flags := PropertyList.unsignedIntValue n
    if flags &&& TUS_VERSION_MASK = TUS_VERSION_1_0_MAGIC then
      some (flags &&& TUS_FL_NOT_TEMP_MASK)
    else none
  | _ => none

/-- `amIAAThread`: a thread that is not stored yet is what its board says. -/
def isAAThread (localThread : Option PropertyList) : Bool :=
  match localThread with
  | none => downloader.boardName.isSome && downloader.allThreadsShouldAAThread
  | some thread =>
    match userStatusWithRepresentation (thread.objectForKey "Status") with
    | some flags => 0 < flags &&& TUS_ASCII_ART_FLAG
    | none => false

def partialContentsRequested (localThread : Option PropertyList) : Bool :=
  (localThread.bind fun thread => thread.objectForKey "Length").isSome

def storedMessages (thread : PropertyList) : List PropertyList :=
  (thread.arrayForKey "Contents").getD []

def setEntries (thread : PropertyList) (dataLength : UInt32) (modified : Option Int)
    (messages : List PropertyList) : PropertyList :=
  thread
    |>.setObject (.ofUnsignedInt dataLength) "Length"
    |>.setNoneNil (modified.map .date) "ModifiedDate"
    |>.setNoneNil (some (.array messages)) "Contents"
    |>.setNoneNil (downloader.boardName.map .string) "BoardName"
    |>.setNoneNil (downloader.identifier.map .string) "dat"

/-- The dictionary to write, and the messages that were composed for it. -/
def dictionaryByAppendingContents (localThread : Option PropertyList) (lastDate : Option Int)
    (datContents : Option NSString) (length : UInt32) :
    Option PropertyList × List CMRThreadMessage :=
  match datContents with
  | none => (localThread, [])
  | some datContents =>
    if datContents.length = 0 then (localThread, [])
    else
      let shouldAA := downloader.isAAThread localThread
      let reader := CMR2chDATReader.initWithContents datContents
      let isPartial := partialContentsRequested localThread
      let newThread :=
        if isPartial then localThread.getD (.dict [])
        else PropertyList.dict []
          |>.setNoneNil ((reader.threadTitle downloader.services).map .string) "Title"
          |>.setNoneNil ((reader.firstMessageDate downloader.services).map .date) "CreatedDate"
      let messages := if isPartial then storedMessages newThread else []
      let dataLength :=
        if isPartial then
          -- one byte more was received, to check that nothing was removed
          let sum := length + newThread.unsignedIntForKey "Length"
          if 0 < sum then sum - 1 else sum
        else length
      let composed :=
        (reader.setNextMessageIndex (UInt32.ofNat messages.length)).composeWithComposer
        downloader.services
      let modified := lastDate.or (reader.lastMessageDate downloader.services)
      let messages := messages ++ composed.map (plistEntry shouldAA)
      (some (downloader.setEntries newThread dataLength modified messages), composed)

-- Requests and answers

/-- The first byte that is asked for, an `int`; without a stored length the
whole file is. -/
def requestedRange (localThread : Option PropertyList) : Option Int :=
  (localThread.bind fun thread => thread.numberForKey "Length").map fun length =>
    length.bmod (2 ^ 32) - 1

/-- The answer of the server; it ignores a range that it cannot read. -/
def resourceData (dat : List UInt8) (range : Option Int) : List UInt8 :=
  match range with
  | none => dat
  | some first => if first < 0 then dat else dat.drop first.toNat

/-- The stored thread, together with the messages that were composed for it and
the DAT of the server at the last download. -/
structure ThreadLog where
  file : Option PropertyList
  composed : List CMRThreadMessage
  dat : List UInt8

structure Download where
  /-- What the server has. -/
  dat : List UInt8
  lastModified : Option Int
  /-- The global lock has the thread: a viewer works on it. -/
  inProgress : Bool

def dataProcess (localThread : Option PropertyList) (lastDate : Option Int) (data : List UInt8) :
    Option (Option PropertyList × List CMRThreadMessage) :=
  if data.length = 0 then none
  else if partialContentsRequested localThread ∧ data.head? ≠ some 0x0A then none
  else some (downloader.dictionaryByAppendingContents localThread lastDate
    (downloader.contentsWithData data) (UInt32.ofNat data.length))

/-- One download. While a viewer works on the thread, nothing is stored. -/
def load (log : ThreadLog) (download : Download) : ThreadLog :=
  if download.inProgress then log
  else
    let data := resourceData download.dat (requestedRange log.file)
    match downloader.dataProcess log.file download.lastModified data with
    | none => { log with dat := download.dat }
    | some (thread, composed) =>
      -- a dictionary that is `nil` is not written
      { file := thread.or log.file, composed := log.composed ++ composed, dat := download.dat }

def initialLog : ThreadLog := ⟨none, [], []⟩

def step (log : ThreadLog) (download : Download) : Option ThreadLog :=
  some (downloader.load log download)

end ThreadTextDownloader

end BathyScaphe.Dat
