import BathyScaphe.Foundation.NSString
import BathyScaphe.Lib.Run
import BathyScaphe.Lib.Table

/-!
# The image previewer

The previewer has one token for each URL, and a token that is being downloaded has the download;
the download has its token as a delegate that it does not retain. A token that fails is taken out
of the list unless the user keeps such tokens, and this is done inside of the message that tells
of the failure.

What is on the disk is the files of the tokens and of the open downloads. `NSURLDownload` deletes
the file of a download that fails or is cancelled and sends nothing after that; it never
overwrites a file.
-/

namespace BathyScaphe.Previewer

-- Tokens and downloads

inductive StatusMessage where
  | startDownloading
  | downloading
  /-- Of the bytes that have come and of all. -/
  | sizes (downloaded content : Nat)
  | downloadCanceled
  | redirectionAborted
  | error (localizedDescription : NSString)
  | cantGetImageRep
  | pixels (x y : Nat)
  deriving DecidableEq

structure BSIPIToken where
  sourceURL : NSString
  currentDownload : Option Nat
  downloadedFilePath : Option Nat
  statusMessage : StatusMessage
  contentSize : Nat
  downloadedSize : Nat
  shouldIndeterminate : Bool
  deriving DecidableEq

structure BSURLDownload where
  delegate : Nat
  /-- `NSURLResponseUnknownLength` is `none`. -/
  exLength : Option Nat
  dlLength : Nat
  downloadedFilePath : Option Nat
  deriving DecidableEq

namespace BSIPIToken

def isDownloading (token : BSIPIToken) : Bool := token.currentDownload.isSome

/-- The token after `initWithURL:destination:`, whose download is `download`. -/
def initWithURL (anURL : NSString) (download : Nat) : BSIPIToken where
  sourceURL := anURL
  currentDownload := some download
  downloadedFilePath := none
  statusMessage := .startDownloading
  contentSize := 0
  downloadedSize := 0
  shouldIndeterminate := true

def restarted (token : BSIPIToken) (download : Nat) : BSIPIToken :=
  { token with
    currentDownload := some download, statusMessage := .startDownloading, contentSize :=
      0, downloadedSize := 0,
    shouldIndeterminate := true }

/-- The token without a download, for the reason that its status tells. -/
def stopped (token : BSIPIToken) (status : StatusMessage) : BSIPIToken :=
  { token with currentDownload := none, statusMessage := status }

def willDownloadContentOfSize (token : BSIPIToken) (expectedLength : Nat) : BSIPIToken :=
  { token with
    statusMessage := .downloading, shouldIndeterminate := false, contentSize := expectedLength }

def didDownloadContentOfSize (token : BSIPIToken) (downloadedLength : Nat) : BSIPIToken :=
  { token with
    downloadedSize := downloadedLength, statusMessage := .sizes downloadedLength token.contentSize }

/-- The token with its file; an image is found in a file only. -/
def finished (token : BSIPIToken) (path : Option Nat) (imageRep : Option (Nat × Nat)) :
    BSIPIToken :=
  { token with
    downloadedFilePath := path, currentDownload := none,
    statusMessage := ((path.bind fun _ => imageRep).map fun size =>
      .pixels size.1 size.2).getD .cantGetImageRep }

end BSIPIToken

-- The previewer

structure BSIPIHistoryManager where
  leaveFailedToken : Bool
  tokensArray : Table Nat BSIPIToken
  /-- The connections that are open. -/
  downloads : Table Nat BSURLDownload
  files : List Nat
  /-- Greater than every number that is in use. -/
  next : Nat

namespace BSIPIHistoryManager

def cachedTokenIndexForURL (s : BSIPIHistoryManager) (anURL : NSString) : Option Nat :=
  s.tokensArray.rows.findIdx? fun row => row.2.sourceURL == anURL

def setToken (s : BSIPIHistoryManager) (id : Nat) (f : BSIPIToken → BSIPIToken) :
    BSIPIHistoryManager :=
  { s with tokensArray := s.tokensArray.update (fun k _ => k == id) f }

def setDownload (s : BSIPIHistoryManager) (dl : Nat) (f : BSURLDownload → BSURLDownload) :
    BSIPIHistoryManager :=
  { s with downloads := s.downloads.update (fun k _ => k == dl) f }

/-- The connection is closed and its file, if there is one, stays. -/
def close (s : BSIPIHistoryManager) (dl : Nat) : BSIPIHistoryManager :=
  { s with downloads := s.downloads.delete fun k _ => k == dl }

def removeFileAtPath (s : BSIPIHistoryManager) (path : Option Nat) : BSIPIHistoryManager :=
  { s with files := s.files.filter fun file => some file != path }

def discard (s : BSIPIHistoryManager) (dl : Nat) : BSIPIHistoryManager :=
  (s.removeFileAtPath ((s.downloads.find dl).bind (·.downloadedFilePath))).close dl

/-- The end of `removeObjectFromTokensArrayAtIndex:` for the token `id`. -/
def removeToken (s : BSIPIHistoryManager) (id : Nat) : BSIPIHistoryManager :=
  let s := s.removeFileAtPath ((s.tokensArray.find id).bind (·.downloadedFilePath))
  { s with tokensArray := s.tokensArray.delete fun k _ => k == id }

/-- `tokenDidFailDownload:`, which is sent by a token that is not downloading. -/
def tokenDidFailDownload (s : BSIPIHistoryManager) (id : Nat) : BSIPIHistoryManager :=
  if s.leaveFailedToken then s else s.removeToken id

def cancelDownload (s : BSIPIHistoryManager) (id : Nat) : BSIPIHistoryManager :=
  match (s.tokensArray.find id).bind (·.currentDownload) with
  | none => s
  | some dl => ((s.discard dl).setToken id (·.stopped .downloadCanceled)).tokenDidFailDownload id

/-- The token is cancelled, which may take it out of the list, and then what is at its index is
taken out; `none` where the index is behind the end by then. -/
def removeObjectFromTokensArrayAtIndex (s : BSIPIHistoryManager) (index : Nat) :
    Option BSIPIHistoryManager :=
  match s.tokensArray.rows[index]? with
  | none => none
  | some (id, token) =>
    let s := if token.isDownloading then s.cancelDownload id else s
    let s := s.removeFileAtPath token.downloadedFilePath
    match s.tokensArray.rows[index]? with
    | none => none
    | some (found, _) => some { s with tokensArray := s.tokensArray.delete fun k _ => k == found }

/-- The array controller removes an object that is in the list at its index. -/
def removeObject (s : BSIPIHistoryManager) (id : Nat) : Option BSIPIHistoryManager :=
  match s.tokensArray.rows.findIdx? fun row => row.1 == id with
  | none => some s
  | some index => s.removeObjectFromTokensArrayAtIndex index

def removeObjects (s : BSIPIHistoryManager) : List Nat → Option BSIPIHistoryManager
  | [] => some s
  | id :: ids => (s.removeObject id).bind (·.removeObjects ids)

def showImageWithURL (s : BSIPIHistoryManager) (imageURL : NSString) : BSIPIHistoryManager :=
  match s.cachedTokenIndexForURL imageURL with
  | some _ => s
  | none =>
    match s.tokensArray.insert s.next (.initWithURL imageURL (s.next + 1)),
      s.downloads.insert (s.next + 1) ⟨s.next, none, 0, none⟩ with
    | some tokens, some downloads =>
        { s with tokensArray := tokens, downloads := downloads, next := s.next + 2 }
    | _, _ => s

def showImagesWithURLs (s : BSIPIHistoryManager) (urls : List NSString) : BSIPIHistoryManager :=
  urls.foldl showImageWithURL s

def retryDownload (s : BSIPIHistoryManager) (id : Nat) : BSIPIHistoryManager :=
  match s.tokensArray.find id with
  | none => s
  | some token =>
    if token.isDownloading then s
    else
      match s.downloads.insert s.next ⟨id, none, 0, none⟩ with
      | none => s
      | some downloads => { s.setToken id (·.restarted s.next) with
          downloads := downloads, next := s.next + 1 }

/-- The tokens at the indexes of a selection; `none` where an index is behind the end. -/
def cachedTokensArrayAtIndexes (s : BSIPIHistoryManager) (indexes : List Nat) : Option (List Nat) :=
  indexes.mapM fun index => (s.tokensArray.rows[index]?).map Prod.fst

-- What happens

inductive Message where
  | didReceiveResponse (expectedContentLength : Option Nat)
  | willSendRequest (newURL : NSString)
  | didCreateDestination
  | didReceiveDataOfLength (len : Nat)
  /-- With the size of the image that is in the file, if there is one. -/
  | downloadDidFinish (imageRep : Option (Nat × Nat))
  | didFailWithError (localizedDescription : NSString)

inductive Event where
  | showImagesWithURLs (urls : List NSString)
  | cancelDownload (indexes : List Nat)
  | retryDownload (indexes : List Nat)
  /-- The array controller removes objects, one after the other. -/
  | remove (indexes : List Nat)
  | setLeaveFailedToken (leave : Bool)
  | download (dl : Nat) (message : Message)

/-- What a download that has the token `id` as its delegate does with a message.
`isImage` is whether the extension of a URL is that of an image. -/
def deliver (isImage : NSString → Bool) (s : BSIPIHistoryManager) (dl : Nat)
    (download : BSURLDownload) : Message → BSIPIHistoryManager
  | .didReceiveResponse expectedContentLength =>
    let s := s.setDownload dl fun download =>
      { download with exLength := expectedContentLength, dlLength := 0 }
    match expectedContentLength with
    | none => s
    | some expected => s.setToken download.delegate (·.willDownloadContentOfSize expected)
  | .willSendRequest newURL =>
    if isImage newURL then s
    else ((s.discard dl).setToken download.delegate
      (·.stopped .redirectionAborted)).tokenDidFailDownload download.delegate
  | .didCreateDestination =>
    { s.setDownload dl ({ · with downloadedFilePath := some s.next }) with
      files := s.files ++ [s.next], next := s.next + 1 }
  | .didReceiveDataOfLength len =>
    let s := s.setDownload dl fun download => { download with dlLength := download.dlLength + len }
    match download.exLength with
    | none => s
    | some _ => s.setToken download.delegate (·.didDownloadContentOfSize (download.dlLength + len))
  | .downloadDidFinish imageRep =>
    let s :=
      (s.close dl).setToken download.delegate (·.finished download.downloadedFilePath imageRep)
    if (download.downloadedFilePath.bind fun _ => imageRep) = none
      then s.tokenDidFailDownload download.delegate else s
  | .didFailWithError localizedDescription =>
    ((s.discard dl).setToken download.delegate
      (·.stopped (.error localizedDescription))).tokenDidFailDownload
      download.delegate

def canReceive (download : BSURLDownload) : Message → Bool
  | .didCreateDestination => download.downloadedFilePath.isNone
  | _ => true

/-- `none` where the event cannot come, where an index is not that of a token, and where a
message goes to a token that has been released. -/
def step (isImage : NSString → Bool) (s : BSIPIHistoryManager) : Event → Option BSIPIHistoryManager
  | .showImagesWithURLs urls => some (s.showImagesWithURLs urls)
  | .cancelDownload indexes => (s.cachedTokensArrayAtIndexes indexes).map (·.foldl cancelDownload s)
  | .retryDownload indexes => (s.cachedTokensArrayAtIndexes indexes).map (·.foldl retryDownload s)
  | .remove indexes => (s.cachedTokensArrayAtIndexes indexes).bind s.removeObjects
  | .setLeaveFailedToken leave => some { s with leaveFailedToken := leave }
  | .download dl message =>
    match s.downloads.find dl with
    | none => none
    | some download =>
      if canReceive download message ∧ (s.tokensArray.find download.delegate).isSome then
        some (s.deliver isImage dl download message)
      else none

end BSIPIHistoryManager

end BathyScaphe.Previewer
