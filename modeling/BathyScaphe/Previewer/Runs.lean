import BathyScaphe.Previewer.Consistency
import Mathlib.Data.List.InsertIdx

/-!
# What happens to the previewer

The tokens, the downloads and the files agree after all that happens, as long as no token is
removed while it is being downloaded and the tokens that fail are taken out: what is at the index
of such a token is taken out twice, and with the token the one behind it.
-/

namespace BathyScaphe.Previewer.BSIPIHistoryManager

variable {s s' : BSIPIHistoryManager} {id dl i k f : Nat} {t u : BSIPIToken} {d : BSURLDownload}

-- Cancelling and removing

theorem find_stopped (ht : s.tokensArray.find id = some t) (status : StatusMessage) :
    ((s.discard dl).setToken id (·.stopped status)).tokensArray.find id = some (t.stopped status) :=
  (setToken_at (s := s.discard dl) ht _ id).trans (if_pos rfl)

theorem Pair.fail (h : Pair s id dl t d) (status : StatusMessage)
    (hstatus : status.isProgress = false) :
    Keeps s (((s.discard dl).setToken id (·.stopped status)).tokenDidFailDownload id) :=
  (h.stop status hstatus).trans (keeps_tokenDidFailDownload (find_stopped h.token status) rfl)

theorem Consistent.pair (hs : Consistent s) (ht : s.tokensArray.find id = some t)
    (hdl : t.currentDownload = some dl) :
    ∃ d, Pair s id dl t d := by
  obtain ⟨d, hd, hdelegate⟩ := hs.current id t dl ht hdl
  exact ⟨d, ht, hd, hdl, hdelegate⟩

theorem cancelDownload_of_idle (ht : s.tokensArray.find id = some t)
    (hidle : t.currentDownload = none) :
    s.cancelDownload id = s := by
  rw [cancelDownload, ht, Option.bind_some, hidle]

theorem cancelDownload_of_downloading (ht : s.tokensArray.find id = some t)
    (hdl : t.currentDownload = some dl) : s.cancelDownload id =
      ((s.discard dl).setToken id (·.stopped .downloadCanceled)).tokenDidFailDownload id := by
  rw [cancelDownload, ht, Option.bind_some, hdl]

theorem keeps_cancelDownload (s : BSIPIHistoryManager) (id : Nat) :
    Keeps s (s.cancelDownload id) := by
  intro hs
  cases ht : s.tokensArray.find id with
  | none =>
    rw [cancelDownload, ht]
    exact ⟨hs, fun h => h⟩
  | some t =>
    cases hdl : t.currentDownload with
    | none =>
      rw [cancelDownload_of_idle ht hdl]
      exact ⟨hs, fun h => h⟩
    | some dl =>
      obtain ⟨d, hpair⟩ := hs.pair ht hdl
      rw [cancelDownload_of_downloading ht hdl]
      exact hpair.fail .downloadCanceled rfl hs

theorem find_of_getElem? {ρ : Type} {table : Table Nat ρ} {index : Nat} {r : ρ}
    (h : table.rows[index]? = some (k, r)) :
    table.find k = some r :=
  Table.find_eq_some.mpr (List.mem_of_getElem? h)

theorem getElem?_setToken (s : BSIPIHistoryManager) (id : Nat) (g : BSIPIToken → BSIPIToken)
    (index : Nat) :
    (s.setToken id g).tokensArray.rows[index]? =
      (s.tokensArray.rows[index]?).map fun row => (row.1, if row.1 == id then g row.2 else row.2) :=
  List.getElem?_map

theorem stopped_row {index : Nat} (hrow : s.tokensArray.rows[index]? = some (id, t))
    (dl : Nat) (status : StatusMessage) :
    ((s.discard dl).setToken id (·.stopped status)).tokensArray.rows[index]? =
      some (id, t.stopped status) := by
  refine (getElem?_setToken (s.discard dl) id _ index).trans ?_
  rw [show (s.discard dl).tokensArray.rows[index]? = some (id, t) from hrow, Option.map_some,
    beq_self_eq_true, if_pos rfl]

theorem cancelDownload_of_leave (hleave : s.leaveFailedToken = true)
    (ht : s.tokensArray.find id = some t) (hdl : t.currentDownload = some dl) :
    s.cancelDownload id = (s.discard dl).setToken id (·.stopped .downloadCanceled) := by
  rw [cancelDownload_of_downloading ht hdl, tokenDidFailDownload]
  exact if_pos hleave

theorem exists_index (ht : s.tokensArray.find id = some t) : ∃ index,
    (s.tokensArray.rows.findIdx? fun row => row.1 == id) = some index ∧
    s.tokensArray.rows[index]? = some (id, t) := by
  cases hindex : s.tokensArray.rows.findIdx? fun row => row.1 == id with
  | none =>
    have hnot := List.findIdx?_eq_none_iff.mp hindex (id, t) (Table.find_eq_some.mp ht)
    rw [beq_self_eq_true] at hnot
    cases hnot
  | some index =>
    obtain ⟨hlt, hid, -⟩ := List.findIdx?_eq_some_iff_getElem.mp hindex
    have hkey : s.tokensArray.rows[index].1 = id := of_decide_eq_true hid
    have hget := List.getElem?_eq_getElem hlt
    have hfind := find_of_getElem?
        (hget.trans (congrArg some (Prod.ext hkey rfl : s.tokensArray.rows[index] = (id, _))))
    rw [ht] at hfind
    exact ⟨index, rfl, hget.trans (congrArg some (Prod.ext hkey (Option.some.inj hfind).symm))⟩

/-- A token that is not being downloaded is taken out, and nothing else. -/
theorem removeObject_of_idle (ht : s.tokensArray.find id = some t)
    (hidle : t.isDownloading = false) :
    s.removeObject id = some (s.removeToken id) := by
  obtain ⟨index, hindex, hrow⟩ := exists_index ht
  have hsame : (s.removeFileAtPath t.downloadedFilePath).tokensArray.rows[index]? = some (id, t) :=
    hrow
  rw [removeObject, hindex]
  dsimp only
  rw [removeObjectFromTokensArrayAtIndex, hrow]
  dsimp only
  rw [hidle, if_neg Bool.false_ne_true, hsame, removeToken, ht, Option.bind_some]

/-- Where failed tokens are kept, one that is being downloaded is cancelled and taken out. -/
theorem removeObject_of_leave (hleave : s.leaveFailedToken = true)
    (ht : s.tokensArray.find id = some t)
    (hdown : t.isDownloading = true) :
    s.removeObject id = some ((s.cancelDownload id).removeToken id) := by
  obtain ⟨index, hindex, hrow⟩ := exists_index ht
  obtain ⟨dl, hdl⟩ := Option.isSome_iff_exists.mp hdown
  have hcancel := cancelDownload_of_leave hleave ht hdl
  have hsame :
    ((s.cancelDownload id).removeFileAtPath t.downloadedFilePath).tokensArray.rows[index]? =
      some (id, t.stopped .downloadCanceled) := by
    rw [hcancel]
    exact stopped_row hrow dl .downloadCanceled
  have hfind : (s.cancelDownload id).tokensArray.find id = some (t.stopped .downloadCanceled) :=
    hcancel ▸ find_stopped ht _
  rw [removeObject, hindex]
  dsimp only
  rw [removeObjectFromTokensArrayAtIndex, hrow]
  dsimp only
  rw [hdown, if_pos rfl, hsame, removeToken, hfind, Option.bind_some]
  rfl

def tokenIDs (s : BSIPIHistoryManager) : List Nat := s.tokensArray.rows.map Prod.fst

theorem tokenIDs_setToken (g : BSIPIToken → BSIPIToken) :
    (s.setToken id g).tokenIDs = s.tokenIDs := by
  rw [tokenIDs, tokenIDs, setToken, Table.update, List.map_map]
  rfl

theorem tokenIDs_delete {index : Nat} (h : s.tokensArray.rows[index]? = some (id, t)) :
    (s.tokensArray.delete fun k _ => k == id).rows.map Prod.fst = s.tokenIDs.eraseIdx index := by
  rw [Table.rows_delete_of_getElem? h, tokenIDs, List.eraseIdx_map]

/-- Where failed tokens are taken out, one that is being downloaded is, and then the one behind
it, which is neither cancelled nor loses its file. -/
theorem removeObjectFromTokensArrayAtIndex_of_downloading {index : Nat}
    (hleave : s.leaveFailedToken = false)
    (hrow : s.tokensArray.rows[index]? = some (id, t)) (hdown : t.isDownloading = true) :
    (s.removeObjectFromTokensArrayAtIndex index).map tokenIDs =
      if index + 1 < s.tokenIDs.length then some ((s.tokenIDs.eraseIdx index).eraseIdx index)
      else none := by
  obtain ⟨dl, hdl⟩ := Option.isSome_iff_exists.mp hdown
  have ht := find_of_getElem? hrow
  have hstopped := stopped_row hrow dl .downloadCanceled
  have hcancel : s.cancelDownload id =
    ((s.discard dl).setToken id (·.stopped .downloadCanceled)).removeToken id := by
    rw [cancelDownload_of_downloading ht hdl, tokenDidFailDownload]
    exact if_neg (fun h => Bool.false_ne_true (hleave.symm.trans h))
  have hids : (s.cancelDownload id).tokenIDs = s.tokenIDs.eraseIdx index := by
    rw [hcancel]
    refine (tokenIDs_delete hstopped).trans ?_
    rw [tokenIDs_setToken]
    rfl
  have hlength : (s.cancelDownload id).tokensArray.rows.length = s.tokenIDs.length - 1 := by
    have hlt := (List.getElem?_eq_some_iff.mp hrow).1
    have hall : (s.cancelDownload id).tokenIDs.length = s.tokenIDs.length - 1 := by
      rw [hids]
      exact List.length_eraseIdx_of_lt (by rw [tokenIDs, List.length_map]; exact hlt)
    rw [← hall, tokenIDs, List.length_map]
  rw [removeObjectFromTokensArrayAtIndex, hrow]
  dsimp only
  rw [hdown, if_pos rfl]
  cases hnext :
    ((s.cancelDownload id).removeFileAtPath t.downloadedFilePath).tokensArray.rows[index]? with
  | none =>
    have hle := List.getElem?_eq_none_iff.mp hnext
    have hle' : s.tokenIDs.length - 1 ≤ index := hlength ▸ hle
    dsimp only
    rw [if_neg (by omega), Option.map_none]
  | some row =>
    obtain ⟨found, next⟩ := row
    have hlt : index < s.tokenIDs.length - 1 := hlength ▸ (List.getElem?_eq_some_iff.mp hnext).1
    dsimp only
    rw [if_pos (by omega), Option.map_some, ← hids]
    exact congrArg some (tokenIDs_delete (s := s.cancelDownload id) hnext)

-- Removing and downloading more than one

def CanRemove (s : BSIPIHistoryManager) (ids : List Nat) : Prop :=
  s.leaveFailedToken = true ∨ ∀ id ∈ ids, ∀ t, s.tokensArray.find id = some t →
    t.isDownloading = false

/-- The tokens that get a new download have no file of an old one. -/
def WithoutFile (s : BSIPIHistoryManager) (ids : List Nat) : Prop :=
  ∀ id ∈ ids, ∀ t, s.tokensArray.find id = some t → t.isDownloading = true ∨
    t.downloadedFilePath = none

theorem removeObject_of_none (h : s.tokensArray.find id = none) : s.removeObject id = some s := by
  have hindex : (s.tokensArray.rows.findIdx? fun row => row.1 == id) = none := by
    refine List.findIdx?_eq_none_iff.mpr fun row hrow => beq_false_of_ne fun heq => ?_
    exact Table.find_eq_none.mp h (List.mem_map.mpr ⟨row, hrow, heq⟩)
  rw [removeObject, hindex]

theorem CanRemove.removeToken {ids : List Nat} (h : s.CanRemove ids) (id : Nat) :
    (s.removeToken id).CanRemove ids := by
  refine h.imp (fun hleave => hleave) fun hidle i hi t ht => ?_
  rw [find_removeToken] at ht
  split at ht
  · cases ht
  · exact hidle i hi t ht

theorem keeps_removeObject {ids : List Nat} (h : s.CanRemove (id :: ids)) :
    ∃ s', s.removeObject id = some s' ∧ Keeps s s' ∧ s'.CanRemove ids := by
  have hrest : s.CanRemove ids := h.imp (fun hleave => hleave) fun hidle i hi =>
    hidle i (List.mem_cons_of_mem id hi)
  cases ht : s.tokensArray.find id with
  | none => exact ⟨s, removeObject_of_none ht, fun hs => ⟨hs, fun h => h⟩, hrest⟩
  | some t =>
    cases hdown : t.isDownloading with
    | false =>
      have hidle : t.currentDownload = none :=
        Option.isNone_iff_eq_none.mp (Option.isSome_eq_false_iff.mp hdown)
      exact ⟨_, removeObject_of_idle ht hdown, keeps_removeToken ht hidle, hrest.removeToken id⟩
    | true =>
      have hleave : s.leaveFailedToken = true := h.resolve_right fun hidle =>
        Bool.false_ne_true ((hidle id List.mem_cons_self t ht).symm.trans hdown)
      obtain ⟨dl, hdl⟩ := Option.isSome_iff_exists.mp hdown
      have hcancel := cancelDownload_of_leave hleave ht hdl
      have hfind : (s.cancelDownload id).tokensArray.find id = some (t.stopped .downloadCanceled) :=
        hcancel ▸ find_stopped ht _
      refine ⟨_, removeObject_of_leave hleave ht hdown, (keeps_cancelDownload s id).trans
        (keeps_removeToken hfind rfl), ?_⟩
      exact .inl (hcancel ▸ hleave)

theorem keeps_removeObjects {ids : List Nat} (hs : Consistent s) (h : s.CanRemove ids) :
    ∃ s', s.removeObjects ids = some s' ∧ Keeps s s' := by
  induction ids generalizing s with
  | nil => exact ⟨s, rfl, fun hs => ⟨hs, fun h => h⟩⟩
  | cons id ids ih =>
    obtain ⟨s₁, h₁, hkeeps, hrest⟩ := keeps_removeObject h
    obtain ⟨s', h', hkeeps'⟩ := ih (hkeeps hs).1 hrest
    exact ⟨s', by rw [removeObjects, h₁, Option.bind_some, h'], hkeeps.trans hkeeps'⟩

/-- A token that got a new download keeps its file, and all others stay as they are. -/
theorem find_retryDownload (s : BSIPIHistoryManager) (id i : Nat)
    (hi : (s.retryDownload id).tokensArray.find i = some t) :
    s.tokensArray.find i = some t ∨ t.isDownloading = true := by
  rw [retryDownload] at hi
  split at hi
  · exact .inl hi
  · split at hi
    · exact .inl hi
    · split at hi
      · exact .inl hi
      · have hfound := (find_setToken s id _ i).symm.trans hi
        split at hfound
        · obtain ⟨u, -, rfl⟩ := Option.map_eq_some_iff.mp hfound
          exact .inr rfl
        · exact .inl hfound

theorem WithoutFile.retryDownload {ids : List Nat} (h : s.WithoutFile ids) (id : Nat) :
    (s.retryDownload id).WithoutFile ids := by
  intro i hi t ht
  obtain hold | hdown := find_retryDownload s id i ht
  · exact h i hi t hold
  · exact .inl hdown

theorem consistent_retryDownloads (ids : List Nat) (hs : Consistent s) :
    Consistent (ids.foldl BSIPIHistoryManager.retryDownload s) ∧
      (Tidy s → s.WithoutFile ids → Tidy (ids.foldl BSIPIHistoryManager.retryDownload s)) := by
  induction ids generalizing s with
  | nil => exact ⟨hs, fun h _ => h⟩
  | cons id ids ih =>
    obtain ⟨hs₁, htidy⟩ := consistent_retryDownload hs id
    obtain ⟨hs', htidy'⟩ := ih hs₁
    refine ⟨hs', fun ht hfile => htidy' (htidy ht (hfile id List.mem_cons_self)) ?_⟩
    exact WithoutFile.retryDownload (fun i hi => hfile i (List.mem_cons_of_mem id hi)) id

-- What a download tells

theorem Pair.note (h : Pair s id dl t d) (g : BSURLDownload → BSURLDownload)
    (hdelegate : (g d).delegate = d.delegate)
    (hpath : (g d).downloadedFilePath = d.downloadedFilePath) : Keeps s (s.setDownload dl g) := by
  intro hs
  have hstatus : t.statusMessage.isProgress = true :=
    (hs.status id t h.token).symm.trans h.isDownloading
  have htokens : ∀ i, (s.setDownload dl g).tokensArray.find i = if i = id then some t
    else s.tokensArray.find i := by
    intro i
    split
    · rename_i hi
      exact hi ▸ h.token
    · rfl
  exact h.progress htokens (setDownload_at h.download g) rfl rfl rfl rfl rfl hstatus
    hdelegate hpath hs

theorem Pair.tell (h : Pair s id dl t d) (g : BSURLDownload → BSURLDownload)
    (hdelegate : (g d).delegate = d.delegate)
    (hpath : (g d).downloadedFilePath = d.downloadedFilePath) (g' : BSIPIToken → BSIPIToken)
    (hurl : (g' t).sourceURL = t.sourceURL) (hcurrent : (g' t).currentDownload = t.currentDownload)
    (hfile : (g' t).downloadedFilePath = t.downloadedFilePath)
    (hstatus : (g' t).statusMessage.isProgress = true) :
    Keeps s ((s.setDownload dl g).setToken id g') :=
  h.progress (setToken_at (s := s.setDownload dl g) h.token g')
    (setDownload_at h.download g) rfl rfl hurl hcurrent hfile
    hstatus hdelegate hpath

theorem keeps_deliver (isImage : NSString → Bool) (h : Pair s id dl t d) (message : Message)
    (hcan : canReceive d message = true) : Keeps s (s.deliver isImage dl d message) := by
  obtain rfl := h.delegate
  cases message with
  | didReceiveResponse expectedContentLength =>
    cases expectedContentLength with
    | none => exact h.note _ rfl rfl
    | some expected => exact h.tell _ rfl rfl (·.willDownloadContentOfSize expected) rfl rfl rfl rfl
  | willSendRequest newURL =>
    rw [deliver]
    split
    · exact fun hs => ⟨hs, fun h => h⟩
    · exact h.fail .redirectionAborted rfl
  | didCreateDestination => exact h.create (Option.isNone_iff_eq_none.mp hcan)
  | didReceiveDataOfLength len =>
    rw [deliver]
    split
    · exact h.note _ rfl rfl
    · exact h.tell _ rfl rfl (·.didDownloadContentOfSize (d.dlLength + len)) rfl rfl rfl rfl
  | downloadDidFinish imageRep =>
    rw [deliver]
    split
    · have hfound : ((s.close dl).setToken d.delegate
          (·.finished d.downloadedFilePath imageRep)).tokensArray.find d.delegate =
          some (t.finished d.downloadedFilePath imageRep) := by
        rw [setToken_at (s := s.close dl) h.token, if_pos rfl]
      exact (h.finish imageRep).trans (keeps_tokenDidFailDownload hfound rfl)
    · exact h.finish imageRep
  | didFailWithError localizedDescription => exact h.fail (.error localizedDescription) rfl

-- Steps and runs

/-- No token is removed while it is being downloaded, unless those that fail are kept. -/
def Allowed (s : BSIPIHistoryManager) : Event → Prop
  | .remove indexes => ∀ ids, s.cachedTokensArrayAtIndexes indexes = some ids → s.CanRemove ids
  | _ => True

def RetriesFailed (s : BSIPIHistoryManager) : Event → Prop
  | .retryDownload indexes => ∀ ids, s.cachedTokensArrayAtIndexes indexes = some ids →
      s.WithoutFile ids
  | _ => True

theorem keeps_setLeaveFailedToken (leave : Bool) :
    Keeps s { s with leaveFailedToken := leave } := by
  intro hs
  have hfile : ∀ o, fileOf { s with leaveFailedToken := leave } o = s.fileOf o := by
    intro o
    cases o <;> rfl
  refine ⟨⟨hs.url, hs.delegate, hs.current, hs.status, fun o f ho => hs.files o f (hfile o ▸ ho),
    fun o o' f ho ho' => hs.owner o o' f (hfile o ▸ ho) (hfile o' ▸ ho'), hs.fresh⟩, fun ht =>
      ⟨fun f hf => ?_, ht.noFile⟩⟩
  obtain ⟨o, ho⟩ := ht.owned f hf
  exact ⟨o, (hfile o).trans ho⟩

variable {isImage : NSString → Bool} {e : Event} {es : List Event}

theorem consistent_step (hs : Consistent s) (hallowed : s.Allowed e)
    (hstep : s.step isImage e = some s') :
    Consistent s' ∧ (Tidy s → s.RetriesFailed e → Tidy s') := by
  have hkeeps : Keeps s s' → Consistent s' ∧ (Tidy s → s.RetriesFailed e → Tidy s') := fun h =>
    ⟨(h hs).1, fun ht _ => (h hs).2 ht⟩
  cases e with
  | showImagesWithURLs urls =>
    obtain rfl := Option.some.inj hstep
    exact hkeeps (keeps_foldl (fun s url => keeps_showImageWithURL url) urls s)
  | cancelDownload indexes =>
    obtain ⟨ids, -, rfl⟩ := Option.map_eq_some_iff.mp hstep
    exact hkeeps (keeps_foldl keeps_cancelDownload ids s)
  | retryDownload indexes =>
    obtain ⟨ids, hids, rfl⟩ := Option.map_eq_some_iff.mp hstep
    obtain ⟨hs', htidy⟩ := consistent_retryDownloads ids hs
    exact ⟨hs', fun ht hretries => htidy ht (hretries ids hids)⟩
  | remove indexes =>
    obtain ⟨ids, hids, hremove⟩ := Option.bind_eq_some_iff.mp hstep
    obtain ⟨s₁, h₁, hkept⟩ := keeps_removeObjects hs (hallowed ids hids)
    obtain rfl := Option.some.inj (h₁.symm.trans hremove)
    exact hkeeps hkept
  | setLeaveFailedToken leave =>
    obtain rfl := Option.some.inj hstep
    exact hkeeps (keeps_setLeaveFailedToken leave)
  | download dl message =>
    rw [step] at hstep
    split at hstep
    · cases hstep
    · rename_i d hd
      split at hstep
      · rename_i hcan
        obtain rfl := Option.some.inj hstep
        obtain ⟨t, ht, hcurrent⟩ := hs.delegate dl d hd
        exact hkeeps (keeps_deliver isImage ⟨ht, hd, hcurrent, rfl⟩ message hcan.1)
      · cases hstep

theorem Consistent.delivers (hs : Consistent s) {message : Message}
    (hd : s.downloads.find dl = some d)
    (hcan : canReceive d message = true) :
    (s.step isImage (.download dl message)).isSome = true := by
  obtain ⟨t, ht, -⟩ := hs.delegate dl d hd
  rw [step, hd]
  dsimp only
  rw [if_pos ⟨hcan, ht ▸ rfl⟩]
  rfl

theorem consistent_run (hs : Consistent s) (hallowed : Run.Guarded (step isImage) Allowed s es)
    (hrun : Run.run (step isImage) s es = some s') : Consistent s' :=
  Run.guarded_invariant (fun hs hallowed hstep =>
    (consistent_step hs hallowed hstep).1) hallowed hrun hs

theorem tidy_run (hs : Consistent s) (ht : Tidy s)
    (hallowed : Run.Guarded (step isImage) Allowed s es)
    (hretries : Run.Guarded (step isImage) RetriesFailed s es)
    (hrun : Run.run (step isImage) s es = some s') : Tidy s' := by
  refine (Run.guarded_invariant (I := fun s => Consistent s ∧ Tidy s)
    (fun {s e s'} hs hguard hstep => ?_) (hallowed.and hretries)
    hrun ⟨hs, ht⟩).2
  obtain ⟨hs', htidy⟩ := consistent_step hs.1 hguard.1 hstep
  exact ⟨hs', htidy hs.2 hguard.2⟩

/-- Whatever happens to the previewer, what it has agrees, no message goes to a token that was
released, and no file is left over. -/
theorem run_consistent {leave : Bool}
    (hallowed : Run.Guarded (step isImage) Allowed (initial leave) es)
    (hrun : Run.run (step isImage) (initial leave) es = some s) :
    Consistent s ∧
      (∀ dl d message, s.downloads.find dl = some d → canReceive d message = true →
        (s.step isImage (.download dl message)).isSome = true) ∧
      (Run.Guarded (step isImage) RetriesFailed (initial leave) es → Tidy s) := by
  have hs := consistent_run (consistent_initial leave) hallowed hrun
  refine ⟨hs, fun dl d message hd hcan => hs.delivers hd hcan, fun hretries => ?_⟩
  exact tidy_run (consistent_initial leave) (tidy_initial leave) hallowed hretries hrun

/-- Of three images one is shown and removed, one fails and one still comes. -/
def threeImages : List Event :=
  [.showImagesWithURLs [[97], [98], [97], [99]], .download 1 .didCreateDestination,
    .download 1 (.downloadDidFinish (some (4, 3))), .download 3 (.didFailWithError [120]),
    .remove [0]]

theorem run_consistent_three : ∃ s,
    Run.run (step fun _ => true) (initial false) threeImages = some s ∧ Consistent s ∧ Tidy s :=
  have hallowed : Run.Guarded (step fun _ => true) Allowed (initial false) threeImages :=
    Run.guarded_cons rfl trivial (Run.guarded_cons rfl trivial
      (Run.guarded_cons rfl trivial (Run.guarded_cons rfl trivial
      (Run.guarded_cons rfl (fun ids hids => .inr fun id hid t ht => by
        obtain rfl := Option.some.inj hids
        obtain rfl := List.mem_singleton.mp hid
        obtain rfl := Option.some.inj ht
        rfl) trivial))))
  have hretries : Run.Guarded (step fun _ => true) RetriesFailed (initial false) threeImages :=
    Run.guarded_cons rfl trivial (Run.guarded_cons rfl trivial
      (Run.guarded_cons rfl trivial (Run.guarded_cons rfl trivial
      (Run.guarded_cons rfl trivial trivial))))
  have hall := run_consistent hallowed rfl
  ⟨_, rfl, hall.1, hall.2.2 hretries⟩

-- The removal of one token

theorem find_of_getElem?_index {index : Nat} (hrow : s.tokensArray.rows[index]? = some (id, t)) :
    (s.tokensArray.rows.findIdx? fun row => row.1 == id) = some index := by
  obtain ⟨found, hfound, hrow'⟩ := exists_index (find_of_getElem? hrow)
  have hlt := (List.getElem?_eq_some_iff.mp hrow).1
  have hids : (s.tokensArray.rows.map Prod.fst)[index]? =
    (s.tokensArray.rows.map Prod.fst)[found]? := by
    rw [List.getElem?_map, List.getElem?_map, hrow, hrow']
  rw [hfound, (List.getElem?_inj (by rw [List.length_map]; exact hlt) s.tokensArray.unique).mp hids]

theorem step_remove {index : Nat} (hrow : s.tokensArray.rows[index]? = some (id, t)) :
    s.step isImage (.remove [index]) = s.removeObject id := by
  have hids : s.cachedTokensArrayAtIndexes [index] = some [id] := by
    rw [cachedTokensArrayAtIndexes, List.mapM_cons, hrow]
    rfl
  rw [step, hids, Option.bind_some, removeObjects]
  cases s.removeObject id <;> rfl

theorem tokenIDs_removeToken {index : Nat} (hrow : s.tokensArray.rows[index]? = some (id, t)) :
    (s.removeToken id).tokenIDs = s.tokenIDs.eraseIdx index := tokenIDs_delete hrow

/-- A token that has to be cancelled, where that takes it out, is taken out with the one behind
it. -/
theorem step_remove_of_downloading {index : Nat} (hrow : s.tokensArray.rows[index]? = some (id, t))
    (hnot : ¬(s.leaveFailedToken = true ∨ t.isDownloading = false)) :
    (s.step isImage (.remove [index])).map tokenIDs =
      if index + 1 < s.tokenIDs.length then some ((s.tokenIDs.eraseIdx index).eraseIdx index)
      else none := by
  rw [not_or, Bool.not_eq_true, Bool.not_eq_false] at hnot
  rw [step_remove hrow, removeObject, find_of_getElem?_index hrow]
  exact removeObjectFromTokensArrayAtIndex_of_downloading hnot.1 hrow hnot.2

/-- A removal takes out its token and nothing else just where no download has to be cancelled,
or the cancelled token stays until it is removed; else the token behind it goes, too, and an
exception is thrown if there is none. -/
theorem remove_one_iff (hs : Consistent s) {index : Nat}
    (hrow : s.tokensArray.rows[index]? = some (id, t)) :
    ((∃ s', s.step isImage (.remove [index]) = some s' ∧ s'.tokenIDs = s.tokenIDs.eraseIdx index ∧
      Consistent s') ↔
      s.leaveFailedToken = true ∨ t.isDownloading = false) ∧
    (¬(s.leaveFailedToken = true ∨ t.isDownloading = false) →
      (s.step isImage (.remove [index])).map tokenIDs =
        if index + 1 < s.tokenIDs.length then some ((s.tokenIDs.eraseIdx index).eraseIdx index)
        else none) := by
  have ht := find_of_getElem? hrow
  refine ⟨⟨?_, ?_⟩, step_remove_of_downloading hrow⟩
  · rintro ⟨s', hstep, hids, -⟩
    by_contra hnot
    have htwice : (s.step isImage (.remove [index])).map tokenIDs = _ :=
      step_remove_of_downloading hrow hnot
    rw [hstep, Option.map_some, hids] at htwice
    split at htwice
    · rename_i hlt
      have hlength := congrArg List.length (Option.some.inj htwice)
      rw [List.length_eraseIdx_of_lt (by omega), List.length_eraseIdx_of_lt (by
        rw [List.length_eraseIdx_of_lt (by omega)]; omega), List.length_eraseIdx_of_lt (by
          omega)] at hlength
      omega
    · cases htwice
  · intro hcan
    have hcan' : s.CanRemove [id] := hcan.imp (fun hleave => hleave) fun hidle i hi u hu => by
      obtain rfl := List.mem_singleton.mp hi
      exact Option.some.inj (ht.symm.trans hu) ▸ hidle
    obtain ⟨s', hstep, hkeeps, -⟩ := keeps_removeObject hcan'
    refine ⟨s', (step_remove hrow).trans hstep, ?_, (hkeeps hs).1⟩
    cases hdown : t.isDownloading with
    | false =>
      obtain rfl := Option.some.inj ((removeObject_of_idle ht hdown).symm.trans hstep)
      exact tokenIDs_removeToken hrow
    | true =>
      have hleave : s.leaveFailedToken = true := hcan.resolve_right fun hidle =>
        Bool.false_ne_true (hidle.symm.trans hdown)
      obtain rfl := Option.some.inj ((removeObject_of_leave hleave ht hdown).symm.trans hstep)
      obtain ⟨dl, hdl⟩ := Option.isSome_iff_exists.mp hdown
      rw [cancelDownload_of_leave hleave ht hdl,
        tokenIDs_removeToken (stopped_row hrow dl .downloadCanceled), tokenIDs_setToken]
      rfl

/-- Of two images the first one is removed while it comes. -/
theorem remove_one_iff_first : ∃ s,
    Run.run (step fun _ => true) (initial false) [.showImagesWithURLs [[97], [98]]] = some s ∧
    ((∃ s', s.step (fun _ => true) (.remove [0]) = some s' ∧ s'.tokenIDs = s.tokenIDs.eraseIdx 0 ∧
      Consistent s') ↔
      false = true ∨ true = false) ∧
    (s.step (fun _ => true) (.remove [0])).map tokenIDs = some [] :=
  have hallowed : Run.Guarded (step fun _ => true) Allowed (initial false)
    [.showImagesWithURLs [[97], [98]]] :=
    Run.guarded_cons rfl trivial trivial
  have hone := remove_one_iff (consistent_run (consistent_initial false) hallowed rfl)
    (t := .initWithURL [97] 1) rfl
  ⟨_, rfl, hone.1, hone.2 (by decide)⟩

end BathyScaphe.Previewer.BSIPIHistoryManager
