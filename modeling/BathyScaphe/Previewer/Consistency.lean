import BathyScaphe.Previewer.HistoryManager

/-!
# Tokens, downloads and files agree

Every open download belongs to one token that is in the list, so that no message goes to a token
that was released, and every file belongs to one token or download. A change of a token and its
download keeps this where nothing else belongs to either of them.
-/

namespace BathyScaphe.Previewer

namespace StatusMessage

def isProgress : StatusMessage → Bool
  | .startDownloading => true
  | .downloading => true
  | .sizes _ _ => true
  | _ => false

end StatusMessage

namespace BSIPIHistoryManager

-- What should hold

/-- What may have a file: a token or an open download. -/
inductive Owner where
  | token (id : Nat)
  | download (dl : Nat)

def fileOf (s : BSIPIHistoryManager) : Owner → Option Nat
  | .token id => (s.tokensArray.find id).bind (·.downloadedFilePath)
  | .download dl => (s.downloads.find dl).bind (·.downloadedFilePath)

structure Consistent (s : BSIPIHistoryManager) : Prop where
  url : ∀ i j t u, s.tokensArray.find i = some t → s.tokensArray.find j = some u →
    t.sourceURL = u.sourceURL → i = j
  delegate : ∀ dl d, s.downloads.find dl = some d → ∃ t, s.tokensArray.find d.delegate = some t ∧
    t.currentDownload = some dl
  current : ∀ i t dl, s.tokensArray.find i = some t → t.currentDownload = some dl →
    ∃ d, s.downloads.find dl = some d ∧ d.delegate = i
  status : ∀ i t, s.tokensArray.find i = some t → t.isDownloading = t.statusMessage.isProgress
  files : ∀ o f, s.fileOf o = some f → f ∈ s.files
  owner : ∀ o o' f, s.fileOf o = some f → s.fileOf o' = some f → o = o'
  fresh : ∀ k, s.next ≤ k → s.tokensArray.find k = none ∧ s.downloads.find k = none ∧ k ∉ s.files

structure Tidy (s : BSIPIHistoryManager) : Prop where
  owned : ∀ f ∈ s.files, ∃ o, s.fileOf o = some f
  noFile : ∀ i t, s.tokensArray.find i = some t → t.isDownloading = true →
    t.downloadedFilePath = none

def initial (leaveFailedToken : Bool) : BSIPIHistoryManager :=
  ⟨leaveFailedToken, Table.empty, Table.empty, [], 0⟩

theorem consistent_initial (leave : Bool) : Consistent (initial leave) where
  url i j t u hi := by cases hi
  delegate dl d hd := by cases hd
  current i t dl hi := by cases hi
  status i t hi := by cases hi
  files o f ho := by cases o <;> cases ho
  owner o o' f ho := by cases o <;> cases ho
  fresh k _ := ⟨rfl, rfl, List.not_mem_nil⟩

theorem tidy_initial (leave : Bool) : Tidy (initial leave) where
  owned f hf := by cases hf
  noFile i t hi := by cases hi

-- The tables after a change

variable {s s' : BSIPIHistoryManager} {id dl i k f : Nat} {t u : BSIPIToken} {d : BSURLDownload}

theorem find_setToken (s : BSIPIHistoryManager) (id : Nat) (g : BSIPIToken → BSIPIToken) (i : Nat) :
    (s.setToken id g).tokensArray.find i = if i = id then (s.tokensArray.find i).map g
    else s.tokensArray.find i :=
  Table.find_update_key

theorem find_setDownload (s : BSIPIHistoryManager) (dl : Nat)
    (g : BSURLDownload → BSURLDownload) (k : Nat) :
    (s.setDownload dl g).downloads.find k = if k = dl then (s.downloads.find k).map g
    else s.downloads.find k :=
  Table.find_update_key

theorem setDownload_at (hd : s.downloads.find dl = some d)
    (g : BSURLDownload → BSURLDownload) (k : Nat) :
    (s.setDownload dl g).downloads.find k = if k = dl then some (g d) else s.downloads.find k := by
  rw [find_setDownload]
  split
  · rename_i hk
    rw [hk, hd, Option.map_some]
  · rfl

theorem setToken_at (ht : s.tokensArray.find id = some t) (g : BSIPIToken → BSIPIToken) (i : Nat) :
    (s.setToken id g).tokensArray.find i = if i = id then some (g t) else s.tokensArray.find i := by
  rw [find_setToken]
  split
  · rename_i hi
    rw [hi, ht, Option.map_some]
  · rfl

theorem find_close (s : BSIPIHistoryManager) (dl k : Nat) :
    (s.close dl).downloads.find k = if k = dl then none else s.downloads.find k :=
  Table.find_delete_key

theorem find_removeToken (s : BSIPIHistoryManager) (id i : Nat) :
    (s.removeToken id).tokensArray.find i = if i = id then none else s.tokensArray.find i :=
  Table.find_delete_key

theorem mem_removeFileAtPath {path : Option Nat} : f ∈ (s.removeFileAtPath path).files ↔
    f ∈ s.files ∧ some f ≠ path := by
  rw [removeFileAtPath, List.mem_filter, bne_iff_ne]

theorem fileOf_token (h : s.tokensArray.find id = some t) :
    s.fileOf (.token id) = t.downloadedFilePath := by
  rw [fileOf, h, Option.bind_some]

theorem fileOf_download (h : s.downloads.find dl = some d) :
    s.fileOf (.download dl) = d.downloadedFilePath := by
  rw [fileOf, h, Option.bind_some]

-- A change of one token and its download

/-- The token `id` becomes `x` and the download `dl` becomes `y`; nothing else belongs to either
of them, and the files of all others stay. -/
structure Change (s s' : BSIPIHistoryManager) (id dl : Nat) (x : Option BSIPIToken)
    (y : Option BSURLDownload) : Prop where
  tokens : ∀ i, s'.tokensArray.find i = if i = id then x else s.tokensArray.find i
  downloads : ∀ k, s'.downloads.find k = if k = dl then y else s.downloads.find k
  url : ∀ t, x = some t → ∀ j u, j ≠ id → s.tokensArray.find j = some u → t.sourceURL ≠ u.sourceURL
  delegate : ∀ d, y = some d → d.delegate = id ∧ ∃ t, x = some t ∧ t.currentDownload = some dl
  current : ∀ t c, x = some t → t.currentDownload = some c → c = dl ∧ ∃ d, y = some d
  onlyDownload : ∀ k d, s.downloads.find k = some d → d.delegate = id → k = dl
  onlyToken : ∀ i t, s.tokensArray.find i = some t → t.currentDownload = some dl → i = id
  status : ∀ t, x = some t → t.isDownloading = t.statusMessage.isProgress
  apart : ∀ f, x.bind (·.downloadedFilePath) = some f → y.bind (·.downloadedFilePath) ≠ some f
  origin : ∀ f, x.bind (·.downloadedFilePath) = some f ∨ y.bind (·.downloadedFilePath) = some f →
    f ∈ s'.files ∧ (s.fileOf (.token id) = some f ∨ s.fileOf (.download dl) = some f ∨ s.next ≤ f)
  kept : ∀ f ∈ s.files, s.fileOf (.token id) ≠ some f → s.fileOf (.download dl) ≠ some f →
    f ∈ s'.files
  next : s.next ≤ s'.next
  numbers : (x ≠ none → id < s'.next) ∧ (y ≠ none → dl < s'.next) ∧ ∀ f ∈ s'.files,
    f ∈ s.files ∨ f < s'.next

namespace Change

variable {x : Option BSIPIToken} {y : Option BSURLDownload}

theorem fileOf_cases (h : Change s s' id dl x y) (o : Owner) :
    (o = .token id ∧ s'.fileOf o = x.bind (·.downloadedFilePath)) ∨
    (o = .download dl ∧ s'.fileOf o = y.bind (·.downloadedFilePath)) ∨
    (o ≠ .token id ∧ o ≠ .download dl ∧ s'.fileOf o = s.fileOf o) := by
  cases o with
  | token i =>
    by_cases hi : i = id
    · exact .inl ⟨congrArg _ hi, by rw [fileOf, h.tokens, if_pos hi]⟩
    · refine .inr (.inr ⟨fun heq => hi (Owner.token.inj heq), Owner.noConfusion, ?_⟩)
      rw [fileOf, h.tokens, if_neg hi, fileOf]
  | download k =>
    by_cases hk : k = dl
    · exact .inr (.inl ⟨congrArg _ hk, by rw [fileOf, h.downloads, if_pos hk]⟩)
    · refine .inr (.inr ⟨Owner.noConfusion, fun heq => hk (Owner.download.inj heq), ?_⟩)
      rw [fileOf, h.downloads, if_neg hk, fileOf]

theorem not_other (h : Change s s' id dl x y) (hs : Consistent s) {o : Owner} (hid : o ≠ .token id)
    (hdl : o ≠ .download dl) (ho : s.fileOf o = some f)
    (hf : x.bind (·.downloadedFilePath) = some f ∨ y.bind (·.downloadedFilePath) = some f) :
    False := by
  obtain ⟨-, hold | hold | hnew⟩ := h.origin f hf
  · exact hid (hs.owner _ _ f ho hold)
  · exact hdl (hs.owner _ _ f ho hold)
  · exact (hs.fresh f hnew).2.2 (hs.files o f ho)

theorem consistent (h : Change s s' id dl x y) (hs : Consistent s) : Consistent s' where
  url i j t u hi hj hurl := by
    rw [h.tokens] at hi hj
    split at hi <;> split at hj
    · rename_i h₁ h₂
      exact h₁.trans h₂.symm
    · rename_i h₂
      exact absurd hurl (h.url t hi j u h₂ hj)
    · rename_i h₁ _
      exact absurd hurl.symm (h.url u hj i t h₁ hi)
    · exact hs.url i j t u hi hj hurl
  delegate k d hk := by
    rw [h.downloads] at hk
    split at hk
    · rename_i hdl
      obtain ⟨hdelegate, t, hx, hcurrent⟩ := h.delegate d hk
      exact ⟨t, by rw [h.tokens, if_pos hdelegate, hx], hdl ▸ hcurrent⟩
    · rename_i hdl
      obtain ⟨t, ht, hcurrent⟩ := hs.delegate k d hk
      refine ⟨t, ?_, hcurrent⟩
      rw [h.tokens, if_neg (fun hid => hdl (h.onlyDownload k d hk hid)), ht]
  current i t c hi hc := by
    rw [h.tokens] at hi
    split at hi
    · rename_i hid
      obtain ⟨rfl, d, hy⟩ := h.current t c hi hc
      exact ⟨d, by rw [h.downloads, if_pos rfl, hy], (h.delegate d hy).1.trans hid.symm⟩
    · rename_i hid
      obtain ⟨d, hd, hdelegate⟩ := hs.current i t c hi hc
      refine ⟨d, ?_, hdelegate⟩
      rw [h.downloads, if_neg, hd]
      rintro rfl
      exact hid (h.onlyToken i t hi hc)
  status i t hi := by
    rw [h.tokens] at hi
    split at hi
    · exact h.status t hi
    · exact hs.status i t hi
  files o f ho := by
    obtain ⟨-, hfile⟩ | ⟨-, hfile⟩ | ⟨hid, hdl, hfile⟩ := h.fileOf_cases o <;> rw [hfile] at ho
    · exact (h.origin f (.inl ho)).1
    · exact (h.origin f (.inr ho)).1
    · exact h.kept f (hs.files o f ho) (fun hold => hid (hs.owner _ _ f ho hold)) fun hold =>
        hdl (hs.owner _ _ f ho hold)
  owner o o' f ho ho' := by
    obtain ⟨rfl, hfile⟩ | ⟨rfl, hfile⟩ | ⟨hid, hdl, hfile⟩ := h.fileOf_cases o <;>
      obtain ⟨rfl, hfile'⟩ | ⟨rfl, hfile'⟩ | ⟨hid', hdl', hfile'⟩ := h.fileOf_cases o' <;>
      rw [hfile] at ho <;> rw [hfile'] at ho'
    · exact absurd ho' (h.apart f ho)
    · exact (h.not_other hs hid' hdl' ho' (.inl ho)).elim
    · exact absurd ho (h.apart f ho')
    · exact (h.not_other hs hid' hdl' ho' (.inr ho)).elim
    · exact (h.not_other hs hid hdl ho (.inl ho')).elim
    · exact (h.not_other hs hid hdl ho (.inr ho')).elim
    · exact hs.owner o o' f ho ho'
  fresh k hk := by
    obtain ⟨htoken, hdownload, hfile⟩ := hs.fresh k (Nat.le_trans h.next hk)
    obtain ⟨hid, hdl, hfiles⟩ := h.numbers
    refine ⟨?_, ?_, fun hmem => ?_⟩
    · rw [h.tokens]
      split
      · rename_i heq
        exact by_contra fun hx => absurd (hid hx) (heq ▸ Nat.not_lt.mpr hk)
      · exact htoken
    · rw [h.downloads]
      split
      · rename_i heq
        exact by_contra fun hy => absurd (hdl hy) (heq ▸ Nat.not_lt.mpr hk)
      · exact hdownload
    · obtain hold | hlt := hfiles k hmem
      · exact hfile hold
      · exact absurd hlt (Nat.not_lt.mpr hk)

theorem tidy (h : Change s s' id dl x y) (hs : Tidy s)
    (howned : ∀ f ∈ s'.files, x.bind (·.downloadedFilePath) = some f ∨
      y.bind (·.downloadedFilePath) = some f ∨
      f ∈ s.files ∧ s.fileOf (.token id) ≠ some f ∧ s.fileOf (.download dl) ≠ some f)
    (hnoFile : ∀ t, x = some t → t.isDownloading = true → t.downloadedFilePath = none) :
    Tidy s' where
  owned f hf := by
    obtain hx | hy | ⟨hmem, hid, hdl⟩ := howned f hf
    · exact ⟨.token id, by rw [fileOf, h.tokens, if_pos rfl, hx]⟩
    · exact ⟨.download dl, by rw [fileOf, h.downloads, if_pos rfl, hy]⟩
    · obtain ⟨o, ho⟩ := hs.owned f hmem
      refine ⟨o, ?_⟩
      obtain ⟨rfl, -⟩ | ⟨rfl, -⟩ | ⟨-, -, hfile⟩ := h.fileOf_cases o
      · exact absurd ho hid
      · exact absurd ho hdl
      · rw [hfile, ho]
  noFile i t hi := by
    rw [h.tokens] at hi
    split at hi
    · exact hnoFile t hi
    · exact hs.noFile i t hi

end Change

/-- A change keeps the agreement and leaves no file over. -/
def Keeps (s s' : BSIPIHistoryManager) : Prop := Consistent s → Consistent s' ∧ (Tidy s → Tidy s')

theorem Keeps.trans {s'' : BSIPIHistoryManager} (h : Keeps s s') (h' : Keeps s' s'') :
    Keeps s s'' := by
  intro hs
  obtain ⟨hs', htidy⟩ := h hs
  obtain ⟨hs'', htidy'⟩ := h' hs'
  exact ⟨hs'', fun ht => htidy' (htidy ht)⟩

-- A token and its own download

structure Pair (s : BSIPIHistoryManager) (id dl : Nat) (t : BSIPIToken)
    (d : BSURLDownload) : Prop where
  token : s.tokensArray.find id = some t
  download : s.downloads.find dl = some d
  current : t.currentDownload = some dl
  delegate : d.delegate = id

theorem Pair.onlyDownload (h : Pair s id dl t d) (hs : Consistent s) (k : Nat) (d' : BSURLDownload)
    (hk : s.downloads.find k = some d') (hid : d'.delegate = id) : k = dl := by
  obtain ⟨t', ht', hcurrent⟩ := hs.delegate k d' hk
  rw [hid, h.token] at ht'
  obtain rfl := Option.some.inj ht'
  exact Option.some.inj (hcurrent.symm.trans h.current)

theorem Pair.onlyToken (h : Pair s id dl t d) (hs : Consistent s) (i : Nat) (t' : BSIPIToken)
    (hi : s.tokensArray.find i = some t') (hdl : t'.currentDownload = some dl) : i = id := by
  obtain ⟨d', hd', hdelegate⟩ := hs.current i t' dl hi hdl
  rw [h.download] at hd'
  obtain rfl := Option.some.inj hd'
  exact hdelegate.symm.trans h.delegate

theorem Consistent.token_lt (hs : Consistent s) (ht : s.tokensArray.find id = some t) :
    id < s.next := by
  refine Nat.lt_of_not_le fun hle => ?_
  have hnone := (hs.fresh id hle).1
  rw [ht] at hnone
  cases hnone

theorem Consistent.download_lt (hs : Consistent s) (hd : s.downloads.find dl = some d) :
    dl < s.next := by
  refine Nat.lt_of_not_le fun hle => ?_
  have hnone := (hs.fresh dl hle).2.1
  rw [hd] at hnone
  cases hnone

theorem Pair.isDownloading (h : Pair s id dl t d) : t.isDownloading = true := by
  rw [BSIPIToken.isDownloading, h.current]
  rfl

theorem Pair.url (h : Pair s id dl t d) (hs : Consistent s) (j : Nat) (u : BSIPIToken) (hj : j ≠ id)
    (hu : s.tokensArray.find j = some u) : t.sourceURL ≠ u.sourceURL :=
  fun hurl => hj (hs.url j id u t hu h.token hurl.symm)

theorem Pair.apart (h : Pair s id dl t d) (hs : Consistent s) (ht : t.downloadedFilePath = some f) :
    d.downloadedFilePath ≠ some f := by
  intro hd
  cases hs.owner (.token id) (.download dl) f (by rw [fileOf_token h.token, ht])
    (by rw [fileOf_download h.download, hd])

theorem Pair.mem_token (h : Pair s id dl t d) (hs : Consistent s)
    (ht : t.downloadedFilePath = some f) : f ∈ s.files :=
  hs.files (.token id) f (by rw [fileOf_token h.token, ht])

theorem Pair.mem_download (h : Pair s id dl t d) (hs : Consistent s)
    (hd : d.downloadedFilePath = some f) : f ∈ s.files :=
  hs.files (.download dl) f (by rw [fileOf_download h.download, hd])

theorem discard_eq (h : s.downloads.find dl = some d) :
    s.discard dl = (s.removeFileAtPath d.downloadedFilePath).close dl := by
  rw [discard, h, Option.bind_some]

theorem Pair.stop (h : Pair s id dl t d) (status : StatusMessage)
    (hstatus : status.isProgress = false) :
    Keeps s ((s.discard dl).setToken id (·.stopped status)) := by
  intro hs
  have hfiles : ∀ f, f ∈ ((s.discard dl).setToken id (·.stopped status)).files ↔
    f ∈ s.files ∧ some f ≠ d.downloadedFilePath := by
    intro f
    rw [discard_eq h.download]
    exact mem_removeFileAtPath
  have hchange : Change s ((s.discard dl).setToken id (·.stopped status)) id dl
      (some (t.stopped status)) none := {
    tokens := setToken_at (s := s.discard dl) h.token _
    downloads := fun k => find_close _ dl k
    url := fun t' ht' j u hj hu => by
      obtain rfl := Option.some.inj ht'
      exact h.url hs j u hj hu
    delegate := fun d' hd' => by cases hd'
    current := fun t' c ht' hc => by
      obtain rfl := Option.some.inj ht'
      cases hc
    onlyDownload := h.onlyDownload hs
    onlyToken := h.onlyToken hs
    status := fun t' ht' => by
      obtain rfl := Option.some.inj ht'
      exact hstatus.symm
    apart := fun f _ hf => by cases hf
    origin := fun f hf => by
      obtain hf | hf := hf
      · exact ⟨(hfiles f).mpr ⟨h.mem_token hs hf, fun heq => h.apart hs hf heq.symm⟩,
          .inl ((fileOf_token h.token).trans hf)⟩
      · cases hf
    kept := fun f hf _ hdl => (hfiles f).mpr ⟨hf, fun heq =>
      hdl ((fileOf_download h.download).trans heq.symm)⟩
    next := Nat.le_refl _
    numbers := ⟨fun _ => hs.token_lt h.token, fun hy => absurd rfl hy, fun f hf =>
      .inl ((hfiles f).mp hf).1⟩ }
  refine ⟨hchange.consistent hs, fun htidy => hchange.tidy htidy (fun f hf => ?_)
    fun t' ht' hdown => ?_⟩
  · obtain ⟨hmem, hne⟩ := (hfiles f).mp hf
    rw [fileOf_token h.token, fileOf_download h.download]
    by_cases hfile : t.downloadedFilePath = some f
    · exact .inl hfile
    · exact .inr (.inr ⟨hmem, hfile, fun heq => hne heq.symm⟩)
  · obtain rfl := Option.some.inj ht'
    cases hdown

theorem Pair.finish (h : Pair s id dl t d) (imageRep : Option (Nat × Nat)) :
    Keeps s ((s.close dl).setToken id (·.finished d.downloadedFilePath imageRep)) := by
  intro hs
  have hchange :
    Change s ((s.close dl).setToken id (·.finished d.downloadedFilePath imageRep)) id dl
      (some (t.finished d.downloadedFilePath imageRep)) none := {
    tokens := setToken_at (s := s.close dl) h.token _
    downloads := fun k => find_close _ dl k
    url := fun t' ht' j u hj hu => by
      obtain rfl := Option.some.inj ht'
      exact h.url hs j u hj hu
    delegate := fun d' hd' => by cases hd'
    current := fun t' c ht' hc => by
      obtain rfl := Option.some.inj ht'
      cases hc
    onlyDownload := h.onlyDownload hs
    onlyToken := h.onlyToken hs
    status := fun t' ht' => by
      obtain rfl := Option.some.inj ht'
      rw [BSIPIToken.finished, BSIPIToken.isDownloading]
      cases d.downloadedFilePath.bind fun _ => imageRep <;> rfl
    apart := fun f _ hf => by cases hf
    origin := fun f hf => by
      obtain hf | hf := hf
      · exact ⟨h.mem_download hs hf, .inr (.inl ((fileOf_download h.download).trans hf))⟩
      · cases hf
    kept := fun f hf _ _ => hf
    next := Nat.le_refl _
    numbers := ⟨fun _ => hs.token_lt h.token, fun hy => absurd rfl hy, fun f hf => .inl hf⟩ }
  refine ⟨hchange.consistent hs, fun htidy => hchange.tidy htidy (fun f hf => ?_)
    fun t' ht' hdown => ?_⟩
  · have hnone : t.downloadedFilePath = none := htidy.noFile id t h.token h.isDownloading
    rw [fileOf_token h.token, fileOf_download h.download, hnone]
    by_cases hfile : d.downloadedFilePath = some f
    · exact .inl hfile
    · exact .inr (.inr ⟨hf, (Option.some_ne_none f).symm, hfile⟩)
  · obtain rfl := Option.some.inj ht'
    cases hdown

theorem Pair.progress (h : Pair s id dl t d) {t' : BSIPIToken} {d' : BSURLDownload}
    (htokens : ∀ i, s'.tokensArray.find i = if i = id then some t' else s.tokensArray.find i)
    (hdownloads : ∀ k, s'.downloads.find k = if k = dl then some d' else s.downloads.find k)
    (hfiles : s'.files = s.files) (hnext : s'.next = s.next) (hurl : t'.sourceURL = t.sourceURL)
    (hcurrent : t'.currentDownload = t.currentDownload)
    (hpath : t'.downloadedFilePath = t.downloadedFilePath)
    (hstatus : t'.statusMessage.isProgress = true) (hdelegate : d'.delegate = d.delegate)
    (hpath' : d'.downloadedFilePath = d.downloadedFilePath) : Keeps s s' := by
  intro hs
  have hdownloading : t'.isDownloading = true := by
    rw [BSIPIToken.isDownloading, hcurrent]
    exact h.isDownloading
  have hchange : Change s s' id dl (some t') (some d') := {
    tokens := htokens
    downloads := hdownloads
    url := fun u hu j v hj hv => by
      obtain rfl := Option.some.inj hu
      exact hurl ▸ h.url hs j v hj hv
    delegate := fun e he => by
      obtain rfl := Option.some.inj he
      exact ⟨hdelegate.trans h.delegate, t', rfl, hcurrent.trans h.current⟩
    current := fun u c hu hc => by
      obtain rfl := Option.some.inj hu
      exact ⟨Option.some.inj (hc.symm.trans (hcurrent.trans h.current)), d', rfl⟩
    onlyDownload := h.onlyDownload hs
    onlyToken := h.onlyToken hs
    status := fun u hu => by
      obtain rfl := Option.some.inj hu
      exact hdownloading.trans hstatus.symm
    apart := fun f hf => by
      rw [Option.bind_some, hpath] at hf
      rw [Option.bind_some, hpath']
      exact h.apart hs hf
    origin := fun f hf => by
      rw [Option.bind_some, Option.bind_some, hpath, hpath'] at hf
      rw [hfiles, fileOf_token h.token, fileOf_download h.download]
      obtain hf | hf := hf
      · exact ⟨h.mem_token hs hf, .inl hf⟩
      · exact ⟨h.mem_download hs hf, .inr (.inl hf)⟩
    kept := fun f hf _ _ => hfiles ▸ hf
    next := Nat.le_of_eq hnext.symm
    numbers := ⟨fun _ => hnext ▸ hs.token_lt h.token, fun _ => hnext ▸ hs.download_lt h.download,
      fun f hf => .inl (hfiles ▸ hf)⟩ }
  refine ⟨hchange.consistent hs, fun htidy => hchange.tidy htidy (fun f hf => ?_) fun u hu _ => ?_⟩
  · rw [fileOf_token h.token, fileOf_download h.download, Option.bind_some, Option.bind_some,
      hpath, hpath']
    by_cases ht : t.downloadedFilePath = some f
    · exact .inl ht
    · by_cases hd : d.downloadedFilePath = some f
      · exact .inr (.inl hd)
      · exact .inr (.inr ⟨hfiles ▸ hf, ht, hd⟩)
  · obtain rfl := Option.some.inj hu
    exact hpath.trans (htidy.noFile id t h.token h.isDownloading)

theorem Pair.create (h : Pair s id dl t d) (hnone : d.downloadedFilePath = none) :
    Keeps s { s.setDownload dl ({ · with downloadedFilePath := some s.next }) with
      files := s.files ++ [s.next], next := s.next + 1 } := by
  intro hs
  have hchange : Change s { s.setDownload dl ({ · with downloadedFilePath := some s.next }) with
      files := s.files ++ [s.next], next :=
        s.next + 1 } id dl (some t) (some { d with downloadedFilePath := some s.next }) := {
    tokens := fun i => by
      split
      · rename_i hi
        exact hi ▸ h.token
      · rfl
    downloads := setDownload_at h.download _
    url := fun u hu j v hj hv => by
      obtain rfl := Option.some.inj hu
      exact h.url hs j v hj hv
    delegate := fun e he => by
      obtain rfl := Option.some.inj he
      exact ⟨h.delegate, t, rfl, h.current⟩
    current := fun u c hu hc => by
      obtain rfl := Option.some.inj hu
      exact ⟨Option.some.inj (hc.symm.trans h.current), _, rfl⟩
    onlyDownload := h.onlyDownload hs
    onlyToken := h.onlyToken hs
    status := fun u hu => by
      obtain rfl := Option.some.inj hu
      exact hs.status id t h.token
    apart := fun f hf hnew => by
      obtain rfl := Option.some.inj hnew
      exact (hs.fresh s.next (Nat.le_refl _)).2.2 (h.mem_token hs hf)
    origin := fun f hf => by
      obtain hf | hf := hf
      · exact ⟨List.mem_append_left _ (h.mem_token hs hf), .inl ((fileOf_token h.token).trans hf)⟩
      · obtain rfl := Option.some.inj hf
        exact ⟨List.mem_append_right _ (List.mem_singleton_self _), .inr (.inr (Nat.le_refl _))⟩
    kept := fun f hf _ _ => List.mem_append_left _ hf
    next := Nat.le_succ _
    numbers := ⟨fun _ => Nat.lt_succ_of_lt (hs.token_lt h.token), fun _ =>
      Nat.lt_succ_of_lt (hs.download_lt h.download), fun f hf => by
      obtain hf | hf := List.mem_append.mp hf
      · exact .inl hf
      · exact .inr (List.mem_singleton.mp hf ▸ Nat.lt_succ_self _)⟩ }
  refine ⟨hchange.consistent hs, fun htidy => hchange.tidy htidy (fun f hf => ?_) fun u hu => ?_⟩
  · rw [fileOf_token h.token, fileOf_download h.download, Option.bind_some, Option.bind_some, hnone]
    obtain hf | hf := List.mem_append.mp hf
    · by_cases ht : t.downloadedFilePath = some f
      · exact .inl ht
      · exact .inr (.inr ⟨hf, ht, (Option.some_ne_none f).symm⟩)
    · exact .inr (.inl (congrArg some (List.mem_singleton.mp hf).symm))
  · obtain rfl := Option.some.inj hu
    exact htidy.noFile id t h.token

-- A token without a download

theorem onlyDownload_of_idle (hs : Consistent s) (ht : ∀ t, s.tokensArray.find id = some t →
    t.currentDownload = none)
    (k : Nat) (hk : s.downloads.find k = some d) : d.delegate ≠ id := by
  intro hid
  obtain ⟨t, htoken, hcurrent⟩ := hs.delegate k d hk
  rw [ht t (hid ▸ htoken)] at hcurrent
  cases hcurrent

theorem onlyToken_of_fresh (hs : Consistent s) (hdl : s.downloads.find dl = none)
    (i : Nat) (t : BSIPIToken)
    (hi : s.tokensArray.find i = some t) : t.currentDownload ≠ some dl := by
  intro hcurrent
  obtain ⟨d, hd, -⟩ := hs.current i t dl hi hcurrent
  rw [hdl] at hd
  cases hd

theorem keeps_removeToken (ht : s.tokensArray.find id = some t) (hidle : t.currentDownload = none) :
    Keeps s (s.removeToken id) := by
  intro hs
  obtain ⟨-, hfresh, -⟩ := hs.fresh s.next (Nat.le_refl _)
  have hfiles : ∀ f, f ∈ (s.removeToken id).files ↔ f ∈ s.files ∧ some f ≠
    t.downloadedFilePath := by
    intro f
    rw [← fileOf_token ht]
    exact mem_removeFileAtPath
  have hchange : Change s (s.removeToken id) id s.next none none := {
    tokens := find_removeToken s id
    downloads := fun k => by
      split
      · rename_i hk
        exact hk ▸ hfresh
      · rfl
    url := fun u hu => by cases hu
    delegate := fun e he => by cases he
    current := fun u c hu => by cases hu
    onlyDownload := fun k d hk hid => absurd hid (onlyDownload_of_idle hs
      (fun u hu => Option.some.inj (ht.symm.trans hu) ▸ hidle) k hk)
    onlyToken := fun i u hi hc => absurd hc (onlyToken_of_fresh hs hfresh i u hi)
    status := fun u hu => by cases hu
    apart := fun f hf => by cases hf
    origin := fun f hf => by obtain hf | hf := hf <;> cases hf
    kept := fun f hf hid _ => (hfiles f).mpr ⟨hf, fun heq => hid ((fileOf_token ht).trans heq.symm)⟩
    next := Nat.le_refl _
    numbers := ⟨fun hx => absurd rfl hx, fun hy => absurd rfl hy, fun f hf =>
      .inl ((hfiles f).mp hf).1⟩ }
  refine ⟨hchange.consistent hs, fun htidy => hchange.tidy htidy (fun f hf => ?_) fun u hu => ?_⟩
  · obtain ⟨hmem, hne⟩ := (hfiles f).mp hf
    refine .inr (.inr ⟨hmem, fun heq => hne ((fileOf_token ht).symm.trans heq).symm, fun heq => ?_⟩)
    rw [fileOf, hfresh] at heq
    cases heq
  · cases hu

theorem keeps_tokenDidFailDownload (ht : s.tokensArray.find id = some t)
    (hidle : t.currentDownload = none) :
    Keeps s (s.tokenDidFailDownload id) := by
  rw [tokenDidFailDownload]
  split
  · exact fun hs => ⟨hs, fun h => h⟩
  · exact keeps_removeToken ht hidle

theorem consistent_start (hs : Consistent s) (s' : BSIPIHistoryManager)
    (hfresh : s.downloads.find dl = none)
    (hidle : ∀ u, s.tokensArray.find id = some u → u.currentDownload = none)
    (htokens : ∀ i, s'.tokensArray.find i = if i = id then some t else s.tokensArray.find i)
    (hdownloads : ∀ k, s'.downloads.find k = if k = dl then some ⟨id, none, 0, none⟩
      else s.downloads.find k)
    (hfiles : s'.files = s.files) (hnext : s.next ≤ s'.next) (hid : id < s'.next)
    (hdl : dl < s'.next)
    (hurl : ∀ j u, j ≠ id → s.tokensArray.find j = some u → t.sourceURL ≠ u.sourceURL)
    (hcurrent : t.currentDownload = some dl) (hstatus : t.statusMessage.isProgress = true)
    (hpath : t.downloadedFilePath = s.fileOf (.token id)) :
    Consistent s' ∧ (Tidy s → t.downloadedFilePath = none → Tidy s') := by
  have hfile : s.fileOf (.download dl) = none := by
    rw [fileOf, hfresh, Option.bind_none]
  have hchange : Change s s' id dl (some t) (some ⟨id, none, 0, none⟩) := {
    tokens := htokens
    downloads := hdownloads
    url := fun u hu j v hj hv => by
      obtain rfl := Option.some.inj hu
      exact hurl j v hj hv
    delegate := fun e he => by
      obtain rfl := Option.some.inj he
      exact ⟨rfl, t, rfl, hcurrent⟩
    current := fun u c hu hc => by
      obtain rfl := Option.some.inj hu
      exact ⟨Option.some.inj (hc.symm.trans hcurrent), _, rfl⟩
    onlyDownload := fun k d hk hid => absurd hid (onlyDownload_of_idle hs hidle k hk)
    onlyToken := fun i u hi hc => absurd hc (onlyToken_of_fresh hs hfresh i u hi)
    status := fun u hu => by
      obtain rfl := Option.some.inj hu
      rw [BSIPIToken.isDownloading, hcurrent, hstatus]
      rfl
    apart := fun f _ hf => by cases hf
    origin := fun f hf => by
      obtain hf | hf := hf
      · have hown : s.fileOf (.token id) = some f := hpath.symm.trans hf
        exact ⟨hfiles ▸ hs.files _ f hown, .inl hown⟩
      · cases hf
    kept := fun f hf _ _ => hfiles ▸ hf
    next := hnext
    numbers := ⟨fun _ => hid, fun _ => hdl, fun f hf => .inl (hfiles ▸ hf)⟩ }
  refine ⟨hchange.consistent hs, fun htidy hnone => hchange.tidy htidy (fun f hf => ?_)
    fun u hu _ => ?_⟩
  · rw [← hpath, hfile, hnone]
    exact .inr (.inr ⟨hfiles ▸ hf, (Option.some_ne_none f).symm, (Option.some_ne_none f).symm⟩)
  · obtain rfl := Option.some.inj hu
    exact hnone

/-- A token gets a new download; a file that it has is left over when that is finished. -/
theorem consistent_retryDownload (hs : Consistent s) (id : Nat) :
    Consistent (s.retryDownload id) ∧ (Tidy s →
      (∀ t, s.tokensArray.find id = some t → t.isDownloading = true ∨ t.downloadedFilePath = none) →
        Tidy (s.retryDownload id)) := by
  rw [retryDownload]
  split
  · exact ⟨hs, fun h _ => h⟩
  · rename_i t ht
    split
    · exact ⟨hs, fun h _ => h⟩
    · rename_i hidle
      split
      · exact ⟨hs, fun h _ => h⟩
      · rename_i downloads hinsert
        obtain ⟨-, hfresh, -⟩ := hs.fresh s.next (Nat.le_refl _)
        have hcurrent : t.currentDownload = none := by
          rw [BSIPIToken.isDownloading, Option.isSome_iff_ne_none, not_not] at hidle
          exact hidle
        obtain ⟨hs', htidy⟩ := consistent_start (t := t.restarted s.next) hs
          { s.setToken id (·.restarted s.next) with
            downloads := downloads, next := s.next + 1 } hfresh
          (fun u hu => Option.some.inj (ht.symm.trans hu) ▸ hcurrent) (setToken_at ht _)
          (fun k => Table.find_insert hinsert)
          rfl (Nat.le_succ _) (Nat.lt_succ_of_lt (hs.token_lt ht)) (Nat.lt_succ_self _)
          (fun j v hj hv hurl => hj (hs.url j id v t hv ht hurl.symm)) rfl rfl
          (fileOf_token ht).symm
        refine ⟨hs', fun h hnoFile => htidy h ?_⟩
        exact (hnoFile t ht).resolve_left hidle

theorem keeps_showImageWithURL (imageURL : NSString) : Keeps s (s.showImageWithURL imageURL) := by
  intro hs
  rw [showImageWithURL]
  split
  · exact ⟨hs, fun h => h⟩
  · rename_i hnone
    split
    · rename_i tokens downloads hinsert hinsert'
      have hfresh := hs.fresh s.next (Nat.le_refl _)
      have hfresh' := hs.fresh (s.next + 1) (Nat.le_succ _)
      have hnew : ∀ j u, s.tokensArray.find j = some u → u.sourceURL ≠ imageURL := by
        intro j u hu hurl
        have hnot := List.findIdx?_eq_none_iff.mp hnone (j, u) (Table.find_eq_some.mp hu)
        rw [hurl, beq_self_eq_true] at hnot
        cases hnot
      have hfile : s.fileOf (.token s.next) = none := by
        rw [fileOf, hfresh.1, Option.bind_none]
      obtain ⟨hs', htidy⟩ := consistent_start hs
        { s with tokensArray := tokens, downloads := downloads, next := s.next + 2 } hfresh'.2.1
        (fun u hu => by rw [hfresh.1] at hu; cases hu) (fun i => Table.find_insert hinsert)
        (fun k => Table.find_insert hinsert') rfl (Nat.le_add_right _ 2)
        (Nat.lt_add_of_pos_right (by decide))
        (Nat.lt_succ_self _) (fun j v _ hv => (hnew j v hv).symm) rfl rfl hfile.symm
      exact ⟨hs', fun h => htidy h rfl⟩
    · exact ⟨hs, fun h => h⟩

theorem keeps_foldl {α : Type} {g : BSIPIHistoryManager → α → BSIPIHistoryManager}
    (hg : ∀ s a, Keeps s (g s a))
    (as : List α) (s : BSIPIHistoryManager) : Keeps s (as.foldl g s) := by
  induction as generalizing s with
  | nil => exact fun hs => ⟨hs, fun h => h⟩
  | cons a as ih => exact (hg s a).trans (ih (g s a))

end BSIPIHistoryManager

end BathyScaphe.Previewer
