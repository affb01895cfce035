import BathyScaphe.Lib.Run
import Mathlib.Data.Finset.Basic

/-!
# Downloads in progress

`CMRDownloader` puts the URL of its resource into `CMRNetGrobalLock` when a load
starts and takes it out in `didFinishLoading`, which every way of ending a load
leads to. Both ask for the URL anew, and it depends on the URL that the board has
at that time. A load that fails shows an alert first, whose modal loop takes
further events.

A connection is open until it is cancelled or has delivered its end; callbacks
come from open connections only.
-/

namespace BathyScaphe.Network

/-- What the downloaders are, and what processing makes of the data they get. -/
structure Downloaders (δ β υ : Type) where
  board : δ → β
  /-- `datURLWithBoard:datName:` -/
  datURL : υ → δ → υ
  /-- `dataProcess:withConnector:` raises on this data. -/
  raises : δ → List UInt8 → Bool

structure Downloader (υ : Type) where
  isInProgress : Bool := false
  currentConnector : Option Nat := none
  resourceData : List UInt8 := []
  /-- The URL that the last load put into the lock. -/
  added : Option υ := none
  /-- How many loads were started, and how often `didFinishLoading` ran. -/
  started : Nat := 0
  finished : Nat := 0

/-- A downloader whose load has just started, with its connection and its URL. -/
def Downloader.startedWith (x : Downloader υ) (c : Nat) (url : υ) : Downloader υ :=
  { x with
    isInProgress := true
    currentConnector := some c
    resourceData := []
    added := some url
    started := x.started + 1 }

def Downloader.done (x : Downloader υ) : Downloader υ :=
  { x with
    isInProgress := false
    currentConnector := none
    resourceData := []
    finished := x.finished + 1 }

structure State (δ β υ : Type) where
  boardURL : β → υ
  /-- `m_requests` of the lock. -/
  requests : Finset υ
  downloader : δ → Downloader υ
  /-- The open connections, with their delegates. -/
  connections : Nat → Option δ
  nextConnection : Nat
  /-- The failure alerts that are shown, the innermost first. -/
  alerts : List δ

inductive Event (δ β υ : Type) where
  | loadInBackground (d : δ)
  /-- `willSendRequest:redirectResponse:` with a redirect. -/
  | redirect (c : Nat) (status : Nat)
  | didReceiveResponse (c : Nat) (status : Nat)
  | didReceiveData (c : Nat) (data : List UInt8)
  | didFinish (c : Nat)
  | didFail (c : Nat)
  /-- The modal loop of the innermost alert ends. -/
  | alertEnds
  | cancelDownload (d : δ)
  | changeBoardURL (b : β) (url : υ)

variable {δ β υ : Type} (net : Downloaders δ β υ)

namespace State

section
variable [DecidableEq δ] [DecidableEq β] [DecidableEq υ]

def initial (boardURL : β → υ) : State δ β υ := ⟨boardURL, ∅, fun _ => {}, fun _ => none, 0, []⟩

def resourceURL (s : State δ β υ) (d : δ) : υ := net.datURL (s.boardURL (net.board d)) d

def setDownloader (s : State δ β υ) (d : δ) (x : Downloader υ) : State δ β υ :=
  { s with downloader := Function.update s.downloader d x }

def close (s : State δ β υ) (c : Nat) : State δ β υ :=
  { s with connections := Function.update s.connections c none }

def closeCurrent (s : State δ β υ) : Option Nat → State δ β υ
  | some c => s.close c
  | none => s

def startLoading (s : State δ β υ) (d : δ) (url : υ) : State δ β υ :=
  { s.setDownloader d ((s.downloader d).startedWith s.nextConnection url) with
    requests := insert url s.requests
    connections := Function.update s.connections s.nextConnection (some d)
    nextConnection := s.nextConnection + 1 }

def loadInBackground (s : State δ β υ) (d : δ) : State δ β υ :=
  if s.resourceURL net d ∈ s.requests then s else s.startLoading d (s.resourceURL net d)

def didFinishLoading (s : State δ β υ) (d : δ) : State δ β υ :=
  { s.setDownloader d (s.downloader d).done with
    requests := s.requests.erase (s.resourceURL net d) }

def cancelDownload (s : State δ β υ) (d : δ) : State δ β υ :=
  if (s.downloader d).isInProgress then
    (s.closeCurrent (s.downloader d).currentConnector).didFinishLoading net d
  else s

/-- `didReceiveResponse:`; the branches for 302, 304, 416 and the rest differ in the
message and the notification. -/
def didReceiveResponse (s : State δ β υ) (c : Nat) (d : δ) (status : Nat) : State δ β υ :=
  if status = 200 ∨ status = 206 then s else (s.close c).didFinishLoading net d

def redirect (s : State δ β υ) (c : Nat) (d : δ) (status : Nat) : State δ β υ :=
  if status = 302 then (s.close c).didFinishLoading net d else s

def didReceiveData (s : State δ β υ) (d : δ) (data : List UInt8) : State δ β υ :=
  s.setDownloader d { s.downloader d with resourceData := (s.downloader d).resourceData ++ data }

/-- `connectionDidFinishLoading:`, left by the exception where processing raises. -/
def didFinish (s : State δ β υ) (c : Nat) (d : δ) : State δ β υ :=
  if net.raises d (s.downloader d).resourceData then s.close c
  else (s.close c).didFinishLoading net d

def didFail (s : State δ β υ) (c : Nat) (d : δ) : State δ β υ :=
  { s.close c with alerts := d :: s.alerts }

def changeBoardURL (s : State δ β υ) (b : β) (url : υ) : State δ β υ :=
  { s with boardURL := Function.update s.boardURL b url }

def step (s : State δ β υ) : Event δ β υ → Option (State δ β υ)
  | .loadInBackground d => some (s.loadInBackground net d)
  | .redirect c status => (s.connections c).map fun d => s.redirect net c d status
  | .didReceiveResponse c status => (s.connections c).map fun d =>
      s.didReceiveResponse net c d status
  | .didReceiveData c data => (s.connections c).map fun d => s.didReceiveData d data
  | .didFinish c => (s.connections c).map fun d => s.didFinish net c d
  | .didFail c => (s.connections c).map fun d => s.didFail c d
  | .alertEnds =>
    match s.alerts with
    | [] => none
    | d :: alerts => some ({ s with alerts := alerts }.didFinishLoading net d)
  | .cancelDownload d => some (s.cancelDownload net d)
  | .changeBoardURL b url => some (s.changeBoardURL b url)

end

-- The lock

/-- A URL is in the lock exactly while a downloader that added it is in progress,
no two of them share one, and every load that was started has finished once or is
still going to. -/
structure Locked (s : State δ β υ) : Prop where
  held : ∀ u, u ∈ s.requests ↔
    ∃ d, (s.downloader d).isInProgress = true ∧ (s.downloader d).added = some u
  alone : ∀ d d' u, (s.downloader d).isInProgress = true → (s.downloader d').isInProgress = true →
    (s.downloader d).added = some u → (s.downloader d').added = some u → d = d'
  once : ∀ d, (s.downloader d).started =
    (s.downloader d).finished + (s.downloader d).isInProgress.toNat
  pending : ∀ d, (s.downloader d).isInProgress = true →
    (∃ c, s.connections c = some d) ∨ d ∈ s.alerts

/-- What also holds, so that every step keeps it. The load of `d` alone may have
nothing left that ends it. -/
structure LockedBut (s : State δ β υ) (ended : δ → Prop) : Prop where
  held : ∀ u, u ∈ s.requests ↔
    ∃ d, (s.downloader d).isInProgress = true ∧ (s.downloader d).added = some u
  alone : ∀ d d' u, (s.downloader d).isInProgress = true → (s.downloader d').isInProgress = true →
    (s.downloader d).added = some u → (s.downloader d').added = some u → d = d'
  once : ∀ d, (s.downloader d).started =
    (s.downloader d).finished + (s.downloader d).isInProgress.toNat
  pending : ∀ d, (s.downloader d).isInProgress = true →
    ended d ∨ (∃ c, s.connections c = some d) ∨ d ∈ s.alerts
  connection : ∀ c d, s.connections c = some d → (s.downloader d).isInProgress = true ∧
    (s.downloader d).currentConnector = some c ∧ d ∉ s.alerts ∧ c < s.nextConnection
  alert : ∀ d, d ∈ s.alerts → (s.downloader d).isInProgress = true
  nodup : s.alerts.Nodup

def Inv (s : State δ β υ) : Prop := s.LockedBut fun _ => False

variable {s : State δ β υ} {d : δ} {c : Nat}

theorem Inv.locked (h : s.Inv) : s.Locked :=
  ⟨h.held, h.alone, h.once, fun d hd => (h.pending d hd).resolve_left id⟩

theorem inv_initial (boardURL : β → υ) : (initial boardURL : State δ β υ).Inv where
  held u := by simp [initial]
  alone d d' u hd := by simp [initial] at hd
  once d := rfl
  pending d hd := by simp [initial] at hd
  connection c d hc := by simp [initial] at hc
  alert d hd := by simp [initial] at hd
  nodup := List.nodup_nil

variable [DecidableEq δ]

theorem Inv.close (h : s.Inv) (hc : s.connections c = some d) : (s.close c).LockedBut (· = d) where
  held := h.held
  alone := h.alone
  once := h.once
  pending d' hd' := by
    by_cases heq : d' = d
    · exact .inl heq
    · obtain hfalse | ⟨c', hc'⟩ | halert := h.pending d' hd'
      · exact hfalse.elim
      · refine .inr (.inl ⟨c', ?_⟩)
        have hne : c' ≠ c := by
          rintro rfl
          rw [hc] at hc'
          exact heq (Option.some.inj hc').symm
        exact (Function.update_of_ne hne none s.connections).trans hc'
      · exact .inr (.inr halert)
  connection c' d' hc' := by
    by_cases heq : c' = c
    · subst heq
      simp [State.close] at hc'
    · have hkept : (s.close c).connections c' = s.connections c' := Function.update_of_ne heq ..
      exact h.connection c' d' (hkept.symm.trans hc')
  alert := h.alert
  nodup := h.nodup

theorem Inv.didFail (h : s.Inv) (hc : s.connections c = some d) : (s.didFail c d).Inv := by
  obtain ⟨hd, hcurrent, halert, -⟩ := h.connection c d hc
  have hclosed := h.close hc
  refine ⟨hclosed.held, hclosed.alone, hclosed.once, fun d' hd' => ?_, fun c' d' hc' => ?_,
    fun d' hd' => ?_, List.nodup_cons.mpr ⟨halert, h.nodup⟩⟩
  · obtain rfl | hpending | halert' := hclosed.pending d' hd'
    · exact .inr (.inr List.mem_cons_self)
    · exact .inr (.inl hpending)
    · exact .inr (.inr (List.mem_cons_of_mem d halert'))
  · obtain ⟨hd', hcurrent', halert', hlt⟩ := hclosed.connection c' d' hc'
    refine ⟨hd', hcurrent', fun hmem => ?_, hlt⟩
    obtain rfl | hmem := List.mem_cons.mp hmem
    · obtain rfl : c' = c := Option.some.inj (hcurrent'.symm.trans hcurrent)
      simp [State.didFail, State.close] at hc'
    · exact halert' hmem
  · obtain rfl | hd' := List.mem_cons.mp hd'
    · exact hd
    · exact h.alert d' hd'

theorem Inv.didReceiveData (h : s.Inv) (data : List UInt8) : (s.didReceiveData d data).Inv := by
  have hfields (d' : δ) : ((s.didReceiveData d data).downloader d').isInProgress =
        (s.downloader d').isInProgress ∧
      ((s.didReceiveData d data).downloader d').added = (s.downloader d').added ∧
      ((s.didReceiveData d data).downloader d').started = (s.downloader d').started ∧
      ((s.didReceiveData d data).downloader d').finished = (s.downloader d').finished ∧
      ((s.didReceiveData d data).downloader d').currentConnector =
        (s.downloader d').currentConnector := by
    by_cases heq : d' = d
    · subst heq
      simp [State.didReceiveData, setDownloader]
    · simp [State.didReceiveData, setDownloader, Function.update_of_ne heq]
  refine ⟨?_, ?_, ?_, ?_, ?_, ?_, h.nodup⟩ <;> simp only [hfields]
  · exact h.held
  · exact h.alone
  · exact h.once
  · exact h.pending
  · exact h.connection
  · exact h.alert

variable [DecidableEq υ]

theorem LockedBut.didFinishLoading (h : s.LockedBut (· = d))
    (hd : (s.downloader d).isInProgress = true)
    (hurl : (s.downloader d).added = some (s.resourceURL net d))
    (hc : ∀ c, s.connections c ≠ some d)
    (ha : d ∉ s.alerts) : (s.didFinishLoading net d).Inv := by
  have hself : (s.didFinishLoading net d).downloader d = (s.downloader d).done :=
    Function.update_self ..
  have hother (d' : δ) (hne : d' ≠ d) :
      (s.didFinishLoading net d).downloader d' = s.downloader d' := Function.update_of_ne hne ..
  have hne {d' : δ} (hd' : ((s.didFinishLoading net d).downloader d').isInProgress = true) :
    d' ≠ d := by
    rintro rfl
    rw [hself] at hd'
    cases hd'
  refine ⟨fun u => ?_, fun d₁ d₂ u h₁ h₂ hu₁ hu₂ => ?_, fun d' => ?_, fun d' hd' =>
    ?_, fun c d' hcd => ?_,
    fun d' hd' => ?_, h.nodup⟩
  · rw [show (s.didFinishLoading net d).requests = s.requests.erase (s.resourceURL net d) from rfl,
      Finset.mem_erase, h.held]
    constructor
    · rintro ⟨hu, d', hd', hu'⟩
      have hd'ne : d' ≠ d := by
        rintro rfl
        exact hu (Option.some.inj (hu'.symm.trans hurl))
      exact ⟨d', by rw [hother d' hd'ne]; exact hd', by rw [hother d' hd'ne]; exact hu'⟩
    · rintro ⟨d', hd', hu'⟩
      have hd'ne := hne hd'
      rw [hother d' hd'ne] at hd' hu'
      refine ⟨?_, d', hd', hu'⟩
      rintro rfl
      exact hd'ne (h.alone d' d _ hd' hd hu' hurl)
  · have hne₁ := hne h₁
    have hne₂ := hne h₂
    rw [hother d₁ hne₁] at h₁ hu₁
    rw [hother d₂ hne₂] at h₂ hu₂
    exact h.alone d₁ d₂ u h₁ h₂ hu₁ hu₂
  · by_cases heq : d' = d
    · subst heq
      have honce := h.once d'
      rw [hd] at honce
      rw [hself]
      exact honce
    · rw [hother d' heq]
      exact h.once d'
  · have hd'ne := hne hd'
    rw [hother d' hd'ne] at hd'
    obtain heq | hpending := h.pending d' hd'
    · exact absurd heq hd'ne
    · exact .inr hpending
  · have hd'ne : d' ≠ d := by
      rintro rfl
      exact hc c hcd
    rw [hother d' hd'ne]
    exact h.connection c d' hcd
  · have hd'ne : d' ≠ d := by
      rintro rfl
      exact ha hd'
    rw [hother d' hd'ne]
    exact h.alert d' hd'

-- One step

theorem Inv.close_didFinishLoading (h : s.Inv) (hc : s.connections c = some d)
    (hurl : (s.downloader d).added = some (s.resourceURL net d)) :
    ((s.close c).didFinishLoading net d).Inv := by
  obtain ⟨hd, hcurrent, halert, -⟩ := h.connection c d hc
  refine (h.close hc).didFinishLoading net hd hurl (fun c' hc' => ?_) halert
  have hcurrent' := ((h.close hc).connection c' d hc').2.1
  obtain rfl : c' = c := Option.some.inj (hcurrent'.symm.trans hcurrent)
  simp [State.close] at hc'

theorem Inv.cancelDownload (h : s.Inv) (ha : d ∉ s.alerts)
    (hurl : (s.downloader d).isInProgress = true →
      (s.downloader d).added = some (s.resourceURL net d)) :
    (s.cancelDownload net d).Inv := by
  unfold State.cancelDownload
  by_cases hd : (s.downloader d).isInProgress = true
  · rw [if_pos hd]
    obtain hfalse | ⟨c, hc⟩ | halert := h.pending d hd
    · exact hfalse.elim
    · rw [(h.connection c d hc).2.1]
      exact h.close_didFinishLoading net hc (hurl hd)
    · exact absurd halert ha
  · rw [if_neg hd]
    exact h

theorem Inv.alertEnds (h : s.Inv) (hs : s.alerts = d :: rest)
    (hurl : (s.downloader d).added = some (s.resourceURL net d)) :
    ({ s with alerts := rest }.didFinishLoading net d).Inv := by
  have hmem : d ∈ s.alerts := by simp [hs]
  have hnodup := h.nodup
  rw [hs, List.nodup_cons] at hnodup
  have hbut : { s with alerts := rest }.LockedBut (· = d) := by
    refine ⟨h.held, h.alone, h.once, fun d' hd' => ?_, fun c d' hc => ?_, fun d' hd' =>
      ?_, hnodup.2⟩
    · obtain hfalse | hc | halert := h.pending d' hd'
      · exact hfalse.elim
      · exact .inr (.inl hc)
      · rw [hs, List.mem_cons] at halert
        obtain rfl | halert := halert
        · exact .inl rfl
        · exact .inr (.inr halert)
    · obtain ⟨hd', hcurrent, halert, hlt⟩ := h.connection c d' hc
      exact ⟨hd', hcurrent, fun hmem => halert (hs ▸ List.mem_cons_of_mem d hmem), hlt⟩
    · exact h.alert d' (hs ▸ List.mem_cons_of_mem d hd')
  exact hbut.didFinishLoading net (h.alert d hmem) hurl
    (fun c hc => (h.connection c d hc).2.2.1 hmem) hnodup.1

theorem Inv.startLoading (h : s.Inv) (hidle : (s.downloader d).isInProgress = false)
    (hnew : url ∉ s.requests) : (s.startLoading d url).Inv := by
  have hself : (s.startLoading d url).downloader d =
    (s.downloader d).startedWith s.nextConnection url :=
    Function.update_self ..
  have hother (d' : δ) (hne : d' ≠ d) : (s.startLoading d url).downloader d' = s.downloader d' :=
    Function.update_of_ne hne ..
  have hopen : (s.startLoading d url).connections s.nextConnection = some d :=
    Function.update_self ..
  have hkept (c : Nat) (hne : c ≠ s.nextConnection) :
      (s.startLoading d url).connections c = s.connections c := Function.update_of_ne hne ..
  have hfree {d' : δ} (hd' : (s.downloader d').isInProgress = true) : d' ≠ d := by
    rintro rfl
    exact Bool.false_ne_true (hidle.symm.trans hd')
  have hadded {d' : δ} (hd' : (s.downloader d').isInProgress = true)
      (hu : (s.downloader d').added = some url) : False := hnew ((h.held url).mpr ⟨d', hd', hu⟩)
  refine ⟨fun u => ?_, fun d₁ d₂ u h₁ h₂ hu₁ hu₂ => ?_, fun d' => ?_, fun d' hd' =>
    ?_, fun c d' hc => ?_,
    fun d' hd' => ?_, h.nodup⟩
  · rw [show (s.startLoading d url).requests = insert url s.requests from rfl,
      Finset.mem_insert, h.held]
    constructor
    · rintro (rfl | ⟨d', hd', hu⟩)
      · exact ⟨d, by rw [hself]; rfl, by rw [hself]; rfl⟩
      · exact ⟨d',
          by rw [hother d' (hfree hd')]; exact hd', by rw [hother d' (hfree hd')]; exact hu⟩
    · rintro ⟨d', hd', hu⟩
      by_cases heq : d' = d
      · subst heq
        rw [hself] at hu
        exact .inl (Option.some.inj hu).symm
      · rw [hother d' heq] at hd' hu
        exact .inr ⟨d', hd', hu⟩
  · by_cases heq₁ : d₁ = d <;> by_cases heq₂ : d₂ = d
    · rw [heq₁, heq₂]
    · subst heq₁
      rw [hself] at hu₁
      rw [hother d₂ heq₂] at h₂ hu₂
      exact (hadded h₂ (hu₂.trans hu₁.symm)).elim
    · subst heq₂
      rw [hself] at hu₂
      rw [hother d₁ heq₁] at h₁ hu₁
      exact (hadded h₁ (hu₁.trans hu₂.symm)).elim
    · rw [hother d₁ heq₁] at h₁ hu₁
      rw [hother d₂ heq₂] at h₂ hu₂
      exact h.alone d₁ d₂ u h₁ h₂ hu₁ hu₂
  · by_cases heq : d' = d
    · subst heq
      have honce := h.once d'
      rw [hidle] at honce
      rw [hself]
      exact congrArg (· + 1) honce
    · rw [hother d' heq]
      exact h.once d'
  · by_cases heq : d' = d
    · subst heq
      exact .inr (.inl ⟨_, hopen⟩)
    · rw [hother d' heq] at hd'
      obtain hfalse | ⟨c, hc⟩ | halert := h.pending d' hd'
      · exact hfalse.elim
      · have hlt := (h.connection c d' hc).2.2.2
        exact .inr (.inl ⟨c, (hkept c (Nat.ne_of_lt hlt)).trans hc⟩)
      · exact .inr (.inr halert)
  · by_cases heq : c = s.nextConnection
    · subst heq
      obtain rfl : d = d' := Option.some.inj (hopen.symm.trans hc)
      rw [hself]
      refine ⟨rfl, rfl, fun hmem => ?_, Nat.lt_succ_self _⟩
      exact Bool.false_ne_true (hidle.symm.trans (h.alert d hmem))
    · rw [hkept c heq] at hc
      obtain ⟨hd', hcurrent, halert, hlt⟩ := h.connection c d' hc
      rw [hother d' (hfree hd')]
      exact ⟨hd', hcurrent, halert, Nat.lt_succ_of_lt hlt⟩
  · have hd'' := h.alert d' hd'
    rw [hother d' (hfree hd'')]
    exact hd''

theorem Inv.loadInBackground (h : s.Inv) (hurl : (s.downloader d).isInProgress = true →
    (s.downloader d).added = some (s.resourceURL net d)) : (s.loadInBackground net d).Inv := by
  unfold State.loadInBackground
  by_cases hmem : s.resourceURL net d ∈ s.requests
  · rw [if_pos hmem]
    exact h
  · rw [if_neg hmem]
    refine h.startLoading ?_ hmem
    cases hd : (s.downloader d).isInProgress with
    | false => rfl
    | true => exact absurd ((h.held _).mpr ⟨d, hd, hurl hd⟩) hmem

-- Runs

/-- The downloader, if it is in progress, has the URL that it put into the lock. -/
def Unmoved (s : State δ β υ) (d : δ) : Prop :=
  (s.downloader d).isInProgress = true → (s.downloader d).added = some (s.resourceURL net d)

/-- A downloader acts under the URL with which it started, processing does not
raise, and no one cancels a download whose failure alert is shown. -/
def Allowed (s : State δ β υ) : Event δ β υ → Prop
  | .loadInBackground d => s.Unmoved net d
  | .redirect c status => status = 302 → ∀ d, s.connections c = some d → s.Unmoved net d
  | .didReceiveResponse c status => status ≠ 200 → status ≠ 206 →
      ∀ d, s.connections c = some d → s.Unmoved net d
  | .didFinish c => ∀ d, s.connections c = some d → s.Unmoved net d ∧
      net.raises d (s.downloader d).resourceData = false
  | .alertEnds => ∀ d, s.alerts.head? = some d → s.Unmoved net d
  | .cancelDownload d => s.Unmoved net d ∧ d ∉ s.alerts
  | _ => True

variable [DecidableEq β]

theorem step_inv (h : s.Inv) (ha : s.Allowed net e) (hstep : s.step net e = some s') : s'.Inv := by
  cases e with
  | loadInBackground d =>
    obtain rfl := Option.some.inj hstep
    exact h.loadInBackground net ha
  | redirect c status =>
    obtain ⟨d, hc, rfl⟩ := Option.map_eq_some_iff.mp hstep
    unfold State.redirect
    by_cases hstatus : status = 302
    · rw [if_pos hstatus]
      exact h.close_didFinishLoading net hc (ha hstatus d hc (h.connection c d hc).1)
    · rw [if_neg hstatus]
      exact h
  | didReceiveResponse c status =>
    obtain ⟨d, hc, rfl⟩ := Option.map_eq_some_iff.mp hstep
    unfold State.didReceiveResponse
    by_cases hstatus : status = 200 ∨ status = 206
    · rw [if_pos hstatus]
      exact h
    · rw [if_neg hstatus]
      rw [not_or] at hstatus
      exact h.close_didFinishLoading net hc (ha hstatus.1 hstatus.2 d hc (h.connection c d hc).1)
  | didReceiveData c data =>
    obtain ⟨d, -, rfl⟩ := Option.map_eq_some_iff.mp hstep
    exact h.didReceiveData data
  | didFinish c =>
    obtain ⟨d, hc, rfl⟩ := Option.map_eq_some_iff.mp hstep
    obtain ⟨hurl, hraises⟩ := ha d hc
    unfold State.didFinish
    rw [hraises, if_neg Bool.false_ne_true]
    exact h.close_didFinishLoading net hc (hurl (h.connection c d hc).1)
  | didFail c =>
    obtain ⟨d, hc, rfl⟩ := Option.map_eq_some_iff.mp hstep
    exact h.didFail hc
  | alertEnds =>
    simp only [State.step] at hstep
    split at hstep
    · cases hstep
    · next d rest halerts =>
      obtain rfl := Option.some.inj hstep
      have hd : (s.downloader d).isInProgress = true := h.alert d (by simp [halerts])
      exact h.alertEnds net halerts (ha d (by simp [halerts]) hd)
  | cancelDownload d =>
    obtain rfl := Option.some.inj hstep
    exact h.cancelDownload net ha.2 ha.1
  | changeBoardURL b url =>
    obtain rfl := Option.some.inj hstep
    exact ⟨h.held, h.alone, h.once, h.pending, h.connection, h.alert, h.nodup⟩

/-- Along every run from the start in which every event is allowed, the lock holds
what it should. -/
theorem lock_holds (boardURL : β → υ)
    (hguard : Run.Guarded (State.step net) (State.Allowed net) (initial boardURL) events)
    (hrun : Run.run (State.step net) (initial boardURL) events = some s') : s'.Locked :=
  (Run.guarded_invariant (fun hs ha hstep => step_inv net hs ha hstep) hguard hrun
    (inv_initial boardURL)).locked

/-- Two downloaders of one thread, whose processing raises on empty data. -/
def oneThread : Downloaders Bool Unit Nat := ⟨fun _ => (), fun url _ => url, fun _ data =>
    data.isEmpty⟩

/-- The second downloader is refused while the first one loads, and loads, and fails,
after it. -/
theorem lock_holds_two : ∃ s, Run.run (State.step oneThread) (initial fun _ => 0)
    [.loadInBackground false, .loadInBackground true, .redirect 0 301, .didReceiveResponse 0 200,
      .didReceiveData 0 [65], .didFinish 0, .loadInBackground true, .didFail 1,
      .alertEnds] = some s ∧
    s.Locked := by
  obtain ⟨s, hrun⟩ : ∃ s, Run.run (State.step oneThread) (initial fun _ => 0)
      [.loadInBackground false, .loadInBackground true, .redirect 0 301, .didReceiveResponse 0 200,
        .didReceiveData 0 [65], .didFinish 0, .loadInBackground true, .didFail 1, .alertEnds] =
      some s := ⟨_, rfl⟩
  refine ⟨s, hrun, lock_holds oneThread (fun _ => 0) ?_ hrun⟩
  refine Run.guarded_cons rfl (fun h => (nomatch h)) ?_
  refine Run.guarded_cons rfl (fun h => (nomatch h)) ?_
  refine Run.guarded_cons rfl (fun h => absurd h (by decide)) ?_
  refine Run.guarded_cons rfl (fun h => absurd rfl h) ?_
  refine Run.guarded_cons rfl trivial ?_
  refine Run.guarded_cons rfl ?_ ?_
  · rintro d hd
    obtain rfl : false = d := Option.some.inj hd
    exact ⟨fun _ => rfl, rfl⟩
  refine Run.guarded_cons rfl (fun h => (nomatch h)) ?_
  refine Run.guarded_cons rfl trivial ?_
  refine Run.guarded_cons rfl ?_ trivial
  rintro d hd
  obtain rfl : true = d := Option.some.inj hd
  exact fun _ => rfl

/-- A download is cancelled while its alert is shown; a board moves while a download
is in progress; processing raises. -/
theorem not_lock_holds :
    (∃ s, Run.run (State.step oneThread) (initial fun _ => 0)
      [.loadInBackground false, .didFail 0, .cancelDownload false, .alertEnds] = some s ∧
        ¬ s.Locked) ∧
    (∃ s, Run.run (State.step oneThread) (initial fun _ => 0)
      [.loadInBackground false, .changeBoardURL () 1, .cancelDownload false] = some s ∧
        ¬ s.Locked) ∧
    ∃ s, Run.run (State.step oneThread) (initial fun _ => 0)
      [.loadInBackground false, .didFinish 0] = some s ∧ ¬ s.Locked := by
  refine ⟨⟨_, rfl, fun h => ?_⟩, ⟨_, rfl, fun h => ?_⟩, ⟨_, rfl, fun h => ?_⟩⟩
  · have honce := h.once false
    revert honce
    decide +kernel
  · obtain ⟨d, hd, -⟩ := (h.held 0).mp (by decide +kernel)
    revert d
    decide +kernel
  · obtain ⟨c, hc⟩ | halert := h.pending false (by decide +kernel)
    · cases c <;> cases hc
    · revert halert
      decide +kernel

end State

end BathyScaphe.Network
