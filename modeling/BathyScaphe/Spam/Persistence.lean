import BathyScaphe.Spam.Coding

/-!
# A detecter and the one that is read back

A sample that is read back is set up anew, by a detecter that has no board yet:
it is told by its ID, its host, its mail and its text, and never by its name.
The answers are kept by a run whose samples were marked in the same way when
they were added, and whose equal samples tell nothing that the first one of
them does not.
-/

namespace BathyScaphe.Spam.CMRSamplingDetecter

open NSString

-- The mask of a sample that is read back

def hasID (m : CMRThreadMessage) : Bool :=
  m.IDString.any fun id => !checkIDIsNonSignificant (stringByStriped id)

def hasHost (m : CMRThreadMessage) : Bool :=
  m.host.any fun host => 0 < (stringByStriped host).length

def hasMail (sv : DetecterServices) (m : CMRThreadMessage) : Bool :=
  !checkMailIsNonSignificant sv (plainText sv m.mail)

def loadedBits (id host mail : Bool) : UInt32 :=
  kSampleAsMessageMask |||
    (if id then kSampleAsIDMask else if mail then kSampleAsMailMask else 0) |||
    (if host then kSampleAsHostMask else 0)

def loadedMask (sv : DetecterServices) (m : CMRThreadMessage) : UInt32 :=
  loadedBits (hasID m) (hasHost m) (hasMail sv m)

def markedBits (id host : Bool) : UInt32 :=
  kSampleAsNameMask ||| kSampleAsMessageMask |||
    (if id then kSampleAsIDMask else 0) ||| (if host then kSampleAsHostMask else 0)

def markedMask (m : CMRThreadMessage) : UInt32 := markedBits (hasID m) (hasHost m)

def markedTable (table : CacheKey → Option Nat) (r : Nat) (m : CMRThreadMessage) :
    CacheKey → Option Nat := fun key =>
  if (hasID m = true ∧ stringKey m.IDString = some key) ∨
      (hasHost m = true ∧ stringKey m.host = some key) then some r
  else table key

section
variable {sv : DetecterServices} {d : CMRSamplingDetecter} {m : CMRThreadMessage} {r : Nat}

def initialMask : UInt32 :=
  kSampleAsAny &&& ~~~kSampleAsMailMask &&& ~~~kSampleAsHostMask &&& ~~~kSampleAsThreadLocalMask

theorem setupID_eq (setup : Setup) : setupID r m setup =
    if hasID m then setup.register r (stringKey m.IDString) else setup.clear kSampleAsIDMask := by
  cases hid : m.IDString with
  | none => simp [setupID, hasID, hid]
  | some id =>
    by_cases hsig : checkIDIsNonSignificant (stringByStriped id) = true <;>
      simp [setupID, hasID, hid, hsig]

theorem setupHost_eq (setup : Setup) : setupHost r m setup =
    if hasHost m then (setup.add kSampleAsHostMask).register r (stringKey m.host) else setup := by
  cases hhost : m.host with
  | none => simp [setupHost, hasHost, hhost]
  | some host => simp [setupHost, hasHost, hhost]

@[simp] theorem register_sign (setup : Setup) : (setup.register r key).sign = setup.sign := by
  cases key <;> rfl

theorem register_table (setup : Setup) (key : CacheKey) : (setup.register r key').table key =
    if key' = some key then some r else setup.table key := by
  cases key' with
  | none => simp [Setup.register]
  | some key' => simp [Setup.register, Function.update_apply, eq_comm]

theorem setupHost_setupID_eq (table : CacheKey → Option Nat) :
    setupHost r m (setupID r m ⟨table, initialMask⟩) = ⟨markedTable table r m, markedMask m⟩ := by
  have hsign : (setupHost r m (setupID r m ⟨table, initialMask⟩)).sign = markedMask m := by
    rw [setupHost_eq, setupID_eq, markedMask, markedBits]
    cases hasID m <;> cases hasHost m <;> simp [Setup.clear, Setup.add] <;> decide
  have htable : (setupHost r m (setupID r m ⟨table, initialMask⟩)).table =
    markedTable table r m := by
    funext key
    rw [setupHost_eq, setupID_eq, markedTable]
    cases hasID m <;> cases hasHost m
    · simp [Setup.clear]
    · simp [Setup.clear, Setup.add, register_table]
    · simp [register_table]
    · by_cases hid : stringKey m.IDString = some key <;> simp [Setup.add, register_table, hid]
  cases hsetup : setupHost r m (setupID r m ⟨table, initialMask⟩) with
  | mk table' sign' =>
    rw [hsetup] at hsign htable
    rw [hsign.symm, htable.symm]

theorem setupMail_sign {setup : Setup} (h : setup.sign = markedMask m &&& ~~~kSampleAsNameMask) :
    (setupMail sv m setup).sign = loadedMask sv m := by
  have hmail : checkMailIsNonSignificant sv (plainText sv m.mail) = !hasMail sv m := by
    simp [hasMail]
  obtain ⟨table, sign⟩ := setup
  obtain rfl : sign = _ := h
  simp only [setupMail, hmail, Setup.has, Setup.add, loadedMask, loadedBits, markedMask, markedBits]
  cases hasID m <;> cases hasHost m <;> cases hasMail sv m <;> rfl

-- Samples that are marked as if there were no board

def skipsName (sv : DetecterServices) (d : CMRSamplingDetecter) (m : CMRThreadMessage) : Bool :=
  !d.nanashiAllowed || containsObject d.noNameArray m.name ||
    checkNameIsNonSignificant (plainText sv m.name)

def isResLink (sv : DetecterServices) (m : CMRThreadMessage) : Bool :=
  checkNameHasResLink ((plainText sv m.name).getD [])

theorem setupName_eq (t : Option CMRThreadSignature) (setup : Setup) :
    setupName sv d r m t setup =
      if skipsName sv d m then setup.clear kSampleAsNameMask
      else if isResLink sv m then setupResLink d r m t setup
      else setup := by
  rw [setupName, skipsName, isResLink]
  by_cases hboard : (!d.nanashiAllowed || containsObject d.noNameArray m.name) = true
  · simp [hboard]
  · by_cases hname : checkNameIsNonSignificant (plainText sv m.name) = true
    · simp [hboard, hname]
    · simp [hboard, hname]

theorem markedMask_name : markedMask m &&& kSampleAsNameMask ≠ 0 := by
  have hbits : ∀ id host, markedBits id host &&& kSampleAsNameMask ≠ 0 := by decide
  exact hbits _ _

theorem clear_markedMask_name :
    markedMask m &&& ~~~kSampleAsNameMask &&& kSampleAsNameMask = 0 := by
  have hbits : ∀ id host,
      markedBits id host &&& ~~~kSampleAsNameMask &&& kSampleAsNameMask = 0 := by decide
  exact hbits _ _

/-- Whether a field tells the sample, before and after the name was ruled out. -/
theorem markedMask_told (mask : UInt32) (told : Bool → Bool → Bool)
    (hbits : ∀ id host, (markedBits id host &&& mask != 0) = told id host ∧
      (markedBits id host &&& ~~~kSampleAsNameMask &&& mask != 0) = told id host) :
    (markedMask m &&& mask != 0) = told (hasID m) (hasHost m) ∧
      (markedMask m &&& ~~~kSampleAsNameMask &&& mask != 0) = told (hasID m) (hasHost m) :=
  hbits _ _

theorem setupSample_eq : setupSample sv d r =
    let m := (d.objects r).message
    let setup := setupName sv d r m (d.objects r).threadIdentifier
      ⟨markedTable d.table r m, markedMask m⟩
    if setup.has kSampleAsNameMask then setupSecondName d r m setup else setupMail sv m setup := by
  simp only [← setupHost_setupID_eq]
  rfl

theorem setupSample_sign_skipsName (hm : (d.objects r).message = m)
    (hskips : skipsName sv d m = true) : (setupSample sv d r).sign = loadedMask sv m := by
  rw [setupSample_eq, hm]
  simp only [setupName_eq, hskips, if_true, Setup.has, Setup.clear, clear_markedMask_name]
  exact setupMail_sign rfl

theorem markedTable_thread (table : CacheKey → Option Nat) :
    markedTable table r m (.thread t) = table (.thread t) := by
  simp [markedTable, stringKey]

theorem setupResLink_sign (hother : ∀ tmp, (threadKey t).bind d.table = some tmp →
      isEqualToString (d.objects tmp).message.name m.name = false) :
    (setupResLink d r m t ⟨markedTable d.table r m, markedMask m⟩).sign =
      markedMask m &&& ~~~kSampleAsNameMask := by
  have htable : (threadKey t).bind (markedTable d.table r m) = (threadKey t).bind d.table := by
    cases t with
    | none => rfl
    | some t => exact markedTable_thread d.table
  simp only [setupResLink, Setup.clear, htable]
  split
  · rename_i tmp htmp
    simp [hother tmp htmp]
  · simp

theorem setupSample_sign_resLink (hm : (d.objects r).message = m)
    (ht : (d.objects r).threadIdentifier = t) (hskips : skipsName sv d m = false)
    (hlink : isResLink sv m = true)
    (hother : ∀ tmp, (threadKey t).bind d.table = some tmp →
      isEqualToString (d.objects tmp).message.name m.name = false) :
    (setupSample sv d r).sign = loadedMask sv m := by
  have hsign := setupResLink_sign (r := r) hother
  rw [setupSample_eq, hm, ht]
  simp only [setupName_eq, hskips, hlink, if_true, Bool.false_eq_true, if_false, Setup.has, hsign,
    clear_markedMask_name]
  exact setupMail_sign hsign

/-- The sample that is found by the name is the new one, or one with the same ID
or host. -/
theorem setupSecondName_sign (hid : hasID m = true ∨ hasHost m = true)
    (hsame : ∀ tmp, (stringKey m.name).bind (markedTable d.table r m) = some tmp →
      (d.objects tmp).message.property &&& kSampleAsNameMask ≠ 0 ∨
      (hasID m = true ∧ isEqualToString (d.objects tmp).message.IDString m.IDString = true) ∨
      (hasHost m = true ∧ isEqualToString (d.objects tmp).message.host m.host = true)) :
    (setupSecondName d r m ⟨markedTable d.table r m, markedMask m⟩).sign =
      markedMask m &&& ~~~kSampleAsNameMask := by
  obtain ⟨hhasID, hkeepsID⟩ :=
    markedMask_told (m := m) kSampleAsIDMask (fun id _ => id) (by decide)
  obtain ⟨hhasHost, hkeepsHost⟩ :=
    markedMask_told (m := m) kSampleAsHostMask (fun _ host => host) (by decide)
  have hcond : (hasID m || hasHost m) = true := by simpa using hid
  simp only [setupSecondName, Setup.has, Setup.clear, hhasID, hhasHost, hkeepsID, hkeepsHost, hcond,
    if_true]
  split
  · rename_i tmp htmp
    split
    · rename_i hname
      rcases hsame tmp htmp with hne | ⟨hm, heq⟩ | ⟨hm, heq⟩
      · exact absurd hname hne
      · simp [hm, heq]
      · simp [hm, heq]
    · simp
  · simp

theorem setupSample_sign_name (hm : (d.objects r).message = m) (hskips : skipsName sv d m = false)
    (hlink : isResLink sv m = false) (hid : hasID m = true ∨ hasHost m = true ∧
      hasMail sv m = false)
    (hsame : ∀ tmp, (stringKey m.name).bind (markedTable d.table r m) = some tmp →
      (d.objects tmp).message.property &&& kSampleAsNameMask ≠ 0 ∨
      (hasID m = true ∧ isEqualToString (d.objects tmp).message.IDString m.IDString = true) ∨
      (hasHost m = true ∧ isEqualToString (d.objects tmp).message.host m.host = true)) :
    (setupSample sv d r).sign = loadedMask sv m := by
  have hmask : markedMask m &&& ~~~kSampleAsNameMask = loadedMask sv m := by
    have hbits : ∀ id host mail, id = true ∨ host = true ∧ mail = false →
        markedBits id host &&& ~~~kSampleAsNameMask = loadedBits id host mail := by decide
    exact hbits _ _ _ hid
  rw [setupSample_eq, hm]
  simp only [setupName_eq, hskips, hlink, Bool.false_eq_true, if_false, Setup.has, bne_iff_ne,
    ne_eq, markedMask_name, not_false_eq_true, if_true]
  rw [setupSecondName_sign (hid.imp_right And.left) hsame, hmask]

-- Reading back

structure Canonical (sv : DetecterServices) (m : CMRThreadMessage) : Prop where
  marked : m.property = loadedMask sv m
  saved : m.status = m.flags

theorem Canonical.told (h : Canonical sv m) (mask : UInt32) (told : Bool → Bool → Bool → Bool)
    (hbits : ∀ id host mail, (mask &&& loadedBits id host mail != 0) = told id host mail) :
    (mask &&& m.property != 0) = told (hasID m) (hasHost m) (hasMail sv m) := by
  rw [h.marked]
  exact hbits _ _ _

theorem setProperty_property (m : CMRThreadMessage) : m.setProperty m.property = m := by
  have hflags : m.flags &&& ~~~MA_FL_USER_USED_MASK |||
      m.flags &&& MA_FL_USER_USED_MASK &&& MA_FL_USER_USED_MASK = m.flags := by
    rw [Flags.and_and_of_subset rfl, Flags.and_not_or_and]
  cases m
  simpa [CMRThreadMessage.setProperty, CMRThreadMessage.property] using hflags

theorem newSample_canonical {sample : CMRMessageSample} (hboard : d.nanashiAllowed = false)
    (h : Canonical sv sample.message) : newSample sv d sample = sample := by
  have hskips : skipsName sv { d.setObject d.nextObject sample with nextObject := d.nextObject + 1 }
      sample.message = true := by
    simp [skipsName, setObject, hboard]
  have hsign := setupSample_sign_skipsName (r := d.nextObject) (by simp [setObject]) hskips
  have hmessage := setProperty_property sample.message
  simp only [newSample, Nat.add_sub_cancel, hsign, ← h.marked, hmessage]

-- Equal samples

def sameBoard (t₁ t₂ : Option CMRThreadSignature) : Bool :=
  t₁.isSome && t₁ == t₂ || isEqualToString (t₁.map (·.boardName)) (t₂.map (·.boardName))

def sampleMatches (sample : CMRMessageSample) (m : CMRThreadMessage)
    (t : Option CMRThreadSignature) (noNames : Option (List NSString)) : Bool :=
  doDetectMessageAny sample.message sample.threadIdentifier m t noNames != 0

theorem ite_mask_iff {c : Prop} [Decidable c] {mask rest : UInt32} (hmask : mask ≠ 0) :
    ((if c then mask else rest) != 0) = true ↔ c ∨ (rest != 0) = true := by
  by_cases hc : c <;> simp [hc, hmask]

theorem sampleMatches_iff {sample : CMRMessageSample} (h : Canonical sv sample.message) :
    sampleMatches sample m t noNames = true ↔
      (sameBoard sample.threadIdentifier t = true ∧ hasID sample.message = true ∧
        isEqualToString sample.message.IDString m.IDString = true) ∨
      (sameBoard sample.threadIdentifier t = true ∧ hasHost sample.message = true ∧
        1 < (sample.message.host.getD []).length ∧
        isEqualToString sample.message.host m.host = true) ∨
      (hasID sample.message = false ∧ hasMail sv sample.message = true ∧
        isEqualToString sample.message.mail m.mail = true) ∨
      isEqualToString sample.message.messageSource m.messageSource = true := by
  have hid := h.told kSampleAsIDMask (fun id _ _ => id) (by decide)
  have hhost := h.told kSampleAsHostMask (fun _ host _ => host) (by decide)
  have hlocal := h.told kSampleAsThreadLocalMask (fun _ _ _ => false) (by decide)
  have hname := h.told kSampleAsNameMask (fun _ _ _ => false) (by decide)
  have hmail := h.told kSampleAsMailMask (fun id _ mail => !id && mail) (by decide)
  have hmessage := h.told kSampleAsMessageMask (fun _ _ _ => true) (by decide)
  simp only [sampleMatches, doDetectMessageAny, hid, hhost, hlocal, hname, hmail, hmessage]
  rw [← sameBoard, ite_mask_iff (by decide), ite_mask_iff (by decide), ite_mask_iff (by decide),
    ite_mask_iff (by decide), ite_mask_iff (by decide), ite_mask_iff (by decide)]
  simp [and_assoc]

/-- A later sample that tells nothing the earlier one does not: neither by its
host nor by its mail. -/
structure Covers (sv : DetecterServices) (m m' : CMRThreadMessage) : Prop where
  host : hasHost m' = true → 1 < (m'.host.getD []).length → m.host = m'.host
  mail : hasID m' = false → hasMail sv m' = true → m.mail = m'.mail

theorem isEqualToString_eq (h : isEqualToString s s' = true) : s = s' := by
  simpa using (Bool.and_eq_true_iff.mp h).2

theorem isEqual_fields {sample sample' : CMRMessageSample} (h : sample.isEqual sample' = true) :
    sample.threadIdentifier = sample'.threadIdentifier ∧
      sample.message.IDString = sample'.message.IDString ∧
      sample.message.messageSource = sample'.message.messageSource := by
  simp only [CMRMessageSample.isEqual, Bool.and_eq_true, beq_iff_eq] at h
  obtain ⟨⟨⟨⟨-, hthread⟩, -⟩, hid⟩, hsource⟩ := h
  exact ⟨hthread, isEqualToString_eq hid, isEqualToString_eq hsource⟩

theorem sampleMatches_of_covers {sample sample' : CMRMessageSample}
    (h : Canonical sv sample.message) (h' : Canonical sv sample'.message)
    (hequal : sample.isEqual sample' = true) (hcovers : Covers sv sample.message sample'.message)
    (hmatches : sampleMatches sample' m t noNames = true) :
    sampleMatches sample m t noNames = true := by
  obtain ⟨hthread, hid, hsource⟩ := isEqual_fields hequal
  have hhasID : hasID sample.message = hasID sample'.message := by rw [hasID, hasID, hid]
  rw [sampleMatches_iff h, hthread, hid, hsource, hhasID]
  rcases (sampleMatches_iff h').mp hmatches with hm | ⟨hboard, hhost, hlen, heq⟩ |
    ⟨hnoID, hmail, heq⟩ | hm
  · exact .inl hm
  · have hsame := hcovers.host hhost hlen
    have hhasHost : hasHost sample.message = true := by rwa [hasHost, hsame, ← hasHost]
    exact .inr (.inl ⟨hboard, hhasHost, hsame ▸ hlen, hsame ▸ heq⟩)
  · have hsame := hcovers.mail hnoID hmail
    have hhasMail : hasMail sv sample.message = true := by rwa [hasMail, hsame, ← hasMail]
    exact .inr (.inr (.inl ⟨hnoID, hhasMail, hsame ▸ heq⟩))
  · exact .inr (.inr (.inr hm))

-- What is kept

/-- The answers of two detecters on every board and with every corpus. -/
def SameAnswers (sv : DetecterServices) (d d' : CMRSamplingDetecter) : Prop :=
  ∀ noNames allowed corpus m t,
    (((d.setWorkingBoard noNames allowed).setCorpus corpus).detectMessage sv m t).map Prod.fst =
      (((d'.setWorkingBoard noNames allowed).setCorpus corpus).detectMessage sv m t).map Prod.fst

/-- Reading back what was saved gives the same answers and the saved samples. -/
def Persists (sv : DetecterServices) (d : CMRSamplingDetecter) (now : Int) : Prop :=
  ∃ d', initWithPropertyListRepresentation sv d.propertyListRepresentation now = some d' ∧
    SameAnswers sv d d' ∧
    d'.samples.map d'.objects = d.sampleArrayByCompacting.map d.objects

theorem sameAnswers (h : Inv d) (h' : Inv d')
    (hsame : ∀ m t noNames, (∃ r ∈ d.samples, sampleMatches (d.objects r) m t noNames = true) ↔
      ∃ r ∈ d'.samples, sampleMatches (d'.objects r) m t noNames = true) :
    SameAnswers sv d d' := by
  intro noNames allowed corpus m t
  have hset {d : CMRSamplingDetecter} (h : Inv d) :
      Inv ((d.setWorkingBoard noNames allowed).setCorpus corpus) :=
    ⟨h.listed, h.keyed, h.allocated⟩
  rw [(hset h).answer, (hset h').answer]
  exact if_congr (hsame m t noNames) rfl rfl

theorem addNewMessageSample_map (h : Inv d) (sample : CMRMessageSample) :
    (d.addNewMessageSample sv sample).samples.map (d.addNewMessageSample sv sample).objects =
      d.samples.map d.objects ++ [newSample sv d sample] := by
  have hsamples : (d.addNewMessageSample sv sample).samples = d.samples ++ [d.nextObject] := rfl
  rw [hsamples, addNewMessageSample_objects, List.map_append, List.map_singleton,
    Function.update_self]
  congr 1
  refine List.map_congr_left fun r hr => ?_
  rw [Function.update_of_ne (h.allocated hr).ne]

theorem addSamplesOfRepresentation_map {saved : List CMRMessageSample} (now : Int) (h : Inv d)
    (hboard : d.nanashiAllowed = false) (hsaved : ∀ sample ∈ saved, Canonical sv sample.message) :
    ∃ d', addSamplesOfRepresentation sv now (saved.map (·.propertyListRepresentation)) d = some d' ∧
      Inv d' ∧ d'.samples.map d'.objects = d.samples.map d.objects ++ saved := by
  induction saved generalizing d with
  | nil => exact ⟨d, rfl, h, (List.append_nil _).symm⟩
  | cons sample saved ih =>
    have hsample := hsaved sample List.mem_cons_self
    have hread := sample.objectWithPropertyListRepresentation_representation now hsample.saved
    obtain ⟨d', hadd, hinv, hmap⟩ := ih (h.addNewMessageSample sv sample) hboard
      fun sample' hsample' => hsaved sample' (List.mem_cons_of_mem sample hsample')
    refine ⟨d', ?_, hinv, ?_⟩
    · rw [List.map_cons, addSamplesOfRepresentation, hread, Option.bind_some, hadd]
    · rw [hmap, addNewMessageSample_map h, newSample_canonical hboard hsample, List.append_assoc,
        List.singleton_append]

structure Kept (sv : DetecterServices) (d : CMRSamplingDetecter) : Prop where
  inv : Inv d
  canonical : ∀ {r}, r ∈ d.samples → Canonical sv (d.objects r).message
  covered : d.samples.Pairwise fun r r' =>
    (d.objects r).isEqual (d.objects r') = true → Covers sv (d.objects r).message
    (d.objects r').message

theorem Kept.exists_compacted (h : Kept sv d) (hr : r ∈ d.samples)
    (hmatches : sampleMatches (d.objects r) m t noNames = true) :
    ∃ r' ∈ d.sampleArrayByCompacting, sampleMatches (d.objects r') m t noNames = true := by
  have hpairwise : ([] ++ d.samples).Pairwise fun r r' => d.isEqualSample r r' = true →
      r = r' ∨ ((d.objects r).isEqual (d.objects r') = true ∧
        Covers sv (d.objects r).message (d.objects r').message) := by
    refine h.covered.imp fun {r r'} hcovers hequal => ?_
    rcases Bool.or_eq_true_iff.mp hequal with hequal | hequal
    · exact .inl (beq_iff_eq.mp hequal)
    · exact .inr ⟨hequal, hcovers hequal⟩
  rcases compactSamples_covers hpairwise r hr with hkept | ⟨r', hkept, -, rfl | ⟨hequal, hcovers⟩⟩
  · exact ⟨r, mem_sampleArrayByCompacting.mpr hkept, hmatches⟩
  · exact ⟨r', mem_sampleArrayByCompacting.mpr hkept, hmatches⟩
  · have hr' := mem_sampleArrayByCompacting.mpr hkept
    exact ⟨r', hr', sampleMatches_of_covers (h.canonical (sampleArrayByCompacting_subset hr'))
      (h.canonical hr) hequal hcovers hmatches⟩

/-- The detecter that is read back has the saved samples, and it is kept in its
turn. -/
theorem Kept.load (h : Kept sv d) (now : Int) :
    ∃ d', initWithPropertyListRepresentation sv d.propertyListRepresentation now = some d' ∧
      Kept sv d' ∧ d'.samples.map d'.objects = d.sampleArrayByCompacting.map d.objects := by
  have hsaved : ∀ sample ∈ d.sampleArrayByCompacting.map d.objects,
    Canonical sv sample.message := by
    intro sample hsample
    obtain ⟨r, hr, rfl⟩ := List.mem_map.mp hsample
    exact h.canonical (sampleArrayByCompacting_subset hr)
  obtain ⟨d', hload, hinv, hmap⟩ := addSamplesOfRepresentation_map now inv_init rfl hsaved
  rw [List.map_map] at hload
  have hmap : d'.samples.map d'.objects = d.sampleArrayByCompacting.map d.objects := hmap
  refine ⟨d', hload, ⟨hinv, fun {r} hr => ?_, ?_⟩, hmap⟩
  · exact hsaved _ (hmap ▸ List.mem_map_of_mem hr)
  · have hpairwise : (d'.samples.map d'.objects).Pairwise fun sample sample' =>
        sample.isEqual sample' = true → Covers sv sample.message sample'.message := by
      rw [hmap, List.pairwise_map]
      refine (sampleArrayByCompacting_pairwise d).imp fun {r r'} hne hequal => ?_
      exact absurd (Bool.or_eq_true_iff.mpr (.inr hequal)) (Bool.eq_false_iff.mp hne)
    exact List.pairwise_map.mp hpairwise

theorem Kept.persists (h : Kept sv d) (now : Int) : Persists sv d now := by
  obtain ⟨d', hload, h', hmap⟩ := h.load now
  have hloaded (p : CMRMessageSample → Prop) :
      (∃ r ∈ d'.samples, p (d'.objects r)) ↔ ∃ r ∈ d.sampleArrayByCompacting, p (d.objects r) := by
    have hexists := congrArg (fun samples => ∃ sample ∈ samples, p sample) hmap
    simpa using hexists
  refine ⟨d', hload, sameAnswers h.inv h'.inv fun m t noNames => ?_, hmap⟩
  rw [hloaded (sampleMatches · m t noNames = true)]
  constructor
  · rintro ⟨r, hr, hmatches⟩
    exact h.exists_compacted hr hmatches
  · rintro ⟨r, hr, hmatches⟩
    exact ⟨r, sampleArrayByCompacting_subset hr, hmatches⟩

theorem Kept.relaunch (h : Kept sv d) (now : Int) : Kept sv (d.relaunch sv now) := by
  obtain ⟨d', hload, h', -⟩ := h.load now
  rw [CMRSamplingDetecter.relaunch, hload]
  exact h'

-- Steps

/-- The name adds nothing to what the sample is told by: it is ruled out, it is
the first link to a res by that name in the thread, or the sample is known by
that name with the same ID or host already. Where the name was looked at, a mail
is not, and without an ID reading back would look at it. -/
def LeavesName (sv : DetecterServices) (d : CMRSamplingDetecter) (m : CMRThreadMessage)
    (t : Option CMRThreadSignature) : Prop :=
  skipsName sv d m = true ∨
  (isResLink sv m = true ∧
    ∀ r, d.cached (threadKey t) = some r → (d.objects r).message.name ≠ m.name) ∨
  (isResLink sv m = false ∧ (hasID m = true ∨ hasHost m = true ∧ hasMail sv m = false) ∧
    ((hasID m = true ∧ m.name = m.IDString) ∨ (hasHost m = true ∧ m.name = m.host) ∨
      ∀ r, d.cached (stringKey m.name) = some r →
        (hasID m = true ∧ (d.objects r).message.IDString = m.IDString) ∨
        (hasHost m = true ∧ (d.objects r).message.host = m.host)))

def addedMessage (m : CMRThreadMessage) : CMRThreadMessage :=
  (m.clearTemporaryAttributes.setFlag SPAM_FLAG true).setProperty kSampleAsAny

theorem property_setProperty (m : CMRThreadMessage) (property : UInt32) :
    (m.setProperty property).property = property &&& MA_FL_USER_USED_MASK := by
  simp only [CMRThreadMessage.property, CMRThreadMessage.setProperty]
  rw [Flags.or_and, Flags.and_and, Flags.and_and_of_subset rfl,
    show ~~~MA_FL_USER_USED_MASK &&& MA_FL_USER_USED_MASK = 0 from rfl, UInt32.and_zero,
    UInt32.zero_or]

theorem status_setProperty (h : m.status = m.flags) (property : UInt32) :
    (m.setProperty property).status = (m.setProperty property).flags := by
  simp only [CMRThreadMessage.status, CMRThreadMessage.setProperty] at h ⊢
  rw [Flags.or_and, Flags.and_and, Flags.and_and,
    show MA_FL_USER_USED_MASK &&& MA_FL_NOT_TEMP_MASK = MA_FL_USER_USED_MASK from rfl,
    UInt32.and_comm (~~~MA_FL_USER_USED_MASK), ← Flags.and_and, h]

theorem status_addedMessage (m : CMRThreadMessage) :
    (addedMessage m).status = (addedMessage m).flags := by
  apply status_setProperty
  simp only [CMRThreadMessage.status, CMRThreadMessage.setFlag,
    CMRThreadMessage.clearTemporaryAttributes, if_true]
  rw [Flags.or_and, Flags.and_and_of_subset rfl]
  rfl

theorem isEqualToString_of_eq (h : s = s') (hs : s'.isSome = true) :
    isEqualToString s s' = true := by
  simp [isEqualToString, h, hs]

theorem hasID_isSome (h : hasID m = true) : m.IDString.isSome = true := by
  cases hid : m.IDString with
  | none => simp [hasID, hid] at h
  | some id => rfl

theorem hasHost_isSome (h : hasHost m = true) : m.host.isSome = true := by
  cases hhost : m.host with
  | none => simp [hasHost, hhost] at h
  | some host => rfl

/-- Setting up a sample whose name adds nothing marks it as reading back would. -/
theorem setupSample_sign_leavesName (hleaves : LeavesName sv d m t)
    (hm : (d.objects r).message = m) (ht : (d.objects r).threadIdentifier = t)
    (hany : m.property &&& kSampleAsNameMask ≠ 0) :
    (setupSample sv d r).sign = loadedMask sv m := by
  by_cases hskip : skipsName sv d m = true
  · exact setupSample_sign_skipsName hm hskip
  · have hskip : skipsName sv d m = false := Bool.eq_false_iff.mpr hskip
    rcases hleaves with hleaves | ⟨hlink, hother⟩ | ⟨hlink, hid, hsame⟩
    · rw [hskip] at hleaves
      cases hleaves
    · refine setupSample_sign_resLink hm ht hskip hlink fun tmp htmp => ?_
      exact Bool.eq_false_iff.mpr fun heq => hother tmp htmp (isEqualToString_eq heq)
    · refine setupSample_sign_name hm hskip hlink hid fun tmp htmp => ?_
      obtain ⟨key, hkey, htmp⟩ := Option.bind_eq_some_iff.mp htmp
      rw [markedTable] at htmp
      split at htmp
      · -- the sample was entered under its own name as an ID or a host
        obtain rfl : r = tmp := Option.some.inj htmp
        rw [hm]
        exact .inl hany
      · rename_i hnot
        rcases hsame with ⟨hid, hname⟩ | ⟨hhost, hname⟩ | hsame
        · exact absurd (.inl ⟨hid, hname ▸ hkey⟩) hnot
        · exact absurd (.inr ⟨hhost, hname ▸ hkey⟩) hnot
        · have hcached : d.cached (stringKey m.name) = some tmp := by
            rw [cached, hkey, Option.bind_some, htmp]
          rcases hsame tmp hcached with ⟨hid, heq⟩ | ⟨hhost, heq⟩
          · exact .inr (.inl ⟨hid, isEqualToString_of_eq heq (hasID_isSome hid)⟩)
          · exact .inr (.inr ⟨hhost, isEqualToString_of_eq heq (hasHost_isSome hhost)⟩)

/-- The table never refers to the object of a sample that is being added, so its
cached samples are the same ones before and after it is made. -/
theorem leavesName_setObject (h : Inv d) (hleaves : LeavesName sv d m t)
    (sample : CMRMessageSample) :
    LeavesName sv { d.setObject d.nextObject sample with nextObject := d.nextObject + 1 } m t := by
  have hold {key : Option CacheKey} {r : Nat} (hr : d.cached key = some r) :
      (d.setObject d.nextObject sample).objects r = d.objects r := by
    obtain ⟨key, -, hkey⟩ := Option.bind_eq_some_iff.mp hr
    exact Function.update_of_ne (h.allocated (h.listed hkey)).ne _ _
  rcases hleaves with hskips | ⟨hlink, hother⟩ | ⟨hlink, hid, hown | hown | hsame⟩
  · exact .inl hskips
  · refine .inr (.inl ⟨hlink, fun r hr => ?_⟩)
    have hr : d.cached (threadKey t) = some r := hr
    simp only [hold hr]
    exact hother r hr
  · exact .inr (.inr ⟨hlink, hid, .inl hown⟩)
  · exact .inr (.inr ⟨hlink, hid, .inr (.inl hown)⟩)
  · refine .inr (.inr ⟨hlink, hid, .inr (.inr fun r hr => ?_)⟩)
    have hr : d.cached (stringKey m.name) = some r := hr
    simp only [hold hr]
    exact hsame r hr

def addedSample (sv : DetecterServices) (m : CMRThreadMessage) (t : Option CMRThreadSignature)
    (now : Int) : CMRMessageSample where
  message := (addedMessage m).setProperty (loadedMask sv m)
  threadIdentifier := t
  sampledDate := now

theorem addedSample_texts (sv : DetecterServices) (m : CMRThreadMessage)
    (t : Option CMRThreadSignature) (now : Int) :
    (addedSample sv m t now).message.name = m.name ∧
      (addedSample sv m t now).message.mail = m.mail ∧
      (addedSample sv m t now).message.host = m.host ∧ (addedSample sv m t now).message.IDString =
        m.IDString ∧
      (addedSample sv m t now).message.messageSource = m.messageSource := by
  simp only [addedSample, addedMessage, CMRThreadMessage.setProperty, CMRThreadMessage.setFlag,
    CMRThreadMessage.clearTemporaryAttributes, and_self]

theorem isEqual_addedSample (m : CMRThreadMessage) (t : Option CMRThreadSignature) (now : Int)
    (sample : CMRMessageSample) : sample.isEqual (addedSample sv m t now) =
      sample.isEqual { message := m, threadIdentifier := t, sampledDate := now } := by
  obtain ⟨hname, -, -, hid, hsource⟩ := addedSample_texts sv m t now
  rw [CMRMessageSample.isEqual, CMRMessageSample.isEqual, hname, hid, hsource]
  rfl

theorem Covers.added {m m' : CMRThreadMessage} (h : Covers sv m m') (t : Option CMRThreadSignature)
    (now : Int) :
    Covers sv m (addedSample sv m' t now).message := by
  obtain ⟨-, hmail, hhost, hid, -⟩ := addedSample_texts sv m' t now
  refine ⟨fun hhas hlength => ?_, fun hid' hmail' => ?_⟩
  · rw [hasHost, hhost] at hhas
    rw [hhost] at hlength ⊢
    exact h.host hhas hlength
  · rw [hasID, hid] at hid'
    rw [hasMail, hmail] at hmail'
    rw [hmail]
    exact h.mail hid' hmail'

theorem newSample_added (h : Inv d) (hleaves : LeavesName sv d m t) (now : Int) :
    newSample sv d { message := addedMessage m, threadIdentifier := t, sampledDate := now } =
      addedSample sv m t now := by
  have hany : (addedMessage m).property &&& kSampleAsNameMask ≠ 0 := by
    rw [addedMessage, property_setProperty]
    decide
  have hleaves : LeavesName sv d (addedMessage m) t := hleaves
  have hsign := setupSample_sign_leavesName (r := d.nextObject)
    (leavesName_setObject h hleaves
      { message := addedMessage m, threadIdentifier := t, sampledDate := now })
    (by simp [setObject]) (by simp [setObject]) hany
  simp only [newSample, Nat.add_sub_cancel, hsign]
  rfl

theorem canonical_added (sv : DetecterServices) (m : CMRThreadMessage) :
    Canonical sv ((addedMessage m).setProperty (loadedMask sv m)) where
  marked := by
    have hbits : ∀ id host mail,
        loadedBits id host mail &&& MA_FL_USER_USED_MASK = loadedBits id host mail := by decide
    rw [property_setProperty, loadedMask, hbits]
    rfl
  saved := status_setProperty (status_addedMessage m) _

theorem kept_init (sv : DetecterServices) : Kept sv init :=
  ⟨inv_init, fun hr => absurd hr List.not_mem_nil, .nil⟩

theorem Kept.of_sublist (h : Kept sv d) (hinv : Inv d') (hsub : d'.samples.Sublist d.samples)
    (hmessage : ∀ r, (d'.objects r).message = (d.objects r).message)
    (hthread : ∀ r, (d'.objects r).threadIdentifier = (d.objects r).threadIdentifier) :
    Kept sv d' where
  inv := hinv
  canonical {r} hr := by
    rw [hmessage]
    exact h.canonical (hsub.subset hr)
  covered := by
    refine (h.covered.sublist hsub).imp fun {r r'} hcovers hequal => ?_
    rw [CMRMessageSample.isEqual, hmessage, hmessage, hthread, hthread] at hequal
    rw [hmessage, hmessage]
    exact hcovers hequal

theorem incrementMatchedCount_message (r r' : Nat) :
    ((d.incrementMatchedCount r).objects r').message = (d.objects r').message := by
  obtain ⟨n, hn⟩ := incrementMatchedCount_objects d r r'
  rw [hn]

theorem incrementMatchedCount_threadIdentifier (r r' : Nat) :
    ((d.incrementMatchedCount r).objects r').threadIdentifier =
      (d.objects r').threadIdentifier := by
  obtain ⟨n, hn⟩ := incrementMatchedCount_objects d r r'
  rw [hn]

theorem Kept.incrementMatchedCount (h : Kept sv d) (r : Nat) :
    Kept sv (d.incrementMatchedCount r) :=
  h.of_sublist (h.inv.incrementMatchedCount r) (List.Sublist.refl _)
    (incrementMatchedCount_message r) (incrementMatchedCount_threadIdentifier r)

theorem removeSampleAt_cases (d : CMRSamplingDetecter) (i : Nat) (m : CMRThreadMessage)
    (t : Option CMRThreadSignature) :
    d.removeSampleAt i m t = d ∨
      ∃ r, (d.removeSampleAt i m t).samples = d.samples.eraseIdx i ∧
        (d.removeSampleAt i m t).objects = (d.incrementMatchedCount r).objects := by
  unfold removeSampleAt
  split
  · exact .inl rfl
  · rename_i r _
    split
    · exact .inr ⟨r, rfl, rfl⟩
    · exact .inl rfl

theorem Kept.removeSampleAt (h : Kept sv d) (hkeeps : KeepsThread d m t) (i : Nat) :
    Kept sv (d.removeSampleAt i m t) := by
  have hinv := (removeSampleAt_inv (i := i) h.inv hkeeps).1
  rcases removeSampleAt_cases d i m t with hsame | ⟨r, hsamples, hobjects⟩
  · rw [hsame]
    exact h
  · refine h.of_sublist hinv (hsamples ▸ List.eraseIdx_sublist _ _) (fun r' => ?_) (fun r' => ?_)
    · rw [hobjects, incrementMatchedCount_message]
    · rw [hobjects, incrementMatchedCount_threadIdentifier]

theorem Kept.removeSamplesBelow (h : Kept sv d) (hkeeps : KeepsThread d m t) (i : Nat) :
    Kept sv (removeSamplesBelow m t i d) := by
  induction i generalizing d with
  | zero => exact h
  | succ i ih => exact ih (h.removeSampleAt hkeeps i) (removeSampleAt_inv h.inv hkeeps).2

theorem Kept.addSample (h : Kept sv d) (hleaves : LeavesName sv d m t) (now : Int)
    (hcovers : ∀ r ∈ d.samples,
      (d.objects r).isEqual { message := m, threadIdentifier := t, sampledDate := now } = true →
        Covers sv (d.objects r).message m) :
    Kept sv (d.addSample sv m t now) := by
  have hsamples : (d.addSample sv m t now).samples = d.samples ++ [d.nextObject] := rfl
  have hobjects : (d.addSample sv m t now).objects =
      Function.update d.objects d.nextObject (addedSample sv m t now) :=
    (addNewMessageSample_objects sv).trans
      (congrArg (Function.update d.objects d.nextObject) (newSample_added h.inv hleaves now))
  have hold {r : Nat} (hr : r ∈ d.samples) : (d.addSample sv m t now).objects r = d.objects r := by
    rw [hobjects, Function.update_of_ne (h.inv.allocated hr).ne]
  have hnew : (d.addSample sv m t now).objects d.nextObject = addedSample sv m t now := by
    rw [hobjects, Function.update_self]
  refine ⟨h.inv.addNewMessageSample sv _, fun {r} hr => ?_, ?_⟩
  · rcases List.mem_append.mp (hsamples ▸ hr) with hr | hr
    · rw [hold hr]
      exact h.canonical hr
    · rw [List.mem_singleton.mp hr, hnew]
      exact canonical_added sv m
  · rw [hsamples, List.pairwise_append]
    refine ⟨h.covered.imp_of_mem fun hr hr' hcovers => ?_, List.pairwise_singleton _ _,
      fun r hr r' hr' hequal => ?_⟩
    · rw [hold hr, hold hr']
      exact hcovers
    · rw [List.mem_singleton.mp hr', hold hr, hnew] at hequal ⊢
      rw [isEqual_addedSample] at hequal
      exact (hcovers r hr hequal).added t now

end

-- Runs

/-- What happens to the detecter of the application, over several launches. -/
inductive FilterAction where
  | detecter (a : Action)
  | relaunch (now : Int)

def filterStep (sv : DetecterServices) (d : CMRSamplingDetecter) :
    FilterAction → Option CMRSamplingDetecter
  | .detecter a => step sv d a
  | .relaunch now => some (d.relaunch sv now)

def KeepsMarks (sv : DetecterServices) (d : CMRSamplingDetecter) : FilterAction → Prop
  | .detecter (.addSample m t now) => LeavesName sv d m t ∧ ∀ r ∈ d.samples,
      (d.objects r).isEqual { message := m, threadIdentifier := t, sampledDate := now } = true →
        Covers sv (d.objects r).message m
  | .detecter (.removeSample m t) => KeepsThread d m t
  | _ => True

theorem Kept.afterDetecting (h : Kept sv d) (m : CMRThreadMessage) (t : Option CMRThreadSignature) :
    Kept sv (d.afterDetecting sv m t) := by
  rcases afterDetecting_cases sv d m t with hsame | ⟨r, hcounted⟩
  · rw [hsame]
    exact h
  · rw [hcounted]
    exact h.incrementMatchedCount r

theorem apply_kept (h : Kept sv d) (hkeeps : KeepsMarks sv d (.detecter a)) :
    Kept sv (d.apply sv a) := by
  cases a with
  | setWorkingBoard noNames allowed =>
    exact ⟨⟨h.inv.listed, h.inv.keyed, h.inv.allocated⟩, h.canonical, h.covered⟩
  | addSample m t now => exact h.addSample hkeeps.1 now hkeeps.2
  | removeSample m t => exact h.removeSamplesBelow hkeeps d.samples.length
  | clear => exact ⟨inv_clear d, fun hr => absurd hr List.not_mem_nil, .nil⟩
  | setCorpus corpus =>
    exact ⟨⟨h.inv.listed, h.inv.keyed, h.inv.allocated⟩, h.canonical, h.covered⟩
  | detectMessage m t => exact h.afterDetecting m t

theorem filterStep_kept (h : Kept sv d) (hkeeps : KeepsMarks sv d a) :
    ∃ d', filterStep sv d a = some d' ∧ Kept sv d' := by
  cases a with
  | detecter a => exact ⟨_, rfl, apply_kept h hkeeps⟩
  | relaunch now => exact ⟨_, rfl, h.relaunch now⟩

/-- In every run whose samples are marked without their names, whose equal
samples tell the same, and that removes samples only on behalf of the threads
they are in the table for, a detecter and the one that is read back answer
alike. -/
theorem run_persists (sv : DetecterServices) (now : Int)
    (hkeeps : Run.Guarded (filterStep sv) (KeepsMarks sv) init actions) :
    ∃ d, Run.run (filterStep sv) init actions = some d ∧ Persists sv d now := by
  obtain ⟨d, hrun, hkept⟩ := Run.guarded_total filterStep_kept hkeeps (kept_init sv)
  exact ⟨d, hrun, hkept.persists now⟩

def signedMessage : CMRThreadMessage where
  name := some (ns "spammer")
  IDString := some (ns "abcdefgh")
  messageSource := some (ns "buy")

/-- The first sample by a name, which has an ID, and a match of it after the next
launch. -/
theorem run_persists_signed :
    ∃ d, Run.run (filterStep plainServices) init [.detecter (.setWorkingBoard (some []) true),
        .detecter (.addSample signedMessage (some thread1) 0), .relaunch 1,
        .detecter (.detectMessage signedMessage (some thread2))] = some d ∧
      Persists plainServices d 2 := by
  refine run_persists plainServices 2 (Run.guarded_cons rfl trivial
    (Run.guarded_cons rfl ⟨?_, fun r hr => absurd hr List.not_mem_nil⟩
      (Run.guarded_cons rfl trivial (Run.guarded_cons rfl trivial trivial))))
  refine .inr (.inr ⟨by decide, .inl (by decide), .inr (.inr fun r hr => ?_)⟩)
  cases hr

/-- A message with a name and nothing else to tell it by. -/
def namedMessage : CMRThreadMessage where
  name := some (ns "spammer")
  messageSource := some (ns "buy")

/-- A name that told a sample is forgotten when the sample is read back: another
text under that name is found before, and not after. -/
theorem run_named_fails :
    ∃ d, Run.run (filterStep plainServices) init [.detecter (.setWorkingBoard (some []) true),
        .detecter (.addSample namedMessage (some thread1) 0)] = some d ∧
      ¬ Persists plainServices d 1 := by
  refine ⟨_, rfl, ?_⟩
  rintro ⟨d', hload, hanswers, -⟩
  have hanswer := hanswers (some []) true none
    { namedMessage with messageSource := some (ns "sell") } (some thread2)
  have hafter : (some d').map (fun d' => (((d'.setWorkingBoard (some []) true).setCorpus none)
      |>.detectMessage plainServices { namedMessage with messageSource := some (ns "sell") }
        (some thread2)).map Prod.fst) = some (some false) := by
    rw [← hload]
    decide
  exact absurd (hanswer.trans (Option.some.inj hafter)) (by decide)

end BathyScaphe.Spam.CMRSamplingDetecter
