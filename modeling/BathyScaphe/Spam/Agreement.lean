import BathyScaphe.Spam.Detecter
import BathyScaphe.Lib.Run

/-!
# The table and the list of samples

As long as the table refers to samples of the list only, asking it first does
not change an answer. A sample is in the table under its ID, its host, its name
and its thread. Removing a sample takes it out of the first three places, but
out of the fourth only when it is removed on behalf of its own thread.
-/

namespace BathyScaphe.Spam.CMRSamplingDetecter

open NSString

-- Setting up registers the keys of the sample

def keysOf (sample : CMRMessageSample) : List CacheKey :=
  [stringKey sample.message.IDString, stringKey sample.message.host,
    stringKey sample.message.name, threadKey sample.threadIdentifier].filterMap id

/-- A table in which some keys of a sample were set to it. -/
def Registers (r : Nat) (keys : List CacheKey) (table table' : CacheKey → Option Nat) : Prop :=
  ∀ key, table' key = table key ∨ (key ∈ keys ∧ table' key = some r)

theorem Registers.trans {table table' table'' : CacheKey → Option Nat}
    (h : Registers r keys table table')
    (h' : Registers r keys table' table'') :
    Registers r keys table table'' := by
  intro key
  rcases h' key with hkey | hkey
  · rw [hkey]
    exact h key
  · exact .inr hkey

section
variable {sv : DetecterServices} {d : CMRSamplingDetecter} {r : Nat} {sample : CMRMessageSample}
  {setup : Setup}

theorem registers_register (setup : Setup) (h : ∀ k, key = some k → k ∈ keys) :
    Registers r keys setup.table (setup.register r key).table := by
  intro k
  cases key with
  | none => exact .inl rfl
  | some key =>
    by_cases hk : k = key
    · subst hk
      exact .inr ⟨h k rfl, Function.update_self _ _ _⟩
    · exact .inl (Function.update_of_ne hk _ _)

theorem registers_setupID :
    Registers r (keysOf sample) setup.table (setupID r sample.message setup).table := by
  unfold setupID
  split
  · exact fun _ => .inl rfl
  · split
    · exact fun _ => .inl rfl
    · exact registers_register _ fun k hk => by simp [keysOf, hk]

theorem registers_setupHost :
    Registers r (keysOf sample) setup.table (setupHost r sample.message setup).table := by
  unfold setupHost
  split
  · exact fun _ => .inl rfl
  · split
    · exact registers_register (setup.add kSampleAsHostMask) fun k hk => by simp [keysOf, hk]
    · exact fun _ => .inl rfl

theorem registers_setupResLink :
    Registers r (keysOf sample) setup.table
      (setupResLink d r sample.message sample.threadIdentifier setup).table := by
  have hregister : Registers r (keysOf sample) setup.table
      ((setup.clear kSampleAsNameMask).register r (threadKey sample.threadIdentifier)).table :=
    registers_register (setup.clear kSampleAsNameMask) fun k hk => by simp [keysOf, hk]
  simp only [setupResLink]
  split
  · split
    · split <;> exact fun _ => .inl rfl
    · exact hregister
  · exact hregister

theorem registers_setupName :
    Registers r (keysOf sample) setup.table
      (setupName sv d r sample.message sample.threadIdentifier setup).table := by
  unfold setupName
  split
  · exact fun _ => .inl rfl
  · split
    · exact fun _ => .inl rfl
    · split
      · exact registers_setupResLink
      · exact fun _ => .inl rfl

theorem registers_setupSecondName :
    Registers r (keysOf sample) setup.table (setupSecondName d r sample.message setup).table := by
  have hregister (setup' : Setup) (h : setup'.table = setup.table) :
      Registers r (keysOf sample) setup.table
        (setup'.register r (stringKey sample.message.name)).table := by
    rw [← h]
    exact registers_register _ fun k hk => by simp [keysOf, hk]
  simp only [setupSecondName]
  split
  · split
    · split
      · split
        · exact hregister _ rfl
        · exact fun _ => .inl rfl
      · exact hregister _ rfl
    · exact hregister _ rfl
  · exact hregister _ rfl

theorem registers_setupMail :
    Registers r (keysOf sample) setup.table (setupMail sv sample.message setup).table := by
  unfold setupMail
  split <;> exact fun _ => .inl rfl

end

theorem registers_setupSample (sv : DetecterServices) (d : CMRSamplingDetecter) (r : Nat) :
    Registers r (keysOf (d.objects r)) d.table (setupSample sv d r).table := by
  simp only [setupSample]
  split
  · exact ((registers_setupID.trans registers_setupHost).trans registers_setupName).trans
      registers_setupSecondName
  · exact ((registers_setupID.trans registers_setupHost).trans registers_setupName).trans
      registers_setupMail

-- Objects

section
variable {d : CMRSamplingDetecter} {sample : CMRMessageSample}

theorem incrementMatchedCount_objects (d : CMRSamplingDetecter) (r r' : Nat) :
    ∃ n, (d.incrementMatchedCount r).objects r' = { d.objects r' with matchedCount := n } := by
  by_cases h : r' = r
  · subst h
    exact ⟨_, Function.update_self _ _ _⟩
  · exact ⟨(d.objects r').matchedCount, Function.update_of_ne h _ _⟩

theorem keysOf_incrementMatchedCount :
    keysOf ((d.incrementMatchedCount r).objects r') = keysOf (d.objects r') := by
  obtain ⟨n, hn⟩ := incrementMatchedCount_objects d r r'
  rw [hn]
  rfl

theorem matchesSample_incrementMatchedCount :
    (d.incrementMatchedCount r).matchesSample r' m t = d.matchesSample r' m t := by
  obtain ⟨n, hn⟩ := incrementMatchedCount_objects d r r'
  rw [matchesSample, hn]
  rfl

def newSample (sv : DetecterServices) (d : CMRSamplingDetecter) (sample : CMRMessageSample) :
    CMRMessageSample :=
  let d := { d.setObject d.nextObject sample with nextObject := d.nextObject + 1 }
  { sample with
    message := sample.message.setProperty (setupSample sv d (d.nextObject - 1)).sign }

theorem addNewMessageSample_objects (sv : DetecterServices) :
    (d.addNewMessageSample sv sample).objects =
      Function.update d.objects d.nextObject (newSample sv d sample) := by
  simp [addNewMessageSample, setupAppendingSampleForSample, setObject, newSample]

theorem addNewMessageSample_table (d : CMRSamplingDetecter) (sample : CMRMessageSample)
    (sv : DetecterServices) :
    Registers d.nextObject (keysOf sample) d.table (d.addNewMessageSample sv sample).table := by
  have hsetup := registers_setupSample sv
    { d.setObject d.nextObject sample with nextObject := d.nextObject + 1 } d.nextObject
  simp only [setObject, Function.update_self] at hsetup
  exact hsetup

end

-- The invariant

structure Inv (d : CMRSamplingDetecter) : Prop where
  listed : ∀ {key r}, d.table key = some r → r ∈ d.samples
  keyed : ∀ {key r}, d.table key = some r → key ∈ keysOf (d.objects r)
  allocated : ∀ {r}, r ∈ d.samples → r < d.nextObject

theorem inv_init : Inv init where
  listed h := by cases h
  keyed h := by cases h
  allocated h := absurd h List.not_mem_nil

theorem inv_clear (d : CMRSamplingDetecter) : Inv d.clear where
  listed h := by cases h
  keyed h := by cases h
  allocated h := absurd h List.not_mem_nil

theorem Inv.incrementMatchedCount (h : Inv d) (r : Nat) : Inv (d.incrementMatchedCount r) where
  listed hkey := h.listed hkey
  keyed hkey := by
    rw [keysOf_incrementMatchedCount]
    exact h.keyed hkey
  allocated hr := h.allocated hr

theorem Inv.addNewMessageSample (h : Inv d) (sv : DetecterServices) (sample : CMRMessageSample) :
    Inv (d.addNewMessageSample sv sample) := by
  have htable := addNewMessageSample_table d sample sv
  refine ⟨fun {key r} hkey => ?_, fun {key r} hkey => ?_, fun {r} hr => ?_⟩
  · show r ∈ d.samples ++ [d.nextObject]
    rcases htable key with hold | ⟨-, hnew⟩
    · exact List.mem_append_left _ (h.listed (hold.symm.trans hkey))
    · rw [hnew] at hkey
      cases hkey
      simp
  · rw [addNewMessageSample_objects]
    rcases htable key with hold | ⟨hmem, hnew⟩
    · have hkey := hold.symm.trans hkey
      have hne : r ≠ d.nextObject := (h.allocated (h.listed hkey)).ne
      rw [Function.update_of_ne hne]
      exact h.keyed hkey
    · rw [hnew] at hkey
      cases hkey
      rw [Function.update_self]
      exact hmem
  · have hr : r ∈ d.samples ++ [d.nextObject] := hr
    show r < d.nextObject + 1
    rcases List.mem_append.mp hr with hr | hr
    · exact Nat.lt_succ_of_lt (h.allocated hr)
    · rw [List.mem_singleton.mp hr]
      exact Nat.lt_succ_self _

/-- A sample that is removed on behalf of a thread is not in the table under
another one. -/
def KeepsThread (d : CMRSamplingDetecter) (m : CMRThreadMessage) (t : Option CMRThreadSignature) :
    Prop :=
  ∀ r ∈ d.samples, d.matchesSample r m t = true → ∀ t', d.table (.thread t') = some r → t = some t'

theorem mem_removedKeys {d : CMRSamplingDetecter} (hkey : key ∈ keysOf (d.objects r))
    (hthread : ∀ t', key = .thread t' → t = some t') : key ∈ d.removedKeys r t := by
  simp only [keysOf, removedKeys, List.mem_filterMap, List.mem_cons, List.not_mem_nil, or_false,
    id, exists_eq_right] at hkey ⊢
  rcases hkey with hkey | hkey | hkey | hkey
  · exact .inl hkey
  · exact .inr (.inr (.inl hkey))
  · exact .inr (.inl hkey)
  · obtain ⟨t', -, rfl⟩ := Option.map_eq_some_iff.mp hkey.symm
    rw [hthread t' rfl]
    exact .inr (.inr (.inr rfl))

theorem removeSampleAt_inv (h : Inv d) (hkeeps : KeepsThread d m t) :
    Inv (d.removeSampleAt i m t) ∧ KeepsThread (d.removeSampleAt i m t) m t := by
  unfold removeSampleAt
  split
  · exact ⟨h, hkeeps⟩
  · rename_i r hr
    split
    · rename_i hmatches
      -- the entries that are left do not refer to the sample
      have hleft : ∀ {key r'}, ((d.incrementMatchedCount r).removeSampleCache r t).table key =
        some r' →
          d.table key = some r' ∧ r' ≠ r := by
        intro key r' hkey
        simp only [removeSampleCache] at hkey
        split at hkey
        · cases hkey
        · rename_i hnot
          have hkey : d.table key = some r' := hkey
          refine ⟨hkey, ?_⟩
          rintro rfl
          refine hnot ⟨mem_removedKeys ?_ ?_, hkey⟩
          · rw [keysOf_incrementMatchedCount]
            exact h.keyed hkey
          · rintro t' rfl
            exact hkeeps r' (h.listed hkey) hmatches t' hkey
      have hsamples : ∀ {r'}, r' ∈ d.samples → r' ≠ r → r' ∈ d.samples.eraseIdx i := by
        intro r' hr' hne
        obtain ⟨j, hj⟩ := List.mem_iff_getElem?.mp hr'
        refine List.mem_eraseIdx_iff_getElem?.mpr ⟨j, ?_, hj⟩
        rintro rfl
        rw [hr] at hj
        exact hne (Option.some.inj hj).symm
      have hinc := h.incrementMatchedCount r
      refine ⟨⟨fun hkey => ?_, fun hkey => ?_, fun hr' => ?_⟩, fun r' hr' hmatches' t' hkey => ?_⟩
      · obtain ⟨hkey, hne⟩ := hleft hkey
        exact hsamples (h.listed hkey) hne
      · exact hinc.keyed (hleft hkey).1
      · exact h.allocated (List.mem_of_mem_eraseIdx hr')
      · have hmatches' : (d.incrementMatchedCount r).matchesSample r' m t = true := hmatches'
        rw [matchesSample_incrementMatchedCount] at hmatches'
        exact hkeeps r' (List.mem_of_mem_eraseIdx hr') hmatches' t' (hleft hkey).1
    · exact ⟨h, hkeeps⟩

theorem removeSamplesBelow_inv (h : Inv d) (hkeeps : KeepsThread d m t) :
    Inv (removeSamplesBelow m t i d) := by
  induction i generalizing d with
  | zero => exact h
  | succ i ih =>
    obtain ⟨h', hkeeps'⟩ := removeSampleAt_inv (i := i) h hkeeps
    exact ih h' hkeeps'

-- Detecting

section
variable {sv : DetecterServices} {d : CMRSamplingDetecter}

theorem detectAmong_cases (d : CMRSamplingDetecter) (m : CMRThreadMessage)
    (t : Option CMRThreadSignature) (rs : List Nat) :
    (d.detectAmong m t rs = none ∧ ∀ r ∈ rs, d.matchesSample r m t = false) ∨
      ∃ r ∈ rs, d.matchesSample r m t = true ∧
        d.detectAmong m t rs = some (d.incrementMatchedCount r) := by
  induction rs with
  | nil => exact .inl ⟨rfl, fun _ h => absurd h List.not_mem_nil⟩
  | cons r rs ih =>
    rw [detectAmong]
    by_cases hr : d.matchesSample r m t = true
    · exact .inr ⟨r, List.mem_cons_self, hr, by rw [if_pos hr]⟩
    · rw [if_neg hr]
      rcases ih with ⟨hnone, hall⟩ | ⟨r', hr', hmatches, hsome⟩
      · refine .inl ⟨hnone, ?_⟩
        rintro r' (_ | ⟨_, hr'⟩)
        · simpa using hr
        · exact hall r' hr'
      · exact .inr ⟨r', List.mem_cons_of_mem r hr', hmatches, hsome⟩

/-- What the corpus finds: a word in a field it is meant for. -/
def HasCorpusWord (sv : DetecterServices) (d : CMRSamplingDetecter) (m : CMRThreadMessage) : Prop :=
  ∃ corpus, d.corpus = some corpus ∧ ∃ e ∈ corpus,
    (e.targetMask &&& BSNGExpressionAtName ≠ 0 ∧
      ∃ s, d.corpusName sv m = some s ∧ findsExpression sv s e = some true) ∨
    (e.targetMask &&& BSNGExpressionAtMail ≠ 0 ∧
      ∃ s, corpusMail sv m = some s ∧ findsExpression sv s e = some true) ∨
    (e.targetMask &&& BSNGExpressionAtMessage ≠ 0 ∧
      ∃ s, corpusMessage sv m = some s ∧ findsExpression sv s e = some true)

/-- Looking for this word raises. -/
def HasNilWord (d : CMRSamplingDetecter) : Prop :=
  ∃ corpus, d.corpus = some corpus ∧ ∃ e ∈ corpus, e.expression = none

theorem orSearch_cases {first second : Option Bool} (h : orSearch first second = some found) :
    (first = some true ∧ found = true) ∨ (first = some false ∧ second = some found) := by
  cases first with
  | none => cases h
  | some here =>
    cases here with
    | true =>
      cases h
      exact .inl ⟨rfl, rfl⟩
    | false => exact .inr ⟨rfl, h⟩

theorem orSearch_eq_none {first second : Option Bool} (h : orSearch first second = none) :
    first = none ∨ second = none := by
  cases first with
  | none => exact .inl rfl
  | some here =>
    cases here with
    | true => cases h
    | false => exact .inr h

theorem findsAny_eq_some {es : List BSNGExpression} (h : findsAny sv source es = some found) :
    found = true ↔ ∃ e ∈ es, findsExpression sv source e = some true := by
  induction es generalizing found with
  | nil =>
    cases h
    simp
  | cons e es ih =>
    rw [List.exists_mem_cons_iff]
    rcases orSearch_cases h with ⟨hhere, rfl⟩ | ⟨hhere, hrest⟩
    · simp [hhere]
    · rw [ih hrest]
      simp [hhere]

theorem findsAny_eq_none {es : List BSNGExpression} (h : findsAny sv source es = none) :
    ∃ e ∈ es, e.expression = none := by
  induction es with
  | nil => cases h
  | cons e es ih =>
    rw [List.exists_mem_cons_iff]
    exact (orSearch_eq_none h).imp Option.map_eq_none_iff.mp ih

section
variable {corpus : List BSNGExpression} {source : Option NSString} {found : Bool}

theorem detectFieldUsingCorpus_eq_some (h : detectFieldUsingCorpus sv corpus source mask =
    some found) :
    found = true ↔ ∃ e ∈ corpus, e.targetMask &&& mask ≠ 0 ∧
      ∃ s, source = some s ∧ findsExpression sv s e = some true := by
  cases source with
  | none =>
    cases h
    simp
  | some s =>
    rw [findsAny_eq_some h]
    simp [NGExpressionsForTargetMask, and_assoc]

theorem detectFieldUsingCorpus_eq_false
    (h : detectFieldUsingCorpus sv corpus source mask = some false) :
    ∀ e ∈ corpus, ¬ (e.targetMask &&& mask ≠ 0 ∧
      ∃ s, source = some s ∧ findsExpression sv s e = some true) := by
  intro e he hword
  cases (detectFieldUsingCorpus_eq_some h).mpr ⟨e, he, hword⟩

theorem detectFieldUsingCorpus_eq_none (h : detectFieldUsingCorpus sv corpus source mask = none) :
    ∃ e ∈ corpus, e.expression = none := by
  cases source with
  | none => cases h
  | some s =>
    obtain ⟨e, he, hnil⟩ := findsAny_eq_none h
    exact ⟨e, (List.mem_filter.mp he).1, hnil⟩

end

theorem detectMessageUsingCorpus_eq_some {sv : DetecterServices} {d : CMRSamplingDetecter}
    {m : CMRThreadMessage} (h : d.detectMessageUsingCorpus sv m = some found) :
    found = true ↔ HasCorpusWord sv d m := by
  rw [detectMessageUsingCorpus] at h
  cases hcorpus : d.corpus with
  | none =>
    rw [hcorpus] at h
    cases h
    simp [HasCorpusWord, hcorpus]
  | some corpus =>
    rw [hcorpus] at h
    simp only [HasCorpusWord, hcorpus, Option.some.injEq, exists_eq_left']
    -- a field that has a word ends the search, and one that answers has none
    rcases orSearch_cases h with ⟨hname, rfl⟩ | ⟨hname, h⟩
    · obtain ⟨e, he, hword⟩ := (detectFieldUsingCorpus_eq_some hname).mp rfl
      exact iff_of_true rfl ⟨e, he, .inl hword⟩
    have hname := detectFieldUsingCorpus_eq_false hname
    rcases orSearch_cases h with ⟨hmail, rfl⟩ | ⟨hmail, hmessage⟩
    · obtain ⟨e, he, hword⟩ := (detectFieldUsingCorpus_eq_some hmail).mp rfl
      exact iff_of_true rfl ⟨e, he, .inr (.inl hword)⟩
    have hmail := detectFieldUsingCorpus_eq_false hmail
    rw [detectFieldUsingCorpus_eq_some hmessage]
    refine ⟨fun ⟨e, he, hword⟩ => ⟨e, he, .inr (.inr hword)⟩, ?_⟩
    rintro ⟨e, he, hword | hword | hword⟩
    · exact absurd hword (hname e he)
    · exact absurd hword (hmail e he)
    · exact ⟨e, he, hword⟩

theorem detectMessageUsingCorpus_eq_none {sv : DetecterServices} {d : CMRSamplingDetecter}
    {m : CMRThreadMessage}
    (h : d.detectMessageUsingCorpus sv m = none) : HasNilWord d := by
  rw [detectMessageUsingCorpus] at h
  cases hcorpus : d.corpus with
  | none =>
    rw [hcorpus] at h
    cases h
  | some corpus =>
    rw [hcorpus] at h
    refine ⟨corpus, hcorpus, ?_⟩
    obtain hname | h := orSearch_eq_none h
    · exact detectFieldUsingCorpus_eq_none hname
    · obtain hmail | hmessage := orSearch_eq_none h
      · exact detectFieldUsingCorpus_eq_none hmail
      · exact detectFieldUsingCorpus_eq_none hmessage

/-- Where a detection answers, it does so for a sample or a word, and one that raises has met
the word `nil`. -/
def Agrees (sv : DetecterServices) (d : CMRSamplingDetecter) : Prop :=
  ∀ m t, (∀ answer, d.detectMessage sv m t = some answer → (answer.1 = true ↔
      (∃ r ∈ d.samples, d.matchesSample r m t = true) ∨ HasCorpusWord sv d m)) ∧
    (d.detectMessage sv m t = none → HasNilWord d)

theorem Inv.cachedSamples_subset (h : Inv d) : ∀ r ∈ d.cachedSamples m t, r ∈ d.samples := by
  intro r hr
  obtain ⟨key, -, hkey⟩ := List.mem_filterMap.mp hr
  obtain ⟨key, -, hkey⟩ := Option.bind_eq_some_iff.mp hkey
  exact h.listed hkey

theorem Inv.answer (h : Inv d) (sv : DetecterServices) (m : CMRThreadMessage)
    (t : Option CMRThreadSignature) :
    (d.detectMessage sv m t).map Prod.fst =
      if ∃ r ∈ d.samples, d.matchesSample r m t = true then some true
      else d.detectMessageUsingCorpus sv m := by
  rw [CMRSamplingDetecter.detectMessage]
  rcases detectAmong_cases d m t (d.cachedSamples m t) with ⟨hcache, -⟩ | ⟨r, hr, hmatches, hcache⟩
  · rcases detectAmong_cases d m t d.samples with ⟨hlist, hall⟩ | ⟨r, hr, hmatches, hlist⟩
    · have hnot : ¬ ∃ r ∈ d.samples, d.matchesSample r m t = true := by
        rintro ⟨r, hr, hmatches⟩
        rw [hall r hr] at hmatches
        cases hmatches
      simp only [hcache, hlist, if_neg hnot, Option.map_map]
      exact Option.map_id' ..
    · simp only [hcache, hlist, if_pos (⟨r, hr, hmatches⟩ : ∃ r ∈ d.samples,
        d.matchesSample r m t = true)]
      rfl
  · simp only [hcache, if_pos
      (⟨r, h.cachedSamples_subset r hr, hmatches⟩ : ∃ r ∈ d.samples, d.matchesSample r m t = true)]
    rfl

theorem Inv.agrees (h : Inv d) (sv : DetecterServices) : Agrees sv d := by
  intro m t
  have hanswer := h.answer sv m t
  by_cases hsample : ∃ r ∈ d.samples, d.matchesSample r m t = true
  · rw [if_pos hsample] at hanswer
    refine ⟨fun answer hdetects => ?_, fun hdetects => ?_⟩
    · rw [hdetects] at hanswer
      exact iff_of_true (Option.some.inj hanswer) (.inl hsample)
    · rw [hdetects] at hanswer
      cases hanswer
  · rw [if_neg hsample] at hanswer
    refine ⟨fun answer hdetects => ?_, fun hdetects => ?_⟩
    · rw [hdetects] at hanswer
      rw [detectMessageUsingCorpus_eq_some hanswer.symm, or_iff_right hsample]
    · rw [hdetects] at hanswer
      exact detectMessageUsingCorpus_eq_none hanswer.symm

theorem detectMessage_snd_cases {answer : Bool × CMRSamplingDetecter} (sv : DetecterServices)
    (d : CMRSamplingDetecter) (h : d.detectMessage sv m t = some answer) :
    answer.2 = d ∨ ∃ r, answer.2 = d.incrementMatchedCount r := by
  rw [detectMessage] at h
  rcases detectAmong_cases d m t (d.cachedSamples m t) with ⟨hcache, -⟩ | ⟨r, -, -, hcache⟩
  · rcases detectAmong_cases d m t d.samples with ⟨hlist, -⟩ | ⟨r, -, -, hlist⟩
    · simp only [hcache, hlist] at h
      obtain ⟨found, -, rfl⟩ := Option.map_eq_some_iff.mp h
      exact .inl rfl
    · simp only [hcache, hlist] at h
      cases h
      exact .inr ⟨r, rfl⟩
  · simp only [hcache] at h
    cases h
    exact .inr ⟨r, rfl⟩

/-- The detecter after a detection, which is the same where it raises. -/
def afterDetecting (sv : DetecterServices) (d : CMRSamplingDetecter) (m : CMRThreadMessage)
    (t : Option CMRThreadSignature) : CMRSamplingDetecter :=
  ((d.detectMessage sv m t).map Prod.snd).getD d

theorem afterDetecting_cases (sv : DetecterServices) (d : CMRSamplingDetecter)
    (m : CMRThreadMessage) (t : Option CMRThreadSignature) :
    d.afterDetecting sv m t = d ∨ ∃ r, d.afterDetecting sv m t = d.incrementMatchedCount r := by
  rw [afterDetecting]
  cases hdetects : d.detectMessage sv m t with
  | none => exact .inl rfl
  | some answer => exact detectMessage_snd_cases sv d hdetects

theorem Inv.afterDetecting (h : Inv d) (sv : DetecterServices) (m : CMRThreadMessage)
    (t : Option CMRThreadSignature) : Inv (d.afterDetecting sv m t) := by
  rcases afterDetecting_cases sv d m t with hsame | ⟨r, hcounted⟩
  · rw [hsame]
    exact h
  · rw [hcounted]
    exact h.incrementMatchedCount r

end

-- Runs

inductive Action where
  | setWorkingBoard (noNames : Option (List NSString)) (allowed : Bool)
  | addSample (m : CMRThreadMessage) (t : Option CMRThreadSignature) (now : Int)
  | removeSample (m : CMRThreadMessage) (t : Option CMRThreadSignature)
  | clear
  | setCorpus (corpus : Option (List BSNGExpression))
  | detectMessage (m : CMRThreadMessage) (t : Option CMRThreadSignature)

def apply (sv : DetecterServices) (d : CMRSamplingDetecter) : Action → CMRSamplingDetecter
  | .setWorkingBoard noNames allowed => d.setWorkingBoard noNames allowed
  | .addSample m t now => d.addSample sv m t now
  | .removeSample m t => d.removeSample m t
  | .clear => d.clear
  | .setCorpus corpus => d.setCorpus corpus
  | .detectMessage m t => d.afterDetecting sv m t

def step (sv : DetecterServices) (d : CMRSamplingDetecter) (a : Action) :
    Option CMRSamplingDetecter :=
  some (d.apply sv a)

def KeepsCache (d : CMRSamplingDetecter) : Action → Prop
  | .removeSample m t => KeepsThread d m t
  | _ => True

theorem apply_inv (sv : DetecterServices) (h : Inv d) (hkeeps : KeepsCache d a) :
    Inv (d.apply sv a) := by
  cases a with
  | setWorkingBoard noNames allowed => exact ⟨h.listed, h.keyed, h.allocated⟩
  | addSample m t now => exact h.addNewMessageSample sv _
  | removeSample m t => exact removeSamplesBelow_inv h hkeeps
  | clear => exact inv_clear d
  | setCorpus corpus => exact ⟨h.listed, h.keyed, h.allocated⟩
  | detectMessage m t => exact h.afterDetecting sv m t

def plainServices : DetecterServices where
  text := {
    matchInString _ _ := none
    localizedString key := key
    dateFromString _ _ := none
    stringForEntityReference _ := none }
  isValidExpressionString _ := false
  isDecimalDigit c := uc '0' ≤ c && c ≤ uc '9'
  convertMessageSourceToCachedMessage s := s
  replaceEntityReferenceWithString s := s

def thread1 : CMRThreadSignature := ⟨ns "1", ns "board"⟩
def thread2 : CMRThreadSignature := ⟨ns "2", ns "board"⟩

def linkMessage : CMRThreadMessage where
  name := some (ns ">>1")
  messageSource := some (ns "buy")

end BathyScaphe.Spam.CMRSamplingDetecter
