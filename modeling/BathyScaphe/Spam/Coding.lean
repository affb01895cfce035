import BathyScaphe.Spam.Agreement
import Mathlib.Data.List.Sort

/-!
# Saved samples

The detecter is saved as the list of its samples, without those that are equal
to an earlier one and with the most often matched ones first. It is read back by
adding the saved samples, one after the other, to a new detecter, before any
board has told its names.
-/

namespace BathyScaphe.Spam

open NSString

namespace CMRThreadSignature

def propertyListRepresentation (t : CMRThreadSignature) : PropertyList :=
  PropertyList.dict []
    |>.setObject (.string t.identifier) "DAT"
    |>.setObject (.string t.boardName) "BBS"

def objectWithPropertyListRepresentation (rep : PropertyList) : Option CMRThreadSignature :=
  match rep.stringForKey "BBS", rep.stringForKey "DAT" with
  | some boardName, some identifier => some ⟨identifier, boardName⟩
  | _, _ => none

@[simp] theorem objectWithPropertyListRepresentation_representation (t : CMRThreadSignature) :
    objectWithPropertyListRepresentation t.propertyListRepresentation = some t := by
  simp [objectWithPropertyListRepresentation, propertyListRepresentation,
    PropertyList.stringForKey, PropertyList.objectForKey_setObject, PropertyList.asString]

end CMRThreadSignature

namespace CMRMessageSample

def propertyListRepresentation (sample : CMRMessageSample) : PropertyList :=
  PropertyList.dict []
    |>.setNoneNil (some sample.message.propertyListRepresentation) "Message"
    |>.setNoneNil (sample.threadIdentifier.map (·.propertyListRepresentation)) "Thread"
    |>.setObject (.ofUnsignedInt sample.flags) "Flags"
    |>.setObject (.ofUnsignedInt sample.matchedCount) "MatchedCount"
    |>.setNoneNil (some (.date sample.sampledDate)) "SampledDate"

def asDate : PropertyList → Option Int
  | .date t => some t
  | _ => none

/-- A sample of a file without a message answers like one of a message without
fields. `now` is the date of a sample whose file has none. -/
def ofDictionary (rep : PropertyList) (now : Int) : CMRMessageSample where
  message := ((rep.objectForKey "Message").bind
    CMRThreadMessage.objectWithPropertyListRepresentation).getD {}
  threadIdentifier := (rep.objectForKey "Thread").bind
    CMRThreadSignature.objectWithPropertyListRepresentation
  flags := rep.unsignedIntForKey "Flags"
  matchedCount := rep.unsignedIntForKey "MatchedCount"
  sampledDate := ((rep.objectForKey "SampledDate").bind asDate).getD now

def objectWithPropertyListRepresentation (rep : PropertyList) (now : Int) :
    Option CMRMessageSample :=
  match rep with
  | .dict _ => some (ofDictionary rep now)
  | _ => none

/-- Nothing of a sample is lost but the temporary flags of its message. -/
theorem objectWithPropertyListRepresentation_representation (sample : CMRMessageSample)
    (now : Int) (hflags : sample.message.status = sample.message.flags) :
    objectWithPropertyListRepresentation sample.propertyListRepresentation now = some sample := by
  have hdict : PropertyList.IsDict sample.propertyListRepresentation := by
    simp [propertyListRepresentation]
  have hcases : objectWithPropertyListRepresentation sample.propertyListRepresentation now =
      some (ofDictionary sample.propertyListRepresentation now) := by
    obtain ⟨entries, hentries⟩ := hdict
    rw [hentries, objectWithPropertyListRepresentation]
  have hthread := PropertyList.map_bind_of_read
    CMRThreadSignature.objectWithPropertyListRepresentation_representation sample.threadIdentifier
  rw [hcases]
  simp [ofDictionary, propertyListRepresentation, PropertyList.unsignedIntForKey,
    PropertyList.numberForKey, PropertyList.objectForKey_setNoneNil,
    PropertyList.objectForKey_setObject, PropertyList.asNumber, PropertyList.ofUnsignedInt,
    CMRThreadMessage.objectWithPropertyListRepresentation_representation, hthread, hflags, asDate]

def isEqual (sample sample' : CMRMessageSample) : Bool :=
  sample.threadIdentifier.isSome && sample.threadIdentifier == sample'.threadIdentifier &&
    isEqualToString sample.message.name sample'.message.name &&
    isEqualToString sample.message.IDString sample'.message.IDString &&
    isEqualToString sample.message.messageSource sample'.message.messageSource

theorem isEqual_comm (sample sample' : CMRMessageSample) :
    sample.isEqual sample' = sample'.isEqual sample := by
  have hstring (s s' : Option NSString) : isEqualToString s s' = isEqualToString s' s := by
    cases s <;> cases s' <;> simp [isEqualToString, eq_comm]
  rw [isEqual, isEqual, hstring sample.message.name, hstring sample.message.IDString,
    hstring sample.message.messageSource]
  congr 3
  cases sample.threadIdentifier <;> cases sample'.threadIdentifier <;> simp [eq_comm]

end CMRMessageSample

namespace CMRSamplingDetecter

def isEqualSample (d : CMRSamplingDetecter) (r r' : Nat) : Bool :=
  r == r' || (d.objects r).isEqual (d.objects r')

def compactSamples (d : CMRSamplingDetecter) : List Nat → List Nat → List Nat
  | [], compacted => compacted
  | r :: rs, compacted =>
    if compacted.any (d.isEqualSample · r) then compactSamples d rs compacted
    else compactSamples d rs (compacted ++ [r])

def sampleArrayByCompacting (d : CMRSamplingDetecter) : List Nat :=
  (compactSamples d d.samples []).insertionSort
    fun r r' => (d.objects r').matchedCount ≤ (d.objects r).matchedCount

def propertyListRepresentation (d : CMRSamplingDetecter) : PropertyList :=
  .dict [("Samples",
    .array (d.sampleArrayByCompacting.map fun r => (d.objects r).propertyListRepresentation))]

def addSamplesOfRepresentation (sv : DetecterServices) (now : Int) :
    List PropertyList → CMRSamplingDetecter → Option CMRSamplingDetecter
  | [], d => some d
  | rep :: reps, d =>
    (CMRMessageSample.objectWithPropertyListRepresentation rep now).bind fun sample =>
      addSamplesOfRepresentation sv now reps (d.addNewMessageSample sv sample)

def initWithPropertyListRepresentation (sv : DetecterServices) (rep : PropertyList) (now : Int) :
    Option CMRSamplingDetecter :=
  (rep.arrayForKey "Samples").bind fun reps => addSamplesOfRepresentation sv now reps init

/-- `CMRSpamFilter` saves its detecter when the application ends and reads it back
at the next launch; a file that cannot be read gives an empty one. -/
def relaunch (sv : DetecterServices) (d : CMRSamplingDetecter) (now : Int) : CMRSamplingDetecter :=
  (initWithPropertyListRepresentation sv d.propertyListRepresentation now).getD init

-- Compacting

section
variable {d : CMRSamplingDetecter}

/-- Compacting goes on from what is kept so far: everything is either kept, or
equal to something that was kept before it came. -/
theorem compactSamples_cases (rs compacted : List Nat) :
    (∀ r ∈ compactSamples d rs compacted, r ∈ compacted ∨ r ∈ rs) ∧
      (∀ r ∈ compacted, r ∈ compactSamples d rs compacted) := by
  induction rs generalizing compacted with
  | nil => exact ⟨fun r hr => .inl hr, fun r hr => hr⟩
  | cons r rs ih =>
    rw [compactSamples]
    split
    · obtain ⟨hsub, hkept⟩ := ih compacted
      exact ⟨fun r' hr' => (hsub r' hr').imp_right (List.mem_cons_of_mem r), hkept⟩
    · obtain ⟨hsub, hkept⟩ := ih (compacted ++ [r])
      refine ⟨fun r' hr' => ?_, fun r' hr' => hkept r' (List.mem_append_left _ hr')⟩
      rcases hsub r' hr' with hr' | hr'
      · rcases List.mem_append.mp hr' with hr' | hr'
        · exact .inl hr'
        · exact .inr (List.mem_singleton.mp hr' ▸ List.mem_cons_self)
      · exact .inr (List.mem_cons_of_mem r hr')

theorem compactSamples_covers {R : Nat → Nat → Prop}
    (hR : (compacted ++ rs).Pairwise fun r r' => d.isEqualSample r r' = true → R r r') :
    ∀ r ∈ rs, r ∈ compactSamples d rs compacted ∨
      ∃ r' ∈ compactSamples d rs compacted, d.isEqualSample r' r = true ∧ R r' r := by
  induction rs generalizing compacted with
  | nil => exact fun r hr => absurd hr List.not_mem_nil
  | cons r rs ih =>
    obtain ⟨-, -, hcross⟩ := List.pairwise_append.mp hR
    rw [compactSamples]
    split
    · rename_i hany
      obtain ⟨r', hr', hequal⟩ := List.any_eq_true.mp hany
      have hkept := (compactSamples_cases (d := d) rs compacted).2 r' hr'
      have hrest : (compacted ++ rs).Pairwise fun r r' => d.isEqualSample r r' = true → R r r' :=
        hR.sublist (List.Sublist.append_left (List.sublist_cons_self r rs) compacted)
      rintro r'' (_ | ⟨_, hr''⟩)
      · exact .inr ⟨r', hkept, hequal, hcross r' hr' r List.mem_cons_self hequal⟩
      · exact ih hrest r'' hr''
    · have hrest : (compacted ++ [r] ++ rs).Pairwise
          fun r r' => d.isEqualSample r r' = true → R r r' := by
        rwa [List.append_assoc, List.singleton_append]
      rintro r'' (_ | ⟨_, hr''⟩)
      · exact .inl ((compactSamples_cases rs (compacted ++ [r])).2 r (by simp))
      · exact ih hrest r'' hr''

theorem compactSamples_pairwise (rs : List Nat)
    (h : compacted.Pairwise fun r r' => d.isEqualSample r r' = false) :
    (compactSamples d rs compacted).Pairwise fun r r' => d.isEqualSample r r' = false := by
  induction rs generalizing compacted with
  | nil => exact h
  | cons r rs ih =>
    rw [compactSamples]
    split
    · exact ih h
    · rename_i hnone
      refine ih (List.pairwise_append.mpr ⟨h, List.pairwise_singleton _ _,
        fun r' hr' r'' hr'' => ?_⟩)
      rw [List.mem_singleton.mp hr'']
      exact Bool.eq_false_iff.mpr fun hequal => hnone (List.any_eq_true.mpr ⟨r', hr', hequal⟩)

theorem isEqualSample_comm (r r' : Nat) : d.isEqualSample r r' = d.isEqualSample r' r := by
  rw [isEqualSample, isEqualSample, CMRMessageSample.isEqual_comm, BEq.comm]

theorem sampleArrayByCompacting_pairwise (d : CMRSamplingDetecter) :
    d.sampleArrayByCompacting.Pairwise fun r r' => d.isEqualSample r r' = false := by
  have hcompacted : (compactSamples d d.samples []).Pairwise
      fun r r' => d.isEqualSample r r' = false := compactSamples_pairwise d.samples .nil
  refine (List.Perm.pairwise_iff ?_ (List.perm_insertionSort _ _)).mpr hcompacted
  intro r r' h
  rw [isEqualSample_comm, h]

theorem mem_sampleArrayByCompacting :
    r ∈ d.sampleArrayByCompacting ↔ r ∈ compactSamples d d.samples [] :=
  List.mem_insertionSort _

theorem sampleArrayByCompacting_subset (h : r ∈ d.sampleArrayByCompacting) : r ∈ d.samples := by
  have hcases := (compactSamples_cases d.samples []).1 r (mem_sampleArrayByCompacting.mp h)
  exact hcases.resolve_left List.not_mem_nil

end

end CMRSamplingDetecter

end BathyScaphe.Spam
