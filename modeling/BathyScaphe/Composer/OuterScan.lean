import BathyScaphe.Composer.OuterAnchor

/-!
# What the scan for outer links finds

A turn of a loop finds the first start of a link from the search location on, or goes on
behind something that is none. So the links of a loop come one behind the other, and each
start of a link is inside one of them.
-/

namespace BathyScaphe.Composer

open NSString Overlay

-- Where the characters of a URL end

theorem all_url : ([uc '/', uc ':', uc '.', uc 'W'] ++ (List.range 26).map fun n =>
    UInt16.ofNat (97 + n)).all
    URLCharacterSet = true := by decide +kernel

theorem url_slash : URLCharacterSet (uc '/') = true := List.all_eq_true.mp all_url _ (by simp)

theorem url_colon : URLCharacterSet (uc ':') = true := List.all_eq_true.mp all_url _ (by simp)

theorem url_dot : URLCharacterSet (uc '.') = true := List.all_eq_true.mp all_url _ (by simp)

theorem url_upper_w : URLCharacterSet (uc 'W') = true := List.all_eq_true.mp all_url _ (by simp)

theorem url_letter {n : Nat} (hn : n < 26) : URLCharacterSet (UInt16.ofNat (97 + n)) = true := by
  apply List.all_eq_true.mp all_url
  exact List.mem_append_right _ (List.mem_map_of_mem (List.mem_range.mpr hn))

theorem url_w : URLCharacterSet (uc 'w') = true := url_letter (n := 22) (by decide)

theorem url_w3 : ∀ c ∈ kW3LinkURLString, URLCharacterSet c = true := by
  have hmarks : kW3LinkURLString = [uc 'w', uc 'w', uc 'w', uc '.'] := rfl
  simp [hmarks, url_w, url_dot]

theorem url_slashes : ∀ c ∈ kSlash2LinkURLString, URLCharacterSet c = true := by
  have hmarks : kSlash2LinkURLString = [uc '/', uc '/'] := rfl
  simp [hmarks, url_slash]

section
variable {content s : NSString} {c : UniChar} {i k : Nat}

/-- From a character of a URL on, what has been read before makes no difference. -/
theorem length_urlText_of_url (cs : List (UniChar × UniChar)) (hk : k < (urlText cs s).length)
    (hs : s[k]? = some c) (hc : URLCharacterSet c = true) :
    (urlText cs s).length = k + (urlText nonStandardURLCharacters (s.drop k)).length := by
  induction s generalizing cs k with
  | nil => cases hs
  | cons d s ih =>
    cases k with
    | zero =>
      obtain rfl : d = c := Option.some.inj hs
      rw [List.drop_zero, urlText_of_url hc, urlText_of_url hc, Nat.zero_add]
    | succ k =>
      rw [urlText] at hk ⊢
      rw [List.drop_succ_cons]
      split at hk
      · rename_i hd
        rw [List.length_cons] at hk
        rw [if_pos hd, List.length_cons, ih _ (Nat.lt_of_succ_lt_succ hk) hs]
        omega
      · rename_i hd
        rw [if_neg hd]
        split at hk
        · cases hk
        · rename_i p cs' hcs
          rw [List.length_cons] at hk ⊢
          rw [ih _ (Nat.lt_of_succ_lt_succ hk) hs]
          omega

theorem urlEnd_of_mem (hi : i ≤ k) (hk : k < urlEnd content i) (hs : content[k]? = some c)
    (hc : URLCharacterSet c = true) : urlEnd content k = urlEnd content i := by
  have hin : k - i < (urlText nonStandardURLCharacters (content.drop i)).length := by
    rw [urlEnd, urlFrom] at hk
    omega
  have hget : (content.drop i)[k - i]? = some c := by
    rw [List.getElem?_drop, Nat.add_sub_cancel' hi, hs]
  have hlength := length_urlText_of_url nonStandardURLCharacters hin hget hc
  rw [List.drop_drop, Nat.add_sub_cancel' hi] at hlength
  rw [urlEnd, urlEnd, urlFrom, urlFrom, hlength]
  omega

theorem urlEnd_succ (hs : content[i]? = some c) (hc : URLCharacterSet c = true) :
    urlEnd content i = urlEnd content (i + 1) := by
  obtain ⟨hlt, rfl⟩ := List.getElem?_eq_some_iff.mp hs
  rw [urlEnd, urlEnd, urlFrom, urlFrom, List.drop_eq_getElem_cons hlt, urlText_of_url hc,
    List.length_cons]
  omega

theorem lt_urlEnd (hs : content[i]? = some c) (hc : URLCharacterSet c = true) :
    i < urlEnd content i := by
  rw [urlEnd_succ hs hc, urlEnd]
  omega

theorem not_url_of_getElem?_urlText (cs : List (UniChar × UniChar))
    (h : s[(urlText cs s).length]? = some c) :
    URLCharacterSet c = false := by
  induction s generalizing cs with
  | nil => cases h
  | cons d s ih =>
    rw [urlText] at h
    split at h
    · exact ih _ h
    · rename_i hd
      split at h
      · obtain rfl : d = c := Option.some.inj h
        exact Bool.eq_false_iff.mpr hd
      · exact ih _ h

theorem not_url_urlEnd (h : content[urlEnd content i]? = some c) : URLCharacterSet c = false := by
  refine not_url_of_getElem?_urlText nonStandardURLCharacters (s := content.drop i) ?_
  rw [List.getElem?_drop]
  exact h

theorem getElem?_urlEnd_ne (hc : URLCharacterSet c = true) :
    content[urlEnd content i]? ≠ some c := by
  intro h
  rw [not_url_urlEnd h] at hc
  cases hc

def Found (content : NSString) (i : Nat) : Prop := (urlFrom content i).any URLCharacterSet = true

theorem Found.lt_length (h : Found content i) : i < content.length := by
  refine Nat.lt_of_not_le fun hle => ?_
  rw [Found, urlFrom, List.drop_of_length_le hle] at h
  cases h

theorem Found.lt_urlEnd (h : Found content i) : i < urlEnd content i := by
  obtain ⟨c, hc, -⟩ := List.any_eq_true.mp h
  exact Nat.lt_add_of_pos_right (List.length_pos_of_mem hc)

theorem found_of_url (hs : content[i]? = some c) (hc : URLCharacterSet c = true) :
    Found content i := by
  obtain ⟨hlt, rfl⟩ := List.getElem?_eq_some_iff.mp hs
  rw [Found, urlFrom, List.drop_eq_getElem_cons hlt, urlText_of_url hc]
  exact List.any_eq_true.mpr ⟨_, List.mem_cons_self, hc⟩

end

-- The turns of a loop

/-- What a loop looks for: where links start, the link of a start, and what is kept of the
search locations. -/
structure Pass where
  IsStart : Nat → Prop
  link : Nat → Link
  Clear : Nat → Prop

/-- A turn finds no start, goes on behind what is none, or finds the first start. -/
inductive Pass.Turns (pass : Pass) (content : NSString) (s : Nat) : Option (Option Turn) → Prop
  | done : (∀ i, s ≤ i → ¬ pass.IsStart i) → Turns pass content s (some none)
  | skip : s < next → next ≤ content.length → pass.Clear next →
      (∀ i, s ≤ i → i < next → ¬ pass.IsStart i) → Turns pass content s (some (some ⟨none, next⟩))
  | link : pass.IsStart i → (∀ k, s ≤ k → k < i → ¬ pass.IsStart k) →
      s ≤ (pass.link i).range.location →
      s < urlEnd content i → urlEnd content i ≤ content.length →
      (pass.link i).range.max = urlEnd content i → pass.Clear (urlEnd content i) →
      Turns pass content s (some (some ⟨some (pass.link i), urlEnd content i⟩))

/-- The links of the turns from a location on. -/
inductive Runs (turn : Nat → Option (Option Turn)) : Nat → List Link → Prop
  | done : turn s = some none → Runs turn s []
  | next : turn s = some (some t) → Runs turn t.searchLocation links →
      Runs turn s (t.link.toList ++ links)

/-- The links from a location on: each has a start, they come one behind the other, and
each start is inside one. -/
structure Pass.Finds (pass : Pass) (content : NSString) (s : Nat) (links : List Link) : Prop where
  start : ∀ l ∈ links, ∃ i, pass.IsStart i ∧ l = pass.link i ∧ s ≤ l.range.location ∧
    l.range.max = urlEnd content i
  apart : links.Pairwise fun l l' => l.range.max ≤ l'.range.location
  inside : ∀ l ∈ links, l.range.max ≤ content.length
  covered : ∀ k, s ≤ k → pass.IsStart k → ∃ i, pass.IsStart i ∧ pass.link i ∈ links ∧
    i ≤ k ∧ k < urlEnd content i

section
variable {pass : Pass} {content : NSString} {s next : Nat} {links : List Link}
  {turn : Nat → Option (Option Turn)}

theorem Runs.unique {links' : List Link} (h : Runs turn s links) (h' : Runs turn s links') :
    links = links' := by
  induction h generalizing links' with
  | done hturn =>
    cases h' with
    | done => rfl
    | next hturn' _ =>
      rw [hturn] at hturn'
      cases hturn'
  | next hturn _ ih =>
    cases h' with
    | done hturn' =>
      rw [hturn] at hturn'
      cases hturn'
    | next hturn' hruns =>
      rw [hturn] at hturn'
      cases hturn'
      rw [ih hruns]

theorem Pass.Finds.skip (h : pass.Finds content next links) (hlt : s < next)
    (hnone : ∀ i, s ≤ i → i < next → ¬ pass.IsStart i) : pass.Finds content s links where
  start := by
    intro l hl
    obtain ⟨i, hi, heq, hle, hmax⟩ := h.start l hl
    exact ⟨i, hi, heq, Nat.le_trans (Nat.le_of_lt hlt) hle, hmax⟩
  apart := h.apart
  inside := h.inside
  covered := by
    intro k hk hstart
    obtain hlt' | hle := Nat.lt_or_ge k next
    · exact absurd hstart (hnone k hk hlt')
    · exact h.covered k hle hstart

theorem Pass.Finds.link (h : pass.Finds content (urlEnd content i) links) (hi : pass.IsStart i)
    (hfirst : ∀ k, s ≤ k → k < i → ¬ pass.IsStart k) (hle : s ≤ (pass.link i).range.location)
    (hlt : s < urlEnd content i) (hin : urlEnd content i ≤ content.length)
    (hmax : (pass.link i).range.max = urlEnd content i) :
    pass.Finds content s (pass.link i :: links) where
  start := by
    intro l hl
    obtain rfl | hl := List.mem_cons.mp hl
    · exact ⟨i, hi, rfl, hle, hmax⟩
    · obtain ⟨k, hk, heq, hle', hmax'⟩ := h.start l hl
      exact ⟨k, hk, heq, Nat.le_trans (Nat.le_of_lt hlt) hle', hmax'⟩
  apart := by
    refine List.pairwise_cons.mpr ⟨fun l hl => ?_, h.apart⟩
    obtain ⟨-, -, -, hle', -⟩ := h.start l hl
    exact hmax.trans_le hle'
  inside := by
    intro l hl
    obtain rfl | hl := List.mem_cons.mp hl
    · exact hmax.trans_le hin
    · exact h.inside l hl
  covered := by
    intro k hk hstart
    obtain hlt' | hge := Nat.lt_or_ge k i
    · exact absurd hstart (hfirst k hk hlt')
    · obtain hin' | hout := Nat.lt_or_ge k (urlEnd content i)
      · exact ⟨i, hi, List.mem_cons_self, hge, hin'⟩
      · obtain ⟨j, hj, hmem, hle', hlt'⟩ := h.covered k hout hstart
        exact ⟨j, hj, List.mem_cons_of_mem _ hmem, hle', hlt'⟩

theorem Pass.exists_runs (hturns : ∀ s, pass.Clear s → pass.Turns content s (turn s))
    (hclear : pass.Clear s) :
    ∃ links, Runs turn s links ∧ pass.Finds content s links := by
  induction hn : content.length - s using Nat.strongRecOn generalizing s with
  | _ n ih =>
    generalize hturn : turn s = result
    have hspec := hturns s hclear
    rw [hturn] at hspec
    cases hspec with
    | done hnone =>
      refine ⟨[], .done hturn,
        by simp, .nil, by simp, fun k hk hstart => absurd hstart (hnone k hk)⟩
    | skip hlt hin hnext hnone =>
      obtain ⟨links, hruns, hfinds⟩ := ih _ (by omega) hnext rfl
      exact ⟨links, .next hturn hruns, hfinds.skip hlt hnone⟩
    | link hstart hfirst hle hlt hin hmax hnext =>
      obtain ⟨links, hruns, hfinds⟩ := ih _ (by omega) hnext rfl
      exact ⟨_, .next hturn hruns, hfinds.link hstart hfirst hle hlt hin hmax⟩

theorem Pass.turns_urlTurn {linkRange : NSRange} {anchor : NSString}
    (hmax : linkRange.max ≤ content.length)
    (hs : s ≤ linkRange.location) (hlt : s < linkRange.max)
    (hlink : pass.link i = ⟨⟨linkRange.location, urlEnd content linkRange.max - linkRange.location⟩,
      anchor ++ (urlFrom content linkRange.max).map standardCharacter⟩)
    (hend : urlEnd content i = urlEnd content linkRange.max)
    (hstart : pass.IsStart i ↔ Found content linkRange.max)
    (hfirst : ∀ k, s ≤ k → k < i → ¬ pass.IsStart k)
    (hnone : ¬ pass.IsStart i → ∀ k, s ≤ k → k < linkRange.max → ¬ pass.IsStart k)
    (hin : ∀ k, pass.IsStart k → k < content.length)
    (hskip : pass.Clear linkRange.max) (hclear : pass.Clear (urlEnd content i)) :
    pass.Turns content s (urlTurn content linkRange anchor) := by
  have hle : linkRange.max ≤ urlEnd content linkRange.max := Nat.le_add_right _ _
  rw [urlTurn_eq hmax]
  split
  · rename_i hlast
    refine .done fun k hk hstart' => ?_
    have hnot : ¬ pass.IsStart i := fun h => Nat.lt_irrefl _ (hlast ▸ (hstart.mp h).lt_length)
    exact hnone hnot k hk (hlast ▸ hin k hstart') hstart'
  · split
    · rename_i hfound
      have hlocation : (pass.link i).range.location = linkRange.location := by rw [hlink]
      have hmaxLink : (pass.link i).range.max = urlEnd content i := by
        rw [hlink, hend]
        exact Nat.add_sub_cancel' (Nat.le_trans (Nat.le_add_right _ _) hle)
      rw [← hlink, ← hend]
      exact .link (hstart.mpr hfound) hfirst (hlocation ▸ hs) (hend ▸ Nat.lt_of_lt_of_le hlt hle)
        (hend ▸ urlEnd_le hmax) hmaxLink hclear
    · rename_i hfound
      exact .skip hlt hmax hskip (hnone (mt hstart.mp hfound))

end

-- The loop over `www.`

section
variable {content : NSString} {i k s : Nat}

theorem first_of_rangeOfString {pattern : NSString} {range : NSRange}
    (h : content.rangeOfString pattern (content.rangeFrom s) = some range) :
    pattern <+: content.drop range.location ∧ ∀ k, s ≤ k → k < range.location →
      ¬ pattern <+: content.drop k := by
  obtain ⟨done, u, v, rfl, rfl, rfl, hfirst⟩ := rangeOfString_rangeFrom_eq_some h
  refine ⟨?_, fun k hk hlt hstarts => ?_⟩
  · rw [List.drop_left]
    exact List.prefix_append _ _
  · obtain ⟨n, rfl⟩ := Nat.exists_eq_add_of_le hk
    rw [List.append_assoc, ← List.drop_drop, List.drop_left] at hstarts
    rw [List.length_append] at hlt
    exact hfirst n (Nat.lt_of_add_lt_add_left hlt) hstarts

theorem not_prefix_of_rangeOfString {pattern : NSString} (hpattern : pattern ≠ [])
    (h : content.rangeOfString pattern (content.rangeFrom s) = none) (hk : s ≤ k) :
    ¬ pattern <+: content.drop k := by
  intro hstarts
  refine (rangeOfString_eq_none_iff hpattern).mp h ?_
  rw [substringWithRange_rangeFrom]
  obtain ⟨n, rfl⟩ := Nat.exists_eq_add_of_le hk
  rw [← List.drop_drop] at hstarts
  exact hstarts.isInfix.trans (List.drop_suffix n _).isInfix

theorem getElem?_of_prefix_drop {t : NSString} (h : t <+: content.drop i) (hk : k < t.length) :
    content[i + k]? = some t[k] := by
  rw [← List.getElem?_drop]
  exact List.prefix_iff_getElem?.mp h k hk

structure IsW3 (content : NSString) (i : Nat) : Prop where
  starts : kW3LinkURLString <+: content.drop i
  notSlashed : ∀ k, k + 1 = i → content[k]? ≠ some (uc '/')
  found : Found content (i + 4)

def w3Link (content : NSString) (i : Nat) : Link :=
  ⟨⟨i, urlEnd content i - i⟩, ns "http://www." ++ (urlFrom content (i + 4)).map standardCharacter⟩

def w3Pass (content : NSString) : Pass where
  IsStart := IsW3 content
  link := w3Link content
  Clear _ := ¬ kW3LinkURLString <+: content

theorem not_w3_of_lt (h : kW3LinkURLString <+: content.drop i) (hlt : i < k) (hk : k < i + 4) :
    ¬ kW3LinkURLString <+: content.drop k := by
  intro h'
  have hdot := getElem?_of_prefix_drop h (k := 3) (by decide)
  have hw := getElem?_of_prefix_drop h' (k := i + 3 - k) (show _ < 4 by omega)
  have hget : ∀ n (hn : n < kW3LinkURLString.length), n < 3 → kW3LinkURLString[n] ≠ uc '.' := by
    decide
  rw [show k + (i + 3 - k) = i + 3 by omega, hdot] at hw
  exact hget _ (show _ < 4 by omega) (by omega) (Option.some.inj hw).symm

theorem urlFrom_append {t : NSString} (h : t <+: content.drop i)
    (hurl : ∀ c ∈ t, URLCharacterSet c = true) :
    urlFrom content i = t ++ urlFrom content (i + t.length) := by
  induction t generalizing i with
  | nil => rfl
  | cons c t ih =>
    obtain ⟨hc, ht⟩ := List.forall_mem_cons.mp hurl
    obtain ⟨u, hu⟩ := h
    have htail : content.drop (i + 1) = t ++ u := by
      rw [← List.drop_drop, ← hu]
      rfl
    have hnext := ih ⟨u, htail.symm⟩ ht
    rw [urlFrom, ← hu, List.cons_append, urlText_of_url hc, ← htail]
    rw [urlFrom] at hnext
    rw [hnext, List.length_cons, Nat.add_assoc i 1, Nat.add_comm 1]
    rfl

theorem urlEnd_append {t : NSString} (h : t <+: content.drop i)
    (hurl : ∀ c ∈ t, URLCharacterSet c = true) :
    urlEnd content i = urlEnd content (i + t.length) := by
  rw [urlEnd, urlFrom_append h hurl, List.length_append, ← Nat.add_assoc]
  rfl

theorem urlEnd_w3 (h : kW3LinkURLString <+: content.drop i) :
    urlEnd content i = urlEnd content (i + 4) :=
  urlEnd_append h url_w3

theorem isSlashed_eq (linkRange : NSRange) (hlength : linkRange.length ≠ 0) :
    isSlashed content linkRange =
      if linkRange.location = 0 then none else content[linkRange.location - 1]?.map
        (· == uc '/') := by
  have hmax : linkRange.max ≠ 0 := by
    rw [NSRange.max]
    omega
  rw [isSlashed, if_pos hmax, characterAtIndex]
  by_cases hzero : linkRange.location = 0
  · rw [if_pos hzero, if_pos (by omega)]
    rfl
  · rw [if_neg hzero, if_neg (by omega)]
    congr 2
    omega

theorem w3_turns (hclear : (w3Pass content).Clear s) : (w3Pass content).Turns content s
    (w3Turn content s) := by
  have hclear : ¬ kW3LinkURLString <+: content := hclear
  rw [w3Turn]
  cases hrange : content.rangeOfString kW3LinkURLString (content.rangeFrom s) with
  | none => exact .done fun i hi hstart =>
      not_prefix_of_rangeOfString (by decide) hrange hi hstart.starts
  | some linkRange =>
    obtain ⟨hle, hlength, hmax⟩ := max_rangeOfString_rangeFrom hrange
    obtain ⟨hhere, hfirst⟩ := first_of_rangeOfString hrange
    have hlength : linkRange.length = 4 := hlength
    have hmaxEq : linkRange.max = linkRange.location + 4 :=
      congrArg (linkRange.location + ·) hlength
    have hpos : linkRange.location ≠ 0 := by
      intro hzero
      rw [hzero, List.drop_zero] at hhere
      exact hclear hhere
    have hnone : ¬ IsW3 content linkRange.location →
        ∀ i, s ≤ i → i < linkRange.max → ¬ (w3Pass content).IsStart i := by
      intro hnot i hi hlt hstart
      obtain hbefore | rfl | hafter := Nat.lt_trichotomy i linkRange.location
      · exact hfirst i hi hbefore hstart.starts
      · exact hnot hstart
      · exact not_w3_of_lt hhere hafter (by omega) hstart.starts
    obtain ⟨c, hc⟩ : ∃ c, content[linkRange.location - 1]? = some c :=
      ⟨_, List.getElem?_eq_getElem (by omega)⟩
    simp only [isSlashed_eq linkRange (by omega), if_neg hpos, hc, Option.map_some]
    by_cases hslash : c = uc '/'
    · rw [beq_iff_eq.mpr hslash]
      refine .skip (by omega) hmax hclear (hnone fun hstart => ?_)
      refine hstart.notSlashed (linkRange.location - 1) (by omega) ?_
      rw [hc, hslash]
    · have hbeq : (c == uc '/') = false := beq_eq_false_iff_ne.mpr hslash
      have hstart : IsW3 content linkRange.location ↔ Found content linkRange.max := by
        rw [hmaxEq]
        refine ⟨IsW3.found, fun hfound => ⟨hhere, fun k hk => ?_, hfound⟩⟩
        obtain rfl : k = linkRange.location - 1 := by omega
        rw [hc]
        exact fun heq => hslash (Option.some.inj heq)
      rw [hbeq]
      refine (w3Pass content).turns_urlTurn hmax hle
        (by omega) ?_ ?_ hstart ?_ hnone ?_ hclear hclear
      · rw [hmaxEq, ← urlEnd_w3 hhere]
        rfl
      · rw [hmaxEq, ← urlEnd_w3 hhere]
      · exact fun k hk hlt' hstart' => hfirst k hk hlt' hstart'.starts
      · exact fun k hstart' => Nat.lt_of_le_of_lt (Nat.le_add_right _ _) hstart'.found.lt_length

end

-- The loop over `//`

def runBefore (p : UniChar → Bool) (content : NSString) (k : Nat) : Nat :=
  ((content.take k).reverse.takeWhile p).length

section
variable {content : NSString} {p : UniChar → Bool} {c : UniChar} {i k s : Nat}

theorem runBefore_zero : runBefore p content 0 = 0 := rfl

theorem runBefore_succ (h : content[k]? = some c) :
    runBefore p content (k + 1) = if p c then runBefore p content k + 1 else 0 := by
  obtain ⟨hlt, rfl⟩ := List.getElem?_eq_some_iff.mp h
  rw [runBefore, List.take_succ_eq_append_getElem hlt, List.reverse_append, List.reverse_singleton,
    List.singleton_append, List.takeWhile_cons]
  split <;> rfl

theorem runBefore_le : runBefore p content k ≤ k := by
  have hle := (List.takeWhile_prefix (l := (content.take k).reverse) p).length_le
  rw [List.length_reverse, List.length_take] at hle
  exact Nat.le_trans hle (Nat.min_le_left _ _)

theorem of_runBefore (hle : k - runBefore p content k ≤ i) (hlt : i < k) (hk : k ≤ content.length) :
    ∃ c, content[i]? = some c ∧ p c = true := by
  induction k with
  | zero => exact absurd hlt (Nat.not_lt_zero i)
  | succ k ih =>
    have hc := List.getElem?_eq_getElem hk
    rw [runBefore_succ hc] at hle
    split at hle
    · rename_i hp
      obtain hlt' | rfl := Nat.lt_or_eq_of_le (Nat.le_of_lt_succ hlt)
      · exact ih (by omega) hlt' (Nat.le_of_succ_le hk)
      · exact ⟨_, hc, hp⟩
    · omega

theorem runBefore_le_of_not (hc : content[i]? = some c) (hp : p c = false) (hlt : i < k)
    (hk : k ≤ content.length) :
    runBefore p content k ≤ k - (i + 1) := by
  induction k with
  | zero => exact absurd hlt (Nat.not_lt_zero i)
  | succ k ih =>
    rw [runBefore_succ (List.getElem?_eq_getElem hk)]
    obtain hlt' | rfl := Nat.lt_or_eq_of_le (Nat.le_of_lt_succ hlt)
    · have hle := ih hlt' (Nat.le_of_succ_le hk)
      split
      · omega
      · exact Nat.zero_le _
    · rw [List.getElem?_eq_getElem hk] at hc
      rw [Option.some.inj hc, hp, if_neg Bool.false_ne_true]
      exact Nat.zero_le _

def slashesBefore (content : NSString) (k : Nat) : Nat := runBefore (· == uc '/') content k

def BehindColon (content : NSString) (i : Nat) : Prop := i ≠ 0 ∧ content[i - 1]? = some (uc ':')

instance (content : NSString) (i : Nat) : Decidable (BehindColon content i) :=
  inferInstanceAs (Decidable (i ≠ 0 ∧ content[i - 1]? = some (uc ':')))

def HasW3 (content : NSString) (i : Nat) : Prop :=
  ((content.drop i).take 4).map tolower = kW3LinkURLString.map tolower

instance (content : NSString) (i : Nat) : Decidable (HasW3 content i) :=
  inferInstanceAs (Decidable (((content.drop i).take 4).map tolower = kW3LinkURLString.map tolower))

/-- A `//` behind a colon or in front of a `www.`, with a URL behind it. The slashes of a
row are taken two at a time. -/
structure IsAddress (content : NSString) (i : Nat) : Prop where
  starts : kSlash2LinkURLString <+: content.drop i
  even : slashesBefore content i % 2 = 0
  follows : BehindColon content i ∧ Found content (i + 2) ∨ HasW3 content (i + 2) ∧
    Found content (i + 6)

def protocolFrom (content : NSString) (k : Nat) : Nat := k - runBefore isProtocolCharacter content k

/-- Where the link of an address begins: with the protocol, if there is one. -/
def addressFrom (content : NSString) (i : Nat) : Nat :=
  if BehindColon content i then protocolFrom content (i - 1) else i

def addressValue (content : NSString) (i : Nat) : NSString :=
  if BehindColon content i then
    completedProtocol (content.substringWithRange ⟨addressFrom content i,
      i - 1 - addressFrom content i⟩) ++
      kColonSlash2LinkURLString ++ (urlFrom content (i + 2)).map standardCharacter
  else
    kURLDefaultProtocol ++ kColonSlash2LinkURLString ++ kW3LinkURLString ++
      (urlFrom content (i + 6)).map standardCharacter

def addressLink (content : NSString) (i : Nat) : Link :=
  ⟨⟨addressFrom content i, urlEnd content i - addressFrom content i⟩, addressValue content i⟩

/-- What is kept of the search locations: slashes in front of one have been taken two at a
time, and no protocol goes on in front of it. -/
structure IsClear (content : NSString) (s : Nat) : Prop where
  even : content[s]? = some (uc '/') → slashesBefore content s % 2 = 0
  notColon : content[s]? = some (uc '/') → ¬ BehindColon content s
  protocol : ∀ k, s ≤ k → content[k]? = some (uc ':') →
    runBefore isProtocolCharacter content k ≤ k - s

def addressPass (content : NSString) : Pass where
  IsStart := IsAddress content
  link := addressLink content
  Clear := IsClear content

theorem isClear_zero (content : NSString) : IsClear content 0 where
  even _ := rfl
  notColon _ h := absurd rfl h.1
  protocol _ _ _ := runBefore_le

theorem isClear_succ (hc : content[k]? = some c) (hprotocol : isProtocolCharacter c = false)
    (hcolon : c ≠ uc ':')
    (heven : slashesBefore content (k + 1) % 2 = 0) : IsClear content (k + 1) where
  even _ := heven
  notColon _ h := by
    have hget : content[k]? = some (uc ':') := h.2
    rw [hc] at hget
    exact hcolon (Option.some.inj hget)
  protocol j hj hget := by
    have hlt := (List.getElem?_eq_some_iff.mp hget).1
    exact runBefore_le_of_not hc hprotocol hj (Nat.le_of_lt hlt)

theorem url_of_isProtocolCharacter (h : isProtocolCharacter c = true) :
    URLCharacterSet c = true := by
  obtain ⟨hlow, hhigh⟩ := Bool.and_eq_true_iff.mp h
  have hlow : 97 ≤ c.toNat := UInt16.le_iff_toNat_le.mp (of_decide_eq_true hlow)
  have hhigh : c.toNat ≤ 122 := UInt16.le_iff_toNat_le.mp (of_decide_eq_true hhigh)
  have hc := @url_letter (c.toNat - 97) (by omega)
  rwa [Nat.add_sub_cancel' hlow, UInt16.ofNat_toNat] at hc

theorem isClear_urlEnd (content : NSString) (i : Nat) : IsClear content (urlEnd content i) where
  even h := absurd h (getElem?_urlEnd_ne url_slash)
  notColon h := absurd h (getElem?_urlEnd_ne url_slash)
  protocol k hk hget := by
    obtain rfl | hlt := Nat.eq_or_lt_of_le hk
    · exact absurd hget (getElem?_urlEnd_ne url_colon)
    · have hin := (List.getElem?_eq_some_iff.mp hget).1
      have hc := List.getElem?_eq_getElem (hlt.trans hin)
      have hprotocol : isProtocolCharacter content[urlEnd content i] = false := by
        refine Bool.eq_false_iff.mpr fun h => ?_
        have hnot := not_url_urlEnd hc
        rw [url_of_isProtocolCharacter h] at hnot
        cases hnot
      have hle := runBefore_le_of_not hc hprotocol hlt (Nat.le_of_lt hin)
      omega

/-- A protocol that does not go on in front of the search location is read as a whole. -/
theorem protocolStart_eq (hk : k ≠ 0) (hin : k ≤ content.length) (hs : s ≤ k)
    (hrun : runBefore isProtocolCharacter content k ≤ k - s) :
    protocolStart content s k = some (protocolFrom content k) := by
  induction k with
  | zero => exact absurd rfl hk
  | succ k ih =>
    have hc := List.getElem?_eq_getElem (show k < content.length from hin)
    rw [protocolFrom, protocolStart]
    rw [runBefore_succ hc] at hrun ⊢
    rw [hc]
    simp only
    split
    · rename_i hprotocol
      rw [if_pos hprotocol] at hrun
      have hnot : ¬ k < s := by omega
      by_cases hzero : k = 0
      · subst hzero
        rw [if_pos (.inr rfl), runBefore_zero]
      · rw [if_neg (by omega), ih hzero (Nat.le_of_succ_le hin) (by omega) (by omega), protocolFrom]
        congr 1
        omega
    · rfl

theorem protocolBefore_eq (hin : k ≤ content.length) (hs : s ≤ k)
    (hrun : runBefore isProtocolCharacter content k ≤ k - s) :
    protocolBefore content s k = some
      (completedProtocol (content.substringWithRange ⟨protocolFrom content k,
        k - protocolFrom content k⟩),
        protocolFrom content k) := by
  rw [protocolBefore]
  split
  · rename_i hpos
    have hmax : (⟨protocolFrom content k, k - protocolFrom content k⟩ : NSRange).max = k :=
      Nat.add_sub_cancel' (Nat.sub_le _ _)
    rw [protocolStart_eq (by omega) hin hs hrun]
    simp only [substringInside, hmax, if_pos hin, Option.map_some]
  · rename_i hzero
    obtain rfl : k = 0 := by omega
    rfl

theorem tolower_eq {d : UniChar} (h : tolower c = d) : c = d ∨ c.toNat + 32 = d.toNat := by
  rcases tolower_cases c with hsame | ⟨-, -, hsum⟩
  · exact .inl (hsame.symm.trans h)
  · exact .inr (by rw [← h, hsum])

theorem HasW3.chars (h : HasW3 content i) :
    ∃ t, t.length = 4 ∧ t <+: content.drop i ∧ content[i + 3]? = some (uc '.') ∧
      ∀ c ∈ t, URLCharacterSet c = true ∧ c ≠ uc '/' := by
  have hlen : ((content.drop i).take 4).length = 4 := by
    rw [← List.length_map (f := tolower), h]
    rfl
  have hw : ∀ d : UniChar, d.toNat + 32 = 119 → d = uc 'W' := fun d hd => UInt16.toNat_inj.mp (by
    rw [show (uc 'W').toNat = 87 from rfl]
    omega)
  have hdot : ∀ d : UniChar, tolower d = uc '.' → d = uc '.' := by
    intro d hd
    obtain hd | hd' := tolower_eq hd
    · exact hd
    · rw [show (uc '.').toNat = 46 from rfl] at hd'
      obtain rfl : d = 14 :=
        UInt16.toNat_inj.mp (by rw [show (14 : UniChar).toNat = 14 from rfl]; omega)
      exact absurd hd (by decide)
  refine ⟨(content.drop i).take 4, hlen, List.take_prefix _ _, ?_, fun c hc => ?_⟩
  · have hget := congrArg (·[3]?) h
    simp only [List.getElem?_map, List.getElem?_take, List.getElem?_drop] at hget
    rw [if_pos (by decide)] at hget
    obtain ⟨d, hd, hlower⟩ := Option.map_eq_some_iff.mp hget
    rw [hd, hdot d hlower]
  · have hmem : tolower c ∈ kW3LinkURLString.map tolower := h ▸ List.mem_map_of_mem hc
    obtain hlower | hlower : tolower c = uc 'w' ∨ tolower c = uc '.' := by
      revert hmem
      rw [show kW3LinkURLString.map tolower = [uc 'w', uc 'w', uc 'w', uc '.'] from rfl]
      simp
    · obtain rfl | hc := tolower_eq hlower
      · exact ⟨url_w, by decide⟩
      · rw [hw c hc]
        exact ⟨url_upper_w, by decide⟩
    · rw [hdot c hlower]
      exact ⟨url_dot, by decide⟩

theorem urlEnd_slashes (h : kSlash2LinkURLString <+: content.drop i) :
    urlEnd content i = urlEnd content (i + 2) :=
  urlEnd_append h url_slashes

theorem HasW3.urlEnd_eq (h : HasW3 content i) : urlEnd content i = urlEnd content (i + 4) := by
  obtain ⟨t, hlen, hstarts, -, hall⟩ := h.chars
  rw [urlEnd_append hstarts fun c hc => (hall c hc).1, hlen]

theorem HasW3.not_slashes (h : HasW3 content i) (hi : i ≤ k) (hk : k < i + 4) :
    ¬ kSlash2LinkURLString <+: content.drop k := by
  intro hslashes
  obtain ⟨t, hlen, hstarts, -, hall⟩ := h.chars
  have hslash : content[k]? = some (uc '/') := getElem?_of_prefix_drop hslashes (k := 0) (by decide)
  have hget := getElem?_of_prefix_drop hstarts (k := k - i) (by omega)
  rw [Nat.add_sub_cancel' hi, hslash] at hget
  exact (hall _ (List.getElem_mem _)).2 (Option.some.inj hget).symm

theorem scanString_w3 {scanner : NSScanner} (hstring : scanner.string = content)
    (hat : scanner.scanLocation = i) :
    (HasW3 content i ∧ ∃ next, scanString kW3LinkURLString scanner = some next) ∨
      ¬ HasW3 content i ∧ scanString kW3LinkURLString scanner = none := by
  have hrest : scanner.rest = content.drop i := by rw [NSScanner.rest, hstring, hat]
  have hlength : kW3LinkURLString.length = 4 := rfl
  rw [scanString, hrest, hlength]
  by_cases hw3 : HasW3 content i
  · obtain ⟨t, hlen, hstarts, -⟩ := hw3.chars
    have hin : scanner.scanLocation + 4 ≤ scanner.string.length := by
      have hle := hstarts.length_le
      rw [List.length_drop] at hle
      rw [hstring, hat]
      omega
    exact .inl ⟨hw3, _, (if_pos hw3).trans (dif_pos hin)⟩
  · exact .inr ⟨hw3, if_neg hw3⟩

theorem isColon_eq (hclear : IsClear content s) (hs : s ≤ i)
    (hslash : content[i]? = some (uc '/')) :
    (if s ≤ i - 1 then (characterAtIndex content (i - 1 : Nat)).map (· == uc ':') else some false) =
      some (decide (BehindColon content i)) := by
  obtain ⟨hlt, hget⟩ := List.getElem?_eq_some_iff.mp hslash
  by_cases hin : s ≤ i - 1
  · have hc := List.getElem?_eq_getElem (show i - 1 < content.length by omega)
    rw [if_pos hin, characterAtIndex, if_neg (by omega), Int.toNat_natCast, hc, Option.map_some]
    refine congrArg some (Bool.eq_iff_iff.mpr ?_)
    rw [beq_iff_eq, decide_eq_true_eq, BehindColon, hc, Option.some.injEq]
    refine ⟨fun heq => ⟨?_, heq⟩, fun h => h.2⟩
    rintro rfl
    rw [show content[0 - 1] = content[0] from rfl, hget] at heq
    exact absurd heq (by decide)
  · obtain rfl : s = i := by omega
    rw [if_neg hin, decide_eq_false (hclear.notColon hslash)]

theorem even_of_first (hclear : IsClear content s) (hs : s ≤ i)
    (hhere : kSlash2LinkURLString <+: content.drop i)
    (hfirst : ∀ k, s ≤ k → k < i → ¬ kSlash2LinkURLString <+: content.drop k) :
    slashesBefore content i % 2 = 0 := by
  have hslash : content[i]? = some (uc '/') := getElem?_of_prefix_drop hhere (k := 0) (by decide)
  obtain rfl | hlt := Nat.eq_or_lt_of_le hs
  · exact hclear.even hslash
  · obtain ⟨k, rfl⟩ := Nat.exists_eq_add_of_lt hlt
    have hin := (List.getElem?_eq_some_iff.mp hslash).1
    have hin' : s + k < content.length := by omega
    have hc := List.getElem?_eq_getElem hin'
    have hnot : content[s + k] ≠ uc '/' := by
      intro heq
      refine hfirst (s + k) (Nat.le_add_right _ _) (Nat.lt_succ_self _) ?_
      rw [List.drop_eq_getElem_cons hin', heq, List.drop_eq_getElem_cons hin,
        (List.getElem?_eq_some_iff.mp hslash).2]
      exact ⟨_, rfl⟩
    rw [slashesBefore, runBefore_succ hc, if_neg (by simpa using hnot)]

theorem IsAddress.lt_length (h : IsAddress content i) : i < content.length :=
  (List.getElem?_eq_some_iff.mp (getElem?_of_prefix_drop h.starts (k := 0) (by decide))).1

/-- Behind two slashes of a row, an even number of its slashes has been taken again. -/
theorem isClear_slashes (hhere : kSlash2LinkURLString <+: content.drop i)
    (heven : slashesBefore content i % 2 = 0) :
    IsClear content (i + 2) := by
  have hslash : content[i]? = some (uc '/') := getElem?_of_prefix_drop hhere (k := 0) (by decide)
  have hslash' : content[i + 1]? = some (uc '/') :=
    getElem?_of_prefix_drop hhere (k := 1) (by decide)
  refine isClear_succ hslash' (by decide) (by decide) ?_
  rw [slashesBefore, runBefore_succ hslash', runBefore_succ hslash]
  show (slashesBefore content i + 1 + 1) % 2 = 0
  omega

theorem HasW3.isClear (h : HasW3 content i) : IsClear content (i + 4) := by
  obtain ⟨t, hlen, hstarts, hdot, -⟩ := h.chars
  refine isClear_succ hdot (by decide) (by decide) ?_
  rw [slashesBefore, runBefore_succ hdot]
  rfl

structure FirstSlashes (content : NSString) (s i : Nat) : Prop where
  clear : IsClear content s
  le : s ≤ i
  here : kSlash2LinkURLString <+: content.drop i
  first : ∀ k, s ≤ k → k < i → ¬ kSlash2LinkURLString <+: content.drop k

namespace FirstSlashes

theorem slash (h : FirstSlashes content s i) : content[i]? = some (uc '/') :=
  getElem?_of_prefix_drop h.here (k := 0) (by decide)

theorem max_le (h : FirstSlashes content s i) : i + 2 ≤ content.length :=
  (List.getElem?_eq_some_iff.mp (getElem?_of_prefix_drop h.here (k := 1) (by decide))).1

theorem even (h : FirstSlashes content s i) : slashesBefore content i % 2 = 0 :=
  even_of_first h.clear h.le h.here h.first

theorem not_before (h : FirstSlashes content s i) : ∀ k, s ≤ k → k < i → ¬ IsAddress content k :=
  fun k hk hlt hstart => h.first k hk hlt hstart.starts

/-- Where no address begins at the slashes, none does up to their end. -/
theorem not_address (h : FirstSlashes content s i) (hnot : ¬ IsAddress content i) :
    ∀ k, s ≤ k → k < i + 2 → ¬ IsAddress content k := by
  intro k hk hlt hstart
  obtain hbefore | rfl | hafter := Nat.lt_trichotomy k i
  · exact h.not_before k hk hbefore hstart
  · exact hnot hstart
  · obtain rfl : k = i + 1 := by omega
    have hodd := hstart.even
    have heven := h.even
    rw [slashesBefore, runBefore_succ h.slash] at hodd
    rw [slashesBefore] at heven
    simp only [BEq.rfl, if_true] at hodd
    omega

theorem le_of_colon (h : FirstSlashes content s i) (hcolon : BehindColon content i) :
    s ≤ i - 1 := by
  obtain rfl | hlt := Nat.eq_or_lt_of_le h.le
  · exact absurd hcolon (h.clear.notColon h.slash)
  · exact Nat.le_pred_of_lt hlt

theorem colon_turns (h : FirstSlashes content s i) (hcolon : BehindColon content i) :
    (addressPass content).Turns content s
      (urlTurn content ⟨protocolFrom content (i - 1), 2 + (i - protocolFrom content (i - 1))⟩
        (completedProtocol (content.substringWithRange
          ⟨protocolFrom content (i - 1), i - 1 - protocolFrom content (i - 1)⟩) ++
            kColonSlash2LinkURLString)) := by
  have hs := h.le_of_colon hcolon
  have hrun := h.clear.protocol (i - 1) hs hcolon.2
  have hfrom : protocolFrom content (i - 1) ≤ i - 1 := Nat.sub_le _ _
  have hmax : (⟨protocolFrom content (i - 1), 2 + (i - protocolFrom content (i - 1))⟩ :
    NSRange).max = i + 2 := by
    simp only [NSRange.max]
    omega
  have hstart : IsAddress content i ↔ Found content (i + 2) := by
    refine ⟨fun haddress => ?_, fun hfound => ⟨h.here, h.even, .inl ⟨hcolon, hfound⟩⟩⟩
    obtain ⟨-, hfound⟩ | ⟨hw3, -⟩ := haddress.follows
    · exact hfound
    · obtain ⟨t, hlen, hstarts, -, hall⟩ := hw3.chars
      exact found_of_url (getElem?_of_prefix_drop hstarts (k := 0) (by omega))
        (hall _ (List.getElem_mem _)).1
  refine (addressPass content).turns_urlTurn (hmax.trans_le h.max_le) ?_ ?_ ?_ ?_ ?_ h.not_before ?_
    (fun k hk => hk.lt_length) ?_ (isClear_urlEnd content i)
  · show s ≤ protocolFrom content (i - 1)
    rw [protocolFrom]
    omega
  · rw [hmax]
    exact Nat.lt_of_le_of_lt h.le (Nat.lt_add_of_pos_right (Nat.succ_pos 1))
  · rw [hmax, ← urlEnd_slashes h.here]
    show addressLink content i = _
    rw [addressLink, addressValue, addressFrom, if_pos hcolon, if_pos hcolon]
  · rw [hmax, ← urlEnd_slashes h.here]
  · rw [hmax]
    exact hstart
  · rw [hmax]
    exact h.not_address
  · rw [hmax]
    exact isClear_slashes h.here h.even

theorem w3_turns (h : FirstSlashes content s i) (hcolon : ¬ BehindColon content i)
    (hw3 : HasW3 content (i + 2)) :
    (addressPass content).Turns content s
      (urlTurn content ⟨i, 2 + kW3LinkURLString.length⟩
        (kURLDefaultProtocol ++ kColonSlash2LinkURLString ++ kW3LinkURLString)) := by
  have hstart : IsAddress content i ↔ Found content (i + 6) := by
    refine ⟨fun haddress => ?_, fun hfound => ⟨h.here, h.even, .inr ⟨hw3, hfound⟩⟩⟩
    obtain ⟨hcolon', -⟩ | ⟨-, hfound⟩ := haddress.follows
    · exact absurd hcolon' hcolon
    · exact hfound
  have hmax : i + 6 ≤ content.length := by
    obtain ⟨t, hlen, hstarts, -⟩ := hw3.chars
    have hle := hstarts.length_le
    rw [List.length_drop] at hle
    omega
  have hend : urlEnd content i = urlEnd content (i + 6) :=
    (urlEnd_slashes h.here).trans hw3.urlEnd_eq
  refine (addressPass content).turns_urlTurn hmax h.le ?_ ?_ hend hstart h.not_before ?_
    (fun k hk => hk.lt_length) hw3.isClear (isClear_urlEnd content i)
  · exact Nat.lt_of_le_of_lt h.le (Nat.lt_add_of_pos_right (Nat.succ_pos 5))
  · rw [← show i + 6 = (⟨i, 2 + kW3LinkURLString.length⟩ : NSRange).max from rfl, ← hend]
    show addressLink content i = _
    rw [addressLink, addressValue, addressFrom, if_neg hcolon, if_neg hcolon]
  · intro hnot k hk hlt hstart'
    obtain hlt' | hge := Nat.lt_or_ge k (i + 2)
    · exact h.not_address hnot k hk hlt' hstart'
    · exact hw3.not_slashes hge hlt hstart'.starts

end FirstSlashes

theorem slash_turns (hclear : IsClear content s) : (addressPass content).Turns content s
    (slashTurn content s) := by
  rw [slashTurn]
  cases hrange : content.rangeOfString kSlash2LinkURLString (content.rangeFrom s) with
  | none => exact .done fun i hi hstart =>
      not_prefix_of_rangeOfString (by decide) hrange hi hstart.starts
  | some linkRange =>
    obtain ⟨hle, hlength, -⟩ := max_rangeOfString_rangeFrom hrange
    obtain ⟨hhere, hfirst⟩ := first_of_rangeOfString hrange
    obtain ⟨location, length⟩ := linkRange
    obtain rfl : length = 2 := hlength
    have h : FirstSlashes content s location := ⟨hclear, hle, hhere, hfirst⟩
    have hset : (NSScanner.initWithString content).setScanLocation (⟨location, 2⟩ : NSRange).max =
        some ⟨content, location + 2, h.max_le⟩ := dif_pos h.max_le
    have hend : (NSScanner.mk content (location + 2) h.max_le).isAtEnd =
        decide (location + 2 = content.length) := rfl
    simp only [hset, hend, decide_eq_true_eq, isColon_eq hclear hle h.slash]
    by_cases hlast : location + 2 = content.length
    · -- nothing follows the slashes
      rw [if_pos hlast]
      refine .done fun k hk hstart => h.not_address (fun hnot => ?_) k hk
        (hlast ▸ hstart.lt_length) hstart
      obtain ⟨-, hfound⟩ | ⟨-, hfound⟩ := hnot.follows
      · exact Nat.lt_irrefl _ (hlast ▸ hfound.lt_length)
      · exact Nat.not_lt.mpr (hlast ▸ Nat.le_add_right (location + 2) 4) hfound.lt_length
    · rw [if_neg hlast]
      by_cases hcolon : BehindColon content location
      · have hs := h.le_of_colon hcolon
        have hin : location - 1 ≤ content.length := by
          have hmax := h.max_le
          omega
        simp only [decide_eq_true hcolon, protocolBefore_eq hin hs
          (hclear.protocol (location - 1) hs hcolon.2)]
        exact h.colon_turns hcolon
      · simp only [decide_eq_false hcolon]
        obtain ⟨hw3, next, hscan⟩ | ⟨hw3, hscan⟩ :=
          @scanString_w3 content (location + 2) ⟨content, location + 2, h.max_le⟩ rfl rfl
        · simp only [hscan]
          exact h.w3_turns hcolon hw3
        · simp only [hscan]
          refine .skip (Nat.lt_of_le_of_lt hle (Nat.lt_add_of_pos_right (Nat.succ_pos 1))) h.max_le
            (isClear_slashes hhere h.even) (h.not_address fun hstart => ?_)
          obtain ⟨hcolon', -⟩ | ⟨hw3', -⟩ := hstart.follows
          · exact hcolon hcolon'
          · exact hw3 hw3'

end

end BathyScaphe.Composer
