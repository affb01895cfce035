import BathyScaphe.Composer.OuterCover
import BathyScaphe.Lib.Patch

/-!
# Icons among the links

An address with the protocol of the icons is kept for the end of the scan, and only the last
one is. The ranges of the links in a text, those of the inner anchors with them, share no
place with the icon unless it begins inside the URL of a `www.`
-/

namespace BathyScaphe.Composer

open NSString Overlay Splice

/-- The characters of the files of the resources, and the digits of both widths. -/
def linkCharacters (whitespaceCharacterSet : UniChar → Bool) : LinkCharacters where
  innerLinkPrefixCharacterSet c := [0x3e, 0xff1e, 0x300b, 0x3009].contains c
  innerLinkRangeCharacterSet c := [0x2d, 0x30fc, 0x2212, 0x2014, 0xff70].contains c
  innerLinkSeparaterCharacterSet c :=
    [0x2c, 0x3001, 0xff0c, 0xff0e, 0x3d, 0xff1d, 0x30fb].contains c
  numberCharacterSet_JP c := (0x30 ≤ c && c ≤ 0x39) || (0xff10 ≤ c && c ≤ 0xff19)
  whitespaceCharacterSet := whitespaceCharacterSet

def LinkedString.linkedText (m : LinkedString) : LinkedText :=
  painted m.string (m.links.map Link.layer)

def convertLinkAnchor (composer : BSBeSAAPAnchorComposer) (sets : LinkCharacters) (s : NSString) :
    Option LinkedText := do
  let message ← sets.makeInnerLinkAnchor (.initWithString s)
  makeOuterLinkAnchorIn composer message.linkedText

-- Inner anchors

/-- A link of the scan for addresses begins with a letter, a colon or a slash. -/
def StartsURL (c : UniChar) : Prop := isProtocolCharacter c = true ∨ c = uc ':' ∨ c = uc '/'

structure URLStretch (s : NSString) (start stop : Nat) : Prop where
  starts : ∃ c, s[start]? = some c ∧ StartsURL c
  url : ∀ k c, start ≤ k → k < stop → s[k]? = some c →
    URLCharacterSet c = true ∨ c ∈ nonStandardURLCharacters.map Prod.fst

namespace LinkCharacters

variable {sets : LinkCharacters} {P : UniChar → Prop} {t numbers : NSString} {cset : UniChar → Bool}

theorem IsNumbers.forall (h : sets.IsNumbers t)
    (hnumber : ∀ c, sets.numberCharacterSet_JP c = true → P c)
    (hwhite : ∀ c, sets.whitespaceCharacterSet c = true → P c)
    (hmark : ∀ c, sets.innerLinkRangeCharacterSet c = true ∨ sets.innerLinkSeparaterCharacterSet c =
      true → P c) :
    ∀ c ∈ t, P c := by
  induction h with
  | number hrun => exact fun c hc => hnumber c (hrun.2 c hc)
  | mark _ hbetween hrun ih =>
    intro c hc
    rcases List.mem_append.mp hc with hc | hc
    · rcases List.mem_append.mp hc with hc | hc
      · exact ih c hc
      · cases hbetween with
        | mark hbefore hc' hafter =>
          rcases List.mem_append.mp hc with hc | hc
          · exact hwhite c (hbefore c hc)
          · obtain rfl | hc := List.mem_cons.mp hc
            · exact hmark _ hc'
            · exact hwhite c (hafter c hc)
    · exact hnumber c (hrun.2 c hc)

theorem IsAnchor.forall (h : sets.IsAnchor cset numbers t) (hstart : ∀ c, cset c = true → P c)
    (hnumber : ∀ c, sets.numberCharacterSet_JP c = true → P c)
    (hwhite : ∀ c, sets.whitespaceCharacterSet c = true → P c)
    (hmark : ∀ c, sets.innerLinkRangeCharacterSet c = true ∨ sets.innerLinkSeparaterCharacterSet c =
      true → P c) :
    ∀ c ∈ t, P c := by
  cases h with
  | anchor hrun hwhite' hnumbers =>
    intro c hc
    rcases List.mem_append.mp hc with hc | hc
    · exact hstart c (hrun.2 c hc)
    · rcases List.mem_append.mp hc with hc | hc
      · exact hwhite c (hwhite' c hc)
      · exact hnumbers.forall hnumber hwhite hmark c hc

theorem IsAnchor.head (h : sets.IsAnchor cset numbers t) : ∃ c, t[0]? = some c ∧ cset c = true := by
  cases h with
  | anchor hrun _ _ =>
    obtain ⟨c, start, rfl⟩ := List.exists_cons_of_ne_nil hrun.1
    exact ⟨c, rfl, hrun.2 c List.mem_cons_self⟩

end LinkCharacters

section
variable {s : NSString} {white : UniChar → Bool} {i j k : Nat} {c : UniChar}

theorem url_of_startsURL (h : StartsURL c) : URLCharacterSet c = true := by
  rcases h with h | rfl | rfl
  · exact url_of_isProtocolCharacter h
  · exact url_colon
  · exact url_slash

theorem startsURL_range (h : StartsURL c) : c.toNat = 47 ∨ c.toNat = 58 ∨
    (97 ≤ c.toNat ∧ c.toNat ≤ 122) := by
  rcases h with hletter | rfl | rfl
  · exact .inr (.inr (by simpa [isProtocolCharacter, UInt16.le_iff_toNat_le, uc] using hletter))
  · decide
  · decide

theorem not_startsURL_number (h : (linkCharacters white).numberCharacterSet_JP c = true) :
    ¬ StartsURL c := by
  intro hstarts
  have hrange := startsURL_range hstarts
  have hdigit : (48 ≤ c.toNat ∧ c.toNat ≤ 57) ∨ (65296 ≤ c.toNat ∧ c.toNat ≤ 65305) := by
    simpa [linkCharacters, UInt16.le_iff_toNat_le] using h
  omega

theorem not_startsURL_mark (h : (linkCharacters white).innerLinkRangeCharacterSet c = true ∨
    (linkCharacters white).innerLinkSeparaterCharacterSet c = true) : ¬ StartsURL c := by
  intro hstarts
  have hmem : c ∈ ([0x2d, 0x30fc, 0x2212, 0x2014, 0xff70, 0x2c, 0x3001, 0xff0c,
    0xff0e, 0x3d, 0xff1d, 0x30fb] :
      List UniChar) := by
    simp only [linkCharacters, List.contains_iff_mem] at h
    exact List.mem_append.mpr h
  have hnot : ([0x2d, 0x30fc, 0x2212, 0x2014, 0xff70, 0x2c, 0x3001, 0xff0c, 0xff0e,
    0x3d, 0xff1d, 0x30fb] :
      List UniChar).all (fun d =>
        ¬ (d.toNat = 47 ∨ d.toNat = 58 ∨ (97 ≤ d.toNat ∧ d.toNat ≤ 122))) = true := by decide
  exact of_decide_eq_true (List.all_eq_true.mp hnot c hmem) (startsURL_range hstarts)

theorem prefix_not_url (h : (linkCharacters white).innerLinkPrefixCharacterSet c = true) :
    ¬ (URLCharacterSet c = true ∨ c ∈ nonStandardURLCharacters.map Prod.fst) := by
  have hnot : ([0x3e, 0xff1e, 0x300b, 0x3009] : List UniChar).all
      (fun d => ¬ (URLCharacterSet d = true ∨ d ∈ nonStandardURLCharacters.map Prod.fst)) =
        true := by decide +kernel
  have hmem : c ∈ ([0x3e, 0xff1e, 0x300b, 0x3009] : List UniChar) := by
    simpa [linkCharacters] using h
  exact of_decide_eq_true (List.all_eq_true.mp hnot c hmem)

theorem not_startsURL_prefix (h : (linkCharacters white).innerLinkPrefixCharacterSet c = true) :
    ¬ StartsURL c :=
  fun hstarts => prefix_not_url h (.inl (url_of_startsURL hstarts))

-- Inner anchors and URLs share no place

theorem mem_urlText (cs : List (UniChar × UniChar)) (hcs : cs ⊆ nonStandardURLCharacters)
    (s : NSString) :
    ∀ c ∈ urlText cs s, URLCharacterSet c = true ∨ c ∈ nonStandardURLCharacters.map Prod.fst := by
  induction s generalizing cs with
  | nil => simp [urlText]
  | cons d s ih =>
    intro c hc
    rw [urlText] at hc
    split at hc
    · rename_i hd
      obtain rfl | hc := List.mem_cons.mp hc
      · exact .inl hd
      · exact ih _ (List.Subset.refl _) c hc
    · split at hc
      · cases hc
      · rename_i p cs' hdrop
        have hsub : p :: cs' ⊆ nonStandardURLCharacters := by
          rw [← hdrop]
          exact List.Subset.trans (List.dropWhile_subset _) hcs
        have hp : p.1 = d := by
          have hhead := List.head_dropWhile_not (l := cs) (fun p => decide (p.1 ≠ d))
            (hdrop ▸ List.cons_ne_nil p cs')
          simpa only [hdrop, List.head_cons, decide_eq_false_iff_not, not_not] using hhead
        obtain rfl | hc := List.mem_cons.mp hc
        · exact .inr (List.mem_map.mpr ⟨p, hsub List.mem_cons_self, hp⟩)
        · exact ih _ (fun q hq => hsub (List.mem_cons_of_mem p hq)) c hc

theorem url_of_lt_urlEnd (hi : i ≤ k) (hk : k < urlEnd s i) (hc : s[k]? = some c) :
    URLCharacterSet c = true ∨ c ∈ nonStandardURLCharacters.map Prod.fst := by
  have hstarts : urlFrom s i <+: s.drop i := urlText_starts _ _
  have hlt : k - i < (urlFrom s i).length := by
    rw [urlEnd] at hk
    omega
  have hget := getElem?_of_prefix_drop hstarts hlt
  rw [Nat.add_sub_cancel' hi, hc] at hget
  rw [Option.some.inj hget]
  exact mem_urlText _ (List.Subset.refl _) _ _ (List.getElem_mem hlt)

theorem IsW3.stretch (h : IsW3 s i) : URLStretch s i (urlEnd s i) where
  starts := ⟨_, h.url, .inl (by decide)⟩
  url _ _ hi hk hc := url_of_lt_urlEnd hi hk hc

theorem IsAddress.stretch (h : IsAddress s j) : URLStretch s (addressFrom s j) (urlEnd s j) where
  starts := by
    obtain hlt | heq := Nat.lt_or_eq_of_le (addressFrom_le s j)
    · obtain ⟨c, hc, hfront⟩ := h.front (Nat.le_refl _) hlt
      rcases hfront with hprotocol | hcolon
      · exact ⟨c, hc, .inl hprotocol⟩
      · exact ⟨c, hc, .inr (.inl hcolon)⟩
    · exact ⟨_, heq.symm ▸ h.slash, .inr (.inr rfl)⟩
  url k c hk hk' hc := by
    obtain hlt | hle := Nat.lt_or_ge k j
    · obtain ⟨d, hd, hurl⟩ := h.url_front hk (Nat.le_of_lt hlt)
      rw [hc] at hd
      cases hd
      exact .inl hurl
    · exact url_of_lt_urlEnd hle hk' hc

/-- An inner anchor does not begin inside a URL, and no URL begins inside an inner anchor. -/
theorem URLStretch.not_mem_anchor {start stop : Nat} (h : URLStretch s start stop)
    {link : Link} {numbers : NSString}
    (hwhite : ∀ c, white c = true → URLCharacterSet c = false)
    (hanchor : (linkCharacters white).IsAnchor
      (linkCharacters white).innerLinkPrefixCharacterSet numbers
      (s.substringWithRange link.range))
    (hk : link.layer.Covers k) : ¬ (start ≤ k ∧ k < stop) := by
  rintro ⟨hstart, hstop⟩
  obtain ⟨hlow, hhigh⟩ : link.range.location ≤ k ∧ k < link.range.max := hk
  unfold NSRange.max at hhigh
  have hget : ∀ n, n < link.range.length →
      (s.substringWithRange link.range)[n]? = s[link.range.location + n]? :=
    fun n hn => getElem?_slice hn
  obtain hle | hlt := Nat.lt_or_ge link.range.location start
  · -- the URL begins inside the anchor
    obtain ⟨c, hc, hstarts⟩ := h.starts
    have hmem : c ∈ s.substringWithRange link.range := by
      apply List.mem_of_getElem? (i := start - link.range.location)
      rw [hget _ (by omega), Nat.add_sub_cancel' (Nat.le_of_lt hle), hc]
    have hnot : ∀ c ∈ s.substringWithRange link.range, ¬ StartsURL c := by
      apply hanchor.forall (P := fun c => ¬ StartsURL c)
      · exact fun c hc => not_startsURL_prefix hc
      · exact fun c hc => not_startsURL_number hc
      · intro c hc hstarts
        have hno := hwhite c hc
        rw [url_of_startsURL hstarts] at hno
        cases hno
      · exact fun c hc => not_startsURL_mark hc
    exact hnot c hmem hstarts
  · obtain ⟨c, hc, hprefix⟩ := hanchor.head
    rw [hget 0 (by omega), Nat.add_zero] at hc
    exact prefix_not_url hprefix (h.url _ c hlt (by omega) hc)

end

-- The text after both scans

def BSBeSAAPAnchorComposer.patch (composer : BSBeSAAPAnchorComposer) (icon : Link) :
    Patch (UniChar × Option NSString) :=
  ⟨icon.range.location, icon.range.length, composer.replacement icon⟩

def setLinks (inner : LinkedString) (w3s addresses : List Link) : List Link :=
  inner.links ++ (w3s ++ addresses.filter (!·.isSAAP))

/-- A place that is in none of the links. -/
def Outside (links : List Link) (k : Nat) : Prop := ∀ link ∈ links, ¬ link.layer.Covers k

/-- What the links of a text are after the icons have been set: only what was linked has a
value, and a link whose value is still somewhere is there as a whole. -/
structure KeepsLinks (values : Nat → Option NSString) (icons links : List Link) : Prop where
  set : ∀ k v, values k = some v → ∃ link ∈ links, link.layer.Covers k ∧ link.value = v
  linked : ∀ link ∈ links, ∀ k, link.layer.Covers k → values k ≠ none
  whole : ∀ link ∈ links, ∀ k, link.layer.Covers k → Outside icons k → values k = some link.value →
    ∀ k, link.layer.Covers k → Outside icons k ∧ values k = some link.value

/-- The addresses of the icons and no other text are replaced, each by its icon or by
nothing, and the other links are those of their texts. -/
def ReplacesIcons (composer : BSBeSAAPAnchorComposer) (sets : LinkCharacters)
    (s : NSString) : Prop :=
  ∃ m inner w3s addresses values,
    convertLinkAnchor composer sets s = some m ∧
    sets.makeInnerLinkAnchor (.initWithString s) = some inner ∧
    Runs (w3Turn s) 0 w3s ∧ Runs (slashTurn s) 0 addresses ∧
    m = patchAll ((addresses.filter Link.isSAAP).map composer.patch)
      (s.mapIdx fun k c => (c, values k)) ∧
    KeepsLinks values (addresses.filter Link.isSAAP) (setLinks inner w3s addresses)

structure Scanned (sets : LinkCharacters) (s : NSString) (inner : LinkedString)
    (w3s addresses : List Link) :
    Prop where
  string : inner.string = s
  anchors : ∃ location, LinkCharacters.IsLinked sets sets.innerLinkPrefixCharacterSet inner location
  w3s : (w3Pass s).Finds s 0 w3s
  addresses : (addressPass s).Finds s 0 addresses

section
variable {s : NSString} {sets : LinkCharacters} {white : UniChar → Bool} {inner : LinkedString}
  {w3s addresses : List Link} {composer : BSBeSAAPAnchorComposer} {link : Link} {i j k : Nat}

theorem layers_setLinks (inner : LinkedString) (w3s addresses : List Link) :
    (setLinks inner w3s addresses).map Link.layer = inner.links.map Link.layer ++
      linkLayers w3s addresses := by
  simp only [setLinks, linkLayers, addressLayers, List.map_append]

theorem convertLinkAnchor_eq (composer : BSBeSAAPAnchorComposer) (sets : LinkCharacters)
    (h : ¬ kW3LinkURLString <+: s) :
    ∃ inner w3s addresses, Scanned sets s inner w3s addresses ∧
      sets.makeInnerLinkAnchor (.initWithString s) = some inner ∧
      Runs (w3Turn s) 0 w3s ∧ Runs (slashTurn s) 0 addresses ∧
      convertLinkAnchor composer sets s = some (replaced composer (lastSAAP addresses)
        (painted s ((setLinks inner w3s addresses).map Link.layer))) := by
  obtain ⟨inner, location, hinner, hstring, hlinked⟩ := LinkCharacters.exists_isLinked sets s
  obtain ⟨w3s, addresses, hw3s, haddresses, hfinds, hfinds', heq⟩ :=
    makeOuterLinkAnchorIn_eq composer h
  refine ⟨inner, w3s, addresses, ⟨hstring, ⟨location, hlinked⟩, hfinds, hfinds'⟩,
    hinner, hw3s, haddresses, ?_⟩
  unfold convertLinkAnchor LinkedString.linkedText
  simp only [hinner, Option.bind_eq_bind, Option.bind_some, hstring, heq, layers_setLinks]
  rfl

-- What is seen at a place

/-- No text has two addresses with the protocol of the icons. -/
def AtMostOneIcon (s : NSString) : Prop :=
  ∀ i j, Outermost s i → Outermost s j → IsSAAP s i → IsSAAP s j → i = j

theorem valueAt_setLinks (inner : LinkedString) (w3s addresses : List Link) (k : Nat) :
    valueAt ((setLinks inner w3s addresses).map Link.layer) k =
      ((valueAt (addressLayers addresses) k).or (valueAt (w3s.map Link.layer) k)).or
        (valueAt (inner.links.map Link.layer) k) := by
  rw [layers_setLinks, linkLayers, valueAt_append, valueAt_append]

namespace Scanned

theorem outside_iff (h : Scanned sets s inner w3s addresses) :
    Outside (addresses.filter Link.isSAAP) k ↔
      ∀ j, Outermost s j → IsSAAP s j → ¬ (addressFrom s j ≤ k ∧ k < urlEnd s j) := by
  unfold Outside
  constructor
  · intro hout j hj hsaap hin
    refine hout (addressLink s j) (List.mem_filter.mpr ⟨mem_of_outermost h.addresses hj, ?_⟩)
      ((address_layer_covers hj.1).mpr hin)
    exact (isSAAP_addressLink hj.1).mpr hsaap
  · intro hout link hlink hcovers
    obtain ⟨hmem, hsaap⟩ := List.mem_filter.mp hlink
    obtain ⟨j, hj, rfl⟩ := outermost_of_mem h.addresses hmem
    exact hout j hj ((isSAAP_addressLink hj.1).mp hsaap) ((address_layer_covers hj.1).mp hcovers)

theorem value_address (h : Scanned sets s inner w3s addresses) (hj : Outermost s j)
    (hsaap : ¬ IsSAAP s j)
    (hk : addressFrom s j ≤ k ∧ k < urlEnd s j) :
    valueAt ((setLinks inner w3s addresses).map Link.layer) k = some (addressLink s j).value := by
  have hcovers := (address_layer_covers hj.1).mpr hk
  have hmem : (addressLink s j).layer ∈ addressLayers addresses := by
    refine mem_addressLayers.mpr ⟨_, mem_of_outermost h.addresses hj, ?_, rfl⟩
    exact Bool.eq_false_iff.mpr (mt (isSAAP_addressLink hj.1).mp hsaap)
  have hvalue : valueAt (addressLayers addresses) k = some (addressLink s j).value :=
    valueAt_eq_some hmem hcovers fun l hl hl' =>
      apart_addressLayers h.addresses l hl _ hmem k hl' hcovers
  simp only [valueAt_setLinks, hvalue, Option.some_or]

theorem value_w3 (h : Scanned sets s inner w3s addresses) (hi : IsW3 s i) (hmem : w3Link s i ∈ w3s)
    (hk : i ≤ k ∧ k < urlEnd s i)
    (hfree : ∀ j, Outermost s j → ¬ IsSAAP s j → ¬ (addressFrom s j ≤ k ∧ k < urlEnd s j)) :
    valueAt ((setLinks inner w3s addresses).map Link.layer) k = some (w3Link s i).value := by
  have hcovers := (w3_layer_covers hi).mpr hk
  have hlayer : (w3Link s i).layer ∈ w3s.map Link.layer := List.mem_map_of_mem hmem
  have hnone : valueAt (addressLayers addresses) k = none := by
    refine valueAt_eq_none fun l hl hl' => ?_
    obtain ⟨j, hj, hsaap, rfl⟩ := exists_of_mem_addressLayers h.addresses hl
    exact hfree j hj hsaap ((address_layer_covers hj.1).mp hl')
  have hvalue : valueAt (w3s.map Link.layer) k = some (w3Link s i).value :=
    valueAt_eq_some hlayer hcovers fun l hl hl' =>
      apart_layers h.w3s.apart l hl _ hlayer k hl' hcovers
  simp only [valueAt_setLinks, hnone, hvalue, Option.none_or, Option.some_or]

theorem inner_free (h : Scanned (linkCharacters white) s inner w3s addresses)
    (hwhite : ∀ c, white c = true → URLCharacterSet c = false) (hlink : link ∈ inner.links)
    (hk : link.layer.Covers k) {start stop : Nat} (hstretch : URLStretch s start stop) :
    ¬ (start ≤ k ∧ k < stop) := by
  obtain ⟨location, hlinked⟩ := h.anchors
  obtain ⟨numbers, hanchor, -⟩ := hlinked.anchors link hlink
  rw [h.string] at hanchor
  exact hstretch.not_mem_anchor hwhite hanchor hk

theorem value_inner (h : Scanned (linkCharacters white) s inner w3s addresses)
    (hwhite : ∀ c, white c = true → URLCharacterSet c = false) (hlink : link ∈ inner.links)
    (hk : link.layer.Covers k) :
    valueAt ((setLinks inner w3s addresses).map Link.layer) k = some link.value := by
  obtain ⟨location, hlinked⟩ := h.anchors
  have haddress : valueAt (addressLayers addresses) k = none := by
    refine valueAt_eq_none fun l hl hl' => ?_
    obtain ⟨j, hj, -, rfl⟩ := exists_of_mem_addressLayers h.addresses hl
    exact h.inner_free hwhite hlink hk hj.1.stretch ((address_layer_covers hj.1).mp hl')
  have hw3 : valueAt (w3s.map Link.layer) k = none := by
    refine valueAt_eq_none fun l hl hl' => ?_
    obtain ⟨i, hi, -, rfl⟩ := exists_of_mem_w3 h.w3s hl
    exact h.inner_free hwhite hlink hk hi.stretch ((w3_layer_covers hi).mp hl')
  have hlayer : link.layer ∈ inner.links.map Link.layer := List.mem_map_of_mem hlink
  have hvalue : valueAt (inner.links.map Link.layer) k = some link.layer.value :=
    valueAt_eq_some hlayer hk fun l hl hl' => apart_layers hlinked.apart l hl _ hlayer k hl' hk
  simp only [valueAt_setLinks, haddress, hw3, hvalue, Option.none_or]
  rfl

/-- Where no address takes the end of the URL of a `www.`, each link is kept as a whole. -/
theorem keepsLinks (h : Scanned (linkCharacters white) s inner w3s addresses)
    (hwhite : ∀ c, white c = true → URLCharacterSet c = false) (hapart : LinksApart s)
    (hone : AtMostOneIcon s) :
    KeepsLinks (valueAt ((setLinks inner w3s addresses).map Link.layer))
      (addresses.filter Link.isSAAP)
      (setLinks inner w3s addresses) where
  set k v hv := by
    obtain ⟨l, hl, hcovers, rfl⟩ := exists_of_valueAt hv
    obtain ⟨link, hlink, rfl⟩ := List.mem_map.mp hl
    exact ⟨link, hlink, hcovers, rfl⟩
  linked link hlink k hk := valueAt_ne_none (List.mem_map_of_mem hlink) hk
  whole := by
    intro link hlink p hp hout hvalue k hk
    rw [h.outside_iff] at hout
    simp only [h.outside_iff]
    rcases List.mem_append.mp hlink with hinner | hlink
    · refine ⟨fun j hj _ => ?_, h.value_inner hwhite hinner hk⟩
      exact h.inner_free hwhite hinner hk hj.1.stretch
    · rcases List.mem_append.mp hlink with hw3 | haddress
      · obtain ⟨i, hi, rfl, -, -⟩ := h.w3s.start link hw3
        have hi : IsW3 s i := hi
        have hp := (w3_layer_covers hi).mp hp
        have hk := (w3_layer_covers hi).mp hk
        -- an address that covers a place of the link covers all of them
        have hcovered : ∀ j, Outermost s j → addressFrom s j ≤ k ∧ k < urlEnd s j →
            addressFrom s j ≤ p ∧ p < urlEnd s j := by
          intro j hj hin
          have htakes : Takes s j :=
            ⟨hj, fun hsaap m hm hsaap' => Nat.le_of_eq (hone m j hm hj hsaap' hsaap)⟩
          rcases hi.meets hj.1 with hinside | hmeets
          · exact absurd hinside (hapart.2 i j hi htakes)
          · omega
        refine ⟨fun j hj hsaap hin => hout j hj hsaap (hcovered j hj hin), ?_⟩
        by_cases hfree : ∀ j, Outermost s j → ¬ IsSAAP s j →
          ¬ (addressFrom s j ≤ k ∧ k < urlEnd s j)
        · exact h.value_w3 hi hw3 hk hfree
        · simp only [not_forall, not_not] at hfree
          obtain ⟨j, hj, hsaap, hin⟩ := hfree
          rw [← hvalue, h.value_address hj hsaap hin, h.value_address hj hsaap (hcovered j hj hin)]
      · obtain ⟨hmem, hnot⟩ := List.mem_filter.mp haddress
        obtain ⟨j, hj, rfl⟩ := outermost_of_mem h.addresses hmem
        have hsaap : ¬ IsSAAP s j := by
          rw [← isSAAP_addressLink hj.1]
          simpa using hnot
        have hk := (address_layer_covers hj.1).mp hk
        refine ⟨fun m hm hsaap' hin => ?_, h.value_address hj hsaap hk⟩
        rcases addresses_apart h.addresses hj.1 hm.1 hmem (mem_of_outermost h.addresses hm)
          with rfl | hapart
        · exact hsaap hsaap'
        · omega

-- How many icons are set

theorem ordered_icons (h : Scanned sets s inner w3s addresses) (composer : BSBeSAAPAnchorComposer) :
    Ordered ((addresses.filter Link.isSAAP).map composer.patch) :=
  List.pairwise_map.mpr (h.addresses.apart.filter _)

theorem max_icon (h : Scanned sets s inner w3s addresses) {p : Patch (UniChar × Option NSString)}
    (hp : p ∈ (addresses.filter Link.isSAAP).map composer.patch) : p.max ≤ s.length := by
  obtain ⟨icon, hicon, rfl⟩ := List.mem_map.mp hp
  exact h.addresses.inside icon (List.mem_filter.mp hicon).1

theorem icon_shorter (h : Scanned sets s inner w3s addresses)
    {p : Patch (UniChar × Option NSString)}
    (hp : p ∈ (addresses.filter Link.isSAAP).map composer.patch) : p.new.length < p.length := by
  obtain ⟨icon, hicon, rfl⟩ := List.mem_map.mp hp
  obtain ⟨j, hj, rfl⟩ := outermost_of_mem h.addresses (List.mem_filter.mp hicon).1
  have hone : (composer.replacement (addressLink s j)).length ≤ 1 := by
    unfold BSBeSAAPAnchorComposer.replacement
    split
    · unfold BSBeSAAPAnchorComposer.beIconAttachment
      split <;> decide
    · decide
  have htwo : j + 2 ≤ urlEnd s j := by
    rw [urlEnd_slashes hj.1.starts]
    exact Nat.le_add_right _ _
  have hfrom := addressFrom_le s j
  show (composer.replacement (addressLink s j)).length < urlEnd s j - addressFrom s j
  omega

theorem icons_eq (h : Scanned sets s inner w3s addresses) {m m' : LinkedText}
    (hm : m.length = s.length)
    (hm' : m'.length = s.length)
    (heq : replaced composer (lastSAAP addresses) m = patchAll
      ((addresses.filter Link.isSAAP).map composer.patch) m') :
    addresses.filter Link.isSAAP = (lastSAAP addresses).toList := by
  have hordered := h.ordered_icons composer
  have hmax : ∀ p ∈ (addresses.filter Link.isSAAP).map composer.patch, p.max ≤ s.length :=
    fun _ => h.max_icon
  have hshorter : ∀ p ∈ (addresses.filter Link.isSAAP).map composer.patch,
    p.new.length < p.length :=
    fun _ => h.icon_shorter
  unfold lastSAAP at heq ⊢
  rcases List.eq_nil_or_concat' (addresses.filter Link.isSAAP) with hnil | ⟨front, last, hlast⟩
  · rw [hnil]
    rfl
  · rw [hlast] at heq hordered hmax hshorter ⊢
    rw [List.map_append] at heq hordered hmax hshorter
    rw [List.getLast?_concat, patchAll_append] at heq
    obtain ⟨hfront, -, hbetween⟩ := List.pairwise_append.mp hordered
    have hlastMax : (composer.patch last).max ≤ s.length :=
      hmax _ (List.mem_append_right _ List.mem_cons_self)
    have hlength : (patch (composer.patch last) m).length + _ = m.length + _ :=
      length_patch (hm ▸ hlastMax)
    have hlength' : (patch (composer.patch last) m').length + _ = m'.length + _ :=
      length_patch (hm' ▸ hlastMax)
    have hnone := @eq_nil_of_length_patchAll _ _ (patch (composer.patch last) m') hfront ?_ ?_ ?_
    · obtain rfl := List.map_eq_nil_iff.mp hnone
      rfl
    · intro p hp
      have hle := hbetween p hp _ List.mem_cons_self
      refine Nat.le_trans hle (le_length_patch ?_)
      rw [hm']
      exact Patch.location_le hlastMax
    · exact fun p hp => hshorter p (List.mem_append_left _ hp)
    · have hsame : (patch (composer.patch last) m).length = _ := congrArg List.length heq
      have hfold : patchAll ([last].map composer.patch) m' = patch (composer.patch last) m' := rfl
      rw [hfold] at hsame
      omega

theorem icons_of_atMostOne (h : Scanned sets s inner w3s addresses) (hone : AtMostOneIcon s) :
    addresses.filter Link.isSAAP = (lastSAAP addresses).toList := by
  unfold lastSAAP
  rcases List.eq_nil_or_concat' (addresses.filter Link.isSAAP) with hnil | ⟨front, last, hlast⟩
  · rw [hnil]
    rfl
  · have hmem : ∀ icon ∈ addresses.filter Link.isSAAP, ∃ j, Outermost s j ∧ IsSAAP s j ∧
      icon = addressLink s j := by
      intro icon hicon
      obtain ⟨hmem, hsaap⟩ := List.mem_filter.mp hicon
      obtain ⟨j, hj, rfl⟩ := outermost_of_mem h.addresses hmem
      exact ⟨j, hj, (isSAAP_addressLink hj.1).mp hsaap, rfl⟩
    have hapart := h.addresses.apart.filter Link.isSAAP
    rw [hlast] at hmem hapart ⊢
    cases front with
    | nil => rfl
    | cons icon front =>
      -- the first address and the last one are the same, and one is behind the other
      obtain ⟨i, hi, hsaap, rfl⟩ := hmem icon List.mem_cons_self
      obtain ⟨j, hj, hsaap', rfl⟩ := hmem last (List.mem_append_right _ List.mem_cons_self)
      obtain rfl := hone i j hi hj hsaap hsaap'
      have hbehind :=
        (List.pairwise_cons.mp hapart).1 _ (List.mem_append_right _ List.mem_cons_self)
      rw [addressLink_max hi.1] at hbehind
      have hle : urlEnd s i ≤ i := Nat.le_trans hbehind (addressFrom_le s i)
      exact absurd hi.1.lt_urlEnd (Nat.not_lt.mpr hle)

theorem value_eq (h : Scanned sets s inner w3s addresses) {values : Nat → Option NSString}
    {ls : List (Layer NSString)}
    (heq : replaced composer (lastSAAP addresses) (painted s ls) =
      patchAll ((addresses.filter Link.isSAAP).map composer.patch)
        (s.mapIdx fun k c => (c, values k)))
    (hout : Outside (addresses.filter Link.isSAAP) k) (hk : k < s.length) :
    values k = valueAt ls k := by
  have hm : (painted s ls).length = s.length := length_painted s ls
  have hm' : (s.mapIdx fun k c => (c, values k)).length = s.length := List.length_mapIdx
  have hsame : (painted s ls)[k]? = (s.mapIdx fun k c => (c, values k))[k]? := by
    have hicons := h.icons_eq hm hm' heq
    have hmax : ∀ p ∈ (addresses.filter Link.isSAAP).map composer.patch, p.max ≤ s.length :=
      fun _ => h.max_icon
    rw [hicons] at heq hout hmax
    rcases hlast : lastSAAP addresses with _ | icon <;> rw [hlast] at heq hout hmax
    · exact congrArg (·[k]?) heq
    · have hin := hmax _ List.mem_cons_self
      refine getElem?_eq_of_patch (p := composer.patch icon) (hm.symm ▸ hin) (hm'.symm ▸ hin) heq ?_
      have hnot := hout icon List.mem_cons_self
      unfold Layer.Covers at hnot
      by_contra hcovers
      refine hnot ⟨?_, ?_⟩
      · exact Nat.le_of_not_lt fun hlt => hcovers (.inl hlt)
      · exact Nat.lt_of_not_le fun hle => hcovers (.inr hle)
  rw [getElem?_painted, List.getElem?_mapIdx, List.getElem?_eq_getElem hk] at hsame
  simpa using hsame.symm

end Scanned

theorem convertLinkAnchor_of_starts (composer : BSBeSAAPAnchorComposer) (sets : LinkCharacters)
    (h : kW3LinkURLString <+: s) : convertLinkAnchor composer sets s = none := by
  have hlength : s.length ≠ 0 := by
    have hle := h.length_le
    have hfour : kW3LinkURLString.length = 4 := rfl
    omega
  obtain ⟨inner, location, hinner, hstring, -⟩ := LinkCharacters.exists_isLinked sets s
  unfold convertLinkAnchor makeOuterLinkAnchorIn LinkedString.linkedText
  simp only [hinner, Option.bind_eq_bind, Option.bind_some, hstring, map_fst_painted,
    if_neg hlength, w3Links_of_starts h]
  rfl

theorem ReplacesIcons.exists_scanned (h : ReplacesIcons composer sets s) :
    ¬ kW3LinkURLString <+: s ∧ ∃ inner w3s addresses values, Scanned sets s inner w3s addresses ∧
      replaced composer (lastSAAP addresses)
        (painted s ((setLinks inner w3s addresses).map Link.layer)) =
        patchAll ((addresses.filter Link.isSAAP).map composer.patch)
          (s.mapIdx fun k c => (c, values k)) ∧
      KeepsLinks values (addresses.filter Link.isSAAP) (setLinks inner w3s addresses) := by
  obtain ⟨m, inner, w3s, addresses, values, hm, hinner, hw3s, haddresses, hpatch, hkeeps⟩ := h
  have hstarts : ¬ kW3LinkURLString <+: s := by
    intro hstarts
    rw [convertLinkAnchor_of_starts composer sets hstarts] at hm
    cases hm
  obtain ⟨inner', w3s', addresses', hscanned, hinner', hw3s', haddresses', heq⟩ :=
    convertLinkAnchor_eq composer sets hstarts
  rw [hinner] at hinner'
  obtain rfl := Option.some.inj hinner'
  obtain rfl := hw3s.unique hw3s'
  obtain rfl := haddresses.unique haddresses'
  rw [hm] at heq
  exact ⟨hstarts, inner, w3s, addresses, values, hscanned,
    (Option.some.inj heq).symm.trans hpatch, hkeeps⟩

theorem ReplacesIcons.atMostOneIcon (h : ReplacesIcons composer sets s) : AtMostOneIcon s := by
  obtain ⟨-, inner, w3s, addresses, values, hscanned, heq, -⟩ := h.exists_scanned
  have hicons := hscanned.icons_eq (length_painted s _) List.length_mapIdx heq
  intro i j hi hj hsaap hsaap'
  have hmem : ∀ {k}, Outermost s k → IsSAAP s k → lastSAAP addresses = some (addressLink s k) := by
    intro k hk hsaap
    have hicon : addressLink s k ∈ addresses.filter Link.isSAAP :=
      List.mem_filter.mpr ⟨mem_of_outermost hscanned.addresses hk,
        (isSAAP_addressLink hk.1).mpr hsaap⟩
    rw [hicons] at hicon
    exact Option.mem_toList.mp hicon
  have hsame : some (addressLink s i) = some (addressLink s j) :=
    (hmem hi hsaap).symm.trans (hmem hj hsaap')
  exact addressFrom_injective hi.1 hj.1 (congrArg (·.range.location) (Option.some.inj hsame))

theorem ReplacesIcons.linksApart (h : ReplacesIcons composer sets s) : LinksApart s := by
  obtain ⟨hstarts, inner, w3s, addresses, values, hscanned, heq, hkeeps⟩ := h.exists_scanned
  refine ⟨hstarts, fun i j hi hj hin => ?_⟩
  -- the www. that has been linked may begin in front of this one
  obtain ⟨k, hk, hmem, hle, hlt⟩ := hscanned.w3s.covered i (Nat.zero_le i) hi
  have hk : IsW3 s k := hk
  have hsame := urlEnd_of_mem hle hlt hi.url url_w
  have hoverlap : Overlap s k j := ⟨hk, hj, by omega, by omega⟩
  have hbehind := hoverlap.le_addressFrom
  have hfrom := addressFrom_le s j
  have hinside := hoverlap.inside
  have hlength : urlEnd s k ≤ s.length :=
    urlEnd_le (Nat.le_of_lt (Nat.lt_trans hoverlap.before hj.1.1.lt_length))
  have hout : Outside (addresses.filter Link.isSAAP) k := by
    refine hscanned.outside_iff.mpr fun m hm _ hcovers => ?_
    by_cases hmj : m = j
    · subst hmj
      omega
    · have hother := hoverlap.other_address hscanned.addresses hm hmj
      omega
  have hvalue : ∀ p, k ≤ p → p < urlEnd s k → Outside (addresses.filter Link.isSAAP) p →
      (if ¬ IsSAAP s j ∧ addressFrom s j ≤ p ∧ p < urlEnd s k then some (addressLink s j).value
        else some (w3Link s k).value) = values p := by
    intro p hp hp' hout
    rw [hscanned.value_eq heq hout (by omega), layers_setLinks, valueAt_append,
      hoverlap.valueAt_eq hscanned.w3s hscanned.addresses hmem (by omega) (by omega)]
    by_cases hcovers : ¬ IsSAAP s j ∧ addressFrom s j ≤ p ∧ p < urlEnd s k
    · rw [if_pos hcovers, if_pos hcovers, Option.some_or]
    · rw [if_neg hcovers, if_neg hcovers, if_pos ⟨hp, hp'⟩, Option.some_or]
  have hfirst := hvalue k (Nat.le_refl k) (by omega) hout
  rw [if_neg (by omega)] at hfirst
  have hlink : w3Link s k ∈ setLinks inner w3s addresses :=
    List.mem_append_right _ (List.mem_append_left _ hmem)
  obtain ⟨houtside, hvalues⟩ :=
    hkeeps.whole _ hlink k ((w3_layer_covers hk).mpr ⟨Nat.le_refl k, by omega⟩) hout
    hfirst.symm j ((w3_layer_covers hk).mpr ⟨by omega, by omega⟩)
  have hlast := hvalue j (by omega) hinside houtside
  by_cases hsaap : IsSAAP s j
  · exact hscanned.outside_iff.mp houtside j hj.1 hsaap ⟨hfrom, hj.1.1.lt_urlEnd⟩
  · rw [if_pos ⟨hsaap, hfrom, hinside⟩, hvalues] at hlast
    exact hoverlap.value_ne (Option.some.inj hlast)

theorem replacesIcons_of (hwhite : ∀ c, white c = true → URLCharacterSet c = false)
    (hapart : LinksApart s)
    (hone : AtMostOneIcon s) : ReplacesIcons composer (linkCharacters white) s := by
  obtain ⟨inner, w3s, addresses, hscanned, hinner, hw3s, haddresses, heq⟩ :=
    convertLinkAnchor_eq composer (linkCharacters white) hapart.1
  refine ⟨_, inner, w3s, addresses, _, heq, hinner, hw3s, haddresses, ?_,
    hscanned.keepsLinks hwhite hapart hone⟩
  rw [hscanned.icons_of_atMostOne hone]
  cases lastSAAP addresses <;> rfl

/-- The icons of a text are replaced, and its links are kept, if and only if there is one
icon at most and no address takes the end of the URL of a `www.` -/
theorem replacesIcons_iff (hwhite : ∀ c, white c = true → URLCharacterSet c = false)
    (composer : BSBeSAAPAnchorComposer) (s : NSString) :
    ReplacesIcons composer (linkCharacters white) s ↔ LinksApart s ∧ AtMostOneIcon s :=
  ⟨fun h => ⟨h.linksApart, h.atMostOneIcon⟩, fun h => replacesIcons_of hwhite h.1 h.2⟩

end

theorem slashes_of_isAddress {s : NSString} {places : List Nat}
    (h : ∀ k < s.length, kSlash2LinkURLString <+: s.drop k → k ∈ places) {i : Nat}
    (hi : IsAddress s i) : i ∈ places :=
  h i hi.lt_length hi.starts

theorem replacesIcons_one :
    ReplacesIcons ⟨true, fun _ => true⟩ (linkCharacters fun c =>
      c == uc ' ' || c == 9) (ns ">>1 sssp://a") := by
  have hslashes : ∀ {i}, IsAddress (ns ">>1 sssp://a") i → i = 9 := fun hi =>
    List.mem_singleton.mp (slashes_of_isAddress (by decide) hi)
  refine (replacesIcons_iff ?_ _ _).mpr ⟨⟨by decide, ?_⟩, ?_⟩
  · intro c hc
    have hurl : ∀ d ∈ [uc ' ', 9], URLCharacterSet d = false := by
      rw [List.forall_mem_cons, List.forall_mem_singleton]
      decide +kernel
    exact hurl c (by simpa using hc)
  · intro i j hi _ _
    have hnot : ∀ i < 12, ¬ kW3LinkURLString <+: (ns ">>1 sssp://a").drop i := by decide
    have hlt : i < 12 := (List.getElem?_eq_some_iff.mp hi.url).1
    exact hnot i hlt hi.starts
  · intro i j hi hj _ _
    rw [hslashes hi.1, hslashes hj.1]

/-- Of two icons the first one is left as text. -/
theorem not_replacesIcons_two :
    ¬ ReplacesIcons ⟨true, fun _ => true⟩ (linkCharacters fun c => c == uc ' ' || c == 9)
      (ns "sssp://a sssp://b") := by
  intro h
  have hslashes : ∀ {i}, IsAddress (ns "sssp://a sssp://b") i → i = 5 ∨ i = 14 := fun hi => by
    simpa using @slashes_of_isAddress _ [5, 14] (by decide) _ hi
  have hfirst : IsAddress (ns "sssp://a sssp://b") 5 :=
    ⟨by decide, by decide,
      .inl ⟨by decide, found_of_url (c := uc 'a') rfl (url_of_isProtocolCharacter (by decide))⟩⟩
  have hsecond : IsAddress (ns "sssp://a sssp://b") 14 :=
    ⟨by decide, by decide,
      .inl ⟨by decide, found_of_url (c := uc 'b') rfl (url_of_isProtocolCharacter (by decide))⟩⟩
  have hsame : 5 = 14 := by
    refine h.atMostOneIcon 5 14 ⟨hfirst, fun k hk hk' => ?_⟩ ⟨hsecond, fun k hk hk' => ?_⟩
      (by decide) (by decide)
    · obtain rfl | rfl := hslashes hk' <;> omega
    · obtain rfl | rfl := hslashes hk'
      · decide
      · omega
  cases hsame

end BathyScaphe.Composer
