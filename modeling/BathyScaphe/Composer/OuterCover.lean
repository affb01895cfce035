import BathyScaphe.Composer.OuterLinks

/-!
# Links that cover each other

The links of the addresses cover those of the `www.` in them as a whole. Where an address
begins inside the URL of a `www.` instead, a part of the link of the `www.` is left, and its
value is longer than any URL that the part could be completed to.
-/

namespace BathyScaphe.Composer

open NSString Overlay Splice

section
variable {content : NSString} {i j k : Nat} {w3s addresses : List Link}
  {composer : BSBeSAAPAnchorComposer}

def linkLayers (w3s addresses : List Link) : List (Layer NSString) :=
  w3s.map Link.layer ++ addressLayers addresses

def SeenLayer (w3s addresses : List Link) (l : Layer NSString) : Prop :=
  l ∈ addressLayers addresses ∨
    l ∈ w3s.map Link.layer ∧ ∀ l' ∈ addressLayers addresses, ∀ k, l.Covers k → ¬ l'.Covers k

theorem apart_addressLayers (hfinds : (addressPass content).Finds content 0 addresses) :
    Apart (addressLayers addresses) := apart_layers (hfinds.apart.filter _)

theorem seen_linkLayers (hfinds : (w3Pass content).Finds content 0 w3s)
    (hfinds' : (addressPass content).Finds content 0 addresses) (h : LinksApart content) :
    Seen (linkLayers w3s addresses) (SeenLayer w3s addresses) := by
  refine seen_append (apart_layers hfinds.apart) (apart_addressLayers hfinds') fun l hl l' hl' => ?_
  obtain ⟨i, hi, -, rfl⟩ := exists_of_mem_w3 hfinds hl
  obtain ⟨j, hj, hsaap, rfl⟩ := exists_of_mem_addressLayers hfinds' hl'
  simp only [w3_layer_covers hi, address_layer_covers hj.1]
  obtain hinside | hbefore | hafter | ⟨hle, hsame⟩ := hi.meets hj.1
  · exact absurd hinside (h.2 i j hi ⟨hj, fun hsaap' => absurd hsaap' hsaap⟩)
  · exact .inl fun k hk hk' => by omega
  · exact .inl fun k hk hk' => by omega
  · exact .inr fun k hk => by omega

/-- The ends of an address that takes its place are places over which no link goes on. -/
theorem cut_of_takes (hfinds : (w3Pass content).Finds content 0 w3s)
    (hfinds' : (addressPass content).Finds content 0 addresses) (h : LinksApart content)
    (hj : Takes content j)
    (hsaap : IsSAAP content j) :
    Cut (SeenLayer w3s addresses) (addressFrom content j) ∧
      Cut (SeenLayer w3s addresses) (urlEnd content j) := by
  have hfrom := addressFrom_le content j
  have hend := hj.1.1.lt_urlEnd
  have hcut : ∀ l, SeenLayer w3s addresses l →
      l.stop ≤ addressFrom content j ∨ urlEnd content j ≤ l.start ∨
        (addressFrom content j ≤ l.start ∧ l.stop ≤ urlEnd content j) := by
    rintro l (hl | ⟨hl, -⟩)
    · obtain ⟨i, hi, hnot, rfl⟩ := exists_of_mem_addressLayers hfinds' hl
      obtain rfl | hapart := addresses_apart hfinds' hi.1 hj.1.1 (mem_of_outermost hfinds' hi)
        (mem_of_outermost hfinds' hj.1)
      · exact absurd hsaap hnot
      · have hmax : (addressLink content i).layer.stop = urlEnd content i := addressLink_max hi.1
        have hstart : (addressLink content i).layer.start = addressFrom content i := rfl
        omega
    · obtain ⟨i, hi, -, rfl⟩ := exists_of_mem_w3 hfinds hl
      have hmax : (w3Link content i).layer.stop = urlEnd content i := w3Link_max hi
      have hstart : (w3Link content i).layer.start = i := rfl
      obtain hinside | hapart := hi.meets hj.1.1
      · exact absurd hinside (h.2 i j hi hj)
      · omega
  exact ⟨fun l hl => by have := hcut l hl; omega, fun l hl => by have := hcut l hl; omega⟩

theorem good_of_seen (hfinds : (w3Pass content).Finds content 0 w3s)
    (hfinds' : (addressPass content).Finds content 0 addresses) (l : Layer NSString)
    (hl : SeenLayer w3s addresses l) :
    IsCompleted (slice l.start (l.stop - l.start) content) l.value := by
  obtain hl | ⟨hl, -⟩ := hl
  · obtain ⟨i, hi, -, rfl⟩ := exists_of_mem_addressLayers hfinds' hl
    exact value_of_link (completedURL_address hi.1)
  · obtain ⟨i, hi, -, rfl⟩ := exists_of_mem_w3 hfinds hl
    exact value_of_link (completedURL_w3 hi)

theorem stop_le_of_seen (hfinds : (w3Pass content).Finds content 0 w3s)
    (hfinds' : (addressPass content).Finds content 0 addresses) (l : Layer NSString)
    (hl : SeenLayer w3s addresses l) : l.stop ≤ content.length := by
  obtain hl | ⟨hl, -⟩ := hl
  · obtain ⟨link, hmem, -, rfl⟩ := mem_addressLayers.mp hl
    exact hfinds'.inside link hmem
  · obtain ⟨link, hmem, rfl⟩ := List.mem_map.mp hl
    exact hfinds.inside link hmem

theorem pieced_replacement (composer : BSBeSAAPAnchorComposer) (helper : Link) :
    WellLinked (composer.replacement helper) := by
  rw [BSBeSAAPAnchorComposer.replacement]
  split
  · rw [BSBeSAAPAnchorComposer.beIconAttachment]
    split
    · exact .bare _ .nil
    · exact .nil
  · exact .nil

/-- Where no address takes the end of the URL of a `www.`, the links are those of their texts. -/
theorem wellLinked_of_linksApart (hfinds : (w3Pass content).Finds content 0 w3s)
    (hfinds' : (addressPass content).Finds content 0 addresses) (h : LinksApart content) :
    WellLinked (replaced composer (lastSAAP addresses)
      (painted content (linkLayers w3s addresses))) := by
  have hseen := seen_linkLayers hfinds hfinds' h
  have hgood := fun l (hl : SeenLayer w3s addresses l) (_ : l.start < l.stop) =>
    good_of_seen hfinds hfinds' l hl
  have hzero : Cut (SeenLayer w3s addresses) 0 := fun l hl hin => absurd hin.1 (Nat.not_lt_zero _)
  have hlength : Cut (SeenLayer w3s addresses) (0 + content.length) := by
    rintro l hl ⟨-, hstop⟩
    have hin := stop_le_of_seen hfinds hfinds' l hl
    omega
  cases hlast : lastSAAP addresses with
  | none =>
    have hall := hseen.pieced_slice hgood hzero hlength (Nat.le_of_eq (Nat.zero_add _))
    rwa [slice, List.drop_zero, List.take_of_length_le (by simp)] at hall
  | some helper =>
    obtain ⟨j, hj, hsaap, rfl⟩ := takes_of_lastSAAP hfinds' hlast
    obtain ⟨hfrom, hend⟩ := cut_of_takes hfinds hfinds' h hj hsaap
    have hin : urlEnd content j ≤ content.length := urlEnd_le (Nat.le_of_lt hj.1.1.lt_length)
    have hle : addressFrom content j ≤ urlEnd content j :=
      Nat.le_trans (addressFrom_le content j) (Nat.le_of_lt hj.1.1.lt_urlEnd)
    have hfront := hseen.pieced_slice hgood hzero (n := addressFrom content j)
      (by rwa [Nat.zero_add]) (by omega)
    have hback := hseen.pieced_slice hgood hend (n := content.length - urlEnd content j)
      (by rwa [Nat.add_sub_cancel' hin, ← Nat.zero_add content.length]) (by omega)
    have hrest : slice (urlEnd content j) (content.length - urlEnd content j)
        (painted content (linkLayers w3s addresses)) =
        (painted content (linkLayers w3s addresses)).drop (urlEnd content j) :=
      List.take_of_length_le (by simp)
    rw [hrest] at hback
    have hall := (hfront.append (pieced_replacement composer (addressLink content j))).append hback
    have hmax : addressFrom content j + (urlEnd content j - addressFrom content j) =
      urlEnd content j :=
      Nat.add_sub_cancel' hle
    show WellLinked (splice (addressFrom content j) (urlEnd content j - addressFrom content j) _ _)
    rw [splice, hmax]
    exact hall

-- A link that is covered in part

structure Overlap (content : NSString) (i j : Nat) : Prop where
  w3 : IsW3 content i
  takes : Takes content j
  before : i < j
  inside : j < urlEnd content i

theorem Overlap.urlEnd_eq (h : Overlap content i j) : urlEnd content j = urlEnd content i :=
  urlEnd_of_mem (Nat.le_of_lt h.before) h.inside h.takes.1.1.slash url_slash

theorem Overlap.le_addressFrom (h : Overlap content i j) : i + 4 ≤ addressFrom content j := by
  have haddress := h.takes.1.1
  have hchars : ∀ n (hn : n < kW3LinkURLString.length), content[i + n]? =
    some kW3LinkURLString[n] :=
    fun n hn => getElem?_of_prefix_drop h.w3.starts hn
  have hdot : content[i + 3]? = some (uc '.') := hchars 3 (by decide)
  have hslash := haddress.slash
  have hbehind : i + 3 < j := by
    have hnot : ∀ n (hn : n < kW3LinkURLString.length), kW3LinkURLString[n] ≠ uc '/' := by decide
    refine Nat.lt_of_not_le fun hle => ?_
    have hlt : j - i < kW3LinkURLString.length := show _ < 4 by have := h.before; omega
    have hget := hchars (j - i) hlt
    rw [Nat.add_sub_cancel' (Nat.le_of_lt h.before), hslash] at hget
    exact hnot _ hlt (Option.some.inj hget).symm
  refine Nat.lt_of_not_le fun hle => ?_
  obtain ⟨c, hc, hfront⟩ := haddress.front hle hbehind
  rw [hdot] at hc
  obtain rfl := Option.some.inj hc
  obtain hfront | hfront := hfront <;> exact absurd hfront (by decide)

theorem Overlap.other_address (h : Overlap content i j)
    (hfinds : (addressPass content).Finds content 0 addresses)
    (hk : Outermost content k) (hne : k ≠ j) :
    urlEnd content k < i ∨ urlEnd content i < addressFrom content k := by
  have hw := h.w3.url
  have hsame := h.urlEnd_eq
  have hfrom := addressFrom_le content j
  have hinside := h.inside
  have hbefore := h.before
  obtain heq | hapart | hapart :=
    addresses_apart hfinds hk.1 h.takes.1.1 (mem_of_outermost hfinds hk)
    (mem_of_outermost hfinds h.takes.1)
  · exact absurd heq hne
  · refine .inl (Nat.lt_of_not_le fun hle => ?_)
    obtain heq | hlt := Nat.eq_or_lt_of_le hle
    · rw [heq] at hw
      exact absurd hw (getElem?_urlEnd_ne url_w)
    · obtain hki | rfl | hki := Nat.lt_trichotomy k i
      · have heq := urlEnd_of_mem (Nat.le_of_lt hki) hlt hw url_w
        omega
      · have hslash := hk.1.slash
        rw [hw] at hslash
        exact absurd hslash (by decide)
      · have hlt' := hk.1.lt_urlEnd
        have heq :=
          urlEnd_of_mem (Nat.le_of_lt hki) (show k < urlEnd content i by omega) hk.1.slash url_slash
        omega
  · refine .inr (Nat.lt_of_le_of_ne (hsame ▸ hapart) fun heq => ?_)
    obtain ⟨c, hc, hurl⟩ := hk.1.url_front (Nat.le_refl _) (addressFrom_le content k)
    rw [← heq] at hc
    exact absurd hc (getElem?_urlEnd_ne hurl)

/-- Other links of the first loop are in front of the `www.` or behind the URL. -/
theorem Overlap.other_w3 (h : Overlap content i j) (hfinds : (w3Pass content).Finds content 0 w3s)
    (hi : w3Link content i ∈ w3s) (hk : IsW3 content k) (hmem : w3Link content k ∈ w3s)
    (hne : k ≠ i) :
    urlEnd content k < i ∨ urlEnd content i < k := by
  have hw := h.w3.url
  obtain heq | hapart | hapart := eq_or_of_pairwise hfinds.apart hmem hi
  · exact absurd (congrArg (·.range.location) heq) hne
  · rw [w3Link_max hk] at hapart
    refine .inl (Nat.lt_of_le_of_ne hapart fun heq => ?_)
    rw [← show urlEnd content k = i from heq] at hw
    exact absurd hw (getElem?_urlEnd_ne url_w)
  · rw [w3Link_max h.w3] at hapart
    refine .inr (Nat.lt_of_le_of_ne hapart fun heq => ?_)
    have hw' := hk.url
    rw [← show urlEnd content i = k from heq] at hw'
    exact absurd hw' (getElem?_urlEnd_ne url_w)

/-- A place that only the link of the `www.` and that of the address may cover. -/
theorem Overlap.valueAt_eq (h : Overlap content i j) (hfinds : (w3Pass content).Finds content 0 w3s)
    (hfinds' : (addressPass content).Finds content 0 addresses)
    (hi : w3Link content i ∈ w3s) {q : Nat}
    (hle : i ≤ q + 1) (hq : q ≤ urlEnd content i) :
    valueAt (linkLayers w3s addresses) q =
      if ¬ IsSAAP content j ∧ addressFrom content j ≤ q ∧ q < urlEnd content i then
        some (addressLink content j).value
      else if i ≤ q ∧ q < urlEnd content i then some (w3Link content i).value else none := by
  have hsame := h.urlEnd_eq
  have haddress : ∀ l ∈ addressLayers addresses, l.Covers q →
    l = (addressLink content j).layer := by
    intro l hl hcovers
    obtain ⟨k, hk, -, rfl⟩ := exists_of_mem_addressLayers hfinds' hl
    by_cases hkj : k = j
    · rw [hkj]
    · rw [address_layer_covers hk.1] at hcovers
      have hother := h.other_address hfinds' hk hkj
      omega
  have hw3 : ∀ l ∈ w3s.map Link.layer, l.Covers q → l = (w3Link content i).layer := by
    intro l hl hcovers
    obtain ⟨k, hk, hmem, rfl⟩ := exists_of_mem_w3 hfinds hl
    by_cases hki : k = i
    · rw [hki]
    · rw [w3_layer_covers hk] at hcovers
      have hother := h.other_w3 hfinds hi hk hmem hki
      omega
  have hcovers := address_layer_covers (k := q) h.takes.1.1
  have hcovers' := w3_layer_covers (k := q) h.w3
  rw [linkLayers, valueAt_append]
  split
  · rename_i hin
    have hmem : (addressLink content j).layer ∈ addressLayers addresses := by
      refine mem_addressLayers.mpr ⟨_, mem_of_outermost hfinds' h.takes.1, ?_, rfl⟩
      exact Bool.eq_false_iff.mpr (mt (isSAAP_addressLink h.takes.1.1).mp hin.1)
    rw [valueAt_eq_some hmem (hcovers.mpr ⟨hin.2.1, hsame ▸ hin.2.2⟩) haddress]
    rfl
  · rename_i hnot
    rw [@valueAt_eq_none _ (addressLayers addresses) _ fun l hl hcovered => hnot ?_, Option.none_or]
    · split
      · rename_i hin
        exact valueAt_eq_some (List.mem_map_of_mem hi) (hcovers'.mpr hin) hw3
      · rename_i hout
        exact valueAt_eq_none fun l hl hcovered => hout (hcovers'.mp (hw3 l hl hcovered ▸ hcovered))
    · obtain ⟨k, hk, hsaap, hlayer⟩ := exists_of_mem_addressLayers hfinds' hl
      have heq := haddress l hl hcovered
      rw [heq, hcovers, hsame] at hcovered
      refine ⟨fun hsaap' => ?_, hcovered⟩
      have hkj : k = j :=
        addressFrom_injective hk.1 h.takes.1.1 (congrArg Layer.start (hlayer.symm.trans heq))
      exact hsaap (hkj ▸ hsaap')

theorem length_w3Link_value (h : IsW3 content i) :
    (w3Link content i).value.length = urlEnd content i - i + 7 := by
  have hend : urlEnd content i = i + 4 + (urlFrom content (i + 4)).length := urlEnd_w3 h.starts
  rw [hend, w3Link, List.length_append, List.length_map, show (ns "http://www.").length =
    11 from rfl]
  omega

theorem Overlap.value_ne (h : Overlap content i j) :
    (addressLink content j).value ≠ (w3Link content i).value := by
  intro heq
  have hlength := length_completedURL_le (content.substringWithRange (addressLink content j).range)
  have hrange : (content.substringWithRange (addressLink content j).range).length ≤
      urlEnd content j - addressFrom content j := List.length_take_le _ _
  rw [completedURL_address h.takes.1.1, heq, length_w3Link_value h.w3] at hlength
  rw [h.urlEnd_eq] at hrange
  have hfrom := h.le_addressFrom
  have hle := addressFrom_le content j
  have hinside := h.inside
  omega

theorem replacement_bare (composer : BSBeSAAPAnchorComposer) (helper : Link) :
    ∀ c ∈ composer.replacement helper, c.2 = none := by
  rw [BSBeSAAPAnchorComposer.replacement]
  split
  · rw [BSBeSAAPAnchorComposer.beIconAttachment]
    split <;> decide
  · simp

theorem value_of_painted {ls : List (Layer NSString)} {q : Nat} {c : UniChar × Option NSString}
    (hc : (painted content ls)[q]? = some c) : c.2 = valueAt ls q := by
  rw [getElem?_painted] at hc
  obtain ⟨x, -, rfl⟩ := Option.map_eq_some_iff.mp hc
  rfl

theorem Overlap.ne_value (h : Overlap content i j) (hfinds : (w3Pass content).Finds content 0 w3s)
    (hfinds' : (addressPass content).Finds content 0 addresses)
    (hi : w3Link content i ∈ w3s) {q : Nat}
    (hq : q + 1 = i ∨ q = urlEnd content i) {c : UniChar × Option NSString}
    (hc : (painted content (linkLayers w3s addresses))[q]? = some c) :
    c.2 ≠ some (w3Link content i).value := by
  have hw3 := h.le_addressFrom
  have hinside := h.inside
  have hbefore := h.before
  rw [value_of_painted hc, h.valueAt_eq hfinds hfinds' hi (by omega) (by omega),
    if_neg (by omega), if_neg (by omega)]
  exact Option.some_ne_none _ ∘ Eq.symm

/-- The ends of what is left of the link of the `www.`, where no icon takes the place of the
address. -/
theorem Overlap.ends_painted (h : Overlap content i j)
    (hfinds : (w3Pass content).Finds content 0 w3s)
    (hfinds' : (addressPass content).Finds content 0 addresses) (hi : w3Link content i ∈ w3s)
    (hsaap : ¬ IsSAAP content j) :
    Ends (w3Link content i).value i (addressFrom content j - i)
      (painted content (linkLayers w3s addresses)) where
  front q c hq hc := h.ne_value hfinds hfinds' hi (.inl hq) hc
  behind c hc := by
    have hw3 := h.le_addressFrom
    have hfrom := addressFrom_le content j
    have hinside := h.inside
    rw [Nat.add_sub_cancel' (by omega)] at hc
    rw [value_of_painted hc, h.valueAt_eq hfinds hfinds' hi (by omega) (by omega),
      if_pos ⟨hsaap, Nat.le_refl _, by omega⟩]
    exact fun heq => h.value_ne (Option.some.inj heq)

theorem Overlap.exists_alone (h : Overlap content i j)
    (hfinds : (w3Pass content).Finds content 0 w3s)
    (hfinds' : (addressPass content).Finds content 0 addresses) (hi : w3Link content i ∈ w3s)
    (composer : BSBeSAAPAnchorComposer) {m : LinkedText}
    (hm : m = replaced composer (lastSAAP addresses) (painted content (linkLayers w3s addresses))) :
    ∃ at', slice at' (addressFrom content j - i) m =
        (slice i (addressFrom content j - i) content).map (·, some (w3Link content i).value) ∧
      Ends (w3Link content i).value at' (addressFrom content j - i) m := by
  have hsame := h.urlEnd_eq
  have hw3 := h.le_addressFrom
  have hfrom := addressFrom_le content j
  have hinside := h.inside
  have hleft : slice i (addressFrom content j - i) (painted content (linkLayers w3s addresses)) =
      (slice i (addressFrom content j - i) content).map (·, some (w3Link content i).value) := by
    refine slice_painted fun q hq hlt => ?_
    rw [h.valueAt_eq hfinds hfinds' hi (by omega) (by omega), if_neg (by omega), if_pos (by omega)]
  have hlength := length_painted content (linkLayers w3s addresses)
  cases hlast : lastSAAP addresses with
  | none =>
    have hsaap : ¬ IsSAAP content j := by
      intro hsaap
      rw [lastSAAP_of_takes hfinds' h.takes hsaap] at hlast
      cases hlast
    rw [hm, hlast]
    exact ⟨i, hleft, h.ends_painted hfinds hfinds' hi hsaap⟩
  | some helper =>
    obtain ⟨k, hk, hsaap, rfl⟩ := takes_of_lastSAAP hfinds' hlast
    have hkfrom := addressFrom_le content k
    have hkend := hk.1.1.lt_urlEnd
    have hklength : urlEnd content k ≤ content.length := urlEnd_le (Nat.le_of_lt hk.1.1.lt_length)
    have hmax : addressFrom content k + (urlEnd content k - addressFrom content k) =
      urlEnd content k := by omega
    obtain rfl : m = splice (addressFrom content k) (urlEnd content k - addressFrom content k)
        (composer.replacement (addressLink content k))
        (painted content (linkLayers w3s addresses)) := by
      rw [hm, hlast]
      rfl
    by_cases hkj : k = j
    · -- the address has been replaced
      subst hkj
      have hat : i + (addressFrom content k - i) = addressFrom content k :=
        Nat.add_sub_cancel' (by omega)
      refine ⟨i, (slice_splice_before (by omega) (by omega) _).trans hleft, ?_⟩
      have hends : Ends (w3Link content i).value i (addressFrom content k - i)
          (splice (i + (addressFrom content k - i)) (urlEnd content k - addressFrom content k)
            (composer.replacement (addressLink content k))
            (painted content (linkLayers w3s addresses))) :=
        .splice_at (fun q c hq hc => h.ne_value hfinds hfinds' hi (.inl hq) hc)
          (by omega) (fun c hc => ?_)
          fun c hc => h.ne_value hfinds hfinds' hi (.inr (by omega)) hc
      · rwa [hat] at hends
      · rw [replacement_bare composer (addressLink content k) c hc]
        exact Option.some_ne_none _ ∘ Eq.symm
    · have hnot : ¬ IsSAAP content j := fun hsaap' =>
        hkj (Nat.le_antisymm (h.takes.2 hsaap' k hk.1 hsaap) (hk.2 hsaap j h.takes.1 hsaap'))
      have hends := h.ends_painted hfinds hfinds' hi hnot
      obtain hother | hother := h.other_address hfinds' hk.1 hkj
      · exact ⟨_, (slice_splice_after (by omega) (by omega) _).trans hleft,
          hends.splice_after (by omega) (by omega) _⟩
      · exact ⟨i, (slice_splice_before (by omega) (by omega) _).trans hleft,
          hends.splice_before (by omega) (by omega) _ _⟩

theorem Overlap.not_wellLinked (h : Overlap content i j)
    (hfinds : (w3Pass content).Finds content 0 w3s)
    (hfinds' : (addressPass content).Finds content 0 addresses) (hi : w3Link content i ∈ w3s)
    (composer : BSBeSAAPAnchorComposer) :
    ¬ WellLinked (replaced composer (lastSAAP addresses)
      (painted content (linkLayers w3s addresses))) := by
  intro hlinked
  obtain ⟨at', hslice, hends⟩ := h.exists_alone hfinds hfinds' hi composer rfl
  have hw3 := h.le_addressFrom
  have hfrom := addressFrom_le content j
  have hinside := h.inside
  have hlength : (slice i (addressFrom content j - i) content).length = addressFrom content j - i :=
    length_slice (by have := h.takes.1.1.lt_length; omega)
  rw [← hlength] at hslice hends
  obtain ⟨t, hvalue, hle⟩ := hlinked.exists_piece_le (by rw [hslice, hlength])
    (fun hnil => by rw [hnil, List.length_nil] at hlength; omega) hends
  have hbound := length_completedURL_le t
  rw [← show (w3Link content i).value = completedURL t from hvalue,
    length_w3Link_value h.w3] at hbound
  omega

end

-- The links of a text

/-- No character outside of the text is asked for, and the links are those of their texts. -/
def MakesLinks (composer : BSBeSAAPAnchorComposer) (content : NSString) : Prop :=
  ∃ m, makeOuterLinkAnchor composer content = some m ∧ WellLinked m

theorem makeOuterLinkAnchor_of_starts {content : NSString} (composer : BSBeSAAPAnchorComposer)
    (h : kW3LinkURLString <+: content) : makeOuterLinkAnchor composer content = none := by
  have hlength : content.length ≠ 0 := by
    have hle := h.length_le
    have hfour : kW3LinkURLString.length = 4 := rfl
    omega
  rw [makeOuterLinkAnchor, makeOuterLinkAnchorIn, map_fst_unlinked]
  simp only [if_neg hlength, w3Links_of_starts h]
  rfl

theorem makesLinks_iff (composer : BSBeSAAPAnchorComposer) (content : NSString) :
    MakesLinks composer content ↔ LinksApart content := by
  by_cases hstarts : kW3LinkURLString <+: content
  · refine iff_of_false ?_ fun h => h.1 hstarts
    rintro ⟨m, hm, -⟩
    rw [makeOuterLinkAnchor_of_starts composer hstarts] at hm
    cases hm
  · obtain ⟨w3s, addresses, hfinds, hfinds', heq⟩ := makeOuterLinkAnchor_eq composer hstarts
    constructor
    · rintro ⟨m, hm, hlinked⟩
      rw [heq] at hm
      cases hm
      refine ⟨hstarts, fun i j hi hj hin => ?_⟩
      obtain ⟨k, hk, hmem, hle, hlt⟩ := hfinds.covered i (Nat.zero_le i) hi
      have hk : IsW3 content k := hk
      have hsame := urlEnd_of_mem hle hlt hi.url url_w
      exact Overlap.not_wellLinked ⟨hk, hj, by omega, by omega⟩ hfinds hfinds' hmem composer hlinked
    · intro h
      exact ⟨_, heq, wellLinked_of_linksApart hfinds hfinds' h⟩

/-- The scan of `www.a`. -/
theorem not_makesLinks_w3 : ¬ MakesLinks ⟨false, fun _ => false⟩ (ns "www.a") := by
  rintro ⟨m, hm, -⟩
  rw [makeOuterLinkAnchor_of_starts _ (by decide)] at hm
  cases hm

end BathyScaphe.Composer
