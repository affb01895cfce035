import BathyScaphe.Composer.OuterScan

/-!
# Outer links

The scan links stretches of the text with the URLs that they are completed to, unless the
text begins with a `www.`, or an address begins inside the URL behind a `www.`: the link of
the address covers the end of that of the `www.`, and what is left of it has the value of
the whole. -/

namespace BathyScaphe.Composer

open NSString Overlay Splice

-- What a linked text is completed to

/-- The URL of a linked text: `www.` is completed to `http://www.`, as it is behind two
slashes, where it is in either case, and what is left of a protocol to the protocol.
Full-width tildes are replaced. -/
def completedURL (t : NSString) : NSString :=
  if kW3LinkURLString <+: t then ns "http://" ++ t.map standardCharacter
  else if kSlash2LinkURLString <+: t ∧ HasW3 t 2 then ns "http://www." ++
    (t.drop 6).map standardCharacter
  else
    let protocol := t.takeWhile isProtocolCharacter
    completedProtocol protocol ++ (t.drop protocol.length).map standardCharacter

def IsCompleted (t v : NSString) : Prop := v = completedURL t

/-- Unlinked characters, and links with the URLs of their texts, one behind the other. -/
def WellLinked : LinkedText → Prop := Pieced IsCompleted

section
variable {content t : NSString} {i j k : Nat}

theorem length_completedProtocol_le (protocol : NSString) :
    (completedProtocol protocol).length ≤ protocol.length + 5 := by
  rw [completedProtocol]
  split
  · exact Nat.le_trans (show 4 ≤ 5 by decide) (Nat.le_add_left _ _)
  · split
    · exact Nat.le_add_left 5 _
    · exact Nat.le_add_right _ _

theorem length_completedURL_le (t : NSString) : (completedURL t).length ≤ t.length + 7 := by
  rw [completedURL]
  split
  · rw [List.length_append, List.length_map, show (ns "http://").length = 7 from rfl]
    omega
  · split
    · rename_i hslashes
      have hle := congrArg List.length hslashes.2
      rw [List.length_map, List.length_take, List.length_drop, List.length_map] at hle
      have hfour : kW3LinkURLString.length = 4 := rfl
      rw [List.length_append, List.length_map, List.length_drop,
        show (ns "http://www.").length = 11 from rfl]
      omega
    · have hprotocol := length_completedProtocol_le (t.takeWhile isProtocolCharacter)
      have hle := (List.takeWhile_prefix (l := t) isProtocolCharacter).length_le
      simp only [List.length_append, List.length_map, List.length_drop]
      omega

theorem map_standardCharacter (h : ∀ c ∈ t, URLCharacterSet c = true) :
    t.map standardCharacter = t :=
  (List.map_congr_left fun c hc => standardCharacter_of_url (h c hc)).trans (List.map_id' t)

theorem substring_urlEnd (content : NSString) (i : Nat) :
    content.substringWithRange ⟨i, urlEnd content i - i⟩ = urlFrom content i := by
  have hlength : urlEnd content i - i = (urlFrom content i).length := Nat.add_sub_cancel_left _ _
  obtain ⟨u, hu⟩ : urlFrom content i <+: content.drop i := urlText_starts _ _
  rw [substringWithRange, hlength, ← hu, List.take_left]

theorem completedURL_w3 (h : IsW3 content i) :
    completedURL (content.substringWithRange (w3Link content i).range) =
      (w3Link content i).value := by
  have happend := urlFrom_append h.starts url_w3
  rw [w3Link, substring_urlEnd, happend, completedURL, if_pos (List.prefix_append _ _),
    List.map_append, map_standardCharacter url_w3]
  rfl

-- Addresses

theorem IsAddress.slash (h : IsAddress content i) : content[i]? = some (uc '/') :=
  getElem?_of_prefix_drop h.starts (k := 0) (by decide)

theorem addressFrom_le (content : NSString) (i : Nat) : addressFrom content i ≤ i := by
  rw [addressFrom]
  split
  · exact Nat.le_trans (Nat.sub_le _ _) (Nat.sub_le _ _)
  · exact Nat.le_refl _

theorem IsAddress.front (h : IsAddress content i) (hk : addressFrom content i ≤ k) (hlt : k < i) :
    ∃ c, content[k]? = some c ∧ (isProtocolCharacter c = true ∨ c = uc ':') := by
  have hin := h.lt_length
  rw [addressFrom] at hk
  split at hk
  · rename_i hcolon
    obtain hlt' | rfl : k < i - 1 ∨ k = i - 1 := by omega
    · obtain ⟨c, hc, hprotocol⟩ := of_runBefore hk hlt' (by omega)
      exact ⟨c, hc, .inl hprotocol⟩
    · exact ⟨_, hcolon.2, .inr rfl⟩
  · omega

theorem IsAddress.url_front (h : IsAddress content i) (hk : addressFrom content i ≤ k)
    (hle : k ≤ i) :
    ∃ c, content[k]? = some c ∧ URLCharacterSet c = true := by
  obtain hlt | rfl := Nat.lt_or_eq_of_le hle
  · obtain ⟨c, hc, hprotocol | rfl⟩ := h.front hk hlt
    · exact ⟨c, hc, url_of_isProtocolCharacter hprotocol⟩
    · exact ⟨_, hc, url_colon⟩
  · exact ⟨_, h.slash, url_slash⟩

theorem IsAddress.lt_urlEnd (h : IsAddress content i) : i < urlEnd content i :=
  BathyScaphe.Composer.lt_urlEnd h.slash url_slash

theorem takeWhile_protocol {u : NSString} (h : ∀ c ∈ t, isProtocolCharacter c = true) :
    (t ++ uc ':' :: u).takeWhile isProtocolCharacter = t := by
  rw [List.takeWhile_append_of_pos h, List.takeWhile_cons, if_neg (by decide), List.append_nil]

theorem completedURL_protocol {u : NSString} (h : ∀ c ∈ t, isProtocolCharacter c = true) :
    completedURL (t ++ uc ':' :: u) = completedProtocol t ++
      (uc ':' :: u).map standardCharacter := by
  have hw3 : ¬ kW3LinkURLString <+: t ++ uc ':' :: u := by
    rintro ⟨v, hv⟩
    have hwww : (kW3LinkURLString ++ v).takeWhile isProtocolCharacter = ns "www" := rfl
    rw [hv, takeWhile_protocol h] at hwww
    rw [hwww] at hv
    have hget : some (uc '.') = some (uc ':') := congrArg (·[3]?) hv
    exact absurd hget (by decide)
  have hslashes : ¬ kSlash2LinkURLString <+: t ++ uc ':' :: u := by
    rintro ⟨v, hv⟩
    have hnone : (kSlash2LinkURLString ++ v).takeWhile isProtocolCharacter = [] := rfl
    rw [hv, takeWhile_protocol h] at hnone
    rw [hnone] at hv
    have hget : some (uc '/') = some (uc ':') := congrArg (·[0]?) hv
    exact absurd hget (by decide)
  rw [completedURL, if_neg hw3, if_neg fun hboth => hslashes hboth.1]
  simp only [takeWhile_protocol h, List.drop_left]

theorem protocol_chars (hk : k ≤ content.length) :
    ∀ c ∈ content.substringWithRange ⟨protocolFrom content k, k - protocolFrom content k⟩,
      isProtocolCharacter c = true := by
  intro c hc
  obtain ⟨n, hn⟩ := List.mem_iff_getElem?.mp hc
  obtain ⟨hlt, -⟩ := List.getElem?_eq_some_iff.mp hn
  have hlen : (content.substringWithRange ⟨protocolFrom content k,
    k - protocolFrom content k⟩).length ≤
      k - protocolFrom content k := List.length_take_le _ _
  obtain ⟨d, hd, hprotocol⟩ :=
    of_runBefore (p := isProtocolCharacter) (i := protocolFrom content k + n) (k := k)
    (Nat.le_add_right _ _) (by omega) hk
  have hget : (content.substringWithRange ⟨protocolFrom content k,
    k - protocolFrom content k⟩)[n]? =
      content[protocolFrom content k + n]? := getElem?_slice (Nat.lt_of_lt_of_le hlt hlen)
  obtain rfl : c = d := Option.some.inj (hn.symm.trans (hget.trans hd))
  exact hprotocol

/-- The text of an address behind a colon: the protocol, the colon and the URL. -/
theorem substring_addressLink (h : IsAddress content i) (hcolon : BehindColon content i) :
    content.substringWithRange (addressLink content i).range =
      content.substringWithRange ⟨addressFrom content i, i - 1 - addressFrom content i⟩ ++
        uc ':' :: urlFrom content i := by
  have hlt := h.lt_urlEnd
  have hpos := hcolon.1
  have hfrom : addressFrom content i ≤ i - 1 := by
    rw [addressFrom, if_pos hcolon]
    exact Nat.sub_le _ _
  have hlength : urlEnd content i - addressFrom content i =
      (i - 1 - addressFrom content i) + (1 + (urlEnd content i - i)) := by omega
  have hone : slice (i - 1) 1 content = [uc ':'] := by
    obtain ⟨hin, hget⟩ := List.getElem?_eq_some_iff.mp hcolon.2
    rw [slice, List.drop_eq_getElem_cons hin, hget]
    rfl
  show slice _ _ content = slice _ _ content ++ _
  rw [addressLink, hlength, slice_add, slice_add, Nat.add_sub_cancel' hfrom, hone,
    Nat.sub_add_cancel (by omega),
    List.singleton_append, ← substring_urlEnd]
  rfl

theorem completedURL_address (h : IsAddress content i) :
    completedURL (content.substringWithRange (addressLink content i).range) =
      (addressLink content i).value := by
  have happend := urlFrom_append h.starts url_slashes
  have hin := h.lt_length
  by_cases hcolon : BehindColon content i
  · have hchars := @protocol_chars content (i - 1) (by omega)
    have hfrom : addressFrom content i = protocolFrom content (i - 1) := if_pos hcolon
    rw [substring_addressLink h hcolon, hfrom, completedURL_protocol hchars, happend, addressLink,
      addressValue, if_pos hcolon, hfrom, List.map_cons, List.map_append,
      map_standardCharacter url_slashes, List.append_assoc]
    rfl
  · have hfrom : addressFrom content i = i := if_neg hcolon
    obtain ⟨hcolon', -⟩ | ⟨hw3, hfound⟩ := h.follows
    · exact absurd hcolon' hcolon
    · obtain ⟨t, hlen, hstarts, -, hall⟩ := hw3.chars
      have happend' := urlFrom_append hstarts fun c hc => (hall c hc).1
      have htext : content.substringWithRange (addressLink content i).range =
          kSlash2LinkURLString ++ (t ++ urlFrom content (i + 6)) := by
        rw [addressLink, hfrom, substring_urlEnd, happend,
          show i + 6 = i + 2 + t.length by omega, ← happend']
        rfl
      have hnot : ¬ kW3LinkURLString <+: kSlash2LinkURLString ++
        (t ++ urlFrom content (i + 6)) := by
        rintro ⟨v, hv⟩
        have hget : some (uc 'w') = some (uc '/') := congrArg (·[0]?) hv
        exact absurd hget (by decide)
      have hw3' : HasW3 (kSlash2LinkURLString ++ (t ++ urlFrom content (i + 6))) 2 := by
        obtain ⟨u, hu⟩ := hstarts
        rw [HasW3, ← hu, ← hlen, List.take_left] at hw3
        show (((t ++ urlFrom content (i + 6)).take 4).map tolower) = _
        rw [← hlen, List.take_left]
        exact hw3
      rw [htext, completedURL, if_neg hnot, if_pos ⟨List.prefix_append _ _, hw3'⟩, addressLink,
        addressValue, if_neg hcolon]
      show _ ++ ((t ++ urlFrom content (i + 6)).drop 4).map standardCharacter = _
      rw [← hlen, List.drop_left]
      rfl

end

-- The text after the loops

section
variable {content : NSString} {ls : List (Layer NSString)} {links : List Link} {s : Nat}

theorem addLink_painted {link : Link} (h : link.range.max ≤ content.length)
    (ls : List (Layer NSString)) :
    addLink link (painted content ls) = some (painted content (ls ++ [link.layer])) := by
  rw [addLink, length_painted, if_pos h, cover_painted]

theorem w3Links_of_none (h : w3Turn content s = none) (m : LinkedText) :
    w3Links content s m = none := by
  rw [w3Links]
  split <;> rename_i hturn <;> rw [h] at hturn <;> cases hturn

theorem w3Links_of_done (h : w3Turn content s = some none) (m : LinkedText) :
    w3Links content s m = some m := by
  rw [w3Links]
  split <;> rename_i hturn <;> rw [h] at hturn <;> cases hturn

theorem w3Links_of_turn {turn : Turn} (h : w3Turn content s = some (some turn)) (m : LinkedText) :
    w3Links content s m = (turn.link.elim (some m) (addLink · m)).bind
      (w3Links content turn.searchLocation) := by
  rw [w3Links]
  split <;> rename_i hturn <;> rw [h] at hturn <;> cases hturn
  cases turn.link.elim (some m) (addLink · m) <;> rfl

theorem w3Links_of_runs (hruns : Runs (w3Turn content) s links)
    (hin : ∀ l ∈ links, l.range.max ≤ content.length) (ls : List (Layer NSString)) :
    w3Links content s (painted content ls) =
      some (painted content (ls ++ links.map Link.layer)) := by
  induction hruns generalizing ls with
  | done hturn => rw [w3Links_of_done hturn, List.map_nil, List.append_nil]
  | @next s turn links hturn _ ih =>
    rw [w3Links_of_turn hturn]
    obtain ⟨link, searchLocation⟩ := turn
    cases link with
    | none => exact ih hin ls
    | some link =>
      obtain ⟨hlink, hrest⟩ := List.forall_mem_cons.mp hin
      simp only [Option.elim_some, addLink_painted hlink, Option.bind_some]
      rw [ih hrest, List.append_assoc]
      rfl

def addressLayers (links : List Link) : List (Layer NSString) :=
  (links.filter (!·.isSAAP)).map Link.layer

def lastSAAP (links : List Link) : Option Link := (links.filter Link.isSAAP).getLast?

theorem addressLayers_cons (link : Link) (links : List Link) :
    addressLayers (link :: links) =
      if link.isSAAP then addressLayers links else link.layer :: addressLayers links := by
  rw [addressLayers, List.filter_cons]
  cases link.isSAAP <;> rfl

theorem lastSAAP_cons (link : Link) (links : List Link) :
    lastSAAP (link :: links) = if link.isSAAP then (lastSAAP links).or (some link)
    else lastSAAP links := by
  rw [lastSAAP, List.filter_cons]
  split
  · rw [List.getLast?_cons, lastSAAP]
    cases (links.filter Link.isSAAP).getLast? <;> rfl
  · rfl

theorem slashLinks_of_done (h : slashTurn content s = some none) (links : OuterLinks) :
    slashLinks content s links = some links := by
  rw [slashLinks]
  split <;> rename_i hturn <;> rw [h] at hturn <;> cases hturn

theorem slashLinks_of_turn {turn : Turn} (h : slashTurn content s = some (some turn))
    (links : OuterLinks) :
    slashLinks content s links =
      (turn.link.elim (some links) links.setLink).bind
      (slashLinks content turn.searchLocation) := by
  rw [slashLinks]
  split <;> rename_i hturn <;> rw [h] at hturn <;> cases hturn
  cases turn.link.elim (some links) links.setLink <;> rfl

theorem setLink_painted {link : Link} (h : link.range.max ≤ content.length)
    (ls : List (Layer NSString)) (helper : Option Link) :
    OuterLinks.setLink link ⟨painted content ls, helper⟩ =
      some (if link.isSAAP then ⟨painted content ls, some link⟩
        else ⟨painted content (ls ++ [link.layer]), helper⟩) := by
  rw [OuterLinks.setLink]
  split
  · rfl
  · rw [addLink_painted h, Option.map_some]

theorem slashLinks_of_runs (hruns : Runs (slashTurn content) s links)
    (hin : ∀ l ∈ links, l.range.max ≤ content.length) (ls : List (Layer NSString))
    (helper : Option Link) :
    slashLinks content s ⟨painted content ls, helper⟩ =
      some ⟨painted content (ls ++ addressLayers links), (lastSAAP links).or helper⟩ := by
  induction hruns generalizing ls helper with
  | done hturn =>
    rw [slashLinks_of_done hturn, show addressLayers [] = [] from rfl, List.append_nil]
    rfl
  | @next s turn links hturn _ ih =>
    rw [slashLinks_of_turn hturn]
    obtain ⟨link, searchLocation⟩ := turn
    cases link with
    | none => exact ih hin ls helper
    | some link =>
      obtain ⟨hlink, hrest⟩ := List.forall_mem_cons.mp hin
      rw [Option.elim_some, setLink_painted hlink, Option.bind_some, Option.toList_some,
        List.singleton_append, addressLayers_cons, lastSAAP_cons]
      by_cases hsaap : link.isSAAP = true
      · rw [if_pos hsaap, if_pos hsaap, if_pos hsaap, ih hrest, Option.or_assoc]
        rfl
      · rw [if_neg hsaap, if_neg hsaap, if_neg hsaap, ih hrest, List.append_assoc]
        rfl

/-- Where the text begins with a `www.` the character in front of it is asked for. -/
theorem w3Links_of_starts (h : kW3LinkURLString <+: content) (m : LinkedText) :
    w3Links content 0 m = none := by
  have hstarts : kW3LinkURLString <+: content.drop 0 := h
  have hturn : w3Turn content 0 = none := by
    rw [w3Turn]
    cases hrange : content.rangeOfString kW3LinkURLString (content.rangeFrom 0) with
    | none => exact absurd hstarts (not_prefix_of_rangeOfString (by decide) hrange (Nat.le_refl 0))
    | some linkRange =>
      obtain ⟨-, hlength, -⟩ := max_rangeOfString_rangeFrom hrange
      obtain ⟨-, hfirst⟩ := first_of_rangeOfString hrange
      have hzero : linkRange.location = 0 :=
        Nat.eq_zero_of_not_pos fun hpos => hfirst 0 (Nat.le_refl 0) hpos hstarts
      have hne : linkRange.length ≠ 0 := by
        rw [hlength]
        decide
      simp only [isSlashed_eq linkRange hne, if_pos hzero]
  exact w3Links_of_none hturn m

/-- The text with what takes the place of the last link to an icon. -/
def replaced (composer : BSBeSAAPAnchorComposer) (helper : Option Link) (m : LinkedText) :
    LinkedText :=
  helper.elim m fun helper => splice helper.range.location helper.range.length
    (composer.replacement helper) m

theorem map_fst_painted (s : NSString) (ls : List (Layer NSString)) :
    (painted s ls).map Prod.fst = s := by
  refine List.ext_getElem? fun k => ?_
  rw [List.getElem?_map, getElem?_painted, Option.map_map]
  exact Option.map_id'

theorem makeOuterLinkAnchorIn_eq (composer : BSBeSAAPAnchorComposer)
    (h : ¬ kW3LinkURLString <+: content) :
    ∃ w3s addresses, Runs (w3Turn content) 0 w3s ∧ Runs (slashTurn content) 0 addresses ∧
      (w3Pass content).Finds content 0 w3s ∧ (addressPass content).Finds content 0 addresses ∧
      ∀ ls, makeOuterLinkAnchorIn composer (painted content ls) =
        some (replaced composer (lastSAAP addresses)
        (painted content (ls ++ (w3s.map Link.layer ++ addressLayers addresses)))) := by
  obtain ⟨w3s, hw3s, hfinds⟩ :=
    (w3Pass content).exists_runs (fun s hclear => w3_turns hclear) h (s := 0)
  obtain ⟨addresses, haddresses, hfinds'⟩ :=
    (addressPass content).exists_runs (fun s hclear => slash_turns hclear) (isClear_zero content)
  refine ⟨w3s, addresses, hw3s, haddresses, hfinds, hfinds', fun ls => ?_⟩
  have hin : ∀ helper ∈ lastSAAP addresses, helper.range.max ≤ content.length :=
    fun helper hhelper =>
    hfinds'.inside helper (List.mem_filter.mp (List.mem_of_getLast? hhelper)).1
  have hempty : content.length = 0 → addresses = [] := by
    intro hzero
    refine List.eq_nil_iff_forall_not_mem.mpr fun l hl => ?_
    obtain ⟨i, hi, -⟩ := hfinds'.start l hl
    have hi : IsAddress content i := hi
    have hlt := hi.lt_length
    omega
  unfold makeOuterLinkAnchorIn
  simp only [map_fst_painted]
  split
  · rename_i hzero
    obtain rfl := hempty hzero
    obtain rfl := List.length_eq_zero_iff.mp hzero
    rfl
  · rw [w3Links_of_runs hw3s hfinds.inside]
    simp only [Option.bind_eq_bind, Option.bind_some, slashLinks_of_runs haddresses hfinds'.inside,
      Option.or_none, List.append_assoc]
    cases hlast : lastSAAP addresses with
    | none => rfl
    | some helper =>
      simp only [Option.elim_some, BSBeSAAPAnchorComposer.composeSAAPAnchorIfNeeded, replaced,
        length_painted, if_pos (hin helper hlast)]

theorem makeOuterLinkAnchor_eq (composer : BSBeSAAPAnchorComposer)
    (h : ¬ kW3LinkURLString <+: content) :
    ∃ w3s addresses, (w3Pass content).Finds content 0 w3s ∧
      (addressPass content).Finds content 0 addresses ∧
      makeOuterLinkAnchor composer content = some (replaced composer (lastSAAP addresses)
        (painted content (w3s.map Link.layer ++ addressLayers addresses))) := by
  obtain ⟨w3s, addresses, -, -, hfinds, hfinds', heq⟩ := makeOuterLinkAnchorIn_eq composer h
  refine ⟨w3s, addresses, hfinds, hfinds', ?_⟩
  rw [makeOuterLinkAnchor, ← painted_nil]
  exact heq []

end

-- Where links meet

section
variable {content : NSString} {i j k : Nat}

theorem IsW3.url (h : IsW3 content i) : content[i]? = some (uc 'w') :=
  getElem?_of_prefix_drop h.starts (k := 0) (by decide)

theorem IsW3.lt_urlEnd (h : IsW3 content i) : i + 4 < urlEnd content i := by
  rw [urlEnd_w3 h.starts]
  exact h.found.lt_urlEnd

/-- The URL of a `www.` ends in front of an address and its protocol, or an address begins
in it, or it is part of an address or behind one. -/
theorem IsW3.meets (hw3 : IsW3 content i) (haddress : IsAddress content j) :
    (i < j ∧ j < urlEnd content i) ∨ urlEnd content i ≤ addressFrom content j ∨
      urlEnd content j ≤ i ∨
      (addressFrom content j ≤ i ∧ urlEnd content i = urlEnd content j) := by
  have hne : i ≠ j := by
    rintro rfl
    have hslash := haddress.slash
    rw [hw3.url] at hslash
    exact absurd hslash (by decide)
  obtain hlt | hlt := Nat.lt_or_gt_of_ne hne
  · by_cases hin : j < urlEnd content i
    · exact .inl ⟨hlt, hin⟩
    · -- all characters from the protocol to the slashes are those of a URL
      refine .inr (.inl (Nat.le_of_not_lt fun hmeet => ?_))
      obtain ⟨c, hc, hurl⟩ := haddress.url_front (Nat.le_of_lt hmeet) (Nat.le_of_not_lt hin)
      exact absurd hc (getElem?_urlEnd_ne hurl)
  · by_cases hin : i < urlEnd content j
    · refine .inr (.inr (.inr ⟨Nat.le_trans (addressFrom_le content j) (Nat.le_of_lt hlt), ?_⟩))
      exact urlEnd_of_mem (Nat.le_of_lt hlt) hin hw3.url url_w
    · exact .inr (.inr (.inl (Nat.le_of_not_lt hin)))

end

-- The addresses of a text

def Outermost (content : NSString) (i : Nat) : Prop :=
  IsAddress content i ∧ ∀ k, k < i → IsAddress content k → urlEnd content k ≤ i

def IsSAAP (content : NSString) (i : Nat) : Prop := ns "sssp://" <+: content.drop
    (addressFrom content i)

instance (content : NSString) (i : Nat) : Decidable (IsSAAP content i) :=
  inferInstanceAs (Decidable (ns "sssp://" <+: content.drop (addressFrom content i)))

/-- An address that is linked, or the last one to an icon, which is replaced. -/
def Takes (content : NSString) (i : Nat) : Prop :=
  Outermost content i ∧ (IsSAAP content i → ∀ k, Outermost content k → IsSAAP content k → k ≤ i)

/-- The text does not begin with a `www.`, and no address takes the end of the URL of one. -/
def LinksApart (content : NSString) : Prop :=
  ¬ kW3LinkURLString <+: content ∧
    ∀ i j, IsW3 content i → Takes content j → ¬ (i < j ∧ j < urlEnd content i)

section
variable {content t : NSString} {i j k : Nat} {w3s addresses : List Link}

theorem prefix_sssp_iff {u : NSString} (h : ∀ c ∈ t, isProtocolCharacter c = true) :
    ns "sssp://" <+: t ++ (kColonSlash2LinkURLString ++ u) ↔ t = ns "sssp" := by
  constructor
  · rintro ⟨v, hv⟩
    have hsssp : (ns "sssp://" ++ v).takeWhile isProtocolCharacter = ns "sssp" := rfl
    rw [hv] at hsssp
    exact (takeWhile_protocol h).symm.trans hsssp
  · rintro rfl
    exact ⟨u, rfl⟩

theorem completedProtocol_eq_sssp_iff : completedProtocol t = ns "sssp" ↔ t = ns "sssp" := by
  constructor
  · intro h
    rw [completedProtocol] at h
    split at h
    · exact absurd h (by decide)
    · split at h
      · exact absurd h (by decide)
      · exact h
  · rintro rfl
    decide

theorem completedProtocol_chars (h : ∀ c ∈ t, isProtocolCharacter c = true) :
    ∀ c ∈ completedProtocol t, isProtocolCharacter c = true := by
  rw [completedProtocol]
  split
  · exact List.all_eq_true.mp (by decide)
  · split
    · exact List.all_eq_true.mp (by decide)
    · exact h

/-- The protocol of the icons is neither completed nor is it what one is completed to. -/
theorem isSAAP_addressLink (h : IsAddress content i) : (addressLink content i).isSAAP = true ↔
    IsSAAP content i := by
  have hin := h.lt_length
  rw [Link.isSAAP, decide_eq_true_eq, IsSAAP]
  by_cases hcolon : BehindColon content i
  · have hfrom : addressFrom content i = protocolFrom content (i - 1) := if_pos hcolon
    have hchars := @protocol_chars content (i - 1) (by omega)
    have hvalue : (addressLink content i).value = _ := if_pos hcolon
    obtain ⟨u, hu⟩ := h.starts
    obtain ⟨hlt, hget⟩ := List.getElem?_eq_some_iff.mp hcolon.2
    have htext : content.drop (protocolFrom content (i - 1)) =
        content.substringWithRange ⟨protocolFrom content (i - 1),
          i - 1 - protocolFrom content (i - 1)⟩ ++
          (kColonSlash2LinkURLString ++ u) := by
      have hpos := hcolon.1
      have hle : protocolFrom content (i - 1) ≤ i - 1 := Nat.sub_le _ _
      rw [substringWithRange, ← List.take_append_drop (i - 1 - protocolFrom content (i - 1))
        (content.drop _)]
      congr 1
      · rw [List.take_append_drop]
      · rw [List.drop_drop, Nat.add_sub_cancel' hle, List.drop_eq_getElem_cons hlt, hget,
          Nat.sub_add_cancel (Nat.pos_of_ne_zero hpos), ← hu]
        rfl
    rw [hvalue, hfrom, htext, List.append_assoc, prefix_sssp_iff (completedProtocol_chars hchars),
      prefix_sssp_iff hchars, completedProtocol_eq_sssp_iff]
  · have hfrom : addressFrom content i = i := if_neg hcolon
    have hvalue : (addressLink content i).value = _ := if_neg hcolon
    rw [hvalue, hfrom]
    refine iff_of_false ?_ fun hsssp => ?_
    · rintro ⟨v, hv⟩
      have hget : some (uc 's') = some (uc 'h') := congrArg (·[0]?) hv
      exact absurd hget (by decide)
    · have hget := getElem?_of_prefix_drop hsssp (k := 0) (by decide)
      rw [Nat.add_zero, h.slash] at hget
      exact absurd hget (by decide)

theorem eq_or_of_pairwise {R : Link → Link → Prop} {links : List Link} {a b : Link}
    (h : links.Pairwise R)
    (ha : a ∈ links) (hb : b ∈ links) : a = b ∨ R a b ∨ R b a := by
  induction links with
  | nil => exact absurd ha List.not_mem_nil
  | cons l links ih =>
    obtain ⟨hl, hlinks⟩ := List.pairwise_cons.mp h
    obtain rfl | ha' := List.mem_cons.mp ha
    · obtain rfl | hb' := List.mem_cons.mp hb
      · exact .inl rfl
      · exact .inr (.inl (hl b hb'))
    · obtain rfl | hb' := List.mem_cons.mp hb
      · exact .inr (.inr (hl a ha'))
      · exact ih hlinks ha' hb'

theorem addressFrom_injective (hi : IsAddress content i) (hj : IsAddress content j)
    (h : addressFrom content i = addressFrom content j) : i = j := by
  have hnot : ∀ {i j}, IsAddress content i → IsAddress content j →
      addressFrom content i = addressFrom content j → ¬ i < j := by
    intro i j hi hj h hlt
    obtain ⟨c, hc, hfront⟩ := hj.front (h ▸ addressFrom_le content i) hlt
    rw [hi.slash] at hc
    obtain rfl := Option.some.inj hc
    obtain hfront | hfront := hfront <;> exact absurd hfront (by decide)
  exact Nat.le_antisymm (Nat.not_lt.mp (hnot hj hi h.symm)) (Nat.not_lt.mp (hnot hi hj h))

theorem addressLink_max (h : IsAddress content i) :
    (addressLink content i).range.max = urlEnd content i :=
  Nat.add_sub_cancel' (Nat.le_trans (addressFrom_le content i) (Nat.le_of_lt h.lt_urlEnd))

theorem addresses_apart (hfinds : (addressPass content).Finds content 0 addresses)
    (hi : IsAddress content i)
    (hj : IsAddress content j) (hmem : addressLink content i ∈ addresses)
    (hmem' : addressLink content j ∈ addresses) :
    i = j ∨ urlEnd content i ≤ addressFrom content j ∨ urlEnd content j ≤
      addressFrom content i := by
  rw [← addressLink_max hi, ← addressLink_max hj]
  obtain heq | hapart := eq_or_of_pairwise hfinds.apart hmem hmem'
  · exact .inl (addressFrom_injective hi hj (congrArg (·.range.location) heq))
  · exact .inr hapart

theorem outermost_of_mem (hfinds : (addressPass content).Finds content 0 addresses)
    {l : Link} (hl : l ∈ addresses) :
    ∃ i, Outermost content i ∧ l = addressLink content i := by
  obtain ⟨i, hi, rfl, -, -⟩ := hfinds.start l hl
  have hi : IsAddress content i := hi
  refine ⟨i, ⟨hi, fun k hk hstart => ?_⟩, rfl⟩
  obtain ⟨j, hj, hmem, hle, hlt⟩ := hfinds.covered k (Nat.zero_le k) hstart
  have hj : IsAddress content j := hj
  have hsame : urlEnd content k = urlEnd content j := urlEnd_of_mem hle hlt hstart.slash url_slash
  rw [hsame]
  obtain rfl | hbefore | hafter := addresses_apart hfinds hj hi hmem hl
  · exact absurd (Nat.lt_of_le_of_lt hle hk) (Nat.lt_irrefl _)
  · exact Nat.le_trans hbefore (addressFrom_le content i)
  · have hfrom := addressFrom_le content j
    have hend := hi.lt_urlEnd
    omega

theorem mem_of_outermost (hfinds : (addressPass content).Finds content 0 addresses)
    (h : Outermost content i) :
    addressLink content i ∈ addresses := by
  obtain ⟨j, hj, hmem, hle, hlt⟩ := hfinds.covered i (Nat.zero_le i) h.1
  obtain hlt' | rfl := Nat.lt_or_eq_of_le hle
  · exact absurd hlt (Nat.not_lt.mpr (h.2 j hlt' hj))
  · exact hmem

theorem eq_or_of_getLast? {R : Link → Link → Prop} {links : List Link} {a b : Link}
    (h : links.Pairwise R)
    (hlast : links.getLast? = some b) (ha : a ∈ links) : a = b ∨ R a b := by
  obtain ⟨front, rfl⟩ := List.getLast?_eq_some_iff.mp hlast
  obtain hfront | hb := List.mem_append.mp ha
  · exact .inr ((List.pairwise_append.mp h).2.2 a hfront b List.mem_cons_self)
  · exact .inl (List.mem_singleton.mp hb)

theorem takes_of_lastSAAP (hfinds : (addressPass content).Finds content 0 addresses) {helper : Link}
    (hlast : lastSAAP addresses = some helper) :
    ∃ i, Takes content i ∧ IsSAAP content i ∧ helper = addressLink content i := by
  obtain ⟨hmem, hsaap⟩ := List.mem_filter.mp (List.mem_of_getLast? hlast)
  obtain ⟨i, hi, rfl⟩ := outermost_of_mem hfinds hmem
  refine ⟨i, ⟨hi, fun _ k hk hsaap' => ?_⟩, (isSAAP_addressLink hi.1).mp hsaap, rfl⟩
  have hmem' : addressLink content k ∈ addresses.filter Link.isSAAP :=
    List.mem_filter.mpr ⟨mem_of_outermost hfinds hk, (isSAAP_addressLink hk.1).mpr hsaap'⟩
  obtain heq | hbefore := eq_or_of_getLast? (hfinds.apart.filter _) hlast hmem'
  · exact Nat.le_of_eq (addressFrom_injective hk.1 hi.1 (congrArg (·.range.location) heq))
  · rw [addressLink_max hk.1] at hbefore
    exact Nat.le_trans (Nat.le_of_lt hk.1.lt_urlEnd) (Nat.le_trans hbefore
      (addressFrom_le content i))

theorem lastSAAP_of_takes (hfinds : (addressPass content).Finds content 0 addresses)
    (h : Takes content i)
    (hsaap : IsSAAP content i) : lastSAAP addresses = some (addressLink content i) := by
  have hmem : addressLink content i ∈ addresses.filter Link.isSAAP :=
    List.mem_filter.mpr ⟨mem_of_outermost hfinds h.1, (isSAAP_addressLink h.1.1).mpr hsaap⟩
  cases hlast : lastSAAP addresses with
  | none =>
    rw [lastSAAP, List.getLast?_eq_none_iff] at hlast
    rw [hlast] at hmem
    exact absurd hmem List.not_mem_nil
  | some helper =>
    obtain ⟨j, hj, hsaap', rfl⟩ := takes_of_lastSAAP hfinds hlast
    rw [Nat.le_antisymm (hj.2 hsaap' i h.1 hsaap) (h.2 hsaap j hj.1 hsaap')]

theorem mem_addressLayers {l : Layer NSString} :
    l ∈ addressLayers addresses ↔ ∃ link ∈ addresses, link.isSAAP = false ∧ l = link.layer := by
  rw [addressLayers, List.mem_map]
  constructor
  · rintro ⟨link, hlink, rfl⟩
    obtain ⟨hmem, hnot⟩ := List.mem_filter.mp hlink
    exact ⟨link, hmem, by simpa using hnot, rfl⟩
  · rintro ⟨link, hmem, hnot, rfl⟩
    exact ⟨link, List.mem_filter.mpr ⟨hmem, by simp [hnot]⟩, rfl⟩

theorem exists_of_mem_addressLayers (hfinds : (addressPass content).Finds content 0 addresses)
    {l : Layer NSString}
    (hl : l ∈ addressLayers addresses) :
    ∃ i, Outermost content i ∧ ¬ IsSAAP content i ∧ l = (addressLink content i).layer := by
  obtain ⟨link, hmem, hnot, rfl⟩ := mem_addressLayers.mp hl
  obtain ⟨i, hi, rfl⟩ := outermost_of_mem hfinds hmem
  refine ⟨i, hi, fun hsaap => ?_, rfl⟩
  rw [(isSAAP_addressLink hi.1).mpr hsaap] at hnot
  cases hnot

theorem exists_of_mem_w3 (hfinds : (w3Pass content).Finds content 0 w3s) {l : Layer NSString}
    (hl : l ∈ w3s.map Link.layer) : ∃ i, IsW3 content i ∧ w3Link content i ∈ w3s ∧
      l = (w3Link content i).layer := by
  obtain ⟨link, hmem, rfl⟩ := List.mem_map.mp hl
  obtain ⟨i, hi, rfl, -, -⟩ := hfinds.start link hmem
  exact ⟨i, hi, hmem, rfl⟩

theorem w3Link_max (h : IsW3 content i) : (w3Link content i).range.max = urlEnd content i :=
  Nat.add_sub_cancel' (Nat.le_trans (Nat.le_add_right i 4) (Nat.le_of_lt h.lt_urlEnd))

theorem w3_layer_covers (h : IsW3 content i) :
    (w3Link content i).layer.Covers k ↔ i ≤ k ∧ k < urlEnd content i := by
  rw [← w3Link_max h]
  rfl

theorem address_layer_covers (h : IsAddress content i) :
    (addressLink content i).layer.Covers k ↔ addressFrom content i ≤ k ∧ k < urlEnd content i := by
  rw [← addressLink_max h]
  rfl

theorem apart_layers {links : List Link} (h : links.Pairwise fun l l' =>
    l.range.max ≤ l'.range.location) :
    Apart (links.map Link.layer) := by
  intro l hl l' hl' k hk hk'
  obtain ⟨a, ha, rfl⟩ := List.mem_map.mp hl
  obtain ⟨b, hb, rfl⟩ := List.mem_map.mp hl'
  have hk : a.range.location ≤ k ∧ k < a.range.max := hk
  have hk' : b.range.location ≤ k ∧ k < b.range.max := hk'
  obtain rfl | hbefore | hbefore := eq_or_of_pairwise h ha hb
  · rfl
  · omega
  · omega

theorem value_of_link {link : Link}
    (h : completedURL (content.substringWithRange link.range) = link.value) :
    IsCompleted (slice link.layer.start (link.layer.stop - link.layer.start) content)
      link.layer.value := by
  have hlength : link.layer.stop - link.layer.start = link.range.length :=
    Nat.add_sub_cancel_left _ _
  rw [hlength]
  exact h.symm

end

end BathyScaphe.Composer
