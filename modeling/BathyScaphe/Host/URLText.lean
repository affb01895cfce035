import BathyScaphe.Host.ReadURL
import BathyScaphe.Lib.Swap

/-!
# The text of a URL

The text of a URL whose parts need no escapes is read back as that URL.
-/

namespace BathyScaphe.Host

open NSString

def isUnreserved (c : UniChar) : Bool :=
  (uc 'a' ≤ c && c ≤ uc 'z') || (uc 'A' ≤ c && c ≤ uc 'Z') || (uc '0' ≤ c && c ≤ uc '9') ||
    decide (c ∈ ns "-_.!~*'()")

def IsPart (s : NSString) : Prop := s ≠ [] ∧ ∀ c ∈ s, isUnreserved c = true

def pathText (path : List NSString) : NSString := path.flatMap fun part => uc '/' :: part

def NSURL.absoluteString (anURL : NSURL) : NSString :=
  anURL.scheme ++ (ns "://" ++ (anURL.host.getD [] ++ (pathText anURL.path ++
    ((if anURL.directory then ns "/" else []) ++ anURL.query.elim [] fun query =>
      ns "?" ++ query))))

def partsOfPath (path : NSString) : List NSString := (path.splitOn (uc '/')).filter fun part =>
    !part.isEmpty

/-- `URLWithString:` of a text without escapes, parameters and a fragment -/
def URLWithString (s : NSString) : Option NSURL :=
  if s.all fun c => isUnreserved c || decide (c ∈ ns ":/?&=") then
    let scheme := s.takeWhile (· != uc ':')
    let behind := s.drop scheme.length
    if ns "://" <+: behind then
      let rest := behind.drop 3
      let hierarchy := rest.takeWhile (· != uc '?')
      let path := hierarchy.dropWhile (· != uc '/')
      some
        { scheme
          host := some (hierarchy.takeWhile (· != uc '/'))
          path := partsOfPath path
          directory := path.getLast? = some (uc '/')
          query := if uc '?' ∈ rest then some (rest.drop (hierarchy.length + 1)) else none }
    else none
  else none

/-- A URL whose parts need no escapes; its query is one of parameters. -/
structure IsPlain (anURL : NSURL) : Prop where
  scheme : IsPart anURL.scheme
  host : ∀ host ∈ anURL.host, IsPart host
  isSome : anURL.host.isSome = true
  path : ∀ part ∈ anURL.path, IsPart part
  query : ∀ query ∈ anURL.query, ∀ c ∈ query, isUnreserved c = true ∨ c = uc '&' ∨ c = uc '='

section
variable {s t : NSString} {c : UniChar} {anURL : NSURL} {path : List NSString}

theorem ne_of_isUnreserved (h : isUnreserved c = true) (hd : isUnreserved d = false) : c ≠ d := by
  rintro rfl
  rw [hd] at h
  cases h

theorem partsOfPath_slash (s : NSString) : partsOfPath (uc '/' :: s) = partsOfPath s := by
  rw [partsOfPath, List.splitOn_cons_eq_if_modifyHead, if_pos (beq_self_eq_true _)]
  rfl

theorem partsOfPath_part (hs : IsPart s) (ht : ∀ c ∈ t.head?, c = uc '/') :
    partsOfPath (s ++ t) = s :: partsOfPath t := by
  have hslash : uc '/' ∉ s := fun hmem => ne_of_isUnreserved (hs.2 _ hmem) (by decide) rfl
  have hne : (!s.isEmpty) = true := by
    rw [Bool.not_eq_true', List.isEmpty_eq_false_iff]
    exact hs.1
  cases t with
  | nil =>
    rw [List.append_nil, partsOfPath, List.splitOn_eq_singleton hslash,
      List.filter_cons, if_pos hne]
    rfl
  | cons c t =>
    obtain rfl := ht c rfl
    rw [partsOfPath, List.splitOn_append_cons_self_of_not_mem hslash, List.filter_cons, if_pos hne,
      partsOfPath_slash]
    rfl

theorem head?_pathText (path : List NSString) (directory : Bool) :
    ∀ c ∈ (pathText path ++ if directory then ns "/" else []).head?, c = uc '/' := by
  intro c hc
  cases path with
  | nil => cases directory <;> cases hc; rfl
  | cons => exact (Option.some.inj hc).symm

theorem partsOfPath_pathText (hpath : ∀ part ∈ path, IsPart part) (directory : Bool) :
    partsOfPath (pathText path ++ if directory then ns "/" else []) = path := by
  induction path with
  | nil => cases directory <;> rfl
  | cons part path ih =>
    obtain ⟨hpart, hpath⟩ := List.forall_mem_cons.mp hpath
    have hhead := head?_pathText path directory
    have hcons : pathText (part :: path) = uc '/' :: (part ++ pathText path) := List.flatMap_cons
    rw [hcons, List.cons_append, List.append_assoc, partsOfPath_slash,
      partsOfPath_part hpart hhead, ih hpath]

theorem getLast?_pathText (hpath : ∀ part ∈ path, IsPart part) (directory : Bool) :
    (pathText path ++ if directory then ns "/" else []).getLast? = some (uc '/') ↔
      directory = true := by
  cases directory with
  | true =>
    refine iff_of_true ?_ rfl
    exact List.getLast?_append_of_ne_nil _ (List.cons_ne_nil _ _)
  | false =>
    refine iff_of_false ?_ Bool.false_ne_true
    rw [if_neg Bool.false_ne_true, List.append_nil]
    induction path using List.reverseRecOn with
    | nil => nofun
    | append_singleton path part _ =>
      obtain ⟨hne, hplain⟩ := hpath part (List.mem_append_right path List.mem_cons_self)
      have hconcat : pathText (path ++ [part]) = pathText path ++ uc '/' :: part := by
        simp [pathText]
      rw [hconcat, List.getLast?_append_of_ne_nil _ (List.cons_ne_nil _ _),
        List.getLast?_cons_of_ne_nil hne]
      exact fun hlast => ne_of_isUnreserved (hplain _ (List.mem_of_getLast? hlast)) (by decide) rfl

theorem mem_pathText (hpath : ∀ part ∈ path, IsPart part) (directory : Bool) :
    ∀ c ∈ pathText path ++ (if directory then ns "/" else []), isUnreserved c = true ∨
      c = uc '/' := by
  intro c hc
  obtain hc | hc := List.mem_append.mp hc
  · obtain ⟨part, hpart, hc⟩ := List.mem_flatMap.mp hc
    obtain rfl | hc := List.mem_cons.mp hc
    · exact .inr rfl
    · exact .inl ((hpath part hpart).2 c hc)
  · cases directory
    · cases hc
    · exact .inr (List.mem_singleton.mp hc)

theorem takeWhile_ne (hs : c ∉ s) (ht : ∀ d ∈ t.head?, d = c) :
    (s ++ t).takeWhile (· != c) = s ∧ (s ++ t).dropWhile (· != c) = t := by
  have hall : ∀ d ∈ s, (d != c) = true := fun d hd => bne_iff_ne.mpr fun heq => hs (heq ▸ hd)
  rw [List.takeWhile_append_of_pos hall, List.dropWhile_append_of_pos hall]
  cases t with
  | nil => exact ⟨List.append_nil s, rfl⟩
  | cons d t =>
    obtain rfl := ht d rfl
    have hd : ¬ (d != d) = true := by simp
    rw [List.takeWhile_cons, if_neg hd, List.dropWhile_cons, if_neg hd, List.append_nil]
    exact ⟨rfl, rfl⟩

theorem URLWithString_absoluteString (h : IsPlain anURL) :
    URLWithString anURL.absoluteString = some anURL := by
  obtain ⟨scheme, host, path, directory, query⟩ := anURL
  obtain ⟨hscheme, hhost, hsome, hpath, hquery⟩ := h
  obtain ⟨host, rfl⟩ := Option.isSome_iff_exists.mp hsome
  replace hhost := hhost host rfl
  have hnot : ∀ {part c}, IsPart part → isUnreserved c = false → c ∉ part := fun hpart hc hmem =>
    ne_of_isUnreserved (hpart.2 _ hmem) hc rfl
  have hchars := mem_pathText hpath directory
  have hparts := partsOfPath_pathText hpath directory
  have hlast := getLast?_pathText hpath directory
  have hhead := head?_pathText path directory
  -- the text behind the host, and behind the path
  generalize hp : pathText path ++ (if directory then ns "/" else []) =
    p at hchars hparts hlast hhead
  generalize hq : query.elim [] (fun query => ns "?" ++ query) = q
  have htext : NSURL.absoluteString ⟨scheme, some host, path, directory, query⟩ =
      scheme ++ (ns "://" ++ ((host ++ p) ++ q)) := by
    rw [NSURL.absoluteString, ← hp, ← hq]
    simp only [Option.getD_some, List.append_assoc]
  have hmark : uc '?' ∉ host ++ p := by
    rw [List.mem_append, not_or]
    exact ⟨hnot hhost (by decide), fun hmem => (hchars _ hmem).elim (by decide) (by decide)⟩
  obtain ⟨hscheme', -⟩ := takeWhile_ne (hnot hscheme (by decide) : uc ':' ∉ scheme)
    (fun d hd => (Option.some.inj hd).symm : ∀ d ∈ (ns "://" ++ ((host ++ p) ++ q)).head?,
      d = uc ':')
  have hqhead : ∀ d ∈ q.head?, d = uc '?' := by
    rw [← hq]
    cases query with
    | none => nofun
    | some query => exact fun d hd => (Option.some.inj hd).symm
  obtain ⟨hhierarchy, -⟩ := takeWhile_ne hmark hqhead
  obtain ⟨hhost', hpath'⟩ := takeWhile_ne (hnot hhost (by decide) : uc '/' ∉ host) hhead
  have hlegal : (scheme ++ (ns "://" ++ ((host ++ p) ++ q))).all
      (fun c => isUnreserved c || decide (c ∈ ns ":/?&=")) = true := by
    rw [List.all_eq_true]
    intro c hc
    rw [Bool.or_eq_true, decide_eq_true_iff]
    simp only [List.mem_append] at hc
    obtain hc | hc | (hc | hc) | hc := hc
    · exact .inl (hscheme.2 c hc)
    · have hmarks : (ns "://").all (fun c => decide (c ∈ ns ":/?&=")) = true := by decide
      exact .inr (of_decide_eq_true (List.all_eq_true.mp hmarks c hc))
    · exact .inl (hhost.2 c hc)
    · refine (hchars c hc).imp_right ?_
      rintro rfl
      decide
    · subst hq
      cases query with
      | none => cases hc
      | some query =>
        obtain hc | hc := List.mem_append.mp hc
        · obtain rfl := List.mem_singleton.mp hc
          exact .inr (by decide)
        · obtain hc | rfl | rfl := hquery query rfl c hc
          · exact .inl hc
          · exact .inr (by decide)
          · exact .inr (by decide)
  rw [htext, URLWithString, if_pos hlegal]
  simp only [hscheme', List.drop_left, List.drop_left' (show (ns "://").length = 3 from rfl),
    hhierarchy, hhost',
    hpath',
    hparts]
  rw [if_pos (List.prefix_append _ _)]
  refine congrArg some (congr (congrArg (NSURL.mk scheme (some host) path) ?_) ?_)
  · exact Bool.eq_iff_iff.mpr (decide_eq_true_iff.trans hlast)
  · subst hq
    cases query with
    | none =>
      rw [Option.elim_none, List.append_nil, if_neg hmark]
    | some query =>
      have hmem : uc '?' ∈ host ++ p ++ (ns "?" ++ query) :=
        List.mem_append_right _ List.mem_cons_self
      have hdrop : (host ++ p ++ (ns "?" ++ query)).drop ((host ++ p).length + 1) = query := by
        rw [← List.drop_drop, List.drop_left]
        rfl
      rw [Option.elim_some, if_pos hmem, hdrop]

end

end BathyScaphe.Host
