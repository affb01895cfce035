import BathyScaphe.Composer.AmpEntity
import BathyScaphe.Composer.AttributedMessageComposer
import BathyScaphe.Composer.TagElements
import BathyScaphe.Foundation.RangedReplacement
import BathyScaphe.Lib.Reuse
import BathyScaphe.Xml.EntityReplacement

/-!
# The name cache

`composeName:` keeps the name that it converted last, and compares the next name with it
before that one is converted. So a name that reads like the converted name before it is
written as it stands. -/

namespace BathyScaphe.Composer

open NSString Dat

-- The conversion of names

/-- The length of ` *<br> *` at the start of a text, in either case. -/
def breakLineTagLength (s : NSString) : Option Nat :=
  let spaces := (s.takeWhile (· == uc ' ')).length
  let tag := s.drop spaces
  if (tag.take 4).map tolower = ns "<br>" then
    some (spaces + 4 + ((tag.drop 4).takeWhile (· == uc ' ')).length)
  else none

/-- `skip` counts the units of an occurrence that are still to be passed. -/
def replaceBreakLineTags : Nat → NSString → NSString
  | _, [] => []
  | skip + 1, _ :: s => replaceBreakLineTags skip s
  | 0, c :: s =>
    match breakLineTagLength (c :: s) with
    | some length => uc '\n' :: replaceBreakLineTags (length - 1) s
    | none => c :: replaceBreakLineTags 0 s

def htmlConvertBreakLineTag (theString : NSString) : NSString :=
  if theString.length = 0 then theString
  else replaceBreakLineTags 0 ((theString.dropWhile isspace).rdropWhile isspace)

section
variable (entityReferenceTable : NSString → Option UniChar)

def replaceEntityReferenceWithString (aString : NSString) : NSString :=
  Xml.replaceEntityReference entityReferenceTable (resolveInvalidAmpEntity aString)

def convertMessageSourceToCachedMessage (aSource : NSString) : NSString :=
  let aSource := htmlConvertBreakLineTag aSource
  let aSource := aSource.replaceCharacters (ns "\\") [0xa5] NSLiteralSearch ⟨0, aSource.length⟩
  let aSource := htmlConvertDeleteAllTagElements aSource
  replaceEntityReferenceWithString entityReferenceTable aSource

end

-- The name field

def AttributedString.string (s : AttributedString α) : NSString := s.map Prod.fst

/-- What the name field is made of. The attributes that `convertName:with:` sets, the inner
links among them, leave the text as it is. -/
structure NameEnvironment (α : Type) where
  entityReferenceTable : NSString → Option UniChar
  spamFilterBehavior : SpamFilterBehavior
  abone : NSString
  fieldTitle : AttributedString α
  whiteSpaceSeparator : AttributedString α
  attributed : NSString → AttributedString α
  string_attributed : ∀ s, (attributed s).string = s

section
variable (env : NameEnvironment α)

def messageIsLocalAboned (aMessage : CMRThreadMessage) : Bool :=
  aMessage.isLocalAboned || (aMessage.isSpam && env.spamFilterBehavior = .localAboned)

def convertName (name : NSString) : AttributedString α :=
  env.attributed (convertMessageSourceToCachedMessage env.entityReferenceTable name)

def composeName (aMessage : CMRThreadMessage) (c : Composed α) : Composed α :=
  let name := if messageIsLocalAboned env aMessage then some env.abone else aMessage.name
  let c := { c with contentsStorage := c.contentsStorage ++ env.fieldTitle }
  let c :=
    match name with
    | none => c
    | some name =>
      if name.length = 0 then c
      else
        let nameCache := if c.nameCache.string ≠ name then convertName env name else c.nameCache
        { contentsStorage := c.contentsStorage ++ nameCache, nameCache := nameCache }
  { c with contentsStorage := c.contentsStorage ++ env.whiteSpaceSeparator }

-- One name after the other

def ownName (aMessage : CMRThreadMessage) : Option NSString :=
  (if messageIsLocalAboned env aMessage then some env.abone
    else aMessage.name).filter (·.length ≠ 0)

/-- The name is written as the conversion of the message's own name. -/
def WritesOwnName (aMessage : CMRThreadMessage) (c : Composed α) : Prop :=
  (composeName env aMessage c).contentsStorage.string =
    c.contentsStorage.string ++ env.fieldTitle.string ++
      ((ownName env aMessage).map
        (convertMessageSourceToCachedMessage env.entityReferenceTable)).getD [] ++
      env.whiteSpaceSeparator.string

def Transparent : List CMRThreadMessage → Composed α → Prop
  | [], _ => True
  | aMessage :: messages, c => WritesOwnName env aMessage c ∧
      Transparent messages (composeName env aMessage c)

end

variable {env : NameEnvironment α} {aMessage : CMRThreadMessage} {messages : List CMRThreadMessage}
  {c : Composed α}
variable {name : NSString}

@[simp] theorem string_append (s t : AttributedString α) : (s ++ t).string = s.string ++ t.string :=
  List.map_append

@[simp] theorem string_convertName (env : NameEnvironment α) (name : NSString) :
    (convertName env name).string =
      convertMessageSourceToCachedMessage env.entityReferenceTable name :=
  env.string_attributed _

theorem composeName_of_none (h : ownName env aMessage = none) : composeName env aMessage c =
    { c with
      contentsStorage := c.contentsStorage ++ env.fieldTitle ++ env.whiteSpaceSeparator } := by
  rw [ownName] at h
  rw [composeName]
  cases hname : (if messageIsLocalAboned env aMessage then some env.abone else aMessage.name) with
  | none => rfl
  | some name =>
    have hempty : name.length = 0 := by simpa [hname] using h
    simp only [if_pos hempty]

theorem composeName_of_some (h : ownName env aMessage = some name) :
    (composeName env aMessage c).nameCache.string =
        Reuse.next (convertMessageSourceToCachedMessage env.entityReferenceTable)
          c.nameCache.string name ∧
      (composeName env aMessage c).contentsStorage.string =
        c.contentsStorage.string ++ env.fieldTitle.string ++
          (composeName env aMessage c).nameCache.string ++
          env.whiteSpaceSeparator.string := by
  obtain ⟨hname, hlength⟩ := Option.filter_eq_some_iff.mp h
  rw [composeName, hname, Reuse.next]
  simp only [if_neg (of_decide_eq_true hlength), string_append]
  refine ⟨?_, trivial⟩
  by_cases hkept : c.nameCache.string = name
  · rw [if_neg (not_not.mpr hkept), if_pos hkept]
  · rw [if_pos hkept, if_neg hkept, string_convertName]

theorem writesOwnName_of_none (h : ownName env aMessage = none) : WritesOwnName env aMessage c := by
  rw [WritesOwnName, composeName_of_none h, h]
  simp only [string_append, Option.map_none, Option.getD_none, List.append_nil]

theorem writesOwnName_of_some (h : ownName env aMessage = some name) :
    WritesOwnName env aMessage c ↔
      Reuse.next (convertMessageSourceToCachedMessage env.entityReferenceTable)
        c.nameCache.string name =
        convertMessageSourceToCachedMessage env.entityReferenceTable name := by
  obtain ⟨hcache, hcontents⟩ := @composeName_of_some α env aMessage c name h
  rw [WritesOwnName, hcontents, hcache, h, Option.map_some, Option.getD_some,
    List.append_cancel_right_eq, List.append_cancel_left_eq]

/-- The names of messages are written as a function is computed whose last result is kept. -/
theorem transparent_iff_results : Transparent env messages c ↔
    Reuse.results (convertMessageSourceToCachedMessage env.entityReferenceTable) c.nameCache.string
        (messages.filterMap (ownName env)) =
      (messages.filterMap (ownName env)).map
      (convertMessageSourceToCachedMessage env.entityReferenceTable) := by
  induction messages generalizing c with
  | nil => exact ⟨fun _ => rfl, fun _ => trivial⟩
  | cons aMessage messages ih =>
    rw [Transparent, ih]
    cases hname : ownName env aMessage with
    | none =>
      rw [List.filterMap_cons_none hname, and_iff_right (writesOwnName_of_none hname),
        composeName_of_none hname]
    | some name =>
      rw [List.filterMap_cons_some hname, Reuse.results, List.map_cons, List.cons.injEq,
        writesOwnName_of_some hname, (composeName_of_some hname).1]

theorem ownName_ne_nil (h : ownName env aMessage = some name) : name ≠ [] := by
  obtain ⟨-, hlength⟩ := Option.filter_eq_some_iff.mp h
  rintro rfl
  cases hlength

/-- All messages that a new composer composes are written with their own names if and only if
no name follows one whose conversion it is, but for names that are their own conversions. -/
theorem nameCache_transparent_iff (env : NameEnvironment α) (contents : AttributedString α)
    (messages : List CMRThreadMessage) :
    Transparent env messages ⟨contents, []⟩ ↔
      (messages.filterMap (ownName env)).IsChain fun name name' =>
        convertMessageSourceToCachedMessage env.entityReferenceTable name = name' →
          convertMessageSourceToCachedMessage env.entityReferenceTable name' = name' := by
  rw [transparent_iff_results, Reuse.results_eq_map_iff, and_iff_right]
  intro name hname heq
  obtain ⟨aMessage, -, hown⟩ := List.mem_filterMap.mp (List.mem_of_mem_head? hname)
  exact absurd heq.symm (ownName_ne_nil hown)

-- Two names

theorem convertMessageSourceToCachedMessage_eq (table : NSString → Option UniChar) (s : NSString) :
    convertMessageSourceToCachedMessage table s =
      References.replace Xml.entityDelimiters (Xml.stringForEntityReference table)
        (Database.resolveInvalidAmpEntity (Spans.keep tagBrackets (fun m => !shouldDelete m)
          (Replace.replaceAll [(uc '\\' == ·)] [0xa5] (htmlConvertBreakLineTag s)))) := by
  have hyen : ∀ t : NSString, t.replaceCharacters (ns "\\") [0xa5] NSLiteralSearch ⟨0, t.length⟩ =
      Replace.replaceAll [(uc '\\' == ·)] [0xa5] t :=
    @_replaceCharactersIn_all (.string (ns "\\")) NSLiteralSearch [0xa5] []
  rw [convertMessageSourceToCachedMessage, replaceEntityReferenceWithString,
    Xml.replaceEntityReference_eq,
    resolveInvalidAmpEntity_eq, htmlConvertDeleteAllTagElements_eq, hyen]

def plainEnvironment : NameEnvironment Unit where
  entityReferenceTable e := if e = ns "amp" then some (uc '&')
  else if e = ns "gt" then some (uc '>') else none
  spamFilterBehavior := .changeTextColor
  abone := ns "Abone"
  fieldTitle := []
  whiteSpaceSeparator := []
  attributed s := s.map (·, ())
  string_attributed s := by rw [AttributedString.string, List.map_map]; exact List.map_id s

theorem convert_amp_gt :
    convertMessageSourceToCachedMessage plainEnvironment.entityReferenceTable (ns "&amp;gt;") =
      ns "&gt;" := by
  rw [convertMessageSourceToCachedMessage_eq]
  decide

theorem convert_gt :
    convertMessageSourceToCachedMessage plainEnvironment.entityReferenceTable (ns "&gt;") =
      ns ">" := by
  rw [convertMessageSourceToCachedMessage_eq]
  decide

/-- The second name is written as it stands. -/
theorem not_transparent_gt :
    ¬ Transparent plainEnvironment [{ name := some (ns "&amp;gt;") }, { name := some (ns "&gt;") }]
      ⟨[], []⟩ := by
  intro h
  have hnames : ([{ name := some (ns "&amp;gt;") }, { name := some (ns "&gt;") }] :
    List CMRThreadMessage).filterMap
      (ownName plainEnvironment) = [ns "&amp;gt;", ns "&gt;"] := by decide
  rw [transparent_iff_results, Reuse.results_eq_map_iff, hnames, List.isChain_cons_cons] at h
  have hsame := h.2.1 convert_amp_gt
  rw [convert_gt] at hsame
  exact absurd hsame (by decide)

end BathyScaphe.Composer
