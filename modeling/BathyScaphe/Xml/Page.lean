import BathyScaphe.Xml.Events
import BathyScaphe.Xml.Termination

/-!
# Pages

What a client reads that calls `next` up to the end of the document. The calls may end in
an exception. `rounds` are enough for every loop of the parser and for the calls.
-/

namespace BathyScaphe.Xml

open NSString Comp

/-- The events up to the end of the document or to the exception. -/
structure Page where
  events : List Event
  raised : Option XmlException

def Page.cons (e : Event) (page : Page) : Page := { page with events := e :: page.events }

def Page.isWhole (page : Page) : Bool :=
  match page.raised with
  | some .endOfName => false
  | _ => true

section
variable (env : Environment) (features : Features)

def pageFrom (fuel : Nat) (readName : Parser NSString) : Nat → SGXmlPullParser → Option Page
  | 0, _ => none
  | calls + 1, p =>
    match next env features fuel readName p with
    | .ok .END_DOCUMENT _ => some ⟨[], none⟩
    | .ok _ p => (pageFrom fuel readName calls p).map (.cons p.event)
    | .raised e => some ⟨[], some e⟩
    | .timeout => none

def pageOf (source : NSString) : Option Page :=
  pageFrom env features (rounds source) (readName env features (rounds source)) (rounds source)
    (setInputSource source)

end

section
variable {env : Environment} {features : Features} {fuel fuel' bound k n n' : Nat}
  {p p₁ : SGXmlPullParser}
  {source : NSString} {readName readName' : Parser NSString}

theorem filter_isWhole_cons (e : Event) (page : Option Page) :
    (page.map (.cons e)).filter Page.isWhole = (page.filter Page.isWhole).map (.cons e) := by
  cases page with
  | none => rfl
  | some page =>
    have hcons : (page.cons e).isWhole = page.isWhole := rfl
    simp only [Option.map_some, Option.filter_some, hcons]
    split <;> rfl

/-- A parser that tests for the end in a name reads the same page, but for the one it cuts off. -/
theorem pageFrom_follows (hb : Bounds bound fuel fuel' readName readName') (hk : k < 2 * bound)
    (h : Size k p) (hn : k < n) (hn' : k < n') :
    pageFrom env features fuel readName n p =
      (pageFrom env features fuel' readName' n' p).filter Page.isWhole := by
  induction n generalizing p k n' with
  | zero => exact absurd hn (Nat.not_lt_zero k)
  | succ n ih =>
    obtain ⟨n', rfl⟩ := Nat.exists_eq_succ_of_ne_zero (Nat.ne_zero_of_lt hn')
    have hnext : Follows .endOfName (fun type p' => type = .END_DOCUMENT ∨ Smaller k p')
        (next env features fuel readName p) (next env features fuel' readName' p) :=
      next_follows hb hk h
    rw [pageFrom, pageFrom]
    revert hnext
    cases next env features fuel readName p with
    | ok type p₁ =>
      cases next env features fuel' readName' p with
      | ok type' p₁' =>
        rintro ⟨rfl, rfl, hsmaller⟩
        cases type with
        | END_DOCUMENT => rfl
        | _ =>
          obtain ⟨j, hj, hsize⟩ := hsmaller.resolve_left nofun
          have hpage := ih (hj.trans hk) hsize (Nat.lt_of_lt_of_le hj (Nat.le_of_lt_succ hn))
            (Nat.lt_of_lt_of_le hj (Nat.le_of_lt_succ hn'))
          exact (congrArg (Option.map (Page.cons p₁.event)) hpage).trans
            (filter_isWhole_cons _ _).symm
      | _ => exact False.elim
    | raised e =>
      cases next env features fuel' readName' p with
      | raised e' =>
        rintro ⟨rfl, hne⟩
        cases e with
        | endOfName => exact absurd rfl hne
        | _ => rfl
      | _ => exact False.elim
    | timeout =>
      cases next env features fuel' readName' p with
      | raised e' =>
        rintro rfl
        rfl
      | _ => exact False.elim

theorem pageFrom_eq_pageOf (hfuel : rounds source ≤ fuel) (hn : rounds source ≤ n) :
    pageFrom env features fuel (Xml.readName env features fuel) n (setInputSource source) =
      pageOf env features source := by
  have hbounds {fuel : Nat} (hfuel : rounds source ≤ fuel) :
      Bounds (source.length + 1) fuel (rounds source) (Xml.readName env features fuel)
        (readNameChecked env features (rounds source)) := by
    unfold rounds at hfuel ⊢
    exact ⟨hfuel, Nat.le_refl _, readName_follows (by omega) (by omega)⟩
  have hsize : Size (2 * source.length) (setInputSource source) :=
    ⟨source.length, ⟨_, left_setInputSource source, length_packed_le false source⟩, le_rfl⟩
  have hlt : 2 * source.length < rounds source := by
    unfold rounds
    omega
  unfold pageOf
  rw [pageFrom_follows (hbounds hfuel) hlt hsize (hlt.trans_le hn) hlt,
    pageFrom_follows (hbounds (Nat.le_refl _)) hlt hsize hlt hlt]

end

end BathyScaphe.Xml
