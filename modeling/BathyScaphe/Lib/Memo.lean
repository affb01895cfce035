import Mathlib.Data.List.Basic

/-!
# Remembered answers

An association list in front of a function: it agrees with the function where every answer that it
holds is the function's. A change of the function keeps this where it changes no answer that is
held. -/

namespace Memo

variable {κ : Type u} {ρ : Type v} [BEq κ] [LawfulBEq κ] {cache : List (κ × ρ)}
  {f g : κ → Option ρ} {k : κ} {v : ρ}

def Agrees (cache : List (κ × ρ)) (f : κ → Option ρ) : Prop :=
  ∀ k v, cache.lookup k = some v → f k = some v

omit [LawfulBEq κ] in
theorem agrees_nil (f : κ → Option ρ) : Agrees [] f := nofun

theorem Agrees.cons (h : Agrees cache f) (hv : f k = some v) : Agrees ((k, v) :: cache) f := by
  intro k' v' hlookup
  rw [List.lookup_cons] at hlookup
  split at hlookup
  · rename_i hk
    rw [eq_of_beq hk, hv]
    exact hlookup
  · exact h k' v' hlookup

omit [LawfulBEq κ] in
theorem Agrees.congr (h : Agrees cache f) (hfg : ∀ k v, cache.lookup k = some v → g k = f k) :
    Agrees cache g :=
  fun k v hlookup => (hfg k v hlookup).trans (h k v hlookup)

end Memo
