import Mathlib.Logic.Function.Iterate

/-!
# Undo stacks

A change of a state registers the change that is to take it back. The registered change
is fixed when the change is made, whatever the state is. Undoing performs the change on
the top of the stack, and registers its inverse for redo.
-/

namespace Undo

structure Session (σ κ : Type) where
  state : σ
  undoStack : List κ := []
  redoStack : List κ := []

section
variable {σ κ β : Type} (perform : κ → σ → σ) (inverse : κ → κ)

def Session.change (c : κ) (s : Session σ κ) : Session σ κ where
  state := perform c s.state
  undoStack := inverse c :: s.undoStack

def Session.changeAll (changes : List κ) (s : Session σ κ) : Session σ κ :=
  changes.foldl (fun s c => s.change perform inverse c) s

def Session.undo (s : Session σ κ) : Session σ κ :=
  match s.undoStack with
  | [] => s
  | c :: rest =>
      { state := perform c s.state, undoStack := rest, redoStack := inverse c :: s.redoStack }

def Session.undoMany (n : Nat) (s : Session σ κ) : Session σ κ :=
  (Session.undo perform inverse)^[n] s

variable {perform inverse}

theorem state_undoMany (n : Nat) (s : Session σ κ) : (s.undoMany perform inverse n).state =
    (s.undoStack.take n).foldl (fun state c => perform c state) s.state := by
  induction n generalizing s with
  | zero => rfl
  | succ n ih =>
    obtain ⟨state, undoStack, redoStack⟩ := s
    rw [Session.undoMany, Function.iterate_succ_apply]
    cases undoStack with
    | nil =>
      have hrest := ih ⟨state, [], redoStack⟩
      rw [List.take_nil] at hrest
      exact hrest
    | cons c rest => exact ih ⟨perform c state, rest, inverse c :: redoStack⟩

theorem changeAll_eq (changes : List κ) (s : Session σ κ) :
    (s.changeAll perform inverse changes).state = changes.foldl
    (fun state c => perform c state) s.state ∧
      (s.changeAll perform inverse changes).undoStack = changes.reverse.map inverse ++
        s.undoStack := by
  induction changes generalizing s with
  | nil => exact ⟨rfl, rfl⟩
  | cons c changes ih =>
    obtain ⟨hstate, hstack⟩ := ih (s.change perform inverse c)
    refine ⟨hstate, hstack.trans ?_⟩
    rw [List.reverse_cons, List.map_append, List.append_assoc]
    rfl

def roundTrip (inverse : κ → κ) (changes : List κ) : List κ :=
  changes ++ changes.reverse.map inverse

theorem undoMany_changeAll (changes : List κ) (s : Session σ κ) :
    ((s.changeAll perform inverse changes).undoMany perform inverse changes.length).state =
      (roundTrip inverse changes).foldl (fun state c => perform c state) s.state := by
  obtain ⟨hstate, hstack⟩ := changeAll_eq changes s
  have htake : (changes.reverse.map inverse ++ s.undoStack).take changes.length =
    changes.reverse.map inverse :=
    List.take_left' (by rw [List.length_map, List.length_reverse])
  rw [state_undoMany, hstate, hstack, htake, roundTrip, List.foldl_append]

theorem filter_roundTrip {mine : κ → Bool} (hinverse : ∀ c, mine (inverse c) = mine c)
    (changes : List κ) :
    (roundTrip inverse changes).filter mine = roundTrip inverse (changes.filter mine) := by
  have hmine : mine ∘ inverse = mine := funext hinverse
  rw [roundTrip, roundTrip, List.filter_append, List.filter_map, hmine, List.filter_reverse]

theorem foldl_part {part : σ → β} {mine : κ → Bool} {act : β → κ → β}
    (hmine : ∀ state c, mine c = true → part (perform c state) = act (part state) c)
    (hother : ∀ state c, mine c = false → part (perform c state) = part state)
    (changes : List κ) (state : σ) :
    part (changes.foldl (fun state c => perform c state) state) = (changes.filter mine).foldl act
      (part state) := by
  induction changes generalizing state with
  | nil => rfl
  | cons c changes ih =>
    rw [List.foldl_cons, ih]
    cases hc : mine c with
    | true => rw [List.filter_cons_of_pos hc, List.foldl_cons, hmine state c hc]
    | false => rw [List.filter_cons_of_neg (by rw [hc]; exact Bool.false_ne_true),
        hother state c hc]

variable (perform inverse) in
theorem part_undoMany (part : σ → β) (mine : κ → Bool) (act : β → κ → β)
    (hinverse : ∀ c, mine (inverse c) = mine c)
    (hmine : ∀ state c, mine c = true → part (perform c state) = act (part state) c)
    (hother : ∀ state c, mine c = false → part (perform c state) = part state) (changes : List κ)
    (s : Session σ κ) :
    part ((s.changeAll perform inverse changes).undoMany perform inverse changes.length).state =
      (roundTrip inverse (changes.filter mine)).foldl act (part s.state) := by
  rw [undoMany_changeAll, foldl_part hmine hother, filter_roundTrip hinverse]

theorem foldl_roundTrip_cons {act : β → κ → β} (c : κ) (changes : List κ) (x : β) :
    (roundTrip inverse (c :: changes)).foldl act x =
      act ((roundTrip inverse changes).foldl act (act x c)) (inverse c) := by
  rw [roundTrip, List.reverse_cons, List.map_append, List.cons_append, ← List.append_assoc,
    List.foldl_cons, List.foldl_append]
  rfl

end

end Undo
