import Mathlib.Data.List.Infix
import Mathlib.Tactic.Common

/-! Glob patterns over any alphabet, as lists of pieces, and the words they match. -/

namespace EagleMQ

/-- Any sequence, or one character of a class. -/
inductive Piece (α : Type*) where
  | star
  | one (p : α → Bool)

namespace Piece

variable {α : Type*} {p : α → Bool} {ps : List (Piece α)} {c : α} {l : List α}

def Matches : List (Piece α) → List α → Prop
  | [], l => l = []
  | star :: ps, l => ∃ v, v <:+ l ∧ Matches ps v
  | one p :: ps, l => ∃ c l', l = c :: l' ∧ p c = true ∧ Matches ps l'

@[simp] theorem matches_nil : Matches [] l ↔ l = [] := Iff.rfl

theorem matches_star : Matches (star :: ps) l ↔ ∃ v, v <:+ l ∧ Matches ps v := Iff.rfl

@[simp] theorem matches_one_cons : Matches (one p :: ps) (c :: l) ↔ p c = true ∧ Matches ps l := by
  simp [Matches]

@[simp] theorem not_matches_one_nil : ¬Matches (one p :: ps) [] := by simp [Matches]

/-- A pattern is decided piece by piece, a star by a search of the suffixes. -/
def decMatches : (ps : List (Piece α)) → (l : List α) → Decidable (Matches ps l)
  | [], l => decidable_of_iff (l.isEmpty = true) List.isEmpty_iff
  | star :: ps, l =>
    have : DecidablePred (Matches ps) := decMatches ps
    decidable_of_iff (∃ v ∈ l.tails, Matches ps v) (by simp [matches_star])
  | one _ :: _, [] => .isFalse not_matches_one_nil
  | one p :: ps, c :: l =>
    have : Decidable (Matches ps l) := decMatches ps l
    decidable_of_iff (p c = true ∧ Matches ps l) matches_one_cons.symm

instance : Decidable (Matches ps l) := decMatches ps l

theorem matches_empty : Matches ps [] ↔ ∀ q ∈ ps, q = star := by
  induction ps with
  | nil => simp
  | cons q ps ih =>
    cases q with
    | star => simp [matches_star, ih]
    | one p => simp

theorem matches_star_star : Matches (star :: star :: ps) l ↔ Matches (star :: ps) l := by
  refine ⟨fun ⟨v, hv, w, hw, h⟩ => ⟨w, hw.trans hv, h⟩, fun ⟨v, hv, h⟩ => ?_⟩
  exact ⟨v, hv, v, List.suffix_refl v, h⟩

/-- The pieces of a word match that word. -/
theorem matches_word [BEq α] [LawfulBEq α] {w : List α} :
    Matches (w.map fun c => one fun c' => c' == c) l ↔ l = w := by
  induction w generalizing l with
  | nil => simp
  | cons c w ih => cases l <;> simp [ih]

end Piece

end EagleMQ
