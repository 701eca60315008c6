import Mathlib.Tactic.Common

/-! Reference counts. A cell is there with a count, or has been released. Taking a
reference adds one to the count; dropping one releases the cell when the count is
at most one. A standing compares the count with the number of holders while an
operation holds a reference of its own or still owes one; with `P` the comparison
is exact. -/

namespace EagleMQ

namespace Refcount

/-- The cell after a reference to it has been dropped. -/
def drop (n : ℕ) : Option ℕ := if n ≤ 1 then none else some (n - 1)

/-- The cell after a reference to it has been taken and dropped. -/
def touch (n : ℕ) : Option ℕ := if n = 0 then none else some n

inductive Standing where
  /-- The count covers the holders, and there are some. -/
  | even
  /-- The same, but there may be no holder yet. -/
  | blank
  /-- The operation under way has a reference of its own. -/
  | held
  /-- The operation under way has made a holder that it has not counted. -/
  | owed
  deriving DecidableEq

namespace Standing

/-- The comparison of a cell with the number of its holders. -/
def Holds (P : Prop) : Standing → Option ℕ → ℕ → Prop
  | .even, none, h => h = 0
  | .even, some n, h => h ≤ n ∧ (P → n = h ∧ 0 < h)
  | .blank, none, h => h = 0
  | .blank, some n, h => h ≤ n ∧ (P → n = h)
  | .held, none, _ => False
  | .held, some n, h => h < n ∧ (P → n = h + 1)
  | .owed, none, _ => True
  | .owed, some n, h => h ≤ n + 1 ∧ (P → h = n + 1)

variable {P : Prop} {a : Standing} {cell : Option ℕ} {n h h' : ℕ}

theorem Holds.congr (hn : a.Holds P cell h) (hh : h' = h) : a.Holds P cell h' := hh ▸ hn

/-! ### One holder more or less -/

theorem Holds.take (hn : a.Holds P (some n) h) : a.Holds P (some (n + 1)) (h + 1) := by
  cases a <;> simp only [Holds] at hn ⊢ <;> exact ⟨by omega, fun hP => by have := hn.2 hP; omega⟩

theorem Holds.touch (hn : a.Holds P (some n) h) : a.Holds P (Refcount.touch n) h := by
  unfold Refcount.touch
  split_ifs with h0
  · subst h0
    cases a <;> simp only [Holds] at hn ⊢ <;> omega
  · exact hn

theorem Holds.drop (hn : a.Holds P (some n) (h + 1)) : a.Holds P (Refcount.drop n) h := by
  unfold Refcount.drop
  split_ifs with h1
  · cases a <;> simp only [Holds] at hn ⊢ <;> omega
  · cases a <;> simp only [Holds] at hn ⊢ <;> exact ⟨by omega, fun hP => by have := hn.2 hP; omega⟩

/-- A new cell for its first holder. -/
theorem Holds.first (hn : Holds P .even none h) : Holds P .even (some 1) (h + 1) := by
  simp only [Holds] at hn ⊢
  omega

/-- Without exactness holders may go and leave the count. -/
theorem Holds.mono (hn : a.Holds P cell h) (hP : ¬P) (hle : h' ≤ h) : a.Holds P cell h' := by
  cases cell <;> cases a <;> simp only [Holds, hP, false_implies, and_true] at hn ⊢ <;> omega

/-! ### The course of an operation -/

/-- A new cell for the operation itself. -/
theorem Holds.create (hn : Holds P .even none h) : Holds P .held (some 1) h := by
  simp only [Holds] at hn ⊢
  omega

/-- A new cell with its count reset. -/
theorem Holds.reset (hn : Holds P .even none h) : Holds P .blank (some 0) h := by
  simp only [Holds] at hn ⊢
  omega

/-- The reference of the operation goes to a new holder. -/
theorem Holds.pass (hn : Holds P .held cell h) : Holds P .even cell (h + 1) := by
  cases cell with
  | none => exact hn.elim
  | some n =>
    simp only [Holds] at hn ⊢
    exact ⟨by omega, fun hP => ⟨hn.2 hP, by omega⟩⟩

/-- The operation drops its reference. -/
theorem Holds.leave (hn : Holds P .held (some n) h) : Holds P .even (Refcount.drop n) h := by
  unfold Refcount.drop
  simp only [Holds] at hn
  split_ifs with h1
  · simp only [Holds]; omega
  · exact ⟨by omega, fun hP => by have := hn.2 hP; omega⟩

/-- The operation makes a holder and counts it later. -/
theorem Holds.owe (hn : Holds P .blank cell h) : Holds P .owed cell (h + 1) := by
  cases cell with
  | none => trivial
  | some n =>
    simp only [Holds] at hn ⊢
    exact ⟨by omega, fun hP => by have := hn.2 hP; omega⟩

theorem Holds.repay (hn : Holds P .owed (some n) h) : Holds P .even (some (n + 1)) h := by
  simp only [Holds] at hn ⊢
  exact ⟨hn.1, fun hP => by have := hn.2 hP; omega⟩

theorem Holds.blank (hn : Holds P .even cell h) : Holds P .blank cell h := by
  cases cell with
  | none => exact hn
  | some n => exact ⟨hn.1, fun hP => (hn.2 hP).1⟩

theorem Holds.even (hn : Holds P .blank cell h) (hP : ¬P) : Holds P .even cell h := by
  cases cell with
  | none => exact hn
  | some n => exact ⟨hn.1, fun h => absurd h hP⟩

end Standing

end Refcount

end EagleMQ
