import Mathlib.Algebra.BigOperators.Group.Finset.Piecewise
import Mathlib.Algebra.Order.BigOperators.Group.Finset
import Mathlib.Tactic.Common

/-! Partial maps from addresses to records. A field is read with a default for
the addresses where there is no record, and summed over all addresses below a
bound. -/

namespace EagleMQ

abbrev Heap (α : Type) := ℕ → Option α

namespace Heap

variable {α β : Type} {h : Heap α} {p : ℕ} {a : α} {f : α → β} {d : β}

/-- A field of the record at an address. -/
def read (h : Heap α) (f : α → β) (d : β) (p : ℕ) : β := (h p).elim d f

theorem read_some (hp : h p = some a) : read h f d p = f a := by simp [read, hp]

theorem read_none (hp : h p = none) : read h f d p = d := by simp [read, hp]

@[simp] theorem read_update_some (h : Heap α) (p : ℕ) (a : α) (f : α → β) (d : β) :
    read (Function.update h p (some a)) f d = Function.update (read h f d) p (f a) := by
  funext q
  by_cases hq : q = p
  · subst hq; simp [read]
  · simp [read, hq]

@[simp] theorem read_update_none (h : Heap α) (p : ℕ) (f : α → β) (d : β) :
    read (Function.update h p none) f d = Function.update (read h f d) p d := by
  funext q
  by_cases hq : q = p
  · subst hq; simp [read]
  · simp [read, hq]

/-- Writing a record that agrees with the old one on a field leaves the field alone. -/
theorem update_read_self (hp : h p = some a) (f : α → β) (d : β) :
    Function.update (read h f d) p (f a) = read h f d := by
  rw [← read_some (f := f) (d := d) hp, Function.update_eq_self]

theorem update_read_none (hp : h p = none) (f : α → β) (d : β) :
    Function.update (read h f d) p d = read h f d := by
  have := Function.update_eq_self p (read h f d)
  rwa [read_none hp] at this

/-- Every record lies below the allocation bound. -/
def Below (h : Heap α) (n : ℕ) : Prop := ∀ p, h p ≠ none → p < n

theorem Below.eq_none {n : ℕ} (hb : Below h n) (hp : n ≤ p) : h p = none := by
  by_contra hne
  exact absurd (hb p hne) (by omega)

theorem Below.update {n m : ℕ} (hb : Below h n) (hnm : n ≤ m) (hp : p < m) (x : Option α) :
    Below (Function.update h p x) m := by
  intro q hq
  by_cases hqp : q = p
  · omega
  · rw [Function.update_of_ne hqp] at hq
    have := hb q hq
    omega

/-! ### Totals -/

/-- The sum of a count over the addresses below `n`. -/
def total (g : ℕ → ℕ) (n : ℕ) : ℕ := ∑ p ∈ Finset.range n, g p

theorem total_update {n : ℕ} (g : ℕ → ℕ) (hp : p < n) (v : ℕ) :
    total (Function.update g p v) n + g p = total g n + v := by
  unfold total
  have hmem : p ∈ Finset.range n := Finset.mem_range.mpr hp
  rw [Finset.sum_update_of_mem hmem, ← Finset.add_sum_erase _ g hmem, Finset.sdiff_singleton_eq_erase]
  omega

theorem total_succ (g : ℕ → ℕ) (n : ℕ) : total g (n + 1) = total g n + g n :=
  Finset.sum_range_succ g n

theorem total_mono (g : ℕ → ℕ) {n m : ℕ} (hnm : n ≤ m) (hz : ∀ p, n ≤ p → g p = 0) :
    total g m = total g n := by
  induction m, hnm using Nat.le_induction with
  | base => rfl
  | succ m hm ih => rw [total_succ, ih, hz m hm, Nat.add_zero]

theorem le_total {n : ℕ} (g : ℕ → ℕ) (hp : p < n) : g p ≤ total g n :=
  Finset.single_le_sum (fun _ _ => Nat.zero_le _) (Finset.mem_range.mpr hp)

theorem total_congr {n : ℕ} {g g' : ℕ → ℕ} (hg : ∀ p, g p = g' p) : total g n = total g' n := by
  rw [funext hg]

/-- The sum of a count over the records below `n`. -/
def sum (h : Heap α) (f : α → ℕ) (n : ℕ) : ℕ := total (read h f 0) n

section Sum

variable {n m : ℕ} {f : α → ℕ} {b : α}

theorem sum_update_some (hp : h p = some a) (hlt : p < n) :
    sum (Function.update h p (some b)) f n + f a = sum h f n + f b := by
  have := total_update (read h f 0) hlt (f b)
  rwa [read_some hp, ← read_update_some] at this

theorem sum_update_none (hp : h p = some a) (hlt : p < n) :
    sum (Function.update h p none) f n + f a = sum h f n := by
  have := total_update (read h f 0) hlt 0
  rwa [read_some hp, ← read_update_none, Nat.add_zero] at this

theorem sum_grow (hb : Below h n) (hle : n ≤ m) : sum h f m = sum h f n :=
  total_mono _ hle fun _ hq => read_none (hb.eq_none hq)

theorem sum_alloc (hb : Below h n) : sum (Function.update h n (some b)) f (n + 1) = sum h f n + f b := by
  have := total_update (read h f 0) (Nat.lt_succ_self n) (f b)
  rw [read_none (hb.eq_none (Nat.le_refl n)), ← read_update_some, Nat.add_zero] at this
  rw [← sum_grow hb (Nat.le_succ n)]
  exact this

theorem sum_congr {h' : Heap β} {f' : β → ℕ} (hf : ∀ p, (h' p).map f' = (h p).map f) :
    sum h' f' n = sum h f n :=
  total_congr fun p => by
    have hp := congrArg (Option.elim · 0 id) (hf p)
    cases hx : h p <;> cases hy : h' p <;> simp_all [read]

theorem sum_eq_zero (hf : ∀ p a, h p = some a → f a = 0) : sum h f n = 0 := by
  unfold sum total
  refine Finset.sum_eq_zero fun p _ => ?_
  cases hp : h p with
  | none => exact read_none hp
  | some a => exact (read_some hp).trans (hf p a hp)

theorem le_sum (hp : h p = some a) (hlt : p < n) : f a ≤ sum h f n := by
  have := le_total (read h f 0) hlt
  rwa [read_some hp] at this

end Sum

end Heap

end EagleMQ
