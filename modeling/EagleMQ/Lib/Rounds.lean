import Mathlib.Data.List.Nodup
import Mathlib.Tactic.Common

/-! Members that are picked in turn. The order of the members is a list; a pick
brings the last one to the front. As long as nothing else changes the order, the
picks go through the members again and again, each once in every round. -/

namespace EagleMQ

variable {σ α : Type}

/-- A run of picks, the picked members in order. What else happens leaves the order alone. -/
inductive Rounds (order : σ → List α) (picks : σ → α → σ → Prop) : σ → List α → σ → Prop
  | nil (s : σ) : Rounds order picks s [] s
  | pick {s t u : σ} {a : α} {l : List α} (h : picks s a t) (hrest : Rounds order picks t l u) :
      Rounds order picks s (a :: l) u
  | quiet {s t u : σ} {l : List α} (h : order t = order s) (hrest : Rounds order picks t l u) :
      Rounds order picks s l u

namespace Rounds

variable {order : σ → List α} {picks : σ → α → σ → Prop} {s t u : σ} {l l' p r : List α}

theorem split (h : Rounds order picks s (l ++ l') u) :
    ∃ t, Rounds order picks s l t ∧ Rounds order picks t l' u := by
  induction l generalizing s u with
  | nil => exact ⟨s, .nil s, h⟩
  | cons a l ih =>
    generalize hlist : (a :: l) ++ l' = k at h
    induction h with
    | nil s => cases hlist
    | pick h hrest _ =>
      obtain ⟨rfl, rfl⟩ := List.cons.inj hlist
      obtain ⟨t, ht, hu⟩ := ih hrest
      exact ⟨t, .pick h ht, hu⟩
    | quiet h _ ih' =>
      obtain ⟨t, ht, hu⟩ := ih' hlist
      exact ⟨t, .quiet h ht, hu⟩

variable (hpicks : ∀ s a t, picks s a t → ∃ r, order s = r ++ [a] ∧ order t = a :: r)

include hpicks

/-- The order stays the same up to where it starts. -/
theorem perm (h : Rounds order picks s l t) : (order t).Perm (order s) := by
  induction h with
  | nil s => exact .rfl
  | pick h _ ih =>
    obtain ⟨r, hs, ht⟩ := hpicks _ _ _ h
    rw [hs]
    exact ih.trans (ht ▸ (List.perm_append_singleton _ r).symm)
  | quiet h _ ih => exact h ▸ ih

/-- The members at the end of the order are picked first, from the last one on. -/
theorem picks_eq (h : Rounds order picks s l t) (hs : order s = p ++ r) (hl : l.length ≤ r.length) :
    l = r.reverse.take l.length := by
  induction h generalizing p r with
  | nil s => rfl
  | @pick s t u a l h _ ih =>
    obtain ⟨k, hk, ht⟩ := hpicks _ _ _ h
    obtain rfl | ⟨r, b, rfl⟩ := r.eq_nil_or_concat'
    · simp at hl
    · rw [hk, ← List.append_assoc] at hs
      obtain ⟨rfl, hb⟩ := List.append_inj' hs rfl
      obtain rfl := List.singleton_inj.mp hb
      have hrest := ih (p := a :: p) (r := r) (by rw [ht, List.cons_append]) (by simpa using hl)
      rw [List.reverse_append, List.length_cons]
      simpa using hrest
  | quiet h _ ih => exact ih (h.trans hs) hl

/-- Any picks that follow each other are different, up to a whole round. -/
theorem nodup (h : Rounds order picks s (l ++ l') u) (hn : (order s).Nodup)
    (hl : l'.length ≤ (order s).length) : l'.Nodup := by
  obtain ⟨t, ht, hu⟩ := h.split
  have hperm := ht.perm hpicks
  rw [hu.picks_eq hpicks (p := []) (r := order t) rfl (by rwa [hperm.length_eq])]
  exact (List.nodup_reverse.mpr (hperm.nodup_iff.mpr hn)).sublist (List.take_sublist _ _)

/-- A whole round, wherever it starts, picks each member once. -/
theorem round (h : Rounds order picks s (l ++ l') u) (hl : l'.length = (order s).length) :
    l'.Perm (order s) := by
  obtain ⟨t, ht, hu⟩ := h.split
  have hperm := ht.perm hpicks
  have hlen : l'.length = (order t).length := by rw [hl, hperm.length_eq]
  have heq := hu.picks_eq hpicks (p := []) (r := order t) rfl (Nat.le_of_eq hlen)
  rw [hlen, List.take_of_length_le (by simp)] at heq
  exact heq ▸ (List.reverse_perm _).trans hperm

end Rounds

end EagleMQ
