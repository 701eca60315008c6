import Mathlib.Tactic.Common

/-! An output buffer of chunks over any type. Chunks are appended at the end; a part of
the first one may have been written already, as far as an offset says. The account of
the buffer is that everything appended is what has been written and what is left. -/

namespace EagleMQ

namespace Outbox

variable {β : Type}

/-- What is left to write: the first chunk from the offset on, and the other chunks. -/
def rest : List (List β) → ℕ → List β
  | [], _ => []
  | d :: l, n => d.drop n ++ l.flatten

/-- An offset other than 0 is inside of the first chunk. -/
structure Account (appended : List (List β)) (written : List β) (chunks : List (List β)) (n : ℕ) : Prop where
  total : appended.flatten = written ++ rest chunks n
  inside : n ≠ 0 → ∃ d l, chunks = d :: l ∧ n < d.length

variable {appended chunks : List (List β)} {written d : List β} {n k : ℕ}

theorem rest_zero (chunks : List (List β)) : rest chunks 0 = chunks.flatten := by
  cases chunks <;> rfl

theorem Account.empty : Account ([] : List (List β)) [] [] 0 := ⟨rfl, fun h => absurd rfl h⟩

theorem Account.isPrefix (h : Account appended written chunks n) : written <+: appended.flatten :=
  ⟨_, h.total.symm⟩

theorem Account.offset_nil (h : Account appended written [] n) : n = 0 := by
  by_contra hn
  obtain ⟨d, l, hnil, -⟩ := h.inside hn
  exact nomatch hnil

theorem Account.append (h : Account appended written chunks n) (d : List β) :
    Account (appended ++ [d]) written (chunks ++ [d]) n := by
  cases chunks with
  | nil =>
    obtain rfl := h.offset_nil
    refine ⟨?_, fun hn => absurd rfl hn⟩
    rw [List.flatten_append, h.total]
    simp [rest]
  | cons e l =>
    refine ⟨?_, fun hn => ?_⟩
    · rw [List.flatten_append, h.total]
      simp [rest]
    · obtain ⟨e', l', he, hlt⟩ := h.inside hn
      obtain ⟨rfl, rfl⟩ := List.cons.inj he
      exact ⟨e, l ++ [d], rfl, hlt⟩

/-- A chunk without elements is passed over. -/
theorem Account.skip (h : Account appended written ([] :: chunks) n) : Account appended written chunks n := by
  have hn : n = 0 := by
    by_contra hn
    obtain ⟨d, l, he, hlt⟩ := h.inside hn
    obtain ⟨rfl, -⟩ := List.cons.inj he
    exact absurd hlt (Nat.not_lt_zero _)
  subst hn
  exact ⟨by rw [h.total, rest_zero, rest_zero, List.flatten_cons, List.nil_append], fun hn => absurd rfl hn⟩

/-- A part of the first chunk is written. -/
theorem Account.advance (h : Account appended written (d :: chunks) n) (hk : n + k < d.length) :
    Account appended (written ++ (d.drop n).take k) (d :: chunks) (n + k) := by
  refine ⟨?_, fun _ => ⟨d, chunks, rfl, hk⟩⟩
  have hsplit : d.drop n = (d.drop n).take k ++ d.drop (n + k) := by
    rw [← List.drop_drop, List.take_append_drop]
  rw [h.total, rest, rest, List.append_assoc, ← List.append_assoc _ (d.drop (n + k)), ← hsplit]

/-- The rest of the first chunk is written. -/
theorem Account.finish (h : Account appended written (d :: chunks) n) (hk : n + k = d.length) :
    Account appended (written ++ (d.drop n).take k) chunks 0 := by
  refine ⟨?_, fun hn => absurd rfl hn⟩
  rw [h.total, rest_zero, rest, List.append_assoc, List.take_of_length_le (by simp; omega)]

end Outbox

end EagleMQ
