import Mathlib.Data.List.TakeDrop
import Mathlib.Tactic.Common

/-! Dictionary coding. A text is produced by tokens, each of them a run of literals or
a copy of a stretch of what has been produced so far. A copy goes one element at a
time and may run into its own result; where the two stretches are apart, it is the
plain copy of a slice. -/

namespace EagleMQ

/-- `copy off len` starts `off + 1` back from the end. -/
inductive Token (α : Type) where
  | literal (run : List α)
  | copy (off len : ℕ)
  deriving DecidableEq, Repr

namespace Token

variable {α : Type}

def replay : ℕ → ℕ → List α → Option (List α)
  | 0, _, out => some out
  | n + 1, ref, out => out[ref]?.bind fun x => replay n (ref + 1) (out ++ [x])

def apply (out : List α) : Token α → Option (List α)
  | literal run => some (out ++ run)
  | copy off len => if off < out.length then replay len (out.length - off - 1) out else none

/-- What the tokens make of the text so far. -/
def expand (out : List α) (tokens : List (Token α)) : Option (List α) := tokens.foldlM apply out

variable {data out out' : List α} {tokens : List (Token α)} {t : Token α} {n ref pos len : ℕ}

/-! ### Copies -/

theorem replay_some : ∀ (n : ℕ) {ref : ℕ} {out : List α}, ref < out.length →
    ∃ out', replay n ref out = some out' ∧ out'.length = out.length + n
  | 0, _, out, _ => ⟨out, rfl, rfl⟩
  | n + 1, ref, out, h => by
    have hx : out[ref]? = some out[ref] := List.getElem?_eq_getElem h
    have hnext : ref + 1 < (out ++ [out[ref]]).length := by simpa using h
    obtain ⟨out', hr, hlen⟩ := replay_some n hnext
    refine ⟨out', by rw [replay, hx]; exact hr, ?_⟩
    rw [hlen, List.length_append, List.length_singleton]
    omega

/-- A copy whose elements have been compared goes on with the text that they were compared to. -/
theorem replay_take : ∀ {len ref pos : ℕ}, ref < pos → pos + len ≤ data.length →
    (∀ k < len, data[ref + k]? = data[pos + k]?) →
      replay len ref (data.take pos) = some (data.take (pos + len))
  | 0, _, _, _, _, _ => rfl
  | len + 1, ref, pos, hpos, hlen, heq => by
    have hlt : pos < data.length := by omega
    have hx : (data.take pos)[ref]? = some data[pos] := by
      rw [List.getElem?_take_of_lt hpos, show data[ref]? = data[pos]? from heq 0 (Nat.succ_pos _),
        List.getElem?_eq_getElem hlt]
    have hnext : data.take pos ++ [data[pos]] = data.take (pos + 1) := by
      rw [List.take_add_one, List.getElem?_eq_getElem hlt]
      rfl
    rw [replay, hx, Option.bind_some, hnext]
    have hlater : ∀ k < len, data[ref + 1 + k]? = data[pos + 1 + k]? := fun k hk => by
      have h := heq (k + 1) (Nat.succ_lt_succ hk)
      rwa [← Nat.add_assoc, ← Nat.add_assoc, Nat.add_right_comm, Nat.add_right_comm pos] at h
    rw [replay_take (Nat.succ_lt_succ hpos) (by omega) hlater, Nat.succ_add_eq_add_succ]

/-- A copy that does not reach its own result is one of a slice. -/
theorem replay_apart : ∀ {n ref : ℕ} {out : List α}, ref + n ≤ out.length →
    replay n ref out = some (out ++ (out.drop ref).take n)
  | 0, _, out, _ => by simp [replay]
  | n + 1, ref, out, h => by
    have hlt : ref < out.length := by omega
    have hnext : ref + 1 + n ≤ (out ++ [out[ref]]).length := by
      rw [List.length_append, List.length_singleton]
      omega
    have hdrop : (out ++ [out[ref]]).drop (ref + 1) = out.drop (ref + 1) ++ [out[ref]] :=
      List.drop_append_of_le_length hlt
    have htake : (out.drop (ref + 1) ++ [out[ref]]).take n = (out.drop (ref + 1)).take n :=
      List.take_append_of_le_length (by rw [List.length_drop]; omega)
    rw [replay, List.getElem?_eq_getElem hlt, Option.bind_some, replay_apart hnext, hdrop, htake,
      List.append_assoc,
      List.drop_eq_getElem_cons hlt]
    rfl

/-! ### Texts -/

theorem expand_cons (out : List α) (t : Token α) (tokens : List (Token α)) :
    expand out (t :: tokens) = (apply out t).bind fun out => expand out tokens :=
  rfl

theorem expand_snoc (h : expand out tokens = some out') (t : Token α) :
    expand out (tokens ++ [t]) = apply out' t := by
  rw [expand, List.foldlM_append]
  change (expand out tokens).bind _ = _
  rw [h]
  simp

theorem apply_length_le (h : apply out t = some out') : out.length ≤ out'.length := by
  cases t with
  | literal run =>
    cases h
    simp
  | copy off len =>
    rw [apply] at h
    split_ifs at h with hoff
    obtain ⟨_, hr, hlen⟩ := replay_some len (show out.length - off - 1 < out.length by omega)
    cases hr.symm.trans h
    omega

theorem expand_length_le : ∀ {tokens : List (Token α)} {out : List α}, expand out tokens = some out' →
    out.length ≤ out'.length
  | [], _, h => by
    cases h
    exact Nat.le_refl _
  | t :: tokens, out, h => by
    rw [expand_cons] at h
    obtain ⟨mid, hmid, hrest⟩ := Option.bind_eq_some_iff.mp h
    exact Nat.le_trans (apply_length_le hmid) (expand_length_le hrest)

end Token

end EagleMQ
