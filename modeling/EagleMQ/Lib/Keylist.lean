import Mathlib.Data.List.Nodup
import Mathlib.Data.List.Count
import Mathlib.Tactic.Common

/-! Relations that both of their sides store. `Mirror` relates the two adjacency
lists of such a relation, by counts, so that it also excludes duplicates. A
`Keylist` is a list of keys, each with a list of values: an ordered multimap,
from which a key goes away with its last value. -/

namespace EagleMQ

/-- `f` and `g` list the same pairs, each once. -/
def Mirror {α β : Type} [DecidableEq α] [DecidableEq β] (f : α → List β) (g : β → List α) : Prop :=
  ∀ a b, (f a).count b = (g b).count a ∧ (f a).count b ≤ 1

namespace Mirror

variable {α β : Type} [DecidableEq α] [DecidableEq β] {f f' : α → List β} {g g' : β → List α}
  {a : α} {b : β}

theorem symm (h : Mirror f g) : Mirror g f := fun b a => by
  have := h a b
  omega

theorem mem (h : Mirror f g) : b ∈ f a ↔ a ∈ g b := by
  rw [← List.count_pos_iff, ← List.count_pos_iff, (h a b).1]

theorem nodup (h : Mirror f g) (a : α) : (f a).Nodup :=
  List.nodup_iff_count_le_one.mpr fun b => (h a b).2

theorem nodup' (h : Mirror f g) (b : β) : (g b).Nodup := h.symm.nodup b

theorem empty : Mirror (fun _ : α => ([] : List β)) fun _ => [] := fun a b => by simp

/-- Only what is listed matters, not in which order. -/
theorem congr (h : Mirror f g) (hf : ∀ a, (f' a).Perm (f a)) (hg : ∀ b, (g' b).Perm (g b)) :
    Mirror f' g' := fun a b => by
  have := h a b
  rw [(hf a).count_eq, (hg b).count_eq]
  exact this

/-- A new pair, at the end of both lists. -/
theorem link (h : Mirror f g) (hab : b ∉ f a) :
    Mirror (Function.update f a (f a ++ [b])) (Function.update g b (g b ++ [a])) := by
  intro x y
  have h0 : (f a).count b = 0 := List.count_eq_zero.mpr hab
  have hxy := h x y
  have hg0 := h a b
  by_cases hx : x = a <;> by_cases hy : y = b <;>
    simp_all [List.count_append, Function.update_of_ne, eq_comm]

/-- A pair is taken out on both sides. -/
theorem unlink (h : Mirror f g) (a : α) (b : β) :
    Mirror (Function.update f a ((f a).erase b)) (Function.update g b ((g b).erase a)) := by
  intro x y
  have hxy := h x y
  have hab := h a b
  by_cases hx : x = a <;> by_cases hy : y = b
  · subst hx hy
    simp only [Function.update_self, List.count_erase_self]
    omega
  · subst hx
    simpa [Function.update_of_ne hy, List.count_erase_of_ne hy] using hxy
  · subst hy
    simpa [Function.update_of_ne hx, List.count_erase_of_ne hx] using hxy
  · simpa [Function.update_of_ne hx, Function.update_of_ne hy] using hxy

theorem mem_update_erase {x : α} {y : β} :
    y ∈ Function.update f a ((f a).erase b) x → y ∈ f x := by
  by_cases hx : x = a
  · subst hx
    rw [Function.update_self]
    exact List.mem_of_mem_erase
  · rw [Function.update_of_ne hx]
    exact id

theorem mem_update_erase_of_ne {x : α} {y : β} (hy : y ≠ b) :
    y ∈ Function.update f a ((f a).erase b) x ↔ y ∈ f x := by
  by_cases hx : x = a
  · subst hx
    rw [Function.update_self]
    exact List.mem_erase_of_ne hy
  · rw [Function.update_of_ne hx]

end Mirror

/-! ### Keylists -/

abbrev Keylist (κ α : Type) := List (κ × List α)

set_option linter.unusedSectionVars false

namespace Keylist

variable {κ α : Type} [DecidableEq κ] [DecidableEq α]

def keys (l : Keylist κ α) : List κ := l.map Prod.fst

/-- The values of a key; none for a key that is not there. -/
def values (l : Keylist κ α) (k : κ) : List α :=
  match l with
  | [] => []
  | (k', v) :: l => if k' = k then v else values l k

/-- Replace the values of a key, in its place or as a new last key. -/
def set (l : Keylist κ α) (k : κ) (v : List α) : Keylist κ α :=
  match l with
  | [] => [(k, v)]
  | (k', v') :: l => if k' = k then (k, v) :: l else (k', v') :: set l k v

def delete (l : Keylist κ α) (k : κ) : Keylist κ α :=
  match l with
  | [] => []
  | (k', v') :: l => if k' = k then l else (k', v') :: delete l k

/-- One more value, at the end. -/
def add (l : Keylist κ α) (k : κ) (a : α) : Keylist κ α := set l k (values l k ++ [a])

/-- One value less; the key goes with its last value. -/
def remove (l : Keylist κ α) (k : κ) (a : α) : Keylist κ α :=
  if k ∈ keys l then
    if (values l k).erase a = [] then delete l k else set l k ((values l k).erase a)
  else l

/-- No key is there twice, and every key has a value. -/
structure WF (l : Keylist κ α) : Prop where
  nodup : (keys l).Nodup
  ne_nil : ∀ k ∈ keys l, values l k ≠ []

variable {l : Keylist κ α} {k k' : κ} {a : α} {v : List α}

@[simp] theorem keys_nil : keys ([] : Keylist κ α) = [] := rfl

@[simp] theorem values_nil : values ([] : Keylist κ α) k = [] := rfl

theorem WF.nil : WF ([] : Keylist κ α) := ⟨by simp, by simp⟩

theorem values_of_not_mem (h : k ∉ keys l) : values l k = [] := by
  induction l with
  | nil => rfl
  | cons x l ih =>
    obtain ⟨k', v⟩ := x
    simp only [keys, List.map_cons, List.mem_cons, not_or] at h
    rw [values, if_neg (Ne.symm h.1)]
    exact ih h.2

theorem mem_keys_of_mem (h : a ∈ values l k) : k ∈ keys l := by
  by_contra hk
  rw [values_of_not_mem hk] at h
  exact absurd h (by simp)

theorem values_of_mem (hn : (keys l).Nodup) {x : κ × List α} (hx : x ∈ l) : values l x.1 = x.2 := by
  induction l with
  | nil => simp at hx
  | cons y l ih =>
    simp only [keys, List.map_cons, List.nodup_cons] at hn
    rcases List.mem_cons.mp hx with rfl | hx
    · simp [values]
    · rw [values, if_neg]
      · exact ih hn.2 hx
      · rintro heq
        exact hn.1 (heq ▸ List.mem_map_of_mem hx)

theorem WF.snd_ne_nil (h : WF l) {x : κ × List α} (hx : x ∈ l) : x.2 ≠ [] := by
  rw [← values_of_mem h.nodup hx]
  exact h.ne_nil x.1 (List.mem_map_of_mem hx)

theorem values_set (l : Keylist κ α) (k k' : κ) (v : List α) :
    values (set l k v) k' = if k' = k then v else values l k' := by
  induction l with
  | nil => simp [set, values, eq_comm]
  | cons x l ih =>
    obtain ⟨k₀, v₀⟩ := x
    by_cases h : k₀ = k
    · subst h
      simp only [set, values, if_pos]
      by_cases h' : k₀ = k'
      · simp [h']
      · simp [h', Ne.symm h']
    · simp only [set, if_neg h, values, ih]
      by_cases h' : k₀ = k'
      · subst h'; simp [h]
      · simp [h']

theorem keys_set (l : Keylist κ α) (k : κ) (v : List α) :
    keys (set l k v) = if k ∈ keys l then keys l else keys l ++ [k] := by
  induction l with
  | nil => simp [set, keys]
  | cons x l ih =>
    obtain ⟨k₀, v₀⟩ := x
    by_cases h : k₀ = k
    · subst h; simp [set, keys]
    · simp only [set, if_neg h]
      simp only [keys, List.map_cons, List.mem_cons] at ih ⊢
      rw [ih]
      by_cases hk : k ∈ List.map Prod.fst l <;> simp [hk, Ne.symm h]

theorem keys_delete (l : Keylist κ α) (k : κ) : keys (delete l k) = (keys l).erase k := by
  induction l with
  | nil => rfl
  | cons x l ih =>
    obtain ⟨k₀, v₀⟩ := x
    by_cases h : k₀ = k
    · subst h; simp [delete, keys]
    · simp only [delete, if_neg h]
      simp only [keys, List.map_cons] at ih ⊢
      rw [ih, List.erase_cons_tail (by simpa using h)]

theorem values_delete (hn : (keys l).Nodup) (k' : κ) :
    values (delete l k) k' = if k' = k then [] else values l k' := by
  induction l with
  | nil => simp [delete]
  | cons x l ih =>
    obtain ⟨k₀, v₀⟩ := x
    simp only [keys, List.map_cons, List.nodup_cons] at hn
    by_cases h : k₀ = k
    · subst h
      simp only [delete, if_pos, values]
      by_cases h' : k₀ = k'
      · subst h'; simpa using values_of_not_mem hn.1
      · simp [h', Ne.symm h']
    · simp only [delete, if_neg h, values, ih hn.2]
      by_cases h' : k₀ = k'
      · subst h'; simp [h]
      · simp [h']

theorem values_add (l : Keylist κ α) (k k' : κ) (a : α) :
    values (add l k a) k' = if k' = k then values l k ++ [a] else values l k' := values_set _ _ _ _

theorem values_remove (h : WF l) (k k' : κ) (a : α) :
    values (remove l k a) k' = if k' = k then (values l k).erase a else values l k' := by
  unfold remove
  split_ifs with h1 h2 h3 h3 h3
  · rw [values_delete h.nodup, if_pos h3, h2]
  · rw [values_delete h.nodup, if_neg h3]
  · rw [values_set, if_pos h3]
  · rw [values_set, if_neg h3]
  · rw [h3, values_of_not_mem h1]; rfl
  · rfl

theorem mem_keys_add (l : Keylist κ α) (k : κ) (a : α) :
    k' ∈ keys (add l k a) ↔ k' ∈ keys l ∨ k' = k := by
  unfold add
  rw [keys_set]
  split_ifs with h
  · exact ⟨.inl, fun h' => h'.elim id fun h' => h' ▸ h⟩
  · simp

theorem WF.add (h : WF l) (k : κ) (a : α) : WF (add l k a) := by
  refine ⟨?_, fun k' hk' => ?_⟩
  · unfold Keylist.add
    rw [keys_set]
    split_ifs with hk
    · exact h.nodup
    · refine List.nodup_append.mpr ⟨h.nodup, by simp, fun x hx y hy hxy => ?_⟩
      rw [List.mem_singleton] at hy
      exact hk (hy ▸ hxy ▸ hx)
  · rw [values_add]
    split_ifs with hkk
    · simp
    · refine h.ne_nil k' ?_
      rw [mem_keys_add] at hk'
      exact hk'.resolve_right hkk

theorem WF.set (h : WF l) (hk : k ∈ keys l) (hv : v ≠ []) : WF (set l k v) := by
  refine ⟨?_, fun k' hk' => ?_⟩
  · rw [keys_set, if_pos hk]
    exact h.nodup
  · rw [keys_set, if_pos hk] at hk'
    rw [values_set]
    split_ifs
    · exact hv
    · exact h.ne_nil k' hk'

theorem WF.remove (h : WF l) (k : κ) (a : α) : WF (remove l k a) := by
  refine ⟨?_, fun k' hk' => ?_⟩
  · unfold Keylist.remove
    split_ifs with h1 h2
    · rw [keys_delete]; exact h.nodup.erase k
    · rw [keys_set, if_pos h1]; exact h.nodup
    · exact h.nodup
  · rw [values_remove h]
    unfold Keylist.remove at hk'
    split_ifs with hkk
    · subst hkk
      split_ifs at hk' with h1 h2
      · rw [keys_delete] at hk'
        exact absurd hk' (h.nodup.not_mem_erase)
      · exact h2
      · exact absurd hk' h1
    · refine h.ne_nil k' ?_
      split_ifs at hk' with h1 h2
      · rw [keys_delete] at hk'
        exact List.mem_of_mem_erase hk'
      · rwa [keys_set, if_pos h1] at hk'
      · exact hk'

/-- What is left of a keylist whose first key has the values `v` left. -/
def rest (k : κ) (v : List α) (l : Keylist κ α) : Keylist κ α := if v = [] then l else (k, v) :: l

@[simp] theorem rest_nil (k : κ) (l : Keylist κ α) : rest k [] l = l := if_pos rfl

theorem rest_of_ne_nil {v : List α} (h : v ≠ []) (k : κ) (l : Keylist κ α) :
    rest k v l = (k, v) :: l := if_neg h

theorem remove_rest (k : κ) (a : α) (v : List α) (l : Keylist κ α) :
    remove (rest k (a :: v) l) k a = rest k v l := by
  simp only [rest, remove, keys, values, List.cons_ne_nil, if_false, List.map_cons, List.mem_cons,
    true_or, if_true, List.erase_cons_head]
  split_ifs with hv
  · rw [delete, if_pos rfl]
  · rw [set, if_pos rfl]

theorem keys_remove_sublist : (keys (remove l k a)).Sublist (keys l) := by
  unfold remove
  split_ifs with h1 h2
  · rw [keys_delete]
    exact List.erase_sublist
  · rw [keys_set, if_pos h1]
  · exact .refl _

/-! ### A key at the end -/

/-- A key with its values, which is not there without them. -/
def entry (k : κ) (v : List α) : Keylist κ α := if v = [] then [] else [(k, v)]

theorem values_last (hk : k ∉ keys l) (v : List α) : values (l ++ entry k v) k = v := by
  induction l with
  | nil =>
    unfold entry
    split_ifs with hv
    · exact hv.symm
    · exact if_pos rfl
  | cons x l ih =>
    obtain ⟨k', v'⟩ := x
    simp only [keys, List.map_cons, List.mem_cons, not_or] at hk
    rw [List.cons_append, values, if_neg (Ne.symm hk.1)]
    exact ih hk.2

theorem add_last (hk : k ∉ keys l) (v : List α) (a : α) :
    add (l ++ entry k v) k a = l ++ entry k (v ++ [a]) := by
  have hne : v ++ [a] ≠ [] := List.append_ne_nil_of_right_ne_nil v (List.cons_ne_nil a [])
  rw [add, values_last hk, show entry k (v ++ [a]) = [(k, v ++ [a])] from if_neg hne]
  induction l with
  | nil =>
    unfold entry
    split_ifs
    · rfl
    · exact if_pos rfl
  | cons x l ih =>
    obtain ⟨k', v'⟩ := x
    simp only [keys, List.map_cons, List.mem_cons, not_or] at hk
    rw [List.cons_append, set, if_neg (Ne.symm hk.1), ih hk.2]
    rfl

end Keylist

/-! ### Keyed relations -/

/-- A relation under every key. -/
def KMirror {κ α β : Type} [DecidableEq κ] [DecidableEq α] [DecidableEq β]
    (F : α → Keylist κ β) (G : β → Keylist κ α) : Prop :=
  ∀ k, Mirror (fun a => (F a).values k) fun b => (G b).values k

namespace KMirror

variable {κ α β : Type} [DecidableEq κ] [DecidableEq α] [DecidableEq β]
  {F : α → Keylist κ β} {G : β → Keylist κ α} {a : α} {b : β} {k : κ}

theorem values_update {α β : Type} [DecidableEq α] {F : α → Keylist κ β} (a : α) (l : Keylist κ β)
    (k : κ) :
    (fun x => (Function.update F a l x).values k) = Function.update (fun x => (F x).values k) a
      (l.values k) := by
  funext x
  by_cases hx : x = a
  · subst hx; simp
  · simp [hx]

theorem link (h : KMirror F G) (hab : b ∉ (F a).values k) :
    KMirror (Function.update F a ((F a).add k b)) (Function.update G b ((G b).add k a)) := by
  intro k'
  rw [values_update, values_update, Keylist.values_add, Keylist.values_add]
  by_cases hk : k' = k
  · subst hk
    rw [if_pos rfl, if_pos rfl]
    exact (h k').link hab
  · rw [if_neg hk, if_neg hk, Function.update_eq_self, Function.update_eq_self]
    exact h k'

theorem unlink (h : KMirror F G) (hF : (F a).WF) (hG : (G b).WF) (k : κ) :
    KMirror (Function.update F a ((F a).remove k b)) (Function.update G b ((G b).remove k a)) := by
  intro k'
  rw [values_update, values_update, Keylist.values_remove hF, Keylist.values_remove hG]
  by_cases hk : k' = k
  · subst hk
    rw [if_pos rfl, if_pos rfl]
    exact (h k').unlink a b
  · rw [if_neg hk, if_neg hk, Function.update_eq_self, Function.update_eq_self]
    exact h k'

end KMirror

end EagleMQ
