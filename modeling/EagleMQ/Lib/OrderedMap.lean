import EagleMQ.Lib.Keylist

/-! Finite maps that remember the order in which their keys came. Keys are compared
by a test that need not be equality, so a key is there at most once up to the test.
A key that is set again keeps its place and its first spelling. -/

namespace EagleMQ

structure OrderedMap (κ ν : Type) (same : κ → κ → Bool) where
  entries : List (κ × ν)
  distinct : entries.Pairwise fun x y => same x.1 y.1 = false

namespace OrderedMap

variable {κ ν : Type} {same : κ → κ → Bool} {m : OrderedMap κ ν same} {l : List (κ × ν)} {k k' : κ} {v : ν}

def empty : OrderedMap κ ν same := ⟨[], .nil⟩

def find (m : OrderedMap κ ν same) (k : κ) : Option ν := (m.entries.find? fun x => same x.1 k).map Prod.snd

/-- Give the matching entry another value, or add an entry behind the last one. -/
def assign (same : κ → κ → Bool) (k : κ) (v : ν) : List (κ × ν) → List (κ × ν)
  | [] => [(k, v)]
  | x :: l => if same x.1 k then (x.1, v) :: l else x :: assign same k v l

theorem assign_append {a : List (κ × ν)} (h : ∀ x ∈ a, same x.1 k = false) (l : List (κ × ν)) :
    assign same k v (a ++ l) = a ++ assign same k v l := by
  induction a with
  | nil => rfl
  | cons x a ih =>
    rw [List.cons_append, assign, if_neg (by simp [h x (.head _)]), ih fun y hy => h y (.tail _ hy)]
    rfl

theorem assign_of_free (h : ∀ x ∈ l, same x.1 k = false) : assign same k v l = l ++ [(k, v)] := by
  simpa [assign] using assign_append h []

theorem mem_assign {x : κ × ν} (hx : x ∈ assign same k v l) : x.1 = k ∨ ∃ y ∈ l, y.1 = x.1 := by
  induction l with
  | nil => exact .inl (by rw [List.mem_singleton.mp hx])
  | cons y l ih =>
    rw [assign] at hx
    split_ifs at hx with hy
    · rcases List.mem_cons.mp hx with rfl | hx
      · exact .inr ⟨y, .head _, rfl⟩
      · exact .inr ⟨x, .tail _ hx, rfl⟩
    · rcases List.mem_cons.mp hx with rfl | hx
      · exact .inr ⟨x, .head _, rfl⟩
      · exact (ih hx).imp id fun ⟨z, hz, he⟩ => ⟨z, .tail _ hz, he⟩

theorem pairwise_assign (h : l.Pairwise fun x y => same x.1 y.1 = false) (k : κ) (v : ν) :
    (assign same k v l).Pairwise fun x y => same x.1 y.1 = false := by
  induction l with
  | nil => exact List.pairwise_singleton ..
  | cons x l ih =>
    obtain ⟨hx, hl⟩ := List.pairwise_cons.mp h
    rw [assign]
    split_ifs with hs
    · exact List.pairwise_cons.mpr ⟨hx, hl⟩
    · refine List.pairwise_cons.mpr ⟨fun y hy => ?_, ih hl⟩
      rcases mem_assign hy with he | ⟨z, hz, he⟩
      · rw [he]
        simpa using hs
      · rw [← he]
        exact hx z hz

def set (m : OrderedMap κ ν same) (k : κ) (v : ν) : OrderedMap κ ν same :=
  ⟨assign same k v m.entries, pairwise_assign m.distinct k v⟩

def erase (m : OrderedMap κ ν same) (k : κ) : OrderedMap κ ν same :=
  ⟨m.entries.filter fun x => !same x.1 k, m.distinct.filter _⟩

@[simp] theorem entries_set (m : OrderedMap κ ν same) (k : κ) (v : ν) :
    (m.set k v).entries = assign same k v m.entries := rfl

@[simp] theorem entries_erase (m : OrderedMap κ ν same) (k : κ) :
    (m.erase k).entries = m.entries.filter fun x => !same x.1 k := rfl

theorem find_eq_none : m.find k = none ↔ ∀ x ∈ m.entries, same x.1 k = false := by
  simp [find]

section Equivalence

variable (hs : Equivalence fun a b : κ => same a b = true)

include hs

theorem same_congr (h : same k k' = true) (a : κ) : same a k = same a k' := by
  rw [Bool.eq_iff_iff]
  exact ⟨fun ha => hs.trans ha h, fun ha => hs.trans ha (hs.symm h)⟩

theorem find?_assign (l : List (κ × ν)) (k k' : κ) (v : ν) :
    ((assign same k v l).find? fun x => same x.1 k').map Prod.snd =
      if same k k' then some v else (l.find? fun x => same x.1 k').map Prod.snd := by
  induction l with
  | nil => by_cases h : same k k' <;> simp [assign, h]
  | cons x l ih =>
    rw [assign]
    split_ifs with hx hk hk
    · have hxk : same x.1 k' = true := hs.trans hx hk
      simp [hxk]
    · have hxk : same x.1 k' = false := by
        by_contra hxk
        exact hk (hs.trans (hs.symm hx) (by simpa using hxk))
      simp [hxk]
    · have hxk : same x.1 k' = false := by
        rw [← same_congr hs hk]
        simpa using hx
      rw [if_pos hk] at ih
      simpa [List.find?_cons, hxk] using ih
    · rw [if_neg hk] at ih
      rw [List.find?_cons, List.find?_cons]
      cases same x.1 k' <;> simp [ih]

/-- The key finds what it was set to, and other keys what they found before. -/
theorem find_set (m : OrderedMap κ ν same) (k k' : κ) (v : ν) :
    (m.set k v).find k' = if same k k' then some v else m.find k' := find?_assign hs m.entries k k' v

theorem find_erase (m : OrderedMap κ ν same) (k k' : κ) :
    (m.erase k).find k' = if same k k' then none else m.find k' := by
  rw [find, erase, List.find?_filter]
  split_ifs with hk
  · rw [Option.map_eq_none_iff, List.find?_eq_none]
    intro x _
    simp [same_congr hs hk]
  · have hsame : ∀ x : κ × ν, ((!same x.1 k) = true ∧ same x.1 k' = true) ↔ same x.1 k' = true := fun x => by
      refine and_iff_right_of_imp fun hxk => ?_
      by_contra h
      exact hk (hs.trans (hs.symm (by simpa using h)) hxk)
    simp only [hsame, find, Bool.decide_eq_true]

end Equivalence

/-! ### Maps to lists -/

variable {α : Type} [DecidableEq κ]

/-- With equality for the test the entries are a keylist. -/
theorem assign_eq_set (l : Keylist κ α) (k : κ) (v : List α) :
    assign (fun a b => decide (a = b)) k v l = l.set k v := by
  induction l with
  | nil => rfl
  | cons x l ih =>
    rw [assign, Keylist.set]
    by_cases h : x.1 = k
    · simp [h]
    · simp [h, ih]

theorem filter_eq_delete (l : Keylist κ α) (h : l.keys.Nodup) (k : κ) :
    l.filter (fun x => !decide (x.1 = k)) = l.delete k := by
  induction l with
  | nil => rfl
  | cons x l ih =>
    obtain ⟨hx, hl⟩ := List.nodup_cons.mp h
    rw [Keylist.delete]
    by_cases he : x.1 = k
    · have hkeep : l.filter (fun x => !decide (x.1 = k)) = l := List.filter_eq_self.mpr fun y hy => by
        have hne : y.1 ≠ k := fun hyk => hx (List.mem_map.mpr ⟨y, hy, hyk.trans he.symm⟩)
        simp [hne]
      simp [he, hkeep]
    · simp [he, ih hl]

end OrderedMap

end EagleMQ
