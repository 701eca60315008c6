import EagleMQ.Lib.Heap

/-! Doubly linked segments in a heap of nodes. A segment is the list of its
addresses and values in the order of the `next` links; `p` is what the first
node's `prev` link holds and `e` what the last node's `next` link holds. -/

namespace EagleMQ

structure Node (α : Type) where
  prev : Option ℕ
  next : Option ℕ
  value : α

namespace Chain

variable {α : Type} {nodes : Heap (Node α)} {p e : Option ℕ} {l a b : List (ℕ × α)} {n : ℕ} {v : α}

/-- The first address of a segment, or what comes after it. -/
def first (l : List (ℕ × α)) (e : Option ℕ) : Option ℕ :=
  match l with
  | [] => e
  | (n, _) :: _ => some n

/-- The last address of a segment, or what comes before it. -/
def last (p : Option ℕ) (l : List (ℕ × α)) : Option ℕ :=
  match l with
  | [] => p
  | (n, _) :: l => last (some n) l

def Seg (nodes : Heap (Node α)) (p : Option ℕ) (l : List (ℕ × α)) (e : Option ℕ) : Prop :=
  match l with
  | [] => True
  | (n, v) :: l => nodes n = some ⟨p, first l e, v⟩ ∧ Seg nodes (some n) l e

def addrs (l : List (ℕ × α)) : List ℕ := l.map Prod.fst

@[simp] theorem addrs_append (a b : List (ℕ × α)) : addrs (a ++ b) = addrs a ++ addrs b := by
  simp [addrs]

@[simp] theorem addrs_cons (x : ℕ × α) (l : List (ℕ × α)) : addrs (x :: l) = x.1 :: addrs l := rfl

@[simp] theorem addrs_nil : addrs ([] : List (ℕ × α)) = [] := rfl

@[simp] theorem first_append (a b : List (ℕ × α)) (e : Option ℕ) :
    first (a ++ b) e = first a (first b e) := by
  cases a <;> rfl

@[simp] theorem last_append (p : Option ℕ) (a b : List (ℕ × α)) :
    last p (a ++ b) = last (last p a) b := by
  induction a generalizing p with
  | nil => rfl
  | cons x a ih => exact ih (some x.1)

theorem last_mem {m : ℕ} (h : last p l = some m) : l = [] ∨ m ∈ addrs l := by
  induction l generalizing p with
  | nil => exact .inl rfl
  | cons x l ih =>
    refine .inr ?_
    rcases ih (p := some x.1) h with rfl | h'
    · obtain rfl : x.1 = m := Option.some.inj h
      simp
    · simp [h']

theorem first_of_ne_nil (h : l ≠ []) (e e' : Option ℕ) : first l e = first l e' := by
  cases l with
  | nil => exact absurd rfl h
  | cons x l => rfl

theorem last_of_ne_nil (h : l ≠ []) (p p' : Option ℕ) : last p l = last p' l := by
  cases l with
  | nil => exact absurd rfl h
  | cons x l => rfl

theorem first_eq_none : first l none = none ↔ l = [] := by
  cases l <;> simp [first]

theorem last_eq_none : last none l = none ↔ l = [] := by
  obtain rfl | ⟨l, x, rfl⟩ := l.eq_nil_or_concat'
  · simp [last]
  · simp [last]

theorem seg_append : Seg nodes p (a ++ b) e ↔ Seg nodes p a (first b e) ∧ Seg nodes (last p a) b e := by
  induction a generalizing p with
  | nil => simp [Seg, last]
  | cons x a ih => simp only [List.cons_append, Seg, first_append, ih, last, and_assoc]

theorem Seg.alive (h : Seg nodes p l e) {x : ℕ × α} (hx : x ∈ l) :
    ∃ q r, nodes x.1 = some ⟨q, r, x.2⟩ := by
  induction l generalizing p with
  | nil => simp at hx
  | cons y l ih =>
    rcases List.mem_cons.mp hx with rfl | hx
    · exact ⟨_, _, h.1⟩
    · exact ih h.2 hx

/-- Nodes outside the segment do not matter. -/
theorem Seg.update (h : Seg nodes p l e) (hn : n ∉ addrs l) (x : Option (Node α)) :
    Seg (Function.update nodes n x) p l e := by
  induction l generalizing p with
  | nil => trivial
  | cons y l ih =>
    simp only [addrs_cons, List.mem_cons, not_or] at hn
    exact ⟨by rw [Function.update_of_ne (Ne.symm hn.1)]; exact h.1, ih h.2 hn.2⟩

/-- The `prev` link of the first node is rewritten. -/
theorem Seg.relink_first (h : Seg nodes p ((n, v) :: l) e) (hn : n ∉ addrs l) (q : Option ℕ) :
    Seg (Function.update nodes n (some ⟨q, first l e, v⟩)) q ((n, v) :: l) e :=
  ⟨Function.update_self .., h.2.update hn _⟩

/-- The `next` link of the last node is rewritten. -/
theorem Seg.relink_last (h : Seg nodes p (l ++ [(n, v)]) e) (hn : n ∉ addrs l) (q : Option ℕ) :
    Seg (Function.update nodes n (some ⟨last p l, q, v⟩)) p (l ++ [(n, v)]) q := by
  rw [seg_append] at h ⊢
  exact ⟨h.1.update hn _, Function.update_self .., trivial⟩

/-! ### Rewriting a link -/

/-- Rewrite the `next` link of a node, if there is one. -/
def setNext (nodes : Heap (Node α)) (m x : Option ℕ) : Heap (Node α) :=
  match m with
  | none => nodes
  | some m => Function.update nodes m ((nodes m).map fun nd => { nd with next := x })

/-- Rewrite the `prev` link of a node, if there is one. -/
def setPrev (nodes : Heap (Node α)) (m x : Option ℕ) : Heap (Node α) :=
  match m with
  | none => nodes
  | some m => Function.update nodes m ((nodes m).map fun nd => { nd with prev := x })

theorem setNext_of_ne {m x : Option ℕ} (h : m ≠ some n) : setNext nodes m x n = nodes n := by
  cases m with
  | none => rfl
  | some m => exact Function.update_of_ne (fun hn => h (by rw [hn])) ..

theorem setPrev_of_ne {m x : Option ℕ} (h : m ≠ some n) : setPrev nodes m x n = nodes n := by
  cases m with
  | none => rfl
  | some m => exact Function.update_of_ne (fun hn => h (by rw [hn])) ..

theorem setNext_isSome (nodes : Heap (Node α)) (m x : Option ℕ) (n : ℕ) :
    (setNext nodes m x n).isSome = (nodes n).isSome := by
  cases m with
  | none => rfl
  | some m =>
    by_cases hn : n = m
    · subst hn; simp [setNext]
    · rw [setNext_of_ne (by simpa using Ne.symm hn)]

theorem setPrev_isSome (nodes : Heap (Node α)) (m x : Option ℕ) (n : ℕ) :
    (setPrev nodes m x n).isSome = (nodes n).isSome := by
  cases m with
  | none => rfl
  | some m =>
    by_cases hn : n = m
    · subst hn; simp [setPrev]
    · rw [setPrev_of_ne (by simpa using Ne.symm hn)]

theorem Seg.setNext_of_not_mem (h : Seg nodes p l e) {m : Option ℕ} (x : Option ℕ)
    (hm : ∀ n, m = some n → n ∉ addrs l) : Seg (setNext nodes m x) p l e := by
  cases m with
  | none => exact h
  | some m => exact h.update (hm m rfl) _

theorem Seg.setPrev_of_not_mem (h : Seg nodes p l e) {m : Option ℕ} (x : Option ℕ)
    (hm : ∀ n, m = some n → n ∉ addrs l) : Seg (setPrev nodes m x) p l e := by
  cases m with
  | none => exact h
  | some m => exact h.update (hm m rfl) _

theorem Seg.setNext_last (h : Seg nodes none l e) (hl : (addrs l).Nodup) (x : Option ℕ) :
    Seg (setNext nodes (last none l) x) none l x := by
  obtain rfl | ⟨l, ⟨m, w⟩, rfl⟩ := l.eq_nil_or_concat'
  · trivial
  · have hm : nodes m = some ⟨last none l, e, w⟩ := (seg_append.mp h).2.1
    have hml : m ∉ addrs l := by
      simp only [addrs_append, addrs_cons, addrs_nil, List.nodup_append] at hl
      exact fun hm => hl.2.2 m hm m (by simp) rfl
    have := h.relink_last hml x
    simpa [setNext, last, hm] using this

theorem Seg.setPrev_first (h : Seg nodes p l e) (hl : (addrs l).Nodup) (x : Option ℕ) :
    Seg (setPrev nodes (first l none) x) x l e := by
  cases l with
  | nil => trivial
  | cons y l =>
    obtain ⟨m, w⟩ := y
    simp only [addrs_cons, List.nodup_cons] at hl
    simpa [setPrev, first, h.1] using h.relink_first hl.1 x

/-- A node is unlinked from the middle of a segment. -/
theorem Seg.unlink {b : List (ℕ × α)} (h : Seg nodes none (a ++ (n, v) :: b) e)
    (hl : (addrs (a ++ (n, v) :: b)).Nodup) :
    Seg (Function.update
        (setPrev (setNext nodes (last none a) (first b e)) (first b none) (last none a)) n none)
      none (a ++ b) e := by
  rw [seg_append] at h ⊢
  obtain ⟨ha, -, hb⟩ := h
  simp only [addrs_append, addrs_cons, List.nodup_append, List.nodup_cons] at hl
  obtain ⟨hna, ⟨hnb, hbn⟩, hab⟩ := hl
  have hn : n ∉ addrs a := fun hm => hab n hm n (by simp) rfl
  have hlast : ∀ m, last none a = some m → m ∉ addrs b := fun m hm hmb => by
    rcases last_mem hm with rfl | hma
    · simp [last] at hm
    · exact hab m hma m (by simp [hmb]) rfl
  have hfirst : ∀ m, first b none = some m → m ∉ addrs a := fun m hm hma => by
    cases b with
    | nil => simp [first] at hm
    | cons x b => exact hab m hma m (by obtain rfl := Option.some.inj hm; simp) rfl
  refine ⟨?_, ?_⟩
  · exact ((ha.setNext_last hna _).setPrev_of_not_mem _ hfirst).update hn _
  · exact ((hb.setNext_of_not_mem _ hlast).setPrev_first hbn _).update hnb _

end Chain

end EagleMQ
