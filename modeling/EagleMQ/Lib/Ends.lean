import EagleMQ.Lib.Chain

/-! Doubly linked lists as a whole: a chain with both of its ends, and no other node
in the heap. A node is linked behind the last one, taken out anywhere, given another
value, or moved from the end to the front; the links of both directions lead through
the same nodes. -/

namespace EagleMQ

namespace Chain

variable {α : Type} {nodes : Heap (Node α)} {head tail p e : Option ℕ} {l a b : List (ℕ × α)}
    {n : ℕ} {v w : α}

/-- The nodes are those of the list, and the links at its ends are null. -/
structure Whole (nodes : Heap (Node α)) (head tail : Option ℕ) (l : List (ℕ × α)) : Prop where
  seg : Seg nodes none l none
  nodup : (addrs l).Nodup
  head : head = first l none
  tail : tail = last none l
  live : ∀ n, nodes n ≠ none → n ∈ addrs l

/-- The links of one direction lead from a pointer through the nodes to null. -/
def Path (nodes : Heap (Node α)) (link : Node α → Option ℕ) : Option ℕ → List (ℕ × α) → Prop
  | p, [] => p = none
  | p, (n, v) :: l => p = some n ∧ ∃ nd, nodes n = some nd ∧ nd.value = v ∧ Path nodes link (link nd) l

theorem path_next (h : Seg nodes p l none) : Path nodes Node.next (first l none) l := by
  induction l generalizing p with
  | nil => rfl
  | cons x l ih => exact ⟨rfl, _, h.1, rfl, ih h.2⟩

theorem path_prev (h : Seg nodes none l e) : Path nodes Node.prev (last none l) l.reverse := by
  induction l using List.reverseRecOn generalizing e with
  | nil => rfl
  | append_singleton l x ih =>
    obtain ⟨hl, hx, -⟩ := seg_append.mp h
    rw [List.reverse_append, last_append]
    exact ⟨rfl, _, hx, rfl, ih hl⟩

theorem first_mem (h : first l none = some n) : n ∈ addrs l := by
  cases l with
  | nil => cases h
  | cons x l =>
    obtain rfl := Option.some.inj h
    exact .head _

theorem last_none_mem (h : last none l = some n) : n ∈ addrs l := by
  rcases last_mem h with rfl | hn
  · cases h
  · exact hn

theorem not_mem_of_nodup (h : (addrs (a ++ (n, v) :: b)).Nodup) : n ∉ addrs a ∧ n ∉ addrs b := by
  rw [addrs_append, addrs_cons] at h
  obtain ⟨-, hb, hab⟩ := List.nodup_append.mp h
  exact ⟨fun hn => hab n hn n (.head _) rfl, (List.nodup_cons.mp hb).1⟩

theorem whole_empty : Whole (fun _ => none : Heap (Node α)) none none [] :=
  ⟨trivial, List.nodup_nil, rfl, rfl, fun _ h => absurd rfl h⟩

namespace Whole

theorem next (h : Whole nodes head tail l) : Path nodes Node.next head l := h.head ▸ path_next h.seg

theorem prev (h : Whole nodes head tail l) : Path nodes Node.prev tail l.reverse := h.tail ▸ path_prev h.seg

theorem node (h : Whole nodes head tail (a ++ (n, v) :: b)) :
    nodes n = some ⟨last none a, first b none, v⟩ := (seg_append.mp h.seg).2.1

theorem alive (h : Whole nodes head tail l) : nodes n ≠ none ↔ n ∈ addrs l := by
  refine ⟨h.live n, fun hn => ?_⟩
  obtain ⟨x, hx, rfl⟩ := List.mem_map.mp hn
  obtain ⟨_, _, hnode⟩ := h.seg.alive hx
  simp [hnode]

/-- A node of the heap is somewhere in the list. -/
theorem split (h : Whole nodes head tail l) {nd : Node α} (hn : nodes n = some nd) :
    ∃ a b, l = a ++ (n, nd.value) :: b := by
  obtain ⟨⟨m, v⟩, hm, rfl⟩ := List.mem_map.mp (h.live n (by simp [hn]))
  obtain ⟨a, b, rfl⟩ := List.append_of_mem hm
  refine ⟨a, b, ?_⟩
  rw [Option.some.inj (hn.symm.trans h.node)]

/-- A new node behind the last one. -/
theorem push (h : Whole nodes head tail l) (hn : nodes n = none) (v : α) :
    Whole (Function.update (setNext nodes tail (some n)) n (some ⟨tail, none, v⟩))
      (if l = [] then some n else head) (some n) (l ++ [(n, v)]) := by
  have hnl : n ∉ addrs l := fun hm => h.alive.mpr hm hn
  refine ⟨?_, ?_, ?_, by simp [last], fun m hm => ?_⟩
  · rw [seg_append]
    refine ⟨?_, ?_, trivial⟩
    · rw [h.tail]
      exact (h.seg.setNext_last h.nodup (some n)).update hnl _
    · rw [Function.update_self, h.tail]
      rfl
  · rw [addrs_append]
    refine List.nodup_append.mpr ⟨h.nodup, by simp, fun x hx y hy hxy => hnl ?_⟩
    obtain rfl : y = n := List.mem_singleton.mp hy
    exact hxy ▸ hx
  · rw [first_append]
    split_ifs with hl
    · rw [hl]
      rfl
    · rw [h.head]
      exact first_of_ne_nil hl _ _
  · rw [addrs_append]
    by_cases hmn : m = n
    · simp [hmn]
    · rw [Function.update_of_ne hmn, ← Option.isSome_iff_ne_none, setNext_isSome,
        Option.isSome_iff_ne_none] at hm
      exact List.mem_append_left _ (h.live m hm)

/-- A node is taken out of the list. -/
theorem unlink (h : Whole nodes head tail (a ++ (n, v) :: b)) :
    Whole (Function.update (setPrev (setNext nodes (last none a) (first b none)) (first b none)
      (last none a)) n none)
      (if last none a = none then first b none else head) (if first b none = none then last none a else tail)
      (a ++ b) := by
  refine ⟨h.seg.unlink h.nodup, ?_, ?_, ?_, fun m hm => ?_⟩
  · have hnodup := h.nodup
    simp only [addrs_append, addrs_cons, List.nodup_append, List.nodup_cons] at hnodup ⊢
    exact ⟨hnodup.1, hnodup.2.1.2, fun x hx y hy => hnodup.2.2 x hx y (by simp [hy])⟩
  · rw [first_append]
    obtain rfl | hne := eq_or_ne a []
    · rfl
    · rw [if_neg (by rwa [last_eq_none]), h.head, first_append]
      exact first_of_ne_nil hne _ _
  · rw [last_append]
    obtain rfl | hne := eq_or_ne b []
    · rfl
    · rw [if_neg (by rwa [first_eq_none]), h.tail, last_append]
      exact last_of_ne_nil hne _ _
  · have hmn : m ≠ n := fun he => hm (by rw [he, Function.update_self])
    rw [Function.update_of_ne hmn, ← Option.isSome_iff_ne_none, setPrev_isSome, setNext_isSome,
      Option.isSome_iff_ne_none] at hm
    simpa [hmn] using h.live m hm

/-- A node is given another value. -/
theorem replace (h : Whole nodes head tail (a ++ (n, v) :: b)) (w : α) :
    Whole (Function.update nodes n (some ⟨last none a, first b none, w⟩)) head tail (a ++ (n, w) :: b) := by
  obtain ⟨hna, hnb⟩ := not_mem_of_nodup h.nodup
  obtain ⟨ha, -, hb⟩ := seg_append.mp h.seg
  have haddrs : addrs (a ++ (n, w) :: b) = addrs (a ++ (n, v) :: b) := by simp
  refine ⟨?_, haddrs ▸ h.nodup, ?_, ?_, fun m hm => ?_⟩
  · rw [seg_append]
    exact ⟨ha.update hna _, Function.update_self .., hb.update hnb _⟩
  · rw [h.head, first_append, first_append]
    rfl
  · rw [h.tail, last_append, last_append]
    rfl
  · rw [haddrs]
    by_cases hmn : m = n
    · simp [hmn]
    · rw [Function.update_of_ne hmn] at hm
      exact h.live m hm

/-- The last node comes to the front of the others. -/
theorem rotate (h : Whole nodes head tail (a ++ [(n, v)])) :
    Whole (Function.update (setPrev (setNext nodes (last none a) none) (first a none) (some n)) n
        (some ⟨none, first a none, v⟩))
      (some n) (if a = [] then some n else last none a) ((n, v) :: a) := by
  obtain ⟨hna, -⟩ := not_mem_of_nodup h.nodup
  have hnodup := h.nodup
  rw [addrs_append] at hnodup
  refine ⟨⟨Function.update_self .., ?_⟩, ?_, rfl, ?_, fun m hm => ?_⟩
  · refine Seg.update ?_ hna _
    exact ((seg_append.mp h.seg).1.setNext_last (List.nodup_append.mp hnodup).1 none).setPrev_first
      (List.nodup_append.mp hnodup).1 (some n)
  · exact List.nodup_cons.mpr ⟨hna, (List.nodup_append.mp hnodup).1⟩
  · split_ifs with ha
    · rw [ha]
      rfl
    · exact last_of_ne_nil ha _ _
  · by_cases hmn : m = n
    · simp [hmn]
    · rw [Function.update_of_ne hmn, ← Option.isSome_iff_ne_none, setPrev_isSome, setNext_isSome,
        Option.isSome_iff_ne_none] at hm
      simpa [hmn] using h.live m hm

end Whole

end Chain

end EagleMQ
