import EagleMQ.LinkedKeylist
import EagleMQ.Lib.Run

/-! The keylist as a finite map in the order of insertion. Each operation on the nodes
does what it should to the map, and a loop that deletes the nodes it is given meets
every node that was there when it started. -/

namespace EagleMQ

namespace LinkedKeylist

open Chain

variable {κ ν : Type} [DecidableEq κ]

/-- The nodes of the keylist hold the entries of the map, in their order. -/
structure Represents (l : LinkedKeylist κ ν) (f : Option (κ → κ → Bool)) (m : OrderedMap κ ν (same f))
    (c : List (Ptr × κ × ν)) : Prop where
  isMatch : l.isMatch = f
  linked : Linked l c
  entries : c.map Prod.snd = m.entries

section Represents

variable {l : LinkedKeylist κ ν} {f : Option (κ → κ → Bool)} {m : OrderedMap κ ν (same f)}
  {c a b : List (Ptr × κ × ν)} {n : Ptr} {k key : κ} {v : ν}

theorem represents_create : Represents ((create : LinkedKeylist κ ν).setMatchMethod f) f .empty [] :=
  ⟨rfl, linked_create f, rfl⟩

/-- A comparison that is an equivalence, or none. -/
theorem same_equivalence (hf : ∀ g, f = some g → Equivalence fun a b => g a b = true) :
    Equivalence fun a b : κ => same f a b = true := by
  cases f with
  | some g => exact hf g rfl
  | none =>
    simp only [same, Option.getD_none, decide_eq_true_eq]
    exact eq_equivalence

theorem Represents.find (h : Represents l f m c) (key : κ) :
    m.find key = (c.find? fun x => same f x.2.1 key).map fun x => x.2.2 := by
  rw [OrderedMap.find, ← h.entries, List.find?_map, Option.map_map]
  rfl

theorem Represents.getValue (h : Represents l f m c) (key : κ) :
    m.find key = none ∧ l.getValue key = .ok none ∨
      ∃ n k v, (n, k, v) ∈ c ∧ same f k key = true ∧ m.find key = some v ∧ l.getValue key = .ok (some n) := by
  rw [h.find, getValue_spec h.linked, h.isMatch]
  cases hc : c.find? fun x => same f x.2.1 key with
  | none => exact .inl ⟨rfl, rfl⟩
  | some x =>
    have hsame := List.find?_some hc
    exact .inr ⟨x.1, x.2.1, x.2.2, List.mem_of_find?_eq_some hc, hsame, rfl, rfl⟩

/-- A new key is behind all others. -/
theorem Represents.setValue_new (h : Represents l f m c) (hfree : m.find key = none) (value : ν) :
    ∃ l', l.setValue key value = .ok l' ∧
    Represents l' f (m.set key value) (c ++ [(l.fresh, key, value)]) := by
  have hfree' := OrderedMap.find_eq_none.mp hfree
  have hlist : ∀ x ∈ c, same l.isMatch x.2.1 key = false := fun x hx =>
    h.isMatch ▸ hfree' x.2 (h.entries ▸ List.mem_map_of_mem hx)
  obtain ⟨l', hset, hmatch, hlinked⟩ := LinkedKeylist.setValue_new h.linked hlist value
  refine ⟨l', hset, hmatch.trans h.isMatch, hlinked, ?_⟩
  rw [OrderedMap.entries_set, OrderedMap.assign_of_free hfree', List.map_append, h.entries]
  rfl

/-- A key that is there keeps its node. -/
theorem Represents.setValue_found (h : Represents l f m c) (hfound : m.find key ≠ none) (value : ν) :
    ∃ l' c', l.setValue key value = .ok l' ∧ Represents l' f (m.set key value) c' ∧ addrs c' = addrs c := by
  have hmatch := h.isMatch
  obtain ⟨x, hx⟩ : ∃ x, c.find? (fun x => same f x.2.1 key) = some x := by
    rw [h.find] at hfound
    exact Option.ne_none_iff_exists'.mp fun hc => hfound (by rw [hc]; rfl)
  obtain ⟨hk, a, b, rfl, ha⟩ := List.find?_eq_some_iff_append.mp hx
  have ha' : ∀ y ∈ a, same f y.2.1 key = false := fun y hy => by simpa using ha y hy
  obtain ⟨l', hset, hmatch', hlinked⟩ :=
    LinkedKeylist.setValue_found h.linked (hmatch.symm ▸ ha') (hmatch.symm ▸ hk) value
  refine ⟨l', _, hset, ⟨hmatch'.trans hmatch, hlinked, ?_⟩, by simp⟩
  rw [OrderedMap.entries_set, ← h.entries]
  simp only [List.map_append, List.map_cons]
  rw [OrderedMap.assign_append (fun y hy => ?_), OrderedMap.assign, if_pos hk]
  obtain ⟨z, hz, rfl⟩ := List.mem_map.mp hy
  exact ha' z hz

theorem Represents.deleteNode (hs : Equivalence fun a b : κ => same f a b = true)
    (h : Represents l f m (a ++ (n, k, v) :: b)) :
    ∃ l', l.deleteNode n = .ok ((k, v), l') ∧ Represents l' f (m.erase k) (a ++ b) := by
  obtain ⟨l', hdelete, hmatch, -, hlinked⟩ := deleteNode_spec h.linked
  refine ⟨l', hdelete, hmatch.trans h.isMatch, hlinked, ?_⟩
  have hd := h.linked.distinct
  rw [h.isMatch] at hd
  simp only [List.map_append, List.map_cons, List.pairwise_append, List.pairwise_cons, List.mem_cons,
    forall_eq_or_imp] at hd
  obtain ⟨-, ⟨hb, -⟩, ha⟩ := hd
  have hkeep : ∀ x ∈ a.map Prod.snd ++ b.map Prod.snd, (!same f x.1 k) = true := fun x hx => by
    rw [Bool.not_eq_true']
    rcases List.mem_append.mp hx with hx | hx
    · exact (ha x hx).1
    · by_contra hne
      exact absurd (hs.symm (by simpa using hne)) (by simp [hb x hx])
  have hself : (!same f k k) = false := by simpa using hs.refl k
  rw [OrderedMap.entries_erase, ← h.entries]
  simp only [List.map_append, List.map_cons, List.filter_append, List.filter_cons, hself,
    Bool.false_eq_true, if_false]
  rw [← List.filter_append, List.filter_eq_self.mpr hkeep]

/-! ### Keylists of lists

Where the keys are compared by what they are, the entries are what the other modules
work on. -/

variable {α : Type} {m : OrderedMap κ (List α) (same f)} {l : LinkedKeylist κ (List α)}
  {c a b : List (Ptr × κ × List α)} {v : List α}

theorem Represents.setValue_keylist (hf : same f = fun a b => decide (a = b))
    (h : Represents l f m c) (key : κ)
    (value : List α) : ∃ l' m' c', l.setValue key value = .ok l' ∧ Represents l' f m' c' ∧
      c'.map Prod.snd = Keylist.set (c.map Prod.snd) key value := by
  have hset : OrderedMap.assign (same f) key value m.entries = Keylist.set (c.map Prod.snd) key value := by
    rw [← h.entries, hf, OrderedMap.assign_eq_set]
  by_cases hfree : m.find key = none
  · obtain ⟨l', hl', hnew⟩ := h.setValue_new hfree value
    exact ⟨l', _, _, hl', hnew, hnew.entries.trans hset⟩
  · obtain ⟨l', c', hl', hnew, -⟩ := h.setValue_found hfree value
    exact ⟨l', _, _, hl', hnew, hnew.entries.trans hset⟩

theorem Represents.deleteNode_keylist (hf : same f = fun a b => decide (a = b))
    (h : Represents l f m (a ++ (n, k, v) :: b)) : ∃ l' m' c', l.deleteNode n = .ok ((k, v), l') ∧
      Represents l' f m' c' ∧ c'.map Prod.snd = Keylist.delete ((a ++ (n, k, v) :: b).map Prod.snd) k := by
  have hs : Equivalence fun a b : κ => same f a b = true := by
    simp only [hf, decide_eq_true_eq]
    exact eq_equivalence
  obtain ⟨l', hdelete, hrest⟩ := h.deleteNode hs
  refine ⟨l', _, _, hdelete, hrest, ?_⟩
  rw [hrest.entries, OrderedMap.entries_erase, ← h.entries, hf]
  refine OrderedMap.filter_eq_delete _ ?_ k
  have hd := h.linked.distinct
  rw [h.isMatch, hf] at hd
  exact List.pairwise_map.mpr (hd.imp fun hne => by simpa using hne)

end Represents

/-! ### Runs -/

inductive Op (κ ν : Type) where
  | setValue (key : κ) (value : ν)
  | getValue (key : κ)
  | deleteNode (n : Ptr)

/-- A node that is deleted is one of the keylist. -/
def Op.Allowed (s : LinkedKeylist κ ν × (κ → Option ν)) : Op κ ν → Prop
  | .deleteNode n => s.1.nodes n ≠ none
  | _ => True

/-- What the keys lead to once a key, and those that match it, lead to `value`. -/
def assigned (f : Option (κ → κ → Bool)) (m : κ → Option ν) (key : κ) (value : Option ν) : κ → Option ν :=
  fun k => if same f key k then value else m k

/-- An operation on the keylist, and what the keys should lead to after it. -/
def Op.next (f : Option (κ → κ → Bool)) (s : LinkedKeylist κ ν × (κ → Option ν)) :
    Op κ ν → Except Fault (LinkedKeylist κ ν × (κ → Option ν))
  | .setValue key value => do
    let l ← s.1.setValue key value
    .ok (l, assigned f s.2 key (some value))
  | .getValue key => do
    let _ ← s.1.getValue key
    .ok s
  | .deleteNode n => do
    let (x, l) ← s.1.deleteNode n
    .ok (l, assigned f s.2 x.1 none)

section Runs

variable {f : Option (κ → κ → Bool)} {s t : LinkedKeylist κ ν × (κ → Option ν)} {op : Op κ ν}

/-- An operation returns, and the keylist goes on to represent a map. -/
theorem op_next (hs : Equivalence fun a b : κ => same f a b = true) {m : OrderedMap κ ν (same f)}
    {c : List (Ptr × κ × ν)} (h : Represents s.1 f m c) (hm : m.find = s.2) (hop : op.Allowed s) :
    ∃ t, op.next f s = .ok t ∧ ∃ m' c', Represents t.1 f m' c' ∧ m'.find = t.2 := by
  cases op with
  | setValue key value =>
    have hfind : (m.set key value).find = assigned f s.2 key (some value) := by
      funext k
      rw [OrderedMap.find_set hs, hm, assigned]
    by_cases hfree : m.find key = none
    · obtain ⟨l', hset, hnew⟩ := h.setValue_new hfree value
      refine ⟨(l', assigned f s.2 key (some value)), ?_, _, _, hnew, hfind⟩
      simp only [Op.next, hset, bind, Except.bind]
    · obtain ⟨l', c', hset, hnew, -⟩ := h.setValue_found hfree value
      refine ⟨(l', assigned f s.2 key (some value)), ?_, _, _, hnew, hfind⟩
      simp only [Op.next, hset, bind, Except.bind]
  | getValue key =>
    refine ⟨s, ?_, m, c, h, hm⟩
    rcases h.getValue key with ⟨-, hget⟩ | ⟨_, _, _, -, -, -, hget⟩ <;>
      simp only [Op.next, hget, bind, Except.bind]
  | deleteNode n =>
    obtain ⟨nd, hnd⟩ := Option.ne_none_iff_exists'.mp hop
    obtain ⟨a, b, rfl⟩ := h.linked.whole.split hnd
    obtain ⟨l', hdelete, hrest⟩ := h.deleteNode hs
    have hfind : (m.erase nd.value.1).find = assigned f s.2 nd.value.1 none := by
      funext k
      rw [OrderedMap.find_erase hs, hm, assigned]
    refine ⟨(l', assigned f s.2 nd.value.1 none), ?_, _, _, hrest, hfind⟩
    simp only [Op.next, hdelete, bind, Except.bind]

/-- In a run every keylist represents the map of the keys set and not deleted since. -/
theorem represents_of_run (hs : Equivalence fun a b : κ => same f a b = true)
    (h : Run Op.Allowed (Op.next f) (create.setMatchMethod f, fun _ => none) s) :
    ∃ (m : OrderedMap κ ν (same f)) (c : _), Represents s.1 f m c ∧ m.find = s.2 := by
  refine h.invariant (fun s => ∃ (m : OrderedMap κ ν (same f)) (c : _), Represents s.1 f m c ∧ m.find = s.2)
    ⟨.empty, [], represents_create, rfl⟩ fun s op t ⟨m, c, hrep, hm⟩ hop ht => ?_
  obtain ⟨t', ht', hnext⟩ := op_next hs hrep hm hop
  obtain rfl := Except.ok.inj (ht.symm.trans ht')
  exact hnext

/-- The keylist, with its nodes in the order of `c`, is the finite map `m`. -/
structure Refines (l : LinkedKeylist κ ν) (f : Option (κ → κ → Bool)) (m : κ → Option ν)
    (c : List (Ptr × κ × ν)) : Prop where
  next : Path l.nodes Node.next l.head c
  prev : Path l.nodes Node.prev l.tail c.reverse
  nodup : (addrs c).Nodup
  len : l.len = c.length
  distinct : c.Pairwise fun x y => same f x.2.1 y.2.1 = false
  found : ∀ key, m key = none ∧ l.getValue key = .ok none ∨
    ∃ n k v, (n, k, v) ∈ c ∧ same f k key = true ∧ m key = some v ∧ l.getValue key = .ok (some n)
  added : ∀ key value, m key = none → ∃ l' n, l.setValue key value = .ok l' ∧ l'.tail = some n ∧
    Path l'.nodes Node.next l'.head (c ++ [(n, key, value)])
  kept : ∀ key value, m key ≠ none → ∃ l' c', l.setValue key value = .ok l' ∧
    Path l'.nodes Node.next l'.head c' ∧ addrs c' = addrs c
  deleted : ∀ a n k v b, c = a ++ (n, k, v) :: b → ∃ l', l.deleteNode n = .ok ((k, v), l') ∧
    Path l'.nodes Node.next l'.head (a ++ b)
  visited : ∀ drop, ∃ l', ∀ fuel, c.length < fuel → iterate drop fuel l l.rewind = .ok (addrs c, l')

/-- In every run the keylist is the finite map of what was set and not deleted, in the
order of insertion, and a loop that deletes what it meets meets every node once. -/
theorem keylist_refines (hf : ∀ g, f = some g → Equivalence fun a b => g a b = true)
    (h : Run Op.Allowed (Op.next f) (create.setMatchMethod f, fun _ => none) s) :
    ∃ c, Refines s.1 f s.2 c := by
  have hs := same_equivalence hf
  obtain ⟨m, c, hrep, hm⟩ := represents_of_run hs h
  have hlinked := hrep.linked
  have hwhole := hlinked.whole
  refine ⟨c, hwhole.next, hwhole.prev, hwhole.nodup, hlinked.len, ?_, ?_, fun key value hfree => ?_,
    fun key value hfound => ?_, ?_, fun drop => ?_⟩
  · exact hrep.isMatch ▸ List.pairwise_map.mp hlinked.distinct
  · exact hm ▸ hrep.getValue
  · obtain ⟨l', hset, hnew⟩ := hrep.setValue_new (hm ▸ hfree) value
    refine ⟨l', s.1.fresh, hset, ?_, hnew.linked.whole.next⟩
    rw [hnew.linked.whole.tail]
    simp [last]
  · obtain ⟨l', c', hset, hnew, haddrs⟩ := hrep.setValue_found (hm ▸ hfound) value
    exact ⟨l', c', hset, hnew.linked.whole.next, haddrs⟩
  · rintro a n k v b rfl
    obtain ⟨l', hdelete, hrest⟩ := hrep.deleteNode hs
    exact ⟨l', hdelete, hrest.linked.whole.next⟩
  · obtain ⟨l', _, hiterate, -⟩ := iterate_spec drop c [] s.1 hlinked
    rw [rewind, hwhole.head]
    exact ⟨l', hiterate⟩

end Runs

/-- The match method of the routes' keys: the texts behind two pointers are equal. -/
def sameText (a b : Ptr × List Byte) : Bool := a.2 == b.2

/-- Two keys are set, the first of them again from another pointer, and the second is
deleted. -/
theorem keylist_refines_replaced : ∃ s : LinkedKeylist (Ptr × List Byte) ℕ × (Ptr × List Byte → Option ℕ),
    Run Op.Allowed (Op.next (some sameText)) (create.setMatchMethod (some sameText), fun _ => none) s ∧
      s.1.len = 1 ∧ s.2 (20, [107]) = some 7 ∧ ∃ c, Refines s.1 (some sameText) s.2 c := by
  have hset : Run Op.Allowed (Op.next (some sameText))
      ((create : LinkedKeylist (Ptr × List Byte) ℕ).setMatchMethod (some sameText), fun _ => none) _ :=
    .step (.setValue (12, [107]) 7)
      (.step (.setValue (11, [108]) 6) (.step (.setValue (10, [107]) 5) .refl trivial rfl)
      trivial rfl) trivial rfl
  have hrun := hset.trans (.single (.deleteNode 1) (Option.some_ne_none _) rfl)
  have hsame : Equivalence fun a b => sameText a b = true := by
    simp only [sameText, beq_iff_eq]
    exact eq_equivalence.comap Prod.snd
  refine ⟨_, hrun, rfl, rfl, keylist_refines (fun g hg => ?_) hrun⟩
  obtain rfl := Option.some.inj hg
  exact hsame

end LinkedKeylist

end EagleMQ
