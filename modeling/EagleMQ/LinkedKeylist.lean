import EagleMQ.Lib.Ends
import EagleMQ.Lib.OrderedMap
import EagleMQ.Queue

/-! The keylist node by node: a doubly linked list of keys with their values, that
compares keys by its match method, or by equality of pointers where none is set.
The free method is given the key and the value of a deleted node. -/

namespace EagleMQ

structure LinkedKeylist (κ ν : Type) where
  head : Option Ptr
  tail : Option Ptr
  /-- The match method, if one is set. -/
  isMatch : Option (κ → κ → Bool)
  len : ℕ
  nodes : Heap (Node (κ × ν))
  fresh : Ptr

namespace LinkedKeylist

variable {κ ν : Type} [DecidableEq κ]

def create : LinkedKeylist κ ν := ⟨none, none, none, 0, fun _ => none, 0⟩

/-- `EG_KEYLIST_SET_MATCH_METHOD`. -/
def setMatchMethod (l : LinkedKeylist κ ν) (f : Option (κ → κ → Bool)) : LinkedKeylist κ ν :=
  { l with isMatch := f }

/-- The comparison of the key of a node with a key. -/
def same (f : Option (κ → κ → Bool)) : κ → κ → Bool := f.getD fun a b => decide (a = b)

/-- The node that a pointer leads to. -/
def node (l : LinkedKeylist κ ν) (p : Option Ptr) : Except Fault (Ptr × Node (κ × ν)) :=
  match p with
  | none => .error .null
  | some n =>
    match l.nodes n with
    | none => .error .link
    | some nd => .ok (n, nd)

/-- An iterator holds the node that comes next. -/
abbrev Iterator := Option Ptr

def rewind (l : LinkedKeylist κ ν) : Iterator := l.head

/-- The link is followed before the node is handed out. -/
def nextNode (l : LinkedKeylist κ ν) (iter : Iterator) : Except Fault (Option Ptr × Iterator) :=
  match iter with
  | none => .ok (none, none)
  | some n => do
    let (n, nd) ← l.node (some n)
    .ok (some n, nd.next)

/-- The loop of `keylist_get_value`; links that lead through more nodes than were
ever allocated go in a circle. -/
def search (l : LinkedKeylist κ ν) (key : κ) : ℕ → Iterator → Except Fault (Option Ptr)
  | 0, _ => .error .spin
  | n + 1, iter => do
    let (current, iter) ← l.nextNode iter
    match current with
    | none => .ok none
    | some c =>
      let (c, cd) ← l.node (some c)
      if same l.isMatch cd.value.1 key then .ok (some c) else search l key n iter

def getValue (l : LinkedKeylist κ ν) (key : κ) : Except Fault (Option Ptr) :=
  l.search key (l.fresh + 1) l.rewind

/-- A key that is there keeps its node and its spelling. -/
def setValue (l : LinkedKeylist κ ν) (key : κ) (value : ν) : Except Fault (LinkedKeylist κ ν) := do
  match ← l.getValue key with
  | some n =>
    let (n, nd) ← l.node (some n)
    .ok { l with nodes := Function.update l.nodes n (some { nd with value := (nd.value.1, value) }) }
  | none =>
    if l.len = 0 then
      .ok { l with
        head := some l.fresh
        tail := some l.fresh
        nodes := Function.update l.nodes l.fresh (some ⟨none, none, key, value⟩)
        fresh := l.fresh + 1
        len := l.len + 1 }
    else
      let (t, td) ← l.node l.tail
      .ok { l with
        tail := some l.fresh
        nodes := Function.update (Function.update l.nodes t (some { td with next := some l.fresh }))
          l.fresh (some ⟨some t, none, key, value⟩)
        fresh := l.fresh + 1
        len := l.len + 1 }

def deleteNode (l : LinkedKeylist κ ν) (n : Ptr) : Except Fault ((κ × ν) × LinkedKeylist κ ν) := do
  let (_, nd) ← l.node (some n)
  let l ← match nd.prev with
    | some p => do
      let (p, pd) ← l.node (some p)
      .ok { l with nodes := Function.update l.nodes p (some { pd with next := nd.next }) }
    | none => .ok { l with head := nd.next }
  let l ← match nd.next with
    | some x => do
      let (x, xd) ← l.node (some x)
      .ok { l with nodes := Function.update l.nodes x (some { xd with prev := nd.prev }) }
    | none => .ok { l with tail := nd.prev }
  .ok (nd.value, { l with nodes := Function.update l.nodes n none, len := l.len - 1 })

/-- A loop over the nodes whose body deletes the node that it was given, or leaves
the list alone; `drop` is what the body decides. The nodes met, and the list after it. -/
def iterate (drop : LinkedKeylist κ ν → Ptr → Bool) :
    ℕ → LinkedKeylist κ ν → Iterator → Except Fault (List Ptr × LinkedKeylist κ ν)
  | 0, _, _ => .error .spin
  | n + 1, l, iter => do
    let (current, iter) ← l.nextNode iter
    match current with
    | none => .ok ([], l)
    | some c =>
      let l ← if drop l c then (do .ok (← l.deleteNode c).2) else .ok l
      let (visited, l) ← iterate drop n l iter
      .ok (c :: visited, l)

/-! ### The keylist as a chain -/

open Chain

/-- The links form the list `c` of nodes, keys and values. -/
structure Linked (l : LinkedKeylist κ ν) (c : List (Ptr × κ × ν)) : Prop where
  whole : Whole l.nodes l.head l.tail c
  len : l.len = c.length
  below : Heap.Below l.nodes l.fresh
  distinct : (c.map Prod.snd).Pairwise fun x y => same l.isMatch x.1 y.1 = false

section Linked

variable {l : LinkedKeylist κ ν} {c a b : List (Ptr × κ × ν)} {n : Ptr} {k key : κ} {v value : ν}

theorem linked_create (f : Option (κ → κ → Bool)) :
    Linked ((create : LinkedKeylist κ ν).setMatchMethod f) [] :=
  ⟨whole_empty, rfl, fun _ h => absurd rfl h, .nil⟩

omit [DecidableEq κ] in
theorem node_some {nd : Node (κ × ν)} (h : l.nodes n = some nd) : l.node (some n) = .ok (n, nd) := by
  simp [node, h]

theorem Linked.length_le (h : Linked l c) : c.length ≤ l.fresh := by
  have hsub : (addrs c).Subperm (List.range l.fresh) := List.subperm_of_subset h.whole.nodup fun n hn =>
    List.mem_range.mpr (h.below n (h.whole.alive.mpr hn))
  simpa [addrs] using hsub.length_le

theorem Linked.node (h : Linked l (a ++ (n, k, v) :: b)) :
    l.node (some n) = .ok (n, ⟨last none a, first b none, k, v⟩) := node_some h.whole.node

theorem nextNode_spec (h : Linked l (a ++ (n, k, v) :: b)) :
    l.nextNode (some n) = .ok (some n, first b none) := by
  simp [nextNode, h.node, bind, Except.bind]

/-- The search from a node on finds the first match. -/
theorem search_spec (key : κ) :
    ∀ (b a : List (Ptr × κ × ν)), Linked l (a ++ b) → ∀ fuel, b.length < fuel →
      l.search key fuel (first b none) = .ok ((b.find? fun x => same l.isMatch x.2.1 key).map Prod.fst)
  | [], _, _, fuel + 1, _ => rfl
  | (n, k, v) :: b, a, h, fuel + 1, hfuel => by
    rw [search, first, nextNode_spec h]
    simp only [bind, Except.bind, h.node, List.find?_cons]
    cases hk : same l.isMatch k key with
    | true => rfl
    | false =>
      rw [if_neg Bool.false_ne_true]
      exact search_spec key b (a ++ [(n, k, v)]) (by simpa using h) fuel (Nat.lt_of_succ_lt_succ hfuel)

theorem getValue_spec (h : Linked l c) (key : κ) :
    l.getValue key = .ok ((c.find? fun x => same l.isMatch x.2.1 key).map Prod.fst) := by
  rw [getValue, rewind, h.whole.head]
  exact search_spec key c [] h _ (Nat.lt_succ_of_le h.length_le)

/-- A key that is there is given another value. -/
theorem setValue_found (h : Linked l (a ++ (n, k, v) :: b)) (ha : ∀ x ∈ a, same l.isMatch x.2.1 key = false)
    (hk : same l.isMatch k key = true) (value : ν) :
    ∃ l', l.setValue key value = .ok l' ∧ l'.isMatch = l.isMatch ∧ Linked l' (a ++ (n, k, value) :: b) := by
  have hfind : ((a ++ (n, k, v) :: b).find? fun x => same l.isMatch x.2.1 key) = some (n, k, v) := by
    rw [List.find?_append, List.find?_eq_none.mpr fun x hx => by simp [ha x hx]]
    simp [hk]
  rw [setValue, getValue_spec h key, hfind]
  simp only [bind, Except.bind, Option.map_some, h.node]
  refine ⟨_, rfl, rfl, h.whole.replace (k, value), by simpa using h.len, ?_, ?_⟩
  · exact h.below.update (Nat.le_refl _) (h.below n (by simp [h.whole.node])) _
  · have hd := h.distinct
    simp only [List.map_append, List.map_cons, List.pairwise_append, List.pairwise_cons, List.mem_cons,
      forall_eq_or_imp] at hd ⊢
    exact hd

/-- A new key goes to the tail. -/
theorem setValue_new (h : Linked l c) (hfree : ∀ x ∈ c, same l.isMatch x.2.1 key = false) (value : ν) :
    ∃ l', l.setValue key value = .ok l' ∧ l'.isMatch = l.isMatch ∧
    Linked l' (c ++ [(l.fresh, key, value)]) := by
  have hfind : (c.find? fun x => same l.isMatch x.2.1 key) = none :=
    List.find?_eq_none.mpr fun x hx => by simp [hfree x hx]
  have hnew := h.whole.push (h.below.eq_none (Nat.le_refl _)) (key, value)
  have hdistinct : ((c ++ [(l.fresh, key, value)]).map Prod.snd).Pairwise fun x y =>
      same l.isMatch x.1 y.1 = false := by
    rw [List.map_append, List.pairwise_append]
    refine ⟨h.distinct, List.pairwise_singleton .., fun x hx y hy => ?_⟩
    obtain ⟨z, hz, rfl⟩ := List.mem_map.mp hx
    obtain rfl : y = (key, value) := by simpa using hy
    exact hfree z hz
  have hlen : l.len + 1 = (c ++ [(l.fresh, key, value)]).length := by simp [h.len]
  rw [setValue, getValue_spec h key, hfind]
  simp only [bind, Except.bind, Option.map_none]
  obtain rfl | ⟨a, ⟨t, k, v⟩, rfl⟩ := c.eq_nil_or_concat'
  · rw [if_pos (show l.len = 0 from h.len)]
    have htail : l.tail = none := h.whole.tail
    rw [htail] at hnew
    exact ⟨_, rfl, rfl, hnew, hlen, h.below.update (Nat.le_succ _) (Nat.lt_succ_self _) _, hdistinct⟩
  · have htail : l.tail = some t := by
      rw [h.whole.tail]
      simp [last]
    rw [if_neg (by simp [h.len]), htail, h.node]
    rw [htail, setNext, h.whole.node, if_neg (by simp)] at hnew
    refine ⟨_, rfl, rfl, hnew, hlen, ?_, hdistinct⟩
    exact (h.below.update (Nat.le_refl _) (h.below t (by simp [h.whole.node])) _).update (Nat.le_succ _)
      (Nat.lt_succ_self _) _

omit [DecidableEq κ] in
theorem deleteNode_eq {nd : Node (κ × ν)} (hn : l.nodes n = some nd)
    (hp : ∀ p, nd.prev = some p → (l.nodes p).isSome) (hx : ∀ x, nd.next = some x → (l.nodes x).isSome) :
    l.deleteNode n = .ok (nd.value, { l with
      head := if nd.prev = none then nd.next else l.head
      tail := if nd.next = none then nd.prev else l.tail
      nodes := Function.update (setPrev (setNext l.nodes nd.prev nd.next) nd.next nd.prev) n none
      len := l.len - 1 }) := by
  obtain ⟨prev, next, value⟩ := nd
  cases prev with
  | none =>
    cases next with
    | none => simp [deleteNode, node, hn, bind, Except.bind, setPrev, setNext]
    | some x =>
      obtain ⟨xd, hxd⟩ := Option.isSome_iff_exists.mp (hx x rfl)
      simp [deleteNode, node, hn, hxd, bind, Except.bind, setPrev, setNext]
  | some p =>
    obtain ⟨pd, hpd⟩ := Option.isSome_iff_exists.mp (hp p rfl)
    cases next with
    | none => simp [deleteNode, node, hn, hpd, bind, Except.bind, setPrev, setNext]
    | some x =>
      have hx' := setNext_isSome l.nodes (some p) (some x) x
      rw [hx x rfl] at hx'
      obtain ⟨xd, hxd⟩ := Option.isSome_iff_exists.mp hx'
      simp only [setNext, hpd, Option.map_some] at hxd
      simp [deleteNode, node, hn, hpd, hxd, bind, Except.bind, setPrev, setNext]

theorem deleteNode_spec (h : Linked l (a ++ (n, k, v) :: b)) :
    ∃ l', l.deleteNode n = .ok ((k, v), l') ∧ l'.isMatch = l.isMatch ∧ l'.fresh = l.fresh ∧
    Linked l' (a ++ b) := by
  have halive : ∀ x ∈ addrs (a ++ (n, k, v) :: b), (l.nodes x).isSome := fun x hx =>
    Option.isSome_iff_ne_none.mpr (h.whole.alive.mpr hx)
  have heq := deleteNode_eq h.whole.node
    (fun p hp => halive p (by simp [last_none_mem hp])) fun x hx => halive x (by simp [first_mem hx])
  have hunlink := h.whole.unlink
  refine ⟨_, heq, rfl, rfl, hunlink, ?_, fun m hm => ?_, ?_⟩
  · simp only [h.len, List.length_append, List.length_cons]
    omega
  · have hmem := hunlink.live m hm
    refine h.below m (h.whole.alive.mpr ?_)
    simp only [addrs_append, addrs_cons, List.mem_append, List.mem_cons] at hmem ⊢
    tauto
  · refine h.distinct.sublist (List.Sublist.map _ ?_)
    exact List.Sublist.append_left (List.sublist_cons_self ..) a

/-- The loop meets the nodes from the iterator on, whatever its body deletes. -/
theorem iterate_spec (drop : LinkedKeylist κ ν → Ptr → Bool) :
    ∀ (b a : List (Ptr × κ × ν)) (l : LinkedKeylist κ ν), Linked l (a ++ b) → ∃ l' c,
      (∀ fuel, b.length < fuel → iterate drop fuel l (first b none) = .ok (addrs b, l')) ∧
        Linked l' c ∧ c.Sublist (a ++ b)
  | [], a, l, h => by
    refine ⟨l, a ++ [], fun fuel hfuel => ?_, h, .refl _⟩
    obtain ⟨fuel, rfl⟩ := Nat.exists_eq_add_of_lt hfuel
    rfl
  | (n, k, v) :: b, a, l, h => by
    have hskip : (a ++ b).Sublist (a ++ (n, k, v) :: b) :=
      List.Sublist.append_left (List.sublist_cons_self ..) a
    cases hdrop : drop l n with
    | true =>
      obtain ⟨l₁, hdelete, -, -, h₁⟩ := deleteNode_spec h
      obtain ⟨l', c, hrest, h', hc⟩ := iterate_spec drop b a l₁ h₁
      refine ⟨l', c, fun fuel hfuel => ?_, h', hc.trans hskip⟩
      obtain ⟨fuel, rfl⟩ := Nat.exists_eq_succ_of_ne_zero (Nat.ne_zero_of_lt hfuel)
      rw [iterate, first, nextNode_spec h]
      simp only [bind, Except.bind, hdrop, if_true, hdelete,
        hrest fuel (Nat.lt_of_succ_lt_succ hfuel), addrs_cons]
    | false =>
      obtain ⟨l', c, hrest, h', hc⟩ := iterate_spec drop b (a ++ [(n, k, v)]) l (by simpa using h)
      refine ⟨l', c, fun fuel hfuel => ?_, h', by simpa using hc⟩
      obtain ⟨fuel, rfl⟩ := Nat.exists_eq_succ_of_ne_zero (Nat.ne_zero_of_lt hfuel)
      rw [iterate, first, nextNode_spec h]
      simp only [bind, Except.bind, hdrop, Bool.false_eq_true, if_false,
        hrest fuel (Nat.lt_of_succ_lt_succ hfuel),
        addrs_cons]

end Linked

end LinkedKeylist

end EagleMQ
