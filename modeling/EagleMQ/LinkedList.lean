import EagleMQ.Lib.Ends
import EagleMQ.Binding

/-! The list node by node. Its operations do to the values, in the order of the
links, what the lists of the model do: a value goes to the tail, the first equal one is
deleted, and a rotation brings the last node to the front. -/

namespace EagleMQ

structure LinkedList (α : Type) where
  head : Option Ptr
  tail : Option Ptr
  len : ℕ
  nodes : Heap (Node α)
  fresh : Ptr

namespace LinkedList

variable {α : Type} [DecidableEq α]

def create : LinkedList α := ⟨none, none, 0, fun _ => none, 0⟩

/-- The node that a pointer leads to. -/
def node (l : LinkedList α) (p : Option Ptr) : Except Fault (Ptr × Node α) :=
  match p with
  | none => .error .null
  | some n =>
    match l.nodes n with
    | none => .error .link
    | some nd => .ok (n, nd)

def addValueTail (l : LinkedList α) (value : α) : Except Fault (LinkedList α) :=
  if l.len = 0 then
    .ok { l with
      head := some l.fresh
      tail := some l.fresh
      nodes := Function.update l.nodes l.fresh (some ⟨none, none, value⟩)
      fresh := l.fresh + 1
      len := l.len + 1 }
  else do
    let (t, td) ← l.node l.tail
    .ok { l with
      tail := some l.fresh
      nodes := Function.update (Function.update l.nodes t (some { td with next := some l.fresh }))
        l.fresh (some ⟨some t, none, value⟩)
      fresh := l.fresh + 1
      len := l.len + 1 }

def deleteNode (l : LinkedList α) (n : Ptr) : Except Fault (LinkedList α) := do
  let (_, nd) ← l.node (some n)
  let l ← match nd.prev with
    | some p => do
      let (p, pd) ← l.node (some p)
      .ok { l with nodes := Function.update l.nodes p (some { pd with next := nd.next }) }
    | none => .ok { l with head := nd.next }
  let l ← match nd.next with
    | some x => do
      let (x, xd) ← l.node (some x)
      .ok { l with nodes := Function.update l.nodes x (some { xd with prev := nd.prev }) }
    | none => .ok { l with tail := nd.prev }
  .ok { l with nodes := Function.update l.nodes n none, len := l.len - 1 }

/-- The loop of `list_search_node` without a match method; links that lead through more
nodes than were ever allocated go in a circle. -/
def searchNode (l : LinkedList α) (value : α) : ℕ → Option Ptr → Except Fault (Option Ptr)
  | 0, _ => .error .spin
  | _ + 1, none => .ok none
  | k + 1, some n => do
    let (n, nd) ← l.node (some n)
    if nd.value = value then .ok (some n) else searchNode l value k nd.next

def deleteValue (l : LinkedList α) (value : α) : Except Fault (Bool × LinkedList α) := do
  match ← l.searchNode value (l.fresh + 1) l.head with
  | none => .ok (false, l)
  | some n => .ok (true, ← l.deleteNode n)

def rotate (l : LinkedList α) : Except Fault (LinkedList α) :=
  if l.len ≤ 1 then .ok l
  else do
    let (t, td) ← l.node l.tail
    let (p, pd) ← l.node td.prev
    let l := { l with tail := some p, nodes := Function.update l.nodes p (some { pd with next := none }) }
    let (h, hd) ← l.node l.head
    let l := { l with nodes := Function.update l.nodes h (some { hd with prev := some t }) }
    let (t, td) ← l.node (some t)
    .ok { l with head := some t, nodes := Function.update l.nodes t (some { td with prev := none, next := some h }) }

/-- `EG_LIST_NODE_VALUE(EG_LIST_FIRST(list))`. -/
def firstValue (l : LinkedList α) : Except Fault α := do .ok (← l.node l.head).2.value

/-! ### The list as a chain -/

open Chain

/-- The links form the list `c` of nodes and values. -/
structure Linked (l : LinkedList α) (c : List (Ptr × α)) : Prop where
  whole : Whole l.nodes l.head l.tail c
  len : l.len = c.length
  below : Heap.Below l.nodes l.fresh

section Linked

variable {l : LinkedList α} {c a b : List (Ptr × α)} {n : Ptr} {v value : α}

omit [DecidableEq α] in
theorem linked_create : Linked (create : LinkedList α) [] := ⟨whole_empty, rfl, fun _ h => absurd rfl h⟩

omit [DecidableEq α] in
theorem node_some {nd : Node α} (h : l.nodes n = some nd) : l.node (some n) = .ok (n, nd) := by
  simp [node, h]

omit [DecidableEq α] in
theorem Linked.node (h : Linked l (a ++ (n, v) :: b)) :
    l.node (some n) = .ok (n, ⟨last none a, first b none, v⟩) := node_some h.whole.node

omit [DecidableEq α] in
theorem Linked.length_le (h : Linked l c) : c.length ≤ l.fresh := by
  have hsub : (addrs c).Subperm (List.range l.fresh) := List.subperm_of_subset h.whole.nodup fun n hn =>
    List.mem_range.mpr (h.below n (h.whole.alive.mpr hn))
  simpa [addrs] using hsub.length_le

omit [DecidableEq α] in
theorem addValueTail_spec (h : Linked l c) (value : α) :
    ∃ l', l.addValueTail value = .ok l' ∧ Linked l' (c ++ [(l.fresh, value)]) := by
  have hnew := h.whole.push (h.below.eq_none (Nat.le_refl _)) value
  have hlen : l.len + 1 = (c ++ [(l.fresh, value)]).length := by simp [h.len]
  obtain rfl | ⟨a, ⟨t, v⟩, rfl⟩ := c.eq_nil_or_concat'
  · have htail : l.tail = none := h.whole.tail
    rw [htail] at hnew
    rw [addValueTail, if_pos (show l.len = 0 from h.len)]
    exact ⟨_, rfl, hnew, hlen, h.below.update (Nat.le_succ _) (Nat.lt_succ_self _) _⟩
  · have htail : l.tail = some t := by
      rw [h.whole.tail]
      simp [last]
    rw [addValueTail, if_neg (by simp [h.len]), htail, h.node]
    rw [htail, setNext, h.whole.node, if_neg (by simp)] at hnew
    refine ⟨_, rfl, hnew, hlen, ?_⟩
    exact (h.below.update (Nat.le_refl _) (h.below t (by simp [h.whole.node])) _).update (Nat.le_succ _)
      (Nat.lt_succ_self _) _

omit [DecidableEq α] in
theorem deleteNode_eq {nd : Node α} (hn : l.nodes n = some nd)
    (hp : ∀ p, nd.prev = some p → (l.nodes p).isSome)
    (hx : ∀ x, nd.next = some x → (l.nodes x).isSome) :
    l.deleteNode n = .ok { l with
      head := if nd.prev = none then nd.next else l.head
      tail := if nd.next = none then nd.prev else l.tail
      nodes := Function.update (setPrev (setNext l.nodes nd.prev nd.next) nd.next nd.prev) n none
      len := l.len - 1 } := by
  obtain ⟨prev, next, value⟩ := nd
  cases prev with
  | none =>
    cases next with
    | none => simp [deleteNode, LinkedList.node, hn, bind, Except.bind, setPrev, setNext]
    | some x =>
      obtain ⟨xd, hxd⟩ := Option.isSome_iff_exists.mp (hx x rfl)
      simp [deleteNode, LinkedList.node, hn, hxd, bind, Except.bind, setPrev, setNext]
  | some p =>
    obtain ⟨pd, hpd⟩ := Option.isSome_iff_exists.mp (hp p rfl)
    cases next with
    | none => simp [deleteNode, LinkedList.node, hn, hpd, bind, Except.bind, setPrev, setNext]
    | some x =>
      have hx' := setNext_isSome l.nodes (some p) (some x) x
      rw [hx x rfl] at hx'
      obtain ⟨xd, hxd⟩ := Option.isSome_iff_exists.mp hx'
      simp only [setNext, hpd, Option.map_some] at hxd
      simp [deleteNode, LinkedList.node, hn, hpd, hxd, bind, Except.bind, setPrev, setNext]

omit [DecidableEq α] in
theorem deleteNode_spec (h : Linked l (a ++ (n, v) :: b)) :
    ∃ l', l.deleteNode n = .ok l' ∧ Linked l' (a ++ b) := by
  have halive : ∀ x ∈ addrs (a ++ (n, v) :: b), (l.nodes x).isSome := fun x hx =>
    Option.isSome_iff_ne_none.mpr (h.whole.alive.mpr hx)
  have heq := deleteNode_eq h.whole.node
    (fun p hp => halive p (by simp [last_none_mem hp])) fun x hx => halive x (by simp [first_mem hx])
  have hunlink := h.whole.unlink
  refine ⟨_, heq, hunlink, ?_, fun m hm => ?_⟩
  · simp only [h.len, List.length_append, List.length_cons]
    omega
  · have hmem := hunlink.live m hm
    refine h.below m (h.whole.alive.mpr ?_)
    simp only [addrs_append, addrs_cons, List.mem_append, List.mem_cons] at hmem ⊢
    tauto

/-- The search from a node on finds the first equal value. -/
theorem searchNode_spec (value : α) : ∀ (b a : List (Ptr × α)), Linked l (a ++ b) → ∀ fuel, b.length < fuel →
    l.searchNode value fuel (first b none) = .ok ((b.find? fun x => x.2 = value).map Prod.fst)
  | [], _, _, fuel + 1, _ => rfl
  | (n, v) :: b, a, h, fuel + 1, hfuel => by
    rw [first, searchNode, h.node]
    simp only [bind, Except.bind, List.find?_cons]
    by_cases hv : v = value
    · simp [hv]
    · rw [if_neg hv, decide_eq_false hv]
      exact searchNode_spec value b (a ++ [(n, v)]) (by simpa using h) fuel (Nat.lt_of_succ_lt_succ hfuel)

/-- Deletion takes out the first equal value, if there is one. -/
theorem deleteValue_spec (h : Linked l c) (value : α) :
    ∃ l' c', l.deleteValue value = .ok (decide (value ∈ c.map Prod.snd), l') ∧
    Linked l' c' ∧ c'.map Prod.snd = (c.map Prod.snd).erase value := by
  have hsearch := searchNode_spec value c [] h (l.fresh + 1) (Nat.lt_succ_of_le h.length_le)
  rw [deleteValue, h.whole.head, hsearch]
  by_cases hv : value ∈ c.map Prod.snd
  · obtain ⟨x, hx, hxv⟩ := List.mem_map.mp hv
    cases hfind : c.find? fun x => x.2 = value with
    | none => exact absurd hxv (by simpa using List.find?_eq_none.mp hfind x hx)
    | some y =>
      obtain ⟨hy, a, b, rfl, ha⟩ := List.find?_eq_some_iff_append.mp hfind
      obtain ⟨n, v⟩ := y
      obtain rfl : v = value := by simpa using hy
      obtain ⟨l', hdelete, hl'⟩ := deleteNode_spec h
      refine ⟨l', a ++ b, ?_, hl', ?_⟩
      · simp [bind, Except.bind, hdelete]
      · have hnot : v ∉ a.map Prod.snd := fun hm => by
          obtain ⟨z, hz, hzv⟩ := List.mem_map.mp hm
          simpa [hzv] using ha z hz
        rw [List.map_append, List.map_append, List.map_cons, List.erase_append_right _ hnot,
          List.erase_cons_head]
  · have hnone : (c.find? fun x => x.2 = value) = none := List.find?_eq_none.mpr fun x hx => by
      simpa using fun he => hv (List.mem_map.mpr ⟨x, hx, he⟩)
    refine ⟨l, c, ?_, h, (List.erase_of_not_mem hv).symm⟩
    simp [bind, Except.bind, hnone, hv]

omit [DecidableEq α] in
theorem rotate_eq {td : Node α} {p x : Ptr} (hlen : 1 < l.len) (htail : l.tail = some n)
    (hn : l.nodes n = some td)
    (hprev : td.prev = some p) (hp : (l.nodes p).isSome) (hhead : l.head = some x)
    (hx : (l.nodes x).isSome) (hpn : p ≠ n)
    (hxn : x ≠ n) :
    l.rotate = .ok { l with
      head := some n
      tail := some p
      nodes := Function.update (setPrev (setNext l.nodes (some p) none) (some x) (some n)) n
        (some ⟨none, some x, td.value⟩) } := by
  obtain ⟨pd, hpd⟩ := Option.isSome_iff_exists.mp hp
  have hx' := setNext_isSome l.nodes (some p) none x
  rw [hx] at hx'
  obtain ⟨xd, hxd⟩ := Option.isSome_iff_exists.mp hx'
  have hn' : setPrev (setNext l.nodes (some p) none) (some x) (some n) n = some td := by
    rw [setPrev_of_ne (by simpa using hxn), setNext_of_ne (by simpa using hpn), hn]
  simp only [setPrev, hxd, Option.map_some] at hn' ⊢
  simp only [setNext, hpd, Option.map_some] at hxd hn' ⊢
  rw [rotate, if_neg (by omega), htail]
  simp only [bind, Except.bind, LinkedList.node, hn, hprev, hpd, hhead, hxd, hn']

omit [DecidableEq α] in
/-- The last node comes to the front; a list of one node stays as it is. -/
theorem rotate_spec (h : Linked l (a ++ [(n, v)])) : ∃ l', l.rotate = .ok l' ∧ Linked l' ((n, v) :: a) := by
  obtain rfl | hne := eq_or_ne a []
  · have hlen : l.len = 1 := h.len
    rw [rotate, if_pos (by omega)]
    exact ⟨l, rfl, h⟩
  obtain ⟨hna, -⟩ := not_mem_of_nodup h.whole.nodup
  have halive : ∀ m ∈ addrs a, (l.nodes m).isSome := fun m hm =>
    Option.isSome_iff_ne_none.mpr (h.whole.alive.mpr (by simp [hm]))
  obtain ⟨p, hp⟩ := Option.ne_none_iff_exists'.mp (mt last_eq_none.mp hne)
  obtain ⟨x, hx⟩ := Option.ne_none_iff_exists'.mp (mt first_eq_none.mp hne)
  have hpa := last_none_mem hp
  have hxa := first_mem hx
  have hlen : 1 < l.len := by
    have := List.length_pos_iff.mpr hne
    rw [h.len, List.length_append, List.length_singleton]
    omega
  have htail : l.tail = some n := by
    rw [h.whole.tail, last_append]
    rfl
  have hhead : l.head = some x := by
    rw [h.whole.head, first_append, first_of_ne_nil hne _ none, hx]
  have hrotate := h.whole.rotate
  rw [if_neg hne, hp, hx] at hrotate
  refine ⟨_, rotate_eq hlen htail h.whole.node hp (halive p hpa) hhead (halive x hxa)
    (fun he => hna (he ▸ hpa))
    (fun he => hna (he ▸ hxa)), hrotate, ?_, fun m hm => h.below m (h.whole.alive.mpr ?_)⟩
  · simp [h.len]
  · simpa [or_comm] using hrotate.live m hm

end Linked

/-! ### Rotation and the model -/

section Ptrs

variable {l : LinkedList Ptr} {c : List (Ptr × Ptr)}

/-- The pointers are turned as the lists of the model are, by moving a node; its value is
then the first of the list. -/
theorem rotate_listRotate (h : Linked l c) : ∃ l' c', l.rotate = .ok l' ∧ Linked l' c' ∧ c'.Perm c ∧
    c'.map Prod.snd = listRotate (c.map Prod.snd) ∧ ∀ p ∈ (listRotate (c.map Prod.snd)).head?,
    l'.firstValue = .ok p := by
  obtain rfl | ⟨a, ⟨n, v⟩, rfl⟩ := c.eq_nil_or_concat'
  · refine ⟨l, [], ?_, h, .rfl, rfl, by simp [listRotate]⟩
    have hlen : l.len = 0 := h.len
    rw [rotate, if_pos (by omega)]
  · obtain ⟨l', hrotate, hl'⟩ := rotate_spec h
    refine ⟨l', (n, v) :: a, hrotate, hl',
      (List.perm_append_singleton _ a).symm, by simp [listRotate], fun p hp => ?_⟩
    have hnode : l'.node l'.head = .ok (n, ⟨none, first a none, v⟩) := by
      rw [hl'.whole.head]
      exact Linked.node (a := []) hl'
    obtain rfl : v = p := by simpa [listRotate] using hp
    simp [firstValue, hnode, bind, Except.bind]

end Ptrs

end LinkedList

end EagleMQ
