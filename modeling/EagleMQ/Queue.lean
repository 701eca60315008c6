import EagleMQ.Lib.Chain
import EagleMQ.Protocol

/-! The doubly linked queue of messages, node by node: popping and purging do not
restore every link, so the links are part of the state. Addresses of freed nodes
are not reused, and following a link to one is a fault. -/

namespace EagleMQ

abbrev Ptr := ℕ

structure Queue where
  head : Option Ptr
  tail : Option Ptr
  len : ℕ
  nodes : Heap (Node Ptr)
  fresh : Ptr

namespace Queue

def create : Queue := ⟨none, none, 0, fun _ => none, 0⟩

/-- The node that a pointer leads to. -/
def node (q : Queue) (p : Option Ptr) : Except Fault (Ptr × Node Ptr) :=
  match p with
  | none => .error .null
  | some n =>
    match q.nodes n with
    | none => .error .node
    | some nd => .ok (n, nd)

/-- A node that is the whole queue; the old links are not looked at. -/
def single (q : Queue) (value : Ptr) : Queue :=
  { head := some q.fresh, tail := some q.fresh, len := q.len + 1
    nodes := Function.update q.nodes q.fresh (some ⟨none, none, value⟩), fresh := q.fresh + 1 }

def pushValueHead (q : Queue) (value : Ptr) : Except Fault Queue :=
  if q.len = 0 then .ok (q.single value)
  else do
    let (h, hd) ← q.node q.head
    .ok { q with
      head := some q.fresh
      len := q.len + 1
      nodes := Function.update (Function.update q.nodes h (some { hd with prev := some q.fresh }))
        q.fresh (some ⟨none, some h, value⟩)
      fresh := q.fresh + 1 }

def pushValueTail (q : Queue) (value : Ptr) : Except Fault Queue :=
  if q.len = 0 then .ok (q.single value)
  else do
    let (t, td) ← q.node q.tail
    .ok { q with
      tail := some q.fresh
      len := q.len + 1
      nodes := Function.update (Function.update q.nodes t (some { td with next := some q.fresh }))
        q.fresh (some ⟨some t, none, value⟩)
      fresh := q.fresh + 1 }

def getValue (q : Queue) : Except Fault (Option Ptr) :=
  if q.len = 0 then .ok none
  else do
    let (_, td) ← q.node q.tail
    .ok (some td.value)

/-- The new tail keeps its `next` link to the node that is freed. -/
def popValue (q : Queue) : Except Fault (Option Ptr × Queue) :=
  if q.len = 0 then .ok (none, q)
  else do
    let (t, td) ← q.node q.tail
    .ok (some td.value,
      { q with nodes := Function.update q.nodes t none, tail := td.prev, len := q.len - 1 })

/-- Free `len` nodes from a node on; the values are those given to the free method. -/
def freeNodes (q : Queue) (n : ℕ) (current : Option Ptr) : Except Fault (List Ptr × Queue) :=
  match n with
  | 0 => .ok ([], q)
  | n + 1 => do
    let (c, cd) ← q.node current
    let (values, q) ← freeNodes { q with nodes := Function.update q.nodes c none } n cd.next
    .ok (cd.value :: values, q)

/-- `head` and `tail` keep their values. -/
def purge (q : Queue) : Except Fault (List Ptr × Queue) := do
  let (values, q) ← q.freeNodes q.len q.head
  .ok (values, { q with len := 0 })

def deleteNode (q : Queue) (n : Ptr) : Except Fault (Ptr × Queue) := do
  let (_, nd) ← q.node (some n)
  let q ← match nd.prev with
    | some p => do
      let (p, pd) ← q.node (some p)
      .ok { q with nodes := Function.update q.nodes p (some { pd with next := nd.next }) }
    | none => .ok { q with head := nd.next }
  let q ← match nd.next with
    | some x => do
      let (x, xd) ← q.node (some x)
      .ok { q with nodes := Function.update q.nodes x (some { xd with prev := nd.prev }) }
    | none => .ok { q with tail := nd.prev }
  .ok (nd.value, { q with nodes := Function.update q.nodes n none, len := q.len - 1 })

/-- The values met from a node on when at most `n` of the `prev` links are followed. -/
def chase (nodes : Heap (Node Ptr)) (n : ℕ) (p : Option Ptr) : List Ptr :=
  match n, p with
  | n + 1, some p =>
    match nodes p with
    | some nd => nd.value :: chase nodes n nd.prev
    | none => []
  | _, _ => []

/-- The waiting messages in the order in which pops reach them. -/
def waiting (q : Queue) : List Ptr := chase q.nodes q.len q.tail

/-- The `next` link of the last node. -/
def tailNext (q : Queue) : Option Ptr := do
  let t ← q.tail
  let td ← q.nodes t
  td.next

/-! ### The queue as a chain -/

open Chain

/-- The links form the list `l` of nodes and values from head to tail. The last
`next` link may be left over from a pop, and then leads to a freed node; the
`head` and `tail` of an empty queue may be left over as well. -/
structure Linked (q : Queue) (l : List (Ptr × Ptr)) : Prop where
  len : q.len = l.length
  nodup : (addrs l).Nodup
  below : Heap.Below q.nodes q.fresh
  head : l ≠ [] → q.head = first l none
  tail : l ≠ [] → q.tail = last none l
  seg : ∃ e, Seg q.nodes none l e ∧ ∀ x, e = some x → q.nodes x = none ∧ x < q.fresh
  live : ∀ n, q.nodes n ≠ none → n ∈ addrs l

theorem linked_create : Linked create [] :=
  ⟨rfl, by simp, fun p hp => absurd rfl hp, by simp, by simp, ⟨none, trivial, by simp⟩, fun n hn => absurd rfl hn⟩

theorem node_some {q : Queue} {n : Ptr} {nd : Node Ptr} (h : q.nodes n = some nd) :
    q.node (some n) = .ok (n, nd) := by simp [node, h]

theorem Linked.lt_fresh {q : Queue} {l : List (Ptr × Ptr)} (h : Linked q l) {n : Ptr}
    (hn : n ∈ addrs l) : n < q.fresh := by
  obtain ⟨e, hs, -⟩ := h.seg
  obtain ⟨x, hx, rfl⟩ := List.mem_map.mp hn
  obtain ⟨_, _, ha⟩ := hs.alive hx
  exact h.below x.1 (by simp [ha])

theorem Linked.fresh_not_mem {q : Queue} {l : List (Ptr × Ptr)} (h : Linked q l) :
    q.fresh ∉ addrs l := fun hn => Nat.lt_irrefl _ (h.lt_fresh hn)

theorem Linked.len_eq_zero {q : Queue} (h : Linked q []) : q.len = 0 := h.len

/-- The last node of a chain. -/
theorem Linked.tail_node {q : Queue} {l : List (Ptr × Ptr)} {n v : Ptr}
    (h : Linked q (l ++ [(n, v)])) :
    q.tail = some n ∧ ∃ e, Seg q.nodes none l (some n) ∧ q.nodes n = some ⟨last none l, e, v⟩ ∧
      q.tailNext = e ∧ ∀ x, e = some x → q.nodes x = none ∧ x < q.fresh := by
  have ht : q.tail = some n := by rw [h.tail (by simp)]; simp [last]
  obtain ⟨e, hs, he⟩ := h.seg
  rw [seg_append] at hs
  have hn : q.nodes n = some ⟨last none l, e, v⟩ := hs.2.1
  exact ⟨ht, e, hs.1, hn, by simp [tailNext, ht, hn], he⟩

theorem linked_single {q : Queue} (h : Linked q []) (v : Ptr) :
    Linked (q.single v) [(q.fresh, v)] where
  len := by simp [single, h.len]
  nodup := by simp
  below := h.below.update (Nat.le_succ _) (Nat.lt_succ_self _) _
  head _ := rfl
  tail _ := rfl
  seg := ⟨none, ⟨Function.update_self .., trivial⟩, by simp⟩
  live n hn := by
    by_cases heq : n = q.fresh
    · simp [heq]
    · exact absurd (h.live n (by simpa [single, heq] using hn)) (by simp)

/-- A node that is added at an end, next to a node that was there. -/
theorem live_push {q : Queue} {l l' : List (Ptr × Ptr)} {m : Ptr} {nd nd' : Node Ptr}
    (h : Linked q l) (hm : m ∈ addrs l)
    (hsub : ∀ n ∈ addrs l, n ∈ addrs l') (hfresh : q.fresh ∈ addrs l') (n : Ptr)
    (hn : Function.update (Function.update q.nodes m (some nd)) q.fresh (some nd') n ≠ none) :
    n ∈ addrs l' := by
  by_cases hnf : n = q.fresh
  · exact hnf ▸ hfresh
  by_cases hnm : n = m
  · exact hsub n (hnm ▸ hm)
  · exact hsub n (h.live n (by rwa [Function.update_of_ne hnf, Function.update_of_ne hnm] at hn))

theorem pushValueHead_spec {q : Queue} {l : List (Ptr × Ptr)} (h : Linked q l) (v : Ptr) :
    ∃ q', q.pushValueHead v = .ok q' ∧ Linked q' ((q.fresh, v) :: l) ∧ q'.head = some q.fresh := by
  unfold pushValueHead
  obtain - | ⟨⟨m, w⟩, l⟩ := l
  · rw [if_pos h.len_eq_zero]
    exact ⟨_, rfl, linked_single h v, rfl⟩
  · rw [if_neg (by simp [h.len])]
    obtain ⟨e, hs, he⟩ := h.seg
    have hm := hs.1
    have hnodup := h.nodup
    simp only [addrs_cons, List.nodup_cons] at hnodup
    have hml : m < q.fresh := h.lt_fresh (by simp)
    have hfl : q.fresh ∉ addrs ((m, w) :: l) := h.fresh_not_mem
    rw [h.head (by simp), first, node_some hm]
    refine ⟨_, rfl, ⟨by simp [h.len], ?_, ?_, fun _ => rfl, fun _ => ?_, ⟨e, ?_, ?_⟩,
      live_push h (by simp) (fun n hn => .tail _ hn) (by simp)⟩, rfl⟩
    · simpa using ⟨by simpa using hfl, hnodup⟩
    · exact (h.below.update (Nat.le_refl _) hml _).update (Nat.le_succ _) (Nat.lt_succ_self _) _
    · rw [h.tail (by simp)]; rfl
    · refine ⟨Function.update_self .., ?_⟩
      exact (hs.relink_first hnodup.1 (some q.fresh)).update hfl _
    · intro x hx
      obtain ⟨hx1, hx2⟩ := he x hx
      have hxm : x ≠ m := by rintro rfl; simp [hm] at hx1
      refine ⟨?_, by dsimp only; omega⟩
      dsimp only
      rw [Function.update_of_ne (by omega), Function.update_of_ne hxm, hx1]

theorem pushValueTail_spec {q : Queue} {l : List (Ptr × Ptr)} (h : Linked q l) (v : Ptr) :
    ∃ q', q.pushValueTail v = .ok q' ∧ Linked q' (l ++ [(q.fresh, v)]) ∧ q'.tail = some q.fresh ∧
      q'.tailNext = none := by
  unfold pushValueTail
  obtain rfl | ⟨l, ⟨m, w⟩, rfl⟩ := l.eq_nil_or_concat'
  · rw [if_pos h.len_eq_zero]
    exact ⟨_, rfl, linked_single h v, rfl, by simp [tailNext, single]⟩
  · rw [if_neg (by simp [h.len])]
    obtain ⟨ht, e, hs, hm, -, he⟩ := h.tail_node
    have hnodup := h.nodup
    have hml : m < q.fresh := h.lt_fresh (by simp)
    have hfl : q.fresh ∉ addrs (l ++ [(m, w)]) := h.fresh_not_mem
    have hmn : m ∉ addrs l := by
      simp only [addrs_append, addrs_cons, addrs_nil, List.nodup_append] at hnodup
      exact fun hm => hnodup.2.2 m hm m (by simp) rfl
    have hseg : Seg q.nodes none (l ++ [(m, w)]) e := seg_append.mpr ⟨hs, hm, trivial⟩
    rw [ht, node_some hm]
    refine ⟨_, rfl, ⟨by simp [h.len], ?_, ?_, fun _ => ?_, fun _ => ?_, ⟨none, ?_, by simp⟩,
      live_push h (by simp)
        (fun n hn => by simp only [addrs_append, List.mem_append] at hn ⊢; exact .inl hn)
        (by simp)⟩, rfl, ?_⟩
    · rw [addrs_append]
      refine List.nodup_append.mpr ⟨hnodup, by simp, fun x hx y hy hxy => ?_⟩
      simp only [addrs_cons, addrs_nil, List.mem_singleton] at hy
      exact hfl (hy ▸ hxy ▸ hx)
    · exact (h.below.update (Nat.le_refl _) hml _).update (Nat.le_succ _) (Nat.lt_succ_self _) _
    · rw [h.head (by simp)]; cases l <;> rfl
    · simp [last]
    · rw [seg_append]
      refine ⟨(hseg.relink_last hmn (some q.fresh)).update hfl _, ?_, trivial⟩
      simp [last, first]
    · simp [tailNext]

theorem getValue_spec {q : Queue} {l : List (Ptr × Ptr)} {n v : Ptr} (h : Linked q (l ++ [(n, v)])) :
    q.getValue = .ok (some v) := by
  obtain ⟨ht, e, -, hn, -⟩ := h.tail_node
  rw [getValue, if_neg (by simp [h.len]), ht, node_some hn]
  rfl

theorem getValue_nil {q : Queue} (h : Linked q []) : q.getValue = .ok none := by
  rw [getValue, if_pos h.len_eq_zero]

theorem popValue_nil {q : Queue} (h : Linked q []) : q.popValue = .ok (none, q) := by
  rw [popValue, if_pos h.len_eq_zero]

theorem popValue_spec {q : Queue} {l : List (Ptr × Ptr)} {n v : Ptr} (h : Linked q (l ++ [(n, v)])) :
    ∃ q', q.popValue = .ok (some v, q') ∧ Linked q' l := by
  obtain ⟨ht, e, hs, hn, -, he⟩ := h.tail_node
  have hnodup := h.nodup
  simp only [addrs_append, addrs_cons, addrs_nil, List.nodup_append] at hnodup
  have hnl : n ∉ addrs l := fun hm => hnodup.2.2 n hm n (by simp) rfl
  have hlt : n < q.fresh := h.lt_fresh (by simp)
  rw [popValue, if_neg (by simp [h.len]), ht, node_some hn]
  refine ⟨_, rfl, ⟨by simp [h.len], hnodup.1, h.below.update (Nat.le_refl _) hlt _, fun hl => ?_,
    fun hl => rfl, ⟨some n, hs.update hnl _, ?_⟩, fun x hx => ?_⟩⟩
  · rw [h.head (by simp)]
    cases l with
    | nil => exact absurd rfl hl
    | cons x l => rfl
  · intro x hx
    obtain rfl := Option.some.inj hx
    exact ⟨Function.update_self .., hlt⟩
  · dsimp only at hx
    obtain rfl | hxn := eq_or_ne x n
    · exact absurd (Function.update_self ..) hx
    · rw [Function.update_of_ne hxn] at hx
      simpa [hxn] using h.live x hx

theorem freeNodes_spec (l : List (Ptr × Ptr)) :
    ∀ {q : Queue} {p e : Option Ptr}, Heap.Below q.nodes q.fresh → (addrs l).Nodup →
      Seg q.nodes p l e → ∃ q', q.freeNodes l.length (first l e) = .ok (l.map Prod.snd, q') ∧
        Heap.Below q'.nodes q'.fresh ∧ q'.fresh = q.fresh ∧ ∀ x, q'.nodes x ≠ none →
          q.nodes x ≠ none ∧ x ∉ addrs l := by
  induction l with
  | nil => intro q p e hb _ _; exact ⟨q, rfl, hb, rfl, fun x hx => ⟨hx, by simp⟩⟩
  | cons x l ih =>
    obtain ⟨n, v⟩ := x
    intro q p e hb hn hs
    simp only [addrs_cons, List.nodup_cons] at hn
    have hlt : n < q.fresh := hb n (by simp [hs.1])
    obtain ⟨q', hq', hb', hf', hlive⟩ := ih (q := { q with nodes := Function.update q.nodes n none })
      (hb.update (Nat.le_refl _) hlt none) hn.2 (hs.2.update hn.1 none)
    refine ⟨q', ?_, hb', hf', fun x hx => ?_⟩
    · rw [List.length_cons, freeNodes, first, node_some hs.1]
      simp only [bind, Except.bind, hq', List.map_cons]
    · obtain ⟨hxq, hxl⟩ := hlive x hx
      dsimp only at hxq
      obtain rfl | hxn := eq_or_ne x n
      · exact absurd (Function.update_self ..) hxq
      · rw [Function.update_of_ne hxn] at hxq
        exact ⟨hxq, by simpa [hxn] using hxl⟩

theorem purge_spec {q : Queue} {l : List (Ptr × Ptr)} (h : Linked q l) :
    ∃ q', q.purge = .ok (l.map Prod.snd, q') ∧ Linked q' [] := by
  obtain ⟨e, hs, -⟩ := h.seg
  have hfree : ∃ q', q.freeNodes q.len q.head = .ok (l.map Prod.snd, q') ∧
      Heap.Below q'.nodes q'.fresh ∧ q'.fresh = q.fresh ∧ ∀ x, q'.nodes x ≠ none →
      q.nodes x ≠ none ∧ x ∉ addrs l := by
    rw [h.len]
    cases l with
    | nil => exact ⟨q, rfl, h.below, rfl, fun x hx => ⟨hx, by simp⟩⟩
    | cons x l =>
      rw [h.head (by simp)]
      exact freeNodes_spec (e := e) (x :: l) h.below h.nodup hs
  obtain ⟨q', hq', hb, -, hlive⟩ := hfree
  refine ⟨{ q' with len := 0 }, by rw [purge, hq']; rfl, ?_⟩
  refine ⟨rfl, by simp, hb, by simp, by simp, ⟨none, trivial, by simp⟩, fun x hx => ?_⟩
  exact absurd (h.live x (hlive x hx).1) (hlive x hx).2

theorem waiting_spec {q : Queue} {l : List (Ptr × Ptr)} (h : Linked q l) :
    q.waiting = (l.map Prod.snd).reverse := by
  have key : ∀ (l : List (Ptr × Ptr)) (e : Option Ptr), Seg q.nodes none l e →
      chase q.nodes l.length (last none l) = (l.map Prod.snd).reverse := by
    intro l
    induction l using List.reverseRecOn with
    | nil => intros; rfl
    | append_singleton l x ih =>
      obtain ⟨n, v⟩ := x
      intro e hs
      rw [seg_append] at hs
      have hn : q.nodes n = some ⟨last none l, e, v⟩ := hs.2.1
      simp [chase, last, hn, ih _ hs.1]
  obtain ⟨e, hs, -⟩ := h.seg
  unfold waiting
  rw [h.len]
  cases l with
  | nil => rfl
  | cons x l => rw [h.tail (by simp)]; exact key _ e hs

/-! ### Unlinking a node -/

theorem deleteNode_eq {q : Queue} {n : Ptr} {nd : Node Ptr} (hn : q.nodes n = some nd)
    (hp : ∀ p, nd.prev = some p → (q.nodes p).isSome)
    (hx : ∀ x, nd.next = some x → (q.nodes x).isSome) :
    q.deleteNode n = .ok (nd.value, { q with
      head := if nd.prev = none then nd.next else q.head
      tail := if nd.next = none then nd.prev else q.tail
      nodes := Function.update (setPrev (setNext q.nodes nd.prev nd.next) nd.next nd.prev) n none
      len := q.len - 1 }) := by
  obtain ⟨prev, next, value⟩ := nd
  cases prev with
  | none =>
    cases next with
    | none => simp [deleteNode, node, hn, bind, Except.bind, setPrev, setNext]
    | some x =>
      obtain ⟨xd, hxd⟩ := Option.isSome_iff_exists.mp (hx x rfl)
      simp [deleteNode, node, hn, hxd, bind, Except.bind, setPrev, setNext]
  | some p =>
    obtain ⟨pd, hpd⟩ := Option.isSome_iff_exists.mp (hp p rfl)
    cases next with
    | none => simp [deleteNode, node, hn, hpd, bind, Except.bind, setPrev, setNext]
    | some x =>
      have hx' := setNext_isSome q.nodes (some p) (some x) x
      rw [hx x rfl] at hx'
      obtain ⟨xd, hxd⟩ := Option.isSome_iff_exists.mp hx'
      simp only [setNext, hpd, Option.map_some] at hxd
      simp [deleteNode, node, hn, hpd, hxd, bind, Except.bind, setPrev, setNext]

theorem tailNext_of_seg {q : Queue} {l : List (Ptr × Ptr)} {e : Option Ptr}
    (hs : Seg q.nodes none l e) (ht : q.tail = last none l) (hl : l ≠ []) : q.tailNext = e := by
  obtain rfl | ⟨l, ⟨n, v⟩, rfl⟩ := l.eq_nil_or_concat'
  · exact absurd rfl hl
  · have hn : q.nodes n = some ⟨last none l, e, v⟩ := (seg_append.mp hs).2.1
    simp [tailNext, ht, last, hn]

/-- A node of the queue is deleted: the last one only when its `next` link is clear. -/
theorem deleteNode_spec {q : Queue} {a b : List (Ptr × Ptr)} {n v : Ptr}
    (h : Linked q (a ++ (n, v) :: b)) (hb : b = [] → q.tailNext = none) :
    ∃ q', q.deleteNode n = .ok (v, q') ∧ Linked q' (a ++ b) ∧ (b = [] → q'.tailNext = none) ∧
      (b ≠ [] → q'.tailNext = q.tailNext) ∧ q'.fresh = q.fresh := by
  obtain ⟨e, hs, he⟩ := h.seg
  have hnodup := h.nodup
  have hn : q.nodes n = some ⟨last none a, first b e, v⟩ := (seg_append.mp hs).2.1
  have hte : q.tailNext = e := tailNext_of_seg hs (h.tail (by simp)) (by simp)
  -- the last `next` link is left over only when there are nodes after the deleted one
  have hfirst : first b e = first b none := by
    obtain rfl | hne := eq_or_ne b []
    · rw [← hte, hb rfl]
    · exact first_of_ne_nil hne _ _
  have halive : ∀ x ∈ addrs (a ++ (n, v) :: b), (q.nodes x).isSome := fun x hx => by
    obtain ⟨y, hy, rfl⟩ := List.mem_map.mp hx
    obtain ⟨_, _, hya⟩ := hs.alive hy
    simp [hya]
  have hprev : ∀ p, last none a = some p → p ∈ addrs a := fun p hp => by
    rcases last_mem hp with rfl | hpa
    · simp [last] at hp
    · exact hpa
  have hnext : ∀ x, first b none = some x → x ∈ addrs b := fun x hx => by
    cases b with
    | nil => simp [first] at hx
    | cons y b => obtain rfl := Option.some.inj hx; simp
  have heq := deleteNode_eq hn (fun p hp => halive p (by simp [hprev p hp]))
    (fun x hx => halive x (by simp [hnext x (hfirst ▸ hx)]))
  have hunlink := hs.unlink hnodup
  dsimp only at heq
  rw [hfirst] at heq hunlink
  set nodes := Function.update (setPrev (setNext q.nodes (last none a) (first b none))
    (first b none) (last none a)) n none with hnodes
  have hsome : ∀ x, q.nodes x = none → nodes x = none := fun x hx => by
    by_cases hxn : x = n
    · rw [hnodes, hxn, Function.update_self]
    · rw [hnodes, Function.update_of_ne hxn, ← Option.not_isSome_iff_eq_none, setPrev_isSome,
        setNext_isSome, hx]
      simp
  have hhead : a ++ b ≠ [] → (if last none a = none then first b none else q.head) =
      first (a ++ b) none := fun _ => by
    rw [first_append, h.head (by simp)]
    obtain rfl | hne := eq_or_ne a []
    · rfl
    · rw [if_neg (by rwa [last_eq_none]), first_append]
      exact first_of_ne_nil hne _ _
  have htail : (if first b none = none then last none a else q.tail) = last none (a ++ b) := by
    rw [last_append, h.tail (by simp)]
    obtain rfl | hne := eq_or_ne b []
    · rfl
    · rw [if_neg (by rwa [first_eq_none]), last_append]
      exact last_of_ne_nil hne _ _
  refine ⟨_, heq, ⟨?_, ?_, fun x hx => ?_, hhead, fun _ => htail, ⟨e, hunlink, fun x hx => ?_⟩,
    fun x hx => ?_⟩,
    fun hbn => ?_, fun hbn => ?_, rfl⟩
  · simp only [h.len, List.length_append, List.length_cons]; omega
  · simp only [addrs_append, addrs_cons, List.nodup_append, List.nodup_cons] at hnodup ⊢
    exact ⟨hnodup.1, hnodup.2.1.2, fun x hx y hy => hnodup.2.2 x hx y (by simp [hy])⟩
  · exact h.below x (mt (hsome x) hx)
  · exact ⟨hsome x (he x hx).1, (he x hx).2⟩
  · have hxn : x ≠ n := by
      rintro rfl
      exact hx (Function.update_self ..)
    have hmem := h.live x (mt (hsome x) hx)
    simpa [hxn] using hmem
  · obtain hnil | hne := eq_or_ne (a ++ b) []
    · simp [tailNext, hbn, (List.append_eq_nil_iff.mp hnil).1, first, last]
    · rw [tailNext_of_seg hunlink htail hne, ← hte, hb hbn]
  · rw [hte]
    exact tailNext_of_seg hunlink htail (by simp [hbn])

/-- Deleting the last node follows its `next` link. -/
theorem deleteNode_stale {q : Queue} {a : List (Ptr × Ptr)} {n v : Ptr} {x : Ptr}
    (h : Linked q (a ++ [(n, v)])) (hx : q.tailNext = some x) : q.deleteNode n = .error .node := by
  obtain ⟨-, e, hs, hn, hte, he⟩ := h.tail_node
  have hnodup := h.nodup
  rw [hte] at hx
  obtain ⟨hxn, -⟩ := he x hx
  obtain rfl | ⟨a, ⟨m, w⟩, rfl⟩ := a.eq_nil_or_concat'
  · simp [deleteNode, node, hn, hx, hxn, last, bind, Except.bind]
  · have hm : q.nodes m = some ⟨last none a, some n, w⟩ := (seg_append.mp hs).2.1
    have hmx : x ≠ m := by rintro rfl; simp [hm] at hxn
    simp [deleteNode, node, hn, hm, hx, hxn, hmx, last, bind, Except.bind]

end Queue

end EagleMQ
