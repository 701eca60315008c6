import EagleMQ.Queue

/-! The queue as a double-ended sequence. An entry of the sequence is a handle and a
value; the handles are the addresses of the nodes. The links agree with the sequence
as long as nothing is popped or purged: the tail that a pop leaves behind points to
the node that it has freed, and so do the ends of a queue that is emptied. -/

namespace EagleMQ

/-- The abstract sequence, from head to tail. -/
structure Deque where
  entries : List (Ptr × Ptr)
  fresh : Ptr

inductive Queue.Op where
  | pushHead (value : Ptr)
  | pushTail (value : Ptr)
  | getValue
  | popValue
  | deleteNode (n : Ptr)
  | purge

namespace Deque

def empty : Deque := ⟨[], 0⟩

/-- The value returned and the next sequence; only an entry that is there is deleted. -/
def step (d : Deque) : Queue.Op → Option (Option Ptr × Deque)
  | .pushHead v => some (none, ⟨(d.fresh, v) :: d.entries, d.fresh + 1⟩)
  | .pushTail v => some (none, ⟨d.entries ++ [(d.fresh, v)], d.fresh + 1⟩)
  | .getValue => some (d.entries.getLast?.map Prod.snd, d)
  | .popValue => some (d.entries.getLast?.map Prod.snd, { d with entries := d.entries.dropLast })
  | .deleteNode n =>
    if n ∈ d.entries.map Prod.fst then some
      (none, { d with entries := d.entries.filter fun x => x.1 ≠ n }) else none
  | .purge => some (none, { d with entries := [] })

end Deque

namespace Queue

/-- The operation on the nodes; the values that go to the free method are not looked at. -/
def Op.run (q : Queue) : Op → Except Fault (Option Ptr × Queue)
  | .pushHead v => do .ok (none, ← q.pushValueHead v)
  | .pushTail v => do .ok (none, ← q.pushValueTail v)
  | .getValue => do .ok (← q.getValue, q)
  | .popValue => q.popValue
  | .deleteNode n => do .ok (none, (← q.deleteNode n).2)
  | .purge => do .ok (none, (← q.purge).2)

/-- The links of one direction lead from a node through the entries to a null pointer. -/
def Follows (nodes : Heap (Node Ptr)) (link : Node Ptr → Option Ptr) : Option Ptr → List (Ptr × Ptr) → Prop
  | p, [] => p = none
  | p, (n, v) :: l => p = some n ∧ ∃ nd, nodes n = some nd ∧ nd.value = v ∧ Follows nodes link (link nd) l

/-- The queue represents the sequence. -/
structure Agrees (q : Queue) (d : Deque) : Prop where
  next : Follows q.nodes Node.next q.head d.entries
  prev : Follows q.nodes Node.prev q.tail d.entries.reverse
  len : q.len = d.entries.length
  head : q.head = none ↔ d.entries = []
  tail : q.tail = none ↔ d.entries = []
  ends : ∀ x, q.head = some x ∨ q.tail = some x → q.nodes x ≠ none
  links : ∀ n nd, q.nodes n = some nd → ∀ x, nd.next = some x ∨ nd.prev = some x → q.nodes x ≠ none

/-- Every operation of a run that can be made returns what it returns on the sequence,
and the queue represents the sequence before and after it. -/
def Refines : List Op → Queue → Deque → Prop
  | [], q, d => Agrees q d
  | op :: ops, q, d => Agrees q d ∧
      ∀ r d', d.step op = some (r, d') → ∃ q', op.run q = .ok (r, q') ∧ Refines ops q' d'

/-- The operation takes nothing from the end of the sequence. -/
def Op.Plain (d : Deque) : Op → Prop
  | .popValue | .purge => d.entries = []
  | _ => True

/-- Each operation of a run meets the condition. -/
def Plain : List Op → Deque → Prop
  | [], _ => True
  | op :: ops, d => ∀ r d', d.step op = some (r, d') → op.Plain d ∧ Plain ops d'

/-! ### The links of a queue from which nothing was taken -/

open Chain

/-- The nodes are those of the sequence, and all links at its ends are null. -/
structure Clean (q : Queue) (d : Deque) : Prop where
  seg : Seg q.nodes none d.entries none
  nodup : (addrs d.entries).Nodup
  below : Heap.Below q.nodes q.fresh
  len : q.len = d.entries.length
  head : q.head = first d.entries none
  tail : q.tail = last none d.entries
  live : ∀ n, q.nodes n ≠ none → n ∈ addrs d.entries
  fresh : q.fresh = d.fresh

section Clean

variable {q q' : Queue} {d d' : Deque} {op : Op} {r : Option Ptr} {nodes : Heap (Node Ptr)}

theorem clean_create : Clean create .empty :=
  ⟨trivial, by simp [Deque.empty], fun p hp => absurd rfl hp, rfl, rfl, rfl, fun n hn => absurd rfl hn, rfl⟩

theorem Clean.linked (h : Clean q d) : Linked q d.entries :=
  ⟨h.len, h.nodup, h.below, fun _ => h.head, fun _ => h.tail, ⟨none, h.seg, by simp⟩, h.live⟩

theorem follows_next {p : Option Ptr} {l : List (Ptr × Ptr)} (h : Seg nodes p l none) :
    Follows nodes Node.next (first l none) l := by
  induction l generalizing p with
  | nil => rfl
  | cons x l ih => exact ⟨rfl, _, h.1, rfl, ih h.2⟩

theorem follows_prev {e : Option Ptr} {l : List (Ptr × Ptr)} (h : Seg nodes none l e) :
    Follows nodes Node.prev (last none l) l.reverse := by
  induction l using List.reverseRecOn generalizing e with
  | nil => rfl
  | append_singleton l x ih =>
    obtain ⟨hl, hx, -⟩ := seg_append.mp h
    rw [List.reverse_append, last_append]
    exact ⟨rfl, _, hx, rfl, ih hl⟩

theorem first_mem {l : List (Ptr × Ptr)} {n : Ptr} (h : first l none = some n) : n ∈ addrs l := by
  cases l with
  | nil => cases h
  | cons x l =>
    obtain rfl := Option.some.inj h
    exact .head _

theorem last_none_mem {l : List (Ptr × Ptr)} {n : Ptr} (h : last none l = some n) : n ∈ addrs l := by
  rcases last_mem h with rfl | hn
  · cases h
  · exact hn

theorem Clean.alive (h : Clean q d) {n : Ptr} (hn : n ∈ addrs d.entries) : q.nodes n ≠ none := by
  obtain ⟨x, hx, rfl⟩ := List.mem_map.mp hn
  obtain ⟨_, _, hnode⟩ := h.seg.alive hx
  simp [hnode]

theorem Clean.agrees (h : Clean q d) : Agrees q d where
  next := h.head ▸ follows_next h.seg
  prev := h.tail ▸ follows_prev h.seg
  len := h.len
  head := by rw [h.head, first_eq_none]
  tail := by rw [h.tail, last_eq_none]
  ends x hx := h.alive <| hx.elim (fun hx => first_mem (h.head ▸ hx)) fun hx => last_none_mem (h.tail ▸ hx)
  links n nd hnode x hx := by
    obtain ⟨⟨m, v⟩, hmem, rfl⟩ := List.mem_map.mp (h.live n (by simp [hnode]))
    obtain ⟨a, b, hab⟩ := List.append_of_mem hmem
    have hseg := h.seg
    rw [hab] at hseg
    have hnode' := (seg_append.mp hseg).2.1
    obtain rfl := Option.some.inj (hnode.symm.trans hnode')
    refine h.alive ?_
    rw [hab, addrs_append, addrs_cons]
    rcases hx with hx | hx
    · exact List.mem_append_right _ (List.mem_cons_of_mem _ (first_mem hx))
    · exact List.mem_append_left _ (last_none_mem hx)

/-! ### Operations -/

theorem Clean.single (h : Clean q d) (hd : d.entries = []) (v : Ptr) :
    Clean (q.single v) ⟨[(d.fresh, v)], d.fresh + 1⟩ := by
  have hlinked := linked_single (hd ▸ h.linked) v
  rw [← h.fresh]
  refine ⟨⟨Function.update_self ..,
    trivial⟩, by simp, hlinked.below, hlinked.len, rfl, rfl, fun n hn => ?_, rfl⟩
  by_cases hne : n = q.fresh
  · simp [hne]
  · refine absurd (h.live n ?_) (by simp [hd])
    simpa [Queue.single, hne] using hn

theorem Clean.pushHead (h : Clean q d) (v : Ptr) :
    ∃ q', q.pushValueHead v = .ok q' ∧ Clean q' ⟨(d.fresh, v) :: d.entries, d.fresh + 1⟩ := by
  obtain ⟨q', hq', hlinked, -⟩ := pushValueHead_spec h.linked v
  have hfresh := h.linked.fresh_not_mem
  refine ⟨q', hq', ?_⟩
  rw [← h.fresh]
  unfold pushValueHead at hq'
  cases hd : d.entries with
  | nil =>
    rw [if_pos (hd ▸ h.linked).len_eq_zero] at hq'
    obtain rfl := Except.ok.inj hq'
    exact h.fresh ▸ h.single hd v
  | cons x l =>
    obtain ⟨m, w⟩ := x
    have hseg := h.seg
    have hnodup := h.nodup
    rw [hd] at hseg hnodup hlinked hfresh
    rw [if_neg (by simp [h.len, hd]), h.head, hd, first, node_some hseg.1] at hq'
    obtain rfl := Except.ok.inj hq'
    refine ⟨⟨Function.update_self .., ?_⟩, hlinked.nodup, hlinked.below, hlinked.len, rfl,
      hlinked.tail (by simp), fun n hn => ?_, rfl⟩
    · exact (hseg.relink_first (List.nodup_cons.mp hnodup).1 (some q.fresh)).update hfresh _
    · have hlive := h.live n
      rw [hd] at hlive
      by_cases hf : n = q.fresh
      · simp [hf]
      · by_cases hm : n = m
        · simp [hm]
        · exact List.mem_cons_of_mem _ (hlive (by simpa [hf, hm] using hn))

theorem Clean.pushTail (h : Clean q d) (v : Ptr) :
    ∃ q', q.pushValueTail v = .ok q' ∧ Clean q' ⟨d.entries ++ [(d.fresh, v)], d.fresh + 1⟩ := by
  obtain ⟨q', hq', hlinked, htail, -⟩ := pushValueTail_spec h.linked v
  have hfresh := h.linked.fresh_not_mem
  refine ⟨q', hq', ?_⟩
  rw [← h.fresh]
  unfold pushValueTail at hq'
  obtain hd | ⟨l, ⟨m, w⟩, hd⟩ := d.entries.eq_nil_or_concat'
  · rw [if_pos (hd ▸ h.linked).len_eq_zero] at hq'
    obtain rfl := Except.ok.inj hq'
    rw [hd]
    exact h.fresh ▸ h.single hd v
  · have hseg := h.seg
    have hnodup := h.nodup
    rw [hd] at hseg hnodup hlinked hfresh ⊢
    have hml : m ∉ addrs l := fun hm => by
      rw [addrs_append] at hnodup
      exact (List.nodup_append.mp hnodup).2.2 m hm m (by simp) rfl
    have hnode := (seg_append.mp hseg).2.1
    have hlast : last none (l ++ [(m, w)]) = some m := last_append none l [(m, w)]
    rw [if_neg (by simp [h.len, hd]), h.tail, hd, hlast, node_some hnode] at hq'
    obtain rfl := Except.ok.inj hq'
    refine ⟨?_, hlinked.nodup, hlinked.below, hlinked.len, hlinked.head (by simp), hlinked.tail (by simp),
      fun n hn => ?_, rfl⟩
    · rw [seg_append]
      refine ⟨(hseg.relink_last hml (some q.fresh)).update hfresh _, ?_, trivial⟩
      rw [hlast]
      exact Function.update_self ..
    · have hlive := h.live n
      rw [hd] at hlive
      rw [addrs_append]
      by_cases hf : n = q.fresh
      · simp [hf]
      · by_cases hm : n = m
        · simp [hm]
        · exact List.mem_append_left _ (hlive (by simpa [hf, hm] using hn))

theorem Clean.getValue (h : Clean q d) : q.getValue = .ok (d.entries.getLast?.map Prod.snd) := by
  obtain hd | ⟨l, ⟨m, w⟩, hd⟩ := d.entries.eq_nil_or_concat'
  · rw [getValue_nil (hd ▸ h.linked), hd]
    rfl
  · rw [getValue_spec (hd ▸ h.linked), hd, List.getLast?_concat]
    rfl

theorem filter_handle {a b : List (Ptr × Ptr)} {n v : Ptr} (h : (addrs (a ++ (n, v) :: b)).Nodup) :
    (a ++ (n, v) :: b).filter (fun x => decide (x.1 ≠ n)) = a ++ b := by
  rw [addrs_append, addrs_cons] at h
  obtain ⟨-, hb, hab⟩ := List.nodup_append.mp h
  have hkeep : ∀ l : List (Ptr × Ptr), n ∉ addrs l → l.filter (fun x => decide (x.1 ≠ n)) = l := fun l hl =>
    List.filter_eq_self.mpr fun x hx => decide_eq_true fun he => hl (List.mem_map.mpr ⟨x, hx, he⟩)
  rw [List.filter_append, List.filter_cons_of_neg (by simp), hkeep a fun hn => hab n hn n (.head _) rfl,
    hkeep b (List.nodup_cons.mp hb).1]

theorem Clean.deleteNode {a b : List (Ptr × Ptr)} {n v : Ptr} (h : Clean q d)
    (hd : d.entries = a ++ (n, v) :: b) :
    ∃ q', q.deleteNode n = .ok (v, q') ∧ Clean q' { d with entries := a ++ b } := by
  have hseg := h.seg
  have hlinked := h.linked
  rw [hd] at hseg hlinked
  have hnext : q.tailNext = none := tailNext_of_seg hseg (hlinked.tail (by simp)) (by simp)
  obtain ⟨q', hq', hlinked', hnext', hkeep, hfresh⟩ := deleteNode_spec hlinked fun _ => hnext
  have hnode := (seg_append.mp hseg).2.1
  have hlinks := h.agrees.links n _ hnode
  have heq := deleteNode_eq hnode (fun p hp => Option.isSome_iff_ne_none.mpr (hlinks p (.inr hp)))
    fun x hx => Option.isSome_iff_ne_none.mpr (hlinks x (.inl hx))
  obtain rfl := (Prod.mk.inj (Except.ok.inj (hq'.symm.trans heq))).2
  refine ⟨_, hq', ?_, hlinked'.nodup, hlinked'.below, hlinked'.len, ?_, ?_, fun m hm => ?_, h.fresh⟩
  · obtain ⟨e, hs, -⟩ := hlinked'.seg
    rcases eq_or_ne (a ++ b) [] with hab | hab
    · dsimp only
      rw [hab]
      trivial
    · have hend := tailNext_of_seg hs (hlinked'.tail hab) hab
      have hnone : e = none := by
        rw [← hend]
        rcases eq_or_ne b [] with hb | hb
        · exact hnext' hb
        · exact (hkeep hb).trans hnext
      exact hnone ▸ hs
  · rcases eq_or_ne (a ++ b) [] with hab | hab
    · obtain ⟨rfl, rfl⟩ := List.append_eq_nil_iff.mp hab
      rfl
    · exact hlinked'.head hab
  · rcases eq_or_ne (a ++ b) [] with hab | hab
    · obtain ⟨rfl, rfl⟩ := List.append_eq_nil_iff.mp hab
      rfl
    · exact hlinked'.tail hab
  · dsimp only at hm ⊢
    have hne : m ≠ n := fun he => hm (by rw [he, Function.update_self])
    rw [Function.update_of_ne hne, ← Option.isSome_iff_ne_none, setPrev_isSome, setNext_isSome,
      Option.isSome_iff_ne_none] at hm
    have hmem := h.live m hm
    rw [hd] at hmem
    simpa [hne] using hmem

/-- An operation that takes nothing from the end keeps the queue as it should be. -/
theorem Clean.step (h : Clean q d) (hop : op.Plain d) (hd : d.step op = some (r, d')) :
    ∃ q', op.run q = .ok (r, q') ∧ Clean q' d' := by
  cases op with
  | pushHead v =>
    obtain ⟨rfl, rfl⟩ := Prod.mk.inj (Option.some.inj hd)
    obtain ⟨q', hq', hclean⟩ := h.pushHead v
    exact ⟨q', by simp [Op.run, hq', bind, Except.bind], hclean⟩
  | pushTail v =>
    obtain ⟨rfl, rfl⟩ := Prod.mk.inj (Option.some.inj hd)
    obtain ⟨q', hq', hclean⟩ := h.pushTail v
    exact ⟨q', by simp [Op.run, hq', bind, Except.bind], hclean⟩
  | getValue =>
    obtain ⟨rfl, rfl⟩ := Prod.mk.inj (Option.some.inj hd)
    exact ⟨q, by simp [Op.run, h.getValue, bind, Except.bind], h⟩
  | popValue =>
    obtain ⟨rfl, rfl⟩ := Prod.mk.inj (Option.some.inj hd)
    obtain ⟨entries, fresh⟩ := d
    obtain rfl : entries = [] := hop
    exact ⟨q, popValue_nil h.linked, h⟩
  | deleteNode n =>
    simp only [Deque.step] at hd
    split_ifs at hd with hn
    obtain ⟨rfl, rfl⟩ := Prod.mk.inj (Option.some.inj hd)
    obtain ⟨⟨m, v⟩, hmem, rfl⟩ := List.mem_map.mp hn
    obtain ⟨a, b, hab⟩ := List.append_of_mem hmem
    obtain ⟨q', hq', hclean⟩ := h.deleteNode hab
    refine ⟨q', by simp [Op.run, hq', bind, Except.bind], ?_⟩
    rwa [hab, filter_handle (hab ▸ h.nodup)]
  | purge =>
    obtain ⟨rfl, rfl⟩ := Prod.mk.inj (Option.some.inj hd)
    obtain ⟨entries, fresh⟩ := d
    obtain rfl : entries = [] := hop
    have hlen : q.len = 0 := h.len
    have hpurge : q.purge = .ok ([], { q with len := 0 }) := by
      rw [Queue.purge, hlen]
      rfl
    have hsame : ({ q with len := 0 } : Queue) = q := by rw [← hlen]
    exact ⟨q, by simp only [Op.run, hpurge, hsame, bind, Except.bind], h⟩

theorem freeNodes_head : ∀ (n : ℕ) {q : Queue} {p : Option Ptr} {x : List Ptr × Queue},
    q.freeNodes n p = .ok x → x.2.head = q.head
  | 0, _, _, _, h => by
    obtain rfl := Except.ok.inj h
    rfl
  | n + 1, q, p, x, h => by
    unfold freeNodes at h
    cases hn : q.node p with
    | error e =>
      rw [hn] at h
      cases h
    | ok c =>
      rw [hn] at h
      simp only [bind, Except.bind] at h
      cases hrest : freeNodes { q with nodes := Function.update q.nodes c.1 none } n c.2.next with
      | error e =>
        rw [hrest] at h
        cases h
      | ok y =>
        rw [hrest] at h
        obtain rfl := Except.ok.inj h
        have hhead := freeNodes_head n hrest
        exact hhead

/-- A node that was freed is still pointed to when something is taken from the end. -/
theorem Clean.not_agrees (h : Clean q d) (hop : ¬op.Plain d) (hd : d.step op = some (r, d'))
    (hq : op.run q = .ok (r, q')) : ¬Agrees q' d' := by
  intro ha
  cases op with
  | popValue =>
    obtain ⟨rfl, rfl⟩ := Prod.mk.inj (Option.some.inj hd)
    obtain hnil | ⟨l, ⟨n, v⟩, hl⟩ := d.entries.eq_nil_or_concat'
    · exact hop hnil
    · obtain ⟨htail, e, hseg, hnode, -, -⟩ := (hl ▸ h.linked).tail_node
      have hpop : q.popValue = .ok (some v, { q with
          nodes := Function.update q.nodes n none, tail := last none l, len := q.len - 1 }) := by
        rw [popValue, if_neg (by simp [h.len, hl]), htail, node_some hnode]
        rfl
      obtain rfl := (Prod.mk.inj (Except.ok.inj (hq.symm.trans hpop))).2
      obtain rfl | ⟨l, ⟨m, w⟩, rfl⟩ := l.eq_nil_or_concat'
      · refine ha.ends n (.inl ?_) (Function.update_self ..)
        rw [show q.head = first d.entries none from h.head, hl]
        rfl
      · have hm : q.nodes m = some ⟨last none l, some n, w⟩ := (seg_append.mp hseg).2.1
        have hnodup := h.nodup
        have hne : m ≠ n := fun he => by
          rw [hl, addrs_append, addrs_append, he] at hnodup
          exact (List.nodup_append.mp hnodup).2.2 n (by simp) n (by simp) rfl
        refine ha.links m ⟨last none l, some n, w⟩ ?_ n (.inl rfl) (Function.update_self ..)
        dsimp only
        rw [Function.update_of_ne hne, hm]
  | purge =>
    obtain ⟨rfl, rfl⟩ := Prod.mk.inj (Option.some.inj hd)
    have hhead : q'.head = q.head := by
      simp only [Op.run, Queue.purge] at hq
      cases hfree : q.freeNodes q.len q.head with
      | error e =>
        rw [hfree] at hq
        cases hq
      | ok x =>
        rw [hfree] at hq
        obtain rfl := (Prod.mk.inj (Except.ok.inj hq)).2
        have hhead := freeNodes_head _ hfree
        exact hhead
    exact hop (h.agrees.head.mp (hhead ▸ ha.head.mpr rfl))
  | pushHead v => exact hop trivial
  | pushTail v => exact hop trivial
  | getValue => exact hop trivial
  | deleteNode n => exact hop trivial

/-- Along a run from a queue as it should be. -/
theorem Clean.refines (h : Clean q d) (ops : List Op) : Refines ops q d ↔ Plain ops d := by
  induction ops generalizing q d with
  | nil => exact iff_of_true h.agrees trivial
  | cons op ops ih =>
    constructor
    · rintro ⟨-, hnext⟩ r d' hd
      obtain ⟨q', hq', hrest⟩ := hnext r d' hd
      have hop : op.Plain d := by
        by_contra hop
        refine h.not_agrees hop hd hq' ?_
        cases ops with
        | nil => exact hrest
        | cons op ops => exact hrest.1
      obtain ⟨q'', hq'', hclean⟩ := h.step hop hd
      obtain rfl := (Prod.mk.inj (Except.ok.inj (hq'.symm.trans hq''))).2
      exact ⟨hop, (ih hclean).mp hrest⟩
    · refine fun hplain => ⟨h.agrees, fun r d' hd => ?_⟩
      obtain ⟨hop, hrest⟩ := hplain r d' hd
      obtain ⟨q', hq', hclean⟩ := h.step hop hd
      exact ⟨q', hq', (ih hclean).mpr hrest⟩

end Clean

/-- A run on a new queue refines the run on the sequence exactly when it takes nothing from
the end. -/
theorem refines_iff (ops : List Op) : Refines ops create .empty ↔ Plain ops .empty := clean_create.refines ops

/-- Two values are pushed and one is popped. -/
theorem not_refines_popped : ¬∀ ops, Refines ops create .empty := fun h =>
  clean_create.refines [.pushHead 1, .pushHead 2, .popValue] |>.mp (h _) _ _ rfl |>.2 _ _ rfl |>.2 _
    _ rfl |>.1 |>
    List.cons_ne_nil _ _

end Queue

end EagleMQ
