import EagleMQ.References.Recedes

/-! The tally over a step. A push hands the reference of a new object to its message; a
push to a route starts with no reference and pays for each message after it has been
pushed. -/

namespace EagleMQ

open Prog Refcount

/-- No operation has an object in hand. -/
abbrev allEven : Ptr → Standing := fun _ => .even

section Steps

variable {P : Prop} {a : Ptr → Standing} {s t : EagleServer} {c q r ch o : Ptr} {x : EagleClient} {z : Object}
  {b : Standing} {req : Request}

/-! ### New records -/

theorem createQueueT_holding (name : Name) (maxMsg maxMsgSize flags : ℕ) :
    Keeps (Holding P a) Fault.Any (createQueueT name maxMsg maxMsgSize flags) := fun s h => by
  refine ⟨fun c hc => Nat.lt_succ_of_lt (h.clients c hc),
    h.queues.update (Nat.le_succ _) (Nat.lt_succ_self _) _,
    fun o ho => Nat.lt_succ_of_lt (h.objects o ho), fun q y hy => ?_,
    fun o ho => h.above o (Nat.le_of_succ_le ho),
    fun o => ?_⟩
  · by_cases hq : q = s.fresh
    · subst hq
      simp only [Function.update_self, Option.some.injEq] at hy
      exact hy ▸ fun m hm => absurd rfl hm
    · exact h.messages q y (by simpa [hq] using hy)
  · have hqueue := Heap.sum_alloc (f := fun x : QueueT => x.backlog.refs o)
      (b := ⟨name, maxMsg, maxMsgSize, flags,
      bitCheck flags 0, bitCheck flags 1, bitCheck flags 2, .create, [], [], [], []⟩) h.queues
    have hclient : Heap.sum s.clientAt (fun x => x.responses.count o) (s.fresh + 1) = s.clientRefs o :=
      Heap.sum_grow h.clients (Nat.le_succ _)
    have hsame := hqueue.trans (congrArg (s.queueRefs o + ·) (refs_create_empty o))
    exact (h.count o).congr (congrArg₂ (· + ·) hsame hclient)

theorem createClient_holding (fd : ℕ) : Keeps (Holding P a) Fault.Any (createClient fd) := fun s => by
  rw [createClient, wp_bind, wp_get]
  refine wp_ite (fun _ h => ?_) fun _ h => h
  refine ⟨h.clients.update (Nat.le_succ _) (Nat.lt_succ_self _) _,
    fun q hq => Nat.lt_succ_of_lt (h.queues q hq),
    fun o ho => Nat.lt_succ_of_lt (h.objects o ho), h.messages, fun o ho => h.above o (Nat.le_of_succ_le ho),
    fun o => ?_⟩
  have hclient := Heap.sum_alloc (f := fun x : EagleClient => x.responses.count o)
    (b := ⟨fd, 0, false, false, [], [], [], [], [], 0, s.env.time, []⟩) h.clients
  have hqueue : Heap.sum s.queueAt (fun x => x.backlog.refs o) (s.fresh + 1) = s.queueRefs o :=
    Heap.sum_grow h.queues (Nat.le_succ _)
  exact (h.count o).congr (congrArg₂ (· + ·) hqueue hclient)

theorem createClient_recedes (fd : ℕ) : Keeps (Recedes P a) Fault.Any (createClient fd) :=
  idle_recedes (createClient_holding fd) fun s => by
    rw [createClient, wp_bind, wp_get]
    exact wp_ite (fun _ => idle_of_queueAt rfl rfl) fun _ => keeps_pure (R := Idle) _ s

theorem acceptClient_recedes (fd : ℕ) : Keeps (Recedes P a) Fault.Any (acceptClient fd) := by
  refine keeps_bind (createClient_recedes fd) fun c => ?_
  cases c with
  | none => exact keeps_pure _
  | some c =>
    exact keeps_bind keeps_get fun _ => keeps_ite (fun _ => freeClient_recedes c) fun _ => keeps_pure _

/-! ### Responses that are sent -/

theorem dropResponse_holding (c : Ptr) : Keeps (Holding P a) Fault.Any (dropResponse c) := fun s => by
  cases hx : s.clientAt c with
  | none => simp [dropResponse, getClient, hx, Fault.Any]
  | some x =>
    rw [dropResponse, wp_bind, wp_getClient hx]
    cases hr : x.responses with
    | nil => trivial
    | cons o l =>
      rw [wp_bind]
      exact wp_modifyClient ⟨x, hx, wp_decrement_any fun z hz hs => hs.dropResponse hx hr rfl hz⟩

theorem finishSend_unmoved (c : Ptr) (sent : Bool) : Keeps Unmoved Fault.Any (finishSend c sent) := by
  have hend : Keeps Unmoved Fault.Any (do
      if (← getClient c).responses = [] then
        modifyClient c fun x => { x with sentlen := 0, writable := false } : ServerM Unit) :=
    keeps_bind getClient_any fun _ => keeps_ite (fun _ => modifyClient_unmoved fun _ => rfl)
      fun _ => keeps_pure _
  exact keeps_bind keeps_get fun _ => keeps_ite
    (fun _ => keeps_bind (modifyClient_unmoved fun _ => rfl) fun _ => hend) fun _ => hend

theorem sendResponse_recedes (c : Ptr) (ws : List Written) :
    ∀ sent, Keeps (Recedes P a) Fault.Any (sendResponse c sent ws) :=
  sendResponse_keeps (fun sent => unmoved_recedes (finishSend_unmoved c sent))
    (idle_recedes (dropResponse_holding c) (answers_idle (dropResponse_answers any_stock)))
    (fun _ => unmoved_recedes (modifyClient_unmoved fun _ => rfl)) (freeClient_recedes c) ws

/-! ### Objects in hand -/

/-- One object is in hand. -/
def inHand (o : Ptr) (b : Standing) : Ptr → Standing := Function.update allEven o b

theorem inHand_self : inHand o b o = b := Function.update_self ..

theorem inHand_inHand {d : Standing} : Function.update (inHand o b) o d = inHand o d := by simp [inHand]

theorem inHand_even : inHand o .even = allEven := Function.update_eq_self o allEven

theorem inHand_above (ho : o < s.fresh) (p : Ptr) (hp : s.fresh ≤ p) : inHand o b p = .even :=
  Function.update_of_ne (Nat.ne_of_gt (Nat.lt_of_lt_of_le ho hp)) ..

/-- The standing of one object changes, with its cell. -/
theorem Tally.stand {d : Standing} {w : Option Object} (h : Tally P (inHand o b) s)
    (hz : s.objects o = some z)
    (hst : ∀ n, b.Holds P (some z.refcount) n → d.Holds P (w.map Object.refcount) n) :
    Tally P (inHand o d) { s with objects := Function.update s.objects o w } := by
  have ho : o < s.fresh := h.objects o (by simp [hz])
  refine ⟨h.clients, h.queues, h.objects.update (Nat.le_refl _) ho _, h.messages, inHand_above ho, ?_⟩
  rw [← inHand_inHand (b := b)]
  refine count_stand h.count (hst _ ?_) fun _ _ => rfl
  have := h.count o
  rwa [inHand_self, countOf_some hz] at this

/-- A new object, in hand. -/
theorem Tally.create {z : Object} (h : Tally P allEven s)
    (hst : ∀ n, Standing.Holds P .even none n → b.Holds P (some z.refcount) n) :
    Tally P (inHand s.fresh b) { s with
      objects := Function.update s.objects s.fresh (some z), fresh := s.fresh + 1 } := by
  have hq : ∀ o, EagleServer.queueRefs { s with
      objects := Function.update s.objects s.fresh (some z), fresh := s.fresh + 1 } o = s.queueRefs o :=
    queueRefs_same h.queues (fun _ => rfl) (Nat.le_succ _)
  have hc : ∀ o, EagleServer.clientRefs { s with
      objects := Function.update s.objects s.fresh (some z), fresh := s.fresh + 1 } o = s.clientRefs o :=
    clientRefs_same h.clients (fun _ => rfl) (Nat.le_succ _)
  refine ⟨fun c hc => Nat.lt_succ_of_lt (h.clients c hc), fun q hq => Nat.lt_succ_of_lt (h.queues q hq),
    h.objects.update (Nat.le_succ _) (Nat.lt_succ_self _) _, h.messages,
    fun p hp => Function.update_of_ne (Nat.ne_of_gt hp) .., ?_⟩
  refine count_stand h.count ?_ fun p _ => ?_
  · rw [EagleServer.holders, hq, hc]
    exact hst _ h.count_fresh
  · rw [EagleServer.holders, hq, hc]
    rfl

/-! ### Pushes -/

/-- The message of a push holds the object in hand. -/
theorem createMessage_tally {d : Standing} (h : Tally P (inHand o b) s) (ho : o < s.fresh)
    (tag expiration : ℕ)
    (hst : ∀ cell n, b.Holds P cell n → d.Holds P cell (n + 1)) :
    wp (withStock q (Stock.createMessage o tag expiration))
      (fun _ t => Tally P (inHand o d) t ∧ s.fresh ≤ t.fresh)
      Fault.Any s := by
  cases hx : s.queueAt q with
  | none => simp [wp, withStock, hx, Fault.Any]
  | some x =>
    refine wp_withStock hx ⟨h.restock (t := ⟨_, s.objects⟩) hx (inHand_above ho) ?_, Nat.le_refl _⟩
    have hstock := h.stock hx
    have hb : Heap.Below x.backlog.messages x.backlog.fresh := hstock.messages
    have hrefs := refs_create hb ⟨o, tag, 0, expiration, none, none⟩
    refine ⟨hb.update (Nat.le_succ _) (Nat.lt_succ_self _) _, h.objects, fun p => ?_⟩
    have hcount := hstock.count p
    have hp := hrefs p
    dsimp only at hp hcount ⊢
    rw [hp]
    by_cases hpo : p = o
    · subst hpo
      rw [inHand_self] at hcount ⊢
      rw [if_pos rfl, Nat.add_right_comm]
      exact hst _ _ hcount
    · rw [if_neg (Ne.symm hpo), Nat.add_zero]
      simpa [inHand, hpo] using hcount

theorem pushMessageQueueT_tally {d : Standing} (h : Tally P (inHand o b) s) (ho : o < s.fresh)
    (expiration : ℕ)
    (hst : ∀ cell n, b.Holds P cell n → d.Holds P cell (n + 1)) :
    wp (pushMessageQueueT q o expiration) (fun _ t => Tally P (inHand o d) t) Fault.Any s := by
  rw [pushMessageQueueT, wp_bind, wp_get, wp_bind, wp_modify, wp_bind]
  have hcount : Tally P (inHand o b) { s with msgCounter := s.msgCounter + 1 } :=
    h.unmoved ⟨fun _ => rfl, fun _ => rfl, rfl, Nat.le_refl _⟩
  refine wp_mono (createMessage_tally hcount ho _ expiration hst) (fun m t ht => ?_) fun _ h => h
  obtain ⟨ht, -⟩ := ht
  have hrest : Keeps (Holding P (inHand o d)) Fault.Any (do
      let size ← objectSize o
      if (← getQueue q).maxMsgSize < size then pure false
      else if ← processSubscribedClients q m then
        withStock q (Stock.releaseMessage m)
        pure true
      else enqueueMessage q m) :=
    keeps_bind (objectSize_any o) fun _ => keeps_bind getQueue_any fun _ =>
      keeps_ite (fun _ => keeps_pure _) fun _ =>
      keeps_bind (processSubscribedClients_holding q m) fun _ => keeps_ite
        (fun _ => keeps_bind (withStock_holding (Stock.keeping_local.releaseMessage m) q)
        fun _ => keeps_pure _)
        fun _ => enqueueMessage_holding q m
  exact wp_mono (hrest t) (fun _ _ hu => hu ht) fun _ h => h

theorem pushToQueue_tally (h : Tally P allEven s) (c : Ptr) (req : Request) (q : Ptr) :
    wp (pushToQueue c req q) (fun _ t => Tally P allEven t) Fault.Any s := by
  rw [pushToQueue, wp_bind]
  refine (?_ : wp _ _ _ { s with
    objects := Function.update s.objects s.fresh (some ⟨req.rest 76, 1⟩), fresh := s.fresh + 1 })
  have hcreate := h.create (b := .held) (z := ⟨req.rest 76, 1⟩) fun n hn => hn.create
  rw [reportResult, wp_bind, wp_bind, wp_get]
  refine wp_mono (pushMessageQueueT_tally (d := .even) hcreate (Nat.lt_succ_self _) _ fun _ _ hn => hn.pass)
    (fun ok t ht => ?_) fun _ h => h
  rw [inHand_even] at ht
  exact wp_ite (fun _ => wp_mono (respond_holding c req _ t) (fun _ _ hu => hu ht) fun _ h => h) fun _ =>
    wp_mono (respond_holding c req _ t) (fun _ _ hu => hu ht) fun _ h => h

/-- One push of a route and the increment that pays for it. -/
theorem pushPaid_tally {α : Type} (h : Tally P (inHand o .blank) s) (ho : o < s.fresh)
    (expiration : ℕ) (f : Bool → α) :
    wp (do
      let ok ← pushMessageQueueT q o expiration
      incrementReferencesCount o
      pure (f ok)) (fun _ t => Tally P allEven t ∧ o < t.fresh) Fault.Any s := by
  rw [wp_bind]
  refine wp_mono (pushMessageQueueT_tally (d := .owed) h ho expiration fun _ _ hn => hn.owe)
    (fun ok t ht => ?_)
    fun _ h => h
  rw [wp_bind]
  refine wp_increment_any fun z hz _ => ⟨?_, ht.objects o (by simp [hz])⟩
  have := ht.stand (d := .even) (w := some { z with refcount := z.refcount + 1 }) hz fun n hn => hn.repay
  rwa [inHand_even] at this

theorem Tally.toBlank (h : Tally P allEven s) (ho : o < s.fresh) : Tally P (inHand o .blank) s :=
  ⟨h.clients, h.queues, h.objects, h.messages, inHand_above ho, fun p => by
    by_cases hp : p = o
    · subst hp
      rw [inHand_self]
      exact (h.count p).blank
    · simpa [inHand, hp] using h.count p⟩

theorem Tally.ofBlank (h : Tally P (inHand o .blank) s) (hP : ¬P) : Tally P allEven s :=
  ⟨h.clients, h.queues, h.objects, h.messages, fun _ _ => rfl, fun p => by
    have := h.count p
    by_cases hp : p = o
    · subst hp
      rw [inHand_self] at this
      exact this.even hP
    · simpa [inHand, hp] using this⟩

theorem pushAll_tally (expiration : ℕ) : ∀ {l : List Ptr} {s : EagleServer} (status : Bool),
    Tally P (inHand o .blank) s → o < s.fresh → (l = [] → Tally P allEven s) →
    wp (l.foldlM (fun status q => do
      let ok ← pushMessageQueueT q o expiration
      incrementReferencesCount o
      pure (status && ok)) status) (fun _ t => Tally P allEven t) Fault.Any s
  | [], _, _, _, _, hnil => hnil rfl
  | q :: l, s, status, h, ho, _ => by
    rw [List.foldlM_cons, wp_bind]
    refine wp_mono (pushPaid_tally h ho expiration (status && ·)) (fun ok t ⟨ht, hot⟩ => ?_) fun _ h => h
    exact pushAll_tally expiration _ (ht.toBlank hot) hot fun _ => ht

/-- A push to a route without the key leaves an object that nobody holds. -/
theorem pushMessageRouteT_tally {x : RouteT} {key : Name} (h : Tally P (inHand o .blank) s) (ho : o < s.fresh)
    (hx : s.routeAt r = some x) (hkey : P → key ∈ x.keys.keys)
    (hne : key ∈ x.keys.keys → x.keys.values key ≠ [])
    (expiration : ℕ) : wp (pushMessageRouteT r key o expiration) (fun _ t => Tally P allEven t)
      Fault.Any s := by
  rw [pushMessageRouteT, wp_bind, wp_getRoute hx]
  refine wp_ite (fun hk => wp_ite (fun _ => ?_) fun _ => ?_) fun hk => h.ofBlank fun hP => hk (hkey hP)
  · rw [wp_bind]
    refine wp_modifyRoute ⟨x, hx, ?_⟩
    rw [wp_bind, wp_getRoute (Function.update_self ..)]
    have hrotate : Tally P (inHand o .blank) (s.setRoute r { x with
        keys := x.keys.set key (listRotate (x.keys.values key)) }) :=
      h.unmoved ⟨fun _ => rfl, fun _ => rfl, rfl, Nat.le_refl _⟩
    split
    · exact wp_mono (pushPaid_tally hrotate ho expiration id) (fun _ _ ht => ht.1) fun _ h => h
    · trivial
  · exact pushAll_tally expiration true h ho fun hnil => absurd hnil (hne hk)

theorem pushToRoute_tally {x : RouteT} {key : Name} (h : Tally P allEven s) (hx : s.routeAt r = some x)
    (hkey : P → key ∈ x.keys.keys) (hne : key ∈ x.keys.keys → x.keys.values key ≠ []) (c : Ptr)
    (req : Request) : wp (pushToRoute c req r key) (fun _ t => Tally P allEven t) Fault.Any s := by
  rw [pushToRoute, wp_bind]
  refine (?_ : wp _ _ _ { s with
    objects := Function.update s.objects s.fresh (some ⟨req.rest 108, 1⟩), fresh := s.fresh + 1 })
  have hreset : Function.update (Function.update s.objects s.fresh (some ⟨req.rest 108, 1⟩)) s.fresh
      (some ⟨req.rest 108, 0⟩) = Function.update s.objects s.fresh (some ⟨req.rest 108, 0⟩) :=
      Function.update_idem ..
  have hcreate := h.create (b := .blank) (z := ⟨req.rest 108, 0⟩) fun n hn => hn.reset
  rw [wp_bind, resetRefcount]
  refine wp_modifyObjects (Function.update s.objects s.fresh (some ⟨req.rest 108, 0⟩)) ?_ ?_
  · simp [Objects.find, bind, Except.bind]
  rw [reportResult, wp_bind, wp_bind, wp_get]
  refine wp_mono (pushMessageRouteT_tally hcreate (Nat.lt_succ_self _) hx hkey hne _)
    (fun ok t ht => ?_) fun _ h => h
  exact wp_ite (fun _ => wp_mono (respond_holding c req _ t) (fun _ _ hu => hu ht) fun _ h => h) fun _ =>
    wp_mono (respond_holding c req _ t) (fun _ _ hu => hu ht) fun _ h => h

theorem publishToChannel_tally (h : Tally P allEven s) (c : Ptr) (req : Request) (ch : Ptr) (topic : Name) :
    wp (publishToChannel c req ch topic) (fun _ t => Tally P allEven t) Fault.Any s := by
  rw [publishToChannel, wp_bind]
  refine (?_ : wp _ _ _ { s with
    objects := Function.update s.objects s.fresh (some ⟨req.rest 104, 1⟩), fresh := s.fresh + 1 })
  have hcreate := h.create (b := .held) (z := ⟨req.rest 104, 1⟩) fun n hn => hn.create
  rw [wp_bind]
  refine wp_mono (publishMessageChannelT_holding (P := P) (a := inHand s.fresh .held) ch topic _ _)
    (fun _ t ht => ?_) fun _ h => h
  rw [wp_bind]
  refine wp_decrement_any fun z hz => ?_
  have hleave := (ht hcreate).stand (d := .even) (w := z.dropped) hz fun n hn => z.map_dropped ▸ hn.leave
  rw [inHand_even] at hleave
  exact wp_mono (respond_holding c req _ _) (fun _ _ hu => hu hleave) fun _ h => h

end Steps

end EagleMQ
