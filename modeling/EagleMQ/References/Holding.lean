import EagleMQ.References

/-! The operations of the server that leave the standings of the objects alone: the
changes of settings and relations, the answers to clients, the operations on the
messages of a queue, and deliveries to subscribers. -/

namespace EagleMQ

open Prog Refcount

/-- The holders and the counts are as they were. -/
structure Unmoved (s t : EagleServer) : Prop where
  clients : ∀ c, (t.clientAt c).map EagleClient.responses = (s.clientAt c).map EagleClient.responses
  queues : ∀ q, (t.queueAt q).map QueueT.backlog = (s.queueAt q).map QueueT.backlog
  objects : t.objects = s.objects
  fresh : s.fresh ≤ t.fresh

instance : IsPreorder EagleServer Unmoved where
  refl _ := ⟨fun _ => rfl, fun _ => rfl, rfl, Nat.le_refl _⟩
  trans _ _ _ h h' := ⟨fun c => (h'.clients c).trans (h.clients c), fun q => (h'.queues q).trans (h.queues q),
    h'.objects.trans h.objects, Nat.le_trans h.fresh h'.fresh⟩

section Holding

variable {P : Prop} {a : Ptr → Standing} {s t : EagleServer} {c q r ch o m : Ptr} {x y : EagleClient}
  {z : Object} {data : List Byte}

theorem Still.unmoved (h : Still s t) : Unmoved s t where
  clients c := by
    have := congrArg (Option.map EagleClient.responses) (h.client c)
    rw [Option.map_map, Option.map_map] at this
    exact this
  queues q := by
    have := congrArg (Option.map QueueT.backlog) (h.queue q)
    rw [Option.map_map, Option.map_map] at this
    exact this
  objects := h.objects
  fresh := h.fresh

/-! ### Numbers of holders -/

theorem queueRefs_same (hb : Heap.Below s.queueAt s.fresh)
    (h : ∀ q, (t.queueAt q).map QueueT.backlog = (s.queueAt q).map QueueT.backlog)
    (hn : s.fresh ≤ t.fresh) (o : Ptr) :
    t.queueRefs o = s.queueRefs o := by
  refine Eq.trans (Heap.sum_congr fun q => ?_) (Heap.sum_grow hb hn)
  have := congrArg (Option.map fun b => Backlog.refs b o) (h q)
  rw [Option.map_map, Option.map_map] at this
  exact this

theorem clientRefs_same (hb : Heap.Below s.clientAt s.fresh)
    (h : ∀ c, (t.clientAt c).map EagleClient.responses = (s.clientAt c).map EagleClient.responses)
    (hn : s.fresh ≤ t.fresh) (o : Ptr) : t.clientRefs o = s.clientRefs o := by
  refine Eq.trans (Heap.sum_congr fun c => ?_) (Heap.sum_grow hb hn)
  have := congrArg (Option.map fun l => List.count o l) (h c)
  rw [Option.map_map, Option.map_map] at this
  exact this

theorem clientRefs_set (hb : Heap.Below s.clientAt s.fresh) (hx : s.clientAt c = some x)
    (ht : t.clientAt = Function.update s.clientAt c (some y)) (hn : s.fresh ≤ t.fresh) (o : Ptr) :
    t.clientRefs o + x.responses.count o = s.clientRefs o + y.responses.count o := by
  have hc : c < s.fresh := hb c (by simp [hx])
  unfold EagleServer.clientRefs
  rw [ht, Heap.sum_grow (hb.update (Nat.le_refl _) hc _) hn]
  exact Heap.sum_update_some hx hc

theorem queueRefs_set {x y : QueueT} (hb : Heap.Below s.queueAt s.fresh) (hx : s.queueAt q = some x)
    (ht : t.queueAt = Function.update s.queueAt q (some y)) (hn : s.fresh ≤ t.fresh) (o : Ptr) :
    t.queueRefs o + x.backlog.refs o = s.queueRefs o + y.backlog.refs o := by
  have hq : q < s.fresh := hb q (by simp [hx])
  unfold EagleServer.queueRefs
  rw [ht, Heap.sum_grow (hb.update (Nat.le_refl _) hq _) hn]
  exact Heap.sum_update_some hx hq

theorem refs_le_holders {x : QueueT} (hb : Heap.Below s.queueAt s.fresh) (hx : s.queueAt q = some x)
    (o : Ptr) : x.backlog.refs o ≤ s.holders o := by
  have : x.backlog.refs o ≤ s.queueRefs o :=
    Heap.le_sum (f := fun x : QueueT => x.backlog.refs o) hx (hb q (by simp [hx]))
  exact Nat.le_trans this (Nat.le_add_right _ _)

/-! ### Tallies -/

theorem Tally.unmoved (h : Tally P a s) (ht : Unmoved s t) : Tally P a t where
  clients := fun c hc => Nat.lt_of_lt_of_le
    (h.clients c fun hn => hc (by simpa [hn] using ht.clients c)) ht.fresh
  queues := fun q hq => Nat.lt_of_lt_of_le
    (h.queues q fun hn => hq (by simpa [hn] using ht.queues q)) ht.fresh
  objects := fun o ho => Nat.lt_of_lt_of_le (h.objects o (ht.objects ▸ ho)) ht.fresh
  messages q y hy := by
    have hq := ht.queues q
    rw [hy] at hq
    obtain ⟨x, hx, hxy⟩ := Option.map_eq_some_iff.mp hq.symm
    exact hxy ▸ h.messages q x hx
  above o ho := h.above o (Nat.le_trans ht.fresh ho)
  count o := by
    have hc := h.count o
    rwa [EagleServer.holders, ht.objects, queueRefs_same h.queues ht.queues ht.fresh,
      clientRefs_same h.clients ht.clients ht.fresh]

theorem Tally.fresh_none (h : Tally P a s) : s.objects s.fresh = none := h.objects.eq_none (Nat.le_refl _)

/-- What is known of the next object. -/
theorem Tally.count_fresh (h : Tally P a s) : Standing.Holds P .even none (s.holders s.fresh) := by
  have := h.count s.fresh
  rwa [h.above _ (Nat.le_refl _), countOf, h.fresh_none] at this

theorem Tally.responded (h : Tally P a s) (hx : s.clientAt c = some x) :
    Tally P a (s.responded c x data) := by
  have hc : c < s.fresh := h.clients c (by simp [hx])
  have hq : ∀ o, (s.responded c x data).queueRefs o = s.queueRefs o :=
    queueRefs_same h.queues (fun _ => rfl) (Nat.le_succ _)
  have hcl := clientRefs_set h.clients hx (t := s.responded c x data) rfl (Nat.le_succ _)
  refine ⟨h.clients.update (Nat.le_succ _) (Nat.lt_succ_of_lt hc) _,
    fun q hq => Nat.lt_succ_of_lt (h.queues q hq),
    h.objects.update (Nat.le_succ _) (Nat.lt_succ_self _) _, h.messages,
    fun o ho => h.above o (Nat.le_of_succ_le ho), ?_⟩
  refine count_update h.count ?_ fun p hp => ?_
  · rw [h.above _ (Nat.le_refl _)]
    have hfirst := h.count_fresh
    have hcount := hcl s.fresh
    unfold EagleClient.given at hcount
    split_ifs at hcount ⊢ with hreg
    · simp only [List.count_append, List.count_singleton_self] at hcount
      have hh : (s.responded c x data).holders s.fresh = s.holders s.fresh + 1 := by
        unfold EagleServer.holders
        rw [hq]
        omega
      rw [hh]
      exact hfirst.first
    · have hh : (s.responded c x data).holders s.fresh = s.holders s.fresh := by
        unfold EagleServer.holders
        rw [hq]
        omega
      rw [hh]
      exact hfirst
  · have hcount := hcl p
    unfold EagleServer.holders
    rw [hq]
    unfold EagleClient.given at hcount
    split_ifs at hcount
    · simp only [List.count_append, List.count_singleton, beq_iff_eq, Ne.symm hp, if_false] at hcount
      omega
    · omega

theorem Tally.shared (h : Tally P a s) (hx : s.clientAt c = some x) (hz : s.objects o = some z) :
    Tally P a (s.shared c x o z) := by
  have hc : c < s.fresh := h.clients c (by simp [hx])
  have ho : o < s.fresh := h.objects o (by simp [hz])
  have hcl := clientRefs_set h.clients hx (t := s.shared c x o z) rfl (Nat.le_refl _)
  have hcount := h.count o
  rw [countOf_some hz] at hcount
  refine ⟨h.clients.update (Nat.le_refl _) hc _, h.queues, h.objects.update (Nat.le_refl _) ho _,
    h.messages, h.above, ?_⟩
  refine count_update h.count ?_ fun p hp => ?_
  · have hco := hcl o
    unfold EagleClient.given at hco
    split_ifs at hco ⊢ with hreg h0
    · simp only [List.count_append, List.count_singleton_self] at hco
      have hh : (s.shared c x o z).holders o = s.holders o + 1 := by
        show s.queueRefs o + _ = s.queueRefs o + _ + 1
        omega
      rw [hh]
      exact hcount.take
    all_goals
      have hh : (s.shared c x o z).holders o = s.holders o := by
        show s.queueRefs o + _ = s.queueRefs o + _
        omega
      have htouch := hcount.touch
      rw [hh]
      simpa [Refcount.touch, h0] using htouch
  · have hco := hcl p
    show s.queueRefs p + _ = s.queueRefs p + _
    unfold EagleClient.given at hco
    split_ifs at hco
    · simp only [List.count_append, List.count_singleton, beq_iff_eq, Ne.symm hp, if_false] at hco
      omega
    · omega

/-! ### Settings and relations -/

theorem unmoved_holding {α : Type} {m : ServerM α} (h : Keeps Unmoved Fault.Any m) :
    Keeps (Holding P a) Fault.Any m :=
  fun s => wp_mono (h s) (fun _ _ ht hs => hs.unmoved ht) fun _ h => h

theorem still_holding {α : Type} {m : ServerM α} (h : Keeps Still Fault.Link m) :
    Keeps (Holding P a) Fault.Any m :=
  fun s => wp_mono (h s) (fun _ _ ht hs => hs.unmoved ht.unmoved) fun _ _ => trivial

theorem modify_unmoved {f : EagleServer → EagleServer} (hc : ∀ s, (f s).clientAt = s.clientAt)
    (hq : ∀ s, (f s).queueAt = s.queueAt) (ho : ∀ s, (f s).objects = s.objects)
    (hn : ∀ s, (f s).fresh = s.fresh) : Keeps Unmoved Fault.Any (modify f : ServerM Unit) :=
  keeps_modify _ fun s => ⟨fun c => by rw [hc], fun q => by rw [hq], ho s, Nat.le_of_eq (hn s).symm⟩

theorem unmoved_setClient {x y : EagleClient} (hx : s.clientAt c = some x) (hy : y.responses = x.responses) :
    Unmoved s (s.setClient c y) :=
  ⟨fun d => by
    by_cases hd : d = c
    · subst hd; simp [hx, hy]
    · simp [EagleServer.setClient, hd], fun _ => rfl, rfl, Nat.le_refl _⟩

theorem unmoved_setQueue {x y : QueueT} (hx : s.queueAt q = some x) (hy : y.backlog = x.backlog) :
    Unmoved s (s.setQueue q y) :=
  ⟨fun _ => rfl, fun p => by
    by_cases hp : p = q
    · subst hp; simp [hx, hy]
    · simp [EagleServer.setQueue, hp], rfl, Nat.le_refl _⟩

theorem modifyClient_unmoved {f : EagleClient → EagleClient} (hf : ∀ x, (f x).responses = x.responses) :
    Keeps Unmoved Fault.Any (modifyClient c f) := fun s => by
  cases hx : s.clientAt c with
  | none => simp [modifyClient, getClient, hx, Fault.Any]
  | some x => exact wp_modifyClient ⟨x, hx, unmoved_setClient hx (hf x)⟩

theorem modifyQueue_unmoved {f : QueueT → QueueT} (hf : ∀ x, (f x).backlog = x.backlog) :
    Keeps Unmoved Fault.Any (modifyQueue q f) := fun s => by
  cases hx : s.queueAt q with
  | none => simp [modifyQueue, getQueue, hx, Fault.Any]
  | some x => exact wp_modifyQueue ⟨x, hx, unmoved_setQueue hx (hf x)⟩

theorem lift_holding {α : Type} (x : Except Fault α) :
    Keeps (Holding P a) Fault.Any (Prog.lift x : ServerM α) :=
  keeps_lift fun _ _ => trivial

/-! ### Answers -/

theorem addResponse_holding (c : Ptr) (data : List Byte) :
    Keeps (Holding P a) Fault.Any (addResponse c data) := fun s => by
  cases hx : s.clientAt c with
  | none => simp [addResponse, createObject, setWriteEvent, getClient, hx, Fault.Any]
  | some x => exact wp_addResponse hx fun h => h.responded hx

theorem wp_increment_any {Q : Unit → EagleServer → Prop}
    (h : ∀ z, s.objects o = some z → z.refcount + 1 < 4294967296 → Q ()
      { s with objects := Function.update s.objects o (some { z with refcount := z.refcount + 1 }) }) :
    wp (incrementReferencesCount o) Q Fault.Any s := by
  rw [incrementReferencesCount, modifyObjects, wp_bind, wp_get, wp_bind]
  cases hi : Objects.incrementReferencesCount s.objects o with
  | error e => trivial
  | ok objects =>
    obtain ⟨z, hz, hwrap, rfl⟩ := increment_ok hi
    exact h z hz hwrap

theorem wp_decrement_any {Q : Unit → EagleServer → Prop}
    (h : ∀ z, s.objects o = some z → Q () { s with objects := Function.update s.objects o z.dropped }) :
    wp (decrementReferencesCount o) Q Fault.Any s := by
  rw [decrementReferencesCount, modifyObjects, wp_bind, wp_get, wp_bind]
  cases hd : Objects.decrementReferencesCount s.objects o with
  | error e => trivial
  | ok objects =>
    obtain ⟨z, hz, rfl⟩ := decrement_ok hd
    exact h z hz

theorem addObjectResponse_holding (c o : Ptr) :
    Keeps (Holding P a) Fault.Any (addObjectResponse c o) := fun s => by
  cases hx : s.clientAt c with
  | none =>
    rw [addObjectResponse, wp_bind]
    refine wp_increment_any fun z _ _ => ?_
    simp [setWriteEvent, getClient, hx, Fault.Any]
  | some x =>
    cases hi : Objects.incrementReferencesCount s.objects o with
    | error e => simp [addObjectResponse, incrementReferencesCount, modifyObjects, hi, Fault.Any]
    | ok objects =>
      obtain ⟨z, hz, hwrap, -⟩ := increment_ok hi
      exact wp_addObjectResponse hx hz hwrap fun h => h.shared hx hz

theorem addStatusResponse_holding (c : Ptr) (cmd status : Byte) :
    Keeps (Holding P a) Fault.Any (addStatusResponse c cmd status) :=
  keeps_bind getClient_any fun _ => keeps_ite (fun _ => addResponse_holding c _) fun _ => keeps_pure _

theorem respond_holding (c : Ptr) (req : Request) (status : Byte) :
    Keeps (Holding P a) Fault.Any (respond c req status) :=
  addStatusResponse_holding c _ _

theorem dataResponse_holding (c : Ptr) (req : Request) (body : List Byte) :
    Keeps (Holding P a) Fault.Any (dataResponse c req body) :=
  keeps_ite (fun _ => keeps_throw trivial) fun _ => addResponse_holding c _

/-! ### Messages of one queue -/

/-- The queue with other messages, and the objects that go with them. -/
def EagleServer.restock (s : EagleServer) (q : Ptr) (x : QueueT) (t : Stock) : EagleServer :=
  { s with queueAt := Function.update s.queueAt q (some { x with backlog := t.backlog }), objects := t.objects }

/-- The holders outside of a queue. -/
def EagleServer.outside (s : EagleServer) (x : QueueT) (o : Ptr) : ℕ := s.holders o - x.backlog.refs o

theorem Tally.stock {x : QueueT} (h : Tally P a s) (hx : s.queueAt q = some x) :
    Stock.Tally P a s.fresh (s.outside x) ⟨x.backlog, s.objects⟩ := by
  refine ⟨h.messages q x hx, h.objects, fun o => ?_⟩
  have hle := refs_le_holders h.queues hx o
  have := h.count o
  rwa [← Nat.add_sub_cancel' hle] at this

theorem Tally.restock {x : QueueT} {a' : Ptr → Standing} {t : Stock} (h : Tally P a s)
    (hx : s.queueAt q = some x)
    (ha : ∀ o, s.fresh ≤ o → a' o = .even) (ht : Stock.Tally P a' s.fresh (s.outside x) t) :
    Tally P a' (s.restock q x t) := by
  have hset := queueRefs_set h.queues hx (t := s.restock q x t) rfl (Nat.le_refl _)
  refine ⟨h.clients, h.queues.update (Nat.le_refl _) (h.queues q (by simp [hx])) _, ht.objects,
    fun p y hy => ?_,
    ha, fun o => ?_⟩
  · by_cases hp : p = q
    · subst hp
      obtain rfl : { x with backlog := t.backlog } = y := by simpa [EagleServer.restock] using hy
      exact ht.messages
    · exact h.messages p y (by simpa [EagleServer.restock, hp] using hy)
  · have hle := refs_le_holders h.queues hx o
    have hcount := ht.count o
    have hh : (s.restock q x t).holders o = t.backlog.refs o + s.outside x o := by
      have := hset o
      dsimp only at this
      unfold EagleServer.outside
      have hcl : (s.restock q x t).clientRefs o = s.clientRefs o := rfl
      unfold EagleServer.holders at hle ⊢
      omega
    rwa [hh]

theorem withStock_holding {α : Type} {m : StockM α} (hm : Keeps (Stock.Keeping P a) Fault.Any m) (q : Ptr) :
    Keeps (Holding P a) Fault.Any (withStock q m) := fun s => by
  cases hx : s.queueAt q with
  | none => simp [wp, withStock, hx, Fault.Any]
  | some x =>
    refine wp_withStock hx (wp_mono (hm _) (fun _ t ht h => ?_) fun _ h => h)
    exact h.restock hx h.above (ht _ _ (h.stock hx))

/-! ### Deliveries -/

theorem message_holding (q m : Ptr) : Keeps (Holding P a) Fault.Any (withStock q (Stock.message m)) :=
  withStock_holding Stock.message_local q

theorem queueClientEventNotify_holding (c q : Ptr) :
    Keeps (Holding P a) Fault.Any (queueClientEventNotify c q) :=
  keeps_bind getQueue_any fun _ => keeps_bind (lift_holding _) fun _ => addResponse_holding c _

theorem queueClientEventMessage_holding (c q m : Ptr) :
    Keeps (Holding P a) Fault.Any (queueClientEventMessage c q m) :=
  keeps_bind (message_holding q m) fun _ => keeps_bind (objectSize_any _) fun _ =>
    keeps_bind getQueue_any fun _ =>
    keeps_bind (lift_holding _) fun _ => keeps_bind (addResponse_holding c _) fun _ =>
      addObjectResponse_holding c _

theorem serveSubscribedClients_holding (q m : Ptr) :
    Keeps (Holding P a) Fault.Any (serveSubscribedClients q m) := by
  refine keeps_bind getQueue_any fun x => keeps_ite (fun _ => keeps_ite (fun _ => ?_) fun _ => ?_)
    fun _ => keeps_pure _
  · refine keeps_bind (unmoved_holding (modifyQueue_unmoved fun _ => rfl)) fun _ =>
      keeps_bind getQueue_any fun y => ?_
    cases y.subscribedClientsMsg.head? with
    | none => exact keeps_throw trivial
    | some c => exact queueClientEventMessage_holding c q m
  · exact keeps_forM (fun c => queueClientEventMessage_holding c q m) _

theorem processSubscribedClients_holding (q m : Ptr) :
    Keeps (Holding P a) Fault.Any (processSubscribedClients q m) :=
  keeps_bind getQueue_any fun _ => keeps_bind (serveSubscribedClients_holding q m) fun _ =>
    keeps_bind (keeps_forM (fun c => queueClientEventNotify_holding c q) _) fun _ => keeps_pure _

theorem enqueueMessage_holding (q m : Ptr) : Keeps (Holding P a) Fault.Any (enqueueMessage q m) := by
  have hstore : Keeps (Holding P a) Fault.Any (do withStock q (Stock.storeMessage m); pure true) :=
    keeps_bind (withStock_holding (Stock.keeping_local.storeMessage m) q) fun _ => keeps_pure _
  exact keeps_bind getQueue_any fun _ => keeps_ite (fun _ => keeps_ite (fun _ => keeps_bind keeps_get fun _ =>
    keeps_bind (withStock_holding (Stock.popMessageQueueT_keeping _ 0) q) fun _ => hstore)
      fun _ => keeps_pure _)
    fun _ => hstore

theorem messageResponse_holding (c : Ptr) (req : Request) (q m : Ptr) :
    Keeps (Holding P a) Fault.Any (messageResponse c req q m) :=
  keeps_bind (message_holding q m) fun _ => keeps_bind (objectSize_any _) fun _ =>
    keeps_bind (addResponse_holding c _) fun _ => addObjectResponse_holding c _

theorem getMessageQueueT_holding (q : Ptr) :
    Keeps (Holding P a) Fault.Any (withStock q Stock.getMessageQueueT) :=
  withStock_holding (keeps_bind keeps_get fun _ => keeps_lift fun _ _ => trivial) q

theorem getFromQueue_holding (c : Ptr) (req : Request) (q : Ptr) :
    Keeps (Holding P a) Fault.Any (getFromQueue c req q) :=
  keeps_bind (getMessageQueueT_holding q) fun m => by
    cases m with
    | none => exact respond_holding c req _
    | some m => exact messageResponse_holding c req q m

theorem popFromQueue_holding (c : Ptr) (req : Request) (q : Ptr) :
    Keeps (Holding P a) Fault.Any (popFromQueue c req q) :=
  keeps_bind (getMessageQueueT_holding q) fun m => by
    cases m with
    | none => exact respond_holding c req _
    | some m =>
      exact keeps_bind (messageResponse_holding c req q m) fun _ => keeps_bind keeps_get fun _ =>
        withStock_holding (Stock.popMessageQueueT_keeping _ _) q

theorem confirmInQueue_holding (c : Ptr) (req : Request) (q : Ptr) :
    Keeps (Holding P a) Fault.Any (confirmInQueue c req q) :=
  keeps_bind (withStock_holding (Stock.keeping_local.confirmMessageQueueT _) q) fun _ =>
    keeps_ite (fun _ => respond_holding c req _) fun _ => respond_holding c req _

/-! ### Publishing -/

theorem channelClientEventMessage_holding (c ch : Ptr) (topic : Name) (msg : Ptr) :
    Keeps (Holding P a) Fault.Any (channelClientEventMessage c ch topic msg) :=
  keeps_bind (objectSize_any _) fun _ => keeps_bind getChannel_any fun _ =>
    keeps_bind (lift_holding _) fun _ =>
    keeps_bind (addResponse_holding c _) fun _ => addObjectResponse_holding c _

theorem channelClientEventPatternMessage_holding (c ch : Ptr) (topic pattern : Name) (msg : Ptr) :
    Keeps (Holding P a) Fault.Any (channelClientEventPatternMessage c ch topic pattern msg) :=
  keeps_bind (objectSize_any _) fun _ => keeps_bind getChannel_any fun _ =>
    keeps_bind (lift_holding _) fun _ =>
    keeps_bind (addResponse_holding c _) fun _ => addObjectResponse_holding c _

theorem publishMessageChannelT_holding (ch : Ptr) (topic : Name) (msg : Ptr) :
    Keeps (Holding P a) Fault.Any (publishMessageChannelT ch topic msg) := by
  have htopic : ∀ node, Keeps (Holding P a) Fault.Any (publishTopic ch node topic msg) := fun node => by
    refine keeps_bind getChannel_any fun x => keeps_ite (fun _ => ?_) fun _ =>
      keeps_forM (fun c => channelClientEventMessage_holding c ch topic msg) _
    refine keeps_bind (still_holding modifyChannel_still) fun _ => keeps_bind getChannel_any fun y => ?_
    cases (y.topics.values node).head? with
    | none => exact keeps_throw trivial
    | some c => exact channelClientEventMessage_holding c ch topic msg
  refine keeps_bind getChannel_any fun x => ?_
  have hpatterns : Keeps (Holding P a) Fault.Any (x.patterns.forM (publishPattern ch topic msg)) :=
    keeps_forM (fun k => keeps_bind (lift_holding _) fun _ => keeps_ite
      (fun _ => keeps_forM (fun c => channelClientEventPatternMessage_holding c ch topic k.1.2 msg) _)
      fun _ => keeps_pure _) _
  cases findNode x.topics topic with
  | none => exact hpatterns
  | some node => exact keeps_bind (htopic node) fun _ => hpatterns

end Holding

end EagleMQ
