import EagleMQ.Links.Answers

/-! Relations that the operations below the handlers uphold. A relation between
states that is upheld by each change of a record, by each event that is sent and
by each operation on messages is upheld by everything that is built from these:
subscriptions, deliveries, and the ends of queues, routes, channels and clients. -/

namespace EagleMQ

open Prog

/-- Every fault is allowed: only what a finished operation has done counts. -/
abbrev Fault.Any (_ : Fault) : Prop := True

/-- A route without its keys. -/
def RouteT.bare (x : RouteT) : RouteT := { x with keys := [] }

/-- A channel without its subscribers. -/
def ChannelT.bare (x : ChannelT) : ChannelT := { x with topics := [], patterns := [] }

structure Upheld (R : EagleServer → EagleServer → Prop) : Prop where
  client : ∀ s c x y, s.clientAt c = some x → y.bare = x.bare → R s (s.setClient c y)
  queue : ∀ s q x y, s.queueAt q = some x → y.bare = x.bare → R s (s.setQueue q y)
  /-- Keys go, or are served in another order. -/
  route : ∀ s r x y, s.routeAt r = some x → y.bare = x.bare → y.keys.keys ⊆ x.keys.keys → R s (s.setRoute r y)
  channel : ∀ s ch x y, s.channelAt ch = some x → y.bare = x.bare → R s (s.setChannel ch y)
  freeQueue : ∀ q, Keeps R Fault.Any do
    withStock q Stock.releaseQueue
    modify fun s => s.freeQueue q
  freeRoute : ∀ s r, R s (s.freeRoute r)
  freeChannel : ∀ s ch, R s (s.freeChannel ch)
  delistQueue : ∀ s q, R s { s with queues := s.queues.erase q }
  delistRoute : ∀ s r, R s { s with routes := s.routes.erase r }
  delistChannel : ∀ s ch, R s { s with channels := s.channels.erase ch }
  fresh : ∀ s, R s { s with fresh := s.fresh + 1 }
  increment : ∀ o, Keeps R Fault.Any (incrementReferencesCount o)
  decrement : ∀ o, Keeps R Fault.Any (decrementReferencesCount o)
  channelMessage : ∀ c ch topic msg, Keeps R Fault.Any (channelClientEventMessage c ch topic msg)
  patternMessage : ∀ c ch topic pattern msg,
    Keeps R Fault.Any (channelClientEventPatternMessage c ch topic pattern msg)

theorem Upheld.mono {R R' : EagleServer → EagleServer → Prop} (h : Upheld R) (hR : ∀ s t, R s t → R' s t) :
    Upheld R' := by
  have hkeeps : ∀ {α : Type} {m : ServerM α}, Keeps R Fault.Any m → Keeps R' Fault.Any m := fun hm s =>
    wp_mono (hm s) (fun _ _ ht => hR _ _ ht) fun _ h => h
  exact
    { client := fun s c x y hx hy => hR _ _ (h.client s c x y hx hy)
      queue := fun s q x y hx hy => hR _ _ (h.queue s q x y hx hy)
      route := fun s r x y hx hy hk => hR _ _ (h.route s r x y hx hy hk)
      channel := fun s ch x y hx hy => hR _ _ (h.channel s ch x y hx hy)
      freeQueue := fun q => hkeeps (h.freeQueue q)
      freeRoute := fun s r => hR _ _ (h.freeRoute s r)
      freeChannel := fun s ch => hR _ _ (h.freeChannel s ch)
      delistQueue := fun s q => hR _ _ (h.delistQueue s q)
      delistRoute := fun s r => hR _ _ (h.delistRoute s r)
      delistChannel := fun s ch => hR _ _ (h.delistChannel s ch)
      fresh := fun s => hR _ _ (h.fresh s)
      increment := fun o => hkeeps (h.increment o)
      decrement := fun o => hkeeps (h.decrement o)
      channelMessage := fun c ch topic msg => hkeeps (h.channelMessage c ch topic msg)
      patternMessage := fun c ch topic pattern msg => hkeeps (h.patternMessage c ch topic pattern msg) }

section Upheld

variable {R : EagleServer → EagleServer → Prop} [IsPreorder EagleServer R] {s t : EagleServer}
    {c q r ch : Ptr}

/-! ### Records -/

theorem getClient_any : Keeps R Fault.Any (getClient c) := by
  refine keeps_bind keeps_get fun s => ?_
  cases s.clientAt c with
  | none => exact keeps_throw trivial
  | some x => exact keeps_pure x

theorem getQueue_any : Keeps R Fault.Any (getQueue q) := by
  refine keeps_bind keeps_get fun s => ?_
  cases s.queueAt q with
  | none => exact keeps_throw trivial
  | some x => exact keeps_pure x

theorem getRoute_any : Keeps R Fault.Any (getRoute r) := by
  refine keeps_bind keeps_get fun s => ?_
  cases s.routeAt r with
  | none => exact keeps_throw trivial
  | some x => exact keeps_pure x

theorem getChannel_any : Keeps R Fault.Any (getChannel ch) := by
  refine keeps_bind keeps_get fun s => ?_
  cases s.channelAt ch with
  | none => exact keeps_throw trivial
  | some x => exact keeps_pure x

theorem objectSize_any (o : Ptr) : Keeps R Fault.Any (objectSize o) :=
  keeps_bind keeps_get fun _ => keeps_bind (keeps_lift fun _ _ => trivial) fun _ => keeps_pure _

/-! ### Saves and flushes -/

theorem background_keeps (hchild : ∀ s, R s { s with child := true }) :
    Keeps R Fault.Any storageSaveBackground := fun s => by
  rw [storageSaveBackground, wp_bind, wp_get]
  exact wp_ite (fun _ => keeps_pure (R := R) _ s) fun _ => wp_ite (fun _ => hchild s) fun _ =>
    keeps_pure (R := R) _ s

/-- A save answers once or twice. -/
theorem saveData_keeps [Lzf] {req : Request} (hchild : ∀ s, R s { s with child := true })
    (hr : ∀ status, Keeps R Fault.Any (respond c req status)) (async : Bool) :
      Keeps R Fault.Any (saveData c req async) := by
  have hend : ∀ ok : Bool, Keeps R Fault.Any (do
      if !ok then respond c req Status.error
      respond c req Status.success : ServerM Unit) := fun ok => keeps_ite
    (fun _ => keeps_bind (hr _) fun _ => hr _) fun _ => hr _
  refine keeps_ite (fun _ => keeps_bind (background_keeps hchild) hend) fun _ => keeps_bind ?_ hend
  exact keeps_bind keeps_get fun s => keeps_ite (fun _ => keeps_bind (keeps_lift fun _ _ => trivial)
    fun _ => keeps_pure _) fun _ => keeps_pure _

theorem storageTimeouts_keeps (hchild : ∀ s b, R s { s with child := b })
    (hsave : ∀ s, R s { s with lastSave := s.nowTime }) : Keeps R Fault.Any storageTimeouts := by
  refine keeps_bind (keeps_modify _ fun s => ?_) fun _ => keeps_bind keeps_get fun _ => keeps_ite
    (fun _ => keeps_bind (background_keeps (hchild · true)) fun _ => keeps_modify _ hsave) fun _ =>
    keeps_pure _
  split_ifs
  · exact hchild s false
  · exact Std.Refl.refl s

theorem flushData_keeps {req : Request} {flags : ℕ} (hu : Keeps R Fault.Any deleteUsers)
    (hq : bitCheck flags 1 = true → Keeps R Fault.Any deleteQueues) (hr : Keeps R Fault.Any deleteRoutes)
    (hc : Keeps R Fault.Any deleteChannels) (hend : Keeps R Fault.Any (respond c req Status.success)) :
    Keeps R Fault.Any (flushData c req flags) := by
  have hwhen : ∀ {b : Bool} {m k : ServerM Unit}, (b = true → Keeps R Fault.Any m) → Keeps R Fault.Any k →
      Keeps R Fault.Any (do
        if b then m
        k) := fun hm hk => keeps_ite (fun hb => keeps_bind (hm hb) fun _ => hk) fun _ => hk
  exact hwhen (fun _ => hu) (hwhen hq (hwhen (fun _ => hr) (hwhen (fun _ => hc) hend)))

theorem dropEmpty_keeps (hdrop : Keeps R Fault.Any (dropResponse c)) : ∀ l, Keeps R Fault.Any (dropEmpty c l)
  | [] => keeps_pure _
  | o :: l => keeps_bind (objectSize_any o) fun _ => keeps_ite
      (fun _ => keeps_bind hdrop fun _ => dropEmpty_keeps hdrop l) fun _ => keeps_pure _

/-- `send_response` keeps what its parts keep. -/
theorem sendResponse_keeps (hfinish : ∀ sent, Keeps R Fault.Any (finishSend c sent))
    (hdrop : Keeps R Fault.Any (dropResponse c))
    (hsent : ∀ f : EagleClient → ℕ, Keeps R Fault.Any (modifyClient c fun x => { x with sentlen := f x }))
    (hfree : Keeps R Fault.Any (freeClient c)) (ws : List Written) :
      ∀ sent, Keeps R Fault.Any (sendResponse c sent ws) := by
  induction ws with
  | nil =>
    exact fun sent => keeps_bind getClient_any fun _ => keeps_bind (dropEmpty_keeps hdrop _) fun _ =>
      hfinish sent
  | cons w ws ih =>
    intro sent
    refine keeps_bind getClient_any fun _ => keeps_bind (dropEmpty_keeps hdrop _) fun _ =>
      keeps_bind getClient_any fun x => ?_
    split
    · exact hfinish sent
    · exact hfinish sent
    · exact hfree
    · refine keeps_bind (objectSize_any _) fun _ => keeps_ite (fun _ => hfinish sent) fun _ => keeps_ite
        (fun _ => ?_) fun _ => keeps_bind (hsent _) fun _ => ih true
      exact keeps_bind hdrop fun _ => keeps_bind (hsent _) fun _ => ih true

variable (h : Upheld R)

include h

omit [IsPreorder EagleServer R] in
theorem modifyClient_upheld {f : EagleClient → EagleClient} (hf : ∀ x, (f x).bare = x.bare) :
    Keeps R Fault.Any (modifyClient c f) := fun s => by
  cases hx : s.clientAt c with
  | none => simp [modifyClient, getClient, hx, Fault.Any]
  | some x => exact wp_modifyClient ⟨x, hx, h.client s c x _ hx (hf x)⟩

omit [IsPreorder EagleServer R] in
theorem modifyQueue_upheld {f : QueueT → QueueT} (hf : ∀ x, (f x).bare = x.bare) :
    Keeps R Fault.Any (modifyQueue q f) := fun s => by
  cases hx : s.queueAt q with
  | none => simp [modifyQueue, getQueue, hx, Fault.Any]
  | some x => exact wp_modifyQueue ⟨x, hx, h.queue s q x _ hx (hf x)⟩

omit [IsPreorder EagleServer R] in
theorem modifyRoute_upheld {f : RouteT → RouteT}
    (hf : ∀ x, (f x).bare = x.bare ∧ (f x).keys.keys ⊆ x.keys.keys) :
    Keeps R Fault.Any (modifyRoute r f) := fun s => by
  cases hx : s.routeAt r with
  | none => simp [modifyRoute, getRoute, hx, Fault.Any]
  | some x => exact wp_modifyRoute ⟨x, hx, h.route s r x _ hx (hf x).1 (hf x).2⟩

omit [IsPreorder EagleServer R] in
theorem modifyChannel_upheld {f : ChannelT → ChannelT} (hf : ∀ x, (f x).bare = x.bare) :
    Keeps R Fault.Any (modifyChannel ch f) := fun s => by
  cases hx : s.channelAt ch with
  | none => simp [modifyChannel, getChannel, hx, Fault.Any]
  | some x => exact wp_modifyChannel ⟨x, hx, h.channel s ch x _ hx (hf x)⟩

/-! ### Queues and their clients -/

theorem declareClientQueueT_upheld : Keeps R Fault.Any (declareClientQueueT q c) :=
  keeps_bind (modifyClient_upheld h fun _ => rfl) fun _ => modifyQueue_upheld h fun _ => rfl

theorem undeclareClientQueueT_upheld : Keeps R Fault.Any (undeclareClientQueueT q c) :=
  keeps_bind (modifyClient_upheld h fun _ => rfl) fun _ => modifyQueue_upheld h fun _ => rfl

theorem subscribeClientQueueT_upheld (flags : ℕ) : Keeps R Fault.Any (subscribeClientQueueT q c flags) :=
  keeps_bind (modifyClient_upheld h fun _ => rfl) fun _ => keeps_ite
    (fun _ => modifyQueue_upheld h fun _ => rfl) fun _ => modifyQueue_upheld h fun _ => rfl

theorem unsubscribeClientQueueT_upheld : Keeps R Fault.Any (unsubscribeClientQueueT q c) :=
  keeps_bind (modifyClient_upheld h fun _ => rfl) fun _ => modifyQueue_upheld h fun x => by
    split_ifs <;> rfl

/-! ### Routes -/

omit [IsPreorder EagleServer R] in
theorem unlinkQueueRouteT_upheld (key : Name) : Keeps R Fault.Any (unlinkQueueRouteT q r key) :=
  modifyQueue_upheld h fun _ => rfl

omit [IsPreorder EagleServer R] in
theorem linkQueueRouteT_upheld (key : Name) : Keeps R Fault.Any (linkQueueRouteT q r key) :=
  modifyQueue_upheld h fun x => by split_ifs <;> rfl

theorem deleteRouteT_upheld : Keeps R Fault.Any (deleteRouteT r) :=
  keeps_bind getRoute_any fun _ => keeps_bind
    (keeps_forM (fun _ => keeps_forM (fun _ => unlinkQueueRouteT_upheld h _) _) _) fun _ =>
      keeps_modify _ fun s => h.freeRoute s r

theorem listDeleteRoute_upheld : Keeps R Fault.Any (listDeleteRoute r) :=
  keeps_bind keeps_get fun _ => keeps_ite (fun _ => keeps_bind (keeps_modify _ fun s => h.delistRoute s r)
    fun _ => keeps_bind (deleteRouteT_upheld h) fun _ => keeps_pure _) fun _ => keeps_pure _

theorem unbindRouteT_upheld (key : Name) : Keeps R Fault.Any (unbindRouteT r q key) :=
  keeps_bind getRoute_any fun _ => keeps_ite (fun _ => keeps_bind
    (modifyRoute_upheld h fun _ => ⟨rfl, (Keylist.keys_remove_sublist ..).subset⟩) fun _ =>
      keeps_bind (unlinkQueueRouteT_upheld h key) fun _ => keeps_bind getRoute_any fun _ => keeps_ite
        (fun _ => keeps_bind (listDeleteRoute_upheld h) fun _ => keeps_pure _) fun _ => keeps_pure _)
    fun _ => keeps_pure _

theorem ejectRoutesQueueT_upheld : Keeps R Fault.Any (ejectRoutesQueueT q) :=
  keeps_foreach (keeps_bind getQueue_any fun _ => keeps_pure _) trivial fun key =>
    keeps_foreach (keeps_bind getQueue_any fun _ => keeps_pure _) trivial fun _ =>
      keeps_bind (unbindRouteT_upheld h key) fun _ => keeps_pure _

/-! ### The end of a queue -/

theorem ejectClientsQueueT_upheld : Keeps R Fault.Any (ejectClientsQueueT q) := by
  have hread : ∀ {α : Type} (f : QueueT → α), Keeps R Fault.Any (do pure (f (← getQueue q))) :=
    fun f => keeps_bind getQueue_any fun _ => keeps_pure _
  refine keeps_bind (keeps_foreach (hread _) trivial fun _ => undeclareClientQueueT_upheld h) fun _ =>
    keeps_bind (keeps_foreach (hread _) trivial fun _ => ?_) fun _ =>
      keeps_foreach (hread _) trivial fun _ => ?_
  · exact keeps_bind (modifyClient_upheld h fun _ => rfl) fun _ => modifyQueue_upheld h fun _ => rfl
  · exact keeps_bind (modifyClient_upheld h fun _ => rfl) fun _ => modifyQueue_upheld h fun _ => rfl

theorem deleteQueueT_upheld : Keeps R Fault.Any (deleteQueueT q) :=
  keeps_bind (ejectClientsQueueT_upheld h) fun _ => keeps_bind (ejectRoutesQueueT_upheld h) fun _ =>
    h.freeQueue q

theorem listDeleteQueue_upheld : Keeps R Fault.Any (listDeleteQueue q) :=
  keeps_bind keeps_get fun _ => keeps_ite (fun _ => keeps_bind (keeps_modify _ fun s => h.delistQueue s q)
    fun _ => keeps_bind (deleteQueueT_upheld h) fun _ => keeps_pure _) fun _ => keeps_pure _

theorem processQueueT_upheld : Keeps R Fault.Any (processQueueT q) :=
  keeps_bind getQueue_any fun _ => keeps_ite
    (fun _ => keeps_bind (listDeleteQueue_upheld h) fun _ => keeps_pure _) fun _ => keeps_pure _

/-! ### Deliveries -/

omit [IsPreorder EagleServer R] in
/-- A rotation keeps the keys of the route as they are. -/
theorem rotateRoute_upheld (key : Name) {x : RouteT} (hx : s.routeAt r = some x) (hkey : key ∈ x.keys.keys) :
    wp (modifyRoute r fun x => { x with keys := x.keys.set key (listRotate (x.keys.values key)) })
      (fun _ t => R s t) Fault.Any s := by
  refine wp_modifyRoute ⟨x, hx, h.route s r x _ hx rfl fun k hk => ?_⟩
  rw [Keylist.keys_set, if_pos hkey] at hk
  exact hk

theorem pushMessageRouteT_upheld (key : Name) (msg expiration : ℕ)
    (hq : ∀ q, Keeps R Fault.Any (pushMessageQueueT q msg expiration)) :
    Keeps R Fault.Any (pushMessageRouteT r key msg expiration) := fun s => by
  have hpush : ∀ (q : Ptr) (f : Bool → Bool), Keeps R Fault.Any (do
      let ok ← pushMessageQueueT q msg expiration
      incrementReferencesCount msg
      pure (f ok)) := fun q f =>
    keeps_bind (hq q) fun ok => keeps_bind (h.increment msg) fun _ => keeps_pure _
  cases hx : s.routeAt r with
  | none => simp [pushMessageRouteT, getRoute, hx, Fault.Any]
  | some x =>
    rw [pushMessageRouteT, wp_bind, wp_getRoute hx]
    refine wp_ite (fun hkey => wp_ite (fun _ => ?_) fun _ => ?_) fun _ => Std.Refl.refl s
    · refine wp_bind_trans (rotateRoute_upheld h key hx hkey) fun _ t _ => ?_
      refine (keeps_bind getRoute_any fun y => ?_ : Keeps R Fault.Any _) t
      cases (y.keys.values key).head? with
      | none => exact keeps_throw trivial
      | some q => exact hpush q id
    · exact wp_foldlM_trans fun q _ status t _ => hpush q (fun ok => status && ok) t

theorem publishMessageChannelT_upheld (topic : Name) (msg : Ptr) :
    Keeps R Fault.Any (publishMessageChannelT ch topic msg) := by
  have htopic : ∀ node, Keeps R Fault.Any (publishTopic ch node topic msg) := fun node => by
    refine keeps_bind getChannel_any fun x => keeps_ite (fun _ => ?_) fun _ =>
      keeps_forM (fun c => h.channelMessage c ch topic msg) _
    refine keeps_bind (modifyChannel_upheld h fun _ => rfl) fun _ => keeps_bind getChannel_any fun y => ?_
    cases (y.topics.values node).head? with
    | none => exact keeps_throw trivial
    | some c => exact h.channelMessage c ch topic msg
  refine keeps_bind getChannel_any fun x => ?_
  have hpatterns : Keeps R Fault.Any (x.patterns.forM (publishPattern ch topic msg)) :=
    keeps_forM (fun k => keeps_bind (keeps_lift fun _ _ => trivial) fun _ => keeps_ite
      (fun _ => keeps_forM (fun c => h.patternMessage c ch topic k.1.2 msg) _) fun _ => keeps_pure _) _
  cases findNode x.topics topic with
  | none => exact hpatterns
  | some node => exact keeps_bind (htopic node) fun _ => hpatterns

/-! ### Channels -/

theorem subscribeSide_upheld (d : Side) (name : Name) : Keeps R Fault.Any (subscribeSide d ch c name) := by
  have hlink : ∀ node, Keeps R Fault.Any (linkSide d ch c node) := fun node =>
    keeps_bind (modifyChannel_upheld h fun _ => by cases d <;> rfl) fun _ =>
      modifyClient_upheld h fun x => by split_ifs <;> cases d <;> rfl
  refine keeps_bind getChannel_any fun x => ?_
  cases findNode (x.side d) name with
  | none =>
    exact keeps_bind keeps_get fun _ => keeps_bind (keeps_modify _ fun s => h.fresh s) fun _ => hlink _
  | some node => exact keeps_ite (fun _ => keeps_pure _) fun _ => hlink node

theorem unsubscribeWith_upheld {destroy : Ptr → ServerM Unit} (hd : ∀ ch, Keeps R Fault.Any (destroy ch))
    (d : Side) (name : Name) : Keeps R Fault.Any (unsubscribeWith destroy d ch c name) := by
  refine keeps_bind getChannel_any fun x => ?_
  cases findNode (x.side d) name with
  | none => exact keeps_pure _
  | some node =>
    exact keeps_bind (modifyChannel_upheld h fun _ => by cases d <;> rfl) fun _ =>
      keeps_bind (modifyClient_upheld h fun _ => by cases d <;> rfl) fun _ =>
        keeps_bind getChannel_any fun _ =>
        keeps_ite (fun _ => keeps_bind (keeps_bind keeps_get fun _ => keeps_ite
          (fun _ => keeps_bind (keeps_modify _ fun s => h.delistChannel s ch) fun _ =>
            keeps_bind (hd ch) fun _ => keeps_pure _) fun _ => keeps_pure _) fun _ => keeps_pure _)
          fun _ => keeps_pure _

theorem destroyChannelT_upheld (n : ℕ) : ∀ ch, Keeps R Fault.Any (destroyChannelT n ch) := by
  induction n with
  | zero => exact fun _ => keeps_throw trivial
  | succ n ih =>
    have hside : ∀ d ch, Keeps R Fault.Any (ejectSide (destroyChannelT n) d ch) := fun d ch =>
      keeps_foreach (keeps_bind getChannel_any fun _ => keeps_pure _) trivial fun node =>
        keeps_foreach (keeps_bind getChannel_any fun _ => keeps_pure _) trivial fun _ =>
          keeps_bind (unsubscribeWith_upheld h ih d node.2) fun _ => keeps_pure _
    exact fun ch => keeps_bind (hside _ ch) fun _ => keeps_bind (hside _ ch) fun _ =>
      keeps_bind getChannel_any fun _ => keeps_modify _ fun s => h.freeChannel s ch

theorem deleteChannelT_upheld (ch : Ptr) : Keeps R Fault.Any (deleteChannelT ch) :=
  keeps_bind keeps_get fun _ => destroyChannelT_upheld h _ ch

theorem listDeleteChannel_upheld : Keeps R Fault.Any (listDeleteChannel ch) :=
  keeps_bind keeps_get fun _ => keeps_ite (fun _ => keeps_bind (keeps_modify _ fun s => h.delistChannel s ch)
    fun _ => keeps_bind (deleteChannelT_upheld h ch) fun _ => keeps_pure _) fun _ => keeps_pure _

theorem unsubscribeSide_upheld (d : Side) (name : Name) : Keeps R Fault.Any (unsubscribeSide d ch c name) :=
  unsubscribeWith_upheld h (deleteChannelT_upheld h) d name

/-! ### Flushes and the end of a connection -/

theorem deleteQueues_upheld : Keeps R Fault.Any deleteQueues :=
  keeps_foreach (keeps_bind keeps_get fun _ => keeps_pure _) trivial fun _ =>
    keeps_bind (listDeleteQueue_upheld h) fun _ => keeps_pure _

theorem deleteRoutes_upheld : Keeps R Fault.Any deleteRoutes :=
  keeps_foreach (keeps_bind keeps_get fun _ => keeps_pure _) trivial fun _ =>
    keeps_bind (listDeleteRoute_upheld h) fun _ => keeps_pure _

theorem deleteChannels_upheld : Keeps R Fault.Any deleteChannels :=
  keeps_foreach (keeps_bind keeps_get fun _ => keeps_pure _) trivial fun _ =>
    keeps_bind (listDeleteChannel_upheld h) fun _ => keeps_pure _

theorem freeClient_upheld (hfree : ∀ s, R s { s with
    clients := s.clients.erase c, clientAt := Function.update s.clientAt c none }) :
    Keeps R Fault.Any (freeClient c) := by
  have hread : ∀ {α : Type} (f : EagleClient → α), Keeps R Fault.Any (do pure (f (← getClient c))) :=
    fun f => keeps_bind getClient_any fun _ => keeps_pure _
  have hside : ∀ d, Keeps R Fault.Any (ejectChannelClientSide d c) := fun d =>
    keeps_foreach (hread _) trivial fun ch => keeps_foreach (hread _) trivial fun node =>
      keeps_bind getChannel_any fun _ => keeps_ite
        (fun _ => keeps_bind (unsubscribeSide_upheld h d _) fun _ => keeps_pure _) fun _ =>
        keeps_throw trivial
  refine keeps_bind (keeps_bind (keeps_foreach (hread _) trivial fun _ => unsubscribeClientQueueT_upheld h)
    fun _ => keeps_foreach (hread _) trivial fun _ =>
      keeps_bind (undeclareClientQueueT_upheld h) fun _ => processQueueT_upheld h) fun _ => ?_
  exact keeps_bind (keeps_bind (hside _) fun _ => hside _) fun _ => keeps_bind getClient_any fun _ =>
    keeps_bind (keeps_forM h.decrement _) fun _ => keeps_modify _ hfree

/-! ### Connections -/

theorem acceptClient_upheld (hcreate : ∀ fd, Keeps R Fault.Any (createClient fd)) (hfree : ∀ s c, R s { s with
    clients := s.clients.erase c, clientAt := Function.update s.clientAt c none }) (fd : ℕ) :
    Keeps R Fault.Any (acceptClient fd) := by
  refine keeps_bind (hcreate fd) fun c => ?_
  cases c with
  | none => exact keeps_pure _
  | some c =>
    exact keeps_bind keeps_get fun _ => keeps_ite (fun _ => freeClient_upheld h (hfree · c))
      fun _ => keeps_pure _

theorem sendResponse_upheld (ha : ∀ s t, Answers s t → R s t) (hfree : ∀ s, R s { s with
    clients := s.clients.erase c, clientAt := Function.update s.clientAt c none }) (ws : List Written) :
    ∀ sent, Keeps R Fault.Any (sendResponse c sent ws) := by
  have hany : ∀ e, ¬e.Stock → Fault.Any e := fun _ _ => trivial
  have hans : ∀ {α : Type} {m : ServerM α}, Keeps Answers Fault.Any m → Keeps R Fault.Any m := fun hm s =>
    wp_mono (hm s) (fun _ _ ht => ha _ _ ht) fun _ h => h
  exact sendResponse_keeps (fun sent => hans (finishSend_answers hany sent))
    (hans (dropResponse_answers hany))
    (fun _ => hans (modifyClient_answers hany _)) (freeClient_upheld h hfree) ws

theorem clientTimeouts_upheld (hfree : ∀ s c, R s { s with
    clients := s.clients.erase c, clientAt := Function.update s.clientAt c none }) :
    Keeps R Fault.Any clientTimeouts :=
  keeps_bind keeps_get fun _ => keeps_ite (fun _ => keeps_foreach
    (keeps_bind keeps_get fun _ => keeps_pure _) trivial fun c => keeps_bind getClient_any fun _ =>
      keeps_ite (fun _ => freeClient_upheld h (hfree · c)) fun _ => keeps_pure _) fun _ => keeps_pure _

end Upheld

end EagleMQ
