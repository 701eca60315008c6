import EagleMQ.Lib.Rounds
import EagleMQ.LinkedList
import EagleMQ.Publish

/-! Members that are served in turn: the subscribers of a queue, the queues under a key
of a route, the subscribers to a topic of a channel. A push or a publication that comes to
them turns their list once and serves the first one, and nothing else that it does
touches the list. -/

namespace EagleMQ

open Prog

/-! ### Lists that stay -/

/-- The queue without its messages. -/
def QueueT.stockless (x : QueueT) : QueueT := { x with backlog := .create }

/-- Of the queues only the messages have changed, of routes and channels nothing. -/
structure Listed (s t : EagleServer) : Prop where
  queues : ∀ q, (t.queueAt q).map QueueT.stockless = (s.queueAt q).map QueueT.stockless
  routes : t.routeAt = s.routeAt
  channels : t.channelAt = s.channelAt

instance : IsPreorder EagleServer Listed where
  refl _ := ⟨fun _ => rfl, rfl, rfl⟩
  trans _ _ _ h h' := ⟨fun q => (h'.queues q).trans (h.queues q), h'.routes.trans h.routes,
    h'.channels.trans h.channels⟩

/-- Routes and channels are left alone. -/
def Aside (s t : EagleServer) : Prop := t.routeAt = s.routeAt ∧ t.channelAt = s.channelAt

instance : IsPreorder EagleServer Aside where
  refl _ := ⟨rfl, rfl⟩
  trans _ _ _ h h' := ⟨h'.1.trans h.1, h'.2.trans h.2⟩

section Listed

variable {s t u : EagleServer} {c q r ch o : Ptr}

theorem modifyObjects_listed (f : Heap Object → Except Fault (Heap Object)) :
    Keeps Listed Fault.Any (modifyObjects f) :=
  keeps_bind keeps_get fun _ => keeps_bind (keeps_lift fun _ _ => trivial) fun _ =>
    keeps_modify _ fun _ => ⟨fun _ => rfl, rfl, rfl⟩

theorem getClient_listed : Keeps Listed Fault.Any (getClient c) :=
  keeps_bind keeps_get fun s => by
    cases s.clientAt c with
    | none => exact keeps_throw trivial
    | some x => exact keeps_pure x

theorem getQueue_listed : Keeps Listed Fault.Any (getQueue q) :=
  keeps_bind keeps_get fun s => by
    cases s.queueAt q with
    | none => exact keeps_throw trivial
    | some x => exact keeps_pure x

theorem getChannel_listed : Keeps Listed Fault.Any (getChannel ch) :=
  keeps_bind keeps_get fun s => by
    cases s.channelAt ch with
    | none => exact keeps_throw trivial
    | some x => exact keeps_pure x

theorem modifyClient_listed (f : EagleClient → EagleClient) : Keeps Listed Fault.Any (modifyClient c f) :=
  keeps_bind getClient_listed fun _ => keeps_modify _ fun _ => ⟨fun _ => rfl, rfl, rfl⟩

theorem objectSize_listed (o : Ptr) : Keeps Listed Fault.Any (objectSize o) :=
  keeps_bind keeps_get fun _ => keeps_bind (keeps_lift fun _ _ => trivial) fun _ => keeps_pure _

/-- Work on the messages of a queue. -/
theorem withStock_listed {α : Type} (m : StockM α) : Keeps Listed Fault.Any (withStock q m) := fun s => by
  cases hx : s.queueAt q with
  | none => simp [wp, withStock, hx, Fault.Any]
  | some x =>
    refine wp_withStock hx ?_
    unfold wp
    split
    · refine ⟨fun p => ?_, rfl, rfl⟩
      dsimp only
      by_cases hp : p = q
      · rw [hp, Function.update_self, hx]
        rfl
      · rw [Function.update_of_ne hp]
    · trivial

theorem setWriteEvent_listed : Keeps Listed Fault.Any (setWriteEvent c) :=
  keeps_bind getClient_listed fun _ => keeps_ite (fun _ => keeps_pure _) fun _ =>
    keeps_bind keeps_get fun _ =>
    keeps_ite (fun _ => keeps_bind (modifyClient_listed _) fun _ => keeps_pure _) fun _ => keeps_pure _

theorem addResponse_listed (data : List Byte) : Keeps Listed Fault.Any (addResponse c data) :=
  keeps_bind (keeps_bind keeps_get fun _ => keeps_bind
    (keeps_modify _ fun _ => ⟨fun _ => rfl, rfl, rfl⟩) fun _ => keeps_pure _)
    fun _ => keeps_bind setWriteEvent_listed fun _ => keeps_ite
      (fun _ => keeps_bind keeps_get fun _ => modifyClient_listed _) fun _ => modifyObjects_listed _

theorem addObjectResponse_listed (o : Ptr) : Keeps Listed Fault.Any (addObjectResponse c o) :=
  keeps_bind (modifyObjects_listed _) fun _ => keeps_bind setWriteEvent_listed fun _ => keeps_ite
    (fun _ => keeps_bind keeps_get fun _ => modifyClient_listed _) fun _ => modifyObjects_listed _

theorem queueClientEventNotify_listed : Keeps Listed Fault.Any (queueClientEventNotify c q) :=
  keeps_bind getQueue_listed fun _ => keeps_bind (keeps_lift fun _ _ => trivial) fun _ => addResponse_listed _

theorem queueClientEventMessage_listed (m : Ptr) : Keeps Listed Fault.Any (queueClientEventMessage c q m) :=
  keeps_bind (withStock_listed _) fun _ => keeps_bind (objectSize_listed _) fun _ =>
    keeps_bind getQueue_listed fun _ =>
    keeps_bind (keeps_lift fun _ _ => trivial) fun _ => keeps_bind (addResponse_listed _) fun _ =>
      addObjectResponse_listed _

theorem channelEvent_listed (cmd : Byte) (n : ℕ) (strings : List (ℕ × Name)) (msg : Ptr) :
    Keeps Listed Fault.Any (channelEvent cmd n strings c ch msg) :=
  keeps_bind (objectSize_listed _) fun _ => keeps_bind getChannel_listed fun _ =>
    keeps_bind (keeps_lift fun _ _ => trivial)
    fun _ => keeps_bind (addResponse_listed _) fun _ => addObjectResponse_listed _

theorem Listed.queue {x : QueueT} (h : Listed s t) (hx : s.queueAt q = some x) :
    ∃ y, t.queueAt q = some y ∧ y.stockless = x.stockless := by
  have hq := h.queues q
  rw [hx] at hq
  exact Option.map_eq_some_iff.mp hq

end Listed

/-! ### Serving in turn -/

/-- The route after a message under a key. -/
def RouteT.turned (x : RouteT) (key : Name) : RouteT :=
  if x.roundRobin then { x with keys := x.keys.set key (listRotate (x.keys.values key)) } else x

section Turns

variable {s t : EagleServer} {c q r ch m : Ptr} {x : QueueT} {y : RouteT} {z : ChannelT}
    {key topic : Name} {a : List Ptr}
  {node : TopicNode}

theorem listRotate_append (a : List Ptr) (c : Ptr) : listRotate (a ++ [c]) = c :: a := by simp [listRotate]

/-- The list is turned and the client at its front is given the message. -/
theorem serveSubscribedClients_inTurn (hx : s.queueAt q = some x) (hround : x.roundRobin = true)
    (hl : x.subscribedClientsMsg = a ++ [c]) :
    serveSubscribedClients q m s = queueClientEventMessage c q m (s.setQueue q x.turned) := by
  have hne : x.subscribedClientsMsg ≠ [] := by simp [hl]
  have hturned : x.turned = { x with subscribedClientsMsg := listRotate x.subscribedClientsMsg } :=
    if_pos ⟨hround, hne⟩
  have hmodify : modifyQueue q (fun x =>
    { x with subscribedClientsMsg := listRotate x.subscribedClientsMsg }) s =
      .ok ((), s.setQueue q x.turned) := by
    rw [hturned]
    exact bind_run (run_getQueue hx)
  rw [serveSubscribedClients, bind_run (run_getQueue hx), if_pos hne, if_pos hround, bind_run hmodify,
    bind_run (run_getQueue (Function.update_self ..)), hturned]
  dsimp only
  rw [hl, listRotate_append]
  rfl

theorem pushMessageRouteT_inTurn {msg : Ptr} {expiration : ℕ} (hy : s.routeAt r = some y)
    (hround : y.roundRobin = true)
    (hkey : key ∈ y.keys.keys) (hl : y.keys.values key = a ++ [q]) :
    pushMessageRouteT r key msg expiration s = (do
      let ok ← pushMessageQueueT q msg expiration
      incrementReferencesCount msg
      pure ok) (s.setRoute r (y.turned key)) := by
  have hturned : y.turned key = { y with keys := y.keys.set key (listRotate (y.keys.values key)) } := if_pos hround
  have hmodify : modifyRoute r (fun y =>
    { y with keys := y.keys.set key (listRotate (y.keys.values key)) }) s =
      .ok ((), s.setRoute r (y.turned key)) := by
    rw [hturned]
    exact bind_run (run_getRoute hy)
  have hvalues : (y.turned key).keys.values key = q :: a := by
    rw [hturned]
    exact (Keylist.values_set ..).trans (by rw [if_pos rfl, hl, listRotate_append])
  rw [pushMessageRouteT, bind_run (run_getRoute hy), if_pos hkey, if_pos hround, bind_run hmodify,
    bind_run (run_getRoute (Function.update_self ..)), hvalues]
  rfl

theorem publishTopic_inTurn {msg : Ptr} (hz : s.channelAt ch = some z) (hround : z.roundRobin = true)
    (hf : findNode z.topics topic = some node) (hl : z.subscribers topic = a ++ [c]) :
    publishTopic ch node topic msg s = channelClientEventMessage c ch topic msg
      (s.setChannel ch (z.turned topic)) := by
  rw [ChannelT.subscribers_eq hf] at hl
  have hturned : z.turned topic =
      z.setSide .topic (z.topics.set node (listRotate (z.topics.values node))) := by
    rw [ChannelT.turned, hf]
    exact if_pos hround
  have hmodify : modifyChannel ch
    (fun z => z.setSide .topic (z.topics.set node (listRotate (z.topics.values node)))) s =
      .ok ((), s.setChannel ch (z.turned topic)) := by
    rw [hturned]
    exact bind_run (run_getChannel hz)
  have hvalues : (z.turned topic).topics.values node = c :: a := by
    rw [hturned]
    exact (Keylist.values_set ..).trans (by rw [if_pos rfl, hl, listRotate_append])
  rw [publishTopic, bind_run (run_getChannel hz), if_pos hround, bind_run hmodify,
    bind_run (run_getChannel (Function.update_self ..)), hvalues]
  rfl

/-! ### Calls -/

theorem setQueue_listed {v : EagleServer} {y : QueueT} (h : Listed s v) (hy : y.stockless = x.stockless) :
    Listed (s.setQueue q x) (v.setQueue q y) := by
  refine ⟨fun p => ?_, h.routes, h.channels⟩
  by_cases hp : p = q
  · rw [hp, EagleServer.setQueue_queueAt, EagleServer.setQueue_queueAt, Option.map_some, Option.map_some, hy]
  · simp only [EagleServer.setQueue, Function.update_of_ne hp]
    exact h.queues p

theorem QueueT.turned_stockless (x : QueueT) : x.turned.stockless = x.stockless.turned := by
  have hstock : x.stockless.roundRobin = x.roundRobin ∧
      x.stockless.subscribedClientsMsg = x.subscribedClientsMsg := ⟨rfl, rfl⟩
  unfold QueueT.turned
  rw [hstock.1, hstock.2]
  split_ifs <;> rfl

theorem serveSubscribedClients_turns (m : Ptr) (hx : s.queueAt q = some x) :
    wp (serveSubscribedClients q m) (fun _ t => Listed (s.setQueue q x.turned) t) Fault.Any s := by
  by_cases h : x.roundRobin = true ∧ x.subscribedClientsMsg ≠ []
  · obtain hnil | ⟨a, c, hl⟩ := x.subscribedClientsMsg.eq_nil_or_concat'
    · exact absurd hnil h.2
    · exact wp_of_run (serveSubscribedClients_inTurn hx h.1 hl) (queueClientEventMessage_listed m _)
  · have hsame : s.setQueue q x.turned = s := by
      rw [QueueT.turned, if_neg h]
      simp only [EagleServer.setQueue, ← hx, Function.update_eq_self]
    rw [hsame, serveSubscribedClients, wp_bind, wp_getQueue hx]
    refine wp_ite (fun hne => wp_ite (fun hround => absurd ⟨hround, hne⟩ h) fun _ => ?_) fun _ =>
      Std.Refl.refl s
    exact keeps_forM (fun c => queueClientEventMessage_listed m) _ s

theorem processSubscribedClients_turns (m : Ptr) (hx : s.queueAt q = some x) :
    wp (processSubscribedClients q m) (fun _ t => Listed (s.setQueue q x.turned) t) Fault.Any s := by
  rw [processSubscribedClients, wp_bind, wp_getQueue hx, wp_bind]
  refine wp_mono (serveSubscribedClients_turns m hx) (fun _ t ht => ?_) fun _ h => h
  rw [wp_bind]
  exact wp_mono (keeps_forM (fun c => queueClientEventNotify_listed) _ t)
    (fun _ u hu => IsTrans.trans _ _ _ ht hu) fun _ h => h

theorem enqueueMessage_listed (m : Ptr) : Keeps Listed Fault.Any (enqueueMessage q m) :=
  keeps_bind getQueue_listed fun _ => keeps_ite
    (fun _ => keeps_ite (fun _ => keeps_bind keeps_get fun _ => keeps_bind (withStock_listed _) fun _ =>
      keeps_bind (withStock_listed _) fun _ => keeps_pure _) fun _ => keeps_pure _)
    fun _ => keeps_bind (withStock_listed _) fun _ => keeps_pure _

/-- A push turns the list of the subscribers, unless its message is too large. -/
theorem pushMessageQueueT_turns {data : Ptr} {expiration : ℕ} {o : Object} (hx : s.queueAt q = some x)
    (ho : s.objects data = some o) :
    wp (pushMessageQueueT q data expiration) (fun _ t =>
      Listed (if x.maxMsgSize < o.size then s else s.setQueue q x.turned) t) Fault.Any s := by
  rw [pushMessageQueueT, wp_bind, wp_get, wp_bind, wp_modify, wp_bind]
  generalize makeMessageTag s.msgCounter s.nowTimems = tag
  have hcreated : wp (withStock q (Stock.createMessage data tag expiration)) (fun _ v => v = { s with
      msgCounter := s.msgCounter + 1
      queueAt := Function.update s.queueAt q (some { x with backlog := x.withMessage data tag expiration }) })
      Fault.Any { s with msgCounter := s.msgCounter + 1 } :=
    wp_withStock (m := Stock.createMessage data tag expiration) hx rfl
  refine wp_mono hcreated (fun m v hv => ?_) fun _ h => h
  generalize hy : ({ x with backlog := x.withMessage data tag expiration } : QueueT) = y at hv
  have hvy : v.queueAt q = some y := by rw [hv]; exact Function.update_self ..
  have hvo : v.objects data = some o := by rw [hv]; exact ho
  have hstock : y.stockless = x.stockless := by rw [← hy]; rfl
  have hlisted : Listed s v := by
    rw [hv]
    refine ⟨fun p => ?_, rfl, rfl⟩
    by_cases hp : p = q
    · simp only [hp, Function.update_self, hx, Option.map_some, hstock]
    · simp only [Function.update_of_ne hp]
  rw [wp_bind, objectSize, wp_bind, wp_get, wp_bind]
  simp only [Objects.find, hvo, wp_lift_ok, wp_pure]
  rw [wp_bind, wp_getQueue hvy, show y.maxMsgSize = x.maxMsgSize by rw [← hy]]
  refine wp_ite (fun hsize => ?_) fun hsize => ?_
  · rw [if_pos hsize]
    exact hlisted
  · rw [if_neg hsize, wp_bind]
    have hturned : Listed (s.setQueue q x.turned) (v.setQueue q y.turned) :=
      setQueue_listed hlisted (by rw [QueueT.turned_stockless, hstock, ← QueueT.turned_stockless])
    refine wp_mono (processSubscribedClients_turns m hvy) (fun taken t ht => ?_) fun _ h => h
    have ht := IsTrans.trans _ _ _ hturned ht
    refine wp_ite (fun _ => ?_) fun _ => ?_
    · rw [wp_bind]
      exact wp_mono (withStock_listed (Stock.releaseMessage m) t)
        (fun _ u hu => IsTrans.trans _ _ _ ht hu) fun _ h => h
    · exact wp_mono (enqueueMessage_listed m t) (fun _ u hu => IsTrans.trans _ _ _ ht hu) fun _ h => h

/-- A push leaves routes and channels alone. -/
theorem pushMessageQueueT_aside (data : Ptr) (expiration : ℕ) :
    Keeps Aside Fault.Any (pushMessageQueueT q data expiration) := by
  have hlist : ∀ {α : Type} {m : ServerM α}, Keeps Listed Fault.Any m → Keeps Aside Fault.Any m :=
    fun hm s => wp_mono (hm s) (fun _ _ h => ⟨h.routes, h.channels⟩) fun _ h => h
  have hserve : ∀ m, Keeps Aside Fault.Any (serveSubscribedClients q m) := fun m =>
    keeps_bind (hlist getQueue_listed) fun _ => keeps_ite (fun _ => keeps_ite
      (fun _ => keeps_bind (keeps_bind (hlist getQueue_listed) fun _ => keeps_modify _
      fun _ => ⟨rfl, rfl⟩) fun _ =>
        keeps_bind (hlist getQueue_listed) fun x => by
          cases x.subscribedClientsMsg.head? with
          | none => exact keeps_throw trivial
          | some c => exact hlist (queueClientEventMessage_listed m))
      fun _ => keeps_forM (fun _ => hlist (queueClientEventMessage_listed m)) _) fun _ => keeps_pure _
  have hprocess : ∀ m, Keeps Aside Fault.Any (processSubscribedClients q m) := fun m =>
    keeps_bind (hlist getQueue_listed) fun _ => keeps_bind (hserve m) fun _ =>
      keeps_bind (keeps_forM (fun _ => hlist queueClientEventNotify_listed) _) fun _ => keeps_pure _
  refine keeps_bind keeps_get fun _ => keeps_bind (keeps_modify _ fun _ => ⟨rfl, rfl⟩) fun _ =>
    keeps_bind (hlist (withStock_listed _)) fun m => keeps_bind (hlist (objectSize_listed _)) fun _ =>
      keeps_bind (hlist getQueue_listed) fun _ => keeps_ite (fun _ => keeps_pure _) fun _ =>
        keeps_bind (hprocess m) fun _ => keeps_ite
          (fun _ => keeps_bind (hlist (withStock_listed _)) fun _ => keeps_pure _) fun _ =>
          hlist (enqueueMessage_listed m)

/-- A push to a route that serves its queues in turn turns the list of the queues. -/
theorem pushMessageRouteT_turns {msg : Ptr} {expiration : ℕ} (hy : s.routeAt r = some y)
    (hround : y.roundRobin = true)
    (hkey : key ∈ y.keys.keys) (hl : y.keys.values key = a ++ [q]) :
    wp (pushMessageRouteT r key msg expiration)
      (fun _ t => t.routeAt = (s.setRoute r (y.turned key)).routeAt) Fault.Any s := by
  refine wp_of_run (pushMessageRouteT_inTurn hy hround hkey hl) ?_
  rw [wp_bind]
  refine wp_mono (pushMessageQueueT_aside msg expiration _) (fun _ t ht => ?_) fun _ h => h
  rw [wp_bind]
  exact wp_mono (modifyObjects_listed _ t) (fun _ u hu => hu.routes.trans ht.1) fun _ h => h

/-- A publication turns the list of the subscribers to its topic. -/
theorem publishMessageChannelT_turns {msg : Ptr} (hz : s.channelAt ch = some z) (hround : z.roundRobin = true)
    (hl : z.subscribers topic = a ++ [c]) :
    wp (publishMessageChannelT ch topic msg)
      (fun _ t => Listed (s.setChannel ch (z.turned topic)) t) Fault.Any s := by
  have hpattern : ∀ k, Keeps Listed Fault.Any (publishPattern ch topic msg k) := fun k =>
    keeps_bind (keeps_lift fun _ _ => trivial) fun _ =>
      keeps_ite (fun _ => keeps_forM (fun _ => channelEvent_listed _ _ _ msg) _) fun _ => keeps_pure _
  rw [publishMessageChannelT, wp_bind, wp_getChannel hz]
  cases hf : findNode z.topics topic with
  | none => simp [ChannelT.subscribers, hf] at hl
  | some node =>
    rw [wp_bind]
    refine wp_of_run (publishTopic_inTurn hz hround hf hl) ?_
    refine wp_mono (channelEvent_listed _ _ _ msg _) (fun _ t ht => ?_) fun _ h => h
    exact wp_mono (keeps_forM hpattern _ t) (fun _ u hu => IsTrans.trans _ _ _ ht hu) fun _ h => h

end Turns

theorem ChannelT.turned_subscribers {z : ChannelT} {topic : Name} (hround : z.roundRobin = true)
    (hne : z.subscribers topic ≠ []) :
    (z.turned topic).subscribers topic = listRotate (z.subscribers topic) := by
  cases hf : findNode z.topics topic with
  | none => simp [ChannelT.subscribers, hf] at hne
  | some node =>
    have hkeys := (z.turned_perm topic node).2
    have hf' : findNode (z.turned topic).topics topic = some node := by
      rw [findNode, hkeys]
      exact hf
    rw [ChannelT.subscribers_eq hf', ChannelT.subscribers_eq hf, ChannelT.turned, hf]
    dsimp only
    rw [if_pos hround]
    exact (Keylist.values_set ..).trans (if_pos rfl)

/-! ### Rings -/

/-- A list whose members are served in turn. -/
inductive Ring where
  | queue (q : Ptr)
  | route (r : Ptr) (key : Name)
  | channel (ch : Ptr) (topic : Name)

namespace Ring

/-- The members in the order of their list. -/
def members : Ring → EagleServer → List Ptr
  | queue q, s => Heap.read s.queueAt QueueT.subscribedClientsMsg [] q
  | route r key, s => (Heap.read s.routeAt RouteT.keys [] r).values key
  | channel ch topic, s => Heap.read s.channelAt (fun x => x.subscribers topic) [] ch

/-- A push or a publication that comes to the members, and the member that is first after it. -/
inductive Picks : Ring → EagleServer → Ptr → EagleServer → Prop
  | queue {q data c : Ptr} {expiration : ℕ} {ok : Bool} {x : QueueT} {o : Object} {s t : EagleServer}
      (hx : s.queueAt q = some x) (hround : x.roundRobin = true) (hne : (queue q).members s ≠ [])
      (ho : s.objects data = some o) (hsize : o.size ≤ x.maxMsgSize)
      (hrun : pushMessageQueueT q data expiration s = .ok (ok, t))
      (hfirst : ((queue q).members t).head? = some c) : Picks (queue q) s c t
  | route {r q msg : Ptr} {key : Name} {expiration : ℕ} {ok : Bool} {y : RouteT} {s t : EagleServer}
      (hy : s.routeAt r = some y) (hround : y.roundRobin = true) (hne : (route r key).members s ≠ [])
      (hrun : pushMessageRouteT r key msg expiration s = .ok (ok, t))
      (hfirst : ((route r key).members t).head? = some q) : Picks (route r key) s q t
  | channel {ch c msg : Ptr} {topic : Name} {z : ChannelT} {s t : EagleServer}
      (hz : s.channelAt ch = some z) (hround : z.roundRobin = true) (hne : (channel ch topic).members s ≠ [])
      (hrun : publishMessageChannelT ch topic msg s = .ok ((), t))
      (hfirst : ((channel ch topic).members t).head? = some c) : Picks (channel ch topic) s c t

/-- In every state with these members the code serves this one, and no other. -/
def Serves : Ring → List Ptr → Ptr → Prop
  | queue q, l, c => ∀ s x m, s.queueAt q = some x → x.roundRobin = true → x.subscribedClientsMsg = l →
      serveSubscribedClients q m s = queueClientEventMessage c q m (s.setQueue q x.turned)
  | route r key, l, q =>
    ∀ s y msg expiration, s.routeAt r = some y → y.roundRobin = true → y.keys.values key = l →
      pushMessageRouteT r key msg expiration s = (do
        let ok ← pushMessageQueueT q msg expiration
        incrementReferencesCount msg
        pure ok) (s.setRoute r (y.turned key))
  | channel ch topic, l, c => ∀ s z node msg, s.channelAt ch = some z → z.roundRobin = true →
      findNode z.topics topic = some node → z.subscribers topic = l →
      publishTopic ch node topic msg s = channelClientEventMessage c ch topic msg
        (s.setChannel ch (z.turned topic))

variable {ring : Ring} {s t : EagleServer} {c : Ptr} {a : List Ptr}

theorem serves_last (ring : Ring) (a : List Ptr) (c : Ptr) : ring.Serves (a ++ [c]) c := by
  cases ring with
  | queue q => exact fun s x m hx hround hl => serveSubscribedClients_inTurn hx hround hl
  | route r key =>
    exact fun s y msg expiration hy hround hl =>
      pushMessageRouteT_inTurn hy hround (Keylist.mem_keys_of_mem (a := c) (by simp [hl])) hl
  | channel ch topic => exact fun s z node msg hz hround hf hl => publishTopic_inTurn hz hround hf hl

/-- What one pick does to the list. -/
theorem Picks.turns (h : ring.Picks s c t) : ∃ a, ring.members s = a ++ [c] ∧ ring.members t = c :: a := by
  have hend : ∀ {l l' : List Ptr}, l ≠ [] → l' = listRotate l → l'.head? = some c →
      ∃ a, l = a ++ [c] ∧ l' = c :: a := by
    intro l l' hne hl hc
    obtain rfl | ⟨a, b, rfl⟩ := l.eq_nil_or_concat'
    · exact absurd rfl hne
    · rw [listRotate_append] at hl
      subst hl
      obtain rfl : b = c := by simpa using hc
      exact ⟨a, rfl, rfl⟩
  cases h with
  | @queue q data _ expiration ok x o _ _ hx hround hne ho hsize hrun hfirst =>
    refine hend hne ?_ hfirst
    have hlisted := ok_of_wp (pushMessageQueueT_turns hx ho) hrun
    rw [if_neg (Nat.not_lt.mpr hsize)] at hlisted
    obtain ⟨y, hy, hstock⟩ := hlisted.queue (EagleServer.setQueue_queueAt _)
    have hmsg : members (Ring.queue q) s = x.subscribedClientsMsg := Heap.read_some hx
    rw [hmsg] at hne ⊢
    rw [show members (Ring.queue q) t = y.subscribedClientsMsg from Heap.read_some hy]
    have hturned : x.turned.subscribedClientsMsg = listRotate x.subscribedClientsMsg := by
      rw [QueueT.turned, if_pos ⟨hround, hne⟩]
    exact (congrArg QueueT.subscribedClientsMsg hstock).trans hturned
  | @route r _ msg key expiration ok y _ _ hy hround hne hrun hfirst =>
    refine hend hne ?_ hfirst
    have hvalues : members (Ring.route r key) s = y.keys.values key :=
      congrArg (fun k => Keylist.values k key) (Heap.read_some hy)
    rw [hvalues] at hne ⊢
    obtain hnil | ⟨a, q, hl⟩ := (y.keys.values key).eq_nil_or_concat'
    · exact absurd hnil hne
    have hkey : key ∈ y.keys.keys := Keylist.mem_keys_of_mem (a := q) (by simp [hl])
    have hroutes := ok_of_wp (pushMessageRouteT_turns hy hround hkey hl) hrun
    have hty : t.routeAt r = some (y.turned key) := by rw [hroutes]; exact Function.update_self ..
    rw [show members (Ring.route r key) t = (y.turned key).keys.values key from
      congrArg (fun k => Keylist.values k key) (Heap.read_some hty), RouteT.turned, if_pos hround]
    exact (Keylist.values_set ..).trans (if_pos rfl)
  | @channel ch _ msg topic z _ _ hz hround hne hrun hfirst =>
    refine hend hne ?_ hfirst
    have hsubs : members (Ring.channel ch topic) s = z.subscribers topic := Heap.read_some hz
    rw [hsubs] at hne ⊢
    obtain hnil | ⟨a, c, hl⟩ := (z.subscribers topic).eq_nil_or_concat'
    · exact absurd hnil hne
    have hlisted := ok_of_wp (publishMessageChannelT_turns hz hround hl) hrun
    have htz : t.channelAt ch = some
        (z.turned topic) := by rw [hlisted.channels]; exact Function.update_self ..
    rw [show members (Ring.channel ch topic) t = (z.turned topic).subscribers topic from Heap.read_some htz]
    exact ChannelT.turned_subscribers hround (by simp [hl])

/-- Every list names each of its members once. -/
theorem members_nodup (h : Related .none s) (ring : Ring) : (ring.members s).Nodup := by
  cases ring with
  | queue q => exact (List.nodup_append.mp (h.consistent.subscribed.nodup' q)).1
  | route r key => exact (h.consistent.bound key).nodup r
  | channel ch topic =>
    cases hz : s.channelAt ch with
    | none => rw [members, Heap.read_none hz]; exact List.nodup_nil
    | some z =>
      rw [show members (.channel ch topic) s = z.subscribers topic from Heap.read_some hz]
      cases hf : findNode z.topics topic with
      | none => simp [ChannelT.subscribers, hf]
      | some node =>
        rw [ChannelT.subscribers_eq hf]
        exact (h.topic_nodes hz hf).2.1

end Ring

/-! ### Fairness -/

/-- From a state in the course of a run: any picks in a row that are not more than the members are
different, a whole round picks each member once, a single pick serves one current member and keeps
the members as they are, and the rotation of the nodes is the rotation of the list. -/
theorem roundRobin_fair [Lzf] {ring : Ring} {s₀ s : EagleServer} (h : Reachable s₀) (hs : Reordered s₀ s) :
    (∀ l l' l'' t, Rounds ring.members ring.Picks s (l ++ l' ++ l'') t →
      (l'.length ≤ (ring.members s).length → l'.Nodup) ∧
      (l'.length = (ring.members s).length → l'.Perm (ring.members s))) ∧
    (∀ c t, ring.Picks s c t → c ∈ ring.members s ∧ ring.Serves (ring.members s) c ∧
      (ring.members t).head? = some c ∧
      (ring.members t).Perm (ring.members s) ∧ (ring.members t).Nodup) ∧
    ∀ (l : LinkedList Ptr) nodes, l.Linked nodes → ∃ l' nodes', l.rotate = .ok l' ∧
    l'.Linked nodes' ∧ nodes'.Perm nodes ∧
      nodes'.map Prod.snd = listRotate (nodes.map Prod.snd) ∧
      ∀ p ∈ (listRotate (nodes.map Prod.snd)).head?, l'.firstValue = .ok p := by
  have hnodup := Ring.members_nodup (h.related.reordered hs) ring
  have hturns : ∀ s c t, ring.Picks s c t → ∃ a, ring.members s = a ++ [c] ∧ ring.members t = c :: a :=
    fun _ _ _ h => h.turns
  refine ⟨fun l l' l'' t hrun => ?_, fun c t hpick => ?_, fun l nodes hl => LinkedList.rotate_listRotate hl⟩
  · obtain ⟨u, hu, -⟩ := hrun.split
    exact ⟨hu.nodup hturns hnodup, hu.round hturns⟩
  · obtain ⟨a, hms, hmt⟩ := hpick.turns
    have hperm : (ring.members t).Perm (ring.members s) := by
      rw [hms, hmt]
      exact (List.perm_append_singleton c a).symm
    exact ⟨by simp [hms], hms ▸ Ring.serves_last ring a c, by simp [hmt], hperm, hperm.nodup_iff.mpr hnodup⟩

/-! ### Two subscribers in turn -/

namespace Sample

/-- Two clients subscribe to a topic of a channel that serves them in turn. -/
def twoSubscribed : List Op :=
  login 0 ++ [named Cmd.channelCreate 0 [99] (leBytes 4 2),
    named Cmd.channelSubscribe 0 [99] (padded 32 [116])] ++
    login 6 ++ [named Cmd.channelSubscribe 6 [99] (padded 32 [116])]

def topicRing : Ring := .channel 2 [116]

/-- Two publications pick the second client, then the first. -/
def publishedTwice (s : EagleServer) : Bool :=
  match s.channelAt 2, publishMessageChannelT 2 [116] s.fresh (pushing s) with
  | some z, .ok ((), t) =>
    match t.channelAt 2, publishMessageChannelT 2 [116] s.fresh t with
    | some z', .ok ((), u) => z.roundRobin && z'.roundRobin && decide (topicRing.members s = [0, 6]) &&
        decide (topicRing.members t = [6, 0]) && decide (topicRing.members u = [0, 6])
    | _, _ => false
  | _, _ => false

end Sample

theorem roundRobin_fair_two : ∃ s u, @Reachable Lzf.stored s ∧ Sample.topicRing.members s = [0, 6] ∧
    Rounds Sample.topicRing.members Sample.topicRing.Picks (Sample.pushing s) [6, 0] u ∧
    [6, 0].Perm (Sample.topicRing.members (Sample.pushing s)) := by
  obtain ⟨s, hs, hp⟩ := Sample.exists_run Sample.twoSubscribed (p := Sample.publishedTwice)
    (by decide +kernel)
  unfold Sample.publishedTwice at hp
  split at hp
  · rename_i z t hz ht
    split at hp
    · rename_i z' u hz' hu
      simp only [Bool.and_eq_true, decide_eq_true_eq] at hp
      obtain ⟨⟨⟨⟨hround, hround'⟩, hms⟩, hmt⟩, hmu⟩ := hp
      have hpick : ∀ {s t : EagleServer} {z : ChannelT} {c msg : Ptr}, s.channelAt 2 = some z →
        z.roundRobin = true →
          Sample.topicRing.members s ≠ [] → publishMessageChannelT 2 [116] msg s = .ok ((), t) →
          (Sample.topicRing.members t).head? = some c → Sample.topicRing.Picks s c t :=
        fun hz hround hne hrun hfirst => .channel hz hround hne hrun hfirst
      have hms' : Sample.topicRing.members (Sample.pushing s) = [0, 6] := hms
      have hfirst : Sample.topicRing.Picks (Sample.pushing s) 6 t :=
        hpick hz hround (by simp [hms']) ht (by simp [hmt])
      have hsecond : Sample.topicRing.Picks t 0 u := hpick hz' hround' (by simp [hmt]) hu (by simp [hmu])
      have hrounds : Rounds Sample.topicRing.members Sample.topicRing.Picks (Sample.pushing s) [6, 0] u :=
        .pick hfirst (.pick hsecond (.nil u))
      have hreorder : Reordered s (Sample.pushing s) := Has.reordered ⟨rfl, Nat.le_succ _⟩
      exact ⟨s, u, hs, hms, hrounds,
        ((@roundRobin_fair Lzf.stored Sample.topicRing s _ hs hreorder).1 [] [6, 0] [] u hrounds).2
        (by rw [hms']; rfl)⟩
    · cases hp
  · cases hp

end EagleMQ
