import EagleMQ.Relations

/-! The relations in the words of the records. Each pair of lists that stores a
relation tells the same from both sides, without duplicates and without records
that are no longer there. -/

namespace EagleMQ

variable {s : EagleServer}

/-! ### Clients and queues -/

structure QueueRelations (s : EagleServer) : Prop where
  /-- The records are those on the lists of the server. -/
  clients : s.clients.Nodup ∧ ∀ c, c ∈ s.clients ↔ ∃ x, s.clientAt c = some x
  queues : s.queues.Nodup ∧ ∀ q, q ∈ s.queues ↔ ∃ y, s.queueAt q = some y
  declared : ∀ c x q y, s.clientAt c = some x → s.queueAt q = some y →
    (q ∈ x.declaredQueues ↔ c ∈ y.declaredClients)
  subscribed : ∀ c x q y, s.clientAt c = some x → s.queueAt q = some y →
    (q ∈ x.subscribedQueues ↔ Xor (c ∈ y.subscribedClientsMsg) (c ∈ y.subscribedClientsNotify))
  within : ∀ c x, s.clientAt c = some x → ∀ q ∈ x.subscribedQueues, q ∈ x.declaredQueues
  client_nodup : ∀ c x, s.clientAt c = some x → x.declaredQueues.Nodup ∧ x.subscribedQueues.Nodup
  queue_nodup : ∀ q y, s.queueAt q = some y →
    y.declaredClients.Nodup ∧ (y.subscribedClientsMsg ++ y.subscribedClientsNotify).Nodup
  client_mentions : ∀ c x, s.clientAt c = some x →
    ∀ q, q ∈ x.declaredQueues ∨ q ∈ x.subscribedQueues → q ∈ s.queues
  queue_mentions : ∀ q y, s.queueAt q = some y →
    ∀ c, c ∈ y.declaredClients ∨ c ∈ y.subscribedClientsMsg ∨ c ∈ y.subscribedClientsNotify →
      c ∈ s.clients

theorem Related.mem_clients (h : Related .none s) (c : Ptr) : c ∈ s.clients ↔ ∃ x, s.clientAt c = some x := by
  rw [← client_alive]
  exact (h.consistent.clients.mem c).trans (by simp)

theorem Related.mem_queues (h : Related .none s) (q : Ptr) : q ∈ s.queues ↔ ∃ x, s.queueAt q = some x := by
  rw [← queue_alive]
  exact (h.consistent.queues.mem q).trans (by simp [Loose.none])

theorem Related.mem_routes (h : Related .none s) (r : Ptr) : r ∈ s.routes ↔ ∃ x, s.routeAt r = some x := by
  rw [← route_alive]
  exact (h.consistent.routes.mem r).trans (by simp [Loose.none])

theorem Related.mem_channels (h : Related .none s) (ch : Ptr) :
    ch ∈ s.channels ↔ ∃ x, s.channelAt ch = some x := by
  rw [← channel_alive]
  exact (h.consistent.channels.mem ch).trans (by simp [Loose.none])

theorem Related.queueRelations (h : Related .none s) : QueueRelations s := by
  have hsub : ∀ q y, s.queueAt q = some y →
      (links s).subscribedClients q = y.subscribedClientsMsg ++ y.subscribedClientsNotify := fun q y hy => by
    rw [Links.subscribedClients, show (links s).subscribedClientsMsg q = _ from Heap.read_some hy,
      show (links s).subscribedClientsNotify q = _ from Heap.read_some hy]
  have hxd : ∀ c x, s.clientAt c = some x → (links s).declaredQueues c = x.declaredQueues :=
    fun c x hx => Heap.read_some hx
  have hxs : ∀ c x, s.clientAt c = some x → (links s).subscribedQueues c = x.subscribedQueues :=
    fun c x hx => Heap.read_some hx
  have hyd : ∀ q y, s.queueAt q = some y → (links s).declaredClients q = y.declaredClients :=
    fun q y hy => Heap.read_some hy
  refine ⟨⟨h.consistent.clients.nodup, h.mem_clients⟩, ⟨h.consistent.queues.nodup, h.mem_queues⟩,
    fun c x q y hx hy => ?_, fun c x q y hx hy => ?_, fun c x hx q hq => ?_, fun c x hx => ?_,
    fun q y hy => ?_, fun c x hx q hq => ?_, fun q y hy c hc => ?_⟩
  · rw [← hxd c x hx, ← hyd q y hy]
    exact h.consistent.declared.mem
  · have hnodup := h.consistent.subscribed.nodup' q
    rw [hsub q y hy] at hnodup
    rw [← hxs c x hx, h.consistent.subscribed.mem, hsub q y hy, List.mem_append]
    refine ⟨fun hc => hc.elim (fun hm => .inl ⟨hm, fun hn => ?_⟩) fun hn => .inr ⟨hn, fun hm => ?_⟩, ?_⟩
    · exact (List.nodup_append.mp hnodup).2.2 c hm c hn rfl
    · exact (List.nodup_append.mp hnodup).2.2 c hm c hn rfl
    · exact fun hc => hc.elim (fun hm => .inl hm.1) fun hn => .inr hn.1
  · rw [← hxd c x hx]
    exact h.consistent.within c q (hxs c x hx ▸ hq) (by simp [Loose.none])
  · exact ⟨hxd c x hx ▸ h.consistent.declared.nodup c, hxs c x hx ▸ h.consistent.subscribed.nodup c⟩
  · exact ⟨hyd q y hy ▸ h.consistent.declared.nodup' q, hsub q y hy ▸ h.consistent.subscribed.nodup' q⟩
  · rw [h.mem_queues, ← queue_alive]
    exact hq.elim (fun hq => h.declaredQueue (hxd c x hx ▸ hq)) fun hq => h.subscribedQueue (hxs c x hx ▸ hq)
  · rw [h.mem_clients, ← client_alive]
    rcases hc with hc | hc | hc
    · exact h.declarer (hyd q y hy ▸ hc)
    · exact h.subscriber (hsub q y hy ▸ List.mem_append_left _ hc)
    · exact h.subscriber (hsub q y hy ▸ List.mem_append_right _ hc)

/-! ### Routes and queues -/

structure BindingRelations (s : EagleServer) : Prop where
  routes : s.routes.Nodup ∧ ∀ r, r ∈ s.routes ↔ ∃ x, s.routeAt r = some x
  queues : s.queues.Nodup ∧ ∀ q, q ∈ s.queues ↔ ∃ y, s.queueAt q = some y
  bound : ∀ r x q y, s.routeAt r = some x → s.queueAt q = some y →
    ∀ key, q ∈ x.keys.values key ↔ r ∈ y.routes.values key
  /-- A key is there once, with at least one queue, all different and on the list. -/
  route_keys : ∀ r x, s.routeAt r = some x → (x.keys.map Prod.fst).Nodup ∧
    ∀ k ∈ x.keys, k.2 ≠ [] ∧ k.2.Nodup ∧ ∀ q ∈ k.2, q ∈ s.queues
  queue_keys : ∀ q y, s.queueAt q = some y → (y.routes.map Prod.fst).Nodup ∧
    ∀ k ∈ y.routes, k.2 ≠ [] ∧ k.2.Nodup ∧ ∀ r ∈ k.2, r ∈ s.routes

theorem Related.bindingRelations (h : Related .none s) : BindingRelations s := by
  have hx : ∀ r x, s.routeAt r = some x → (links s).boundQueues r = x.keys := fun r x hx =>
    Heap.read_some hx
  have hy : ∀ q y, s.queueAt q = some y → (links s).boundRoutes q = y.routes := fun q y hy =>
    Heap.read_some hy
  refine ⟨⟨h.consistent.routes.nodup, h.mem_routes⟩, ⟨h.consistent.queues.nodup, h.mem_queues⟩,
    fun r x q y hrx hqy key => ?_, fun r x hrx => ?_, fun q y hqy => ?_⟩
  · rw [← hx r x hrx, ← hy q y hqy]
    exact (h.consistent.bound key).mem
  · have hwf := hx r x hrx ▸ h.consistent.boundQueues_wf r
    refine ⟨hwf.nodup, fun k hk => ?_⟩
    have hv : ((links s).boundQueues r).values k.1 = k.2 := by
      rw [hx r x hrx, Keylist.values_of_mem hwf.nodup hk]
    refine ⟨hwf.snd_ne_nil hk, hv ▸ (h.consistent.bound k.1).nodup r, fun q hq => ?_⟩
    rw [h.mem_queues, ← queue_alive]
    exact h.boundQueue (hv ▸ hq)
  · have hwf := hy q y hqy ▸ h.consistent.boundRoutes_wf q
    refine ⟨hwf.nodup, fun k hk => ?_⟩
    have hv : ((links s).boundRoutes q).values k.1 = k.2 := by
      rw [hy q y hqy, Keylist.values_of_mem hwf.nodup hk]
    refine ⟨hwf.snd_ne_nil hk, hv ▸ (h.consistent.bound k.1).nodup' q, fun r hr => ?_⟩
    rw [h.mem_routes, ← route_alive]
    exact h.boundRoute (hv ▸ hr)

/-! ### Channels and clients -/

structure SubscriptionRelations (s : EagleServer) : Prop where
  channels : s.channels.Nodup ∧ ∀ ch, ch ∈ s.channels ↔ ∃ y, s.channelAt ch = some y
  clients : s.clients.Nodup ∧ ∀ c, c ∈ s.clients ↔ ∃ x, s.clientAt c = some x
  joined : ∀ d c x ch y, s.clientAt c = some x → s.channelAt ch = some y →
    ∀ node, c ∈ (y.side d).values node ↔ node ∈ (x.side d).values ch
  /-- A node is there once, and is the only one of its name. -/
  channel_nodes : ∀ d ch y, s.channelAt ch = some y → ((y.side d).map Prod.fst).Nodup ∧
    ((y.side d).map fun k => k.1.2).Nodup ∧
    ∀ k ∈ y.side d, k.2 ≠ [] ∧ k.2.Nodup ∧ ∀ c ∈ k.2, c ∈ s.clients
  client_nodes : ∀ d c x, s.clientAt c = some x → ((x.side d).map Prod.fst).Nodup ∧
    ∀ k ∈ x.side d, k.2 ≠ [] ∧ k.2.Nodup ∧ k.1 ∈ s.channels ∧
      ∀ node ∈ k.2, ∃ y, s.channelAt k.1 = some y ∧ node ∈ (y.side d).map Prod.fst

theorem Related.subscriptionRelations (h : Related .none s) : SubscriptionRelations s := by
  have hx : ∀ d c x, s.clientAt c = some x → (links s).topics d c = x.side d := fun d c x hx =>
    Heap.read_some (f := fun x => EagleClient.side x d) hx
  have hy : ∀ d ch y, s.channelAt ch = some y → (links s).members d ch = y.side d := fun d ch y hy =>
    Heap.read_some (f := fun x => ChannelT.side x d) hy
  refine ⟨⟨h.consistent.channels.nodup, h.mem_channels⟩, ⟨h.consistent.clients.nodup, h.mem_clients⟩,
    fun d c x ch y hcx hchy node => ?_, fun d ch y hchy => ?_, fun d c x hcx => ?_⟩
  · rw [← hx d c x hcx, ← hy d ch y hchy]
    exact (h.consistent.joined d ch).mem
  · have hwf := hy d ch y hchy ▸ h.consistent.members_wf d ch
    have hnames := hy d ch y hchy ▸ h.consistent.names d ch
    refine ⟨hwf.nodup, by rwa [Keylist.keys, List.map_map] at hnames, fun k hk => ?_⟩
    have hv : ((links s).members d ch).values k.1 = k.2 := by
      rw [hy d ch y hchy, Keylist.values_of_mem hwf.nodup hk]
    refine ⟨hwf.snd_ne_nil hk, hv ▸ (h.consistent.joined d ch).nodup k.1, fun c hc => ?_⟩
    rw [h.mem_clients, ← client_alive]
    exact h.member (hv ▸ hc)
  · have hwf := hx d c x hcx ▸ h.consistent.topics_wf d c
    refine ⟨hwf.nodup, fun k hk => ?_⟩
    have hv : ((links s).topics d c).values k.1 = k.2 := by
      rw [hx d c x hcx, Keylist.values_of_mem hwf.nodup hk]
    have hne := hwf.snd_ne_nil hk
    have hnode : ∀ node ∈ k.2, ∃ y, s.channelAt k.1 = some y ∧ node ∈ (y.side d).map Prod.fst :=
      fun node hn => by
        obtain ⟨hkey, halive⟩ := h.topic (hv ▸ hn : node ∈ ((links s).topics d c).values k.1)
        obtain ⟨y, hchy⟩ := channel_alive.mp halive
        exact ⟨y, hchy, hy d k.1 y hchy ▸ hkey⟩
    obtain ⟨node, hn⟩ := List.exists_mem_of_ne_nil _ hne
    refine ⟨hne, hv ▸ (h.consistent.joined d k.1).nodup' c, ?_, hnode⟩
    rw [h.mem_channels]
    obtain ⟨y, hchy, -⟩ := hnode node hn
    exact ⟨y, hchy⟩

/-! ### Reachable states -/

/-- A step that cannot be finished has met something else than a record or a list node that
is gone. -/
theorem queueRelations_of_reachable [Lzf] (h : Reachable s) :
    QueueRelations s ∧ ∀ op, Enabled s op → ∀ e, step s op = .error e → e.Outside :=
  ⟨h.related.queueRelations, fun _ ha => h.step_errs ha⟩

/-- The administrator has subscribed to a queue. -/
theorem queueRelations_subscribed : ∃ s, (s.clientAt 0).map EagleClient.subscribedQueues = some [2] ∧
    QueueRelations s := by
  obtain ⟨s, hs, hp⟩ := Sample.exists_run
    (Sample.login 0 ++ [Sample.queueCreate 0 [113] 10 0, Sample.named Cmd.queueDeclare 0 [113] [],
      Sample.named Cmd.queueSubscribe 0 [113] (leBytes 4 0)])
    (p := fun s => (s.clientAt 0).map EagleClient.subscribedQueues = some [2]) (by decide +kernel)
  exact ⟨s, by simpa using hp, (@queueRelations_of_reachable _ Lzf.stored hs).1⟩

theorem bindingRelations_of_reachable [Lzf] (h : Reachable s) :
    BindingRelations s ∧ ∀ op, Enabled s op → ∀ e, step s op = .error e → e.Outside :=
  ⟨h.related.bindingRelations, fun _ ha => h.step_errs ha⟩

/-- A queue is bound to a route. -/
theorem bindingRelations_bound : ∃ s, (s.routeAt 4).map RouteT.keys = some [([107], [2])] ∧
    BindingRelations s := by
  obtain ⟨s, hs, hp⟩ := Sample.exists_run
    (Sample.login 0 ++ [Sample.queueCreate 0 [113] 10 0,
      Sample.named Cmd.routeCreate 0 [114] (leBytes 4 0),
      Sample.named Cmd.routeBind 0 [114] (padded 64 [113] ++ padded 32 [107])])
    (p := fun s => (s.routeAt 4).map RouteT.keys = some [([107], [2])]) (by decide +kernel)
  exact ⟨s, by simpa using hp, (@bindingRelations_of_reachable _ Lzf.stored hs).1⟩

theorem subscriptionRelations_of_reachable [Lzf] (h : Reachable s) :
    SubscriptionRelations s ∧ ∀ op, Enabled s op → ∀ e, step s op = .error e → e.Outside :=
  ⟨h.related.subscriptionRelations, fun _ ha => h.step_errs ha⟩

/-- A client has subscribed to a pattern. -/
theorem subscriptionRelations_subscribed :
    ∃ s, (s.channelAt 2).map ChannelT.patterns = some [((4, [42]), [0])] ∧ SubscriptionRelations s := by
  obtain ⟨s, hs, hp⟩ := Sample.exists_run
    (Sample.login 0 ++ [Sample.named Cmd.channelCreate 0 [99] (leBytes 4 0),
      Sample.named Cmd.channelPsubscribe 0 [99] (padded 32 [42])])
    (p := fun s => (s.channelAt 2).map ChannelT.patterns = some [((4, [42]), [0])]) (by decide +kernel)
  exact ⟨s, by simpa using hp, (@subscriptionRelations_of_reachable _ Lzf.stored hs).1⟩

end EagleMQ
