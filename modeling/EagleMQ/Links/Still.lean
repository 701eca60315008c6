import EagleMQ.Handlers

/-! The operations on the relations leave everything else as it is: users,
objects, responses, messages, and the settings of clients and queues. They stop
at most for want of a record or of a list node. -/

namespace EagleMQ

open Prog

/-! ### Records without their relations -/

def EagleClient.bare (x : EagleClient) : EagleClient :=
  { x with declaredQueues := [], subscribedQueues := [], subscribedTopics := [], subscribedPatterns := [] }

def QueueT.bare (x : QueueT) : QueueT :=
  { x with declaredClients := [], subscribedClientsMsg := [], subscribedClientsNotify := [], routes := [] }

/-- A state without the relations, routes and channels. -/
def EagleServer.bare (s : EagleServer) : EagleServer :=
  { s with
    clientAt := fun c => (s.clientAt c).map EagleClient.bare
    queueAt := fun q => (s.queueAt q).map QueueT.bare
    routes := []
    routeAt := fun _ => none
    channels := []
    channelAt := fun _ => none
    fresh := 0
    destroyed := [] }

/-- Only relations, routes and channels have changed. -/
structure Still (s t : EagleServer) : Prop where
  bare : t.bare = s.bare
  fresh : s.fresh ≤ t.fresh

instance : IsPreorder EagleServer Still where
  refl _ := ⟨rfl, Nat.le_refl _⟩
  trans _ _ _ h h' := ⟨h'.bare.trans h.bare, Nat.le_trans h.fresh h'.fresh⟩

/-- The fault of a record or of a list of records. -/
def Fault.Link (e : Fault) : Prop := e = .record ∨ e = .link ∨ e = .depth

section Still

variable {s t : EagleServer} {c q r ch : Ptr}

theorem Still.client (h : Still s t) (c : Ptr) :
    (t.clientAt c).map EagleClient.bare = (s.clientAt c).map EagleClient.bare :=
  congrFun (congrArg EagleServer.clientAt h.bare) c

theorem Still.queue (h : Still s t) (q : Ptr) :
    (t.queueAt q).map QueueT.bare = (s.queueAt q).map QueueT.bare :=
  congrFun (congrArg EagleServer.queueAt h.bare) q

theorem Still.objects (h : Still s t) : t.objects = s.objects :=
  show t.bare.objects = s.bare.objects by rw [h.bare]

theorem map_update {α β : Type} (h : Heap α) (f : α → β) (p : Ptr) (x : α) :
    (fun q => (Function.update h p (some x) q).map f) = Function.update (fun q => (h q).map f) p
      (some (f x)) := by
  funext q
  by_cases hq : q = p
  · subst hq; simp
  · simp [hq]

theorem still_setClient {x y : EagleClient} (hx : s.clientAt c = some x) (hy : y.bare = x.bare) :
    Still s (s.setClient c y) := by
  refine ⟨?_, Nat.le_refl _⟩
  have hsame : Function.update (fun q => (s.clientAt q).map EagleClient.bare) c (some y.bare) =
      fun q => (s.clientAt q).map EagleClient.bare := by
    rw [hy, Function.update_eq_self_iff, hx]
    rfl
  simp only [EagleServer.bare, EagleServer.setClient, map_update, hsame]

theorem still_setQueue {x y : QueueT} (hx : s.queueAt q = some x) (hy : y.bare = x.bare) :
    Still s (s.setQueue q y) := by
  refine ⟨?_, Nat.le_refl _⟩
  have hsame : Function.update (fun q => (s.queueAt q).map QueueT.bare) q (some y.bare) =
      fun q => (s.queueAt q).map QueueT.bare := by
    rw [hy, Function.update_eq_self_iff, hx]
    rfl
  simp only [EagleServer.bare, EagleServer.setQueue, map_update, hsame]

/-! ### Access to records -/

theorem getClient_still : Keeps Still Fault.Link (getClient c) := by
  refine keeps_bind keeps_get fun s => ?_
  cases s.clientAt c with
  | none => exact keeps_throw (.inl rfl)
  | some x => exact keeps_pure x

theorem getQueue_still : Keeps Still Fault.Link (getQueue q) := by
  refine keeps_bind keeps_get fun s => ?_
  cases s.queueAt q with
  | none => exact keeps_throw (.inl rfl)
  | some x => exact keeps_pure x

theorem getRoute_still : Keeps Still Fault.Link (getRoute r) := by
  refine keeps_bind keeps_get fun s => ?_
  cases s.routeAt r with
  | none => exact keeps_throw (.inl rfl)
  | some x => exact keeps_pure x

theorem getChannel_still : Keeps Still Fault.Link (getChannel ch) := by
  refine keeps_bind keeps_get fun s => ?_
  cases s.channelAt ch with
  | none => exact keeps_throw (.inl rfl)
  | some x => exact keeps_pure x

theorem modifyClient_still {f : EagleClient → EagleClient} (hf : ∀ x, (f x).bare = x.bare) :
    Keeps Still Fault.Link (modifyClient c f) := fun s => by
  unfold modifyClient getClient
  simp only [wp_bind, wp_get]
  cases hx : s.clientAt c with
  | none => exact .inl rfl
  | some x => exact still_setClient hx (hf x)

theorem modifyQueue_still {f : QueueT → QueueT} (hf : ∀ x, (f x).bare = x.bare) :
    Keeps Still Fault.Link (modifyQueue q f) := fun s => by
  unfold modifyQueue getQueue
  simp only [wp_bind, wp_get]
  cases hx : s.queueAt q with
  | none => exact .inl rfl
  | some x => exact still_setQueue hx (hf x)

theorem modifyRoute_still {f : RouteT → RouteT} : Keeps Still Fault.Link (modifyRoute r f) :=
  keeps_bind getRoute_still fun _ => keeps_modify _ fun _ => ⟨rfl, Nat.le_refl _⟩

theorem modifyChannel_still {f : ChannelT → ChannelT} : Keeps Still Fault.Link (modifyChannel ch f) :=
  keeps_bind getChannel_still fun _ => keeps_modify _ fun _ => ⟨rfl, Nat.le_refl _⟩

/-- The setting of lists of the server that are not looked at. -/
theorem modify_still {f : EagleServer → EagleServer} (hf : ∀ s, (f s).bare = s.bare)
    (hn : ∀ s, s.fresh ≤ (f s).fresh) : Keeps Still Fault.Link (modify f : ServerM Unit) :=
  keeps_modify _ fun s => ⟨hf s, hn s⟩

/-! ### Queues and their clients -/

variable (c q)

theorem declareClientQueueT_still : Keeps Still Fault.Link (declareClientQueueT q c) :=
  keeps_bind (modifyClient_still fun _ => rfl) fun _ => modifyQueue_still fun _ => rfl

theorem undeclareClientQueueT_still : Keeps Still Fault.Link (undeclareClientQueueT q c) :=
  keeps_bind (modifyClient_still fun _ => rfl) fun _ => modifyQueue_still fun _ => rfl

theorem subscribeClientQueueT_still (flags : ℕ) :
    Keeps Still Fault.Link (subscribeClientQueueT q c flags) :=
  keeps_bind (modifyClient_still fun _ => rfl) fun _ =>
    keeps_ite (fun _ => modifyQueue_still fun _ => rfl) fun _ => modifyQueue_still fun _ => rfl

theorem unsubscribeClientQueueT_still : Keeps Still Fault.Link (unsubscribeClientQueueT q c) :=
  keeps_bind (modifyClient_still fun _ => rfl) fun _ => modifyQueue_still fun x => by
    split_ifs <;> rfl

theorem ejectSubscribers_still (list : QueueT → List Ptr) {set : QueueT → List Ptr → QueueT}
    (hset : ∀ x l, (set x l).bare = x.bare) : Keeps Still Fault.Link (ejectSubscribers q list set) :=
  keeps_foreach (keeps_bind getQueue_still fun _ => keeps_pure _) (.inr (.inl rfl)) fun _ =>
    keeps_bind (modifyClient_still fun _ => rfl) fun _ => modifyQueue_still fun _ => hset _ _

theorem ejectClientsQueueT_still : Keeps Still Fault.Link (ejectClientsQueueT q) :=
  keeps_bind (keeps_foreach (keeps_bind getQueue_still fun _ => keeps_pure _) (.inr (.inl rfl)) fun c =>
    undeclareClientQueueT_still c q) fun _ =>
  keeps_bind (ejectSubscribers_still q _ fun _ _ => rfl) fun _ =>
    ejectSubscribers_still q _ fun _ _ => rfl

/-! ### Routes -/

variable (r) (key name : Name) (flags : ℕ)

theorem createRouteT_still : Keeps Still Fault.Link (createRouteT name flags) :=
  fun _ => ⟨rfl, Nat.le_succ _⟩

theorem unlinkQueueRouteT_still : Keeps Still Fault.Link (unlinkQueueRouteT q r key) :=
  modifyQueue_still fun _ => rfl

theorem bindRouteT_still : Keeps Still Fault.Link (bindRouteT r q key) :=
  keeps_bind getRoute_still fun _ => keeps_ite (fun _ => keeps_pure _) fun _ =>
    keeps_bind modifyRoute_still fun _ => modifyQueue_still fun x => by split_ifs <;> rfl

theorem deleteRouteT_still : Keeps Still Fault.Link (deleteRouteT r) :=
  keeps_bind getRoute_still fun _ =>
    keeps_bind (keeps_forM (fun _ => keeps_forM (fun q => unlinkQueueRouteT_still q r _) _) _) fun _ =>
      modify_still (fun _ => rfl) fun _ => Nat.le_refl _

theorem listDeleteRoute_still : Keeps Still Fault.Link (listDeleteRoute r) :=
  keeps_bind keeps_get fun _ => keeps_ite
    (fun _ => keeps_bind (modify_still (fun _ => rfl) fun _ => Nat.le_refl _) fun _ =>
      keeps_bind (deleteRouteT_still r) fun _ => keeps_pure _)
    fun _ => keeps_pure _

theorem unbindRouteT_still : Keeps Still Fault.Link (unbindRouteT r q key) := by
  refine keeps_bind getRoute_still fun _ => keeps_ite (fun _ => ?_) fun _ => keeps_pure _
  refine keeps_bind modifyRoute_still fun _ => keeps_bind (unlinkQueueRouteT_still q r key) fun _ =>
    keeps_bind getRoute_still fun _ => keeps_ite (fun _ => ?_) fun _ => keeps_pure _
  exact keeps_bind (listDeleteRoute_still r) fun _ => keeps_pure _

theorem ejectRoutesQueueT_still : Keeps Still Fault.Link (ejectRoutesQueueT q) :=
  keeps_foreach (keeps_bind getQueue_still fun _ => keeps_pure _) (.inr (.inl rfl)) fun key =>
    keeps_foreach (keeps_bind getQueue_still fun _ => keeps_pure _) (.inr (.inl rfl)) fun r =>
      keeps_bind (unbindRouteT_still q r key) fun _ => keeps_pure _

theorem deleteRoutes_still : Keeps Still Fault.Link deleteRoutes :=
  keeps_foreach (keeps_bind keeps_get fun _ => keeps_pure _) (.inr (.inl rfl)) fun r =>
    keeps_bind (listDeleteRoute_still r) fun _ => keeps_pure _

/-! ### Channels -/

variable (ch) (d : Side)

theorem createChannelT_still : Keeps Still Fault.Link (createChannelT name flags) :=
  fun _ => ⟨rfl, Nat.le_succ _⟩

theorem setSide_bare (x : EagleClient) (l : Keylist Ptr TopicNode) : (x.setSide d l).bare = x.bare := by
  cases d <;> rfl

theorem linkSide_still (node : TopicNode) : Keeps Still Fault.Link (linkSide d ch c node) :=
  keeps_bind modifyChannel_still fun _ => modifyClient_still fun x => by
    split_ifs
    · rfl
    · exact setSide_bare d x _

theorem subscribeSide_still : Keeps Still Fault.Link (subscribeSide d ch c name) := by
  refine keeps_bind getChannel_still fun x => ?_
  cases findNode (x.side d) name with
  | none =>
    exact keeps_bind keeps_get fun _ => keeps_bind (modify_still (fun _ => rfl) fun _ => Nat.le_succ _)
      fun _ => linkSide_still c ch d _
  | some node => exact keeps_ite (fun _ => keeps_pure _) fun _ => linkSide_still c ch d node

section Destructor

variable {destroy : Ptr → ServerM Unit} (hdestroy : ∀ ch, Keeps Still Fault.Link (destroy ch))

include hdestroy

theorem listDeleteWith_still : Keeps Still Fault.Link (listDeleteWith destroy ch) :=
  keeps_bind keeps_get fun _ => keeps_ite
    (fun _ => keeps_bind (modify_still (fun _ => rfl) fun _ => Nat.le_refl _) fun _ =>
      keeps_bind (hdestroy ch) fun _ => keeps_pure _)
    fun _ => keeps_pure _

theorem unsubscribeWith_still : Keeps Still Fault.Link (unsubscribeWith destroy d ch c name) := by
  refine keeps_bind getChannel_still fun x => ?_
  cases findNode (x.side d) name with
  | none => exact keeps_pure _
  | some node =>
    refine keeps_bind modifyChannel_still fun _ => keeps_bind (modifyClient_still fun x => setSide_bare d x _)
      fun _ => keeps_bind getChannel_still fun _ => keeps_ite (fun _ => ?_) fun _ => keeps_pure _
    exact keeps_bind (listDeleteWith_still ch hdestroy) fun _ => keeps_pure _

theorem ejectSide_still : Keeps Still Fault.Link (ejectSide destroy d ch) :=
  keeps_foreach (keeps_bind getChannel_still fun _ => keeps_pure _) (.inr (.inl rfl)) fun node =>
    keeps_foreach (keeps_bind getChannel_still fun _ => keeps_pure _) (.inr (.inl rfl)) fun c =>
      keeps_bind (unsubscribeWith_still c ch node.2 d hdestroy) fun _ => keeps_pure _

end Destructor

theorem destroyChannelT_still (n : ℕ) : ∀ ch, Keeps Still Fault.Link (destroyChannelT n ch) := by
  induction n with
  | zero => exact fun _ => keeps_throw (.inr (.inr rfl))
  | succ n ih =>
    exact fun ch => keeps_bind (ejectSide_still ch .topic ih) fun _ =>
      keeps_bind (ejectSide_still ch .pattern ih) fun _ => keeps_bind getChannel_still fun _ =>
        modify_still (fun _ => rfl) fun _ => Nat.le_refl _

theorem deleteChannelT_still (ch : Ptr) : Keeps Still Fault.Link (deleteChannelT ch) :=
  keeps_bind keeps_get fun _ => destroyChannelT_still _ ch

theorem listDeleteChannel_still : Keeps Still Fault.Link (listDeleteChannel ch) :=
  listDeleteWith_still ch deleteChannelT_still

theorem unsubscribeSide_still : Keeps Still Fault.Link (unsubscribeSide d ch c name) :=
  unsubscribeWith_still c ch name d deleteChannelT_still

theorem deleteChannels_still : Keeps Still Fault.Link deleteChannels :=
  keeps_foreach (keeps_bind keeps_get fun _ => keeps_pure _) (.inr (.inl rfl)) fun ch =>
    keeps_bind (listDeleteChannel_still ch) fun _ => keeps_pure _

theorem ejectChannelClientSide_still : Keeps Still Fault.Link (ejectChannelClientSide d c) :=
  keeps_foreach (keeps_bind getClient_still fun _ => keeps_pure _) (.inr (.inl rfl)) fun ch =>
    keeps_foreach (keeps_bind getClient_still fun _ => keeps_pure _) (.inr (.inl rfl)) fun _ =>
      keeps_bind getChannel_still fun _ => keeps_ite
        (fun _ => keeps_bind (unsubscribeSide_still c ch _ d) fun _ => keeps_pure _)
        fun _ => keeps_throw (.inr (.inl rfl))

theorem ejectChannelClient_still : Keeps Still Fault.Link (ejectChannelClient c) :=
  keeps_bind (ejectChannelClientSide_still c .topic) fun _ => ejectChannelClientSide_still c .pattern

end Still

end EagleMQ
