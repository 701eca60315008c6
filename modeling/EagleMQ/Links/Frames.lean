import EagleMQ.Links

/-! What the operations on objects, responses and messages do to the relations:
nothing, or they change the order in a list. None of them stops because a record
or a node between records is not there. -/

namespace EagleMQ

open Prog

/-- The fault is about neither records nor the lists between them. -/
def Fault.Outside (e : Fault) : Prop := e ≠ .record ∧ e ≠ .link ∧ e ≠ .depth

instance : DecidablePred Fault.Outside := fun _ => inferInstanceAs (Decidable (_ ∧ _ ∧ _))

/-! ### Access to records -/

section Access

variable {s : EagleServer} {p : Ptr} {E : Fault → Prop}

theorem wp_getClient {Q : EagleClient → EagleServer → Prop} {x : EagleClient}
    (h : s.clientAt p = some x) : wp (getClient p) Q E s ↔ Q x s := by
  simp [getClient, h]

theorem wp_getQueue {Q : QueueT → EagleServer → Prop} {x : QueueT} (h : s.queueAt p = some x) :
    wp (getQueue p) Q E s ↔ Q x s := by
  simp [getQueue, h]

theorem wp_getRoute {Q : RouteT → EagleServer → Prop} {x : RouteT} (h : s.routeAt p = some x) :
    wp (getRoute p) Q E s ↔ Q x s := by
  simp [getRoute, h]

theorem wp_getChannel {Q : ChannelT → EagleServer → Prop} {x : ChannelT}
    (h : s.channelAt p = some x) : wp (getChannel p) Q E s ↔ Q x s := by
  simp [getChannel, h]

variable {Q : Unit → EagleServer → Prop}

theorem wp_modifyClient {f : EagleClient → EagleClient}
    (h : ∃ x, s.clientAt p = some x ∧ Q () (s.setClient p (f x))) : wp (modifyClient p f) Q E s := by
  obtain ⟨x, hx, hQ⟩ := h
  rwa [modifyClient, wp_bind, wp_getClient hx]

theorem wp_modifyQueue {f : QueueT → QueueT}
    (h : ∃ x, s.queueAt p = some x ∧ Q () (s.setQueue p (f x))) : wp (modifyQueue p f) Q E s := by
  obtain ⟨x, hx, hQ⟩ := h
  rwa [modifyQueue, wp_bind, wp_getQueue hx]

theorem wp_modifyRoute {f : RouteT → RouteT}
    (h : ∃ x, s.routeAt p = some x ∧ Q () (s.setRoute p (f x))) : wp (modifyRoute p f) Q E s := by
  obtain ⟨x, hx, hQ⟩ := h
  rwa [modifyRoute, wp_bind, wp_getRoute hx]

theorem wp_modifyChannel {f : ChannelT → ChannelT}
    (h : ∃ x, s.channelAt p = some x ∧ Q () (s.setChannel p (f x))) : wp (modifyChannel p f) Q E s := by
  obtain ⟨x, hx, hQ⟩ := h
  rwa [modifyChannel, wp_bind, wp_getChannel hx]

theorem run_getClient {x : EagleClient} (h : s.clientAt p = some x) : getClient p s = .ok (x, s) := by
  simp only [getClient, bind, StateT.bind, Except.bind, get, getThe, MonadStateOf.get, StateT.get,
    pure, Except.pure, h]
  rfl

theorem run_getQueue {x : QueueT} (h : s.queueAt p = some x) : getQueue p s = .ok (x, s) := by
  simp only [getQueue, bind, StateT.bind, Except.bind, get, getThe, MonadStateOf.get, StateT.get,
    pure, Except.pure, h]
  rfl

theorem run_getRoute {x : RouteT} (h : s.routeAt p = some x) : getRoute p s = .ok (x, s) := by
  simp only [getRoute, bind, StateT.bind, Except.bind, get, getThe, MonadStateOf.get, StateT.get,
    pure, Except.pure, h]
  rfl

theorem run_getChannel {x : ChannelT} (h : s.channelAt p = some x) : getChannel p s = .ok (x, s) := by
  simp only [getChannel, bind, StateT.bind, Except.bind, get, getThe, MonadStateOf.get, StateT.get,
    pure, Except.pure, h]
  rfl

theorem read_getClient {α : Type} {x : EagleClient} (h : s.clientAt p = some x)
    (f : EagleClient → α) : (do pure (f (← getClient p)) : ServerM α) s = .ok (f x, s) := by
  simp only [bind, StateT.bind, Except.bind, run_getClient h]
  rfl

theorem read_getQueue {α : Type} {x : QueueT} (h : s.queueAt p = some x) (f : QueueT → α) :
    (do pure (f (← getQueue p)) : ServerM α) s = .ok (f x, s) := by
  simp only [bind, StateT.bind, Except.bind, run_getQueue h]
  rfl

theorem read_getChannel {α : Type} {x : ChannelT} (h : s.channelAt p = some x) (f : ChannelT → α) :
    (do pure (f (← getChannel p)) : ServerM α) s = .ok (f x, s) := by
  simp only [bind, StateT.bind, Except.bind, run_getChannel h]
  rfl

theorem client_alive : (links s).clients.alive p = true ↔ ∃ x, s.clientAt p = some x :=
  Option.isSome_iff_exists

theorem queue_alive : (links s).queues.alive p = true ↔ ∃ x, s.queueAt p = some x :=
  Option.isSome_iff_exists

theorem route_alive : (links s).routes.alive p = true ↔ ∃ x, s.routeAt p = some x :=
  Option.isSome_iff_exists

theorem channel_alive : (links s).channels.alive p = true ↔ ∃ x, s.channelAt p = some x :=
  Option.isSome_iff_exists

end Access

/-! ### Relations of an updated state -/

section Update

variable {s : EagleServer} {p : Ptr}

theorem isSome_update {α : Type} {h : Heap α} {x : α} (hp : h p = some x) (y : α) :
    (fun q => (Function.update h p (some y) q).isSome) = fun q => (h q).isSome := by
  funext q
  by_cases hq : q = p
  · subst hq; simp [hp]
  · simp [hq]

theorem links_client {x : EagleClient} (h : s.clientAt p = some x) (y : EagleClient) :
    links (s.setClient p y) = { links s with
      declaredQueues := Function.update (links s).declaredQueues p y.declaredQueues
      subscribedQueues := Function.update (links s).subscribedQueues p y.subscribedQueues
      topics := fun d => Function.update ((links s).topics d) p (y.side d) } := by
  simp only [links, EagleServer.setClient, Heap.read_update_some, isSome_update h]

theorem links_queue {x : QueueT} (h : s.queueAt p = some x) (y : QueueT) :
    links (s.setQueue p y) = { links s with
      declaredClients := Function.update (links s).declaredClients p y.declaredClients
      subscribedClientsMsg := Function.update (links s).subscribedClientsMsg p y.subscribedClientsMsg
      subscribedClientsNotify :=
        Function.update (links s).subscribedClientsNotify p y.subscribedClientsNotify
      boundRoutes := Function.update (links s).boundRoutes p y.routes } := by
  simp only [links, EagleServer.setQueue, Heap.read_update_some, isSome_update h]

theorem links_route {x : RouteT} (h : s.routeAt p = some x) (y : RouteT) :
    links (s.setRoute p y) =
      { links s with boundQueues := Function.update (links s).boundQueues p y.keys } := by
  simp only [links, EagleServer.setRoute, Heap.read_update_some, isSome_update h]

theorem links_channel {x : ChannelT} (h : s.channelAt p = some x) (y : ChannelT) :
    links (s.setChannel p y) =
      { links s with members := fun d => Function.update ((links s).members d) p (y.side d) } := by
  simp only [links, EagleServer.setChannel, Heap.read_update_some, isSome_update h]

theorem links_client_same {x y : EagleClient} (h : s.clientAt p = some x)
    (hd : y.declaredQueues = x.declaredQueues) (hs : y.subscribedQueues = x.subscribedQueues)
    (ht : ∀ d, y.side d = x.side d) :
    links (s.setClient p y) = links s := by
  rw [links_client h, hd, hs]
  simp only [links, ht, Heap.update_read_self h]

theorem links_queue_same {x y : QueueT} (h : s.queueAt p = some x)
    (hd : y.declaredClients = x.declaredClients)
    (hm : y.subscribedClientsMsg = x.subscribedClientsMsg)
    (hn : y.subscribedClientsNotify = x.subscribedClientsNotify) (hr : y.routes = x.routes) :
    links (s.setQueue p y) = links s := by
  rw [links_queue h, hd, hm, hn, hr]
  simp only [links, Heap.update_read_self h]

theorem links_route_same {x y : RouteT} (h : s.routeAt p = some x) (hk : y.keys = x.keys) :
    links (s.setRoute p y) = links s := by
  rw [links_route h, hk]
  simp only [links, Heap.update_read_self h]

theorem links_channel_same {x y : ChannelT} (h : s.channelAt p = some x)
    (hk : ∀ d, y.side d = x.side d) :
    links (s.setChannel p y) = links s := by
  rw [links_channel h]
  simp only [links, hk, Heap.update_read_self h]

/-! ### Records come and go -/

theorem isSome_alloc {α : Type} (h : Heap α) (p : Ptr) (x : α) :
    (fun q => (Function.update h p (some x) q).isSome) =
      Function.update (fun q => (h q).isSome) p true := by
  funext q
  by_cases hq : q = p
  · subst hq; simp
  · simp [hq]

theorem isSome_free {α : Type} (h : Heap α) (p : Ptr) :
    (fun q => (Function.update h p none q).isSome) =
      Function.update (fun q => (h q).isSome) p false := by
  funext q
  by_cases hq : q = p
  · subst hq; simp
  · simp [hq]

theorem links_freeClient : links { s with clientAt := Function.update s.clientAt p none } =
    { links s with
      clients := (links s).clients.free p
      declaredQueues := Function.update (links s).declaredQueues p []
      subscribedQueues := Function.update (links s).subscribedQueues p []
      topics := fun d => Function.update ((links s).topics d) p [] } := by
  simp only [links, Heap.read_update_none, isSome_free, Roster.free]

theorem links_freeQueue : links (s.freeQueue p) =
    { links s with
      queues := (links s).queues.free p
      declaredClients := Function.update (links s).declaredClients p []
      subscribedClientsMsg := Function.update (links s).subscribedClientsMsg p []
      subscribedClientsNotify := Function.update (links s).subscribedClientsNotify p []
      boundRoutes := Function.update (links s).boundRoutes p [] } := by
  simp only [links, EagleServer.freeQueue, Heap.read_update_none, isSome_free, Roster.free]

theorem links_freeRoute : links (s.freeRoute p) =
    { links s with
      routes := (links s).routes.free p
      boundQueues := Function.update (links s).boundQueues p [] } := by
  simp only [links, EagleServer.freeRoute, Heap.read_update_none, isSome_free, Roster.free]

theorem links_freeChannel : links (s.freeChannel p) =
    { links s with
      channels := (links s).channels.free p
      members := fun d => Function.update ((links s).members d) p [] } := by
  simp only [links, EagleServer.freeChannel, Heap.read_update_none, isSome_free, Roster.free]

/-- A new record mentions nothing, as no record did. -/
theorem links_allocClient {x : EagleClient} (h : s.clientAt p = none) (hd : x.declaredQueues = [])
    (hs : x.subscribedQueues = []) (ht : ∀ d, x.side d = []) :
    links (s.setClient p x) = { links s with clients := (links s).clients.alloc p } := by
  simp only [links, EagleServer.setClient, Heap.read_update_some, isSome_alloc, Roster.alloc, hd, hs, ht,
    Heap.update_read_none h]

theorem links_allocQueue {x : QueueT} (h : s.queueAt p = none) (hd : x.declaredClients = [])
    (hm : x.subscribedClientsMsg = []) (hn : x.subscribedClientsNotify = []) (hr : x.routes = []) :
    links (s.setQueue p x) = { links s with queues := (links s).queues.alloc p } := by
  simp only [links, EagleServer.setQueue, Heap.read_update_some, isSome_alloc, Roster.alloc, hd, hm, hn,
    hr, Heap.update_read_none h]

theorem links_allocRoute {x : RouteT} (h : s.routeAt p = none) (hk : x.keys = []) :
    links (s.setRoute p x) = { links s with routes := (links s).routes.alloc p } := by
  simp only [links, EagleServer.setRoute, Heap.read_update_some, isSome_alloc, Roster.alloc, hk,
    Heap.update_read_none h]

theorem links_allocChannel {x : ChannelT} (h : s.channelAt p = none) (hk : ∀ d, x.side d = []) :
    links (s.setChannel p x) = { links s with channels := (links s).channels.alloc p } := by
  simp only [links, EagleServer.setChannel, Heap.read_update_some, isSome_alloc, Roster.alloc, hk,
    Heap.update_read_none h]

/-! ### One list is changed -/

theorem links_setDeclaredQueues {x : EagleClient} (h : s.clientAt p = some x) (l : List Ptr) :
    links (s.setClient p { x with declaredQueues := l }) =
      { links s with declaredQueues := Function.update (links s).declaredQueues p l } := by
  rw [links_client h]
  simp only [links, EagleClient.side, Heap.update_read_self h]

theorem links_setSubscribedQueues {x : EagleClient} (h : s.clientAt p = some x) (l : List Ptr) :
    links (s.setClient p { x with subscribedQueues := l }) =
      { links s with subscribedQueues := Function.update (links s).subscribedQueues p l } := by
  rw [links_client h]
  simp only [links, EagleClient.side, Heap.update_read_self h]

theorem links_setTopics {x : EagleClient} (h : s.clientAt p = some x) (d : Side)
    (l : Keylist Ptr TopicNode) :
    links (s.setClient p (x.setSide d l)) =
      { links s with
        topics := Function.update (links s).topics d (Function.update ((links s).topics d) p l) } := by
  rw [links_client h]
  have hd : (x.setSide d l).declaredQueues = x.declaredQueues := by cases d <;> rfl
  have hs : (x.setSide d l).subscribedQueues = x.subscribedQueues := by cases d <;> rfl
  rw [hd, hs]
  simp only [links, Heap.update_read_self h, EagleClient.side_setSide]
  congr 1
  funext d'
  split_ifs with hdd
  · rw [hdd, Function.update_self]
  · rw [Function.update_of_ne hdd, Heap.update_read_self h]

theorem links_setDeclaredClients {x : QueueT} (h : s.queueAt p = some x) (l : List Ptr) :
    links (s.setQueue p { x with declaredClients := l }) =
      { links s with declaredClients := Function.update (links s).declaredClients p l } := by
  rw [links_queue h]
  simp only [links, Heap.update_read_self h]

theorem links_setMsg {x : QueueT} (h : s.queueAt p = some x) (l : List Ptr) :
    links (s.setQueue p { x with subscribedClientsMsg := l }) =
      { links s with subscribedClientsMsg := Function.update (links s).subscribedClientsMsg p l } := by
  rw [links_queue h]
  simp only [links, Heap.update_read_self h]

theorem links_setNotify {x : QueueT} (h : s.queueAt p = some x) (l : List Ptr) :
    links (s.setQueue p { x with subscribedClientsNotify := l }) =
      { links s with
        subscribedClientsNotify := Function.update (links s).subscribedClientsNotify p l } := by
  rw [links_queue h]
  simp only [links, Heap.update_read_self h]

theorem links_setRoutes {x : QueueT} (h : s.queueAt p = some x) (l : Keylist Name Ptr) :
    links (s.setQueue p { x with routes := l }) =
      { links s with boundRoutes := Function.update (links s).boundRoutes p l } := by
  rw [links_queue h]
  simp only [links, Heap.update_read_self h]

theorem links_setKeys {x : RouteT} (h : s.routeAt p = some x) (l : Keylist Name Ptr) :
    links (s.setRoute p { x with keys := l }) =
      { links s with boundQueues := Function.update (links s).boundQueues p l } :=
  links_route h _

theorem links_setMembers {x : ChannelT} (h : s.channelAt p = some x) (d : Side)
    (l : Keylist TopicNode Ptr) :
    links (s.setChannel p (x.setSide d l)) =
      { links s with
        members := Function.update (links s).members d (Function.update ((links s).members d) p l) } := by
  rw [links_channel h]
  simp only [links, ChannelT.side_setSide]
  congr 1
  funext d'
  split_ifs with hdd
  · rw [hdd, Function.update_self]
  · rw [Function.update_of_ne hdd]
    exact Heap.update_read_self h ..

end Update

/-! ### Frames -/

/-- The relations of a state are known, and its counter is bounded from below. -/
structure Has (L : Links) (n : Ptr) (t : EagleServer) : Prop where
  agree : links t = L
  fresh : n ≤ t.fresh

/-- The relations stay as they are. -/
abbrev Frame (s t : EagleServer) : Prop := Has (links s) s.fresh t

instance : IsPreorder EagleServer Frame where
  refl _ := ⟨rfl, Nat.le_refl _⟩
  trans _ _ _ h h' := ⟨h'.agree.trans h.agree, Nat.le_trans h.fresh h'.fresh⟩

theorem Has.frame {L : Links} {n : Ptr} {t u : EagleServer} (h : Has L n t) (h' : Frame t u) :
    Has L n u := ⟨h'.agree.trans h.agree, Nat.le_trans h.fresh h'.fresh⟩

/-! ### Objects and responses -/

theorem find_errs (objects : Heap Object) (o : Ptr) : Errs Fault.Outside (Objects.find objects o) := by
  unfold Objects.find
  split
  · exact errs_error (by decide)
  · exact errs_ok _

theorem increment_errs (objects : Heap Object) (o : Ptr) :
    Errs Fault.Outside (Objects.incrementReferencesCount objects o) :=
  errs_bind (find_errs objects o) fun _ => errs_ite (errs_error (by decide)) (errs_ok _)

theorem decrement_errs (objects : Heap Object) (o : Ptr) :
    Errs Fault.Outside (Objects.decrementReferencesCount objects o) :=
  errs_bind (find_errs objects o) fun _ => errs_ok _

theorem createObject_frame (data : List Byte) : Keeps Frame Fault.Outside (createObject data) :=
  fun _ => ⟨rfl, Nat.le_succ _⟩

theorem modifyObjects_only {f : Heap Object → Except Fault (Heap Object)} {s : EagleServer}
    (h : Errs Fault.Outside (f s.objects)) :
    wp (modifyObjects f) (fun _ t => ∃ objects, t = { s with objects := objects }) Fault.Outside s := by
  rw [modifyObjects, wp_bind, wp_get]
  cases hf : f s.objects with
  | error e => exact h e hf
  | ok objects => exact ⟨objects, rfl⟩

theorem modifyObjects_frame {f : Heap Object → Except Fault (Heap Object)}
    (h : ∀ objects, Errs Fault.Outside (f objects)) :
    Keeps Frame Fault.Outside (modifyObjects f) :=
  keeps_bind keeps_get fun _ => keeps_bind (keeps_lift (h _)) fun _ =>
    keeps_modify _ fun _ => ⟨rfl, Nat.le_refl _⟩

theorem incrementReferencesCount_frame (o : Ptr) :
    Keeps Frame Fault.Outside (incrementReferencesCount o) :=
  modifyObjects_frame fun objects => increment_errs objects o

theorem decrementReferencesCount_frame (o : Ptr) :
    Keeps Frame Fault.Outside (decrementReferencesCount o) :=
  modifyObjects_frame fun objects => decrement_errs objects o

theorem releaseObject_frame (o : Ptr) : Keeps Frame Fault.Outside (releaseObject o) :=
  modifyObjects_frame fun objects => errs_bind (find_errs objects o) fun _ => errs_ok _

theorem resetRefcount_frame (o : Ptr) : Keeps Frame Fault.Outside (resetRefcount o) :=
  modifyObjects_frame fun objects => errs_bind (find_errs objects o) fun _ => errs_ok _

theorem objectSize_same (o : Ptr) (s : EagleServer) :
    wp (objectSize o) (fun _ t => t = s) Fault.Outside s := by
  rw [objectSize, wp_bind, wp_get]
  cases hf : Objects.find s.objects o with
  | error e => exact find_errs _ _ e hf
  | ok x => rfl

theorem objectSize_frame (o : Ptr) : Keeps Frame Fault.Outside (objectSize o) := fun s =>
  wp_mono (objectSize_same o s) (fun _ _ ht => ht ▸ ⟨rfl, Nat.le_refl _⟩) fun _ h => h

theorem copyStrings_errs {E : Fault → Prop} (hE : E .overflow) (n : ℕ) (l : List (ℕ × Name)) :
    Errs E (copyStrings n l) := by
  have hcopy : ∀ (buffer : List Byte) (x : ℕ × Name), Errs E (copyString buffer x.1 x.2) := by
    intro buffer x
    unfold copyString
    split_ifs
    · exact errs_error hE
    · exact errs_ok _
  have hfold : ∀ buffer, Errs E (l.foldlM (fun buffer x => copyString buffer x.1 x.2) buffer) := by
    induction l with
    | nil => exact fun buffer => errs_ok buffer
    | cons x l ih => exact fun buffer => errs_bind (hcopy buffer x) ih
  rw [copyStrings]
  exact hfold _

theorem copyStrings_frame (n : ℕ) (l : List (ℕ × Name)) (s : EagleServer) :
    wp (Prog.lift (copyStrings n l)) (fun _ t => Frame s t) Fault.Outside s :=
  keeps_lift (copyStrings_errs (by decide) n l) s

section Client

variable {s : EagleServer} {c : Ptr}

theorem modifyClient_frame {f : EagleClient → EagleClient}
    (hd : ∀ x, (f x).declaredQueues = x.declaredQueues)
    (hs : ∀ x, (f x).subscribedQueues = x.subscribedQueues) (ht : ∀ x d, (f x).side d = x.side d)
    (hc : (links s).clients.alive c = true) :
    wp (modifyClient c f) (fun _ t => Frame s t) Fault.Outside s := by
  obtain ⟨x, hx⟩ := client_alive.mp hc
  exact wp_modifyClient ⟨x, hx, links_client_same hx (hd x) (hs x) (ht x), Nat.le_refl _⟩

theorem appendResponse_frame (o : Ptr) (hc : (links s).clients.alive c = true) :
    wp (appendResponse c o) (fun _ t => Frame s t) Fault.Outside s := by
  rw [appendResponse, wp_bind, wp_get]
  exact modifyClient_frame (fun _ => rfl) (fun _ => rfl) (fun _ d => by cases d <;> rfl) hc

theorem setWriteEvent_frame (hc : (links s).clients.alive c = true) :
    wp (setWriteEvent c) (fun _ t => Frame s t) Fault.Outside s := by
  obtain ⟨x, hx⟩ := client_alive.mp hc
  rw [setWriteEvent, wp_bind, wp_getClient hx]
  refine wp_ite (fun _ => ⟨rfl, Nat.le_refl _⟩) fun _ => ?_
  rw [wp_bind, wp_get]
  refine wp_ite (fun _ => ?_) fun _ => ⟨rfl, Nat.le_refl _⟩
  rw [wp_bind]
  exact modifyClient_frame (fun _ => rfl) (fun _ => rfl) (fun _ d => by cases d <;> rfl) hc

theorem Has.client {L : Links} {n : Ptr} (h : Has L n s) (hc : L.clients.alive c = true) :
    (links s).clients.alive c = true := by rwa [h.agree]

theorem addResponse_frame (data : List Byte) (hc : (links s).clients.alive c = true) :
    wp (addResponse c data) (fun _ t => Frame s t) Fault.Outside s := by
  refine wp_bind_trans (createObject_frame data s) fun o t ht => ?_
  refine wp_bind_trans (setWriteEvent_frame (ht.client hc)) fun ok u hu => ?_
  exact wp_ite (fun _ => appendResponse_frame o ((ht.frame hu).client hc))
    fun _ => releaseObject_frame o u

theorem addObjectResponse_frame (o : Ptr) (hc : (links s).clients.alive c = true) :
    wp (addObjectResponse c o) (fun _ t => Frame s t) Fault.Outside s := by
  refine wp_bind_trans (incrementReferencesCount_frame o s) fun _ t ht => ?_
  refine wp_bind_trans (setWriteEvent_frame (ht.client hc)) fun ok u hu => ?_
  exact wp_ite (fun _ => appendResponse_frame o ((ht.frame hu).client hc))
    fun _ => decrementReferencesCount_frame o u

theorem addStatusResponse_frame (cmd status : Byte) (hc : (links s).clients.alive c = true) :
    wp (addStatusResponse c cmd status) (fun _ t => Frame s t) Fault.Outside s := by
  obtain ⟨x, hx⟩ := client_alive.mp hc
  rw [addStatusResponse, wp_bind, wp_getClient hx]
  exact wp_ite (fun _ => addResponse_frame _ hc) fun _ => ⟨rfl, Nat.le_refl _⟩

end Client

/-! ### Messages -/

section Queue

theorem node_errs (q : Queue) (p : Option Ptr) : Errs Fault.Outside (q.node p) := by
  unfold Queue.node
  split
  · exact errs_error (by decide)
  · split
    · exact errs_error (by decide)
    · exact errs_ok _

theorem pushValueHead_errs (q : Queue) (v : Ptr) : Errs Fault.Outside (q.pushValueHead v) :=
  errs_ite (errs_ok _) (errs_bind (node_errs q _) fun _ => errs_ok _)

theorem pushValueTail_errs (q : Queue) (v : Ptr) : Errs Fault.Outside (q.pushValueTail v) :=
  errs_ite (errs_ok _) (errs_bind (node_errs q _) fun _ => errs_ok _)

theorem getValue_errs (q : Queue) : Errs Fault.Outside q.getValue :=
  errs_ite (errs_ok _) (errs_bind (node_errs q _) fun _ => errs_ok _)

theorem popValue_errs (q : Queue) : Errs Fault.Outside q.popValue :=
  errs_ite (errs_ok _) (errs_bind (node_errs q _) fun _ => errs_ok _)

theorem freeNodes_errs (n : ℕ) :
    ∀ (q : Queue) (p : Option Ptr), Errs Fault.Outside (q.freeNodes n p) := by
  induction n with
  | zero => exact fun _ _ => errs_ok _
  | succ n ih =>
    exact fun q p => errs_bind (node_errs q p) fun _ => errs_bind (ih _ _) fun _ => errs_ok _

theorem deleteNode_errs (q : Queue) (n : Ptr) : Errs Fault.Outside (q.deleteNode n) := by
  refine errs_bind (node_errs q _) fun ⟨_, prev, next, value⟩ => ?_
  cases prev <;> cases next
  · exact errs_ok _
  · exact errs_bind (errs_ok _) fun _ => errs_bind (node_errs _ _) fun _ => errs_ok _
  · exact errs_bind (node_errs _ _) fun _ => errs_ok _
  · exact errs_bind (node_errs _ _) fun _ => errs_bind (errs_ok _) fun _ =>
      errs_bind (node_errs _ _) fun _ => errs_ok _

end Queue

/-- An operation on messages finds everything that is not a message, an object or
a node of one of their lists. -/
abbrev Harmless {α : Type} (m : StockM α) : Prop := Keeps (fun _ _ => True) Fault.Outside m

namespace Stock

variable (m : Ptr) (time : ℕ)

theorem modifyBacklog_harmless (f : Backlog → Backlog) : Harmless (modifyBacklog f) :=
  keeps_modify _ fun _ => trivial

theorem message_harmless : Harmless (message m) := by
  refine keeps_bind keeps_get fun s => ?_
  split
  · exact keeps_throw (by decide)
  · exact keeps_pure _

theorem createMessage_harmless (value : Ptr) (tag expiration : ℕ) :
    Harmless (createMessage value tag expiration) :=
  keeps_bind keeps_get fun _ => keeps_bind (modifyBacklog_harmless _) fun _ => keeps_pure _

theorem releaseMessage_harmless : Harmless (releaseMessage m) :=
  keeps_bind (message_harmless m) fun _ => keeps_bind keeps_get fun _ =>
    keeps_bind (keeps_lift (decrement_errs _ _)) fun _ =>
      keeps_bind (keeps_modify _ fun _ => trivial) fun _ => modifyBacklog_harmless _

theorem indexMessage_harmless (node : Option Ptr) : Harmless (indexMessage m node) :=
  keeps_bind keeps_get fun _ => keeps_bind (modifyBacklog_harmless _) fun _ =>
    keeps_bind (message_harmless m) fun _ => modifyBacklog_harmless _

theorem deleteExpire_harmless (node : Option Ptr) : Harmless (deleteExpire node) := by
  cases node with
  | none => exact keeps_throw (by decide)
  | some e =>
    exact keeps_bind keeps_get fun _ =>
      keeps_ite (fun _ => modifyBacklog_harmless _) fun _ => keeps_throw (by decide)

theorem storeMessage_harmless : Harmless (storeMessage m) :=
  keeps_bind keeps_get fun _ => keeps_bind (keeps_lift (pushValueHead_errs _ _)) fun _ =>
    keeps_bind (modifyBacklog_harmless _) fun _ => keeps_bind (message_harmless m) fun _ =>
      keeps_ite (fun _ => keeps_bind keeps_get fun _ => indexMessage_harmless m _) fun _ => keeps_pure _

theorem getMessageQueueT_harmless : Harmless getMessageQueueT :=
  keeps_bind keeps_get fun _ => keeps_lift (getValue_errs _)

theorem popMessageQueueT_harmless (now timeout : ℕ) : Harmless (popMessageQueueT now timeout) := by
  refine keeps_bind keeps_get fun _ => keeps_bind (keeps_lift (popValue_errs _)) fun x => ?_
  refine keeps_bind (modifyBacklog_harmless _) fun _ => ?_
  split
  · exact keeps_throw (by decide)
  · have hend : ∀ m (msg : Message), Harmless (if timeout ≠ 0 then do
          setMessage m { msg with confirm := (now + timeout) % 4294967296 }
          modifyBacklog fun b => { b with confirmMessages := b.confirmMessages ++ [m] }
        else releaseMessage m) := fun m msg =>
      keeps_ite (fun _ => keeps_bind (modifyBacklog_harmless _) fun _ => modifyBacklog_harmless _)
        fun _ => releaseMessage_harmless _
    refine keeps_bind (message_harmless _) fun msg => ?_
    exact keeps_ite (fun _ => keeps_bind (deleteExpire_harmless _) fun _ => hend _ _) fun _ => hend _ _

theorem findTag_errs (messages : Heap Message) (tag : ℕ) :
    ∀ l, Errs Fault.Outside (findTag messages tag l)
  | [] => errs_ok _
  | m :: l => by
    unfold findTag
    split
    · exact errs_error (by decide)
    · exact errs_ite (errs_ok _) (findTag_errs messages tag l)

theorem confirmMessageQueueT_harmless (tag : ℕ) : Harmless (confirmMessageQueueT tag) := by
  refine keeps_bind keeps_get fun _ => keeps_bind (keeps_lift (findTag_errs _ _ _)) fun x => ?_
  split
  · exact keeps_bind (modifyBacklog_harmless _) fun _ => keeps_bind (releaseMessage_harmless _)
      fun _ => keeps_pure _
  · exact keeps_pure _

theorem purgeQueueT_harmless : Harmless purgeQueueT :=
  keeps_bind keeps_get fun _ =>
    keeps_bind (keeps_lift (errs_bind (freeNodes_errs _ _ _) fun _ => errs_ok _)) fun _ =>
      keeps_bind (modifyBacklog_harmless _) fun _ => keeps_forM releaseMessage_harmless _

theorem releaseQueue_harmless : Harmless releaseQueue :=
  keeps_bind keeps_get fun _ => keeps_bind (keeps_lift (freeNodes_errs _ _ _)) fun _ =>
    keeps_bind (modifyBacklog_harmless _) fun _ => keeps_forM releaseMessage_harmless _

theorem processExpiredMessagesQueueT_harmless : Harmless (processExpiredMessagesQueueT time) := by
  refine keeps_foreach (keeps_bind keeps_get fun _ => keeps_pure _) (by decide) fun x => ?_
  refine keeps_bind (message_harmless _) fun _ => keeps_ite (fun _ => ?_) fun _ => keeps_pure _
  refine keeps_bind (deleteExpire_harmless _) fun _ => ?_
  split
  · exact keeps_throw (by decide)
  · exact keeps_bind keeps_get fun _ => keeps_bind (keeps_lift (deleteNode_errs _ _)) fun _ =>
      keeps_bind (modifyBacklog_harmless _) fun _ => releaseMessage_harmless _

theorem processUnconfirmedMessagesQueueT_harmless :
    Harmless (processUnconfirmedMessagesQueueT time) := by
  have hpush : ∀ m, Harmless (do setQueue (← lift ((← get).backlog.queue.pushValueTail m))) :=
    fun m => keeps_bind keeps_get fun _ => keeps_bind (keeps_lift (pushValueTail_errs _ _)) fun _ =>
      modifyBacklog_harmless _
  refine keeps_foreach (keeps_bind keeps_get fun _ => keeps_pure _) (by decide) fun m => ?_
  refine keeps_bind (message_harmless _) fun _ => keeps_ite (fun _ => ?_) fun _ => keeps_pure _
  refine keeps_bind (modifyBacklog_harmless _) fun _ => keeps_ite (fun _ => ?_) fun _ => hpush m
  refine keeps_ite (fun _ => keeps_pure _) fun _ => ?_
  exact keeps_bind keeps_get fun _ => keeps_bind (keeps_lift (pushValueTail_errs _ _)) fun _ =>
    keeps_bind (modifyBacklog_harmless _) fun _ => keeps_bind keeps_get fun _ =>
      indexMessage_harmless m _

end Stock

theorem withStock_frame {α : Type} {m : StockM α} {s : EagleServer} {q : Ptr} (hm : Harmless m)
    (hq : (links s).queues.alive q = true) :
    wp (withStock q m) (fun _ t => Frame s t) Fault.Outside s := by
  obtain ⟨x, hx⟩ := queue_alive.mp hq
  have hm := hm ⟨x.backlog, s.objects⟩
  unfold wp at hm ⊢
  simp only [withStock, hx]
  cases hres : m ⟨x.backlog, s.objects⟩ with
  | error e => simpa [hres, Except.map] using hm
  | ok r => exact ⟨links_queue_same hx rfl rfl rfl rfl, Nat.le_refl _⟩

end EagleMQ
