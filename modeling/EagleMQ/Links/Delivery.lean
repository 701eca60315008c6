import EagleMQ.Links.Frames

/-! Pushing and publishing reach every subscriber that a list names, and change
at most the order in a list. -/

namespace EagleMQ

open Prog

/-- Both sides of every relation agree, and the counter is above every address. -/
structure Related (X : Loose) (s : EagleServer) : Prop where
  consistent : (links s).Consistent X
  below : (links s).Below s.fresh

/-- The same records, and no relation has changed but in the order of a list. -/
structure Reordered (s t : EagleServer) : Prop where
  clients : (links t).clients = (links s).clients
  queues : (links t).queues = (links s).queues
  routes : (links t).routes = (links s).routes
  channels : (links t).channels = (links s).channels
  consistent : ∀ X, (links s).Consistent X → (links t).Consistent X
  subscribers : ∀ q, ((links t).subscribedClients q).Perm ((links s).subscribedClients q)
  fresh : s.fresh ≤ t.fresh

instance : IsPreorder EagleServer Reordered where
  refl _ := ⟨rfl, rfl, rfl, rfl, fun _ h => h, fun _ => .rfl, Nat.le_refl _⟩
  trans _ _ _ h h' := ⟨h'.clients.trans h.clients, h'.queues.trans h.queues,
    h'.routes.trans h.routes, h'.channels.trans h.channels,
    fun X hX => h'.consistent X (h.consistent X hX),
    fun q => (h'.subscribers q).trans (h.subscribers q), Nat.le_trans h.fresh h'.fresh⟩

variable {X : Loose} {s t : EagleServer} {c q r ch : Ptr}

theorem Has.reordered (h : Frame s t) : Reordered s t := by
  obtain ⟨hl, hf⟩ := h
  exact ⟨by rw [hl], by rw [hl], by rw [hl], by rw [hl], fun X hX => by rwa [hl],
    fun q => by rw [hl], hf⟩

theorem Related.has {L : Links} {n : Ptr} (h : Has L n t) (hc : L.Consistent X) (hb : L.Below n) :
    Related X t := by
  refine ⟨by rwa [h.agree], ?_⟩
  rw [h.agree]
  exact hb.mono h.fresh

theorem Related.frame (h : Related X s) (h' : Frame s t) : Related X t :=
  .has h' h.consistent h.below

theorem Related.reordered (h : Related X s) (h' : Reordered s t) : Related X t := by
  refine ⟨h'.consistent X h.consistent, Links.Below.mono ?_ h'.fresh⟩
  have hb := h.below
  exact ⟨by rw [h'.clients]; exact hb.clients, by rw [h'.queues]; exact hb.queues,
    by rw [h'.routes]; exact hb.routes, by rw [h'.channels]; exact hb.channels⟩

/-! ### A record that mentions another is there -/

theorem alive_of_read {α β : Type} {h : Heap α} {f : α → List β} {p : Ptr} {b : β}
    (hb : b ∈ Heap.read h f [] p) : (h p).isSome = true := by
  cases hp : h p with
  | none => simp [Heap.read_none hp] at hb
  | some x => rfl

theorem alive_of_read_values {α κ β : Type} [DecidableEq κ] [DecidableEq β] {h : Heap α}
    {f : α → Keylist κ β} {p : Ptr} {k : κ} {b : β} (hb : b ∈ (Heap.read h f [] p).values k) :
    (h p).isSome = true := by
  cases hp : h p with
  | none => simp [Heap.read_none hp] at hb
  | some x => rfl

theorem Related.subscriber (h : Related X s) (hc : c ∈ (links s).subscribedClients q) :
    (links s).clients.alive c = true :=
  alive_of_read (h.consistent.subscribed.mem.mpr hc)

theorem Related.declarer (h : Related X s) (hc : c ∈ (links s).declaredClients q) :
    (links s).clients.alive c = true :=
  alive_of_read (h.consistent.declared.mem.mpr hc)

theorem Related.declaredQueue (h : Related X s) (hq : q ∈ (links s).declaredQueues c) :
    (links s).queues.alive q = true :=
  alive_of_read (h.consistent.declared.mem.mp hq)

theorem Related.subscribedQueue (h : Related X s) (hq : q ∈ (links s).subscribedQueues c) :
    (links s).queues.alive q = true := by
  have hc := h.consistent.subscribed.mem.mp hq
  rcases List.mem_append.mp hc with hc | hc
  · exact alive_of_read (h := s.queueAt) hc
  · exact alive_of_read (h := s.queueAt) hc

theorem Related.boundQueue (h : Related X s) {key : Name}
    (hq : q ∈ ((links s).boundQueues r).values key) : (links s).queues.alive q = true :=
  alive_of_read_values (h := s.queueAt) ((h.consistent.bound key).mem.mp hq)

theorem Related.boundRoute (h : Related X s) {key : Name}
    (hr : r ∈ ((links s).boundRoutes q).values key) : (links s).routes.alive r = true :=
  alive_of_read_values (h := s.routeAt) ((h.consistent.bound key).mem.mpr hr)

theorem Related.member (h : Related X s) {d : Side} {node : TopicNode}
    (hc : c ∈ ((links s).members d ch).values node) : (links s).clients.alive c = true :=
  alive_of_read_values (h := s.clientAt) ((h.consistent.joined d ch).mem.mp hc)

theorem Related.topic (h : Related X s) {d : Side} {node : TopicNode}
    (hn : node ∈ ((links s).topics d c).values ch) :
    node ∈ ((links s).members d ch).keys ∧ (links s).channels.alive ch = true := by
  have hc := (h.consistent.joined d ch).mem.mpr hn
  exact ⟨Keylist.mem_keys_of_mem hc, alive_of_read_values (h := s.channelAt) hc⟩

/-! ### Rotation -/

theorem listRotate_perm (l : List Ptr) : (listRotate l).Perm l := by
  obtain rfl | ⟨l, x, rfl⟩ := l.eq_nil_or_concat'
  · rfl
  · simpa [listRotate] using (List.perm_append_singleton x l).symm

theorem listRotate_head (l : List Ptr) (h : l ≠ []) : ∃ x ∈ l, (listRotate l).head? = some x := by
  obtain rfl | ⟨l, x, rfl⟩ := l.eq_nil_or_concat'
  · exact absurd rfl h
  · exact ⟨x, by simp, by simp [listRotate]⟩

/-! ### Events -/

theorem queueClientEventNotify_frame (hc : (links s).clients.alive c = true)
    (hq : (links s).queues.alive q = true) :
    wp (queueClientEventNotify c q) (fun _ t => Frame s t) Fault.Outside s := by
  obtain ⟨x, hx⟩ := queue_alive.mp hq
  rw [queueClientEventNotify, wp_bind, wp_getQueue hx]
  exact wp_bind_trans (copyStrings_frame _ _ s) fun body t ht => addResponse_frame _ (ht.client hc)

theorem Has.queue {L : Links} {n : Ptr} (h : Has L n s) (hq : L.queues.alive q = true) :
    (EagleMQ.links s).queues.alive q = true := by rwa [h.agree]

theorem queueClientEventMessage_frame (m : Ptr) (hc : (links s).clients.alive c = true)
    (hq : (links s).queues.alive q = true) :
    wp (queueClientEventMessage c q m) (fun _ t => Frame s t) Fault.Outside s := by
  refine wp_bind_trans (withStock_frame (Stock.message_harmless m) hq) fun msg t ht => ?_
  refine wp_bind_trans (objectSize_frame _ t) fun size u hu => ?_
  have hu' := ht.frame hu
  obtain ⟨x, hx⟩ := queue_alive.mp (hu'.queue hq)
  rw [wp_bind, wp_getQueue hx]
  refine wp_bind_trans (copyStrings_frame _ _ u) fun body v hv => ?_
  have hv' := hu'.frame hv
  refine wp_bind_trans (addResponse_frame _ (hv'.client hc)) fun _ w hw => ?_
  exact addObjectResponse_frame _ ((hv'.frame hw).client hc)

theorem channelClientEventMessage_frame (topic : Name) (msg : Ptr)
    (hc : (links s).clients.alive c = true) (hch : (links s).channels.alive ch = true) :
    wp (channelClientEventMessage c ch topic msg) (fun _ t => Frame s t) Fault.Outside s := by
  refine wp_bind_trans (objectSize_frame _ s) fun size u hu => ?_
  obtain ⟨x, hx⟩ := channel_alive.mp (by rwa [hu.agree] : (links u).channels.alive ch = true)
  rw [wp_bind, wp_getChannel hx]
  refine wp_bind_trans (copyStrings_frame _ _ u) fun body v hv => ?_
  have hv' := hu.frame hv
  refine wp_bind_trans (addResponse_frame _ (hv'.client hc)) fun _ w hw => ?_
  exact addObjectResponse_frame _ ((hv'.frame hw).client hc)

theorem channelClientEventPatternMessage_frame (topic pattern : Name) (msg : Ptr)
    (hc : (links s).clients.alive c = true) (hch : (links s).channels.alive ch = true) :
    wp (channelClientEventPatternMessage c ch topic pattern msg) (fun _ t => Frame s t)
      Fault.Outside s := by
  refine wp_bind_trans (objectSize_frame _ s) fun size u hu => ?_
  obtain ⟨x, hx⟩ := channel_alive.mp (by rwa [hu.agree] : (links u).channels.alive ch = true)
  rw [wp_bind, wp_getChannel hx]
  refine wp_bind_trans (copyStrings_frame _ _ u) fun body v hv => ?_
  have hv' := hu.frame hv
  refine wp_bind_trans (addResponse_frame _ (hv'.client hc)) fun _ w hw => ?_
  exact addObjectResponse_frame _ ((hv'.frame hw).client hc)

/-! ### Queues -/

theorem wp_reordered {α : Type} {m : ServerM α}
    (h : wp m (fun _ t => Frame s t) Fault.Outside s) :
    wp m (fun _ t => Reordered s t) Fault.Outside s :=
  wp_mono h (fun _ _ ht => ht.reordered) fun _ h => h

theorem rotateSubscribers (h : ∃ x, s.queueAt q = some x) :
    wp (modifyQueue q fun x => { x with subscribedClientsMsg := listRotate x.subscribedClientsMsg })
      (fun _ t => Reordered s t ∧ ∀ y, s.queueAt q = some y →
        ∃ z, t.queueAt q = some z ∧ z.subscribedClientsMsg = listRotate y.subscribedClientsMsg)
      Fault.Outside s := by
  obtain ⟨x, hx⟩ := h
  refine wp_modifyQueue ⟨x, hx, ?_,
    fun y hy => ⟨_, Function.update_self .., by rw [Option.some.inj (hx.symm.trans hy)]⟩⟩
  have hl := links_setMsg hx (listRotate x.subscribedClientsMsg)
  have hperm : (listRotate x.subscribedClientsMsg).Perm ((links s).subscribedClientsMsg q) := by
    rw [show (links s).subscribedClientsMsg q = x.subscribedClientsMsg from Heap.read_some hx]
    exact listRotate_perm _
  refine ⟨by rw [hl], by rw [hl], by rw [hl], by rw [hl], fun X hX => ?_, fun p => ?_, Nat.le_refl _⟩
  · rw [hl]
    exact hX.reorder hperm
  · rw [hl]
    by_cases hp : p = q
    · subst hp
      simpa [Links.subscribedClients] using hperm.append_right _
    · simp [Links.subscribedClients, hp]

theorem serveSubscribedClients_reordered (m : Ptr) (h : Related X s)
    (hq : (links s).queues.alive q = true) :
    wp (serveSubscribedClients q m) (fun _ t => Reordered s t) Fault.Outside s := by
  obtain ⟨x, hx⟩ := queue_alive.mp hq
  have halive : ∀ c ∈ x.subscribedClientsMsg, (links s).clients.alive c = true := fun c hc => by
    have hmsg : (links s).subscribedClientsMsg q = x.subscribedClientsMsg := Heap.read_some hx
    exact h.subscriber (List.mem_append_left _ (hmsg ▸ hc))
  rw [serveSubscribedClients, wp_bind, wp_getQueue hx]
  refine wp_ite (fun hne => wp_ite (fun _ => ?_) fun _ => ?_) fun _ => Std.Refl.refl s
  · rw [wp_bind]
    refine wp_mono (rotateSubscribers ⟨x, hx⟩) (fun _ t ⟨ht, hz⟩ => ?_) fun _ h => h
    obtain ⟨z, htz, hrot⟩ := hz x hx
    obtain ⟨c, hc, hhead⟩ := listRotate_head _ hne
    rw [wp_bind, wp_getQueue htz, hrot, hhead]
    refine wp_mono (queueClientEventMessage_frame m ?_ ?_)
      (fun _ u hu => IsTrans.trans _ _ _ ht (Has.reordered hu)) fun _ h => h
    · rw [ht.clients]; exact halive c hc
    · rw [ht.queues]; exact hq
  · exact wp_forM_trans fun c hc u hu => wp_reordered <| queueClientEventMessage_frame m
      (by rw [hu.clients]; exact halive c hc) (by rw [hu.queues]; exact hq)

theorem processSubscribedClients_reordered (m : Ptr) (h : Related X s)
    (hq : (links s).queues.alive q = true) :
    wp (processSubscribedClients q m) (fun _ t => Reordered s t) Fault.Outside s := by
  obtain ⟨x, hx⟩ := queue_alive.mp hq
  have halive : ∀ c ∈ x.subscribedClientsNotify, (links s).clients.alive c = true := fun c hc => by
    have hnot : (links s).subscribedClientsNotify q = x.subscribedClientsNotify := Heap.read_some hx
    exact h.subscriber (List.mem_append_right _ (hnot ▸ hc))
  rw [processSubscribedClients, wp_bind, wp_getQueue hx]
  refine wp_bind_trans (serveSubscribedClients_reordered m h hq) fun _ t ht => ?_
  refine wp_bind_trans (R := Reordered) (wp_forM_trans fun c hc u hu => ?_) fun _ u _ => Std.Refl.refl u
  have hu := IsTrans.trans _ _ _ ht hu
  exact wp_reordered <| queueClientEventNotify_frame (by rw [hu.clients]; exact halive c hc)
    (by rw [hu.queues]; exact hq)

theorem withStock_reordered {α : Type} {m : StockM α} (hm : Harmless m) (hs : Reordered s t)
    (hq : (links s).queues.alive q = true) :
    wp (withStock q m) (fun _ u => Reordered t u) Fault.Outside t :=
  wp_reordered (withStock_frame hm (by rw [hs.queues]; exact hq))

theorem enqueueMessage_reordered (m : Ptr) (hq : (links s).queues.alive q = true) :
    wp (enqueueMessage q m) (fun _ t => Reordered s t) Fault.Outside s := by
  obtain ⟨x, hx⟩ := queue_alive.mp hq
  have hstore : ∀ t, Reordered s t → wp (do withStock q (Stock.storeMessage m); pure true)
      (fun (_ : Bool) u => Reordered t u) Fault.Outside t := fun t ht =>
    wp_bind_trans (withStock_reordered (Stock.storeMessage_harmless m) ht hq) fun _ u _ =>
      Std.Refl.refl u
  rw [enqueueMessage, wp_bind, wp_getQueue hx]
  refine wp_ite (fun _ => wp_ite (fun _ => ?_) fun _ => Std.Refl.refl s) fun _ => hstore s (Std.Refl.refl s)
  rw [wp_bind, wp_get]
  exact wp_bind_trans (withStock_reordered (Stock.popMessageQueueT_harmless _ 0) (Std.Refl.refl s) hq)
    fun _ t ht => hstore t ht

theorem pushMessageQueueT_reordered (data : Ptr) (expiration : ℕ) (h : Related X s)
    (hq : (links s).queues.alive q = true) :
    wp (pushMessageQueueT q data expiration) (fun _ t => Reordered s t) Fault.Outside s := by
  have hcount : Reordered s { s with msgCounter := s.msgCounter + 1 } :=
    ⟨rfl, rfl, rfl, rfl, fun _ h => h, fun _ => .rfl, Nat.le_refl _⟩
  rw [pushMessageQueueT, wp_bind, wp_get]
  refine wp_bind_trans (R := Reordered) hcount fun _ t1 h1 => ?_
  refine wp_bind_trans (withStock_reordered (Stock.createMessage_harmless _ _ _) h1 hq) fun m t2 h2 => ?_
  have h2 : Reordered s t2 := IsTrans.trans _ _ _ h1 h2
  refine wp_bind_trans (wp_reordered (objectSize_frame data t2)) fun size t3 h3 => ?_
  have h3 : Reordered s t3 := IsTrans.trans _ _ _ h2 h3
  have hq3 : (links t3).queues.alive q = true := by rw [h3.queues]; exact hq
  obtain ⟨x, hx⟩ := queue_alive.mp hq3
  rw [wp_bind, wp_getQueue hx]
  refine wp_ite (fun _ => Std.Refl.refl t3) fun _ => ?_
  refine wp_bind_trans (processSubscribedClients_reordered m (h.reordered h3) hq3) fun served t4 h4 => ?_
  have h4 : Reordered s t4 := IsTrans.trans _ _ _ h3 h4
  refine wp_ite (fun _ => ?_) fun _ => ?_
  · exact wp_bind_trans (withStock_reordered (Stock.releaseMessage_harmless m) h4 hq) fun _ u _ =>
      Std.Refl.refl u
  · exact enqueueMessage_reordered m (by rw [h4.queues]; exact hq)

/-! ### Routes -/

theorem rotateKey {key : Name} (hr : (links s).routes.alive r = true)
    (hk : key ∈ ((links s).boundQueues r).keys) :
    wp (modifyRoute r fun x => { x with keys := x.keys.set key (listRotate (x.keys.values key)) })
      (fun _ t => Reordered s t ∧ (links s).routes.alive r = true ∧ ((links t).boundQueues r).values key =
        listRotate (((links s).boundQueues r).values key)) Fault.Outside s := by
  obtain ⟨x, hx⟩ := route_alive.mp hr
  have hkeys : (links s).boundQueues r = x.keys := Heap.read_some hx
  have hl := links_setKeys hx (x.keys.set key (listRotate (x.keys.values key)))
  refine wp_modifyRoute
    ⟨x, hx, ⟨by rw [hl], by rw [hl], by rw [hl], by rw [hl], fun X hX => ?_, fun q => by
      rw [hl]; rfl, Nat.le_refl _⟩, hr, ?_⟩
  · rw [hl, ← hkeys]
    exact hX.reorderBound hk (listRotate_perm _)
  · rw [hl, hkeys]
    simp [Keylist.values_set]

theorem pushMessageRouteT_reordered (key : Name) (msg : Ptr) (expiration : ℕ) (h : Related X s)
    (hr : (links s).routes.alive r = true) :
    wp (pushMessageRouteT r key msg expiration) (fun _ t => Reordered s t) Fault.Outside s := by
  obtain ⟨x, hx⟩ := route_alive.mp hr
  have hkeys : (links s).boundQueues r = x.keys := Heap.read_some hx
  have hpush : ∀ t, Reordered s t → ∀ q, q ∈ ((links s).boundQueues r).values key →
      ∀ f : Bool → Bool, wp (do
        let ok ← pushMessageQueueT q msg expiration
        incrementReferencesCount msg
        pure (f ok)) (fun _ u => Reordered t u) Fault.Outside t := fun t ht q hq f => by
    refine wp_bind_trans (pushMessageQueueT_reordered msg expiration (h.reordered ht)
      (by rw [ht.queues]; exact h.boundQueue hq)) fun ok u _ => ?_
    exact wp_bind_trans (wp_reordered (incrementReferencesCount_frame msg u)) fun _ v _ => Std.Refl.refl v
  rw [pushMessageRouteT, wp_bind, wp_getRoute hx, ← hkeys]
  refine wp_ite (fun hk => wp_ite (fun _ => ?_) fun _ => ?_) fun _ => Std.Refl.refl s
  · rw [wp_bind]
    refine wp_mono (rotateKey hr hk) (fun _ t ⟨ht, hrt, hrot⟩ => ?_) fun _ h => h
    obtain ⟨y, hy⟩ := route_alive.mp (by rw [ht.routes]; exact hrt : (links t).routes.alive r = true)
    have hykeys : (links t).boundQueues r = y.keys := Heap.read_some hy
    -- a key has queues as long as it is there
    obtain ⟨q, hq, hhead⟩ := listRotate_head _ ((h.consistent.boundQueues_wf r).ne_nil key hk)
    rw [wp_bind, wp_getRoute hy, ← hykeys, hrot, hhead]
    exact wp_mono (hpush t ht q hq id) (fun _ u hu => IsTrans.trans _ _ _ ht hu) fun _ h => h
  · exact wp_foldlM_trans fun q hq status t ht => hpush t ht q hq (status && ·)

/-! ### Channels -/

section Matcher

variable {E : Fault → Prop} (hread : E .overread) (hspin : E .spin)

include hread in
theorem charAt_errs (l : List Byte) (i : ℕ) : Errs E (charAt l i) :=
  errs_ite (errs_ok _) (errs_ite (errs_ok _) (errs_error hread))

include hread hspin

theorem skipStars_errs (l : List Byte) (n : ℕ) :
    ∀ i len, Errs E (skipStars l n i len) := by
  induction n with
  | zero => exact fun _ _ => errs_error hspin
  | succ n ih => exact fun i len => errs_bind (charAt_errs hread l _) fun _ => errs_ite (ih _ _) (errs_ok _)

theorem skipTrailing_errs (l : List Byte) (n : ℕ) :
    ∀ i len, Errs E (skipTrailing l n i len) := by
  induction n with
  | zero => exact fun _ _ => errs_error hspin
  | succ n ih => exact fun i len => errs_bind (charAt_errs hread l _) fun _ => errs_ite (ih _ _) (errs_ok _)

theorem bracket_errs (nocase : Bool) (l : List Byte) {c : Except Fault Byte}
    (hc : Errs E c) (n : ℕ) :
    ∀ found i len, Errs E (bracket nocase l c n found i len) := by
  induction n with
  | zero => exact fun _ _ _ => errs_error hspin
  | succ n ih =>
    refine fun found i len => errs_bind (charAt_errs hread l _) fun _ => errs_ite ?_ (errs_ite (errs_ok _)
      (errs_ite (errs_ok _) (errs_bind (charAt_errs hread l _) fun _ => errs_ite ?_ ?_)))
    · exact errs_bind (charAt_errs hread l _) fun _ => errs_bind hc fun _ => ih _ _ _
    · exact errs_bind (charAt_errs hread l _) fun _ => errs_bind hc fun _ => ih _ _ _
    · exact errs_bind hc fun _ => ih _ _ _

/-- The matcher may read too far or not end, and touches no record. -/
theorem patternMatchLength_errs (nocase : Bool) (n : ℕ) :
    (∀ string pattern, Errs E (patternMatchLength nocase n string pattern)) ∧
    (∀ string pattern, Errs E (matchNext nocase n string pattern)) ∧
    ∀ rest string, Errs E (matchStar nocase n rest string) := by
  induction n with
  | zero =>
    exact ⟨fun _ _ => errs_error hspin, fun _ _ => errs_error hspin, fun _ _ => errs_error hspin⟩
  | succ n ih =>
    obtain ⟨hmatch, hnext, hstar⟩ := ih
    refine ⟨fun string pattern => ?_, fun string pattern => ?_, fun rest string => ?_⟩
    · refine errs_ite (errs_ok _) (errs_bind (charAt_errs hread _ _) fun _ => ?_)
      refine errs_ite (errs_bind (skipStars_errs hread hspin _ _ _ _) fun _ => errs_ite (errs_ok _)
        (hstar _ _)) ?_
      refine errs_ite (errs_ite (errs_ok _) (hnext _ _)) (errs_ite ?_ ?_)
      · exact errs_bind (charAt_errs hread _ _) fun _ =>
          errs_bind (bracket_errs hread hspin _ _ (charAt_errs hread _ _) _ _ _ _)
          fun _ => errs_ite (errs_ok _) (hnext _ _)
      · exact errs_bind (charAt_errs hread _ _) fun _ => errs_bind (charAt_errs hread _ _) fun _ =>
          errs_ite (errs_ok _) (hnext _ _)
    · exact errs_ite (errs_bind (skipTrailing_errs hread hspin _ _ _ _) fun _ => errs_ok _) (hmatch _ _)
    · exact errs_ite (errs_ok _) (errs_bind (hmatch _ _) fun _ => errs_ite (errs_ok _) (hstar _ _))

theorem patternMatch_errs (string pattern : List Byte) (nocase : Bool) :
    Errs E (patternMatch string pattern nocase) :=
  (patternMatchLength_errs hread hspin nocase _).1 _ _

end Matcher

theorem findNode_some {l : Keylist TopicNode Ptr} {name : Name} {node : TopicNode}
    (h : findNode l name = some node) : node ∈ l.keys ∧ node.2 = name := by
  have := List.find?_some h
  exact ⟨List.mem_of_find?_eq_some h, by simpa using this⟩

theorem publishTopic_reordered {node : TopicNode} (topic : Name) (msg : Ptr) (h : Related X s)
    (hch : (links s).channels.alive ch = true) (hn : node ∈ ((links s).members .topic ch).keys) :
    wp (publishTopic ch node topic msg) (fun _ t => Reordered s t) Fault.Outside s := by
  obtain ⟨x, hx⟩ := channel_alive.mp hch
  have hm : (links s).members .topic ch = x.topics := Heap.read_some hx
  rw [publishTopic, wp_bind, wp_getChannel hx]
  refine wp_ite (fun _ => ?_) fun _ => ?_
  · have hl := links_setMembers hx .topic (x.topics.set node (listRotate (x.topics.values node)))
    obtain ⟨c, hc, hhead⟩ := listRotate_head _ ((h.consistent.members_wf .topic ch).ne_nil node hn)
    rw [hm] at hhead
    have ht : Reordered s (s.setChannel ch
        (x.setSide .topic (x.topics.set node (listRotate (x.topics.values node))))) := by
      refine ⟨by rw [hl], by rw [hl], by rw [hl], by rw [hl], fun X hX => ?_, fun q => by
        rw [hl]; rfl, Nat.le_refl _⟩
      have := hX.reorderMembers hn (listRotate_perm _)
      rw [hm] at this
      exact hl ▸ this
    have hv : (x.setSide .topic (x.topics.set node (listRotate (x.topics.values node)))).topics.values
        node = listRotate (x.topics.values node) := (Keylist.values_set ..).trans (if_pos rfl)
    rw [wp_bind]
    refine wp_modifyChannel ⟨x, hx, ?_⟩
    rw [wp_bind, wp_getChannel (Function.update_self ..), hv, hhead]
    refine wp_mono (channelClientEventMessage_frame topic msg ?_ ?_)
      (fun _ u hu => IsTrans.trans _ _ _ ht (Has.reordered hu)) fun _ h => h
    · rw [ht.clients]; exact h.member hc
    · rw [ht.channels]; exact hch
  · exact wp_forM_trans fun c hc u hu => wp_reordered <| channelClientEventMessage_frame topic msg
      (by rw [hu.clients]; exact h.member (hm ▸ hc)) (by rw [hu.channels]; exact hch)

theorem publishPattern_reordered (topic : Name) (msg : Ptr) {k : TopicNode × List Ptr}
    (hk : ∀ c ∈ k.2, (links s).clients.alive c = true) (hch : (links s).channels.alive ch = true) :
    wp (publishPattern ch topic msg k) (fun _ t => Reordered s t) Fault.Outside s := by
  refine wp_bind_trans (keeps_lift (patternMatch_errs (by decide) (by decide) _ _ _) s) fun hit t ht => ?_
  refine wp_ite (fun _ => ?_) fun _ => Std.Refl.refl t
  refine wp_forM_trans fun c hc u hu => wp_reordered <| channelClientEventPatternMessage_frame _ _ msg ?_ ?_
  · rw [hu.clients, ht.clients]; exact hk c hc
  · rw [hu.channels, ht.channels]; exact hch

theorem publishMessageChannelT_reordered (topic : Name) (msg : Ptr) (h : Related X s)
    (hch : (links s).channels.alive ch = true) :
    wp (publishMessageChannelT ch topic msg) (fun _ t => Reordered s t) Fault.Outside s := by
  obtain ⟨x, hx⟩ := channel_alive.mp hch
  have hp : (links s).members .pattern ch = x.patterns := Heap.read_some hx
  have hm : (links s).members .topic ch = x.topics := Heap.read_some hx
  have hend : ∀ t, Reordered s t → wp (x.patterns.forM (publishPattern ch topic msg))
      (fun _ u => Reordered t u) Fault.Outside t := fun t ht =>
    wp_forM_trans fun k hk u hu => publishPattern_reordered topic msg (fun c hc => by
      rw [hu.clients, ht.clients]
      refine h.member (?_ : c ∈ ((links s).members .pattern ch).values k.1)
      rw [hp, Keylist.values_of_mem (hp ▸ h.consistent.members_wf .pattern ch).nodup hk]
      exact hc) (by rw [hu.channels, ht.channels]; exact hch)
  rw [publishMessageChannelT, wp_bind, wp_getChannel hx]
  cases hf : findNode x.topics topic with
  | none => exact hend s (Std.Refl.refl s)
  | some node =>
    exact wp_bind_trans (publishTopic_reordered topic msg h hch (hm ▸ (findNode_some hf).1))
      fun _ t ht => hend t ht

end EagleMQ
