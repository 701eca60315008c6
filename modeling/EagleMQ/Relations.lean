import EagleMQ.Effect
import EagleMQ.Links.Stored

/-! The relations of a server over whole runs. Every operation of a request and
every other event of the loop leaves them consistent, and so does the start from
a stored file. -/

namespace EagleMQ

open Prog

variable {s t : EagleServer} {c q : Ptr} {req : Request}

/-! ### Requests -/

theorem Serving.dataResponse {body : List Byte} (h : Serving c s) :
    Relates (dataResponse c req body) s :=
  wp_ite (fun _ => (by decide : Fault.overflow.Outside)) fun _ =>
    relates_frame h.related (addResponse_frame _ h.client)

theorem serving_frame {α : Type} {m : ServerM α} (h : Serving c s)
    (hm : wp m (fun _ t => Frame s t) Fault.Outside s) :
    wp m (fun _ t => Serving c t) Fault.Outside s :=
  wp_mono hm (fun _ _ ht => h.frame ht) fun _ h => h

theorem serving_reordered {α : Type} {m : ServerM α} (h : Serving c s)
    (hm : wp m (fun _ t => Reordered s t) Fault.Outside s) :
    wp m (fun _ t => Serving c t) Fault.Outside s :=
  wp_mono hm (fun _ _ ht => h.reordered ht) fun _ h => h

theorem messageResponse_frame (m : Ptr) (hc : (links s).clients.alive c = true)
    (hq : (links s).queues.alive q = true) :
    wp (messageResponse c req q m) (fun _ t => Frame s t) Fault.Outside s := by
  refine wp_bind_trans (withStock_frame (Stock.message_harmless m) hq) fun msg t ht => ?_
  refine wp_bind_trans (objectSize_frame _ t) fun size u hu => ?_
  have hu := ht.frame hu
  refine wp_bind_trans (addResponse_frame _ (hu.client hc)) fun _ v hv => ?_
  exact addObjectResponse_frame _ ((hu.frame hv).client hc)

theorem getFromQueue_frame (hc : (links s).clients.alive c = true)
    (hq : (links s).queues.alive q = true) :
    wp (getFromQueue c req q) (fun _ t => Frame s t) Fault.Outside s := by
  refine wp_bind_trans (withStock_frame Stock.getMessageQueueT_harmless hq) fun m t ht => ?_
  cases m with
  | none => exact addStatusResponse_frame _ _ (ht.client hc)
  | some m => exact messageResponse_frame m (ht.client hc) (ht.queue hq)

theorem popFromQueue_frame (hc : (links s).clients.alive c = true)
    (hq : (links s).queues.alive q = true) :
    wp (popFromQueue c req q) (fun _ t => Frame s t) Fault.Outside s := by
  refine wp_bind_trans (withStock_frame Stock.getMessageQueueT_harmless hq) fun m t ht => ?_
  cases m with
  | none => exact addStatusResponse_frame _ _ (ht.client hc)
  | some m =>
    refine wp_bind_trans (messageResponse_frame m (ht.client hc) (ht.queue hq)) fun _ u hu => ?_
    rw [wp_bind, wp_get]
    exact withStock_frame (Stock.popMessageQueueT_harmless _ _) ((ht.frame hu).queue hq)

theorem confirmInQueue_frame (hc : (links s).clients.alive c = true)
    (hq : (links s).queues.alive q = true) :
    wp (confirmInQueue c req q) (fun _ t => Frame s t) Fault.Outside s := by
  refine wp_bind_trans (withStock_frame (Stock.confirmMessageQueueT_harmless _) hq) fun ok t ht => ?_
  exact wp_ite (fun _ => addStatusResponse_frame _ _ (ht.client hc))
    fun _ => addStatusResponse_frame _ _ (ht.client hc)

theorem pushToQueue_relates (h : Serving c s) (hq : (links s).queues.alive q = true) :
    Relates (pushToQueue c req q) s := by
  rw [pushToQueue, Relates, wp_bind]
  refine wp_mono (createObject_frame _ s) (fun o t ht => ?_) fun _ h => h
  refine Serving.reportResult ?_
  rw [wp_bind, wp_get]
  exact serving_reordered (h.frame ht) (pushMessageQueueT_reordered _ _ (h.frame ht).related (ht.queue hq))

theorem pushToRoute_relates {r : Ptr} {key : Name} (h : Serving c s)
    (hr : (links s).routes.alive r = true) : Relates (pushToRoute c req r key) s := by
  rw [pushToRoute, Relates, wp_bind]
  refine wp_mono (createObject_frame _ s) (fun o t ht => ?_) fun _ h => h
  rw [wp_bind]
  refine wp_mono (resetRefcount_frame o t) (fun _ u hu => ?_) fun _ h => h
  have hu := ht.frame hu
  refine Serving.reportResult ?_
  rw [wp_bind, wp_get]
  exact serving_reordered (h.frame hu) (pushMessageRouteT_reordered _ _ _ (h.frame hu).related (hu.route hr))

theorem publishToChannel_relates {ch : Ptr} {topic : Name} (h : Serving c s)
    (hch : (links s).channels.alive ch = true) : Relates (publishToChannel c req ch topic) s := by
  rw [publishToChannel, Relates, wp_bind]
  refine wp_mono (createObject_frame _ s) (fun o t ht => ?_) fun _ h => h
  have ht' := h.frame ht
  rw [wp_bind]
  refine wp_mono (publishMessageChannelT_reordered topic o ht'.related (by rwa [ht.agree]))
    (fun _ u hu => ?_) fun _ h => h
  exact Serving.then_respond (serving_frame (ht'.reordered hu) (decrementReferencesCount_frame o u))

theorem subscribeSide_serving {d : Side} {ch : Ptr} {name : Name} (h : Serving c s)
    (hch : (links s).channels.alive ch = true) :
    wp (subscribeSide d ch c name) (fun _ t => Serving c t) Fault.Outside s :=
  wp_mono (subscribeSide_spec h.related h.client hch)
    (fun _ _ ⟨ht, honly⟩ => ⟨ht, by rw [honly.agree]; exact h.client⟩) fun _ h => h

theorem storageSaveBackground_frame (s : EagleServer) :
    wp storageSaveBackground (fun _ t => Frame s t) Fault.Outside s := by
  rw [storageSaveBackground, wp_bind, wp_get]
  exact wp_ite (fun _ => ⟨rfl, Nat.le_refl _⟩) fun _ => wp_ite (fun _ => ⟨rfl, Nat.le_refl _⟩)
    fun _ => ⟨rfl, Nat.le_refl _⟩

section Requests

variable [Lzf]

theorem storageSaveSync_frame (h : Related .none s) :
    wp storageSaveSync (fun _ t => Frame s t) Fault.Outside s := by
  rw [storageSaveSync, wp_bind, wp_get]
  refine wp_ite (fun _ => ?_) fun _ => ⟨rfl, Nat.le_refl _⟩
  exact wp_bind_trans (keeps_lift (storageSave_errs h) s) fun _ t _ => keeps_pure _ t

theorem saveData_relates (async : Bool) (h : Serving c s) : Relates (saveData c req async) s := by
  have hend : ∀ t, Frame s t → ∀ ok : Bool, Relates (do
      if !ok then respond c req Status.error
      respond c req Status.success) t := fun t ht ok => by
    cases ok with
    | true => exact (h.frame ht).respond
    | false =>
      exact Serving.then_respond (serving_frame (h.frame ht)
        (addStatusResponse_frame _ _ (ht.client h.client)))
  refine wp_ite (fun _ => ?_) fun _ => ?_
  · rw [wp_bind]
    exact wp_mono (storageSaveBackground_frame s) (fun ok t ht => hend t ht ok) fun _ h => h
  · rw [wp_bind]
    exact wp_mono (storageSaveSync_frame h.related) (fun ok t ht => hend t ht ok) fun _ h => h

/-- Every operation of a request keeps the relations. -/
theorem Effect.relates {m : ServerM Unit} (he : Effect s c req m) (h : Serving c s) : Relates m s := by
  have hrel := h.related
  have hqueue : ∀ q ∈ s.queues, (links s).queues.alive q = true := fun q hq =>
    hrel.consistent.queues.alive hq
  have hroute : ∀ r ∈ s.routes, (links s).routes.alive r = true := fun r hr =>
    hrel.consistent.routes.alive hr
  have hchannel : ∀ ch ∈ s.channels, (links s).channels.alive ch = true := fun ch hch =>
    hrel.consistent.channels.alive hch
  cases he with
  | status cmd status => exact relates_frame hrel (addStatusResponse_frame _ _ h.client)
  | auth user =>
    exact Serving.then_respond (serving_frame h (modifyClient_frame (fun _ => rfl) (fun _ => rfl)
      (fun _ d => by cases d <;> rfl) h.client))
  | disconnect => exact wp_mono (freeClient_spec hrel h.client) (fun _ _ ht => ht.1) fun _ h => h
  | data body => exact h.dataResponse
  | fault e _ he =>
    rcases he with rfl | rfl
    · exact (by decide : Fault.overread.Outside)
    · exact (by decide : Fault.overflow.Outside)
  | save async => exact saveData_relates async h
  | flush flags => exact flushData_relates flags h
  | users f => exact Serving.then_respond (serving_frame h (keeps_modify _ (fun _ => ⟨rfl, Nat.le_refl _⟩) s))
  | queueCreate name maxMsg maxMsgSize flags => exact createQueue_relates _ _ _ _ h
  | queueDeclare q _ hq hnew =>
    refine Serving.then_respond (wp_mono (declareClientQueueT_spec h.client (hqueue q hq))
      (fun _ t ht => ?_) fun _ h => h)
    exact h.has ht (hrel.consistent.declare hnew) { hrel.below with } rfl
  | queueRename q name _ hq =>
    obtain ⟨x, hx⟩ := queue_alive.mp (hqueue q hq)
    exact Serving.then_respond (serving_frame h
      (wp_modifyQueue ⟨x, hx, links_queue_same hx rfl rfl rfl rfl, Nat.le_refl _⟩))
  | queuePush q _ hq => exact pushToQueue_relates h (hrel.declaredQueue hq)
  | queueGet q _ hq => exact relates_frame hrel (getFromQueue_frame h.client (hrel.declaredQueue hq))
  | queuePop q _ hq => exact relates_frame hrel (popFromQueue_frame h.client (hrel.declaredQueue hq))
  | queueConfirm q _ hq =>
    exact relates_frame hrel (confirmInQueue_frame h.client (hrel.declaredQueue hq))
  | queueSubscribe q flags _ hq hnew =>
    refine Serving.then_respond (wp_mono (subscribeClientQueueT_spec flags h.client
      (hrel.declaredQueue hq)) (fun _ t ht => ?_) fun _ h => h)
    obtain ⟨msg, notify, hperm, ht⟩ := ht
    exact h.has ht (hrel.consistent.subscribe hq hnew hperm) { hrel.below with } rfl
  | queueUnsubscribe q _ hq =>
    refine Serving.then_respond (wp_mono (unsubscribeClientQueueT_spec hrel h.client
      (hrel.declaredQueue hq)) (fun _ t ht => ?_) fun _ h => h)
    obtain ⟨msg, notify, hperm, ht⟩ := ht
    exact h.has ht (hrel.consistent.unsubscribe hperm) { hrel.below with } rfl
  | queuePurge q _ hq =>
    exact Serving.then_respond (serving_frame h
      (withStock_frame Stock.purgeQueueT_harmless (hrel.declaredQueue hq)))
  | queueDelete q _ hq =>
    exact Serving.reportResult (wp_mono (listDeleteQueue_spec hrel)
      (fun _ t ht => ⟨ht.1, by rw [ht.2.1]; exact h.client⟩) fun _ h => h)
  | routeCreate name flags => exact createRoute_relates _ _ h
  | routeRename r name _ hr =>
    obtain ⟨x, hx⟩ := route_alive.mp (hroute r hr)
    exact Serving.then_respond (serving_frame h
      (wp_modifyRoute ⟨x, hx, links_route_same hx rfl, Nat.le_refl _⟩))
  | routeBind r q key _ hr hq =>
    refine Serving.then_respond (wp_mono (bindRouteT_spec key hrel (hroute r hr) (hqueue q hq))
      (fun _ t ht => ?_) fun _ h => h)
    rcases ht with ht | ⟨hnew, ht⟩
    · exact h.frame ht
    · exact h.has ht (hrel.consistent.bind hnew) { hrel.below with } rfl
  | routeUnbind r q key _ hr hq =>
    exact Serving.reportResult (wp_mono (unbindRouteT_spec hrel (hroute r hr) (hqueue q hq))
      (fun _ t ht => ⟨ht.1, by rw [ht.2.1.agree]; exact h.client⟩) fun _ h => h)
  | routePush r key _ hr => exact pushToRoute_relates h (hroute r hr)
  | routeDelete r _ hr =>
    exact Serving.reportResult (wp_mono (listDeleteRoute_spec hrel)
      (fun _ t ht => ⟨ht.1, by rw [ht.2.1.agree]; exact h.client⟩) fun _ h => h)
  | channelCreate name flags => exact createChannel_relates _ _ h
  | channelRename ch name _ hch =>
    obtain ⟨x, hx⟩ := channel_alive.mp (hchannel ch hch)
    exact Serving.then_respond (serving_frame h
      (wp_modifyChannel ⟨x, hx, links_channel_same hx fun d => by cases d <;> rfl, Nat.le_refl _⟩))
  | channelPublish ch topic _ hch => exact publishToChannel_relates h (hchannel ch hch)
  | channelSubscribe d ch name _ hch =>
    exact Serving.then_respond (subscribeSide_serving h (hchannel ch hch))
  | channelUnsubscribe d ch name _ hch =>
    rw [Relates, wp_bind]
    refine wp_mono (unsubscribeSide_spec hrel h.client (hchannel ch hch))
      (fun ok t ht => ?_) fun _ h => h
    obtain ⟨ht, honly, -⟩ := ht
    have hserve : Serving c t := ⟨ht, by rw [honly.agree]; exact h.client⟩
    cases ok with
    | true => exact hserve.respond
    | false =>
      exact Serving.then_respond (serving_frame hserve (addStatusResponse_frame _ _ hserve.client))
  | channelDelete ch _ hch =>
    exact Serving.reportResult (wp_mono (listDeleteChannel_spec hrel)
      (fun _ t ht => ⟨ht.1, by rw [ht.2.1.agree]; exact h.client⟩) fun _ h => h)

theorem parseCommand_relates (h : Related .none s) (hc : c ∈ s.clients) :
    Relates (parseCommand c req) s := by
  obtain ⟨x, hx⟩ := client_alive.mp (h.consistent.clients.alive hc)
  obtain ⟨noack, m, he, hm⟩ := parseCommand_effect req h hx
  have hsame : Frame s (s.setClient c { x with noack := noack }) :=
    ⟨links_client_same hx rfl rfl fun d => by cases d <;> rfl, Nat.le_refl _⟩
  have hserve : Serving c s := ⟨h, client_alive.mpr ⟨x, hx⟩⟩
  have := he.relates (hserve.frame hsame)
  unfold Relates wp at this ⊢
  rwa [hm]

end Requests

/-! ### Connections -/

theorem createClient_spec (fd : ℕ) (h : Related .none s) :
    wp (createClient fd) (fun c t => Related .none t ∧ ∀ p, c = some p → (links t).clients.alive p = true)
      Fault.Outside s := by
  rw [createClient, wp_bind, wp_get]
  refine wp_ite (fun _ => ?_) fun _ => ⟨h, by simp⟩
  have hnone : s.clientAt s.fresh = none := by
    by_contra hne
    exact Nat.lt_irrefl _ (h.below.clients s.fresh (Option.isSome_iff_ne_none.mpr hne))
  have hl := links_allocClient (x := ⟨fd, 0, false, false, [], [], [], [], [], 0, s.env.time, []⟩) hnone rfl
    rfl fun d => by cases d <;> rfl
  have henroll : Has { links s with clients := ((links s).clients.alloc s.fresh).enlist s.fresh }
      (s.fresh + 1) { s with
        clientAt := Function.update s.clientAt s.fresh
          (some ⟨fd, 0, false, false, [], [], [], [], [], 0, s.env.time, []⟩)
        clients := s.clients ++ [s.fresh]
        fresh := s.fresh + 1 } :=
    ⟨congrArg (fun L => { L with clients := L.clients.enlist s.fresh }) hl, Nat.le_refl _⟩
  rw [wp_bind, wp_set]
  refine ⟨.has henroll (h.consistent.enroll (h.below.clients.not_mem h.consistent.clients))
    { h.below.mono (Nat.le_succ _) with clients := h.below.clients.alloc }, fun p hp => ?_⟩
  cases hp
  exact client_alive.mpr ⟨_, Function.update_self ..⟩

theorem acceptClient_relates (fd : ℕ) (h : Related .none s) : Relates (acceptClient fd) s := by
  rw [acceptClient, Relates, wp_bind]
  refine wp_mono (createClient_spec fd h) (fun c t ht => ?_) fun _ h => h
  obtain ⟨ht, hc⟩ := ht
  cases c with
  | none => exact ht
  | some c =>
    dsimp only
    rw [wp_bind, wp_get]
    exact wp_ite (fun _ => wp_mono (freeClient_spec ht (hc c rfl)) (fun _ _ hu => hu.1) fun _ h => h)
      fun _ => ht

theorem dropResponse_spec {x : EagleClient} {o : Ptr} {l : List Ptr} (hx : s.clientAt c = some x)
    (hl : x.responses = o :: l) :
    wp (dropResponse c) (fun _ t => Frame s t ∧ t.clientAt c = some { x with responses := l })
      Fault.Outside s := by
  rw [dropResponse, wp_bind, wp_getClient hx, hl]
  dsimp only
  rw [wp_bind]
  refine wp_modifyClient ⟨x, hx, ?_⟩
  refine wp_mono (modifyObjects_only (decrement_errs _ o)) (fun _ t ht => ?_) fun _ h => h
  obtain ⟨objects, rfl⟩ := ht
  exact ⟨⟨links_client_same (y := { x with responses := l }) hx rfl rfl fun d => by cases d <;> rfl,
    Nat.le_refl _⟩, Function.update_self ..⟩

theorem dropEmpty_frame (l : List Ptr) :
    ∀ {s : EagleServer} {x : EagleClient}, s.clientAt c = some x → x.responses = l →
      wp (dropEmpty c l) (fun _ t => Frame s t) Fault.Outside s := by
  induction l with
  | nil => exact fun _ _ => ⟨rfl, Nat.le_refl _⟩
  | cons o l ih =>
    intro s x hx hl
    rw [dropEmpty, wp_bind]
    refine wp_mono (objectSize_same o s) (fun size t ht => ?_) fun _ h => h
    subst ht
    refine wp_ite (fun _ => ?_) fun _ => ⟨rfl, Nat.le_refl _⟩
    rw [wp_bind]
    refine wp_mono (dropResponse_spec hx hl) (fun _ u ⟨hu, hxu⟩ => ?_) fun _ h => h
    exact wp_mono (ih hxu rfl) (fun _ v hv => IsTrans.trans _ _ _ hu hv) fun _ h => h

theorem finishSend_frame (sent : Bool) (hc : (links s).clients.alive c = true) :
    wp (finishSend c sent) (fun _ t => Frame s t) Fault.Outside s := by
  have hend : ∀ t, Frame s t → wp (do
      if (← getClient c).responses = [] then
        modifyClient c fun x => { x with sentlen := 0, writable := false } : ServerM Unit)
      (fun _ u => Frame t u) Fault.Outside t := fun t ht => by
    obtain ⟨x, hx⟩ := client_alive.mp (ht.client hc)
    rw [wp_bind, wp_getClient hx]
    refine wp_ite (fun _ => ?_) fun _ => ⟨rfl, Nat.le_refl _⟩
    exact modifyClient_frame (fun _ => rfl) (fun _ => rfl) (fun _ d => by cases d <;> rfl) (ht.client hc)
  rw [finishSend, wp_bind, wp_get]
  refine wp_ite (fun _ => ?_) fun _ => hend s (Std.Refl.refl s)
  exact wp_bind_trans (modifyClient_frame (fun _ => rfl) (fun _ => rfl) (fun _ d => by cases d <;> rfl) hc)
    fun _ t ht => hend t ht

theorem sendResponse_relates (ws : List Written) :
    ∀ {s : EagleServer} (sent : Bool), Serving c s → Relates (sendResponse c sent ws) s := by
  induction ws with
  | nil =>
    intro s sent h
    obtain ⟨x, hx⟩ := client_alive.mp h.client
    rw [sendResponse, Relates, wp_bind, wp_getClient hx, wp_bind]
    refine wp_mono (dropEmpty_frame _ hx rfl) (fun _ t ht => ?_) fun _ h => h
    exact relates_frame (h.frame ht).related (finishSend_frame sent (h.frame ht).client)
  | cons w ws ih =>
    intro s sent h
    obtain ⟨x, hx⟩ := client_alive.mp h.client
    rw [sendResponse, Relates, wp_bind, wp_getClient hx, wp_bind]
    refine wp_mono (dropEmpty_frame _ hx rfl) (fun _ t ht => ?_) fun _ h => h
    have ht := h.frame ht
    have hfinish : Relates (finishSend c sent) t :=
      relates_frame ht.related (finishSend_frame sent ht.client)
    obtain ⟨y, hy⟩ := client_alive.mp ht.client
    rw [wp_bind, wp_getClient hy]
    split
    · exact hfinish
    · exact hfinish
    · exact wp_mono (freeClient_spec ht.related ht.client) (fun _ _ hu => hu.1) fun _ h => h
    · next o l n hl =>
      rw [wp_bind]
      refine wp_mono (objectSize_same o t) (fun size u hu => ?_) fun _ h => h
      subst hu
      refine wp_ite (fun _ => hfinish) fun _ => wp_ite (fun _ => ?_) fun _ => ?_
      · rw [wp_bind]
        refine wp_mono (dropResponse_spec hy hl) (fun _ v hv => ?_) fun _ h => h
        have hv := ht.frame hv.1
        rw [wp_bind]
        refine wp_mono (modifyClient_frame (fun _ => rfl) (fun _ => rfl)
          (fun _ d => by cases d <;> rfl) hv.client) (fun _ w hw => ih true (hv.frame hw)) fun _ h => h
      · rw [wp_bind]
        refine wp_mono (modifyClient_frame (fun _ => rfl) (fun _ => rfl)
          (fun _ d => by cases d <;> rfl) ht.client) (fun _ w hw => ih true (ht.frame hw)) fun _ h => h

/-! ### Ticks -/

/-- A client that stays is passed, one that goes leaves the list. -/
theorem clientTimeouts_relates (h : Related .none s) : Relates clientTimeouts s := by
  rw [clientTimeouts, Relates, wp_bind, wp_get]
  refine wp_ite (fun _ => ?_) fun _ => h
  refine wp_mono (wp_foreach (fun rest t => Related .none t ∧ ∃ pre, t.clients = pre ++ rest) rfl ?_ ?_
    ⟨h, [], rfl⟩) (fun _ t ht => ht.1) fun _ h => h
  · rintro c rest t ⟨ht, pre, hl⟩
    exact ⟨pre, congrArg (fun l => Except.ok (l, t)) hl, hl ▸ ht.consistent.clients.nodup⟩
  · rintro c rest t ⟨ht, pre, hl⟩
    have hmem : c ∈ t.clients := by simp [hl]
    obtain ⟨x, hx⟩ := client_alive.mp (ht.consistent.clients.alive hmem)
    rw [wp_bind, wp_getClient hx]
    refine wp_ite (fun _ => ?_) fun _ => ⟨ht, pre ++ [c], by simp [hl]⟩
    refine wp_mono (freeClient_spec ht (client_alive.mpr ⟨x, hx⟩)) (fun _ u hu => ⟨hu.1, pre, ?_⟩)
      fun _ h => h
    obtain ⟨hu, hc, -⟩ := hu
    have hlist : u.clients = t.clients.erase c := congrArg Roster.list hc
    have hnodup : (pre ++ c :: rest).Nodup := hl ▸ ht.consistent.clients.nodup
    have hpre : c ∉ pre := fun hp => (List.nodup_append.mp hnodup).2.2 c hp c (by simp) rfl
    rw [hlist, hl, List.erase_append_right _ hpre, List.erase_cons_head]

theorem processQueueMessages_frame (hq : (links s).queues.alive q = true) :
    wp (processQueueMessages q) (fun _ t => Frame s t) Fault.Outside s := by
  rw [processQueueMessages, wp_bind, wp_get]
  exact wp_bind_trans (withStock_frame (Stock.processExpiredMessagesQueueT_harmless _) hq) fun _ t ht =>
    withStock_frame (Stock.processUnconfirmedMessagesQueueT_harmless _) (ht.queue hq)

theorem processQueuesMessages_relates (h : Related .none s) : Relates processQueuesMessages s := by
  rw [processQueuesMessages, Relates, wp_bind, wp_get]
  exact relates_frame h (wp_forM_trans fun q hq t ht =>
    processQueueMessages_frame (ht.queue (h.consistent.queues.alive hq)))

theorem storageTimeouts_frame (s : EagleServer) :
    wp storageTimeouts (fun _ t => Frame s t) Fault.Outside s := by
  rw [storageTimeouts]
  refine wp_bind_trans (keeps_modify _ (fun s => ?_) s) fun _ t ht => ?_
  · split_ifs <;> exact ⟨rfl, Nat.le_refl _⟩
  · rw [wp_bind, wp_get]
    refine wp_ite (fun _ => ?_) fun _ => ⟨rfl, Nat.le_refl _⟩
    exact wp_bind_trans (storageSaveBackground_frame t) fun _ u _ =>
      keeps_modify _ (fun _ => ⟨rfl, Nat.le_refl _⟩) u

theorem serverUpdater_relates (h : Related .none s) : Relates serverUpdater s := by
  have hcheck : Keeps Frame Fault.Outside checkMemory := keeps_modify _ fun s => by
    split_ifs <;> exact ⟨rfl, Nat.le_refl _⟩
  rw [serverUpdater, Relates, wp_bind, wp_modify, wp_bind]
  refine wp_mono (hcheck _) (fun _ t ht => ?_) fun _ h => h
  have ht : Related .none t := (h.frame (t := { s with
    nowTime := s.env.time, nowTimems := s.env.mstime, msgCounter := 0 }) ⟨rfl, Nat.le_refl _⟩).frame ht
  rw [wp_bind]
  refine wp_mono (clientTimeouts_relates ht) (fun _ u hu => ?_) fun _ h => h
  rw [wp_bind]
  refine wp_mono (processQueuesMessages_relates hu) (fun _ v hv => ?_) fun _ h => h
  exact relates_frame hv (storageTimeouts_frame v)

/-! ### Runs -/

section Runs

variable [Lzf]

theorem Op.run_relates (op : Op) (h : Related .none s) (ha : Enabled s op) : Relates op.run s := by
  have halive : ∀ c ∈ s.clients, (links s).clients.alive c = true := fun c hc =>
    h.consistent.clients.alive hc
  cases op with
  | environment env => exact h.frame ⟨rfl, Nat.le_refl _⟩
  | connect fd => exact acceptClient_relates fd h
  | receive c =>
    rw [Op.run, Relates, wp_bind, wp_get]
    exact relates_frame h (modifyClient_frame (fun _ => rfl) (fun _ => rfl)
      (fun _ d => by cases d <;> rfl) (halive c ha))
  | request c req => exact parseCommand_relates h ha.1
  | malformed c => exact relates_frame h (addStatusResponse_frame _ _ (halive c ha))
  | send c results => exact sendResponse_relates results false ⟨h, halive c ha.1⟩
  | close c => exact wp_mono (freeClient_spec h (halive c ha)) (fun _ _ ht => ht.1) fun _ h => h
  | tick => exact serverUpdater_relates h

omit [Lzf] in
theorem initServer_related (cfg : Config) (env : Env) : Related .none (initServer cfg env) :=
  ⟨Links.Consistent.empty, Links.Below.empty _⟩

theorem step_related {op : Op} (h : Related .none s) (ha : Enabled s op) (ht : step s op = .ok t) :
    Related .none t :=
  ok_of_wp (Q := fun _ t => Related .none t) (Op.run_relates op h ha) (step_eq_ok.mp ht)

/-- The relations hold in every reachable state. -/
theorem Reachable.related (h : Reachable s) : Related .none s := by
  induction h with
  | start cfg env => exact initServer_related cfg env
  | step op _ ha ht ih => exact step_related ih ha ht
  | restart cfg env _ _ ht _ =>
    exact ok_of_wp (Q := fun _ t => Related .none t) (storageLoad_relates _ (initServer_related cfg env)) ht

/-- An event that cannot be finished is not stopped by a record or a node that is not there. -/
theorem Reachable.step_errs (h : Reachable s) {op : Op} (ha : Enabled s op) :
    Errs Fault.Outside (EagleMQ.step s op) := fun _ he =>
  fault_of_wp (Op.run_relates op h.related ha) (step_eq_error.mp he)

end Runs

end EagleMQ
