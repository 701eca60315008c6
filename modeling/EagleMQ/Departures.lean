import EagleMQ.AutoDelete
import EagleMQ.Push.Settled

/-! When a queue goes: a command deletes it, or it deletes itself when the last of the
clients that have declared it leaves. -/

namespace EagleMQ

open Prog

/-- A command deletes the queue. -/
def DeletesQueue (s : EagleServer) (op : Op) (q : Ptr) : Prop :=
  ∃ c req, op = .request c req ∧ Authorized s c req.cmd ∧
    (req.cmd = Cmd.queueDelete ∧ 72 ≤ req.pos ∧ Names req s.queueName s.queues q ∨
      req.cmd = Cmd.flush ∧ 12 ≤ req.pos ∧ bitCheck (req.u32 8) 1 = true)

/-- The time of the client is up at a time. -/
def Overdue (s : EagleServer) (time : ℕ) (c : Ptr) : Prop :=
  s.clientTimeout ≠ 0 ∧ ∃ x, s.clientAt c = some x ∧ s.clientTimeout < time - x.lastAction

/-- The client leaves: it disconnects, its connection ends or fails, or its time is up. -/
def Leaves (s : EagleServer) (c : Ptr) : Op → Prop
  | .request c' req => c' = c ∧ req.cmd = Cmd.disconnect
  | .close c' => c' = c
  | .send c' results => c' = c ∧ .failed ∈ results
  | .tick => Overdue s s.env.time c
  | _ => False

/-- The queue goes away in a step. -/
def Departs (s : EagleServer) (op : Op) (q : Ptr) (x : QueueT) : Prop :=
  DeletesQueue s op q ∨ x.autoDelete = true ∧ ∀ c ∈ x.declaredClients, Leaves s c op

/-- No queues go but those of a set. -/
def Remain (X : Set Ptr) (s t : EagleServer) : Prop := ∀ q, q ∉ X → s.queueAt q ≠ none → t.queueAt q ≠ none

section Remain

variable {X : Set Ptr} {s t : EagleServer} {c q r ch : Ptr} {req : Request}

instance : IsPreorder EagleServer (Remain X) where
  refl _ _ _ h := h
  trans _ _ _ h h' q hq hs := h' q hq (h q hq hs)

theorem remain_map {α : Type} {f : QueueT → α}
    (h : ∀ q, (t.queueAt q).map f = (s.queueAt q).map f) : Remain X s t :=
  fun q _ hs ht => hs <| by
    have := h q
    rwa [ht, Option.map_none, eq_comm, Option.map_eq_none_iff] at this

theorem remain_same (h : t.queueAt = s.queueAt) : Remain X s t := remain_map (f := id) fun q => by rw [h]

theorem still_remain {α : Type} {m : ServerM α} (h : Keeps Still Fault.Link m) :
    Keeps (Remain X) Fault.Any m :=
  fun s => wp_mono (h s) (fun _ _ ht => remain_map ht.queue) fun _ _ => trivial

theorem answers_remain {α : Type} {m : ServerM α} (h : Keeps Answers Fault.Any m) :
    Keeps (Remain X) Fault.Any m :=
  fun s => wp_mono (h s) (fun _ _ ht => remain_map ht.queue) fun _ h => h

theorem modify_remain {f : EagleServer → EagleServer} (h : ∀ s, (f s).queueAt = s.queueAt) :
    Keeps (Remain X) Fault.Any (modify f : ServerM Unit) := fun s => remain_same (h s)

theorem remain_update {x : QueueT} (ht : t.queueAt = Function.update s.queueAt q (some x)) :
    Remain X s t := fun p _ hp => by
  rw [ht]
  by_cases hpq : p = q
  · subst hpq
    simp
  · rwa [Function.update_of_ne hpq]

theorem withStock_remain {α : Type} (m : StockM α) (q : Ptr) :
    Keeps (Remain X) Fault.Any (withStock q m) := fun s =>
  wp_mono (withStock_others m s) (fun _ _ ⟨_, _, _, _, ht, _⟩ => remain_update ht) fun _ h => h

theorem modifyQueue_remain (f : QueueT → QueueT) : Keeps (Remain X) Fault.Any (modifyQueue q f) := fun s => by
  cases hx : s.queueAt q with
  | none => simp [modifyQueue, getQueue, hx, Fault.Any]
  | some x => exact wp_modifyQueue ⟨x, hx, remain_update rfl⟩

theorem respond_remain (status : Byte) : Keeps (Remain X) Fault.Any (respond c req status) :=
  answers_remain (addStatusResponse_answers any_stock _ _)

theorem reportResult_remain {m : ServerM Bool} (h : Keeps (Remain X) Fault.Any m) :
    Keeps (Remain X) Fault.Any (reportResult c req m) :=
  keeps_bind h fun _ => keeps_ite (fun _ => respond_remain _) fun _ => respond_remain _

/-! ### Operations on queues -/

theorem createQueueT_remain (name : Name) (maxMsg maxMsgSize flags : ℕ) :
    Keeps (Remain X) Fault.Any (createQueueT name maxMsg maxMsgSize flags) := fun _ => remain_update rfl

theorem pushMessageQueueT_remain (data expiration : ℕ) :
    Keeps (Remain X) Fault.Any (pushMessageQueueT q data expiration) := by
  have henqueue : ∀ m, Keeps (Remain X) Fault.Any (enqueueMessage q m) := fun m =>
    keeps_bind getQueue_any fun _ => keeps_ite (fun _ => keeps_ite (fun _ => keeps_bind keeps_get fun _ =>
      keeps_bind (withStock_remain _ q) fun _ => keeps_bind (withStock_remain _ q) fun _ =>
        keeps_pure _) fun _ => keeps_pure _)
      fun _ => keeps_bind (withStock_remain _ q) fun _ => keeps_pure _
  refine keeps_bind keeps_get fun _ => keeps_bind (modify_remain fun _ => rfl) fun _ =>
    keeps_bind (withStock_remain _ q) fun m => ?_
  exact keeps_bind (objectSize_any data) fun _ => keeps_bind getQueue_any fun _ =>
    keeps_ite (fun _ => keeps_pure _) fun _ =>
    keeps_bind (answers_remain fun _ => processSubscribedClients_answers any_stock (.inl trivial))
      fun _ => keeps_ite
      (fun _ => keeps_bind (withStock_remain _ q) fun _ => keeps_pure _) fun _ => henqueue m

theorem pushMessageRouteT_remain (key : Name) (data expiration : ℕ) :
    Keeps (Remain X) Fault.Any (pushMessageRouteT r key data expiration) := by
  have hpush : ∀ (q : Ptr) (f : Bool → Bool), Keeps (Remain X) Fault.Any (do
      let ok ← pushMessageQueueT q data expiration
      incrementReferencesCount data
      pure (f ok)) := fun q f => keeps_bind (pushMessageQueueT_remain data expiration) fun _ => keeps_bind
    (answers_remain (incrementReferencesCount_answers any_stock data)) fun _ => keeps_pure _
  refine keeps_bind getRoute_any fun x => keeps_ite (fun _ => keeps_ite (fun _ => ?_) fun _ s => ?_)
    fun _ => keeps_pure _
  · refine keeps_bind (still_remain modifyRoute_still) fun _ => keeps_bind getRoute_any fun y => ?_
    cases (y.keys.values key).head? with
    | none => exact keeps_throw trivial
    | some q => exact hpush q id
  · exact wp_foldlM_trans fun q _ status t _ => hpush q (fun ok => status && ok) t

theorem deleteQueueT_remain (hq : q ∈ X) : Keeps (Remain X) Fault.Any (deleteQueueT q) := by
  refine keeps_bind (still_remain (ejectClientsQueueT_still q)) fun _ =>
    keeps_bind (still_remain (ejectRoutesQueueT_still q))
    fun _ => keeps_bind (withStock_remain _ q) fun _ s p hp hs => ?_
  have hne : p ≠ q := fun h => hp (h ▸ hq)
  simpa [EagleServer.freeQueue, hne] using hs

theorem listDeleteQueue_remain (hq : q ∈ X) : Keeps (Remain X) Fault.Any (listDeleteQueue q) :=
  keeps_bind keeps_get fun _ => keeps_ite (fun _ => keeps_bind (modify_remain fun _ => rfl) fun _ =>
    keeps_bind (deleteQueueT_remain hq) fun _ => keeps_pure _) fun _ => keeps_pure _

end Remain

/-! ### The end of a client -/

/-- A queue goes with its clients. -/
def Deserted (L : Ptr → Prop) (s t : EagleServer) : Prop :=
  ∀ q x, s.queueAt q = some x → t.queueAt q = none → x.autoDelete = true ∧ ∀ c ∈ x.declaredClients, L c

section Deserted

variable {s t : EagleServer} {c q : Ptr} {L : Ptr → Prop}

/-- The clients that stay keep their queues. -/
theorem deserted_of_others (h : Related .none s) (ht : Related .none t) (hend : Endures.All s t)
    (hothers : ∀ c, ¬L c → (links t).declaredQueues c = (links s).declaredQueues c) :
    Deserted L s t := fun q x hx hq => by
  have hgone : (links t).queues.alive q ≠ true := fun halive => by
    obtain ⟨y, hy⟩ := queue_alive.mp halive
    cases hq.symm.trans hy
  refine ⟨?_, fun c hc => ?_⟩
  · by_contra hauto
    have hmem : q ∈ s.queues := (h.consistent.queues.mem q).mpr ⟨queue_alive.mpr ⟨x, hx⟩, fun h => h⟩
    have hstay := (hend.stay .queue (h.list_nodup .queue) q hmem id x.tag
      (congrArg (Option.map QueueT.tag) hx)).2
      (show x.autoDelete = false by simpa using hauto)
    exact hgone (ht.consistent.queues.alive hstay)
  · by_contra hL
    have hdeclared : q ∈ (links s).declaredQueues c := h.consistent.declared.mem.mpr <| by
      rwa [show (links s).declaredClients q = x.declaredClients from Heap.read_some hx]
    rw [← hothers c hL] at hdeclared
    exact hgone (ht.declaredQueue hdeclared)

theorem freeClient_deserts (h : Related .none s) (hc : (links s).clients.alive c = true) :
    wp (freeClient c) (fun _ t => Deserted (· = c) s t) Fault.Any s :=
  wp_mono (wp_and (F := Fault.Any) (wp_mono (freeClient_spec h hc) (fun _ _ h => h) fun _ _ => trivial)
    (freeClient_endures (X := fun _ _ => False) s))
    (fun _ _ ⟨⟨ht, _, hothers⟩, hend⟩ => deserted_of_others h ht hend hothers) fun _ h => h

theorem Deserted.after {u : EagleServer} (h : Deserted L t u)
    (hq : ∀ q, (t.queueAt q).map QueueT.mute = (s.queueAt q).map QueueT.mute) : Deserted L s u :=
      fun q x hx hu => by
  have hqx := hq q
  rw [hx] at hqx
  obtain ⟨y, hy, hyx⟩ := Option.map_eq_some_iff.mp hqx
  have hauto : y.mute.autoDelete = x.mute.autoDelete := by rw [hyx]
  have hdeclared : y.mute.declaredClients = x.mute.declaredClients := by rw [hyx]
  change y.autoDelete = x.autoDelete at hauto
  change y.declaredClients = x.declaredClients at hdeclared
  rw [← hauto, ← hdeclared]
  exact h q y hy hu

theorem Deserted.mono {K : Ptr → Prop} (h : Deserted K s t) (hKL : ∀ c, K c → L c) :
    Deserted L s t := fun q x hx hq =>
  (h q x hx hq).imp_right fun hc c hmem => hKL c (hc c hmem)

theorem Remain.deserted (h : Remain ∅ s t) : Deserted L s t := fun q x hx hq =>
  absurd hq (h q (by simp) (by simp [hx]))

/-- The client is freed when a write fails. -/
theorem sendResponse_deserts (ws : List Written) : ∀ {s : EagleServer} (sent : Bool), Serving c s →
    wp (sendResponse c sent ws) (fun _ t => Deserted (fun c' => c = c' ∧ .failed ∈ ws) s t) Fault.Any s := by
  have hmodify : ∀ {f : EagleClient → EagleClient} {s : EagleServer},
    (∀ x, (f x).declaredQueues = x.declaredQueues) →
      (∀ x, (f x).subscribedQueues = x.subscribedQueues) → (∀ x d, (f x).side d = x.side d) → Serving c s →
      wp (modifyClient c f) (fun _ t => Frame s t ∧ Answers s t) Fault.Any s := fun hd hs ht h =>
    wp_and (F := Fault.Any) (wp_mono (modifyClient_frame hd hs ht h.client)
      (fun _ _ h => h) fun _ _ => trivial)
      (modifyClient_answers any_stock _ _)
  have hfinish : ∀ {s : EagleServer} {L : Ptr → Prop} (sent : Bool),
      wp (finishSend c sent) (fun _ t => Deserted L s t) Fault.Any s := fun {s _} sent =>
    wp_mono (finishSend_answers any_stock sent s) (fun _ _ ht => (remain_map ht.queue).deserted) fun _ h => h
  have hdrop : ∀ {s : EagleServer} {x : EagleClient}, s.clientAt c = some x →
      wp (dropEmpty c x.responses) (fun _ t => Frame s t ∧ Answers s t) Fault.Any s := fun {s _} hx =>
    wp_and (F := Fault.Any) (wp_mono (dropEmpty_frame _ hx rfl) (fun _ _ h => h) fun _ _ => trivial)
      (dropEmpty_answers any_stock _ s)
  induction ws with
  | nil =>
    intro s sent h
    obtain ⟨x, hx⟩ := client_alive.mp h.client
    rw [sendResponse, wp_bind, wp_getClient hx, wp_bind]
    exact wp_mono (hdrop hx) (fun _ t ht => wp_mono (hfinish (L := fun _ => False) sent)
      (fun _ u hu => (hu.after ht.2.queue).mono fun _ h => h.elim) fun _ h => h) fun _ h => h
  | cons w ws ih =>
    intro s sent h
    obtain ⟨x, hx⟩ := client_alive.mp h.client
    rw [sendResponse, wp_bind, wp_getClient hx, wp_bind]
    refine wp_mono (hdrop hx) (fun _ t ht => ?_) fun _ h => h
    obtain ⟨hframe, ht⟩ := ht
    have hserve := h.frame hframe
    obtain ⟨y, hy⟩ := client_alive.mp hserve.client
    have hrest : ∀ {u : EagleServer}, Answers s u → Serving c u →
        wp (sendResponse c true ws) (fun _ t => Deserted (fun c' => c = c' ∧ .failed ∈ w :: ws) s t)
        Fault.Any u :=
      fun hu hserve => wp_mono (ih true hserve)
        (fun _ _ hv => (hv.after hu.queue).mono fun _ h => ⟨h.1, List.mem_cons_of_mem _ h.2⟩) fun _ h => h
    rw [wp_bind, wp_getClient hy]
    split
    · exact wp_mono (hfinish sent) (fun _ _ hu => hu.after ht.queue) fun _ h => h
    · exact wp_mono (hfinish sent) (fun _ _ hu => hu.after ht.queue) fun _ h => h
    · refine wp_mono (freeClient_deserts hserve.related hserve.client)
        (fun _ u hu => (hu.after ht.queue).mono ?_) fun _ h => h
      exact fun _ hc => ⟨hc.symm, List.mem_cons_self ..⟩
    · next o l n hl =>
      rw [wp_bind]
      refine wp_mono (objectSize_same o t) (fun size u hu => ?_) fun _ _ => trivial
      subst hu
      refine wp_ite (fun _ => wp_mono (hfinish sent) (fun _ _ hu => hu.after ht.queue) fun _ h => h)
        fun _ => wp_ite
        (fun _ => ?_) fun _ => ?_
      · rw [wp_bind]
        refine wp_mono (wp_and (F := Fault.Any)
          (wp_mono (dropResponse_spec hy hl) (fun _ _ h => h.1) fun _ _ => trivial)
          (dropResponse_answers any_stock _)) (fun _ v hv => ?_) fun _ h => h
        obtain ⟨hv, hv'⟩ := hv
        have hserve := hserve.frame hv
        rw [wp_bind]
        exact wp_mono (hmodify (fun _ => rfl) (fun _ => rfl) (fun _ d => by cases d <;> rfl) hserve)
          (fun _ w hw => hrest (IsTrans.trans _ _ _ ht (IsTrans.trans _ _ _ hv' hw.2))
          (hserve.frame hw.1)) fun _ h => h
      · rw [wp_bind]
        exact wp_mono (hmodify (fun _ => rfl) (fun _ => rfl) (fun _ d => by cases d <;> rfl) hserve)
          (fun _ w hw => hrest (IsTrans.trans _ _ _ ht hw.2) (hserve.frame hw.1)) fun _ h => h

end Deserted

/-! ### Requests -/

section Requests

variable [Lzf] {s t : EagleServer} {c q : Ptr} {req : Request} {op : Op}

theorem Effect.departs {m : ServerM Unit} (he : Effect s c req m) (h : Serving c s) :
    wp m (fun _ t => ∀ q x, s.queueAt q = some x → t.queueAt q = none →
      Departs s (.request c req) q x) Fault.Any s := by
  have hremain : ∀ {X : Set Ptr} {m : ServerM Unit}, (∀ q ∈ X, DeletesQueue s (.request c req) q) →
      Keeps (Remain X) Fault.Any m →
      wp m (fun _ t => ∀ q x, s.queueAt q = some x → t.queueAt q = none →
        Departs s (.request c req) q x) Fault.Any s :=
    fun hX hm => wp_mono (hm s) (fun _ t ht q x hx hq => .inl <| hX q <| by_contra fun hn => ht q hn
      (by simp [hx]) hq)
      fun _ h => h
  have hnone : ∀ {m : ServerM Unit}, Keeps (Remain ∅) Fault.Any m →
      wp m (fun _ t => ∀ q x, s.queueAt q = some x → t.queueAt q = none →
      Departs s (.request c req) q x) Fault.Any s :=
    hremain (fun _ h => h.elim)
  have hthen : ∀ {m : ServerM Unit} (status : Byte), Keeps (Remain ∅) Fault.Any m →
      Keeps (Remain ∅) Fault.Any (m >>= fun _ => respond c req status) :=
    fun status hm => keeps_bind hm fun _ => respond_remain status
  have hmodify : ∀ {f : EagleServer → EagleServer}, (∀ s, (f s).queueAt = s.queueAt) →
      Keeps (Remain ∅) Fault.Any (modify f : ServerM Unit) := modify_remain
  have hpush : ∀ (data : List Byte) (k : Ptr → ServerM Bool), (∀ o, Keeps (Remain ∅) Fault.Any (k o)) →
      Keeps (Remain ∅) Fault.Any (do
        let o ← createObject data
        reportResult c req (k o)) := fun data k hk =>
    keeps_bind (answers_remain (createObject_answers data)) fun o => reportResult_remain (hk o)
  cases he with
  | status cmd status => exact hnone (answers_remain (addStatusResponse_answers any_stock cmd status))
  | auth user => exact hnone (hthen _ (answers_remain (modifyClient_answers any_stock _)))
  | disconnect hcmd =>
    refine wp_mono (freeClient_deserts h.related h.client) (fun _ t ht q x hx hq => .inr ?_) fun _ h => h
    obtain ⟨hauto, hall⟩ := ht q x hx hq
    exact ⟨hauto, fun c' hc' => ⟨(hall c' hc').symm, hcmd⟩⟩
  | data body => exact hnone (answers_remain (dataResponse_answers any_stock req body))
  | fault e => exact trivial
  | save async => exact hnone (saveData_keeps (R := Remain ∅) (fun _ => remain_same rfl) respond_remain async)
  | flush flags ha hcmd hflags hpos =>
    refine hremain (X := {q | bitCheck flags 1 = true})
      (fun q hq => ⟨c, req, rfl, ha, .inr ⟨hcmd, hpos, hflags ▸ hq⟩⟩)
      (flushData_keeps (modify_remain fun _ => rfl) (fun hbit => ?_)
        (still_remain deleteRoutes_still) (still_remain deleteChannels_still)
        (respond_remain _))
    exact keeps_foreach (keeps_bind keeps_get fun _ => keeps_pure _) trivial fun q =>
      keeps_bind (listDeleteQueue_remain hbit) fun _ => keeps_pure _
  | users f => exact hnone (hthen _ (hmodify fun _ => rfl))
  | queueCreate name maxMsg maxMsgSize flags =>
    exact hnone (keeps_bind (createQueueT_remain name maxMsg maxMsgSize flags) fun _ => hthen _
      (hmodify fun _ => rfl))
  | queueDeclare q => exact hnone (hthen _ (still_remain (declareClientQueueT_still _ _)))
  | queueRename q name => exact hnone (hthen _ (modifyQueue_remain _))
  | queuePush q => exact hnone (hpush _ _ fun o => keeps_bind keeps_get fun _ => pushMessageQueueT_remain o _)
  | queueGet q => exact hnone (answers_remain getFromQueue_answers)
  | queuePop q =>
    refine hnone (keeps_bind (withStock_remain _ q) fun m => ?_)
    cases m with
    | none => exact respond_remain _
    | some m =>
      exact keeps_bind (answers_remain (messageResponse_answers q m)) fun _ => keeps_bind keeps_get fun _ =>
        withStock_remain _ q
  | queueConfirm q =>
    exact hnone (keeps_bind (withStock_remain _ q) fun _ => keeps_ite (fun _ => respond_remain _)
      fun _ => respond_remain _)
  | queueSubscribe q flags => exact hnone (hthen _ (still_remain (subscribeClientQueueT_still _ _ flags)))
  | queueUnsubscribe q => exact hnone (hthen _ (still_remain (unsubscribeClientQueueT_still _ _)))
  | queuePurge q => exact hnone (keeps_bind (withStock_remain _ q) fun _ => respond_remain _)
  | queueDelete q ha _ hcmd hname hpos =>
    refine hremain (X := {q}) (fun p hp => ?_) (reportResult_remain (listDeleteQueue_remain rfl))
    obtain rfl := hp
    exact ⟨c, req, rfl, ha, .inl ⟨hcmd, hpos, hname⟩⟩
  | routeCreate name flags =>
    exact hnone (keeps_bind (still_remain (createRouteT_still _ _)) fun _ =>
      hthen _ (hmodify fun _ => rfl))
  | routeRename r name => exact hnone (hthen _ (still_remain modifyRoute_still))
  | routeBind r q key => exact hnone (hthen _ (still_remain (bindRouteT_still _ _ _)))
  | routeUnbind r q key => exact hnone (reportResult_remain (still_remain (unbindRouteT_still _ _ _)))
  | routePush r key =>
    refine hnone (keeps_bind (answers_remain (createObject_answers _)) fun o =>
      keeps_bind (answers_remain (resetRefcount_answers any_stock o)) fun _ => reportResult_remain ?_)
    exact keeps_bind keeps_get fun _ => pushMessageRouteT_remain key o _
  | routeDelete r => exact hnone (reportResult_remain (still_remain (listDeleteRoute_still _)))
  | channelCreate name flags =>
    exact hnone (keeps_bind (still_remain (createChannelT_still _ _)) fun _ => hthen _ (hmodify fun _ => rfl))
  | channelRename ch name => exact hnone (hthen _ (still_remain modifyChannel_still))
  | channelPublish ch topic => exact hnone (answers_remain (publishToChannel_answers any_stock req topic))
  | channelSubscribe d ch name => exact hnone (hthen _ (still_remain (subscribeSide_still _ _ _ _)))
  | channelUnsubscribe d ch name =>
    exact hnone (keeps_bind (still_remain (unsubscribeSide_still _ _ _ _)) fun _ => keeps_ite
      (fun _ => keeps_bind (respond_remain _) fun _ => respond_remain _) fun _ => respond_remain _)
  | channelDelete ch => exact hnone (reportResult_remain (still_remain (listDeleteChannel_still _)))

end Requests

/-! ### Ticks -/

/-- The clients that are there were there, and have last acted when they had. -/
def Acted (s t : EagleServer) : Prop :=
  ∀ c y, t.clientAt c = some y → ∃ x, s.clientAt c = some x ∧ y.lastAction = x.lastAction

section Ticks

variable {s t : EagleServer} {c o : Ptr}

instance : IsPreorder EagleServer Acted where
  refl _ _ y hy := ⟨y, hy, rfl⟩
  trans _ _ _ h h' c z hz := by
    obtain ⟨y, hy, hzy⟩ := h' c z hz
    obtain ⟨x, hx, hyx⟩ := h c y hy
    exact ⟨x, hx, hzy.trans hyx⟩

theorem acted_same (h : t.clientAt = s.clientAt) : Acted s t := fun _ y hy => ⟨y, h ▸ hy, rfl⟩

theorem acted_setClient {x y : EagleClient} (hx : s.clientAt c = some x) (hy : y.lastAction = x.lastAction) :
    Acted s (s.setClient c y) := fun c' z hz => by
  by_cases hc : c' = c
  · subst hc
    obtain rfl : y = z := by simpa [EagleServer.setClient] using hz
    exact ⟨x, hx, hy⟩
  · exact ⟨z, by simpa [EagleServer.setClient, hc] using hz, rfl⟩

theorem modifyClient_acted {f : EagleClient → EagleClient} (hf : ∀ x, (f x).lastAction = x.lastAction) :
    Keeps Acted Fault.Any (modifyClient c f) := fun s => by
  cases hx : s.clientAt c with
  | none => simp [modifyClient, getClient, hx, Fault.Any]
  | some x => exact wp_modifyClient ⟨x, hx, acted_setClient hx (hf x)⟩

theorem modifyObjects_acted (f : Heap Object → Except Fault (Heap Object)) :
    Keeps Acted Fault.Any (modifyObjects f) :=
  keeps_bind keeps_get fun s => by
    cases f s.objects with
    | error e => exact keeps_throw trivial
    | ok objects => exact fun _ => acted_same rfl

/-- An object that has been made is registered, or dropped by other means. -/
theorem registered_acted {m : ServerM Unit} (hm : Keeps Acted Fault.Any m) :
    Keeps Acted Fault.Any (do if ← setWriteEvent c then appendResponse c o else m) :=
  keeps_bind (keeps_bind getClient_any fun _ => keeps_ite (fun _ => keeps_pure _)
    fun _ => keeps_bind keeps_get fun _ =>
    keeps_ite (fun _ => keeps_bind (modifyClient_acted fun _ => rfl) fun _ => keeps_pure _) fun _ =>
      keeps_pure _)
    fun _ => keeps_ite (fun _ => keeps_bind keeps_get fun _ => modifyClient_acted fun _ => rfl) fun _ => hm

theorem addResponse_acted (data : List Byte) : Keeps Acted Fault.Any (addResponse c data) :=
  keeps_bind (fun _ => acted_same rfl) fun _ => registered_acted (modifyObjects_acted _)

theorem addObjectResponse_acted : Keeps Acted Fault.Any (addObjectResponse c o) :=
  keeps_bind (modifyObjects_acted _) fun _ => registered_acted (modifyObjects_acted _)

theorem withStock_acted {α : Type} (m : StockM α) (q : Ptr) :
    Keeps Acted Fault.Any (withStock q m) := fun s => by
  cases hx : s.queueAt q with
  | none => simp [wp, withStock, hx, Fault.Any]
  | some x =>
    refine wp_withStock hx ?_
    cases hm : m ⟨x.backlog, s.objects⟩ with
    | error e => simp [wp, hm, Fault.Any]
    | ok r =>
      simp only [wp, hm]
      exact acted_same rfl

theorem upheld_acted : Upheld Acted where
  client _ _ x y hx hy := by
    have hlast : y.bare.lastAction = x.bare.lastAction := by rw [hy]
    exact acted_setClient hx hlast
  queue _ _ _ _ _ _ := acted_same rfl
  route _ _ _ _ _ _ _ := acted_same rfl
  channel _ _ _ _ _ _ := acted_same rfl
  freeQueue q := keeps_bind (withStock_acted _ q) fun _ _ => acted_same rfl
  freeRoute _ _ := acted_same rfl
  freeChannel _ _ := acted_same rfl
  delistQueue _ _ := acted_same rfl
  delistRoute _ _ := acted_same rfl
  delistChannel _ _ := acted_same rfl
  fresh _ := acted_same rfl
  increment _ := modifyObjects_acted _
  decrement _ := modifyObjects_acted _
  channelMessage _ _ _ _ := keeps_bind (objectSize_any _) fun _ => keeps_bind getChannel_any fun _ =>
    keeps_bind (keeps_lift fun _ _ => trivial) fun _ => keeps_bind (addResponse_acted _) fun _ =>
      addObjectResponse_acted
  patternMessage _ _ _ _ _ := keeps_bind (objectSize_any _) fun _ => keeps_bind getChannel_any fun _ =>
    keeps_bind (keeps_lift fun _ _ => trivial) fun _ => keeps_bind (addResponse_acted _) fun _ =>
      addObjectResponse_acted

theorem freeClient_acted (c : Ptr) : Keeps Acted Fault.Any (freeClient c) :=
  freeClient_upheld upheld_acted fun s c' y hy => by
    by_cases hc : c' = c
    · subst hc
      simp at hy
    · exact ⟨y, by simpa [hc] using hy, rfl⟩

/-- Only clients whose time is up are freed. -/
theorem clientTimeouts_deserts (h : Related .none s) :
    wp clientTimeouts (fun _ t => Deserted (Overdue s s.nowTime) s t) Fault.Any s := by
  rw [clientTimeouts, wp_bind, wp_get]
  refine wp_ite (fun htimeout => ?_) fun _ => Remain.deserted (Std.Refl.refl s)
  refine wp_mono (wp_foreach (fun rest t => (Related .none t ∧ ∃ pre, t.clients = pre ++ rest) ∧
    Endures.All s t ∧ Acted s t ∧
    ∀ c, ¬Overdue s s.nowTime c → (links t).declaredQueues c = (links s).declaredQueues c) rfl ?_ ?_
    ⟨⟨h, [], rfl⟩, Std.Refl.refl s, Std.Refl.refl s, fun _ _ => rfl⟩)
    (fun _ t ht => deserted_of_others h ht.1.1 ht.2.1 ht.2.2.2) fun _ h => h
  · rintro c rest t ⟨⟨ht, pre, hl⟩, -⟩
    exact ⟨pre, congrArg (fun l => Except.ok (l, t)) hl, hl ▸ ht.consistent.clients.nodup⟩
  · rintro c rest t ⟨⟨ht, pre, hl⟩, hend, hacted, hothers⟩
    obtain ⟨y, hy⟩ := client_alive.mp (ht.consistent.clients.alive (show c ∈ t.clients by simp [hl]))
    rw [wp_bind, wp_getClient hy]
    refine wp_ite (fun hlate => ?_) fun _ => ⟨⟨ht, pre ++ [c], by simp [hl]⟩, hend, hacted, hothers⟩
    obtain ⟨x, hx, hyx⟩ := hacted c y hy
    have hover : Overdue s s.nowTime c := ⟨htimeout, x, hx, hyx ▸ hlate⟩
    refine wp_mono (wp_and (F := Fault.Any)
      (wp_mono (freeClient_spec ht (client_alive.mpr ⟨y, hy⟩)) (fun _ _ h => h)
      fun _ _ => trivial) (wp_and (F := Fault.Any) (freeClient_endures (X := fun _ _ => False) t)
        (freeClient_acted c t)))
      (fun _ u hu => ⟨⟨hu.1.1, pre, ?_⟩, IsTrans.trans _ _ _ hend hu.2.1,
        IsTrans.trans _ _ _ hacted hu.2.2, fun c' hc' => ?_⟩) fun _ h => h
    all_goals obtain ⟨⟨hu, hc, hkept⟩, -⟩ := hu
    · have hlist : u.clients = t.clients.erase c := congrArg Roster.list hc
      have hnodup : (pre ++ c :: rest).Nodup := hl ▸ ht.consistent.clients.nodup
      have hpre : c ∉ pre := fun hp => (List.nodup_append.mp hnodup).2.2 c hp c (by simp) rfl
      rw [hlist, hl, List.erase_append_right _ hpre, List.erase_cons_head]
    · have hne : c' ≠ c := fun he => hc' (he ▸ hover)
      rw [hkept c' hne, hothers c' hc']

theorem serverUpdater_deserts (h : Related .none s) :
    wp serverUpdater (fun _ t => Deserted (Overdue s s.env.time) s t) Fault.Any s := by
  have hmemory : ∀ u, wp checkMemory (fun _ t => ∃ b, t = { u with nomemory := b }) Fault.Any u := fun u => by
    rw [checkMemory, wp_modify]
    split_ifs
    · exact ⟨_, rfl⟩
    · exact ⟨_, rfl⟩
  have hpasses : Keeps (Remain ∅) Fault.Any processQueuesMessages := keeps_bind keeps_get fun _ => keeps_forM
    (fun q => keeps_bind keeps_get fun _ => keeps_bind (withStock_remain _ q) fun _ => withStock_remain _ q) _
  have hstorage : Keeps (Remain ∅) Fault.Any storageTimeouts :=
    storageTimeouts_keeps (R := Remain ∅) (fun _ _ => remain_same rfl) fun _ => remain_same rfl
  rw [serverUpdater, wp_bind, wp_modify, wp_bind]
  refine wp_mono (hmemory _) (fun _ t ht => ?_) fun _ h => h
  obtain ⟨b, ht⟩ := ht
  have hrel : Related .none t := h.frame (ht ▸ ⟨rfl, Nat.le_refl _⟩)
  rw [wp_bind]
  refine wp_mono (clientTimeouts_deserts hrel) (fun _ u hu => ?_) fun _ h => h
  subst ht
  refine wp_mono (keeps_bind hpasses (fun _ => hstorage) u) (fun _ v hv q x hx hq => ?_) fun _ h => h
  exact hu q x hx (by_contra fun hne => hv q (by simp) hne hq)

end Ticks

/-! ### Steps -/

section Steps

variable [Lzf] {s t : EagleServer} {op : Op} {q : Ptr} {x : QueueT}

omit [Lzf] in
theorem acceptClient_departs (fd : ℕ) (h : Related .none s) :
    wp (acceptClient fd) (fun _ t => Deserted (fun _ => False) s t) Fault.Any s := by
  rw [acceptClient, wp_bind]
  have hcreate : wp (createClient fd) (fun c t => t.queueAt = s.queueAt ∧ ∀ p, c = some p →
      p = s.fresh) Fault.Any s := by
    rw [createClient, wp_bind, wp_get]
    exact wp_ite (fun _ => ⟨rfl, fun p hp => (Option.some.inj hp).symm⟩) fun _ =>
      ⟨rfl, fun _ hp => by cases hp⟩
  refine wp_mono (wp_and (F := Fault.Any)
    (wp_mono (createClient_spec fd h) (fun _ _ h => h) fun _ _ => trivial) hcreate)
    (fun r t ht => ?_) fun _ h => h
  obtain ⟨⟨ht, halive⟩, hq, hnew⟩ := ht
  cases r with
  | none => exact (remain_same hq).deserted
  | some c =>
    rw [wp_bind, wp_get]
    refine wp_ite (fun _ => ?_) fun _ => (remain_same hq).deserted
    refine wp_mono (freeClient_deserts ht (halive c rfl)) (fun _ u hu q x hx hgone => ?_) fun _ h => h
    obtain ⟨hauto, hall⟩ := hu q x (hq ▸ hx) hgone
    refine ⟨hauto, fun c' hc' => ?_⟩
    -- the client is too new to have declared a queue
    have hlt := h.below.clients c' <| h.declarer (q := q) <| by
      rwa [show (links s).declaredClients q = x.declaredClients from Heap.read_some hx]
    rw [hall c' hc', hnew c rfl] at hlt
    exact Nat.lt_irrefl _ hlt

/-- A queue goes by a command, or with the last of its clients. -/
theorem step_departs (h : Related .none s) (ha : Enabled s op) (ht : step s op = .ok t)
    (hx : s.queueAt q = some x)
    (hq : t.queueAt q = none) : Departs s op q x := by
  have hrun := step_eq_ok.mp ht
  have hremain : Keeps (Remain ∅) Fault.Any op.run → Departs s op q x := fun hm =>
    absurd hq (ok_of_wp (Q := fun _ t => Remain ∅ s t) (hm s) hrun q (by simp) (by simp [hx]))
  have hdeserted : ∀ {L : Ptr → Prop}, wp op.run (fun _ t => Deserted L s t) Fault.Any s →
    (∀ c, L c → Leaves s c op) →
      Departs s op q x := fun hm hL => .inr ((ok_of_wp hm hrun).mono hL q x hx hq)
  cases op with
  | environment env => exact hremain (modify_remain fun _ => rfl)
  | connect fd => exact hdeserted (acceptClient_departs fd h) fun _ h => h
  | receive c =>
    exact hremain (keeps_bind keeps_get fun _ => answers_remain (modifyClient_answers any_stock _))
  | request c req =>
    obtain ⟨y, hy⟩ := client_alive.mp (h.consistent.clients.alive ha.1)
    obtain ⟨noack, m, he, hm⟩ := parseCommand_effect req h hy
    have hrun' : m (s.setClient c { y with noack := noack }) = .ok ((), t) := hm ▸ hrun
    have hsame : Frame s (s.setClient c { y with noack := noack }) :=
      ⟨links_client_same hy rfl rfl fun d => by cases d <;> rfl, Nat.le_refl _⟩
    have hserve : Serving c s := ⟨h, client_alive.mpr ⟨y, hy⟩⟩
    refine (ok_of_wp (he.departs (hserve.frame hsame)) hrun' q x hx hq).imp
      (fun ⟨c', req', hop, hauth, hwhat⟩ => ?_)
      fun ⟨hauto, hall⟩ => ⟨hauto, hall⟩
    cases hop
    exact ⟨c, req, rfl, hauth.of_noack hy, hwhat⟩
  | malformed c => exact hremain (answers_remain (addStatusResponse_answers any_stock _ _))
  | send c results =>
    refine hdeserted (sendResponse_deserts results false ⟨h, h.consistent.clients.alive ha.1⟩) fun _ h => h
  | close c => exact hdeserted (freeClient_deserts h (h.consistent.clients.alive ha)) fun _ h => h.symm
  | tick => exact hdeserted (serverUpdater_deserts h) fun _ h => h

end Steps

end EagleMQ
