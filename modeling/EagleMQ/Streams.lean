import EagleMQ.Lib.Outbox
import EagleMQ.References.Runs

/-! The streams to the clients. The responses of a client are a buffer of chunks: what
`write` has taken, the unsent rest of the first response and the other responses are
together what has been appended. Everything but a response and `send_response` leaves
the buffers as they are, or ends a client with its buffer. -/

namespace EagleMQ

open Prog Outbox

/-- What the stream of a client depends on. -/
def EagleClient.outgoing (x : EagleClient) : List Ptr × List (List Byte) × ℕ × Bool :=
  (x.responses, x.history, x.sentlen, x.writable)

/-- The clients that are left have their buffers, and the objects that are left their data. -/
structure Steady (s t : EagleServer) : Prop where
  clients : ∀ c y, t.clientAt c = some y → ∃ x, s.clientAt c = some x ∧ y.outgoing = x.outgoing
  objects : ∀ o < s.fresh, ∀ w, t.objects o = some w → ∃ z, s.objects o = some z ∧ w.data = z.data
  fresh : s.fresh ≤ t.fresh
  below : Heap.Below s.objects s.fresh → Heap.Below t.objects t.fresh

instance : IsPreorder EagleServer Steady where
  refl _ := ⟨fun _ y hy => ⟨y, hy, rfl⟩, fun _ _ z hz => ⟨z, hz, rfl⟩, Nat.le_refl _, fun h => h⟩
  trans _ _ _ h h' := by
    refine ⟨fun c z hz => ?_, fun o ho w hw => ?_, Nat.le_trans h.fresh h'.fresh,
      fun hb => h'.below (h.below hb)⟩
    · obtain ⟨y, hy, hzy⟩ := h'.clients c z hz
      obtain ⟨x, hx, hyx⟩ := h.clients c y hy
      exact ⟨x, hx, hzy.trans hyx⟩
    · obtain ⟨v, hv, hwv⟩ := h'.objects o (Nat.lt_of_lt_of_le ho h.fresh) w hw
      obtain ⟨z, hz, hvz⟩ := h.objects o ho v hv
      exact ⟨z, hz, hwv.trans hvz⟩

/-- The data of an object, as long as it is there. -/
def Shows (s : EagleServer) (o : Ptr) (d : List Byte) : Prop :=
  o < s.fresh ∧ ∀ z, s.objects o = some z → z.data = d

/-- The buffer of a client, some of which has been written. -/
def Buffered (s : EagleServer) (x : EagleClient) (written : List Byte) : Prop :=
  ∃ chunks, List.Forall₂ (Shows s) x.responses chunks ∧ Account x.history written chunks x.sentlen

/-- The buffers of all clients. The event of a client that is `busy` may still be
registered when its last response has gone. -/
structure Streaming (busy : Ptr → Prop) (w : Ptr → List Byte) (s : EagleServer) : Prop where
  below : Heap.Below s.objects s.fresh
  silent : ∀ c, s.fresh ≤ c → w c = []
  buffer : ∀ c x, s.clientAt c = some x → Buffered s x (w c)
  writable : ∀ c x, s.clientAt c = some x → x.responses ≠ [] → x.writable = true
  idle : ∀ c x, s.clientAt c = some x → x.writable = true → busy c ∨ x.responses ≠ []

/-- The streams go on. -/
def Flowing (busy : Ptr → Prop) (w : Ptr → List Byte) (s t : EagleServer) : Prop :=
  Streaming busy w s → Streaming busy w t

section Streams

variable {busy : Ptr → Prop} {w : Ptr → List Byte} {s t : EagleServer} {c q r ch o m : Ptr}
    {x y : EagleClient}
  {z : Object} {data : List Byte} {req : Request}

instance : IsPreorder EagleServer (Flowing busy w) where
  refl _ h := h
  trans _ _ _ h h' hs := h' (h hs)

theorem Shows.steady (h : Shows s o data) (ht : Steady s t) : Shows t o data := by
  refine ⟨Nat.lt_of_lt_of_le h.1 ht.fresh, fun z hz => ?_⟩
  obtain ⟨z', hz', hd⟩ := ht.objects o h.1 z hz
  exact hd.trans (h.2 z' hz')

theorem Buffered.steady {written : List Byte} (h : Buffered s x written) (ht : Steady s t)
    (hy : y.outgoing = x.outgoing) : Buffered t y written := by
  obtain ⟨chunks, hshow, haccount⟩ := h
  obtain ⟨hr, hh, hn, -⟩ : y.responses = x.responses ∧ y.history = x.history ∧ y.sentlen = x.sentlen ∧
    y.writable = x.writable := by simpa [EagleClient.outgoing] using hy
  exact ⟨chunks, hr ▸ hshow.imp fun _ _ h => h.steady ht, hh ▸ hn ▸ haccount⟩

theorem Steady.flowing (ht : Steady s t) : Flowing busy w s t := fun h => by
  have hclient : ∀ c y, t.clientAt c = some y → ∃ x, s.clientAt c = some x ∧ y.responses = x.responses ∧
      y.writable = x.writable := fun c y hy => by
    obtain ⟨x, hx, hyx⟩ := ht.clients c y hy
    obtain ⟨hr, -, -, hw⟩ : y.responses = x.responses ∧ y.history = x.history ∧ y.sentlen = x.sentlen ∧
      y.writable = x.writable := by simpa [EagleClient.outgoing] using hyx
    exact ⟨x, hx, hr, hw⟩
  refine ⟨ht.below h.below, fun c hc => h.silent c (Nat.le_trans ht.fresh hc), fun c y hy => ?_,
    fun c y hy hr => ?_,
    fun c y hy hw => ?_⟩
  · obtain ⟨x, hx, hyx⟩ := ht.clients c y hy
    exact (h.buffer c x hx).steady ht hyx
  · obtain ⟨x, hx, hrx, hwx⟩ := hclient c y hy
    exact hwx.trans (h.writable c x hx (hrx ▸ hr))
  · obtain ⟨x, hx, hrx, hwx⟩ := hclient c y hy
    exact hrx ▸ h.idle c x hx (hwx ▸ hw)

theorem steady_flowing {α : Type} {m : ServerM α} (h : Keeps Steady Fault.Any m) :
    Keeps (Flowing busy w) Fault.Any m :=
  fun s => wp_mono (h s) (fun _ _ ht => ht.flowing) fun _ h => h

/-! ### What leaves the buffers alone -/

theorem steady_same (hc : t.clientAt = s.clientAt) (ho : t.objects = s.objects)
    (hn : s.fresh ≤ t.fresh) : Steady s t :=
  ⟨fun _ y hy => ⟨y, hc ▸ hy, rfl⟩, fun _ _ z hz => ⟨z, ho ▸ hz, rfl⟩, hn,
    fun hb o hne => Nat.lt_of_lt_of_le (hb o (ho ▸ hne)) hn⟩

theorem steady_setClient (hx : s.clientAt c = some x) (hy : y.outgoing = x.outgoing) :
    Steady s (s.setClient c y) := by
  refine ⟨fun d w hw => ?_, fun _ _ z hz => ⟨z, hz, rfl⟩, Nat.le_refl _, fun hb => hb⟩
  by_cases hd : d = c
  · subst hd
    rw [EagleServer.setClient_clientAt] at hw
    obtain rfl := Option.some.inj hw
    exact ⟨x, hx, hy⟩
  · exact ⟨w, by simpa [EagleServer.setClient, hd] using hw, rfl⟩

/-- An object gets another count, or goes. -/
theorem steady_object {w : Option Object} (hz : s.objects o = some z)
    (hw : ∀ z', w = some z' → z'.data = z.data) :
    Steady s { s with objects := Function.update s.objects o w } := by
  refine ⟨fun _ y hy => ⟨y, hy, rfl⟩, fun p _ v hv => ?_, Nat.le_refl _,
    fun hb => hb.update (Nat.le_refl _) (hb o (by simp [hz])) _⟩
  dsimp only at hv
  by_cases hp : p = o
  · subst hp
    rw [Function.update_self] at hv
    exact ⟨z, hz, hw v hv⟩
  · exact ⟨v, by rwa [Function.update_of_ne hp] at hv, rfl⟩

theorem Object.dropped_data {w : Object} (h : z.dropped = some w) : w.data = z.data := by
  unfold Object.dropped at h
  split_ifs at h
  obtain rfl := Option.some.inj h
  rfl

theorem Still.steady (h : Still s t) : Steady s t := by
  refine ⟨fun c y hy => ?_, fun o _ z hz => ⟨z, h.objects ▸ hz, rfl⟩, h.fresh,
    fun hb o hne => Nat.lt_of_lt_of_le (hb o (h.objects ▸ hne)) h.fresh⟩
  have hc := h.client c
  rw [hy] at hc
  obtain ⟨x, hx, hxy⟩ := Option.map_eq_some_iff.mp hc.symm
  exact ⟨x, hx, (congrArg EagleClient.outgoing hxy).symm⟩

theorem still_steady {α : Type} {m : ServerM α} (h : Keeps Still Fault.Link m) : Keeps Steady Fault.Any m :=
  fun s => wp_mono (h s) (fun _ _ ht => ht.steady) fun _ _ => trivial

theorem modify_steady {f : EagleServer → EagleServer} (hc : ∀ s, (f s).clientAt = s.clientAt)
    (ho : ∀ s, (f s).objects = s.objects) (hn : ∀ s, s.fresh ≤ (f s).fresh) :
    Keeps Steady Fault.Any (modify f : ServerM Unit) :=
  keeps_modify _ fun _ => steady_same (hc _) (ho _) (hn _)

theorem modifyClient_steady {f : EagleClient → EagleClient} (hf : ∀ x, (f x).outgoing = x.outgoing) :
    Keeps Steady Fault.Any (modifyClient c f) := fun s => by
  cases hx : s.clientAt c with
  | none => simp [modifyClient, getClient, hx, Fault.Any]
  | some x => exact wp_modifyClient ⟨x, hx, steady_setClient hx (hf x)⟩

theorem modifyQueue_steady (f : QueueT → QueueT) : Keeps Steady Fault.Any (modifyQueue q f) :=
  keeps_bind getQueue_any fun _ => modify_steady (fun _ => rfl) (fun _ => rfl) fun _ => Nat.le_refl _

theorem increment_steady (o : Ptr) : Keeps Steady Fault.Any (incrementReferencesCount o) := fun s =>
  wp_increment_any fun z hz _ => steady_object hz fun _ h => by
    obtain rfl := Option.some.inj h
    rfl

theorem decrement_steady (o : Ptr) : Keeps Steady Fault.Any (decrementReferencesCount o) := fun _ =>
  wp_decrement_any fun _ hz => steady_object hz fun _ h => Object.dropped_data h

theorem createObject_steady (data : List Byte) : Keeps Steady Fault.Any (createObject data) := fun s => by
  refine ⟨fun _ y hy => ⟨y, hy, rfl⟩, fun o ho z hz => ⟨z, ?_, rfl⟩, Nat.le_succ _,
    fun hb => hb.update (Nat.le_succ _) (Nat.lt_succ_self _) _⟩
  simpa [Nat.ne_of_lt ho] using hz

theorem resetRefcount_steady (o : Ptr) : Keeps Steady Fault.Any (resetRefcount o) := fun s => by
  rw [resetRefcount, modifyObjects, wp_bind, wp_get, wp_bind]
  cases hz : s.objects o with
  | none => simp [Objects.find, hz, bind, Except.bind, Fault.Any]
  | some z =>
    simp only [Objects.find, hz, bind, Except.bind]
    refine steady_object hz fun z' h => ?_
    obtain rfl := Option.some.inj h
    rfl

end Streams

/-- The objects that are left have their data. -/
def Stock.Truthful (t u : Stock) : Prop := ∀ o w, u.objects o = some w → ∃ z, t.objects o = some z ∧
    w.data = z.data

instance : IsPreorder Stock Stock.Truthful where
  refl _ _ w hw := ⟨w, hw, rfl⟩
  trans _ _ _ h h' o w hw := by
    obtain ⟨v, hv, hwv⟩ := h' o w hw
    obtain ⟨z, hz, hvz⟩ := h o v hv
    exact ⟨z, hz, hwv.trans hvz⟩

theorem Stock.truthful_local : Stock.Local Stock.Truthful where
  lists _ _ _ _ _ _ w hw := ⟨w, hw, rfl⟩
  relink _ _ _ _ _ _ _ _ w hw := ⟨w, hw, rfl⟩
  release _ objects _ _ msg _ ho o w hw := by
    obtain ⟨z, hz, rfl⟩ := decrement_ok ho
    dsimp only at hw
    by_cases hp : o = msg.value
    · subst hp
      rw [Function.update_self] at hw
      exact ⟨z, hz, Object.dropped_data hw⟩
    · exact ⟨w, by rwa [Function.update_of_ne hp] at hw, rfl⟩

section Streams

variable {busy : Ptr → Prop} {w : Ptr → List Byte} {s t : EagleServer} {c q r ch o m : Ptr}
    {x y : EagleClient}
  {z : Object} {data : List Byte} {req : Request}

theorem withStock_steady {α : Type} {m : StockM α} (hm : Keeps Stock.Truthful Fault.Any m) (q : Ptr) :
    Keeps Steady Fault.Any (withStock q m) := fun s => by
  cases hx : s.queueAt q with
  | none => simp [wp, withStock, hx, Fault.Any]
  | some x =>
    refine wp_withStock hx (wp_mono (hm _)
      (fun _ t ht => ⟨fun _ y hy => ⟨y, hy, rfl⟩, fun o _ => ht o, Nat.le_refl _,
      fun hb o hne => ?_⟩) fun _ h => h)
    obtain ⟨v, hv⟩ := Option.ne_none_iff_exists'.mp hne
    obtain ⟨z, hz, -⟩ := ht o v hv
    have hz' : s.objects o = some z := hz
    exact hb o (by simp [hz'])

theorem createMessage_steady (q o tag expiration : ℕ) :
    Keeps Steady Fault.Any (withStock q (Stock.createMessage o tag expiration)) :=
  withStock_steady (m := Stock.createMessage o tag expiration) (fun _ _ w hw => ⟨w, hw, rfl⟩) q

theorem popMessage_steady (q now timeout : ℕ) :
    Keeps Steady Fault.Any (withStock q (Stock.popMessageQueueT now timeout)) :=
  withStock_steady (Stock.truthful_local.popMessageQueueT fun _ _ _ _ _ _ _ _ w hw => ⟨w, hw, rfl⟩) q

/-! ### Responses -/

theorem Streaming.given (h : Streaming busy w s) (hx : s.clientAt c = some x) (ho : Shows s o data)
    (env : Env) : Streaming busy w (s.setClient c (x.given env o data)) := by
  have hset : ∀ {d v}, (s.setClient c (x.given env o data)).clientAt d = some v →
      (d = c ∧ v = x.given env o data) ∨ s.clientAt d = some v := fun {d v} hv => by
    by_cases hd : d = c
    · subst hd
      rw [EagleServer.setClient_clientAt] at hv
      exact .inl ⟨rfl, (Option.some.inj hv).symm⟩
    · exact .inr (by simpa [EagleServer.setClient, hd] using hv)
  have hgiven : Buffered s (x.given env o data) (w c) := by
    unfold EagleClient.given
    split_ifs
    · obtain ⟨chunks, hshow, haccount⟩ := h.buffer c x hx
      exact ⟨chunks ++ [data], List.rel_append hshow (.cons ho .nil), haccount.append data⟩
    · exact h.buffer c x hx
  refine ⟨h.below, h.silent, fun d v hv => ?_, fun d v hv hr => ?_, fun d v hv hw => ?_⟩
  · obtain ⟨rfl, rfl⟩ | hv := hset hv
    · exact hgiven
    · exact h.buffer d v hv
  · obtain ⟨rfl, rfl⟩ | hv := hset hv
    · unfold EagleClient.given at hr ⊢
      split_ifs at hr ⊢ with hreg
      · by_cases hempty : x.responses = []
        · simp only [EagleClient.registers, hempty, List.isEmpty_nil, Bool.not_true, Bool.or_false] at hreg
          simp [EagleClient.watched, hreg]
        · simp [EagleClient.watched, h.writable d x hx hempty]
      · exact h.writable d x hx hr
    · exact h.writable d v hv hr
  · obtain ⟨rfl, rfl⟩ | hv := hset hv
    · unfold EagleClient.given at hw ⊢
      split_ifs at hw ⊢
      · exact .inr (by simp)
      · exact h.idle d x hx hw
    · exact h.idle d v hv hw

theorem addResponse_flowing (c : Ptr) (data : List Byte) :
    Keeps (Flowing busy w) Fault.Any (addResponse c data) := fun s => by
  cases hx : s.clientAt c with
  | none => simp [addResponse, createObject, setWriteEvent, getClient, hx, Fault.Any]
  | some x =>
    refine wp_addResponse hx fun h => ?_
    have hnew : Steady s { s with
        objects := Function.update s.objects s.fresh (if x.registers s.env then some ⟨data, 1⟩ else none)
        fresh := s.fresh + 1 } := by
      refine ⟨fun _ y hy => ⟨y, hy, rfl⟩, fun o ho z hz => ⟨z, ?_, rfl⟩, Nat.le_succ _,
        fun hb => hb.update (Nat.le_succ _) (Nat.lt_succ_self _) _⟩
      dsimp only at hz
      rwa [Function.update_of_ne (Nat.ne_of_lt ho)] at hz
    refine (hnew.flowing h).given hx ⟨Nat.lt_succ_self _, fun z hz => ?_⟩ s.env
    dsimp only at hz
    rw [Function.update_self] at hz
    split_ifs at hz
    obtain rfl := Option.some.inj hz
    rfl

theorem addObjectResponse_flowing (c o : Ptr) :
    Keeps (Flowing busy w) Fault.Any (addObjectResponse c o) := fun s => by
  cases hx : s.clientAt c with
  | none =>
    rw [addObjectResponse, wp_bind]
    refine wp_increment_any fun z _ _ => ?_
    simp [setWriteEvent, getClient, hx, Fault.Any]
  | some x =>
    cases hi : Objects.incrementReferencesCount s.objects o with
    | error e => simp [addObjectResponse, incrementReferencesCount, modifyObjects, hi, Fault.Any]
    | ok objects =>
      obtain ⟨z, hz, hwrap, -⟩ := increment_ok hi
      refine wp_addObjectResponse hx hz hwrap fun h => ?_
      have hdata : ∀ v, (if x.registers s.env then some { z with refcount := z.refcount + 1 }
          else if z.refcount = 0 then none else some z) = some v → v.data = z.data := fun v hv => by
        split_ifs at hv <;> obtain rfl := Option.some.inj hv <;> rfl
      refine ((steady_object hz hdata).flowing h).given hx ⟨h.below o (by simp [hz]), fun v hv => ?_⟩ s.env
      dsimp only at hv
      rw [Function.update_self] at hv
      exact hdata v hv

theorem lift_flowing {α : Type} (x : Except Fault α) :
    Keeps (Flowing busy w) Fault.Any (Prog.lift x : ServerM α) :=
  keeps_lift fun _ _ => trivial

theorem addStatusResponse_flowing (c : Ptr) (cmd status : Byte) :
    Keeps (Flowing busy w) Fault.Any (addStatusResponse c cmd status) :=
  keeps_bind getClient_any fun _ => keeps_ite (fun _ => addResponse_flowing c _) fun _ => keeps_pure _

theorem respond_flowing (c : Ptr) (req : Request) (status : Byte) :
    Keeps (Flowing busy w) Fault.Any (respond c req status) :=
  addStatusResponse_flowing c _ _

theorem dataResponse_flowing (c : Ptr) (req : Request) (body : List Byte) :
    Keeps (Flowing busy w) Fault.Any (dataResponse c req body) :=
  keeps_ite (fun _ => keeps_throw trivial) fun _ => addResponse_flowing c _

theorem channelClientEventMessage_flowing (c ch : Ptr) (topic : Name) (msg : Ptr) :
    Keeps (Flowing busy w) Fault.Any (channelClientEventMessage c ch topic msg) :=
  keeps_bind (objectSize_any _) fun _ => keeps_bind getChannel_any fun _ =>
    keeps_bind (lift_flowing _) fun _ =>
    keeps_bind (addResponse_flowing c _) fun _ => addObjectResponse_flowing c _

theorem channelClientEventPatternMessage_flowing (c ch : Ptr) (topic pattern : Name) (msg : Ptr) :
    Keeps (Flowing busy w) Fault.Any (channelClientEventPatternMessage c ch topic pattern msg) :=
  keeps_bind (objectSize_any _) fun _ => keeps_bind getChannel_any fun _ =>
    keeps_bind (lift_flowing _) fun _ =>
    keeps_bind (addResponse_flowing c _) fun _ => addObjectResponse_flowing c _

theorem same_flowing (hc : t.clientAt = s.clientAt) (ho : t.objects = s.objects) (hn : s.fresh ≤ t.fresh) :
    Flowing busy w s t :=
  (steady_same hc ho hn).flowing

theorem upheld_flowing : Upheld (Flowing busy w) where
  client _ _ x y hx hy := by
    have hout : y.bare.outgoing = x.bare.outgoing := congrArg EagleClient.outgoing hy
    exact Steady.flowing (steady_setClient hx hout)
  queue _ _ _ _ _ _ := same_flowing rfl rfl (Nat.le_refl _)
  route _ _ _ _ _ _ _ := same_flowing rfl rfl (Nat.le_refl _)
  channel _ _ _ _ _ _ := same_flowing rfl rfl (Nat.le_refl _)
  freeQueue q := steady_flowing (keeps_bind (withStock_steady Stock.truthful_local.releaseQueue q) fun _ =>
    modify_steady (fun _ => rfl) (fun _ => rfl) fun _ => Nat.le_refl _)
  freeRoute _ _ := same_flowing rfl rfl (Nat.le_refl _)
  freeChannel _ _ := same_flowing rfl rfl (Nat.le_refl _)
  delistQueue _ _ := same_flowing rfl rfl (Nat.le_refl _)
  delistRoute _ _ := same_flowing rfl rfl (Nat.le_refl _)
  delistChannel _ _ := same_flowing rfl rfl (Nat.le_refl _)
  fresh _ := same_flowing rfl rfl (Nat.le_succ _)
  increment o := steady_flowing (increment_steady o)
  decrement o := steady_flowing (decrement_steady o)
  channelMessage := channelClientEventMessage_flowing
  patternMessage := channelClientEventPatternMessage_flowing

/-! ### Queues -/

theorem queueClientEventNotify_flowing (c q : Ptr) :
    Keeps (Flowing busy w) Fault.Any (queueClientEventNotify c q) :=
  keeps_bind getQueue_any fun _ => keeps_bind (lift_flowing _) fun _ => addResponse_flowing c _

theorem message_flowing (q m : Ptr) : Keeps (Flowing busy w) Fault.Any (withStock q (Stock.message m)) :=
  steady_flowing (withStock_steady Stock.message_local q)

theorem queueClientEventMessage_flowing (c q m : Ptr) :
    Keeps (Flowing busy w) Fault.Any (queueClientEventMessage c q m) :=
  keeps_bind (message_flowing q m) fun _ => keeps_bind (objectSize_any _) fun _ =>
    keeps_bind getQueue_any fun _ =>
    keeps_bind (lift_flowing _) fun _ => keeps_bind (addResponse_flowing c _) fun _ =>
      addObjectResponse_flowing c _

theorem serveSubscribedClients_flowing (q m : Ptr) :
    Keeps (Flowing busy w) Fault.Any (serveSubscribedClients q m) := by
  refine keeps_bind getQueue_any fun x => keeps_ite (fun _ => keeps_ite (fun _ => ?_) fun _ => ?_)
    fun _ => keeps_pure _
  · refine keeps_bind (steady_flowing (modifyQueue_steady _)) fun _ => keeps_bind getQueue_any fun y => ?_
    cases y.subscribedClientsMsg.head? with
    | none => exact keeps_throw trivial
    | some c => exact queueClientEventMessage_flowing c q m
  · exact keeps_forM (fun c => queueClientEventMessage_flowing c q m) _

theorem enqueueMessage_steady (q m : Ptr) : Keeps Steady Fault.Any (enqueueMessage q m) := by
  have hstore : Keeps Steady Fault.Any (do withStock q (Stock.storeMessage m); pure true) :=
    keeps_bind (withStock_steady (Stock.truthful_local.storeMessage m) q) fun _ => keeps_pure _
  exact keeps_bind getQueue_any fun _ => keeps_ite (fun _ => keeps_ite (fun _ => keeps_bind keeps_get fun _ =>
    keeps_bind (popMessage_steady q _ 0) fun _ => hstore) fun _ => keeps_pure _) fun _ => hstore

theorem pushMessageQueueT_flowing (q o expiration : ℕ) :
    Keeps (Flowing busy w) Fault.Any (pushMessageQueueT q o expiration) := by
  have hserve : ∀ m, Keeps (Flowing busy w) Fault.Any (processSubscribedClients q m) := fun m =>
    keeps_bind getQueue_any fun _ => keeps_bind (serveSubscribedClients_flowing q m) fun _ =>
      keeps_bind (keeps_forM (fun c => queueClientEventNotify_flowing c q) _) fun _ => keeps_pure _
  refine keeps_bind keeps_get fun _ => keeps_bind (steady_flowing (modify_steady (fun _ => rfl) (fun _ => rfl)
    fun _ => Nat.le_refl _)) fun _ => keeps_bind (steady_flowing (createMessage_steady q o _ _)) fun m => ?_
  exact keeps_bind (objectSize_any o) fun _ => keeps_bind getQueue_any fun _ =>
    keeps_ite (fun _ => keeps_pure _) fun _ =>
    keeps_bind (hserve m) fun _ => keeps_ite (fun _ => keeps_bind (steady_flowing (withStock_steady
      (Stock.truthful_local.releaseMessage m) q)) fun _ => keeps_pure _) fun _ => steady_flowing
      (enqueueMessage_steady q m)

theorem messageResponse_flowing (c : Ptr) (req : Request) (q m : Ptr) :
    Keeps (Flowing busy w) Fault.Any (messageResponse c req q m) :=
  keeps_bind (message_flowing q m) fun _ => keeps_bind (objectSize_any _) fun _ =>
    keeps_bind (addResponse_flowing c _) fun _ => addObjectResponse_flowing c _

theorem requireMessage_flowing {k : Ptr → ServerM Unit} (hk : ∀ m, Keeps (Flowing busy w) Fault.Any (k m)) :
    Keeps (Flowing busy w) Fault.Any
      (requireFound c req Status.errorNoData (withStock q Stock.getMessageQueueT) k) :=
  keeps_bind (steady_flowing (withStock_steady
    (keeps_bind keeps_get fun _ => keeps_lift fun _ _ => trivial) q)) fun m => by
    cases m with
    | none => exact respond_flowing c req _
    | some m => exact hk m

/-! ### Requests -/

theorem reportResult_flowing {m : ServerM Bool} (h : Keeps (Flowing busy w) Fault.Any m) :
    Keeps (Flowing busy w) Fault.Any (reportResult c req m) :=
  keeps_bind h fun _ => keeps_ite (fun _ => respond_flowing c req _) fun _ => respond_flowing c req _

theorem createQueueT_steady (name : Name) (maxMsg maxMsgSize flags : ℕ) :
    Keeps Steady Fault.Any (createQueueT name maxMsg maxMsgSize flags) := fun _ =>
  steady_same rfl rfl (Nat.le_succ _)

theorem freed_steady (s : EagleServer) (c : Ptr) : Steady s { s with
    clients := s.clients.erase c, clientAt := Function.update s.clientAt c none } := by
  refine ⟨fun d y hy => ⟨y, ?_, rfl⟩, fun _ _ z hz => ⟨z, hz, rfl⟩, Nat.le_refl _, fun hb => hb⟩
  by_cases hd : d = c
  · subst hd
    simp at hy
  · simpa [hd] using hy

theorem freeClient_flowing (c : Ptr) : Keeps (Flowing busy w) Fault.Any (freeClient c) :=
  freeClient_upheld upheld_flowing fun s => (freed_steady s c).flowing

section Effect

variable [Lzf]

theorem Effect.flowing {m : ServerM Unit} (he : Effect s c req m) : Keeps (Flowing busy w) Fault.Any m := by
  have hsteady : ∀ {α : Type} {m : ServerM α}, Keeps Steady Fault.Any m →
      Keeps (Flowing busy w) Fault.Any m :=
    steady_flowing
  have hstill : ∀ {α : Type} {m : ServerM α}, Keeps Still Fault.Link m → Keeps (Flowing busy w) Fault.Any m :=
    fun h => steady_flowing (still_steady h)
  have hmodify : ∀ {f : EagleServer → EagleServer}, (∀ s, (f s).clientAt = s.clientAt) →
      (∀ s, (f s).objects = s.objects) → (∀ s, s.fresh ≤ (f s).fresh) →
      Keeps (Flowing busy w) Fault.Any (modify f : ServerM Unit) :=
        fun hc ho hn => hsteady (modify_steady hc ho hn)
  have hthen : ∀ {m : ServerM Unit} (status : Byte), Keeps (Flowing busy w) Fault.Any m →
      Keeps (Flowing busy w) Fault.Any (m >>= fun _ => respond c req status) := fun status hm =>
    keeps_bind hm fun _ => respond_flowing c req status
  have hfresh : ∀ n : ℕ, n ≤ n := Nat.le_refl
  have hup : Upheld (Flowing busy w) := upheld_flowing
  cases he with
  | status cmd status => exact addStatusResponse_flowing c cmd status
  | auth user => exact hthen _ (hsteady (modifyClient_steady fun _ => rfl))
  | disconnect => exact freeClient_flowing c
  | data body => exact dataResponse_flowing c req body
  | fault e => exact keeps_throw trivial
  | save async =>
    exact saveData_keeps (R := Flowing busy w) (fun _ => same_flowing rfl rfl (Nat.le_refl _))
      (respond_flowing c req) async
  | flush flags =>
    exact flushData_keeps (hmodify (fun _ => rfl) (fun _ => rfl) fun _ => hfresh _)
      (fun _ => deleteQueues_upheld hup)
      (deleteRoutes_upheld hup) (deleteChannels_upheld hup) (respond_flowing c req _)
  | users f => exact hthen _ (hmodify (fun _ => rfl) (fun _ => rfl) fun _ => hfresh _)
  | queueCreate name maxMsg maxMsgSize flags =>
    exact keeps_bind (hsteady (createQueueT_steady name maxMsg maxMsgSize flags)) fun _ => hthen _
      (hmodify (fun _ => rfl) (fun _ => rfl) fun _ => hfresh _)
  | queueDeclare q => exact hthen _ (declareClientQueueT_upheld hup)
  | queueRename q name => exact hthen _ (hsteady (modifyQueue_steady _))
  | queuePush q =>
    exact keeps_bind (hsteady (createObject_steady _)) fun o => reportResult_flowing
      (keeps_bind keeps_get fun _ =>
      pushMessageQueueT_flowing q o _)
  | queueGet q => exact requireMessage_flowing fun m => messageResponse_flowing c req q m
  | queuePop q =>
    exact requireMessage_flowing fun m => keeps_bind (messageResponse_flowing c req q m) fun _ =>
      keeps_bind keeps_get fun _ => hsteady (popMessage_steady q _ _)
  | queueConfirm q =>
    exact keeps_bind (hsteady (withStock_steady (Stock.truthful_local.confirmMessageQueueT _) q)) fun _ =>
      keeps_ite (fun _ => respond_flowing c req _) fun _ => respond_flowing c req _
  | queueSubscribe q flags => exact hthen _ (subscribeClientQueueT_upheld hup flags)
  | queueUnsubscribe q => exact hthen _ (unsubscribeClientQueueT_upheld hup)
  | queuePurge q => exact hthen _ (hsteady (withStock_steady Stock.truthful_local.purgeQueueT q))
  | queueDelete q => exact reportResult_flowing (listDeleteQueue_upheld hup)
  | routeCreate name flags =>
    exact keeps_bind (hstill (createRouteT_still name flags)) fun _ => hthen _
      (hmodify (fun _ => rfl) (fun _ => rfl) fun _ => hfresh _)
  | routeRename r name => exact hthen _ (hstill modifyRoute_still)
  | routeBind r q key => exact hthen _ (hstill (bindRouteT_still q r key))
  | routeUnbind r q key => exact reportResult_flowing (unbindRouteT_upheld hup key)
  | routePush r key =>
    exact keeps_bind (hsteady (createObject_steady _)) fun o =>
      keeps_bind (hsteady (resetRefcount_steady o)) fun _ =>
      reportResult_flowing (keeps_bind keeps_get fun _ => pushMessageRouteT_upheld hup key o _ fun q =>
        pushMessageQueueT_flowing q o _)
  | routeDelete r => exact reportResult_flowing (listDeleteRoute_upheld hup)
  | channelCreate name flags =>
    exact keeps_bind (hstill (createChannelT_still name flags)) fun _ => hthen _
      (hmodify (fun _ => rfl) (fun _ => rfl) fun _ => hfresh _)
  | channelRename ch name => exact hthen _ (hstill modifyChannel_still)
  | channelPublish ch topic =>
    exact keeps_bind (hsteady (createObject_steady _)) fun o =>
      keeps_bind (publishMessageChannelT_upheld hup topic o)
      fun _ => hthen _ (hsteady (decrement_steady o))
  | channelSubscribe d ch name => exact hthen _ (subscribeSide_upheld hup d name)
  | channelUnsubscribe d ch name =>
    exact keeps_bind (unsubscribeSide_upheld hup d name) fun _ => keeps_ite
      (fun _ => keeps_bind (respond_flowing c req _) fun _ => respond_flowing c req _) fun _ =>
      respond_flowing c req _
  | channelDelete ch => exact reportResult_flowing (listDeleteChannel_upheld hup)

end Effect

/-! ### Ticks and connections -/

theorem serverUpdater_flowing : Keeps (Flowing busy w) Fault.Any serverUpdater := by
  have hclients : ∀ (s : EagleServer) c, Flowing busy w s { s with
      clients := s.clients.erase c
      clientAt := Function.update s.clientAt c none } := fun s c => (freed_steady s c).flowing
  refine keeps_bind (steady_flowing
    (modify_steady (fun _ => rfl) (fun _ => rfl) fun _ => Nat.le_refl _)) fun _ =>
    keeps_bind (keeps_modify _ fun s => ?_) fun _ =>
      keeps_bind (clientTimeouts_upheld upheld_flowing hclients) fun _ =>
      keeps_bind ?_ fun _ => ?_
  · split_ifs <;> exact same_flowing rfl rfl (Nat.le_refl _)
  · exact keeps_bind keeps_get fun _ => keeps_forM (fun q => keeps_bind keeps_get fun _ => steady_flowing
      (keeps_bind (withStock_steady (Stock.truthful_local.processExpiredMessagesQueueT _) q) fun _ =>
        withStock_steady (Stock.truthful_local.processUnconfirmedMessagesQueueT _) q)) _
  · exact storageTimeouts_keeps (R := Flowing busy w)
      (fun _ _ => same_flowing rfl rfl (Nat.le_refl _)) fun _ => same_flowing rfl rfl (Nat.le_refl _)

theorem createClient_flowing (fd : ℕ) : Keeps (Flowing busy w) Fault.Any (createClient fd) := fun s => by
  rw [createClient, wp_bind, wp_get]
  refine wp_ite (fun _ h => ?_) fun _ h => h
  have hnew : ∀ {d v}, Function.update s.clientAt s.fresh
      (some ⟨fd, 0, false, false, [], [], [], [], [], 0, s.env.time, []⟩) d = some v →
      (d = s.fresh ∧ v = ⟨fd, 0, false, false, [], [], [], [], [], 0, s.env.time, []⟩) ∨
        s.clientAt d = some v :=
    fun {d v} hv => by
      by_cases hd : d = s.fresh
      · subst hd
        rw [Function.update_self] at hv
        exact .inl ⟨rfl, (Option.some.inj hv).symm⟩
      · exact .inr (by rwa [Function.update_of_ne hd] at hv)
  have hgrown : Streaming busy w { s with fresh := s.fresh + 1 } :=
    same_flowing (s := s) rfl rfl (Nat.le_succ _) h
  refine ⟨hgrown.below, hgrown.silent, fun d v hv => ?_, fun d v hv hr => ?_, fun d v hv hw => ?_⟩
  · obtain ⟨rfl, rfl⟩ | hv := hnew hv
    · rw [h.silent _ (Nat.le_refl _)]
      exact ⟨[], .nil, .empty⟩
    · exact hgrown.buffer d v hv
  · obtain ⟨rfl, rfl⟩ | hv := hnew hv
    · exact absurd rfl hr
    · exact hgrown.writable d v hv hr
  · obtain ⟨rfl, rfl⟩ | hv := hnew hv
    · exact absurd hw Bool.false_ne_true
    · exact hgrown.idle d v hv hw

end Streams

end EagleMQ
