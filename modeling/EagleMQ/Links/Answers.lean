import EagleMQ.System
import EagleMQ.Links.Delivery
import EagleMQ.Links.Still

/-! Answering a client and delivering a message leave everything else as it is.
They change clients and objects, and the order in which a queue, a route or a
channel serves those it serves in turn. The faults of the lists of messages come
from other operations. -/

namespace EagleMQ

open Prog

/-! ### Records without the order of service -/

def QueueT.mute (x : QueueT) : QueueT := { x with subscribedClientsMsg := [] }

def RouteT.mute (x : RouteT) : RouteT := { x with keys := x.keys.keys.map fun k => (k, []) }

def ChannelT.mute (x : ChannelT) : ChannelT := { x with topics := x.topics.keys.map fun k => (k, []) }

/-- A state without clients, objects and orders of service. -/
def EagleServer.mute (s : EagleServer) : EagleServer :=
  { s with
    clientAt := fun _ => none
    queueAt := fun q => (s.queueAt q).map QueueT.mute
    routeAt := fun r => (s.routeAt r).map RouteT.mute
    channelAt := fun ch => (s.channelAt ch).map ChannelT.mute
    objects := fun _ => none
    fresh := 0 }

/-- Clients have been answered. -/
structure Answers (s t : EagleServer) : Prop where
  mute : t.mute = s.mute
  fresh : s.fresh ≤ t.fresh

instance : IsPreorder EagleServer Answers where
  refl _ := ⟨rfl, Nat.le_refl _⟩
  trans _ _ _ h h' := ⟨h'.mute.trans h.mute, Nat.le_trans h.fresh h'.fresh⟩

/-- The faults of messages and of the nodes of their lists. -/
def Fault.Stock (e : Fault) : Prop := e = .message ∨ e = .node ∨ e = .null

instance : DecidablePred Fault.Stock := fun _ => inferInstanceAs (Decidable (_ ∨ _ ∨ _))

section Answers

variable {s t : EagleServer} {c q r ch : Ptr}

theorem Answers.queue (h : Answers s t) (q : Ptr) :
    (t.queueAt q).map QueueT.mute = (s.queueAt q).map QueueT.mute :=
  congrFun (congrArg EagleServer.queueAt h.mute) q

theorem Answers.route (h : Answers s t) (r : Ptr) :
    (t.routeAt r).map RouteT.mute = (s.routeAt r).map RouteT.mute :=
  congrFun (congrArg EagleServer.routeAt h.mute) r

theorem Answers.channel (h : Answers s t) (ch : Ptr) :
    (t.channelAt ch).map ChannelT.mute = (s.channelAt ch).map ChannelT.mute :=
  congrFun (congrArg EagleServer.channelAt h.mute) ch

theorem Answers.users (h : Answers s t) : t.users = s.users :=
  show t.mute.users = s.mute.users by rw [h.mute]

theorem Answers.queues (h : Answers s t) : t.queues = s.queues :=
  show t.mute.queues = s.mute.queues by rw [h.mute]

theorem Answers.routes (h : Answers s t) : t.routes = s.routes :=
  show t.mute.routes = s.mute.routes by rw [h.mute]

theorem Answers.channels (h : Answers s t) : t.channels = s.channels :=
  show t.mute.channels = s.mute.channels by rw [h.mute]

theorem Answers.destroyed (h : Answers s t) : t.destroyed = s.destroyed :=
  show t.mute.destroyed = s.mute.destroyed by rw [h.mute]

/-- The messages of a queue are as they were. -/
theorem Answers.queue_some (h : Answers s t) {x : QueueT} (hx : s.queueAt q = some x) :
    ∃ y, t.queueAt q = some y ∧ y.mute = x.mute := by
  have hq := h.queue q
  rw [hx] at hq
  exact Option.map_eq_some_iff.mp hq

theorem map_mute_update {α β : Type} {h : Heap α} {f : α → β} {p : Ptr} {x y : α} (hx : h p = some x)
    (hy : f y = f x) : (fun q => (Function.update h p (some y) q).map f) = fun q => (h q).map f := by
  rw [map_update, hy, Function.update_eq_self_iff, hx]
  rfl

theorem answers_setQueue {x y : QueueT} (hx : s.queueAt q = some x) (hy : y.mute = x.mute) :
    Answers s (s.setQueue q y) :=
  ⟨by simp only [EagleServer.mute, EagleServer.setQueue, map_mute_update hx hy], Nat.le_refl _⟩

theorem answers_setChannel {x y : ChannelT} (hx : s.channelAt ch = some x) (hy : y.mute = x.mute) :
    Answers s (s.setChannel ch y) :=
  ⟨by simp only [EagleServer.mute, EagleServer.setChannel, map_mute_update hx hy], Nat.le_refl _⟩

/-! ### Answers -/

variable {E : Fault → Prop} (hE : ∀ e, ¬e.Stock → E e)

include hE

theorem getClient_answers : Keeps Answers E (getClient c) := by
  refine keeps_bind keeps_get fun s => ?_
  cases s.clientAt c with
  | none => exact keeps_throw (hE _ (by decide))
  | some x => exact keeps_pure x

theorem getQueue_answers : Keeps Answers E (getQueue q) := by
  refine keeps_bind keeps_get fun s => ?_
  cases s.queueAt q with
  | none => exact keeps_throw (hE _ (by decide))
  | some x => exact keeps_pure x

theorem getRoute_answers : Keeps Answers E (getRoute r) := by
  refine keeps_bind keeps_get fun s => ?_
  cases s.routeAt r with
  | none => exact keeps_throw (hE _ (by decide))
  | some x => exact keeps_pure x

theorem getChannel_answers : Keeps Answers E (getChannel ch) := by
  refine keeps_bind keeps_get fun s => ?_
  cases s.channelAt ch with
  | none => exact keeps_throw (hE _ (by decide))
  | some x => exact keeps_pure x

theorem modifyClient_answers (f : EagleClient → EagleClient) : Keeps Answers E (modifyClient c f) :=
  keeps_bind (getClient_answers hE) fun _ => keeps_modify _ fun _ => ⟨rfl, Nat.le_refl _⟩

theorem modifyQueue_answers {f : QueueT → QueueT} (hf : ∀ x, (f x).mute = x.mute) :
    Keeps Answers E (modifyQueue q f) := fun s => by
  unfold modifyQueue getQueue
  simp only [wp_bind, wp_get]
  cases hx : s.queueAt q with
  | none => exact hE _ (by decide)
  | some x => exact answers_setQueue hx (hf x)

omit hE in
theorem createObject_answers (data : List Byte) : Keeps Answers E (createObject data) :=
  fun _ => ⟨rfl, Nat.le_succ _⟩

theorem find_served (objects : Heap Object) (o : Ptr) : Errs E (Objects.find objects o) := by
  unfold Objects.find
  split
  · exact errs_error (hE _ (by decide))
  · exact errs_ok _

omit hE in
theorem modifyObjects_answers {f : Heap Object → Except Fault (Heap Object)}
    (hf : ∀ objects, Errs E (f objects)) : Keeps Answers E (modifyObjects f) :=
  keeps_bind keeps_get fun _ => keeps_bind (keeps_lift (hf _)) fun _ =>
    keeps_modify _ fun _ => ⟨rfl, Nat.le_refl _⟩

theorem incrementReferencesCount_answers (o : Ptr) : Keeps Answers E (incrementReferencesCount o) :=
  modifyObjects_answers fun objects => errs_bind (find_served hE objects o) fun _ =>
    errs_ite (errs_error (hE _ (by decide))) (errs_ok _)

theorem decrementReferencesCount_answers (o : Ptr) : Keeps Answers E (decrementReferencesCount o) :=
  modifyObjects_answers fun objects => errs_bind (find_served hE objects o) fun _ => errs_ok _

theorem releaseObject_answers (o : Ptr) : Keeps Answers E (releaseObject o) :=
  modifyObjects_answers fun objects => errs_bind (find_served hE objects o) fun _ => errs_ok _

theorem resetRefcount_answers (o : Ptr) : Keeps Answers E (resetRefcount o) :=
  modifyObjects_answers fun objects => errs_bind (find_served hE objects o) fun _ => errs_ok _

theorem objectSize_answers (o : Ptr) : Keeps Answers E (objectSize o) :=
  keeps_bind keeps_get fun _ => keeps_bind (keeps_lift (find_served hE _ o)) fun _ => keeps_pure _

theorem setWriteEvent_answers : Keeps Answers E (setWriteEvent c) :=
  keeps_bind (getClient_answers hE) fun _ => keeps_ite (fun _ => keeps_pure _) fun _ =>
    keeps_bind keeps_get fun _ => keeps_ite
      (fun _ => keeps_bind (modifyClient_answers hE _) fun _ => keeps_pure _) fun _ => keeps_pure _

theorem appendResponse_answers (o : Ptr) : Keeps Answers E (appendResponse c o) :=
  keeps_bind keeps_get fun _ => modifyClient_answers hE _

theorem addResponse_answers (data : List Byte) : Keeps Answers E (addResponse c data) :=
  keeps_bind (createObject_answers data) fun o => keeps_bind (setWriteEvent_answers hE) fun _ =>
    keeps_ite (fun _ => appendResponse_answers hE o) fun _ => releaseObject_answers hE o

theorem addObjectResponse_answers (o : Ptr) : Keeps Answers E (addObjectResponse c o) :=
  keeps_bind (incrementReferencesCount_answers hE o) fun _ => keeps_bind (setWriteEvent_answers hE) fun _ =>
    keeps_ite (fun _ => appendResponse_answers hE o) fun _ => decrementReferencesCount_answers hE o

theorem addStatusResponse_answers (cmd status : Byte) : Keeps Answers E (addStatusResponse c cmd status) :=
  keeps_bind (getClient_answers hE) fun _ => keeps_ite (fun _ => addResponse_answers hE _) fun _ =>
    keeps_pure _

theorem dataResponse_answers (req : Request) (body : List Byte) :
    Keeps Answers E (dataResponse c req body) :=
  keeps_ite (fun _ => keeps_throw (hE _ (by decide))) fun _ => addResponse_answers hE _

theorem dropResponse_answers : Keeps Answers E (dropResponse c) := by
  refine keeps_bind (getClient_answers hE) fun x => ?_
  cases x.responses with
  | nil => exact keeps_throw (hE _ (by decide))
  | cons o l => exact keeps_bind (modifyClient_answers hE _) fun _ => decrementReferencesCount_answers hE o

theorem dropEmpty_answers : ∀ l, Keeps Answers E (dropEmpty c l)
  | [] => keeps_pure _
  | o :: l => keeps_bind (objectSize_answers hE o) fun _ => keeps_ite
      (fun _ => keeps_bind (dropResponse_answers hE) fun _ => dropEmpty_answers l) fun _ => keeps_pure _

theorem finishSend_answers (sent : Bool) : Keeps Answers E (finishSend c sent) := by
  have hend : Keeps Answers E (do
      if (← getClient c).responses = [] then
        modifyClient c fun x => { x with sentlen := 0, writable := false } : ServerM Unit) :=
    keeps_bind (getClient_answers hE) fun _ => keeps_ite (fun _ => modifyClient_answers hE _) fun _ =>
      keeps_pure _
  exact keeps_bind keeps_get fun _ => keeps_ite
    (fun _ => keeps_bind (modifyClient_answers hE _) fun _ => hend) fun _ => hend

/-! ### Delivery -/

omit hE in
/-- The messages of a queue include a message. -/
def Holds (q m : Ptr) (s : EagleServer) : Prop :=
  ∃ x msg, s.queueAt q = some x ∧ x.backlog.messages m = some msg

omit hE in
theorem Holds.answers {m : Ptr} (h : Holds q m s) (ht : Answers s t) : Holds q m t := by
  obtain ⟨x, msg, hx, hm⟩ := h
  obtain ⟨y, hy, hxy⟩ := ht.queue_some hx
  exact ⟨y, msg, hy, by rw [← show x.backlog = y.backlog from (congrArg QueueT.backlog hxy).symm, hm]⟩

omit hE in
/-- An operation that only reads the messages of a queue. -/
theorem withStock_reads {α : Type} {m : StockM α} {a : α} {x : QueueT} (hx : s.queueAt q = some x)
    (hm : m ⟨x.backlog, s.objects⟩ = .ok (a, ⟨x.backlog, s.objects⟩)) : withStock q m s = .ok (a, s) := by
  have hsame : Function.update s.queueAt q (some x) = s.queueAt := by
    rw [← hx, Function.update_eq_self]
  simp only [withStock, hx, hm, Except.map, hsame]

theorem message_answers {m : Ptr} (hm : E .message ∨ Holds q m s) :
    wp (withStock q (Stock.message m)) (fun _ t => t = s) E s := by
  cases hx : s.queueAt q with
  | none => simpa only [wp, withStock, hx] using hE .record (by decide)
  | some x =>
    cases hmsg : x.backlog.messages m with
    | some msg =>
      refine wp_of_ok (withStock_reads (a := msg) hx ?_) rfl
      simp only [Stock.message, bind, StateT.bind, get, getThe, MonadStateOf.get, StateT.get, pure,
        Except.pure, Except.bind, hmsg]
      rfl
    | none =>
      have hfault : withStock q (Stock.message m) s = .error .message := by
        simp only [withStock, hx, Stock.message, bind, StateT.bind, get, getThe, MonadStateOf.get,
          StateT.get, pure, Except.pure, Except.bind, hmsg]
        rfl
      simp only [wp, hfault]
      refine hm.resolve_right ?_
      rintro ⟨y, msg, hy, hmy⟩
      obtain rfl := Option.some.inj (hx.symm.trans hy)
      rw [hmsg] at hmy
      cases hmy

theorem queueClientEventNotify_answers : Keeps Answers E (queueClientEventNotify c q) :=
  keeps_bind (getQueue_answers hE) fun _ => keeps_bind
    (keeps_lift (copyStrings_errs (hE _ (by decide)) _ _)) fun _ => addResponse_answers hE _

theorem queueClientEventMessage_answers {m : Ptr} (hm : E .message ∨ Holds q m s) :
    wp (queueClientEventMessage c q m) (fun _ t => Answers s t) E s := by
  rw [queueClientEventMessage, wp_bind]
  refine wp_mono (message_answers hE hm) (fun msg t ht => ?_) fun _ h => h
  subst ht
  have hrest : Keeps Answers E (do
      let size ← objectSize msg.value
      let x ← getQueue q
      let body ← Prog.lift (copyStrings 64 [(0, x.cName)])
      addResponse c (eventHeader Cmd.queueSubscribe eventMessage (64 + size) ++ body)
      addObjectResponse c msg.value) :=
    keeps_bind (objectSize_answers hE _) fun _ => keeps_bind (getQueue_answers hE) fun _ =>
      keeps_bind (keeps_lift (copyStrings_errs (hE _ (by decide)) _ _)) fun _ =>
        keeps_bind (addResponse_answers hE _) fun _ => addObjectResponse_answers hE _
  exact hrest t

theorem serveSubscribedClients_answers {m : Ptr} (hm : E .message ∨ Holds q m s) :
    wp (serveSubscribedClients q m) (fun _ t => Answers s t) E s := by
  have hkeep : ∀ {t u}, (E .message ∨ Holds q m t) → Answers t u → E .message ∨ Holds q m u :=
    fun h ht => h.imp_right fun h => h.answers ht
  rw [serveSubscribedClients]
  refine wp_bind_trans (getQueue_answers hE s) fun x t ht => ?_
  have hmt := hkeep hm ht
  refine wp_ite (fun _ => wp_ite (fun _ => ?_) fun _ => ?_) fun _ => Std.Refl.refl t
  · refine wp_bind_trans (modifyQueue_answers hE (f := fun x =>
      { x with subscribedClientsMsg := listRotate x.subscribedClientsMsg }) (fun _ => rfl) t) fun _ u hu => ?_
    refine wp_bind_trans (getQueue_answers hE u) fun y v hv => ?_
    split
    · exact queueClientEventMessage_answers hE (hkeep (hkeep hmt hu) hv)
    · exact hE _ (by decide)
  · exact wp_forM_trans fun c _ u hu => queueClientEventMessage_answers hE (hkeep hmt hu)

theorem processSubscribedClients_answers {m : Ptr} (hm : E .message ∨ Holds q m s) :
    wp (processSubscribedClients q m) (fun _ t => Answers s t) E s := by
  rw [processSubscribedClients]
  refine wp_bind_trans (getQueue_answers hE s) fun x t ht => ?_
  refine wp_bind_trans (serveSubscribedClients_answers hE (hm.imp_right fun h => h.answers ht))
    fun _ u _ => ?_
  exact wp_bind_trans (keeps_forM (fun _ => queueClientEventNotify_answers hE) _ u) fun _ v _ =>
    Std.Refl.refl v

/-! ### Publishing -/

theorem channelClientEventMessage_answers (topic : Name) (msg : Ptr) :
    Keeps Answers E (channelClientEventMessage c ch topic msg) :=
  keeps_bind (objectSize_answers hE _) fun _ => keeps_bind (getChannel_answers hE) fun _ =>
    keeps_bind (keeps_lift (copyStrings_errs (hE _ (by decide)) _ _)) fun _ =>
      keeps_bind (addResponse_answers hE _) fun _ => addObjectResponse_answers hE _

theorem channelClientEventPatternMessage_answers (topic pattern : Name) (msg : Ptr) :
    Keeps Answers E (channelClientEventPatternMessage c ch topic pattern msg) :=
  keeps_bind (objectSize_answers hE _) fun _ => keeps_bind (getChannel_answers hE) fun _ =>
    keeps_bind (keeps_lift (copyStrings_errs (hE _ (by decide)) _ _)) fun _ =>
      keeps_bind (addResponse_answers hE _) fun _ => addObjectResponse_answers hE _

omit hE in
theorem mute_setTopics {x : ChannelT} {node : TopicNode} {l : List Ptr} (hn : node ∈ x.topics.keys) :
    (x.setSide .topic (x.topics.set node l)).mute = x.mute := by
  simp only [ChannelT.mute, ChannelT.setSide, Keylist.keys_set, if_pos hn]

theorem publishTopic_answers {x : ChannelT} {node : TopicNode} (topic : Name) (msg : Ptr)
    (hx : s.channelAt ch = some x) (hn : node ∈ x.topics.keys) :
    wp (publishTopic ch node topic msg) (fun _ t => Answers s t) E s := by
  rw [publishTopic, wp_bind, wp_getChannel hx]
  refine wp_ite (fun _ => ?_) fun _ => ?_
  · refine wp_bind_trans (wp_modifyChannel ⟨x, hx, answers_setChannel hx (mute_setTopics hn)⟩)
      fun _ t _ => wp_bind_trans (getChannel_answers hE t) fun y u _ => ?_
    split
    · exact channelClientEventMessage_answers hE topic msg u
    · exact hE _ (by decide)
  · exact keeps_forM (fun _ => channelClientEventMessage_answers hE topic msg) _ s

theorem publishPattern_answers (topic : Name) (msg : Ptr) (k : TopicNode × List Ptr) :
    Keeps Answers E (publishPattern ch topic msg k) :=
  keeps_bind (keeps_lift (patternMatch_errs (hE _ (by decide)) (hE _ (by decide)) _ _ _)) fun _ =>
    keeps_ite (fun _ => keeps_forM (fun _ => channelClientEventPatternMessage_answers hE _ _ msg) _)
      fun _ => keeps_pure _

theorem publishMessageChannelT_answers (topic : Name) (msg : Ptr) :
    Keeps Answers E (publishMessageChannelT ch topic msg) := fun s => by
  rw [publishMessageChannelT, wp_bind]
  cases hx : s.channelAt ch with
  | none => simpa [getChannel, hx] using hE .record (by decide)
  | some x =>
    have hend : Keeps Answers E (x.patterns.forM (publishPattern ch topic msg)) :=
      keeps_forM (publishPattern_answers hE topic msg) _
    rw [wp_getChannel hx]
    cases hf : findNode x.topics topic with
    | none => exact hend s
    | some node =>
      exact wp_bind_trans (publishTopic_answers hE topic msg hx (findNode_some hf).1) fun _ t _ => hend t

theorem publishToChannel_answers (req : Request) (topic : Name) :
    Keeps Answers E (publishToChannel c req ch topic) :=
  keeps_bind (createObject_answers _) fun o => keeps_bind (publishMessageChannelT_answers hE topic o)
    fun _ => keeps_bind (decrementReferencesCount_answers hE o) fun _ => addStatusResponse_answers hE _ _

end Answers

end EagleMQ
