import EagleMQ.Responses
import EagleMQ.Backlog.Reach
import EagleMQ.Consistency

/-! What a push does to a queue and to its subscribers, exactly: who is told what,
where the message goes, and which message a full queue gives for it. -/

namespace EagleMQ

open Prog Backlog

/-! ### What the clients are told -/

/-- The client without what responses change. -/
def EagleClient.unheard (x : EagleClient) : EagleClient :=
  { x with writable := false, responses := [], history := [] }

/-- The server without what responses change. -/
def EagleServer.unheard (s : EagleServer) : EagleServer :=
  { s with clientAt := fun _ => none, objects := fun _ => none, fresh := 0 }

/-- Responses have been made and nothing else has happened: `said c` is what the client
`c` has been told, if its responses can be registered. -/
structure Tells (said : Ptr → List (List Byte)) (s t : EagleServer) : Prop where
  frame : t.unheard = s.unheard
  fresh : s.fresh ≤ t.fresh
  objects : ∀ o < s.fresh, ∀ z', t.objects o = some z' → ∃ z, s.objects o = some z ∧ z'.data = z.data
  clients : ∀ c x, s.clientAt c = some x → ∃ y, t.clientAt c = some y ∧ y.unheard = x.unheard ∧
    y.registers s.env = x.registers s.env ∧ y.history = x.history ++ if x.registers s.env then said c else []

/-- One client is told something. -/
def only (c : Ptr) (l : List (List Byte)) : Ptr → List (List Byte) := fun c' => if c' = c then l else []

section Tells

variable {s t u : EagleServer} {c o q m : Ptr} {x : EagleClient} {y : QueueT} {z : Object} {msg : Message}
  {f g : Ptr → List (List Byte)} {data payload : List Byte}

theorem Tells.env (h : Tells f s t) : t.env = s.env :=
  show t.unheard.env = s.unheard.env by rw [h.frame]

theorem Tells.queueAt (h : Tells f s t) : t.queueAt = s.queueAt :=
  show t.unheard.queueAt = s.unheard.queueAt by rw [h.frame]

theorem Tells.refl (s : EagleServer) : Tells (fun _ => []) s s where
  frame := rfl
  fresh := Nat.le_refl _
  objects o _ z hz := ⟨z, hz, rfl⟩
  clients c x hx := ⟨x, hx, rfl, rfl, by simp⟩

theorem Tells.trans (h : Tells f s t) (h' : Tells g t u) : Tells (fun c => f c ++ g c) s u where
  frame := h'.frame.trans h.frame
  fresh := Nat.le_trans h.fresh h'.fresh
  objects o ho z hz := by
    obtain ⟨z', hz', hd⟩ := h'.objects o (Nat.lt_of_lt_of_le ho h.fresh) z hz
    obtain ⟨w, hw, hd'⟩ := h.objects o ho z' hz'
    exact ⟨w, hw, hd.trans hd'⟩
  clients c x hx := by
    obtain ⟨y, hy, hsame, hreg, hh⟩ := h.clients c x hx
    obtain ⟨z, hz, hsame', hreg', hh'⟩ := h'.clients c y hy
    rw [h.env] at hreg' hh'
    refine ⟨z, hz, hsame'.trans hsame, hreg'.trans hreg, ?_⟩
    rw [hh', hh, hreg]
    split_ifs <;> simp

theorem Tells.congr (h : Tells f s t) (hfg : ∀ c, f c = g c) : Tells g s t := by
  rwa [← funext hfg]

/-- One response is made in one way or the other. -/
theorem tells_given (hx : s.clientAt c = some x)
    (hclients : t.clientAt = Function.update s.clientAt c (some (x.given s.env o data)))
    (hframe : t.unheard = s.unheard) (hfresh : s.fresh ≤ t.fresh)
    (hobjects : ∀ o < s.fresh, ∀ z', t.objects o = some z' → ∃ z, s.objects o = some z ∧ z'.data = z.data) :
    Tells (only c [data]) s t where
  frame := hframe
  fresh := hfresh
  objects := hobjects
  clients c' w hw := by
    rw [hclients]
    by_cases hc : c' = c
    · subst hc
      obtain rfl := Option.some.inj (hx.symm.trans hw)
      refine ⟨_, Function.update_self .., ?_, ?_, ?_⟩
      · unfold EagleClient.given
        split_ifs <;> rfl
      · unfold EagleClient.given
        split_ifs with hreg
        · simp only [EagleClient.registers, Bool.and_eq_true] at hreg
          simp [EagleClient.registers, EagleClient.watched, hreg.1, hreg.2]
        · rfl
      · rw [EagleClient.given_history, only, if_pos rfl]
        split_ifs <;> simp
    · exact ⟨w, by rw [Function.update_of_ne hc, hw], rfl, rfl, by simp [only, hc]⟩

theorem addResponse_tells (c : Ptr) (data : List Byte) (s : EagleServer) :
    wp (addResponse c data) (fun _ t => Tells (only c [data]) s t) Fault.Any s := by
  cases hx : s.clientAt c with
  | none => simp [addResponse, createObject, setWriteEvent, getClient, hx, Fault.Any]
  | some x =>
    refine wp_addResponse hx (tells_given hx rfl rfl (Nat.le_succ _) fun o ho z' hz' => ⟨z', ?_, rfl⟩)
    rwa [← Function.update_of_ne (f := s.objects) (Nat.ne_of_lt ho)]

/-- An object with given data, unless it is gone. -/
def Carries (o : Ptr) (payload : List Byte) (s : EagleServer) : Prop :=
  o < s.fresh ∧ ∀ z, s.objects o = some z → z.data = payload

theorem Tells.carries (h : Tells f s t) (ho : Carries o payload s) : Carries o payload t :=
  ⟨Nat.lt_of_lt_of_le ho.1 h.fresh, fun z hz => by
    obtain ⟨w, hw, hd⟩ := h.objects o ho.1 z hz
    exact hd.trans (ho.2 w hw)⟩

theorem addObjectResponse_tells (c : Ptr) (ho : Carries o payload s) :
    wp (addObjectResponse c o) (fun _ t => Tells (only c [payload]) s t) Fault.Any s := by
  cases hz : s.objects o with
  | none =>
    have herror : Objects.incrementReferencesCount s.objects o = .error .object := by
      simp [Objects.incrementReferencesCount, Objects.find, hz, bind, Except.bind]
    simp [addObjectResponse, incrementReferencesCount, modifyObjects, herror, Fault.Any]
  | some z =>
    obtain rfl := ho.2 z hz
    by_cases hwrap : z.refcount + 1 < 4294967296
    · cases hx : s.clientAt c with
      | none =>
        rw [addObjectResponse, wp_bind]
        exact wp_incrementReferencesCount hz hwrap (by simp [setWriteEvent, getClient, hx, Fault.Any])
      | some x =>
        refine wp_addObjectResponse hx hz hwrap (tells_given hx rfl rfl (Nat.le_refl _) fun o' _ z' hz' => ?_)
        by_cases ho' : o' = o
        · subst ho'
          refine ⟨z, hz, ?_⟩
          simp only [EagleServer.shared, Function.update_self] at hz'
          split_ifs at hz' <;> exact Option.some.inj hz' ▸ rfl
        · exact ⟨z', by rwa [← Function.update_of_ne (f := s.objects) ho'], rfl⟩
    · have herror : Objects.incrementReferencesCount s.objects o = .error .wrap := by
        simp [Objects.incrementReferencesCount, Objects.find, hz, bind, Except.bind, Nat.not_lt.mp hwrap]
      simp [addObjectResponse, incrementReferencesCount, modifyObjects, herror, Fault.Any]

/-- A loop that tells each client on a list the same. -/
theorem forM_tells {P : EagleServer → Prop} {body : Ptr → ServerM Unit} {said : List (List Byte)}
    (hP : ∀ {f s t}, Tells f s t → P s → P t)
    (hbody : ∀ c s, P s → wp (body c) (fun _ t => Tells (only c said) s t) Fault.Any s) :
    ∀ {l : List Ptr}, l.Nodup → ∀ s, P s →
      wp (l.forM body) (fun _ t => Tells (fun c => if c ∈ l then said else []) s t) Fault.Any s
  | [], _, s, _ => (Tells.refl s).congr fun c => by simp
  | c :: l, hl, s, hs => by
    obtain ⟨hc, hl⟩ := List.nodup_cons.mp hl
    rw [show (c :: l).forM body = (body c >>= fun _ => l.forM body) from rfl, wp_bind]
    refine wp_mono (hbody c s hs) (fun _ t ht => ?_) fun _ h => h
    refine wp_mono (forM_tells hP hbody hl t (hP ht hs))
      (fun _ u hu => (ht.trans hu).congr fun c' => ?_) fun _ h => h
    by_cases hc' : c' = c
    · subst hc'
      simp [only, hc]
    · simp [only, hc']

/-! ### Events -/

/-- The name of the queue in its field of 64 bytes. -/
theorem copyStrings_name {n : ℕ} {name : Name} {body : List Byte} (h : copyStrings n [(0, name)] = .ok body) :
    body = padded n name := by
  rw [copyStrings] at h
  simp only [List.foldlM_cons, List.foldlM_nil, copyString, List.length_replicate, bind, Except.bind] at h
  split_ifs at h with hlen
  obtain rfl := Except.ok.inj h
  have hn : n - name.length = n - (name.length + 1) + 1 := by omega
  simp [padded, hn, List.replicate_succ]

/-- A notify event. -/
def QueueT.notice (x : QueueT) : List Byte :=
  eventHeader Cmd.queueSubscribe eventNotify 64 ++ padded 64 x.cName

/-- The two responses of a message event. -/
def QueueT.delivery (x : QueueT) (payload : List Byte) : List (List Byte) :=
  [eventHeader Cmd.queueSubscribe eventMessage (64 + payload.length) ++ padded 64 x.cName, payload]

theorem queueClientEventNotify_tells (c : Ptr) (hy : s.queueAt q = some y) :
    wp (queueClientEventNotify c q) (fun _ t => Tells (only c [y.notice]) s t) Fault.Any s := by
  rw [queueClientEventNotify, wp_bind, wp_getQueue hy, wp_bind]
  cases hbody : copyStrings 64 [(0, y.cName)] with
  | error e => exact trivial
  | ok body => exact copyStrings_name hbody ▸ addResponse_tells c _ s

theorem queueClientEventMessage_tells (c : Ptr) (hy : s.queueAt q = some y)
    (hmsg : y.backlog.messages m = some msg)
    (ho : Carries msg.value payload s) :
    wp (queueClientEventMessage c q m) (fun _ t => Tells (only c (y.delivery payload)) s t) Fault.Any s := by
  have hread : Stock.message m ⟨y.backlog, s.objects⟩ = .ok (msg, ⟨y.backlog, s.objects⟩) := by
    simp only [Stock.message, bind, StateT.bind, get, getThe, MonadStateOf.get, StateT.get, pure, Except.pure,
      Except.bind, hmsg]
    rfl
  rw [queueClientEventMessage, wp_bind]
  refine wp_of_ok (withStock_reads hy hread) ?_
  rw [wp_bind, objectSize, wp_bind, wp_get, wp_bind]
  cases hz : s.objects msg.value with
  | none => simp [Objects.find, hz, Fault.Any]
  | some z =>
    obtain rfl := ho.2 z hz
    simp only [Objects.find, hz, wp_lift_ok, wp_pure]
    rw [wp_bind, wp_getQueue hy, wp_bind]
    cases hbody : copyStrings 64 [(0, y.cName)] with
    | error e => exact trivial
    | ok body =>
      obtain rfl := copyStrings_name hbody
      rw [wp_lift_ok, wp_bind]
      refine wp_mono (addResponse_tells c _ s) (fun _ t ht => ?_) fun _ h => h
      refine wp_mono (addObjectResponse_tells c (ht.carries ho))
        (fun _ u hu => (ht.trans hu).congr fun c' => ?_)
        fun _ h => h
      by_cases hc : c' = c <;> simp [only, hc, QueueT.delivery, Object.size]

/-- The subscribers that are given a message: all of them, or the next one in turn. -/
def QueueT.receivers (x : QueueT) : List Ptr :=
  if x.roundRobin then (listRotate x.subscribedClientsMsg).head?.toList else x.subscribedClientsMsg

/-- The queue after a message for its subscribers. -/
def QueueT.turned (x : QueueT) : QueueT :=
  if x.roundRobin ∧ x.subscribedClientsMsg ≠ [] then
    { x with subscribedClientsMsg := listRotate x.subscribedClientsMsg }
  else x

/-- What a push tells a client. -/
def QueueT.events (x : QueueT) (payload : List Byte) (c : Ptr) : List (List Byte) :=
  (if c ∈ x.receivers then x.delivery payload else []) ++
    if c ∈ x.subscribedClientsNotify then [x.notice] else []

theorem serveSubscribedClients_tells (hy : s.queueAt q = some y) (hn : y.subscribedClientsMsg.Nodup)
    (hmsg : y.backlog.messages m = some msg) (ho : Carries msg.value payload s) :
    wp (serveSubscribedClients q m)
      (fun _ t => Tells (fun c => if c ∈ y.receivers then y.delivery payload else [])
        (s.setQueue q y.turned) t)
      Fault.Any s := by
  have hsame : s.setQueue q y = s := by simp only [EagleServer.setQueue, ← hy, Function.update_eq_self]
  rw [serveSubscribedClients, wp_bind, wp_getQueue hy]
  refine wp_ite (fun hne => wp_ite (fun hround => ?_) fun hround => ?_) fun hne => ?_
  · have hturned : y.turned = { y with subscribedClientsMsg := listRotate y.subscribedClientsMsg } :=
      if_pos ⟨hround, hne⟩
    rw [wp_bind, hturned]
    refine wp_modifyQueue ⟨y, hy, ?_⟩
    rw [wp_bind, wp_getQueue (Function.update_self ..)]
    obtain ⟨c, -, hc⟩ := listRotate_head _ hne
    simp only [hc]
    refine wp_mono (queueClientEventMessage_tells c (Function.update_self ..) hmsg ho)
      (fun _ t ht => ht.congr fun c' => ?_)
      fun _ h => h
    simp [only, QueueT.receivers, hround, hc, QueueT.delivery, QueueT.cName]
  · have hturned : y.turned = y := if_neg fun h => hround h.1
    have hreceivers : y.receivers = y.subscribedClientsMsg := if_neg hround
    rw [hturned, hsame, hreceivers]
    refine forM_tells (P := fun s => s.queueAt q = some y ∧ Carries msg.value payload s) (fun h hP => ?_)
      (fun c s hP => queueClientEventMessage_tells c hP.1 hmsg hP.2) hn s ⟨hy, ho⟩
    exact ⟨h.queueAt ▸ hP.1, h.carries hP.2⟩
  · have hturned : y.turned = y := if_neg fun h => hne h.2
    have hnone : y.receivers = [] := by
      simp [QueueT.receivers, not_not.mp hne, listRotate]
    rw [hturned, hsame, hnone]
    exact (Tells.refl s).congr fun c => by simp

theorem QueueT.turned_fields (y : QueueT) : y.turned.cName = y.cName ∧
    y.turned.backlog = y.backlog ∧ y.turned.maxMsg = y.maxMsg ∧ y.turned.forcePush = y.forcePush := by
  unfold QueueT.turned
  split_ifs <;> exact ⟨rfl, rfl, rfl, rfl⟩

theorem QueueT.turned_backlog (y : QueueT) (b b' : Backlog) :
    ({ QueueT.turned { y with backlog := b } with backlog := b' } : QueueT) =
      { y.turned with backlog := b' } := by
  unfold turned
  dsimp only
  split_ifs <;> rfl

theorem processSubscribedClients_tells (hy : s.queueAt q = some y) (hn : y.subscribedClientsMsg.Nodup)
    (hn' : y.subscribedClientsNotify.Nodup) (hmsg : y.backlog.messages m = some msg)
    (ho : Carries msg.value payload s) :
    wp (processSubscribedClients q m) (fun taken t => taken = decide (y.subscribedClientsMsg ≠ []) ∧
      Tells (y.events payload) (s.setQueue q y.turned) t) Fault.Any s := by
  rw [processSubscribedClients, wp_bind, wp_getQueue hy, wp_bind]
  refine wp_mono (serveSubscribedClients_tells hy hn hmsg ho) (fun _ t ht => ?_) fun _ h => h
  have hname := y.turned_fields.1
  have hnotice : y.turned.notice = y.notice := by rw [QueueT.notice, hname, QueueT.notice]
  have ht' : t.queueAt q = some y.turned := by rw [ht.queueAt]; exact Function.update_self ..
  rw [wp_bind]
  refine wp_mono (forM_tells (P := fun s => s.queueAt q = some y.turned) (fun h hP => h.queueAt ▸ hP)
    (fun c s hP => hnotice ▸ queueClientEventNotify_tells c hP) hn' t ht') (fun _ u hu => ?_) fun _ h => h
  exact ⟨rfl, ht.trans hu⟩

end Tells

/-! ### Where the message goes -/

namespace Stock

variable {P : Prop} {E : Fault → Prop} {b : Backlog} {o : Heap Object} {l : List (Ptr × Ptr)} {m n : Ptr}
  {msg : Message}

theorem storeMessage_exact (h : Sound P b l) (hmsg : b.messages m = some msg) :
    wp (storeMessage m) (fun _ t => t.objects = o ∧ ∃ q', b.queue.pushValueHead m = .ok q' ∧
      q'.Linked ((b.queue.fresh, m) :: l) ∧ t.backlog =
        if msg.expiration = 0 then { b with queue := q' }
        else Backlog.index { b with queue := q' } m msg (some b.queue.fresh)) E ⟨b, o⟩ := by
  obtain ⟨q, hq, hlink, hhead⟩ := Queue.pushValueHead_spec h.linked m
  simp only [storeMessage, setQueue, modifyBacklog, wp_bind, wp_get, hq, wp_lift_ok, wp_modify,
    wp_message (b := { b with queue := q }) hmsg]
  refine wp_ite (fun he => ?_) fun he => ?_
  · refine wp_indexMessage (b := { b with queue := q }) hmsg ⟨rfl, q, rfl, hlink, ?_⟩
    rw [if_neg he, hhead]
  · exact ⟨rfl, q, rfl, hlink, (if_pos (not_not.mp he)).symm⟩

theorem popMessageQueueT_exact {now : ℕ} (hE : E .object) (h : Sound P b (l ++ [(n, m)])) :
    wp (popMessageQueueT now 0) (fun _ t => ∃ q', b.queue.popValue = .ok (some m, q') ∧ q'.Linked l ∧
      t.backlog = { b with
        queue := q'
        expireMessages := b.unindexed m
        messages := Function.update b.messages m none }) E ⟨b, o⟩ := by
  obtain ⟨q, hq, hlink⟩ := Queue.popValue_spec h.linked
  obtain ⟨msg, hmsg⟩ := h.exists_message (m := m) (mem_places.mpr (.inl (by simp)))
  simp only [popMessageQueueT, setQueue, modifyBacklog, wp_bind, wp_get, hq, wp_lift_ok, wp_modify,
    wp_message (b := { b with queue := q }) hmsg]
  refine wp_ite (fun he => ?_) fun he => ?_
  · obtain ⟨e, hent, hdata, -⟩ := h.indexed (n, m) (by simp) msg hmsg he
    rw [wp_bind, show deleteExpire msg.data0 = deleteExpire (some e) by rw [hdata]]
    refine wp_deleteExpire (b := { b with queue := q }) (h.toTracked.of_queue q) hmsg hdata hent ?_
    exact wp_releaseMessage hE hmsg fun _ _ => ⟨q, rfl, hlink, rfl⟩
  · refine wp_releaseMessage hE hmsg fun _ _ => ⟨q, rfl, hlink, ?_⟩
    rw [h.unindexed_eq hmsg (not_not.mp he)]

end Stock

/-- The message that a full queue gives for a new one. -/
def QueueT.evicted (x : QueueT) : List Ptr :=
  if x.maxMsg ≤ x.backlog.queue.waiting.length then x.backlog.queue.waiting.take 1 else []

/-- The new message is the newest that waits; at most the evicted one is gone, from the
expiry list as well. -/
structure Enqueued (x : QueueT) (data tag expiration : ℕ) (b : Backlog) : Prop where
  force : x.maxMsg ≤ x.backlog.queue.waiting.length → x.forcePush = true ∧ x.evicted ≠ []
  waiting : x.backlog.queue.waiting ++ [x.backlog.fresh] = x.evicted ++ b.queue.waiting
  message : ∃ d₀ d₁, b.messages x.backlog.fresh = some ⟨data, tag, 0, expiration, d₀, d₁⟩
  gone : ∀ m ∈ x.evicted, b.messages m = none
  others : ∀ m, m ≠ x.backlog.fresh → m ∉ x.evicted → b.messages m = x.backlog.messages m
  expiry : b.expireMessages = x.backlog.expireMessages.filter (fun e => e.2 ∉ x.evicted) ++
    if expiration = 0 then [] else [(x.backlog.fresh + 1, x.backlog.fresh)]
  held : b.confirmMessages = x.backlog.confirmMessages

section Enqueue

variable {P : Prop} {s : EagleServer} {x y : QueueT} {b : Backlog} {l : List (Ptr × Ptr)}
    {q data tag expiration : ℕ}

/-- The messages with the one that the push has made. -/
def QueueT.withMessage (x : QueueT) (data tag expiration : ℕ) : Backlog :=
  { x.backlog with
    messages := Function.update x.backlog.messages x.backlog.fresh
      (some ⟨data, tag, 0, expiration, none, none⟩)
    fresh := x.backlog.fresh + 1 }

theorem withMessage_released (h : Sound P x.backlog l) :
    { x.withMessage data tag expiration with
      messages := Function.update (x.withMessage data tag expiration).messages x.backlog.fresh none } =
      { x.backlog with fresh := x.backlog.fresh + 1 } := by
  have hfresh : x.backlog.messages x.backlog.fresh = none := h.below.eq_none (Nat.le_refl _)
  simp only [QueueT.withMessage, Function.update_idem]
  rw [← hfresh, Function.update_eq_self]

theorem withMessage_sound (data tag expiration : ℕ) (h : Sound P x.backlog l) :
    Sound P (x.withMessage data tag expiration) l :=
  ⟨h.toTracked.create _, h.linked⟩

/-- The end of the push: the message is stored when a full queue has given one for it. -/
theorem enqueued_of_stored {l' : List (Ptr × Ptr)} {n : Ptr} {q' : Queue}
    (hlink : q'.Linked ((n, x.backlog.fresh) :: l'))
    (hforce : x.maxMsg ≤ x.backlog.queue.waiting.length → x.forcePush = true ∧ x.evicted ≠ [])
    (hwaiting : x.backlog.queue.waiting = x.evicted ++ (l'.map Prod.snd).reverse)
    (hnew : b.messages x.backlog.fresh = some ⟨data, tag, 0, expiration, none, none⟩)
    (hgone : ∀ m ∈ x.evicted, b.messages m = none) (hfresh : x.backlog.fresh ∉ x.evicted)
    (hothers : ∀ m, m ≠ x.backlog.fresh → m ∉ x.evicted → b.messages m = x.backlog.messages m)
    (hexpire : b.expireMessages = x.backlog.expireMessages.filter fun e => e.2 ∉ x.evicted)
    (hheld : b.confirmMessages = x.backlog.confirmMessages) (hnext : b.fresh = x.backlog.fresh + 1)
    {b' : Backlog}
    {node : Option Ptr} (hb : b' = if expiration = 0 then { b with queue := q' }
      else Backlog.index { b with queue := q' } x.backlog.fresh ⟨data, tag, 0, expiration, none, none⟩ node) :
    Enqueued x data tag expiration b' := by
  have hline : x.backlog.queue.waiting ++ [x.backlog.fresh] = x.evicted ++ q'.waiting := by
    rw [Queue.waiting_spec hlink, hwaiting]
    simp
  have hne : ∀ m ∈ x.evicted, m ≠ x.backlog.fresh := fun m hm he => hfresh (he ▸ hm)
  by_cases he : expiration = 0
  · rw [if_pos he] at hb
    subst hb
    exact ⟨hforce, hline, ⟨_, _, hnew⟩, hgone, hothers, by simp [hexpire, he], hheld⟩
  · rw [if_neg he] at hb
    subst hb
    refine ⟨hforce, hline, ⟨_, _, Function.update_self ..⟩, fun m hm => ?_, fun m hm hm' => ?_, ?_, hheld⟩
    · exact (Function.update_of_ne (hne m hm) ..).trans (hgone m hm)
    · exact (Function.update_of_ne hm ..).trans (hothers m hm hm')
    · simp [Backlog.index, hexpire, he, hnext]

theorem enqueueMessage_exact (hs : Sound P x.backlog l) (hy : s.queueAt q = some y)
    (hb : y.backlog = x.withMessage data tag expiration) (hmax : y.maxMsg = x.maxMsg)
    (hforce : y.forcePush = x.forcePush) :
    wp (enqueueMessage q x.backlog.fresh) (fun ok t => ok = true → ∃ b, Enqueued x data tag expiration b ∧
      t = { s with queueAt := Function.update s.queueAt q (some { y with backlog := b }), objects := t.objects })
      Fault.Any s := by
  have hlen : y.backlog.queue.len = x.backlog.queue.waiting.length := by
    rw [Queue.waiting_spec hs.linked, hb]
    simp [QueueT.withMessage, hs.linked.len]
  have hwaiting := Queue.waiting_spec hs.linked
  have hsound := withMessage_sound data tag expiration hs
  have hfresh : ∀ m ∈ l.map Prod.snd, m ≠ x.backlog.fresh := fun m hm he =>
    Nat.lt_irrefl _ (he ▸ hs.below m (hs.alive m (mem_places.mpr (.inl hm))))
  rw [enqueueMessage, wp_bind, wp_getQueue hy]
  refine wp_ite (fun hfull => wp_ite (fun hf => ?_) fun _ h => by cases h) fun hroom => ?_
  · rw [hmax, hlen] at hfull
    rw [hforce] at hf
    rw [wp_bind, wp_get, wp_bind]
    refine wp_withStock hy (hb ▸ ?_)
    obtain rfl | ⟨l, ⟨n, w⟩, rfl⟩ := l.eq_nil_or_concat'
    · exact wp_mono (Stock.popMessageQueueT_nil hsound) (fun _ _ h => h.elim) fun _ _ => trivial
    have hw : w ≠ x.backlog.fresh := hfresh w (by simp)
    have hevicted : x.evicted = [w] := by
      rw [QueueT.evicted, if_pos hfull, hwaiting]
      simp
    refine wp_mono (wp_and (Stock.popMessageQueueT_exact (E := Fault.Any) trivial hsound)
      (Stock.popMessageQueueT_drops (E := Fault.Any) trivial hsound)) (fun _ t ht => ?_) fun _ h => h
    obtain ⟨⟨q₁, -, hlink, ht⟩, hs', -⟩ := ht
    rw [wp_bind]
    refine wp_withStock (Function.update_self ..) ?_
    dsimp only
    have hnew : t.backlog.messages x.backlog.fresh = some ⟨data, tag, 0, expiration, none, none⟩ := by
      rw [ht]
      exact (Function.update_of_ne hw.symm ..).trans (Function.update_self ..)
    refine wp_mono (Stock.storeMessage_exact hs' hnew) (fun _ u hu _ => ?_) fun _ h => h
    obtain ⟨-, q₂, -, hlink', hu⟩ := hu
    refine ⟨u.backlog, enqueued_of_stored (b := t.backlog) hlink' (fun _ => ⟨hf, by simp [hevicted]⟩)
      (by simp [hevicted, hwaiting]) hnew (fun m hm => ?_) (by simp [hevicted, hw.symm])
      (fun m hm hm' => ?_) ?_
      (by rw [ht]; rfl) (by rw [ht]; rfl) hu, by simp only [Function.update_idem]⟩
    · obtain rfl := List.mem_singleton.mp (hevicted ▸ hm)
      rw [ht]
      exact Function.update_self ..
    · rw [ht]
      refine (Function.update_of_ne (fun he => hm' ?_) ..).trans (Function.update_of_ne hm ..)
      simp [hevicted, he]
    · rw [ht, hevicted]
      simp [Backlog.unindexed, QueueT.withMessage]
  · rw [hmax, hlen] at hroom
    have hnone : x.evicted = [] := if_neg hroom
    rw [wp_bind]
    refine wp_withStock hy (hb ▸ ?_)
    refine wp_mono (Stock.storeMessage_exact hsound (Function.update_self ..)) (fun _ t ht _ => ?_)
      fun _ h => h
    obtain ⟨-, q', -, hlink, ht⟩ := ht
    refine ⟨t.backlog, enqueued_of_stored (b := x.withMessage data tag expiration) hlink
      (fun h => absurd h hroom) (by simp [hnone, hwaiting]) (Function.update_self ..)
      (by simp [hnone]) (by simp [hnone]) (fun m hm _ => Function.update_of_ne hm ..)
      (by simp [hnone, QueueT.withMessage]) rfl rfl ht, rfl⟩

end Enqueue

/-! ### Pushes -/

/-- What a push needs of its queue, and what every reachable state gives. -/
structure QueueT.Invariant (x : QueueT) : Prop where
  sound : ∃ l, Sound False x.backlog l
  messages : x.subscribedClientsMsg.Nodup
  notices : x.subscribedClientsNotify.Nodup

/-- What an accepted push has done. -/
structure PushDone (s : EagleServer) (q : Ptr) (x : QueueT) (data : Ptr) (payload : List Byte)
    (expiration : ℕ)
    (t : EagleServer) : Prop where
  everyone : x.roundRobin = false → x.receivers = x.subscribedClientsMsg
  inTurn : x.roundRobin = true → x.subscribedClientsMsg ≠ [] → ∃ c ∈ x.subscribedClientsMsg, x.receivers = [c]
  nobody : x.subscribedClientsMsg = [] → x.receivers = []
  told : ∀ c w, s.clientAt c = some w → ∃ w', t.clientAt c = some w' ∧ w'.unheard = w.unheard ∧
    w'.history = w.history ++ if w.registers s.env then x.events payload c else []
  queue : ∃ b, t.queueAt = Function.update s.queueAt q (some { x.turned with backlog := b }) ∧
    (x.subscribedClientsMsg ≠ [] → b = { x.backlog with fresh := x.backlog.fresh + 1 }) ∧
    (x.subscribedClientsMsg = [] → Enqueued x data (makeMessageTag s.msgCounter s.nowTimems) expiration b)

section Push

variable {s t : EagleServer} {x : QueueT} {q data expiration : ℕ} {payload : List Byte}

theorem QueueT.receivers_inTurn (hround : x.roundRobin = true) (hne : x.subscribedClientsMsg ≠ []) :
    ∃ c ∈ x.subscribedClientsMsg, x.receivers = [c] := by
  obtain ⟨c, hc, hhead⟩ := listRotate_head _ hne
  exact ⟨c, hc, by simp [receivers, hround, hhead]⟩

theorem QueueT.receivers_nil (h : x.subscribedClientsMsg = []) : x.receivers = [] := by
  simp [receivers, h, listRotate]

theorem PushDone.of_tells {v u : EagleServer} {b : Backlog} (hv : v.clientAt = s.clientAt)
    (henv : v.env = s.env)
    (htells : Tells (x.events payload) v u) (hclients : t.clientAt = u.clientAt)
    (hqueue : t.queueAt = Function.update s.queueAt q (some { x.turned with backlog := b }))
    (hmsg : x.subscribedClientsMsg ≠ [] → b = { x.backlog with fresh := x.backlog.fresh + 1 })
    (hstored : x.subscribedClientsMsg = [] →
      Enqueued x data (makeMessageTag s.msgCounter s.nowTimems) expiration b) :
    PushDone s q x data payload expiration t where
  everyone h := if_neg (by simp [h])
  inTurn := QueueT.receivers_inTurn
  nobody := QueueT.receivers_nil
  told c w hw := by
    obtain ⟨w', hw', hsame, -, hh⟩ := htells.clients c w (hv ▸ hw)
    exact ⟨w', hclients ▸ hw', hsame, henv ▸ hh⟩
  queue := ⟨b, hqueue, hmsg, hstored⟩

/-- An accepted push tells each client what it should and stores the message as it should. -/
theorem push_exact (hx : s.queueAt q = some x) (hinv : x.Invariant) (hdata : data < s.fresh) {z : Object}
    (hz : s.objects data = some z) (hrun : pushMessageQueueT q data expiration s = .ok (true, t)) :
    PushDone s q x data z.data expiration t := by
  obtain ⟨l, hs⟩ := hinv.sound
  refine ok_of_wp (E := Fault.Any)
    (Q := fun ok t => ok = true → PushDone s q x data z.data expiration t) ?_ hrun rfl
  rw [pushMessageQueueT, wp_bind, wp_get, wp_bind, wp_modify, wp_bind]
  generalize htag : makeMessageTag s.msgCounter s.nowTimems = tag
  have hcreated : wp (withStock q (Stock.createMessage data tag expiration)) (fun m v => m = x.backlog.fresh ∧
      v = { s with
        msgCounter := s.msgCounter + 1
        queueAt := Function.update s.queueAt q
          (some { x with backlog := x.withMessage data tag expiration }) })
      Fault.Any { s with msgCounter := s.msgCounter + 1 } :=
    wp_withStock (m := Stock.createMessage data tag expiration) hx ⟨rfl, rfl⟩
  refine wp_mono hcreated (fun m v hv => ?_) fun _ h => h
  obtain ⟨hm, hv⟩ := hv
  generalize hy : ({ x with backlog := x.withMessage data tag expiration } : QueueT) = y at hv
  have hvq : v.queueAt q = some y := by rw [hv]; exact Function.update_self ..
  have hvz : v.objects data = some z := by rw [hv]; exact hz
  subst hm
  rw [wp_bind, objectSize, wp_bind, wp_get, wp_bind]
  simp only [Objects.find, hvz, wp_lift_ok, wp_pure]
  rw [wp_bind, wp_getQueue hvq]
  refine wp_ite (fun _ h => by cases h) fun _ => ?_
  have hevents : y.events z.data = x.events z.data := by rw [← hy]; rfl
  have hmsg : y.backlog.messages x.backlog.fresh = some ⟨data, tag, 0, expiration, none, none⟩ := by
    rw [← hy]
    exact Function.update_self ..
  have hcarries : Carries data z.data v := by
    rw [hv]
    exact ⟨hdata, fun z' hz' => by rw [Option.some.inj (hz'.symm.trans hz)]⟩
  rw [wp_bind]
  refine wp_mono (processSubscribedClients_tells hvq (by rw [← hy]; exact hinv.messages)
    (by rw [← hy]; exact hinv.notices) hmsg hcarries) (fun taken u hu => ?_) fun _ h => h
  obtain ⟨htaken, htells⟩ := hu
  have huq : u.queueAt = Function.update s.queueAt q (some y.turned) := by
    rw [htells.queueAt, hv]
    exact Function.update_idem ..
  have hclients : (v.setQueue q y.turned).clientAt = s.clientAt := by rw [hv]; rfl
  have henv : (v.setQueue q y.turned).env = s.env := by rw [hv]; rfl
  rw [hevents] at htells
  obtain ⟨-, hback, hmax, hforce⟩ := y.turned_fields
  have huself : u.queueAt q = some y.turned := by rw [huq]; exact Function.update_self ..
  refine wp_ite (fun hyes => ?_) fun hno => ?_
  · have hne : x.subscribedClientsMsg ≠ [] := by
      rw [htaken, ← hy] at hyes
      exact of_decide_eq_true hyes
    rw [wp_bind]
    refine wp_withStock huself ?_
    rw [hback]
    refine Stock.wp_releaseMessage (E := Fault.Any) trivial hmsg fun o' _ _ => ?_
    refine .of_tells (b := { x.backlog with fresh := x.backlog.fresh + 1 }) hclients henv htells rfl
      ?_ (fun _ => rfl)
      fun h => absurd h hne
    rw [huq, Function.update_idem, ← hy, QueueT.turned_backlog]
    dsimp only
    rw [withMessage_released hs]
  · have hnone : x.subscribedClientsMsg = [] := by
      rw [htaken, ← hy] at hno
      simpa using hno
    refine wp_mono (enqueueMessage_exact hs huself (hback.trans (by rw [← hy]))
      (hmax.trans (by rw [← hy])) (hforce.trans (by rw [← hy]))) (fun ok w hw hok => ?_) fun _ h => h
    obtain ⟨b, hb, hw⟩ := hw hok
    refine .of_tells hclients henv htells (by rw [hw]) ?_ (fun h => absurd hnone h) fun _ => htag ▸ hb
    rw [hw, huq, Function.update_idem, ← hy, QueueT.turned_backlog]

theorem Reachable.invariant [Lzf] (h : Reachable s) (hx : s.queueAt q = some x) : x.Invariant := by
  obtain ⟨hmsg, hnotify, -⟩ := List.nodup_append.mp (h.related.queueRelations.queue_nodup q x hx).2
  exact ⟨h.stocked q x hx, hmsg, hnotify⟩

end Push

/-! ### A queue with a subscriber -/

namespace Sample

/-- The administrator subscribes to the notices of a queue, and its responses are written. -/
def subscribed : List Op :=
  login 0 ++ [queueCreate 0 [113] 1 0, named Cmd.queueDeclare 0 [113] [],
    named Cmd.queueSubscribe 0 [113] (leBytes 4 1), .send 0 (List.replicate 4 (.bytes 8))]

/-- The state in which the handler pushes its object. -/
def pushing (s : EagleServer) : EagleServer :=
  { s with objects := Function.update s.objects s.fresh (some ⟨[1], 1⟩), fresh := s.fresh + 1 }

/-- The push is accepted, and the subscriber is told something or nothing. -/
def pushed (told : Bool) (s : EagleServer) : Bool :=
  match s.queueAt 2, s.clientAt 0, pushMessageQueueT 2 s.fresh 0 (pushing s) with
  | some x, some w, .ok (ok, t) =>
    ok && decide (0 ∈ x.subscribedClientsNotify) && (t.clientAt 0).any fun w' =>
      (w'.history != w.history) == told
  | _, _, _ => false

theorem exists_pushed (ops : List Op) (told : Bool)
    (h : (@replay Lzf.stored server ops).any (pushed told) = true) :
    ∃ s x w t w', @Reachable Lzf.stored s ∧ s.queueAt 2 = some x ∧ 0 ∈ x.subscribedClientsNotify ∧
      s.clientAt 0 = some w ∧ pushMessageQueueT 2 s.fresh 0 (pushing s) = .ok (true, t) ∧
      t.clientAt 0 = some w' ∧ (w'.history = w.history ↔ told = false) := by
  obtain ⟨s, hs, hp⟩ := exists_run ops h
  unfold pushed at hp
  split at hp
  · rename_i x w ok t hx hw ht
    simp only [Bool.and_eq_true, Option.any_eq_true, decide_eq_true_eq] at hp
    obtain ⟨⟨rfl, hc⟩, w', hw', hh⟩ := hp
    exact ⟨s, x, w, t, w', hs, hx, hc, hw, ht, hw', by cases told <;> simpa using hh⟩
  · cases hp

end Sample

theorem push_exact_subscribed : ∃ s x t, s.queueAt 2 = some x ∧
    pushMessageQueueT 2 s.fresh 0 (Sample.pushing s) = .ok (true, t) ∧
    PushDone (Sample.pushing s) 2 x s.fresh [1] 0 t := by
  obtain ⟨s, x, _, t, _, hs, hx, -, -, ht, -⟩ :=
    Sample.exists_pushed Sample.subscribed true (by decide +kernel)
  exact ⟨s, x, t, hx, ht, push_exact (s := Sample.pushing s) hx (@Reachable.invariant _ _ _ Lzf.stored hs hx)
    (Nat.lt_succ_self _) (Function.update_self ..) ht⟩

/-- A subscriber without responses whose write event cannot be registered is told nothing. -/
theorem not_told_unregistered : ∃ s x w t w', @Reachable Lzf.stored s ∧ s.queueAt 2 = some x ∧ x.Invariant ∧
    0 ∈ x.subscribedClientsNotify ∧ s.clientAt 0 = some w ∧
    pushMessageQueueT 2 s.fresh 0 (Sample.pushing s) = .ok (true, t) ∧ t.clientAt 0 = some w' ∧
    w'.history = w.history := by
  obtain ⟨s, x, w, t, w', hs, hx, hc, hw, ht, hw', hh⟩ := Sample.exists_pushed
    (Sample.subscribed ++ [.environment { Sample.env with fileEvent := fun _ => false }]) false
    (by decide +kernel)
  exact ⟨s, x, w, t, w', hs, hx, @Reachable.invariant _ _ _ Lzf.stored hs hx, hc, hw, ht, hw', hh.mpr rfl⟩

end EagleMQ
