import EagleMQ.Binding

/-! Queues: their clients, the delivery of messages to subscribers, and their
destruction, which walks lists from which it removes the nodes it stands on. -/

namespace EagleMQ

def createQueueT (name : Name) (maxMsg maxMsgSize flags : ℕ) : ServerM Ptr := do
  let q := (← get).fresh
  modify fun s => { s with
    queueAt := Function.update s.queueAt q
      (some ⟨name, maxMsg, maxMsgSize, flags, bitCheck flags 0, bitCheck flags 1, bitCheck flags 2,
        .create, [], [], [], []⟩)
    fresh := q + 1 }
  pure q

/-! ### Clients -/

def declareClientQueueT (q c : Ptr) : ServerM Unit := do
  modifyClient c fun x => { x with declaredQueues := x.declaredQueues ++ [q] }
  modifyQueue q fun x => { x with declaredClients := x.declaredClients ++ [c] }

def undeclareClientQueueT (q c : Ptr) : ServerM Unit := do
  modifyClient c fun x => { x with declaredQueues := x.declaredQueues.erase q }
  modifyQueue q fun x => { x with declaredClients := x.declaredClients.erase c }

def subscribeClientQueueT (q c : Ptr) (flags : ℕ) : ServerM Unit := do
  modifyClient c fun x => { x with subscribedQueues := x.subscribedQueues ++ [q] }
  if bitCheck flags 0 then
    modifyQueue q fun x => { x with subscribedClientsNotify := x.subscribedClientsNotify ++ [c] }
  else
    modifyQueue q fun x => { x with subscribedClientsMsg := x.subscribedClientsMsg ++ [c] }

/-- The first list is left at the first match, the second is walked to its end. -/
def unsubscribeClientQueueT (q c : Ptr) : ServerM Unit := do
  modifyClient c fun x => { x with subscribedQueues := x.subscribedQueues.erase q }
  modifyQueue q fun x =>
    if c ∈ x.subscribedClientsMsg then
      { x with subscribedClientsMsg := x.subscribedClientsMsg.erase c }
    else
      { x with subscribedClientsNotify := x.subscribedClientsNotify.filter (· ≠ c) }

def renameQueueT (q : Ptr) (name : Name) : ServerM Unit :=
  modifyQueue q fun x => { x with name := name, maxMsg := spill name x.maxMsg }

/-- `get_subscribed_clients_queue_t`. -/
def QueueT.subscribedClients (x : QueueT) : ℕ :=
  x.subscribedClientsMsg.length + x.subscribedClientsNotify.length

/-- `get_size_queue_t`. -/
def QueueT.size (x : QueueT) : ℕ := x.backlog.queue.len

/-! ### Delivery -/

def queueClientEventNotify (c q : Ptr) : ServerM Unit := do
  let x ← getQueue q
  let body ← Prog.lift (copyStrings 64 [(0, x.cName)])
  addResponse c (eventHeader Cmd.queueSubscribe eventNotify 64 ++ body)

def queueClientEventMessage (c q m : Ptr) : ServerM Unit := do
  let msg ← withStock q (Stock.message m)
  let size ← objectSize msg.value
  let x ← getQueue q
  let body ← Prog.lift (copyStrings 64 [(0, x.cName)])
  addResponse c (eventHeader Cmd.queueSubscribe eventMessage (64 + size) ++ body)
  addObjectResponse c msg.value

/-- The subscribers to messages: the next one in turn, or all of them. -/
def serveSubscribedClients (q m : Ptr) : ServerM Unit := do
  let x ← getQueue q
  if x.subscribedClientsMsg ≠ [] then
    if x.roundRobin then
      modifyQueue q fun x => { x with subscribedClientsMsg := listRotate x.subscribedClientsMsg }
      match (← getQueue q).subscribedClientsMsg.head? with
      | some c => queueClientEventMessage c q m
      | none => throw .link
    else
      x.subscribedClientsMsg.forM fun c => queueClientEventMessage c q m

/-- Whether some client was given the message. -/
def processSubscribedClients (q m : Ptr) : ServerM Bool := do
  let x ← getQueue q
  serveSubscribedClients q m
  x.subscribedClientsNotify.forM fun c => queueClientEventNotify c q
  pure (x.subscribedClientsMsg ≠ [])

/-- The end of `push_message_queue_t`, when no client was given the message. -/
def enqueueMessage (q m : Ptr) : ServerM Bool := do
  let x ← getQueue q
  if x.maxMsg ≤ x.backlog.queue.len then
    if x.forcePush then
      let now := (← get).nowTimems
      withStock q (Stock.popMessageQueueT now 0)
      withStock q (Stock.storeMessage m)
      pure true
    else pure false
  else
    withStock q (Stock.storeMessage m)
    pure true

def pushMessageQueueT (q data : Ptr) (expiration : ℕ) : ServerM Bool := do
  let s ← get
  modify fun s => { s with msgCounter := s.msgCounter + 1 }
  let m ← withStock q
    (Stock.createMessage data (makeMessageTag s.msgCounter s.nowTimems) expiration)
  let size ← objectSize data
  if (← getQueue q).maxMsgSize < size then pure false
  else if ← processSubscribedClients q m then
    withStock q (Stock.releaseMessage m)
    pure true
  else enqueueMessage q m

/-- The count of the shared payload is incremented after each push. -/
def pushMessageRouteT (r : Ptr) (key : Name) (msg : Ptr) (expiration : ℕ) : ServerM Bool := do
  let x ← getRoute r
  if key ∈ x.keys.keys then
    if x.roundRobin then
      modifyRoute r fun x => { x with keys := x.keys.set key (listRotate (x.keys.values key)) }
      match ((← getRoute r).keys.values key).head? with
      | some q =>
        let ok ← pushMessageQueueT q msg expiration
        incrementReferencesCount msg
        pure ok
      | none => throw .link
    else
      (x.keys.values key).foldlM (fun status q => do
        let ok ← pushMessageQueueT q msg expiration
        incrementReferencesCount msg
        pure (status && ok)) true
  else pure false

/-! ### Destruction -/

/-- Unlink a client from one of the two subscriber lists. -/
def ejectSubscribers (q : Ptr) (list : QueueT → List Ptr) (set : QueueT → List Ptr → QueueT) :
    ServerM Unit :=
  Prog.foreach (do pure (list (← getQueue q))) .link fun c => do
    modifyClient c fun x => { x with subscribedQueues := x.subscribedQueues.erase q }
    modifyQueue q fun x => set x ((list x).erase c)

def ejectClientsQueueT (q : Ptr) : ServerM Unit := do
  Prog.foreach (do pure (← getQueue q).declaredClients) .link fun c => undeclareClientQueueT q c
  ejectSubscribers q QueueT.subscribedClientsMsg fun x l => { x with subscribedClientsMsg := l }
  ejectSubscribers q QueueT.subscribedClientsNotify fun x l => { x with subscribedClientsNotify := l }

def ejectRoutesKeyQueueT (q : Ptr) (key : Name) : ServerM Unit :=
  Prog.foreach (do pure ((← getQueue q).routes.values key)) .link fun r => do
    let _ ← unbindRouteT r q key

def ejectRoutesQueueT (q : Ptr) : ServerM Unit :=
  Prog.foreach (do pure (← getQueue q).routes.keys) .link fun key => ejectRoutesKeyQueueT q key

def deleteQueueT (q : Ptr) : ServerM Unit := do
  ejectClientsQueueT q
  ejectRoutesQueueT q
  withStock q Stock.releaseQueue
  modify fun s => s.freeQueue q

/-- `list_delete_value(server->queues, queue_t)`. -/
def listDeleteQueue (q : Ptr) : ServerM Bool := do
  if q ∈ (← get).queues then
    modify fun s => { s with queues := s.queues.erase q }
    deleteQueueT q
    pure true
  else pure false

def processQueueT (q : Ptr) : ServerM Unit := do
  let x ← getQueue q
  if x.autoDelete ∧ x.declaredClients = [] then
    let _ ← listDeleteQueue q

end EagleMQ
