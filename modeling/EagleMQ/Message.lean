import EagleMQ.Lib.Prog
import EagleMQ.Queue

/-! Payload objects with their reference counts, and the messages of one queue:
those waiting, those in the expiry list and those that await a confirmation.
Messages and list nodes have addresses that are not reused within the queue. -/

namespace EagleMQ

structure Object where
  data : List Byte
  refcount : ℕ

def Object.size (x : Object) : ℕ := x.data.length

namespace Objects

def find (objects : Heap Object) (o : Ptr) : Except Fault Object :=
  match objects o with
  | none => .error .object
  | some x => .ok x

def incrementReferencesCount (objects : Heap Object) (o : Ptr) : Except Fault (Heap Object) := do
  let x ← find objects o
  if 4294967296 ≤ x.refcount + 1 then .error .wrap
  else .ok (Function.update objects o (some { x with refcount := x.refcount + 1 }))

def decrementReferencesCount (objects : Heap Object) (o : Ptr) : Except Fault (Heap Object) := do
  let x ← find objects o
  .ok (Function.update objects o
    (if x.refcount ≤ 1 then none else some { x with refcount := x.refcount - 1 }))

def releaseObject (objects : Heap Object) (o : Ptr) : Except Fault (Heap Object) := do
  let _ ← find objects o
  .ok (Function.update objects o none)

end Objects

structure Message where
  value : Ptr
  tag : ℕ
  confirm : ℕ
  expiration : ℕ
  data0 : Option Ptr
  data1 : Option Ptr

/-- The messages of a queue. An entry of `expireMessages` is a list node and its
message. -/
structure Backlog where
  queue : Queue
  expireMessages : List (Ptr × Ptr)
  confirmMessages : List Ptr
  messages : Heap Message
  fresh : Ptr

def Backlog.create : Backlog := ⟨.create, [], [], fun _ => none, 0⟩

/-- What the message operations of a queue work on. -/
structure Stock where
  backlog : Backlog
  objects : Heap Object

abbrev StockM := Prog Stock Fault

/-- `make_message_tag`. -/
def makeMessageTag (msgCounter time : ℕ) : ℕ :=
  (time % 4294967296) * 4294967296 + msgCounter % 4294967296

namespace Stock

def modifyBacklog (f : Backlog → Backlog) : StockM Unit :=
  modify fun s => { s with backlog := f s.backlog }

def setQueue (queue : Queue) : StockM Unit := modifyBacklog fun b => { b with queue := queue }

def message (m : Ptr) : StockM Message := do
  match (← get).backlog.messages m with
  | none => throw .message
  | some msg => pure msg

def setMessage (m : Ptr) (msg : Message) : StockM Unit :=
  modifyBacklog fun b => { b with messages := Function.update b.messages m (some msg) }

def createMessage (value : Ptr) (tag expiration : ℕ) : StockM Ptr := do
  let m := (← get).backlog.fresh
  modifyBacklog fun b => { b with
    messages := Function.update b.messages m (some ⟨value, tag, 0, expiration, none, none⟩)
    fresh := m + 1 }
  pure m

def releaseMessage (m : Ptr) : StockM Unit := do
  let msg ← message m
  let objects ← Prog.lift (Objects.decrementReferencesCount (← get).objects msg.value)
  modify fun s => { s with objects := objects }
  modifyBacklog fun b => { b with messages := Function.update b.messages m none }

/-- Add a message to the expiry list and note both of its nodes in it. -/
def indexMessage (m : Ptr) (node : Option Ptr) : StockM Unit := do
  let e := (← get).backlog.fresh
  modifyBacklog fun b => { b with expireMessages := b.expireMessages ++ [(e, m)], fresh := e + 1 }
  let msg ← message m
  setMessage m { msg with data0 := some e, data1 := node }

/-- `list_delete_node(expire_messages, node)`. -/
def deleteExpire (node : Option Ptr) : StockM Unit := do
  match node with
  | none => throw .null
  | some e =>
    if e ∈ (← get).backlog.expireMessages.map Prod.fst then
      modifyBacklog fun b => { b with expireMessages := b.expireMessages.eraseP fun x => x.1 == e }
    else throw .node

/-- The end of `push_message_queue_t`, where the message is stored. -/
def storeMessage (m : Ptr) : StockM Unit := do
  setQueue (← Prog.lift ((← get).backlog.queue.pushValueHead m))
  let msg ← message m
  if msg.expiration ≠ 0 then
    indexMessage m (← get).backlog.queue.head

def getMessageQueueT : StockM (Option Ptr) := do Prog.lift (← get).backlog.queue.getValue

def popMessageQueueT (now timeout : ℕ) : StockM Unit := do
  let (value, queue) ← Prog.lift (← get).backlog.queue.popValue
  setQueue queue
  match value with
  | none => throw .null
  | some m =>
    let msg ← message m
    if msg.expiration ≠ 0 then
      deleteExpire msg.data0
    if timeout ≠ 0 then
      setMessage m { msg with confirm := (now + timeout) % 4294967296 }
      modifyBacklog fun b => { b with confirmMessages := b.confirmMessages ++ [m] }
    else
      releaseMessage m

/-- The first message of a list with a tag. -/
def findTag (messages : Heap Message) (tag : ℕ) : List Ptr → Except Fault (Option Ptr)
  | [] => .ok none
  | m :: l =>
    match messages m with
    | none => .error .message
    | some msg => if msg.tag = tag then .ok (some m) else findTag messages tag l

def confirmMessageQueueT (tag : ℕ) : StockM Bool := do
  let b := (← get).backlog
  match ← Prog.lift (findTag b.messages tag b.confirmMessages) with
  | some m =>
    modifyBacklog fun b => { b with confirmMessages := b.confirmMessages.erase m }
    releaseMessage m
    pure true
  | none => pure false

/-- The expiry list is not touched. -/
def purgeQueueT : StockM Unit := do
  let (values, queue) ← Prog.lift (← get).backlog.queue.purge
  setQueue queue
  values.forM releaseMessage

/-- `queue_release`. -/
def releaseQueue : StockM Unit := do
  let q := (← get).backlog.queue
  let (values, queue) ← Prog.lift (q.freeNodes q.len q.head)
  setQueue queue
  values.forM releaseMessage

def processExpiredMessage (time : ℕ) (x : Ptr × Ptr) : StockM Unit := do
  let msg ← message x.2
  if msg.expiration ≤ time then
    deleteExpire (some x.1)
    match msg.data1 with
    | none => throw .null
    | some n =>
      let (value, queue) ← Prog.lift ((← get).backlog.queue.deleteNode n)
      setQueue queue
      releaseMessage value

def expireList : StockM (List (Ptr × Ptr)) := do pure (← get).backlog.expireMessages

def confirmList : StockM (List Ptr) := do pure (← get).backlog.confirmMessages

def processExpiredMessagesQueueT (time : ℕ) : StockM Unit :=
  Prog.foreach expireList .node (processExpiredMessage time)

/-- A message whose confirmation did not come in time goes back to the tail; one
that has expired meanwhile is dropped. -/
def processUnconfirmedMessage (time : ℕ) (m : Ptr) : StockM Unit := do
  let msg ← message m
  if msg.confirm ≤ time then
    modifyBacklog fun b => { b with confirmMessages := b.confirmMessages.erase m }
    if msg.expiration ≠ 0 then
      if msg.expiration ≤ time then pure ()
      else
        setQueue (← Prog.lift ((← get).backlog.queue.pushValueTail m))
        indexMessage m (← get).backlog.queue.tail
    else
      setQueue (← Prog.lift ((← get).backlog.queue.pushValueTail m))

def processUnconfirmedMessagesQueueT (time : ℕ) : StockM Unit :=
  Prog.foreach confirmList .node (processUnconfirmedMessage time)

end Stock

end EagleMQ
