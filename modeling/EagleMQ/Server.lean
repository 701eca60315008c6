import EagleMQ.Lib.Keylist
import EagleMQ.Message

/-! The state of the server and the access to its records. Clients, queues,
routes and channels live in heaps; their addresses come from one counter and are
not reused, and the use of a freed record is a fault. C strings are lists of
nonzero bytes. A copy of a name that fills its array writes the terminating zero
into the next field, as the setters below do; once that field is written the
string that starts in the array goes on in the fields behind it. -/

namespace EagleMQ

abbrev Name := List Byte

instance : LawfulBEq Name := inferInstance

structure EagleUser where
  name : Name
  password : Name
  perm : ℕ

/-- A keylist node: its address and its key, which never changes. -/
abbrev TopicNode := Ptr × Name

instance : LawfulBEq TopicNode := inferInstance

structure EagleClient where
  fd : ℕ
  perm : ℕ
  noack : Bool
  /-- The writable event is registered. -/
  writable : Bool
  responses : List Ptr
  declaredQueues : List Ptr
  subscribedQueues : List Ptr
  subscribedTopics : Keylist Ptr TopicNode
  subscribedPatterns : Keylist Ptr TopicNode
  sentlen : ℕ
  lastAction : ℕ
  /-- A history variable: the data of the objects appended to `responses`, when they were. -/
  history : List (List Byte)

structure QueueT where
  name : Name
  maxMsg : ℕ
  maxMsgSize : ℕ
  flags : ℕ
  autoDelete : Bool
  forcePush : Bool
  roundRobin : Bool
  backlog : Backlog
  declaredClients : List Ptr
  subscribedClientsMsg : List Ptr
  subscribedClientsNotify : List Ptr
  routes : Keylist Name Ptr

structure RouteT where
  name : Name
  flags : ℕ
  autoDelete : Bool
  roundRobin : Bool
  keys : Keylist Name Ptr

structure ChannelT where
  name : Name
  flags : ℕ
  autoDelete : Bool
  roundRobin : Bool
  topics : Keylist TopicNode Ptr
  patterns : Keylist TopicNode Ptr

/-- The string that starts in an array of `n` bytes with the bytes `after` behind it. -/
def cString (n : ℕ) (name : Name) (after : List Byte) : Name :=
  if name.length < n then name else name ++ after.takeWhile (· ≠ 0)

/-- The string at `name`; `auto_delete` is 0 or 1 and has a zero byte. -/
def QueueT.cName (x : QueueT) : Name :=
  cString 64 x.name (leBytes 4 x.maxMsg ++ leBytes 4 x.maxMsgSize ++ leBytes 4 x.flags ++
    leBytes 4 x.autoDelete.toNat)

def RouteT.cName (x : RouteT) : Name :=
  cString 64 x.name (leBytes 4 x.flags ++ leBytes 4 x.autoDelete.toNat)

def ChannelT.cName (x : ChannelT) : Name :=
  cString 64 x.name (leBytes 4 x.flags ++ leBytes 4 x.autoDelete.toNat)

/-- The kinds of records that have destructors. -/
inductive Kind where
  | queue
  | route
  | channel
  deriving DecidableEq

/-- What the operating system answers while a command or a tick runs. -/
structure Env where
  time : ℕ
  mstime : ℕ
  usedMemory : ℕ
  usedMemoryRss : ℕ
  /-- Bit patterns of the floating point fields of `ProtocolResponseStat`. -/
  usedCpuSys : ℕ
  usedCpuUser : ℕ
  fragmentationRatio : ℕ
  /-- `create_file_event` succeeds for a descriptor. -/
  fileEvent : ℕ → Bool
  /-- All file operations of `storage_save` succeed. -/
  storageIo : Bool
  fork : Bool
  /-- `wait3` reports the end of the background save. -/
  childDone : Bool

structure EagleServer where
  name : Name
  password : Name
  maxClients : ℕ
  maxMemory : ℕ
  clientTimeout : ℕ
  storageTimeout : ℕ
  clients : List Ptr
  users : List EagleUser
  queues : List Ptr
  routes : List Ptr
  channels : List Ptr
  nowTime : ℕ
  nowTimems : ℕ
  startTime : ℕ
  lastSave : ℕ
  nomemory : Bool
  msgCounter : ℕ
  /-- A background save is running (`child_pid` is set). -/
  child : Bool
  clientAt : Heap EagleClient
  queueAt : Heap QueueT
  routeAt : Heap RouteT
  channelAt : Heap ChannelT
  objects : Heap Object
  fresh : Ptr
  env : Env
  /-- A history variable: the records whose destructors have run to their end. -/
  destroyed : List (Kind × Ptr)

abbrev ServerM := Prog EagleServer Fault

/-! ### Records -/

namespace EagleServer

def setClient (s : EagleServer) (c : Ptr) (x : EagleClient) : EagleServer :=
  { s with clientAt := Function.update s.clientAt c (some x) }

def setQueue (s : EagleServer) (q : Ptr) (x : QueueT) : EagleServer :=
  { s with queueAt := Function.update s.queueAt q (some x) }

def setRoute (s : EagleServer) (r : Ptr) (x : RouteT) : EagleServer :=
  { s with routeAt := Function.update s.routeAt r (some x) }

def setChannel (s : EagleServer) (ch : Ptr) (x : ChannelT) : EagleServer :=
  { s with channelAt := Function.update s.channelAt ch (some x) }

/-- The last step of `delete_queue_t`: the memory of the record is released. -/
def freeQueue (s : EagleServer) (q : Ptr) : EagleServer :=
  { s with
    queueAt := Function.update s.queueAt q none, destroyed := s.destroyed ++ [(.queue, q)] }

def freeRoute (s : EagleServer) (r : Ptr) : EagleServer :=
  { s with
    routeAt := Function.update s.routeAt r none, destroyed := s.destroyed ++ [(.route, r)] }

def freeChannel (s : EagleServer) (ch : Ptr) : EagleServer :=
  { s with
    channelAt := Function.update s.channelAt ch none
    destroyed := s.destroyed ++ [(.channel, ch)] }

variable {s : EagleServer} {p : Ptr}

@[simp] theorem setClient_clientAt (x : EagleClient) : (s.setClient p x).clientAt p = some x :=
  Function.update_self ..

@[simp] theorem setQueue_queueAt (x : QueueT) : (s.setQueue p x).queueAt p = some x :=
  Function.update_self ..

@[simp] theorem setRoute_routeAt (x : RouteT) : (s.setRoute p x).routeAt p = some x :=
  Function.update_self ..

@[simp] theorem setChannel_channelAt (x : ChannelT) : (s.setChannel p x).channelAt p = some x :=
  Function.update_self ..

end EagleServer

def getClient (c : Ptr) : ServerM EagleClient := do
  match (← get).clientAt c with
  | none => throw .record
  | some x => pure x

def getQueue (q : Ptr) : ServerM QueueT := do
  match (← get).queueAt q with
  | none => throw .record
  | some x => pure x

def getRoute (r : Ptr) : ServerM RouteT := do
  match (← get).routeAt r with
  | none => throw .record
  | some x => pure x

def getChannel (ch : Ptr) : ServerM ChannelT := do
  match (← get).channelAt ch with
  | none => throw .record
  | some x => pure x

def modifyClient (c : Ptr) (f : EagleClient → EagleClient) : ServerM Unit := do
  let x ← getClient c
  modify fun s => s.setClient c (f x)

def modifyQueue (q : Ptr) (f : QueueT → QueueT) : ServerM Unit := do
  let x ← getQueue q
  modify fun s => s.setQueue q (f x)

def modifyRoute (r : Ptr) (f : RouteT → RouteT) : ServerM Unit := do
  let x ← getRoute r
  modify fun s => s.setRoute r (f x)

def modifyChannel (ch : Ptr) (f : ChannelT → ChannelT) : ServerM Unit := do
  let x ← getChannel ch
  modify fun s => s.setChannel ch (f x)

/-- Run an operation on the messages of a queue. -/
def withStock {α : Type} (q : Ptr) (m : StockM α) : ServerM α := fun s =>
  match s.queueAt q with
  | none => .error .record
  | some x =>
    (m ⟨x.backlog, s.objects⟩).map fun (a, t) =>
      (a, { s with
        queueAt := Function.update s.queueAt q (some { x with backlog := t.backlog })
        objects := t.objects })

/-- The zero byte that a name of full length leaves in the `uint32_t` behind it. -/
def spill (name : Name) (field : ℕ) : ℕ := if name.length < 64 then field else field - field % 256

/-! ### Objects -/

def createObject (data : List Byte) : ServerM Ptr := do
  let o := (← get).fresh
  modify fun s => { s with
    objects := Function.update s.objects o (some ⟨data, 1⟩), fresh := o + 1 }
  pure o

def modifyObjects (f : Heap Object → Except Fault (Heap Object)) : ServerM Unit := do
  let objects ← Prog.lift (f (← get).objects)
  modify fun s => { s with objects := objects }

def incrementReferencesCount (o : Ptr) : ServerM Unit :=
  modifyObjects fun objects => Objects.incrementReferencesCount objects o

def decrementReferencesCount (o : Ptr) : ServerM Unit :=
  modifyObjects fun objects => Objects.decrementReferencesCount objects o

def releaseObject (o : Ptr) : ServerM Unit :=
  modifyObjects fun objects => Objects.releaseObject objects o

/-- `EG_OBJECT_RESET_REFCOUNT`. -/
def resetRefcount (o : Ptr) : ServerM Unit :=
  modifyObjects fun objects => do
    let x ← Objects.find objects o
    .ok (Function.update objects o (some { x with refcount := 0 }))

def objectSize (o : Ptr) : ServerM ℕ := do
  let x ← Prog.lift (Objects.find (← get).objects o)
  pure x.size

/-! ### Responses -/

/-- A registration that fails is no error while responses are waiting. -/
def setWriteEvent (c : Ptr) : ServerM Bool := do
  let client ← getClient c
  if client.fd = 0 then pure false
  else if (← get).env.fileEvent client.fd then
    modifyClient c fun x => { x with writable := true }
    pure true
  else pure (!client.responses.isEmpty)

/-- `list_add_value_tail(client->responses, object)`. -/
def appendResponse (c o : Ptr) : ServerM Unit := do
  let data := ((← get).objects o).elim [] Object.data
  modifyClient c fun x => { x with responses := x.responses ++ [o], history := x.history ++ [data] }

def addResponse (c : Ptr) (data : List Byte) : ServerM Unit := do
  let o ← createObject data
  if ← setWriteEvent c then appendResponse c o else releaseObject o

def addObjectResponse (c o : Ptr) : ServerM Unit := do
  incrementReferencesCount o
  if ← setWriteEvent c then appendResponse c o else decrementReferencesCount o

/-- `set_response_header`. -/
def responseHeader (cmd status : Byte) (bodylen : ℕ) : List Byte :=
  leBytes 2 protocolRes ++ [cmd, status] ++ leBytes 4 bodylen

/-- `set_event_header`. -/
def eventHeader (cmd type : Byte) (bodylen : ℕ) : List Byte :=
  leBytes 2 protocolEvent ++ [cmd, type] ++ leBytes 4 bodylen

def addStatusResponse (c : Ptr) (cmd status : Byte) : ServerM Unit := do
  if (← getClient c).noack = false then
    addResponse c (responseHeader cmd status 0)

/-- A string in a zeroed field of `n` bytes. In the records of a list a longer string
runs over the fields behind its own, which are written after it. -/
def padded (n : ℕ) (x : List Byte) : List Byte := x ++ List.replicate (n - x.length) 0

/-- `memcpy(buffer + i, str, strlenz(str))` into a buffer of known size. -/
def copyString (buffer : List Byte) (i : ℕ) (str : Name) : Except Fault (List Byte) :=
  if buffer.length < i + str.length + 1 then .error .overflow
  else .ok (buffer.take i ++ str ++ 0 :: buffer.drop (i + str.length + 1))

/-- A buffer from `xcalloc` with strings copied to their offsets, one after the other. -/
@[irreducible] def copyStrings (n : ℕ) (l : List (ℕ × Name)) : Except Fault (List Byte) :=
  l.foldlM (fun buffer x => copyString buffer x.1 x.2) (List.replicate n 0)

/-! ### Statuses, commands and event types -/

namespace Status

def success : Byte := 0x1
def error : Byte := 0x2
def errorPacket : Byte := 0x3
def errorCommand : Byte := 0x4
def errorAccess : Byte := 0x5
def errorMemory : Byte := 0x6
def errorValue : Byte := 0x7
def errorNotDeclared : Byte := 0x8
def errorNotFound : Byte := 0x9
def errorNoData : Byte := 0xA

end Status

def eventNotify : Byte := 0x1
def eventMessage : Byte := 0x2

namespace Cmd

def auth : Byte := 0xA
def ping : Byte := 0xB
def stat : Byte := 0xC
def save : Byte := 0xD
def flush : Byte := 0xE
def disconnect : Byte := 0xF
def userCreate : Byte := 0x1E
def userList : Byte := 0x1F
def userRename : Byte := 0x20
def userSetPerm : Byte := 0x21
def userDelete : Byte := 0x22
def queueCreate : Byte := 0x23
def queueDeclare : Byte := 0x24
def queueExist : Byte := 0x25
def queueList : Byte := 0x26
def queueRename : Byte := 0x27
def queueSize : Byte := 0x28
def queuePush : Byte := 0x29
def queueGet : Byte := 0x2A
def queuePop : Byte := 0x2B
def queueConfirm : Byte := 0x2C
def queueSubscribe : Byte := 0x2D
def queueUnsubscribe : Byte := 0x2E
def queuePurge : Byte := 0x2F
def queueDelete : Byte := 0x30
def routeCreate : Byte := 0x31
def routeExist : Byte := 0x32
def routeList : Byte := 0x33
def routeKeys : Byte := 0x34
def routeRename : Byte := 0x35
def routeBind : Byte := 0x36
def routeUnbind : Byte := 0x37
def routePush : Byte := 0x38
def routeDelete : Byte := 0x39
def channelCreate : Byte := 0x3A
def channelExist : Byte := 0x3B
def channelList : Byte := 0x3C
def channelRename : Byte := 0x3D
def channelPublish : Byte := 0x3E
def channelSubscribe : Byte := 0x3F
def channelPsubscribe : Byte := 0x40
def channelUnsubscribe : Byte := 0x41
def channelPunsubscribe : Byte := 0x42
def channelDelete : Byte := 0x43

end Cmd

end EagleMQ
