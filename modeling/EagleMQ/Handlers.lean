import EagleMQ.Storage

/-! The command handlers. A request is the memory of `client->request`, of which
`[0, pos)` is the frame; fields are read at their offsets in the packed request
structures. The checks that the handlers share come first. -/

namespace EagleMQ

structure Request where
  mem : ℕ → Byte
  pos : ℕ

namespace Request

def cmd (req : Request) : Byte := req.mem 2

def noack (req : Request) : Bool := req.mem 3 != 0

def u32 (req : Request) (i : ℕ) : ℕ := EagleMQ.u32 req.mem i

def u64 (req : Request) (i : ℕ) : ℕ := EagleMQ.u64 req.mem i

/-- `process_request` takes a header and a body of up to `EG_MAX_BUF_SIZE` bytes. -/
def Framed (req : Request) : Prop := headerSize ≤ req.pos ∧ req.pos ≤ headerSize + maxBufSize

instance : DecidablePred Framed := fun _ => inferInstanceAs (Decidable (_ ∧ _))

/-- The frame from an offset to its end. -/
def rest (req : Request) (i : ℕ) : List Byte := slice req.mem i (req.pos - i)

end Request

/-! ### Permissions -/

namespace Perm

def queue : ℕ := 0
def route : ℕ := 1
def channel : ℕ := 2
def admin : ℕ := 5
def notChange : ℕ := 6
def queueCreate : ℕ := 20
def queueDeclare : ℕ := 21
def queueExist : ℕ := 22
def queueList : ℕ := 23
def queueRename : ℕ := 24
def queueSize : ℕ := 25
def queuePush : ℕ := 26
def queueGet : ℕ := 27
def queuePop : ℕ := 28
def queueConfirm : ℕ := 29
def queueSubscribe : ℕ := 30
def queueUnsubscribe : ℕ := 31
def queuePurge : ℕ := 32
def queueDelete : ℕ := 33
def routeCreate : ℕ := 34
def routeExist : ℕ := 35
def routeList : ℕ := 36
def routeKeys : ℕ := 37
def routeRename : ℕ := 38
def routeBind : ℕ := 39
def routeUnbind : ℕ := 40
def routePush : ℕ := 41
def routeDelete : ℕ := 42
def channelCreate : ℕ := 43
def channelExist : ℕ := 44
def channelList : ℕ := 45
def channelRename : ℕ := 46
def channelPublish : ℕ := 47
def channelSubscribe : ℕ := 48
def channelPsubscribe : ℕ := 49
def channelUnsubscribe : ℕ := 50
def channelPunsubscribe : ℕ := 51
def channelDelete : ℕ := 52
/-- `EG_USER_SUPER_PERM`. -/
def super : ℕ := 0x7F

end Perm

/-! ### Checks -/

def respond (c : Ptr) (req : Request) (status : Byte) : ServerM Unit :=
  addStatusResponse c req.cmd status

def requirePacket (c : Ptr) (req : Request) (size : ℕ) (k : ServerM Unit) : ServerM Unit :=
  if req.pos < size then addStatusResponse c 0 Status.errorPacket else k

/-- One of the given permission bits. -/
def requirePerm (c : Ptr) (req : Request) (bits : List ℕ) (k : ServerM Unit) : ServerM Unit := do
  if bits.any (bitCheck (← getClient c).perm) then k else respond c req Status.errorAccess

/-- A string field that its validator accepts. -/
def requireField (c : Ptr) (req : Request) (check : (ℕ → Byte) → ℕ → ℕ) (i size : ℕ)
    (k : Name → ServerM Unit) : ServerM Unit :=
  let n := check (fun j => req.mem (i + j)) size
  if n = 0 then respond c req Status.errorValue else k (slice req.mem i n)

/-- The lookup of a record, with the status when there is none. -/
def requireFound {α : Type} (c : Ptr) (req : Request) (status : Byte) (find : ServerM (Option α))
    (k : α → ServerM Unit) : ServerM Unit := do
  match ← find with
  | none => respond c req status
  | some x => k x

/-- The lookup of a name that must not be taken. -/
def requireFree (c : Ptr) (req : Request) (status : Byte) (find : ServerM (Option Ptr))
    (k : ServerM Unit) : ServerM Unit := do
  match ← find with
  | none => k
  | some _ => respond c req status

def requireMemory (c : Ptr) (req : Request) (k : ServerM Unit) : ServerM Unit := do
  if (← get).nomemory then respond c req Status.errorMemory else k

/-- A response with a body. The index into the buffer and the size given to
`add_response` are of type `int`. -/
def dataResponse (c : Ptr) (req : Request) (body : List Byte) : ServerM Unit :=
  if 2147483648 ≤ headerSize + body.length then throw .overflow
  else addResponse c (responseHeader req.cmd Status.success body.length ++ body)

/-- An operation with the two statuses of its result. -/
def reportResult (c : Ptr) (req : Request) (m : ServerM Bool) : ServerM Unit := do
  if ← m then respond c req Status.success else respond c req Status.error

def findQueue (name : Name) : ServerM (Option Ptr) := do findQueueT (← get).queues name

def findRoute (name : Name) : ServerM (Option Ptr) := do findRouteT (← get).routes name

def findChannel (name : Name) : ServerM (Option Ptr) := do findChannelT (← get).channels name

def findDeclared (c : Ptr) (name : Name) : ServerM (Option Ptr) := do
  findQueueT (← getClient c).declaredQueues name

def findSubscribed (c : Ptr) (name : Name) : ServerM (Option Ptr) := do
  findQueueT (← getClient c).subscribedQueues name

/-- An expiration relative to the clock of the last tick; the sum is a `uint32_t`. -/
def absoluteExpiration (now expire : ℕ) : ℕ :=
  if expire = 0 then 0 else (expire + now) % 4294967296

/-! ### Users -/

/-- A string that starts at `password` and compares equal to a shorter one. -/
def EagleUser.passwordIs (u : EagleUser) (password : Name) : Bool :=
  u.password = password && (u.password.length < 32 || u.perm % 256 = 0)

/-- A name of full length goes on in the password. -/
def EagleUser.nameIs (u : EagleUser) (name : Name) : Bool :=
  u.name = name && (u.name.length < 32 || u.password = [])

/-- `find_user`, with or without a password: the index of the first match. -/
def findUser (users : List EagleUser) (name : Name) (password : Option Name) : Option ℕ :=
  users.findIdx? fun u => u.nameIs name && password.all u.passwordIs

def modifyUsers (f : List EagleUser → List EagleUser) : ServerM Unit :=
  modify fun s => { s with users := f s.users }

/-- A name of full length writes its terminator into the password. -/
def EagleUser.rename (u : EagleUser) (name : Name) : EagleUser :=
  { u with name := name, password := if name.length < 32 then u.password else [] }

def authCommandHandler (c : Ptr) (req : Request) : ServerM Unit :=
  requirePacket c req 72 <|
  requireField c req checkInputBuffer2 8 32 fun name =>
  requireField c req checkInputBuffer1 40 32 fun password => do
    let users := (← get).users
    match (findUser users name (some password)).bind (users[·]?) with
    | none => respond c req Status.errorNotFound
    | some user =>
      modifyClient c fun x => { x with perm := user.perm }
      respond c req Status.success

def pingCommandHandler (c : Ptr) (req : Request) : ServerM Unit :=
  requirePacket c req headerSize <| respond c req Status.success

def statBody (s : EagleServer) : List Byte :=
  [1, 3, 0] ++ leBytes 4 (s.env.time + 4294967296 - s.startTime % 4294967296) ++
    leBytes 4 s.env.usedCpuSys ++ leBytes 4 s.env.usedCpuUser ++ leBytes 4 s.env.usedMemory ++
    leBytes 4 s.env.usedMemoryRss ++ leBytes 4 s.env.fragmentationRatio ++
    leBytes 4 s.clients.length ++ leBytes 4 s.users.length ++ leBytes 4 s.queues.length ++
    leBytes 4 s.routes.length ++ leBytes 4 s.channels.length ++ leBytes 4 0 ++ leBytes 4 0

def statCommandHandler (c : Ptr) (req : Request) : ServerM Unit :=
  requirePacket c req headerSize <|
  requirePerm c req [Perm.admin] do
    dataResponse c req (statBody (← get))

/-- The parent's side of a background save; false is `EG_STATUS_ERR`. -/
def storageSaveBackground : ServerM Bool := do
  let s ← get
  if s.child then pure false
  else if s.env.fork then
    set { s with child := true }
    pure true
  else pure false

section Save

variable [Lzf]

/-- `storage_save` in the server itself. -/
def storageSaveSync : ServerM Bool := do
  let s ← get
  if s.env.storageIo then pure (← Prog.lift (storageSave s).run).isSome else pure false

/-- After a failed save the success response follows the error. -/
def saveData (c : Ptr) (req : Request) (async : Bool) : ServerM Unit := do
  let ok ← if async then storageSaveBackground else storageSaveSync
  if !ok then respond c req Status.error
  respond c req Status.success

def saveCommandHandler (c : Ptr) (req : Request) : ServerM Unit :=
  requirePacket c req 9 <|
  requirePerm c req [Perm.admin] <| saveData c req (req.mem 8 != 0)

end Save

def deleteUsers : ServerM Unit := modifyUsers fun users => users.filter EagleUser.notChange

def deleteQueues : ServerM Unit :=
  Prog.foreach (do pure (← get).queues) .link fun q => do
    let _ ← listDeleteQueue q

def deleteRoutes : ServerM Unit :=
  Prog.foreach (do pure (← get).routes) .link fun r => do
    let _ ← listDeleteRoute r

def deleteChannels : ServerM Unit :=
  Prog.foreach (do pure (← get).channels) .link fun ch => do
    let _ ← listDeleteChannel ch

def flushData (c : Ptr) (req : Request) (flags : ℕ) : ServerM Unit := do
  if bitCheck flags 0 then deleteUsers
  if bitCheck flags 1 then deleteQueues
  if bitCheck flags 2 then deleteRoutes
  if bitCheck flags 3 then deleteChannels
  respond c req Status.success

def flushCommandHandler (c : Ptr) (req : Request) : ServerM Unit :=
  requirePacket c req 12 <|
  requirePerm c req [Perm.admin] <| flushData c req (req.u32 8)

def userCreateCommandHandler (c : Ptr) (req : Request) : ServerM Unit :=
  requirePacket c req 80 <|
  requirePerm c req [Perm.admin] <|
  requireField c req checkInputBuffer2 8 32 fun name =>
  requireField c req checkInputBuffer1 40 32 fun password => do
    match findUser (← get).users name none with
    | some _ => respond c req Status.error
    | none =>
      modifyUsers fun users => users ++ [⟨name, password, req.u64 72⟩]
      respond c req Status.success

/-- The record of a user in the response to `user_list`. -/
def userEntry (u : EagleUser) : ServerM (List Byte) := do
  let _ ← Prog.lift u.cPassword
  pure (padded 32 u.name ++ padded 32 u.password ++ leBytes 8 u.perm)

def userListCommandHandler (c : Ptr) (req : Request) : ServerM Unit :=
  requirePacket c req headerSize <|
  requirePerm c req [Perm.admin] do
    let body ← (← get).users.mapM userEntry
    dataResponse c req body.flatten

def userRenameCommandHandler (c : Ptr) (req : Request) : ServerM Unit :=
  requirePacket c req 72 <|
  requirePerm c req [Perm.admin] <|
  requireField c req checkInputBuffer2 8 32 fun old =>
  requireField c req checkInputBuffer2 40 32 fun new => do
    let users := (← get).users
    match findUser users old none, findUser users new none with
    | some i, none =>
      if (users[i]?).any EagleUser.notChange then respond c req Status.error
      else
        modifyUsers fun users => users.modify i fun u => u.rename new
        respond c req Status.success
    | _, _ => respond c req Status.errorNotFound

def userSetPermCommandHandler (c : Ptr) (req : Request) : ServerM Unit :=
  requirePacket c req 48 <|
  requirePerm c req [Perm.admin] <|
  requireField c req checkInputBuffer2 8 32 fun name => do
    let users := (← get).users
    match findUser users name none with
    | none => respond c req Status.errorNotFound
    | some i =>
      if (users[i]?).any EagleUser.notChange then respond c req Status.error
      else
        modifyUsers fun users => users.modify i fun u => { u with perm := req.u64 40 }
        respond c req Status.success

def userDeleteCommandHandler (c : Ptr) (req : Request) : ServerM Unit :=
  requirePacket c req 40 <|
  requirePerm c req [Perm.admin] <|
  requireField c req checkInputBuffer2 8 32 fun name => do
    let users := (← get).users
    match findUser users name none with
    | none => respond c req Status.errorNotFound
    | some i =>
      if (users[i]?).any EagleUser.notChange then respond c req Status.error
      else
        modifyUsers fun users => users.eraseIdx i
        respond c req Status.success

/-! ### Queues -/

def queuePerms (own : ℕ) : List ℕ := [Perm.admin, Perm.queue, own]

def createQueue (c : Ptr) (req : Request) (name : Name) (maxMsg maxMsgSize flags : ℕ) : ServerM Unit := do
  let q ← createQueueT name maxMsg maxMsgSize flags
  modify fun s => { s with queues := s.queues ++ [q] }
  respond c req Status.success

def queueCreateCommandHandler (c : Ptr) (req : Request) : ServerM Unit :=
  requirePacket c req 84 <|
  requirePerm c req (queuePerms Perm.queueCreate) <|
  requireField c req checkInputBuffer2 8 64 fun name =>
  requireFree c req Status.error (findQueue name) <|
    let maxMsg := req.u32 72
    let maxMsgSize := req.u32 76
    if maxMsg = 0 ∨ maxMsgSize > EagleMQ.maxMsgSize then respond c req Status.errorValue
    else
      createQueue c req name maxMsg (if maxMsgSize = 0 then EagleMQ.maxMsgSize else maxMsgSize)
        (req.u32 80)

def queueDeclareCommandHandler (c : Ptr) (req : Request) : ServerM Unit :=
  requirePacket c req 72 <|
  requirePerm c req (queuePerms Perm.queueDeclare) <|
  requireField c req checkInputBuffer2 8 64 fun name =>
  requireFound c req Status.errorNotFound (findQueue name) fun q =>
  requireFree c req Status.success (findDeclared c name) do
    declareClientQueueT q c
    respond c req Status.success

/-- The shared body of the three commands that ask for a name. -/
def existCommandHandler (c : Ptr) (req : Request) (bits : List ℕ)
    (find : Name → ServerM (Option Ptr)) : ServerM Unit :=
  requirePacket c req 72 <|
  requirePerm c req bits <|
  requireField c req checkInputBuffer2 8 64 fun name => do
    dataResponse c req (leBytes 4 (if (← find name).isSome then 1 else 0))

def queueExistCommandHandler (c : Ptr) (req : Request) : ServerM Unit :=
  existCommandHandler c req (queuePerms Perm.queueExist) findQueue

/-- The shared body of the three commands that list records. -/
def listCommandHandler {α : Type} (c : Ptr) (req : Request) (bits : List ℕ)
    (list : EagleServer → List Ptr) (find : Ptr → ServerM α) (entry : α → List Byte) :
    ServerM Unit :=
  requirePacket c req headerSize <|
  requirePerm c req bits do
    let records ← (list (← get)).mapM find
    dataResponse c req (records.map entry).flatten

def queueListCommandHandler (c : Ptr) (req : Request) : ServerM Unit :=
  listCommandHandler c req (queuePerms Perm.queueList) EagleServer.queues getQueue fun x =>
    padded 64 x.name ++ leBytes 4 x.maxMsg ++ leBytes 4 x.maxMsgSize ++ leBytes 4 x.flags ++
      leBytes 4 x.size ++ leBytes 4 x.declaredClients.length ++ leBytes 4 x.subscribedClients

/-- The shared body of the three commands that rename a record. -/
def renameCommandHandler (c : Ptr) (req : Request) (bits : List ℕ)
    (find : Name → ServerM (Option Ptr)) (rename : Ptr → Name → ServerM Unit) : ServerM Unit :=
  requirePacket c req 136 <|
  requirePerm c req bits <|
  requireField c req checkInputBuffer2 8 64 fun old =>
  requireField c req checkInputBuffer2 72 64 fun new =>
  requireFound c req Status.errorNotFound (find old) fun p =>
  requireFree c req Status.errorValue (find new) do
    rename p new
    respond c req Status.success

def queueRenameCommandHandler (c : Ptr) (req : Request) : ServerM Unit :=
  renameCommandHandler c req (queuePerms Perm.queueRename) findQueue renameQueueT

def queueSizeCommandHandler (c : Ptr) (req : Request) : ServerM Unit :=
  requirePacket c req 72 <|
  requirePerm c req (queuePerms Perm.queueSize) <|
  requireField c req checkInputBuffer2 8 64 fun name =>
  requireFound c req Status.errorNotFound (findQueue name) fun q => do
    dataResponse c req (leBytes 4 (← getQueue q).size)

def pushToQueue (c : Ptr) (req : Request) (q : Ptr) : ServerM Unit := do
  let msg ← createObject (req.rest 76)
  reportResult c req do
    pushMessageQueueT q msg (absoluteExpiration (← get).nowTimems (req.u32 72))

def queuePushCommandHandler (c : Ptr) (req : Request) : ServerM Unit :=
  requirePacket c req 77 <|
  requirePerm c req (queuePerms Perm.queuePush) <|
  requireField c req checkInputBuffer2 8 64 fun name =>
  requireMemory c req <|
  requireFound c req Status.errorNotDeclared (findDeclared c name) (pushToQueue c req)

/-- The header with the tag, then the payload. -/
def messageResponse (c : Ptr) (req : Request) (q m : Ptr) : ServerM Unit := do
  let msg ← withStock q (Stock.message m)
  let size ← objectSize msg.value
  addResponse c (responseHeader req.cmd Status.success (size + 8) ++ leBytes 8 msg.tag)
  addObjectResponse c msg.value

def getFromQueue (c : Ptr) (req : Request) (q : Ptr) : ServerM Unit :=
  requireFound c req Status.errorNoData (withStock q Stock.getMessageQueueT) fun m =>
    messageResponse c req q m

def queueGetCommandHandler (c : Ptr) (req : Request) : ServerM Unit :=
  requirePacket c req 72 <|
  requirePerm c req (queuePerms Perm.queueGet) <|
  requireField c req checkInputBuffer2 8 64 fun name =>
  requireFound c req Status.errorNotDeclared (findDeclared c name) (getFromQueue c req)

def popFromQueue (c : Ptr) (req : Request) (q : Ptr) : ServerM Unit :=
  requireFound c req Status.errorNoData (withStock q Stock.getMessageQueueT) fun m => do
    messageResponse c req q m
    withStock q (Stock.popMessageQueueT (← get).nowTimems (req.u32 72))

def queuePopCommandHandler (c : Ptr) (req : Request) : ServerM Unit :=
  requirePacket c req 76 <|
  requirePerm c req (queuePerms Perm.queuePop) <|
  requireField c req checkInputBuffer2 8 64 fun name =>
  requireFound c req Status.errorNotDeclared (findDeclared c name) (popFromQueue c req)

def confirmInQueue (c : Ptr) (req : Request) (q : Ptr) : ServerM Unit := do
  if ← withStock q (Stock.confirmMessageQueueT (req.u64 72)) then respond c req Status.success
  else respond c req Status.errorNoData

def queueConfirmCommandHandler (c : Ptr) (req : Request) : ServerM Unit :=
  requirePacket c req 80 <|
  requirePerm c req (queuePerms Perm.queueConfirm) <|
  requireField c req checkInputBuffer2 8 64 fun name =>
  requireFound c req Status.errorNotDeclared (findDeclared c name) (confirmInQueue c req)

def queueSubscribeCommandHandler (c : Ptr) (req : Request) : ServerM Unit :=
  requirePacket c req 76 <|
  requirePerm c req (queuePerms Perm.queueSubscribe) <|
  requireField c req checkInputBuffer2 8 64 fun name =>
  requireFound c req Status.errorNotDeclared (findDeclared c name) fun q =>
  requireFree c req Status.error (findSubscribed c name) do
    subscribeClientQueueT q c (req.u32 72)
    respond c req Status.success

def queueUnsubscribeCommandHandler (c : Ptr) (req : Request) : ServerM Unit :=
  requirePacket c req 72 <|
  requirePerm c req (queuePerms Perm.queueUnsubscribe) <|
  requireField c req checkInputBuffer2 8 64 fun name =>
  requireFound c req Status.errorNotDeclared (findDeclared c name) fun q =>
  requireFound c req Status.error (findSubscribed c name) fun _ => do
    unsubscribeClientQueueT q c
    respond c req Status.success

def queuePurgeCommandHandler (c : Ptr) (req : Request) : ServerM Unit :=
  requirePacket c req 72 <|
  requirePerm c req (queuePerms Perm.queuePurge) <|
  requireField c req checkInputBuffer2 8 64 fun name =>
  requireFound c req Status.errorNotDeclared (findDeclared c name) fun q => do
    withStock q Stock.purgeQueueT
    respond c req Status.success

/-- The shared body of the three commands that delete a record. -/
def deleteCommandHandler (c : Ptr) (req : Request) (bits : List ℕ)
    (find : Name → ServerM (Option Ptr)) (delete : Ptr → ServerM Bool) : ServerM Unit :=
  requirePacket c req 72 <|
  requirePerm c req bits <|
  requireField c req checkInputBuffer2 8 64 fun name =>
  requireFound c req Status.errorNotFound (find name) fun p => reportResult c req (delete p)

def queueDeleteCommandHandler (c : Ptr) (req : Request) : ServerM Unit :=
  deleteCommandHandler c req (queuePerms Perm.queueDelete) findQueue listDeleteQueue

/-! ### Routes -/

def routePerms (own : ℕ) : List ℕ := [Perm.admin, Perm.route, own]

def createRoute (c : Ptr) (req : Request) (name : Name) (flags : ℕ) : ServerM Unit := do
  let r ← createRouteT name flags
  modify fun s => { s with routes := s.routes ++ [r] }
  respond c req Status.success

def routeCreateCommandHandler (c : Ptr) (req : Request) : ServerM Unit :=
  requirePacket c req 76 <|
  requirePerm c req (routePerms Perm.routeCreate) <|
  requireField c req checkInputBuffer2 8 64 fun name =>
  requireFree c req Status.error (findRoute name) <| createRoute c req name (req.u32 72)

def routeExistCommandHandler (c : Ptr) (req : Request) : ServerM Unit :=
  existCommandHandler c req (routePerms Perm.routeExist) findRoute

def routeListCommandHandler (c : Ptr) (req : Request) : ServerM Unit :=
  listCommandHandler c req (routePerms Perm.routeList) EagleServer.routes getRoute fun x =>
    padded 64 x.name ++ leBytes 4 x.flags ++ leBytes 4 x.keys.length

/-- The two strings of each record in the response to `route_keys`. -/
def routeKeyEntries (k : Name × List Ptr) : ServerM (List (Name × Name)) :=
  k.2.mapM fun q => do pure (k.1, (← getQueue q).cName)

/-- The offsets of the strings. -/
def routeKeyOffsets (entries : List (Name × Name)) : List (ℕ × Name) :=
  (entries.zipIdx.map fun x => [(96 * x.2, x.1.1), (96 * x.2 + 32, x.1.2)]).flatten

def routeKeysCommandHandler (c : Ptr) (req : Request) : ServerM Unit :=
  requirePacket c req 72 <|
  requirePerm c req (routePerms Perm.routeKeys) <|
  requireField c req checkInputBuffer2 8 64 fun name =>
  requireFound c req Status.errorNotFound (findRoute name) fun r => do
    let x ← getRoute r
    let entries ← x.keys.mapM routeKeyEntries
    let body ← Prog.lift (copyStrings (x.queueNumber * 96) (routeKeyOffsets entries.flatten))
    dataResponse c req body

def routeRenameCommandHandler (c : Ptr) (req : Request) : ServerM Unit :=
  renameCommandHandler c req (routePerms Perm.routeRename) findRoute renameRouteT

/-- The checks of `route_bind` and `route_unbind`. -/
def bindingCommandHandler (c : Ptr) (req : Request) (bits : List ℕ)
    (k : Ptr → Ptr → Name → ServerM Unit) : ServerM Unit :=
  requirePacket c req 168 <|
  requirePerm c req bits <|
  requireField c req checkInputBuffer2 8 64 fun name =>
  requireField c req checkInputBuffer2 72 64 fun queue =>
  requireField c req checkInputBuffer1 136 32 fun key =>
  requireFound c req Status.errorNotFound (findRoute name) fun r =>
  requireFound c req Status.errorNotFound (findQueue queue) fun q => k r q key

def routeBindCommandHandler (c : Ptr) (req : Request) : ServerM Unit :=
  bindingCommandHandler c req (routePerms Perm.routeBind) fun r q key => do
    bindRouteT r q key
    respond c req Status.success

def routeUnbindCommandHandler (c : Ptr) (req : Request) : ServerM Unit :=
  bindingCommandHandler c req (routePerms Perm.routeUnbind) fun r q key =>
    reportResult c req (unbindRouteT r q key)

def pushToRoute (c : Ptr) (req : Request) (r : Ptr) (key : Name) : ServerM Unit := do
  let msg ← createObject (req.rest 108)
  resetRefcount msg
  reportResult c req do
    pushMessageRouteT r key msg (absoluteExpiration (← get).nowTimems (req.u32 104))

def routePushCommandHandler (c : Ptr) (req : Request) : ServerM Unit :=
  requirePacket c req 109 <|
  requirePerm c req (routePerms Perm.routePush) <|
  requireField c req checkInputBuffer2 8 64 fun name =>
  requireField c req checkInputBuffer1 72 32 fun key =>
  requireMemory c req <|
  requireFound c req Status.errorNotFound (findRoute name) fun r => pushToRoute c req r key

def routeDeleteCommandHandler (c : Ptr) (req : Request) : ServerM Unit :=
  deleteCommandHandler c req (routePerms Perm.routeDelete) findRoute listDeleteRoute

/-! ### Channels -/

def channelPerms (own : ℕ) : List ℕ := [Perm.admin, Perm.channel, own]

def createChannel (c : Ptr) (req : Request) (name : Name) (flags : ℕ) : ServerM Unit := do
  let ch ← createChannelT name flags
  modify fun s => { s with channels := s.channels ++ [ch] }
  respond c req Status.success

def channelCreateCommandHandler (c : Ptr) (req : Request) : ServerM Unit :=
  requirePacket c req 76 <|
  requirePerm c req (channelPerms Perm.channelCreate) <|
  requireField c req checkInputBuffer2 8 64 fun name =>
  requireFree c req Status.error (findChannel name) <| createChannel c req name (req.u32 72)

def channelExistCommandHandler (c : Ptr) (req : Request) : ServerM Unit :=
  existCommandHandler c req (channelPerms Perm.channelExist) findChannel

def channelListCommandHandler (c : Ptr) (req : Request) : ServerM Unit :=
  listCommandHandler c req (channelPerms Perm.channelList) EagleServer.channels getChannel fun x =>
    padded 64 x.name ++ leBytes 4 x.flags ++ leBytes 4 x.topics.length ++ leBytes 4 x.patterns.length

def channelRenameCommandHandler (c : Ptr) (req : Request) : ServerM Unit :=
  renameCommandHandler c req (channelPerms Perm.channelRename) findChannel renameChannelT

/-- The checks of the commands on a channel and a topic or pattern. -/
def topicCommandHandler (c : Ptr) (req : Request) (size : ℕ) (bits : List ℕ)
    (check : (ℕ → Byte) → ℕ → ℕ) (k : Ptr → Name → ServerM Unit) : ServerM Unit :=
  requirePacket c req size <|
  requirePerm c req bits <|
  requireField c req checkInputBuffer2 8 64 fun name =>
  requireField c req check 72 32 fun topic =>
  requireFound c req Status.errorNotFound (findChannel name) fun ch => k ch topic

def publishToChannel (c : Ptr) (req : Request) (ch : Ptr) (topic : Name) : ServerM Unit := do
  let msg ← createObject (req.rest 104)
  publishMessageChannelT ch topic msg
  decrementReferencesCount msg
  respond c req Status.success

def channelPublishCommandHandler (c : Ptr) (req : Request) : ServerM Unit :=
  topicCommandHandler c req 105 (channelPerms Perm.channelPublish) checkInputBuffer1
    (publishToChannel c req)

def channelSubscribeCommandHandler (c : Ptr) (req : Request) : ServerM Unit :=
  topicCommandHandler c req 104 (channelPerms Perm.channelSubscribe) checkInputBuffer1
    fun ch topic => do
      subscribeChannelT ch c topic
      respond c req Status.success

def channelPsubscribeCommandHandler (c : Ptr) (req : Request) : ServerM Unit :=
  topicCommandHandler c req 104 (channelPerms Perm.channelPsubscribe) checkInputBuffer3
    fun ch pattern => do
      psubscribeChannelT ch c pattern
      respond c req Status.success

/-- After an error the success response follows. -/
def channelUnsubscribeCommandHandler (c : Ptr) (req : Request) : ServerM Unit :=
  topicCommandHandler c req 104 (channelPerms Perm.channelUnsubscribe) checkInputBuffer1
    fun ch topic => do
      if !(← unsubscribeChannelT ch c topic) then respond c req Status.errorNotFound
      respond c req Status.success

def channelPunsubscribeCommandHandler (c : Ptr) (req : Request) : ServerM Unit :=
  topicCommandHandler c req 104 (channelPerms Perm.channelPunsubscribe) checkInputBuffer3
    fun ch pattern => do
      if !(← punsubscribeChannelT ch c pattern) then respond c req Status.errorNotFound
      respond c req Status.success

def channelDeleteCommandHandler (c : Ptr) (req : Request) : ServerM Unit :=
  deleteCommandHandler c req (channelPerms Perm.channelDelete) findChannel listDeleteChannel

/-! ### The end of a connection -/

def ejectQueueClient (c : Ptr) : ServerM Unit := do
  Prog.foreach (do pure (← getClient c).subscribedQueues) .link fun q => unsubscribeClientQueueT q c
  Prog.foreach (do pure (← getClient c).declaredQueues) .link fun q => do
    undeclareClientQueueT q c
    processQueueT q

/-- One side of `eject_channel_client`; the name is read from the node. -/
def ejectChannelClientSide (d : Side) (c : Ptr) : ServerM Unit :=
  Prog.foreach (do pure ((← getClient c).side d).keys) .link fun ch =>
    Prog.foreach (do pure (((← getClient c).side d).values ch)) .link fun node => do
      if node ∈ ((← getChannel ch).side d).keys then
        let _ ← unsubscribeSide d ch c node.2
      else throw .link

def ejectChannelClient (c : Ptr) : ServerM Unit := do
  ejectChannelClientSide .topic c
  ejectChannelClientSide .pattern c

def freeClient (c : Ptr) : ServerM Unit := do
  ejectQueueClient c
  ejectChannelClient c
  (← getClient c).responses.forM decrementReferencesCount
  modify fun s => { s with
    clients := s.clients.erase c, clientAt := Function.update s.clientAt c none }

def disconnectCommandHandler (c : Ptr) (req : Request) : ServerM Unit :=
  requirePacket c req headerSize <| freeClient c

/-! ### Dispatch -/

section Dispatch

variable [Lzf]

/-- `init_commands`. -/
def commands : List (Byte × (Ptr → Request → ServerM Unit)) := [
  (Cmd.auth, authCommandHandler),
  (Cmd.ping, pingCommandHandler),
  (Cmd.stat, statCommandHandler),
  (Cmd.save, saveCommandHandler),
  (Cmd.flush, flushCommandHandler),
  (Cmd.disconnect, disconnectCommandHandler),
  (Cmd.userCreate, userCreateCommandHandler),
  (Cmd.userList, userListCommandHandler),
  (Cmd.userRename, userRenameCommandHandler),
  (Cmd.userSetPerm, userSetPermCommandHandler),
  (Cmd.userDelete, userDeleteCommandHandler),
  (Cmd.queueCreate, queueCreateCommandHandler),
  (Cmd.queueDeclare, queueDeclareCommandHandler),
  (Cmd.queueExist, queueExistCommandHandler),
  (Cmd.queueList, queueListCommandHandler),
  (Cmd.queueRename, queueRenameCommandHandler),
  (Cmd.queueSize, queueSizeCommandHandler),
  (Cmd.queuePush, queuePushCommandHandler),
  (Cmd.queueGet, queueGetCommandHandler),
  (Cmd.queuePop, queuePopCommandHandler),
  (Cmd.queueConfirm, queueConfirmCommandHandler),
  (Cmd.queueSubscribe, queueSubscribeCommandHandler),
  (Cmd.queueUnsubscribe, queueUnsubscribeCommandHandler),
  (Cmd.queuePurge, queuePurgeCommandHandler),
  (Cmd.queueDelete, queueDeleteCommandHandler),
  (Cmd.routeCreate, routeCreateCommandHandler),
  (Cmd.routeExist, routeExistCommandHandler),
  (Cmd.routeList, routeListCommandHandler),
  (Cmd.routeKeys, routeKeysCommandHandler),
  (Cmd.routeRename, routeRenameCommandHandler),
  (Cmd.routeBind, routeBindCommandHandler),
  (Cmd.routeUnbind, routeUnbindCommandHandler),
  (Cmd.routePush, routePushCommandHandler),
  (Cmd.routeDelete, routeDeleteCommandHandler),
  (Cmd.channelCreate, channelCreateCommandHandler),
  (Cmd.channelExist, channelExistCommandHandler),
  (Cmd.channelList, channelListCommandHandler),
  (Cmd.channelRename, channelRenameCommandHandler),
  (Cmd.channelPublish, channelPublishCommandHandler),
  (Cmd.channelSubscribe, channelSubscribeCommandHandler),
  (Cmd.channelPsubscribe, channelPsubscribeCommandHandler),
  (Cmd.channelUnsubscribe, channelUnsubscribeCommandHandler),
  (Cmd.channelPunsubscribe, channelPunsubscribeCommandHandler),
  (Cmd.channelDelete, channelDeleteCommandHandler)]

def parseCommand (c : Ptr) (req : Request) : ServerM Unit :=
  match commands.lookup req.cmd with
  | some handler => do
    modifyClient c fun x => { x with noack := req.noack }
    handler c req
  | none => addStatusResponse c req.cmd Status.errorCommand

end Dispatch

end EagleMQ
