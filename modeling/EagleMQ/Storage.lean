import EagleMQ.QueueT
import EagleMQ.ChannelT

/-! The storage file. Each field is written by `storage_write_data` as two lengths
and its bytes, compressed when the compressor gains something; the two lengths
change places with the two forms. Saving reads the state and may follow stale
links; loading builds a state and gives up on the first malformed record. -/

namespace EagleMQ

/-- The vendored compressor: `lzf_compress` with the room for its output and
`lzf_decompress` with the length expected; no result where the code returns 0. -/
class Lzf where
  compress : List Byte → ℕ → Option (List Byte)
  decompress : List Byte → ℕ → Option (List Byte)

/-- A compressor that never gains anything. -/
@[reducible] def Lzf.stored : Lzf := ⟨fun _ _ => none, fun _ _ => none⟩

namespace StorageType

def user : Byte := 0x1
def queue : Byte := 0x2
def message : Byte := 0x3
def route : Byte := 0x4
def routeKey : Byte := 0x5
def channel : Byte := 0x6
def eof : Byte := 0xFF

end StorageType

/-- `EagleMQ0001`. -/
def storageMagic : List Byte := [69, 97, 103, 108, 101, 77, 81, 48, 48, 48, 49]

/-- The result of an operation on the storage: `none` is `EG_STATUS_ERR`. -/
abbrev StorageM (α : Type) := OptionT (Except Fault) α

def StorageM.fault {α : Type} (e : Fault) : StorageM α := OptionT.lift (.error e)

/-! ### Saving -/

section Save

variable [Lzf]

/-- `fwrite` of no bytes is an error. -/
def storageWrite (data : List Byte) : StorageM (List Byte) :=
  if data = [] then failure else pure data

def storageWriteRaw (data : List Byte) : StorageM (List Byte) := do
  pure (leBytes 4 0 ++ leBytes 4 data.length ++ (← storageWrite data))

def storageWriteData (data : List Byte) : StorageM (List Byte) :=
  if data.length ≤ 4 then storageWriteRaw data
  else
    match Lzf.compress data (data.length - 4) with
    | none => storageWriteRaw data
    | some out => do
      pure (leBytes 4 data.length ++ leBytes 4 out.length ++ (← storageWrite out))

/-- A C string with its terminator. -/
def zeroed (x : List Byte) : List Byte := x ++ [0]

/-- The string that starts at `password`: a password of full length goes on in
the bytes of `perm`. -/
def EagleUser.cPassword (u : EagleUser) : Except Fault (List Byte) :=
  if u.password.length < 32 then .ok u.password
  else if 0 ∈ leBytes 8 u.perm then .ok (u.password ++ (leBytes 8 u.perm).takeWhile (· ≠ 0))
  else .error .overread

/-- The string that starts at `name`, which may go on in the password. -/
def EagleUser.cName (u : EagleUser) : Except Fault (List Byte) :=
  if u.name.length < 32 then .ok u.name else do .ok (u.name ++ (← u.cPassword))

def storageSaveUser (u : EagleUser) : StorageM (List Byte) := do
  let name ← storageWriteData (zeroed (← OptionT.lift u.cName))
  let password ← storageWriteData (zeroed (← OptionT.lift u.cPassword))
  let perm ← storageWriteData (leBytes 8 u.perm)
  pure (StorageType.user :: name ++ password ++ perm)

def storageSaveQueueMessage (msg : Message) (object : Object) : StorageM (List Byte) := do
  let expiration ← storageWriteData (leBytes 4 msg.expiration)
  let value ← storageWriteData object.data
  pure (StorageType.message :: expiration ++ value)

/-- The messages met from a node on, along the `prev` links until there is none. -/
def iterateTail (q : Queue) : ℕ → Option Ptr → Except Fault (List Ptr)
  | _, none => .ok []
  | 0, some _ => .error .spin
  | n + 1, some p => do
    let (_, nd) ← q.node (some p)
    let rest ← iterateTail q n nd.prev
    .ok (nd.value :: rest)

def findMessage (s : EagleServer) (b : Backlog) (m : Ptr) : Except Fault (Message × Object) :=
  match b.messages m with
  | none => .error .message
  | some msg => do
    let object ← Objects.find s.objects msg.value
    .ok (msg, object)

def storageSaveQueueMessages (s : EagleServer) (x : QueueT) : StorageM (List Byte) := do
  let q := x.backlog.queue
  let messages ← OptionT.lift (iterateTail q (q.fresh + 1) q.tail)
  let parts ← messages.mapM fun m => do
    let (msg, object) ← OptionT.lift (findMessage s x.backlog m)
    storageSaveQueueMessage msg object
  pure parts.flatten

def storageSaveQueue (s : EagleServer) (x : QueueT) : StorageM (List Byte) := do
  let name ← storageWriteData (zeroed x.cName)
  let maxMsg ← storageWriteData (leBytes 4 x.maxMsg)
  let maxMsgSize ← storageWriteData (leBytes 4 x.maxMsgSize)
  let flags ← storageWriteData (leBytes 4 x.flags)
  let size ← storageWriteData (leBytes 4 x.size)
  let messages ← storageSaveQueueMessages s x
  pure (StorageType.queue :: name ++ maxMsg ++ maxMsgSize ++ flags ++ size ++ messages)

def findRecord {α : Type} (h : Heap α) (p : Ptr) : StorageM α :=
  match h p with
  | none => .fault .record
  | some x => pure x

def storageSaveRouteKey (s : EagleServer) (k : Name × List Ptr) : StorageM (List Byte) := do
  let key ← storageWriteData (zeroed k.1)
  let size ← storageWriteData (leBytes 4 k.2.length)
  let names ← k.2.mapM fun q => do
    storageWriteData (zeroed (← findRecord s.queueAt q).cName)
  pure (StorageType.routeKey :: key ++ size ++ names.flatten)

def storageSaveRoute (s : EagleServer) (x : RouteT) : StorageM (List Byte) := do
  let name ← storageWriteData (zeroed x.cName)
  let flags ← storageWriteData (leBytes 4 x.flags)
  let size ← storageWriteData (leBytes 4 x.keys.length)
  let keys ← x.keys.mapM (storageSaveRouteKey s)
  pure (StorageType.route :: name ++ flags ++ size ++ keys.flatten)

def storageSaveChannel (x : ChannelT) : StorageM (List Byte) := do
  let name ← storageWriteData (zeroed x.cName)
  let flags ← storageWriteData (leBytes 4 x.flags)
  pure (StorageType.channel :: name ++ flags)

def EagleUser.notChange (u : EagleUser) : Bool := bitCheck u.perm 6

def storageSaveUsers (s : EagleServer) : StorageM (List Byte) := do
  let parts ← (s.users.filter fun u => !u.notChange).mapM storageSaveUser
  pure parts.flatten

/-- Save the durable records of a list. -/
def saveDurable {α : Type} (h : Heap α) (durable : α → Bool) (save : α → StorageM (List Byte))
    (l : List Ptr) : StorageM (List Byte) := do
  let parts ← l.mapM fun p => do
    let x ← findRecord h p
    if durable x then save x else pure []
  pure parts.flatten

def QueueT.durable (x : QueueT) : Bool := bitCheck x.flags 3

def RouteT.durable (x : RouteT) : Bool := bitCheck x.flags 2

def ChannelT.durable (x : ChannelT) : Bool := bitCheck x.flags 2

/-- `storage_save` up to the file operations: the bytes of the file. -/
def storageSave (s : EagleServer) : StorageM (List Byte) := do
  let users ← storageSaveUsers s
  let queues ← saveDurable s.queueAt QueueT.durable (storageSaveQueue s) s.queues
  let routes ← saveDurable s.routeAt RouteT.durable (storageSaveRoute s) s.routes
  let channels ← saveDurable s.channelAt ChannelT.durable storageSaveChannel s.channels
  pure (storageMagic ++ users ++ queues ++ routes ++ channels ++ [StorageType.eof])

end Save

/-! ### Loading -/

/-- A reader of the file: it returns what is left. -/
abbrev Reader (α : Type) := StateT (List Byte) StorageM α

def storageRead (n : ℕ) : Reader (List Byte) := do
  let file ← get
  if n = 0 ∨ file.length < n then failure
  else
    set (file.drop n)
    pure (file.take n)

def storageReadType : Reader Byte := do pure ((← storageRead 1).getD 0 0)

def readU32 : Reader ℕ := do pure (u32 (ofList (← storageRead 4)) 0)

section Load

variable [Lzf]

/-- The bytes that were written to the field, which may be fewer than it has. -/
def storageReadData (maxlen : ℕ) : Reader (List Byte) := do
  let comprlen ← readU32
  let length ← readU32
  if (maxlen < length ∧ comprlen = 0) ∨ maxlen < comprlen then failure
  else if comprlen ≠ 0 then
    match Lzf.decompress (← storageRead length) comprlen with
    | none => failure
    | some data => pure data
  else storageRead length

/-- The payload of a message; a short decompression leaves a part of it unwritten. -/
def storageReadDataObject : Reader (List Byte) := do
  let comprlen ← readU32
  let length ← readU32
  if comprlen ≠ 0 then
    match Lzf.decompress (← storageRead length) comprlen with
    | none => failure
    | some data =>
      if data.length < comprlen then StateT.lift (.fault .uninit) else pure data
  else storageRead length

/-- The use of a numeric field; a short one leaves bytes of it unwritten. -/
def number (n : ℕ) (data : List Byte) : StorageM ℕ :=
  if data.length < n then .fault .uninit else pure (u64 (ofList data) 0)

/-- The use of a name in an array of `n` bytes. -/
def cName (n : ℕ) (data : List Byte) : StorageM Name :=
  if 0 ∈ data then pure (data.takeWhile (· ≠ 0))
  else .fault (if data.length < n then .uninit else .overread)

def readUser : Reader EagleUser := do
  let name ← storageReadData 32
  let password ← storageReadData 32
  let perm ← storageReadData 8
  pure ⟨← StateT.lift (cName 32 name), ← StateT.lift (cName 32 password), ← StateT.lift (number 8 perm)⟩

def readMessage : Reader (ℕ × List Byte) := do
  if (← storageReadType) ≠ StorageType.message then failure
  else
    let expiration ← storageReadData 4
    let data ← storageReadDataObject
    pure (← StateT.lift (number 4 expiration), data)

/-- The fields of a queue in front of its messages. -/
structure QueueHeader where
  name : Name
  maxMsg : ℕ
  maxMsgSize : ℕ
  flags : ℕ
  size : ℕ

def readQueueHeader : Reader QueueHeader := do
  let name ← storageReadData 64
  let maxMsg ← storageReadData 4
  let maxMsgSize ← storageReadData 4
  let flags ← storageReadData 4
  let size ← storageReadData 4
  pure ⟨← StateT.lift (cName 64 name), ← StateT.lift (number 4 maxMsg),
    ← StateT.lift (number 4 maxMsgSize), ← StateT.lift (number 4 flags), ← StateT.lift (number 4 size)⟩

/-- The name, the flags and the number of keys of a route. -/
def readRouteHeader : Reader (Name × ℕ × ℕ) := do
  let name ← storageReadData 64
  let flags ← storageReadData 4
  let keys ← storageReadData 4
  pure (← StateT.lift (cName 64 name), ← StateT.lift (number 4 flags), ← StateT.lift (number 4 keys))

def readRouteKey : Reader (Name × ℕ) := do
  if (← storageReadType) ≠ StorageType.routeKey then failure
  else
    let key ← storageReadData 32
    let size ← storageReadData 4
    pure (← StateT.lift (cName 32 key), ← StateT.lift (number 4 size))

def readQueueName : Reader Name := do
  let name ← storageReadData 64
  StateT.lift (cName 64 name)

def readChannel : Reader (Name × ℕ) := do
  let name ← storageReadData 64
  let flags ← storageReadData 4
  pure (← StateT.lift (cName 64 name), ← StateT.lift (number 4 flags))

/-- A reader within the server: no result is an error of the file. -/
def Reader.run {α : Type} (p : Reader α) (file : List Byte) : ServerM (Option (α × List Byte)) :=
  Prog.lift (StateT.run p file).run

def storageLoadUser (file : List Byte) : ServerM (Option (List Byte)) := do
  match ← readUser.run file with
  | none => pure none
  | some (user, file) =>
    modify fun s => { s with users := s.users ++ [user] }
    pure (some file)

def storageLoadQueueMessages (q : Ptr) : ℕ → List Byte → ServerM (Option (List Byte))
  | 0, file => pure (some file)
  | n + 1, file => do
    match ← readMessage.run file with
    | none => pure none
    | some ((expiration, data), file) =>
      let object ← createObject data
      let _ ← pushMessageQueueT q object expiration
      storageLoadQueueMessages q n file

def storageLoadQueue (file : List Byte) : ServerM (Option (List Byte)) := do
  match ← readQueueHeader.run file with
  | none => pure none
  | some (h, file) =>
    let q ← createQueueT h.name h.maxMsg h.maxMsgSize h.flags
    match ← storageLoadQueueMessages q h.size file with
    | none =>
      deleteQueueT q
      pure none
    | some file =>
      modify fun s => { s with queues := s.queues ++ [q] }
      pure (some file)

/-- A queue that is not there is skipped. -/
def storageLoadRouteKeyQueues (r : Ptr) (key : Name) : ℕ → List Byte → ServerM (Option (List Byte))
  | 0, file => pure (some file)
  | n + 1, file => do
    match ← readQueueName.run file with
    | none => pure none
    | some (name, file) =>
      match ← findQueueT (← get).queues name with
      | none => pure ()
      | some q => bindRouteT r q key
      storageLoadRouteKeyQueues r key n file

def storageLoadRouteKeys (r : Ptr) : ℕ → List Byte → ServerM (Option (List Byte))
  | 0, file => pure (some file)
  | n + 1, file => do
    match ← readRouteKey.run file with
    | none => pure none
    | some ((key, size), file) =>
      match ← storageLoadRouteKeyQueues r key size file with
      | none => pure none
      | some file => storageLoadRouteKeys r n file

def storageLoadRoute (file : List Byte) : ServerM (Option (List Byte)) := do
  match ← readRouteHeader.run file with
  | none => pure none
  | some ((name, flags, keys), file) =>
    let r ← createRouteT name flags
    match ← storageLoadRouteKeys r keys file with
    | none =>
      deleteRouteT r
      pure none
    | some file =>
      modify fun s => { s with routes := s.routes ++ [r] }
      pure (some file)

def storageLoadChannel (file : List Byte) : ServerM (Option (List Byte)) := do
  match ← readChannel.run file with
  | none => pure none
  | some ((name, flags), file) =>
    let ch ← createChannelT name flags
    modify fun s => { s with channels := s.channels ++ [ch] }
    pure (some file)

/-- The record after its type byte. -/
def loadRecord (type : Byte) (file : List Byte) : ServerM (Option (List Byte)) :=
  if type = StorageType.user then storageLoadUser file
  else if type = StorageType.queue then storageLoadQueue file
  else if type = StorageType.route then storageLoadRoute file
  else if type = StorageType.channel then storageLoadChannel file
  else pure none

/-- Record after record until the end mark. Every record has a byte at least, so
the length of the file bounds the turns. -/
def loadRecords : ℕ → List Byte → ServerM Bool
  | 0, _ => pure false
  | n + 1, file => do
    match ← storageReadType.run file with
    | none => pure false
    | some (type, file) =>
      if type = StorageType.eof then pure true
      else
        match ← loadRecord type file with
        | none => pure false
        | some file => loadRecords n file

/-- `atoi` of a string that is not too long for an `int`. -/
def atoi (l : List Byte) : ℤ :=
  let l := l.dropWhile fun c => c == 32 || (9 ≤ c && c ≤ 13)
  let value (l : List Byte) : ℤ :=
    (l.takeWhile isNum).foldl (fun v c => 10 * v + (c.toNat - 48 : ℤ)) 0
  match l with
  | 45 :: l => -value l
  | 43 :: l => value l
  | l => value l

/-- `storage_read_magic` on the bytes of the signature; version 1 is the only one. -/
def magicOk (magic : List Byte) : Bool :=
  magic.take 7 == storageMagic.take 7 && atoi (magic.drop 7) == 1

/-- `storage_load`: where it returns false the server has stopped. -/
def storageLoad (file : List Byte) : ServerM Bool := do
  match ← (storageRead 11).run file with
  | none => pure false
  | some (magic, rest) =>
    if magicOk magic then loadRecords (rest.length + 1) rest else pure false

end Load

end EagleMQ
