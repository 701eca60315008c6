import EagleMQ.Lib.Stdio
import EagleMQ.Storage

/-! `storage_save` call by call: the file is written next to the one that it
replaces, and renamed. The writers write the bytes of the save one item at a time. -/

namespace EagleMQ

open Prog Stdio

namespace File

/-! ### Writers -/

section Writers

variable [Lzf] (io : Calls)

/-- A writer of the storage file. -/
abbrev Writes : Type := Writer String Byte Fault Unit

def storageWrite (data : List Byte) : Writes := put io data

def storageWriteType (type : Byte) : Writes := storageWrite io [type]

/-- The end of `storage_write_data`, where nothing has been compressed. -/
def storageWriteRaw (data : List Byte) : Writes := do
  storageWrite io (leBytes 4 0)
  storageWrite io (leBytes 4 data.length)
  storageWrite io data

def storageWriteData (data : List Byte) : Writes :=
  if data.length ≤ 4 then storageWriteRaw io data
  else
    match Lzf.compress data (data.length - 4) with
    | none => storageWriteRaw io data
    | some out => do
      storageWrite io (leBytes 4 data.length)
      storageWrite io (leBytes 4 out.length)
      storageWrite io out

/-- Read what the server has. -/
def load {α : Type} (x : Except Fault α) : Writer String Byte Fault α := OptionT.lift (Prog.lift x)

def storageWriteMagic : Writes := storageWrite io storageMagic

def storageSaveUser (u : EagleUser) : Writes := do
  storageWriteType io StorageType.user
  storageWriteData io (zeroed (← load u.cName))
  storageWriteData io (zeroed (← load u.cPassword))
  storageWriteData io (leBytes 8 u.perm)

def storageSaveUsers (s : EagleServer) : Writes :=
  (s.users.filter fun u => !u.notChange).forM (storageSaveUser io)

def storageSaveQueueMessage (msg : Message) (object : Object) : Writes := do
  storageWriteType io StorageType.message
  storageWriteData io (leBytes 4 msg.expiration)
  storageWriteData io object.data

/-- The messages from a node on, each of which is written before the next node is read. -/
def storageSaveMessagesFrom (s : EagleServer) (x : QueueT) : ℕ → Option Ptr → Writes
  | _, none => pure ()
  | 0, some _ => do load (.error .spin)
  | n + 1, some p => do
    let (_, nd) ← load (x.backlog.queue.node (some p))
    let (msg, object) ← load (findMessage s x.backlog nd.value)
    storageSaveQueueMessage io msg object
    storageSaveMessagesFrom s x n nd.prev

def storageSaveQueueMessages (s : EagleServer) (x : QueueT) : Writes :=
  storageSaveMessagesFrom io s x (x.backlog.queue.fresh + 1) x.backlog.queue.tail

def storageSaveQueue (s : EagleServer) (x : QueueT) : Writes := do
  storageWriteType io StorageType.queue
  storageWriteData io (zeroed x.cName)
  storageWriteData io (leBytes 4 x.maxMsg)
  storageWriteData io (leBytes 4 x.maxMsgSize)
  storageWriteData io (leBytes 4 x.flags)
  storageWriteData io (leBytes 4 x.size)
  storageSaveQueueMessages io s x

/-- The record at an address. -/
def record {α : Type} (h : Heap α) (p : Ptr) : Except Fault α :=
  match h p with
  | none => .error .record
  | some x => .ok x

def storageSaveRouteKeyQueues (s : EagleServer) (queues : List Ptr) : Writes :=
  queues.forM fun q => do storageWriteData io (zeroed (← load (record s.queueAt q)).cName)

def storageSaveRouteKey (s : EagleServer) (k : Name × List Ptr) : Writes := do
  storageWriteType io StorageType.routeKey
  storageWriteData io (zeroed k.1)
  storageWriteData io (leBytes 4 k.2.length)
  storageSaveRouteKeyQueues io s k.2

def storageSaveRoute (s : EagleServer) (x : RouteT) : Writes := do
  storageWriteType io StorageType.route
  storageWriteData io (zeroed x.cName)
  storageWriteData io (leBytes 4 x.flags)
  storageWriteData io (leBytes 4 x.keys.length)
  x.keys.forM (storageSaveRouteKey io s)

def storageSaveChannel (x : ChannelT) : Writes := do
  storageWriteType io StorageType.channel
  storageWriteData io (zeroed x.cName)
  storageWriteData io (leBytes 4 x.flags)

/-- The durable records of a list. -/
def saveDurable {α : Type} (h : Heap α) (durable : α → Bool) (save : α → Writes) (l : List Ptr) : Writes :=
  l.forM fun p => do
    let x ← load (record h p)
    if durable x then save x

/-- What `storage_save` writes. -/
def storageSaveAll (s : EagleServer) : Writes := do
  storageWriteMagic io
  storageSaveUsers io s
  saveDurable s.queueAt QueueT.durable (storageSaveQueue io s) s.queues
  saveDurable s.routeAt RouteT.durable (storageSaveRoute io s) s.routes
  saveDurable s.channelAt ChannelT.durable (storageSaveChannel io) s.channels
  storageWriteType io StorageType.eof

/-- The name of the temporary file. -/
def tmpfile (pid : ℕ) : String := "eaglemq-" ++ toString pid ++ ".dat"

/-- `storage_save`; `entry` leads from a name to the entry of a directory. The results
of `fflush`, `fsync` and `fclose` are not looked at. -/
def storageSave (entry : String → String) (pid : ℕ) (filename : String) (s : EagleServer) :
    Prog (Disk String Byte) Fault Bool := do
  let tmp := entry (tmpfile pid)
  if ← fopen io tmp then
    match ← (storageSaveAll io s).run with
    | some () =>
      let _ ← fflush io
      let _ ← fsync io
      let _ ← fclose io tmp
      if ← rename io tmp (entry filename) then pure true
      else
        let _ ← unlink io tmp
        pure false
    | none =>
      let _ ← fclose io tmp
      let _ ← unlink io tmp
      pure false
  else pure false

end Writers

/-! ### The bytes of the save -/

section Emits

theorem emits_write (data : List Byte) :
    Emits (fun io => storageWrite io data) (EagleMQ.storageWrite data) := emits_put data

/-- Some bytes are one item. -/
theorem emits_item {data : List Byte} (h : data ≠ []) :
    Emits (fun io => storageWrite io data) (pure data : StorageM (List Byte)) := by
  have hput := emits_write data
  rwa [EagleMQ.storageWrite, if_neg h] at hput

theorem emits_type (type : Byte) :
    Emits (fun io => storageWriteType io type) (pure [type] : StorageM (List Byte)) :=
  emits_item (List.cons_ne_nil _ _)

theorem emits_number (n : ℕ) :
    Emits (fun io => storageWrite io (leBytes 4 n)) (pure (leBytes 4 n) : StorageM (List Byte)) :=
  emits_item (List.cons_ne_nil _ _)

theorem emits_load {α : Type} (x : Except Fault α) {m : α → Calls → Writes} {p : α → StorageM (List Byte)}
    (h : ∀ a, x = .ok a → Emits (m a) (p a)) :
    Emits (fun io => load x >>= fun a => m a io) (OptionT.lift x >>= p) :=
  emits_lift x h

theorem emits_raw (data : List Byte) :
    Emits (fun io => storageWriteRaw io data) (EagleMQ.storageWriteRaw data) :=
  ((emits_number 0).append ((emits_number data.length).append (emits_write data))).of_yields fun out => by
    simp [EagleMQ.storageWriteRaw]

variable [Lzf]

theorem emits_data (data : List Byte) :
    Emits (fun io => storageWriteData io data) (EagleMQ.storageWriteData data) := by
  unfold storageWriteData EagleMQ.storageWriteData
  split_ifs
  · exact emits_raw data
  · cases Lzf.compress data (data.length - 4) with
    | none => exact emits_raw data
    | some out =>
      exact ((emits_number data.length).append
        ((emits_number out.length).append (emits_write out))).of_yields fun out => by
        simp

theorem emits_user (u : EagleUser) : Emits (fun io => storageSaveUser io u) (EagleMQ.storageSaveUser u) :=
  ((emits_type StorageType.user).append (emits_load u.cName fun name _ => (emits_data (zeroed name)).append
    (emits_load u.cPassword fun password _ => (emits_data (zeroed password)).append
    (emits_data (leBytes 8 u.perm))))).of_yields
      fun data => by
    simp [EagleMQ.storageSaveUser, yields_bind, yields_lift]

theorem emits_users (s : EagleServer) :
    Emits (fun io => storageSaveUsers io s) (EagleMQ.storageSaveUsers s) :=
  emits_forM fun u _ => emits_user u

theorem emits_message (msg : Message) (object : Object) :
    Emits (fun io => storageSaveQueueMessage io msg object) (EagleMQ.storageSaveQueueMessage msg object) :=
  ((emits_type StorageType.message).append
    ((emits_data (leBytes 4 msg.expiration)).append (emits_data object.data))).of_yields
    fun data => by simp [EagleMQ.storageSaveQueueMessage, yields_bind]

/-- The nodes are read one by one, and all of them before the first message. -/
theorem emits_messages (s : EagleServer) (x : QueueT) : ∀ (n : ℕ) (p : Option Ptr),
    Emits (fun io => storageSaveMessagesFrom io s x n p)
      (OptionT.lift (iterateTail x.backlog.queue n p) >>= fun messages =>
      messages.mapM (fun m => do
        let (msg, object) ← OptionT.lift (findMessage s x.backlog m)
        EagleMQ.storageSaveQueueMessage msg object) >>= fun parts => pure parts.flatten)
  | 0, none => emits_pure.of_yields fun data => by simp [iterateTail, yields_bind, yields_lift, yields_pure]
  | n + 1, none =>
    emits_pure.of_yields fun data => by simp [iterateTail, yields_bind, yields_lift, yields_pure]
  | 0, some p =>
    ⟨[], .error .spin, by simp, fun _ => rfl, fun data => by simp [iterateTail, yields_bind, yields_lift]⟩
  | n + 1, some p => by
    refine (emits_load (x.backlog.queue.node (some p)) fun nd _ => emits_load
      (findMessage s x.backlog nd.2.value) fun y _ =>
      (emits_message y.1 y.2).append (emits_messages s x n nd.2.prev)).of_yields fun data => ?_
    have hiterate : iterateTail x.backlog.queue (n + 1) (some p) =
      (x.backlog.queue.node (some p)).bind fun nd =>
      (iterateTail x.backlog.queue n nd.2.prev).bind fun rest => .ok (nd.2.value :: rest) := rfl
    rw [hiterate]
    cases x.backlog.queue.node (some p) with
    | error e => simp [Except.bind, yields_bind, yields_lift]
    | ok nd =>
      cases hrest : iterateTail x.backlog.queue n nd.2.prev with
      | error e => simp [Except.bind, yields_bind, yields_lift, hrest]
      | ok rest => simp [Except.bind, yields_bind, yields_lift, hrest]

theorem emits_queue (s : EagleServer) (x : QueueT) :
    Emits (fun io => storageSaveQueue io s x) (EagleMQ.storageSaveQueue s x) :=
  ((emits_type StorageType.queue).append
    ((emits_data (zeroed x.cName)).append ((emits_data (leBytes 4 x.maxMsg)).append
    ((emits_data (leBytes 4 x.maxMsgSize)).append
      ((emits_data (leBytes 4 x.flags)).append ((emits_data (leBytes 4 x.size)).append
      (emits_messages s x _ _))))))).of_yields fun data => by
    simp [EagleMQ.storageSaveQueue, EagleMQ.storageSaveQueueMessages, yields_bind]

omit [Lzf] in
/-- A record that is looked up. -/
theorem emits_record {α : Type} (h : Heap α) (p : Ptr) {m : α → Calls → Writes} {k : α → StorageM (List Byte)}
    (hk : ∀ x, Emits (m x) (k x)) :
    Emits (fun io => load (record h p) >>= fun x => m x io) (findRecord h p >>= k) :=
  (emits_load (record h p) fun x _ => hk x).of_yields fun data => by
    unfold record findRecord
    cases h p with
    | none => simp [yields_bind, yields_lift, StorageM.fault]
    | some x => simp [yields_bind, yields_lift]

theorem emits_routeKey (s : EagleServer) (k : Name × List Ptr) :
    Emits (fun io => storageSaveRouteKey io s k) (EagleMQ.storageSaveRouteKey s k) :=
  ((emits_type StorageType.routeKey).append
    ((emits_data (zeroed k.1)).append ((emits_data (leBytes 4 k.2.length)).append
    (emits_forM (l := k.2) fun q _ => emits_record s.queueAt q fun x => emits_data
      (zeroed x.cName))))).of_yields fun data => by
    simp [EagleMQ.storageSaveRouteKey, yields_bind]

theorem emits_route (s : EagleServer) (x : RouteT) :
    Emits (fun io => storageSaveRoute io s x) (EagleMQ.storageSaveRoute s x) :=
  ((emits_type StorageType.route).append
    ((emits_data (zeroed x.cName)).append ((emits_data (leBytes 4 x.flags)).append
    ((emits_data (leBytes 4 x.keys.length)).append
      (emits_forM (l := x.keys) fun k _ => emits_routeKey s k))))).of_yields
      fun data => by simp [EagleMQ.storageSaveRoute, yields_bind]

theorem emits_channel (x : ChannelT) :
    Emits (fun io => storageSaveChannel io x) (EagleMQ.storageSaveChannel x) :=
  ((emits_type StorageType.channel).append
    ((emits_data (zeroed x.cName)).append (emits_data (leBytes 4 x.flags)))).of_yields
    fun data => by simp [EagleMQ.storageSaveChannel, yields_bind]

omit [Lzf] in
theorem emits_durable {α : Type} (h : Heap α) (durable : α → Bool) {m : α → Calls → Writes}
    {k : α → StorageM (List Byte)}
    (hk : ∀ x, Emits (m x) (k x)) (l : List Ptr) :
    Emits (fun io => saveDurable h durable (fun x => m x io) l) (EagleMQ.saveDurable h durable k l) :=
  emits_forM fun p _ => emits_record h p fun x => by
    cases durable x with
    | false => exact emits_pure
    | true => exact hk x

/-- The writers of `storage_save` write the bytes of the save. -/
theorem emits_all (s : EagleServer) : Emits (fun io => storageSaveAll io s) (EagleMQ.storageSave s) :=
  ((emits_item (List.cons_ne_nil _ _)).append ((emits_users s).append
    ((emits_durable s.queueAt QueueT.durable (emits_queue s) s.queues).append
      ((emits_durable s.routeAt RouteT.durable (emits_route s) s.routes).append
        ((emits_durable s.channelAt ChannelT.durable emits_channel s.channels).append
        (emits_type StorageType.eof)))))).of_yields
          fun data => by
    simp [EagleMQ.storageSave, yields_bind, storageMagic]

end Emits

end File

end EagleMQ
