import EagleMQ.Handlers
import EagleMQ.Lib.Run

/-! The server as a transition system. A step is one event of the loop: a
connection, one dispatched request, an answer of the framer, a part of the
responses written, the end of a connection, or a tick of the updater. What the
operating system answers may change between any two steps. -/

namespace EagleMQ

/-! ### Connections -/

def createClient (fd : ℕ) : ServerM (Option Ptr) := do
  let s ← get
  if s.env.fileEvent fd then
    let c := s.fresh
    set { s with
      clientAt := Function.update s.clientAt c
        (some ⟨fd, 0, false, false, [], [], [], [], [], 0, s.env.time, []⟩)
      clients := s.clients ++ [c]
      fresh := c + 1 }
    pure (some c)
  else pure none

/-- `accept_common_handler`. -/
def acceptClient (fd : ℕ) : ServerM Unit := do
  match ← createClient fd with
  | none => pure ()
  | some c =>
    let s ← get
    if s.maxClients < s.clients.length then freeClient c

/-- The result of `write`: a count, `EAGAIN`, or another error. -/
inductive Written where
  | bytes (n : ℕ)
  | again
  | failed

/-- `list_delete_node` on the first response. -/
def dropResponse (c : Ptr) : ServerM Unit := do
  match (← getClient c).responses with
  | [] => throw .link
  | o :: l =>
    modifyClient c fun x => { x with responses := l }
    decrementReferencesCount o

/-- Responses without bytes are not written. -/
def dropEmpty (c : Ptr) : List Ptr → ServerM Unit
  | [] => pure ()
  | o :: l => do
    if (← objectSize o) = 0 then
      dropResponse c
      dropEmpty c l

/-- The end of `send_response`. -/
def finishSend (c : Ptr) (sent : Bool) : ServerM Unit := do
  let time := (← get).env.time
  if sent then modifyClient c fun x => { x with lastAction := time }
  if (← getClient c).responses = [] then
    modifyClient c fun x => { x with sentlen := 0, writable := false }

/-- One turn for each result of `write`; after the last one the socket is full. -/
def sendResponse (c : Ptr) (sent : Bool) : List Written → ServerM Unit
  | [] => do
    dropEmpty c (← getClient c).responses
    finishSend c sent
  | w :: ws => do
    dropEmpty c (← getClient c).responses
    let x ← getClient c
    match x.responses, w with
    | [], _ => finishSend c sent
    | _ :: _, .again => finishSend c sent
    | _ :: _, .failed => freeClient c
    | o :: _, .bytes n =>
      let size ← objectSize o
      let n := min n (size - x.sentlen)
      if n = 0 then finishSend c sent
      else
        if x.sentlen + n = size then
          dropResponse c
          modifyClient c fun x => { x with sentlen := 0 }
        else
          modifyClient c fun x => { x with sentlen := x.sentlen + n }
        sendResponse c true ws

/-! ### The updater -/

def checkMemory : ServerM Unit :=
  modify fun s =>
    if s.maxMemory = 0 then s else { s with nomemory := s.maxMemory < s.env.usedMemory }

def clientTimeouts : ServerM Unit := do
  let s ← get
  if s.clientTimeout ≠ 0 then
    Prog.foreach (do pure (← get).clients) .link fun c => do
      if s.clientTimeout < s.nowTime - (← getClient c).lastAction then freeClient c

def processQueueMessages (q : Ptr) : ServerM Unit := do
  let time := (← get).nowTimems % 4294967296
  withStock q (Stock.processExpiredMessagesQueueT time)
  withStock q (Stock.processUnconfirmedMessagesQueueT time)

/-- No message pass removes a queue, so the list stays put. -/
def processQueuesMessages : ServerM Unit := do
  (← get).queues.forM processQueueMessages

def storageTimeouts : ServerM Unit := do
  modify fun s => if s.child ∧ s.env.childDone then { s with child := false } else s
  let s ← get
  if s.storageTimeout ≠ 0 ∧ s.child = false ∧ s.storageTimeout < s.nowTime - s.lastSave then
    let _ ← storageSaveBackground
    modify fun s => { s with lastSave := s.nowTime }

def serverUpdater : ServerM Unit := do
  modify fun s => { s with nowTime := s.env.time, nowTimems := s.env.mstime, msgCounter := 0 }
  checkMemory
  clientTimeouts
  processQueuesMessages
  storageTimeouts

/-! ### Steps -/

inductive Op where
  | environment (env : Env)
  | connect (fd : ℕ)
  /-- `read_request` has got some bytes. -/
  | receive (c : Ptr)
  /-- The framer dispatches a frame. -/
  | request (c : Ptr) (req : Request)
  /-- The framer answers a malformed frame. -/
  | malformed (c : Ptr)
  | send (c : Ptr) (results : List Written)
  /-- `read` reports the end of the stream or an error. -/
  | close (c : Ptr)
  | tick

section System

variable [Lzf]

def Op.run : Op → ServerM Unit
  | .environment env => modify fun s => { s with env := env }
  | .connect fd => acceptClient fd
  | .receive c => do
    let time := (← get).env.time
    modifyClient c fun x => { x with lastAction := time }
  | .request c req => parseCommand c req
  | .malformed c => addStatusResponse c 0 Status.errorPacket
  | .send c results => sendResponse c false results
  | .close c => freeClient c
  | .tick => serverUpdater

/-- An event of a connection needs the connection, and a request is a whole frame. -/
def Enabled (s : EagleServer) : Op → Prop
  | .environment _ | .connect _ | .tick => True
  | .receive c | .malformed c | .close c => c ∈ s.clients
  | .request c req => c ∈ s.clients ∧ req.Framed
  | .send c _ => c ∈ s.clients ∧ ∃ x, s.clientAt c = some x ∧ x.writable = true

def step (s : EagleServer) (op : Op) : Except Fault EagleServer := (op.run s).map Prod.snd

theorem step_eq_ok {s t : EagleServer} {op : Op} : step s op = .ok t ↔ op.run s = .ok ((), t) := by
  unfold step
  cases op.run s with
  | error e => exact ⟨fun h => (by cases h), fun h => (by cases h)⟩
  | ok r => exact ⟨fun h => by cases h; rfl, fun h => by cases h; rfl⟩

theorem step_eq_error {s : EagleServer} {op : Op} {e : Fault} :
    step s op = .error e ↔ op.run s = .error e := by
  unfold step
  cases op.run s with
  | error e' => exact ⟨fun h => by cases h; rfl, fun h => by cases h; rfl⟩
  | ok r => exact ⟨fun h => (by cases h), fun h => (by cases h)⟩

/-- The configuration; the administrator's strings fit their arrays. -/
structure Config where
  name : Name
  password : Name
  maxClients : ℕ
  maxMemory : ℕ
  clientTimeout : ℕ
  storageTimeout : ℕ
  name_fits : name.length < 32 ∧ 0 ∉ name
  password_fits : password.length < 32 ∧ 0 ∉ password

/-- The user that `init_admin` creates. -/
def Config.admin (cfg : Config) : EagleUser := ⟨cfg.name, cfg.password, Perm.super⟩

/-- `init_server_config` and `init_admin`. -/
def initServer (cfg : Config) (env : Env) : EagleServer where
  name := cfg.name
  password := cfg.password
  maxClients := cfg.maxClients
  maxMemory := cfg.maxMemory
  clientTimeout := cfg.clientTimeout
  storageTimeout := cfg.storageTimeout
  clients := []
  users := [cfg.admin]
  queues := []
  routes := []
  channels := []
  nowTime := env.time
  nowTimems := env.mstime
  startTime := env.time
  lastSave := env.time
  nomemory := false
  msgCounter := 0
  child := false
  clientAt := fun _ => none
  queueAt := fun _ => none
  routeAt := fun _ => none
  channelAt := fun _ => none
  objects := fun _ => none
  fresh := 0
  env := env
  destroyed := []

/-- `destroy_server_config`. A list that is released calls the destructors of its
records, but keeps its nodes until each record is gone. The records of the clients
stay, and no destructor looks at the lists of the clients and of the users. -/
def destroyServerConfig : ServerM Unit := do
  (← get).queues.forM deleteQueueT
  (← get).routes.forM deleteRouteT
  (← get).channels.forM deleteChannelT

/-- The states of a server between two events: after a start without stored data,
after a step, and after a start from the file that another server has saved. -/
inductive Reachable : EagleServer → Prop
  | start (cfg : Config) (env : Env) : Reachable (initServer cfg env)
  | step {s t : EagleServer} (op : Op) (hs : Reachable s) (ha : Enabled s op)
      (ht : EagleMQ.step s op = .ok t) : Reachable t
  | restart {s t : EagleServer} {file : List Byte} (cfg : Config) (env : Env) (hs : Reachable s)
      (hfile : (storageSave s).run = .ok (some file))
      (ht : storageLoad file (initServer cfg env) = .ok (true, t)) : Reachable t

/-- The states that are reached when each step and each restart meets a condition. -/
inductive Guarded (steps : EagleServer → Op → Prop) (restarts : EagleServer → Config → Prop) :
    EagleServer → Prop
  | start (cfg : Config) (env : Env) : Guarded steps restarts (initServer cfg env)
  | step {s t : EagleServer} (op : Op) (hs : Guarded steps restarts s) (ha : Enabled s op) (hop : steps s op)
      (ht : EagleMQ.step s op = .ok t) : Guarded steps restarts t
  | restart {s t : EagleServer} {file : List Byte} (cfg : Config) (env : Env) (hs : Guarded steps restarts s)
      (hcfg : restarts s cfg) (hfile : (storageSave s).run = .ok (some file))
      (ht : storageLoad file (initServer cfg env) = .ok (true, t)) : Guarded steps restarts t

theorem Guarded.reachable {s : EagleServer} {steps : EagleServer → Op → Prop}
    {restarts : EagleServer → Config → Prop}
    (h : Guarded steps restarts s) : Reachable s := by
  induction h with
  | start cfg env => exact .start cfg env
  | step op _ ha _ ht ih => exact .step op ih ha ht
  | restart cfg env _ _ hfile ht ih => exact .restart cfg env ih hfile ht

instance (s : EagleServer) : DecidablePred (Enabled s) := fun op =>
  match op with
  | .environment _ | .connect _ | .tick => .isTrue trivial
  | .receive c | .malformed c | .close c => inferInstanceAs (Decidable (c ∈ s.clients))
  | .request c req => inferInstanceAs (Decidable (c ∈ s.clients ∧ req.Framed))
  | .send c _ =>
    decidable_of_iff (c ∈ s.clients ∧ (s.clientAt c).any EagleClient.writable = true) <| by
      simp [Enabled, Option.any_eq_true]

/-- The state after some events, if each of them can happen and is finished. -/
def replay (s : EagleServer) : List Op → Option EagleServer
  | [] => some s
  | op :: ops => if Enabled s op then (step s op).toOption.bind fun t => replay t ops else none

theorem run_of_replay {s t : EagleServer} {ops : List Op} (ht : replay s ops = some t) :
    Run Enabled EagleMQ.step s t := by
  induction ops generalizing s with
  | nil => exact Option.some.inj ht ▸ .refl
  | cons op ops ih =>
    unfold replay at ht
    split_ifs at ht with ha
    obtain ⟨u, hu, ht⟩ := Option.bind_eq_some_iff.mp ht
    exact (Run.single op ha (Prog.toOption_eq_some.mp hu)).trans (ih ht)

theorem Reachable.run {s t : EagleServer} (hs : Reachable s) (h : Run Enabled EagleMQ.step s t) :
    Reachable t :=
  h.invariant Reachable hs fun _ op _ hu ha hv => hu.step op ha hv

/-- The state after some events, if each of them can happen, is finished and passes a check. -/
def replayIf (check : EagleServer → Op → Bool) (s : EagleServer) : List Op → Option EagleServer
  | [] => some s
  | op :: ops =>
    if Enabled s op ∧ check s op = true then (step s op).toOption.bind fun t => replayIf check t ops
    else none

theorem Guarded.replayIf {steps : EagleServer → Op → Prop} {restarts : EagleServer → Config → Prop}
    {check : EagleServer → Op → Bool} {s t : EagleServer} (hs : Guarded steps restarts s)
    (hcheck : ∀ s op, Reachable s → check s op = true → steps s op) {ops : List Op}
    (ht : EagleMQ.replayIf check s ops = some t) :
    Guarded steps restarts t := by
  induction ops generalizing s with
  | nil => exact Option.some.inj ht ▸ hs
  | cons op ops ih =>
    unfold EagleMQ.replayIf at ht
    split_ifs at ht with ha
    obtain ⟨u, hu, ht⟩ := Option.bind_eq_some_iff.mp ht
    exact ih (hs.step op ha.1 (hcheck s op hs.reachable ha.2) (Prog.toOption_eq_some.mp hu)) ht

theorem Reachable.exists_replay {s : EagleServer} (hs : Reachable s) {ops : List Op}
    {p : EagleServer → Bool} (h : (EagleMQ.replay s ops).any p = true) : ∃ t, Reachable t ∧ p t = true := by
  obtain ⟨t, ht, hp⟩ := (Option.any_eq_true ..).mp h
  exact ⟨t, hs.run (run_of_replay ht), hp⟩

end System

/-! ### A small server -/

/-- The command of an event that dispatches a request. -/
def Op.cmd : Op → Option Byte
  | .request _ req => some req.cmd
  | _ => none

def Op.isTick : Op → Bool
  | .tick => true
  | _ => false

/-- The frame of a command with a body. -/
def Request.frame (cmd : Byte) (body : List Byte) : Request :=
  let frame := leBytes 2 protocolReq ++ [cmd, 0] ++ leBytes 4 body.length ++ body
  ⟨ofList frame, frame.length⟩

namespace Sample

def config : Config := ⟨[97], [98], 10, 0, 0, 0, by decide, by decide⟩

def env : Env := ⟨1000, 1000, 0, 0, 0, 0, 0, fun _ => true, true, true, false⟩

def server : EagleServer := initServer config env

/-- Connect as the administrator; the address of the client is that of the counter. -/
def login (c : Ptr) : List Op :=
  [.connect 5, .request c (.frame Cmd.auth (padded 32 [97] ++ padded 32 [98]))]

/-- A command whose body starts with a name. -/
def named (cmd : Byte) (c : Ptr) (name : Name) (body : List Byte) : Op :=
  .request c (.frame cmd (padded 64 name ++ body))

def queueCreate (c : Ptr) (name : Name) (maxMsg flags : ℕ) : Op :=
  named Cmd.queueCreate c name (leBytes 4 maxMsg ++ leBytes 4 0 ++ leBytes 4 flags)

theorem exists_run (ops : List Op) {p : EagleServer → Bool}
    (h : (@replay Lzf.stored server ops).any p = true) : ∃ t, @Reachable Lzf.stored t ∧ p t = true :=
  @Reachable.exists_replay Lzf.stored _ (@Reachable.start Lzf.stored config env) _ _ h

theorem exists_checked (steps : EagleServer → Op → Prop) (restarts : EagleServer → Config → Prop)
    {c : EagleServer → Op → Bool} (hc : ∀ s op, @Reachable Lzf.stored s → c s op = true →
      steps s op) (ops : List Op)
    {p : EagleServer → Bool} (h : (@replayIf Lzf.stored c server ops).any p = true) :
    ∃ t, @Guarded Lzf.stored steps restarts t ∧ p t = true := by
  obtain ⟨t, ht, hp⟩ := (Option.any_eq_true ..).mp h
  exact ⟨t, @Guarded.replayIf Lzf.stored _ _ _ _ _ (@Guarded.start Lzf.stored _ _ config env) hc _ ht, hp⟩

/-- A tick stops with the fault. -/
def stops (s : EagleServer) (fault : Fault) : Bool :=
  match @step Lzf.stored s .tick with
  | .error e => decide (e = fault)
  | .ok _ => false

theorem error_of_stops {s : EagleServer} {fault : Fault} (h : stops s fault = true) :
    @step Lzf.stored s .tick = .error fault := by
  unfold stops at h
  cases he : @step Lzf.stored s .tick with
  | ok t => simp [he] at h
  | error e => exact congrArg Except.error (by simpa [he] using h)

end Sample

end EagleMQ
