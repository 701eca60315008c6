import EagleMQ.Links.Records

/-! What a request can do, said once: past its checks every handler is one of a
few operations, and each of them comes with what the checks have established.
The lookups are known to succeed in a state whose relations are consistent. -/

namespace EagleMQ

open Prog

/-! ### Permissions of the commands -/

/-- Table 1 of the README, with the administrator: a command needs one of the bits. -/
def permTable : List (Byte × List ℕ) := [
  (Cmd.stat, [Perm.admin]),
  (Cmd.save, [Perm.admin]),
  (Cmd.flush, [Perm.admin]),
  (Cmd.userCreate, [Perm.admin]),
  (Cmd.userList, [Perm.admin]),
  (Cmd.userRename, [Perm.admin]),
  (Cmd.userSetPerm, [Perm.admin]),
  (Cmd.userDelete, [Perm.admin]),
  (Cmd.queueCreate, [Perm.admin, Perm.queue, Perm.queueCreate]),
  (Cmd.queueDeclare, [Perm.admin, Perm.queue, Perm.queueDeclare]),
  (Cmd.queueExist, [Perm.admin, Perm.queue, Perm.queueExist]),
  (Cmd.queueList, [Perm.admin, Perm.queue, Perm.queueList]),
  (Cmd.queueRename, [Perm.admin, Perm.queue, Perm.queueRename]),
  (Cmd.queueSize, [Perm.admin, Perm.queue, Perm.queueSize]),
  (Cmd.queuePush, [Perm.admin, Perm.queue, Perm.queuePush]),
  (Cmd.queueGet, [Perm.admin, Perm.queue, Perm.queueGet]),
  (Cmd.queuePop, [Perm.admin, Perm.queue, Perm.queuePop]),
  (Cmd.queueConfirm, [Perm.admin, Perm.queue, Perm.queueConfirm]),
  (Cmd.queueSubscribe, [Perm.admin, Perm.queue, Perm.queueSubscribe]),
  (Cmd.queueUnsubscribe, [Perm.admin, Perm.queue, Perm.queueUnsubscribe]),
  (Cmd.queuePurge, [Perm.admin, Perm.queue, Perm.queuePurge]),
  (Cmd.queueDelete, [Perm.admin, Perm.queue, Perm.queueDelete]),
  (Cmd.routeCreate, [Perm.admin, Perm.route, Perm.routeCreate]),
  (Cmd.routeExist, [Perm.admin, Perm.route, Perm.routeExist]),
  (Cmd.routeList, [Perm.admin, Perm.route, Perm.routeList]),
  (Cmd.routeKeys, [Perm.admin, Perm.route, Perm.routeKeys]),
  (Cmd.routeRename, [Perm.admin, Perm.route, Perm.routeRename]),
  (Cmd.routeBind, [Perm.admin, Perm.route, Perm.routeBind]),
  (Cmd.routeUnbind, [Perm.admin, Perm.route, Perm.routeUnbind]),
  (Cmd.routePush, [Perm.admin, Perm.route, Perm.routePush]),
  (Cmd.routeDelete, [Perm.admin, Perm.route, Perm.routeDelete]),
  (Cmd.channelCreate, [Perm.admin, Perm.channel, Perm.channelCreate]),
  (Cmd.channelExist, [Perm.admin, Perm.channel, Perm.channelExist]),
  (Cmd.channelList, [Perm.admin, Perm.channel, Perm.channelList]),
  (Cmd.channelRename, [Perm.admin, Perm.channel, Perm.channelRename]),
  (Cmd.channelPublish, [Perm.admin, Perm.channel, Perm.channelPublish]),
  (Cmd.channelSubscribe, [Perm.admin, Perm.channel, Perm.channelSubscribe]),
  (Cmd.channelPsubscribe, [Perm.admin, Perm.channel, Perm.channelPsubscribe]),
  (Cmd.channelUnsubscribe, [Perm.admin, Perm.channel, Perm.channelUnsubscribe]),
  (Cmd.channelPunsubscribe, [Perm.admin, Perm.channel, Perm.channelPunsubscribe]),
  (Cmd.channelDelete, [Perm.admin, Perm.channel, Perm.channelDelete])]

def requiredPerms (cmd : Byte) : List ℕ := (permTable.lookup cmd).getD []

/-- The client has one of the permissions that the command needs. -/
def Authorized (s : EagleServer) (c : Ptr) (cmd : Byte) : Prop :=
  ∃ x, s.clientAt c = some x ∧ (requiredPerms cmd).any (bitCheck x.perm) = true

/-- A name that a validator has accepted in the field of a request. -/
def Accepted (req : Request) (check : (ℕ → Byte) → ℕ → ℕ) (i size : ℕ) (name : Name) : Prop :=
  ∃ n, n ≠ 0 ∧ check (fun j => req.mem (i + j)) size = n ∧ name = slice req.mem i n

/-- The record that the name in the first field of a request leads to. -/
def Names (req : Request) (nameOf : Ptr → Option Name) (l : List Ptr) (p : Ptr) : Prop :=
  ∃ name, Accepted req checkInputBuffer2 8 64 name ∧ findNamed nameOf name l = .ok (some p)

theorem Names.mem {req : Request} {nameOf : Ptr → Option Name} {l : List Ptr} {p : Ptr}
    (h : Names req nameOf l p) : p ∈ l := by
  obtain ⟨name, -, hfind⟩ := h
  exact (findNamed_some name hfind).1

/-- The validator of a topic or pattern. -/
def Side.check : Side → (ℕ → Byte) → ℕ → ℕ
  | .topic => checkInputBuffer1
  | .pattern => checkInputBuffer3

def Side.unsubscribeCmd : Side → Byte
  | .topic => Cmd.channelUnsubscribe
  | .pattern => Cmd.channelPunsubscribe

/-- A frame with the name and the password of a user. -/
structure Authenticates (users : List EagleUser) (req : Request) (user : EagleUser) : Prop where
  cmd : req.cmd = Cmd.auth
  found : ∃ name password, Accepted req checkInputBuffer2 8 32 name ∧
    Accepted req checkInputBuffer1 40 32 password ∧
    (findUser users name (some password)).bind (users[·]?) = some user

/-! ### Operations -/

/-- The changes of the list of users. -/
inductive UserChange (users : List EagleUser) (req : Request) : (List EagleUser → List EagleUser) → Prop
  | create (name password : Name) (perm : ℕ) (hname : Accepted req checkInputBuffer2 8 32 name)
      (hpassword : Accepted req checkInputBuffer1 40 32 password)
      (hfree : findUser users name none = none) (hcmd : req.cmd = Cmd.userCreate)
      (hpos : 80 ≤ req.pos) :
      UserChange users req fun users => users ++ [⟨name, password, perm⟩]
  | rename (i : ℕ) (name : Name) (hname : Accepted req checkInputBuffer2 40 32 name)
      (hfree : findUser users name none = none) (hi : (users[i]?).any EagleUser.notChange = false) :
      UserChange users req fun users => users.modify i fun u => u.rename name
  | setPerm (i perm : ℕ) (hi : (users[i]?).any EagleUser.notChange = false) :
      UserChange users req fun users => users.modify i fun u => { u with perm := perm }
  | delete (i : ℕ) (hi : (users[i]?).any EagleUser.notChange = false) :
      UserChange users req fun users => users.eraseIdx i

section Effect

variable [Lzf]

/-- The operations that a request of a client can lead to, with what is known
when they run. -/
inductive Effect (s : EagleServer) (c : Ptr) (req : Request) : ServerM Unit → Prop
  | status (cmd status : Byte) : Effect s c req (addStatusResponse c cmd status)
  | auth (user : EagleUser) (hu : Authenticates s.users req user) :
      Effect s c req do
        modifyClient c fun x => { x with perm := user.perm }
        respond c req Status.success
  | disconnect (hcmd : req.cmd = Cmd.disconnect) : Effect s c req (freeClient c)
  | data (body : List Byte) (ha : Authorized s c req.cmd) : Effect s c req (dataResponse c req body)
  | fault (e : Fault) (ha : Authorized s c req.cmd) (he : e = .overread ∨ e = .overflow) :
      Effect s c req (throw e)
  | save (async : Bool) (ha : Authorized s c req.cmd) (hcmd : req.cmd = Cmd.save) (hpos : 9 ≤ req.pos)
      (hasync : async = (req.mem 8 != 0)) : Effect s c req (saveData c req async)
  | flush (flags : ℕ) (ha : Authorized s c req.cmd) (hcmd : req.cmd = Cmd.flush)
      (hflags : flags = req.u32 8) (hpos : 12 ≤ req.pos) : Effect s c req (flushData c req flags)
  | users (f : List EagleUser → List EagleUser) (ha : Authorized s c req.cmd)
      (hf : UserChange s.users req f) :
      Effect s c req do
        modifyUsers f
        respond c req Status.success
  | queueCreate (name : Name) (maxMsg maxMsgSize flags : ℕ) (ha : Authorized s c req.cmd)
      (hname : Accepted req checkInputBuffer2 8 64 name)
      (hfree : ∀ q ∈ s.queues, ∀ x, s.queueAt q = some x → x.cName ≠ name) (hmax : maxMsg ≠ 0)
      (hcmd : req.cmd = Cmd.queueCreate) (hpos : 84 ≤ req.pos) (hmsg : maxMsg = req.u32 72)
      (hsize : maxMsgSize ≤ EagleMQ.maxMsgSize) (hflags : flags = req.u32 80) :
      Effect s c req (createQueue c req name maxMsg maxMsgSize flags)
  | queueDeclare (q : Ptr) (ha : Authorized s c req.cmd) (hq : q ∈ s.queues)
      (hnew : q ∉ (links s).declaredQueues c) :
      Effect s c req do
        declareClientQueueT q c
        respond c req Status.success
  | queueRename (q : Ptr) (name : Name) (ha : Authorized s c req.cmd) (hq : q ∈ s.queues)
      (hname : Accepted req checkInputBuffer2 72 64 name)
      (hfree : ∀ q ∈ s.queues, ∀ x, s.queueAt q = some x → x.cName ≠ name)
      (hcmd : req.cmd = Cmd.queueRename) (hpos : 136 ≤ req.pos) (hold : Names req s.queueName s.queues q) :
      Effect s c req do
        renameQueueT q name
        respond c req Status.success
  | queuePush (q : Ptr) (ha : Authorized s c req.cmd) (hq : q ∈ (links s).declaredQueues c)
      (hcmd : req.cmd = Cmd.queuePush) (hpos : 77 ≤ req.pos)
      (hname : Names req s.queueName ((links s).declaredQueues c) q) (hmem : s.nomemory = false) :
      Effect s c req (pushToQueue c req q)
  | queueGet (q : Ptr) (ha : Authorized s c req.cmd) (hq : q ∈ (links s).declaredQueues c)
      (hcmd : req.cmd = Cmd.queueGet) (hpos : 72 ≤ req.pos)
      (hname : Names req s.queueName ((links s).declaredQueues c) q) :
      Effect s c req (getFromQueue c req q)
  | queuePop (q : Ptr) (ha : Authorized s c req.cmd) (hq : q ∈ (links s).declaredQueues c)
      (hcmd : req.cmd = Cmd.queuePop) (hpos : 76 ≤ req.pos)
      (hname : Names req s.queueName ((links s).declaredQueues c) q) :
      Effect s c req (popFromQueue c req q)
  | queueConfirm (q : Ptr) (ha : Authorized s c req.cmd) (hq : q ∈ (links s).declaredQueues c)
      (hcmd : req.cmd = Cmd.queueConfirm) (hpos : 80 ≤ req.pos)
      (hname : Names req s.queueName ((links s).declaredQueues c) q) :
      Effect s c req (confirmInQueue c req q)
  | queueSubscribe (q flags : ℕ) (ha : Authorized s c req.cmd)
      (hq : q ∈ (links s).declaredQueues c) (hnew : q ∉ (links s).subscribedQueues c) :
      Effect s c req do
        subscribeClientQueueT q c flags
        respond c req Status.success
  | queueUnsubscribe (q : Ptr) (ha : Authorized s c req.cmd) (hq : q ∈ (links s).declaredQueues c) :
      Effect s c req do
        unsubscribeClientQueueT q c
        respond c req Status.success
  | queuePurge (q : Ptr) (ha : Authorized s c req.cmd) (hq : q ∈ (links s).declaredQueues c)
      (hcmd : req.cmd = Cmd.queuePurge) (hpos : 72 ≤ req.pos)
      (hname : Names req s.queueName ((links s).declaredQueues c) q) :
      Effect s c req do
        withStock q Stock.purgeQueueT
        respond c req Status.success
  | queueDelete (q : Ptr) (ha : Authorized s c req.cmd) (hq : q ∈ s.queues)
      (hcmd : req.cmd = Cmd.queueDelete) (hname : Names req s.queueName s.queues q) (hpos : 72 ≤ req.pos) :
      Effect s c req (reportResult c req (listDeleteQueue q))
  | routeCreate (name : Name) (flags : ℕ) (ha : Authorized s c req.cmd)
      (hname : Accepted req checkInputBuffer2 8 64 name)
      (hfree : ∀ r ∈ s.routes, ∀ x, s.routeAt r = some x → x.cName ≠ name)
      (hcmd : req.cmd = Cmd.routeCreate) (hpos : 76 ≤ req.pos) (hflags : flags = req.u32 72) :
      Effect s c req (createRoute c req name flags)
  | routeRename (r : Ptr) (name : Name) (ha : Authorized s c req.cmd) (hr : r ∈ s.routes)
      (hname : Accepted req checkInputBuffer2 72 64 name)
      (hfree : ∀ r ∈ s.routes, ∀ x, s.routeAt r = some x → x.cName ≠ name) :
      Effect s c req do
        renameRouteT r name
        respond c req Status.success
  | routeBind (r q : Ptr) (key : Name) (ha : Authorized s c req.cmd) (hr : r ∈ s.routes)
      (hq : q ∈ s.queues) (hkey : Accepted req checkInputBuffer1 136 32 key) :
      Effect s c req do
        bindRouteT r q key
        respond c req Status.success
  | routeUnbind (r q : Ptr) (key : Name) (ha : Authorized s c req.cmd) (hr : r ∈ s.routes)
      (hq : q ∈ s.queues) : Effect s c req (reportResult c req (unbindRouteT r q key))
  | routePush (r : Ptr) (key : Name) (ha : Authorized s c req.cmd) (hr : r ∈ s.routes)
      (hcmd : req.cmd = Cmd.routePush) (hpos : 109 ≤ req.pos) (hname : Names req s.routeName s.routes r)
      (hkey : Accepted req checkInputBuffer1 72 32 key) (hmem : s.nomemory = false) :
      Effect s c req (pushToRoute c req r key)
  | routeDelete (r : Ptr) (ha : Authorized s c req.cmd) (hr : r ∈ s.routes)
      (hcmd : req.cmd = Cmd.routeDelete) (hname : Names req s.routeName s.routes r) :
      Effect s c req (reportResult c req (listDeleteRoute r))
  | channelCreate (name : Name) (flags : ℕ) (ha : Authorized s c req.cmd)
      (hname : Accepted req checkInputBuffer2 8 64 name)
      (hfree : ∀ ch ∈ s.channels, ∀ x, s.channelAt ch = some x → x.cName ≠ name)
      (hcmd : req.cmd = Cmd.channelCreate) (hpos : 76 ≤ req.pos) (hflags : flags = req.u32 72) :
      Effect s c req (createChannel c req name flags)
  | channelRename (ch : Ptr) (name : Name) (ha : Authorized s c req.cmd) (hch : ch ∈ s.channels)
      (hname : Accepted req checkInputBuffer2 72 64 name)
      (hfree : ∀ ch ∈ s.channels, ∀ x, s.channelAt ch = some x → x.cName ≠ name) :
      Effect s c req do
        renameChannelT ch name
        respond c req Status.success
  | channelPublish (ch : Ptr) (topic : Name) (ha : Authorized s c req.cmd) (hch : ch ∈ s.channels) :
      Effect s c req (publishToChannel c req ch topic)
  | channelSubscribe (d : Side) (ch : Ptr) (name : Name) (ha : Authorized s c req.cmd)
      (hch : ch ∈ s.channels) :
      Effect s c req do
        subscribeSide d ch c name
        respond c req Status.success
  | channelUnsubscribe (d : Side) (ch : Ptr) (name : Name) (ha : Authorized s c req.cmd)
      (hch : ch ∈ s.channels) (hcmd : req.cmd = d.unsubscribeCmd) (hpos : 104 ≤ req.pos)
      (hname : Names req s.channelName s.channels ch) (htopic : Accepted req d.check 72 32 name) :
      Effect s c req do
        if !(← unsubscribeSide d ch c name) then respond c req Status.errorNotFound
        respond c req Status.success
  | channelDelete (ch : Ptr) (ha : Authorized s c req.cmd) (hch : ch ∈ s.channels)
      (hcmd : req.cmd = Cmd.channelDelete) (hname : Names req s.channelName s.channels ch) :
      Effect s c req (reportResult c req (listDeleteChannel ch))

/-- At a state a program does what one of the operations does. -/
def Acts (s : EagleServer) (c : Ptr) (req : Request) (m : ServerM Unit) : Prop :=
  ∃ m', Effect s c req m' ∧ m s = m' s

/-! ### Checks -/

section Checks

variable {s : EagleServer} {c : Ptr} {req : Request} {m k : ServerM Unit}

theorem acts_of (h : Effect s c req m) : Acts s c req m := ⟨m, h, rfl⟩

theorem acts_respond (status : Byte) : Acts s c req (respond c req status) :=
  acts_of (.status req.cmd status)

theorem acts_requirePacket (size : ℕ) (h : size ≤ req.pos → Acts s c req k) :
    Acts s c req (requirePacket c req size k) := by
  unfold requirePacket
  split_ifs with hsize
  · exact acts_of (.status 0 Status.errorPacket)
  · exact h (Nat.not_lt.mp hsize)

theorem acts_bind {α : Type} {f : ServerM α} {g : α → ServerM Unit} {a : α}
    (hf : f s = .ok (a, s)) (h : Acts s c req (g a)) : Acts s c req (f >>= g) := by
  obtain ⟨m', he, hm⟩ := h
  refine ⟨m', he, ?_⟩
  rw [← hm]
  simp only [bind, StateT.bind, Except.bind, hf]

theorem acts_fault {α : Type} {f : ServerM α} {g : α → ServerM Unit} {e : Fault}
    (ha : Authorized s c req.cmd) (hf : f s = .error e) (he : e = .overread ∨ e = .overflow) :
    Acts s c req (f >>= g) := by
  refine ⟨_, .fault e ha he, ?_⟩
  simp only [bind, StateT.bind, Except.bind, hf]
  rfl

theorem acts_requirePerm {bits : List ℕ} (hc : (links s).clients.alive c = true)
    (hbits : requiredPerms req.cmd = bits) (h : Authorized s c req.cmd → Acts s c req k) :
    Acts s c req (requirePerm c req bits k) := by
  obtain ⟨x, hx⟩ := client_alive.mp hc
  refine acts_bind (run_getClient hx) ?_
  split_ifs with hp
  · exact h ⟨x, hx, hbits ▸ hp⟩
  · exact acts_respond _

theorem acts_requireField {check : (ℕ → Byte) → ℕ → ℕ} {i size : ℕ} {k : Name → ServerM Unit}
    (h : ∀ name, Accepted req check i size name → Acts s c req (k name)) :
    Acts s c req (requireField c req check i size k) := by
  unfold requireField
  dsimp only
  split_ifs with hn
  · exact acts_respond _
  · exact h _ ⟨_, hn, rfl, rfl⟩

variable {find : ServerM (Option Ptr)} {nameOf : Ptr → Option Name} {l : List Ptr} {name : Name}

theorem acts_requireFound {status : Byte} {k : Ptr → ServerM Unit}
    (hl : ∃ r, Lookup s find nameOf l name r)
    (h : ∀ p ∈ l, nameOf p = some name → findNamed nameOf name l = .ok (some p) → Acts s c req (k p)) :
    Acts s c req (requireFound c req status find k) := by
  obtain ⟨r, hrun, hresult, hfound, -⟩ := hl
  refine acts_bind hrun ?_
  cases r with
  | none => exact acts_respond _
  | some p => exact h p (hfound p rfl).1 (hfound p rfl).2 hresult

theorem acts_requireFree {status : Byte} (hl : ∃ r, Lookup s find nameOf l name r)
    (h : (∀ p ∈ l, nameOf p ≠ some name) → Acts s c req k) :
    Acts s c req (requireFree c req status find k) := by
  obtain ⟨r, hrun, -, -, hfree⟩ := hl
  refine acts_bind hrun ?_
  cases r with
  | none => exact h (hfree rfl)
  | some p => exact acts_respond _

theorem acts_requireMemory (h : s.nomemory = false → Acts s c req k) :
    Acts s c req (requireMemory c req k) := by
  refine acts_bind (a := s) rfl ?_
  split_ifs with hmem
  · exact acts_respond _
  · exact h (by simpa using hmem)

end Checks

/-! ### Handlers -/

section Handlers

variable {s : EagleServer} {c : Ptr} {req : Request}

theorem authCommandHandler_acts (hcmd : req.cmd = Cmd.auth) :
    Acts s c req (authCommandHandler c req) := by
  refine acts_requirePacket _ fun _ => acts_requireField fun name hname =>
    acts_requireField fun password hpassword => ?_
  refine acts_bind (a := s) rfl ?_
  dsimp only
  cases hu : (findUser s.users name (some password)).bind (s.users[·]?) with
  | none => exact acts_respond _
  | some user => exact acts_of (.auth user ⟨hcmd, name, password, hname, hpassword, hu⟩)

theorem pingCommandHandler_acts : Acts s c req (pingCommandHandler c req) :=
  acts_requirePacket _ fun _ => acts_respond _

theorem disconnectCommandHandler_acts (hcmd : req.cmd = Cmd.disconnect) :
    Acts s c req (disconnectCommandHandler c req) :=
  acts_requirePacket _ fun _ => acts_of (.disconnect hcmd)

omit [Lzf] in
theorem userEntry_reads (s : EagleServer) (u : EagleUser) :
    (∃ a, userEntry u s = .ok (a, s)) ∨ ∃ e, userEntry u s = .error e ∧ e = .overread := by
  unfold userEntry EagleUser.cPassword
  split_ifs
  · exact .inl ⟨_, rfl⟩
  · exact .inl ⟨_, rfl⟩
  · exact .inr ⟨_, rfl, rfl⟩

variable (hc : (links s).clients.alive c = true)

section Users

include hc

theorem statCommandHandler_acts (hcmd : requiredPerms req.cmd = [Perm.admin]) :
    Acts s c req (statCommandHandler c req) :=
  acts_requirePacket _ fun _ => acts_requirePerm hc hcmd fun ha =>
    acts_bind (a := s) rfl (acts_of (.data _ ha))

theorem saveCommandHandler_acts (hcmd : req.cmd = Cmd.save) :
    Acts s c req (saveCommandHandler c req) :=
  acts_requirePacket _ fun hpos => acts_requirePerm hc (by rw [hcmd]; rfl) fun ha =>
    acts_of (.save _ ha hcmd hpos rfl)

theorem flushCommandHandler_acts (hcmd : req.cmd = Cmd.flush) :
    Acts s c req (flushCommandHandler c req) :=
  acts_requirePacket _ fun hpos => acts_requirePerm hc (by rw [hcmd]; rfl) fun ha =>
    acts_of (.flush _ ha hcmd rfl hpos)

theorem userCreateCommandHandler_acts (hcmd : req.cmd = Cmd.userCreate) :
    Acts s c req (userCreateCommandHandler c req) := by
  refine acts_requirePacket _ fun hpos => acts_requirePerm hc (by rw [hcmd]; rfl) fun ha =>
    acts_requireField fun name hname => acts_requireField fun password hpassword =>
      acts_bind (a := s) rfl ?_
  cases hu : findUser s.users name none with
  | none => exact acts_of (.users _ ha (.create name password _ hname hpassword hu hcmd hpos))
  | some i => exact acts_respond _

theorem userRenameCommandHandler_acts (hcmd : requiredPerms req.cmd = [Perm.admin]) :
    Acts s c req (userRenameCommandHandler c req) := by
  refine acts_requirePacket _ fun _ => acts_requirePerm hc hcmd fun ha => acts_requireField fun old _ =>
    acts_requireField fun new hnew => acts_bind (a := s) rfl ?_
  dsimp only
  cases hold : findUser s.users old none with
  | none => exact acts_respond _
  | some i =>
    cases hu : findUser s.users new none with
    | some j => exact acts_respond _
    | none =>
      dsimp only
      split_ifs with hi
      · exact acts_respond _
      · exact acts_of (.users _ ha (.rename i new hnew hu (by simpa using hi)))

theorem userSetPermCommandHandler_acts (hcmd : requiredPerms req.cmd = [Perm.admin]) :
    Acts s c req (userSetPermCommandHandler c req) := by
  refine acts_requirePacket _ fun _ => acts_requirePerm hc hcmd fun ha => acts_requireField fun name _ =>
    acts_bind (a := s) rfl ?_
  dsimp only
  cases hu : findUser s.users name none with
  | none => exact acts_respond _
  | some i =>
    dsimp only
    split_ifs with hi
    · exact acts_respond _
    · exact acts_of (.users _ ha (.setPerm i _ (by simpa using hi)))

theorem userDeleteCommandHandler_acts (hcmd : requiredPerms req.cmd = [Perm.admin]) :
    Acts s c req (userDeleteCommandHandler c req) := by
  refine acts_requirePacket _ fun _ => acts_requirePerm hc hcmd fun ha => acts_requireField fun name _ =>
    acts_bind (a := s) rfl ?_
  dsimp only
  cases hu : findUser s.users name none with
  | none => exact acts_respond _
  | some i =>
    dsimp only
    split_ifs with hi
    · exact acts_respond _
    · exact acts_of (.users _ ha (.delete i (by simpa using hi)))

theorem userListCommandHandler_acts (hcmd : requiredPerms req.cmd = [Perm.admin]) :
    Acts s c req (userListCommandHandler c req) := by
  refine acts_requirePacket _ fun _ => acts_requirePerm hc hcmd fun ha => acts_bind (a := s) rfl ?_
  rcases mapM_reads fun u (_ : u ∈ s.users) => userEntry_reads s u with ⟨body, hb⟩ | ⟨e, he, rfl⟩
  · exact acts_bind hb (acts_of (.data _ ha))
  · exact acts_fault ha he (.inl rfl)

end Users

section Commands

variable (h : Related .none s) {bits : List ℕ}

include hc

/-! The bodies that three commands share. -/

theorem existCommandHandler_acts {find : Name → ServerM (Option Ptr)} {nameOf : Ptr → Option Name}
    {l : List Ptr} (hcmd : requiredPerms req.cmd = bits)
    (hfind : ∀ name, ∃ r, Lookup s (find name) nameOf l name r) :
    Acts s c req (existCommandHandler c req bits find) := by
  refine acts_requirePacket _ fun _ => acts_requirePerm hc hcmd fun ha => acts_requireField fun name _ => ?_
  obtain ⟨r, hr⟩ := hfind name
  exact acts_bind hr.run (acts_of (.data _ ha))

theorem listCommandHandler_acts {α : Type} {list : EagleServer → List Ptr} {find : Ptr → ServerM α}
    {entry : α → List Byte} (hcmd : requiredPerms req.cmd = bits)
    (hfind : ∀ p ∈ list s, ∃ x, find p s = .ok (x, s)) :
    Acts s c req (listCommandHandler c req bits list find entry) := by
  refine acts_requirePacket _ fun _ => acts_requirePerm hc hcmd fun ha => acts_bind (a := s) rfl ?_
  rcases mapM_reads (E := fun _ => False) (s := s) (l := list s) (f := find)
    fun p hp => .inl (hfind p hp) with ⟨body, hb⟩ | ⟨_, _, hE⟩
  · exact acts_bind hb (acts_of (.data _ ha))
  · exact hE.elim

theorem renameCommandHandler_acts {find : Name → ServerM (Option Ptr)} {nameOf : Ptr → Option Name}
    {l : List Ptr} {rename : Ptr → Name → ServerM Unit} (hcmd : requiredPerms req.cmd = bits)
    (hfind : ∀ name, ∃ r, Lookup s (find name) nameOf l name r)
    (hrename : ∀ p ∈ l, ∀ name, Authorized s c req.cmd → Accepted req checkInputBuffer2 72 64 name →
      (∀ p ∈ l, nameOf p ≠ some name) → 136 ≤ req.pos → Names req nameOf l p →
      Effect s c req (do rename p name; respond c req Status.success)) :
    Acts s c req (renameCommandHandler c req bits find rename) :=
  acts_requirePacket _ fun hpos => acts_requirePerm hc hcmd fun ha => acts_requireField fun old hold =>
    acts_requireField fun new hnew => acts_requireFound (hfind old) fun p hp _ hresult =>
      acts_requireFree (hfind new) fun hfree =>
        acts_of (hrename p hp new ha hnew hfree hpos ⟨old, hold, hresult⟩)

theorem deleteCommandHandler_acts {find : Name → ServerM (Option Ptr)} {nameOf : Ptr → Option Name}
    {l : List Ptr} {delete : Ptr → ServerM Bool} (hcmd : requiredPerms req.cmd = bits)
    (hfind : ∀ name, ∃ r, Lookup s (find name) nameOf l name r)
    (hdelete : ∀ p ∈ l, Authorized s c req.cmd → Names req nameOf l p → 72 ≤ req.pos →
      Effect s c req (reportResult c req (delete p))) :
    Acts s c req (deleteCommandHandler c req bits find delete) :=
  acts_requirePacket _ fun hpos => acts_requirePerm hc hcmd fun ha => acts_requireField fun name hname =>
    acts_requireFound (hfind name) fun p hp _ hresult => acts_of (hdelete p hp ha ⟨name, hname, hresult⟩ hpos)

end Commands

section Queues

variable (h : Related .none s)

include hc h

theorem queueCreateCommandHandler_acts (hcmd : req.cmd = Cmd.queueCreate) :
    Acts s c req (queueCreateCommandHandler c req) := by
  refine acts_requirePacket _ fun hpos => acts_requirePerm hc (by rw [hcmd]; rfl) fun ha =>
    acts_requireField fun name hname => acts_requireFree (findQueue_spec _ h) fun hfree => ?_
  dsimp only
  split_ifs with hv
  · exact acts_respond _
  all_goals
    have hmax : req.u32 72 ≠ 0 := fun h0 => hv (.inl h0)
    have hsize := Nat.not_lt.mp fun hlt => hv (.inr hlt)
    exact acts_of (.queueCreate name _ _ _ ha hname (free_of_lookup hfree) hmax hcmd hpos rfl
      (by first | exact Nat.le_refl _ | exact hsize) rfl)

theorem queueDeclareCommandHandler_acts (hcmd : requiredPerms req.cmd = queuePerms Perm.queueDeclare) :
    Acts s c req (queueDeclareCommandHandler c req) :=
  acts_requirePacket _ fun _ => acts_requirePerm hc hcmd fun ha => acts_requireField fun _ _ =>
    acts_requireFound (findQueue_spec _ h) fun q hq hname _ =>
      acts_requireFree (findDeclared_spec _ h hc) fun hfree =>
        acts_of (.queueDeclare q ha hq fun hd => hfree q hd hname)

theorem queueExistCommandHandler_acts (hcmd : requiredPerms req.cmd = queuePerms Perm.queueExist) :
    Acts s c req (queueExistCommandHandler c req) :=
  existCommandHandler_acts hc hcmd fun _ => findQueue_spec _ h

theorem queueListCommandHandler_acts (hcmd : requiredPerms req.cmd = queuePerms Perm.queueList) :
    Acts s c req (queueListCommandHandler c req) :=
  listCommandHandler_acts hc hcmd fun q hq => by
    obtain ⟨x, hx⟩ := queue_alive.mp (h.consistent.queues.alive hq)
    exact ⟨x, run_getQueue hx⟩

theorem queueRenameCommandHandler_acts (hcmd : req.cmd = Cmd.queueRename) :
    Acts s c req (queueRenameCommandHandler c req) :=
  renameCommandHandler_acts hc (by rw [hcmd]; rfl) (fun _ => findQueue_spec _ h)
    fun q hq name ha hname hfree hpos hold =>
      .queueRename q name ha hq hname (free_of_lookup hfree) hcmd hpos hold

theorem queueSizeCommandHandler_acts (hcmd : requiredPerms req.cmd = queuePerms Perm.queueSize) :
    Acts s c req (queueSizeCommandHandler c req) :=
  acts_requirePacket _ fun _ => acts_requirePerm hc hcmd fun ha => acts_requireField fun _ _ =>
    acts_requireFound (findQueue_spec _ h) fun q hq _ _ => by
      obtain ⟨x, hx⟩ := queue_alive.mp (h.consistent.queues.alive hq)
      exact acts_bind (run_getQueue hx) (acts_of (.data _ ha))

/-- The checks of the commands on a queue that the client has declared. -/
theorem declared_acts {size : ℕ} {bits : List ℕ} {k : Name → Ptr → ServerM Unit}
    (hcmd : requiredPerms req.cmd = bits)
    (hk : ∀ name, ∀ q ∈ (links s).declaredQueues c, s.queueName q = some name →
      Authorized s c req.cmd → size ≤ req.pos → Names req s.queueName ((links s).declaredQueues c) q →
      Acts s c req (k name q)) :
    Acts s c req (requirePacket c req size <| requirePerm c req bits <|
      requireField c req checkInputBuffer2 8 64 fun name =>
      requireFound c req Status.errorNotDeclared (findDeclared c name) (k name)) :=
  acts_requirePacket _ fun hpos => acts_requirePerm hc hcmd fun ha => acts_requireField fun name hname =>
    acts_requireFound (findDeclared_spec _ h hc) fun q hq hqn hresult =>
      hk name q hq hqn ha hpos ⟨name, hname, hresult⟩

theorem queuePushCommandHandler_acts (hcmd : req.cmd = Cmd.queuePush) :
    Acts s c req (queuePushCommandHandler c req) :=
  acts_requirePacket _ fun hpos => acts_requirePerm hc (by rw [hcmd]; rfl) fun ha =>
    acts_requireField fun name hname => acts_requireMemory fun hmem =>
      acts_requireFound (findDeclared_spec _ h hc) fun q hq _ hresult =>
        acts_of (.queuePush q ha hq hcmd hpos ⟨name, hname, hresult⟩ hmem)

theorem queueGetCommandHandler_acts (hcmd : req.cmd = Cmd.queueGet) :
    Acts s c req (queueGetCommandHandler c req) :=
  declared_acts hc h (by rw [hcmd]; rfl) fun _ q hq _ ha hpos hname =>
    acts_of (.queueGet q ha hq hcmd hpos hname)

theorem queuePopCommandHandler_acts (hcmd : req.cmd = Cmd.queuePop) :
    Acts s c req (queuePopCommandHandler c req) :=
  declared_acts hc h (by rw [hcmd]; rfl) fun _ q hq _ ha hpos hname =>
    acts_of (.queuePop q ha hq hcmd hpos hname)

theorem queueConfirmCommandHandler_acts (hcmd : req.cmd = Cmd.queueConfirm) :
    Acts s c req (queueConfirmCommandHandler c req) :=
  declared_acts hc h (by rw [hcmd]; rfl) fun _ q hq _ ha hpos hname =>
    acts_of (.queueConfirm q ha hq hcmd hpos hname)

theorem queueSubscribeCommandHandler_acts
    (hcmd : requiredPerms req.cmd = queuePerms Perm.queueSubscribe) :
    Acts s c req (queueSubscribeCommandHandler c req) :=
  declared_acts hc h hcmd fun _ q hq hname ha _ _ =>
    acts_requireFree (findSubscribed_spec _ h hc) fun hfree =>
      acts_of (.queueSubscribe q _ ha hq fun hs => hfree q hs hname)

theorem queueUnsubscribeCommandHandler_acts
    (hcmd : requiredPerms req.cmd = queuePerms Perm.queueUnsubscribe) :
    Acts s c req (queueUnsubscribeCommandHandler c req) :=
  declared_acts hc h hcmd fun _ q hq _ ha _ _ =>
    acts_requireFound (findSubscribed_spec _ h hc) fun _ _ _ _ => acts_of (.queueUnsubscribe q ha hq)

theorem queuePurgeCommandHandler_acts (hcmd : req.cmd = Cmd.queuePurge) :
    Acts s c req (queuePurgeCommandHandler c req) :=
  declared_acts hc h (by rw [hcmd]; rfl) fun _ q hq _ ha hpos hname =>
    acts_of (.queuePurge q ha hq hcmd hpos hname)

theorem queueDeleteCommandHandler_acts (hcmd : req.cmd = Cmd.queueDelete) :
    Acts s c req (queueDeleteCommandHandler c req) :=
  deleteCommandHandler_acts hc (by rw [hcmd]; rfl) (fun _ => findQueue_spec _ h) fun q hq ha hname hpos =>
    .queueDelete q ha hq hcmd hname hpos

end Queues

section Routes

variable (h : Related .none s)

include hc h

theorem routeCreateCommandHandler_acts (hcmd : req.cmd = Cmd.routeCreate) :
    Acts s c req (routeCreateCommandHandler c req) :=
  acts_requirePacket _ fun hpos => acts_requirePerm hc (by rw [hcmd]; rfl) fun ha =>
    acts_requireField fun name hname => acts_requireFree (findRoute_spec _ h) fun hfree =>
      acts_of (.routeCreate name _ ha hname (free_of_lookup hfree) hcmd hpos rfl)

theorem routeExistCommandHandler_acts (hcmd : requiredPerms req.cmd = routePerms Perm.routeExist) :
    Acts s c req (routeExistCommandHandler c req) :=
  existCommandHandler_acts hc hcmd fun _ => findRoute_spec _ h

theorem routeListCommandHandler_acts (hcmd : requiredPerms req.cmd = routePerms Perm.routeList) :
    Acts s c req (routeListCommandHandler c req) :=
  listCommandHandler_acts hc hcmd fun r hr => by
    obtain ⟨x, hx⟩ := route_alive.mp (h.consistent.routes.alive hr)
    exact ⟨x, run_getRoute hx⟩

omit [Lzf] hc in
theorem routeKeyEntries_reads {r : Ptr} {k : Name × List Ptr} (hk : k ∈ (links s).boundQueues r) :
    ∃ entries, routeKeyEntries k s = .ok (entries, s) := by
  have hq : ∀ q ∈ k.2, ∃ x, s.queueAt q = some x := fun q hq => queue_alive.mp <|
    h.boundQueue (r := r) <| by
      rwa [Keylist.values_of_mem (h.consistent.boundQueues_wf r).nodup hk]
  rcases mapM_reads (E := fun _ => False) (s := s) (l := k.2) (f := fun q => do
      pure (k.1, (← getQueue q).cName)) fun q hmem => by
    obtain ⟨x, hx⟩ := hq q hmem
    exact .inl ⟨_, read_getQueue hx fun x => (k.1, x.cName)⟩ with he | ⟨_, _, hE⟩
  · exact he
  · exact hE.elim

theorem routeKeysCommandHandler_acts (hcmd : requiredPerms req.cmd = routePerms Perm.routeKeys) :
    Acts s c req (routeKeysCommandHandler c req) :=
  acts_requirePacket _ fun _ => acts_requirePerm hc hcmd fun ha => acts_requireField fun _ _ =>
    acts_requireFound (findRoute_spec _ h) fun r hr _ _ => by
      obtain ⟨x, hx⟩ := route_alive.mp (h.consistent.routes.alive hr)
      have hkeys : (links s).boundQueues r = x.keys := Heap.read_some hx
      refine acts_bind (run_getRoute hx) ?_
      rcases mapM_reads (E := fun _ => False) fun k (hk : k ∈ x.keys) =>
        .inl (routeKeyEntries_reads h (hkeys ▸ hk)) with ⟨entries, he⟩ | ⟨_, _, hE⟩
      · refine acts_bind he ?_
        cases hb : copyStrings (x.queueNumber * 96) (routeKeyOffsets entries.flatten) with
        | ok body => exact acts_bind (a := body) rfl (acts_of (.data _ ha))
        | error e =>
          have he := copyStrings_errs (E := fun e => e = .overread ∨ e = .overflow) (.inr rfl) _ _ e hb
          exact acts_fault ha rfl he
      · exact hE.elim

theorem routeRenameCommandHandler_acts (hcmd : requiredPerms req.cmd = routePerms Perm.routeRename) :
    Acts s c req (routeRenameCommandHandler c req) :=
  renameCommandHandler_acts hc hcmd (fun _ => findRoute_spec _ h) fun r hr name ha hname hfree _ _ =>
    .routeRename r name ha hr hname (free_of_lookup hfree)

theorem bindingCommandHandler_acts {bits : List ℕ} {k : Ptr → Ptr → Name → ServerM Unit}
    (hcmd : requiredPerms req.cmd = bits)
    (hk : ∀ r ∈ s.routes, ∀ q ∈ s.queues, ∀ key, Accepted req checkInputBuffer1 136 32 key →
      Authorized s c req.cmd → Acts s c req (k r q key)) :
    Acts s c req (bindingCommandHandler c req bits k) :=
  acts_requirePacket _ fun _ => acts_requirePerm hc hcmd fun ha => acts_requireField fun _ _ =>
    acts_requireField fun _ _ => acts_requireField fun key hkey =>
      acts_requireFound (findRoute_spec _ h) fun r hr _ _ =>
        acts_requireFound (findQueue_spec _ h) fun q hq _ _ => hk r hr q hq key hkey ha

theorem routeBindCommandHandler_acts (hcmd : requiredPerms req.cmd = routePerms Perm.routeBind) :
    Acts s c req (routeBindCommandHandler c req) :=
  bindingCommandHandler_acts hc h hcmd fun r hr q hq key hkey ha =>
    acts_of (.routeBind r q key ha hr hq hkey)

theorem routeUnbindCommandHandler_acts (hcmd : requiredPerms req.cmd = routePerms Perm.routeUnbind) :
    Acts s c req (routeUnbindCommandHandler c req) :=
  bindingCommandHandler_acts hc h hcmd fun r hr q hq key _ ha =>
    acts_of (.routeUnbind r q key ha hr hq)

theorem routePushCommandHandler_acts (hcmd : req.cmd = Cmd.routePush) :
    Acts s c req (routePushCommandHandler c req) :=
  acts_requirePacket _ fun hpos => acts_requirePerm hc (by rw [hcmd]; rfl) fun ha =>
    acts_requireField fun name hname => acts_requireField fun key hkey => acts_requireMemory fun hmem =>
      acts_requireFound (findRoute_spec _ h) fun r hr _ hresult =>
        acts_of (.routePush r key ha hr hcmd hpos ⟨name, hname, hresult⟩ hkey hmem)

theorem routeDeleteCommandHandler_acts (hcmd : req.cmd = Cmd.routeDelete) :
    Acts s c req (routeDeleteCommandHandler c req) :=
  deleteCommandHandler_acts hc (by rw [hcmd]; rfl) (fun _ => findRoute_spec _ h) fun r hr ha hname _ =>
    .routeDelete r ha hr hcmd hname

end Routes

section Channels

variable (h : Related .none s)

include hc h

theorem channelCreateCommandHandler_acts (hcmd : req.cmd = Cmd.channelCreate) :
    Acts s c req (channelCreateCommandHandler c req) :=
  acts_requirePacket _ fun hpos => acts_requirePerm hc (by rw [hcmd]; rfl) fun ha =>
    acts_requireField fun name hname => acts_requireFree (findChannel_spec _ h) fun hfree =>
      acts_of (.channelCreate name _ ha hname (free_of_lookup hfree) hcmd hpos rfl)

theorem channelExistCommandHandler_acts (hcmd : requiredPerms req.cmd = channelPerms Perm.channelExist) :
    Acts s c req (channelExistCommandHandler c req) :=
  existCommandHandler_acts hc hcmd fun _ => findChannel_spec _ h

theorem channelListCommandHandler_acts (hcmd : requiredPerms req.cmd = channelPerms Perm.channelList) :
    Acts s c req (channelListCommandHandler c req) :=
  listCommandHandler_acts hc hcmd fun ch hch => by
    obtain ⟨x, hx⟩ := channel_alive.mp (h.consistent.channels.alive hch)
    exact ⟨x, run_getChannel hx⟩

theorem channelRenameCommandHandler_acts
    (hcmd : requiredPerms req.cmd = channelPerms Perm.channelRename) :
    Acts s c req (channelRenameCommandHandler c req) :=
  renameCommandHandler_acts hc hcmd (fun _ => findChannel_spec _ h) fun ch hch name ha hname hfree _ _ =>
    .channelRename ch name ha hch hname (free_of_lookup hfree)

theorem topicCommandHandler_acts {size : ℕ} {bits : List ℕ} {check : (ℕ → Byte) → ℕ → ℕ}
    {k : Ptr → Name → ServerM Unit} (hcmd : requiredPerms req.cmd = bits)
    (hk : ∀ ch ∈ s.channels, ∀ topic, Authorized s c req.cmd → size ≤ req.pos →
      Names req s.channelName s.channels ch → Accepted req check 72 32 topic → Effect s c req (k ch topic)) :
    Acts s c req (topicCommandHandler c req size bits check k) :=
  acts_requirePacket _ fun hpos => acts_requirePerm hc hcmd fun ha => acts_requireField fun name hname =>
    acts_requireField fun topic htopic => acts_requireFound (findChannel_spec _ h) fun ch hch _ hresult =>
      acts_of (hk ch hch topic ha hpos ⟨name, hname, hresult⟩ htopic)

theorem channelPublishCommandHandler_acts
    (hcmd : requiredPerms req.cmd = channelPerms Perm.channelPublish) :
    Acts s c req (channelPublishCommandHandler c req) :=
  topicCommandHandler_acts hc h hcmd fun ch hch topic ha _ _ _ => .channelPublish ch topic ha hch

theorem channelSubscribeCommandHandler_acts
    (hcmd : requiredPerms req.cmd = channelPerms Perm.channelSubscribe) :
    Acts s c req (channelSubscribeCommandHandler c req) :=
  topicCommandHandler_acts hc h hcmd fun ch hch topic ha _ _ _ => .channelSubscribe .topic ch topic ha hch

theorem channelPsubscribeCommandHandler_acts
    (hcmd : requiredPerms req.cmd = channelPerms Perm.channelPsubscribe) :
    Acts s c req (channelPsubscribeCommandHandler c req) :=
  topicCommandHandler_acts hc h hcmd fun ch hch pattern ha _ _ _ =>
    .channelSubscribe .pattern ch pattern ha hch

theorem channelUnsubscribeCommandHandler_acts (hcmd : req.cmd = Cmd.channelUnsubscribe) :
    Acts s c req (channelUnsubscribeCommandHandler c req) :=
  topicCommandHandler_acts hc h (by rw [hcmd]; rfl) fun ch hch topic ha hpos hname htopic =>
    .channelUnsubscribe .topic ch topic ha hch hcmd hpos hname htopic

theorem channelPunsubscribeCommandHandler_acts (hcmd : req.cmd = Cmd.channelPunsubscribe) :
    Acts s c req (channelPunsubscribeCommandHandler c req) :=
  topicCommandHandler_acts hc h (by rw [hcmd]; rfl) fun ch hch pattern ha hpos hname htopic =>
    .channelUnsubscribe .pattern ch pattern ha hch hcmd hpos hname htopic

theorem channelDeleteCommandHandler_acts (hcmd : req.cmd = Cmd.channelDelete) :
    Acts s c req (channelDeleteCommandHandler c req) :=
  deleteCommandHandler_acts hc (by rw [hcmd]; rfl) (fun _ => findChannel_spec _ h) fun ch hch ha hname _ =>
    .channelDelete ch ha hch hcmd hname

end Channels

section Dispatch

include hc

theorem handlers_act (hs : Related .none s) :
    ∀ e ∈ commands, req.cmd = e.1 → Acts s c req (e.2 c req) := by
  simp only [commands, List.forall_mem_cons, List.not_mem_nil, false_imp_iff, imp_true_iff, and_true]
  exact ⟨
    fun h => authCommandHandler_acts h,
    fun _ => pingCommandHandler_acts,
    fun h => statCommandHandler_acts hc (by rw [h]; rfl),
    fun h => saveCommandHandler_acts hc h,
    fun h => flushCommandHandler_acts hc h,
    fun h => disconnectCommandHandler_acts h,
    fun h => userCreateCommandHandler_acts hc h,
    fun h => userListCommandHandler_acts hc (by rw [h]; rfl),
    fun h => userRenameCommandHandler_acts hc (by rw [h]; rfl),
    fun h => userSetPermCommandHandler_acts hc (by rw [h]; rfl),
    fun h => userDeleteCommandHandler_acts hc (by rw [h]; rfl),
    fun h => queueCreateCommandHandler_acts hc hs h,
    fun h => queueDeclareCommandHandler_acts hc hs (by rw [h]; rfl),
    fun h => queueExistCommandHandler_acts hc hs (by rw [h]; rfl),
    fun h => queueListCommandHandler_acts hc hs (by rw [h]; rfl),
    fun h => queueRenameCommandHandler_acts hc hs h,
    fun h => queueSizeCommandHandler_acts hc hs (by rw [h]; rfl),
    fun h => queuePushCommandHandler_acts hc hs h,
    fun h => queueGetCommandHandler_acts hc hs h,
    fun h => queuePopCommandHandler_acts hc hs h,
    fun h => queueConfirmCommandHandler_acts hc hs h,
    fun h => queueSubscribeCommandHandler_acts hc hs (by rw [h]; rfl),
    fun h => queueUnsubscribeCommandHandler_acts hc hs (by rw [h]; rfl),
    fun h => queuePurgeCommandHandler_acts hc hs h,
    fun h => queueDeleteCommandHandler_acts hc hs h,
    fun h => routeCreateCommandHandler_acts hc hs h,
    fun h => routeExistCommandHandler_acts hc hs (by rw [h]; rfl),
    fun h => routeListCommandHandler_acts hc hs (by rw [h]; rfl),
    fun h => routeKeysCommandHandler_acts hc hs (by rw [h]; rfl),
    fun h => routeRenameCommandHandler_acts hc hs (by rw [h]; rfl),
    fun h => routeBindCommandHandler_acts hc hs (by rw [h]; rfl),
    fun h => routeUnbindCommandHandler_acts hc hs (by rw [h]; rfl),
    fun h => routePushCommandHandler_acts hc hs h,
    fun h => routeDeleteCommandHandler_acts hc hs h,
    fun h => channelCreateCommandHandler_acts hc hs h,
    fun h => channelExistCommandHandler_acts hc hs (by rw [h]; rfl),
    fun h => channelListCommandHandler_acts hc hs (by rw [h]; rfl),
    fun h => channelRenameCommandHandler_acts hc hs (by rw [h]; rfl),
    fun h => channelPublishCommandHandler_acts hc hs (by rw [h]; rfl),
    fun h => channelSubscribeCommandHandler_acts hc hs (by rw [h]; rfl),
    fun h => channelPsubscribeCommandHandler_acts hc hs (by rw [h]; rfl),
    fun h => channelUnsubscribeCommandHandler_acts hc hs h,
    fun h => channelPunsubscribeCommandHandler_acts hc hs h,
    fun h => channelDeleteCommandHandler_acts hc hs h⟩

end Dispatch

/-- What the dispatch of a frame does, and whether the client then waits for answers. -/
theorem parseCommand_acts (req : Request) (h : Related .none s) {x : EagleClient}
    (hx : s.clientAt c = some x) :
    ∃ noack m, noack = (if (commands.lookup req.cmd).isSome then req.noack else x.noack) ∧
    Effect (s.setClient c { x with noack := noack }) c req m ∧
      parseCommand c req s = m (s.setClient c { x with noack := noack }) := by
  unfold parseCommand
  cases hl : commands.lookup req.cmd with
  | none =>
    have hsame : s.setClient c x = s := by
      simp only [EagleServer.setClient, ← hx, Function.update_eq_self]
    exact ⟨x.noack, _, rfl, .status _ _, by rw [hsame]⟩
  | some handler =>
    obtain ⟨_, _, hmem, -⟩ := List.lookup_eq_some_iff.mp hl
    have hsame := links_client_same (y := { x with noack := req.noack }) hx rfl rfl fun d => by
      cases d <;> rfl
    obtain ⟨m, he, hm⟩ := handlers_act (s := s.setClient c { x with noack := req.noack })
      (client_alive.mpr ⟨_, Function.update_self ..⟩) (h.frame ⟨hsame, Nat.le_refl _⟩)
      (req.cmd, handler) (by simp [hmem]) rfl
    refine ⟨req.noack, m, rfl, he, ?_⟩
    rw [← hm]
    simp only [modifyClient, bind, StateT.bind, Except.bind, run_getClient hx]
    rfl

theorem parseCommand_effect (req : Request) (h : Related .none s) {x : EagleClient}
    (hx : s.clientAt c = some x) :
    ∃ noack m, Effect (s.setClient c { x with noack := noack }) c req m ∧
      parseCommand c req s = m (s.setClient c { x with noack := noack }) := by
  obtain ⟨noack, m, -, he, hm⟩ := parseCommand_acts req h hx
  exact ⟨noack, m, he, hm⟩

end Handlers

end Effect

end EagleMQ
