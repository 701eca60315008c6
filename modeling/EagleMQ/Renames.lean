import EagleMQ.Responses
import EagleMQ.Turns

/-! Renaming. A rename copies the new name with its terminator into the array of
the record. The validator accepts a name that fills the array, and the terminator
of such a name is written into the field behind it: `max_msg` of a queue, the
flags of a route or a channel, the password of a user. -/

namespace EagleMQ

open Prog

namespace Kind

def renameCmd : Kind → Byte
  | queue => Cmd.queueRename
  | route => Cmd.routeRename
  | channel => Cmd.channelRename

/-- The bytes of the `uint32_t` behind the name, as a number. -/
def fieldOf : Kind → EagleServer → Ptr → Option ℕ
  | queue, s, p => (s.queueAt p).map QueueT.maxMsg
  | route, s, p => (s.routeAt p).map RouteT.flags
  | channel, s, p => (s.channelAt p).map ChannelT.flags

/-- The state that differs in the name of a record and in nothing else. -/
def withName (K : Kind) (s : EagleServer) (p : Ptr) (name : Name) : EagleServer :=
  match K with
  | queue =>
    { s with queueAt := Function.update s.queueAt p ((s.queueAt p).map fun x => { x with name := name }) }
  | route =>
    { s with routeAt := Function.update s.routeAt p ((s.routeAt p).map fun x => { x with name := name }) }
  | channel =>
    { s with channelAt := Function.update s.channelAt p ((s.channelAt p).map fun x => { x with name := name }) }

end Kind

/-- What a command renames: a record on a list, or a user by its index. -/
inductive Target where
  | record (K : Kind) (p : Ptr)
  | user (i : ℕ)

namespace Target

def withName (s : EagleServer) (name : Name) : Target → EagleServer
  | record K p => K.withName s p name
  | user i => { s with users := s.users.modify i fun u => { u with name := name } }

/-- The string at the name of the target. -/
def Named (s : EagleServer) (name : Name) : Target → Prop
  | record K p => K.nameOf s p = some name
  | user i => ∃ u ∈ s.users[i]?, u.cName = .ok name

/-- The terminator of the name is written into the array, or over a zero byte behind it. -/
def Room (s : EagleServer) (name : Name) : Target → Prop
  | record K p => name.length < 64 ∨ ∀ v ∈ K.fieldOf s p, v % 256 = 0
  | user i => name.length < 32 ∨ ∀ u ∈ s.users[i]?, u.password = []

end Target

/-- The commands that rename. -/
def renameCmds : List Byte := [Cmd.queueRename, Cmd.routeRename, Cmd.channelRename, Cmd.userRename]

/-- The request asks for another name of a target, and the validator accepts the name. -/
inductive Requests (s : EagleServer) (req : Request) : Target → Name → Prop
  | record (K : Kind) (p : Ptr) (name : Name) (hcmd : req.cmd = K.renameCmd)
      (hold : Names req (K.nameOf s) (K.list s) p) (hname : Accepted req checkInputBuffer2 72 64 name) :
      Requests s req (.record K p) name
  | user (i : ℕ) (old name : Name) (hcmd : req.cmd = Cmd.userRename)
      (hold : Accepted req checkInputBuffer2 8 32 old)
      (hi : findUser s.users old none = some i) (hname : Accepted req checkInputBuffer2 40 32 name) :
      Requests s req (.user i) name

/-- The client has been given one response. -/
def Answered (c : Ptr) (data : List Byte) (s t : EagleServer) : Prop :=
  ∃ x y, s.clientAt c = some x ∧ t.clientAt c = some y ∧ y.history = x.history ++ [data]

/-- The target has got the name and, the client's own record aside, nothing else has changed. -/
def RenamesOnly (c : Ptr) (T : Target) (name : Name) (s t : EagleServer) : Prop :=
  SameData (T.withName s name) c t ∧ T.Named t name

section Renames

variable {s t u : EagleServer} {c p : Ptr} {req : Request} {name : Name} {x : EagleClient}

/-! ### Layout -/

theorem spill_eq_iff {field : ℕ} : spill name field = field ↔ name.length < 64 ∨ field % 256 = 0 := by
  have hle := Nat.mod_le field 256
  unfold spill
  split_ifs with hn
  · simp [hn]
  · simp only [hn, false_or]
    omega

/-- With the same data otherwise, only the renamed record can differ. -/
theorem setRecord_same {α : Type} {h : Heap α} {f : α → α} {y z : α} (hx : h p = some y) :
    Function.update h p (some z) = Function.update h p ((h p).map f) ↔ z = f y := by
  rw [hx, Option.map_some]
  exact (Function.update_injective h p).eq_iff.trans Option.some_inj

/-! ### Answers -/

variable (req) in
/-- No answer but a success is taken for one. -/
theorem not_answered {cmd status : Byte} (hx : s.clientAt c = some x) (hstatus : status ≠ Status.success) :
    wp (addStatusResponse c cmd status)
      (fun _ t => ¬Answered c (responseHeader req.cmd Status.success 0) s t) Fault.Any s := by
  rw [addStatusResponse, wp_bind, wp_getClient hx]
  refine wp_ite (fun _ => wp_addResponse hx ?_) fun _ => ?_
  · rintro ⟨x', y, hx', hy, hh⟩
    obtain rfl := Option.some.inj (hx.symm.trans hx')
    obtain rfl := Option.some.inj (responded_clientAt.symm.trans hy)
    rw [EagleClient.given_history] at hh
    split_ifs at hh
    · have := List.append_cancel_left hh
      simp [responseHeader] at this
      exact hstatus this.2
    · simp at hh
  · rintro ⟨x', y, hx', hy, hh⟩
    obtain rfl := Option.some.inj (hx.symm.trans hx')
    obtain rfl := Option.some.inj (hx.symm.trans hy)
    simp at hh

/-- Every answer but a success leads to the postcondition. -/
def Refuses (c : Ptr) (s : EagleServer) (Q : EagleServer → Prop) : Prop :=
  ∀ cmd status : Byte, status ≠ Status.success →
    wp (addStatusResponse c cmd status) (fun _ t => Q t) Fault.Any s

variable {Q : EagleServer → Prop} {k : ServerM Unit}

theorem wp_requirePacket (hr : Refuses c s Q) {size : ℕ} (hk : wp k (fun _ t => Q t) Fault.Any s) :
    wp (requirePacket c req size k) (fun _ t => Q t) Fault.Any s :=
  wp_ite (fun _ => hr _ _ (by decide)) fun _ => hk

theorem wp_requirePerm (hr : Refuses c s Q) (hx : s.clientAt c = some x) {bits : List ℕ}
    (hk : wp k (fun _ t => Q t) Fault.Any s) :
    wp (requirePerm c req bits k) (fun _ t => Q t) Fault.Any s := by
  rw [requirePerm, wp_bind, wp_getClient hx]
  exact wp_ite (fun _ => hk) fun _ => hr _ _ (by decide)

theorem wp_requireField (hr : Refuses c s Q) {check : (ℕ → Byte) → ℕ → ℕ} {i size : ℕ}
    {k : Name → ServerM Unit}
    (hk : ∀ name, Accepted req check i size name → wp (k name) (fun _ t => Q t) Fault.Any s) :
    wp (requireField c req check i size k) (fun _ t => Q t) Fault.Any s :=
  wp_ite (fun _ => hr _ _ (by decide)) fun hn => hk _ ⟨_, hn, rfl, rfl⟩

theorem wp_requireFound (hr : Refuses c s Q) {status : Byte} (hstatus : status ≠ Status.success)
    {find : ServerM (Option Ptr)} {nameOf : Ptr → Option Name} {l : List Ptr} {k : Ptr → ServerM Unit}
    (hl : ∃ r, Lookup s find nameOf l name r)
    (hk : ∀ p, findNamed nameOf name l = .ok (some p) → wp (k p) (fun _ t => Q t) Fault.Any s) :
    wp (requireFound c req status find k) (fun _ t => Q t) Fault.Any s := by
  obtain ⟨r, hrun, hresult, -⟩ := hl
  rw [requireFound, wp_bind]
  refine wp_of_ok hrun ?_
  cases r with
  | none => exact hr _ _ hstatus
  | some p => exact hk p hresult

theorem wp_requireFree (hr : Refuses c s Q) {status : Byte} (hstatus : status ≠ Status.success)
    {find : ServerM (Option Ptr)} {nameOf : Ptr → Option Name} {l : List Ptr}
    (hl : ∃ r, Lookup s find nameOf l name r) (hk : wp k (fun _ t => Q t) Fault.Any s) :
    wp (requireFree c req status find k) (fun _ t => Q t) Fault.Any s := by
  obtain ⟨r, hrun, -⟩ := hl
  rw [requireFree, wp_bind]
  refine wp_of_ok hrun ?_
  cases r with
  | none => exact hk
  | some p => exact hr _ _ hstatus

/-! ### Handlers -/

/-- The shared body of the three renames, down to the change of the record. -/
theorem renameCommandHandler_reaches (hr : Refuses c s Q) (hx : s.clientAt c = some x) {bits : List ℕ}
    {find : Name → ServerM (Option Ptr)} {nameOf : Ptr → Option Name} {l : List Ptr}
    {rename : Ptr → Name → ServerM Unit} (hfind : ∀ name, ∃ r, Lookup s (find name) nameOf l name r)
    (hk : ∀ p name, Names req nameOf l p → Accepted req checkInputBuffer2 72 64 name →
      wp (do rename p name; respond c req Status.success) (fun _ t => Q t) Fault.Any s) :
    wp (renameCommandHandler c req bits find rename) (fun _ t => Q t) Fault.Any s :=
  wp_requirePacket hr <| wp_requirePerm hr hx <| wp_requireField hr fun old hold =>
    wp_requireField hr fun name hname => wp_requireFound hr (by decide) (hfind old) fun p hp =>
      wp_requireFree hr (by decide) (hfind name) (hk p name ⟨old, hold, hp⟩ hname)

theorem SameData.congr (h : SameData t c u) : SameData s c u ↔ SameData s c t := by
  refine ⟨fun hs => ?_, fun hs => hs.trans h⟩
  exact ⟨h.users.symm.trans hs.users, ⟨h.queues.1.symm.trans hs.queues.1, h.queues.2.symm.trans hs.queues.2⟩,
    ⟨h.routes.1.symm.trans hs.routes.1, h.routes.2.symm.trans hs.routes.2⟩,
    ⟨h.channels.1.symm.trans hs.channels.1, h.channels.2.symm.trans hs.channels.2⟩,
    fun c' hc => (h.others c' hc).symm.trans (hs.others c' hc)⟩

theorem SameData.symm (h : SameData s c t) : SameData t c s :=
  h.congr.mp .refl

/-- A success leaves the record that has been changed before it. -/
theorem wp_succeed (hx : s.clientAt c = some x) (hQ : ∀ t, SameData s c t → Q t) :
    wp (respond c req Status.success) (fun _ t => Q t) Fault.Any s :=
  wp_mono (addStatusResponse_quiet (P := fun _ => False) _ _ hx) (fun _ t ht => hQ t ht.data)
    fun _ h => h.elim

theorem renameQueue_exact (hx : s.clientAt c = some x) :
    wp (do renameQueueT p name; respond c req Status.success)
      (fun _ t => RenamesOnly c (.record .queue p) name s t ↔ Target.Room s name (.record .queue p))
        Fault.Any s := by
  rw [wp_bind]
  cases hy : s.queueAt p with
  | none => simp [renameQueueT, modifyQueue, getQueue, hy, Fault.Any]
  | some y =>
    refine wp_modifyQueue ⟨y, hy, wp_succeed hx fun t ht => ?_⟩
    have hname : Target.Named t name (.record .queue p) := by
      simp only [Target.Named, Kind.nameOf, EagleServer.queueName, ht.queues.2, EagleServer.setQueue_queueAt,
        Option.map_some, QueueT.cName, List.append_assoc, cString_spill]
    have hroom : Target.Room s name (.record .queue p) ↔ spill name y.maxMsg = y.maxMsg := by
      simp [Target.Room, Kind.fieldOf, hy, spill_eq_iff]
    rw [RenamesOnly, and_iff_left hname, ht.congr, hroom]
    refine ⟨fun h => ?_, fun h => ⟨rfl, ⟨rfl, (setRecord_same hy).mpr (by rw [h])⟩, ⟨rfl, rfl⟩, ⟨rfl, rfl⟩,
      fun _ _ => rfl⟩⟩
    exact congrArg QueueT.maxMsg ((setRecord_same hy).mp h.queues.2)

theorem renameRoute_exact (hx : s.clientAt c = some x) :
    wp (do renameRouteT p name; respond c req Status.success)
      (fun _ t => RenamesOnly c (.record .route p) name s t ↔ Target.Room s name (.record .route p))
        Fault.Any s := by
  rw [wp_bind]
  cases hy : s.routeAt p with
  | none => simp [renameRouteT, modifyRoute, getRoute, hy, Fault.Any]
  | some y =>
    refine wp_modifyRoute ⟨y, hy, wp_succeed hx fun t ht => ?_⟩
    have hname : Target.Named t name (.record .route p) := by
      simp only [Target.Named, Kind.nameOf, EagleServer.routeName, ht.routes.2, EagleServer.setRoute_routeAt,
        Option.map_some, RouteT.cName, cString_spill]
    have hroom : Target.Room s name (.record .route p) ↔ spill name y.flags = y.flags := by
      simp [Target.Room, Kind.fieldOf, hy, spill_eq_iff]
    rw [RenamesOnly, and_iff_left hname, ht.congr, hroom]
    refine ⟨fun h => ?_, fun h => ⟨rfl, ⟨rfl, rfl⟩, ⟨rfl, (setRecord_same hy).mpr (by rw [h])⟩, ⟨rfl, rfl⟩,
      fun _ _ => rfl⟩⟩
    exact congrArg RouteT.flags ((setRecord_same hy).mp h.routes.2)

theorem renameChannel_exact (hx : s.clientAt c = some x) :
    wp (do renameChannelT p name; respond c req Status.success)
      (fun _ t => RenamesOnly c (.record .channel p) name s t ↔ Target.Room s name (.record .channel p))
      Fault.Any s := by
  rw [wp_bind]
  cases hy : s.channelAt p with
  | none => simp [renameChannelT, modifyChannel, getChannel, hy, Fault.Any]
  | some y =>
    refine wp_modifyChannel ⟨y, hy, wp_succeed hx fun t ht => ?_⟩
    have hname : Target.Named t name (.record .channel p) := by
      simp only [Target.Named, Kind.nameOf, EagleServer.channelName, ht.channels.2,
        EagleServer.setChannel_channelAt, Option.map_some, ChannelT.cName, cString_spill]
    have hroom : Target.Room s name (.record .channel p) ↔ spill name y.flags = y.flags := by
      simp [Target.Room, Kind.fieldOf, hy, spill_eq_iff]
    rw [RenamesOnly, and_iff_left hname, ht.congr, hroom]
    refine ⟨fun h => ?_, fun h => ⟨rfl, ⟨rfl, rfl⟩, ⟨rfl, rfl⟩, ⟨rfl, (setRecord_same hy).mpr (by rw [h])⟩,
      fun _ _ => rfl⟩⟩
    exact congrArg ChannelT.flags ((setRecord_same hy).mp h.channels.2)

/-- The terminator of a name of full length ends the password as well. -/
theorem EagleUser.rename_cName (v : EagleUser) : (v.rename name).cName = .ok name := by
  unfold EagleUser.cName EagleUser.rename
  dsimp only
  split_ifs with hn
  · rfl
  · rw [EagleUser.cPassword, if_pos (by simp)]
    exact congrArg Except.ok (List.append_nil name)

theorem renameUser_exact (hx : s.clientAt c = some x) {i : ℕ} {v : EagleUser} (hv : s.users[i]? = some v) :
    wp (do modifyUsers fun users => users.modify i fun u => u.rename name; respond c req Status.success)
      (fun _ t => RenamesOnly c (.user i) name s t ↔ Target.Room s name (.user i)) Fault.Any s := by
  rw [wp_bind, modifyUsers, wp_modify]
  refine wp_succeed hx fun t ht => ?_
  have hget : ∀ f : EagleUser → EagleUser, (s.users.modify i f)[i]? = some (f v) := fun f => by simp [hv]
  have hname : Target.Named t name (.user i) :=
    ⟨v.rename name, by rw [ht.users]; exact hget _, v.rename_cName⟩
  have hroom : Target.Room s name (.user i) ↔ v.rename name = { v with name := name } := by
    simp only [Target.Room, hv, Option.mem_def, Option.some.injEq, forall_eq', EagleUser.rename,
      EagleUser.mk.injEq, true_and, and_true]
    by_cases hn : name.length < 32
    · simp [hn]
    · simp [hn, eq_comm]
  rw [RenamesOnly, and_iff_left hname, ht.congr, hroom]
  refine ⟨fun h => ?_, fun h => ⟨?_, ⟨rfl, rfl⟩, ⟨rfl, rfl⟩, ⟨rfl, rfl⟩, fun _ _ => rfl⟩⟩
  · have := congrArg (·[i]?) h.users
    simpa [Target.withName, hv] using this
  · refine List.ext_getElem? fun j => ?_
    simp only [Target.withName, List.getElem?_modify]
    by_cases hj : i = j
    · subst hj
      simp [hv, h]
    · simp [hj]

theorem userRenameCommandHandler_exact (hr : Refuses c s Q) (hx : s.clientAt c = some x)
    (hk : ∀ i old name, Accepted req checkInputBuffer2 8 32 old → findUser s.users old none = some i →
      Accepted req checkInputBuffer2 40 32 name → ∀ t,
      (RenamesOnly c (.user i) name s t ↔ Target.Room s name (.user i)) → Q t) :
    wp (userRenameCommandHandler c req) (fun _ t => Q t) Fault.Any s := by
  refine wp_requirePacket hr <| wp_requirePerm hr hx <| wp_requireField hr fun old hold =>
    wp_requireField hr fun name hname => ?_
  rw [wp_bind, wp_get]
  dsimp only
  cases hi : findUser s.users old none with
  | none => exact hr _ _ (by decide)
  | some i =>
    cases findUser s.users name none with
    | some j => exact hr _ _ (by decide)
    | none =>
      refine wp_ite (fun _ => hr _ _ (by decide)) fun _ => ?_
      have hlt : i < s.users.length := (List.findIdx?_eq_some_iff_findIdx_eq.mp hi).1
      exact wp_mono (renameUser_exact hx (List.getElem?_eq_getElem hlt))
        (fun _ t ht => hk i old name hold hi hname t ht) fun _ h => h

variable [Lzf]

/-- A rename that is answered with success has changed the name alone exactly when the
terminator of the name has room. -/
theorem renames_only_iff (hs : Reachable s) (ha : Enabled s (.request c req)) (hcmd : req.cmd ∈ renameCmds)
    (ht : step s (.request c req) = .ok t)
    (hanswer : Answered c (responseHeader req.cmd Status.success 0) s t) :
    ∃ T name, Requests s req T name ∧ (RenamesOnly c T name s t ↔ T.Room s name) := by
  obtain ⟨x, hx⟩ := client_alive.mp (hs.related.consistent.clients.alive ha.1)
  have hrun : parseCommand c req s = .ok ((), t) := step_eq_ok.mp ht
  generalize hy : { x with noack := req.noack } = y at *
  have hdispatch : ∀ handler, commands.lookup req.cmd = some handler →
      parseCommand c req s = handler c req (s.setClient c y) := fun handler h => hy ▸ parseCommand_run h hx
  have hrel : Related .none (s.setClient c y) := by
    refine hs.related.frame ⟨links_client_same hx ?_ ?_ fun d => ?_, Nat.le_refl _⟩
    all_goals subst hy
    · rfl
    · rfl
    · cases d <;> rfl
  have hx' : (s.setClient c y).clientAt c = some y := Function.update_self ..
  have hsame : ∀ T name t, RenamesOnly c T name (s.setClient c y) t ↔ RenamesOnly c T name s t :=
    fun T name t => by
    have hdata : SameData (T.withName (s.setClient c y) name) c (T.withName s name) := by
      rcases T with ⟨K | K | K, p⟩ | i <;>
        exact ⟨rfl, ⟨rfl, rfl⟩, ⟨rfl, rfl⟩, ⟨rfl, rfl⟩, fun _ hc => (Function.update_of_ne hc ..).symm⟩
    exact and_congr_left fun _ => ⟨fun h => hdata.symm.trans h, fun h => hdata.trans h⟩
  refine ok_of_wp (E := Fault.Any) (Q := fun _ t => Answered c (responseHeader req.cmd Status.success 0) s t →
    ∃ T name, Requests s req T name ∧ (RenamesOnly c T name s t ↔ T.Room s name)) ?_ hrun hanswer
  have hr : Refuses c (s.setClient c y) fun t => Answered c (responseHeader req.cmd Status.success 0) s t →
      ∃ T name, Requests s req T name ∧ (RenamesOnly c T name s t ↔ T.Room s name) :=
      fun cmd status hstatus => by
    refine wp_mono (not_answered req hx' hstatus) (fun _ t hno hans => absurd ?_ hno) fun _ h => h
    obtain ⟨x', z, hz, hrest⟩ := hans
    obtain rfl := Option.some.inj (hx.symm.trans hz)
    exact ⟨y, z, hx', by rwa [← hy]⟩
  have hrecord : ∀ (K : Kind) p name, req.cmd = K.renameCmd → Names req (K.nameOf s) (K.list s) p →
      Accepted req checkInputBuffer2 72 64 name → ∀ t,
      (RenamesOnly c (.record K p) name (s.setClient c y) t ↔
      Target.Room (s.setClient c y) name (.record K p)) →
      ∃ T name, Requests s req T name ∧ (RenamesOnly c T name s t ↔ T.Room s name) :=
    fun K p name hcmd hold hname t h =>
      ⟨_, _, .record K p name hcmd hold hname, (hsame _ _ t).symm.trans <| by
      cases K <;> exact h⟩
  simp only [renameCmds, List.mem_cons, List.not_mem_nil, or_false] at hcmd
  rcases hcmd with hq | hroute | hch | huser
  · refine wp_of_run (hdispatch queueRenameCommandHandler (by rw [hq]; rfl)) ?_
    exact renameCommandHandler_reaches hr hx' (fun _ => findQueue_spec _ hrel) fun p name hold hname =>
      wp_mono (renameQueue_exact hx') (fun _ t h _ => hrecord .queue p name hq hold hname t h) fun _ h => h
  · refine wp_of_run (hdispatch routeRenameCommandHandler (by rw [hroute]; rfl)) ?_
    exact renameCommandHandler_reaches hr hx' (fun _ => findRoute_spec _ hrel) fun p name hold hname =>
      wp_mono (renameRoute_exact hx') (fun _ t h _ => hrecord .route p name hroute hold hname t h)
        fun _ h => h
  · refine wp_of_run (hdispatch channelRenameCommandHandler (by rw [hch]; rfl)) ?_
    exact renameCommandHandler_reaches hr hx' (fun _ => findChannel_spec _ hrel) fun p name hold hname =>
      wp_mono (renameChannel_exact hx') (fun _ t h _ => hrecord .channel p name hch hold hname t h)
        fun _ h => h
  · refine wp_of_run (hdispatch userRenameCommandHandler (by rw [huser]; rfl)) ?_
    exact userRenameCommandHandler_exact hr hx' fun i old name hold hi hname t h _ =>
      ⟨_, _, .user i old name huser hold hi hname, (hsame _ _ t).symm.trans h⟩

end Renames

/-! ### Two renames of a queue -/

namespace Sample

/-- The first client asks to rename the queue `q`. -/
def queueRename (name : Name) : Op := named Cmd.queueRename 0 [113] (padded 64 name)

/-- The first client is told of a success, and `max_msg` of the queue is 1 before and `max`
after. -/
def renamed (name : Name) (max : ℕ) (s : EagleServer) : Bool :=
  decide (Enabled s (queueRename name)) && (s.queueAt 2).map QueueT.maxMsg == some 1 &&
    (@step Lzf.stored s (queueRename name)).toOption.any fun t =>
      (s.clientAt 0).isSome && (t.clientAt 0).map EagleClient.history ==
        (s.clientAt 0).map (fun x => x.history ++ [responseHeader Cmd.queueRename Status.success 0]) &&
      (t.queueAt 2).map (fun x => (x.name, x.maxMsg)) == some (name, max)

theorem exists_renamed (name : Name) (max : ℕ)
    (h : (@replay Lzf.stored server (login 0 ++ [queueCreate 0 [113] 1 0])).any (renamed name max) = true) :
    ∃ s t x y, @Reachable Lzf.stored s ∧ Enabled s (queueRename name) ∧
      @step Lzf.stored s (queueRename name) = .ok t ∧
      Answered 0 (responseHeader Cmd.queueRename Status.success 0) s t ∧
      s.queueAt 2 = some x ∧ x.maxMsg = 1 ∧ t.queueAt 2 = some y ∧ y.name = name ∧ y.maxMsg = max := by
  obtain ⟨s, hs, hp⟩ := exists_run _ h
  simp only [renamed, Bool.and_eq_true, Option.any_eq_true, beq_iff_eq, decide_eq_true_eq] at hp
  obtain ⟨⟨henabled, hmax⟩, t, ht, ⟨hsome, hhistory⟩, hafter⟩ := hp
  obtain ⟨z, hz⟩ := Option.isSome_iff_exists.mp hsome
  obtain ⟨x, hx, hxmax⟩ := Option.map_eq_some_iff.mp hmax
  obtain ⟨y, hy, hyname⟩ := Option.map_eq_some_iff.mp hafter
  rw [hz] at hhistory
  obtain ⟨z', hz', hhistory⟩ := Option.map_eq_some_iff.mp hhistory
  exact ⟨s, t, x, y, hs, henabled, Prog.toOption_eq_some.mp ht, ⟨z, z', hz, hz', hhistory⟩, hx, hxmax, hy,
    congrArg Prod.fst hyname, congrArg Prod.snd hyname⟩

end Sample

/-- A queue gets a short name, and nothing else changes. -/
theorem renames_only_short : ∃ s t T name, @step Lzf.stored s (Sample.queueRename [114]) = .ok t ∧
    (RenamesOnly 0 T name s t ↔ T.Room s name) := by
  obtain ⟨s, t, _, _, hs, ha, ht, hanswer, -⟩ := Sample.exists_renamed [114] 1 (by decide +kernel)
  obtain ⟨T, name, -, h⟩ := @renames_only_iff _ _ _ _ Lzf.stored hs ha (by decide) ht hanswer
  exact ⟨s, t, T, name, ht, h⟩

/-- A name of 64 letters clears the low byte of `max_msg`. -/
theorem not_renames_only_full : ∃ s t x y, @Reachable Lzf.stored s ∧
    Enabled s (Sample.queueRename (List.replicate 64 97)) ∧
    @step Lzf.stored s (Sample.queueRename (List.replicate 64 97)) = .ok t ∧
    Answered 0 (responseHeader Cmd.queueRename Status.success 0) s t ∧
    s.queueAt 2 = some x ∧ x.maxMsg = 1 ∧ t.queueAt 2 = some y ∧ y.name = List.replicate 64 97 ∧
    y.maxMsg = 0 :=
  Sample.exists_renamed (List.replicate 64 97) 0 (by decide +kernel)

end EagleMQ
