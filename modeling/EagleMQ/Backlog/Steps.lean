import EagleMQ.Backlog.Traffic

/-! The inversion of a step for one queue. Its messages come from those it had
before by one push or one operation, or it is new and has none. -/

namespace EagleMQ

open Prog

/-- The request passes the checks of the commands on a declared queue, and finds the queue. -/
structure Addresses (s : EagleServer) (c : Ptr) (req : Request) (size : ℕ) (q : Ptr) : Prop where
  authorized : Authorized s c req.cmd
  pos : size ≤ req.pos
  name : Names req s.queueName ((links s).declaredQueues c) q

/-- The request passes the checks of `queue_rename` with a queue and its new name. -/
structure RenamesQueue (s : EagleServer) (c : Ptr) (req : Request) (q : Ptr) (name : Name) : Prop where
  cmd : req.cmd = Cmd.queueRename
  authorized : Authorized s c req.cmd
  pos : 136 ≤ req.pos
  old : Names req s.queueName s.queues q
  new : Accepted req checkInputBuffer2 72 64 name
  free : ∀ q ∈ s.queues, ∀ x, s.queueAt q = some x → x.cName ≠ name

/-- The request passes the checks of `route_push`, and finds the route. -/
structure NamesRoute (s : EagleServer) (c : Ptr) (req : Request) (r : Ptr) (key : Name) : Prop where
  authorized : Authorized s c req.cmd
  pos : 109 ≤ req.pos
  listed : r ∈ s.routes
  name : Names req s.routeName s.routes r
  key : Accepted req checkInputBuffer1 72 32 key

/-- The push commands that reach a queue: its own, and that of a route with a key that is
bound to it. -/
inductive PushesTo (s : EagleServer) (q : Ptr) : Op → Prop
  | queue {c : Ptr} {req : Request} (hcmd : req.cmd = Cmd.queuePush) (haddr : Addresses s c req 77 q)
      (hmem : s.nomemory = false) : PushesTo s q (.request c req)
  | route {c : Ptr} {req : Request} {r : Ptr} {x : RouteT} {key : Name} (hcmd : req.cmd = Cmd.routePush)
      (hname : NamesRoute s c req r key) (hmem : s.nomemory = false) (hx : s.routeAt r = some x)
      (hq : q ∈ x.receivers key) : PushesTo s q (.request c req)

/-- What a step makes of a queue. -/
inductive Change (s : EagleServer) (q : Ptr) (x y : QueueT) : Op → Prop
  | same {op : Op} (h : y.bare = x.bare) : Change s q x y op
  | push {op : Op} (hto : PushesTo s q op) (hset : y.settings = x.settings)
      (h : Pushed x x.backlog y.backlog) : Change s q x y op
  | pop {c : Ptr} {req : Request} (hcmd : req.cmd = Cmd.queuePop) (haddr : Addresses s c req 76 q)
      (hset : y.settings = x.settings)
      (h : Stock.Runs (Stock.popMessageQueueT s.nowTimems (req.u32 72)) () x.backlog y.backlog) :
      Change s q x y (.request c req)
  | confirm {c : Ptr} {req : Request} (hcmd : req.cmd = Cmd.queueConfirm) (haddr : Addresses s c req 80 q)
      (hset : y.settings = x.settings) {ok : Bool}
      (h : Stock.Runs (Stock.confirmMessageQueueT (req.u64 72)) ok x.backlog y.backlog) :
      Change s q x y (.request c req)
  | purge {c : Ptr} {req : Request} (hcmd : req.cmd = Cmd.queuePurge) (haddr : Addresses s c req 72 q)
      (hset : y.settings = x.settings)
      (h : Stock.Runs Stock.purgeQueueT () x.backlog y.backlog) : Change s q x y (.request c req)
  | rename {c : Ptr} {req : Request} {name : Name} (hname : RenamesQueue s c req q name)
      (h : y.bare = { x with name := name, maxMsg := spill name x.maxMsg }.bare) :
        Change s q x y (.request c req)
  | tick (hset : y.settings = x.settings)
      (h : Stock.Runs (Stock.tick (s.env.mstime % 4294967296)) () x.backlog y.backlog) : Change s q x y .tick

/-- Every queue that is there has changed by the step, or the step has created it. -/
def Traffic (s : EagleServer) (op : Op) (t : EagleServer) : Prop :=
  ∀ q y, t.queueAt q = some y → (∃ x, s.queueAt q = some x ∧ Change s q x y op) ∨
    s.queueAt q = none ∧ y.backlog = .create ∧ q = s.fresh ∧ ∃ c req, op = .request c req ∧
    req.cmd = Cmd.queueCreate ∧
      y.maxMsg = req.u32 72 ∧ y.maxMsg ≠ 0

section Steps

variable {s t u : EagleServer} {c q : Ptr} {req : Request} {op : Op}

theorem Idle.traffic (h : Idle s t) : Traffic s op t := fun q y hy => by
  obtain ⟨x, hx, hxy⟩ := h.queue q y hy
  exact .inl ⟨x, hx, .same hxy⟩

theorem At.traffic {K : QueueT → QueueT → Prop} (h : At q K s t) (hK : ∀ x y, K x y → Change s q x y op) :
    Traffic s op t := fun p y hy => by
  obtain ⟨x, hx, hxy⟩ := h p y hy
  refine .inl ⟨x, hx, ?_⟩
  split_ifs at hxy with hp
  · exact hp ▸ hK x y hxy
  · exact .same hxy

theorem Fed.traffic {l : List Ptr} (h : Fed l s t) (hl : ∀ q ∈ l, PushesTo s q op) :
    Traffic s op t := fun q y hy => by
  obtain ⟨x, hx, hxy⟩ := h q y hy
  refine .inl ⟨x, hx, ?_⟩
  split_ifs at hxy with hq
  · exact .push (hl q hq) hxy.1 hxy.2
  · exact .same hxy

/-- What comes before and after the pushes leaves the queues alone. -/
theorem Fed.between {l : List Ptr} (h : Idle s t) (h' : Fed l t u) {v : EagleServer}
    (h'' : Idle u v) : Fed l s v := fun q z hz => by
  obtain ⟨y, hy, hyz⟩ := h''.queue q z hz
  obtain ⟨w, hw, hwy⟩ := h' q y hy
  obtain ⟨x, hx, hxw⟩ := h.queue q w hw
  refine ⟨x, hx, ?_⟩
  split_ifs at hwy ⊢
  · obtain ⟨hset, hb⟩ := settings_of_bare hxw
    obtain ⟨hset', hb'⟩ := settings_of_bare hyz
    obtain ⟨hmax, hforce⟩ := settings_fields hset
    rw [hb', ← hb]
    exact ⟨hset'.trans (hwy.1.trans hset), hwy.2.congr hmax.symm hforce.symm⟩
  · exact hyz.trans (hwy.trans hxw)

theorem respond_idle (c : Ptr) (req : Request) (status : Byte) :
    Keeps Idle Fault.Any (respond c req status) :=
  answers_idle (addStatusResponse_answers any_stock _ _)

theorem createObject_routes (data : List Byte) :
    Keeps (fun s t => t.routeAt = s.routeAt) Fault.Any (createObject data) :=
  fun _ => rfl

theorem resetRefcount_routes (o : Ptr) :
    Keeps (fun s t => t.routeAt = s.routeAt) Fault.Any (resetRefcount o) := fun s =>
  wp_mono (modifyObjects_only (errs_bind (find_errs s.objects o) fun _ => errs_ok _)) (fun _ t ht => by
    obtain ⟨objects, rfl⟩ := ht
    rfl) fun _ _ => trivial

theorem reportResult_fed {m : ServerM Bool} {l : List Ptr} (hidle : Idle s t)
    (h : wp m (fun _ u => Fed l t u) Fault.Any t) :
    wp (reportResult c req m) (fun _ v => Fed l s v) Fault.Any t := by
  rw [reportResult, wp_bind]
  refine wp_mono h (fun ok u hu => wp_ite (fun _ => ?_) fun _ => ?_) fun _ h => h
  · exact wp_mono (respond_idle c req _ u) (fun _ v hv => Fed.between hidle hu hv) fun _ h => h
  · exact wp_mono (respond_idle c req _ u) (fun _ v hv => Fed.between hidle hu hv) fun _ h => h

/-! ### Messages of one queue -/

theorem withStock_same {α : Type} {m : StockM α} (hm : ∀ t, wp m (fun _ u => u = t) Fault.Any t) :
    Keeps (fun s t => t = s) Fault.Any (withStock q m) := fun s => by
  cases hx : s.queueAt q with
  | none => simp [wp, withStock, hx, Fault.Any]
  | some x =>
    cases hrun : m ⟨x.backlog, s.objects⟩ with
    | error e => simp [wp, withStock, hx, hrun, Except.map, Fault.Any]
    | ok r =>
      obtain ⟨a, t⟩ := r
      have ht : t = ⟨x.backlog, s.objects⟩ := ok_of_wp (Q := fun _ u => u = _) (hm _) hrun
      subst ht
      exact wp_of_ok (withStock_reads hx hrun) rfl

theorem getMessageQueueT_same (t : Stock) : wp Stock.getMessageQueueT (fun _ u => u = t) Fault.Any t := by
  rw [Stock.getMessageQueueT, wp_bind, wp_get]
  cases t.backlog.queue.getValue with
  | error e => trivial
  | ok v => rfl

theorem message_same (m : Ptr) (t : Stock) : wp (Stock.message m) (fun _ u => u = t) Fault.Any t := by
  rw [Stock.message, wp_bind, wp_get]
  cases t.backlog.messages m with
  | none => trivial
  | some msg => rfl

/-- The message that has been read is there. -/
theorem Stock.wp_message_any {m : Ptr} {Q : Message → Stock → Prop} (t : Stock)
    (h : ∀ msg, t.backlog.messages m = some msg → Q msg t) : wp (Stock.message m) Q Fault.Any t := by
  rw [Stock.message, wp_bind, wp_get]
  cases hm : t.backlog.messages m with
  | none => trivial
  | some msg => exact h msg hm

theorem same_answers {α : Type} {m : ServerM α} (h : Keeps (fun s t => t = s) Fault.Any m) :
    Keeps Answers Fault.Any m := fun s =>
      wp_mono (h s) (fun _ _ ht => ht ▸ Std.Refl.refl (r := Answers) s) fun _ h => h

theorem messageResponse_answers (q m : Ptr) : Keeps Answers Fault.Any (messageResponse c req q m) :=
  keeps_bind (same_answers (withStock_same (message_same m))) fun _ =>
    keeps_bind (objectSize_answers any_stock _) fun _ =>
    keeps_bind (addResponse_answers any_stock _) fun _ => addObjectResponse_answers any_stock _

theorem getFromQueue_answers : Keeps Answers Fault.Any (getFromQueue c req q) :=
  keeps_bind (same_answers (withStock_same getMessageQueueT_same)) fun m => by
    cases m with
    | none => exact addStatusResponse_answers any_stock _ _
    | some m => exact messageResponse_answers q m

theorem popFromQueue_traffic (hcmd : req.cmd = Cmd.queuePop) (haddr : Addresses s c req 76 q) :
    wp (popFromQueue c req q) (fun _ t => Traffic s (.request c req) t) Fault.Any s := by
  rw [popFromQueue, requireFound, wp_bind]
  refine wp_mono (withStock_same getMessageQueueT_same s) (fun m t ht => ?_) fun _ h => h
  subst ht
  cases m with
  | none => exact wp_mono (respond_idle c req _ _) (fun _ _ ht => ht.traffic) fun _ h => h
  | some m =>
    rw [wp_bind]
    refine wp_mono (messageResponse_answers q m _) (fun _ t ht => ?_) fun _ h => h
    rw [wp_bind, wp_get]
    refine wp_mono (withStock_at _ t) (fun _ u hu => (ht.idle.at.trans hu).traffic ?_) fun _ h => h
    rintro x z ⟨y, hxy, hset, hrun⟩
    obtain ⟨hset', hb⟩ := settings_of_bare hxy
    rw [ht.time, hb] at hrun
    exact .pop hcmd haddr (hset.trans hset') hrun

theorem confirmInQueue_traffic (hcmd : req.cmd = Cmd.queueConfirm) (haddr : Addresses s c req 80 q) :
    wp (confirmInQueue c req q) (fun _ t => Traffic s (.request c req) t) Fault.Any s := by
  rw [confirmInQueue, wp_bind]
  refine wp_mono (withStock_at _ s) (fun ok t ht => ?_) fun _ h => h
  have hend : ∀ status, wp (respond c req status) (fun _ u => Traffic s (.request c req) u) Fault.Any t :=
    fun status => wp_mono (respond_idle c req status t) (fun _ u hu => (ht.trans hu.at).traffic (by
      rintro x z ⟨y, ⟨hset, hrun⟩, hyz⟩
      obtain ⟨hset', hb⟩ := settings_of_bare hyz
      exact .confirm hcmd haddr (hset'.trans hset) (hb ▸ hrun))) fun _ h => h
  exact wp_ite (fun _ => hend _) fun _ => hend _

theorem purge_traffic (hcmd : req.cmd = Cmd.queuePurge) (haddr : Addresses s c req 72 q) :
    wp (do withStock q Stock.purgeQueueT; respond c req Status.success)
      (fun _ t => Traffic s (.request c req) t) Fault.Any s := by
  rw [wp_bind]
  refine wp_mono (withStock_at _ s) (fun ok t ht => ?_) fun _ h => h
  refine wp_mono (respond_idle c req _ t) (fun _ u hu => (ht.trans hu.at).traffic ?_) fun _ h => h
  rintro x z ⟨y, ⟨hset, hrun⟩, hyz⟩
  obtain ⟨hset', hb⟩ := settings_of_bare hyz
  exact .purge hcmd haddr (hset'.trans hset) (hb ▸ hrun)

theorem rename_traffic {name : Name} (hname : RenamesQueue s c req q name) :
    wp (do renameQueueT q name; respond c req Status.success)
      (fun _ t => Traffic s (.request c req) t) Fault.Any s := by
  have hrename : wp (renameQueueT q name) (fun _ t => At q (fun x y =>
      y = { x with name := name, maxMsg := spill name x.maxMsg }) s t) Fault.Any s := by
    cases hx : s.queueAt q with
    | none => simp [renameQueueT, modifyQueue, getQueue, hx, Fault.Any]
    | some x =>
      refine wp_modifyQueue ⟨x, hx, fun p y hy => ?_⟩
      by_cases hp : p = q
      · subst hp
        rw [EagleServer.setQueue_queueAt] at hy
        exact ⟨x, hx, by simpa using (Option.some.inj hy).symm⟩
      · exact ⟨y, by simpa [EagleServer.setQueue, hp] using hy, by simp [hp]⟩
  rw [wp_bind]
  refine wp_mono hrename (fun _ t ht => ?_) fun _ h => h
  refine wp_mono (respond_idle c req _ t) (fun _ u hu => (ht.trans hu.at).traffic ?_) fun _ h => h
  rintro x z ⟨y, rfl, hyz⟩
  exact .rename hname hyz

theorem createQueue_traffic {name : Name} {maxMsg maxMsgSize flags : ℕ} (hcmd : req.cmd = Cmd.queueCreate)
    (hmsg : maxMsg = req.u32 72) (hmax : maxMsg ≠ 0) (hfresh : s.queueAt s.fresh = none) :
    wp (createQueue c req name maxMsg maxMsgSize flags) (fun _ t => Traffic s (.request c req) t)
      Fault.Any s := by
  rw [createQueue, createQueueT, wp_bind, wp_bind, wp_get, wp_bind, wp_modify, wp_pure, wp_bind, wp_modify]
  refine wp_mono (respond_idle c req _ _) (fun _ u hu p y hy => ?_) fun _ h => h
  obtain ⟨x, hx, hxy⟩ := hu.queue p y hy
  obtain ⟨hset, hb⟩ := settings_of_bare hxy
  by_cases hp : p = s.fresh
  · subst hp
    dsimp only at hx
    rw [Function.update_self] at hx
    obtain rfl := Option.some.inj hx
    have hmax' : y.maxMsg = maxMsg := (settings_fields hset).1
    exact .inr ⟨hfresh, hb, rfl, c, req, rfl, hcmd, hmax'.trans hmsg, hmax' ▸ hmax⟩
  · have hx' : s.queueAt p = some x := by simpa [hp] using hx
    exact .inl ⟨x, hx', .same hxy⟩

/-! ### Requests -/

/-- Relations upheld by everything that leaves the messages of the queues, the clock and the
counter alone. -/
structure Passive (R : EagleServer → EagleServer → Prop) : Prop extends Upheld R where
  answers : ∀ s t, Answers s t → R s t
  same : ∀ s t, t.queueAt = s.queueAt → t.nowTimems = s.nowTimems → t.msgCounter = s.msgCounter → R s t

theorem passive_idle : Passive Idle where
  toUpheld := upheld_idle
  answers _ _ h := h.idle
  same _ _ h ht _ := idle_of_queueAt h ht

/-- The operations of requests that change the messages or the settings of a queue. -/
inductive Serves (s : EagleServer) (c : Ptr) (req : Request) : ServerM Unit → Prop
  | create (name : Name) (maxMsg maxMsgSize flags : ℕ) (hcmd : req.cmd = Cmd.queueCreate)
      (hmsg : maxMsg = req.u32 72)
      (hmax : maxMsg ≠ 0) : Serves s c req (createQueue c req name maxMsg maxMsgSize flags)
  | rename (q : Ptr) (name : Name) (hname : RenamesQueue s c req q name) :
      Serves s c req do
        renameQueueT q name
        respond c req Status.success
  | push (q : Ptr) (hcmd : req.cmd = Cmd.queuePush) (haddr : Addresses s c req 77 q)
      (hmem : s.nomemory = false) : Serves s c req (pushToQueue c req q)
  | pop (q : Ptr) (hcmd : req.cmd = Cmd.queuePop) (haddr : Addresses s c req 76 q) :
    Serves s c req (popFromQueue c req q)
  | confirm (q : Ptr) (hcmd : req.cmd = Cmd.queueConfirm) (haddr : Addresses s c req 80 q) :
      Serves s c req (confirmInQueue c req q)
  | purge (q : Ptr) (hcmd : req.cmd = Cmd.queuePurge) (haddr : Addresses s c req 72 q) :
      Serves s c req do
        withStock q Stock.purgeQueueT
        respond c req Status.success
  | route (r : Ptr) (key : Name) (hcmd : req.cmd = Cmd.routePush) (hname : NamesRoute s c req r key)
      (hmem : s.nomemory = false) : Serves s c req (pushToRoute c req r key)

section Passive

variable {R : EagleServer → EagleServer → Prop} [IsPreorder EagleServer R] (hR : Passive R)

include hR

omit [IsPreorder EagleServer R] in
theorem Passive.keeps {α : Type} {m : ServerM α} (h : Keeps Answers Fault.Any m) : Keeps R Fault.Any m :=
  fun s => wp_mono (h s) (fun _ _ ht => hR.answers _ _ ht) fun _ h => h

omit [IsPreorder EagleServer R] in
theorem Passive.modify {f : EagleServer → EagleServer} (h : ∀ s, (f s).queueAt = s.queueAt)
    (ht : ∀ s, (f s).nowTimems = s.nowTimems) (hc : ∀ s, (f s).msgCounter = s.msgCounter) :
    Keeps R Fault.Any (modify f : ServerM Unit) :=
  keeps_modify _ fun s => hR.same _ _ (h s) (ht s) (hc s)

omit [IsPreorder EagleServer R] in
theorem Passive.respond (status : Byte) : Keeps R Fault.Any (respond c req status) :=
  hR.keeps (addStatusResponse_answers any_stock _ _)

theorem Passive.save [Lzf] (async : Bool) : Keeps R Fault.Any (saveData c req async) :=
  saveData_keeps (R := R) (fun _ => hR.same _ _ rfl rfl rfl) hR.respond async

theorem Passive.flush (flags : ℕ) : Keeps R Fault.Any (flushData c req flags) :=
  flushData_keeps (hR.modify (fun _ => rfl) (fun _ => rfl) fun _ => rfl)
    (fun _ => deleteQueues_upheld hR.toUpheld)
    (deleteRoutes_upheld hR.toUpheld) (deleteChannels_upheld hR.toUpheld) (hR.respond _)

theorem Passive.storageTimeouts : Keeps R Fault.Any storageTimeouts :=
  storageTimeouts_keeps (R := R) (fun _ _ => hR.same _ _ rfl rfl rfl) fun _ => hR.same _ _ rfl rfl rfl

theorem Passive.bindRouteT (r q : Ptr) (key : Name) : Keeps R Fault.Any (bindRouteT r q key) :=
  keeps_bind getRoute_any fun _ => keeps_ite (fun _ => keeps_pure _) fun _ => keeps_bind
    (keeps_bind getRoute_any fun _ => hR.modify (fun _ => rfl) (fun _ => rfl) fun _ => rfl) fun _ =>
      linkQueueRouteT_upheld hR.toUpheld key

omit [IsPreorder EagleServer R] in
theorem Passive.checkMemory : Keeps R Fault.Any checkMemory := keeps_modify _ fun s => by
  split_ifs <;> exact hR.same _ _ rfl rfl rfl

theorem Passive.clientTimeouts : Keeps R Fault.Any clientTimeouts :=
  clientTimeouts_upheld hR.toUpheld fun _ _ => hR.same _ _ rfl rfl rfl

/-- Every other operation of a request is passive. -/
theorem Effect.serves [Lzf] {m : ServerM Unit} (he : Effect s c req m) :
    Serves s c req m ∨ wp m (fun _ t => R s t) Fault.Any s := by
  have hkeeps : ∀ {m : ServerM Unit}, Keeps R Fault.Any m → Serves s c req m ∨
      wp m (fun _ t => R s t) Fault.Any s :=
    fun hm => .inr (hm s)
  have hthen : ∀ {m : ServerM Unit} (status : Byte), Keeps R Fault.Any m →
      Serves s c req (m >>= fun _ => respond c req status) ∨
        wp (m >>= fun _ => respond c req status) (fun _ t => R s t) Fault.Any s := fun status hm =>
    hkeeps (keeps_bind hm fun _ => hR.respond status)
  have hreport : ∀ {m : ServerM Bool}, Keeps R Fault.Any m →
      Serves s c req (reportResult c req m) ∨
      wp (reportResult c req m) (fun _ t => R s t) Fault.Any s := fun hm =>
    hkeeps (keeps_bind hm fun _ => keeps_ite (fun _ => hR.respond _) fun _ => hR.respond _)
  have hmodify : ∀ {f : EagleServer → EagleServer}, (∀ s, (f s).queueAt = s.queueAt) →
      (∀ s, (f s).nowTimems = s.nowTimems) → (∀ s, (f s).msgCounter = s.msgCounter) →
      Keeps R Fault.Any (modify f : ServerM Unit) := fun h ht hc => hR.modify h ht hc
  have hup := hR.toUpheld
  cases he with
  | status cmd status => exact hkeeps (hR.keeps (addStatusResponse_answers any_stock _ _))
  | auth user => exact hthen _ (hR.keeps (modifyClient_answers any_stock _))
  | disconnect => exact hkeeps (freeClient_upheld hup fun _ => hR.same _ _ rfl rfl rfl)
  | data body => exact hkeeps (hR.keeps (dataResponse_answers any_stock _ _))
  | fault e => exact .inr trivial
  | save async => exact hkeeps (hR.save async)
  | flush flags => exact hkeeps (hR.flush flags)
  | users f => exact hthen _ (hmodify (fun _ => rfl) (fun _ => rfl) fun _ => rfl)
  | queueCreate name maxMsg maxMsgSize flags _ _ _ hmax hcmd _ hmsg =>
    exact .inl (.create name maxMsg maxMsgSize flags hcmd hmsg hmax)
  | queueDeclare q => exact hthen _ (declareClientQueueT_upheld hup)
  | queueRename q name ha _ hname hfree hcmd hpos hold =>
    exact .inl (.rename q name ⟨hcmd, ha, hpos, hold, hname, hfree⟩)
  | queuePush q ha _ hcmd hpos hname hmem => exact .inl (.push q hcmd ⟨ha, hpos, hname⟩ hmem)
  | queueGet q => exact hkeeps (hR.keeps getFromQueue_answers)
  | queuePop q ha _ hcmd hpos hname => exact .inl (.pop q hcmd ⟨ha, hpos, hname⟩)
  | queueConfirm q ha _ hcmd hpos hname => exact .inl (.confirm q hcmd ⟨ha, hpos, hname⟩)
  | queueSubscribe q flags => exact hthen _ (subscribeClientQueueT_upheld hup flags)
  | queueUnsubscribe q => exact hthen _ (unsubscribeClientQueueT_upheld hup)
  | queuePurge q ha _ hcmd hpos hname => exact .inl (.purge q hcmd ⟨ha, hpos, hname⟩)
  | queueDelete q => exact hreport (listDeleteQueue_upheld hup)
  | routeCreate name flags =>
    exact hkeeps (keeps_bind (keeps_bind keeps_get fun _ => keeps_bind
      (hmodify (fun _ => rfl) (fun _ => rfl) fun _ => rfl) fun _ => keeps_pure _) fun _ =>
        keeps_bind (hmodify (fun _ => rfl) (fun _ => rfl) fun _ => rfl) fun _ => hR.respond _)
  | routeRename r name =>
    exact hthen _ (keeps_bind getRoute_any fun _ => hmodify (fun _ => rfl) (fun _ => rfl) fun _ => rfl)
  | routeBind r q key => exact hthen _ (hR.bindRouteT r q key)
  | routeUnbind r q key => exact hreport (unbindRouteT_upheld hup key)
  | routePush r key ha hr hcmd hpos hname hkey hmem =>
    exact .inl (.route r key hcmd ⟨ha, hpos, hr, hname, hkey⟩ hmem)
  | routeDelete r => exact hreport (listDeleteRoute_upheld hup)
  | channelCreate name flags =>
    exact hkeeps (keeps_bind (keeps_bind keeps_get fun _ => keeps_bind
      (hmodify (fun _ => rfl) (fun _ => rfl) fun _ => rfl) fun _ => keeps_pure _) fun _ =>
        keeps_bind (hmodify (fun _ => rfl) (fun _ => rfl) fun _ => rfl) fun _ => hR.respond _)
  | channelRename ch name =>
    exact hthen _ (keeps_bind getChannel_any fun _ => hmodify (fun _ => rfl) (fun _ => rfl) fun _ => rfl)
  | channelPublish ch topic => exact hkeeps (hR.keeps (publishToChannel_answers any_stock req topic))
  | channelSubscribe d ch name => exact hthen _ (subscribeSide_upheld hup d name)
  | channelUnsubscribe d ch name =>
    exact hkeeps (keeps_bind (unsubscribeSide_upheld hup d name) fun _ => keeps_ite
      (fun _ => keeps_bind (hR.respond _) fun _ => hR.respond _) fun _ => hR.respond _)
  | channelDelete ch => exact hreport (listDeleteChannel_upheld hup)

end Passive

theorem Serves.traffic {m : ServerM Unit} (hm : Serves s c req m) (h : Related .none s) :
    wp m (fun _ t => Traffic s (.request c req) t) Fault.Any s := by
  cases hm with
  | create name maxMsg maxMsgSize flags hcmd hmsg hmax =>
    refine createQueue_traffic hcmd hmsg hmax ?_
    by_contra hne
    have halive : (links s).queues.alive s.fresh = true := queue_alive.mpr (Option.ne_none_iff_exists'.mp hne)
    exact Nat.lt_irrefl _ (h.below.queues _ halive)
  | rename q name hname => exact rename_traffic hname
  | push q hcmd haddr hmem =>
    rw [pushToQueue, wp_bind]
    refine wp_mono (answers_idle (createObject_answers _) s) (fun o t ht => ?_) fun _ h => h
    refine wp_mono (reportResult_fed (l := [q]) ht ?_) (fun _ u hu => hu.traffic fun p hp => ?_) fun _ h => h
    · rw [wp_bind, wp_get]
      exact wp_mono (pushMessageQueueT_at o _ t)
        (fun _ u hu => Fed.cons (by simp) hu (Std.Refl.refl u : Idle u u).fed) fun _ h => h
    · rw [List.mem_singleton.mp hp]
      exact .queue hcmd haddr hmem
  | pop q hcmd haddr => exact popFromQueue_traffic hcmd haddr
  | confirm q hcmd haddr => exact confirmInQueue_traffic hcmd haddr
  | purge q hcmd haddr => exact purge_traffic hcmd haddr
  | route r key hcmd hname hmem =>
    obtain ⟨x, hx⟩ := route_alive.mp (h.consistent.routes.alive hname.listed)
    have hkeys : (links s).boundQueues r = x.keys := by simp [links, Heap.read, hx]
    have hnodup : (x.keys.values key).Nodup := hkeys ▸ (h.consistent.bound key).nodup r
    rw [pushToRoute, wp_bind]
    refine wp_mono (wp_and (answers_idle (createObject_answers _) s) (createObject_routes _ s))
      (fun o t ht => ?_) fun _ h => h
    rw [wp_bind]
    refine wp_mono (wp_and (answers_idle (resetRefcount_answers any_stock o) t)
      (resetRefcount_routes o t)) (fun _ u hu => ?_)
      fun _ h => h
    have hxu : u.routeAt r = some x := by rw [hu.2, ht.2]; exact hx
    refine wp_mono (reportResult_fed (IsTrans.trans _ _ _ ht.1 hu.1 : Idle s u) ?_)
      (fun _ v hv => hv.traffic fun p hp => .route hcmd hname hmem hx hp) fun _ h => h
    rw [wp_bind, wp_get]
    exact pushMessageRouteT_fed hxu hnodup o _

/-! ### Ticks -/

/-- Two operations on the messages of a queue are one. -/
theorem withStock_bind {α β : Type} (m : StockM α) (k : α → StockM β) :
    (withStock q m >>= fun a => withStock q (k a)) = withStock q (m >>= k) := by
  funext s
  show (withStock q m s).bind (fun x => withStock q (k x.1) x.2) = withStock q (m >>= k) s
  cases hx : s.queueAt q with
  | none => simp [withStock, hx, Except.bind]
  | some x =>
    have hbind : (m >>= k) ⟨x.backlog, s.objects⟩ = (m ⟨x.backlog, s.objects⟩).bind fun r => k r.1 r.2 := rfl
    cases hm : m ⟨x.backlog, s.objects⟩ with
    | error e => simp [withStock, hx, hbind, hm, Except.map, Except.bind]
    | ok r => simp [withStock, hx, hbind, hm, Except.map, Except.bind]

theorem processQueueMessages_at (s : EagleServer) :
    wp (processQueueMessages q) (fun _ t => At q (Restocked (Stock.tick (s.nowTimems % 4294967296)) ()) s t ∧
      t.nowTimems = s.nowTimems) Fault.Any s := by
  rw [processQueueMessages, wp_bind, wp_get]
  dsimp only
  rw [withStock_bind]
  refine wp_and (withStock_at _ s) (wp_mono (withStock_others _ s) (fun _ _ ht => ?_) fun _ h => h)
  obtain ⟨_, _, _, _, _, h⟩ := ht
  exact h

/-- The passes over the queues of a list, each of which comes once. -/
theorem processQueuesMessages_passed (hn : s.queues.Nodup) :
    wp processQueuesMessages (fun _ t => ∀ p y, t.queueAt p = some y → ∃ x, s.queueAt p = some x ∧
      if p ∈ s.queues then Restocked (Stock.tick (s.nowTimems % 4294967296)) () x y else y.bare =
        x.bare) Fault.Any s := by
  rw [processQueuesMessages, wp_bind, wp_get]
  refine wp_mono (wp_forM (fun rest t => t.nowTimems = s.nowTimems ∧ rest.Nodup ∧ (∀ p ∈ rest, p ∈ s.queues) ∧
    ∀ p y, t.queueAt p = some y → ∃ x, s.queueAt p = some x ∧
      if p ∈ s.queues ∧ p ∉ rest then Restocked (Stock.tick (s.nowTimems % 4294967296))
        () x y else y.bare = x.bare)
    processQueueMessages ?_ s.queues s ⟨rfl, hn, fun _ h => h, fun p y hy => ⟨y, hy, by simp⟩⟩)
    (fun _ t ht p y hy => by simpa using ht.2.2.2 p y hy) fun _ h => h
  rintro q rest t ⟨htime, hnodup, hmem, hall⟩
  obtain ⟨hq, hrest⟩ := List.nodup_cons.mp hnodup
  refine wp_mono (processQueueMessages_at t) (fun _ u hu => ⟨hu.2.trans htime, hrest,
    fun p hp => hmem p (List.mem_cons_of_mem q hp), fun p z hz => ?_⟩) fun _ h => h
  obtain ⟨y, hy, hyz⟩ := hu.1 p z hz
  obtain ⟨x, hx, hxy⟩ := hall p y hy
  refine ⟨x, hx, ?_⟩
  by_cases hp : p = q
  · subst hp
    rw [if_pos rfl, htime] at hyz
    rw [if_neg (by simp)] at hxy
    rw [if_pos ⟨hmem p (by simp), hq⟩]
    obtain ⟨hset, hb⟩ := settings_of_bare hxy
    exact ⟨hyz.1.trans hset, hb ▸ hyz.2⟩
  · rw [if_neg hp] at hyz
    simp only [List.mem_cons, hp, false_or] at hxy
    obtain ⟨hset, hb⟩ := settings_of_bare hyz
    split_ifs at hxy ⊢
    · exact ⟨hset.trans hxy.1, hb ▸ hxy.2⟩
    · exact hyz.trans hxy

/-- Every queue that is left has had both passes. -/
theorem serverUpdater_restocked (h : Related .none s) :
    wp serverUpdater (fun _ t => ∀ q y, t.queueAt q = some y →
    ∃ x, s.queueAt q = some x ∧ Restocked (Stock.tick (s.env.mstime % 4294967296)) () x y) Fault.Any s := by
  have hcheck : Keeps Frame Fault.Any checkMemory := keeps_modify _ fun s => by
    split_ifs <;> exact ⟨rfl, Nat.le_refl _⟩
  rw [serverUpdater, wp_bind, wp_modify, wp_bind]
  refine wp_mono (wp_and (passive_idle.checkMemory _) (hcheck _)) (fun _ t ht => ?_) fun _ h => h
  obtain ⟨ht, ht'⟩ := ht
  have hrel : Related .none t := (h.frame (t := { s with
    nowTime := s.env.time, nowTimems := s.env.mstime, msgCounter := 0 }) ⟨rfl, Nat.le_refl _⟩).frame ht'
  rw [wp_bind]
  refine wp_mono (wp_and (passive_idle.clientTimeouts t) (clientTimeouts_relates hrel)) (fun _ u hu => ?_)
    fun _ h => h
  obtain ⟨hu, hurel⟩ := hu
  rw [wp_bind]
  refine wp_mono (processQueuesMessages_passed hurel.consistent.queues.nodup) (fun _ v hv => ?_) fun _ h => h
  refine wp_mono (passive_idle.storageTimeouts v) (fun _ w hw => fun q z hz => ?_) fun _ h => h
  obtain ⟨y, hy, hyz⟩ := hw.queue q z hz
  obtain ⟨x, hx, hxy⟩ := hv q y hy
  obtain ⟨x', hx', hxx'⟩ := (IsTrans.trans _ _ _ ht hu : Idle _ _).queue q x hx
  have hlisted : q ∈ u.queues := (hurel.consistent.queues.mem q).mpr ⟨queue_alive.mpr ⟨x, hx⟩, fun h => h⟩
  rw [if_pos hlisted] at hxy
  obtain ⟨hset, hb⟩ := settings_of_bare hyz
  obtain ⟨hset', hb'⟩ := settings_of_bare hxx'
  obtain ⟨hpass, hrun⟩ := hxy
  have htime : u.nowTimems = s.env.mstime := hu.time.trans ht.time
  rw [htime, hb', ← hb] at hrun
  exact ⟨x', hx', hset.trans (hpass.trans hset'), hrun⟩

theorem serverUpdater_traffic (h : Related .none s) :
    wp serverUpdater (fun _ t => Traffic s .tick t) Fault.Any s :=
  wp_mono (serverUpdater_restocked h) (fun _ _ ht q y hy => by
    obtain ⟨x, hx, hset, hrun⟩ := ht q y hy
    exact .inl ⟨x, hx, .tick hset hrun⟩) fun _ h => h

/-! ### Steps -/

section Noack

variable {x : EagleClient} {noack : Bool}

/-- The checks do not look at the flag of the last request. -/
theorem Authorized.of_noack {cmd : Byte} (hx : s.clientAt c = some x)
    (h : Authorized (s.setClient c { x with noack := noack }) c cmd) : Authorized s c cmd := by
  obtain ⟨y, hy, hperm⟩ := h
  rw [EagleServer.setClient_clientAt] at hy
  obtain rfl := Option.some.inj hy
  exact ⟨x, hx, hperm⟩

theorem NamesRoute.of_noack {r : Ptr} {key : Name} (hx : s.clientAt c = some x)
    (h : NamesRoute (s.setClient c { x with noack := noack }) c req r key) : NamesRoute s c req r key :=
  ⟨h.authorized.of_noack hx, h.pos, h.listed, h.name, h.key⟩

theorem Addresses.of_noack {size : ℕ} (hx : s.clientAt c = some x)
    (h : Addresses (s.setClient c { x with noack := noack }) c req size q) : Addresses s c req size q := by
  have hlinks : links (s.setClient c { x with noack := noack }) = links s :=
    links_client_same hx rfl rfl fun d => by cases d <;> rfl
  have hname := h.name
  rw [hlinks] at hname
  exact ⟨h.authorized.of_noack hx, h.pos, hname⟩

theorem PushesTo.of_noack (hx : s.clientAt c = some x)
    (h : PushesTo (s.setClient c { x with noack := noack }) q (.request c req)) :
    PushesTo s q (.request c req) := by
  cases h with
  | queue hcmd haddr hmem => exact .queue hcmd (haddr.of_noack hx) hmem
  | route hcmd hname hmem hr hq => exact .route hcmd (hname.of_noack hx) hmem hr hq

theorem Change.of_noack {y z : QueueT} (hx : s.clientAt c = some x)
    (h : Change (s.setClient c { x with noack := noack }) q y z (.request c req)) :
    Change s q y z (.request c req) := by
  cases h with
  | same h => exact .same h
  | push hto hset h => exact .push (hto.of_noack hx) hset h
  | pop hcmd ha hset h => exact .pop hcmd (ha.of_noack hx) hset h
  | confirm hcmd ha hset h => exact .confirm hcmd (ha.of_noack hx) hset h
  | purge hcmd ha hset h => exact .purge hcmd (ha.of_noack hx) hset h
  | rename hname h =>
    exact .rename ⟨hname.cmd, hname.authorized.of_noack hx, hname.pos, hname.old, hname.new, hname.free⟩ h

end Noack

/-- A step is passive, a tick, or a request that changes the messages or the settings of a queue. -/
theorem step_passive [Lzf] {R : EagleServer → EagleServer → Prop} [IsPreorder EagleServer R] (hR : Passive R)
    (h : Related .none s) (ha : Enabled s op) (ht : step s op = .ok t) : R s t ∨ op = .tick ∨
    ∃ c req x noack m, op = .request c req ∧ s.clientAt c = some x ∧
      Serves (s.setClient c { x with noack := noack }) c req m ∧
      m (s.setClient c { x with noack := noack }) = .ok ((), t) := by
  have hrun := step_eq_ok.mp ht
  have hkeeps : Keeps R Fault.Any op.run → R s t := fun hk => ok_of_wp (Q := fun _ t => R s t) (hk s) hrun
  have hcreate : ∀ fd, Keeps R Fault.Any (createClient fd) := fun fd s => by
    rw [createClient, wp_bind, wp_get]
    exact wp_ite (fun _ => hR.same _ _ rfl rfl rfl) fun _ => keeps_pure (R := R) _ s
  have hfree : ∀ (s : EagleServer) c, R s { s with
      clients := s.clients.erase c
      clientAt := Function.update s.clientAt c none } := fun _ _ => hR.same _ _ rfl rfl rfl
  have hup := hR.toUpheld
  cases op with
  | environment env => exact .inl (hkeeps (hR.modify (fun _ => rfl) (fun _ => rfl) fun _ => rfl))
  | connect fd => exact .inl (hkeeps (acceptClient_upheld hup hcreate hfree fd))
  | receive c =>
    exact .inl (hkeeps (hR.keeps (keeps_bind keeps_get fun _ => modifyClient_answers any_stock _)))
  | request c req =>
    obtain ⟨x, hx⟩ := client_alive.mp (h.consistent.clients.alive ha.1)
    obtain ⟨noack, m, he, hm⟩ := parseCommand_effect req h hx
    have hrun' : m (s.setClient c { x with noack := noack }) = .ok ((), t) := hm ▸ hrun
    refine (he.serves hR).symm.imp (fun hpassive => ?_) fun hserves =>
      .inr ⟨c, req, x, noack, m, rfl, hx, hserves, hrun'⟩
    have hclient : R s (s.setClient c { x with noack := noack }) := hR.same _ _ rfl rfl rfl
    exact IsTrans.trans (r := R) _ _ _ hclient (ok_of_wp (Q := fun _ t => R _ t) hpassive hrun')
  | malformed c => exact .inl (hkeeps (hR.keeps (addStatusResponse_answers any_stock _ _)))
  | send c results => exact .inl (hkeeps (sendResponse_upheld hup hR.answers (hfree · c) results false))
  | close c => exact .inl (hkeeps (freeClient_upheld hup (hfree · c)))
  | tick => exact .inr (.inl rfl)

/-- What a step does to the messages of the queues. -/
theorem step_traffic [Lzf] (h : Related .none s) (ha : Enabled s op) (ht : step s op = .ok t) :
    Traffic s op t := by
  rcases step_passive passive_idle h ha ht with hidle | rfl | ⟨c, req, x, noack, m, rfl, hx, hserves, hrun⟩
  · exact hidle.traffic
  · exact ok_of_wp (Q := fun _ t => Traffic s .tick t) (serverUpdater_traffic h) (step_eq_ok.mp ht)
  · have hsame : Frame s (s.setClient c { x with noack := noack }) :=
      ⟨links_client_same hx rfl rfl fun d => by cases d <;> rfl, Nat.le_refl _⟩
    have htraffic := ok_of_wp (hserves.traffic (h.frame hsame)) hrun
    exact fun q y hy => (htraffic q y hy).imp_left fun ⟨y, hy, hc⟩ => ⟨y, hy, hc.of_noack hx⟩

end Steps

end EagleMQ
