import EagleMQ.Consistency

/-! What a client may do without the permission for its command: be told so. The
server's data, the other clients and their responses stay as they are, and what
the client receives are bare statuses. -/

namespace EagleMQ

open Prog

variable {s t u : EagleServer} {c : Ptr} {req : Request}

/-- A response without a body. -/
def Bare (x : Object) : Prop := ∃ cmd status, x.data = responseHeader cmd status 0

/-- Nothing but the connection of one client differs. -/
structure SameData (s : EagleServer) (c : Ptr) (t : EagleServer) : Prop where
  users : t.users = s.users
  queues : t.queues = s.queues ∧ t.queueAt = s.queueAt
  routes : t.routes = s.routes ∧ t.routeAt = s.routeAt
  channels : t.channels = s.channels ∧ t.channelAt = s.channelAt
  others : ∀ c', c' ≠ c → t.clientAt c' = s.clientAt c'

theorem SameData.refl : SameData s c s := ⟨rfl, ⟨rfl, rfl⟩, ⟨rfl, rfl⟩, ⟨rfl, rfl⟩, fun _ _ => rfl⟩

theorem SameData.trans (h : SameData s c t) (h' : SameData t c u) : SameData s c u :=
  ⟨h'.users.trans h.users, ⟨h'.queues.1.trans h.queues.1, h'.queues.2.trans h.queues.2⟩,
    ⟨h'.routes.1.trans h.routes.1, h'.routes.2.trans h.routes.2⟩,
    ⟨h'.channels.1.trans h.channels.1, h'.channels.2.trans h.channels.2⟩,
    fun c' hc => (h'.others c' hc).trans (h.others c' hc)⟩

/-- The client keeps its place in every relation. -/
structure SameRelations (x y : EagleClient) : Prop where
  declared : y.declaredQueues = x.declaredQueues
  subscribed : y.subscribedQueues = x.subscribedQueues
  topics : ∀ d, y.side d = x.side d

/-- Nothing has changed but the connection of the client itself, which has been
given bare statuses; `P` are the permissions it may have got. -/
structure Quiet (P : ℕ → Prop) (s : EagleServer) (c : Ptr) (t : EagleServer) : Prop where
  data : SameData s c t
  clients : t.clients = s.clients
  fresh : s.fresh ≤ t.fresh
  objects : ∀ o < s.fresh, t.objects o = s.objects o
  own : ∃ x y, s.clientAt c = some x ∧ t.clientAt c = some y ∧ SameRelations x y ∧
    (y.perm = x.perm ∨ P y.perm) ∧ ∃ l, y.responses = x.responses ++ l ∧
      ∀ o ∈ l, (s.fresh ≤ o ∧ o < t.fresh) ∧ ∃ z, t.objects o = some z ∧ Bare z

theorem Quiet.trans {P : ℕ → Prop} (h : Quiet P s c t) (h' : Quiet P t c u) :
    Quiet P s c u := by
  obtain ⟨x, y, hx, hy, hsame, hperm, l, hl, hbare⟩ := h.own
  obtain ⟨y', z, hy', hz, hsame', hperm', l', hl', hbare'⟩ := h'.own
  obtain rfl : y = y' := Option.some.inj (hy.symm.trans hy')
  refine ⟨h.data.trans h'.data, h'.clients.trans h.clients, Nat.le_trans h.fresh h'.fresh,
    fun o ho => ?_, x, z, hx, hz, ?_, ?_, l ++ l', ?_, fun o ho => ?_⟩
  · rw [h'.objects o (Nat.lt_of_lt_of_le ho h.fresh), h.objects o ho]
  · exact ⟨hsame'.declared.trans hsame.declared, hsame'.subscribed.trans hsame.subscribed,
      fun d => (hsame'.topics d).trans (hsame.topics d)⟩
  · rcases hperm' with hp | hp
    · rw [hp]; exact hperm
    · exact .inr hp
  · rw [hl', hl, List.append_assoc]
  · rcases List.mem_append.mp ho with ho | ho
    · obtain ⟨⟨hle, hlt⟩, z, hz, hb⟩ := hbare o ho
      exact ⟨⟨hle, Nat.lt_of_lt_of_le hlt h'.fresh⟩, z, by rw [h'.objects o hlt, hz], hb⟩
    · obtain ⟨⟨hle, hlt⟩, hz⟩ := hbare' o ho
      exact ⟨⟨Nat.le_trans h.fresh hle, hlt⟩, hz⟩

/-! ### Responses -/

section Responses

variable {P : ℕ → Prop} {x : EagleClient}

/-- A change of the client's own record that leaves its relations and responses alone. -/
theorem quiet_setClient {y : EagleClient} (hx : s.clientAt c = some x) (hs : SameRelations x y)
    (hr : y.responses = x.responses) (hp : y.perm = x.perm ∨ P y.perm) :
    Quiet P s c (s.setClient c y) where
  data := ⟨rfl, ⟨rfl, rfl⟩, ⟨rfl, rfl⟩, ⟨rfl, rfl⟩, fun _ hc => Function.update_of_ne hc ..⟩
  clients := rfl
  fresh := Nat.le_refl _
  objects _ _ := rfl
  own := ⟨x, y, hx, Function.update_self .., hs, hp, [], by simp [hr], by simp⟩

theorem Quiet.refl (hx : s.clientAt c = some x) : Quiet P s c s := by
  have := quiet_setClient (P := P) hx ⟨rfl, rfl, fun _ => rfl⟩ rfl (.inl rfl)
  rwa [show s.setClient c x = s by simp only [EagleServer.setClient, ← hx, Function.update_eq_self]] at this

theorem setWriteEvent_spec {Q : Bool → EagleServer → Prop} {E : Fault → Prop} (hx : s.clientAt c = some x)
    (hQ : ∀ ok w, Q ok (s.setClient c { x with writable := w })) : wp (setWriteEvent c) Q E s := by
  have hsame : s.setClient c { x with writable := x.writable } = s := by
    simp only [EagleServer.setClient, ← hx, Function.update_eq_self]
  rw [setWriteEvent, wp_bind, wp_getClient hx]
  refine wp_ite (fun _ => hsame ▸ hQ false x.writable) fun _ => ?_
  rw [wp_bind, wp_get]
  refine wp_ite (fun _ => ?_) fun _ => hsame ▸ hQ _ x.writable
  rw [wp_bind]
  exact wp_modifyClient ⟨x, hx, hQ true true⟩

theorem addResponse_quiet {data : List Byte} (hx : s.clientAt c = some x)
    (hdata : ∃ cmd status, data = responseHeader cmd status 0) :
    wp (addResponse c data) (fun _ t => Quiet P s c t) (fun _ => False) s := by
  have hown : ∀ v, (∀ o < s.fresh, Function.update s.objects s.fresh v o = s.objects o) := fun v o ho =>
    Function.update_of_ne (Nat.ne_of_lt ho) ..
  rw [addResponse, wp_bind]
  show wp _ _ _ { s with objects := Function.update s.objects s.fresh (some ⟨data, 1⟩), fresh := s.fresh + 1 }
  rw [wp_bind]
  refine setWriteEvent_spec hx fun ok w => wp_ite (fun _ => ?_) fun _ => ?_
  · rw [appendResponse, wp_bind, wp_get]
    refine wp_modifyClient ⟨_, Function.update_self .., ?_⟩
    refine ⟨⟨rfl, ⟨rfl, rfl⟩, ⟨rfl, rfl⟩, ⟨rfl, rfl⟩, fun c' hc => ?_⟩, rfl, Nat.le_succ _, hown _,
      x, _, hx, Function.update_self .., ⟨rfl, rfl, fun d => by cases d <;> rfl⟩, .inl rfl, [s.fresh], rfl,
      ?_⟩
    · simp only [EagleServer.setClient, Function.update_idem]
      exact Function.update_of_ne hc ..
    · rintro o ho
      obtain rfl := List.mem_singleton.mp ho
      exact ⟨⟨Nat.le_refl _, Nat.lt_succ_self _⟩, ⟨data, 1⟩, Function.update_self .., hdata⟩
  · rw [releaseObject, modifyObjects, wp_bind, wp_get]
    simp only [Objects.releaseObject, Objects.find, EagleServer.setClient, Function.update_self]
    exact ⟨⟨rfl, ⟨rfl, rfl⟩, ⟨rfl, rfl⟩, ⟨rfl, rfl⟩, fun c' hc => Function.update_of_ne hc ..⟩, rfl,
      Nat.le_succ _, fun o ho => by simp [Function.update_of_ne (Nat.ne_of_lt ho)],
      x, { x with writable := w }, hx, Function.update_self ..,
      ⟨rfl, rfl, fun d => by cases d <;> rfl⟩, .inl rfl, [], by simp, by simp⟩

theorem addStatusResponse_quiet (cmd status : Byte) (hx : s.clientAt c = some x) :
    wp (addStatusResponse c cmd status) (fun _ t => Quiet P s c t) (fun _ => False) s := by
  rw [addStatusResponse, wp_bind, wp_getClient hx]
  exact wp_ite (fun _ => addResponse_quiet hx ⟨cmd, status, rfl⟩) fun _ => .refl hx

end Responses

/-! ### Leaving -/

/-- The client is in no relation, as after its connection. -/
structure Unrelated (x : EagleClient) : Prop where
  declared : x.declaredQueues = []
  subscribed : x.subscribedQueues = []
  topics : ∀ d, x.side d = []

/-- The client is gone, and of the objects at most its responses have been released. -/
structure Left (s : EagleServer) (c : Ptr) (t : EagleServer) : Prop where
  data : SameData s c t
  clients : t.clients = s.clients.erase c
  gone : t.clientAt c = none
  objects : ∀ x, s.clientAt c = some x → ∀ o < s.fresh, o ∉ x.responses → t.objects o = s.objects o

theorem foreach_nil {ι : Type} [DecidableEq ι] {read : ServerM (List ι)} {body : ι → ServerM Unit}
    (h : read s = .ok ([], s)) : wp (foreach read Fault.link body) (fun _ t => t = s) (fun _ => True) s := by
  rw [foreach, wp_bind]
  exact wp_of_ok h rfl

/-- Some of the objects given have been released. -/
def Released (l : List Ptr) (s t : EagleServer) : Prop :=
  ∃ objects, t = { s with objects := objects } ∧ ∀ o ∉ l, objects o = s.objects o

instance (l : List Ptr) : IsPreorder EagleServer (Released l) where
  refl s := ⟨s.objects, rfl, fun _ _ => rfl⟩
  trans := by
    rintro s _ _ ⟨objects, rfl, h⟩ ⟨objects', rfl, h'⟩
    exact ⟨objects', rfl, fun o ho => (h' o ho).trans (h o ho)⟩

theorem decrementReferencesCount_released {l : List Ptr} {o : Ptr} (ho : o ∈ l) (s : EagleServer) :
    wp (decrementReferencesCount o) (fun _ t => Released l s t) (fun _ => True) s := by
  rw [decrementReferencesCount, modifyObjects, wp_bind, wp_get]
  unfold Objects.decrementReferencesCount Objects.find
  cases s.objects o with
  | none => exact trivial
  | some x =>
    refine ⟨_, rfl, fun p hp => Function.update_of_ne ?_ ..⟩
    rintro rfl
    exact hp ho

theorem freeClient_left {x : EagleClient} (hx : s.clientAt c = some x) (hr : Unrelated x) :
    wp (freeClient c) (fun _ t => Left s c t) (fun _ => True) s := by
  have hnil : ∀ {ι : Type} [DecidableEq ι] (f : EagleClient → List ι) {body : ι → ServerM Unit}
      {Q : Unit → EagleServer → Prop}, f x = [] → Q () s →
      wp (foreach (do pure (f (← getClient c))) Fault.link body) Q (fun _ => True) s :=
    fun {ι} _ f {body Q} hf hQ => wp_mono (foreach_nil ((read_getClient hx f).trans (by rw [hf])))
      (fun _ t ht => ht ▸ hQ) fun _ h => h
  rw [freeClient, wp_bind, ejectQueueClient, wp_bind]
  refine hnil EagleClient.subscribedQueues hr.subscribed (hnil EagleClient.declaredQueues hr.declared ?_)
  rw [wp_bind, ejectChannelClient, wp_bind]
  refine hnil (fun x => (x.side .topic).keys) (by simp [hr.topics]) (hnil (fun x => (x.side .pattern).keys)
    (by simp [hr.topics]) ?_)
  rw [wp_bind, wp_getClient hx, wp_bind]
  refine wp_mono (wp_forM_trans fun o ho t _ => decrementReferencesCount_released ho t)
    (fun _ t ht => ?_) fun _ h => h
  obtain ⟨objects, rfl, hobjects⟩ := ht
  refine ⟨⟨rfl, ⟨rfl, rfl⟩, ⟨rfl, rfl⟩, ⟨rfl, rfl⟩, fun c' hc => Function.update_of_ne hc ..⟩, rfl,
    Function.update_self .., fun y hy o _ ho => hobjects o ?_⟩
  rwa [Option.some.inj (hx.symm.trans hy)]

/-! ### Frames -/

section Frames

variable [Lzf]

/-- The permissions that a frame gives to its client. -/
def granted (s : EagleServer) (req : Request) (perm : ℕ) : Prop :=
  ∃ user, Authenticates s.users req user ∧ perm = user.perm

/-- An operation that needs no permission. -/
theorem Effect.quiet {m : ServerM Unit} (he : Effect s c req m) {x : EagleClient}
    (hx : s.clientAt c = some x) (ha : ¬Authorized s c req.cmd) :
    wp m (fun _ t => Quiet (granted s req) s c t) (fun _ => False) s ∨
      req.cmd = Cmd.disconnect ∧ m = freeClient c := by
  cases he with
  | status cmd status => exact .inl (addStatusResponse_quiet cmd status hx)
  | auth user hu =>
    have hset := quiet_setClient (y := { x with perm := user.perm }) (P := granted s req) hx
      ⟨rfl, rfl, fun d => by cases d <;> rfl⟩ rfl (.inr ⟨user, hu, rfl⟩)
    rw [wp_bind]
    refine .inl (wp_modifyClient ⟨x, hx, ?_⟩)
    exact wp_mono (addStatusResponse_quiet _ _ (Function.update_self ..)) (fun _ t ht => hset.trans ht)
      fun _ h => h
  | disconnect h => exact .inr ⟨h, rfl⟩
  | _ => exact absurd ‹Authorized s c req.cmd› ha

/-- Without the permission a frame is answered, or the client leaves. -/
theorem parseCommand_quiet (req : Request) (h : Related .none s) {x : EagleClient}
    (hx : s.clientAt c = some x)
    (ha : ¬Authorized s c req.cmd) :
    wp (parseCommand c req) (fun _ t => Quiet (granted s req) s c t) (fun _ => False) s ∨
      req.cmd = Cmd.disconnect ∧ ∃ y, SameRelations x y ∧ y.responses = x.responses ∧ y.perm = x.perm ∧
        parseCommand c req s = freeClient c (s.setClient c y) := by
  obtain ⟨noack, m, he, hm⟩ := parseCommand_effect req h hx
  have hset := quiet_setClient (y := { x with noack := noack }) (P := granted s req) hx
    ⟨rfl, rfl, fun d => by cases d <;> rfl⟩ rfl (.inl rfl)
  have ha' : ¬Authorized (s.setClient c { x with noack := noack }) c req.cmd := by
    rintro ⟨y, hy, hperm⟩
    rw [EagleServer.setClient_clientAt] at hy
    cases hy
    exact ha ⟨x, hx, hperm⟩
  rcases he.quiet (Function.update_self ..) ha' with hq | ⟨hcmd, rfl⟩
  · refine .inl ?_
    have hfrom : wp m (fun _ t => Quiet (granted s req) s c t) (fun _ => False)
        (s.setClient c { x with noack := noack }) :=
      wp_mono hq (fun _ t ht => hset.trans ht) fun _ h => h
    unfold wp at hfrom ⊢
    rwa [hm]
  · exact .inr ⟨hcmd, { x with noack := noack }, ⟨rfl, rfl, fun d => by cases d <;> rfl⟩, rfl, rfl, hm⟩

omit [Lzf] in
theorem Left.of_quiet {P : ℕ → Prop} (h : Quiet P s c t) (h' : Left t c u) : Left s c u where
  data := h.data.trans h'.data
  clients := by rw [h'.clients, h.clients]
  gone := h'.gone
  objects x hx o ho hox := by
    obtain ⟨x', y, hx', hy, _, _, l, hl, hnew⟩ := h.own
    obtain rfl := Option.some.inj (hx.symm.trans hx')
    rw [h'.objects y hy o (Nat.lt_of_lt_of_le ho h.fresh) ?_, h.objects o ho]
    rw [hl, List.mem_append, not_or]
    exact ⟨hox, fun hol => absurd ho (Nat.not_lt.mpr (hnew o hol).1.1)⟩

/-- A frame of a client that has the permission 0 and does not authenticate. -/
def Unprivileged (s : EagleServer) (c : Ptr) (u : EagleServer) (op : Op) : Prop :=
  Enabled u op ∧ ∃ req, op = .request c req ∧ (∀ user, ¬Authenticates u.users req user) ∧
    (req.cmd = Cmd.disconnect → ∀ x, s.clientAt c = some x → Unrelated x)

omit [Lzf] in
theorem not_authorized {x : EagleClient} (hx : s.clientAt c = some x) (hp : x.perm = 0) (cmd : Byte) :
    ¬Authorized s c cmd := by
  rintro ⟨y, hy, hperm⟩
  obtain rfl := Option.some.inj (hx.symm.trans hy)
  simp [hp, bitCheck] at hperm

omit [Lzf] in
theorem Quiet.mono {P P' : ℕ → Prop} (h : Quiet P s c t) (hp : ∀ p, P p → P' p) :
    Quiet P' s c t := by
  obtain ⟨x, y, hx, hy, hsame, hperm, hl⟩ := h.own
  exact { h with own := ⟨x, y, hx, hy, hsame, hperm.imp id (hp _), hl⟩ }

/-- One frame without the permission for its command. -/
theorem request_quiet (h : Reachable s) (hc : c ∈ s.clients) (hcmd : req.cmd ≠ Cmd.disconnect)
    (ha : ¬Authorized s c req.cmd) :
    ∃ t, step s (.request c req) = .ok t ∧ Quiet (granted s req) s c t := by
  obtain ⟨x, hx⟩ := (h.related.mem_clients c).mp hc
  rcases parseCommand_quiet req h.related hx ha with hq | ⟨hd, -⟩
  · obtain ⟨_, t, ht, hq⟩ := returns_of_wp hq
    exact ⟨t, step_eq_ok.mpr ht, hq⟩
  · exact absurd hd hcmd

/-- What a client with the permission 0 has done after some frames. -/
theorem unprivileged_run (h : Reachable s) {x : EagleClient} (hx : s.clientAt c = some x)
    (hp : x.perm = 0) (hrun : Run (Unprivileged s c) step s t) :
    Reachable t ∧ (Quiet (fun _ => False) s c t ∨ Left s c t) := by
  refine hrun.invariant (fun t => Reachable t ∧ (Quiet (fun _ => False) s c t ∨ Left s c t))
    ⟨h, .inl (.refl hx)⟩ ?_
  rintro u _ v ⟨hu, hquiet⟩ ⟨ha, req, rfl, hauth, hdisc⟩ hv
  refine ⟨hu.step _ ha hv, ?_⟩
  have hmem : c ∈ u.clients := ha.1
  rcases hquiet with hquiet | hleft
  · obtain ⟨x', y, hx', hy, hsame, hperm, -⟩ := hquiet.own
    obtain rfl := Option.some.inj (hx.symm.trans hx')
    have hy0 : y.perm = 0 := (hperm.resolve_right id).trans hp
    have hv : parseCommand c req u = .ok ((), v) := step_eq_ok.mp hv
    rcases parseCommand_quiet req hu.related hy (not_authorized hy hy0 _) with hq | ⟨hd, z, hz, hr, hzp, hm⟩
    · have hq : Quiet (fun _ => False) u c v :=
        (ok_of_wp hq hv).mono fun p ⟨user, hu, _⟩ => hauth user hu
      exact .inl (hquiet.trans hq)
    · have hun := hdisc hd x hx
      have hzun : Unrelated z := ⟨by rw [hz.declared, hsame.declared, hun.declared],
        by rw [hz.subscribed, hsame.subscribed, hun.subscribed],
        fun d => by rw [hz.topics, hsame.topics, hun.topics]⟩
      have hl := ok_of_wp (freeClient_left (EagleServer.setClient_clientAt z) hzun) (hm ▸ hv)
      exact .inr (.of_quiet (hquiet.trans (quiet_setClient hy hz hr (.inl hzp))) hl)
  · obtain ⟨y, hy⟩ := (hu.related.mem_clients c).mp hmem
    rw [hleft.gone] at hy
    cases hy

/-- Whatever changes data, reaches another client or returns data needs a permission
of the table; in particular a client with the permission 0 that does not
authenticate changes and receives nothing, frame after frame. -/
theorem authorization_sound (h : Reachable s) (hc : c ∈ s.clients) :
    (∀ req, req.cmd ≠ Cmd.disconnect → ¬Authorized s c req.cmd →
      ∃ t, step s (.request c req) = .ok t ∧ Quiet (granted s req) s c t) ∧
    ∀ x, s.clientAt c = some x → x.perm = 0 → ∀ t, Run (Unprivileged s c) step s t →
      Quiet (fun _ => False) s c t ∨ Left s c t :=
  ⟨fun _ hcmd ha => request_quiet h hc hcmd ha,
    fun _ hx hp _ hrun => (unprivileged_run h hx hp hrun).2⟩

end Frames

/-- A new client asks for the queues. -/
theorem authorization_sound_newcomer : ∃ s t, s.queues = [2] ∧
    @step Lzf.stored s (.request 4 (.frame Cmd.queueList [])) = .ok t ∧
    Quiet (granted s (.frame Cmd.queueList [])) s 4 t := by
  obtain ⟨s, hs, hp⟩ := Sample.exists_run
    (Sample.login 0 ++ [Sample.queueCreate 0 [113] 10 0, .connect 6])
    (p := fun s => s.queues = [2] ∧ 4 ∈ s.clients ∧ (s.clientAt 4).map EagleClient.perm = some 0)
    (by decide +kernel)
  obtain ⟨hq, hc, hperm⟩ := of_decide_eq_true hp
  obtain ⟨x, hx, hx0⟩ := Option.map_eq_some_iff.mp hperm
  obtain ⟨t, ht, hquiet⟩ := (@authorization_sound _ _ Lzf.stored hs hc).1 (.frame Cmd.queueList [])
    (by decide) (not_authorized hx hx0 _)
  exact ⟨s, t, hq, ht, hquiet⟩

end EagleMQ
