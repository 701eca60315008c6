import EagleMQ.Streams.Packets

/-! The answers to the requests. A request is answered once, whether its handler
refuses it or carries it out; a save and the end of a subscription that fail are
answered twice, since the handler goes on after the error. -/

namespace EagleMQ

open Prog

/-- The request passes the checks of its handler, and the save or the end of the
subscription returns an error. -/
inductive Fails [Lzf] (s : EagleServer) (c : Ptr) (req : Request) : Prop
  | save {t : EagleServer} (hcmd : req.cmd = Cmd.save) (ha : Authorized s c req.cmd) (hpos : 9 ≤ req.pos)
      (herror : (if req.mem 8 != 0 then storageSaveBackground else storageSaveSync) s =
        .ok (false, t)) : Fails s c req
  | unsubscribe {t : EagleServer} {d : Side} {ch : Ptr} {name : Name} (hcmd : req.cmd = d.unsubscribeCmd)
      (ha : Authorized s c req.cmd) (hpos : 104 ≤ req.pos) (hname : Names req s.channelName s.channels ch)
      (htopic : Accepted req d.check 72 32 name)
      (herror : unsubscribeSide d ch c name s = .ok (false, t)) : Fails s c req

/-- A request is answered once, or twice when what it asks for returns an error. -/
def Replies [Lzf] (s : EagleServer) (c : Ptr) (req : Request) (n : ℕ) : Prop :=
  n = 1 ∧ ¬Fails s c req ∨ n = 2 ∧ Fails s c req

section Answered

variable {s t u v : EagleServer} {c d o q m : Ptr} {n k : ℕ} {x y : EagleClient} {req : Request}

/-! ### Requests -/

theorem utters_ite {α : Type} {b : Prop} [Decidable b] {m m' : ServerM α} (hm : b → Utters c n m)
    (hm' : ¬b → Utters c n m') :
    Utters c n (if b then m else m') := fun s => wp_ite (fun h => hm h s) fun h => hm' h s

theorem reportResult_utters {m : ServerM Bool} (h : Keeps (Talking c 0) Fault.Any m) :
    Utters c 1 (reportResult c req m) :=
  .after h fun _ => utters_ite (fun _ => respond_utters c req _) fun _ => respond_utters c req _

theorem slice_length (mem : ℕ → Byte) (i n : ℕ) : (slice mem i n).length = n := by simp [slice]

theorem rest_length (hf : req.Framed) {i : ℕ} (hi : headerSize ≤ i) : (req.rest i).length < 2147483656 := by
  rw [Request.rest, slice_length]
  have h := hf.2
  rw [headerSize, maxBufSize] at h
  rw [headerSize] at hi
  omega

/-! ### Checks that are passed -/

theorem requirePacket_run {size : ℕ} {m : ServerM Unit} (h : size ≤ req.pos) :
    requirePacket c req size m = m :=
  if_neg (Nat.not_lt.mpr h)

theorem requirePerm_run {bits : List ℕ} {m : ServerM Unit} (h : Authorized s c req.cmd)
    (hbits : requiredPerms req.cmd = bits) : requirePerm c req bits m s = m s := by
  obtain ⟨x, hx, hp⟩ := h
  rw [requirePerm, bind_run (run_getClient hx), ← hbits, if_pos hp]

theorem requireField_run {check : (ℕ → Byte) → ℕ → ℕ} {i size : ℕ} {name : Name} {f : Name → ServerM Unit}
    (h : Accepted req check i size name) : requireField c req check i size f = f name := by
  obtain ⟨n, hn, rfl, rfl⟩ := h
  exact if_neg hn

theorem requireFound_run {status : Byte} {find : ServerM (Option Ptr)} {p : Ptr} {f : Ptr → ServerM Unit}
    (h : find s = .ok (some p, s)) : requireFound c req status find f s = f p s := bind_run h

theorem findChannel_run {name : Name} {ch : Ptr} (h : Related .none s)
    (hch : findNamed s.channelName name s.channels = .ok (some ch)) :
    findChannel name s = .ok (some ch, s) := by
  obtain ⟨r, hrun, hresult, -⟩ := findChannel_spec name h
  obtain rfl := Except.ok.inj (hch.symm.trans hresult)
  exact hrun

/-- The handlers of the commands on a channel and a topic. -/
theorem topicCommandHandler_run {size : ℕ} {bits : List ℕ} {check : (ℕ → Byte) → ℕ → ℕ}
    {f : Ptr → Name → ServerM Unit}
    {ch : Ptr} {topic : Name} (h : Related .none s) (hpos : size ≤ req.pos) (ha : Authorized s c req.cmd)
    (hbits : requiredPerms req.cmd = bits) (hname : Names req s.channelName s.channels ch)
    (htopic : Accepted req check 72 32 topic) :
    topicCommandHandler c req size bits check f s = f ch topic s := by
  obtain ⟨name, hname, hch⟩ := hname
  rw [topicCommandHandler, requirePacket_run hpos, requirePerm_run ha hbits, requireField_run hname,
    requireField_run htopic]
  exact requireFound_run (findChannel_run h hch)

/-! ### The client that is answered -/

theorem addResponse_there {data : List Byte} (s : EagleServer) :
    wp (addResponse c data) (fun _ t => t.clientAt c ≠ none) Fault.Any s := by
  cases hx : s.clientAt c with
  | none => simp [addResponse, createObject, setWriteEvent, getClient, hx, Fault.Any]
  | some x => exact wp_addResponse hx (by simp)

theorem addStatusResponse_there {cmd status : Byte} (s : EagleServer) :
    wp (addStatusResponse c cmd status) (fun _ t => t.clientAt c ≠ none) Fault.Any s := by
  cases hx : s.clientAt c with
  | none => simp [addStatusResponse, getClient, hx, Fault.Any]
  | some x =>
    rw [addStatusResponse, wp_bind, wp_getClient hx]
    exact wp_ite (fun _ => addResponse_there s) fun _ => by simp [hx]

theorem messageResponse_there (s : EagleServer) :
    wp (messageResponse c req q m) (fun _ t => t.clientAt c ≠ none) Fault.Any s := by
  refine wp_last (fun _ => trivial) fun msg t => wp_last (fun _ => trivial) fun _ u => ?_
  rw [wp_bind]
  refine wp_mono (addResponse_there u) (fun _ v hv => ?_) fun _ h => h
  obtain ⟨x, hx⟩ := Option.ne_none_iff_exists'.mp hv
  cases hi : Objects.incrementReferencesCount v.objects msg.value with
  | error e => simp [addObjectResponse, incrementReferencesCount, modifyObjects, hi, Fault.Any]
  | ok objects =>
    obtain ⟨z, hz, hwrap, -⟩ := increment_ok hi
    exact wp_addObjectResponse hx hz hwrap (by simp)

theorem withStock_there {α : Type} (f : StockM α) {s : EagleServer} (hs : s.clientAt c ≠ none) :
    wp (withStock q f) (fun _ t => t.clientAt c ≠ none) Fault.Any s := by
  cases hx : s.queueAt q with
  | none => simp [wp, withStock, hx, Fault.Any]
  | some x => exact wp_withStock hx (wp_mono (wp_result f _) (fun _ _ _ => hs) fun _ _ => trivial)

theorem freeClient_gone (s : EagleServer) :
    wp (freeClient c) (fun _ t => t.clientAt c = none) Fault.Any s := by
  have hany : ∀ e : Fault, e.Any := fun _ => trivial
  exact wp_last hany fun _ _ => wp_last hany fun _ _ => wp_last hany fun _ _ => wp_last hany fun _ _ =>
    Function.update_self ..

/-! ### Errors -/

theorem ok_false_iff {ok : Bool} :
    (Except.ok (ok, u) : Except Fault (Bool × EagleServer)) = .ok (false, t) ↔ ok = false ∧ t = u := by
  rw [Except.ok.injEq, Prod.mk.injEq]
  exact and_congr_right fun _ => eq_comm

/-- A save in the background fails while another one runs, and when there is no new process. -/
theorem background_error : storageSaveBackground s = .ok (false, t) ↔
    t = s ∧ (s.child = true ∨ s.env.fork = false) := by
  have hrun : storageSaveBackground s = if s.child then .ok (false, s)
      else if s.env.fork then .ok (true, { s with child := true }) else .ok (false, s) := by
    unfold storageSaveBackground
    rw [bind_run (rfl : (get : ServerM EagleServer) s = .ok (s, s))]
    split_ifs <;> rfl
  rw [hrun]
  split_ifs with hchild hfork
  all_goals
    rw [ok_false_iff]
    grind

/-- An end of a subscription fails when no client of the channel has the topic or pattern. -/
theorem unsubscribe_error {d : Side} {ch : Ptr} {name : Name} :
    unsubscribeSide d ch c name s = .ok (false, t) ↔
    t = s ∧ ∃ x, s.channelAt ch = some x ∧ findNode (x.side d) name = none := by
  constructor
  · intro h
    have hwp : wp (unsubscribeSide d ch c name) (fun ok t => ok = false →
        t = s ∧ ∃ x, s.channelAt ch = some x ∧ findNode (x.side d) name = none) Fault.Any s := by
      cases hx : s.channelAt ch with
      | none => simp [unsubscribeSide, unsubscribeWith, getChannel, hx, Fault.Any]
      | some x =>
        rw [unsubscribeSide, unsubscribeWith, wp_bind, wp_getChannel hx]
        cases hnode : findNode (x.side d) name with
        | none => exact fun _ => ⟨rfl, x, rfl, hnode⟩
        | some node =>
          refine wp_last (fun _ => trivial)
            (fun _ _ => wp_last (fun _ => trivial) (fun _ _ => wp_last (fun _ => trivial)
            fun y _ => ?_))
          refine wp_ite (fun _ => wp_last (fun _ => trivial) fun _ _ => ?_) fun _ => ?_
          all_goals exact fun h => by cases h
    exact ok_of_wp hwp h rfl
  · rintro ⟨rfl, x, hx, hnode⟩
    rw [unsubscribeSide, unsubscribeWith, bind_run (run_getChannel hx), hnode]
    rfl

section Effect

variable [Lzf]

/-- A save by the server itself fails with its input and output, and when a saved name is empty. -/
theorem sync_error : storageSaveSync s = .ok (false, t) ↔
    t = s ∧ (s.env.storageIo = false ∨ (storageSave s).run = .ok none) := by
  have hrun : storageSaveSync s = if s.env.storageIo then (storageSave s).run.map fun file => (file.isSome, s)
      else .ok (false, s) := by
    unfold storageSaveSync
    rw [bind_run (rfl : (get : ServerM EagleServer) s = .ok (s, s))]
    split_ifs
    · cases (storageSave s).run <;> rfl
    · rfl
  rw [hrun]
  split_ifs with hio
  · cases (storageSave s).run with
    | error e => simp [Except.map, hio]
    | ok file =>
      rw [Except.map, ok_false_iff, Option.isSome_eq_false_iff, Option.isNone_iff_eq_none]
      simp [hio, and_comm]
  · rw [ok_false_iff]
    simp [hio]

/-! ### Answers -/

/-- An answer, which follows another one after an error. -/
theorem again_utters {m : ServerM Bool} {status : Byte} (hm : Keeps (Talking c 0) Fault.Any m)
    (h : ∀ t, m s = .ok (false, t) → Fails s c req) : wp (m >>= fun ok => do
      if !ok then respond c req status
      respond c req Status.success)
      (fun _ t => ∃ n, Talking c n s t ∧ (n = 1 ∨ n = 2 ∧ Fails s c req ∨ t.clientAt c = none))
        Fault.Any s := by
  rw [wp_bind]
  refine wp_mono (wp_and (hm s) (wp_result m s)) (fun ok t ht => ?_) fun _ h => h
  obtain ⟨ht, hrun⟩ := ht
  cases ok with
  | false =>
    have htwo := (respond_utters c req status).bind fun _ : Unit => respond_utters c req Status.success
    exact wp_mono (htwo t) (fun _ u hu => ⟨2, ht.trans hu, .inr (.inl ⟨rfl, h t hrun⟩)⟩) fun _ h => h
  | true =>
    exact wp_mono (respond_utters c req Status.success t) (fun _ u hu => ⟨1, ht.trans hu, .inl rfl⟩)
      fun _ h => h

/-- Every operation answers once, or a second time after an error; only the end of the
client is not answered. -/
theorem Effect.utters {m : ServerM Unit} (he : Effect s c req m) (hf : req.Framed) :
    wp m (fun _ t => ∃ n, Talking c n s t ∧ (n = 1 ∨ n = 2 ∧ Fails s c req ∨ t.clientAt c = none))
      Fault.Any s := by
  have hone : ∀ {m : ServerM Unit}, Utters c 1 m →
      wp m (fun _ t => ∃ n, Talking c n s t ∧ (n = 1 ∨ n = 2 ∧ Fails s c req ∨ t.clientAt c = none))
      Fault.Any s :=
    fun hm => wp_mono (hm s) (fun _ _ ht => ⟨1, ht, .inl rfl⟩) fun _ h => h
  have hhush : ∀ {α : Type} {m : ServerM α}, Keeps Hush Fault.Any m →
      Keeps (Talking c 0) Fault.Any m := hush_talking
  have hstill : ∀ {α : Type} {m : ServerM α}, Keeps Still Fault.Link m → Keeps (Talking c 0) Fault.Any m :=
    fun h => hush_talking (still_hush h)
  have hmodify : ∀ {f : EagleServer → EagleServer}, (∀ s, Hush s (f s)) →
      Keeps (Talking c 0) Fault.Any (modify f : ServerM Unit) :=
    fun h => hhush (modify_hush h)
  have hthen : ∀ {m : ServerM Unit}, Keeps (Talking c 0) Fault.Any m →
      wp (m >>= fun _ => respond c req Status.success)
        (fun _ t => ∃ n, Talking c n s t ∧ (n = 1 ∨ n = 2 ∧ Fails s c req ∨ t.clientAt c = none))
        Fault.Any s :=
    fun hm => hone (.after hm fun _ => respond_utters c req _)
  have hlist : ∀ {f : EagleServer → EagleServer}, (∀ s, Hush s (f s)) →
      Utters c 1 (do (modify f : ServerM Unit); respond c req Status.success) := fun h =>
    .after (hmodify h) fun _ => respond_utters c req _
  have hup : Upheld (Talking c 0) := upheld_talking
  cases he with
  | status cmd status => exact hone (addStatusResponse_utters c cmd status)
  | auth user => exact hthen (hhush (modifyClient_hush fun _ => ⟨rfl, rfl, rfl⟩))
  | disconnect =>
    exact wp_mono (wp_and (freeClient_talking c s) (freeClient_gone s))
      (fun _ _ ht => ⟨0, ht.1, .inr (.inr ht.2)⟩) fun _ h => h
  | data body => exact hone (dataResponse_utters c req body)
  | fault e => exact trivial
  | save async ha hcmd hpos hasync =>
    have hsync : Keeps (Talking c 0) Fault.Any storageSaveSync := keeps_bind keeps_get fun _ => keeps_ite
      (fun _ => keeps_bind (keeps_lift fun _ _ => trivial) fun _ => keeps_pure _) fun _ => keeps_pure _
    have hbackground : Keeps (Talking c 0) Fault.Any storageSaveBackground :=
      background_keeps fun _ => same_talking rfl rfl (Nat.le_refl _) rfl
    refine wp_ite (fun h => again_utters hbackground fun t ht => .save hcmd ha hpos (t := t) ?_)
      fun h => again_utters hsync fun t ht => .save hcmd ha hpos (t := t) ?_
    · rwa [← hasync, if_pos h]
    · rwa [← hasync, if_neg h]
  | flush flags =>
    have hwhen : ∀ {b : Bool} {m k : ServerM Unit}, Keeps (Talking c 0) Fault.Any m → Utters c 1 k →
      Utters c 1 (do
        if b then m
        k) := fun hm hk => utters_ite (fun _ => .after hm fun _ => hk) fun _ => hk
    exact hone (hwhen (hmodify fun _ => hush_same rfl rfl (Nat.le_refl _) rfl) <| hwhen
      (deleteQueues_upheld hup) <|
      hwhen (deleteRoutes_upheld hup) <| hwhen (deleteChannels_upheld hup) <| respond_utters c req _)
  | users f => exact hthen (hmodify fun _ => hush_same rfl rfl (Nat.le_refl _) rfl)
  | queueCreate name maxMsg maxMsgSize flags =>
    exact hone (.after (hhush (fun _ => hush_same rfl rfl (Nat.le_succ _) rfl)) fun _ =>
      hlist fun _ => hush_same rfl rfl (Nat.le_refl _) rfl)
  | queueDeclare q => exact hthen (declareClientQueueT_upheld hup)
  | queueRename q name => exact hthen (hhush (modifyQueue_hush _))
  | queuePush q =>
    exact hone (.after (createObject_talking (rest_length hf (by decide))) fun o => reportResult_utters
      (keeps_bind keeps_get fun _ => pushMessageQueueT_talking q o _))
  | queueGet q => exact hone (requireMessage_utters fun m => messageResponse_utters c req q m)
  | queuePop q =>
    exact hone (requireMessage_utters fun m => .before (messageResponse_utters c req q m) fun _ =>
      keeps_bind keeps_get fun _ => hhush (popMessage_hush q _ _))
  | queueConfirm q =>
    exact hone (.after (hhush (withStock_hush (Stock.truthful_local.confirmMessageQueueT _) q)) fun _ =>
      utters_ite (fun _ => respond_utters c req _) fun _ => respond_utters c req _)
  | queueSubscribe q flags => exact hthen (subscribeClientQueueT_upheld hup flags)
  | queueUnsubscribe q => exact hthen (unsubscribeClientQueueT_upheld hup)
  | queuePurge q => exact hthen (hhush (withStock_hush Stock.truthful_local.purgeQueueT q))
  | queueDelete q => exact hone (reportResult_utters (listDeleteQueue_upheld hup))
  | routeCreate name flags =>
    exact hone (.after (hstill (createRouteT_still name flags)) fun _ => hlist fun _ => hush_same
      rfl rfl (Nat.le_refl _) rfl)
  | routeRename r name => exact hthen (hstill modifyRoute_still)
  | routeBind r q key => exact hthen (hstill (bindRouteT_still q r key))
  | routeUnbind r q key => exact hone (reportResult_utters (unbindRouteT_upheld hup key))
  | routePush r key =>
    exact hone (.after (createObject_talking (rest_length hf (by decide))) fun o => .after
      (hhush (resetRefcount_hush o)) fun _ =>
      reportResult_utters (keeps_bind keeps_get fun _ => pushMessageRouteT_upheld hup key o _ fun q =>
        pushMessageQueueT_talking q o _))
  | routeDelete r => exact hone (reportResult_utters (listDeleteRoute_upheld hup))
  | channelCreate name flags =>
    exact hone (.after (hstill (createChannelT_still name flags)) fun _ => hlist fun _ => hush_same
      rfl rfl (Nat.le_refl _) rfl)
  | channelRename ch name => exact hthen (hstill modifyChannel_still)
  | channelPublish ch topic =>
    exact hone (.after (createObject_talking (rest_length hf (by decide))) fun o =>
      .after (publishMessageChannelT_upheld hup topic o) fun _ =>
        .after (hhush (decrement_hush o)) fun _ => respond_utters c req _)
  | channelSubscribe d ch name => exact hthen (subscribeSide_upheld hup d name)
  | channelUnsubscribe d ch name ha _ hcmd hpos hname htopic =>
    exact again_utters (unsubscribeSide_upheld hup d name) fun t ht =>
      .unsubscribe hcmd ha hpos hname htopic ht
  | channelDelete ch => exact hone (reportResult_utters (listDeleteChannel_upheld hup))

/-- Only the end of the client takes it away. -/
theorem Effect.stays {m : ServerM Unit} (he : Effect s c req m) (hcmd : req.cmd ≠ Cmd.disconnect) :
    wp m (fun _ t => t.clientAt c ≠ none) Fault.Any s := by
  have hany : ∀ e : Fault, e.Any := fun _ => trivial
  have hrespond : ∀ status t, wp (respond c req status) (fun _ u => u.clientAt c ≠ none) Fault.Any t :=
    fun status t => addStatusResponse_there t
  have hthen : ∀ {α : Type} {m : ServerM α} {status : Byte},
      wp (m >>= fun _ => respond c req status) (fun _ t => t.clientAt c ≠ none) Fault.Any s :=
    wp_last hany fun _ t => hrespond _ t
  have hreport : ∀ {m : ServerM Bool} t, wp (reportResult c req m) (fun _ u => u.clientAt c ≠ none)
      Fault.Any t :=
    fun t => wp_last hany fun _ u => wp_ite (fun _ => hrespond _ u) fun _ => hrespond _ u
  have hagain : ∀ {m : ServerM Bool} {status : Byte} t, wp (m >>= fun ok => do
      if !ok then respond c req status
      respond c req Status.success) (fun _ u => u.clientAt c ≠ none) Fault.Any t := fun t =>
    wp_last hany fun _ u => wp_ite (fun _ => wp_last hany fun _ v => hrespond _ v) fun _ => hrespond _ u
  have hwhen : ∀ {b : Bool} {m k : ServerM Unit}, (∀ t, wp k (fun _ u => u.clientAt c ≠ none) Fault.Any t) →
      ∀ t, wp (do
        if b then m
        k) (fun _ u => u.clientAt c ≠ none) Fault.Any t := fun hk t =>
    wp_ite (fun _ => wp_last hany fun _ u => hk u) fun _ => hk t
  cases he with
  | status cmd status => exact addStatusResponse_there s
  | auth user => exact hthen
  | disconnect h => exact absurd h hcmd
  | data body => exact wp_ite (fun _ => trivial) fun _ => addResponse_there s
  | fault e => exact trivial
  | save async => exact wp_ite (fun _ => hagain s) fun _ => hagain s
  | flush flags => exact hwhen (hwhen <| hwhen <| hwhen <| hrespond _) s
  | users f => exact hthen
  | queueCreate name maxMsg maxMsgSize flags =>
    exact wp_last hany fun _ _ => wp_last hany fun _ u => hrespond _ u
  | queueDeclare q => exact hthen
  | queueRename q name => exact hthen
  | queuePush q => exact wp_last hany fun _ t => hreport t
  | queueGet q =>
    refine wp_last hany fun m t => ?_
    cases m with
    | none => exact hrespond _ t
    | some m => exact messageResponse_there t
  | queuePop q =>
    refine wp_last hany fun m t => ?_
    cases m with
    | none => exact hrespond _ t
    | some m =>
      rw [wp_bind]
      refine wp_mono (messageResponse_there t) (fun _ u hu => ?_) fun _ h => h
      rw [wp_bind, wp_get]
      exact withStock_there _ hu
  | queueConfirm q => exact wp_last hany fun _ u => wp_ite (fun _ => hrespond _ u) fun _ => hrespond _ u
  | queueSubscribe q flags => exact hthen
  | queueUnsubscribe q => exact hthen
  | queuePurge q => exact hthen
  | queueDelete q => exact hreport s
  | routeCreate name flags => exact wp_last hany fun _ _ => wp_last hany fun _ u => hrespond _ u
  | routeRename r name => exact hthen
  | routeBind r q key => exact hthen
  | routeUnbind r q key => exact hreport s
  | routePush r key => exact wp_last hany fun _ _ => wp_last hany fun _ t => hreport t
  | routeDelete r => exact hreport s
  | channelCreate name flags => exact wp_last hany fun _ _ => wp_last hany fun _ u => hrespond _ u
  | channelRename ch name => exact hthen
  | channelPublish ch topic =>
    exact wp_last hany fun _ _ => wp_last hany fun _ _ => wp_last hany fun _ u => hrespond _ u
  | channelSubscribe d ch name => exact hthen
  | channelUnsubscribe d ch name => exact hagain s
  | channelDelete ch => exact hreport s

end Effect

/-! ### Runs -/

/-- What has been appended for each client is a sequence of whole packets. -/
structure Packeted (s : EagleServer) : Prop where
  short : Short s
  clients : ∀ c x, s.clientAt c = some x → ∃ packets : List Packet,
    x.history.flatten = packets.flatMap Packet.bytes ∧ ∀ p ∈ packets, p.Fits

theorem Talks.packeted (h : Talks c n s t) (hs : Packeted s) : Packeted t := by
  refine ⟨h.short, fun d y hy => ?_⟩
  obtain ⟨x, hx, -, -, packets, hh, hfits, -⟩ := h.clients d y hy
  obtain ⟨packets', hh', hfits'⟩ := hs.clients d x hx
  refine ⟨packets' ++ packets, by rw [hh, hh', List.flatMap_append], fun p hp => ?_⟩
  exact (List.mem_append.mp hp).elim (hfits' p) (hfits p)

theorem createClient_packeted (fd : ℕ) (hs : Packeted s) :
    wp (createClient fd) (fun _ t => Packeted t) Fault.Any s := by
  rw [createClient, wp_bind, wp_get]
  refine wp_ite (fun _ => ⟨⟨fun o ho => Nat.lt_succ_of_lt (hs.short.below o ho), hs.short.size⟩,
    fun d y hy => ?_⟩) fun _ => hs
  dsimp only at hy
  by_cases hd : d = s.fresh
  · subst hd
    rw [Function.update_self] at hy
    obtain rfl := Option.some.inj hy
    exact ⟨[], rfl, by simp⟩
  · rw [Function.update_of_ne hd] at hy
    exact hs.clients d y hy

theorem acceptClient_packeted (fd : ℕ) (hs : Packeted s) :
    wp (acceptClient fd) (fun _ t => Packeted t) Fault.Any s := by
  rw [acceptClient, wp_bind]
  refine wp_mono (createClient_packeted fd hs) (fun r t ht => ?_) fun _ h => h
  cases r with
  | none => exact ht
  | some d =>
    rw [wp_bind, wp_get]
    exact wp_ite (fun _ => wp_mono (freeClient_talking (c := d) d t)
      (fun _ u hu => (hu ht.short).packeted ht) fun _ h => h)
      fun _ => ht

variable [Lzf]

/-- Whether the answers to a request are left out. A command that there is not leaves this
as it was. -/
def EagleClient.noackAt (x : EagleClient) (req : Request) : Bool :=
  if (commands.lookup req.cmd).isSome then req.noack else x.noack

/-- The lookup of the command and the checks do not look at the flag of the last request. -/
theorem Fails.congr (h : Fails s c req) (ha : ∀ cmd, Authorized s c cmd → Authorized t c cmd)
    (hchild : t.child = s.child) (henv : t.env = s.env) (hsave : storageSave t = storageSave s)
    (hchannels : t.channels = s.channels) (hchannel : t.channelAt = s.channelAt) : Fails t c req := by
  cases h with
  | save hcmd hauth hpos herror =>
    refine .save hcmd (ha _ hauth) hpos (t := t) ?_
    split_ifs at herror ⊢
    · exact background_error.mpr ⟨rfl, by rw [hchild, henv]; exact (background_error.mp herror).2⟩
    · exact sync_error.mpr ⟨rfl, by rw [henv, hsave]; exact (sync_error.mp herror).2⟩
  | unsubscribe hcmd hauth hpos hname htopic herror =>
    have hnames : t.channelName = s.channelName := by
      unfold EagleServer.channelName
      rw [hchannel]
    refine .unsubscribe hcmd (ha _ hauth) hpos (by rwa [hnames, hchannels]) htopic (t := t)
      (unsubscribe_error.mpr ⟨rfl, ?_⟩)
    rw [hchannel]
    exact (unsubscribe_error.mp herror).2

theorem fails_noack {noack : Bool} (hx : s.clientAt c = some x) :
    Fails (s.setClient c { x with noack := noack }) c req ↔ Fails s c req := by
  have hauth : ∀ cmd, Authorized (s.setClient c { x with noack := noack }) c cmd ↔
      Authorized s c cmd := fun cmd => by
    simp [Authorized, hx]
  exact ⟨fun h => h.congr (fun cmd => (hauth cmd).mp) rfl rfl rfl rfl rfl,
    fun h => h.congr (fun cmd => (hauth cmd).mpr) rfl rfl rfl rfl rfl⟩

/-- A request that fails after its checks is answered by the error, and then by the success. -/
theorem Fails.talks (h : Related .none s) (hf : Fails s c req) :
    ∃ handler, commands.lookup req.cmd = some handler ∧
    wp (handler c req) (fun _ t => Talking c 2 s t) Fault.Any s := by
  have htwo : ∀ status, wp (do respond c req status; respond c req Status.success)
      (fun _ t => Talking c 2 s t) Fault.Any s :=
    fun status => (respond_utters c req status).bind (fun _ => respond_utters c req Status.success) s
  cases hf with
  | save hcmd ha hpos herror =>
    refine ⟨saveCommandHandler, by rw [hcmd]; rfl, ?_⟩
    rw [saveCommandHandler, requirePacket_run hpos]
    refine wp_of_run (requirePerm_run ha (by rw [hcmd]; rfl)) (wp_ite (fun hasync => ?_) fun hasync => ?_)
    · rw [if_pos hasync] at herror
      obtain ⟨rfl, -⟩ := background_error.mp herror
      exact wp_of_run (bind_run herror) (htwo _)
    · rw [if_neg hasync] at herror
      obtain ⟨rfl, -⟩ := sync_error.mp herror
      exact wp_of_run (bind_run herror) (htwo _)
  | @unsubscribe t d ch name hcmd ha hpos hname htopic herror =>
    obtain ⟨rfl, -⟩ := unsubscribe_error.mp herror
    cases d with
    | topic =>
      refine ⟨channelUnsubscribeCommandHandler, by rw [hcmd]; rfl, ?_⟩
      refine wp_of_run (topicCommandHandler_run h hpos ha (by rw [hcmd]; rfl) hname htopic) ?_
      exact wp_of_run (bind_run herror) (htwo _)
    | pattern =>
      refine ⟨channelPunsubscribeCommandHandler, by rw [hcmd]; rfl, ?_⟩
      refine wp_of_run (topicCommandHandler_run h hpos ha (by rw [hcmd]; rfl) hname htopic) ?_
      exact wp_of_run (bind_run herror) (htwo _)

/-- A request is answered to the client that has made it. -/
theorem request_talks (h : Related .none s) (hs : Short s) (hx : s.clientAt c = some x) (hf : req.Framed)
    (ht : parseCommand c req s = .ok ((), t)) :
    ∃ n, Talks c n (s.setClient c { x with noack := x.noackAt req }) t ∧
    (Replies s c req n ∨ t.clientAt c = none) := by
  have hrel : ∀ noack, Related .none (s.setClient c { x with noack := noack }) := fun noack =>
    h.frame ⟨links_client_same hx rfl rfl fun d => by cases d <;> rfl, Nat.le_refl _⟩
  by_cases hfails : Fails s c req
  · have hlate : Fails (s.setClient c { x with noack := req.noack }) c req := (fails_noack hx).mpr hfails
    obtain ⟨handler, hlookup, hwp⟩ := hlate.talks (hrel _)
    have hnoack : x.noackAt req = req.noack := by rw [EagleClient.noackAt, hlookup]; rfl
    refine ⟨2, ?_, .inl (.inr ⟨rfl, hfails⟩)⟩
    rw [hnoack]
    rw [parseCommand_run hlookup hx] at ht
    exact ok_of_wp (Q := fun _ t => Talking c 2 _ t) hwp ht ⟨hs.below, hs.size⟩
  · obtain ⟨noack, m, rfl, he, hm⟩ := parseCommand_acts req h hx
    obtain ⟨n, htalks, hn⟩ := ok_of_wp (he.utters hf) (hm ▸ ht)
    refine ⟨n, htalks ⟨hs.below, hs.size⟩, ?_⟩
    rcases hn with rfl | ⟨-, hlate⟩ | hgone
    · exact .inl (.inl ⟨rfl, hfails⟩)
    · exact absurd ((fails_noack hx).mp hlate) hfails
    · exact .inr hgone

/-- The client is gone after its disconnect, and after no other request. -/
theorem request_gone (h : Related .none s) (hx : s.clientAt c = some x) (hf : req.Framed)
    (ht : parseCommand c req s = .ok ((), t)) : t.clientAt c = none ↔ req.cmd = Cmd.disconnect := by
  constructor
  · intro hgone
    by_contra hcmd
    obtain ⟨noack, m, -, he, hm⟩ := parseCommand_acts req h hx
    exact ok_of_wp (Q := fun _ t => t.clientAt c ≠ none) (he.stays hcmd) (hm ▸ ht) hgone
  · intro hcmd
    have hlookup : commands.lookup req.cmd = some disconnectCommandHandler := by rw [hcmd]; rfl
    rw [parseCommand_run hlookup hx, disconnectCommandHandler, requirePacket_run hf.1] at ht
    exact ok_of_wp (Q := fun _ t => t.clientAt c = none) (freeClient_gone _) ht

theorem step_packeted {op : Op} (h : Related .none s) (hs : Packeted s) (ha : Enabled s op)
    (ht : EagleMQ.step s op = .ok t) : Packeted t := by
  have hrun := step_eq_ok.mp ht
  have hkeeps : Utters 0 0 op.run → Packeted t := fun hm =>
    (ok_of_wp (Q := fun _ t => Talking 0 0 s t) (hm s) hrun hs.short).packeted hs
  cases op with
  | environment env =>
    obtain rfl := (Prod.mk.inj (Except.ok.inj hrun)).2
    exact ⟨⟨hs.short.below, hs.short.size⟩, hs.clients⟩
  | connect fd => exact ok_of_wp (acceptClient_packeted fd hs) hrun
  | receive d =>
    exact hkeeps (keeps_bind keeps_get fun _ => hush_talking (modifyClient_hush fun _ => ⟨rfl, rfl, rfl⟩))
  | request d req =>
    obtain ⟨x, hx⟩ := client_alive.mp (h.consistent.clients.alive ha.1)
    obtain ⟨n, htalks, -⟩ := request_talks h hs.short hx ha.2 hrun
    refine htalks.packeted ⟨⟨hs.short.below, hs.short.size⟩, fun e y hy => ?_⟩
    by_cases he : e = d
    · subst he
      rw [EagleServer.setClient_clientAt] at hy
      obtain rfl := Option.some.inj hy
      exact hs.clients e x hx
    · exact hs.clients e y (by simpa [EagleServer.setClient, he] using hy)
  | malformed d =>
    exact (ok_of_wp (Q := fun _ t => Talking d 1 s t) (addStatusResponse_utters d 0 _ s) hrun
      hs.short).packeted hs
  | send d results => exact hkeeps (sendResponse_talking d results false)
  | close d => exact hkeeps (freeClient_talking d)
  | tick => exact hkeeps serverUpdater_talking

/-- A server that has just started, with or without stored messages. -/
structure Started (s : EagleServer) : Prop where
  reachable : Reachable s
  silent : ∀ c, s.clientAt c = none
  size : ∀ o z, s.objects o = some z → z.data.length < 2147483656

theorem Started.run (h : Started s) (hrun : Run Enabled EagleMQ.step s t) : Reachable t ∧ Packeted t := by
  refine hrun.invariant (fun u => Reachable u ∧ Packeted u)
    ⟨h.reachable, ⟨h.reachable.tally.objects, h.size⟩, fun c x hx => ?_⟩
    fun u op v hu ha hv => ⟨hu.1.step op ha hv, step_packeted hu.1.related hu.2 ha hv⟩
  rw [h.silent] at hx
  cases hx

theorem started_initServer (cfg : Config) (env : Env) : Started (initServer cfg env) where
  reachable := .start cfg env
  silent _ := rfl
  size _ _ hz := by cases hz

/-- What has been appended for a client is a sequence of whole packets: the length in the
header of each is that of the body behind it, also where the body ends with a payload that
others hold. -/
theorem packets_whole (h : Started s) (hrun : Run Enabled EagleMQ.step s t) (hy : t.clientAt c = some y) :
    ∃ packets : List Packet, y.history.flatten = packets.flatMap Packet.bytes ∧ ∀ p ∈ packets, p.Fits :=
  (h.run hrun).2.clients c y hy

omit [Lzf] in
/-- The answer to a `queue_get` and the event for a subscriber of another queue end with the
payload that has come by a route. -/
theorem packets_whole_shared : ∃ (t : EagleServer) (y z : EagleClient), t.clientAt 0 = some y ∧
    t.clientAt 11 = some z ∧
    15 ∈ y.responses ∧ 15 ∈ z.responses ∧
    (∃ packets : List Packet, y.history.flatten = packets.flatMap Packet.bytes ∧ ∀ p ∈ packets, p.Fits) ∧
    ∃ packets : List Packet, z.history.flatten = packets.flatMap Packet.bytes ∧ ∀ p ∈ packets, p.Fits := by
  have hrun : (@replay Lzf.stored Sample.server (Sample.login 0 ++ [Sample.queueCreate 0 [112] 5 0,
      Sample.queueCreate 0 [113] 5 0, Sample.named Cmd.queueDeclare 0 [113] [],
      Sample.named Cmd.routeCreate 0 [114] (leBytes 4 0),
      Sample.named Cmd.routeBind 0 [114] (padded 64 [113] ++ padded 32 [107]),
      Sample.named Cmd.routeBind 0 [114] (padded 64 [112] ++ padded 32 [107])] ++ Sample.login 11 ++
      [Sample.named Cmd.queueDeclare 11 [112] [], Sample.named Cmd.queueSubscribe 11 [112] (leBytes 4 0),
      Sample.named Cmd.routePush 0 [114] (padded 32 [107] ++ leBytes 4 0 ++ [104, 105]),
      Sample.named Cmd.queueGet 0 [113] []])).any
      (fun t => (t.clientAt 0).any (fun y => decide (15 ∈ y.responses)) &&
        (t.clientAt 11).any fun z => decide (15 ∈ z.responses)) = true := by decide +kernel
  obtain ⟨t, ht, hp⟩ := (Option.any_eq_true ..).mp hrun
  obtain ⟨hfirst, hsecond⟩ := Bool.and_eq_true_iff.mp hp
  obtain ⟨y, hy, hget⟩ := (Option.any_eq_true ..).mp hfirst
  obtain ⟨z, hz, hevent⟩ := (Option.any_eq_true ..).mp hsecond
  have hwhole := fun (c : Ptr) (x : EagleClient) (hx : t.clientAt c = some x) =>
    @packets_whole _ _ _ _ Lzf.stored
    (@started_initServer Lzf.stored Sample.config Sample.env) (@run_of_replay Lzf.stored _ _ _ ht) hx
  exact ⟨t, y, z, hy, hz, of_decide_eq_true hget, of_decide_eq_true hevent, hwhole 0 y hy, hwhole 11 z hz⟩

/-- A request is answered to its client, and to no other: once, or, when the save or the end
of the subscription returns an error, twice. What else is appended in the step is whole
events, and only a disconnect takes the client away. -/
theorem request_answered (h : Started s) (hrun : Run Enabled EagleMQ.step s t) (hx : t.clientAt c = some x)
    (hack : x.noackAt req = false) (hw : x.Watchable t.env) (ha : Enabled t (.request c req))
    (hu : EagleMQ.step t (.request c req) = .ok u) :
    (u.clientAt c = none ↔ req.cmd = Cmd.disconnect) ∧ ∀ d y, u.clientAt d = some y →
      ∃ v, t.clientAt d = some v ∧ ∃ packets : List Packet, y.history.flatten = v.history.flatten ++
        packets.flatMap Packet.bytes ∧
        (∀ p ∈ packets, p.Fits) ∧ if d = c then Replies t c req (responses packets) else responses
          packets = 0 := by
  obtain ⟨hreach, hpackets⟩ := h.run hrun
  have hparse := step_eq_ok.mp hu
  refine ⟨request_gone hreach.related hx ha.2 hparse, fun d y hy => ?_⟩
  obtain ⟨n, htalks, hn⟩ := request_talks hreach.related hpackets.short hx ha.2 hparse
  obtain ⟨v, hv, hfd, hnoack, packets, hh, hfits, hcount⟩ := htalks.clients d y hy
  by_cases hd : d = c
  · subst hd
    rw [EagleServer.setClient_clientAt] at hv
    obtain rfl := Option.some.inj hv
    refine ⟨x, hx, packets, hh, hfits, ?_⟩
    rw [if_pos rfl, hcount fun _ => ⟨hack, hw⟩, if_pos rfl]
    exact hn.resolve_right (by simp [hy])
  · refine ⟨v, by simpa [EagleServer.setClient, hd] using hv, packets, hh, hfits, ?_⟩
    rw [if_neg hd, hcount fun he => absurd he hd, if_neg hd]

omit [Lzf] in
/-- A topic that nobody has subscribed to: the error is followed by a success. -/
theorem request_answered_twice : ∃ (t u : EagleServer) (x y : EagleClient) (packets : List Packet),
    @EagleMQ.step Lzf.stored t (Sample.named Cmd.channelUnsubscribe 0 [99] (padded 32 [121])) = .ok u ∧
    t.clientAt 0 = some x ∧ u.clientAt 0 = some y ∧
    y.history.flatten = x.history.flatten ++ packets.flatMap Packet.bytes ∧
    (∀ p ∈ packets, p.Fits) ∧ responses packets = 2 := by
  have hrun : (@replay Lzf.stored Sample.server
    (Sample.login 0 ++ [Sample.named Cmd.channelCreate 0 [99] (leBytes 4 0)] ++
      Sample.login 4 ++ [Sample.named Cmd.channelSubscribe 4 [99] (padded 32 [120])])).any (fun t =>
      (decide (@Enabled t (Sample.named Cmd.channelUnsubscribe 0 [99] (padded 32 [121]))) &&
        (t.clientAt 0).any fun x => decide (x.fd ≠ 0 ∧ t.env.fileEvent x.fd = true ∧
          (requiredPerms Cmd.channelUnsubscribe).any (bitCheck x.perm) = true)) &&
      ((findNamed t.channelName [99] t.channels).toOption.any
        (fun ch => ch.any fun ch => (t.channelAt ch).any fun z =>
          (findNode (z.side .topic) [121]).isNone) &&
        (@EagleMQ.step Lzf.stored t (Sample.named Cmd.channelUnsubscribe 0 [99]
          (padded 32 [121]))).toOption.any
          fun u => (u.clientAt 0).isSome)) = true := by decide +kernel
  obtain ⟨t, ht, hp⟩ := (Option.any_eq_true ..).mp hrun
  obtain ⟨hready, hp⟩ := Bool.and_eq_true_iff.mp hp
  obtain ⟨ha, hready⟩ := Bool.and_eq_true_iff.mp hready
  obtain ⟨hchannel, hstep⟩ := Bool.and_eq_true_iff.mp hp
  obtain ⟨x, hx, hready⟩ := (Option.any_eq_true ..).mp hready
  obtain ⟨hfd, hevent, hperm⟩ := of_decide_eq_true hready
  obtain ⟨found, hfind, hfound⟩ := (Option.any_eq_true ..).mp hchannel
  obtain ⟨ch, rfl, hch⟩ := (Option.any_eq_true ..).mp hfound
  obtain ⟨z, hz, hnode⟩ := (Option.any_eq_true ..).mp hch
  obtain ⟨u, hu, hup⟩ := (Option.any_eq_true ..).mp hstep
  obtain ⟨y, hy⟩ := Option.isSome_iff_exists.mp hup
  have hfails : @Fails Lzf.stored t 0 (.frame Cmd.channelUnsubscribe (padded 64 [99] ++ padded 32 [121])) :=
    @Fails.unsubscribe Lzf.stored t 0 _ t .topic ch [121] rfl ⟨x, hx, hperm⟩ (by decide)
      ⟨[99], ⟨1, by decide, by decide, by decide⟩, Prog.toOption_eq_some.mp hfind⟩
      ⟨1, by decide, by decide, by decide⟩
      (unsubscribe_error.mpr ⟨rfl, z, hz, Option.isNone_iff_eq_none.mp hnode⟩)
  have hrequest := Prog.toOption_eq_some.mp hu
  obtain ⟨-, hanswered⟩ := @request_answered _ _ _ _ _ _ Lzf.stored
    (@started_initServer Lzf.stored Sample.config Sample.env) (@run_of_replay Lzf.stored _ _ _ ht) hx
    rfl ⟨hfd, hevent⟩ (of_decide_eq_true ha) hrequest
  obtain ⟨v, hv, packets, hh, hfits, hreplies⟩ := hanswered 0 y hy
  rw [if_pos rfl] at hreplies
  obtain ⟨-, hnever⟩ | ⟨htwo, -⟩ := hreplies
  · exact absurd hfails hnever
  · exact ⟨t, u, v, y, packets, hrequest, hv, hy, hh, hfits, htwo⟩

end Answered

end EagleMQ
