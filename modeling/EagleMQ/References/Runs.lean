import EagleMQ.Links.Loading
import EagleMQ.References.Steps

/-! The tally over whole runs: over a step, over a load of a storage file, and in every
reachable state, where no object goes that somebody still holds. -/

namespace EagleMQ

open Prog Refcount

/-- A route push names a key that is bound. -/
def KeyBound (s : EagleServer) (op : Op) : Prop :=
  ∀ c req r x key, op = .request c req → req.cmd = Cmd.routePush → NamesRoute s c req r key →
    s.nomemory = false →
    s.routeAt r = some x → key ∈ x.keys.keys

section Runs

variable [Lzf] {P : Prop} {s t : EagleServer} {c : Ptr} {req : Request} {op : Op}

/-! ### Requests -/

omit [Lzf] in
theorem respond_recedes (c : Ptr) (req : Request) (status : Byte) :
    Keeps (Recedes P allEven) Fault.Any (respond c req status) :=
  idle_recedes (respond_holding c req status) (respond_idle c req status)

omit [Lzf] in
theorem modify_recedes {f : EagleServer → EagleServer} (hc : ∀ s, (f s).clientAt = s.clientAt)
    (hq : ∀ s, (f s).queueAt = s.queueAt) (ho : ∀ s, (f s).objects = s.objects)
    (hn : ∀ s, (f s).fresh = s.fresh) :
    Keeps (Recedes P allEven) Fault.Any (modify f : ServerM Unit) :=
  unmoved_recedes (modify_unmoved hc hq ho hn)

/-- An operation of a request keeps the tally. -/
theorem Effect.tally {m : ServerM Unit} (he : Effect s c req m) (h : Related .none s)
    (hkey : P → KeyBound s (.request c req)) (hs : Tally P allEven s) :
    wp m (fun _ t => Spared P s t → Tally P allEven t) Fault.Any s := by
  have hrecedes : ∀ {m : ServerM Unit}, Keeps (Recedes P allEven) Fault.Any m →
      wp m (fun _ t => Spared P s t → Tally P allEven t) Fault.Any s := fun hm =>
    wp_mono (hm s) (fun _ _ ht hsp => ht.tally hsp hs) fun _ h => h
  have hholding : ∀ {m : ServerM Unit}, Keeps (Holding P allEven) Fault.Any m →
      wp m (fun _ t => Spared P s t → Tally P allEven t) Fault.Any s := fun hm =>
    wp_mono (hm s) (fun _ _ ht _ => ht hs) fun _ h => h
  have htally : ∀ {m : ServerM Unit}, wp m (fun _ t => Tally P allEven t) Fault.Any s →
      wp m (fun _ t => Spared P s t → Tally P allEven t) Fault.Any s := fun hm =>
    wp_mono hm (fun _ _ ht _ => ht) fun _ h => h
  have hthen : ∀ {m : ServerM Unit} (status : Byte), Keeps (Recedes P allEven) Fault.Any m →
      wp (m >>= fun _ => respond c req status) (fun _ t => Spared P s t → Tally P allEven t) Fault.Any s :=
    fun status hm => hrecedes (keeps_bind hm fun _ => respond_recedes c req status)
  have hreport : ∀ {m : ServerM Bool}, Keeps (Recedes P allEven) Fault.Any m →
      wp (reportResult c req m) (fun _ t => Spared P s t → Tally P allEven t) Fault.Any s := fun hm =>
    hrecedes (keeps_bind hm fun _ => keeps_ite (fun _ => respond_recedes c req _)
      fun _ => respond_recedes c req _)
  have hmodify : ∀ {f : EagleServer → EagleServer}, (∀ s, (f s).clientAt = s.clientAt) →
      (∀ s, (f s).queueAt = s.queueAt) → (∀ s, (f s).objects = s.objects) → (∀ s, (f s).fresh = s.fresh) →
      Keeps (Recedes P allEven) Fault.Any (modify f : ServerM Unit) := modify_recedes
  cases he with
  | status cmd status => exact hholding (addStatusResponse_holding c cmd status)
  | auth user => exact hthen _ (unmoved_recedes (modifyClient_unmoved fun _ => rfl))
  | disconnect => exact hrecedes (freeClient_recedes c)
  | data body => exact hholding (dataResponse_holding c req body)
  | fault e => exact trivial
  | save async =>
    exact hrecedes (saveData_keeps (R := Recedes P allEven)
      (fun _ => Unmoved.recedes ⟨fun _ => rfl, fun _ => rfl, rfl, Nat.le_refl _⟩)
      (respond_recedes c req) async)
  | flush flags =>
    exact hrecedes (flushData_keeps (hmodify (fun _ => rfl) (fun _ => rfl) (fun _ => rfl) fun _ => rfl)
      (fun _ => deleteQueues_recedes) (still_recedes deleteRoutes_still) (still_recedes deleteChannels_still)
      (respond_recedes c req _))
  | users f => exact hthen _ (hmodify (fun _ => rfl) (fun _ => rfl) (fun _ => rfl) fun _ => rfl)
  | queueCreate name maxMsg maxMsgSize flags =>
    exact hholding (keeps_bind (createQueueT_holding name maxMsg maxMsgSize flags) fun _ => keeps_bind
      (unmoved_holding (modify_unmoved (fun _ => rfl) (fun _ => rfl) (fun _ => rfl) fun _ => rfl)) fun _ =>
        respond_holding c req _)
  | queueDeclare q => exact hthen _ (still_recedes (declareClientQueueT_still c q))
  | queueRename q name => exact hthen _ (unmoved_recedes (modifyQueue_unmoved fun _ => rfl))
  | queuePush q => exact htally (pushToQueue_tally hs c req q)
  | queueGet q => exact hholding (getFromQueue_holding c req q)
  | queuePop q => exact hholding (popFromQueue_holding c req q)
  | queueConfirm q => exact hholding (confirmInQueue_holding c req q)
  | queueSubscribe q flags => exact hthen _ (still_recedes (subscribeClientQueueT_still c q flags))
  | queueUnsubscribe q => exact hthen _ (still_recedes (unsubscribeClientQueueT_still c q))
  | queuePurge q =>
    exact hholding (keeps_bind (withStock_holding Stock.keeping_local.purgeQueueT q)
      fun _ => respond_holding c req _)
  | queueDelete q => exact hreport (listDeleteQueue_recedes q)
  | routeCreate name flags =>
    exact hrecedes (keeps_bind (still_recedes (createRouteT_still name flags)) fun _ => keeps_bind
      (hmodify (fun _ => rfl) (fun _ => rfl) (fun _ => rfl) fun _ => rfl) fun _ => respond_recedes c req _)
  | routeRename r name => exact hthen _ (still_recedes modifyRoute_still)
  | routeBind r q key => exact hthen _ (still_recedes (bindRouteT_still q r key))
  | routeUnbind r q key => exact hreport (still_recedes (unbindRouteT_still q r key))
  | routePush r key ha hr hcmd hpos hname hkey' hmem =>
    obtain ⟨x, hx⟩ := route_alive.mp (h.consistent.routes.alive hr)
    refine htally (pushToRoute_tally hs hx
      (fun hP => hkey hP c req r x key rfl hcmd ⟨ha, hpos, hr, hname, hkey'⟩ hmem hx) (fun hk => ?_) c req)
    have hwf := h.consistent.boundQueues_wf r
    rw [show (links s).boundQueues r = x.keys by simp [links, Heap.read, hx]] at hwf
    exact hwf.ne_nil key hk
  | routeDelete r => exact hreport (still_recedes (listDeleteRoute_still r))
  | channelCreate name flags =>
    exact hrecedes (keeps_bind (still_recedes (createChannelT_still name flags)) fun _ => keeps_bind
      (hmodify (fun _ => rfl) (fun _ => rfl) (fun _ => rfl) fun _ => rfl) fun _ => respond_recedes c req _)
  | channelRename ch name => exact hthen _ (still_recedes modifyChannel_still)
  | channelPublish ch topic => exact htally (publishToChannel_tally hs c req ch topic)
  | channelSubscribe d ch name => exact hthen _ (still_recedes (subscribeSide_still c ch name d))
  | channelUnsubscribe d ch name =>
    exact hrecedes (keeps_bind (still_recedes (unsubscribeSide_still c ch name d)) fun _ => keeps_ite
      (fun _ => keeps_bind (respond_recedes c req _) fun _ => respond_recedes c req _) fun _ =>
      respond_recedes c req _)
  | channelDelete ch => exact hreport (still_recedes (listDeleteChannel_still ch))

/-! ### Ticks -/

omit [Lzf] in
theorem checkMemory_unmoved : Keeps Unmoved Fault.Any checkMemory := keeps_modify _ fun s => by
  split_ifs <;> exact ⟨fun _ => rfl, fun _ => rfl, rfl, Nat.le_refl _⟩

omit [Lzf] in
theorem storageTimeouts_unmoved : Keeps Unmoved Fault.Any storageTimeouts :=
  storageTimeouts_keeps (R := Unmoved) (fun _ _ => ⟨fun _ => rfl, fun _ => rfl, rfl, Nat.le_refl _⟩)
    fun _ => ⟨fun _ => rfl, fun _ => rfl, rfl, Nat.le_refl _⟩

/-- The passes over the messages keep the tally and make no queue. -/
structure Passed (P : Prop) (s t : EagleServer) : Prop where
  stay : ∀ q, s.queueAt q = none → t.queueAt q = none
  holding : Holding P allEven s t

instance : IsPreorder EagleServer (Passed P) where
  refl _ := ⟨fun _ h => h, fun h => h⟩
  trans _ _ _ h h' := ⟨fun q hq => h'.stay q (h.stay q hq), fun hs => h'.holding (h.holding hs)⟩

omit [Lzf] in
theorem withStock_passed {α : Type} {m : StockM α}
    (hm : Keeps (Stock.Keeping P allEven) Fault.Any m) (q : Ptr) :
    Keeps (Passed P) Fault.Any (withStock q m) := fun s => by
  refine wp_mono (wp_and (withStock_holding hm q s) (withStock_others m s))
    (fun _ t ht => ⟨fun p hp => ?_, ht.1⟩) fun _ h => h
  obtain ⟨-, x, _, hx, -, hq, -⟩ := ht
  have hne : p ≠ q := fun h => by
    subst h
    cases hp.symm.trans hx
  rwa [hq, Function.update_of_ne hne]

omit [Lzf] in
theorem processQueuesMessages_passes : Keeps (Passed P) Fault.Any processQueuesMessages :=
  keeps_bind keeps_get fun _ => keeps_forM (fun q => keeps_bind keeps_get fun _ =>
    keeps_bind (withStock_passed (Stock.keeping_local.processExpiredMessagesQueueT _) q) fun _ =>
      withStock_passed (Stock.keeping_local.processUnconfirmedMessagesQueueT _) q) _

omit [Lzf] in
theorem serverUpdater_tally (hs : Tally P allEven s) :
    wp serverUpdater (fun _ t => Spared P s t → Tally P allEven t) Fault.Any s := by
  rw [serverUpdater, wp_bind, wp_modify, wp_bind]
  have hclock : Unmoved s { s with nowTime := s.env.time, nowTimems := s.env.mstime, msgCounter := 0 } :=
    ⟨fun _ => rfl, fun _ => rfl, rfl, Nat.le_refl _⟩
  refine wp_mono (checkMemory_unmoved _) (fun _ t ht => ?_) fun _ h => h
  rw [wp_bind]
  refine wp_mono (clientTimeouts_recedes (P := P) (a := allEven) t) (fun _ u hu => ?_) fun _ h => h
  have hleft : Recedes P allEven s u :=
    IsTrans.trans _ _ _ (IsTrans.trans _ _ _ hclock ht : Unmoved s t).recedes hu
  rw [wp_bind]
  refine wp_mono (processQueuesMessages_passes (P := P) u) (fun _ v hv => ?_) fun _ h => h
  refine wp_mono (storageTimeouts_unmoved v) (fun _ w hw hsp => ?_) fun _ h => h
  -- the queues that have gone had gone before the passes
  have hgone : ∀ q, u.queueAt q = none → w.queueAt q = none := fun q hq => by
    have := hw.queues q
    rwa [hv.stay q hq, Option.map_none, Option.map_eq_none_iff] at this
  have hu' : Tally P allEven u := hleft.tally (fun hP q x hx hq => hsp hP q x hx (hgone q hq)) hs
  exact (hv.holding hu').unmoved hw

/-! ### Steps -/

/-- A step keeps the tally, if the queues that go have no other messages than those
waiting and a route push finds its key. -/
theorem step_tally (h : Related .none s) (ha : Enabled s op) (ht : step s op = .ok t)
    (hkey : P → KeyBound s op)
    (hsp : Spared P s t) (hs : Tally P allEven s) : Tally P allEven t := by
  have hrun := step_eq_ok.mp ht
  have hrecedes : Keeps (Recedes P allEven) Fault.Any op.run → Tally P allEven t := fun hm =>
    (ok_of_wp (Q := fun _ t => Recedes P allEven s t) (hm s) hrun).tally hsp hs
  cases op with
  | environment env =>
    exact hrecedes (modify_recedes (fun _ => rfl) (fun _ => rfl) (fun _ => rfl) fun _ => rfl)
  | connect fd => exact hrecedes (acceptClient_recedes fd)
  | receive c =>
    exact hrecedes (keeps_bind keeps_get fun _ => unmoved_recedes (modifyClient_unmoved fun _ => rfl))
  | request c req =>
    obtain ⟨x, hx⟩ := client_alive.mp (h.consistent.clients.alive ha.1)
    obtain ⟨noack, m, he, hm⟩ := parseCommand_effect req h hx
    have hrun' : m (s.setClient c { x with noack := noack }) = .ok ((), t) := hm ▸ hrun
    have hsame : Frame s (s.setClient c { x with noack := noack }) :=
      ⟨links_client_same hx rfl rfl fun d => by cases d <;> rfl, Nat.le_refl _⟩
    have htally := hs.unmoved (unmoved_setClient (y := { x with noack := noack }) hx rfl)
    have hkey' : P → KeyBound (s.setClient c { x with noack := noack }) (.request c req) := by
      rintro hP _ _ r y key ⟨rfl, rfl⟩ hcmd hname
      exact hkey hP _ _ r y key rfl hcmd (hname.of_noack hx)
    exact ok_of_wp (he.tally (h.frame hsame) hkey' htally) hrun' hsp
  | malformed c =>
    exact ok_of_wp (Q := fun _ t => Holding P allEven s t) (addStatusResponse_holding c 0 _ s) hrun hs
  | send c results => exact hrecedes (sendResponse_recedes c results false)
  | close c => exact hrecedes (freeClient_recedes c)
  | tick =>
    exact ok_of_wp (Q := fun _ t => Spared P s t → Tally P allEven t) (serverUpdater_tally hs) hrun hsp

/-! ### Loads -/

omit [Lzf] in
theorem initServer_tally (cfg : Config) (env : Env) : Tally P allEven (initServer cfg env) where
  clients _ hc := absurd rfl hc
  queues _ hq := absurd rfl hq
  objects _ ho := absurd rfl ho
  messages _ _ hx := nomatch hx
  above _ _ := rfl
  count o := show Standing.Holds P .even none _ by
    have hq : (initServer cfg env).queueRefs o = 0 := Heap.sum_eq_zero fun _ _ h => nomatch h
    have hc : (initServer cfg env).clientRefs o = 0 := Heap.sum_eq_zero fun _ _ h => nomatch h
    simp [Standing.Holds, EagleServer.holders, hq, hc]

/-- A part of the file that is loaded keeps the tally. -/
def Loads {α : Type} (P : Prop) (m : ServerM (Option α)) : Prop :=
  ∀ s, Tally P allEven s → wp m (fun r t => r ≠ none → Tally P allEven t) Fault.Any s

omit [Lzf] in
theorem loads_holding {α : Type} {m : ServerM (Option α)}
    (h : Keeps (Holding P allEven) Fault.Any m) : Loads P m :=
  fun s hs => wp_mono (h s) (fun _ _ ht _ => ht hs) fun _ h => h

omit [Lzf] in
theorem loads_bind {α β : Type} {m : ServerM α} {k : α → ServerM (Option β)}
    (h : Keeps (Holding P allEven) Fault.Any m) (hk : ∀ a, Loads P (k a)) : Loads P (m >>= k) :=
      fun s hs => by
  rw [wp_bind]
  exact wp_mono (h s) (fun a t ht => hk a t (ht hs)) fun _ h => h

omit [Lzf] in
/-- A message that is loaded: its object goes to it. -/
theorem loads_push {β : Type} (q : Ptr) (data : List Byte) (expiration : ℕ) {k : ServerM (Option β)}
    (hk : Loads P k) :
    Loads P (do
      let object ← createObject data
      let _ ← pushMessageQueueT q object expiration
      k) := fun s hs => by
  rw [wp_bind]
  refine (?_ : wp _ _ _ { s with
    objects := Function.update s.objects s.fresh (some ⟨data, 1⟩), fresh := s.fresh + 1 })
  have hcreate := hs.create (b := .held) (z := ⟨data, 1⟩) fun n hn => hn.create
  rw [wp_bind]
  refine wp_mono (pushMessageQueueT_tally (d := .even) hcreate (Nat.lt_succ_self _) _ fun _ _ hn => hn.pass)
    (fun _ t ht => ?_) fun _ h => h
  rw [inHand_even] at ht
  exact hk t ht

theorem storageLoadQueueMessages_loads (q : Ptr) (n : ℕ) :
    ∀ file, Loads P (storageLoadQueueMessages q n file) := by
  induction n with
  | zero => exact fun _ => loads_holding (keeps_pure _)
  | succ n ih =>
    refine fun file => loads_bind (readerRun_any _ _) fun r => ?_
    rcases r with - | ⟨⟨expiration, data⟩, rest⟩
    · exact loads_holding (keeps_pure _)
    · exact loads_push q data expiration (ih rest)

theorem storageLoadQueue_loads (file : List Byte) : Loads P (storageLoadQueue file) := by
  refine loads_bind (readerRun_any _ _) fun r => ?_
  rcases r with - | ⟨h, rest⟩
  · exact loads_holding (keeps_pure _)
  refine loads_bind (createQueueT_holding _ _ _ _) fun q s hs => ?_
  rw [wp_bind]
  refine wp_mono (storageLoadQueueMessages_loads q h.size rest s hs) (fun r t ht => ?_) fun _ h => h
  cases r with
  | none =>
    -- the file is given up, and what has become of the queue is not looked at
    rw [wp_bind]
    exact wp_mono (deleteQueueT_recedes (P := P) (a := allEven) q t)
      (fun _ _ _ hne => absurd rfl hne) fun _ h => h
  | some file =>
    have henlist : Unmoved t { t with queues := t.queues ++ [q] } :=
      ⟨fun _ => rfl, fun _ => rfl, rfl, Nat.le_refl _⟩
    exact fun _ => (ht (Option.some_ne_none _)).unmoved henlist

theorem loadRecord_loads (type : Byte) (file : List Byte) : Loads P (loadRecord type file) := by
  have henlist : ∀ {f : EagleServer → EagleServer}, (∀ s, (f s).clientAt = s.clientAt) →
      (∀ s, (f s).queueAt = s.queueAt) → (∀ s, (f s).objects = s.objects) → (∀ s, (f s).fresh = s.fresh) →
      Keeps (Holding P allEven) Fault.Any (modify f : ServerM Unit) := fun hc hq ho hn =>
    unmoved_holding (modify_unmoved hc hq ho hn)
  have hroute : Keeps (Holding P allEven) Fault.Any (storageLoadRoute file) :=
    storageLoadRoute_upheld (fun r q key => still_holding (bindRouteT_still q r key))
      (fun name flags => still_holding (createRouteT_still name flags))
      (fun r => still_holding (deleteRouteT_still r))
      (fun s r hs => hs.unmoved ⟨fun _ => rfl, fun _ => rfl, rfl, Nat.le_refl _⟩) file
  have huser : Keeps (Holding P allEven) Fault.Any (storageLoadUser file) :=
    keeps_bind (readerRun_any _ _) fun r => by
    rcases r with - | ⟨user, rest⟩
    · exact keeps_pure _
    · exact keeps_bind (henlist (fun _ => rfl) (fun _ => rfl) (fun _ => rfl) fun _ => rfl) fun _ =>
        keeps_pure _
  have hchannel : Keeps (Holding P allEven) Fault.Any (storageLoadChannel file) :=
    keeps_bind (readerRun_any _ _) fun r => by
      rcases r with - | ⟨⟨name, flags⟩, rest⟩
      · exact keeps_pure _
      · exact keeps_bind (still_holding (createChannelT_still name flags)) fun _ => keeps_bind
          (henlist (fun _ => rfl) (fun _ => rfl) (fun _ => rfl) fun _ => rfl) fun _ => keeps_pure _
  unfold loadRecord
  split_ifs
  · exact loads_holding huser
  · exact storageLoadQueue_loads file
  · exact loads_holding hroute
  · exact loads_holding hchannel
  · exact loads_holding (keeps_pure _)

theorem loadRecords_tally (n : ℕ) : ∀ (file : List Byte) (s : EagleServer), Tally P allEven s →
    wp (loadRecords n file) (fun ok t => ok = true → Tally P allEven t) Fault.Any s := by
  induction n with
  | zero => exact fun _ _ _ h => nomatch h
  | succ n ih =>
    intro file s hs
    rw [loadRecords, wp_bind]
    refine wp_mono (readerRun_any (R := Holding P allEven) _ _ s) (fun r t ht => ?_) fun _ h => h
    cases r with
    | none => exact fun h => nomatch h
    | some x =>
      refine wp_ite (fun _ _ => ht hs) fun _ => ?_
      rw [wp_bind]
      refine wp_mono (loadRecord_loads x.1 x.2 t (ht hs)) (fun r u hu => ?_) fun _ h => h
      cases r with
      | none => exact fun h => nomatch h
      | some file => exact ih file u (hu (Option.some_ne_none _))

theorem storageLoad_tally {cfg : Config} {env : Env} {file : List Byte}
    (ht : storageLoad file (initServer cfg env) = .ok (true, t)) : Tally P allEven t := by
  suffices h : wp (storageLoad file) (fun ok t => ok = true → Tally P allEven t) Fault.Any
    (initServer cfg env) from
    ok_of_wp h ht rfl
  rw [storageLoad, wp_bind]
  refine wp_mono (readerRun_any (R := Holding P allEven) _ _ _) (fun r t ht => ?_) fun _ h => h
  cases r with
  | none => exact fun h => by cases h
  | some x =>
    exact wp_ite (fun _ => loadRecords_tally _ _ t (ht (initServer_tally cfg env))) fun _ h => by cases h

/-! ### Reachable states -/

/-- In every reachable state the counts cover the holders. -/
theorem Reachable.tally (h : Reachable s) : Tally False allEven s := by
  induction h with
  | start cfg env => exact initServer_tally cfg env
  | step op hs ha ht ih => exact step_tally hs.related ha ht False.elim False.elim ih
  | restart cfg env _ _ ht _ => exact storageLoad_tally ht

omit [Lzf] in
theorem Tally.alive {o : Ptr} (h : Tally P allEven s) (ho : 0 < s.holders o) : ∃ z, s.objects o = some z := by
  cases hz : s.objects o with
  | some z => exact ⟨z, rfl⟩
  | none =>
    have hcount := h.count o
    rw [countOf, hz] at hcount
    exact absurd hcount (Nat.ne_of_gt ho)

end Runs

end EagleMQ
