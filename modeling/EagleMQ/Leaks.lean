import EagleMQ.Backlog.Accounted
import EagleMQ.Departures
import EagleMQ.Storage.Contents

/-! What is never released. A message that is refused stays in no place, and so does
one that is overdue and has expired at one tick; a route without the key keeps its
payload; and a queue that goes does not release the messages that it holds for a
confirmation. Runs without these keep what is reachable, and nothing else. -/

namespace EagleMQ

open Prog Backlog Refcount

/-- Every message of every queue waits or is held. -/
def Accounts (s : EagleServer) : Prop := ∀ q x, s.queueAt q = some x → x.backlog.Accounted

/-- The messages stay accounted for. -/
def Accounting (s t : EagleServer) : Prop := Accounts s → Accounts t

instance : IsPreorder EagleServer Accounting where
  refl _ h := h
  trans _ _ _ h h' hs := h' (h hs)

section Leaks

variable {s t : EagleServer} {c q r : Ptr} {req : Request} {op : Op} {x : QueueT} {data : List Byte}

theorem Idle.accounting (h : Idle s t) : Accounting s t := fun hs q y hy => by
  obtain ⟨x, hx, hxy⟩ := h.queue q y hy
  exact (settings_of_bare hxy).2 ▸ hs q x hx

theorem idle_accounting {α : Type} {m : ServerM α} (h : Keeps Idle Fault.Any m) :
    Keeps Accounting Fault.Any m :=
  fun s => wp_mono (h s) (fun _ _ ht => ht.accounting) fun _ h => h

theorem accounting_same (h : t.queueAt = s.queueAt) : Accounting s t := fun hs q x hx => hs q x (h ▸ hx)

theorem withStock_accounting {α : Type} {m : StockM α} (hm : Keeps Stock.Accounting Fault.Any m) (q : Ptr) :
    Keeps Accounting Fault.Any (withStock q m) := fun s => by
  cases hx : s.queueAt q with
  | none => simp [wp, withStock, hx, Fault.Any]
  | some x =>
    refine wp_withStock hx (wp_mono (hm _) (fun _ t ht hs p y hy => ?_) fun _ h => h)
    by_cases hp : p = q
    · subst hp
      dsimp only at hy
      rw [Function.update_self] at hy
      exact Option.some.inj hy ▸ ht (hs p x hx)
    · exact hs p y (by simpa [hp] using hy)

theorem respond_accounting (c : Ptr) (req : Request) (status : Byte) :
    Keeps Accounting Fault.Any (respond c req status) :=
  idle_accounting (respond_idle c req status)

/-! ### Commands on a queue -/

theorem popFromQueue_accounting (c : Ptr) (req : Request) (q : Ptr) :
    Keeps Accounting Fault.Any (popFromQueue c req q) :=
  keeps_bind (idle_accounting (answers_idle (same_answers (withStock_same getMessageQueueT_same))))
    fun m => by
    cases m with
    | none => exact respond_accounting c req _
    | some m =>
      exact keeps_bind (idle_accounting (answers_idle (messageResponse_answers q m))) fun _ =>
        keeps_bind keeps_get fun _ =>
        withStock_accounting (Stock.popMessageQueueT_accounting _ _) q

theorem confirmInQueue_accounting (c : Ptr) (req : Request) (q : Ptr) :
    Keeps Accounting Fault.Any (confirmInQueue c req q) :=
  keeps_bind (withStock_accounting (Stock.confirmMessageQueueT_accounting _) q) fun _ =>
    keeps_ite (fun _ => respond_accounting c req _) fun _ => respond_accounting c req _

theorem createQueue_accounting (c : Ptr) (req : Request) (name : Name) (maxMsg maxMsgSize flags : ℕ) :
    Keeps Accounting Fault.Any (createQueue c req name maxMsg maxMsgSize flags) := by
  have hcreate : Keeps Accounting Fault.Any (createQueueT name maxMsg maxMsgSize flags) :=
    fun s hs p y hy => by
    by_cases hp : p = s.fresh
    · subst hp
      dsimp only at hy
      rw [Function.update_self] at hy
      exact Option.some.inj hy ▸ accounted_create
    · exact hs p y (by simpa [hp] using hy)
  exact keeps_bind hcreate fun _ => keeps_bind (keeps_modify _ fun _ => accounting_same rfl)
    fun _ => respond_accounting c req _

theorem renameQueueT_accounting (q : Ptr) (name : Name) :
    Keeps Accounting Fault.Any (renameQueueT q name) := fun s => by
  cases hx : s.queueAt q with
  | none => simp [renameQueueT, modifyQueue, getQueue, hx, Fault.Any]
  | some x =>
    refine wp_modifyQueue ⟨x, hx, fun hs p y hy => ?_⟩
    by_cases hp : p = q
    · subst hp
      rw [EagleServer.setQueue_queueAt] at hy
      exact Option.some.inj hy ▸ hs p x hx
    · exact hs p y (by simpa [EagleServer.setQueue, hp] using hy)

/-! ### Pushes -/

/-- A push that is taken. -/
theorem push_accounts (hs : Accounts s) (hx : s.queueAt q = some x) (hinv : x.Invariant) {o : Ptr}
    (hdata : Carries o data s)
    (haccepts : x.accepts data.length = true) (expiration : ℕ) :
    wp (pushMessageQueueT q o expiration) (fun _ t => Accounts t) Fault.Any s :=
  wp_mono (push_carries hx hinv hdata expiration) (fun ok t ⟨_, y, hy, ht⟩ p z hz => by
    by_cases hp : p = q
    · subst hp
      rw [ht, Function.update_self] at hz
      obtain rfl := Option.some.inj hz
      obtain rfl := hy.accepts_eq.trans haccepts
      exact hy.accounted (hs p x hx)
    · exact hs p z (by rwa [ht, Function.update_of_ne hp] at hz)) fun _ h => h

theorem Reached.accounts {l : List Ptr} {o expiration size : ℕ}
    (h : Reached l o expiration size s t) (hs : Accounts s)
    (halive : ∀ q ∈ l, ∃ x, s.queueAt q = some x ∧ x.accepts size = true) : Accounts t := fun p z hz => by
  by_cases hp : p ∈ l
  · obtain ⟨x, hx, haccepts⟩ := halive p hp
    obtain ⟨tag, y, hy, hty⟩ := h.settled p hp x hx
    obtain rfl := Option.some.inj (hty.symm.trans hz)
    exact (haccepts ▸ hy).accounted (hs p x hx)
  · exact hs p z (by rwa [h.others p hp] at hz)

/-- The server with one more payload. -/
def EagleServer.posted (s : EagleServer) (data : List Byte) (n : ℕ) : EagleServer :=
  { s with objects := Function.update s.objects s.fresh (some ⟨data, n⟩), fresh := s.fresh + 1 }

theorem posted_carries (s : EagleServer) (data : List Byte) (n : ℕ) :
    Carries s.fresh data (s.posted data n) :=
  ⟨Nat.lt_succ_self _, fun z hz => by
    unfold EagleServer.posted at hz
    dsimp only at hz
    rw [Function.update_self] at hz
    exact Option.some.inj hz ▸ rfl⟩

theorem reportResult_accounts {m : ServerM Bool} (hm : wp m (fun _ t => Accounts t) Fault.Any s) :
    wp (reportResult c req m) (fun _ t => Accounts t) Fault.Any s := by
  rw [reportResult, wp_bind]
  exact wp_mono hm (fun ok t ht => wp_ite
    (fun _ => wp_mono (respond_accounting c req _ t) (fun _ _ hu => hu ht) fun _ h => h)
    fun _ => wp_mono (respond_accounting c req _ t) (fun _ _ hu => hu ht) fun _ h => h) fun _ h => h

theorem pushToQueue_accounts (hs : Accounts s) (hx : s.queueAt q = some x) (hinv : x.Invariant)
    (haccepts : x.accepts (req.rest 76).length = true) (c : Ptr) :
    wp (pushToQueue c req q) (fun _ t => Accounts t) Fault.Any s := by
  rw [pushToQueue, wp_bind]
  refine (reportResult_accounts ?_ : wp _ _ _ (s.posted (req.rest 76) 1))
  rw [wp_bind, wp_get]
  exact push_accounts (s := s.posted (req.rest 76) 1) hs hx hinv (posted_carries s _ 1) haccepts _

theorem pushToRoute_accounts {x : RouteT} {key : Name} (hs : Accounts s) (hx : s.routeAt r = some x)
    (hkey : key ∈ x.keys.keys) (hn : (x.keys.values key).Nodup)
    (hall : ∀ q ∈ x.keys.values key, ∃ y, s.queueAt q = some y ∧ y.Invariant)
    (haccepts : ∀ q ∈ x.receivers key, ∀ y, s.queueAt q = some y →
      y.accepts (req.rest 108).length = true) (c : Ptr) :
    wp (pushToRoute c req r key) (fun _ t => Accounts t) Fault.Any s := by
  have hmem : ∀ q ∈ x.receivers key, q ∈ x.keys.values key := fun q hq => by
    unfold RouteT.receivers at hq
    split_ifs at hq
    · exact (listRotate_perm _).subset (List.mem_of_mem_head? (by simpa using hq))
    · exact hq
  rw [pushToRoute, wp_bind]
  refine (?_ : wp _ _ _ (s.posted (req.rest 108) 1))
  rw [wp_bind, resetRefcount]
  refine wp_modifyObjects (Function.update s.objects s.fresh (some ⟨req.rest 108, 0⟩)) ?_ ?_
  · simp [EagleServer.posted, Objects.find, bind, Except.bind]
  refine (reportResult_accounts ?_ : wp _ _ _ (s.posted (req.rest 108) 0))
  rw [wp_bind, wp_get]
  refine wp_mono (pushMessageRouteT_reaches (s := s.posted (req.rest 108) 0) hx hn hall
    (posted_carries s _ 0) _)
    (fun ok t ht => ?_) fun _ h => h
  rw [if_pos hkey] at ht
  refine Reached.accounts (s := s.posted (req.rest 108) 0) ht.1 hs fun q hq => ?_
  obtain ⟨y, hy, -⟩ := hall q (hmem q hq)
  exact ⟨y, hy, haccepts q hq y hy⟩

/-! ### Steps -/

/-- Every queue that a push reaches takes it. -/
structure PushesTaken (s : EagleServer) (op : Op) : Prop where
  queue : ∀ c req q x, op = .request c req → req.cmd = Cmd.queuePush → Addresses s c req 77 q →
    s.nomemory = false →
    s.queueAt q = some x → x.accepts (req.rest 76).length = true
  bound : KeyBound s op
  route : ∀ c req r x key, op = .request c req → req.cmd = Cmd.routePush →
    NamesRoute s c req r key → s.nomemory = false →
    s.routeAt r = some x → ∀ q ∈ x.receivers key, ∀ y, s.queueAt q = some y →
      y.accepts (req.rest 108).length = true

/-- The step leaves nothing behind: it finds the lists in order, every push is taken, no
message is overdue and expired at one tick, and no queue goes that holds messages. -/
structure Thrifty (s : EagleServer) (op : Op) : Prop where
  careful : Careful s op
  pushes : PushesTaken s op
  tick : op = .tick → ∀ q x, s.queueAt q = some x → ∀ m ∈ x.backlog.confirmMessages,
    x.backlog.overdue (s.env.mstime % 4294967296) m = true →
    x.backlog.expired (s.env.mstime % 4294967296) m = false
  departs : ∀ q x, s.queueAt q = some x → Departs s op q x → x.backlog.confirmMessages = []

variable [Lzf]

theorem step_accounts (hr : Reachable s) (ha : Enabled s op) (ht : step s op = .ok t) (hop : Thrifty s op)
    (hs : Accounts s) : Accounts t := by
  rcases step_passive passive_idle hr.related ha ht with hidle | rfl |
    ⟨c, req, x, noack, m, rfl, hx, hserves, hrun⟩
  · exact hidle.accounting hs
  · intro q y hy
    obtain ⟨x, hx, -, hrun⟩ :=
      ok_of_wp (Q := fun _ t => ∀ q y, t.queueAt q = some y → _)
        (serverUpdater_restocked hr.related) (step_eq_ok.mp ht) q y hy
    exact (hs q x hx).ticked hrun (hop.tick rfl q x hx)
  · have hkeeps : Keeps Accounting Fault.Any m → Accounts t := fun hm =>
      ok_of_wp (Q := fun _ t => Accounting _ t) (hm _) hrun hs
    have hinv : ∀ q y, s.queueAt q = some y → y.Invariant := fun q y hy => hr.invariant hy
    cases hserves with
    | create name maxMsg maxMsgSize flags =>
      exact hkeeps (createQueue_accounting c req name maxMsg maxMsgSize flags)
    | rename q name =>
      exact hkeeps (keeps_bind (renameQueueT_accounting q name) fun _ => respond_accounting c req _)
    | push q hcmd haddr hmem =>
      have haddr := haddr.of_noack hx
      obtain ⟨y, hy⟩ := queue_alive.mp (hr.related.declaredQueue haddr.name.mem)
      exact ok_of_wp (Q := fun _ t => Accounts t)
        (pushToQueue_accounts (s := s.setClient c { x with noack := noack }) hs hy (hinv q y hy)
        (hop.pushes.queue c req q y rfl hcmd haddr hmem hy) c) hrun
    | pop q => exact hkeeps (popFromQueue_accounting c req q)
    | confirm q => exact hkeeps (confirmInQueue_accounting c req q)
    | purge q =>
      exact hkeeps (keeps_bind (withStock_accounting Stock.purgeQueueT_accounting q)
        fun _ => respond_accounting c req _)
    | route r key hcmd hname hmem =>
      have hname := hname.of_noack hx
      obtain ⟨y, hy⟩ := route_alive.mp (hr.related.consistent.routes.alive hname.listed)
      have hkeys : (links s).boundQueues r = y.keys := by simp [links, Heap.read, hy]
      have hnodup : (y.keys.values key).Nodup := hkeys ▸ (hr.related.consistent.bound key).nodup r
      refine ok_of_wp (Q := fun _ t => Accounts t)
        (pushToRoute_accounts (s := s.setClient c { x with noack := noack }) hs hy
        (hop.pushes.bound c req r y key rfl hcmd hname hmem hy) hnodup (fun q hq => ?_)
        (hop.pushes.route c req r y key rfl hcmd hname hmem hy) c) hrun
      obtain ⟨z, hz⟩ := queue_alive.mp (hr.related.boundQueue (hkeys ▸ hq))
      exact ⟨z, hz, hinv q z hz⟩

/-! ### Loads -/

/-- The queue of the file has room for its messages. -/
def Record.Roomy : Record → Prop
  | .queue h messages =>
    (messages.length ≤ h.maxMsg ∨ bitCheck h.flags 1 = true) ∧ ∀ m ∈ messages, m.2.length ≤ h.maxMsgSize
  | _ => True

omit [Lzf] in
theorem loadMessages_accounts (q : Ptr) :
    ∀ (l : List (ℕ × List Byte)) (s : EagleServer) (x : QueueT), Accounts s →
    s.queueAt q = some x → x.subscribedClientsMsg = [] → x.subscribedClientsNotify = [] →
    (x.size + l.length ≤ x.maxMsg ∨ x.forcePush = true) → (∀ m ∈ l, m.2.length ≤ x.maxMsgSize) →
    wp (l.forM (loadMessage q)) (fun _ t => Accounts t) Fault.Any s
  | [], _, _, hs, _, _, _, _, _ => hs
  | (expiration, data) :: l, s, x, hs, hx, hmsg, hnotify, hroom, hsize => by
    show wp (loadMessage q (expiration, data) >>= fun _ => l.forM (loadMessage q)) _ _ s
    rw [wp_bind, loadMessage, wp_bind]
    refine (?_ : wp _ _ _ (s.posted data 1))
    obtain ⟨l', hl', -⟩ := hs q x hx
    have hinv : x.Invariant := ⟨⟨l', hl'⟩, hmsg ▸ .nil, hnotify ▸ .nil⟩
    have haccepts : x.accepts data.length = true := by
      have hlen : data.length ≤ x.maxMsgSize := hsize _ (List.mem_cons_self ..)
      rw [List.length_cons] at hroom
      rcases hroom with hroom | hforce
      · simp [QueueT.accepts, hlen, show x.size < x.maxMsg by omega]
      · simp [QueueT.accepts, hlen, hforce]
    rw [wp_bind]
    refine wp_mono (push_carries (s := s.posted data 1) hx hinv (posted_carries s data 1) expiration)
      (fun ok t ht => ?_) fun _ h => h
    obtain ⟨-, y, hy, ht⟩ := ht
    obtain rfl := hy.accepts_eq.trans haccepts
    obtain ⟨⟨b, rfl⟩, hlen⟩ := hy.lonely hmsg
    refine loadMessages_accounts q l t { x with backlog := b } (fun p z hz => ?_)
      (by rw [ht]; exact Function.update_self ..)
      hmsg hnotify (hroom.imp_left fun h => ?_) fun m hm => hsize m (List.mem_cons_of_mem _ hm)
    · by_cases hp : p = q
      · subst hp
        rw [ht, Function.update_self] at hz
        exact Option.some.inj hz ▸ hy.accounted (hs p x hx)
      · exact hs p z (by rwa [ht, Function.update_of_ne hp] at hz)
    · rw [List.length_cons] at h
      show QueueT.size { x with backlog := b } + l.length ≤ x.maxMsg
      omega

omit [Lzf] in
theorem still_accounting {α : Type} {m : ServerM α} (h : Keeps Still Fault.Link m) :
    Keeps Accounting Fault.Any m :=
  fun s => wp_mono (h s) (fun _ t ht hs q y hy => by
    have hq := ht.queue q
    rw [hy] at hq
    obtain ⟨x, hx, hxy⟩ := Option.map_eq_some_iff.mp hq.symm
    exact (settings_of_bare (congrArg QueueT.bare hxy)).2 ▸ hs q x hx) fun _ _ => trivial

omit [Lzf] in
theorem Record.build_accounts (r : Record) (hr : r.Roomy) (hs : Accounts s) :
    wp r.build (fun _ t => Accounts t) Fault.Any s := by
  have hkeeps : ∀ {m : ServerM Unit}, Keeps Accounting Fault.Any m →
      wp m (fun _ t => Accounts t) Fault.Any s := fun hm =>
    wp_mono (hm s) (fun _ _ ht => ht hs) fun _ h => h
  cases r with
  | user u => exact hs
  | queue h messages =>
    rw [Record.build, wp_bind]
    have hnew : Accounts { s with
        queueAt := Function.update s.queueAt s.fresh
          (some ⟨h.name, h.maxMsg, h.maxMsgSize, h.flags, bitCheck h.flags 0,
          bitCheck h.flags 1, bitCheck h.flags 2, .create, [], [], [], []⟩)
        fresh := s.fresh + 1 } := fun p y hy => by
      by_cases hp : p = s.fresh
      · subst hp
        dsimp only at hy
        rw [Function.update_self] at hy
        exact Option.some.inj hy ▸ accounted_create
      · exact hs p y (by simpa [hp] using hy)
    show wp (messages.forM (loadMessage s.fresh) >>= fun _ => _) _ _ _
    rw [wp_bind]
    refine wp_mono (loadMessages_accounts s.fresh messages _ _ hnew (Function.update_self ..) rfl rfl ?_ hr.2)
      (fun _ t ht => ?_) fun _ h => h
    · exact hr.1.imp_left fun h => (Nat.zero_add _).trans_le h
    · exact ht
  | route name flags keys =>
    refine hkeeps (keeps_bind (still_accounting (createRouteT_still name flags)) fun r => keeps_bind
      (keeps_forM (fun k => keeps_forM (fun n => keeps_bind keeps_get fun _ => ?_) _) _) fun _ =>
      keeps_modify _ fun _ => accounting_same rfl)
    refine keeps_bind (keeps_bind keeps_get fun _ => keeps_lift fun _ _ => trivial) fun q => ?_
    cases q with
    | none => exact keeps_pure _
    | some q => exact still_accounting (bindRouteT_still q r _)
  | channel name flags =>
    exact hkeeps (keeps_bind (still_accounting (createChannelT_still name flags)) fun _ =>
      keeps_modify _ fun _ => accounting_same rfl)

theorem storageLoad_accounts {cfg : Config} {env : Env} {file : List Byte} {records : List Record}
    (hfile : (readFile file).run = .ok (some records)) (hroomy : ∀ r ∈ records, r.Roomy)
    (ht : storageLoad file (initServer cfg env) = .ok (true, t)) : Accounts t := by
  obtain ⟨records', hfile', hrun⟩ := storageLoad_iff.mp ht
  obtain rfl := Option.some.inj (Except.ok.inj (hfile.symm.trans hfile'))
  have hall := wp_forM (E := Fault.Any) (fun l s => (∀ r ∈ l, Record.Roomy r) ∧ Accounts s) Record.build
    (fun r l s ⟨hl, hs⟩ => wp_mono (r.build_accounts (hl r (List.mem_cons_self ..)) hs)
      (fun _ u hu => ⟨fun r hr => hl r (List.mem_cons_of_mem _ hr), hu⟩) fun _ h => h)
    records (initServer cfg env) ⟨hroomy, fun q x hx => nomatch hx⟩
  exact (ok_of_wp hall hrun).2

/-! ### Runs -/

/-- Every queue of the file that is saved has room for its messages. -/
def SavedRoomy (s : EagleServer) (_ : Config) : Prop :=
  ∀ file records, (storageSave s).run = .ok (some file) →
  (readFile file).run = .ok (some records) → ∀ r ∈ records, r.Roomy

/-- Every message waits or is held, and every payload has as many holders as it counts, and
one at least. -/
structure NoLeak (s : EagleServer) : Prop where
  intact : ∀ q x, s.queueAt q = some x → Intact x.backlog
  messages : ∀ q x, s.queueAt q = some x → ∀ m, x.backlog.messages m ≠ none ↔ m ∈ x.backlog.stored
  gone : ∀ o, s.objects o = none → s.holders o = 0
  counts : ∀ o z, s.objects o = some z → z.refcount = s.holders o ∧ 0 < s.holders o

theorem Guarded.accounts (h : Guarded Thrifty SavedRoomy s) : Accounts s ∧ Tally True allEven s := by
  induction h with
  | start cfg env => exact ⟨fun q x hx => (nomatch hx), initServer_tally cfg env⟩
  | step op hs ha hop ht ih =>
    refine ⟨step_accounts hs.reachable ha ht hop ih.1, step_tally hs.reachable.related ha ht
      (fun _ => hop.pushes.bound)
      (fun _ q x hx hq => ?_) ih.2⟩
    exact (ih.1 q x hx).allWait (hop.departs q x hx (step_departs hs.reachable.related ha ht hx hq))
  | restart cfg env hs hroomy hfile ht _ =>
    obtain ⟨records, hrecords, -⟩ := storageLoad_iff.mp ht
    exact ⟨storageLoad_accounts hrecords (hroomy _ records hfile hrecords) ht, storageLoad_tally ht⟩

/-- A check of the condition in a state that is reached. -/
def Thrifty.check (s : EagleServer) (op : Op) : Bool :=
  Careful.check s op && s.everyQueue (fun x => x.backlog.confirmMessages.all (fun m =>
    !op.isTick || !x.backlog.overdue (s.env.mstime % 4294967296) m || !x.backlog.expired
      (s.env.mstime % 4294967296) m) &&
    (x.backlog.confirmMessages.isEmpty || !x.autoDelete && op.cmd != some Cmd.queueDelete &&
      op.cmd != some Cmd.flush)) &&
  match op with
  | .request _ req =>
    (req.cmd != Cmd.queuePush || s.everyQueue fun x => x.accepts (req.rest 76).length) &&
    (req.cmd != Cmd.routePush || s.everyQueue (fun x => x.accepts (req.rest 108).length) &&
      (List.range s.fresh).all fun r => (s.routeAt r).all fun x =>
        (slice req.mem 72 (checkInputBuffer1 (fun j => req.mem (72 + j)) 32)) ∈ x.keys.keys)
  | _ => true

theorem thrifty_of_check (hs : Reachable s) (h : Thrifty.check s op = true) : Thrifty s op := by
  simp only [Thrifty.check, Bool.and_eq_true] at h
  obtain ⟨⟨hcareful, hqueues⟩, hpush⟩ := h
  have hqueue : ∀ q x, s.queueAt q = some x → _ :=
    fun q x hx => Bool.and_eq_true_iff.mp (hs.everyQueue hqueues hx)
  refine ⟨careful_of_check hs hcareful,
    ⟨fun c req q x he hcmd _ _ hx => ?_, fun c req r x key he hcmd hname _ hx => ?_,
    fun c req r x key he hcmd _ _ _ q _ y hy => ?_⟩, fun he q x hx m hm hover => ?_,
    fun q x hx hdeparts => ?_⟩
  · subst he
    have htaken := (Bool.and_eq_true_iff.mp hpush).1
    rw [hcmd, bne_self_eq_false, Bool.false_or] at htaken
    exact hs.everyQueue htaken hx
  · subst he
    have hroute := (Bool.and_eq_true_iff.mp hpush).2
    rw [hcmd, bne_self_eq_false, Bool.false_or, Bool.and_eq_true] at hroute
    have hr := List.all_eq_true.mp hroute.2 r
      (List.mem_range.mpr (hs.related.below.routes _ (route_alive.mpr ⟨x, hx⟩)))
    rw [hx] at hr
    obtain ⟨n, -, rfl, rfl⟩ := hname.key
    exact of_decide_eq_true hr
  · subst he
    have hroute := (Bool.and_eq_true_iff.mp hpush).2
    rw [hcmd, bne_self_eq_false, Bool.false_or, Bool.and_eq_true] at hroute
    exact hs.everyQueue hroute.1 hy
  · subst he
    have hlive := List.all_eq_true.mp (hqueue q x hx).1 m hm
    rw [hover] at hlive
    simpa [Op.isTick] using hlive
  · rcases Bool.or_eq_true_iff.mp (hqueue q x hx).2 with hnone | hstays
    · exact List.isEmpty_iff.mp hnone
    · simp only [Bool.and_eq_true, Bool.not_eq_true', bne_iff_ne, ne_eq] at hstays
      rcases hdeparts with ⟨c, req, rfl, -, ⟨hcmd, -⟩ | ⟨hcmd, -⟩⟩ | ⟨hauto, -⟩
      · exact absurd (congrArg some hcmd) hstays.1.2
      · exact absurd (congrArg some hcmd) hstays.2
      · exact absurd hauto (by simp [hstays.1.1])

/-- Nothing is left behind, and a queue that goes releases all its messages. -/
theorem nothing_leaks (h : Guarded Thrifty SavedRoomy s) : NoLeak s ∧
    ∀ op t, Enabled s op → Thrifty s op → step s op = .ok t → ∀ q x, s.queueAt q = some x →
      t.queueAt q = none →
      ∀ o, wp Stock.releaseQueue (fun _ u => ∀ m, u.backlog.messages m = none) (· = .object)
        ⟨x.backlog, o⟩ := by
  obtain ⟨haccounts, htally⟩ := h.accounts
  refine ⟨⟨fun q x hx => ?_, fun q x hx m => ⟨(haccounts q x hx).stored, fun hm => ?_⟩,
    fun o ho => ?_, fun o z hz => ?_⟩, ?_⟩
  · obtain ⟨l, hl⟩ := h.stocked (fun _ _ h => h.careful.1) q x hx
    exact hl.intact
  · obtain ⟨l, hl⟩ := h.stocked (fun _ _ h => h.careful.1) q x hx
    exact hl.alive m (hl.mem_stored.mp hm)
  · have := htally.count o
    rwa [countOf, ho] at this
  · have := htally.count o
    rw [countOf_some hz] at this
    exact this.2 trivial
  · intro op t ha hop ht q x hx hq o
    obtain ⟨l, hl, hall⟩ :=
      (haccounts q x hx).allWait (hop.departs q x hx (step_departs h.reachable.related ha ht hx hq))
    refine wp_mono (Stock.releaseQueue_spec (E := (· = .object)) rfl hl) (fun _ u hu m => ?_) fun _ h => h
    rw [hu, Stock.without]
    by_cases hm : m ∈ l.map Prod.snd
    · exact if_pos hm
    · rw [if_neg hm]
      exact not_not.mp fun hne => hm (hall m hne)

omit [Lzf] in
/-- A push by way of a route, a purge, and a tick that puts a message back and removes one:
four messages are left. -/
theorem nothing_leaks_popped : ∃ (s : EagleServer) (x : QueueT), s.queueAt 2 = some x ∧
    x.backlog.queue.waiting = [2, 4, 7] ∧
    x.backlog.confirmMessages = [3] ∧ x.backlog.messages 0 = none ∧ x.backlog.messages 6 = none ∧
    NoLeak s := by
  obtain ⟨s, hs, hp⟩ := Sample.exists_checked Thrifty (@SavedRoomy Lzf.stored)
    (fun s op => @thrifty_of_check s op Lzf.stored)
    (Sample.declared 5 ++ Sample.named Cmd.routeCreate 0 [114] (leBytes 4 0) ::
      Sample.named Cmd.routeBind 0 [114] (padded 64 [113] ++ padded 32 [107]) ::
      Sample.named Cmd.routePush 0 [114] (padded 32 [107] ++ leBytes 4 0 ++ [1]) :: Sample.traffic)
    (p := fun s => decide (Sample.places s = some ([2, 4, 7], [3])) && (s.queueAt 2).any fun x =>
      (x.backlog.messages 0).isNone && (x.backlog.messages 6).isNone) (by decide +kernel)
  obtain ⟨hplaces, hgone⟩ := Bool.and_eq_true_iff.mp hp
  obtain ⟨x, hx, hwaiting, hheld⟩ := Sample.queue_of_places (of_decide_eq_true hplaces)
  rw [hx, Option.any_some, Bool.and_eq_true, Option.isNone_iff_eq_none, Option.isNone_iff_eq_none] at hgone
  exact ⟨s, x, hx, hwaiting, hheld, hgone.1, hgone.2, (@nothing_leaks s Lzf.stored hs).1⟩

omit [Lzf] in
/-- A full queue refuses a message, which is then in no place and is not released. -/
theorem message_leaks : ∃ s x, @Reachable Lzf.stored s ∧ s.queueAt 2 = some x ∧ 1 ∉ x.backlog.stored ∧
    x.backlog.messages 1 ≠ none ∧ s.objects 7 ≠ none := by
  obtain ⟨s, hs, hp⟩ := Sample.exists_run
    (Sample.login 0 ++ [Sample.queueCreate 0 [113] 1 0, Sample.named Cmd.queueDeclare 0 [113] [],
      Sample.named Cmd.queuePush 0 [113] (leBytes 4 0 ++ [1]),
      Sample.named Cmd.queuePush 0 [113] (leBytes 4 0 ++ [2])])
    (p := fun s => (s.queueAt 2).map (fun x => (x.backlog.stored, (x.backlog.messages 1).isSome)) =
      some ([0], true) ∧
      (s.objects 7).isSome) (by decide +kernel)
  obtain ⟨hqueue, hobject⟩ := of_decide_eq_true hp
  obtain ⟨x, hx, hw⟩ := Option.map_eq_some_iff.mp hqueue
  obtain ⟨hstored, hsome⟩ := Prod.mk.inj hw
  exact ⟨s, x, hs, hx, by rw [hstored]; decide, Option.isSome_iff_ne_none.mp hsome,
    Option.isSome_iff_ne_none.mp hobject⟩

end Leaks

end EagleMQ
