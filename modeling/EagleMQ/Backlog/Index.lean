import EagleMQ.Backlog.Oldest

/-! The expiry list of a queue as an index of the messages that wait in it. All
operations keep it, save that a purge releases messages and leaves their entries. -/

namespace EagleMQ

open Prog Backlog

/-! ### Nodes of a queue -/

namespace Queue

/-- The nodes met from a node on along at most `n` of the `prev` links, with their values. -/
def chaseNodes (nodes : Heap (Node Ptr)) (n : ℕ) (p : Option Ptr) : List (Ptr × Ptr) :=
  match n, p with
  | n + 1, some p =>
    match nodes p with
    | some nd => (p, nd.value) :: chaseNodes nodes n nd.prev
    | none => []
  | _, _ => []

/-- The nodes of the waiting messages. -/
def places (q : Queue) : List (Ptr × Ptr) := chaseNodes q.nodes q.len q.tail

open Chain

theorem places_spec {q : Queue} {l : List (Ptr × Ptr)} (h : Linked q l) : q.places = l.reverse := by
  have key : ∀ (l : List (Ptr × Ptr)) (e : Option Ptr), Seg q.nodes none l e →
      chaseNodes q.nodes l.length (last none l) = l.reverse := by
    intro l
    induction l using List.reverseRecOn with
    | nil => intros; rfl
    | append_singleton l x ih =>
      obtain ⟨n, v⟩ := x
      intro e hs
      rw [seg_append] at hs
      have hn : q.nodes n = some ⟨last none l, e, v⟩ := hs.2.1
      simp [chaseNodes, last, hn, ih _ hs.1]
  obtain ⟨e, hs, -⟩ := h.seg
  unfold places
  rw [h.len]
  cases l with
  | nil => rfl
  | cons x l => rw [h.tail (by simp)]; exact key _ e hs

end Queue

/-! ### The index -/

/-- The expiry list has the waiting messages that expire, each once, and they know
their nodes in it and in the queue. -/
structure Indexed (b : Backlog) : Prop where
  once : (b.expireMessages.map Prod.snd).Nodup
  exact : ∀ m, m ∈ b.expireMessages.map Prod.snd ↔
    m ∈ b.queue.waiting ∧ ∃ msg, b.messages m = some msg ∧ msg.expiration ≠ 0
  nodes : ∀ e m, (e, m) ∈ b.expireMessages → ∃ msg n, b.messages m = some msg ∧ msg.data0 = some e ∧
    msg.data1 = some n ∧ (n, m) ∈ b.queue.places

/-- The tick does not take a stale link: the message to pop next has not expired, or
no message has been popped behind it. -/
def NextClear (b : Backlog) (time : ℕ) : Prop :=
  b.queue.tailNext = none ∨ ∀ m, b.queue.waiting.head? = some m → b.expired time m = false

/-- No message that a purge releases expires. -/
def PurgesPlain (s : EagleServer) (op : Op) : Prop :=
  ∀ c req q x, op = .request c req → req.cmd = Cmd.queuePurge → Addresses s c req 72 q →
    s.queueAt q = some x →
    ∀ m ∈ x.backlog.queue.waiting, ∀ msg, x.backlog.messages m = some msg → msg.expiration = 0

section Index

variable {b : Backlog} {l : List (Ptr × Ptr)} {s t : EagleServer} {q : Ptr} {x : QueueT} {time : ℕ}

theorem Backlog.Sound.mem_waiting {P : Prop} (h : Sound P b l) {m : Ptr} :
    m ∈ b.queue.waiting ↔ m ∈ l.map Prod.snd := by
  rw [h.waiting_eq, List.mem_reverse]

theorem Backlog.Sound.index_agrees (h : Sound True b l) : Indexed b := by
  have hentry : ∀ {e m}, (e, m) ∈ b.expireMessages → ∃ msg, b.messages m = some msg ∧ m ∈ l.map Prod.snd ∧
      msg.expiration ≠ 0 ∧ msg.data0 = some e := fun {e m} he => by
    obtain ⟨msg, hmsg⟩ := Option.ne_none_iff_exists'.mp (h.live trivial _ he)
    exact ⟨msg, hmsg, h.entries _ he msg hmsg⟩
  refine ⟨?_, fun m => ⟨fun hm => ?_, fun ⟨hm, msg, hmsg, he⟩ => ?_⟩, fun e m he => ?_⟩
  · refine List.Nodup.map_on ?_ (List.Nodup.of_map _ h.nodes)
    rintro ⟨e, m⟩ he ⟨e', m'⟩ he' rfl
    obtain ⟨msg, hmsg, -, -, hdata⟩ := hentry he
    obtain ⟨msg', hmsg', -, -, hdata'⟩ := hentry he'
    obtain rfl := Option.some.inj (hmsg.symm.trans hmsg')
    rw [Option.some.inj (hdata.symm.trans hdata')]
  · obtain ⟨⟨e, m⟩, he, rfl⟩ := List.mem_map.mp hm
    obtain ⟨msg, hmsg, hw, hexp, -⟩ := hentry he
    exact ⟨h.mem_waiting.mpr hw, msg, hmsg, hexp⟩
  · obtain ⟨⟨n, m⟩, hz, rfl⟩ := List.mem_map.mp (h.mem_waiting.mp hm)
    obtain ⟨e, hent, -⟩ := h.indexed _ hz msg hmsg he
    exact List.mem_map.mpr ⟨_, hent, rfl⟩
  · obtain ⟨msg, hmsg, hw, hexp, hdata⟩ := hentry he
    obtain ⟨⟨n, m⟩, hz, rfl⟩ := List.mem_map.mp hw
    obtain ⟨-, -, -, hdata1⟩ := h.indexed _ hz msg hmsg hexp
    exact ⟨msg, n, hmsg, hdata, hdata1, by rwa [Queue.places_spec h.linked, List.mem_reverse]⟩

theorem NextClear.clear {P : Prop} (h : NextClear b time) (hs : Sound P b l) : Clear b time l := by
  refine h.imp id fun hnext x hx => hnext x.2 ?_
  rw [hs.waiting_eq, List.head?_reverse, List.getLast?_map, hx]
  rfl

/-- A tick of a queue whose index is right meets only the count of a payload. -/
theorem tick_errs (h : Sound True b l) (hclear : NextClear b time) (o : Heap Object) :
    wp (Stock.tick time) (fun _ _ => True) (fun e => e = .object) ⟨b, o⟩ :=
  wp_mono (Stock.tick_spec (E := (· = .object)) rfl (fun hn => absurd trivial hn) (.inl (hclear.clear h)) h)
    (fun _ _ _ => trivial) fun _ h => h

variable [Lzf]

theorem Guarded.stocked {steps : EagleServer → Op → Prop} {restarts : EagleServer → Config → Prop}
    (hsteps : ∀ s op, steps s op → PurgesPlain s op) (h : Guarded steps restarts s) :
    ∀ q x, s.queueAt q = some x → ∃ l, Sound True x.backlog l := by
  induction h with
  | start cfg env => exact fun q x hx => nomatch hx
  | step op hs ha hop ht ih =>
    intro q y hy
    rcases step_traffic hs.reachable.related ha ht q y hy with ⟨x, hx, hc⟩ | ⟨-, hnew, -⟩
    · obtain ⟨l, hl⟩ := ih q x hx
      obtain ⟨l', hl', -⟩ := hc.sound_of hl (fun _ => trivial) fun c req he hcmd haddr _ z hz =>
        hsteps _ op hop c req q x he hcmd haddr hx z.2 (hl.mem_waiting.mpr (List.mem_map.mpr ⟨z, hz, rfl⟩))
      exact ⟨l', hl'⟩
    · exact ⟨[], hnew ▸ sound_create⟩
  | restart cfg env _ _ _ ht _ =>
    intro q x hx
    obtain ⟨l, hl, -⟩ := (storageLoad_filled ht hx).sound (P := True) sound_create
    exact ⟨l, hl⟩

/-- A check of the condition in a state that is reached. -/
def PurgesPlain.check (s : EagleServer) (op : Op) : Bool :=
  op.cmd != some Cmd.queuePurge || s.everyQueue fun x => x.backlog.queue.waiting.all fun m =>
    (x.backlog.messages m).all fun msg => decide (msg.expiration = 0)

theorem purgesPlain_of_check {op : Op} (hs : Reachable s) (h : PurgesPlain.check s op = true) :
    PurgesPlain s op :=
  fun c req q x he hcmd _ hx m hm msg hmsg => by
    subst he
    have hpurge : (Op.request c req).cmd = some Cmd.queuePurge := congrArg some hcmd
    rw [PurgesPlain.check, hpurge, bne_self_eq_false, Bool.false_or] at h
    have hplain := List.all_eq_true.mp (hs.everyQueue h hx) m hm
    rw [hmsg] at hplain
    exact of_decide_eq_true hplain

/-- While no purge releases a message that expires, the expiry list of each queue is
an index, and a tick without a stale link touches no node and no message that is gone. -/
theorem expiry_index (h : Guarded PurgesPlain (fun _ _ => True) s) :
    ∀ q x, s.queueAt q = some x → Indexed x.backlog ∧
      ∀ time, NextClear x.backlog time → ∀ o e, Stock.tick time ⟨x.backlog, o⟩ = .error e → e = .object := by
  intro q x hx
  obtain ⟨l, hl⟩ := h.stocked (fun _ _ h => h) q x hx
  exact ⟨hl.index_agrees, fun time hclear o e he => fault_of_wp (E := (· = .object))
    (tick_errs hl hclear o) he⟩

omit [Lzf] in
/-- A message that expires waits behind two others, after a purge and a tick that has
removed one. -/
theorem expiry_index_waiting : ∃ (s : EagleServer) (x : QueueT), s.queueAt 2 = some x ∧
    x.backlog.queue.waiting = [1, 3, 6] ∧ x.backlog.expireMessages = [(7, 6)] ∧ Indexed x.backlog := by
  obtain ⟨s, hs, hp⟩ := Sample.exists_checked PurgesPlain (fun _ _ => True)
    (fun s op => @purgesPlain_of_check s Lzf.stored op)
    (Sample.declared 5 ++ Sample.traffic) (p := fun s => decide (Sample.places s = some ([1, 3, 6], [2])) &&
      decide ((s.queueAt 2).map (fun x => x.backlog.expireMessages) = some [(7, 6)])) (by decide +kernel)
  obtain ⟨hplaces, hexpire⟩ := Bool.and_eq_true_iff.mp hp
  obtain ⟨x, hx, hw, -⟩ := Sample.queue_of_places (of_decide_eq_true hplaces)
  have hexpire := of_decide_eq_true hexpire
  rw [hx] at hexpire
  exact ⟨s, x, hx, hw, Option.some.inj hexpire, (@expiry_index _ Lzf.stored hs 2 x hx).1⟩

omit [Lzf] in
/-- A purge leaves the entry of a message that it has released, and a tick reads it. -/
theorem not_indexed_purged : ∃ s x, @Reachable Lzf.stored s ∧ s.queueAt 2 = some x ∧ ¬Indexed x.backlog ∧
    @step Lzf.stored s .tick = .error .message := by
  obtain ⟨s, hs, hp⟩ := Sample.exists_run
    (Sample.login 0 ++ [Sample.queueCreate 0 [113] 5 0, Sample.named Cmd.queueDeclare 0 [113] [],
      Sample.named Cmd.queuePush 0 [113] (leBytes 4 500 ++ [1]), Sample.named Cmd.queuePurge 0 [113] []])
    (p := fun s => (s.queueAt 2).map (fun x => (x.backlog.expireMessages, x.backlog.queue.waiting)) =
      some ([(1, 0)], []) ∧ Sample.stops s .message = true) (by decide +kernel)
  obtain ⟨hq, htick⟩ := of_decide_eq_true hp
  obtain ⟨x, hx, hw⟩ := Option.map_eq_some_iff.mp hq
  obtain ⟨hexpire, hwaiting⟩ := Prod.mk.inj hw
  refine ⟨s, x, hs, hx, fun h => ?_, Sample.error_of_stops htick⟩
  have hmem := (h.exact 0).mp (by simp [hexpire])
  simp [hwaiting] at hmem

end Index

end EagleMQ
