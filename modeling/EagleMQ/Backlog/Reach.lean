import EagleMQ.Backlog.Steps
import EagleMQ.Links.Loading

/-! What pushes and steps do to sound messages, and their soundness in every
reachable state. A message that is new has an address that no message had before. -/

namespace EagleMQ

open Prog Backlog

variable {P : Prop} {x y : QueueT} {b b' : Backlog} {l : List (Ptr × Ptr)}

/-- The queue after a push: as it was, or with a new message at its head, for which
a full queue has given the message at its tail. -/
inductive Grown (x : QueueT) (fresh : Ptr) (l : List (Ptr × Ptr)) : List (Ptr × Ptr) → Prop
  | same : Grown x fresh l l
  | stored {n m : Ptr} (hm : fresh ≤ m) (hlen : l.length < x.maxMsg) : Grown x fresh l ((n, m) :: l)
  | forced {n m : Ptr} {l' : List (Ptr × Ptr)} {z : Ptr × Ptr} (hm : fresh ≤ m) (hl : l = l' ++ [z])
      (hforce : x.forcePush = true) (hlen : x.maxMsg ≤ l.length) : Grown x fresh l ((n, m) :: l')

theorem Stock.Runs.create {value tag expiration m : ℕ}
    (h : Stock.Runs (Stock.createMessage value tag expiration) m b b') :
    m = b.fresh ∧ b' = { b with
      messages := Function.update b.messages b.fresh (some ⟨value, tag, 0, expiration, none, none⟩)
      fresh := b.fresh + 1 } := by
  obtain ⟨o, o', hrun⟩ := h
  cases hrun
  exact ⟨rfl, rfl⟩

/-- What a push does to sound messages. -/
theorem Pushed.sound (h : Pushed x b b') (hs : Sound P b l) :
    ∃ l', Sound P b' l' ∧ Grown x b.fresh l l' ∧ b'.confirmMessages = b.confirmMessages ∧
    b.fresh ≤ b'.fresh := by
  have hobject : Fault.Any .object := trivial
  have hcreate : ∀ {value tag expiration m : ℕ} {b₁ : Backlog},
      Stock.Runs (Stock.createMessage value tag expiration) m b b₁ →
      Sound P b₁ l ∧ m = b.fresh ∧ b.fresh ≤ b₁.fresh ∧ b₁.confirmMessages = b.confirmMessages ∧
        (∃ msg, b₁.messages m = some msg) ∧ m ∉ b₁.places l := fun hc => by
    obtain ⟨rfl, rfl⟩ := hc.create
    refine ⟨⟨hs.toTracked.create _, hs.linked⟩, rfl, Nat.le_succ _, rfl,
      ⟨_, Function.update_self ..⟩, fun hm => ?_⟩
    exact Nat.lt_irrefl _ (hs.below _ (hs.alive _ hm))
  have hstore : ∀ {m : Ptr} {b₁ b₂ : Backlog} {l' : List (Ptr × Ptr)}, Sound P b₁ l' →
      (∃ msg, b₁.messages m = some msg) → m ∉ b₁.places l' → Stock.Runs (Stock.storeMessage m) () b₁ b₂ →
      ∃ n, Sound P b₂ ((n, m) :: l') ∧ b₂.confirmMessages = b₁.confirmMessages ∧ b₁.fresh ≤ b₂.fresh := by
    rintro m b₁ b₂ l' h₁ ⟨msg, hmsg⟩ hm hrun
    obtain ⟨o, o', -, hs₂, hstays⟩ := hrun.spec fun o => Stock.storeMessage_spec (E := Fault.Any) h₁ hmsg hm
    exact ⟨_, hs₂, hstays.held, hstays.fresh⟩
  cases h with
  | refused hc =>
    obtain ⟨h₁, -, hf, hh, -⟩ := hcreate hc
    exact ⟨l, h₁, .same, hh, hf⟩
  | @delivered value tag expiration m b₁ b₂ hc hr =>
    obtain ⟨h₁, -, hf, hh, ⟨msg, hmsg⟩, hm⟩ := hcreate hc
    obtain ⟨o, o', hb⟩ := hr.spec fun o => Stock.wp_releaseMessage (E := Fault.Any)
      (Q := fun _ t => t.backlog = { b₁ with messages := Function.update b₁.messages m none }) hobject hmsg
      fun _ _ => rfl
    dsimp only at hb
    subst hb
    exact ⟨l, ⟨h₁.release hm, h₁.linked⟩, .same, hh, hf⟩
  | stored hc hlen hst =>
    obtain ⟨h₁, rfl, hf, hh, hmsg, hm⟩ := hcreate hc
    obtain ⟨n, h₂, hh', hf'⟩ := hstore h₁ hmsg hm hst
    exact ⟨_, h₂, .stored (Nat.le_refl _) (by rwa [h₁.linked.len] at hlen), hh'.trans hh, Nat.le_trans hf hf'⟩
  | @forced value tag expiration m now b₁ b₂ b₃ hc hlen hforce hp hst =>
    obtain ⟨h₁, rfl, hf, hh, ⟨msg, hmsg⟩, hm⟩ := hcreate hc
    rw [h₁.linked.len] at hlen
    obtain rfl | ⟨l, ⟨n, w⟩, rfl⟩ := l.eq_nil_or_concat'
    · obtain ⟨o, o', hfalse⟩ := hp.spec fun o => wp_mono (Stock.popMessageQueueT_nil h₁) (fun _ _ h => h)
        (fun _ _ => (trivial : Fault.Any _))
      exact hfalse.elim
    · obtain ⟨o, o', h₂, hdrops, -⟩ :=
        hp.spec fun o => Stock.popMessageQueueT_drops (E := Fault.Any) hobject h₁
      have hne : b.fresh ≠ w := fun he => hm (mem_places.mpr (.inl (by simp [he])))
      have hm₂ : b.fresh ∉ b₂.places l := fun hmem => by
        refine hm (mem_places.mpr ?_)
        rcases mem_places.mp hmem with hw | hh
        · exact .inl (by rw [List.map_append]; exact List.mem_append_left _ hw)
        · exact .inr (hdrops.held ▸ hh)
      obtain ⟨n', h₃, hh', hf'⟩ := hstore h₂
        ⟨msg, by rw [hdrops.messages, Function.update_of_ne hne, hmsg]⟩ hm₂ hst
      exact ⟨_, h₃, .forced (Nat.le_refl _) rfl hforce hlen, hh'.trans (hdrops.held.trans hh),
        Nat.le_trans hf (hdrops.fresh ▸ hf')⟩

/-- The queue after some pushes, whose messages have addresses from `first` on. -/
inductive Growths (x : QueueT) (first : Ptr) (l : List (Ptr × Ptr)) : List (Ptr × Ptr) → Prop
  | refl : Growths x first l l
  | step {fresh : Ptr} {l' l'' : List (Ptr × Ptr)} (h : Growths x first l l') (hfirst : first ≤ fresh)
      (hbelow : ∀ z ∈ l', z.2 < fresh) (hg : Grown x fresh l' l'') : Growths x first l l''

theorem Backlog.Sound.waiting_below (h : Sound P b l) : ∀ z ∈ l, z.2 < b.fresh := fun z hz =>
  h.below z.2 (h.alive z.2 (mem_places.mpr (.inl (List.mem_map_of_mem hz))))

theorem Pushes.sound (h : Pushes x b b') (hs : Sound P b l) :
    ∃ l', Sound P b' l' ∧ Growths x b.fresh l l' ∧ b'.confirmMessages = b.confirmMessages ∧
    b.fresh ≤ b'.fresh := by
  induction h with
  | refl => exact ⟨l, hs, .refl, rfl, Nat.le_refl _⟩
  | push _ hp ih =>
    obtain ⟨l', hs', hg, hheld, hfresh⟩ := ih
    obtain ⟨l'', hs'', hg', hheld', hfresh'⟩ := hp.sound hs'
    exact ⟨l'', hs'', .step hg hfresh hs'.waiting_below hg', hheld'.trans hheld, Nat.le_trans hfresh hfresh'⟩

/-! ### Steps -/

/-- What a step makes of the queue: new messages come in front, some have gone, or a
tick has dropped the expired ones and put the returned ones at the end. -/
inductive Shift (s : EagleServer) (q : Ptr) (x y : QueueT) (l : List (Ptr × Ptr)) (op : Op) :
    List (Ptr × Ptr) → Prop
  | grown {l' : List (Ptr × Ptr)} (hset : y.settings = x.settings) (h : Growths x x.backlog.fresh l l') :
      Shift s q x y l op l'
  | gone {l' : List (Ptr × Ptr)} (hset : y.settings = x.settings) (h : l'.Sublist l) : Shift s q x y l op l'
  | renamed {c : Ptr} {req : Request} {name : Name} (hop : op = .request c req)
      (hname : RenamesQueue s c req q name)
      (h : y.bare = { x with name := name, maxMsg := spill name x.maxMsg }.bare) : Shift s q x y l op l
  | ticked {added : List (Ptr × Ptr)} (hop : op = .tick) (hset : y.settings = x.settings)
      (hadded : added.map Prod.snd = x.backlog.returned (s.env.mstime % 4294967296)) :
      Shift s q x y l op (l.filter (fun z => !x.backlog.expired (s.env.mstime % 4294967296) z.2) ++ added)

/-- The operations keep the messages sound, and leave no stale expiry entry as long
as no message that a purge releases expires. -/
theorem Change.sound_of {P' : Prop} {s : EagleServer} {op : Op} {q : Ptr} (h : Change s q x y op)
    (hs : Sound P x.backlog l) (hP : P' → P)
    (hpurge : ∀ c req, op = .request c req → req.cmd = Cmd.queuePurge → Addresses s c req 72 q → P' →
      ∀ z ∈ l, ∀ msg, x.backlog.messages z.2 = some msg → msg.expiration = 0) :
    ∃ l', Sound P' y.backlog l' ∧ Shift s q x y l op l' := by
  have hobject : Fault.Any .object := trivial
  have hweak : ∀ {b l}, Sound P b l → Sound P' b l := fun h =>
    ⟨{ h with live := fun hp => h.live (hP hp) }, h.linked⟩
  cases h with
  | same hy =>
    obtain ⟨hset, hb⟩ := settings_of_bare hy
    exact ⟨l, hb ▸ hweak hs, .grown hset .refl⟩
  | push _ hset hp =>
    obtain ⟨l', hs', hg, -⟩ := (Pushes.refl.push hp).sound hs
    exact ⟨l', hweak hs', .grown hset hg⟩
  | pop _ _ hset hp =>
    obtain rfl | ⟨l, ⟨n, m⟩, rfl⟩ := l.eq_nil_or_concat'
    · obtain ⟨o, o', hfalse⟩ := hp.spec fun o => wp_mono (Stock.popMessageQueueT_nil hs) (fun _ _ h => h)
        (fun _ _ => (trivial : Fault.Any _))
      exact hfalse.elim
    · rename_i c req hcmd haddr
      by_cases ht : req.u32 72 = 0
      · rw [ht] at hp
        obtain ⟨o, o', hs', -⟩ := hp.spec fun o => Stock.popMessageQueueT_drops (E := Fault.Any) hobject hs
        exact ⟨l, hweak hs', .gone hset (List.sublist_append_left ..)⟩
      · obtain ⟨o, o', -, hs', -⟩ := hp.spec fun o => Stock.popMessageQueueT_holds (E := Fault.Any) ht hs
        exact ⟨l, hweak hs', .gone hset (List.sublist_append_left ..)⟩
  | confirm _ _ hset hc =>
    obtain ⟨o, o', ⟨-, m, msg, -, -, -, hs', -⟩ | ⟨-, hsame, -⟩⟩ := hc.spec fun o =>
      Stock.confirmMessageQueueT_spec (E := Fault.Any) hobject hs
    · exact ⟨l, hweak hs', .gone hset (List.Sublist.refl l)⟩
    · obtain ⟨hb, -⟩ := Stock.mk.inj hsame
      exact ⟨l, hb ▸ hweak hs, .gone hset (List.Sublist.refl l)⟩
  | purge hcmd haddr hset hp =>
    have hplain : P' → P ∧ ∀ z ∈ l, ∀ msg, x.backlog.messages z.2 = some msg → msg.expiration = 0 := fun hp =>
      ⟨hP hp, hpurge _ _ rfl hcmd haddr hp⟩
    obtain ⟨o, o', hs', -⟩ := hp.spec fun o => Stock.purgeQueueT_spec (E := Fault.Any) hobject hs hplain
    exact ⟨[], hs', .gone hset (List.nil_sublist l)⟩
  | rename hname hy =>
    have hb := congrArg QueueT.backlog hy
    change y.backlog = x.backlog at hb
    exact ⟨l, hb ▸ hweak hs, .renamed rfl hname hy⟩
  | tick hset ht =>
    obtain ⟨o, o', htick⟩ := ht.spec fun o => Stock.tick_spec (E := Fault.Any) hobject (fun _ => trivial)
      (.inr trivial) hs
    obtain ⟨added, hs', hadded⟩ := htick.sound
    exact ⟨_, hweak hs', .ticked rfl hset hadded⟩

theorem Change.sound {s : EagleServer} {op : Op} {q : Ptr} (h : Change s q x y op)
    (hs : Sound P x.backlog l) :
    ∃ l', Sound False y.backlog l' ∧ Shift s q x y l op l' :=
  h.sound_of hs False.elim fun _ _ _ _ _ hp => hp.elim

/-! ### Reachable states -/

/-- The messages of every queue are sound. -/
def Stocked (s : EagleServer) : Prop := ∀ q x, s.queueAt q = some x → ∃ l, Sound False x.backlog l

/-- Every queue that is there was there or is new, and has been pushed to. -/
def Filled (s t : EagleServer) : Prop :=
  ∀ q y, t.queueAt q = some y → Pushes y .create y.backlog ∨
    ∃ x, s.queueAt q = some x ∧ y.settings = x.settings ∧ Pushes x x.backlog y.backlog

instance : IsPreorder EagleServer Filled where
  refl _ _ y hy := .inr ⟨y, hy, rfl, .refl⟩
  trans _ _ _ h h' q y hy := by
    rcases h' q y hy with hnew | ⟨x, hx, hset, hp⟩
    · exact .inl hnew
    · rcases h q x hx with hnew | ⟨w, hw, hset', hp'⟩
      · exact .inl ((hnew.congr hset).trans (hp.congr hset))
      · exact .inr ⟨w, hw, hset.trans hset', hp'.trans (hp.congr hset'.symm)⟩

theorem Flows.filled {s t : EagleServer} (h : Flows s t) : Filled s t := fun q y hy => .inr (h q y hy)

theorem loading_filled : Loading Filled := by
  have hidle : ∀ {α : Type} {m : ServerM α}, Keeps Idle Fault.Any m → Keeps Filled Fault.Any m := fun hm s =>
    wp_mono (hm s) (fun _ _ ht => ht.flows.filled) fun _ h => h
  have hsame : ∀ {s t : EagleServer}, t.queueAt = s.queueAt → t.nowTimems = s.nowTimems → Filled s t :=
    fun h ht => (idle_of_queueAt h ht).flows.filled
  exact
    { object := fun data => hidle (answers_idle (createObject_answers data))
      push := fun q data expiration s => wp_mono (pushMessageQueueT_flows q data expiration s)
        (fun _ _ ht => ht.filled) fun _ h => h
      bind := fun r q key => hidle (passive_idle.bindRouteT r q key)
      createQueue := fun name maxMsg maxMsgSize flags s q y hy => by
        by_cases hq : q = s.fresh
        · subst hq
          dsimp only at hy
          rw [Function.update_self] at hy
          obtain rfl := Option.some.inj hy
          exact .inl .refl
        · exact .inr ⟨y, by simpa [hq] using hy, rfl, .refl⟩
      createRoute := fun name flags s => hsame rfl rfl
      createChannel := fun name flags s => hsame rfl rfl
      deleteQueue := fun q => hidle (deleteQueueT_upheld upheld_idle)
      deleteRoute := fun r => hidle (deleteRouteT_upheld upheld_idle)
      enlistUser := fun s user => hsame rfl rfl
      enlistQueue := fun s q => hsame rfl rfl
      enlistRoute := fun s r => hsame rfl rfl
      enlistChannel := fun s ch => hsame rfl rfl }

section Reach

variable [Lzf] {s t : EagleServer} {op : Op}

theorem step_stocked (h : Related .none s) (hs : Stocked s) (ha : Enabled s op) (ht : step s op = .ok t) :
    Stocked t := fun q y hy => by
  rcases step_traffic h ha ht q y hy with ⟨x, hx, hc⟩ | ⟨-, hnew, -⟩
  · obtain ⟨l, hl⟩ := hs q x hx
    obtain ⟨l', hl', -⟩ := hc.sound hl
    exact ⟨l', hl'⟩
  · exact ⟨[], hnew ▸ sound_create⟩

/-- The queues of a server that has loaded a file have been pushed to and nothing else. -/
theorem storageLoad_filled {cfg : Config} {env : Env} {file : List Byte} {ok : Bool}
    (ht : storageLoad file (initServer cfg env) = .ok (ok, t)) {q : Ptr} (hy : t.queueAt q = some y) :
    Pushes y .create y.backlog :=
  (ok_of_wp (Q := fun _ t => Filled _ t) (storageLoad_upheld loading_filled file _) ht q y hy).resolve_right
    fun ⟨_, hx, _⟩ => nomatch hx

theorem Reachable.stocked (h : Reachable s) : Stocked s := by
  induction h with
  | start cfg env => exact fun q x hx => nomatch hx
  | step op hs ha ht ih => exact step_stocked hs.related ih ha ht
  | restart cfg env _ _ ht _ =>
    intro q y hy
    obtain ⟨l, hl, -⟩ := (storageLoad_filled ht hy).sound sound_create
    exact ⟨l, hl⟩

omit [Lzf] in
/-- Every queue that is there passes a check. -/
def EagleServer.everyQueue (s : EagleServer) (p : QueueT → Bool) : Bool :=
  (List.range s.fresh).all fun q => (s.queueAt q).all p

theorem Reachable.everyQueue (h : Reachable s) {p : QueueT → Bool} (hp : s.everyQueue p = true) {q : Ptr}
    (hx : s.queueAt q = some x) : p x = true := by
  have hq := List.all_eq_true.mp hp q
    (List.mem_range.mpr (h.related.below.queues _ (queue_alive.mpr ⟨x, hx⟩)))
  rwa [hx] at hq

end Reach

/-! ### Runs of the small server -/

namespace Sample

/-- The messages of the queue `q` that wait, and those that are held. -/
def places (s : EagleServer) : Option (List Ptr × List Ptr) :=
  (s.queueAt 2).map fun x => (x.backlog.queue.waiting, x.backlog.confirmMessages)

theorem queue_of_places {s : EagleServer} {waiting held : List Ptr} (h : places s = some (waiting, held)) :
    ∃ x, s.queueAt 2 = some x ∧ x.backlog.queue.waiting = waiting ∧ x.backlog.confirmMessages = held := by
  obtain ⟨x, hx, hplaces⟩ := Option.map_eq_some_iff.mp h
  exact ⟨x, hx, congrArg Prod.fst hplaces, congrArg Prod.snd hplaces⟩

/-- The first client has the queue `q` for itself. -/
def declared (maxMsg : ℕ) : List Op :=
  login 0 ++ [queueCreate 0 [113] maxMsg 0, named Cmd.queueDeclare 0 [113] []]

/-- The first client pushes a message that may wait for `expire`. -/
def push (expire : ℕ) : Op := named Cmd.queuePush 0 [113] (leBytes 4 expire ++ [1])

/-- The first client pops a message and has the time `timeout`. -/
def pop (timeout : ℕ) : Op := named Cmd.queuePop 0 [113] (leBytes 4 timeout)

def purge : Op := named Cmd.queuePurge 0 [113] []

/-- A tick at the time `now`. -/
def tickAt (now : ℕ) : List Op := [.environment { env with mstime := now }, .tick]

/-- After a purge three messages come, two are popped and two that expire come. By the tick
the first one comes back and one of the last two goes. -/
def traffic : List Op :=
  push 0 :: purge :: push 0 :: push 0 :: push 0 :: pop 100 :: pop 5000 :: push 500 :: push 5000 :: tickAt 2000

end Sample

end EagleMQ
