import EagleMQ.Storage.Building

/-! A restart. The server that loads the file shows what the one that has saved it had:
its users but the protected ones, its durable queues with their messages in order, its
durable routes with their bindings to those queues, and its durable channels. It has
nothing else, and saves again what it has loaded. -/

namespace EagleMQ

open Prog Backlog

/-! ### Images -/

/-- The records of a file, kind by kind. -/
structure Image where
  users : List EagleUser
  queues : List (QueueHeader × List (ℕ × List Byte))
  routes : List (Name × ℕ × List (Name × List Name))
  channels : List (Name × ℕ)

namespace Image

def queueRecord (r : QueueHeader × List (ℕ × List Byte)) : Record := .queue r.1 r.2

def routeRecord (r : Name × ℕ × List (Name × List Name)) : Record := .route r.1 r.2.1 r.2.2

def channelRecord (r : Name × ℕ) : Record := .channel r.1 r.2

def records (i : Image) : List Record :=
  i.users.map .user ++ (i.queues.map queueRecord ++
    (i.routes.map routeRecord ++ i.channels.map channelRecord))

def names (i : Image) : List Name := i.queues.map fun r => r.1.name

/-- The bindings to the queues of the image. -/
def bound (i : Image) : Image :=
  { i with routes := i.routes.map fun r => (r.1, r.2.1, bindable i.names r.2.2) }

/-- Every record is taken as it is: the queues have different names and no more messages
than they take, and no key or binding is there twice. -/
structure Loads (i : Image) : Prop where
  short : ∀ n ∈ i.names, n.length < 64
  names : i.names.Nodup
  messages : ∀ r ∈ i.queues, r.2.length ≤ r.1.maxMsg ∧ ∀ m ∈ r.2, m.2.length ≤ r.1.maxMsgSize
  keys : ∀ r ∈ i.routes, (r.2.2.map Prod.fst).Nodup ∧ ∀ k ∈ r.2.2, k.2.Nodup

end Image

/-- The server has the records of the image and no others. -/
structure Pictures (s : EagleServer) (i : Image) : Prop where
  users : s.users = i.users
  queues : List.Forall₂ (fun q r => ShowsAt s q (Image.queueRecord r)) s.queues i.queues
  routes : List.Forall₂ (fun r x => ShowsAt s r (Image.routeRecord x)) s.routes i.routes
  channels : List.Forall₂ (fun ch x => ShowsAt s ch (Image.channelRecord x)) s.channels i.channels

section Build

variable {E : Fault → Prop} {s t : EagleServer} {i : Image}

/-- What is built so far, in memory that is all accounted for. -/
structure Built (s : EagleServer) (i : Image) : Prop extends Pictures s i where
  allocates : Allocates s

theorem Built.queueNames (h : Built s i) (hshort : ∀ n ∈ i.names, n.length < 64) : QueueNames s i.names where
  named := by
    rw [Image.names, List.forall₂_map_right_iff]
    refine h.queues.imp fun q r hq => ?_
    cases hq with
    | queue hx hs => exact ⟨_, hx, hs.name⟩
  short := hshort

/-- A list of records has got more of them. -/
def Adds {β : Type} (R : Ptr → β → Prop) (l l' : List Ptr) (rs rs' : List β) : Prop :=
  ∃ ps xs, l' = l ++ ps ∧ rs' = rs ++ xs ∧ List.Forall₂ R ps xs

theorem adds_none {β : Type} {R : Ptr → β → Prop} {l l' : List Ptr} {rs : List β} (h : l' = l) :
    Adds R l l' rs rs :=
  ⟨[], [], h.trans (List.append_nil l).symm, (List.append_nil rs).symm, .nil⟩

theorem adds_one {β : Type} {R : Ptr → β → Prop} {l l' : List Ptr} {rs : List β} {p : Ptr} {x : β}
    (h : l' = l ++ [p]) (hp : R p x) : Adds R l l' rs (rs ++ [x]) :=
  ⟨[p], [x], h, rfl, .cons hp .nil⟩

theorem Built.grow {i' : Image} (h : Built s i) (hst : Retains s t) (ha : Allocates t)
    (hu : t.users = i'.users)
    (hq : Adds (fun q r => ShowsAt t q (Image.queueRecord r)) s.queues t.queues i.queues i'.queues)
    (hr : Adds (fun r x => ShowsAt t r (Image.routeRecord x)) s.routes t.routes i.routes i'.routes)
    (hc : Adds (fun ch x => ShowsAt t ch (Image.channelRecord x)) s.channels t.channels i.channels
      i'.channels) : Built t i' := by
  obtain ⟨qs, qrs, hqs, hqrs, hqa⟩ := hq
  obtain ⟨rs, rrs, hrs, hrrs, hra⟩ := hr
  obtain ⟨cs, crs, hcs, hcrs, hca⟩ := hc
  refine { users := hu, queues := ?_, routes := ?_, channels := ?_, allocates := ha }
  · rw [hqs, hqrs]
    exact List.rel_append (h.queues.imp fun _ _ hp => hp.mono hst) hqa
  · rw [hrs, hrrs]
    exact List.rel_append (h.routes.imp fun _ _ hp => hp.mono hst) hra
  · rw [hcs, hcrs]
    exact List.rel_append (h.channels.imp fun _ _ hp => hp.mono hst) hca

theorem Allocates.of (h : Allocates s) (hobjects : t.objects = s.objects) (hqueues : t.queueAt = s.queueAt)
    (hroutes : t.routeAt = s.routeAt) (hchannels : t.channelAt = s.channelAt)
    (hfresh : s.fresh = t.fresh) : Allocates t :=
  ⟨hobjects ▸ hfresh ▸ h.objects, hqueues ▸ hfresh ▸ h.queueAt, hroutes ▸ hfresh ▸ h.routeAt,
    hchannels ▸ hfresh ▸ h.channelAt⟩

theorem Retains.of (hobjects : t.objects = s.objects) (hqueues : t.queueAt = s.queueAt)
    (hroutes : t.routeAt = s.routeAt)
    (hchannels : t.channelAt = s.channelAt) : Retains s t :=
  ⟨fun _ _ h => hobjects ▸ h, fun _ x h => ⟨x.routes, hqueues ▸ h⟩, fun _ _ h => hroutes ▸ h,
    fun _ _ h => hchannels ▸ h⟩

theorem Built.user (h : Built s i) (u : EagleUser) :
    wp (Record.build (.user u)) (fun _ t => Built t { i with users := i.users ++ [u] }) E s := by
  rw [Record.build, wp_modify]
  exact h.grow (.of rfl rfl rfl rfl) (h.allocates.of rfl rfl rfl rfl rfl)
    (congrArg (· ++ [u]) h.users) (adds_none rfl)
    (adds_none rfl) (adds_none rfl)

theorem Built.queue (h : Built s i) (r : QueueHeader × List (ℕ × List Byte)) (hroom : r.2.length ≤ r.1.maxMsg)
    (hsize : ∀ m ∈ r.2, m.2.length ≤ r.1.maxMsgSize) :
    wp (Record.build (Image.queueRecord r))
      (fun _ t => Built t { i with queues := i.queues ++ [r] }) E s := by
  rw [Image.queueRecord, Record.build, createQueueT, wp_bind, wp_bind, wp_get, wp_bind, wp_modify,
    wp_pure, wp_bind]
  set x : QueueT := ⟨r.1.name, r.1.maxMsg, r.1.maxMsgSize, r.1.flags, bitCheck r.1.flags 0,
    bitCheck r.1.flags 1,
    bitCheck r.1.flags 2, .create, [], [], [], []⟩
  set u : EagleServer := { s with queueAt := Function.update s.queueAt s.fresh (some x), fresh := s.fresh + 1 }
  have hnone : s.queueAt s.fresh = none := h.allocates.queueAt.eq_none (Nat.le_refl _)
  have hu : u.queueAt s.fresh = some x := Function.update_self ..
  have hshows : ShowsQueue u x r.1 [] :=
    ⟨rfl, rfl, rfl, rfl, ⟨rfl, rfl⟩, fun _ => rfl, [], sound_create, .nil⟩
  have ha : Allocates u := ⟨fun p hp => Nat.lt_succ_of_lt (h.allocates.objects p hp),
    h.allocates.queueAt.update (Nat.le_succ _) (Nat.lt_succ_self _) _,
    fun p hp => Nat.lt_succ_of_lt (h.allocates.routeAt p hp),
    fun p hp => Nat.lt_succ_of_lt (h.allocates.channelAt p hp)⟩
  refine wp_mono (loadMessages_spec hu hshows ha hroom hsize) (fun _ t ht => ?_) fun _ h => h
  obtain ⟨ht, y, hy, hshown⟩ := ht
  rw [wp_modify]
  have hother : ∀ q z, s.queueAt q = some z → t.queueAt q = some z := fun q z hz => by
    have hne : q ≠ s.fresh := fun heq => by
      rw [heq, hnone] at hz
      cases hz
    rw [ht.queueAt q hne]
    exact (Function.update_of_ne hne ..).trans hz
  obtain ⟨hus, hqs, hrs, hcs, hra, hca⟩ : t.users = s.users ∧ t.queues = s.queues ∧ t.routes = s.routes ∧
      t.channels = s.channels ∧ t.routeAt = s.routeAt ∧ t.channelAt = s.channelAt := by
    rw [ht.rest]
    exact ⟨rfl, rfl, rfl, rfl, rfl, rfl⟩
  refine h.grow ⟨ht.objects, fun q z hz => ⟨z.routes, hother q z hz⟩, fun _ _ hz => hra ▸ hz,
    fun _ _ hz => hca ▸ hz⟩
    ((ht.allocates ha).of rfl rfl rfl rfl rfl) (hus.trans h.users)
      (adds_one (congrArg (· ++ [s.fresh]) hqs) ?_)
    (adds_none hrs) (adds_none hcs)
  exact (ShowsAt.queue hy hshown).mono (.of rfl rfl rfl rfl)

theorem Built.route (h : Built s i) (hshort : ∀ n ∈ i.names, n.length < 64)
    (r : Name × ℕ × List (Name × List Name))
    (hkeys : (r.2.2.map Prod.fst).Nodup) (hnames : ∀ k ∈ r.2.2, k.2.Nodup) :
    wp (Record.build (Image.routeRecord r)) (fun _ t =>
      Built t { i with routes := i.routes ++ [(r.1, r.2.1, bindable i.names r.2.2)] }) E s := by
  have hnone : s.routeAt s.fresh = none := h.allocates.routeAt.eq_none (Nat.le_refl _)
  rw [Image.routeRecord, Record.build, createRouteT, wp_bind, wp_bind, wp_get, wp_bind, wp_modify,
    wp_pure, wp_bind]
  set u : EagleServer := { s with
    routeAt := Function.update s.routeAt s.fresh (some ⟨r.1, r.2.1, bitCheck r.2.1 0, bitCheck r.2.1 1, []⟩)
    fresh := s.fresh + 1 }
  have hother : ∀ p z, s.routeAt p = some z → u.routeAt p = some z := fun p z hz => by
    have hne : p ≠ s.fresh := fun heq => by
      rw [heq, hnone] at hz
      cases hz
    exact (Function.update_of_ne hne ..).trans hz
  have hstart : Binds s s.fresh r.1 r.2.1 [] u := by
    refine ⟨⟨fun _ _ h => h, fun _ z hz => ⟨z.routes, hz⟩, hother, fun _ _ h => h⟩, rfl, ?_, _,
      Function.update_self .., rfl, rfl, rfl⟩
    exact ⟨fun p hp => Nat.lt_succ_of_lt (h.allocates.objects p hp),
      fun p hp => Nat.lt_succ_of_lt (h.allocates.queueAt p hp),
      h.allocates.routeAt.update (Nat.le_succ _) (Nat.lt_succ_self _) _,
      fun p hp => Nat.lt_succ_of_lt (h.allocates.channelAt p hp)⟩
  have hbegin : List.Forall₂ (ShowsKey s) [] (bindable i.names []) := .nil
  refine wp_mono (bindKeys_binds (h.queueNames hshort) hnone hstart hbegin hkeys hnames)
    (fun _ t ⟨keys, ht, hshown⟩ => ?_) fun _ h => h
  rw [wp_modify]
  obtain ⟨hus, hqs, hrs, hcs⟩ : t.users = s.users ∧ t.queues = s.queues ∧ t.routes = s.routes ∧
      t.channels = s.channels := by
    rw [ht.rest]
    exact ⟨rfl, rfl, rfl, rfl⟩
  obtain ⟨x, hx, hname, hflags, rfl⟩ := ht.route
  have hst : Retains s { t with routes := t.routes ++ [s.fresh] } :=
    IsTrans.trans s t _ ht.retains (.of rfl rfl rfl rfl)
  refine h.grow hst (ht.allocates.of rfl rfl rfl rfl rfl) (hus.trans h.users) (adds_none hqs)
    (adds_one (congrArg (· ++ [s.fresh]) hrs) ?_) (adds_none hcs)
  exact .route hx hname hflags (hshown.imp fun k k' ⟨hk, hq⟩ => ⟨hk, hq.imp fun q n hn => hn.mono hst⟩)

theorem Built.channel (h : Built s i) (r : Name × ℕ) :
    wp (Record.build (Image.channelRecord r))
      (fun _ t => Built t { i with channels := i.channels ++ [r] }) E s := by
  have hnone : s.channelAt s.fresh = none := h.allocates.channelAt.eq_none (Nat.le_refl _)
  rw [Image.channelRecord, Record.build, createChannelT, wp_bind, wp_bind, wp_get, wp_bind,
    wp_modify, wp_pure, wp_modify]
  refine h.grow ⟨fun _ _ h => h, fun _ z hz => ⟨z.routes, hz⟩, fun _ _ h => h, fun ch z hz => ?_⟩ ?_
    h.users (adds_none rfl)
    (adds_none rfl) (adds_one rfl (.channel (Function.update_self ..) rfl rfl))
  · have hne : ch ≠ s.fresh := fun heq => by
      rw [heq, hnone] at hz
      cases hz
    exact (Function.update_of_ne hne ..).trans hz
  · exact ⟨fun p hp => Nat.lt_succ_of_lt (h.allocates.objects p hp),
      fun p hp => Nat.lt_succ_of_lt (h.allocates.queueAt p hp),
      fun p hp => Nat.lt_succ_of_lt (h.allocates.routeAt p hp),
      h.allocates.channelAt.update (Nat.le_succ _) (Nat.lt_succ_self _) _⟩

/-- The records of one kind, one after the other. -/
theorem builds {β : Type} {mk : β → Record} {all : List β} {g : List β → Image} (h : Built s (g []))
    (hstep : ∀ done x s, x ∈ all → Built s (g done) →
      wp (Record.build (mk x)) (fun _ t => Built t (g (done ++ [x]))) E s) :
    wp ((all.map mk).forM Record.build) (fun _ t => Built t (g all)) E s := by
  have hall : ∀ (rest done : List β) (s : EagleServer), (∀ x ∈ rest, x ∈ all) → Built s (g done) →
      wp ((rest.map mk).forM Record.build) (fun _ t => Built t (g (done ++ rest))) E s := by
    intro rest
    induction rest with
    | nil =>
      intro done s _ h
      rw [List.append_nil]
      exact h
    | cons x rest ih =>
      intro done s hmem h
      show wp (Record.build (mk x) >>= fun _ => (rest.map mk).forM Record.build) _ _ _
      rw [wp_bind]
      refine wp_mono (hstep done x s (hmem x List.mem_cons_self) h) (fun _ t ht => ?_) fun _ h => h
      have hrest := ih (done ++ [x]) t (fun y hy => hmem y (List.mem_cons_of_mem _ hy)) ht
      rwa [List.append_assoc] at hrest
  exact hall all [] s (fun _ hx => hx) h

theorem wp_forM_append {Q : PUnit → EagleServer → Prop} (l l' : List Record) :
    wp ((l ++ l').forM Record.build) Q E s ↔
      wp (l.forM Record.build) (fun _ t => wp (l'.forM Record.build) Q E t) E s := by
  have happend : (l ++ l').forM Record.build =
      (l.forM Record.build >>= fun _ => l'.forM Record.build) := List.forM_append ..
  rw [happend, wp_bind]

/-- The records of an image are built as they are, but for bindings to queues that it does
not have. -/
theorem build_records (hi : i.Loads) {users : List EagleUser} (h : Built s ⟨users, [], [], []⟩) :
    wp (i.records.forM Record.build) (fun _ t => Built t { i.bound with users := users ++ i.users }) E s := by
  rw [Image.records, wp_forM_append]
  refine wp_mono (builds (g := fun us => ⟨users ++ us, [], [], []⟩) (by rwa [List.append_nil])
    fun done u s _ hs => ?_)
    (fun _ s hs => ?_) fun _ h => h
  · have hu := hs.user (E := E) u
    rwa [List.append_assoc] at hu
  rw [wp_forM_append]
  refine wp_mono (builds (g := fun qs => ⟨users ++ i.users, qs, [], []⟩) hs fun done r s hr hs =>
    hs.queue r (hi.messages r hr).1 (hi.messages r hr).2) (fun _ s hs => ?_) fun _ h => h
  rw [wp_forM_append]
  refine wp_mono (builds (g := fun rs => ⟨users ++ i.users, i.queues,
    rs.map fun r => (r.1, r.2.1, bindable i.names r.2.2), []⟩) hs fun done r s hr hs => ?_)
    (fun _ s hs => ?_) fun _ h => h
  · have hroute := hs.route (E := E) hi.short r (hi.keys r hr).1 (hi.keys r hr).2
    rw [List.map_append]
    exact hroute
  exact builds (g := fun cs => ⟨users ++ i.users, i.queues, i.bound.routes, cs⟩) hs
    fun done r s _ hs => hs.channel r

end Build

/-! ### What is saved of an image -/

section Saved

variable {α β : Type} {s t : EagleServer} {i : Image} {f : α → StorageM (List Record)}
    {mk : β → Record} {l : List α}

theorem forall₂_imp_right {γ δ : Type} {R S : γ → δ → Prop} {l : List γ} {l' : List δ}
    (h : List.Forall₂ R l l')
    (himp : ∀ a, ∀ b ∈ l', R a b → S a b) : List.Forall₂ S l l' := by
  induction h with
  | nil => exact .nil
  | cons hab _ ih =>
    exact .cons (himp _ _ List.mem_cons_self hab) (ih fun a b hb => himp a b (List.mem_cons_of_mem _ hb))

/-- Every record is saved. -/
theorem savedAll_map {bs : List β} (h : List.Forall₂ (fun a b => (f a).run = .ok (some [mk b])) l bs) :
    (savedAll f l).run = .ok (some (bs.map mk)) := by
  refine savedAll_iff.mpr ⟨bs.map fun b => [mk b], ?_, ?_⟩
  · rw [List.forall₂_map_right_iff]
    exact h
  · rw [← List.flatMap_def, List.map_eq_flatMap]

theorem savedAll_forall₂ {P : α → β → Prop} {rs : List Record} (h : (savedAll f l).run = .ok (some rs))
    (hf : ∀ a ∈ l, ∀ part, (f a).run = .ok (some part) → ∃ b, part = [mk b] ∧ P a b) :
    ∃ bs : List β, rs = bs.map mk ∧ List.Forall₂ P l bs := by
  obtain ⟨parts, hparts, rfl⟩ := savedAll_iff.mp h
  clear h
  induction hparts with
  | nil => exact ⟨[], rfl, .nil⟩
  | @cons a part l parts ha _ ih =>
    obtain ⟨bs, hbs, hP⟩ := ih fun a ha => hf a (List.mem_cons_of_mem _ ha)
    obtain ⟨b, rfl, hb⟩ := hf a List.mem_cons_self part ha
    exact ⟨b :: bs, by rw [List.flatten_cons, hbs]; rfl, .cons hb hP⟩

/-- The records are those that a server saves: none of a protected user, only durable ones,
and every name ends in its field. -/
structure Image.Savable (i : Image) : Prop where
  users : ∀ u ∈ i.users, u.name.length < 32 ∧ u.password.length < 32 ∧ u.notChange = false
  queues : ∀ r ∈ i.queues, r.1.name.length < 64 ∧ bitCheck r.1.flags 3 = true ∧ r.1.size = r.2.length
  routes : ∀ r ∈ i.routes, r.1.length < 64 ∧ bitCheck r.2.1 2 = true ∧
    ∀ k ∈ r.2.2, k.1.length < 32 ∧ ∀ n ∈ k.2, n.length < 64
  channels : ∀ r ∈ i.channels, r.1.length < 64 ∧ bitCheck r.2 2 = true

theorem kept_some {n : ℕ} {name : Name} (h : name.length < n) : (kept n name).run = .ok (some name) := by
  rw [kept, if_pos h]
  rfl

theorem cString_short {n : ℕ} {name : Name} (h : name.length < n) (after : List Byte) :
    cString n name after = name := if_pos h

theorem savedUser_run {u : EagleUser} (hname : u.name.length < 32) (hpassword : u.password.length < 32) :
    (savedUser u).run = .ok (some (.user u)) := by
  have hcname : (OptionT.lift u.cName : StorageM Name).run = .ok (some u.name) := by
    rw [EagleUser.cName, if_pos hname]
    rfl
  have hcpassword : (OptionT.lift u.cPassword : StorageM Name).run = .ok (some u.password) := by
    rw [EagleUser.cPassword, if_pos hpassword]
    rfl
  rw [savedUser, run_bind_some hcname, run_bind_some (kept_some hname), run_bind_some hcpassword,
    run_bind_some (kept_some hpassword)]
  rfl

theorem ShowsQueue.saved {x : QueueT} {h : QueueHeader} {messages : List (ℕ × List Byte)}
    (hx : ShowsQueue s x h messages)
    (hname : h.name.length < 64) (hsize : h.size = messages.length) :
    (savedQueue s x).run = .ok (some (.queue h messages)) := by
  obtain ⟨l, hs, hl⟩ := hx.stock
  have hcname : x.cName = h.name := by
    rw [← hx.name] at hname ⊢
    exact cString_short hname _
  have htail : x.backlog.queue.len = 0 → x.backlog.queue.tail = none := fun hlen =>
    hx.tail (List.length_eq_zero_iff.mp (hx.size.symm.trans hlen))
  have hwalk : (OptionT.lift (iterateTail x.backlog.queue (x.backlog.queue.fresh + 1) x.backlog.queue.tail) :
      StorageM (List Ptr)).run = .ok (some (l.map Prod.snd).reverse) := by
    rw [iterateTail_linked hs.linked htail]
    rfl
  have hmessages : ((l.map Prod.snd).reverse.mapM (savedMessage s x.backlog)).run = .ok (some messages) := by
    refine mapM_run_iff.mpr (hl.imp fun p r ⟨msg, object, hmsg, ho, hr⟩ => ?_)
    have hfind : (OptionT.lift (findMessage s x.backlog p) : StorageM _).run = .ok (some (msg, object)) := by
      rw [findMessage, hmsg]
      simp only [Objects.find, ho]
      rfl
    rw [savedMessage, run_bind_some hfind, ← hr]
    rfl
  rw [savedQueue, hcname, run_bind_some (kept_some hname)]
  dsimp only
  rw [run_bind_some hwalk, run_bind_some hmessages, hx.size, ← hsize, hx.maxMsg, hx.maxMsgSize, hx.flags]
  rfl

theorem findRecord_some {γ : Type} {h : Heap γ} {p : Ptr} {x : γ} (hx : h p = some x) :
    (findRecord h p).run = .ok (some x) := by
  rw [findRecord, hx]
  rfl

theorem saved_route {x : RouteT} {name : Name} {flags : ℕ} {keys : List (Name × List Name)}
    (hname : x.name = name)
    (hflags : x.flags = flags) (hkeys : List.Forall₂ (ShowsKey s) x.keys keys) (hshort : name.length < 64)
    (hks : ∀ k ∈ keys, k.1.length < 32 ∧ ∀ n ∈ k.2, n.length < 64) :
    (savedRoute s x).run = .ok (some (.route name flags keys)) := by
  subst hname hflags
  have hcname : x.cName = x.name := cString_short hshort _
  have hsaved : (x.keys.mapM (savedRouteKey s)).run = .ok (some keys) := by
    refine mapM_run_iff.mpr (forall₂_imp_right hkeys fun k r hr ⟨hk, hq⟩ => ?_)
    have hnames : (k.2.mapM fun q => do kept 64 (← findRecord s.queueAt q).cName : StorageM _).run =
        .ok (some r.2) := by
      refine mapM_run_iff.mpr (forall₂_imp_right hq fun q n hn ⟨y, hy, hyn⟩ => ?_)
      have hlen := (hks r hr).2 n hn
      have hycname : y.cName = n := by
        rw [← hyn] at hlen ⊢
        exact cString_short hlen _
      rw [run_bind_some (findRecord_some hy), hycname]
      exact kept_some hlen
    rw [savedRouteKey, hk, run_bind_some (kept_some (hks r hr).1), run_bind_some hnames]
    rfl
  rw [savedRoute, hcname, run_bind_some (kept_some hshort), run_bind_some hsaved]
  rfl

theorem savedChannel_run {x : ChannelT} {name : Name} (hname : x.name = name) (hlen : name.length < 64) :
    (savedChannel x).run = .ok (some (.channel name x.flags)) := by
  subst hname
  have hcname : x.cName = x.name := cString_short hlen _
  rw [savedChannel, hcname, run_bind_some (kept_some hlen)]
  rfl

/-- A server that shows an image saves it. -/
theorem contents_of_pictures {admin : EagleUser}
    (h : Pictures s { i with users := admin :: i.users }) (hadmin : admin.notChange = true)
    (hi : i.Savable) : (contents s).run = .ok (some i.records) := by
  have husers : (savedAll (fun u => do pure [← savedUser u]) (s.users.filter fun u => !u.notChange)).run =
      .ok (some (i.users.map .user)) := by
    have hfilter : s.users.filter (fun u => !u.notChange) = i.users := by
      rw [h.users, List.filter_cons_of_neg (by simp [hadmin]), List.filter_eq_self]
      exact fun u hu => by simp [(hi.users u hu).2.2]
    rw [hfilter]
    refine savedAll_map (List.forall₂_same.mpr fun u hu => ?_)
    rw [run_bind_some (savedUser_run (hi.users u hu).1 (hi.users u hu).2.1)]
    rfl
  have hqueues : (savedDurable s.queueAt QueueT.durable (savedQueue s) s.queues).run =
      .ok (some (i.queues.map Image.queueRecord)) := by
    refine savedAll_map (forall₂_imp_right h.queues fun q r hr hq => ?_)
    obtain ⟨hname, hdurable, hsize⟩ := hi.queues r hr
    cases hq with
    | queue hx hs =>
      rw [run_bind_some (findRecord_some hx), QueueT.durable, hs.flags, if_pos hdurable,
        run_bind_some (hs.saved hname hsize)]
      rfl
  have hroutes : (savedDurable s.routeAt RouteT.durable (savedRoute s) s.routes).run =
      .ok (some (i.routes.map Image.routeRecord)) := by
    refine savedAll_map (forall₂_imp_right h.routes fun p r hr hp => ?_)
    obtain ⟨hname, hdurable, hkeys⟩ := hi.routes r hr
    cases hp with
    | route hx hxname hxflags hxkeys =>
      rw [run_bind_some (findRecord_some hx), RouteT.durable, hxflags, if_pos hdurable,
        run_bind_some (saved_route hxname hxflags hxkeys hname hkeys)]
      rfl
  have hchannels : (savedDurable s.channelAt ChannelT.durable savedChannel s.channels).run =
      .ok (some (i.channels.map Image.channelRecord)) := by
    refine savedAll_map (forall₂_imp_right h.channels fun p r hr hp => ?_)
    obtain ⟨hname, hdurable⟩ := hi.channels r hr
    cases hp with
    | channel hx hxname hxflags =>
      rw [run_bind_some (findRecord_some hx), ChannelT.durable, hxflags, if_pos hdurable,
        run_bind_some (savedChannel_run hxname hname), hxflags]
      rfl
  rw [contents, run_bind_some husers, run_bind_some hqueues, run_bind_some hroutes, run_bind_some hchannels]
  rfl

/-- The record of a user, whose name may go on with the password. -/
structure UserOf (u v : EagleUser) : Prop where
  name : u.cName = .ok v.name
  password : u.cPassword = .ok v.password
  short : v.name.length < 32 ∧ v.password.length < 32
  perm : v.perm = u.perm

theorem savedUser_eq {u : EagleUser} {r : Record} (h : (savedUser u).run = .ok (some r)) :
    ∃ v : EagleUser, r = .user v ∧ UserOf u v := by
  obtain ⟨n, hn, h₁⟩ := saved_bind h
  obtain ⟨name, hname, h₂⟩ := saved_bind h₁
  obtain ⟨p, hp, h₃⟩ := saved_bind h₂
  obtain ⟨password, hpassword, h₄⟩ := saved_bind h₃
  obtain ⟨rfl, hnlen⟩ := kept_eq hname
  obtain ⟨rfl, hplen⟩ := kept_eq hpassword
  exact ⟨_, saved_pure h₄, saved_lift hn, saved_lift hp, ⟨hnlen, hplen⟩, rfl⟩

/-- The record of a queue: its fields and the messages that wait, in order. -/
structure QueueOf (s : EagleServer) (x : QueueT) (r : QueueHeader × List (ℕ × List Byte)) : Prop where
  name : r.1.name = x.cName
  short : r.1.name.length < 64
  settings : r.1.maxMsg = x.maxMsg ∧ r.1.maxMsgSize = x.maxMsgSize ∧ r.1.flags = x.flags
  messages : List.Forall₂ (Contains s x.backlog) x.backlog.queue.waiting r.2
  size : r.1.size = r.2.length

theorem savedMessage_eq {b : Backlog} {m : Ptr} {r : ℕ × List Byte}
    (h : (savedMessage s b m).run = .ok (some r)) : Contains s b m r := by
  obtain ⟨⟨msg, object⟩, hfind, h⟩ := saved_bind h
  have hfind := saved_lift hfind
  have hr := saved_pure h
  unfold findMessage at hfind
  cases hmsg : b.messages m with
  | none =>
    rw [hmsg] at hfind
    cases hfind
  | some msg' =>
    rw [hmsg] at hfind
    cases ho : s.objects msg'.value with
    | none =>
      simp only [Objects.find, ho] at hfind
      cases hfind
    | some object' =>
      simp only [Objects.find, ho] at hfind
      cases hfind
      exact ⟨msg, object, hmsg, ho, hr.symm⟩

theorem savedQueue_eq {x : QueueT} {l : List (Ptr × Ptr)} {r : Record} (hl : x.backlog.queue.Linked l)
    (h : (savedQueue s x).run = .ok (some r)) :
    ∃ q : QueueHeader × List (ℕ × List Byte), r = Image.queueRecord q ∧ QueueOf s x q := by
  obtain ⟨name, hname, h⟩ := saved_bind h
  obtain ⟨ps, hps, h⟩ := saved_bind h
  obtain ⟨messages, hmessages, h⟩ := saved_bind h
  obtain ⟨rfl, hlen⟩ := kept_eq hname
  have hwaiting : ps = x.backlog.queue.waiting := by
    rw [Queue.waiting_spec hl]
    exact iterateTail_ok hl (saved_lift hps)
  have hcontains := mapM_run_iff.mp hmessages
  have hcount := hcontains.length_eq
  rw [hwaiting, Queue.waiting_spec hl, List.length_reverse, List.length_map] at hcount
  exact ⟨(⟨x.cName, x.maxMsg, x.maxMsgSize, x.flags, x.size⟩, messages), saved_pure h, rfl, hlen,
    ⟨rfl, rfl, rfl⟩,
    hwaiting ▸ hcontains.imp fun _ _ => savedMessage_eq, hl.len.trans hcount⟩

/-- The keys of a route with the names of its queues. -/
def KeysOf (s : EagleServer) (keys : Keylist Name Ptr) (r : List (Name × List Name)) : Prop :=
  List.Forall₂ (fun k k' => k'.1 = k.1 ∧ k'.1.length < 32 ∧
    List.Forall₂ (fun q n => n.length < 64 ∧ s.queueName q = some n) k.2 k'.2) keys r

/-- The record of a route. -/
structure RouteOf (s : EagleServer) (x : RouteT) (r : Name × ℕ × List (Name × List Name)) : Prop where
  name : r.1 = x.cName
  short : r.1.length < 64
  flags : r.2.1 = x.flags
  keys : KeysOf s x.keys r.2.2

theorem savedRoute_eq {x : RouteT} {r : Record} (h : (savedRoute s x).run = .ok (some r)) :
    ∃ k : Name × ℕ × List (Name × List Name), r = Image.routeRecord k ∧ RouteOf s x k := by
  obtain ⟨name, hname, h⟩ := saved_bind h
  obtain ⟨rfl, hlen⟩ := kept_eq hname
  obtain ⟨keys, hkeys, h⟩ := saved_bind h
  refine ⟨(x.cName, x.flags, keys), saved_pure h, rfl, hlen, rfl,
    (mapM_run_iff.mp hkeys).imp fun k k' hk => ?_⟩
  obtain ⟨key, hkey, hk⟩ := saved_bind hk
  obtain ⟨rfl, hklen⟩ := kept_eq hkey
  obtain ⟨names, hnames, hk⟩ := saved_bind hk
  obtain rfl := saved_pure hk
  refine ⟨rfl, hklen, (mapM_run_iff.mp hnames).imp fun q n hn => ?_⟩
  obtain ⟨y, hy, hn⟩ := saved_bind hn
  obtain ⟨rfl, hnlen⟩ := kept_eq hn
  exact ⟨hnlen, by rw [EagleServer.queueName, saved_record hy]; rfl⟩

/-- The record of a channel. -/
structure ChannelOf (x : ChannelT) (r : Name × ℕ) : Prop where
  name : r.1 = x.cName
  short : r.1.length < 64
  flags : r.2 = x.flags

theorem savedChannel_eq {x : ChannelT} {r : Record} (h : (savedChannel x).run = .ok (some r)) :
    ∃ k : Name × ℕ, r = Image.channelRecord k ∧ ChannelOf x k := by
  obtain ⟨name, hname, h⟩ := saved_bind h
  obtain ⟨rfl, hlen⟩ := kept_eq hname
  exact ⟨(x.cName, x.flags), saved_pure h, rfl, hlen, rfl⟩

/-- What is saved of a list are its durable records, in order. -/
theorem savedDurable_forall₂ {γ : Type} {heap : Heap γ} {durable : γ → Bool}
    {saved : γ → StorageM Record} {P : γ → β → Prop} :
    ∀ {ps : List Ptr} {rs : List Record}, (savedDurable heap durable saved ps).run = .ok (some rs) →
      (∀ p ∈ ps, ∀ x r, heap p = some x → durable x = true → (saved x).run = .ok (some r) →
        ∃ b, r = mk b ∧ P x b) →
      ∃ bs : List β, rs = bs.map mk ∧
      List.Forall₂ (fun p b => ∃ x, heap p = some x ∧ durable x = true ∧ P x b)
        (ps.filter fun p => (heap p).any durable) bs := by
  intro ps rs h hf
  obtain ⟨parts, hparts, rfl⟩ := savedAll_iff.mp h
  clear h
  induction hparts with
  | nil => exact ⟨[], rfl, .nil⟩
  | @cons p part ps parts hp _ ih =>
    obtain ⟨bs, hbs, hP⟩ := ih fun p hp => hf p (List.mem_cons_of_mem _ hp)
    obtain ⟨x, hx, hpart⟩ := saved_bind hp
    have hxp := saved_record hx
    rw [List.flatten_cons, hbs]
    split_ifs at hpart with hd
    · obtain ⟨r, hr, hpart⟩ := saved_bind hpart
      obtain rfl := saved_pure hpart
      obtain ⟨b, rfl, hb⟩ := hf p List.mem_cons_self x r hxp hd hr
      rw [List.filter_cons_of_pos (by rw [hxp]; exact hd)]
      exact ⟨b :: bs, rfl, .cons ⟨x, hxp, hd, hb⟩ hP⟩
    · obtain rfl := saved_pure hpart
      rw [List.filter_cons_of_neg (by rw [hxp]; exact hd)]
      exact ⟨bs, rfl, hP⟩

/-- The durable records of a list. -/
def durables {γ : Type} (heap : Heap γ) (durable : γ → Bool) (l : List Ptr) : List Ptr :=
  l.filter fun p => (heap p).any durable

/-- The image that a server saves: its users but the protected ones, and what is durable. -/
structure ImageOf (s : EagleServer) (i : Image) : Prop where
  users : List.Forall₂ UserOf (s.users.filter fun u => !u.notChange) i.users
  queues : List.Forall₂ (fun q r => ∃ x, s.queueAt q = some x ∧ x.durable = true ∧ QueueOf s x r)
    (durables s.queueAt QueueT.durable s.queues) i.queues
  routes : List.Forall₂ (fun r k => ∃ x, s.routeAt r = some x ∧ x.durable = true ∧ RouteOf s x k)
    (durables s.routeAt RouteT.durable s.routes) i.routes
  channels : List.Forall₂ (fun ch k => ∃ x, s.channelAt ch = some x ∧ x.durable = true ∧ ChannelOf x k)
    (durables s.channelAt ChannelT.durable s.channels) i.channels

/-- What a server saves is an image. -/
theorem contents_image (hs : Stocked s) {records : List Record} (h : (contents s).run = .ok (some records)) :
    ∃ i : Image, records = i.records ∧ ImageOf s i := by
  obtain ⟨us, hus, h₁⟩ := saved_bind h
  obtain ⟨qs, hqs, h₂⟩ := saved_bind h₁
  obtain ⟨rs, hrs, h₃⟩ := saved_bind h₂
  obtain ⟨cs, hcs, h₄⟩ := saved_bind h₃
  obtain rfl := saved_pure h₄
  obtain ⟨users, rfl, husers⟩ : ∃ users : List EagleUser, us = users.map .user ∧
      List.Forall₂ UserOf (s.users.filter fun u => !u.notChange) users := by
    refine savedAll_forall₂ hus fun u hu part hpart => ?_
    obtain ⟨r, hr, hpart⟩ := saved_bind hpart
    obtain ⟨v, rfl, hv⟩ := savedUser_eq hr
    exact ⟨v, saved_pure hpart, hv⟩
  obtain ⟨queues, rfl, hqueues⟩ := savedDurable_forall₂ hqs fun q _ x r hx _ hr => by
    obtain ⟨l, hl⟩ := hs q x hx
    exact savedQueue_eq hl.linked hr
  obtain ⟨routes, rfl, hroutes⟩ := savedDurable_forall₂ hrs fun _ _ _ _ _ _ hr => savedRoute_eq hr
  obtain ⟨channels, rfl, hchannels⟩ := savedDurable_forall₂ hcs fun _ _ _ _ _ _ hr => savedChannel_eq hr
  exact ⟨⟨users, queues, routes, channels⟩, rfl, husers, hqueues, hroutes, hchannels⟩

end Saved

/-! ### A durable queue -/

deriving instance DecidableEq for EagleUser, QueueHeader, Record

namespace Sample

def durableQueue : List Op :=
  login 0 ++ [queueCreate 0 [113] 10 8, named Cmd.queueDeclare 0 [113] [],
    named Cmd.queuePush 0 [113] (leBytes 4 0 ++ List.replicate 24 7),
    named Cmd.queuePush 0 [113] (leBytes 4 7 ++ [2]),
    queueCreate 0 [112] 10 0, named Cmd.queueDeclare 0 [112] [],
    named Cmd.queuePush 0 [112] (leBytes 4 0 ++ [3]),
    named Cmd.queuePurge 0 [112] [], named Cmd.routeCreate 0 [114] (leBytes 4 4),
    named Cmd.routeBind 0 [114] (padded 64 [112] ++ padded 32 [107]),
    named Cmd.routeBind 0 [114] (padded 64 [113] ++ padded 32 [107]),
    named Cmd.channelCreate 0 [99] (leBytes 4 4)]

def durableRecords (queues : List Name) : List Record :=
  [.queue ⟨[113], 10, 2147483647, 8, 2⟩ [(0, List.replicate 24 7), (1007, [2])],
    .route [114] 4 [([107], queues)], .channel [99] 4]

theorem ok_of_join {α : Type} {r : Except Fault (Option α)} {a : α} (h : r.toOption.join = some a) :
    r = .ok (some a) := by
  cases r with
  | error e => cases h
  | ok x => exact congrArg Except.ok h

end Sample

/-! ### The start from the file -/

section Restart

variable [Lzf] {s t : EagleServer} {i : Image} {cfg : Config} {env : Env} {records : List Record}
    {bytes : List Byte}

omit [Lzf] in
theorem forall₂_mem {α β : Type} {R : α → β → Prop} {l : List α} {l' : List β}
    (h : List.Forall₂ R l l') {b : β} (hb : b ∈ l') : ∃ a ∈ l, R a b := by
  induction h with
  | nil => cases hb
  | cons hab _ ih =>
    rcases List.mem_cons.mp hb with rfl | hb
    · exact ⟨_, List.mem_cons_self, hab⟩
    · obtain ⟨a, ha, hr⟩ := ih hb
      exact ⟨a, List.mem_cons_of_mem _ ha, hr⟩

omit [Lzf] in
/-- Queues of different names have a different name each in a list without duplicates. -/
theorem nodup_names {l : List Ptr} {names : List Name} (hl : l.Nodup) (hsub : ∀ q ∈ l, q ∈ s.queues)
    (hnames : (s.queues.map s.queueName).Nodup)
    (h : List.Forall₂ (fun q n => s.queueName q = some n) l names) : names.Nodup := by
  induction h with
  | nil => exact .nil
  | @cons q n l names hq hrest ih =>
    rw [List.nodup_cons] at hl ⊢
    refine ⟨fun hn => ?_, ih hl.2 fun p hp => hsub p (List.mem_cons_of_mem _ hp)⟩
    obtain ⟨p, hp, hpn⟩ := forall₂_mem hrest hn
    have heq := List.inj_on_of_nodup_map hnames (hsub p (List.mem_cons_of_mem _ hp))
      (hsub q List.mem_cons_self)
      (hpn.trans hq.symm)
    exact hl.1 (heq ▸ hp)

theorem ImageOf.loads (h : ImageOf s i) (hs : Reachable s) (hnames : (s.queues.map s.queueName).Nodup)
    (hroom : ∀ r ∈ i.records, r.Roomful) : i.Loads where
  short := by
    intro n hn
    obtain ⟨r, hr, rfl⟩ := List.mem_map.mp hn
    obtain ⟨q, -, x, -, -, hx⟩ := forall₂_mem h.queues hr
    exact hx.short
  names := by
    refine nodup_names (s := s) (l := durables s.queueAt QueueT.durable s.queues)
      (hs.related.consistent.queues.nodup.filter _)
      (fun q hq => (List.mem_filter.mp hq).1) hnames ?_
    rw [Image.names, List.forall₂_map_right_iff]
    exact h.queues.imp fun q r ⟨x, hx, _, hr⟩ => by rw [EagleServer.queueName, hx, hr.name]; rfl
  messages := fun r hr => hroom (Image.queueRecord r) (by
    rw [Image.records, List.mem_append, List.mem_append]
    exact .inr (.inl (List.mem_map_of_mem hr)))
  keys := by
    intro r hr
    obtain ⟨p, -, x, hx, -, hrx⟩ := forall₂_mem h.routes hr
    obtain ⟨hkeys, hvalues⟩ := hs.related.bindingRelations.route_keys p x hx
    have hfst : x.keys.map Prod.fst = r.2.2.map Prod.fst := by
      rw [← List.forall₂_eq_eq_eq, List.forall₂_map_left_iff, List.forall₂_map_right_iff]
      exact hrx.keys.imp fun k k' hk => hk.1.symm
    refine ⟨hfst ▸ hkeys, fun k' hk' => ?_⟩
    obtain ⟨k, hk, -, -, hnamed⟩ := forall₂_mem hrx.keys hk'
    obtain ⟨-, hnodup, hmem⟩ := hvalues k hk
    exact nodup_names hnodup hmem hnames (hnamed.imp fun _ _ hn => hn.2)

omit [Lzf] in
theorem mem_bindable {names : List Name} {keys : List (Name × List Name)} {k : Name × List Name}
    (h : k ∈ bindable names keys) : ∃ k' ∈ keys, k.1 = k'.1 ∧ k.2.Sublist k'.2 := by
  obtain ⟨k', hk', hentry⟩ := List.mem_flatMap.mp h
  unfold Keylist.entry at hentry
  split_ifs at hentry
  · cases hentry
  · rw [List.mem_singleton.mp hentry]
    exact ⟨k', hk', rfl, List.filter_sublist⟩

omit [Lzf] in
theorem length_bindable (names : List Name) (keys : List (Name × List Name)) :
    (bindable names keys).length ≤ keys.length := by
  induction keys with
  | nil => exact Nat.le_refl _
  | cons k keys ih =>
    have hentry : (Keylist.entry k.1 (k.2.filter (· ∈ names))).length ≤ 1 := by
      unfold Keylist.entry
      split_ifs <;> simp
    have hcons : bindable names (k :: keys) = Keylist.entry k.1 (k.2.filter (· ∈ names)) ++
        bindable names keys := rfl
    rw [hcons, List.length_append, List.length_cons]
    omega

omit [Lzf] in
theorem ImageOf.savable (h : ImageOf s i) : i.bound.Savable where
  users := by
    intro v hv
    obtain ⟨u, hu, huv⟩ := forall₂_mem h.users hv
    refine ⟨huv.short.1, huv.short.2, ?_⟩
    rw [EagleUser.notChange, huv.perm]
    simpa [EagleUser.notChange] using (List.mem_filter.mp hu).2
  queues := by
    intro r hr
    obtain ⟨q, -, x, -, hd, hx⟩ := forall₂_mem h.queues hr
    exact ⟨hx.short, hx.settings.2.2 ▸ hd, hx.size⟩
  routes := by
    intro _ hr'
    obtain ⟨r, hr, rfl⟩ := List.mem_map.mp hr'
    obtain ⟨p, -, x, -, hd, hx⟩ := forall₂_mem h.routes hr
    refine ⟨hx.short, hx.flags ▸ hd, fun k hk => ?_⟩
    obtain ⟨k', hk', hfst, hnames⟩ := mem_bindable hk
    obtain ⟨k₀, -, -, hshort, hnamed⟩ := forall₂_mem hx.keys hk'
    refine ⟨hfst ▸ hshort, fun n hn => ?_⟩
    obtain ⟨q, -, hq, -⟩ := forall₂_mem hnamed (hnames.subset hn)
    exact hq
  channels := by
    intro r hr
    obtain ⟨p, -, x, -, hd, hx⟩ := forall₂_mem h.channels hr
    exact ⟨hx.short, hx.flags ▸ hd⟩

omit [Lzf] in
theorem initServer_built (cfg : Config) (env : Env) :
    Built (initServer cfg env) ⟨[cfg.admin], [], [], []⟩ where
  users := rfl
  queues := .nil
  routes := .nil
  channels := .nil
  allocates := ⟨fun _ h => absurd rfl h, fun _ h => absurd rfl h, fun _ h => absurd rfl h,
    fun _ h => absurd rfl h⟩

/-! ### The file that is saved next -/

omit [Lzf] in
theorem ImageOf.counts (h : ImageOf s i) : ∀ r ∈ i.records, r.Counts := by
  intro r hr
  simp only [Image.records, List.mem_append, List.mem_map] at hr
  obtain ⟨u, -, rfl⟩ | ⟨q, hq, rfl⟩ | ⟨x, -, rfl⟩ | ⟨ch, -, rfl⟩ := hr
  · trivial
  · obtain ⟨p, -, x, -, -, hx⟩ := forall₂_mem h.queues hq
    exact hx.size
  · trivial
  · trivial

omit [Lzf] in
/-- A record of the bound image is one of the image, or a route that has lost bindings. -/
theorem mem_bound {r : Record} (hr : r ∈ i.bound.records) :
    r ∈ i.records ∨ ∃ x ∈ i.routes, Image.routeRecord x ∈ i.records ∧
    r = Image.routeRecord (x.1, x.2.1, bindable i.names x.2.2) := by
  simp only [Image.records, Image.bound, List.mem_append, List.mem_map] at hr ⊢
  obtain hu | hq | ⟨_, ⟨x, hx, rfl⟩, rfl⟩ | hch := hr
  · exact .inl (.inl hu)
  · exact .inl (.inr (.inl hq))
  · exact .inr ⟨x, hx, .inr (.inr (.inl ⟨x, hx, rfl⟩)), rfl⟩
  · exact .inl (.inr (.inr (.inr hch)))

omit [Lzf] in
theorem fits_bound (h : ∀ r ∈ i.records, r.Fits ∧ r.Counts) : ∀ r ∈ i.bound.records, r.Fits ∧ r.Counts := by
  intro r hr
  obtain hr | ⟨x, -, hx, rfl⟩ := mem_bound hr
  · exact h r hr
  · obtain ⟨hname, hflags, hlen, hkeys⟩ : (Image.routeRecord x).Fits := (h _ hx).1
    refine ⟨⟨hname, hflags, Nat.lt_of_le_of_lt (length_bindable ..) hlen, fun k hk => ?_⟩, trivial⟩
    obtain ⟨k', hk', hfst, hsub⟩ := mem_bindable hk
    obtain ⟨hkey, hqueues, hnames⟩ := hkeys k' hk'
    exact ⟨hfst ▸ hkey, Nat.lt_of_le_of_lt hsub.length_le hqueues, fun n hn => hnames n (hsub.subset hn)⟩

/-- The part is written. -/
def Succeeds (f : StorageM (List Byte)) : Prop := ∃ bytes, f.run = .ok (some bytes)

omit [Lzf] in
theorem succeeds_mapM {α : Type} {f : α → StorageM (List Byte)} : ∀ {l : List α},
    (∃ parts, (l.mapM f).run = .ok (some parts)) ↔ ∀ a ∈ l, Succeeds (f a)
  | [] => ⟨fun _ _ h => absurd h List.not_mem_nil, fun _ => ⟨[], rfl⟩⟩
  | a :: l => by
    rw [List.forall_mem_cons, ← succeeds_mapM, List.mapM_cons]
    constructor
    · rintro ⟨parts, h⟩
      obtain ⟨bytes, hbytes, h⟩ := saved_bind h
      obtain ⟨rest, hrest, -⟩ := saved_bind h
      exact ⟨⟨bytes, hbytes⟩, rest, hrest⟩
    · rintro ⟨⟨bytes, hbytes⟩, rest, hrest⟩
      exact ⟨bytes :: rest, by rw [run_bind_some hbytes, run_bind_some hrest]; rfl⟩

theorem succeeds_file : Succeeds (writeFile records) ↔ ∀ r ∈ records, Succeeds r.write := by
  rw [← succeeds_mapM]
  constructor
  · rintro ⟨bytes, h⟩
    obtain ⟨body, hbody, -⟩ := saved_bind h
    obtain ⟨parts, hparts, -⟩ := saved_bind hbody
    exact ⟨parts, hparts⟩
  · rintro ⟨parts, hparts⟩
    have hbody : (writeRecords records).run = .ok (some parts.flatten) := by
      rw [writeRecords, run_bind_some hparts]
      rfl
    exact ⟨_, by rw [writeFile, run_bind_some hbody]; rfl⟩

theorem succeeds_number (n : ℕ) : Succeeds (storageWriteData (leBytes 4 n)) := ⟨_, rfl⟩

/-- A route with fewer bindings is written if the route is. -/
theorem succeeds_bindable {name : Name} {flags : ℕ} {keys : List (Name × List Name)} (names : List Name)
    (h : Succeeds (Record.write (.route name flags keys))) :
    Succeeds (Record.write (.route name flags (bindable names keys))) := by
  obtain ⟨bytes, h⟩ := h
  obtain ⟨b₁, h₁, h⟩ := saved_bind h
  obtain ⟨b₂, h₂, h⟩ := saved_bind h
  obtain ⟨b₃, -, h⟩ := saved_bind h
  obtain ⟨parts, hparts, -⟩ := saved_bind h
  have hkeys := succeeds_mapM.mp ⟨parts, hparts⟩
  obtain ⟨b₄, h₄⟩ := succeeds_number (bindable names keys).length
  obtain ⟨parts', hparts'⟩ : ∃ parts', ((bindable names keys).mapM writeRouteKey).run =
      .ok (some parts') := by
    refine succeeds_mapM.mpr fun k hk => ?_
    obtain ⟨k', hk', hfst, hsub⟩ := mem_bindable hk
    obtain ⟨body, hbody⟩ := hkeys k' hk'
    obtain ⟨c₁, hc₁, hbody⟩ := saved_bind hbody
    obtain ⟨c₂, -, hbody⟩ := saved_bind hbody
    obtain ⟨queues, hqueues, -⟩ := saved_bind hbody
    have hwritten := succeeds_mapM.mp ⟨queues, hqueues⟩
    obtain ⟨queues', hqueues'⟩ := succeeds_mapM.mpr fun n (hn : n ∈ k.2) => hwritten n (hsub.subset hn)
    obtain ⟨c₃, hc₃⟩ := succeeds_number k.2.length
    exact ⟨_, by rw [writeRouteKey, hfst, run_bind_some hc₁, run_bind_some hc₃, run_bind_some hqueues']; rfl⟩
  exact ⟨_, by rw [Record.write, run_bind_some h₁, run_bind_some h₂, run_bind_some h₄, run_bind_some hparts']; rfl⟩

theorem succeeds_bound (h : Succeeds (writeFile i.records)) : Succeeds (writeFile i.bound.records) := by
  rw [succeeds_file] at h ⊢
  intro r hr
  obtain hr | ⟨x, -, hx, rfl⟩ := mem_bound hr
  · exact h r hr
  · exact succeeds_bindable i.names (h _ hx)

/-! ### The restart -/

/-- The file that a server has saved is loaded, and the server that has loaded it shows what
the other one had. What it saves is what it has loaded. -/
theorem storageLoad_restores [LawfulLzf] (hs : Reachable s) (hnames : (s.queues.map s.queueName).Nodup)
    (hsave : (storageSave s).run = .ok (some bytes)) (hread : (contents s).run = .ok (some records))
    (hfits : ∀ r ∈ records, r.Fits ∧ r.Roomful) (cfg : Config) (env : Env) :
    ∃ (i : Image) (t : EagleServer) (bytes' : List Byte), records = i.records ∧ ImageOf s i ∧
      storageLoad bytes (initServer cfg env) = .ok (true, t) ∧
      Pictures t { i.bound with users := cfg.admin :: i.users } ∧
      (storageSave t).run = .ok (some bytes') ∧ (readFile bytes').run = .ok (some i.bound.records) ∧
      (i.bound = i → bytes' = bytes) := by
  obtain ⟨i, rfl, hi⟩ := contents_image hs.stocked hread
  have hloads := hi.loads hs hnames fun r hr => (hfits r hr).2
  obtain ⟨_, t, hbuild, ht⟩ := returns_of_wp (build_records hloads (initServer_built cfg env))
  have hadmin : cfg.admin.notChange = true := (by decide : bitCheck Perm.super 6 = true)
  have hcontents := contents_of_pictures ht.toPictures hadmin hi.savable
  have hfile : (writeFile i.records).run = .ok (some bytes) :=
    (congrArg OptionT.run (storageSave_writeFile hread)).symm.trans hsave
  obtain ⟨bytes', hbytes⟩ := succeeds_bound ⟨bytes, hfile⟩
  have hnext : (storageSave t).run = .ok (some bytes') :=
    (congrArg OptionT.run (storageSave_writeFile hcontents)).trans hbytes
  have hall : ∀ r ∈ i.records, r.Fits ∧ r.Counts := fun r hr => ⟨(hfits r hr).1, hi.counts r hr⟩
  refine ⟨i, t, bytes', rfl, hi, ?_, ht.toPictures, hnext,
    readFile_writeFile (fits_bound hall) hbytes, fun heq => ?_⟩
  · rw [storageLoad_iff]
    exact ⟨_, readFile_writeFile hall hfile, hbuild⟩
  · rw [heq, hfile] at hbytes
    exact (Option.some.inj (Except.ok.inj hbytes)).symm

omit [Lzf] in
/-- A durable queue with two messages is bound to a durable route, and so is one that is not
durable and has been purged. -/
theorem storageLoad_restores_durable : ∃ (s t : EagleServer) (i : Image) (bytes bytes' : List Byte),
    @Reachable Sample.lzf s ∧
    (@storageSave Sample.lzf s).run = .ok (some bytes) ∧ i.records = Sample.durableRecords [[112], [113]] ∧
    @storageLoad Sample.lzf bytes Sample.server = .ok (true, t) ∧
    Pictures t { i.bound with users := Sample.config.admin :: i.users } ∧
    (@storageSave Sample.lzf t).run = .ok (some bytes') ∧
    (@readFile Sample.lzf bytes').run = .ok (some i.bound.records) := by
  have hrun : (@replay Sample.lzf Sample.server Sample.durableQueue).any
    (fun s => decide (s.queues.map s.queueName).Nodup &&
      (decide ((contents s).run.toOption.join = some (Sample.durableRecords [[112], [113]])) &&
        (@storageSave Sample.lzf s).run.toOption.join.isSome)) = true := by decide +kernel
  obtain ⟨s, hs, hp⟩ := (Option.any_eq_true ..).mp hrun
  obtain ⟨hnames, hp⟩ := Bool.and_eq_true_iff.mp hp
  obtain ⟨hread, hsave⟩ := Bool.and_eq_true_iff.mp hp
  obtain ⟨bytes, hbytes⟩ := Option.isSome_iff_exists.mp hsave
  have hsave := Sample.ok_of_join hbytes
  have hreach := @Reachable.run Sample.lzf _ _
    (@Reachable.start Sample.lzf Sample.config Sample.env) (@run_of_replay Sample.lzf _ _ _ hs)
  obtain ⟨i, t, bytes', hi, -, hload, hpictures, hnext, hagain, -⟩ :=
    @storageLoad_restores Sample.lzf _ _ _ (vendored_lawful _)
    hreach (of_decide_eq_true hnames) hsave (Sample.ok_of_join (of_decide_eq_true hread))
      (by decide) Sample.config Sample.env
  exact ⟨s, t, i, bytes, bytes', hreach, hsave, hi.symm, hload, hpictures, hnext, hagain⟩

end Restart

end EagleMQ
