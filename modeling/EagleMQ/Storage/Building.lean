import EagleMQ.Push.Settled
import EagleMQ.Storage.Contents

/-! The records of the storage file as they are built. A record stays as it was built
while the others are, but for the routes that a queue notes. The messages of a queue go
through the push, which tells nobody, and the names under the keys of a route are
looked up among the queues that are there. -/

namespace EagleMQ

open Prog Backlog

/-! ### What the records show -/

/-- A message with the expiration and the payload of a record. -/
def Contains (s : EagleServer) (b : Backlog) (m : Ptr) (r : ℕ × List Byte) : Prop :=
  ∃ msg object, b.messages m = some msg ∧ s.objects msg.value = some object ∧
    (msg.expiration, object.data) = r

/-- A queue that nobody uses, with the fields and the messages of a record. -/
structure ShowsQueue (s : EagleServer) (x : QueueT) (h : QueueHeader)
    (messages : List (ℕ × List Byte)) : Prop where
  name : x.name = h.name
  maxMsg : x.maxMsg = h.maxMsg
  maxMsgSize : x.maxMsgSize = h.maxMsgSize
  flags : x.flags = h.flags
  unused : x.subscribedClientsMsg = [] ∧ x.subscribedClientsNotify = []
  tail : messages = [] → x.backlog.queue.tail = none
  stock : ∃ l, Sound True x.backlog l ∧ List.Forall₂ (Contains s x.backlog) (l.map Prod.snd).reverse messages

/-- What is there stays, up to the routes that a queue is bound to. -/
structure Retains (s t : EagleServer) : Prop where
  objects : ∀ o z, s.objects o = some z → t.objects o = some z
  queueAt : ∀ q x, s.queueAt q = some x → ∃ routes, t.queueAt q = some { x with routes := routes }
  routeAt : ∀ r x, s.routeAt r = some x → t.routeAt r = some x
  channelAt : ∀ ch x, s.channelAt ch = some x → t.channelAt ch = some x

/-- New memory is new. -/
structure Allocates (s : EagleServer) : Prop where
  objects : Heap.Below s.objects s.fresh
  queueAt : Heap.Below s.queueAt s.fresh
  routeAt : Heap.Below s.routeAt s.fresh
  channelAt : Heap.Below s.channelAt s.fresh

/-! ### Messages -/

section Messages

variable {P : Prop} {E : Fault → Prop} {s t : EagleServer} {x : QueueT} {l : List (Ptr × Ptr)}
    {q data : Ptr} {z : Object}

/-- A push to a queue that has room and nobody to tell. -/
theorem push_stores (hx : s.queueAt q = some x) (hs : Sound P x.backlog l) (hz : s.objects data = some z)
    (hsize : z.size ≤ x.maxMsgSize) (hmsg : x.subscribedClientsMsg = [])
    (hnotify : x.subscribedClientsNotify = [])
    (hroom : x.size < x.maxMsg) (expiration : ℕ) :
    wp (pushMessageQueueT q data expiration) (fun _ t => ∃ b msg,
      t = { s with
        msgCounter := s.msgCounter + 1
        queueAt := Function.update s.queueAt q (some { x with backlog := b }) } ∧
      Sound P b ((x.backlog.queue.fresh, x.backlog.fresh) :: l) ∧
      b.messages = Function.update x.backlog.messages x.backlog.fresh (some msg) ∧
      msg.value = data ∧ msg.expiration = expiration) E s := by
  rw [pushMessageQueueT, wp_bind, wp_get, wp_bind, wp_modify, wp_bind]
  generalize makeMessageTag s.msgCounter s.nowTimems = tag
  refine wp_withStock (s := { s with msgCounter := s.msgCounter + 1 })
    (m := Stock.createMessage data tag expiration) hx ?_
  set y : QueueT := { x with backlog := x.withMessage data tag expiration } with hy
  show wp _ _ _ { s with msgCounter := s.msgCounter + 1, queueAt := Function.update s.queueAt q (some y) }
  rw [wp_bind, objectSize, wp_bind, wp_get, wp_bind]
  simp only [Objects.find, hz, wp_lift_ok, wp_pure]
  rw [wp_bind, wp_getQueue (Function.update_self ..), if_neg (Nat.not_lt.mpr hsize), wp_bind]
  -- nobody is told
  have hserved : ∀ {Q : Bool → EagleServer → Prop} {u : EagleServer}, u.queueAt q = some y → Q false u →
      wp (processSubscribedClients q x.backlog.fresh) Q E u := fun {Q u} hu hQ => by
    rw [processSubscribedClients, wp_bind, wp_getQueue hu, wp_bind, serveSubscribedClients, wp_bind,
      wp_getQueue hu,
      if_neg (by simp [hy, hmsg]), wp_pure, wp_bind, show y.subscribedClientsNotify = [] from hnotify]
    simpa [hy, hmsg] using hQ
  refine hserved (Function.update_self ..) ?_
  have hfree : ¬y.maxMsg ≤ y.backlog.queue.len := Nat.not_le.mpr hroom
  rw [if_neg Bool.false_ne_true, enqueueMessage, wp_bind, wp_getQueue (Function.update_self ..),
    if_neg hfree, wp_bind]
  refine wp_withStock (Function.update_self ..) ?_
  have hsound := withMessage_sound data tag expiration hs
  have hnew : x.backlog.fresh ∉ (x.withMessage data tag expiration).places l := fun hm =>
    hs.alive _ hm (hs.below.eq_none (Nat.le_refl _))
  have hmessage : (x.withMessage data tag expiration).messages x.backlog.fresh =
      some ⟨data, tag, 0, expiration, none, none⟩ :=
    Function.update_self ..
  refine wp_mono (wp_and (F := E) (Stock.storeMessage_exact hsound hmessage)
    (Stock.storeMessage_spec hsound hmessage hnew))
    (fun _ u hu => ?_) fun _ h => h
  obtain ⟨⟨ho, queue, -, -, hu⟩, -, hplaced, -⟩ := hu
  refine ⟨u.backlog, if expiration = 0 then ⟨data, tag, 0, expiration, none, none⟩ else
    ⟨data, tag, 0, expiration, some (x.backlog.fresh + 1), some x.backlog.queue.fresh⟩, ?_, hplaced,
      ?_, ?_, ?_⟩
  · rw [ho, Function.update_idem]
  · rw [hu]
    dsimp only
    split_ifs
    · rfl
    · exact Function.update_idem ..
  all_goals split_ifs <;> rfl

/-- What the messages of a queue are loaded into. -/
structure Stocks (q : Ptr) (s t : EagleServer) : Prop where
  objects : ∀ o z, s.objects o = some z → t.objects o = some z
  queueAt : ∀ p, p ≠ q → t.queueAt p = s.queueAt p
  rest : t = { s with msgCounter := t.msgCounter, queueAt := t.queueAt, objects := t.objects, fresh := t.fresh }
  allocates : Allocates s → Allocates t

instance : IsPreorder EagleServer (Stocks q) where
  refl s := ⟨fun _ _ h => h, fun _ _ => rfl, rfl, id⟩
  trans s t u h h' := ⟨fun o z hz => h'.objects o z (h.objects o z hz),
    fun p hp => (h'.queueAt p hp).trans (h.queueAt p hp),
    by rw [h'.rest, h.rest], h'.allocates ∘ h.allocates⟩

theorem Contains.mono {b b' : Backlog} {m : Ptr} {r : ℕ × List Byte} (h : Contains s b m r)
    (hobjects : ∀ o z, s.objects o = some z → t.objects o = some z)
    (hb : b'.messages m = b.messages m) : Contains t b' m r := by
  obtain ⟨msg, object, hm, ho, hr⟩ := h
  exact ⟨msg, object, hb.trans hm, hobjects _ _ ho, hr⟩

variable {h : QueueHeader} {messages rest : List (ℕ × List Byte)} {m : ℕ × List Byte}

theorem ShowsQueue.size (hx : ShowsQueue s x h messages) : x.size = messages.length := by
  obtain ⟨l, hs, hl⟩ := hx.stock
  have hlen := hl.length_eq
  rw [List.length_reverse, List.length_map] at hlen
  exact hs.linked.len.trans hlen

/-- One more message. -/
theorem loadMessage_spec (hx : s.queueAt q = some x) (hs : ShowsQueue s x h messages) (ha : Allocates s)
    (hroom : messages.length < h.maxMsg) (hsize : m.2.length ≤ h.maxMsgSize) :
    wp (loadMessage q m) (fun _ t => Stocks q s t ∧ ∃ y, t.queueAt q = some y ∧
      ShowsQueue t y h (messages ++ [m])) E s := by
  obtain ⟨l, hsound, hl⟩ := hs.stock
  have hnone : s.objects s.fresh = none := ha.objects.eq_none (Nat.le_refl _)
  rw [loadMessage, createObject, wp_bind, wp_bind, wp_get, wp_bind, wp_modify, wp_pure, wp_bind]
  set u : EagleServer := { s with objects := Function.update s.objects s.fresh (some ⟨m.2, 1⟩), fresh := s.fresh + 1 }
  have hu : u.objects s.fresh = some ⟨m.2, 1⟩ := Function.update_self ..
  refine wp_mono (push_stores (s := u) hx hsound hu
    (hs.maxMsgSize ▸ hsize) hs.unused.1 hs.unused.2 (by rw [hs.size, hs.maxMsg]; exact hroom) m.1)
    (fun _ t ht => ?_) fun _ h => h
  obtain ⟨b, msg, ht, hb, hmessages, hvalue, hexp⟩ := ht
  subst ht
  have hobjects : ∀ o z, s.objects o = some z →
      Function.update s.objects s.fresh (some ⟨m.2, 1⟩) o = some z := fun o z hz => by
    rwa [Function.update_of_ne (fun heq => by rw [heq, hnone] at hz; cases hz)]
  refine ⟨⟨hobjects, fun p hp => Function.update_of_ne hp .., rfl, fun ha => ?_⟩, _,
    Function.update_self .., ?_⟩
  · have hlt : q < s.fresh := ha.queueAt q (by rw [hx]; exact Option.some_ne_none _)
    exact ⟨ha.objects.update (Nat.le_succ _) (Nat.lt_succ_self _) _,
      ha.queueAt.update (Nat.le_succ _) (Nat.lt_succ_of_lt hlt) _,
      fun p hp => Nat.lt_succ_of_lt (ha.routeAt p hp), fun p hp => Nat.lt_succ_of_lt (ha.channelAt p hp)⟩
  · refine ⟨hs.name, hs.maxMsg, hs.maxMsgSize, hs.flags, hs.unused,
      fun hnil => absurd hnil (List.append_ne_nil_of_right_ne_nil _ (List.cons_ne_nil _ _)), _, hb, ?_⟩
    rw [List.map_cons, List.reverse_cons]
    refine List.rel_append (R := Contains _ b) ?_ (.cons ?_ .nil)
    · have hold : ∀ p ∈ (l.map Prod.snd).reverse, p ≠ x.backlog.fresh := fun p hp heq => by
        have hplace : p ∈ x.backlog.places l := mem_places.mpr (.inl (List.mem_reverse.mp hp))
        exact hsound.alive p hplace (heq ▸ hsound.below.eq_none (Nat.le_refl _))
      refine ((List.forall₂_and_left _ _).mpr ⟨hold, hl⟩).imp fun p r hr => hr.2.mono hobjects ?_
      rw [hmessages, Function.update_of_ne hr.1]
    · exact ⟨msg, _, by rw [hmessages, Function.update_self], by rw [hvalue]; exact hu, by rw [hexp]⟩

/-- All messages of a record that has no more of them than the queue takes. -/
theorem loadMessages_spec : ∀ {rest messages : List (ℕ × List Byte)} {s : EagleServer} {x : QueueT},
    s.queueAt q = some x →
    ShowsQueue s x h messages → Allocates s → (messages ++ rest).length ≤ h.maxMsg →
    (∀ m ∈ rest, m.2.length ≤ h.maxMsgSize) → wp (rest.forM (loadMessage q))
      (fun _ t => Stocks q s t ∧ ∃ y, t.queueAt q = some y ∧ ShowsQueue t y h (messages ++ rest)) E s
  | [], messages, s, x, hx, hs, _, _, _ => by
    rw [List.append_nil]
    exact ⟨IsPreorder.toRefl.refl s, x, hx, hs⟩
  | m :: rest, messages, s, x, hx, hs, ha, hroom, hsize => by
    have hlen : messages.length < h.maxMsg := by
      rw [List.length_append, List.length_cons] at hroom
      omega
    show wp (loadMessage q m >>= fun _ => rest.forM (loadMessage q)) _ _ _
    rw [wp_bind]
    refine wp_mono (loadMessage_spec hx hs ha hlen (hsize m List.mem_cons_self))
      (fun _ t ⟨ht, y, hy, hshows⟩ => ?_) fun _ h => h
    have happend : messages ++ m :: rest = (messages ++ [m]) ++ rest := by simp
    rw [happend] at hroom ⊢
    exact wp_mono (loadMessages_spec hy hshows (ht.allocates ha) hroom fun m hm => hsize m
      (List.mem_cons_of_mem _ hm))
      (fun _ u ⟨hu, hshown⟩ => ⟨IsTrans.trans _ _ _ ht hu, hshown⟩) fun _ h => h

end Messages

/-! ### Records that stay -/

section Stay

variable {s t u : EagleServer} {x : QueueT} {h : QueueHeader} {messages : List (ℕ × List Byte)}

instance : IsPreorder EagleServer Retains where
  refl s := ⟨fun _ _ h => h, fun _ x h => ⟨x.routes, h⟩, fun _ _ h => h, fun _ _ h => h⟩
  trans s t u h h' := ⟨fun o z hz => h'.objects o z (h.objects o z hz), fun q x hx => by
      obtain ⟨_, ht⟩ := h.queueAt q x hx
      obtain ⟨routes, hu⟩ := h'.queueAt q _ ht
      exact ⟨routes, hu⟩, fun r x hx => h'.routeAt r x (h.routeAt r x hx),
        fun ch x hx => h'.channelAt ch x (h.channelAt ch x hx)⟩

theorem ShowsQueue.mono (hx : ShowsQueue s x h messages) (hst : Retains s t) (routes : Keylist Name Ptr) :
    ShowsQueue t { x with routes := routes } h messages := by
  obtain ⟨l, hs, hl⟩ := hx.stock
  exact ⟨hx.name, hx.maxMsg, hx.maxMsgSize, hx.flags, hx.unused, hx.tail, l, hs,
    hl.imp fun p r hr => hr.mono hst.objects rfl⟩

/-- The queue at an address has the name. -/
def Named (s : EagleServer) (q : Ptr) (name : Name) : Prop := ∃ x, s.queueAt q = some x ∧ x.name = name

theorem Named.mono {q : Ptr} {name : Name} (hq : Named s q name) (hst : Retains s t) : Named t q name := by
  obtain ⟨x, hx, hname⟩ := hq
  obtain ⟨routes, ht⟩ := hst.queueAt q x hx
  exact ⟨_, ht, hname⟩

/-- A key with the names of its queues. -/
def ShowsKey (s : EagleServer) (k : Name × List Ptr) (r : Name × List Name) : Prop :=
  k.1 = r.1 ∧ List.Forall₂ (Named s) k.2 r.2

/-- The record at an address is the one of the file. -/
inductive ShowsAt (s : EagleServer) : Ptr → Record → Prop
  | queue {q x h messages} (hx : s.queueAt q = some x) (hs : ShowsQueue s x h messages) :
    ShowsAt s q (.queue h messages)
  | route {r x name flags keys} (hx : s.routeAt r = some x) (hname : x.name = name) (hflags : x.flags = flags)
      (hkeys : List.Forall₂ (ShowsKey s) x.keys keys) : ShowsAt s r (.route name flags keys)
  | channel {ch x name flags} (hx : s.channelAt ch = some x) (hname : x.name = name)
      (hflags : x.flags = flags) : ShowsAt s ch (.channel name flags)

theorem ShowsAt.mono {p : Ptr} {r : Record} (hp : ShowsAt s p r) (hst : Retains s t) : ShowsAt t p r := by
  cases hp with
  | queue hx hs =>
    obtain ⟨routes, ht⟩ := hst.queueAt _ _ hx
    exact .queue ht (hs.mono hst routes)
  | route hx hname hflags hkeys =>
    exact .route (hst.routeAt _ _ hx) hname hflags
      (hkeys.imp fun k r ⟨hk, hq⟩ => ⟨hk, hq.imp fun q n hn => hn.mono hst⟩)
  | channel hx hname hflags => exact .channel (hst.channelAt _ _ hx) hname hflags

end Stay

/-! ### Bindings -/

section Bindings

variable {E : Fault → Prop} {s t : EagleServer} {r : Ptr} {name key : Name} {names : List Name}

/-- The queues of the server under their names. -/
structure QueueNames (s : EagleServer) (names : List Name) : Prop where
  named : List.Forall₂ (Named s) s.queues names
  short : ∀ n ∈ names, n.length < 64

theorem findNamed_named {l : List Ptr} (h : List.Forall₂ (Named s) l names)
    (hshort : ∀ n ∈ names, n.length < 64) (name : Name) :
    findNamed s.queueName name l = .ok none ∧ name ∉ names ∨
      ∃ q ∈ l, findNamed s.queueName name l = .ok (some q) ∧ name ∈ names ∧ Named s q name := by
  induction h with
  | nil => exact .inl ⟨rfl, List.not_mem_nil⟩
  | @cons q n l names hq _ ih =>
    obtain ⟨x, hx, hname⟩ := hq
    have hcname : s.queueName q = some n := by
      rw [EagleServer.queueName, hx, Option.map_some, QueueT.cName, cString, hname,
        if_pos (hshort n List.mem_cons_self)]
    rw [findNamed, hcname]
    dsimp only
    by_cases heq : n = name
    · exact .inr ⟨q, List.mem_cons_self, if_pos heq, heq ▸ List.mem_cons_self, x, hx, hname.trans heq⟩
    · rw [if_neg heq]
      obtain ⟨hnone, hmem⟩ | ⟨q', hl, hsome, hmem, hq'⟩ := ih fun n hn => hshort n (List.mem_cons_of_mem _ hn)
      · exact .inl ⟨hnone, fun hm => (List.mem_cons.mp hm).elim (fun h => heq h.symm) hmem⟩
      · exact .inr ⟨q', List.mem_cons_of_mem _ hl, hsome, List.mem_cons_of_mem _ hmem, hq'⟩

/-- A state in which the route `r` of the state `s` with its keys so far is being built. -/
structure Binds (s : EagleServer) (r : Ptr) (name : Name) (flags : ℕ) (keys : Keylist Name Ptr)
    (t : EagleServer) : Prop where
  retains : Retains s t
  rest : t = { s with queueAt := t.queueAt, routeAt := t.routeAt, fresh := t.fresh }
  allocates : Allocates t
  route : ∃ x, t.routeAt r = some x ∧ x.name = name ∧ x.flags = flags ∧ x.keys = keys

variable {flags : ℕ} {keys : Keylist Name Ptr} {q : Ptr} {n : Name}

theorem Binds.queueNames (h : Binds s r name flags keys t) (hn : QueueNames s names) :
    QueueNames t names where
  named := by
    have hqueues : t.queues = s.queues := by rw [h.rest]
    rw [hqueues]
    exact hn.named.imp fun q n hq => hq.mono h.retains
  short := hn.short

theorem Named.unique (h : Named s q name) (h' : Named s q n) : name = n := by
  obtain ⟨x, hx, rfl⟩ := h
  obtain ⟨y, hy, rfl⟩ := h'
  rw [Option.some.inj (hx.symm.trans hy)]

/-- A binding that is new. -/
theorem bindRouteT_binds (h : Binds s r name flags keys t) (hr : s.routeAt r = none) (hq : Named t q n)
    (hkey : q ∉ keys.values key) :
    wp (bindRouteT r q key) (fun _ u => Binds s r name flags (keys.add key q) u) E t := by
  obtain ⟨x, hx, hname, hflags, rfl⟩ := h.route
  obtain ⟨y, hy, -⟩ := hq
  rw [bindRouteT, wp_bind, wp_getRoute hx, if_neg hkey, wp_bind]
  refine wp_modifyRoute ⟨x, hx, wp_modifyQueue ⟨y, hy, ?_⟩⟩
  have hlinked : ∃ routes, (if r ∈ y.routes.values key then y else { y with routes := y.routes.add key r }) =
      { y with routes := routes } := by
    split_ifs
    · exact ⟨y.routes, rfl⟩
    · exact ⟨_, rfl⟩
  obtain ⟨routes, hlinked⟩ := hlinked
  rw [hlinked]
  refine ⟨⟨h.retains.objects, fun p z hz => ?_, fun p z hz => ?_, h.retains.channelAt⟩, ?_, ?_, _,
    Function.update_self ..,
    hname, hflags, rfl⟩
  · obtain ⟨routes', hp⟩ := h.retains.queueAt p z hz
    by_cases hpq : p = q
    · subst hpq
      rw [hy] at hp
      exact ⟨routes, by rw [Option.some.inj hp]; exact Function.update_self ..⟩
    · exact ⟨routes', (Function.update_of_ne hpq ..).trans hp⟩
  · have hne : p ≠ r := fun heq => by
      rw [heq, hr] at hz
      cases hz
    exact (Function.update_of_ne hne ..).trans (h.retains.routeAt p z hz)
  · rw [h.rest]
    rfl
  · have hqt : q < t.fresh := h.allocates.queueAt q (by rw [hy]; exact Option.some_ne_none _)
    have hrt : r < t.fresh := h.allocates.routeAt r (by rw [hx]; exact Option.some_ne_none _)
    exact ⟨h.allocates.objects, h.allocates.queueAt.update (Nat.le_refl _) hqt _,
      h.allocates.routeAt.update (Nat.le_refl _) hrt _, h.allocates.channelAt⟩

theorem exists_of_forall₂ {α β : Type} {R : α → β → Prop} {l : List α} {l' : List β} {a : α}
    (h : List.Forall₂ R l l') (ha : a ∈ l) : ∃ b ∈ l', R a b := by
  induction h with
  | nil => cases ha
  | cons hab _ ih =>
    obtain rfl | ha := List.mem_cons.mp ha
    · exact ⟨_, List.mem_cons_self, hab⟩
    · obtain ⟨b, hb, hR⟩ := ih ha
      exact ⟨b, List.mem_cons_of_mem _ hb, hR⟩

/-- The names under one key, of which only those of queues that are there get a binding. -/
theorem bindNames_binds (hn : QueueNames s names) (hr : s.routeAt r = none) (hkey : key ∉ keys.keys) :
    ∀ {rest done : List Name} {v : List Ptr} {t : EagleServer},
    Binds s r name flags (keys ++ Keylist.entry key v) t →
      List.Forall₂ (Named s) v (done.filter (· ∈ names)) → (done ++ rest).Nodup →
      wp (rest.forM (bindNamed r key)) (fun _ u => ∃ v, Binds s r name flags (keys ++ Keylist.entry key v) u ∧
        List.Forall₂ (Named s) v ((done ++ rest).filter (· ∈ names))) E t
  | [], done, v, t, h, hv, _ => by
    rw [List.append_nil]
    exact ⟨v, h, hv⟩
  | n :: rest, done, v, t, h, hv, hnodup => by
    have happend : done ++ n :: rest = (done ++ [n]) ++ rest := by simp
    rw [happend] at hnodup ⊢
    have hnew : n ∉ done := fun hmem =>
      List.disjoint_of_nodup_append (List.Nodup.of_append_left hnodup) hmem (List.mem_singleton_self n)
    show wp (bindNamed r key n >>= fun _ => rest.forM (bindNamed r key)) _ _ _
    rw [wp_bind, bindNamed, wp_bind, wp_get, wp_bind, findQueueT, wp_bind, wp_get]
    have hnt := h.queueNames hn
    obtain ⟨hfind, hmem⟩ | ⟨q, hl, hfind, hmem, hq⟩ := findNamed_named hnt.named hnt.short n
    · rw [hfind, wp_lift_ok]
      refine bindNames_binds hn hr hkey h ?_ hnodup
      simpa [List.filter_append, hmem] using hv
    · rw [hfind, wp_lift_ok]
      have hfresh : q ∉ Keylist.values (keys ++ Keylist.entry key v) key := fun hqv => by
        rw [Keylist.values_last hkey] at hqv
        obtain ⟨n', hn', hnamed⟩ := exists_of_forall₂ hv hqv
        rw [(hnamed.mono h.retains).unique hq] at hn'
        exact hnew (List.mem_of_mem_filter hn')
      refine wp_mono (bindRouteT_binds h hr hq hfresh) (fun _ u hu => ?_) fun _ h => h
      rw [Keylist.add_last hkey] at hu
      have hqs : Named s q n := by
        rw [h.rest] at hl
        obtain ⟨n', -, hnamed⟩ := exists_of_forall₂ hn.named hl
        rwa [(hnamed.mono h.retains).unique hq] at hnamed
      refine bindNames_binds hn hr hkey hu ?_ hnodup
      have hfilter : (done ++ [n]).filter (· ∈ names) = done.filter (· ∈ names) ++ [n] := by
        simp [List.filter_append, hmem]
      rw [hfilter]
      exact List.rel_append hv (.cons hqs .nil)

/-- The keys of a route with the queues that are there. -/
def bindable (names : List Name) (keys : List (Name × List Name)) : List (Name × List Name) :=
  keys.flatMap fun k => Keylist.entry k.1 (k.2.filter (· ∈ names))

theorem keys_bindable {k : Name} {l : List (Name × List Name)}
    (h : k ∈ (bindable names l).map Prod.fst) : k ∈ l.map Prod.fst := by
  obtain ⟨e, he, rfl⟩ := List.mem_map.mp h
  obtain ⟨k, hk, hentry⟩ := List.mem_flatMap.mp he
  unfold Keylist.entry at hentry
  split_ifs at hentry
  · cases hentry
  · rw [List.mem_singleton.mp hentry]
    show k.1 ∈ l.map Prod.fst
    exact List.mem_map_of_mem hk

/-- All keys of a route. -/
theorem bindKeys_binds (hn : QueueNames s names) (hr : s.routeAt r = none) :
    ∀ {rest done : List (Name × List Name)} {keys : Keylist Name Ptr} {t : EagleServer},
    Binds s r name flags keys t →
      List.Forall₂ (ShowsKey s) keys (bindable names done) → ((done ++ rest).map Prod.fst).Nodup →
      (∀ k ∈ rest, k.2.Nodup) → wp (rest.forM fun k => k.2.forM (bindNamed r k.1)) (fun _ u => ∃ keys,
        Binds s r name flags keys u ∧ List.Forall₂ (ShowsKey s) keys (bindable names (done ++ rest))) E t
  | [], done, keys, t, h, hkeys, _, _ => by
    rw [List.append_nil]
    exact ⟨keys, h, hkeys⟩
  | k :: rest, done, keys, t, h, hkeys, hnodup, hnames => by
    have happend : done ++ k :: rest = (done ++ [k]) ++ rest := by simp
    rw [happend] at hnodup ⊢
    have hnew : k.1 ∉ keys.keys := fun hmem => by
      obtain ⟨e, he, hek⟩ := List.mem_map.mp hmem
      obtain ⟨e', he', hshows⟩ := exists_of_forall₂ hkeys he
      have hold : k.1 ∈ done.map Prod.fst := by
        rw [← hek, hshows.1]
        exact keys_bindable (List.mem_map_of_mem he')
      rw [List.map_append, List.map_append] at hnodup
      exact List.disjoint_of_nodup_append (List.Nodup.of_append_left hnodup) hold
        (List.mem_singleton_self k.1)
    show wp (k.2.forM (bindNamed r k.1) >>= fun _ => rest.forM fun k => k.2.forM (bindNamed r k.1)) _ _ _
    rw [wp_bind]
    have hstart : Binds s r name flags (keys ++ Keylist.entry k.1 []) t := by
      rwa [Keylist.entry, if_pos rfl, List.append_nil]
    have hnone : List.Forall₂ (Named s) [] (([] : List Name).filter (· ∈ names)) := .nil
    refine wp_mono (bindNames_binds hn hr hnew hstart hnone (hnames k List.mem_cons_self))
      (fun _ u ⟨v, hu, hv⟩ => ?_) fun _ h => h
    rw [List.nil_append] at hv
    refine bindKeys_binds hn hr hu ?_ hnodup fun k hk => hnames k (List.mem_cons_of_mem _ hk)
    have hbindable : bindable names (done ++ [k]) = bindable names done ++
        Keylist.entry k.1 (k.2.filter (· ∈ names)) := by
      rw [bindable, List.flatMap_append, List.flatMap_singleton]
      rfl
    rw [hbindable]
    refine List.rel_append hkeys ?_
    have hnil := hv.length_eq
    unfold Keylist.entry
    by_cases hvn : v = []
    · rw [if_pos hvn, if_pos (List.length_eq_zero_iff.mp (by rw [← hnil, hvn]; rfl))]
      exact .nil
    · rw [if_neg hvn, if_neg (fun h => hvn (List.length_eq_zero_iff.mp (by rw [hnil, h]; rfl)))]
      exact .cons ⟨rfl, hv⟩ .nil

end Bindings

end EagleMQ
