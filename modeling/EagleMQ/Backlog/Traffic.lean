import EagleMQ.Backlog.Ticks
import EagleMQ.Links.Upheld
import EagleMQ.Relations

/-! What a step of the server does to the messages of a queue: nothing, some
pushes, or one of the operations of the commands and of the tick. Every other
operation leaves the messages of all queues alone. -/

namespace EagleMQ

open Prog

/-- An operation on messages has led from one backlog to another. -/
def Stock.Runs {α : Type} (m : StockM α) (a : α) (b b' : Backlog) : Prop :=
  ∃ o o', m ⟨b, o⟩ = .ok (a, ⟨b', o'⟩)

theorem Stock.Runs.spec {α : Type} {m : StockM α} {a : α} {b b' : Backlog}
    {Q : Heap Object → α → Stock → Prop} {E : Fault → Prop} (h : Runs m a b b')
    (hm : ∀ o, wp m (Q o) E ⟨b, o⟩) : ∃ o o', Q o a ⟨b', o'⟩ := by
  obtain ⟨o, o', hrun⟩ := h
  exact ⟨o, o', ok_of_wp (hm o) hrun⟩

/-- A queue without its clients and messages. -/
def QueueT.settings (x : QueueT) : QueueT := { x.bare with backlog := .create }

/-- One push to a queue: where the new message goes. -/
inductive Pushed (x : QueueT) (b : Backlog) : Backlog → Prop
  | refused {value tag expiration m : ℕ} {b' : Backlog}
      (hc : Stock.Runs (Stock.createMessage value tag expiration) m b b') : Pushed x b b'
  | delivered {value tag expiration m : ℕ} {b' b'' : Backlog}
      (hc : Stock.Runs (Stock.createMessage value tag expiration) m b b')
      (hr : Stock.Runs (Stock.releaseMessage m) () b' b'') : Pushed x b b''
  | stored {value tag expiration m : ℕ} {b' b'' : Backlog}
      (hc : Stock.Runs (Stock.createMessage value tag expiration) m b b') (hlen : b'.queue.len < x.maxMsg)
      (hs : Stock.Runs (Stock.storeMessage m) () b' b'') : Pushed x b b''
  | forced {value tag expiration m now : ℕ} {b₁ b₂ b₃ : Backlog}
      (hc : Stock.Runs (Stock.createMessage value tag expiration) m b b₁) (hlen : x.maxMsg ≤ b₁.queue.len)
      (hforce : x.forcePush = true) (hp : Stock.Runs (Stock.popMessageQueueT now 0) () b₁ b₂)
      (hs : Stock.Runs (Stock.storeMessage m) () b₂ b₃) : Pushed x b b₃

/-- Some pushes, one after the other. -/
inductive Pushes (x : QueueT) (b : Backlog) : Backlog → Prop
  | refl : Pushes x b b
  | push {b' b'' : Backlog} (h : Pushes x b b') (hp : Pushed x b' b'') : Pushes x b b''

theorem Pushed.congr {x y : QueueT} {b b' : Backlog} (h : Pushed x b b') (hm : y.maxMsg = x.maxMsg)
    (hf : y.forcePush = x.forcePush) : Pushed y b b' := by
  cases h with
  | refused hc => exact .refused hc
  | delivered hc hr => exact .delivered hc hr
  | stored hc hlen hs => exact .stored hc (hm ▸ hlen) hs
  | forced hc hlen hforce hp hs => exact .forced hc (hm ▸ hlen) (hf ▸ hforce) hp hs

theorem settings_fields {x y : QueueT} (h : y.settings = x.settings) :
    y.maxMsg = x.maxMsg ∧ y.forcePush = x.forcePush := by
  have hmax := congrArg QueueT.maxMsg h
  have hforce := congrArg QueueT.forcePush h
  exact ⟨hmax, hforce⟩

theorem Pushes.congr {x y : QueueT} {b b' : Backlog} (h : Pushes x b b') (hs : y.settings = x.settings) :
    Pushes y b b' := by
  induction h with
  | refl => exact .refl
  | push _ hp ih => exact .push ih (hp.congr (settings_fields hs).1 (settings_fields hs).2)

theorem Pushes.trans {x : QueueT} {b b' b'' : Backlog} (h : Pushes x b b') (h' : Pushes x b' b'') :
    Pushes x b b'' := by
  induction h' with
  | refl => exact h
  | push _ hp ih => exact .push ih hp

/-! ### Queues that are left alone -/

/-- Every queue that is there was there, with its messages and settings. -/
structure Idle (s t : EagleServer) : Prop where
  queue : ∀ q y, t.queueAt q = some y → ∃ x, s.queueAt q = some x ∧ y.bare = x.bare
  time : t.nowTimems = s.nowTimems

/-- Messages have been pushed to queues. -/
def Flows (s t : EagleServer) : Prop :=
  ∀ q y, t.queueAt q = some y → ∃ x, s.queueAt q = some x ∧ y.settings = x.settings ∧
    Pushes x x.backlog y.backlog

instance : IsPreorder EagleServer Idle where
  refl _ := ⟨fun _ y hy => ⟨y, hy, rfl⟩, rfl⟩
  trans _ _ _ h h' := by
    refine ⟨fun q y hy => ?_, h'.time.trans h.time⟩
    obtain ⟨x, hx, hyx⟩ := h'.queue q y hy
    obtain ⟨w, hw, hxw⟩ := h.queue q x hx
    exact ⟨w, hw, hyx.trans hxw⟩

section Traffic

variable {s t : EagleServer} {c q r ch : Ptr} {req : Request}

theorem idle_of_queueAt (h : t.queueAt = s.queueAt) (ht : t.nowTimems = s.nowTimems) : Idle s t :=
  ⟨fun _ y hy => ⟨y, h ▸ hy, rfl⟩, ht⟩

theorem Idle.flows (h : Idle s t) : Flows s t := fun q y hy => by
  obtain ⟨x, hx, hyx⟩ := h.queue q y hy
  have hb := congrArg QueueT.backlog hyx
  change y.backlog = x.backlog at hb
  refine ⟨x, hx, ?_, hb ▸ .refl⟩
  unfold QueueT.settings
  rw [hyx]

theorem Answers.time (h : Answers s t) : t.nowTimems = s.nowTimems :=
  show t.mute.nowTimems = s.mute.nowTimems by rw [h.mute]

theorem Answers.idle (h : Answers s t) : Idle s t := by
  refine ⟨fun q y hy => ?_, h.time⟩
  have hq := h.queue q
  rw [hy] at hq
  obtain ⟨x, hx, hxy⟩ := Option.map_eq_some_iff.mp hq.symm
  refine ⟨x, hx, ?_⟩
  have hb : y.mute.bare = x.mute.bare := congrArg QueueT.bare hxy.symm
  exact hb

theorem any_stock : ∀ e : Fault, ¬e.Stock → Fault.Any e := fun _ _ => trivial

theorem answers_idle {α : Type} {m : ServerM α} (h : Keeps Answers Fault.Any m) : Keeps Idle Fault.Any m :=
  fun s => wp_mono (h s) (fun _ _ ht => ht.idle) fun _ h => h

theorem wp_withStock {α : Type} {m : StockM α} {Q : α → EagleServer → Prop} {E : Fault → Prop} {y : QueueT}
    (hy : s.queueAt q = some y) (h : wp m (fun a t => Q a { s with
      queueAt := Function.update s.queueAt q (some { y with backlog := t.backlog }), objects := t.objects }) E
      ⟨y.backlog, s.objects⟩) : wp (withStock q m) Q E s := by
  unfold wp withStock at *
  rw [hy]
  dsimp only
  cases hm : m ⟨y.backlog, s.objects⟩ with
  | error e =>
    rw [hm] at h
    exact h
  | ok r =>
    rw [hm] at h
    exact h

/-- The messages of the other queues are left alone. -/
theorem withStock_others {α : Type} (m : StockM α) (s : EagleServer) :
    wp (withStock q m) (fun a t => ∃ x b', s.queueAt q = some x ∧ Stock.Runs m a x.backlog b' ∧
      t.queueAt = Function.update s.queueAt q (some { x with backlog := b' }) ∧ t.nowTimems = s.nowTimems)
      Fault.Any s := by
  cases hx : s.queueAt q with
  | none => simp [wp, withStock, hx, Fault.Any]
  | some x =>
    cases hm : m ⟨x.backlog, s.objects⟩ with
    | error e => simp [wp, withStock, hx, hm, Except.map, Fault.Any]
    | ok r =>
      obtain ⟨a, b', o'⟩ := r
      simp only [wp, withStock, hx, hm, Except.map]
      exact ⟨x, b', rfl, ⟨_, _, hm⟩, rfl, trivial⟩

theorem upheld_idle : Upheld Idle where
  client _ _ _ _ _ _ := idle_of_queueAt rfl rfl
  queue s q x y hx hy := by
    refine ⟨fun p z hz => ?_, rfl⟩
    by_cases hp : p = q
    · subst hp
      obtain rfl : y = z := by simpa [EagleServer.setQueue] using hz
      exact ⟨x, hx, hy⟩
    · exact ⟨z, by simpa [EagleServer.setQueue, hp] using hz, rfl⟩
  route _ _ _ _ _ _ _ := idle_of_queueAt rfl rfl
  channel _ _ _ _ _ _ := idle_of_queueAt rfl rfl
  freeQueue q s := by
    rw [wp_bind]
    refine wp_mono (withStock_others _ s) (fun _ t ht => ?_) fun _ h => h
    obtain ⟨x, b', hx, -, ht, htime⟩ := ht
    refine ⟨fun p z hz => ?_, htime⟩
    by_cases hp : p = q
    · subst hp
      simp [EagleServer.freeQueue] at hz
    · exact ⟨z, by simpa [EagleServer.freeQueue, ht, hp] using hz, rfl⟩
  freeRoute _ _ := idle_of_queueAt rfl rfl
  freeChannel _ _ := idle_of_queueAt rfl rfl
  delistQueue _ _ := idle_of_queueAt rfl rfl
  delistRoute _ _ := idle_of_queueAt rfl rfl
  delistChannel _ _ := idle_of_queueAt rfl rfl
  fresh _ := idle_of_queueAt rfl rfl
  increment o := answers_idle (incrementReferencesCount_answers any_stock o)
  decrement o := answers_idle (decrementReferencesCount_answers any_stock o)
  channelMessage _ _ topic msg := answers_idle (channelClientEventMessage_answers any_stock topic msg)
  patternMessage _ _ topic pattern msg :=
    answers_idle (channelClientEventPatternMessage_answers any_stock topic pattern msg)

/-! ### One queue -/

/-- Every queue that is there was there; `K` says what has become of the queue `q`,
and the others are left alone. -/
def At (q : Ptr) (K : QueueT → QueueT → Prop) (s t : EagleServer) : Prop :=
  ∀ p y, t.queueAt p = some y → ∃ x, s.queueAt p = some x ∧ if p = q then K x y else y.bare = x.bare

variable {K L : QueueT → QueueT → Prop}

theorem At.trans {u : EagleServer} (h : At q K s t) (h' : At q L t u) :
    At q (fun x z => ∃ y, K x y ∧ L y z) s u := fun p z hz => by
  obtain ⟨y, hy, hyz⟩ := h' p z hz
  obtain ⟨x, hx, hxy⟩ := h p y hy
  refine ⟨x, hx, ?_⟩
  split_ifs at hxy hyz ⊢
  · exact ⟨y, hxy, hyz⟩
  · exact hyz.trans hxy

theorem At.mono (h : At q K s t) (hKL : ∀ x y, K x y → L x y) : At q L s t := fun p y hy => by
  obtain ⟨x, hx, hxy⟩ := h p y hy
  refine ⟨x, hx, ?_⟩
  split_ifs at hxy ⊢
  · exact hKL x y hxy
  · exact hxy

theorem Idle.at (h : Idle s t) : At q (fun x y => y.bare = x.bare) s t := fun p y hy => by
  obtain ⟨x, hx, hxy⟩ := h.queue p y hy
  exact ⟨x, hx, by simpa using hxy⟩

/-- The queue with other messages. -/
def Restocked {α : Type} (m : StockM α) (a : α) (x y : QueueT) : Prop :=
  y.settings = x.settings ∧ Stock.Runs m a x.backlog y.backlog

theorem withStock_at {α : Type} (m : StockM α) (s : EagleServer) :
    wp (withStock q m) (fun a t => At q (Restocked m a) s t) Fault.Any s := by
  refine wp_mono (withStock_others m s) (fun a t ⟨x, b', hx, hrun, ht, _⟩ p y hy => ?_) fun _ h => h
  rw [ht] at hy
  by_cases hp : p = q
  · subst hp
    rw [Function.update_self] at hy
    obtain rfl := Option.some.inj hy
    exact ⟨x, hx, by simpa using ⟨rfl, hrun⟩⟩
  · rw [Function.update_of_ne hp] at hy
    exact ⟨y, hy, by simp [hp]⟩

theorem settings_of_bare {x y : QueueT} (h : y.bare = x.bare) :
    y.settings = x.settings ∧ y.backlog = x.backlog := by
  have hb := congrArg QueueT.backlog h
  refine ⟨?_, hb⟩
  unfold QueueT.settings
  rw [h]

/-- The rest of a program that has begun with an operation on the queue `q`. -/
theorem wp_at_bind {α β : Type} {m : ServerM α} {k : α → ServerM β} {K : α → QueueT → QueueT → Prop}
    (hm : wp m (fun a t => At q (K a) s t) Fault.Any s)
    (hk : ∀ a t, At q (K a) s t → wp (k a) (fun _ u => At q L s u) Fault.Any t) :
    wp (m >>= k) (fun _ u => At q L s u) Fault.Any s := by
  rw [wp_bind]
  exact wp_mono hm hk fun _ h => h

/-! ### Pushes -/

/-- Where the message of a push goes, once no client is given it. -/
theorem enqueueMessage_at (m : Ptr) (s : EagleServer) :
    wp (enqueueMessage q m) (fun _ t => At q (fun x y => y.settings = x.settings ∧ (y.backlog = x.backlog ∨
      (x.backlog.queue.len < x.maxMsg ∧ Stock.Runs (Stock.storeMessage m) () x.backlog y.backlog) ∨
      x.maxMsg ≤ x.backlog.queue.len ∧ x.forcePush = true ∧
      ∃ now b, Stock.Runs (Stock.popMessageQueueT now 0) () x.backlog b ∧
        Stock.Runs (Stock.storeMessage m) () b y.backlog)) s t) Fault.Any s := by
  cases hx : s.queueAt q with
  | none => simp [enqueueMessage, getQueue, hx, Fault.Any]
  | some x =>
    have hidle : ∀ {L : QueueT → QueueT → Prop}, (∀ y, L y y) → At q L s s := fun hL p y hy =>
      ⟨y, hy, by split_ifs; exacts [hL y, rfl]⟩
    have hself : ∀ {K : QueueT → QueueT → Prop} {t}, At q K s t → At q (fun w y => w = x ∧ K w y) s t :=
      fun h p y hy => by
        obtain ⟨w, hw, hwy⟩ := h p y hy
        refine ⟨w, hw, ?_⟩
        split_ifs at hwy ⊢ with hp
        · subst hp
          exact ⟨Option.some.inj (hw.symm.trans hx), hwy⟩
        · exact hwy
    rw [enqueueMessage, wp_bind, wp_getQueue hx]
    refine wp_ite (fun hlen => wp_ite (fun hforce => ?_) fun _ => ?_) fun hlen => ?_
    · rw [wp_bind, wp_get]
      refine wp_at_bind (withStock_at _ s) fun _ t ht => ?_
      rw [wp_bind]
      refine wp_mono (withStock_at _ t) (fun _ u hu => (hself (ht.trans hu)).mono ?_) fun _ h => h
      rintro w z ⟨rfl, y, ⟨hset, hpop⟩, hset', hstore⟩
      exact ⟨hset'.trans hset, .inr (.inr ⟨hlen, hforce, _, _, hpop, hstore⟩)⟩
    · exact hidle fun y => ⟨rfl, .inl rfl⟩
    · refine wp_at_bind (withStock_at _ s) fun _ t ht => ?_
      refine (hself ht).mono ?_
      rintro w y ⟨rfl, hset, hstore⟩
      exact ⟨hset, .inr (.inl ⟨Nat.not_le.mp hlen, hstore⟩)⟩

theorem processSubscribedClients_idle (m : Ptr) :
    Keeps Idle Fault.Any (processSubscribedClients q m) := fun _ =>
  wp_mono (processSubscribedClients_answers any_stock (.inl trivial)) (fun _ _ ht => ht.idle) fun _ h => h

theorem pushMessageQueueT_at (data expiration : ℕ) (s : EagleServer) :
    wp (pushMessageQueueT q data expiration)
      (fun _ t => At q (fun x y => y.settings = x.settings ∧ Pushed x x.backlog y.backlog) s t)
        Fault.Any s := by
  rw [pushMessageQueueT, wp_bind, wp_get, wp_bind, wp_modify]
  have hcount : At q (fun x y => y.bare = x.bare) s { s with msgCounter := s.msgCounter + 1 } :=
    (idle_of_queueAt rfl rfl).at
  rw [wp_bind]
  refine wp_mono (withStock_at _ _) (fun m t ht => ?_) fun _ h => h
  have hcreate := hcount.trans ht
  have hrefused : At q (fun x y => y.settings = x.settings ∧ Pushed x x.backlog y.backlog) s t := by
    refine hcreate.mono ?_
    rintro x z ⟨y, hxy, hyz, hrun⟩
    obtain ⟨hset, hb⟩ := settings_of_bare hxy
    exact ⟨hyz.trans hset, .refused (hb ▸ hrun)⟩
  have hread : ∀ {α β : Type} {r : ServerM α} {k : α → ServerM β} {Q : β → EagleServer → Prop},
      (∀ u, wp r (fun _ v => v = u) Fault.Any u) → (∀ a, wp (k a) Q Fault.Any t) →
      wp (r >>= k) Q Fault.Any t := fun hr hk => by
    rw [wp_bind]
    exact wp_mono (hr t) (fun a u hu => hu ▸ hk a) fun _ h => h
  refine hread (fun u => ?_) fun size => ?_
  · cases ho : u.objects data with
    | none => simp [objectSize, Objects.find, ho, Fault.Any]
    | some x => simp [objectSize, Objects.find, ho]
  refine hread (fun u => ?_) fun y => wp_ite (fun _ => hrefused) fun _ => ?_
  · cases hu : u.queueAt q with
    | none => simp [getQueue, hu, Fault.Any]
    | some x => simp [getQueue, hu]
  rw [wp_bind]
  refine wp_mono (processSubscribedClients_idle m t) (fun taken u hu => ?_) fun _ h => h
  have hserved := hcreate.trans hu.at
  refine wp_ite (fun _ => ?_) fun _ => ?_
  · rw [wp_bind]
    refine wp_mono (withStock_at _ _) (fun _ v hv => (hserved.trans hv).mono ?_) fun _ h => h
    rintro x w ⟨z, ⟨y, ⟨y', hxy', hy'y, hrun⟩, hyz⟩, hzw, hrel⟩
    obtain ⟨hset, hb⟩ := settings_of_bare hxy'
    obtain ⟨hset', hb'⟩ := settings_of_bare hyz
    exact ⟨hzw.trans (hset'.trans (hy'y.trans hset)), .delivered (hb ▸ hrun) (hb' ▸ hrel)⟩
  · refine wp_mono (enqueueMessage_at m u) (fun _ v hv => (hserved.trans hv).mono ?_) fun _ h => h
    rintro x w ⟨z, ⟨y, ⟨y', hxy', hy'y, hrun⟩, hyz⟩, hzw, hqueue⟩
    obtain ⟨hset, hb⟩ := settings_of_bare hxy'
    obtain ⟨hset', hb'⟩ := settings_of_bare hyz
    have hsame := hset'.trans (hy'y.trans hset)
    obtain ⟨hmax, hforce⟩ := settings_fields hsame
    rw [hb] at hrun
    rw [hmax, hforce, hb'] at hqueue
    refine ⟨hzw.trans hsame, ?_⟩
    rcases hqueue with hb'' | ⟨hlen, hstore⟩ | ⟨hlen, hforced, now, b, hpop, hstore⟩
    · exact hb'' ▸ .refused hrun
    · exact .stored hrun hlen hstore
    · exact .forced hrun hlen hforced hpop hstore

theorem pushMessageQueueT_flows (q data expiration : ℕ) :
    Keeps Flows Fault.Any (pushMessageQueueT q data expiration) :=
  fun s => wp_mono (pushMessageQueueT_at data expiration s) (fun _ t ht p y hy => by
    obtain ⟨x, hx, hxy⟩ := ht p y hy
    split_ifs at hxy with hp
    · exact ⟨x, hx, hxy.1, .push .refl hxy.2⟩
    · obtain ⟨hset, hb⟩ := settings_of_bare hxy
      exact ⟨x, hx, hset, hb ▸ .refl⟩) fun _ h => h

/-! ### Pushes to several queues -/

/-- Each queue of a list has been pushed to once, and the others are left alone. -/
def Fed (l : List Ptr) (s t : EagleServer) : Prop :=
  ∀ p y, t.queueAt p = some y → ∃ x, s.queueAt p = some x ∧
    if p ∈ l then y.settings = x.settings ∧ Pushed x x.backlog y.backlog else y.bare = x.bare

theorem Idle.fed (h : Idle s t) : Fed [] s t := fun p y hy => by
  obtain ⟨x, hx, hxy⟩ := h.queue p y hy
  exact ⟨x, hx, by simpa using hxy⟩

/-- One more queue in front. -/
theorem Fed.cons {u : EagleServer} {l : List Ptr} (hq : q ∉ l)
    (h : At q (fun x y => y.settings = x.settings ∧ Pushed x x.backlog y.backlog) s t) (h' : Fed l t u) :
    Fed (q :: l) s u := fun p z hz => by
  obtain ⟨y, hy, hyz⟩ := h' p z hz
  obtain ⟨x, hx, hxy⟩ := h p y hy
  refine ⟨x, hx, ?_⟩
  by_cases hp : p = q
  · subst hp
    rw [if_pos rfl] at hxy
    rw [if_neg hq] at hyz
    rw [if_pos (List.mem_cons_self ..)]
    obtain ⟨hset, hb⟩ := settings_of_bare hyz
    exact ⟨hset.trans hxy.1, hb ▸ hxy.2⟩
  · rw [if_neg hp] at hxy
    simp only [List.mem_cons, hp, false_or]
    split_ifs at hyz ⊢
    · obtain ⟨hset, hb⟩ := settings_of_bare hxy
      obtain ⟨hmax, hforce⟩ := settings_fields hset
      exact ⟨hyz.1.trans hset, hb ▸ hyz.2.congr hmax.symm hforce.symm⟩
    · exact hyz.trans hxy

/-- Pushes to the queues of a list, each of which comes once. -/
theorem pushes_fed (data expiration : ℕ) : ∀ {l : List Ptr} {s : EagleServer} (status : Bool), l.Nodup →
    wp (l.foldlM (fun status q => do
      let ok ← pushMessageQueueT q data expiration
      incrementReferencesCount data
      pure (status && ok)) status) (fun _ t => Fed l s t) Fault.Any s
  | [], s, _, _ => (Std.Refl.refl s : Idle s s).fed
  | q :: l, s, status, hn => by
    obtain ⟨hq, hn⟩ := List.nodup_cons.mp hn
    rw [List.foldlM_cons, wp_bind, wp_bind]
    refine wp_mono (pushMessageQueueT_at data expiration s) (fun ok t ht => ?_) fun _ h => h
    rw [wp_bind]
    refine wp_mono (answers_idle (incrementReferencesCount_answers any_stock data) t)
      (fun _ u hu => ?_) fun _ h => h
    rw [wp_pure]
    refine wp_mono (pushes_fed data expiration (status && ok) hn) (fun _ v hv => ?_) fun _ h => h
    refine Fed.cons hq ((ht.trans hu.at).mono ?_) hv
    rintro x z ⟨y, ⟨hset, hp⟩, hyz⟩
    obtain ⟨hset', hb⟩ := settings_of_bare hyz
    exact ⟨hset'.trans hset, hb ▸ hp⟩

/-- A push to a route reaches each receiver once. -/
theorem pushMessageRouteT_fed {x : RouteT} {key : Name} (hx : s.routeAt r = some x)
    (hn : (x.keys.values key).Nodup)
    (msg expiration : ℕ) :
    wp (pushMessageRouteT r key msg expiration) (fun _ t => Fed (x.receivers key) s t) Fault.Any s := by
  rw [pushMessageRouteT, wp_bind, wp_getRoute hx]
  refine wp_ite (fun _ => wp_ite (fun hround => ?_) fun hround => ?_) fun hk => ?_
  · have hreceivers : x.receivers key = (listRotate (x.keys.values key)).head?.toList := if_pos hround
    have hvalues : (x.keys.set key (listRotate (x.keys.values key))).values key =
        listRotate (x.keys.values key) :=
      (Keylist.values_set ..).trans (if_pos rfl)
    rw [hreceivers, wp_bind]
    refine wp_modifyRoute ⟨x, hx, ?_⟩
    rw [wp_bind, wp_getRoute (Function.update_self ..)]
    dsimp only
    rw [hvalues]
    cases (listRotate (x.keys.values key)).head? with
    | none => exact trivial
    | some q =>
      rw [wp_bind]
      refine wp_mono (pushMessageQueueT_at msg expiration (s.setRoute r _)) (fun ok t ht => ?_) fun _ h => h
      rw [wp_bind]
      refine wp_mono (answers_idle (incrementReferencesCount_answers any_stock msg) t)
        (fun _ u hu => ?_) fun _ h => h
      exact Fed.cons (s := s) (by simp) ht hu.fed
  · rw [RouteT.receivers, if_neg hround]
    exact pushes_fed msg expiration true hn
  · have hreceivers : x.receivers key = [] := by
      rw [RouteT.receivers, Keylist.values_of_not_mem hk]
      split_ifs <;> rfl
    rw [hreceivers]
    exact (Std.Refl.refl s : Idle s s).fed

end Traffic

end EagleMQ
