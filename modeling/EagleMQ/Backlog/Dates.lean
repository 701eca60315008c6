import EagleMQ.Backlog.Local
import EagleMQ.Backlog.Reach

/-! The tags and the times of the messages. The messages of a queue keep theirs; a
new one gets its tag from the counter and the clock of the last tick. -/

namespace EagleMQ

open Prog Backlog

namespace Backlog

/-- Every message that is there was there, with its tag and its expiration, and under `P` its time
to confirm. -/
structure Fades (P : Prop) (b b' : Backlog) : Prop where
  fresh : b.fresh ≤ b'.fresh
  marks : ∀ m y, b'.messages m = some y → ∃ x, b.messages m = some x ∧ y.tag = x.tag ∧
    y.expiration = x.expiration ∧
    (P → y.confirm = x.confirm)

instance (P : Prop) : IsPreorder Backlog (Fades P) where
  refl _ := ⟨Nat.le_refl _, fun _ y hy => ⟨y, hy, rfl, rfl, fun _ => rfl⟩⟩
  trans _ _ _ h h' := by
    refine ⟨Nat.le_trans h.fresh h'.fresh, fun m z hz => ?_⟩
    obtain ⟨y, hy, htag, hexp, hconfirm⟩ := h'.marks m z hz
    obtain ⟨x, hx, htag', hexp', hconfirm'⟩ := h.marks m y hy
    exact ⟨x, hx, htag.trans htag', hexp.trans hexp', fun hP => (hconfirm hP).trans (hconfirm' hP)⟩

variable {P : Prop} {b b' : Backlog} {m : Ptr} {x y : Message}

theorem Fades.of_same (h : b'.messages = b.messages) (hf : b.fresh ≤ b'.fresh) : Fades P b b' :=
  ⟨hf, fun _ y hy => ⟨y, h ▸ hy, rfl, rfl, fun _ => rfl⟩⟩

theorem Fades.set (hx : b.messages m = some x) (htag : y.tag = x.tag) (hexp : y.expiration = x.expiration)
    (hconfirm : P → y.confirm = x.confirm) :
    Fades P b { b with messages := Function.update b.messages m (some y) } := by
  refine ⟨Nat.le_refl _, fun m' z hz => ?_⟩
  dsimp only at hz
  by_cases hm : m' = m
  · subst hm
    rw [Function.update_self] at hz
    obtain rfl := Option.some.inj hz
    exact ⟨x, hx, htag, hexp, hconfirm⟩
  · rw [Function.update_of_ne hm] at hz
    exact ⟨z, hz, rfl, rfl, fun _ => rfl⟩

theorem Fades.release (b : Backlog) (m : Ptr) :
    Fades P b { b with messages := Function.update b.messages m none } := by
  refine ⟨Nat.le_refl _, fun m' z hz => ?_⟩
  dsimp only at hz
  by_cases hm : m' = m
  · rw [hm, Function.update_self] at hz
    exact nomatch hz
  · rw [Function.update_of_ne hm] at hz
    exact ⟨z, hz, rfl, rfl, fun _ => rfl⟩

end Backlog

namespace Stock

/-- The same of the messages and the objects. -/
def Fades (P : Prop) (t u : Stock) : Prop := Backlog.Fades P t.backlog u.backlog

instance (P : Prop) : IsPreorder Stock (Stock.Fades P) where
  refl t := Std.Refl.refl (r := Backlog.Fades P) t.backlog
  trans _ _ _ h h' := IsTrans.trans (r := Backlog.Fades P) _ _ _ h h'

theorem fades_local (P : Prop) : Local (Stock.Fades P) where
  lists _ _ _ hm hf := .of_same hm hf
  relink _ _ _ _ _ _ hm := .set hm rfl rfl fun _ => rfl
  release b _ _ m _ _ _ := .release b m

theorem popMessageQueueT_fades {P : Prop} {now timeout : ℕ} (hP : P → timeout = 0) :
    Keeps (Stock.Fades P) Fault.Any (popMessageQueueT now timeout) :=
  (fades_local P).popMessageQueueT fun ht _ _ _ _ _ hm => Fades.set hm rfl rfl fun h => absurd (hP h) ht

end Stock

/-! ### Queues -/

/-- The queue `q` has a message `m` with the tag and the expiration. -/
def Bears (s : EagleServer) (q m : Ptr) (tag expiration : ℕ) : Prop :=
  ∃ x msg, s.queueAt q = some x ∧ x.backlog.messages m = some msg ∧ msg.tag = tag ∧
    msg.expiration = expiration

/-- No message is new. -/
structure Wanes (s t : EagleServer) : Prop where
  time : t.nowTimems = s.nowTimems
  counter : t.msgCounter = s.msgCounter
  marks : ∀ q m tag expiration, Bears t q m tag expiration → Bears s q m tag expiration

instance : IsPreorder EagleServer Wanes where
  refl _ := ⟨rfl, rfl, fun _ _ _ _ h => h⟩
  trans _ _ _ h h' := ⟨h'.time.trans h.time, h'.counter.trans h.counter,
    fun q m tag expiration hb => h.marks q m tag expiration (h'.marks q m tag expiration hb)⟩

section Wanes

variable {s t : EagleServer} {c q : Ptr} {req : Request}

/-- Every queue that is there was there, with its messages. -/
theorem wanes_of_queues (h : ∀ q y, t.queueAt q = some y → ∃ x, s.queueAt q = some x ∧ y.backlog = x.backlog)
    (htime : t.nowTimems = s.nowTimems) (hcounter : t.msgCounter = s.msgCounter) : Wanes s t := by
  refine ⟨htime, hcounter, ?_⟩
  rintro q m tag expiration ⟨y, msg, hy, hmsg, hmarks⟩
  obtain ⟨x, hx, hb⟩ := h q y hy
  exact ⟨x, msg, hx, hb ▸ hmsg, hmarks⟩

theorem wanes_same (h : t.queueAt = s.queueAt) (htime : t.nowTimems = s.nowTimems)
    (hcounter : t.msgCounter = s.msgCounter) :
    Wanes s t := wanes_of_queues (fun _ y hy => ⟨y, h ▸ hy, rfl⟩) htime hcounter

theorem Answers.wanes (h : Answers s t) : Wanes s t := by
  have hcounter : t.mute.msgCounter = s.mute.msgCounter := by rw [h.mute]
  refine wanes_of_queues (fun q y hy => ?_) h.time hcounter
  obtain ⟨x, hx, hb⟩ := h.idle.queue q y hy
  exact ⟨x, hx, (settings_of_bare hb).2⟩

theorem answers_wanes {α : Type} {m : ServerM α} (h : Keeps Answers Fault.Any m) : Keeps Wanes Fault.Any m :=
  fun s => wp_mono (h s) (fun _ _ ht => ht.wanes) fun _ h => h

theorem same_wanes {α : Type} {m : ServerM α} (h : Keeps (fun s t => t = s) Fault.Any m) :
    Keeps Wanes Fault.Any m :=
  answers_wanes (same_answers h)

theorem withStock_wanes {α : Type} {m : StockM α} (hm : Keeps (Stock.Fades False) Fault.Any m) :
    Keeps Wanes Fault.Any (withStock q m) := fun s => by
  cases hx : s.queueAt q with
  | none => simp [wp, withStock, hx, Fault.Any]
  | some x =>
    refine wp_withStock hx (wp_mono (hm _) (fun _ t ht => ⟨rfl, rfl, ?_⟩) fun _ h => h)
    rintro p m tag expiration ⟨y, msg, hy, hmsg, htag, hexp⟩
    dsimp only at hy
    by_cases hp : p = q
    · subst hp
      rw [Function.update_self] at hy
      obtain rfl := Option.some.inj hy
      obtain ⟨msg', hmsg', htag', hexp', -⟩ := ht.marks m msg hmsg
      exact ⟨x, msg', hx, hmsg', htag' ▸ htag, hexp' ▸ hexp⟩
    · rw [Function.update_of_ne hp] at hy
      exact ⟨y, msg, hy, hmsg, htag, hexp⟩

theorem upheld_wanes : Upheld Wanes where
  client _ _ _ _ _ _ := wanes_same rfl rfl rfl
  queue s q x y hx hy := by
    refine wanes_of_queues (fun p z hz => ?_) rfl rfl
    obtain ⟨w, hw, hb⟩ := (upheld_idle.queue s q x y hx hy).queue p z hz
    exact ⟨w, hw, (settings_of_bare hb).2⟩
  route _ _ _ _ _ _ _ := wanes_same rfl rfl rfl
  channel _ _ _ _ _ _ := wanes_same rfl rfl rfl
  freeQueue q := keeps_bind (withStock_wanes (Stock.fades_local _).releaseQueue) fun _ =>
    keeps_modify _ fun s => by
    refine wanes_of_queues (fun p z hz => ?_) rfl rfl
    by_cases hp : p = q
    · simp [hp, EagleServer.freeQueue] at hz
    · exact ⟨z, by simpa [EagleServer.freeQueue, hp] using hz, rfl⟩
  freeRoute _ _ := wanes_same rfl rfl rfl
  freeChannel _ _ := wanes_same rfl rfl rfl
  delistQueue _ _ := wanes_same rfl rfl rfl
  delistRoute _ _ := wanes_same rfl rfl rfl
  delistChannel _ _ := wanes_same rfl rfl rfl
  fresh _ := wanes_same rfl rfl rfl
  increment o := answers_wanes (incrementReferencesCount_answers any_stock o)
  decrement o := answers_wanes (decrementReferencesCount_answers any_stock o)
  channelMessage _ _ topic msg := answers_wanes (channelClientEventMessage_answers any_stock topic msg)
  patternMessage _ _ topic pattern msg :=
    answers_wanes (channelClientEventPatternMessage_answers any_stock topic pattern msg)

/-! ### Pushes -/

/-- The messages of a set have tags of their own, and the counter has passed those of the
present time. -/
structure Apart (G : Ptr → Ptr → Prop) (s : EagleServer) : Prop where
  below : ∀ q m tag expiration, G q m → Bears s q m tag expiration →
    tag / 4294967296 = s.nowTimems % 4294967296 →
    tag % 4294967296 < s.msgCounter
  apart : ∀ q m q' m' tag expiration expiration', G q m → G q' m' → Bears s q m tag expiration →
    Bears s q' m' tag expiration' → q = q' ∧ m = m'

theorem Apart.mono {G G' : Ptr → Ptr → Prop} (h : Apart G s) (hG : ∀ q m tag expiration, G' q m →
    Bears s q m tag expiration → G q m) : Apart G' s :=
  ⟨fun q m tag expiration hm hb => h.below q m tag expiration (hG q m tag expiration hm hb) hb,
    fun q m q' m' tag expiration expiration' hm hm' hb hb' =>
      h.apart q m q' m' tag expiration expiration' (hG q m tag expiration hm hb)
        (hG q' m' tag expiration' hm' hb') hb hb'⟩

/-- The messages that are new have expirations of `C`, and tags of their own if the counter
has not wrapped. -/
structure Posts (C : ℕ → Prop) (s t : EagleServer) : Prop where
  time : t.nowTimems = s.nowTimems
  counter : s.msgCounter ≤ t.msgCounter
  marks : ∀ q m tag expiration, Bears t q m tag expiration → Bears s q m tag expiration ∨ C expiration
  apart : ∀ G, Apart G s → t.msgCounter ≤ 4294967296 →
    Apart (fun q m => G q m ∨ ∀ tag expiration, ¬Bears s q m tag expiration) t

instance (C : ℕ → Prop) : IsPreorder EagleServer (Posts C) where
  refl s := ⟨rfl, Nat.le_refl _, fun _ _ _ _ h => .inl h,
    fun _ hG _ => hG.mono fun q m tag expiration hm hb =>
    hm.resolve_right fun hno => hno tag expiration hb⟩
  trans s t u h h' := by
    refine ⟨h'.time.trans h.time, Nat.le_trans h.counter h'.counter,
      fun q m tag expiration hb => ?_, fun G hG hle => ?_⟩
    · rcases h'.marks q m tag expiration hb with hb | hC
      · exact h.marks q m tag expiration hb
      · exact .inr hC
    · exact (h'.apart _ (h.apart G hG (Nat.le_trans h'.counter hle)) hle).mono
        fun q m tag expiration hm _ => .inl hm

variable {C : ℕ → Prop}

theorem Wanes.posts (h : Wanes s t) : Posts C s t := by
  refine ⟨h.time, Nat.le_of_eq h.counter.symm,
    fun q m tag expiration hb => .inl (h.marks q m tag expiration hb),
    fun G hG _ => ?_⟩
  have hin : ∀ {q m tag expiration}, G q m ∨ (∀ tag expiration, ¬Bears s q m tag expiration) →
      Bears t q m tag expiration → G q m ∧ Bears s q m tag expiration := fun {q m tag expiration} hm hb => by
    have hb := h.marks q m tag expiration hb
    exact ⟨hm.resolve_right fun hno => hno tag expiration hb, hb⟩
  refine ⟨fun q m tag expiration hm hb htag => ?_,
    fun q m q' m' tag expiration expiration' hm hm' hb hb' => ?_⟩
  · rw [h.counter]
    rw [h.time] at htag
    exact hG.below q m tag expiration (hin hm hb).1 (hin hm hb).2 htag
  · exact hG.apart q m q' m' tag expiration expiration' (hin hm hb).1 (hin hm' hb').1 (hin hm hb).2
      (hin hm' hb').2

theorem wanes_posts {α : Type} {m : ServerM α} (h : Keeps Wanes Fault.Any m) : Keeps (Posts C) Fault.Any m :=
  fun s => wp_mono (h s) (fun _ _ ht => ht.posts) fun _ h => h

theorem makeMessageTag_parts {counter : ℕ} (time : ℕ) (h : counter < 4294967296) :
    makeMessageTag counter time / 4294967296 = time % 4294967296 ∧
    makeMessageTag counter time % 4294967296 = counter := by
  unfold makeMessageTag
  omega

/-- The message that a push creates is the only one that is new. -/
theorem posts_of_created {p n e : ℕ} (htime : t.nowTimems = s.nowTimems)
    (hcounter : t.msgCounter = s.msgCounter + 1)
    (hC : C e) (h : ∀ q m tag expiration, Bears t q m tag expiration → Bears s q m tag expiration ∨
      q = p ∧ m = n ∧ tag = makeMessageTag s.msgCounter s.nowTimems ∧ expiration = e) : Posts C s t := by
  refine ⟨htime, by omega, fun q m tag expiration hb => (h q m tag expiration hb).imp_right fun ⟨_, _, _, he⟩ => he ▸ hC,
    fun G hG hle => ?_⟩
  have hlt : s.msgCounter < 4294967296 := by omega
  obtain ⟨hhigh, hlow⟩ := makeMessageTag_parts s.nowTimems hlt
  have hold : ∀ {q m tag expiration}, G q m ∨ (∀ tag expiration, ¬Bears s q m tag expiration) →
      Bears s q m tag expiration → G q m := fun hm hb => hm.resolve_right fun hno => hno _ _ hb
  -- a message that was there has another tag than the new one
  have hother : ∀ {q m expiration}, G q m →
      ¬Bears s q m (makeMessageTag s.msgCounter s.nowTimems) expiration :=
    fun {q m expiration} hm hb => by
      have hbelow := hG.below q m _ expiration hm hb hhigh
      rw [hlow] at hbelow
      exact Nat.lt_irrefl _ hbelow
  refine ⟨fun q m tag expiration hm hb htag => ?_,
    fun q m q' m' tag expiration expiration' hm hm' hb hb' => ?_⟩
  · rw [htime] at htag
    rw [hcounter]
    rcases h q m tag expiration hb with hb | ⟨-, -, rfl, -⟩
    · exact Nat.lt_succ_of_lt (hG.below q m tag expiration (hold hm hb) hb htag)
    · rw [hlow]
      exact Nat.lt_succ_self _
  · rcases h q m tag expiration hb with hb | ⟨rfl, rfl, htag, -⟩
    · rcases h q' m' tag expiration' hb' with hb' | ⟨-, -, rfl, -⟩
      · exact hG.apart q m q' m' tag expiration expiration' (hold hm hb) (hold hm' hb') hb hb'
      · exact absurd hb (hother (hold hm hb))
    · rcases h q' m' tag expiration' hb' with hb' | ⟨rfl, rfl, -, -⟩
      · exact absurd (htag ▸ hb') (hother (hold hm' hb'))
      · exact ⟨rfl, rfl⟩

theorem createMessage_posts {data expiration : ℕ} (hC : C expiration) : wp
    (withStock q (Stock.createMessage data (makeMessageTag s.msgCounter s.nowTimems) expiration))
    (fun _ t => Posts C s t) Fault.Any { s with msgCounter := s.msgCounter + 1 } := by
  cases hx : s.queueAt q with
  | none => simp [wp, withStock, hx, Fault.Any]
  | some x =>
    refine wp_withStock (s := { s with msgCounter := s.msgCounter + 1 }) hx ?_
    refine posts_of_created (p := q) (n := x.backlog.fresh) rfl rfl hC ?_
    rintro p m tag expiration' ⟨y, msg, hy, hmsg, htag, hexp⟩
    dsimp only at hy
    by_cases hp : p = q
    · subst hp
      rw [Function.update_self] at hy
      obtain rfl := Option.some.inj hy
      dsimp only [Stock.modifyBacklog] at hmsg
      by_cases hm : m = x.backlog.fresh
      · subst hm
        rw [Function.update_self] at hmsg
        obtain rfl := Option.some.inj hmsg
        exact .inr ⟨rfl, rfl, htag.symm, hexp.symm⟩
      · rw [Function.update_of_ne hm] at hmsg
        exact .inl ⟨x, msg, hx, hmsg, htag, hexp⟩
    · rw [Function.update_of_ne hp] at hy
      exact .inl ⟨y, msg, hy, hmsg, htag, hexp⟩

theorem enqueueMessage_wanes (m : Ptr) : Keeps Wanes Fault.Any (enqueueMessage q m) := by
  have hstore : Keeps Wanes Fault.Any (do
      withStock q (Stock.storeMessage m)
      pure true) := keeps_bind (withStock_wanes ((Stock.fades_local _).storeMessage _)) fun _ => keeps_pure _
  exact keeps_bind getQueue_any fun _ => keeps_ite (fun _ => keeps_ite (fun _ => keeps_bind keeps_get fun _ =>
    keeps_bind (withStock_wanes (Stock.popMessageQueueT_fades False.elim)) fun _ => hstore)
      fun _ => keeps_pure _) fun _ => hstore

theorem pushMessageQueueT_posts (q data : Ptr) {expiration : ℕ} (hC : C expiration) :
    Keeps (Posts C) Fault.Any (pushMessageQueueT q data expiration) := fun s => by
  rw [pushMessageQueueT, wp_bind, wp_get, wp_bind, wp_modify, wp_bind]
  refine wp_mono (createMessage_posts hC) (fun m t ht => ?_) fun _ h => h
  have hrest : Keeps Wanes Fault.Any (do
      let size ← objectSize data
      if (← getQueue q).maxMsgSize < size then pure false
      else if ← processSubscribedClients q m then
        withStock q (Stock.releaseMessage m)
        pure true
      else enqueueMessage q m) :=
    keeps_bind (objectSize_any data) fun _ => keeps_bind getQueue_any fun _ =>
      keeps_ite (fun _ => keeps_pure _) fun _ =>
      keeps_bind (fun u => wp_mono (processSubscribedClients_answers any_stock (.inl trivial))
        (fun _ _ hu => hu.wanes)
        fun _ h => h) fun _ => keeps_ite
          (fun _ => keeps_bind (withStock_wanes ((Stock.fades_local _).releaseMessage _))
          fun _ => keeps_pure _)
        fun _ => enqueueMessage_wanes m
  exact wp_mono (hrest t) (fun _ u hu => IsTrans.trans (r := Posts C) _ _ _ ht hu.posts) fun _ h => h

/-! ### Steps -/

/-- The time to wait that a push command asks for. -/
def Asks (req : Request) (expire : ℕ) : Prop :=
  req.cmd = Cmd.queuePush ∧ expire = req.u32 72 ∨ req.cmd = Cmd.routePush ∧ expire = req.u32 104

/-- The expiration that a push command gives its messages. -/
def Issued (s : EagleServer) (req : Request) (expiration : ℕ) : Prop :=
  ∃ expire, Asks req expire ∧ expiration = absoluteExpiration s.nowTimems expire

theorem respond_wanes (c : Ptr) (req : Request) (status : Byte) :
    Keeps Wanes Fault.Any (respond c req status) :=
  answers_wanes (addStatusResponse_answers any_stock _ _)

/-- The end of a push command, which reports the result. -/
theorem reportResult_posts {m : ServerM Bool} (h : wp m (fun _ u => Posts C s u) Fault.Any t) :
    wp (reportResult c req m) (fun _ u => Posts C s u) Fault.Any t := by
  rw [reportResult, wp_bind]
  refine wp_mono h (fun ok u hu => ?_) fun _ h => h
  have hend : ∀ status, wp (respond c req status) (fun _ v => Posts C s v) Fault.Any u := fun status =>
    wp_mono (respond_wanes c req status u)
      (fun _ v hv => IsTrans.trans (r := Posts C) _ _ _ hu hv.posts) fun _ h => h
  exact wp_ite (fun _ => hend _) fun _ => hend _

theorem pushToQueue_posts (hcmd : req.cmd = Cmd.queuePush) :
    wp (pushToQueue c req q) (fun _ t => Posts (Issued s req) s t) Fault.Any s := by
  rw [pushToQueue, wp_bind]
  refine wp_mono (answers_wanes (createObject_answers _) s) (fun o t ht => reportResult_posts ?_) fun _ h => h
  have hC : Issued s req (absoluteExpiration t.nowTimems (req.u32 72)) :=
    ⟨_, .inl ⟨hcmd, rfl⟩, by rw [ht.time]⟩
  rw [wp_bind, wp_get]
  refine wp_mono (pushMessageQueueT_posts q o hC t) (fun _ u hu => ?_) fun _ h => h
  exact IsTrans.trans (r := Posts (Issued s req)) _ _ _ ht.posts hu

theorem pushToRoute_posts {r : Ptr} {key : Name} (hcmd : req.cmd = Cmd.routePush) :
    wp (pushToRoute c req r key) (fun _ t => Posts (Issued s req) s t) Fault.Any s := by
  rw [pushToRoute, wp_bind]
  refine wp_mono (answers_wanes (createObject_answers _) s) (fun o t ht => ?_) fun _ h => h
  rw [wp_bind]
  refine wp_mono (answers_wanes (resetRefcount_answers any_stock o) t)
    (fun _ u hu => reportResult_posts ?_) fun _ h => h
  have htu : Wanes s u := IsTrans.trans _ _ _ ht hu
  rw [wp_bind, wp_get]
  have hC : Issued s req (absoluteExpiration u.nowTimems (req.u32 104)) :=
    ⟨_, .inr ⟨hcmd, rfl⟩, by rw [htu.time]⟩
  have hupheld : Upheld (Posts (Issued s req)) := upheld_wanes.mono fun _ _ h => h.posts
  refine wp_mono (pushMessageRouteT_upheld hupheld key o _ (fun q => pushMessageQueueT_posts q o hC)
    u) (fun _ v hv => ?_)
    fun _ h => h
  exact IsTrans.trans (r := Posts (Issued s req)) _ _ _ htu.posts hv

theorem createQueueT_wanes (name : Name) (maxMsg maxMsgSize flags : ℕ) :
    Keeps Wanes Fault.Any (createQueueT name maxMsg maxMsgSize flags) := by
  refine keeps_bind keeps_get fun u => keeps_bind (keeps_modify _ fun s => ⟨rfl, rfl, ?_⟩) fun _ =>
    keeps_pure _
  rintro p m tag expiration ⟨y, msg, hy, hmsg, hmarks⟩
  dsimp only at hy
  by_cases hp : p = u.fresh
  · rw [hp, Function.update_self] at hy
    obtain rfl := Option.some.inj hy
    exact nomatch hmsg
  · rw [Function.update_of_ne hp] at hy
    exact ⟨y, msg, hy, hmsg, hmarks⟩

theorem renameQueueT_wanes (name : Name) : Keeps Wanes Fault.Any (renameQueueT q name) := fun s => by
  cases hx : s.queueAt q with
  | none => simp [renameQueueT, modifyQueue, getQueue, hx, Fault.Any]
  | some x =>
    refine wp_modifyQueue ⟨x, hx, wanes_of_queues (fun p y hy => ?_) rfl rfl⟩
    by_cases hp : p = q
    · subst hp
      rw [EagleServer.setQueue_queueAt] at hy
      exact ⟨x, hx, by rw [← Option.some.inj hy]⟩
    · exact ⟨y, by simpa [EagleServer.setQueue, hp] using hy, rfl⟩

theorem passive_wanes : Passive Wanes where
  toUpheld := upheld_wanes
  answers _ _ h := h.wanes
  same _ _ := wanes_same

theorem Serves.posts {m : ServerM Unit} (hm : Serves s c req m) :
    wp m (fun _ t => Posts (Issued s req) s t) Fault.Any s := by
  cases hm with
  | create name maxMsg maxMsgSize flags =>
    have hcreate : Keeps Wanes Fault.Any (createQueue c req name maxMsg maxMsgSize flags) :=
      keeps_bind (createQueueT_wanes name maxMsg maxMsgSize flags) fun _ =>
        keeps_bind (keeps_modify _ fun s => wanes_same rfl rfl rfl) fun _ => respond_wanes c req _
    exact wanes_posts hcreate s
  | rename q name => exact wanes_posts (keeps_bind (renameQueueT_wanes name) fun _ => respond_wanes c req _) s
  | push q hcmd => exact pushToQueue_posts hcmd
  | pop q =>
    refine wanes_posts (keeps_bind (same_wanes (withStock_same getMessageQueueT_same)) fun m => ?_) s
    cases m with
    | none => exact respond_wanes c req _
    | some m =>
      exact keeps_bind (answers_wanes (messageResponse_answers q m)) fun _ => keeps_bind keeps_get fun _ =>
        withStock_wanes (Stock.popMessageQueueT_fades False.elim)
  | confirm q =>
    exact wanes_posts (keeps_bind (withStock_wanes ((Stock.fades_local _).confirmMessageQueueT _)) fun _ =>
      keeps_ite (fun _ => respond_wanes c req _) fun _ => respond_wanes c req _) s
  | purge q =>
    exact wanes_posts (keeps_bind (withStock_wanes (Stock.fades_local _).purgeQueueT)
      fun _ => respond_wanes c req _) s
  | route r key hcmd => exact pushToRoute_posts hcmd

/-- A step creates messages for a request only, and a tick none. -/
theorem step_posts [Lzf] {op : Op} (h : Related .none s) (ha : Enabled s op) (ht : step s op = .ok t) :
    Wanes s t ∨ op = .tick ∨ ∃ c req, op = .request c req ∧ Posts (Issued s req) s t := by
  refine (step_passive passive_wanes h ha ht).imp_right
    (.imp_right fun ⟨c, req, x, noack, m, hop, hx, hm, hrun⟩ => ?_)
  have hclient : Wanes s (s.setClient c { x with noack := noack }) := wanes_same rfl rfl rfl
  have hposts := ok_of_wp (Q := fun _ t => Posts _ _ t) hm.posts hrun
  exact ⟨c, req, hop, IsTrans.trans (r := Posts (Issued s req)) _ _ _ hclient.posts hposts⟩

/-- A tick reads the clock and starts the counter again. -/
theorem tick_wanes [Lzf] (ht : step s .tick = .ok t) :
    Wanes { s with nowTime := s.env.time, nowTimems := s.env.mstime, msgCounter := 0 } t := by
  have hqueues : Keeps Wanes Fault.Any processQueuesMessages := keeps_bind keeps_get fun u =>
    keeps_forM (fun q => keeps_bind keeps_get fun _ => keeps_bind
      (withStock_wanes ((Stock.fades_local _).processExpiredMessagesQueueT _)) fun _ =>
        withStock_wanes ((Stock.fades_local _).processUnconfirmedMessagesQueueT _)) u.queues
  have hrest : Keeps Wanes Fault.Any (do
      checkMemory
      clientTimeouts
      processQueuesMessages
      storageTimeouts) :=
    keeps_bind passive_wanes.checkMemory fun _ => keeps_bind passive_wanes.clientTimeouts fun _ =>
      keeps_bind hqueues fun _ => passive_wanes.storageTimeouts
  exact ok_of_wp (Q := fun _ t => Wanes _ t) (hrest _) (step_eq_ok.mp ht)

end Wanes

end EagleMQ
