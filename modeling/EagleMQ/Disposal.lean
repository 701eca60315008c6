import EagleMQ.AutoDelete
import EagleMQ.Links.Loading
import EagleMQ.Consistency

/-! The ends of queues, routes and channels. Whatever takes a record away runs its
destructor once. At shutdown a list calls the destructors of its records without
taking them off, which does no harm unless a channel deletes itself on the way. -/

namespace EagleMQ

open Prog

/-! ### Once and no more -/

/-- Destructors have run once at most, and on records that are no longer there. -/
structure Once (s : EagleServer) : Prop where
  count : ∀ (K : Kind) p, s.destroyed.count (K, p) ≤ 1
  gone : ∀ (K : Kind) p, (K, p) ∈ s.destroyed → K.tag s p = none
  destroyed_below : ∀ (K : Kind) p, (K, p) ∈ s.destroyed → p < s.fresh
  tag_below : ∀ (K : Kind) p, (K.tag s p).isSome = true → p < s.fresh

/-- What keeps the destructors in order. -/
def Tidy (s t : EagleServer) : Prop := Once s → Once t

instance : IsPreorder EagleServer Tidy where
  refl _ h := h
  trans _ _ _ h h' hs := h' (h hs)

section Once

variable {s t : EagleServer} {K : Kind} {p : Ptr}

theorem mem_destroyed (h : Disposes s t) :
    (K, p) ∈ t.destroyed ↔ (K, p) ∈ s.destroyed ∨ K.goes s t p = true := by
  rw [← List.count_pos_iff, ← List.count_pos_iff, h.once]
  cases K.goes s t p <;> simp

theorem Disposes.tidy (h : Disposes s t) (hn : s.fresh ≤ t.fresh) : Tidy s t := fun hs => by
  have hgone : ∀ {K : Kind} {p : Ptr}, K.goes s t p = true → K.tag t p = none ∧ (K.tag s p).isSome = true :=
    fun {K p} hg => by simpa [Kind.goes, and_comm] using hg
  refine ⟨fun K p => ?_, fun K p hp => ?_, fun K p hp => ?_, fun K p hp => ?_⟩
  · rw [h.once]
    have hc := hs.count K p
    cases hg : K.goes s t p with
    | false => simpa using hc
    | true =>
      have hnot : (K, p) ∉ s.destroyed := fun hm => by
        have hsome := (hgone hg).2
        simp [hs.gone K p hm] at hsome
      simp [List.count_eq_zero_of_not_mem hnot]
  · exact ((mem_destroyed h).mp hp).elim (fun hp => h.gone K p (hs.gone K p hp)) fun hg => (hgone hg).1
  · exact Nat.lt_of_lt_of_le (((mem_destroyed h).mp hp).elim (hs.destroyed_below K p)
      fun hg => hs.tag_below K p (hgone hg).2) hn
  · refine Nat.lt_of_lt_of_le (hs.tag_below K p ?_) hn
    cases hp' : K.tag s p with
    | none => simp [h.gone K p hp'] at hp
    | some a => rfl

theorem Endures.tidy {X : Kind → Ptr → Prop} (h : Endures X s t) : Tidy s t := h.disposes.tidy h.fresh

/-- A record is put at a fresh address, and no destructor runs. -/
theorem tidy_create (hd : t.destroyed = s.destroyed) (hn : s.fresh < t.fresh)
    (ht : ∀ (K' : Kind) p, ¬(K' = K ∧ p = s.fresh) → K'.tag t p = K'.tag s p) : Tidy s t := fun hs => by
  have hne : ∀ {K' : Kind} {p : Ptr}, p < s.fresh → K'.tag t p = K'.tag s p := fun hp =>
    ht _ _ fun h => absurd h.2 (Nat.ne_of_lt hp)
  refine ⟨fun K p => by rw [hd]; exact hs.count K p, fun K p hp => ?_, fun K p hp => ?_, fun K' p hp => ?_⟩
  · rw [hd] at hp
    rw [hne (hs.destroyed_below K p hp), hs.gone K p hp]
  · exact Nat.lt_trans (hs.destroyed_below K p (hd ▸ hp)) hn
  · by_cases hnew : K' = K ∧ p = s.fresh
    · exact hnew.2 ▸ hn
    · exact Nat.lt_trans (hs.tag_below K' p (ht K' p hnew ▸ hp)) hn

/-- Neither destructors nor records come into it. -/
theorem tidy_of_tags (hd : t.destroyed = s.destroyed) (hn : s.fresh ≤ t.fresh)
    (ht : ∀ (K : Kind) p, (K.tag t p).isSome = (K.tag s p).isSome) : Tidy s t :=
  (disposes_of_tags hd ht).tidy hn

/-! ### Steps and loads -/

theorem Turn.tidy {req : Request} (h : Turn s req t) : Tidy s t := by
  cases h with
  | same h => exact h.tidy
  | users f _ _ hd hn _ ht => exact tidy_of_tags hd hn fun K p => by rw [ht]
  | create K h => exact tidy_create h.destroyed h.fresh h.tags
  | rename K p h =>
    refine tidy_of_tags h.destroyed h.fresh fun K' p' => ?_
    by_cases hsame : K' = K ∧ p' = p
    · obtain ⟨name, -, -, htag⟩ := h.name
      rw [hsame.1, hsame.2, htag, Option.isSome_map]
    · rw [h.tags K' p' hsame]
  | delete K p _ _ h => exact h.tidy
  | flush _ _ _ h =>
    refine fun hs => h.tidy ?_
    obtain ⟨hcount, hgone, hbelow, htag⟩ := hs
    have hsame : ∀ K : Kind, K.tag { s with users := t.users } = K.tag s := fun K => (list_users K s _).2
    exact ⟨hcount, fun K p hp => by rw [hsame, hgone K p hp], hbelow, fun K p hp => htag K p (hsame K ▸ hp)⟩

theorem endures_tidy {α : Type} {X : Kind → Ptr → Prop} {m : ServerM α} (h : Keeps (Endures X) Fault.Any m) :
    Keeps Tidy Fault.Any m := fun s => wp_mono (h s) (fun _ _ ht => ht.tidy) fun _ h => h

theorem loading_tidy : Loading Tidy where
  object data := endures_tidy (X := fun _ _ => False) (answers_endures (createObject_answers data))
  push _ data expiration := endures_tidy (X := fun _ _ => False) (pushMessageQueueT_endures data expiration)
  bind _ _ key := endures_tidy (X := fun _ _ => False) (bindRouteT_endures key)
  createQueue name maxMsg maxMsgSize flags s :=
    tidy_create (K := .queue) rfl (Nat.lt_succ_self _) fun K p hp => by
    cases K with
    | queue => exact tag_update_of_ne QueueT.tag fun h => hp ⟨rfl, h⟩
    | route => rfl
    | channel => rfl
  createRoute name flags s := tidy_create (K := .route) rfl (Nat.lt_succ_self _) fun K p hp => by
    cases K with
    | queue => rfl
    | route => exact tag_update_of_ne RouteT.tag fun h => hp ⟨rfl, h⟩
    | channel => rfl
  createChannel name flags s := tidy_create (K := .channel) rfl (Nat.lt_succ_self _) fun K p hp => by
    cases K with
    | queue => rfl
    | route => rfl
    | channel => exact tag_update_of_ne ChannelT.tag fun h => hp ⟨rfl, h⟩
  deleteQueue q := endures_tidy (deleteQueueT_endures (X := fun _ _ => True) trivial)
  deleteRoute r := endures_tidy (deleteRouteT_endures (X := fun _ _ => True) trivial)
  enlistUser s user := tidy_of_tags rfl (Nat.le_refl _) fun K _ => by cases K <;> rfl
  enlistQueue s q := tidy_of_tags rfl (Nat.le_refl _) fun K _ => by cases K <;> rfl
  enlistRoute s r := tidy_of_tags rfl (Nat.le_refl _) fun K _ => by cases K <;> rfl
  enlistChannel s ch := tidy_of_tags rfl (Nat.le_refl _) fun K _ => by cases K <;> rfl

variable [Lzf]

theorem Reachable.once (h : Reachable s) : Once s := by
  have hinit : ∀ cfg env, Once (initServer cfg env) := fun cfg env =>
    ⟨fun _ _ => Nat.zero_le _, fun _ _ hp => by simp [initServer] at hp,
      fun _ _ hp => by simp [initServer] at hp, fun K p hp => by cases K <;> simp [Kind.tag, initServer] at hp⟩
  induction h with
  | start cfg env => exact hinit cfg env
  | step op hs ha ht ih =>
    rcases step_turn hs.related ha ht with hend | ⟨c, req, -, hturn⟩
    · exact hend.tidy ih
    · exact hturn.tidy ih
  | restart cfg env hs hfile ht ih =>
    exact ok_of_wp (Q := fun _ t => Tidy (initServer cfg env) t)
      (storageLoad_upheld loading_tidy _ _) ht (hinit cfg env)

end Once

/-! ### Shutdown -/

/-- The server with an empty list of records of one kind. -/
def EagleServer.unlisted (K : Kind) (s : EagleServer) : EagleServer :=
  match K with
  | .queue => { s with queues := [] }
  | .route => { s with routes := [] }
  | .channel => { s with channels := [] }

/-- No channel that deletes itself has a topic or a pattern. -/
def Resting (s : EagleServer) : Prop :=
  ∀ ch x, s.channelAt ch = some x → x.autoDelete = true → x.topics = [] ∧ x.patterns = []

/-- It makes no difference that a list is empty. -/
abbrev Unnoticed {α : Type} (K : Kind) (m : ServerM α) : Prop := Blind (EagleServer.unlisted K) Resting m

section Shutdown

variable {K : Kind} {s t : EagleServer} {c q r ch : Ptr}

theorem unlisted_records (K : Kind) (s : EagleServer) : (s.unlisted K).clientAt = s.clientAt ∧
    (s.unlisted K).queueAt = s.queueAt ∧ (s.unlisted K).routeAt = s.routeAt ∧
    (s.unlisted K).channelAt = s.channelAt ∧ (s.unlisted K).objects = s.objects := by
  cases K <;> exact ⟨rfl, rfl, rfl, rfl, rfl⟩

theorem record_unnoticed {α : Type} {m : ServerM α} {records : EagleServer → Heap α} {p : Ptr}
    (h : ∀ s, records (s.unlisted K) = records s) (hm : ∀ s x, records s p = some x → m s = .ok (x, s))
    (hm' : ∀ s, records s p = none → m s = .error .record) : Unnoticed K m := by
  refine blind_reads (g := fun s => (records s p).elim (.error .record) .ok) (fun s => ?_) fun s => by rw [h]
  cases hx : records s p with
  | none => exact hm' s hx
  | some x => exact hm s x hx

theorem getClient_unnoticed : Unnoticed K (getClient c) :=
  record_unnoticed (fun s => (unlisted_records K s).1) (fun _ _ hx => run_getClient hx) fun s hx =>
    error_of_wp (by simp [getClient, hx])

theorem getQueue_unnoticed : Unnoticed K (getQueue q) :=
  record_unnoticed (fun s => (unlisted_records K s).2.1) (fun _ _ hx => run_getQueue hx) fun s hx =>
    error_of_wp (by simp [getQueue, hx])

theorem getRoute_unnoticed : Unnoticed K (getRoute r) :=
  record_unnoticed (fun s => (unlisted_records K s).2.2.1) (fun _ _ hx => run_getRoute hx) fun s hx =>
    error_of_wp (by simp [getRoute, hx])

theorem getChannel_unnoticed : Unnoticed K (getChannel ch) :=
  record_unnoticed (fun s => (unlisted_records K s).2.2.2.1) (fun _ _ hx => run_getChannel hx) fun s hx =>
    error_of_wp (by simp [getChannel, hx])

/-- The lists are not looked at, and channels are left alone. -/
theorem modify_unnoticed {f : EagleServer → EagleServer} (hf : ∀ s, f (s.unlisted K) = (f s).unlisted K)
    (hch : ∀ s, (f s).channelAt = s.channelAt) : Unnoticed K (modify f : ServerM Unit) :=
  blind_modify hf fun s hs ch x hx => hs ch x (by rwa [hch] at hx)

theorem modifyClient_unnoticed (f : EagleClient → EagleClient) : Unnoticed K (modifyClient c f) :=
  blind_bind getClient_unnoticed fun _ => modify_unnoticed (fun s => by cases K <;> rfl) fun _ => rfl

theorem modifyQueue_unnoticed (f : QueueT → QueueT) : Unnoticed K (modifyQueue q f) :=
  blind_bind getQueue_unnoticed fun _ => modify_unnoticed (fun s => by cases K <;> rfl) fun _ => rfl

theorem modifyRoute_unnoticed (f : RouteT → RouteT) : Unnoticed K (modifyRoute r f) :=
  blind_bind getRoute_unnoticed fun _ => modify_unnoticed (fun s => by cases K <;> rfl) fun _ => rfl

theorem withStock_unnoticed {α : Type} (m : StockM α) : Unnoticed K (withStock q m) := fun s hs => by
  obtain ⟨-, hq, -, -, ho⟩ := unlisted_records K s
  unfold withStock
  rw [hq, ho]
  cases s.queueAt q with
  | none => exact ⟨rfl, fun x hx => by cases hx⟩
  | some y =>
    dsimp only
    cases m ⟨y.backlog, s.objects⟩ with
    | error e => exact ⟨rfl, fun x hx => by cases hx⟩
    | ok z =>
      refine ⟨by cases K <;> rfl, fun x hx => ?_⟩
      cases hx
      exact hs

theorem deleteRouteT_unnoticed : Unnoticed K (deleteRouteT r) :=
  blind_bind getRoute_unnoticed fun x => blind_bind
    (blind_forM (fun _ => blind_forM (fun q => modifyQueue_unnoticed _) _) _) fun _ =>
      modify_unnoticed (fun s => by cases K <;> rfl) fun _ => rfl

theorem listDeleteRoute_unnoticed (hK : K ≠ .route) : Unnoticed K (listDeleteRoute r) := fun s hs => by
  have hlist : (s.unlisted K).routes = s.routes := by
    cases K with
    | route => exact absurd rfl hK
    | queue => rfl
    | channel => rfl
  have hmodify : Unnoticed K (modify fun s => { s with routes := s.routes.erase r } : ServerM Unit) :=
    modify_unnoticed (fun s => by
      cases K with
      | route => exact absurd rfl hK
      | queue => rfl
      | channel => rfl) fun _ => rfl
  have hdelete : Unnoticed K (do
      modify fun s => { s with routes := s.routes.erase r }
      deleteRouteT r
      pure true : ServerM Bool) :=
    blind_bind hmodify fun _ => blind_bind deleteRouteT_unnoticed fun _ => blind_pure _
  have hrun : ∀ t, listDeleteRoute r t = (if r ∈ t.routes then (do
      modify fun s => { s with routes := s.routes.erase r }
      deleteRouteT r
      pure true) else pure false : ServerM Bool) t := fun _ => rfl
  rw [hrun, hrun, hlist]
  exact blind_ite hdelete (blind_pure _) s hs

theorem unbindRouteT_unnoticed (hK : K ≠ .route) (key : Name) : Unnoticed K (unbindRouteT r q key) :=
  blind_bind getRoute_unnoticed fun _ => blind_ite (blind_bind (modifyRoute_unnoticed _) fun _ =>
    blind_bind (modifyQueue_unnoticed _) fun _ => blind_bind getRoute_unnoticed fun _ => blind_ite
      (blind_bind (listDeleteRoute_unnoticed hK) fun _ => blind_pure _) (blind_pure _)) (blind_pure _)

theorem deleteQueueT_unnoticed (hK : K ≠ .route) : Unnoticed K (deleteQueueT q) := by
  have hread : ∀ {α : Type} (f : QueueT → α), Unnoticed K (do pure (f (← getQueue q)) : ServerM α) :=
    fun f => blind_bind getQueue_unnoticed fun _ => blind_pure _
  have hsubscribers : ∀ list set, Unnoticed K (ejectSubscribers q list set) := fun list set =>
    blind_foreach (hread list) fun c => blind_bind (modifyClient_unnoticed _) fun _ => modifyQueue_unnoticed _
  refine blind_bind (blind_bind (blind_foreach (hread _) fun c => blind_bind (modifyClient_unnoticed _)
    fun _ => modifyQueue_unnoticed _) fun _ => blind_bind (hsubscribers _ _) fun _ => hsubscribers _
    _) fun _ => ?_
  refine blind_bind (blind_foreach (hread _) fun key => blind_foreach (hread _) fun r =>
    blind_bind (unbindRouteT_unnoticed hK key) fun _ => blind_pure _) fun _ => ?_
  exact blind_bind (withStock_unnoticed _) fun _ => modify_unnoticed (fun s => by cases K <;> rfl)
    fun _ => rfl

/-! ### The shutdown of channels -/

/-- A channel that deletes itself is as idle as it was. -/
theorem modifyChannel_unnoticed {f : ChannelT → ChannelT}
    (hf : ∀ x, (x.autoDelete = true → x.topics = [] ∧ x.patterns = []) →
      (f x).autoDelete = true → (f x).topics = [] ∧ (f x).patterns = []) :
    Unnoticed K (modifyChannel ch f) := fun s hs => by
  have hrun : ∀ t x, t.channelAt ch = some x → modifyChannel ch f t = .ok ((), t.setChannel ch (f x)) :=
    fun t x hx => by rw [modifyChannel, bind_run (run_getChannel hx)]; rfl
  have herr : ∀ t, t.channelAt ch = none → modifyChannel ch f t = .error .record := fun t hx =>
    error_of_wp (by simp [modifyChannel, getChannel, hx])
  have hsame := (unlisted_records K s).2.2.2.1
  cases hx : s.channelAt ch with
  | none =>
    rw [herr _ hx, herr _ ((congrFun hsame ch).trans hx)]
    exact ⟨rfl, fun x hx => by cases hx⟩
  | some x =>
    rw [hrun _ x hx, hrun _ x ((congrFun hsame ch).trans hx)]
    refine ⟨by cases K <;> rfl, fun y hy ch' z hz => ?_⟩
    cases hy
    by_cases hch : ch' = ch
    · subst hch
      rw [EagleServer.setChannel_channelAt] at hz
      cases hz
      exact hf x (hs _ x hx)
    · exact hs ch' z ((Function.update_of_ne hch ..).symm.trans hz)

/-- `unsubscribe_channel_t` up to the test of the flag. -/
def detachSide (d : Side) (ch c : Ptr) (name : Name) : ServerM Bool := do
  match findNode ((← getChannel ch).side d) name with
  | none => pure false
  | some node =>
    modifyChannel ch fun x => x.setSide d ((x.side d).remove node c)
    removeKeylistChannelT d c ch node
    let _ ← getChannel ch
    pure true

theorem channel_of_run {y : ChannelT} (h : getChannel ch s = .ok (y, t)) :
    s.channelAt ch = some y ∧ s = t := by
  cases hx : s.channelAt ch with
  | none =>
    exact (ok_of_wp (Q := fun _ _ => False) (E := Fault.Any) (by simp [getChannel, hx, Fault.Any]) h).elim
  | some x =>
    rw [run_getChannel hx] at h
    cases h
    exact ⟨rfl, rfl⟩

/-- A channel that is left by a client does not delete itself, for then it would be idle. -/
theorem unsubscribeWith_resting {destroy : Ptr → ServerM Unit} {d : Side} {name : Name} (h : Resting s) :
    unsubscribeWith destroy d ch c name s = detachSide d ch c name s := by
  refine bind_congr fun y t hy => ?_
  obtain ⟨hx, rfl⟩ := channel_of_run hy
  cases hf : findNode (y.side d) name with
  | none => rfl
  | some node =>
    have hauto : y.autoDelete = false := by
      by_contra hauto
      obtain ⟨ht, hp⟩ := h ch y hx (by simpa using hauto)
      cases d <;> simp [ChannelT.side, ht, hp, findNode, Keylist.keys] at hf
    refine bind_congr fun _ u hu => bind_congr fun _ v hv => bind_congr fun z w hz => ?_
    -- neither the removal nor what follows it touches the flag
    have hflag : ∀ x, v.channelAt ch = some x → x.autoDelete = false := by
      have hset : u = s.setChannel ch (y.setSide d ((y.side d).remove node c)) :=
        ok_of_wp (Q := fun _ u => u = s.setChannel ch (y.setSide d ((y.side d).remove node c)))
          (E := Fault.Any) (wp_modifyChannel ⟨y, hx, rfl⟩) hu
      have hkeep : v.channelAt = u.channelAt := by
        refine ok_of_wp (Q := fun _ v => v.channelAt = u.channelAt) (E := Fault.Any) ?_ hv
        cases hc : u.clientAt c with
        | none => simp [removeKeylistChannelT, modifyClient, getClient, hc, Fault.Any]
        | some x => exact wp_modifyClient ⟨x, hc, rfl⟩
      intro x hvx
      rw [hkeep, hset, EagleServer.setChannel_channelAt] at hvx
      cases hvx
      cases d <;> exact hauto
    obtain ⟨hvz, rfl⟩ := channel_of_run hz
    rw [if_neg fun hdel => by simp [hflag z hvz] at hdel]

theorem resting_unlisted (h : Resting s) : Resting (s.unlisted K) := fun ch x hx =>
  h ch x (by rwa [(unlisted_records K s).2.2.2.1] at hx)

theorem unsubscribeWith_unnoticed (destroy : Ptr → ServerM Unit) (d : Side) (name : Name) :
    Unnoticed K (unsubscribeWith destroy d ch c name) := by
  refine blind_congr (n := detachSide d ch c name) ?_ (fun _ hs => resting_unlisted hs)
    fun _ hs => unsubscribeWith_resting hs
  refine blind_bind getChannel_unnoticed fun x => ?_
  cases findNode (x.side d) name with
  | none => exact blind_pure _
  | some node =>
    refine blind_bind (modifyChannel_unnoticed fun x hx hauto => ?_) fun _ =>
      blind_bind (modifyClient_unnoticed _) fun _ => blind_bind getChannel_unnoticed fun _ => blind_pure _
    cases d <;> simp [ChannelT.setSide, ChannelT.side, hx hauto, Keylist.remove, Keylist.keys]

theorem destroyChannelT_unnoticed (n : ℕ) : Unnoticed K (destroyChannelT n ch) := by
  have hside : ∀ (destroy : Ptr → ServerM Unit) (d : Side), Unnoticed K (ejectSide destroy d ch) :=
    fun destroy d =>
    blind_foreach (blind_bind getChannel_unnoticed fun _ => blind_pure _) fun node =>
      blind_foreach (blind_bind getChannel_unnoticed fun _ => blind_pure _) fun c =>
        blind_bind (unsubscribeWith_unnoticed destroy d node.2) fun _ => blind_pure _
  cases n with
  | zero => exact blind_throw _
  | succ n =>
    exact blind_bind (hside _ _) fun _ => blind_bind (hside _ _) fun _ =>
      blind_bind getChannel_unnoticed fun _ =>
      blind_modify (fun s => by cases K <;> rfl) fun s hs ch' x hx => by
        by_cases hch : ch' = ch
        · subst hch; simp [EagleServer.freeChannel] at hx
        · exact hs ch' x ((Function.update_of_ne hch ..).symm.trans hx)

/-! ### The release of the lists -/

namespace Kind

def roster : Kind → Links → Roster
  | queue, L => L.queues
  | route, L => L.routes
  | channel, L => L.channels

/-- Records of one kind are off their list. -/
def loose : Kind → Set Ptr → Loose
  | queue, X => { Loose.none with queues := X }
  | route, X => { Loose.none with routes := X }
  | channel, X => { Loose.none with channels := X }

end Kind

theorem Roster.Ok.release {r : Roster} (h : r.Ok ∅) : Roster.Ok { r with list := [] } {p | p ∈ r.list} := by
  refine ⟨List.nodup_nil, fun p => ?_⟩
  have hp := h.mem p
  simp only [Set.mem_empty_iff_false, not_false_eq_true, and_true] at hp
  simp [hp]

theorem Related.release (h : Related .none s) (K : Kind) :
    Related (K.loose {p | p ∈ K.list s}) (s.unlisted K) := by
  obtain ⟨hc, hb⟩ := h
  cases K with
  | queue =>
    exact ⟨{ hc with
      queues := hc.queues.release
      within := fun c q hq _ => hc.within c q hq (by simp [Loose.none]) },
      { hb with }⟩
  | route => exact ⟨{ hc with routes := hc.routes.release }, { hb with }⟩
  | channel => exact ⟨{ hc with channels := hc.channels.release }, { hb with }⟩

/-- The destructors run one after the other on the records of a list, all of which
are off the list in the state that `f` shows. -/
theorem release_spec {f : EagleServer → EagleServer} {destroy : Ptr → ServerM Unit}
    (hdestroy : ∀ p (X : Set Ptr) t, Resting t → Related (K.loose (insert p X)) (f t) →
      (K.roster (links (f t))).alive p = true → wp (destroy p) (fun _ u => Related (K.loose X) (f u) ∧
        K.roster (links (f u)) = (K.roster (links (f t))).free p ∧ Resting u) Fault.Outside t)
    {l : List Ptr} (hs : Resting s) (h : Related (K.loose {p | p ∈ l}) (f s)) (hl : l.Nodup)
    (halive : ∀ p ∈ l, (K.roster (links (f s))).alive p = true) :
    wp (l.forM destroy) (fun _ t => Resting t ∧ Related .none (f t)) Fault.Outside s := by
  refine wp_mono (wp_forM (fun rest t => Resting t ∧ Related (K.loose {p | p ∈ rest}) (f t) ∧ rest.Nodup ∧
    ∀ p ∈ rest, (K.roster (links (f t))).alive p = true) destroy ?_ l s ⟨hs, h, hl, halive⟩)
    (fun _ t ⟨ht, hr, _⟩ => ⟨ht, ?_⟩) fun _ h => h
  · rintro p rest t ⟨ht, hr, hn, ha⟩
    have hset : {q | q ∈ p :: rest} = insert p {q | q ∈ rest} := by ext q; simp
    rw [hset] at hr
    refine wp_mono (hdestroy p _ t ht hr (ha p (List.mem_cons_self ..))) (fun _ u ⟨hu, hroster, hrest⟩ =>
      ⟨hrest, hu, (List.nodup_cons.mp hn).2, fun q hq => ?_⟩) fun _ h => h
    have hne : q ≠ p := fun h => (List.nodup_cons.mp hn).1 (h ▸ hq)
    rw [hroster]
    simpa [Roster.free, hne] using ha q (List.mem_cons_of_mem _ hq)
  · have hset : {q | q ∈ ([] : List Ptr)} = (∅ : Set Ptr) := by ext q; simp
    rw [hset] at hr
    cases K <;> exact hr

theorem roster_alive (h : Related .none s) :
    ∀ p ∈ K.list s, (K.roster (links (s.unlisted K))).alive p = true := by
  intro p hp
  cases K with
  | queue => exact h.consistent.queues.alive hp
  | route => exact h.consistent.routes.alive hp
  | channel => exact h.consistent.channels.alive hp

/-- No record is left when the lists have been released. -/
theorem destroyServerConfig_spec (h : Related .none s) (hs : Resting s) :
    wp destroyServerConfig (fun _ t => ∀ (K : Kind) p, K.tag t p = none) Fault.Outside s := by
  rw [destroyServerConfig, wp_bind, wp_get, wp_bind]
  refine wp_mono (release_spec (K := .queue) (f := EagleServer.unlisted .queue) (fun q X t ht hr hq => ?_) hs
    (h.release .queue) h.consistent.queues.nodup (roster_alive (K := .queue) h)) (fun _ t ht => ?_)
    fun _ h => h
  · exact wp_mono (wp_blind (deleteQueueT_unnoticed (by decide)) ht
      (deleteQueueT_spec (X := Kind.queue.loose X) hr hq))
      (fun _ u hu => ⟨hu.1.1, hu.1.2.2, hu.2⟩) fun _ h => h
  obtain ⟨ht, hr⟩ := ht
  rw [wp_bind, wp_get, wp_bind]
  refine wp_mono (release_spec (K := .route) (f := fun u => (u.unlisted .queue).unlisted .route)
    (fun r X u hu hr' hralive => ?_) ht (hr.release .route) hr.consistent.routes.nodup
    (roster_alive (K := .route) (s := t.unlisted .queue) hr))
    (fun _ u hu => ?_) fun _ h => h
  · refine wp_mono (wp_blind deleteRouteT_unnoticed hu (wp_mono (wp_blind deleteRouteT_unnoticed
      (resting_unlisted hu) (deleteRouteT_spec (X := Kind.route.loose X) (E := Fault.Outside) hr' hralive))
      (fun _ _ h => h) fun _ h => h)) (fun _ v hv => ⟨hv.1.1.1, ?_, hv.2⟩) fun _ h => h
    show (links _).routes = _
    rw [hv.1.1.2.agree]
    rfl
  obtain ⟨hu, hr'⟩ := hu
  rw [wp_bind, wp_get]
  refine wp_mono (release_spec (K := .channel)
    (f := fun v => ((v.unlisted .queue).unlisted .route).unlisted .channel) (fun ch X v hv hr' hch => ?_) hu
    (hr'.release .channel) hr'.consistent.channels.nodup
    (roster_alive (K := .channel) (s := (u.unlisted .queue).unlisted .route) hr')) (fun _ v hv K p => ?_)
    fun _ h => h
  · rw [deleteChannelT, wp_bind, wp_get]
    have hrests : Resting (v.unlisted .queue) ∧ Resting ((v.unlisted .queue).unlisted .route) :=
      ⟨resting_unlisted hv, resting_unlisted (resting_unlisted hv)⟩
    refine wp_mono (wp_blind (destroyChannelT_unnoticed _) hv (wp_blind (destroyChannelT_unnoticed _) hrests.1
      (wp_blind (destroyChannelT_unnoticed _) hrests.2 (destroyChannelT_spec (X := Kind.channel.loose X)
        (E := Fault.Outside) _ hr' hch)))) (fun _ w hw => ⟨hw.1.1.1.1, hw.1.1.1.2.2, hw.2⟩) fun _ h => h
  · obtain ⟨-, hr'⟩ := hv
    have hnone : ∀ {α : Type} (x : Option α), (p ∈ ([] : List Ptr) ↔ ∃ y, x = some y) → x = none :=
      fun x hx => by
      cases x with
      | none => rfl
      | some y => exact absurd (hx.mpr ⟨y, rfl⟩) (List.not_mem_nil)
    cases K with
    | queue => exact congrArg (Option.map QueueT.tag) (hnone _ (hr'.mem_queues p))
    | route => exact congrArg (Option.map RouteT.tag) (hnone _ (hr'.mem_routes p))
    | channel => exact congrArg (Option.map ChannelT.tag) (hnone _ (hr'.mem_channels p))

theorem destroyServerConfig_endures : Keeps (Endures fun _ _ => True) Fault.Any destroyServerConfig :=
  keeps_bind keeps_get fun _ => keeps_bind (keeps_forM (fun _ => deleteQueueT_endures trivial) _) fun _ =>
    keeps_bind keeps_get fun _ => keeps_bind (keeps_forM (fun _ => deleteRouteT_endures trivial) _) fun _ =>
      keeps_bind keeps_get fun _ => keeps_forM (fun ch => deleteChannelT_endures _ ch trivial) _

/-! ### Runs -/

variable [Lzf]

omit [Lzf] in
theorem Once.listed (h : Once s) (hs : Related .none s) {p : Ptr} (hp : p ∈ K.list s) :
    s.destroyed.count (K, p) = 0 := by
  obtain ⟨a, ha⟩ := hs.list_tag hp
  exact List.count_eq_zero_of_not_mem fun hd => by simp [h.gone K p hd] at ha

omit [Lzf] in
theorem Related.tag_none (h : Related .none s) {p : Ptr} (hp : p ∉ K.list s) : K.tag s p = none := by
  have hnone : ∀ {α : Type} (x : Option α), ¬(∃ y, x = some y) → x = none := fun x hx => by
    cases x with
    | none => rfl
    | some y => exact absurd ⟨y, rfl⟩ hx
  cases K with
  | queue => exact congrArg (Option.map QueueT.tag) (hnone _ fun hx => hp ((h.mem_queues p).mpr hx))
  | route => exact congrArg (Option.map RouteT.tag) (hnone _ fun hx => hp ((h.mem_routes p).mpr hx))
  | channel => exact congrArg (Option.map ChannelT.tag) (hnone _ fun hx => hp ((h.mem_channels p).mpr hx))

/-- What a step does to a record that may have been there before. -/
theorem step_disposes {op : Op} {p : Ptr} (h : Related .none s) (ha : Enabled s op) (ht : step s op = .ok t)
    (hp : p < s.fresh) : (K.tag s p = none → K.tag t p = none) ∧
      t.destroyed.count (K, p) = s.destroyed.count (K, p) + (K.goes s t p).toNat := by
  have hsame : t.destroyed = s.destroyed → (K.tag t p).isSome = (K.tag s p).isSome →
      (K.tag s p = none → K.tag t p = none) ∧
        t.destroyed.count (K, p) = s.destroyed.count (K, p) + (K.goes s t p).toNat := fun hd htag => by
    cases hs : K.tag s p <;> cases hu : K.tag t p <;> simp_all [Kind.goes]
  rcases step_turn h ha ht with hend | ⟨c, req, -, hturn⟩
  · exact ⟨hend.disposes.gone K p, hend.disposes.once K p⟩
  · cases hturn with
    | same hend => exact ⟨hend.disposes.gone K p, hend.disposes.once K p⟩
    | users f _ _ hd _ _ htag => exact hsame hd (by rw [htag])
    | create K' hc => exact hsame hc.destroyed (by rw [hc.tags K p fun h => Nat.ne_of_lt hp h.2])
    | rename K' p' hr =>
      refine hsame hr.destroyed ?_
      by_cases hren : K = K' ∧ p = p'
      · obtain ⟨name, -, -, htag⟩ := hr.name
        rw [hren.1, hren.2, htag, Option.isSome_map]
      · rw [hr.tags K p hren]
    | delete K' p' _ _ hend => exact ⟨hend.disposes.gone K p, hend.disposes.once K p⟩
    | flush _ _ _ hend =>
      have htag := (list_users K s t.users).2
      have hgoes : K.goes { s with users := t.users } t p = K.goes s t p := by rw [Kind.goes, htag, Kind.goes]
      refine ⟨fun hs => hend.disposes.gone K p (by rw [htag, hs]), ?_⟩
      rw [hend.disposes.once K p, hgoes]

/-- The destructor of a record runs when the record leaves its list. -/
theorem run_destroys {p : Ptr} (h : Reachable s) (hrun : Run Enabled step s t) (hp : p ∈ K.list s) :
    t.destroyed.count (K, p) = if p ∈ K.list t then 0 else 1 := by
  refine (hrun.invariant (fun u => Reachable u ∧ p < u.fresh ∧
    u.destroyed.count (K, p) = if p ∈ K.list u then 0 else 1)
    ⟨h, h.related.list_below hp, by rw [if_pos hp, h.once.listed h.related hp]⟩ ?_).2.2
  rintro u op v ⟨hu, hlt, hcount⟩ ha hv
  have hvr := hu.step op ha hv
  refine ⟨hvr, Nat.lt_of_lt_of_le hlt (step_fresh hu.related ha hv), ?_⟩
  obtain ⟨hgone, honce⟩ := step_disposes (K := K) hu.related ha hv hlt
  by_cases hpv : p ∈ K.list v
  · rw [if_pos hpv, hvr.once.listed hvr.related hpv]
  · have hnone := hvr.related.tag_none hpv
    rw [if_neg hpv, honce, hcount]
    by_cases hpu : p ∈ K.list u
    · obtain ⟨a, htag⟩ := hu.related.list_tag hpu
      simp [if_pos hpu, Kind.goes, htag, hnone]
    · simp [if_neg hpu, Kind.goes, hu.related.tag_none hpu]

/-- Each destructor runs once. No step reads a record whose destructor has run, and
neither does the shutdown, if no channel that deletes itself has subscribers. -/
theorem destroyed_once (h : Reachable s) :
    Once s ∧
    (∀ t, Run Enabled step s t → ∀ (K : Kind) p, p ∈ K.list s →
      t.destroyed.count (K, p) = if p ∈ K.list t then 0 else 1) ∧
    (∀ op e, Enabled s op → step s op = .error e → e.Outside) ∧
    ((∀ ch ∈ s.channels, ∀ x, s.channelAt ch = some x → x.autoDelete = true →
      x.topics = [] ∧ x.patterns = []) →
      wp destroyServerConfig (fun _ t => ∀ (K : Kind) p, p ∈ K.list s → t.destroyed.count (K, p) = 1)
        Fault.Outside s) := by
  refine ⟨h.once, fun t hrun K p hp => run_destroys h hrun hp,
    fun op e ha he => h.step_errs ha e he, fun hidle => ?_⟩
  have hrest : Resting s := fun ch x hx => hidle ch ((h.related.mem_channels ch).mpr ⟨x, hx⟩) x hx
  refine wp_mono (wp_and (destroyServerConfig_spec h.related hrest) (destroyServerConfig_endures s))
    (fun _ t ⟨hgone, hend⟩ K p hp => ?_) fun _ h => h
  obtain ⟨a, ha⟩ := h.related.list_tag hp
  rw [hend.disposes.once, h.once.listed h.related hp]
  simp [Kind.goes, ha, hgone]

omit [Lzf] in
/-- A declared queue bound to a route, a channel with a subscriber, and a channel
that deletes itself and has none. -/
theorem destroyed_once_held : ∃ s, @Reachable Lzf.stored s ∧ s.queues = [2] ∧ s.routes = [5] ∧
    s.channels = [8, 12] ∧
    (s.routeAt 5).map RouteT.keys = some [([107], [2])] ∧ (s.channelAt 8).map ChannelT.topics =
      some [((10, [116]), [0])] ∧
    wp destroyServerConfig (fun _ t => ∀ (K : Kind) p, p ∈ K.list s → t.destroyed.count (K, p) = 1)
      Fault.Outside s := by
  obtain ⟨s, hs, hp⟩ := Sample.exists_run (Sample.login 0 ++ [Sample.queueCreate 0 [113] 10 0,
      Sample.named Cmd.queueDeclare 0 [113] [], Sample.named Cmd.routeCreate 0 [114] (leBytes 4 0),
      Sample.named Cmd.routeBind 0 [114] (padded 64 [113] ++ padded 32 [107]),
      Sample.named Cmd.channelCreate 0 [99] (leBytes 4 0), Sample.named Cmd.channelSubscribe 0 [99]
        (padded 32 [116]),
      Sample.named Cmd.channelCreate 0 [100] (leBytes 4 1)])
    (p := fun s => s.queues = [2] ∧ s.routes = [5] ∧ s.channels = [8, 12] ∧
      (s.routeAt 5).map RouteT.keys = some [([107], [2])] ∧ (s.channelAt 8).map ChannelT.topics =
      some [((10, [116]), [0])] ∧
      (s.channelAt 8).map ChannelT.autoDelete = some false ∧
      (s.channelAt 12).map (fun x => (x.topics.length, x.patterns.length)) = some (0, 0))
    (by decide +kernel)
  obtain ⟨hq, hr, hch, hkeys, htopics, hkept, hidle⟩ := of_decide_eq_true hp
  refine ⟨s, hs, hq, hr, hch, hkeys, htopics,
    (@destroyed_once _ Lzf.stored hs).2.2.2 fun ch hmem x hx hauto => ?_⟩
  rw [hch, List.mem_pair] at hmem
  obtain rfl | rfl := hmem
  · simp [hx, hauto] at hkept
  · simpa [hx] using hidle

omit [Lzf] in
/-- A channel that deletes itself and has a subscriber is destroyed twice. -/
theorem destroyed_twice_subscribed : ∃ s, @Reachable Lzf.stored s ∧ s.channels = [2] ∧
    destroyServerConfig s = .error .record := by
  obtain ⟨s, hs, hp⟩ := Sample.exists_run
    (Sample.login 0 ++ [Sample.named Cmd.channelCreate 0 [113] (leBytes 4 1),
      Sample.named Cmd.channelSubscribe 0 [113] (padded 32 [116])])
    (p := fun s => s.channels = [2] ∧ (match destroyServerConfig s with
      | .error e => decide (e = .record)
      | .ok _ => false) = true) (by decide +kernel)
  obtain ⟨hch, hrun⟩ := of_decide_eq_true hp
  refine ⟨s, hs, hch, ?_⟩
  cases h : destroyServerConfig s with
  | ok r => simp [h] at hrun
  | error e => exact congrArg Except.error (by simpa [h] using hrun)

end Shutdown

end EagleMQ
