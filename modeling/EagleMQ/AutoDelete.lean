import EagleMQ.Turns

/-! Records that delete themselves. A record with the flag that has been used goes
away with its last use, so as long as it is on its list it is in use; a record
without the flag goes away by a command alone. -/

namespace EagleMQ

open Prog

variable [Lzf] {s t u : EagleServer} {K : Kind} {p : Ptr}

/-- The command that deletes a record, or a flush of all records of its kind. -/
def Removes (K : Kind) (s : EagleServer) (p : Ptr) (op : Op) : Prop :=
  ∃ c req, op = .request c req ∧
    (req.cmd = K.deleteCmd ∧ Names req (K.nameOf s) (K.list s) p ∨
      req.cmd = Cmd.flush ∧ bitCheck (req.u32 8) K.flushBit = true)

omit [Lzf] in
theorem Related.list_tag (h : Related .none s) (hp : p ∈ K.list s) : ∃ a, K.tag s p = some a := by
  cases K with
  | queue =>
    obtain ⟨x, hx⟩ := queue_alive.mp (h.consistent.queues.alive hp)
    exact ⟨x.tag, congrArg (Option.map QueueT.tag) hx⟩
  | route =>
    obtain ⟨x, hx⟩ := route_alive.mp (h.consistent.routes.alive hp)
    exact ⟨x.tag, congrArg (Option.map RouteT.tag) hx⟩
  | channel =>
    obtain ⟨x, hx⟩ := channel_alive.mp (h.consistent.channels.alive hp)
    exact ⟨x.tag, congrArg (Option.map ChannelT.tag) hx⟩

omit [Lzf] in
theorem Related.list_nodup (h : Related .none s) (K : Kind) : (K.list s).Nodup := by
  cases K with
  | queue => exact h.consistent.queues.nodup
  | route => exact h.consistent.routes.nodup
  | channel => exact h.consistent.channels.nodup

omit [Lzf] in
theorem Related.list_below (h : Related .none s) (hp : p ∈ K.list s) : p < s.fresh := by
  cases K with
  | queue => exact h.below.queues p (h.consistent.queues.alive hp)
  | route => exact h.below.routes p (h.consistent.routes.alive hp)
  | channel => exact h.below.channels p (h.consistent.channels.alive hp)

omit [Lzf] in
theorem list_users (K : Kind) (s : EagleServer) (users : List EagleUser) :
    K.list { s with users := users } = K.list s ∧ K.tag { s with users := users } = K.tag s := by
  cases K <;> exact ⟨rfl, rfl⟩

/-- The record is the one it was and has not gone out of use on its list. -/
def StillUsed (K : Kind) (p : Ptr) (s t : EagleServer) : Prop :=
  ∀ a, K.tag s p = some a → ∃ b, K.tag t p = some b ∧ b.autoDelete = a.autoDelete ∧
    (a.autoDelete = true → a.used = true → b.used = true)

omit [Lzf] in
/-- What records that are not excepted keep. -/
theorem Endures.stillUsed {X : Kind → Ptr → Prop} {l : List EagleUser}
    (h : Endures X { s with users := l } t) (hs : Related .none s) (hp : p ∈ K.list t) (hX : ¬X K p) :
    p ∈ K.list s ∧ StillUsed K p s t := by
  obtain ⟨hl, ht⟩ := list_users K s l
  have hmem : p ∈ K.list s := hl ▸ (h.sub K).subset hp
  refine ⟨hmem, fun a ha => ?_⟩
  obtain ⟨b, hb, hab⟩ := (h.stay K (hl ▸ hs.list_nodup K) p (hl ▸ hmem) hX a (ht ▸ ha)).1 hp
  exact ⟨b, hb, hab.autoDelete, hab.used⟩

omit [Lzf] in
theorem Endures.stays {X : Kind → Ptr → Prop} {l : List EagleUser}
    (h : Endures X { s with users := l } t) (hs : Related .none s) (hp : p ∈ K.list s) (hX : ¬X K p)
    {a : Tag} (ha : K.tag s p = some a) (hauto : a.autoDelete = false) : p ∈ K.list t := by
  obtain ⟨hl, ht⟩ := list_users K s l
  exact (h.stay K (hl ▸ hs.list_nodup K) p (hl ▸ hp) hX a (ht ▸ ha)).2 hauto

/-- A record on a list after a step was there before and has lasted, or is new. -/
theorem step_stillUsed {op : Op} (h : Related .none s) (ha : Enabled s op) (ht : step s op = .ok t)
    (hp : p ∈ K.list t) : p ∈ K.list s ∧ StillUsed K p s t ∨ p = s.fresh := by
  have hall : ∀ {X}, Endures X s t → ¬X K p → p ∈ K.list s ∧ StillUsed K p s t := fun hend hX =>
    Endures.stillUsed (l := s.users) hend h hp hX
  rcases step_turn h ha ht with hend | ⟨c, req, -, hturn⟩
  · exact .inl (hall hend id)
  · cases hturn with
    | same hend => exact .inl (hall hend id)
    | users f _ _ _ _ hl htag =>
      exact .inl ⟨hl K ▸ hp, fun a ha => ⟨a, by rw [htag, ha], rfl, fun _ h => h⟩⟩
    | create K' hc =>
      by_cases hnew : K = K' ∧ p = s.fresh
      · exact .inr hnew.2
      · refine .inl ⟨?_, fun a ha => ⟨a, (hc.tags K p hnew).trans ha, rfl, fun _ h => h⟩⟩
        rw [hc.list] at hp
        split_ifs at hp with hK
        · subst hK
          exact (List.mem_append.mp hp).resolve_right fun hp => hnew ⟨rfl, List.mem_singleton.mp hp⟩
        · exact hp
    | rename K' p' hr =>
      refine .inl ⟨hr.list K ▸ hp, fun a ha => ?_⟩
      by_cases hsame : K = K' ∧ p = p'
      · obtain ⟨rfl, rfl⟩ := hsame
        obtain ⟨name, -, -, htag⟩ := hr.name
        exact ⟨{ a with name := name }, by rw [htag, ha]; rfl, rfl, fun _ h => h⟩
      · exact ⟨a, (hr.tags K p hsame).trans ha, rfl, fun _ h => h⟩
    | delete K' p' _ _ hend hgone =>
      refine .inl (hall hend ?_)
      rintro (⟨rfl, rfl⟩ | hf)
      · exact hgone (h.list_nodup K) hp
      · exact hf
    | flush _ _ hgone hend =>
      exact .inl (hend.stillUsed h hp fun hK => by simp [hgone K hK] at hp)

/-- A record without the flag leaves its list by a command. -/
theorem step_removes {op : Op} (h : Related .none s) (ha : Enabled s op) (ht : step s op = .ok t) {a : Tag}
    (hp : p ∈ K.list s) (htag : K.tag s p = some a) (hauto : a.autoDelete = false) (hgone : p ∉ K.list t) :
    Removes K s p op := by
  rcases step_turn h ha ht with hend | ⟨c, req, rfl, hturn⟩
  · exact absurd (Endures.stays (l := s.users) hend h hp id htag hauto) hgone
  · cases hturn with
    | same hend => exact absurd (Endures.stays (l := s.users) hend h hp id htag hauto) hgone
    | users f _ _ _ _ hl => exact absurd (by rwa [hl]) hgone
    | create K' hc =>
      refine absurd ?_ hgone
      rw [hc.list]
      split_ifs with hK
      · exact List.mem_append_left _ (hK ▸ hp)
      · exact hp
    | rename K' p' hr => exact absurd (by rwa [hr.list]) hgone
    | delete K' p' hcmd hname hend =>
      by_cases hsame : K = K' ∧ p = p'
      · obtain ⟨rfl, rfl⟩ := hsame
        exact ⟨c, req, rfl, .inl ⟨hcmd, hname⟩⟩
      · refine absurd (Endures.stays (l := s.users) hend h hp ?_ htag hauto) hgone
        rintro (hs | hf)
        · exact hsame hs
        · exact hf
    | flush hcmd _ _ hend =>
      by_cases hK : bitCheck (req.u32 8) K.flushBit = true
      · exact ⟨c, req, rfl, .inr ⟨hcmd, hK⟩⟩
      · exact absurd (hend.stays h hp hK htag hauto) hgone

/-! ### Runs -/

theorem step_fresh {op : Op} (h : Related .none s) (ha : Enabled s op) (ht : step s op = .ok t) :
    s.fresh ≤ t.fresh := by
  rcases step_turn h ha ht with hend | ⟨c, req, -, hturn⟩
  · exact hend.fresh
  · cases hturn with
    | same hend => exact hend.fresh
    | users f _ _ _ hn => exact hn
    | create K' hc => exact Nat.le_of_lt hc.fresh
    | rename K' p' hr => exact hr.fresh
    | delete K' p' _ _ hend => exact hend.fresh
    | flush _ _ _ hend => exact hend.fresh

theorem run_stillUsed (h : Reachable s) (hrun : Run Enabled step s t) (hp : p ∈ K.list s)
    (ht : p ∈ K.list t) : StillUsed K p s t := by
  have hrefl : StillUsed K p s s := fun a ha => ⟨a, ha, rfl, fun _ h => h⟩
  refine (hrun.invariant (fun u => Reachable u ∧ s.fresh ≤ u.fresh ∧ (p ∈ K.list u → StillUsed K p s u))
    ⟨h, Nat.le_refl _, fun _ => hrefl⟩ ?_).2.2 ht
  rintro u op v ⟨hu, hle, hstill⟩ ha hv
  refine ⟨hu.step op ha hv, Nat.le_trans hle (step_fresh hu.related ha hv), fun hpv => ?_⟩
  rcases step_stillUsed hu.related ha hv hpv with ⟨hpu, huv⟩ | hnew
  · intro a htag
    obtain ⟨b, hb, hauto, hused⟩ := hstill hpu a htag
    obtain ⟨b', hb', hauto', hused'⟩ := huv b hb
    exact ⟨b', hb', hauto'.trans hauto, fun h1 h2 => hused' (hauto.trans h1) (hused h1 h2)⟩
  · exact absurd (h.related.list_below hp) (Nat.not_lt.mpr (hnew ▸ hle))

/-- A record that deletes itself and has been used is in use as long as it is on its list. -/
structure InUse (s t : EagleServer) : Prop where
  queue : ∀ q ∈ s.queues, q ∈ t.queues → ∀ x y, s.queueAt q = some x → t.queueAt q = some y →
    y.autoDelete = true → x.declaredClients ≠ [] → y.declaredClients ≠ []
  route : ∀ r ∈ s.routes, r ∈ t.routes → ∀ x y, s.routeAt r = some x → t.routeAt r = some y →
    y.autoDelete = true → x.keys ≠ [] → y.keys ≠ []
  channel : ∀ ch ∈ s.channels, ch ∈ t.channels → ∀ x y, s.channelAt ch = some x → t.channelAt ch = some y →
    y.autoDelete = true → x.topics ≠ [] ∨ x.patterns ≠ [] → y.topics ≠ [] ∨ y.patterns ≠ []

omit [Lzf] in
theorem StillUsed.used {a b : Tag} (h : StillUsed K p s t) (ha : K.tag s p = some a) (hb : K.tag t p = some b)
    (hauto : b.autoDelete = true) (hused : a.used = true) : b.used = true := by
  obtain ⟨b', hb', hsame, hkeep⟩ := h a ha
  obtain rfl := Option.some.inj (hb.symm.trans hb')
  exact hkeep (hsame.symm.trans hauto) hused

/-- From any reachable state on, records that delete themselves stay on their lists
in use, and the others leave their lists by a command that deletes them. -/
theorem autoDelete_exact (h : Reachable s) :
    (∀ t, Run Enabled step s t → InUse s t) ∧
    ∀ op t, Enabled s op → step s op = .ok t →
      (∀ q ∈ s.queues, ∀ x, s.queueAt q = some x → x.autoDelete = false → q ∉ t.queues →
        Removes .queue s q op) ∧
      (∀ r ∈ s.routes, ∀ x, s.routeAt r = some x → x.autoDelete = false → r ∉ t.routes →
        Removes .route s r op) ∧
      ∀ ch ∈ s.channels, ∀ x, s.channelAt ch = some x → x.autoDelete = false → ch ∉ t.channels →
        Removes .channel s ch op := by
  refine ⟨fun t hrun => ⟨?_, ?_, ?_⟩, fun op t ha ht => ⟨?_, ?_, ?_⟩⟩
  · intro q hq hqt x y hx hy hauto hused
    have := (run_stillUsed (K := .queue) h hrun hq hqt).used (congrArg (Option.map QueueT.tag) hx)
      (congrArg (Option.map QueueT.tag) hy) hauto (by simpa [QueueT.tag] using hused)
    simpa [QueueT.tag] using this
  · intro r hr hrt x y hx hy hauto hused
    have := (run_stillUsed (K := .route) h hrun hr hrt).used (congrArg (Option.map RouteT.tag) hx)
      (congrArg (Option.map RouteT.tag) hy) hauto (by simpa [RouteT.tag] using hused)
    simpa [RouteT.tag] using this
  · intro ch hch hcht x y hx hy hauto hused
    have := (run_stillUsed (K := .channel) h hrun hch hcht).used (congrArg (Option.map ChannelT.tag) hx)
      (congrArg (Option.map ChannelT.tag) hy) hauto (by simpa [ChannelT.tag] using hused)
    simpa [ChannelT.tag] using this
  · exact fun q hq x hx => step_removes (K := .queue) h.related ha ht hq (congrArg (Option.map QueueT.tag) hx)
  · exact fun r hr x hx => step_removes (K := .route) h.related ha ht hr (congrArg (Option.map RouteT.tag) hx)
  · exact fun ch hch x hx =>
      step_removes (K := .channel) h.related ha ht hch (congrArg (Option.map ChannelT.tag) hx)

omit [Lzf] in
/-- A queue that deletes itself, declared by its creator. -/
theorem autoDelete_exact_declared : ∃ s, s.queues = [2] ∧
    (s.queueAt 2).map (fun x => (x.autoDelete, x.declaredClients)) = some (true, [0]) ∧
    ∀ t, Run Enabled (@step Lzf.stored) s t → InUse s t := by
  obtain ⟨s, hs, hp⟩ := Sample.exists_run
    (Sample.login 0 ++ [Sample.queueCreate 0 [113] 10 1, Sample.named Cmd.queueDeclare 0 [113] []])
    (p := fun s => s.queues = [2] ∧
      (s.queueAt 2).map (fun x => (x.autoDelete, x.declaredClients)) = some (true, [0]))
    (by decide +kernel)
  obtain ⟨hq, hx⟩ := of_decide_eq_true hp
  exact ⟨s, hq, hx, (@autoDelete_exact Lzf.stored _ hs).1⟩

end EagleMQ
