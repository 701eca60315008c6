import EagleMQ.Links.Clients

/-! Records are found by name, they are created loose and put on their list, and
a flush takes all of a kind away. The relations hold before and after. -/

namespace EagleMQ

open Prog

variable {s t : EagleServer} {c q r ch : Ptr}

/-- The relations hold afterwards, and the faults are outside them. -/
abbrev Relates {α : Type} (m : ServerM α) (s : EagleServer) : Prop :=
  wp m (fun _ t => Related .none t) Fault.Outside s

theorem relates_frame {α : Type} {m : ServerM α} (h : Related .none s)
    (hm : wp m (fun _ t => Frame s t) Fault.Outside s) : Relates m s :=
  wp_mono hm (fun _ _ ht => h.frame ht) fun _ h => h

/-- The relations with a client that stays. -/
structure Serving (c : Ptr) (t : EagleServer) : Prop where
  related : Related .none t
  client : (links t).clients.alive c = true

theorem Serving.has {L : Links} {n : Ptr} (h : Serving c s) (ht : Has L n t)
    (hc : L.Consistent .none) (hb : L.Below n) (hl : L.clients = (links s).clients) : Serving c t := by
  refine ⟨.has ht hc hb, ?_⟩
  rw [ht.agree, hl]
  exact h.client

theorem Serving.frame (h : Serving c s) (ht : Frame s t) : Serving c t :=
  h.has ht h.related.consistent h.related.below rfl

theorem Serving.reordered (h : Serving c s) (ht : Reordered s t) : Serving c t :=
  ⟨h.related.reordered ht, by rw [ht.clients]; exact h.client⟩

/-- The end of most operations. -/
theorem Serving.respond {req : Request} {status : Byte} (h : Serving c s) :
    Relates (respond c req status) s :=
  relates_frame h.related (addStatusResponse_frame _ _ h.client)

theorem Serving.reportResult {req : Request} {m : ServerM Bool}
    (hm : wp m (fun _ t => Serving c t) Fault.Outside s) : Relates (reportResult c req m) s := by
  rw [EagleMQ.reportResult, Relates, wp_bind]
  exact wp_mono hm (fun ok t ht => wp_ite (fun _ => ht.respond) fun _ => ht.respond) fun _ h => h

theorem Serving.then_respond {α : Type} {req : Request} {status : Byte} {m : ServerM α}
    (hm : wp m (fun _ t => Serving c t) Fault.Outside s) :
    Relates (do let _ ← m; EagleMQ.respond c req status) s := by
  rw [Relates, wp_bind]
  exact wp_mono hm (fun _ _ ht => ht.respond) fun _ h => h

/-! ### Lookups -/

section Lookup

variable {s : EagleServer} {c : Ptr} (name : Name)

theorem findNamed_spec (nameOf : Ptr → Option Name) {l : List Ptr} (h : ∀ p ∈ l, nameOf p ≠ none) :
    ∃ r, findNamed nameOf name l = .ok r ∧ (∀ p, r = some p → p ∈ l ∧ nameOf p = some name) ∧
      (r = none → ∀ p ∈ l, nameOf p ≠ some name) := by
  induction l with
  | nil => exact ⟨none, rfl, by simp, by simp⟩
  | cons p l ih =>
    obtain ⟨n, hn⟩ := Option.ne_none_iff_exists'.mp (h p (by simp))
    obtain ⟨r, hr, hsome, hnone⟩ := ih fun x hx => h x (by simp [hx])
    simp only [findNamed, hn]
    by_cases hname : n = name
    · exact ⟨some p, if_pos hname, by simp [hn, hname], by simp⟩
    · refine ⟨r, by rw [if_neg hname, hr], fun x hx => ?_, fun hx => ?_⟩
      · exact ⟨List.mem_cons_of_mem _ (hsome x hx).1, (hsome x hx).2⟩
      · simpa [hn, hname] using hnone hx

theorem findNamed_some {nameOf : Ptr → Option Name} {l : List Ptr} {p : Ptr}
    (h : findNamed nameOf name l = .ok (some p)) : p ∈ l ∧ nameOf p = some name := by
  induction l with
  | nil => exact nomatch h
  | cons p' l ih =>
    rw [findNamed] at h
    cases hn : nameOf p' with
    | none => rw [hn] at h; exact nomatch h
    | some n =>
      rw [hn] at h
      dsimp only at h
      split_ifs at h with hname
      · obtain rfl := Option.some.inj (Except.ok.inj h)
        exact ⟨List.mem_cons_self .., hname ▸ hn⟩
      · exact (ih h).imp_left (List.mem_cons_of_mem _)

/-- What a lookup by name tells. -/
structure Lookup (s : EagleServer) (find : ServerM (Option Ptr)) (nameOf : Ptr → Option Name)
    (l : List Ptr) (name : Name) (r : Option Ptr) : Prop where
  run : find s = .ok (r, s)
  result : findNamed nameOf name l = .ok r
  found : ∀ p, r = some p → p ∈ l ∧ nameOf p = some name
  free : r = none → ∀ p ∈ l, nameOf p ≠ some name

theorem lookup_spec {find : ServerM (Option Ptr)} {nameOf : Ptr → Option Name} {l : List Ptr}
    (hfind : find s = (Prog.lift (findNamed nameOf name l) : ServerM (Option Ptr)) s)
    (h : ∀ p ∈ l, nameOf p ≠ none) : ∃ r, Lookup s find nameOf l name r := by
  obtain ⟨r, hr, hsome, hnone⟩ := findNamed_spec name nameOf h
  refine ⟨r, ?_, hr, hsome, hnone⟩
  rw [hfind, hr]
  rfl

theorem findQueueT_spec {l : List Ptr} (h : ∀ q ∈ l, (links s).queues.alive q = true) :
    ∃ r, Lookup s (findQueueT l name) s.queueName l name r :=
  lookup_spec name rfl fun q hq => by
    obtain ⟨x, hx⟩ := queue_alive.mp (h q hq)
    simp [EagleServer.queueName, hx]

theorem findQueue_spec (h : Related .none s) :
    ∃ r, Lookup s (findQueue name) s.queueName s.queues name r := by
  obtain ⟨r, hr⟩ := findQueueT_spec name fun q hq => h.consistent.queues.alive hq
  exact ⟨r, { hr with run := hr.run }⟩

theorem findRoute_spec (h : Related .none s) :
    ∃ r, Lookup s (findRoute name) s.routeName s.routes name r :=
  lookup_spec name rfl fun r hr => by
    obtain ⟨x, hx⟩ := route_alive.mp (h.consistent.routes.alive hr)
    simp [EagleServer.routeName, hx]

theorem findChannel_spec (h : Related .none s) :
    ∃ r, Lookup s (findChannel name) s.channelName s.channels name r :=
  lookup_spec name rfl fun ch hch => by
    obtain ⟨x, hx⟩ := channel_alive.mp (h.consistent.channels.alive hch)
    simp [EagleServer.channelName, hx]

theorem findDeclared_spec (h : Related .none s) (hc : (links s).clients.alive c = true) :
    ∃ r, Lookup s (findDeclared c name) s.queueName ((links s).declaredQueues c) name r := by
  obtain ⟨x, hx⟩ := client_alive.mp hc
  have hxd : (links s).declaredQueues c = x.declaredQueues := Heap.read_some hx
  obtain ⟨r, hr⟩ := findQueueT_spec name fun q hq => h.declaredQueue (c := c) hq
  refine ⟨r, { hr with run := ?_ }⟩
  rw [← hr.run, hxd]
  simp only [findDeclared, bind, StateT.bind, Except.bind, run_getClient hx]

theorem findSubscribed_spec (h : Related .none s) (hc : (links s).clients.alive c = true) :
    ∃ r, Lookup s (findSubscribed c name) s.queueName ((links s).subscribedQueues c) name r := by
  obtain ⟨x, hx⟩ := client_alive.mp hc
  have hxd : (links s).subscribedQueues c = x.subscribedQueues := Heap.read_some hx
  obtain ⟨r, hr⟩ := findQueueT_spec name fun q hq => h.subscribedQueue (c := c) hq
  refine ⟨r, { hr with run := ?_ }⟩
  rw [← hr.run, hxd]
  simp only [findSubscribed, bind, StateT.bind, Except.bind, run_getClient hx]

theorem free_of_lookup {α : Type} {records : Heap α} {nameOf : α → Name} {l : List Ptr} {name : Name}
    (hfree : ∀ p ∈ l, (records p).map nameOf ≠ some name) :
    ∀ p ∈ l, ∀ x, records p = some x → nameOf x ≠ name := fun p hp x hx hn =>
  hfree p hp (by rw [hx, ← hn]; rfl)

end Lookup

/-! ### Records are created -/

theorem createQueueT_spec {X : Loose} (name : Name) (maxMsg maxMsgSize flags : ℕ)
    (h : Related X s) :
    wp (createQueueT name maxMsg maxMsgSize flags) (fun q t => q = s.fresh ∧
      Related { X with queues := insert q X.queues } t ∧
      Has { links s with queues := (links s).queues.alloc q } (s.fresh + 1) t ∧
      (links t).subscribedClients q = []) Fault.Outside s := by
  have hnone : s.queueAt s.fresh = none := by
    by_contra hne
    exact Nat.lt_irrefl _ (h.below.queues s.fresh (Option.isSome_iff_ne_none.mpr hne))
  have hhas : Has { links s with queues := (links s).queues.alloc s.fresh } (s.fresh + 1)
      { s.setQueue s.fresh ⟨name, maxMsg, maxMsgSize, flags, bitCheck flags 0, bitCheck flags 1,
        bitCheck flags 2, .create, [], [], [], []⟩ with fresh := s.fresh + 1 } :=
    ⟨links_allocQueue hnone rfl rfl rfl rfl, Nat.le_refl _⟩
  refine ⟨rfl, ?_, hhas, ?_⟩
  · exact .has hhas (h.consistent.allocQueue (h.below.queues.not_mem h.consistent.queues))
      { h.below.mono (Nat.le_succ _) with queues := h.below.queues.alloc }
  · show (links _).subscribedClientsMsg _ ++ (links _).subscribedClientsNotify _ = []
    rw [show (links _).subscribedClientsMsg s.fresh = _ from Heap.read_some (Function.update_self ..),
      show (links _).subscribedClientsNotify s.fresh = _ from Heap.read_some (Function.update_self ..)]
    rfl

theorem createRouteT_spec {X : Loose} (name : Name) (flags : ℕ) (h : Related X s) :
    wp (createRouteT name flags) (fun r t => r = s.fresh ∧
      Related { X with routes := insert r X.routes } t ∧
      Has { links s with routes := (links s).routes.alloc r } (s.fresh + 1) t) Fault.Outside s := by
  have hnone : s.routeAt s.fresh = none := by
    by_contra hne
    exact Nat.lt_irrefl _ (h.below.routes s.fresh (Option.isSome_iff_ne_none.mpr hne))
  have hhas : Has { links s with routes := (links s).routes.alloc s.fresh } (s.fresh + 1)
      { s.setRoute s.fresh ⟨name, flags, bitCheck flags 0, bitCheck flags 1, []⟩ with
        fresh := s.fresh + 1 } := ⟨links_allocRoute hnone rfl, Nat.le_refl _⟩
  refine ⟨rfl, ?_, hhas⟩
  exact .has hhas (h.consistent.allocRoute (h.below.routes.not_mem h.consistent.routes))
    { h.below.mono (Nat.le_succ _) with routes := h.below.routes.alloc }

theorem createChannelT_spec {X : Loose} (name : Name) (flags : ℕ) (h : Related X s) :
    wp (createChannelT name flags) (fun ch t => ch = s.fresh ∧
      Related { X with channels := insert ch X.channels } t ∧
      Has { links s with channels := (links s).channels.alloc ch } (s.fresh + 1) t)
      Fault.Outside s := by
  have hnone : s.channelAt s.fresh = none := by
    by_contra hne
    exact Nat.lt_irrefl _ (h.below.channels s.fresh (Option.isSome_iff_ne_none.mpr hne))
  have hhas : Has { links s with channels := (links s).channels.alloc s.fresh } (s.fresh + 1)
      { s.setChannel s.fresh ⟨name, flags, bitCheck flags 0, bitCheck flags 1, [], []⟩ with
        fresh := s.fresh + 1 } :=
    ⟨links_allocChannel hnone fun d => by cases d <;> rfl, Nat.le_refl _⟩
  refine ⟨rfl, ?_, hhas⟩
  exact .has hhas (h.consistent.allocChannel (h.below.channels.not_mem h.consistent.channels))
    { h.below.mono (Nat.le_succ _) with channels := h.below.channels.alloc }

theorem Related.enlistQueue (h : Related { Loose.none with queues := insert q Loose.none.queues } s)
    (hq : (links s).queues.alive q = true) (hs : (links s).subscribedClients q = []) :
    Related .none { s with queues := s.queues ++ [q] } :=
  ⟨h.consistent.enlistQueue hq (by simp [Loose.none]) hs, { h.below with }⟩

theorem Related.enlistRoute (h : Related { Loose.none with routes := insert r Loose.none.routes } s)
    (hr : (links s).routes.alive r = true) : Related .none { s with routes := s.routes ++ [r] } :=
  ⟨h.consistent.enlistRoute hr (by simp [Loose.none]), { h.below with }⟩

theorem Related.enlistChannel
    (h : Related { Loose.none with channels := insert ch Loose.none.channels } s)
    (hch : (links s).channels.alive ch = true) :
    Related .none { s with channels := s.channels ++ [ch] } :=
  ⟨h.consistent.enlistChannel hch (by simp [Loose.none]), { h.below with }⟩

section Create

variable {req : Request}

theorem createQueue_relates (name : Name) (maxMsg maxMsgSize flags : ℕ) (h : Serving c s) :
    Relates (createQueue c req name maxMsg maxMsgSize flags) s := by
  rw [createQueue, Relates, wp_bind]
  refine wp_mono (createQueueT_spec name maxMsg maxMsgSize flags h.related)
    (fun q t ⟨hq, ht, hl, hs⟩ => ?_) fun _ h => h
  have halive : (links t).queues.alive q = true := by rw [hl.agree]; simp [Roster.alloc]
  rw [wp_bind, wp_modify]
  refine Serving.respond ⟨ht.enlistQueue halive hs, ?_⟩
  exact (congrArg (fun L => L.clients.alive c) hl.agree).trans h.client

theorem createRoute_relates (name : Name) (flags : ℕ) (h : Serving c s) :
    Relates (createRoute c req name flags) s := by
  rw [createRoute, Relates, wp_bind]
  refine wp_mono (createRouteT_spec name flags h.related) (fun r t ⟨hr, ht, hl⟩ => ?_) fun _ h => h
  have halive : (links t).routes.alive r = true := by rw [hl.agree]; simp [Roster.alloc]
  rw [wp_bind, wp_modify]
  refine Serving.respond ⟨ht.enlistRoute halive, ?_⟩
  exact (congrArg (fun L => L.clients.alive c) hl.agree).trans h.client

theorem createChannel_relates (name : Name) (flags : ℕ) (h : Serving c s) :
    Relates (createChannel c req name flags) s := by
  rw [createChannel, Relates, wp_bind]
  refine wp_mono (createChannelT_spec name flags h.related) (fun ch t ⟨hch, ht, hl⟩ => ?_) fun _ h => h
  have halive : (links t).channels.alive ch = true := by rw [hl.agree]; simp [Roster.alloc]
  rw [wp_bind, wp_modify]
  refine Serving.respond ⟨ht.enlistChannel halive, ?_⟩
  exact (congrArg (fun L => L.clients.alive c) hl.agree).trans h.client

end Create

/-! ### Everything is deleted -/

theorem deleteQueues_spec (h : Serving c s) :
    wp deleteQueues (fun _ t => Serving c t ∧ t.queues = []) Fault.Outside s := by
  refine wp_foreach (fun l t => Serving c t ∧ t.queues = l) rfl ?_ ?_ ⟨h, rfl⟩
  · rintro q l t ⟨ht, hl⟩
    exact ⟨[], congrArg (fun l => Except.ok (l, t)) hl, hl ▸ ht.related.consistent.queues.nodup⟩
  · rintro q l t ⟨ht, hl⟩
    rw [wp_bind]
    refine wp_mono (listDeleteQueue_spec ht.related) (fun _ u ⟨hu, hc, hq⟩ => ?_) fun _ h => h
    refine ⟨⟨hu, by rw [hc]; exact ht.client⟩, ?_⟩
    have hq : u.queues = t.queues.erase q := hq
    simp [hq, hl]

theorem deleteRoutes_spec (h : Serving c s) :
    wp deleteRoutes (fun _ t => Serving c t ∧ t.routes = []) Fault.Outside s := by
  refine wp_foreach (fun l t => Serving c t ∧ t.routes = l) rfl ?_ ?_ ⟨h, rfl⟩
  · rintro r l t ⟨ht, hl⟩
    exact ⟨[], congrArg (fun l => Except.ok (l, t)) hl, hl ▸ ht.related.consistent.routes.nodup⟩
  · rintro r l t ⟨ht, hl⟩
    rw [wp_bind]
    refine wp_mono (listDeleteRoute_spec ht.related) (fun _ u ⟨hu, honly, hr⟩ => ?_) fun _ h => h
    refine ⟨⟨hu, by rw [honly.agree]; exact ht.client⟩, ?_⟩
    have hr : u.routes = t.routes.erase r := hr
    simp [hr, hl]

theorem deleteChannels_spec (h : Serving c s) :
    wp deleteChannels (fun _ t => Serving c t ∧ t.channels = []) Fault.Outside s := by
  refine wp_foreach (fun l t => Serving c t ∧ t.channels = l) rfl ?_ ?_ ⟨h, rfl⟩
  · rintro ch l t ⟨ht, hl⟩
    exact ⟨[], congrArg (fun l => Except.ok (l, t)) hl, hl ▸ ht.related.consistent.channels.nodup⟩
  · rintro ch l t ⟨ht, hl⟩
    rw [wp_bind]
    refine wp_mono (listDeleteChannel_spec ht.related) (fun _ u ⟨hu, honly, hr⟩ => ?_) fun _ h => h
    refine ⟨⟨hu, by rw [honly.agree]; exact ht.client⟩, ?_⟩
    have hr : u.channels = t.channels.erase ch := hr
    simp [hr, hl]

/-- A part of a flush that its flag asks for, then the rest. -/
theorem flush_part {b : Bool} {m k : ServerM Unit} (h : Serving c s)
    (hm : ∀ t, Serving c t → wp m (fun _ u => Serving c u) Fault.Outside t)
    (hk : ∀ t, Serving c t → Relates k t) :
    Relates (do
      if b then m
      k) s := by
  cases b with
  | false => exact hk s h
  | true =>
    rw [if_pos rfl, Relates, wp_bind]
    exact wp_mono (hm s h) (fun _ t ht => hk t ht) fun _ h => h

theorem flushData_relates {req : Request} (flags : ℕ) (h : Serving c s) :
    Relates (flushData c req flags) s := by
  have hserve : ∀ {m : ServerM Unit} {P : EagleServer → Prop} {t},
      wp m (fun _ u => Serving c u ∧ P u) Fault.Outside t → wp m (fun _ u => Serving c u) Fault.Outside t :=
    fun hm => wp_mono hm (fun _ _ hu => hu.1) fun _ h => h
  refine flush_part h (fun t ht => ?_) fun t ht => flush_part ht (fun _ hu => hserve (deleteQueues_spec hu))
    fun u hu => flush_part hu (fun _ hv => hserve (deleteRoutes_spec hv))
      fun v hv => flush_part hv (fun _ hw => hserve (deleteChannels_spec hw)) fun w hw => hw.respond
  exact ht.frame ⟨rfl, Nat.le_refl _⟩

end EagleMQ
