import EagleMQ.Links.Delivery

/-! The operations on the relations do on the records what the operations of
`Links` do, and the destructors take a record out of every list before it goes.
A destructor walks a list from which its body removes the node it stands on. -/

namespace EagleMQ

open Prog

variable {X : Loose} {s t : EagleServer} {c q r ch : Ptr} {E : Fault → Prop}

/-! ### Clients and queues -/

theorem declareClientQueueT_spec (hc : (links s).clients.alive c = true)
    (hq : (links s).queues.alive q = true) :
    wp (declareClientQueueT q c) (fun _ t => Has ((links s).declare c q) s.fresh t) E s := by
  obtain ⟨x, hx⟩ := client_alive.mp hc
  obtain ⟨y, hy⟩ := queue_alive.mp hq
  have hxd : (links s).declaredQueues c = x.declaredQueues := Heap.read_some hx
  have hyd : (links s).declaredClients q = y.declaredClients := Heap.read_some hy
  rw [declareClientQueueT, wp_bind]
  refine wp_modifyClient ⟨x, hx, wp_modifyQueue ⟨y, hy, ?_, Nat.le_refl _⟩⟩
  rw [links_setDeclaredClients (s := s.setClient c _) hy, links_setDeclaredQueues hx, Links.declare, hxd, hyd]

theorem undeclareClientQueueT_spec (hc : (links s).clients.alive c = true)
    (hq : (links s).queues.alive q = true) :
    wp (undeclareClientQueueT q c) (fun _ t => Has ((links s).undeclare c q) s.fresh t) E s := by
  obtain ⟨x, hx⟩ := client_alive.mp hc
  obtain ⟨y, hy⟩ := queue_alive.mp hq
  have hxd : (links s).declaredQueues c = x.declaredQueues := Heap.read_some hx
  have hyd : (links s).declaredClients q = y.declaredClients := Heap.read_some hy
  rw [undeclareClientQueueT, wp_bind]
  refine wp_modifyClient ⟨x, hx, wp_modifyQueue ⟨y, hy, ?_, Nat.le_refl _⟩⟩
  rw [links_setDeclaredClients (s := s.setClient c _) hy, links_setDeclaredQueues hx,
    Links.undeclare, hxd, hyd]

theorem subscribeClientQueueT_spec (flags : ℕ) (hc : (links s).clients.alive c = true)
    (hq : (links s).queues.alive q = true) :
    wp (subscribeClientQueueT q c flags) (fun _ t => ∃ msg notify,
      (msg ++ notify).Perm ((links s).subscribedClients q ++ [c]) ∧
        Has ((links s).subscribe c q msg notify) s.fresh t) E s := by
  obtain ⟨x, hx⟩ := client_alive.mp hc
  obtain ⟨y, hy⟩ := queue_alive.mp hq
  have hxs : (links s).subscribedQueues c = x.subscribedQueues := Heap.read_some hx
  have hm : (links s).subscribedClientsMsg q = y.subscribedClientsMsg := Heap.read_some hy
  have hn : (links s).subscribedClientsNotify q = y.subscribedClientsNotify := Heap.read_some hy
  rw [subscribeClientQueueT, wp_bind]
  refine wp_modifyClient ⟨x, hx,
    wp_ite (fun _ => wp_modifyQueue ⟨y, hy, ?_⟩) fun _ => wp_modifyQueue ⟨y, hy, ?_⟩⟩
  · refine ⟨y.subscribedClientsMsg, y.subscribedClientsNotify ++ [c], ?_, ?_, Nat.le_refl _⟩
    · rw [Links.subscribedClients, hm, hn, List.append_assoc]
    · rw [links_setNotify (s := s.setClient c _) hy, links_setSubscribedQueues hx, Links.subscribe,
        hxs, ← hm, Function.update_eq_self]
  · refine ⟨y.subscribedClientsMsg ++ [c], y.subscribedClientsNotify, ?_, ?_, Nat.le_refl _⟩
    · rw [Links.subscribedClients, hm, hn, List.append_assoc, List.append_assoc]
      exact List.perm_append_comm.append_left _
    · rw [links_setMsg (s := s.setClient c _) hy, links_setSubscribedQueues hx, Links.subscribe,
        hxs, ← hn, Function.update_eq_self]

theorem unsubscribeClientQueueT_spec (h : Related X s) (hc : (links s).clients.alive c = true)
    (hq : (links s).queues.alive q = true) :
    wp (unsubscribeClientQueueT q c) (fun _ t => ∃ msg notify,
      (msg ++ notify).Perm (((links s).subscribedClients q).erase c) ∧
        Has ((links s).unsubscribe c q msg notify) s.fresh t) E s := by
  obtain ⟨x, hx⟩ := client_alive.mp hc
  obtain ⟨y, hy⟩ := queue_alive.mp hq
  have hxs : (links s).subscribedQueues c = x.subscribedQueues := Heap.read_some hx
  have hm : (links s).subscribedClientsMsg q = y.subscribedClientsMsg := Heap.read_some hy
  have hn : (links s).subscribedClientsNotify q = y.subscribedClientsNotify := Heap.read_some hy
  have hnodup := h.consistent.subscribed.nodup' q
  rw [Links.subscribedClients, hm, hn] at hnodup
  rw [unsubscribeClientQueueT, wp_bind]
  refine wp_modifyClient ⟨x, hx, wp_modifyQueue ⟨y, hy, ?_⟩⟩
  by_cases hmem : c ∈ y.subscribedClientsMsg
  · refine ⟨y.subscribedClientsMsg.erase c, y.subscribedClientsNotify, ?_, ?_, Nat.le_refl _⟩
    · rw [Links.subscribedClients, hm, hn, List.erase_append_left _ hmem]
    · rw [if_pos hmem]
      rw [links_setMsg (s := s.setClient c _) hy, links_setSubscribedQueues hx, Links.unsubscribe,
        hxs, ← hn, Function.update_eq_self]
  · refine ⟨y.subscribedClientsMsg, y.subscribedClientsNotify.filter (· ≠ c), ?_, ?_, Nat.le_refl _⟩
    · rw [Links.subscribedClients, hm, hn, List.erase_append_right _ hmem,
        (List.nodup_append.mp hnodup).2.1.erase_eq_filter]
      simp [bne, beq_eq_decide]
    · rw [if_neg hmem]
      rw [links_setNotify (s := s.setClient c _) hy, links_setSubscribedQueues hx,
        Links.unsubscribe, hxs, ← hm, Function.update_eq_self]

/-! ### Routes and queues -/

theorem unlinkQueueRouteT_spec (key : Name) (hq : (links s).queues.alive q = true) :
    wp (unlinkQueueRouteT q r key) (fun _ t => Has { links s with
      boundRoutes := Function.update (links s).boundRoutes q
        (((links s).boundRoutes q).remove key r) } s.fresh t) E s := by
  obtain ⟨y, hy⟩ := queue_alive.mp hq
  have hyr : (links s).boundRoutes q = y.routes := Heap.read_some hy
  refine wp_modifyQueue ⟨y, hy, ?_, Nat.le_refl _⟩
  rw [hyr]
  exact links_setRoutes hy _

theorem bindRouteT_spec (key : Name) (h : Related X s) (hr : (links s).routes.alive r = true)
    (hq : (links s).queues.alive q = true) :
    wp (bindRouteT r q key) (fun _ t => Frame s t ∨
      q ∉ ((links s).boundQueues r).values key ∧ Has ((links s).bind r q key) s.fresh t) E s := by
  obtain ⟨x, hx⟩ := route_alive.mp hr
  obtain ⟨y, hy⟩ := queue_alive.mp hq
  have hxk : (links s).boundQueues r = x.keys := Heap.read_some hx
  have hyr : (links s).boundRoutes q = y.routes := Heap.read_some hy
  rw [bindRouteT, wp_bind, wp_getRoute hx]
  refine wp_ite (fun _ => Or.inl ⟨rfl, Nat.le_refl _⟩) fun hnew => ?_
  have hnot : r ∉ y.routes.values key := fun hm => by
    rw [← hyr] at hm
    exact hnew (hxk ▸ (h.consistent.bound key).mem.mpr hm)
  rw [wp_bind]
  refine wp_modifyRoute ⟨x, hx, wp_modifyQueue ⟨y, hy, .inr ⟨hxk ▸ hnew, ?_, Nat.le_refl _⟩⟩⟩
  rw [if_neg hnot]
  rw [links_setRoutes (s := s.setRoute r _) hy, links_setKeys hx, Links.bind, hxk, hyr]

/-! ### The end of a route -/

theorem Has.route {L : Links} {n : Ptr} (h : Has L n s) (hr : L.routes.alive r = true) :
    (EagleMQ.links s).routes.alive r = true := by rwa [h.agree]

/-- The state in which a route has forgotten all its bindings but `rest`, and the
queues of the others have forgotten the route, while the record of the route is
as it was. -/
structure Forgetting (X : Loose) (s : EagleServer) (r : Ptr) (rest : Keylist Name Ptr)
    (t : EagleServer) : Prop where
  has : Has { links s with boundRoutes := (links t).boundRoutes } s.fresh t
  consistent : { links t with
    boundQueues := Function.update (links t).boundQueues r rest }.Consistent X

theorem forgetting_step {key : Name} {qs : List Ptr} {rest : Keylist Name Ptr}
    (h : Forgetting X s r (Keylist.rest key (q :: qs) rest) t) :
    wp (unlinkQueueRouteT q r key)
      (fun _ u => Forgetting X s r (Keylist.rest key qs rest) u) E t := by
  have hmem : q ∈ ((Function.update (links t).boundQueues r (Keylist.rest key (q :: qs) rest)) r).values
      key := by simp [Keylist.rest, Keylist.values]
  have hq : (links t).queues.alive q = true :=
    alive_of_read_values (h := t.queueAt) ((h.consistent.bound key).mem.mp hmem)
  refine wp_mono (unlinkQueueRouteT_spec key hq) (fun _ u hu => ⟨⟨?_, ?_⟩, ?_⟩) fun _ h => h
  · rw [hu.agree, h.has.agree]
  · exact Nat.le_trans h.has.fresh hu.fresh
  · have := h.consistent.unbind (r := r) (q := q) key
    rw [Links.unbind] at this
    simp only [Function.update_self, Function.update_idem, Keylist.remove_rest] at this
    rw [hu.agree]
    exact this

theorem deleteRouteT_spec (h : Related { X with routes := insert r X.routes } s)
    (hr : (links s).routes.alive r = true) :
    wp (deleteRouteT r) (fun _ t => Related X t ∧ Has { links s with
      routes := (links s).routes.free r
      boundQueues := Function.update (links s).boundQueues r []
      boundRoutes := (links t).boundRoutes } s.fresh t) E s := by
  obtain ⟨x, hx⟩ := route_alive.mp hr
  have hxk : (links s).boundQueues r = x.keys := Heap.read_some hx
  have hloop : wp (x.keys.forM fun e => e.2.forM fun q => unlinkQueueRouteT q r e.1)
      (fun _ t => Forgetting { X with routes := insert r X.routes } s r [] t) E s := by
    refine wp_mono (wp_forM (fun rest t => Forgetting { X with routes := insert r X.routes } s r rest t ∧
      rest ⊆ x.keys) _ ?_ x.keys s ⟨⟨⟨rfl, Nat.le_refl _⟩, ?_⟩, fun _ h => h⟩) (fun _ _ h => h.1)
      fun _ h => h
    · rintro ⟨key, queues⟩ rest t ⟨ht, hsub⟩
      have hne : queues ≠ [] :=
        (hxk ▸ h.consistent.boundQueues_wf r).snd_ne_nil (hsub (List.mem_cons_self ..))
      rw [← Keylist.rest_of_ne_nil hne] at ht
      refine wp_mono (wp_forM (fun qs t => Forgetting { X with routes := insert r X.routes } s r
        (Keylist.rest key qs rest) t) _ (fun q qs u hu => forgetting_step hu) queues t ht)
        (fun _ u hu => ⟨by simpa using hu, fun y hy => hsub (List.mem_cons_of_mem _ hy)⟩) fun _ h => h
    · rw [← hxk, Function.update_eq_self]
      exact h.consistent
  rw [deleteRouteT, wp_bind, wp_getRoute hx, wp_bind]
  refine wp_mono hloop (fun _ t ht => ?_) fun _ h => h
  have hfree := links_freeRoute (s := t) (p := r)
  have hlinks : links (t.freeRoute r) = { links s with
      routes := (links s).routes.free r
      boundQueues := Function.update (links s).boundQueues r []
      boundRoutes := (links t).boundRoutes } := by
    rw [hfree, ht.has.agree]
  rw [wp_modify]
  refine ⟨⟨?_, ?_⟩, ?_, ht.has.fresh⟩
  · rw [hfree]
    exact ht.consistent.freeRoute
  · rw [hlinks]
    exact Links.Below.mono { h.below with routes := h.below.routes.free r } ht.has.fresh
  · rw [hlinks]

/-- A route without keys has nothing to be forgotten. -/
theorem deleteRouteT_idle (h : Related { X with routes := insert r X.routes } s)
    (hr : (links s).routes.alive r = true) (hk : (links s).boundQueues r = []) :
    wp (deleteRouteT r) (fun _ t => Related X t ∧
      Has { links s with routes := (links s).routes.free r } s.fresh t) E s := by
  obtain ⟨x, hx⟩ := route_alive.mp hr
  have hxk : x.keys = [] := (Heap.read_some hx).symm.trans hk
  have hlinks : links (s.freeRoute r) =
      { links s with routes := (links s).routes.free r } := by
    rw [links_freeRoute, ← hk, Function.update_eq_self]
  have hhas : Has { links s with routes := (links s).routes.free r } s.fresh
      (s.freeRoute r) := ⟨hlinks, Nat.le_refl _⟩
  rw [deleteRouteT, wp_bind, wp_getRoute hx, hxk]
  exact ⟨.has hhas h.consistent.freeRoute { h.below with routes := h.below.routes.free r }, hhas⟩

theorem Related.delistRoute (h : Related X s) : Related { X with routes := insert r X.routes }
    { s with routes := s.routes.erase r } :=
  ⟨h.consistent.delistRoute, { h.below with }⟩

/-- Only the routes and their bindings have changed. -/
abbrev RoutesOnly (s t : EagleServer) : Prop := Has { links s with
  routes := (links t).routes
  boundQueues := (links t).boundQueues
  boundRoutes := (links t).boundRoutes } s.fresh t

instance : IsPreorder EagleServer RoutesOnly where
  refl _ := ⟨rfl, Nat.le_refl _⟩
  trans _ _ _ h h' := ⟨by rw [h'.agree, h.agree], Nat.le_trans h.fresh h'.fresh⟩

theorem listDeleteRoute_spec (h : Related X s) :
    wp (listDeleteRoute r) (fun _ t => Related X t ∧ RoutesOnly s t ∧
      (links t).routes.list = (links s).routes.list.erase r) E s := by
  rw [listDeleteRoute, wp_bind, wp_get]
  refine wp_ite (fun hr => ?_) fun hr =>
    ⟨h, Std.Refl.refl s, (List.erase_of_not_mem hr).symm⟩
  rw [wp_bind, wp_modify, wp_bind]
  refine wp_mono (deleteRouteT_spec h.delistRoute (h.consistent.routes.alive hr))
    (fun _ t ⟨ht, hl⟩ => ⟨ht, ⟨?_, hl.fresh⟩, ?_⟩) fun _ h => h
  · rw [hl.agree]; rfl
  · rw [hl.agree]; rfl

theorem unbindRouteT_spec {key : Name} (h : Related X s) (hr : (links s).routes.alive r = true)
    (hq : (links s).queues.alive q = true) :
    wp (unbindRouteT r q key) (fun _ t => Related X t ∧ RoutesOnly s t ∧
      (key ∈ ((links s).boundQueues r).keys →
        (links t).boundRoutes = ((links s).unbind r q key).boundRoutes)) E s := by
  obtain ⟨x, hx⟩ := route_alive.mp hr
  have hxk : (links s).boundQueues r = x.keys := Heap.read_some hx
  rw [unbindRouteT, wp_bind, wp_getRoute hx, ← hxk]
  refine wp_ite (fun hkey => ?_) fun hkey => ⟨h, Std.Refl.refl s, fun hk => absurd hk hkey⟩
  rw [wp_bind]
  refine wp_modifyRoute ⟨x, hx, ?_⟩
  rw [wp_bind]
  refine wp_mono (unlinkQueueRouteT_spec key hq) (fun _ u hu => ?_) fun _ h => h
  have hagree : links u = (links s).unbind r q key := by
    rw [hu.agree, links_setKeys hx, Links.unbind, hxk]
  have hu : Has ((links s).unbind r q key) s.fresh u := ⟨hagree, hu.fresh⟩
  have hrel : Related X u := .has hu (h.consistent.unbind key) { h.below with }
  have hroutes : RoutesOnly s u := ⟨by rw [hagree]; rfl, hu.fresh⟩
  obtain ⟨z, hz⟩ := route_alive.mp (hu.route hr)
  have hzk : (links u).boundQueues r = z.keys := Heap.read_some hz
  rw [wp_bind, wp_getRoute hz]
  refine wp_ite (fun hauto => ?_) fun _ => ⟨hrel, hroutes, fun _ => by rw [hagree]⟩
  rw [wp_bind, listDeleteRoute, wp_bind, wp_get]
  refine wp_ite (fun _ => ?_) fun _ => ⟨hrel, hroutes, fun _ => by rw [hagree]⟩
  rw [wp_bind, wp_modify, wp_bind]
  refine wp_mono (deleteRouteT_idle hrel.delistRoute (hu.route hr) (hzk.trans hauto.2))
    (fun _ v ⟨hv, hvl⟩ => ⟨hv, ?_, fun _ => ?_⟩) fun _ h => h
  · exact IsTrans.trans (r := RoutesOnly) _ _ _ hroutes ⟨by rw [hvl.agree]; rfl, hvl.fresh⟩
  · rw [hvl.agree, ← hagree]
    rfl

/-! ### The end of a queue -/

/-- The routes under the keys of a queue are unbound one by one; `rest` is left. -/
structure Unbinding (X : Loose) (s : EagleServer) (q : Ptr) (rest : Keylist Name Ptr)
    (t : EagleServer) : Prop where
  related : Related X t
  only : RoutesOnly s t
  left : (links t).boundRoutes q = rest

theorem Has.queue' (h : RoutesOnly s t) (hq : (links s).queues.alive q = true) :
    (links t).queues.alive q = true := by rwa [h.agree]

theorem ejectRoutesKeyQueueT_spec {key : Name} {rs : List Ptr} {rest : Keylist Name Ptr}
    (hq : (links s).queues.alive q = true) (h : Unbinding X s q (Keylist.rest key rs rest) t)
    (hrs : rs ≠ []) : wp (ejectRoutesKeyQueueT q key) (fun _ u => Unbinding X s q rest u)
      Fault.Outside t := by
  have hread : ∀ (rs : List Ptr) u, rs ≠ [] → Unbinding X s q (Keylist.rest key rs rest) u →
      (do pure ((← getQueue q).routes.values key) : ServerM (List Ptr)) u = .ok (rs, u) ∧ rs.Nodup := by
    intro rs u hne hu
    obtain ⟨y, hy⟩ := queue_alive.mp (hu.only.queue' hq)
    have hyr : y.routes = Keylist.rest key rs rest := (Heap.read_some hy).symm.trans hu.left
    have hv : y.routes.values key = rs := by simp [hyr, Keylist.rest_of_ne_nil hne, Keylist.values]
    refine ⟨(read_getQueue hy _).trans (by rw [hv]), ?_⟩
    have := (hu.related.consistent.bound key).nodup' q
    rwa [hu.left, Keylist.rest_of_ne_nil hne, Keylist.values, if_pos rfl] at this
  refine wp_mono (wp_foreach (fun rs u => Unbinding X s q (Keylist.rest key rs rest) u)
    (hread rs t hrs h).1 (fun r rs u hu => ⟨[], hread _ u (by simp) hu⟩) (fun r rs u hu => ?_) h)
    (fun _ u hu => by simpa using hu) fun _ h => h
  have hr : r ∈ ((links u).boundRoutes q).values key := by
    rw [hu.left, Keylist.rest_of_ne_nil (by simp), Keylist.values, if_pos rfl]
    simp
  have hk := Keylist.mem_keys_of_mem ((hu.related.consistent.bound key).mem.mpr hr)
  rw [wp_bind]
  refine wp_mono (unbindRouteT_spec hu.related (hu.related.boundRoute hr) (hu.only.queue' hq))
    (fun _ v hv => ⟨hv.1, IsTrans.trans (r := RoutesOnly) _ _ _ hu.only hv.2.1, ?_⟩)
    fun _ h => h
  have hrem : ((links u).unbind r q key).boundRoutes q = ((links u).boundRoutes q).remove key r :=
    Function.update_self ..
  rw [hv.2.2 hk, hrem, hu.left, Keylist.remove_rest]

theorem ejectRoutesQueueT_spec (h : Related X s) (hq : (links s).queues.alive q = true) :
    wp (ejectRoutesQueueT q) (fun _ t => Unbinding X s q [] t) Fault.Outside s := by
  have hread : ∀ t, Related X t → RoutesOnly s t →
      (do pure (← getQueue q).routes.keys : ServerM (List Name)) t =
        .ok (((links t).boundRoutes q).keys, t) ∧ ((links t).boundRoutes q).keys.Nodup := by
    intro t ht honly
    obtain ⟨y, hy⟩ := queue_alive.mp (honly.queue' hq)
    have hyr : (links t).boundRoutes q = y.routes := Heap.read_some hy
    exact ⟨(read_getQueue hy _).trans (by rw [hyr]), (ht.consistent.boundRoutes_wf q).nodup⟩
  refine wp_mono (wp_foreach (fun keys t => ∃ rest, Keylist.keys rest = keys ∧ Unbinding X s q rest t)
    (hread s h (Std.Refl.refl s)).1 ?_ ?_ ⟨_, rfl, h, Std.Refl.refl s, rfl⟩) ?_ fun _ h => h
  · rintro key keys t ⟨rest, hkeys, ht⟩
    have := hread t ht.related ht.only
    rw [ht.left, hkeys] at this
    exact ⟨[], this⟩
  · rintro key keys t ⟨rest, hkeys, ht⟩
    obtain - | ⟨⟨k, rs⟩, rest⟩ := rest
    · simp at hkeys
    · obtain ⟨rfl, rfl⟩ : k = key ∧ Keylist.keys rest = keys := by simpa [Keylist.keys] using hkeys
      have hne : rs ≠ [] :=
        (ht.left ▸ ht.related.consistent.boundRoutes_wf q).snd_ne_nil (List.mem_cons_self ..)
      rw [← Keylist.rest_of_ne_nil hne] at ht
      exact wp_mono (ejectRoutesKeyQueueT_spec hq ht hne) (fun _ u hu => ⟨rest, rfl, hu⟩) fun _ h => h
  · rintro _ t ⟨rest, hkeys, ht⟩
    rwa [List.map_eq_nil_iff.mp hkeys] at ht

/-- Only the relations of clients with queues have changed. -/
abbrev ClientsOnly (s t : EagleServer) : Prop := Has { links s with
  declaredQueues := (links t).declaredQueues
  declaredClients := (links t).declaredClients
  subscribedQueues := (links t).subscribedQueues
  subscribedClientsMsg := (links t).subscribedClientsMsg
  subscribedClientsNotify := (links t).subscribedClientsNotify } s.fresh t

instance : IsPreorder EagleServer ClientsOnly where
  refl _ := ⟨rfl, Nat.le_refl _⟩
  trans _ _ _ h h' := ⟨by rw [h'.agree, h.agree], Nat.le_trans h.fresh h'.fresh⟩

/-- The clients that a queue has left while they are unlinked from it. -/
structure Ejecting (X : Loose) (s : EagleServer) (q : Ptr) (declared msg notify : List Ptr)
    (t : EagleServer) : Prop where
  related : Related X t
  only : ClientsOnly s t
  declared : (links t).declaredClients q = declared
  msg : (links t).subscribedClientsMsg q = msg
  notify : (links t).subscribedClientsNotify q = notify

section Eject

variable {declared msg notify : List Ptr}

theorem Ejecting.queue (h : Ejecting X s q declared msg notify t)
    (hq : (links s).queues.alive q = true) : ∃ y, t.queueAt q = some y :=
  queue_alive.mp (by rw [h.only.agree]; exact hq)

theorem undeclare_ejecting (hX : q ∈ X.queues) (hq : (links s).queues.alive q = true)
    (h : Ejecting X s q (c :: declared) msg notify t) :
    wp (undeclareClientQueueT q c) (fun _ u => Ejecting X s q declared msg notify u) E t := by
  have hc := h.related.declarer (h.declared ▸ List.mem_cons_self .. : c ∈ (links t).declaredClients q)
  refine wp_mono (undeclareClientQueueT_spec hc (queue_alive.mpr (h.queue hq)))
    (fun _ u hu => ?_) fun _ h => h
  refine ⟨.has hu (h.related.consistent.undeclare (.inr hX)) { h.related.below with }, ?_, ?_, ?_, ?_⟩
  · refine IsTrans.trans (r := ClientsOnly) _ _ _ h.only ⟨by rw [hu.agree]; rfl, hu.fresh⟩
  · rw [hu.agree]
    simp [Links.undeclare, h.declared]
  · rw [hu.agree]; exact h.msg
  · rw [hu.agree]; exact h.notify

/-- One of the two lists of subscribers is unlinked. -/
theorem ejectSubscribers_spec {list : QueueT → List Ptr} {set : QueueT → List Ptr → QueueT}
    (I : List Ptr → EagleServer → Prop)
    (hread : ∀ l u, I l u → l.Nodup ∧ ∃ y, u.queueAt q = some y ∧ list y = l)
    (hbody : ∀ c rest u, I (c :: rest) u → ∃ x y, u.clientAt c = some x ∧ u.queueAt q = some y ∧
      I rest ((u.setClient c { x with subscribedQueues := x.subscribedQueues.erase q }).setQueue q
        (set y ((list y).erase c)))) {l : List Ptr} (h : I l s) :
    wp (ejectSubscribers q list set) (fun _ t => I [] t) E s := by
  have hread' : ∀ l u, I l u →
      (do pure (list (← getQueue q)) : ServerM (List Ptr)) u = .ok (l, u) := fun l u hu => by
    obtain ⟨-, y, hy, rfl⟩ := hread l u hu
    exact read_getQueue hy list
  refine wp_foreach I (hread' l s h) (fun c rest u hu => ⟨[], hread' _ u hu, (hread _ u hu).1⟩)
    (fun c rest u hu => ?_) h
  obtain ⟨x, y, hx, hy, hI⟩ := hbody c rest u hu
  rw [wp_bind]
  exact wp_modifyClient ⟨x, hx, wp_modifyQueue ⟨y, hy, hI⟩⟩

theorem ejectMsg_spec (hq : (links s).queues.alive q = true) (h : Ejecting X s q [] msg notify t) :
    wp (ejectSubscribers q QueueT.subscribedClientsMsg fun x l => { x with subscribedClientsMsg := l })
      (fun _ u => Ejecting X s q [] [] notify u) E t := by
  refine ejectSubscribers_spec (fun l u => Ejecting X s q [] l notify u) (fun l u hu => ?_)
    (fun c rest u hu => ?_) h
  · obtain ⟨y, hy⟩ := hu.queue hq
    have hn := hu.related.consistent.subscribed.nodup' q
    rw [Links.subscribedClients, hu.msg] at hn
    exact ⟨(List.nodup_append.mp hn).1, y, hy, (Heap.read_some hy).symm.trans hu.msg⟩
  · obtain ⟨y, hy⟩ := hu.queue hq
    obtain ⟨x, hx⟩ := client_alive.mp (hu.related.subscriber (c := c) (q := q)
      (by simp [Links.subscribedClients, hu.msg]))
    have hym : y.subscribedClientsMsg = c :: rest := (Heap.read_some hy).symm.trans hu.msg
    have hyn : (links u).subscribedClientsNotify q = y.subscribedClientsNotify := Heap.read_some hy
    have hxs : (links u).subscribedQueues c = x.subscribedQueues := Heap.read_some hx
    refine ⟨x, y, hx, hy, ?_⟩
    rw [hym, List.erase_cons_head]
    set v := (u.setClient c { x with subscribedQueues := x.subscribedQueues.erase q }).setQueue q
      { y with subscribedClientsMsg := rest } with hv
    have hl : links v = (links u).unsubscribe c q rest ((links u).subscribedClientsNotify q) := by
      rw [hv, links_setMsg (s := u.setClient c _) hy, links_setSubscribedQueues hx, Links.unsubscribe,
        hxs, Function.update_eq_self]
    have hperm : (rest ++ (links u).subscribedClientsNotify q).Perm
        (((links u).subscribedClients q).erase c) := by
      simp [Links.subscribedClients, hu.msg]
    refine ⟨.has ⟨hl, Nat.le_refl _⟩ (hu.related.consistent.unsubscribe hperm)
      { hu.related.below with }, ?_, ?_, ?_, ?_⟩
    · exact IsTrans.trans (r := ClientsOnly) _ _ _ hu.only ⟨by rw [hl]; rfl, Nat.le_refl _⟩
    · rw [hl]; exact hu.declared
    · rw [hl]; simp [Links.unsubscribe]
    · rw [hl]; simpa [Links.unsubscribe] using hu.notify

theorem ejectNotify_spec (hq : (links s).queues.alive q = true) (h : Ejecting X s q [] [] notify t) :
    wp (ejectSubscribers q QueueT.subscribedClientsNotify
        fun x l => { x with subscribedClientsNotify := l })
      (fun _ u => Ejecting X s q [] [] [] u) E t := by
  refine ejectSubscribers_spec (fun l u => Ejecting X s q [] [] l u) (fun l u hu => ?_)
    (fun c rest u hu => ?_) h
  · obtain ⟨y, hy⟩ := hu.queue hq
    have hn := hu.related.consistent.subscribed.nodup' q
    rw [Links.subscribedClients, hu.notify] at hn
    exact ⟨(List.nodup_append.mp hn).2.1, y, hy, (Heap.read_some hy).symm.trans hu.notify⟩
  · obtain ⟨y, hy⟩ := hu.queue hq
    obtain ⟨x, hx⟩ := client_alive.mp (hu.related.subscriber (c := c) (q := q)
      (by simp [Links.subscribedClients, hu.notify]))
    have hyn : y.subscribedClientsNotify = c :: rest := (Heap.read_some hy).symm.trans hu.notify
    have hxs : (links u).subscribedQueues c = x.subscribedQueues := Heap.read_some hx
    refine ⟨x, y, hx, hy, ?_⟩
    rw [hyn, List.erase_cons_head]
    set v := (u.setClient c { x with subscribedQueues := x.subscribedQueues.erase q }).setQueue q
      { y with subscribedClientsNotify := rest } with hv
    have hl : links v = (links u).unsubscribe c q ((links u).subscribedClientsMsg q) rest := by
      rw [hv, links_setNotify (s := u.setClient c _) hy, links_setSubscribedQueues hx,
        Links.unsubscribe, hxs, Function.update_eq_self]
    have hperm : ((links u).subscribedClientsMsg q ++ rest).Perm
        (((links u).subscribedClients q).erase c) := by
      simp [Links.subscribedClients, hu.msg, hu.notify]
    refine ⟨.has ⟨hl, Nat.le_refl _⟩ (hu.related.consistent.unsubscribe hperm)
      { hu.related.below with }, ?_, ?_, ?_, ?_⟩
    · exact IsTrans.trans (r := ClientsOnly) _ _ _ hu.only ⟨by rw [hl]; rfl, Nat.le_refl _⟩
    · rw [hl]; exact hu.declared
    · rw [hl]; simpa [Links.unsubscribe] using hu.msg
    · rw [hl]; simp [Links.unsubscribe]

theorem ejectClientsQueueT_spec (hX : q ∈ X.queues) (h : Related X s)
    (hq : (links s).queues.alive q = true) :
    wp (ejectClientsQueueT q) (fun _ t => Ejecting X s q [] [] [] t) E s := by
  rw [ejectClientsQueueT, wp_bind]
  have hread : ∀ l t, Ejecting X s q l ((links s).subscribedClientsMsg q)
      ((links s).subscribedClientsNotify q) t →
      (do pure (← getQueue q).declaredClients : ServerM (List Ptr)) t = .ok (l, t) ∧ l.Nodup := by
    intro l t ht
    obtain ⟨y, hy⟩ := ht.queue hq
    have hyd : y.declaredClients = l := (Heap.read_some hy).symm.trans ht.declared
    exact ⟨(read_getQueue hy _).trans (by rw [hyd]), ht.declared ▸ ht.related.consistent.declared.nodup' q⟩
  have h0 : Ejecting X s q ((links s).declaredClients q) ((links s).subscribedClientsMsg q)
      ((links s).subscribedClientsNotify q) s := ⟨h, Std.Refl.refl s, rfl, rfl, rfl⟩
  refine wp_mono (wp_foreach (fun l t => Ejecting X s q l ((links s).subscribedClientsMsg q)
    ((links s).subscribedClientsNotify q) t) (hread _ s h0).1 (fun c l t ht => ⟨[], hread _ t ht⟩)
    (fun c l t ht => undeclare_ejecting hX hq ht) h0) (fun _ t ht => ?_) fun _ h => h
  rw [wp_bind]
  exact wp_mono (ejectMsg_spec hq ht) (fun _ u hu => ejectNotify_spec hq hu) fun _ h => h

end Eject

/-- Only routes, their bindings and the list of queues have changed. -/
abbrev QueuesOnly (s t : EagleServer) : Prop := Has { links s with
  queues := (links t).queues
  routes := (links t).routes
  boundQueues := (links t).boundQueues
  boundRoutes := (links t).boundRoutes } s.fresh t

instance : IsPreorder EagleServer QueuesOnly where
  refl _ := ⟨rfl, Nat.le_refl _⟩
  trans _ _ _ h h' := ⟨by rw [h'.agree, h.agree], Nat.le_trans h.fresh h'.fresh⟩

/-- The end of the destructor, when the queue has no clients any more. -/
theorem releaseQueueT_spec (h : Related { X with queues := insert q X.queues } s)
    (hq : (links s).queues.alive q = true) (hd : (links s).declaredClients q = [])
    (hs : (links s).subscribedClients q = []) :
    wp (do
      ejectRoutesQueueT q
      withStock q Stock.releaseQueue
      modify fun s => s.freeQueue q)
      (fun _ t => Related X t ∧ QueuesOnly s t ∧ (links t).queues = (links s).queues.free q)
      Fault.Outside s := by
  rw [wp_bind]
  refine wp_mono (ejectRoutesQueueT_spec h hq) (fun _ t ht => ?_) fun _ h => h
  rw [wp_bind]
  refine wp_mono (withStock_frame Stock.releaseQueue_harmless (ht.only.queue' hq)) (fun _ u hu => ?_)
    fun _ h => h
  rw [wp_modify]
  have hul : links u = { links s with
      routes := (links t).routes
      boundQueues := (links t).boundQueues
      boundRoutes := (links t).boundRoutes } := by
    rw [hu.agree, ht.only.agree]
  obtain ⟨hm, hn⟩ := List.append_eq_nil_iff.mp hs
  have hfree : links (u.freeQueue q) =
      { links u with queues := (links u).queues.free q } := by
    have hb : (links u).boundRoutes q = [] := by rw [hu.agree]; exact ht.left
    have hd' : (links u).declaredClients q = [] := by rw [hul]; exact hd
    have hm' : (links u).subscribedClientsMsg q = [] := by rw [hul]; exact hm
    have hn' : (links u).subscribedClientsNotify q = [] := by rw [hul]; exact hn
    have hself : ∀ {β : Type} (f : Ptr → List β), f q = [] → Function.update f q [] = f :=
      fun f hf => by rw [← hf, Function.update_eq_self]
    rw [links_freeQueue, hself _ hb, hself _ hd', hself _ hm', hself _ hn']
  have hrel : Related { X with queues := insert q X.queues } u := ht.related.frame hu
  have hsu : (links u).subscribedClients q = [] := by rw [hul]; exact hs
  have hle : s.fresh ≤ u.fresh := Nat.le_trans ht.only.fresh hu.fresh
  refine ⟨⟨?_, ?_⟩, ⟨?_, hle⟩, ?_⟩
  · rw [hfree]
    exact hrel.consistent.freeQueue hsu
  · rw [hfree]
    exact { hrel.below with queues := hrel.below.queues.free q }
  · rw [hfree, hul]
  · rw [hfree, hul]

theorem deleteQueueT_spec (h : Related { X with queues := insert q X.queues } s)
    (hq : (links s).queues.alive q = true) :
    wp (deleteQueueT q) (fun _ t => Related X t ∧ (links t).clients = (links s).clients ∧
      (links t).queues = (links s).queues.free q) Fault.Outside s := by
  rw [deleteQueueT, wp_bind]
  refine wp_mono (ejectClientsQueueT_spec (Set.mem_insert _ _) h hq) (fun _ t ht => ?_) fun _ h => h
  refine wp_mono (releaseQueueT_spec ht.related (queue_alive.mpr (ht.queue hq)) ht.declared
    (by simp [Links.subscribedClients, ht.msg, ht.notify])) (fun _ u ⟨hu, honly, hl⟩ => ⟨hu, ?_, ?_⟩)
    fun _ h => h
  · rw [honly.agree, ht.only.agree]
  · rw [hl, ht.only.agree]

/-- A queue that no client has declared leaves the clients alone. -/
theorem deleteQueueT_idle (h : Related { X with queues := insert q X.queues } s)
    (hq : (links s).queues.alive q = true) (hd : (links s).declaredClients q = [])
    (hs : (links s).subscribedClients q = []) :
    wp (deleteQueueT q) (fun _ t => Related X t ∧ QueuesOnly s t ∧
      (links t).queues = (links s).queues.free q) Fault.Outside s := by
  obtain ⟨y, hy⟩ := queue_alive.mp hq
  obtain ⟨hm, hn⟩ := List.append_eq_nil_iff.mp hs
  have hidle : ∀ {β : Type} [DecidableEq β] {f : QueueT → List β} {body : β → ServerM Unit},
      f y = [] → wp (foreach (do pure (f (← getQueue q))) .link body) (fun _ t => t = s)
        Fault.Outside s := fun {β} _ {f body} hf => by
    rw [foreach, wp_bind]
    refine wp_of_ok (read_getQueue hy f) ?_
    rw [hf]
    rfl
  have hyd : y.declaredClients = [] := (Heap.read_some hy).symm.trans hd
  have hym : y.subscribedClientsMsg = [] := (Heap.read_some hy).symm.trans hm
  have hyn : y.subscribedClientsNotify = [] := (Heap.read_some hy).symm.trans hn
  rw [deleteQueueT, wp_bind, ejectClientsQueueT, wp_bind]
  refine wp_mono (hidle (f := QueueT.declaredClients) hyd) (fun _ t ht => ?_) fun _ h => h
  subst ht
  rw [wp_bind]
  refine wp_mono (hidle (f := QueueT.subscribedClientsMsg) hym) (fun _ u hu => ?_) fun _ h => h
  subst hu
  refine wp_mono (hidle (f := QueueT.subscribedClientsNotify) hyn) (fun _ v hv => ?_) fun _ h => h
  subst hv
  exact releaseQueueT_spec h hq hd hs

theorem Related.delistQueue (h : Related X s) : Related { X with queues := insert q X.queues }
    { s with queues := s.queues.erase q } :=
  ⟨h.consistent.delistQueue, { h.below with }⟩

theorem listDeleteQueue_spec (h : Related X s) :
    wp (listDeleteQueue q) (fun _ t => Related X t ∧ (links t).clients = (links s).clients ∧
      (links t).queues.list = (links s).queues.list.erase q) Fault.Outside s := by
  rw [listDeleteQueue, wp_bind, wp_get]
  refine wp_ite (fun hq => ?_) fun hq => ⟨h, rfl, (List.erase_of_not_mem hq).symm⟩
  rw [wp_bind, wp_modify, wp_bind]
  refine wp_mono (deleteQueueT_spec h.delistQueue (h.consistent.queues.alive hq))
    (fun _ t ⟨ht, hc, hl⟩ => ⟨ht, hc, by rw [hl]; rfl⟩) fun _ h => h

/-- A queue that deletes itself has no clients. -/
theorem processQueueT_spec (h : Related .none s) (hq : (links s).queues.alive q = true) :
    wp (processQueueT q) (fun _ t => Related .none t ∧ QueuesOnly s t) Fault.Outside s := by
  obtain ⟨y, hy⟩ := queue_alive.mp hq
  have hyd : (links s).declaredClients q = y.declaredClients := Heap.read_some hy
  rw [processQueueT, wp_bind, wp_getQueue hy]
  refine wp_ite (fun hauto => ?_) fun _ => ⟨h, Std.Refl.refl s⟩
  have hd : (links s).declaredClients q = [] := hyd.trans hauto.2
  have hs : (links s).subscribedClients q = [] := List.eq_nil_iff_forall_not_mem.mpr fun c hc => by
    have := h.consistent.within c q (h.consistent.subscribed.mem.mpr hc) (by simp [Loose.none])
    rw [h.consistent.declared.mem, hd] at this
    simp at this
  rw [wp_bind, listDeleteQueue, wp_bind, wp_get]
  refine wp_ite (fun _ => ?_) fun _ => ⟨h, Std.Refl.refl s⟩
  rw [wp_bind, wp_modify, wp_bind]
  refine wp_mono (deleteQueueT_idle h.delistQueue hq hd hs) (fun _ t ⟨ht, honly, _⟩ => ⟨ht, ?_⟩)
    fun _ h => h
  exact ⟨by rw [honly.agree]; rfl, honly.fresh⟩

end EagleMQ
