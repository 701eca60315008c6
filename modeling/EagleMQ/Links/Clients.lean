import EagleMQ.Handlers
import EagleMQ.Links.Channels

/-! The end of a connection. The client leaves its queues and channels one by
one, and each of them may go away with it. -/

namespace EagleMQ

open Prog

variable {X : Loose} {s t : EagleServer} {c q r ch : Ptr} {d : Side} {node : TopicNode} {E : Fault → Prop}

/-- The relations that a client has left while it is unlinked. -/
structure Parting (s : EagleServer) (c : Ptr) (declared subscribed : List Ptr)
    (topics : Side → Keylist Ptr TopicNode) (t : EagleServer) : Prop where
  related : Related .none t
  clients : (links t).clients = (links s).clients
  declared : (links t).declaredQueues c = declared
  subscribed : (links t).subscribedQueues c = subscribed
  topics : ∀ d, (links t).topics d c = topics d
  others : ∀ c', c' ≠ c → (links t).declaredQueues c' = (links s).declaredQueues c'

variable {declared subscribed : List Ptr} {topics : Side → Keylist Ptr TopicNode}

theorem Parting.client (h : Parting s c declared subscribed topics t)
    (hc : (links s).clients.alive c = true) : (links t).clients.alive c = true := by
  rwa [h.clients]

theorem unsubscribe_parting (hc : (links s).clients.alive c = true)
    (h : Parting s c declared (q :: subscribed) topics t) :
    wp (unsubscribeClientQueueT q c) (fun _ u => Parting s c declared subscribed topics u) E t := by
  have hq := h.related.subscribedQueue (h.subscribed ▸ List.mem_cons_self .. :
    q ∈ (links t).subscribedQueues c)
  refine wp_mono (unsubscribeClientQueueT_spec h.related (h.client hc) hq)
    (fun _ u ⟨msg, notify, hperm, hu⟩ => ?_) fun _ h => h
  refine ⟨.has hu (h.related.consistent.unsubscribe hperm) { h.related.below with }, ?_, ?_, ?_, ?_, ?_⟩
  · rw [hu.agree]; exact h.clients
  · rw [hu.agree]; exact h.declared
  · rw [hu.agree]
    simp [Links.unsubscribe, h.subscribed]
  · rw [hu.agree]; exact h.topics
  · rw [hu.agree]; exact h.others

theorem undeclare_parting (hc : (links s).clients.alive c = true)
    (h : Parting s c (q :: declared) [] topics t) :
    wp (do undeclareClientQueueT q c; processQueueT q)
      (fun _ u => Parting s c declared [] topics u) Fault.Outside t := by
  have hq := h.related.declaredQueue (h.declared ▸ List.mem_cons_self .. :
    q ∈ (links t).declaredQueues c)
  rw [wp_bind]
  refine wp_mono (undeclareClientQueueT_spec (h.client hc) hq) (fun _ u hu => ?_) fun _ h => h
  have hrel : Related .none u := .has hu (h.related.consistent.undeclare (.inl (by simp [h.subscribed])))
    { h.related.below with }
  refine wp_mono (processQueueT_spec hrel (hu.queue hq)) (fun _ v ⟨hv, honly⟩ => ?_) fun _ h => h
  refine ⟨hv, ?_, ?_, ?_, ?_, fun c' hc' => ?_⟩
  · rw [honly.agree, hu.agree]; exact h.clients
  · rw [honly.agree, hu.agree]
    simp [Links.undeclare, h.declared]
  · rw [honly.agree, hu.agree]; exact h.subscribed
  · rw [honly.agree, hu.agree]; exact h.topics
  · rw [honly.agree, hu.agree]
    simp [Links.undeclare, hc', h.others c' hc']

theorem ejectQueueClient_spec (h : Related .none s) (hc : (links s).clients.alive c = true) :
    wp (ejectQueueClient c) (fun _ t => Parting s c [] [] (fun d => (links s).topics d c) t)
      Fault.Outside s := by
  have hsub : ∀ l t, Parting s c ((links s).declaredQueues c) l (fun d => (links s).topics d c) t →
      (do pure (← getClient c).subscribedQueues : ServerM (List Ptr)) t = .ok (l, t) ∧ l.Nodup := by
    intro l t ht
    obtain ⟨x, hx⟩ := client_alive.mp (ht.client hc)
    have hxs : x.subscribedQueues = l := (Heap.read_some hx).symm.trans ht.subscribed
    exact ⟨(read_getClient hx _).trans (by rw [hxs]),
      ht.subscribed ▸ ht.related.consistent.subscribed.nodup c⟩
  have hdec : ∀ l t, Parting s c l [] (fun d => (links s).topics d c) t →
      (do pure (← getClient c).declaredQueues : ServerM (List Ptr)) t = .ok (l, t) ∧ l.Nodup := by
    intro l t ht
    obtain ⟨x, hx⟩ := client_alive.mp (ht.client hc)
    have hxd : x.declaredQueues = l := (Heap.read_some hx).symm.trans ht.declared
    exact ⟨(read_getClient hx _).trans (by rw [hxd]),
      ht.declared ▸ ht.related.consistent.declared.nodup c⟩
  have h0 : Parting s c ((links s).declaredQueues c) ((links s).subscribedQueues c)
      (fun d => (links s).topics d c) s := ⟨h, rfl, rfl, rfl, fun _ => rfl, fun _ _ => rfl⟩
  rw [ejectQueueClient, wp_bind]
  refine wp_mono (wp_foreach (fun l t => Parting s c ((links s).declaredQueues c) l
    (fun d => (links s).topics d c) t) (hsub _ s h0).1 (fun q l t ht => ⟨[], hsub _ t ht⟩)
    (fun q l t ht => unsubscribe_parting hc ht) h0) (fun _ t ht => ?_) fun _ h => h
  exact wp_foreach (fun l u => Parting s c l [] (fun d => (links s).topics d c) u) (hdec _ t ht).1
    (fun q l u hu => ⟨[], hdec _ u hu⟩) (fun q l u hu => undeclare_parting hc hu) ht

/-! ### Channels -/

theorem ejectChannel_spec {nodes : List TopicNode} {rest : Keylist Ptr TopicNode}
    (hc : (links s).clients.alive c = true)
    (h : Parting s c [] [] (Function.update topics d (Keylist.rest ch nodes rest)) t)
    (hne : nodes ≠ []) :
    wp (foreach (do pure (((← getClient c).side d).values ch)) .link fun node => do
      if node ∈ ((← getChannel ch).side d).keys then
        let _ ← unsubscribeSide d ch c node.2
      else throw .link) (fun _ u => Parting s c [] [] (Function.update topics d rest) u) E t := by
  have hread : ∀ (nodes : List TopicNode) u, nodes ≠ [] →
      Parting s c [] [] (Function.update topics d (Keylist.rest ch nodes rest)) u →
      (do pure (((← getClient c).side d).values ch) : ServerM (List TopicNode)) u = .ok (nodes, u) ∧
        nodes.Nodup := by
    intro nodes u hne hu
    obtain ⟨x, hx⟩ := client_alive.mp (hu.client hc)
    have hxt : (links u).topics d c = x.side d := Heap.read_some (f := fun x => EagleClient.side x d) hx
    have hv : ((links u).topics d c).values ch = nodes := by
      simp [hu.topics, Keylist.rest_of_ne_nil hne, Keylist.values]
    refine ⟨(read_getClient hx fun x => (x.side d).values ch).trans (by rw [← hxt, hv]), ?_⟩
    exact hv ▸ (hu.related.consistent.joined d ch).nodup' c
  refine wp_mono (wp_foreach
    (fun nodes u => Parting s c [] [] (Function.update topics d (Keylist.rest ch nodes rest)) u)
    (hread nodes t hne h).1 (fun node nodes u hu => ⟨[], hread _ u (by simp) hu⟩)
    (fun node nodes u hu => ?_) h) (fun _ u hu => by simpa using hu) fun _ h => h
  have hmem : node ∈ ((links u).topics d c).values ch := by
    rw [hu.topics, Function.update_self, Keylist.rest_of_ne_nil (by simp), Keylist.values, if_pos rfl]
    simp
  obtain ⟨hkey, hch⟩ := hu.related.topic hmem
  obtain ⟨y, hy⟩ := channel_alive.mp hch
  have hym : (links u).members d ch = y.side d := Heap.read_some (f := fun x => ChannelT.side x d) hy
  rw [wp_bind, wp_getChannel hy, ← hym, if_pos hkey, wp_bind]
  refine wp_mono (unsubscribeSide_spec hu.related (hu.client hc) hch)
    (fun _ v hv => ⟨hv.1, ?_, ?_, ?_, fun d' => ?_, ?_⟩) fun _ h => h
  all_goals obtain ⟨hv, honly, htopics⟩ := hv
  · rw [honly.agree]; exact hu.clients
  · rw [honly.agree]; exact hu.declared
  · rw [honly.agree]; exact hu.subscribed
  · have hleft := hu.topics d
    rw [Function.update_self] at hleft
    rw [htopics node hkey rfl]
    by_cases hd : d' = d
    · subst hd
      simp only [Links.leave, Function.update_self, hleft, Keylist.remove_rest]
    · simpa [Links.leave, hd] using hu.topics d'
  · rw [honly.agree]; exact hu.others

theorem ejectChannelClientSide_spec (hc : (links s).clients.alive c = true)
    (h : Parting s c [] [] topics t) :
    wp (ejectChannelClientSide d c) (fun _ u => Parting s c [] [] (Function.update topics d []) u)
      E t := by
  have hread : ∀ rest u, Parting s c [] [] (Function.update topics d rest) u →
      (do pure ((← getClient c).side d).keys : ServerM (List Ptr)) u = .ok (Keylist.keys rest, u) ∧
        (Keylist.keys rest).Nodup := by
    intro rest u hu
    obtain ⟨x, hx⟩ := client_alive.mp (hu.client hc)
    have hxt : (links u).topics d c = x.side d := Heap.read_some (f := fun x => EagleClient.side x d) hx
    have hr : (links u).topics d c = rest := by rw [hu.topics, Function.update_self]
    exact ⟨(read_getClient hx fun x => (x.side d).keys).trans (by rw [← hxt, hr]),
      hr ▸ (hu.related.consistent.topics_wf d c).nodup⟩
  have h0 : Parting s c [] [] (Function.update topics d (topics d)) t := by
    rwa [Function.update_eq_self]
  refine wp_mono (wp_foreach (fun chs u => ∃ rest, Keylist.keys rest = chs ∧
    Parting s c [] [] (Function.update topics d rest) u) (hread _ t h0).1 ?_ ?_ ⟨_, rfl, h0⟩) ?_
    fun _ h => h
  · rintro ch chs u ⟨rest, hkeys, hu⟩
    have := hread rest u hu
    rw [hkeys] at this
    exact ⟨[], this⟩
  · rintro ch chs u ⟨rest, hkeys, hu⟩
    obtain - | ⟨⟨k, nodes⟩, rest⟩ := rest
    · simp at hkeys
    · obtain ⟨rfl, rfl⟩ : k = ch ∧ Keylist.keys rest = chs := by simpa [Keylist.keys] using hkeys
      have hleft : (links u).topics d c = (k, nodes) :: rest := by rw [hu.topics, Function.update_self]
      have hne : nodes ≠ [] :=
        (hleft ▸ hu.related.consistent.topics_wf d c).snd_ne_nil (List.mem_cons_self ..)
      rw [← Keylist.rest_of_ne_nil hne] at hu
      exact wp_mono (ejectChannel_spec hc hu hne) (fun _ v hv => ⟨rest, rfl, hv⟩) fun _ h => h
  · rintro _ u ⟨rest, hkeys, hu⟩
    rwa [List.map_eq_nil_iff.mp hkeys] at hu

theorem ejectChannelClient_spec (hc : (links s).clients.alive c = true)
    (h : Parting s c [] [] topics t) :
    wp (ejectChannelClient c) (fun _ u => Parting s c [] [] (fun _ => []) u) E t := by
  rw [ejectChannelClient, wp_bind]
  refine wp_mono (ejectChannelClientSide_spec (d := .topic) hc h) (fun _ u hu => ?_) fun _ h => h
  refine wp_mono (ejectChannelClientSide_spec (d := .pattern) hc hu) (fun _ v hv => ?_) fun _ h => h
  refine { hv with topics := fun d => ?_ }
  rw [hv.topics]
  cases d <;> simp

/-! ### The record of the client -/

theorem freeClient_spec (h : Related .none s) (hc : (links s).clients.alive c = true) :
    wp (freeClient c) (fun _ t => Related .none t ∧
      (links t).clients = ((links s).clients.delist c).free c ∧
      ∀ c', c' ≠ c → (links t).declaredQueues c' = (links s).declaredQueues c') Fault.Outside s := by
  rw [freeClient, wp_bind]
  refine wp_mono (ejectQueueClient_spec h hc) (fun _ t ht => ?_) fun _ h => h
  rw [wp_bind]
  refine wp_mono (ejectChannelClient_spec hc ht) (fun _ u hu => ?_) fun _ h => h
  obtain ⟨x, hx⟩ := client_alive.mp (hu.client hc)
  rw [wp_bind, wp_getClient hx, wp_bind]
  refine wp_mono (keeps_forM decrementReferencesCount_frame x.responses u) (fun _ v hv => ?_)
    fun _ h => h
  have hd : (links v).declaredQueues c = [] := by rw [hv.agree]; exact hu.declared
  have hs : (links v).subscribedQueues c = [] := by rw [hv.agree]; exact hu.subscribed
  have ht : ∀ d, (links v).topics d c = [] := fun d => by rw [hv.agree]; exact hu.topics d
  have hself : ∀ {β : Type} (f : Ptr → List β), f c = [] → Function.update f c [] = f :=
    fun f hf => by rw [← hf, Function.update_eq_self]
  have hl : links { v with
      clients := v.clients.erase c
      clientAt := Function.update v.clientAt c none } =
      { links v with clients := ((links v).clients.delist c).free c } := by
    have htopics : (fun d => Function.update ((links v).topics d) c []) = (links v).topics := by
      funext d
      exact hself _ (ht d)
    refine (links_freeClient (s := { v with clients := v.clients.erase c })).trans ?_
    rw [show links { v with clients := v.clients.erase c } =
      { links v with clients := (links v).clients.delist c } from rfl]
    dsimp only
    rw [hself _ hd, hself _ hs, htopics]
  have hrel := hu.related.frame hv
  rw [wp_modify]
  refine ⟨⟨?_, ?_⟩, ?_, fun c' hc' => ?_⟩
  · rw [hl]; exact hrel.consistent.expel
  · rw [hl]; exact { hrel.below with clients := hrel.below.clients.free c }
  · rw [hl, hv.agree, hu.clients]
  · rw [hl, hv.agree, hu.others c' hc']

end EagleMQ
