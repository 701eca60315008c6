import EagleMQ.Links.Teardown

/-! Subscriptions to channels, the destructor of a channel and the end of a
client. While a channel is torn down it is off the server's list, so that the
last client to leave it does not start its destructor once more. -/

namespace EagleMQ

open Prog

variable {X : Loose} {s t : EagleServer} {c q r ch : Ptr} {d : Side} {node : TopicNode} {name : Name}
  {E : Fault → Prop}

/-- Only channels and their subscriptions have changed. -/
abbrev ChannelsOnly (s t : EagleServer) : Prop := Has { links s with
  channels := (links t).channels
  members := (links t).members
  topics := (links t).topics } s.fresh t

instance : IsPreorder EagleServer ChannelsOnly where
  refl _ := ⟨rfl, Nat.le_refl _⟩
  trans _ _ _ h h' := ⟨by rw [h'.agree, h.agree], Nat.le_trans h.fresh h'.fresh⟩

theorem Has.channelsOnly {L : Links} {n : Ptr} (h : Has L n t) (hn : s.fresh ≤ n)
    (hL : L = { links s with channels := L.channels, members := L.members, topics := L.topics }) :
    ChannelsOnly s t := ⟨by rw [h.agree]; exact hL, Nat.le_trans hn h.fresh⟩

/-! ### Subscribing -/

theorem linkSide_spec (h : Related X s) (hc : (links s).clients.alive c = true)
    (hch : (links s).channels.alive ch = true) (hn : c ∉ ((links s).members d ch).values node) :
    wp (linkSide d ch c node) (fun _ t => Has ((links s).join d ch c node) s.fresh t) E s := by
  obtain ⟨x, hx⟩ := client_alive.mp hc
  obtain ⟨y, hy⟩ := channel_alive.mp hch
  have hxt : (links s).topics d c = x.side d := Heap.read_some (f := fun x => EagleClient.side x d) hx
  have hym : (links s).members d ch = y.side d := Heap.read_some (f := fun x => ChannelT.side x d) hy
  have hnot : node ∉ (x.side d).values ch := fun hm => by
    rw [← hxt] at hm
    exact hn ((h.consistent.joined d ch).mem.mpr hm)
  rw [linkSide, wp_bind]
  refine wp_modifyChannel ⟨y, hy, wp_modifyClient ⟨x, hx, ?_, Nat.le_refl _⟩⟩
  rw [if_neg hnot, links_setTopics (s := s.setChannel ch _) hx, links_setMembers hy, Links.join, hxt,
    hym]

theorem subscribeSide_spec (h : Related X s) (hc : (links s).clients.alive c = true)
    (hch : (links s).channels.alive ch = true) :
    wp (subscribeSide d ch c name) (fun _ t => Related X t ∧ ChannelsOnly s t) E s := by
  obtain ⟨y, hy⟩ := channel_alive.mp hch
  have hym : (links s).members d ch = y.side d := Heap.read_some (f := fun x => ChannelT.side x d) hy
  rw [subscribeSide, wp_bind, wp_getChannel hy]
  cases hf : findNode (y.side d) name with
  | none =>
    have hname : name ∉ ((links s).members d ch).keys.map Prod.snd := fun hm => by
      obtain ⟨n, hn, rfl⟩ := List.mem_map.mp hm
      rw [findNode, List.find?_eq_none] at hf
      exact hf n (hym ▸ hn) (by simp)
    have hnot : c ∉ ((links s).members d ch).values (s.fresh, name) := fun hm =>
      hname (List.mem_map_of_mem (Keylist.mem_keys_of_mem hm))
    have hup : Related X { s with fresh := s.fresh + 1 } :=
      h.frame ⟨rfl, Nat.le_succ _⟩
    dsimp only
    rw [wp_bind, wp_get, wp_bind, wp_modify]
    refine wp_mono (linkSide_spec (d := d) hup hc hch hnot) (fun _ t ht => ⟨?_, ?_⟩) fun _ h => h
    · exact .has ht (hup.consistent.join hnot (.inr hname)) { hup.below with }
    · exact ht.channelsOnly (Nat.le_succ _) rfl
  | some node =>
    refine wp_ite (fun _ => ⟨h, Std.Refl.refl s⟩) fun hn => ?_
    refine wp_mono (linkSide_spec h hc hch (hym ▸ hn)) (fun _ t ht => ⟨?_, ?_⟩) fun _ h => h
    · exact .has ht (h.consistent.join (hym ▸ hn) (.inl (hym ▸ (findNode_some hf).1)))
        { h.below with }
    · exact ht.channelsOnly (Nat.le_refl _) rfl

/-! ### Unsubscribing -/

/-- Both sides forget the subscription. -/
theorem leaveSide_spec (node : TopicNode) (hc : (links s).clients.alive c = true)
    (hch : (links s).channels.alive ch = true) :
    wp (do
      modifyChannel ch fun x => x.setSide d ((x.side d).remove node c)
      removeKeylistChannelT d c ch node)
      (fun _ t => Has ((links s).leave d ch c node) s.fresh t) E s := by
  obtain ⟨x, hx⟩ := client_alive.mp hc
  obtain ⟨y, hy⟩ := channel_alive.mp hch
  have hxt : (links s).topics d c = x.side d := Heap.read_some (f := fun x => EagleClient.side x d) hx
  have hym : (links s).members d ch = y.side d := Heap.read_some (f := fun x => ChannelT.side x d) hy
  rw [wp_bind]
  refine wp_modifyChannel ⟨y, hy, wp_modifyClient ⟨x, hx, ?_, Nat.le_refl _⟩⟩
  rw [links_setTopics (s := s.setChannel ch _) hx, links_setMembers hy, Links.leave, hxt, hym]

theorem findNode_of_mem (h : Related X s) {y : ChannelT} (hy : s.channelAt ch = some y)
    (hn : node ∈ ((links s).members d ch).keys) : findNode (y.side d) node.2 = some node := by
  have hym : (links s).members d ch = y.side d := Heap.read_some (f := fun x => ChannelT.side x d) hy
  have hnames := h.consistent.names d ch
  rw [hym] at hn hnames
  cases hf : findNode (y.side d) node.2 with
  | none =>
    rw [findNode, List.find?_eq_none] at hf
    exact absurd (hf node hn) (by simp)
  | some n =>
    obtain ⟨hmem, heq⟩ := findNode_some hf
    rw [List.inj_on_of_nodup_map hnames hmem hn heq]

/-- A channel that is off the list stays, whoever leaves it. -/
theorem unsubscribeWith_loose {destroy : Ptr → ServerM Unit} (h : Related X s) (hX : ch ∈ X.channels)
    (hc : (links s).clients.alive c = true) (hch : (links s).channels.alive ch = true)
    (hn : node ∈ ((links s).members d ch).keys) :
    wp (unsubscribeWith destroy d ch c node.2)
      (fun _ t => Has ((links s).leave d ch c node) s.fresh t) E s := by
  obtain ⟨y, hy⟩ := channel_alive.mp hch
  rw [unsubscribeWith, wp_bind, wp_getChannel hy, findNode_of_mem h hy hn]
  have hleave := leaveSide_spec (E := E) (d := d) node hc hch
  rw [wp_bind] at hleave ⊢
  refine wp_mono hleave (fun _ t ht => ?_) fun _ h => h
  rw [wp_bind]
  refine wp_mono ht (fun _ u hu => ?_) fun _ h => h
  obtain ⟨z, hz⟩ := channel_alive.mp (by rw [hu.agree]; exact hch : (links u).channels.alive ch = true)
  rw [wp_bind, wp_getChannel hz]
  refine wp_ite (fun _ => ?_) fun _ => hu
  have hoff : ch ∉ u.channels := by
    have : (links u).channels = (links s).channels := by rw [hu.agree]; rfl
    exact fun hm => h.consistent.channels.not_mem hX (this ▸ hm)
  rw [wp_bind, listDeleteWith, wp_bind, wp_get, if_neg hoff]
  exact hu

/-! ### The end of a channel -/

/-- The clients under the nodes of one side leave one by one; `rest` is left. -/
structure Leaving (X : Loose) (s : EagleServer) (d : Side) (ch : Ptr)
    (rest : Keylist TopicNode Ptr) (t : EagleServer) : Prop where
  related : Related X t
  only : ChannelsOnly s t
  alive : (links t).channels = (links s).channels
  left : (links t).members d ch = rest
  other : ∀ d', d' ≠ d → (links t).members d' ch = (links s).members d' ch

theorem Links.leave_members (L : Links) (d d' : Side) (ch c : Ptr) (node : TopicNode) :
    (L.leave d ch c node).members d' ch =
      if d' = d then (L.members d ch).remove node c else L.members d' ch := by
  by_cases hd : d' = d
  · subst hd; simp [Links.leave]
  · simp [Links.leave, hd]

theorem ejectNode_spec {destroy : Ptr → ServerM Unit} {cs : List Ptr}
    {rest : Keylist TopicNode Ptr} (hX : ch ∈ X.channels) (hch : (links s).channels.alive ch = true)
    (h : Leaving X s d ch (Keylist.rest node cs rest) t) (hcs : cs ≠ []) :
    wp (foreach (do pure (((← getChannel ch).side d).values node)) .link fun c => do
      let _ ← unsubscribeWith destroy d ch c node.2) (fun _ u => Leaving X s d ch rest u) E t := by
  have hread : ∀ (cs : List Ptr) u, cs ≠ [] → Leaving X s d ch (Keylist.rest node cs rest) u →
      (do pure (((← getChannel ch).side d).values node) : ServerM (List Ptr)) u = .ok (cs, u) ∧
        cs.Nodup := by
    intro cs u hne hu
    obtain ⟨y, hy⟩ := channel_alive.mp (by rw [hu.alive]; exact hch : (links u).channels.alive ch = true)
    have hym : (links u).members d ch = y.side d := Heap.read_some (f := fun x => ChannelT.side x d) hy
    have hv : ((links u).members d ch).values node = cs := by
      simp [hu.left, Keylist.rest_of_ne_nil hne, Keylist.values]
    refine ⟨(read_getChannel hy fun x => (x.side d).values node).trans (by rw [← hym, hv]), ?_⟩
    exact hv ▸ (hu.related.consistent.joined d ch).nodup node
  refine wp_mono (wp_foreach (fun cs u => Leaving X s d ch (Keylist.rest node cs rest) u)
    (hread cs t hcs h).1 (fun c cs u hu => ⟨[], hread _ u (by simp) hu⟩) (fun c cs u hu => ?_) h)
    (fun _ u hu => by simpa using hu) fun _ h => h
  have hmem : c ∈ ((links u).members d ch).values node := by
    rw [hu.left, Keylist.rest_of_ne_nil (by simp), Keylist.values, if_pos rfl]
    simp
  rw [wp_bind]
  refine wp_mono (unsubscribeWith_loose hu.related hX (hu.related.member hmem)
    (by rw [hu.alive]; exact hch) (Keylist.mem_keys_of_mem hmem)) (fun _ v hv => ?_) fun _ h => h
  refine ⟨.has hv hu.related.consistent.leave { hu.related.below with },
    IsTrans.trans (r := ChannelsOnly) _ _ _ hu.only (hv.channelsOnly (Nat.le_refl _) rfl), ?_, ?_,
    fun d' hd => ?_⟩
  · rw [hv.agree]; exact hu.alive
  · rw [hv.agree, Links.leave_members, if_pos rfl, hu.left, Keylist.remove_rest]
  · rw [hv.agree, Links.leave_members, if_neg hd, hu.other d' hd]

theorem ejectSide_spec {destroy : Ptr → ServerM Unit} (hX : ch ∈ X.channels) (h : Related X s)
    (hch : (links s).channels.alive ch = true) :
    wp (ejectSide destroy d ch) (fun _ t => Leaving X s d ch [] t) E s := by
  have hread : ∀ t, Related X t → (links t).channels = (links s).channels →
      (do pure ((← getChannel ch).side d).keys : ServerM (List TopicNode)) t =
        .ok (((links t).members d ch).keys, t) ∧ ((links t).members d ch).keys.Nodup := by
    intro t ht halive
    obtain ⟨y, hy⟩ := channel_alive.mp (by rw [halive]; exact hch : (links t).channels.alive ch = true)
    have hym : (links t).members d ch = y.side d := Heap.read_some (f := fun x => ChannelT.side x d) hy
    exact ⟨(read_getChannel hy fun x => (x.side d).keys).trans (by rw [hym]),
      (ht.consistent.members_wf d ch).nodup⟩
  refine wp_mono (wp_foreach (fun nodes t => ∃ rest, Keylist.keys rest = nodes ∧ Leaving X s d ch rest t)
    (hread s h rfl).1 ?_ ?_ ⟨_, rfl, h, Std.Refl.refl s, rfl, rfl, fun _ _ => rfl⟩) ?_ fun _ h => h
  · rintro node nodes t ⟨rest, hkeys, ht⟩
    have := hread t ht.related ht.alive
    rw [ht.left, hkeys] at this
    exact ⟨[], this⟩
  · rintro node nodes t ⟨rest, hkeys, ht⟩
    obtain - | ⟨⟨n, cs⟩, rest⟩ := rest
    · simp at hkeys
    · obtain ⟨rfl, rfl⟩ : n = node ∧ Keylist.keys rest = nodes := by simpa [Keylist.keys] using hkeys
      have hne : cs ≠ [] :=
        (ht.left ▸ ht.related.consistent.members_wf d ch).snd_ne_nil (List.mem_cons_self ..)
      rw [← Keylist.rest_of_ne_nil hne] at ht
      exact wp_mono (ejectNode_spec hX hch ht hne) (fun _ u hu => ⟨rest, rfl, hu⟩) fun _ h => h
  · rintro _ t ⟨rest, hkeys, ht⟩
    rwa [List.map_eq_nil_iff.mp hkeys] at ht

/-- The record of a channel without clients is freed. -/
theorem freeChannel_spec (h : Related { X with channels := insert ch X.channels } s)
    (hm : ∀ d, (links s).members d ch = []) :
    Related X (s.freeChannel ch) ∧
      links (s.freeChannel ch) =
        { links s with channels := (links s).channels.free ch } := by
  have hl : links (s.freeChannel ch) =
      { links s with channels := (links s).channels.free ch } := by
    have hself : (fun d => Function.update ((links s).members d) ch []) = (links s).members := by
      funext d
      rw [← hm d, Function.update_eq_self]
    rw [links_freeChannel, hself]
  refine ⟨⟨?_, ?_⟩, hl⟩
  · rw [hl]; exact h.consistent.freeChannel
  · rw [hl]; exact { h.below with channels := h.below.channels.free ch }

theorem destroyChannelT_spec (n : ℕ) (h : Related { X with channels := insert ch X.channels } s)
    (hch : (links s).channels.alive ch = true) :
    wp (destroyChannelT (n + 1) ch) (fun _ t => Related X t ∧ ChannelsOnly s t ∧
      (links t).channels = (links s).channels.free ch) E s := by
  rw [destroyChannelT, wp_bind]
  refine wp_mono (ejectSide_spec (Set.mem_insert _ _) h hch) (fun _ t ht => ?_) fun _ h => h
  have hcht : (links t).channels.alive ch = true := by rw [ht.alive]; exact hch
  rw [wp_bind]
  refine wp_mono (ejectSide_spec (Set.mem_insert _ _) ht.related hcht) (fun _ u hu => ?_) fun _ h => h
  have hm : ∀ d, (links u).members d ch = [] := fun d => by
    cases d with
    | topic => rw [hu.other .topic (by decide), ht.left]
    | pattern => exact hu.left
  obtain ⟨hrel, hl⟩ := freeChannel_spec hu.related hm
  have honly : ChannelsOnly s u := IsTrans.trans (r := ChannelsOnly) _ _ _ ht.only hu.only
  obtain ⟨y, hy⟩ := channel_alive.mp (by rw [hu.alive, ht.alive]; exact hch :
    (links u).channels.alive ch = true)
  rw [wp_bind, wp_getChannel hy, wp_modify]
  refine ⟨hrel, IsTrans.trans (r := ChannelsOnly) _ _ _ honly ⟨by rw [hl], Nat.le_refl _⟩, ?_⟩
  rw [hl, hu.alive, ht.alive]

/-- A channel that nobody has subscribed to leaves the subscriptions alone. -/
theorem deleteChannelT_idle (h : Related { X with channels := insert ch X.channels } s)
    (hch : (links s).channels.alive ch = true) (hm : ∀ d, (links s).members d ch = []) :
    wp (deleteChannelT ch) (fun _ t => Related X t ∧
      Has { links s with channels := (links s).channels.free ch } s.fresh t) E s := by
  obtain ⟨y, hy⟩ := channel_alive.mp hch
  have hidle : ∀ {destroy : Ptr → ServerM Unit} (d : Side),
      wp (ejectSide destroy d ch) (fun _ t => t = s) E s := fun {destroy} d => by
    have hym : y.side d = [] :=
      (Heap.read_some (f := fun x => ChannelT.side x d) hy).symm.trans (hm d)
    rw [ejectSide, foreach, wp_bind]
    refine wp_of_ok (read_getChannel hy fun x => (x.side d).keys) ?_
    rw [hym]
    rfl
  obtain ⟨hrel, hl⟩ := freeChannel_spec h hm
  rw [deleteChannelT, wp_bind, wp_get, destroyChannelT, wp_bind]
  refine wp_mono (hidle .topic) (fun _ t ht => ?_) fun _ h => h
  subst ht
  rw [wp_bind]
  refine wp_mono (hidle .pattern) (fun _ u hu => ?_) fun _ h => h
  subst hu
  rw [wp_bind, wp_getChannel hy]
  exact ⟨hrel, hl, Nat.le_refl _⟩

theorem Related.delistChannel (h : Related X s) : Related { X with channels := insert ch X.channels }
    { s with channels := s.channels.erase ch } :=
  ⟨h.consistent.delistChannel, { h.below with }⟩

theorem listDeleteChannel_spec (h : Related X s) :
    wp (listDeleteChannel ch) (fun _ t => Related X t ∧ ChannelsOnly s t ∧
      (links t).channels.list = (links s).channels.list.erase ch) E s := by
  rw [listDeleteChannel, listDeleteWith, wp_bind, wp_get]
  refine wp_ite (fun hch => ?_) fun hch => ⟨h, Std.Refl.refl s, (List.erase_of_not_mem hch).symm⟩
  rw [wp_bind, wp_modify, wp_bind, deleteChannelT, wp_bind, wp_get]
  refine wp_mono (destroyChannelT_spec _ h.delistChannel (h.consistent.channels.alive hch))
    (fun _ t ⟨ht, honly, hl⟩ => ⟨ht, ⟨by rw [honly.agree]; rfl, honly.fresh⟩, by rw [hl]; rfl⟩)
    fun _ h => h

/-- With the last client a channel may go away itself. -/
theorem unsubscribeSide_spec (h : Related X s) (hc : (links s).clients.alive c = true)
    (hch : (links s).channels.alive ch = true) :
    wp (unsubscribeSide d ch c name) (fun _ t => Related X t ∧ ChannelsOnly s t ∧
      ∀ node ∈ ((links s).members d ch).keys, node.2 = name →
        (links t).topics = ((links s).leave d ch c node).topics) E s := by
  obtain ⟨y, hy⟩ := channel_alive.mp hch
  have hym : (links s).members d ch = y.side d := Heap.read_some (f := fun x => ChannelT.side x d) hy
  rw [unsubscribeSide, unsubscribeWith, wp_bind, wp_getChannel hy]
  cases hf : findNode (y.side d) name with
  | none =>
    refine ⟨h, Std.Refl.refl s, fun node hn hname => ?_⟩
    have := findNode_of_mem h hy hn
    rw [hname, hf] at this
    cases this
  | some node =>
    have hnode : ∀ n ∈ ((links s).members d ch).keys, n.2 = name → n = node := fun n hn hname => by
      have := findNode_of_mem h hy hn
      rw [hname, hf] at this
      exact (Option.some.inj this).symm
    have hleave := leaveSide_spec (E := E) (d := d) node hc hch
    dsimp only
    rw [wp_bind] at hleave ⊢
    refine wp_mono hleave (fun _ t ht => ?_) fun _ h => h
    rw [wp_bind]
    refine wp_mono ht (fun _ u hu => ?_) fun _ h => h
    have hrel : Related X u := .has hu h.consistent.leave { h.below with }
    have honly : ChannelsOnly s u := hu.channelsOnly (Nat.le_refl _) rfl
    have htopics : ∀ n ∈ ((links s).members d ch).keys, n.2 = name →
        (links u).topics = ((links s).leave d ch c n).topics := fun n hn hname => by
      rw [hnode n hn hname, hu.agree]
    have hcu : (links u).channels.alive ch = true := by rw [hu.agree]; exact hch
    obtain ⟨z, hz⟩ := channel_alive.mp hcu
    rw [wp_bind, wp_getChannel hz]
    refine wp_ite (fun hauto => ?_) fun _ => ⟨hrel, honly, htopics⟩
    rw [wp_bind, listDeleteWith, wp_bind, wp_get]
    refine wp_ite (fun _ => ?_) fun _ => ⟨hrel, honly, htopics⟩
    have hm : ∀ d, (links u).members d ch = [] := fun d => by
      rw [show (links u).members d ch = z.side d from Heap.read_some (f := fun x => ChannelT.side x d) hz]
      cases d with
      | topic => exact hauto.2.1
      | pattern => exact hauto.2.2
    rw [wp_bind, wp_modify, wp_bind]
    refine wp_mono (deleteChannelT_idle hrel.delistChannel hcu hm) (fun _ v ⟨hv, hvl⟩ =>
      ⟨hv, ?_, fun n hn hname => ?_⟩) fun _ h => h
    · exact IsTrans.trans (r := ChannelsOnly) _ _ _ honly ⟨by rw [hvl.agree]; rfl, hvl.fresh⟩
    · rw [hvl.agree, ← htopics n hn hname]
      rfl

end EagleMQ
