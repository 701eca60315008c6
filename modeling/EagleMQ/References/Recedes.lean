import EagleMQ.References.Holding

/-! The end of queues and of clients. A queue goes with the messages that wait in it;
where others are left the objects keep references that nobody holds. A client goes
with its responses. -/

namespace EagleMQ

open Prog Refcount

/-- All messages that are there wait in the queue. -/
def Backlog.AllWait (b : Backlog) : Prop := ∃ l, Sound False b l ∧ ∀ m, b.messages m ≠ none →
    m ∈ l.map Prod.snd

/-- The queues that have gone had no other messages than those waiting. -/
def Spared (P : Prop) (s t : EagleServer) : Prop :=
  P → ∀ q x, s.queueAt q = some x → t.queueAt q = none → x.backlog.AllWait

/-- Queues may have gone, the others have their messages, and if those are spared the
tally is kept. -/
structure Recedes (P : Prop) (a : Ptr → Standing) (s t : EagleServer) : Prop where
  stay : ∀ q y, t.queueAt q = some y → ∃ x, s.queueAt q = some x ∧ y.backlog = x.backlog
  tally : Spared P s t → Tally P a s → Tally P a t

instance {P : Prop} {a : Ptr → Standing} : IsPreorder EagleServer (Recedes P a) where
  refl _ := ⟨fun _ y hy => ⟨y, hy, rfl⟩, fun _ h => h⟩
  trans s t u h h' := by
    refine ⟨fun q z hz => ?_, fun hsp hs => h'.tally (fun hP q y hy hz => ?_)
      (h.tally (fun hP q x hx hy => ?_) hs)⟩
    · obtain ⟨y, hy, hzy⟩ := h'.stay q z hz
      obtain ⟨x, hx, hyx⟩ := h.stay q y hy
      exact ⟨x, hx, hzy.trans hyx⟩
    · obtain ⟨x, hx, hyx⟩ := h.stay q y hy
      exact hyx ▸ hsp hP q x hx hz
    · refine hsp hP q x hx ?_
      by_contra hne
      obtain ⟨z, hz⟩ := Option.ne_none_iff_exists'.mp hne
      obtain ⟨y, hy', -⟩ := h'.stay q z hz
      exact nomatch hy.symm.trans hy'

section Recedes

variable {P : Prop} {a : Ptr → Standing} {s t : EagleServer} {c q o : Ptr} {x : EagleClient} {z : Object}

theorem Unmoved.recedes (h : Unmoved s t) : Recedes P a s t := by
  refine ⟨fun q y hy => ?_, fun _ hs => hs.unmoved h⟩
  have hq := h.queues q
  rw [hy] at hq
  obtain ⟨x, hx, hxy⟩ := Option.map_eq_some_iff.mp hq.symm
  exact ⟨x, hx, hxy.symm⟩

theorem unmoved_recedes {α : Type} {m : ServerM α} (h : Keeps Unmoved Fault.Any m) :
    Keeps (Recedes P a) Fault.Any m :=
  fun s => wp_mono (h s) (fun _ _ ht => ht.recedes) fun _ h => h

theorem still_recedes {α : Type} {m : ServerM α} (h : Keeps Still Fault.Link m) :
    Keeps (Recedes P a) Fault.Any m :=
  fun s => wp_mono (h s) (fun _ _ ht => ht.unmoved.recedes) fun _ _ => trivial

/-- A tally that is kept while the queues are left alone. -/
theorem idle_recedes {α : Type} {m : ServerM α} (h : Keeps (Holding P a) Fault.Any m)
    (hi : Keeps Idle Fault.Any m) : Keeps (Recedes P a) Fault.Any m := fun s => by
  refine wp_mono (wp_and (h s) (hi s)) (fun _ t ht => ⟨fun q y hy => ?_, fun _ hs => ht.1 hs⟩) fun _ h => h
  obtain ⟨x, hx, hyx⟩ := ht.2.queue q y hy
  exact ⟨x, hx, (settings_of_bare hyx).2⟩

/-! ### The end of a queue -/

theorem Tally.freeQueue {x : QueueT} (h : Tally P a s) (hx : s.queueAt q = some x)
    (hspared : P → ∀ m, x.backlog.messages m = none) : Tally P a (s.freeQueue q) := by
  have hq : q < s.fresh := h.queues q (by simp [hx])
  have hrefs : ∀ o, (s.freeQueue q).holders o + x.backlog.refs o = s.holders o := fun o => by
    have : (s.freeQueue q).queueRefs o + x.backlog.refs o = s.queueRefs o :=
      Heap.sum_update_none (f := fun x : QueueT => x.backlog.refs o) hx hq
    show (s.freeQueue q).queueRefs o + s.clientRefs o + _ = s.queueRefs o + s.clientRefs o
    omega
  refine ⟨h.clients, h.queues.update (Nat.le_refl _) hq _, h.objects, fun p y hy => ?_, h.above, fun o => ?_⟩
  · by_cases hp : p = q
    · subst hp
      simp [EagleServer.freeQueue] at hy
    · exact h.messages p y (by simpa [EagleServer.freeQueue, hp] using hy)
  · have hcount := h.count o
    by_cases hP : P
    · have hzero : x.backlog.refs o = 0 := Heap.sum_eq_zero fun m msg hm => by simp [hspared hP m] at hm
      have := hrefs o
      rw [hzero, Nat.add_zero] at this
      rwa [this]
    · exact hcount.mono hP (Nat.le.intro (hrefs o))

theorem releaseQueue_none {b : Backlog} {objects : Heap Object} (h : b.AllWait) :
    wp Stock.releaseQueue (fun _ t => ∀ m, t.backlog.messages m = none) Fault.Any ⟨b, objects⟩ := by
  obtain ⟨l, hs, hall⟩ := h
  refine wp_mono (Stock.releaseQueue_spec (E := Fault.Any) trivial hs) (fun _ t ht m => ?_) fun _ h => h
  rw [ht]
  by_cases hm : m ∈ l.map Prod.snd
  · simp [Stock.without, hm]
  · simpa [Stock.without, hm] using fun hne => hm (hall m hne)

theorem releaseFree_recedes (q : Ptr) : Keeps (Recedes P a) Fault.Any (do
    withStock q Stock.releaseQueue
    modify fun s => s.freeQueue q) := fun s => by
  rw [wp_bind]
  cases hx : s.queueAt q with
  | none => simp [wp, withStock, hx, Fault.Any]
  | some x =>
    have hnone : wp Stock.releaseQueue
      (fun _ t => x.backlog.AllWait → ∀ m, t.backlog.messages m = none) Fault.Any
        ⟨x.backlog, s.objects⟩ := by
      by_cases hall : x.backlog.AllWait
      · exact wp_mono (releaseQueue_none hall) (fun _ _ ht _ => ht) fun _ h => h
      · exact wp_mono ((Stock.keeping_local (P := True) (a := a)).releaseQueue _)
          (fun _ _ _ h => absurd h hall) fun _ h => h
    refine wp_withStock hx (wp_mono (wp_and ((Stock.keeping_local (P := P) (a := a)).releaseQueue _) hnone)
      (fun _ t ht => ?_) fun _ h => h)
    obtain ⟨ht, htnone⟩ := ht
    refine ⟨fun p y hy => ?_, fun hsp hs => ?_⟩
    · by_cases hp : p = q
      · subst hp
        simp [EagleServer.freeQueue] at hy
      · exact ⟨y, by simpa [EagleServer.freeQueue, hp] using hy, rfl⟩
    · have hrestock := hs.restock hx hs.above (ht _ _ (hs.stock hx))
      refine hrestock.freeQueue (Function.update_self ..) fun hP => htnone (hsp hP q x hx ?_)
      simp [EagleServer.freeQueue]

theorem deleteQueueT_recedes (q : Ptr) : Keeps (Recedes P a) Fault.Any (deleteQueueT q) :=
  keeps_bind (still_recedes (ejectClientsQueueT_still q)) fun _ =>
    keeps_bind (still_recedes (ejectRoutesQueueT_still q)) fun _ => releaseFree_recedes q

theorem listDeleteQueue_recedes (q : Ptr) : Keeps (Recedes P a) Fault.Any (listDeleteQueue q) :=
  keeps_bind keeps_get fun _ => keeps_ite (fun _ => keeps_bind
    (unmoved_recedes (modify_unmoved (fun _ => rfl) (fun _ => rfl) (fun _ => rfl) fun _ => rfl)) fun _ =>
      keeps_bind (deleteQueueT_recedes q) fun _ => keeps_pure _) fun _ => keeps_pure _

theorem processQueueT_recedes (q : Ptr) : Keeps (Recedes P a) Fault.Any (processQueueT q) :=
  keeps_bind getQueue_any fun _ => keeps_ite
    (fun _ => keeps_bind (listDeleteQueue_recedes q) fun _ => keeps_pure _) fun _ => keeps_pure _

theorem deleteQueues_recedes : Keeps (Recedes P a) Fault.Any deleteQueues :=
  keeps_foreach (keeps_bind keeps_get fun _ => keeps_pure _) trivial fun q =>
    keeps_bind (listDeleteQueue_recedes q) fun _ => keeps_pure _

/-! ### The end of a client -/

/-- The first response goes with its reference. -/
theorem Tally.dropResponse {y : EagleClient} {l : List Ptr} (h : Tally P a s) (hx : s.clientAt c = some x)
    (hr : x.responses = o :: l) (hy : y.responses = l) (hz : s.objects o = some z) :
    Tally P a { s with
      clientAt := Function.update s.clientAt c (some y)
      objects := Function.update s.objects o z.dropped } := by
  have hc : c < s.fresh := h.clients c (by simp [hx])
  have hcl := clientRefs_set h.clients hx (t := { s with
    clientAt := Function.update s.clientAt c (some y)
    objects := Function.update s.objects o z.dropped }) rfl (Nat.le_refl _)
  rw [hr, hy] at hcl
  refine ⟨h.clients.update (Nat.le_refl _) hc _, h.queues,
    h.objects.update (Nat.le_refl _) (h.objects o (by simp [hz])) _,
    h.messages, h.above, ?_⟩
  refine count_update h.count ?_ fun p hp => ?_
  · have hcount := h.count o
    rw [countOf_some hz] at hcount
    have hco := hcl o
    rw [List.count_cons_self] at hco
    rw [z.map_dropped]
    refine Standing.Holds.drop (h := s.queueRefs o + _) ?_
    rwa [show s.queueRefs o + _ + 1 = s.holders o by unfold EagleServer.holders; omega]
  · have hco := hcl p
    rw [List.count_cons_of_ne (Ne.symm hp)] at hco
    show s.queueRefs p + _ = s.queueRefs p + _
    omega

theorem Tally.removeClient (h : Tally P a s) (hx : s.clientAt c = some x) (hr : x.responses = [])
    (l : List Ptr) :
    Tally P a { s with clients := l, clientAt := Function.update s.clientAt c none } := by
  have hc : c < s.fresh := h.clients c (by simp [hx])
  refine ⟨h.clients.update (Nat.le_refl _) hc _, h.queues, h.objects, h.messages, h.above, fun o => ?_⟩
  have hcl : EagleServer.clientRefs { s with clients := l, clientAt := Function.update s.clientAt c none } o +
      x.responses.count o = s.clientRefs o :=
    Heap.sum_update_none (f := fun x : EagleClient => x.responses.count o) hx hc
  rw [hr, List.count_nil, Nat.add_zero] at hcl
  have hcount := h.count o
  rwa [EagleServer.holders, ← hcl] at hcount

/-- The end of `freeClient`. -/
theorem releaseClient_recedes (c : Ptr) : Keeps (Recedes P a) Fault.Any (do
    (← getClient c).responses.forM decrementReferencesCount
    modify fun s => { s with clients := s.clients.erase c, clientAt := Function.update s.clientAt c none }) := fun s => by
  cases hx : s.clientAt c with
  | none => simp [getClient, hx, Fault.Any]
  | some x =>
    rw [wp_bind, wp_getClient hx, wp_bind]
    refine wp_mono (wp_forM (fun rest t => t.queueAt = s.queueAt ∧ t.clientAt = s.clientAt ∧ (Tally P a s →
      Tally P a (t.setClient c { x with responses := rest }))) decrementReferencesCount ?_ x.responses s
      ⟨rfl, rfl, fun h => h.unmoved (unmoved_setClient hx rfl)⟩) (fun _ t ht => ?_) fun _ h => h
    · rintro o rest t ⟨hq, hc, ht⟩
      refine wp_decrement_any fun z hz => ⟨hq, hc, fun hs => ?_⟩
      have := (ht hs).dropResponse (y := { x with responses := rest }) (t.setClient_clientAt _) rfl rfl hz
      simpa only [EagleServer.setClient, Function.update_idem] using this
    · obtain ⟨hq, hc, ht⟩ := ht
      refine ⟨fun q y hy => ⟨y, hq ▸ hy, rfl⟩, fun _ hs => ?_⟩
      have := (ht hs).removeClient (t.setClient_clientAt _) rfl (t.clients.erase c)
      simpa only [EagleServer.setClient, Function.update_idem] using this

theorem ejectQueueClient_recedes (c : Ptr) : Keeps (Recedes P a) Fault.Any (ejectQueueClient c) :=
  keeps_bind (keeps_foreach (keeps_bind getClient_any fun _ => keeps_pure _) trivial fun q =>
    still_recedes (unsubscribeClientQueueT_still c q)) fun _ =>
  keeps_foreach (keeps_bind getClient_any fun _ => keeps_pure _) trivial fun q =>
    keeps_bind (still_recedes (undeclareClientQueueT_still c q)) fun _ => processQueueT_recedes q

theorem freeClient_recedes (c : Ptr) : Keeps (Recedes P a) Fault.Any (freeClient c) :=
  keeps_bind (ejectQueueClient_recedes c) fun _ =>
    keeps_bind (still_recedes (ejectChannelClient_still c)) fun _ =>
    releaseClient_recedes c

theorem clientTimeouts_recedes : Keeps (Recedes P a) Fault.Any clientTimeouts :=
  keeps_bind keeps_get fun _ => keeps_ite (fun _ => keeps_foreach
    (keeps_bind keeps_get fun _ => keeps_pure _) trivial fun c => keeps_bind getClient_any fun _ =>
      keeps_ite (fun _ => freeClient_recedes c) fun _ => keeps_pure _) fun _ => keeps_pure _

end Recedes

end EagleMQ
