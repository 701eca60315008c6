import EagleMQ.Push
import EagleMQ.Streams

/-! What a push leaves of its queue, whether it takes the message or not, and what it
touches besides. The queue depends on nothing but itself and the size of the payload, up
to the tag of the message. -/

namespace EagleMQ

open Prog Backlog

/-! ### The queue -/

/-- A message has been put in front of the queue, which has got other nodes. -/
def Backlog.put (b : Backlog) (m : Ptr) (msg : Message) (queue : Queue) : Backlog :=
  if msg.expiration = 0 then { b with queue := queue }
  else Backlog.index { b with queue := queue } m msg (some b.queue.fresh)

/-- A message has been taken from the end of the queue and released. -/
def Backlog.evict (b : Backlog) (m : Ptr) (queue : Queue) : Backlog :=
  { b with queue := queue, expireMessages := b.unindexed m, messages := Function.update b.messages m none }

/-- The result of a push and the queue after it. -/
inductive Settled (x : QueueT) (data tag expiration size : ℕ) : Bool → QueueT → Prop
  | refused (h : x.maxMsgSize < size ∨ x.subscribedClientsMsg = [] ∧ x.maxMsg ≤ x.size ∧
    x.forcePush = false) :
      Settled x data tag expiration size false { x with backlog := x.withMessage data tag expiration }
  | delivered (hsize : size ≤ x.maxMsgSize) (hne : x.subscribedClientsMsg ≠ []) :
      Settled x data tag expiration size true
        { x.turned with backlog := { x.backlog with fresh := x.backlog.fresh + 1 } }
  | stored {queue : Queue} (hsize : size ≤ x.maxMsgSize) (hnone : x.subscribedClientsMsg = [])
      (hlen : x.size < x.maxMsg)
      (hpush : x.backlog.queue.pushValueHead x.backlog.fresh = .ok queue) :
      Settled x data tag expiration size true { x with
        backlog := (x.withMessage data tag expiration).put x.backlog.fresh
          ⟨data, tag, 0, expiration, none, none⟩ queue }
  | forced {m : Ptr} {queue queue' : Queue} (hsize : size ≤ x.maxMsgSize)
      (hnone : x.subscribedClientsMsg = [])
      (hlen : x.maxMsg ≤ x.size) (hforce : x.forcePush = true)
      (hpop : x.backlog.queue.popValue = .ok (some m, queue))
      (hpush : queue.pushValueHead x.backlog.fresh = .ok queue') :
      Settled x data tag expiration size true { x with
        backlog := ((x.withMessage data tag expiration).evict m queue).put x.backlog.fresh
          ⟨data, tag, 0, expiration, none, none⟩ queue' }

/-! ### A queue without subscribers -/

section Lonely

variable {x y : QueueT} {b : Backlog} {queue queue' : Queue} {data tag expiration size m : ℕ} {ok : Bool}

theorem Queue.pushValueHead_len (h : queue.pushValueHead m = .ok queue') : queue'.len = queue.len + 1 := by
  unfold Queue.pushValueHead at h
  split_ifs at h
  · exact Except.ok.inj h ▸ rfl
  · cases hn : queue.node queue.head with
    | error e => rw [hn] at h; exact nomatch h
    | ok v =>
      rw [hn] at h
      exact Except.ok.inj h ▸ rfl

theorem Queue.popValue_len {v : Option Ptr} (h : queue.popValue = .ok (v, queue')) :
    queue'.len ≤ queue.len := by
  unfold Queue.popValue at h
  split_ifs at h
  · rw [← (Prod.mk.inj (Except.ok.inj h)).2]
  · cases hn : queue.node queue.tail with
    | error e => rw [hn] at h; exact nomatch h
    | ok v =>
      rw [hn] at h
      rw [← (Prod.mk.inj (Except.ok.inj h)).2]
      exact Nat.sub_le _ _

theorem Backlog.put_queue (msg : Message) : (b.put m msg queue).queue = queue := by
  unfold put
  split_ifs <;> rfl

/-- Only the messages change, and there is at most one more. -/
theorem Settled.lonely (h : Settled x data tag expiration size ok y) (hnone : x.subscribedClientsMsg = []) :
    (∃ b, y = { x with backlog := b }) ∧ y.size ≤ x.size + 1 := by
  cases h with
  | refused => exact ⟨⟨_, rfl⟩, Nat.le_succ _⟩
  | delivered _ hne => exact absurd hnone hne
  | stored _ _ _ hpush =>
    refine ⟨⟨_, rfl⟩, ?_⟩
    unfold QueueT.size
    rw [Backlog.put_queue, Queue.pushValueHead_len hpush]
  | forced _ _ _ _ hpop hpush =>
    refine ⟨⟨_, rfl⟩, ?_⟩
    unfold QueueT.size
    rw [Backlog.put_queue, Queue.pushValueHead_len hpush]
    exact Nat.succ_le_succ (Queue.popValue_len hpop)

end Lonely

/-! ### Up to tags -/

section Untagged

variable {x y y' : QueueT} {b : Backlog} {m : Ptr} {queue : Queue} {data tag tag' expiration size :
    ℕ} {ok ok' : Bool}

end Untagged

/-! ### What is beside the queues -/

/-- The server without its queues and without what responses and pushes change. -/
def EagleServer.aside (s : EagleServer) : EagleServer :=
  { s.unheard with queueAt := fun _ => none, msgCounter := 0 }

/-- Besides the queues only what responses change has changed. -/
structure Beside (s t : EagleServer) : Prop where
  frame : t.aside = s.aside
  fresh : s.fresh ≤ t.fresh
  objects : ∀ o < s.fresh, ∀ z', t.objects o = some z' → ∃ z, s.objects o = some z ∧ z'.data = z.data
  clients : ∀ c x, s.clientAt c = some x → ∃ y, t.clientAt c = some y ∧ y.unheard = x.unheard ∧
    y.registers s.env = x.registers s.env

section Beside

variable {s t : EagleServer} {q o : Ptr} {f : Ptr → List (List Byte)} {z : Object}

theorem Beside.env (h : Beside s t) : t.env = s.env := show t.aside.env = s.aside.env by rw [h.frame]

instance : IsPreorder EagleServer Beside where
  refl _ := ⟨rfl, Nat.le_refl _, fun _ _ z hz => ⟨z, hz, rfl⟩, fun _ x hx => ⟨x, hx, rfl, rfl⟩⟩
  trans _ _ _ h h' := by
    refine ⟨h'.frame.trans h.frame, Nat.le_trans h.fresh h'.fresh, fun o ho w hw => ?_, fun c x hx => ?_⟩
    · obtain ⟨z', hz', hd'⟩ := h'.objects o (Nat.lt_of_lt_of_le ho h.fresh) w hw
      obtain ⟨z, hz, hd⟩ := h.objects o ho z' hz'
      exact ⟨z, hz, hd'.trans hd⟩
    · obtain ⟨y, hy, hsame, hreg⟩ := h.clients c x hx
      obtain ⟨w, hw, hsame', hreg'⟩ := h'.clients c y hy
      rw [h.env] at hreg'
      exact ⟨w, hw, hsame'.trans hsame, hreg'.trans hreg⟩

theorem Tells.beside (h : Tells f s t) : Beside s t where
  frame := by
    have := congrArg EagleServer.aside h.frame
    exact this
  fresh := h.fresh
  objects := h.objects
  clients c x hx := by
    obtain ⟨y, hy, hsame, hreg, -⟩ := h.clients c x hx
    exact ⟨y, hy, hsame, hreg⟩

theorem beside_queues (queueAt : Heap QueueT) (n : ℕ) :
    Beside s { s with queueAt := queueAt, msgCounter := n } :=
  ⟨rfl, Nat.le_refl _, fun _ _ z hz => ⟨z, hz, rfl⟩, fun _ x hx => ⟨x, hx, rfl, rfl⟩⟩

theorem withStock_beside {α : Type} {m : StockM α} (hm : Keeps Stock.Truthful Fault.Any m) :
    Keeps Beside Fault.Any (withStock q m) := fun s => by
  cases hx : s.queueAt q with
  | none => simp [wp, withStock, hx, Fault.Any]
  | some x =>
    exact wp_withStock hx (wp_mono (hm _) (fun _ t ht => ⟨rfl, Nat.le_refl _, fun o _ z hz => ht o z hz,
      fun _ x hx => ⟨x, hx, rfl, rfl⟩⟩) fun _ h => h)

end Beside

/-! ### Pushes -/

section Push

variable {P : Prop} {s t : EagleServer} {x : QueueT} {l : List (Ptr × Ptr)}
    {q data tag expiration size : ℕ} {z : Object}

theorem enqueueMessage_beside (m : Ptr) : Keeps Beside Fault.Any (enqueueMessage q m) := by
  have hstore : Keeps Beside Fault.Any (withStock q (Stock.storeMessage m)) :=
    withStock_beside (Stock.truthful_local.storeMessage m)
  refine keeps_bind getQueue_any fun _ =>
    keeps_ite (fun _ => keeps_ite (fun _ => ?_) fun _ => keeps_pure _) fun _ => ?_
  · refine keeps_bind keeps_get fun _ => keeps_bind (withStock_beside ?_) fun _ =>
      keeps_bind hstore fun _ => keeps_pure _
    exact Stock.truthful_local.popMessageQueueT fun _ _ _ _ _ _ _ _ w hw => ⟨w, hw, rfl⟩
  · exact keeps_bind hstore fun _ => keeps_pure _

/-- The end of a push that nobody is given. -/
theorem enqueueMessage_settles (hs : Sound P x.backlog l) (hsize : size ≤ x.maxMsgSize)
    (hnone : x.subscribedClientsMsg = [])
    (hy : s.queueAt q = some { x with backlog := x.withMessage data tag expiration }) :
    wp (enqueueMessage q x.backlog.fresh)
      (fun ok t => Beside s t ∧ ∃ y, Settled x data tag expiration size ok y ∧
      t.queueAt = Function.update s.queueAt q (some y)) Fault.Any s := by
  have hsound := withMessage_sound data tag expiration hs
  refine wp_and (F := Fault.Any) (enqueueMessage_beside _ s) ?_
  rw [enqueueMessage, wp_bind, wp_getQueue hy]
  refine wp_ite (fun hfull => wp_ite (fun hforce => ?_) fun hforce => ?_) fun hroom => ?_
  · rw [wp_bind, wp_get, wp_bind]
    refine wp_withStock hy ?_
    obtain rfl | ⟨l, ⟨n, m⟩, rfl⟩ := l.eq_nil_or_concat'
    · exact wp_mono (Stock.popMessageQueueT_nil hsound) (fun _ _ h => h.elim) fun _ _ => trivial
    have hm : m ≠ x.backlog.fresh := fun he =>
      Nat.lt_irrefl _ (he ▸ hs.below m (hs.alive m (mem_places.mpr (.inl (by simp)))))
    refine wp_mono (wp_and (Stock.popMessageQueueT_exact (E := Fault.Any) trivial hsound)
      (Stock.popMessageQueueT_drops (E := Fault.Any) trivial hsound)) (fun _ t ht => ?_)
      fun _ h => h
    obtain ⟨⟨q₁, hpop, -, ht⟩, hs', -⟩ := ht
    rw [wp_bind]
    refine wp_withStock (Function.update_self ..) ?_
    dsimp only
    have hnew : t.backlog.messages x.backlog.fresh = some ⟨data, tag, 0, expiration, none, none⟩ := by
      rw [ht]
      exact (Function.update_of_ne hm.symm ..).trans (Function.update_self ..)
    refine wp_mono (Stock.storeMessage_exact hs' hnew) (fun _ u hu => ?_) fun _ h => h
    obtain ⟨-, q₂, hpush, -, hu⟩ := hu
    have hqueue : t.backlog.queue = q₁ := by rw [ht]
    refine ⟨_, .forced hsize hnone hfull hforce hpop (hqueue ▸ hpush), ?_⟩
    rw [Function.update_idem, hu, ht]
    rfl
  · exact ⟨_, .refused (.inr ⟨hnone, hfull, by simpa using hforce⟩), by rw [← hy, Function.update_eq_self]⟩
  · rw [wp_bind]
    refine wp_withStock hy ?_
    refine wp_mono (Stock.storeMessage_exact hsound (Function.update_self ..)) (fun _ t ht => ?_)
      fun _ h => h
    obtain ⟨-, q', hpush, -, ht⟩ := ht
    refine ⟨_, .stored hsize hnone (Nat.not_le.mp hroom) hpush, ?_⟩
    rw [ht]
    rfl

/-- A push settles its queue. -/
theorem push_settles (hx : s.queueAt q = some x) (hinv : x.Invariant) (hdata : data < s.fresh)
    (hz : s.objects data = some z)
    (expiration : ℕ) : wp (pushMessageQueueT q data expiration) (fun ok t => Beside s t ∧
      ∃ y, Settled x data (makeMessageTag s.msgCounter s.nowTimems) expiration z.size ok y ∧
        t.queueAt = Function.update s.queueAt q (some y)) Fault.Any s := by
  obtain ⟨l, hs⟩ := hinv.sound
  rw [pushMessageQueueT, wp_bind, wp_get, wp_bind, wp_modify, wp_bind]
  generalize makeMessageTag s.msgCounter s.nowTimems = tag
  have hcreated : wp (withStock q (Stock.createMessage data tag expiration)) (fun m v => m = x.backlog.fresh ∧
      v = { s with
        msgCounter := s.msgCounter + 1
        queueAt := Function.update s.queueAt q
          (some { x with backlog := x.withMessage data tag expiration }) })
      Fault.Any { s with msgCounter := s.msgCounter + 1 } :=
    wp_withStock (m := Stock.createMessage data tag expiration) hx ⟨rfl, rfl⟩
  refine wp_mono hcreated (fun m v hv => ?_) fun _ h => h
  obtain ⟨hm, hv⟩ := hv
  have hbeside : Beside s v := hv ▸ beside_queues _ _
  have hvq : v.queueAt q = some { x with backlog := x.withMessage data tag expiration } := by
    rw [hv]; exact Function.update_self ..
  have hvz : v.objects data = some z := by rw [hv]; exact hz
  have hvs : ∀ y, Function.update v.queueAt q (some y) = Function.update s.queueAt q (some y) := fun y => by
    rw [hv]; exact Function.update_idem ..
  subst hm
  rw [wp_bind, objectSize, wp_bind, wp_get, wp_bind]
  simp only [Objects.find, hvz, wp_lift_ok, wp_pure]
  rw [wp_bind, wp_getQueue hvq]
  refine wp_ite (fun hsize => ⟨hbeside, _, .refused (.inl hsize), by rw [hv]⟩) fun hsize => ?_
  have hsize := Nat.not_lt.mp hsize
  have hcarries : Carries data z.data v := by
    rw [hv]
    exact ⟨hdata, fun z' hz' => by rw [Option.some.inj (hz'.symm.trans hz)]⟩
  rw [wp_bind]
  refine wp_mono (processSubscribedClients_tells hvq hinv.messages hinv.notices
    (Function.update_self ..) hcarries)
    (fun taken u hu => ?_) fun _ h => h
  obtain ⟨htaken, htells⟩ := hu
  have hturn : Beside v (v.setQueue q
      (QueueT.turned { x with backlog := x.withMessage data tag expiration })) :=
    beside_queues (s := v) _ v.msgCounter
  have hserved : Beside s u := IsTrans.trans _ _ _ hbeside (IsTrans.trans _ _ _ hturn htells.beside)
  have huq : u.queueAt = Function.update s.queueAt q
      (some (QueueT.turned { x with backlog := x.withMessage data tag expiration })) := by
    rw [htells.queueAt]
    exact hvs _
  have huself : u.queueAt q = some
      (QueueT.turned { x with backlog := x.withMessage data tag expiration }) := by
    rw [huq]; exact Function.update_self ..
  have hback := (QueueT.turned_fields { x with backlog := x.withMessage data tag expiration }).2.1
  refine wp_ite (fun hyes => ?_) fun hno => ?_
  · have hne : x.subscribedClientsMsg ≠ [] := by
      rw [htaken] at hyes
      exact of_decide_eq_true hyes
    rw [wp_bind]
    refine wp_mono (wp_and (F := Fault.Any) (withStock_beside (Stock.truthful_local.releaseMessage _) u)
      (wp_withStock huself (Q := fun _ t => t.queueAt = Function.update u.queueAt q
        (some { x.turned with backlog := { x.backlog with fresh := x.backlog.fresh + 1 } })) ?_))
      (fun _ w hw => ⟨IsTrans.trans _ _ _ hserved hw.1, _, .delivered hsize hne, ?_⟩) fun _ h => h
    · rw [hback]
      refine Stock.wp_releaseMessage (E := Fault.Any) trivial (Function.update_self ..) fun o' _ => ?_
      dsimp only
      rw [QueueT.turned_backlog, withMessage_released hs]
    · rw [hw.2, huq, Function.update_idem]
  · have hnone : x.subscribedClientsMsg = [] := by
      rw [htaken] at hno
      simpa using hno
    have hsame : QueueT.turned { x with backlog := x.withMessage data tag expiration } =
        { x with backlog := x.withMessage data tag expiration } := if_neg fun h => h.2 hnone
    refine wp_mono (enqueueMessage_settles hs hsize hnone (hsame ▸ huself)) (fun ok w hw => ?_) fun _ h => h
    obtain ⟨hw, y, hy, hwq⟩ := hw
    exact ⟨IsTrans.trans _ _ _ hserved hw, y, hy, by rw [hwq, huq, Function.update_idem]⟩

end Push

end EagleMQ
