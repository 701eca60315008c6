import EagleMQ.Backlog.Steps

/-! Relations that the operations on the messages of a queue uphold: those upheld when
the lists change, when a message gets other links, and when a message is released. -/

namespace EagleMQ

open Prog

namespace Stock

structure Local (R : Stock → Stock → Prop) : Prop where
  lists : ∀ (b b' : Backlog) objects, b'.messages = b.messages → b.fresh ≤ b'.fresh →
    R ⟨b, objects⟩ ⟨b', objects⟩
  relink : ∀ (b : Backlog) objects m msg data0 data1, b.messages m = some msg →
    R ⟨b, objects⟩ ⟨{ b with
      messages := Function.update b.messages m (some { msg with data0 := data0, data1 := data1 }) }, objects⟩
  release : ∀ (b : Backlog) objects objects' m msg, b.messages m = some msg →
    Objects.decrementReferencesCount objects msg.value = .ok objects' →
    R ⟨b, objects⟩ ⟨{ b with messages := Function.update b.messages m none }, objects'⟩

variable {R : Stock → Stock → Prop} [IsPreorder Stock R] {m : Ptr} {b : Backlog} {objects : Heap Object}

theorem message_local : Keeps R Fault.Any (message m) := fun t =>
  wp_mono (message_same m t) (fun _ _ ht => ht ▸ Std.Refl.refl (r := R) t) fun _ h => h

omit [IsPreorder Stock R] in
/-- Only the expiry list changes. -/
theorem wp_deleteExpire_any {node : Option Ptr} {Q : Unit → Stock → Prop}
    (h : ∀ l, Q () ⟨{ b with expireMessages := l }, objects⟩) :
    wp (deleteExpire node) Q Fault.Any ⟨b, objects⟩ := by
  cases node with
  | none => trivial
  | some e =>
    rw [deleteExpire, wp_bind, wp_get]
    exact wp_ite (fun _ => h _) fun _ => trivial

namespace Local

variable (h : Local R)

include h

omit [IsPreorder Stock R] in
theorem modifyBacklog {f : Backlog → Backlog} (hm : ∀ b, (f b).messages = b.messages)
    (hf : ∀ b, b.fresh ≤ (f b).fresh) : Keeps R Fault.Any (modifyBacklog f) :=
  fun ⟨b, objects⟩ => h.lists b _ objects (hm b) (hf b)

omit [IsPreorder Stock R] in
theorem setQueue (queue : Queue) : Keeps R Fault.Any (setQueue queue) :=
  h.modifyBacklog (fun _ => rfl) fun _ => Nat.le_refl _

omit [IsPreorder Stock R] in
theorem releaseMessage (m : Ptr) : Keeps R Fault.Any (releaseMessage m) := fun ⟨b, objects⟩ => by
  rw [Stock.releaseMessage, wp_bind]
  refine wp_message_any _ fun msg hm => ?_
  rw [wp_bind, wp_get, wp_bind]
  cases ho : Objects.decrementReferencesCount objects msg.value with
  | error e => trivial
  | ok objects' => exact h.release b objects objects' m msg hm ho

theorem indexMessage (m : Ptr) (node : Option Ptr) : Keeps R Fault.Any (indexMessage m node) :=
  fun ⟨b, objects⟩ => by
  rw [Stock.indexMessage, wp_bind, wp_get, wp_bind, Stock.modifyBacklog, wp_modify, wp_bind]
  refine wp_message_any _ fun msg hm => ?_
  have hentry := h.lists b { b with
    expireMessages := b.expireMessages ++ [(b.fresh, m)], fresh := b.fresh + 1 } objects rfl (Nat.le_succ _)
  exact IsTrans.trans (r := R) _ _ _ hentry (h.relink _ objects m msg (some b.fresh) node hm)

omit [IsPreorder Stock R] in
theorem deleteExpire (node : Option Ptr) : Keeps R Fault.Any (deleteExpire node) := fun ⟨b, objects⟩ =>
  wp_deleteExpire_any fun _ => h.lists b _ objects rfl (Nat.le_refl _)

theorem storeMessage (m : Ptr) : Keeps R Fault.Any (storeMessage m) :=
  keeps_bind keeps_get fun _ => keeps_bind (keeps_lift fun _ _ => trivial) fun _ =>
    keeps_bind (h.setQueue _) fun _ =>
    keeps_bind message_local fun _ => keeps_ite
      (fun _ => keeps_bind keeps_get fun _ => h.indexMessage m _) fun _ => keeps_pure _

/-- A pop with a timeout sets the time to confirm. -/
theorem popMessageQueueT {now timeout : ℕ} (hconfirm : timeout ≠ 0 → ∀ (b : Backlog) objects m msg confirm,
      b.messages m = some msg → R ⟨b, objects⟩ ⟨{ b with
        messages := Function.update b.messages m (some { msg with confirm := confirm }) }, objects⟩) :
    Keeps R Fault.Any (popMessageQueueT now timeout) := by
  refine keeps_bind keeps_get fun _ => keeps_bind (keeps_lift fun _ _ => trivial) fun x =>
    keeps_bind (h.setQueue _) fun _ => ?_
  cases x.1 with
  | none => exact keeps_throw trivial
  | some m =>
    intro t
    rw [wp_bind]
    refine wp_message_any t fun msg hm => ?_
    -- the expiry list goes first, the message stays as it is
    have hend : ∀ u, R t u → u.backlog.messages m = some msg → wp (if timeout ≠ 0 then do
          setMessage m { msg with confirm := (now + timeout) % 4294967296 }
          Stock.modifyBacklog fun b => { b with confirmMessages := b.confirmMessages ++ [m] }
        else Stock.releaseMessage m) (fun _ v => R t v) Fault.Any u := fun ⟨b, objects⟩ hu hmu =>
      wp_ite (fun ht => IsTrans.trans (r := R) _ _ _ hu (IsTrans.trans (r := R) _ _ _
        (hconfirm ht b objects m msg _ hmu) (h.lists _ _ objects rfl (Nat.le_refl _)))) fun _ =>
          wp_mono (h.releaseMessage m _) (fun _ _ hv => IsTrans.trans (r := R) _ _ _ hu hv) fun _ h => h
    refine wp_ite (fun _ => ?_) fun _ => hend t (Std.Refl.refl (r := R) t) hm
    rw [wp_bind]
    exact wp_deleteExpire_any fun l => hend _ (h.lists t.backlog _ t.objects rfl (Nat.le_refl _)) hm

theorem confirmMessageQueueT (tag : ℕ) : Keeps R Fault.Any (confirmMessageQueueT tag) := by
  refine keeps_bind keeps_get fun t => keeps_bind (keeps_lift fun _ _ => trivial) fun x => ?_
  cases x with
  | none => exact keeps_pure _
  | some m =>
    exact keeps_bind (h.modifyBacklog (fun _ => rfl) fun _ => Nat.le_refl _) fun _ =>
      keeps_bind (h.releaseMessage m) fun _ => keeps_pure _

theorem purgeQueueT : Keeps R Fault.Any purgeQueueT :=
  keeps_bind keeps_get fun _ => keeps_bind (keeps_lift fun _ _ => trivial) fun _ =>
    keeps_bind (h.setQueue _) fun _ =>
    keeps_forM (fun m => h.releaseMessage m) _

theorem releaseQueue : Keeps R Fault.Any releaseQueue :=
  keeps_bind keeps_get fun _ => keeps_bind (keeps_lift fun _ _ => trivial) fun _ =>
    keeps_bind (h.setQueue _) fun _ =>
    keeps_forM (fun m => h.releaseMessage m) _

theorem processExpiredMessagesQueueT (time : ℕ) : Keeps R Fault.Any (processExpiredMessagesQueueT time) := by
  refine keeps_foreach (keeps_bind keeps_get fun _ => keeps_pure _) trivial fun x =>
    keeps_bind message_local fun msg => keeps_ite (fun _ => keeps_bind (h.deleteExpire _) fun _ => ?_)
      fun _ => keeps_pure _
  cases msg.data1 with
  | none => exact keeps_throw trivial
  | some n =>
    exact keeps_bind keeps_get fun _ => keeps_bind (keeps_lift fun _ _ => trivial) fun y =>
      keeps_bind (h.setQueue _) fun _ => h.releaseMessage _

theorem processUnconfirmedMessagesQueueT (time : ℕ) :
    Keeps R Fault.Any (processUnconfirmedMessagesQueueT time) := by
  have hback : ∀ m, Keeps R Fault.Any (do
      Stock.setQueue (← Prog.lift ((← get).backlog.queue.pushValueTail m)) : StockM Unit) := fun m =>
    keeps_bind keeps_get fun _ => keeps_bind (keeps_lift fun _ _ => trivial) fun _ => h.setQueue _
  refine keeps_foreach (keeps_bind keeps_get fun _ => keeps_pure _) trivial fun m =>
    keeps_bind message_local fun msg => keeps_ite (fun _ =>
      keeps_bind (h.modifyBacklog (fun _ => rfl) fun _ => Nat.le_refl _) fun _ => ?_) fun _ => keeps_pure _
  refine keeps_ite (fun _ => keeps_ite (fun _ => keeps_pure _) fun _ => ?_) fun _ => hback m
  exact keeps_bind keeps_get fun _ => keeps_bind (keeps_lift fun _ _ => trivial) fun _ =>
    keeps_bind (h.setQueue _) fun _ => keeps_bind keeps_get fun _ => h.indexMessage m _

theorem tick (time : ℕ) : Keeps R Fault.Any (tick time) :=
  keeps_bind (h.processExpiredMessagesQueueT time) fun _ => h.processUnconfirmedMessagesQueueT time

end Local

end Stock

end EagleMQ
