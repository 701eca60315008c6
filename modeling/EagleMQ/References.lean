import EagleMQ.Backlog.Local
import EagleMQ.Lib.Refcount
import EagleMQ.Responses

/-! The references to the payload objects. The holders of an object are the messages
whose payload it is and the entries for it in the lists of responses; the tally of a
state compares the counts of all objects with the numbers of their holders. A message
that no list leads to any more is a holder as long as its queue is there. -/

namespace EagleMQ

open Prog Refcount

/-- The messages of a queue that hold an object. -/
def Backlog.refs (b : Backlog) (o : Ptr) : ℕ :=
  Heap.sum b.messages (fun msg => if msg.value = o then 1 else 0) b.fresh

namespace EagleServer

def queueRefs (s : EagleServer) (o : Ptr) : ℕ := Heap.sum s.queueAt (fun x => x.backlog.refs o) s.fresh

def clientRefs (s : EagleServer) (o : Ptr) : ℕ := Heap.sum s.clientAt (fun x => x.responses.count o) s.fresh

/-- The number of holders of an object. -/
def holders (s : EagleServer) (o : Ptr) : ℕ := s.queueRefs o + s.clientRefs o

end EagleServer

/-- The count of an object that is there. -/
def countOf (objects : Heap Object) (o : Ptr) : Option ℕ := (objects o).map Object.refcount

/-- The counts and the holders of all objects, each in its standing. -/
structure Tally (P : Prop) (a : Ptr → Standing) (s : EagleServer) : Prop where
  clients : Heap.Below s.clientAt s.fresh
  queues : Heap.Below s.queueAt s.fresh
  objects : Heap.Below s.objects s.fresh
  messages : ∀ q x, s.queueAt q = some x → Heap.Below x.backlog.messages x.backlog.fresh
  above : ∀ o, s.fresh ≤ o → a o = .even
  count : ∀ o, (a o).Holds P (countOf s.objects o) (s.holders o)

/-- The tally of one queue, with the holders outside of it given. -/
structure Stock.Tally (P : Prop) (a : Ptr → Standing) (n : Ptr) (outside : Ptr → ℕ) (t : Stock) : Prop where
  messages : Heap.Below t.backlog.messages t.backlog.fresh
  objects : Heap.Below t.objects n
  count : ∀ o, (a o).Holds P (countOf t.objects o) (t.backlog.refs o + outside o)

/-- The tally of a queue is kept, whatever is outside. -/
def Stock.Keeping (P : Prop) (a : Ptr → Standing) (t u : Stock) : Prop :=
  ∀ n outside, Tally P a n outside t → Tally P a n outside u

/-- The tally is kept. -/
def Holding (P : Prop) (a : Ptr → Standing) (s t : EagleServer) : Prop := Tally P a s → Tally P a t

section References

variable {P : Prop} {a : Ptr → Standing} {s t : EagleServer} {c q r ch o m : Ptr} {n : ℕ}

instance : IsPreorder Stock (Stock.Keeping P a) where
  refl _ _ _ h := h
  trans _ _ _ h h' n K ht := h' n K (h n K ht)

instance : IsPreorder EagleServer (Holding P a) where
  refl _ h := h
  trans _ _ _ h h' ht := h' (h ht)

/-! ### Counts -/

theorem countOf_some {objects : Heap Object} {z : Object} (hz : objects o = some z) :
    countOf objects o = some z.refcount := by simp [countOf, hz]

/-- The object after a reference to it has been dropped. -/
def Object.dropped (z : Object) : Option Object :=
  if z.refcount ≤ 1 then none else some { z with refcount := z.refcount - 1 }

theorem Object.map_dropped (z : Object) : z.dropped.map Object.refcount = Refcount.drop z.refcount := by
  unfold dropped Refcount.drop
  split_ifs <;> rfl

theorem decrement_ok {objects objects' : Heap Object}
    (h : Objects.decrementReferencesCount objects o = .ok objects') :
    ∃ z, objects o = some z ∧ objects' = Function.update objects o z.dropped := by
  unfold Objects.decrementReferencesCount Objects.find at h
  cases hz : objects o with
  | none => rw [hz] at h; cases h
  | some z =>
    rw [hz] at h
    exact ⟨z, rfl, (Except.ok.inj h).symm⟩

theorem increment_ok {objects objects' : Heap Object}
    (h : Objects.incrementReferencesCount objects o = .ok objects') :
    ∃ z, objects o = some z ∧ z.refcount + 1 < 4294967296 ∧
      objects' = Function.update objects o (some { z with refcount := z.refcount + 1 }) := by
  unfold Objects.incrementReferencesCount Objects.find at h
  cases hz : objects o with
  | none => rw [hz] at h; cases h
  | some z =>
    rw [hz] at h
    simp only [bind, Except.bind] at h
    split_ifs at h with hwrap
    exact ⟨z, rfl, Nat.not_le.mp hwrap, (Except.ok.inj h).symm⟩

/-- One object and the number of its holders change. -/
theorem count_update {objects : Heap Object} {f g : Ptr → ℕ} {w : Option Object}
    (h : ∀ p, (a p).Holds P (countOf objects p) (f p)) (ho : (a o).Holds P (w.map Object.refcount) (g o))
    (hg : ∀ p, p ≠ o → g p = f p) (p : Ptr) :
    (a p).Holds P (countOf (Function.update objects o w) p) (g p) := by
  by_cases hp : p = o
  · subst hp
    simpa [countOf] using ho
  · have := h p
    rw [← hg p hp] at this
    simpa [countOf, hp] using this

/-- The same, and the standing of the object changes as well. -/
theorem count_stand {objects : Heap Object} {f g : Ptr → ℕ} {w : Option Object} {st : Standing}
    (h : ∀ p, (a p).Holds P (countOf objects p) (f p)) (ho : st.Holds P (w.map Object.refcount) (g o))
    (hg : ∀ p, p ≠ o → g p = f p) (p : Ptr) :
    (Function.update a o st p).Holds P (countOf (Function.update objects o w) p) (g p) := by
  by_cases hp : p = o
  · subst hp
    simpa [countOf] using ho
  · have := h p
    rw [← hg p hp] at this
    simpa [countOf, hp] using this

/-! ### Messages of one queue -/

theorem refs_update {b : Backlog} {msg msg' : Message} (hb : Heap.Below b.messages b.fresh)
    (hm : b.messages m = some msg)
    (hv : msg'.value = msg.value) (o : Ptr) :
    Backlog.refs { b with messages := Function.update b.messages m (some msg') } o = b.refs o := by
  have := Heap.sum_update_some (f := fun msg : Message => if msg.value = o then 1 else 0) (b := msg') hm
    (hb m (by simp [hm]))
  rw [hv] at this
  exact Nat.add_right_cancel this

theorem refs_release {b : Backlog} {msg : Message} (hb : Heap.Below b.messages b.fresh)
    (hm : b.messages m = some msg)
    (o : Ptr) : Backlog.refs { b with messages := Function.update b.messages m none } o +
      (if msg.value = o then 1 else 0) =
      b.refs o :=
  Heap.sum_update_none (f := fun msg : Message => if msg.value = o then 1 else 0) hm (hb m (by simp [hm]))

theorem refs_create {b : Backlog} (hb : Heap.Below b.messages b.fresh) (msg : Message) (o : Ptr) :
    Backlog.refs { b with messages := Function.update b.messages b.fresh (some msg), fresh := b.fresh + 1 } o =
      b.refs o + (if msg.value = o then 1 else 0) :=
  Heap.sum_alloc hb

theorem refs_create_empty (o : Ptr) : Backlog.create.refs o = 0 :=
  Heap.sum_eq_zero fun _ _ h => by simp [Backlog.create] at h

namespace Stock

variable {outside : Ptr → ℕ} {b : Backlog} {objects : Heap Object} {msg : Message}

/-- A change of the lists of a queue. -/
theorem keeping_lists {b b' : Backlog} (hm : b'.messages = b.messages) (hf : b.fresh ≤ b'.fresh) :
    Keeping P a ⟨b, objects⟩ ⟨b', objects⟩ := fun n K h => by
  have hb : Heap.Below b.messages b.fresh := h.messages
  have hrefs : ∀ o, b'.refs o = b.refs o := fun o => by
    unfold Backlog.refs
    rw [hm]
    exact Heap.sum_grow hb hf
  exact ⟨fun p hp => Nat.lt_of_lt_of_le (hb p (hm ▸ hp)) hf, h.objects, fun o => hrefs o ▸ h.count o⟩

theorem keeping_set (msg' : Message) (hm : b.messages m = some msg) (hv : msg'.value = msg.value) :
    Keeping P a ⟨b, objects⟩ ⟨{ b with messages := Function.update b.messages m (some msg') },
      objects⟩ := fun n K h => by
  have hb : Heap.Below b.messages b.fresh := h.messages
  refine ⟨hb.update (Nat.le_refl _) (hb m (by simp [hm])) _, h.objects, fun o => ?_⟩
  dsimp only
  rw [refs_update hb hm hv]
  exact h.count o

theorem keeping_release {objects' : Heap Object} (hm : b.messages m = some msg)
    (ho : Objects.decrementReferencesCount objects msg.value = .ok objects') :
    Keeping P a ⟨b, objects⟩ ⟨{ b with messages := Function.update b.messages m none }, objects'⟩ :=
      fun n K h => by
  have hb : Heap.Below b.messages b.fresh := h.messages
  obtain ⟨z, hz, rfl⟩ := decrement_ok ho
  have hlt : m < b.fresh := hb m (by simp [hm])
  refine ⟨hb.update (Nat.le_refl _) hlt _,
    h.objects.update (Nat.le_refl _) (h.objects _ (by simp [hz])) _, ?_⟩
  have hrefs := refs_release hb hm
  refine count_update h.count ?_ fun p hp => ?_
  · rw [z.map_dropped]
    refine Standing.Holds.drop ?_
    have := h.count msg.value
    rw [countOf_some hz] at this
    have hr := hrefs msg.value
    rw [if_pos rfl] at hr
    dsimp only at this
    rwa [← hr, Nat.add_right_comm] at this
  · have hr := hrefs p
    rw [if_neg (Ne.symm hp)] at hr
    dsimp only
    omega

theorem keeping_local : Local (Keeping P a) where
  lists _ _ _ hm hf := keeping_lists hm hf
  relink _ _ _ _ _ _ hm := keeping_set _ hm rfl
  release _ _ _ _ _ hm ho := keeping_release hm ho

theorem popMessageQueueT_keeping (now timeout : ℕ) :
    Keeps (Keeping P a) Fault.Any (popMessageQueueT now timeout) :=
  keeping_local.popMessageQueueT fun _ _ _ _ _ _ hm => keeping_set _ hm rfl

end Stock

end References

end EagleMQ
