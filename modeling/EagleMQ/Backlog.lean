import EagleMQ.Message

/-! What the operations on the messages of a queue do to its lists. A message
waits in the queue, is held for a confirmation, or is in no place; the expiry list
notes the nodes of the waiting messages that expire. A purge leaves its entries
there, and they are stale from then on: addresses are not reused. -/

namespace EagleMQ

open Prog

namespace Backlog

variable {P : Prop} {b : Backlog} {l l' : List (Ptr × Ptr)} {m n : Ptr} {msg : Message} {q : Queue}

/-- The messages in the places of a queue. -/
def places (b : Backlog) (l : List (Ptr × Ptr)) : List Ptr := l.map Prod.snd ++ b.confirmMessages

/-- The lists besides the queue itself, whose nodes and messages are `l`; with `P`
no entry of the expiry list is stale. -/
structure Tracked (P : Prop) (b : Backlog) (l : List (Ptr × Ptr)) : Prop where
  nodup : (b.places l).Nodup
  alive : ∀ m ∈ b.places l, b.messages m ≠ none
  below : Heap.Below b.messages b.fresh
  nodes : (b.expireMessages.map Prod.fst).Nodup
  fresh : ∀ x ∈ b.expireMessages, x.1 < b.fresh ∧ x.2 < b.fresh
  indexed : ∀ x ∈ l, ∀ msg, b.messages x.2 = some msg → msg.expiration ≠ 0 →
    ∃ e, (e, x.2) ∈ b.expireMessages ∧ msg.data0 = some e ∧ msg.data1 = some x.1
  /-- An entry of a message that is there is the one that the message notes. -/
  entries : ∀ x ∈ b.expireMessages, ∀ msg, b.messages x.2 = some msg →
    x.2 ∈ l.map Prod.snd ∧ msg.expiration ≠ 0 ∧ msg.data0 = some x.1
  live : P → ∀ x ∈ b.expireMessages, b.messages x.2 ≠ none

structure Sound (P : Prop) (b : Backlog) (l : List (Ptr × Ptr)) : Prop extends Tracked P b l where
  linked : b.queue.Linked l

theorem sound_create : Sound P .create [] where
  linked := Queue.linked_create
  nodup := by simp [places, create]
  alive := by simp [places, create]
  below := fun p hp => absurd rfl hp
  nodes := by simp [create]
  fresh := by simp [create]
  indexed := by simp
  entries := by simp [create]
  live := by simp [create]

/-! ### Changes of the lists -/

theorem Tracked.of_queue (h : Tracked P b l) (q : Queue) : Tracked P { b with queue := q } l where
  nodup := h.nodup
  alive := h.alive
  below := h.below
  nodes := h.nodes
  fresh := h.fresh
  indexed := h.indexed
  entries := h.entries
  live := h.live

theorem mem_places : m ∈ b.places l ↔ m ∈ l.map Prod.snd ∨ m ∈ b.confirmMessages := List.mem_append

/-- A message that is new. -/
theorem Tracked.create (h : Tracked P b l) (msg : Message) :
    Tracked P { b with messages := Function.update b.messages b.fresh (some msg), fresh := b.fresh + 1 } l := by
  have hne : ∀ m, b.messages m ≠ none → m ≠ b.fresh := fun m hm => Nat.ne_of_lt (h.below m hm)
  refine ⟨h.nodup, fun m hm => ?_, h.below.update (Nat.le_succ _) (Nat.lt_succ_self _) _, h.nodes,
    fun x hx => ?_, fun x hx msg' hmsg => ?_, fun x hx msg' hmsg => ?_, fun hP x hx => ?_⟩
  · dsimp only
    rw [Function.update_of_ne (hne m (h.alive m hm))]
    exact h.alive m hm
  · exact (h.fresh x hx).imp Nat.lt_succ_of_lt Nat.lt_succ_of_lt
  · dsimp only at hmsg
    rw [Function.update_of_ne (hne _ (h.alive _ (mem_places.mpr (.inl (List.mem_map_of_mem hx)))))] at hmsg
    exact h.indexed x hx msg' hmsg
  · dsimp only at hmsg
    rw [Function.update_of_ne (Nat.ne_of_lt (h.fresh x hx).2)] at hmsg
    exact h.entries x hx msg' hmsg
  · dsimp only
    rw [Function.update_of_ne (Nat.ne_of_lt (h.fresh x hx).2)]
    exact h.live hP x hx

/-- A message in no place is released. -/
theorem Tracked.release (h : Tracked P b l) (hm : m ∉ b.places l) :
    Tracked P { b with messages := Function.update b.messages m none } l := by
  have hne : ∀ {m'}, m' ∈ b.places l → m' ≠ m := fun hm' he => hm (he ▸ hm')
  refine ⟨h.nodup, fun m' hm' => ?_, fun p hp => ?_, h.nodes, h.fresh, fun x hx msg' hmsg => ?_,
    fun x hx msg' hmsg => ?_, fun hP x hx => ?_⟩
  · dsimp only
    rw [Function.update_of_ne (hne hm')]
    exact h.alive m' hm'
  · by_cases hpm : p = m
    · subst hpm; simp at hp
    · exact h.below p (by simpa [Function.update_of_ne hpm] using hp)
  · dsimp only at hmsg
    rw [Function.update_of_ne (hne (mem_places.mpr (.inl (List.mem_map_of_mem hx))))] at hmsg
    exact h.indexed x hx msg' hmsg
  · dsimp only at hmsg
    by_cases hxm : x.2 = m
    · simp [hxm] at hmsg
    · rw [Function.update_of_ne hxm] at hmsg
      exact h.entries x hx msg' hmsg
  · obtain ⟨msg', hmsg⟩ := Option.ne_none_iff_exists'.mp (h.live hP x hx)
    dsimp only
    rw [Function.update_of_ne (hne (mem_places.mpr (.inl (h.entries x hx msg' hmsg).1)))]
    exact h.live hP x hx

/-- A message in no place that does not expire joins the queue. -/
theorem Tracked.store (h : Tracked P b l) (hmsg : b.messages m = some msg) (hm : m ∉ b.places l)
    (he : msg.expiration = 0) (hl : l'.Perm ((n, m) :: l)) : Tracked P b l' := by
  have hp : (b.places l').Perm (m :: b.places l) := (hl.map Prod.snd).append_right _
  refine ⟨hp.nodup_iff.mpr (List.nodup_cons.mpr ⟨hm, h.nodup⟩), fun m' hm' => ?_, h.below, h.nodes, h.fresh,
    fun x hx msg' hmsg' he' => ?_, fun x hx msg' hmsg' => ?_, h.live⟩
  · rcases List.mem_cons.mp (hp.mem_iff.mp hm') with rfl | hm'
    · simp [hmsg]
    · exact h.alive m' hm'
  · rcases List.mem_cons.mp (hl.mem_iff.mp hx) with rfl | hx
    · rw [hmsg] at hmsg'
      exact absurd he (Option.some.inj hmsg' ▸ he')
    · exact h.indexed x hx msg' hmsg' he'
  · obtain ⟨hw, hrest⟩ := h.entries x hx msg' hmsg'
    exact ⟨(hl.map Prod.snd).mem_iff.mpr (List.mem_cons_of_mem _ hw), hrest⟩

/-- The entry that `indexMessage` adds. -/
def index (b : Backlog) (m : Ptr) (msg : Message) (node : Option Ptr) : Backlog :=
  { b with
    expireMessages := b.expireMessages ++ [(b.fresh, m)]
    messages := Function.update b.messages m (some { msg with data0 := some b.fresh, data1 := node })
    fresh := b.fresh + 1 }

/-- A message in no place that expires joins the queue and the expiry list. -/
theorem Tracked.index (h : Tracked P b l) (hmsg : b.messages m = some msg) (hm : m ∉ b.places l)
    (he : msg.expiration ≠ 0) (hl : l'.Perm ((n, m) :: l)) : Tracked P (b.index m msg (some n)) l' := by
  have hp : (b.places l').Perm (m :: b.places l) := (hl.map Prod.snd).append_right _
  have hlt : m < b.fresh := h.below m (by simp [hmsg])
  have hne : ∀ {m'}, m' ∈ b.places l → m' ≠ m := fun hm' he => hm (he ▸ hm')
  have hdead : ∀ x ∈ b.expireMessages, x.2 ≠ m := fun x hx hxm =>
    hm (mem_places.mpr (.inl (hxm ▸ (h.entries x hx msg (hxm ▸ hmsg)).1)))
  refine ⟨hp.nodup_iff.mpr (List.nodup_cons.mpr ⟨hm, h.nodup⟩), fun m' hm' => ?_,
    h.below.update (Nat.le_succ _) (Nat.lt_succ_of_lt hlt) _, ?_, fun x hx => ?_,
    fun x hx msg' hmsg' he' => ?_, fun x hx msg' hmsg' => ?_, fun hP x hx => ?_⟩
  · dsimp only [Backlog.index]
    rcases List.mem_cons.mp (hp.mem_iff.mp hm') with rfl | hm'
    · simp
    · rw [Function.update_of_ne (hne hm')]
      exact h.alive m' hm'
  · simp only [Backlog.index, List.map_append, List.map_cons, List.map_nil]
    refine List.nodup_append.mpr ⟨h.nodes, by simp, fun x hx y hy hxy => ?_⟩
    obtain ⟨z, hz, rfl⟩ := List.mem_map.mp hx
    rw [List.mem_singleton] at hy
    exact Nat.lt_irrefl _ (hy ▸ hxy ▸ (h.fresh z hz).1)
  · rcases List.mem_append.mp hx with hx | hx
    · exact (h.fresh x hx).imp Nat.lt_succ_of_lt Nat.lt_succ_of_lt
    · obtain rfl := List.mem_singleton.mp hx
      exact ⟨Nat.lt_succ_self _, Nat.lt_succ_of_lt hlt⟩
  · dsimp only [Backlog.index] at hmsg' ⊢
    rcases List.mem_cons.mp (hl.mem_iff.mp hx) with rfl | hx
    · rw [Function.update_self] at hmsg'
      obtain rfl := Option.some.inj hmsg'
      exact ⟨b.fresh, by simp, rfl, rfl⟩
    · rw [Function.update_of_ne (hne (mem_places.mpr (.inl (List.mem_map_of_mem hx))))] at hmsg'
      obtain ⟨e, hent, hdata⟩ := h.indexed x hx msg' hmsg' he'
      exact ⟨e, List.mem_append_left _ hent, hdata⟩
  · dsimp only [Backlog.index] at hmsg'
    rcases List.mem_append.mp hx with hx | hx
    · rw [Function.update_of_ne (hdead x hx)] at hmsg'
      obtain ⟨hw, hrest⟩ := h.entries x hx msg' hmsg'
      exact ⟨(hl.map Prod.snd).mem_iff.mpr (List.mem_cons_of_mem _ hw), hrest⟩
    · obtain rfl := List.mem_singleton.mp hx
      rw [Function.update_self] at hmsg'
      obtain rfl := Option.some.inj hmsg'
      exact ⟨(hl.map Prod.snd).mem_iff.mpr (by simp), he, rfl⟩
  · dsimp only [Backlog.index]
    rcases List.mem_append.mp hx with hx | hx
    · rw [Function.update_of_ne (hdead x hx)]
      exact h.live hP x hx
    · obtain rfl := List.mem_singleton.mp hx
      simp

/-- The expiry list without the entries of a message. -/
def unindexed (b : Backlog) (m : Ptr) : List (Ptr × Ptr) := b.expireMessages.filter fun x => x.2 ≠ m

theorem eraseP_key {x : Ptr × Ptr} :
    ∀ {l : List (Ptr × Ptr)}, (l.map Prod.fst).Nodup → x ∈ l →
      (l.eraseP fun y => y.1 == x.1) = l.filter fun y => y ≠ x
  | y :: l, hn, hx => by
    obtain ⟨hy, hn⟩ := List.nodup_cons.mp hn
    have hfst : ∀ z ∈ l, z.1 ≠ y.1 := fun z hz he => hy (he ▸ List.mem_map_of_mem hz)
    rcases List.mem_cons.mp hx with rfl | hx
    · have hall : ∀ z ∈ l, decide (z ≠ x) = true := fun z hz =>
        decide_eq_true fun he => hfst z hz (congrArg Prod.fst he)
      rw [List.eraseP_cons_of_pos (by simp), List.filter_cons_of_neg (by simp), List.filter_eq_self.mpr hall]
    · have hne : y ≠ x := fun he => hfst x hx (congrArg Prod.fst he.symm)
      rw [List.eraseP_cons_of_neg (by simpa using (hfst x hx).symm), eraseP_key hn hx,
        List.filter_cons_of_pos (by simpa using hne)]

/-- The entry of a waiting message, found by its address, is the only one of the message. -/
theorem Tracked.eraseP_eq (h : Tracked P b l) {e : Ptr} (hmsg : b.messages m = some msg)
    (hdata : msg.data0 = some e) (he : (e, m) ∈ b.expireMessages) :
    (b.expireMessages.eraseP fun x => x.1 == e) = b.unindexed m := by
  rw [show (fun x : Ptr × Ptr => x.1 == e) = fun x => x.1 == (e, m).1 from rfl, eraseP_key h.nodes he]
  refine List.filter_congr fun x hx => ?_
  rw [decide_eq_decide]
  refine not_congr ⟨fun hxe => by rw [hxe], fun hxm => ?_⟩
  have hd := (h.entries x hx msg (hxm ▸ hmsg)).2.2
  exact Prod.ext (Option.some.inj (hd.symm.trans hdata)) hxm

theorem Tracked.unindexed_eq (h : Tracked P b l) (hmsg : b.messages m = some msg) (he : msg.expiration = 0) :
    b.unindexed m = b.expireMessages :=
  List.filter_eq_self.mpr fun x hx => decide_eq_true fun hxm => (h.entries x hx msg (hxm ▸ hmsg)).2.1 he

/-- A waiting message leaves the queue and the expiry list. -/
theorem Tracked.leave (h : Tracked P b l) (hl : l.Perm ((n, m) :: l')) :
    Tracked P { b with expireMessages := b.unindexed m } l' ∧ m ∉ b.places l' := by
  have hp : (b.places l).Perm (m :: b.places l') := (hl.map Prod.snd).append_right _
  obtain ⟨hm, hnodup⟩ := List.nodup_cons.mp (hp.nodup_iff.mp h.nodup)
  have hmem : ∀ x ∈ l', x ∈ l := fun x hx => hl.mem_iff.mpr (List.mem_cons_of_mem _ hx)
  refine ⟨⟨hnodup, fun m' hm' => h.alive m' (hp.mem_iff.mpr (List.mem_cons_of_mem _ hm')), h.below,
    (List.filter_sublist.map Prod.fst).nodup h.nodes, fun x hx => h.fresh x (List.mem_of_mem_filter hx),
    fun x hx msg' hmsg' he' => ?_, fun x hx msg' hmsg' => ?_,
    fun hP x hx => h.live hP x (List.mem_of_mem_filter hx)⟩, hm⟩
  · obtain ⟨e, hent, hdata⟩ := h.indexed x (hmem x hx) msg' hmsg' he'
    refine ⟨e, List.mem_filter.mpr ⟨hent, decide_eq_true fun hxm => hm (mem_places.mpr (.inl ?_))⟩, hdata⟩
    have hw : x.2 ∈ l'.map Prod.snd := List.mem_map_of_mem hx
    rwa [show x.2 = m from hxm] at hw
  · obtain ⟨hx, hxm⟩ := List.mem_filter.mp hx
    obtain ⟨hw, hrest⟩ := h.entries x hx msg' hmsg'
    refine ⟨?_, hrest⟩
    exact (List.mem_cons.mp ((hl.map Prod.snd).mem_iff.mp hw)).resolve_left (of_decide_eq_true hxm)

/-- A message in no place is held for a confirmation. -/
theorem Tracked.hold (h : Tracked P b l) (hmsg : b.messages m = some msg) (hm : m ∉ b.places l) (time : ℕ) :
    Tracked P { b with
      messages := Function.update b.messages m (some { msg with confirm := time })
      confirmMessages := b.confirmMessages ++ [m] } l := by
  have hp : (l.map Prod.snd ++ (b.confirmMessages ++ [m])).Perm (m :: b.places l) := by
    rw [← List.append_assoc]
    exact List.perm_append_singleton _ _
  have hne : ∀ {m'}, m' ∈ b.places l → m' ≠ m := fun hm' he => hm (he ▸ hm')
  refine ⟨hp.nodup_iff.mpr (List.nodup_cons.mpr ⟨hm, h.nodup⟩), fun m' hm' => ?_,
    h.below.update (Nat.le_refl _) (h.below m (by simp [hmsg])) _, h.nodes, h.fresh,
    fun x hx msg' hmsg' he' => ?_, fun x hx msg' hmsg' => ?_, fun hP x hx => ?_⟩
  · dsimp only
    rcases List.mem_cons.mp (hp.mem_iff.mp hm') with rfl | hm'
    · simp
    · rw [Function.update_of_ne (hne hm')]
      exact h.alive m' hm'
  · dsimp only at hmsg'
    rw [Function.update_of_ne (hne (mem_places.mpr (.inl (List.mem_map_of_mem hx))))] at hmsg'
    exact h.indexed x hx msg' hmsg' he'
  · dsimp only at hmsg'
    by_cases hxm : x.2 = m
    · exact absurd (mem_places.mpr (.inl (h.entries x hx msg (hxm ▸ hmsg)).1)) (hxm ▸ hm)
    · rw [Function.update_of_ne hxm] at hmsg'
      exact h.entries x hx msg' hmsg'
  · dsimp only
    by_cases hxm : x.2 = m
    · simp [hxm]
    · rw [Function.update_of_ne hxm]
      exact h.live hP x hx

/-- A held message is held no more. -/
theorem Tracked.unhold (h : Tracked P b l) (hm : m ∈ b.confirmMessages) :
    Tracked P { b with confirmMessages := b.confirmMessages.erase m } l ∧
      m ∉ l.map Prod.snd ++ b.confirmMessages.erase m := by
  obtain ⟨hw, hc, hd⟩ := List.nodup_append.mp h.nodup
  have hsub : (b.confirmMessages.erase m).Sublist b.confirmMessages := List.erase_sublist
  refine ⟨⟨(hsub.append_left _).nodup h.nodup, fun m' hm' => h.alive m' ((hsub.append_left _).subset hm'),
    h.below, h.nodes, h.fresh, h.indexed, h.entries, h.live⟩, fun hmem => ?_⟩
  rcases List.mem_append.mp hmem with hmw | hme
  · exact hd m hmw m hm rfl
  · exact hc.not_mem_erase hme

/-! ### What an operation leaves alone -/

/-- The messages without what depends on their places. -/
def core (b : Backlog) : Heap (Ptr × ℕ × ℕ) :=
  fun m => (b.messages m).map fun x => (x.value, x.tag, x.expiration)

/-- Messages may have moved between the queue and no place. -/
structure Stays (b b' : Backlog) : Prop where
  core : b'.core = b.core
  held : b'.confirmMessages = b.confirmMessages
  confirm : ∀ m ∈ b.confirmMessages, b'.messages m = b.messages m
  fresh : b.fresh ≤ b'.fresh

/-- A message is gone. -/
structure Drops (b : Backlog) (m : Ptr) (b' : Backlog) : Prop where
  messages : b'.messages = Function.update b.messages m none
  held : b'.confirmMessages = b.confirmMessages
  fresh : b'.fresh = b.fresh

theorem core_update_same (hmsg : b.messages m = some msg) {y : Message}
    (hy : (y.value, y.tag, y.expiration) = (msg.value, msg.tag, msg.expiration)) :
    core { b with messages := Function.update b.messages m (some y) } = b.core := by
  funext p
  by_cases hp : p = m
  · simp [core, hp, hmsg, hy]
  · simp [core, hp]

theorem Tracked.exists_message (h : Tracked P b l) (hm : m ∈ b.places l) : ∃ msg, b.messages m = some msg :=
  Option.ne_none_iff_exists'.mp (h.alive m hm)

end Backlog

namespace Stock

open Backlog

variable {P : Prop} {E : Fault → Prop} {b : Backlog} {o : Heap Object} {l : List (Ptr × Ptr)} {m n : Ptr}
  {msg : Message}

theorem wp_message {Q : Message → Stock → Prop} (hmsg : b.messages m = some msg) :
    wp (message m) Q E ⟨b, o⟩ ↔ Q msg ⟨b, o⟩ := by
  simp [message, hmsg]

theorem wp_releaseMessage {Q : Unit → Stock → Prop} (hE : E .object) (hmsg : b.messages m = some msg)
    (hQ : ∀ o', Objects.decrementReferencesCount o msg.value = .ok o' →
      Q () ⟨{ b with messages := Function.update b.messages m none }, o'⟩) :
    wp (releaseMessage m) Q E ⟨b, o⟩ := by
  rw [releaseMessage, wp_bind, wp_message hmsg, wp_bind, wp_get, wp_bind]
  cases ho : Objects.decrementReferencesCount o msg.value with
  | ok o' => exact hQ o' ho
  | error e =>
    obtain rfl : e = .object := by
      unfold Objects.decrementReferencesCount Objects.find at ho
      cases hx : o msg.value with
      | none => rw [hx] at ho; exact (Except.error.inj ho).symm
      | some x => rw [hx] at ho; cases ho
    exact hE

/-- A message that is stored in one of the two ways of `push_value`. -/
theorem indexStored_spec {l' : List (Ptr × Ptr)} {q : Queue} (h : Sound P b l)
    (hmsg : b.messages m = some msg)
    (hm : m ∉ b.places l) (hq : q.Linked l') (hl : l'.Perm ((n, m) :: l)) :
    (msg.expiration = 0 → Sound P { b with queue := q } l' ∧ Stays b { b with queue := q }) ∧
      (msg.expiration ≠ 0 → Sound P (index { b with queue := q } m msg (some n)) l' ∧
        Stays b (index { b with queue := q } m msg (some n))) := by
  refine ⟨fun he => ⟨⟨(h.store hmsg hm he hl).of_queue q, hq⟩, rfl, rfl, fun _ _ => rfl, Nat.le_refl _⟩,
    fun he => ⟨⟨(h.toTracked.of_queue q).index hmsg hm he hl, hq⟩, ?_, rfl, fun m' hm' => ?_, Nat.le_succ _⟩⟩
  · exact core_update_same (b := { b with queue := q }) hmsg rfl
  · have hne : m' ≠ m := fun hmm => hm (mem_places.mpr (.inr (hmm ▸ hm')))
    exact Function.update_of_ne hne ..

theorem wp_indexMessage {Q : Unit → Stock → Prop} {node : Option Ptr} (hmsg : b.messages m = some msg)
    (hQ : Q () ⟨b.index m msg node, o⟩) : wp (indexMessage m node) Q E ⟨b, o⟩ := by
  simpa [indexMessage, message, setMessage, modifyBacklog, hmsg, Backlog.index] using hQ

theorem storeMessage_spec (h : Sound P b l) (hmsg : b.messages m = some msg) (hm : m ∉ b.places l) :
    wp (storeMessage m) (fun _ t => t.objects = o ∧ Sound P t.backlog ((b.queue.fresh, m) :: l) ∧
      Stays b t.backlog) E ⟨b, o⟩ := by
  obtain ⟨q, hq, hlink, hhead⟩ := Queue.pushValueHead_spec h.linked m
  obtain ⟨hplain, hindex⟩ := indexStored_spec h hmsg hm hlink (List.Perm.refl _)
  simp only [storeMessage, setQueue, modifyBacklog, wp_bind, wp_get, hq, wp_lift_ok, wp_modify,
    wp_message (b := { b with queue := q }) hmsg]
  refine wp_ite (fun he => ?_) fun he => ?_
  · exact wp_indexMessage (b := { b with queue := q }) hmsg ⟨rfl, by simpa only [hhead] using hindex he⟩
  · exact ⟨rfl, hplain (not_not.mp he)⟩

/-! ### Pops -/

theorem wp_deleteExpire {Q : Unit → Stock → Prop} {e : Ptr} (h : Tracked P b l)
    (hmsg : b.messages m = some msg)
    (hdata : msg.data0 = some e) (he : (e, m) ∈ b.expireMessages)
    (hQ : Q () ⟨{ b with expireMessages := b.unindexed m }, o⟩) : wp (deleteExpire (some e)) Q E ⟨b, o⟩ := by
  have hmem : e ∈ b.expireMessages.map Prod.fst := List.mem_map_of_mem (f := Prod.fst) he
  rw [deleteExpire, wp_bind, wp_get, if_pos hmem]
  show Q () ⟨{ b with expireMessages := b.expireMessages.eraseP fun x => x.1 == e }, o⟩
  rwa [h.eraseP_eq hmsg hdata he]

/-- The last node goes, with its entry in the expiry list. -/
theorem popMessageQueueT_leaves {now timeout : ℕ} {Q : Unit → Stock → Prop} (h : Sound P b (l ++ [(n, m)]))
    (hQ : ∀ b' msg, b.messages m = some msg → b'.messages = b.messages →
      b'.confirmMessages = b.confirmMessages →
      b'.fresh = b.fresh → Sound P b' l → m ∉ b'.places l →
      wp (if timeout ≠ 0 then do
          setMessage m { msg with confirm := (now + timeout) % 4294967296 }
          modifyBacklog fun b => { b with confirmMessages := b.confirmMessages ++ [m] }
        else releaseMessage m) Q E ⟨b', o⟩) :
    wp (popMessageQueueT now timeout) Q E ⟨b, o⟩ := by
  obtain ⟨q, hq, hlink⟩ := Queue.popValue_spec h.linked
  obtain ⟨msg, hmsg⟩ := h.exists_message (m := m) (mem_places.mpr (.inl (by simp)))
  obtain ⟨hleave, hm⟩ := h.leave (List.perm_append_singleton _ _)
  have hqueue := h.toTracked.of_queue q
  simp only [popMessageQueueT, setQueue, modifyBacklog, wp_bind, wp_get, hq, wp_lift_ok, wp_modify,
    wp_message (b := { b with queue := q }) hmsg]
  refine wp_ite (fun he => ?_) fun he => ?_
  · obtain ⟨e, hent, hdata, -⟩ := h.indexed (n, m) (by simp) msg hmsg he
    rw [wp_bind, show deleteExpire msg.data0 = deleteExpire (some e) by rw [hdata]]
    refine wp_deleteExpire (b := { b with queue := q }) hqueue hmsg hdata hent ?_
    exact hQ { b with queue := q, expireMessages := b.unindexed m } msg hmsg rfl rfl rfl
      ⟨hleave.of_queue q, hlink⟩ hm
  · rw [h.unindexed_eq hmsg (not_not.mp he)] at hleave
    exact hQ { b with queue := q } msg hmsg rfl rfl rfl ⟨hleave.of_queue q, hlink⟩ hm

theorem popMessageQueueT_drops {now : ℕ} (hE : E .object) (h : Sound P b (l ++ [(n, m)])) :
    wp (popMessageQueueT now 0) (fun _ t => Sound P t.backlog l ∧ Drops b m t.backlog ∧
      ∃ msg, b.messages m = some msg ∧ Objects.decrementReferencesCount o msg.value = .ok t.objects)
        E ⟨b, o⟩ := by
  refine popMessageQueueT_leaves h fun b' msg hmsg hsame hheld hfresh hs hm => ?_
  exact wp_releaseMessage hE (hsame ▸ hmsg) fun o' ho =>
    ⟨⟨hs.release hm, hs.linked⟩, ⟨by rw [hsame], hheld, hfresh⟩, msg, hmsg, ho⟩

/-- The message of a pop with a timeout is held. -/
theorem popMessageQueueT_holds {now timeout : ℕ} (ht : timeout ≠ 0) (h : Sound P b (l ++ [(n, m)])) :
    wp (popMessageQueueT now timeout) (fun _ t => t.objects = o ∧ Sound P t.backlog l ∧
      t.backlog.core = b.core ∧ t.backlog.confirmMessages = b.confirmMessages ++ [m] ∧
      t.backlog.fresh = b.fresh) E ⟨b, o⟩ := by
  refine popMessageQueueT_leaves h fun b' msg hmsg hsame hheld hfresh hs hm => ?_
  have hmsg' : b'.messages m = some msg := by rw [hsame, hmsg]
  have hcore : b'.core = b.core := by unfold core; rw [hsame]
  rw [if_pos ht]
  refine ⟨rfl, ⟨hs.hold hmsg' hm _, hs.linked⟩, ?_, by rw [← hheld], hfresh⟩
  rw [← hcore]
  exact core_update_same hmsg' rfl

theorem popMessageQueueT_nil {now timeout : ℕ} (h : Sound P b []) :
    wp (popMessageQueueT now timeout) (fun _ _ => False) (fun e => e = .null) ⟨b, o⟩ := by
  simp only [popMessageQueueT, setQueue, modifyBacklog, wp_bind, wp_get,
    Queue.popValue_nil h.linked, wp_lift_ok,
    wp_modify, wp_throw]

/-! ### Confirmations -/

theorem findTag_spec {messages : Heap Message} (tag : ℕ) :
    ∀ {l : List Ptr}, (∀ m ∈ l, messages m ≠ none) →
      (∃ m msg, findTag messages tag l = .ok (some m) ∧ m ∈ l ∧ messages m = some msg ∧ msg.tag = tag) ∨
        findTag messages tag l = .ok none ∧ ∀ m ∈ l, ∀ msg, messages m = some msg → msg.tag ≠ tag
  | [], _ => .inr ⟨rfl, by simp⟩
  | m :: l, h => by
    obtain ⟨msg, hmsg⟩ := Option.ne_none_iff_exists'.mp (h m (by simp))
    by_cases ht : msg.tag = tag
    · exact .inl ⟨m, msg, by simp [findTag, hmsg, ht], by simp, hmsg, ht⟩
    · have hstep : findTag messages tag (m :: l) = findTag messages tag l := by simp [findTag, hmsg, ht]
      rw [hstep]
      rcases findTag_spec tag fun m' hm' => h m' (List.mem_cons_of_mem m hm') with
        ⟨m', msg', hf, hm', hrest⟩ | ⟨hf, hnone⟩
      · exact .inl ⟨m', msg', hf, List.mem_cons_of_mem m hm', hrest⟩
      · refine .inr ⟨hf, fun m' hm' msg' hmsg' => ?_⟩
        rcases List.mem_cons.mp hm' with rfl | hm'
        · rw [hmsg] at hmsg'
          exact Option.some.inj hmsg' ▸ ht
        · exact hnone m' hm' msg' hmsg'

/-- The first held message with the tag goes. -/
theorem confirmMessageQueueT_spec {tag : ℕ} (hE : E .object) (h : Sound P b l) :
    wp (confirmMessageQueueT tag) (fun ok t =>
      (ok = true ∧ ∃ m msg, m ∈ b.confirmMessages ∧ b.messages m = some msg ∧ msg.tag = tag ∧
        Sound P t.backlog l ∧ t.backlog.messages = Function.update b.messages m none ∧
        t.backlog.confirmMessages = b.confirmMessages.erase m ∧ t.backlog.fresh = b.fresh ∧
        Objects.decrementReferencesCount o msg.value = .ok t.objects) ∨
      (ok = false ∧ t = ⟨b, o⟩ ∧ ∀ m ∈ b.confirmMessages, ∀ msg, b.messages m = some msg → msg.tag ≠ tag))
      E ⟨b, o⟩ := by
  rw [confirmMessageQueueT, wp_bind, wp_get]
  rcases findTag_spec tag fun m hm => h.alive m (mem_places.mpr (.inr hm)) with
    ⟨m, msg, hf, hm, hmsg, ht⟩ | ⟨hf, hnone⟩
  · obtain ⟨hun, hplace⟩ := h.unhold hm
    simp only [hf, modifyBacklog, wp_bind, wp_lift_ok, wp_modify, wp_pure]
    exact wp_releaseMessage (b := { b with confirmMessages := b.confirmMessages.erase m }) hE hmsg
      fun o' ho => .inl ⟨trivial, m, msg, hm, hmsg, ht, ⟨hun.release hplace, h.linked⟩, rfl, rfl, rfl, ho⟩
  · simp only [hf, wp_bind, wp_lift_ok, wp_pure]
    exact .inr ⟨trivial, trivial, hnone⟩

/-! ### Purges -/

/-- The messages without those of a list. -/
def without (messages : Heap Message) (l : List Ptr) : Heap Message :=
  fun m => if m ∈ l then none else messages m

theorem forM_releaseMessage_spec (hE : E .object) :
    ∀ {l : List Ptr} {b : Backlog} {o : Heap Object}, l.Nodup → (∀ m ∈ l, b.messages m ≠ none) →
      wp (l.forM releaseMessage) (fun _ t => t.backlog = { b with messages := without b.messages l }) E ⟨b, o⟩
  | [], b, o, _, _ => by
    have hnil : without b.messages [] = b.messages := by
      funext m
      simp [without]
    show b = { b with messages := without b.messages [] }
    rw [hnil]
  | m :: l, b, o, hn, h => by
    obtain ⟨hm, hn⟩ := List.nodup_cons.mp hn
    obtain ⟨msg, hmsg⟩ := Option.ne_none_iff_exists'.mp (h m (by simp))
    rw [show (m :: l).forM releaseMessage = (releaseMessage m >>= fun _ => l.forM releaseMessage)
      from rfl, wp_bind]
    refine wp_releaseMessage hE hmsg fun o' _ => ?_
    refine wp_mono (forM_releaseMessage_spec hE hn fun m' hm' => ?_) (fun _ t ht => ?_) fun _ h => h
    · have hne : m' ≠ m := fun he => hm (he ▸ hm')
      dsimp only
      rw [Function.update_of_ne hne]
      exact h m' (List.mem_cons_of_mem m hm')
    · rw [ht]
      congr 1
      funext m'
      by_cases hm' : m' = m
      · simp [without, hm']
      · simp [without, hm']

theorem Tracked.purge (h : Tracked P b l) {P' : Prop}
    (hP : P' → P ∧ ∀ x ∈ l, ∀ msg, b.messages x.2 = some msg → msg.expiration = 0) :
    Tracked P' { b with messages := without b.messages (l.map Prod.snd) } [] := by
  have hout : ∀ {m'}, m' ∈ b.confirmMessages → m' ∉ l.map Prod.snd := fun hm' hw =>
    (List.nodup_append.mp h.nodup).2.2 _ hw _ hm' rfl
  have hsome : ∀ {m' : Ptr} {msg' : Message}, without b.messages (l.map Prod.snd) m' = some msg' →
      m' ∉ l.map Prod.snd ∧ b.messages m' = some msg' := fun {m'} _ hm' => by
    by_cases hw : m' ∈ l.map Prod.snd
    · simp [without, hw] at hm'
    · exact ⟨hw, by simpa [without, hw] using hm'⟩
  refine ⟨(List.nodup_append.mp h.nodup).2.1, fun m' hm' => ?_, fun p hp => ?_, h.nodes, h.fresh, by simp,
    fun x hx msg' hmsg' => ?_, fun hP' x hx => ?_⟩
  · dsimp only
    rw [without, if_neg (hout hm')]
    exact h.alive m' (mem_places.mpr (.inr hm'))
  · obtain ⟨msg', hmsg'⟩ := Option.ne_none_iff_exists'.mp hp
    exact h.below p (by simp [(hsome hmsg').2])
  · obtain ⟨hw, hmsg'⟩ := hsome hmsg'
    exact absurd (h.entries x hx msg' hmsg').1 hw
  · obtain ⟨hp, hplain⟩ := hP hP'
    obtain ⟨msg', hmsg'⟩ := Option.ne_none_iff_exists'.mp (h.live hp x hx)
    obtain ⟨hw, hne, -⟩ := h.entries x hx msg' hmsg'
    obtain ⟨y, hy, hyx⟩ := List.mem_map.mp hw
    exact absurd (hplain y hy msg' (hyx ▸ hmsg')) hne

theorem purgeQueueT_spec (hE : E .object) (h : Sound P b l) {P' : Prop}
    (hP : P' → P ∧ ∀ x ∈ l, ∀ msg, b.messages x.2 = some msg → msg.expiration = 0) :
    wp purgeQueueT (fun _ t => Sound P' t.backlog [] ∧
      t.backlog.messages = without b.messages (l.map Prod.snd) ∧
      t.backlog.confirmMessages = b.confirmMessages ∧ t.backlog.fresh = b.fresh) E ⟨b, o⟩ := by
  obtain ⟨q, hq, hlink⟩ := Queue.purge_spec h.linked
  simp only [purgeQueueT, setQueue, modifyBacklog, wp_bind, wp_get, hq, wp_lift_ok, wp_modify]
  refine wp_mono (forM_releaseMessage_spec hE (List.nodup_append.mp h.nodup).1 fun m hm =>
    h.alive m (mem_places.mpr (.inl hm))) (fun _ t ht => ?_) fun _ h => h
  rw [ht]
  exact ⟨⟨(Tracked.purge h.toTracked hP).of_queue q, hlink⟩, rfl, rfl, rfl⟩

theorem releaseQueue_spec (hE : E .object) (h : Sound P b l) :
    wp releaseQueue (fun _ t => t.backlog.messages = without b.messages (l.map Prod.snd)) E ⟨b, o⟩ := by
  obtain ⟨q, hq, -⟩ := Queue.purge_spec h.linked
  cases hfree : b.queue.freeNodes b.queue.len b.queue.head with
  | error e => simp [Queue.purge, hfree, bind, Except.bind] at hq
  | ok r =>
    obtain ⟨values, q'⟩ := r
    obtain ⟨rfl, -⟩ : values = l.map Prod.snd ∧ _ := by simpa [Queue.purge, hfree, bind, Except.bind] using hq
    simp only [releaseQueue, setQueue, modifyBacklog, wp_bind, wp_get, hfree, wp_lift_ok, wp_modify]
    exact wp_mono (forM_releaseMessage_spec hE (List.nodup_append.mp h.nodup).1 fun m hm =>
      h.alive m (mem_places.mpr (.inl hm))) (fun _ t ht => by rw [ht]) fun _ h => h

end Stock

end EagleMQ
