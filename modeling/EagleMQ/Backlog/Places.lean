import EagleMQ.AutoDelete
import EagleMQ.Backlog.Index

/-! Where a message that was stored in a queue is. It waits in the queue or is held
for a confirmation, and once it has left both it does not come back. -/

namespace EagleMQ

open Prog Backlog

/-- The messages that wait and those that are held. -/
def Backlog.stored (b : Backlog) : List Ptr := b.queue.waiting ++ b.confirmMessages

/-- What ends the stay of a message in a queue. -/
inductive Finished (s : EagleServer) (op : Op) (q : Ptr) (x y : QueueT) (m : Ptr) : Prop
  | popped {c : Ptr} {req : Request} (hop : op = .request c req) (hcmd : req.cmd = Cmd.queuePop)
      (haddr : Addresses s c req 76 q) (htimeout : req.u32 72 = 0)
      (hnext : x.backlog.queue.waiting.head? = some m) : Finished s op q x y m
  | confirmed {c : Ptr} {req : Request} {msg : Message} (hop : op = .request c req)
      (hcmd : req.cmd = Cmd.queueConfirm)
      (haddr : Addresses s c req 80 q) (hheld : m ∈ x.backlog.confirmMessages)
      (hmsg : x.backlog.messages m = some msg) (htag : msg.tag = req.u64 72) : Finished s op q x y m
  | purged {c : Ptr} {req : Request} (hop : op = .request c req) (hcmd : req.cmd = Cmd.queuePurge)
      (haddr : Addresses s c req 72 q) (hwaits : m ∈ x.backlog.queue.waiting) : Finished s op q x y m
  /-- A push to a full queue with force takes the message that is next to pop. -/
  | evicted (hpush : PushesTo s q op) (hforce : x.forcePush = true)
      (hfull : x.maxMsg ≤ x.backlog.queue.waiting.length)
      (hnext : x.backlog.queue.waiting.head? = some m) : Finished s op q x y m
  | expired (hop : op = .tick) (h : x.backlog.expired (s.env.mstime % 4294967296) m = true) :
    Finished s op q x y m

/-- A pop with a timeout of the message that is next. -/
def Held (s : EagleServer) (op : Op) (q : Ptr) (x : QueueT) (m : Ptr) : Prop :=
  ∃ c req, op = .request c req ∧ req.cmd = Cmd.queuePop ∧ Addresses s c req 76 q ∧ req.u32 72 ≠ 0 ∧
    x.backlog.queue.waiting.head? = some m

/-- A tick after the time to confirm a message. -/
def Returned (s : EagleServer) (op : Op) (x : QueueT) (m : Ptr) : Prop :=
  op = .tick ∧ m ∈ x.backlog.returned (s.env.mstime % 4294967296)

/-- What becomes of each message by a step that leaves the queue there. -/
structure Fate (s : EagleServer) (op : Op) (q : Ptr) (x y : QueueT) : Prop where
  waiting : ∀ m ∈ x.backlog.queue.waiting, m ∈ y.backlog.queue.waiting ∨
    m ∈ y.backlog.confirmMessages ∧ Held s op q x m ∨ m ∉ y.backlog.stored ∧ Finished s op q x y m
  held : ∀ m ∈ x.backlog.confirmMessages, m ∈ y.backlog.confirmMessages ∨
    m ∈ y.backlog.queue.waiting ∧ Returned s op x m ∨ m ∉ y.backlog.stored ∧ Finished s op q x y m
  /-- What is new has a number that no message had. -/
  new : ∀ m ∈ y.backlog.stored, m ∈ x.backlog.stored ∨ x.backlog.fresh ≤ m
  fresh : x.backlog.fresh ≤ y.backlog.fresh

section Places

variable {P : Prop} {s t : EagleServer} {op : Op} {q first : Ptr} {x y : QueueT} {b : Backlog}
  {l l' : List (Ptr × Ptr)} {m : Ptr}

theorem Backlog.Sound.mem_stored (h : Sound P b l) : m ∈ b.stored ↔ m ∈ b.places l := by
  rw [stored, List.mem_append, h.mem_waiting, mem_places]

theorem Backlog.Sound.stored_nodup (h : Sound P b l) : b.stored.Nodup := by
  have hperm : b.stored.Perm (b.places l) := by
    rw [stored, h.waiting_eq]
    exact (List.reverse_perm _).append_right _
  exact hperm.nodup_iff.mpr h.nodup

theorem Backlog.Sound.not_held (h : Sound P b l) (hm : m ∈ b.queue.waiting) :
    m ∉ b.confirmMessages := fun hc =>
  (List.nodup_append.mp h.stored_nodup).2.2 m hm m hc rfl

theorem Backlog.Sound.lt_fresh (h : Sound P b l) (hm : m ∈ b.stored) : m < b.fresh := h.held_below m hm

/-- A queue whose messages have not moved. -/
theorem Fate.of_same (hb : y.backlog = x.backlog) : Fate s op q x y where
  waiting _ hm := .inl (hb ▸ hm)
  held _ hm := .inl (hb ▸ hm)
  new _ hm := .inl (hb ▸ hm)
  fresh := hb ▸ Nat.le_refl _

theorem Pushed.fate (h : Pushed x x.backlog y.backlog) (hto : PushesTo s q op) (hs : Sound P x.backlog l) :
    Fate s op q x y := by
  obtain ⟨l', hs', hg, hheld, hfresh⟩ := h.sound hs
  cases hg with
  | same =>
    have hwait : y.backlog.queue.waiting = x.backlog.queue.waiting := by rw [hs'.waiting_eq, hs.waiting_eq]
    exact ⟨fun m hm => .inl (hwait ▸ hm), fun m hm => .inl (hheld ▸ hm),
      fun m hm => .inl (by rwa [Backlog.stored, hwait, hheld] at hm), hfresh⟩
  | @stored n m hm _ =>
    have hwait : y.backlog.queue.waiting = x.backlog.queue.waiting ++ [m] := by
      simp [hs'.waiting_eq, hs.waiting_eq]
    refine ⟨fun w hw => .inl (hwait ▸ List.mem_append_left _ hw), fun w hw => .inl (hheld ▸ hw),
      fun w hw => ?_, hfresh⟩
    rw [Backlog.stored, hwait, hheld] at hw
    rw [Backlog.stored]
    rcases List.mem_append.mp hw with hw | hw
    · rcases List.mem_append.mp hw with hw | hw
      · exact .inl (List.mem_append_left _ hw)
      · exact .inr (List.mem_singleton.mp hw ▸ hm)
    · exact .inl (List.mem_append_right _ hw)
  | @forced n m l'' z hm hl hforce hlen =>
    have hx : x.backlog.queue.waiting = z.2 :: (l''.map Prod.snd).reverse := by simp [hs.waiting_eq, hl]
    have hy : y.backlog.queue.waiting = (l''.map Prod.snd).reverse ++ [m] := by simp [hs'.waiting_eq]
    have hfull : x.maxMsg ≤ x.backlog.queue.waiting.length := by simpa [hs.waiting_eq] using hlen
    have hnodup := hs.stored_nodup
    rw [Backlog.stored, hx, List.cons_append, List.nodup_cons] at hnodup
    refine ⟨fun w hw => ?_, fun w hw => .inl (hheld ▸ hw), fun w hw => ?_, hfresh⟩
    · have hlt := hs.lt_fresh (List.mem_append_left _ hw)
      rw [hx] at hw
      rcases List.mem_cons.mp hw with rfl | hw
      · refine .inr (.inr ⟨fun hmem => ?_, .evicted hto hforce hfull (by rw [hx]; rfl)⟩)
        rw [Backlog.stored, hy, hheld] at hmem
        rcases List.mem_append.mp hmem with hmem | hmem
        · rcases List.mem_append.mp hmem with hmem | hmem
          · exact hnodup.1 (List.mem_append_left _ hmem)
          · exact Nat.not_le.mpr hlt (List.mem_singleton.mp hmem ▸ hm)
        · exact hnodup.1 (List.mem_append_right _ hmem)
      · exact .inl (hy ▸ List.mem_append_left _ hw)
    · rw [Backlog.stored, hy, hheld] at hw
      rw [Backlog.stored, hx]
      rcases List.mem_append.mp hw with hw | hw
      · rcases List.mem_append.mp hw with hw | hw
        · exact .inl (List.mem_append_left _ (List.mem_cons_of_mem _ hw))
        · exact .inr (List.mem_singleton.mp hw ▸ hm)
      · exact .inl (List.mem_append_right _ hw)

/-- The places of the messages after a tick. -/
theorem Stock.Runs.ticked {b' : Backlog} {time : ℕ} (h : Stock.Runs (Stock.tick time) () b b')
    (hs : Sound P b l) :
    (∀ m, m ∈ b'.queue.waiting ↔ m ∈ b.queue.waiting ∧ b.expired time m = false ∨ m ∈ b.returned time) ∧
    (∀ m, m ∈ b.returned time ↔ m ∈ b.confirmMessages ∧ b.overdue time m = true ∧ b.expired time m = false) ∧
    (∀ m, m ∈ b'.confirmMessages ↔ m ∈ b.confirmMessages ∧ b.overdue time m = false) ∧
    b.fresh ≤ b'.fresh := by
  obtain ⟨o, o', htick⟩ := h.spec fun o => Stock.tick_spec (E := Fault.Any) trivial
    (fun _ => trivial) (.inr trivial) hs
  have hheld : b'.confirmMessages = b.confirmMessages.filter fun m => !b.overdue time m := htick.held
  obtain ⟨added, hs', hadded⟩ := htick.sound
  refine ⟨fun m => ?_, fun m => by simp [returned], fun m => by simp [hheld], htick.fresh⟩
  rw [hs'.mem_waiting, hs.mem_waiting, List.map_append, List.mem_append, hadded]
  simp only [List.mem_map, List.mem_filter, Bool.not_eq_true']
  refine or_congr_left ⟨?_, ?_⟩
  · rintro ⟨z, ⟨hz, he⟩, hzm⟩
    exact ⟨⟨z, hz, hzm⟩, hzm ▸ he⟩
  · rintro ⟨⟨z, hz, hzm⟩, he⟩
    exact ⟨z, ⟨hz, hzm.symm ▸ he⟩, hzm⟩

theorem Change.fate (h : Change s q x y op) (hs : Sound P x.backlog l) : Fate s op q x y := by
  have hobject : Fault.Any .object := trivial
  cases h with
  | same hy => exact .of_same (settings_of_bare hy).2
  | push hto _ hp => exact hp.fate hto hs
  | @pop c req hcmd haddr _ hp =>
    obtain rfl | ⟨l, ⟨n, w⟩, rfl⟩ := l.eq_nil_or_concat'
    · obtain ⟨o, o', hfalse⟩ := hp.spec fun o => wp_mono (Stock.popMessageQueueT_nil hs) (fun _ _ h => h)
        (fun _ _ => (trivial : Fault.Any _))
      exact hfalse.elim
    · have hw : x.backlog.queue.waiting = w :: (l.map Prod.snd).reverse := by simp [hs.waiting_eq]
      have hnodup := hs.stored_nodup
      rw [stored, hw, List.cons_append, List.nodup_cons] at hnodup
      by_cases ht : req.u32 72 = 0
      · rw [ht] at hp
        obtain ⟨o, o', hs', hdrops, -⟩ :=
          hp.spec fun o => Stock.popMessageQueueT_drops (E := Fault.Any) hobject hs
        have hheld : y.backlog.confirmMessages = x.backlog.confirmMessages := hdrops.held
        have hy : y.backlog.stored = (l.map Prod.snd).reverse ++ x.backlog.confirmMessages := by
          rw [stored, hs'.waiting_eq, hheld]
        refine ⟨fun m hm => ?_, fun m hm => .inl (hheld ▸ hm), fun m hm => .inl ?_,
          Nat.le_of_eq hdrops.fresh.symm⟩
        · rw [hw] at hm
          rcases List.mem_cons.mp hm with rfl | hm
          · exact .inr (.inr ⟨by rw [hy]; exact hnodup.1, .popped rfl hcmd haddr ht (by rw [hw]; rfl)⟩)
          · exact .inl (hs'.waiting_eq ▸ hm)
        · rw [stored, hw]
          rw [hy] at hm
          exact List.mem_cons_of_mem _ hm
      · obtain ⟨o, o', -, hs', -, hheld, hfresh⟩ := hp.spec fun o =>
          Stock.popMessageQueueT_holds (E := Fault.Any) ht hs
        dsimp only at hs' hheld hfresh
        refine ⟨fun m hm => ?_, fun m hm => .inl (hheld ▸ List.mem_append_left _ hm), fun m hm => .inl ?_,
          hfresh ▸ Nat.le_refl _⟩
        · rw [hw] at hm
          rcases List.mem_cons.mp hm with rfl | hm
          · exact .inr (.inl ⟨by simp [hheld], c, req, rfl, hcmd, haddr, ht, by rw [hw]; rfl⟩)
          · exact .inl (hs'.waiting_eq ▸ hm)
        · rw [stored, hs'.waiting_eq, hheld] at hm
          rw [stored, hw]
          simp only [List.mem_append, List.mem_cons, List.not_mem_nil, or_false] at hm ⊢
          tauto
  | @confirm c req hcmd haddr _ ok hc =>
    obtain ⟨o, o', ⟨-, w, msg, hwheld, hmsg, htag, hs', -, hheld, hfresh, -⟩ | ⟨-, hsame, -⟩⟩ :=
      hc.spec fun o =>
      Stock.confirmMessageQueueT_spec (E := Fault.Any) hobject hs
    · dsimp only at hs' hheld hfresh
      have hwait : y.backlog.queue.waiting = x.backlog.queue.waiting := by rw [hs'.waiting_eq, hs.waiting_eq]
      have hn := (List.nodup_append.mp hs.stored_nodup).2.1
      refine ⟨fun m hm => .inl (hwait ▸ hm), fun m hm => ?_, fun m hm => .inl ?_, hfresh ▸ Nat.le_refl _⟩
      · by_cases hmw : m = w
        · subst hmw
          refine .inr (.inr ⟨fun hmem => ?_, .confirmed rfl hcmd haddr hwheld hmsg htag⟩)
          rw [stored, hwait, hheld] at hmem
          rcases List.mem_append.mp hmem with hmem | hmem
          · exact hs.not_held hmem hm
          · exact hn.not_mem_erase hmem
        · exact .inl (hheld ▸ (List.mem_erase_of_ne hmw).mpr hm)
      · rw [stored, hwait, hheld] at hm
        rw [stored]
        exact (List.mem_append.mp hm).elim (fun h => List.mem_append_left _ h)
          fun h => List.mem_append_right _ (List.mem_of_mem_erase h)
    · exact .of_same (Stock.mk.inj hsame).1
  | @purge c req hcmd haddr _ hp =>
    obtain ⟨o, o', hs', -, hheld, hfresh⟩ := hp.spec fun o =>
      Stock.purgeQueueT_spec (E := Fault.Any) hobject hs False.elim
    dsimp only at hs' hheld hfresh
    have hy : y.backlog.stored = x.backlog.confirmMessages := by simp [stored, hs'.waiting_eq, hheld]
    exact ⟨fun m hm => .inr (.inr ⟨fun hmem => hs.not_held hm (hy ▸ hmem), .purged rfl hcmd haddr hm⟩),
      fun m hm => .inl (hheld ▸ hm), fun m hm => .inl (List.mem_append_right _ (hy ▸ hm)),
      hfresh ▸ Nat.le_refl _⟩
  | rename _ hy =>
    have hb := congrArg QueueT.backlog hy
    change y.backlog = x.backlog at hb
    exact .of_same hb
  | tick _ ht =>
    obtain ⟨hwait, hback, hkept, hfresh⟩ := ht.ticked hs
    refine ⟨fun m hm => ?_, fun m hm => ?_, fun m hm => .inl ?_, hfresh⟩
    · cases he : x.backlog.expired (s.env.mstime % 4294967296) m with
      | false => exact .inl ((hwait m).mpr (.inl ⟨hm, he⟩))
      | true =>
        refine .inr (.inr ⟨fun hmem => ?_, .expired rfl he⟩)
        rcases List.mem_append.mp hmem with hmem | hmem
        · rcases (hwait m).mp hmem with ⟨-, hlive⟩ | hret
          · simp [he] at hlive
          · exact hs.not_held hm ((hback m).mp hret).1
        · exact hs.not_held hm ((hkept m).mp hmem).1
    · cases ho : x.backlog.overdue (s.env.mstime % 4294967296) m with
      | false => exact .inl ((hkept m).mpr ⟨hm, ho⟩)
      | true =>
        cases he : x.backlog.expired (s.env.mstime % 4294967296) m with
        | false =>
          have hret := (hback m).mpr ⟨hm, ho, he⟩
          exact .inr (.inl ⟨(hwait m).mpr (.inr hret), rfl, hret⟩)
        | true =>
          refine .inr (.inr ⟨fun hmem => ?_, .expired rfl he⟩)
          rcases List.mem_append.mp hmem with hmem | hmem
          · rcases (hwait m).mp hmem with ⟨hw, -⟩ | hret
            · exact hs.not_held hw hm
            · simpa [he] using ((hback m).mp hret).2.2
          · simpa [ho] using ((hkept m).mp hmem).2
    · rcases List.mem_append.mp hm with hm | hm
      · rcases (hwait m).mp hm with ⟨hw, -⟩ | hret
        · exact List.mem_append_left _ hw
        · exact List.mem_append_right _ ((hback m).mp hret).1
      · exact List.mem_append_right _ ((hkept m).mp hm).1

/-! ### Operations on a queue -/

/-- An operation on the messages of a queue stops at nothing but the count of a payload. -/
def Runs {α : Type} (m : StockM α) (b : Backlog) : Prop := ∀ o e, m ⟨b, o⟩ = .error e → e = .object

/-- Every message is in one place, is there, and no operation meets one that is not. -/
structure Intact (b : Backlog) : Prop where
  once : b.stored.Nodup
  alive : ∀ m ∈ b.stored, b.messages m ≠ none
  get : ∀ o, Stock.getMessageQueueT ⟨b, o⟩ = .ok (b.queue.waiting.head?, ⟨b, o⟩)
  push : ∀ value tag expiration, Runs (do Stock.storeMessage (← Stock.createMessage value tag expiration)) b
  pop : b.queue.waiting ≠ [] → ∀ now timeout, Runs (Stock.popMessageQueueT now timeout) b
  confirm : ∀ tag, Runs (Stock.confirmMessageQueueT tag) b
  purge : Runs Stock.purgeQueueT b
  release : Runs Stock.releaseQueue b
  tick : ∀ time, NextClear b time → Runs (Stock.tick time) b

theorem runs_of_wp {α : Type} {m : StockM α} {Q : Heap Object → α → Stock → Prop}
    (h : ∀ o, wp m (Q o) (· = .object) ⟨b, o⟩) :
    Runs m b := fun o _ he => fault_of_wp (E := (· = .object)) (h o) he

theorem Backlog.Sound.intact (h : Sound True b l) : Intact b where
  once := h.stored_nodup
  alive m hm := h.alive m (h.mem_stored.mp hm)
  get o := by
    rw [getMessageQueueT_eq, h.waiting_eq, List.head?_reverse, List.getLast?_map]
    obtain rfl | ⟨l, ⟨n, m⟩, rfl⟩ := l.eq_nil_or_concat'
    · rw [Queue.getValue_nil h.linked]
      rfl
    · rw [Queue.getValue_spec h.linked, List.getLast?_concat]
      rfl
  push value tag expiration := runs_of_wp (Q := fun _ _ _ => True) fun o => by
    rw [wp_bind]
    have hm : b.fresh ∉ b.places l := fun hm => Nat.lt_irrefl _ (h.below _ (h.alive _ hm))
    have hcreated := h.toTracked.create ⟨value, tag, 0, expiration, none, none⟩
    have hstore := Stock.storeMessage_spec (E := (· = .object)) (o := o) ⟨hcreated, h.linked⟩
      (Function.update_self ..) hm
    exact wp_mono (m := Stock.storeMessage b.fresh) hstore (fun _ _ _ => trivial) fun _ h => h
  pop hw now timeout := runs_of_wp (Q := fun _ _ _ => True) fun o => by
    obtain rfl | ⟨l, ⟨n, m⟩, rfl⟩ := l.eq_nil_or_concat'
    · exact absurd h.waiting_eq hw
    · by_cases ht : timeout = 0
      · subst ht
        exact wp_mono (Stock.popMessageQueueT_drops (E := (· = .object)) rfl h)
          (fun _ _ _ => trivial) fun _ h => h
      · exact wp_mono (Stock.popMessageQueueT_holds ht h) (fun _ _ _ => trivial) fun _ h => h
  confirm tag := runs_of_wp fun o => Stock.confirmMessageQueueT_spec (E := (· = .object)) rfl h
  purge := runs_of_wp fun o => Stock.purgeQueueT_spec (E := (· = .object)) rfl h False.elim
  release := runs_of_wp fun o => Stock.releaseQueue_spec (E := (· = .object)) rfl h
  tick time hclear := runs_of_wp fun o => tick_errs h hclear o

/-! ### Runs -/

/-- No purge leaves a stale entry, and no tick takes a stale link. -/
def Careful (s : EagleServer) (op : Op) : Prop :=
  PurgesPlain s op ∧ (op = .tick → ∀ q x, s.queueAt q = some x →
    NextClear x.backlog (s.env.mstime % 4294967296))

section Runs

variable [Lzf] {u : EagleServer}

/-- What a step makes of a queue that stays. -/
theorem step_fate (hs : Reachable s) (ha : Enabled s op) (ht : step s op = .ok t) (hx : s.queueAt q = some x)
    (hy : t.queueAt q = some y) : Fate s op q x y := by
  rcases step_traffic hs.related ha ht q y hy with ⟨x', hx', hc⟩ | ⟨hnone, -⟩
  · obtain rfl := Option.some.inj (hx.symm.trans hx')
    obtain ⟨l, hl⟩ := hs.stocked q x hx
    exact hc.fate hl
  · cases hnone.symm.trans hx

/-- What each change of a queue preserves holds of it for as long as it is there. -/
theorem run_change {allowed : EagleServer → Op → Prop} (h : Reachable s) (hrun : Run allowed step s t)
    (hallowed : ∀ u op, allowed u op → Enabled u op) (hx : s.queueAt q = some x) {I : QueueT → Prop}
    (hI : I x)
    (hstep : ∀ u op w z, Reachable u → u.queueAt q = some w → allowed u op → Change u q w z op → I w → I z)
    (hy : t.queueAt q = some y) : I y := by
  have hq : q < s.fresh := h.related.below.queues _ (queue_alive.mpr ⟨x, hx⟩)
  refine (hrun.invariant (fun u => Reachable u ∧ s.fresh ≤ u.fresh ∧ ∀ z, u.queueAt q = some z → I z)
    ⟨h, Nat.le_refl _, fun z hz => Option.some.inj (hx.symm.trans hz) ▸ hI⟩ ?_).2.2 y hy
  rintro u op v ⟨hu, hle, hqueue⟩ hop hv
  have ha := hallowed u op hop
  refine ⟨hu.step op ha hv, Nat.le_trans hle (step_fresh hu.related ha hv), fun z hz => ?_⟩
  rcases step_traffic hu.related ha hv q z hz with ⟨w, hw, hc⟩ | ⟨-, -, hnew, -⟩
  · exact hstep u op w z hu hw hop hc (hqueue w hw)
  · exact absurd hq (Nat.not_lt.mpr (hnew ▸ hle))

/-- A message that is in neither place does not come back. -/
theorem run_finished (h : Reachable s) (hrun : Run Enabled step s t) (hx : s.queueAt q = some x)
    (hold : m < x.backlog.fresh) (hm : m ∉ x.backlog.stored) (hy : t.queueAt q = some y) :
    m ∉ y.backlog.stored := by
  refine (run_change (I := fun z => m < z.backlog.fresh ∧ m ∉ z.backlog.stored) h hrun (fun _ _ ha => ha) hx
    ⟨hold, hm⟩ ?_ hy).2
  rintro u op w z hu hw - hc ⟨hlt, hout⟩
  obtain ⟨l, hl⟩ := hu.stocked q w hw
  have hfate := hc.fate hl
  exact ⟨Nat.lt_of_lt_of_le hlt hfate.fresh, fun hmem => (hfate.new m hmem).elim hout (Nat.not_le.mpr hlt)⟩

/-- A check of the condition in a state that is reached. -/
def Careful.check (s : EagleServer) (op : Op) : Bool :=
  PurgesPlain.check s op && (!op.isTick || s.everyQueue fun x => x.backlog.queue.tailNext.isNone ||
    x.backlog.queue.waiting.head?.all fun m => !x.backlog.expired (s.env.mstime % 4294967296) m)

theorem careful_of_check (hs : Reachable s) (h : Careful.check s op = true) : Careful s op := by
  obtain ⟨hpurge, htick⟩ := Bool.and_eq_true_iff.mp h
  refine ⟨purgesPlain_of_check hs hpurge, fun he q x hx => ?_⟩
  subst he
  refine (Bool.or_eq_true_iff.mp (hs.everyQueue htick hx)).imp Option.isNone_iff_eq_none.mp
    fun hnext m hm => ?_
  rw [hm] at hnext
  exact Bool.not_eq_true' _ |>.mp hnext

end Runs

end Places

end EagleMQ
