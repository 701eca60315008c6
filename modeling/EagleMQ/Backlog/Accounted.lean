import EagleMQ.Backlog.Places
import EagleMQ.Push.Fanout
import EagleMQ.References.Recedes

/-! The messages that a queue keeps. Every operation on them releases the message that
it takes out of the last of its places, but for two: a push that the queue does not
take leaves its message in no place, and so does a tick that finds a message both
overdue and expired. -/

namespace EagleMQ

open Prog Backlog

/-- Every message that is there waits or is held. -/
def Backlog.Accounted (b : Backlog) : Prop := ∃ l, Sound False b l ∧ ∀ m, b.messages m ≠ none → m ∈ b.places l

/-- The messages stay accounted for. -/
def Stock.Accounting (t u : Stock) : Prop := t.backlog.Accounted → u.backlog.Accounted

section Accounted

variable {P : Prop} {b b' : Backlog} {o : Heap Object} {l : List (Ptr × Ptr)} {m : Ptr} {time : ℕ}
    {x y : QueueT}
  {data tag expiration size : ℕ}

theorem accounted_create : Backlog.create.Accounted := ⟨[], sound_create, fun _ hm => absurd rfl hm⟩

theorem Backlog.Accounted.stored (h : b.Accounted) (hm : b.messages m ≠ none) : m ∈ b.stored := by
  obtain ⟨l, hs, hall⟩ := h
  exact hs.mem_stored.mpr (hall m hm)

theorem Backlog.Accounted.of_stored (hs : Sound P b l)
    (h : ∀ m, b.messages m ≠ none → m ∈ b.stored) : b.Accounted := by
  refine ⟨l, ⟨⟨hs.nodup, hs.alive, hs.below, hs.nodes, hs.fresh, hs.indexed, hs.entries,
    False.elim⟩, hs.linked⟩, ?_⟩
  exact fun m hm => hs.mem_stored.mp (h m hm)

/-- A queue that holds no message for a confirmation releases all of them when it goes. -/
theorem Backlog.Accounted.allWait (h : b.Accounted) (hheld : b.confirmMessages = []) : b.AllWait := by
  obtain ⟨l, hs, hall⟩ := h
  refine ⟨l, hs, fun m hm => ?_⟩
  have := hall m hm
  rwa [places, hheld, List.append_nil] at this

/-- An operation that does well from a backlog whose messages are accounted for. -/
theorem Stock.accounting_of {α : Type} {m : StockM α}
    (h : ∀ b o l, Sound False b l → (∀ m, b.messages m ≠ none → m ∈ b.places l) →
      wp m (fun _ t => t.backlog.Accounted) Fault.Any ⟨b, o⟩) :
        Keeps Stock.Accounting Fault.Any m := fun ⟨b, o⟩ => by
  by_cases hb : b.Accounted
  · obtain ⟨l, hs, hall⟩ := hb
    exact wp_mono (h b o l hs hall) (fun _ _ ht _ => ht) fun _ h => h
  · unfold wp
    split
    · exact fun ht => absurd ht hb
    · trivial

/-! ### Operations of the commands -/

theorem Stock.popMessageQueueT_accounting (now timeout : ℕ) :
    Keeps Stock.Accounting Fault.Any (Stock.popMessageQueueT now timeout) :=
      Stock.accounting_of fun b o l hs hall => by
  obtain rfl | ⟨l, ⟨n, w⟩, rfl⟩ := l.eq_nil_or_concat'
  · exact wp_mono (Stock.popMessageQueueT_nil hs) (fun _ _ h => h.elim) fun _ _ => trivial
  by_cases ht : timeout = 0
  · subst ht
    refine wp_mono (Stock.popMessageQueueT_drops (E := Fault.Any) trivial hs) (fun _ t ht => ?_) fun _ h => h
    obtain ⟨hs', hdrops, -⟩ := ht
    refine ⟨l, hs', fun m hm => ?_⟩
    rw [hdrops.messages] at hm
    have hne : m ≠ w := fun he => hm (he ▸ Function.update_self ..)
    rw [Function.update_of_ne hne] at hm
    have := hall m hm
    simp only [places, List.map_append, List.map_cons, List.map_nil, List.mem_append,
      List.mem_singleton] at this ⊢
    rw [hdrops.held]
    tauto
  · refine wp_mono (Stock.popMessageQueueT_holds (E := Fault.Any) ht hs) (fun _ t ht' => ?_) fun _ h => h
    obtain ⟨-, hs', hcore, hheld, -⟩ := ht'
    refine ⟨l, hs', fun m hm => ?_⟩
    have hm' : b.messages m ≠ none := fun hnone => hm <| by
      have := congrFun hcore m
      simpa [Backlog.core, hnone] using this
    have := hall m hm'
    simp only [places, List.map_append, List.map_cons, List.map_nil, List.mem_append,
      List.mem_singleton] at this ⊢
    rw [hheld]
    simp only [List.mem_append, List.mem_singleton]
    tauto

theorem Stock.confirmMessageQueueT_accounting (tag : ℕ) :
    Keeps Stock.Accounting Fault.Any (Stock.confirmMessageQueueT tag) :=
      Stock.accounting_of fun b o l hs hall => by
  refine wp_mono (Stock.confirmMessageQueueT_spec (E := Fault.Any) trivial hs) (fun ok t ht => ?_)
    fun _ h => h
  rcases ht with ⟨-, w, msg, hw, hmsg, -, hs', hmessages, hheld, -, -⟩ | ⟨-, rfl, -⟩
  · refine ⟨l, hs', fun m hm => ?_⟩
    rw [hmessages] at hm
    have hne : m ≠ w := fun he => hm (he ▸ Function.update_self ..)
    rw [Function.update_of_ne hne] at hm
    rw [mem_places, hheld]
    exact (mem_places.mp (hall m hm)).imp_right (List.mem_erase_of_ne hne).mpr
  · exact ⟨l, hs, hall⟩

theorem Stock.purgeQueueT_accounting : Keeps Stock.Accounting Fault.Any Stock.purgeQueueT :=
  Stock.accounting_of fun b o l hs hall => by
    have hempty : wp Stock.purgeQueueT (fun _ t => Sound False t.backlog [] ∧
        t.backlog.messages = Stock.without b.messages (l.map Prod.snd) ∧
        t.backlog.confirmMessages = b.confirmMessages ∧ t.backlog.fresh = b.fresh) Fault.Any ⟨b, o⟩ :=
      Stock.purgeQueueT_spec trivial hs False.elim
    refine wp_mono hempty
      (fun _ t ⟨hs', hmessages, hheld, _⟩ => ⟨[], hs', fun m hm => ?_⟩) fun _ h => h
    rw [hmessages, Stock.without] at hm
    by_cases hw : m ∈ l.map Prod.snd
    · exact absurd (if_pos hw) hm
    · rw [if_neg hw] at hm
      rw [mem_places, hheld]
      exact .inr ((mem_places.mp (hall m hm)).resolve_left hw)

/-! ### Ticks -/

/-- A tick accounts for all messages unless one is overdue and has expired. -/
theorem Backlog.Accounted.ticked (h : b.Accounted) (hrun : Stock.Runs (Stock.tick time) () b b')
    (hclear : ∀ m ∈ b.confirmMessages, b.overdue time m = true → b.expired time m = false) :
    b'.Accounted := by
  obtain ⟨l, hs, hall⟩ := h
  obtain ⟨hwait, hback, hkept, -⟩ := hrun.ticked hs
  obtain ⟨o, o', htick⟩ := hrun.spec fun o =>
    Stock.tick_spec (E := Fault.Any) trivial (fun _ => trivial) (.inr trivial) hs
  obtain ⟨added, hs', -⟩ := htick.sound
  refine .of_stored hs' fun m hm => ?_
  have hcore := htick.core m
  have hsome : b'.core m ≠ none := by simpa [Backlog.core] using hm
  rw [hcore] at hsome
  by_cases hgone : m ∈ (l.map Prod.snd).filter (b.expired time)
  · exact absurd (if_pos hgone) hsome
  rw [if_neg hgone] at hsome
  have hm' : b.messages m ≠ none := by simpa [Backlog.core] using hsome
  rw [Backlog.stored, List.mem_append]
  rcases mem_places.mp (hall m hm') with hw | hc
  · have hlive : b.expired time m = false := by
      rw [List.mem_filter, not_and, Bool.not_eq_true] at hgone
      exact hgone hw
    exact .inl ((hwait m).mpr (.inl ⟨hs.mem_waiting.mpr hw, hlive⟩))
  · cases hover : b.overdue time m with
    | false => exact .inr ((hkept m).mpr ⟨hc, hover⟩)
    | true => exact .inl ((hwait m).mpr (.inr ((hback m).mpr ⟨hc, hover, hclear m hc hover⟩)))

/-! ### Pushes -/

/-- A message in no place is put in front of the queue. -/
theorem Backlog.Sound.put {msg : Message} {queue : Queue} (hs : Sound P b l) (hmsg : b.messages m = some msg)
    (hm : m ∉ b.places l) (hpush : b.queue.pushValueHead m = .ok queue) :
    Sound P (b.put m msg queue) ((b.queue.fresh, m) :: l) ∧ Stays b (b.put m msg queue) := by
  obtain ⟨q', hq', hlink, -⟩ := Queue.pushValueHead_spec hs.linked m
  obtain rfl := Except.ok.inj (hpush.symm.trans hq')
  obtain ⟨hplain, hindex⟩ := Stock.indexStored_spec hs hmsg hm hlink (.refl _)
  unfold Backlog.put
  split_ifs with he
  · exact hplain he
  · exact hindex he

/-- The message at the end of the queue is taken out and released. -/
theorem Backlog.Sound.evict {n : Ptr} {queue : Queue} (hs : Sound P b (l ++ [(n, m)]))
    (hpop : b.queue.popValue = .ok (some m, queue)) : Sound P (b.evict m queue) l := by
  obtain ⟨q', hq', hlink⟩ := Queue.popValue_spec hs.linked
  obtain rfl := (Prod.mk.inj (Except.ok.inj (hpop.symm.trans hq'))).2
  obtain ⟨hleave, hm⟩ := hs.leave (List.perm_append_singleton _ _)
  exact ⟨(hleave.release hm).of_queue queue, hlink⟩

/-- A push that is taken puts its message into the queue or releases it. -/
theorem Settled.accounted (h : Settled x data tag expiration size true y) (hb : x.backlog.Accounted) :
    y.backlog.Accounted := by
  obtain ⟨l, hs, hall⟩ := hb
  have hcreated : Sound False (x.withMessage data tag expiration) l :=
    withMessage_sound data tag expiration hs
  have hnew : (x.withMessage data tag expiration).messages x.backlog.fresh =
      some ⟨data, tag, 0, expiration, none, none⟩ :=
    Function.update_self ..
  have hout : x.backlog.fresh ∉ x.backlog.places l := fun hm => Nat.lt_irrefl _ (hs.below _ (hs.alive _ hm))
  have hold : ∀ m, (x.withMessage data tag expiration).messages m ≠ none → m = x.backlog.fresh ∨
      m ∈ x.backlog.places l :=
    fun m hm => by
      by_cases hp : m = x.backlog.fresh
      · exact .inl hp
      · rw [QueueT.withMessage] at hm
        dsimp only at hm
        exact .inr (hall m (by rwa [Function.update_of_ne hp] at hm))
  have halive : ∀ {b b' : Backlog}, b'.core = b.core → ∀ m, b'.messages m ≠ none → b.messages m ≠ none :=
    fun hcore m hm hnone => hm <| by
      have := congrFun hcore m
      simpa [Backlog.core, hnone] using this
  cases h with
  | delivered =>
    refine ⟨l, ⟨⟨hs.nodup, hs.alive, fun m hm => Nat.lt_succ_of_lt (hs.below m hm), hs.nodes,
      fun z hz => (hs.fresh z hz).imp Nat.lt_succ_of_lt Nat.lt_succ_of_lt, hs.indexed, hs.entries,
      hs.live⟩, hs.linked⟩, hall⟩
  | stored _ _ _ hpush =>
    obtain ⟨hs', hstays⟩ := hcreated.put hnew hout hpush
    refine ⟨_, hs', fun m hm => ?_⟩
    rw [mem_places, hstays.held, List.map_cons, List.mem_cons]
    rcases hold m (halive hstays.core m hm) with hp | hp
    · exact .inl (.inl hp)
    · exact (mem_places.mp hp).imp_left .inr
  | @forced w queue queue' _ _ _ _ hpop hpush =>
    obtain rfl | ⟨l, ⟨n, v⟩, rfl⟩ := l.eq_nil_or_concat'
    · rw [Queue.popValue_nil hs.linked] at hpop
      cases hpop
    obtain ⟨q₁, hq₁, -⟩ := Queue.popValue_spec hs.linked
    obtain rfl := Option.some.inj (Prod.mk.inj (Except.ok.inj (hq₁.symm.trans hpop))).1
    have hv : v ∈ x.backlog.places (l ++ [(n, v)]) := mem_places.mpr (.inl (by simp))
    have hne : x.backlog.fresh ≠ v := fun he => hout (he ▸ hv)
    have hevicted := hcreated.evict hpop
    have hout' : x.backlog.fresh ∉ ((x.withMessage data tag expiration).evict v queue).places l := fun hm =>
      hout <| mem_places.mpr <| (mem_places.mp hm).imp_left fun hm => by
        rw [List.map_append]
        exact List.mem_append_left _ hm
    obtain ⟨hs', hstays⟩ := hevicted.put ((Function.update_of_ne hne ..).trans hnew) hout' hpush
    refine ⟨_, hs', fun m hm => ?_⟩
    have hm' := halive hstays.core m hm
    have hmv : m ≠ v := fun he => hm' (he ▸ Function.update_self ..)
    rw [Backlog.evict] at hm'
    dsimp only at hm'
    rw [Function.update_of_ne hmv] at hm'
    rw [mem_places, hstays.held, List.map_cons, List.mem_cons]
    rcases hold m hm' with hp | hp
    · exact .inl (.inl hp)
    · rcases mem_places.mp hp with hp | hp
      · simp only [List.map_append, List.map_cons, List.map_nil, List.mem_append,
          List.mem_singleton, hmv, or_false] at hp
        exact .inl (.inr hp)
      · exact .inr hp

end Accounted

end EagleMQ
