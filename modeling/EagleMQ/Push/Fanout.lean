import EagleMQ.Push.Settled
import EagleMQ.References.Holding

/-! What a push to a route leaves of the queues. The pushes come one after the other
and share the payload, but each queue is settled from what it was before all of them,
and the queues that the push does not reach stay as they are. -/

namespace EagleMQ

open Prog Backlog

/-- The queue delivers or stores a message of a size. -/
def QueueT.accepts (x : QueueT) (size : ℕ) : Bool :=
  decide (size ≤ x.maxMsgSize) &&
    (!x.subscribedClientsMsg.isEmpty || decide (x.size < x.maxMsg) || x.forcePush)

/-- The queues of a list have been pushed to, and no others. -/
structure Reached (l : List Ptr) (data expiration size : ℕ) (s t : EagleServer) : Prop where
  others : ∀ p, p ∉ l → t.queueAt p = s.queueAt p
  settled : ∀ q ∈ l, ∀ x, s.queueAt q = some x → ∃ tag y,
    Settled x data tag expiration size (x.accepts size) y ∧ t.queueAt q = some y

section Fanout

variable {s t u : EagleServer} {x y : QueueT} {q r data tag expiration size o : ℕ}
    {ok status : Bool} {payload : List Byte}
  {l : List Ptr} {key : Name}

theorem Settled.accepts_eq (h : Settled x data tag expiration size ok y) : ok = x.accepts size := by
  cases h with
  | refused h =>
    rcases h with hsize | ⟨hnone, hlen, hforce⟩
    · simp [QueueT.accepts, Nat.not_le.mpr hsize]
    · simp [QueueT.accepts, hnone, hforce, Nat.not_lt.mpr hlen]
  | delivered hsize hne => simp [QueueT.accepts, hsize, hne]
  | stored hsize _ hlen => simp [QueueT.accepts, hsize, hlen]
  | forced hsize _ _ hforce => simp [QueueT.accepts, hsize, hforce]

/-! ### The shared payload -/

theorem Beside.carries (h : Beside s t) (ho : Carries o payload s) : Carries o payload t :=
  ⟨Nat.lt_of_lt_of_le ho.1 h.fresh, fun z hz => by
    obtain ⟨w, hw, hd⟩ := h.objects o ho.1 z hz
    exact hd.trans (ho.2 w hw)⟩

theorem increment_beside (o : Ptr) : Keeps Beside Fault.Any (incrementReferencesCount o) := fun s =>
  wp_increment_any fun z hz _ => ⟨rfl, Nat.le_refl _, fun p _ w hw => by
    by_cases hp : p = o
    · subst hp
      dsimp only at hw
      rw [Function.update_self] at hw
      exact ⟨z, hz, by rw [← Option.some.inj hw]⟩
    · dsimp only at hw
      exact ⟨w, by rwa [Function.update_of_ne hp] at hw, rfl⟩, fun _ x hx => ⟨x, hx, rfl, rfl⟩⟩

/-- A push finds a payload that is there, or stops. -/
theorem push_carries (hx : s.queueAt q = some x) (hinv : x.Invariant)
    (hdata : Carries data payload s) (expiration : ℕ) :
    wp (pushMessageQueueT q data expiration) (fun ok t => Beside s t ∧
      ∃ y, Settled x data (makeMessageTag s.msgCounter s.nowTimems) expiration payload.length ok y ∧
        t.queueAt = Function.update s.queueAt q (some y)) Fault.Any s := by
  cases hz : s.objects data with
  | some z =>
    have hsize : z.size = payload.length := congrArg List.length (hdata.2 z hz)
    exact hsize ▸ push_settles hx hinv hdata.1 hz expiration
  | none =>
    rw [pushMessageQueueT, wp_bind, wp_get, wp_bind, wp_modify, wp_bind]
    have hcreated : wp (withStock q
      (Stock.createMessage data (makeMessageTag s.msgCounter s.nowTimems) expiration))
        (fun _ v => v.objects data = none) Fault.Any { s with msgCounter := s.msgCounter + 1 } :=
      wp_withStock (m := Stock.createMessage data _ expiration) hx hz
    refine wp_mono hcreated (fun m v hv => ?_) fun _ h => h
    rw [wp_bind, objectSize, wp_bind, wp_get, wp_bind]
    simp only [Objects.find, hv, wp_lift_error]
    exact trivial

/-! ### Several queues -/

theorem Reached.nil (h : t.queueAt = s.queueAt) : Reached [] data expiration size s t :=
  ⟨fun _ _ => by rw [h], fun _ h => nomatch h⟩

/-- One more queue in front. -/
theorem Reached.cons (hq : q ∉ l) (hx : s.queueAt q = some x) (hy : Settled x data tag expiration size ok y)
    (ht : t.queueAt = Function.update s.queueAt q (some y)) (h : Reached l data expiration size t u) :
    Reached (q :: l) data expiration size s u where
  others p hp := by
    rw [List.mem_cons, not_or] at hp
    rw [h.others p hp.2, ht, Function.update_of_ne hp.1]
  settled p hp w hw := by
    rcases List.mem_cons.mp hp with rfl | hp
    · obtain rfl := Option.some.inj (hx.symm.trans hw)
      exact ⟨tag, y, hy.accepts_eq ▸ hy, by rw [h.others p hq, ht, Function.update_self]⟩
    · have hne : p ≠ q := fun he => hq (he ▸ hp)
      exact h.settled p hp w (by rwa [ht, Function.update_of_ne hne])

/-- Pushes to the queues of a list, each of which comes once. -/
theorem pushes_settle : ∀ {l : List Ptr} {s : EagleServer} (status : Bool), l.Nodup →
    (∀ q ∈ l, ∃ x, s.queueAt q = some x ∧ x.Invariant) → Carries data payload s →
    wp (l.foldlM (fun status q => do
      let ok ← pushMessageQueueT q data expiration
      incrementReferencesCount data
      pure (status && ok)) status) (fun ok t => Beside s t ∧ Reached l data expiration payload.length s t ∧
        ok = (status && l.all fun q => (s.queueAt q).any (·.accepts payload.length))) Fault.Any s
  | [], s, status, _, _, _ => ⟨Std.Refl.refl s, .nil rfl, by simp⟩
  | q :: l, s, status, hn, hall, hdata => by
    obtain ⟨hq, hn⟩ := List.nodup_cons.mp hn
    obtain ⟨x, hx, hinv⟩ := hall q (List.mem_cons_self ..)
    rw [List.foldlM_cons, wp_bind, wp_bind]
    refine wp_mono (push_carries hx hinv hdata expiration) (fun ok t ⟨ht, y, hy, htq⟩ => ?_) fun _ h => h
    rw [wp_bind]
    refine wp_mono (wp_and (F := Fault.Any) (increment_beside data t)
      (wp_increment_any (Q := fun _ v => v.queueAt = t.queueAt) fun _ _ _ => rfl))
      (fun _ v ⟨hv, hvq⟩ => ?_) fun _ h => h
    have hsv : Beside s v := IsTrans.trans _ _ _ ht hv
    have hrest : ∀ p ∈ l, v.queueAt p = s.queueAt p := fun p hp => by
      have hne : p ≠ q := fun he => hq (he ▸ hp)
      rw [hvq, htq, Function.update_of_ne hne]
    rw [wp_pure]
    refine wp_mono (pushes_settle (status && ok) hn (fun p hp => ?_) (hsv.carries hdata))
      (fun ok' w ⟨hw, hreached, hok⟩ => ?_)
      fun _ h => h
    · obtain ⟨z, hz, hzinv⟩ := hall p (List.mem_cons_of_mem _ hp)
      exact ⟨z, (hrest p hp).trans hz, hzinv⟩
    · refine ⟨IsTrans.trans _ _ _ hsv hw, hreached.cons hq hx hy (hvq.trans htq), ?_⟩
      have hsame : (l.all fun p => (v.queueAt p).any (·.accepts payload.length)) =
          l.all fun p => (s.queueAt p).any (·.accepts payload.length) := by
        rw [Bool.eq_iff_iff, List.all_eq_true, List.all_eq_true]
        exact forall₂_congr fun p hp => by rw [hrest p hp]
      rw [hok, hsame, List.all_cons, hx, Option.any_some, ← hy.accepts_eq, Bool.and_assoc]

/-- A push to a route: in rounds it reaches the queue that has come to the front, else all. -/
theorem pushMessageRouteT_reaches {x : RouteT} (hx : s.routeAt r = some x) (hn : (x.keys.values key).Nodup)
    (hall : ∀ q ∈ x.keys.values key, ∃ y, s.queueAt q = some y ∧ y.Invariant) (hdata : Carries data payload s)
    (expiration : ℕ) : wp (pushMessageRouteT r key data expiration) (fun ok t =>
      if key ∈ x.keys.keys then Reached (x.receivers key) data expiration payload.length s t ∧
        ok = (x.receivers key).all (fun q => (s.queueAt q).any (·.accepts payload.length)) ∧
        (x.roundRobin = false → Beside s t)
      else t = s ∧ ok = false) Fault.Any s := by
  rw [pushMessageRouteT, wp_bind, wp_getRoute hx]
  refine wp_ite (fun hk => ?_) fun hk => ?_
  · simp only [if_pos hk]
    refine wp_ite (fun hround => ?_) fun hround => ?_
    · rw [wp_bind]
      refine wp_modifyRoute ⟨x, hx, ?_⟩
      rw [wp_bind, wp_getRoute (Function.update_self ..)]
      have hvalues : (x.keys.set key (listRotate (x.keys.values key))).values key =
          listRotate (x.keys.values key) :=
        (Keylist.values_set ..).trans (if_pos rfl)
      have hreceivers : x.receivers key = (listRotate (x.keys.values key)).head?.toList := if_pos hround
      dsimp only
      rw [hvalues]
      cases hhead : (listRotate (x.keys.values key)).head? with
      | none => exact trivial
      | some q =>
        rw [hhead] at hreceivers
        obtain ⟨y, hy, hinv⟩ := hall q ((listRotate_perm _).subset (List.mem_of_mem_head? hhead))
        rw [wp_bind]
        refine wp_mono (push_carries (s := s.setRoute r _) hy hinv hdata expiration)
          (fun ok t ht => ?_) fun _ h => h
        obtain ⟨-, w, hw, htq⟩ := ht
        rw [wp_bind]
        refine wp_increment_any fun z _ _ => ?_
        rw [hreceivers, Option.toList_some]
        refine ⟨.cons (by simp) hy hw htq (.nil rfl), ?_, fun hno => absurd hround (by simp [hno])⟩
        simp [hy, ← hw.accepts_eq]
    · have hreceivers : x.receivers key = x.keys.values key := if_neg hround
      rw [hreceivers]
      refine wp_mono (pushes_settle true hn hall hdata) (fun ok t ht => ⟨ht.2.1, ?_, fun _ => ht.1⟩)
        fun _ h => h
      rw [ht.2.2, Bool.true_and]
  · simp only [if_neg hk]
    exact ⟨rfl, rfl⟩

end Fanout

end EagleMQ
