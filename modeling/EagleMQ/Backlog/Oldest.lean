import EagleMQ.Backlog.Bound

/-! The order of the messages that wait in a queue. The address of a message is its
number in the order of the pushes. A push comes in at the head and a pop takes the
tail, where a tick puts back the messages that were not confirmed, the last one of
them as the oldest. -/

namespace EagleMQ

open Prog Backlog

/-- The messages that a tick puts back are older than those that stay, and the
later ones in the list of the unconfirmed messages are the older ones. -/
def InOrder (s : EagleServer) (op : Op) : Prop :=
  op = .tick → ∀ q x, s.queueAt q = some x →
    (x.backlog.returned (s.env.mstime % 4294967296)).Pairwise (fun m m' => m' < m) ∧
    ∀ m ∈ x.backlog.returned (s.env.mstime % 4294967296), ∀ w ∈ x.backlog.queue.waiting,
      x.backlog.expired (s.env.mstime % 4294967296) w = false → m < w

/-- The message was pushed before all others that wait. -/
def Backlog.Oldest (b : Backlog) (m : Ptr) : Prop := m ∈ b.queue.waiting ∧ ∀ w ∈ b.queue.waiting, m ≤ w

/-- `queue_get` and `queue_pop` take the oldest message of a queue. -/
structure OldestFirst (s : EagleServer) : Prop where
  get : ∀ q x, s.queueAt q = some x →
    ∀ o, ∃ m, Stock.getMessageQueueT ⟨x.backlog, o⟩ = .ok (m, ⟨x.backlog, o⟩) ∧
    (m = none → x.backlog.queue.waiting = []) ∧ ∀ v, m = some v → x.backlog.Oldest v
  pop : ∀ q x, s.queueAt q = some x →
    ∀ now timeout o t, Stock.popMessageQueueT now timeout ⟨x.backlog, o⟩ = .ok ((), t) →
    ∃ m, x.backlog.Oldest m ∧ x.backlog.queue.waiting = m :: t.backlog.queue.waiting ∧
      t.backlog.confirmMessages = x.backlog.confirmMessages ++ if timeout = 0 then [] else [m]

/-- A message that is new in a queue has a higher number than those it had. -/
def Numbered (s t : EagleServer) : Prop :=
  ∀ q x y, s.queueAt q = some x → t.queueAt q = some y → ∀ m ∈ y.backlog.queue.waiting,
    m ∈ x.backlog.queue.waiting ++ x.backlog.confirmMessages ∨
      ∀ w ∈ x.backlog.queue.waiting ++ x.backlog.confirmMessages, w < m

section Oldest

variable {P : Prop} {s t : EagleServer} {q : Ptr} {x y : QueueT} {first : Ptr} {l l' : List (Ptr × Ptr)}
  {b : Backlog}

/-- The messages from the head to the tail, each newer than those behind it. -/
def Sorted (l : List (Ptr × Ptr)) : Prop := l.Pairwise fun z z' => z'.2 < z.2

theorem Backlog.Sound.sorted_iff (h : Sound P b l) : b.queue.waiting.Pairwise (· < ·) ↔ Sorted l := by
  rw [h.waiting_eq, List.pairwise_reverse, List.pairwise_map]
  rfl

theorem Growths.sorted (h : Growths x first l l') (hl : Sorted l) : Sorted l' := by
  induction h with
  | refl => exact hl
  | step _ _ hbelow hg ih =>
    have hcons : ∀ {n m : Ptr} {r : List (Ptr × Ptr)} {f : Ptr}, Sorted r → (∀ z ∈ r, z.2 < f) → f ≤ m →
        Sorted ((n, m) :: r) := fun hr hbelow hm =>
      List.pairwise_cons.mpr ⟨fun z hz => Nat.lt_of_lt_of_le (hbelow z hz) hm, hr⟩
    cases hg with
    | same => exact ih
    | stored hm _ => exact hcons ih hbelow hm
    | forced hm heq =>
      subst heq
      exact hcons (List.pairwise_append.mp ih).1 (fun z hz => hbelow z (List.mem_append_left _ hz)) hm

theorem Backlog.Sound.held_below (h : Sound P b l) :
    ∀ m ∈ b.queue.waiting ++ b.confirmMessages, m < b.fresh :=
  fun m hm => h.below m (h.alive m (mem_places.mpr (by
    rwa [h.waiting_eq, List.mem_append, List.mem_reverse] at hm)))

theorem Growths.newer (h : Growths x first l l') : ∀ z ∈ l', z ∈ l ∨ first ≤ z.2 := by
  induction h with
  | refl => exact fun z hz => .inl hz
  | step _ hfirst _ hg ih =>
    intro z hz
    cases hg with
    | same => exact ih z hz
    | stored hm _ =>
      rcases List.mem_cons.mp hz with rfl | hz
      · exact .inr (Nat.le_trans hfirst hm)
      · exact ih z hz
    | forced hm heq =>
      rcases List.mem_cons.mp hz with rfl | hz
      · exact .inr (Nat.le_trans hfirst hm)
      · exact ih z (heq ▸ List.mem_append_left _ hz)

variable [Lzf]

theorem step_numbered {op : Op} (hs : Reachable s) (ha : Enabled s op) (ht : step s op = .ok t) :
    Numbered s t := by
  intro q x y hx hy m hm
  rcases step_traffic hs.related ha ht q y hy with ⟨x', hx', hc⟩ | ⟨hnone, -⟩
  · obtain rfl := Option.some.inj (hx.symm.trans hx')
    obtain ⟨l, hl⟩ := hs.stocked q x hx
    have hwaiting : ∀ {z : Ptr × Ptr}, z ∈ l → z.2 ∈ x.backlog.queue.waiting := fun hz => by
      rw [hl.waiting_eq, List.mem_reverse]
      exact List.mem_map.mpr ⟨_, hz, rfl⟩
    obtain ⟨l', hl', hshift⟩ := hc.sound hl
    rw [hl'.waiting_eq, List.mem_reverse] at hm
    obtain ⟨z, hz, rfl⟩ := List.mem_map.mp hm
    cases hshift with
    | grown _ hg =>
      rcases hg.newer z hz with hz | hnew
      · exact .inl (List.mem_append_left _ (hwaiting hz))
      · exact .inr fun w hw => Nat.lt_of_lt_of_le (hl.held_below w hw) hnew
    | gone _ hsub => exact .inl (List.mem_append_left _ (hwaiting (hsub.subset hz)))
    | renamed => exact .inl (List.mem_append_left _ (hwaiting hz))
    | ticked _ _ hadded =>
      rcases List.mem_append.mp hz with hz | hz
      · exact .inl (List.mem_append_left _ (hwaiting (List.mem_of_mem_filter hz)))
      · have hmem : z.2 ∈ x.backlog.returned (s.env.mstime % 4294967296) :=
          hadded ▸ List.mem_map.mpr ⟨z, hz, rfl⟩
        exact .inl (List.mem_append_right _ (List.mem_of_mem_filter hmem))
  · exact nomatch hnone.symm.trans hx

theorem step_sorted {op : Op} (hs : Reachable s) (ha : Enabled s op) (hop : InOrder s op)
    (ht : step s op = .ok t)
    (hsorted : ∀ q x, s.queueAt q = some x → x.backlog.queue.waiting.Pairwise (· < ·))
    (hy : t.queueAt q = some y) : y.backlog.queue.waiting.Pairwise (· < ·) := by
  rcases step_traffic hs.related ha ht q y hy with ⟨x, hx, hc⟩ | ⟨-, hnew, -⟩
  · obtain ⟨l, hl⟩ := hs.stocked q x hx
    obtain ⟨l', hl', hshift⟩ := hc.sound hl
    have hb := hl.sorted_iff.mp (hsorted q x hx)
    refine hl'.sorted_iff.mpr ?_
    cases hshift with
    | grown _ hg => exact hg.sorted hb
    | gone _ hsub => exact hb.sublist hsub
    | renamed => exact hb
    | @ticked added htick _ hadded =>
      obtain ⟨hback, hstay⟩ := hop htick q x hx
      rw [← hadded] at hback hstay
      refine List.pairwise_append.mpr
        ⟨hb.sublist List.filter_sublist, List.pairwise_map.mp hback, fun z hz z' hz' => ?_⟩
      obtain ⟨hz, hlive⟩ := List.mem_filter.mp hz
      refine hstay z'.2 (List.mem_map.mpr ⟨z', hz', rfl⟩) z.2 ?_ (by simpa using hlive)
      rw [hl.waiting_eq, List.mem_reverse]
      exact List.mem_map.mpr ⟨z, hz, rfl⟩
  · simp [hnew, Backlog.create, Queue.waiting, Queue.chase, Queue.create]

theorem Guarded.sorted (h : Guarded InOrder (fun _ _ => True) s) :
    ∀ q x, s.queueAt q = some x → x.backlog.queue.waiting.Pairwise (· < ·) := by
  induction h with
  | start cfg env => exact fun q x hx => nomatch hx
  | step op hs ha hop ht ih => exact fun q y hy => step_sorted hs.reachable ha hop ht ih hy
  | restart cfg env _ _ _ ht _ =>
    intro q x hx
    obtain ⟨l, hl, hg, -⟩ := (storageLoad_filled ht hx).sound (P := False) sound_create
    exact hl.sorted_iff.mpr (hg.sorted List.Pairwise.nil)

omit [Lzf] in
theorem getMessageQueueT_eq (b : Backlog) (o : Heap Object) :
    Stock.getMessageQueueT ⟨b, o⟩ = b.queue.getValue.map fun m => (m, ⟨b, o⟩) := rfl

omit [Lzf] in
/-- The messages of a queue in their order, of which a pop takes the first. -/
theorem oldestFirst_of_sorted (h : Stocked s)
    (hsorted : ∀ q x, s.queueAt q = some x → x.backlog.queue.waiting.Pairwise (· < ·)) : OldestFirst s := by
  have hhead : ∀ {q x l n m}, s.queueAt q = some x → Sound False x.backlog (l ++ [(n, m)]) →
      x.backlog.queue.waiting = m :: (l.map Prod.snd).reverse ∧ x.backlog.Oldest m :=
      fun {q x l n m} hx hl => by
    have hw : x.backlog.queue.waiting = m :: (l.map Prod.snd).reverse := by simp [hl.waiting_eq]
    refine ⟨hw, by simp [hw], fun w hmem => ?_⟩
    have hle := hsorted q x hx
    rw [hw] at hmem hle
    rcases List.mem_cons.mp hmem with rfl | hmem
    · exact Nat.le_refl _
    · exact Nat.le_of_lt ((List.pairwise_cons.mp hle).1 w hmem)
  refine ⟨fun q x hx o => ?_, fun q x hx now timeout o t hpop => ?_⟩
  · obtain ⟨l, hl⟩ := h q x hx
    obtain rfl | ⟨l, ⟨n, m⟩, rfl⟩ := l.eq_nil_or_concat'
    · refine ⟨none, ?_, fun _ => by simp [hl.waiting_eq], fun v hv => nomatch hv⟩
      rw [getMessageQueueT_eq, Queue.getValue_nil hl.linked]
      rfl
    · refine ⟨some m, ?_, by simp, fun v hv => ?_⟩
      · rw [getMessageQueueT_eq, Queue.getValue_spec hl.linked]
        rfl
      · obtain rfl := Option.some.inj hv
        exact (hhead hx hl).2
  · obtain ⟨l, hl⟩ := h q x hx
    obtain rfl | ⟨l, ⟨n, m⟩, rfl⟩ := l.eq_nil_or_concat'
    · exact (ok_of_wp (Stock.popMessageQueueT_nil hl) hpop).elim
    · obtain ⟨hw, hold⟩ := hhead hx hl
      refine ⟨m, hold, ?_⟩
      by_cases hzero : timeout = 0
      · subst hzero
        obtain ⟨hs, hdrops, -⟩ := ok_of_wp (Stock.popMessageQueueT_drops (E := Fault.Any) trivial hl) hpop
        exact ⟨by rw [hw, hs.waiting_eq], by simp [hdrops.held]⟩
      · obtain ⟨-, hs, -, hheld, -⟩ := ok_of_wp (Stock.popMessageQueueT_holds (E := Fault.Any) hzero hl) hpop
        exact ⟨by rw [hw, hs.waiting_eq], by rw [hheld, if_neg hzero]⟩

/-- A check of the condition in a state that is reached. -/
def InOrder.check (s : EagleServer) (op : Op) : Bool :=
  !op.isTick || s.everyQueue fun x =>
    decide ((x.backlog.returned (s.env.mstime % 4294967296)).Pairwise fun m m' => m' < m) &&
    (x.backlog.returned (s.env.mstime % 4294967296)).all fun m => x.backlog.queue.waiting.all fun w =>
      x.backlog.expired (s.env.mstime % 4294967296) w || decide (m < w)

theorem inOrder_of_check {op : Op} (hs : Reachable s) (h : InOrder.check s op = true) :
    InOrder s op := fun he q x hx => by
  subst he
  obtain ⟨hback, hold⟩ := Bool.and_eq_true_iff.mp (hs.everyQueue h hx)
  refine ⟨of_decide_eq_true hback, fun m hm w hw hlive => ?_⟩
  have hlt := List.all_eq_true.mp (List.all_eq_true.mp hold m hm) w hw
  rw [hlive, Bool.false_or] at hlt
  exact of_decide_eq_true hlt

end Oldest

end EagleMQ
