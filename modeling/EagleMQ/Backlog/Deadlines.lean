import EagleMQ.Backlog.Places
import EagleMQ.Backlog.Dates

/-! The times at which a tick removes a message that waits, and takes back one that
is held. They are kept in 32 bits, and a tick compares them with the low half of
its clock. -/

namespace EagleMQ

open Prog Backlog

/-! ### Messages over time -/

/-- The messages that were there before keep their expirations, and those of `P` their times
to confirm. -/
structure Backlog.Aged (P : Ptr → Prop) (b b' : Backlog) : Prop where
  fresh : b.fresh ≤ b'.fresh
  marks : ∀ m < b.fresh, ∀ y, b'.messages m = some y → ∃ x, b.messages m = some x ∧
    y.expiration = x.expiration ∧
    (P m → y.confirm = x.confirm)

instance (P : Ptr → Prop) : IsPreorder Backlog (Aged P) where
  refl _ := ⟨Nat.le_refl _, fun _ _ y hy => ⟨y, hy, rfl, fun _ => rfl⟩⟩
  trans _ _ _ h h' := by
    refine ⟨Nat.le_trans h.fresh h'.fresh, fun m hm z hz => ?_⟩
    obtain ⟨y, hy, hexp, hconfirm⟩ := h'.marks m (Nat.lt_of_lt_of_le hm h.fresh) z hz
    obtain ⟨x, hx, hexp', hconfirm'⟩ := h.marks m hm y hy
    exact ⟨x, hx, hexp.trans hexp', fun hP => (hconfirm hP).trans (hconfirm' hP)⟩

section Aged

variable {P : Ptr → Prop} {Q : Prop} {s : EagleServer} {op : Op} {q m n : Ptr} {x y : QueueT} {b b' : Backlog}
  {l : List (Ptr × Ptr)}

theorem Backlog.Fades.aged (h : Fades Q b b') (hP : ∀ m, P m → Q) : Aged P b b' := by
  refine ⟨h.fresh, fun m _ y hy => ?_⟩
  obtain ⟨x, hx, -, hexp, hconfirm⟩ := h.marks m y hy
  exact ⟨x, hx, hexp, fun hm => hconfirm (hP m hm)⟩

theorem Stock.Runs.aged {α : Type} {m : StockM α} {a : α} (h : Stock.Runs m a b b')
    (hm : Keeps (Stock.Fades True) Fault.Any m) : Aged P b b' := by
  obtain ⟨o, o', hfades⟩ := h.spec fun o => hm ⟨b, o⟩
  exact Backlog.Fades.aged (Q := True) hfades fun _ _ => trivial

theorem Stock.Runs.create_aged {value tag expiration m : ℕ}
    (h : Stock.Runs (Stock.createMessage value tag expiration) m b b') : Aged P b b' := by
  obtain ⟨rfl, rfl⟩ := h.create
  refine ⟨Nat.le_succ _, fun m hm y hy => ⟨y, ?_, rfl, fun _ => rfl⟩⟩
  dsimp only at hy
  rwa [Function.update_of_ne (Nat.ne_of_lt hm)] at hy

theorem Pushed.aged (h : Pushed x b b') : Aged P b b' := by
  cases h with
  | refused hc => exact hc.create_aged
  | delivered hc hr =>
    exact IsTrans.trans _ _ _ hc.create_aged (hr.aged ((Stock.fades_local _).releaseMessage _))
  | stored hc _ hs =>
    exact IsTrans.trans _ _ _ hc.create_aged (hs.aged ((Stock.fades_local _).storeMessage _))
  | forced hc _ _ hp hs =>
    exact IsTrans.trans _ _ _ (IsTrans.trans _ _ _ hc.create_aged
      (hp.aged (Stock.popMessageQueueT_fades fun _ => rfl)))
      (hs.aged ((Stock.fades_local _).storeMessage _))

theorem Pushes.aged (h : Pushes x b b') : Aged P b b' := by
  induction h with
  | refl => exact Std.Refl.refl b
  | push _ hp ih => exact IsTrans.trans _ _ _ ih hp.aged

/-- A pop with a timeout sets the time to confirm of the message that it holds, and changes
no other message. -/
theorem Stock.popMessageQueueT_marks {o : Heap Object} {R : Prop} {now timeout : ℕ} (ht : timeout ≠ 0)
    (h : Sound R b (l ++ [(n, m)])) :
    wp (popMessageQueueT now timeout) (fun _ t => t.backlog.fresh = b.fresh ∧
      ∃ msg, b.messages m = some msg ∧ t.backlog.messages =
        Function.update b.messages m (some { msg with confirm := (now + timeout) % 4294967296 }))
          Fault.Any ⟨b, o⟩ := by
  refine popMessageQueueT_leaves h fun b' msg hmsg hsame _ hfresh _ _ => ?_
  rw [if_pos ht]
  exact ⟨hfresh, msg, hmsg, by rw [← hsame]⟩

theorem Change.aged {R : Prop} (h : Change s q x y op) (hs : Sound R x.backlog l) :
    Aged (· ∈ x.backlog.confirmMessages) x.backlog y.backlog := by
  cases h with
  | same hy =>
    rw [(settings_of_bare hy).2]
    exact Std.Refl.refl (r := Aged _) x.backlog
  | push _ _ hp => exact (Pushes.refl.push hp).aged
  | @pop c req _ _ _ hp =>
    obtain rfl | ⟨l, ⟨n, w⟩, rfl⟩ := l.eq_nil_or_concat'
    · obtain ⟨o, o', hfalse⟩ := hp.spec fun o => wp_mono (Stock.popMessageQueueT_nil hs) (fun _ _ h => h)
        (fun _ _ => (trivial : Fault.Any _))
      exact hfalse.elim
    · by_cases ht : req.u32 72 = 0
      · exact hp.aged (Stock.popMessageQueueT_fades fun _ => ht)
      · obtain ⟨o, o', hfresh, msg, hmsg, hmessages⟩ := hp.spec fun o => Stock.popMessageQueueT_marks ht hs
        dsimp only at hfresh hmessages
        refine ⟨Nat.le_of_eq hfresh.symm, fun m _ z hz => ?_⟩
        rw [hmessages] at hz
        by_cases hm : m = w
        · subst hm
          rw [Function.update_self] at hz
          obtain rfl := Option.some.inj hz
          have hw : m ∈ x.backlog.queue.waiting := by simp [hs.waiting_eq]
          exact ⟨msg, hmsg, rfl, fun hheld => absurd hheld (hs.not_held hw)⟩
        · rw [Function.update_of_ne hm] at hz
          exact ⟨z, hz, rfl, fun _ => rfl⟩
  | confirm _ _ _ hc => exact hc.aged ((Stock.fades_local _).confirmMessageQueueT _)
  | purge _ _ _ hp => exact hp.aged (Stock.fades_local _).purgeQueueT
  | rename _ hy =>
    have hb := congrArg QueueT.backlog hy
    change y.backlog = x.backlog at hb
    rw [hb]
    exact Std.Refl.refl (r := Aged _) x.backlog
  | tick _ ht => exact ht.aged ((Stock.fades_local _).tick _)

/-- A message that waited and is held has been popped, and its time to confirm is that of
the request. -/
theorem Change.popped {R : Prop} (h : Change s q x y op) (hs : Sound R x.backlog l)
    (hm : m ∈ x.backlog.queue.waiting)
    (hheld : m ∈ y.backlog.confirmMessages) : ∃ c req, op = .request c req ∧ req.cmd = Cmd.queuePop ∧
      ∀ msg, y.backlog.messages m = some msg → msg.confirm = (s.nowTimems + req.u32 72) % 4294967296 := by
  have hnot : m ∉ x.backlog.confirmMessages := hs.not_held hm
  rcases (h.fate hs).waiting m hm with hw | ⟨-, c, req, rfl, hcmd, haddr, ht, hnext⟩ | ⟨hgone, -⟩
  · obtain ⟨l', hs', -⟩ := h.sound hs
    exact absurd hheld (hs'.not_held hw)
  · refine ⟨c, req, rfl, hcmd, ?_⟩
    cases h with
    | same hy => exact absurd ((settings_of_bare hy).2 ▸ hheld) hnot
    | push _ _ hp =>
      obtain ⟨l', -, -, hsame, -⟩ := hp.sound hs
      exact absurd (hsame ▸ hheld) hnot
    | pop _ _ _ hp =>
      obtain rfl | ⟨l, ⟨n, w⟩, rfl⟩ := l.eq_nil_or_concat'
      · simp [hs.waiting_eq] at hm
      · obtain ⟨o, o', -, msg, -, hmessages⟩ := hp.spec fun o => Stock.popMessageQueueT_marks ht hs
        dsimp only at hmessages
        obtain rfl : w = m := by simpa [hs.waiting_eq] using hnext
        intro msg' hmsg'
        rw [hmessages, Function.update_self] at hmsg'
        exact Option.some.inj hmsg' ▸ rfl
    | confirm hcmd' => exact absurd (hcmd.symm.trans hcmd') (by decide)
    | purge hcmd' => exact absurd (hcmd.symm.trans hcmd') (by decide)
    | rename hname => exact absurd (hcmd.symm.trans hname.cmd) (by decide)
  · exact absurd (List.mem_append_right _ hheld) hgone

end Aged

section Deadlines

variable [Lzf] {s t u v : EagleServer} {q m : Ptr} {x y : QueueT}

/-! ### Pushes and pops of a run -/

/-- The message has come to the queue by a push command at the time `now`, which lets it
wait for `expire`. -/
structure PushedAt (q m : Ptr) (now expire : ℕ) (s t : EagleServer) : Prop where
  reachable : Reachable s
  time : s.nowTimems = now
  step : ∃ c req, Asks req expire ∧ Enabled s (.request c req) ∧ step s (.request c req) = .ok t
  new : ∀ x, s.queueAt q = some x → m ∉ x.backlog.stored
  stored : ∃ y, t.queueAt q = some y ∧ m ∈ y.backlog.stored

/-- The message that waited is held by a pop command at the time `now`, which gives the
consumer the time `timeout`. -/
structure PoppedAt (q m : Ptr) (now timeout : ℕ) (s t : EagleServer) : Prop where
  reachable : Reachable s
  time : s.nowTimems = now
  step : ∃ c req, req.cmd = Cmd.queuePop ∧ req.u32 72 = timeout ∧ Enabled s (.request c req) ∧
    step s (.request c req) = .ok t
  waits : ∃ x, s.queueAt q = some x ∧ m ∈ x.backlog.queue.waiting
  held : ∃ y, t.queueAt q = some y ∧ m ∈ y.backlog.confirmMessages

/-- The message is held for a confirmation. -/
def Awaits (q m : Ptr) (s : EagleServer) : Prop := ∃ x, s.queueAt q = some x ∧ m ∈ x.backlog.confirmMessages

omit [Lzf] in
theorem Asks.unique {req : Request} {e e' : ℕ} (h : Asks req e) (h' : Asks req e') : e = e' := by
  rcases h with ⟨hcmd, rfl⟩ | ⟨hcmd, rfl⟩ <;> rcases h' with ⟨hcmd', rfl⟩ | ⟨hcmd', rfl⟩
  · rfl
  · exact absurd (hcmd.symm.trans hcmd') (by decide)
  · exact absurd (hcmd.symm.trans hcmd') (by decide)
  · rfl

theorem PushedAt.expiration {now expire : ℕ} (h : PushedAt q m now expire s t)
    (hrun : Run Enabled EagleMQ.step t u)
    (hx : u.queueAt q = some x) {msg : Message} (hmsg : x.backlog.messages m = some msg) :
    msg.expiration = absoluteExpiration now expire := by
  obtain ⟨c, req, hasks, ha, ht⟩ := h.step
  obtain ⟨y, hy, hstored⟩ := h.stored
  have hreach := h.reachable.step _ ha ht
  obtain ⟨l, hl⟩ := hreach.stocked q y hy
  have hnew : ∀ msg, y.backlog.messages m = some msg →
      msg.expiration = absoluteExpiration now expire := fun msg hmsg => by
    have hborn : ∀ tag expiration, ¬Bears s q m tag expiration := by
      rintro tag expiration ⟨w, msg', hw, hmsg', -⟩
      obtain ⟨l', hl'⟩ := h.reachable.stocked q w hw
      rcases (step_fate h.reachable ha ht hw hy).new m hstored with hold | hle
      · exact h.new w hw hold
      · exact Nat.not_lt.mpr hle (hl'.below m (by simp [hmsg']))
    have hbears : Bears t q m msg.tag msg.expiration := ⟨y, msg, hy, hmsg, rfl, rfl⟩
    rcases step_posts h.reachable.related ha ht with hwanes | hop | ⟨c', req', hop, hposts⟩
    · exact absurd (hwanes.marks _ _ _ _ hbears) (hborn _ _)
    · exact nomatch hop
    · cases hop
      obtain ⟨expire', hasks', he⟩ := (hposts.marks _ _ _ _ hbears).resolve_left (hborn _ _)
      rw [he, h.time, hasks'.unique hasks]
  have hrest := run_change (I := fun z => m < z.backlog.fresh ∧
    ∀ msg, z.backlog.messages m = some msg → msg.expiration = absoluteExpiration now expire) hreach hrun
    (fun _ _ ha => ha) hy ⟨hl.lt_fresh hstored, hnew⟩ ?_ hx
  · exact hrest.2 msg hmsg
  · rintro u op w z hu hw - hc ⟨hlt, hexp⟩
    obtain ⟨l, hl⟩ := hu.stocked q w hw
    have haged := hc.aged hl
    refine ⟨Nat.lt_of_lt_of_le hlt haged.fresh, fun msg hmsg => ?_⟩
    obtain ⟨msg', hmsg', hsame, -⟩ := haged.marks m hlt msg hmsg
    exact hsame.trans (hexp msg' hmsg')

theorem PoppedAt.confirm {now timeout : ℕ} (h : PoppedAt q m now timeout s t)
    (hrun : Run (fun s op => Enabled s op ∧ Awaits q m s) EagleMQ.step t u)
    (hx : u.queueAt q = some x) {msg : Message}
    (hmsg : x.backlog.messages m = some msg) : msg.confirm = (now + timeout) % 4294967296 := by
  obtain ⟨c, req, -, rfl, ha, ht⟩ := h.step
  obtain ⟨w, hw, hwaits⟩ := h.waits
  obtain ⟨y, hy, hheld⟩ := h.held
  have hreach := h.reachable.step _ ha ht
  obtain ⟨l, hl⟩ := hreach.stocked q y hy
  obtain ⟨l', hl'⟩ := h.reachable.stocked q w hw
  have hnew : ∀ msg, y.backlog.messages m = some msg → msg.confirm = (now + req.u32 72) % 4294967296 := by
    rcases step_traffic h.reachable.related ha ht q y hy with ⟨w', hw', hc⟩ | ⟨hnone, -⟩
    · obtain rfl := Option.some.inj (hw.symm.trans hw')
      obtain ⟨c', req', hop, -, hconfirm⟩ := hc.popped hl' hwaits hheld
      cases hop
      exact h.time ▸ hconfirm
    · cases hnone.symm.trans hw
  have hrest := run_change (I := fun z => m < z.backlog.fresh ∧
    ∀ msg, z.backlog.messages m = some msg → msg.confirm = (now + req.u32 72) % 4294967296) hreach hrun
    (fun _ _ ha => ha.1) hy ⟨hl.lt_fresh (List.mem_append_right _ hheld), hnew⟩ ?_ hx
  · exact hrest.2 msg hmsg
  · rintro u op w z hu hw ⟨-, w', hw', hheld'⟩ hc ⟨hlt, hconfirm⟩
    obtain rfl := Option.some.inj (hw.symm.trans hw')
    obtain ⟨l, hl⟩ := hu.stocked q w hw
    have haged := hc.aged hl
    refine ⟨Nat.lt_of_lt_of_le hlt haged.fresh, fun msg hmsg => ?_⟩
    obtain ⟨msg', hmsg', -, hsame⟩ := haged.marks m hlt msg hmsg
    exact (hsame hheld').trans (hconfirm msg' hmsg')

/-! ### Ticks -/

/-- The places of the messages after a tick of the server. -/
theorem tick_places (hu : Reachable u) (hv : step u .tick = .ok v) (hx : u.queueAt q = some x)
    (hy : v.queueAt q = some y) :
    (m ∈ y.backlog.queue.waiting ↔ m ∈ x.backlog.queue.waiting ∧
      x.backlog.expired (u.env.mstime % 4294967296) m = false ∨
      m ∈ x.backlog.confirmMessages ∧ x.backlog.overdue (u.env.mstime % 4294967296) m = true ∧
        x.backlog.expired (u.env.mstime % 4294967296) m = false) ∧
    (m ∈ y.backlog.confirmMessages ↔
      m ∈ x.backlog.confirmMessages ∧ x.backlog.overdue (u.env.mstime % 4294967296) m = false) := by
  obtain ⟨x', hx', -, hrun⟩ := ok_of_wp (Q := fun _ t => ∀ q y, t.queueAt q = some y → _)
    (serverUpdater_restocked hu.related) (step_eq_ok.mp hv) q y hy
  obtain rfl := Option.some.inj (hx.symm.trans hx')
  obtain ⟨l, hl⟩ := hu.stocked q x hx
  obtain ⟨hwait, hback, hkept, -⟩ := hrun.ticked hl
  exact ⟨(hwait m).trans (or_congr_right (hback m)), hkept m⟩

/-- The low 32 bits of the two times compare as the times do. -/
def AgreesLow (due time : ℕ) : Prop :=
  due ≤ time ∧ due % 4294967296 ≤ time % 4294967296 ∨ time < due ∧ time % 4294967296 < due % 4294967296

/-- The same for an expiration, whose low 32 bits stand for none if they are 0. -/
def AgreesExpiration (due time : ℕ) : Prop :=
  due ≤ time ∧ due % 4294967296 ≠ 0 ∧ due % 4294967296 ≤ time % 4294967296 ∨
    time < due ∧ (due % 4294967296 = 0 ∨ time % 4294967296 < due % 4294967296)

instance (due time : ℕ) : Decidable (AgreesLow due time) := inferInstanceAs (Decidable (_ ∨ _))

instance (due time : ℕ) : Decidable (AgreesExpiration due time) := inferInstanceAs (Decidable (_ ∨ _))

omit [Lzf] in
theorem agreesLow_iff {due time : ℕ} :
    AgreesLow due time ↔ (due % 4294967296 ≤ time % 4294967296 ↔ due ≤ time) := by
  unfold AgreesLow
  omega

omit [Lzf] in
theorem agreesExpiration_iff {due time : ℕ} : AgreesExpiration due time ↔
    (due % 4294967296 ≠ 0 ∧ due % 4294967296 ≤ time % 4294967296 ↔ due ≤ time) := by
  unfold AgreesExpiration
  omega

/-- A tick removes the message that waits when its time is over, and not before. -/
def ExpiresInTime (y : QueueT) (m : Ptr) (due time : ℕ) : Prop := m ∉ y.backlog.stored ↔ due ≤ time

/-- A tick takes the held message back when its time is over and not before, and the
message waits again unless it has expired. -/
def ReturnsInTime (y : QueueT) (m : Ptr) (due time : ℕ) (expired : Prop) : Prop :=
  (m ∉ y.backlog.confirmMessages ↔ due ≤ time) ∧ (m ∈ y.backlog.queue.waiting ↔ due ≤ time ∧ ¬expired)

theorem PushedAt.expired {now expire : ℕ} (h : PushedAt q m now expire s t)
    (hrun : Run Enabled EagleMQ.step t u)
    (hx : u.queueAt q = some x) (hm : m ∈ x.backlog.stored) (time : ℕ) :
    x.backlog.expired (time % 4294967296) m = true ↔ 0 < expire ∧ (now + expire) % 4294967296 ≠ 0 ∧
      (now + expire) % 4294967296 ≤ time % 4294967296 := by
  obtain ⟨c, req, -, ha, ht⟩ := h.step
  have hu : Reachable u := hrun.invariant Reachable (h.reachable.step _ ha ht)
    fun _ op _ hs ha ht => hs.step op ha ht
  obtain ⟨l, hl⟩ := hu.stocked q x hx
  obtain ⟨msg, hmsg⟩ := hl.exists_message (hl.mem_stored.mp hm)
  rw [expired_eq _ hmsg, Bool.and_eq_true, decide_eq_true_eq, decide_eq_true_eq, h.expiration hrun hx hmsg,
    absoluteExpiration, Nat.add_comm expire now]
  split_ifs with he
  · simp [he]
  · simp [Nat.pos_of_ne_zero he]

end Deadlines

/-! ### Runs of the small server -/

namespace Sample

/-- A tick at the time `now`, and the time of the next tick. -/
def prepare (now time : ℕ) : List Op :=
  declared 5 ++ tickAt now ++ [.environment { env with mstime := time }]

/-- The server runs the event, and what follows holds. -/
def runs (s : EagleServer) (op : Op) (p : EagleServer → Bool) : Bool :=
  decide (Enabled s op) && (@step Lzf.stored s op).toOption.any p

theorem exists_of_runs {s : EagleServer} {op : Op} {p : EagleServer → Bool} (h : runs s op p = true) :
    ∃ t, Enabled s op ∧ @step Lzf.stored s op = .ok t ∧ p t = true := by
  rw [runs, Bool.and_eq_true, decide_eq_true_eq, Option.any_eq_true] at h
  obtain ⟨ha, t, ht, hp⟩ := h
  exact ⟨t, ha, toOption_eq_some.mp ht, hp⟩

/-- The push finds no messages but those of `before`. -/
theorem pushedAt {s t : EagleServer} {m : Ptr} {now expire : ℕ} {waiting waiting' : List Ptr}
    (hs : @Reachable Lzf.stored s)
    (htime : s.nowTimems = now) (hbefore : places s = some (waiting, [])) (ha : Enabled s (push expire))
    (hasks : Asks (.frame Cmd.queuePush (padded 64 [113] ++ (leBytes 4 expire ++ [1]))) expire)
    (ht : @step Lzf.stored s (push expire) = .ok t) (hafter : places t = some (waiting', []))
    (hm : m ∉ waiting) (hm' : m ∈ waiting') : @PushedAt Lzf.stored 2 m now expire s t := by
  obtain ⟨x, hx, hwaiting, hheld⟩ := queue_of_places hbefore
  obtain ⟨y, hy, hwaiting', -⟩ := queue_of_places hafter
  refine @PushedAt.mk Lzf.stored 2 m now expire s t hs htime ⟨0, _, hasks, ha, ht⟩ (fun z hz => ?_)
    ⟨y, hy, List.mem_append_left _ (hwaiting' ▸ hm')⟩
  obtain rfl := Option.some.inj (hx.symm.trans hz)
  simpa [Backlog.stored, hwaiting, hheld] using hm

end Sample

end EagleMQ
