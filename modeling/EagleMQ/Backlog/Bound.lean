import EagleMQ.Backlog.Reach

/-! The bound on the messages that wait in a queue. A push keeps it, but the
second pass of a tick puts the unconfirmed messages back without a look at it, and
a name of full length changes the field that holds it. -/

namespace EagleMQ

open Prog Backlog

/-- A tick leaves room for the messages that go back, and a name of full length is
given to a queue whose changed bound is kept. -/
def Roomy (s : EagleServer) (op : Op) : Prop :=
  (op = .tick → ∀ q x, s.queueAt q = some x →
    (x.backlog.queue.waiting.filter fun m => !x.backlog.expired (s.env.mstime % 4294967296) m).length +
      (x.backlog.returned (s.env.mstime % 4294967296)).length ≤ x.maxMsg) ∧
  ∀ c req, op = .request c req → ∀ q x name, s.queueAt q = some x → RenamesQueue s c req q name →
    name.length < 64 ∨ x.backlog.queue.waiting.length ≤ x.maxMsg - x.maxMsg % 256

section Bound

variable [Lzf] {s t : EagleServer} {q : Ptr} {x y : QueueT} {first : Ptr}
  {l l' : List (Ptr × Ptr)} {b : Backlog}

omit [Lzf] in
theorem Backlog.Sound.waiting_eq {P : Prop} (h : Sound P b l) : b.queue.waiting = (l.map Prod.snd).reverse :=
  Queue.waiting_spec h.linked

omit [Lzf] in
theorem Growths.length_le (h : Growths x first l l') (hl : l.length ≤ x.maxMsg) : l'.length ≤ x.maxMsg := by
  induction h with
  | refl => exact hl
  | step _ _ _ hg ih =>
    cases hg with
    | same => exact ih
    | stored _ hlen => exact hlen
    | forced _ heq => simpa [heq] using ih

/-- A queue that has been pushed to and nothing else keeps its bound. -/
theorem loaded_bound {cfg : Config} {env : Env} {file : List Byte} {ok : Bool}
    (ht : storageLoad file (initServer cfg env) = .ok (ok, t)) (hx : t.queueAt q = some x) :
    x.backlog.queue.waiting.length ≤ x.maxMsg := by
  obtain ⟨l, hl, hg, -⟩ := (storageLoad_filled ht hx).sound (P := False) sound_create
  simpa [hl.waiting_eq] using hg.length_le (Nat.zero_le _)

theorem step_bound {op : Op} (hs : Reachable s) (ha : Enabled s op) (hop : Roomy s op)
    (ht : step s op = .ok t)
    (hbound : ∀ q x, s.queueAt q = some x → x.backlog.queue.waiting.length ≤ x.maxMsg)
    (hy : t.queueAt q = some y) : y.backlog.queue.waiting.length ≤ y.maxMsg := by
  rcases step_traffic hs.related ha ht q y hy with ⟨x, hx, hc⟩ | ⟨-, hnew, -⟩
  · obtain ⟨l, hl⟩ := hs.stocked q x hx
    obtain ⟨l', hl', hshift⟩ := hc.sound hl
    have hb := hbound q x hx
    rw [hl.waiting_eq, List.length_reverse, List.length_map] at hb
    rw [hl'.waiting_eq, List.length_reverse, List.length_map]
    cases hshift with
    | grown hset hg =>
      rw [(settings_fields hset).1]
      exact hg.length_le hb
    | gone hset hsub =>
      rw [(settings_fields hset).1]
      exact Nat.le_trans hsub.length_le hb
    | @renamed c req name hreq hname hy =>
      have hmax := congrArg QueueT.maxMsg hy
      change y.maxMsg = spill name x.maxMsg at hmax
      rw [hmax, spill]
      have hroom := hop.2 c req hreq q x name hx hname
      rw [hl.waiting_eq, List.length_reverse, List.length_map] at hroom
      split_ifs with hlen
      · exact hb
      · exact hroom.resolve_left hlen
    | ticked htick hset hadded =>
      have hroom := hop.1 htick q x hx
      rw [← hadded, hl.waiting_eq, List.filter_reverse, List.length_reverse, List.filter_map, List.length_map,
        List.length_map] at hroom
      rw [(settings_fields hset).1, List.length_append]
      exact hroom
  · simp [hnew, Backlog.create, Queue.waiting, Queue.chase, Queue.create]

/-- A check of the condition in a state that is reached. -/
def Roomy.check (s : EagleServer) (op : Op) : Bool :=
  (!op.isTick || s.everyQueue fun x =>
    (x.backlog.queue.waiting.filter fun m => !x.backlog.expired (s.env.mstime % 4294967296) m).length +
      (x.backlog.returned (s.env.mstime % 4294967296)).length ≤ x.maxMsg) &&
  (op.cmd != some Cmd.queueRename || s.everyQueue fun x => x.backlog.queue.waiting.length ≤
    x.maxMsg - x.maxMsg % 256)

theorem roomy_of_check {op : Op} (hs : Reachable s) (h : Roomy.check s op = true) : Roomy s op := by
  obtain ⟨htick, hrename⟩ := Bool.and_eq_true_iff.mp h
  refine ⟨fun he q x hx => ?_, fun c req he q x name hx hname => .inr ?_⟩
  · subst he
    exact of_decide_eq_true (hs.everyQueue htick hx)
  · subst he
    have hcmd : (Op.request c req).cmd = some Cmd.queueRename := congrArg some hname.cmd
    rw [hcmd, bne_self_eq_false, Bool.false_or] at hrename
    exact of_decide_eq_true (hs.everyQueue hrename hx)

end Bound

end EagleMQ
