import EagleMQ.Backlog

/-! The two passes of a tick over the messages of a queue. The first drops the
waiting messages that have expired; it stops at a stale entry of the expiry list,
and at the last node when its `next` link leads to a freed node. The second puts
the held messages that are overdue back, each in front of those before it. -/

namespace EagleMQ

open Prog

namespace Backlog

/-- The message has an expiration that has passed. -/
def expired (b : Backlog) (time : ℕ) (m : Ptr) : Bool :=
  (b.core m).any fun x => x.2.2 ≠ 0 && x.2.2 ≤ time

/-- The confirmation of a held message has not come in time. -/
def overdue (b : Backlog) (time : ℕ) (m : Ptr) : Bool :=
  (b.messages m).any fun msg => msg.confirm ≤ time

/-- The held messages that go back to the queue, in their order. -/
def returned (b : Backlog) (time : ℕ) : List Ptr :=
  b.confirmMessages.filter fun m => b.overdue time m && !b.expired time m

/-- The tick does not meet the stale link of the last node. -/
def Clear (b : Backlog) (time : ℕ) (l : List (Ptr × Ptr)) : Prop :=
  b.queue.tailNext = none ∨ ∀ x, l.getLast? = some x → b.expired time x.2 = false

variable {P : Prop} {b : Backlog} {l : List (Ptr × Ptr)} {m n : Ptr} {msg : Message} {time : ℕ}

theorem expired_eq (time : ℕ) (hmsg : b.messages m = some msg) :
    b.expired time m = (decide (msg.expiration ≠ 0) && decide (msg.expiration ≤ time)) := by
  simp [expired, core, hmsg]

theorem overdue_eq (time : ℕ) (hmsg : b.messages m = some msg) :
    b.overdue time m = decide (msg.confirm ≤ time) := by
  simp [overdue, hmsg]

end Backlog

namespace Stock

open Backlog

variable {P : Prop} {E : Fault → Prop} {b : Backlog} {o : Heap Object} {l : List (Ptr × Ptr)} {m n : Ptr}
  {msg : Message} {time : ℕ}

/-! ### Expired messages -/

/-- The message has been dropped when the entries `rest` are left. -/
def gone (b : Backlog) (time : ℕ) (rest : List (Ptr × Ptr)) (m : Ptr) : Bool :=
  b.expired time m && decide (m ∉ rest.map Prod.snd)

/-- The state of the first pass when the entries `rest` are left. -/
structure Expiring (P : Prop) (b : Backlog) (l : List (Ptr × Ptr)) (time : ℕ) (rest : List (Ptr × Ptr))
    (b' : Backlog) : Prop where
  sound : Sound P b' (l.filter fun x => !gone b time rest x.2)
  messages : b'.messages = without b.messages ((l.map Prod.snd).filter (gone b time rest))
  entries : ∃ pre, b'.expireMessages = pre ++ rest
  held : b'.confirmMessages = b.confirmMessages
  fresh : b'.fresh = b.fresh
  clear : Clear b time l → b'.queue.tailNext = none ∨
    ∀ x, l.getLast? = some x → b.expired time x.2 = false

theorem filter_ne_append {a c : List (Ptr × Ptr)} (h : ((a ++ (n, m) :: c).map Prod.snd).Nodup) :
    ((a ++ (n, m) :: c).filter fun x => decide (x.2 ≠ m)) = a ++ c := by
  rw [List.map_append, List.map_cons, List.nodup_append, List.nodup_cons] at h
  obtain ⟨-, ⟨hc, -⟩, ha⟩ := h
  have hall : ∀ x ∈ a ++ c, decide (x.2 ≠ m) = true := fun x hx => decide_eq_true fun hxm => by
    have hmem : x.2 ∈ (a ++ c).map Prod.snd := List.mem_map_of_mem hx
    rw [hxm, List.map_append] at hmem
    exact (List.mem_append.mp hmem).elim (fun hm => ha m hm m (by simp) rfl) hc
  rw [List.filter_append, List.filter_cons_of_neg (by simp), ← List.filter_append,
    List.filter_eq_self.mpr hall]

theorem gone_cons {x : Ptr × Ptr} {rest : List (Ptr × Ptr)} {m' : Ptr} (hm : m' ≠ x.2) :
    gone b time (x :: rest) m' = gone b time rest m' := by
  simp only [gone, List.map_cons, List.mem_cons, hm, false_or]

variable {b' : Backlog} {e : Ptr} {rest : List (Ptr × Ptr)}

/-- An entry whose message has not expired. -/
theorem Expiring.skip (h : Expiring P b l time ((e, m) :: rest) b') (hm : b.expired time m = false) :
    Expiring P b l time rest b' := by
  have hsame : gone b time ((e, m) :: rest) = gone b time rest := by
    funext m'
    by_cases hmm : m' = m
    · simp [gone, hmm, hm]
    · exact gone_cons hmm
  obtain ⟨pre, hpre⟩ := h.entries
  exact ⟨hsame ▸ h.sound, hsame ▸ h.messages, ⟨pre ++ [(e, m)], by simp [hpre]⟩, h.held, h.fresh, h.clear⟩

/-- The message of an entry is still as it was. -/
theorem Expiring.message (h : Expiring P b l time ((e, m) :: rest) b') (hmsg : b'.messages m = some msg) :
    b.messages m = some msg := by
  rw [h.messages] at hmsg
  unfold without at hmsg
  split_ifs at hmsg
  exact hmsg

/-- The message of an entry leaves the queue and the expiry list and is released. -/
theorem Expiring.drop {q : Queue} {a c : List (Ptr × Ptr)} (h : Expiring P b l time ((e, m) :: rest) b')
    (hl : (l.filter fun x => !gone b time ((e, m) :: rest) x.2) = a ++ (n, m) :: c)
    (hmsg : b'.messages m = some msg) (hm : b.expired time m = true) (hq : q.Linked (a ++ c))
    (hclear : c = [] → q.tailNext = none) (hkeep : c ≠ [] → q.tailNext = b'.queue.tailNext) :
    Expiring P b l time rest { b' with
      queue := q, expireMessages := b'.unindexed m, messages := Function.update b'.messages m none } := by
  obtain ⟨pre, hpre⟩ := h.entries
  have hsound := h.sound
  rw [hl] at hsound
  obtain ⟨hleave, hplace⟩ := hsound.leave (List.perm_middle)
  have hnodup : ((a ++ (n, m) :: c).map Prod.snd).Nodup := (List.nodup_append.mp hsound.nodup).1
  -- no other entry is of the message
  have hother : ∀ x ∈ rest, x.2 ≠ m := fun x hx hxm => by
    have hxin : x ∈ b'.expireMessages := hpre ▸ List.mem_append_right _ (List.mem_cons_of_mem _ hx)
    have hein : (e, m) ∈ b'.expireMessages := hpre ▸ List.mem_append_right _ (by simp)
    have hx1 := (hsound.entries x hxin msg (hxm ▸ hmsg)).2.2
    have he1 := (hsound.entries (e, m) hein msg hmsg).2.2
    have hnodes := hsound.nodes
    rw [hpre, List.map_append, List.map_cons, List.nodup_append, List.nodup_cons] at hnodes
    refine hnodes.2.1.1 ?_
    have hmem : x.1 ∈ rest.map Prod.fst := List.mem_map_of_mem hx
    rwa [← show e = x.1 from Option.some.inj (he1.symm.trans hx1)] at hmem
  have hgone : gone b time rest m = true := by
    simp only [gone, hm, Bool.true_and, decide_eq_true_eq]
    exact fun hmem => by
      obtain ⟨x, hx, hxm⟩ := List.mem_map.mp hmem
      exact hother x hx hxm
  have hlist : (l.filter fun x => !gone b time rest x.2) = a ++ c := by
    rw [← filter_ne_append hnodup, ← hl, List.filter_filter]
    refine List.filter_congr fun x _ => ?_
    by_cases hxm : x.2 = m
    · simp [hxm, hgone]
    · simp [hxm, gone_cons (x := (e, m)) hxm]
  refine ⟨hlist.symm ▸ ⟨(hleave.release hplace).of_queue q, hq⟩, ?_,
    ⟨pre.filter fun x => x.2 ≠ m, ?_⟩, h.held,
    h.fresh, fun hcl => ?_⟩
  · dsimp only
    rw [h.messages]
    funext m'
    by_cases hmm : m' = m
    · have hw : m ∈ l.map Prod.snd := by
        have hmem : (n, m) ∈ l := List.mem_of_mem_filter (hl ▸ (by simp : (n, m) ∈ a ++ (n, m) :: c))
        exact List.mem_map_of_mem hmem
      rw [hmm, Function.update_self, without, if_pos (List.mem_filter.mpr ⟨hw, hgone⟩)]
    · rw [Function.update_of_ne hmm]
      simp only [without, List.mem_filter, gone_cons (x := (e, m)) hmm]
  · dsimp only [unindexed]
    rw [hpre, List.filter_append, List.filter_cons_of_neg (by simp), List.filter_eq_self.mpr fun x hx =>
      decide_eq_true (hother x hx)]
  · obtain rfl | hc := eq_or_ne c []
    · exact .inl (hclear rfl)
    · exact (h.clear hcl).imp (hkeep hc).trans id

/-- The last of the messages is among those that are left when it is not dropped. -/
theorem filter_last {p : Ptr × Ptr → Bool} {x : Ptr × Ptr} {a : List (Ptr × Ptr)} (hl : l.filter p = a ++ [x])
    (hlast : ∀ y, l.getLast? = some y → p y = true) : l.getLast? = some x := by
  obtain rfl | ⟨l, y, rfl⟩ := l.eq_nil_or_concat'
  · simp at hl
  · have hy : p y = true := hlast y (by simp)
    rw [List.filter_append, List.filter_cons_of_pos hy, List.filter_nil] at hl
    simp [(List.append_inj' hl rfl).2]

theorem processExpiredMessage_spec (hE : E .object) (hstale : ¬P → E .message)
    (hnode : Clear b time l ∨ E .node)
    (h : Expiring P b l time ((e, m) :: rest) b') :
    wp (processExpiredMessage time (e, m)) (fun _ t => Expiring P b l time rest t.backlog) E ⟨b', o⟩ := by
  obtain ⟨pre, hpre⟩ := h.entries
  have hent : (e, m) ∈ b'.expireMessages := hpre ▸ List.mem_append_right _ (by simp)
  cases hmsg : b'.messages m with
  | none =>
    have hP : ¬P := fun hP => h.sound.live hP _ hent hmsg
    simpa [processExpiredMessage, message, hmsg] using hstale hP
  | some msg =>
    obtain ⟨hw, hne, hdata⟩ := h.sound.entries _ hent msg hmsg
    have hexp := expired_eq time (h.message hmsg)
    rw [processExpiredMessage, wp_bind, wp_message hmsg]
    refine wp_ite (fun ht => ?_) fun ht => h.skip (by simp [hexp, ht])
    obtain ⟨⟨n, w⟩, hx, rfl⟩ := List.mem_map.mp hw
    obtain ⟨-, -, -, hdata1⟩ := h.sound.indexed _ hx msg hmsg hne
    obtain ⟨a, c, hl⟩ := List.append_of_mem hx
    have hlink := h.sound.linked
    rw [hl] at hlink
    rw [wp_bind]
    refine wp_deleteExpire h.sound.toTracked hmsg hdata hent ?_
    rw [hdata1]
    have hm : b.expired time w = true := by simp [hexp, ht, hne]
    -- the last node is only deleted when its `next` link is clear
    by_cases hc : c = [] → b'.queue.tailNext = none
    · obtain ⟨q, hq, hqlink, hclear, hkeep, -⟩ := Queue.deleteNode_spec hlink hc
      simp only [setQueue, modifyBacklog, wp_bind, wp_get, hq, wp_lift_ok, wp_modify]
      refine wp_releaseMessage (b := { b' with queue := q, expireMessages := b'.unindexed w }) hE hmsg
        fun o' _ => ?_
      exact h.drop hl hmsg hm hqlink hclear hkeep
    · obtain ⟨rfl, hnext⟩ := Classical.not_imp.mp hc
      obtain ⟨x, hx'⟩ := Option.ne_none_iff_exists'.mp hnext
      have hfault := Queue.deleteNode_stale hlink hx'
      simp only [wp_bind, wp_get, hfault, wp_lift_error]
      refine hnode.resolve_left fun hcl => ?_
      rcases h.clear hcl with hnone | hlast
      · exact hnext hnone
      · have hx' := filter_last hl fun y hy => by simp [gone, hlast y hy]
        exact absurd (hlast _ hx') (by simp [hm])

theorem processExpiredMessagesQueueT_spec (hE : E .object) (hstale : ¬P → E .message)
    (hnode : Clear b time l ∨ E .node) (h : Sound P b l) :
    wp (processExpiredMessagesQueueT time) (fun _ t =>
      Sound P t.backlog (l.filter fun x => !b.expired time x.2) ∧
      t.backlog.messages = without b.messages ((l.map Prod.snd).filter (b.expired time)) ∧
      t.backlog.confirmMessages = b.confirmMessages ∧ t.backlog.fresh = b.fresh) E ⟨b, o⟩ := by
  -- at the start every message that waits and has expired has its entry ahead
  have hstart : ∀ x ∈ l, gone b time b.expireMessages x.2 = false := fun x hx => by
    obtain ⟨msg, hmsg⟩ := h.exists_message (mem_places.mpr (.inl (List.mem_map_of_mem hx)))
    by_cases he : msg.expiration = 0
    · simp [gone, expired_eq time hmsg, he]
    · obtain ⟨e, hent, -⟩ := h.indexed x hx msg hmsg he
      have hmem : x.2 ∈ b.expireMessages.map Prod.snd := List.mem_map.mpr ⟨_, hent, rfl⟩
      simp only [gone, hmem, not_true_eq_false, decide_false, Bool.and_false]
  have hnone : (l.map Prod.snd).filter (gone b time b.expireMessages) = [] := by
    refine List.filter_eq_nil_iff.mpr fun m hm => ?_
    obtain ⟨x, hx, rfl⟩ := List.mem_map.mp hm
    simp [hstart x hx]
  have hend : gone b time [] = b.expired time := by
    funext m
    simp [gone]
  refine wp_mono (wp_foreach (fun rest t => Expiring P b l time rest t.backlog)
    (l := b.expireMessages) rfl ?_ ?_ ?_)
    (fun _ t ht => ?_) fun _ h => h
  · rintro x rest t ht
    obtain ⟨pre, hpre⟩ := ht.entries
    exact ⟨pre, by rw [← hpre]; rfl, hpre ▸ List.Nodup.of_map _ ht.sound.nodes⟩
  · rintro ⟨e, m⟩ rest ⟨b', o'⟩ ht
    exact processExpiredMessage_spec hE hstale hnode ht
  · refine ⟨?_, ?_, ⟨[], rfl⟩, rfl, rfl, id⟩
    · rwa [List.filter_eq_self.mpr fun x hx => by simp [hstart x hx]]
    · rw [hnone]
      funext m
      simp [without]
  · have hs := ht.sound
    have hmsgs := ht.messages
    rw [hend] at hs hmsgs
    exact ⟨hs, hmsgs, ht.held, ht.fresh⟩

/-! ### Unconfirmed messages -/

/-- The state of the second pass when the held messages `rest` are left. -/
structure Returning (P : Prop) (b : Backlog) (l : List (Ptr × Ptr)) (time : ℕ) (rest : List Ptr)
    (b' : Backlog) : Prop where
  places : ∃ seen added, b.confirmMessages = seen ++ rest ∧ Sound P b' (l ++ added) ∧
    added.map Prod.snd = seen.filter (fun m => b.overdue time m && !b.expired time m) ∧
    b'.confirmMessages = seen.filter (fun m => !b.overdue time m) ++ rest
  core : b'.core = b.core
  rest : ∀ m ∈ rest, b'.messages m = b.messages m
  fresh : b.fresh ≤ b'.fresh

theorem processUnconfirmedMessage_spec {rest : List Ptr} (hn : b.confirmMessages.Nodup)
    (h : Returning P b l time (m :: rest) b') :
    wp (processUnconfirmedMessage time m) (fun _ t => t.objects = o ∧ Returning P b l time rest t.backlog)
      E ⟨b', o⟩ := by
  obtain ⟨seen, added, hseen, hs, hadded, hheld⟩ := h.places
  have hm : m ∈ b'.confirmMessages := hheld ▸ List.mem_append_right _ (by simp)
  obtain ⟨msg, hmsg⟩ := hs.exists_message (mem_places.mpr (.inr hm))
  have hmsg' : b.messages m = some msg := by rw [← h.rest m (by simp), hmsg]
  have hover := overdue_eq time hmsg'
  have hexp := expired_eq time hmsg'
  have hrest : ∀ m' ∈ rest, m' ≠ m := fun m' hm' he => by
    rw [hseen, List.nodup_append, List.nodup_cons] at hn
    exact hn.2.1.1 (he ▸ hm')
  have hseen' : b.confirmMessages = (seen ++ [m]) ++ rest := by simp [hseen]
  rw [processUnconfirmedMessage, wp_bind, wp_message hmsg]
  refine wp_ite (fun ht => ?_) fun ht => ?_
  · have hnheld := (List.nodup_append.mp hs.nodup).2.1
    rw [hheld] at hnheld
    have herase : b'.confirmMessages.erase m = seen.filter (fun m => !b.overdue time m) ++ rest := by
      rw [hheld, List.erase_append_right _ fun hmem => ?_, List.erase_cons_head]
      exact (List.nodup_append.mp hnheld).2.2 m hmem m (by simp) rfl
    obtain ⟨hun, hplace⟩ := hs.unhold hm
    obtain ⟨q, hq, hlink, htail, -⟩ := Queue.pushValueTail_spec hs.linked m
    obtain ⟨hplain, hindex⟩ := indexStored_spec ⟨hun, hs.linked⟩ hmsg hplace hlink
      (List.perm_append_singleton _ _)
    rw [List.append_assoc] at hplain hindex
    have hback : b.expired time m = false → ∀ b'', Sound P b'' (l ++ (added ++ [(b'.queue.fresh, m)])) →
        Stays { b' with confirmMessages := b'.confirmMessages.erase m } b'' →
        Returning P b l time rest b'' := by
      intro hne b'' hs'' hstays
      refine ⟨⟨seen ++ [m], _, hseen', hs'', ?_, ?_⟩, hstays.core.trans h.core, fun m' hm' => ?_,
        Nat.le_trans h.fresh hstays.fresh⟩
      · simp [hadded, List.filter_append, hover, ht, hne]
      · simp [hstays.held, herase, List.filter_append, hover, ht]
      · rw [hstays.confirm m' (by rw [herase]; simp [hm']), ← h.rest m' (by simp [hm'])]
    simp only [setQueue, modifyBacklog, wp_bind, wp_modify]
    refine wp_ite (fun he => wp_ite (fun hle => ?_) fun hle => ?_) fun he => ?_
    · refine ⟨rfl, ⟨seen ++ [m], added, hseen', ⟨hun, hs.linked⟩, ?_, ?_⟩, h.core,
        fun m' hm' => h.rest m' (by simp [hm']), h.fresh⟩
      · simp [hadded, List.filter_append, hexp, he, hle]
      · simp [herase, List.filter_append, hover, ht]
    · simp only [wp_bind, wp_get, hq, wp_lift_ok, wp_modify]
      refine wp_indexMessage hmsg ⟨rfl, ?_⟩
      rw [htail]
      obtain ⟨hs'', hstays⟩ := hindex he
      exact hback (by simp [hexp, hle]) _ hs'' hstays
    · simp only [wp_bind, wp_get, hq, wp_lift_ok, wp_modify]
      obtain ⟨hs'', hstays⟩ := hplain (not_not.mp he)
      exact ⟨trivial, hback (by simp [hexp, not_not.mp he]) _ hs'' hstays⟩
  · refine ⟨rfl, ⟨seen ++ [m], added, hseen', hs, ?_, ?_⟩, h.core,
      fun m' hm' => h.rest m' (by simp [hm']), h.fresh⟩
    · simp [hadded, List.filter_append, hover, ht]
    · simp [hheld, List.filter_append, hover, ht]

theorem processUnconfirmedMessagesQueueT_spec (h : Sound P b l) :
    wp (processUnconfirmedMessagesQueueT time) (fun _ t => t.objects = o ∧ ∃ added,
      Sound P t.backlog (l ++ added) ∧ added.map Prod.snd = b.returned time ∧
      t.backlog.confirmMessages = b.confirmMessages.filter (fun m => !b.overdue time m) ∧
      t.backlog.core = b.core ∧ b.fresh ≤ t.backlog.fresh) E ⟨b, o⟩ := by
  have hn : b.confirmMessages.Nodup := (List.nodup_append.mp h.nodup).2.1
  refine wp_mono (wp_foreach (fun rest t => t.objects = o ∧ Returning P b l time rest t.backlog)
    (l := b.confirmMessages) rfl ?_ ?_ ?_) (fun _ t ht => ?_) fun _ h => h
  · rintro m rest t ⟨-, ht⟩
    obtain ⟨seen, added, -, hs, -, hheld⟩ := ht.places
    exact ⟨_, by rw [← hheld]; rfl, hheld ▸ (List.nodup_append.mp hs.nodup).2.1⟩
  · rintro m rest ⟨b', o'⟩ ⟨rfl, ht⟩
    exact processUnconfirmedMessage_spec hn ht
  · exact ⟨rfl, ⟨[], [], by simp, by simpa using h, by simp, by simp⟩, rfl, fun _ _ => rfl, Nat.le_refl _⟩
  · obtain ⟨ho, hret⟩ := ht
    obtain ⟨seen, added, hseen, hs, hadded, hheld⟩ := hret.places
    obtain rfl : seen = b.confirmMessages := by simpa using hseen.symm
    exact ⟨ho, added, hs, hadded, by simpa using hheld, hret.core, hret.fresh⟩

/-! ### Both passes -/

/-- What a tick does to a queue: its new nodes are at the end from which pops take. -/
structure Ticked (P : Prop) (b : Backlog) (l : List (Ptr × Ptr)) (time : ℕ) (b' : Backlog) : Prop where
  sound : ∃ added, Sound P b' (l.filter (fun x => !b.expired time x.2) ++ added) ∧
    added.map Prod.snd = b.returned time
  held : b'.confirmMessages = b.confirmMessages.filter fun m => !b.overdue time m
  core : ∀ m, b'.core m = if m ∈ (l.map Prod.snd).filter (b.expired time) then none else b.core m
  fresh : b.fresh ≤ b'.fresh

/-- The two passes on the same messages. -/
def tick (time : ℕ) : StockM Unit := do
  processExpiredMessagesQueueT time
  processUnconfirmedMessagesQueueT time

theorem tick_spec (hE : E .object) (hstale : ¬P → E .message) (hnode : Clear b time l ∨ E .node)
    (h : Sound P b l) : wp (tick time) (fun _ t => Ticked P b l time t.backlog) E ⟨b, o⟩ := by
  rw [tick, wp_bind]
  refine wp_mono (processExpiredMessagesQueueT_spec hE hstale hnode h)
    (fun _ t ⟨hs, hmsgs, hheld, hfresh⟩ => ?_)
    fun _ h => h
  have hsame : ∀ m ∈ b.confirmMessages, t.backlog.messages m = b.messages m := fun m hm => by
    rw [hmsgs, without, if_neg fun hw => ?_]
    exact (List.nodup_append.mp h.nodup).2.2 m (List.mem_of_mem_filter hw) m hm rfl
  have hover : ∀ m ∈ b.confirmMessages, t.backlog.overdue time m = b.overdue time m := fun m hm => by
    unfold overdue
    rw [hsame m hm]
  have hexp : ∀ m ∈ b.confirmMessages, t.backlog.expired time m = b.expired time m := fun m hm => by
    unfold expired Backlog.core
    rw [hsame m hm]
  refine wp_mono (processUnconfirmedMessagesQueueT_spec hs) ?_ fun _ h => h
  rintro _ u ⟨-, added, hs', hadded, hheld', hcore, hfresh'⟩
  refine ⟨⟨added, hs', ?_⟩, ?_, fun m => ?_, hfresh ▸ hfresh'⟩
  · rw [hadded, returned, returned, hheld]
    exact List.filter_congr fun m hm => by rw [hover m hm, hexp m hm]
  · rw [hheld', hheld]
    exact List.filter_congr fun m hm => by rw [hover m hm]
  · rw [hcore, Backlog.core, hmsgs, without]
    split_ifs <;> rfl

end Stock

end EagleMQ
