import EagleMQ.Backlog.Deadlines

/-! The tags of the messages on the server. They are distinct as long as no tick
reads a clock whose low half is in the tag of a message that is there. -/

namespace EagleMQ

open Prog Backlog

/-- The queue has the message, which waits or is held. -/
def Stored (s : EagleServer) (q m : Ptr) : Prop := ∃ x, s.queueAt q = some x ∧ m ∈ x.backlog.stored

/-- Each stored message has a tag of its own, and a confirmation with the tag of a held
message takes it and no other, whichever queue it is sent to. -/
structure Unambiguous (s : EagleServer) : Prop where
  tags : ∀ q m q' m' tag expiration expiration', Stored s q m → Stored s q' m' → Bears s q m tag expiration →
    Bears s q' m' tag expiration' → q = q' ∧ m = m'
  confirm : ∀ q m tag expiration, Awaits q m s → Bears s q m tag expiration → ∀ p x, s.queueAt p = some x →
    ∀ o ok t, Stock.confirmMessageQueueT tag ⟨x.backlog, o⟩ = .ok (ok, t) →
      ∀ n ∈ x.backlog.stored, n ∉ t.backlog.stored ↔ p = q ∧ n = m

section Tags

variable [Lzf] {s t : EagleServer} {op : Op}

/-- The step ends with a counter of 32 bits. -/
def Counts (s : EagleServer) (op : Op) : Prop := ∀ t, step s op = .ok t → t.msgCounter ≤ 4294967296

/-- So does the load of the file that the server would save. -/
def CountsLoaded (s : EagleServer) (cfg : Config) : Prop :=
  ∀ file env t, (storageSave s).run = .ok (some file) →
    storageLoad file (initServer cfg env) = .ok (true, t) →
    t.msgCounter ≤ 4294967296

/-- A tick does not read a clock whose low 32 bits are in the tag of a stored message. -/
def TagsPass (s : EagleServer) (op : Op) : Prop :=
  Counts s op ∧ (op = .tick → ∀ q m tag expiration, Stored s q m → Bears s q m tag expiration →
    tag / 4294967296 ≠ s.env.mstime % 4294967296)

omit [Lzf] in
theorem loading_posts : Loading (Posts fun _ => True) := by
  have hsame : ∀ {s t : EagleServer}, t.queueAt = s.queueAt → t.nowTimems = s.nowTimems →
    t.msgCounter = s.msgCounter →
      Posts (fun _ => True) s t := fun h ht hc => (wanes_same h ht hc).posts
  exact
    { object := fun data => wanes_posts (answers_wanes (createObject_answers data))
      push := fun q data expiration => pushMessageQueueT_posts q data trivial
      bind := fun r q key => wanes_posts (passive_wanes.bindRouteT r q key)
      createQueue := fun name maxMsg maxMsgSize flags =>
        wanes_posts (createQueueT_wanes name maxMsg maxMsgSize flags)
      createRoute := fun name flags s => hsame rfl rfl rfl
      createChannel := fun name flags s => hsame rfl rfl rfl
      deleteQueue := fun q => wanes_posts (deleteQueueT_upheld upheld_wanes)
      deleteRoute := fun r => wanes_posts (deleteRouteT_upheld upheld_wanes)
      enlistUser := fun s user => hsame rfl rfl rfl
      enlistQueue := fun s q => hsame rfl rfl rfl
      enlistRoute := fun s r => hsame rfl rfl rfl
      enlistChannel := fun s ch => hsame rfl rfl rfl }

/-- A message that is stored after a step was stored before, or was not there. -/
theorem step_stored (hs : Reachable s) (ha : Enabled s op) (ht : step s op = .ok t) {q m : Ptr}
    (hm : Stored t q m) : Stored s q m ∨ ∀ tag expiration, ¬Bears s q m tag expiration := by
  obtain ⟨y, hy, hm⟩ := hm
  refine or_iff_not_imp_right.mpr fun hborn => ?_
  simp only [not_forall, not_not] at hborn
  obtain ⟨tag, expiration, x, msg, hx, hmsg, -⟩ := hborn
  obtain ⟨l, hl⟩ := hs.stocked q x hx
  have hlt : m < x.backlog.fresh := hl.below m (by simp [hmsg])
  exact ⟨x, hx, ((step_fate hs ha ht hx hy).new m hm).resolve_right (Nat.not_le.mpr hlt)⟩

theorem step_apart (hs : Reachable s) (hapart : Apart (Stored s) s) (ha : Enabled s op) (hop : TagsPass s op)
    (ht : step s op = .ok t) : Apart (Stored t) t := by
  have hend : ∀ {u : EagleServer} {C : ℕ → Prop}, Posts C u t → Apart (Stored s) u →
      (∀ q m tag expiration, Bears u q m tag expiration → Bears s q m tag expiration) → Apart (Stored t) t :=
    fun {u C} hposts hu hsame => (hposts.apart _ hu (hop.1 t ht)).mono fun q m tag expiration hm _ =>
      (step_stored hs ha ht hm).imp_right fun hno tag expiration hb => hno tag expiration
        (hsame q m tag expiration hb)
  rcases step_posts hs.related ha ht with hwanes | rfl | ⟨c, req, rfl, hposts⟩
  · exact hend (C := fun _ => True) hwanes.posts hapart fun _ _ _ _ hb => hb
  · refine hend (C := fun _ => True) (tick_wanes ht).posts
      ⟨fun q m tag expiration hm hb htag => ?_, hapart.apart⟩
      fun _ _ _ _ hb => hb
    exact absurd htag (hop.2 rfl q m tag expiration hm hb)
  · exact hend hposts hapart fun _ _ _ _ hb => hb

theorem Guarded.apart (h : Guarded TagsPass CountsLoaded s) : Apart (Stored s) s := by
  have hinit : ∀ cfg env G, Apart G (initServer cfg env) := fun cfg env G =>
    ⟨fun q m _ _ _ ⟨_, _, hx, _⟩ => (nomatch hx), fun q m q' m' _ _ _ _ _ ⟨_, _, hx, _⟩ => (nomatch hx)⟩
  induction h with
  | start cfg env => exact hinit cfg env _
  | step op hs ha hop ht ih => exact step_apart hs.reachable ih ha hop ht
  | @restart s t file cfg env hs hcfg hfile ht ih =>
    have hposts := ok_of_wp (Q := fun _ t => Posts (fun _ => True) _ t)
      (storageLoad_upheld loading_posts file _) ht
    refine (hposts.apart _ (hinit cfg env fun _ _ => True) (hcfg file env t hfile ht)).mono
      fun q m tag expiration _ _ =>
      .inl trivial

end Tags

/-! ### Runs of the small server -/

namespace Sample

/-- The messages of the queue `q` and their tags. -/
def tags (s : EagleServer) : Option (List (Ptr × Option ℕ)) :=
  (s.queueAt 2).map fun x => x.backlog.stored.map fun m => (m, (x.backlog.messages m).map Message.tag)

/-- The step ends with a counter of 32 bits. -/
def counts (s : EagleServer) (op : Op) : Bool :=
  (@step Lzf.stored s op).toOption.all fun t => t.msgCounter ≤ 4294967296

theorem counts_of_check {s : EagleServer} {op : Op} (h : counts s op = true) :
    @Counts Lzf.stored s op := fun t ht => by
  rw [counts, toOption_eq_some.mpr ht] at h
  simpa using h

theorem bears_of_tags {s : EagleServer} {l : List (Ptr × Option ℕ)} (h : tags s = some l) {m : Ptr} {tag : ℕ}
    (hm : (m, some tag) ∈ l) : Stored s 2 m ∧ ∃ expiration, Bears s 2 m tag expiration := by
  obtain ⟨x, hx, rfl⟩ := Option.map_eq_some_iff.mp h
  obtain ⟨n, hn, hpair⟩ := List.mem_map.mp hm
  obtain ⟨rfl, htag⟩ := Prod.mk.inj hpair
  obtain ⟨msg, hmsg, rfl⟩ := Option.map_eq_some_iff.mp htag
  exact ⟨⟨x, hx, hn⟩, msg.expiration, x, msg, hx, hmsg, rfl, rfl⟩

/-- No message that is there has the tag of a clock that a tick reads. -/
def tagsPass (s : EagleServer) (op : Op) : Bool :=
  counts s op && (!op.isTick || s.everyQueue fun x => x.backlog.stored.all fun m =>
    (x.backlog.messages m).all fun msg => msg.tag / 4294967296 ≠ s.env.mstime % 4294967296)

theorem tagsPass_of_check {s : EagleServer} {op : Op} (hs : @Reachable Lzf.stored s)
    (h : tagsPass s op = true) : @TagsPass Lzf.stored s op := by
  obtain ⟨hcounts, htick⟩ := Bool.and_eq_true_iff.mp h
  refine ⟨counts_of_check hcounts, fun he q m tag expiration hm hb => ?_⟩
  subst he
  obtain ⟨x, hx, hm⟩ := hm
  obtain ⟨y, msg, hy, hmsg, rfl, -⟩ := hb
  obtain rfl := Option.some.inj (hx.symm.trans hy)
  have hapart := List.all_eq_true.mp (@Reachable.everyQueue _ Lzf.stored _ hs _ htick _ hx) m hm
  rw [hmsg] at hapart
  exact of_decide_eq_true hapart

end Sample

/-- Tags are unambiguous in every run whose ticks read no clock that the tag of a stored
message has. -/
theorem tags_unambiguous [Lzf] {s : EagleServer} (h : Guarded TagsPass CountsLoaded s) : Unambiguous s := by
  have hapart := h.apart.apart
  have htags : ∀ q m q' m' tag expiration expiration', Stored s q m → Stored s q' m' →
    Bears s q m tag expiration →
      Bears s q' m' tag expiration' → q = q' ∧ m = m' := fun q m q' m' tag expiration expiration' =>
    hapart q m q' m' tag expiration expiration'
  refine ⟨htags, fun q m tag expiration hheld hb p x hx o ok t hrun n hn => ?_⟩
  obtain ⟨z, hz, hm⟩ := hheld
  have hstored : Stored s q m := ⟨z, hz, List.mem_append_right _ hm⟩
  obtain ⟨l, hl⟩ := h.reachable.stocked p x hx
  rcases ok_of_wp (Stock.confirmMessageQueueT_spec (E := Fault.Any) trivial hl) hrun with
    ⟨-, w, msg, hw, hmsg, htag, hs', -, hheld', -⟩ | ⟨-, rfl, hnone⟩
  · -- the message that has gone is the one with the tag
    obtain ⟨rfl, rfl⟩ := htags p w q m tag msg.expiration expiration
      ⟨x, hx, List.mem_append_right _ hw⟩ hstored
      ⟨x, msg, hx, hmsg, htag, rfl⟩ hb
    have hwait : t.backlog.queue.waiting = x.backlog.queue.waiting := by rw [hs'.waiting_eq, hl.waiting_eq]
    have hnodup := (List.nodup_append.mp hl.stored_nodup).2.1
    rw [stored, List.mem_append, hwait, hheld', hnodup.mem_erase_iff]
    have hn' := List.mem_append.mp hn
    by_cases hnw : n = w
    · subst hnw
      have hout : n ∉ x.backlog.queue.waiting := fun hwaits => hl.not_held hwaits hw
      simp [hout]
    · simp only [hnw, ne_eq, not_false_eq_true, true_and, and_false, iff_false, not_not]
      exact hn'
  · refine ⟨fun hout => absurd hn hout, fun hpm => ?_⟩
    obtain ⟨hp, hnm⟩ := hpm
    subst hp hnm
    obtain rfl := Option.some.inj (hx.symm.trans hz)
    obtain ⟨w, msg, hw, hmsg, htag, -⟩ := hb
    obtain rfl := Option.some.inj (hx.symm.trans hw)
    exact absurd htag (hnone _ hm msg hmsg)

/-- Three messages wait and one is held, after a purge and a tick whose clock no tag has. -/
theorem tags_unambiguous_held : ∃ s, Sample.places s = some ([1, 3, 6], [2]) ∧ Unambiguous s := by
  obtain ⟨s, hs, hp⟩ := Sample.exists_checked (@TagsPass Lzf.stored) (@CountsLoaded Lzf.stored)
    (fun _ _ => Sample.tagsPass_of_check)
    (Sample.declared 5 ++ Sample.traffic)
      (p := fun s => decide (Sample.places s = some ([1, 3, 6], [2]))) (by decide +kernel)
  exact ⟨s, of_decide_eq_true hp, @tags_unambiguous Lzf.stored s hs⟩

/-- A tick reads a clock that has advanced, and the counter keeps within 32 bits. -/
def Advances [Lzf] (s : EagleServer) (op : Op) : Prop :=
  Counts s op ∧ (op = .tick → s.nowTimems < s.env.mstime)

/-- A message that stays for 2 ^ 32 milliseconds gets a second one with its tag. -/
theorem not_tags_unambiguous : ∃ s, @Guarded Lzf.stored (@Advances Lzf.stored) (@CountsLoaded Lzf.stored) s ∧
    ¬Unambiguous s := by
  obtain ⟨s, hs, hp⟩ := Sample.exists_checked (@Advances Lzf.stored) (@CountsLoaded Lzf.stored)
    (c := fun s op => Sample.counts s op && (!op.isTick || decide (s.nowTimems < s.env.mstime)))
    (fun s op _ h => by
      rw [Bool.and_eq_true] at h
      refine ⟨Sample.counts_of_check h.1, ?_⟩
      rintro rfl
      simpa [Op.isTick] using h.2)
    (Sample.prepare 2000 4294969296 ++ [Sample.push 0, .tick, Sample.push 0])
    (p := fun s => decide (Sample.tags s = some [(0, some 8589934592000), (1, some 8589934592000)]))
      (by decide +kernel)
  have htags := of_decide_eq_true hp
  obtain ⟨hfirst, e, hb⟩ := Sample.bears_of_tags (m := 0) htags (.head _)
  obtain ⟨hsecond, e', hb'⟩ := Sample.bears_of_tags (m := 1) htags (.tail _ (.head _))
  refine ⟨s, hs, fun h => ?_⟩
  exact absurd (h.tags 2 0 2 1 _ _ _ hfirst hsecond hb hb').2 (by decide)

end EagleMQ
