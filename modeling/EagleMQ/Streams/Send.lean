import EagleMQ.Streams

/-! The streams over `send_response` and over whole runs. The bytes that `write` takes
are what `send_response` is run with in addition; runs are those of the server, with
responses of any data appended at any time. -/

namespace EagleMQ

open Prog Outbox

/-- `sendResponse`, with the bytes that have been written. -/
def sendBytes (c : Ptr) (sent : Bool) : List Written → ServerM (List Byte)
  | [] => do
    dropEmpty c (← getClient c).responses
    finishSend c sent
    pure []
  | w :: ws => do
    dropEmpty c (← getClient c).responses
    let x ← getClient c
    match x.responses, w with
    | [], _ => do
      finishSend c sent
      pure []
    | _ :: _, .again => do
      finishSend c sent
      pure []
    | _ :: _, .failed => do
      freeClient c
      pure []
    | o :: _, .bytes n => do
      let object ← Prog.lift (Objects.find (← get).objects o)
      let n := min n (object.size - x.sentlen)
      if n = 0 then do
        finishSend c sent
        pure []
      else do
        if x.sentlen + n = object.size then
          dropResponse c
          modifyClient c fun x => { x with sentlen := 0 }
        else
          modifyClient c fun x => { x with sentlen := x.sentlen + n }
        let rest ← sendBytes c true ws
        pure ((object.data.drop x.sentlen).take n ++ rest)

/-- The bytes are all that is added. -/
theorem sendBytes_eq (c : Ptr) (ws : List Written) :
    ∀ sent, sendResponse c sent ws = (do let _ ← sendBytes c sent ws; pure ()) := by
  induction ws with
  | nil => intro sent; simp [sendResponse, sendBytes]
  | cons w ws ih =>
    intro sent
    simp only [sendResponse, sendBytes, objectSize, bind_assoc, pure_bind, ih]
    refine bind_congr fun x => bind_congr fun _ => bind_congr fun y => ?_
    cases y.responses with
    | nil => simp only [bind_assoc, pure_bind, bind_pure_unit]
    | cons o l =>
      cases w with
      | again => simp only [bind_assoc, pure_bind, bind_pure_unit]
      | failed => simp only [bind_assoc, pure_bind, bind_pure_unit]
      | bytes n =>
        simp only [bind_assoc]
        refine bind_congr fun s => bind_congr fun z => ?_
        split_ifs <;> simp only [bind_assoc, pure_bind, bind_pure_unit]

theorem sendBytes_ok {s t : EagleServer} {c : Ptr} {sent : Bool} {ws : List Written}
    (h : sendResponse c sent ws s = .ok ((), t)) : ∃ out, sendBytes c sent ws s = .ok (out, t) := by
  rw [sendBytes_eq] at h
  change (sendBytes c sent ws s).bind (fun r => .ok ((), r.2)) = .ok ((), t) at h
  cases hrun : sendBytes c sent ws s with
  | error e =>
    rw [hrun] at h
    exact nomatch h
  | ok r =>
    rw [hrun] at h
    obtain ⟨out, u⟩ := r
    obtain rfl := (Prod.mk.inj (Except.ok.inj h)).2
    exact ⟨out, rfl⟩

section Send

variable {w : Ptr → List Byte} {s t : EagleServer} {c o : Ptr} {l : List Ptr} {x y : EagleClient} {z : Object}
  {written : List Byte}

theorem wp_getClient_any {Q : EagleClient → EagleServer → Prop} (h : ∀ x, s.clientAt c = some x → Q x s) :
    wp (getClient c) Q Fault.Any s := by
  cases hx : s.clientAt c with
  | none => simp [getClient, hx, Fault.Any]
  | some x =>
    rw [wp_getClient hx]
    exact h x hx

theorem wp_find_any {Q : Object → EagleServer → Prop} (h : ∀ z, s.objects o = some z → Q z s) :
    wp (Prog.lift (Objects.find s.objects o)) Q Fault.Any s := by
  cases hz : s.objects o with
  | none => simp [Objects.find, hz, Fault.Any]
  | some z => simpa [Objects.find, hz] using h z hz

/-! ### One response -/

/-- A client that is busy gets another buffer. -/
theorem Streaming.replace (h : Streaming (· = c) w s) (hc : c < s.fresh) (hbuffer : Buffered s y written)
    (hy : y.responses ≠ [] → y.writable = true) :
    Streaming (· = c) (Function.update w c written) (s.setClient c y) := by
  have hset : ∀ {d v}, (s.setClient c y).clientAt d = some v → (d = c ∧ v = y) ∨ d ≠ c ∧
      s.clientAt d = some v :=
    fun {d v} hv => by
      by_cases hd : d = c
      · subst hd
        rw [EagleServer.setClient_clientAt] at hv
        exact .inl ⟨rfl, (Option.some.inj hv).symm⟩
      · exact .inr ⟨hd, by simpa [EagleServer.setClient, hd] using hv⟩
  refine ⟨h.below, fun d hd => ?_, fun d v hv => ?_, fun d v hv hr => ?_, fun d v hv hw => ?_⟩
  · rw [Function.update_of_ne (Nat.ne_of_gt (Nat.lt_of_lt_of_le hc hd))]
    exact h.silent d hd
  · obtain ⟨rfl, rfl⟩ | ⟨hd, hv⟩ := hset hv
    · rw [Function.update_self]
      exact hbuffer
    · rw [Function.update_of_ne hd]
      exact h.buffer d v hv
  · obtain ⟨rfl, rfl⟩ | ⟨hd, hv⟩ := hset hv
    · exact hy hr
    · exact h.writable d v hv hr
  · obtain ⟨rfl, rfl⟩ | ⟨hd, hv⟩ := hset hv
    · exact .inl rfl
    · exact h.idle d v hv hw

/-- The event of the client is as its responses are. -/
theorem Streaming.settle (h : Streaming (· = c) w s) (hx : s.clientAt c = some x)
    (hc : x.writable = true → x.responses ≠ []) : Streaming (fun _ => False) w s := by
  refine ⟨h.below, h.silent, h.buffer, h.writable, fun d v hv hw => .inr ?_⟩
  rcases h.idle d v hv hw with rfl | hr
  · obtain rfl := Option.some.inj (hx.symm.trans hv)
    exact hc hw
  · exact hr

theorem Streaming.open (h : Streaming (fun _ => False) w s) (c : Ptr) : Streaming (· = c) w s :=
  ⟨h.below, h.silent, h.buffer, h.writable, fun d v hv hw => .inr ((h.idle d v hv hw).resolve_left id)⟩

theorem wp_dropResponse {Q : Unit → EagleServer → Prop} (hx : s.clientAt c = some x)
    (hr : x.responses = o :: l)
    (hQ : ∀ z, s.objects o = some z → Q () { s.setClient c { x with responses := l } with
      objects := Function.update s.objects o z.dropped }) : wp (dropResponse c) Q Fault.Any s := by
  rw [dropResponse, wp_bind, wp_getClient hx, hr, wp_bind]
  exact wp_modifyClient ⟨x, hx, wp_decrement_any hQ⟩

/-- The first response goes, and the buffer is that of the others. -/
theorem Streaming.dropped (h : Streaming (· = c) w s) (hx : s.clientAt c = some x) (hc : c < s.fresh)
    (hr : x.responses = o :: l) (hz : s.objects o = some z) {n : ℕ} {chunks : List (List Byte)}
    (hshow : List.Forall₂ (Shows s) l chunks) (haccount : Account x.history written chunks n) :
    Streaming (· = c) (Function.update w c written)
      { s.setClient c { x with responses := l, sentlen := n } with
      objects := Function.update s.objects o z.dropped } := by
  have hwr : x.writable = true := h.writable c x hx (by simp [hr])
  have hset := h.replace (y := { x with responses := l, sentlen := n }) hc ⟨chunks, hshow, haccount⟩
    fun _ => hwr
  exact Steady.flowing (s := s.setClient c { x with responses := l, sentlen := n })
    (steady_object hz fun _ hv => Object.dropped_data hv) hset

/-! ### A call -/

theorem finishSend_streams (h : Streaming (· = c) w s) (hc : c < s.fresh) (sent : Bool) :
    wp (finishSend c sent) (fun _ t => Streaming (fun _ => False) w t) Fault.Any s := by
  have hend : ∀ {s}, Streaming (· = c) w s → c < s.fresh → wp (do
      if (← getClient c).responses = [] then
        modifyClient c fun x => { x with sentlen := 0, writable := false } : ServerM Unit)
      (fun _ t => Streaming (fun _ => False) w t) Fault.Any s := fun {s} h hc => by
    rw [wp_bind]
    refine wp_getClient_any fun x hx => wp_ite (fun hr => wp_modifyClient ⟨x, hx, ?_⟩) fun hr =>
      h.settle hx fun _ => hr
    obtain ⟨chunks, hshow, haccount⟩ := h.buffer c x hx
    rw [hr] at hshow
    cases hshow
    rw [haccount.offset_nil] at haccount
    have hbuffer : Buffered s { x with sentlen := 0, writable := false } (w c) :=
      ⟨[], by rw [hr]; exact .nil, haccount⟩
    have hset := h.replace hc hbuffer fun hne => absurd hr hne
    rw [Function.update_eq_self] at hset
    exact hset.settle (EagleServer.setClient_clientAt ..) fun hw => absurd hw Bool.false_ne_true
  rw [finishSend, wp_bind, wp_get]
  refine wp_ite (fun _ => ?_) fun _ => hend h hc
  rw [wp_bind]
  exact wp_mono (modifyClient_steady (f := fun x => { x with lastAction := s.env.time }) (fun _ => rfl) s)
    (fun _ t ht => hend (ht.flowing h) (Nat.lt_of_lt_of_le hc ht.fresh)) fun _ h => h

/-- The responses without bytes go. -/
theorem dropEmpty_streams : ∀ {l : List Ptr} {s : EagleServer} {x : EagleClient}, Streaming (· = c) w s →
    s.clientAt c = some x → c < s.fresh → x.responses = l →
    wp (dropEmpty c l) (fun _ t => Streaming (· = c) w t ∧ c < t.fresh) Fault.Any s
  | [], _, _, h, _, hc, _ => ⟨h, hc⟩
  | o :: l, s, x, h, hx, hc, hr => by
    rw [dropEmpty, wp_bind, objectSize, wp_bind, wp_get, wp_bind]
    refine wp_find_any fun z hz => wp_ite (fun hsize => ?_) fun _ => ⟨h, hc⟩
    rw [wp_bind]
    refine wp_dropResponse hx hr fun z' hz' => ?_
    obtain rfl := Option.some.inj (hz.symm.trans hz')
    obtain ⟨chunks, hshow, haccount⟩ := h.buffer c x hx
    rw [hr] at hshow
    cases hshow with
    | cons ho hrest =>
      rename_i d ds
      have hd : d = [] := (ho.2 z hz).symm.trans (List.length_eq_zero_iff.mp hsize)
      subst hd
      have hdrop := h.dropped hx hc hr hz hrest haccount.skip
      rw [Function.update_eq_self] at hdrop
      exact dropEmpty_streams (x := { x with responses := l }) hdrop
        (EagleServer.setClient_clientAt ..) hc rfl

/-- The buffers after a call, with what it has written. -/
theorem sendBytes_streams (ws : List Written) : ∀ {w : Ptr → List Byte} {s : EagleServer} (sent : Bool),
    Streaming (· = c) w s → c < s.fresh → wp (sendBytes c sent ws)
      (fun out t => Streaming (fun _ => False) (Function.update w c (w c ++ out)) t) Fault.Any s := by
  have hfinish : ∀ {w s} (sent : Bool), Streaming (· = c) w s → c < s.fresh →
      wp (do finishSend c sent; pure [])
      (fun out t => Streaming (fun _ => False) (Function.update w c (w c ++ out)) t)
        Fault.Any s := fun sent h hc => by
    rw [wp_bind]
    refine wp_mono (finishSend_streams h hc sent) (fun _ t ht => ?_) fun _ h => h
    show Streaming _ (Function.update _ c (_ ++ [])) t
    rwa [List.append_nil, Function.update_eq_self]
  induction ws with
  | nil =>
    intro w s sent h hc
    rw [sendBytes, wp_bind]
    refine wp_getClient_any fun x hx => ?_
    rw [wp_bind]
    exact wp_mono (dropEmpty_streams h hx hc rfl) (fun _ t ⟨ht, hct⟩ => hfinish sent ht hct) fun _ h => h
  | cons v ws ih =>
    intro w s sent h hc
    rw [sendBytes, wp_bind]
    refine wp_getClient_any fun x hx => ?_
    rw [wp_bind]
    refine wp_mono (dropEmpty_streams h hx hc rfl) (fun _ t ⟨ht, hct⟩ => ?_) fun _ h => h
    rw [wp_bind]
    refine wp_getClient_any fun y hy => ?_
    cases hr : y.responses with
    | nil => exact hfinish sent ht hct
    | cons o l =>
      cases v with
      | again => exact hfinish sent ht hct
      | failed =>
        rw [wp_bind]
        have hfree : Keeps (Flowing (fun _ => False) w) Fault.Any (freeClient c) := freeClient_flowing c
        refine wp_mono (hfree t) (fun _ u hu => ?_) fun _ h => h
        show Streaming _ (Function.update _ c (_ ++ [])) u
        rw [List.append_nil, Function.update_eq_self]
        exact hu (ht.settle hy fun _ => by simp [hr])
      | bytes n =>
        rw [wp_bind, wp_get, wp_bind]
        refine wp_find_any fun z hz => wp_ite (fun _ => hfinish sent ht hct) fun hn => ?_
        -- the rest of the call, once the bytes are counted
        have hrest : ∀ {u}, Streaming (· = c) (Function.update w c (w c ++ (z.data.drop y.sentlen).take
            (min n (z.size - y.sentlen)))) u → c < u.fresh → wp (do
              let rest ← sendBytes c true ws
              pure ((z.data.drop y.sentlen).take (min n (z.size - y.sentlen)) ++ rest))
            (fun out t => Streaming (fun _ => False) (Function.update w c (w c ++ out)) t) Fault.Any
              u := fun hu hcu => by
          rw [wp_bind]
          refine wp_mono (ih true hu hcu) (fun out v hv => ?_) fun _ h => h
          rwa [Function.update_idem, Function.update_self, List.append_assoc] at hv
        obtain ⟨chunks, hshow, haccount⟩ := ht.buffer c y hy
        rw [hr] at hshow
        cases hshow with
        | cons ho htail =>
          rename_i d ds
          obtain rfl := ho.2 z hz
          refine wp_ite (fun hall => ?_) fun hpart => ?_
          · rw [wp_bind]
            refine wp_dropResponse hy hr fun z' hz' => ?_
            obtain rfl := Option.some.inj (hz.symm.trans hz')
            rw [wp_bind]
            refine wp_modifyClient ⟨_, EagleServer.setClient_clientAt .., ?_⟩
            have hdrop := ht.dropped hy hct hr hz htail (haccount.finish hall)
            refine hrest ?_ hct
            simpa only [EagleServer.setClient, Function.update_idem] using hdrop
          · rw [wp_bind]
            refine wp_modifyClient ⟨y, hy, hrest ?_ hct⟩
            have hsize : z.size = z.data.length := rfl
            have hlt : y.sentlen + min n (z.size - y.sentlen) < z.data.length := by omega
            refine ht.replace hct ⟨z.data :: ds, ?_, haccount.advance hlt⟩ fun _ =>
              ht.writable c y hy (by simp [hr])
            exact hr ▸ .cons ho htail

end Send

/-! ### Runs -/

section Runs

variable [Lzf]

/-- The bytes that an event writes to the clients. -/
def Op.written (s : EagleServer) : Op → Ptr → List Byte
  | .send c results =>
    Function.update (fun _ => []) c ((sendBytes c false results s).toOption.elim [] Prod.fst)
  | _ => fun _ => []

/-- The states of a server with the bytes that have been written to each client. Besides
what the server answers, any response may be appended at any time. -/
inductive Streams : EagleServer → (Ptr → List Byte) → Prop
  | start (cfg : Config) (env : Env) : Streams (initServer cfg env) fun _ => []
  | step {s t : EagleServer} {w : Ptr → List Byte} (op : Op) (hs : Streams s w) (ha : Enabled s op)
      (ht : EagleMQ.step s op = .ok t) : Streams t fun c => w c ++ op.written s c
  | respond {s t : EagleServer} {w : Ptr → List Byte} (c : Ptr) (data : List Byte)
      (hs : Streams s w) (hc : c ∈ s.clients)
      (ht : addResponse c data s = .ok ((), t)) : Streams t w
  | share {s t : EagleServer} {w : Ptr → List Byte} (c o : Ptr) (hs : Streams s w) (hc : c ∈ s.clients)
      (ht : addObjectResponse c o s = .ok ((), t)) : Streams t w
  | restart {s t : EagleServer} {w : Ptr → List Byte} {file : List Byte} (cfg : Config) (env : Env)
      (hs : Streams s w)
      (hfile : (storageSave s).run = .ok (some file))
      (ht : storageLoad file (initServer cfg env) = .ok (true, t)) : Streams t fun _ => []

variable {s t : EagleServer} {w : Ptr → List Byte} {c : Ptr} {x : EagleClient}

omit [Lzf] in
theorem initServer_streaming (cfg : Config) (env : Env) :
    Streaming (fun _ => False) (fun _ => []) (initServer cfg env) where
  below _ ho := absurd rfl ho
  silent _ _ := rfl
  buffer _ _ hx := nomatch hx
  writable _ _ hx := nomatch hx
  idle _ _ hx := nomatch hx

omit [Lzf] in
theorem loading_flowing {busy : Ptr → Prop} : Loading (Flowing busy w) where
  object data := steady_flowing (createObject_steady data)
  push q data expiration := pushMessageQueueT_flowing q data expiration
  bind r q key := steady_flowing (still_steady (bindRouteT_still q r key))
  createQueue name maxMsg maxMsgSize flags :=
    steady_flowing (createQueueT_steady name maxMsg maxMsgSize flags)
  createRoute name flags := steady_flowing (still_steady (createRouteT_still name flags))
  createChannel name flags := steady_flowing (still_steady (createChannelT_still name flags))
  deleteQueue _ := deleteQueueT_upheld upheld_flowing
  deleteRoute r := steady_flowing (still_steady (deleteRouteT_still r))
  enlistUser _ _ := same_flowing rfl rfl (Nat.le_refl _)
  enlistQueue _ _ := same_flowing rfl rfl (Nat.le_refl _)
  enlistRoute _ _ := same_flowing rfl rfl (Nat.le_refl _)
  enlistChannel _ _ := same_flowing rfl rfl (Nat.le_refl _)

theorem step_streaming {op : Op} (h : Related .none s) (hs : Streaming (fun _ => False) w s)
    (ha : Enabled s op)
    (ht : EagleMQ.step s op = .ok t) : Streaming (fun _ => False) (fun c => w c ++ op.written s c) t := by
  have hrun := step_eq_ok.mp ht
  have hkeeps : Keeps (Flowing (fun _ => False) w) Fault.Any op.run →
      Streaming (fun _ => False) w t := fun hm =>
    ok_of_wp (Q := fun _ t => Flowing (fun _ => False) w s t) (hm s) hrun hs
  have hsilent : ∀ {v : Ptr → List Byte}, v = (fun _ => []) → Streaming (fun _ => False) w t →
      Streaming (fun _ => False) (fun c => w c ++ v c) t := fun hv h => by
    simpa only [hv, List.append_nil] using h
  cases op with
  | environment env =>
    exact hsilent rfl (hkeeps (steady_flowing
      (modify_steady (fun _ => rfl) (fun _ => rfl) fun _ => Nat.le_refl _)))
  | connect fd => exact hsilent rfl (hkeeps (acceptClient_upheld upheld_flowing createClient_flowing
      (fun s c => (freed_steady s c).flowing) fd))
  | receive c =>
    exact hsilent rfl (hkeeps (keeps_bind keeps_get fun _ => steady_flowing
      (modifyClient_steady fun _ => rfl)))
  | request c req =>
    obtain ⟨x, hx⟩ := client_alive.mp (h.consistent.clients.alive ha.1)
    obtain ⟨noack, m, he, hm⟩ := parseCommand_effect req h hx
    have hrun' : m (s.setClient c { x with noack := noack }) = .ok ((), t) := hm ▸ hrun
    have hset : Steady s (s.setClient c { x with noack := noack }) := steady_setClient hx rfl
    exact hsilent rfl (ok_of_wp (Q := fun _ t => Flowing (fun _ => False) w _ t)
      (he.flowing _) hrun' (hset.flowing hs))
  | malformed c => exact hsilent rfl (hkeeps (addStatusResponse_flowing c 0 _))
  | send c results =>
    have hc : c < s.fresh := h.below.clients c (h.consistent.clients.alive ha.1)
    obtain ⟨out, hout⟩ := sendBytes_ok hrun
    have hstream := ok_of_wp (sendBytes_streams results false (hs.open c) hc) hout
    have hw : (fun d => w d ++ Op.written s (.send c results) d) = Function.update w c
        (w c ++ out) := funext fun d => by
      by_cases hd : d = c
      · subst hd
        simp [Op.written, hout, Except.toOption]
      · simp [Op.written, hd]
    rwa [hw]
  | close c => exact hsilent rfl (hkeeps (freeClient_flowing c))
  | tick => exact hsilent rfl (hkeeps serverUpdater_flowing)

/-- What holds of every run. -/
structure StreamState (s : EagleServer) (w : Ptr → List Byte) : Prop where
  related : Related .none s
  tally : Tally False allEven s
  streaming : Streaming (fun _ => False) w s

theorem Streams.state (h : Streams s w) : StreamState s w := by
  induction h with
  | start cfg env =>
    exact ⟨initServer_related cfg env, initServer_tally cfg env, initServer_streaming cfg env⟩
  | step op _ ha ht ih =>
    exact ⟨step_related ih.related ha ht, step_tally ih.related ha ht False.elim False.elim ih.tally,
      step_streaming ih.related ih.streaming ha ht⟩
  | respond c data _ hc ht ih =>
    exact ⟨ih.related.frame (ok_of_wp (Q := fun _ t => Frame _ t)
        (addResponse_frame data (ih.related.consistent.clients.alive hc)) ht),
      ok_of_wp (Q := fun _ t => Holding False allEven _ t) (addResponse_holding c data _) ht ih.tally,
      ok_of_wp (Q := fun _ t => Flowing (fun _ => False) _ _ t) (addResponse_flowing c data _) ht
        ih.streaming⟩
  | share c o _ hc ht ih =>
    exact ⟨ih.related.frame (ok_of_wp (Q := fun _ t => Frame _ t)
        (addObjectResponse_frame o (ih.related.consistent.clients.alive hc)) ht),
      ok_of_wp (Q := fun _ t => Holding False allEven _ t) (addObjectResponse_holding c o _) ht ih.tally,
      ok_of_wp (Q := fun _ t => Flowing (fun _ => False) _ _ t) (addObjectResponse_flowing c o _) ht
        ih.streaming⟩
  | restart cfg env _ _ ht _ =>
    exact ⟨ok_of_wp (Q := fun _ t => Related .none t) (storageLoad_relates _ (initServer_related cfg env)) ht,
      storageLoad_tally ht,
      ok_of_wp (Q := fun _ t => Flowing (fun _ => False) _ _ t) (storageLoad_upheld loading_flowing _ _) ht
        (initServer_streaming cfg env)⟩

omit [Lzf] in
/-- The data of the responses of a client. -/
def EagleServer.chunks (s : EagleServer) (x : EagleClient) : List (List Byte) :=
  x.responses.map fun o => (s.objects o).elim [] Object.data

omit [Lzf] in
theorem map_shows {l : List Ptr} {chunks : List (List Byte)} (h : List.Forall₂ (Shows s) l chunks)
    (hl : ∀ o ∈ l, ∃ z, s.objects o = some z) :
    (l.map fun o => (s.objects o).elim [] Object.data) = chunks := by
  induction h with
  | nil => rfl
  | cons ho _ ih =>
    obtain ⟨z, hz⟩ := hl _ (.head _)
    rw [List.map_cons, ih fun o ho => hl o (.tail _ ho), hz]
    exact congrArg (· :: _) (ho.2 z hz)

omit [Lzf] in
/-- Every response is there with its data. -/
theorem StreamState.chunks (h : StreamState s w) (hx : s.clientAt c = some x) :
    (∀ o ∈ x.responses, s.objects o ≠ none) ∧ Account x.history (w c) (s.chunks x) x.sentlen := by
  have halive : ∀ o ∈ x.responses, ∃ z, s.objects o = some z := fun o ho => by
    refine h.tally.alive (Nat.lt_of_lt_of_le (List.count_pos_iff.mpr ho) ?_)
    exact Nat.le_trans (Heap.le_sum (f := fun x : EagleClient => x.responses.count o) hx
      (h.tally.clients c (by simp [hx])))
      (Nat.le_add_left _ _)
  refine ⟨fun o ho => ?_, ?_⟩
  · obtain ⟨z, hz⟩ := halive o ho
    simp [hz]
  · obtain ⟨chunks, hshow, haccount⟩ := h.streaming.buffer c x hx
    have hchunks : s.chunks x = chunks := map_shows hshow halive
    exact hchunks ▸ haccount

/-- The bytes written to a client are the first of those appended for it, and the rest
waits in its responses, the first of which may have been sent in part. -/
theorem partial_writes_exact (h : Streams s w) (hx : s.clientAt c = some x) :
    w c <+: x.history.flatten ∧ x.history.flatten = w c ++ rest (s.chunks x) x.sentlen ∧
      (∀ o ∈ x.responses, s.objects o ≠ none) ∧ (x.writable = true ↔ x.responses ≠ []) :=
  have hchunks := h.state.chunks hx
  ⟨hchunks.2.isPrefix, hchunks.2.total, hchunks.1,
    fun hw => (h.state.streaming.idle c x hx hw).resolve_left id,
    h.state.streaming.writable c x hx⟩

/-- `replay`, with the bytes written to the clients. -/
def replayWritten (s : EagleServer) (w : Ptr → List Byte) : List Op → Option (EagleServer × (Ptr → List Byte))
  | [] => some (s, w)
  | op :: ops =>
    if Enabled s op then (step s op).toOption.bind fun t =>
      replayWritten t (fun c => w c ++ op.written s c) ops else none

theorem Streams.replay {r : EagleServer × (Ptr → List Byte)} {ops : List Op} (hs : Streams s w)
    (hr : replayWritten s w ops = some r) : Streams r.1 r.2 := by
  induction ops generalizing s w with
  | nil => exact Option.some.inj hr ▸ hs
  | cons op ops ih =>
    unfold replayWritten at hr
    split_ifs at hr with ha
    obtain ⟨u, hu, hr⟩ := Option.bind_eq_some_iff.mp hr
    exact ih (hs.step op ha (Prog.toOption_eq_some.mp hu)) hr

omit [Lzf] in
/-- The first response has been written in two parts, the second one in part. -/
theorem partial_writes_exact_sent : ∃ (s : EagleServer) (w : Ptr → List Byte) (x : EagleClient),
    s.clientAt 0 = some x ∧ (w 0).length = 11 ∧ x.sentlen = 3 ∧
    w 0 <+: x.history.flatten ∧ x.history.flatten = w 0 ++ rest (s.chunks x) x.sentlen ∧
      (∀ o ∈ x.responses, s.objects o ≠ none) ∧ (x.writable = true ↔ x.responses ≠ []) := by
  have hrun : (@replayWritten Lzf.stored Sample.server (fun _ => [])
    (Sample.login 0 ++ [.send 0 [.bytes 5, .bytes 3],
      .request 0 (.frame Cmd.ping []), .send 0 [.bytes 3, .again]])).any (fun r =>
        decide ((r.2 0).length = 11) && (r.1.clientAt 0).any fun x => decide (x.sentlen = 3)) =
          true := by decide +kernel
  obtain ⟨⟨s, w⟩, hr, hp⟩ := (Option.any_eq_true ..).mp hrun
  obtain ⟨hlen, hx⟩ := Bool.and_eq_true_iff.mp hp
  obtain ⟨x, hx, hsent⟩ := (Option.any_eq_true ..).mp hx
  have hs := @Streams.replay Lzf.stored _ _ _ _ (@Streams.start Lzf.stored Sample.config Sample.env) hr
  exact ⟨s, w, x, hx, of_decide_eq_true hlen, of_decide_eq_true hsent,
    @partial_writes_exact Lzf.stored _ _ _ _ hs hx⟩

end Runs

end EagleMQ
