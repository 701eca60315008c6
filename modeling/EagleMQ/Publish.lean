import EagleMQ.Push

/-! What publishing a message does to a channel and to its subscribers, exactly: who
is told what, with which strings in the event, and what is left of the subscriptions. -/

namespace EagleMQ

open Prog

/-! ### The strings of an event -/

/-- The buffer after a string and its terminator have been copied into it. -/
def inscribe (buffer : List Byte) (x : ℕ × Name) : List Byte :=
  buffer.take x.1 ++ x.2 ++ 0 :: buffer.drop (x.1 + x.2.length + 1)

def inscribed (n : ℕ) (l : List (ℕ × Name)) : List Byte := l.foldl inscribe (List.replicate n 0)

/-- The field of `n` bytes at `i` has the string, with its terminator if there is room for it. -/
def Spells (body : List Byte) (i n : ℕ) (str : Name) : Prop := (str ++ [0]).take n <+: body.drop i

section Strings

variable {buffer body : List Byte} {i j n : ℕ} {str str' : Name} {l : List (ℕ × Name)}

theorem inscribe_length (h : i + str.length < buffer.length) :
    (inscribe buffer (i, str)).length = buffer.length := by
  simp only [inscribe, List.length_append, List.length_take, List.length_cons, List.length_drop]
  omega

/-- The copies succeed when every string ends inside the buffer. -/
theorem copyStrings_fold (h : ∀ x ∈ l, x.1 + x.2.length < buffer.length) :
    l.foldlM (fun buffer x => copyString buffer x.1 x.2) buffer = .ok (l.foldl inscribe buffer) := by
  induction l generalizing buffer with
  | nil => rfl
  | cons x l ih =>
    have hx := h x (by simp)
    rw [List.foldlM_cons, List.foldl_cons, copyString, if_neg (by omega)]
    refine ih fun y hy => ?_
    rw [show buffer.take x.1 ++ x.2 ++ 0 :: buffer.drop (x.1 + x.2.length + 1) =
      inscribe buffer (x.1, x.2) from rfl,
      inscribe_length hx]
    exact h y (by simp [hy])

theorem copyStrings_fits (h : copyStrings n l = .ok body) : ∀ x ∈ l, x.1 + x.2.length < n := by
  have hfold : ∀ (l : List (ℕ × Name)) (buffer body : List Byte),
      l.foldlM (fun buffer x => copyString buffer x.1 x.2) buffer = .ok body →
      ∀ x ∈ l, x.1 + x.2.length < buffer.length := by
    intro l
    induction l with
    | nil => simp
    | cons x l ih =>
      intro buffer body h
      rw [List.foldlM_cons, copyString] at h
      split_ifs at h with hlen
      · cases h
      · have hx : x.1 + x.2.length < buffer.length := by omega
        have := ih _ _ h
        rw [show buffer.take x.1 ++ x.2 ++ 0 :: buffer.drop (x.1 + x.2.length + 1) =
          inscribe buffer (x.1, x.2) from rfl,
          inscribe_length hx] at this
        simpa [hx] using this
  rw [copyStrings] at h
  simpa using hfold l _ _ h

theorem copyStrings_eq_ok (h : ∀ x ∈ l, x.1 + x.2.length < n) : copyStrings n l = .ok (inscribed n l) := by
  rw [copyStrings]
  exact copyStrings_fold (by simpa using h)

theorem spells_inscribe (h : i ≤ buffer.length) : Spells (inscribe buffer (i, str)) i n str := by
  have hdrop : (inscribe buffer (i, str)).drop i = (str ++ [0]) ++ buffer.drop (i + str.length + 1) := by
    rw [inscribe, List.append_assoc, List.drop_append_of_le_length (by simp [h]), List.drop_take]
    simp
  rw [Spells, hdrop]
  exact (List.take_prefix _ _).trans (List.prefix_append _ _)

/-- A string that is copied behind a field leaves it alone. -/
theorem Spells.inscribe (h : Spells buffer i n str) (hij : i + n ≤ j) (hj : j ≤ buffer.length) :
    Spells (inscribe buffer (j, str')) i n str := by
  have htake : (EagleMQ.inscribe buffer (j, str')).take j = buffer.take j := by
    rw [EagleMQ.inscribe, List.append_assoc, List.take_append_of_le_length (by simp [hj]),
      List.take_take, min_self]
  have hcut : ∀ b : List Byte, (b.drop i).take n = ((b.take j).take (i + n)).drop i := fun b => by
    rw [List.take_take, min_eq_left hij, List.drop_take, Nat.add_sub_cancel_left]
  have hfield : ((EagleMQ.inscribe buffer (j, str')).drop i).take n = (buffer.drop i).take n := by
    rw [hcut, hcut, htake]
  have hlen : ((str ++ [0]).take n).length ≤ n := by simp
  have hpre : (str ++ [0]).take n <+: (buffer.drop i).take n :=
    List.prefix_take_iff.mpr ⟨h, hlen⟩
  exact (hfield ▸ hpre).trans (List.take_prefix _ _)

end Strings

/-! ### Events -/

/-- The two events of a channel differ in the command and in the strings behind the name. -/
def channelEvent (cmd : Byte) (n : ℕ) (strings : List (ℕ × Name)) (c ch msg : Ptr) : ServerM Unit := do
  let size ← objectSize msg
  let x ← getChannel ch
  let body ← Prog.lift (copyStrings n ((0, x.cName) :: strings))
  addResponse c (eventHeader cmd eventMessage (n + size) ++ body)
  addObjectResponse c msg

theorem channelClientEventMessage_eq (c ch : Ptr) (topic : Name) (msg : Ptr) :
    channelClientEventMessage c ch topic msg = channelEvent Cmd.channelSubscribe 96
      [(64, topic)] c ch msg := rfl

theorem channelClientEventPatternMessage_eq (c ch : Ptr) (topic pattern : Name) (msg : Ptr) :
    channelClientEventPatternMessage c ch topic pattern msg =
      channelEvent Cmd.channelPsubscribe 128 [(64, topic), (96, pattern)] c ch msg := rfl

/-- The two responses of an event. -/
def eventOf (cmd : Byte) (n : ℕ) (strings : List (ℕ × Name)) (payload : List Byte) : List (List Byte) :=
  [eventHeader cmd eventMessage (n + payload.length) ++ inscribed n strings, payload]

/-- The strings end inside a buffer of `n` bytes. -/
def FitIn (n : ℕ) (strings : List (ℕ × Name)) : Prop := ∀ x ∈ strings, x.1 + x.2.length < n

/-- What an event needs: its channel, its client, and a payload that can be referred to `k`
times more. -/
structure Ready (ch msg : Ptr) (name : Name) (members : Set Ptr) (k : ℕ) (s : EagleServer) : Prop where
  channel : ∃ x, s.channelAt ch = some x ∧ x.cName = name
  clients : ∀ c ∈ members, ∃ w, s.clientAt c = some w
  below : msg < s.fresh
  object : ∃ z, s.objects msg = some z ∧ z.refcount ≠ 0 ∧ z.refcount + k < 4294967296

section Events

variable {s t : EagleServer} {c ch msg : Ptr} {x : ChannelT} {cmd : Byte} {n k : ℕ} {name : Name}
  {strings : List (ℕ × Name)} {payload : List Byte} {members : Set Ptr} {l : List Ptr}
    {f : Ptr → List (List Byte)}

theorem Tells.channelAt (h : Tells f s t) : t.channelAt = s.channelAt :=
  show t.unheard.channelAt = s.unheard.channelAt by rw [h.frame]

theorem shared_objects {w : EagleClient} {o : Ptr} {z : Object} : (s.shared c w o z).objects o =
    if w.registers s.env then some { z with refcount := z.refcount + 1 } else if z.refcount =
      0 then none else some z :=
  Function.update_self ..

theorem channelEvent_tells (c : Ptr) (hx : s.channelAt ch = some x) (ho : Carries msg payload s) :
    wp (channelEvent cmd n strings c ch msg)
      (fun _ t => Tells (only c (eventOf cmd n ((0, x.cName) :: strings) payload)) s t ∧
      FitIn n ((0, x.cName) :: strings)) Fault.Any s := by
  rw [channelEvent, wp_bind, objectSize, wp_bind, wp_get, wp_bind]
  cases hz : s.objects msg with
  | none => simp [Objects.find, hz, Fault.Any]
  | some z =>
    obtain rfl := ho.2 z hz
    simp only [Objects.find, hz, wp_lift_ok, wp_pure]
    rw [wp_bind, wp_getChannel hx, wp_bind]
    cases hbody : copyStrings n ((0, x.cName) :: strings) with
    | error e => exact trivial
    | ok body =>
      have hfits := copyStrings_fits hbody
      obtain rfl := Except.ok.inj ((copyStrings_eq_ok hfits).symm.trans hbody)
      rw [wp_lift_ok, wp_bind]
      refine wp_mono (addResponse_tells c _ s) (fun _ t ht => ?_) fun _ h => h
      refine wp_mono (addObjectResponse_tells c (ht.carries ho))
        (fun _ u hu => ⟨(ht.trans hu).congr fun c' => ?_, hfits⟩)
        fun _ h => h
      by_cases hc : c' = c <;> simp [only, hc, eventOf, Object.size]

/-- An event for a member can be made, and uses up one reference. -/
theorem channelEvent_ready (h : Ready ch msg name members (k + 1) s) (hc : c ∈ members)
    (hfits : FitIn n ((0, name) :: strings)) :
    wp (channelEvent cmd n strings c ch msg) (fun _ t => Ready ch msg name members k t)
      (fun _ => False) s := by
  obtain ⟨x, hx, rfl⟩ := h.channel
  obtain ⟨z, hz, hlive, hroom⟩ := h.object
  obtain ⟨w, hw⟩ := h.clients c hc
  have hclients : ∀ u : EagleServer, (∀ c', c' ≠ c → u.clientAt c' = s.clientAt c') →
    (∃ w', u.clientAt c = some w') →
      ∀ c' ∈ members, ∃ w, u.clientAt c' = some w := fun u hothers hself c' hc' => by
    by_cases he : c' = c
    · exact he ▸ hself
    · exact hothers c' he ▸ h.clients c' hc'
  rw [channelEvent, wp_bind, objectSize, wp_bind, wp_get, wp_bind]
  simp only [Objects.find, hz, wp_lift_ok, wp_pure]
  rw [wp_bind, wp_getChannel hx, wp_bind, copyStrings_eq_ok hfits, wp_lift_ok, wp_bind]
  refine wp_addResponse hw (wp_addObjectResponse (z := z) responded_clientAt ?_ (by omega) ?_)
  · exact (Function.update_of_ne (Nat.ne_of_lt h.below) ..).trans hz
  · refine ⟨⟨x, hx, rfl⟩, hclients _ (fun c' hc' => ?_) ⟨_, shared_clientAt⟩, Nat.lt_succ_of_lt h.below, ?_⟩
    · exact (Function.update_of_ne hc' ..).trans (Function.update_of_ne hc' ..)
    · rw [shared_objects, if_neg hlive]
      split_ifs
      · exact ⟨_, rfl, Nat.succ_ne_zero _, by dsimp only; omega⟩
      · exact ⟨z, rfl, hlive, by omega⟩

theorem Ready.mono {k' : ℕ} (h : Ready ch msg name members k s) (hk : k' ≤ k) :
    Ready ch msg name members k' s := by
  obtain ⟨z, hz, hlive, hroom⟩ := h.object
  exact ⟨h.channel, h.clients, h.below, z, hz, hlive, by omega⟩

theorem forM_ready {body : Ptr → ServerM Unit}
    (hbody : ∀ c ∈ members, ∀ k s, Ready ch msg name members (k + 1) s →
      wp (body c) (fun _ t => Ready ch msg name members k t) (fun _ => False) s) :
    ∀ {l : List Ptr}, (∀ c ∈ l, c ∈ members) → ∀ k s, Ready ch msg name members (l.length + k) s →
      wp (l.forM body) (fun _ t => Ready ch msg name members k t) (fun _ => False) s
  | [], _, _, _, h => by rwa [List.length_nil, Nat.zero_add] at h
  | c :: l, hl, k, s, h => by
    rw [show (c :: l).forM body = (body c >>= fun _ => l.forM body) from rfl, wp_bind]
    rw [List.length_cons, Nat.add_right_comm] at h
    refine wp_mono (hbody c (hl c (by simp)) _ s h) (fun _ t ht => ?_) fun _ h => h
    exact forM_ready hbody (fun c' hc' => hl c' (.tail _ hc')) k t ht

/-- A loop whose first turn needs a fact. -/
theorem forM_fits {F : Prop} {body : Ptr → ServerM Unit}
    (hbody : ∀ c, wp (body c) (fun _ _ => F) Fault.Any s) :
    wp (l.forM body) (fun _ _ => l ≠ [] → F) Fault.Any s := by
  cases l with
  | nil => exact fun h => absurd rfl h
  | cons c l =>
    rw [show (c :: l).forM body = (body c >>= fun _ => l.forM body) from rfl, wp_bind]
    refine wp_mono (hbody c) (fun _ t hF => ?_) fun _ h => h
    unfold wp
    split
    · exact fun _ => hF
    · trivial

end Events

/-! ### Subscribers -/

/-- Whether the code finds that a topic matches a pattern. -/
def hits (topic pattern : Name) : Bool :=
  match patternMatch topic pattern false with
  | .ok hit => hit
  | .error _ => false

namespace ChannelT

def subscribers (x : ChannelT) (topic : Name) : List Ptr := (findNode x.topics topic).elim [] x.topics.values

/-- The subscribers to a topic that are given a message: all of them, or the next one in turn. -/
def receivers (x : ChannelT) (topic : Name) : List Ptr :=
  if x.roundRobin then (listRotate (x.subscribers topic)).head?.toList else x.subscribers topic

/-- The channel after a message for a topic. -/
def turned (x : ChannelT) (topic : Name) : ChannelT :=
  match findNode x.topics topic with
  | none => x
  | some node =>
    if x.roundRobin then { x with topics := x.topics.set node (listRotate (x.topics.values node)) } else x

def strings (x : ChannelT) (topic : Name) : List (ℕ × Name) := [(0, x.cName), (64, topic)]

def patternStrings (x : ChannelT) (topic pattern : Name) : List (ℕ × Name) :=
  [(0, x.cName), (64, topic), (96, pattern)]

/-- What a subscriber to the topic is told. -/
def message (x : ChannelT) (topic : Name) (payload : List Byte) : List (List Byte) :=
  eventOf Cmd.channelSubscribe 96 (x.strings topic) payload

/-- What a subscriber to the pattern is told. -/
def patternMessage (x : ChannelT) (topic pattern : Name) (payload : List Byte) : List (List Byte) :=
  eventOf Cmd.channelPsubscribe 128 (x.patternStrings topic pattern) payload

/-- What the subscribers under one node are told, if its pattern matches. -/
def patternEvents (x : ChannelT) (topic : Name) (payload : List Byte) (c : Ptr) (k : TopicNode × List Ptr) :
    List (List Byte) :=
  if hits topic k.1.2 = true ∧ c ∈ k.2 then x.patternMessage topic k.1.2 payload else []

/-- What a publication tells a client. -/
def events (x : ChannelT) (topic : Name) (payload : List Byte) (c : Ptr) : List (List Byte) :=
  (if c ∈ x.receivers topic then x.message topic payload else []) ++ x.patterns.flatMap
    (x.patternEvents topic payload c)

variable {x : ChannelT} {topic : Name}

theorem turned_fields (x : ChannelT) (topic : Name) :
    (x.turned topic).cName = x.cName ∧ (x.turned topic).patterns = x.patterns := by
  unfold turned
  split
  · exact ⟨rfl, rfl⟩
  · split_ifs <;> exact ⟨rfl, rfl⟩

theorem turned_same (h : x.roundRobin = false) : x.turned topic = x := by
  unfold turned
  rw [h]
  split <;> rfl

theorem subscribers_eq {node : TopicNode} (h : findNode x.topics topic = some node) :
    x.subscribers topic = x.topics.values node := by
  rw [subscribers, h]
  rfl

/-- The subscriptions are those of before; only the subscribers to the topic may stand in
another order. -/
theorem turned_perm (x : ChannelT) (topic : Name) (node : TopicNode) :
    ((x.turned topic).topics.values node).Perm (x.topics.values node) ∧
    (x.turned topic).topics.keys = x.topics.keys := by
  unfold turned
  split
  · exact ⟨.rfl, rfl⟩
  · rename_i node' hf
    split_ifs
    · refine ⟨?_, ?_⟩
      · simp only [Keylist.values_set]
        split_ifs with he
        · exact he ▸ listRotate_perm _
        · exact .rfl
      · simp only [Keylist.keys_set, if_pos (findNode_some hf).1]
    · exact ⟨.rfl, rfl⟩

theorem receivers_subset : x.receivers topic ⊆ x.subscribers topic := by
  intro c hc
  unfold receivers at hc
  split_ifs at hc
  · rw [Option.mem_toList] at hc
    exact (listRotate_perm _).subset (List.mem_of_mem_head? hc)
  · exact hc

end ChannelT

section Publish

variable {s t : EagleServer} {c ch msg : Ptr} {x : ChannelT} {n : ℕ} {topic : Name}
    {payload : List Byte} {node : TopicNode}
  {members : Set Ptr} {k : TopicNode × List Ptr}

/-! ### Publications -/

theorem publishTopic_tells (hx : s.channelAt ch = some x) (hf : findNode x.topics topic = some node)
    (hn : (x.topics.values node).Nodup) (ho : Carries msg payload s) :
    wp (publishTopic ch node topic msg)
      (fun _ t => Tells (fun c => if c ∈ x.receivers topic then x.message topic payload else [])
      (s.setChannel ch (x.turned topic)) t ∧ (x.receivers topic ≠ [] → FitIn 96 (x.strings topic)))
        Fault.Any s := by
  rw [publishTopic, wp_bind, wp_getChannel hx]
  refine wp_ite (fun hround => ?_) fun hround => ?_
  · have hturned : x.turned topic =
        x.setSide .topic (x.topics.set node (listRotate (x.topics.values node))) := by
      rw [ChannelT.turned, hf]
      exact if_pos hround
    have hreceivers : x.receivers topic = (listRotate (x.topics.values node)).head?.toList := by
      rw [ChannelT.receivers, if_pos hround, ChannelT.subscribers_eq hf]
    rw [wp_bind]
    refine wp_modifyChannel ⟨x, hx, ?_⟩
    rw [wp_bind, ← hturned, wp_getChannel (Function.update_self ..)]
    have hvalues : (x.turned topic).topics.values node = listRotate (x.topics.values node) := by
      rw [hturned]
      exact (Keylist.values_set ..).trans (if_pos rfl)
    rw [hvalues]
    cases hhead : (listRotate (x.topics.values node)).head? with
    | none => exact trivial
    | some c =>
      rw [hhead] at hreceivers
      refine wp_mono (channelEvent_tells c (Function.update_self ..) ho) (fun _ t ht => ?_) fun _ h => h
      obtain ⟨ht, hfits⟩ := ht
      rw [(x.turned_fields topic).1] at ht hfits
      refine ⟨ht.congr fun c' => ?_, fun _ => hfits⟩
      rw [hreceivers]
      simp [only, ChannelT.message, ChannelT.strings]
  · have hsame : s.setChannel ch x = s := by simp only [EagleServer.setChannel, ← hx, Function.update_eq_self]
    have hreceivers : x.receivers topic = x.topics.values node := by
      rw [ChannelT.receivers, if_neg hround, ChannelT.subscribers_eq hf]
    rw [ChannelT.turned_same (Bool.eq_false_iff.mpr hround), hsame, hreceivers]
    refine wp_and (forM_tells (P := fun s => s.channelAt ch = some x ∧ Carries msg payload s) (fun h hP => ?_)
      (fun c s hP => wp_mono (channelEvent_tells c hP.1 hP.2) (fun _ _ h => h.1) fun _ h => h) hn s ⟨hx, ho⟩)
      (forM_fits fun c => wp_mono (channelEvent_tells c hx ho) (fun _ _ h => h.2) fun _ h => h)
    exact ⟨h.channelAt ▸ hP.1, h.carries hP.2⟩

theorem publishPattern_tells (hx : s.channelAt ch = some x) (hn : k.2.Nodup) (ho : Carries msg payload s) :
    wp (publishPattern ch topic msg k) (fun _ t => Tells (fun c => x.patternEvents topic payload c k) s t ∧
      (hits topic k.1.2 = true → k.2 ≠ [] → FitIn 128 (x.patternStrings topic k.1.2))) Fault.Any s := by
  rw [publishPattern, wp_bind]
  cases hm : patternMatch topic k.1.2 false with
  | error e => exact trivial
  | ok hit =>
    have hhit : hits topic k.1.2 = hit := by rw [hits, hm]
    rw [wp_lift_ok, ← hhit]
    refine wp_ite (fun hyes => ?_) fun hno => ?_
    · refine wp_mono (wp_and (forM_tells
        (P := fun s => s.channelAt ch = some x ∧ Carries msg payload s) (fun h hP => ?_)
        (fun c s hP => wp_mono (channelEvent_tells c hP.1 hP.2) (fun _ _ h => h.1) fun _ h => h) hn
          s ⟨hx, ho⟩)
        (forM_fits fun c => wp_mono (channelEvent_tells c hx ho) (fun _ _ h => h.2) fun _ h => h))
        (fun _ t ⟨ht, hfits⟩ => ⟨ht.congr fun c => ?_, fun _ => hfits⟩) fun _ h => h
      · exact ⟨h.channelAt ▸ hP.1, h.carries hP.2⟩
      · simp [ChannelT.patternEvents, hyes, ChannelT.patternMessage, ChannelT.patternStrings]
    · exact ⟨(Tells.refl s).congr fun c => by simp [ChannelT.patternEvents, hno], fun h => absurd h hno⟩

/-- A loop whose turns tell different things. -/
theorem forM_tells_each {P : EagleServer → Prop} {ι : Type} {F : ι → Prop} {body : ι → ServerM Unit}
    {said : Ptr → ι → List (List Byte)} (hP : ∀ {f s t}, Tells f s t → P s → P t) :
    ∀ {l : List ι}, (∀ k ∈ l, ∀ s, P s →
      wp (body k) (fun _ t => Tells (fun c => said c k) s t ∧ F k) Fault.Any s) → ∀ s, P s →
      wp (l.forM body) (fun _ t => Tells (fun c => l.flatMap (said c)) s t ∧ ∀ k ∈ l, F k) Fault.Any s
  | [], _, s, _ => ⟨Tells.refl s, by simp⟩
  | k :: l, hbody, s, hs => by
    rw [show (k :: l).forM body = (body k >>= fun _ => l.forM body) from rfl, wp_bind]
    refine wp_mono (hbody k (by simp) s hs) (fun _ t ⟨ht, hk⟩ => ?_) fun _ h => h
    refine wp_mono (forM_tells_each hP (fun k' hk' => hbody k' (by simp [hk'])) t (hP ht hs))
      (fun _ u ⟨hu, hl⟩ => ?_) fun _ h => h
    exact ⟨(ht.trans hu).congr fun c => by simp, by simpa using ⟨hk, hl⟩⟩

theorem publishTopic_ready (h : Ready ch msg x.cName members ((x.receivers topic).length + n) s)
    (hx : s.channelAt ch = some x)
    (hf : findNode x.topics topic = some node) (hne : x.topics.values node ≠ [])
    (hsub : ∀ c ∈ x.subscribers topic, c ∈ members)
    (hfits : FitIn 96 (x.strings topic)) :
    wp (publishTopic ch node topic msg) (fun _ t => Ready ch msg x.cName members n t) (fun _ => False) s := by
  rw [publishTopic, wp_bind, wp_getChannel hx]
  refine wp_ite (fun hround => ?_) fun hround => ?_
  · obtain ⟨c, hc, hhead⟩ := listRotate_head _ hne
    have hreceivers : x.receivers topic = [c] := by
      rw [ChannelT.receivers, if_pos hround, ChannelT.subscribers_eq hf, hhead]
      rfl
    rw [hreceivers, List.length_singleton, Nat.add_comm] at h
    rw [wp_bind]
    refine wp_modifyChannel ⟨x, hx, ?_⟩
    rw [wp_bind, wp_getChannel (Function.update_self ..)]
    have hvalues : (x.topics.set node (listRotate (x.topics.values node))).values node =
        listRotate (x.topics.values node) :=
      (Keylist.values_set ..).trans (if_pos rfl)
    dsimp only [ChannelT.setSide]
    rw [hvalues, hhead]
    refine channelEvent_ready ⟨⟨_, Function.update_self .., rfl⟩, h.clients, h.below, h.object⟩
      (hsub c ?_) hfits
    rwa [ChannelT.subscribers_eq hf]
  · have hreceivers : x.receivers topic = x.topics.values node := by
      rw [ChannelT.receivers, if_neg hround, ChannelT.subscribers_eq hf]
    rw [hreceivers] at h
    rw [ChannelT.subscribers_eq hf] at hsub
    exact forM_ready (fun c hc k t ht => channelEvent_ready ht hc hfits) hsub n s h

theorem publishPattern_ready {hit : Bool} (h : Ready ch msg x.cName members (k.2.length + n) s)
    (hsub : ∀ c ∈ k.2, c ∈ members)
    (hm : patternMatch topic k.1.2 false = .ok hit) (hfits : FitIn 128 (x.patternStrings topic k.1.2)) :
    wp (publishPattern ch topic msg k) (fun _ t => Ready ch msg x.cName members n t) (fun _ => False) s := by
  rw [publishPattern, wp_bind, hm, wp_lift_ok]
  exact wp_ite (fun _ => forM_ready (fun c hc k t ht => channelEvent_ready ht hc hfits) hsub n s h)
    fun _ => h.mono (Nat.le_add_left ..)

theorem publishPatterns_ready : ∀ {l : Keylist TopicNode Ptr},
    (∀ k ∈ l, (∀ c ∈ k.2, c ∈ members) ∧ (∃ hit, patternMatch topic k.1.2 false = .ok hit) ∧
      FitIn 128 (x.patternStrings topic k.1.2)) →
    ∀ s, Ready ch msg x.cName members (l.map fun k => k.2.length).sum s →
      wp (l.forM (publishPattern ch topic msg)) (fun _ _ => True) (fun _ => False) s
  | [], _, _, _ => trivial
  | k :: l, hl, s, h => by
    obtain ⟨hsub, ⟨hit, hm⟩, hfits⟩ := hl k (by simp)
    rw [show (k :: l).forM (publishPattern ch topic msg) =
      (publishPattern ch topic msg k >>= fun _ => l.forM (publishPattern ch topic msg)) from rfl, wp_bind]
    refine wp_mono (publishPattern_ready (by simpa using h) hsub hm hfits) (fun _ t ht => ?_) fun _ h => h
    exact publishPatterns_ready (fun k' hk' => hl k' (by simp [hk'])) t ht

/-- The strings fit their fields, the matcher answers, and the count of the references can
be raised. -/
structure ChannelT.Fits (x : ChannelT) (topic : Name) (refs : ℕ) : Prop where
  name_fits : x.cName.length < 96
  topic_fits : topic.length < 32
  pattern_fits : ∀ k ∈ x.patterns, k.1.2.length < 32
  answers : ∀ k ∈ x.patterns, ∃ hit, patternMatch topic k.1.2 false = .ok hit
  held : refs ≠ 0
  room : refs + ((x.receivers topic).length + (x.patterns.map fun k => k.2.length).sum) < 4294967296

/-- What a publication has done. -/
structure PublishDone (s : EagleServer) (ch : Ptr) (x : ChannelT) (topic : Name)
    (payload : List Byte) (t : EagleServer) : Prop where
  everyone : x.roundRobin = false → x.receivers topic = x.subscribers topic
  inTurn : x.roundRobin = true → x.subscribers topic ≠ [] → ∃ c ∈ x.subscribers topic, x.receivers topic = [c]
  nobody : x.subscribers topic = [] → x.receivers topic = []
  told : ∀ c w, s.clientAt c = some w → ∃ w', t.clientAt c = some w' ∧ w'.unheard = w.unheard ∧
    w'.history = w.history ++ if w.registers s.env then x.events topic payload c else []
  frame : t.unheard = (s.setChannel ch (x.turned topic)).unheard
  rotated : (x.turned topic).patterns = x.patterns ∧ (x.turned topic).topics.keys = x.topics.keys ∧
    ∀ node, ((x.turned topic).topics.values node).Perm (x.topics.values node)
  message : x.receivers topic ≠ [] → Spells (inscribed 96 (x.strings topic)) 0 64 x.cName ∧
    Spells (inscribed 96 (x.strings topic)) 64 32 topic
  patternMessage : ∀ k ∈ x.patterns, hits topic k.1.2 = true →
    Spells (inscribed 128 (x.patternStrings topic k.1.2)) 0 64 x.cName ∧
    Spells (inscribed 128 (x.patternStrings topic k.1.2)) 64 32 topic ∧
    Spells (inscribed 128 (x.patternStrings topic k.1.2)) 96 32 k.1.2

theorem ChannelT.spells_message (h : FitIn 96 (x.strings topic)) :
    Spells (inscribed 96 (x.strings topic)) 0 64 x.cName ∧
    Spells (inscribed 96 (x.strings topic)) 64 32 topic := by
  have hname := h (0, x.cName) (by simp [ChannelT.strings])
  have hlen : (inscribe (List.replicate 96 0) (0, x.cName)).length = 96 := by
    rw [inscribe_length (by simpa using hname), List.length_replicate]
  exact ⟨(spells_inscribe (by simp)).inscribe (by simp) (by omega), spells_inscribe (by omega)⟩

theorem ChannelT.spells_patternMessage {pattern : Name} (h : FitIn 128 (x.patternStrings topic pattern)) :
    Spells (inscribed 128 (x.patternStrings topic pattern)) 0 64 x.cName ∧
    Spells (inscribed 128 (x.patternStrings topic pattern)) 64 32 topic ∧
    Spells (inscribed 128 (x.patternStrings topic pattern)) 96 32 pattern := by
  have hname := h (0, x.cName) (by simp [ChannelT.patternStrings])
  have htopic := h (64, topic) (by simp [ChannelT.patternStrings])
  dsimp only at hname htopic
  have hlen : (inscribe (List.replicate 128 0) (0, x.cName)).length = 128 := by
    rw [inscribe_length (by simpa using hname), List.length_replicate]
  have hlen' : (inscribe (inscribe (List.replicate 128 0) (0, x.cName)) (64, topic)).length = 128 := by
    rw [inscribe_length (by omega), hlen]
  refine ⟨((spells_inscribe (by simp)).inscribe (by simp) (by omega)).inscribe (by simp) (by omega), ?_, ?_⟩
  · exact (spells_inscribe (by omega)).inscribe (by simp) (by omega)
  · exact spells_inscribe (by omega)

/-- What every reachable state gives for a side of a channel. -/
theorem Related.side_nodes (h : Related .none s) (hx : s.channelAt ch = some x) (d : Side)
    {k : TopicNode × List Ptr}
    (hk : k ∈ x.side d) : k.2 ≠ [] ∧ k.2.Nodup ∧ ∀ c ∈ k.2, ∃ w, s.clientAt c = some w := by
  have hrel := h.subscriptionRelations
  obtain ⟨hne, hn, hc⟩ := (hrel.channel_nodes d ch x hx).2.2 k hk
  exact ⟨hne, hn, fun c hc' => (hrel.clients.2 c).mp (hc c hc')⟩

theorem Related.topic_nodes (h : Related .none s) (hx : s.channelAt ch = some x)
    (hf : findNode x.topics topic = some node) :
    x.topics.values node ≠ [] ∧ (x.topics.values node).Nodup ∧ ∀ c ∈ x.topics.values node, ∃ w,
    s.clientAt c = some w := by
  obtain ⟨k, hk, rfl⟩ := List.mem_map.mp (findNode_some hf).1
  have hvalues : x.topics.values k.1 = k.2 :=
    Keylist.values_of_mem (h.subscriptionRelations.channel_nodes .topic ch x hx).1 hk
  rw [hvalues]
  exact h.side_nodes hx .topic hk

theorem publishMessageChannelT_tells (h : Related .none s) (hx : s.channelAt ch = some x)
    (ho : Carries msg payload s) :
    wp (publishMessageChannelT ch topic msg)
      (fun _ t => Tells (x.events topic payload) (s.setChannel ch (x.turned topic)) t ∧
      (x.receivers topic ≠ [] → FitIn 96 (x.strings topic)) ∧
      ∀ k ∈ x.patterns, hits topic k.1.2 = true → FitIn 128 (x.patternStrings topic k.1.2)) Fault.Any s := by
  have hpatterns : ∀ t, t.channelAt ch = some (x.turned topic) → Carries msg payload t →
      wp (x.patterns.forM (publishPattern ch topic msg))
      (fun _ u => Tells (fun c => x.patterns.flatMap (x.patternEvents topic payload c)) t u ∧
        ∀ k ∈ x.patterns, hits topic k.1.2 = true → FitIn 128 (x.patternStrings topic k.1.2))
        Fault.Any t := by
    intro t ht ho
    have hstrings : ∀ pattern, (x.turned topic).patternStrings topic pattern =
        x.patternStrings topic pattern := fun pattern => by
      rw [ChannelT.patternStrings, (x.turned_fields topic).1, ChannelT.patternStrings]
    refine forM_tells_each (P := fun s => s.channelAt ch = some (x.turned topic) ∧ Carries msg payload s)
      (F := fun k : TopicNode × List Ptr => hits topic k.1.2 = true →
      FitIn 128 (x.patternStrings topic k.1.2))
      (fun h hP => ⟨h.channelAt ▸ hP.1, h.carries hP.2⟩) (fun k hk s hP => ?_) t ⟨ht, ho⟩
    obtain ⟨hne, hn, -⟩ := h.side_nodes hx .pattern hk
    refine wp_mono (publishPattern_tells hP.1 hn hP.2)
      (fun _ u hu => ⟨hu.1.congr fun c => ?_, fun hhit => ?_⟩) fun _ h => h
    · simp only [ChannelT.patternEvents, ChannelT.patternMessage, hstrings]
    · exact hstrings _ ▸ hu.2 hhit hne
  have hsame : s.setChannel ch x = s := by simp only [EagleServer.setChannel, ← hx, Function.update_eq_self]
  rw [publishMessageChannelT, wp_bind, wp_getChannel hx]
  cases hf : findNode x.topics topic with
  | none =>
    have hnone : x.subscribers topic = [] := by
      rw [ChannelT.subscribers, hf]
      rfl
    have hreceivers : x.receivers topic = [] := List.eq_nil_of_subset_nil (hnone ▸ ChannelT.receivers_subset)
    have hturned : x.turned topic = x := by rw [ChannelT.turned, hf]
    refine wp_mono (hpatterns s (by rw [hturned]; exact hx) ho) (fun _ t ht => ?_) fun _ h => h
    obtain ⟨ht, hfits⟩ := ht
    rw [hturned, hsame, hreceivers]
    exact ⟨ht.congr fun c => by simp [ChannelT.events, hreceivers], fun h => absurd rfl h, hfits⟩
  | some node =>
    rw [wp_bind]
    refine wp_mono (publishTopic_tells hx hf (h.topic_nodes hx hf).2.1 ho) (fun _ t ht => ?_) fun _ h => h
    obtain ⟨ht, hfits⟩ := ht
    have htx : t.channelAt ch = some (x.turned topic) := by rw [ht.channelAt]; exact Function.update_self ..
    exact wp_mono (hpatterns t htx (ht.carries ho)) (fun _ u hu => ⟨ht.trans hu.1, hfits, hu.2⟩) fun _ h => h

theorem publishMessageChannelT_returns (h : Related .none s) (hx : s.channelAt ch = some x) {z : Object}
    (hz : s.objects msg = some z) (hmsg : msg < s.fresh) (hfits : x.Fits topic z.refcount) :
    wp (publishMessageChannelT ch topic msg) (fun _ _ => True) (fun _ => False) s := by
  have hready : Ready ch msg x.cName {c | ∃ w, s.clientAt c = some w}
      ((x.receivers topic).length + (x.patterns.map fun k => k.2.length).sum) s :=
    ⟨⟨x, hx, rfl⟩, fun c hc => hc, hmsg, z, hz, hfits.held, hfits.room⟩
  have hpatterns : ∀ t, Ready ch msg x.cName {c | ∃ w, s.clientAt c = some w}
    (x.patterns.map fun k => k.2.length).sum t →
      wp (x.patterns.forM (publishPattern ch topic msg)) (fun _ _ => True) (fun _ => False) t :=
    publishPatterns_ready fun k hk => by
      refine ⟨(h.side_nodes hx .pattern hk).2.2, hfits.answers k hk, fun y hy => ?_⟩
      have := hfits.pattern_fits k hk
      have := hfits.topic_fits
      have := hfits.name_fits
      simp only [ChannelT.patternStrings, List.mem_cons, List.not_mem_nil, or_false] at hy
      rcases hy with rfl | rfl | rfl <;> dsimp only <;> omega
  rw [publishMessageChannelT, wp_bind, wp_getChannel hx]
  cases hf : findNode x.topics topic with
  | none => exact hpatterns s (hready.mono (Nat.le_add_left ..))
  | some node =>
    obtain ⟨hne, -, halive⟩ := h.topic_nodes hx hf
    rw [wp_bind]
    refine wp_mono (publishTopic_ready hready hx hf hne (by rwa [ChannelT.subscribers_eq hf]) fun y hy => ?_)
      (fun _ t ht => hpatterns t ht) fun _ h => h
    have := hfits.topic_fits
    have := hfits.name_fits
    simp only [ChannelT.strings, List.mem_cons, List.not_mem_nil, or_false] at hy
    rcases hy with rfl | rfl <;> dsimp only <;> omega

theorem ChannelT.receivers_inTurn (hround : x.roundRobin = true) (hne : x.subscribers topic ≠ []) :
    ∃ c ∈ x.subscribers topic, x.receivers topic = [c] := by
  obtain ⟨c, hc, hhead⟩ := listRotate_head _ hne
  exact ⟨c, hc, by simp [ChannelT.receivers, hround, hhead]⟩

/-- A publication in a state that differs from a reachable one in no relation: what it has done
when it returns, and that it returns when the strings fit. -/
theorem publish_exact [Lzf] {s₀ : EagleServer} (h : Reachable s₀) (hs : Frame s₀ s)
    (hx : s.channelAt ch = some x) {z : Object}
    (hz : s.objects msg = some z) (hmsg : msg < s.fresh) :
    (∀ t, publishMessageChannelT ch topic msg s = .ok ((), t) → PublishDone s ch x topic z.data t) ∧
      (x.Fits topic z.refcount → ∃ t, publishMessageChannelT ch topic msg s = .ok ((), t)) := by
  have hrel := h.related.frame hs
  refine ⟨fun t hrun => ?_, fun hfits => ?_⟩
  · have ho : Carries msg z.data s := ⟨hmsg, fun z' hz' => by rw [Option.some.inj (hz'.symm.trans hz)]⟩
    obtain ⟨htells, hfits, hfits'⟩ := ok_of_wp (publishMessageChannelT_tells hrel hx ho) hrun
    exact {
      everyone := fun hround => if_neg (by simp [hround])
      inTurn := ChannelT.receivers_inTurn
      nobody := fun hnone => List.eq_nil_of_subset_nil (hnone ▸ ChannelT.receivers_subset)
      told := fun c w hw => by
        obtain ⟨w', hw', hsame, -, hh⟩ := htells.clients c w hw
        exact ⟨w', hw', hsame, hh⟩
      frame := htells.frame
      rotated := ⟨(x.turned_fields topic).2, (x.turned_perm topic (0, [])).2,
        fun node => (x.turned_perm topic node).1⟩
      message := fun hne => ChannelT.spells_message (hfits hne)
      patternMessage := fun k hk hhit => ChannelT.spells_patternMessage (hfits' k hk hhit) }
  · obtain ⟨_, t, ht, -⟩ := returns_of_wp (publishMessageChannelT_returns hrel hx hz hmsg hfits)
    exact ⟨t, ht⟩

end Publish

/-! ### A channel with a subscriber -/

namespace Sample

/-- The administrator subscribes to a topic and to a pattern, and its responses are written. -/
def tuned : List Op :=
  login 0 ++ [named Cmd.channelCreate 0 [99] (leBytes 4 2),
    named Cmd.channelSubscribe 0 [99] (padded 32 [116]),
    named Cmd.channelPsubscribe 0 [99] (padded 32 [42]), .send 0 (List.replicate 4 (.bytes 8))]

/-- The publication returns, and the subscriber is told something or nothing. -/
def published (told : Bool) (s : EagleServer) : Bool :=
  match s.channelAt 2, s.clientAt 0, publishMessageChannelT 2 [116] s.fresh (pushing s) with
  | some x, some w, .ok ((), t) =>
    decide (0 ∈ x.receivers [116]) && (t.clientAt 0).any fun w' => (w'.history != w.history) == told
  | _, _, _ => false

theorem exists_published (ops : List Op) (told : Bool)
    (h : (@replay Lzf.stored server ops).any (published told) = true) :
    ∃ s x w t w', @Reachable Lzf.stored s ∧ s.channelAt 2 = some x ∧ 0 ∈ x.receivers [116] ∧
    s.clientAt 0 = some w ∧
      publishMessageChannelT 2 [116] s.fresh (pushing s) = .ok ((), t) ∧ t.clientAt 0 = some w' ∧
      (w'.history = w.history ↔ told = false) := by
  obtain ⟨s, hs, hp⟩ := exists_run ops h
  unfold published at hp
  split at hp
  · rename_i x w t hx hw ht
    simp only [Bool.and_eq_true, Option.any_eq_true, decide_eq_true_eq] at hp
    obtain ⟨hc, w', hw', hh⟩ := hp
    exact ⟨s, x, w, t, w', hs, hx, hc, hw, ht, hw', by cases told <;> simpa using hh⟩
  · cases hp

end Sample

theorem publish_exact_tuned : ∃ s x t, s.channelAt 2 = some x ∧ 0 ∈ x.receivers [116] ∧
    publishMessageChannelT 2 [116] s.fresh (Sample.pushing s) = .ok ((), t) ∧
    PublishDone (Sample.pushing s) 2 x [116] [1] t := by
  obtain ⟨s, x, _, t, _, hs, hx, hc, -, ht, -⟩ :=
    Sample.exists_published Sample.tuned true (by decide +kernel)
  exact ⟨s, x, t, hx, hc, ht, (@publish_exact (Sample.pushing s) 2 s.fresh x [116] Lzf.stored s hs
    ⟨rfl, Nat.le_succ _⟩ hx
    ⟨[1], 1⟩ (Function.update_self ..) (Nat.lt_succ_self _)).1 t ht⟩

/-- A subscriber without responses whose write event cannot be registered is told nothing. -/
theorem not_published_unregistered : ∃ s x w t w', @Reachable Lzf.stored s ∧ s.channelAt 2 = some x ∧
    0 ∈ x.receivers [116] ∧ s.clientAt 0 = some w ∧
    publishMessageChannelT 2 [116] s.fresh (Sample.pushing s) = .ok ((), t) ∧ t.clientAt 0 = some w' ∧
    w'.history = w.history := by
  obtain ⟨s, x, w, t, w', hs, hx, hc, hw, ht, hw', hh⟩ := Sample.exists_published
    (Sample.tuned ++ [.environment { Sample.env with fileEvent := fun _ => false }]) false (by decide +kernel)
  exact ⟨s, x, w, t, w', hs, hx, hc, hw, ht, hw', hh.mpr rfl⟩

end EagleMQ
