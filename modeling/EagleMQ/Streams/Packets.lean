import EagleMQ.Publish
import EagleMQ.Streams

/-! The packets to the clients. What is appended for a client is a sequence of whole
packets, each a header with the length of the body behind it. The bytes of a payload that
others hold are the end of the packet whose header has been appended just before them. -/

namespace EagleMQ

open Prog

/-! ### Packets -/

/-- `ProtocolResponseHeader` or `ProtocolEventHeader` with a body. -/
inductive Packet where
  | response (cmd status : Byte) (body : List Byte)
  | event (cmd type : Byte) (body : List Byte)

namespace Packet

def body : Packet → List Byte
  | response _ _ body => body
  | event _ _ body => body

def bytes : Packet → List Byte
  | response cmd status body => responseHeader cmd status body.length ++ body
  | event cmd type body => eventHeader cmd type body.length ++ body

def isResponse : Packet → Bool
  | response _ _ _ => true
  | event _ _ _ => false

/-- The length of the body is that of its field. -/
def Fits (p : Packet) : Prop := p.body.length < 4294967296

end Packet

/-- The number of responses among packets. -/
def responses (packets : List Packet) : ℕ := packets.countP Packet.isResponse

/-- The write event of the client can be registered. -/
def EagleClient.Watchable (x : EagleClient) (env : Env) : Prop := x.fd ≠ 0 ∧ env.fileEvent x.fd = true

/-- No object comes close to the lengths that a header can have. -/
structure Short (s : EagleServer) : Prop where
  below : Heap.Below s.objects s.fresh
  size : ∀ o z, s.objects o = some z → z.data.length < 2147483656

/-- Whole packets have been appended for the clients that are left: `n` responses for the
client `c`, if it waits for answers, and none for another. -/
structure Talks (c : Ptr) (n : ℕ) (s t : EagleServer) : Prop where
  clients : ∀ d y, t.clientAt d = some y → ∃ x, s.clientAt d = some x ∧ y.fd = x.fd ∧ y.noack = x.noack ∧
    ∃ packets, y.history.flatten = x.history.flatten ++ packets.flatMap Packet.bytes ∧
    (∀ p ∈ packets, p.Fits) ∧
      ((d = c → x.noack = false ∧ x.Watchable s.env) → responses packets = if d = c then n else 0)
  env : t.env = s.env
  short : Short t

/-- The same, from a state with no long objects. -/
def Talking (c : Ptr) (n : ℕ) (s t : EagleServer) : Prop := Short s → Talks c n s t

/-- Nothing has been appended for the clients that are left. -/
structure Hush (s t : EagleServer) : Prop where
  clients : ∀ d y, t.clientAt d = some y → ∃ x, s.clientAt d = some x ∧ y.fd = x.fd ∧
    y.noack = x.noack ∧ y.history = x.history
  objects : ∀ o w, t.objects o = some w → ∃ z, s.objects o = some z ∧ w.data = z.data
  fresh : s.fresh ≤ t.fresh
  env : t.env = s.env

section Packets

variable {s t u : EagleServer} {c d o q m : Ptr} {n k : ℕ} {x y : EagleClient} {z : Object}
    {data : List Byte} {req : Request}

instance : IsPreorder EagleServer Hush where
  refl _ := ⟨fun _ y hy => ⟨y, hy, rfl, rfl, rfl⟩, fun _ w hw => ⟨w, hw, rfl⟩, Nat.le_refl _, rfl⟩
  trans _ _ _ h h' := by
    refine ⟨fun d z hz => ?_, fun o w hw => ?_, Nat.le_trans h.fresh h'.fresh, h'.env.trans h.env⟩
    · obtain ⟨y, hy, hfd, hnoack, hh⟩ := h'.clients d z hz
      obtain ⟨x, hx, hfd', hnoack', hh'⟩ := h.clients d y hy
      exact ⟨x, hx, hfd.trans hfd', hnoack.trans hnoack', hh.trans hh'⟩
    · obtain ⟨v, hv, hwv⟩ := h'.objects o w hw
      obtain ⟨z, hz, hvz⟩ := h.objects o v hv
      exact ⟨z, hz, hwv.trans hvz⟩

theorem Hush.short (h : Hush s t) (hs : Short s) : Short t where
  below o ho := by
    obtain ⟨w, hw⟩ := Option.ne_none_iff_exists'.mp ho
    obtain ⟨z, hz, -⟩ := h.objects o w hw
    exact Nat.lt_of_lt_of_le (hs.below o (by simp [hz])) h.fresh
  size o w hw := by
    obtain ⟨z, hz, hd⟩ := h.objects o w hw
    exact hd ▸ hs.size o z hz

theorem responses_append (l l' : List Packet) : responses (l ++ l') = responses l + responses l' :=
  List.countP_append

theorem Talks.trans (h : Talks c n s t) (h' : Talks c k t u) : Talks c (n + k) s u where
  clients e z hz := by
    obtain ⟨y, hy, hfd, hnoack, packets, hh, hfits, hcount⟩ := h'.clients e z hz
    obtain ⟨x, hx, hfd', hnoack', packets', hh', hfits', hcount'⟩ := h.clients e y hy
    refine ⟨x, hx, hfd.trans hfd', hnoack.trans hnoack', packets' ++ packets, ?_, ?_, fun hc => ?_⟩
    · rw [hh, hh', List.flatMap_append, List.append_assoc]
    · exact fun p hp => (List.mem_append.mp hp).elim (hfits' p) (hfits p)
    · have hw : e = c → y.noack = false ∧ y.Watchable t.env := fun he =>
        ⟨hnoack'.trans (hc he).1, by rw [EagleClient.Watchable, hfd', h.env]; exact (hc he).2⟩
      rw [responses_append, hcount' hc, hcount hw]
      split_ifs <;> rfl
  env := h'.env.trans h.env
  short := h'.short

theorem Talking.trans (h : Talking c n s t) (h' : Talking c k t u) : Talking c (n + k) s u := fun hs =>
  (h hs).trans (h' (h hs).short)

theorem Hush.talking (h : Hush s t) : Talking c 0 s t := fun hs => by
  refine ⟨fun e y hy => ?_, h.env, h.short hs⟩
  obtain ⟨x, hx, hfd, hnoack, hh⟩ := h.clients e y hy
  exact ⟨x, hx, hfd, hnoack, [], by simp [hh], by simp, fun _ => by simp [responses]⟩

instance : IsPreorder EagleServer (Talking c 0) where
  refl s := (refl (r := Hush) s).talking
  trans _ _ _ h h' := Talking.trans h h'

/-- What an operation appends. -/
def Utters {α : Type} (c : Ptr) (n : ℕ) (m : ServerM α) : Prop :=
  ∀ s, wp m (fun _ t => Talking c n s t) Fault.Any s

theorem Utters.bind {α β : Type} {m : ServerM α} {f : α → ServerM β} (hm : Utters c n m)
    (hf : ∀ a, Utters c k (f a)) : Utters c (n + k) (m >>= f) := fun s => by
  rw [wp_bind]
  exact wp_mono (hm s) (fun a t ht => wp_mono (hf a t) (fun _ _ hu => ht.trans hu) fun _ h => h) fun _ h => h

/-- Nothing before an operation is heard. -/
theorem Utters.after {α β : Type} {m : ServerM α} {f : α → ServerM β} (hm : Keeps (Talking c 0) Fault.Any m)
    (hf : ∀ a, Utters c n (f a)) : Utters c n (m >>= f) := by
  have h := Utters.bind (k := n) (n := 0) hm hf
  rwa [Nat.zero_add] at h

/-- Nothing after an operation is heard. -/
theorem Utters.before {α β : Type} {m : ServerM α} {f : α → ServerM β} (hm : Utters c n m)
    (hf : ∀ a, Keeps (Talking c 0) Fault.Any (f a)) : Utters c n (m >>= f) := Utters.bind (k := 0) hm hf

theorem hush_talking {α : Type} {m : ServerM α} (h : Keeps Hush Fault.Any m) :
    Keeps (Talking c 0) Fault.Any m :=
  fun s => wp_mono (h s) (fun _ _ ht => ht.talking) fun _ h => h

/-! ### What appends nothing -/

theorem hush_same (hc : t.clientAt = s.clientAt) (ho : t.objects = s.objects)
    (hn : s.fresh ≤ t.fresh) (he : t.env = s.env) : Hush s t :=
  ⟨fun _ y hy => ⟨y, hc ▸ hy, rfl, rfl, rfl⟩, fun _ z hz => ⟨z, ho ▸ hz, rfl⟩, hn, he⟩

theorem hush_setClient (hx : s.clientAt c = some x)
    (hy : y.fd = x.fd ∧ y.noack = x.noack ∧ y.history = x.history) : Hush s (s.setClient c y) := by
  refine ⟨fun d w hw => ?_, fun _ z hz => ⟨z, hz, rfl⟩, Nat.le_refl _, rfl⟩
  by_cases hd : d = c
  · subst hd
    rw [EagleServer.setClient_clientAt] at hw
    obtain rfl := Option.some.inj hw
    exact ⟨x, hx, hy⟩
  · exact ⟨w, by simpa [EagleServer.setClient, hd] using hw, rfl, rfl, rfl⟩

theorem hush_object {w : Option Object} (hz : s.objects o = some z)
    (hw : ∀ z', w = some z' → z'.data = z.data) :
    Hush s { s with objects := Function.update s.objects o w } := by
  refine ⟨fun _ y hy => ⟨y, hy, rfl, rfl, rfl⟩, fun p v hv => ?_, Nat.le_refl _, rfl⟩
  dsimp only at hv
  by_cases hp : p = o
  · subst hp
    rw [Function.update_self] at hv
    exact ⟨z, hz, hw v hv⟩
  · exact ⟨v, by rwa [Function.update_of_ne hp] at hv, rfl⟩

theorem Still.hush (h : Still s t) : Hush s t := by
  refine ⟨fun c y hy => ?_, fun o z hz => ⟨z, h.objects ▸ hz, rfl⟩, h.fresh,
    show t.bare.env = s.bare.env by rw [h.bare]⟩
  have hc := h.client c
  rw [hy] at hc
  obtain ⟨x, hx, hxy⟩ := Option.map_eq_some_iff.mp hc.symm
  exact ⟨x, hx, (congrArg EagleClient.fd hxy).symm, (congrArg EagleClient.noack hxy).symm,
    (congrArg EagleClient.history hxy).symm⟩

theorem still_hush {α : Type} {m : ServerM α} (h : Keeps Still Fault.Link m) : Keeps Hush Fault.Any m :=
  fun s => wp_mono (h s) (fun _ _ ht => ht.hush) fun _ _ => trivial

theorem modify_hush {f : EagleServer → EagleServer} (hf : ∀ s, Hush s (f s)) :
    Keeps Hush Fault.Any (modify f : ServerM Unit) :=
  keeps_modify _ hf

theorem modifyClient_hush {f : EagleClient → EagleClient}
    (hf : ∀ x, (f x).fd = x.fd ∧ (f x).noack = x.noack ∧ (f x).history = x.history) :
    Keeps Hush Fault.Any (modifyClient c f) := fun s => by
  cases hx : s.clientAt c with
  | none => simp [modifyClient, getClient, hx, Fault.Any]
  | some x => exact wp_modifyClient ⟨x, hx, hush_setClient hx (hf x)⟩

theorem modifyQueue_hush (f : QueueT → QueueT) : Keeps Hush Fault.Any (modifyQueue q f) :=
  keeps_bind getQueue_any fun _ => modify_hush fun _ => hush_same rfl rfl (Nat.le_refl _) rfl

theorem increment_hush (o : Ptr) : Keeps Hush Fault.Any (incrementReferencesCount o) := fun s =>
  wp_increment_any fun z hz _ => hush_object hz fun _ h => by
    obtain rfl := Option.some.inj h
    rfl

theorem decrement_hush (o : Ptr) : Keeps Hush Fault.Any (decrementReferencesCount o) := fun _ =>
  wp_decrement_any fun _ hz => hush_object hz fun _ h => Object.dropped_data h

theorem resetRefcount_hush (o : Ptr) : Keeps Hush Fault.Any (resetRefcount o) := fun s => by
  rw [resetRefcount, modifyObjects, wp_bind, wp_get, wp_bind]
  cases hz : s.objects o with
  | none => simp [Objects.find, hz, bind, Except.bind, Fault.Any]
  | some z =>
    simp only [Objects.find, hz, bind, Except.bind]
    refine hush_object hz fun z' h => ?_
    obtain rfl := Option.some.inj h
    rfl

theorem withStock_hush {α : Type} {m : StockM α} (hm : Keeps Stock.Truthful Fault.Any m) (q : Ptr) :
    Keeps Hush Fault.Any (withStock q m) := fun s => by
  cases hx : s.queueAt q with
  | none => simp [wp, withStock, hx, Fault.Any]
  | some x =>
    exact wp_withStock hx (wp_mono (hm _)
      (fun _ t ht => ⟨fun _ y hy => ⟨y, hy, rfl, rfl, rfl⟩, ht, Nat.le_refl _, rfl⟩)
      fun _ h => h)

theorem freed_hush (s : EagleServer) (c : Ptr) : Hush s { s with
    clients := s.clients.erase c, clientAt := Function.update s.clientAt c none } := by
  refine ⟨fun d y hy => ⟨y, ?_, rfl, rfl, rfl⟩, fun _ z hz => ⟨z, hz, rfl⟩, Nat.le_refl _, rfl⟩
  by_cases hd : d = c
  · subst hd
    simp at hy
  · simpa [hd] using hy

theorem createObject_talking (hlen : data.length < 2147483656) :
    Keeps (Talking c 0) Fault.Any (createObject data) := fun s hs => by
  refine ⟨fun e y hy => ⟨y, hy, rfl, rfl, [], by simp, by simp, fun _ => by simp [responses]⟩, rfl,
    hs.below.update (Nat.le_succ _) (Nat.lt_succ_self _) _, fun p w hw => ?_⟩
  dsimp only at hw
  by_cases hp : p = s.fresh
  · subst hp
    rw [Function.update_self] at hw
    obtain rfl := Option.some.inj hw
    exact hlen
  · exact hs.size p w (by rwa [Function.update_of_ne hp] at hw)

/-! ### What appends packets -/

/-- A client that has been given chunks of a packet, or nothing of it. -/
theorem talking_given (hx : s.clientAt d = some x) (hy : y.fd = x.fd ∧ y.noack = x.noack) {p : Packet}
    (hh : y.history.flatten = x.history.flatten ++ p.bytes ∨ y.history = x.history ∧
      x.registers s.env = false)
    (hp : Short s → p.Fits) (hc : (d = c ∨ n = 0) ∧ responses [p] = n)
    (ht : t.clientAt = Function.update s.clientAt d (some y))
    (henv : t.env = s.env) (hshort : Short s → Short t) : Talking c n s t := fun hs => by
  refine ⟨fun e w hw => ?_, henv, hshort hs⟩
  by_cases he : e = d
  · subst he
    rw [ht, Function.update_self] at hw
    obtain rfl := Option.some.inj hw
    refine ⟨x, hx, hy.1, hy.2, ?_⟩
    rcases hh with hh | ⟨hh, hreg⟩
    · refine ⟨[p], by simp [hh], by simpa using hp hs, fun _ => ?_⟩
      rw [hc.2]
      rcases hc.1 with rfl | rfl
      · rw [if_pos rfl]
      · rw [ite_self]
    · refine ⟨[], by simp [hh], by simp, fun hw => ?_⟩
      by_cases hec : e = c
      · obtain ⟨hfd, hevent⟩ := (hw hec).2
        simp [EagleClient.registers, hfd, hevent] at hreg
      · simp [responses, hec]
  · rw [ht, Function.update_of_ne he] at hw
    refine ⟨w, hw, rfl, rfl, [], by simp, by simp, fun _ => ?_⟩
    by_cases hec : e = c
    · have hn : n = 0 := hc.1.resolve_left fun hdc => he (hec.trans hdc.symm)
      simp [responses, hn]
    · simp [responses, hec]

theorem Short.object {w : Option Object} (hs : Short s) (hw : ∀ z, w = some z → z.data.length < 2147483656)
    (hobjects : t.objects = Function.update s.objects o w) (hfresh : s.fresh ≤ t.fresh)
    (ho : o < t.fresh) : Short t where
  below := by
    rw [hobjects]
    exact hs.below.update hfresh ho _
  size p v hv := by
    rw [hobjects] at hv
    by_cases hp : p = o
    · subst hp
      rw [Function.update_self] at hv
      exact hw v hv
    · exact hs.size p v (by rwa [Function.update_of_ne hp] at hv)

theorem given_fields (x : EagleClient) (env : Env) (o : Ptr) (data : List Byte) :
    (x.given env o data).fd = x.fd ∧ (x.given env o data).noack = x.noack := by
  unfold EagleClient.given
  split_ifs <;> exact ⟨rfl, rfl⟩

/-- A packet in one response. -/
theorem addResponse_utters {p : Packet} (hp : p.bytes.length < 2147483656)
    (hc : (d = c ∨ n = 0) ∧ responses [p] = n) : Utters c n (addResponse d p.bytes) := fun s => by
  cases hx : s.clientAt d with
  | none => simp [addResponse, createObject, setWriteEvent, getClient, hx, Fault.Any]
  | some x =>
    refine wp_addResponse hx (talking_given hx (given_fields ..) ?_ (fun _ => ?_) hc rfl rfl fun hs =>
      hs.object (fun z hz => ?_) rfl (Nat.le_succ _) (Nat.lt_succ_self _))
    · rw [EagleClient.given_history]
      split_ifs with hreg
      · exact .inl (by simp)
      · exact .inr ⟨rfl, by simpa using hreg⟩
    · refine Nat.lt_of_le_of_lt ?_ (Nat.lt_trans hp (by decide))
      cases p <;> simp [Packet.body, Packet.bytes]
    · split_ifs at hz
      obtain rfl := Option.some.inj hz
      exact hp

/-- A packet in two responses, the second of which is a payload. -/
theorem addParts_utters {p : Packet} (hz : s.objects o = some z) (hlen : data.length < 2147483656)
    (hp : data ++ z.data = p.bytes) (hfits : z.data.length < 2147483656 → p.Fits)
    (hc : (d = c ∨ n = 0) ∧ responses [p] = n) :
    wp (do addResponse d data; addObjectResponse d o) (fun _ t => Talking c n s t) Fault.Any s := by
  rw [wp_bind]
  cases hx : s.clientAt d with
  | none => simp [addResponse, createObject, setWriteEvent, getClient, hx, Fault.Any]
  | some x =>
    refine wp_addResponse hx ?_
    cases hi : Objects.incrementReferencesCount (s.responded d x data).objects o with
    | error e => simp [addObjectResponse, incrementReferencesCount, modifyObjects, hi, Fault.Any]
    | ok objects =>
      obtain ⟨v, hv, hwrap, -⟩ := increment_ok hi
      refine wp_addObjectResponse responded_clientAt hv hwrap fun hs => ?_
      have hne : o ≠ s.fresh := Nat.ne_of_lt (hs.below o (by simp [hz]))
      have hvz : v = z := by
        have hv' : Function.update s.objects s.fresh
            (if x.registers s.env then some ⟨data, 1⟩ else none) o = some v := hv
        rw [Function.update_of_ne hne, hz] at hv'
        exact (Option.some.inj hv').symm
      subst hvz
      have hreg : (x.given s.env s.fresh data).registers s.env = x.registers s.env := by
        unfold EagleClient.given
        split_ifs with hreg
        · simp only [EagleClient.registers, Bool.and_eq_true] at hreg
          simp [EagleClient.registers, EagleClient.watched, hreg.1, hreg.2]
        · rfl
      have hh : ((x.given s.env s.fresh data).given s.env o v.data).history =
          if x.registers s.env then x.history ++ [data] ++ [v.data] else x.history := by
        rw [EagleClient.given_history, hreg, EagleClient.given_history]
        split_ifs <;> rfl
      have hfields := given_fields x s.env s.fresh data
      have hfields' := given_fields (x.given s.env s.fresh data) s.env o v.data
      refine talking_given (y := (x.given s.env s.fresh data).given s.env o v.data) hx
        ⟨hfields'.1.trans hfields.1, hfields'.2.trans hfields.2⟩ ?_ (fun hs => hfits (hs.size o v hz)) hc
        (Function.update_idem ..) rfl (fun hs => ?_) hs
      · rw [hh]
        split_ifs with hreg
        · exact .inl (by simp [← hp])
        · exact .inr ⟨rfl, by simpa using hreg⟩
      · have hgiven : Short (s.responded d x data) := by
          refine hs.object (fun w hw => ?_) rfl (Nat.le_succ _) (Nat.lt_succ_self _)
          split_ifs at hw
          obtain rfl := Option.some.inj hw
          exact hlen
        refine hgiven.object (fun w hw => ?_) rfl (Nat.le_refl _)
          (Nat.lt_succ_of_lt (hs.below o (by simp [hz])))
        have hshort := hs.size o v hz
        split_ifs at hw <;> obtain rfl := Option.some.inj hw <;> exact hshort

/-! ### Responses -/

theorem addStatusResponse_utters (c : Ptr) (cmd status : Byte) :
    Utters c 1 (addStatusResponse c cmd status) := fun s => by
  cases hx : s.clientAt c with
  | none => simp [addStatusResponse, getClient, hx, Fault.Any]
  | some x =>
    rw [addStatusResponse, wp_bind, wp_getClient hx]
    refine wp_ite (fun _ => ?_) fun hnoack hs => ?_
    · have h := addResponse_utters (c := c) (d := c) (n := 1) (p := .response cmd status [])
        (by simp [Packet.bytes, responseHeader]) ⟨.inl rfl, rfl⟩ s
      rwa [Packet.bytes, List.append_nil] at h
    · refine ⟨fun e y hy => ⟨y, hy, rfl, rfl, [], by simp, by simp, fun hw => ?_⟩, rfl, hs⟩
      by_cases he : e = c
      · subst he
        obtain rfl := Option.some.inj (hx.symm.trans hy)
        exact absurd (hw rfl).1 hnoack
      · simp [responses, he]

theorem respond_utters (c : Ptr) (req : Request) (status : Byte) : Utters c 1 (respond c req status) :=
  addStatusResponse_utters c _ _

theorem dataResponse_utters (c : Ptr) (req : Request) (body : List Byte) :
    Utters c 1 (dataResponse c req body) := fun s =>
  wp_ite (fun _ => trivial) fun hlen => by
    rw [Nat.not_le, headerSize] at hlen
    refine addResponse_utters (c := c) (d := c) (n := 1)
      (p := .response req.cmd Status.success body) ?_ ⟨.inl rfl, rfl⟩ s
    simp only [Packet.bytes, responseHeader, List.length_append, length_leBytes, List.length_cons,
      List.length_nil]
    omega

theorem messageResponse_utters (c : Ptr) (req : Request) (q m : Ptr) :
    Utters c 1 (messageResponse c req q m) := by
  refine .after (hush_talking (withStock_hush Stock.message_local q)) fun msg s => ?_
  rw [objectSize, wp_bind, wp_bind, wp_get, wp_bind]
  cases hz : s.objects msg.value with
  | none => simp [Objects.find, hz, Fault.Any]
  | some z =>
    simp only [Objects.find, hz, wp_lift_ok, wp_pure, Object.size]
    refine addParts_utters (p := .response req.cmd Status.success (leBytes 8 msg.tag ++ z.data)) hz
      (by simp [responseHeader])
      ?_ (fun hlen => ?_) ⟨.inl rfl, rfl⟩
    · simp [Packet.bytes, Nat.add_comm]
    · simp only [Packet.Fits, Packet.body, List.length_append, length_leBytes]
      omega

/-! ### Events -/

theorem inscribed_length {n : ℕ} {l : List (ℕ × Name)} (h : FitIn n l) : (inscribed n l).length = n := by
  unfold inscribed
  suffices hfold : ∀ buffer : List Byte, (∀ x ∈ l, x.1 + x.2.length < buffer.length) →
      (l.foldl inscribe buffer).length = buffer.length by
    rw [hfold _ fun x hx => by rw [List.length_replicate]; exact h x hx, List.length_replicate]
  induction l with
  | nil => exact fun _ _ => rfl
  | cons x l ih =>
    intro buffer hb
    have hx := inscribe_length (hb x (by simp))
    rw [List.foldl_cons, ih (fun y hy => h y (.tail _ hy)) _
      (fun y hy => by rw [hx]; exact hb y (.tail _ hy)), hx]

theorem copyStrings_length {n : ℕ} {l : List (ℕ × Name)} {body : List Byte}
    (h : copyStrings n l = .ok body) : body.length = n := by
  have hfits := copyStrings_fits h
  obtain rfl := Except.ok.inj ((copyStrings_eq_ok hfits).symm.trans h)
  exact inscribed_length hfits

/-- An event whose payload others hold. -/
theorem event_utters {β : Type} {read : ServerM β} (hread : ∀ s, wp read (fun _ t => t = s) Fault.Any s)
    (strings : β → List (ℕ × Name)) {k : ℕ} (hk : k ≤ 128) (cmd : Byte) (d o : Ptr) : Utters c 0 (do
      let size ← objectSize o
      let x ← read
      let body ← Prog.lift (copyStrings k (strings x))
      addResponse d (eventHeader cmd eventMessage (k + size) ++ body)
      addObjectResponse d o) := fun s => by
  rw [objectSize, wp_bind, wp_bind, wp_get, wp_bind]
  cases hz : s.objects o with
  | none => simp [Objects.find, hz, Fault.Any]
  | some z =>
    simp only [Objects.find, hz, wp_lift_ok, wp_pure, Object.size]
    rw [wp_bind]
    refine wp_mono (hread s) (fun x t ht => ?_) fun _ h => h
    subst ht
    rw [wp_bind]
    cases hbody : copyStrings k (strings x) with
    | error e => exact trivial
    | ok body =>
      have hlen := copyStrings_length hbody
      rw [wp_lift_ok]
      refine addParts_utters (p := .event cmd eventMessage (body ++ z.data)) hz ?_ ?_
        (fun hshort => ?_) ⟨.inr rfl, rfl⟩
      · simp only [eventHeader, List.length_append, length_leBytes, List.length_cons, List.length_nil, hlen]
        omega
      · simp [Packet.bytes, hlen]
      · simp only [Packet.Fits, Packet.body, List.length_append, hlen]
        omega

theorem getQueue_reads (q : Ptr) (s : EagleServer) : wp (getQueue q) (fun _ t => t = s) Fault.Any s := by
  cases hx : s.queueAt q with
  | none => simp [getQueue, hx, Fault.Any]
  | some x => rw [wp_getQueue hx]

theorem getChannel_reads (ch : Ptr) (s : EagleServer) :
    wp (getChannel ch) (fun _ t => t = s) Fault.Any s := by
  cases hx : s.channelAt ch with
  | none => simp [getChannel, hx, Fault.Any]
  | some x => rw [wp_getChannel hx]

theorem queueClientEventMessage_talking (d q m : Ptr) :
    Keeps (Talking c 0) Fault.Any (queueClientEventMessage d q m) :=
  keeps_bind (hush_talking (withStock_hush Stock.message_local q)) fun msg =>
    event_utters (getQueue_reads q) (fun x => [(0, x.cName)]) (by decide) Cmd.queueSubscribe d msg.value

theorem queueClientEventNotify_talking (d q : Ptr) :
    Keeps (Talking c 0) Fault.Any (queueClientEventNotify d q) := by
  refine keeps_bind getQueue_any fun x s => ?_
  rw [wp_bind]
  cases hbody : copyStrings 64 [(0, x.cName)] with
  | error e => exact trivial
  | ok body =>
    have hlen := copyStrings_length hbody
    have h := addResponse_utters (c := c) (d := d) (n := 0) (p := .event Cmd.queueSubscribe eventNotify body)
      (by simp [Packet.bytes, eventHeader, hlen]) ⟨.inr rfl, rfl⟩ s
    rwa [Packet.bytes, hlen] at h

theorem channelClientEventMessage_talking (d ch : Ptr) (topic : Name) (msg : Ptr) :
    Keeps (Talking c 0) Fault.Any (channelClientEventMessage d ch topic msg) :=
  event_utters (getChannel_reads ch) (fun x => [(0, x.cName), (64, topic)])
    (by decide) Cmd.channelSubscribe d msg

theorem channelClientEventPatternMessage_talking (d ch : Ptr) (topic pattern : Name) (msg : Ptr) :
    Keeps (Talking c 0) Fault.Any (channelClientEventPatternMessage d ch topic pattern msg) :=
  event_utters (getChannel_reads ch) (fun x => [(0, x.cName), (64, topic), (96, pattern)])
    (by decide) Cmd.channelPsubscribe d msg

theorem same_talking (hc : t.clientAt = s.clientAt) (ho : t.objects = s.objects)
    (hn : s.fresh ≤ t.fresh) (he : t.env = s.env) : Talking c 0 s t :=
  (hush_same hc ho hn he).talking

theorem upheld_talking : Upheld (Talking c 0) where
  client _ _ x y hx hy := by
    have hfd : y.bare.fd = x.bare.fd := congrArg EagleClient.fd hy
    have hnoack : y.bare.noack = x.bare.noack := congrArg EagleClient.noack hy
    have hhistory : y.bare.history = x.bare.history := congrArg EagleClient.history hy
    exact Hush.talking (hush_setClient (y := y) hx ⟨hfd, hnoack, hhistory⟩)
  queue _ _ _ _ _ _ := same_talking rfl rfl (Nat.le_refl _) rfl
  route _ _ _ _ _ _ _ := same_talking rfl rfl (Nat.le_refl _) rfl
  channel _ _ _ _ _ _ := same_talking rfl rfl (Nat.le_refl _) rfl
  freeQueue q := hush_talking (keeps_bind (withStock_hush Stock.truthful_local.releaseQueue q) fun _ =>
    modify_hush fun _ => hush_same rfl rfl (Nat.le_refl _) rfl)
  freeRoute _ _ := same_talking rfl rfl (Nat.le_refl _) rfl
  freeChannel _ _ := same_talking rfl rfl (Nat.le_refl _) rfl
  delistQueue _ _ := same_talking rfl rfl (Nat.le_refl _) rfl
  delistRoute _ _ := same_talking rfl rfl (Nat.le_refl _) rfl
  delistChannel _ _ := same_talking rfl rfl (Nat.le_refl _) rfl
  fresh s := same_talking rfl rfl (Nat.le_succ _) rfl
  increment o := hush_talking (increment_hush o)
  decrement o := hush_talking (decrement_hush o)
  channelMessage := channelClientEventMessage_talking
  patternMessage := channelClientEventPatternMessage_talking

/-! ### Queues -/

theorem serveSubscribedClients_talking (q m : Ptr) :
    Keeps (Talking c 0) Fault.Any (serveSubscribedClients q m) := by
  refine keeps_bind getQueue_any fun x => keeps_ite (fun _ => keeps_ite (fun _ => ?_) fun _ => ?_)
    fun _ => keeps_pure _
  · refine keeps_bind (hush_talking (modifyQueue_hush _)) fun _ => keeps_bind getQueue_any fun y => ?_
    cases y.subscribedClientsMsg.head? with
    | none => exact keeps_throw trivial
    | some c => exact queueClientEventMessage_talking c q m
  · exact keeps_forM (fun c => queueClientEventMessage_talking c q m) _

theorem popMessage_hush (q now timeout : ℕ) :
    Keeps Hush Fault.Any (withStock q (Stock.popMessageQueueT now timeout)) :=
  withStock_hush (Stock.truthful_local.popMessageQueueT fun _ _ _ _ _ _ _ _ w hw => ⟨w, hw, rfl⟩) q

theorem enqueueMessage_hush (q m : Ptr) : Keeps Hush Fault.Any (enqueueMessage q m) := by
  have hstore : Keeps Hush Fault.Any (do withStock q (Stock.storeMessage m); pure true) :=
    keeps_bind (withStock_hush (Stock.truthful_local.storeMessage m) q) fun _ => keeps_pure _
  exact keeps_bind getQueue_any fun _ => keeps_ite (fun _ => keeps_ite (fun _ => keeps_bind keeps_get fun _ =>
    keeps_bind (popMessage_hush q _ 0) fun _ => hstore) fun _ => keeps_pure _) fun _ => hstore

theorem pushMessageQueueT_talking (q o expiration : ℕ) :
    Keeps (Talking c 0) Fault.Any (pushMessageQueueT q o expiration) := by
  have hcount : Keeps Hush Fault.Any (modify fun s => { s with msgCounter := s.msgCounter + 1 } :
      ServerM Unit) :=
    modify_hush fun _ => hush_same rfl rfl (Nat.le_refl _) rfl
  have hcreate : ∀ tag, Keeps Hush Fault.Any (withStock q (Stock.createMessage o tag expiration)) :=
    fun tag =>
    withStock_hush (m := Stock.createMessage o tag expiration) (fun _ _ w hw => ⟨w, hw, rfl⟩) q
  have hserve : ∀ m, Keeps (Talking c 0) Fault.Any (processSubscribedClients q m) := fun m =>
    keeps_bind getQueue_any fun _ => keeps_bind (serveSubscribedClients_talking q m) fun _ =>
      keeps_bind (keeps_forM (fun c => queueClientEventNotify_talking c q) _) fun _ => keeps_pure _
  refine keeps_bind keeps_get fun _ => keeps_bind (hush_talking hcount) fun _ =>
    keeps_bind (hush_talking (hcreate _)) fun m => ?_
  exact keeps_bind (objectSize_any o) fun _ => keeps_bind getQueue_any fun _ =>
    keeps_ite (fun _ => keeps_pure _) fun _ =>
    keeps_bind (hserve m) fun _ => keeps_ite (fun _ => keeps_bind (hush_talking (withStock_hush
      (Stock.truthful_local.releaseMessage m) q)) fun _ => keeps_pure _) fun _ => hush_talking
      (enqueueMessage_hush q m)

/-- The answer of a command on a message, or that there is none. -/
theorem requireMessage_utters {k : Ptr → ServerM Unit} (hk : ∀ m, Utters c 1 (k m)) :
    Utters c 1 (requireFound c req Status.errorNoData (withStock q Stock.getMessageQueueT) k) :=
  .after (hush_talking (withStock_hush (keeps_bind keeps_get fun _ => keeps_lift fun _ _ => trivial)
    q)) fun m => by
    cases m with
    | none => exact respond_utters c req _
    | some m => exact hk m

theorem freeClient_talking (d : Ptr) : Keeps (Talking c 0) Fault.Any (freeClient d) :=
  freeClient_upheld upheld_talking fun s => (freed_hush s d).talking

/-! ### Ticks and connections -/

theorem dropResponse_hush (c : Ptr) : Keeps Hush Fault.Any (dropResponse c) := by
  refine keeps_bind getClient_any fun x => ?_
  cases x.responses with
  | nil => exact keeps_throw trivial
  | cons o l => exact keeps_bind (modifyClient_hush fun _ => ⟨rfl, rfl, rfl⟩) fun _ => decrement_hush o

theorem finishSend_hush (c : Ptr) (sent : Bool) : Keeps Hush Fault.Any (finishSend c sent) := by
  have hend : Keeps Hush Fault.Any (do
      if (← getClient c).responses = [] then
        modifyClient c fun x => { x with sentlen := 0, writable := false } : ServerM Unit) :=
    keeps_bind getClient_any fun _ =>
      keeps_ite (fun _ => modifyClient_hush fun _ => ⟨rfl, rfl, rfl⟩) fun _ => keeps_pure _
  exact keeps_bind keeps_get fun _ => keeps_ite
    (fun _ => keeps_bind (modifyClient_hush fun _ => ⟨rfl, rfl, rfl⟩) fun _ => hend) fun _ => hend

/-- What is written has been appended before. -/
theorem sendResponse_talking (d : Ptr) (ws : List Written) :
    ∀ sent, Keeps (Talking c 0) Fault.Any (sendResponse d sent ws) :=
  sendResponse_keeps (fun sent => hush_talking (finishSend_hush d sent)) (hush_talking (dropResponse_hush d))
    (fun _ => hush_talking (modifyClient_hush fun _ => ⟨rfl, rfl, rfl⟩)) (freeClient_talking d) ws

theorem processQueueMessages_hush (q : Ptr) : Keeps Hush Fault.Any (processQueueMessages q) :=
  keeps_bind keeps_get fun _ => keeps_bind
    (withStock_hush (Stock.truthful_local.processExpiredMessagesQueueT _) q) fun _ =>
    withStock_hush (Stock.truthful_local.processUnconfirmedMessagesQueueT _) q

theorem serverUpdater_talking : Keeps (Talking c 0) Fault.Any serverUpdater := by
  refine keeps_bind (hush_talking (modify_hush fun _ => hush_same rfl rfl (Nat.le_refl _) rfl)) fun _ =>
    keeps_bind (keeps_modify _ fun s => ?_) fun _ =>
      keeps_bind (clientTimeouts_upheld upheld_talking fun s d => (freed_hush s d).talking) fun _ =>
        keeps_bind ?_ fun _ => ?_
  · split_ifs <;> exact same_talking rfl rfl (Nat.le_refl _) rfl
  · exact keeps_bind keeps_get fun _ => keeps_forM (fun q => hush_talking (processQueueMessages_hush q)) _
  · exact storageTimeouts_keeps (R := Talking c 0) (fun _ _ => same_talking rfl rfl (Nat.le_refl _) rfl)
      fun _ => same_talking rfl rfl (Nat.le_refl _) rfl

end Packets

end EagleMQ
