import EagleMQ.QueueT
import EagleMQ.ChannelT

/-! The relations between clients, queues, routes and channels. `Links` keeps of
a state only the lists in which one record mentions another and the lists of the
server, as total functions: a record that is not there mentions nothing. The
relations are consistent when both sides of each of them agree; a record that is
being built or torn down is off its list for a while, and loose. -/

namespace EagleMQ

/-- A list of the server and which records there are. -/
structure Roster where
  list : List Ptr
  alive : Ptr → Bool

namespace Roster

def alloc (r : Roster) (p : Ptr) : Roster := { r with alive := Function.update r.alive p true }

def free (r : Roster) (p : Ptr) : Roster := { r with alive := Function.update r.alive p false }

def enlist (r : Roster) (p : Ptr) : Roster := { r with list := r.list ++ [p] }

def delist (r : Roster) (p : Ptr) : Roster := { r with list := r.list.erase p }

/-- The list names each record once, except those that are loose. -/
structure Ok (r : Roster) (loose : Set Ptr) : Prop where
  nodup : r.list.Nodup
  mem : ∀ p, p ∈ r.list ↔ r.alive p = true ∧ p ∉ loose

variable {r : Roster} {loose : Set Ptr} {p : Ptr}

theorem Ok.alive (h : r.Ok loose) (hp : p ∈ r.list) : r.alive p = true := ((h.mem p).mp hp).1

theorem Ok.alloc (h : r.Ok loose) (hp : p ∉ r.list) : (r.alloc p).Ok (insert p loose) := by
  refine ⟨h.nodup, fun x => ?_⟩
  have hx := h.mem x
  by_cases hxp : x = p
  · subst hxp
    simpa [Roster.alloc] using hp
  · simpa [Roster.alloc, hxp] using hx

theorem Ok.enlist (h : r.Ok (insert p loose)) (hp : r.alive p = true) (hl : p ∉ loose) :
    (r.enlist p).Ok loose := by
  refine ⟨?_, fun x => ?_⟩
  · refine List.nodup_append.mpr ⟨h.nodup, by simp, fun x hx y hy hxy => ?_⟩
    obtain rfl := List.mem_singleton.mp hy
    exact ((h.mem x).mp hx).2 (by simp [hxy])
  · have hx := h.mem x
    by_cases hxp : x = p
    · subst hxp
      simp [Roster.enlist, hp, hl]
    · simpa [Roster.enlist, hxp] using hx

theorem Ok.delist (h : r.Ok loose) : (r.delist p).Ok (insert p loose) := by
  refine ⟨h.nodup.erase p, fun x => ?_⟩
  have hx := h.mem x
  simp only [Roster.delist, h.nodup.mem_erase_iff, Set.mem_insert_iff, not_or]
  tauto

theorem Ok.free (h : r.Ok (insert p loose)) : (r.free p).Ok loose := by
  refine ⟨h.nodup, fun x => ?_⟩
  have hx := h.mem x
  by_cases hxp : x = p
  · subst hxp
    simpa [Roster.free] using hx
  · simpa [Roster.free, hxp] using hx

theorem Ok.not_mem (h : r.Ok loose) (hp : p ∈ loose) : p ∉ r.list := fun hm =>
  ((h.mem p).mp hm).2 hp

/-- The addresses of the records lie below a bound. -/
def Below (r : Roster) (n : Ptr) : Prop := ∀ p, r.alive p = true → p < n

theorem Below.mono {n m : Ptr} (h : r.Below n) (hnm : n ≤ m) : r.Below m := fun p hp =>
  Nat.lt_of_lt_of_le (h p hp) hnm

theorem Below.free {n : Ptr} (h : r.Below n) (p : Ptr) : (r.free p).Below n := fun x hx => by
  by_cases hxp : x = p
  · subst hxp; simp [Roster.free] at hx
  · exact h x (by simpa [Roster.free, hxp] using hx)

theorem Below.alloc {n : Ptr} (h : r.Below n) : (r.alloc n).Below (n + 1) := fun x hx => by
  by_cases hxn : x = n
  · exact hxn ▸ Nat.lt_succ_self _
  · exact Nat.lt_succ_of_lt (h x (by simpa [Roster.alloc, hxn] using hx))

theorem Below.not_mem {n : Ptr} (h : r.Below n) (ho : r.Ok loose) : n ∉ r.list := fun hn =>
  Nat.lt_irrefl n (h n (ho.alive hn))

end Roster

structure Links where
  clients : Roster
  queues : Roster
  routes : Roster
  channels : Roster
  /-- Of a client. -/
  declaredQueues : Ptr → List Ptr
  /-- Of a queue. -/
  declaredClients : Ptr → List Ptr
  subscribedQueues : Ptr → List Ptr
  subscribedClientsMsg : Ptr → List Ptr
  subscribedClientsNotify : Ptr → List Ptr
  /-- The queues under the keys of a route. -/
  boundQueues : Ptr → Keylist Name Ptr
  /-- The routes under the keys of a queue. -/
  boundRoutes : Ptr → Keylist Name Ptr
  /-- The clients under the nodes of a channel. -/
  members : Side → Ptr → Keylist TopicNode Ptr
  /-- The nodes under the channels of a client. -/
  topics : Side → Ptr → Keylist Ptr TopicNode

/-- The relations of a state. -/
def links (s : EagleServer) : Links where
  clients := ⟨s.clients, fun c => (s.clientAt c).isSome⟩
  queues := ⟨s.queues, fun q => (s.queueAt q).isSome⟩
  routes := ⟨s.routes, fun r => (s.routeAt r).isSome⟩
  channels := ⟨s.channels, fun ch => (s.channelAt ch).isSome⟩
  declaredQueues := Heap.read s.clientAt EagleClient.declaredQueues []
  declaredClients := Heap.read s.queueAt QueueT.declaredClients []
  subscribedQueues := Heap.read s.clientAt EagleClient.subscribedQueues []
  subscribedClientsMsg := Heap.read s.queueAt QueueT.subscribedClientsMsg []
  subscribedClientsNotify := Heap.read s.queueAt QueueT.subscribedClientsNotify []
  boundQueues := Heap.read s.routeAt RouteT.keys []
  boundRoutes := Heap.read s.queueAt QueueT.routes []
  members d := Heap.read s.channelAt (fun x => x.side d) []
  topics d := Heap.read s.clientAt (fun x => x.side d) []

/-- The records that are off their lists. -/
structure Loose where
  queues : Set Ptr
  routes : Set Ptr
  channels : Set Ptr

def Loose.none : Loose := ⟨∅, ∅, ∅⟩

namespace Links

def subscribedClients (L : Links) (q : Ptr) : List Ptr :=
  L.subscribedClientsMsg q ++ L.subscribedClientsNotify q

structure Consistent (X : Loose) (L : Links) : Prop where
  clients : L.clients.Ok ∅
  queues : L.queues.Ok X.queues
  routes : L.routes.Ok X.routes
  channels : L.channels.Ok X.channels
  declared : Mirror L.declaredQueues L.declaredClients
  subscribed : Mirror L.subscribedQueues L.subscribedClients
  /-- A queue that is torn down loses its declarations first. -/
  within : ∀ c q, q ∈ L.subscribedQueues c → q ∉ X.queues → q ∈ L.declaredQueues c
  boundQueues_wf : ∀ r, (L.boundQueues r).WF
  boundRoutes_wf : ∀ q, (L.boundRoutes q).WF
  bound : KMirror L.boundQueues L.boundRoutes
  members_wf : ∀ d ch, (L.members d ch).WF
  topics_wf : ∀ d c, (L.topics d c).WF
  joined : ∀ d ch, Mirror (fun node => (L.members d ch).values node) fun c => (L.topics d c).values ch
  /-- A channel has one node for each name. -/
  names : ∀ d ch, ((L.members d ch).keys.map Prod.snd).Nodup

/-- There are no records. -/
def empty : Links where
  clients := ⟨[], fun _ => false⟩
  queues := ⟨[], fun _ => false⟩
  routes := ⟨[], fun _ => false⟩
  channels := ⟨[], fun _ => false⟩
  declaredQueues _ := []
  declaredClients _ := []
  subscribedQueues _ := []
  subscribedClientsMsg _ := []
  subscribedClientsNotify _ := []
  boundQueues _ := []
  boundRoutes _ := []
  members _ _ := []
  topics _ _ := []

/-! ### Operations -/

def declare (L : Links) (c q : Ptr) : Links :=
  { L with
    declaredQueues := Function.update L.declaredQueues c (L.declaredQueues c ++ [q])
    declaredClients := Function.update L.declaredClients q (L.declaredClients q ++ [c]) }

def undeclare (L : Links) (c q : Ptr) : Links :=
  { L with
    declaredQueues := Function.update L.declaredQueues c ((L.declaredQueues c).erase q)
    declaredClients := Function.update L.declaredClients q ((L.declaredClients q).erase c) }

/-- The queue is put on the client's list, the client on the list given. -/
def subscribe (L : Links) (c q : Ptr) (msg notify : List Ptr) : Links :=
  { L with
    subscribedQueues := Function.update L.subscribedQueues c (L.subscribedQueues c ++ [q])
    subscribedClientsMsg := Function.update L.subscribedClientsMsg q msg
    subscribedClientsNotify := Function.update L.subscribedClientsNotify q notify }

def unsubscribe (L : Links) (c q : Ptr) (msg notify : List Ptr) : Links :=
  { L with
    subscribedQueues := Function.update L.subscribedQueues c ((L.subscribedQueues c).erase q)
    subscribedClientsMsg := Function.update L.subscribedClientsMsg q msg
    subscribedClientsNotify := Function.update L.subscribedClientsNotify q notify }

def bind (L : Links) (r q : Ptr) (key : Name) : Links :=
  { L with
    boundQueues := Function.update L.boundQueues r ((L.boundQueues r).add key q)
    boundRoutes := Function.update L.boundRoutes q ((L.boundRoutes q).add key r) }

def unbind (L : Links) (r q : Ptr) (key : Name) : Links :=
  { L with
    boundQueues := Function.update L.boundQueues r ((L.boundQueues r).remove key q)
    boundRoutes := Function.update L.boundRoutes q ((L.boundRoutes q).remove key r) }

def join (L : Links) (d : Side) (ch c : Ptr) (node : TopicNode) : Links :=
  { L with
    members := Function.update L.members d
      (Function.update (L.members d) ch ((L.members d ch).add node c))
    topics := Function.update L.topics d
      (Function.update (L.topics d) c ((L.topics d c).add ch node)) }

def leave (L : Links) (d : Side) (ch c : Ptr) (node : TopicNode) : Links :=
  { L with
    members := Function.update L.members d
      (Function.update (L.members d) ch ((L.members d ch).remove node c))
    topics := Function.update L.topics d
      (Function.update (L.topics d) c ((L.topics d c).remove ch node)) }

/-! ### What the operations keep -/

variable {X : Loose} {L : Links} {c q r ch : Ptr} {key : Name} {d : Side} {node : TopicNode}

namespace Consistent

theorem empty : Consistent .none empty where
  clients := ⟨List.nodup_nil, by simp [Links.empty]⟩
  queues := ⟨List.nodup_nil, by simp [Links.empty]⟩
  routes := ⟨List.nodup_nil, by simp [Links.empty]⟩
  channels := ⟨List.nodup_nil, by simp [Links.empty]⟩
  declared := .empty
  subscribed := .empty
  within _ _ h := absurd h (by simp [Links.empty])
  boundQueues_wf _ := .nil
  boundRoutes_wf _ := .nil
  bound _ := .empty
  members_wf _ _ := .nil
  topics_wf _ _ := .nil
  joined _ _ := .empty
  names _ _ := List.nodup_nil

theorem declare (h : Consistent X L) (hq : q ∉ L.declaredQueues c) : Consistent X (L.declare c q) :=
  { h with
    declared := h.declared.link hq
    within := fun c' q' hs hX => by
      have := h.within c' q' hs hX
      by_cases hc : c' = c
      · subst hc
        simp [Links.declare, this]
      · simpa [Links.declare, hc] using this }

/-- Only a queue that the client is not subscribed to, or that goes away itself. -/
theorem undeclare (h : Consistent X L) (hq : q ∉ L.subscribedQueues c ∨ q ∈ X.queues) :
    Consistent X (L.undeclare c q) :=
  { h with
    declared := h.declared.unlink c q
    within := fun c' q' hs hX => by
      have hd := h.within c' q' hs hX
      by_cases hqq : q' = q
      · subst hqq
        have hc : c' ≠ c := by
          rintro rfl
          exact hq.elim (fun hn => hn hs) hX
        simpa [Links.undeclare, hc] using hd
      · exact (Mirror.mem_update_erase_of_ne hqq).mpr hd }

theorem perm_update {β : Type} {f : Ptr → List β} {p : Ptr} {l m : List β} (hl : l.Perm m)
    (x : Ptr) : (Function.update f p l x).Perm (Function.update f p m x) := by
  by_cases hx : x = p
  · subst hx; simpa using hl
  · simp [hx]

theorem perm_values_set {κ β : Type} [DecidableEq κ] [DecidableEq β] {F : Ptr → Keylist κ β}
    {p : Ptr} {k : κ} {l : List β} (hl : l.Perm ((F p).values k)) (k' : κ) (x : Ptr) :
    ((Function.update F p ((F p).set k l) x).values k').Perm ((F x).values k') := by
  by_cases hx : x = p
  · subst hx
    rw [Function.update_self, Keylist.values_set]
    split_ifs with hk
    · exact hk ▸ hl
    · rfl
  · simp [hx]

theorem update_wf {α κ β : Type} [DecidableEq α] [DecidableEq κ] [DecidableEq β]
    {F : α → Keylist κ β} (h : ∀ x, (F x).WF) {a : α} {l : Keylist κ β} (hl : l.WF) (x : α) :
    (Function.update F a l x).WF := by
  by_cases hx : x = a
  · subst hx; simpa using hl
  · simpa [hx] using h x

theorem subscribedClients_update (L : Links) (q : Ptr) (subscribed : Ptr → List Ptr)
    (msg notify : List Ptr) :
    ({ L with
      subscribedQueues := subscribed
      subscribedClientsMsg := Function.update L.subscribedClientsMsg q msg
      subscribedClientsNotify := Function.update L.subscribedClientsNotify q notify } :
        Links).subscribedClients = Function.update L.subscribedClients q (msg ++ notify) := by
  funext x
  by_cases hx : x = q
  · subst hx; simp [subscribedClients]
  · simp [subscribedClients, hx]

theorem subscribe {msg notify : List Ptr} (h : Consistent X L) (hd : q ∈ L.declaredQueues c)
    (hs : q ∉ L.subscribedQueues c) (hl : (msg ++ notify).Perm (L.subscribedClients q ++ [c])) :
    Consistent X (L.subscribe c q msg notify) :=
  { h with
    subscribed := by
      rw [Links.subscribe, subscribedClients_update L q]
      exact (h.subscribed.link hs).congr (fun _ => .rfl) (perm_update hl)
    within := fun c' q' hs' hX => by
      by_cases hc : c' = c
      · subst hc
        by_cases hqq : q' = q
        · subst hqq; exact hd
        · exact h.within c' q' (by simpa [Links.subscribe, hqq] using hs') hX
      · exact h.within c' q' (by simpa [Links.subscribe, hc] using hs') hX }

theorem unsubscribe {msg notify : List Ptr} (h : Consistent X L)
    (hl : (msg ++ notify).Perm ((L.subscribedClients q).erase c)) :
    Consistent X (L.unsubscribe c q msg notify) :=
  { h with
    subscribed := by
      rw [Links.unsubscribe, subscribedClients_update L q]
      exact (h.subscribed.unlink c q).congr (fun _ => .rfl) (perm_update hl)
    within := fun c' q' hs' hX => h.within c' q' (Mirror.mem_update_erase hs') hX }

/-- The subscribers of a queue may change places. -/
theorem reorder {msg : List Ptr} (h : Consistent X L) (hl : msg.Perm (L.subscribedClientsMsg q)) :
    Consistent X { L with subscribedClientsMsg := Function.update L.subscribedClientsMsg q msg } :=
  { h with
    subscribed := by
      refine h.subscribed.congr (fun _ => .rfl) fun y => ?_
      by_cases hy : y = q
      · subst hy
        simpa [subscribedClients] using hl.append_right _
      · simp [subscribedClients, hy] }

theorem bind (h : Consistent X L) (hq : q ∉ (L.boundQueues r).values key) :
    Consistent X (L.bind r q key) :=
  { h with
    boundQueues_wf := update_wf h.boundQueues_wf ((h.boundQueues_wf r).add key q)
    boundRoutes_wf := update_wf h.boundRoutes_wf ((h.boundRoutes_wf q).add key r)
    bound := h.bound.link hq }

theorem unbind (key : Name) (h : Consistent X L) : Consistent X (L.unbind r q key) :=
  { h with
    boundQueues_wf := update_wf h.boundQueues_wf ((h.boundQueues_wf r).remove key q)
    boundRoutes_wf := update_wf h.boundRoutes_wf ((h.boundRoutes_wf q).remove key r)
    bound := h.bound.unlink (h.boundQueues_wf r) (h.boundRoutes_wf q) key }

/-- The queues under a key may change places. -/
theorem reorderBound {l : List Ptr} (h : Consistent X L) (hk : key ∈ (L.boundQueues r).keys)
    (hl : l.Perm ((L.boundQueues r).values key)) :
    Consistent X { L with
      boundQueues := Function.update L.boundQueues r ((L.boundQueues r).set key l) } :=
  { h with
    boundQueues_wf := update_wf h.boundQueues_wf ((h.boundQueues_wf r).set hk fun hn =>
      (h.boundQueues_wf r).ne_nil key hk (List.nil_perm.mp (hn ▸ hl)))
    bound := fun k => (h.bound k).congr (fun a => perm_values_set hl k a) fun _ => .rfl }

theorem join (h : Consistent X L) (hc : c ∉ (L.members d ch).values node)
    (hn : node ∈ (L.members d ch).keys ∨ node.2 ∉ (L.members d ch).keys.map Prod.snd) :
    Consistent X (L.join d ch c node) :=
  { h with
    members_wf := fun d' => by
      by_cases hd : d' = d
      · subst hd
        simpa [Links.join] using update_wf (h.members_wf d') ((h.members_wf d' ch).add node c)
      · simpa [Links.join, hd] using h.members_wf d'
    topics_wf := fun d' => by
      by_cases hd : d' = d
      · subst hd
        simpa [Links.join] using update_wf (h.topics_wf d') ((h.topics_wf d' c).add ch node)
      · simpa [Links.join, hd] using h.topics_wf d'
    joined := fun d' ch' => by
      by_cases hd : d' = d
      · subst hd
        simp only [Links.join, Function.update_self]
        by_cases hch : ch' = ch
        · subst hch
          simp only [Function.update_self, KMirror.values_update, Keylist.values_add, if_pos]
          have := (h.joined d' ch').link hc
          refine this.congr (fun n => ?_) fun _ => .rfl
          by_cases hnn : n = node <;> simp [hnn]
        · simp only [ne_eq, hch, not_false_eq_true, Function.update_of_ne, KMirror.values_update,
            Keylist.values_add, if_neg]
          rw [Function.update_eq_self]
          exact h.joined d' ch'
      · simpa [Links.join, hd] using h.joined d' ch'
    names := fun d' ch' => by
      by_cases hd : d' = d
      · subst hd
        by_cases hch : ch' = ch
        · subst hch
          simp only [Links.join, Function.update_self, Keylist.add, Keylist.keys_set]
          split_ifs with hk
          · exact h.names d' ch'
          · rw [List.map_append]
            refine List.nodup_append.mpr ⟨h.names d' ch', by simp, fun x hx y hy hxy => ?_⟩
            obtain rfl := List.mem_singleton.mp hy
            exact hn.resolve_left hk (hxy ▸ hx)
        · simpa [Links.join, hch] using h.names d' ch'
      · simpa [Links.join, hd] using h.names d' ch' }

theorem leave (h : Consistent X L) : Consistent X (L.leave d ch c node) :=
  { h with
    members_wf := fun d' => by
      by_cases hd : d' = d
      · subst hd
        simpa [Links.leave] using update_wf (h.members_wf d') ((h.members_wf d' ch).remove node c)
      · simpa [Links.leave, hd] using h.members_wf d'
    topics_wf := fun d' => by
      by_cases hd : d' = d
      · subst hd
        simpa [Links.leave] using update_wf (h.topics_wf d') ((h.topics_wf d' c).remove ch node)
      · simpa [Links.leave, hd] using h.topics_wf d'
    joined := fun d' ch' => by
      by_cases hd : d' = d
      · subst hd
        have hm := Keylist.values_remove (h.members_wf d' ch)
        have ht := Keylist.values_remove (h.topics_wf d' c)
        simp only [Links.leave, Function.update_self]
        by_cases hch : ch' = ch
        · subst hch
          simp only [Function.update_self, KMirror.values_update, hm, ht, if_pos]
          have := (h.joined d' ch').unlink node c
          refine this.congr (fun n => ?_) fun _ => .rfl
          by_cases hnn : n = node <;> simp [hnn]
        · simp only [ne_eq, hch, not_false_eq_true, Function.update_of_ne, KMirror.values_update,
            ht, if_neg]
          rw [Function.update_eq_self]
          exact h.joined d' ch'
      · simpa [Links.leave, hd] using h.joined d' ch'
    names := fun d' ch' => by
      by_cases hd : d' = d
      · subst hd
        by_cases hch : ch' = ch
        · subst hch
          simpa [Links.leave] using (h.names d' ch').sublist (Keylist.keys_remove_sublist.map _)
        · simpa [Links.leave, hch] using h.names d' ch'
      · simpa [Links.leave, hd] using h.names d' ch' }

/-- The clients under a node may change places. -/
theorem reorderMembers {l : List Ptr} (h : Consistent X L) (hk : node ∈ (L.members d ch).keys)
    (hl : l.Perm ((L.members d ch).values node)) :
    Consistent X { L with
      members := Function.update L.members d
        (Function.update (L.members d) ch ((L.members d ch).set node l)) } :=
  { h with
    members_wf := fun d' => by
      by_cases hd : d' = d
      · subst hd
        simpa using update_wf (h.members_wf d') ((h.members_wf d' ch).set hk fun hn =>
          (h.members_wf d' ch).ne_nil node hk (List.nil_perm.mp (hn ▸ hl)))
      · simpa [hd] using h.members_wf d'
    joined := fun d' ch' => by
      by_cases hd : d' = d
      · subst hd
        refine (h.joined d' ch').congr (fun n => ?_) fun _ => .rfl
        by_cases hch : ch' = ch
        · subst hch
          simp only [Function.update_self, Keylist.values_set]
          split_ifs with hnn
          · exact hnn ▸ hl
          · rfl
        · simp [hch]
      · simpa [hd] using h.joined d' ch'
    names := fun d' ch' => by
      by_cases hd : d' = d
      · subst hd
        by_cases hch : ch' = ch
        · subst hch
          simpa [Keylist.keys_set, hk] using h.names d' ch'
        · simpa [hch] using h.names d' ch'
      · simpa [hd] using h.names d' ch' }

/-! ### Records come and go -/

theorem enroll (h : Consistent X L) (hc : c ∉ L.clients.list) :
    Consistent X { L with clients := (L.clients.alloc c).enlist c } :=
  { h with clients := (h.clients.alloc hc).enlist (by simp [Roster.alloc]) (by simp) }

theorem expel (h : Consistent X L) :
    Consistent X { L with clients := (L.clients.delist c).free c } :=
  { h with clients := h.clients.delist.free }

theorem allocQueue (h : Consistent X L) (hq : q ∉ L.queues.list) :
    Consistent { X with queues := insert q X.queues } { L with queues := L.queues.alloc q } :=
  { h with
    queues := h.queues.alloc hq
    within := fun c' q' hs hX => h.within c' q' hs (mt (Set.mem_insert_of_mem q) hX) }

theorem delistQueue (h : Consistent X L) :
    Consistent { X with queues := insert q X.queues } { L with queues := L.queues.delist q } :=
  { h with
    queues := h.queues.delist
    within := fun c' q' hs hX => h.within c' q' hs (mt (Set.mem_insert_of_mem q) hX) }

/-- A queue that nobody has subscribed to need not be loose. -/
theorem within_of_insert {Y : Loose} (h : Consistent { Y with queues := insert q Y.queues } L)
    (hs : L.subscribedClients q = []) (c' q' : Ptr) (hs' : q' ∈ L.subscribedQueues c')
    (hY : q' ∉ Y.queues) : q' ∈ L.declaredQueues c' := by
  have hqq : q' ≠ q := by
    rintro rfl
    simpa [hs] using h.subscribed.mem.mp hs'
  exact h.within c' q' hs' (by simp [hqq, hY])

theorem enlistQueue (h : Consistent { X with queues := insert q X.queues } L)
    (hq : L.queues.alive q = true) (hX : q ∉ X.queues) (hs : L.subscribedClients q = []) :
    Consistent X { L with queues := L.queues.enlist q } :=
  { h with queues := h.queues.enlist hq hX, within := h.within_of_insert hs }

theorem freeQueue (h : Consistent { X with queues := insert q X.queues } L)
    (hs : L.subscribedClients q = []) : Consistent X { L with queues := L.queues.free q } :=
  { h with queues := h.queues.free, within := h.within_of_insert hs }

theorem allocRoute (h : Consistent X L) (hr : r ∉ L.routes.list) :
    Consistent { X with routes := insert r X.routes } { L with routes := L.routes.alloc r } :=
  { h with routes := h.routes.alloc hr }

theorem delistRoute (h : Consistent X L) :
    Consistent { X with routes := insert r X.routes } { L with routes := L.routes.delist r } :=
  { h with routes := h.routes.delist }

theorem enlistRoute (h : Consistent { X with routes := insert r X.routes } L)
    (hr : L.routes.alive r = true) (hX : r ∉ X.routes) :
    Consistent X { L with routes := L.routes.enlist r } :=
  { h with routes := h.routes.enlist hr hX }

theorem freeRoute (h : Consistent { X with routes := insert r X.routes } L) :
    Consistent X { L with routes := L.routes.free r } :=
  { h with routes := h.routes.free }

theorem allocChannel (h : Consistent X L) (hch : ch ∉ L.channels.list) :
    Consistent { X with channels := insert ch X.channels } { L with channels := L.channels.alloc ch } :=
  { h with channels := h.channels.alloc hch }

theorem delistChannel (h : Consistent X L) :
    Consistent { X with channels := insert ch X.channels } { L with channels := L.channels.delist ch } :=
  { h with channels := h.channels.delist }

theorem enlistChannel (h : Consistent { X with channels := insert ch X.channels } L)
    (hch : L.channels.alive ch = true) (hX : ch ∉ X.channels) :
    Consistent X { L with channels := L.channels.enlist ch } :=
  { h with channels := h.channels.enlist hch hX }

theorem freeChannel (h : Consistent { X with channels := insert ch X.channels } L) :
    Consistent X { L with channels := L.channels.free ch } :=
  { h with channels := h.channels.free }

end Consistent

/-- The addresses of the records lie below the counter. -/
structure Below (L : Links) (n : Ptr) : Prop where
  clients : L.clients.Below n
  queues : L.queues.Below n
  routes : L.routes.Below n
  channels : L.channels.Below n

theorem Below.empty (n : Ptr) : Links.empty.Below n :=
  ⟨by simp [Roster.Below, Links.empty], by simp [Roster.Below, Links.empty],
    by simp [Roster.Below, Links.empty], by simp [Roster.Below, Links.empty]⟩

theorem Below.mono {n m : Ptr} (h : L.Below n) (hnm : n ≤ m) : L.Below m :=
  ⟨h.clients.mono hnm, h.queues.mono hnm, h.routes.mono hnm, h.channels.mono hnm⟩

end Links

end EagleMQ
