import EagleMQ.Lasting

/-! What a step does to the lists of records and of users, said once. A request
that creates, renames or deletes a record is one of a few turns; everything else
leaves the names alone and takes records away only when they delete themselves. -/

namespace EagleMQ

open Prog

namespace Kind

def createCmd : Kind → Byte
  | queue => Cmd.queueCreate
  | route => Cmd.routeCreate
  | channel => Cmd.channelCreate

def deleteCmd : Kind → Byte
  | queue => Cmd.queueDelete
  | route => Cmd.routeDelete
  | channel => Cmd.channelDelete

/-- The bit of the flags of `flush`. -/
def flushBit : Kind → ℕ
  | queue => 1
  | route => 2
  | channel => 3

/-- The string at the name of a record. -/
def nameOf : Kind → EagleServer → Ptr → Option Name
  | queue, s => s.queueName
  | route, s => s.routeName
  | channel, s => s.channelName

end Kind

/-- No record on the list has the name. -/
def Unused (K : Kind) (s : EagleServer) (name : Name) : Prop :=
  ∀ p ∈ K.list s, K.nameOf s p ≠ some name

/-- A record has been put on a list, under a new name and unused. -/
structure Created (K : Kind) (req : Request) (s t : EagleServer) : Prop where
  cmd : req.cmd = K.createCmd
  pos : 76 ≤ req.pos
  name : ∃ name after auto, Accepted req checkInputBuffer2 8 64 name ∧ Unused K s name ∧
    K.tag t s.fresh = some ⟨cString 64 name (leBytes 4 (req.u32 72) ++ after), auto, false⟩
  users : t.users = s.users
  destroyed : t.destroyed = s.destroyed
  fresh : s.fresh < t.fresh
  list : ∀ K' : Kind, K'.list t = if K' = K then K.list s ++ [s.fresh] else K'.list s
  tags : ∀ (K' : Kind) p, ¬(K' = K ∧ p = s.fresh) → K'.tag t p = K'.tag s p

/-- A record has got another name. -/
structure Renamed (K : Kind) (req : Request) (p : Ptr) (s t : EagleServer) : Prop where
  mem : p ∈ K.list s
  name : ∃ name, Accepted req checkInputBuffer2 72 64 name ∧ Unused K s name ∧
    K.tag t p = (K.tag s p).map fun a => { a with name := name }
  users : t.users = s.users
  destroyed : t.destroyed = s.destroyed
  fresh : s.fresh ≤ t.fresh
  list : ∀ K' : Kind, K'.list t = K'.list s
  tags : ∀ (K' : Kind) p', ¬(K' = K ∧ p' = p) → K'.tag t p' = K'.tag s p'

/-- What a request does to the records on the lists. -/
inductive Turn (s : EagleServer) (req : Request) (t : EagleServer) : Prop
  | same (h : Endures.All s t)
  | users (f : List EagleUser → List EagleUser) (hf : UserChange s.users req f) (hu : t.users = f s.users)
      (hd : t.destroyed = s.destroyed) (hn : s.fresh ≤ t.fresh)
      (hl : ∀ K : Kind, K.list t = K.list s) (ht : ∀ K : Kind, K.tag t = K.tag s)
  | create (K : Kind) (h : Created K req s t)
  | rename (K : Kind) (p : Ptr) (h : Renamed K req p s t)
  | delete (K : Kind) (p : Ptr) (hcmd : req.cmd = K.deleteCmd)
      (hname : Names req (K.nameOf s) (K.list s) p) (h : Endures (but K p fun _ _ => False) s t)
      (hgone : (K.list s).Nodup → p ∉ K.list t)
  | flush (hcmd : req.cmd = Cmd.flush)
      (hu : t.users = if bitCheck (req.u32 8) 0 then s.users.filter EagleUser.notChange else s.users)
      (hgone : ∀ K : Kind, bitCheck (req.u32 8) K.flushBit = true → K.list t = [])
      (h : Endures (fun K _ => bitCheck (req.u32 8) K.flushBit = true) { s with users := t.users } t)

section Turns

variable {s t : EagleServer} {c p : Ptr} {req : Request} {K : Kind}

theorem turn_of_answers {α : Type} {m : ServerM α} (h : Keeps Answers Fault.Any m) :
    wp m (fun _ t => Turn s req t) Fault.Any s :=
  wp_mono (h s) (fun _ _ ht => .same ht.endures) fun _ h => h

theorem turn_of_endures {α : Type} {m : ServerM α} (h : Keeps Endures.All Fault.Any m) :
    wp m (fun _ t => Turn s req t) Fault.Any s :=
  wp_mono (h s) (fun _ _ ht => .same ht) fun _ h => h

theorem respond_endures {X : Kind → Ptr → Prop} (c : Ptr) (req : Request) (status : Byte) :
    Keeps (Endures X) Fault.Any (respond c req status) :=
  answers_endures (addStatusResponse_answers served _ _)

theorem reportResult_endures {X : Kind → Ptr → Prop} {m : ServerM Bool} (hm : Keeps (Endures X) Fault.Any m) :
    Keeps (Endures X) Fault.Any (reportResult c req m) :=
  keeps_bind hm fun _ => keeps_ite (fun _ => respond_endures c req _) fun _ => respond_endures c req _

/-- A turn goes on until the client is answered. -/
theorem respond_spec {Q : Unit → EagleServer → Prop} {status : Byte} (h : ∀ t, Answers s t → Q () t) :
    wp (respond c req status) Q Fault.Any s :=
  wp_mono (addStatusResponse_answers served _ _ s) (fun _ t ht => h t ht) fun _ h => h

/-! ### Creation and renaming -/

theorem cString_of_byte (name after : List Byte) {field : ℕ} (h : name.length < 64 ∨ field % 256 = 0) :
    cString 64 name (leBytes 4 field ++ after) = name := by
  unfold cString
  split_ifs with hn
  · rfl
  · have hbyte : UInt8.ofNat field = 0 := by
      have := h.resolve_left hn
      rw [← UInt8.toNat_inj, UInt8.toNat_ofNat]
      simpa using this
    simp [leBytes, hbyte]

/-- Renaming writes the terminator of the new name. -/
theorem cString_spill (name after : List Byte) (field : ℕ) :
    cString 64 name (leBytes 4 (spill name field) ++ after) = name := by
  refine cString_of_byte name after ?_
  by_cases hn : name.length < 64
  · exact .inl hn
  · refine .inr ?_
    rw [spill, if_neg hn]
    omega

theorem Created.answers {t u : EagleServer} (h : Created K req s t) (hu : Answers t u) :
    Created K req s u where
  cmd := h.cmd
  pos := h.pos
  name := by rw [hu.tag]; exact h.name
  users := hu.users.trans h.users
  destroyed := hu.destroyed.trans h.destroyed
  fresh := Nat.lt_of_lt_of_le h.fresh hu.fresh
  list K' := (hu.list K').trans (h.list K')
  tags K' p hp := by rw [hu.tag, h.tags K' p hp]

theorem Renamed.answers {t u : EagleServer} (h : Renamed K req p s t) (hu : Answers t u) :
    Renamed K req p s u where
  mem := h.mem
  name := by rw [hu.tag]; exact h.name
  users := hu.users.trans h.users
  destroyed := hu.destroyed.trans h.destroyed
  fresh := Nat.le_trans h.fresh hu.fresh
  list K' := (hu.list K').trans (h.list K')
  tags K' p hp := by rw [hu.tag, h.tags K' p hp]

theorem tag_update_of_ne {α : Type} {h : Heap α} (tag : α → Tag) {x : Option α} {p p' : Ptr}
    (hp : p' ≠ p) : (Function.update h p x p').map tag = (h p').map tag := by
  rw [Function.update_of_ne hp]

theorem unused_of_free {α : Type} {h : Heap α} {cName : α → Name} {l : List Ptr} {name : Name}
    (hfree : ∀ p ∈ l, ∀ x, h p = some x → cName x ≠ name) : ∀ p ∈ l, (h p).map cName ≠ some name := by
  intro p hp hname
  obtain ⟨x, hx, hxn⟩ := Option.map_eq_some_iff.mp hname
  exact hfree p hp x hx hxn

theorem createQueue_turn {name : Name} {maxMsg maxMsgSize flags : ℕ}
    (hname : Accepted req checkInputBuffer2 8 64 name)
    (hfree : ∀ q ∈ s.queues, ∀ x, s.queueAt q = some x → x.cName ≠ name)
    (hcmd : req.cmd = Cmd.queueCreate) (hpos : 84 ≤ req.pos) (hmsg : maxMsg = req.u32 72) :
    wp (createQueue c req name maxMsg maxMsgSize flags) (fun _ t => Turn s req t) Fault.Any s := by
  subst hmsg
  refine respond_spec fun t ht => .create .queue (Created.answers ?_ ht)
  refine ⟨hcmd, by omega, ⟨name, leBytes 4 maxMsgSize ++ (leBytes 4 flags ++
    leBytes 4 (bitCheck flags 0).toNat), bitCheck flags 0, hname, unused_of_free hfree, ?_⟩, rfl, rfl,
    Nat.lt_succ_self _, fun K => by cases K <;> rfl, fun K p hp => ?_⟩
  · simp only [Kind.tag, Function.update_self, Option.map_some, QueueT.tag, QueueT.cName, List.append_assoc]
    rfl
  · cases K with
    | queue => exact tag_update_of_ne QueueT.tag fun h => hp ⟨rfl, h⟩
    | route => rfl
    | channel => rfl

theorem createRoute_turn {name : Name} {flags : ℕ} (hname : Accepted req checkInputBuffer2 8 64 name)
    (hfree : ∀ r ∈ s.routes, ∀ x, s.routeAt r = some x → x.cName ≠ name)
    (hcmd : req.cmd = Cmd.routeCreate) (hpos : 76 ≤ req.pos) (hflags : flags = req.u32 72) :
    wp (createRoute c req name flags) (fun _ t => Turn s req t) Fault.Any s := by
  subst hflags
  refine respond_spec fun t ht => .create .route (Created.answers ?_ ht)
  refine ⟨hcmd, hpos, ⟨name, leBytes 4 (bitCheck (req.u32 72) 0).toNat, bitCheck (req.u32 72) 0, hname,
    unused_of_free hfree, ?_⟩, rfl, rfl, Nat.lt_succ_self _, fun K => by cases K <;> rfl, fun K p hp => ?_⟩
  · simp only [Kind.tag, Function.update_self, Option.map_some]
    rfl
  · cases K with
    | queue => rfl
    | route => exact tag_update_of_ne RouteT.tag fun h => hp ⟨rfl, h⟩
    | channel => rfl

theorem createChannel_turn {name : Name} {flags : ℕ} (hname : Accepted req checkInputBuffer2 8 64 name)
    (hfree : ∀ ch ∈ s.channels, ∀ x, s.channelAt ch = some x → x.cName ≠ name)
    (hcmd : req.cmd = Cmd.channelCreate) (hpos : 76 ≤ req.pos) (hflags : flags = req.u32 72) :
    wp (createChannel c req name flags) (fun _ t => Turn s req t) Fault.Any s := by
  subst hflags
  refine respond_spec fun t ht => .create .channel (Created.answers ?_ ht)
  refine ⟨hcmd, hpos, ⟨name, leBytes 4 (bitCheck (req.u32 72) 0).toNat, bitCheck (req.u32 72) 0, hname,
    unused_of_free hfree, ?_⟩, rfl, rfl, Nat.lt_succ_self _, fun K => by cases K <;> rfl, fun K p hp => ?_⟩
  · simp only [Kind.tag, Function.update_self, Option.map_some]
    rfl
  · cases K with
    | queue => rfl
    | route => rfl
    | channel => exact tag_update_of_ne ChannelT.tag fun h => hp ⟨rfl, h⟩

theorem renameQueue_turn {q : Ptr} {name : Name} (hq : q ∈ s.queues)
    (hname : Accepted req checkInputBuffer2 72 64 name)
    (hfree : ∀ q ∈ s.queues, ∀ x, s.queueAt q = some x → x.cName ≠ name) :
    wp (do renameQueueT q name; respond c req Status.success) (fun _ t => Turn s req t) Fault.Any s := by
  rw [wp_bind]
  cases hx : s.queueAt q with
  | none => simp [renameQueueT, modifyQueue, getQueue, hx, Fault.Any]
  | some x =>
    refine wp_modifyQueue ⟨x, hx, respond_spec fun t ht => .rename .queue q (Renamed.answers ?_ ht)⟩
    refine ⟨hq, ⟨name, hname, unused_of_free hfree, ?_⟩, rfl, rfl, Nat.le_refl _,
      fun K => by cases K <;> rfl, fun K p hp => ?_⟩
    · simp only [Kind.tag, EagleServer.setQueue_queueAt, hx, Option.map_some, QueueT.tag, QueueT.cName,
        List.append_assoc, cString_spill]
    · cases K with
      | queue => exact tag_update_of_ne QueueT.tag fun h => hp ⟨rfl, h⟩
      | route => rfl
      | channel => rfl

theorem renameRoute_turn {r : Ptr} {name : Name} (hr : r ∈ s.routes)
    (hname : Accepted req checkInputBuffer2 72 64 name)
    (hfree : ∀ r ∈ s.routes, ∀ x, s.routeAt r = some x → x.cName ≠ name) :
    wp (do renameRouteT r name; respond c req Status.success) (fun _ t => Turn s req t) Fault.Any s := by
  rw [wp_bind]
  cases hx : s.routeAt r with
  | none => simp [renameRouteT, modifyRoute, getRoute, hx, Fault.Any]
  | some x =>
    refine wp_modifyRoute ⟨x, hx, respond_spec fun t ht => .rename .route r (Renamed.answers ?_ ht)⟩
    refine ⟨hr, ⟨name, hname, unused_of_free hfree, ?_⟩, rfl, rfl, Nat.le_refl _,
      fun K => by cases K <;> rfl, fun K p hp => ?_⟩
    · simp only [Kind.tag, EagleServer.setRoute_routeAt, hx, Option.map_some, RouteT.tag, RouteT.cName,
        cString_spill]
    · cases K with
      | queue => rfl
      | route => exact tag_update_of_ne RouteT.tag fun h => hp ⟨rfl, h⟩
      | channel => rfl

theorem renameChannel_turn {ch : Ptr} {name : Name} (hch : ch ∈ s.channels)
    (hname : Accepted req checkInputBuffer2 72 64 name)
    (hfree : ∀ ch ∈ s.channels, ∀ x, s.channelAt ch = some x → x.cName ≠ name) :
    wp (do renameChannelT ch name; respond c req Status.success) (fun _ t => Turn s req t) Fault.Any s := by
  rw [wp_bind]
  cases hx : s.channelAt ch with
  | none => simp [renameChannelT, modifyChannel, getChannel, hx, Fault.Any]
  | some x =>
    refine wp_modifyChannel ⟨x, hx, respond_spec fun t ht => .rename .channel ch (Renamed.answers ?_ ht)⟩
    refine ⟨hch, ⟨name, hname, unused_of_free hfree, ?_⟩, rfl, rfl, Nat.le_refl _,
      fun K => by cases K <;> rfl, fun K p hp => ?_⟩
    · simp only [Kind.tag, EagleServer.setChannel_channelAt, hx, Option.map_some, ChannelT.tag,
        ChannelT.cName, cString_spill]
    · cases K with
      | queue => rfl
      | route => rfl
      | channel => exact tag_update_of_ne ChannelT.tag fun h => hp ⟨rfl, h⟩

/-! ### Deletion -/

theorem delete_turn {delete : ServerM Bool} {K : Kind} (hcmd : req.cmd = K.deleteCmd)
    (hname : Names req (K.nameOf s) (K.list s) p)
    (hdelete : wp delete (fun _ t => Endures (but K p fun _ _ => False) s t ∧
      ((K.list s).Nodup → p ∉ K.list t)) Fault.Any s) :
    wp (reportResult c req delete) (fun _ t => Turn s req t) Fault.Any s := by
  rw [reportResult, wp_bind]
  refine wp_mono hdelete (fun ok t ht => ?_) fun _ h => h
  obtain ⟨ht, hgone⟩ := ht
  have hend : ∀ u, Answers t u → Turn s req u := fun u hu =>
    .delete K p hcmd hname (IsTrans.trans _ _ _ ht hu.endures) fun hn => by
      rw [hu.list]
      exact hgone hn
  exact wp_ite (fun _ => respond_spec hend) fun _ => respond_spec hend

/-- What is deleted by way of the list is no longer on it. -/
theorem not_mem_of_delist {l : List Ptr} {t u : EagleServer} (hl : K.list t = l.erase p)
    (hu : Endures (but K p fun _ _ => False) t u) : l.Nodup → p ∉ K.list u := fun hn hp =>
  hn.not_mem_erase (hl ▸ (hu.sub K).subset hp)

theorem listDeleteQueue_turn {q : Ptr} :
    wp (listDeleteQueue q) (fun _ t => Endures (but .queue q fun _ _ => False) s t ∧
      (s.queues.Nodup → q ∉ t.queues)) Fault.Any s := by
  refine wp_and (F := Fault.Any) (listDeleteQueue_endures (.inl ⟨rfl, rfl⟩) s) ?_
  rw [listDeleteQueue, wp_bind, wp_get]
  refine wp_ite (fun _ => ?_) fun hq => fun _ => hq
  rw [wp_bind, wp_modify, wp_bind]
  exact wp_mono (deleteQueueT_endures (X := but .queue q fun _ _ => False) (.inl ⟨rfl, rfl⟩) _)
    (fun _ u hu => not_mem_of_delist (K := .queue) rfl hu) fun _ h => h

theorem listDeleteRoute_turn {r : Ptr} :
    wp (listDeleteRoute r) (fun _ t => Endures (but .route r fun _ _ => False) s t ∧
      (s.routes.Nodup → r ∉ t.routes)) Fault.Any s := by
  refine wp_and (F := Fault.Any) (listDeleteRoute_endures (.inl ⟨rfl, rfl⟩) s) ?_
  rw [listDeleteRoute, wp_bind, wp_get]
  refine wp_ite (fun _ => ?_) fun hr => fun _ => hr
  rw [wp_bind, wp_modify, wp_bind]
  exact wp_mono (deleteRouteT_endures (X := but .route r fun _ _ => False) (.inl ⟨rfl, rfl⟩) _)
    (fun _ u hu => not_mem_of_delist (K := .route) rfl hu) fun _ h => h

theorem listDeleteChannel_turn {ch : Ptr} :
    wp (listDeleteChannel ch) (fun _ t => Endures (but .channel ch fun _ _ => False) s t ∧
      (s.channels.Nodup → ch ∉ t.channels)) Fault.Any s := by
  refine wp_and (F := Fault.Any) (listDeleteChannel_endures (.inl ⟨rfl, rfl⟩) s) ?_
  rw [listDeleteChannel, listDeleteWith, wp_bind, wp_get]
  refine wp_ite (fun _ => ?_) fun hch => fun _ => hch
  rw [wp_bind, wp_modify, wp_bind]
  exact wp_mono (deleteChannelT_endures (but .channel ch fun _ _ => False) ch (.inl ⟨rfl, rfl⟩) _)
    (fun _ u hu => not_mem_of_delist (K := .channel) rfl hu) fun _ h => h

theorem keeps_any {m : ServerM Unit} {Q : Unit → EagleServer → Prop} (h : wp m Q Fault.Outside s) :
    wp m Q Fault.Any s := wp_mono h (fun _ _ h => h) fun _ _ => trivial

/-- One part of a flush, then the rest. -/
theorem flush_turn {X : Kind → Ptr → Prop} {b : Bool} {m k : ServerM Unit} {Q : Unit → EagleServer → Prop}
    (h : Serving c s) (hX : b = true → ∀ p, X K p)
    (hm : Serving c s → wp m (fun _ t => Serving c t ∧ K.list t = []) Fault.Outside s)
    (hend : (∀ p, X K p) → Keeps (Endures X) Fault.Any m)
    (hk : ∀ t, Serving c t → Endures X s t → (b = true → K.list t = []) → wp k Q Fault.Any t) :
    wp (do
      if b then m
      k) Q Fault.Any s := by
  cases b with
  | false => exact hk s h (Std.Refl.refl s) fun h => by cases h
  | true =>
    rw [if_pos rfl, wp_bind]
    exact wp_mono (wp_and (keeps_any (hm h)) (hend (hX rfl) s))
      (fun _ t ht => hk t ht.1.1 ht.2 fun _ => ht.1.2) fun _ h => h

/-- The lists whose bits are set are emptied, their records excepted. -/
theorem flushData_turn (h : Serving c s) (hcmd : req.cmd = Cmd.flush) :
    wp (flushData c req (req.u32 8)) (fun _ t => Turn s req t) Fault.Any s := by
  generalize hX : (fun (K : Kind) (_ : Ptr) => bitCheck (req.u32 8) K.flushBit = true) = X
  have hread : ∀ list : EagleServer → List Ptr,
      Keeps (Endures X) Fault.Any (do pure (list (← get)) : ServerM (List Ptr)) := fun list =>
    keeps_bind keeps_get fun _ => keeps_pure _
  have hset : ∀ K : Kind, bitCheck (req.u32 8) K.flushBit = true → ∀ p, X K p := fun K hK _ => by
    subst hX
    exact hK
  have hparts : ∀ s', Serving c s' →
      (s'.users = if bitCheck (req.u32 8) 0 then s.users.filter EagleUser.notChange else s.users) →
      (∀ X, Endures X { s with users := s'.users } s') →
      wp (do
        if bitCheck (req.u32 8) 1 then deleteQueues
        if bitCheck (req.u32 8) 2 then deleteRoutes
        if bitCheck (req.u32 8) 3 then deleteChannels
        respond c req Status.success : ServerM Unit) (fun _ t => Turn s req t) Fault.Any s' := by
    intro s' hs' husers hsame
    refine flush_turn (K := .queue) (X := X) hs' (hset .queue) deleteQueues_spec (fun hq => keeps_foreach
      (hread _) trivial fun q => keeps_bind (listDeleteQueue_endures (hq q)) fun _ => keeps_pure _)
      fun t ht h1 hqueues => ?_
    refine flush_turn (K := .route) (X := X) ht (hset .route) deleteRoutes_spec (fun hr => keeps_foreach
      (hread _) trivial fun r => keeps_bind (listDeleteRoute_endures (hr r)) fun _ => keeps_pure _)
      fun u hu h2 hroutes => ?_
    refine flush_turn (K := .channel) (X := X) hu (hset .channel) deleteChannels_spec
      (fun hch => keeps_foreach
      (hread _) trivial fun ch => keeps_bind (listDeleteChannel_endures (hch ch)) fun _ => keeps_pure _)
      fun v hv h3 hchannels => ?_
    refine respond_spec fun w hw => ?_
    have hend : Endures X s' w := IsTrans.trans _ _ _ h1
      (IsTrans.trans _ _ _ h2 (IsTrans.trans _ _ _ h3 hw.endures))
    have htu : Endures X t w := IsTrans.trans _ _ _ h2 (IsTrans.trans _ _ _ h3 hw.endures)
    have huv : Endures X u w := IsTrans.trans _ _ _ h3 hw.endures
    refine .flush hcmd (hend.users ▸ husers) (fun K hK => ?_) ?_
    · cases K with
      | queue => exact List.sublist_nil.mp (hqueues hK ▸ htu.sub .queue)
      | route => exact List.sublist_nil.mp (hroutes hK ▸ huv.sub .route)
      | channel => exact List.sublist_nil.mp ((hw.list .channel).trans (hchannels hK) ▸ List.Sublist.refl _)
    · rw [hX, hend.users]
      exact IsTrans.trans _ _ _ (hsame X) hend
  refine wp_ite (fun hb => ?_) fun hb => ?_
  · rw [wp_bind, deleteUsers, modifyUsers, wp_modify]
    exact hparts _ (h.frame ⟨rfl, Nat.le_refl _⟩) (by rw [if_pos hb]) fun _ => Std.Refl.refl _
  · exact hparts s h (by rw [if_neg hb]) fun _ => Std.Refl.refl s

/-! ### Requests -/

theorem getFromQueue_endures {X : Kind → Ptr → Prop} {q : Ptr} {k : Ptr → ServerM Unit}
    (hk : ∀ m, Keeps (Endures X) Fault.Any (k m)) :
    Keeps (Endures X) Fault.Any (requireFound c req Status.errorNoData
      (withStock q Stock.getMessageQueueT) k) :=
  keeps_bind (withStock_endures _) fun m => by
    cases m with
    | none => exact respond_endures c req _
    | some m => exact hk m

theorem messageResponse_endures {X : Kind → Ptr → Prop} (q m : Ptr) :
    Keeps (Endures X) Fault.Any (messageResponse c req q m) :=
  keeps_bind (withStock_endures _) fun _ => answers_endures <| keeps_bind (objectSize_answers served _)
    fun _ => keeps_bind (addResponse_answers served _) fun _ => addObjectResponse_answers served _

/-- What an operation of a request does to the records on the lists. -/
theorem Effect.turn [Lzf] {m : ServerM Unit} (he : Effect s c req m) (h : Serving c s) :
    wp m (fun _ t => Turn s req t) Fault.Any s := by
  cases he with
  | status cmd status => exact turn_of_answers (addStatusResponse_answers served cmd status)
  | auth user =>
    exact turn_of_endures (keeps_bind (modifyClient_endures _) fun _ => respond_endures c req _)
  | disconnect => exact turn_of_endures freeClient_endures
  | data body => exact turn_of_answers (dataResponse_answers served req body)
  | fault e => exact trivial
  | save async =>
    exact turn_of_endures (saveData_keeps (R := Endures _)
      (fun _ => endures_of_eq rfl rfl (Nat.le_refl _) (fun K => by cases K <;> rfl)
      fun K => by cases K <;> rfl) (respond_endures c req) async)
  | flush flags _ hcmd hflags => exact hflags ▸ flushData_turn h hcmd
  | users f _ hf =>
    rw [wp_bind, modifyUsers, wp_modify]
    refine respond_spec fun t ht => .users f hf ht.users ht.destroyed ht.fresh (fun K => ?_) fun K => ?_
    · exact (ht.list K).trans (by cases K <;> rfl)
    · exact (ht.tag K).trans (by cases K <;> rfl)
  | queueCreate name maxMsg maxMsgSize flags _ hname hfree _ hcmd hpos hmsg =>
    exact createQueue_turn hname hfree hcmd hpos hmsg
  | queueDeclare q =>
    exact turn_of_endures (keeps_bind (keeps_bind (modifyClient_endures _) fun _ =>
      modifyQueue_endures (.inr fun x => ⟨rfl, rfl, fun _ _ => by simp [QueueT.tag]⟩)) fun _ =>
        respond_endures c req _)
  | queueRename q name _ hq hname hfree => exact renameQueue_turn hq hname hfree
  | queuePush q =>
    exact turn_of_endures (keeps_bind (answers_endures (createObject_answers _)) fun _ =>
      reportResult_endures (keeps_bind keeps_get fun _ => pushMessageQueueT_endures _ _))
  | queueGet q => exact turn_of_endures (getFromQueue_endures fun m => messageResponse_endures q m)
  | queuePop q =>
    exact turn_of_endures (getFromQueue_endures fun m => keeps_bind (messageResponse_endures q m) fun _ =>
      keeps_bind keeps_get fun _ => withStock_endures _)
  | queueConfirm q =>
    exact turn_of_endures (keeps_bind (withStock_endures _) fun _ => keeps_ite
      (fun _ => respond_endures c req _) fun _ => respond_endures c req _)
  | queueSubscribe q flags =>
    exact turn_of_endures (keeps_bind (keeps_bind (modifyClient_endures _) fun _ => keeps_ite
      (fun _ => modifyQueue_endures (.inr fun _ => .refl _))
      fun _ => modifyQueue_endures (.inr fun _ => .refl _)) fun _ => respond_endures c req _)
  | queueUnsubscribe q =>
    exact turn_of_endures (keeps_bind (keeps_bind (modifyClient_endures _) fun _ =>
      modifyQueue_endures (.inr fun x => by split_ifs <;> exact .refl _)) fun _ => respond_endures c req _)
  | queuePurge q => exact turn_of_endures (keeps_bind (withStock_endures _) fun _ => respond_endures c req _)
  | queueDelete q _ _ hcmd hname => exact delete_turn (K := .queue) hcmd hname listDeleteQueue_turn
  | routeCreate name flags _ hname hfree hcmd hpos hflags =>
    exact createRoute_turn hname hfree hcmd hpos hflags
  | routeRename r name _ hr hname hfree => exact renameRoute_turn hr hname hfree
  | routeBind r q key =>
    exact turn_of_endures (keeps_bind (bindRouteT_endures key) fun _ => respond_endures c req _)
  | routeUnbind r q key => exact turn_of_endures (reportResult_endures (unbindRouteT_endures key))
  | routePush r key =>
    exact turn_of_endures (keeps_bind (answers_endures (createObject_answers _)) fun _ =>
      keeps_bind (answers_endures (resetRefcount_answers served _)) fun _ =>
        reportResult_endures (keeps_bind keeps_get fun _ => pushMessageRouteT_endures key _ _))
  | routeDelete r _ _ hcmd hname => exact delete_turn (K := .route) hcmd hname listDeleteRoute_turn
  | channelCreate name flags _ hname hfree hcmd hpos hflags =>
    exact createChannel_turn hname hfree hcmd hpos hflags
  | channelRename ch name _ hch hname hfree => exact renameChannel_turn hch hname hfree
  | channelPublish ch topic => exact turn_of_answers (publishToChannel_answers served req topic)
  | channelSubscribe d ch name =>
    exact turn_of_endures (keeps_bind (subscribeSide_endures d name) fun _ => respond_endures c req _)
  | channelUnsubscribe d ch name =>
    exact turn_of_endures (keeps_bind (unsubscribeSide_endures d name) fun _ => keeps_ite
      (fun _ => keeps_bind (respond_endures c req _) fun _ => respond_endures c req _)
      fun _ => respond_endures c req _)
  | channelDelete ch _ _ hcmd hname => exact delete_turn (K := .channel) hcmd hname listDeleteChannel_turn

/-- A turn depends on users, lists, tags and the counter alone. -/
theorem Turn.of_setClient {y : EagleClient} (h : Turn (s.setClient c y) req t) : Turn s req t := by
  have hl : ∀ K : Kind, K.list (s.setClient c y) = K.list s := fun K => by cases K <;> rfl
  have ht : ∀ K : Kind, K.tag (s.setClient c y) = K.tag s := fun K => by cases K <;> rfl
  have hn : ∀ K : Kind, K.nameOf (s.setClient c y) = K.nameOf s := fun K => by cases K <;> rfl
  have hs : ∀ X, Endures X s (s.setClient c y) := fun X => endures_of_eq rfl rfl (Nat.le_refl _) hl ht
  cases h with
  | same h => exact .same (IsTrans.trans _ _ _ (hs _) h)
  | users f hf hu hd hfresh hlist htag =>
    exact .users f hf hu hd hfresh (fun K => (hlist K).trans (hl K)) fun K => (htag K).trans (ht K)
  | create K h =>
    obtain ⟨name, after, auto, hname, hfree, htag⟩ := h.name
    refine .create K ⟨h.cmd, h.pos, ⟨name, after, auto, hname, ?_, htag⟩, h.users, h.destroyed,
      h.fresh, fun K' => ?_, fun K' p hp => ?_⟩
    · unfold Unused at hfree ⊢
      rwa [hl, hn] at hfree
    · rw [h.list, hl, hl]
      rfl
    · rw [h.tags K' p hp, ht]
  | rename K p h =>
    obtain ⟨name, hname, hfree, htag⟩ := h.name
    refine .rename K p ⟨hl K ▸ h.mem, ⟨name, hname, ?_, ?_⟩, h.users, h.destroyed, h.fresh,
      fun K' => ?_, fun K' p' hp => ?_⟩
    · unfold Unused at hfree ⊢
      rwa [hl, hn] at hfree
    · rw [htag, ht]
    · rw [h.list, hl]
    · rw [h.tags K' p' hp, ht]
  | delete K p hcmd hname h hgone =>
    rw [hl, hn] at hname
    exact .delete K p hcmd hname (IsTrans.trans _ _ _ (hs _) h) fun hnodup => hgone (by rwa [hl])
  | flush hcmd hu hgone h =>
    have hs : Endures (fun K _ => bitCheck (req.u32 8) K.flushBit = true) { s with users := t.users }
        { s.setClient c y with users := t.users } :=
      endures_of_eq rfl rfl (Nat.le_refl _) (fun K => by cases K <;> rfl) fun K => by cases K <;> rfl
    exact .flush hcmd hu hgone (IsTrans.trans _ _ _ hs h)

/-! ### Steps -/

theorem acceptClient_endures {X : Kind → Ptr → Prop} (fd : ℕ) :
    Keeps (Endures X) Fault.Any (acceptClient fd) := by
  have hcreate : Keeps (Endures X) Fault.Any (createClient fd) := fun s => by
    rw [createClient, wp_bind, wp_get]
    refine wp_ite (fun _ => ?_) fun _ => Std.Refl.refl s
    exact endures_of_eq rfl rfl (Nat.le_succ _) (fun K => by cases K <;> rfl) fun K => by cases K <;> rfl
  refine keeps_bind hcreate fun c => ?_
  cases c with
  | none => exact keeps_pure _
  | some c =>
    exact keeps_bind keeps_get fun _ => keeps_ite (fun _ => freeClient_endures) fun _ => keeps_pure _

theorem sendResponse_endures {X : Kind → Ptr → Prop} (ws : List Written) :
    ∀ sent, Keeps (Endures X) Fault.Any (sendResponse c sent ws) := by
  have hfinish : ∀ sent, Keeps (Endures X) Fault.Any (finishSend c sent) := fun sent =>
    answers_endures (finishSend_answers served sent)
  have hdrop : ∀ l, Keeps (Endures X) Fault.Any (dropEmpty c l) := fun l =>
    answers_endures (dropEmpty_answers served l)
  induction ws with
  | nil => exact fun sent => keeps_bind getClient_endures fun _ => keeps_bind (hdrop _) fun _ => hfinish sent
  | cons w ws ih =>
    intro sent
    refine keeps_bind getClient_endures fun _ => keeps_bind (hdrop _) fun _ =>
      keeps_bind getClient_endures fun x => ?_
    split
    · exact hfinish sent
    · exact hfinish sent
    · exact freeClient_endures
    · refine keeps_bind (answers_endures (objectSize_answers served _)) fun _ => keeps_ite
        (fun _ => hfinish sent) fun _ => keeps_ite (fun _ => ?_) fun _ => ?_
      · exact keeps_bind (answers_endures (dropResponse_answers served)) fun _ =>
          keeps_bind (modifyClient_endures _) fun _ => ih true
      · exact keeps_bind (modifyClient_endures _) fun _ => ih true

theorem serverUpdater_endures {X : Kind → Ptr → Prop} : Keeps (Endures X) Fault.Any serverUpdater := by
  have htimeouts : Keeps (Endures X) Fault.Any clientTimeouts :=
    keeps_bind keeps_get fun s => keeps_ite (fun _ => keeps_foreach
      (keeps_bind keeps_get fun _ => keeps_pure _) trivial fun c => keeps_bind getClient_endures fun _ =>
        keeps_ite (fun _ => freeClient_endures) fun _ => keeps_pure _) fun _ => keeps_pure _
  have hmessages : Keeps (Endures X) Fault.Any processQueuesMessages :=
    keeps_bind keeps_get fun s => keeps_forM (fun q => keeps_bind keeps_get fun _ =>
      keeps_bind (withStock_endures _) fun _ => withStock_endures _) _
  have hstorage : Keeps (Endures X) Fault.Any storageTimeouts := storageTimeouts_keeps (R := Endures X)
    (fun _ _ => endures_of_eq rfl rfl (Nat.le_refl _) (fun K => by cases K <;> rfl)
    fun K => by cases K <;> rfl)
    fun _ => endures_of_eq rfl rfl (Nat.le_refl _) (fun K => by cases K <;> rfl) fun K => by cases K <;> rfl
  refine keeps_bind (modify_endures (fun _ => rfl) (fun _ => rfl) (fun _ => Nat.le_refl _)
    (fun _ K => by cases K <;> rfl) fun _ K => by cases K <;> rfl)
    fun _ => keeps_bind (modify_endures (fun s => ?_) (fun s => ?_) (fun s => ?_)
      (fun s K => ?_) fun s K => ?_) fun _ =>
      keeps_bind htimeouts fun _ => keeps_bind hmessages fun _ => hstorage
  · split_ifs <;> rfl
  · split_ifs <;> rfl
  · split_ifs <;> exact Nat.le_refl _
  · cases K <;> dsimp only [Kind.list] <;> split_ifs <;> rfl
  · cases K <;> funext p <;> dsimp only [Kind.tag] <;> split_ifs <;> rfl

/-- What a step does to the records on the lists. -/
theorem step_turn [Lzf] {op : Op} (h : Related .none s) (ha : Enabled s op) (ht : step s op = .ok t) :
    Endures.All s t ∨ ∃ c req, op = .request c req ∧ Turn s req t := by
  have hrun := step_eq_ok.mp ht
  have hall : Keeps Endures.All Fault.Any op.run → Endures.All s t := fun hk =>
    ok_of_wp (Q := fun _ t => Endures.All s t) (hk s) hrun
  cases op with
  | environment env =>
    exact .inl (hall (modify_endures (fun _ => rfl) (fun _ => rfl) (fun _ => Nat.le_refl _)
      (fun _ K => by cases K <;> rfl) fun _ K => by cases K <;> rfl))
  | connect fd => exact .inl (hall (acceptClient_endures fd))
  | receive c => exact .inl (hall (keeps_bind keeps_get fun _ => modifyClient_endures _))
  | request c req =>
    obtain ⟨x, hx⟩ := client_alive.mp (h.consistent.clients.alive ha.1)
    obtain ⟨noack, m, he, hm⟩ := parseCommand_effect req h hx
    have hsame : Frame s (s.setClient c { x with noack := noack }) :=
      ⟨links_client_same hx rfl rfl fun d => by cases d <;> rfl, Nat.le_refl _⟩
    have hserve : Serving c s := ⟨h, client_alive.mpr ⟨x, hx⟩⟩
    have hturn := he.turn (hserve.frame hsame)
    unfold wp at hturn
    rw [← hm, show parseCommand c req s = .ok ((), t) from hrun] at hturn
    exact .inr ⟨c, req, rfl, hturn.of_setClient⟩
  | malformed c => exact .inl (hall (answers_endures (addStatusResponse_answers served _ _)))
  | send c results => exact .inl (hall (sendResponse_endures results false))
  | close c => exact .inl (hall freeClient_endures)
  | tick => exact .inl (hall serverUpdater_endures)

end Turns

end EagleMQ
