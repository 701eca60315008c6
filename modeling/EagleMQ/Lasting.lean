import EagleMQ.Links.Answers
import EagleMQ.Links.Upheld
import EagleMQ.Relations

/-! How long a record lasts. Queues, routes and channels are three kinds of record
with a name and a flag for deleting themselves once they are no longer used.
Whatever is not a command on the record itself keeps its name and its flag, takes
it off its list only when it deletes itself, and does not leave it on the list
unused when it should have gone. -/

namespace EagleMQ

open Prog

/-! ### Kinds of records -/

/-- What a record shows: its name, its flag, and whether it is used. -/
structure Tag where
  name : Name
  autoDelete : Bool
  used : Bool

/-- Some client has declared the queue. -/
def QueueT.tag (x : QueueT) : Tag := ⟨x.cName, x.autoDelete, !x.declaredClients.isEmpty⟩

/-- The route has a key. -/
def RouteT.tag (x : RouteT) : Tag := ⟨x.cName, x.autoDelete, !x.keys.isEmpty⟩

/-- The channel has a topic or a pattern. -/
def ChannelT.tag (x : ChannelT) : Tag :=
  ⟨x.cName, x.autoDelete, !x.topics.isEmpty || !x.patterns.isEmpty⟩

namespace Kind

def list : Kind → EagleServer → List Ptr
  | queue, s => s.queues
  | route, s => s.routes
  | channel, s => s.channels

def tag : Kind → EagleServer → Ptr → Option Tag
  | queue, s, q => (s.queueAt q).map QueueT.tag
  | route, s, r => (s.routeAt r).map RouteT.tag
  | channel, s, ch => (s.channelAt ch).map ChannelT.tag

end Kind

/-- The record is the same one, and goes on being used if it deletes itself otherwise. -/
structure Tag.Lasts (a b : Tag) : Prop where
  name : b.name = a.name
  autoDelete : b.autoDelete = a.autoDelete
  used : a.autoDelete = true → a.used = true → b.used = true

theorem Tag.Lasts.refl (a : Tag) : a.Lasts a := ⟨rfl, rfl, fun _ h => h⟩

theorem Tag.Lasts.trans {a b c : Tag} (h : a.Lasts b) (h' : b.Lasts c) : a.Lasts c :=
  ⟨h'.name.trans h.name, h'.autoDelete.trans h.autoDelete, fun ha hu =>
    h'.used (h.autoDelete.trans ha) (h.used ha hu)⟩

/-- The record was there and is there no longer. -/
def Kind.goes (K : Kind) (s t : EagleServer) (p : Ptr) : Bool := (K.tag s p).isSome && (K.tag t p).isNone

/-- No record comes, and the destructor of each one that goes has run once. -/
structure Disposes (s t : EagleServer) : Prop where
  gone : ∀ (K : Kind) p, K.tag s p = none → K.tag t p = none
  once : ∀ (K : Kind) p, t.destroyed.count (K, p) = s.destroyed.count (K, p) + (K.goes s t p).toNat

instance : IsPreorder EagleServer Disposes where
  refl s := ⟨fun _ _ h => h, fun K p => by cases h : K.tag s p <;> simp [Kind.goes, h]⟩
  trans s t u h h' := by
    refine ⟨fun K p hp => h'.gone K p (h.gone K p hp), fun K p => ?_⟩
    rw [h'.once, h.once, Nat.add_assoc]
    congr 1
    cases hs : K.tag s p with
    | none => simp [Kind.goes, hs, h.gone K p hs]
    | some a =>
      cases ht : K.tag t p with
      | none => simp [Kind.goes, hs, ht, h'.gone K p ht]
      | some b => simp [Kind.goes, hs, ht]

theorem disposes_of_tags {s t : EagleServer} (hd : t.destroyed = s.destroyed)
    (ht : ∀ (K : Kind) p, (K.tag t p).isSome = (K.tag s p).isSome) : Disposes s t := by
  refine ⟨fun K p hp => ?_, fun K p => ?_⟩
  · simpa [hp] using ht K p
  · have hsame := ht K p
    cases hs : K.tag s p <;> cases hu : K.tag t p <;> simp_all [Kind.goes]

/-- A record whose destructor has run is gone, and the others are as they were. -/
theorem disposes_free {s t : EagleServer} {K : Kind} {p : Ptr} (hd : t.destroyed = s.destroyed ++ [(K, p)])
    (hp : (K.tag s p).isSome = true) (hgone : K.tag t p = none)
    (ht : ∀ K' p', ¬(K' = K ∧ p' = p) → K'.tag t p' = K'.tag s p') : Disposes s t := by
  refine ⟨fun K' p' hp' => ?_, fun K' p' => ?_⟩
  · by_cases hsame : K' = K ∧ p' = p
    · rw [hsame.1, hsame.2, hgone]
    · rw [ht K' p' hsame, hp']
  · rw [hd, List.count_append]
    by_cases hsame : K' = K ∧ p' = p
    · obtain ⟨rfl, rfl⟩ := hsame
      simp [Kind.goes, hp, hgone]
    · have hne : (K', p') ≠ (K, p) := fun h => hsame ⟨congrArg Prod.fst h, congrArg Prod.snd h⟩
      rw [List.count_eq_zero_of_not_mem (l := [(K, p)]) (mt List.mem_singleton.mp hne)]
      cases h : K'.tag s p' <;> simp [Kind.goes, ht K' p' hsame, h]

/-- Records other than the `except`ed ones last; those that do not delete themselves stay. -/
structure Endures (except : Kind → Ptr → Prop) (s t : EagleServer) : Prop where
  disposes : Disposes s t
  users : t.users = s.users
  fresh : s.fresh ≤ t.fresh
  sub : ∀ K : Kind, (K.list t).Sublist (K.list s)
  stay : ∀ K : Kind, (K.list s).Nodup → ∀ p ∈ K.list s, ¬except K p → ∀ a, K.tag s p = some a →
    (p ∈ K.list t → ∃ b, K.tag t p = some b ∧ a.Lasts b) ∧ (a.autoDelete = false → p ∈ K.list t)

abbrev Endures.All (s t : EagleServer) : Prop := Endures (fun _ _ => False) s t

section Endures

variable {X : Kind → Ptr → Prop} {s t u : EagleServer} {c q r ch p : Ptr} {K : Kind}

instance : IsPreorder EagleServer (Endures X) where
  refl _ := ⟨Std.Refl.refl _, rfl, Nat.le_refl _, fun _ => List.Sublist.refl _,
    fun _ _ _ hp _ a ha => ⟨fun _ => ⟨a, ha, .refl a⟩, fun _ => hp⟩⟩
  trans s t u h h' := by
    refine ⟨IsTrans.trans _ _ _ h.disposes h'.disposes, h'.users.trans h.users,
      Nat.le_trans h.fresh h'.fresh, fun K => (h'.sub K).trans (h.sub K), fun K hn p hp hX a ha => ?_⟩
    have hs := h.stay K hn p hp hX a ha
    have ht := h'.stay K ((h.sub K).nodup hn) p
    refine ⟨fun hu => ?_, fun hauto => ?_⟩
    · obtain ⟨b, hb, hab⟩ := hs.1 ((h'.sub K).subset hu)
      obtain ⟨b', hb', hbb'⟩ := (ht ((h'.sub K).subset hu) hX b hb).1 hu
      exact ⟨b', hb', hab.trans hbb'⟩
    · have hpt := hs.2 hauto
      obtain ⟨b, hb, hab⟩ := hs.1 hpt
      exact (ht hpt hX b hb).2 (hab.autoDelete.trans hauto)

/-- A step in which no record of a list is touched but the excepted ones. -/
theorem endures_of_tags (hd : Disposes s t) (hu : t.users = s.users) (hn : s.fresh ≤ t.fresh)
    (hl : ∀ K : Kind, K.list t = K.list s)
    (ht : ∀ K p, p ∈ K.list s → ¬X K p → ∀ a, K.tag s p = some a → ∃ b, K.tag t p = some b ∧ a.Lasts b) :
    Endures X s t :=
  ⟨hd, hu, hn, fun K => by rw [hl], fun K _ p hp hX a ha =>
    ⟨fun _ => ht K p hp hX a ha, fun _ => by rw [hl]; exact hp⟩⟩

theorem endures_of_eq (hd : t.destroyed = s.destroyed) (hu : t.users = s.users)
    (hn : s.fresh ≤ t.fresh) (hl : ∀ K : Kind, K.list t = K.list s)
    (ht : ∀ K : Kind, K.tag t = K.tag s) : Endures X s t :=
  endures_of_tags (disposes_of_tags hd fun K p => by rw [ht]) hu hn hl fun K p _ _ a ha =>
    ⟨a, by rw [ht, ha], .refl a⟩

/-! ### Answers -/

theorem QueueT.tag_mute {x y : QueueT} (h : y.mute = x.mute) : y.tag = x.tag :=
  show y.mute.tag = x.mute.tag by rw [h]

theorem RouteT.tag_mute {x y : RouteT} (h : y.mute = x.mute) : y.tag = x.tag := by
  have hkeys : ∀ z : RouteT, z.mute.tag = z.tag := fun z => by
    cases hz : z.keys <;> simp [RouteT.tag, RouteT.mute, RouteT.cName, Keylist.keys, hz]
  rw [← hkeys y, h, hkeys x]

theorem ChannelT.tag_mute {x y : ChannelT} (h : y.mute = x.mute) : y.tag = x.tag := by
  have hkeys : ∀ z : ChannelT, z.mute.tag = z.tag := fun z => by
    cases hz : z.topics <;> simp [ChannelT.tag, ChannelT.mute, ChannelT.cName, Keylist.keys, hz]
  rw [← hkeys y, h, hkeys x]

theorem map_tag_mute {α : Type} {mute : α → α} {tag : α → Tag} {x y : Option α}
    (htag : ∀ {x y}, mute y = mute x → tag y = tag x) (h : y.map mute = x.map mute) :
    y.map tag = x.map tag := by
  cases x with
  | none => rw [Option.map_eq_none_iff.mp h]
  | some x =>
    obtain ⟨y', rfl, hy⟩ := Option.map_eq_some_iff.mp h
    exact congrArg some (htag hy)

theorem Answers.list (h : Answers s t) (K : Kind) : K.list t = K.list s := by
  cases K with
  | queue => exact h.queues
  | route => exact h.routes
  | channel => exact h.channels

theorem Answers.tag (h : Answers s t) (K : Kind) : K.tag t = K.tag s := by
  funext p
  cases K with
  | queue => exact map_tag_mute QueueT.tag_mute (h.queue p)
  | route => exact map_tag_mute RouteT.tag_mute (h.route p)
  | channel => exact map_tag_mute ChannelT.tag_mute (h.channel p)

theorem Answers.endures (h : Answers s t) : Endures X s t :=
  endures_of_eq h.destroyed h.users h.fresh h.list h.tag

theorem answers_endures {α : Type} {m : ServerM α} (h : Keeps Answers Fault.Any m) :
    Keeps (Endures X) Fault.Any m := fun s => wp_mono (h s) (fun _ _ ht => ht.endures) fun _ h => h

/-! ### Records that change -/

/-- One more record is excepted. -/
def but (K : Kind) (p : Ptr) (X : Kind → Ptr → Prop) : Kind → Ptr → Prop := fun K' p' =>
  (K' = K ∧ p' = p) ∨ X K' p'

/-- A record that has left its list had the flag. -/
theorem Endures.gone (h : Endures (but K p X) s t) (hp : (K.list s).Nodup → p ∈ K.list s →
    p ∉ K.list t ∧ ∀ a, K.tag s p = some a → a.autoDelete = true) : Endures X s t := by
  refine ⟨h.disposes, h.users, h.fresh, h.sub, fun K' hn p' hp' hX a ha => ?_⟩
  by_cases hsame : K' = K ∧ p' = p
  · obtain ⟨rfl, rfl⟩ := hsame
    obtain ⟨hgone, hauto⟩ := hp hn hp'
    exact ⟨fun ht => absurd ht hgone, fun hf => by simp [hauto a ha] at hf⟩
  · exact h.stay K' hn p' hp' (not_or.mpr ⟨hsame, hX⟩) a ha

/-- A record that stays on its list has lasted. -/
theorem Endures.kept (h : Endures (but K p X) s t) (hl : p ∈ K.list s → p ∈ K.list t)
    (hp : ∀ a, K.tag s p = some a → ∃ b, K.tag t p = some b ∧ a.Lasts b) : Endures X s t := by
  refine ⟨h.disposes, h.users, h.fresh, h.sub, fun K' hn p' hp' hX a ha => ?_⟩
  by_cases hsame : K' = K ∧ p' = p
  · obtain ⟨rfl, rfl⟩ := hsame
    exact ⟨fun _ => hp a ha, fun _ => hl hp'⟩
  · exact h.stay K' hn p' hp' (not_or.mpr ⟨hsame, hX⟩) a ha

theorem tag_update {α : Type} {h : Heap α} {tag : α → Tag} {x y : α} (hx : h p = some x) (p' : Ptr)
    (hy : p' = p → (tag x).Lasts (tag y)) {a : Tag} (ha : (h p').map tag = some a) :
    ∃ b, (Function.update h p (some y) p').map tag = some b ∧ a.Lasts b := by
  by_cases hp : p' = p
  · subst hp
    rw [hx] at ha
    cases ha
    exact ⟨tag y, by rw [Function.update_self]; rfl, hy rfl⟩
  · exact ⟨a, by rw [Function.update_of_ne hp, ha], .refl a⟩

theorem tag_update_isSome {α : Type} {h : Heap α} {tag : α → Tag} {x y : α} (hx : h p = some x) (p' : Ptr) :
    ((Function.update h p (some y) p').map tag).isSome = ((h p').map tag).isSome := by
  by_cases hp : p' = p
  · subst hp
    simp [hx]
  · rw [Function.update_of_ne hp]

theorem endures_setQueue {x y : QueueT} (hx : s.queueAt q = some x) (h : X .queue q ∨ x.tag.Lasts y.tag) :
    Endures X s (s.setQueue q y) :=
  endures_of_tags (disposes_of_tags rfl fun K p => by
    cases K with
    | queue => exact tag_update_isSome hx p
    | route => exact rfl
    | channel => exact rfl
    ) rfl (Nat.le_refl _) (fun K => by cases K <;> rfl) fun K p _ hX a ha => by
    cases K with
    | queue => exact tag_update hx p (fun hp => h.resolve_left (hp ▸ hX)) ha
    | route => exact ⟨a, ha, .refl a⟩
    | channel => exact ⟨a, ha, .refl a⟩

theorem endures_setRoute {x y : RouteT} (hx : s.routeAt r = some x) (h : X .route r ∨ x.tag.Lasts y.tag) :
    Endures X s (s.setRoute r y) :=
  endures_of_tags (disposes_of_tags rfl fun K p => by
    cases K with
    | queue => exact rfl
    | route => exact tag_update_isSome hx p
    | channel => exact rfl
    ) rfl (Nat.le_refl _) (fun K => by cases K <;> rfl) fun K p _ hX a ha => by
    cases K with
    | queue => exact ⟨a, ha, .refl a⟩
    | route => exact tag_update hx p (fun hp => h.resolve_left (hp ▸ hX)) ha
    | channel => exact ⟨a, ha, .refl a⟩

theorem endures_setChannel {x y : ChannelT} (hx : s.channelAt ch = some x)
    (h : X .channel ch ∨ x.tag.Lasts y.tag) : Endures X s (s.setChannel ch y) :=
  endures_of_tags (disposes_of_tags rfl fun K p => by
    cases K with
    | queue => exact rfl
    | route => exact rfl
    | channel => exact tag_update_isSome hx p
    ) rfl (Nat.le_refl _) (fun K => by cases K <;> rfl) fun K p _ hX a ha => by
    cases K with
    | queue => exact ⟨a, ha, .refl a⟩
    | route => exact ⟨a, ha, .refl a⟩
    | channel => exact tag_update hx p (fun hp => h.resolve_left (hp ▸ hX)) ha

/-- An excepted record is freed. -/
theorem endures_free {t : EagleServer} (hX : X K p) (hp : (K.tag s p).isSome = true)
    (hd : t.destroyed = s.destroyed ++ [(K, p)]) (hu : t.users = s.users) (hn : s.fresh ≤ t.fresh)
    (hl : ∀ K : Kind, K.list t = K.list s) (hgone : K.tag t p = none)
    (ht : ∀ K' p', ¬(K' = K ∧ p' = p) → K'.tag t p' = K'.tag s p') : Endures X s t :=
  endures_of_tags (disposes_free hd hp hgone ht) hu hn hl fun K' p' _ hX' a ha =>
    ⟨a, by rw [ht K' p' fun ⟨hK, hp⟩ => hX' (hK ▸ hp ▸ hX), ha], .refl a⟩

theorem endures_freeQueue {x : QueueT} (hX : X .queue q) (hx : s.queueAt q = some x) :
    Endures X s (s.freeQueue q) :=
  endures_free (K := .queue) hX (by simp [Kind.tag, hx]) rfl rfl (Nat.le_refl _) (fun K => by cases K <;> rfl)
    (by simp [Kind.tag, EagleServer.freeQueue]) fun K p hp => by
      cases K with
      | queue => exact congrArg (Option.map QueueT.tag) (Function.update_of_ne (fun h => hp ⟨rfl, h⟩) ..)
      | route => rfl
      | channel => rfl

theorem endures_freeRoute {x : RouteT} (hX : X .route r) (hx : s.routeAt r = some x) :
    Endures X s (s.freeRoute r) :=
  endures_free (K := .route) hX (by simp [Kind.tag, hx]) rfl rfl (Nat.le_refl _) (fun K => by cases K <;> rfl)
    (by simp [Kind.tag, EagleServer.freeRoute]) fun K p hp => by
      cases K with
      | queue => rfl
      | route => exact congrArg (Option.map RouteT.tag) (Function.update_of_ne (fun h => hp ⟨rfl, h⟩) ..)
      | channel => rfl

theorem endures_freeChannel {x : ChannelT} (hX : X .channel ch) (hx : s.channelAt ch = some x) :
    Endures X s (s.freeChannel ch) :=
  endures_free (K := .channel) hX (by simp [Kind.tag, hx]) rfl rfl (Nat.le_refl _)
    (fun K => by cases K <;> rfl)
    (by simp [Kind.tag, EagleServer.freeChannel]) fun K p hp => by
      cases K with
      | queue => rfl
      | route => rfl
      | channel => exact congrArg (Option.map ChannelT.tag) (Function.update_of_ne (fun h => hp ⟨rfl, h⟩) ..)

theorem served (e : Fault) (_ : ¬e.Stock) : e.Any := trivial

theorem modifyClient_endures (f : EagleClient → EagleClient) :
    Keeps (Endures X) Fault.Any (modifyClient c f) := answers_endures (modifyClient_answers served f)

theorem modifyQueue_endures {f : QueueT → QueueT} (h : X .queue q ∨ ∀ x : QueueT, x.tag.Lasts (f x).tag) :
    Keeps (Endures X) Fault.Any (modifyQueue q f) := fun s => by
  cases hx : s.queueAt q with
  | none => simp [modifyQueue, getQueue, hx, Fault.Any]
  | some x => exact wp_modifyQueue ⟨x, hx, endures_setQueue hx (h.imp_right fun h => h x)⟩

theorem modifyRoute_endures {f : RouteT → RouteT} (h : X .route r ∨ ∀ x : RouteT, x.tag.Lasts (f x).tag) :
    Keeps (Endures X) Fault.Any (modifyRoute r f) := fun s => by
  cases hx : s.routeAt r with
  | none => simp [modifyRoute, getRoute, hx, Fault.Any]
  | some x => exact wp_modifyRoute ⟨x, hx, endures_setRoute hx (h.imp_right fun h => h x)⟩

theorem modifyChannel_endures {f : ChannelT → ChannelT}
    (h : X .channel ch ∨ ∀ x : ChannelT, x.tag.Lasts (f x).tag) :
    Keeps (Endures X) Fault.Any (modifyChannel ch f) := fun s => by
  cases hx : s.channelAt ch with
  | none => simp [modifyChannel, getChannel, hx, Fault.Any]
  | some x => exact wp_modifyChannel ⟨x, hx, endures_setChannel hx (h.imp_right fun h => h x)⟩

theorem getClient_endures : Keeps (Endures X) Fault.Any (getClient c) :=
  answers_endures (getClient_answers served)

theorem getQueue_endures : Keeps (Endures X) Fault.Any (getQueue q) :=
  answers_endures (getQueue_answers served)

theorem getRoute_endures : Keeps (Endures X) Fault.Any (getRoute r) :=
  answers_endures (getRoute_answers served)

theorem getChannel_endures : Keeps (Endures X) Fault.Any (getChannel ch) :=
  answers_endures (getChannel_answers served)

/-- Messages are not looked at. -/
theorem withStock_endures {α : Type} (m : StockM α) : Keeps (Endures X) Fault.Any (withStock q m) :=
  fun s => by
  unfold wp withStock
  cases hx : s.queueAt q with
  | none => trivial
  | some x =>
    dsimp only
    cases m ⟨x.backlog, s.objects⟩ with
    | error e => trivial
    | ok r =>
      have hset := endures_setQueue (X := X) (y := { x with backlog := r.2.backlog }) hx (.inr (.refl _))
      exact IsTrans.trans _ _ _ hset (Answers.endures ⟨rfl, Nat.le_refl _⟩)

/-- A queue whose messages have been worked on is still there. -/
theorem withStock_record {α : Type} {m : StockM α} (s : EagleServer) :
    wp (withStock q m) (fun _ t => ∃ x, t.queueAt q = some x) Fault.Any s := by
  unfold wp withStock
  cases hx : s.queueAt q with
  | none => trivial
  | some x =>
    dsimp only
    cases m ⟨x.backlog, s.objects⟩ with
    | error e => trivial
    | ok r => exact ⟨_, Function.update_self ..⟩

theorem modify_endures {f : EagleServer → EagleServer} (hd : ∀ s, (f s).destroyed = s.destroyed)
    (hu : ∀ s, (f s).users = s.users)
    (hn : ∀ s, s.fresh ≤ (f s).fresh) (hl : ∀ s (K : Kind), K.list (f s) = K.list s)
    (ht : ∀ s (K : Kind), K.tag (f s) = K.tag s) :
    Keeps (Endures X) Fault.Any (modify f : ServerM Unit) :=
  keeps_modify f fun s => endures_of_eq (hd s) (hu s) (hn s) (hl s) (ht s)

/-- An excepted record is taken off its list. -/
theorem endures_delist (hX : X K p) (hd : t.destroyed = s.destroyed) (hu : t.users = s.users)
    (hn : s.fresh ≤ t.fresh)
    (hl : ∀ K' : Kind, K'.list t = if K' = K then (K.list s).erase p else K'.list s)
    (ht : ∀ K' : Kind, K'.tag t = K'.tag s) : Endures X s t := by
  refine ⟨disposes_of_tags hd fun K p => by rw [ht], hu, hn, fun K' => ?_, fun K' _ p' hp' hX' a ha =>
    ⟨fun _ => ⟨a, by rw [ht, ha], .refl a⟩, fun _ => ?_⟩⟩
  · rw [hl]
    split_ifs with hK
    · exact hK ▸ List.erase_sublist
    · exact List.Sublist.refl _
  · rw [hl]
    split_ifs with hK
    · subst hK
      refine (List.mem_erase_of_ne ?_).mpr hp'
      rintro rfl
      exact hX' hX
    · exact hp'

/-! ### Queues and their clients -/

theorem pushMessageQueueT_endures (data expiration : ℕ) :
    Keeps (Endures X) Fault.Any (pushMessageQueueT q data expiration) := by
  have henqueue : ∀ m, Keeps (Endures X) Fault.Any (enqueueMessage q m) := fun m =>
    keeps_bind getQueue_endures fun _ => keeps_ite
      (fun _ => keeps_ite (fun _ => keeps_bind keeps_get fun _ => keeps_bind (withStock_endures _) fun _ =>
        keeps_bind (withStock_endures _) fun _ => keeps_pure _) fun _ => keeps_pure _)
      fun _ => keeps_bind (withStock_endures _) fun _ => keeps_pure _
  refine keeps_bind keeps_get fun s => keeps_bind (modify_endures (fun _ => rfl) (fun _ => rfl)
    (fun _ => Nat.le_refl _) (fun _ K => by cases K <;> rfl) fun _ K => by cases K <;> rfl) fun _ => ?_
  refine keeps_bind (withStock_endures _) fun m => keeps_bind
    (answers_endures (objectSize_answers served data)) fun size => keeps_bind getQueue_endures fun x =>
      keeps_ite (fun _ => keeps_pure _) fun _ => keeps_bind (answers_endures fun s =>
        processSubscribedClients_answers served (.inl trivial)) fun ok => keeps_ite
          (fun _ => keeps_bind (withStock_endures _) fun _ => keeps_pure _) fun _ => henqueue m

theorem set_ne_nil {κ α : Type} [DecidableEq κ] (l : Keylist κ α) (k : κ) (v : List α) : l.set k v ≠ [] := by
  cases l with
  | nil => simp [Keylist.set]
  | cons x l =>
    unfold Keylist.set
    split_ifs <;> simp

theorem pushMessageRouteT_endures (key : Name) (msg expiration : ℕ) :
    Keeps (Endures X) Fault.Any (pushMessageRouteT r key msg expiration) := by
  have hpush : ∀ (q : Ptr) (f : Bool → Bool), Keeps (Endures X) Fault.Any (do
      let ok ← pushMessageQueueT q msg expiration
      incrementReferencesCount msg
      pure (f ok)) := fun q f =>
    keeps_bind (pushMessageQueueT_endures msg expiration) fun ok => keeps_bind
      (answers_endures (incrementReferencesCount_answers served msg)) fun _ => keeps_pure _
  refine keeps_bind getRoute_endures fun x => keeps_ite (fun _ => keeps_ite (fun _ => ?_) fun _ => ?_)
    fun _ => keeps_pure _
  · refine keeps_bind (modifyRoute_endures (.inr fun x => ⟨rfl, rfl, fun _ _ => ?_⟩)) fun _ =>
      keeps_bind getRoute_endures fun y => ?_
    · simp [RouteT.tag, set_ne_nil]
    · split
      · exact hpush _ id
      · exact keeps_throw trivial
  · exact fun s => wp_foldlM_trans fun q _ status t _ => hpush q (status && ·) t

/-! ### Routes -/

theorem deleteRouteT_endures (hX : X .route r) : Keeps (Endures X) Fault.Any (deleteRouteT r) := fun s => by
  cases hx : s.routeAt r with
  | none => simp [deleteRouteT, getRoute, hx, Fault.Any]
  | some x =>
    rw [deleteRouteT, wp_bind, wp_getRoute hx, wp_bind]
    -- the queues forget the route, the route itself stays
    have hunlink : ∀ key q t, Endures X s t ∧ t.routeAt = s.routeAt → wp (unlinkQueueRouteT q r key)
        (fun _ u => Endures X s u ∧ u.routeAt = s.routeAt) Fault.Any t := fun key q t ht => by
      cases hz : t.queueAt q with
      | none => simp [unlinkQueueRouteT, modifyQueue, getQueue, hz, Fault.Any]
      | some z =>
        exact wp_modifyQueue ⟨z, hz, IsTrans.trans _ _ _ ht.1 (endures_setQueue hz (.inr (.refl _))), ht.2⟩
    refine wp_mono (wp_forM (fun _ t => Endures X s t ∧ t.routeAt = s.routeAt) _ (fun y _ t ht =>
      wp_forM (fun _ t => Endures X s t ∧ t.routeAt = s.routeAt) _
        (fun q _ u hu => hunlink y.1 q u hu) y.2 t ht)
      x.keys s ⟨Std.Refl.refl s, rfl⟩) (fun _ t ht => ?_) fun _ h => h
    obtain ⟨ht, hrt⟩ := ht
    exact IsTrans.trans _ _ _ ht (endures_freeRoute hX ((congrFun hrt r).trans hx))

theorem listDeleteRoute_endures (hX : X .route r) : Keeps (Endures X) Fault.Any (listDeleteRoute r) :=
  keeps_bind keeps_get fun _ => keeps_ite
    (fun _ => keeps_bind (keeps_modify _ fun _ => endures_delist hX rfl rfl (Nat.le_refl _)
    (fun K => by cases K <;> rfl)
      fun K => by cases K <;> rfl) fun _ => keeps_bind (deleteRouteT_endures hX) fun _ => keeps_pure _)
    fun _ => keeps_pure _

/-- A route whose last key goes deletes itself if it has the flag. -/
theorem unbindRouteT_endures (key : Name) : Keeps (Endures X) Fault.Any (unbindRouteT r q key) := fun s => by
  cases hx : s.routeAt r with
  | none => simp [unbindRouteT, getRoute, hx, Fault.Any]
  | some x =>
    rw [unbindRouteT, wp_bind, wp_getRoute hx]
    refine wp_ite (fun _ => ?_) fun _ => Std.Refl.refl s
    rw [wp_bind]
    refine wp_modifyRoute ⟨x, hx, ?_⟩
    generalize hy : { x with keys := x.keys.remove key q } = y
    have htag : y.cName = x.cName ∧ y.autoDelete = x.autoDelete := by subst hy; exact ⟨rfl, rfl⟩
    have hset : Endures (but .route r X) s (s.setRoute r y) := endures_setRoute hx (.inl (.inl ⟨rfl, rfl⟩))
    rw [wp_bind]
    have hunlink : wp (unlinkQueueRouteT q r key) (fun _ t => Endures (but .route r X) (s.setRoute r y) t ∧
        t.routeAt r = some y ∧ t.routes = s.routes) Fault.Any (s.setRoute r y) := by
      cases hz : s.queueAt q with
      | none => simp [unlinkQueueRouteT, modifyQueue, getQueue, EagleServer.setRoute, hz, Fault.Any]
      | some z =>
        exact wp_modifyQueue ⟨z, hz, endures_setQueue hz (.inr (.refl _)), Function.update_self .., rfl⟩
    refine wp_mono hunlink (fun _ t ht => ?_) fun _ h => h
    obtain ⟨ht, hrt, hlist⟩ := ht
    have hst := IsTrans.trans _ _ _ hset ht
    rw [wp_bind, wp_getRoute hrt]
    refine wp_ite (fun hauto => ?_) fun hauto => ?_
    · rw [wp_bind, listDeleteRoute, wp_bind, wp_get]
      have hflag : ∀ a, Kind.route.tag s r = some a → a.autoDelete = true := fun a ha => by
        rw [Kind.tag, hx] at ha
        cases ha
        exact htag.2.symm.trans hauto.1
      refine wp_ite (fun hmem => ?_) fun hmem => ?_
      · rw [wp_bind, wp_modify, wp_bind]
        have hdelist : Endures (but .route r X) t { t with routes := t.routes.erase r } :=
          endures_delist (.inl ⟨rfl, rfl⟩) rfl rfl (Nat.le_refl _) (fun K => by cases K <;> rfl)
            fun K => by cases K <;> rfl
        refine wp_mono (deleteRouteT_endures (X := but .route r X) (.inl ⟨rfl, rfl⟩) _)
          (fun _ u hu => ?_) fun _ h => h
        have hsu := IsTrans.trans _ _ _ hst (IsTrans.trans _ _ _ hdelist hu)
        refine hsu.gone fun hn _ => ⟨fun hr => ?_, hflag⟩
        have hr' : r ∈ t.routes.erase r := (hu.sub .route).subset hr
        rw [hlist] at hr'
        exact hn.not_mem_erase hr'
      · exact hst.gone fun _ hr => absurd (hlist ▸ hr) hmem
    · refine hst.kept (fun hr => (hlist ▸ hr : r ∈ t.routes)) fun a ha => ⟨y.tag, ?_, ?_⟩
      · rw [Kind.tag, hrt]
        rfl
      · rw [Kind.tag, hx] at ha
        cases ha
        refine ⟨htag.1, htag.2, fun ha _ => ?_⟩
        have hne : y.keys ≠ [] := fun hk => hauto ⟨htag.2.trans ha, hk⟩
        simpa [RouteT.tag] using hne

theorem ejectRoutesQueueT_endures : Keeps (Endures X) Fault.Any (ejectRoutesQueueT q) :=
  keeps_foreach (keeps_bind getQueue_endures fun _ => keeps_pure _) trivial fun key =>
    keeps_foreach (keeps_bind getQueue_endures fun _ => keeps_pure _) trivial fun _ =>
      keeps_bind (unbindRouteT_endures key) fun _ => keeps_pure _

theorem bindRouteT_endures (key : Name) : Keeps (Endures X) Fault.Any (bindRouteT r q key) :=
  keeps_bind getRoute_endures fun _ => keeps_ite (fun _ => keeps_pure _) fun _ =>
    keeps_bind (modifyRoute_endures (.inr fun _ => ⟨rfl, rfl, fun _ _ => by
      simp [RouteT.tag, Keylist.add, set_ne_nil]⟩)) fun _ =>
      modifyQueue_endures (.inr fun x => by split_ifs <;> exact .refl _)

/-! ### Queues -/

theorem ejectClientsQueueT_endures (hX : X .queue q) :
    Keeps (Endures X) Fault.Any (ejectClientsQueueT q) := by
  have hread : ∀ {α : Type} (f : QueueT → α), Keeps (Endures X) Fault.Any (do pure (f (← getQueue q))) :=
    fun f => keeps_bind getQueue_endures fun _ => keeps_pure _
  have hsubscribers : ∀ list set, Keeps (Endures X) Fault.Any (ejectSubscribers q list set) := fun list set =>
    keeps_foreach (hread list) trivial fun _ => keeps_bind (modifyClient_endures _) fun _ =>
      modifyQueue_endures (.inl hX)
  exact keeps_bind (keeps_foreach (hread _) trivial fun _ => keeps_bind (modifyClient_endures _) fun _ =>
    modifyQueue_endures (.inl hX)) fun _ => keeps_bind (hsubscribers _ _) fun _ => hsubscribers _ _

theorem deleteQueueT_endures (hX : X .queue q) : Keeps (Endures X) Fault.Any (deleteQueueT q) :=
  keeps_bind (ejectClientsQueueT_endures hX) fun _ => keeps_bind ejectRoutesQueueT_endures fun _ s => by
    rw [wp_bind]
    refine wp_mono (wp_and (withStock_endures (X := X) Stock.releaseQueue s) (withStock_record s))
      (fun _ t ⟨ht, x, hx⟩ => ?_) fun _ h => h
    exact IsTrans.trans _ _ _ ht (endures_freeQueue hX hx)

theorem listDeleteQueue_endures (hX : X .queue q) : Keeps (Endures X) Fault.Any (listDeleteQueue q) :=
  keeps_bind keeps_get fun _ => keeps_ite
    (fun _ => keeps_bind (keeps_modify _ fun _ => endures_delist hX rfl rfl (Nat.le_refl _)
    (fun K => by cases K <;> rfl)
      fun K => by cases K <;> rfl) fun _ => keeps_bind (deleteQueueT_endures hX) fun _ => keeps_pure _)
    fun _ => keeps_pure _

/-- A queue that loses its last client deletes itself if it has the flag. -/
theorem leaveQueue_endures : Keeps (Endures X) Fault.Any (do
    undeclareClientQueueT q c
    processQueueT q : ServerM Unit) := fun s => by
  rw [undeclareClientQueueT, wp_bind, wp_bind]
  refine wp_mono (modifyClient_endures (X := X) _ s) (fun _ t ht => ?_) fun _ h => h
  cases hx : t.queueAt q with
  | none => simp [modifyQueue, getQueue, hx, Fault.Any]
  | some x =>
    refine wp_modifyQueue ⟨x, hx, ?_⟩
    generalize hy : { x with declaredClients := x.declaredClients.erase c } = y
    have htag : y.cName = x.cName ∧ y.autoDelete = x.autoDelete := by subst hy; exact ⟨rfl, rfl⟩
    have hset : Endures (but .queue q X) t (t.setQueue q y) := endures_setQueue hx (.inl (.inl ⟨rfl, rfl⟩))
    rw [processQueueT, wp_bind, wp_getQueue (Function.update_self ..)]
    refine wp_ite (fun hauto => ?_) fun hauto => ?_
    · rw [wp_bind, listDeleteQueue, wp_bind, wp_get]
      have hflag : ∀ a, Kind.queue.tag t q = some a → a.autoDelete = true := fun a ha => by
        rw [Kind.tag, hx] at ha
        cases ha
        exact htag.2.symm.trans hauto.1
      refine wp_ite (fun hmem => ?_) fun hmem => ?_
      · rw [wp_bind, wp_modify, wp_bind]
        refine wp_mono (deleteQueueT_endures (X := but .queue q X) (.inl ⟨rfl, rfl⟩) _)
          (fun _ u hu => ?_) fun _ h => h
        have hdelist : Endures (but .queue q X) (t.setQueue q y)
            { t.setQueue q y with queues := t.queues.erase q } :=
          endures_delist (.inl ⟨rfl, rfl⟩) rfl rfl (Nat.le_refl _) (fun K => by cases K <;> rfl)
            fun K => by cases K <;> rfl
        refine IsTrans.trans _ _ _ ht ?_
        refine (IsTrans.trans _ _ _ hset (IsTrans.trans _ _ _ hdelist hu)).gone fun hn _ =>
          ⟨fun hq => ?_, hflag⟩
        exact hn.not_mem_erase ((hu.sub .queue).subset hq)
      · exact IsTrans.trans _ _ _ ht (hset.gone fun _ hq => absurd hq hmem)
    · refine IsTrans.trans _ _ _ ht (hset.kept id fun a ha => ⟨y.tag, ?_, ?_⟩)
      · rw [Kind.tag, EagleServer.setQueue_queueAt]
        rfl
      · rw [Kind.tag, hx] at ha
        cases ha
        refine ⟨htag.1, htag.2, fun ha _ => ?_⟩
        have hne : y.declaredClients ≠ [] := fun hk => hauto ⟨htag.2.trans ha, hk⟩
        simpa [QueueT.tag] using hne

/-! ### Channels -/

section Destructor

variable {destroy : Ptr → ServerM Unit}
  (hdestroy : ∀ (Y : Kind → Ptr → Prop) ch, Y .channel ch → Keeps (Endures Y) Fault.Any (destroy ch))

include hdestroy

/-- A channel whose last topic and pattern go deletes itself if it has the flag. -/
theorem unsubscribeWith_endures (d : Side) (name : Name) :
    Keeps (Endures X) Fault.Any (unsubscribeWith destroy d ch c name) := fun s => by
  cases hx : s.channelAt ch with
  | none => simp [unsubscribeWith, getChannel, hx, Fault.Any]
  | some x =>
    rw [unsubscribeWith, wp_bind, wp_getChannel hx]
    cases findNode (x.side d) name with
    | none => exact Std.Refl.refl s
    | some node =>
      dsimp only
      rw [wp_bind]
      refine wp_modifyChannel ⟨x, hx, ?_⟩
      generalize hy : x.setSide d ((x.side d).remove node c) = y
      have htag : y.cName = x.cName ∧ y.autoDelete = x.autoDelete := by
        subst hy
        cases d <;> exact ⟨rfl, rfl⟩
      have hset : Endures (but .channel ch X) s (s.setChannel ch y) :=
        endures_setChannel hx (.inl (.inl ⟨rfl, rfl⟩))
      rw [wp_bind]
      have hclient : wp (removeKeylistChannelT d c ch node) (fun _ t =>
          Endures (but .channel ch X) (s.setChannel ch y) t ∧ t.channelAt ch = some y ∧
            t.channels = s.channels) Fault.Any (s.setChannel ch y) := by
        cases hz : s.clientAt c with
        | none => simp [removeKeylistChannelT, modifyClient, getClient, EagleServer.setChannel, hz, Fault.Any]
        | some z =>
          exact wp_modifyClient ⟨z, hz, Answers.endures (s := s.setChannel ch y) ⟨rfl, Nat.le_refl _⟩,
            Function.update_self .., rfl⟩
      refine wp_mono hclient (fun _ t ht => ?_) fun _ h => h
      obtain ⟨ht, hct, hlist⟩ := ht
      have hst := IsTrans.trans _ _ _ hset ht
      rw [wp_bind, wp_getChannel hct]
      refine wp_ite (fun hauto => ?_) fun hauto => ?_
      · rw [wp_bind, listDeleteWith, wp_bind, wp_get]
        have hflag : ∀ a, Kind.channel.tag s ch = some a → a.autoDelete = true := fun a ha => by
          rw [Kind.tag, hx] at ha
          cases ha
          exact htag.2.symm.trans hauto.1
        refine wp_ite (fun hmem => ?_) fun hmem => ?_
        · rw [wp_bind, wp_modify, wp_bind]
          have hdelist : Endures (but .channel ch X) t { t with channels := t.channels.erase ch } :=
            endures_delist (.inl ⟨rfl, rfl⟩) rfl rfl (Nat.le_refl _) (fun K => by cases K <;> rfl)
              fun K => by cases K <;> rfl
          refine wp_mono (hdestroy (but .channel ch X) ch (.inl ⟨rfl, rfl⟩) _) (fun _ u hu => ?_) fun _ h => h
          have hsu := IsTrans.trans _ _ _ hst (IsTrans.trans _ _ _ hdelist hu)
          refine hsu.gone fun hn _ => ⟨fun hr => ?_, hflag⟩
          have hr' : ch ∈ t.channels.erase ch := (hu.sub .channel).subset hr
          rw [hlist] at hr'
          exact hn.not_mem_erase hr'
        · exact hst.gone fun _ hr => absurd (hlist ▸ hr) hmem
      · refine hst.kept (fun hr => (hlist ▸ hr : ch ∈ t.channels)) fun a ha => ⟨y.tag, ?_, ?_⟩
        · rw [Kind.tag, hct]
          rfl
        · rw [Kind.tag, hx] at ha
          cases ha
          refine ⟨htag.1, htag.2, fun ha _ => ?_⟩
          have hne : ¬(y.topics = [] ∧ y.patterns = []) := fun hk => hauto ⟨htag.2.trans ha, hk⟩
          simpa [ChannelT.tag, imp_iff_not_or] using hne

theorem ejectSide_endures (d : Side) : Keeps (Endures X) Fault.Any (ejectSide destroy d ch) :=
  keeps_foreach (keeps_bind getChannel_endures fun _ => keeps_pure _) trivial fun node =>
    keeps_foreach (keeps_bind getChannel_endures fun _ => keeps_pure _) trivial fun _ =>
      keeps_bind (unsubscribeWith_endures hdestroy d node.2) fun _ => keeps_pure _

theorem listDeleteWith_endures (hX : X .channel ch) :
    Keeps (Endures X) Fault.Any (listDeleteWith destroy ch) :=
  keeps_bind keeps_get fun _ => keeps_ite
    (fun _ => keeps_bind (keeps_modify _ fun _ => endures_delist hX rfl rfl (Nat.le_refl _)
    (fun K => by cases K <;> rfl)
      fun K => by cases K <;> rfl) fun _ => keeps_bind (hdestroy X ch hX) fun _ => keeps_pure _)
    fun _ => keeps_pure _

end Destructor

theorem destroyChannelT_endures (n : ℕ) : ∀ (Y : Kind → Ptr → Prop) ch, Y .channel ch →
    Keeps (Endures Y) Fault.Any (destroyChannelT n ch) := by
  induction n with
  | zero => exact fun _ _ _ => keeps_throw trivial
  | succ n ih =>
    exact fun Y ch hY => keeps_bind (ejectSide_endures ih .topic) fun _ =>
      keeps_bind (ejectSide_endures ih .pattern) fun _ s => by
        cases hx : s.channelAt ch with
        | none => simp [getChannel, hx, Fault.Any]
        | some x =>
          rw [wp_bind, wp_getChannel hx]
          exact endures_freeChannel hY hx

theorem deleteChannelT_endures (Y : Kind → Ptr → Prop) (ch : Ptr) (hY : Y .channel ch) :
    Keeps (Endures Y) Fault.Any (deleteChannelT ch) :=
  keeps_bind keeps_get fun _ => destroyChannelT_endures _ Y ch hY

theorem unsubscribeSide_endures (d : Side) (name : Name) :
    Keeps (Endures X) Fault.Any (unsubscribeSide d ch c name) :=
  unsubscribeWith_endures deleteChannelT_endures d name

theorem listDeleteChannel_endures (hX : X .channel ch) :
    Keeps (Endures X) Fault.Any (listDeleteChannel ch) :=
  listDeleteWith_endures deleteChannelT_endures hX

theorem subscribeSide_endures (d : Side) (name : Name) :
    Keeps (Endures X) Fault.Any (subscribeSide d ch c name) := by
  have hlink : ∀ node, Keeps (Endures X) Fault.Any (linkSide d ch c node) := fun node =>
    keeps_bind (modifyChannel_endures (.inr fun x => by
      cases d <;> exact ⟨rfl, rfl, fun _ _ => by simp [ChannelT.tag, ChannelT.setSide, Keylist.add,
        set_ne_nil]⟩)) fun _ => modifyClient_endures _
  refine keeps_bind getChannel_endures fun x => ?_
  cases findNode (x.side d) name with
  | none =>
    exact keeps_bind keeps_get fun _ => keeps_bind (modify_endures (fun _ => rfl) (fun _ => rfl)
      (fun _ => Nat.le_succ _) (fun _ K => by cases K <;> rfl) fun _ K => by cases K <;> rfl) fun _ => hlink _
  | some node => exact keeps_ite (fun _ => keeps_pure _) fun _ => hlink node

/-! ### The end of a connection -/

theorem freeClient_endures : Keeps (Endures X) Fault.Any (freeClient c) := by
  have hread : ∀ {α : Type} (f : EagleClient → α),
      Keeps (Endures X) Fault.Any (do pure (f (← getClient c))) :=
    fun f => keeps_bind getClient_endures fun _ => keeps_pure _
  have hside : ∀ d, Keeps (Endures X) Fault.Any (ejectChannelClientSide d c) := fun d =>
    keeps_foreach (hread _) trivial fun ch => keeps_foreach (hread _) trivial fun _ =>
      keeps_bind getChannel_endures fun _ => keeps_ite
        (fun _ => keeps_bind (unsubscribeSide_endures d _) fun _ => keeps_pure _) fun _ => keeps_throw trivial
  refine keeps_bind (keeps_bind (keeps_foreach (hread _) trivial fun q => ?_) fun _ =>
    keeps_foreach (hread _) trivial fun q => leaveQueue_endures) fun _ => ?_
  · exact keeps_bind (modifyClient_endures _) fun _ => modifyQueue_endures (.inr fun x => by
      split_ifs <;> exact .refl _)
  · refine keeps_bind (keeps_bind (hside _) fun _ => hside _) fun _ =>
      keeps_bind getClient_endures fun _ => ?_
    refine keeps_bind (keeps_forM (fun o => answers_endures (decrementReferencesCount_answers served o)) _)
      fun _ => ?_
    exact modify_endures (fun _ => rfl) (fun _ => rfl) (fun _ => Nat.le_refl _)
      (fun _ K => by cases K <;> rfl) fun _ K => by cases K <;> rfl

end Endures

end EagleMQ
