import EagleMQ.Links.Upheld

/-! Relations that a load of the storage file upholds: those upheld by each of the
operations that build a record. -/

namespace EagleMQ

open Prog

structure Loading (R : EagleServer → EagleServer → Prop) : Prop where
  object : ∀ data, Keeps R Fault.Any (createObject data)
  push : ∀ q data expiration, Keeps R Fault.Any (pushMessageQueueT q data expiration)
  bind : ∀ r q key, Keeps R Fault.Any (bindRouteT r q key)
  createQueue : ∀ name maxMsg maxMsgSize flags, Keeps R Fault.Any (createQueueT name maxMsg maxMsgSize flags)
  createRoute : ∀ name flags, Keeps R Fault.Any (createRouteT name flags)
  createChannel : ∀ name flags, Keeps R Fault.Any (createChannelT name flags)
  deleteQueue : ∀ q, Keeps R Fault.Any (deleteQueueT q)
  deleteRoute : ∀ r, Keeps R Fault.Any (deleteRouteT r)
  enlistUser : ∀ s user, R s { s with users := s.users ++ [user] }
  enlistQueue : ∀ s q, R s { s with queues := s.queues ++ [q] }
  enlistRoute : ∀ s r, R s { s with routes := s.routes ++ [r] }
  enlistChannel : ∀ s ch, R s { s with channels := s.channels ++ [ch] }

section Loading

variable {R : EagleServer → EagleServer → Prop} [IsPreorder EagleServer R] (h : Loading R)

theorem readerRun_any {α : Type} (r : Reader α) (file : List Byte) : Keeps R Fault.Any (r.run file) :=
  keeps_lift fun _ _ => trivial

variable [Lzf]

section Routes

variable (hbind : ∀ r q key, Keeps R Fault.Any (bindRouteT r q key))

include hbind

theorem storageLoadRouteKeyQueues_upheld (r : Ptr) (key : Name) (n : ℕ) :
    ∀ file, Keeps R Fault.Any (storageLoadRouteKeyQueues r key n file) := by
  induction n with
  | zero => exact fun _ => keeps_pure _
  | succ n ih =>
    refine fun file => keeps_bind (readerRun_any _ _) fun x => ?_
    rcases x with - | ⟨name, rest⟩
    · exact keeps_pure _
    · refine keeps_bind keeps_get fun s => keeps_bind
        (keeps_bind keeps_get fun t => keeps_lift fun _ _ => trivial) fun q => ?_
      cases q with
      | none => exact keeps_bind (keeps_pure _) fun _ => ih _
      | some q => exact keeps_bind (hbind r q key) fun _ => ih _

theorem storageLoadRouteKeys_upheld (r : Ptr) (n : ℕ) :
    ∀ file, Keeps R Fault.Any (storageLoadRouteKeys r n file) := by
  induction n with
  | zero => exact fun _ => keeps_pure _
  | succ n ih =>
    refine fun file => keeps_bind (readerRun_any _ _) fun x => ?_
    rcases x with - | ⟨⟨key, size⟩, rest⟩
    · exact keeps_pure _
    · refine keeps_bind (storageLoadRouteKeyQueues_upheld hbind _ _ _ _) fun x => ?_
      cases x with
      | none => exact keeps_pure _
      | some rest => exact ih rest

theorem storageLoadRoute_upheld (hcreate : ∀ name flags, Keeps R Fault.Any (createRouteT name flags))
    (hdelete : ∀ r, Keeps R Fault.Any (deleteRouteT r))
    (henlist : ∀ s r, R s { s with routes := s.routes ++ [r] })
    (file : List Byte) : Keeps R Fault.Any (storageLoadRoute file) := by
  refine keeps_bind (readerRun_any _ _) fun x => ?_
  rcases x with - | ⟨⟨name, flags, keys⟩, rest⟩
  · exact keeps_pure _
  · refine keeps_bind (hcreate _ _) fun r => keeps_bind (storageLoadRouteKeys_upheld hbind _ _ _) fun x => ?_
    cases x with
    | none => exact keeps_bind (hdelete r) fun _ => keeps_pure _
    | some file => exact keeps_bind (keeps_modify _ fun s => henlist s r) fun _ => keeps_pure _

end Routes

include h

theorem storageLoadUser_upheld (file : List Byte) : Keeps R Fault.Any (storageLoadUser file) :=
  keeps_bind (readerRun_any _ _) fun x => by
    rcases x with - | ⟨user, rest⟩
    · exact keeps_pure _
    · exact keeps_bind (keeps_modify _ fun s => h.enlistUser s user) fun _ => keeps_pure _

theorem storageLoadQueueMessages_upheld (q : Ptr) (n : ℕ) :
    ∀ file, Keeps R Fault.Any (storageLoadQueueMessages q n file) := by
  induction n with
  | zero => exact fun _ => keeps_pure _
  | succ n ih =>
    refine fun file => keeps_bind (readerRun_any _ _) fun r => ?_
    rcases r with - | ⟨⟨expiration, data⟩, rest⟩
    · exact keeps_pure _
    · exact keeps_bind (h.object data) fun o => keeps_bind (h.push q o expiration) fun _ => ih _

theorem storageLoadQueue_upheld (file : List Byte) : Keeps R Fault.Any (storageLoadQueue file) := by
  refine keeps_bind (readerRun_any _ _) fun r => ?_
  rcases r with - | ⟨header, rest⟩
  · exact keeps_pure _
  · refine keeps_bind (h.createQueue _ _ _ _) fun q => keeps_bind (storageLoadQueueMessages_upheld h _ _ _)
      fun r => ?_
    cases r with
    | none => exact keeps_bind (h.deleteQueue q) fun _ => keeps_pure _
    | some file => exact keeps_bind (keeps_modify _ fun s => h.enlistQueue s q) fun _ => keeps_pure _

theorem storageLoadChannel_upheld (file : List Byte) : Keeps R Fault.Any (storageLoadChannel file) :=
  keeps_bind (readerRun_any _ _) fun x => by
    rcases x with - | ⟨⟨name, flags⟩, rest⟩
    · exact keeps_pure _
    · exact keeps_bind (h.createChannel _ _) fun ch =>
        keeps_bind (keeps_modify _ fun s => h.enlistChannel s ch) fun _ => keeps_pure _

theorem loadRecords_upheld (n : ℕ) : ∀ file, Keeps R Fault.Any (loadRecords n file) := by
  have hrecord : ∀ type file, Keeps R Fault.Any (loadRecord type file) := fun type file =>
    keeps_ite (fun _ => storageLoadUser_upheld h file) fun _ =>
      keeps_ite (fun _ => storageLoadQueue_upheld h file)
      fun _ => keeps_ite (fun _ => storageLoadRoute_upheld h.bind h.createRoute h.deleteRoute
        h.enlistRoute file) fun _ =>
        keeps_ite (fun _ => storageLoadChannel_upheld h file) fun _ => keeps_pure _
  induction n with
  | zero => exact fun _ => keeps_pure _
  | succ n ih =>
    refine fun file => keeps_bind (readerRun_any _ _) fun x => ?_
    rcases x with - | ⟨type, rest⟩
    · exact keeps_pure _
    · refine keeps_ite (fun _ => keeps_pure _) fun _ => keeps_bind (hrecord type rest) fun x => ?_
      cases x with
      | none => exact keeps_pure _
      | some file => exact ih file

theorem storageLoad_upheld (file : List Byte) : Keeps R Fault.Any (storageLoad file) := by
  refine keeps_bind (readerRun_any _ _) fun x => ?_
  rcases x with - | ⟨magic, rest⟩
  · exact keeps_pure _
  · exact keeps_ite (fun _ => loadRecords_upheld h _ _) fun _ => keeps_pure _

end Loading

end EagleMQ
