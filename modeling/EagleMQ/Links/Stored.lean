import EagleMQ.Links.Records
import EagleMQ.System

/-! Saving reads only records that are there. Loading builds each record loose,
and the relations hold after every record of the file. -/

namespace EagleMQ

open Prog

variable {s t : EagleServer} {q r : Ptr}

/-! ### Readers and writers -/

section Errs

variable {α β : Type} {E : Fault → Prop}

theorem errs_optBind {x : StorageM β} {f : β → StorageM α} (hx : Errs E x.run)
    (hf : ∀ b, x.run = .ok (some b) → Errs E (f b).run) : Errs E (x >>= f).run := by
  rw [OptionT.run_bind]
  intro e he
  cases hr : x.run with
  | error e' =>
    rw [hr] at he
    cases he
    exact hx e hr
  | ok a =>
    rw [hr] at he
    cases a with
    | none => cases he
    | some b => exact hf b hr e he

theorem errs_optPure (a : α) : Errs E (pure a : StorageM α).run := fun _ h => by cases h

theorem errs_optFailure : Errs E (failure : StorageM α).run := fun _ h => by cases h

theorem errs_optLift {x : Except Fault α} (h : Errs E x) : Errs E (OptionT.lift x).run := by
  intro e he
  cases x with
  | error e' => cases he; exact h e rfl
  | ok a => cases he

theorem errs_optMapM {f : β → StorageM α} :
    ∀ {l : List β}, (∀ x ∈ l, Errs E (f x).run) → Errs E (l.mapM f).run
  | [], _ => errs_optPure _
  | x :: l, h => by
    rw [List.mapM_cons]
    exact errs_optBind (h x (by simp)) fun _ _ =>
      errs_optBind (errs_optMapM fun y hy => h y (by simp [hy])) fun _ _ => errs_optPure _

end Errs

/-! ### Saving -/

section Save

variable {E : Fault → Prop}

theorem storageWrite_errs (data : List Byte) : Errs E (storageWrite data).run := by
  unfold storageWrite
  split_ifs
  · exact errs_optFailure
  · exact errs_optPure _

theorem iterateTail_errs (q : Queue) (n : ℕ) : ∀ p, Errs Fault.Outside (iterateTail q n p) := by
  induction n with
  | zero =>
    intro p
    cases p with
    | none => exact errs_ok _
    | some p => exact errs_error (by decide)
  | succ n ih =>
    intro p
    cases p with
    | none => exact errs_ok _
    | some p => exact errs_bind (node_errs q _) fun _ => errs_bind (ih _) fun _ => errs_ok _

theorem findMessage_errs (s : EagleServer) (b : Backlog) (m : Ptr) :
    Errs Fault.Outside (findMessage s b m) := by
  unfold findMessage
  split
  · exact errs_error (by decide)
  · exact errs_bind (find_errs _ _) fun _ => errs_ok _

theorem findRecord_errs {α : Type} {h : Heap α} {p : Ptr} (hp : (h p).isSome = true) :
    Errs E (findRecord h p).run := by
  obtain ⟨x, hx⟩ := Option.isSome_iff_exists.mp hp
  rw [findRecord, hx]
  exact errs_optPure _

theorem storageWriteRaw_errs (data : List Byte) : Errs E (storageWriteRaw data).run :=
  errs_optBind (storageWrite_errs data) fun _ _ => errs_optPure _

theorem saveDurable_errs {α : Type} {h : Heap α} {durable : α → Bool} {save : α → StorageM (List Byte)}
    {l : List Ptr} (hl : ∀ p ∈ l, ∃ x, h p = some x ∧ Errs E (save x).run) :
    Errs E (saveDurable h durable save l).run := by
  refine errs_optBind (errs_optMapM fun p hp => ?_) fun _ _ => errs_optPure _
  obtain ⟨x, hx, hs⟩ := hl p hp
  refine errs_optBind (findRecord_errs (by simp [hx])) fun y hy => ?_
  rw [findRecord, hx] at hy
  cases hy
  split_ifs
  · exact hs
  · exact errs_optPure _

variable [Lzf]

theorem storageWriteData_errs (data : List Byte) : Errs E (storageWriteData data).run := by
  unfold storageWriteData
  split_ifs
  · exact storageWriteRaw_errs data
  · split
    · exact storageWriteRaw_errs data
    · exact errs_optBind (storageWrite_errs _) fun _ _ => errs_optPure _

omit [Lzf] in
theorem cPassword_errs (u : EagleUser) : Errs Fault.Outside u.cPassword :=
  errs_ite (errs_ok _) (errs_ite (errs_ok _) (errs_error (by decide)))

omit [Lzf] in
theorem EagleUser.cName_errs (u : EagleUser) : Errs Fault.Outside u.cName :=
  errs_ite (errs_ok _) (errs_bind (cPassword_errs u) fun _ => errs_ok _)

theorem storageSaveUser_errs (u : EagleUser) : Errs Fault.Outside (storageSaveUser u).run :=
  errs_optBind (errs_optLift u.cName_errs) fun _ _ => errs_optBind (storageWriteData_errs _) fun _ _ =>
    errs_optBind (errs_optLift (cPassword_errs u)) fun _ _ => errs_optBind (storageWriteData_errs _)
      fun _ _ => errs_optBind (storageWriteData_errs _) fun _ _ => errs_optPure _

theorem storageSaveQueue_errs (s : EagleServer) (x : QueueT) :
    Errs Fault.Outside (storageSaveQueue s x).run := by
  refine errs_optBind (storageWriteData_errs _) fun _ _ => errs_optBind (storageWriteData_errs _) fun _ _ =>
    errs_optBind (storageWriteData_errs _) fun _ _ => errs_optBind (storageWriteData_errs _) fun _ _ =>
    errs_optBind (storageWriteData_errs _) fun _ _ => errs_optBind ?_ fun _ _ => errs_optPure _
  refine errs_optBind (errs_optLift (iterateTail_errs _ _ _)) fun _ _ =>
    errs_optBind (errs_optMapM fun m _ => ?_) fun _ _ => errs_optPure _
  refine errs_optBind (errs_optLift (findMessage_errs _ _ m)) fun _ _ => ?_
  exact errs_optBind (storageWriteData_errs _) fun _ _ =>
    errs_optBind (storageWriteData_errs _) fun _ _ => errs_optPure _

theorem storageSaveRoute_errs (h : Related .none s) {r : Ptr} {x : RouteT} (hx : s.routeAt r = some x) :
    Errs Fault.Outside (storageSaveRoute s x).run := by
  have hkeys : (links s).boundQueues r = x.keys := Heap.read_some hx
  refine errs_optBind (storageWriteData_errs _) fun _ _ => errs_optBind (storageWriteData_errs _) fun _ _ =>
    errs_optBind (storageWriteData_errs _) fun _ _ => errs_optBind (errs_optMapM fun k hk => ?_) fun _ _ =>
      errs_optPure _
  refine errs_optBind (storageWriteData_errs _) fun _ _ => errs_optBind (storageWriteData_errs _) fun _ _ =>
    errs_optBind (errs_optMapM fun q hq => ?_) fun _ _ => errs_optPure _
  refine errs_optBind (findRecord_errs ?_) fun _ _ => storageWriteData_errs _
  refine h.boundQueue (?_ : q ∈ ((links s).boundQueues r).values k.1)
  rw [hkeys, Keylist.values_of_mem (hkeys ▸ h.consistent.boundQueues_wf r).nodup hk]
  exact hq

/-- A save stops with no fault about the records. -/
theorem storageSave_errs (h : Related .none s) : Errs Fault.Outside (storageSave s).run := by
  refine errs_optBind ?_ fun _ _ => errs_optBind (saveDurable_errs fun q hq => ?_) fun _ _ =>
    errs_optBind (saveDurable_errs fun r hr => ?_) fun _ _ =>
    errs_optBind (saveDurable_errs fun ch hch => ?_) fun _ _ => errs_optPure _
  · exact errs_optBind (errs_optMapM fun u _ => storageSaveUser_errs u) fun _ _ => errs_optPure _
  · obtain ⟨x, hx⟩ := queue_alive.mp (h.consistent.queues.alive hq)
    exact ⟨x, hx, storageSaveQueue_errs s x⟩
  · obtain ⟨x, hx⟩ := route_alive.mp (h.consistent.routes.alive hr)
    exact ⟨x, hx, storageSaveRoute_errs h hx⟩
  · obtain ⟨x, hx⟩ := channel_alive.mp (h.consistent.channels.alive hch)
    exact ⟨x, hx, errs_optBind (storageWriteData_errs _) fun _ _ =>
      errs_optBind (storageWriteData_errs _) fun _ _ => errs_optPure _⟩

end Save

/-! ### Loading -/

section Load

variable {α β : Type}

/-- A reader stops with no fault about the records. -/
def Reads (p : Reader α) : Prop := ∀ file, Errs Fault.Outside (StateT.run p file).run

theorem reads_bind {p : Reader β} {f : β → Reader α} (hp : Reads p) (hf : ∀ b, Reads (f b)) :
    Reads (p >>= f) := fun file => by
  rw [StateT.run_bind]
  exact errs_optBind (hp file) fun b _ => hf b.1 b.2

theorem reads_pure (a : α) : Reads (pure a : Reader α) := fun _ => errs_optPure _

theorem reads_failure : Reads (failure : Reader α) := fun _ => errs_optFailure

theorem reads_lift {x : StorageM α} (h : Errs Fault.Outside x.run) :
    Reads (StateT.lift x : Reader α) := fun file =>
  errs_optBind (f := fun a => pure (a, file)) h fun _ _ => errs_optPure _

theorem reads_ite {c : Prop} [Decidable c] {p q : Reader α} (hp : Reads p) (hq : Reads q) :
    Reads (if c then p else q) := by
  split_ifs
  · exact hp
  · exact hq

theorem fault_errs {e : Fault} (h : e.Outside) : Errs Fault.Outside (StorageM.fault e : StorageM α).run :=
  errs_optLift (errs_error h)

theorem storageRead_reads (n : ℕ) : Reads (storageRead n) :=
  reads_bind (fun _ => errs_optPure _) fun _ => reads_ite reads_failure
    (reads_bind (fun _ => errs_optPure _) fun _ => reads_pure _)

theorem storageReadType_reads : Reads storageReadType :=
  reads_bind (storageRead_reads 1) fun _ => reads_pure _

theorem readU32_reads : Reads readU32 := reads_bind (storageRead_reads 4) fun _ => reads_pure _

theorem number_reads (n : ℕ) (data : List Byte) : Reads (StateT.lift (number n data)) := by
  refine reads_lift ?_
  unfold number
  split_ifs
  · exact fault_errs (by decide)
  · exact errs_optPure _

theorem cName_reads (n : ℕ) (data : List Byte) : Reads (StateT.lift (cName n data)) := by
  refine reads_lift ?_
  unfold cName
  split_ifs
  · exact errs_optPure _
  · exact fault_errs (by decide)
  · exact fault_errs (by decide)

theorem readerRun_same {p : Reader α} (hp : Reads p) (file : List Byte) :
    wp (Reader.run p file) (fun _ t => t = s) Fault.Outside s := by
  have hp := hp file
  unfold Reader.run
  cases hr : (StateT.run p file).run with
  | error e => exact hp e hr
  | ok a => rfl

variable [Lzf]

theorem storageReadData_reads (maxlen : ℕ) : Reads (storageReadData maxlen) := by
  refine reads_bind readU32_reads fun _ => reads_bind readU32_reads fun _ => reads_ite reads_failure
    (reads_ite (reads_bind (storageRead_reads _) fun _ => ?_) (storageRead_reads _))
  split
  · exact reads_failure
  · exact reads_pure _

theorem storageReadDataObject_reads : Reads storageReadDataObject := by
  refine reads_bind readU32_reads fun _ => reads_bind readU32_reads fun _ =>
    reads_ite (reads_bind (storageRead_reads _) fun _ => ?_) (storageRead_reads _)
  split
  · exact reads_failure
  · exact reads_ite (reads_lift (fault_errs (by decide))) (reads_pure _)

theorem readUser_reads : Reads readUser :=
  reads_bind (storageReadData_reads 32) fun _ => reads_bind (storageReadData_reads 32) fun _ =>
    reads_bind (storageReadData_reads 8) fun _ => reads_bind (cName_reads _ _) fun _ =>
    reads_bind (cName_reads _ _) fun _ => reads_bind (number_reads _ _) fun _ => reads_pure _

theorem readMessage_reads : Reads readMessage :=
  reads_bind storageReadType_reads fun _ => reads_ite reads_failure <|
    reads_bind (storageReadData_reads 4) fun _ => reads_bind storageReadDataObject_reads fun _ =>
    reads_bind (number_reads _ _) fun _ => reads_pure _

theorem readQueueHeader_reads : Reads readQueueHeader :=
  reads_bind (storageReadData_reads 64) fun _ => reads_bind (storageReadData_reads 4) fun _ =>
    reads_bind (storageReadData_reads 4) fun _ => reads_bind (storageReadData_reads 4) fun _ =>
    reads_bind (storageReadData_reads 4) fun _ => reads_bind (cName_reads _ _) fun _ =>
    reads_bind (number_reads _ _) fun _ => reads_bind (number_reads _ _) fun _ =>
    reads_bind (number_reads _ _) fun _ => reads_bind (number_reads _ _) fun _ => reads_pure _

theorem readRouteHeader_reads : Reads readRouteHeader :=
  reads_bind (storageReadData_reads 64) fun _ => reads_bind (storageReadData_reads 4) fun _ =>
    reads_bind (storageReadData_reads 4) fun _ => reads_bind (cName_reads _ _) fun _ =>
    reads_bind (number_reads _ _) fun _ => reads_bind (number_reads _ _) fun _ => reads_pure _

theorem readRouteKey_reads : Reads readRouteKey :=
  reads_bind storageReadType_reads fun _ => reads_ite reads_failure <|
    reads_bind (storageReadData_reads 32) fun _ => reads_bind (storageReadData_reads 4) fun _ =>
    reads_bind (cName_reads _ _) fun _ => reads_bind (number_reads _ _) fun _ => reads_pure _

theorem readQueueName_reads : Reads readQueueName :=
  reads_bind (storageReadData_reads 64) fun _ => cName_reads _ _

theorem readChannel_reads : Reads readChannel :=
  reads_bind (storageReadData_reads 64) fun _ => reads_bind (storageReadData_reads 4) fun _ =>
    reads_bind (cName_reads _ _) fun _ => reads_bind (number_reads _ _) fun _ => reads_pure _

/-! ### Records of the file -/

theorem storageLoadUser_relates (file : List Byte) (h : Related .none s) :
    Relates (storageLoadUser file) s := by
  rw [storageLoadUser, Relates, wp_bind]
  refine wp_mono (readerRun_same readUser_reads file) (fun r t ht => ?_) fun _ h => h
  subst ht
  cases r with
  | none => exact h
  | some r => exact h.frame ⟨rfl, Nat.le_refl _⟩

theorem storageLoadQueueMessages_reordered {X : Loose} (n : ℕ) :
    ∀ {s : EagleServer} (file : List Byte), Related X s → (links s).queues.alive q = true →
      wp (storageLoadQueueMessages q n file) (fun _ t => Reordered s t) Fault.Outside s := by
  induction n with
  | zero => exact fun _ _ _ => Std.Refl.refl _
  | succ n ih =>
    intro s file h hq
    rw [storageLoadQueueMessages, wp_bind]
    refine wp_mono (readerRun_same readMessage_reads file) (fun r t ht => ?_) fun _ h => h
    subst ht
    cases r with
    | none => exact Std.Refl.refl t
    | some r =>
      refine wp_bind_trans (wp_reordered (createObject_frame r.1.2 t)) fun o u hu => ?_
      have hqu : (links u).queues.alive q = true := by rw [hu.queues]; exact hq
      refine wp_bind_trans (pushMessageQueueT_reordered o r.1.1 (h.reordered hu) hqu) fun _ v hv => ?_
      exact ih r.2 ((h.reordered hu).reordered hv) (by rw [hv.queues]; exact hqu)

theorem storageLoadQueue_relates (file : List Byte) (h : Related .none s) :
    Relates (storageLoadQueue file) s := by
  rw [storageLoadQueue, Relates, wp_bind]
  refine wp_mono (readerRun_same readQueueHeader_reads file) (fun r t ht => ?_) fun _ h => h
  subst ht
  cases r with
  | none => exact h
  | some r =>
    rw [wp_bind]
    refine wp_mono (createQueueT_spec _ _ _ _ h) (fun q u hu => ?_) fun _ h => h
    obtain ⟨-, hu, hl, hs⟩ := hu
    have hq : (links u).queues.alive q = true := by rw [hl.agree]; simp [Roster.alloc]
    rw [wp_bind]
    refine wp_mono (storageLoadQueueMessages_reordered _ _ hu hq) (fun r v hv => ?_) fun _ h => h
    have hqv : (links v).queues.alive q = true := by rw [hv.queues]; exact hq
    cases r with
    | none =>
      rw [wp_bind]
      exact wp_mono (deleteQueueT_spec (hu.reordered hv) hqv) (fun _ w hw => hw.1) fun _ h => h
    | some file =>
      exact (hu.reordered hv).enlistQueue hqv (List.perm_nil.mp (hs ▸ hv.subscribers q))

/-- A route that is being loaded is off its list, and its bindings grow. -/
structure Binding (s : EagleServer) (r : Ptr) (t : EagleServer) : Prop where
  related : Related { Loose.none with routes := insert r Loose.none.routes } t
  routes : (links t).routes = (links s).routes
  queues : (links t).queues = (links s).queues

theorem storageLoadRouteKeyQueues_binding (key : Name) (n : ℕ) (hr : (links s).routes.alive r = true) :
    ∀ {t : EagleServer} (file : List Byte), Binding s r t →
      wp (storageLoadRouteKeyQueues r key n file) (fun _ u => Binding s r u) Fault.Outside t := by
  induction n with
  | zero => exact fun _ h => h
  | succ n ih =>
    intro t file h
    rw [storageLoadRouteKeyQueues, wp_bind]
    refine wp_mono (readerRun_same readQueueName_reads file) (fun x t ht => ?_) fun _ h => h
    subst ht
    cases x with
    | none => exact h
    | some x =>
      obtain ⟨found, hrun, -, hfound, -⟩ := findQueueT_spec x.1 fun q hq =>
        h.related.consistent.queues.alive (p := q) hq
      rw [wp_bind, wp_get, wp_bind]
      refine wp_of_ok hrun ?_
      cases found with
      | none => exact ih x.2 h
      | some q =>
        have hq := h.related.consistent.queues.alive (hfound q rfl).1
        dsimp only
        rw [wp_bind]
        refine wp_mono (bindRouteT_spec key h.related (by rw [h.routes]; exact hr) hq)
          (fun _ u hu => ih x.2 ?_) fun _ h => h
        rcases hu with hu | ⟨hnew, hu⟩
        · exact ⟨h.related.frame hu, by rw [hu.agree]; exact h.routes, by rw [hu.agree]; exact h.queues⟩
        · exact ⟨.has hu (h.related.consistent.bind hnew) { h.related.below with },
            by rw [hu.agree]; exact h.routes, by rw [hu.agree]; exact h.queues⟩

theorem storageLoadRouteKeys_binding (n : ℕ) (hr : (links s).routes.alive r = true) :
    ∀ {t : EagleServer} (file : List Byte), Binding s r t →
      wp (storageLoadRouteKeys r n file) (fun _ u => Binding s r u) Fault.Outside t := by
  induction n with
  | zero => exact fun _ h => h
  | succ n ih =>
    intro t file h
    rw [storageLoadRouteKeys, wp_bind]
    refine wp_mono (readerRun_same readRouteKey_reads file) (fun x t ht => ?_) fun _ h => h
    subst ht
    cases x with
    | none => exact h
    | some x =>
      dsimp only
      rw [wp_bind]
      refine wp_mono (storageLoadRouteKeyQueues_binding _ _ hr _ h) (fun x u hu => ?_) fun _ h => h
      cases x with
      | none => exact hu
      | some file => exact ih file hu

theorem storageLoadRoute_relates (file : List Byte) (h : Related .none s) :
    Relates (storageLoadRoute file) s := by
  rw [storageLoadRoute, Relates, wp_bind]
  refine wp_mono (readerRun_same readRouteHeader_reads file) (fun x t ht => ?_) fun _ h => h
  subst ht
  cases x with
  | none => exact h
  | some x =>
    dsimp only
    rw [wp_bind]
    refine wp_mono (createRouteT_spec _ _ h) (fun r u hu => ?_) fun _ h => h
    obtain ⟨-, hu, hl⟩ := hu
    have hr : (links u).routes.alive r = true := by rw [hl.agree]; simp [Roster.alloc]
    rw [wp_bind]
    refine wp_mono (storageLoadRouteKeys_binding _ hr _ ⟨hu, rfl, rfl⟩) (fun x v hv => ?_) fun _ h => h
    have hrv : (links v).routes.alive r = true := by rw [hv.routes]; exact hr
    cases x with
    | none =>
      rw [wp_bind]
      exact wp_mono (deleteRouteT_spec hv.related hrv) (fun _ w hw => hw.1) fun _ h => h
    | some file => exact hv.related.enlistRoute hrv

theorem storageLoadChannel_relates (file : List Byte) (h : Related .none s) :
    Relates (storageLoadChannel file) s := by
  rw [storageLoadChannel, Relates, wp_bind]
  refine wp_mono (readerRun_same readChannel_reads file) (fun x t ht => ?_) fun _ h => h
  subst ht
  cases x with
  | none => exact h
  | some x =>
    dsimp only
    rw [wp_bind]
    refine wp_mono (createChannelT_spec _ _ h) (fun ch u hu => ?_) fun _ h => h
    obtain ⟨-, hu, hl⟩ := hu
    exact hu.enlistChannel (by rw [hl.agree]; simp [Roster.alloc])

theorem loadRecord_relates (type : Byte) (file : List Byte) (h : Related .none s) :
    Relates (loadRecord type file) s :=
  wp_ite (fun _ => storageLoadUser_relates _ h) fun _ =>
    wp_ite (fun _ => storageLoadQueue_relates _ h) fun _ =>
    wp_ite (fun _ => storageLoadRoute_relates _ h) fun _ =>
    wp_ite (fun _ => storageLoadChannel_relates _ h) fun _ => h

theorem loadRecords_relates (n : ℕ) :
    ∀ {s : EagleServer} (file : List Byte), Related .none s → Relates (loadRecords n file) s := by
  induction n with
  | zero => exact fun _ h => h
  | succ n ih =>
    intro s file h
    rw [loadRecords, Relates, wp_bind]
    refine wp_mono (readerRun_same storageReadType_reads file) (fun x t ht => ?_) fun _ h => h
    subst ht
    cases x with
    | none => exact h
    | some x =>
      refine wp_ite (fun _ => h) fun _ => ?_
      rw [wp_bind]
      refine wp_mono (loadRecord_relates x.1 x.2 h) (fun y u hu => ?_) fun _ h => h
      cases y with
      | none => exact hu
      | some file => exact ih file hu

theorem storageLoad_relates (file : List Byte) (h : Related .none s) : Relates (storageLoad file) s := by
  rw [storageLoad, Relates, wp_bind]
  refine wp_mono (readerRun_same (storageRead_reads 11) file) (fun x t ht => ?_) fun _ h => h
  subst ht
  cases x with
  | none => exact h
  | some x => exact wp_ite (fun _ => loadRecords_relates _ _ h) fun _ => h

end Load

end EagleMQ
