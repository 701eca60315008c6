import EagleMQ.Storage.Records

/-! The contents of the storage file. Records whose values fit their fields are written and
read back as they were. What `storage_save` writes are the records of the server: the users
but the protected ones, and the durable queues, routes and channels, each with its fields. -/

namespace EagleMQ

/-! ### Writing -/

section Write

variable [Lzf]

def writeMessage (m : ℕ × List Byte) : StorageM (List Byte) := do
  let expiration ← storageWriteData (leBytes 4 m.1)
  let value ← storageWriteData m.2
  pure (StorageType.message :: expiration ++ value)

def writeRouteKey (k : Name × List Name) : StorageM (List Byte) := do
  let key ← storageWriteData (zeroed k.1)
  let size ← storageWriteData (leBytes 4 k.2.length)
  let names ← k.2.mapM fun n => storageWriteData (zeroed n)
  pure (StorageType.routeKey :: key ++ size ++ names.flatten)

def Record.write : Record → StorageM (List Byte)
  | .user u => do
    let name ← storageWriteData (zeroed u.name)
    let password ← storageWriteData (zeroed u.password)
    let perm ← storageWriteData (leBytes 8 u.perm)
    pure (StorageType.user :: name ++ password ++ perm)
  | .queue h messages => do
    let name ← storageWriteData (zeroed h.name)
    let maxMsg ← storageWriteData (leBytes 4 h.maxMsg)
    let maxMsgSize ← storageWriteData (leBytes 4 h.maxMsgSize)
    let flags ← storageWriteData (leBytes 4 h.flags)
    let size ← storageWriteData (leBytes 4 h.size)
    let parts ← messages.mapM writeMessage
    pure (StorageType.queue :: name ++ maxMsg ++ maxMsgSize ++ flags ++ size ++ parts.flatten)
  | .route name flags keys => do
    let name ← storageWriteData (zeroed name)
    let flags ← storageWriteData (leBytes 4 flags)
    let size ← storageWriteData (leBytes 4 keys.length)
    let parts ← keys.mapM writeRouteKey
    pure (StorageType.route :: name ++ flags ++ size ++ parts.flatten)
  | .channel name flags => do
    let name ← storageWriteData (zeroed name)
    let flags ← storageWriteData (leBytes 4 flags)
    pure (StorageType.channel :: name ++ flags)

def writeRecords (records : List Record) : StorageM (List Byte) := do
  let parts ← records.mapM Record.write
  pure parts.flatten

def writeFile (records : List Record) : StorageM (List Byte) := do
  let body ← writeRecords records
  pure (storageMagic ++ body ++ [StorageType.eof])

end Write

/-- A string that ends in an array of `n` bytes. -/
def Text (n : ℕ) (name : Name) : Prop := name.length < n ∧ 0 ∉ name

/-- The values of a record have the ranges of their fields. -/
def Record.Fits : Record → Prop
  | .user u => Text 32 u.name ∧ Text 32 u.password ∧ u.perm < 18446744073709551616
  | .queue h messages =>
    Text 64 h.name ∧ h.maxMsg < 4294967296 ∧ h.maxMsgSize < 4294967296 ∧ h.flags < 4294967296 ∧
      messages.length < 4294967296 ∧ ∀ m ∈ messages, m.1 < 4294967296 ∧ m.2.length < 4294967296
  | .route name flags keys => Text 64 name ∧ flags < 4294967296 ∧ keys.length < 4294967296 ∧
      ∀ k ∈ keys, Text 32 k.1 ∧ k.2.length < 4294967296 ∧ ∀ n ∈ k.2, Text 64 n
  | .channel name flags => Text 64 name ∧ flags < 4294967296

/-- A queue has as many messages as its header says. -/
def Record.Counts : Record → Prop
  | .queue h messages => h.size = messages.length
  | _ => True

/-- A queue has no more messages than it takes, and none that is longer than it takes. -/
def Record.Roomful : Record → Prop
  | .queue h messages => messages.length ≤ h.maxMsg ∧ ∀ m ∈ messages, m.2.length ≤ h.maxMsgSize
  | _ => True

instance (n : ℕ) (name : Name) : Decidable (Text n name) := inferInstanceAs (Decidable (_ ∧ _))

instance : DecidablePred Record.Fits
  | .user _ => inferInstanceAs (Decidable (_ ∧ _))
  | .queue .. => inferInstanceAs (Decidable (_ ∧ _))
  | .route .. => inferInstanceAs (Decidable (_ ∧ _))
  | .channel .. => inferInstanceAs (Decidable (_ ∧ _))

instance : DecidablePred Record.Roomful
  | .queue .. => inferInstanceAs (Decidable (_ ∧ _))
  | .user _ | .route .. | .channel .. => .isTrue trivial

section RoundTrip

variable {α β : Type} {p : Reader α} {bytes data : List Byte} {name : Name} {n : ℕ} {r : Record}
    {records : List Record}

/-! ### Values of the fields -/

theorem cName_zeroed (h : 0 ∉ name) : (cName n (zeroed name)).run = .ok (some name) := by
  have hmem : (0 : Byte) ∈ zeroed name := by simp [zeroed]
  have htake : (zeroed name).takeWhile (· ≠ 0) = name := by
    rw [zeroed, List.takeWhile_append_of_pos fun x hx => by simpa using fun h0 : x = 0 => h (h0 ▸ hx)]
    simp
  rw [cName, if_pos hmem, htake]
  rfl

theorem number_four (hn : n < 4294967296) : (number 4 (leBytes 4 n)).run = .ok (some n) := by
  rw [number, if_neg (by simp [length_leBytes]), u64_short hn]
  rfl

theorem number_eight (hn : n < 18446744073709551616) : (number 8 (leBytes 8 n)).run = .ok (some n) := by
  rw [number, if_neg (by simp [length_leBytes]), u64_leBytes hn]
  rfl

variable [Lzf] [LawfulLzf]

theorem Text.takes (h : Text n name) (hn : n < 4294967296)
    (hw : (storageWriteData (zeroed name)).run = .ok (some bytes)) :
    Takes (storageReadData n) bytes (some (zeroed name)) := by
  have hlen : (zeroed name).length ≤ n := by
    rw [zeroed, List.length_append, List.length_singleton]
    exact h.1
  exact (storageReadData_takes hw (Nat.lt_of_le_of_lt hlen hn) n).congr (if_pos hlen)

theorem number_takes (hw : (storageWriteData (leBytes 4 n)).run = .ok (some bytes)) :
    Takes (storageReadData 4) bytes (some (leBytes 4 n)) :=
  (storageReadData_takes hw (by simp [length_leBytes]) 4).congr (by simp [fitted, length_leBytes])

theorem perm_takes (hw : (storageWriteData (leBytes 8 n)).run = .ok (some bytes)) :
    Takes (storageReadData 8) bytes (some (leBytes 8 n)) :=
  (storageReadData_takes hw (by simp [length_leBytes]) 8).congr (by simp [fitted, length_leBytes])

/-! ### Parts of a record -/

omit [Lzf] [LawfulLzf] in
/-- What is written one by one is read one by one. -/
theorem times_takes {f : α → StorageM (List Byte)} : ∀ {l : List α} {parts : List (List Byte)},
    (∀ a ∈ l, ∀ bytes, (f a).run = .ok (some bytes) → Takes p bytes (some a)) →
      (l.mapM f).run = .ok (some parts) →
      Takes (readTimes p l.length) parts.flatten (some l)
  | [], parts, _, hparts => by
    rw [List.mapM_nil] at hparts
    obtain rfl := saved_pure hparts
    exact takes_pure []
  | a :: l, parts, h, hparts => by
    rw [List.mapM_cons] at hparts
    obtain ⟨bytes, hbytes, hparts⟩ := saved_bind hparts
    obtain ⟨rest, hrest, hparts⟩ := saved_bind hparts
    obtain rfl := saved_pure hparts
    have htakes := times_takes (fun b hb => h b (List.mem_cons_of_mem _ hb)) hrest
    exact takes_bind_some (h a List.mem_cons_self bytes hbytes) (takes_last htakes (takes_pure _))

theorem message_takes {m : ℕ × List Byte} (hexpiration : m.1 < 4294967296) (hdata : m.2.length < 4294967296)
    (hw : (writeMessage m).run = .ok (some bytes)) : Takes readMessage bytes (some m) := by
  obtain ⟨b₁, h₁, hw⟩ := saved_bind hw
  obtain ⟨b₂, h₂, hw⟩ := saved_bind hw
  have hbytes : bytes = [StorageType.message] ++ (b₁ ++ b₂) := by rw [saved_pure hw]; simp
  rw [hbytes]
  refine takes_bind_some (storageReadType_takes _) ?_
  rw [if_neg (by simp)]
  exact takes_bind_some (number_takes h₁) <| takes_last (storageReadDataObject_takes h₂ hdata) <|
    takes_lift_some (number_four hexpiration) <| takes_pure _

theorem routeKey_takes {k : Name × List Name} (hkey : Text 32 k.1) (hlen : k.2.length < 4294967296)
    (hnames : ∀ n ∈ k.2, Text 64 n) (hw : (writeRouteKey k).run = .ok (some bytes)) :
    Takes readRouteKeyQueues bytes (some k) := by
  obtain ⟨b₁, h₁, hw⟩ := saved_bind hw
  obtain ⟨b₂, h₂, hw⟩ := saved_bind hw
  obtain ⟨parts, hparts, hw⟩ := saved_bind hw
  have hbytes : bytes = [StorageType.routeKey] ++ (b₁ ++ b₂) ++ parts.flatten := by rw [saved_pure hw]; simp
  have hread : Takes readRouteKey ([StorageType.routeKey] ++ (b₁ ++ b₂)) (some (k.1, k.2.length)) := by
    refine takes_bind_some (storageReadType_takes _) ?_
    rw [if_neg (by simp)]
    exact takes_bind_some (hkey.takes (by decide) h₁) <| takes_last (number_takes h₂) <|
      takes_lift_some (cName_zeroed hkey.2) <| takes_lift_some (number_four hlen) <| takes_pure _
  rw [hbytes]
  refine takes_bind_some hread (takes_last (times_takes (fun n hn bytes hw => ?_) hparts) (takes_pure _))
  exact takes_last ((hnames n hn).takes (by decide) hw) (takes_lift (cName_zeroed (hnames n hn).2))

/-! ### Records of a file -/

/-- A record is read back after its type byte, which is not that of the end. -/
theorem record_takes (hfits : r.Fits) (hcounts : r.Counts) (hw : r.write.run = .ok (some bytes)) :
    ∃ type body, bytes = type :: body ∧ type ≠ StorageType.eof ∧ Takes (readRecord type) body (some r) := by
  cases r with
  | user u =>
    obtain ⟨hname, hpassword, hperm⟩ := hfits
    obtain ⟨b₁, h₁, hw⟩ := saved_bind hw
    obtain ⟨b₂, h₂, hw⟩ := saved_bind hw
    obtain ⟨b₃, h₃, hw⟩ := saved_bind hw
    refine ⟨StorageType.user, b₁ ++ (b₂ ++ b₃), by rw [saved_pure hw]; simp, by decide, ?_⟩
    rw [readRecord, if_pos rfl]
    have hread : Takes readUser (b₁ ++ (b₂ ++ b₃)) (some u) :=
      takes_bind_some (hname.takes (by decide) h₁) <| takes_bind_some (hpassword.takes (by decide) h₂) <|
        takes_last (perm_takes h₃) <| takes_lift_some (cName_zeroed hname.2) <| takes_lift_some
        (cName_zeroed hpassword.2) <|
          takes_lift_some (number_eight hperm) <| takes_pure _
    exact takes_last hread (takes_pure _)
  | queue h messages =>
    obtain ⟨hname, hmax, hsize, hflags, hlen, hmessages⟩ := hfits
    obtain ⟨b₁, h₁, hw⟩ := saved_bind hw
    obtain ⟨b₂, h₂, hw⟩ := saved_bind hw
    obtain ⟨b₃, h₃, hw⟩ := saved_bind hw
    obtain ⟨b₄, h₄, hw⟩ := saved_bind hw
    obtain ⟨b₅, h₅, hw⟩ := saved_bind hw
    obtain ⟨parts, hparts, hw⟩ := saved_bind hw
    refine ⟨StorageType.queue, b₁ ++ (b₂ ++ (b₃ ++ (b₄ ++ b₅))) ++
      parts.flatten, by rw [saved_pure hw]; simp, by decide, ?_⟩
    have hcount : h.size = messages.length := hcounts
    have hread : Takes readQueueHeader (b₁ ++ (b₂ ++ (b₃ ++ (b₄ ++ b₅)))) (some h) :=
      takes_bind_some (hname.takes (by decide) h₁) <| takes_bind_some (number_takes h₂) <|
        takes_bind_some (number_takes h₃) <|
        takes_bind_some (number_takes h₄) <| takes_last (number_takes h₅) <| takes_lift_some
          (cName_zeroed hname.2) <|
          takes_lift_some (number_four hmax) <| takes_lift_some (number_four hsize) <|
            takes_lift_some (number_four hflags) <| takes_lift_some (number_four (hcount ▸ hlen)) <|
            takes_pure _
    rw [readRecord, if_neg (by decide), if_pos rfl]
    refine takes_bind_some hread ?_
    rw [hcount]
    refine takes_last (times_takes (fun m hm bytes hw => ?_) hparts) (takes_pure _)
    exact message_takes (hmessages m hm).1 (hmessages m hm).2 hw
  | route name flags keys =>
    obtain ⟨hname, hflags, hlen, hkeys⟩ := hfits
    obtain ⟨b₁, h₁, hw⟩ := saved_bind hw
    obtain ⟨b₂, h₂, hw⟩ := saved_bind hw
    obtain ⟨b₃, h₃, hw⟩ := saved_bind hw
    obtain ⟨parts, hparts, hw⟩ := saved_bind hw
    refine ⟨StorageType.route, b₁ ++ (b₂ ++ b₃) ++ parts.flatten, by rw [saved_pure hw]; simp, by decide, ?_⟩
    have hread : Takes readRouteHeader (b₁ ++ (b₂ ++ b₃)) (some (name, flags, keys.length)) :=
      takes_bind_some (hname.takes (by decide) h₁) <| takes_bind_some (number_takes h₂) <|
        takes_last (number_takes h₃) <|
        takes_lift_some (cName_zeroed hname.2) <| takes_lift_some (number_four hflags) <|
          takes_lift_some (number_four hlen) <| takes_pure _
    rw [readRecord, if_neg (by decide), if_neg (by decide), if_pos rfl]
    refine takes_bind_some hread (takes_last (times_takes (fun k hk bytes hw => ?_) hparts) (takes_pure _))
    exact routeKey_takes (hkeys k hk).1 (hkeys k hk).2.1 (hkeys k hk).2.2 hw
  | channel name flags =>
    obtain ⟨hname, hflags⟩ := hfits
    obtain ⟨b₁, h₁, hw⟩ := saved_bind hw
    obtain ⟨b₂, h₂, hw⟩ := saved_bind hw
    refine ⟨StorageType.channel, b₁ ++ b₂, by rw [saved_pure hw]; simp, by decide, ?_⟩
    have hread : Takes readChannel (b₁ ++ b₂) (some (name, flags)) :=
      takes_bind_some (hname.takes (by decide) h₁) <| takes_last (number_takes h₂) <|
        takes_lift_some (cName_zeroed hname.2) <| takes_lift_some (number_four hflags) <| takes_pure _
    rw [readRecord, if_neg (by decide), if_neg (by decide), if_neg (by decide), if_pos rfl]
    exact takes_last hread (takes_pure _)

/-- Records in a row, in as many turns as there are, or more. -/
theorem records_takes : ∀ {records : List Record} {parts : List (List Byte)},
    (∀ r ∈ records, r.Fits ∧ r.Counts) →
    (records.mapM Record.write).run = .ok (some parts) → ∀ n,
      records.length ≤ parts.flatten.length ∧
      Takes (readRecords (records.length + n + 1)) (parts.flatten ++ [StorageType.eof]) (some records)
  | [], parts, _, hparts, n => by
    rw [List.mapM_nil] at hparts
    obtain rfl := saved_pure hparts
    refine ⟨Nat.le_refl _, ?_⟩
    exact takes_last (storageReadType_takes StorageType.eof) (takes_pure _)
  | r :: records, parts, h, hparts, n => by
    rw [List.mapM_cons] at hparts
    obtain ⟨bytes, hbytes, hparts⟩ := saved_bind hparts
    obtain ⟨rest, hrest, hparts⟩ := saved_bind hparts
    obtain rfl := saved_pure hparts
    obtain ⟨hfits, hcounts⟩ := h r List.mem_cons_self
    obtain ⟨type, body, rfl, htype, htakes⟩ := record_takes hfits hcounts hbytes
    obtain ⟨hle, hall⟩ := records_takes (fun r hr => h r (List.mem_cons_of_mem _ hr)) hrest n
    have hlen : (r :: records).length + n + 1 = records.length + n + 1 + 1 := by rw [List.length_cons]; omega
    refine ⟨?_, ?_⟩
    · rw [List.length_cons, List.flatten_cons, List.length_append, List.length_cons]
      omega
    · rw [hlen, List.flatten_cons, List.append_assoc, List.cons_append]
      refine takes_bind_some (storageReadType_takes type) ?_
      rw [if_neg htype]
      exact takes_bind_some htakes (takes_last hall (takes_pure _))

omit [Lzf] [LawfulLzf] in
theorem run_bind_some {f : StorageM α} {g : α → StorageM β} {a : α} (h : f.run = .ok (some a)) :
    (f >>= g).run = (g a).run := by
  rw [OptionT.run_bind, h]
  rfl

/-- A file of records that fit is read back. -/
theorem readFile_writeFile (h : ∀ r ∈ records, r.Fits ∧ r.Counts)
    (hw : (writeFile records).run = .ok (some bytes)) :
    (readFile bytes).run = .ok (some records) := by
  obtain ⟨body, hbody, hw⟩ := saved_bind hw
  obtain ⟨parts, hparts, hbody⟩ := saved_bind hbody
  obtain rfl := saved_pure hbody
  have hbytes : bytes = storageMagic ++ (parts.flatten ++ [StorageType.eof]) := by rw [saved_pure hw]; simp
  have hmagic : Takes (storageRead 11) storageMagic (some storageMagic) := storageRead_takes rfl (by decide)
  -- the turns that the length of the file allows are enough
  obtain ⟨hle, htakes⟩ := records_takes h hparts (parts.flatten.length + 1 - records.length)
  have hturns : records.length + (parts.flatten.length + 1 - records.length) + 1 =
      (parts.flatten ++ [StorageType.eof]).length + 1 := by
    rw [List.length_append, List.length_singleton]
    omega
  have hall := htakes []
  rw [hturns, List.append_nil] at hall
  rw [hbytes, readFile, run_bind_some (hmagic (parts.flatten ++ [StorageType.eof]))]
  dsimp only
  rw [if_pos (by decide), OptionT.run_map, hall]
  rfl

end RoundTrip

/-! ### Contents -/

/-- What a field of `n` bytes keeps of a name. -/
def kept (n : ℕ) (name : Name) : StorageM Name := if name.length < n then pure name else failure

def savedUser (u : EagleUser) : StorageM Record := do
  let name ← kept 32 (← OptionT.lift u.cName)
  let password ← kept 32 (← OptionT.lift u.cPassword)
  pure (.user ⟨name, password, u.perm⟩)

def savedMessage (s : EagleServer) (b : Backlog) (m : Ptr) : StorageM (ℕ × List Byte) := do
  let (msg, object) ← OptionT.lift (findMessage s b m)
  pure (msg.expiration, object.data)

def savedQueue (s : EagleServer) (x : QueueT) : StorageM Record := do
  let name ← kept 64 x.cName
  let q := x.backlog.queue
  let messages ← (← OptionT.lift (iterateTail q (q.fresh + 1) q.tail)).mapM (savedMessage s x.backlog)
  pure (.queue ⟨name, x.maxMsg, x.maxMsgSize, x.flags, x.size⟩ messages)

def savedRouteKey (s : EagleServer) (k : Name × List Ptr) : StorageM (Name × List Name) := do
  let key ← kept 32 k.1
  let names ← k.2.mapM fun q => do kept 64 (← findRecord s.queueAt q).cName
  pure (key, names)

def savedRoute (s : EagleServer) (x : RouteT) : StorageM Record := do
  let name ← kept 64 x.cName
  let keys ← x.keys.mapM (savedRouteKey s)
  pure (.route name x.flags keys)

def savedChannel (x : ChannelT) : StorageM Record := do
  let name ← kept 64 x.cName
  pure (.channel name x.flags)

def savedAll {α : Type} (saved : α → StorageM (List Record)) (l : List α) : StorageM (List Record) := do
  let parts ← l.mapM saved
  pure parts.flatten

def savedDurable {α : Type} (h : Heap α) (durable : α → Bool) (saved : α → StorageM Record) (l : List Ptr) :
    StorageM (List Record) :=
  savedAll (fun p => do
    let x ← findRecord h p
    if durable x then do pure [← saved x] else pure []) l

/-- The records of the file that is saved, if the loader takes them. -/
def contents (s : EagleServer) : StorageM (List Record) := do
  let users ← savedAll (fun u => do pure [← savedUser u]) (s.users.filter fun u => !u.notChange)
  let queues ← savedDurable s.queueAt QueueT.durable (savedQueue s) s.queues
  let routes ← savedDurable s.routeAt RouteT.durable (savedRoute s) s.routes
  let channels ← savedDurable s.channelAt ChannelT.durable savedChannel s.channels
  pure (users ++ (queues ++ (routes ++ channels)))

section Contents

variable {α β : Type} {s : EagleServer} {name name' : Name} {n : ℕ} {r : Record} {records : List Record}

theorem kept_eq (h : (kept n name).run = .ok (some name')) : name' = name ∧ name.length < n := by
  unfold kept at h
  split_ifs at h with hn
  · exact ⟨saved_pure h, hn⟩
  · cases h

/-- A part that succeeds is its value. -/
theorem saved_eq {x : StorageM α} {a : α} (h : x.run = .ok (some a)) : x = pure a := h

theorem saved_lift {x : Except Fault α} {a : α}
    (h : (OptionT.lift x : StorageM α).run = .ok (some a)) : x = .ok a := by
  cases x with
  | error e => cases h
  | ok b => rw [← Option.some.inj (Except.ok.inj h)]

theorem saved_record {h : Heap α} {q : Ptr} {x : α} (hx : (findRecord h q).run = .ok (some x)) :
    h q = some x := by
  unfold findRecord at hx
  cases hq : h q with
  | none =>
    rw [hq] at hx
    cases hx
  | some y =>
    rw [hq] at hx
    exact congrArg some (saved_pure hx).symm

theorem mapM_run_iff {g : α → StorageM β} : ∀ {l : List α} {l' : List β},
    (l.mapM g).run = .ok (some l') ↔ List.Forall₂ (fun a b => (g a).run = .ok (some b)) l l'
  | [], l' => by
    rw [List.mapM_nil, List.forall₂_nil_left_iff]
    exact ⟨saved_pure, fun h => by rw [h]; rfl⟩
  | a :: l, l' => by
    rw [List.mapM_cons]
    constructor
    · intro h
      obtain ⟨b, hb, h⟩ := saved_bind h
      obtain ⟨rest, hrest, h⟩ := saved_bind h
      obtain rfl := saved_pure h
      exact .cons hb (mapM_run_iff.mp hrest)
    · intro h
      cases h with
      | cons hb hrest => rw [run_bind_some hb, run_bind_some (mapM_run_iff.mpr hrest)]; rfl

theorem savedAll_iff {f : α → StorageM (List Record)} {l : List α} : (savedAll f l).run = .ok (some records) ↔
    ∃ parts, List.Forall₂ (fun a part => (f a).run = .ok (some part)) l parts ∧ records = parts.flatten := by
  constructor
  · intro h
    obtain ⟨parts, hparts, h⟩ := saved_bind h
    exact ⟨parts, mapM_run_iff.mp hparts, saved_pure h⟩
  · rintro ⟨parts, hparts, rfl⟩
    rw [savedAll, run_bind_some (mapM_run_iff.mpr hparts)]
    rfl

/-- Lists of parts that are written alike. -/
theorem mapM_congr {γ : Type} {f : α → StorageM γ} {g : β → StorageM γ} {l : List α} {l' : List β}
    (h : List.Forall₂ (fun a b => f a = g b) l l') : l.mapM f = l'.mapM g := by
  induction h with
  | nil => rfl
  | cons hab _ ih => rw [List.mapM_cons, List.mapM_cons, hab, ih]

/-! ### The messages of a queue -/

/-- The iterator meets the messages of the queue from the next one to pop on. -/
theorem iterateTail_linked {q : Queue} {l : List (Ptr × Ptr)} (h : q.Linked l)
    (htail : q.len = 0 → q.tail = none) :
    iterateTail q (q.fresh + 1) q.tail = .ok (l.map Prod.snd).reverse := by
  have hwalk : ∀ (l : List (Ptr × Ptr)) (e : Option Ptr) (n : ℕ), Chain.Seg q.nodes none l e → l.length < n →
      iterateTail q n (Chain.last none l) = .ok (l.map Prod.snd).reverse := by
    intro l
    induction l using List.reverseRecOn with
    | nil =>
      intro e n _ hn
      cases n <;> rfl
    | append_singleton l x ih =>
      obtain ⟨p, v⟩ := x
      intro e n hs hn
      rw [Chain.seg_append] at hs
      have hnode : q.nodes p = some ⟨Chain.last none l, e, v⟩ := hs.2.1
      obtain ⟨n, rfl⟩ := Nat.exists_eq_succ_of_ne_zero (Nat.ne_of_gt (Nat.lt_of_le_of_lt (Nat.zero_le _) hn))
      rw [List.length_append, List.length_singleton] at hn
      have hrest := ih _ n hs.1 (Nat.lt_of_succ_lt_succ hn)
      rw [show Chain.last none (l ++ [(p, v)]) =
        some p by simp [Chain.last], iterateTail, Queue.node_some hnode]
      simp [bind, Except.bind, hrest]
  obtain ⟨e, hs, -⟩ := h.seg
  have hlen : l.length < q.fresh + 1 := by
    have hsub : (Chain.addrs l).Subset (List.range q.fresh) := fun n hn => List.mem_range.mpr (h.lt_fresh hn)
    have := (h.nodup.subperm hsub).length_le
    simp only [Chain.addrs, List.length_map, List.length_range] at this
    omega
  cases l with
  | nil => rw [htail h.len]; rfl
  | cons x l => rw [h.tail (by simp)]; exact hwalk _ e _ hs hlen

/-- The tail that a purge leaves leads to a freed node. -/
theorem iterateTail_empty {q : Queue} {t : Ptr} (h : q.Linked []) (htail : q.tail = some t) :
    iterateTail q (q.fresh + 1) q.tail = .error .node := by
  have hnode : q.nodes t = none := by
    by_contra hne
    exact absurd (h.live t hne) (by simp)
  rw [htail, iterateTail]
  simp [Queue.node, hnode, bind, Except.bind]

theorem iterateTail_ok {q : Queue} {l : List (Ptr × Ptr)} {ps : List Ptr} (h : q.Linked l)
    (hrun : iterateTail q (q.fresh + 1) q.tail = .ok ps) : ps = (l.map Prod.snd).reverse := by
  have htail : q.len = 0 → q.tail = none := fun hlen => by
    obtain rfl := List.length_eq_zero_iff.mp (h.len.symm.trans hlen)
    by_contra hne
    obtain ⟨t, ht⟩ := Option.ne_none_iff_exists'.mp hne
    cases (iterateTail_empty h ht).symm.trans hrun
  exact Except.ok.inj (hrun.symm.trans (iterateTail_linked h htail))

variable [Lzf]

/-! ### What is saved is written -/

theorem writeRecords_append (l l' : List Record) : writeRecords (l ++ l') = (do
    let part ← writeRecords l
    let rest ← writeRecords l'
    pure (part ++ rest)) := by
  simp [writeRecords]

theorem storageSaveUser_write {u : EagleUser} (h : (savedUser u).run = .ok (some r)) :
    storageSaveUser u = r.write := by
  obtain ⟨name, hname, h₁⟩ := saved_bind h
  obtain ⟨name', hkept, h₂⟩ := saved_bind h₁
  obtain ⟨password, hpassword, h₃⟩ := saved_bind h₂
  obtain ⟨password', hkept', h₄⟩ := saved_bind h₃
  obtain rfl := saved_pure h₄
  obtain ⟨rfl, -⟩ := kept_eq hkept
  obtain ⟨rfl, -⟩ := kept_eq hkept'
  rw [storageSaveUser, saved_eq hname, saved_eq hpassword]
  simp [Record.write]

theorem storageSaveChannel_write {x : ChannelT} (h : (savedChannel x).run = .ok (some r)) :
    storageSaveChannel x = r.write := by
  obtain ⟨name, hname, h⟩ := saved_bind h
  obtain ⟨rfl, -⟩ := kept_eq hname
  rw [saved_pure h]
  rfl

theorem storageSaveQueue_write {x : QueueT} (h : (savedQueue s x).run = .ok (some r)) :
    storageSaveQueue s x = r.write := by
  obtain ⟨name, hname, h⟩ := saved_bind h
  obtain ⟨l, hl, h⟩ := saved_bind h
  obtain ⟨messages, hmessages, h⟩ := saved_bind h
  obtain ⟨rfl, -⟩ := kept_eq hname
  have hparts : storageSaveQueueMessages s x = (do
      let parts ← messages.mapM writeMessage
      pure parts.flatten) := by
    rw [storageSaveQueueMessages, saved_eq hl, pure_bind]
    refine congrArg (· >>= fun parts => pure parts.flatten)
      (mapM_congr ((mapM_run_iff.mp hmessages).imp fun m r hm => ?_))
    obtain ⟨⟨msg, object⟩, hfind, hm⟩ := saved_bind hm
    rw [saved_eq hfind, saved_pure hm]
    rfl
  rw [saved_pure h, storageSaveQueue, hparts]
  simp [Record.write]

theorem storageSaveRoute_write {x : RouteT} (h : (savedRoute s x).run = .ok (some r)) :
    storageSaveRoute s x = r.write := by
  obtain ⟨name, hname, h⟩ := saved_bind h
  obtain ⟨keys, hkeys, h⟩ := saved_bind h
  obtain ⟨rfl, -⟩ := kept_eq hname
  have hsaved := mapM_run_iff.mp hkeys
  have hparts : x.keys.mapM (storageSaveRouteKey s) = keys.mapM writeRouteKey := by
    refine mapM_congr (hsaved.imp fun k k' hk => ?_)
    obtain ⟨key, hkey, hk⟩ := saved_bind hk
    obtain ⟨names, hnames, hk⟩ := saved_bind hk
    obtain ⟨rfl, -⟩ := kept_eq hkey
    have hqueues := mapM_run_iff.mp hnames
    rw [saved_pure hk, storageSaveRouteKey, writeRouteKey, hqueues.length_eq]
    refine congrArg _ (funext fun key => congrArg _ (funext fun size => ?_))
    refine congrArg (· >>= fun names => pure (StorageType.routeKey :: key ++ size ++ names.flatten))
      (mapM_congr (hqueues.imp fun q n hn => ?_))
    obtain ⟨y, hy, hn⟩ := saved_bind hn
    obtain ⟨rfl, -⟩ := kept_eq hn
    rw [saved_eq hy]
    rfl
  rw [saved_pure h, storageSaveRoute, hparts, hsaved.length_eq]
  rfl

/-- The records of a list are written in order. -/
theorem savedAll_write {f : α → StorageM (List Byte)} {g : α → StorageM (List Record)} {l : List α}
    (hfg : ∀ a part, (g a).run = .ok (some part) → f a = writeRecords part)
    (h : (savedAll g l).run = .ok (some records)) :
    (do
      let parts ← l.mapM f
      pure parts.flatten) = writeRecords records := by
  obtain ⟨parts, hparts, rfl⟩ := savedAll_iff.mp h
  clear h
  induction hparts with
  | nil => rfl
  | cons ha _ ih =>
    rw [List.flatten_cons, writeRecords_append, ← ih, ← hfg _ _ ha]
    simp

theorem write_single {f : StorageM (List Byte)} {g : StorageM Record} {part : List Record}
    (hfg : ∀ r, g.run = .ok (some r) → f = r.write)
    (h : (do pure [← g] : StorageM (List Record)).run = .ok (some part)) :
    f = writeRecords part := by
  obtain ⟨r, hr, h⟩ := saved_bind h
  rw [saved_pure h, hfg r hr]
  simp [writeRecords]

theorem savedDurable_write {h : Heap α} {durable : α → Bool} {f : α → StorageM (List Byte)}
    {g : α → StorageM Record} {l : List Ptr}
    (hfg : ∀ x r, (g x).run = .ok (some r) → f x = r.write)
    (hg : (savedDurable h durable g l).run = .ok (some records)) :
    saveDurable h durable f l = writeRecords records := by
  refine savedAll_write (fun p part hp => ?_) hg
  obtain ⟨x, hx, hp⟩ := saved_bind hp
  rw [saved_eq hx, pure_bind]
  split_ifs at hp ⊢
  · exact write_single (hfg x) hp
  · rw [saved_pure hp]
    rfl

/-- What a server saves are its records. -/
theorem storageSave_writeFile (h : (contents s).run = .ok (some records)) :
    storageSave s = writeFile records := by
  obtain ⟨users, husers, h⟩ := saved_bind h
  obtain ⟨queues, hqueues, h⟩ := saved_bind h
  obtain ⟨routes, hroutes, h⟩ := saved_bind h
  obtain ⟨channels, hchannels, h⟩ := saved_bind h
  have husers : storageSaveUsers s = writeRecords users :=
    savedAll_write (fun u part => write_single fun r => storageSaveUser_write) husers
  rw [storageSave, husers, savedDurable_write (fun x r => storageSaveQueue_write) hqueues,
    savedDurable_write (fun x r => storageSaveRoute_write) hroutes,
    savedDurable_write (fun x r => storageSaveChannel_write) hchannels, saved_pure h, writeFile,
    writeRecords_append,
    writeRecords_append, writeRecords_append]
  simp

end Contents

end EagleMQ
