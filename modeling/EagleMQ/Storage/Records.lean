import EagleMQ.Storage.Codec

/-! The records of the storage file. The loader reads and builds in turns; what it
builds from a file that it takes is what comes of reading the whole file first and
building its records one after the other. -/

namespace EagleMQ

/-- A record of the file. -/
inductive Record where
  | user (u : EagleUser)
  | queue (header : QueueHeader) (messages : List (ℕ × List Byte))
  | route (name : Name) (flags : ℕ) (keys : List (Name × List Name))
  | channel (name : Name) (flags : ℕ)

/-! ### Reading -/

section Read

variable [Lzf]

/-- The same reader a number of times. -/
def readTimes {α : Type} (p : Reader α) : ℕ → Reader (List α)
  | 0 => pure []
  | n + 1 => do
    let a ← p
    let l ← readTimes p n
    pure (a :: l)

def readRouteKeyQueues : Reader (Name × List Name) := do
  let k ← readRouteKey
  let names ← readTimes readQueueName k.2
  pure (k.1, names)

def readQueue : Reader Record := do
  let h ← readQueueHeader
  let messages ← readTimes readMessage h.size
  pure (.queue h messages)

def readRoute : Reader Record := do
  let h ← readRouteHeader
  let keys ← readTimes readRouteKeyQueues h.2.2
  pure (.route h.1 h.2.1 keys)

/-- The record after its type byte. -/
def readRecord (type : Byte) : Reader Record :=
  if type = StorageType.user then do
    let user ← readUser
    pure (.user user)
  else if type = StorageType.queue then readQueue
  else if type = StorageType.route then readRoute
  else if type = StorageType.channel then do
    let ch ← readChannel
    pure (.channel ch.1 ch.2)
  else failure

def readRecords : ℕ → Reader (List Record)
  | 0 => failure
  | n + 1 => do
    let type ← storageReadType
    if type = StorageType.eof then pure []
    else do
      let r ← readRecord type
      let l ← readRecords n
      pure (r :: l)

/-- The records of a whole file. -/
def readFile (file : List Byte) : StorageM (List Record) := do
  let (magic, rest) ← StateT.run (storageRead 11) file
  if magicOk magic then Prod.fst <$> StateT.run (readRecords (rest.length + 1)) rest else failure

end Read

/-! ### Building -/

def loadMessage (q : Ptr) (m : ℕ × List Byte) : ServerM Unit := do
  let object ← createObject m.2
  let _ ← pushMessageQueueT q object m.1

/-- A queue that is not there is skipped. -/
def bindNamed (r : Ptr) (key name : Name) : ServerM Unit := do
  match ← findQueueT (← get).queues name with
  | none => pure ()
  | some q => bindRouteT r q key

def Record.build : Record → ServerM Unit
  | .user u => modify fun s => { s with users := s.users ++ [u] }
  | .queue h messages => do
    let q ← createQueueT h.name h.maxMsg h.maxMsgSize h.flags
    messages.forM (loadMessage q)
    modify fun s => { s with queues := s.queues ++ [q] }
  | .route name flags keys => do
    let r ← createRouteT name flags
    keys.forM fun k => k.2.forM (bindNamed r k.1)
    modify fun s => { s with routes := s.routes ++ [r] }
  | .channel name flags => do
    let ch ← createChannelT name flags
    modify fun s => { s with channels := s.channels ++ [ch] }

section Records

variable {α β : Type} {s t : EagleServer} {file rest : List Byte} {p : Reader α} {n : ℕ}

/-! ### The parts of a run -/

/-- The reader takes the front of the file and leaves the rest. -/
def Parses (p : Reader α) (file : List Byte) (a : α) (rest : List Byte) : Prop :=
  (StateT.run p file).run = .ok (some (a, rest))

theorem parses_pure {a b : α} : Parses (pure a) file b rest ↔ b = a ∧ rest = file := by
  show Except.ok (some (a, file)) = Except.ok (some (b, rest)) ↔ _
  simp [eq_comm]

theorem not_parses_failure {a : α} : ¬Parses failure file a rest := fun h => nomatch h

theorem parses_bind {k : α → Reader β} {b : β} :
    Parses (p >>= k) file b rest ↔ ∃ a mid, Parses p file a mid ∧ Parses (k a) mid b rest := by
  unfold Parses
  rw [StateT.run_bind, OptionT.run_bind]
  cases hp : (StateT.run p file).run with
  | error e => exact ⟨(nomatch ·), fun ⟨_, _, h, _⟩ => nomatch h⟩
  | ok v =>
    cases v with
    | none => exact ⟨(nomatch ·), fun ⟨_, _, h, _⟩ => nomatch h⟩
    | some x =>
      refine ⟨fun h => ⟨x.1, x.2, rfl, h⟩, fun ⟨a, mid, h, hk⟩ => ?_⟩
      obtain rfl := Option.some.inj (Except.ok.inj h)
      exact hk

/-- The end of a program after its first part. -/
theorem run_bind_ok {m : ServerM α} {f : α → ServerM β} {x : β × EagleServer} :
    (m >>= f) s = .ok x ↔ ∃ a u, m s = .ok (a, u) ∧ f a u = .ok x := by
  simp only [bind, StateT.bind, Except.bind]
  cases m s with
  | error e => exact ⟨(nomatch ·), fun ⟨_, _, h, _⟩ => nomatch h⟩
  | ok r =>
    refine ⟨fun h => ⟨r.1, r.2, rfl, h⟩, fun ⟨a, u, h, hf⟩ => ?_⟩
    obtain rfl := Except.ok.inj h
    exact hf

/-- A loader that reads first: where it goes on, the reader has taken something. -/
theorem run_reader {f : Option (α × List Byte) → ServerM β} {x : β × EagleServer} (hnone : f none s ≠ .ok x) :
    (p.run file >>= f) s = .ok x ↔ ∃ a mid, Parses p file a mid ∧ f (some (a, mid)) s = .ok x := by
  rw [run_bind_ok]
  unfold Reader.run Parses
  cases (StateT.run p file).run with
  | error e => exact ⟨fun ⟨_, _, h, _⟩ => (nomatch h), fun ⟨_, _, h, _⟩ => nomatch h⟩
  | ok v =>
    refine ⟨fun ⟨a, u, h, hf⟩ => ?_, fun ⟨a, mid, h, hf⟩ => ⟨_, s, rfl, by rw [Except.ok.inj h]; exact hf⟩⟩
    obtain ⟨rfl, rfl⟩ := Prod.mk.inj (Except.ok.inj h)
    cases v with
    | none => exact absurd hf hnone
    | some y => exact ⟨y.1, y.2, rfl, hf⟩

/-- A loader reads with `p` and builds with `k`. -/
def Splits (m : List Byte → ServerM (Option (List Byte))) (p : Reader α) (k : α → ServerM Unit) : Prop :=
  ∀ file s rest t, m file s = .ok (some rest, t) ↔ ∃ a, Parses p file a rest ∧ k a s = .ok ((), t)

theorem run_pure_some {rest' : List Byte} :
    (pure (some rest') : ServerM (Option (List Byte))) s = .ok (some rest, t) ↔
    rest' = rest ∧ s = t := by
  show Except.ok (some rest', s) = Except.ok (some rest, t) ↔ _
  simp

theorem run_pure_none : (pure none : ServerM (Option (List Byte))) s ≠ .ok (some rest, t) :=
  fun h => nomatch h

/-- A last part that fails does not finish with a rest. -/
theorem run_none {m : ServerM α} :
    (m >>= fun _ => pure none : ServerM (Option (List Byte))) s ≠ .ok (some rest, t) := fun h => by
  obtain ⟨_, _, -, h⟩ := run_bind_ok.mp h
  exact run_pure_none h

/-! ### The loader -/

section Load

variable [Lzf]

theorem storageLoadQueueMessages_splits (q : Ptr) (n : ℕ) :
    Splits (storageLoadQueueMessages q n) (readTimes readMessage n) (fun l => l.forM (loadMessage q)) := by
  induction n with
  | zero =>
    intro file s rest t
    rw [storageLoadQueueMessages, run_pure_some]
    simp only [readTimes, parses_pure]
    refine ⟨fun ⟨hrest, ht⟩ => ⟨[], ⟨rfl, hrest.symm⟩, ht ▸ rfl⟩,
      fun ⟨l, ⟨hl, hrest⟩, hrun⟩ => ⟨hrest.symm, ?_⟩⟩
    subst hl
    exact (Prod.mk.inj (Except.ok.inj hrun)).2
  | succ n ih =>
    intro file s rest t
    rw [storageLoadQueueMessages, run_reader run_pure_none]
    simp only [readTimes, parses_bind, parses_pure]
    constructor
    · rintro ⟨⟨e, data⟩, mid, hm, hrun⟩
      obtain ⟨o, u, ho, hrun⟩ := run_bind_ok.mp hrun
      obtain ⟨ok, v, hp, hrun⟩ := run_bind_ok.mp hrun
      obtain ⟨l, hl, hrest⟩ := (ih mid v rest t).mp hrun
      refine ⟨(e, data) :: l, ⟨_, mid, hm, l, rest, hl, rfl, rfl⟩, ?_⟩
      exact run_bind_ok.mpr ⟨(), v, run_bind_ok.mpr ⟨o, u, ho, run_bind_ok.mpr ⟨ok, v, hp, rfl⟩⟩, hrest⟩
    · rintro ⟨_, ⟨⟨e, data⟩, mid, hm, l, rest', hl, rfl, rfl⟩, hrun⟩
      obtain ⟨_, v, hmsg, hrun⟩ := run_bind_ok.mp hrun
      obtain ⟨o, u, ho, hmsg⟩ := run_bind_ok.mp hmsg
      obtain ⟨ok, w, hp, hw⟩ := run_bind_ok.mp hmsg
      obtain rfl := (Prod.mk.inj (Except.ok.inj hw)).2
      exact ⟨(e, data), mid, hm, run_bind_ok.mpr
        ⟨o, u, ho, run_bind_ok.mpr ⟨ok, w, hp, (ih mid w rest t).mpr ⟨l, hl, hrun⟩⟩⟩⟩

theorem storageLoadRouteKeyQueues_splits (r : Ptr) (key : Name) (n : ℕ) :
    Splits (storageLoadRouteKeyQueues r key n) (readTimes readQueueName n)
      (fun l => l.forM (bindNamed r key)) := by
  -- after the lookup both go on in the same way
  have hstep : ∀ {name : Name} {k : ServerM (Option (List Byte))} {s : EagleServer}
      {x : Option (List Byte) × EagleServer},
      (do
        match ← findQueueT (← get).queues name with
        | none => pure ()
        | some q => bindRouteT r q key
        k) s = .ok x ↔ ∃ u, bindNamed r key name s = .ok ((), u) ∧ k u = .ok x := by
    intro name k s x
    unfold bindNamed
    simp only [run_bind_ok]
    constructor
    · rintro ⟨a, u, hget, b, v, hfind, hrun⟩
      cases b with
      | none => exact ⟨v, ⟨a, u, hget, none, v, hfind, rfl⟩, hrun⟩
      | some q =>
        obtain ⟨_, w, hw, hk⟩ := run_bind_ok.mp hrun
        exact ⟨w, ⟨a, u, hget, some q, v, hfind, hw⟩, hk⟩
    · rintro ⟨w, ⟨a, u, hget, b, v, hfind, hrun⟩, hk⟩
      refine ⟨a, u, hget, b, v, hfind, ?_⟩
      cases b with
      | none =>
        obtain rfl := (Prod.mk.inj (Except.ok.inj hrun)).2
        exact hk
      | some q => exact run_bind_ok.mpr ⟨(), w, hrun, hk⟩
  induction n with
  | zero =>
    intro file s rest t
    rw [storageLoadRouteKeyQueues, run_pure_some]
    simp only [readTimes, parses_pure]
    refine ⟨fun ⟨hrest, ht⟩ => ⟨[], ⟨rfl, hrest.symm⟩, ht ▸ rfl⟩,
      fun ⟨l, ⟨hl, hrest⟩, hrun⟩ => ⟨hrest.symm, ?_⟩⟩
    subst hl
    exact (Prod.mk.inj (Except.ok.inj hrun)).2
  | succ n ih =>
    intro file s rest t
    rw [storageLoadRouteKeyQueues, run_reader run_pure_none]
    simp only [readTimes, parses_bind, parses_pure]
    constructor
    · rintro ⟨name, mid, hname, hrun⟩
      obtain ⟨u, hu, hrun⟩ := hstep.mp hrun
      obtain ⟨l, hl, hrest⟩ := (ih mid u rest t).mp hrun
      exact ⟨name :: l, ⟨_, mid, hname, l, rest, hl, rfl, rfl⟩, run_bind_ok.mpr ⟨(), u, hu, hrest⟩⟩
    · rintro ⟨_, ⟨name, mid, hname, l, rest', hl, rfl, rfl⟩, hrun⟩
      obtain ⟨_, u, hu, hrun⟩ := run_bind_ok.mp hrun
      exact ⟨name, mid, hname, hstep.mpr ⟨u, hu, (ih mid u rest t).mpr ⟨l, hl, hrun⟩⟩⟩

theorem storageLoadRouteKeys_splits (r : Ptr) (n : ℕ) :
    Splits (storageLoadRouteKeys r n) (readTimes readRouteKeyQueues n)
    (fun l => l.forM fun k => k.2.forM (bindNamed r k.1)) := by
  induction n with
  | zero =>
    intro file s rest t
    rw [storageLoadRouteKeys, run_pure_some]
    simp only [readTimes, parses_pure]
    refine ⟨fun ⟨hrest, ht⟩ => ⟨[], ⟨rfl, hrest.symm⟩, ht ▸ rfl⟩,
      fun ⟨l, ⟨hl, hrest⟩, hrun⟩ => ⟨hrest.symm, ?_⟩⟩
    subst hl
    exact (Prod.mk.inj (Except.ok.inj hrun)).2
  | succ n ih =>
    intro file s rest t
    rw [storageLoadRouteKeys, run_reader run_pure_none]
    simp only [readTimes, readRouteKeyQueues, parses_bind, parses_pure]
    constructor
    · rintro ⟨⟨key, size⟩, mid, hkey, hrun⟩
      obtain ⟨_ | file', u, hqueues, hrun⟩ := run_bind_ok.mp hrun
      · exact absurd hrun run_pure_none
      · obtain ⟨names, hnames, hbind⟩ :=
          (storageLoadRouteKeyQueues_splits r key size mid s file' u).mp hqueues
        obtain ⟨l, hl, hrest⟩ := (ih file' u rest t).mp hrun
        exact ⟨(key, names) :: l, ⟨_, file', ⟨_, mid, hkey, names, file', hnames, rfl, rfl⟩, l,
          rest, hl, rfl, rfl⟩,
          run_bind_ok.mpr ⟨(), u, hbind, hrest⟩⟩
    · rintro ⟨_, ⟨_, file', ⟨⟨key, size⟩, mid, hkey, names, _, hnames, rfl, rfl⟩, l, _, hl, rfl, rfl⟩, hrun⟩
      obtain ⟨_, u, hbind, hrun⟩ := run_bind_ok.mp hrun
      have hqueues := (storageLoadRouteKeyQueues_splits r key size mid s file' u).mpr ⟨names, hnames, hbind⟩
      exact ⟨(key, size), mid, hkey,
        run_bind_ok.mpr ⟨some file', u, hqueues, (ih file' u rest t).mpr ⟨l, hl, hrun⟩⟩⟩

theorem storageLoadQueue_splits : Splits storageLoadQueue readQueue Record.build := by
  intro file s rest t
  rw [storageLoadQueue, run_reader run_pure_none]
  simp only [readQueue, parses_bind, parses_pure]
  constructor
  · rintro ⟨h, mid, hh, hrun⟩
    obtain ⟨q, u, hq, hrun⟩ := run_bind_ok.mp hrun
    obtain ⟨_ | file', v, hmessages, hrun⟩ := run_bind_ok.mp hrun
    · exact absurd hrun run_none
    · obtain ⟨messages, hread, hbuild⟩ :=
        (storageLoadQueueMessages_splits q h.size mid u file' v).mp hmessages
      obtain ⟨_, w, hlist, hrun⟩ := run_bind_ok.mp hrun
      obtain ⟨rfl, rfl⟩ := run_pure_some.mp hrun
      exact ⟨_, ⟨h, mid, hh, messages, file', hread, rfl, rfl⟩,
        run_bind_ok.mpr ⟨q, u, hq, run_bind_ok.mpr ⟨(), v, hbuild, hlist⟩⟩⟩
  · rintro ⟨_, ⟨h, mid, hh, messages, file', hread, rfl, rfl⟩, hrun⟩
    obtain ⟨q, u, hq, hrun⟩ := run_bind_ok.mp hrun
    obtain ⟨_, v, hbuild, hlist⟩ := run_bind_ok.mp hrun
    have hmessages := (storageLoadQueueMessages_splits q h.size mid u rest v).mpr ⟨messages, hread, hbuild⟩
    exact ⟨h, mid, hh, run_bind_ok.mpr ⟨q, u, hq, run_bind_ok.mpr ⟨some rest, v, hmessages,
      run_bind_ok.mpr ⟨(), t, hlist, rfl⟩⟩⟩⟩

theorem storageLoadRoute_splits : Splits storageLoadRoute readRoute Record.build := by
  intro file s rest t
  rw [storageLoadRoute, run_reader run_pure_none]
  simp only [readRoute, parses_bind, parses_pure]
  constructor
  · rintro ⟨⟨name, flags, n⟩, mid, hh, hrun⟩
    obtain ⟨r, u, hr, hrun⟩ := run_bind_ok.mp hrun
    obtain ⟨_ | file', v, hkeys, hrun⟩ := run_bind_ok.mp hrun
    · exact absurd hrun run_none
    · obtain ⟨keys, hread, hbuild⟩ := (storageLoadRouteKeys_splits r n mid u file' v).mp hkeys
      obtain ⟨_, w, hlist, hrun⟩ := run_bind_ok.mp hrun
      obtain ⟨rfl, rfl⟩ := run_pure_some.mp hrun
      exact ⟨_, ⟨(name, flags, n), mid, hh, keys, file', hread, rfl, rfl⟩,
        run_bind_ok.mpr ⟨r, u, hr, run_bind_ok.mpr ⟨(), v, hbuild, hlist⟩⟩⟩
  · rintro ⟨_, ⟨⟨name, flags, n⟩, mid, hh, keys, file', hread, rfl, rfl⟩, hrun⟩
    obtain ⟨r, u, hr, hrun⟩ := run_bind_ok.mp hrun
    obtain ⟨_, v, hbuild, hlist⟩ := run_bind_ok.mp hrun
    have hkeys := (storageLoadRouteKeys_splits r n mid u rest v).mpr ⟨keys, hread, hbuild⟩
    exact ⟨(name, flags, n), mid, hh, run_bind_ok.mpr ⟨r, u, hr, run_bind_ok.mpr ⟨some rest, v, hkeys,
      run_bind_ok.mpr ⟨(), t, hlist, rfl⟩⟩⟩⟩

theorem loadRecord_splits (type : Byte) : Splits (loadRecord type) (readRecord type) Record.build := by
  intro file s rest t
  unfold loadRecord readRecord
  split_ifs
  · rw [storageLoadUser, run_reader run_pure_none]
    simp only [parses_bind, parses_pure]
    constructor
    · rintro ⟨u, mid, hu, hrun⟩
      obtain ⟨_, v, hlist, hrun⟩ := run_bind_ok.mp hrun
      obtain ⟨rfl, rfl⟩ := run_pure_some.mp hrun
      exact ⟨_, ⟨u, mid, hu, rfl, rfl⟩, hlist⟩
    · rintro ⟨_, ⟨u, mid, hu, rfl, rfl⟩, hrun⟩
      exact ⟨u, rest, hu, run_bind_ok.mpr ⟨(), t, hrun, rfl⟩⟩
  · exact storageLoadQueue_splits file s rest t
  · exact storageLoadRoute_splits file s rest t
  · rw [storageLoadChannel, run_reader run_pure_none]
    simp only [parses_bind, parses_pure]
    constructor
    · rintro ⟨⟨name, flags⟩, mid, hch, hrun⟩
      obtain ⟨ch, v, hcreate, hrun⟩ := run_bind_ok.mp hrun
      obtain ⟨_, w, hlist, hrun⟩ := run_bind_ok.mp hrun
      obtain ⟨rfl, rfl⟩ := run_pure_some.mp hrun
      exact ⟨_, ⟨(name, flags), mid, hch, rfl, rfl⟩, run_bind_ok.mpr ⟨ch, v, hcreate, hlist⟩⟩
    · rintro ⟨_, ⟨⟨name, flags⟩, mid, hch, rfl, rfl⟩, hrun⟩
      obtain ⟨ch, v, hcreate, hlist⟩ := run_bind_ok.mp hrun
      exact ⟨(name, flags), rest, hch, run_bind_ok.mpr ⟨ch, v, hcreate, run_bind_ok.mpr ⟨(), t, hlist, rfl⟩⟩⟩
  · exact ⟨fun h => absurd h run_pure_none, fun ⟨_, h, _⟩ => absurd h not_parses_failure⟩

theorem loadRecords_iff (n : ℕ) : ∀ file s t, loadRecords n file s = .ok (true, t) ↔
    ∃ records rest, Parses (readRecords n) file records rest ∧ records.forM Record.build s = .ok ((), t) := by
  induction n with
  | zero =>
    exact fun file s t => ⟨(nomatch ·), fun ⟨_, _, h, _⟩ => absurd h not_parses_failure⟩
  | succ n ih =>
    intro file s t
    have hfalse : ∀ s : EagleServer, (pure false : ServerM Bool) s ≠ .ok (true, t) := fun s h => by cases h
    rw [loadRecords, run_reader (hfalse s)]
    simp only [readRecords, parses_bind]
    constructor
    · rintro ⟨type, mid, htype, hrun⟩
      split_ifs at hrun with heof
      · obtain rfl := (Prod.mk.inj (Except.ok.inj hrun)).2
        exact ⟨[], mid, ⟨type, mid, htype, by rw [if_pos heof]; exact rfl⟩, rfl⟩
      · obtain ⟨_ | file', u, hrecord, hrun⟩ := run_bind_ok.mp hrun
        · exact absurd hrun (hfalse u)
        · obtain ⟨r, hr, hbuild⟩ := (loadRecord_splits type mid s file' u).mp hrecord
          obtain ⟨l, rest, hl, hrest⟩ := (ih file' u t).mp hrun
          refine ⟨r :: l, rest, ⟨type, mid, htype, ?_⟩, run_bind_ok.mpr ⟨(), u, hbuild, hrest⟩⟩
          rw [if_neg heof]
          exact parses_bind.mpr ⟨r, file', hr, parses_bind.mpr ⟨l, rest, hl, parses_pure.mpr ⟨rfl, rfl⟩⟩⟩
    · rintro ⟨records, rest, ⟨type, mid, htype, hread⟩, hrun⟩
      refine ⟨type, mid, htype, ?_⟩
      split_ifs at hread with heof
      · obtain ⟨rfl, -⟩ := parses_pure.mp hread
        rw [if_pos heof]
        obtain rfl := (Prod.mk.inj (Except.ok.inj hrun)).2
        rfl
      · obtain ⟨r, file', hr, hread⟩ := parses_bind.mp hread
        obtain ⟨l, rest', hl, hend⟩ := parses_bind.mp hread
        obtain ⟨rfl, rfl⟩ := parses_pure.mp hend
        obtain ⟨_, u, hbuild, hrun⟩ := run_bind_ok.mp hrun
        rw [if_neg heof]
        exact run_bind_ok.mpr ⟨some file', u, (loadRecord_splits type mid s file' u).mpr ⟨r, hr, hbuild⟩,
          (ih file' u t).mpr ⟨l, rest, hl, hrun⟩⟩

theorem readFile_iff {records : List Record} : (readFile file).run = .ok (some records) ↔
    ∃ magic mid, Parses (storageRead 11) file magic mid ∧ magicOk magic = true ∧
      ∃ rest, Parses (readRecords (mid.length + 1)) mid records rest := by
  unfold readFile Parses
  rw [OptionT.run_bind]
  cases (StateT.run (storageRead 11) file).run with
  | error e => exact ⟨(nomatch ·), fun ⟨_, _, h, _⟩ => nomatch h⟩
  | ok v =>
    cases v with
    | none => exact ⟨(nomatch ·), fun ⟨_, _, h, _⟩ => nomatch h⟩
    | some x =>
      obtain ⟨magic, mid⟩ := x
      show OptionT.run (if magicOk magic = true then Prod.fst <$> StateT.run
        (readRecords (mid.length + 1)) mid else failure) = _ ↔ _
      by_cases hm : magicOk magic = true
      · rw [if_pos hm, OptionT.run_map]
        cases hrun : (StateT.run (readRecords (mid.length + 1)) mid).run with
        | error e =>
          refine ⟨fun h => (nomatch h), fun ⟨_, _, h, _, rest, hp⟩ => ?_⟩
          obtain ⟨rfl, rfl⟩ := Prod.mk.inj (Option.some.inj (Except.ok.inj h))
          exact nomatch hrun.symm.trans hp
        | ok w =>
          constructor
          · intro h
            cases w with
            | none => exact nomatch h
            | some y =>
              obtain rfl := Option.some.inj (Except.ok.inj h)
              exact ⟨magic, mid, rfl, hm, y.2, hrun⟩
          · rintro ⟨_, _, h, -, rest, hp⟩
            obtain ⟨rfl, rfl⟩ := Prod.mk.inj (Option.some.inj (Except.ok.inj h))
            rw [Except.ok.inj (hrun.symm.trans hp)]
            rfl
      · rw [if_neg hm]
        refine ⟨fun h => (nomatch h), fun ⟨_, _, h, hm', _⟩ => ?_⟩
        obtain ⟨rfl, rfl⟩ := Prod.mk.inj (Option.some.inj (Except.ok.inj h))
        exact absurd hm' hm

/-- A file that the loader takes is read whole, and its records are built in order. -/
theorem storageLoad_iff {file : List Byte} {s t : EagleServer} : storageLoad file s = .ok (true, t) ↔
    ∃ records, (readFile file).run = .ok (some records) ∧ records.forM Record.build s = .ok ((), t) := by
  have hfalse : (pure false : ServerM Bool) s ≠ .ok (true, t) := fun h => by cases h
  rw [storageLoad, run_reader hfalse]
  simp only [readFile_iff]
  constructor
  · rintro ⟨magic, mid, hmagic, hrun⟩
    split_ifs at hrun with hok
    · obtain ⟨records, rest, hread, hbuild⟩ := (loadRecords_iff _ mid s t).mp hrun
      exact ⟨records, ⟨magic, mid, hmagic, hok, rest, hread⟩, hbuild⟩
    · exact absurd hrun hfalse
  · rintro ⟨records, ⟨magic, mid, hmagic, hok, rest, hread⟩, hbuild⟩
    refine ⟨magic, mid, hmagic, ?_⟩
    rw [if_pos hok]
    exact (loadRecords_iff _ mid s t).mpr ⟨records, rest, hread, hbuild⟩

end Load

end Records

end EagleMQ
