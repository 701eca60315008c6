import EagleMQ.Lib.Prog

/-! A buffered stream that is written to a file, and the calls around it, each of
which may fail. What the buffer passes on before a flush shows in the file only,
which nobody reads while the stream is open; so a write adds to the buffer, and a
flush that fails says how much of it has got to the file. -/

namespace EagleMQ

namespace Stdio

/-- The files of a disk, and the stream that is open. -/
structure Disk (F β : Type) where
  files : F → Option (List β)
  file : List β
  buffer : List β
  /-- The writes to the stream so far. -/
  writes : ℕ

/-- A file that has just been opened for writing. -/
def opened {F β : Type} [DecidableEq F] (files : F → Option (List β)) (f : F) : Disk F β :=
  ⟨Function.update files f (some []), [], [], 0⟩

/-- How the calls of a run end. -/
structure Calls where
  fopen : Bool
  /-- The number of bytes that a write which fails has put into the buffer. -/
  fwrite : ℕ → Option ℕ
  /-- The number of bytes that a flush which fails has written, and whether the others are kept. -/
  fflush : Option (ℕ × Bool)
  /-- The number of bytes of the file that are left if it is not synchronised. -/
  fsync : Option ℕ
  /-- The number of bytes of the buffer that a close which fails has written. -/
  fclose : Option ℕ
  rename : Bool
  unlink : Bool

/-- No call fails. -/
def Calls.succeed : Calls := ⟨true, fun _ => none, none, none, none, true, true⟩

/-- Only one write fails. -/
def Calls.refuse (i : ℕ) : Calls := { succeed with fwrite := fun j => if j = i then some 0 else none }

section Calls

variable {F β ε : Type} [DecidableEq F] (io : Calls)

def fopen (f : F) : Prog (Disk F β) ε Bool := do
  if io.fopen then
    modify fun d => opened d.files f
    pure true
  else pure false

/-- One item is written; no bytes are no item. -/
def fwrite [DecidableEq β] (data : List β) : Prog (Disk F β) ε Bool := do
  if data = [] then pure false
  else
    let d ← get
    match io.fwrite d.writes with
    | none =>
      set { d with buffer := d.buffer ++ data, writes := d.writes + 1 }
      pure true
    | some n =>
      set { d with buffer := d.buffer ++ data.dropLast.take n, writes := d.writes + 1 }
      pure false

def fflush : Prog (Disk F β) ε Bool := do
  match io.fflush with
  | none =>
    modify fun d => { d with file := d.file ++ d.buffer, buffer := [] }
    pure true
  | some (n, kept) =>
    modify fun d => { d with file := d.file ++ d.buffer.take n, buffer := if kept then d.buffer.drop n else [] }
    pure false

def fsync : Prog (Disk F β) ε Bool := do
  match io.fsync with
  | none => pure true
  | some n =>
    modify fun d => { d with file := d.file.take n }
    pure false

def fclose (f : F) : Prog (Disk F β) ε Bool := do
  match io.fclose with
  | none =>
    modify fun d => { d with files := Function.update d.files f (some (d.file ++ d.buffer)) }
    pure true
  | some n =>
    modify fun d => { d with files := Function.update d.files f (some (d.file ++ d.buffer.take n)) }
    pure false

def rename (f g : F) : Prog (Disk F β) ε Bool := do
  if io.rename then
    modify fun d => { d with files := Function.update (Function.update d.files f none) g (d.files f) }
    pure true
  else pure false

def unlink (f : F) : Prog (Disk F β) ε Bool := do
  if io.unlink then
    modify fun d => { d with files := Function.update d.files f none }
    pure true
  else pure false

end Calls

/-! ### What is left of the bytes -/

namespace Calls

variable {β : Type} (io : Calls)

/-- The bytes that a flush has written, and those that stay in the buffer. -/
def flush (data : List β) : List β × List β :=
  match io.fflush with
  | none => (data, [])
  | some (n, kept) => (data.take n, if kept then data.drop n else [])

/-- The bytes of a file that is flushed, synchronised and closed. -/
def settle (data : List β) : List β :=
  io.fsync.elim (io.flush data).1 ((io.flush data).1.take ·) ++ io.fclose.elim (io.flush data).2
    ((io.flush data).2.take ·)

/-- Of `n` bytes, those that a flush has written. -/
def flushed (n : ℕ) : ℕ := io.fflush.elim n fun x => min x.1 n

/-- Nothing is dropped by the flush, the synchronisation and the close of a file with `n` bytes. -/
structure Keeps (n : ℕ) : Prop where
  fflush : ∀ k, io.fflush = some (k, false) → n ≤ k
  fsync : ∀ k, io.fsync = some k → io.flushed n ≤ k
  fclose : ∀ k, io.fclose = some k → n - io.flushed n ≤ k

variable {io} {data : List β}

variable (io data) in
theorem length_flush_fst : (io.flush data).1.length = io.flushed data.length := by
  rw [flush, flushed]
  cases io.fflush <;> simp

variable (io data) in
theorem length_flush : (io.flush data).1.length + (io.flush data).2.length ≤ data.length := by
  rw [flush]
  rcases io.fflush with - | ⟨n, - | -⟩
  all_goals simp
  all_goals omega

theorem flush_append (h : ∀ k, io.fflush = some (k, false) → data.length ≤ k) :
    (io.flush data).1 ++ (io.flush data).2 = data := by
  rw [flush]
  rcases hf : io.fflush with - | ⟨n, - | -⟩
  · simp
  · simpa using List.take_of_length_le (h n hf)
  · simp

/-- What a call that fails leaves of a list. -/
theorem elim_take {l : List β} {o : Option ℕ} (h : ∀ k, o = some k → l.length ≤ k) :
    o.elim l (l.take ·) = l := by
  cases o with
  | none => rfl
  | some k => exact List.take_of_length_le (h k rfl)

theorem length_elim_take (l : List β) (o : Option ℕ) : (o.elim l (l.take ·)).length ≤ l.length ∧
    ∀ k, o = some k → (o.elim l (l.take ·)).length ≤ k := by
  cases o with
  | none => exact ⟨Nat.le_refl _, fun _ h => nomatch h⟩
  | some k =>
    refine ⟨List.length_take_le' k l, ?_⟩
    rintro _ ⟨⟩
    exact List.length_take_le k l

theorem settle_eq_iff : io.settle data = data ↔ io.Keeps data.length := by
  have hfst := length_flush_fst io data
  have hle := length_flush io data
  constructor
  · intro h
    have hlen := congrArg List.length h
    rw [settle, List.length_append] at hlen
    obtain ⟨hsync, hsync'⟩ := length_elim_take (io.flush data).1 io.fsync
    obtain ⟨hclose, hclose'⟩ := length_elim_take (io.flush data).2 io.fclose
    refine ⟨fun k hk => ?_, fun k hk => ?_, fun k hk => ?_⟩
    · have hrest : (io.flush data).2.length = 0 := by simp [flush, hk]
      have hwritten : (io.flush data).1.length ≤ k := by
        simp only [flush, hk]
        exact List.length_take_le k data
      omega
    · have hk := hsync' k hk
      omega
    · have hk := hclose' k hk
      omega
  · intro h
    have happend := flush_append h.fflush
    have hrest := congrArg List.length happend
    rw [List.length_append] at hrest
    rw [settle, elim_take fun k hk => hfst ▸ h.fsync k hk, elim_take fun k hk => ?_, happend]
    have hk := h.fclose k hk
    omega

end Calls

section Specs

variable {F β ε : Type} [DecidableEq F] {E : ε → Prop} (io : Calls) (d : Disk F β) (f g : F)

theorem wp_fopen : Prog.wp (fopen io f) (fun ok t => ok = io.fopen ∧
    if io.fopen then t = opened d.files f else t = d) E d := by
  unfold fopen
  cases io.fopen <;> simp [Prog.wp_modify, Prog.wp_pure]

omit [DecidableEq F] in
theorem wp_fflush : Prog.wp (fflush io)
    (fun _ t => t.files = d.files ∧ t.file = d.file ++ (io.flush d.buffer).1 ∧
    t.buffer = (io.flush d.buffer).2) E d := by
  unfold fflush Calls.flush
  rcases io.fflush with - | ⟨n, kept⟩ <;> simp

omit [DecidableEq F] in
theorem wp_fsync : Prog.wp (fsync io)
    (fun _ t => t.files = d.files ∧ t.file = io.fsync.elim d.file (d.file.take ·) ∧
    t.buffer = d.buffer) E d := by
  unfold fsync
  cases io.fsync <;> simp

theorem wp_fclose : Prog.wp (fclose io f) (fun _ t => t.files =
    Function.update d.files f (some (d.file ++ io.fclose.elim d.buffer (d.buffer.take ·)))) E d := by
  unfold fclose
  cases io.fclose <;> simp

theorem wp_rename : Prog.wp (rename io f g) (fun ok t => ok = io.rename ∧ t.files =
    if io.rename then Function.update (Function.update d.files f none) g (d.files f) else d.files) E d := by
  unfold rename
  cases io.rename <;> simp

theorem wp_unlink : Prog.wp (unlink io f) (fun _ t => t.files =
    if io.unlink then Function.update d.files f none else d.files) E d := by
  unfold unlink
  cases io.unlink <;> simp

end Specs

/-! ### Items -/

/-- A program that writes to a stream; it gives up where a write fails. -/
abbrev Writer (F β ε α : Type) := OptionT (Prog (Disk F β) ε) α

section Items

variable {F β ε : Type} [DecidableEq β] (io : Calls)

/-- Write an item, or give up. -/
def put (data : List β) : Writer F β ε Unit := do
  if ← OptionT.lift (fwrite io data) then pure () else failure

/-- Write the items in their order, and end with a result. -/
def emit (r : Except ε (Option Unit)) : List (List β) → Writer F β ε Unit
  | [] => OptionT.mk (Prog.lift r)
  | x :: l => do
    put io x
    emit r l

variable {io} {d : Disk F β} {r : Except ε (Option Unit)}

omit [DecidableEq β] in
theorem run_bind_some {α : Type} {m : Writer F β ε α} {k : α → Writer F β ε Unit} {a : α} {t : Disk F β}
    (h : m.run d = .ok (some a, t)) : (m >>= k).run d = (k a).run t := by
  rw [OptionT.run_bind, Option.elimM, Prog.bind_run h]
  rfl

omit [DecidableEq β] in
theorem run_bind_none {α : Type} {m : Writer F β ε α} {k : α → Writer F β ε Unit} {t : Disk F β}
    (h : m.run d = .ok (none, t)) : (m >>= k).run d = .ok (none, t) := by
  rw [OptionT.run_bind, Option.elimM, Prog.bind_run h]
  rfl

/-- The result of the write decides. -/
theorem put_of_fwrite {x : List β} {b : Bool} {t : Disk F β}
    (h : (fwrite io x : Prog (Disk F β) ε Bool) d = .ok (b, t)) :
    (put io x : Writer F β ε Unit).run d = .ok (if b then some () else none, t) := by
  have hlift : (OptionT.lift (fwrite io x) : Writer F β ε Bool).run d = .ok (some b, t) := Prog.bind_run h
  rw [put, run_bind_some hlift]
  cases b <;> rfl

theorem put_run {x : List β} (hx : x ≠ []) (h : io.fwrite d.writes = none) :
    (put io x : Writer F β ε Unit).run d =
      .ok (some (), { d with buffer := d.buffer ++ x, writes := d.writes + 1 }) := by
  refine put_of_fwrite (b := true) ?_
  rw [fwrite, if_neg hx, Prog.bind_run (b := d) (t := d) rfl, h]
  rfl

theorem put_run_short {x : List β} {n : ℕ} (hx : x ≠ []) (h : io.fwrite d.writes = some n) :
    (put io x : Writer F β ε Unit).run d =
      .ok (none, { d with buffer := d.buffer ++ x.dropLast.take n, writes := d.writes + 1 }) := by
  refine put_of_fwrite (b := false) ?_
  rw [fwrite, if_neg hx, Prog.bind_run (b := d) (t := d) rfl, h]
  rfl

theorem emit_cons_run {x : List β} (hx : x ≠ []) (l : List (List β)) (h : io.fwrite d.writes = none) :
    (emit io r (x :: l) : Writer F β ε Unit).run d =
      (emit io r l).run { d with buffer := d.buffer ++ x, writes := d.writes + 1 } :=
  run_bind_some (put_run hx h)

theorem emit_cons_run_short {x : List β} {n : ℕ} (hx : x ≠ []) (l : List (List β))
    (h : io.fwrite d.writes = some n) :
    (emit io r (x :: l) : Writer F β ε Unit).run d =
      .ok (none, { d with buffer := d.buffer ++ x.dropLast.take n, writes := d.writes + 1 }) :=
  run_bind_none (put_run_short hx h)

/-- No write fails. -/
theorem emit_run {l : List (List β)} (hl : ∀ x ∈ l, x ≠ [])
    (h : ∀ i < l.length, io.fwrite (d.writes + i) = none) :
    (emit io r l : Writer F β ε Unit).run d =
      r.map fun a => (a, { d with buffer := d.buffer ++ l.flatten, writes := d.writes + l.length }) := by
  induction l generalizing d with
  | nil => simp [emit, Prog.lift]
  | cons x l ih =>
    rw [emit_cons_run (hl x (by simp)) l (h 0 (by simp)), ih (fun y hy => hl y (by simp [hy])) fun i hi => ?_]
    · simp [Nat.add_assoc, Nat.add_comm 1]
    · have hnext := h (i + 1) (by simpa using hi)
      rwa [Nat.add_comm i, ← Nat.add_assoc] at hnext

/-- Some write fails: the first one that does is the last one. -/
theorem emit_run_short {l : List (List β)} (hl : ∀ x ∈ l, x ≠ []) {i : ℕ} (hi : i < l.length)
    (h : io.fwrite (d.writes + i) ≠ none) : ∃ j part, j < l.length ∧ io.fwrite (d.writes + j) ≠ none ∧
      part.length < l.flatten.length ∧ (emit io r l : Writer F β ε Unit).run d =
        .ok (none, { d with buffer := d.buffer ++ part, writes := d.writes + j + 1 }) := by
  induction l generalizing d i with
  | nil => simp at hi
  | cons x l ih =>
    have hx := hl x (by simp)
    have hpos := List.length_pos_iff.mpr hx
    cases hw : io.fwrite d.writes with
    | some n =>
      refine ⟨0, x.dropLast.take n, by simp, by simp [hw], ?_, emit_cons_run_short hx l hw⟩
      simp
      omega
    | none =>
      obtain - | i := i
      · exact absurd hw h
      · obtain ⟨j, part, hj, hwrite, hpart, hrun⟩ :=
          ih (d := { d with buffer := d.buffer ++ x, writes := d.writes + 1 })
          (fun y hy => hl y (by simp [hy])) (i := i) (by simpa using hi) (by
            rwa [Nat.add_comm i, ← Nat.add_assoc] at h)
        have hnext : d.writes + 1 + j = d.writes + (j + 1) := by omega
        refine ⟨j + 1, x ++ part, by simpa using hj, hnext ▸ hwrite, by simpa using hpart, ?_⟩
        rw [emit_cons_run hx l hw, hrun, ← hnext]
        simp

variable [DecidableEq F] {l : List (List β)} (files : F → Option (List β)) (f : F)

theorem emit_opened (hl : ∀ x ∈ l, x ≠ []) (h : ∀ i < l.length, io.fwrite i = none) :
    (emit io r l : Writer F β ε Unit).run (opened files f) =
      r.map fun a => (a, ⟨Function.update files f (some []), [], l.flatten, l.length⟩) := by
  rw [emit_run hl fun i hi => ?_]
  · simp [opened]
  · simpa [opened] using h i hi

theorem emit_opened_short (hl : ∀ x ∈ l, x ≠ []) {i : ℕ} (hi : i < l.length) (h : io.fwrite i ≠ none) :
    ∃ j part, j < l.length ∧ io.fwrite j ≠ none ∧ part.length < l.flatten.length ∧
      (emit io r l : Writer F β ε Unit).run (opened files f) =
        .ok (none, ⟨Function.update files f (some []), [], part, j + 1⟩) := by
  simpa [opened] using emit_run_short (d := opened files f) (r := r) hl hi (by simpa [opened] using h)

end Items

/-! ### Writers without faults -/

/-- The writer ends, or gives up. -/
def Returns {F β ε α : Type} (m : Writer F β ε α) : Prop := ∀ d, ∃ o t, m.run d = .ok (o, t)

section Returns

variable {F β ε α γ : Type} {m : Writer F β ε γ}

theorem returns_pure (a : α) : Returns (pure a : Writer F β ε α) := fun d => ⟨some a, d, rfl⟩

theorem returns_bind {k : γ → Writer F β ε Unit} (hm : Returns m) (hk : ∀ a, Returns (k a)) :
    Returns (m >>= k) := fun d => by
  obtain ⟨o, t, hrun⟩ := hm d
  cases o with
  | none => exact ⟨none, t, run_bind_none hrun⟩
  | some a =>
    obtain ⟨o, u, hu⟩ := hk a t
    exact ⟨o, u, (run_bind_some hrun).trans hu⟩

theorem returns_lift {x : Except ε α} {a : α} {k : α → Writer F β ε Unit} (hx : x = .ok a)
    (hk : Returns (k a)) : Returns (OptionT.lift (Prog.lift x) >>= k) := fun d => by
  subst hx
  obtain ⟨o, t, hrun⟩ := hk d
  exact ⟨o, t, (run_bind_some (a := a) (t := d) rfl).trans hrun⟩

theorem returns_put [DecidableEq β] (io : Calls) (x : List β) :
    Returns (put io x : Writer F β ε Unit) := fun d => by
  obtain ⟨b, t, hrun⟩ : ∃ b t, (fwrite io x : Prog (Disk F β) ε Bool) d = .ok (b, t) := by
    unfold fwrite
    split_ifs
    · exact ⟨false, d, rfl⟩
    · cases hw : io.fwrite d.writes with
      | none => exact ⟨true, _, (Prog.bind_run (b := d) (t := d) rfl).trans (by rw [hw]; rfl)⟩
      | some n => exact ⟨false, _, (Prog.bind_run (b := d) (t := d) rfl).trans (by rw [hw]; rfl)⟩
  exact ⟨_, t, put_of_fwrite hrun⟩

theorem returns_forM {f : α → Writer F β ε Unit} : ∀ {l : List α}, (∀ a ∈ l, Returns (f a)) →
    Returns (l.forM f)
  | [], _ => returns_pure ()
  | a :: _, h =>
    returns_bind (h a List.mem_cons_self) fun _ =>
      returns_forM fun b hb => h b (List.mem_cons_of_mem a hb)

end Returns

/-! ### What a writer writes -/

/-- The computation gives the value. -/
def Yields {ε α : Type} (p : OptionT (Except ε) α) (a : α) : Prop := p.run = .ok (some a)

/-- The writer writes the items of what is computed, and ends with an error if nothing is. -/
def Emits {F β ε : Type} [DecidableEq β] (m : Calls → Writer F β ε Unit)
    (p : OptionT (Except ε) (List β)) : Prop :=
  ∃ l r, (∀ x ∈ l, x ≠ []) ∧ (∀ io, m io = emit io r l) ∧ ∀ data, Yields p data ↔
    r = .ok (some ()) ∧ data = l.flatten

section Yields

variable {ε α γ : Type}

theorem yields_bind {p : OptionT (Except ε) γ} {k : γ → OptionT (Except ε) α} {a : α} :
    Yields (p >>= k) a ↔ ∃ b, Yields p b ∧ Yields (k b) a := by
  unfold Yields
  rw [OptionT.run_bind]
  rcases p.run with e | - | b
  · exact ⟨fun h => (by cases h), fun ⟨_, h, _⟩ => (by cases h)⟩
  · exact ⟨fun h => (by cases h), fun ⟨_, h, _⟩ => (by cases h)⟩
  · exact ⟨fun h => ⟨b, rfl, h⟩, fun ⟨_, h, h'⟩ => by cases h; exact h'⟩

theorem yields_pure {a b : α} : Yields (pure a : OptionT (Except ε) α) b ↔ b = a :=
  ⟨fun h => by cases h; rfl, fun h => h ▸ rfl⟩

theorem yields_lift {x : Except ε α} {a : α} : Yields (OptionT.lift x) a ↔ x = .ok a := by
  cases x with
  | error e => exact ⟨fun h => (by cases h), fun h => (by cases h)⟩
  | ok b => exact ⟨fun h => by cases h; rfl, fun h => by cases h; rfl⟩

theorem not_yields_failure {a : α} : ¬Yields (failure : OptionT (Except ε) α) a := fun h => by cases h

end Yields

section Emits

variable {F β ε α : Type} [DecidableEq β] {m n : Calls → Writer F β ε Unit}
    {p q : OptionT (Except ε) (List β)}

theorem Emits.of_yields (h : Emits m p) (hp : ∀ data, Yields q data ↔ Yields p data) : Emits m q := by
  obtain ⟨l, r, hl, hm, hdata⟩ := h
  exact ⟨l, r, hl, hm, fun data => (hp data).trans (hdata data)⟩

theorem emits_pure : Emits (fun _ => (pure () : Writer F β ε Unit)) (pure []) :=
  ⟨[], .ok (some ()), by simp, fun _ => rfl, fun data => by simp [yields_pure]⟩

theorem emits_put (x : List β) :
    Emits (fun io => (put io x : Writer F β ε Unit)) (if x = [] then failure else pure x) := by
  by_cases hx : x = []
  · subst hx
    refine ⟨[], .ok none, by simp, fun io => rfl, fun data => ?_⟩
    simp [not_yields_failure]
  · refine ⟨[x], .ok (some ()), by simpa using hx, fun io => (bind_pure_unit (x := put io x)).symm, fun data => ?_⟩
    simp [hx, yields_pure]

theorem emits_lift (x : Except ε α) {m : α → Calls → Writer F β ε Unit} {p : α → OptionT (Except ε) (List β)}
    (h : ∀ a, x = .ok a → Emits (m a) (p a)) :
    Emits (fun io => OptionT.lift (Prog.lift x) >>= fun a => m a io) (OptionT.lift x >>= p) := by
  cases x with
  | error e => exact ⟨[], .error e, by simp, fun io => rfl, fun data => by simp [yields_bind, yields_lift]⟩
  | ok a =>
    obtain ⟨l, r, hl, hm, hdata⟩ := h a rfl
    exact ⟨l, r, hl, hm, fun data => by simp [yields_bind, yields_lift, hdata]⟩

/-- Items that follow a writer. -/
theorem emit_append (io : Calls) (r : Except ε (Option Unit)) (l l' : List (List β)) :
    (emit io (.ok (some ())) l >>= fun _ => emit io r l' : Writer F β ε Unit) = emit io r (l ++ l') := by
  induction l with
  | nil => rfl
  | cons x l ih => rw [List.cons_append, emit, emit, bind_assoc, ih]

theorem emit_stop (io : Calls) {r : Except ε (Option Unit)} (hr : r ≠ .ok (some ())) (l : List (List β))
    (k : Unit → Writer F β ε Unit) : (emit io r l >>= k) = emit io r l := by
  induction l with
  | nil =>
    rcases r with e | - | u
    · rfl
    · rfl
    · exact absurd rfl hr
  | cons x l ih => rw [emit, bind_assoc, ih]

theorem Emits.append (hm : Emits m p) (hn : Emits n q) :
    Emits (fun io => m io >>= fun _ => n io) (p >>= fun a => q >>= fun b => pure (a ++ b)) := by
  obtain ⟨l, r, hl, hml, hdata⟩ := hm
  obtain ⟨l', r', hl', hnl, hdata'⟩ := hn
  by_cases hr : r = .ok (some ())
  · subst hr
    refine ⟨l ++ l', r', fun x hx => (List.mem_append.mp hx).elim (hl x) (hl' x), fun io => ?_,
      fun data => ?_⟩
    · show (m io >>= fun _ => n io) = _
      rw [hml, hnl, emit_append]
    · simp only [yields_bind, yields_pure, hdata, hdata', true_and, and_assoc, exists_and_left,
        exists_eq_left,
        List.flatten_append]
  · refine ⟨l, r, hl, fun io => ?_, fun data => ?_⟩
    · show (m io >>= fun _ => n io) = _
      rw [hml, emit_stop io hr]
    · simp only [yields_bind, hdata, hr, false_and, exists_false]

theorem emits_forM {γ : Type} {m : γ → Calls → Writer F β ε Unit} {p : γ → OptionT (Except ε) (List β)} :
    ∀ {l : List γ}, (∀ a ∈ l, Emits (m a) (p a)) →
      Emits (fun io => l.forM fun a => m a io) (l.mapM p >>= fun parts => pure parts.flatten)
  | [], _ => emits_pure.of_yields fun data => by simp [yields_pure]
  | a :: l, h => by
    have hrest := emits_forM (l := l) fun b hb => h b (by simp [hb])
    exact ((h a (by simp)).append hrest).of_yields fun data => by simp [yields_bind]

end Emits

end Stdio

end EagleMQ
