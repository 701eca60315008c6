import EagleMQ.Storage.Save
import EagleMQ.Storage.Contents
import EagleMQ.Backlog.Reach
import EagleMQ.References.Runs

/-! What `storage_save` leaves at the storage path. The result of each write and of
the renaming is looked at; those of the calls that empty the buffer are not. -/

namespace EagleMQ

namespace File

open Prog Stdio

section Atomic

variable [Lzf] {io : Calls} {entry : String → String} {pid : ℕ} {filename : String}
    {s : EagleServer} {bytes : List Byte}
  {d : Disk String Byte}

/-! ### Items -/

/-- The save has an item `i`: if only its write fails, it is the last one. -/
def hasItem (s : EagleServer) (i : ℕ) : Bool :=
  match (storageSaveAll (Calls.refuse i) s).run ⟨fun _ => none, [], [], 0⟩ with
  | .ok (none, d) => d.writes == i + 1
  | _ => false

/-- A save whose items are all written reads what is gone, or past the end of a field. -/
def dangles (s : EagleServer) : Bool :=
  match (storageSaveAll Calls.succeed s).run ⟨fun _ => none, [], [], 0⟩ with
  | .ok _ => false
  | .error _ => true

/-- Every item is written. -/
def Accepts (io : Calls) (s : EagleServer) : Prop := ∀ i, hasItem s i = true → io.fwrite i = none

/-- The file at the path is the whole save. -/
def Whole (s : EagleServer) (files : String → Option (List Byte)) (path : String) : Prop :=
  ∃ bytes, Yields (EagleMQ.storageSave s) bytes ∧ files path = some bytes

theorem hasItem_iff {l : List (List Byte)} {r : Except Fault (Option Unit)} (hl : ∀ x ∈ l, x ≠ [])
    (hrun : ∀ io, storageSaveAll io s = emit io r l) (i : ℕ) : hasItem s i = true ↔ i < l.length := by
  unfold hasItem
  rw [hrun]
  by_cases hi : i < l.length
  · have hrefuse : (Calls.refuse i).fwrite
        ((⟨fun _ => none, [], [], 0⟩ : Disk String Byte).writes + i) ≠ none := by
      simp [Calls.refuse]
    obtain ⟨j, part, -, hwrite, -, hshort⟩ := emit_run_short (r := r) hl hi hrefuse
    have hj : j = i := by simpa [Calls.refuse] using hwrite
    simp [hshort, hj, hi]
  · have hnever : ∀ j < l.length, (Calls.refuse i).fwrite (0 + j) = none := fun j hj => if_neg (by omega)
    rw [emit_run hl hnever]
    rcases r with e | - | u
    · simp [Except.map, hi]
    · simp [Except.map, hi]
      omega
    · simp [Except.map, hi]

theorem dangles_iff {l : List (List Byte)} {r : Except Fault (Option Unit)} (hl : ∀ x ∈ l, x ≠ [])
    (hrun : ∀ io, storageSaveAll io s = emit io r l) : dangles s = true ↔ ∃ e, r = .error e := by
  unfold dangles
  rw [hrun, emit_run hl fun _ _ => rfl]
  cases r <;> simp [Except.map]

/-! ### Outcomes -/

/-- How a save that returns ends: its status, and the files. -/
inductive Saved (io : Calls) (s : EagleServer) (tmp path : String) (files : String → Option (List Byte)) :
    Bool → (String → Option (List Byte)) → Prop
  | closed (hopen : io.fopen = false) : Saved io s tmp path files false files
  | refused {part : List Byte} (hopen : io.fopen = true)
      (hpart : ∀ bytes, Yields (EagleMQ.storageSave s) bytes → ¬Accepts io s ∧ part.length < bytes.length) :
      Saved io s tmp path files false (Function.update files tmp (if io.unlink then none else some part))
  | renamed {bytes : List Byte} (hopen : io.fopen = true) (haccepts : Accepts io s)
      (hbytes : Yields (EagleMQ.storageSave s) bytes) (hrename : io.rename = true) :
      Saved io s tmp path files true
        (Function.update (Function.update files tmp none) path (some (io.settle bytes)))
  | unlinked {bytes : List Byte} (hopen : io.fopen = true) (haccepts : Accepts io s)
      (hbytes : Yields (EagleMQ.storageSave s) bytes) (hrename : io.rename = false) :
      Saved io s tmp path files false
        (Function.update files tmp (if io.unlink then none else some (io.settle bytes)))

omit [Lzf] in
/-- The end of a save that gives up. -/
theorem giveUp_spec (io : Calls) (tmp : String) (d : Disk String Byte) :
    wp (do
      let _ ← fclose io tmp
      let _ ← unlink io tmp
      pure false : Prog (Disk String Byte) Fault Bool)
        (fun ok t => ok = false ∧ t.files = Function.update d.files tmp
        (if io.unlink then none else some (d.file ++ io.fclose.elim d.buffer (d.buffer.take ·))))
          (fun _ => False) d := by
  rw [wp_bind]
  refine wp_mono (wp_fclose io d tmp) (fun _ t ht => ?_) fun _ h => h
  rw [wp_bind]
  refine wp_mono (wp_unlink io t tmp) (fun _ u hu => ⟨rfl, ?_⟩) fun _ h => h
  rw [hu, ht]
  split_ifs <;> simp

/-- A save that gives up has refused what is saved. -/
theorem giveUp_refused {tmp path : String} {files : String → Option (List Byte)} {part : List Byte}
    {n : ℕ} (hopen : io.fopen = true)
    (hpart : ∀ bytes, Yields (EagleMQ.storageSave s) bytes → ¬Accepts io s ∧ part.length < bytes.length) :
    wp (do
      let _ ← fclose io tmp
      let _ ← unlink io tmp
      pure false : Prog (Disk String Byte) Fault Bool)
        (fun ok t => Saved io s tmp path files ok t.files) (fun _ => False)
      ⟨Function.update files tmp (some []), [], part, n⟩ := by
  refine wp_mono (giveUp_spec io tmp _) (fun ok t ht => ?_) fun _ h => h
  obtain ⟨rfl, hfiles⟩ := ht
  rw [hfiles, Function.update_idem]
  refine .refused hopen fun bytes hbytes => ⟨(hpart bytes hbytes).1, ?_⟩
  exact Nat.lt_of_le_of_lt (Calls.length_elim_take part io.fclose).1 (hpart bytes hbytes).2

omit [Lzf] in
/-- The end of a save that has written all items. -/
theorem finish_spec (io : Calls) (tmp path : String) (hfile : d.file = []) :
    wp (do
      let _ ← fflush io
      let _ ← fsync io
      let _ ← fclose io tmp
      if ← rename io tmp path then pure true
      else
        let _ ← unlink io tmp
        pure false : Prog (Disk String Byte) Fault Bool) (fun ok t => ok = io.rename ∧ t.files =
          if io.rename then Function.update (Function.update d.files tmp none) path
            (some (io.settle d.buffer))
          else Function.update d.files tmp (if io.unlink then none else some (io.settle d.buffer)))
            (fun _ => False) d := by
  rw [wp_bind]
  refine wp_mono (wp_fflush io d) (fun _ t ⟨ht, htfile, htbuffer⟩ => ?_) fun _ h => h
  rw [wp_bind]
  refine wp_mono (wp_fsync io t) (fun _ u ⟨hu, hufile, hubuffer⟩ => ?_) fun _ h => h
  rw [wp_bind]
  refine wp_mono (wp_fclose io u tmp) (fun _ v hv => ?_) fun _ h => h
  have hclosed : v.files = Function.update d.files tmp (some (io.settle d.buffer)) := by
    rw [hv, hu, ht, hufile, hubuffer, htfile, htbuffer, hfile]
    rfl
  rw [wp_bind]
  refine wp_mono (wp_rename io v tmp path) (fun ok w ⟨hok, hw⟩ => ?_) fun _ h => h
  subst hok
  cases hrename : io.rename with
  | true =>
    rw [hrename, if_pos rfl, hclosed, Function.update_idem, Function.update_self] at hw
    exact ⟨rfl, by rw [hw, if_pos rfl]⟩
  | false =>
    rw [hrename, if_neg Bool.false_ne_true, hclosed] at hw
    rw [if_neg Bool.false_ne_true, wp_bind]
    refine wp_mono (wp_unlink io w tmp) (fun _ x hx => ⟨rfl, ?_⟩) fun _ h => h
    rw [hx, hw, if_neg Bool.false_ne_true]
    split_ifs <;> simp

variable (io entry pid filename s) in
/-- A save returns, unless all that it writes is written and it reads what is gone. -/
theorem storageSave_spec (d : Disk String Byte) : wp (storageSave io entry pid filename s) (fun ok t =>
    Saved io s (entry (tmpfile pid)) (entry filename) d.files ok t.files ∧
      (io.fopen = true → Accepts io s → dangles s = false))
    (fun _ => io.fopen = true ∧ Accepts io s ∧ dangles s = true) d := by
  obtain ⟨l, r, hl, (hrun : ∀ io, storageSaveAll io s = emit io r l), hdata⟩ := emits_all s
  have hitem := hasItem_iff hl hrun
  have hdangles := dangles_iff hl hrun
  rw [storageSave, wp_bind]
  refine wp_mono (wp_fopen io d _) (fun ok t ht => ?_) fun _ h => h
  obtain ⟨rfl, hopened⟩ := ht
  cases hopen : io.fopen with
  | false =>
    rw [hopen, if_neg Bool.false_ne_true] at hopened
    exact hopened ▸ ⟨.closed hopen, fun h => absurd h Bool.false_ne_true⟩
  | true =>
    rw [hopen, if_pos rfl] at hopened
    subst hopened
    rw [if_pos rfl, wp_bind, hrun]
    by_cases haccepts : Accepts io s
    · have hend := emit_opened (r := r) d.files (entry (tmpfile pid)) hl fun i hi =>
        haccepts i ((hitem i).mpr hi)
      rcases r with e | - | u
      · rw [wp, hend]
        exact ⟨rfl, haccepts, hdangles.mpr ⟨e, rfl⟩⟩
      · have hwhole : dangles s = false := Bool.eq_false_iff.mpr fun h => by simpa using hdangles.mp h
        have hnone : ∀ bytes, ¬Yields (EagleMQ.storageSave s) bytes := fun bytes hbytes => by
          simpa using ((hdata bytes).mp hbytes).1
        refine wp_of_ok hend (wp_mono (giveUp_refused hopen fun bytes hbytes => absurd hbytes (hnone bytes))
          (fun _ _ ht => ⟨ht, fun _ _ => hwhole⟩) fun _ h => h.elim)
      · have hwhole : dangles s = false := Bool.eq_false_iff.mpr fun h => by simpa using hdangles.mp h
        have hbytes : Yields (EagleMQ.storageSave s) l.flatten := (hdata _).mpr ⟨rfl, rfl⟩
        refine wp_of_ok hend ?_
        refine wp_mono (finish_spec io (entry (tmpfile pid)) (entry filename) rfl)
          (fun ok t ht => ⟨?_, fun _ _ => hwhole⟩)
          fun _ h => h.elim
        obtain ⟨rfl, hfiles⟩ := ht
        dsimp only at hfiles
        rw [hfiles, Function.update_idem, Function.update_idem]
        cases hrename : io.rename with
        | true => exact .renamed hopen haccepts hbytes hrename
        | false => exact .unlinked hopen haccepts hbytes hrename
    · obtain ⟨i, hi, hwrite⟩ : ∃ i < l.length, io.fwrite i ≠ none := by
        unfold Accepts at haccepts
        push Not at haccepts
        obtain ⟨i, hi, hwrite⟩ := haccepts
        exact ⟨i, (hitem i).mp hi, hwrite⟩
      obtain ⟨j, part, -, -, hpart, hshort⟩ :=
        emit_opened_short (r := r) d.files (entry (tmpfile pid)) hl hi hwrite
      have hless : ∀ bytes, Yields (EagleMQ.storageSave s) bytes →
          ¬Accepts io s ∧ part.length < bytes.length :=
        fun bytes hbytes => ⟨haccepts, ((hdata bytes).mp hbytes).2 ▸ hpart⟩
      exact wp_of_ok hshort (wp_mono (giveUp_refused hopen hless)
        (fun _ _ ht => ⟨ht, fun _ h => absurd h haccepts⟩)
        fun _ h => h.elim)

/-! ### All or nothing -/

/-- The save returns; then the file at the storage path is what it was or the whole save, and
it is the whole save if the save reports a success. -/
def AllOrNothing (io : Calls) (entry : String → String) (pid : ℕ) (filename : String) (s : EagleServer)
    (d : Disk String Byte) : Prop :=
  ∃ ok t, storageSave io entry pid filename s d = .ok (ok, t) ∧
    (t.files (entry filename) = d.files (entry filename) ∨ Whole s t.files (entry filename)) ∧
    (ok = true → Whole s t.files (entry filename))

/-- The calls lose nothing that is seen at the storage path. -/
structure Safe (io : Calls) (s : EagleServer) (tmp path : String) : Prop where
  /-- The save gives up in front of what is gone. -/
  returns : io.fopen = true → Accepts io s → dangles s = false
  /-- The calls whose results are not looked at lose no byte, or an earlier or a later call
  fails. -/
  renamed : tmp ≠ path → io.fopen = true → Accepts io s → io.rename = true →
    ∀ bytes, Yields (EagleMQ.storageSave s) bytes → io.Keeps bytes.length
  /-- The temporary file is the one that is replaced. -/
  same : tmp = path → io.fopen = true → Accepts io s ∧
    (∃ bytes, Yields (EagleMQ.storageSave s) bytes ∧ io.Keeps bytes.length) ∧
    (io.rename = true ∨ io.unlink = false)

omit [Lzf] in
theorem yields_unique {α : Type} {p : StorageM α} {a b : α} (h : Yields p a) (h' : Yields p b) : a = b :=
  Option.some.inj (Except.ok.inj (h.symm.trans h'))

theorem Whole.yields {files : String → Option (List Byte)} {path : String} {part : List Byte}
    (h : Whole s files path)
    (hpart : files path = some part) : Yields (EagleMQ.storageSave s) part := by
  obtain ⟨bytes, hbytes, hpath⟩ := h
  exact Option.some.inj (hpart.symm.trans hpath) ▸ hbytes

/-- What is left of the temporary file differs from a file that is there exactly if this is
to be removed. -/
theorem Whole.left {files : String → Option (List Byte)} {path : String} {part : List Byte}
    (hpath : files path = if io.unlink then none else some part)
    (h : files path = (if io.unlink then some [] else none) ∨ Whole s files path) :
    io.unlink = false ∧ Yields (EagleMQ.storageSave s) part := by
  cases hunlink : io.unlink with
  | true =>
    rw [hunlink, if_pos rfl] at hpath
    rw [hunlink, if_pos rfl, hpath] at h
    obtain hsame | ⟨bytes, -, hwhole⟩ := h
    · cases hsame
    · cases hpath.symm.trans hwhole
  | false =>
    rw [hunlink, if_neg Bool.false_ne_true] at hpath
    rw [hunlink, if_neg Bool.false_ne_true, hpath] at h
    exact ⟨rfl, (h.resolve_left (by simp)).yields hpath⟩

/-- Calls that are all or nothing for every disk, also for one whose file is there only
where it can be removed. -/
theorem AllOrNothing.safe (h : ∀ d, AllOrNothing io entry pid filename s d) :
    Safe io s (entry (tmpfile pid)) (entry filename) := by
  obtain ⟨ok, t, hrun, hfile, hstatus⟩ := h ⟨fun _ => if io.unlink then some [] else none, [], [], 0⟩
  obtain ⟨hsaved, hreturns⟩ := ok_of_wp (storageSave_spec io entry pid filename s _) hrun
  generalize t.files = files at hsaved hfile hstatus
  dsimp only at hsaved hfile
  have hkeeps : ∀ {bytes : List Byte}, Yields (EagleMQ.storageSave s) bytes →
    Yields (EagleMQ.storageSave s) (io.settle bytes) →
      io.Keeps bytes.length := fun hbytes hsettle => Calls.settle_eq_iff.mp (yields_unique hsettle hbytes)
  refine ⟨hreturns, fun hne hopen haccepts hrename bytes hbytes => ?_, fun heq hopen => ?_⟩
  · cases hsaved with
    | closed hclosed => exact absurd (hopen.symm.trans hclosed) (by decide)
    | refused _ hpart => exact absurd haccepts (hpart bytes hbytes).1
    | renamed _ _ hyields =>
      obtain rfl := yields_unique hbytes hyields
      exact hkeeps hbytes ((hstatus rfl).yields (Function.update_self ..))
    | unlinked _ _ _ hno => exact absurd (hrename.symm.trans hno) (by decide)
  · cases hsaved with
    | closed hclosed => exact absurd (hopen.symm.trans hclosed) (by decide)
    | refused _ hpart =>
      obtain ⟨-, hyields⟩ := Whole.left (by rw [heq, Function.update_self]) hfile
      exact absurd (hpart _ hyields).2 (Nat.lt_irrefl _)
    | renamed _ haccepts hbytes hrename =>
      exact ⟨haccepts, ⟨_, hbytes, hkeeps hbytes ((hstatus rfl).yields (Function.update_self ..))⟩,
        .inl hrename⟩
    | unlinked _ haccepts hbytes =>
      obtain ⟨hunlink, hyields⟩ := Whole.left (by rw [heq, Function.update_self]) hfile
      exact ⟨haccepts, ⟨_, hbytes, hkeeps hbytes hyields⟩, .inr hunlink⟩

theorem Safe.allOrNothing (hsafe : Safe io s (entry (tmpfile pid)) (entry filename)) (d : Disk String Byte) :
    AllOrNothing io entry pid filename s d := by
  have hspec := storageSave_spec io entry pid filename s d
  cases hrun : storageSave io entry pid filename s d with
  | error e =>
    obtain ⟨hopen, haccepts, hdangles⟩ := fault_of_wp hspec hrun
    exact absurd (hdangles.symm.trans (hsafe.returns hopen haccepts)) (by decide)
  | ok result =>
    obtain ⟨ok, t⟩ := result
    obtain ⟨hsaved, -⟩ := ok_of_wp hspec hrun
    refine ⟨ok, t, hrun, ?_⟩
    generalize t.files = files at hsaved
    -- the renamed file is the whole save
    have hwhole : ∀ {bytes : List Byte}, Yields (EagleMQ.storageSave s) bytes → io.Keeps bytes.length →
        files (entry filename) = some (io.settle bytes) → Whole s files (entry filename) :=
        fun hbytes hkeeps hpath =>
      ⟨_, hbytes, by rw [hpath, Calls.settle_eq_iff.mpr hkeeps]⟩
    by_cases heq : entry (tmpfile pid) = entry filename
    · cases hsaved with
      | closed => exact ⟨.inl rfl, fun h => by cases h⟩
      | refused hopen hpart =>
        obtain ⟨haccepts, ⟨bytes, hbytes, -⟩, -⟩ := hsafe.same heq hopen
        exact absurd haccepts (hpart bytes hbytes).1
      | renamed hopen _ hbytes =>
        obtain ⟨-, ⟨bytes, hyields, hkeeps⟩, -⟩ := hsafe.same heq hopen
        obtain rfl := yields_unique hyields hbytes
        have hend := hwhole hbytes hkeeps (Function.update_self ..)
        exact ⟨.inr hend, fun _ => hend⟩
      | unlinked hopen _ hbytes hrename =>
        obtain ⟨-, ⟨bytes, hyields, hkeeps⟩, hend⟩ := hsafe.same heq hopen
        obtain rfl := yields_unique hyields hbytes
        have hunlink : io.unlink = false :=
          hend.resolve_left fun h => absurd (h.symm.trans hrename) (by decide)
        refine ⟨.inr (hwhole hbytes hkeeps ?_), fun h => by cases h⟩
        rw [heq, Function.update_self, hunlink]
        rfl
    · cases hsaved with
      | closed => exact ⟨.inl rfl, fun h => by cases h⟩
      | refused => exact ⟨.inl (Function.update_of_ne (Ne.symm heq) ..), fun h => by cases h⟩
      | renamed hopen haccepts hbytes hrename =>
        have hend := hwhole hbytes (hsafe.renamed heq hopen haccepts hrename _ hbytes)
          (Function.update_self ..)
        exact ⟨.inr hend, fun _ => hend⟩
      | unlinked => exact ⟨.inl (Function.update_of_ne (Ne.symm heq) ..), fun h => by cases h⟩

/-- Saving is all or nothing, whatever is on the disk, exactly if the calls lose nothing. -/
theorem storageSave_allOrNothing : (∀ d, AllOrNothing io entry pid filename s d) ↔
    Safe io s (entry (tmpfile pid)) (entry filename) := ⟨AllOrNothing.safe, Safe.allOrNothing⟩

end Atomic

/-! ### The small server -/

/-- A durable queue with two messages: a flush that keeps what it has not written loses
nothing. After a purge the save follows the tail that is left, unless an earlier write
fails. -/
theorem storageSave_allOrNothing_purged : ∃ s t, @Reachable Sample.lzf s ∧
    @step Sample.lzf s (Sample.named Cmd.queuePurge 0 [113] []) = .ok t ∧
    (∀ d, @AllOrNothing Sample.lzf { Calls.succeed with fflush := some (3, true) } id 7 "eaglemq.dat" s d) ∧
    (¬∀ d, @AllOrNothing Sample.lzf Calls.succeed id 7 "eaglemq.dat" t d) ∧
    ∀ d, @AllOrNothing Sample.lzf
      { Calls.succeed with fwrite := fun i => if i = 10 then some 1 else none, unlink := false }
      id 7 "eaglemq.dat" t d := by
  have hrun : (@replay Sample.lzf Sample.server (Sample.login 0 ++ [Sample.queueCreate 0 [113] 5 8,
      Sample.named Cmd.queueDeclare 0 [113] [],
      Sample.named Cmd.queuePush 0 [113] (leBytes 4 0 ++ List.replicate 24 7),
      Sample.named Cmd.queuePush 0 [113] (leBytes 4 0 ++ [1, 2, 3])])).any (fun s =>
      !@dangles Sample.lzf s &&
      (@step Sample.lzf s (Sample.named Cmd.queuePurge 0 [113] [])).toOption.any fun t =>
        @dangles Sample.lzf t && @hasItem Sample.lzf t 10) = true := by decide +kernel
  obtain ⟨s, hs, hp⟩ := (Option.any_eq_true ..).mp hrun
  obtain ⟨hwhole, hp⟩ := Bool.and_eq_true_iff.mp hp
  obtain ⟨t, ht, hp⟩ := (Option.any_eq_true ..).mp hp
  obtain ⟨hdangles, hitem⟩ := Bool.and_eq_true_iff.mp hp
  have hpath : id (tmpfile 7) ≠ id "eaglemq.dat" := by decide
  have hstart := @Reachable.start Sample.lzf Sample.config Sample.env
  refine ⟨s, t, @Reachable.run Sample.lzf _ _ hstart (@run_of_replay Sample.lzf _ _ _ hs),
    Prog.toOption_eq_some.mp ht, ?_, fun h => ?_, ?_⟩
  · refine (@storageSave_allOrNothing Sample.lzf ..).mpr
      (@Safe.mk Sample.lzf _ _ _ _ (fun _ _ => by simpa using hwhole) ?_ ?_)
    · exact fun _ _ _ _ bytes _ => ⟨by simp, by simp [Calls.succeed], by simp [Calls.succeed]⟩
    · exact fun heq => absurd heq hpath
  · have hsafe := (@storageSave_allOrNothing Sample.lzf ..).mp h
    exact absurd (hdangles.symm.trans (@Safe.returns Sample.lzf _ _ _ _ hsafe rfl fun _ _ => rfl)) (by decide)
  · refine (@storageSave_allOrNothing Sample.lzf ..).mpr
      (@Safe.mk Sample.lzf _ _ _ _ (fun _ h => ?_) (fun _ _ h => ?_) ?_)
    · exact absurd (h 10 hitem) (by simp)
    · exact absurd (h 10 hitem) (by simp)
    · exact fun heq => absurd heq hpath

/-- The file of the first state: the administrator is not saved. -/
theorem yields_sample : Yields (@EagleMQ.storageSave Lzf.stored Sample.server)
    (storageMagic ++ [StorageType.eof]) := by
  rfl

/-- The disk is full when the buffer is flushed. -/
theorem not_storageSave_allOrNothing :
    ¬@AllOrNothing Lzf.stored { Calls.succeed with fflush := some (0, false) } id 7 "eaglemq.dat" Sample.server
      ⟨fun _ => some [1], [], [], 0⟩ := fun h => by
  obtain ⟨ok, t, hrun, -, hstatus⟩ := h
  obtain ⟨hsaved, -⟩ := ok_of_wp
    (@storageSave_spec Lzf.stored { Calls.succeed with fflush := some (0, false) } id 7
    "eaglemq.dat" Sample.server ⟨fun _ => some [1], [], [], 0⟩) hrun
  generalize t.files = files at hsaved hstatus
  cases hsaved with
  | closed hopen => cases hopen
  | refused _ hpart => exact (hpart _ yields_sample).1 fun _ _ => rfl
  | renamed _ _ hbytes =>
    obtain rfl := yields_unique hbytes yields_sample
    have hempty := @Whole.yields Lzf.stored _ _ _ _ (hstatus rfl) (Function.update_self ..)
    exact absurd (yields_unique hempty yields_sample) (by decide)
  | unlinked _ _ _ hrename => cases hrename

/-! ### What a save may meet -/

section Dangles

variable [Lzf] {io : Calls} {s : EagleServer} {x : QueueT} {q : Ptr} {l : List (Ptr × Ptr)}

theorem storageWriteData_returns (data : List Byte) : Returns (storageWriteData io data) := by
  have hraw : Returns (storageWriteRaw io data) :=
    returns_bind (returns_put io _) fun _ => returns_bind (returns_put io _) fun _ => returns_put io data
  unfold storageWriteData
  split_ifs
  · exact hraw
  · cases Lzf.compress data (data.length - 4) with
    | none => exact hraw
    | some out =>
      exact returns_bind (returns_put io _) fun _ => returns_bind (returns_put io _) fun _ =>
        returns_put io out

theorem storageSaveUser_returns {u : EagleUser} (hname : u.name.length < 32)
    (hpassword : u.password.length < 32) : Returns (storageSaveUser io u) := by
  refine returns_bind (returns_put io _) fun _ => ?_
  refine returns_lift (show u.cName = .ok u.name from if_pos hname)
    (returns_bind (storageWriteData_returns _) fun _ => ?_)
  refine returns_lift (show u.cPassword = .ok u.password from if_pos hpassword) ?_
  exact returns_bind (storageWriteData_returns _) fun _ => storageWriteData_returns _

/-- The messages that the iterator meets are written, if they are there. -/
theorem storageSaveMessagesFrom_returns {n : ℕ} {p : Option Ptr} {ps : List Ptr}
    (hrun : iterateTail x.backlog.queue n p = .ok ps)
    (hfind : ∀ m ∈ ps, ∃ y, findMessage s x.backlog m = .ok y) :
    Returns (storageSaveMessagesFrom io s x n p) := by
  induction n generalizing p ps with
  | zero =>
    cases p with
    | none => exact returns_pure ()
    | some p => cases hrun
  | succ n ih =>
    cases p with
    | none => exact returns_pure ()
    | some p =>
      have hiterate : iterateTail x.backlog.queue (n + 1) (some p) =
        (x.backlog.queue.node (some p)).bind fun nd =>
        (iterateTail x.backlog.queue n nd.2.prev).bind fun rest => .ok (nd.2.value :: rest) := rfl
      rw [hiterate] at hrun
      cases hnode : x.backlog.queue.node (some p) with
      | error e =>
        rw [hnode] at hrun
        cases hrun
      | ok nd =>
        rw [hnode] at hrun
        cases hrest : iterateTail x.backlog.queue n nd.2.prev with
        | error e =>
          simp only [Except.bind, hrest] at hrun
          cases hrun
        | ok rest =>
          simp only [Except.bind, hrest, Except.ok.injEq] at hrun
          subst hrun
          obtain ⟨y, hy⟩ := hfind nd.2.value List.mem_cons_self
          refine returns_lift hnode (returns_lift hy
            (returns_bind ?_ fun _ => ih hrest fun m hm => hfind m (.tail _ hm)))
          exact returns_bind (returns_put io _) fun _ => returns_bind (storageWriteData_returns _)
            fun _ => storageWriteData_returns _

/-- A message that waits is there, and so is its payload. -/
theorem findMessage_ok (hs : Reachable s) (hx : s.queueAt q = some x)
    (hl : Backlog.Sound False x.backlog l) {m : Ptr}
    (hm : m ∈ l.map Prod.snd) : ∃ y, findMessage s x.backlog m = .ok y := by
  obtain ⟨msg, hmsg⟩ := Option.ne_none_iff_exists'.mp (hl.alive m (Backlog.mem_places.mpr (.inl hm)))
  have hrefs : 0 < x.backlog.refs msg.value := by
    have hone := Heap.le_sum (f := fun m : Message => if m.value = msg.value then 1 else 0) hmsg
      (hl.below m (by simp [hmsg]))
    rw [if_pos rfl] at hone
    exact hone
  obtain ⟨object, ho⟩ := hs.tally.alive (Nat.lt_of_lt_of_le hrefs (refs_le_holders hs.tally.queues hx _))
  exact ⟨(msg, object), by rw [findMessage, hmsg]; simp only [Objects.find, ho]; rfl⟩

/-- A save reads a freed node only in a durable queue that has been purged and is still empty. -/
theorem dangles_purged (hs : Reachable s)
    (husers : ∀ u ∈ s.users, u.notChange = false → u.name.length < 32 ∧ u.password.length < 32)
    (h : dangles s = true) :
    ∃ q ∈ s.queues, ∃ x, s.queueAt q = some x ∧ x.durable = true ∧ x.size = 0 ∧
    x.backlog.queue.tail ≠ none := by
  by_contra hnone
  push Not at hnone
  have hrecord : ∀ {α : Type} {h : Heap α} {p : Ptr} {x : α}, h p = some x → record h p = .ok x :=
    fun hx => by
    rw [record, hx]
  have hqueues : Returns (saveDurable s.queueAt QueueT.durable (storageSaveQueue Calls.succeed s)
      s.queues) := by
    refine returns_forM fun q hq => ?_
    obtain ⟨x, hx⟩ := (hs.related.mem_queues q).mp hq
    refine returns_lift (hrecord hx) ?_
    split_ifs with hd
    · obtain ⟨l, hl⟩ := hs.stocked q x hx
      have hiterate := iterateTail_linked hl.linked (hnone q hq x hx hd)
      have hmessages : Returns (storageSaveQueueMessages Calls.succeed s x) :=
        storageSaveMessagesFrom_returns hiterate fun m hm =>
        findMessage_ok hs hx hl (List.mem_reverse.mp hm)
      exact returns_bind (returns_put _ _) fun _ => returns_bind (storageWriteData_returns _) fun _ =>
        returns_bind (storageWriteData_returns _) fun _ => returns_bind (storageWriteData_returns _) fun _ =>
          returns_bind (storageWriteData_returns _) fun _ =>
            returns_bind (storageWriteData_returns _) fun _ => hmessages
    · exact returns_pure ()
  have hroutes : Returns (saveDurable s.routeAt RouteT.durable (storageSaveRoute Calls.succeed s)
      s.routes) := by
    refine returns_forM fun r hr => ?_
    obtain ⟨x, hx⟩ := (hs.related.mem_routes r).mp hr
    refine returns_lift (hrecord hx) ?_
    split_ifs with hd
    · refine returns_bind (returns_put _ _) fun _ => returns_bind (storageWriteData_returns _) fun _ =>
        returns_bind (storageWriteData_returns _) fun _ => returns_bind (storageWriteData_returns _)
          fun _ => returns_forM fun k hk => ?_
      refine returns_bind (returns_put _ _) fun _ => returns_bind (storageWriteData_returns _) fun _ =>
        returns_bind (storageWriteData_returns _) fun _ => returns_forM fun q hq => ?_
      obtain ⟨-, -, hmem⟩ := (hs.related.bindingRelations.route_keys r x hx).2 k hk
      obtain ⟨y, hy⟩ := (hs.related.mem_queues q).mp (hmem q hq)
      exact returns_lift (hrecord hy) (storageWriteData_returns _)
    · exact returns_pure ()
  have hchannels : Returns (saveDurable s.channelAt ChannelT.durable
      (storageSaveChannel Calls.succeed) s.channels) := by
    refine returns_forM fun ch hch => ?_
    obtain ⟨x, hx⟩ := (hs.related.mem_channels ch).mp hch
    refine returns_lift (hrecord hx) ?_
    split_ifs with hd
    · exact returns_bind (returns_put _ _) fun _ => returns_bind (storageWriteData_returns _)
        fun _ => storageWriteData_returns _
    · exact returns_pure ()
  have hall : Returns (storageSaveAll Calls.succeed s) := by
    refine returns_bind (returns_put _ _) fun _ => returns_bind (returns_forM fun u hu => ?_)
      fun _ => returns_bind hqueues fun _ =>
      returns_bind hroutes fun _ => returns_bind hchannels fun _ => returns_put _ _
    obtain ⟨hmem, hflag⟩ := List.mem_filter.mp hu
    obtain ⟨hname, hpassword⟩ := husers u hmem (by simpa using hflag)
    exact storageSaveUser_returns hname hpassword
  obtain ⟨o, t, hrun⟩ := hall ⟨fun _ => none, [], [], 0⟩
  rw [dangles, hrun] at h
  cases h

end Dangles

end File

end EagleMQ
