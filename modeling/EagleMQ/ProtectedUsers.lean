import EagleMQ.Turns
import EagleMQ.Links.Loading

/-! Users with the flag that forbids changes. No command and no tick removes or
changes one. The storage file leaves them out, so of these a restart keeps the
administrator, whom the configuration names again. -/

namespace EagleMQ

open Prog

/-! ### Commands on users -/

namespace Sample

/-- A command whose body starts with the name of a user. -/
def onUser (cmd : Byte) (c : Ptr) (name : Name) (body : List Byte) : Op :=
  .request c (.frame cmd (padded 32 name ++ body))

def userCreate (c : Ptr) (name : Name) (perm : ℕ) : Op :=
  onUser Cmd.userCreate c name (padded 32 [112] ++ leBytes 8 perm)

/-- The commands that take a user away or change it. The flush takes away the user that is
created before it. -/
def assault (c : Ptr) (name : Name) : List Op :=
  [userCreate c [117] 0, onUser Cmd.userDelete c name [], onUser Cmd.userRename c name (padded 32 [99]),
    onUser Cmd.userSetPerm c name (leBytes 8 0), .request c (.frame Cmd.flush (leBytes 4 1)),
    userCreate c [118] 0]

/-- A server that starts from what another one saves. -/
def restarted (s : EagleServer) : Option EagleServer :=
  match (@storageSave Lzf.stored s).run with
  | .ok (some file) =>
    match @storageLoad Lzf.stored file server with
    | .ok (true, t) => some t
    | _ => none
  | _ => none

theorem exists_file {s t : EagleServer} (h : restarted s = some t) : ∃ file,
    (@storageSave Lzf.stored s).run = .ok (some file) ∧ @storageLoad Lzf.stored file server =
      .ok (true, t) := by
  unfold restarted at h
  split at h
  · rename_i file hfile
    split at h
    · rename_i u hload
      obtain rfl := Option.some.inj h
      exact ⟨file, hfile, hload⟩
    · cases h
  · cases h

end Sample

/-- The protected users of a state are users of another one. -/
def KeepsProtected (s t : EagleServer) : Prop := ∀ u ∈ s.users, u.notChange = true → u ∈ t.users

section ProtectedUsers

variable {s t : EagleServer} {u : EagleUser} {op : Op}

/-! ### Steps -/

/-- Changes at an index without the flag leave the protected users. -/
theorem mem_modify {users : List EagleUser} {i : ℕ} {f : EagleUser → EagleUser} (hu : u ∈ users)
    (hp : u.notChange = true) (hi : (users[i]?).any EagleUser.notChange = false) : u ∈ users.modify i f := by
  obtain ⟨j, hj⟩ := List.mem_iff_getElem?.mp hu
  refine List.mem_iff_getElem?.mpr ⟨j, ?_⟩
  have hne : i ≠ j := fun he => by simp [he, hj, hp] at hi
  simp [hne, hj]

theorem mem_eraseIdx {users : List EagleUser} {i : ℕ} (hu : u ∈ users) (hp : u.notChange = true)
    (hi : (users[i]?).any EagleUser.notChange = false) : u ∈ users.eraseIdx i := by
  obtain ⟨j, hj⟩ := List.mem_iff_getElem?.mp hu
  have hne : j ≠ i := fun he => by simp [← he, hj, hp] at hi
  exact List.mem_eraseIdx_iff_getElem?.mpr ⟨j, hne, hj⟩

theorem UserChange.keeps {req : Request} {users : List EagleUser} {f : List EagleUser → List EagleUser}
    (h : UserChange users req f) (hu : u ∈ users) (hp : u.notChange = true) : u ∈ f users := by
  cases h with
  | create name password perm => exact List.mem_append_left _ hu
  | rename i name _ _ hi => exact mem_modify hu hp hi
  | setPerm i perm hi => exact mem_modify hu hp hi
  | delete i hi => exact mem_eraseIdx hu hp hi

theorem step_keepsProtected [Lzf] (h : Related .none s) (ha : Enabled s op) (ht : step s op = .ok t) :
    KeepsProtected s t := by
  intro u hu hp
  rcases step_turn h ha ht with hend | ⟨c, req, -, hturn⟩
  · exact hend.users ▸ hu
  · cases hturn with
    | same hend => exact hend.users ▸ hu
    | users f hf husers => exact husers ▸ hf.keeps hu hp
    | create K hc => exact hc.users ▸ hu
    | rename K p hr => exact hr.users ▸ hu
    | delete K p _ _ hend => exact hend.users ▸ hu
    | flush _ husers =>
      rw [husers]
      split_ifs
      · exact List.mem_filter.mpr ⟨hu, hp⟩
      · exact hu

/-! ### Restarts -/

/-- A load only adds users. -/
def MoreUsers (s t : EagleServer) : Prop := s.users ⊆ t.users

instance : IsPreorder EagleServer MoreUsers where
  refl _ := List.Subset.refl _
  trans _ _ _ h h' := List.Subset.trans h h'

theorem moreUsers_of_endures {X : Kind → Ptr → Prop} {α : Type} {m : ServerM α}
    (hm : Keeps (Endures X) Fault.Any m) : Keeps MoreUsers Fault.Any m := fun s =>
  wp_mono (hm s) (fun _ t ht => show s.users ⊆ t.users by rw [ht.users]; exact List.Subset.refl _)
    fun _ h => h

theorem loading_moreUsers : Loading MoreUsers where
  object data := moreUsers_of_endures (X := fun _ _ => False) (answers_endures (createObject_answers data))
  push _ data expiration := moreUsers_of_endures (X := fun _ _ => False)
    (pushMessageQueueT_endures data expiration)
  bind _ _ key := moreUsers_of_endures (X := fun _ _ => False) (bindRouteT_endures key)
  createQueue _ _ _ _ s := List.Subset.refl s.users
  createRoute _ _ s := List.Subset.refl s.users
  createChannel _ _ s := List.Subset.refl s.users
  deleteQueue _ := moreUsers_of_endures (deleteQueueT_endures (X := fun _ _ => True) trivial)
  deleteRoute _ := moreUsers_of_endures (deleteRouteT_endures (X := fun _ _ => True) trivial)
  enlistUser s user := List.subset_append_left s.users [user]
  enlistQueue s _ := List.Subset.refl s.users
  enlistRoute s _ := List.Subset.refl s.users
  enlistChannel s _ := List.Subset.refl s.users

variable [Lzf]

/-- The states that a server comes to by its steps, and by restarts with a user as the
administrator. -/
inductive Later (u : EagleUser) (s : EagleServer) : EagleServer → Prop
  | refl : Later u s s
  | step {t v : EagleServer} (op : Op) (h : Later u s t) (ha : Enabled t op)
      (hv : EagleMQ.step t op = .ok v) : Later u s v
  | restart {t v : EagleServer} {file : List Byte} (cfg : Config) (env : Env) (h : Later u s t)
      (hcfg : cfg.admin = u) (hfile : (storageSave t).run = .ok (some file))
      (hv : storageLoad file (initServer cfg env) = .ok (true, v)) : Later u s v

theorem Later.reachable (h : Later u s t) (hs : Reachable s) : Reachable t := by
  induction h with
  | refl => exact hs
  | step op _ ha hv ih => exact ih.step op ha hv
  | restart cfg env _ _ hfile hv ih => exact ih.restart cfg env hfile hv

theorem Later.run {v : EagleServer} (h : Later u s t) (hrun : Run Enabled EagleMQ.step t v) : Later u s v :=
  hrun.invariant (Later u s) h fun _ op _ hv ha hw => hv.step op ha hw

/-- A protected user stays as it is for good, unless a restart has another administrator. -/
theorem protected_stays (hs : Reachable s) (hu : u ∈ s.users) (hp : u.notChange = true) (h : Later u s t) :
    u ∈ t.users := by
  induction h with
  | refl => exact hu
  | step op h ha hv ih => exact step_keepsProtected (h.reachable hs).related ha hv u ih hp
  | restart cfg env _ hcfg _ hv =>
    refine ok_of_wp (Q := fun _ t => MoreUsers (initServer cfg env) t)
      (storageLoad_upheld loading_moreUsers _ _) hv ?_
    rw [← hcfg]
    exact List.mem_singleton_self _

omit [Lzf] in
/-- An administrator tries every command on itself, before and after a restart that it is
configured for again. -/
theorem protected_stays_assault :
    ∃ s t u, @replay Lzf.stored Sample.server (Sample.login 0 ++ Sample.assault 0 [97]) = some s ∧
    Sample.restarted s = some t ∧ @replay Lzf.stored t (Sample.login 0 ++ Sample.assault 0 [97]) = some u ∧
    u.users.map EagleUser.name = [[97], [118]] ∧ Sample.config.admin ∈ s.users ∧
    Sample.config.admin ∈ t.users ∧
    Sample.config.admin ∈ u.users := by
  have hrun : (@replay Lzf.stored Sample.server (Sample.login 0 ++ Sample.assault 0 [97])).any (fun s =>
      (Sample.restarted s).any fun t =>
        (@replay Lzf.stored t (Sample.login 0 ++ Sample.assault 0 [97])).any fun u =>
        decide (u.users.map EagleUser.name = [[97], [118]])) = true := by decide +kernel
  obtain ⟨s, hs, hp⟩ := (Option.any_eq_true ..).mp hrun
  obtain ⟨t, ht, hp⟩ := (Option.any_eq_true ..).mp hp
  obtain ⟨u, hu, hp⟩ := (Option.any_eq_true ..).mp hp
  obtain ⟨file, hfile, hload⟩ := Sample.exists_file ht
  have hbefore := @Later.run _ _ _ Lzf.stored _ (@Later.refl Lzf.stored Sample.config.admin Sample.server)
    (@run_of_replay Lzf.stored _ _ _ hs)
  have hrestart := @Later.restart Lzf.stored _ _ _ _ _ Sample.config Sample.env hbefore rfl hfile hload
  have hafter := @Later.run _ _ _ Lzf.stored _ hrestart (@run_of_replay Lzf.stored _ _ _ hu)
  have hstays := fun (v : EagleServer) => @protected_stays _ v _ Lzf.stored
    (@Reachable.start Lzf.stored Sample.config Sample.env)
    (List.mem_singleton_self _) (by decide)
  exact ⟨s, t, u, hs, ht, hu, of_decide_eq_true hp, hstays s hbefore, hstays t hrestart, hstays u hafter⟩

omit [Lzf] in
/-- A protected user that was created is gone after a restart. -/
theorem not_protected_restarted : ∃ s u t file, @Reachable Lzf.stored s ∧ u ∈ s.users ∧ u.notChange = true ∧
    (@storageSave Lzf.stored s).run = .ok (some file) ∧
    @storageLoad Lzf.stored file (initServer Sample.config Sample.env) = .ok (true, t) ∧ u ∉ t.users := by
  obtain ⟨s, hs, hp⟩ := Sample.exists_run (Sample.login 0 ++ [Sample.userCreate 0 [117] 64])
    (p := fun s => s.users.any (fun u => u.name = [117] && u.notChange) &&
      (Sample.restarted s).any fun t => !t.users.any fun u => u.name = [117]) (by decide +kernel)
  rw [Bool.and_eq_true] at hp
  obtain ⟨huser, hrestart⟩ := hp
  obtain ⟨u, hu, hname, hprotected⟩ : ∃ u ∈ s.users, u.name = [117] ∧ u.notChange = true := by
    simpa using huser
  obtain ⟨t, ht, hgone⟩ := (Option.any_eq_true ..).mp hrestart
  obtain ⟨file, hfile, hload⟩ := Sample.exists_file ht
  refine ⟨s, u, t, file, hs, hu, hprotected, hfile, hload, fun hmem => ?_⟩
  rw [Bool.not_eq_true', List.any_eq_false] at hgone
  exact hgone u hmem (by simp [hname])

end ProtectedUsers

end EagleMQ
