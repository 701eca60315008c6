import EagleMQ.Authorization

/-! What the responses do to the state, exactly. A response is appended to the
client's list if the write event can be registered or other responses wait there;
otherwise its object is released and the client stays as it was. -/

namespace EagleMQ

open Prog

/-- `set_write_event` returns `EG_STATUS_OK`. -/
def EagleClient.registers (x : EagleClient) (env : Env) : Bool :=
  x.fd != 0 && (env.fileEvent x.fd || !x.responses.isEmpty)

/-- The client after `set_write_event`. -/
def EagleClient.watched (x : EagleClient) (env : Env) : EagleClient :=
  { x with writable := x.writable || (x.fd != 0 && env.fileEvent x.fd) }

/-- The client after a response with the given object. -/
def EagleClient.given (x : EagleClient) (env : Env) (o : Ptr) (data : List Byte) : EagleClient :=
  if x.registers env then
    { x.watched env with responses := x.responses ++ [o], history := x.history ++ [data] }
  else x

namespace EagleServer

/-- The state after a response with an object of its own. -/
def responded (s : EagleServer) (c : Ptr) (x : EagleClient) (data : List Byte) : EagleServer :=
  { s with
    clientAt := Function.update s.clientAt c (some (x.given s.env s.fresh data))
    objects := Function.update s.objects s.fresh (if x.registers s.env then some ⟨data, 1⟩ else none)
    fresh := s.fresh + 1 }

/-- The state after a response with an object that others hold. -/
def shared (s : EagleServer) (c : Ptr) (x : EagleClient) (o : Ptr) (z : Object) : EagleServer :=
  { s with
    clientAt := Function.update s.clientAt c (some (x.given s.env o z.data))
    objects := Function.update s.objects o
      (if x.registers s.env then some { z with refcount := z.refcount + 1 }
      else if z.refcount = 0 then none else some z) }

end EagleServer

section Responses

variable {s : EagleServer} {c o : Ptr} {x : EagleClient} {z : Object} {env : Env} {data : List Byte}
  {Q : Unit → EagleServer → Prop} {E : Fault → Prop}

theorem EagleClient.watched_of_not_registers (h : x.registers env = false) : x.watched env = x := by
  have hfd : (x.fd != 0 && env.fileEvent x.fd) = false := by
    cases hfd : x.fd != 0 with
    | false => rfl
    | true =>
      simp only [registers, hfd, Bool.true_and, Bool.or_eq_false_iff] at h
      simp [h.1]
  rw [watched, hfd, Bool.or_false]

theorem EagleClient.given_history (o : Ptr) :
    (x.given env o data).history = if x.registers env then x.history ++ [data] else x.history := by
  unfold given
  split_ifs <;> rfl

@[simp] theorem responded_clientAt :
    (s.responded c x data).clientAt c = some (x.given s.env s.fresh data) := Function.update_self ..

@[simp] theorem shared_clientAt : (s.shared c x o z).clientAt c = some (x.given s.env o z.data) :=
  Function.update_self ..

theorem wp_setWriteEvent {Q : Bool → EagleServer → Prop} (hx : s.clientAt c = some x)
    (hQ : Q (x.registers s.env) (s.setClient c (x.watched s.env))) : wp (setWriteEvent c) Q E s := by
  have hsame : s.setClient c x = s := by simp only [EagleServer.setClient, ← hx, Function.update_eq_self]
  rw [setWriteEvent, wp_bind, wp_getClient hx]
  refine wp_ite (fun hfd => ?_) fun hfd => ?_
  · have hno : x.registers s.env = false := by simp [EagleClient.registers, hfd]
    rwa [hno, EagleClient.watched_of_not_registers hno, hsame] at hQ
  · rw [wp_bind, wp_get]
    refine wp_ite (fun hevent => ?_) fun hevent => ?_
    · rw [wp_bind]
      refine wp_modifyClient ⟨x, hx, ?_⟩
      have hfd' : (x.fd != 0) = true := by simpa using hfd
      simpa [EagleClient.registers, EagleClient.watched, hfd', hevent] using hQ
    · have hwatch : x.watched s.env = x := by simp [EagleClient.watched, hevent]
      have hreg : x.registers s.env = !x.responses.isEmpty := by simp [EagleClient.registers, hfd, hevent]
      rwa [hwatch, hsame, hreg] at hQ

theorem wp_modifyObjects (objects : Heap Object) {f : Heap Object → Except Fault (Heap Object)}
    (hf : f s.objects = .ok objects) (hQ : Q () { s with objects := objects }) :
    wp (modifyObjects f) Q E s := by
  rw [modifyObjects, wp_bind, wp_get, hf]
  exact hQ

theorem wp_incrementReferencesCount (hz : s.objects o = some z) (hwrap : z.refcount + 1 < 4294967296)
    (hQ : Q () { s with objects := Function.update s.objects o (some { z with refcount := z.refcount + 1 }) }) :
    wp (incrementReferencesCount o) Q E s := by
  refine wp_modifyObjects _ ?_ hQ
  simp [Objects.incrementReferencesCount, Objects.find, hz, bind, Except.bind, Nat.not_le.mpr hwrap]

/-- The end of a response, in the state that `set_write_event` leaves. -/
theorem wp_appendResponse (hz : s.objects o = some z)
    (hQ : Q () (s.setClient c { x.watched env with
      responses := x.responses ++ [o], history := x.history ++ [z.data] })) :
    wp (appendResponse c o) Q E (s.setClient c (x.watched env)) := by
  rw [appendResponse, wp_bind, wp_get]
  refine wp_modifyClient ⟨_, Function.update_self .., ?_⟩
  simpa only [EagleServer.setClient, Function.update_idem, hz, Option.elim, EagleClient.watched] using hQ

theorem wp_addResponse (hx : s.clientAt c = some x) (hQ : Q () (s.responded c x data)) :
    wp (addResponse c data) Q E s := by
  rw [addResponse, wp_bind]
  show wp _ _ _ { s with objects := Function.update s.objects s.fresh (some ⟨data, 1⟩), fresh := s.fresh + 1 }
  rw [wp_bind]
  refine wp_setWriteEvent hx ?_
  cases hreg : x.registers s.env with
  | true =>
    refine wp_appendResponse (Function.update_self ..) ?_
    simpa only [EagleServer.responded, EagleClient.given, hreg, if_true, EagleServer.setClient] using hQ
  | false =>
    rw [EagleClient.watched_of_not_registers hreg, if_neg Bool.false_ne_true, releaseObject]
    refine wp_modifyObjects (Function.update s.objects s.fresh none) ?_ ?_
    · simp [Objects.releaseObject, Objects.find, EagleServer.setClient, bind, Except.bind]
    · simp only [EagleServer.responded, EagleClient.given, hreg, Bool.false_eq_true, if_false] at hQ
      exact hQ

theorem wp_addObjectResponse (hx : s.clientAt c = some x) (hz : s.objects o = some z)
    (hwrap : z.refcount + 1 < 4294967296) (hQ : Q () (s.shared c x o z)) :
    wp (addObjectResponse c o) Q E s := by
  rw [addObjectResponse, wp_bind]
  refine wp_incrementReferencesCount hz hwrap ?_
  rw [wp_bind]
  refine wp_setWriteEvent hx ?_
  cases hreg : x.registers s.env with
  | true =>
    refine wp_appendResponse (Function.update_self ..) ?_
    simpa only [EagleServer.shared, EagleClient.given, hreg, if_true, EagleServer.setClient] using hQ
  | false =>
    rw [EagleClient.watched_of_not_registers hreg, if_neg Bool.false_ne_true, decrementReferencesCount]
    refine wp_modifyObjects (Function.update s.objects o (if z.refcount = 0 then none else some z)) ?_ ?_
    · simp [Objects.decrementReferencesCount, Objects.find, EagleServer.setClient, bind, Except.bind]
    · simp only [EagleServer.shared, EagleClient.given, hreg, Bool.false_eq_true, if_false] at hQ
      exact hQ

/-- A known command is handled with the client's `noack` set from its header. -/
theorem parseCommand_run [Lzf] {req : Request} {handler : Ptr → Request → ServerM Unit}
    (hlookup : commands.lookup req.cmd = some handler) (hx : s.clientAt c = some x) :
    parseCommand c req s = handler c req (s.setClient c { x with noack := req.noack }) := by
  rw [parseCommand, hlookup]
  exact bind_run (bind_run (run_getClient hx))

end Responses

end EagleMQ
