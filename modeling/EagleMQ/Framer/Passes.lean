import EagleMQ.Framer
import Mathlib.Tactic.Linarith

/-! What one pass of the framer does, in terms of byte lists: the bytes still
unread in the buffer, the bytes of the current frame already copied, and the
sizes of both. -/

namespace EagleMQ.Framer

theorem slice_copy (r b : ℕ → Byte) (d s n : ℕ) :
    slice (fun i => if d ≤ i ∧ i < d + n then b (s + (i - d)) else r i) 0 (d + n) =
      slice r 0 d ++ slice b s n := by
  rw [slice_append]
  congr 1
  · refine List.map_congr_left fun j hj => ?_
    rw [List.mem_range] at hj
    exact if_neg (by omega)
  · refine List.map_congr_left fun j hj => ?_
    rw [List.mem_range] at hj
    exact (if_pos (by omega)).trans (by congr 1; omega)

/-- The framer after a copy that stays in bounds. -/
def copied (f : Framer) (dst src n : ℕ) : Framer :=
  { f with
    request := fun i => if dst ≤ i ∧ i < dst + n then f.buffer (src + (i - dst)) else f.request i }

theorem memcpy_eq (f : Framer) {dst src n : ℕ} (hs : src + n ≤ bufSize) (hd : dst + n ≤ f.length) :
    f.memcpy dst src n = .ok (f.copied dst src n) := by
  rw [memcpy, if_neg (by omega), if_neg (by omega)]
  rfl

theorem memcpy_bind {α : Type} (f : Framer) (dst src n : ℕ) (k : Framer → Except Fault α) :
    (f.memcpy dst src n >>= k) =
      if bufSize < src + n then .error .overread
      else if f.length < dst + n then .error .overflow
      else k (f.copied dst src n) := by
  unfold memcpy
  split_ifs <;> rfl

theorem memcpy_overflow (f : Framer) {dst src n : ℕ} (hs : src + n ≤ bufSize)
    (hd : f.length < dst + n) : f.memcpy dst src n = .error .overflow := by
  rw [memcpy, if_neg (by omega), if_pos hd]

theorem memcpy_ok {f g : Framer} {dst src n : ℕ} (h : f.memcpy dst src n = .ok g) :
    g = f.copied dst src n := by
  unfold memcpy at h
  split_ifs at h
  exact (Except.ok.inj h).symm

/-- The unread bytes of the buffer. -/
structure Avail (f : Framer) (xs : List Byte) : Prop where
  bytes : slice f.buffer f.offset f.nread = xs
  bound : f.offset + f.nread ≤ bufSize

theorem Avail.length {f : Framer} {xs : List Byte} (h : f.Avail xs) : xs.length = f.nread := by
  rw [← h.bytes, length_slice]

theorem slice_receive (f : Framer) (data : List Byte) :
    slice (f.receive data).buffer 0 data.length = data := by
  refine List.ext_getElem (by simp) fun i h _ => ?_
  rw [length_slice] at h
  simp [slice, receive, h]

/-! ### Well-formed frames -/

/-- The `bodylen` field of a frame. -/
def bodyLength (b : List Byte) : ℕ := u32 (ofList b) 4

/-- Command byte of `disconnect`. -/
def disconnect : Byte := 0xF

structure WellFormed (b : List Byte) : Prop where
  magic : u16 (ofList b) 0 = protocolReq
  length : b.length = bodyLength b + headerSize
  bodylen : bodyLength b ≤ maxBufSize
  cmd : b.getD 2 0 ≠ disconnect

/-- A `ping` request. -/
def ping : List Byte := [0x70, 0, 0xB, 0, 0, 0, 0, 0]

theorem ping_wellFormed : WellFormed ping := ⟨rfl, rfl, by decide, by decide⟩

theorem WellFormed.ne_nil {b : List Byte} (h : WellFormed b) : b ≠ [] := by
  have := h.length
  rintro rfl
  simp [headerSize] at this

/-- The header at the read position is that of the frame the unread bytes begin with. -/
theorem Avail.header {f : Framer} {xs ys b more : List Byte} (h : f.Avail xs)
    (hx : xs ++ ys = b ++ more) (hb : headerSize ≤ b.length) (hn : headerSize ≤ f.nread) :
    u16 f.buffer f.offset = u16 (ofList b) 0 ∧ u32 f.buffer (f.offset + 4) = bodyLength b := by
  have key : ∀ i, i < headerSize → f.buffer (f.offset + i) = ofList b i := by
    intro i hi
    have h1 : (xs ++ ys).getD i 0 = f.buffer (f.offset + i) := by
      rw [List.getD_append _ _ _ _ (by rw [h.length]; omega), ← h.bytes, getD_slice _ (by omega)]
    have h2 : (b ++ more).getD i 0 = ofList b i := List.getD_append _ _ _ _ (by omega)
    rw [← h1, hx, h2]
  unfold headerSize at key
  simp only [bodyLength, u32, u16, Nat.add_assoc, Nat.zero_add, Nat.reduceAdd]
  have h0 := key 0 (by omega)
  rw [Nat.add_zero] at h0
  rw [h0, key 1 (by omega), key 4 (by omega), key 5 (by omega), key 6 (by omega), key 7 (by omega)]
  exact ⟨rfl, rfl⟩

/-- The start of a well-formed frame, its header whole in the buffer. -/
theorem startFrame_eq {f : Framer} {xs ys b more : List Byte} (h : f.Avail xs)
    (hx : xs ++ ys = b ++ more) (hb : WellFormed b) (hn : headerSize ≤ f.nread) :
    f.startFrame =
      if f.nread = b.length then (do
        let g ← { f with length := grow f.length (bodyLength b) }.memcpy 0 f.offset f.nread
        .ok (.dispatch, { g with pos := f.nread, offset := 0, nread := 0 }))
      else if f.nread < b.length then (do
        let g ← { f with length := grow f.length (bodyLength b) }.memcpy 0 f.offset f.nread
        .ok (.wait, { g with bodylen := b.length - f.nread, pos := f.nread }))
      else (do
        let g ← { f with length := grow f.length (bodyLength b) }.memcpy 0 f.offset b.length
        .ok (.dispatch, { g with
          pos := b.length, offset := f.offset + b.length, nread := f.nread - b.length })) := by
  have hl := hb.length
  obtain ⟨hm, hbl⟩ := h.header hx (by omega) hn
  have hbound := h.bound
  unfold startFrame
  rw [if_neg (by omega), if_neg (by omega), hm, hbl, if_neg (by simp [hb.magic]),
    if_neg (by have := hb.bodylen; omega)]
  dsimp only
  by_cases h1 : f.nread = b.length
  · rw [if_pos h1, if_pos (by omega)]
    simp only [memcpy]
    split_ifs <;> rfl
  · rw [if_neg h1, if_neg (by omega)]
    by_cases h2 : f.nread < b.length
    · rw [if_pos h2, if_pos (by omega)]
      simp only [memcpy]
      split_ifs
      · rfl
      · rfl
      · simp only [bind, Except.bind, Except.ok.injEq, Prod.mk.injEq, true_and, mk.injEq, and_true]
        omega
    · rw [if_neg h2, if_neg (by omega), ← hl]
      simp only [memcpy]
      split_ifs <;> rfl

/-- A read while `k` bytes of a frame are missing. -/
theorem continueFrame_eq {f : Framer} {k : ℕ} (data : List Byte) (hb : f.bodylen = k) :
    (f.receive data).continueFrame =
      if data.length = k then (do
        let g ← (f.receive data).memcpy f.pos 0 data.length
        .ok (.dispatch, { g with pos := f.pos + data.length, offset := 0, nread := 0, bodylen := 0 }))
      else if data.length < k then (do
        let g ← (f.receive data).memcpy f.pos 0 data.length
        .ok (.wait, { g with
          pos := f.pos + data.length, bodylen := k - data.length, offset := 0 }))
      else (do
        let g ← (f.receive data).memcpy f.pos 0 k
        .ok (.dispatch, { g with
          pos := f.pos + k, nread := data.length - k, offset := k, bodylen := 0 })) := by
  subst hb
  simp only [continueFrame, memcpy_bind]
  rfl

/-! ### Sizes: what is dispatched was read -/

/-- The bytes of the unfinished frame. -/
def pendingSize (f : Framer) : ℕ := if f.bodylen = 0 then 0 else f.pos

def Event.size : Event → ℕ
  | .command b => b.length
  | .packetError => 0

def size (events : List Event) : ℕ := (events.map Event.size).sum

@[simp] theorem size_nil : size [] = 0 := rfl

@[simp] theorem size_cons (e : Event) (events : List Event) :
    size (e :: events) = e.size + size events := by simp [size]

@[simp] theorem size_append (a b : List Event) : size (a ++ b) = size a + size b := by
  simp [size]

theorem size_commands (frames : List (List Byte)) :
    size (frames.map .command) = frames.flatten.length := by
  induction frames with
  | nil => rfl
  | cons b frames ih => simp [Event.size, ih]

/-- A pass turns unread bytes into bytes of the frame, or drops them. -/
theorem pass_size {f g : Framer} {sig : Signal} (h : f.pass = .ok (sig, g)) :
    match sig with
    | .dispatch => g.bodylen = 0 ∧ g.pos + g.nread ≤ f.pendingSize + f.nread ∧ g.nread < f.nread
    | .wait => g.pendingSize ≤ f.pendingSize + f.nread
    | .packetError => g.pendingSize ≤ f.pendingSize := by
  unfold pass at h
  split_ifs at h with hb
  · unfold startFrame at h
    simp only [] at h
    split_ifs at h with h1 h2 h3 h4 h5 h6
    · cases h; exact Nat.le_refl _
    · cases h; simp [pendingSize]
    · cases h; simp [pendingSize]
    all_goals
      simp only [bind, Except.bind] at h
      split at h
      · contradiction
      · rename_i c hc
        cases memcpy_ok hc
        cases h
        simp only [copied, pendingSize, hb]
        unfold headerSize at *
        grind
  · unfold continueFrame at h
    split_ifs at h with h1 h2
    all_goals
      simp only [bind, Except.bind] at h
      split at h
      · contradiction
      · rename_i c hc
        cases memcpy_ok hc
        cases h
        simp only [copied, pendingSize, hb]
        grind

theorem length_frame (f : Framer) : f.frame.length = f.pos := length_slice _ _ _

theorem processLoop_size {n : ℕ} {f g : Framer} {events : List Event}
    (h : processLoop n f = .ok (events, g)) : size events + g.pendingSize ≤ f.pendingSize + f.nread := by
  induction n generalizing f events with
  | zero => cases h; simp
  | succ n ih =>
    simp only [processLoop, bind, Except.bind] at h
    split at h
    · contradiction
    · rename_i r hp
      obtain ⟨sig, f'⟩ := r
      have hs := pass_size hp
      cases sig with
      | packetError => cases h; simp only [size_cons, size_nil, Event.size] at hs ⊢; omega
      | wait => cases h; simp only [size_nil] at hs ⊢; omega
      | dispatch =>
        obtain ⟨hb, hle, -⟩ := hs
        have hp0 : f'.pendingSize = 0 := by simp [pendingSize, hb]
        dsimp only at h
        split_ifs at h with hn
        · split at h
          · contradiction
          · rename_i r hr
            cases h
            have := ih hr
            simp only [size_cons, Event.size, length_frame]
            omega
        · cases h
          simp only [size_cons, size_nil, Event.size, length_frame]
          omega

theorem serve_size {reads : List (List Byte)} {f g : Framer} {events : List Event}
    (h : serve reads f = .ok (events, g)) :
    size events + g.pendingSize ≤ f.pendingSize + reads.flatten.length := by
  induction reads generalizing f events with
  | nil => cases h; simp
  | cons data reads ih =>
    simp only [serve, bind, Except.bind] at h
    split at h
    · contradiction
    · rename_i r hr
      split at h
      · contradiction
      · rename_i r' hr'
        cases h
        have h1 := processLoop_size hr
        have h2 := ih hr'
        have h3 : (f.receive data).pendingSize = f.pendingSize := rfl
        have h4 : (f.receive data).nread = data.length := rfl
        simp only [size_append, List.flatten_cons, List.length_append]
        omega

end EagleMQ.Framer
