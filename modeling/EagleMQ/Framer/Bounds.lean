import EagleMQ.Framer.Passes
import EagleMQ.Lib.Run

/-! The copies of the framer over whole runs, one read or one pass of
`process_request` at a time. They stay in bounds as long as a read does not start
a frame too far into the buffer, at an offset left behind by the read before, and
no frame is larger than the request buffer. -/

namespace EagleMQ.Framer

/-- A connection between two reads, or inside `process_request`. -/
inductive Conn where
  | idle (f : Framer)
  | busy (f : Framer)

inductive Act where
  | read (data : List Byte)
  | pass

def Enabled : Conn → Act → Prop
  | .idle _, .read data => 0 < data.length ∧ data.length ≤ bufSize
  | .busy _, .pass => True
  | _, _ => False

/-- After a pass the loop goes on or `process_request` returns. -/
def proceed : Signal × Framer → Conn
  | (.dispatch, f) => if headerSize ≤ f.nread then .busy f else .idle f
  | (_, f) => .idle f

def next : Conn → Act → Except Fault Conn
  | .idle f, .read data => .ok (.busy (f.receive data))
  | .busy f, .pass => f.pass.map proceed
  | c, _ => .ok c

/-- The passes of a `process_request` are steps of a run, and its turns suffice. -/
theorem processLoop_run {n : ℕ} {f g : Framer} {events : List Event} (hn : f.nread < n)
    (h : processLoop n f = .ok (events, g)) : Run Enabled next (.busy f) (.idle g) := by
  induction n generalizing f events with
  | zero => omega
  | succ n ih =>
    simp only [processLoop, bind, Except.bind] at h
    split at h
    · contradiction
    · rename_i r hp
      obtain ⟨sig, f'⟩ := r
      have hs := pass_size hp
      have hstep : next (.busy f) .pass = .ok (proceed (sig, f')) := by simp [next, hp, Except.map]
      have hrun : Run Enabled next (.busy f) (proceed (sig, f')) := .single .pass trivial hstep
      cases sig with
      | packetError => cases h; exact hrun
      | wait => cases h; exact hrun
      | dispatch =>
        obtain ⟨-, -, hlt⟩ := hs
        dsimp only at h
        split_ifs at h with hle
        · split at h
          · contradiction
          · rename_i r hr
            cases h
            rw [proceed, if_pos hle] at hrun
            exact hrun.trans (ih (by omega) hr)
        · cases h
          rwa [proceed, if_neg hle] at hrun

theorem serve_run {reads : List (List Byte)} {f g : Framer} {events : List Event}
    (hr : ∀ data ∈ reads, 0 < data.length ∧ data.length ≤ bufSize)
    (h : serve reads f = .ok (events, g)) : Run Enabled next (.idle f) (.idle g) := by
  induction reads generalizing f events with
  | nil => cases h; exact .refl
  | cons data reads ih =>
    simp only [serve, bind, Except.bind] at h
    split at h
    · contradiction
    · rename_i r hd
      split at h
      · contradiction
      · rename_i r' hs
        cases h
        have h1 : Run Enabled next (.idle f) (.busy (f.receive data)) :=
          .single (.read data) (hr data (by simp)) rfl
        have h2 := processLoop_run (Nat.lt_succ_self _) hd
        exact (h1.trans h2).trans (ih (fun d hd => hr d (by simp [hd])) hs)

/-! ### The condition -/

/-- The header at the read position, if `process_request` takes it, announces a
frame that fits the request buffer. -/
def HeaderFits (f : Framer) : Prop :=
  f.bodylen = 0 → headerSize ≤ f.nread → u16 f.buffer f.offset = protocolReq →
    u32 f.buffer (f.offset + 4) ≤ maxBufSize →
    u32 f.buffer (f.offset + 4) + headerSize ≤ grow f.length (u32 f.buffer (f.offset + 4))

/-- A read that starts a frame has room at the offset that is left, and every
header announces a frame that fits. -/
def Roomy : Conn → Act → Prop
  | .idle f, .read data => f.bodylen = 0 → f.offset + data.length ≤ bufSize
  | .busy f, .pass => HeaderFits f
  | _, _ => True

/-! ### The invariant -/

/-- The request buffer has its first or its largest size, and the unfinished
frame fits it. -/
structure Reserved (f : Framer) : Prop where
  length : f.length = bufSize ∨ f.length = maxBufSize
  body : f.bodylen ≠ 0 → f.pos + f.bodylen ≤ f.length

/-- The unread bytes lie in the buffer. -/
structure Unread (f : Framer) : Prop extends Reserved f where
  start : f.bodylen = 0 → f.offset + f.nread ≤ bufSize
  rest : f.nread ≤ bufSize

def InBounds : Conn → Prop
  | .idle f => Reserved f
  | .busy f => Unread f

theorem grow_size {length : ℕ} (bodylen : ℕ) (h : length = bufSize ∨ length = maxBufSize) :
    grow length bodylen = bufSize ∨ grow length bodylen = maxBufSize := by
  unfold grow
  split_ifs
  · exact .inr rfl
  · exact h

theorem startFrame_inBounds {f : Framer} (h : Unread f) (hb : f.bodylen = 0) (hf : HeaderFits f) :
    ∃ r, f.startFrame = .ok r ∧ InBounds (proceed r) := by
  have hstart := h.start hb
  have hrest := h.rest
  unfold startFrame
  split_ifs with h1 h2
  · exact ⟨_, rfl, h.toReserved⟩
  · omega
  simp only []
  split_ifs with h3 h4 h5 h6
  · exact ⟨_, rfl, h.length, by simp⟩
  · exact ⟨_, rfl, h.length, by simp⟩
  all_goals
    have hfit := hf hb (by omega) (by simpa using h3) (by omega)
    have hgrow := grow_size (u32 f.buffer (f.offset + 4)) h.length
    generalize u32 f.buffer (f.offset + 4) = bl at *
    rw [memcpy_eq _ (by omega) (by dsimp only; omega)]
  · exact ⟨_, rfl, by simpa [proceed, headerSize] using ⟨hgrow, by simp [copied, hb]⟩⟩
  · refine ⟨_, rfl, hgrow, fun _ => ?_⟩
    simp only [copied]
    omega
  · refine ⟨_, rfl, ?_⟩
    have hr : ∀ g : Framer, g.length = grow f.length bl → g.bodylen = 0 → Reserved g :=
      fun g hl hg => ⟨by rwa [hl], fun h => absurd hg h⟩
    simp only [proceed]
    split_ifs
    · exact ⟨hr _ rfl hb, fun _ => by simp only [copied]; omega, by simp only [copied]; omega⟩
    · exact hr _ rfl hb

theorem continueFrame_inBounds {f : Framer} (h : Unread f) (hb : f.bodylen ≠ 0) :
    ∃ r, f.continueFrame = .ok r ∧ InBounds (proceed r) := by
  have hbody := h.body hb
  have hrest := h.rest
  unfold continueFrame
  split_ifs with h1 h2
  all_goals rw [memcpy_eq _ (by omega) (by omega)]
  · exact ⟨_, rfl, by simpa [proceed, headerSize] using ⟨h.length, by simp⟩⟩
  · refine ⟨_, rfl, h.length, fun _ => ?_⟩
    simp only [copied]
    omega
  · refine ⟨_, rfl, ?_⟩
    have hr : ∀ g : Framer, g.length = f.length → g.bodylen = 0 → Reserved g :=
      fun g hl hg => ⟨by rw [hl]; exact h.length, fun h => absurd hg h⟩
    simp only [proceed]
    split_ifs
    · exact ⟨hr _ rfl rfl, fun _ => by simp only [copied]; omega, by simp only [copied]; omega⟩
    · exact hr _ rfl rfl

/-- A step that meets the condition makes its copies in bounds. -/
theorem next_inBounds {c : Conn} {a : Act} (h : InBounds c) (ha : Enabled c a) (hr : Roomy c a) :
    ∃ c', next c a = .ok c' ∧ InBounds c' := by
  match c, a with
  | .idle f, .read data =>
    exact ⟨_, rfl, ⟨h.length, h.body⟩, hr, ha.2⟩
  | .busy f, .pass =>
    have hpass : ∃ r, f.pass = .ok r ∧ InBounds (proceed r) := by
      unfold pass
      split_ifs with hb
      · exact startFrame_inBounds h hb hr
      · exact continueFrame_inBounds h hb
    obtain ⟨r, hok, hin⟩ := hpass
    exact ⟨_, by rw [next, hok]; rfl, hin⟩

/-- In every run of reads and passes that meet the condition no copy leaves its
buffers, and the request buffer has one of its two sizes. -/
theorem copies_inBounds (request buffer : ℕ → Byte) {c : Conn}
    (h : Run (fun c a => Enabled c a ∧ Roomy c a) next (.idle (create request buffer)) c) :
    (∀ f, c = .idle f ∨ c = .busy f → f.length = bufSize ∨ f.length = maxBufSize) ∧
      ∀ a, Enabled c a → Roomy c a → ∃ c', next c a = .ok c' := by
  have hc : InBounds c := by
    have h0 : InBounds (.idle (create request buffer)) :=
      Reserved.mk (.inl rfl) (by simp [create])
    refine h.invariant InBounds h0 ?_
    rintro u a v hu ⟨ha, hr⟩ hn
    obtain ⟨c', hc', hin⟩ := next_inBounds hu ha hr
    rw [hn] at hc'
    cases hc'
    exact hin
  refine ⟨?_, fun a ha hr => ?_⟩
  · rintro f (rfl | rfl)
    · exact Reserved.length hc
    · exact (Unread.toReserved hc).length
  · obtain ⟨c', hc', -⟩ := next_inBounds hc ha hr
    exact ⟨c', hc'⟩

/-- The first of two reads of a frame: it is copied, and the pass waits for the rest. -/
theorem next_split (request buffer : ℕ → Byte) {b data rest : List Byte} (hb : WellFormed b)
    (h : data ++ rest = b) (hh : headerSize ≤ data.length) (hd : data.length ≤ bufSize)
    (hr : 0 < rest.length) :
    ∃ f g, next (.idle (create request buffer)) (.read data) = .ok (.busy f) ∧
      next (.busy f) .pass = .ok (.idle g) ∧ Roomy (.idle (create request buffer)) (.read data) ∧
      (bodyLength b + headerSize ≤ grow bufSize (bodyLength b) → HeaderFits f) ∧
      g.length = grow bufSize (bodyLength b) ∧ g.bodylen = rest.length ∧ g.pos = data.length := by
  obtain ⟨f, hf⟩ : ∃ f, f = (create request buffer).receive data := ⟨_, rfl⟩
  have hn : f.nread = data.length := by rw [hf]; rfl
  have ho : f.offset = 0 := by rw [hf]; rfl
  have hl : f.length = bufSize := by rw [hf]; rfl
  have havail : f.Avail data := by
    refine ⟨?_, by omega⟩
    rw [hn, ho, hf]
    exact slice_receive _ data
  have hx : data ++ rest = b ++ [] := by rw [h, List.append_nil]
  have hlen : b.length = data.length + rest.length := by rw [← h, List.length_append]
  have hgrow : bufSize ≤ grow bufSize (bodyLength b) := by
    unfold grow
    split_ifs <;> decide
  have hpass : ∃ g, f.pass = .ok (.wait, g) ∧ g.length = grow bufSize (bodyLength b) ∧
      g.bodylen = rest.length ∧ g.pos = data.length := by
    rw [pass, if_pos (by rw [hf]; rfl), startFrame_eq havail hx hb (by omega), if_neg (by omega),
      if_pos (by omega), memcpy_eq _ (by omega) (by dsimp only; rw [hl]; omega)]
    refine ⟨_, rfl, ?_, ?_, hn⟩
    · dsimp only [copied]
      rw [hl]
    · dsimp only
      omega
  obtain ⟨g, hg, hgl, hgb, hgp⟩ := hpass
  refine ⟨f, g, by rw [hf]; rfl, ?_, ?_, fun hfits _ hn _ _ => ?_, hgl, hgb, hgp⟩
  · rw [next, hg]
    rfl
  · intro _
    simpa [create] using hd
  · rw [(havail.header hx (by omega) hn).2, hl]
    exact hfits

/-- All but the last eight bytes of a frame that fills the request buffer. -/
def splitBody : List Byte := [0x70, 0, 2, 0, 0xF8, 0x7F, 0, 0] ++ List.replicate 32752 0

/-- The rest of that frame comes with a `ping` behind it, and is copied up to the
end of the request buffer. -/
theorem copies_inBounds_split :
    ∃ f, Run (fun c a => Enabled c a ∧ Roomy c a) next
        (.idle (create (fun _ => 0) (fun _ => 0))) (.busy f) ∧
      f.length = bufSize ∧ f.bodylen = 8 ∧ f.pos + f.bodylen = bufSize ∧ f.nread = 16 ∧
      ∃ c', next (.busy f) .pass = .ok c' := by
  have hlen : splitBody.length = 32760 := by
    simp only [splitBody, List.length_append, List.length_replicate]
    rfl
  have hread : 0 < splitBody.length ∧ splitBody.length ≤ bufSize := by
    rw [hlen]
    decide
  have hb : WellFormed (splitBody ++ List.replicate 8 0) :=
    ⟨rfl, by rw [List.length_append, hlen]; rfl, by decide, by decide⟩
  obtain ⟨f, g, h1, h2, hroomy, hfits, hgl, hgb, hgp⟩ := next_split (fun _ => 0) (fun _ => 0) hb rfl
    (by rw [hlen]; decide) hread.2 (by decide)
  have hpending : g.bodylen ≠ 0 := by
    rw [hgb]
    decide
  have hrun : Run (fun c a => Enabled c a ∧ Roomy c a) next
      (.idle (create (fun _ => 0) (fun _ => 0))) (.busy (g.receive (List.replicate 8 0 ++ ping))) := by
    have hwait : Run (fun c a => Enabled c a ∧ Roomy c a) next
        (.idle (create (fun _ => 0) (fun _ => 0))) (.idle g) :=
      (Run.single _ ⟨hread, hroomy⟩ h1).trans (.single .pass ⟨trivial, hfits (by decide)⟩ h2)
    exact .step (.read (List.replicate 8 0 ++ ping)) hwait
      ⟨⟨by decide, by decide⟩, fun h => absurd h hpending⟩ rfl
  have hpos : g.pos + g.bodylen = bufSize := by
    rw [hgp, hgb, hlen]
    rfl
  exact ⟨_, hrun, hgl, hgb, hpos, rfl,
    (copies_inBounds _ _ hrun).2 .pass trivial fun h => absurd h hpending⟩

/-- The first `bufSize` bytes of a frame whose body has `bufSize` bytes. -/
def fullBody : List Byte := [0x70, 0, 2, 0, 0, 0x80, 0, 0] ++ List.replicate 32760 0

/-- The request buffer does not grow for a body of its own size, and the last
eight bytes of the frame are written behind its end. -/
theorem overflow_fullBody :
    ∃ c, Run Enabled next (.idle (create (fun _ => 0) (fun _ => 0))) c ∧ Enabled c .pass ∧
      next c .pass = .error .overflow := by
  have hlen : fullBody.length = bufSize := by
    simp only [fullBody, List.length_append, List.length_replicate]
    rfl
  have hread : 0 < fullBody.length ∧ fullBody.length ≤ bufSize := by
    rw [hlen]
    decide
  have hb : WellFormed (fullBody ++ List.replicate 8 0) :=
    ⟨rfl, by rw [List.length_append, hlen]; rfl, by decide, by decide⟩
  -- the header and the part of the body that came with it fill the buffer
  obtain ⟨f, g, h1, h2, -, -, hgl, hgb, hgp⟩ := next_split (fun _ => 0) (fun _ => 0) hb rfl
    (by rw [hlen]; decide) hread.2 (by decide)
  have hgrow : grow bufSize (bodyLength (fullBody ++ List.replicate 8 0)) = bufSize := rfl
  rw [hgrow] at hgl
  rw [hlen] at hgp
  refine ⟨.busy (g.receive (List.replicate 8 0)), ?_, trivial, ?_⟩
  · have hwait : Run Enabled next (.idle (create (fun _ => 0) (fun _ => 0))) (.idle g) := by
      refine (Run.single _ ?_ h1).trans (.single .pass trivial h2)
      exact hread
    exact .step (.read (List.replicate 8 0)) hwait ⟨by decide, by decide⟩ rfl
  · have hcopy : (g.receive (List.replicate 8 0)).pass = .error .overflow := by
      rw [pass, if_neg (by simp [receive, hgb]), continueFrame, if_pos (by simp [receive, hgb]),
        memcpy_overflow _ (by simp [receive, bufSize]) (by simp [receive, hgp, hgl])]
      rfl
    rw [next, hcopy]
    rfl

end EagleMQ.Framer
