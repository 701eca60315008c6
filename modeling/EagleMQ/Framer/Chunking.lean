import EagleMQ.Framer.Passes

/-! Reassembly of a stream of frames from arbitrary reads. The framer between
two reads is described by the bytes it has of an unfinished frame and the bytes
it still misses (`Resume`); a read takes one such description to the next unless
it ends inside a header, in which case bytes are dropped for good, or a frame
does not fit the request buffer. -/

namespace EagleMQ.Framer

/-- The end of the `i`-th read in the stream. -/
def cut (reads : List (List Byte)) (i : ℕ) : ℕ := (reads.take i).flatten.length

/-- The first byte of the `j`-th frame in the stream. -/
def start (frames : List (List Byte)) (j : ℕ) : ℕ := (frames.take j).flatten.length

/-- No read ends inside a frame's header, the frames starting `k` bytes into the
stream. -/
def HeadersWholeFrom (k : ℕ) (frames reads : List (List Byte)) : Prop :=
  ∀ i j, j < frames.length →
    ¬(k + start frames j < cut reads i ∧ cut reads i < k + start frames j + headerSize)

def HeadersWhole (frames reads : List (List Byte)) : Prop := HeadersWholeFrom 0 frames reads

/-- Every frame fits the request buffer, which grows when a body alone exceeds
it: `length` is the size before the first of the frames. -/
def Fits : ℕ → List (List Byte) → Prop
  | _, [] => True
  | length, b :: frames =>
    b.length ≤ grow length (bodyLength b) ∧ Fits (grow length (bodyLength b)) frames

/-- The framer delivers exactly the given frames, without a packet error. -/
def Delivers (f : Framer) (reads frames : List (List Byte)) : Prop :=
  ∃ g, serve reads f = .ok (frames.map .command, g)

/-! ### Between two reads -/

/-- A framer that is missing the bytes `todo` of a frame, and the frames it will
then have delivered when `rest` follow. -/
inductive Resume (f : Framer) : List Byte → List (List Byte) → List (List Byte) → Prop
  | idle (frames : List (List Byte)) (hb : f.bodylen = 0) (ho : f.offset = 0) :
    Resume f [] frames frames
  | pending (got todo : List Byte) (frames : List (List Byte)) (hb : f.bodylen = todo.length)
    (ht : todo ≠ []) (hg : slice f.request 0 f.pos = got) :
    Resume f todo frames ((got ++ todo) :: frames)

/-- What is left of the stream fits, the unfinished frame included. -/
def FitsFrom (f : Framer) (frames : List (List Byte)) : Prop :=
  (f.bodylen ≠ 0 → f.pos + f.bodylen ≤ f.length) ∧ Fits f.length frames

theorem Resume.pendingSize_le {f : Framer} {todo : List Byte} {rest expected : List (List Byte)}
    (h : Resume f todo rest expected) :
    expected.flatten.length = f.pendingSize + todo.length + rest.flatten.length := by
  cases h with
  | idle _ hb => simp [pendingSize, hb]
  | pending got _ _ hb ht hg =>
    have h0 : f.bodylen ≠ 0 := by simpa [hb] using ht
    have hl : got.length = f.pos := by rw [← hg, length_slice]
    simp only [pendingSize, h0, if_false, hl, List.flatten_cons, List.length_append]

theorem start_append (old rest : List (List Byte)) (j : ℕ) :
    start (old ++ rest) (old.length + j) = old.flatten.length + start rest j := by
  simp only [start, List.take_append, Nat.add_sub_cancel_left, List.flatten_append,
    List.length_append, List.take_of_length_le (Nat.le_add_right _ _)]

theorem start_left {old : List (List Byte)} (rest : List (List Byte)) {j : ℕ} (h : j ≤ old.length) :
    start (old ++ rest) j = start old j := by
  simp [start, List.take_append, Nat.sub_eq_zero_of_le h]

/-- After a read of `n` bytes that cut no header of the frames `old` it reached,
only the later frames and reads matter. -/
theorem headersWhole_shift {k k' : ℕ} {data : List Byte} {old rest reads : List (List Byte)}
    (hk : k + old.flatten.length = data.length + k')
    (hold : ∀ j < old.length, k + start old j + headerSize ≤ data.length) :
    HeadersWholeFrom k (old ++ rest) (data :: reads) ↔ HeadersWholeFrom k' rest reads := by
  have hcut : ∀ i, cut (data :: reads) (i + 1) = data.length + cut reads i := by simp [cut]
  constructor
  · intro h i j hj
    have := h (i + 1) (old.length + j) (by simpa using hj)
    rw [start_append, hcut] at this
    omega
  · intro h i j hj
    cases i with
    | zero => simp [cut]
    | succ i =>
      rw [hcut]
      by_cases hjo : j < old.length
      · have := hold j hjo
        rw [start_left rest hjo.le]
        omega
      · obtain ⟨j', rfl⟩ := Nat.exists_eq_add_of_le (Nat.le_of_not_lt hjo)
        have := h i j' (by simpa using hj)
        rw [start_append]
        omega

/-! ### One read -/

/-- How a read of `n` bytes can end, when `p` bytes of an unfinished frame are
there and `k` are missing, `frames` come after it, and `expected` is still to be
delivered. -/
inductive Outcome (k p n : ℕ) (fits : Prop) (frames expected : List (List Byte)) :
    Except Fault (List Event × Framer) → Prop
  /-- All bytes are used: `done` is delivered and the framer waits for `todo`. -/
  | used (done old rest left : List (List Byte)) (todo : List Byte) (g : Framer)
    (hf : frames = old ++ rest) (hd : expected = done ++ left) (hr : Resume g todo rest left)
    (hl : k + old.flatten.length = n + todo.length)
    (hw : ∀ j < old.length, k + start old j + headerSize ≤ n)
    (hfit : fits ↔ FitsFrom g rest) :
    Outcome k p n fits frames expected (.ok (done.map .command, g))
  /-- The bytes end inside a header and are dropped. -/
  | dropped (events : List Event) (g : Framer) (j : ℕ) (hs : size events + g.pendingSize < p + n)
    (hj : j < frames.length) (h1 : k + start frames j < n)
    (h2 : n < k + start frames j + headerSize) :
    Outcome k p n fits frames expected (.ok (events, g))
  /-- A frame overruns the request buffer. -/
  | overrun (h : ¬fits) : Outcome k p n fits frames expected (.error .overflow)

/-- The outcome with a finished frame in front of the others, delivered first. -/
theorem Outcome.finish {k p n : ℕ} {fits fits' : Prop} {b : List Byte} {frames : List (List Byte)}
    {r : Except Fault (List Event × Framer)} (hb : b.length = p + k) (hfit : fits' ↔ fits)
    (h : Outcome 0 0 n fits frames frames r) :
    Outcome k p (k + n) fits' frames (b :: frames)
      (r.map fun r => (.command b :: r.1, r.2)) := by
  cases h with
  | used done old rest left todo g hf hd hr hl hw hfit' =>
    refine .used (b :: done) old rest left todo g hf (by simp [hd]) hr (by omega) ?_ (hfit.trans hfit')
    intro j hj
    have := hw j hj
    omega
  | dropped events g j hs hj h1 h2 =>
    refine .dropped _ g j ?_ hj (by omega) (by omega)
    simp only [size_cons, Event.size]
    omega
  | overrun h => exact .overrun fun hf => h (hfit.mp hf)

/-- The same, for a frame that started in this read. -/
theorem Outcome.cons {n : ℕ} {fits fits' : Prop} {b : List Byte} {frames : List (List Byte)}
    {r : Except Fault (List Event × Framer)} (hb : headerSize ≤ b.length) (hfit : fits' ↔ fits)
    (h : Outcome 0 0 n fits frames frames r) :
    Outcome 0 0 (b.length + n) fits' (b :: frames) (b :: frames)
      (r.map fun r => (.command b :: r.1, r.2)) := by
  have hstart : ∀ l j, start (b :: l) (j + 1) = b.length + start l j := by simp [start]
  cases h with
  | used done old rest left todo g hf hd hr hl hw hfit' =>
    refine .used (b :: done) (b :: old) rest left todo g (by simp [hf]) (by simp [hd]) hr
      (by simp only [List.flatten_cons, List.length_append]; omega) ?_ (hfit.trans hfit')
    intro j hj
    cases j with
    | zero => simp only [start, List.take_zero, List.flatten_nil, List.length_nil]; omega
    | succ j =>
      have := hw j (by simpa using hj)
      rw [hstart]
      omega
  | dropped events g j hs hj h1 h2 =>
    refine .dropped _ g (j + 1) ?_ (by simpa using hj) (by rw [hstart]; omega) (by rw [hstart]; omega)
    simp only [size_cons, Event.size]
    omega
  | overrun h => exact .overrun fun hf => h (hfit.mp hf)

/-- The request buffer after a copy of the unread bytes. -/
theorem slice_request_copied {f : Framer} {xs : List Byte} {n : ℕ} (h : f.Avail xs)
    (hn : n ≤ f.nread) (l : ℕ) :
    slice ({ f with length := l }.copied 0 f.offset n).request 0 n = xs.take n := by
  have := slice_copy f.request f.buffer 0 f.offset n
  rw [Nat.zero_add] at this
  simp only [copied, Nat.zero_add]
  rw [this]
  have hx : xs = slice f.buffer f.offset n ++ slice f.buffer (f.offset + n) (f.nread - n) := by
    rw [← slice_append, ← h.bytes]
    congr 1
    omega
  rw [hx, List.take_left' (length_slice _ _ _)]
  rfl

theorem take_of_append {xs ys b more : List Byte} (h : xs ++ ys = b ++ more)
    (hl : b.length ≤ xs.length) : xs.take b.length = b ∧ xs.drop b.length ++ ys = more := by
  have h1 : xs.take b.length = b := by
    have := congrArg (List.take b.length) h
    rwa [List.take_append_of_le_length hl, List.take_left'  rfl] at this
  refine ⟨h1, ?_⟩
  have := congrArg (List.drop b.length) h
  rwa [List.drop_append_of_le_length hl, List.drop_left' rfl] at this

/-- From a frame boundary, the passes over the unread bytes. The induction is on
the turns of the loop; each whole frame takes one. -/
theorem processLoop_outcome (n : ℕ) :
    ∀ (f : Framer) (xs ys : List Byte) (frames : List (List Byte)), f.bodylen = 0 → f.Avail xs →
      0 < f.nread → f.nread < n → xs ++ ys = frames.flatten → (∀ b ∈ frames, WellFormed b) →
      Outcome 0 0 f.nread (Fits f.length frames) frames frames (processLoop n f) := by
  induction n with
  | zero => intro f xs ys frames _ _ _ hn; omega
  | succ n ih =>
    intro f xs ys frames hb ha hpos hn hx hw
    have hlen := ha.length
    obtain - | ⟨b, frames⟩ := frames
    · have : xs = [] := by simp at hx; exact hx.1
      simp [this] at hlen; omega
    rw [List.flatten_cons] at hx
    have hwb := hw b (by simp)
    have hbl := hwb.length
    have hbound := ha.bound
    have hsize : headerSize = 8 := rfl
    simp only [processLoop, pass, if_pos hb]
    by_cases h8 : f.nread < headerSize
    · -- the read ends inside this header
      simp only [startFrame, if_pos h8, bind, Except.bind]
      exact .dropped _ _ 0 (by simpa [Event.size, pendingSize, hb] using hpos) (by simp)
        (by simpa [start] using hpos) (by simpa [start] using h8)
    rw [startFrame_eq ha hx hwb (by omega)]
    have hle0 : ∀ {m}, m ≤ f.nread → f.offset + m ≤ bufSize := by intro m hm; omega
    by_cases heq : f.nread = b.length
    · -- the unread bytes are this frame
      rw [if_pos heq]
      by_cases hfit : b.length ≤ grow f.length (bodyLength b)
      · rw [memcpy_eq _ (hle0 (Nat.le_refl _)) (by simpa [heq] using hfit)]
        obtain ⟨ht, -⟩ := take_of_append hx (by omega)
        have hfr := slice_request_copied ha (Nat.le_refl f.nread) (grow f.length (bodyLength b))
        simp only [bind, Except.bind, frame, headerSize, Nat.reduceLeDiff, if_false]
        rw [hfr, heq, ht]
        refine .used [b] [b] frames frames [] _ rfl rfl (.idle _ hb rfl) (by simp) ?_ ?_
        · intro j hj
          have : j = 0 := by simpa using hj
          subst this
          simp [start]; omega
        · simp [Fits, FitsFrom, copied, hfit, hb]
      · rw [memcpy_overflow _ (hle0 (Nat.le_refl _)) (by simp only []; omega)]
        exact .overrun fun hf => hfit hf.1
    rw [if_neg heq]
    by_cases hlt : f.nread < b.length
    · -- this frame goes on in the next read
      rw [if_pos hlt]
      by_cases hfit : f.nread ≤ grow f.length (bodyLength b)
      · rw [memcpy_eq _ (hle0 (Nat.le_refl _)) (by simpa using hfit)]
        have hfr := slice_request_copied ha (Nat.le_refl f.nread) (grow f.length (bodyLength b))
        rw [List.take_of_length_le (by omega)] at hfr
        have hxb : xs ++ b.drop f.nread = b := by
          have := congrArg (List.take f.nread) hx
          rw [List.take_append_of_le_length (by omega), List.take_append_of_le_length (by omega),
            List.take_of_length_le (by omega)] at this
          rw [this, List.take_append_drop]
        simp only [bind, Except.bind]
        set g : Framer := { ({ f with length := grow f.length (bodyLength b) } : Framer).copied
          0 f.offset f.nread with
          bodylen := b.length - f.nread, pos := f.nread } with hg
        have hr : Resume g (b.drop f.nread) frames (b :: frames) := by
          have := Resume.pending (f := g) xs (b.drop f.nread) frames (by simp [hg]) (by simp; omega) hfr
          rwa [hxb] at this
        refine .used [] [b] frames (b :: frames) (b.drop f.nread) g rfl rfl hr (by simp; omega) ?_ ?_
        · intro j hj
          have : j = 0 := by simpa using hj
          subst this
          simp [start]; omega
        · simp only [Fits, FitsFrom, hg, copied]
          rw [Nat.add_sub_cancel' hlt.le]
          exact ⟨fun h => ⟨fun _ => h.1, h.2⟩, fun h => ⟨h.1 (by omega), h.2⟩⟩
      · rw [memcpy_overflow _ (hle0 (Nat.le_refl _)) (by simp only []; omega)]
        refine .overrun fun hf => ?_
        have := hf.1
        omega
    · -- this frame ends inside the read and others follow
      rw [if_neg hlt]
      have hgt : b.length < f.nread := by omega
      by_cases hfit : b.length ≤ grow f.length (bodyLength b)
      · rw [memcpy_eq _ (hle0 hgt.le) (by simpa using hfit)]
        obtain ⟨ht, hd⟩ := take_of_append hx (by omega)
        have hfr := slice_request_copied ha hgt.le (grow f.length (bodyLength b))
        rw [ht] at hfr
        simp only [bind, Except.bind]
        set g : Framer := { ({ f with length := grow f.length (bodyLength b) } : Framer).copied
          0 f.offset b.length with
          pos := b.length, offset := f.offset + b.length, nread := f.nread - b.length } with hg
        have hframe : g.frame = b := hfr
        have hga : g.Avail (xs.drop b.length) := by
          refine ⟨?_, by simp only [hg]; omega⟩
          rw [← ha.bytes]
          have := slice_append f.buffer f.offset b.length (f.nread - b.length)
          rw [Nat.add_sub_cancel' hgt.le] at this
          rw [this, List.drop_left' (length_slice _ _ _)]
          rfl
        have hsum : f.nread = b.length + g.nread := by simp only [hg]; omega
        rw [hframe]
        have hrest := ih g (xs.drop b.length) ys frames hb hga (by simp only [hg]; omega)
          (by simp only [hg]; omega) hd fun c hc => hw c (by simp [hc])
        have hfits : Fits f.length (b :: frames) ↔ Fits g.length frames := by simp [Fits, hfit, hg, copied]
        split_ifs with h8'
        · have := Outcome.cons (b := b) (by omega) hfits hrest
          rw [← hsum] at this
          cases hp : processLoop n g <;> simpa only [hp, Except.map] using this
        · -- one to seven bytes are left over
          have hne : frames ≠ [] := by
            rintro rfl
            have hnil : xs.drop b.length = [] := (List.append_eq_nil_iff.mp hd).1
            have := hga.length
            rw [hnil, List.length_nil] at this
            omega
          refine .dropped _ g 1 ?_ (by simpa [List.length_pos_iff] using hne) ?_ ?_
          · have : g.pendingSize = 0 := by simp [pendingSize, hg, copied, hb]
            simp only [size_cons, size_nil, Event.size, this]
            omega
          · simp [start]; omega
          · simp [start]; omega
      · rw [memcpy_overflow _ (hle0 hgt.le) (by simp only []; omega)]
        exact .overrun fun hf => hfit hf.1

/-- From an unfinished frame, one read. -/
theorem readRequest_pending {f : Framer} {got todo data ys : List Byte} {frames : List (List Byte)}
    (hb : f.bodylen = todo.length) (ht : todo ≠ []) (hg : slice f.request 0 f.pos = got)
    (hbuf : data.length ≤ bufSize) (hx : data ++ ys = todo ++ frames.flatten)
    (hw : ∀ b ∈ frames, WellFormed b) :
    Outcome todo.length f.pos data.length (FitsFrom f frames) frames ((got ++ todo) :: frames)
      (f.readRequest data) := by
  have htl : 0 < todo.length := List.length_pos_iff.mpr ht
  have hb0 : f.bodylen ≠ 0 := by omega
  have hgl : got.length = f.pos := by rw [← hg, length_slice]
  have hnread : (f.receive data).nread = data.length := rfl
  have hover : ∀ n, n ≤ todo.length → ¬f.pos + n ≤ f.length → ¬FitsFrom f frames := by
    intro n hn h hf
    have := hf.1 hb0
    omega
  have hcopy : ∀ n, n ≤ data.length →
      slice ((f.receive data).copied f.pos 0 n).request 0 (f.pos + n) = got ++ data.take n := by
    intro n hn
    have := slice_copy f.request (f.receive data).buffer f.pos 0 n
    rw [hg] at this
    have hd : slice (f.receive data).buffer 0 n = data.take n := by
      conv_rhs => rw [← slice_receive f data, ← Nat.add_sub_cancel' hn, slice_append]
      rw [List.take_left' (length_slice _ _ _)]
    rwa [hd] at this
  rw [readRequest, processRequest, processLoop, pass, if_neg (show (f.receive data).bodylen ≠ 0 from hb0),
    continueFrame_eq data hb, hnread]
  by_cases heq : data.length = todo.length
  · -- the read is the rest of the frame
    rw [if_pos heq]
    obtain ⟨hdt, -⟩ := take_of_append hx (by omega)
    rw [← heq, List.take_length] at hdt
    subst hdt
    by_cases hfit : f.pos + data.length ≤ f.length
    · rw [memcpy_eq (f.receive data) (by omega) hfit]
      have hfr := hcopy data.length (Nat.le_refl _)
      rw [List.take_length] at hfr
      simp only [bind, Except.bind, frame, headerSize, Nat.reduceLeDiff, if_false]
      rw [hfr]
      refine .used [got ++ data] [] frames frames [] _ rfl rfl (.idle _ rfl rfl) (by simp)
        (by simp) ?_
      have : f.pos + f.bodylen ≤ f.length := by omega
      simp [FitsFrom, copied, receive, this]
    · rw [memcpy_overflow (f.receive data) (by omega) (by simp only [receive]; omega)]
      exact .overrun (hover _ (by omega) hfit)
  rw [if_neg heq]
  by_cases hlt : data.length < todo.length
  · -- the frame goes on
    rw [if_pos hlt]
    by_cases hfit : f.pos + data.length ≤ f.length
    · rw [memcpy_eq (f.receive data) (by omega) hfit]
      have hfr := hcopy data.length (Nat.le_refl _)
      rw [List.take_length] at hfr
      have htd : data ++ todo.drop data.length = todo := by
        have := congrArg (List.take data.length) hx
        rw [List.take_append_of_le_length (by omega), List.take_append_of_le_length (by omega),
          List.take_length] at this
        conv_rhs => rw [← List.take_append_drop data.length todo, ← this]
      simp only [bind, Except.bind]
      set g : Framer := { (f.receive data).copied f.pos 0 data.length with
        pos := f.pos + data.length, bodylen := todo.length - data.length, offset := 0 } with hgd
      have hr : Resume g (todo.drop data.length) frames ((got ++ todo) :: frames) := by
        have := Resume.pending (f := g) (got ++ data) (todo.drop data.length) frames
          (by simp [hgd]) (by simp; omega) hfr
        rwa [List.append_assoc, htd] at this
      refine .used [] [] frames _ (todo.drop data.length) g rfl rfl hr (by simp; omega) (by simp) ?_
      simp only [FitsFrom, hgd, copied, receive, hb]
      rw [Nat.add_assoc, Nat.add_sub_cancel' hlt.le]
      exact ⟨fun h => ⟨fun _ => h.1 (by omega), h.2⟩, fun h => ⟨fun _ => h.1 (by omega), h.2⟩⟩
    · rw [memcpy_overflow (f.receive data) (by omega) (by simp only [receive]; omega)]
      exact .overrun (hover _ hlt.le hfit)
  · -- the frame ends inside the read
    rw [if_neg hlt]
    have hgt : todo.length < data.length := by omega
    by_cases hfit : f.pos + todo.length ≤ f.length
    · rw [memcpy_eq (f.receive data) (by omega) hfit]
      have hfr := hcopy todo.length hgt.le
      obtain ⟨hdt, hrest⟩ := take_of_append hx hgt.le
      rw [hdt] at hfr
      simp only [bind, Except.bind]
      set g : Framer := { (f.receive data).copied f.pos 0 todo.length with
        pos := f.pos + todo.length, nread := data.length - todo.length, offset := todo.length,
        bodylen := 0 } with hgd
      have hframe : g.frame = got ++ todo := hfr
      have hga : g.Avail (data.drop todo.length) := by
        refine ⟨?_, by simp only [hgd]; omega⟩
        conv_rhs => rw [← slice_receive f data, ← Nat.add_sub_cancel' hgt.le, slice_append]
        rw [List.drop_left' (length_slice _ _ _), Nat.zero_add]
        rfl
      have hsum : data.length = todo.length + g.nread := by simp only [hgd]; omega
      have hfits : FitsFrom f frames ↔ Fits g.length frames := by
        have : f.pos + f.bodylen ≤ f.length := by omega
        simp [FitsFrom, this, hgd, copied, receive]
      have hout := processLoop_outcome data.length g (data.drop todo.length) ys frames rfl hga
        (by simp only [hgd]; omega) (by simp only [hgd]; omega) hrest hw
      rw [hframe]
      split_ifs with h8
      · have := Outcome.finish (b := got ++ todo) (p := f.pos) (k := todo.length) (by simp [hgl])
          hfits hout
        rw [← hsum] at this
        cases hp : processLoop data.length g <;> simpa only [hp, Except.map] using this
      · -- one to seven bytes are left over
        have hne : frames ≠ [] := by
          rintro rfl
          have hnil : data.drop todo.length = [] := (List.append_eq_nil_iff.mp hrest).1
          simp only [List.drop_eq_nil_iff] at hnil
          omega
        refine .dropped _ g 0 ?_ (List.length_pos_iff.mpr hne) ?_ ?_
        · have : g.pendingSize = 0 := by simp [pendingSize, hgd]
          simp only [size_cons, size_nil, Event.size, this, List.length_append, hgl]
          omega
        · simp [start]; omega
        · simp only [start, List.take_zero, List.flatten_nil, List.length_nil]; omega
    · rw [memcpy_overflow (f.receive data) (by omega) (by simp only [receive]; omega)]
      exact .overrun (hover _ (Nat.le_refl _) hfit)

/-- One read, wherever the framer stands. -/
theorem readRequest_outcome {f : Framer} {todo data ys : List Byte} {rest expected : List (List Byte)}
    (h : Resume f todo rest expected) (hpos : 0 < data.length) (hbuf : data.length ≤ bufSize)
    (hx : data ++ ys = todo ++ rest.flatten) (hw : ∀ b ∈ rest, WellFormed b) :
    Outcome todo.length f.pendingSize data.length (FitsFrom f rest) rest expected
      (f.readRequest data) := by
  cases h with
  | idle _ hb ho =>
    have hfits : FitsFrom f rest ↔ Fits (f.receive data).length rest := by simp [FitsFrom, hb, receive]
    have ha : (f.receive data).Avail data := by
      refine ⟨?_, by simpa [receive, ho] using hbuf⟩
      rw [show (f.receive data).offset = 0 from ho]
      exact slice_receive f data
    have hp : f.pendingSize = 0 := by simp [pendingSize, hb]
    rw [hfits, hp]
    exact processLoop_outcome _ (f.receive data) data ys rest hb ha hpos (Nat.lt_succ_self _) hx hw
  | pending got _ _ hb ht hg =>
    have h0 : f.bodylen ≠ 0 := by simpa [hb] using ht
    have hp : f.pendingSize = f.pos := by simp [pendingSize, h0]
    rw [hp]
    exact readRequest_pending hb ht hg hbuf hx hw

/-! ### All reads -/

theorem Resume.flatten {f : Framer} {todo : List Byte} {rest expected : List (List Byte)}
    (h : Resume f todo rest expected) : ∃ got, expected.flatten = got ++ (todo ++ rest.flatten) := by
  cases h with
  | idle => exact ⟨[], by simp⟩
  | pending got => exact ⟨got, by simp⟩

/-- The bytes still to be read are those still expected. -/
theorem Resume.todo_append {f g : Framer} {todo todo' data ys : List Byte}
    {old rest done left : List (List Byte)} (h : Resume f todo (old ++ rest) (done ++ left))
    (h' : Resume g todo' rest left) (hl : todo.length + old.flatten.length = data.length + todo'.length)
    (hx : data ++ ys = todo ++ (old ++ rest).flatten) : ys = todo' ++ rest.flatten := by
  obtain ⟨got, hgot⟩ := h.flatten
  obtain ⟨got', hgot'⟩ := h'.flatten
  rw [List.flatten_append, hgot', ← hx] at hgot
  have hlen := congrArg List.length hx
  simp only [List.flatten_append, List.length_append] at hlen
  have heq : (done.flatten ++ got') ++ (todo' ++ rest.flatten) = (got ++ data) ++ ys := by
    simpa using hgot
  exact (List.append_inj_right' heq (by simp only [List.length_append]; omega)).symm

theorem serve_cons {f g : Framer} {data : List Byte} {events : List Event}
    (h : f.readRequest data = .ok (events, g)) (reads : List (List Byte)) :
    serve (data :: reads) f = (serve reads g).map fun r => (events ++ r.1, r.2) := by
  simp only [serve, h, bind, Except.bind]
  cases serve reads g <;> rfl

theorem delivers_cons {f g : Framer} {data : List Byte} {done left : List (List Byte)}
    (h : f.readRequest data = .ok (done.map .command, g)) (reads : List (List Byte)) :
    Delivers f (data :: reads) (done ++ left) ↔ Delivers g reads left := by
  unfold Delivers
  rw [serve_cons h]
  cases serve reads g with
  | error e => simp [Except.map]
  | ok r => simp [Except.map, Prod.ext_iff]

/-- What the framer delivers from any point on. The induction is on the reads;
each takes one `Resume` to the next. -/
theorem delivers_from (reads : List (List Byte)) :
    ∀ (f : Framer) (todo : List Byte) (rest expected : List (List Byte)),
      Resume f todo rest expected →
      (∀ data ∈ reads, 0 < data.length ∧ data.length ≤ bufSize) →
      reads.flatten = todo ++ rest.flatten → (∀ b ∈ rest, WellFormed b) →
      (Delivers f reads expected ↔ HeadersWholeFrom todo.length rest reads ∧ FitsFrom f rest) := by
  induction reads with
  | nil =>
    intro f todo rest expected h _ hx hw
    obtain ⟨rfl, hr⟩ := List.append_eq_nil_iff.mp hx.symm
    have hnil : rest = [] := by
      cases rest with
      | nil => rfl
      | cons b rest => exact absurd (List.append_eq_nil_iff.mp hr).1 (hw b (by simp)).ne_nil
    subst hnil
    cases h with
    | idle _ hb =>
      refine iff_of_true ⟨f, rfl⟩ ⟨fun i j hj => absurd hj (by simp), ?_⟩
      simp [FitsFrom, Fits, hb]
    | pending _ _ _ _ ht => exact absurd rfl ht
  | cons data reads ih =>
    intro f todo rest expected h hlen hx hw
    obtain ⟨hpos, hbuf⟩ := hlen data (by simp)
    rw [List.flatten_cons] at hx
    have hout := readRequest_outcome h hpos hbuf hx hw
    generalize hread : f.readRequest data = r at hout
    cases hout with
    | used done old rest left todo' g hf hd hr hl hold hfit =>
      subst hf hd
      rw [delivers_cons hread, hfit, headersWhole_shift hl hold]
      exact ih g todo' rest left hr (fun d hd => hlen d (by simp [hd])) (h.todo_append hr hl hx)
        fun b hb => hw b (by simp [hb])
    | dropped events g j hs hj h1 h2 =>
      refine iff_of_false ?_ fun hwhole => hwhole.1 1 j hj (by simpa [cut] using ⟨h1, h2⟩)
      -- fewer bytes are dispatched than the frames have
      rintro ⟨g', hg'⟩
      rw [serve_cons hread] at hg'
      cases hrest : serve reads g with
      | error e => simp [hrest, Except.map] at hg'
      | ok r =>
        obtain ⟨more, g''⟩ := r
        simp only [hrest, Except.map, Except.ok.injEq, Prod.mk.injEq] at hg'
        have hsize := congrArg size hg'.1
        rw [size_append, size_commands, h.pendingSize_le] at hsize
        have hmore := serve_size hrest
        have htotal := congrArg List.length hx
        simp only [List.length_append] at htotal
        omega
    | overrun hfit =>
      refine iff_of_false ?_ fun hwhole => hfit hwhole.2
      rintro ⟨g, hg⟩
      simp [serve, hread, bind, Except.bind] at hg

/-- However the bytes of well-formed frames are cut into reads, a fresh
connection dispatches exactly these frames if and only if no read ends inside a
header and every frame fits the request buffer, header included. -/
theorem delivers_iff (request buffer : ℕ → Byte) {frames reads : List (List Byte)}
    (hw : ∀ b ∈ frames, WellFormed b)
    (hr : ∀ data ∈ reads, 0 < data.length ∧ data.length ≤ bufSize)
    (hx : reads.flatten = frames.flatten) :
    Delivers (create request buffer) reads frames ↔
      HeadersWhole frames reads ∧ Fits bufSize frames := by
  have h := delivers_from reads (create request buffer) [] frames frames (.idle frames rfl rfl) hr hx hw
  have hf : FitsFrom (create request buffer) frames ↔ Fits bufSize frames := by
    simp [FitsFrom, create]
  rwa [hf] at h

/-- Two pings in one read. -/
theorem delivers_two_pings :
    Delivers (create (fun _ => 0) (fun _ => 0)) [ping ++ ping] [ping, ping] ↔
      HeadersWhole [ping, ping] [ping ++ ping] ∧ Fits bufSize [ping, ping] :=
  delivers_iff _ _ (by simp [ping_wellFormed]) (by decide) rfl

/-- A ping that arrives in two halves is answered by two packet errors. -/
theorem not_delivers_halves :
    (∀ b ∈ [ping], WellFormed b) ∧
      (∀ data ∈ [ping.take 4, ping.drop 4], 0 < data.length ∧ data.length ≤ bufSize) ∧
      [ping.take 4, ping.drop 4].flatten = [ping].flatten ∧
      ¬Delivers (create (fun _ => 0) (fun _ => 0)) [ping.take 4, ping.drop 4] [ping] := by
  refine ⟨by simp [ping_wellFormed], by decide, rfl, ?_⟩
  rintro ⟨g, hg⟩
  have hrun : (serve [ping.take 4, ping.drop 4] (create (fun _ => 0) (fun _ => 0))).map Prod.fst =
      .ok [.packetError, .packetError] := rfl
  rw [hg] at hrun
  cases hrun

end EagleMQ.Framer
