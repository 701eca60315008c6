import EagleMQ.Utils
import Mathlib.Data.List.Chain
import Mathlib.Data.Nat.Find

/-! The validators as they read their buffer, byte after byte, against the grammars
of the fields. The scan for the terminating zero takes the index behind the field
for the last one of it, and the second validator leaves out the last character. -/

namespace EagleMQ

/-! ### Reading -/

/-- `n` turns of the loop around `*++ptr`, from the index `i` on; 0 for no zero byte. -/
def seekZero (read : ℕ → Except Fault Byte) : ℕ → ℕ → Except Fault ℕ
  | 0, _ => .ok 0
  | n + 1, i => do
    if (← read (i + 1)) = 0 then .ok (i + 1) else seekZero read n (i + 1)

/-- `n` turns of the loop over the characters, from the index `i` on. -/
def scanChars (read : ℕ → Except Fault Byte) (ok : Byte → Bool) : ℕ → ℕ → Except Fault Bool
  | 0, _ => .ok true
  | n + 1, i => do
    if ok (← read i) then scanChars read ok n (i + 1) else .ok false

/-- `check_input_buffer1` and `check_input_buffer3`. -/
def scanBuffer (ok : Byte → Bool) (read : ℕ → Except Fault Byte) (size : ℕ) : Except Fault ℕ := do
  let length ← seekZero read size 0
  if length = 0 then .ok 0
  else if ← scanChars read ok length 0 then .ok length
  else .ok 0

def scanBuffer1 : (ℕ → Except Fault Byte) → ℕ → Except Fault ℕ :=
  scanBuffer fun c => isAlphanum c || isExtra1 c

def scanBuffer3 : (ℕ → Except Fault Byte) → ℕ → Except Fault ℕ :=
  scanBuffer fun c => isAlphanum c || isExtra3 c

/-- `n` turns of the loop of `check_input_buffer2`. -/
def scanMiddle (read : ℕ → Except Fault Byte) : ℕ → ℕ → Bool → Except Fault Bool
  | 0, _, _ => .ok true
  | n + 1, i, extra => do
    let c ← read i
    if isExtra1 c && extra then .ok false
    else if !isAlphanum c && !isExtra1 c then .ok false
    else scanMiddle read n (i + 1) (isExtra1 c)

def scanBuffer2 (read : ℕ → Except Fault Byte) (size : ℕ) : Except Fault ℕ := do
  let length ← seekZero read size 0
  if length = 0 then .ok 0
  else
    let c ← read 0
    if !isAlpha c && c != 95 && c != 46 then .ok 0
    else if ← scanMiddle read (length - 2) 1 (c == 95 || c == 46) then .ok length
    else .ok 0

/-- A buffer of `size` bytes; further reads are out of bounds. -/
def bounded (m : ℕ → Byte) (size : ℕ) (i : ℕ) : Except Fault Byte :=
  if i < size then .ok (m i) else .error .overread

/-! ### Grammars -/

def Letter (c : Byte) : Prop := (65 ≤ c ∧ c ≤ 90) ∨ (97 ≤ c ∧ c ≤ 122)

def Digit (c : Byte) : Prop := 48 ≤ c ∧ c ≤ 57

/-- `_`, `-` and `.`. -/
def Separator (c : Byte) : Prop := c = 95 ∨ c = 45 ∨ c = 46

/-- `*`, `?`, the brackets and the backslash. -/
def GlobChar (c : Byte) : Prop := c = 42 ∨ c = 63 ∨ c = 91 ∨ c = 93 ∨ c = 92

/-- The characters of keys, topics and passwords. -/
def KeyChar (c : Byte) : Prop := Letter c ∨ Digit c ∨ Separator c

def KeyWord (l : List Byte) : Prop := ∀ c ∈ l, KeyChar c

def PatternWord (l : List Byte) : Prop := ∀ c ∈ l, KeyChar c ∨ GlobChar c

/-- A name starts with a letter, `_` or `.` and has no two separators in a row. -/
structure NameWord (l : List Byte) : Prop where
  first : ∃ c, l.head? = some c ∧ (Letter c ∨ c = 95 ∨ c = 46)
  chars : ∀ c ∈ l.tail, KeyChar c
  apart : l.IsChain fun c d => ¬(Separator c ∧ Separator d)

/-- The bytes in front of the first zero byte of the buffer are a word of the grammar. -/
structure Field (G : List Byte → Prop) (m : ℕ → Byte) (size length : ℕ) : Prop where
  pos : 0 < length
  lt : length < size
  zero : m length = 0
  nonzero : ∀ i < length, m i ≠ 0
  grammar : G (slice m 0 length)

/-- The validator reads within its buffer and returns the length of the field, or 0 for none. -/
def Validates (G : List Byte → Prop) (m : ℕ → Byte) (size : ℕ) (result : Except Fault ℕ) : Prop :=
  ∃ n, result = .ok n ∧ (n ≠ 0 → Field G m size n) ∧ ∀ length, Field G m size length → n = length

/-! ### Characters -/

theorem forall_byte {P : Byte → Prop} (h : ∀ n : Fin 256, P (UInt8.ofNat n)) (c : Byte) : P c := by
  have hc := h ⟨c.toNat, c.toNat_lt⟩
  rwa [UInt8.ofNat_toNat] at hc

theorem isAlpha_iff (c : Byte) : isAlpha c = true ↔ Letter c := by
  unfold Letter
  revert c
  exact forall_byte (by decide +kernel)

theorem isNum_iff (c : Byte) : isNum c = true ↔ Digit c := by simp [isNum, Digit]

theorem isExtra1_iff (c : Byte) : isExtra1 c = true ↔ Separator c := by simp [isExtra1, Separator, or_assoc]

theorem keyChar_iff (c : Byte) : (isAlphanum c || isExtra1 c) = true ↔ KeyChar c := by
  simp only [isAlphanum, Bool.or_eq_true, isAlpha_iff, isNum_iff, isExtra1_iff, KeyChar, or_assoc]

theorem patternChar_iff (c : Byte) : (isAlphanum c || isExtra3 c) = true ↔ KeyChar c ∨ GlobChar c := by
  rw [isExtra3, ← Bool.or_assoc, Bool.or_eq_true, keyChar_iff]
  simp [isExtra2, GlobChar, or_assoc]

/-! ### The scan for the terminator -/

section Scan

variable {read : ℕ → Except Fault Byte} {m : ℕ → Byte} {size i length n k : ℕ}

/-- The reads below `k` are those of the memory. -/
def Reading (read : ℕ → Except Fault Byte) (m : ℕ → Byte) (k : ℕ) : Prop := ∀ i < k, read i = .ok (m i)

theorem reading_memory (m : ℕ → Byte) (k : ℕ) : Reading (fun i => .ok (m i)) m k := fun _ _ => rfl

theorem reading_bounded (m : ℕ → Byte) (size : ℕ) : Reading (bounded m size) m size := fun _ h => if_pos h

theorem Reading.mono (h : Reading read m k) (hn : n ≤ k) : Reading read m n := fun i hi => h i (by omega)

theorem seekZero_found (hread : Reading read m (length + 1)) (hzero : m length = 0) :
    ∀ {n i : ℕ}, i < length → length ≤ i + n → (∀ j, i < j → j < length → m j ≠ 0) →
      seekZero read n i = .ok length
  | 0, i, hi, hn, _ => by omega
  | n + 1, i, hi, hn, hnonzero => by
    have hnext : read (i + 1) = .ok (m (i + 1)) := hread _ (by omega)
    unfold seekZero
    rw [hnext]
    change (if m (i + 1) = 0 then _ else _) = _
    by_cases heq : i + 1 = length
    · rw [heq, if_pos hzero]
    · rw [if_neg (hnonzero _ (by omega) (by omega))]
      exact seekZero_found hread hzero (by omega) (by omega) fun j hj => hnonzero j (by omega)

theorem seekZero_none : ∀ {n i : ℕ}, Reading read m (i + n + 1) → (∀ j, i < j → j ≤ i + n → m j ≠ 0) →
    seekZero read n i = .ok 0
  | 0, _, _, _ => rfl
  | n + 1, i, hread, hnonzero => by
    have hnext : read (i + 1) = .ok (m (i + 1)) := hread _ (by omega)
    unfold seekZero
    rw [hnext]
    change (if m (i + 1) = 0 then _ else _) = _
    rw [if_neg (hnonzero _ (by omega) (by omega))]
    exact seekZero_none (hread.mono (by omega)) fun j hj hn => hnonzero j (by omega) (by omega)

/-- Without a zero byte the scan leaves the buffer. -/
theorem seekZero_overread : ∀ {n i : ℕ}, i + n = size → i < size → (∀ j, i < j → j < size → m j ≠ 0) →
    seekZero (bounded m size) n i = .error .overread
  | 0, i, hn, hi, _ => by omega
  | n + 1, i, hn, hi, hnonzero => by
    unfold seekZero bounded
    by_cases heq : i + 1 = size
    · rw [if_neg (by omega)]
      rfl
    · rw [if_pos (by omega)]
      change (if m (i + 1) = 0 then _ else _) = _
      rw [if_neg (hnonzero _ (by omega) (by omega))]
      exact seekZero_overread (by omega) (by omega) fun j hj => hnonzero j (by omega)

/-- The first zero byte behind the first byte of a buffer, at an index up to `size`. -/
structure FirstZero (m : ℕ → Byte) (size length : ℕ) : Prop where
  pos : 0 < length
  le : length ≤ size
  zero : m length = 0
  nonzero : ∀ j, 0 < j → j < length → m j ≠ 0

theorem exists_firstZero (h : 0 < i) (hi : i ≤ size) (hzero : m i = 0) :
    ∃ length ≤ i, FirstZero m size length := by
  classical
  have hex : ∃ j, 0 < j ∧ m j = 0 := ⟨i, h, hzero⟩
  have hle : Nat.find hex ≤ i := Nat.find_min' hex ⟨h, hzero⟩
  exact ⟨Nat.find hex, hle, (Nat.find_spec hex).1, by omega, (Nat.find_spec hex).2,
    fun j hj hlt hm => Nat.find_min hex hlt ⟨hj, hm⟩⟩

theorem terminator_eq (m : ℕ → Byte) (size : ℕ) :
    seekZero (fun i => .ok (m i)) size 0 = .ok (terminator m size) := by
  have key : ∀ n i, seekZero (fun i => .ok (m i)) n i =
      .ok (((List.range' (i + 1) n).find? fun j => m j == 0).getD 0) := by
    intro n
    induction n with
    | zero => exact fun _ => rfl
    | succ n ih =>
      intro i
      unfold seekZero
      change (if m (i + 1) = 0 then _ else _) = _
      rw [List.range'_succ, List.find?_cons]
      by_cases hz : m (i + 1) = 0
      · rw [if_pos hz, hz]
        rfl
      · rw [if_neg hz, ih, beq_false_of_ne hz]
  have hrange : (List.range size).map (· + 1) = List.range' 1 size := by
    rw [List.range'_eq_map_range]
    exact List.map_congr_left fun i _ => Nat.add_comm i 1
  rw [key, terminator, hrange]

theorem FirstZero.terminator_eq (h : FirstZero m size length) : terminator m size = length := by
  have hscan := EagleMQ.terminator_eq m size
  rw [seekZero_found (reading_memory m _) h.zero h.pos (by have := h.le; omega) h.nonzero] at hscan
  exact (Except.ok.inj hscan).symm

/-! ### The characters of a field -/

theorem scanChars_eq (ok : Byte → Bool) : ∀ {n i : ℕ}, Reading read m (i + n) →
    scanChars read ok n i = .ok ((slice m i n).all ok)
  | 0, _, _ => rfl
  | n + 1, i, hread => by
    have hslice : slice m i (n + 1) = m i :: slice m (i + 1) n := by
      rw [Nat.add_comm n 1, slice_append]
      rfl
    unfold scanChars
    rw [hread i (by omega), hslice, List.all_cons]
    change (if ok (m i) then _ else _) = _
    cases ok (m i) with
    | true => exact scanChars_eq ok (hread.mono (by omega))
    | false => rfl

theorem scanMiddle_eq : ∀ {n i : ℕ} {extra : Bool}, Reading read m (i + n) →
    scanMiddle read n i extra = .ok (checkMiddle extra (slice m i n))
  | 0, _, _, _ => rfl
  | n + 1, i, extra, hread => by
    have hslice : slice m i (n + 1) = m i :: slice m (i + 1) n := by
      rw [Nat.add_comm n 1, slice_append]
      rfl
    unfold scanMiddle
    rw [hread i (by omega), hslice, checkMiddle]
    change (if isExtra1 (m i) && extra then _ else _) = _
    rw [scanMiddle_eq (hread.mono (by omega))]
    cases isExtra1 (m i) <;> cases extra <;> cases isAlphanum (m i) <;> rfl

end Scan

/-! ### The validators on a memory -/

section Validators

variable {m : ℕ → Byte} {size length : ℕ}

theorem scanBuffer_found (ok : Byte → Bool) {read : ℕ → Except Fault Byte}
    (hread : Reading read m (length + 1))
    (h : FirstZero m size length) :
    scanBuffer ok read size = .ok (if (slice m 0 length).all ok then length else 0) := by
  unfold scanBuffer
  rw [seekZero_found hread h.zero h.pos (by have := h.le; omega) h.nonzero]
  change (if length = 0 then _ else _) = _
  rw [if_neg (Nat.ne_of_gt h.pos), scanChars_eq ok (hread.mono (by omega))]
  change (if (slice m 0 length).all ok = true then _ else _) = _
  split_ifs <;> rfl

theorem scanBuffer2_found {read : ℕ → Except Fault Byte} (hread : Reading read m (length + 1))
    (h : FirstZero m size length) : scanBuffer2 read size = .ok (checkInputBuffer2 m size) := by
  have hpos := h.pos
  unfold scanBuffer2
  rw [seekZero_found hread h.zero h.pos (by have := h.le; omega) h.nonzero]
  change (if length = 0 then _ else _) = _
  rw [if_neg (Nat.ne_of_gt h.pos), hread 0 (by omega)]
  change (if _ then _ else _) = _
  rw [scanMiddle_eq (hread.mono (by omega)), checkInputBuffer2, h.terminator_eq]
  rw [if_neg (Nat.ne_of_gt h.pos)]
  split_ifs with hfirst hmiddle
  · rfl
  · exact if_pos hmiddle
  · exact if_neg hmiddle

/-! On the memory of a request the scans are the validators of the handlers. -/

theorem scanBuffer_memory (ok : Byte → Bool) (m : ℕ → Byte) (size : ℕ) :
    scanBuffer ok (fun i => .ok (m i)) size =
    .ok (if (slice m 0 (terminator m size)).all ok then terminator m size else 0) := by
  unfold scanBuffer
  rw [terminator_eq]
  change (if terminator m size = 0 then _ else _) = _
  rw [scanChars_eq ok (reading_memory m _)]
  by_cases hzero : terminator m size = 0
  · rw [if_pos hzero, hzero]
    rfl
  · rw [if_neg hzero]
    change (if (slice m 0 (terminator m size)).all ok = true then _ else _) = _
    split_ifs <;> rfl

theorem scanBuffer1_memory (m : ℕ → Byte) (size : ℕ) :
    scanBuffer1 (fun i => .ok (m i)) size = .ok (checkInputBuffer1 m size) := scanBuffer_memory _ m size

theorem scanBuffer3_memory (m : ℕ → Byte) (size : ℕ) :
    scanBuffer3 (fun i => .ok (m i)) size = .ok (checkInputBuffer3 m size) := scanBuffer_memory _ m size

theorem scanBuffer2_memory (m : ℕ → Byte) (size : ℕ) :
    scanBuffer2 (fun i => .ok (m i)) size = .ok (checkInputBuffer2 m size) := by
  by_cases hzero : terminator m size = 0
  · unfold scanBuffer2
    rw [terminator_eq, checkInputBuffer2, hzero]
    rfl
  · have hfound : ∃ i, 0 < i ∧ i ≤ size ∧ m i = 0 := by
      by_contra hnone
      push Not at hnone
      have hscan := terminator_eq m size
      rw [seekZero_none (reading_memory m _) fun j hj hle => hnone j hj (by omega)] at hscan
      exact hzero (Except.ok.inj hscan).symm
    obtain ⟨i, hi, hle, hm⟩ := hfound
    obtain ⟨length, -, h⟩ := exists_firstZero hi hle hm
    exact scanBuffer2_found (reading_memory m _) h

/-! ### The words of the grammars -/

theorem FirstZero.unique {length' : ℕ} (h : FirstZero m size length) (h' : FirstZero m size length') :
    length = length' := h.terminator_eq.symm.trans h'.terminator_eq

theorem Field.firstZero {G : List Byte → Prop} (h : Field G m size length) : FirstZero m size length :=
  ⟨h.pos, Nat.le_of_lt h.lt, h.zero, fun j _ hj => h.nonzero j hj⟩

theorem mem_slice {i n : ℕ} {c : Byte} : c ∈ slice m i n ↔ ∃ j < n, m (i + j) = c := by simp [slice]

theorem keyChar_ne_zero {c : Byte} (h : KeyChar c) : c ≠ 0 := by
  rintro rfl
  simp [KeyChar, Letter, Digit, Separator] at h

theorem KeyWord.nonzero {l : List Byte} (h : KeyWord l) : 0 ∉ l := fun hz => keyChar_ne_zero (h 0 hz) rfl

theorem PatternWord.nonzero {l : List Byte} (h : PatternWord l) : 0 ∉ l := fun hz =>
  (h 0 hz).elim (fun hk => keyChar_ne_zero hk rfl) (by simp [GlobChar])

theorem NameWord.nonzero {l : List Byte} (h : NameWord l) : 0 ∉ l := fun hz => by
  obtain ⟨c, hc, hfirst⟩ := h.first
  obtain ⟨rest, rfl⟩ := List.head?_eq_some_iff.mp hc
  rcases List.mem_cons.mp hz with rfl | hz
  · simp [Letter] at hfirst
  · exact keyChar_ne_zero (h.chars 0 hz) rfl

/-- With a zero byte within the buffer the result is right if the characters are judged by
the grammar. -/
theorem validates_found {G : List Byte → Prop} (hG : ∀ l, G l → 0 ∉ l) (h : FirstZero m size length)
    (hlt : length < size) (accepts : Bool) :
    Validates G m size (.ok (if accepts then length else 0)) ↔ (accepts = true ↔ G (slice m 0 length)) := by
  constructor
  · rintro ⟨n, hn, hsound, hcomplete⟩
    obtain rfl := Except.ok.inj hn
    constructor
    · intro ha
      rw [if_pos ha] at hsound
      exact (hsound (Nat.ne_of_gt h.pos)).grammar
    · intro hg
      have hfield : Field G m size length := ⟨h.pos, hlt, h.zero, fun i hi hm =>
        hG _ hg (mem_slice.mpr ⟨i, hi, by rwa [Nat.zero_add]⟩), hg⟩
      by_contra ha
      have hn := hcomplete length hfield
      rw [if_neg ha] at hn
      exact absurd h.pos (by omega)
  · intro hiff
    refine ⟨_, rfl, fun hn => ?_, fun n hfield => ?_⟩
    · have ha : accepts = true := by
        by_contra ha
        exact hn (if_neg ha)
      rw [if_pos ha]
      exact ⟨h.pos, hlt, h.zero, fun i hi hm =>
        hG _ (hiff.mp ha) (mem_slice.mpr ⟨i, hi, by rwa [Nat.zero_add]⟩), hiff.mp ha⟩
    · obtain rfl := h.unique hfield.firstZero
      exact if_pos (hiff.mpr hfield.grammar)

theorem checkMiddle_iff (c : Byte) (l : List Byte) : checkMiddle (isExtra1 c) l = true ↔
    (∀ d ∈ l, KeyChar d) ∧ (c :: l).IsChain fun c d => ¬(Separator c ∧ Separator d) := by
  induction l generalizing c with
  | nil => simp [checkMiddle]
  | cons d l ih =>
    rw [checkMiddle, Bool.and_eq_true, Bool.and_eq_true, ih, keyChar_iff, List.isChain_cons_cons,
      List.forall_mem_cons,
      ← isExtra1_iff, ← isExtra1_iff]
    cases isExtra1 c <;> cases isExtra1 d <;> simp [and_assoc]

theorem nameWord_cons {c : Byte} {l : List Byte} : NameWord (c :: l) ↔ (Letter c ∨ c = 95 ∨ c = 46) ∧
    (∀ d ∈ l, KeyChar d) ∧ (c :: l).IsChain fun c d => ¬(Separator c ∧ Separator d) :=
  ⟨fun h => ⟨by simpa using h.first, h.chars, h.apart⟩, fun h => ⟨⟨c, rfl, h.1⟩, h.2.1, h.2.2⟩⟩

theorem NameWord.of_append {l l' : List Byte} (hl : l ≠ []) (h : NameWord (l ++ l')) : NameWord l := by
  obtain ⟨c, l, rfl⟩ := List.exists_cons_of_ne_nil hl
  obtain ⟨hfirst, hchars, hapart⟩ := nameWord_cons.mp h
  have hapart : ((c :: l) ++ l').IsChain fun c d => ¬(Separator c ∧ Separator d) := hapart
  exact nameWord_cons.mpr ⟨hfirst, fun d hd => hchars d (List.mem_append_left _ hd), hapart.left_of_append⟩

/-- The second validator judges the name without its last character. -/
theorem checkInputBuffer2_eq (h : FirstZero m size length) : ∃ accepts : Bool,
    checkInputBuffer2 m size = (if accepts then length else 0) ∧
      (accepts = true ↔ NameWord (slice m 0 (max 1 (length - 1)))) := by
  have hpos := h.pos
  have hslice : slice m 0 (max 1 (length - 1)) = m 0 :: slice m 1 (length - 2) := by
    rw [show max 1 (length - 1) = 1 + (length - 2) by omega, slice_append]
    rfl
  refine ⟨(isAlpha (m 0) || m 0 == 95 || m 0 == 46) &&
    checkMiddle (m 0 == 95 || m 0 == 46) (slice m 1 (length - 2)), ?_, ?_⟩
  · rw [checkInputBuffer2, h.terminator_eq]
    rw [if_neg (Nat.ne_of_gt h.pos)]
    cases isAlpha (m 0) <;> cases hu : m 0 == 95 <;> cases hd : m 0 == 46 <;> simp [bne, hu, hd]
  · rw [hslice, nameWord_cons, Bool.and_eq_true]
    have hfirst : (isAlpha (m 0) || m 0 == 95 || m 0 == 46) = true ↔ Letter (m 0) ∨ m 0 = 95 ∨ m 0 = 46 := by
      simp only [Bool.or_eq_true, isAlpha_iff, beq_iff_eq, or_assoc]
    rw [hfirst]
    refine and_congr_right fun hf => ?_
    have hextra : (m 0 == 95 || m 0 == 46) = isExtra1 (m 0) := by
      have hne : (m 0 == 45) = false := beq_false_of_ne fun he => by simp [he, Letter] at hf
      rw [isExtra1, hne, Bool.or_false]
    rw [hextra, checkMiddle_iff]

/-! ### When the validators accept their grammars -/

/-- Some byte within the buffer behind the first one is zero. -/
def Closed (m : ℕ → Byte) (size : ℕ) : Prop := size = 0 ∨ ∃ i, 0 < i ∧ i < size ∧ m i = 0

/-- A name goes on to its last character as the grammar asks. -/
def LastFits (m : ℕ → Byte) (size : ℕ) : Prop :=
  ∀ length, 1 < length → length < size → m length = 0 → (∀ i, 0 < i → i < length → m i ≠ 0) →
    NameWord (slice m 0 (length - 1)) → NameWord (slice m 0 length)

theorem validates_empty {G : List Byte → Prop} : Validates G m 0 (.ok 0) :=
  ⟨0, rfl, fun h => absurd rfl h, fun _ h => absurd h.lt (Nat.not_lt_zero _)⟩

theorem not_validates_overread {G : List Byte → Prop} : ¬Validates G m size (.error .overread) := by
  rintro ⟨n, hn, -⟩
  cases hn

theorem scanBuffer_validates {G : List Byte → Prop} {ok : Byte → Bool} (hG : ∀ l, G l ↔ l.all ok = true)
    (hzero : ∀ l, G l → 0 ∉ l) : Validates G m size (scanBuffer ok (bounded m size) size) ↔
      Closed m size := by
  rcases Nat.eq_zero_or_pos size with rfl | hsize
  · exact ⟨fun _ => .inl rfl, fun _ => validates_empty⟩
  · by_cases hex : ∃ i, 0 < i ∧ i < size ∧ m i = 0
    · obtain ⟨i, hi, hlt, hm⟩ := hex
      obtain ⟨length, hle, h⟩ := exists_firstZero hi (Nat.le_of_lt hlt) hm
      rw [scanBuffer_found ok ((reading_bounded m size).mono (by omega)) h,
        validates_found hzero h (by omega)]
      exact ⟨fun _ => .inr ⟨i, hi, hlt, hm⟩, fun _ => (hG _).symm⟩
    · have hover : scanBuffer ok (bounded m size) size = .error .overread := by
        unfold scanBuffer
        rw [seekZero_overread (Nat.zero_add size) hsize fun j hj hlt hm => hex ⟨j, hj, hlt, hm⟩]
        rfl
      rw [hover]
      exact ⟨fun h => absurd h not_validates_overread, fun h => absurd (h.resolve_left (by omega)) hex⟩

theorem scanBuffer2_validates : Validates NameWord m size (scanBuffer2 (bounded m size) size) ↔
    Closed m size ∧ LastFits m size := by
  rcases Nat.eq_zero_or_pos size with rfl | hsize
  · exact ⟨fun _ => ⟨.inl rfl, fun _ _ h => absurd h (Nat.not_lt_zero _)⟩, fun _ => validates_empty⟩
  · by_cases hex : ∃ i, 0 < i ∧ i < size ∧ m i = 0
    · obtain ⟨i, hi, hlt, hm⟩ := hex
      obtain ⟨length, hle, h⟩ := exists_firstZero hi (Nat.le_of_lt hlt) hm
      obtain ⟨accepts, hresult, haccepts⟩ := checkInputBuffer2_eq h
      rw [scanBuffer2_found ((reading_bounded m size).mono (by omega)) h, hresult,
        validates_found (fun _ => NameWord.nonzero) h (by omega), haccepts]
      constructor
      · refine fun hiff => ⟨.inr ⟨i, hi, hlt, hm⟩, fun n hn hnlt hnm hnz hname => ?_⟩
        obtain rfl := h.unique ⟨by omega, Nat.le_of_lt hnlt, hnm, hnz⟩
        rw [show max 1 (length - 1) = length - 1 by omega] at hiff
        exact hiff.mp hname
      · rintro ⟨-, hlast⟩
        have hsplit : slice m 0 length = slice m 0 (max 1 (length - 1)) ++
            slice m (max 1 (length - 1)) (length - max 1 (length - 1)) := by
          have hpos := h.pos
          have happ := slice_append m 0 (max 1 (length - 1)) (length - max 1 (length - 1))
          rwa [Nat.zero_add, show max 1 (length - 1) + (length - max 1 (length - 1)) =
            length by omega] at happ
        refine ⟨fun hname => ?_, fun hname => ?_⟩
        · rcases Nat.lt_or_ge 1 length with hone | hone
          · rw [show max 1 (length - 1) = length - 1 by omega] at hname
            exact hlast length hone (by omega) h.zero h.nonzero hname
          · have := h.pos
            rwa [show max 1 (length - 1) = length by omega] at hname
        · rw [hsplit] at hname
          exact hname.of_append (List.ne_nil_of_length_pos (by rw [length_slice]; omega))
    · have hover : scanBuffer2 (bounded m size) size = .error .overread := by
        unfold scanBuffer2
        rw [seekZero_overread (Nat.zero_add size) hsize fun j hj hlt hm => hex ⟨j, hj, hlt, hm⟩]
        rfl
      rw [hover]
      exact ⟨fun h => absurd h not_validates_overread, fun h => absurd (h.1.resolve_left (by omega)) hex⟩

/-- The validators read within their buffer and accept exactly their grammars when a zero
byte ends the field within it, and the last character of a name is one of its grammar. -/
theorem validators_exact (m : ℕ → Byte) (size : ℕ) :
    (Validates KeyWord m size (scanBuffer1 (bounded m size) size) ↔ Closed m size) ∧
    (Validates NameWord m size (scanBuffer2 (bounded m size) size) ↔ Closed m size ∧ LastFits m size) ∧
    (Validates PatternWord m size (scanBuffer3 (bounded m size) size) ↔ Closed m size) := by
  refine ⟨scanBuffer_validates (fun l => ?_) fun _ => KeyWord.nonzero, scanBuffer2_validates,
    scanBuffer_validates (fun l => ?_) fun _ => PatternWord.nonzero⟩
  · simp only [List.all_eq_true, keyChar_iff]
    rfl
  · simp only [List.all_eq_true, patternChar_iff]
    rfl

/-- 64 letters in front of the zero byte behind the field, and a name that ends in a star. -/
theorem not_validates_names :
    ¬Validates NameWord (ofList (List.replicate 64 97)) 64
      (scanBuffer2 (bounded (ofList (List.replicate 64 97)) 64) 64) ∧
    ¬Validates NameWord (ofList [97, 42]) 64 (scanBuffer2 (bounded (ofList [97, 42]) 64) 64) := by
  constructor
  · rw [scanBuffer2_validates]
    rintro ⟨hclosed, -⟩
    obtain ⟨i, -, hi, hm⟩ := hclosed.resolve_left (by decide)
    have hletters : ∀ i < 64, ofList (List.replicate 64 97) i ≠ 0 := by decide
    exact hletters i hi hm
  · rw [scanBuffer2_validates]
    rintro ⟨-, hlast⟩
    have hnonzero : ∀ i, 0 < i → i < 2 → ofList [97, 42] i ≠ 0 := fun i hi hlt => by
      obtain rfl : i = 1 := by omega
      decide
    have hname := hlast 2 (by decide) (by decide) rfl hnonzero
      (nameWord_cons.mpr ⟨.inl (by simp [ofList, Letter]), by simp, by simp⟩)
    have hchar := hname.chars 42 (by simp [slice, ofList, List.range_succ])
    simp [KeyChar, Letter, Digit, Separator] at hchar

end Validators

end EagleMQ
