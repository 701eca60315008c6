import Mathlib.Data.Nat.Bitwise
import Mathlib.Tactic.Common

/-! Memory words, the faults of the C code, and the constants of the wire
protocol. Multi-byte fields are little-endian and packed. -/

namespace EagleMQ

/-- What stops the program where C has undefined behaviour, and where a counter
of the code leaves the range in which it counts. -/
inductive Fault where
  /-- `memcpy` reads past the end of its source buffer. -/
  | overread
  /-- `memcpy` writes past the end of its destination buffer. -/
  | overflow
  /-- An `Object` is used after `release_object`. -/
  | object
  /-- A `Message` is used after `release_message`. -/
  | message
  /-- A node of a message queue or expiry list is used after it was freed. -/
  | node
  /-- A node of a list or keylist is used that was freed or was never there. -/
  | link
  /-- A client, queue, route or channel is used after it was freed. -/
  | record
  /-- A null pointer is followed. -/
  | null
  /-- A destructor calls itself without end. -/
  | depth
  /-- The loop of the glob matcher does not end. -/
  | spin
  /-- The 32-bit reference counter of an object wraps around. -/
  | wrap
  /-- A value is read that nothing initialised. -/
  | uninit
  deriving DecidableEq, Repr

abbrev Byte := UInt8

/-- `n` bytes of memory from address `i` on. -/
def slice (m : ℕ → Byte) (i n : ℕ) : List Byte := (List.range n).map fun j => m (i + j)

/-- Memory whose first bytes are those of a list. -/
def ofList (b : List Byte) : ℕ → Byte := fun i => b.getD i 0

def u16 (m : ℕ → Byte) (i : ℕ) : ℕ := (m i).toNat + 256 * (m (i + 1)).toNat

def u32 (m : ℕ → Byte) (i : ℕ) : ℕ := u16 m i + 65536 * u16 m (i + 2)

def u64 (m : ℕ → Byte) (i : ℕ) : ℕ := u32 m i + 4294967296 * u32 m (i + 4)

/-- The little-endian bytes of an `n`-byte field. -/
def leBytes : ℕ → ℕ → List Byte
  | 0, _ => []
  | n + 1, v => UInt8.ofNat v :: leBytes n (v / 256)

/-- `BIT_CHECK`. -/
def bitCheck (a b : ℕ) : Bool := a.testBit b

@[simp] theorem length_slice (m : ℕ → Byte) (i n : ℕ) : (slice m i n).length = n := by
  simp [slice]

@[simp] theorem length_leBytes (n v : ℕ) : (leBytes n v).length = n := by
  induction n generalizing v with
  | zero => rfl
  | succ n ih => simp [leBytes, ih]

theorem slice_append (m : ℕ → Byte) (i n k : ℕ) :
    slice m i (n + k) = slice m i n ++ slice m (i + n) k := by
  simp [slice, List.range_add, Nat.add_assoc]

theorem getD_slice (m : ℕ → Byte) {i n j : ℕ} (h : j < n) : (slice m i n).getD j 0 = m (i + j) := by
  simp [slice, List.getD, List.getElem?_range h]

/-! ### Sizes -/

def bufSize : ℕ := 32768

def maxBufSize : ℕ := 2147483647

def maxMsgSize : ℕ := 2147483647

/-- `sizeof(ProtocolRequestHeader)`, and of the response and event headers. -/
def headerSize : ℕ := 8

def protocolReq : ℕ := 0x70

def protocolRes : ℕ := 0x80

def protocolEvent : ℕ := 0x90

end EagleMQ
