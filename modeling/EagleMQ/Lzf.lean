import EagleMQ.Protocol
import EagleMQ.Lib.Prog
import EagleMQ.Lib.Window

/-! The vendored compressor as it is built here: `VERY_FAST`, `CHECK_INPUT`, offsets
in a hash table that nothing clears. The input is a list, and a read beyond it is a
fault, as is a write beyond the room for the output. -/

namespace EagleMQ

namespace Lzf

def maxLit : ℕ := 32

def maxOff : ℕ := 8192

def maxRef : ℕ := 264

def octet (data : List Byte) (i : ℕ) : Except Fault Byte :=
  match data[i]? with
  | some b => .ok b
  | none => .error .overread

/-! ### `lzf_compress` -/

/-- `op` is the end of `out`. The control byte of an open run is in `out` before it is written. -/
structure Packer where
  ip : ℕ
  out : List Byte
  lit : ℕ
  hval : UInt32
  htab : UInt32 → UInt32

/-- `none` is the return of 0. -/
abbrev PackM (α : Type) := Prog Packer (Option Fault) α

section Compress

variable (data : List Byte) (room : ℕ)

def fetch (i : ℕ) : PackM Byte := Prog.lift ((octet data i).mapError some)

def first (a b : Byte) : UInt32 := a.toUInt32 <<< 8 ||| b.toUInt32

def next (v : UInt32) (c : Byte) : UInt32 := v <<< 8 ||| c.toUInt32

def index (h : UInt32) : UInt32 := (h >>> 8 - h * 5) &&& 0xFFFF

/-- `hval = FRST (ip)`. -/
def hashFirst : PackM Unit := do
  let p ← get
  let a ← fetch data p.ip
  let b ← fetch data (p.ip + 1)
  set { p with hval := first a b }

/-- `hval = NEXT (hval, ip)`, and the slot of the table it leads to is set to `ip`; its old
value is returned. -/
def hashNext : PackM ℕ := do
  let p ← get
  let c ← fetch data (p.ip + 2)
  let hval := next p.hval c
  set { p with hval := hval, htab := Function.update p.htab (index hval) (UInt32.ofNat p.ip) }
  pure (p.htab (index hval)).toNat

/-- `*op++ = b`. -/
def put (b : Byte) : PackM Unit := do
  let p ← get
  if p.out.length < room then set { p with out := p.out ++ [b] }
  else throw (some .overflow)

/-- `lit = 0; op++`. -/
def startRun : PackM Unit := modify fun p => { p with lit := 0, out := p.out ++ [0] }

/-- `op [- lit - 1] = lit - 1`. -/
def stopRun : PackM Unit := do
  let p ← get
  if p.out.length - p.lit - 1 < room then
    set { p with out := p.out.set (p.out.length - p.lit - 1) (UInt8.ofNat (p.lit + 255)) }
  else throw (some .overflow)

/-- `op -= !lit`. -/
def undoRun : PackM Unit := modify fun p => if p.lit = 0 then { p with out := p.out.dropLast } else p

/-- One more literal byte. -/
def literal : PackM Unit := do
  let p ← get
  put room (← fetch data p.ip)
  modify fun q => { q with ip := p.ip + 1, lit := p.lit + 1 }
  if p.lit + 1 = maxLit then
    stopRun room
    startRun

/-- The condition of a match. `off` is unsigned, so that no `ref` from `ip` on is taken. -/
def matchesAt (ip ref : ℕ) : PackM Bool := do
  if ref < ip ∧ ip - ref - 1 < maxOff ∧ 0 < ref then
    if (← fetch data (ref + 2)) = (← fetch data (ip + 2)) then
      pure ((← fetch data ref) = (← fetch data ip) ∧ (← fetch data (ref + 1)) = (← fetch data (ip + 1)))
    else pure false
  else pure false

/-- `len++; if (ref [len] != ip [len]) break`, so many times; the flag says that it went through. -/
def unrolled (ip ref : ℕ) : ℕ → ℕ → PackM (Bool × ℕ)
  | 0, len => pure (true, len)
  | n + 1, len => do
    if (← fetch data (ref + (len + 1))) ≠ (← fetch data (ip + (len + 1))) then pure (false, len + 1)
    else unrolled ip ref n (len + 1)

/-- `do len++; while (len < maxlen && ref[len] == ip[len])`. -/
def scan (ip ref maxlen : ℕ) : ℕ → ℕ → PackM ℕ
  | 0, _ => throw (some .spin)
  | n + 1, len => do
    if len + 1 < maxlen then
      if (← fetch data (ref + (len + 1))) = (← fetch data (ip + (len + 1))) then scan ip ref maxlen n (len + 1)
      else pure (len + 1)
    else pure (len + 1)

def matchLength (ip ref maxlen : ℕ) : PackM ℕ := do
  if 16 < maxlen then
    let (through, len) ← unrolled data ip ref 16 2
    if through then scan data ip ref maxlen (maxlen + 1) len else pure len
  else scan data ip ref maxlen (maxlen + 1) 2

/-- The bytes of a back reference. -/
def putRef (off len : ℕ) : PackM Unit := do
  if len < 7 then put room (UInt8.ofNat (off >>> 8 + len <<< 5))
  else
    put room (UInt8.ofNat (off >>> 8 + 7 <<< 5))
    put room (UInt8.ofNat (len - 7))
  put room (UInt8.ofNat off)

/-- Of the positions in a match the last two get into the table. -/
def rehash (ip : ℕ) : PackM Unit := do
  modify fun p => { p with ip := ip - 2 }
  hashFirst data
  let _ ← hashNext data
  modify fun p => { p with ip := ip - 1 }
  let _ ← hashNext data
  modify fun p => { p with ip := ip }

/-- A match at `ref`. Where it ends less than three bytes before the end of the input the
loop is left. -/
def backref (ref : ℕ) : PackM Unit := do
  let p ← get
  let off := p.ip - ref - 1
  let maxlen := min (data.length - p.ip - 2) maxRef
  if room ≤ p.out.length + 3 + 1 ∧ room ≤ p.out.length - (if p.lit = 0 then 1 else 0) + 3 + 1 then throw none
  stopRun room
  undoRun
  let len := (← matchLength data p.ip ref maxlen) - 2
  putRef room off len
  startRun
  let ip := p.ip + 1 + (len + 1)
  modify fun q => { q with ip := ip }
  if ip + 2 < data.length then rehash data ip

def packStep : PackM Unit := do
  let ref ← hashNext data
  let p ← get
  if ← matchesAt data p.ip ref then backref data room ref
  else if room ≤ p.out.length then throw none
  else literal data room

def packLoop : ℕ → PackM Unit
  | 0 => throw (some .spin)
  | n + 1 => do
    if (← get).ip + 2 < data.length then
      packStep data room
      packLoop n

def tailLoop : ℕ → PackM Unit
  | 0 => throw (some .spin)
  | n + 1 => do
    if (← get).ip < data.length then
      literal data room
      tailLoop n

def pack : PackM Unit := do
  startRun
  hashFirst data
  packLoop data room (data.length + 1)
  if room < (← get).out.length + 3 then throw none
  tailLoop data room (data.length + 1)
  stopRun room
  undoRun

end Compress

/-! ### `lzf_decompress` -/

/-- The state is what has been written, also where 0 is returned. -/
abbrev UnpackM (α : Type) := Prog (List Byte) Fault α

section Decompress

variable (data : List Byte) (room : ℕ)

def emit (b : Byte) : UnpackM Unit := do
  if (← get).length < room then modify (· ++ [b])
  else throw .overflow

/-- `*op++ = *ip++`, so many times. -/
def literals : ℕ → ℕ → UnpackM Unit
  | 0, _ => pure ()
  | n + 1, ip => do
    emit room (← Prog.lift (octet data ip))
    literals n (ip + 1)

/-- `*op++ = *ref++`, so many times. -/
def octets : ℕ → ℕ → UnpackM Unit
  | 0, _ => pure ()
  | n + 1, ref => do
    emit room (← Prog.lift (octet (← get) ref))
    octets n (ref + 1)

def memcpy (ref n : ℕ) : UnpackM Unit := do
  let out ← get
  if out.length < ref + n then throw .overread
  else if room < out.length + n then throw .overflow
  else set (out ++ (out.drop ref).take n)

/-- The cases from 0 to 9 fall through to the two last octets. -/
def copyOctets (ref len : ℕ) : UnpackM Unit := do
  if 9 < len ∧ ref + (len + 2) ≤ (← get).length then memcpy room ref (len + 2)
  else octets room (len + 2) ref

/-- The length in a control byte and in the byte after it, and where the offset goes on. -/
def copyLength (ctrl ip : ℕ) : Except Fault (Option (ℕ × ℕ)) :=
  if data.length ≤ ip then .ok none
  else if ctrl >>> 5 = 7 then do
    let more ← octet data ip
    .ok (if data.length ≤ ip + 1 then none else some (7 + more.toNat, ip + 1))
  else .ok (some (ctrl >>> 5, ip))

/-- The end of a back reference; `none` is the return of 0. -/
def unpackCopy (ctrl len ip : ℕ) : UnpackM (Option ℕ) := do
  let low ← Prog.lift (octet data ip)
  let out ← get
  let back := (ctrl % 32) <<< 8 + 1 + low.toNat
  if room < out.length + len + 2 then pure none
  else if out.length < back then pure none
  else
    copyOctets room (out.length - back) len
    pure (some (ip + 1))

def unpackStep (ip : ℕ) : UnpackM (Option ℕ) := do
  let ctrl := (← Prog.lift (octet data ip)).toNat
  if ctrl < 32 then
    if room < (← get).length + (ctrl + 1) then pure none
    else if data.length < ip + 1 + (ctrl + 1) then pure none
    else
      literals data room (ctrl + 1) (ip + 1)
      pure (some (ip + 1 + (ctrl + 1)))
  else
    match ← Prog.lift (copyLength data ctrl (ip + 1)) with
    | none => pure none
    | some (len, ip) => unpackCopy data room ctrl len ip

/-- `do … while (ip < in_end)`. -/
def unpackLoop : ℕ → ℕ → UnpackM Bool
  | 0, _ => throw .spin
  | n + 1, ip => do
    match ← unpackStep data room ip with
    | none => pure false
    | some ip => if ip < data.length then unpackLoop n ip else pure true

end Decompress

end Lzf

/-- `lzf_compress` with what the stack holds where it puts its table. -/
def lzfCompress (htab : UInt32 → UInt32) (data : List Byte) (room : ℕ) : Except Fault (Option (List Byte)) :=
  if data = [] ∨ room = 0 then .ok none
  else
    match Lzf.pack data room ⟨0, [], 0, 0, htab⟩ with
    | .ok (_, p) => .ok (some p.out)
    | .error none => .ok none
    | .error (some e) => .error e

/-- `lzf_decompress`: whether it returns a length, and the bytes that it has written. -/
def lzfDecompress (data : List Byte) (room : ℕ) : Except Fault (Bool × List Byte) :=
  Lzf.unpackLoop data room (data.length + 1) 0 []

end EagleMQ
