import EagleMQ.Protocol

/-! The request framer of a connection: `read_request` fills the read buffer from
index 0 and `process_request` cuts it into frames, carrying an unfinished frame
over to the next read. A dispatch is recorded with the bytes that the handler
finds in `request[0, pos)`. Every handler but that of `disconnect` leaves these
fields alone; that one frees the client, and what `process_request` still reads of
the freed memory, when more bytes of the same read follow, is left out. -/

namespace EagleMQ

/-- The receive side of `EagleClient`. The memory is total; `length` and
`bufSize` are the allocated sizes, and a copy beyond them is a fault. -/
structure Framer where
  request : ℕ → Byte
  length : ℕ
  pos : ℕ
  buffer : ℕ → Byte
  offset : ℕ
  bodylen : ℕ
  nread : ℕ

namespace Framer

/-- The receive side as `create_client` leaves it, in uninitialised memory. -/
def create (request buffer : ℕ → Byte) : Framer :=
  ⟨request, bufSize, 0, buffer, 0, 0, 0⟩

/-- `memcpy(request + dst, buffer + src, n)`. -/
def memcpy (f : Framer) (dst src n : ℕ) : Except Fault Framer :=
  if bufSize < src + n then .error .overread
  else if f.length < dst + n then .error .overflow
  else .ok { f with
    request := fun i => if dst ≤ i ∧ i < dst + n then f.buffer (src + (i - dst)) else f.request i }

/-- `xrealloc` to the largest frame when the body does not fit. -/
def grow (length bodylen : ℕ) : ℕ := if length < bodylen then maxBufSize else length

inductive Signal where
  /-- An `ERROR_PACKET` response and return. -/
  | packetError
  /-- Return with the frame unfinished. -/
  | wait
  /-- Go on to `parse_command`. -/
  | dispatch
  deriving DecidableEq, Repr

/-- The start of a frame: the branch of `process_request` with no body pending. -/
def startFrame (f : Framer) : Except Fault (Signal × Framer) :=
  if f.nread < headerSize then .ok (.packetError, f)
  else if bufSize < f.offset + headerSize then .error .overread
  else
    let magic := u16 f.buffer f.offset
    let bodylen := u32 f.buffer (f.offset + 4)
    if magic ≠ protocolReq then .ok (.packetError, { f with offset := 0, bodylen := 0 })
    else if maxBufSize < bodylen then .ok (.packetError, { f with offset := 0, bodylen := 0 })
    else
      let f := { f with length := grow f.length bodylen }
      let delta := f.nread - headerSize
      if delta = bodylen then do
        let f ← f.memcpy 0 f.offset f.nread
        .ok (.dispatch, { f with pos := f.nread, offset := 0, nread := 0 })
      else if delta < bodylen then do
        let f ← f.memcpy 0 f.offset f.nread
        .ok (.wait, { f with bodylen := bodylen - delta, pos := f.nread })
      else do
        let pos := bodylen + headerSize
        let f ← f.memcpy 0 f.offset pos
        .ok (.dispatch, { f with pos := pos, offset := f.offset + pos, nread := f.nread - pos })

/-- The rest of a frame: the branch with `bodylen` bytes pending. -/
def continueFrame (f : Framer) : Except Fault (Signal × Framer) :=
  if f.nread = f.bodylen then do
    let f ← f.memcpy f.pos 0 f.nread
    .ok (.dispatch, { f with pos := f.pos + f.nread, offset := 0, nread := 0, bodylen := 0 })
  else if f.nread < f.bodylen then do
    let f ← f.memcpy f.pos 0 f.nread
    .ok (.wait, { f with pos := f.pos + f.nread, bodylen := f.bodylen - f.nread, offset := 0 })
  else do
    let f ← f.memcpy f.pos 0 f.bodylen
    .ok (.dispatch, { f with
      pos := f.pos + f.bodylen, nread := f.nread - f.bodylen, offset := f.bodylen, bodylen := 0 })

/-- One pass from the label `process` to the dispatch. -/
def pass (f : Framer) : Except Fault (Signal × Framer) :=
  if f.bodylen = 0 then f.startFrame else f.continueFrame

/-- The bytes a handler sees: `request[0, pos)`. -/
def frame (f : Framer) : List Byte := slice f.request 0 f.pos

inductive Event where
  | command (frame : List Byte)
  | packetError
  deriving DecidableEq, Repr

/-- `goto process` while a header may be left. Every dispatch uses up at least
one of the `nread` bytes, so `nread + 1` turns are enough. -/
def processLoop : ℕ → Framer → Except Fault (List Event × Framer)
  | 0, f => .ok ([], f)
  | n + 1, f => do
    match ← f.pass with
    | (.packetError, f) => .ok ([.packetError], f)
    | (.wait, f) => .ok ([], f)
    | (.dispatch, f) =>
      if headerSize ≤ f.nread then do
        let (events, f') ← processLoop n f
        .ok (.command f.frame :: events, f')
      else .ok ([.command f.frame], f)

def processRequest (f : Framer) : Except Fault (List Event × Framer) :=
  processLoop (f.nread + 1) f

/-- A `read` of some bytes into the buffer. -/
def receive (f : Framer) (data : List Byte) : Framer :=
  { f with
    buffer := fun i => if i < data.length then data.getD i 0 else f.buffer i
    nread := data.length }

def readRequest (f : Framer) (data : List Byte) : Except Fault (List Event × Framer) :=
  (f.receive data).processRequest

/-- Successive reads. -/
def serve : List (List Byte) → Framer → Except Fault (List Event × Framer)
  | [], f => .ok ([], f)
  | data :: reads, f => do
    let (events, f) ← f.readRequest data
    let (more, f) ← serve reads f
    .ok (events ++ more, f)

end Framer

end EagleMQ
