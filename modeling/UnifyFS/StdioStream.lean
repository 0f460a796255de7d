import UnifyFS.ReturnCodes

/-!
# Buffered streams

Embedding of the write side of `client/src/unifyfs-stdio.c`: parsing of the
`fopen` mode, the initial stream, `setvbuf`, `unifyfs_stream_flush`,
`unifyfs_stream_write` with its three buffering types, and the `fwrite`,
`fflush` and `ftell` wrappers. Reading, seeking and `ungetc` are not modelled;
of the push-back buffer only its length is kept, because a write drops it.

The layer below (`unifyfs_fd_write`, `unifyfs_fid_sync_extents`,
`unifyfs_fid_logical_size`) is a parameter with a state of its own. A stream
buffer is modelled by the bytes in use, so `buflen` is the length of `buf`; a
missing buffer is a separate flag. Each turn of the write loop that copies no
byte flushes a full buffer first, so with a buffer of at least one byte the fuel
of the loop is not used up; a loop that never ends has no result.
-/
namespace UnifyFS.StdioStream

def maxOfft : ℤ := 2 ^ 63 - 1

def minOfft : ℤ := -2 ^ 63

def wouldOverflowOfft (a b : ℤ) : Bool :=
  if a > 0 ∧ b > 0 then !decide (maxOfft - a ≥ b)
  else if a < 0 ∧ b < 0 then !decide (minOfft - a ≤ b)
  else false

/-- The operations on the file behind a stream, over their own state. -/
structure Lower (σ : Type) where
  fdWrite : σ → ℤ → List UInt8 → Rc × ℕ × σ
  fidSyncExtents : σ → Rc × σ
  /-- `-1` when the size could not be looked up. -/
  fidLogicalSize : σ → ℤ × σ

inductive BufType where
  | fbf
  | lbf
  | nbf
  deriving DecidableEq, Repr

structure OpenMode where
  read : Bool
  write : Bool
  append : Bool
  plus : Bool
  deriving DecidableEq, Repr

/-- Everything after the first character of an `fopen` mode. -/
def parsePlus : List Char → Except Rc Bool
  | [] => .ok false
  | ['+'] => .ok true
  | ['+',third] => if third = 'b' then .ok true else .error Rc.einval
  | ['b'] => .ok false
  | ['b',third] => if third = '+' then .ok true else .error Rc.einval
  | _ => .error Rc.einval

def fopenParseMode : List Char → Except Rc OpenMode
  | [] => .error Rc.einval
  | first :: rest =>
    if rest.length > 2 then .error Rc.einval
    else if first = 'r' then (parsePlus rest).map fun plus => ⟨true,false,false,plus⟩
    else if first = 'w' then (parsePlus rest).map fun plus => ⟨false,true,false,plus⟩
    else if first = 'a' then (parsePlus rest).map fun plus => ⟨false,false,true,plus⟩
    else .error Rc.einval

/-- A stream with its file descriptor, which holds the position and the access
mode. -/
structure Stream where
  err : Bool
  errno : Rc
  append : Bool
  hasBuf : Bool
  buftype : BufType
  bufsize : ℕ
  bufpos : ℤ
  buf : List UInt8
  bufdirty : Bool
  ubuflen : ℕ
  fdCanWrite : Bool
  pos : ℤ
  deriving DecidableEq, Repr

def clientStreamBufsize : ℕ := 1048576

section Ops
variable {σ : Type} (L : Lower σ)

/-- The start position that `unifyfs_fid_open` returns: the end of the file with
`O_APPEND`, which `unifyfs_fopen` passes for `a` but not for `a+`. -/
def fopenPos (m : OpenMode) (fs : σ) : ℤ × σ :=
  if m.append && !m.plus then L.fidLogicalSize fs else (0,fs)

/-- The stream that `unifyfs_fopen` sets up once the file is open. -/
def fopenStream (m : OpenMode) (pos : ℤ) : Stream where
  err := false
  errno := 0
  append := m.append
  hasBuf := false
  buftype := .fbf
  bufsize := 0
  bufpos := 0
  buf := []
  bufdirty := false
  ubuflen := 0
  fdCanWrite := m.write || m.plus || m.append
  pos := pos

/-- `unifyfs_fopen` when the file can be opened and stream and descriptor slots are
left. -/
def unifyfsFopen (mode : List Char) (fs : σ) : Except Rc (Stream × σ) :=
  match fopenParseMode mode with
  | .error rc => .error rc
  | .ok m =>
    let (pos,fs) := fopenPos L m fs
    .ok (fopenStream m pos,fs)

def setvbuf (s : Stream) (type : BufType) (size : ℕ) : Except Rc Stream :=
  if s.hasBuf then .error Rc.ebadf
  else if size = 0 then .error Rc.einval
  else .ok { s with
    hasBuf := true, buftype := type, bufsize := size, bufpos := 0, buf := [], bufdirty := false }

def Stream.fail (s : Stream) (rc : Rc) : Stream := { s with err := true, errno := rc.errno }

def streamFlush (s : Stream) (fs : σ) : Rc × Stream × σ :=
  if s.hasBuf && s.bufdirty then
    let (rc,_,fs) := L.fdWrite fs s.bufpos s.buf
    if rc ≠ Rc.success then (rc,s.fail rc,fs)
    else
      let (rc,fs) := L.fidSyncExtents fs
      if rc ≠ Rc.success then (rc,s.fail rc,fs)
      else (Rc.success,{ s with bufdirty := false },fs)
  else (Rc.success,s,fs)

/-- Bytes up to and including the first newline, and whether there is one. -/
def lineBytes : List UInt8 → ℕ × Bool
  | [] => (0,false)
  | c :: cs => if c = 10 then (1,true) else ((lineBytes cs).1 + 1,(lineBytes cs).2)

/-- How many bytes the next turn copies and whether it flushes after that; an
overlong line is an error. -/
def nextBytes (s : Stream) (remaining : List UInt8) : Option (ℕ × Bool) :=
  let streamRemaining := s.bufsize - s.buf.length
  match s.buftype with
  | .lbf =>
    let (bytes,needFlush) := lineBytes remaining
    if bytes > streamRemaining ∨ (bytes = streamRemaining ∧ needFlush = false) then none
    else some (bytes,needFlush)
  | _ =>
    if remaining.length ≥ streamRemaining then some (streamRemaining,true)
    else some (remaining.length,false)

/-- A clean buffer starts over at the current position. -/
def Stream.startBuffer (s : Stream) (current : ℤ) : Stream :=
  if s.bufdirty then s else { s with bufpos := current, buf := [] }

def Stream.copyIn (s : Stream) (data : List UInt8) : Stream :=
  if data.length > 0 then { s with bufdirty := true, buf := s.buf ++ data } else s

/-- The loop of `unifyfs_stream_write`; on success the last component is the new
position. -/
def writeLoop : ℕ → Stream → σ → ℤ → List UInt8 → Option (Rc × Stream × σ × ℤ)
  | 0, _, _, _, _ => none
  | fuel + 1, s, fs, current, remaining =>
    if remaining.length > 0 then
      let s := s.startBuffer current
      match nextBytes s remaining with
      | none => some (Rc.enomem,s.fail Rc.enomem,fs,current)
      | some (bytes,needFlush) =>
        let s := s.copyIn (remaining.take bytes)
        if needFlush then
          let (rc,s,fs) := streamFlush L s fs
          if rc ≠ Rc.success then some (rc,s,fs,current)
          else writeLoop fuel s fs (current + bytes) (remaining.drop bytes)
        else writeLoop fuel s fs (current + bytes) (remaining.drop bytes)
    else some (Rc.success,s,fs,current)

/-- Where a write starts: the logical size of the file in append mode, else the
file position. -/
def writeStart (s : Stream) (fs : σ) (count : ℕ) : ℤ × Stream × σ :=
  if s.append then
    let (size,fs) := L.fidLogicalSize fs
    (size,{ s with ubuflen := 0 },fs)
  else (s.pos,{ s with ubuflen := s.ubuflen - count },fs)

def ensureBuffer (s : Stream) : Except Rc Stream :=
  if s.hasBuf then .ok s else setvbuf s s.buftype clientStreamBufsize

def streamWrite (s : Stream) (fs : σ) (data : List UInt8) : Option (Rc × Stream × σ) :=
  if s.fdCanWrite = false then some (Rc.ebadf,s.fail Rc.ebadf,fs)
  else
    let (current,s,fs) := writeStart L s fs data.length
    if wouldOverflowOfft current data.length then some (Rc.efbig,s.fail Rc.efbig,fs)
    else
      match ensureBuffer s with
      | .error rc => some (rc,s.fail rc,fs)
      | .ok s =>
        if s.buftype = .nbf then
          let (rc,nwritten,fs) := L.fdWrite fs current data
          if rc ≠ Rc.success then some (rc,s.fail rc,fs)
          else some (Rc.success,{ s with pos := current + nwritten },fs)
        else
          (writeLoop L (2 * data.length + 2) s fs current data).map fun (rc,s,fs,current) =>
            if rc ≠ Rc.success then (rc,s,fs) else (Rc.success,{ s with pos := current },fs)

/-- The memory that `ptr` points to holds `size * nitems` bytes. -/
structure WriteArgs where
  size : ℕ
  nitems : ℕ
  ptr : List UInt8
  length_eq : ptr.length = size * nitems
  deriving DecidableEq, Repr

def fwrite (s : Stream) (fs : σ) (w : WriteArgs) : Option (ℕ × Stream × σ) :=
  if w.size = 0 ∨ w.nitems = 0 then some (0,s,fs)
  else (streamWrite L s fs w.ptr).map fun (rc,s,fs) =>
    if rc ≠ Rc.success then (0,s,fs) else (w.nitems,{ s with errno := 0 },fs)

/-- The return value is `true` for `EOF`. -/
def fflush (s : Stream) (fs : σ) : Bool × Stream × σ :=
  let (rc,s,fs) := streamFlush L s fs
  if rc ≠ Rc.success then (true,s,fs) else (false,{ s with errno := 0 },fs)

def ftell (s : Stream) : ℤ := s.pos

end Ops
end UnifyFS.StdioStream
