import UnifyFS.StdioStream

/-!
# Reading and seeking on buffered streams

The rest of `client/src/unifyfs-stdio.c` that `fread` and `fseek` need:
`unifyfs_stream_read`, which copies from the stream buffer and fills it again from the file, and
`unifyfs_fseek`, which flushes before it moves the position. The buffer is the one that writes
use, and a buffer with data to be written is flushed before it is filled.

The push-back buffer is kept as a whole; `ubuflen` bytes at its end are pushed back. The pointers
for `refill` are left out. A read of the file that fails leaves the bytes in the stream buffer as
they are.
-/
namespace UnifyFS.StdioUpdates
open StdioStream

structure FileLower (σ : Type) extends Lower σ where
  fdRead : σ → ℤ → ℕ → Rc × List UInt8 × σ

structure FileStream extends Stream where
  eof : Bool
  fdCanRead : Bool
  ubuf : List UInt8
  deriving DecidableEq, Repr

inductive Whence where
  | set
  | cur
  | fromEnd
  deriving DecidableEq, Repr

section Ops
variable {σ : Type} (L : FileLower σ)

/-- What was read becomes the buffer. The last component tells of a short read. -/
def recordRead (s : FileStream) (current : ℤ) :
    Rc × List UInt8 × σ → Rc × FileStream × σ × Bool
  | (rc,bytes,fs) =>
    if rc ≠ Rc.success then (Rc.eio,{ s with toStream := s.fail rc.errno },fs,false)
    else (Rc.success,{ s with bufpos := current, buf := bytes },fs,
      decide (bytes.length < s.bufsize))

/-- The current position is in the stream buffer afterwards, unless the file has no data
there. -/
def fillBuffer (s : FileStream) (fs : σ) (current : ℤ) : Rc × FileStream × σ × Bool :=
  if current < s.bufpos ∨ s.bufpos + s.buf.length ≤ current then
    let (rc,t,fs) := streamFlush L.toLower s.toStream fs
    if rc ≠ Rc.success then (rc,{ s with toStream := t },fs,false)
    else recordRead { s with toStream := t } current (L.fdRead fs current t.bufsize)
  else (Rc.success,s,fs,false)

/-- The bytes that one turn copies to the user. -/
def FileStream.buffered (s : FileStream) (current : ℤ) (remaining : ℕ) : List UInt8 :=
  (s.buf.drop (current - s.bufpos).toNat).take remaining

/-- The loop of `unifyfs_stream_read`, with the bytes that the user has got so far. -/
def readLoop : ℕ → FileStream → σ → ℤ → ℕ → List UInt8 → Option (Rc × FileStream × σ × List UInt8)
  | 0, _, _, _, _, _ => none
  | fuel + 1, s, fs, current, remaining, got =>
    if remaining > 0 then
      let (rc,s,fs,eof) := fillBuffer L s fs current
      if rc ≠ Rc.success then some (rc,s,fs,got)
      else
        let bytes := s.buffered current remaining
        if eof then some (Rc.success,s,fs,got ++ bytes)
        else readLoop fuel s fs (current + bytes.length) (remaining - bytes.length) (got ++ bytes)
    else some (Rc.success,s,fs,got)

/-- The end of the push-back buffer is taken first. -/
def FileStream.pushedBack (s : FileStream) (count : ℕ) : List UInt8 :=
  (s.ubuf.drop (s.ubuf.length - s.ubuflen)).take count

/-- The position moves, and a short count sets the end-of-file indicator. -/
def finishRead (count : ℕ) : Rc × FileStream × σ × List UInt8 → Rc × FileStream × σ × List UInt8
  | (rc,s,fs,got) =>
    if rc ≠ Rc.success then (rc,s,fs,got)
    else (Rc.success,
      { s with pos := s.pos + got.length, eof := s.eof || decide (got.length < count) },fs,got)

/-- `unifyfs_stream_read` once the stream has a buffer. -/
def readBuffered (s : FileStream) (fs : σ) (count : ℕ) :
    Option (Rc × FileStream × σ × List UInt8) :=
  if s.eof then some (Rc.failure,s,fs,[])
  else if wouldOverflowOfft s.pos count then
    some (Rc.eoverflow,{ s with toStream := s.fail Rc.eoverflow },fs,[])
  else
    let pushed := s.pushedBack count
    (readLoop L (count + 1) { s with ubuflen := s.ubuflen - pushed.length } fs
      (s.pos + pushed.length) (count - pushed.length) pushed).map (finishRead count)

def streamRead (s : FileStream) (fs : σ) (count : ℕ) :
    Option (Rc × FileStream × σ × List UInt8) :=
  if s.fdCanRead = false then some (Rc.ebadf,{ s with toStream := s.fail Rc.ebadf },fs,[])
  else
    match ensureBuffer s.toStream with
    | .error rc => some (rc,{ s with toStream := s.fail rc.errno },fs,[])
    | .ok t => readBuffered L { s with toStream := t } fs count

/-- The number of items and the bytes that the user gets. -/
def fread (s : FileStream) (fs : σ) (size nitems : ℕ) :
    Option (ℕ × List UInt8 × FileStream × σ) :=
  if size = 0 ∨ nitems = 0 then some (0,[],s,fs)
  else
    (streamRead L s fs (size * nitems)).map fun (rc,s,fs,got) =>
      if rc ≠ Rc.success then (0,got,s,fs)
      else (if got.length < size * nitems then got.length / size else nitems,got,
        { s with errno := 0 },fs)

def FileStream.fwrite (s : FileStream) (fs : σ) (w : WriteArgs) : Option (ℕ × FileStream × σ) :=
  (StdioStream.fwrite L.toLower s.toStream fs w).map fun (n,t,fs) => (n,{ s with toStream := t },fs)

def FileStream.fflush (s : FileStream) (fs : σ) : Bool × FileStream × σ :=
  let (eof,t,fs) := StdioStream.fflush L.toLower s.toStream fs
  (eof,{ s with toStream := t },fs)

/-- The position that a seek starts from. -/
def seekBase (s : FileStream) (fs : σ) : Whence → ℤ × σ
  | .set => (0,fs)
  | .cur => (s.pos,fs)
  | .fromEnd => L.fidLogicalSize fs

/-- `unifyfs_fseek`. The return value is `true` for -1. -/
def fseek (s : FileStream) (fs : σ) (offset : ℤ) (whence : Whence) : Bool × FileStream × σ :=
  let (rc,t,fs) := streamFlush L.toLower s.toStream fs
  let s := { s with toStream := t }
  if rc ≠ Rc.success then (true,s,fs)
  else
    let (base,fs) := seekBase L s fs whence
    if whence ≠ .set ∧ wouldOverflowOfft base offset = true then
      (true,{ s with toStream := s.fail Rc.eoverflow },fs)
    else if base + offset < 0 then (true,{ s with errno := Rc.einval },fs)
    else (false,{ s with ubuflen := 0, pos := base + offset, eof := false, errno := 0 },fs)

end Ops
end UnifyFS.StdioUpdates
