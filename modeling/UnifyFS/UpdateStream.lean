import UnifyFS.AppendStream
import UnifyFS.StdioUpdates

/-!
# Fully buffered streams for update

One buffer serves the reads and the writes of a stream. It is either clean, and then it holds a
part of the file as the file is, or dirty, and then its bytes belong in front of the file
position. A write makes a clean buffer start over, so old data do not stay in it, and reads and
seeks flush a dirty one. With this, calls on the stream do what they do on an array of bytes with a
position.

The lower layer is any one whose calls succeed in full, and nobody else uses the file.
-/
namespace UnifyFS.UpdateStream
open ByteBuffers StdioStream StdioUpdates AppendStream List

/-- A write of no bytes does not extend the file. -/
def writeAt (bytes : List UInt8) (pos : ℕ) (data : List UInt8) : List UInt8 :=
  if data.isEmpty then bytes else overwrite 0 bytes pos data

theorem writeAt_of_pos {data : List UInt8} (hdata : 0 < data.length) (bytes : List UInt8)
    (pos : ℕ) : writeAt bytes pos data = overwrite 0 bytes pos data := by
  cases data with
  | nil => cases hdata
  | cons => rfl

theorem writeAt_append (bytes : List UInt8) (pos : ℕ) (data data' : List UInt8) :
    writeAt (writeAt bytes pos data) (pos + data.length) data' =
      writeAt bytes pos (data ++ data') := by
  cases data with
  | nil => rfl
  | cons c data =>
    cases data' with
    | nil => rw [append_nil]; rfl
    | cons c' data' => exact overwrite_overwrite 0 bytes pos (c :: data) (c' :: data')

theorem length_writeAt_le {bytes : List UInt8} {pos : ℕ} (hle : bytes.length ≤ pos)
    (data : List UInt8) : (writeAt bytes pos data).length ≤ pos + data.length := by
  unfold writeAt
  split
  · omega
  · rw [length_overwrite]
    omega

structure ByteFile where
  bytes : List UInt8
  pos : ℕ
  deriving DecidableEq, Repr

inductive UpdateOp where
  | fread (size nitems : ℕ)
  | fwrite (w : WriteArgs)
  | fseek (offset : ℤ) (whence : Whence)
  | fflush
  deriving DecidableEq, Repr

/-- What a call returns. After a flush the content of the file is seen as well. -/
inductive Outcome where
  | read (items : ℕ) (bytes : List UInt8)
  | wrote (items : ℕ)
  | sought (failed : Bool)
  | flushed (failed : Bool) (file : List UInt8)
  deriving DecidableEq, Repr

namespace ByteFile

def slice (f : ByteFile) (count : ℕ) : List UInt8 := (f.bytes.drop f.pos).take count

def base (f : ByteFile) : Whence → ℕ
  | .set => 0
  | .cur => f.pos
  | .fromEnd => f.bytes.length

def apply (f : ByteFile) : UpdateOp → Outcome × ByteFile
  | .fread size nitems =>
    let got := f.slice (size * nitems)
    (.read (got.length / size) got,{ f with pos := f.pos + got.length })
  | .fwrite w =>
    (.wrote (w.ptr.length / w.size),⟨writeAt f.bytes f.pos w.ptr,f.pos + w.ptr.length⟩)
  | .fseek offset whence =>
    if f.base whence + offset < 0 then (.sought true,f)
    else (.sought false,{ f with pos := (f.base whence + offset).toNat })
  | .fflush => (.flushed false f.bytes,f)

def run : ByteFile → List UpdateOp → List (Outcome × ℤ)
  | _, [] => []
  | f, op :: ops => ((f.apply op).1,((f.apply op).2.pos : ℤ)) :: run (f.apply op).2 ops

/-- No offset of a call is too large for `off_t`. A read may fill the buffer at its end. -/
def Fits (bufsize : ℕ) (f : ByteFile) : UpdateOp → Prop
  | .fread size nitems => (f.pos : ℤ) + (size * nitems : ℕ) + bufsize ≤ maxOfft
  | .fwrite w => (f.pos : ℤ) + w.ptr.length ≤ maxOfft
  | .fseek offset whence => f.base whence + offset ≤ maxOfft
  | .fflush => True

def NoOverflow (bufsize : ℕ) : ByteFile → List UpdateOp → Prop
  | _, [] => True
  | f, op :: ops => f.Fits bufsize op ∧ NoOverflow bufsize (f.apply op).2 ops

instance (bufsize : ℕ) (f : ByteFile) : (op : UpdateOp) → Decidable (f.Fits bufsize op)
  | .fread _ _ => inferInstanceAs (Decidable (_ ≤ maxOfft))
  | .fwrite _ => inferInstanceAs (Decidable (_ ≤ maxOfft))
  | .fseek _ _ => inferInstanceAs (Decidable (_ ≤ maxOfft))
  | .fflush => inferInstanceAs (Decidable True)

instance decidableNoOverflow (bufsize : ℕ) :
    (f : ByteFile) → (ops : List UpdateOp) → Decidable (f.NoOverflow bufsize ops)
  | _, [] => inferInstanceAs (Decidable True)
  | f, op :: ops =>
    have := decidableNoOverflow bufsize (f.apply op).2 ops
    inferInstanceAs (Decidable (_ ∧ _))

end ByteFile

/-- `unifyfs_fd_read` gives the bytes up to the end of the file. -/
def Reads {σ : Type} (L : FileLower σ) (content : σ → List UInt8) : Prop :=
  ∀ fs (pos n : ℕ), (pos : ℤ) + n ≤ maxOfft → (L.fdRead fs pos n).1 = Rc.success ∧
    (L.fdRead fs pos n).2.1 = ((content fs).drop pos).take n ∧
    content (L.fdRead fs pos n).2.2 = content fs

section Calls
variable {σ : Type} (L : FileLower σ) (content : σ → List UInt8)

def call (s : FileStream) (fs : σ) : UpdateOp → Option (Outcome × FileStream × σ)
  | .fread size nitems => (fread L s fs size nitems).map fun (n,got,s,fs) => (.read n got,s,fs)
  | .fwrite w => (s.fwrite L fs w).map fun (n,s,fs) => (.wrote n,s,fs)
  | .fseek offset whence =>
    let (failed,s,fs) := fseek L s fs offset whence
    some (.sought failed,s,fs)
  | .fflush =>
    let (failed,s,fs) := s.fflush L fs
    some (.flushed failed (content fs),s,fs)

def runCalls : FileStream → σ → List UpdateOp → Option (List (Outcome × ℤ))
  | _, _, [] => some []
  | s, fs, op :: ops =>
    (call L content s fs op).bind fun (out,s,fs) =>
      (runCalls s fs ops).map fun outs => (out,ftell s.toStream) :: outs

def openFile (mode : List Char) (vbuf : Option ℕ) (fs : σ) : Except Rc (FileStream × σ) :=
  match fopenParseMode mode,openStream L.toLower mode vbuf fs with
  | .ok m, .ok (s,fs) => .ok (⟨s,false,m.read || m.plus,[]⟩,fs)
  | .error rc, _ => .error rc
  | _, .error rc => .error rc

end Calls

variable {σ : Type} {L : FileLower σ} {content : σ → List UInt8} {bufsize : ℕ}

section Buffer
variable {bytes : List UInt8} {current : ℕ} {s : Stream} {fs : σ} {data : List UInt8}

/-- The buffer and the file below it stand for an array of bytes at a position. -/
inductive Held (content : σ → List UInt8) (bufsize : ℕ) (bytes : List UInt8) (current : ℕ)
    (s : Stream) (fs : σ) : Prop
  | clean (p : ℕ) (bufpos : s.bufpos = p) (dirty : s.bufdirty = false)
      (file : content fs = bytes) (buf : s.buf = (bytes.drop p).take s.buf.length)
  | dirty (p : ℕ) (bufpos : s.bufpos = p) (dirty : s.bufdirty = true)
      (file : bytes = overwrite 0 (content fs) p s.buf) (stop : p + s.buf.length = current)
      (pos : 0 < s.buf.length) (lt : s.buf.length < bufsize) (max : (current : ℤ) ≤ maxOfft)

theorem Held.of_buffer {t : Stream} (h : Held content bufsize bytes current s fs)
    (hbufpos : t.bufpos = s.bufpos) (hbuf : t.buf = s.buf) (hdirty : t.bufdirty = s.bufdirty) :
    Held content bufsize bytes current t fs := by
  cases h with
  | clean p bufpos dirty file buf =>
    exact .clean p (hbufpos.trans bufpos) (hdirty.trans dirty) file (by rw [hbuf]; exact buf)
  | dirty p bufpos dirty file stop pos lt max =>
    rw [← hbuf] at file stop pos lt
    exact .dirty p (hbufpos.trans bufpos) (hdirty.trans dirty) file stop pos lt max

theorem streamFlush_held (hL : Full L.toLower content) (hb : s.bufdirty = true → s.hasBuf = true)
    (h : Held content bufsize bytes current s fs) (bufsize' current' : ℕ) :
    ∃ fs', streamFlush L.toLower s fs = (Rc.success,withBuffer s s.bufpos s.buf false,fs') ∧
      Held content bufsize' bytes current' (withBuffer s s.bufpos s.buf false) fs' := by
  cases h with
  | clean p bufpos dirty file buf =>
    have hsame : withBuffer s s.bufpos s.buf false = s := by rw [← dirty]; rfl
    rw [hsame]
    exact ⟨fs,streamFlush_clean dirty,.clean p bufpos dirty file buf⟩
  | dirty p bufpos dirty file stop pos lt max =>
    obtain ⟨fs',hflush,hcontent⟩ := streamFlush_full hL fs (hb dirty) dirty bufpos (by omega)
    refine ⟨fs',hflush,.clean p bufpos rfl (hcontent.trans file.symm) ?_⟩
    change s.buf = (bytes.drop p).take s.buf.length
    rw [file,slice_overwrite]

/-- The buffer takes more bytes at the current position. -/
structure Opened (content : σ → List UInt8) (bufsize : ℕ) (bytes : List UInt8) (current : ℕ)
    (s : Stream) (fs : σ) : Prop where
  bufpos : s.bufpos = (current - s.buf.length : ℕ)
  stop : s.buf.length ≤ current
  lt : s.buf.length < bufsize
  file : bytes = writeAt (content fs) (current - s.buf.length) s.buf

theorem startBuffer_opened (hpos : 0 < bufsize) (h : Held content bufsize bytes current s fs) :
    Opened content bufsize bytes current (s.startBuffer current) fs := by
  unfold Stream.startBuffer
  cases h with
  | clean p bufpos dirty file buf =>
    rw [dirty]
    exact ⟨rfl,Nat.zero_le _,hpos,file.symm⟩
  | dirty p bufpos dirty file stop pos lt max =>
    rw [dirty,if_pos rfl]
    have hstart : current - s.buf.length = p := by omega
    refine ⟨bufpos.trans (by rw [hstart]),by omega,lt,?_⟩
    rw [hstart,writeAt_of_pos pos]
    exact file

theorem Opened.copyIn (h : Opened content bufsize bytes current s fs) (chunk : List UInt8)
    (hchunk : 0 < chunk.length) {k : ℕ} (hk : s.buf.length + chunk.length < k)
    (hmax : (current : ℤ) + chunk.length ≤ maxOfft) :
    s.copyIn chunk = withBuffer s s.bufpos (s.buf ++ chunk) true ∧
      Held content k (writeAt bytes current chunk) (current + chunk.length)
        (withBuffer s s.bufpos (s.buf ++ chunk) true) fs := by
  have hlen : (s.buf ++ chunk).length = s.buf.length + chunk.length := length_append
  have hstop := h.stop
  refine ⟨if_pos hchunk,.dirty (current - s.buf.length) h.bufpos rfl ?_ ?_ ?_ ?_ ?_⟩
  · change writeAt bytes current chunk =
      overwrite 0 (content fs) (current - s.buf.length) (s.buf ++ chunk)
    rw [← writeAt_of_pos (by omega),← writeAt_append,← h.file,Nat.sub_add_cancel hstop]
  · change current - s.buf.length + (s.buf ++ chunk).length = _
    omega
  · change 0 < (s.buf ++ chunk).length
    omega
  · change (s.buf ++ chunk).length < k
    omega
  · exact_mod_cast hmax

theorem nextBytes_full (ht : s.buftype = .fbf) (hs : s.bufsize = bufsize) (data : List UInt8) :
    nextBytes s data = if bufsize - s.buf.length ≤ data.length then
      some (bufsize - s.buf.length,true) else some (data.length,false) := by
  unfold nextBytes
  rw [ht,hs]

theorem startBuffer_eq (s : Stream) (current : ℤ) : ∃ bufpos buf,
    s.startBuffer current = withBuffer s bufpos buf s.bufdirty := by
  unfold Stream.startBuffer
  split
  · exact ⟨s.bufpos,s.buf,rfl⟩
  · exact ⟨current,[],rfl⟩

theorem writeLoop_turn (hL : Full L.toLower content) (fuel : ℕ) (hlen : 0 < data.length)
    (hb : s.hasBuf = true) (ht : s.buftype = .fbf) (hs : s.bufsize = bufsize) (hpos : 0 < bufsize)
    (hmax : (current : ℤ) + data.length ≤ maxOfft) (h : Held content bufsize bytes current s fs) :
    ∃ n bufpos buf dirty fs', 0 < n ∧ n ≤ data.length ∧
      writeLoop L.toLower (fuel + 1) s fs current data = writeLoop L.toLower fuel
        (withBuffer s bufpos buf dirty) fs' ((current + n : ℕ) : ℤ) (data.drop n) ∧
      Held content bufsize (writeAt bytes current (data.take n)) (current + n)
        (withBuffer s bufpos buf dirty) fs' := by
  have hopen := startBuffer_opened hpos h
  obtain ⟨bufpos,buf,heq⟩ := startBuffer_eq s current
  rw [heq] at hopen
  have hlt : buf.length < bufsize := hopen.lt
  have hnext := nextBytes_full (s := withBuffer s bufpos buf s.bufdirty) ht hs data
  change _ = if bufsize - buf.length ≤ data.length then some (bufsize - buf.length,true) else _
    at hnext
  rw [writeLoop,if_pos hlen,heq]
  dsimp only
  rw [hnext]
  by_cases hfull : bufsize - buf.length ≤ data.length
  · have htake := length_take_of_le hfull
    obtain ⟨hcopy,hheld⟩ := hopen.copyIn (data.take (bufsize - buf.length))
      (k := bufsize + 1) (by omega) (by change buf.length + _ < _; omega) (by omega)
    obtain ⟨fs',hflush,hclean⟩ := streamFlush_held
      (s := withBuffer s bufpos (buf ++ data.take (bufsize - buf.length)) true) hL (fun _ => hb)
      hheld bufsize (current + (bufsize - buf.length))
    have hcopy : (withBuffer s bufpos buf s.bufdirty).copyIn (data.take (bufsize - buf.length)) =
      withBuffer s bufpos (buf ++ data.take (bufsize - buf.length)) true := hcopy
    refine ⟨bufsize - buf.length,bufpos,buf ++ data.take (bufsize - buf.length),false,fs',
      by omega,hfull,?_,hclean⟩
    rw [if_pos hfull]
    simp only [hcopy,hflush,ne_eq,not_true_eq_false,if_false,if_true,Int.natCast_add]
    rfl
  · obtain ⟨hcopy,hheld⟩ := hopen.copyIn data (k := bufsize) hlen
      (by change buf.length + _ < _; omega) hmax
    refine ⟨data.length,bufpos,buf ++ data,true,fs,hlen,Nat.le_refl _,?_,?_⟩
    · rw [if_neg hfull]
      simp only [take_length,hcopy,Bool.false_eq_true,if_false,Int.natCast_add]
      rfl
    · rw [take_length]
      exact hheld

theorem writeLoop_held (hL : Full L.toLower content) {fuel : ℕ} (hfuel : data.length < fuel)
    (hb : s.hasBuf = true) (ht : s.buftype = .fbf) (hs : s.bufsize = bufsize) (hpos : 0 < bufsize)
    (hmax : (current : ℤ) + data.length ≤ maxOfft) (h : Held content bufsize bytes current s fs) :
    ∃ bufpos buf dirty fs', writeLoop L.toLower fuel s fs current data =
        some (Rc.success,withBuffer s bufpos buf dirty,fs',((current + data.length : ℕ) : ℤ)) ∧
      Held content bufsize (writeAt bytes current data) (current + data.length)
        (withBuffer s bufpos buf dirty) fs' := by
  induction fuel generalizing s fs data bytes current with
  | zero => omega
  | succ fuel ih =>
    by_cases hlen : 0 < data.length
    · obtain ⟨n,bufpos,buf,dirty,fs',hn,hle,hturn,hheld⟩ :=
        writeLoop_turn hL fuel hlen hb ht hs hpos hmax h
      have hdrop : (data.drop n).length = data.length - n := length_drop
      have htake := length_take_of_le hle
      have hmax' : ((current + n : ℕ) : ℤ) + (data.drop n).length ≤ maxOfft := by omega
      obtain ⟨bufpos',buf',dirty',fs'',hloop,hheld'⟩ :=
        ih (s := withBuffer s bufpos buf dirty) (by omega) hb ht hs hmax' hheld
      have hend : current + n + (data.drop n).length = current + data.length := by omega
      have hwrite := writeAt_append bytes current (data.take n) (data.drop n)
      rw [htake,take_append_drop] at hwrite
      rw [hend] at hloop hheld'
      rw [hwrite] at hheld'
      exact ⟨bufpos',buf',dirty',fs'',hturn.trans hloop,hheld'⟩
    · have hnil : data = [] := eq_nil_of_length_eq_zero (by omega)
      subst hnil
      exact ⟨s.bufpos,s.buf,s.bufdirty,fs,by simp [writeLoop,withBuffer],h⟩

end Buffer

/-- What the last fill of the buffer has left: the position, the bytes that the file had there, and
the mark for the end of the file. -/
structure Cache where
  start : ℕ
  bytes : List UInt8
  eof : Bool
  deriving DecidableEq, Repr

namespace Cache

/-- The bytes that a read takes from the buffer as it is. -/
def taken (c : Cache) (pos count : ℕ) : List UInt8 :=
  if c.start ≤ pos then (c.bytes.drop (pos - c.start)).take count else []

/-- A read that finds nothing in the buffer fills it for each `bufsize` bytes again, up to the first
time that the file has less than that. This is the last time. -/
def lastFill (c : Cache) (bufsize : ℕ) (bytes : List UInt8) (pos count : ℕ) : Cache :=
  let start := pos + bufsize * min ((count - 1) / bufsize) ((bytes.length - pos) / bufsize)
  { c with start := start, bytes := (bytes.drop start).take bufsize }

def filled (c : Cache) (bufsize : ℕ) (bytes : List UInt8) (pos count : ℕ) : Cache :=
  let n := (c.taken pos count).length
  if n < count then c.lastFill bufsize bytes (pos + n) (count - n) else c

end Cache

section Read
variable {bytes : List UInt8} {current : ℕ} {c : Cache} {s : FileStream} {fs fs' : σ}
  {fuel remaining : ℕ}

def rebuffered (s : FileStream) (p : ℤ) (buf : List UInt8) (dirty : Bool) : FileStream :=
  { s with toStream := withBuffer s.toStream p buf dirty }

theorem fillBuffer_outside (hR : Reads L content) (hclean : s.bufdirty = false)
    (hmax : (current : ℤ) + s.bufsize ≤ maxOfft)
    (hout : (current : ℤ) < s.bufpos ∨ s.bufpos + s.buf.length ≤ current) :
    ∃ fs', fillBuffer L s fs current = (Rc.success,
        rebuffered s current (((content fs).drop current).take s.bufsize) false,fs',
        decide ((((content fs).drop current).take s.bufsize).length < s.bufsize)) ∧
      content fs' = content fs := by
  obtain ⟨hrc,hbytes,hcontent⟩ := hR fs current s.bufsize hmax
  unfold fillBuffer
  rw [if_pos hout,streamFlush_clean hclean]
  dsimp only
  rw [if_neg (not_not.mpr rfl)]
  generalize L.fdRead fs current s.bufsize = read at hrc hbytes hcontent
  obtain ⟨rc,data,fs'⟩ := read
  dsimp only at hrc hbytes hcontent
  rw [recordRead,if_neg (not_not.mpr hrc),hbytes]
  refine ⟨fs',?_,hcontent⟩
  unfold rebuffered withBuffer
  rw [← hclean]

theorem lastFill_step (c : Cache) (hpos : 0 < bufsize) (hmore : bufsize < remaining)
    (hbytes : current + bufsize ≤ bytes.length) :
    c.lastFill bufsize bytes (current + bufsize) (remaining - bufsize) =
      c.lastFill bufsize bytes current remaining := by
  have hcount : (remaining - 1) / bufsize = (remaining - bufsize - 1) / bufsize + 1 := by
    rw [Nat.div_eq_sub_div hpos (by omega),Nat.sub_right_comm]
  have hlen : (bytes.length - current) / bufsize =
      (bytes.length - (current + bufsize)) / bufsize + 1 := by
    rw [Nat.div_eq_sub_div hpos (by omega),Nat.sub_sub]
  unfold Cache.lastFill
  rw [hcount,hlen,Nat.add_min_add_right,Nat.mul_succ,Nat.add_assoc,Nat.add_comm bufsize]

/-- The loop from a position outside of the buffer, one fill a turn. -/
theorem readLoop_outside (hR : Reads L content) (hfuel : remaining < fuel) (hlen : 0 < remaining)
    (hs : s.bufsize = bufsize) (hpos : 0 < bufsize) (hclean : s.bufdirty = false)
    (hmax : (current : ℤ) + ((bytes.drop current).take remaining).length + bufsize ≤ maxOfft)
    (hfile : content fs = bytes)
    (hout : (current : ℤ) < s.bufpos ∨ s.bufpos + s.buf.length ≤ current) (got : List UInt8) :
    ∃ fs', readLoop L fuel s fs current remaining got = some (Rc.success,
        rebuffered s (c.lastFill bufsize bytes current remaining).start
          (c.lastFill bufsize bytes current remaining).bytes false,fs',
        got ++ (bytes.drop current).take remaining) ∧ content fs' = bytes := by
  induction fuel generalizing s fs current remaining got with
  | zero => omega
  | succ fuel ih =>
    obtain ⟨fs',hfill,hfile'⟩ := fillBuffer_outside hR hclean (hs.symm ▸ by omega) hout
    rw [hfile,hs] at hfill
    rw [hfile] at hfile'
    have hcopy : (rebuffered s current ((bytes.drop current).take bufsize) false).buffered current
        remaining = (bytes.drop current).take (min remaining bufsize) := by
      change (((bytes.drop current).take bufsize).drop ((current : ℤ) - current).toNat).take
        remaining = _
      rw [Int.sub_self,Int.toNat_zero,drop_zero,take_take]
    rw [readLoop,if_pos hlen,hfill]
    dsimp only
    rw [if_neg (not_not.mpr rfl),hcopy]
    have hlast : (bytes.length - current) / bufsize = 0 ∨ (remaining - 1) / bufsize = 0 →
        c.lastFill bufsize bytes current remaining =
          { c with start := current, bytes := (bytes.drop current).take bufsize } := by
      intro hzero
      have hmin : min ((remaining - 1) / bufsize) ((bytes.length - current) / bufsize) = 0 := by
        rcases hzero with h | h <;> simp [h]
      unfold Cache.lastFill
      rw [hmin,Nat.mul_zero,Nat.add_zero]
    rw [length_take,length_drop]
    by_cases hshort : min bufsize (bytes.length - current) < bufsize
    · rw [decide_eq_true hshort,if_pos rfl,hlast (.inl (Nat.div_eq_of_lt (by omega))),
        ← take_take,take_of_length_le (l := bytes.drop current) (by rw [length_drop]; omega)]
      exact ⟨fs',rfl,hfile'⟩
    · rw [decide_eq_false hshort,if_neg Bool.false_ne_true,length_take,length_drop]
      by_cases hmore : bufsize < remaining
      · have hn : min (min remaining bufsize) (bytes.length - current) = bufsize := by omega
        have hend : ((current + bufsize : ℕ) : ℤ) < current ∨
            (current : ℤ) + ((bytes.drop current).take bufsize).length ≤
              ((current + bufsize : ℕ) : ℤ) := by
          rw [length_take,length_drop]
          omega
        obtain ⟨fs'',hloop,hfile''⟩ := ih (s := rebuffered s current
          ((bytes.drop current).take bufsize) false) (show remaining - bufsize < fuel by omega)
          (by omega) hs rfl (by rw [length_take,length_drop] at hmax ⊢; omega) hfile' hend
          (got ++ (bytes.drop current).take bufsize)
        refine ⟨fs'',?_,hfile''⟩
        rw [hn,Nat.min_eq_right (Nat.le_of_lt hmore),← Int.natCast_add,hloop,
          lastFill_step c hpos hmore (by omega),append_assoc,← drop_drop,← take_add,
          Nat.add_sub_cancel' (Nat.le_of_lt hmore)]
        rfl
      · have hn : min (min remaining bufsize) (bytes.length - current) = remaining := by omega
        rw [hn,Nat.sub_self,Nat.min_eq_left (Nat.not_lt.mp hmore),
          hlast (.inr (Nat.div_eq_of_lt (by omega)))]
        cases fuel with
        | zero => omega
        | succ fuel => exact ⟨fs',rfl,hfile'⟩

theorem length_taken (c : Cache) (hle : c.start ≤ current) (count : ℕ) :
    (c.taken current count).length = min count (c.start + c.bytes.length - current) := by
  rw [Cache.taken,if_pos hle,length_take,length_drop]
  omega

theorem readLoop_cached (hR : Reads L content) (hfuel : remaining < fuel) (hlen : 0 < remaining)
    (hs : s.bufsize = bufsize) (hpos : 0 < bufsize) (hclean : s.bufdirty = false)
    (hmax : (current : ℤ) + ((bytes.drop current).take remaining).length + bufsize ≤ maxOfft)
    (hfile : content fs = bytes) (hstart : s.bufpos = c.start) (hbuf : s.buf = c.bytes)
    (htake : (c.taken current remaining).length ≤ ((bytes.drop current).take remaining).length)
    (got : List UInt8) :
    ∃ fs', readLoop L fuel s fs current remaining got = some (Rc.success,
        rebuffered s (c.filled bufsize bytes current remaining).start
          (c.filled bufsize bytes current remaining).bytes false,fs',
        got ++ (c.taken current remaining ++
          ((bytes.drop current).take remaining).drop (c.taken current remaining).length)) ∧
      content fs' = bytes := by
  have hself : rebuffered s c.start c.bytes false = s := by
    unfold rebuffered withBuffer
    rw [← hstart,← hbuf,← hclean]
  have hfilled : c.filled bufsize bytes current remaining =
      if (c.taken current remaining).length < remaining then
        c.lastFill bufsize bytes (current + (c.taken current remaining).length)
          (remaining - (c.taken current remaining).length)
      else c := rfl
  have hsize := congrArg List.length hbuf
  obtain ⟨fuel,rfl⟩ : ∃ k, fuel = k + 1 := ⟨fuel - 1,by omega⟩
  by_cases hout : (current : ℤ) < s.bufpos ∨ s.bufpos + s.buf.length ≤ current
  · have hnil : c.taken current remaining = [] := by
      by_cases hle : c.start ≤ current
      · apply eq_nil_of_length_eq_zero
        rw [length_taken c hle]
        omega
      · exact if_neg hle
    rw [hfilled,hnil,length_nil,if_pos hlen]
    exact readLoop_outside hR hfuel hlen hs hpos hclean hmax hfile hout got
  · have hle : c.start ≤ current := by omega
    have hcount := length_taken c hle remaining
    have htaken : s.buffered current remaining = c.taken current remaining := by
      have hoff : ((current : ℤ) - c.start).toNat = current - c.start := by omega
      rw [FileStream.buffered,Cache.taken,if_pos hle,hstart,hbuf,hoff]
    have hrest : ((bytes.drop current).take remaining).drop (c.taken current remaining).length =
        (bytes.drop (current + (c.taken current remaining).length)).take
          (remaining - (c.taken current remaining).length) := by
      rw [drop_take,drop_drop]
    have hturn : readLoop L (fuel + 1) s fs current remaining got =
        readLoop L fuel s fs (current + (c.taken current remaining).length : ℕ)
          (remaining - (c.taken current remaining).length) (got ++ c.taken current remaining) := by
      rw [readLoop,if_pos hlen,fillBuffer,if_neg hout]
      dsimp only
      rw [if_neg (by decide),htaken,Int.natCast_add]
      rfl
    have hless := congrArg List.length hrest
    rw [length_drop] at hless
    rw [hturn,hrest,hfilled,← append_assoc]
    by_cases hmore : (c.taken current remaining).length < remaining
    · rw [if_pos hmore]
      exact readLoop_outside hR (by omega) (by omega) hs hpos hclean (by omega) hfile
        (.inr (by omega)) _
    · have hzero : remaining - (c.taken current remaining).length = 0 := by omega
      obtain ⟨fuel,rfl⟩ : ∃ k, fuel = k + 1 := ⟨fuel - 1,by omega⟩
      rw [if_neg hmore,hself,hzero,take_zero,append_nil]
      exact ⟨fs,rfl,hfile⟩

theorem append_drop_eq_iff {l : List UInt8} {count : ℕ} (hle : l.length ≤ count)
    (rest : List UInt8) : l ++ (rest.take count).drop l.length = rest.take count ↔ l <+: rest := by
  constructor
  · intro h
    exact (h ▸ prefix_append _ _ : l <+: rest.take count).trans ⟨_,take_append_drop _ _⟩
  · rintro ⟨tail,rfl⟩
    rw [take_append,take_of_length_le hle,drop_left]

theorem readLoop_flush (hflush : streamFlush L.toLower s.toStream fs =
      (Rc.success,withBuffer s.toStream s.bufpos s.buf false,fs'))
    (hout : (current : ℤ) < s.bufpos ∨ s.bufpos + s.buf.length ≤ current) (fuel remaining : ℕ)
    (got : List UInt8) (hlen : 0 < remaining) : readLoop L (fuel + 1) s fs current remaining got =
      readLoop L (fuel + 1) (rebuffered s s.bufpos s.buf false) fs' current remaining got := by
  have hfill : fillBuffer L s fs current =
      fillBuffer L (rebuffered s s.bufpos s.buf false) fs' current := by
    have hclean : streamFlush L.toLower (rebuffered s s.bufpos s.buf false).toStream fs' = _ :=
      streamFlush_clean rfl
    rw [fillBuffer,if_pos hout,hflush,fillBuffer,hclean]
    exact (if_pos hout).symm
  rw [readLoop,readLoop,hfill,if_pos hlen,if_pos hlen]

theorem Cache.taken_isPrefix (c : Cache) (hc : c.bytes = (bytes.drop c.start).take c.bytes.length)
    (count : ℕ) : c.taken current count <+: bytes.drop current := by
  unfold Cache.taken
  split
  · rename_i hle
    rw [hc,drop_take,drop_drop,Nat.add_sub_cancel' hle,take_take]
    exact take_prefix _ _
  · exact nil_prefix

theorem Cache.filled_slice (c : Cache) (hc : c.bytes = (bytes.drop c.start).take c.bytes.length)
    (count : ℕ) : (c.filled bufsize bytes current count).bytes =
      (bytes.drop (c.filled bufsize bytes current count).start).take
        (c.filled bufsize bytes current count).bytes.length := by
  unfold Cache.filled
  dsimp only
  split
  · exact take_eq_take_min.trans (congrArg (take · _) length_take.symm)
  · exact hc

theorem readLoop_clean (hR : Reads L content)
    (hfit : (current : ℤ) + ((bytes.drop current).take remaining).length + bufsize ≤ maxOfft)
    (hfuel : remaining < fuel) (hlen : 0 < remaining) (hs : s.bufsize = bufsize)
    (hpos : 0 < bufsize) (hclean : s.bufdirty = false) (hfile : content fs = bytes) {p : ℕ}
    (hp : s.bufpos = p) (hbuf : s.buf = (bytes.drop p).take s.buf.length) (got : List UInt8) :
    ∃ p' buf dirty fs', readLoop L fuel s fs current remaining got = some (Rc.success,
        rebuffered s p' buf dirty,fs',got ++ (bytes.drop current).take remaining) ∧
      Held content bufsize bytes (current + ((bytes.drop current).take remaining).length)
        (withBuffer s.toStream p' buf dirty) fs' := by
  have hpre : Cache.taken ⟨p,s.buf,false⟩ current remaining <+: bytes.drop current :=
    Cache.taken_isPrefix _ hbuf remaining
  have hle : (Cache.taken ⟨p,s.buf,false⟩ current remaining).length ≤ remaining := by
    unfold Cache.taken
    split
    · exact length_take_le ..
    · exact Nat.zero_le _
  have hsame := (append_drop_eq_iff hle _).mpr hpre
  obtain ⟨fs',hloop,hfile'⟩ := readLoop_cached hR hfuel hlen hs hpos hclean hfit hfile
    (c := ⟨p,s.buf,false⟩) hp rfl (hsame ▸ (prefix_append _ _).length_le) got
  rw [hsame] at hloop
  exact ⟨_,_,_,fs',hloop,.clean _ rfl rfl hfile' (Cache.filled_slice _ hbuf _)⟩

/-- The loop reads up to the end of the file. A dirty buffer ends at the position, so that it is
flushed first. -/
theorem readLoop_held (hL : Full L.toLower content) (hR : Reads L content)
    (hfit : (current : ℤ) + ((bytes.drop current).take remaining).length + bufsize ≤ maxOfft)
    (hfuel : remaining < fuel) (hb : s.hasBuf = true) (hs : s.bufsize = bufsize)
    (hpos : 0 < bufsize) (h : Held content bufsize bytes current s.toStream fs) (got : List UInt8) :
    ∃ p buf dirty fs', readLoop L fuel s fs current remaining got = some (Rc.success,
        rebuffered s p buf dirty,fs',got ++ (bytes.drop current).take remaining) ∧
      Held content bufsize bytes (current + ((bytes.drop current).take remaining).length)
        (withBuffer s.toStream p buf dirty) fs' := by
  obtain ⟨fuel,rfl⟩ : ∃ k, fuel = k + 1 := ⟨fuel - 1,by omega⟩
  by_cases hlen : 0 < remaining
  · obtain ⟨fs₁,hflush,hheld⟩ := streamFlush_held hL (fun _ => hb) h bufsize current
    cases h with
    | clean p bufpos dirty file buf =>
      exact readLoop_clean hR hfit hfuel hlen hs hpos dirty file bufpos buf got
    | dirty p bufpos dirty file stop pos lt max =>
      rw [readLoop_flush hflush (.inr (by omega)) _ _ _ hlen]
      cases hheld with
      | clean q hq _ hfile hbuf =>
        exact readLoop_clean (s := rebuffered s s.bufpos s.buf false) hR hfit hfuel hlen hs hpos rfl
          hfile hq hbuf got
      | dirty _ _ hdirty => cases hdirty
  · have hzero : remaining = 0 := by omega
    subst hzero
    exact ⟨s.bufpos,s.buf,s.bufdirty,fs,by simp [readLoop,rebuffered,withBuffer],h⟩

end Read

/-- A stream for update stands for an array of bytes with a position. -/
structure Tracks {σ : Type} (content : σ → List UInt8) (bufsize : ℕ) (f : ByteFile)
    (s : FileStream) (fs : σ) : Prop where
  canRead : s.fdCanRead = true
  canWrite : s.fdCanWrite = true
  append : s.append = false
  buftype : s.buftype = .fbf
  ubuflen : s.ubuflen = 0
  pos : s.pos = f.pos
  buffer : s.hasBuf = true ∧ s.bufsize = bufsize ∨
    s.hasBuf = false ∧ s.bufdirty = false ∧ bufsize = clientStreamBufsize
  held : Held content bufsize f.bytes f.pos s.toStream fs
  eof : s.eof = true → f.bytes.length ≤ f.pos

section Calls
variable {f : ByteFile} {s s' : FileStream} {fs fs' : σ} {size nitems : ℕ} {count : ℕ}
  {w : WriteArgs}

theorem slice_zero (f : ByteFile) (hzero : size = 0 ∨ nitems = 0) :
    f.slice (size * nitems) = [] := by
  rw [Nat.mul_eq_zero.mpr hzero]
  rfl

theorem slice_atEnd (hend : f.bytes.length ≤ f.pos) (count : ℕ) : f.slice count = [] := by
  unfold ByteFile.slice
  rw [drop_eq_nil_of_le hend,take_nil]

theorem slice_short (h : (f.slice count).length < count) :
    f.bytes.length ≤ f.pos + (f.slice count).length := by
  unfold ByteFile.slice at h ⊢
  rw [length_take,length_drop] at h ⊢
  omega

theorem pushedBack_eq_nil (hu : s.ubuflen = 0) (count : ℕ) : s.pushedBack count = [] := by
  unfold FileStream.pushedBack
  rw [hu,Nat.sub_zero,drop_length,take_nil]

theorem readBuffered_eq (hu : s.ubuflen = 0) (heof : s.eof = false) (hpos : s.pos = f.pos)
    (hmax : (f.pos : ℤ) + count ≤ maxOfft) : readBuffered L s fs count =
      (readLoop L (count + 1) s fs f.pos count []).map (finishRead count) := by
  have hover := hpos ▸ wouldOverflowOfft_of_le hmax
  unfold readBuffered
  rw [if_neg (by rw [heof]; decide),if_neg (by rw [hover]; decide),pushedBack_eq_nil hu]
  simp only [length_nil,Nat.sub_zero,Int.natCast_zero,Int.add_zero,← hpos]

theorem fread_eq {got : List UInt8} (hzero : ¬ (size = 0 ∨ nitems = 0))
    (hread : streamRead L s fs (size * nitems) = some (Rc.success,s',fs',got))
    (hle : got.length ≤ size * nitems) :
    fread L s fs size nitems = some (got.length / size,got,{ s' with errno := 0 },fs') := by
  have hitems : (if got.length < size * nitems then got.length / size else nitems) =
      got.length / size := by
    split_ifs with hshort
    · rfl
    · rw [Nat.le_antisymm hle (Nat.not_lt.mp hshort),Nat.mul_div_cancel_left nitems (by omega)]
  rw [fread,if_neg hzero,hread,← hitems]
  rfl

theorem ptr_eq_nil (hzero : w.size = 0 ∨ w.nitems = 0) : w.ptr = [] := by
  apply eq_nil_of_length_eq_zero
  rw [w.length_eq]
  exact Nat.mul_eq_zero.mpr hzero

theorem apply_fwrite_nil (hnil : w.ptr = []) (f : ByteFile) :
    (f.apply (.fwrite w)).2 = f := by
  change (⟨writeAt f.bytes f.pos w.ptr,f.pos + w.ptr.length⟩ : ByteFile) = f
  rw [hnil]
  rfl

theorem apply_fseek_fst (f : ByteFile) (offset : ℤ) (whence : Whence) :
    (f.apply (.fseek offset whence)).1 = .sought (decide (f.base whence + offset < 0)) := by
  unfold ByteFile.apply
  dsimp only
  split
  · next hneg => rw [decide_eq_true hneg]
  · next hneg => rw [decide_eq_false hneg]

theorem seekBase_eq (hL : Full L.toLower content) (hpos : s.pos = f.pos)
    (hfile : content fs = f.bytes) (whence : Whence) :
    ∃ fs', seekBase L s fs whence = ((f.base whence : ℤ),fs') ∧ content fs' = f.bytes := by
  cases whence with
  | set => exact ⟨fs,rfl,hfile⟩
  | cur => exact ⟨fs,congrArg (·,fs) hpos,hfile⟩
  | fromEnd =>
    obtain ⟨hsize,hcontent⟩ := hL.size fs
    rw [hfile] at hsize hcontent
    exact ⟨_,congrArg (·,_) hsize,hcontent⟩

theorem fseek_eq {t : Stream} {fs₁ fs₂ : σ} {base : ℕ} {offset : ℤ} {whence : Whence}
    (hflush : streamFlush L.toLower s.toStream fs = (Rc.success,t,fs₁))
    (hbase : seekBase L { s with toStream := t } fs₁ whence = ((base : ℤ),fs₂))
    (hfit : base + offset ≤ maxOfft) : fseek L s fs offset whence =
      if base + offset < 0 then (true,{ s with toStream := { t with errno := Rc.einval } },fs₂)
      else (false,{ s with
        toStream := { t with ubuflen := 0, pos := base + offset, errno := 0 }, eof := false },
        fs₂) := by
  unfold fseek
  rw [hflush]
  dsimp only
  rw [if_neg (not_not.mpr rfl),hbase]
  rw [wouldOverflowOfft_of_le hfit,if_neg (fun h => Bool.false_ne_true h.2)]

end Calls

section Tracks
variable {f : ByteFile} {s : FileStream} {fs : σ}

def prepared (s : FileStream) : FileStream := { s with toStream := ready s.toStream }

variable (h : Tracks content bufsize f s fs)
include h

theorem Tracks.setErrno (rc : Rc) : Tracks content bufsize f { s with errno := rc } fs :=
  { h with held := h.held.of_buffer rfl rfl rfl }

theorem Tracks.ensureBuffer_eq : ensureBuffer s.toStream = .ok (prepared s).toStream := by
  have hsame : { s.toStream with ubuflen := 0 } = s.toStream := by rw [← h.ubuflen]
  rw [← hsame]
  exact AppendStream.ensureBuffer_eq s.toStream

theorem Tracks.with_buffer : Tracks content bufsize f (prepared s) fs ∧
    (prepared s).hasBuf = true ∧ (prepared s).bufsize = bufsize := by
  unfold prepared ready
  rcases h.buffer with ⟨hb,hs⟩ | ⟨hb,hclean,hs⟩
  · have hsame : { s.toStream with ubuflen := 0 } = s.toStream := by rw [← h.ubuflen]
    rw [if_pos hb,hsame]
    exact ⟨h,hb,hs⟩
  · rw [if_neg (by rw [hb]; decide)]
    have hfile : content fs = f.bytes := by
      cases h.held with
      | clean p bufpos dirty file buf => exact file
      | dirty p bufpos dirty => rw [hclean] at dirty; cases dirty
    refine ⟨?_,rfl,hs.symm⟩
    exact { h with
      ubuflen := rfl
      buffer := .inl ⟨rfl,hs.symm⟩
      held := .clean 0 rfl rfl hfile rfl }

theorem Tracks.streamRead_eq (count : ℕ) :
    streamRead L s fs count = readBuffered L (prepared s) fs count := by
  unfold streamRead
  rw [if_neg (by rw [h.canRead]; decide),h.ensureBuffer_eq]
  rfl

theorem Tracks.streamWrite_eq {data : List UInt8} (hfit : (f.pos : ℤ) + data.length ≤ maxOfft) :
    streamWrite L.toLower s.toStream fs data =
      (writeLoop L.toLower (2 * data.length + 2) (prepared s).toStream fs f.pos data).map
        fun (rc,s,fs,current) =>
          if rc ≠ Rc.success then (rc,s,fs) else (Rc.success,{ s with pos := current },fs) := by
  have hstart : writeStart L.toLower s.toStream fs data.length = ((f.pos : ℤ),s.toStream,fs) := by
    have hsame : { s.toStream with ubuflen := s.ubuflen - data.length } = s.toStream := by
      rw [h.ubuflen,Nat.zero_sub,← h.ubuflen]
    unfold writeStart
    rw [if_neg (by rw [h.append]; decide),hsame,h.pos]
  have hne : (prepared s).buftype ≠ .nbf := by
    rw [h.with_buffer.1.buftype]
    decide
  unfold streamWrite
  rw [if_neg (by rw [h.canWrite]; decide),hstart]
  dsimp only
  rw [wouldOverflowOfft_of_le hfit,if_neg Bool.false_ne_true,h.ensureBuffer_eq]
  dsimp only
  rw [if_neg hne]

variable (hL : Full L.toLower content)
include hL

theorem streamRead_tracks (hR : Reads L content) (hpos : 0 < bufsize) {count : ℕ}
    (hfit : (f.pos : ℤ) + count + bufsize ≤ maxOfft) (heof : s.eof = false) :
    ∃ s' fs', streamRead L s fs count = some (Rc.success,s',fs',f.slice count) ∧
      Tracks content bufsize { f with pos := f.pos + (f.slice count).length } s' fs' := by
  obtain ⟨hprep,hb,hs⟩ := h.with_buffer
  have hle : (f.slice count).length ≤ count := length_take_le ..
  obtain ⟨p,buf,dirty,fs',hloop,hheld⟩ := readLoop_held hL hR
    (show (f.pos : ℤ) + (f.slice count).length + bufsize ≤ maxOfft by omega)
    (Nat.lt_succ_self count) hb hs hpos hprep.held []
  rw [h.streamRead_eq,readBuffered_eq hprep.ubuflen heof hprep.pos (by omega),hloop]
  refine ⟨_,_,rfl,?_⟩
  refine { hprep with
    pos := ?_
    buffer := .inl ⟨hb,hs⟩
    held := hheld.of_buffer rfl rfl rfl
    eof := fun hend => ?_ }
  · change (prepared s).pos + ((f.slice count).length : ℤ) = _
    rw [hprep.pos,Int.natCast_add]
  · have hshort : (s.eof || decide ((f.slice count).length < count)) = true := hend
    rw [heof] at hshort
    exact slice_short (of_decide_eq_true hshort)

theorem fread_tracks (hR : Reads L content) (hpos : 0 < bufsize) {size nitems : ℕ}
    (hfit : f.Fits bufsize (.fread size nitems)) : ∃ s' fs', fread L s fs size nitems =
        some ((f.slice (size * nitems)).length / size,f.slice (size * nitems),s',fs') ∧
      Tracks content bufsize { f with pos := f.pos + (f.slice (size * nitems)).length } s' fs' := by
  by_cases hzero : size = 0 ∨ nitems = 0
  · rw [fread,if_pos hzero,slice_zero f hzero,length_nil,Nat.zero_div]
    exact ⟨s,fs,rfl,h⟩
  · cases heof : s.eof with
    | true =>
      have hfail : streamRead L s fs (size * nitems) = some (Rc.failure,prepared s,fs,[]) := by
        rw [h.streamRead_eq]
        exact if_pos heof
      rw [fread,if_neg hzero,hfail,slice_atEnd (h.eof heof),length_nil,Nat.zero_div]
      exact ⟨_,_,rfl,h.with_buffer.1⟩
    | false =>
      obtain ⟨s',fs',hread,htracks⟩ := streamRead_tracks h hL hR hpos hfit heof
      exact ⟨_,_,fread_eq hzero hread (length_take_le ..),htracks.setErrno 0⟩

theorem fwrite_tracks (hpos : 0 < bufsize) {w : WriteArgs} (hfit : f.Fits bufsize (.fwrite w)) :
    ∃ s' fs', s.fwrite L fs w = some (w.ptr.length / w.size,s',fs') ∧
      Tracks content bufsize (f.apply (.fwrite w)).2 s' fs' := by
  unfold FileStream.fwrite fwrite
  by_cases hzero : w.size = 0 ∨ w.nitems = 0
  · have hnil := ptr_eq_nil hzero
    rw [if_pos hzero,apply_fwrite_nil hnil,hnil,length_nil,Nat.zero_div]
    exact ⟨s,fs,rfl,h⟩
  · rw [if_neg hzero,w.length_eq,Nat.mul_div_cancel_left w.nitems (by omega)]
    obtain ⟨hprep,hb,hs⟩ := h.with_buffer
    obtain ⟨bufpos,buf,dirty,fs',hloop,hheld⟩ := writeLoop_held hL
      (show w.ptr.length < 2 * w.ptr.length + 2 by omega) hb hprep.buftype hs hpos hfit hprep.held
    rw [h.streamWrite_eq hfit,hloop]
    refine ⟨_,_,rfl,?_⟩
    exact { hprep with
      pos := rfl
      buffer := .inl ⟨hb,hs⟩
      held := hheld.of_buffer rfl rfl rfl
      eof := fun heof => length_writeAt_le (h.eof heof) w.ptr }

theorem streamFlush_tracks : ∃ fs', streamFlush L.toLower s.toStream fs =
        (Rc.success,(rebuffered s s.bufpos s.buf false).toStream,fs') ∧ content fs' = f.bytes ∧
      (∀ pos fs'', content fs'' = f.bytes →
        Held content bufsize f.bytes pos (rebuffered s s.bufpos s.buf false).toStream fs'') ∧
      Tracks content bufsize f (rebuffered s s.bufpos s.buf false) fs' := by
  have hb : s.bufdirty = true → s.hasBuf = true := by
    intro hdirty
    rcases h.buffer with ⟨hb,-⟩ | ⟨-,hclean,-⟩
    · exact hb
    · rw [hclean] at hdirty
      cases hdirty
  obtain ⟨fs',hflush,hheld⟩ := streamFlush_held hL hb h.held bufsize f.pos
  have htracks : Tracks content bufsize f (rebuffered s s.bufpos s.buf false) fs' := { h with
      buffer := h.buffer.imp_right fun hno => ⟨hno.1,rfl,hno.2.2⟩
      held := hheld }
  cases hheld with
  | clean p bufpos dirty file buf =>
    exact ⟨fs',hflush,file,fun _ _ hfile => .clean p bufpos dirty hfile buf,htracks⟩
  | dirty p bufpos dirty => cases dirty

theorem fflush_tracks : ∃ s' fs', s.fflush L fs = (false,s',fs') ∧ content fs' = f.bytes ∧
    Tracks content bufsize f s' fs' := by
  obtain ⟨fs',hflush,hfile,-,htracks⟩ := streamFlush_tracks h hL
  unfold FileStream.fflush fflush
  rw [hflush]
  exact ⟨_,_,rfl,hfile,htracks.setErrno 0⟩

theorem fseek_tracks {offset : ℤ} {whence : Whence} (hfit : f.Fits bufsize (.fseek offset whence)) :
    ∃ s' fs', fseek L s fs offset whence = (decide (f.base whence + offset < 0),s',fs') ∧
      Tracks content bufsize (f.apply (.fseek offset whence)).2 s' fs' := by
  obtain ⟨fs₁,hflush,hfile,hclean,htracks⟩ := streamFlush_tracks h hL
  obtain ⟨fs₂,hbase,hcontent⟩ := seekBase_eq hL htracks.pos hfile whence
  rw [fseek_eq hflush hbase hfit,ByteFile.apply]
  by_cases hneg : f.base whence + offset < 0
  · rw [if_pos hneg,if_pos hneg,decide_eq_true hneg]
    refine ⟨_,_,rfl,?_⟩
    exact { htracks with held := (hclean f.pos fs₂ hcontent).of_buffer rfl rfl rfl }
  · rw [if_neg hneg,if_neg hneg,decide_eq_false hneg]
    refine ⟨_,_,rfl,?_⟩
    exact { htracks with
      ubuflen := rfl
      pos := (Int.toNat_of_nonneg (Int.not_lt.mp hneg)).symm
      held := (hclean _ fs₂ hcontent).of_buffer rfl rfl rfl
      eof := nofun }

theorem call_tracks (hR : Reads L content) (hpos : 0 < bufsize) {op : UpdateOp}
    (hfit : f.Fits bufsize op) : ∃ s' fs', call L content s fs op = some ((f.apply op).1,s',fs') ∧
      Tracks content bufsize (f.apply op).2 s' fs' := by
  cases op with
  | fread size nitems =>
    obtain ⟨s',fs',hread,htracks⟩ := fread_tracks h hL hR hpos hfit
    exact ⟨s',fs',by rw [call,hread]; rfl,htracks⟩
  | fwrite w =>
    obtain ⟨s',fs',hwrite,htracks⟩ := fwrite_tracks h hL hpos hfit
    exact ⟨s',fs',by rw [call,hwrite]; rfl,htracks⟩
  | fseek offset whence =>
    obtain ⟨s',fs',hseek,htracks⟩ := fseek_tracks h hL hfit
    refine ⟨s',fs',?_,htracks⟩
    rw [call,hseek,apply_fseek_fst]
  | fflush =>
    obtain ⟨s',fs',hflush,hfile,htracks⟩ := fflush_tracks h hL
    refine ⟨s',fs',?_,htracks⟩
    rw [call,hflush]
    dsimp only
    rw [hfile]
    rfl

theorem runCalls_tracks (hR : Reads L content) (hpos : 0 < bufsize) {ops : List UpdateOp}
    (hfit : f.NoOverflow bufsize ops) : runCalls L content s fs ops = some (f.run ops) := by
  induction ops generalizing f s fs with
  | nil => rfl
  | cons op ops ih =>
    obtain ⟨s',fs',hcall,htracks⟩ := call_tracks h hL hR hpos hfit.1
    rw [runCalls,hcall,Option.bind_some]
    dsimp only
    rw [ih htracks hfit.2,ftell,htracks.pos]
    rfl

end Tracks

section Open
variable {mode : List Char} {m : OpenMode} {vbuf : Option ℕ} {fs₀ fs : σ} {s : FileStream}

theorem unifyfsFopen_start (hm : fopenParseMode mode = .ok m)
    (hpos : fopenPos L.toLower m fs₀ = (0,fs₀)) :
    unifyfsFopen L.toLower mode fs₀ = .ok (fopenStream m 0,fs₀) := by
  unfold unifyfsFopen
  rw [hm]
  dsimp only
  rw [hpos]

theorem openFile_tracks (hm : fopenParseMode mode = .ok m) (hplus : m.plus = true)
    (happend : m.append = false) (ho : openFile L mode vbuf fs₀ = .ok (s,fs)) :
    0 < vbuf.getD clientStreamBufsize ∧ fs = fs₀ ∧
      Tracks content (vbuf.getD clientStreamBufsize) ⟨content fs₀,0⟩ s fs := by
  have hpos : fopenPos L.toLower m fs₀ = (0,fs₀) := by
    unfold fopenPos
    rw [happend]
    rfl
  unfold openFile openStream at ho
  rw [hm,unifyfsFopen_start hm hpos] at ho
  have hread : (m.read || m.plus) = true := by rw [hplus,Bool.or_true]
  have hwrite : (m.write || m.plus || m.append) = true := by rw [hplus,Bool.or_true,Bool.true_or]
  cases vbuf with
  | none =>
    cases ho
    exact ⟨by decide,rfl,hread,hwrite,happend,rfl,rfl,rfl,.inr ⟨rfl,rfl,rfl⟩,
      .clean 0 rfl rfl rfl rfl,nofun⟩
  | some size =>
    dsimp only [setvbuf,fopenStream] at ho
    by_cases hz : size = 0
    · rw [if_pos hz] at ho
      cases ho
    · rw [if_neg hz] at ho
      cases ho
      exact ⟨Nat.pos_of_ne_zero hz,rfl,hread,hwrite,happend,rfl,rfl,rfl,.inl ⟨rfl,rfl⟩,
        .clean 0 rfl rfl rfl rfl,nofun⟩

/-- All calls on a stream for update give the bytes, counts and positions that they give on the
bytes of the file, and so is the file after a flush. -/
theorem updateStream_refines (hL : Full L.toLower content) (hR : Reads L content)
    (hm : fopenParseMode mode = .ok m) (hplus : m.plus = true) (happend : m.append = false)
    (ho : openFile L mode vbuf fs₀ = .ok (s,fs)) (ops : List UpdateOp)
    (hfit : (ByteFile.mk (content fs₀) 0).NoOverflow (vbuf.getD clientStreamBufsize) ops) :
    runCalls L content s fs ops = some ((ByteFile.mk (content fs₀) 0).run ops) := by
  obtain ⟨hpos,-,htracks⟩ := openFile_tracks hm hplus happend ho
  exact runCalls_tracks htracks hL hR hpos hfit

def plainUpdateFile : FileLower (List UInt8) where
  toLower := plainFile
  fdRead file pos n := (Rc.success,(file.drop pos.toNat).take n,file)

theorem plainUpdateFile_reads : Reads plainUpdateFile id := fun _ _ _ _ => ⟨rfl,rfl,rfl⟩

/-- A read, an overwrite of what was read, and a read over the end, with a buffer of two bytes. -/
def mixedCalls : List UpdateOp :=
  [.fread 1 1,.fwrite ⟨1,3,[7,8,9],rfl⟩,.fseek (-3) .cur,.fread 2 4,.fflush]

theorem updateStream_refines_mixed : ∃ s fs,
    openFile plainUpdateFile ['r','+'] (some 2) [1,2,3,4,5] = .ok (s,fs) ∧
    runCalls plainUpdateFile id s fs mixedCalls =
      some [(.read 1 [1],1),(.wrote 3,4),(.sought false,1),(.read 2 [7,8,9,5],5),
        (.flushed false [1,7,8,9,5],5)] := by
  obtain ⟨s,fs,hopen⟩ : ∃ s fs, openFile plainUpdateFile ['r','+'] (some 2) [1,2,3,4,5] =
    .ok (s,fs) := ⟨_,_,rfl⟩
  refine ⟨s,fs,hopen,?_⟩
  have hmode : fopenParseMode ['r','+'] = .ok ⟨true,false,false,true⟩ := rfl
  exact updateStream_refines plainFile_full plainUpdateFile_reads hmode rfl rfl hopen mixedCalls
    (by decide)

end Open

end UnifyFS.UpdateStream
