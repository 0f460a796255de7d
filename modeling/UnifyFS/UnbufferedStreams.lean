import UnifyFS.UpdateStream

/-!
# Unbuffered streams for update

A stream with `_IONBF` has a buffer too, which `setvbuf` or the first call gives it. Writes go to
the file without it, but reads fill it and take what they find there: neither a write nor a seek
drops its bytes. So after a write into the part of the file that the buffer holds, a read gives the
old bytes.

Apart from these bytes the calls do what they do on an array of bytes with a position. Where the
buffer was filled last and with which bytes follows from the calls on the array, and so does
whether a read finds old bytes there; `upToDate` decides it. The lower layer is any one whose calls
succeed in full, and nobody else uses the file.
-/
namespace UnifyFS.UpdateStream.Cache

/-- Only reads fill the buffer, and a seek takes the mark away. -/
def after (c : Cache) (bufsize : ℕ) (f : ByteFile) : UpdateOp → Cache
  | .fread size nitems =>
    if c.eof = true ∨ size * nitems = 0 then c
    else { c.filled bufsize f.bytes f.pos (size * nitems) with
      eof := decide ((f.slice (size * nitems)).length < size * nitems) }
  | .fseek offset whence =>
    if f.base whence + offset < 0 then c else { c with eof := false }
  | _ => c

/-- The bytes that a read takes from the buffer are still those of the file. -/
def fresh (c : Cache) (f : ByteFile) : UpdateOp → Bool
  | .fread size nitems => (c.taken f.pos (size * nitems)).isPrefixOf (f.bytes.drop f.pos)
  | _ => true

end UnifyFS.UpdateStream.Cache

namespace UnifyFS.UnbufferedStreams
open ByteBuffers StdioStream StdioUpdates AppendStream UpdateStream List Option

/-- The array as a call finds it. In append mode a write starts at the end. -/
def placed (append : Bool) (f : ByteFile) : UpdateOp → ByteFile
  | .fwrite w => if append = true ∧ w.ptr ≠ [] then { f with pos := f.bytes.length } else f
  | _ => f

theorem placed_true {w : WriteArgs} (f : ByteFile) (hne : w.ptr ≠ []) :
    placed true f (.fwrite w) = { f with pos := f.bytes.length } := if_pos ⟨rfl,hne⟩

theorem placed_bytes (append : Bool) (f : ByteFile) (w : WriteArgs) :
    (placed append f (.fwrite w)).bytes = f.bytes := by
  rw [placed]
  split <;> rfl

theorem length_le_placed {f : ByteFile} (append : Bool) (w : WriteArgs)
    (h : f.bytes.length ≤ f.pos) : f.bytes.length ≤ (placed append f (.fwrite w)).pos := by
  rw [placed]
  split
  · exact Nat.le_refl _
  · exact h

theorem length_le_writeAt (bytes : List UInt8) (pos : ℕ) (data : List UInt8) :
    bytes.length ≤ (writeAt bytes pos data).length := by
  unfold writeAt
  split
  · exact Nat.le_refl _
  · rw [length_overwrite]
    omega

def applyFor (append : Bool) (f : ByteFile) (op : UpdateOp) : Outcome × ByteFile :=
  (placed append f op).apply op

def runFor (append : Bool) : ByteFile → List UpdateOp → List (Outcome × ℤ)
  | _, [] => []
  | f, op :: ops =>
    ((applyFor append f op).1,((applyFor append f op).2.pos : ℤ)) ::
      runFor append (applyFor append f op).2 ops

/-- No offset of a call is too large for `off_t`. -/
def NoOverflowFor (append : Bool) (bufsize : ℕ) : ByteFile → List UpdateOp → Prop
  | _, [] => True
  | f, op :: ops => (placed append f op).Fits bufsize op ∧
      NoOverflowFor append bufsize (applyFor append f op).2 ops

instance decidableNoOverflowFor (append : Bool) (bufsize : ℕ) :
    (f : ByteFile) → (ops : List UpdateOp) → Decidable (NoOverflowFor append bufsize f ops)
  | _, [] => inferInstanceAs (Decidable True)
  | f, op :: ops =>
    have := decidableNoOverflowFor append bufsize (applyFor append f op).2 ops
    inferInstanceAs (Decidable (_ ∧ _))

def upToDate (append : Bool) (bufsize : ℕ) : ByteFile → Cache → List UpdateOp → Bool
  | _, _, [] => true
  | f, c, op :: ops =>
    c.fresh f op && upToDate append bufsize (applyFor append f op).2 (c.after bufsize f op) ops

section Streams
variable {σ : Type} (L : FileLower σ) (content : σ → List UInt8)

def openUnbuffered (mode : List Char) (size : ℕ) (fs : σ) : Except Rc (FileStream × σ) :=
  match fopenParseMode mode,unifyfsFopen L.toLower mode fs with
  | .ok m, .ok (s,fs) =>
    (setvbuf s .nbf size).map fun s => (⟨s,false,m.read || m.plus,[]⟩,fs)
  | .error rc, _ => .error rc
  | _, .error rc => .error rc

/-- A part of the file, if it is not empty. -/
def InFile (bytes : List UInt8) (p : ℕ) (buf : List UInt8) : Prop :=
  buf = [] ∨ p + buf.length ≤ bytes.length

/-- An unbuffered stream for update, at the position of the array. The buffer holds a part of the
file as it was at some time. -/
structure Unbuffered (append : Bool) (bufsize : ℕ) (f : ByteFile) (c : Cache) (s : FileStream)
    (fs : σ) : Prop where
  canRead : s.fdCanRead = true
  canWrite : s.fdCanWrite = true
  append : s.append = append
  buftype : s.buftype = .nbf
  ubuflen : s.ubuflen = 0
  pos : s.pos = f.pos
  hasBuf : s.hasBuf = true
  size : s.bufsize = bufsize
  clean : s.bufdirty = false
  file : content fs = f.bytes
  bufpos : s.bufpos = c.start
  buf : s.buf = c.bytes
  eof : s.eof = c.eof
  inFile : InFile f.bytes c.start c.bytes
  atEnd : c.eof = true → f.bytes.length ≤ f.pos

end Streams

variable {σ : Type} {L : FileLower σ} {content : σ → List UInt8}

theorem InFile.of_slice (bytes : List UInt8) (p n : ℕ) :
    InFile bytes p ((bytes.drop p).take n) := by
  unfold InFile
  rw [← length_eq_zero_iff,length_take,length_drop]
  omega

section Calls
variable {append : Bool} {bufsize : ℕ} {f : ByteFile} {c : Cache} {s : FileStream} {fs : σ}

namespace Unbuffered
variable (h : Unbuffered content append bufsize f c s fs) {w : WriteArgs}
include h

theorem setErrno (rc : Rc) : Unbuffered content append bufsize f c { s with errno := rc } fs :=
  { h with }

theorem length_taken_le (count : ℕ) : (c.taken f.pos count).length ≤ (f.slice count).length := by
  have hin := h.inFile
  rw [ByteFile.slice,length_take,length_drop]
  by_cases hle : c.start ≤ f.pos
  · rw [length_taken c hle]
    rcases hin with hnil | hin
    · rw [hnil,length_nil]
      omega
    · omega
  · rw [Cache.taken,if_neg hle]
    exact Nat.zero_le _

theorem inFile_filled (count : ℕ) : InFile f.bytes (c.filled bufsize f.bytes f.pos count).start
    (c.filled bufsize f.bytes f.pos count).bytes := by
  unfold Cache.filled
  dsimp only
  split
  · exact .of_slice ..
  · exact h.inFile

theorem streamRead_eq (count : ℕ) :
    StdioUpdates.streamRead L s fs count = readBuffered L s fs count := by
  unfold StdioUpdates.streamRead ensureBuffer
  rw [if_neg (by rw [h.canRead]; decide),if_pos h.hasBuf]

theorem streamRead (hR : Reads L content) (hpos : 0 < bufsize) {count : ℕ} (hcount : 0 < count)
    (hfit : (f.pos : ℤ) + count + bufsize ≤ maxOfft) (heof : c.eof = false) :
    ∃ got s' fs', StdioUpdates.streamRead L s fs count = some (Rc.success,s',fs',got) ∧
      got = c.taken f.pos count ++ (f.slice count).drop (c.taken f.pos count).length ∧
      got.length = (f.slice count).length ∧
      Unbuffered content append bufsize { f with pos := f.pos + (f.slice count).length }
        { c.filled bufsize f.bytes f.pos count with eof := decide ((f.slice count).length < count) }
        s' fs' := by
  have htaken := h.length_taken_le count
  have hle : ((f.bytes.drop f.pos).take count).length ≤ count := length_take_le ..
  obtain ⟨fs',hloop,hfile⟩ := readLoop_cached hR (Nat.lt_succ_self count) hcount h.size hpos h.clean
    (show (f.pos : ℤ) + ((f.bytes.drop f.pos).take count).length + bufsize ≤ maxOfft by omega)
    h.file h.bufpos h.buf htaken []
  rw [h.streamRead_eq,readBuffered_eq h.ubuflen (h.eof.trans heof) h.pos (by omega),hloop]
  generalize hgot : c.taken f.pos count ++ ((f.bytes.drop f.pos).take count).drop
    (c.taken f.pos count).length = got
  have hlen : got.length = (f.slice count).length := by
    rw [← hgot,length_append,length_drop,← ByteFile.slice]
    omega
  refine ⟨_,_,_,rfl,hgot.symm,hlen,?_⟩
  refine { h with
    pos := ?_
    clean := rfl
    file := hfile
    bufpos := rfl
    buf := rfl
    eof := ?_
    inFile := h.inFile_filled count
    atEnd := fun hend => slice_short (of_decide_eq_true hend) }
  · change s.pos + (got.length : ℤ) = _
    rw [hlen,h.pos,Int.natCast_add]
  · change (s.eof || decide (got.length < count)) = _
    rw [h.eof,heof,hlen]
    rfl

theorem fread_nothing {size nitems : ℕ} (hnil : f.slice (size * nitems) = [])
    (hstay : c.after bufsize f (.fread size nitems) = c) :
    ([] = f.slice (size * nitems) ↔ c.fresh f (.fread size nitems) = true) ∧
      Unbuffered content append bufsize (f.apply (.fread size nitems)).2
        (c.after bufsize f (.fread size nitems)) s fs := by
  have htaken := h.length_taken_le (size * nitems)
  rw [hnil,length_nil,Nat.le_zero,length_eq_zero_iff] at htaken
  refine ⟨?_,?_⟩
  · rw [Cache.fresh,htaken,hnil]
    exact iff_of_true rfl rfl
  · have hfile : (f.apply (.fread size nitems)).2 = f := by
      rw [ByteFile.apply,hnil]
      rfl
    rw [hfile,hstay]
    exact h

theorem fread (hR : Reads L content) (hpos : 0 < bufsize) {size nitems : ℕ}
    (hfit : f.Fits bufsize (.fread size nitems)) :
    ∃ got s' fs', StdioUpdates.fread L s fs size nitems =
        some ((f.slice (size * nitems)).length / size,got,s',fs') ∧
      (got = f.slice (size * nitems) ↔ c.fresh f (.fread size nitems) = true) ∧
      Unbuffered content append bufsize (f.apply (.fread size nitems)).2
        (c.after bufsize f (.fread size nitems)) s' fs' := by
  by_cases hzero : size = 0 ∨ nitems = 0
  · have hnil := slice_zero f hzero
    refine ⟨[],s,fs,?_,h.fread_nothing hnil (if_pos (.inr (Nat.mul_eq_zero.mpr hzero)))⟩
    rw [StdioUpdates.fread,if_pos hzero,hnil,length_nil,Nat.zero_div]
  · cases heof : c.eof with
    | true =>
      have hnil := slice_atEnd (h.atEnd heof) (size * nitems)
      have hfail : StdioUpdates.streamRead L s fs (size * nitems) = some (Rc.failure,s,fs,[]) := by
        rw [h.streamRead_eq]
        exact if_pos (h.eof.trans heof)
      refine ⟨[],s,fs,?_,h.fread_nothing hnil (if_pos (.inl heof))⟩
      rw [StdioUpdates.fread,if_neg hzero,hfail,hnil,length_nil,Nat.zero_div]
      rfl
    | false =>
      have hcount : 0 < size * nitems := Nat.mul_pos (by omega) (by omega)
      obtain ⟨got,s',fs',hread,hgot,hlen,hnext⟩ := h.streamRead hR hpos hcount hfit heof
      have hle : (f.slice (size * nitems)).length ≤ size * nitems := length_take_le ..
      have hright := append_drop_eq_iff (Nat.le_trans (h.length_taken_le _) hle)
        (f.bytes.drop f.pos)
      have hafter : c.after bufsize f (.fread size nitems) =
          { c.filled bufsize f.bytes f.pos (size * nitems) with
            eof := decide ((f.slice (size * nitems)).length < size * nitems) } :=
        if_neg (not_or.mpr ⟨by rw [heof]; decide,Nat.ne_of_gt hcount⟩)
      refine ⟨got,{ s' with errno := 0 },fs',?_,?_,hafter ▸ hnext.setErrno 0⟩
      · rw [fread_eq hzero hread (hlen ▸ hle),hlen]
      · rw [Cache.fresh, isPrefixOf_iff_prefix,hgot]
        exact hright

section
variable (hL : Full L.toLower content)
include hL

theorem writeStart_eq (hne : w.ptr ≠ []) : ∃ fs', writeStart L.toLower s.toStream fs w.ptr.length =
        (((placed append f (.fwrite w)).pos : ℤ),s.toStream,fs') ∧ content fs' = f.bytes := by
  unfold writeStart
  cases append with
  | true =>
    obtain ⟨hsize,hcontent⟩ := hL.size fs
    have hsame : { s.toStream with ubuflen := 0 } = s.toStream := by rw [← h.ubuflen]
    rw [if_pos h.append,placed_true f hne,← h.file]
    dsimp only
    rw [hsame,hsize]
    exact ⟨_,rfl,hcontent⟩
  | false =>
    have hsame : { s.toStream with ubuflen := s.ubuflen - w.ptr.length } = s.toStream := by
      rw [h.ubuflen,Nat.zero_sub,← h.ubuflen]
    rw [if_neg (by rw [h.append]; decide),hsame,h.pos]
    exact ⟨fs,rfl,h.file⟩

theorem streamWrite (hpos : 0 < w.ptr.length) {p : ℕ} (hp : (placed append f (.fwrite w)).pos = p)
    (hfit : (p : ℤ) + w.ptr.length ≤ maxOfft) :
    ∃ fs', StdioStream.streamWrite L.toLower s.toStream fs w.ptr =
        some (Rc.success,{ s.toStream with pos := p + w.ptr.length },fs') ∧
      content fs' = writeAt f.bytes p w.ptr := by
  obtain ⟨fs₁,hstart,hfile⟩ := h.writeStart_eq hL (length_pos_iff.mp hpos)
  obtain ⟨hrc,hcount,hcontent⟩ := hL.write fs₁ p w.ptr hfit
  have hensure : ensureBuffer s.toStream = .ok s.toStream := if_pos h.hasBuf
  rw [hp] at hstart
  refine ⟨(L.fdWrite fs₁ p w.ptr).2.2,?_,?_⟩
  · unfold StdioStream.streamWrite
    rw [if_neg (by rw [h.canWrite]; decide),hstart]
    dsimp only
    rw [wouldOverflowOfft_of_le hfit,if_neg Bool.false_ne_true,hensure]
    dsimp only
    rw [if_pos h.buftype,if_neg (not_not.mpr hrc),hcount]
  · rw [hcontent,hfile,writeAt_of_pos hpos]

theorem fwrite (hfit : (placed append f (.fwrite w)).Fits bufsize (.fwrite w)) :
    ∃ s' fs', s.fwrite L fs w = some (w.ptr.length / w.size,s',fs') ∧
      Unbuffered content append bufsize (applyFor append f (.fwrite w)).2 c s' fs' := by
  unfold FileStream.fwrite StdioStream.fwrite
  by_cases hzero : w.size = 0 ∨ w.nitems = 0
  · have hnil := ptr_eq_nil hzero
    have hplaced : placed append f (.fwrite w) = f := if_neg fun hboth => hboth.2 hnil
    rw [applyFor,hplaced,apply_fwrite_nil hnil,if_pos hzero,hnil,length_nil,Nat.zero_div]
    exact ⟨s,fs,rfl,h⟩
  · have hpos : 0 < w.ptr.length := by
      rw [w.length_eq]
      exact Nat.mul_pos (by omega) (by omega)
    obtain ⟨fs',hwrite,hfile⟩ := h.streamWrite hL hpos rfl hfit
    rw [if_neg hzero,w.length_eq,Nat.mul_div_cancel_left w.nitems (by omega),hwrite]
    rw [← placed_bytes append f w] at hfile
    refine ⟨_,_,rfl,{ h with pos := rfl, file := hfile, inFile := ?_, atEnd := fun heof => ?_ }⟩
    · have hin := h.inFile
      rw [← placed_bytes append f w] at hin
      exact hin.imp_right fun hle => Nat.le_trans hle (length_le_writeAt ..)
    · refine length_writeAt_le ?_ w.ptr
      rw [placed_bytes]
      exact length_le_placed append w (h.atEnd heof)

end

theorem fflush : s.fflush L fs = (false,{ s with errno := 0 },fs) := by
  unfold FileStream.fflush StdioStream.fflush
  rw [streamFlush_clean h.clean]
  rfl

theorem fseek (hL : Full L.toLower content) {offset : ℤ} {whence : Whence}
    (hfit : f.Fits bufsize (.fseek offset whence)) :
    ∃ s' fs', StdioUpdates.fseek L s fs offset whence =
        (decide (f.base whence + offset < 0),s',fs') ∧
      Unbuffered content append bufsize (f.apply (.fseek offset whence)).2
        (c.after bufsize f (.fseek offset whence)) s' fs' := by
  obtain ⟨fs',hbase,hcontent⟩ := seekBase_eq hL h.pos h.file whence
  rw [fseek_eq (streamFlush_clean h.clean) hbase hfit,ByteFile.apply,Cache.after]
  by_cases hneg : f.base whence + offset < 0
  · rw [if_pos hneg,if_pos hneg,if_pos hneg,decide_eq_true hneg]
    exact ⟨_,_,rfl,{ h with file := hcontent }⟩
  · rw [if_neg hneg,if_neg hneg,if_neg hneg,decide_eq_false hneg]
    refine ⟨_,_,rfl,?_⟩
    exact { h with
      ubuflen := rfl
      pos := (Int.toNat_of_nonneg (Int.not_lt.mp hneg)).symm
      file := hcontent
      eof := rfl
      atEnd heof := Bool.noConfusion heof }

theorem call (hL : Full L.toLower content) (hR : Reads L content) (hpos : 0 < bufsize)
    {op : UpdateOp} (hfit : (placed append f op).Fits bufsize op) :
    ∃ out s' fs', UpdateStream.call L content s fs op = some (out,s',fs') ∧
      (out = (applyFor append f op).1 ↔ c.fresh f op = true) ∧
      Unbuffered content append bufsize (applyFor append f op).2 (c.after bufsize f op) s' fs' := by
  cases op with
  | fread size nitems =>
    obtain ⟨got,s',fs',hread,hright,hnext⟩ := h.fread hR hpos hfit
    refine ⟨.read ((f.slice (size * nitems)).length / size) got,s',fs',?_,?_,hnext⟩
    · rw [UpdateStream.call,hread]
      rfl
    · rw [← hright]
      change Outcome.read _ got = Outcome.read _ (f.slice (size * nitems)) ↔ _
      rw [Outcome.read.injEq]
      exact and_iff_right rfl
  | fwrite w =>
    obtain ⟨s',fs',hwrite,hnext⟩ := h.fwrite hL hfit
    refine ⟨.wrote (w.ptr.length / w.size),s',fs',?_,iff_of_true rfl rfl,hnext⟩
    rw [UpdateStream.call,hwrite]
    rfl
  | fseek offset whence =>
    obtain ⟨s',fs',hseek,hnext⟩ := h.fseek hL hfit
    refine ⟨.sought (decide (f.base whence + offset < 0)),s',fs',?_,iff_of_true ?_ rfl,hnext⟩
    · rw [UpdateStream.call,hseek]
    · exact (apply_fseek_fst f offset whence).symm
  | fflush =>
    refine ⟨.flushed false (content fs),{ s with errno := 0 },fs,?_,iff_of_true ?_ rfl,
      h.setErrno 0⟩
    · rw [UpdateStream.call,h.fflush]
    · rw [h.file]
      rfl

theorem run (hL : Full L.toLower content) (hR : Reads L content) (hpos : 0 < bufsize)
    {ops : List UpdateOp} (hfit : NoOverflowFor append bufsize f ops) :
    runCalls L content s fs ops = some (runFor append f ops) ↔
      upToDate append bufsize f c ops = true := by
  induction ops generalizing f c s fs with
  | nil => exact iff_of_true rfl rfl
  | cons op ops ih =>
    obtain ⟨out,s',fs',hcall,hright,hnext⟩ := h.call hL hR hpos hfit.1
    rw [upToDate,Bool.and_eq_true_iff,← hright,← ih hnext hfit.2,runCalls,hcall,bind_some]
    dsimp only
    rw [ftell,hnext.pos,map_eq_some_iff]
    constructor
    · rintro ⟨outs,hrun,heq⟩
      obtain ⟨hhead,rfl⟩ := List.cons.inj heq
      exact ⟨(Prod.mk.inj hhead).1,hrun⟩
    · rintro ⟨rfl,hrun⟩
      exact ⟨_,hrun,rfl⟩

end Unbuffered
end Calls

section Open
variable {mode : List Char} {m : OpenMode} {size : ℕ} {fs₀ fs : σ} {s : FileStream}

theorem openUnbuffered_unbuffered (hm : fopenParseMode mode = .ok m) (hplus : m.plus = true)
    (ho : openUnbuffered L mode size fs₀ = .ok (s,fs)) :
    0 < size ∧ Unbuffered content m.append size ⟨content fs₀,0⟩ ⟨0,[],false⟩ s fs := by
  have hpos : fopenPos L.toLower m fs₀ = (0,fs₀) := by
    unfold fopenPos
    rw [hplus,Bool.not_true,Bool.and_false]
    rfl
  have hread : (m.read || m.plus) = true := by rw [hplus,Bool.or_true]
  have hwrite : (m.write || m.plus || m.append) = true := by rw [hplus,Bool.or_true,Bool.true_or]
  unfold openUnbuffered at ho
  rw [hm,unifyfsFopen_start hm hpos] at ho
  dsimp only [setvbuf,fopenStream] at ho
  by_cases hz : size = 0
  · rw [if_pos hz] at ho
    cases ho
  · rw [if_neg hz] at ho
    cases ho
    exact ⟨Nat.pos_of_ne_zero hz,hread,hwrite,rfl,rfl,rfl,rfl,rfl,rfl,rfl,rfl,rfl,rfl,rfl,.inl rfl,
      nofun⟩

/-- The calls on an unbuffered stream for update give what they give on the bytes of the file if
and only if no read begins in the part of the file that was read into the buffer last and comes to
bytes there that have changed since. -/
theorem unbuffered_reads_iff (hL : Full L.toLower content) (hR : Reads L content)
    (hm : fopenParseMode mode = .ok m) (hplus : m.plus = true)
    (ho : openUnbuffered L mode size fs₀ = .ok (s,fs)) (ops : List UpdateOp)
    (hfit : NoOverflowFor m.append size ⟨content fs₀,0⟩ ops) :
    runCalls L content s fs ops = some (runFor m.append ⟨content fs₀,0⟩ ops) ↔
      upToDate m.append size ⟨content fs₀,0⟩ ⟨0,[],false⟩ ops = true := by
  obtain ⟨hpos,h⟩ := openUnbuffered_unbuffered hm hplus ho
  exact h.run hL hR hpos hfit

/-- The write is behind the bytes that were read, and they are read again. -/
def behindCalls : List UpdateOp :=
  [.fread 1 2,.fwrite ⟨1,1,[9],rfl⟩,.fseek 0 .set,.fread 1 3]

theorem unbuffered_reads_behind : ∃ s fs,
    openUnbuffered plainUpdateFile ['r','+'] 2 [1,2,3] = .ok (s,fs) ∧
    runCalls plainUpdateFile id s fs behindCalls = some (runFor false ⟨[1,2,3],0⟩ behindCalls) := by
  obtain ⟨s,fs,hopen⟩ : ∃ s fs, openUnbuffered plainUpdateFile ['r','+'] 2 [1,2,3] =
    .ok (s,fs) := ⟨_,_,rfl⟩
  have hmode : fopenParseMode ['r','+'] = .ok ⟨true,false,false,true⟩ := rfl
  exact ⟨s,fs,hopen,(unbuffered_reads_iff plainFile_full plainUpdateFile_reads hmode rfl hopen
    behindCalls (by decide)).mpr (by decide +kernel)⟩

/-- The write is into the bytes that were read. -/
def rereadCalls : List UpdateOp :=
  [.fread 1 2,.fseek 0 .set,.fwrite ⟨1,1,[9],rfl⟩,.fseek 0 .set,.fread 1 3]

/-- The last read gives the byte 1 at the start of the file, where 9 was written. -/
theorem unbuffered_read_stale : ∃ s fs,
    openUnbuffered plainUpdateFile ['r','+'] 2 [1,2,3] = .ok (s,fs) ∧
    NoOverflowFor false 2 ⟨[1,2,3],0⟩ rereadCalls ∧
    runCalls plainUpdateFile id s fs rereadCalls = some [(.read 2 [1,2],2),(.sought false,0),
      (.wrote 1,1),(.sought false,0),(.read 3 [1,2,3],3)] ∧
    runFor false ⟨[1,2,3],0⟩ rereadCalls = [(.read 2 [1,2],2),(.sought false,0),
      (.wrote 1,1),(.sought false,0),(.read 3 [9,2,3],3)] :=
  ⟨_,_,rfl,by decide,by decide +kernel,by decide +kernel⟩

end Open

end UnifyFS.UnbufferedStreams
