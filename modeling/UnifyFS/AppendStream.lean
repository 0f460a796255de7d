import UnifyFS.ByteBuffers
import UnifyFS.StdioStream

/-!
# Fully buffered append streams

A stream opened with `a` or `a+` takes every write to "the end of the file", and
`unifyfs_stream_write` asks for the file size to find it. The size does not count
the bytes that still sit in the dirty stream buffer, so a write that meets a
dirty buffer starts too low. Whether this happens depends only on the sequence of
calls and on the buffer size; `paced` decides it.

The lower layer is any `Lower` whose calls succeed in full. Files whose size
would exceed `off_t` are excluded: `unifyfs_stream_write` refuses them.
-/
namespace UnifyFS.AppendStream
open ByteBuffers StdioStream List Option

/-- Every lower-level write, sync and size lookup succeeds in full; `content`
reads the file out of the lower-level state. -/
structure Full {σ : Type} (L : Lower σ) (content : σ → List UInt8) : Prop where
  write : ∀ fs (pos : ℕ) data, (pos : ℤ) + data.length ≤ maxOfft →
    (L.fdWrite fs pos data).1 = Rc.success ∧ (L.fdWrite fs pos data).2.1 = data.length ∧
      content (L.fdWrite fs pos data).2.2 = overwrite 0 (content fs) pos data
  sync : ∀ fs, (L.fidSyncExtents fs).1 = Rc.success ∧
    content (L.fidSyncExtents fs).2 = content fs
  size : ∀ fs, (L.fidLogicalSize fs).1 = (content fs).length ∧
    content (L.fidLogicalSize fs).2 = content fs

inductive StreamOp where
  | fwrite (w : WriteArgs)
  | fflush
  deriving DecidableEq, Repr

def StreamOp.bytes : StreamOp → List UInt8
  | .fwrite w => w.ptr
  | .fflush => []

def written (ops : List StreamOp) : List UInt8 := ops.flatMap StreamOp.bytes

section Runs
variable {σ : Type} (L : Lower σ)

def opStep (st : Stream × σ) : StreamOp → Option (Stream × σ)
  | .fwrite w => (fwrite L st.1 st.2 w).map Prod.snd
  | .fflush => some (fflush L st.1 st.2).2

def runOps (st : Stream × σ) (ops : List StreamOp) : Option (Stream × σ) := ops.foldlM (opStep L) st

def openStream (mode : List Char) (vbuf : Option ℕ) (fs : σ) : Except Rc (Stream × σ) :=
  match unifyfsFopen L mode fs,vbuf with
  | .error rc, _ => .error rc
  | .ok (s,fs), none => .ok (s,fs)
  | .ok (s,fs), some size => (setvbuf s .fbf size).map fun s => (s,fs)

/-- After each `fwrite` the position is the end of all data written so far, and a
final flush leaves the original file followed by all data in order. -/
structure AppendsInOrder (content : σ → List UInt8) (orig : List UInt8) (st : Stream × σ)
    (ops : List StreamOp) : Prop where
  position : ∀ pre a post, ops = pre ++ .fwrite a :: post →
    ∃ s fs, runOps L st (pre ++ [.fwrite a]) = some (s,fs) ∧
      ftell s = orig.length + (written (pre ++ [.fwrite a])).length
  contents : ∃ s fs, runOps L st (ops ++ [.fflush]) = some (s,fs) ∧
    content fs = orig ++ written ops

end Runs

/-- What the sequence of calls so far says about the stream: nothing was written
and the position is not at the end of the file, all data is in the file, or some
data is in the buffer only. -/
inductive Phase where
  | unplaced
  | clean
  | dirty
  deriving DecidableEq, Repr

def Phase.allows : Phase → StreamOp → Bool
  | .unplaced, .fwrite w => w.ptr ≠ []
  | .dirty, .fwrite w => w.ptr = []
  | _, _ => true

def Phase.next (bufsize : ℕ) : Phase → StreamOp → Phase
  | p, .fwrite w =>
    if w.ptr = [] then p else if w.ptr.length % bufsize = 0 then .clean else .dirty
  | .dirty, .fflush => .clean
  | p, .fflush => p

def Phase.after (bufsize : ℕ) (p : Phase) (ops : List StreamOp) : Phase :=
  ops.foldl (Phase.next bufsize) p

/-- Only `a` opens the file at its end. -/
def Phase.start (m : OpenMode) (orig : List UInt8) : Phase :=
  if m.plus = true ∧ orig ≠ [] then .unplaced else .clean

/-- No write with data meets a dirty buffer, and no empty write comes before the
stream is placed at the end of its file. -/
def paced (bufsize : ℕ) : Phase → List StreamOp → Bool
  | _, [] => true
  | p, op :: ops => p.allows op && paced bufsize (p.next bufsize op) ops

theorem after_snoc (bufsize : ℕ) (p : Phase) (ops : List StreamOp) (op : StreamOp) :
    p.after bufsize (ops ++ [op]) = (p.after bufsize ops).next bufsize op := by
  simp [Phase.after]

theorem paced_append (bufsize : ℕ) (p : Phase) (ops ops' : List StreamOp) :
    paced bufsize p (ops ++ ops') =
      (paced bufsize p ops && paced bufsize (p.after bufsize ops) ops') := by
  induction ops generalizing p with
  | nil => rfl
  | cons op ops ih =>
    rw [cons_append,paced,paced,ih,Bool.and_assoc]
    rfl

/-- A sequence that is not paced has a first call that is not allowed. -/
theorem exists_of_not_paced {bufsize : ℕ} {p : Phase} {ops : List StreamOp}
    (h : paced bufsize p ops = false) : ∃ pre op post, ops = pre ++ op :: post ∧
      paced bufsize p pre = true ∧ (p.after bufsize pre).allows op = false := by
  induction ops generalizing p with
  | nil => cases h
  | cons op ops ih =>
    cases ha : p.allows op with
    | false => exact ⟨[],op,ops,rfl,rfl,ha⟩
    | true =>
      rw [paced,ha] at h
      obtain ⟨pre,op',post,hops,hpre,hop⟩ := ih h
      refine ⟨op :: pre,op',post,by rw [hops]; rfl,?_,hop⟩
      rw [paced,ha,hpre]
      rfl

section Write
variable {σ : Type} {L : Lower σ} {content : σ → List UInt8} {s : Stream} {fs : σ}
  {data : List UInt8} {bufsize fuel : ℕ} {rc : Rc} {s' : Stream} {fs' : σ}

theorem streamFlush_full (hL : Full L content) (fs : σ) (hb : s.hasBuf = true)
    (hd : s.bufdirty = true) {pos : ℕ} (hpos : s.bufpos = pos)
    (hmax : (pos : ℤ) + s.buf.length ≤ maxOfft) :
    ∃ fs', streamFlush L s fs = (Rc.success,{ s with bufdirty := false },fs') ∧
      content fs' = overwrite 0 (content fs) pos s.buf := by
  obtain ⟨hrc,-,hcontent⟩ := hL.write fs pos s.buf hmax
  have hsync := hL.sync (L.fdWrite fs pos s.buf).2.2
  refine ⟨(L.fidSyncExtents (L.fdWrite fs pos s.buf).2.2).2,?_,hsync.2.trans hcontent⟩
  simp [streamFlush,hb,hd,hpos,hrc,hsync.1]

theorem streamFlush_clean (hd : s.bufdirty = false) : streamFlush L s fs = (Rc.success,s,fs) := by
  simp [streamFlush,hd]

/-- The stream after a write of `data` that found the file `file` and a clean
buffer: the rest that did not fill a buffer is all that is kept back. -/
structure Loaded (bufsize : ℕ) (content : σ → List UInt8) (file data : List UInt8) (s : Stream)
    (fs : σ) : Prop where
  dirty : s.bufdirty = decide (data.length % bufsize ≠ 0)
  bytes : content fs ++ (if s.bufdirty then s.buf else []) = file ++ data
  bufpos : s.bufdirty = true → s.bufpos = (content fs).length
  buflen : s.bufdirty = true → 0 < s.buf.length

def withBuffer (s : Stream) (bufpos : ℤ) (buf : List UInt8) (dirty : Bool) : Stream :=
  { s with bufpos := bufpos, buf := buf, bufdirty := dirty }

theorem copyIn_startBuffer (hd : s.bufdirty = false) (current : ℤ) (hdata : 0 < data.length) :
    (s.startBuffer current).copyIn data = withBuffer s current data true := by
  simp [Stream.startBuffer,Stream.copyIn,withBuffer,hd,hdata]

theorem writeLoop_full_turn (hL : Full L content) (fuel : ℕ) (hb : s.hasBuf = true)
    (ht : s.buftype = .fbf) (hs : s.bufsize = bufsize) (hpos : 0 < bufsize)
    (hd : s.bufdirty = false) (hfull : bufsize ≤ data.length)
    (hmax : ((content fs).length : ℤ) + data.length ≤ maxOfft) :
    ∃ fs', content fs' = content fs ++ data.take bufsize ∧
      writeLoop L (fuel + 1) s fs (content fs).length data =
        writeLoop L fuel (withBuffer s (content fs).length (data.take bufsize) false) fs'
          ((content fs).length + bufsize) (data.drop bufsize) := by
  have hnext : nextBytes (s.startBuffer (content fs).length) data = some (bufsize,true) := by
    simp [nextBytes,Stream.startBuffer,hd,ht,hs,hfull]
  have htake : (data.take bufsize).length = bufsize := by simp [hfull]
  obtain ⟨fs',hflush,hcontent⟩ := streamFlush_full
    (s := withBuffer s (content fs).length _ true) hL fs hb rfl rfl
    (by rw [withBuffer,htake]; omega)
  rw [overwrite_end] at hcontent
  refine ⟨fs',hcontent,?_⟩
  rw [writeLoop,if_pos (by omega)]
  dsimp only
  rw [hnext]
  dsimp only
  rw [copyIn_startBuffer hd _ (by omega),hflush]
  rfl

theorem writeLoop_rest (hfuel : data.length ≤ fuel) (ht : s.buftype = .fbf)
    (hs : s.bufsize = bufsize) (hd : s.bufdirty = false) (hlen : 0 < data.length)
    (hrest : data.length < bufsize) (current : ℤ) : writeLoop L (fuel + 1) s fs current data =
      some (Rc.success,withBuffer s current data true,fs,current + data.length) := by
  have hnext : nextBytes (s.startBuffer current) data = some (data.length,false) := by
    simp [nextBytes,Stream.startBuffer,hd,ht,hs,hrest]
  obtain ⟨fuel,rfl⟩ : ∃ k, fuel = k + 1 := ⟨fuel - 1,by omega⟩
  rw [writeLoop,if_pos hlen]
  dsimp only
  rw [hnext]
  dsimp only
  rw [take_length,copyIn_startBuffer hd _ hlen,if_neg (by decide),drop_length,
    writeLoop,if_neg (by decide)]

/-- Full buffers go to the file one after the other, the rest stays behind. The
induction is on the fuel; every turn but the last consumes a full buffer. -/
theorem writeLoop_clean (hL : Full L content) (hfuel : data.length < fuel) (hb : s.hasBuf = true)
    (ht : s.buftype = .fbf) (hs : s.bufsize = bufsize) (hpos : 0 < bufsize)
    (hd : s.bufdirty = false) (hmax : ((content fs).length : ℤ) + data.length ≤ maxOfft) :
    ∃ bufpos buf dirty fs', writeLoop L fuel s fs (content fs).length data =
        some (Rc.success,withBuffer s bufpos buf dirty,fs',
          ((content fs).length + data.length : ℤ)) ∧
      Loaded bufsize content (content fs) data (withBuffer s bufpos buf dirty) fs' := by
  induction fuel generalizing s fs data with
  | zero => omega
  | succ fuel ih =>
    rcases Nat.eq_zero_or_pos data.length with hz | hlen
    · have hnil := length_eq_zero_iff.mp hz
      subst hnil
      refine ⟨s.bufpos,s.buf,s.bufdirty,fs,by simp [writeLoop,withBuffer],?_⟩
      constructor <;> simp [withBuffer,hd]
    by_cases hfull : bufsize ≤ data.length
    · obtain ⟨fs',hcontent,hturn⟩ := writeLoop_full_turn hL fuel hb ht hs hpos hd hfull hmax
      have hdrop : (data.drop bufsize).length = data.length - bufsize := length_drop
      have hsize : (content fs').length = (content fs).length + bufsize := by
        rw [hcontent,length_append,length_take_of_le hfull]
      have hmax' : ((content fs').length : ℤ) + (data.drop bufsize).length ≤ maxOfft := by omega
      have hfuel' : (data.drop bufsize).length < fuel := by omega
      obtain ⟨bufpos,buf,dirty,fs'',hloop,hloaded⟩ := ih (s := withBuffer s (content fs).length
        (data.take bufsize) false) hfuel' hb ht hs rfl hmax'
      have hcast : ((content fs').length : ℤ) = (content fs).length + bufsize := by omega
      have hend : ((content fs).length + bufsize + (data.drop bufsize).length : ℤ) =
          (content fs).length + data.length := by omega
      rw [hcast,hend] at hloop
      refine ⟨bufpos,buf,dirty,fs'',hturn.trans hloop,?_⟩
      have hmod := (Nat.mod_eq_sub_mod hfull).symm
      refine ⟨?_,?_,hloaded.bufpos,hloaded.buflen⟩
      · rw [← hmod,← hdrop]
        exact hloaded.dirty
      · refine hloaded.bytes.trans ?_
        rw [hcontent,append_assoc,take_append_drop]
    · refine ⟨(content fs).length,data,true,fs,
        writeLoop_rest (by omega) ht hs hd hlen (by omega) _,?_⟩
      have hmod : data.length % bufsize = data.length := Nat.mod_eq_of_lt (by omega)
      refine ⟨?_,rfl,fun _ => rfl,fun _ => hlen⟩
      exact (decide_eq_true (by omega)).symm

@[simp] theorem startBuffer_pos (current : ℤ) : (s.startBuffer current).pos = s.pos := by
  unfold Stream.startBuffer
  split_ifs <;> rfl

@[simp] theorem startBuffer_buftype (current : ℤ) :
    (s.startBuffer current).buftype = s.buftype := by
  unfold Stream.startBuffer
  split_ifs <;> rfl

@[simp] theorem copyIn_pos (data : List UInt8) : (s.copyIn data).pos = s.pos := by
  unfold Stream.copyIn
  split_ifs <;> rfl

@[simp] theorem copyIn_buftype (data : List UInt8) : (s.copyIn data).buftype = s.buftype := by
  unfold Stream.copyIn
  split_ifs <;> rfl

theorem streamFlush_frame (L : Lower σ) (s : Stream) (fs : σ) :
    (streamFlush L s fs).2.1.pos = s.pos ∧ (streamFlush L s fs).2.1.buftype = s.buftype := by
  unfold streamFlush
  dsimp only
  split_ifs <;> exact ⟨rfl,rfl⟩

theorem nextBytes_fbf (ht : s.buftype = .fbf) (data : List UInt8) :
    ∃ bytes needFlush, nextBytes s data = some (bytes,needFlush) ∧ bytes ≤ data.length := by
  unfold nextBytes
  rw [ht]
  dsimp only
  split_ifs with h
  · exact ⟨_,_,rfl,h⟩
  · exact ⟨_,_,rfl,Nat.le_refl _⟩

theorem writeLoop_pos {current current' : ℤ} (ht : s.buftype = .fbf)
    (h : writeLoop L fuel s fs current data = some (rc,s',fs',current')) :
    s'.pos = s.pos ∧ (rc = Rc.success → current' = current + data.length) := by
  induction fuel generalizing s fs current data with
  | zero => cases h
  | succ fuel ih =>
    rw [writeLoop] at h
    by_cases hlen : data.length > 0
    · rw [if_pos hlen] at h
      dsimp only at h
      obtain ⟨bytes,needFlush,hnext,hle⟩ := nextBytes_fbf
        (s := s.startBuffer current) (by simpa using ht) data
      rw [hnext] at h
      dsimp only at h
      have hdrop : (data.drop bytes).length = data.length - bytes := length_drop
      obtain ⟨hfpos,hftype⟩ := streamFlush_frame L _ fs
      rw [copyIn_pos,startBuffer_pos] at hfpos
      rw [copyIn_buftype,startBuffer_buftype] at hftype
      split_ifs at h with hflush hrc
      · simp only [some.injEq,Prod.mk.injEq] at h
        obtain ⟨rfl,rfl,rfl,rfl⟩ := h
        exact ⟨hfpos,fun hok => absurd hok hrc⟩
      · obtain ⟨hp,hc⟩ := ih (hftype.trans ht) h
        exact ⟨hp.trans hfpos,fun hok => by rw [hc hok]; omega⟩
      · obtain ⟨hp,hc⟩ := ih (by simpa using ht) h
        exact ⟨hp.trans (by simp),fun hok => by rw [hc hok]; omega⟩
    · rw [if_neg hlen] at h
      obtain ⟨rfl,rfl,rfl,rfl⟩ := h
      exact ⟨rfl,fun _ => by omega⟩

/-- The stream as the write loop of an append stream finds it. -/
def ready (s : Stream) : Stream :=
  if s.hasBuf then { s with ubuflen := 0 }
  else { s with
    ubuflen := 0, hasBuf := true, bufsize := clientStreamBufsize, bufpos := 0, buf := [],
    bufdirty := false }

theorem ensureBuffer_eq (s : Stream) : ensureBuffer { s with ubuflen := 0 } = .ok (ready s) := by
  unfold ensureBuffer ready
  cases s.hasBuf <;> rfl

@[simp] theorem ready_pos : (ready s).pos = s.pos := by
  unfold ready
  split_ifs <;> rfl

@[simp] theorem ready_buftype : (ready s).buftype = s.buftype := by
  unfold ready
  split_ifs <;> rfl

@[simp] theorem ready_append : (ready s).append = s.append := by
  unfold ready
  split_ifs <;> rfl

@[simp] theorem ready_fdCanWrite : (ready s).fdCanWrite = s.fdCanWrite := by
  unfold ready
  split_ifs <;> rfl

/-- In append mode a fully buffered write is the loop, started at the logical size
of the file; a file position that would overflow is refused. -/
theorem streamWrite_append (ha : s.append = true) (hc : s.fdCanWrite = true)
    (ht : s.buftype = .fbf) (data : List UInt8) : streamWrite L s fs data =
      if wouldOverflowOfft (L.fidLogicalSize fs).1 data.length then
        some (Rc.efbig,Stream.fail { s with ubuflen := 0 } Rc.efbig,(L.fidLogicalSize fs).2)
      else (writeLoop L (2 * data.length + 2) (ready s) (L.fidLogicalSize fs).2
          (L.fidLogicalSize fs).1 data).map fun (rc,s,fs,current) =>
        if rc ≠ Rc.success then (rc,s,fs) else (Rc.success,{ s with pos := current },fs) := by
  have hstart : writeStart L s fs data.length =
      ((L.fidLogicalSize fs).1,{ s with ubuflen := 0 },(L.fidLogicalSize fs).2) := by
    unfold writeStart
    rw [if_pos ha]
  have hne : (ready s).buftype ≠ .nbf := by
    rw [ready_buftype,ht]
    decide
  unfold streamWrite
  rw [if_neg (by rw [hc]; decide),hstart]
  dsimp only
  rw [ensureBuffer_eq]
  dsimp only
  rw [if_neg hne]

theorem streamWrite_pos (ha : s.append = true) (hc : s.fdCanWrite = true) (ht : s.buftype = .fbf)
    (h : streamWrite L s fs data = some (rc,s',fs')) :
    s'.pos = s.pos ∨ s'.pos = (L.fidLogicalSize fs).1 + data.length := by
  rw [streamWrite_append ha hc ht] at h
  split_ifs at h
  · simp only [some.injEq,Prod.mk.injEq] at h
    rw [← h.2.1]
    exact .inl rfl
  · obtain ⟨⟨rc₁,s₁,fs₁,current⟩,hloop,h⟩ := map_eq_some_iff.mp h
    obtain ⟨hp,hcur⟩ := writeLoop_pos (by rw [ready_buftype,ht]) hloop
    dsimp only at h
    split_ifs at h with hrc
    · rw [← (Prod.mk.inj (Prod.mk.inj h).2).1]
      exact .inl (hp.trans ready_pos)
    · rw [← (Prod.mk.inj (Prod.mk.inj h).2).1]
      exact .inr (hcur (not_not.mp hrc))

end Write

/-- The state of a stream after `w` was written to the file `orig`, in the given
phase. -/
structure Good {σ : Type} (bufsize : ℕ) (content : σ → List UInt8) (orig w : List UInt8) (p : Phase)
    (s : Stream) (fs : σ) : Prop where
  append : s.append = true
  canWrite : s.fdCanWrite = true
  buftype : s.buftype = .fbf
  buffer : (s.hasBuf = true ∧ s.bufsize = bufsize) ∨
    (s.hasBuf = false ∧ s.bufdirty = false ∧ bufsize = clientStreamBufsize)
  dirty : s.bufdirty = decide (p = .dirty)
  bytes : content fs ++ (if s.bufdirty then s.buf else []) = orig ++ w
  bufpos : s.bufdirty = true → s.bufpos = (content fs).length
  buflen : s.bufdirty = true → 0 < s.buf.length
  pos : if p = .unplaced then s.pos = 0 ∧ orig ≠ [] ∧ w = [] else s.pos = orig.length + w.length

section Steps
variable {σ : Type} {L : Lower σ} {content : σ → List UInt8} {bufsize : ℕ} {orig w : List UInt8}
  {p : Phase} {s : Stream} {fs : σ} {a : WriteArgs} {data : List UInt8} {s' : Stream} {fs' : σ}
  {ops : List StreamOp} {m : OpenMode}

theorem wouldOverflowOfft_of_le {a : ℕ} {b : ℤ} (h : a + b ≤ maxOfft) :
    wouldOverflowOfft a b = false := by
  unfold wouldOverflowOfft
  split_ifs
  · simp only [Bool.not_eq_false',decide_eq_true_eq]
    omega
  · omega
  · rfl

theorem streamWrite_clean (hL : Full L content) (hg : Good bufsize content orig w p s fs)
    (hp : p ≠ .dirty) (hpos : 0 < bufsize)
    (hmax : ((orig ++ w).length : ℤ) + data.length ≤ maxOfft) :
    ∃ s' fs', streamWrite L s fs data = some (Rc.success,s',fs') ∧
      Good bufsize content orig (w ++ data)
        (if data.length % bufsize = 0 then .clean else .dirty) s' fs' := by
  have hd : s.bufdirty = false := by rw [hg.dirty]; exact decide_eq_false hp
  have hbytes := hg.bytes
  rw [hd,if_neg (by decide),append_nil] at hbytes
  obtain ⟨hsize,hsame⟩ := hL.size fs
  have hready : (ready s).hasBuf = true ∧ (ready s).bufsize = bufsize ∧
      (ready s).bufdirty = false := by
    rcases hg.buffer with ⟨hb,hs⟩ | ⟨hb,-,hs⟩
    · simp [ready,hb,hs,hd]
    · simp [ready,hb,hs]
  rw [← hsame] at hsize
  rw [streamWrite_append hg.append hg.canWrite hg.buftype,hsize]
  rw [← hbytes,← hsame] at hmax
  rw [wouldOverflowOfft_of_le hmax]
  obtain ⟨bufpos,buf,dirty,fs',hloop,hloaded⟩ := writeLoop_clean hL
    (show data.length < 2 * data.length + 2 by omega) hready.1
    (by rw [ready_buftype,hg.buftype]) hready.2.1 hpos hready.2.2 hmax
  rw [hloop]
  refine ⟨_,_,rfl,?_⟩
  constructor
  · exact ready_append.trans hg.append
  · exact ready_fdCanWrite.trans hg.canWrite
  · exact ready_buftype.trans hg.buftype
  · exact .inl ⟨hready.1,hready.2.1⟩
  · refine hloaded.dirty.trans ?_
    split_ifs with hmod <;> simp [hmod]
  · refine hloaded.bytes.trans ?_
    rw [hsame,hbytes,append_assoc]
  · exact hloaded.bufpos
  · exact hloaded.buflen
  · have hlen : (content (L.fidLogicalSize fs).2).length = orig.length + w.length := by
      rw [hsame,hbytes,length_append]
    rw [if_neg (by split_ifs <;> decide),length_append]
    show ((content (L.fidLogicalSize fs).2).length : ℤ) + data.length = _
    omega

theorem streamWrite_dirty (hL : Full L content) (hg : Good bufsize content orig w .dirty s fs)
    (hdata : 0 < data.length) {rc : Rc} (h : streamWrite L s fs data = some (rc,s',fs')) :
    s'.pos ≠ orig.length + (w ++ data).length := by
  have hd : s.bufdirty = true := hg.dirty
  have hbytes := congrArg List.length hg.bytes
  have hpos := hg.pos
  have hlen := hg.buflen hd
  rw [hd,if_pos rfl,length_append,length_append] at hbytes
  rw [if_neg (by decide)] at hpos
  rw [length_append]
  rcases streamWrite_pos hg.append hg.canWrite hg.buftype h with hp | hp
  · omega
  · rw [(hL.size fs).1] at hp
    omega

theorem fwrite_nil (ha : a.ptr = []) : fwrite L s fs a = some (0,s,fs) := by
  have hz := a.length_eq
  rw [ha] at hz
  unfold fwrite
  rw [if_pos]
  exact Nat.mul_eq_zero.mp hz.symm

theorem fwrite_data (ha : a.ptr ≠ []) : fwrite L s fs a =
    (streamWrite L s fs a.ptr).map fun (rc,s,fs) =>
      if rc ≠ Rc.success then (0,s,fs) else (a.nitems,{ s with errno := 0 },fs) := by
  have hz := a.length_eq
  unfold fwrite
  rw [if_neg]
  rintro (h | h) <;> rw [h] at hz <;> simp at hz <;> exact ha hz

theorem Good.setErrno (hg : Good bufsize content orig w p s fs) (rc : Rc) :
    Good bufsize content orig w p { s with errno := rc } fs :=
  ⟨hg.append,hg.canWrite,hg.buftype,hg.buffer,hg.dirty,hg.bytes,hg.bufpos,hg.buflen,hg.pos⟩

theorem fflush_good (hL : Full L content) (hg : Good bufsize content orig w p s fs)
    (hmax : ((orig ++ w).length : ℤ) ≤ maxOfft) : ∃ s' fs', fflush L s fs = (false,s',fs') ∧
      Good bufsize content orig w (p.next bufsize .fflush) s' fs' ∧ content fs' = orig ++ w := by
  cases hd : s.bufdirty with
  | false =>
    have hp : p ≠ .dirty := by
      have := hg.dirty
      rw [hd] at this
      exact of_decide_eq_false this.symm
    have hnext : p.next bufsize .fflush = p := by cases p <;> first | rfl | exact absurd rfl hp
    have hbytes := hg.bytes
    rw [hd,if_neg (by decide),append_nil] at hbytes
    refine ⟨{ s with errno := 0 },fs,?_,?_,hbytes⟩
    · rw [fflush,streamFlush_clean hd]
      rfl
    · rw [hnext]
      exact hg.setErrno 0
  | true =>
    have hp : p = .dirty := by
      have := hg.dirty
      rw [hd] at this
      exact of_decide_eq_true this.symm
    subst hp
    have hbytes := hg.bytes
    rw [hd,if_pos rfl] at hbytes
    have hbuf : s.hasBuf = true := by
      rcases hg.buffer with ⟨hb,-⟩ | ⟨-,hb,-⟩
      · exact hb
      · rw [hd] at hb
        cases hb
    rw [← hbytes,length_append] at hmax
    obtain ⟨fs',hflush,hcontent⟩ := streamFlush_full hL fs hbuf hd (hg.bufpos hd) (by omega)
    rw [overwrite_end,hbytes] at hcontent
    refine ⟨{ s with bufdirty := false, errno := 0 },fs',?_,?_,hcontent⟩
    · rw [fflush,hflush]
      rfl
    · refine ⟨hg.append,hg.canWrite,hg.buftype,?_,rfl,?_,nofun,nofun,hg.pos⟩
      · rcases hg.buffer with hb | ⟨hb,-⟩
        · exact .inl hb
        · rw [hbuf] at hb
          cases hb
      · exact (append_nil _).trans hcontent

/-- One allowed call keeps the stream in the phase that the calls predict. -/
theorem opStep_good (hL : Full L content) (hpos : 0 < bufsize)
    (hg : Good bufsize content orig w p s fs) {op : StreamOp} (ha : p.allows op = true)
    (hmax : ((orig ++ (w ++ op.bytes)).length : ℤ) ≤ maxOfft) :
    ∃ s' fs', opStep L (s,fs) op = some (s',fs') ∧
      Good bufsize content orig (w ++ op.bytes) (p.next bufsize op) s' fs' := by
  cases op with
  | fflush =>
    rw [StreamOp.bytes,append_nil] at hmax ⊢
    obtain ⟨s',fs',hf,hg',-⟩ := fflush_good hL hg hmax
    refine ⟨s',fs',?_,hg'⟩
    rw [opStep,hf]
  | fwrite a =>
    by_cases hnil : a.ptr = []
    · refine ⟨s,fs,?_,?_⟩
      · rw [opStep,fwrite_nil hnil]
        rfl
      · rw [StreamOp.bytes,hnil,append_nil]
        simp only [Phase.next,hnil,if_true]
        exact hg
    · have hp : p ≠ .dirty := by
        rintro rfl
        exact hnil (of_decide_eq_true ha)
      rw [StreamOp.bytes] at hmax ⊢
      have hfit : ((orig ++ w).length : ℤ) + a.ptr.length ≤ maxOfft := by
        simp only [length_append] at hmax ⊢
        omega
      obtain ⟨s',fs',hw,hg'⟩ := streamWrite_clean hL hg hp hpos hfit
      refine ⟨{ s' with errno := 0 },fs',?_,?_⟩
      · rw [opStep,fwrite_data hnil,hw]
        rfl
      · simp only [Phase.next,hnil,if_false]
        exact hg'.setErrno 0

theorem runOps_good (hL : Full L content) (hpos : 0 < bufsize)
    (hg : Good bufsize content orig w p s fs) (hp : paced bufsize p ops = true)
    (hmax : ((orig ++ (w ++ written ops)).length : ℤ) ≤ maxOfft) :
    ∃ s' fs', runOps L (s,fs) ops = some (s',fs') ∧
      Good bufsize content orig (w ++ written ops) (p.after bufsize ops) s' fs' := by
  induction ops generalizing w p s fs with
  | nil =>
    rw [written,flatMap_nil,append_nil]
    exact ⟨s,fs,rfl,hg⟩
  | cons op ops ih =>
    rw [paced,Bool.and_eq_true] at hp
    have hw : w ++ written (op :: ops) = w ++ op.bytes ++ written ops := by simp [written]
    rw [hw] at hmax ⊢
    obtain ⟨s₁,fs₁,hstep,hg₁⟩ := opStep_good hL hpos hg hp.1 (by
      simp only [length_append] at hmax ⊢
      omega)
    obtain ⟨s',fs',hrun,hg'⟩ := ih hg₁ hp.2 hmax
    refine ⟨s',fs',?_,hg'⟩
    rw [runOps,foldlM_cons,hstep]
    exact hrun

theorem runOps_snoc {st st' : Stream × σ} (h : runOps L st ops = some st') (op : StreamOp) :
    runOps L st (ops ++ [op]) = opStep L st' op := by
  unfold runOps at h ⊢
  rw [foldlM_append,h]
  simp

theorem written_snoc (ops : List StreamOp) (op : StreamOp) :
    written (ops ++ [op]) = written ops ++ op.bytes := by simp [written]

theorem opStep_misplaced (hL : Full L content) (hg : Good bufsize content orig w p s fs)
    (ha : p.allows (.fwrite a) = false) (h : opStep L (s,fs) (.fwrite a) = some (s',fs')) :
    ftell s' ≠ orig.length + (w ++ a.ptr).length := by
  cases p with
  | clean => cases ha
  | unplaced =>
    have hnil : a.ptr = [] := by simpa [Phase.allows] using ha
    obtain ⟨hpos,horig,rfl⟩ := hg.pos
    rw [opStep,fwrite_nil hnil] at h
    cases h
    have hlen := length_pos_iff.mpr horig
    rw [ftell,hpos]
    omega
  | dirty =>
    have hdata : a.ptr ≠ [] := by simpa [Phase.allows] using ha
    rw [opStep,fwrite_data hdata,Option.map_map] at h
    obtain ⟨⟨rc,s₁,fs₁⟩,hw,h⟩ := map_eq_some_iff.mp h
    have hne := streamWrite_dirty hL hg (length_pos_iff.mpr hdata) hw
    dsimp only [Function.comp] at h
    split_ifs at h
    · rw [← (Prod.mk.inj h).1]
      exact hne
    · rw [← (Prod.mk.inj h).1]
      exact hne

theorem fopenPos_spec (hL : Full L content) (ha : m.append = true) (fs₀ : σ) :
    (if Phase.start m (content fs₀) = .unplaced then
        (fopenPos L m fs₀).1 = 0 ∧ content fs₀ ≠ []
      else (fopenPos L m fs₀).1 = (content fs₀).length) ∧
      content (fopenPos L m fs₀).2 = content fs₀ := by
  unfold fopenPos Phase.start
  cases hplus : m.plus with
  | false => simp [ha,(hL.size fs₀).1,(hL.size fs₀).2]
  | true =>
    by_cases hnil : content fs₀ = [] <;> simp [ha,hnil]

theorem openStream_good {mode : List Char} {vbuf : Option ℕ} {fs₀ : σ} (hL : Full L content)
    (hm : fopenParseMode mode = .ok m) (ha : m.append = true)
    (ho : openStream L mode vbuf fs₀ = .ok (s,fs)) : 0 < vbuf.getD clientStreamBufsize ∧
      Good (vbuf.getD clientStreamBufsize) content (content fs₀) []
        (Phase.start m (content fs₀)) s fs := by
  obtain ⟨hpos,hcontent⟩ := fopenPos_spec hL ha fs₀
  have hphase : Phase.start m (content fs₀) ≠ .dirty := by
    unfold Phase.start
    split_ifs <;> decide
  have hwrite : (m.write || m.plus || m.append) = true := by rw [ha,Bool.or_true]
  have hplace : if Phase.start m (content fs₀) = .unplaced then
        (fopenPos L m fs₀).1 = 0 ∧ content fs₀ ≠ [] ∧ ([] : List UInt8) = []
      else (fopenPos L m fs₀).1 = (content fs₀).length + ([] : List UInt8).length := by
    split_ifs at hpos ⊢
    · exact ⟨hpos.1,hpos.2,rfl⟩
    · rw [hpos]
      rfl
  unfold openStream unifyfsFopen at ho
  rw [hm] at ho
  cases vbuf with
  | none =>
    cases ho
    refine ⟨by decide,ha,hwrite,rfl,.inr ⟨rfl,rfl,rfl⟩,(decide_eq_false hphase).symm,?_,nofun,
      nofun,hplace⟩
    exact congrArg (· ++ []) hcontent
  | some size =>
    dsimp only [setvbuf,fopenStream] at ho
    rw [if_neg (by decide)] at ho
    split_ifs at ho with hz
    · cases ho
    cases ho
    refine ⟨Nat.pos_of_ne_zero hz,ha,hwrite,rfl,.inl ⟨rfl,rfl⟩,(decide_eq_false hphase).symm,?_,
      nofun,nofun,hplace⟩
    exact congrArg (· ++ []) hcontent

theorem next_placed (ha : p.allows (.fwrite a) = true) :
    p.next bufsize (.fwrite a) ≠ .unplaced := by
  by_cases hnil : a.ptr = []
  · simp only [Phase.next,hnil,if_true]
    rintro rfl
    simp [Phase.allows,hnil] at ha
  · simp only [Phase.next,hnil,if_false]
    split_ifs <;> decide

end Steps

/-- An append stream keeps all data in order, and its position at the end of it,
if and only if its calls are paced for the size of the buffer. -/
theorem appendsInOrder_iff_paced {σ : Type} {L : Lower σ} {content : σ → List UInt8}
    (hL : Full L content) {mode : List Char} {m : OpenMode} {vbuf : Option ℕ} {fs₀ : σ}
    {st : Stream × σ} (hm : fopenParseMode mode = .ok m) (ha : m.append = true)
    (ho : openStream L mode vbuf fs₀ = .ok st) {ops : List StreamOp}
    (hmax : ((content fs₀).length + (written ops).length : ℤ) ≤ maxOfft) :
    AppendsInOrder L content (content fs₀) st ops ↔
      paced (vbuf.getD clientStreamBufsize) (Phase.start m (content fs₀)) ops = true := by
  obtain ⟨hpos,hg⟩ := openStream_good hL hm ha ho
  constructor
  · intro hall
    by_contra hn
    obtain ⟨pre,op,post,rfl,hpre,hop⟩ := exists_of_not_paced (Bool.eq_false_iff.mpr hn)
    cases op with
    | fflush => cases h : (Phase.start m (content fs₀)).after _ pre <;> rw [h] at hop <;> cases hop
    | fwrite a =>
      obtain ⟨s₁,fs₁,hrun,hg₁⟩ := runOps_good hL hpos hg hpre (by
        simp only [written,flatMap_append,flatMap_cons,length_append,nil_append] at hmax ⊢
        omega)
      obtain ⟨s₂,fs₂,hrun₂,hpos₂⟩ := hall.position pre a post rfl
      rw [runOps_snoc hrun] at hrun₂
      rw [written_snoc] at hpos₂
      exact opStep_misplaced hL hg₁ hop hrun₂ hpos₂
  · intro hp
    constructor
    · rintro pre a post rfl
      rw [paced_append,paced,Bool.and_eq_true,Bool.and_eq_true] at hp
      have hpre : paced (vbuf.getD clientStreamBufsize) (Phase.start m (content fs₀))
          (pre ++ [.fwrite a]) = true := by
        rw [paced_append,hp.1,paced,hp.2.1]
        rfl
      obtain ⟨s',fs',hrun,hg'⟩ := runOps_good hL hpos hg hpre (by
        simp only [written,flatMap_append,flatMap_cons,length_append,
          nil_append,flatMap_nil,append_nil] at hmax ⊢
        omega)
      refine ⟨s',fs',hrun,?_⟩
      have hplace := hg'.pos
      rw [after_snoc,if_neg (next_placed hp.2.1)] at hplace
      exact hplace
    · obtain ⟨s₁,fs₁,hrun,hg₁⟩ := runOps_good hL hpos hg hp (by
        simp only [length_append,nil_append] at hmax ⊢
        omega)
      obtain ⟨s',fs',hflush,-,hcontent⟩ := fflush_good hL hg₁ (by
        simp only [length_append,nil_append] at hmax ⊢
        omega)
      refine ⟨s',fs',?_,hcontent⟩
      rw [runOps_snoc hrun,opStep,hflush]

def plainFile : Lower (List UInt8) where
  fdWrite file pos data := (Rc.success,data.length,overwrite 0 file pos.toNat data)
  fidSyncExtents file := (Rc.success,file)
  fidLogicalSize file := (file.length,file)

theorem plainFile_full : Full plainFile id where
  write _ _ _ _ := ⟨rfl,rfl,rfl⟩
  sync _ := ⟨rfl,rfl⟩
  size _ := ⟨rfl,rfl⟩

def put (bytes : List UInt8) : StreamOp := .fwrite ⟨1,bytes.length,bytes,(Nat.one_mul _).symm⟩

/-- Two writes of which the first fills the buffer, a flush, and a short write. -/
theorem appendsInOrder_paced_calls : ∃ st, openStream plainFile ['a'] (some 4) [7] = .ok st ∧
    AppendsInOrder plainFile id [7] st [put [1,2,3,4],put [5,6],.fflush,put [8]] := by
  have hmode : fopenParseMode ['a'] = .ok ⟨false,false,true,false⟩ := rfl
  obtain ⟨st,hopen⟩ : ∃ st, openStream plainFile ['a'] (some 4) [7] = .ok st := ⟨_,rfl⟩
  refine ⟨st,hopen,(appendsInOrder_iff_paced plainFile_full hmode rfl hopen ?_).mpr ?_⟩
  · decide
  · decide

/-- Three bytes and then four more with a buffer of four: the second write starts
at position zero again, and the flush of the full buffer is overwritten. -/
theorem append_overwrites : ∃ st s, openStream plainFile ['a'] (some 4) [] = .ok st ∧
    runOps plainFile st [put [1,2,3],put [4,5,6,7],.fflush] = some (s,[1,5,6,7]) ∧
    ftell s = 4 ∧ ¬ AppendsInOrder plainFile id [] st [put [1,2,3],put [4,5,6,7]] := by
  refine ⟨_,_,rfl,rfl,by decide,fun h => ?_⟩
  obtain ⟨s,fs,hrun,hfs⟩ := h.contents
  have hval := congrArg (Option.map Prod.snd) hrun
  have hfile : some [1,5,6,7] = some fs := hval
  rw [← some.inj hfile] at hfs
  exact absurd hfs (by decide)

end UnifyFS.AppendStream
