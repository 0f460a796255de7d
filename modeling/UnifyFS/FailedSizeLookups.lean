import UnifyFS.AppendStream
import UnifyFS.StdioUpdates
import UnifyFS.SysioCalls

/-!
# Size lookups that fail

`unifyfs_fid_logical_size` returns -1 if the server does not tell the size, and none of its callers
looks for that. They take it for a size: a seek goes to the position one before the offset, and an
append write starts at -1. The extent of such a write starts at the last offset that a word can
hold. Before the lookup all pending extents were synced.

So a call fails and leaves everything as it was only where something else stops it: a seek with an
offset that gives a negative position, a write that the layer below would refuse anywhere, or on a
stream with a buffer a line that is too long or a full buffer that is not written out. And nothing
must have been pending.
-/
namespace UnifyFS.FailedSizeLookups
open MachineWords RangeLists RangeTrees SegTreeOps WriteIndex StdioStream StdioUpdates AppendStream
open List Option
open FileDescriptors SysioCalls

def bufferOf (s : Stream) : ℤ × List UInt8 × Bool :=
  if s.hasBuf then (s.bufpos,s.buf,s.bufdirty) else (0,[],false)

variable {ω : Type}

structure Rejected (d : FileDesc) (f : Entry ω) (out : CallResult ω) : Prop where
  ret : out.ret = -1
  pos : out.desc.pos = d.pos
  pending : out.entry.pending = f.pending

structure StreamKept (s : Stream) (f : Entry ω) (s' : Stream) (f' : Entry ω) : Prop where
  pos : s'.pos = s.pos
  pending : f'.pending = f.pending
  buffer : bufferOf s' = bufferOf s

def SeekRejected (s : FileStream) (f : Entry ω) (out : Bool × FileStream × Entry ω) : Prop :=
  out.1 = true ∧ StreamKept s.toStream f out.2.1.toStream out.2.2

def WriteRejected (s : Stream) (f : Entry ω) (out : Option (Rc × Stream × Entry ω)) : Prop :=
  ∃ rc s' f', out = some (rc,s',f') ∧ rc ≠ Rc.success ∧ StreamKept s f s' f'

/-- A lookup has nothing to sync. -/
def Settled (f : Entry ω) : Prop := f.laminated = true ∨ f.pending = []

/-- A write fails, whatever its position is. -/
def Refused (E : Outside ω) (cfg : ClientConfig) (canWrite : Bool) (f : Entry ω)
    (data : List UInt8) : Prop :=
  FileAttr.sIsdir f.filemeta.attrs.mode = true ∨ canWrite = false ∨
    data ≠ [] ∧ (f.laminated = true ∨ f.filemeta.storage ≠ .logio ∨
      (E.logWrite f.outside data).1 ≠ Rc.success ∨
      cfg.useWriteSync = true ∧
        (E.syncRpc (E.logWrite f.outside data).2.2.2).1 ≠ Rc.success)

/-- A buffered write at the position -1 comes to its end before it puts a byte into the buffer,
because the line is too long or because the buffer is full and the flush fails. A clean buffer is
first moved to that position. -/
def Stuck (E : Outside ω) (cfg : ClientConfig) (S : Picker LogPtr) (s : Stream) (f : Entry ω)
    (data : List UInt8) : Prop :=
  data ≠ [] ∧ (nextBytes s data = none ∧ (s.bufdirty = true ∨ s.bufpos = -1 ∧ s.buf = []) ∨
    nextBytes s data = some (0,true) ∧ s.bufdirty = true ∧
      (streamFlush (entryLower E cfg S true) s f).1 ≠ Rc.success)

/-- The first flush of a buffered write at the position -1, which writes out what the buffer had
and the first bytes of the data, succeeds. -/
def Flushed (E : Outside ω) (cfg : ClientConfig) (S : Picker LogPtr) (s : Stream) (f : Entry ω)
    (data : List UInt8) : Prop :=
  ∃ bytes, nextBytes (s.startBuffer (-1)) data = some (bytes,true) ∧
    (streamFlush (entryLower E cfg S true) ((s.startBuffer (-1)).copyIn (data.take bytes)) f).1 =
      Rc.success

variable {E : Outside ω} {cfg : ClientConfig} {S : Picker LogPtr} {f : Entry ω}

section Lookup
variable {m : FileMeta}

theorem syncEntry_idle (h : m.needsWritesSync = false) (w : ω) :
    syncEntry E m w = (Rc.success,m,w) := by
  simp [syncEntry,syncExtents,h]

theorem fidSyncExtents_pending (f : Entry ω) : (fidSyncExtents E f).2.pending = [] :=
  syncExtents_nodes f.due _

theorem fidSyncExtents_synced (f : Entry ω) :
    (fidSyncExtents E f).2.filemeta.needsWritesSync = false := by
  change (syncExtents f.filemeta _).2.1.needsWritesSync = false
  rw [syncExtents_meta]
  split_ifs with h
  · rfl
  · exact Bool.not_eq_true _ ▸ h

theorem fidLogicalSize_pending_iff (f : Entry ω) :
    (fidLogicalSize E f).2.pending = f.pending ↔ Settled f := by
  unfold fidLogicalSize Settled
  split_ifs with hlam
  · exact iff_of_true rfl (.inl hlam)
  · change (fidSyncExtents E f).2.pending = f.pending ↔ _
    rw [fidSyncExtents_pending,or_iff_right hlam,eq_comm]

theorem fidLogicalSize_synced (f : Entry ω) : (fidLogicalSize E f).2.laminated = true ∨
    (fidLogicalSize E f).2.filemeta.needsWritesSync = false := by
  unfold fidLogicalSize
  split_ifs with hlam
  · exact .inl hlam
  · exact .inr (fidSyncExtents_synced f)

/-- An empty tree takes the range as it is, even one that ends before it starts. -/
theorem segTreeAdd_of_nil {t : RangeTree LogPtr} (ht : t.nodes = []) (start stop : ℕ)
    (ptr : BitVec 64) (id : ℕ) : ∃ t', segTreeAdd S t start stop ptr id = some t' ∧
      t'.nodes = [⟨start,stop,⟨ptr,id⟩⟩] := by
  obtain ⟨nodes,count,last⟩ := t
  obtain rfl : nodes = [] := ht
  have hpick : S.pick [] ⟨start,stop,⟨ptr,id⟩⟩ = none := by
    cases hp : S.pick [] ⟨start,stop,⟨ptr,id⟩⟩ with
    | none => rfl
    | some c => cases (S.meets _ _ _ .nil hp).1
  unfold segTreeAdd RangeTree.add clearConflicts
  rw [hpick]
  exact ⟨_,rfl,rfl⟩

theorem recordExtent_pending (E : Outside ω) (cfg : ClientConfig) (S : Picker LogPtr)
    (hsync : f.filemeta.needsWritesSync = false) (w : ω) (pos : ℤ) (logOff : BitVec 64)
    (nwritten : ℕ) : (recordExtent E cfg S f w pos logOff nwritten).pending =
        [⟨offWord pos,offWord (pos + nwritten - 1),⟨logOff,cfg.clientId⟩⟩] ∧
      (recordExtent E cfg S f w pos logOff nwritten).outside = w := by
  have hidle : (if f.filemeta.extentsSync.count ≥ wordSub cfg.maxWriteIndexEntries 2 then
      (syncEntry E f.filemeta w).2 else (f.filemeta,w)) = (f.filemeta,w) := by
    rw [syncEntry_idle hsync,ite_self]
  obtain ⟨t,hadd,hnodes⟩ := segTreeAdd_of_nil (f.due hsync) (offWord pos)
    (offWord (pos + nwritten - 1)) logOff cfg.clientId
  unfold recordExtent addWriteMetaAt
  rw [hidle]
  dsimp only
  rw [hadd]
  exact ⟨hnodes,rfl⟩

theorem fidSyncExtents_rc (hdue : f.filemeta.needsWritesSync = true) (hpend : f.pending ≠ []) :
    (fidSyncExtents E f).1 = (E.syncRpc f.outside).1 := by
  change (syncExtents f.filemeta _).1 = _
  rw [syncExtents_rc,if_pos ⟨hdue,hpend⟩]

theorem wouldOverflowOfft_neg_one (n : ℕ) : wouldOverflowOfft (-1) n = false := by
  unfold wouldOverflowOfft
  rw [if_neg (by omega),if_neg (by omega)]

variable (hsync : f.laminated = true ∨ f.filemeta.needsWritesSync = false)
include hsync

/-- What remains of the conditions once the descriptor allows the write. -/
theorem fidWriteAt_error_iff (pos : ℤ) (data : List UInt8) :
    (fidWriteAt E cfg S f pos data).1 ≠ Rc.success ↔
      data ≠ [] ∧ (f.laminated = true ∨ f.filemeta.storage ≠ .logio ∨
        (E.logWrite f.outside data).1 ≠ Rc.success ∨ cfg.useWriteSync = true ∧
          (E.syncRpc (E.logWrite f.outside data).2.2.2).1 ≠ Rc.success) := by
  unfold fidWriteAt
  by_cases hnil : data = []
  · rw [if_pos (by rw [hnil]; rfl)]
    exact iff_of_false (not_not.mpr rfl) fun h => h.1 hnil
  · rw [if_neg (by rwa [length_eq_zero_iff]),and_iff_right hnil]
    by_cases hlam : f.laminated = true
    · rw [if_pos hlam]
      exact iff_of_true (show Rc.erofs ≠ Rc.success by decide) (.inl hlam)
    · rw [if_neg hlam,or_iff_right hlam]
      by_cases hstore : f.filemeta.storage ≠ .logio
      · rw [if_pos hstore]
        exact iff_of_true (show Rc.eio ≠ Rc.success by decide) (.inl hstore)
      · rw [if_neg hstore,or_iff_right hstore]
        generalize E.logWrite f.outside data = log
        obtain ⟨rc,logOff,nwritten,w⟩ := log
        dsimp only
        by_cases hlog : rc ≠ Rc.success
        · rw [if_pos hlog]
          exact iff_of_true hlog (.inl hlog)
        · rw [if_neg hlog,or_iff_right hlog]
          obtain ⟨hpend,hout⟩ := recordExtent_pending E cfg S (hsync.resolve_left hlam) w
            pos logOff nwritten
          by_cases hws : cfg.useWriteSync = true
          · have hrc := fidSyncExtents_rc (E := E)
              rfl
              (by rw [hpend]; exact cons_ne_nil _ _)
            rw [hout] at hrc
            rw [if_pos hws,and_iff_right hws]
            rw [hrc]
          · rw [if_neg hws]
            exact iff_of_false (not_not.mpr rfl) fun h => hws h.1

theorem fdWrite_error_iff (canWrite : Bool) (data : List UInt8) :
    (fdWrite E cfg S canWrite f (-1) data).1 ≠ Rc.success ↔ Refused E cfg canWrite f data := by
  unfold fdWrite Refused
  rw [wouldOverflowOfft_neg_one]
  by_cases hdir : FileAttr.sIsdir f.filemeta.attrs.mode = true
  · rw [if_pos hdir]
    exact iff_of_true (show Rc.einval ≠ Rc.success by decide) (.inl hdir)
  · rw [if_neg hdir,or_iff_right hdir]
    by_cases hcan : canWrite = false
    · rw [if_pos hcan]
      exact iff_of_true (show Rc.ebadf ≠ Rc.success by decide) (.inl hcan)
    · rw [if_neg hcan,or_iff_right hcan]
      exact fidWriteAt_error_iff hsync (-1) data

theorem fidWriteAt_pending {pos : ℤ} {data : List UInt8}
    (h : (fidWriteAt E cfg S f pos data).1 ≠ Rc.success) :
    (fidWriteAt E cfg S f pos data).2.2.pending = f.pending := by
  unfold fidWriteAt at h ⊢
  generalize E.logWrite f.outside data = log at h ⊢
  dsimp only at h ⊢
  split_ifs at h ⊢ with hnil hlam hstore hlog hws
  · rfl
  · rfl
  · rfl
  · rfl
  · -- the sync after the write failed, but it has emptied the tree
    have hnone := f.due (hsync.resolve_left hlam)
    exact (fidSyncExtents_pending _).trans hnone.symm
  · exact absurd rfl h

theorem fdWrite_pending {canWrite : Bool} {pos : ℤ} {data : List UInt8}
    (h : (fdWrite E cfg S canWrite f pos data).1 ≠ Rc.success) :
    (fdWrite E cfg S canWrite f pos data).2.2.pending = f.pending := by
  unfold fdWrite at h ⊢
  split_ifs at h ⊢
  · rfl
  · rfl
  · rfl
  · exact fidWriteAt_pending hsync h

theorem streamFlush_pending {s : Stream} (hbuf : s.buf ≠ [])
    (h : (streamFlush (entryLower E cfg S true) s f).1 ≠ Rc.success) :
    (streamFlush (entryLower E cfg S true) s f).2.2.pending = f.pending := by
  unfold streamFlush entryLower at h ⊢
  dsimp only at h ⊢
  split_ifs at h ⊢ with _ hwrite
  · exact fdWrite_pending hsync hwrite
  · -- the file is not laminated, because the write has succeeded
    have hlam : ¬ f.laminated = true := by
      intro hlam
      apply hwrite
      unfold fdWrite fidWriteAt
      rw [if_neg (mt length_eq_zero_iff.mp hbuf),if_pos hlam]
      split_ifs <;> (dsimp only; decide)
    have hnone := f.due (hsync.resolve_left hlam)
    exact (fidSyncExtents_pending _).trans hnone.symm
  · exact absurd rfl h
  · exact absurd rfl h

end Lookup

section Descriptor
variable {d : FileDesc}

theorem lseek_rejected_iff (hfail : (fidLogicalSize E f).1 = -1) (d : FileDesc) (offset : ℤ) :
    Rejected d f (lseek E d f offset .fromEnd) ↔ offset ≤ 0 ∧ Settled f := by
  rw [← fidLogicalSize_pending_iff]
  unfold lseek
  dsimp only
  rw [hfail]
  by_cases hneg : -1 + offset < 0
  · rw [if_pos hneg,and_iff_right (show offset ≤ 0 by omega)]
    exact ⟨fun h => h.pending,fun h => ⟨rfl,rfl,h⟩⟩
  · rw [if_neg hneg]
    refine iff_of_false (fun h => ?_) fun h => by omega
    have hret : -1 + offset = -1 := h.ret
    omega

theorem write_eq (hfail : (fidLogicalSize E f).1 = -1) (happ : d.append = true)
    (data : List UInt8) : write E cfg S d f data =
      let r := fdWrite E cfg S d.write (fidLogicalSize E f).2 (-1) data
      if r.1 ≠ Rc.success then ⟨-1,r.1.errno,d,r.2.2⟩
      else ⟨r.2.1,0,{ d with pos := -1 + r.2.1 },r.2.2⟩ := by
  unfold write
  rw [if_pos happ]
  dsimp only
  rw [hfail]

theorem write_rejected_iff (hfail : (fidLogicalSize E f).1 = -1) (happ : d.append = true)
    (data : List UInt8) : Rejected d f (write E cfg S d f data) ↔
      Refused E cfg d.write (fidLogicalSize E f).2 data ∧ Settled f := by
  have hsync := fidLogicalSize_synced (E := E) f
  rw [write_eq hfail happ,← fdWrite_error_iff hsync,← fidLogicalSize_pending_iff (E := E)]
  by_cases hrc : (fdWrite E cfg S d.write (fidLogicalSize E f).2 (-1) data).1 ≠ Rc.success
  · have hpend := fdWrite_pending hsync hrc
    rw [if_pos hrc,and_iff_right hrc,← hpend]
    exact ⟨fun h => h.pending,fun h => ⟨rfl,rfl,h⟩⟩
  · rw [if_neg hrc]
    refine iff_of_false (fun h => ?_) fun h => hrc h.1
    have hret := h.ret
    dsimp only at hret
    omega

end Descriptor

section Loop
variable {σ : Type} {L : Lower σ} {s s' t : Stream} {data : List UInt8} {fs fs' : σ}
  {fuel bytes : ℕ} {current current' : ℤ} {rc : Rc}

theorem streamFlush_dirty (hb : s.hasBuf = true) (hd : s.bufdirty = true) :
    (streamFlush L s fs).2.1 = if (streamFlush L s fs).1 = Rc.success then
      { s with bufdirty := false } else s.fail (streamFlush L s fs).1 := by
  unfold streamFlush
  rw [hb,hd]
  by_cases hwrite : (L.fdWrite fs s.bufpos s.buf).1 = Rc.success
  · by_cases hsync : (L.fidSyncExtents (L.fdWrite fs s.bufpos s.buf).2.2).1 = Rc.success
    · simp [hwrite,hsync]
    · simp [hwrite,hsync]
  · simp [hwrite]

theorem lineBytes_length (h : (lineBytes data).2 = false) : (lineBytes data).1 = data.length := by
  induction data with
  | nil => rfl
  | cons c cs ih =>
    unfold lineBytes at h ⊢
    split_ifs at h ⊢
    exact congrArg (· + 1) (ih h)

/-- Without a flush, the rest of the data stays in the buffer. -/
theorem nextBytes_rest (h : nextBytes s data = some (bytes,false)) : bytes = data.length := by
  unfold nextBytes at h
  dsimp only at h
  split at h
  · split_ifs at h
    obtain ⟨rfl,hline⟩ := Prod.mk.inj (some.inj h)
    exact lineBytes_length hline
  · split_ifs at h
    · cases h
    · exact (Prod.mk.inj (some.inj h)).1.symm

theorem writeLoop_flush (hlen : 0 < data.length)
    (hnext : nextBytes (s.startBuffer current) data = some (bytes,true))
    (hflush : streamFlush L ((s.startBuffer current).copyIn (data.take bytes)) fs = (rc,t,fs')) :
    writeLoop L (fuel + 1) s fs current data = if rc ≠ Rc.success then some (rc,t,fs',current)
      else writeLoop L fuel t fs' (current + bytes) (data.drop bytes) := by
  rw [writeLoop,if_pos hlen]
  dsimp only
  rw [hnext]
  dsimp only
  rw [hflush]
  rfl

theorem writeLoop_long (hlen : 0 < data.length)
    (hnone : nextBytes (s.startBuffer current) data = none) :
    writeLoop L (fuel + 1) s fs current data =
      some (Rc.enomem,(s.startBuffer current).fail Rc.enomem,fs,current) := by
  rw [writeLoop,if_pos hlen]
  dsimp only
  rw [hnone]

/-- One turn of a loop that fails. -/
theorem writeLoop_fails
    (h : writeLoop L (fuel + 1) s fs current data = some (rc,s',fs',current'))
    (hrc : rc ≠ Rc.success) : 0 < data.length ∧
      (nextBytes (s.startBuffer current) data = none ∧
          s' = (s.startBuffer current).fail Rc.enomem ∧ fs' = fs ∨
        ∃ bytes, nextBytes (s.startBuffer current) data = some (bytes,true) ∧
          let out := streamFlush L ((s.startBuffer current).copyIn (data.take bytes)) fs
          (out.1 ≠ Rc.success ∧ s' = out.2.1 ∧ fs' = out.2.2 ∨ out.1 = Rc.success ∧
            writeLoop L fuel out.2.1 out.2.2 (current + bytes) (data.drop bytes) =
              some (rc,s',fs',current'))) := by
  by_cases hlen : 0 < data.length
  · refine ⟨hlen,?_⟩
    cases hnext : nextBytes (s.startBuffer current) data with
    | none =>
      rw [writeLoop_long hlen hnext] at h
      cases h
      exact .inl ⟨rfl,rfl,rfl⟩
    | some next =>
      obtain ⟨bytes,needFlush⟩ := next
      cases needFlush with
      | false =>
        rw [writeLoop,if_pos hlen] at h
        dsimp only at h
        rw [hnext] at h
        dsimp only at h
        rw [nextBytes_rest hnext,drop_length] at h
        cases fuel with
        | zero => cases h
        | succ fuel =>
          cases h
          exact absurd rfl hrc
      | true =>
        rw [writeLoop_flush hlen hnext rfl] at h
        refine .inr ⟨bytes,rfl,?_⟩
        split_ifs at h with hfail
        · cases h
          exact .inl ⟨hfail,rfl,rfl⟩
        · exact .inr ⟨not_not.mp hfail,h⟩
  · rw [writeLoop,if_neg hlen] at h
    cases h
    exact absurd rfl hrc

theorem bufferOf_flush (hb : t.hasBuf = true) (hd : t.bufdirty = true)
    (hrc : (streamFlush L t fs).1 ≠ Rc.success) :
    bufferOf (streamFlush L t fs).2.1 = (t.bufpos,t.buf,true) := by
  rw [streamFlush_dirty hb hd,if_neg hrc]
  unfold bufferOf Stream.fail
  rw [if_pos hb,hd]

theorem dirty_of_flush (h : (streamFlush L s fs).1 ≠ Rc.success) :
    s.hasBuf = true ∧ s.bufdirty = true := by
  by_contra hne
  have hidle : streamFlush L s fs = (Rc.success,s,fs) := if_neg (by simpa using hne)
  rw [hidle] at h
  exact h rfl

theorem copyIn_dirty (hd : s.bufdirty = true) (data : List UInt8) :
    s.copyIn data = withBuffer s s.bufpos (s.buf ++ data) true := by
  unfold Stream.copyIn withBuffer
  split_ifs with hlen
  · rfl
  · obtain rfl := length_eq_zero_iff.mp (Nat.eq_zero_of_not_pos hlen)
    rw [append_nil,← hd]

end Loop

section Streams
variable {s : Stream}

theorem bufferOf_ready (s : Stream) : bufferOf (ready s) = bufferOf s := by
  unfold bufferOf ready
  cases s.hasBuf <;> rfl

theorem ready_hasBuf (s : Stream) : (ready s).hasBuf = true := by
  unfold ready
  split_ifs with hb
  · exact hb
  · rfl

theorem ready_bytes (h : s.hasBuf = true → s.bufdirty = true → s.buf ≠ [])
    (hd : (ready s).bufdirty = true) : (ready s).buf ≠ [] := by
  unfold ready at hd ⊢
  split_ifs at hd ⊢ with hb
  · exact h hb hd

theorem startBuffer_eq_self (h : s.bufdirty = true ∨ s.bufpos = -1 ∧ s.buf = []) :
    s.startBuffer (-1) = s := by
  unfold Stream.startBuffer
  split_ifs with hd
  · rfl
  · obtain ⟨hpos,hbuf⟩ := h.resolve_left hd
    rw [← hpos,← hbuf]

theorem Stuck.not_flushed {data : List UInt8} (h : Stuck E cfg S s f data) :
    ¬ Flushed E cfg S s f data := by
  rintro ⟨bytes,hnext,hok⟩
  obtain ⟨-,⟨hnone,hkept⟩ | ⟨hzero,hd,hfails⟩⟩ := h
  · rw [startBuffer_eq_self hkept,hnone] at hnext
    cases hnext
  · rw [startBuffer_eq_self (.inl hd)] at hnext hok
    rw [hzero] at hnext
    cases hnext
    exact hfails hok

theorem startBuffer_kept (hb : s.hasBuf = true) (h : bufferOf (s.startBuffer (-1)) = bufferOf s) :
    s.bufdirty = true ∨ s.bufpos = -1 ∧ s.buf = [] := by
  unfold bufferOf Stream.startBuffer at h
  cases hd : s.bufdirty with
  | true => exact .inl rfl
  | false =>
    right
    simpa [hb,hd,eq_comm] using h

section
variable (hfail : (fidLogicalSize E f).1 = -1) (happ : s.append = true)
include hfail happ

theorem streamWrite_eq (hcan : s.fdCanWrite = true) (data : List UInt8) :
    streamWrite (entryLower E cfg S true) s f data =
      if s.buftype = .nbf then
        let r := fdWrite E cfg S true (fidLogicalSize E f).2 (-1) data
        if r.1 ≠ Rc.success then some (r.1,(ready s).fail r.1,r.2.2)
        else some (Rc.success,{ ready s with pos := -1 + r.2.1 },r.2.2)
      else
        (writeLoop (entryLower E cfg S true) (2 * data.length + 2) (ready s)
            (fidLogicalSize E f).2 (-1) data).map fun (rc,s,fs,current) =>
          if rc ≠ Rc.success then (rc,s,fs) else (Rc.success,{ s with pos := current },fs) := by
  have hstart : writeStart (entryLower E cfg S true) s f data.length =
      (-1,{ s with ubuflen := 0 },(fidLogicalSize E f).2) := by
    rw [← hfail]
    exact if_pos happ
  unfold streamWrite
  rw [if_neg (by rw [hcan]; decide),hstart]
  dsimp only
  rw [wouldOverflowOfft_neg_one,ensureBuffer_eq]
  dsimp only
  rw [ready_buftype]
  rfl

theorem unbuffered_rejected_iff (hcan : s.fdCanWrite = true) (ht : s.buftype = .nbf)
    (data : List UInt8) : WriteRejected s f (streamWrite (entryLower E cfg S true) s f data) ↔
      Refused E cfg true (fidLogicalSize E f).2 data ∧ Settled f := by
  have hsync := fidLogicalSize_synced (E := E) f
  rw [streamWrite_eq hfail happ hcan,if_pos ht,← fdWrite_error_iff hsync,
    ← fidLogicalSize_pending_iff]
  by_cases hrc : (fdWrite E cfg S true (fidLogicalSize E f).2 (-1) data).1 ≠ Rc.success
  · have hpend := fdWrite_pending hsync hrc
    rw [if_pos hrc,and_iff_right hrc,← hpend]
    constructor
    · rintro ⟨rc,s',f',hout,-,hkept⟩
      cases hout
      exact hkept.pending
    · intro hsame
      exact ⟨_,_,_,rfl,hrc,ready_pos,hsame,bufferOf_ready s⟩
  · rw [if_neg hrc]
    refine iff_of_false ?_ fun h => hrc h.1
    rintro ⟨rc,s',f',hout,hne,-⟩
    cases hout
    exact hne rfl

section
variable (hcan : s.fdCanWrite = true) (ht : s.buftype ≠ .nbf) {data : List UInt8}
include hcan ht

theorem buffered_rejected_iff :
    WriteRejected s f (streamWrite (entryLower E cfg S true) s f data) ↔
      ∃ rc s' f' current, writeLoop (entryLower E cfg S true) (2 * data.length + 2) (ready s)
        (fidLogicalSize E f).2 (-1) data = some (rc,s',f',current) ∧ rc ≠ Rc.success ∧
          StreamKept s f s' f' := by
  rw [streamWrite_eq hfail happ hcan,if_neg ht]
  constructor
  · rintro ⟨rc,s',f',hout,hne,hkept⟩
    obtain ⟨⟨rc₁,s₁,f₁,current⟩,hloop,hpair⟩ := map_eq_some_iff.mp hout
    dsimp only at hpair
    split_ifs at hpair with hrc
    · cases hpair
      exact ⟨_,_,_,_,hloop,hne,hkept⟩
    · cases hpair
      exact absurd rfl hne
  · rintro ⟨rc,s',f',current,hloop,hne,hkept⟩
    refine ⟨rc,s',f',?_,hne,hkept⟩
    rw [hloop,map_some]
    exact congrArg some (if_pos hne)

variable (hs : s.hasBuf = true → s.bufdirty = true → s.buf ≠ [])
include hs

theorem Stuck.rejected (hset : Settled f)
    (h : Stuck E cfg S (ready s) (fidLogicalSize E f).2 data) :
    WriteRejected s f (streamWrite (entryLower E cfg S true) s f data) := by
  rw [buffered_rejected_iff hfail happ hcan ht]
  have hpend := (fidLogicalSize_pending_iff (E := E) f).mpr hset
  have hb := ready_hasBuf s
  obtain ⟨hdata,⟨hlong,hkept⟩ | ⟨hnext,hd,hflush⟩⟩ := h
  · have hself := startBuffer_eq_self hkept
    refine ⟨_,_,_,_,writeLoop_long (length_pos_of_ne_nil hdata) (hself.symm ▸ hlong),by decide,?_⟩
    rw [hself]
    exact ⟨ready_pos,hpend,bufferOf_ready s⟩
  · have hself : (ready s).startBuffer (-1) = ready s := if_pos hd
    generalize hout : streamFlush (entryLower E cfg S true) (ready s) (fidLogicalSize E f).2 = out
      at hflush
    have hturn : writeLoop (entryLower E cfg S true) (2 * data.length + 2) (ready s)
        (fidLogicalSize E f).2 (-1) data = _ :=
      writeLoop_flush (length_pos_of_ne_nil hdata) (hself.symm ▸ hnext) (hself.symm ▸ hout)
    rw [if_pos hflush] at hturn
    refine ⟨_,_,_,_,hturn,hflush,?_⟩
    rw [← hout] at hflush ⊢
    refine ⟨(streamFlush_frame _ _ _).1.trans ready_pos,?_,?_⟩
    · exact (streamFlush_pending (fidLogicalSize_synced f) (ready_bytes hs hd) hflush).trans hpend
    · rw [bufferOf_flush hb hd hflush,← bufferOf_ready s,bufferOf,if_pos hb,hd]

/-- A write that fails, changes nothing and flushes nothing fails in its first turn. -/
theorem buffered_stuck_iff :
    WriteRejected s f (streamWrite (entryLower E cfg S true) s f data) ∧
        ¬ Flushed E cfg S (ready s) (fidLogicalSize E f).2 data ↔
      Stuck E cfg S (ready s) (fidLogicalSize E f).2 data ∧ Settled f := by
  refine ⟨?_,fun h => ⟨h.1.rejected hfail happ hcan ht hs h.2,h.1.not_flushed⟩⟩
  rintro ⟨h,hnot⟩
  obtain ⟨rc,s',f',current,hloop,hrc,hkept⟩ := (buffered_rejected_iff hfail happ hcan ht).mp h
  have hb := ready_hasBuf s
  obtain ⟨hlen,⟨hnone,rfl,rfl⟩ | ⟨bytes,hnext,hflush⟩⟩ := writeLoop_fails hloop hrc
  · have hcase := startBuffer_kept hb (hkept.buffer.trans (bufferOf_ready s).symm)
    rw [startBuffer_eq_self hcase] at hnone
    exact ⟨⟨ne_nil_of_length_pos hlen,.inl ⟨hnone,hcase⟩⟩,
      (fidLogicalSize_pending_iff f).mp hkept.pending⟩
  · obtain ⟨hfails,rfl,rfl⟩ | ⟨hok,-⟩ := hflush
    · obtain ⟨hbuf,hdirty⟩ := dirty_of_flush hfails
      have hbuffer := hkept.buffer
      rw [bufferOf_flush hbuf hdirty hfails,← bufferOf_ready s,bufferOf,if_pos hb] at hbuffer
      have hd : (ready s).bufdirty = true := (congrArg (·.2.2) hbuffer).symm
      have hself : (ready s).startBuffer (-1) = ready s := if_pos hd
      rw [hself,copyIn_dirty hd] at hbuffer
      rw [hself] at hnext hfails hkept
      -- no byte of the data has come to the buffer
      have hsame : (ready s).buf ++ data.take bytes = (ready s).buf := congrArg (·.2.1) hbuffer
      obtain rfl : bytes = 0 := by
        have htake := congrArg length hsame
        rw [length_append,length_take] at htake
        omega
      refine ⟨⟨ne_nil_of_length_pos hlen,.inr ⟨hnext,hd,hfails⟩⟩,?_⟩
      have hpend := streamFlush_pending (fidLogicalSize_synced f) (ready_bytes hs hd) hfails
      exact (fidLogicalSize_pending_iff f).mp (hpend.symm.trans hkept.pending)
    · exact absurd ⟨bytes,hnext,hok⟩ hnot

end

end

theorem streamWrite_forbidden (hcan : s.fdCanWrite = false) (data : List UInt8) :
    WriteRejected s f (streamWrite (entryLower E cfg S s.fdCanWrite) s f data) :=
  ⟨Rc.ebadf,s.fail Rc.ebadf,f,if_pos hcan,by decide,rfl,rfl,rfl⟩

theorem fseek_buffer {σ : Type} (L : FileLower σ) (s : FileStream) (fs : σ) (offset : ℤ)
    (whence : Whence) : bufferOf (fseek L s fs offset whence).2.1.toStream =
      bufferOf (streamFlush L.toLower s.toStream fs).2.1 := by
  unfold fseek
  dsimp only
  split_ifs <;> rfl

theorem fseek_rejected_iff {L : FileLower (Entry ω)} (hL : L.fidLogicalSize = fidLogicalSize E)
    {s : FileStream} (hflush : (streamFlush L.toLower s.toStream f).1 = Rc.success)
    (hfail : (fidLogicalSize E (streamFlush L.toLower s.toStream f).2.2).1 = -1) (offset : ℤ) :
    SeekRejected s f (fseek L s f offset .fromEnd) ↔
      (s.hasBuf && s.bufdirty) = false ∧ offset ≤ 0 ∧ Settled f := by
  cases hd : s.hasBuf && s.bufdirty with
  | true =>
    refine iff_of_false (fun h => ?_) fun h => Bool.noConfusion h.1
    have hbuf := h.2.buffer
    obtain ⟨hb,hdirty⟩ := Bool.and_eq_true_iff.mp hd
    rw [fseek_buffer,streamFlush_dirty hb hdirty,if_pos hflush,bufferOf,bufferOf,if_pos hb,
      if_pos hb,hdirty] at hbuf
    cases hbuf
  | false =>
    have hclean : streamFlush L.toLower s.toStream f = (Rc.success,s.toStream,f) :=
      if_neg (by rw [hd]; decide)
    rw [hclean] at hfail
    rw [and_iff_right rfl,← fidLogicalSize_pending_iff]
    unfold fseek seekBase
    rw [hclean,hL]
    dsimp only at hfail ⊢
    rw [hfail,if_neg (not_not.mpr rfl)]
    by_cases hle : offset ≤ 0
    · rw [and_iff_right hle]
      split_ifs with hover hneg
      · exact ⟨fun h => h.2.pending,fun h => ⟨rfl,rfl,h,rfl⟩⟩
      · exact ⟨fun h => h.2.pending,fun h => ⟨rfl,rfl,h,rfl⟩⟩
      · omega
    · have hover : wouldOverflowOfft (-1) offset = false := by
        unfold wouldOverflowOfft
        rw [if_neg (by omega),if_neg (by omega)]
      rw [hover,if_neg (by decide),if_neg (by omega)]
      exact iff_of_false (fun h => Bool.noConfusion h.1) fun h => hle h.1

end Streams

/-- When the lookup of the size fails, the calls fail and leave the position, the pending extents
and the buffer as they are if and only if nothing is pending or to be flushed, and the offset of a
seek is not positive, or a write is refused for another reason. After a flush a buffered write can
end with the buffer that it had by chance; this does not count. -/
theorem failed_lookup_iff (E : Outside ω) (cfg : ClientConfig) (S : Picker LogPtr)
    (fdRead : Entry ω → ℤ → ℕ → Rc × List UInt8 × Entry ω) (d : FileDesc) (t : FileStream)
    (f : Entry ω) (offset : ℤ) (data : List UInt8) :
    ((fidLogicalSize E f).1 = -1 →
      (Rejected d f (lseek E d f offset .fromEnd) ↔ offset ≤ 0 ∧ Settled f)) ∧
    ((fidLogicalSize E f).1 = -1 → d.append = true →
      (Rejected d f (write E cfg S d f data) ↔
        Refused E cfg d.write (fidLogicalSize E f).2 data ∧ Settled f)) ∧
    ((fidLogicalSize E f).1 = -1 → t.append = true →
      (t.hasBuf = true → t.bufdirty = true → t.buf ≠ []) →
      let rejected := WriteRejected t.toStream f
        (streamWrite (entryLower E cfg S t.fdCanWrite) t.toStream f data)
      if t.fdCanWrite = false then rejected
      else if t.buftype = .nbf then
        (rejected ↔ Refused E cfg true (fidLogicalSize E f).2 data ∧ Settled f)
      else (rejected ∧ ¬ Flushed E cfg S (ready t.toStream) (fidLogicalSize E f).2 data ↔
        Stuck E cfg S (ready t.toStream) (fidLogicalSize E f).2 data ∧ Settled f)) ∧
    ((streamFlush (entryLower E cfg S t.fdCanWrite) t.toStream f).1 = Rc.success →
      (fidLogicalSize E
        (streamFlush (entryLower E cfg S t.fdCanWrite) t.toStream f).2.2).1 = -1 →
      (SeekRejected t f (fseek ⟨entryLower E cfg S t.fdCanWrite,fdRead⟩ t f offset .fromEnd) ↔
        (t.hasBuf && t.bufdirty) = false ∧ offset ≤ 0 ∧ Settled f)) := by
  refine ⟨fun hfail => ?_,fun hfail happ => ?_,fun hfail happ hs => ?_,fun hflush hfail => ?_⟩
  · exact lseek_rejected_iff hfail d offset
  · exact write_rejected_iff hfail happ data
  · dsimp only
    cases hcan : t.fdCanWrite with
    | false =>
      rw [if_pos rfl,← hcan]
      exact streamWrite_forbidden hcan data
    | true =>
      rw [if_neg (by decide)]
      split_ifs with ht
      · exact unbuffered_rejected_iff hfail happ hcan ht data
      · exact buffered_stuck_iff hfail happ hcan ht hs
  · exact fseek_rejected_iff (L := ⟨entryLower E cfg S t.fdCanWrite,fdRead⟩) rfl hflush hfail offset

/-- The server does not tell sizes; writes to the log return `rc`. -/
def silentServer (rc : Rc) : Outside Unit where
  syncRpc _ := (Rc.success,())
  filesizeRpc _ := (Rc.failure,0,())
  logWrite _ data := (rc,0,data.length,())

def newEntry : Entry Unit where
  filemeta := ⟨0,.logio,false,false,false,segTreeInit,FileAttr.zero⟩
  outside := ()
  due _ := rfl

def plainConfig : ClientConfig := ⟨7,64,false⟩

def appendDesc : FileDesc := ⟨3,false,true,true,0,1⟩

def appendStream : FileStream := ⟨fopenStream ⟨false,false,true,false⟩ 3,false,false,[]⟩

def noReads (f : Entry Unit) (_ : ℤ) (_ : ℕ) : Rc × List UInt8 × Entry Unit := (Rc.ebadf,[],f)

/-- One byte is in a buffer of one byte. -/
def fullStream : FileStream :=
  { appendStream with hasBuf := true, bufsize := 1, buf := [5], bufdirty := true }

/-- Seeks to the end itself fail, and with a log that has no room all writes do. -/
theorem failed_lookup_full_log :
    Rejected appendDesc newEntry (lseek (silentServer Rc.enospc) appendDesc newEntry 0 .fromEnd) ∧
    Rejected appendDesc newEntry
      (write (silentServer Rc.enospc) plainConfig .first appendDesc newEntry [7]) ∧
    WriteRejected fullStream.toStream newEntry
      (streamWrite (entryLower (silentServer Rc.enospc) plainConfig .first true)
        fullStream.toStream newEntry [7]) ∧
    SeekRejected appendStream newEntry
      (fseek ⟨entryLower (silentServer Rc.enospc) plainConfig .first true,noReads⟩ appendStream
        newEntry 0 .fromEnd) := by
  obtain ⟨hseek,hwrite,-,hfseek⟩ := failed_lookup_iff (silentServer Rc.enospc) plainConfig .first
    noReads appendDesc appendStream newEntry 0 [7]
  obtain ⟨-,-,hstream,-⟩ := failed_lookup_iff (silentServer Rc.enospc) plainConfig .first
    noReads appendDesc fullStream newEntry 0 [7]
  refine ⟨(hseek rfl).mpr ⟨by decide,.inr rfl⟩,(hwrite rfl rfl).mpr ⟨?_,.inr rfl⟩,?_,
    (hfseek rfl rfl).mpr ⟨rfl,by decide,.inr rfl⟩⟩
  · exact .inr (.inr ⟨by decide,.inr (.inr (.inl (by decide)))⟩)
  · exact ((hstream rfl rfl fun _ _ => by decide).mpr
      ⟨⟨by decide,.inr ⟨rfl,rfl,by decide⟩⟩,.inr rfl⟩).1

/-- Seeks past the end go to the offset less one. A write of one byte returns 1 and leaves an
extent at the last word, and the one on the stream puts the byte in the buffer for -1. -/
theorem failed_lookup_taken_for_size :
    (fidLogicalSize (silentServer Rc.success) newEntry).1 = -1 ∧
    (lseek (silentServer Rc.success) appendDesc newEntry 5 .fromEnd).ret = 4 ∧
    (lseek (silentServer Rc.success) appendDesc newEntry 5 .fromEnd).desc.pos = 4 ∧
    (write (silentServer Rc.success) plainConfig .first appendDesc newEntry [7]).ret = 1 ∧
    (write (silentServer Rc.success) plainConfig .first appendDesc newEntry [7]).desc.pos = 0 ∧
    (write (silentServer Rc.success) plainConfig .first appendDesc newEntry [7]).entry.pending =
      [⟨2 ^ 64 - 1,2 ^ 64 - 1,⟨0,7⟩⟩] ∧
    (∃ s' f', streamWrite (entryLower (silentServer Rc.success) plainConfig .first true)
        appendStream.toStream newEntry [7] = some (Rc.success,s',f') ∧ s'.pos = 0 ∧
      bufferOf s' = (-1,[7],true)) ∧
    (fseek ⟨entryLower (silentServer Rc.success) plainConfig .first true,noReads⟩ appendStream
      newEntry 5 .fromEnd).1 = false ∧
    (fseek ⟨entryLower (silentServer Rc.success) plainConfig .first true,noReads⟩ appendStream
      newEntry 5 .fromEnd).2.1.pos = 4 :=
  ⟨rfl,rfl,rfl,rfl,rfl,by decide,⟨_,_,rfl,rfl,rfl⟩,rfl,rfl⟩

end UnifyFS.FailedSizeLookups
