import UnifyFS.FileDescriptors
import UnifyFS.FileOpens
import UnifyFS.StdioStream

/-!
# Seeking and writing on a descriptor

The wrappers of `lseek` and `write` in `client/src/unifyfs-sysio.c`, with the functions that they
call on the local entry of the file: `unifyfs_fid_sync_extents`, `unifyfs_fid_logical_size`,
`unifyfs_fid_write` and `unifyfs_fd_write`. These are also what a stream calls.

The server and the log of the client have a state of their own, from which their answers come. The
descriptor and its entry are in use. The local cache of extents is left out. A position of type
`off_t` goes into a segment tree as an unsigned word; a search that does not end in a tree out of
order leaves the tree as it is.
-/
namespace UnifyFS.SysioCalls
open MachineWords RangeLists RangeTrees SegTreeOps WriteIndex StdioStream FileDescriptors Option
open ClientFiles (Client FileSlot World Replies getMeta owns)

structure Outside (ω : Type) where
  /-- `invoke_client_sync_rpc` -/
  syncRpc : ω → Rc × ω
  /-- `invoke_client_filesize_rpc` -/
  filesizeRpc : ω → Rc × BitVec 64 × ω
  /-- The allocation and the write in the log: the offset there and the number of bytes written. -/
  logWrite : ω → List UInt8 → Rc × BitVec 64 × ℕ × ω

/-- The local entry of a file. Extents are pending only if a sync is due. -/
structure Entry (ω : Type) where
  filemeta : FileMeta
  outside : ω
  due : filemeta.needsWritesSync = false → filemeta.extentsSync.nodes = []

def Entry.pending {ω : Type} (f : Entry ω) : List (Range LogPtr) := f.filemeta.extentsSync.nodes

def Entry.laminated {ω : Type} (f : Entry ω) : Bool := f.filemeta.attrs.isLaminated ≠ 0

section Calls
variable {ω : Type} (E : Outside ω) (cfg : ClientConfig) (S : Picker LogPtr)

/-- A sync asks the server only if it has extents for it. -/
def syncEntry (m : FileMeta) (w : ω) : Rc × FileMeta × ω :=
  let (reply,w') := E.syncRpc w
  let (rc,m',_) := syncExtents m reply
  (rc,m',if m.needsWritesSync && !m.extentsSync.nodes.isEmpty then w' else w)

def fidSyncExtents (f : Entry ω) : Rc × Entry ω :=
  ((syncEntry E f.filemeta f.outside).1,
    ⟨(syncEntry E f.filemeta f.outside).2.1,(syncEntry E f.filemeta f.outside).2.2,
      fun _ => syncExtents_nodes f.due _⟩)

/-- `-1` when the server does not tell the size. -/
def fidLogicalSize (f : Entry ω) : ℤ × Entry ω :=
  if f.laminated then (f.filemeta.attrs.size.toInt,f)
  else
    let f := (fidSyncExtents E f).2
    let (rc,size,w) := E.filesizeRpc f.outside
    (if rc ≠ Rc.success then -1 else size.toInt,{ f with outside := w })

/-- An `off_t` as an unsigned word. -/
def offWord (pos : ℤ) : ℕ := (pos % (wordSize : ℤ)).toNat

/-- `add_write_meta_to_index`, which does not look at the return codes. -/
def addWriteMetaAt (m : FileMeta) (w : ω) (pos : ℤ) (logOff : BitVec 64) (nwritten : ℕ) :
    FileMeta × ω :=
  let (m,w) :=
    if m.extentsSync.count ≥ wordSub cfg.maxWriteIndexEntries 2 then (syncEntry E m w).2 else (m,w)
  let t := segTreeAdd S m.extentsSync (offWord pos) (offWord (pos + nwritten - 1)) logOff
    cfg.clientId
  ({ m with extentsSync := t.getD m.extentsSync },w)

/-- The extent is recorded, and a sync is due. -/
def recordExtent (f : Entry ω) (w : ω) (pos : ℤ) (logOff : BitVec 64) (nwritten : ℕ) : Entry ω :=
  let (m,w) := addWriteMetaAt E cfg S f.filemeta w pos logOff nwritten
  ⟨{ m with needsWritesSync := true },w,nofun⟩

/-- `unifyfs_fid_write`, with the number of bytes written. -/
def fidWriteAt (f : Entry ω) (pos : ℤ) (data : List UInt8) : Rc × ℕ × Entry ω :=
  if data.length = 0 then (Rc.success,0,f)
  else if f.laminated then (Rc.erofs,0,f)
  else if f.filemeta.storage ≠ .logio then (Rc.eio,0,f)
  else
    let (rc,logOff,nwritten,w) := E.logWrite f.outside data
    if rc ≠ Rc.success then (rc,nwritten,{ f with outside := w })
    else
      let f := recordExtent E cfg S f w pos logOff nwritten
      if cfg.useWriteSync then
        let (rc,f) := fidSyncExtents E f
        (rc,nwritten,f)
      else (Rc.success,nwritten,f)

/-- `unifyfs_fd_write`; the flag is that of the descriptor. -/
def fdWrite (canWrite : Bool) (f : Entry ω) (pos : ℤ) (data : List UInt8) : Rc × ℕ × Entry ω :=
  if FileAttr.sIsdir f.filemeta.attrs.mode then (Rc.einval,0,f)
  else if canWrite = false then (Rc.ebadf,0,f)
  else if wouldOverflowOfft pos data.length then (Rc.eoverflow,0,f)
  else fidWriteAt E cfg S f pos data

def entryLower (canWrite : Bool) : Lower (Entry ω) where
  fdWrite := fdWrite E cfg S canWrite
  fidSyncExtents := fidSyncExtents E
  fidLogicalSize := fidLogicalSize E

inductive SeekWhence where
  | set | cur | fromEnd | data | hole | other
  deriving DecidableEq, Repr

/-- The return value and `errno`, the descriptor and the entry of its file. -/
structure CallResult (ω : Type) where
  ret : ℤ
  errno : Rc
  desc : FileDesc
  entry : Entry ω

def seekError (rc : Rc) (d : FileDesc) (f : Entry ω) : CallResult ω := ⟨-1,rc,d,f⟩

def seekTo (pos : ℤ) (d : FileDesc) (f : Entry ω) : CallResult ω := ⟨pos,0,{ d with pos := pos },f⟩

def lseek (d : FileDesc) (f : Entry ω) (offset : ℤ) : SeekWhence → CallResult ω
  | .set => if offset < 0 then seekError Rc.einval d f else seekTo offset d f
  | .cur => if d.pos + offset < 0 then seekError Rc.einval d f else seekTo (d.pos + offset) d f
  | .fromEnd =>
    let (logicalEof,f) := fidLogicalSize E f
    if logicalEof + offset < 0 then seekError Rc.einval d f
    else seekTo (logicalEof + offset) d f
  | .data =>
    let (logicalEof,f) := fidLogicalSize E f
    if offset < 0 ∨ offset > logicalEof then seekError Rc.enxio d f else seekTo offset d f
  | .hole =>
    let (logicalEof,f) := fidLogicalSize E f
    if offset < 0 ∨ offset > logicalEof then seekError Rc.enxio d f else seekTo logicalEof d f
  | .other => seekError Rc.einval d f

def write (d : FileDesc) (f : Entry ω) (data : List UInt8) : CallResult ω :=
  let (pos,f) := if d.append then fidLogicalSize E f else (d.pos,f)
  let (rc,bytes,f) := fdWrite E cfg S d.write f pos data
  if rc ≠ Rc.success then ⟨-1,rc.errno,d,f⟩ else ⟨bytes,0,{ d with pos := pos + bytes },f⟩

end Calls

section Ordinary
variable {ω : Type} {E : Outside ω} {cfg : ClientConfig} {S : Picker LogPtr}

theorem offWord_natCast {n : ℕ} (h : n < wordSize) : offWord n = n := by
  have hmod : (n : ℤ) % (wordSize : ℤ) = n := Int.emod_eq_of_lt (by omega) (by omega)
  rw [offWord,hmod,Int.toNat_natCast]

/-- At a position that is not negative the extent is the one that the write index has. -/
theorem addWriteMetaAt_eq {m m' : FileMeta} {u : ω} {w : LogWrite} {rs : List (List IndexEntry)}
    (h : addWriteMetaToIndex cfg S m w (E.syncRpc u).1 = some (m',rs)) :
    (addWriteMetaAt E cfg S m u w.pos w.logOff w.nwritten).1 = m' := by
  have hone := w.one_le
  have hfits := w.fits
  have hstart : offWord w.pos = w.pos := offWord_natCast (by omega)
  have hstop : offWord (w.pos + w.nwritten - 1) = w.pos + w.nwritten - 1 := by
    have hcast : (w.pos : ℤ) + w.nwritten - 1 = (w.pos + w.nwritten - 1 : ℕ) := by omega
    rw [hcast,offWord_natCast (by omega)]
  unfold addWriteMetaToIndex at h
  unfold addWriteMetaAt
  rw [hstart,hstop]
  by_cases hcount : m.extentsSync.count ≥ wordSub cfg.maxWriteIndexEntries 2
  · rw [if_pos hcount] at h ⊢
    obtain ⟨t,hadd,hm⟩ := map_eq_some_iff.mp h
    obtain ⟨rfl,-⟩ := Prod.mk.inj hm
    have hsame : (syncEntry E m u).2.1 = (syncExtents m (E.syncRpc u).1).2.1 := rfl
    dsimp only
    rw [hsame,hadd]
    rfl
  · rw [if_neg hcount] at h ⊢
    obtain ⟨t,hadd,hm⟩ := map_eq_some_iff.mp h
    obtain ⟨rfl,-⟩ := Prod.mk.inj hm
    dsimp only
    rw [hadd]
    rfl

section Table
variable {c : Client} {fid : ℕ} {s : FileSlot} {f : Entry ω} (hs : c.files[fid]? = some s)
  (hmark : ¬ s.Marked fid)
include hs hmark

theorem getMeta_run : (getMeta (some fid)).run ⟨c,[]⟩ = some (some s.filemeta,⟨c,[]⟩) := by
  change some ((c.getMetaFromFid fid).1,World.mk (c.getMetaFromFid fid).2 []) = _
  rw [Client.getMetaFromFid_of_not_marked hs hmark]

theorem bind_getMeta_run {α : Type} (g : Option FileMeta → α) :
    (do let m ← getMeta (some fid); pure (g m) : Triples.Prog World α).run ⟨c,[]⟩ =
      some (g (some s.filemeta),⟨c,[]⟩) := by
  rw [StateT.run_bind,getMeta_run hs hmark]
  rfl

variable (hown : s.filemeta.fid = fid) (hf : f.filemeta = s.filemeta)
include hown hf

/-- In the table of the client, with no callback to come, the entry is synced in the same way. -/
theorem fidSyncExtents_run : ∃ c',
    (ClientFiles.fidSyncExtents (some fid) (E.syncRpc f.outside).1).run ⟨c,[]⟩ =
      some ((fidSyncExtents E f).1,⟨c',[]⟩) ∧
    c'.files[fid]? = some { s with filemeta := (fidSyncExtents E f).2.filemeta } := by
  have howns : owns (some fid) s.filemeta = true := by simp [owns,hown]
  refine ⟨c.modifyMeta fid fun m => (syncExtents m (E.syncRpc f.outside).1).2.1,?_,?_⟩
  · rw [ClientFiles.fidSyncExtents,StateT.run_bind,getMeta_run hs hmark]
    change (if owns (some fid) s.filemeta then _ else _ : Triples.Prog World Rc).run ⟨c,[]⟩ = _
    rw [if_pos howns,← hf]
    rfl
  · change _ = some { s with filemeta := (syncExtents f.filemeta _).2.1 }
    rw [hf]
    exact Client.getElem?_modifySlot_self _ hs

/-- And so is its size looked up. -/
theorem fidLogicalSize_run {r : Replies} (hsync : r.sync = (E.syncRpc f.outside).1)
    (hsize : r.filesize = ((E.filesizeRpc (fidSyncExtents E f).2.outside).1,
      (E.filesizeRpc (fidSyncExtents E f).2.outside).2.1.toInt)) : ∃ c',
    (ClientFiles.fidLogicalSize (some fid) r).run ⟨c,[]⟩ = some ((fidLogicalSize E f).1,⟨c',[]⟩) ∧
    c'.files[fid]? = some { s with filemeta := (fidLogicalSize E f).2.filemeta } := by
  have howns : owns (some fid) s.filemeta = true := by simp [owns,hown]
  have hlam : (ClientFiles.fidIsLaminated (some fid)).run ⟨c,[]⟩ = some (f.laminated,⟨c,[]⟩) := by
    refine (bind_getMeta_run hs hmark _).trans ?_
    rw [any_some,howns,Bool.true_and,Entry.laminated,hf,bne,beq_eq_decide,decide_not]
  rw [ClientFiles.fidLogicalSize,StateT.run_bind,hlam]
  change ∃ c', (if f.laminated then _ else _ : Triples.Prog World ℤ).run ⟨c,[]⟩ = _ ∧ _
  unfold fidLogicalSize
  by_cases h : f.laminated = true
  · rw [if_pos h,if_pos h,hf]
    exact ⟨c,bind_getMeta_run hs hmark _,hs⟩
  · obtain ⟨c',hrun,hslot⟩ := fidSyncExtents_run (E := E) hs hmark hown hf
    have hsame := ClientFiles.syncExtents_same s (E.syncRpc f.outside).1
    have hmark' : ¬ FileSlot.Marked fid { s with filemeta := (fidSyncExtents E f).2.filemeta } := by
      change ¬ FileSlot.Marked fid { s with filemeta := (syncExtents f.filemeta _).2.1 }
      rw [hf]
      exact hsame.not_marked hmark
    rw [if_neg h,if_neg h,StateT.run_bind,hsync,hrun,bind_eq_bind,bind_some,StateT.run_bind,
      ClientFiles.gfidFromFid,bind_getMeta_run hslot hmark',hsize]
    refine ⟨c',?_,hslot⟩
    by_cases hrc : (E.filesizeRpc (fidSyncExtents E f).2.outside).1 = Rc.success
    · simp [hrc]
    · simp [hrc]

end Table
end Ordinary
end UnifyFS.SysioCalls
