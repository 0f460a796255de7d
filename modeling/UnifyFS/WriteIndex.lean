import UnifyFS.FileAttr
import UnifyFS.MachineWords
import UnifyFS.SegTreeOps

/-!
# The write index of a client

Writes to a file collect in the tree `extents_sync` of its local entry. A sync
copies the nodes of that tree in order into the write index, a region of the
superblock with room for a fixed number of entries, empties the tree and asks the
server to read the index. The tree is emptied whether or not the request succeeds.
A write first syncs when the tree has come within two nodes of the capacity.

The functions here work on the local entry once it has been looked up. The local
cache `extents`, the log itself and the other fields of the client are left out.
-/
namespace UnifyFS.WriteIndex
open MachineWords RangeLists RangeTrees SegTreeOps GuardedRuns

structure IndexEntry where
  filePos : ℕ
  logPos : BitVec 64
  length : ℕ
  gfid : ℤ
  deriving DecidableEq, Repr

inductive FileStorage where
  | null | logio
  deriving DecidableEq, Repr

structure FileMeta where
  fid : ℤ
  storage : FileStorage
  pendingUnlink : Bool
  needsWritesSync : Bool
  needsReadsSync : Bool
  extentsSync : RangeTree LogPtr
  attrs : FileAttr
  deriving DecidableEq, Repr

structure ClientConfig where
  clientId : ℕ
  maxWriteIndexEntries : ℕ
  useWriteSync : Bool
  deriving DecidableEq, Repr

/-- The index that is written and the emptied tree. -/
def rewriteIndexFromSegTree (m : FileMeta) : List IndexEntry × FileMeta :=
  (m.extentsSync.nodes.map fun n =>
      ⟨n.start,n.info.ptr,(n.stop - n.start + 1) % wordSize,m.attrs.gfid⟩,
    { m with extentsSync := segTreeClear m.extentsSync })

/-- `unifyfs_fid_sync_extents` for an entry that was found, with the result of the sync
request. The last part of the result is what was written to the index, if it was. -/
def syncExtents (m : FileMeta) (reply : Rc) : Rc × FileMeta × List (List IndexEntry) :=
  if m.needsWritesSync then
    let (entries,m) := rewriteIndexFromSegTree m
    let m := { m with needsWritesSync := false }
    if entries.isEmpty then (Rc.success,m,[entries]) else (reply,m,[entries])
  else (Rc.success,m,[])

theorem syncExtents_meta (m : FileMeta) (reply : Rc) : (syncExtents m reply).2.1 =
    if m.needsWritesSync then
      { m with extentsSync := segTreeClear m.extentsSync, needsWritesSync := false }
    else m := by
  unfold syncExtents
  dsimp only
  split_ifs <;> rfl

theorem syncExtents_nodes {m : FileMeta}
    (h : m.needsWritesSync = false → m.extentsSync.nodes = []) (reply : Rc) :
    (syncExtents m reply).2.1.extentsSync.nodes = [] := by
  rw [syncExtents_meta]
  split_ifs with hsync
  · exact segTreeClear_nodes _
  · exact h (Bool.not_eq_true _ ▸ hsync)

/-- The server is asked only if there are extents for it. -/
theorem syncExtents_rc (m : FileMeta) (reply : Rc) : (syncExtents m reply).1 =
    if m.needsWritesSync = true ∧ m.extentsSync.nodes ≠ [] then reply else Rc.success := by
  have hempty : (rewriteIndexFromSegTree m).1.isEmpty = true ↔ m.extentsSync.nodes = [] :=
    List.isEmpty_iff.trans List.map_eq_nil_iff
  unfold syncExtents
  by_cases hneeds : m.needsWritesSync = true
  · rw [if_pos hneeds]
    dsimp only
    by_cases hnil : m.extentsSync.nodes = []
    · rw [if_pos (hempty.mpr hnil),if_neg fun h => h.2 hnil]
    · rw [if_neg (hnil ∘ hempty.mp),if_pos ⟨hneeds,hnil⟩]
  · rw [if_neg hneeds,if_neg fun h => hneeds h.1]

def ulongMax : ℕ := wordSize - 1

def fidTruncateWriteMeta (S : Picker LogPtr) (m : FileMeta) (truncSz : ℕ) : Option FileMeta :=
  if truncSz = 0 then some { m with extentsSync := segTreeClear m.extentsSync }
  else
    (segTreeRemove S m.extentsSync truncSz ulongMax).map fun t => { m with extentsSync := t }

/-- `unifyfs_fid_truncate` up to the truncate request. -/
def fidTruncateLocal (S : Picker LogPtr) (m : FileMeta) (length : ℕ) (reply : Rc) :
    Option (Rc × FileMeta × List (List IndexEntry)) :=
  if FileAttr.sIsdir m.attrs.mode then some (Rc.eisdir,m,[])
  else if m.attrs.isLaminated ≠ 0 then some (Rc.einval,m,[])
  else if m.storage ≠ .logio then some (Rc.eio,m,[])
  else
    (fidTruncateWriteMeta S m length).map fun m =>
      let (rc,m,rewritten) := syncExtents m reply
      if rc ≠ Rc.success then (rc,m,rewritten)
      else (Rc.success,{ m with attrs.size := BitVec.ofNat 64 length },rewritten)

/-- A write that reached the log: file position, log offset and number of bytes written.
A log write that succeeds has written something. The position is a signed word and no
write is longer than one, so the end of the write is below the last unsigned word. -/
structure LogWrite where
  pos : ℕ
  logOff : BitVec 64
  nwritten : ℕ
  one_le : 1 ≤ nwritten
  fits : pos + nwritten < wordSize

def addWriteMetaToIndex (cfg : ClientConfig) (S : Picker LogPtr) (m : FileMeta) (w : LogWrite)
    (reply : Rc) : Option (FileMeta × List (List IndexEntry)) :=
  let (m,rewritten) :=
    if m.extentsSync.count ≥ wordSub cfg.maxWriteIndexEntries 2 then (syncExtents m reply).2
    else (m,[])
  (segTreeAdd S m.extentsSync w.pos (w.pos + w.nwritten - 1) w.logOff cfg.clientId).map fun t =>
    ({ m with extentsSync := t },rewritten)

/-- `unifyfs_fid_write` of at least one byte: `log` is the outcome of the allocation and
the write in the log, the replies are those of the sync requests. -/
def fidWrite (cfg : ClientConfig) (S : Picker LogPtr) (m : FileMeta) (log : Except Rc LogWrite)
    (reply reply' : Rc) : Option (Rc × FileMeta × List (List IndexEntry)) :=
  if m.attrs.isLaminated ≠ 0 then some (Rc.erofs,m,[])
  else if m.storage ≠ .logio then some (Rc.eio,m,[])
  else
    match log with
    | .error rc => some (rc,m,[])
    | .ok w =>
      (addWriteMetaToIndex cfg S m w reply).map fun (m,rewritten) =>
        let m := { m with needsWritesSync := true }
        if cfg.useWriteSync then
          let (rc,m,more) := syncExtents m reply'
          (rc,m,rewritten ++ more)
        else (Rc.success,m,rewritten)

end UnifyFS.WriteIndex
