import UnifyFS.Triples
import UnifyFS.WriteIndex

/-!
# The local file table of a client

A client keeps an entry for every file it works with. Entries live in a table of
fixed size, and free entries on a stack. A path is looked up by its name; the fid
that is found is then used for one look-up of the metadata after another.

When another process unlinks a file, a callback from the server marks the local
entry. The next look-up of the metadata deletes a marked entry, whoever asks. A
callback may come in at any time: every look-up below first delivers the callbacks
of one more batch. Locks and log output are left out, as are the local cache of
extents and the release of log space.
-/
namespace UnifyFS.ClientFiles
open RangeTrees SegTreeOps WriteIndex Triples

/-- `unifyfs_filename_t` and the metadata at the same index. -/
structure FileSlot where
  inUse : Bool
  filename : String
  filemeta : FileMeta
  deriving DecidableEq, Repr

namespace FileSlot

/-- An unlink callback has marked the entry. -/
def Marked (fid : ℕ) (s : FileSlot) : Prop :=
  s.filemeta.fid = fid ∧ s.filemeta.pendingUnlink = true

instance (fid : ℕ) (s : FileSlot) : Decidable (s.Marked fid) :=
  inferInstanceAs (Decidable (_ ∧ _))

def release (s : FileSlot) : FileSlot := { s with inUse := false, filename := "" }

def editMeta (f : FileMeta → FileMeta) (s : FileSlot) : FileSlot :=
  { s with filemeta := f s.filemeta }

end FileSlot

def setMark (mark : Bool) (m : FileMeta) : FileMeta := { m with pendingUnlink := mark }

structure Client where
  files : List FileSlot
  freeFidStack : List ℕ
  deriving DecidableEq, Repr

namespace Client

def modifySlot (c : Client) (fid : ℕ) (f : FileSlot → FileSlot) : Client :=
  { c with files := c.files.modify fid f }

def modifyMeta (c : Client) (fid : ℕ) (f : FileMeta → FileMeta) : Client :=
  c.modifySlot fid (FileSlot.editMeta f)

def fidFromPath (c : Client) (path : String) : Option ℕ :=
  c.files.findIdx? fun s => s.inUse && s.filename == path

def fidFromGfid (c : Client) (gfid : ℤ) : Option ℕ :=
  c.files.findIdx? fun s => s.inUse && s.filemeta.attrs.gfid == gfid

def freeStorage (m : FileMeta) : FileMeta :=
  { m with
    extentsSync := if m.storage = .logio then segTreeClear m.extentsSync else m.extentsSync
    storage := .null
    fid := -1 }

/-- `unifyfs_fid_delete` with a given look-up of the metadata. -/
def deleteWith (look : Client → Option FileMeta × Client) (c : Client) (fid : ℕ) : Rc × Client :=
  let c := c.modifySlot fid FileSlot.release
  match look c with
  | (some m,c) =>
    if m.fid = fid then
      let c := c.modifyMeta fid freeStorage
      (Rc.success,{ c with freeFidStack := fid :: c.freeFidStack })
    else (Rc.failure,c)
  | (none,c) => (Rc.failure,c)

def deletePlain (c : Client) (fid : ℕ) : Rc × Client :=
  deleteWith (fun c => (c.files[fid]?.map FileSlot.filemeta,c)) c fid

/-- `unifyfs_get_meta_from_fid`. The mark is taken off before the entry is deleted. -/
def getMetaFromFid (c : Client) (fid : ℕ) : Option FileMeta × Client :=
  match c.files[fid]? with
  | none => (none,c)
  | some s =>
    if s.Marked fid then (none,(deletePlain (c.modifyMeta fid (setMark false)) fid).2)
    else (some s.filemeta,c)

def fidDelete (c : Client) (fid : ℕ) : Rc × Client :=
  deleteWith (fun c => c.getMetaFromFid fid) c fid

def unlinkCallback (c : Client) (gfid : ℤ) : Client :=
  match c.fidFromGfid gfid with
  | none => c
  | some fid =>
    match c.getMetaFromFid fid with
    | (some m,c) =>
      if m.fid = fid then c.modifyMeta fid (setMark true) else c
    | (none,c) => c

end Client

/-- The file of an unlink callback. No file has the invalid gfid. -/
structure Notice where
  gfid : ℤ
  valid : gfid ≠ FileAttr.invalidGfid

def Client.deliver (c : Client) (batch : List Notice) : Client :=
  batch.foldl (fun c n => c.unlinkCallback n.gfid) c

structure World where
  client : Client
  arrivals : List (List Notice)

def arrive : Prog World Unit :=
  update fun w => ⟨w.client.deliver (w.arrivals.headD []),w.arrivals.tail⟩

def edit (f : Client → Client) : Prog World Unit := update fun w => { w with client := f w.client }

def onClient {α : Type} (f : Client → α × Client) : Prog World α :=
  step fun w => ((f w.client).1,{ w with client := (f w.client).2 })

/-- No fid is the fid -1 of the source. -/
def fidFromPath (path : String) : Prog World (Option ℕ) := do
  arrive
  query fun w => w.client.fidFromPath path

def getMeta : Option ℕ → Prog World (Option FileMeta)
  | none => do
      arrive
      pure none
  | some fid => do
      arrive
      onClient fun c => c.getMetaFromFid fid

/-- A fid outside of the table addresses memory that is not part of it. -/
def fidDelete : Option ℕ → Prog World Rc
  | none => fault
  | some fid => do
      let n ← query fun w => w.client.files.length
      if fid < n then onClient fun c => c.fidDelete fid else fault

def owns (fid : Option ℕ) (m : FileMeta) : Bool := fid.any fun i => m.fid = i

def fidIsLaminated (fid : Option ℕ) : Prog World Bool := do
  let m ← getMeta fid
  pure (m.any fun m => owns fid m && m.attrs.isLaminated != 0)

def fidIsDir (fid : Option ℕ) : Prog World Bool := do
  let m ← getMeta fid
  pure (m.any fun m => m.attrs.mode &&& FileAttr.sIfdir != 0)

def gfidFromFid (fid : Option ℕ) : Prog World ℤ := do
  let m ← getMeta fid
  pure ((m.map fun m => m.attrs.gfid).getD (-1))

def fidGlobalSize (fid : Option ℕ) : Prog World ℤ := do
  let m ← getMeta fid
  pure ((m.map fun m => m.attrs.size.toInt).getD (-1))

def editMeta (fid : Option ℕ) (f : FileMeta → FileMeta) : Prog World Unit :=
  edit fun c => fid.elim c fun i => c.modifyMeta i f

def fidUpdateFileMeta (fid : Option ℕ) (attr : FileAttr) : Prog World Rc := do
  let m ← getMeta fid
  if m.isSome then do
    editMeta fid fun m => { m with attrs := attr }
    pure Rc.success
  else pure Rc.einval

/-- `unifyfs_fid_sync_extents`, with the answer to the sync request. -/
def fidSyncExtents (fid : Option ℕ) (reply : Rc) : Prog World Rc := do
  match ← getMeta fid with
  | none => pure Rc.success
  | some m =>
    if owns fid m then do
      editMeta fid fun m => (syncExtents m reply).2.1
      pure (syncExtents m reply).1
    else pure Rc.failure

structure Caller where
  uid : BitVec 32
  gid : BitVec 32
  now : Timespec
  deriving DecidableEq, Repr

/-- `UNIFYFS_MAX_FILENAME`, the terminating zero included. -/
def maxFilename : ℕ := 1024

def tooLong (path : String) : Bool := path.utf8ByteSize + 1 > maxFilename

section Open
variable (generateGfid : String → ℤ)

def newMeta (who : Caller) (path : String) (isPrivate : Bool) (fid : ℕ) (m : FileMeta) : FileMeta :=
  { m with
    attrs := { FileAttr.invalid with
      gfid := generateGfid path
      size := 0
      mode := FileAttr.defaultFileMode
      isLaminated := 0
      isShared := if isPrivate then 0 else 1
      filename := some path
      uid := who.uid
      gid := who.gid
      atime := who.now
      mtime := who.now
      ctime := who.now }
    fid := fid
    storage := .null
    needsWritesSync := false
    needsReadsSync := true
    pendingUnlink := false }

def Client.claim (c : Client) (fid : ℕ) (path : String) : Client :=
  let c := c.modifySlot fid fun s => { s with inUse := true, filename := path }
  { c with freeFidStack := c.freeFidStack.tail }

/-- `unifyfs_fid_create_file`; an error is the negated code. -/
def fidCreateFile (who : Caller) (path : String) (isPrivate : Bool) : Prog World (Except Rc ℕ) :=
  if tooLong path then pure (.error Rc.enametoolong)
  else do
    match ← query fun w => w.client.freeFidStack.head? with
    | none => pure (.error Rc.emfile)
    | some fid => do
        let n ← query fun w => w.client.files.length
        if fid < n then do
          edit fun c => c.claim fid path
          let m ← getMeta (some fid)
          -- the source asserts that there is an entry
          if m.isSome then do
            editMeta (some fid) (newMeta generateGfid who path isPrivate fid)
            pure (.ok fid)
          else fault
        else fault

def fidStorageAlloc (fid : ℕ) : Prog World Rc := do
  match ← getMeta (some fid) with
  | none => pure Rc.failure
  | some m =>
    if owns (some fid) m then do
      editMeta (some fid) fun m => { m with extentsSync := segTreeInit, storage := .logio }
      pure Rc.success
    else pure Rc.failure

/-- The answers of the server to the requests of an open. -/
structure Replies where
  create : Rc
  metaget : Rc
  attr : FileAttr
  sync : Rc
  truncate : Rc
  filesize : Rc × ℤ
  deriving DecidableEq, Repr

/-- A fid for the path: the one that was found or a new one. -/
def fetchEntry (who : Caller) (path : String) (isPrivate : Bool) :
    Option ℕ → Prog World (Except Rc ℕ)
  | some fid => pure (.ok fid)
  | none => do
      match ← fidCreateFile generateGfid who path isPrivate with
      | .error rc => pure (.error rc)
      | .ok fid => do
          let rc ← fidStorageAlloc fid
          if rc = Rc.success then pure (.ok fid)
          else do
            let _ ← fidDelete (some fid)
            pure (.error Rc.enomem)

def fidFetch (who : Caller) (path : String) (r : Replies) : Prog World Rc :=
  if tooLong path then pure Rc.enametoolong
  else do
    let fid ← fidFromPath path
    if r.metaget ≠ Rc.success then do
      if fid.isSome then do
        let _ ← fidDelete fid
        pure r.metaget
      else pure r.metaget
    else do
      match ← fetchEntry generateGfid who path (r.attr.isShared = 0) fid with
      | .error rc => pure rc
      | .ok fid => do
          let _ ← fidUpdateFileMeta (some fid) r.attr
          pure Rc.success

def fidTruncate (S : Picker LogPtr) (fid : Option ℕ) (length : ℕ) (r : Replies) :
    Prog World Rc := do
  match ← getMeta fid with
  | none => fault
  | some m =>
    if FileAttr.sIsdir m.attrs.mode then pure Rc.eisdir
    else if m.attrs.isLaminated ≠ 0 then pure Rc.einval
    else if m.storage ≠ .logio then pure Rc.eio
    else
      match fidTruncateWriteMeta S m length with
      | none => fault
      | some m' => do
          editMeta fid fun m => { m with extentsSync := m'.extentsSync }
          let rc ← fidSyncExtents fid r.sync
          if rc ≠ Rc.success then pure rc
          else do
            editMeta fid fun m => { m with attrs.size := BitVec.ofNat 64 length }
            let _ ← gfidFromFid fid
            pure r.truncate

def fidLogicalSize (fid : Option ℕ) (r : Replies) : Prog World ℤ := do
  let laminated ← fidIsLaminated fid
  if laminated then fidGlobalSize fid
  else do
    let _ ← fidSyncExtents fid r.sync
    let _ ← gfidFromFid fid
    pure (if r.filesize.1 = Rc.success then r.filesize.2 else -1)

def oWronly : BitVec 32 := 0o1
def oRdwr : BitVec 32 := 0o2
def oCreat : BitVec 32 := 0o100
def oExcl : BitVec 32 := 0o200
def oTrunc : BitVec 32 := 0o1000
def oAppend : BitVec 32 := 0o2000
def oDirectory : BitVec 32 := 0o200000

def gfidCreate (path : String) (exclusive : Bool) (reply : Rc) : Rc :=
  if tooLong path then Rc.enametoolong
  else if reply = Rc.eexist ∧ exclusive = false then Rc.success
  else reply

def openCreate (path : String) (flags mode : BitVec 32) (reply : Rc) : Rc :=
  if tooLong path then Rc.enametoolong
  else if flags &&& oCreat ≠ 0 then
    if mode &&& FileAttr.sIfmt &&& ~~~FileAttr.sIfreg ≠ 0 then Rc.einval
    else gfidCreate path (flags &&& oExcl ≠ 0) reply
  else Rc.success

def wantsWrite (flags mode : BitVec 32) : Bool :=
  flags &&& (oCreat ||| oTrunc ||| oAppend ||| oWronly) ≠ 0 ∨ mode &&& 0o222 ≠ 0 ∧ flags ≠ 0

def openForWrite (flags : BitVec 32) : Bool := flags &&& (oRdwr ||| oWronly) ≠ 0

def failWith (fid : Option ℕ) (rc : Rc) : Prog World (Except Rc (Option ℕ × ℤ)) := do
  let _ ← fidDelete fid
  pure (.error rc)

def openTruncate (S : Picker LogPtr) (fid : Option ℕ) (flags : BitVec 32) (r : Replies) :
    Prog World Rc :=
  if flags &&& oTrunc ≠ 0 ∧ openForWrite flags = true then fidTruncate S fid 0 r
  else pure Rc.success

def openPosition (fid : Option ℕ) (flags : BitVec 32) (r : Replies) : Prog World ℤ :=
  if flags &&& oAppend ≠ 0 ∧ openForWrite flags = true then fidLogicalSize fid r else pure 0

def openFinish (S : Picker LogPtr) (fid : Option ℕ) (flags : BitVec 32) (r : Replies) :
    Prog World (Except Rc (Option ℕ × ℤ)) := do
  let rc ← openTruncate S fid flags r
  if rc ≠ Rc.success then pure (.error rc)
  else do
    let pos ← openPosition fid flags r
    pure (.ok (fid,pos))

def openFetched (S : Picker LogPtr) (path : String) (flags mode : BitVec 32) (r : Replies) :
    Prog World (Except Rc (Option ℕ × ℤ)) := do
  let fid ← fidFromPath path
  let isDir ← fidIsDir fid
  if flags &&& oDirectory ≠ 0 ∧ isDir = false then failWith fid Rc.enotdir
  else if flags &&& oDirectory = 0 ∧ isDir = true then failWith fid Rc.eisdir
  else do
    let laminated ← fidIsLaminated fid
    if laminated = true ∧ wantsWrite flags mode = true then failWith fid Rc.erofs
    else openFinish S fid flags r

/-- `unifyfs_fid_open`: an error code, or the fid and the initial position. -/
def fidOpen (S : Picker LogPtr) (who : Caller) (path : String) (flags mode : BitVec 32)
    (r : Replies) : Prog World (Except Rc (Option ℕ × ℤ)) :=
  if openCreate path flags mode r.create ≠ Rc.success then
    pure (.error (openCreate path flags mode r.create))
  else do
    let rc ← fidFetch generateGfid who path r
    if rc ≠ Rc.success then pure (.error rc) else openFetched S path flags mode r

end Open

structure OpenCall where
  path : String
  flags : BitVec 32
  mode : BitVec 32
  who : Caller
  replies : Replies
  arrivals : List (List Notice)
  search : Picker LogPtr

def OpenCall.run (generateGfid : String → ℤ) (o : OpenCall) (c : Client) :
    Option (Except Rc (Option ℕ × ℤ) × Client) :=
  ((fidOpen generateGfid o.search o.who o.path o.flags o.mode o.replies).run
    ⟨c,o.arrivals⟩).map fun (res,w) => (res,w.client)

def zeroSlot : FileSlot where
  inUse := false
  filename := ""
  filemeta :=
    { fid := 0
      storage := .null
      pendingUnlink := false
      needsWritesSync := false
      needsReadsSync := false
      extentsSync := segTreeInit
      attrs := ⟨none,0,0,0,0,0,0,0,⟨0,0⟩,⟨0,0⟩,⟨0,0⟩,0⟩ }

def clientInit (maxFiles : ℕ) : Client := ⟨List.replicate maxFiles zeroSlot,List.range maxFiles⟩

inductive ClientEvent where
  | opens (o : OpenCall)
  | callback (n : Notice)

def clientStep (generateGfid : String → ℤ) (c : Client) : ClientEvent → Option Client
  | .opens o => (o.run generateGfid c).map Prod.snd
  | .callback n => some (c.unlinkCallback n.gfid)

end UnifyFS.ClientFiles
