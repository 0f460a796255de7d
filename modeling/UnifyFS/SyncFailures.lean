import UnifyFS.SyncRefinement

/-!
# Sync requests that fail

`unifyfs_fid_sync_extents` moves the unsynced writes of a file into the write index, asks
the server to read the index, and then clears the index and marks the file as synced,
also if the request has failed. A failed call thus loses its writes: they are neither
pending nor known to the server, and the next call has nothing to send and succeeds.

Here every call is recorded, those that a write makes by itself included, with the
writes made before it and with what the server has received after it. The server
receives an index if the request for it succeeds.
-/
namespace UnifyFS.SyncFailures
open GuardedRuns MachineWords RangeLists RangeTrees SegTreeOps ExtentTree WriteIndex IndexCapacity
open InodeModel SyncRefinement List Option

structure SyncCall where
  before : FileMeta
  reply : Rc
  rc : Rc
  after : FileMeta
  written : List LogWrite
  received : List (List IndexEntry)

structure SyncHistory where
  file : FileHistory
  received : List (List IndexEntry)
  written : List LogWrite
  calls : List SyncCall

/-- What the server receives. There is no request for an empty index. -/
def receivedBy (reply : Rc) (rewritten : List (List IndexEntry)) : List (List IndexEntry) :=
  if reply = Rc.success then rewritten.filter fun es => !es.isEmpty else []

def recordSync (s : SyncHistory) (reply : Rc) : SyncHistory :=
  let r := syncExtents s.file.entry reply
  let received := s.received ++ receivedBy reply r.2.2
  { s with
    file := ⟨r.2.1,s.file.rewrites ++ r.2.2⟩
    received := received
    calls := s.calls ++ [⟨s.file.entry,reply,r.1,r.2.1,s.written,received⟩] }

/-- A write or a call from elsewhere, such as from `fsync`, `close`, a read or a lookup of the
size. -/
inductive RecordEvent where
  | write (S : Picker LogPtr) (log : Except Rc LogWrite) (reply reply' : Rc)
  | sync (reply : Rc)

def RecordEvent.event : RecordEvent → FileEvent
  | .write S log reply reply' => .write S log reply reply'
  | .sync reply => .sync reply

/-- `unifyfs_fid_write` with its calls recorded. -/
def recordWrite (cfg : ClientConfig) (s : SyncHistory) (S : Picker LogPtr)
    (log : Except Rc LogWrite) (reply reply' : Rc) : Option SyncHistory :=
  if s.file.entry.attrs.isLaminated ≠ 0 then some s
  else if s.file.entry.storage ≠ .logio then some s
  else
    match log with
    | .error _ => some s
    | .ok w =>
      let s := if s.file.entry.extentsSync.count ≥ wordSub cfg.maxWriteIndexEntries 2
        then recordSync s reply else s
      (segTreeAdd S s.file.entry.extentsSync w.pos (w.pos + w.nwritten - 1) w.logOff
        cfg.clientId).map fun t =>
          let s := { s with
            file.entry := { s.file.entry with extentsSync := t, needsWritesSync := true }
            written := s.written ++ [w] }
          if cfg.useWriteSync then recordSync s reply' else s

def recordStep (cfg : ClientConfig) (s : SyncHistory) : RecordEvent → Option SyncHistory
  | .write S log reply reply' => recordWrite cfg s S log reply reply'
  | .sync reply => some (recordSync s reply)

section Erasure
variable (cfg : ClientConfig) (s : SyncHistory)

theorem recordSync_file (reply : Rc) : (recordSync s reply).file =
    ⟨(syncExtents s.file.entry reply).2.1,
      s.file.rewrites ++ (syncExtents s.file.entry reply).2.2⟩ := rfl

theorem recordWrite_file (S : Picker LogPtr) (log : Except Rc LogWrite) (reply reply' : Rc) :
    (recordWrite cfg s S log reply reply').map SyncHistory.file =
      (fidWrite cfg S s.file.entry log reply reply').map fun (_,m,more) =>
        ⟨m,s.file.rewrites ++ more⟩ := by
  have hsame : s.file = ⟨s.file.entry,s.file.rewrites ++ []⟩ := by rw [append_nil]
  unfold recordWrite fidWrite
  by_cases hlam : s.file.entry.attrs.isLaminated ≠ 0
  · rw [if_pos hlam,if_pos hlam]
    exact congrArg some hsame
  rw [if_neg hlam,if_neg hlam]
  by_cases hstorage : s.file.entry.storage ≠ .logio
  · rw [if_pos hstorage,if_pos hstorage]
    exact congrArg some hsame
  rw [if_neg hstorage,if_neg hstorage]
  cases log with
  | error rc => exact congrArg some hsame
  | ok w =>
    -- the history after the sync in front of the write
    have hfront : ∃ r : FileMeta × List (List IndexEntry),
        (if s.file.entry.extentsSync.count ≥ wordSub cfg.maxWriteIndexEntries 2
          then (syncExtents s.file.entry reply).2 else (s.file.entry,[])) = r ∧
        (if s.file.entry.extentsSync.count ≥ wordSub cfg.maxWriteIndexEntries 2
          then recordSync s reply else s).file = ⟨r.1,s.file.rewrites ++ r.2⟩ := by
      split_ifs
      · exact ⟨_,rfl,rfl⟩
      · exact ⟨_,rfl,hsame⟩
    obtain ⟨r,hr,hfile⟩ := hfront
    unfold addWriteMetaToIndex
    rw [hr]
    generalize (if s.file.entry.extentsSync.count ≥ wordSub cfg.maxWriteIndexEntries 2
      then recordSync s reply else s) = s₁ at hfile ⊢
    rw [Option.map_map,Option.map_map,Option.map_map,hfile]
    apply congrArg (Option.map · _)
    funext t
    dsimp only [Function.comp_apply]
    split_ifs
    · rw [recordSync_file,← append_assoc]
    · rfl

/-- Without the record there remain the steps of the file. -/
theorem recordStep_file (ev : RecordEvent) :
    (recordStep cfg s ev).map SyncHistory.file = fileStep cfg s.file ev.event := by
  cases ev with
  | write S log reply reply' => exact recordWrite_file cfg s S log reply reply'
  | sync reply => rfl

end Erasure

def pendingMap (m : FileMeta) : ℕ → Option (BitVec 64) := contents LogPtr.val m.extentsSync.nodes

/-- The server has received the extents of all writes made before the call. -/
def SyncCall.Received (id : LogId) (c : SyncCall) : Prop :=
  ∀ f, (c.received.flatten.map (decodeIndex id)).foldl overwriteExtent f =
    (c.written.map (extentOf id)).foldl overwriteExtent f

/-- A call that returns an error leaves the writes pending, and after one that returns success
the server has all of them. -/
def SyncCall.Keeps (id : LogId) (c : SyncCall) : Prop :=
  (c.rc ≠ Rc.success → pendingMap c.after = pendingMap c.before) ∧
    (c.rc = Rc.success → c.Received id)

/-- The request for the index succeeds, if there is one. -/
def SyncCall.Answered (c : SyncCall) : Prop :=
  c.before.needsWritesSync = true → c.before.extentsSync.nodes ≠ [] → c.reply = Rc.success

section Calls
variable {id : LogId} {cfg : ClientConfig} {m : FileMeta} {s : SyncHistory} {reply : Rc}

theorem syncExtents_success_iff : (syncExtents m reply).1 = Rc.success ↔
    (m.needsWritesSync = true → m.extentsSync.nodes ≠ [] → reply = Rc.success) := by
  rw [syncExtents_rc]
  split_ifs with hsent
  · exact ⟨fun h _ _ => h,fun h => h hsent.1 hsent.2⟩
  · exact iff_of_true rfl fun hneeds hne => absurd ⟨hneeds,hne⟩ hsent

theorem receivedBy_flatten (h : (syncExtents m reply).1 = Rc.success) :
    (receivedBy reply (syncExtents m reply).2.2).flatten = (syncExtents m reply).2.2.flatten := by
  unfold receivedBy
  split_ifs with hreply
  · exact flatten_filter_not_isEmpty
  · -- then no request was made, since there was nothing to send
    by_cases hneeds : m.needsWritesSync = true
    · rw [syncExtents] at h ⊢
      dsimp only at h ⊢
      split_ifs at h ⊢ with hempty
      · rw [isEmpty_iff.mp hempty]
        rfl
      · exact absurd h hreply
    · rw [syncExtents,if_neg hneeds]

/-- The calls so far: those that failed have lost their writes, and if there are none the server
has received the whole index. -/
structure Recorded (id : LogId) (s : SyncHistory) : Prop where
  tracks : Tracks id s.written s.file.entry s.file.rewrites
  answered : ∀ c ∈ s.calls, c.rc = Rc.success ↔ c.Answered
  failed : ∀ c ∈ s.calls, c.rc ≠ Rc.success → pendingMap c.after ≠ pendingMap c.before
  passed : (∀ c ∈ s.calls, c.rc = Rc.success) →
    s.received.flatten = s.file.rewrites.flatten ∧ ∀ c ∈ s.calls, c.Received id

theorem Recorded.sync (h : Recorded id s) (reply : Rc) : Recorded id (recordSync s reply) := by
  obtain ⟨htracks,hnil⟩ := h.tracks.sync reply
  refine ⟨htracks,forall_mem_append.mpr ⟨h.answered,?_⟩,?_,?_⟩
  · exact forall_mem_singleton.mpr syncExtents_success_iff
  · intro c hc hrc
    rcases mem_append.mp hc with hc | hc
    · exact h.failed c hc hrc
    · rw [mem_singleton.mp hc] at hrc ⊢
      intro hsame
      rw [ne_eq,syncExtents_success_iff] at hrc
      push Not at hrc
      obtain ⟨n,hn⟩ := exists_mem_of_ne_nil _ hrc.2.1
      have hsep := h.tracks.counted.separate
      have hheld : contents LogPtr.val (syncExtents s.file.entry reply).2.1.extentsSync.nodes
          n.start = contents LogPtr.val s.file.entry.extentsSync.nodes n.start :=
        congrFun hsame n.start
      rw [hnil,hsep.contents_of_mem hn ⟨le_rfl,hsep.start_le n hn⟩] at hheld
      cases hheld
  · intro hall
    obtain ⟨hold,hrc⟩ := forall_mem_append.mp hall
    obtain ⟨hreceived,hcalls⟩ := h.passed hold
    have hflat : (recordSync s reply).received.flatten =
        (recordSync s reply).file.rewrites.flatten := by
      change (s.received ++ receivedBy reply (syncExtents s.file.entry reply).2.2).flatten =
        (s.file.rewrites ++ (syncExtents s.file.entry reply).2.2).flatten
      rw [flatten_append,flatten_append,hreceived,receivedBy_flatten (hrc _ mem_cons_self)]
    refine ⟨hflat,forall_mem_append.mpr ⟨hcalls,?_⟩⟩
    intro c hc f
    rw [mem_singleton.mp hc]
    change ((recordSync s reply).received.flatten.map _).foldl _ _ = _
    have hmap := htracks.map f
    rw [hnil] at hmap
    rw [hflat]
    exact hmap

theorem Recorded.write (h : Recorded id s) (S : Picker LogPtr) (log : Except Rc LogWrite)
    (reply reply' : Rc) :
    ∃ s', recordWrite cfg s S log reply reply' = some s' ∧ Recorded id s' := by
  unfold recordWrite
  rw [if_neg (not_not.mpr h.tracks.isLaminated),if_neg (not_not.mpr h.tracks.storage)]
  cases log with
  | error rc => exact ⟨s,rfl,h⟩
  | ok w =>
    dsimp only
    have hfront : Recorded id (if s.file.entry.extentsSync.count ≥
        wordSub cfg.maxWriteIndexEntries 2 then recordSync s reply else s) := by
      split_ifs
      · exact h.sync reply
      · exact h
    generalize (if s.file.entry.extentsSync.count ≥ wordSub cfg.maxWriteIndexEntries 2
      then recordSync s reply else s) = s₁ at hfront ⊢
    obtain ⟨t,ht,htracks⟩ := hfront.tracks.write S w cfg.clientId
    rw [ht]
    refine ⟨_,rfl,?_⟩
    have hwritten : Recorded id { s₁ with
        file.entry := { s₁.file.entry with extentsSync := t, needsWritesSync := true }
        written := s₁.written ++ [w] } := ⟨htracks,hfront.answered,hfront.failed,hfront.passed⟩
    split_ifs
    · exact hwritten.sync reply'
    · exact hwritten

theorem Recorded.step (h : Recorded id s) (ev : RecordEvent) :
    ∃ s', recordStep cfg s ev = some s' ∧ Recorded id s' := by
  cases ev with
  | write S log reply reply' => exact h.write S log reply reply'
  | sync reply => exact ⟨_,rfl,h.sync reply⟩

theorem Recorded.keeps_iff (h : Recorded id s) :
    (∀ c ∈ s.calls, c.Keeps id) ↔ ∀ c ∈ s.calls, c.Answered := by
  rw [← forall₂_congr h.answered]
  constructor
  · intro hkeeps c hc
    by_contra hrc
    exact h.failed c hc hrc ((hkeeps c hc).1 hrc)
  · intro hall c hc
    exact ⟨fun hrc => absurd (hall c hc) hrc,fun _ => (h.passed hall).2 c hc⟩

end Calls

/-- Over every sequence of writes and syncs of a file, with whatever replies: no write is lost
exactly if every request that is made succeeds. -/
theorem sync_calls_keep_iff (id : LogId) (cfg : ClientConfig) {m : FileMeta} (hm : Fresh m)
    (hopen : m.attrs.isLaminated = 0) (hstorage : m.storage = .logio)
    (events : List RecordEvent) :
    ∃ s, events.foldlM (recordStep cfg) ⟨⟨m,[]⟩,[],[],[]⟩ = some s ∧
      ((∀ c ∈ s.calls, c.Keeps id) ↔ ∀ c ∈ s.calls, c.Answered) := by
  have hstart : Recorded id ⟨⟨m,[]⟩,[],[],[]⟩ := ⟨tracks_fresh id hm hopen hstorage,by simp,by simp,
    by simp⟩
  have hstep : ∀ (pre : List RecordEvent) (ev : RecordEvent) (t : SyncHistory), ev ∈ events →
      Recorded id t → ∃ u, recordStep cfg t ev = some u ∧ Recorded id u :=
    fun _ ev _ _ h => h.step ev
  obtain ⟨s,hs,hrecorded⟩ := exists_foldlM hstep hstart
  exact ⟨s,hs,hrecorded.keeps_iff⟩

def fourBytesWritten : RecordEvent :=
  .write .first (.ok (fourBytesFrom 0)) Rc.success Rc.success

/-- A write and a sync that succeeds. -/
theorem sync_calls_keep_one_write :
    ∃ s, [fourBytesWritten,.sync Rc.success].foldlM (recordStep ⟨1,8,false⟩)
        ⟨⟨newEntry,[]⟩,[],[],[]⟩ = some s ∧
      s.calls.map SyncCall.reply = [Rc.success] ∧ ∀ c ∈ s.calls, c.Keeps myLog := by
  obtain ⟨s,hs,hiff⟩ := sync_calls_keep_iff myLog ⟨1,8,false⟩ (m := newEntry) rfl rfl rfl
    [fourBytesWritten,.sync Rc.success]
  have hcalls : ([fourBytesWritten,.sync Rc.success].foldlM (recordStep ⟨1,8,false⟩)
      ⟨⟨newEntry,[]⟩,[],[],[]⟩).map (fun s => s.calls.map SyncCall.reply) = some [Rc.success] := by
    decide +kernel
  rw [hs] at hcalls
  have hreplies : s.calls.map SyncCall.reply = [Rc.success] := some.inj hcalls
  refine ⟨s,hs,hreplies,hiff.mpr fun c hc _ _ => ?_⟩
  have hmem := mem_map_of_mem (f := SyncCall.reply) hc
  rw [hreplies] at hmem
  exact mem_singleton.mp hmem

def writeFailSync : List RecordEvent := [fourBytesWritten,.sync Rc.eio,.sync Rc.success]

/-- After the request that fails the next call succeeds, and the server has received nothing. -/
theorem failed_sync_loses_write :
    ∃ s, writeFailSync.foldlM (recordStep ⟨1,8,false⟩) ⟨⟨newEntry,[]⟩,[],[],[]⟩ = some s ∧
      s.calls.map SyncCall.rc = [Rc.eio,Rc.success] ∧ s.received = [] ∧
      s.file.entry.extentsSync.nodes = [] ∧
      ∃ c ∈ s.calls, c.rc = Rc.success ∧ ¬ c.Received myLog := by
  have hrun : (writeFailSync.foldlM (recordStep ⟨1,8,false⟩) ⟨⟨newEntry,[]⟩,[],[],[]⟩).any (fun s =>
      decide (s.calls.map SyncCall.rc = [Rc.eio,Rc.success] ∧ s.received = [] ∧
        s.file.entry.extentsSync.nodes = [] ∧ ∃ c ∈ s.calls, c.rc = Rc.success ∧
        (c.received.flatten.map (decodeIndex myLog)).foldl overwriteExtent (fun _ => none) 0 ≠
          (c.written.map (extentOf myLog)).foldl overwriteExtent (fun _ => none) 0)) = true := by
    decide +kernel
  obtain ⟨s,hs,htest⟩ := (any_eq_true _ _).mp hrun
  obtain ⟨hrcs,hreceived,hnodes,c,hc,hrc,hne⟩ := of_decide_eq_true htest
  exact ⟨s,hs,hrcs,hreceived,hnodes,c,hc,hrc,fun h => hne (congrFun (h _) 0)⟩

end UnifyFS.SyncFailures
