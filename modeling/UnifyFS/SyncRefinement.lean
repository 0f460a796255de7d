import Mathlib
import UnifyFS.IndexCapacity
import UnifyFS.Inode

/-!
# Syncing a file in batches

A client collects its writes in a tree and hands the tree to its server with every
sync, as a list of index entries. The server decodes the entries into extents, keeps
them as pending, and applies what is pending at some later time, several syncs at
once if it comes to that. This module compares the result with the file that each
single write would have produced if it had gone to the inode at once.

Both sides are sequences of extents that overwrite a map. The nodes that are still
in the client's tree count as extents to come.
-/
namespace UnifyFS.SyncRefinement
open GuardedRuns MachineWords RangeLists RangeTrees SegTreeOps ExtentTree WriteIndex IndexCapacity
open InodeModel List Option

/-- The log of the client: its server, application and client id. -/
structure LogId where
  svrRank : ℤ
  appId : ℤ
  cliId : ℤ
  deriving DecidableEq, Repr

def LogId.at (id : LogId) (pos : BitVec 64) : LogLoc := ⟨pos,id.svrRank,id.appId,id.cliId⟩

/-- The extent that `rpc_fsync` makes of an index entry. -/
def decodeIndex (id : LogId) (entry : IndexEntry) : Extent :=
  ⟨entry.filePos,(entry.filePos + entry.length + (wordSize - 1)) % wordSize,id.at entry.logPos⟩

def rpcFsync (id : LogId) (ino : Inode) (entries : List IndexEntry) : Rc × Inode :=
  if entries.isEmpty then (Rc.success,ino)
  else unifyfsInodeAddPendingExtents ino (entries.map (decodeIndex id))

inductive SyncEvent where
  | fsync (entries : List IndexEntry)
  | process (S : ℕ → Picker LogLoc)

def syncStep (id : LogId) (ino : Inode) : SyncEvent → Option Inode
  | .fsync entries => some (rpcFsync id ino entries).2
  | .process S => (processPendingSync S ino).map Prod.snd

def SyncEvent.request : SyncEvent → Option (List IndexEntry)
  | .fsync entries => some entries
  | .process _ => none

/-- A write that reached the log, or a sync. -/
inductive ClientOp where
  | write (S : Picker LogPtr) (w : LogWrite)
  | sync

def ClientOp.event : ClientOp → FileEvent
  | .write S w => .write S (.ok w) Rc.success Rc.success
  | .sync => .sync Rc.success

def ClientOp.written : ClientOp → Option LogWrite
  | .write _ w => some w
  | .sync => none

def extentOf (id : LogId) (w : LogWrite) : Extent :=
  ⟨w.pos,w.pos + w.nwritten - 1,id.at w.logOff⟩

def addDirectly (id : LogId) (S : ℕ → ℕ → Picker LogLoc) : ℕ → List LogWrite → Inode → Option Inode
  | _, [], ino => some ino
  | k, w :: ws, ino =>
    (unifyfsInodeAddExtents (S k) ino [extentOf id w]).bind fun r =>
      addDirectly id S (k + 1) ws r.2

def nodeExtent (id : LogId) (n : Range LogPtr) : Extent := ⟨n.start,n.stop,id.at n.info.ptr⟩

section Overlay
variable {id : LogId} {l : List (Range LogPtr)} {f : ℕ → Option LogLoc}

theorem separate_nodeExtent (id : LogId) (hl : Separate l) : Separate (l.map (nodeExtent id)) := by
  refine ⟨pairwise_map.mpr hl.ordered,?_⟩
  exact forall_mem_map.mpr hl.start_le

theorem contents_nodeExtent (id : LogId) (l : List (Range LogPtr)) (b : ℕ) :
    contents LogLoc.val (l.map (nodeExtent id)) b = (contents LogPtr.val l b).map id.at := by
  induction l with
  | nil => rfl
  | cons n l ih =>
    rw [map_cons,contents_cons,contents_cons,ih]
    by_cases hb : n.Holds b
    · rw [if_pos hb]
      exact if_pos hb
    · rw [if_neg hb]
      exact if_neg hb

theorem foldl_overwriteExtent (id : LogId) (hl : Separate l) (b : ℕ) :
    (l.map (nodeExtent id)).foldl overwriteExtent f b =
      ((contents LogPtr.val l b).map id.at).or (f b) := by
  rw [foldl_overwrite_separate (separate_nodeExtent id hl),contents_nodeExtent]

theorem decodeIndex_entry (id : LogId) {n : Range LogPtr} (gfid : ℤ) (hn : n.start ≤ n.stop)
    (hstop : n.stop < wordSize) :
    decodeIndex id ⟨n.start,n.info.ptr,(n.stop - n.start + 1) % wordSize,gfid⟩ =
      nodeExtent id n := by
  have hend : (n.start + (n.stop - n.start + 1) % wordSize + (wordSize - 1)) % wordSize =
      n.stop := by
    unfold wordSize at hstop ⊢
    omega
  unfold decodeIndex nodeExtent
  rw [hend]

end Overlay

/-- The writes so far are the extents that were handed over and those still in the tree. -/
structure Tracks (id : LogId) (ws : List LogWrite) (m : FileMeta) (rs : List (List IndexEntry)) :
    Prop where
  counted : m.extentsSync.Counted
  stop_lt : ∀ n ∈ m.extentsSync.nodes, n.stop + 1 < wordSize
  marked : m.extentsSync.nodes ≠ [] → m.needsWritesSync = true
  isLaminated : m.attrs.isLaminated = 0
  storage : m.storage = .logio
  fits : ∀ entry ∈ rs.flatten, Fits (decodeIndex id entry)
  map : ∀ f, (m.extentsSync.nodes.map (nodeExtent id)).foldl overwriteExtent
    ((rs.flatten.map (decodeIndex id)).foldl overwriteExtent f) =
      (ws.map (extentOf id)).foldl overwriteExtent f
  sent : ws = [] ↔ m.extentsSync.nodes = [] ∧ rs.flatten = []

namespace Tracks
variable {id : LogId} {ws : List LogWrite} {m : FileMeta} {rs : List (List IndexEntry)}

theorem decode_rewrite (h : Tracks id ws m rs) :
    (rewriteIndexFromSegTree m).1.map (decodeIndex id) =
      m.extentsSync.nodes.map (nodeExtent id) := by
  unfold rewriteIndexFromSegTree
  rw [List.map_map]
  apply map_congr_left
  intro n hn
  have hstop := h.stop_lt n hn
  exact decodeIndex_entry id _ (h.counted.separate.start_le n hn) (by omega)

theorem rewrite (h : Tracks id ws m rs) :
    Tracks id ws { (rewriteIndexFromSegTree m).2 with needsWritesSync := false }
      (rs ++ [(rewriteIndexFromSegTree m).1]) := by
  have hnil : (segTreeClear m.extentsSync).nodes = [] := segTreeClear_nodes _
  have hflat : (rs ++ [(rewriteIndexFromSegTree m).1]).flatten =
      rs.flatten ++ (rewriteIndexFromSegTree m).1 := by simp
  refine ⟨segTreeClear_counted h.counted,?_,?_,h.isLaminated,h.storage,?_,?_,?_⟩
  · intro n hn
    change n ∈ (segTreeClear m.extentsSync).nodes at hn
    rw [hnil] at hn
    cases hn
  · intro hne
    exact absurd hnil hne
  · intro entry he
    rw [hflat] at he
    cases mem_append.mp he with
    | inl he => exact h.fits entry he
    | inr he =>
      have hdec : decodeIndex id entry ∈ m.extentsSync.nodes.map (nodeExtent id) :=
        h.decode_rewrite ▸ mem_map_of_mem he
      obtain ⟨n,hn,heq⟩ := mem_map.mp hdec
      rw [← heq]
      exact ⟨h.counted.separate.start_le n hn,h.stop_lt n hn⟩
  · intro f
    change ((segTreeClear m.extentsSync).nodes.map (nodeExtent id)).foldl _ _ = _
    rw [hnil,hflat,map_append,foldl_append,h.decode_rewrite]
    exact h.map f
  · have hentries : (rewriteIndexFromSegTree m).1 = [] ↔ m.extentsSync.nodes = [] := map_eq_nil_iff
    change ws = [] ↔ (segTreeClear m.extentsSync).nodes = [] ∧ _
    rw [h.sent,hflat,append_eq_nil_iff,hentries]
    simp only [hnil,true_and]
    exact and_comm

theorem sync (h : Tracks id ws m rs) (reply : Rc) :
    Tracks id ws (syncExtents m reply).2.1 (rs ++ (syncExtents m reply).2.2) ∧
      (syncExtents m reply).2.1.extentsSync.nodes = [] := by
  refine ⟨?_,syncExtents_nodes (fun hneeds => ?_) reply⟩
  · unfold syncExtents
    dsimp only
    split_ifs
    · exact h.rewrite
    · exact h.rewrite
    · rwa [append_nil]
  · by_contra hne
    exact Bool.false_ne_true (hneeds.symm.trans (h.marked hne))

theorem write (h : Tracks id ws m rs) (S : Picker LogPtr) (w : LogWrite) (clientId : ℕ) :
    ∃ t, segTreeAdd S m.extentsSync w.pos (w.pos + w.nwritten - 1) w.logOff clientId = some t ∧
      Tracks id (ws ++ [w]) { m with extentsSync := t, needsWritesSync := true } rs := by
  have hone := w.one_le
  have hfits := w.fits
  obtain ⟨t,ht,hcounted,-,hmap⟩ := segTreeAdd_spec S w.logOff clientId h.counted
    (show w.pos ≤ w.pos + w.nwritten - 1 by omega)
  refine ⟨t,ht,hcounted,?_,fun _ => rfl,h.isLaminated,h.storage,h.fits,?_,?_⟩
  · have hold := (stop_le_iff LogPtr.val h.counted.separate (c := wordSize - 2)).mp fun n hn => by
        have := h.stop_lt n hn
        omega
    have hnew := (stop_le_iff LogPtr.val hcounted.separate (c := wordSize - 2)).mpr fun b hb => by
      rw [hmap b] at hb
      split at hb
      · omega
      · exact hold b hb
    intro n hn
    have := hnew n hn
    omega
  · intro f
    rw [map_append,foldl_append,← h.map f]
    funext b
    rw [foldl_overwriteExtent id hcounted.separate,hmap b]
    change _ = overwriteExtent _ (extentOf id w) b
    rw [overwriteExtent_apply,foldl_overwriteExtent id h.counted.separate]
    split
    · next hb =>
      rw [if_pos (show (extentOf id w).Holds b from hb)]
      rfl
    · next hb => rw [if_neg (show ¬ (extentOf id w).Holds b from hb)]
  · have hheld : (contents LogPtr.val t.nodes w.pos).isSome := by
      rw [hmap,if_pos (by omega)]
      rfl
    obtain ⟨n,hn,-⟩ := (exists_holds_iff LogPtr.val).mpr hheld
    have hne := ne_nil_of_mem hn
    simp [hne]

end Tracks

variable {id : LogId} {ws : List LogWrite} {m : FileMeta} {ino : Inode} {reqs : List (List Extent)}
  {s : FileHistory} {ino₀ : Inode}

theorem addWriteMetaToIndex_tracks {rs : List (List IndexEntry)} (cfg : ClientConfig)
    (h : Tracks id ws m rs) (S : Picker LogPtr) (w : LogWrite) (reply : Rc) :
    ∃ m' more, addWriteMetaToIndex cfg S m w reply = some (m',more) ∧
      Tracks id (ws ++ [w]) { m' with needsWritesSync := true } (rs ++ more) := by
  -- the sync in front of the write, if the tree is nearly full
  have hfront : let r := if m.extentsSync.count ≥ wordSub cfg.maxWriteIndexEntries 2
      then (syncExtents m reply).2 else (m,[])
      Tracks id ws r.1 (rs ++ r.2) := by
    dsimp only
    split
    · exact (h.sync reply).1
    · rw [append_nil]
      exact h
  unfold addWriteMetaToIndex
  generalize (if m.extentsSync.count ≥ wordSub cfg.maxWriteIndexEntries 2
    then (syncExtents m reply).2 else (m,[])) = r at hfront ⊢
  obtain ⟨m₁,more⟩ := r
  obtain ⟨t,ht,htracks⟩ := hfront.write S w cfg.clientId
  exact ⟨{ m₁ with extentsSync := t },more,congrArg (Option.map _) ht,htracks⟩

theorem fileStep_tracks (cfg : ClientConfig) (h : Tracks id ws s.entry s.rewrites) (op : ClientOp) :
    ∃ s', fileStep cfg s op.event = some s' ∧
      Tracks id (ws ++ op.written.toList) s'.entry s'.rewrites := by
  cases op with
  | sync =>
    refine ⟨_,rfl,?_⟩
    rw [ClientOp.written,toList_none,append_nil]
    exact (h.sync Rc.success).1
  | write S w =>
    obtain ⟨m,more,hadd,htracks⟩ := addWriteMetaToIndex_tracks cfg h S w Rc.success
    unfold fileStep ClientOp.event fidWrite
    dsimp only
    rw [if_neg (not_not.mpr h.isLaminated),if_neg (not_not.mpr h.storage),hadd,map_some,map_some]
    refine ⟨_,rfl,?_⟩
    split
    · rw [← append_assoc]
      exact (htracks.sync Rc.success).1
    · exact htracks

theorem foldlM_fileStep_tracks (cfg : ClientConfig) (h : Tracks id ws s.entry s.rewrites)
    (ops : List ClientOp) :
    ∃ s', (ops.map ClientOp.event).foldlM (fileStep cfg) s = some s' ∧
      Tracks id (ws ++ ops.filterMap ClientOp.written) s'.entry s'.rewrites := by
  rw [foldlM_map]
  apply exists_foldlM
  · intro done op t _ htracks
    obtain ⟨u,hu,hdone⟩ := fileStep_tracks cfg htracks op
    have hwritten : [op].filterMap ClientOp.written = op.written.toList := by cases op <;> rfl
    refine ⟨u,hu,?_⟩
    rw [filterMap_append,← append_assoc]
    exact hdone
  · rw [filterMap_nil,append_nil]
    exact h

/-- The requests so far are the extents that were applied and those still pending. -/
structure Applied (ino₀ : Inode) (reqs : List (List Extent)) (ino : Inode) : Prop where
  ok : ino.Ok
  isLaminated : ino.attr.isLaminated = 0
  fits : ∀ es ∈ ino.pending, ∀ e ∈ es, Fits e
  map : ino.pending.flatten.foldl overwriteExtent (extentMap ino) =
    reqs.flatten.foldl overwriteExtent (extentMap ino₀)
  size : ino.pending = reqs ∧ ino.attr.size = ino₀.attr.size ∨
    reqs ≠ [] ∧ ino.attr.size.toNat = max ino₀.attr.size.toNat (ino.extents.max + 1)

theorem syncStep_applied (h : Applied ino₀ reqs ino) (ev : SyncEvent)
    (hev : ∀ entries, ev.request = some entries →
      entries ≠ [] ∧ ∀ entry ∈ entries, Fits (decodeIndex id entry)) :
    ∃ ino', syncStep id ino ev = some ino' ∧
      Applied ino₀ (reqs ++ ev.request.toList.map (List.map (decodeIndex id))) ino' := by
  cases ev with
  | fsync entries =>
    obtain ⟨hne,hfits⟩ := hev entries rfl
    have hstep : rpcFsync id ino entries =
        (Rc.success,{ ino with pending := ino.pending ++ [entries.map (decodeIndex id)] }) := by
      rw [rpcFsync,if_neg (by simpa using hne),unifyfsInodeAddPendingExtents,
        if_neg (not_not.mpr h.isLaminated)]
    refine ⟨_,rfl,?_⟩
    rw [hstep]
    refine ⟨⟨h.ok.sound,h.ok.fits⟩,h.isLaminated,?_,?_,?_⟩
    · intro es hes e he
      cases mem_append.mp hes with
      | inl hes => exact h.fits es hes e he
      | inr hes =>
        rw [mem_singleton.mp hes] at he
        obtain ⟨entry,hentry,rfl⟩ := mem_map.mp he
        exact hfits entry hentry
    · change (ino.pending ++ [_]).flatten.foldl overwriteExtent (extentMap ino) = _
      rw [flatten_append,foldl_append,h.map,flatten_append,foldl_append]
      rfl
    · cases h.size with
      | inl hsize => exact .inl ⟨by rw [hsize.1]; rfl,hsize.2⟩
      | inr hsize => exact .inr ⟨append_ne_nil_of_left_ne_nil hsize.1 _,hsize.2⟩
  | process S =>
    rw [SyncEvent.request,toList_none,map_nil,append_nil]
    change ∃ ino', (processPendingSync S ino).map Prod.snd = some ino' ∧ _
    unfold processPendingSync
    split
    · exact ⟨ino,rfl,h⟩
    · next hne =>
      have hpending : ino.pending ≠ [] := by simpa using hne
      have hok : Inode.Ok { ino with pending := [] } := ⟨h.ok.sound,h.ok.fits⟩
      obtain ⟨ino',hadd,hadded⟩ := unifyfsInodeAddExtents_spec S ino.pending.flatten hok
        h.isLaminated (by
          intro e he
          obtain ⟨es,hes,he⟩ := mem_flatten.mp he
          exact h.fits es hes e he)
      have hnone := hadded.pending
      refine ⟨ino',by rw [hadd]; rfl,hadded.ok,hadded.isLaminated.trans h.isLaminated,?_,?_,?_⟩
      · rw [hnone]
        simp
      · rw [hnone,← h.map]
        exact hadded.map
      · right
        cases h.size with
        | inl hsize => exact ⟨hsize.1 ▸ hpending,hadded.size_trans (.inl hsize.2)⟩
        | inr hsize => exact ⟨hsize.1,hadded.size_trans (.inr hsize.2)⟩

theorem foldlM_syncStep_applied (id : LogId) (h : Applied ino₀ reqs ino) (evs : List SyncEvent)
    (hevs : ∀ entries ∈ evs.filterMap SyncEvent.request,
      entries ≠ [] ∧ ∀ entry ∈ entries, Fits (decodeIndex id entry)) :
    ∃ ino', evs.foldlM (syncStep id) ino = some ino' ∧
      Applied ino₀ (reqs ++ (evs.filterMap SyncEvent.request).map (List.map (decodeIndex id)))
        ino' := by
  apply exists_foldlM
  · intro done ev t hev happlied
    obtain ⟨u,hu,hdone⟩ := syncStep_applied happlied ev fun entries he =>
      hevs entries (mem_filterMap.mpr ⟨ev,hev,he⟩)
    have hreq : [ev].filterMap SyncEvent.request = ev.request.toList := by cases ev <;> rfl
    refine ⟨u,hu,?_⟩
    rw [filterMap_append,map_append,← append_assoc]
    exact hdone
  · rw [filterMap_nil,map_nil,append_nil]
    exact h

theorem extentOf_fits (id : LogId) (w : LogWrite) : Fits (extentOf id w) := by
  have hone := w.one_le
  have hfits := w.fits
  change w.pos ≤ w.pos + w.nwritten - 1 ∧ w.pos + w.nwritten - 1 + 1 < wordSize
  omega

theorem addDirectly_spec (id : LogId) (S : ℕ → ℕ → Picker LogLoc) (k : ℕ) (hino : ino.Ok)
    (hlam : ino.attr.isLaminated = 0) (ws : List LogWrite) :
    ∃ ino', addDirectly id S k ws ino = some ino' ∧
      (ws = [] ∧ ino' = ino ∨ ws ≠ [] ∧ Added (ws.map (extentOf id)) ino ino') := by
  induction ws generalizing ino k with
  | nil => exact ⟨ino,rfl,.inl ⟨rfl,rfl⟩⟩
  | cons w ws ih =>
    obtain ⟨u,hu,hadded⟩ := unifyfsInodeAddExtents_spec (S k) [extentOf id w] hino hlam
      fun e he => mem_singleton.mp he ▸ extentOf_fits id w
    obtain ⟨v,hv,hrest⟩ := ih (k + 1) hadded.ok (hadded.isLaminated.trans hlam)
    refine ⟨v,?_,.inr ⟨cons_ne_nil _ _,?_⟩⟩
    · rw [addDirectly,hu]
      exact hv
    · cases hrest with
      | inl hsame =>
        rw [hsame.1,hsame.2]
        exact hadded
      | inr hmore => exact hadded.trans hmore.2

theorem tracks_fresh (id : LogId) (hm : Fresh m) (hlam : m.attrs.isLaminated = 0)
    (hstorage : m.storage = .logio) : Tracks id [] m [] := by
  have hnodes : m.extentsSync.nodes = [] := by
    rw [show m.extentsSync = segTreeInit from hm]
    rfl
  have hcounted : m.extentsSync.Counted := by
    rw [show m.extentsSync = segTreeInit from hm]
    exact segTreeInit_counted
  refine ⟨hcounted,?_,fun h => absurd hnodes h,hlam,hstorage,?_,?_,?_⟩
  · rw [hnodes]
    simp
  · simp
  · rw [hnodes]
    exact fun f => rfl
  · simp [hnodes]

/-- A client run that ends with a sync has handed over all of its writes. -/
theorem client_run (cfg : ClientConfig) (h : Tracks id [] m []) (ops : List ClientOp) :
    ∃ s, (ops.map ClientOp.event ++ [FileEvent.sync Rc.success]).foldlM (fileStep cfg) ⟨m,[]⟩ =
        some s ∧ Tracks id (ops.filterMap ClientOp.written) s.entry s.rewrites ∧
      s.entry.extentsSync.nodes = [] := by
  obtain ⟨u,hu,htracks⟩ := foldlM_fileStep_tracks cfg (s := ⟨m,[]⟩) h ops
  refine ⟨⟨(syncExtents u.entry Rc.success).2.1,
    u.rewrites ++ (syncExtents u.entry Rc.success).2.2⟩,?_,htracks.sync Rc.success⟩
  rw [foldlM_append,hu]
  rfl

theorem Applied.eq_of_added {ino' inoD : Inode} (h : Applied ino reqs ino')
    (hdone : ino'.pending = []) (hreqs : reqs = [] ↔ ws = [])
    (hmap : reqs.flatten.foldl overwriteExtent (extentMap ino) =
      (ws.map (extentOf id)).foldl overwriteExtent (extentMap ino))
    (hD : ws = [] ∧ inoD = ino ∨ ws ≠ [] ∧ Added (ws.map (extentOf id)) ino inoD) :
    extentMap ino' = extentMap inoD ∧ ino'.attr.size = inoD.attr.size := by
  have hsame := h.map
  rw [hdone,hmap] at hsame
  have hcases := h.size
  rw [hdone] at hcases
  cases hD with
  | inl hnone =>
    obtain ⟨hws,rfl⟩ := hnone
    rw [hws] at hsame
    cases hcases with
    | inl hsize => exact ⟨hsame,hsize.2⟩
    | inr hsize => exact absurd (hreqs.mpr hws) hsize.1
  | inr hsome =>
    obtain ⟨hws,hadded⟩ := hsome
    have hmaps := hsame.trans hadded.map.symm
    cases hcases with
    | inl hsize => exact absurd (hreqs.mp hsize.1.symm) hws
    | inr hsize =>
      have htop := h.ok.sound.isTop.eq_of_contents h.ok.sound.separate
        hadded.ok.sound.separate hadded.ok.sound.isTop (congrFun hmaps)
      refine ⟨hmaps,BitVec.eq_of_toNat_eq ?_⟩
      rw [hsize.2,hadded.size,htop]

/-- Whatever the writes and the syncs between them: once the requests have arrived in order
and nothing is pending, the server has the file that the single writes would have made. -/
theorem synced_file_eq_direct (id : LogId) (cfg : ClientConfig) (S : ℕ → ℕ → Picker LogLoc)
    (ino : Inode) (hino : ino.Ok) (hlam : ino.attr.isLaminated = 0) (hpending : ino.pending = [])
    (m : FileMeta) (hm : Fresh m) (hopen : m.attrs.isLaminated = 0) (hstorage : m.storage = .logio)
    (ops : List ClientOp) :
    ∃ s inoD,
      (ops.map ClientOp.event ++ [FileEvent.sync Rc.success]).foldlM (fileStep cfg) ⟨m,[]⟩ =
        some s ∧
      addDirectly id S 0 (ops.filterMap ClientOp.written) ino = some inoD ∧
      ∀ evs : List SyncEvent,
        evs.filterMap SyncEvent.request = s.rewrites.filter (fun es => !es.isEmpty) →
        ∃ ino', evs.foldlM (syncStep id) ino = some ino' ∧
          (ino'.pending = [] →
            extentMap ino' = extentMap inoD ∧ ino'.attr.size = inoD.attr.size) := by
  obtain ⟨s,hs,htracks,hnodes⟩ := client_run cfg (tracks_fresh id hm hopen hstorage) ops
  obtain ⟨inoD,hD,hdirect⟩ := addDirectly_spec id S 0 hino hlam (ops.filterMap ClientOp.written)
  refine ⟨s,inoD,hs,hD,?_⟩
  intro evs hevs
  have hstart : Applied ino [] ino :=
    ⟨hino,hlam,by simp [hpending],by rw [hpending],.inl ⟨hpending,rfl⟩⟩
  obtain ⟨ino',hrun,happlied⟩ := foldlM_syncStep_applied id hstart evs (by
    intro entries he
    rw [hevs,mem_filter] at he
    refine ⟨by simpa using he.2,?_⟩
    intro entry hentry
    exact htracks.fits entry (mem_flatten.mpr ⟨entries,he.1,hentry⟩))
  refine ⟨ino',hrun,fun hdone => happlied.eq_of_added hdone ?_ ?_ hdirect⟩
  · rw [nil_append,map_eq_nil_iff,hevs,htracks.sent,filter_eq_nil_iff]
    simp [hnodes]
  · rw [nil_append,hevs,← map_flatten,flatten_filter_not_isEmpty]
    have := htracks.map (extentMap ino)
    rwa [hnodes] at this

def emptyInode : Inode := ⟨{ FileAttr.invalid with gfid := 7, isLaminated := 0 },extentTreeInit,[]⟩

def myLog : LogId := ⟨0,1,1⟩

/-- The first four bytes of the file, at a place in the log. -/
def fourBytesFrom (logOff : BitVec 64) : LogWrite :=
  ⟨0,logOff,4,Nat.le_add_left 1 3,Nat.succ_le_of_lt (by decide)⟩

def threeWrites : List ClientOp :=
  [.write .first ⟨0,0,10,by decide,by decide⟩,.write .first ⟨4,10,2,by decide,by decide⟩,.sync,
    .write .first ⟨8,12,4,Nat.le_add_left 1 3,by decide⟩]

def threeWritesSynced : List SyncEvent :=
  [.fsync [⟨0,0,4,7⟩,⟨4,10,2,7⟩,⟨6,6,4,7⟩],.fsync [⟨8,12,4,7⟩],.process fun _ => .first]

theorem emptyInode_ok : emptyInode.Ok := ⟨extentTreeInit_sound,by decide⟩

theorem synced_file_eq_direct_three_writes :
    ∃ ino' inoD, threeWritesSynced.foldlM (syncStep myLog) emptyInode = some ino' ∧
      addDirectly myLog (fun _ _ => .first) 0 (threeWrites.filterMap ClientOp.written) emptyInode =
        some inoD ∧
      extentMap ino' = extentMap inoD ∧ ino'.attr.size = inoD.attr.size := by
  obtain ⟨s,inoD,hs,hD,hall⟩ := synced_file_eq_direct myLog ⟨1,8,false⟩ (fun _ _ => .first)
    emptyInode emptyInode_ok rfl rfl newEntry rfl rfl rfl threeWrites
  have hrewrites : ((threeWrites.map ClientOp.event ++ [FileEvent.sync Rc.success]).foldlM
      (fileStep ⟨1,8,false⟩) ⟨newEntry,[]⟩).map FileHistory.rewrites =
        some [[⟨0,0,4,7⟩,⟨4,10,2,7⟩,⟨6,6,4,7⟩],[⟨8,12,4,7⟩]] := by
    decide +kernel
  rw [hs] at hrewrites
  obtain ⟨ino',hrun,hsame⟩ := hall threeWritesSynced (by rw [some.inj hrewrites]; rfl)
  have hpending : (threeWritesSynced.foldlM (syncStep myLog) emptyInode).map Inode.pending =
      some [] := by
    decide +kernel
  rw [hrun] at hpending
  exact ⟨ino',inoD,hrun,hD,hsame (some.inj hpending)⟩

end UnifyFS.SyncRefinement
