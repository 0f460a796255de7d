import UnifyFS.LogData
import UnifyFS.SyncRefinement

/-!
# From a write to the byte that a server finds

A client puts the data of a write into its log and records where it put them; a sync
hands the places to the server, and a read looks a byte up in the extents of the inode and
takes it from the log. Log and index never meet on the way, so what joins them is an
invariant: each place that the index names holds the byte of the last write there, and no
write that is still to come touches it.
-/
namespace UnifyFS.SyncedReads
open MachineWords RangeLists RangeTrees ExtentTree InodeModel LogIO LogData WriteIndex IndexCapacity
  SyncRefinement SegTreeOps List

structure DataWrite extends LogWrite where
  data : List UInt8
  length_data : data.length = nwritten

namespace DataWrite

def Uses (w : DataWrite) (i : ℕ) : Prop := w.logOff.toNat ≤ i ∧ i < w.logOff.toNat + w.nwritten

instance (w : DataWrite) (i : ℕ) : Decidable (w.Uses i) := inferInstanceAs (Decidable (_ ∧ _))

end DataWrite

/-- What a client does to one file, with the data of its writes. -/
inductive DataOp where
  | write (S : Picker LogPtr) (w : DataWrite)
  | sync

namespace DataOp

def op : DataOp → ClientOp
  | write S w => .write S w.toLogWrite
  | sync => .sync

def written : DataOp → Option DataWrite
  | write _ w => some w
  | sync => none

end DataOp

def logAll (ctx : LogioContext) (d : LogBytes) (ws : List DataWrite) : Option LogBytes :=
  ws.foldlM (fun d w => (unifyfsLogioWrite ctx movesAll d w.logOff.toNat w.data).map (·.2.2)) d

/-- The file as an array of bytes: a write replaces the bytes of its range. -/
def overwriteBytes (g : ℕ → Option UInt8) (w : DataWrite) (b : ℕ) : Option UInt8 :=
  if w.pos ≤ b ∧ b < w.pos + w.nwritten then w.data[b - w.pos]? else g b

def fileBytes (ws : List DataWrite) : ℕ → Option UInt8 := ws.foldl overwriteBytes fun _ => none

/-- The ranges of the log that an allocator has given to the writes. -/
structure InLog (ctx : LogioContext) (ws : List DataWrite) : Prop where
  inside : ∀ w ∈ ws, w.logOff.toNat + w.nwritten ≤ ctx.memSize + ctx.spillSize
  apart : ws.Pairwise fun v w => v.logOff.toNat + v.nwritten ≤ w.logOff.toNat ∨
    w.logOff.toNat + w.nwritten ≤ v.logOff.toNat

/-- The byte at `b` has a place in the log that holds it and that `ws` leaves alone. -/
def Placed (id : LogId) (ctx : LogioContext) (ws : List DataWrite) (f : ℕ → Option LogLoc)
    (g : ℕ → Option UInt8) (d : LogBytes) (b : ℕ) : Prop :=
  ∃ i byte, f b = some (id.at i) ∧ g b = some byte ∧ i.toNat < ctx.memSize + ctx.spillSize ∧
    logByte ctx d i.toNat = some byte ∧ ∀ w ∈ ws, ¬ w.Uses i.toNat

def Agrees (id : LogId) (ctx : LogioContext) (ws : List DataWrite) (f : ℕ → Option LogLoc)
    (g : ℕ → Option UInt8) (d : LogBytes) : Prop :=
  ∀ b, f b = none ∧ g b = none ∨ Placed id ctx ws f g d b

section
variable {id : LogId} {ctx : LogioContext} {w : DataWrite} {ws : List DataWrite}
  {f : ℕ → Option LogLoc} {g : ℕ → Option UInt8} {d : LogBytes}

theorem holds_extentOf (b : ℕ) :
    (extentOf id w.toLogWrite).Holds b ↔ w.pos ≤ b ∧ b < w.pos + w.nwritten := by
  have := w.one_le
  change w.pos ≤ b ∧ b ≤ w.pos + w.nwritten - 1 ↔ _
  omega

theorem toNat_place {k : ℕ} (hk : k < w.nwritten) (hin : w.logOff.toNat + w.nwritten ≤ wordSize) :
    (w.logOff + BitVec.ofNat 64 k).toNat = w.logOff.toNat + k := by
  have hlt : w.logOff.toNat + k < 2 ^ 64 := lt_of_lt_of_le (by omega) hin
  rw [BitVec.toNat_add,BitVec.toNat_ofNat,Nat.add_mod_mod,Nat.mod_eq_of_lt hlt]

/-- One write: its bytes get the places it used, all others keep theirs. -/
theorem Agrees.write (h : Agrees id ctx (w :: ws) f g d) (hlog : InLog ctx (w :: ws))
    (hsize : ctx.memSize + ctx.spillSize ≤ wordSize) {d' : LogBytes}
    (hbytes : ∀ i, logByte ctx d' i = if w.Uses i then w.data[i - w.logOff.toNat]?
      else logByte ctx d i) :
    Agrees id ctx ws (overwriteExtent f (extentOf id w.toLogWrite)) (overwriteBytes g w) d' := by
  intro b
  have hin := hlog.inside w mem_cons_self
  by_cases hb : w.pos ≤ b ∧ b < w.pos + w.nwritten
  · right
    have hk : b - w.pos < w.nwritten := Nat.sub_lt_left_of_lt_add hb.1 hb.2
    have hplace := toNat_place hk (hin.trans hsize)
    have huses : w.Uses (w.logOff.toNat + (b - w.pos)) := ⟨by omega,by omega⟩
    have hlen : b - w.pos < w.data.length := by rwa [w.length_data]
    obtain ⟨byte,hbyte⟩ : ∃ byte, w.data[b - w.pos]? = some byte := ⟨_,getElem?_eq_getElem hlen⟩
    refine ⟨w.logOff + BitVec.ofNat 64 (b - w.pos),byte,?_,?_,?_,?_,?_⟩
    · rw [overwriteExtent_apply,if_pos ((holds_extentOf b).mpr hb)]
      rfl
    · rw [overwriteBytes,if_pos hb,hbyte]
    · rw [hplace]
      omega
    · rw [hplace,hbytes,if_pos huses,Nat.add_sub_cancel_left,hbyte]
    · rintro v hv ⟨hv₁,hv₂⟩
      have := (pairwise_cons.mp hlog.apart).1 v hv
      omega
  · rw [Placed,overwriteExtent_apply,if_neg (mt (holds_extentOf b).mp hb),overwriteBytes,if_neg hb]
    refine (h b).imp_right ?_
    rintro ⟨i,byte,hf,hg,hi,hstored,hfree⟩
    refine ⟨i,byte,hf,hg,hi,?_,fun v hv => hfree v (mem_cons_of_mem _ hv)⟩
    rw [hbytes,if_neg (hfree w mem_cons_self),hstored]

theorem Agrees.logAll (h : Agrees id ctx ws f g d) (hlog : InLog ctx ws)
    (hsize : ctx.memSize + ctx.spillSize ≤ wordSize) (hd : Stored ctx d) :
    ∃ d', logAll ctx d ws = some d' ∧ Stored ctx d' ∧
      Agrees id ctx [] ((ws.map fun w => extentOf id w.toLogWrite).foldl overwriteExtent f)
        (ws.foldl overwriteBytes g) d' := by
  induction ws generalizing f g d with
  | nil => exact ⟨d,rfl,hd,h⟩
  | cons w ws ih =>
    have hin : w.logOff.toNat + w.data.length ≤ ctx.memSize + ctx.spillSize := by
      rw [w.length_data]
      exact hlog.inside w mem_cons_self
    obtain ⟨u,hu,hstored,hbytes⟩ := write_spec hd hin
    rw [w.length_data] at hbytes
    obtain ⟨d',hrun,hrest⟩ := ih (h.write hlog hsize hbytes)
      ⟨fun v hv => hlog.inside v (mem_cons_of_mem _ hv),hlog.apart.of_cons⟩ hstored
    refine ⟨d',?_,hrest⟩
    rw [SyncedReads.logAll,foldlM_cons,hu]
    exact hrun

/-- Both sides of what a reader sees: the place that the index names, read from the log. -/
theorem Agrees.read (h : Agrees id ctx ws f g d) (hd : Stored ctx d) (b : ℕ) :
    f b = none ∧ g b = none ∨ ∃ i byte, f b = some (id.at i) ∧ g b = some byte ∧
      unifyfsLogioRead ctx movesAll d i.toNat 1 = some (Rc.success,[byte]) := by
  refine (h b).imp_right ?_
  rintro ⟨i,byte,hf,hg,hi,hstored,-⟩
  obtain ⟨bytes,hread,hlen,hcell⟩ := read_spec hd i.toNat 1 hi
  obtain ⟨x,rfl⟩ := length_eq_one_iff.mp hlen
  refine ⟨i,byte,hf,hg,?_⟩
  have := hcell 0 (by decide)
  rw [Nat.add_zero,hstored] at this
  rw [hread,Option.some.inj this]

theorem filterMap_written (ops : List DataOp) : (ops.map DataOp.op).filterMap ClientOp.written =
      (ops.filterMap DataOp.written).map DataWrite.toLogWrite := by
  rw [filterMap_map,map_filterMap]
  congr 1
  funext o
  cases o <;> rfl

end

/-- Whatever a client writes to a new file and wherever it syncs: when the server has applied
the requests, in order and in any number of batches, each byte of the file is where the
server looks for it, and bytes that were not written are nowhere. -/
theorem synced_bytes_read_back (id : LogId) (cfg : ClientConfig) (ctx : LogioContext)
    (hsize : ctx.memSize + ctx.spillSize ≤ wordSize) (d : LogBytes) (hd : Stored ctx d)
    (ino : Inode) (hino : ino.Ok) (hlam : ino.attr.isLaminated = 0) (hpending : ino.pending = [])
    (hnew : extentMap ino = fun _ => none) (m : FileMeta) (hm : Fresh m)
    (hopen : m.attrs.isLaminated = 0) (hstorage : m.storage = .logio) (ops : List DataOp)
    (hlog : InLog ctx (ops.filterMap DataOp.written)) : ∃ s d',
      ((ops.map DataOp.op).map ClientOp.event ++ [FileEvent.sync Rc.success]).foldlM
        (fileStep cfg) ⟨m,[]⟩ = some s ∧ logAll ctx d (ops.filterMap DataOp.written) = some d' ∧
      ∀ evs : List SyncEvent,
        evs.filterMap SyncEvent.request = s.rewrites.filter (fun es => !es.isEmpty) →
        ∃ ino', evs.foldlM (syncStep id) ino = some ino' ∧ (ino'.pending = [] → ∀ b,
            extentMap ino' b = none ∧ fileBytes (ops.filterMap DataOp.written) b = none ∨
            ∃ i byte, extentMap ino' b = some (id.at i) ∧
              fileBytes (ops.filterMap DataOp.written) b = some byte ∧
              unifyfsLogioRead ctx movesAll d' i.toNat 1 = some (Rc.success,[byte])) := by
  obtain ⟨s,hs,htracks,hnodes⟩ :=
    client_run cfg (tracks_fresh id hm hopen hstorage) (ops.map DataOp.op)
  have hstart : Agrees id ctx (ops.filterMap DataOp.written) (extentMap ino) (fun _ => none) d :=
    fun b => .inl ⟨by rw [hnew],rfl⟩
  obtain ⟨d',hrun,hd',hagrees⟩ := hstart.logAll hlog hsize hd
  refine ⟨s,d',hs,hrun,fun evs hevs => ?_⟩
  obtain ⟨ino',hino',happlied⟩ := foldlM_syncStep_applied id
    ⟨hino,hlam,by simp [hpending],by rw [hpending],.inl ⟨hpending,rfl⟩⟩ evs (by
      intro entries he
      rw [hevs,mem_filter] at he
      refine ⟨by simpa using he.2,?_⟩
      intro entry hentry
      exact htracks.fits entry (mem_flatten.mpr ⟨entries,he.1,hentry⟩))
  refine ⟨ino',hino',fun hdone b => ?_⟩
  have hmap := happlied.map
  rw [hdone,nil_append,hevs,← map_flatten,flatten_filter_not_isEmpty] at hmap
  have hsent := htracks.map (extentMap ino)
  rw [hnodes,filterMap_written,map_map] at hsent
  have hsame : extentMap ino' = _ := hmap.trans hsent
  rw [hsame]
  exact hagrees.read hd' b

/-- Four bytes, a sync, and other data for the same bytes. -/
def twoDataWrites : List DataOp :=
  [.write .first ⟨fourBytesFrom 0,[1,2,3,4],rfl⟩,.sync,
    .write .first ⟨fourBytesFrom 4,[5,6,7,8],rfl⟩]

def twoSyncs : List SyncEvent :=
  [.fsync [⟨0,0,4,7⟩],.fsync [⟨0,4,4,7⟩],.process fun _ => .first]

theorem bytesLog_stored : Stored bytesLog ⟨replicate 104 0,replicate 104 0⟩ := by
  have hregion : bytesLog.shmem.all (fun h => decide (h.dataOffset + h.dataSz ≤ 104)) = true := by
    decide +kernel
  have hstored : RegionStored bytesLog.shmem (replicate 104 0) := by
    intro h hh
    rw [hh] at hregion
    rw [length_replicate]
    exact of_decide_eq_true hregion
  exact ⟨hstored,hstored⟩

theorem synced_bytes_two_writes : ∃ ino' d' i,
    twoSyncs.foldlM (syncStep myLog) emptyInode = some ino' ∧
      logAll bytesLog ⟨replicate 104 0,replicate 104 0⟩
        (twoDataWrites.filterMap DataOp.written) = some d' ∧
      extentMap ino' 2 = some (myLog.at i) ∧
      unifyfsLogioRead bytesLog movesAll d' i.toNat 1 = some (Rc.success,[7]) := by
  obtain ⟨s,d',hs,hd,hall⟩ := synced_bytes_read_back myLog ⟨1,8,false⟩ bytesLog (by decide +kernel)
    _ bytesLog_stored emptyInode emptyInode_ok rfl rfl rfl newEntry rfl rfl rfl twoDataWrites
    ⟨by decide +kernel,by decide +kernel⟩
  have hrewrites : (((twoDataWrites.map DataOp.op).map ClientOp.event ++
      [FileEvent.sync Rc.success]).foldlM (fileStep ⟨1,8,false⟩) ⟨newEntry,[]⟩).map
        FileHistory.rewrites = some [[⟨0,0,4,7⟩],[⟨0,4,4,7⟩]] := by
    decide +kernel
  rw [hs] at hrewrites
  obtain ⟨ino',hrun,hbytes⟩ := hall twoSyncs (by rw [Option.some.inj hrewrites]; rfl)
  have hpending : (twoSyncs.foldlM (syncStep myLog) emptyInode).map Inode.pending = some [] := by
    decide +kernel
  rw [hrun] at hpending
  obtain hnone | ⟨i,byte,hf,hg,hread⟩ := hbytes (Option.some.inj hpending) 2
  · exact absurd hnone.2 (by decide)
  · cases hg
    exact ⟨ino',d',i,hrun,hd,hf,hread⟩

end UnifyFS.SyncedReads
