import Mathlib
import UnifyFS.LogData
import UnifyFS.LogIOReturns
import UnifyFS.WriteIndex

/-!
# Writes that fail in the log

`unifyfs_fid_write` reserves chunks of the log, writes the data there and then records the
extent in two trees of the local entry: the one that is synced and, if the client is
configured to, the local cache. A failure before the extent is recorded leaves both trees
alone. Chunks that were reserved for a write that then fails are never given back.
-/
namespace UnifyFS.FidWrites
open MachineWords Slotmap LogIO LogData LogIOReturns WriteIndex RangeTrees SegTreeOps Option

structure ClientLog where
  ctx : LogioContext
  bytes : LogBytes

/-- What a write changes: the log, and the local entry of the file with its cache. -/
structure WriteState where
  log : ClientLog
  filemeta : FileMeta
  extents : RangeTree LogPtr

/-- The first part of `fid_logio_write`: reserve, then write. The file position is a signed
word and the data no longer than one, and a `pwrite` call that succeeds writes something;
otherwise there is no result. -/
def logWrite (pwrite : Syscall) (log : ClientLog) (pos : ℕ) (buf : List UInt8) :
    Option (Except Rc LogWrite × ClientLog) :=
  match unifyfsLogioAlloc log.ctx buf.length with
  | none => none
  | some out =>
    if out.rc ≠ Rc.success then some (.error out.rc,{ log with ctx := out.ctx })
    else
      match out.logOffset with
      | none => none
      | some logOff =>
        match unifyfsLogioWrite out.ctx pwrite log.bytes logOff buf with
        | none => none
        | some (rc,nwritten,bytes) =>
          if rc ≠ Rc.success then some (.error rc,⟨out.ctx,bytes⟩)
          else if h : 1 ≤ nwritten ∧ pos + nwritten < wordSize then
            some (.ok ⟨pos,BitVec.ofNat 64 logOff,nwritten,h.1,h.2⟩,⟨out.ctx,bytes⟩)
          else none

/-- The local cache after a write that reached the log. -/
def addToCache (useLocalExtents : Bool) (clientId : ℕ) (S : Picker LogPtr)
    (extents : RangeTree LogPtr) (w : LogWrite) : Option (RangeTree LogPtr) :=
  if useLocalExtents then
    segTreeAdd S extents w.pos (w.pos + w.nwritten - 1) w.logOff clientId
  else some extents

/-- `unifyfs_fid_write`: the return code, the new state and what was written to the index. -/
def unifyfsFidWrite (cfg : ClientConfig) (useLocalExtents : Bool) (S S' : Picker LogPtr)
    (pwrite : Syscall) (s : WriteState) (pos : ℕ) (buf : List UInt8) (reply reply' : Rc) :
    Option (Rc × WriteState × List (List IndexEntry)) :=
  if buf.length = 0 then some (Rc.success,s,[])
  else if s.filemeta.attrs.isLaminated ≠ 0 then some (Rc.erofs,s,[])
  else if s.filemeta.storage ≠ .logio then some (Rc.eio,s,[])
  else
    match logWrite pwrite s.log pos buf with
    | none => none
    | some (.error rc,log) => some (rc,{ s with log := log },[])
    | some (.ok w,log) =>
      match addToCache useLocalExtents cfg.clientId S' s.extents w with
      | none => none
      | some extents =>
        (fidWrite cfg S s.filemeta (.ok w) reply reply').map fun (rc,m,rewritten) =>
          (rc,⟨log,m,extents⟩,rewritten)

/-- Whether a chunk of one region is reserved. -/
def regionReserved (r : Option LogHeader) (slot : ℕ) : Bool :=
  r.any fun h => h.chunkmap.used slot

/-- The same chunks are reserved in both regions. -/
def SameReserved (ctx ctx' : LogioContext) : Prop :=
  (∀ slot, regionReserved ctx'.shmem slot = regionReserved ctx.shmem slot) ∧
    ∀ slot, regionReserved ctx'.spillHdr slot = regionReserved ctx.spillHdr slot

theorem regionReserved_eq (r : Option LogHeader) (slot : ℕ) :
    regionReserved r slot = (r.map accounts).any fun a => checkSlot a.useMap slot := by
  cases r with
  | none => rfl
  | some h => rfl

theorem regionReserved_congr {r r' : Option LogHeader} (h : r'.map accounts = r.map accounts)
    (slot : ℕ) : regionReserved r' slot = regionReserved r slot := by
  rw [regionReserved_eq,regionReserved_eq,h]

section Outcomes
variable {ctx : LogioContext} {n : ℕ} {out : AllocOut}

theorem regionReserved_commit {h : LogHeader} {m : SlotMap h.totalSlots} {k s : ℕ}
    (hr : slotmapReserve h.chunkmap k = some (s,m)) (hk : 0 < k) :
    regionReserved (some (h.commit m k)) s ≠ regionReserved (some h) s := by
  have hafter : m.used s = true := by
    rw [(slotmapReserve_spec hr).2.2 s,decide_eq_true (by omega),Bool.true_or]
  have hbefore := slotmapReserve_clear hr le_rfl (by omega)
  change m.used s ≠ h.chunkmap.used s
  rw [hafter,hbefore]
  decide

/-- An allocation of at least one byte reserves a chunk exactly if it succeeds. -/
theorem outcome_sameReserved_iff (hn : 0 < n) (ho : Outcome ctx n out) :
    SameReserved ctx out.ctx ↔ out.rc ≠ Rc.success := by
  have henospc : Rc.enospc ≠ Rc.success := by decide
  constructor
  · intro hsame
    cases ho with
    | @inShmem h s m hh hr =>
      have heq := hsame.1 s
      rw [hh] at heq
      exact absurd heq (regionReserved_commit hr (bytesToChunks_pos h.chunk_pos hn))
    | noSpill _ _ => exact henospc
    | @inSpill p s m _ hp hr =>
      have heq := hsame.2 s
      rw [hp] at heq
      exact absurd heq (regionReserved_commit hr (bytesToChunks_pos p.chunk_pos hn))
    | spillFull _ _ => exact henospc
    | notJoined _ _ => exact henospc
    | @joined h p s m m' ht hr =>
      rcases Nat.eq_zero_or_pos (logEndChunks h) with hzero | hpos
      · have heq := hsame.2 0
        rw [ht.spill] at heq
        refine absurd heq (regionReserved_commit hr (bytesToChunks_pos p.chunk_pos ?_))
        rw [hzero,Nat.zero_mul]
        exact hn
      · have heq := hsame.1 s
        rw [ht.shmem] at heq
        exact absurd heq (regionReserved_commit ht.tail hpos)
    | @retried h p s m s' slot m' m'' ht hr hretry =>
      -- the first reservation was given back, so the second one shows against the old map
      have heq := hsame.2 slot
      rw [ht.spill] at heq
      have hback : regionReserved (some (p.rolledBack m' (s' + 1) (restChunks h p n))) slot =
          regionReserved (some p) slot := by
        apply regionReserved_congr
        exact congrArg some (accounts_rolledBack hr)
      exact absurd (heq.trans hback.symm)
        (regionReserved_commit hretry (bytesToChunks_pos p.chunk_pos hn))
    | stuck _ _ _ => exact henospc
  · intro hrc
    obtain ⟨hmem,hspill⟩ := outcome_failed_accounts ho hrc
    exact ⟨regionReserved_congr hmem,regionReserved_congr hspill⟩

end Outcomes

section Failures
variable {pwrite : Syscall} {log log' : ClientLog} {pos : ℕ} {buf : List UInt8} {rc : Rc}

theorem logWrite_error (hfail : logWrite pwrite log pos buf = some (.error rc,log')) :
    ∃ out, unifyfsLogioAlloc log.ctx buf.length = some out ∧ log'.ctx = out.ctx := by
  unfold logWrite at hfail
  split at hfail
  · cases hfail
  · next out ha =>
    refine ⟨out,ha,?_⟩
    split_ifs at hfail
    · cases hfail
      rfl
    · split at hfail
      · cases hfail
      · split at hfail
        · cases hfail
        · split_ifs at hfail
          · cases hfail
            rfl
          · cases hfail

/-- A write that fails in the log returns the error and records nothing. The chunks that are
reserved are those before the call exactly if the allocation failed. -/
theorem failed_write_reserves_nothing_iff (cfg : ClientConfig) (useLocalExtents : Bool)
    (S S' : Picker LogPtr) (pwrite : Syscall) (s : WriteState) (pos : ℕ) (buf : List UInt8)
    (reply reply' : Rc) (hbuf : 1 ≤ buf.length) (hlam : s.filemeta.attrs.isLaminated = 0)
    (hlogio : s.filemeta.storage = .logio) (rc : Rc) (log : ClientLog)
    (hfail : logWrite pwrite s.log pos buf = some (.error rc,log)) :
    ∃ s', unifyfsFidWrite cfg useLocalExtents S S' pwrite s pos buf reply reply' =
        some (rc,s',[]) ∧ s'.filemeta = s.filemeta ∧ s'.extents = s.extents ∧
      (SameReserved s.log.ctx s'.log.ctx ↔
        ∃ out, unifyfsLogioAlloc s.log.ctx buf.length = some out ∧ out.rc ≠ Rc.success) := by
  refine ⟨{ s with log := log },?_,rfl,rfl,?_⟩
  · rw [unifyfsFidWrite,if_neg (by omega),if_neg (by rw [hlam]; decide),
      if_neg (by rw [hlogio]; decide),hfail]
  · obtain ⟨out,ha,hctx⟩ := logWrite_error hfail
    have hiff := outcome_sameReserved_iff hbuf (outcome_of_alloc (by omega) ha)
    rw [hctx,hiff]
    constructor
    · exact fun hrc => ⟨out,ha,hrc⟩
    · rintro ⟨out',ha',hrc⟩
      obtain rfl := some.inj (ha.symm.trans ha')
      exact hrc

def spillClient : WriteState where
  log := ⟨⟨none,initLogHeader 100 1 96 (by norm_num) Nat.one_pos⟩,⟨[],List.replicate 100 0⟩⟩
  filemeta := ⟨0,.logio,false,false,false,segTreeInit,FileAttr.zero⟩
  extents := segTreeInit

def smallConfig : ClientConfig := ⟨7,64,false⟩

/-- The log part ends with the given error. -/
def failsWith (rc : Rc) (r : Except Rc LogWrite × ClientLog) : Bool :=
  match r.1 with
  | .error e => e = rc
  | .ok _ => false

theorem exists_of_failsWith (h : (logWrite pwrite log pos buf).any (failsWith rc) = true) :
    ∃ log', logWrite pwrite log pos buf = some (.error rc,log') := by
  obtain ⟨⟨r,log'⟩,hr,hfail⟩ := (any_eq_true _ _).mp h
  cases r with
  | error e =>
    obtain rfl : e = rc := of_decide_eq_true hfail
    exact ⟨log',hr⟩
  | ok w => cases hfail

/-- Nine bytes have no room. -/
theorem failed_write_no_space : ∃ s',
    unifyfsFidWrite smallConfig true Picker.first Picker.first movesAll spillClient 0
      (List.replicate 9 1) Rc.success Rc.success = some (Rc.enospc,s',[]) ∧
    s'.extents = spillClient.extents ∧ SameReserved spillClient.log.ctx s'.log.ctx := by
  have hlog : (logWrite movesAll spillClient.log 0 (List.replicate 9 1)).any
      (failsWith Rc.enospc) = true := by decide +kernel
  obtain ⟨log,hfail⟩ := exists_of_failsWith hlog
  have hout : (unifyfsLogioAlloc spillClient.log.ctx 9).any
      (fun out => decide (out.rc ≠ Rc.success)) = true := by decide +kernel
  obtain ⟨out,ha,hrc⟩ := (any_eq_true _ _).mp hout
  obtain ⟨s',hs,-,hext,hiff⟩ := failed_write_reserves_nothing_iff smallConfig true Picker.first
    Picker.first movesAll spillClient 0 (List.replicate 9 1) Rc.success Rc.success (by decide) rfl
    rfl Rc.enospc log hfail
  exact ⟨s',hs,hext,hiff.mpr ⟨out,ha,of_decide_eq_true hrc⟩⟩

/-- One byte has room, but `pwrite` fails. The chunk stays reserved. -/
theorem failed_write_keeps_chunk : ∃ s',
    unifyfsFidWrite smallConfig true Picker.first Picker.first (fun _ => .error Rc.eio)
      spillClient 0 [1] Rc.success Rc.success = some (Rc.eio,s',[]) ∧
    regionReserved spillClient.log.ctx.spillHdr 0 = false ∧
    regionReserved s'.log.ctx.spillHdr 0 = true := by
  have heval : (unifyfsFidWrite smallConfig true Picker.first Picker.first
      (fun _ => .error Rc.eio) spillClient 0 [1] Rc.success Rc.success).any
      (fun r => decide (r.1 = Rc.eio ∧ r.2.2 = [] ∧
        regionReserved r.2.1.log.ctx.spillHdr 0 = true)) = true := by decide +kernel
  obtain ⟨⟨rc,s',rewritten⟩,hs,hr⟩ := (any_eq_true _ _).mp heval
  obtain ⟨rfl,rfl,hreserved⟩ := of_decide_eq_true hr
  exact ⟨s',hs,by decide +kernel,hreserved⟩

end Failures
end UnifyFS.FidWrites
