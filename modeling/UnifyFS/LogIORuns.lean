import Mathlib
import UnifyFS.LogIOInvariant
import UnifyFS.LogIOOutcomes

/-!
# Histories of allocations and frees

A history is a sequence of `unifyfs_logio_alloc` and `unifyfs_logio_free` calls
on a freshly initialised context, where a free names one live allocation with
its exact offset and size. Calls that fail with `ENOSPC` may occur anywhere.

The allocator keeps the invariant only when the runs it reserves are the ones it
means: a run that `slotmap_reserve` finds may reach into the padding bits of the
last map byte, and the run it finds for the chunks "at the end of the shmem log"
may be a hole of the same length further down. `allocGuard` is the condition, on
the context before the call, that neither happens on the branch that is taken.
With eight chunks of one byte in each region, the history of `overlap_after_hole`
makes two live allocations share a byte.
-/
namespace UnifyFS.LogIORuns
open MachineWords Slotmap LogIO Spans GuardedRuns LogIOInvariant List Option

/-- The run that a reservation would take ends inside the region. -/
def fits {t : ℕ} (m : SlotMap t) (n : ℕ) : Bool :=
  (m.search n).all fun s => decide (s + n ≤ t)

def spillFits (p : LogHeader) (nbytes : ℕ) : Bool :=
  fits p.chunkmap (bytesToChunks nbytes p.chunkSz)

/-- The branches of `allocJoined`. Chunks at slot zero of the spill file may be
joined only to the very last chunks of the shared memory region. -/
def joinFits (h p : LogHeader) (memSlot nbytes : ℕ) : Bool :=
  let rest := bytesToChunks (wordSub nbytes (logEndChunks h * h.chunkSz)) p.chunkSz
  match slotmapReserve p.chunkmap rest with
  | none => true
  | some (0,_) => decide (memSlot + logEndChunks h = h.totalSlots)
  | some (s + 1,m) => fits (slotmapRelease m (s + 1) rest).2 (bytesToChunks nbytes p.chunkSz)

/-- On the branch that the call takes, the chunks that are kept lie inside their
region, and chunks joined over the border meet at the border. -/
def allocGuard (ctx : LogioContext) (nbytes : ℕ) : Bool :=
  match ctx.shmem,ctx.spillHdr with
  | none,none => true
  | none,some p => spillFits p nbytes
  | some h,none => fits h.chunkmap (bytesToChunks nbytes h.chunkSz)
  | some h,some p =>
    match h.chunkmap.search (bytesToChunks nbytes h.chunkSz) with
    | some s => decide (s + bytesToChunks nbytes h.chunkSz ≤ h.totalSlots)
    | none =>
      match h.chunkmap.search (logEndChunks h) with
      | none => spillFits p nbytes
      | some memSlot => joinFits h p memSlot nbytes

def granted (out : AllocOut) (nbytes : ℕ) : List Span :=
  if out.rc = Rc.success then (out.logOffset.map fun o => (⟨o,nbytes⟩ : Span)).toList else []

structure LogState where
  ctx : LogioContext
  live : List Span

inductive LogOp where
  | alloc (nbytes : ℕ)
  | free (a : Span)
  deriving DecidableEq, Repr

/-- A step does not exist when a free names no live allocation, or when the call
waits for a header lock forever. -/
def logStep (s : LogState) : LogOp → Option LogState
  | .alloc nbytes => (unifyfsLogioAlloc s.ctx nbytes).map fun out =>
    ⟨out.ctx,granted out nbytes ++ s.live⟩
  | .free a =>
    if a ∈ s.live then (unifyfsLogioFree s.ctx a.lo a.len).map fun out =>
      ⟨out.2,s.live.erase a⟩
    else none

def logGuard (s : LogState) : LogOp → Bool
  | .alloc nbytes => allocGuard s.ctx nbytes
  | .free _ => true

theorem fits_le {t : ℕ} {m m' : SlotMap t} {n s : ℕ} (hf : fits m n = true)
    (hr : slotmapReserve m n = some (s,m')) : s + n ≤ t := by
  rw [fits,(slotmapReserve_spec hr).1] at hf
  simpa using hf

section Parts
variable {memSz o n : ℕ}

theorem memPart_of_mem (h : o + n ≤ memSz) : memPart memSz ⟨o,n⟩ = ⟨o,n⟩ := by
  rw [memPart,getLogSizes_mem h]

theorem spillPart_of_mem (h : o + n ≤ memSz) : (spillPart memSz ⟨o,n⟩).len = 0 := by
  rw [spillPart,getLogSizes_mem h]

theorem memPart_of_spill (hn : 0 < n) : (memPart memSz ⟨o + memSz,n⟩).len = 0 := by
  rw [memPart,getLogSizes_spill (Nat.le_add_left _ _) hn]

theorem spillPart_of_spill (hn : 0 < n) : spillPart memSz ⟨o + memSz,n⟩ = ⟨o,n⟩ := by
  rw [spillPart,getLogSizes_spill (Nat.le_add_left _ _) hn,Nat.add_sub_cancel]

end Parts

section Steps
variable {memSz spillSz n : ℕ} {ctx : LogioContext} {live : List Span} {h p : LogHeader}
  {r : Option LogHeader} {s chunks : ℕ} {m : SlotMap h.totalSlots}

theorem pos_cons {o : ℕ} (hpos : ∀ a ∈ live, 0 < a.len) (hn : 0 < n) :
    ∀ a ∈ (⟨o,n⟩ : Span) :: live, 0 < a.len := by
  intro a ha
  rcases mem_cons.mp ha with rfl | ha
  · exact hn
  · exact hpos a ha

theorem full_inv (hi : LogInv memSz spillSz ⟨some h,r⟩ live) (hn : 0 < n)
    (hr : slotmapReserve h.chunkmap (bytesToChunks n h.chunkSz) = some (s,m))
    (hfit : s + bytesToChunks n h.chunkSz ≤ h.totalSlots) :
    LogInv memSz spillSz ⟨some (h.commit m (bytesToChunks n h.chunkSz)),r⟩
      (⟨s * h.chunkSz,n⟩ :: live) := by
  have hdata : h.totalSlots * h.chunkSz = memSz := by rw [← h.data_eq]; exact hi.memSize
  have hend : s * h.chunkSz + n ≤ memSz := by
    have hle := Nat.mul_le_mul_right h.chunkSz hfit
    have hb := (bytesToChunks_spec n h.chunk_pos).1
    rw [Nat.add_mul] at hle
    omega
  refine ⟨hi.memSize,hi.spillSize,pos_cons hi.pos hn,?_,hi.spill.skip (spillPart_of_mem hend)⟩
  exact hi.shmem.reserve hr hfit (by rw [memPart_of_mem hend]) (by rw [memPart_of_mem hend])

theorem spill_inv (hi : LogInv memSz spillSz ⟨r,some p⟩ live) (hn : 0 < n)
    {m : SlotMap p.totalSlots}
    (hr : slotmapReserve p.chunkmap (bytesToChunks n p.chunkSz) = some (s,m))
    (hfit : s + bytesToChunks n p.chunkSz ≤ p.totalSlots) :
    LogInv memSz spillSz ⟨r,some (p.commit m (bytesToChunks n p.chunkSz))⟩
      (⟨s * p.chunkSz + memSz,n⟩ :: live) := by
  refine ⟨hi.memSize,hi.spillSize,pos_cons hi.pos hn,hi.shmem.skip (memPart_of_spill hn),?_⟩
  exact hi.spill.reserve hr hfit (by rw [spillPart_of_spill hn]) (by rw [spillPart_of_spill hn])

/-- A request that does not fit the chunks at the end of shared memory leaves a
positive rest; a rest that wraps around is more than any spill file holds. -/
theorem rest_pos {l k : List Span} (hi : HeaderInv h l) (hj : HeaderInv p k) {s' : ℕ}
    (hr : h.chunkmap.search chunks = some s)
    (hr' : p.chunkmap.search (bytesToChunks (wordSub n (chunks * h.chunkSz)) p.chunkSz) = some s') :
    chunks * h.chunkSz < n := by
  obtain ⟨hpos,hle⟩ := hj.search_le hr'
  have hmem : chunks * h.chunkSz ≤ h.dataSz := by
    rw [h.data_eq]
    exact Nat.mul_le_mul_right _ (by have := (hi.search_le hr).2; omega)
  have hspill : bytesToChunks (wordSub n (chunks * h.chunkSz)) p.chunkSz * p.chunkSz ≤
      p.dataSz := by
    rw [p.data_eq]
    exact Nat.mul_le_mul_right _ (by omega)
  have hrest := (bytesToChunks_spec (wordSub n (chunks * h.chunkSz)) p.chunk_pos).1
  have hlt := h.data_lt
  have hlt' := p.data_lt
  by_contra hge
  rcases Nat.lt_or_ge n (chunks * h.chunkSz) with hn | hn
  · rw [wordSub_of_lt hn] at hrest hspill
    unfold wordSize at hrest hspill
    omega
  · have heq : wordSub n (chunks * h.chunkSz) = 0 := by
      rw [wordSub_of_le hn]
      omega
    rw [heq,bytesToChunks_zero] at hpos
    omega

theorem joined_inv (hi : LogInv memSz spillSz ⟨some h,some p⟩ live) {m' : SlotMap p.totalSlots}
    (hr : slotmapReserve h.chunkmap chunks = some (s,m)) (hmeet : s + chunks = h.totalSlots)
    (hr' : slotmapReserve p.chunkmap (bytesToChunks (wordSub n (chunks * h.chunkSz)) p.chunkSz) =
      some (0,m')) : LogInv memSz spillSz ⟨some (h.commit m chunks),
        some (p.commit m' (bytesToChunks (wordSub n (chunks * h.chunkSz)) p.chunkSz))⟩
      (⟨s * h.chunkSz,n⟩ :: live) := by
  have hlt := rest_pos hi.shmem.1 hi.spill.1 (slotmapReserve_spec hr).1 (slotmapReserve_spec hr').1
  have hdata : s * h.chunkSz + chunks * h.chunkSz = memSz := by
    rw [← Nat.add_mul,hmeet,← h.data_eq]
    exact hi.memSize
  have hpos := Nat.mul_pos (hi.shmem.1.search_le (slotmapReserve_spec hr).1).1 h.chunk_pos
  have hfit' := (hi.spill.1.search_le (slotmapReserve_spec hr').1).2
  have hsizes : getLogSizes (s * h.chunkSz) n memSz =
      ⟨chunks * h.chunkSz,n - chunks * h.chunkSz,0⟩ := by
    rw [getLogSizes_both (by omega) (by omega)]
    congr 1 <;> omega
  have hmemPart : memPart memSz ⟨s * h.chunkSz,n⟩ = ⟨s * h.chunkSz,chunks * h.chunkSz⟩ := by
    rw [memPart,hsizes]
  have hspillPart : spillPart memSz ⟨s * h.chunkSz,n⟩ = ⟨0,n - chunks * h.chunkSz⟩ := by
    rw [spillPart,hsizes]
  refine ⟨hi.memSize,hi.spillSize,pos_cons hi.pos (by omega),?_,?_⟩
  · refine hi.shmem.reserve hr hmeet.le (by rw [hmemPart]) ?_
    rw [hmemPart,bytesToChunks_mul h.chunk_pos]
  · refine hi.spill.reserve hr' (by omega) (by rw [hspillPart,Nat.zero_mul]) ?_
    rw [hspillPart,wordSub_of_le hlt.le]

theorem rolledBack_inv {part : Span → Span} (hi : RegionInv (some h) part live)
    (hr : slotmapReserve h.chunkmap chunks = some (s,m)) :
    RegionInv (some (h.rolledBack m s chunks)) part live := hi.giveBack hr

theorem allocGuard_full (hg : allocGuard ⟨some h,r⟩ n = true)
    (hr : slotmapReserve h.chunkmap (bytesToChunks n h.chunkSz) = some (s,m)) :
    s + bytesToChunks n h.chunkSz ≤ h.totalSlots := by
  cases r with
  | none => exact fits_le hg hr
  | some p =>
    simp only [allocGuard,(slotmapReserve_spec hr).1] at hg
    exact of_decide_eq_true hg

theorem allocGuard_spill (hg : allocGuard ⟨r,some p⟩ n = true)
    (hmem : ShmemUnserved ⟨r,some p⟩ n) : spillFits p n = true := by
  cases r with
  | none => exact hg
  | some h =>
    obtain ⟨hfull,htail⟩ := hmem h rfl
    simpa only [allocGuard,slotmapReserve_eq_none.mp hfull,slotmapReserve_eq_none.mp (htail rfl)]
      using hg

theorem allocGuard_join (hg : allocGuard ⟨some h,some p⟩ n = true)
    (ht : JoinTried ⟨some h,some p⟩ n h p s m) : joinFits h p s n = true := by
  simpa only [allocGuard,slotmapReserve_eq_none.mp ht.full,(slotmapReserve_spec ht.tail).1] using hg

theorem outcome_inv (hi : LogInv memSz spillSz ctx live) (hn : 0 < n)
    (hg : allocGuard ctx n = true) {out : AllocOut} (ho : Outcome ctx n out) :
    LogInv memSz spillSz out.ctx (granted out n ++ live) := by
  obtain ⟨sh,sp⟩ := ctx
  cases ho with
  | inShmem hh hr =>
    obtain rfl : sh = some _ := hh
    exact full_inv hi hn hr (allocGuard_full hg hr)
  | noSpill _ _ => exact hi.unlock
  | inSpill hmem hp hr =>
    obtain rfl : sp = some _ := hp
    rw [hi.memSize]
    exact spill_inv hi.unlock hn hr (fits_le (allocGuard_spill hg hmem) hr)
  | spillFull _ hp =>
    obtain rfl : sp = some _ := hp
    have hu := hi.unlock
    exact ⟨hu.memSize,hu.spillSize,hu.pos,hu.shmem,hu.spill.relock false⟩
  | notJoined ht hr' =>
    obtain rfl : sh = some _ := ht.shmem
    obtain rfl : sp = some _ := ht.spill
    exact ⟨hi.memSize,hi.spillSize,hi.pos,(rolledBack_inv hi.shmem ht.tail).relock false,
      hi.spill.relock false⟩
  | @joined h p s m m' ht hr' =>
    obtain rfl : sh = some h := ht.shmem
    obtain rfl : sp = some p := ht.spill
    have hfits := allocGuard_join hg ht
    simp only [joinFits] at hfits
    rw [show slotmapReserve p.chunkmap (bytesToChunks (wordSub n (logEndChunks h * h.chunkSz))
      p.chunkSz) = some (0,m') from hr'] at hfits
    exact joined_inv hi ht.tail (of_decide_eq_true hfits) hr'
  | @retried h p s m s' slot m' m'' ht hr' hr'' =>
    obtain rfl : sh = some h := ht.shmem
    obtain rfl : sp = some p := ht.spill
    have hdata : h.dataSz = memSz := hi.memSize
    have hfits := allocGuard_join hg ht
    simp only [joinFits] at hfits
    rw [show slotmapReserve p.chunkmap (bytesToChunks (wordSub n (logEndChunks h * h.chunkSz))
      p.chunkSz) = some (s' + 1,m') from hr'] at hfits
    have hundo : LogInv memSz spillSz ⟨some (unlockLogHeader (h.rolledBack m s (logEndChunks h))),
        some (p.rolledBack m' (s' + 1) (restChunks h p n))⟩ live :=
      ⟨hi.memSize,hi.spillSize,hi.pos,(rolledBack_inv hi.shmem ht.tail).relock false,
        rolledBack_inv hi.spill hr'⟩
    rw [hdata]
    exact spill_inv hundo hn hr'' (fits_le hfits hr'')
  | stuck ht hr' _ =>
    obtain rfl : sh = some _ := ht.shmem
    obtain rfl : sp = some _ := ht.spill
    exact ⟨hi.memSize,hi.spillSize,hi.pos,(rolledBack_inv hi.shmem ht.tail).relock false,
      (rolledBack_inv hi.spill hr').relock true⟩

theorem alloc_inv (hi : LogInv memSz spillSz ctx live) (hg : allocGuard ctx n = true)
    {out : AllocOut} (ha : unifyfsLogioAlloc ctx n = some out) :
    LogInv memSz spillSz out.ctx (granted out n ++ live) := by
  by_cases hz : n = 0
  · rw [unifyfsLogioAlloc,if_pos hz] at ha
    cases ha
    exact hi
  · exact outcome_inv hi (Nat.pos_of_ne_zero hz) hg (outcome_of_alloc hz ha)

theorem free_inv {a : Span} (hi : LogInv memSz spillSz ctx (a :: live)) {rc : Rc}
    {ctx' : LogioContext} (hf : unifyfsLogioFree ctx a.lo a.len = some (rc,ctx')) :
    LogInv memSz spillSz ctx' live ∧ rc = Rc.success := by
  obtain ⟨rc₁,hm,hs⟩ := (unifyfsLogioFree_iff (hi.pos a mem_cons_self)).mp hf
  rw [hi.memSize] at hm hs
  obtain ⟨hmem,hmemSize,hrc⟩ := hi.shmem.free hm
  obtain ⟨hspill,hspillSize,hrc'⟩ := hi.spill.free hs
  refine ⟨⟨hmemSize.trans hi.memSize,hspillSize.trans hi.spillSize,?_,hmem,hspill⟩,hrc' (hrc rfl)⟩
  exact fun b hb => hi.pos b (mem_cons_of_mem _ hb)

theorem logStep_inv {s u : LogState} {op : LogOp} (hi : LogInv memSz spillSz s.ctx s.live)
    (hg : logGuard s op = true) (hs : logStep s op = some u) :
    LogInv memSz spillSz u.ctx u.live := by
  cases op with
  | alloc n =>
    obtain ⟨out,ha,rfl⟩ := map_eq_some_iff.mp hs
    exact alloc_inv hi hg ha
  | free a =>
    simp only [logStep] at hs
    split_ifs at hs with hmem
    obtain ⟨⟨rc,ctx'⟩,hf,rfl⟩ := map_eq_some_iff.mp hs
    exact (free_inv (hi.perm (perm_cons_erase hmem)) hf).1

end Steps

theorem run_inv {ctx : LogioContext} (hf : ctx.Fresh) {ops : List LogOp} {s : LogState}
    (hr : Run logStep (fun s op => logGuard s op = true) ⟨ctx,[]⟩ ops s) :
    LogInv ctx.memSize ctx.spillSize s.ctx s.live :=
  hr.invariant (I := fun s => LogInv ctx.memSize ctx.spillSize s.ctx s.live)
    (fun _ _ _ => logStep_inv) (LogInv.fresh hf)

/-- Live allocations never share a byte and lie inside the combined data area. -/
theorem live_ranges_apart_and_inside {ctx : LogioContext} (hf : ctx.Fresh) {ops : List LogOp}
    {s : LogState} (hr : Run logStep (fun s op => logGuard s op = true) ⟨ctx,[]⟩ ops s) :
    s.live.Pairwise Span.Apart ∧
      ∀ a ∈ s.live, a.lo + a.len ≤ ctx.memSize + ctx.spillSize :=
  ⟨(run_inv hf hr).apart,fun _ ha => (run_inv hf hr).inside ha⟩

def smallLog : LogioContext :=
  ⟨initLogHeader 4104 1 4096 (by norm_num) Nat.one_pos,
    initLogHeader 4104 1 4096 (by norm_num) Nat.one_pos⟩

theorem smallLog_fresh : smallLog.Fresh :=
  ⟨fun _ => initLogHeaderLoop_fresh,fun _ => initLogHeaderLoop_fresh⟩

/-- A history that serves requests from shared memory, across the border and
from the spill file, with a free in between. -/
theorem live_ranges_small_log : ∃ s,
    Run logStep (fun s op => logGuard s op = true) ⟨smallLog,[]⟩
      [.alloc 5,.alloc 6,.free ⟨0,5⟩,.alloc 4,.alloc 2] s ∧
    s.live = [⟨11,2⟩,⟨0,4⟩,⟨5,6⟩] ∧ s.live.Pairwise Span.Apart ∧
      ∀ a ∈ s.live, a.lo + a.len ≤ smallLog.memSize + smallLog.spillSize := by
  have hrun : (exec logStep logGuard ⟨smallLog,[]⟩
      [.alloc 5,.alloc 6,.free ⟨0,5⟩,.alloc 4,.alloc 2]).any
      (fun s => decide (s.live = [⟨11,2⟩,⟨0,4⟩,⟨5,6⟩])) = true := by decide +kernel
  obtain ⟨s,hr,hs⟩ := Run.exists_of_exec hrun
  exact ⟨s,hr,of_decide_eq_true hs,live_ranges_apart_and_inside smallLog_fresh hr⟩

/-- The chunk that the last call takes for the end of shared memory is a hole in front of a live
allocation. -/
theorem overlap_after_hole : smallLog.Fresh ∧ ∃ s,
    Run logStep (fun _ _ => True) ⟨smallLog,[]⟩
      [.alloc 1,.alloc 1,.alloc 5,.free ⟨1,1⟩,.alloc 2] s ∧
    s.live = [⟨1,2⟩,⟨2,5⟩,⟨0,1⟩] ∧ ¬ s.live.Pairwise Span.Apart := by
  have hrun : (exec logStep (fun _ _ => true) ⟨smallLog,[]⟩
      [.alloc 1,.alloc 1,.alloc 5,.free ⟨1,1⟩,.alloc 2]).any
      (fun s => decide (s.live = [⟨1,2⟩,⟨2,5⟩,⟨0,1⟩] ∧ ¬ s.live.Pairwise Span.Apart)) = true := by
    decide +kernel
  obtain ⟨s,hr,hs⟩ := Run.exists_of_exec hrun
  exact ⟨smallLog_fresh,s,hr.weaken fun _ _ _ => trivial,of_decide_eq_true hs⟩

end UnifyFS.LogIORuns
