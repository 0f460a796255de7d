import Mathlib.Algebra.BigOperators.Group.List.Basic
import UnifyFS.ManifestLines

/-!
# The status of a stage run

Every rank of `unifyfs-stage` goes through the whole manifest and counts the transfers that failed
on it, but not those that failed with `EINVAL`. Rank 0 adds up the counts of all ranks and
reports success if the sum is zero and nothing failed on rank 0 itself. A transfer that fails
with `EINVAL` on another rank is not seen there.

The outcomes of the transfers are arguments, and so is the result of the reduction over the ranks.
-/
namespace UnifyFS.StageStatus
open ManifestLines List

/-- `unifyfs_stage_transfer` for a file of the manifest, given its number and its paths. -/
abbrev Transfer := ℕ → List UInt8 → List UInt8 → Rc

structure StageContext where
  rank : ℕ
  totalRanks : ℕ
  balanced : Bool
  checksum : Bool
  isUnifyfsPath : List UInt8 → Bool

/-- What the calls return that one transfer makes on a rank. -/
structure TransferCalls where
  dispatchRc : Rc
  waitRc : Rc
  resultRc : Rc
  resultError : Rc
  statErrno : Rc
  bcastRc : Rc
  distributeRc : Rc
  checksumRc : Rc

def unifyfsStageTransfer (ctx : StageContext) (calls : ℕ → TransferCalls) : Transfer :=
  fun fileIndex src dst =>
    let mgrRank := (fileIndex - 1) % ctx.totalRanks
    let srcInUnify := ctx.isUnifyfsPath src
    let dstInUnify := ctx.isUnifyfsPath dst
    let c := calls fileIndex
    if srcInUnify && dstInUnify then Rc.einval
    else
      let ret := if srcInUnify && mgrRank == ctx.rank then
          if c.dispatchRc ≠ Rc.success then c.dispatchRc.errno
          else if c.waitRc ≠ Rc.success then c.waitRc.errno
          else if c.resultRc = Rc.success then 0 else c.resultError
        else 0
      let ret := if dstInUnify then
          let ret := if mgrRank = ctx.rank ∧ c.statErrno ≠ 0 then c.statErrno else ret
          if c.bcastRc ≠ 0 then Rc.failure
          else if ctx.balanced then if c.distributeRc ≠ 0 then c.distributeRc else ret
          else Rc.errorNyi
        else ret
      if ret = 0 ∧ mgrRank = ctx.rank ∧ ctx.checksum = true ∧ c.checksumRc ≠ 0 then c.checksumRc
      else ret

/-- The variables of `main` on one rank. -/
structure RankState where
  fileCount : ℕ
  nXferFailures : ℕ
  ret : Rc
  deriving DecidableEq, Repr

/-- A line without error that has both paths. -/
def filePaths : Parsed → Option (List UInt8 × List UInt8)
  | (0,some src,some dst) => some (src,dst)
  | _ => none

def stageLine (transfer : Transfer) (st : RankState) (line : List UInt8) : RankState :=
  let parsed := unifyfsParseManifestLine line
  if parsed.1 = Rc.einval then { st with ret := parsed.1 }
  else
    match filePaths parsed with
    | none => st
    | some (src,dst) =>
      let fileCount := st.fileCount + 1
      let rc := transfer fileCount src dst
      if rc ≠ 0 then
        ⟨fileCount,if rc ≠ Rc.einval then st.nXferFailures + 1 else st.nXferFailures,rc⟩
      else { st with fileCount := fileCount }

def stageRank (transfer : Transfer) (manifest : List (List UInt8)) : RankState :=
  manifest.foldl (stageLine transfer) ⟨0,0,0⟩

/-- `MPI_SUM` of values of the type `int`. -/
def mpiSum (counts : List ℕ) : ℤ := (counts.sum : ℤ).bmod (2 ^ 32)

def createStatusFile (status : Rc) : String := if status = 0 then "success" else "fail"

/-- The status file that rank 0 writes. -/
def stageMain (totalRanks : ℕ) (transfer : ℕ → Transfer) (reduced : Bool)
    (manifest : List (List UInt8)) : String :=
  let totalXferFailures := if reduced then
      mpiSum ((List.range totalRanks).map fun rank =>
        (stageRank (transfer rank) manifest).nXferFailures)
    else 1
  let ret := (stageRank (transfer 0) manifest).ret
  createStatusFile (if ret = 0 then totalXferFailures else ret)

def ValidLine (line : List UInt8) : Prop := (unifyfsParseManifestLine line).1 ≠ Rc.einval

/-- The results of the transfers on one rank, for files numbered from `first + 1` on. -/
def results (transfer : Transfer) : ℕ → List (List UInt8) → List Rc
  | _, [] => []
  | first, line :: manifest =>
    match filePaths (unifyfsParseManifestLine line) with
    | none => results transfer first manifest
    | some (src,dst) => transfer (first + 1) src dst :: results transfer (first + 1) manifest

def counted (rcs : List Rc) : ℕ := rcs.countP fun rc => rc ≠ 0 ∧ rc ≠ Rc.einval

def AllStaged (totalRanks : ℕ) (transfer : ℕ → Transfer) (manifest : List (List UInt8)) : Prop :=
  (∀ line ∈ manifest, ValidLine line) ∧
    ∀ rank < totalRanks, ∀ rc ∈ results (transfer rank) 0 manifest, rc = 0

/-- Rank 0 learns of a failure: it is its own, or the sum of the counts is not zero. -/
def Noticed (totalRanks : ℕ) (transfer : ℕ → Transfer) (reduced : Bool)
    (manifest : List (List UInt8)) : Prop :=
  (∃ line ∈ manifest, ¬ ValidLine line) ∨ (∃ rc ∈ results (transfer 0) 0 manifest, rc ≠ 0) ∨
    reduced = false ∨ ¬ 2 ^ 32 ∣
      ((List.range totalRanks).map fun rank => counted (results (transfer rank) 0 manifest)).sum

section Ranks
variable {transfer : Transfer} {manifest : List (List UInt8)}

theorem filePaths_of_einval {parsed : Parsed} (h : parsed.1 = Rc.einval) :
    filePaths parsed = none := by
  obtain ⟨rc,src,dst⟩ := parsed
  cases h
  rfl

theorem foldl_stageLine (st : RankState) (manifest : List (List UInt8)) :
    (manifest.foldl (stageLine transfer) st).nXferFailures =
        st.nXferFailures + counted (results transfer st.fileCount manifest) ∧
      ((manifest.foldl (stageLine transfer) st).ret = 0 ↔ st.ret = 0 ∧
        (∀ line ∈ manifest, ValidLine line) ∧
        ∀ rc ∈ results transfer st.fileCount manifest, rc = 0) := by
  induction manifest generalizing st with
  | nil => simp [results,counted]
  | cons line manifest ih =>
    rw [foldl_cons,(ih _).1,(ih _).2,forall_mem_cons,stageLine,results,ValidLine]
    dsimp only
    by_cases hinval : (unifyfsParseManifestLine line).1 = Rc.einval
    · rw [filePaths_of_einval hinval]
      simp [hinval,Rc.einval]
    · rw [if_neg hinval]
      cases filePaths (unifyfsParseManifestLine line) with
      | none => simp [hinval]
      | some paths =>
        dsimp only
        by_cases hrc : transfer (st.fileCount + 1) paths.1 paths.2 = 0
        · simp [hrc,hinval,counted]
        · by_cases hcount : transfer (st.fileCount + 1) paths.1 paths.2 = Rc.einval
          · simp [hcount,counted,Rc.einval]
          · simp [hrc,hinval,counted,hcount]
            omega

theorem mpiSum_eq_zero_iff (counts : List ℕ) : mpiSum counts = 0 ↔ 2 ^ 32 ∣ counts.sum := by
  unfold mpiSum
  rw [← Int.natCast_dvd_natCast]
  exact Int.dvd_iff_bmod_eq_zero.symm

theorem stageMain_eq_success_iff (totalRanks : ℕ) (transfer : ℕ → Transfer) (reduced : Bool)
    (manifest : List (List UInt8)) : stageMain totalRanks transfer reduced manifest = "success" ↔
      ¬ Noticed totalRanks transfer reduced manifest := by
  have hcounts : ((List.range totalRanks).map fun rank =>
      (stageRank (transfer rank) manifest).nXferFailures) =
      (List.range totalRanks).map fun rank => counted (results (transfer rank) 0 manifest) :=
    map_congr_left fun rank _ => (foldl_stageLine ⟨0,0,0⟩ manifest).1.trans (Nat.zero_add _)
  have hret : (stageRank (transfer 0) manifest).ret = 0 ↔ (∀ line ∈ manifest, ValidLine line) ∧
      ∀ rc ∈ results (transfer 0) 0 manifest, rc = 0 :=
    (foldl_stageLine ⟨0,0,0⟩ manifest).2.trans (and_iff_right rfl)
  have hstatus : ∀ status : Rc, createStatusFile status = "success" ↔ status = 0 := by
    intro status
    unfold createStatusFile
    split
    · next hzero => exact iff_of_true rfl hzero
    · next hzero => exact iff_of_false (by decide) hzero
  have htotal : ∀ counts : List ℕ,
      (if reduced then mpiSum counts else 1) = 0 ↔ reduced = true ∧ 2 ^ 32 ∣ counts.sum := by
    intro counts
    cases reduced with
    | true => simp only [if_true,true_and,mpiSum_eq_zero_iff]
    | false => exact iff_of_false Int.one_ne_zero (fun h => Bool.false_ne_true h.1)
  have hnot : ¬ Noticed totalRanks transfer reduced manifest ↔
      (stageRank (transfer 0) manifest).ret = 0 ∧ reduced = true ∧ 2 ^ 32 ∣
        ((List.range totalRanks).map fun rank =>
          counted (results (transfer rank) 0 manifest)).sum := by
    rw [hret]
    simp [Noticed,and_assoc]
  rw [stageMain,hstatus,hcounts,hnot,← htotal]
  by_cases hzero : (stageRank (transfer 0) manifest).ret = 0
  · rw [if_pos hzero]
    exact (and_iff_right hzero).symm
  · rw [if_neg hzero]
    exact iff_of_false hzero (fun h => hzero h.1)

end Ranks

/-- Rank 0 reports success only if every line was valid and every transfer succeeded on every
rank, exactly if a transfer fails only when rank 0 notices a failure. -/
theorem stage_success_iff (totalRanks : ℕ) (transfer : ℕ → Transfer) (reduced : Bool)
    (manifest : List (List UInt8)) :
    (stageMain totalRanks transfer reduced manifest = "success" →
      AllStaged totalRanks transfer manifest) ↔
    ∀ rank < totalRanks, (∃ rc ∈ results (transfer rank) 0 manifest, rc ≠ 0) →
      Noticed totalRanks transfer reduced manifest := by
  rw [stageMain_eq_success_iff]
  constructor
  · intro h rank hrank hfailed
    by_contra hnot
    obtain ⟨rc,hrc,hne⟩ := hfailed
    exact hne ((h hnot).2 rank hrank rc hrc)
  · intro h hnot
    refine ⟨fun line hline => ?_,fun rank hrank rc hrc => ?_⟩
    · by_contra hinvalid
      exact hnot (.inl ⟨line,hline,hinvalid⟩)
    · by_contra hne
      exact hnot (h rank hrank ⟨rc,hrc,hne⟩)

/-- Two files copied out of UnifyFS, the second one by rank 1. -/
def twoFiles : List (List UInt8) := [[117,49,32,120,10],[117,50,32,121,10]]

def rejecting (rank : ℕ) : Transfer :=
  unifyfsStageTransfer ⟨rank,2,true,false,fun path => path.head? == some 117⟩
    fun fileIndex => ⟨if fileIndex = 2 then Rc.einval else 0,0,0,0,0,0,0,0⟩

/-- Rank 1 cannot dispatch the transfer of the second file, and rank 0 reports success. -/
theorem stage_reports_success : results (rejecting 1) 0 twoFiles = [0,Rc.einval] ∧
    stageMain 2 rejecting true twoFiles = "success" ∧ ¬ AllStaged 2 rejecting twoFiles := by
  have hresults : results (rejecting 1) 0 twoFiles = [0,Rc.einval] := by decide
  refine ⟨hresults,by decide,fun h => ?_⟩
  have hzero := h.2 1 (by decide) Rc.einval (by rw [hresults]; simp)
  cases hzero

end UnifyFS.StageStatus
