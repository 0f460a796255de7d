import UnifyFS.ByteBuffers
import UnifyFS.ReturnCodes

/-!
# Staging a file into UnifyFS

The balanced distribution of `unifyfs-stage-transfer.c`: every rank copies a run
of consecutive blocks of the source file. The length of the runs is the number of
blocks divided by the number of ranks, but at least eight, and no rank copies
what the division leaves over.

Opening, allocation, block reads, block writes and the final sync are arguments
of a rank. The main theorem is about ranks for which all of them succeed in full.
-/
namespace UnifyFS.StageTransfer
open ByteBuffers List

structure RankEnv where
  createRc : Rc
  openErrno : Rc
  openRc : Rc
  allocated : Bool
  /-- `read_file_block` at an offset for a number of bytes. -/
  readBlock : ℕ → ℕ → Rc × List UInt8
  /-- `write_unify_file_block` at an offset: the result and the bytes written. -/
  writeBlock : ℕ → List UInt8 → Rc × ℕ
  syncRc : Rc

structure BlockWrite where
  blockNdx : ℕ
  offset : ℕ
  data : List UInt8
  deriving DecidableEq, Repr

def numBlocks (srcFileSize transferBlksz : ℕ) : ℕ :=
  let n := srcFileSize / transferBlksz
  if srcFileSize % transferBlksz ≠ 0 then n + 1 else n

def blocksPerClient (numFileBlocks totalRanks : ℕ) : ℕ :=
  let n := numFileBlocks / totalRanks
  if n < 8 then 8 else n

def copyBlocks (env : RankEnv) (transferBlksz numFileBlocks : ℕ) :
    List ℕ → Rc × List BlockWrite
  | [] => (Rc.success,[])
  | blockNdx :: rest =>
    if blockNdx < numFileBlocks then
      let blockOffset := blockNdx * transferBlksz
      let rd := env.readBlock blockOffset transferBlksz
      if rd.1 ≠ Rc.success then (rd.1,[])
      else
        let wr := env.writeBlock blockOffset rd.2
        if wr.1 ≠ Rc.success then (wr.1,[])
        else
          let out := copyBlocks env transferBlksz numFileBlocks rest
          (out.1,⟨blockNdx,blockOffset,rd.2.take wr.2⟩ :: out.2)
    else copyBlocks env transferBlksz numFileBlocks rest

def distributeSourceFileData (env : RankEnv) (rank totalRanks transferBlksz numFileBlocks : ℕ) :
    Rc × List BlockWrite :=
  let perClient := blocksPerClient numFileBlocks totalRanks
  let ret := if rank = 0 then env.createRc else Rc.success
  let startBlockNdx := rank * perClient
  if startBlockNdx < numFileBlocks then
    let ret := if env.openErrno ≠ Rc.success then env.openErrno else ret
    let ret := if rank ≠ 0 ∧ env.openRc ≠ Rc.success then env.openRc else ret
    if ret ≠ Rc.success then (ret,[])
    else if env.allocated = false then (Rc.enomem,[])
    else
      let out := copyBlocks env transferBlksz numFileBlocks
        ((List.range perClient).map (startBlockNdx + ·))
      (if env.syncRc ≠ Rc.success then env.syncRc else out.1,out.2)
  else (ret,[])

/-- A rank for which every call succeeds, with full reads and writes of `src`. -/
def fullEnv (src : List UInt8) : RankEnv where
  createRc := Rc.success
  openErrno := Rc.success
  openRc := Rc.success
  allocated := true
  readBlock offset bufsize := (Rc.success,(src.drop offset).take bufsize)
  writeBlock _ data := (Rc.success,data.length)
  syncRc := Rc.success

@[simp] theorem fullEnv_readBlock (src : List UInt8) (offset bufsize : ℕ) :
    (fullEnv src).readBlock offset bufsize = (Rc.success,(src.drop offset).take bufsize) := rfl
@[simp] theorem fullEnv_writeBlock (src : List UInt8) (offset : ℕ) (data : List UInt8) :
    (fullEnv src).writeBlock offset data = (Rc.success,data.length) := rfl

def stagedWrites (src : List UInt8) (transferBlksz totalRanks : ℕ) : List BlockWrite :=
  (List.range totalRanks).flatMap fun rank =>
    (distributeSourceFileData (fullEnv src) rank totalRanks transferBlksz
      (numBlocks src.length transferBlksz)).2

def destination (ws : List BlockWrite) : List UInt8 :=
  ws.foldl (fun dst w => overwrite 0 dst w.offset w.data) []

/-- The ranks together copy each block of the source exactly once, and the
destination equals the source in whatever order their writes take place. -/
def Staged (src : List UInt8) (transferBlksz totalRanks : ℕ) : Prop :=
  ((stagedWrites src transferBlksz totalRanks).map BlockWrite.blockNdx).Perm
    (List.range (numBlocks src.length transferBlksz)) ∧
  ∀ ws, ws.Perm (stagedWrites src transferBlksz totalRanks) → destination ws = src

section Blocks
variable {src : List UInt8} {blksz n ranks : ℕ}

def fullWrite (src : List UInt8) (blksz blockNdx : ℕ) : BlockWrite :=
  ⟨blockNdx,blockNdx * blksz,(src.drop (blockNdx * blksz)).take blksz⟩

theorem copyBlocks_full (src : List UInt8) (blksz n : ℕ) (blocks : List ℕ) :
    copyBlocks (fullEnv src) blksz n blocks =
      (Rc.success,(blocks.filter (· < n)).map (fullWrite src blksz)) := by
  induction blocks with
  | nil => rfl
  | cons b rest ih =>
    rw [copyBlocks]
    by_cases hb : b < n
    · have hkeep : (b :: rest).filter (· < n) = b :: rest.filter (· < n) := by simp [hb]
      rw [hkeep,if_pos hb]
      simp only [fullEnv_readBlock,fullEnv_writeBlock,ne_eq,not_true_eq_false,if_false,ih,
        take_length]
      rfl
    · simp [hb,ih]

/-- Runs of consecutive blocks, one for each rank, put together. -/
theorem flatMap_runs (m r : ℕ) :
    ((List.range r).flatMap fun k => (List.range m).map (k * m + ·)) = List.range (r * m) := by
  induction r with
  | zero => simp
  | succ r ih => rw [range_succ,flatMap_append,ih,Nat.succ_mul,range_add]; simp

theorem filter_lt_range (n m : ℕ) : (List.range m).filter (· < n) = List.range (min m n) := by
  induction m with
  | zero => simp
  | succ m ih =>
    rw [range_succ,filter_append,ih]
    by_cases hm : m < n
    · rw [show min (m + 1) n = min m n + 1 by omega,range_succ]
      simp [hm,show min m n = m by omega]
    · rw [show min (m + 1) n = min m n by omega]
      simp [hm]

theorem distribute_full (src : List UInt8) (rank ranks blksz n : ℕ) :
    (distributeSourceFileData (fullEnv src) rank ranks blksz n).2 =
      (((List.range (blocksPerClient n ranks)).map (rank * blocksPerClient n ranks + ·)).filter
        (· < n)).map (fullWrite src blksz) := by
  unfold distributeSourceFileData
  simp only [copyBlocks_full]
  split
  · simp [fullEnv]
  · next hlate =>
    -- the first block of the run is already past the end of the file
    symm
    rw [filter_eq_nil_iff.mpr]
    · rfl
    · intro b hb
      obtain ⟨i,-,rfl⟩ := mem_map.mp hb
      simp only [decide_eq_true_eq]
      omega

theorem stagedWrites_eq (src : List UInt8) (blksz ranks : ℕ) : stagedWrites src blksz ranks =
      (List.range (min (ranks * blocksPerClient (numBlocks src.length blksz) ranks)
        (numBlocks src.length blksz))).map (fullWrite src blksz) := by
  unfold stagedWrites
  simp only [distribute_full]
  rw [← filter_lt_range,← flatMap_runs,filter_flatMap,map_flatMap]

theorem lt_numBlocks_iff (hb : 0 < blksz) {size b : ℕ} :
    b < numBlocks size blksz ↔ b * blksz < size := by
  have hdiv := Nat.div_add_mod size blksz
  have hmod := Nat.mod_lt size hb
  have hcomm := Nat.mul_comm blksz (size / blksz)
  unfold numBlocks
  dsimp only
  constructor
  · intro h
    split_ifs at h with hrest
    · have hle := Nat.mul_le_mul_right blksz (Nat.le_of_lt_succ h)
      omega
    · have hle := Nat.mul_le_mul_right blksz (Nat.succ_le_of_lt h)
      rw [Nat.succ_mul] at hle
      omega
  · intro h
    by_contra hge
    split_ifs at hge with hrest
    · have hle := Nat.mul_le_mul_right blksz (Nat.le_of_not_lt hge)
      rw [Nat.succ_mul] at hle
      omega
    · have hle := Nat.mul_le_mul_right blksz (Nat.le_of_not_lt hge)
      omega

theorem reaches_iff (hr : 0 < ranks) (n : ℕ) :
    n ≤ ranks * blocksPerClient n ranks ↔ n / ranks < 8 ∨ ranks ∣ n := by
  unfold blocksPerClient
  dsimp only
  split_ifs with hfew
  · have hlt := (Nat.div_lt_iff_lt_mul hr).mp hfew
    exact iff_of_true (by omega) (.inl hfew)
  · rw [or_iff_right hfew]
    constructor
    · intro hle
      have hback := Nat.mul_div_le n ranks
      exact ⟨n / ranks,by omega⟩
    · intro hdvd
      rw [Nat.mul_div_cancel' hdvd]

theorem partOf_fullWrite (hb : 0 < blksz) {b : ℕ} (h : b < numBlocks src.length blksz) :
    PartOf src (fullWrite src blksz b).offset (fullWrite src blksz b).data :=
  partOf_slice blksz ((lt_numBlocks_iff hb).mp h).le

theorem destination_eq_foldl (ws : List BlockWrite) :
    destination ws = (ws.map fun w => (w.offset,w.data)).foldl
      (fun dst w => overwrite 0 dst w.1 w.2) [] := by
  rw [foldl_map]
  rfl

theorem destination_full (hb : 0 < blksz) {ws : List BlockWrite}
    (hws : ws.Perm ((List.range (numBlocks src.length blksz)).map (fullWrite src blksz))) :
    destination ws = src := by
  rw [destination_eq_foldl]
  apply foldl_overwrite_parts
  · intro w hw
    obtain ⟨x,hx,rfl⟩ := mem_map.mp hw
    obtain ⟨b,hbn,rfl⟩ := mem_map.mp (hws.subset hx)
    exact partOf_fullWrite hb (mem_range.mp hbn)
  · intro k hk
    right
    have hdiv := Nat.div_add_mod k blksz
    have hmod := Nat.mod_lt k hb
    have hcomm := Nat.mul_comm blksz (k / blksz)
    have hblock : k / blksz < numBlocks src.length blksz := by
      rw [lt_numBlocks_iff hb]
      omega
    refine ⟨(k / blksz * blksz,(fullWrite src blksz (k / blksz)).data),?_,?_,?_⟩
    · apply mem_map.mpr
      refine ⟨fullWrite src blksz (k / blksz),hws.symm.subset ?_,rfl⟩
      exact mem_map_of_mem (mem_range.mpr hblock)
    · dsimp only
      omega
    · dsimp only [fullWrite]
      rw [length_take,length_drop]
      omega
  · exact Nat.zero_le _

end Blocks

/-- The balanced distribution copies a file exactly when the ranks divide its
blocks evenly, or when there are fewer than eight blocks to a rank. -/
theorem staged_iff (src : List UInt8) {transferBlksz totalRanks : ℕ} (hb : 0 < transferBlksz)
    (hr : 0 < totalRanks) :
    Staged src transferBlksz totalRanks ↔
      numBlocks src.length transferBlksz / totalRanks < 8 ∨
        totalRanks ∣ numBlocks src.length transferBlksz := by
  rw [← reaches_iff hr]
  unfold Staged
  rw [stagedWrites_eq]
  constructor
  · intro h
    have hlen := h.1.length_eq
    simp only [length_map,length_range] at hlen
    omega
  · intro hreach
    rw [Nat.min_eq_right hreach]
    constructor
    · rw [map_map]
      exact List.Perm.of_eq (map_id _)
    · intro ws hws
      exact destination_full hb hws

/-- Eighteen blocks on two ranks, nine for each. -/
theorem staged_eighteen_blocks : Staged (List.replicate 18 7) 1 2 := by
  apply (staged_iff (List.replicate 18 7) (by decide) (by decide)).mpr
  decide

/-- Seventeen blocks on two ranks: each copies eight, and the last one is lost. -/
theorem last_block_not_staged :
    (stagedWrites (List.replicate 17 7) 1 2).map BlockWrite.blockNdx = List.range 16 ∧
    destination (stagedWrites (List.replicate 17 7) 1 2) = List.replicate 16 7 ∧
    ¬ Staged (List.replicate 17 7) 1 2 := by
  refine ⟨by decide,by decide,?_⟩
  intro h
  have hdest := h.2 _ (List.Perm.refl _)
  revert hdest
  decide

end UnifyFS.StageTransfer
