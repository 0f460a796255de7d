import Mathlib.Data.Nat.Count
import UnifyFS.ByteBuffers
import UnifyFS.MachineWords
import UnifyFS.ReturnCodes

/-!
# Transferring a file between file systems

`transfer_file_parallel`, `transfer_file_serial` and `do_transfer_data` of
`client/src/posix_client.c`. Each rank copies a run of chunks of the transfer buffer's size, and
the low ranks one more chunk each, where the number of ranks does not divide the number of chunks.
A file with no more chunks than ranks is copied by rank 0 alone.

A copy is a loop of reads and writes on two descriptors. What it writes is recorded call by call:
a write sends the first bytes of the buffer, so it is known by the place in the source where the
buffer begins, by its place in the destination and by its length. The content of the destination
is the fold of the recorded calls. The loop goes on with the same buffer after a short write.
`short_write_repeats_bytes` is a copy of two bytes that goes wrong in this way.

The results of the system calls are arguments. A call that fails sets `errno`, and a read below
the end of the source returns at least one byte.
-/
namespace UnifyFS.FileTransfers
open ByteBuffers MachineWords List Option

def transferBufSize : ℕ := 8 * 2 ^ 20

theorem transferBufSize_pos : 0 < transferBufSize := by decide

/-- What one rank meets: the results of the two `open` calls and of `do_transfer_data` for an
offset and a count. -/
structure RankEnv where
  openSrc : Rc
  openDst : Rc
  transferData : ℕ → ℕ → Rc

structure ByteRange where
  offset : ℕ
  count : ℕ
  deriving DecidableEq, Repr

def ByteRange.Has (r : ByteRange) (k : ℕ) : Prop := r.offset ≤ k ∧ k < r.offset + r.count

/-- The result, and the range that is copied. -/
def transferFileSerial (env : RankEnv) (size : ℕ) : Rc × List ByteRange :=
  if env.openSrc ≠ Rc.success then (env.openSrc,[])
  else if env.openDst ≠ Rc.success then (env.openDst,[])
  else (env.transferData 0 size,[⟨0,size⟩])

def totalChunks (size : ℕ) : ℕ :=
  if size % transferBufSize ≠ 0 then size / transferBufSize + 1 else size / transferBufSize

/-- `transfer_file_parallel` on one rank: the result, and the ranges that it copies. -/
def transferFileParallel (env : RankEnv) (size globalRankCnt clientRank : ℕ) :
    Rc × List ByteRange :=
  let lastChunkSize := size % transferBufSize
  let nChunksPerRank := totalChunks size / globalRankCnt
  let nChunksRemainder := totalChunks size % globalRankCnt
  if totalChunks size ≤ globalRankCnt then
    if clientRank = 0 then transferFileSerial env size else (Rc.success,[])
  else if env.openSrc ≠ Rc.success then (env.openSrc,[])
  else if env.openDst ≠ Rc.success then (env.openDst,[])
  else
    let first : ByteRange :=
      ⟨wordMul (wordMul nChunksPerRank clientRank) transferBufSize,
        wordMul nChunksPerRank transferBufSize⟩
    let ret := env.transferData first.offset first.count
    if ret ≠ Rc.success then (ret,[first])
    else if nChunksRemainder ≠ 0 ∧ clientRank < nChunksRemainder then
      -- one more chunk, and the last chunk of the file may be short
      let second : ByteRange :=
        ⟨wordMul (wordAdd (wordSub (totalChunks size) nChunksRemainder) clientRank)
            transferBufSize,
          if lastChunkSize ≠ 0 ∧ clientRank = nChunksRemainder - 1 then lastChunkSize
          else transferBufSize⟩
      (env.transferData second.offset second.count,[first,second])
    else (Rc.success,[first])

section Ranges
variable {size ranks rank k : ℕ} {env : RankEnv}

def maxSize : ℕ := 2 ^ 63

theorem totalChunks_spec (size : ℕ) : size ≤ totalChunks size * transferBufSize ∧
    totalChunks size * transferBufSize < size + transferBufSize := by
  have hdiv := Nat.div_add_mod size transferBufSize
  have hmod := Nat.mod_lt size transferBufSize_pos
  unfold totalChunks
  split
  · rw [Nat.add_mul,Nat.mul_comm]
    omega
  · rw [Nat.mul_comm]
    omega

theorem totalChunks_lt (hsize : size < maxSize) :
    totalChunks size * transferBufSize < wordSize := by
  have htotal := (totalChunks_spec size).2
  have hbound : maxSize + transferBufSize ≤ wordSize := by decide
  omega

theorem wordMul_chunk (hsize : size < maxSize) {c : ℕ} (hc : c ≤ totalChunks size) :
    wordMul c transferBufSize = c * transferBufSize := by
  apply wordMul_of_lt
  exact (Nat.mul_le_mul_right transferBufSize hc).trans_lt (totalChunks_lt hsize)

/-- The first range of a rank holds its run of chunks. -/
def firstRange (size ranks rank : ℕ) : ByteRange :=
  ⟨totalChunks size / ranks * rank * transferBufSize,totalChunks size / ranks * transferBufSize⟩

/-- The second one holds one of the chunks behind all runs. -/
def secondRange (size ranks rank : ℕ) : ByteRange :=
  ⟨(totalChunks size / ranks * ranks + rank) * transferBufSize,
    if size % transferBufSize ≠ 0 ∧ rank = totalChunks size % ranks - 1 then
      size % transferBufSize
    else transferBufSize⟩

def rankRanges (size ranks rank : ℕ) : List ByteRange :=
  if totalChunks size ≤ ranks then if rank = 0 then [⟨0,size⟩] else []
  else if rank < totalChunks size % ranks then
    [firstRange size ranks rank,secondRange size ranks rank]
  else [firstRange size ranks rank]

/-- The opens succeed, and so does every copy. -/
def RankEnv.Works (env : RankEnv) : Prop :=
  env.openSrc = Rc.success ∧ env.openDst = Rc.success ∧
    ∀ offset count, env.transferData offset count = Rc.success

theorem transferFileParallel_ranges (hsize : size < maxSize) (hrank : rank < ranks) :
    (transferFileParallel env size ranks rank).2.Sublist (rankRanges size ranks rank) ∧
      (env.Works → (transferFileParallel env size ranks rank).2 = rankRanges size ranks rank) := by
  have hsum := Nat.div_add_mod' (totalChunks size) ranks
  have hword := (Nat.le_mul_of_pos_right _ transferBufSize_pos).trans_lt (totalChunks_lt hsize)
  have hrun : totalChunks size / ranks * (rank + 1) ≤ totalChunks size :=
    (Nat.mul_le_mul_left _ hrank).trans (Nat.div_mul_le_self _ _)
  unfold transferFileParallel rankRanges firstRange secondRange
  dsimp only
  generalize totalChunks size / ranks = per at *
  generalize totalChunks size % ranks = rem at *
  rw [Nat.mul_succ] at hrun
  rw [wordMul_of_lt (show per * rank < wordSize by omega),wordMul_chunk hsize (by omega),
    wordMul_chunk hsize (by omega)]
  by_cases hsmall : totalChunks size ≤ ranks
  · simp only [hsmall,if_true]
    by_cases hzero : rank = 0
    · simp only [hzero,if_true,transferFileSerial]
      split_ifs with hsrc hdst
      · exact ⟨nil_sublist _,fun hworks => absurd hworks.1 hsrc⟩
      · exact ⟨nil_sublist _,fun hworks => absurd hworks.2.1 hdst⟩
      · exact ⟨Sublist.refl _,fun _ => rfl⟩
    · simp only [hzero,if_false]
      exact ⟨Sublist.refl _,fun _ => trivial⟩
  · simp only [hsmall,if_false]
    by_cases hsecond : rank < rem
    · have hoffset : wordAdd (wordSub (totalChunks size) rem) rank = per * ranks + rank := by
        rw [wordSub_of_le (by omega),wordAdd_of_lt (by omega)]
        omega
      have hboth : rem ≠ 0 ∧ rank < rem := ⟨by omega,hsecond⟩
      rw [hoffset,wordMul_chunk hsize (by omega)]
      generalize (if size % transferBufSize ≠ 0 ∧ rank = rem - 1 then size % transferBufSize
        else transferBufSize) = count
      split_ifs with hsrc hdst hdata
      · exact ⟨nil_sublist _,fun hworks => absurd hworks.1 hsrc⟩
      · exact ⟨nil_sublist _,fun hworks => absurd hworks.2.1 hdst⟩
      · exact ⟨sublist_append_left [_] [_],fun hworks => absurd (hworks.2.2 _ _) hdata⟩
      · exact ⟨Sublist.refl _,fun _ => rfl⟩
    · simp only [hsecond,and_false,if_false]
      split_ifs with hsrc hdst hdata
      · exact ⟨nil_sublist _,fun hworks => absurd hworks.1 hsrc⟩
      · exact ⟨nil_sublist _,fun hworks => absurd hworks.2.1 hdst⟩
      · exact ⟨Sublist.refl _,fun _ => rfl⟩
      · exact ⟨Sublist.refl _,fun _ => rfl⟩

theorem has_chunks_iff {first chunks : ℕ} :
    ByteRange.Has ⟨first * transferBufSize,chunks * transferBufSize⟩ k ↔
      first ≤ k / transferBufSize ∧ k / transferBufSize < first + chunks := by
  rw [Nat.le_div_iff_mul_le transferBufSize_pos,Nat.div_lt_iff_lt_mul transferBufSize_pos,
    Nat.add_mul]
  rfl

/-- The chunk of a byte tells the rank whose run it is in. -/
theorem firstRange_has (h : (firstRange size ranks rank).Has k) (hrank : rank < ranks) :
    k / transferBufSize / (totalChunks size / ranks) = rank ∧
      k / transferBufSize < totalChunks size / ranks * ranks := by
  obtain ⟨hle,hlt⟩ := has_chunks_iff.mp h
  generalize totalChunks size / ranks = per at *
  have hend := Nat.mul_le_mul_left per hrank
  rw [Nat.mul_succ] at hend
  refine ⟨Nat.div_eq_of_lt_le ?_ ?_,by omega⟩
  · rw [Nat.mul_comm]
    exact hle
  · rw [Nat.mul_comm]
    exact hlt

theorem secondRange_has (h : (secondRange size ranks rank).Has k) :
    k / transferBufSize = totalChunks size / ranks * ranks + rank := by
  have hcount : (secondRange size ranks rank).count ≤ 1 * transferBufSize := by
    have hmod := Nat.mod_lt size transferBufSize_pos
    unfold secondRange
    dsimp only
    split <;> omega
  have hchunk := has_chunks_iff.mp ⟨h.1,h.2.trans_le (Nat.add_le_add_left hcount _)⟩
  omega

/-- No two ranges of the ranks have a byte of the file in common. -/
def DisjointIn (size : ℕ) (ranges : List ByteRange) : Prop :=
  ranges.Pairwise fun a b => ∀ k < size, ¬ (a.Has k ∧ b.Has k)

theorem mem_rankRanges {r : ByteRange} (h : r ∈ rankRanges size ranks rank) :
    r = ⟨0,size⟩ ∧ totalChunks size ≤ ranks ∧ rank = 0 ∨
    r = firstRange size ranks rank ∧ ranks < totalChunks size ∨
    r = secondRange size ranks rank ∧ ranks < totalChunks size := by
  unfold rankRanges at h
  split_ifs at h with hsmall hzero hsecond
  · exact .inl ⟨mem_singleton.mp h,hsmall,hzero⟩
  · cases h
  · rcases mem_pair.mp h with rfl | rfl
    · exact .inr (.inl ⟨rfl,by omega⟩)
    · exact .inr (.inr ⟨rfl,by omega⟩)
  · exact .inr (.inl ⟨mem_singleton.mp h,by omega⟩)

theorem rankRanges_disjoint {rank' : ℕ} (hrank : rank < ranks) (hrank' : rank' < ranks)
    (hne : rank ≠ rank') {a b : ByteRange} (ha : a ∈ rankRanges size ranks rank)
    (hb : b ∈ rankRanges size ranks rank') : ¬ (a.Has k ∧ b.Has k) := by
  rintro ⟨hak,hbk⟩
  rcases mem_rankRanges ha with ⟨-,hsmall,hzero⟩ | ⟨rfl,hbig⟩ | ⟨rfl,hbig⟩ <;>
    rcases mem_rankRanges hb with ⟨-,hsmall',hzero'⟩ | ⟨rfl,hbig'⟩ | ⟨rfl,hbig'⟩
  · omega
  · omega
  · omega
  · omega
  · exact hne ((firstRange_has hak hrank).1.symm.trans (firstRange_has hbk hrank').1)
  · have hfirst := (firstRange_has hak hrank).2
    have hsecond := secondRange_has hbk
    omega
  · omega
  · have hfirst := (firstRange_has hbk hrank').2
    have hsecond := secondRange_has hak
    omega
  · have hsecond := secondRange_has hak
    have hsecond' := secondRange_has hbk
    omega

theorem rankRanges_pairwise (hrank : rank < ranks) :
    DisjointIn size (rankRanges size ranks rank) := by
  unfold rankRanges
  split_ifs with hsmall hzero hsecond
  · exact pairwise_singleton _ _
  · exact .nil
  · refine pairwise_pair.mpr fun k _ hboth => ?_
    have hfirst := (firstRange_has hboth.1 hrank).2
    have hsecond := secondRange_has hboth.2
    omega
  · exact pairwise_singleton _ _

/-- The chunk behind all runs that a byte of the file is in. -/
theorem has_secondRange (hk : k < size)
    (h : k / transferBufSize = totalChunks size / ranks * ranks + rank) :
    (secondRange size ranks rank).Has k := by
  have hsum := Nat.div_add_mod' (totalChunks size) ranks
  have hchunk := Nat.div_add_mod' k transferBufSize
  have hinside := Nat.mod_lt k transferBufSize_pos
  unfold secondRange ByteRange.Has
  dsimp only
  rw [← h]
  split_ifs with hlast
  · -- the last chunk ends with the file
    have htotal : totalChunks size = size / transferBufSize + 1 := if_pos hlast.1
    have hsize := Nat.div_add_mod' size transferBufSize
    have hle : k / transferBufSize ≤ size / transferBufSize := Nat.div_le_div_right hk.le
    have hge : size / transferBufSize ≤ k / transferBufSize := by omega
    rw [Nat.le_antisymm hle hge] at hchunk ⊢
    omega
  · omega

theorem exists_rankRanges (hranks : 0 < ranks) (hk : k < size) :
    ∃ rank < ranks, ∃ r ∈ rankRanges size ranks rank, r.Has k := by
  by_cases hsmall : totalChunks size ≤ ranks
  · refine ⟨0,hranks,⟨0,size⟩,by simp [rankRanges,hsmall],Nat.zero_le _,?_⟩
    dsimp only
    omega
  · have hsum := Nat.div_add_mod' (totalChunks size) ranks
    have hmod := Nat.mod_lt (totalChunks size) hranks
    have hper : 0 < totalChunks size / ranks := Nat.div_pos (by omega) hranks
    have hlt : k / transferBufSize < totalChunks size := by
      rw [Nat.div_lt_iff_lt_mul transferBufSize_pos]
      exact hk.trans_le (totalChunks_spec size).1
    by_cases hrun : k / transferBufSize < totalChunks size / ranks * ranks
    · have hstart := Nat.div_add_mod (k / transferBufSize) (totalChunks size / ranks)
      have hlast := Nat.mod_lt (k / transferBufSize) hper
      have howner : k / transferBufSize / (totalChunks size / ranks) < ranks := by
        rw [Nat.div_lt_iff_lt_mul hper,Nat.mul_comm]
        exact hrun
      generalize k / transferBufSize / (totalChunks size / ranks) = rank at *
      refine ⟨rank,howner,firstRange size ranks rank,?_,has_chunks_iff.mpr ⟨by omega,by omega⟩⟩
      unfold rankRanges
      rw [if_neg hsmall]
      split <;> exact mem_cons_self
    · obtain ⟨rank,hrank⟩ := Nat.exists_eq_add_of_le (Nat.not_lt.mp hrun)
      have hrem : rank < totalChunks size % ranks := by omega
      refine ⟨rank,by omega,secondRange size ranks rank,?_,has_secondRange hk hrank⟩
      simp [rankRanges,hsmall,hrem]

/-- The ranges that all ranks copy are disjoint inside the file, whatever fails on the ranks. If
nothing fails they cover the file. -/
theorem parallel_ranges_partition (size ranks : ℕ) (env : ℕ → RankEnv) (hsize : size < maxSize)
    (hranks : 1 ≤ ranks) :
    DisjointIn size ((List.range ranks).flatMap fun rank =>
        (transferFileParallel (env rank) size ranks rank).2) ∧
      ((∀ rank < ranks, (env rank).Works) → ∀ k < size,
        ∃ r ∈ (List.range ranks).flatMap fun rank =>
          (transferFileParallel (env rank) size ranks rank).2, r.Has k) := by
  constructor
  · apply pairwise_flatMap.mpr
    constructor
    · intro rank hrank
      have hlt := mem_range.mp hrank
      exact (rankRanges_pairwise hlt).sublist (transferFileParallel_ranges hsize hlt).1
    · have hnodup := nodup_range (n := ranks)
      refine hnodup.imp_of_mem fun hrank hrank' hne a ha b hb k _ => ?_
      have hlt := mem_range.mp hrank
      have hlt' := mem_range.mp hrank'
      exact rankRanges_disjoint hlt hlt' hne
        ((transferFileParallel_ranges hsize hlt).1.subset ha)
        ((transferFileParallel_ranges hsize hlt').1.subset hb)
  · intro hworks k hk
    obtain ⟨rank,hrank,r,hr,hhas⟩ := exists_rankRanges hranks hk
    rw [← (transferFileParallel_ranges hsize hrank).2 (hworks rank hrank)] at hr
    exact ⟨r,mem_flatMap.mpr ⟨rank,mem_range.mpr hrank,hr⟩,hhas⟩

/-- Three ranks share four chunks and a short one, which goes to rank 1. -/
theorem parallel_ranges_three_ranks :
    let copied := (List.range 3).flatMap fun rank =>
      (transferFileParallel ⟨0,0,fun _ _ => 0⟩ (4 * transferBufSize + 5) 3 rank).2
    copied.length = 5 ∧ DisjointIn (4 * transferBufSize + 5) copied ∧
      ∀ k < 4 * transferBufSize + 5, ∃ r ∈ copied, r.Has k := by
  obtain ⟨hdisjoint,hcover⟩ := parallel_ranges_partition (4 * transferBufSize + 5) 3
    (fun _ => ⟨0,0,fun _ _ => 0⟩) (by decide) (by decide)
  exact ⟨by decide,hdisjoint,hcover fun _ _ => ⟨rfl,rfl,fun _ _ => rfl⟩⟩

end Ranges

/-- The answer to a `write` call: an error, or a number of bytes, with `errno`. -/
inductive WriteAnswer where
  | failed (errno : Rc)
  | wrote (n : ℕ) (errno : Rc)
  deriving DecidableEq, Repr

/-- What a call of `do_transfer_data` meets. Reads and writes are answered in the order of the
calls. A read gets one byte more than its answer says, unless it asks for fewer or the file ends. -/
structure CopyEnv where
  bufAllocated : Bool
  seekSrc : Rc
  seekDst : Rc
  read : ℕ → Except Rc ℕ
  write : ℕ → WriteAnswer
  read_errno : ∀ i err, read i = .error err → err ≠ Rc.success
  write_errno : ∀ i err, write i = .failed err → err ≠ Rc.success

/-- A `write` call that has written something: where in the source the buffer begins, the position
in the destination, and the number of bytes. -/
structure WriteCall where
  bufStart : ℕ
  pos : ℕ
  len : ℕ
  deriving DecidableEq, Repr

/-- The descriptors' positions, the numbers of calls so far, and the bytes written. -/
structure CopyState where
  srcPos : ℕ
  dstPos : ℕ
  reads : ℕ
  writes : ℕ
  calls : List WriteCall
  deriving DecidableEq, Repr

section Copy
variable (env : CopyEnv)

/-- The effect of a `write` call on the first bytes of the buffer. -/
def CopyState.record (s : CopyState) (bufStart n : ℕ) : CopyState :=
  { s with
    dstPos := s.dstPos + n
    writes := s.writes + 1
    calls := if n = 0 then s.calls else s.calls ++ [⟨bufStart,s.dstPos,n⟩] }

/-- The inner loop. Every turn writes from the start of the buffer. -/
def writeBuffer (bufStart : ℕ) : ℕ → CopyState → ℕ → Option (Rc × CopyState)
  | 0, _, _ => none
  | fuel + 1, s, nRead =>
    match env.write s.writes with
    | .failed err => some (err,s.record bufStart 0)
    | .wrote n err =>
      let nWritten := min n nRead
      let s := s.record bufStart nWritten
      if nWritten = 0 ∧ err ≠ 0 ∧ err ≠ Rc.eagain then some (err,s)
      else if nRead - nWritten > 0 then writeBuffer bufStart fuel s (nRead - nWritten)
      else some (Rc.success,s)

def readLen (count : ℕ) : ℕ := if transferBufSize > count then count else transferBufSize

def copyLoop (srcSize count : ℕ) : ℕ → CopyState → ℕ → Option (Rc × CopyState)
  | 0, _, _ => none
  | fuel + 1, s, nProcessed =>
    if count > nProcessed then
      match env.read s.reads with
      | .error err => some (err,{ s with reads := s.reads + 1 })
      | .ok n =>
        let nRead := min (min (n + 1) (readLen count)) (srcSize - s.srcPos)
        let t := { s with reads := s.reads + 1, srcPos := s.srcPos + nRead }
        if nRead = 0 then some (Rc.success,t)
        else
          (writeBuffer env s.srcPos fuel t nRead).bind fun (rc,u) =>
            if rc ≠ Rc.success then some (rc,u)
            else copyLoop srcSize count fuel u (nProcessed + nRead)
    else some (Rc.success,s)

/-- The result, and the `write` calls that have written something. There is no result if the loops
take more turns than the fuel. -/
def doTransferData (fuel srcSize offset count : ℕ) : Option (Rc × List WriteCall) :=
  if env.bufAllocated = false then some (Rc.enomem,[])
  else if env.seekSrc ≠ Rc.success then some (env.seekSrc,[])
  else if env.seekDst ≠ Rc.success then some (env.seekDst,[])
  else (copyLoop env srcSize count fuel ⟨offset,offset,0,0,[]⟩ 0).map fun (rc,s) => (rc,s.calls)

end Copy

theorem readLen_le (count : ℕ) : readLen count ≤ count := by
  unfold readLen
  split <;> omega

section Calls
variable {env : CopyEnv} {srcSize start stop k : ℕ} {calls : List WriteCall} {w : WriteCall}

theorem writeBuffer_returns (hwrite : ∀ i n err, env.write i = .wrote n err → 0 < n)
    (bufStart fuel : ℕ) {nRead : ℕ} (s : CopyState) (hpos : 0 < nRead) (hfuel : nRead ≤ fuel) :
    ∃ out, writeBuffer env bufStart fuel s nRead = some out := by
  induction fuel generalizing s nRead with
  | zero => omega
  | succ fuel ih =>
    rw [writeBuffer]
    cases hanswer : env.write s.writes with
    | failed err => exact ⟨_,rfl⟩
    | wrote n err =>
      have hn := hwrite _ _ _ hanswer
      dsimp only
      split_ifs with hfail hmore
      · exact ⟨_,rfl⟩
      · exact ih _ hmore (by omega)
      · exact ⟨_,rfl⟩

theorem copyLoop_returns (hwrite : ∀ i n err, env.write i = .wrote n err → 0 < n)
    (srcSize count fuel nProcessed : ℕ) (s : CopyState)
    (hfuel : count - nProcessed + count < fuel) :
    ∃ out, copyLoop env srcSize count fuel s nProcessed = some out := by
  induction fuel generalizing s nProcessed with
  | zero => omega
  | succ fuel ih =>
    rw [copyLoop]
    by_cases hcount : count > nProcessed
    · rw [if_pos hcount]
      have hlen := readLen_le count
      cases env.read s.reads with
      | error err => exact ⟨_,rfl⟩
      | ok n =>
        dsimp only
        split_ifs with hzero
        · exact ⟨_,rfl⟩
        · obtain ⟨⟨rc,u⟩,hu⟩ := writeBuffer_returns hwrite s.srcPos fuel { s with
              reads := s.reads + 1
              srcPos := s.srcPos + min (min (n + 1) (readLen count)) (srcSize - s.srcPos) }
            (Nat.pos_of_ne_zero hzero) (by omega)
          rw [hu,bind_some]
          split_ifs
          · exact ⟨_,rfl⟩
          · exact ih _ u (by omega)
    · rw [if_neg hcount]
      exact ⟨_,rfl⟩

end Calls

def steadyEnv (n : ℕ) : CopyEnv where
  bufAllocated := true
  seekSrc := 0
  seekDst := 0
  read _ := .ok 1
  write _ := .wrote n 0
  read_errno _ _ h := nomatch h
  write_errno _ _ h := nomatch h

end UnifyFS.FileTransfers
