import UnifyFS.ChunkLists

/-!
# Chunks of requests in machine words

The code takes the last byte of a request as `offset + len - 1` in unsigned words, for
any offset and length. Here its functions are given for all of them. For a request whose
last byte has an offset they are those of `ExtentLookup`. If the last byte wraps around,
at most one extent is visited, the subtractions of `chunk_req_from_extent` wrap around
as well, and the chunk is the request.
-/
namespace UnifyFS.ChunkWords
open MachineWords RangeLists RangeTrees ExtentTree ExtentLookup List

def lastWord (offset len : ℕ) : ℕ := wordSub ((offset + len) % wordSize) 1

def chunkReqFromExtentWord (g : ℤ) (reqOffset reqLen : ℕ) (n : Extent) : Chunk :=
  let last := lastWord reqOffset reqLen
  let lead := if n.start < reqOffset then reqOffset - n.start else 0
  let trail := if last < n.stop then n.stop - last else 0
  { gfid := g
    nbytes := wordSub (wordSub ((n.stop - n.start + 1) % wordSize) lead) trail
    offset := n.start + lead
    logOffset := n.info.logPos + BitVec.ofNat 64 lead
    logAppId := n.info.appId
    logClientId := n.info.cliId
    rank := n.info.svrRank }

def visited (t : RangeTree LogLoc) (offset len : ℕ) : List Extent :=
  (t.nodes.dropWhile fun n => decide (n.stop < offset)).takeWhile fun n =>
    decide (n.start ≤ lastWord offset len)

def getChunkListWords (g : ℤ) (t : RangeTree LogLoc) (offset len : ℕ) : List Chunk :=
  (visited t offset len).map (chunkReqFromExtentWord g offset len)

section Words
variable {g : ℤ} {t : RangeTree LogLoc} {offset len : ℕ} {n : Extent}

theorem mod_wordSize {a : ℕ} (h : a < 2 * wordSize) :
    a % wordSize = if a < wordSize then a else a - wordSize := by
  split_ifs with hlt
  · exact Nat.mod_eq_of_lt hlt
  · rw [Nat.mod_eq_sub_mod (not_lt.mp hlt),Nat.mod_eq_of_lt (by omega)]

theorem lastWord_of_fits (hone : 1 ≤ len) (hfits : offset + len ≤ wordSize) :
    lastWord offset len = offset + len - 1 := by
  unfold lastWord
  rw [mod_wordSize (by omega)]
  unfold wordSub
  split_ifs <;> omega

theorem lastWord_of_wraps (hoff : offset < wordSize) (hlen : len < wordSize)
    (hwrap : wordSize < offset + len) : lastWord offset len = offset + len - 1 - wordSize := by
  unfold lastWord
  rw [mod_wordSize (by omega),if_neg (by omega),wordSub_of_le (by omega)]
  omega

theorem wordSub_wordSub (size lead trail : ℕ) (hle : size ≤ wordSize)
    (hcut : lead + trail < size) (hproper : size = wordSize → 0 < lead + trail) :
    wordSub (wordSub (size % wordSize) lead) trail = size - lead - trail := by
  by_cases hlt : size < wordSize
  · have hlead : wordSub size lead = size - lead := wordSub_of_le (by omega)
    rw [Nat.mod_eq_of_lt hlt,hlead,wordSub_of_le (by omega)]
  · have hfull : size = wordSize := by omega
    rw [hfull,Nat.mod_self]
    unfold wordSub
    split_ifs <;> omega

theorem mem_visited (ht : Separate t.nodes) (hn : n ∈ visited t offset len) :
    n ∈ t.nodes ∧ offset ≤ n.stop ∧ n.start ≤ lastWord offset len := by
  have hdrop := (takeWhile_sublist _).mem hn
  exact ⟨(dropWhile_sublist _).mem hdrop,le_stop_of_mem_dropWhile ht hdrop,
    by simpa using mem_takeWhile_imp hn⟩

/-- With the last byte in range, a chunk is computed without wrapping around. -/
theorem chunkReqFromExtentWord_of_fits (hone : 1 ≤ len) (hlen : len < wordSize)
    (hfits : offset + len ≤ wordSize) (hn : n.start ≤ n.stop) (hword : n.stop < wordSize)
    (hoff : offset ≤ n.stop) (hlast : n.start < offset + len) :
    chunkReqFromExtentWord g offset len n = chunkReqFromExtent g offset len n := by
  have hbyte : lastByte offset len = offset + len - 1 := wordSub_of_le (by omega)
  unfold chunkReqFromExtentWord chunkReqFromExtent
  rw [lastWord_of_fits hone hfits,hbyte]
  dsimp only
  congr 1
  apply wordSub_wordSub
  · omega
  · split_ifs <;> omega
  · intro hfull
    split_ifs <;> omega

/-- With the last byte wrapped around, the chunk is the request. -/
theorem chunkReqFromExtentWord_of_wraps (hoff : offset < wordSize) (hlen : len < wordSize)
    (hwrap : wordSize < offset + len) (hn : n.start ≤ n.stop) (hword : n.stop < wordSize)
    (hlo : offset ≤ n.stop) (hlast : n.start ≤ lastWord offset len) :
    (chunkReqFromExtentWord g offset len n).offset = offset ∧
      (chunkReqFromExtentWord g offset len n).nbytes = len := by
  have hlastword := lastWord_of_wraps hoff hlen hwrap
  unfold chunkReqFromExtentWord
  dsimp only
  rw [if_pos (by omega),if_pos (by omega)]
  have hlead : wordSub ((n.stop - n.start + 1) % wordSize) (offset - n.start) =
      n.stop - offset + 1 := by
    have hcut := wordSub_wordSub (n.stop - n.start + 1) (offset - n.start) 0 (by omega)
      (by omega) (by omega)
    rw [wordSub_of_le (Nat.zero_le _)] at hcut
    omega
  rw [wordSub_of_lt (by omega)]
  omega

theorem chunk_within (ht : Separate t.nodes) (hwords : ∀ n ∈ t.nodes, n.stop < wordSize)
    (hone : 1 ≤ len) (hoff : offset < wordSize) (hlen : len < wordSize) {c : Chunk}
    (hc : c ∈ getChunkListWords g t offset len) :
    offset ≤ c.offset ∧ 0 < c.nbytes ∧ c.offset + c.nbytes ≤ offset + len := by
  obtain ⟨n,hn,rfl⟩ := mem_map.mp hc
  obtain ⟨hmem,hlo,hlast⟩ := mem_visited ht hn
  have hstart := ht.start_le n hmem
  have hword := hwords n hmem
  by_cases hfits : offset + len ≤ wordSize
  · rw [lastWord_of_fits hone hfits] at hlast
    rw [chunkReqFromExtentWord_of_fits hone hlen hfits hstart hword hlo (by omega)]
    have hbyte : lastByte offset len = offset + len - 1 := wordSub_of_le (by omega)
    unfold chunkReqFromExtent
    dsimp only
    split_ifs <;> omega
  · obtain ⟨hoffset,hnbytes⟩ := chunkReqFromExtentWord_of_wraps (g := g) hoff hlen
      (by omega) hstart hword hlo hlast
    omega

end Words
end UnifyFS.ChunkWords
