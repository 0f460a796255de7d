import UnifyFS.Inode
import Mathlib.Data.List.Sort

/-!
# Looking up the extents of a file

A server that is asked where the bytes of a file are looks into its own inode or asks
the owner of the file. It gets the extents that overlap the request, cut to it, in the
order of the servers that hold them.
-/
namespace UnifyFS.ExtentLookup
open MachineWords RangeLists RangeTrees ExtentTree InodeModel List

structure Chunk where
  gfid : ℤ
  nbytes : ℕ
  offset : ℕ
  logOffset : BitVec 64
  logAppId : ℤ
  logClientId : ℤ
  rank : ℤ
  deriving DecidableEq, Repr

def lastByte (offset len : ℕ) : ℕ := wordSub (offset + len) 1

def chunkReqFromExtent (g : ℤ) (reqOffset reqLen : ℕ) (n : Extent) : Chunk :=
  let lead := if n.start < reqOffset then reqOffset - n.start else 0
  let trail := if lastByte reqOffset reqLen < n.stop then n.stop - lastByte reqOffset reqLen else 0
  { gfid := g
    nbytes := n.stop - n.start + 1 - lead - trail
    offset := n.start + lead
    logOffset := n.info.logPos + BitVec.ofNat 64 lead
    logAppId := n.info.appId
    logClientId := n.info.cliId
    rank := n.info.svrRank }

def overlapping (t : RangeTree LogLoc) (offset len : ℕ) : List Extent :=
  (t.nodes.dropWhile fun n => decide (n.stop < offset)).takeWhile fun n =>
    decide (n.start ≤ lastByte offset len)

def gapFound : List Extent → Bool
  | m :: n :: rest => decide (m.stop + 1 ≠ n.start) || gapFound (n :: rest)
  | _ => false

def extentCovered (offset len : ℕ) (l : List Extent) : Bool :=
  match l.head?, l.getLast? with
  | some first, some last =>
    !gapFound l && decide (first.start ≤ offset) && decide (lastByte offset len ≤ last.stop)
  | _, _ => false

def extentTreeGetChunkList (g : ℤ) (t : RangeTree LogLoc) (offset len : ℕ) : List Chunk × Bool :=
  let l := overlapping t offset len
  (l.map (chunkReqFromExtent g offset len),extentCovered offset len l)

def Chunk.before (a b : Chunk) : Bool :=
  decide (a.rank < b.rank) || decide (a.rank = b.rank) && decide (a.offset ≤ b.offset)

/-- `sm_find_extents` for one extent of a file with an inode. The offsets of the chunks are
different, so there is one way to sort them. -/
def smFindExtents (g : ℤ) (ino : Inode) (offset len : ℕ) : List Chunk × Bool :=
  let r := extentTreeGetChunkList g ino.extents offset len
  (r.1.insertionSort fun a b => a.before b = true,r.2)

/-- A server with what it and the owners of the files know. -/
structure ServerView where
  useServerLocalExtents : Bool
  isOwner : ℤ → Bool
  here : ℤ → Option Inode
  owners : ℤ → Option Inode

/-- The request to the owner; `rpc` is the outcome of the call itself. -/
def findAtOwner (s : ServerView) (rpc : Rc) (g : ℤ) (offset len : ℕ) : Rc × List Chunk :=
  if rpc ≠ Rc.success then (rpc,[])
  else
    match s.owners g with
    | some ino => (Rc.success,(smFindExtents g ino offset len).1)
    | none => (Rc.enoent,[])

/-- `unifyfs_invoke_find_extents_rpc` for one extent. -/
def unifyfsInvokeFindExtentsRpc (s : ServerView) (rpc : Rc) (g : ℤ) (offset len : ℕ) :
    Rc × List Chunk :=
  match s.here g with
  | none => findAtOwner s rpc g offset len
  | some ino =>
    let fileLaminated := decide (ino.attr.isShared ≠ 0 ∧ ino.attr.isLaminated ≠ 0)
    if s.isOwner g || s.useServerLocalExtents || fileLaminated then
      let r := smFindExtents g ino offset len
      if s.isOwner g || fileLaminated || r.2 then (Rc.success,r.1)
      else findAtOwner s rpc g offset len
    else findAtOwner s rpc g offset len

section Chunks
variable {g : ℤ} {offset len : ℕ} {t : RangeTree LogLoc}

theorem mem_overlapping {n : Extent} (ht : Separate t.nodes) (hn : n ∈ overlapping t offset len) :
    n ∈ t.nodes ∧ offset ≤ n.stop ∧ n.start ≤ lastByte offset len := by
  have hdrop := (takeWhile_sublist _).mem hn
  exact ⟨(dropWhile_sublist _).mem hdrop,le_stop_of_mem_dropWhile ht hdrop,
    by simpa using mem_takeWhile_imp hn⟩

theorem chunkReqFromExtent_spec {n : Extent} (hn : n.start ≤ n.stop) (hoff : offset ≤ n.stop)
    (hlast : n.start ≤ lastByte offset len) (hreq : offset ≤ lastByte offset len) :
    0 < (chunkReqFromExtent g offset len n).nbytes ∧
      ∀ b, (chunkReqFromExtent g offset len n).offset ≤ b →
        b < (chunkReqFromExtent g offset len n).offset +
          (chunkReqFromExtent g offset len n).nbytes → n.Holds b ∧ n.value LogLoc.val b =
          ⟨(chunkReqFromExtent g offset len n).logOffset +
            BitVec.ofNat 64 (b - (chunkReqFromExtent g offset len n).offset),
            n.info.svrRank,n.info.appId,n.info.cliId⟩ := by
  unfold chunkReqFromExtent
  dsimp only
  generalize hlead : (if n.start < offset then offset - n.start else 0) = lead
  generalize htrail : (if lastByte offset len < n.stop then n.stop - lastByte offset len else 0) =
    trail
  have hsum : lead + trail ≤ n.stop - n.start := by
    rw [← hlead,← htrail]
    split_ifs <;> omega
  refine ⟨by omega,fun b hlo hhi => ⟨⟨by omega,by omega⟩,?_⟩⟩
  unfold Range.value
  rw [BitVec.add_assoc,← BitVec.ofNat_add]
  congr 2
  omega

end Chunks
end UnifyFS.ExtentLookup
