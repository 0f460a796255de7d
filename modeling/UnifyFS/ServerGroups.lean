import UnifyFS.ChunkWords
import UnifyFS.ListUpdates
import UnifyFS.SortedArrays
import Mathlib.Data.Prod.Lex

/-!
# The chunks of a read, server by server

The chunks found for a list of extents are collected in one array and sorted by the rank
of the server that holds them. `create_remote_read_requests` counts the changes of the
rank from one chunk to the next, and then cuts the array at these places. Because the
array is sorted, every server gets one group.

The count begins with the rank -1, which is that of no server. Lengths of arrays are
counted in an `unsigned int`, and those of the groups in an `int`: `too_many_chunks_for_int` has
more chunks of one server than that. Memory is allocated for as many entries as the count says;
here the allocations for the lookup succeed.
-/
namespace UnifyFS.ServerGroups
open ListUpdates MachineWords RangeLists ExtentTree InodeModel ExtentLookup ChunkWords
open SortedArrays List Option

structure FileExtent where
  gfid : ℤ
  offset : ℕ
  length : ℕ
  deriving DecidableEq, Repr

/-- The entries that are written to an array allocated for a count of type `unsigned int`.
There is no result when they do not fit; when the count is zero nothing is written. -/
def countedArray {α : Type*} (l : List α) : Option (List α) :=
  if l.length % uintSize = 0 then some []
  else if l.length < uintSize then some l
  else none

/-- The first loop of `unifyfs_inode_resolve_extent_chunks`. -/
def resolveExtents (inodes : ℤ → Option Inode) : List FileExtent → Option (Rc × List Chunk)
  | [] => some (Rc.success,[])
  | e :: es =>
    match inodes e.gfid with
    | none => some (Rc.enoent,[])
    | some ino =>
      (countedArray (getChunkListWords e.gfid ino.extents e.offset e.length)).bind
        fun chunks => (resolveExtents inodes es).map fun out => (out.1,chunks ++ out.2)

/-- What `compare_chunk_read_reqs` compares. -/
def chunkKey (c : Chunk) : ℤ ×ₗ ℕ := toLex (c.rank,c.offset)

/-- What `qsort` may do: chunks of one server at one offset can come out in any order. -/
structure ChunkSort where
  run : List Chunk → List Chunk
  perm : ∀ l, (run l).Perm l
  sorted : ∀ l, SortedBy chunkKey (run l)

def unifyfsInodeResolveExtentChunks (inodes : ℤ → Option Inode) (qsort : ChunkSort)
    (extents : List FileExtent) : Option (Rc × List Chunk) :=
  (resolveExtents inodes extents).bind fun (ret,resolved) =>
    if ret ≠ Rc.success then some (ret,[])
    else (countedArray resolved).map fun chunks =>
      (Rc.success,if 1 < chunks.length then qsort.run chunks else chunks)

/-- `server_chunk_reads_t` as it is filled here; `reqs` points into the array of chunks. -/
structure ServerGroup where
  rank : ℤ
  reqs : List Chunk
  totalSz : ℕ
  numChunks : ℤ
  deriving DecidableEq, Repr

def countServers : ℤ → List Chunk → ℕ
  | _, [] => 0
  | prevRank, c :: cs => (if c.rank ≠ prevRank then 1 else 0) + countServers c.rank cs

def takeChunks (current : ServerGroup) : List Chunk → Option (ServerGroup × List Chunk)
  | [] => some (current,[])
  | c :: cs =>
    if c.rank ≠ current.rank then some (current,c :: cs)
    else
      (asInt (current.numChunks + 1)).bind fun numChunks =>
        takeChunks ⟨current.rank,current.reqs ++ [c],(current.totalSz + c.nbytes) % wordSize,
          numChunks⟩ cs

/-- The outer loop. There is no result when it reads a rank behind the array. -/
def fillServers : ℕ → List Chunk → Option (List ServerGroup)
  | 0, _ => some []
  | _ + 1, [] => none
  | n + 1, c :: cs =>
    (takeChunks ⟨c.rank,[],0,0⟩ (c :: cs)).bind fun (current,pos) =>
      (fillServers n pos).map fun groups => current :: groups

/-- `alloc` tells whether there is memory for the groups. -/
def createRemoteReadRequests (alloc : Bool) (chunks : List Chunk) :
    Option (Rc × List ServerGroup) :=
  if alloc then
    (fillServers (countServers (-1) chunks) chunks).map fun groups => (Rc.success,groups)
  else some (Rc.enomem,[])

/-- The groups for a list of extents. A failed lookup leads to none. -/
def groupsOfExtents (inodes : ℤ → Option Inode) (qsort : ChunkSort) (alloc : Bool)
    (extents : List FileExtent) : Option (Rc × List ServerGroup) :=
  (unifyfsInodeResolveExtentChunks inodes qsort extents).bind fun (ret,chunks) =>
    if ret ≠ Rc.success then some (ret,[]) else createRemoteReadRequests alloc chunks

def totalBytes (chunks : List Chunk) : ℕ := (chunks.map Chunk.nbytes).sum

/-- The numbers of a group are those of its chunks. -/
structure ServerGroup.Exact (s : ServerGroup) : Prop where
  counted : s.numChunks = s.reqs.length
  summed : s.totalSz = totalBytes s.reqs % wordSize
  uniform : ∀ c ∈ s.reqs, c.rank = s.rank

/-- The array cut into groups of different servers. -/
structure Partition (groups : List ServerGroup) (chunks : List Chunk) : Prop where
  flat : (groups.flatMap ServerGroup.reqs) = chunks
  nonempty : ∀ s ∈ groups, s.reqs ≠ []
  exact : ∀ s ∈ groups, s.Exact
  ascending : (groups.map ServerGroup.rank).Pairwise (· < ·)

section Loops
variable {current : ServerGroup} {c : Chunk} {cs chunks : List Chunk} {groups : List ServerGroup}
  {r : ℤ} {rest : List Chunk} {s : ServerGroup}

theorem takeChunks_spec (hcur : current.Exact)
    (hfew : ((current.reqs ++ cs).length : ℤ) ≤ intMax) :
    ∃ s front rest, takeChunks current cs = some (s,rest) ∧ s.Exact ∧ s.rank = current.rank ∧
      s.reqs = current.reqs ++ front ∧ cs = front ++ rest ∧
      ∀ x, rest.head? = some x → x.rank ≠ current.rank := by
  induction cs generalizing current with
  | nil => exact ⟨current,[],[],rfl,hcur,rfl,(append_nil _).symm,rfl,fun x hx => by cases hx⟩
  | cons c cs ih =>
    rw [takeChunks]
    split_ifs with hrank
    · exact ⟨current,[],c :: cs,rfl,hcur,rfl,(append_nil _).symm,rfl,
        fun x hx => some.inj hx ▸ hrank⟩
    · have hmove : current.reqs ++ c :: cs = (current.reqs ++ [c]) ++ cs := by simp
      rw [hmove] at hfew
      have hcount : asInt (current.numChunks + 1) = some ((current.reqs ++ [c]).length : ℤ) := by
        have hlen : current.numChunks + 1 = ((current.reqs ++ [c]).length : ℤ) := by
          rw [hcur.counted,length_append]
          rfl
        rw [hlen]
        apply asInt_of_mem
        rw [length_append] at hfew
        omega
      have hsum : (current.totalSz + c.nbytes) % wordSize =
          totalBytes (current.reqs ++ [c]) % wordSize := by
        rw [hcur.summed,Nat.mod_add_mod]
        simp [totalBytes]
      rw [hcount,hsum]
      have hnew : ServerGroup.Exact ⟨current.rank,current.reqs ++ [c],
          totalBytes (current.reqs ++ [c]) % wordSize,(current.reqs ++ [c]).length⟩ :=
        ⟨rfl,rfl,forall_mem_append.mpr ⟨hcur.uniform,by simpa using not_not.mp hrank⟩⟩
      obtain ⟨s,front,rest,htake,hs,hsrank,hreqs,hcs,hhead⟩ := ih hnew hfew
      refine ⟨s,c :: front,rest,htake,hs,hsrank,?_,?_,hhead⟩
      · rw [hreqs]
        simp
      · rw [hcs]
        rfl

theorem countServers_front {front : List Chunk} (hfront : ∀ x ∈ front, x.rank = r) :
    countServers r (front ++ rest) = countServers r rest := by
  induction front with
  | nil => rfl
  | cons x front ih =>
    obtain ⟨hx,hfront⟩ := forall_mem_cons.mp hfront
    rw [cons_append,countServers,if_neg (not_not.mpr hx),Nat.zero_add,hx,ih hfront]

theorem lt_rank_of_mem (hsorted : SortedBy Chunk.rank rest) (hle : ∀ x ∈ rest, r ≤ x.rank)
    (hhead : ∀ x, rest.head? = some x → x.rank ≠ r) :
    ∀ x ∈ rest, r < x.rank := by
  cases rest with
  | nil => exact fun x hx => absurd hx not_mem_nil
  | cons y rest =>
    have hy := lt_of_le_of_ne (hle y mem_cons_self) (Ne.symm (hhead y rfl))
    intro x hx
    rcases mem_cons.mp hx with rfl | hx
    · exact hy
    · exact lt_of_lt_of_le hy (rel_of_pairwise_cons hsorted hx)

theorem Partition.mem_rank (h : Partition groups chunks) (hs : s ∈ groups) :
    ∃ c ∈ chunks, c.rank = s.rank := by
  obtain ⟨c,hc⟩ := exists_mem_of_ne_nil _ (h.nonempty s hs)
  refine ⟨c,?_,(h.exact s hs).uniform c hc⟩
  rw [← h.flat]
  exact mem_flatMap.mpr ⟨s,hs,hc⟩

theorem Partition.cons (h : Partition groups rest) (hs : s.Exact) (hne : s.reqs ≠ [])
    (hsorted : SortedBy Chunk.rank (s.reqs ++ rest))
    (hhead : ∀ x, rest.head? = some x → x.rank ≠ s.rank) :
    Partition (s :: groups) (s.reqs ++ rest) := by
  obtain ⟨-,hrest,hboth⟩ := pairwise_append.mp hsorted
  refine ⟨?_,?_,?_,?_⟩
  · rw [flatMap_cons,h.flat]
  · exact forall_mem_cons.mpr ⟨hne,h.nonempty⟩
  · exact forall_mem_cons.mpr ⟨hs,h.exact⟩
  · refine pairwise_cons.mpr ⟨?_,h.ascending⟩
    obtain ⟨y,hy⟩ := exists_mem_of_ne_nil _ hne
    have hle : ∀ x ∈ rest, s.rank ≤ x.rank := by
      intro x hx
      rw [← hs.uniform y hy]
      exact hboth y hy x hx
    intro k hk
    obtain ⟨s',hs',rfl⟩ := mem_map.mp hk
    obtain ⟨x,hx,hxrank⟩ := h.mem_rank hs'
    rw [← hxrank]
    exact lt_rank_of_mem hrest hle hhead x hx

/-- Both passes agree on where the groups end. -/
theorem fillServers_partition {n : ℕ} {prevRank : ℤ} (hcount : countServers prevRank chunks = n)
    (hhead : ∀ x, chunks.head? = some x → x.rank ≠ prevRank)
    (hsorted : SortedBy Chunk.rank chunks) (hfew : (chunks.length : ℤ) ≤ intMax) :
    ∃ groups, fillServers n chunks = some groups ∧ Partition groups chunks := by
  induction n generalizing chunks prevRank with
  | zero =>
    cases chunks with
    | nil => exact ⟨[],rfl,rfl,by simp,by simp,List.Pairwise.nil⟩
    | cons c cs =>
      rw [countServers,if_pos (hhead c rfl)] at hcount
      omega
  | succ n ih =>
    cases chunks with
    | nil => cases hcount
    | cons c cs =>
      have hempty : ServerGroup.Exact ⟨c.rank,[],0,0⟩ := ⟨rfl,rfl,by simp⟩
      obtain ⟨s,front,rest,htake,hs,hrank,hreqs,hsplit,hnext⟩ := takeChunks_spec hempty hfew
      subst hreqs
      rw [← hrank] at hnext
      -- the first chunk belongs to the group
      have hne : s.reqs ≠ [] := by
        intro hnil
        rw [hnil,nil_append] at hsplit
        rw [← hsplit] at hnext
        exact hnext c rfl hrank.symm
      have hrest : countServers s.rank rest = n := by
        have hfirst : countServers prevRank (c :: cs) = 1 + countServers s.rank (c :: cs) := by
          rw [countServers,countServers,if_pos (hhead c rfl),if_neg (not_not.mpr hrank.symm),
            Nat.zero_add]
        rw [hfirst,hsplit,countServers_front hs.uniform] at hcount
        omega
      rw [hsplit] at hsorted hfew
      rw [length_append] at hfew
      obtain ⟨groups,hfill,hgroups⟩ := ih hrest hnext (pairwise_append.mp hsorted).2.1 (by omega)
      refine ⟨s :: groups,?_,?_⟩
      · rw [fillServers,htake,bind_some]
        dsimp only
        rw [hfill]
        rfl
      · rw [hsplit]
        exact hgroups.cons hs hne hsorted hnext

end Loops

section Resolve
variable {inodes : ℤ → Option Inode} {extents : List FileExtent} {chunks : List Chunk}
  {current : ServerGroup}

def resolvedChunks (inodes : ℤ → Option Inode) (extents : List FileExtent) : List Chunk :=
  extents.flatMap fun e => match inodes e.gfid with
    | none => []
    | some ino => getChunkListWords e.gfid ino.extents e.offset e.length

theorem countedArray_eq {α : Type*} {l : List α} (h : l.length < uintSize) :
    countedArray l = some l := by
  unfold countedArray
  rw [Nat.mod_eq_of_lt h]
  split_ifs with hzero
  · rw [length_eq_zero_iff.mp hzero]
  · rfl

theorem resolveExtents_eq (hfew : (resolvedChunks inodes extents).length < uintSize) :
    if ∀ e ∈ extents, (inodes e.gfid).isSome then
      resolveExtents inodes extents = some (Rc.success,resolvedChunks inodes extents)
    else ∃ chunks, resolveExtents inodes extents = some (Rc.enoent,chunks) := by
  induction extents with
  | nil => exact rfl
  | cons e es ih =>
    simp only [forall_mem_cons]
    cases hino : inodes e.gfid with
    | none =>
      rw [if_neg (by simp),resolveExtents,hino]
      exact ⟨[],rfl⟩
    | some ino =>
      have hcons : resolvedChunks inodes (e :: es) =
          getChunkListWords e.gfid ino.extents e.offset e.length ++ resolvedChunks inodes es := by
        unfold resolvedChunks
        rw [flatMap_cons,hino]
      rw [hcons,length_append] at hfew
      have hrest := ih (by omega)
      rw [resolveExtents,hino,hcons]
      simp only [isSome_some,true_and]
      rw [countedArray_eq (by omega),bind_some]
      split_ifs at hrest ⊢ with hall
      · rw [hrest]
        rfl
      · obtain ⟨chunks,hrest⟩ := hrest
        rw [hrest]
        exact ⟨_,rfl⟩

theorem chunk_rank_mem {g : ℤ} {ino : Inode} {offset len : ℕ} {c : Chunk}
    (hc : c ∈ getChunkListWords g ino.extents offset len) :
    ∃ n ∈ ino.extents.nodes, c.rank = n.info.svrRank := by
  obtain ⟨n,hn,rfl⟩ := mem_map.mp hc
  exact ⟨n,(dropWhile_sublist _).mem ((takeWhile_sublist _).mem hn),rfl⟩

theorem sortedBy_rank_of_key {l : List Chunk} (h : SortedBy chunkKey l) :
    SortedBy Chunk.rank l := by
  apply h.imp
  intro a b hab
  rcases Prod.Lex.toLex_le_toLex.mp hab with hlt | ⟨heq,-⟩
  · exact hlt.le
  · exact heq.le

theorem qsort_spec (qsort : ChunkSort) (l : List Chunk) :
    (if 1 < l.length then qsort.run l else l).Perm l ∧
      SortedBy Chunk.rank (if 1 < l.length then qsort.run l else l) := by
  split_ifs with hlen
  · exact ⟨qsort.perm l,sortedBy_rank_of_key (qsort.sorted l)⟩
  · refine ⟨List.Perm.refl l,?_⟩
    rcases l with _ | ⟨x,_ | ⟨y,l⟩⟩
    · exact List.Pairwise.nil
    · exact pairwise_singleton _ x
    · exact absurd (by simp) hlen

theorem resolve_eq (qsort : ChunkSort) (hfound : ∀ e ∈ extents, (inodes e.gfid).isSome)
    (hfew : (resolvedChunks inodes extents).length < uintSize) :
    ∃ chunks, unifyfsInodeResolveExtentChunks inodes qsort extents = some (Rc.success,chunks) ∧
      chunks.Perm (resolvedChunks inodes extents) ∧ SortedBy Chunk.rank chunks := by
  have hresolve := resolveExtents_eq hfew
  rw [if_pos hfound] at hresolve
  refine ⟨_,?_,qsort_spec qsort (resolvedChunks inodes extents)⟩
  rw [unifyfsInodeResolveExtentChunks,hresolve,bind_some]
  dsimp only
  rw [countedArray_eq hfew]
  rfl

/-- Whatever the inodes map and whichever extents are asked for, the groups have different
ranks, hold every resolved chunk once and have the numbers of their chunks, with the size in a
`size_t`, and a response is matched with the one group of its server. If a file has no inode there
are no groups. The extents must name servers, and there must be fewer than `2 ^ 31` chunks. -/
theorem server_groups_of_extents (qsort : ChunkSort)
    (hranks : ∀ e ∈ extents, ∀ ino, inodes e.gfid = some ino →
      ∀ n ∈ ino.extents.nodes, 0 ≤ n.info.svrRank)
    (hfew : (resolvedChunks inodes extents).length < 2 ^ 31) :
    ((∃ e ∈ extents, inodes e.gfid = none) ∧
      groupsOfExtents inodes qsort true extents = some (Rc.enoent,[])) ∨
    (∀ e ∈ extents, (inodes e.gfid).isSome) ∧ ∃ groups,
      groupsOfExtents inodes qsort true extents = some (Rc.success,groups) ∧
      (groups.map ServerGroup.rank).Nodup ∧
      (groups.flatMap ServerGroup.reqs).Perm (resolvedChunks inodes extents) ∧
      (∀ s ∈ groups, s.reqs ≠ [] ∧ (∀ c ∈ s.reqs, c.rank = s.rank) ∧
        s.totalSz = (s.reqs.map Chunk.nbytes).sum % 2 ^ 64 ∧ s.numChunks = s.reqs.length) ∧
      ∀ (i : ℕ) (s : ServerGroup), groups[i]? = some s →
        groups.findIdx? (fun x => x.rank == s.rank) = some i := by
  have huint : (2 : ℕ) ^ 31 < uintSize := by decide
  by_cases hfound : ∀ e ∈ extents, (inodes e.gfid).isSome
  · obtain ⟨chunks,hresolve,hperm,hsorted⟩ := resolve_eq qsort hfound (by omega)
    have hhead : ∀ x, chunks.head? = some x → x.rank ≠ -1 := by
      intro x hx
      have hmem := hperm.subset (mem_of_mem_head? hx)
      obtain ⟨e,he,hxe⟩ := mem_flatMap.mp hmem
      obtain ⟨ino,hino⟩ := isSome_iff_exists.mp (hfound e he)
      rw [hino] at hxe
      obtain ⟨n,hn,hrank⟩ := chunk_rank_mem hxe
      have hserver := hranks e he ino hino n hn
      omega
    have hlen : (chunks.length : ℤ) ≤ intMax := by
      rw [hperm.length_eq]
      unfold intMax
      omega
    obtain ⟨groups,hfill,hgroups⟩ := fillServers_partition rfl hhead hsorted hlen
    have hnodup := hgroups.ascending.imp ne_of_lt
    refine .inr ⟨hfound,groups,?_,hnodup,?_,?_,?_⟩
    · rw [groupsOfExtents,hresolve,bind_some]
      dsimp only
      rw [if_neg (not_not.mpr rfl),createRemoteReadRequests,hfill]
      rfl
    · rw [hgroups.flat]
      exact hperm
    · intro s hs
      have hexact := hgroups.exact s hs
      exact ⟨hgroups.nonempty s hs,hexact.uniform,hexact.summed,hexact.counted⟩
    · exact fun i s hi => findIdx?_of_nodup hnodup hi
  · have hresolve := resolveExtents_eq (show (resolvedChunks inodes extents).length < uintSize by
      omega)
    rw [if_neg hfound] at hresolve
    obtain ⟨chunks,hresolve⟩ := hresolve
    refine .inl ⟨by simpa using hfound,?_⟩
    rw [groupsOfExtents,unifyfsInodeResolveExtentChunks,hresolve]
    rfl

/-- More chunks of one server than an `int` can count. -/
theorem takeChunks_eq_none (hrank : ∀ c ∈ chunks, c.rank = current.rank)
    (hcount : current.numChunks ≤ intMax) (hmany : intMax < current.numChunks + chunks.length) :
    takeChunks current chunks = none := by
  induction chunks generalizing current with
  | nil =>
    rw [length_nil] at hmany
    omega
  | cons c cs ih =>
    obtain ⟨hc,hcs⟩ := forall_mem_cons.mp hrank
    rw [takeChunks,if_neg (not_not.mpr hc)]
    by_cases hlast : current.numChunks + 1 ≤ intMax
    · unfold asInt
      split_ifs
      · refine ih hcs hlast ?_
        rw [length_cons] at hmany
        push_cast at hmany ⊢
        omega
      · rfl
    · rw [asInt,if_neg (by omega)]
      rfl

end Resolve

def insertionChunkSort : ChunkSort where
  run l := l.insertionSort fun a b => chunkKey a ≤ chunkKey b
  perm l := List.perm_insertionSort _ l
  sorted l := by
    have : Std.Total fun a b : Chunk => chunkKey a ≤ chunkKey b := ⟨fun a b => le_total _ _⟩
    have : IsTrans Chunk fun a b => chunkKey a ≤ chunkKey b := ⟨fun a b c => le_trans⟩
    exact List.pairwise_insertionSort _ l

def fileOnTwo (first second : ℤ) (_ : ℤ) : Option Inode :=
  some ⟨.zero,⟨[⟨0,3,⟨0,first,0,1⟩⟩,⟨4,7,⟨0,second,0,1⟩⟩],2,7⟩,[]⟩

/-- The file is asked for twice. -/
theorem server_groups_of_two_extents : ∃ groups,
    groupsOfExtents (fileOnTwo 1 0) insertionChunkSort true [⟨9,0,8⟩,⟨9,2,4⟩] =
      some (Rc.success,groups) ∧
    (groups.map ServerGroup.rank).Nodup ∧
    (groups.flatMap ServerGroup.reqs).Perm
      (resolvedChunks (fileOnTwo 1 0) [⟨9,0,8⟩,⟨9,2,4⟩]) ∧
    (∀ s ∈ groups, s.reqs ≠ [] ∧ (∀ c ∈ s.reqs, c.rank = s.rank) ∧
      s.totalSz = (s.reqs.map Chunk.nbytes).sum % 2 ^ 64 ∧ s.numChunks = s.reqs.length) ∧
    ∀ (i : ℕ) (s : ServerGroup), groups[i]? = some s →
      groups.findIdx? (fun x => x.rank == s.rank) = some i := by
  have hranks : ∀ e ∈ ([⟨9,0,8⟩,⟨9,2,4⟩] : List FileExtent), ∀ ino,
      fileOnTwo 1 0 e.gfid = some ino → ∀ n ∈ ino.extents.nodes, 0 ≤ n.info.svrRank := by
    intro e _ ino hino n hn
    cases hino
    rcases mem_pair.mp hn with rfl | rfl
    · decide
    · decide
  rcases server_groups_of_extents insertionChunkSort hranks (by decide +kernel) with
    ⟨⟨e,-,hnone⟩,-⟩ | ⟨-,hgroups⟩
  · cases hnone
  · exact hgroups

def fileOfBytes (n : ℕ) (_ : ℤ) : Option Inode := some ⟨.zero,everySecond n,[]⟩

variable {n : ℕ}

theorem resolvedChunks_fileOfBytes (hn : 0 < n) (hfits : 2 * n ≤ wordSize) :
    (resolvedChunks (fileOfBytes n) [⟨9,0,2 * n⟩]).length = n ∧
      ∀ c ∈ resolvedChunks (fileOfBytes n) [⟨9,0,2 * n⟩], c.rank = 0 := by
  have hlast : lastWord 0 (2 * n) = 0 + 2 * n - 1 := lastWord_of_fits (by omega) (by omega)
  have hall : visited (everySecond n) 0 (2 * n) = (everySecond n).nodes := by
    unfold visited
    rw [hlast,dropWhile_eq_self_iff.mpr (by simp),takeWhile_eq_self_iff]
    intro e he
    obtain ⟨i,hi,rfl⟩ := mem_everySecond.mp he
    exact decide_eq_true (by dsimp only; omega)
  have hchunks : resolvedChunks (fileOfBytes n) [⟨9,0,2 * n⟩] =
      getChunkListWords 9 (everySecond n) 0 (2 * n) := append_nil _
  rw [hchunks,getChunkListWords,hall]
  refine ⟨by simp [everySecond],fun c hc => ?_⟩
  obtain ⟨e,he,rfl⟩ := mem_map.mp hc
  obtain ⟨i,-,rfl⟩ := mem_everySecond.mp he
  rfl

theorem groupsOfExtents_fileOfBytes (hfits : 2 * n ≤ wordSize) (hn : n < uintSize)
    (hmany : intMax < n) :
    groupsOfExtents (fileOfBytes n) insertionChunkSort true [⟨9,0,2 * n⟩] = none := by
  have hmax : (0 : ℤ) ≤ intMax := by decide
  obtain ⟨hlen,hrank⟩ := resolvedChunks_fileOfBytes (by omega) hfits
  have hfound : ∀ e ∈ ([⟨9,0,2 * n⟩] : List FileExtent), (fileOfBytes n e.gfid).isSome :=
    fun _ _ => rfl
  obtain ⟨chunks,hresolve,hperm,-⟩ := resolve_eq insertionChunkSort hfound (by omega)
  replace hrank : ∀ c ∈ chunks, c.rank = 0 := fun c hc => hrank c (hperm.subset hc)
  rw [← hperm.length_eq] at hlen
  rw [groupsOfExtents,hresolve,bind_some]
  dsimp only
  rw [if_neg (not_not.mpr rfl),createRemoteReadRequests,if_pos rfl]
  cases chunks with
  | nil =>
    rw [length_nil] at hlen
    omega
  | cons c cs =>
    have hone : countServers (-1) (c :: cs) = 1 := by
      have hrest : countServers 0 (cs ++ []) = countServers 0 [] :=
        countServers_front (forall_mem_cons.mp hrank).2
      rw [append_nil] at hrest
      rw [countServers,hrank c mem_cons_self,hrest]
      rfl
    have htake : takeChunks ⟨c.rank,[],0,0⟩ (c :: cs) = none := by
      apply takeChunks_eq_none _ hmax
      · rw [hlen]
        dsimp only
        omega
      · rw [hrank c mem_cons_self]
        exact hrank
    rw [hone,fillServers,htake]
    rfl

/-- A file with `2 ^ 31` extents of one byte on one server, at the even offsets. -/
theorem too_many_chunks_for_int :
    (resolvedChunks (fileOfBytes (2 ^ 31)) [⟨9,0,2 * 2 ^ 31⟩]).length = 2 ^ 31 ∧
      groupsOfExtents (fileOfBytes (2 ^ 31)) insertionChunkSort true [⟨9,0,2 * 2 ^ 31⟩] = none :=
  ⟨(resolvedChunks_fileOfBytes (Nat.two_pow_pos 31) (by decide)).1,
    groupsOfExtents_fileOfBytes (by decide) (by decide) (by decide)⟩

end UnifyFS.ServerGroups
