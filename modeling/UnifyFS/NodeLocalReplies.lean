import UnifyFS.NodeLocalExtents

/-!
# The answer about node-local extents

The handler should answer with the chunks found for each request, one request after the
other, and each chunk under the gfid of its request. From the blocks of its list it follows
that the answer is right only if all lookups find one chunk, up to the last that finds any,
and if the gfids agree.
-/
namespace UnifyFS.NodeLocalReplies
open InodeModel ExtentLookup NodeLocalExtents List

def replyFrom (mem : Memory) (reqs : List Request) (found : List (Rc × List Chunk)) :
    Option (List ClientIndex) :=
  (OutList.build 0 found ⟨[],.stack,0,false⟩).sent.map fun l => l.map (Node.value mem reqs)

def taggedChunk (gfid : ℤ) (c : Chunk) : ClientIndex :=
  ⟨c.offset,c.logOffset,c.nbytes,gfid,c.logAppId,c.logClientId⟩

/-- The chunks of all requests in their order, each with the gfid of its request. -/
def wantedReply (reqs : List Request) (found : List (Option (List Chunk))) : List ClientIndex :=
  (reqs.zip found).flatMap fun (r,o) => (o.getD []).map (taggedChunk r.gfid)

def countsOf (found : List (Rc × List Chunk)) : List (Option ℕ) :=
  (found.map lookedUp).map (Option.map List.length)

/-- The answer is the one it should be, with as many entries as there are chunks. -/
def RightReply (mem : Memory) (reqs : List Request) (found : List (Rc × List Chunk)) : Prop :=
  ∃ reply, replyFrom mem reqs found = some reply ∧
    reply = wantedReply reqs (found.map lookedUp) ∧
    reply.length = ((countsOf found).map fun n => n.getD 0).sum

/-- From request `i` on: each lookup that succeeds finds one chunk, up to the last that finds
any. If there are several of these, then more than the number of the request plus one. -/
def Ordered : ℕ → List (Option ℕ) → Prop
  | _, [] => True
  | i, none :: counts => Ordered (i + 1) counts
  | i, some n :: counts =>
    if n = 1 then Ordered (i + 1) counts
    else (n = 0 ∨ i + 1 < n) ∧ ∀ m, some m ∈ counts → m = 0

/-- The requests at the numbers of the chunks are there, and for the same file. -/
def SameFile (reqs : List Request) (counts : List (Option ℕ)) : Prop :=
  ∀ p ∈ reqs.zip counts, ∀ j < p.2.getD 0, ∃ r, reqs[j]? = some r ∧ r.gfid = p.1.gfid

def allNodes : ℕ → List (Option (List Chunk)) → List Node
  | _, [] => []
  | i, none :: found => allNodes (i + 1) found
  | i, some cs :: found => chunkNodes i 0 cs ++ allNodes (i + 1) found

section Nodes
variable {i : ℕ} {found : List (Option (List Chunk))}

theorem length_allNodes (i : ℕ) (found : List (Option (List Chunk))) :
    (allNodes i found).length = totalFound found := by
  induction found generalizing i with
  | nil => rfl
  | cons o found ih =>
    cases o with
    | none => exact ih (i + 1)
    | some cs => rw [allNodes,totalFound,length_append,length_chunkNodes,ih]

theorem totalFound_eq_zero_iff : totalFound found = 0 ↔
    ∀ m, some m ∈ found.map (Option.map List.length) → m = 0 := by
  induction found with
  | nil => simp [totalFound]
  | cons o found ih =>
    cases o with
    | none => simp [totalFound,ih]
    | some cs => simp [totalFound,ih]

theorem allNodes_eq_nil (h : totalFound found = 0) (i : ℕ) : allNodes i found = [] :=
  length_eq_zero_iff.mp ((length_allNodes i found).trans h)

theorem block_singleton (x : Node) (i : ℕ) (c : Chunk) : block x i [c] = [.chunk i 0 c] :=
  if_neg (by simp)

theorem take_blocks (x : Node) (h : Ordered i (found.map (Option.map List.length))) :
    totalFound found ≤ (blocks x i found).length ∧
      (blocks x i found).take (totalFound found) = allNodes i found := by
  induction found generalizing x i with
  | nil => exact ⟨Nat.le_refl _,rfl⟩
  | cons o found ih =>
    cases o with
    | none => exact ih x h
    | some cs =>
      change if cs.length = 1 then _ else _ at h
      rw [totalFound,blocks,allNodes]
      split_ifs at h with hone
      · obtain ⟨c,rfl⟩ := length_eq_one_iff.mp hone
        obtain ⟨hle,htake⟩ := ih .blank h
        rw [block_singleton,Nat.add_comm]
        refine ⟨Nat.succ_le_succ hle,?_⟩
        exact congrArg (List.cons (.chunk i 0 c)) htake
      · -- nothing is found afterwards
        obtain ⟨hcount,hrest⟩ := h
        have hzero := totalFound_eq_zero_iff.mpr hrest
        rw [hzero,allNodes_eq_nil hzero,append_nil,Nat.add_zero]
        rcases hcount with hnone | hmany
        · obtain rfl := length_eq_zero_iff.mp hnone
          exact ⟨Nat.zero_le _,rfl⟩
        · have hlen := length_chunkNodes i 0 cs
          rw [block,if_pos hmany,append_assoc]
          refine ⟨by rw [length_append]; omega,?_⟩
          rw [← hlen,take_left]

end Nodes

section Values
variable {mem : Memory} {reqs : List Request}

theorem chunkNodes_value_iff (i j : ℕ) (cs : List Chunk) (g : ℤ) :
    (chunkNodes i j cs).map (Node.value mem reqs) = cs.map (taggedChunk g) ↔
      ∀ k < cs.length, gfidAt mem reqs (j + k) = g := by
  induction cs generalizing j with
  | nil => simp [chunkNodes]
  | cons c cs ih =>
    rw [chunkNodes,map_cons,map_cons,List.cons.injEq,ih]
    have hhead : Node.value mem reqs (.chunk i j c) = taggedChunk g c ↔ gfidAt mem reqs j = g := by
      simp [Node.value,taggedChunk]
    rw [hhead]
    constructor
    · rintro ⟨hzero,hrest⟩ k hk
      cases k with
      | zero => exact hzero
      | succ k =>
        rw [← Nat.add_assoc,Nat.add_right_comm]
        exact hrest k (Nat.lt_of_succ_lt_succ hk)
    · intro h
      refine ⟨h 0 (Nat.succ_pos _),fun k hk => ?_⟩
      rw [Nat.add_right_comm]
      exact h (k + 1) (Nat.succ_lt_succ hk)

theorem allNodes_value_iff (i : ℕ) {rs : List Request} {found : List (Option (List Chunk))}
    (hlen : rs.length = found.length) :
    (allNodes i found).map (Node.value mem reqs) = wantedReply rs found ↔
      ∀ p ∈ rs.zip found, ∀ j < (p.2.getD []).length, gfidAt mem reqs j = p.1.gfid := by
  induction found generalizing i rs with
  | nil => simp [allNodes,wantedReply]
  | cons o found ih =>
    obtain ⟨r,rs,rfl⟩ := exists_cons_of_length_eq_add_one hlen
    rw [zip_cons_cons,forall_mem_cons,← ih (i + 1) (Nat.succ.inj hlen)]
    cases o with
    | none => simp [allNodes,wantedReply]
    | some cs =>
      have hhead : (chunkNodes i 0 cs).map (Node.value mem reqs) = cs.map (taggedChunk r.gfid) ↔
          ∀ j < cs.length, gfidAt mem reqs j = r.gfid := by
        rw [chunkNodes_value_iff]
        simp only [Nat.zero_add]
      change _ ↔ (∀ j < cs.length, _) ∧ _
      rw [← hhead,allNodes,map_append]
      change _ = cs.map (taggedChunk r.gfid) ++ wantedReply rs found ↔ _
      refine ⟨fun h => append_inj h ?_,fun h => by rw [h.1,h.2]⟩
      rw [length_map,length_chunkNodes,length_map]

theorem forall_gfidAt_iff (mem : Memory) {j : ℕ} {g : ℤ} :
    (∀ beyond : ℕ → ℤ, gfidAt ⟨mem.stack,beyond⟩ reqs j = g) ↔
      ∃ r, reqs[j]? = some r ∧ r.gfid = g := by
  unfold gfidAt
  cases hr : reqs[j]? with
  | none =>
    refine iff_of_false (fun h => ?_) (by simp)
    have hother := h fun _ => g + 1
    change g + 1 = g at hother
    omega
  | some r => simp

end Values

/-- What tells the entries of an answer apart: position and length in the file. -/
def nodePlace : Node → ℕ × ℕ
  | .chunk _ _ c => (c.offset,c.nbytes)
  | _ => (0,0)

def chunkPlace (c : Chunk) : ℕ × ℕ := (c.offset,c.nbytes)

def wantedPlaces (found : List (Option (List Chunk))) : List (ℕ × ℕ) :=
  found.flatMap fun o => (o.getD []).map chunkPlace

/-- The chunks are not empty and begin at different positions, as those of a lookup do. -/
structure Distinct (cs : List Chunk) : Prop where
  pos : ∀ c ∈ cs, 0 < c.nbytes
  nodup : (cs.map Chunk.offset).Nodup

section Places
variable {i : ℕ} {x : Node} {cs : List Chunk} {found : List (Option (List Chunk))}

theorem wantedPlaces_pos (h : ∀ o ∈ found, Distinct (o.getD [])) {p : ℕ × ℕ}
    (hp : p ∈ wantedPlaces found) : 0 < p.2 := by
  obtain ⟨o,ho,hp⟩ := mem_flatMap.mp hp
  obtain ⟨c,hc,rfl⟩ := mem_map.mp hp
  exact (h o ho).pos c hc

theorem block_getElem? (hx : (nodePlace x).2 = 0) (h : cs = [] ∨ i + 1 < cs.length) :
    ∃ y, (block x i cs)[cs.length]? = some y ∧ (nodePlace y).2 = 0 := by
  rcases h with rfl | hmany
  · exact ⟨x,rfl,hx⟩
  · refine ⟨.blank,?_,rfl⟩
    rw [block,if_pos hmany,← length_chunkNodes i 0 cs,getElem?_concat_length]

/-- The node that is left over when the chunks overwrite each other. -/
theorem getLastD_place (i j : ℕ) (x : Node) (hne : cs ≠ []) :
    ∃ c ∈ cs, nodePlace ((chunkNodes i j cs).getLastD x) = chunkPlace c := by
  induction cs generalizing j x with
  | nil => exact absurd rfl hne
  | cons c cs ih =>
    rw [chunkNodes,getLastD_cons]
    by_cases hnil : cs = []
    · subst hnil
      exact ⟨c,mem_cons_self,rfl⟩
    · obtain ⟨d,hd,hplace⟩ := ih (j + 1) (.chunk i j c) hnil
      exact ⟨d,mem_cons_of_mem c hd,hplace⟩

theorem ordered_of_places (hx : (nodePlace x).2 = 0) (hfound : ∀ o ∈ found, Distinct (o.getD []))
    (h : ((blocks x i found).take (totalFound found)).map nodePlace = wantedPlaces found) :
    Ordered i (found.map (Option.map List.length)) := by
  induction found generalizing x i with
  | nil => trivial
  | cons o found ih =>
    have hrest : ∀ o ∈ found, Distinct (o.getD []) := fun o ho =>
      hfound o (mem_cons_of_mem _ ho)
    cases o with
    | none => exact ih hx hrest h
    | some cs =>
      have hcs := hfound (some cs) mem_cons_self
      change if cs.length = 1 then _ else _
      rw [totalFound,blocks] at h
      have hwanted : wantedPlaces (some cs :: found) =
        cs.map chunkPlace ++ wantedPlaces found := rfl
      split_ifs with hone
      · obtain ⟨c,rfl⟩ := length_eq_one_iff.mp hone
        rw [block_singleton,Nat.add_comm,hwanted] at h
        exact ih rfl hrest (List.cons.inj h).2
      · have hcount : cs = [] ∨ i + 1 < cs.length := by
          by_contra hnot
          rw [not_or] at hnot
          obtain ⟨c,ds,rfl⟩ := exists_cons_of_ne_nil hnot.1
          have hne : ds ≠ [] := by
            rintro rfl
            exact hone rfl
          -- the first entry is a later chunk of the same request
          obtain ⟨d,hd,hplace⟩ := getLastD_place i 1 (.chunk i 0 c) hne
          rw [block,if_neg hnot.2,chunkNodes,getLastD_cons,length_cons,Nat.add_right_comm] at h
          have hfirst := (List.cons.inj h).1
          rw [hplace] at hfirst
          have hsame : d.offset = c.offset := congrArg Prod.fst hfirst
          have hnotin := (nodup_cons.mp hcs.nodup).1
          exact hnotin (hsame ▸ mem_map_of_mem hd)
        refine ⟨hcount.imp_left (length_eq_zero_iff.mpr ·),?_⟩
        apply totalFound_eq_zero_iff.mp
        by_contra hsome
        -- an empty node is among those that are sent
        obtain ⟨y,hy,hzero⟩ := block_getElem? hx hcount
        have hmem : y ∈ (block x i cs ++ blocks .blank (i + 1) found).take
            (cs.length + totalFound found) := by
          apply mem_of_getElem? (i := cs.length)
          rw [getElem?_take_of_lt (by omega),getElem?_append_left
            (List.getElem?_eq_some_iff.mp hy).choose]
          exact hy
        have hin : nodePlace y ∈ wantedPlaces (some cs :: found) := by
          rw [← h]
          exact mem_map_of_mem hmem
        have hpos := wantedPlaces_pos hfound hin
        omega

end Places

section Replies
variable {mem : Memory} {reqs : List Request} {found : List (Rc × List Chunk)}

theorem length_wantedReply {fs : List (Option (List Chunk))} (hlen : reqs.length = fs.length) :
    (wantedReply reqs fs).length =
      ((fs.map (Option.map List.length)).map fun n => n.getD 0).sum := by
  induction fs generalizing reqs with
  | nil => simp [wantedReply]
  | cons o fs ih =>
    obtain ⟨r,rs,rfl⟩ := exists_cons_of_length_eq_add_one hlen
    have hrest := ih (Nat.succ.inj hlen)
    cases o with
    | none => simpa [wantedReply] using hrest
    | some cs => simpa [wantedReply] using hrest

theorem rightReply_iff (hlen : reqs.length = found.length) : RightReply mem reqs found ↔
    replyFrom mem reqs found = some (wantedReply reqs (found.map lookedUp)) := by
  constructor
  · rintro ⟨reply,hreply,rfl,-⟩
    exact hreply
  · intro h
    exact ⟨_,h,rfl,length_wantedReply (hlen.trans (length_map _).symm)⟩

theorem replyFrom_of_ordered (h : Ordered 0 (countsOf found)) : replyFrom mem reqs found =
      some ((allNodes 0 (found.map lookedUp)).map (Node.value mem reqs)) := by
  obtain ⟨hle,htake⟩ := take_blocks .stack h
  rw [replyFrom,sent_eq,if_pos hle,htake]
  rfl

theorem map_place_wantedReply {fs : List (Option (List Chunk))} (hlen : reqs.length = fs.length) :
    (wantedReply reqs fs).map (fun e => (e.filePos,e.length)) = wantedPlaces fs := by
  induction fs generalizing reqs with
  | nil => simp [wantedReply,wantedPlaces]
  | cons o fs ih =>
    obtain ⟨r,rs,rfl⟩ := exists_cons_of_length_eq_add_one hlen
    have hrest := ih (Nat.succ.inj hlen)
    change ((o.getD []).map (taggedChunk r.gfid) ++ wantedReply rs fs).map _ =
      (o.getD []).map chunkPlace ++ wantedPlaces fs
    rw [map_append,hrest,map_map]
    rfl

/-- A right answer of chunks that can be told apart comes from lookups in order. -/
theorem ordered_of_reply (hlen : reqs.length = found.length)
    (hfound : ∀ f ∈ found, Distinct f.2) {beyond : ℕ → ℤ}
    (h : replyFrom ⟨⟨0,0,0,0,0,0⟩,beyond⟩ reqs found =
      some (wantedReply reqs (found.map lookedUp))) : Ordered 0 (countsOf found) := by
  rw [replyFrom,sent_eq] at h
  split_ifs at h with hle
  · have hvalues := congrArg (List.map fun e => (e.filePos,e.length)) (Option.some.inj h)
    rw [map_place_wantedReply (hlen.trans (length_map _).symm),map_map] at hvalues
    apply ordered_of_places (x := .stack) rfl
    · intro o ho
      obtain ⟨f,hf,rfl⟩ := mem_map.mp ho
      unfold lookedUp
      split_ifs
      · exact hfound f hf
      · exact ⟨by simp,by simp⟩
    · rw [← hvalues]
      apply map_congr_left
      intro y _
      cases y with
      | stack => rfl
      | blank => rfl
      | chunk i j c => rfl
  · cases h

/-- For lookups in order, the answer is right whatever memory contains exactly if the numbers of
the chunks point to requests for the same file. -/
theorem replyFrom_iff_sameFile (hlen : reqs.length = found.length)
    (hord : Ordered 0 (countsOf found)) :
    (∀ mem, replyFrom mem reqs found = some (wantedReply reqs (found.map lookedUp))) ↔
      SameFile reqs (countsOf found) := by
  have hlen' : reqs.length = (found.map lookedUp).length := hlen.trans (length_map _).symm
  have htags : SameFile reqs (countsOf found) ↔
      ∀ p ∈ reqs.zip (found.map lookedUp), ∀ j < (p.2.getD []).length,
        ∃ r, reqs[j]? = some r ∧ r.gfid = p.1.gfid := by
    unfold SameFile countsOf
    rw [zip_map_right,forall_mem_map]
    refine forall₂_congr fun p _ => ?_
    cases hp : p.2 with
    | none => simp [hp]
    | some cs => simp [hp]
  rw [htags]
  constructor
  · intro h p hp j hj
    apply (forall_gfidAt_iff ⟨⟨0,0,0,0,0,0⟩,fun _ => 0⟩).mp
    intro beyond
    have hreply := h ⟨⟨0,0,0,0,0,0⟩,beyond⟩
    rw [replyFrom_of_ordered hord] at hreply
    exact (allNodes_value_iff 0 hlen').mp (Option.some.inj hreply) p hp j hj
  · intro h mem
    rw [replyFrom_of_ordered hord,(allNodes_value_iff 0 hlen').mpr]
    intro p hp j hj
    exact (forall_gfidAt_iff mem).mpr (h p hp j hj) mem.beyond

end Replies

/-- Lookups with given counts, one byte for each chunk. -/
def bytesFound (counts : List (Option ℕ)) : List (Rc × List Chunk) :=
  counts.map fun o => o.elim (Rc.enoent,[]) fun n =>
    (Rc.success,(List.range n).map fun k => ⟨0,1,k,0,0,0,0⟩)

theorem countsOf_bytesFound (counts : List (Option ℕ)) : countsOf (bytesFound counts) = counts := by
  unfold countsOf bytesFound
  rw [map_map,map_map]
  conv_rhs => rw [← map_id counts]
  apply map_congr_left
  intro o _
  cases o with
  | none => rfl
  | some n => simp [lookedUp]

theorem bytesFound_distinct (counts : List (Option ℕ)) {f : Rc × List Chunk}
    (h : f ∈ bytesFound counts) : Distinct f.2 := by
  obtain ⟨o,-,rfl⟩ := mem_map.mp h
  cases o with
  | none => exact ⟨by simp,by simp⟩
  | some n =>
    refine ⟨by simp,?_⟩
    rw [Option.elim_some,map_map]
    exact (map_id _).symm ▸ nodup_range

/-- The answer to requests with given numbers of chunks is right, whatever the chunks are and
whatever memory contains, exactly if the lookups are in order and the numbers of the
chunks point to requests for the same file. -/
theorem node_local_reply_iff {reqs : List Request} {counts : List (Option ℕ)}
    (hlen : reqs.length = counts.length) :
    (∀ found mem, countsOf found = counts → RightReply mem reqs found) ↔
      Ordered 0 counts ∧ SameFile reqs counts := by
  have hlength : ∀ found, countsOf found = counts → reqs.length = found.length := by
    rintro found rfl
    simpa [countsOf] using hlen
  constructor
  · intro h
    have hcounts := countsOf_bytesFound counts
    have hlen' := hlength _ hcounts
    have hreply := fun mem => (rightReply_iff hlen').mp (h (bytesFound counts) mem hcounts)
    have hord := ordered_of_reply hlen' (fun f => bytesFound_distinct counts)
      (hreply ⟨⟨0,0,0,0,0,0⟩,fun _ => 0⟩)
    refine ⟨hcounts ▸ hord,?_⟩
    have hsame := (replyFrom_iff_sameFile hlen' hord).mp hreply
    rwa [hcounts] at hsame
  · rintro ⟨hord,hsame⟩ found mem rfl
    have hlen' := hlength found rfl
    exact (rightReply_iff hlen').mpr ((replyFrom_iff_sameFile hlen' hord).mpr hsame mem)

def oneThenNone : List (Rc × List Chunk) := [(Rc.success,[⟨5,9,0,0,7,1,0⟩]),(Rc.success,[])]

/-- Two requests for one file with these lookups. -/
theorem node_local_reply_two_requests :
    countsOf oneThenNone = [some 1,some 0] ∧
      RightReply exampleMemory [⟨0,9,5⟩,⟨10,9,5⟩] oneThenNone := by
  have hordered : Ordered 0 [some 1,some 0] := ⟨.inl rfl,by simp⟩
  refine ⟨rfl,(node_local_reply_iff rfl).mpr ⟨hordered,?_⟩ oneThenNone exampleMemory rfl⟩
  intro p hp j hj
  simp only [zip_cons_cons,zip_nil_right,mem_cons,not_mem_nil,or_false] at hp
  rcases hp with rfl | rfl
  · obtain rfl := Nat.lt_one_iff.mp hj
    exact ⟨_,rfl,rfl⟩
  · cases hj

/-- The file 5, ten bytes in the log of one client and then ten in that of another. -/
def twoClientsInode : Inode where
  attr := { FileAttr.zero with gfid := 5, isLaminated := 1, isShared := 1, size := 20 }
  extents := ⟨[⟨0,9,⟨0,0,7,1⟩⟩,⟨10,19,⟨0,0,7,2⟩⟩],2,19⟩
  pending := []

def twoClientsView : ServerView where
  useServerLocalExtents := false
  isOwner _ := true
  here g := if g = 5 then some twoClientsInode else none
  owners g := if g = 5 then some twoClientsInode else none

/-- One request that finds two chunks: the second gets whatever lies behind the request. -/
theorem second_chunk_tagged_from_memory :
    (∀ mem, processNodeLocalExtentsGetRpc twoClientsView (fun _ => 0) mem [⟨0,20,5⟩] =
        some [⟨0,0,10,5,7,1⟩,⟨10,0,10,mem.beyond 1,7,2⟩]) ∧
      wantedReply [⟨0,20,5⟩] ((findAll twoClientsView (fun _ => 0) [⟨0,20,5⟩]).map lookedUp) =
        [⟨0,0,10,5,7,1⟩,⟨10,0,10,5,7,2⟩] ∧
      ¬ RightReply exampleMemory [⟨0,20,5⟩] (findAll twoClientsView (fun _ => 0) [⟨0,20,5⟩]) := by
  have hfound : findAll twoClientsView (fun _ => 0) [⟨0,20,5⟩] =
      [(Rc.success,[⟨5,10,0,0,7,1,0⟩,⟨5,10,10,0,7,2,0⟩])] := by decide +kernel
  have hreply : ∀ mem, processNodeLocalExtentsGetRpc twoClientsView (fun _ => 0) mem
      [⟨0,20,5⟩] = some [⟨0,0,10,5,7,1⟩,⟨10,0,10,mem.beyond 1,7,2⟩] := by
    intro mem
    rfl
  refine ⟨hreply,by rw [hfound]; rfl,fun hright => ?_⟩
  have hsame := (rightReply_iff rfl).mp hright
  revert hsame
  decide

end UnifyFS.NodeLocalReplies
