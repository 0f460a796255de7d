import UnifyFS.ExtentLookup

/-!
# Node-local extents

With node-local extents a client that reads a laminated file asks its server once
where the bytes of the file are. The handler of the server builds its answer as a linked
list. It moves on in the list by the number of the request and not by the number of the
chunk, and it writes beside each chunk the gfid that it finds at the number of the chunk,
which can lie behind the end of the requests. What a node of the list contains before it
is written to, and what lies behind the requests in memory, are arguments here.

The list is described block by block: a lookup that finds one chunk adds that chunk, one
that finds more adds all of them and an empty node if there are enough of them, and otherwise
only the last, and one that finds none adds an empty node.
-/
namespace UnifyFS.NodeLocalExtents
open InodeModel ExtentLookup List

structure ClientIndex where
  filePos : ℕ
  logPos : BitVec 64
  length : ℕ
  gfid : ℤ
  logAppId : ℤ
  logClientId : ℤ
  deriving DecidableEq, Repr

structure Request where
  offset : ℕ
  length : ℕ
  gfid : ℤ
  deriving DecidableEq, Repr

/-- What is in a node of the list: what the first node had before, the zeros of a new
node, or chunk `j` of request `i`. -/
inductive Node where
  | stack
  | blank
  | chunk (i j : ℕ) (c : Chunk)
  deriving DecidableEq, Repr

/-- The list that is built, up to and without its last node, and that node. -/
structure OutList where
  done : List Node
  cur : Node
  totalChunks : ℕ
  addNode : Bool
  deriving DecidableEq, Repr

namespace OutList

def nodes (l : OutList) : List Node := l.done ++ [l.cur]

def extend (l : OutList) : OutList := { l with done := l.done ++ [l.cur], cur := .blank }

/-- The loop over the chunks of request `i`, from chunk `j` on. -/
def putChunks (i nChunks : ℕ) : ℕ → List Chunk → OutList → OutList
  | _, [], l => l
  | j, c :: cs, l =>
    let l := { l with cur := .chunk i j c }
    putChunks i nChunks (j + 1) cs (if i < nChunks - 1 then l.extend else l)

def addRequest (l : OutList) (i : ℕ) (found : Rc × List Chunk) : OutList :=
  if found.1 = Rc.success then
    let l := putChunks i found.2.length 0 found.2 (if l.addNode then l.extend else l)
    { l with addNode := true, totalChunks := l.totalChunks + found.2.length }
  else l

def build : ℕ → List (Rc × List Chunk) → OutList → OutList
  | _, [], l => l
  | i, f :: fs, l => build (i + 1) fs (l.addRequest i f)

/-- The walk along the list; it reads through a null pointer when the list is too short. -/
def sent (l : OutList) : Option (List Node) :=
  if l.totalChunks ≤ l.nodes.length then some (l.nodes.take l.totalChunks) else none

end OutList

structure Memory where
  stack : ClientIndex
  beyond : ℕ → ℤ

def gfidAt (mem : Memory) (reqs : List Request) (j : ℕ) : ℤ :=
  (reqs[j]?).elim (mem.beyond j) Request.gfid

def Node.value (mem : Memory) (reqs : List Request) : Node → ClientIndex
  | .stack => mem.stack
  | .blank => ⟨0,0,0,0,0,0⟩
  | .chunk _ j c => ⟨c.offset,c.logOffset,c.nbytes,gfidAt mem reqs j,c.logAppId,c.logClientId⟩

/-- The lookups; `rpc i` is the outcome of asking the owner for request `i`. -/
def findAll (s : ServerView) (rpc : ℕ → Rc) (reqs : List Request) : List (Rc × List Chunk) :=
  reqs.mapIdx fun i r => unifyfsInvokeFindExtentsRpc s (rpc i) r.gfid r.offset r.length

def sentNodes (s : ServerView) (rpc : ℕ → Rc) (reqs : List Request) : Option (List Node) :=
  (OutList.build 0 (findAll s rpc reqs) ⟨[],.stack,0,false⟩).sent

/-- `none` when the server does not survive the request. -/
def processNodeLocalExtentsGetRpc (s : ServerView) (rpc : ℕ → Rc) (mem : Memory)
    (reqs : List Request) : Option (List ClientIndex) :=
  (sentNodes s rpc reqs).map fun l => l.map (Node.value mem reqs)

def lookedUp (f : Rc × List Chunk) : Option (List Chunk) :=
  if f.1 = Rc.success then some f.2 else none

def chunkNodes (i : ℕ) : ℕ → List Chunk → List Node
  | _, [] => []
  | j, c :: cs => .chunk i j c :: chunkNodes i (j + 1) cs

/-- The nodes that request `i` adds, the first of which has been `x` before. -/
def block (x : Node) (i : ℕ) (cs : List Chunk) : List Node :=
  if i + 1 < cs.length then chunkNodes i 0 cs ++ [.blank] else [(chunkNodes i 0 cs).getLastD x]

def blocks : Node → ℕ → List (Option (List Chunk)) → List Node
  | _, _, [] => []
  | x, i, none :: found => blocks x (i + 1) found
  | x, i, some cs :: found => block x i cs ++ blocks .blank (i + 1) found

def totalFound : List (Option (List Chunk)) → ℕ
  | [] => 0
  | none :: found => totalFound found
  | some cs :: found => cs.length + totalFound found

section Blocks
variable {i n j : ℕ} {l : OutList} {cs : List Chunk}

theorem length_chunkNodes (i j : ℕ) (cs : List Chunk) : (chunkNodes i j cs).length = cs.length := by
  induction cs generalizing j with
  | nil => rfl
  | cons c cs ih => rw [chunkNodes,length_cons,ih,length_cons]

theorem putChunks_extending (h : i + 1 < n) : (OutList.putChunks i n j cs l).nodes =
    l.done ++ chunkNodes i j cs ++ [if cs.isEmpty then l.cur else .blank] := by
  induction cs generalizing j l with
  | nil => simp [OutList.putChunks,OutList.nodes,chunkNodes]
  | cons c cs ih =>
    rw [OutList.putChunks,if_pos (by omega),ih]
    simp [OutList.extend,chunkNodes]

theorem putChunks_overwriting (h : ¬ i + 1 < n) : (OutList.putChunks i n j cs l).nodes =
    l.done ++ [(chunkNodes i j cs).getLastD l.cur] := by
  induction cs generalizing j l with
  | nil => rfl
  | cons c cs ih => rw [OutList.putChunks,if_neg (by omega),ih,chunkNodes,getLastD_cons]

theorem putChunks_nodes (i : ℕ) (cs : List Chunk) (l : OutList) :
    (OutList.putChunks i cs.length 0 cs l).nodes = l.done ++ block l.cur i cs := by
  unfold block
  split_ifs with h
  · have hne : cs.isEmpty = false := by
      cases cs with
      | nil => cases h
      | cons c cs => rfl
    rw [putChunks_extending h,hne,append_assoc]
    rfl
  · exact putChunks_overwriting h

theorem putChunks_total (i n j : ℕ) (cs : List Chunk) (l : OutList) :
    (OutList.putChunks i n j cs l).totalChunks = l.totalChunks := by
  induction cs generalizing j l with
  | nil => rfl
  | cons c cs ih =>
    rw [OutList.putChunks,ih]
    split_ifs
    · rfl
    · rfl

theorem addRequest_success {f : Rc × List Chunk} (h : lookedUp f = some cs) (i : ℕ) :
    (l.addRequest i f).addNode = true ∧ (l.addRequest i f).totalChunks = l.totalChunks + cs.length ∧
      (l.addRequest i f).nodes =
        if l.addNode then l.nodes ++ block .blank i cs else l.done ++ block l.cur i cs := by
  unfold lookedUp at h
  split_ifs at h with hrc
  cases h
  rw [OutList.addRequest,if_pos hrc]
  refine ⟨rfl,?_,?_⟩
  · change (OutList.putChunks _ _ _ _ _).totalChunks + _ = _
    rw [putChunks_total]
    split_ifs
    · rfl
    · rfl
  · change (OutList.putChunks _ _ _ _ _).nodes = _
    rw [putChunks_nodes]
    split_ifs
    · rfl
    · rfl

theorem addRequest_failure {f : Rc × List Chunk} (h : lookedUp f = none) (i : ℕ) :
    l.addRequest i f = l := by
  unfold lookedUp at h
  split_ifs at h with hrc
  rw [OutList.addRequest,if_neg hrc]

theorem build_total (i : ℕ) (fs : List (Rc × List Chunk)) (l : OutList) :
    (OutList.build i fs l).totalChunks = l.totalChunks + totalFound (fs.map lookedUp) := by
  induction fs generalizing i l with
  | nil => rfl
  | cons f fs ih =>
    rw [OutList.build,ih,map_cons]
    cases hf : lookedUp f with
    | none => rw [addRequest_failure hf,totalFound]
    | some cs => rw [(addRequest_success hf i).2.1,totalFound,Nat.add_assoc]

theorem build_nodes (i : ℕ) (fs : List (Rc × List Chunk)) (h : l.addNode = true) :
    (OutList.build i fs l).nodes = l.nodes ++ blocks .blank i (fs.map lookedUp) := by
  induction fs generalizing i l with
  | nil => exact (append_nil _).symm
  | cons f fs ih =>
    rw [OutList.build,map_cons]
    cases hf : lookedUp f with
    | none =>
      rw [addRequest_failure hf]
      exact ih (i + 1) h
    | some cs =>
      obtain ⟨hadd,-,hnodes⟩ := addRequest_success hf i
      rw [ih (i + 1) hadd,hnodes,if_pos h,blocks,append_assoc]

theorem build_start (i : ℕ) (fs : List (Rc × List Chunk)) {l : OutList}
    (h : l = ⟨[],.stack,0,false⟩) :
    (OutList.build i fs l).nodes = blocks .stack i (fs.map lookedUp) ∨
      totalFound (fs.map lookedUp) = 0 ∧ blocks .stack i (fs.map lookedUp) = [] := by
  induction fs generalizing i l with
  | nil => exact .inr ⟨rfl,rfl⟩
  | cons f fs ih =>
    rw [OutList.build,map_cons]
    cases hf : lookedUp f with
    | none =>
      rw [addRequest_failure hf]
      exact ih (i + 1) h
    | some cs =>
      obtain ⟨hadd,-,hnodes⟩ := addRequest_success hf i
      left
      rw [build_nodes (i + 1) fs hadd,hnodes,h]
      rfl

/-- The answer consists of the first nodes of the blocks, if these are enough. -/
theorem sent_eq (fs : List (Rc × List Chunk)) : (OutList.build 0 fs ⟨[],.stack,0,false⟩).sent =
      if totalFound (fs.map lookedUp) ≤ (blocks .stack 0 (fs.map lookedUp)).length then
        some ((blocks .stack 0 (fs.map lookedUp)).take (totalFound (fs.map lookedUp)))
      else none := by
  unfold OutList.sent
  rw [build_total,Nat.zero_add]
  rcases build_start 0 fs rfl with hnodes | ⟨hzero,hnil⟩
  · rw [hnodes]
  · rw [hzero]
    rfl

end Blocks

def exampleMemory : Memory := ⟨⟨0,0,0,0,0,0⟩,fun _ => 0⟩

end UnifyFS.NodeLocalExtents
