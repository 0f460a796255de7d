import UnifyFS.ClientRead
import UnifyFS.ListUpdates
import UnifyFS.SegTree
import UnifyFS.SortedArrays
import Mathlib.Data.List.TakeWhile
import Mathlib.Data.Prod.Lex

/-!
# Serving a batch of reads

`process_gfid_reads` and what it calls in `client/src/client_read.c`. A request
is served from the client's own extents if these cover it, and by a server
otherwise. The extents are those found after node-local extents have been
fetched, which touches no request.

What the rest of the system does is an argument: whether allocations succeed,
what a log read returns, the RPC result, the messages that a server sends before
the wait ends, and the file sizes looked up. `qsort` is any function that
returns a sorted arrangement.
-/
namespace UnifyFS.GfidReads
open ByteBuffers MachineWords ClientRead ListUpdates SortedArrays List Option

def clientMaxReadCount : ℕ := 1000

structure ReadClient where
  useLocalExtents : Bool
  useNodeLocalExtents : Bool
  /-- The extents of a file with a local file id. -/
  extents : ℤ → Option SegTree
  /-- Whether there is a log context for a client id. -/
  logAvailable : ℕ → Bool

inductive ReadMsg where
  | data (readIndex dataOffset : ℕ) (bytes : List UInt8) (bulkOk : Bool) (xfer : ℕ → Bool)
  | complete (readIndex : ℕ) (readError : Rc)

structure ReadEnv where
  reqsAllocated : Bool
  mreadCreated : Bool
  bufferAllocated : Bool
  /-- The log read for the request at an index: client id, log offset, length. -/
  logRead : ℕ → ℕ → ℕ → ℕ → Rc × List UInt8
  sort : List ReadReq → List ReadReq
  readRc : Rc
  messages : List ReadMsg
  localSize : ℕ → ℤ
  serverSize : ℕ → ℤ

/-- The overlap of a request with an extent: its offset in the request, its offset
in the extent, its length. The length is zero for a request of length zero
inside the extent. -/
def getExtentCoverage (req : ReadReq) (extentFileOffset extentLength : ℕ) : Option (ℕ × ℕ × ℕ) :=
  let reqStart := req.offset
  let reqEnd := wordSub (req.offset + req.length) 1
  let extStart := extentFileOffset
  let extEnd := wordSub (extStart + extentLength) 1
  if extEnd < reqStart ∨ extStart > reqEnd then none
  else
    let start := if reqStart > extStart then reqStart else extStart
    let stop := if reqEnd < extEnd then reqEnd else extEnd
    some (start - reqStart,start - extStart,stop + 1 - start)

def visited (t : SegTree) (req : ReadReq) : List SegNode :=
  (t.iterFrom req.offset).takeWhile fun n => decide (n.start < req.offset + req.length)

/-- The first byte that the visited extents do not account for, unless there is a
gap before one of them. -/
def expectedStart : ℕ → List SegNode → Option ℕ
  | e, [] => some e
  | e, n :: rest => if n.start ≤ e then expectedStart (n.stop + 1) rest else none

def haveLocal (t : SegTree) (req : ReadReq) : Bool :=
  (expectedStart req.offset (visited t req)).any fun e => decide (req.offset + req.length ≤ e)

namespace ReadClient

def attempts (c : ReadClient) : Bool := c.useLocalExtents || c.useNodeLocalExtents

def servesLocally (c : ReadClient) (req : ReadReq) : Bool :=
  c.attempts && (c.extents req.gfid).any fun t => haveLocal t req

def segments (c : ReadClient) (req : ReadReq) : List SegNode :=
  (c.extents req.gfid).elim [] fun t => visited t req

end ReadClient

/-- One extent of the copy loop. There is no result when the assertion on the
coverage fails. -/
def serveExtent (c : ReadClient) (logRead : ℕ → ℕ → ℕ → Rc × List UInt8) (req : ReadReq)
    (n : SegNode) : Option ReadReq :=
  (getExtentCoverage req n.start (n.stop + 1 - n.start)).map fun (reqOffset,extOffset,len) =>
    if c.logAvailable n.clientId then
      let out := logRead n.clientId (n.ptr + extOffset) len
      if out.1 = Rc.success then
        updateReadReqCoverage (req.putBytes reqOffset out.2) reqOffset out.2.length
      else { req with errcode := out.1 }
    else req

def serveLocal (c : ReadClient) (logRead : ℕ → ℕ → ℕ → Rc × List UInt8) :
    List SegNode → ReadReq → Option ReadReq
  | [], req => some req
  | n :: rest, req => (serveExtent c logRead req n).bind (serveLocal c logRead rest)

structure Served where
  inReqs : List ReadReq
  localReqs : List ReadReq
  serverReqs : List ReadReq

def serviceLocalReqs (c : ReadClient) (env : ReadEnv) : ℕ → List ReadReq → Option Served
  | _, [] => some ⟨[],[],[]⟩
  | i, req :: rest =>
    if c.servesLocally req then
      (serveLocal c (env.logRead i) (c.segments req) req).bind fun done =>
        (serviceLocalReqs c env (i + 1) rest).map fun s =>
          ⟨done :: s.inReqs,done :: s.localReqs,s.serverReqs⟩
    else (serviceLocalReqs c env (i + 1) rest).map fun s =>
      ⟨req :: s.inReqs,s.localReqs,req :: s.serverReqs⟩

def updateResults (size : ℕ → ℤ) : ℕ → List ReadReq → Option (List ReadReq)
  | _, [] => some []
  | i, req :: rest => (updateReadReqResult (size i) req).bind fun done =>
    (updateResults size (i + 1) rest).map (done :: ·)

def compareReadReq (a b : ReadReq) : ℤ :=
  if a.gfid ≠ b.gfid then if a.gfid < b.gfid then -1 else 1
  else if a.offset = b.offset then 0
  else if a.offset < b.offset then -1
  else 1

def handleMsg (m : ClientMread) : ReadMsg → Option ClientMread
  | .data readIndex dataOffset bytes bulkOk xfer =>
    (mreadReqDataRpc m readIndex dataOffset bytes bulkOk xfer).map Prod.snd
  | .complete readIndex readError => some (mreadReqCompleteRpc m readIndex readError).2

def handleMsgs : ClientMread → List ReadMsg → Option ClientMread
  | m, [] => some m
  | m, msg :: msgs => (handleMsg m msg).bind fun m' => handleMsgs m' msgs

/-- From the mread RPC to the end of the function, for the requests of the mread.
The wait ends when all are complete, or it times out. -/
def awaitServer (env : ReadEnv) (reqs : List ReadReq) : Option (Rc × List ReadReq) :=
  if env.readRc ≠ Rc.success then
    (updateResults env.serverSize 0 (reqs.map (ReadReq.withError env.readRc))).map fun done =>
      (if env.readRc ≠ Rc.enodata then env.readRc else Rc.success,done)
  else (handleMsgs ⟨0,reqs,0,0⟩ env.messages).bind fun m =>
    let reqs := if m.nComplete = m.nReads then m.reqs else m.reqs.map ReadReq.expire
    (updateResults env.serverSize 0 reqs).map fun done => (Rc.success,done)

/-- Whether a request served locally gets a result: one of length zero needs an
extent with a log around it. -/
def ReadClient.Finishes (c : ReadClient) (req : ReadReq) : Prop :=
  0 < req.length ∨ ∃ n ∈ c.segments req, c.logAvailable n.clientId = true

/-- What `process_gfid_reads` returns: its result and the array it was given, and
for the record the requests served locally and the requests for the server. -/
structure ReadsOut where
  ret : Rc
  inReqs : List ReadReq
  localReads : List ReadReq
  serverReads : List ReadReq

/-- The part for the requests that are left to the server. Without a temporary
array these are `in_reqs` itself, which is then sorted in place. -/
def readFromServer (c : ReadClient) (env : ReadEnv) (inReqs localReqs serverReqs : List ReadReq) :
    Option ReadsOut :=
  if serverReqs.length > clientMaxReadCount then
    some ⟨Rc.enospc,inReqs,localReqs,serverReqs⟩
  else
    let sorted := env.sort serverReqs
    let inReqs := if c.attempts then inReqs else sorted
    if env.mreadCreated && env.bufferAllocated then
      (awaitServer env sorted).map fun (ret,done) =>
        ⟨ret,if c.attempts then localReqs ++ done else done,localReqs,done⟩
    else some ⟨Rc.enomem,inReqs,localReqs,sorted⟩

def processGfidReads (c : ReadClient) (env : ReadEnv) (inReqs : List ReadReq) :
    Option ReadsOut :=
  if inReqs = [] then some ⟨Rc.success,[],[],[]⟩
  else
    let inReqs := inReqs.map (ReadReq.withError Rc.einprogress)
    if c.attempts then
      if env.reqsAllocated then
        (serviceLocalReqs c env 0 inReqs).bind fun s =>
          (updateResults env.localSize 0 s.localReqs).bind fun done =>
            if s.serverReqs = [] then some ⟨Rc.success,done,done,[]⟩
            else readFromServer c env s.inReqs done s.serverReqs
      else some ⟨Rc.enomem,inReqs,[],inReqs⟩
    else readFromServer c env inReqs [] inReqs

variable {c : ReadClient} {env : ReadEnv} {logRead : ℕ → ℕ → ℕ → Rc × List UInt8}
  {req done : ReadReq} {reqs : List ReadReq} {i : ℕ}

section Identity
variable {s : Served} {segs : List SegNode} {size : ℕ → ℤ} {out : List ReadReq} {m m' : ClientMread}

theorem serveExtent_ident {n : SegNode} (h : serveExtent c logRead req n = some done) :
    done.ident = req.ident := by
  obtain ⟨⟨reqOffset,extOffset,len⟩,-,rfl⟩ := map_eq_some_iff.mp h
  dsimp only
  split
  · split
    · exact coverage_ident _ _ _
    · rfl
  · rfl

theorem serveLocal_induct {P : ReadReq → Prop} (hreq : P req)
    (hstep : ∀ n ∈ segs, ∀ r u, r.ident = req.ident → P r →
      serveExtent c logRead r n = some u → P u)
    (h : serveLocal c logRead segs req = some done) : P done := by
  induction segs generalizing req with
  | nil =>
    cases h
    exact hreq
  | cons n rest ih =>
    obtain ⟨u,hu,hrest⟩ := bind_eq_some_iff.mp h
    refine ih (hstep n mem_cons_self req u rfl hreq hu) (fun k hk r v hid => ?_) hrest
    exact hstep k (mem_cons_of_mem _ hk) r v (hid.trans (serveExtent_ident hu))

theorem serveLocal_ident (h : serveLocal c logRead segs req = some done) :
    done.ident = req.ident :=
  serveLocal_induct (P := fun r => r.ident = req.ident) rfl
    (fun _ _ _ _ _ hr hu => (serveExtent_ident hu).trans hr) h

section
variable (h : serviceLocalReqs c env i reqs = some s)
include h

theorem serviceLocalReqs_forall₂ :
    List.Forall₂ (fun r d => ∃ k, serveLocal c (env.logRead k) (c.segments r) r = some d)
      (reqs.filter c.servesLocally) s.localReqs := by
  induction reqs generalizing i s with
  | nil =>
    cases h
    exact .nil
  | cons req rest ih =>
    rw [serviceLocalReqs] at h
    split at h
    · next hlocal =>
      obtain ⟨done,hdone,htail⟩ := bind_eq_some_iff.mp h
      obtain ⟨t,ht,rfl⟩ := map_eq_some_iff.mp htail
      rw [filter_cons_of_pos hlocal]
      exact .cons ⟨i,hdone⟩ (ih ht)
    · next hserver =>
      obtain ⟨t,ht,rfl⟩ := map_eq_some_iff.mp h
      rw [filter_cons_of_neg hserver]
      change List.Forall₂ _ _ t.localReqs
      exact ih ht

/-- Every request stays where it is, and goes to one of the two lists in order. -/
theorem serviceLocalReqs_spec : List.Forall₂ (fun r d => d = r ∨
        ∃ k, serveLocal c (env.logRead k) (c.segments r) r = some d) reqs s.inReqs ∧
      s.serverReqs = reqs.filter fun r => !c.servesLocally r := by
  induction reqs generalizing i s with
  | nil =>
    cases h
    exact ⟨.nil,rfl⟩
  | cons req rest ih =>
    rw [serviceLocalReqs] at h
    split at h
    · next hlocal =>
      obtain ⟨done,hdone,hrest⟩ := bind_eq_some_iff.mp h
      obtain ⟨t,ht,rfl⟩ := map_eq_some_iff.mp hrest
      exact ⟨.cons (.inr ⟨i,hdone⟩) (ih ht).1,by simp [hlocal,(ih ht).2]⟩
    · next hlocal =>
      obtain ⟨t,ht,rfl⟩ := map_eq_some_iff.mp h
      exact ⟨.cons (.inl rfl) (ih ht).1,by simp [hlocal,(ih ht).2]⟩

theorem serviceLocalReqs_ident : s.inReqs.map ReadReq.ident = reqs.map ReadReq.ident ∧
    s.localReqs.map ReadReq.ident = (reqs.filter c.servesLocally).map ReadReq.ident ∧
    s.serverReqs = reqs.filter fun r => !c.servesLocally r := by
  obtain ⟨hin,hserver⟩ := serviceLocalReqs_spec h
  refine ⟨map_eq_of_forall₂ (hin.imp ?_),map_eq_of_forall₂ ((serviceLocalReqs_forall₂ h).imp ?_),
    hserver⟩
  · rintro r d (rfl | ⟨k,hd⟩)
    · rfl
    · exact serveLocal_ident hd
  · rintro r d ⟨k,hd⟩
    exact serveLocal_ident hd

end

theorem updateResults_forall₂ (h : updateResults size i reqs = some out) :
    List.Forall₂ (fun r d => ∃ k, updateReadReqResult (size k) r = some d) reqs out := by
  induction reqs generalizing i out with
  | nil =>
    cases h
    exact .nil
  | cons req rest ih =>
    obtain ⟨d,hd,htail⟩ := bind_eq_some_iff.mp h
    obtain ⟨t,ht,rfl⟩ := map_eq_some_iff.mp htail
    exact .cons ⟨i,hd⟩ (ih ht)

theorem updateResults_ident (h : updateResults size i reqs = some out) :
    out.map ReadReq.ident = reqs.map ReadReq.ident :=
  map_eq_of_forall₂ ((updateResults_forall₂ h).imp fun _ _ ⟨_,hd⟩ => updateReadReqResult_ident hd)

theorem map_ident_withError (rc : Rc) :
    (reqs.map (ReadReq.withError rc)).map ReadReq.ident = reqs.map ReadReq.ident := by
  rw [List.map_map]
  rfl

theorem map_ident_expire :
    (reqs.map ReadReq.expire).map ReadReq.ident = reqs.map ReadReq.ident := by
  rw [List.map_map]
  apply map_congr_left
  intro r _
  unfold Function.comp ReadReq.expire
  split <;> rfl

theorem completeRpc_reqs (m : ClientMread) (readIndex : ℕ) (readError : Rc) :
    (mreadReqCompleteRpc m readIndex readError).2.reqs = m.reqs ∨
      (mreadReqCompleteRpc m readIndex readError).2.reqs =
        m.reqs.modify readIndex fun r => { r with nread := 0, errcode := readError } := by
  unfold mreadReqCompleteRpc clientUpdateMreadRequest
  split_ifs with hin htrue herr
  · exact .inr rfl
  · exact .inl rfl
  · exact absurd rfl htrue
  · exact .inl rfl

theorem handleMsg_ident {msg : ReadMsg} (h : handleMsg m msg = some m') :
    m'.reqs.map ReadReq.ident = m.reqs.map ReadReq.ident := by
  cases msg with
  | data readIndex dataOffset bytes bulkOk xfer =>
    obtain ⟨⟨rc,u⟩,hu,rfl⟩ := map_eq_some_iff.mp h
    rcases mreadReqDataRpc_cases hu with rfl | ⟨_,bytes,-,-,-,rfl | rfl⟩
    · rfl
    · exact map_modify_of_eq fun _ => rfl
    · exact map_modify_of_eq fun r => coverage_ident _ _ _
  | complete readIndex readError =>
    cases h
    rcases completeRpc_reqs m readIndex readError with heq | heq
    · rw [heq]
    · rw [heq]
      exact map_modify_of_eq fun _ => rfl

theorem handleMsgs_ident {msgs : List ReadMsg} (h : handleMsgs m msgs = some m') :
    m'.reqs.map ReadReq.ident = m.reqs.map ReadReq.ident := by
  induction msgs generalizing m with
  | nil =>
    cases h
    rfl
  | cons msg msgs ih =>
    obtain ⟨u,hu,hrest⟩ := bind_eq_some_iff.mp h
    rw [ih hrest]
    exact handleMsg_ident hu

theorem awaitServer_ident {out : Rc × List ReadReq} (h : awaitServer env reqs = some out) :
    out.2.map ReadReq.ident = reqs.map ReadReq.ident := by
  unfold awaitServer at h
  split at h
  · obtain ⟨done,hdone,rfl⟩ := map_eq_some_iff.mp h
    exact (updateResults_ident hdone).trans (map_ident_withError _)
  · obtain ⟨m,hm,hrest⟩ := bind_eq_some_iff.mp h
    obtain ⟨done,hdone,rfl⟩ := map_eq_some_iff.mp hrest
    rw [updateResults_ident hdone,← show m.reqs.map ReadReq.ident = _ from handleMsgs_ident hm]
    split
    · rfl
    · exact map_ident_expire

end Identity

section Returns
variable {m : ClientMread} {n : SegNode} {l l' : List ReadReq} {msg : ReadMsg}

theorem covered_of_counted (hc : req.Counted) (hpos : 0 < req.length) :
    req.nread = req.length → req.coverBegin ≠ none := by
  intro hfull hnone
  have hzero := hc hnone
  omega

theorem updateResults_isSome {size : ℕ → ℤ}
    (h : ∀ r ∈ reqs, r.nread = r.length → r.coverBegin ≠ none) :
    ∃ out, updateResults size i reqs = some out := by
  induction reqs generalizing i with
  | nil => exact ⟨[],rfl⟩
  | cons req rest ih =>
    obtain ⟨d,hd⟩ : ∃ d, updateReadReqResult (size i) req = some d :=
      updateReadReqResult_isSome (h req mem_cons_self)
    obtain ⟨t,ht⟩ := ih (i := i + 1) fun r hr => h r (mem_cons_of_mem _ hr)
    exact ⟨d :: t,by simp [updateResults,hd,ht]⟩

/-- The message starts inside the request that it names. -/
def ReadMsg.Fits (lengths : List ℕ) : ReadMsg → Prop
  | .data readIndex dataOffset _ _ _ => ∃ n, lengths[readIndex]? = some n ∧ dataOffset ≤ n
  | .complete _ _ => True

theorem map_length_of_ident (h : l'.map ReadReq.ident = l.map ReadReq.ident) :
    l'.map ReadReq.length = l.map ReadReq.length := by
  have hlen := congrArg (List.map fun x : ℤ × ℕ × ℕ × ℕ => x.2.2.1) h
  rw [List.map_map,List.map_map] at hlen
  exact hlen

theorem handleMsg_isSome (h : msg.Fits (m.reqs.map ReadReq.length)) :
    ∃ m', handleMsg m msg = some m' := by
  cases msg with
  | data readIndex dataOffset bytes bulkOk xfer =>
    obtain ⟨n,hn,hle⟩ := h
    rw [getElem?_map] at hn
    obtain ⟨r,hr,rfl⟩ := map_eq_some_iff.mp hn
    obtain ⟨out,hout⟩ := mreadReqDataRpc_isSome hr hle bytes bulkOk xfer
    exact ⟨out.2,by simp [handleMsg,hout]⟩
  | complete readIndex readError => exact ⟨_,rfl⟩

theorem handleMsg_counted {m' : ClientMread} (h : handleMsg m msg = some m')
    (hm : ∀ r ∈ m.reqs, r.Counted) : ∀ r ∈ m'.reqs, r.Counted := by
  cases msg with
  | data readIndex dataOffset bytes bulkOk xfer =>
    obtain ⟨⟨rc,u⟩,hu,rfl⟩ := map_eq_some_iff.mp h
    rcases mreadReqDataRpc_cases hu with rfl | ⟨_,bytes,-,-,-,rfl | rfl⟩
    · exact hm
    · exact forall_mem_modify hm fun q hq => hm q (mem_of_getElem? hq)
    · exact forall_mem_modify hm fun _ _ => coverage_counted _ _ _
  | complete readIndex readError =>
    cases h
    rcases completeRpc_reqs m readIndex readError with heq | heq
    · rwa [heq]
    · rw [heq]
      exact forall_mem_modify hm fun _ _ _ => rfl

theorem handleMsgs_isSome {msgs : List ReadMsg}
    (hfit : ∀ msg ∈ msgs, msg.Fits (m.reqs.map ReadReq.length)) (hm : ∀ r ∈ m.reqs, r.Counted) :
    ∃ m', handleMsgs m msgs = some m' ∧ ∀ r ∈ m'.reqs, r.Counted := by
  induction msgs generalizing m with
  | nil => exact ⟨m,rfl,hm⟩
  | cons msg msgs ih =>
    obtain ⟨u,hu⟩ := handleMsg_isSome (hfit msg mem_cons_self)
    have hlen := map_length_of_ident (handleMsg_ident hu)
    obtain ⟨m',hm',hcount⟩ : ∃ m', handleMsgs u msgs = some m' ∧ ∀ r ∈ m'.reqs, r.Counted := by
      apply ih
      · intro msg' hmsg
        rw [hlen]
        exact hfit msg' (mem_cons_of_mem _ hmsg)
      · exact handleMsg_counted hu hm
    exact ⟨m',by simp [handleMsgs,hu,hm'],hcount⟩

theorem length_pos_of_ident (h : l'.map ReadReq.ident = l.map ReadReq.ident)
    (hl : ∀ r ∈ l, 0 < r.length) :
    ∀ r ∈ l', 0 < r.length := by
  intro r hr
  have hmem : r.length ∈ l'.map ReadReq.length := mem_map_of_mem hr
  rw [map_length_of_ident h] at hmem
  obtain ⟨q,hq,hlen⟩ := mem_map.mp hmem
  rw [← hlen]
  exact hl q hq

theorem awaitServer_isSome (hfit : ∀ msg ∈ env.messages, msg.Fits (reqs.map ReadReq.length))
    (hcount : ∀ r ∈ reqs, r.Counted) (hpos : ∀ r ∈ reqs, 0 < r.length) :
    ∃ out, awaitServer env reqs = some out := by
  unfold awaitServer
  split
  · obtain ⟨d,hd⟩ : ∃ d, updateResults env.serverSize 0
        (reqs.map (ReadReq.withError env.readRc)) = some d := by
      apply updateResults_isSome
      exact forall_mem_map.mpr fun q hq => covered_of_counted (hcount q hq) (hpos q hq)
    rw [hd]
    exact ⟨_,rfl⟩
  · obtain ⟨m,hm,hcounted⟩ := handleMsgs_isSome (m := ⟨0,reqs,0,0⟩) hfit hcount
    have hident := handleMsgs_ident hm
    have hmpos := length_pos_of_ident hident hpos
    rw [hm]
    obtain ⟨d,hd⟩ : ∃ d, updateResults env.serverSize 0
        (if m.nComplete = m.nReads then m.reqs else m.reqs.map ReadReq.expire) = some d := by
      apply updateResults_isSome
      intro r hr
      split at hr
      · exact covered_of_counted (hcounted r hr) (hmpos r hr)
      · obtain ⟨q,hq,rfl⟩ := mem_map.mp hr
        have hcov := covered_of_counted (hcounted q hq) (hmpos q hq)
        unfold ReadReq.expire
        split
        · exact hcov
        · exact hcov
    exact ⟨(Rc.success,d),by simp [hd]⟩

/-- An extent that the loops visit for a request. -/
def Meets (req : ReadReq) (n : SegNode) : Prop :=
  n.start ≤ n.stop ∧ req.offset ≤ n.stop ∧ n.start < req.offset + req.length

theorem exists_tree_of_mem_segments (h : n ∈ c.segments req) :
    ∃ t, c.extents req.gfid = some t ∧ n ∈ visited t req := by
  unfold ReadClient.segments at h
  cases ht : c.extents req.gfid with
  | none =>
    rw [ht] at h
    cases h
  | some t =>
    rw [ht] at h
    exact ⟨t,rfl,h⟩

theorem mem_nodes_of_mem_visited {t : SegTree} (h : n ∈ visited t req) : n ∈ t.nodes :=
  (t.iterFrom_sublist _).subset ((takeWhile_sublist _).subset h)

theorem meets_of_mem_segments (h : n ∈ c.segments req) : Meets req n := by
  obtain ⟨t,-,hn⟩ := exists_tree_of_mem_segments h
  have hiter := (takeWhile_sublist _).subset hn
  refine ⟨t.start_le n (mem_nodes_of_mem_visited hn),SegTree.le_stop_of_mem_iterFrom hiter,?_⟩
  simpa using mem_takeWhile_imp hn

theorem getExtentCoverage_overlap (h : Meets req n) :
    getExtentCoverage req n.start (n.stop + 1 - n.start) =
      some (max req.offset n.start - req.offset,max req.offset n.start - n.start,
        min (req.offset + req.length - 1) n.stop + 1 - max req.offset n.start) := by
  obtain ⟨hle,hoff,hstart⟩ := h
  have hext : wordSub (n.start + (n.stop + 1 - n.start)) 1 = n.stop := by
    rw [wordSub_of_le (by omega)]
    omega
  have hreq : wordSub (req.offset + req.length) 1 = req.offset + req.length - 1 :=
    wordSub_of_le (by omega)
  have hlo : (if req.offset > n.start then req.offset else n.start) = max req.offset n.start := by
    split <;> omega
  have hhi : (if req.offset + req.length - 1 < n.stop then req.offset + req.length - 1
      else n.stop) = min (req.offset + req.length - 1) n.stop := by
    split <;> omega
  unfold getExtentCoverage
  dsimp only
  rw [hext,hreq,if_neg (by omega),hlo,hhi]

theorem getExtentCoverage_of_meets (h : Meets req n) : ∃ reqOffset extOffset len,
      getExtentCoverage req n.start (n.stop + 1 - n.start) = some (reqOffset,extOffset,len) ∧
      (req.length = 0 → len = 0) := by
  refine ⟨_,_,_,getExtentCoverage_overlap h,fun hzero => ?_⟩
  obtain ⟨-,-,hstart⟩ := h
  omega

theorem Meets.of_ident (h : Meets req n) (hid : done.ident = req.ident) : Meets done n := by
  simp only [ReadReq.ident,Prod.mk.injEq] at hid
  obtain ⟨-,hoff,hlen,-⟩ := hid
  unfold Meets
  rw [hoff,hlen]
  exact h

theorem serveExtent_spec (c : ReadClient) (logRead : ℕ → ℕ → ℕ → Rc × List UInt8)
    (h : Meets req n) :
    ∃ done, serveExtent c logRead req n = some done ∧ (req.Counted → done.Counted) ∧
      (req.coverBegin ≠ none → done.coverBegin ≠ none) ∧
      (req.length = 0 → (∀ cl off, (logRead cl off 0).1 = Rc.success) →
        c.logAvailable n.clientId = true → done.coverBegin ≠ none) := by
  obtain ⟨reqOffset,extOffset,len,hcov,hzero⟩ := getExtentCoverage_of_meets h
  unfold serveExtent
  rw [hcov]
  refine ⟨_,rfl,?_⟩
  dsimp only
  split
  · split
    · refine ⟨fun _ => coverage_counted _ _ _,fun _ => ?_,fun _ _ _ => ?_⟩
      · rw [coverage_begin]
        exact some_ne_none _
      · rw [coverage_begin]
        exact some_ne_none _
    · next hfail =>
      refine ⟨fun hc => hc,fun hb => hb,fun hlen hok _ => ?_⟩
      rw [hzero hlen] at hfail
      exact absurd (hok _ _) hfail
  · next hno => exact ⟨fun hc => hc,fun hb => hb,fun _ _ hav => absurd hav hno⟩

theorem serveLocal_spec {segs : List SegNode} (h : ∀ n ∈ segs, Meets req n) :
    ∃ done, serveLocal c logRead segs req = some done ∧ (req.Counted → done.Counted) ∧
      (req.coverBegin ≠ none → done.coverBegin ≠ none) ∧
      (req.length = 0 → (∀ cl off, (logRead cl off 0).1 = Rc.success) →
        (∃ n ∈ segs, c.logAvailable n.clientId = true) → done.coverBegin ≠ none) := by
  induction segs generalizing req with
  | nil =>
    refine ⟨req,rfl,id,id,?_⟩
    rintro - - ⟨n,hn,-⟩
    cases hn
  | cons n rest ih =>
    obtain ⟨u,hu,hucount,hukeep,hucover⟩ := serveExtent_spec c logRead (h n mem_cons_self)
    have huid := serveExtent_ident hu
    obtain ⟨d,hd,hcount,hkeep,hcover⟩ := ih fun k hk => (h k (mem_cons_of_mem _ hk)).of_ident huid
    refine ⟨d,by simp [serveLocal,hu,hd],fun hc => hcount (hucount hc),
      fun hb => hkeep (hukeep hb),?_⟩
    intro hlen hok hav
    have hulen : u.length = 0 := by
      simp only [ReadReq.ident,Prod.mk.injEq] at huid
      omega
    obtain ⟨k,hk,havail⟩ := hav
    cases mem_cons.mp hk with
    | inl heq =>
      subst heq
      exact hkeep (hucover hlen hok havail)
    | inr hrest => exact hcover hulen hok ⟨k,hrest,havail⟩

theorem serviceLocalReqs_isSome (hlog : ∀ i cl off, (env.logRead i cl off 0).1 = Rc.success)
    (hcount : ∀ r ∈ reqs, r.Counted)
    (hfinish : ∀ r ∈ reqs, c.servesLocally r = true → c.Finishes r) :
    ∃ s, serviceLocalReqs c env i reqs = some s ∧
      ∀ r ∈ s.localReqs, r.nread = r.length → r.coverBegin ≠ none := by
  induction reqs generalizing i with
  | nil =>
    refine ⟨⟨[],[],[]⟩,rfl,?_⟩
    intro r hr
    cases hr
  | cons req rest ih =>
    obtain ⟨s,hs,hrest⟩ := ih (fun r hr => hcount r (mem_cons_of_mem _ hr))
      fun r hr => hfinish r (mem_cons_of_mem _ hr)
    rw [serviceLocalReqs]
    split
    · next hlocal =>
      obtain ⟨d,hd,hdcount,-,hdcover⟩ :
          ∃ done, serveLocal c (env.logRead i) (c.segments req) req = some done ∧ _ :=
        serveLocal_spec fun n hn => meets_of_mem_segments hn
      refine ⟨_,by rw [hd,bind_some,hs,map_some],?_⟩
      intro r hr
      cases mem_cons.mp hr with
      | inl heq =>
        subst heq
        have hident := serveLocal_ident hd
        simp only [ReadReq.ident,Prod.mk.injEq] at hident
        cases hfinish req mem_cons_self hlocal with
        | inl hpos =>
          apply covered_of_counted (hdcount (hcount req mem_cons_self))
          omega
        | inr hav =>
          intro _
          by_cases hzero : req.length = 0
          · exact hdcover hzero (hlog i) hav
          · apply covered_of_counted (hdcount (hcount req mem_cons_self))
            · omega
            · assumption
      | inr hmem => exact hrest r hmem
    · rw [hs]
      exact ⟨_,rfl,hrest⟩

end Returns
end UnifyFS.GfidReads
