import UnifyFS.ChunkReads
import UnifyFS.ListUpdates
import Mathlib.Data.List.TakeWhile

/-!
# The read requests of a request manager

The server keeps one request manager per client, with an array of read requests.
A read request stands for one extent of an mread and has an entry for every
server that holds chunks of it. The request is ready when it is submitted,
started when the chunk requests go out, and complete when the responses of all
its servers have been handled; then its slot is released.

The array has as many slots as the initial state says, `UNIFYFS_SERVER_MAX_READS`
in the source. The functions run under the locks of the manager, one at a time.
Left out are the ids of the application and the client, which are those of the
manager, and the chunk lists that were sent out. The number of chunks of a
response is the length of its list.
-/
namespace UnifyFS.ReadRequests
open ChunkReads ListUpdates List Option

inductive ReadreqStatus where
  | null | ready | started | complete
  deriving DecidableEq, Repr

structure Response where
  resps : List ChunkReadResp
  data : List UInt8
  deriving DecidableEq, Repr

/-- `server_chunk_reads_t`, the part of a read that one server is asked for. -/
structure ServerChunkReads where
  rank : ℕ
  status : ReadreqStatus
  totalSz : ℕ
  resp : Option Response
  deriving DecidableEq, Repr

structure ServerReadReq extends ReadTarget where
  status : ReadreqStatus
  inUse : Bool
  reqNdx : ℕ
  remoteReads : List ServerChunkReads
  deriving DecidableEq, Repr

namespace ServerReadReq

def empty : ServerReadReq := ⟨⟨0,0,0⟩,.null,false,0,[]⟩

def isFree (q : ServerReadReq) : Bool := q.reqNdx == 0 && !q.inUse

def reserve (i : ℕ) (q : ServerReadReq) : ServerReadReq := { q with reqNdx := i, inUse := true }

/-- `rm_submit_read_request` copies the request into the reserved slot. -/
def fill (t : ReadTarget) (remoteReads : List ServerChunkReads) (q : ServerReadReq) :
    ServerReadReq :=
  { q with toReadTarget := t, remoteReads := remoteReads, status := .ready }

def start (q : ServerReadReq) : ServerReadReq :=
  if q.inUse = true ∧ q.status = .ready then
    { q with
      status := .started
      remoteReads := q.remoteReads.map fun r => { r with status := .started } }
  else q

def post (j bulkSz : ℕ) (resp : Response) (q : ServerReadReq) : ServerReadReq :=
  { q with
    remoteReads := q.remoteReads.modify j fun r =>
      { r with resp := some resp, totalSz := bulkSz } }

def finishServer (j : ℕ) (q : ServerReadReq) : ServerReadReq :=
  { q with
    remoteReads := q.remoteReads.modify j fun r =>
      { r with resp := none, status := .complete } }

def isComplete (r : ServerChunkReads) : Bool := r.status == .complete

def completedRemoteReads (q : ServerReadReq) : ℕ :=
  (q.remoteReads.takeWhile isComplete).length

theorem completedRemoteReads_eq_iff (q : ServerReadReq) :
    q.completedRemoteReads = q.remoteReads.length ↔ ∀ r ∈ q.remoteReads, r.status = .complete := by
  unfold completedRemoteReads
  constructor
  · intro h r hr
    have hall := takeWhile_prefix (l := q.remoteReads) isComplete
    rw [← hall.eq_of_length h] at hr
    have hcomplete := mem_takeWhile_imp hr
    exact eq_of_beq hcomplete
  · intro h
    rw [takeWhile_eq_self_iff.mpr]
    intro r hr
    exact beq_iff_eq.mpr (h r hr)

end ServerReadReq

open ServerReadReq

structure Reqmgr where
  readReqs : List ServerReadReq
  numReadReqs : ℕ
  nextRdreqNdx : ℕ
  deriving DecidableEq, Repr

def Reqmgr.init (maxReads : ℕ) : Reqmgr := ⟨List.replicate maxReads .empty,0,0⟩

/-- The slot reserved, if any. There is no result if the assertion on the next slot
fails. A search without a free slot would end at the last slot. -/
def rmReserveReadReq (rm : Reqmgr) : Option (Option ℕ × Reqmgr) :=
  let maxReads := rm.readReqs.length
  if rm.numReadReqs < maxReads then
    if rm.nextRdreqNdx < maxReads - 1 then
      let i := rm.nextRdreqNdx
      if (rm.readReqs[i]?).any isFree then
        some (some i,⟨rm.readReqs.modify i (.reserve i),rm.numReadReqs + 1,i + 1⟩)
      else none
    else
      match rm.readReqs.findIdx? isFree with
      | some i =>
        some (some i,
          ⟨rm.readReqs.modify i (.reserve i),rm.numReadReqs + 1,rm.nextRdreqNdx⟩)
      | none =>
        let use := fun q : ServerReadReq => { q with inUse := true }
        some (some (maxReads - 1),
          ⟨rm.readReqs.modify (maxReads - 1) use,rm.numReadReqs + 1,rm.nextRdreqNdx⟩)
  else some (none,rm)

def releaseReadReq (rm : Reqmgr) (i : ℕ) (q : ServerReadReq) : Reqmgr :=
  let next := if q.reqNdx + 1 = rm.nextRdreqNdx then rm.nextRdreqNdx - 1 else rm.nextRdreqNdx
  let num := rm.numReadReqs - 1
  ⟨rm.readReqs.modify i fun _ => .empty,num,if num = 0 then 0 else next⟩

/-- The request arrives with a new entry for each of its servers: a rank and the
size of the data asked for. -/
def rmSubmitReadRequest (rm : Reqmgr) (t : ReadTarget) (servers : List (ℕ × ℕ)) :
    Option (Rc × Reqmgr) :=
  (rmReserveReadReq rm).map fun
    | (none,rm) => (Rc.failure,rm)
    | (some i,rm) =>
      let remoteReads := servers.map fun (rank,size) => ⟨rank,.null,size,none⟩
      (Rc.success,{ rm with readReqs := rm.readReqs.modify i (.fill t remoteReads) })

def rmRequestRemoteChunks (rm : Reqmgr) : Reqmgr :=
  { rm with readReqs := rm.readReqs.map ServerReadReq.start }

def rmPostChunkReadResponses (rm : Reqmgr) (reqId rank bulkSz : ℕ) (resp : Response) :
    Rc × Reqmgr :=
  match (rm.readReqs[reqId]?).bind fun q => q.remoteReads.findIdx? fun r => r.rank == rank with
  | some j => (Rc.success,{ rm with readReqs := rm.readReqs.modify reqId (.post j bulkSz resp) })
  | none => (Rc.failure,rm)

/-- Handles the response of server `j`: the code, the request and the messages to the
client. There is no result without a response or if an assertion fails. -/
def rmHandleChunkReadResponses (rpc : ℕ → RpcOutcome) (q : ServerReadReq) (j : ℕ) :
    Option (Rc × ServerReadReq × List Sent) :=
  (q.remoteReads[j]?).bind fun serverChunks => serverChunks.resp.bind fun responses =>
    if serverChunks.status ≠ .started then some (Rc.einval,q,[])
    else if serverChunks.totalSz = 0 then some (Rc.einval,q,[])
    else
      (sendChunks rpc q.toReadTarget 0 responses.resps responses.data Rc.success).map
        fun (ret,sents) =>
          let q := q.finishServer j
          let sent := sents.flatten
          if q.completedRemoteReads = q.remoteReads.length then
            let errcode := if ret ≠ Rc.success then ret else 0
            let outcome := rpc sent.length
            let ret := if outcome.rc ≠ Rc.success then outcome.rc else ret
            (ret,{ q with status := .complete },
              sent ++ [⟨.complete q.clientMread q.clientReadNdx errcode,outcome⟩])
          else (ret,q,sent)

section Process
variable (rpc : ℕ → RpcOutcome)

/-- The loop of `rm_process_remote_chunk_responses` over the servers of a started
request, `k` messages into the call. -/
def processServers : List ℕ → ℕ → ServerReadReq → Rc → Option (Rc × ServerReadReq × List Sent)
  | [], _, q, ret => some (ret,q,[])
  | j :: js, k, q, ret =>
    match (q.remoteReads[j]?).bind ServerChunkReads.resp with
    | none => processServers js k q ret
    | some _ =>
      (rmHandleChunkReadResponses (fun n => rpc (k + n)) q j).bind fun (rc,q,sent) =>
        let ret := if rc ≠ Rc.success then rc else ret
        (processServers js (k + sent.length) q ret).map fun (ret,q,rest) => (ret,q,sent ++ rest)

def processReadReqs : List ℕ → ℕ → Reqmgr → Rc → Option (Rc × Reqmgr × List Sent)
  | [], _, rm, ret => some (ret,rm,[])
  | i :: is, k, rm, ret =>
    match rm.readReqs[i]? with
    | none => processReadReqs is k rm ret
    | some q =>
      if q.inUse = false then processReadReqs is k rm ret
      else if q.status = .started then
        (processServers rpc (List.range q.remoteReads.length) k q ret).bind
          fun (ret,q,sent) =>
            let rm := { rm with readReqs := rm.readReqs.modify i fun _ => q }
            (processReadReqs is (k + sent.length) rm ret).map
              fun (ret,rm,rest) => (ret,rm,sent ++ rest)
      else if q.status = .complete then processReadReqs is k (releaseReadReq rm i q) ret
      else processReadReqs is k rm ret

def rmProcessRemoteChunkResponses (rm : Reqmgr) : Option (Rc × Reqmgr × List Sent) :=
  processReadReqs rpc (List.range rm.readReqs.length) 0 rm Rc.success

end Process

namespace ServerReadReq

def IsOpen (q : ServerReadReq) : Prop := q.inUse = true ∧ q.status ≠ .complete

/-- A slot that is not in use is cleared, and a complete request has complete parts. -/
structure Sound (q : ServerReadReq) : Prop where
  idle : q.inUse = false → q = .empty
  finished : q.status = .complete → ∀ r ∈ q.remoteReads, r.status = .complete

theorem empty_sound : empty.Sound := ⟨fun _ => rfl,fun h => by cases h⟩

variable {q : ServerReadReq} {j : ℕ}

theorem Sound.start (h : q.Sound) : q.start.Sound := by
  unfold ServerReadReq.start
  split
  · next hready => exact ⟨fun hidle => by simp [hready.1] at hidle,fun hdone => by cases hdone⟩
  · exact h

theorem Sound.post (h : q.Sound) (bulkSz : ℕ) (resp : Response) : (q.post j bulkSz resp).Sound := by
  constructor
  · intro hidle
    rw [h.idle hidle]
    simp [ServerReadReq.post,empty]
  · intro hdone r hr
    cases of_mem_modify hr with
    | inl hold => exact h.finished hdone r hold
    | inr hnew =>
      obtain ⟨r',hr',rfl⟩ := hnew
      exact h.finished hdone r' hr'

/-- All other parts of the request are complete. -/
def IsLast (q : ServerReadReq) (j : ℕ) : Prop :=
  ∀ (k : ℕ) (r : ServerChunkReads), k ≠ j → q.remoteReads[k]? = some r → r.status = .complete

theorem mem_finishServer_complete (h : q.IsLast j) :
    ∀ r ∈ (q.finishServer j).remoteReads, r.status = .complete := by
  intro r hr
  obtain ⟨k,hk⟩ := mem_iff_getElem?.mp hr
  change (q.remoteReads.modify j _)[k]? = some r at hk
  rw [getElem?_modify_ite] at hk
  split_ifs at hk with hjk
  · obtain ⟨r',-,rfl⟩ := map_eq_some_iff.mp hk
    rfl
  · exact h k r (Ne.symm hjk) hk

theorem completedRemoteReads_finishServer :
    (q.finishServer j).completedRemoteReads = (q.finishServer j).remoteReads.length ↔
      q.IsLast j := by
  rw [completedRemoteReads_eq_iff]
  constructor
  · intro h k r hkj hk
    apply h r
    apply mem_of_getElem?
    change (q.remoteReads.modify j _)[k]? = some r
    rw [getElem?_modify_ite,if_neg (Ne.symm hkj)]
    exact hk
  · exact mem_finishServer_complete

theorem Sound.isOpen (h : q.Sound) (huse : q.inUse = true) {r : ServerChunkReads}
    (hr : q.remoteReads[j]? = some r) (hstatus : r.status ≠ .complete) : q.IsOpen := by
  refine ⟨huse,fun hdone => hstatus ?_⟩
  exact h.finished hdone r (mem_of_getElem? hr)

end ServerReadReq

variable {rpc : ℕ → RpcOutcome} {q q' : ServerReadReq} {j : ℕ} {ret : Rc} {sent : List Sent}
  {rm rm' : Reqmgr} {t : ReadTarget} {servers : List (ℕ × ℕ)} {rc : Rc}

section
variable (h : rmHandleChunkReadResponses rpc q j = some (ret,q',sent))
include h

/-- What handling a response may do. Either nothing, or the response of a started
part is forwarded; the messages sent are then those of its chunks, and a completion
behind them if no other part is left. -/
theorem rmHandleChunkReadResponses_cases : (q' = q ∧ sent = [] ∧
      ∃ r, q.remoteReads[j]? = some r ∧ (r.status ≠ .started ∨ r.totalSz = 0)) ∨
    ∃ r resp rc sents, q.remoteReads[j]? = some r ∧ r.resp = some resp ∧ r.status = .started ∧
      r.totalSz ≠ 0 ∧
      sendChunks rpc q.toReadTarget 0 resp.resps resp.data Rc.success = some (rc,sents) ∧
      (q.IsLast j ∧ q' = { q.finishServer j with status := .complete } ∧
          (∃ o, sent = sents.flatten ++ [⟨.complete q.clientMread q.clientReadNdx rc,o⟩]) ∨
        ¬ q.IsLast j ∧ q' = q.finishServer j ∧ sent = sents.flatten) := by
  obtain ⟨r,hr,h⟩ := bind_eq_some_iff.mp h
  obtain ⟨resp,hresp,h⟩ := bind_eq_some_iff.mp h
  split at h
  · next hstatus =>
    cases h
    exact .inl ⟨rfl,rfl,r,hr,.inl hstatus⟩
  · next hstatus =>
    split at h
    · next hsize =>
      cases h
      exact .inl ⟨rfl,rfl,r,hr,.inr hsize⟩
    · next hsize =>
      obtain ⟨⟨rc,sents⟩,hsend,h⟩ := map_eq_some_iff.mp h
      refine .inr ⟨r,resp,rc,sents,hr,hresp,not_not.mp hstatus,hsize,hsend,?_⟩
      have herr : (if rc ≠ Rc.success then rc else 0) = rc := by
        split_ifs with hrc
        · rfl
        · exact (not_not.mp hrc).symm
      dsimp only at h
      rw [herr] at h
      split at h
      · next hall =>
        cases h
        exact .inl ⟨completedRemoteReads_finishServer.mp hall,rfl,_,rfl⟩
      · next hall =>
        cases h
        exact .inr ⟨fun hlast => hall (completedRemoteReads_finishServer.mpr hlast),rfl,rfl⟩

theorem rmHandleChunkReadResponses_inUse : q'.inUse = q.inUse := by
  rcases rmHandleChunkReadResponses_cases h with ⟨rfl,-⟩ | ⟨_,_,_,_,-,-,-,-,-,hend⟩
  · rfl
  · rcases hend with ⟨-,rfl,-⟩ | ⟨-,rfl,-⟩ <;> rfl

theorem rmHandleChunkReadResponses_read : ∀ x ∈ sent, x.msg.read = q.read := by
  rcases rmHandleChunkReadResponses_cases h with ⟨-,rfl,-⟩ | ⟨r,resp,rc,sents,-,-,-,-,hsend,hend⟩
  · simp
  · have hread : ∀ x ∈ sents.flatten, x.msg.read = q.read :=
      fun x hx => ((sendChunks_spec hsend).1 x hx).1
    rcases hend with ⟨-,-,o,rfl⟩ | ⟨-,-,rfl⟩
    · rw [forall_mem_append,forall_mem_singleton]
      exact ⟨hread,rfl⟩
    · exact hread

end

theorem rmHandleChunkReadResponses_sound (hq : q.Sound) (huse : q.inUse = true)
    (h : rmHandleChunkReadResponses rpc q j = some (ret,q',sent)) : q'.Sound := by
  rcases rmHandleChunkReadResponses_cases h with ⟨rfl,-⟩ | ⟨_,_,_,_,-,-,-,-,-,hend⟩
  · exact hq
  · have hused := Bool.ne_false_iff.mpr huse
    rcases hend with ⟨hall,rfl,-⟩ | ⟨-,rfl,-⟩
    · exact ⟨fun h => absurd h hused,fun _ => mem_finishServer_complete hall⟩
    · refine ⟨fun h => absurd h hused,fun hdone => mem_finishServer_complete ?_⟩
      exact fun k r _ hk => hq.finished hdone r (mem_of_getElem? hk)

namespace Reqmgr

structure Sound (rm : Reqmgr) : Prop where
  counted : rm.numReadReqs = rm.readReqs.countP ServerReadReq.inUse
  sound : ∀ q ∈ rm.readReqs, q.Sound

theorem init_sound (maxReads : ℕ) : (init maxReads).Sound := by
  constructor
  · simp [init,countP_replicate,ServerReadReq.empty]
  · intro q hq
    rw [eq_of_mem_replicate hq]
    exact empty_sound

variable {rm : Reqmgr} {i next : ℕ} {q : ServerReadReq} {f : ServerReadReq → ServerReadReq}
  {o : Option ℕ} {rm' : Reqmgr}

theorem Sound.modify (h : rm.Sound) {num : ℕ} (hf : ∀ q, rm.readReqs[i]? = some q → (f q).Sound)
    (hnum : num = (rm.readReqs.modify i f).countP ServerReadReq.inUse) :
    Sound ⟨rm.readReqs.modify i f,num,next⟩ := by
  refine ⟨hnum,fun q hq => ?_⟩
  obtain ⟨k,hk⟩ := mem_iff_getElem?.mp hq
  cases of_getElem?_modify hk with
  | inl hold => exact h.sound q (mem_of_getElem? hold)
  | inr hnew =>
    obtain ⟨rfl,p,hp,rfl⟩ := hnew
    exact hf p hp

theorem Sound.modify_used (h : rm.Sound) (hi : rm.readReqs[i]? = some q) (hf : (f q).Sound)
    (huse : (f q).inUse = q.inUse) : Sound { rm with readReqs := rm.readReqs.modify i f } := by
  apply h.modify
  · intro p hp
    obtain rfl := some.inj (hi.symm.trans hp)
    exact hf
  · have hcount := countP_modify (p := ServerReadReq.inUse) (f := f) hi
    rw [huse] at hcount
    rw [h.counted]
    exact (Nat.add_right_cancel hcount).symm

theorem Sound.start (h : rm.Sound) : (rmRequestRemoteChunks rm).Sound := by
  constructor
  · have huse : ServerReadReq.inUse ∘ ServerReadReq.start = ServerReadReq.inUse := by
      funext q
      simp only [Function.comp,ServerReadReq.start]
      split <;> rfl
    rw [rmRequestRemoteChunks,countP_map,huse]
    exact h.counted
  · exact forall_mem_map.mpr fun p hp => (h.sound p hp).start

theorem post_cases (rm : Reqmgr) (reqId rank bulkSz : ℕ) (resp : Response) :
    (rmPostChunkReadResponses rm reqId rank bulkSz resp).2 = rm ∨
      ∃ q j, rm.readReqs[reqId]? = some q ∧ (rmPostChunkReadResponses rm reqId rank bulkSz resp).2 =
          { rm with readReqs := rm.readReqs.modify reqId (.post j bulkSz resp) } := by
  unfold rmPostChunkReadResponses
  split
  · next j hj =>
    obtain ⟨q,hq,-⟩ := bind_eq_some_iff.mp hj
    exact .inr ⟨q,j,hq,rfl⟩
  · exact .inl rfl

theorem Sound.release (h : rm.Sound) (hi : rm.readReqs[i]? = some q) (huse : q.inUse = true) :
    (releaseReadReq rm i q).Sound := by
  apply h.modify
  · exact fun _ _ => empty_sound
  · have hcount := countP_modify (p := ServerReadReq.inUse) (f := fun _ => .empty) hi
    rw [if_pos huse,if_neg (by decide),← h.counted] at hcount
    omega

theorem reserve_eq_none_iff (hres : rmReserveReadReq rm = some (o,rm')) :
    o = none ↔ rm.readReqs.length ≤ rm.numReadReqs := by
  unfold rmReserveReadReq at hres
  dsimp only at hres
  split_ifs at hres with hnum
  · cases hres
    exact iff_of_false (some_ne_none _) (not_le.mpr hnum)
  · split at hres <;> cases hres <;> exact iff_of_false (some_ne_none _) (not_le.mpr hnum)
  · cases hres
    exact iff_of_true rfl (not_lt.mp hnum)

theorem reserve_cases (h : rm.Sound) (hres : rmReserveReadReq rm = some (o,rm')) :
    (o = none ∧ rm' = rm) ∨
    ∃ i q next, o = some i ∧ rm.readReqs[i]? = some q ∧ q.inUse = false ∧
      rm' = ⟨rm.readReqs.modify i (.reserve i),rm.numReadReqs + 1,next⟩ := by
  unfold rmReserveReadReq at hres
  dsimp only at hres
  split at hres
  · next hnum =>
    split at hres
    · split at hres
      · next hfree =>
        cases hres
        cases hq : rm.readReqs[rm.nextRdreqNdx]? with
        | none => simp [hq] at hfree
        | some q =>
          rw [hq] at hfree
          exact .inr ⟨_,q,_,rfl,hq,by simpa using (Bool.and_eq_true_iff.mp hfree).2,rfl⟩
      · cases hres
    · split at hres
      · next i hfind =>
        cases hres
        obtain ⟨hi,hfree,-⟩ := findIdx?_eq_some_iff_getElem.mp hfind
        exact .inr ⟨i,_,_,rfl,getElem?_eq_getElem hi,
          by simpa using (Bool.and_eq_true_iff.mp hfree).2,rfl⟩
      · next hfind =>
        -- a manager that counts fewer requests than slots has a free slot
        have hall : ∀ q ∈ rm.readReqs, q.inUse = true := by
          intro q hq
          by_contra huse
          have hempty := (h.sound q hq).idle (Bool.eq_false_iff.mpr huse)
          have hfree := findIdx?_eq_none_iff.mp hfind q hq
          rw [hempty] at hfree
          cases hfree
        rw [h.counted,countP_eq_length.mpr hall] at hnum
        exact absurd hnum (Nat.lt_irrefl _)
  · cases hres
    exact .inl ⟨rfl,rfl⟩

end Reqmgr

def submitted (i : ℕ) (t : ReadTarget) (servers : List (ℕ × ℕ)) : ServerReadReq :=
  ⟨t,.ready,true,i,servers.map fun (rank,size) => ⟨rank,.null,size,none⟩⟩

theorem rmSubmitReadRequest_cases (h : rm.Sound)
    (hsub : rmSubmitReadRequest rm t servers = some (rc,rm')) :
    rm' = rm ∨ ∃ i q next, rm.readReqs[i]? = some q ∧ q.inUse = false ∧
      rm' = ⟨rm.readReqs.modify i fun _ => submitted i t servers,rm.numReadReqs + 1,next⟩ := by
  obtain ⟨⟨o,rm₁⟩,hres,hout⟩ := map_eq_some_iff.mp hsub
  rcases Reqmgr.reserve_cases h hres with ⟨rfl,rfl⟩ | ⟨i,q,next,rfl,hi,huse,rfl⟩
  · cases hout
    exact .inl rfl
  · cases hout
    refine .inr ⟨i,q,next,hi,huse,?_⟩
    rw [modify_modify_eq]
    rfl

theorem rmSubmitReadRequest_sound (h : rm.Sound)
    (hsub : rmSubmitReadRequest rm t servers = some (rc,rm')) :
    rm'.Sound := by
  rcases rmSubmitReadRequest_cases h hsub with rfl | ⟨i,q,next,hi,huse,rfl⟩
  · exact h
  · apply h.modify
    · exact fun _ _ => ⟨fun hidle => (by cases hidle),fun hdone => by cases hdone⟩
    · have hcount := countP_modify (p := ServerReadReq.inUse)
        (f := fun _ => submitted i t servers) hi
      rw [huse,← h.counted] at hcount
      exact hcount.symm

end UnifyFS.ReadRequests
