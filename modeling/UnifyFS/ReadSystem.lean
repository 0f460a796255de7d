import UnifyFS.ClientRead
import UnifyFS.GuardedRuns
import UnifyFS.ReadRequests

/-!
# Runs of a request manager and its client

The request manager of one client takes one mread after another apart into read
requests, sends out the chunk requests, receives responses in any order and
forwards them. Its messages reach the client or are lost. The log of all messages
is kept with the state, so that what a server has said about a read can be
compared over a whole run.

One mread of the client is followed; the client counts the completions that
arrive for it. Data messages do not touch the counters of the client
(`mreadReqDataRpc_cases`) and are not applied to its buffers here.
-/
namespace UnifyFS.ReadSystem
open ClientRead ChunkReads ReadRequests GuardedRuns ListUpdates List Option

/-- `progress` is the extent of each mread that `submit_read_request` takes next. -/
structure System where
  rm : Reqmgr
  progress : ℕ → ℕ
  client : ClientMread
  sent : List Sent

def receive (m : ClientMread) (x : Sent) : ClientMread :=
  match x.msg with
  | .data _ _ _ _ => m
  | .complete mread readNdx error =>
    if x.outcome.delivered = true ∧ mread = m.id then (mreadReqCompleteRpc m readNdx error).2
    else m

namespace System

def init (maxReads : ℕ) (client : ClientMread) : System :=
  ⟨.init maxReads,fun _ => 0,client,[]⟩

def deliver (s : System) (l : List Sent) : System :=
  { s with client := l.foldl receive s.client, sent := s.sent ++ l }

def nextRead (s : System) (mread : ℕ) : System :=
  { s with progress := Function.update s.progress mread (s.progress mread + 1) }

/-- The mread that is followed has as many extents as the client asked for. -/
def hasExtent (s : System) (mread : ℕ) : Bool :=
  mread != s.client.id || decide (s.progress mread < s.client.nReads)

def putReq (s : System) (i : ℕ) (q : ServerReadReq) : System :=
  { s with rm := { s.rm with readReqs := s.rm.readReqs.modify i fun _ => q } }

end System

/-- An extent of an mread is submitted, or found to have no data; the manager sends
out chunk requests; a response is posted or handled; a slot is released. -/
inductive ReadOp where
  | submit (mread extentOffset : ℕ) (servers : List (ℕ × ℕ))
  | noData (mread : ℕ) (outcome : RpcOutcome)
  | start
  | post (reqId rank bulkSz : ℕ) (resp : Response)
  | handle (i j : ℕ) (rpc : ℕ → RpcOutcome)
  | release (i : ℕ)

def readStep (s : System) : ReadOp → Option System
  | .submit mread extentOffset servers =>
    if s.hasExtent mread then
      (rmSubmitReadRequest s.rm ⟨mread,s.progress mread,extentOffset⟩ servers).map fun (_,rm) =>
        { s.nextRead mread with rm := rm }
    else none
  | .noData mread outcome =>
    if s.hasExtent mread then
      some ((s.nextRead mread).deliver
        [⟨.complete mread (s.progress mread) Rc.enodata,outcome⟩])
    else none
  | .start => some { s with rm := rmRequestRemoteChunks s.rm }
  | .post reqId rank bulkSz resp =>
    some { s with rm := (rmPostChunkReadResponses s.rm reqId rank bulkSz resp).2 }
  | .handle i j rpc =>
    (s.rm.readReqs[i]?).bind fun q =>
      if q.inUse = true then
        (rmHandleChunkReadResponses rpc q j).map fun (_,q,sent) => (s.putReq i q).deliver sent
      else none
  | .release i =>
    (s.rm.readReqs[i]?).bind fun q =>
      if q.inUse = true ∧ q.status = .complete then
        some { s with rm := releaseReadReq s.rm i q }
      else none

variable {s u : System} {e : ReadOp}

theorem readStep_handle {i j : ℕ} {rpc : ℕ → RpcOutcome}
    (h : readStep s (.handle i j rpc) = some u) :
    ∃ q ret q' sent, s.rm.readReqs[i]? = some q ∧ q.inUse = true ∧
      rmHandleChunkReadResponses rpc q j = some (ret,q',sent) ∧
      u = (s.putReq i q').deliver sent := by
  obtain ⟨q,hq,h⟩ := bind_eq_some_iff.mp h
  split_ifs at h with huse
  obtain ⟨⟨ret,q',sent⟩,hhandle,rfl⟩ := map_eq_some_iff.mp h
  exact ⟨q,ret,q',sent,hq,huse,hhandle,rfl⟩

theorem readStep_log (h : readStep s e = some u) : (u.sent = s.sent ∧ u.client = s.client) ∨
    (∃ mread outcome, e = .noData mread outcome ∧
      u = (s.nextRead mread).deliver [⟨.complete mread (s.progress mread) Rc.enodata,outcome⟩]) ∨
    ∃ i j rpc q ret q' sent, e = .handle i j rpc ∧ s.rm.readReqs[i]? = some q ∧ q.inUse = true ∧
      rmHandleChunkReadResponses rpc q j = some (ret,q',sent) ∧
      u = (s.putReq i q').deliver sent := by
  cases e with
  | submit mread extentOffset servers =>
    rw [readStep] at h
    split_ifs at h
    obtain ⟨_,-,rfl⟩ := map_eq_some_iff.mp h
    exact .inl ⟨rfl,rfl⟩
  | noData mread outcome =>
    rw [readStep] at h
    split_ifs at h
    cases h
    exact .inr (.inl ⟨mread,outcome,rfl,rfl⟩)
  | start =>
    cases h
    exact .inl ⟨rfl,rfl⟩
  | post reqId rank bulkSz resp =>
    cases h
    exact .inl ⟨rfl,rfl⟩
  | handle i j rpc =>
    obtain ⟨q,ret,q',sent,hstep⟩ := readStep_handle h
    exact .inr (.inr ⟨i,j,rpc,q,ret,q',sent,rfl,hstep⟩)
  | release i =>
    obtain ⟨q,-,h⟩ := bind_eq_some_iff.mp h
    split_ifs at h
    cases h
    exact .inl ⟨rfl,rfl⟩

theorem readStep_sent (h : readStep s e = some u) : s.sent <+: u.sent := by
  rcases readStep_log h with ⟨hsent,-⟩ | ⟨_,_,-,rfl⟩ | ⟨_,_,_,_,_,_,_,-,-,-,-,rfl⟩
  · exact hsent ▸ prefix_refl s.sent
  · exact prefix_append _ _
  · exact prefix_append _ _

/-! A pass of `rm_process_remote_chunk_responses` is a run of single steps. -/

def ReadOp.inPass : ReadOp → Bool
  | .handle _ _ _ => true
  | .release _ => true
  | _ => false

section Pass
variable {s : System} {i k : ℕ} {q q' q₁ q₂ : ServerReadReq} {rpc : ℕ → RpcOutcome} {ret ret' : Rc}
  {sent l₁ l₂ : List Sent}

/-- Single steps, all of them of a pass, from one state to another. -/
def PassRun (s u : System) : Prop :=
  ∃ es, Run readStep (fun _ _ => True) s es u ∧ ∀ e ∈ es, e.inPass = true

theorem PassRun.refl (s : System) : PassRun s s := ⟨[],.nil s,by simp⟩

theorem PassRun.step {u v : System} {e : ReadOp} (he : e.inPass = true)
    (hs : readStep s e = some u) (h : PassRun u v) : PassRun s v := by
  obtain ⟨es,hrun,hall⟩ := h
  exact ⟨e :: es,.cons trivial hs hrun,forall_mem_cons.mpr ⟨he,hall⟩⟩

theorem PassRun.trans {u v : System} (h₁ : PassRun s u) (h₂ : PassRun u v) : PassRun s v := by
  obtain ⟨es₁,hrun₁,hall₁⟩ := h₁
  obtain ⟨es₂,hrun₂,hall₂⟩ := h₂
  exact ⟨es₁ ++ es₂,hrun₁.append hrun₂,forall_mem_append.mpr ⟨hall₁,hall₂⟩⟩

theorem deliver_nil (s : System) : s.deliver [] = s := by
  simp [System.deliver]

theorem deliver_deliver (s : System) : (s.deliver l₁).deliver l₂ = s.deliver (l₁ ++ l₂) := by
  simp [System.deliver]

theorem putReq_putReq (s : System) :
    ((s.putReq i q₁).deliver l₁).putReq i q₂ = (s.putReq i q₂).deliver l₁ := by
  simp only [System.putReq,System.deliver,modify_modify_eq]
  rfl

theorem putReq_self (hi : s.rm.readReqs[i]? = some q) : s.putReq i q = s := by
  have hsame : (s.rm.readReqs.modify i fun _ => q) = s.rm.readReqs := by
    apply ext_getElem?
    intro j
    rw [getElem?_modify_ite]
    split_ifs with hij
    · rw [← hij,hi]
      rfl
    · rfl
  rw [System.putReq,hsame]

theorem getElem?_putReq (hi : s.rm.readReqs[i]? = some q) :
    ((s.putReq i q').deliver sent).rm.readReqs[i]? = some q' := by
  change (s.rm.readReqs.modify i fun _ => q')[i]? = some q'
  rw [getElem?_modify_ite,if_pos rfl,hi]
  rfl

theorem processServers_run {js : List ℕ} (hi : s.rm.readReqs[i]? = some q)
    (huse : q.inUse = true) (h : processServers rpc js k q ret = some (ret',q',sent)) :
    PassRun s ((s.putReq i q').deliver sent) := by
  induction js generalizing s k q ret sent with
  | nil =>
    cases h
    rw [putReq_self hi,deliver_nil]
    exact .refl s
  | cons j js ih =>
    rw [processServers] at h
    split at h
    · exact ih hi huse h
    · obtain ⟨⟨rc,q₁,l₁⟩,hhandle,h⟩ := bind_eq_some_iff.mp h
      obtain ⟨⟨ret₂,q₂,l₂⟩,hrest,hout⟩ := map_eq_some_iff.mp h
      cases hout
      have hstep : readStep s (.handle i j fun n => rpc (k + n)) =
          some ((s.putReq i q₁).deliver l₁) := by
        rw [readStep,hi,bind_some,if_pos huse,hhandle]
        rfl
      have huse₁ := (rmHandleChunkReadResponses_inUse hhandle).trans huse
      have hrun := ih (s := (s.putReq i q₁).deliver l₁) (getElem?_putReq hi) huse₁ hrest
      rw [putReq_putReq,deliver_deliver] at hrun
      exact .step rfl hstep hrun

theorem processReadReqs_run {is : List ℕ} {rm : Reqmgr}
    (h : processReadReqs rpc is k s.rm ret = some (ret',rm,sent)) :
    PassRun s (System.deliver { s with rm := rm } sent) := by
  induction is generalizing s k ret sent with
  | nil =>
    cases h
    rw [deliver_nil]
    exact .refl s
  | cons i is ih =>
    rw [processReadReqs] at h
    split at h
    · exact ih h
    · next q hi =>
      split_ifs at h with huse hstarted hdone
      · exact ih h
      · obtain ⟨⟨ret₁,q₁,l₁⟩,hservers,h⟩ := bind_eq_some_iff.mp h
        obtain ⟨⟨ret₂,rm₂,l₂⟩,hrest,hout⟩ := map_eq_some_iff.mp h
        cases hout
        have hrun := processServers_run hi (Bool.ne_false_iff.mp huse) hservers
        have hnext := ih (s := (s.putReq i q₁).deliver l₁) hrest
        have hpass := hrun.trans hnext
        rw [show System.deliver { (s.putReq i q₁).deliver l₁ with rm := rm } l₂ =
          (System.deliver { s with rm := rm } l₁).deliver l₂ from rfl,deliver_deliver] at hpass
        exact hpass
      · have hstep : readStep s (.release i) = some { s with rm := releaseReadReq s.rm i q } := by
          rw [readStep,hi,bind_some,if_pos ⟨Bool.ne_false_iff.mp huse,hdone⟩]
        exact .step rfl hstep (ih h)
      · exact ih h

/-- What a pass over all requests does, single steps can do. -/
theorem process_run {rm : Reqmgr}
    (h : rmProcessRemoteChunkResponses rpc s.rm = some (ret,rm,sent)) :
    PassRun s (System.deliver { s with rm := rm } sent) :=
  processReadReqs_run h

/-- The response for the one chunk of a read has arrived. -/
def answered : System :=
  { System.init 1 ⟨5,[],0,0⟩ with
    rm := ⟨[⟨⟨5,0,0⟩,.started,true,0,[⟨1,.started,1,some ⟨[⟨7,0,1,1⟩],[9]⟩⟩]⟩],1,0⟩ }

theorem process_run_answered : ∃ r,
    rmProcessRemoteChunkResponses (fun _ => .ok) answered.rm = some r ∧ r.2.2.length = 2 ∧
      PassRun answered (System.deliver { answered with rm := r.2.1 } r.2.2) := by
  have hsent : (rmProcessRemoteChunkResponses (fun _ => .ok) answered.rm).map
      (·.2.2.length) = some 2 := by decide
  obtain ⟨r,hr,hlen⟩ := map_eq_some_iff.mp hsent
  exact ⟨r,hr,hlen,process_run hr⟩

end Pass

theorem readStep_sound (h : s.rm.Sound) (hstep : readStep s e = some u) : u.rm.Sound := by
  cases e with
  | submit mread extentOffset servers =>
    rw [readStep] at hstep
    split_ifs at hstep
    obtain ⟨⟨rc,rm⟩,hsub,rfl⟩ := map_eq_some_iff.mp hstep
    exact rmSubmitReadRequest_sound h hsub
  | noData mread outcome =>
    rw [readStep] at hstep
    split_ifs at hstep
    cases hstep
    exact h
  | start =>
    cases hstep
    exact h.start
  | post reqId rank bulkSz resp =>
    cases hstep
    rcases Reqmgr.post_cases s.rm reqId rank bulkSz resp with hsame | ⟨q,j,hq,hpost⟩
    · rw [hsame]
      exact h
    · rw [hpost]
      have hsound := (h.sound q (mem_of_getElem? hq)).post bulkSz resp (j := j)
      exact h.modify_used hq hsound rfl
  | handle i j rpc =>
    obtain ⟨q,ret,q',sent,hi,huse,hh,rfl⟩ := readStep_handle hstep
    exact h.modify_used hi (rmHandleChunkReadResponses_sound
      (h.sound q (mem_of_getElem? hi)) huse hh) (rmHandleChunkReadResponses_inUse hh)
  | release i =>
    obtain ⟨q,hi,hstep⟩ := bind_eq_some_iff.mp hstep
    split_ifs at hstep with hdone
    cases hstep
    exact h.release hi hdone.1

/-! The requests of the manager and the log. Open requests are for different reads,
all of them below the progress of their mread, as is everything said in the log.
About an open read, no message of the kind `P` has been sent. -/

structure Tracked (P : ToClient → Prop) (s : System) : Prop where
  sound : s.rm.Sound
  apart : ∀ (i j : ℕ) (p q : ServerReadReq), s.rm.readReqs[i]? = some p →
    s.rm.readReqs[j]? = some q → p.IsOpen → q.IsOpen → p.read = q.read → i = j
  below : ∀ q ∈ s.rm.readReqs, q.IsOpen → q.clientReadNdx < s.progress q.clientMread
  said : ∀ x ∈ s.sent, x.msg.read.2 < s.progress x.msg.read.1
  silent : ∀ q ∈ s.rm.readReqs, q.IsOpen → ∀ x ∈ s.sent, x.msg.read = q.read → ¬ P x.msg

/-- The open requests of an array were open before, in the same slots. -/
def Kept (l l' : List ServerReadReq) : Prop :=
  ∀ (i : ℕ) (q : ServerReadReq), l'[i]? = some q → q.IsOpen →
    ∃ p : ServerReadReq, l[i]? = some p ∧ p.IsOpen ∧ p.read = q.read

section Kept
variable {l : List ServerReadReq} {i : ℕ} {p : ServerReadReq}
  {f : ServerReadReq → ServerReadReq}

theorem Kept.refl (l : List ServerReadReq) : Kept l l := fun _ q hq ho => ⟨q,hq,ho,rfl⟩

theorem kept_modify (hi : l[i]? = some p) (hf : (f p).IsOpen → p.IsOpen ∧ p.read = (f p).read) :
    Kept l (l.modify i f) := by
  intro k q hk hopen
  cases of_getElem?_modify hk with
  | inl hold => exact ⟨q,hold,hopen,rfl⟩
  | inr hnew =>
    obtain ⟨rfl,p',hp',rfl⟩ := hnew
    obtain rfl := some.inj (hi.symm.trans hp')
    exact ⟨p,hi,hf hopen⟩

theorem kept_start (l : List ServerReadReq) : Kept l (l.map ServerReadReq.start) := by
  intro i q hq hopen
  rw [getElem?_map] at hq
  obtain ⟨p,hp,rfl⟩ := map_eq_some_iff.mp hq
  refine ⟨p,hp,?_⟩
  unfold ServerReadReq.start at hopen ⊢
  split_ifs at hopen ⊢ with hready
  · exact ⟨⟨hready.1,by simp [hready.2]⟩,rfl⟩
  · exact ⟨hopen,rfl⟩

end Kept

namespace Tracked
variable {P : ToClient → Prop} {s : System} {rm : Reqmgr}

theorem init (P : ToClient → Prop) (maxReads : ℕ) (client : ClientMread) :
    Tracked P (.init maxReads client) := by
  have hclosed : ∀ q ∈ (Reqmgr.init maxReads).readReqs, ¬ q.IsOpen := by
    intro q hq hopen
    rw [eq_of_mem_replicate hq] at hopen
    cases hopen.1
  constructor
  · exact Reqmgr.init_sound maxReads
  · intro i j p q hp _ hopen
    exact absurd hopen (hclosed p (mem_of_getElem? hp))
  · intro q hq hopen
    exact absurd hopen (hclosed q hq)
  · exact fun x hx => absurd hx not_mem_nil
  · exact fun q hq hopen => absurd hopen (hclosed q hq)

theorem kept (h : Tracked P s) (hsound : rm.Sound) (hkept : Kept s.rm.readReqs rm.readReqs) :
    Tracked P { s with rm := rm } := by
  constructor
  · exact hsound
  · intro i j p q hp hq hpo hqo hread
    obtain ⟨p',hp',hpo',hpr⟩ := hkept i p hp hpo
    obtain ⟨q',hq',hqo',hqr⟩ := hkept j q hq hqo
    exact h.apart i j p' q' hp' hq' hpo' hqo' (hpr.trans (hread.trans hqr.symm))
  · intro q hq hqo
    obtain ⟨i,hi⟩ := mem_iff_getElem?.mp hq
    obtain ⟨q',hq',hqo',hqr⟩ := hkept i q hi hqo
    have hbelow := h.below q' (mem_of_getElem? hq') hqo'
    change q'.read.2 < s.progress q'.read.1 at hbelow
    rw [hqr] at hbelow
    exact hbelow
  · exact h.said
  · intro q hq hqo x hx hread
    obtain ⟨i,hi⟩ := mem_iff_getElem?.mp hq
    obtain ⟨q',hq',hqo',hqr⟩ := hkept i q hi hqo
    exact h.silent q' (mem_of_getElem? hq') hqo' x hx (hread.trans hqr.symm)

/-- Messages of the kind `P` may be sent about reads that are not open. -/
theorem deliver (h : Tracked P s) {l : List Sent}
    (hsaid : ∀ x ∈ l, x.msg.read.2 < s.progress x.msg.read.1)
    (hclosed : ∀ x ∈ l, P x.msg → ∀ q ∈ s.rm.readReqs, q.IsOpen → x.msg.read ≠ q.read) :
    Tracked P (s.deliver l) := by
  constructor
  · exact h.sound
  · exact h.apart
  · exact h.below
  · exact forall_mem_append.mpr ⟨h.said,hsaid⟩
  · intro q hq hopen x hx hread hP
    rcases mem_append.mp hx with hx | hx
    · exact h.silent q hq hopen x hx hread hP
    · exact hclosed x hx hP q hq hopen hread

theorem progress_le (s : System) (m k : ℕ) : s.progress k ≤ (s.nextRead m).progress k := by
  change s.progress k ≤ Function.update s.progress m (s.progress m + 1) k
  rw [Function.update_apply]
  split_ifs with hk
  · rw [hk]
    exact Nat.le_succ _
  · exact Nat.le_refl _

theorem progress_next (s : System) (m : ℕ) : s.progress m < (s.nextRead m).progress m := by
  change s.progress m < Function.update s.progress m (s.progress m + 1) m
  rw [Function.update_self]
  exact Nat.lt_succ_self _

theorem nextRead (h : Tracked P s) (m : ℕ) : Tracked P (s.nextRead m) := by
  constructor
  · exact h.sound
  · exact h.apart
  · exact fun q hq hopen => Nat.lt_of_lt_of_le (h.below q hq hopen) (progress_le s m _)
  · exact fun x hx => Nat.lt_of_lt_of_le (h.said x hx) (progress_le s m _)
  · exact h.silent

theorem submit (h : Tracked P s) {m i off num next : ℕ} {servers : List (ℕ × ℕ)}
    (hsound : Reqmgr.Sound ⟨s.rm.readReqs.modify i
      fun _ => submitted i ⟨m,s.progress m,off⟩ servers,num,next⟩) : Tracked P { s.nextRead m with
      rm := ⟨s.rm.readReqs.modify i fun _ => submitted i ⟨m,s.progress m,off⟩ servers,
        num,next⟩ } := by
  have hnew : ∀ q ∈ s.rm.readReqs, q.IsOpen → q.read ≠ (m,s.progress m) := by
    intro q hq hopen hread
    have hbelow : q.read.2 < s.progress q.read.1 := h.below q hq hopen
    rw [hread] at hbelow
    exact Nat.lt_irrefl _ hbelow
  have hnext := h.nextRead m
  constructor
  · exact hsound
  · intro j k p q hp hq hpo hqo hread
    rcases of_getElem?_modify hp with hp | ⟨rfl,-,-,rfl⟩
    · rcases of_getElem?_modify hq with hq | ⟨rfl,-,-,rfl⟩
      · exact h.apart j k p q hp hq hpo hqo hread
      · exact absurd hread (hnew p (mem_of_getElem? hp) hpo)
    · rcases of_getElem?_modify hq with hq | ⟨rfl,-,-,rfl⟩
      · exact absurd hread.symm (hnew q (mem_of_getElem? hq) hqo)
      · rfl
  · intro q hq hqo
    rcases of_mem_modify hq with hq | ⟨-,-,rfl⟩
    · exact hnext.below q hq hqo
    · exact progress_next s m
  · exact hnext.said
  · intro q hq hqo x hx hread
    rcases of_mem_modify hq with hq | ⟨-,-,rfl⟩
    · exact h.silent q hq hqo x hx hread
    · have hsaid := h.said x hx
      rw [hread] at hsaid
      exact absurd hsaid (Nat.lt_irrefl _)

theorem handle (h : Tracked P s) {i j : ℕ} {rpc : ℕ → RpcOutcome} {q q' : ServerReadReq} {ret : Rc}
    {sent : List Sent} (hi : s.rm.readReqs[i]? = some q) (huse : q.inUse = true)
    (hh : rmHandleChunkReadResponses rpc q j = some (ret,q',sent)) (hrm : (s.putReq i q').rm.Sound)
    (hP : ∀ r resp, q.remoteReads[j]? = some r → r.resp = some resp →
      ∀ msg, FromChunks q.toReadTarget resp.resps msg → ¬ P msg) :
    Tracked P ((s.putReq i q').deliver sent) := by
  have hq := h.sound.sound q (mem_of_getElem? hi)
  rcases rmHandleChunkReadResponses_cases hh with
    ⟨rfl,rfl,-⟩ | ⟨r,resp,rc,sents,hr,hresp,hstarted,-,hsend,hend⟩
  · apply (h.kept hrm (kept_modify hi fun hopen => ⟨hopen,rfl⟩)).deliver
    · exact fun x hx => absurd hx not_mem_nil
    · exact fun x hx => absurd hx not_mem_nil
  · have hopen := hq.isOpen huse hr (by rw [hstarted]; decide)
    have hread : q'.read = q.read := by
      rcases hend with ⟨-,rfl,-⟩ | ⟨-,rfl,-⟩ <;> rfl
    have hkept : Kept s.rm.readReqs (s.rm.readReqs.modify i fun _ => q') :=
      kept_modify hi fun _ => ⟨hopen,hread.symm⟩
    have hbelow := h.below q (mem_of_getElem? hi) hopen
    have hchunks := (sendChunks_spec hsend).1
    have hquiet : ∀ x ∈ sents.flatten, ¬ P x.msg := fun x hx => hP r resp hr hresp _ (hchunks x hx)
    have hclosed : ∀ x ∈ sent, P x.msg → q'.status = .complete := by
      intro x hx hPx
      rcases hend with ⟨-,rfl,-⟩ | ⟨-,-,rfl⟩
      · rfl
      · exact absurd hPx (hquiet x hx)
    have habout := rmHandleChunkReadResponses_read hh
    apply (h.kept hrm hkept).deliver
    · intro x hx
      rw [habout x hx]
      exact hbelow
    · -- another open request for the read would sit in the same slot
      intro x hx hPx p hp hpo hsame
      obtain ⟨k,hk⟩ := mem_iff_getElem?.mp hp
      obtain ⟨p',hp',hpo',hpr⟩ := hkept k p hk hpo
      have hslot := h.apart i k q p' hi hp' hopen hpo'
        ((habout x hx).symm.trans (hsame.trans hpr.symm))
      change (s.rm.readReqs.modify i fun _ => q')[k]? = some p at hk
      rw [← hslot,getElem?_modify_ite,if_pos rfl,hi] at hk
      have hpq := some.inj hk
      rw [← hpq] at hpo
      exact hpo.2 (hclosed x hx hPx)

theorem step (h : Tracked P s) {e : ReadOp} {u : System} (hs : readStep s e = some u)
    (hP : ∀ i j rpc q r resp, e = .handle i j rpc → s.rm.readReqs[i]? = some q →
      q.remoteReads[j]? = some r → r.resp = some resp →
      ∀ msg, FromChunks q.toReadTarget resp.resps msg → ¬ P msg) : Tracked P u := by
  have hsound := readStep_sound h.sound hs
  cases e with
  | submit mread extentOffset servers =>
    rw [readStep] at hs
    split_ifs at hs
    obtain ⟨⟨rc,rm⟩,hsub,rfl⟩ := map_eq_some_iff.mp hs
    rcases rmSubmitReadRequest_cases h.sound hsub with rfl | ⟨i,q,next,-,-,rfl⟩
    · exact h.nextRead mread
    · exact h.submit hsound
  | noData mread outcome =>
    rw [readStep] at hs
    split_ifs at hs
    cases hs
    apply (h.nextRead mread).deliver
    · rw [forall_mem_singleton]
      exact progress_next s mread
    · rw [forall_mem_singleton]
      intro _ q hq hopen hread
      have hbelow : q.read.2 < s.progress q.read.1 := h.below q hq hopen
      rw [← hread] at hbelow
      exact Nat.lt_irrefl _ hbelow
  | start =>
    cases hs
    exact h.kept hsound (kept_start _)
  | post reqId rank bulkSz resp =>
    cases hs
    rcases Reqmgr.post_cases s.rm reqId rank bulkSz resp with hsame | ⟨q,j,hq,hpost⟩
    · rw [hsame]
      exact h
    · rw [hpost] at hsound ⊢
      exact h.kept hsound (kept_modify hq fun hopen => ⟨hopen,rfl⟩)
  | handle i j rpc =>
    obtain ⟨q,ret,q',sent,hi,huse,hh,rfl⟩ := readStep_handle hs
    exact h.handle hi huse hh hsound (fun r resp => hP i j rpc q r resp rfl hi)
  | release i =>
    obtain ⟨q,hi,hs⟩ := bind_eq_some_iff.mp hs
    split_ifs at hs with hdone
    cases hs
    apply h.kept hsound
    apply kept_modify hi
    exact fun hopen => absurd hopen.1 (by decide)

end Tracked

end UnifyFS.ReadSystem
