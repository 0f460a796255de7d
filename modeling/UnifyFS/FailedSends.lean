import UnifyFS.ReadSystem

/-!
# Chunk requests that cannot be sent

`rm_request_remote_chunks` marks a ready request and each of its parts as started,
and only then sends the part to its server. If a send fails, the code goes into the
return value and nothing else happens: the part stays started, although no response
will be posted for it. A request is complete when all its parts are, so such a
request waits for good, keeps its slot, and its client is not told.

`send i j` is what `invoke_chunk_read_request_rpc` returns for part `j` of the request
in slot `i`. The response of the own server is posted before that call returns; here
it is one of the posts that follow.
-/
namespace UnifyFS.FailedSends
open GuardedRuns ListUpdates ChunkReads ReadRequests ServerReadReq ReadSystem List Option

def startServer (j : ℕ) (q : ServerReadReq) : ServerReadReq :=
  { q with remoteReads := q.remoteReads.modify j fun r => { r with status := .started } }

def sendRequests (send : ℕ → Rc) : List ℕ → Rc → ServerReadReq → Rc × ServerReadReq
  | [], ret, q => (ret,q)
  | j :: js, ret, q =>
    let rc := send j
    sendRequests send js (if rc ≠ Rc.success then rc else ret) (startServer j q)

def requestChunks (send : ℕ → Rc) (ret : Rc) (q : ServerReadReq) : Rc × ServerReadReq :=
  if q.inUse = true ∧ q.status = .ready then
    sendRequests send (List.range q.remoteReads.length) ret { q with status := .started }
  else (ret,q)

def requestSlots (send : ℕ → ℕ → Rc) : ℕ → List ServerReadReq → Rc → Rc × List ServerReadReq
  | _, [], ret => (ret,[])
  | i, q :: qs, ret =>
    let out := requestChunks (send i) ret q
    let rest := requestSlots send (i + 1) qs out.1
    (rest.1,out.2 :: rest.2)

def rmSendRemoteChunks (send : ℕ → ℕ → Rc) (rm : Reqmgr) : Rc × Reqmgr :=
  let out := requestSlots send 0 rm.readReqs Rc.success
  (out.1,{ rm with readReqs := out.2 })

section Sends
variable {send : ℕ → Rc}

theorem sendRequests_part (js : List ℕ) (ret : Rc) (q : ServerReadReq) (k : ℕ) :
    (sendRequests send js ret q).2.remoteReads[k]? =
      if k ∈ js then (q.remoteReads[k]?).map fun r => { r with status := .started }
      else q.remoteReads[k]? := by
  induction js generalizing ret q with
  | nil => rfl
  | cons j js ih =>
    have hpart : (startServer j q).remoteReads[k]? = if j = k then
        (q.remoteReads[k]?).map fun r => { r with status := .started }
      else q.remoteReads[k]? := getElem?_modify_ite _ _ _ _
    rw [sendRequests,ih,hpart]
    by_cases hjk : j = k
    · simp only [hjk,if_true,mem_cons,true_or,Option.map_map]
      cases q.remoteReads[k]? <;> simp
    · simp only [hjk,if_false,mem_cons,Ne.symm hjk,false_or]

theorem sendRequests_frame (js : List ℕ) (ret : Rc) (q : ServerReadReq) :
    (sendRequests send js ret q).2 =
      { q with remoteReads := (sendRequests send js ret q).2.remoteReads } := by
  induction js generalizing ret q with
  | nil => rfl
  | cons j js ih =>
    rw [sendRequests,ih]
    rfl

theorem requestChunks_eq (ret : Rc) (q : ServerReadReq) :
    (requestChunks send ret q).2 = q.start := by
  unfold requestChunks ServerReadReq.start
  split_ifs with hready
  · rw [sendRequests_frame]
    congr 1
    apply ext_getElem?
    intro k
    rw [sendRequests_part,getElem?_map]
    split_ifs with hk
    · rfl
    · rw [getElem?_eq_none (not_lt.mp fun hlt => hk (mem_range.mpr hlt))]
      rfl
  · rfl

theorem requestSlots_eq (send : ℕ → ℕ → Rc) (i : ℕ) (qs : List ServerReadReq) (ret : Rc) :
    (requestSlots send i qs ret).2 = qs.map ServerReadReq.start := by
  induction qs generalizing i ret with
  | nil => rfl
  | cons q qs ih =>
    rw [requestSlots,map_cons]
    rw [requestChunks_eq,ih]

theorem rmSendRemoteChunks_eq (send : ℕ → ℕ → Rc) (rm : Reqmgr) :
    (rmSendRemoteChunks send rm).2 = rmRequestRemoteChunks rm := by
  unfold rmSendRemoteChunks rmRequestRemoteChunks
  dsimp only
  rw [requestSlots_eq]

end Sends

/-- A request as it is handed in, with parts for different servers and no response yet. -/
structure IsReady (q : ServerReadReq) : Prop where
  inUse : q.inUse = true
  ready : q.status = .ready
  nonempty : q.remoteReads ≠ []
  ranks : (q.remoteReads.map ServerChunkReads.rank).Nodup
  waiting : ∀ r ∈ q.remoteReads, r.resp = none

theorem submitted_isReady {i : ℕ} {t : ReadTarget} {servers : List (ℕ × ℕ)} (hne : servers ≠ [])
    (hranks : (servers.map Prod.fst).Nodup) : IsReady (submitted i t servers) := by
  have hparts : (submitted i t servers).remoteReads =
      servers.map fun x => ⟨x.1,.null,x.2,none⟩ := rfl
  constructor
  · rfl
  · rfl
  · rw [hparts]
    exact map_eq_nil_iff.not.mpr hne
  · rw [hparts,List.map_map]
    exact hranks
  · exact forall_mem_map.mpr fun _ _ => rfl

def sendAll (send : ℕ → ℕ → Rc) (s : System) : System :=
  { s with rm := (rmSendRemoteChunks send s.rm).2 }

def failedServer (send : ℕ → Rc) (q : ServerReadReq) (rank : ℕ) : Prop :=
  ∃ j r, q.remoteReads[j]? = some r ∧ r.rank = rank ∧ send j ≠ Rc.success

/-- No response arrives from a server that was not asked. -/
def answersSent (i : ℕ) (send : ℕ → Rc) (q : ServerReadReq) (_ : System) : ReadOp → Prop
  | .post reqId rank _ _ => reqId = i → ¬ failedServer send q rank
  | _ => True

/-- Whether the request in a slot can still get to its end: its slot is released, and a
completion of its read has been sent. -/
def CanComplete (i : ℕ) (send : ℕ → Rc) (q : ServerReadReq) (s : System) : Prop :=
  ∃ es u, Run readStep (answersSent i send q) s es u ∧ u.rm.readReqs[i]? = some .empty ∧
    ∃ error o, ⟨.complete q.clientMread q.clientReadNdx error,o⟩ ∈ u.sent.drop s.sent.length

/-- Part `j` of the request has been asked of a server that has not answered. -/
structure Waits (j rank : ℕ) (q : ServerReadReq) : Prop where
  inUse : q.inUse = true
  started : q.status = .started
  part : ∃ r, q.remoteReads[j]? = some r ∧ r.rank = rank ∧ r.status = .started ∧ r.resp = none

/-- A request in slot `i` that waits for a server. -/
structure Stuck (i j rank : ℕ) (s : System) : Prop where
  sound : s.rm.Sound
  waits : ∃ q, s.rm.readReqs[i]? = some q ∧ Waits j rank q

section Stuck
variable {i j k rank : ℕ} {q q' : ServerReadReq} {s u : System} {e : ReadOp}

theorem Waits.start (h : Waits j rank q) : q.start = q := by
  unfold ServerReadReq.start
  rw [if_neg]
  rw [h.started]
  exact fun hready => by cases hready.2

theorem Waits.post (h : Waits j rank q) (hk : k ≠ j) (bulkSz : ℕ) (resp : Response) :
    Waits j rank (q.post k bulkSz resp) := by
  obtain ⟨r,hr,hpart⟩ := h.part
  refine ⟨h.inUse,h.started,r,?_,hpart⟩
  change (q.remoteReads.modify k _)[j]? = some r
  rw [getElem?_modify_ite,if_neg hk]
  exact hr

/-- The responses of other servers do not complete the request. -/
theorem Waits.handle (h : Waits j rank q) {rpc : ℕ → RpcOutcome} {ret : Rc} {sent : List Sent}
    (hh : rmHandleChunkReadResponses rpc q k = some (ret,q',sent)) : Waits j rank q' := by
  obtain ⟨r,hr,hrank,hstarted,hresp⟩ := h.part
  rcases rmHandleChunkReadResponses_cases hh with ⟨rfl,-⟩ | ⟨r',resp,_,_,hr',hresp',-,-,-,hend⟩
  · exact h
  · have hkj : k ≠ j := by
      rintro rfl
      obtain rfl := some.inj (hr.symm.trans hr')
      rw [hresp] at hresp'
      cases hresp'
    rcases hend with ⟨hlast,-,-⟩ | ⟨-,rfl,-⟩
    · have hdone := hlast j r (Ne.symm hkj) hr
      rw [hstarted] at hdone
      cases hdone
    · refine ⟨h.inUse,h.started,r,?_,hrank,hstarted,hresp⟩
      change (q.remoteReads.modify k _)[j]? = some r
      rw [getElem?_modify_ite,if_neg hkj]
      exact hr

theorem exists_waits_modify {l : List ServerReadReq} {f : ServerReadReq → ServerReadReq}
    (hi : l[i]? = some q) (hw : Waits j rank q) (hf : k = i → Waits j rank (f q)) :
    ∃ q', (l.modify k f)[i]? = some q' ∧ Waits j rank q' := by
  rw [getElem?_modify_ite]
  split_ifs with hki
  · exact ⟨f q,by rw [hi]; rfl,hf hki⟩
  · exact ⟨q,hi,hw⟩

theorem Stuck.step (h : Stuck i j rank s) (hpost : ∀ bulkSz resp, e ≠ .post i rank bulkSz resp)
    (hstep : readStep s e = some u) : Stuck i j rank u := by
  refine ⟨readStep_sound h.sound hstep,?_⟩
  obtain ⟨q,hi,hw⟩ := h.waits
  cases e with
  | submit mread extentOffset servers =>
    rw [readStep] at hstep
    split_ifs at hstep
    obtain ⟨⟨rc,rm⟩,hsub,rfl⟩ := map_eq_some_iff.mp hstep
    rcases rmSubmitReadRequest_cases h.sound hsub with rfl | ⟨k,p,next,hp,hidle,rfl⟩
    · exact ⟨q,hi,hw⟩
    · -- the slot of the new request was free
      apply exists_waits_modify hi hw
      rintro rfl
      obtain rfl := some.inj (hi.symm.trans hp)
      rw [hw.inUse] at hidle
      cases hidle
  | noData mread outcome =>
    rw [readStep] at hstep
    split_ifs at hstep
    cases hstep
    exact ⟨q,hi,hw⟩
  | start =>
    cases hstep
    refine ⟨q,?_,hw⟩
    change (s.rm.readReqs.map ServerReadReq.start)[i]? = some q
    rw [getElem?_map,hi,map_some,hw.start]
  | post reqId rank' bulkSz resp =>
    cases hstep
    unfold rmPostChunkReadResponses
    split
    · next k hk =>
      apply exists_waits_modify hi hw
      rintro rfl
      obtain ⟨p,hp,hfind⟩ := bind_eq_some_iff.mp hk
      obtain rfl := some.inj (hi.symm.trans hp)
      apply hw.post
      rintro rfl
      obtain ⟨r,hr,hrank,-,-⟩ := hw.part
      obtain ⟨hlt,hsame,-⟩ := findIdx?_eq_some_iff_getElem.mp hfind
      rw [getElem?_eq_getElem hlt] at hr
      cases hr
      rw [hrank] at hsame
      exact hpost bulkSz resp (by rw [eq_of_beq hsame])
    · exact ⟨q,hi,hw⟩
  | handle i' k rpc =>
    obtain ⟨p,ret,p',sent,hp,huse,hh,rfl⟩ := readStep_handle hstep
    apply exists_waits_modify hi hw
    rintro rfl
    obtain rfl := some.inj (hi.symm.trans hp)
    exact hw.handle hh
  | release i' =>
    obtain ⟨p,hp,hstep⟩ := bind_eq_some_iff.mp hstep
    split_ifs at hstep with hdone
    cases hstep
    apply exists_waits_modify hi hw
    rintro rfl
    obtain rfl := some.inj (hi.symm.trans hp)
    have hstarted := hw.started
    rw [hdone.2] at hstarted
    cases hstarted

end Stuck

section Answers
variable {i k : ℕ} {q : ServerReadReq} {r : ServerChunkReads} {s : System}

def emptyAnswer : Response := ⟨[],[]⟩

def answered (k : ℕ) (q : ServerReadReq) : ServerReadReq := (q.post k 1 emptyAnswer).finishServer k

theorem getElem?_answered (k m : ℕ) (q : ServerReadReq) :
    (answered k q).remoteReads[m]? = if k = m then (q.remoteReads[m]?).map fun r =>
        { r with resp := none, totalSz := 1, status := .complete }
      else q.remoteReads[m]? := by
  change ((q.remoteReads.modify k _).modify k _)[m]? = _
  rw [modify_modify_eq,getElem?_modify_ite]
  rfl

theorem ranks_answered (k : ℕ) (q : ServerReadReq) :
    (answered k q).remoteReads.map ServerChunkReads.rank =
      q.remoteReads.map ServerChunkReads.rank := by
  apply ext_getElem?
  intro m
  rw [getElem?_map,getElem?_map,getElem?_answered]
  split_ifs
  · cases q.remoteReads[m]? <;> rfl
  · rfl

theorem getElem?_post (hr : q.remoteReads[k]? = some r) : (q.post k 1 emptyAnswer).remoteReads[k]? =
      some { r with resp := some emptyAnswer, totalSz := 1 } := by
  change (q.remoteReads.modify k _)[k]? = _
  rw [getElem?_modify_ite,if_pos rfl,hr]
  rfl

theorem isLast_post (bulkSz : ℕ) (resp : Response) :
    (q.post k bulkSz resp).IsLast k ↔ q.IsLast k := by
  have hother : ∀ m, m ≠ k → (q.post k bulkSz resp).remoteReads[m]? = q.remoteReads[m]? := by
    intro m hm
    change (q.remoteReads.modify k _)[m]? = _
    rw [getElem?_modify_ite,if_neg (Ne.symm hm)]
  constructor
  · intro h m x hm hx
    exact h m x hm (by rw [hother m hm]; exact hx)
  · intro h m x hm hx
    exact h m x hm (by rw [← hother m hm]; exact hx)

theorem exists_handle (hr : q.remoteReads[k]? = some r) (hstarted : r.status = .started) :
    ∃ ret q' sent, rmHandleChunkReadResponses (fun _ => .ok) (q.post k 1 emptyAnswer) k =
        some (ret,q',sent) ∧ (q.IsLast k ∧ q' = { answered k q with status := .complete } ∧
          (∃ error o, sent = [⟨.complete q.clientMread q.clientReadNdx error,o⟩]) ∨
        ¬ q.IsLast k ∧ q' = answered k q ∧ sent = []) := by
  have hpart := getElem?_post hr
  have hsome : ∃ out, rmHandleChunkReadResponses (fun _ => .ok) (q.post k 1 emptyAnswer) k =
      some out := by
    rw [rmHandleChunkReadResponses,hpart,bind_some]
    dsimp only
    rw [bind_some,if_neg (by simp [hstarted])]
    exact ⟨_,rfl⟩
  obtain ⟨⟨ret,q',sent⟩,hh⟩ := hsome
  refine ⟨ret,q',sent,hh,?_⟩
  rcases rmHandleChunkReadResponses_cases hh with
    ⟨-,-,x,hx,hbad⟩ | ⟨x,resp,rc,sents,hx,hresp,-,-,hsend,hend⟩
  · rw [hpart] at hx
    cases hx
    rcases hbad with hbad | hbad
    · exact absurd hstarted hbad
    · cases hbad
  · rw [hpart] at hx
    cases hx
    cases hresp
    cases hsend
    rw [isLast_post] at hend
    rcases hend with ⟨hall,rfl,o,rfl⟩ | ⟨hnot,rfl,rfl⟩
    · exact .inl ⟨hall,rfl,_,o,rfl⟩
    · exact .inr ⟨hnot,rfl,rfl⟩

theorem exists_answer (hi : s.rm.readReqs[i]? = some q) (huse : q.inUse = true)
    (hranks : (q.remoteReads.map ServerChunkReads.rank).Nodup)
    (hr : q.remoteReads[k]? = some r) (hstarted : r.status = .started) :
    ∃ es u, Run readStep (fun _ _ => True) s es u ∧
      (q.IsLast k ∧ u.rm.readReqs[i]? = some { answered k q with status := .complete } ∧
          (∃ error o, u.sent = s.sent ++ [⟨.complete q.clientMread q.clientReadNdx error,o⟩]) ∨
        ¬ q.IsLast k ∧ u.rm.readReqs[i]? = some (answered k q) ∧ u.sent = s.sent) := by
  -- the answer is posted to the part
  have hpost : readStep s (.post i r.rank 1 emptyAnswer) = some { s with
      rm := { s.rm with readReqs := s.rm.readReqs.modify i (.post k 1 emptyAnswer) } } := by
    rw [readStep,rmPostChunkReadResponses,hi,bind_some,findIdx?_of_nodup hranks hr]
  set s₁ : System := { s with
    rm := { s.rm with readReqs := s.rm.readReqs.modify i (.post k 1 emptyAnswer) } } with hs₁
  have hi₁ : s₁.rm.readReqs[i]? = some (q.post k 1 emptyAnswer) := by
    rw [hs₁]
    change (s.rm.readReqs.modify i _)[i]? = _
    rw [getElem?_modify_ite,if_pos rfl,hi]
    rfl
  -- and handled
  obtain ⟨ret,q',sent,hh,hend⟩ := exists_handle hr hstarted
  have hstep : readStep s₁ (.handle i k fun _ => .ok) = some ((s₁.putReq i q').deliver sent) := by
    have huse₁ : (q.post k 1 emptyAnswer).inUse = true := huse
    rw [readStep,hi₁,bind_some,if_pos huse₁,hh]
    rfl
  refine ⟨[.post i r.rank 1 emptyAnswer,.handle i k fun _ => .ok],_,
    .cons trivial hpost (.cons trivial hstep (.nil _)),?_⟩
  rw [getElem?_putReq hi₁]
  rcases hend with ⟨hlast,rfl,error,o,rfl⟩ | ⟨hnot,rfl,rfl⟩
  · exact .inl ⟨hlast,rfl,error,o,rfl⟩
  · exact .inr ⟨hnot,rfl,append_nil _⟩

/-- The parts before `k` are complete and the others started, so they can be answered
one after the other. -/
theorem exists_complete (m : ℕ) (hi : s.rm.readReqs[i]? = some q) (huse : q.inUse = true)
    (hranks : (q.remoteReads.map ServerChunkReads.rank).Nodup)
    (hlen : k + m + 1 = q.remoteReads.length)
    (hdone : ∀ (n : ℕ) (x : ServerChunkReads), n < k → q.remoteReads[n]? = some x →
      x.status = .complete)
    (hopen : ∀ (n : ℕ) (x : ServerChunkReads), k ≤ n → q.remoteReads[n]? = some x →
      x.status = .started) :
    ∃ es u q', Run readStep (fun _ _ => True) s es u ∧ u.rm.readReqs[i]? = some q' ∧
      q'.inUse = true ∧ q'.status = .complete ∧ s.sent <+: u.sent ∧
      ∃ error o, ⟨.complete q.clientMread q.clientReadNdx error,o⟩ ∈ u.sent.drop s.sent.length := by
  induction m generalizing s q k with
  | zero =>
    have hr := getElem?_eq_getElem (l := q.remoteReads) (i := k) (by omega)
    obtain ⟨es,u,hrun,hend⟩ := exists_answer hi huse hranks hr (hopen k _ le_rfl hr)
    have hlast : q.IsLast k := by
      intro n x hn hx
      have hlt := (List.getElem?_eq_some_iff.mp hx).1
      exact hdone n x (by omega) hx
    rcases hend with ⟨-,hu,error,o,hsent⟩ | ⟨hnot,-,-⟩
    · refine ⟨es,u,_,hrun,hu,huse,rfl,?_,error,o,?_⟩
      · rw [hsent]
        exact prefix_append _ _
      · rw [hsent,drop_left]
        exact mem_singleton_self _
    · exact absurd hlast hnot
  | succ m ih =>
    have hr := getElem?_eq_getElem (l := q.remoteReads) (i := k) (by omega)
    have hnext := getElem?_eq_getElem (l := q.remoteReads) (i := k + 1) (by omega)
    obtain ⟨es,u,hrun,hend⟩ := exists_answer hi huse hranks hr (hopen k _ le_rfl hr)
    rcases hend with ⟨hlast,-,-⟩ | ⟨-,hu,hsent⟩
    · -- the next part is still started
      have hstarted := hopen (k + 1) _ (Nat.le_succ k) hnext
      rw [hlast (k + 1) _ (Nat.succ_ne_self k) hnext] at hstarted
      cases hstarted
    · have hlen' : k + 1 + m + 1 = (answered k q).remoteReads.length := by
        change _ = ((q.remoteReads.modify k _).modify k _).length
        rw [length_modify,length_modify]
        omega
      have hranks' : ((answered k q).remoteReads.map ServerChunkReads.rank).Nodup := by
        rw [ranks_answered]
        exact hranks
      obtain ⟨es',v,q',hrun',hv,huse',hstatus,hpre,error,o,hmem⟩ := ih hu huse hranks' hlen'
          (fun n x hn hx => by
            rw [getElem?_answered] at hx
            split_ifs at hx with hkn
            · obtain ⟨y,-,rfl⟩ := map_eq_some_iff.mp hx
              rfl
            · exact hdone n x (by omega) hx)
          (fun n x hn hx => by
            rw [getElem?_answered,if_neg (by omega)] at hx
            exact hopen n x (by omega) hx)
      rw [hsent] at hpre hmem
      exact ⟨es ++ es',v,q',hrun.append hrun',hv,huse',hstatus,hpre,error,o,hmem⟩

end Answers

section Result
variable {i : ℕ} {q : ServerReadReq} {s : System} {send : ℕ → ℕ → Rc}

theorem getElem?_sendAll (send : ℕ → ℕ → Rc) (hi : s.rm.readReqs[i]? = some q) (hq : IsReady q) :
    (sendAll send s).rm.readReqs[i]? = some { q with
      status := .started
      remoteReads := q.remoteReads.map fun r => { r with status := .started } } := by
  unfold sendAll
  rw [rmSendRemoteChunks_eq]
  change (s.rm.readReqs.map ServerReadReq.start)[i]? = _
  rw [getElem?_map,hi,map_some,ServerReadReq.start,if_pos ⟨hq.inUse,hq.ready⟩]

theorem canComplete_of_sent (hi : s.rm.readReqs[i]? = some q) (hq : IsReady q)
    (hall : ∀ j < q.remoteReads.length, send i j = Rc.success) :
    CanComplete i (send i) q (sendAll send s) := by
  have hstart := getElem?_sendAll send hi hq
  have hranks : ((q.remoteReads.map fun r => { r with status := .started }).map
      ServerChunkReads.rank).Nodup := by
    rw [List.map_map]
    exact hq.ranks
  have hpos := length_pos_iff.mpr hq.nonempty
  obtain ⟨es,u,q',hrun,hu,huse,hdone,hpre,error,o,hmem⟩ :=
    exists_complete (q.remoteReads.length - 1) hstart hq.inUse hranks
      (by rw [length_map]; omega) (fun n x hn _ => absurd hn (Nat.not_lt_zero n))
      (fun n x _ hx => by
        rw [getElem?_map] at hx
        obtain ⟨y,-,rfl⟩ := map_eq_some_iff.mp hx
        rfl)
  have hrelease : readStep u (.release i) = some { u with rm := releaseReadReq u.rm i q' } := by
    rw [readStep,hu,bind_some,if_pos ⟨huse,hdone⟩]
  have hfree : (releaseReadReq u.rm i q').readReqs[i]? = some .empty := by
    change (u.rm.readReqs.modify i _)[i]? = _
    rw [getElem?_modify_ite,if_pos rfl,hu]
    rfl
  have hrun' := hrun.append (.cons trivial hrelease (.nil _))
  refine ⟨_,_,hrun'.weaken ?_,hfree,error,o,hmem⟩
  -- every part was sent, so every response may arrive
  intro t e _
  cases e with
  | post reqId rank bulkSz resp =>
    rintro - ⟨j,r,hj,-,hfail⟩
    exact hfail (hall j (List.getElem?_eq_some_iff.mp hj).1)
  | _ => trivial

theorem not_canComplete_of_failed (hs : s.rm.Sound) (hi : s.rm.readReqs[i]? = some q)
    (hq : IsReady q) {j : ℕ} (hj : j < q.remoteReads.length) (hfail : send i j ≠ Rc.success) :
    ¬ CanComplete i (send i) q (sendAll send s) := by
  rintro ⟨es,u,hrun,hfree,-⟩
  have hr := getElem?_eq_getElem hj
  have hstart : Stuck i j q.remoteReads[j].rank (sendAll send s) := by
    constructor
    · unfold sendAll
      rw [rmSendRemoteChunks_eq]
      exact hs.start
    · refine ⟨_,getElem?_sendAll send hi hq,hq.inUse,rfl,
        { q.remoteReads[j] with status := .started },?_,rfl,rfl,
        hq.waiting q.remoteReads[j] (getElem_mem hj)⟩
      rw [getElem?_map,hr]
      rfl
  have hend : Stuck i j q.remoteReads[j].rank u := by
    refine hrun.invariant (fun t e v ht hg hstep => ht.step ?_ hstep) hstart
    rintro bulkSz resp rfl
    exact hg rfl ⟨j,_,hr,rfl,hfail⟩
  obtain ⟨p,hp,hw⟩ := hend.waits
  rw [hfree] at hp
  cases hp
  cases hw.inUse

/-- After `rm_request_remote_chunks`, a part that could not be sent is left started exactly
if there is one, and the request can get to its end exactly if there is none. -/
theorem remote_chunks_requested_iff (send : ℕ → ℕ → Rc) (hs : s.rm.Sound)
    (hi : s.rm.readReqs[i]? = some q) (hq : IsReady q) :
    ((∀ (q' : ServerReadReq) (j : ℕ) (r : ServerChunkReads),
        (sendAll send s).rm.readReqs[i]? = some q' → q'.remoteReads[j]? = some r →
        send i j ≠ Rc.success → r.status ≠ .started) ↔
      ∀ j < q.remoteReads.length, send i j = Rc.success) ∧
    (CanComplete i (send i) q (sendAll send s) ↔
      ∀ j < q.remoteReads.length, send i j = Rc.success) := by
  have hstart := getElem?_sendAll send hi hq
  constructor
  · constructor
    · intro h j hj
      by_contra hfail
      refine h _ j { q.remoteReads[j] with status := .started } hstart ?_ hfail rfl
      rw [getElem?_map,getElem?_eq_getElem hj]
      rfl
    · intro h q' j r hq' hr hfail
      rw [hstart] at hq'
      cases hq'
      have hlt := (List.getElem?_eq_some_iff.mp hr).1
      rw [length_map] at hlt
      exact absurd (h j hlt) hfail
  · constructor
    · intro h j hj
      by_contra hfail
      exact not_canComplete_of_failed hs hi hq hj hfail h
    · exact canComplete_of_sent hi hq

end Result

def twoParts : ServerReadReq := submitted 0 ⟨5,0,0⟩ [(0,4),(1,4)]

def twoPartSystem : System := { System.init 2 ⟨5,[],0,0⟩ with rm := ⟨[twoParts,.empty],1,1⟩ }

theorem twoPartSystem_sound : twoPartSystem.rm.Sound := by
  have hsubmit : rmSubmitReadRequest (.init 2) ⟨5,0,0⟩ [(0,4),(1,4)] =
      some (Rc.success,twoPartSystem.rm) := by decide
  exact rmSubmitReadRequest_sound (Reqmgr.init_sound 2) hsubmit

theorem twoParts_isReady : IsReady twoParts := submitted_isReady (by decide) (by decide)

def allSent (_ _ : ℕ) : Rc := Rc.success

theorem twoParts_requested :
    ((∀ (q' : ServerReadReq) (j : ℕ) (r : ServerChunkReads),
        (sendAll allSent twoPartSystem).rm.readReqs[0]? = some q' → q'.remoteReads[j]? = some r →
        allSent 0 j ≠ Rc.success → r.status ≠ .started) ↔
      ∀ j < twoParts.remoteReads.length, allSent 0 j = Rc.success) ∧
    (CanComplete 0 (allSent 0) twoParts (sendAll allSent twoPartSystem) ↔
      ∀ j < twoParts.remoteReads.length, allSent 0 j = Rc.success) :=
  remote_chunks_requested_iff allSent twoPartSystem_sound rfl twoParts_isReady

def secondSendFails (_ j : ℕ) : Rc := if j = 1 then Rc.errorMargo else Rc.success

/-- The call reports the failure, but the part of server 1 is started like the other, and
nothing that can still happen releases the slot. -/
theorem failed_send_waits_for_good :
    (rmSendRemoteChunks secondSendFails twoPartSystem.rm).1 = Rc.errorMargo ∧
    ((sendAll secondSendFails twoPartSystem).rm.readReqs[0]?).map (fun q =>
      (q.status,q.remoteReads.map ServerChunkReads.status)) =
        some (.started,[.started,.started]) ∧
    ¬ CanComplete 0 (secondSendFails 0) twoParts (sendAll secondSendFails twoPartSystem) := by
  refine ⟨by decide,by decide,?_⟩
  apply not_canComplete_of_failed (j := 1) twoPartSystem_sound rfl twoParts_isReady
  · decide
  · decide

end UnifyFS.FailedSends
