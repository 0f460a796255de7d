import UnifyFS.DispatchIo

/-!
# Reads stay inside the user buffer

Bytes reach a user buffer from the logs that the client reads itself, from the messages of
a server, and from the zeros for holes. Each of these writes lies inside the buffer of the
request as long as the counts of the request do. A request that `process_gfid_reads` is
done with has therefore left the memory behind its buffer as it was.

Whether a write would go beyond the buffer is decided where it happens: then there is no
result. That the call has a result is a matter of requests of length zero alone.
-/
namespace UnifyFS.ReadBounds
open ByteBuffers MachineWords ClientRead GfidReads DispatchIo ListUpdates List Option

/-- `r` is the request `r₀` at a later time: its counts do not exceed its length, and the memory
behind its buffer is unchanged. -/
structure Within (r₀ r : ReadReq) : Prop where
  ident : r.ident = r₀.ident
  nread_le : r.nread ≤ r.length
  begin_le : ∀ b, r.coverBegin = some b → b ≤ r.length
  outside : ∀ k, r.length ≤ k → r.buf[k]? = r₀.buf[k]?

theorem length_of_ident {a b : ReadReq} (h : a.ident = b.ident) : a.length = b.length :=
  congrArg (fun x => x.2.2.1) h

section Request
variable {r₀ r out : ReadReq}

theorem coverage_nread_le (r : ReadReq) (lo len : ℕ) :
    (updateReadReqCoverage r lo len).nread ≤ max r.nread (lo + len) := by
  unfold updateReadReqCoverage
  dsimp only
  split_ifs <;> simp <;> omega

namespace Within

theorem of_fresh (h : Fresh r) : Within r r := by
  refine ⟨rfl,?_,?_,fun _ _ => rfl⟩
  · rw [h.1]
    exact Nat.zero_le _
  · intro b hb
    rw [h.2] at hb
    cases hb

variable (h : Within r₀ r) {pos len : ℕ} {bytes : List UInt8}
include h

theorem overwritten (hfit : pos + bytes.length ≤ r.length) (k : ℕ) (hk : r.length ≤ k) :
    (overwrite 0 r.buf pos bytes)[k]? = r₀.buf[k]? := by
  rw [getElem?_overwrite_beyond 0 (by omega)]
  exact h.outside k hk

theorem putBytes (hfit : pos + bytes.length ≤ r.length) :
    Within r₀ (r.putBytes pos bytes) :=
  ⟨h.ident,h.nread_le,h.begin_le,h.overwritten hfit⟩

theorem coverage {lo : ℕ} (hfit : lo + len ≤ r.length) :
    Within r₀ (updateReadReqCoverage r lo len) := by
  obtain ⟨-,hlength,-,hbuf⟩ := coverage_frame r lo len
  have hnread := coverage_nread_le r lo len
  have hle := h.nread_le
  refine ⟨(coverage_ident r lo len).trans h.ident,?_,?_,?_⟩
  · omega
  · intro b hb
    rw [coverage_begin] at hb
    cases hb
    rw [hlength]
    cases hold : r.coverBegin with
    | none => exact Nat.le_trans (Nat.le_add_right _ _) hfit
    | some b => exact (Nat.min_le_left _ _).trans (Nat.le_trans (Nat.le_add_right _ _) hfit)
  · rw [hlength,hbuf]
    exact h.outside

theorem withError (rc : Rc) : Within r₀ (r.withError rc) :=
  ⟨h.ident,h.nread_le,h.begin_le,h.outside⟩

theorem failed (rc : Rc) : Within r₀ { r with nread := 0, errcode := rc } :=
  ⟨h.ident,Nat.zero_le _,h.begin_le,h.outside⟩

theorem expire : Within r₀ r.expire := by
  unfold ReadReq.expire
  split
  · exact h.withError _
  · exact h

theorem zeroFill {n : ℕ} {rc : Rc} (hfit : pos + len ≤ r.length) (hn : n ≤ r.length) :
    Within r₀ { r.zeroFill pos len with nread := n, errcode := rc } := by
  refine ⟨h.ident,hn,h.begin_le,h.overwritten ?_⟩
  rw [length_replicate]
  exact hfit

theorem result {filesize : ℤ} (hres : updateReadReqResult filesize r = some out) :
    Within r₀ out := by
  have hassumed : Within r₀ r.assumeSuccess := by
    unfold ReadReq.assumeSuccess
    split
    · exact h.withError _
    · exact h
  unfold updateReadReqResult at hres
  dsimp only at hres
  have hle := hassumed.nread_le
  split_ifs at hres with herr hfull hsize hend hgap hpast
  · cases hres
    exact hassumed
  · -- zeros in front of the first byte that was read
    split at hres
    · cases hres
    · cases hres
      exact hassumed
    · next b hb =>
      cases hres
      have hbegin := hassumed.begin_le _ hb
      exact hassumed.zeroFill (by omega) hle
  · cases hres
    exact hassumed.withError _
  · cases hres
    exact hassumed.failed _
  · cases hres
    exact hassumed.zeroFill (by omega) (by omega)
  · cases hres
    exact hassumed.zeroFill (by omega) (by omega)
  · cases hres
    exact hassumed

end Within
end Request

section Local
variable {c : ReadClient} {env : ReadEnv} {logRead : ℕ → ℕ → ℕ → Rc × List UInt8}
  {r₀ r done : ReadReq} {rds : List ReadReq} {n : SegNode}

theorem getExtentCoverage_fits {reqOffset extOffset len : ℕ} (h : Meets r n)
    (hcov : getExtentCoverage r n.start (n.stop + 1 - n.start) = some (reqOffset,extOffset,len)) :
    reqOffset + len ≤ r.length ∧ r.offset + (reqOffset + len) ≤ n.stop + 1 := by
  rw [getExtentCoverage_overlap h] at hcov
  obtain ⟨rfl,-,rfl⟩ := hcov
  obtain ⟨hle,hoff,hstart⟩ := h
  omega

theorem Within.serveExtent (h : Within r₀ r) (hmeets : Meets r n)
    (hlog : ∀ cl off len, (logRead cl off len).2.length ≤ len)
    (hserve : serveExtent c logRead r n = some done) : Within r₀ done := by
  obtain ⟨⟨reqOffset,extOffset,len⟩,hcov,rfl⟩ := map_eq_some_iff.mp hserve
  obtain ⟨hfits,-⟩ := getExtentCoverage_fits hmeets hcov
  have hbytes := hlog n.clientId (n.ptr + extOffset) len
  dsimp only
  split
  · split
    · exact (h.putBytes (by omega)).coverage (show _ ≤ r.length by omega)
    · exact h.withError _
  · exact h

theorem Within.serveLocal {segs : List SegNode} (h : Within r₀ r)
    (hmeets : ∀ n ∈ segs, Meets r n) (hlog : ∀ cl off len, (logRead cl off len).2.length ≤ len)
    (hserve : serveLocal c logRead segs r = some done) : Within r₀ done := by
  refine serveLocal_induct h (fun n hn q u hid hq hu => ?_) hserve
  exact hq.serveExtent ((hmeets n hn).of_ident hid) hlog hu

theorem within_updateResults {size : ℕ → ℤ} {i : ℕ} {l out : List ReadReq}
    (hl : List.Forall₂ Within l rds) (h : updateResults size i rds = some out) :
    List.Forall₂ Within l out :=
  forall₂_comp hl (updateResults_forall₂ h) fun _ _ _ hr ⟨_,hd⟩ => hr.result hd

end Local

section Messages
variable {env : ReadEnv} {reqs : List ReadReq} {m m' : ClientMread}

theorem within_handleMsg {msg : ReadMsg} (hm : List.Forall₂ Within reqs m.reqs)
    (h : handleMsg m msg = some m') : List.Forall₂ Within reqs m'.reqs := by
  cases msg with
  | data readIndex dataOffset bytes bulkOk xfer =>
    obtain ⟨⟨rc,u⟩,hu,rfl⟩ := map_eq_some_iff.mp h
    rcases mreadReqDataRpc_cases hu with rfl | ⟨req,pulled,hreq,hfits,hpulled,hu'⟩
    · exact hm
    · have hput : ∀ y z, m.reqs[readIndex]? = some z → Within y z → z.length = req.length := by
        intro y z hz _
        rw [hreq] at hz
        rw [some.inj hz]
      rcases hu' with rfl | rfl
      · refine forall₂_modify hm fun y z hz hyz => hyz.putBytes ?_
        have := hput y z hz hyz
        omega
      · refine forall₂_modify hm fun y z hz hyz => ?_
        have hlen := hput y z hz hyz
        exact (hyz.putBytes (by omega)).coverage (show _ ≤ z.length by omega)
  | complete readIndex readError =>
    cases h
    rcases completeRpc_reqs m readIndex readError with heq | heq
    · rwa [heq]
    · rw [heq]
      exact forall₂_modify hm fun y z _ hyz => hyz.failed readError

theorem within_handleMsgs {msgs : List ReadMsg} (hm : List.Forall₂ Within reqs m.reqs)
    (h : handleMsgs m msgs = some m') : List.Forall₂ Within reqs m'.reqs := by
  induction msgs generalizing m with
  | nil =>
    cases h
    exact hm
  | cons msg msgs ih =>
    obtain ⟨u,hu,hrest⟩ := bind_eq_some_iff.mp h
    exact ih (within_handleMsg hm hu) hrest

theorem within_awaitServer {ret : Rc} {done : List ReadReq} (hfresh : ∀ r ∈ reqs, Fresh r)
    (h : awaitServer env reqs = some (ret,done)) : List.Forall₂ Within reqs done := by
  have hstart : List.Forall₂ Within reqs reqs :=
    forall₂_same.mpr fun r hr => .of_fresh (hfresh r hr)
  unfold awaitServer at h
  split at h
  · obtain ⟨d,hd,hout⟩ := map_eq_some_iff.mp h
    cases hout
    refine within_updateResults ?_ hd
    exact forall₂_map_right_iff.mpr (hstart.imp fun _ _ hr => hr.withError _)
  · obtain ⟨m,hm,hrest⟩ := bind_eq_some_iff.mp h
    obtain ⟨d,hd,hout⟩ := map_eq_some_iff.mp hrest
    cases hout
    have hmsgs := within_handleMsgs hstart hm
    refine within_updateResults ?_ hd
    split
    · exact hmsgs
    · exact forall₂_map_right_iff.mpr (hmsgs.imp fun _ _ hr => hr.expire)

end Messages

section Batch
variable {c : ReadClient} {env : ReadEnv} {rds : List ReadReq} {out : ReadsOut}
  {inReqs localReqs : List ReadReq}

def toServer (c : ReadClient) (rds : List ReadReq) : List ReadReq :=
  (started rds).filter fun r => !c.servesLocally r

theorem toServer_eq (c : ReadClient) (rds : List ReadReq) : toServer c rds =
    (rds.filter fun r => !c.servesLocally r).map (ReadReq.withError Rc.einprogress) := by
  unfold toServer
  rw [List.filter_map]
  rfl

theorem fresh_started (hfresh : ∀ r ∈ rds, Fresh r) : ∀ r ∈ started rds, Fresh r :=
  forall_mem_map.mpr hfresh

theorem within_readFromServer {serverReqs l : List ReadReq} (hsort : ∀ l, (env.sort l).Perm l)
    (hlocal : List.Forall₂ Within l localReqs) (hfresh : ∀ r ∈ serverReqs, Fresh r)
    (h : readFromServer c env inReqs localReqs serverReqs = some out) : ∃ l', l'.Perm serverReqs ∧
      List.Forall₂ Within (l ++ l') (out.localReads ++ out.serverReads) := by
  have hsorted : ∀ r ∈ env.sort serverReqs, Fresh r := fun r hr =>
    hfresh r ((hsort serverReqs).subset hr)
  have hsame : ∀ {l : List ReadReq}, (∀ r ∈ l, Fresh r) → List.Forall₂ Within l l := fun hl =>
    forall₂_same.mpr fun r hr => .of_fresh (hl r hr)
  unfold readFromServer at h
  split at h
  · cases h
    exact ⟨serverReqs,.refl _,rel_append hlocal (hsame hfresh)⟩
  · refine ⟨env.sort serverReqs,hsort _,?_⟩
    dsimp only at h
    split at h
    · obtain ⟨⟨ret,done⟩,hdone,rfl⟩ := map_eq_some_iff.mp h
      exact rel_append hlocal (within_awaitServer hsorted hdone)
    · cases h
      exact rel_append hlocal (hsame hsorted)

theorem processGfidReads_within (hsort : ∀ l, (env.sort l).Perm l)
    (hlog : ∀ i cl off len, (env.logRead i cl off len).2.length ≤ len)
    (hfresh : ∀ r ∈ rds, Fresh r) (h : processGfidReads c env rds = some out) :
    ∃ l, l.Perm (started rds) ∧ List.Forall₂ Within l (out.localReads ++ out.serverReads) := by
  have hstart := fresh_started hfresh
  by_cases hne : rds = []
  · subst hne
    cases h
    exact ⟨[],.refl _,.nil⟩
  by_cases halloc : c.attempts = true → env.reqsAllocated = true
  · rw [processGfidReads_eq hne halloc] at h
    obtain ⟨s,hs,h⟩ := bind_eq_some_iff.mp h
    obtain ⟨done,hdone,h⟩ := bind_eq_some_iff.mp h
    have hserved : List.Forall₂ Within ((started rds).filter c.servesLocally) s.localReqs := by
      have hlist := (forall₂_and_left _ _).mpr
        ⟨fun r hr => hstart r (mem_of_mem_filter hr),serviceLocalReqs_forall₂ hs⟩
      refine hlist.imp ?_
      rintro r d ⟨hr,k,hd⟩
      exact (Within.of_fresh hr).serveLocal (fun n hn => meets_of_mem_segments hn) (hlog k) hd
    have hlocal := within_updateResults hserved hdone
    have hserver : s.serverReqs = toServer c rds := (serviceLocalReqs_ident hs).2.2
    have hperm := filter_append_perm c.servesLocally (started rds)
    split at h
    · next hnil =>
      cases h
      refine ⟨(started rds).filter c.servesLocally,?_,by rwa [append_nil]⟩
      rw [hserver] at hnil
      unfold toServer at hnil
      rwa [hnil,append_nil] at hperm
    · obtain ⟨l',hl',hwithin⟩ := within_readFromServer hsort hlocal (fun r hr => by
        rw [hserver] at hr
        exact hstart r (mem_of_mem_filter hr)) h
      refine ⟨_,?_,hwithin⟩
      rw [hserver] at hl'
      exact (List.Perm.append_left _ hl').trans hperm
  · -- no request leaves the client
    rw [processGfidReads_no_memory hne halloc] at h
    cases h
    exact ⟨started rds,.refl _,forall₂_same.mpr fun r hr => .of_fresh (hstart r hr)⟩

theorem readFromServer_isSome (hc : Conforming c rds env) (hfresh : ∀ r ∈ rds, Fresh r)
    (hzero : ∀ r ∈ rds, r.length = 0 → c.servesLocally r = true) :
    ∃ out, readFromServer c env inReqs localReqs (toServer c rds) = some out := by
  have hmem : ∀ r ∈ env.sort (toServer c rds), ∃ q ∈ rds, r = q.withError Rc.einprogress ∧
      c.servesLocally q = false := by
    intro r hr
    have hr := (hc.sort_perm _).subset hr
    rw [toServer_eq] at hr
    obtain ⟨q,hq,rfl⟩ := mem_map.mp hr
    obtain ⟨hq,hnot⟩ := mem_filter.mp hq
    exact ⟨q,hq,rfl,by simpa using hnot⟩
  obtain ⟨o,ho⟩ : ∃ o, awaitServer env (env.sort (toServer c rds)) = some o := by
    apply awaitServer_isSome
    · rw [toServer_eq]
      exact hc.fits
    · intro r hr _
      obtain ⟨q,hq,rfl,-⟩ := hmem r hr
      exact (hfresh q hq).1
    · intro r hr
      obtain ⟨q,hq,rfl,hnot⟩ := hmem r hr
      refine Nat.pos_of_ne_zero fun hlen => ?_
      rw [hzero q hq hlen] at hnot
      cases hnot
  unfold readFromServer
  split
  · exact ⟨_,rfl⟩
  · dsimp only
    split
    · rw [ho]
      exact ⟨_,rfl⟩
    · exact ⟨_,rfl⟩

theorem processGfidReads_isSome (hc : Conforming c rds env) (hfresh : ∀ r ∈ rds, Fresh r)
    (hzero : ∀ r ∈ rds, r.length = 0 → c.servesLocally r = true ∧ c.Finishes r) :
    ∃ out, processGfidReads c env rds = some out := by
  by_cases hne : rds = []
  · subst hne
    exact ⟨_,rfl⟩
  by_cases halloc : c.attempts = true → env.reqsAllocated = true
  · rw [processGfidReads_eq hne halloc]
    have hcount : ∀ r ∈ started rds, r.Counted := fun r hr _ => (fresh_started hfresh r hr).1
    obtain ⟨s,hs,hcover⟩ : ∃ s, serviceLocalReqs c env 0 (started rds) = some s ∧ _ := by
      apply serviceLocalReqs_isSome hc.logRead_zero hcount
      intro r hr _
      obtain ⟨q,hq,rfl⟩ := mem_map.mp hr
      rcases Nat.eq_zero_or_pos q.length with hlen | hlen
      · exact (hzero q hq hlen).2
      · exact .inl hlen
    obtain ⟨done,hdone⟩ := updateResults_isSome hcover
    have hserver := (serviceLocalReqs_ident hs).2.2
    rw [hs,bind_some,hdone,hserver]
    split
    · exact ⟨_,rfl⟩
    · exact readFromServer_isSome hc hfresh fun r hr hlen => (hzero r hr hlen).1
  · exact ⟨_,processGfidReads_no_memory hne halloc⟩

end Batch

end UnifyFS.ReadBounds
