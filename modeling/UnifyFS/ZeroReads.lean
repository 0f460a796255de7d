import UnifyFS.DispatchReads
import UnifyFS.ReadBounds
import Mathlib.Algebra.Order.BigOperators.Group.List
import Mathlib.Algebra.Order.Group.Nat

/-!
# Reads of length zero

`update_read_req_result` takes a request for complete when it has as many bytes as were
asked for, and then fills a hole at its beginning. The size of the hole is the offset of
the first byte that was read. A request of length zero is complete from the start, and if
nothing was read for it the offset is still the mark for an unset value, so that the whole
address space behind the user buffer is filled with zeros. Only a request that the client
serves from an extent around its offset escapes this.

`pread`, `lio_listio` and `unifyfs_dispatch_io` all lead to `process_gfid_reads`. They
differ in how they pass on its results.
-/
namespace UnifyFS.ZeroReads
open ListUpdates ClientRead GfidReads DispatchIo DispatchReads ReadBounds MachineWords SortedArrays
open List Option

/-- Allocations succeed, and the server takes the requests or finds no data for them. -/
structure FaultFree (env : ReadEnv) : Prop where
  reqsAllocated : env.reqsAllocated = true
  mreadCreated : env.mreadCreated = true
  bufferAllocated : env.bufferAllocated = true
  readRc : env.readRc = Rc.success ∨ env.readRc = Rc.enodata

/-- All requests of length zero are served from a log, and if there are any then the other
requests are not too many for the server. -/
def ServesZero (c : ReadClient) (rds : List ReadReq) : Prop :=
  (∀ r ∈ rds, r.length = 0 → c.servesLocally r = true ∧ c.Finishes r) ∧
    ((∃ r ∈ rds, r.length = 0) → (toServer c rds).length ≤ clientMaxReadCount)

/-- Where a request of length zero is, there will be one of length zero after the requests served
locally have moved to the front. -/
def InPlace (c : ReadClient) (rds : List ReadReq) : Prop :=
  ∀ (k : ℕ) (r : ReadReq), rds[k]? = some r → r.length = 0 →
    ∃ r' : ReadReq, (rds.filter c.servesLocally)[k]? = some r' ∧ r'.length = 0

def LocallyServed (c : ReadClient) (env : ReadEnv) (r d : ReadReq) : Prop :=
  ∃ i j u, serveLocal c (env.logRead i) (c.segments r) r = some u ∧
    updateReadReqResult (env.localSize j) u = some d

structure Processed (c : ReadClient) (env : ReadEnv) (rds : List ReadReq) (out : ReadsOut) :
    Prop where
  locals : List.Forall₂ (LocallyServed c env) ((started rds).filter c.servesLocally) out.localReads
  servers : (out.serverReads.map ReadReq.ident).Perm ((toServer c rds).map ReadReq.ident)
  kept : (out.inReqs.map ReadReq.ident).Perm (rds.map ReadReq.ident)
  finished : FaultFree env → (toServer c rds).length ≤ clientMaxReadCount →
    out.ret = Rc.success ∧ out.inReqs = out.localReads ++ out.serverReads
  asked : FaultFree env → (toServer c rds).length ≤ clientMaxReadCount → toServer c rds ≠ [] →
    awaitServer env (env.sort (toServer c rds)) = some (out.ret,out.serverReads)
  refused : clientMaxReadCount < (toServer c rds).length →
    out.ret = Rc.enospc ∧ ∃ s, serviceLocalReqs c env 0 (started rds) = some s ∧
      out.inReqs = s.inReqs

variable {c : ReadClient} {env : ReadEnv} {rds : List ReadReq} {out : ReadsOut} {r d : ReadReq}
  {logRead : ℕ → ℕ → ℕ → Rc × List UInt8} {denv : DispatchEnv}

theorem awaitServer_ret {reqs done : List ReadReq} {ret : Rc}
    (hrc : env.readRc = Rc.success ∨ env.readRc = Rc.enodata)
    (h : awaitServer env reqs = some (ret,done)) : ret = Rc.success := by
  unfold awaitServer at h
  split at h
  · next hne =>
    obtain ⟨d,-,hout⟩ := map_eq_some_iff.mp h
    rw [if_neg (not_not.mpr (hrc.resolve_left hne))] at hout
    exact (Prod.mk.inj hout).1.symm
  · obtain ⟨m,-,hrest⟩ := bind_eq_some_iff.mp h
    obtain ⟨d,-,hout⟩ := map_eq_some_iff.mp hrest
    exact (Prod.mk.inj hout).1.symm

theorem filter_servesLocally_nil (hatt : c.attempts = false) (l : List ReadReq) :
    l.filter c.servesLocally = [] := by
  apply filter_eq_nil_iff.mpr
  intro r _
  unfold ReadClient.servesLocally
  rw [hatt,Bool.false_and]
  decide

theorem readFromServer_spec {inReqs localReqs serverReqs : List ReadReq}
    (hsort : ∀ l, (env.sort l).Perm l) (hnone : c.attempts = false → localReqs = [])
    (hboth : (localReqs.map ReadReq.ident ++ serverReqs.map ReadReq.ident).Perm
      (inReqs.map ReadReq.ident))
    (h : readFromServer c env inReqs localReqs serverReqs = some out) : out.localReads = localReqs ∧
    (out.serverReads.map ReadReq.ident).Perm (serverReqs.map ReadReq.ident) ∧
    (out.inReqs.map ReadReq.ident).Perm (inReqs.map ReadReq.ident) ∧
    (FaultFree env → serverReqs.length ≤ clientMaxReadCount →
      out.ret = Rc.success ∧ out.inReqs = out.localReads ++ out.serverReads ∧
      awaitServer env (env.sort serverReqs) = some (out.ret,out.serverReads)) ∧
    (clientMaxReadCount < serverReqs.length → out.ret = Rc.enospc ∧ out.inReqs = inReqs) := by
  unfold readFromServer at h
  split at h
  · next hmax =>
    cases h
    exact ⟨rfl,.refl _,.refl _,fun _ hle => absurd hmax (Nat.not_lt.mpr hle),fun _ => ⟨rfl,rfl⟩⟩
  · next hmax =>
    have hperm := (hsort serverReqs).map ReadReq.ident
    have hall := (hperm.append_left _).trans hboth
    dsimp only at h
    split at h
    · obtain ⟨⟨ret,done⟩,hdone,rfl⟩ := map_eq_some_iff.mp h
      have hin : (if c.attempts then localReqs ++ done else done) = localReqs ++ done := by
        split
        · rfl
        · next hatt =>
          rw [hnone (Bool.eq_false_iff.mpr hatt)]
          rfl
      rw [← awaitServer_ident hdone] at hperm hall
      rw [← map_append,← hin] at hall
      exact ⟨rfl,hperm,hall,fun hf _ => ⟨awaitServer_ret hf.readRc hdone,hin,hdone⟩,
        fun hlt => absurd hlt hmax⟩
    · next hfault =>
      cases h
      refine ⟨rfl,hperm,?_,fun hf _ => absurd ?_ hfault,fun hlt => absurd hlt hmax⟩
      · split
        · exact .refl _
        · next hatt => rwa [hnone (Bool.eq_false_iff.mpr hatt)] at hall
      · rw [hf.mreadCreated,hf.bufferAllocated]
        rfl

theorem processGfidReads_processed (hsort : ∀ l, (env.sort l).Perm l) (hne : rds ≠ [])
    (halloc : c.attempts = true → env.reqsAllocated = true)
    (h : processGfidReads c env rds = some out) : Processed c env rds out := by
  rw [processGfidReads_eq hne halloc] at h
  obtain ⟨s,hs,h⟩ := bind_eq_some_iff.mp h
  obtain ⟨done,hdone,h⟩ := bind_eq_some_iff.mp h
  obtain ⟨hin,hlocalIdent,hserver⟩ := serviceLocalReqs_ident hs
  have hlocals : List.Forall₂ (LocallyServed c env) ((started rds).filter c.servesLocally) done :=
    forall₂_comp (serviceLocalReqs_forall₂ hs) (updateResults_forall₂ hdone)
      fun _ u _ ⟨i,hu⟩ ⟨j,hd⟩ => ⟨i,j,u,hu,hd⟩
  have hstart : s.inReqs.map ReadReq.ident = rds.map ReadReq.ident :=
    hin.trans (map_ident_withError _)
  -- the requests served locally, and then the others
  have hboth : (done.map ReadReq.ident ++ s.serverReqs.map ReadReq.ident).Perm
      (s.inReqs.map ReadReq.ident) := by
    rw [updateResults_ident hdone,hlocalIdent,hserver,← map_append,hin]
    exact (filter_append_perm c.servesLocally _).map _
  change s.serverReqs = toServer c rds at hserver
  split at h
  · next hnil =>
    cases h
    rw [hnil,map_nil,append_nil,hstart] at hboth
    rw [hserver] at hnil
    refine ⟨hlocals,by rw [hnil],hboth,fun _ _ => ⟨rfl,(append_nil _).symm⟩,
      fun _ _ hne => absurd hnil hne,fun hlt => ?_⟩
    rw [hnil] at hlt
    cases hlt
  · have hnone : c.attempts = false → done = [] := by
      intro hatt
      rw [filter_servesLocally_nil hatt] at hlocals
      cases hlocals
      rfl
    obtain ⟨hlocal,hident,hkept,hfinished,hrefused⟩ := readFromServer_spec hsort hnone hboth h
    rw [hserver] at hident hfinished hrefused
    refine ⟨hlocal ▸ hlocals,hident,hstart ▸ hkept,fun hf hle => ?_,
      fun hf hle _ => (hfinished hf hle).2.2,fun hlt => ?_⟩
    · exact ⟨(hfinished hf hle).1,(hfinished hf hle).2.1⟩
    · obtain ⟨hret,hin⟩ := hrefused hlt
      exact ⟨hret,s,hs,hin⟩

/-- A request of length zero for which at most no bytes were read. -/
structure EmptyRead (r : ReadReq) : Prop where
  length_eq : r.length = 0
  nread_eq : r.nread = 0
  errcode_eq : r.errcode = Rc.einprogress
  cover : r.coverBegin = none ∨ r.coverBegin = some 0

theorem EmptyRead.serveExtent {n : SegNode} (h : EmptyRead r) (hmeets : Meets r n)
    (hok : ∀ cl off, (logRead cl off 0).1 = Rc.success)
    (hlog : ∀ cl off len, (logRead cl off len).2.length ≤ len)
    (hserve : serveExtent c logRead r n = some d) : EmptyRead d := by
  obtain ⟨⟨reqOffset,extOffset,len⟩,hcov,rfl⟩ := map_eq_some_iff.mp hserve
  obtain ⟨hfits,-⟩ := getExtentCoverage_fits hmeets hcov
  rw [h.length_eq] at hfits
  obtain ⟨rfl,rfl⟩ : reqOffset = 0 ∧ len = 0 := by omega
  dsimp only
  split
  · rw [if_pos (hok _ _)]
    have hnone : (logRead n.clientId (n.ptr + extOffset) 0).2 = [] :=
      length_eq_zero_iff.mp (Nat.le_zero.mp (hlog _ _ _))
    rw [hnone]
    have hframe := coverage_frame (r.putBytes 0 []) 0 0
    refine ⟨hframe.2.1.trans h.length_eq,?_,hframe.2.2.1.trans h.errcode_eq,?_⟩
    · have hle := coverage_nread_le (r.putBytes 0 []) 0 0
      change _ ≤ max r.nread 0 at hle
      rw [h.nread_eq] at hle
      exact Nat.le_zero.mp hle
    · right
      rw [length_nil,coverage_begin]
      rcases h.cover with hc | hc
      · rw [show (r.putBytes 0 []).coverBegin = none from hc]
        rfl
      · rw [show (r.putBytes 0 []).coverBegin = some 0 from hc]
        rfl
  · exact h

theorem EmptyRead.serveLocal {segs : List SegNode} (h : EmptyRead r)
    (hmeets : ∀ n ∈ segs, Meets r n) (hok : ∀ cl off, (logRead cl off 0).1 = Rc.success)
    (hlog : ∀ cl off len, (logRead cl off len).2.length ≤ len)
    (hserve : serveLocal c logRead segs r = some d) : EmptyRead d := by
  refine serveLocal_induct h (fun n hn q u hid hq hu => ?_) hserve
  exact hq.serveExtent ((hmeets n hn).of_ident hid) hok hlog hu

theorem locallyServed_zero (hc : Conforming c rds env) (hfresh : Fresh r) (hlen : r.length = 0)
    (herr : r.errcode = Rc.einprogress) (hfinish : c.Finishes r) (h : LocallyServed c env r d) :
    d.errcode = Rc.success ∧ d.nread = 0 := by
  obtain ⟨i,j,u,hu,hd⟩ := h
  have hmeets : ∀ n ∈ c.segments r, Meets r n := fun n hn => meets_of_mem_segments hn
  have hempty : EmptyRead u := by
    apply EmptyRead.serveLocal ⟨hlen,hfresh.1,herr,.inl hfresh.2⟩ hmeets _ _ hu
    · exact hc.logRead_zero i
    · exact hc.logRead_le i
  have hcover : u.coverBegin = some 0 := by
    obtain ⟨u',hu',-,-,hnone⟩ := serveLocal_spec hmeets
    obtain rfl := some.inj (hu'.symm.trans hu)
    refine hempty.cover.resolve_left (hnone hlen (hc.logRead_zero i) ?_)
    exact hfinish.resolve_left (by omega)
  unfold updateReadReqResult ReadReq.assumeSuccess at hd
  rw [if_pos hempty.errcode_eq] at hd
  rw [if_neg (fun hne => hne.1 rfl),if_pos (hempty.nread_eq.trans hempty.length_eq.symm),
    hcover] at hd
  cases hd
  exact ⟨rfl,hempty.nread_eq⟩

theorem locallyServed_ident (h : LocallyServed c env r d) : d.ident = r.ident := by
  obtain ⟨i,j,u,hu,hd⟩ := h
  exact (updateReadReqResult_ident hd).trans (serveLocal_ident hu)

theorem started_filter (c : ReadClient) (rds : List ReadReq) :
    (started rds).filter c.servesLocally = started (rds.filter c.servesLocally) := by
  rw [List.filter_map]
  rfl

theorem Processed.map_ident_locals (hp : Processed c env rds out) :
    out.localReads.map ReadReq.ident = (rds.filter c.servesLocally).map ReadReq.ident := by
  rw [map_eq_of_forall₂ (hp.locals.imp fun _ _ h => locallyServed_ident h),started_filter]
  exact map_ident_withError _

theorem Processed.zero_local (hp : Processed c env rds out) (hc : Conforming c rds env)
    (hfresh : ∀ r ∈ rds, Fresh r)
    (hzero : ∀ r ∈ rds, r.length = 0 → c.servesLocally r = true ∧ c.Finishes r)
    (hd : d ∈ out.localReads) (hlen : d.length = 0) : d.errcode = Rc.success ∧ d.nread = 0 := by
  obtain ⟨r,hr,hserved⟩ := exists_of_mem_right hp.locals hd
  have hrlen := (length_of_ident (locallyServed_ident hserved)).symm.trans hlen
  obtain ⟨q,hq,rfl⟩ := mem_map.mp (mem_of_mem_filter hr)
  exact locallyServed_zero (r := q.withError Rc.einprogress) hc (hfresh q hq) hrlen rfl
    (hzero q hq hrlen).2 hserved

theorem Processed.server_pos (hp : Processed c env rds out)
    (hzero : ∀ r ∈ rds, r.length = 0 → c.servesLocally r = true ∧ c.Finishes r)
    (hd : d ∈ out.serverReads) : 0 < d.length := by
  refine Nat.pos_of_ne_zero fun hlen => ?_
  obtain ⟨r,hr,hident⟩ := mem_map.mp (hp.servers.subset (mem_map_of_mem hd))
  rw [toServer_eq] at hr
  obtain ⟨q,hq,rfl⟩ := mem_map.mp hr
  obtain ⟨hq,hnot⟩ := mem_filter.mp hq
  have hqlen := (length_of_ident hident).trans hlen
  rw [(hzero q hq hqlen).1] at hnot
  cases hnot

section
variable (hsort : ∀ l, (env.sort l).Perm l) (h : processGfidReads c env rds = some out)
include hsort h

theorem processGfidReads_inReqs : (out.inReqs.map ReadReq.ident).Perm (rds.map ReadReq.ident) := by
  by_cases hne : rds = []
  · subst hne
    cases h
    exact .refl _
  by_cases halloc : c.attempts = true → env.reqsAllocated = true
  · exact (processGfidReads_processed hsort hne halloc h).kept
  · rw [processGfidReads_no_memory hne halloc] at h
    cases h
    rw [map_ident_withError]

theorem length_inReqs : out.inReqs.length = rds.length := by
  have hlength := (processGfidReads_inReqs hsort h).length_eq
  rwa [length_map,length_map] at hlength

theorem length_reported : (reported out).length = rds.length := by
  unfold reported
  split_ifs
  · rw [length_map,length_inReqs hsort h]
  · exact length_inReqs hsort h

theorem exists_zero_of_inReqs {d : ReadReq} (hd : d ∈ out.inReqs) (hlen : d.length = 0) :
    ∃ r ∈ rds, r.length = 0 := by
  have hmem := (processGfidReads_inReqs hsort h).subset (mem_map_of_mem hd)
  obtain ⟨r,hr,hident⟩ := mem_map.mp hmem
  exact ⟨r,hr,(length_of_ident hident).trans hlen⟩

end

/-- The results of the requests of length zero, wherever they are in the array. -/
theorem zero_inReqs (hc : Conforming c rds env) (hfresh : ∀ r ∈ rds, Fresh r)
    (hserves : ServesZero c rds) (hf : FaultFree env) (h : processGfidReads c env rds = some out)
    (hd : d ∈ out.inReqs) (hlen : d.length = 0) : d.errcode = Rc.success ∧ d.nread = 0 := by
  obtain ⟨r,hr,hrlen⟩ := exists_zero_of_inReqs hc.sort_perm h hd hlen
  have hp := processGfidReads_processed hc.sort_perm (ne_nil_of_mem hr)
    (fun _ => hf.reqsAllocated) h
  rw [(hp.finished hf (hserves.2 ⟨r,hr,hrlen⟩)).2] at hd
  rcases mem_append.mp hd with hlocal | hserver
  · exact hp.zero_local hc hfresh hserves.1 hlocal hlen
  · have := hp.server_pos hserves.1 hserver
    omega

theorem zero_reported (hc : Conforming c rds env) (hfresh : ∀ r ∈ rds, Fresh r)
    (hserves : ServesZero c rds) (hplace : InPlace c rds) (hf : FaultFree env)
    (h : processGfidReads c env rds = some out) {k : ℕ} (hr : rds[k]? = some r)
    (hlen : r.length = 0) (hd : (reported out)[k]? = some d) :
    d.errcode = Rc.success ∧ d.nread = 0 := by
  have hmem := mem_of_getElem? hr
  have hp := processGfidReads_processed hc.sort_perm (ne_nil_of_mem hmem)
    (fun _ => hf.reqsAllocated) h
  obtain ⟨hret,hin⟩ := hp.finished hf (hserves.2 ⟨r,hmem,hlen⟩)
  obtain ⟨r',hr',hlen'⟩ := hplace k r hr hlen
  obtain ⟨d',hd',hident⟩ : ∃ d', out.localReads[k]? = some d' ∧ d'.ident = r'.ident := by
    have hk : (out.localReads.map ReadReq.ident)[k]? = some r'.ident := by
      rw [hp.map_ident_locals,getElem?_map,hr',map_some]
    rw [getElem?_map] at hk
    exact map_eq_some_iff.mp hk
  rw [reported,if_neg (not_not.mpr hret),hin,
    getElem?_append_left (List.getElem?_eq_some_iff.mp hd').choose,hd'] at hd
  cases hd
  exact hp.zero_local hc hfresh hserves.1 (mem_of_getElem? hd')
    ((length_of_ident hident).trans hlen')

/-- Nothing fails, the server finds no data, and every file ends behind the requests. -/
def noData (rds : List ReadReq) : ReadEnv :=
  { quiet (·.mergeSort readLe) with
    readRc := Rc.enodata
    localSize := fun _ => ((rds.map ReadReq.offset).sum + 1 : ℕ)
    serverSize := fun _ => ((rds.map ReadReq.offset).sum + 1 : ℕ) }

theorem noData_conforming (c : ReadClient) (rds : List ReadReq) : Conforming c rds (noData rds) :=
  conforming_of_quiet mergeSort_sorts rfl (by simp [noData,quiet])

theorem noData_faultFree (rds : List ReadReq) : FaultFree (noData rds) := ⟨rfl,rfl,rfl,.inr rfl⟩

theorem noData_sort (rds l : List ReadReq) : ((noData rds).sort l).Perm l := (mergeSort_sorts l).1

theorem offset_lt_size (hr : r ∈ rds) : r.offset < (rds.map ReadReq.offset).sum + 1 :=
  Nat.lt_succ_of_le (single_le_sum (fun _ _ => Nat.zero_le _) _ (mem_map_of_mem hr))

theorem nread_pos_of_result {size : ℕ} {d : ReadReq} (hlen : 0 < r.length)
    (hnread : r.nread ≤ r.length) (hsize : r.offset < size)
    (herr : r.errcode = Rc.einprogress ∨ r.errcode = Rc.enodata)
    (h : updateReadReqResult size r = some d) : 0 < d.nread := by
  have hq : r.assumeSuccess.offset = r.offset ∧ r.assumeSuccess.length = r.length ∧
      r.assumeSuccess.nread = r.nread ∧
      (r.assumeSuccess.errcode = Rc.success ∨ r.assumeSuccess.errcode = Rc.enodata) := by
    unfold ReadReq.assumeSuccess
    split
    · exact ⟨rfl,rfl,rfl,.inl rfl⟩
    · next hne => exact ⟨rfl,rfl,rfl,.inr (herr.resolve_left hne)⟩
  unfold updateReadReqResult at h
  generalize r.assumeSuccess = q at h hq
  dsimp only at h
  rw [if_neg (by tauto)] at h
  split at h
  · split at h
    · cases h
    · cases h
      omega
    · cases h
      change 0 < q.nread
      omega
  · rw [if_neg (by omega),if_neg (by omega)] at h
    split at h
    · cases h
      change 0 < q.nread + _
      split_ifs <;> omega
    · cases h
      omega

theorem noData_local_pos {d : ReadReq} (hr : r ∈ started rds) (hfresh : Fresh r)
    (h : LocallyServed c (noData rds) r d) (hlen : 0 < d.length) : 0 < d.nread := by
  have hident := locallyServed_ident h
  obtain ⟨i,j,u,hu,hd⟩ := h
  have huident := serveLocal_ident hu
  have hwithin := (Within.of_fresh hfresh).serveLocal
    (fun n hn => meets_of_mem_segments hn) ((noData_conforming c rds).logRead_le i) hu
  obtain ⟨q,hq,rfl⟩ := mem_map.mp hr
  have herr := serveLocal_errcode (fun _ _ _ => rfl) hu
  have hoffset : u.offset = q.offset := congrArg (fun x => x.2.1) huident
  have hulen := (length_of_ident huident).trans (length_of_ident hident).symm
  apply nread_pos_of_result (by omega) hwithin.nread_le _ (.inl herr) hd
  rw [hoffset]
  exact offset_lt_size hq

theorem noData_server (hmax : (toServer c rds).length ≤ clientMaxReadCount)
    (hserver : toServer c rds ≠ []) (h : processGfidReads c (noData rds) rds = some out) :
    updateResults (noData rds).serverSize 0 (((noData rds).sort (toServer c rds)).map
      (ReadReq.withError Rc.enodata)) = some out.serverReads := by
  have hne : rds ≠ [] := by
    rintro rfl
    exact hserver rfl
  have hp := processGfidReads_processed (noData_sort rds) hne (fun _ => rfl) h
  obtain ⟨d,hd,hout⟩ := map_eq_some_iff.mp (hp.asked (noData_faultFree rds) hmax hserver)
  obtain ⟨-,rfl⟩ := Prod.mk.inj hout
  exact hd

theorem mem_noData_sort
    (h : r ∈ ((noData rds).sort (toServer c rds)).map (ReadReq.withError Rc.enodata)) :
    ∃ q ∈ rds, r = (q.withError Rc.einprogress).withError Rc.enodata := by
  obtain ⟨p,hp,rfl⟩ := mem_map.mp h
  obtain ⟨q,hq,rfl⟩ := mem_map.mp (mem_of_mem_filter ((noData_sort rds _).subset hp))
  exact ⟨q,hq,rfl⟩

section
variable (hfresh : ∀ r ∈ rds, Fresh r) (hmax : (toServer c rds).length ≤ clientMaxReadCount)
  (h : processGfidReads c (noData rds) rds = some out)
include hfresh hmax h

theorem noData_server_pos {d : ReadReq} (hp : Processed c (noData rds) rds out)
    (hd : d ∈ out.serverReads) (hlen : 0 < d.length) : 0 < d.nread := by
  have hserver : toServer c rds ≠ [] := by
    intro hnil
    have hmem := hp.servers.subset (mem_map_of_mem hd)
    rw [hnil] at hmem
    cases hmem
  obtain ⟨r,hr,k,hres⟩ :=
    exists_of_mem_right (updateResults_forall₂ (noData_server hmax hserver h)) hd
  obtain ⟨q,hq,rfl⟩ := mem_noData_sort hr
  have hdlen := length_of_ident (updateReadReqResult_ident hres)
  have hnread : q.nread = 0 := (hfresh q hq).1
  refine nread_pos_of_result (r := (q.withError Rc.einprogress).withError Rc.enodata)
    (hdlen ▸ hlen) ?_ (show q.offset < _ from offset_lt_size hq) (.inr rfl) hres
  change q.nread ≤ q.length
  omega

theorem served_of_noData {r : ReadReq} (hr : r ∈ rds) (hlen : r.length = 0) :
    c.servesLocally r = true ∧ c.Finishes r := by
  have hlocal : c.servesLocally r = true := by
    by_contra hnot
    have hmem : r.withError Rc.einprogress ∈ toServer c rds := by
      refine mem_filter.mpr ⟨mem_map_of_mem hr,?_⟩
      rw [servesLocally_withError,Bool.eq_false_iff.mpr hnot]
      rfl
    obtain ⟨k,d,hd⟩ := updateResults_mem (noData_server hmax (ne_nil_of_mem hmem) h)
      (mem_map_of_mem ((noData_sort rds _).symm.subset hmem))
    have hnone : updateReadReqResult ((noData rds).serverSize k)
        ((r.withError Rc.einprogress).withError Rc.enodata) = none :=
      updateReadReqResult_zero (hfresh r hr) hlen (.inr rfl)
    cases hnone.symm.trans hd
  exact ⟨hlocal,finishes_of_returns rfl hr (hfresh r hr) hlocal h⟩

end

theorem refused_noData (hmax : clientMaxReadCount < (toServer c rds).length)
    (hp : Processed c (noData rds) rds out) :
    out.ret = Rc.enospc ∧ ∀ d ∈ out.inReqs, d.errcode = Rc.einprogress := by
  obtain ⟨hret,s,hs,hin⟩ := hp.refused hmax
  refine ⟨hret,hin ▸ (serviceLocalReqs_errcode (fun _ _ _ _ => rfl) ?_ hs).1⟩
  exact forall_mem_map.mpr fun _ _ => rfl

theorem inPlace_of_noData (hfresh : ∀ r ∈ rds, Fresh r) (hserves : ServesZero c rds)
    (h : processGfidReads c (noData rds) rds = some out)
    (hreported : ∀ (k : ℕ) (r d : ReadReq), rds[k]? = some r → (reported out)[k]? = some d →
      r.length = 0 → d.nread = 0) : InPlace c rds := by
  intro k r hr hlen
  have hmem := mem_of_getElem? hr
  have hmax := hserves.2 ⟨r,hmem,hlen⟩
  have hp := processGfidReads_processed (noData_sort rds) (ne_nil_of_mem hmem) (fun _ => rfl) h
  obtain ⟨hret,hin⟩ := hp.finished (noData_faultFree rds) hmax
  have hlength := length_inReqs (noData_sort rds) h
  have hsame : reported out = out.inReqs := if_neg (not_not.mpr hret)
  obtain ⟨d,hd⟩ : ∃ d, out.inReqs[k]? = some d := by
    have hk := (List.getElem?_eq_some_iff.mp hr).choose
    exact ⟨_,getElem?_eq_getElem (by omega)⟩
  have hzero : d.nread = 0 := hreported k r d hr (hsame ▸ hd) hlen
  rw [hin,getElem?_append] at hd
  split_ifs at hd with hk
  · have hlocal := mem_of_getElem? hd
    have hdlen : d.length = 0 := by
      obtain ⟨q,hq,hserved⟩ := exists_of_mem_right hp.locals hlocal
      have hq' := mem_of_mem_filter hq
      by_contra hne
      have := noData_local_pos hq' (fresh_started hfresh q hq') hserved (Nat.pos_of_ne_zero hne)
      omega
    have hident : ((rds.filter c.servesLocally).map ReadReq.ident)[k]? = some d.ident := by
      rw [← hp.map_ident_locals,getElem?_map,hd,map_some]
    rw [getElem?_map] at hident
    obtain ⟨r',hr',hid⟩ := map_eq_some_iff.mp hident
    exact ⟨r',hr',(length_of_ident hid).trans hdlen⟩
  · have hserver := mem_of_getElem? hd
    have := noData_server_pos hfresh hmax h hp hserver (hp.server_pos hserves.1 hserver)
    omega

def preadReq (gfid : ℤ) (buf : List UInt8) (addr count offset : ℕ) : ReadReq :=
  ⟨gfid,offset,count,buf,none,none,0,0,addr⟩

/-- What `pread` returns for the array with its one request. -/
def preadCount (out : ReadsOut) : ℤ :=
  if out.ret ≠ Rc.success then -1
  else
    match out.inReqs with
    | [] => -1
    | req :: _ => if req.errcode ≠ Rc.success then -1 else req.nread

/-- `pread` of a file; `gfid` is missing if there is no file for the descriptor. The sync before the
read does not touch the request, and its result is ignored. -/
def pread (c : ReadClient) (env : ReadEnv) (gfid : Option ℤ) (buf : List UInt8)
    (addr count offset : ℕ) : Option (ℤ × ReadsOut) :=
  match gfid with
  | none => some (-1,⟨Rc.success,[],[],[]⟩)
  | some gfid => (processGfidReads c env [preadReq gfid buf addr count offset]).map fun out =>
    (preadCount out,out)

inductive LioOpcode where
  | read | write | nop
  deriving DecidableEq, Repr

/-- What a descriptor stands for: a file that is not intercepted, no file, or a file with its
gfid. -/
inductive LioFile where
  | real | invalid | file (gfid : ℤ)
  deriving DecidableEq, Repr

structure Aiocb where
  fildes : LioFile
  opcode : LioOpcode
  offset : ℕ
  nbytes : ℕ
  /-- `aio_buf`, and the memory there. -/
  buf : ℕ
  bytes : List UInt8
  fits : offset + nbytes < wordSize
  deriving DecidableEq, Repr

/-- Only intercepted reads become requests. -/
def Aiocb.toRead (cb : Aiocb) : Option ReadReq :=
  match cb.opcode, cb.fildes with
  | .read, .file gfid => some ⟨gfid,cb.offset,cb.nbytes,cb.bytes,none,none,0,0,cb.buf⟩
  | _, _ => none

/-- What a request leaves in its control block. The pointer to the block moves with the request.
The value is set only without an error, and then to the length that was asked for. -/
structure LioReport where
  req : ReadReq
  errorCode : Rc
  returnVal : Option ℕ
  deriving DecidableEq, Repr

def lioReport (req : ReadReq) : LioReport :=
  ⟨req,req.errcode.errno,if req.errcode = 0 then some req.length else none⟩

structure LioOut where
  ret : ℤ
  reports : List LioReport
  reads : ReadsOut

/-- `lio_listio`, as far as its intercepted reads are concerned. -/
def lioListio (c : ReadClient) (env : ReadEnv) (items : List Aiocb) : Option LioOut :=
  (processGfidReads c env (items.filterMap Aiocb.toRead)).map fun out =>
    ⟨if out.ret ≠ Rc.success then -1 else 0,out.inReqs.map lioReport,out⟩

inductive ReadCall where
  | pread (gfid : ℤ) (buf : List UInt8) (addr count offset : ℕ) (fits : offset + count < wordSize)
  | lioListio (items : List Aiocb)
  | dispatchIo (reqs : List IoRequest) (known : ∀ q ∈ reqs, q.op ≠ .unknown)

namespace ReadCall

def reads : ReadCall → List ReadReq
  | .pread gfid buf addr count offset _ => [preadReq gfid buf addr count offset]
  | .lioListio items => items.filterMap Aiocb.toRead
  | .dispatchIo reqs _ => (reqs.filter fun q => q.op = .read).map IoRequest.toRead

/-- All requests that were issued have stayed inside their buffers. -/
def Untouched (rds : List ReadReq) (out : ReadsOut) : Prop :=
  ∃ l, l.Subperm (started rds) ∧ List.Forall₂ Within l (out.localReads ++ out.serverReads)

/-- The call returns and has written to no memory behind a buffer. If nothing fails, then a
request of length zero completes with success and a count of zero. -/
def Completes (c : ReadClient) (env : DispatchEnv) : ReadCall → Prop
  | .pread gfid buf addr count offset _ =>
    ∃ n out, ZeroReads.pread c env.toReadEnv (some gfid) buf addr count offset = some (n,out) ∧
      Untouched [preadReq gfid buf addr count offset] out ∧
      (FaultFree env.toReadEnv → count = 0 → n = 0)
  | .lioListio items =>
    ∃ out, ZeroReads.lioListio c env.toReadEnv items = some out ∧
      Untouched (items.filterMap Aiocb.toRead) out.reads ∧
      (out.reports.map fun rep => rep.req.ident).Perm
        ((items.filterMap Aiocb.toRead).map ReadReq.ident) ∧
      (FaultFree env.toReadEnv → ∀ rep ∈ out.reports, rep.req.length = 0 →
        rep.errorCode = 0 ∧ rep.returnVal = some 0)
  | .dispatchIo reqs _ =>
    ∃ out, DispatchIo.dispatchIo c env reqs = some out ∧
      Untouched ((reqs.filter fun q => q.op = .read).map IoRequest.toRead) out.reads ∧
      out.reqs.length = reqs.length ∧
      (FaultFree env.toReadEnv → env.arraysAllocated = true →
        ∀ p ∈ reqs.zip out.reqs, p.1.op = .read → p.1.nbytes = 0 →
          p.2.state = .completed ∧ p.2.result.error = Rc.success ∧ p.2.result.count = 0)

/-- The requests of length zero are served from a log. Results that are passed on by position
must stay in place as well. -/
def ServesZeroReads (c : ReadClient) : ReadCall → Prop
  | .dispatchIo reqs known =>
    ServesZero c (dispatchIo reqs known).reads ∧ InPlace c (dispatchIo reqs known).reads
  | call => ServesZero c call.reads

end ReadCall

variable {reqs : List IoRequest}

theorem untouched (hc : Conforming c rds env) (hfresh : ∀ r ∈ rds, Fresh r)
    (h : processGfidReads c env rds = some out) : ReadCall.Untouched rds out := by
  obtain ⟨l,hperm,hwithin⟩ := processGfidReads_within hc.sort_perm hc.logRead_le hfresh h
  exact ⟨l,hperm.subperm,hwithin⟩

theorem servesZero_of_noData (hfresh : ∀ r ∈ rds, Fresh r)
    (h : processGfidReads c (noData rds) rds = some out)
    (hmax : (∃ r ∈ rds, r.length = 0) → (toServer c rds).length ≤ clientMaxReadCount) :
    ServesZero c rds :=
  ⟨fun _ hr hlen => served_of_noData hfresh (hmax ⟨_,hr,hlen⟩) h hr hlen,hmax⟩

theorem pread_iff (r : ReadReq) (hfresh : Fresh r) :
    (∀ env, Conforming c [r] env → ∃ out, processGfidReads c env [r] = some out ∧
      ReadCall.Untouched [r] out ∧ (FaultFree env → r.length = 0 → preadCount out = 0)) ↔
      ServesZero c [r] := by
  have hall : ∀ q ∈ [r], Fresh q := by simpa using hfresh
  constructor
  · intro h
    obtain ⟨out,hout,-⟩ := h _ (noData_conforming c [r])
    refine servesZero_of_noData hall hout fun _ => ?_
    exact (length_filter_le _ _).trans (by simp [clientMaxReadCount])
  · intro hserves env hc
    obtain ⟨out,hout⟩ := processGfidReads_isSome hc hall hserves.1
    refine ⟨out,hout,untouched hc hall hout,fun hf hlen => ?_⟩
    have hp := processGfidReads_processed hc.sort_perm (cons_ne_nil _ _)
      (fun _ => hf.reqsAllocated) hout
    obtain ⟨hret,-⟩ := hp.finished hf (hserves.2 ⟨r,mem_cons_self,hlen⟩)
    obtain ⟨d,hd⟩ := length_eq_one_iff.mp (length_inReqs hc.sort_perm hout)
    have hident : d.ident = r.ident := by simpa [hd] using hp.kept
    obtain ⟨herr,hnread⟩ := zero_inReqs hc hall hserves hf hout (hd ▸ mem_cons_self)
      ((length_of_ident hident).trans hlen)
    rw [preadCount,if_neg (not_not.mpr hret),hd]
    dsimp only
    rw [if_neg (not_not.mpr herr),hnread]
    rfl

theorem lioReport_zero {r : ReadReq} (hlen : r.length = 0) :
    (lioReport r).errorCode = 0 ∧ (lioReport r).returnVal = some 0 ↔ r.errcode = Rc.success := by
  unfold lioReport
  rw [Rc.errno_eq_zero_iff,hlen]
  constructor
  · exact And.left
  · intro h
    exact ⟨h,if_pos h⟩

theorem lioListio_iff (hfresh : ∀ r ∈ rds, Fresh r) :
    (∀ env, Conforming c rds env → ∃ out, processGfidReads c env rds = some out ∧
      ReadCall.Untouched rds out ∧ (out.inReqs.map ReadReq.ident).Perm (rds.map ReadReq.ident) ∧
      (FaultFree env → ∀ d ∈ out.inReqs, d.length = 0 → d.errcode = Rc.success)) ↔
      ServesZero c rds := by
  constructor
  · intro h
    obtain ⟨out,hout,-,hident,hzero⟩ := h _ (noData_conforming c rds)
    refine servesZero_of_noData hfresh hout ?_
    rintro ⟨r,hr,hlen⟩
    by_contra hmax
    have hp := processGfidReads_processed (noData_sort rds) (ne_nil_of_mem hr) (fun _ => rfl) hout
    obtain ⟨-,herr⟩ := refused_noData (Nat.lt_of_not_le hmax) hp
    obtain ⟨d,hd,hid⟩ := mem_map.mp (hident.symm.subset (mem_map_of_mem hr))
    have hsuccess := hzero (noData_faultFree rds) d hd ((length_of_ident hid).trans hlen)
    rw [herr d hd] at hsuccess
    exact absurd hsuccess (by decide)
  · intro hserves env hc
    obtain ⟨out,hout⟩ := processGfidReads_isSome hc hfresh hserves.1
    refine ⟨out,hout,untouched hc hfresh hout,processGfidReads_inReqs hc.sort_perm hout,?_⟩
    intro hf d hd hlen
    exact (zero_inReqs hc hfresh hserves hf hout hd hlen).1

theorem dispatchIo_iff (hfresh : ∀ r ∈ rds, Fresh r) :
    (∀ env, Conforming c rds env → ∃ out, processGfidReads c env rds = some out ∧
      ReadCall.Untouched rds out ∧ (FaultFree env → ∀ (k : ℕ) (r d : ReadReq), rds[k]? = some r →
        (reported out)[k]? = some d → r.length = 0 → d.errcode = Rc.success ∧ d.nread = 0)) ↔
      ServesZero c rds ∧ InPlace c rds := by
  constructor
  · intro h
    obtain ⟨out,hout,-,hzero⟩ := h _ (noData_conforming c rds)
    have hzero := hzero (noData_faultFree rds)
    have hserves : ServesZero c rds := by
      refine servesZero_of_noData hfresh hout ?_
      rintro ⟨r,hr,hlen⟩
      by_contra hmax
      have hp := processGfidReads_processed (noData_sort rds) (ne_nil_of_mem hr) (fun _ => rfl) hout
      obtain ⟨hret,-⟩ := refused_noData (Nat.lt_of_not_le hmax) hp
      obtain ⟨k,hk⟩ := mem_iff_getElem?.mp hr
      have hlength := length_inReqs (noData_sort rds) hout
      have hlt := (List.getElem?_eq_some_iff.mp hk).choose
      obtain ⟨d,hd⟩ : ∃ d, out.inReqs[k]? = some d := ⟨_,getElem?_eq_getElem (by omega)⟩
      have hreported : (reported out)[k]? = some (d.withError Rc.enospc) := by
        rw [reported,hret,if_pos (by decide),getElem?_map,hd,map_some]
      exact absurd (hzero k r _ hk hreported hlen).1 (show Rc.enospc ≠ Rc.success by decide)
    exact ⟨hserves,inPlace_of_noData hfresh hserves hout fun k r d hr hd hlen =>
      (hzero k r d hr hd hlen).2⟩
  · rintro ⟨hserves,hplace⟩ env hc
    obtain ⟨out,hout⟩ := processGfidReads_isSome hc hfresh hserves.1
    refine ⟨out,hout,untouched hc hfresh hout,fun hf k r d hr hd hlen => ?_⟩
    exact zero_reported hc hfresh hserves hplace hf hout hr hlen hd

theorem copyBack_zip (others : IoRequest → IoRequest) (known : ∀ q ∈ reqs, q.op ≠ .unknown)
    {rds : List ReadReq} (hlen : rds.length = (reqs.filter fun q => q.op = .read).length) :
    (copyBack others rds (reqs.map IoRequest.reset)).length = reqs.length ∧
    (reqs.zip (copyBack others rds (reqs.map IoRequest.reset))).filter (fun p => p.1.op = .read) =
      List.zipWith (fun q rd => (q,q.reset.complete rd))
        (reqs.filter fun q => q.op = .read) rds := by
  induction reqs generalizing rds with
  | nil => exact ⟨rfl,rfl⟩
  | cons q rest ih =>
    have hrest : ∀ q ∈ rest, q.op ≠ .unknown := fun q hq => known q (mem_cons_of_mem _ hq)
    by_cases hop : q.op = .read
    · rw [filter_cons_of_pos (by simpa using hop)] at hlen ⊢
      obtain ⟨rd,rds,rfl⟩ := exists_cons_of_length_eq_add_one hlen
      obtain ⟨hlength,hzip⟩ := ih hrest (Nat.succ.inj hlen)
      have hcopy : copyBack others (rd :: rds) ((q :: rest).map IoRequest.reset) =
          q.reset.complete rd :: copyBack others rds (rest.map IoRequest.reset) := by
        rw [map_cons,copyBack,show q.reset.op = .read from hop]
      rw [hcopy,zip_cons_cons,filter_cons_of_pos (by simpa using hop),hzip]
      exact ⟨congrArg (· + 1) hlength,rfl⟩
    · rw [filter_cons_of_neg (by simpa using hop)] at hlen ⊢
      obtain ⟨hlength,hzip⟩ := ih hrest hlen
      obtain ⟨q',hcopy⟩ : ∃ q', copyBack others rds ((q :: rest).map IoRequest.reset) =
          q' :: copyBack others rds (rest.map IoRequest.reset) := by
        have hreset : q.reset.op = q.op := rfl
        rw [map_cons,copyBack.eq_def]
        dsimp only
        cases hq : q.op <;> simp_all
      rw [hcopy,zip_cons_cons,filter_cons_of_neg (by simpa using hop)]
      exact ⟨congrArg (· + 1) hlength,hzip⟩

theorem copyBack_zero_iff (others : IoRequest → IoRequest) (known : ∀ q ∈ reqs, q.op ≠ .unknown)
    {rds : List ReadReq} (hlen : rds.length = (reqs.filter fun q => q.op = .read).length) :
    (∀ p ∈ reqs.zip (copyBack others rds (reqs.map IoRequest.reset)), p.1.op = .read →
      p.1.nbytes = 0 →
        p.2.state = .completed ∧ p.2.result.error = Rc.success ∧ p.2.result.count = 0) ↔
    ∀ (k : ℕ) (r d : ReadReq),
      ((reqs.filter fun q => q.op = .read).map IoRequest.toRead)[k]? = some r →
      rds[k]? = some d → r.length = 0 → d.errcode = Rc.success ∧ d.nread = 0 := by
  obtain ⟨-,hzip⟩ := copyBack_zip others known hlen
  constructor
  · intro h k r d hr hd hzero
    rw [getElem?_map] at hr
    obtain ⟨q,hq,rfl⟩ := map_eq_some_iff.mp hr
    have hmem : (q,q.reset.complete d) ∈
        (reqs.zip (copyBack others rds (reqs.map IoRequest.reset))).filter
          fun p => p.1.op = .read := by
      rw [hzip]
      exact mem_of_getElem? (getElem?_zipWith_eq_some.mpr ⟨q,d,hq,hd,rfl⟩)
    obtain ⟨hmem,hop⟩ := mem_filter.mp hmem
    exact (h _ hmem (of_decide_eq_true hop) hzero).2
  · intro h p hp hop hzero
    have hmem : p ∈ (reqs.zip (copyBack others rds (reqs.map IoRequest.reset))).filter
        fun p => p.1.op = .read := mem_filter.mpr ⟨hp,decide_eq_true hop⟩
    rw [hzip] at hmem
    obtain ⟨k,hk⟩ := mem_iff_getElem?.mp hmem
    obtain ⟨q,d,hq,hd,rfl⟩ := getElem?_zipWith_eq_some.mp hk
    refine ⟨rfl,h k q.toRead d ?_ hd hzero⟩
    rw [getElem?_map,hq,map_some]

theorem rdReqs_reset (reqs : List IoRequest) :
    ((reqs.map IoRequest.reset).filter fun q => q.op = .read).map IoRequest.toRead =
      (reqs.filter fun q => q.op = .read).map IoRequest.toRead := by
  rw [List.filter_map,List.map_map]
  rfl

theorem dispatchIo_eq (hne : reqs ≠ []) (known : ∀ q ∈ reqs, q.op ≠ .unknown)
    (halloc : denv.arraysAllocated = true) : DispatchIo.dispatchIo c denv reqs =
      (processGfidReads c denv.toReadEnv
        ((reqs.filter fun q => q.op = .read).map IoRequest.toRead)).map fun out =>
          ⟨Rc.success,copyBack denv.others (reported out) (reqs.map IoRequest.reset),out⟩ := by
  unfold DispatchIo.dispatchIo
  rw [if_neg hne,resetReqs_known known]
  dsimp only
  rw [if_neg (by decide),if_neg (by rw [halloc]; decide),rdReqs_reset]

theorem fresh_reads (call : ReadCall) : ∀ r ∈ call.reads, Fresh r := by
  intro r hr
  cases call with
  | pread gfid buf addr count offset =>
    rw [mem_singleton.mp hr]
    exact ⟨rfl,rfl⟩
  | lioListio items =>
    obtain ⟨cb,-,hcb⟩ := mem_filterMap.mp hr
    unfold Aiocb.toRead at hcb
    split at hcb
    · cases hcb
      exact ⟨rfl,rfl⟩
    · cases hcb
  | dispatchIo reqs known =>
    obtain ⟨q,-,rfl⟩ := mem_map.mp hr
    exact fresh_toRead q

theorem untouched_none (rds : List ReadReq) : ReadCall.Untouched rds ⟨Rc.success,[],[],[]⟩ :=
  ⟨[],nil_subperm,.nil⟩

theorem dispatchIo_completes {known : ∀ q ∈ reqs, q.op ≠ .unknown} (denv : DispatchEnv)
    (hne : reqs ≠ []) (hsort : ∀ l, (denv.sort l).Perm l) (halloc : denv.arraysAllocated = true) :
    (ReadCall.dispatchIo reqs known).Completes c denv ↔
      ∃ out, processGfidReads c denv.toReadEnv (ReadCall.dispatchIo reqs known).reads = some out ∧
        ReadCall.Untouched (ReadCall.dispatchIo reqs known).reads out ∧
        (FaultFree denv.toReadEnv → ∀ (k : ℕ) (r d : ReadReq),
          (ReadCall.dispatchIo reqs known).reads[k]? = some r → (reported out)[k]? = some d →
            r.length = 0 → d.errcode = Rc.success ∧ d.nread = 0) := by
  have hlength {out : ReadsOut}
      (h : processGfidReads c denv.toReadEnv (ReadCall.dispatchIo reqs known).reads = some out) :
      (reported out).length = (reqs.filter fun q => q.op = .read).length :=
    (length_reported hsort h).trans (length_map _)
  constructor
  · rintro ⟨o,hcall,huntouched,-,hzero⟩
    rw [dispatchIo_eq hne known halloc] at hcall
    obtain ⟨out,hout,rfl⟩ := map_eq_some_iff.mp hcall
    exact ⟨out,hout,huntouched,fun hf =>
      (copyBack_zero_iff denv.others known (hlength hout)).mp (hzero hf halloc)⟩
  · rintro ⟨out,hout,huntouched,hzero⟩
    refine ⟨_,(dispatchIo_eq hne known halloc).trans (congrArg _ hout),huntouched,
      (copyBack_zip denv.others known (hlength hout)).1,fun hf _ => ?_⟩
    exact (copyBack_zero_iff denv.others known (hlength hout)).mpr (hzero hf)

theorem dispatchIo_no_memory {known : ∀ q ∈ reqs, q.op ≠ .unknown} (hne : reqs ≠ [])
    (halloc : denv.arraysAllocated = false) :
    (ReadCall.dispatchIo reqs known).Completes c denv := by
  refine ⟨⟨Rc.enomem,reqs.map IoRequest.reset,⟨Rc.success,[],[],[]⟩⟩,?_,untouched_none _,
    length_map _,fun _ hyes => absurd (halloc.symm.trans hyes) (by decide)⟩
  unfold DispatchIo.dispatchIo
  rw [if_neg hne,resetReqs_known known]
  dsimp only
  rw [if_neg (by decide),if_pos halloc]

/-- A read call, in whatever system that keeps to its rules, writes only inside the user buffers
and completes its reads of length zero with a count of zero, exactly if the client serves all of
these from its logs and their results stay in place. -/
theorem read_call_completes_iff (c : ReadClient) (call : ReadCall) :
    (∀ env : DispatchEnv, Conforming c call.reads env.toReadEnv → call.Completes c env) ↔
      call.ServesZeroReads c := by
  have hfresh := fresh_reads call
  cases call with
  | pread gfid buf addr count offset fits =>
    have hiff := pread_iff (c := c) (preadReq gfid buf addr count offset) ⟨rfl,rfl⟩
    constructor
    · intro h
      refine hiff.mp fun env hc => ?_
      obtain ⟨n,out,hcall,huntouched,hzero⟩ := h ⟨env,true,id⟩ hc
      obtain ⟨out',hout,heq⟩ := map_eq_some_iff.mp hcall
      cases heq
      exact ⟨out,hout,huntouched,hzero⟩
    · intro hserves env hc
      obtain ⟨out,hout,huntouched,hzero⟩ := hiff.mpr hserves env.toReadEnv hc
      exact ⟨preadCount out,out,congrArg (Option.map _) hout,huntouched,hzero⟩
  | lioListio items =>
    have hiff := lioListio_iff (c := c) hfresh
    constructor
    · intro h
      refine hiff.mp fun env hc => ?_
      obtain ⟨o,hcall,huntouched,hident,hzero⟩ := h ⟨env,true,id⟩ hc
      obtain ⟨out,hout,rfl⟩ := map_eq_some_iff.mp hcall
      rw [List.map_map] at hident
      refine ⟨out,hout,huntouched,hident,fun hf d hd hlen => ?_⟩
      exact (lioReport_zero hlen).mp (hzero hf _ (mem_map_of_mem hd) hlen)
    · intro hserves env hc
      obtain ⟨out,hout,huntouched,hident,hzero⟩ := hiff.mpr hserves env.toReadEnv hc
      refine ⟨_,congrArg _ hout,huntouched,?_,?_⟩
      · rw [List.map_map]
        exact hident
      · intro hf rep hrep hlen
        obtain ⟨d,hd,rfl⟩ := mem_map.mp hrep
        exact (lioReport_zero hlen).mpr (hzero hf d hd hlen)
  | dispatchIo reqs known =>
    by_cases hne : reqs = []
    · subst hne
      refine iff_of_true (fun env _ => ⟨_,rfl,untouched_none _,rfl,?_⟩) ⟨⟨?_,?_⟩,?_⟩
      · intro _ _ p hp
        cases hp
      · intro r hr
        cases hr
      · intro _
        exact Nat.zero_le _
      · intro k r hr
        cases hr
    have hiff := dispatchIo_iff (c := c) hfresh
    constructor
    · intro h
      refine hiff.mp fun env hc => ?_
      exact (dispatchIo_completes ⟨env,true,id⟩ hne hc.sort_perm rfl).mp (h _ hc)
    · intro hserves env hc
      cases halloc : env.arraysAllocated with
      | true =>
        exact (dispatchIo_completes env hne hc.sort_perm halloc).mpr
          (hiff.mpr hserves env.toReadEnv hc)
      | false => exact dispatchIo_no_memory hne halloc

def emptyRead : ReadReq := preadReq 1 [7,7] 100 0 0

/-- File 1 is empty, and the server says so in the message that completes the request. -/
def emptyFileEnv : ReadEnv :=
  { quiet (arrange (started [emptyRead]) (started [emptyRead])) with
    messages := [.complete 0 Rc.enodata] }

/-- A read of nothing from an empty file fills the memory behind the user buffer with zeros, to the
end of the address space. -/
theorem empty_pread_overruns :
    Conforming remoteClient [emptyRead] emptyFileEnv ∧ FaultFree emptyFileEnv ∧
      pread remoteClient emptyFileEnv (some 1) [7,7] 100 0 0 = none := by
  refine ⟨conforming_of_quiet (arrange_sorts (.refl _) ?_) rfl ?_,⟨rfl,rfl,rfl,.inl rfl⟩,rfl⟩
  · exact pairwise_singleton _ _
  · intro msg hmsg
    exact ⟨0,Rc.enodata,mem_singleton.mp hmsg⟩

end UnifyFS.ZeroReads
