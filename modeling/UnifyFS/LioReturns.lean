import UnifyFS.ZeroReads

/-!
# What lio_listio returns for a read

`process_gfid_reads` counts the bytes of a request from the pieces that reach its buffer, and
takes the zeros of a hole into account up to the end of the file. A request that ends with
success has therefore counted the bytes that the file has for it. `pread` returns this count.
`lio_listio` returns the length that was asked for, so that it is right only for a read that
does not go beyond the end of the file.

Of the content of a file only its size matters here. Reads of files that are not intercepted go
to the `pread` of the system, one by one, and keep what it returns.
-/
namespace UnifyFS.LioReturns
open ClientRead GfidReads DispatchIo DispatchReads ReadBounds ZeroReads MachineWords ListUpdates
open List Option

def available (size : ℤ → ℕ) (r : ReadReq) : ℕ := min r.length (size r.gfid - r.offset)

/-- The bytes counted so far are bytes that the file has. -/
def InFile (size : ℤ → ℕ) (r : ReadReq) : Prop := r.nread ≤ available size r

/-- A size lookup for each request of an array finds the size of its file, or fails. -/
def LooksUp (size : ℤ → ℕ) (lookup : ℕ → ℤ) (reqs : List ReadReq) : Prop :=
  ∀ k r, reqs[k]? = some r → lookup k = -1 ∨ lookup k = size r.gfid

/-- The bytes of a message come from the file. -/
def Brings (size : ℤ → ℕ) (reqs : List ReadReq) : ReadMsg → Prop
  | .data readIndex dataOffset bytes _ _ =>
    bytes ≠ [] → ∀ r, reqs[readIndex]? = some r →
      dataOffset + bytes.length ≤ size r.gfid - r.offset
  | .complete _ _ => True

/-- The rest of the system serves reads from files of the given sizes. Everything may fail. -/
structure FromFile (c : ReadClient) (size : ℤ → ℕ) (rds : List ReadReq) (env : ReadEnv) :
    Prop where
  sort_perm : ∀ l, (env.sort l).Perm l
  logRead_le : ∀ i cl off len, (env.logRead i cl off len).2.length ≤ len
  extents : ∀ g t, c.extents g = some t → ∀ n ∈ t.nodes, n.stop < size g
  messages : ∀ msg ∈ env.messages, Brings size (env.sort (toServer c rds)) msg
  localSize : LooksUp size env.localSize ((started rds).filter c.servesLocally)
  serverSize : LooksUp size env.serverSize (env.sort (toServer c rds))

variable {c : ReadClient} {env : ReadEnv} {size : ℤ → ℕ}

section Ident
variable {a b : ReadReq} {l l' : List ReadReq}

theorem available_of_ident (h : a.ident = b.ident) : available size a = available size b := by
  simp only [ReadReq.ident,Prod.mk.injEq] at h
  obtain ⟨hgfid,hoffset,hlength,-⟩ := h
  unfold available
  rw [hgfid,hoffset,hlength]

theorem exists_of_map_ident (h : l'.map ReadReq.ident = l.map ReadReq.ident) {k : ℕ}
    (ha : l'[k]? = some a) : ∃ q, l[k]? = some q ∧ q.ident = a.ident := by
  have hk := congrArg (·[k]?) h
  simp only [getElem?_map,ha,map_some] at hk
  exact map_eq_some_iff.mp hk.symm

theorem LooksUp.of_ident {lookup : ℕ → ℤ} (hl : LooksUp size lookup l)
    (h : l'.map ReadReq.ident = l.map ReadReq.ident) : LooksUp size lookup l' := by
  intro k r hr
  obtain ⟨q,hq,hident⟩ := exists_of_map_ident h hr
  rw [← show q.gfid = r.gfid from congrArg Prod.fst hident]
  exact hl k q hq

theorem Brings.of_ident {msg : ReadMsg} (hm : Brings size l msg)
    (h : l'.map ReadReq.ident = l.map ReadReq.ident) : Brings size l' msg := by
  cases msg with
  | complete => trivial
  | data readIndex dataOffset bytes bulkOk xfer =>
    intro hne r hr
    obtain ⟨q,hq,hident⟩ := exists_of_map_ident h hr
    have hfits := hm hne q hq
    simp only [ReadReq.ident,Prod.mk.injEq] at hident
    rwa [hident.1,hident.2.1] at hfits

end Ident

section Request
variable {r done : ReadReq}

theorem InFile.of_fresh (h : Fresh r) : InFile size r := by
  unfold InFile
  rw [h.1]
  exact Nat.zero_le _

theorem InFile.coverage (h : InFile size r) {lo len : ℕ} (hfit : lo + len ≤ available size r) :
    InFile size (updateReadReqCoverage r lo len) := by
  unfold InFile
  rw [available_of_ident (coverage_ident r lo len)]
  exact (coverage_nread_le r lo len).trans (Nat.max_le.mpr ⟨h,hfit⟩)

theorem InFile.expire (h : InFile size r) : InFile size r.expire := by
  unfold ReadReq.expire
  split
  · exact h
  · exact h

/-- A request that ends with success has counted all bytes that there are. -/
theorem InFile.result {lookup : ℤ} (h : InFile size r)
    (hlookup : lookup = -1 ∨ lookup = size r.gfid)
    (hres : updateReadReqResult lookup r = some done) (hok : done.errcode = Rc.success) :
    done.nread = available size done := by
  have hident := updateReadReqResult_ident hres
  rw [available_of_ident hident]
  obtain ⟨hq,hnread,-,-⟩ := assumeSuccess_eq r
  have hgfid : r.assumeSuccess.gfid = r.gfid := congrArg Prod.fst hq
  rw [InFile,← available_of_ident hq,← hnread] at h
  rw [← available_of_ident hq]
  rw [← hgfid] at hlookup
  unfold updateReadReqResult at hres
  generalize r.assumeSuccess = q at hres h hlookup ⊢
  unfold available at h ⊢
  dsimp only at hres
  split_ifs at hres with herr hfull hsize hend hgap hpast
  · cases hres
    exact absurd hok herr.1
  · -- all bytes that were asked for
    have hnread : done.nread = q.nread := by
      split at hres
      · cases hres
      · cases hres
        rfl
      · cases hres
        rfl
    omega
  · cases hres
    cases hok
  · cases hres
    dsimp only
    omega
  · cases hres
    dsimp only
    omega
  · cases hres
    dsimp only
    omega
  · -- what is missing lies beyond the end of the file
    cases hres
    omega

end Request

section Local
variable {logRead : ℕ → ℕ → ℕ → Rc × List UInt8} {r done : ReadReq} {rds : List ReadReq}
  {n : SegNode} {segs : List SegNode} {i : ℕ} {lookup : ℕ → ℤ} {out : List ReadReq}

theorem InFile.serveExtent (h : InFile size r) (hmeets : Meets r n) (hstop : n.stop < size r.gfid)
    (hlog : ∀ cl off len, (logRead cl off len).2.length ≤ len)
    (hserve : serveExtent c logRead r n = some done) : InFile size done := by
  obtain ⟨⟨reqOffset,extOffset,len⟩,hcov,rfl⟩ := map_eq_some_iff.mp hserve
  obtain ⟨hfits,hend⟩ := getExtentCoverage_fits hmeets hcov
  have hbytes := hlog n.clientId (n.ptr + extOffset) len
  dsimp only
  split
  · split
    · refine InFile.coverage (show InFile size (r.putBytes _ _) from h) ?_
      exact Nat.le_min.mpr ⟨show _ ≤ r.length by omega,show _ ≤ size r.gfid - r.offset by omega⟩
    · exact h
  · exact h

theorem InFile.serveLocal (h : InFile size r) (hmeets : ∀ n ∈ segs, Meets r n)
    (hstop : ∀ n ∈ segs, n.stop < size r.gfid)
    (hlog : ∀ cl off len, (logRead cl off len).2.length ≤ len)
    (hserve : serveLocal c logRead segs r = some done) : InFile size done := by
  refine serveLocal_induct h (fun n hn q u hid hq hu => ?_) hserve
  have hgfid : q.gfid = r.gfid := congrArg Prod.fst hid
  exact hq.serveExtent ((hmeets n hn).of_ident hid) (hgfid ▸ hstop n hn) hlog hu

theorem stop_lt_of_mem_segments
    (hext : ∀ g t, c.extents g = some t → ∀ n ∈ t.nodes, n.stop < size g) (hn : n ∈ c.segments r) :
    n.stop < size r.gfid := by
  obtain ⟨t,ht,hvisited⟩ := exists_tree_of_mem_segments hn
  exact hext _ t ht n (mem_nodes_of_mem_visited hvisited)

theorem serveLocal_not_success (h : r.errcode ≠ Rc.success)
    (hserve : serveLocal c logRead segs r = some done) : done.errcode ≠ Rc.success := by
  refine serveLocal_induct (P := (·.errcode ≠ Rc.success)) h (fun n _ q u _ hq hu => ?_) hserve
  obtain ⟨⟨reqOffset,extOffset,len⟩,-,rfl⟩ := map_eq_some_iff.mp hu
  dsimp only
  split
  · split
    · rw [(coverage_frame _ _ _).2.2.1]
      exact hq
    · next hfail => exact hfail
  · exact hq

theorem serviceLocalReqs_not_success {s : Served} (hrds : ∀ q ∈ rds, q.errcode ≠ Rc.success)
    (h : serviceLocalReqs c env i rds = some s) :
    ∀ q ∈ s.inReqs, q.errcode ≠ Rc.success := by
  intro q hq
  obtain ⟨r,hr,rfl | ⟨k,hd⟩⟩ := exists_of_mem_right (serviceLocalReqs_spec h).1 hq
  · exact hrds q hr
  · exact serveLocal_not_success (hrds r hr) hd

/-- Every request of an array that ends with success has counted its bytes. -/
def AllCounted (size : ℤ → ℕ) (reqs : List ReadReq) : Prop :=
  ∀ d ∈ reqs, d.errcode = Rc.success → d.nread = available size d

theorem allCounted_of_not_success (h : ∀ d ∈ rds, d.errcode ≠ Rc.success) : AllCounted size rds :=
  fun d hd hok => absurd hok (h d hd)

theorem updateResults_allCounted
    (hlookup : ∀ k r, rds[k]? = some r → lookup (i + k) = -1 ∨ lookup (i + k) = size r.gfid)
    (hin : ∀ r ∈ rds, InFile size r) (h : updateResults lookup i rds = some out) :
    AllCounted size out := by
  induction rds generalizing i out with
  | nil =>
    cases h
    exact fun d hd => nomatch hd
  | cons r rest ih =>
    obtain ⟨hr,hrest⟩ := forall_mem_cons.mp hin
    obtain ⟨d,hd,htail⟩ := bind_eq_some_iff.mp h
    obtain ⟨t,ht,rfl⟩ := map_eq_some_iff.mp htail
    refine forall_mem_cons.mpr ⟨fun hok => hr.result (hlookup 0 r rfl) hd hok,?_⟩
    refine ih (fun k q hq => ?_) hrest ht
    rw [Nat.add_right_comm]
    exact hlookup (k + 1) q hq

theorem LooksUp.updateResults (hl : LooksUp size lookup rds) (hin : ∀ r ∈ rds, InFile size r)
    (h : updateResults lookup 0 rds = some out) :
    AllCounted size out := by
  refine updateResults_allCounted (fun k r hr => ?_) hin h
  rw [Nat.zero_add]
  exact hl k r hr

end Local

section Messages
variable {reqs : List ReadReq} {m m' : ClientMread}

theorem inFile_handleMsg {msg : ReadMsg} (hm : ∀ r ∈ m.reqs, InFile size r)
    (hmsg : Brings size m.reqs msg) (h : handleMsg m msg = some m') :
    ∀ r ∈ m'.reqs, InFile size r := by
  cases msg with
  | data readIndex dataOffset bytes bulkOk xfer =>
    obtain ⟨⟨rc,u⟩,hu,rfl⟩ := map_eq_some_iff.mp h
    by_cases hne : bytes = []
    · subst hne
      cases hu
      exact hm
    rcases mreadReqDataRpc_cases hu with rfl | ⟨req,pulled,hreq,hfits,-,rfl | rfl⟩
    · exact hm
    · exact forall_mem_modify hm fun q hq => hm q (mem_of_getElem? hq)
    · refine forall_mem_modify hm fun q hq => ?_
      obtain rfl : req = q := some.inj (hreq.symm.trans hq)
      have hin : InFile size (req.putBytes dataOffset pulled) := hm req (mem_of_getElem? hq)
      exact hin.coverage (Nat.le_min.mpr ⟨hfits,hmsg hne req hreq⟩)
  | complete readIndex readError =>
    cases h
    rcases completeRpc_reqs m readIndex readError with heq | heq
    · rwa [heq]
    · rw [heq]
      exact forall_mem_modify hm fun _ _ => Nat.zero_le _

theorem inFile_handleMsgs {msgs : List ReadMsg} (hm : ∀ r ∈ m.reqs, InFile size r)
    (hmsgs : ∀ msg ∈ msgs, Brings size m.reqs msg) (h : handleMsgs m msgs = some m') :
    ∀ r ∈ m'.reqs, InFile size r := by
  induction msgs generalizing m with
  | nil =>
    cases h
    exact hm
  | cons msg msgs ih =>
    obtain ⟨u,hu,hrest⟩ := bind_eq_some_iff.mp h
    obtain ⟨hmsg,hmsgs⟩ := forall_mem_cons.mp hmsgs
    refine ih (inFile_handleMsg hm hmsg hu) (fun msg' hmsg' => ?_) hrest
    exact (hmsgs msg' hmsg').of_ident (handleMsg_ident hu)

theorem awaitServer_allCounted {ret : Rc} {done : List ReadReq}
    (hlookup : LooksUp size env.serverSize reqs) (hin : ∀ r ∈ reqs, InFile size r)
    (hmsgs : ∀ msg ∈ env.messages, Brings size reqs msg)
    (h : awaitServer env reqs = some (ret,done)) : AllCounted size done := by
  unfold awaitServer at h
  split at h
  · obtain ⟨d,hd,hout⟩ := map_eq_some_iff.mp h
    cases hout
    refine (hlookup.of_ident (map_ident_withError _)).updateResults (fun r hr => ?_) hd
    obtain ⟨q,hq,rfl⟩ := mem_map.mp hr
    exact hin q hq
  · obtain ⟨m,hm,hrest⟩ := bind_eq_some_iff.mp h
    obtain ⟨d,hd,hout⟩ := map_eq_some_iff.mp hrest
    cases hout
    have hread := inFile_handleMsgs hin hmsgs hm
    have hsame := handleMsgs_ident hm
    split at hd
    · exact (hlookup.of_ident hsame).updateResults hread hd
    · refine (hlookup.of_ident (map_ident_expire.trans hsame)).updateResults (fun r hr => ?_) hd
      obtain ⟨q,hq,rfl⟩ := mem_map.mp hr
      exact (hread q hq).expire

end Messages

section Batch
variable {rds : List ReadReq} {out : ReadsOut}

theorem started_not_success : ∀ r ∈ started rds, r.errcode ≠ Rc.success :=
  forall_mem_map.mpr fun _ _ => show Rc.einprogress ≠ Rc.success by decide

theorem readFromServer_allCounted {inReqs localReqs : List ReadReq} (hf : FromFile c size rds env)
    (hfresh : ∀ r ∈ rds, Fresh r) (hin : ∀ q ∈ inReqs, q.errcode ≠ Rc.success)
    (hlocal : AllCounted size localReqs)
    (h : readFromServer c env inReqs localReqs (toServer c rds) = some out) :
    AllCounted size out.inReqs := by
  have hmem : ∀ r ∈ env.sort (toServer c rds), r ∈ started rds := fun r hr =>
    mem_of_mem_filter ((hf.sort_perm _).subset hr)
  unfold readFromServer at h
  split at h
  · cases h
    exact allCounted_of_not_success hin
  · dsimp only at h
    split at h
    · obtain ⟨⟨ret,done⟩,hdone,rfl⟩ := map_eq_some_iff.mp h
      have hserver := awaitServer_allCounted hf.serverSize
          (fun r hr => .of_fresh (fresh_started hfresh r (hmem r hr))) hf.messages hdone
      split
      · exact forall_mem_append.mpr ⟨hlocal,hserver⟩
      · exact hserver
    · cases h
      apply allCounted_of_not_success
      split
      · exact hin
      · exact fun r hr => started_not_success r (hmem r hr)

theorem processGfidReads_allCounted (hf : FromFile c size rds env) (hfresh : ∀ r ∈ rds, Fresh r)
    (h : processGfidReads c env rds = some out) : AllCounted size out.inReqs := by
  by_cases hne : rds = []
  · subst hne
    cases h
    exact fun d hd => nomatch hd
  by_cases halloc : c.attempts = true → env.reqsAllocated = true
  · rw [processGfidReads_eq hne halloc] at h
    obtain ⟨s,hs,h⟩ := bind_eq_some_iff.mp h
    obtain ⟨done,hdone,h⟩ := bind_eq_some_iff.mp h
    obtain ⟨-,hident,hserver⟩ := serviceLocalReqs_ident hs
    have hserved : ∀ d ∈ s.localReqs, InFile size d := by
      intro d hd
      obtain ⟨r,hr,k,hrd⟩ := exists_of_mem_right (serviceLocalReqs_forall₂ hs) hd
      have hstart := fresh_started hfresh r (mem_of_mem_filter hr)
      exact (InFile.of_fresh hstart).serveLocal (fun n hn => meets_of_mem_segments hn)
        (fun n hn => stop_lt_of_mem_segments hf.extents hn) (hf.logRead_le k) hrd
    have hlocal := (hf.localSize.of_ident hident).updateResults hserved hdone
    split at h
    · cases h
      exact hlocal
    · rw [hserver] at h
      exact readFromServer_allCounted hf hfresh
        (serviceLocalReqs_not_success started_not_success hs) hlocal h
  · rw [processGfidReads_no_memory hne halloc] at h
    cases h
    exact allCounted_of_not_success started_not_success

end Batch

theorem pread_available {gfid n : ℤ} {buf : List UInt8} {addr count offset : ℕ} {out : ReadsOut}
    (hf : FromFile c size [preadReq gfid buf addr count offset] env)
    (h : pread c env (some gfid) buf addr count offset = some (n,out)) (hn : n ≠ -1) :
    n = available size (preadReq gfid buf addr count offset) := by
  obtain ⟨o,ho,hout⟩ := map_eq_some_iff.mp h
  have hcounted := processGfidReads_allCounted hf (forall_mem_singleton.mpr ⟨rfl,rfl⟩) ho
  have hsame := processGfidReads_inReqs hf.sort_perm ho
  obtain ⟨rfl,rfl⟩ := Prod.mk.inj hout
  unfold preadCount at hn ⊢
  split at hn
  · exact absurd rfl hn
  · next hret =>
    rw [if_neg hret]
    split at hn
    · exact absurd rfl hn
    · next req rest hreqs =>
      split at hn
      · exact absurd rfl hn
      · next hok =>
        rw [hreqs] at hcounted hsame
        have hident : req.ident = (preadReq gfid buf addr count offset).ident := by
          have hmem := hsame.subset (mem_map_of_mem mem_cons_self)
          exact mem_singleton.mp hmem
        rw [if_neg hok,← available_of_ident hident,hcounted req mem_cons_self (not_not.mp hok)]

/-- What the first loop leaves for a read in its control block, error code and return value, unless
the read becomes a request. `realPread` is the `pread` of the system. -/
def enter (realPread : Aiocb → Except Rc ℕ) (cb : Aiocb) : Option (Rc × Option ℕ) :=
  match cb.opcode, cb.fildes with
  | .read, .real =>
    match realPread cb with
    | .error errno => some (errno,none)
    | .ok n => some (0,some n)
  | .read, .invalid => some (Rc.einval,none)
  | _, _ => none

/-- Each read that completes without an error returns the number of bytes read for it, which is
what `pread` returns for its descriptor, offset and length if it does not fail. -/
structure ReturnsCounts (c : ReadClient) (size : ℤ → ℕ) (realPread : Aiocb → Except Rc ℕ)
    (items : List Aiocb) (out : LioOut) : Prop where
  entered : ∀ cb ∈ items, ∀ val, enter realPread cb = some (0,val) →
    ∃ n, val = some n ∧ realPread cb = .ok n
  counted : ∀ rep ∈ out.reports, rep.errorCode = 0 → rep.returnVal = some rep.req.nread
  pread : ∀ rep ∈ out.reports, rep.errorCode = 0 → ∀ env buf addr n reads,
    FromFile c size [preadReq rep.req.gfid buf addr rep.req.length rep.req.offset] env →
    pread c env (some rep.req.gfid) buf addr rep.req.length rep.req.offset = some (n,reads) →
    n ≠ -1 → rep.returnVal.map Int.ofNat = some n

theorem enter_counted {realPread : Aiocb → Except Rc ℕ}
    (herrno : ∀ cb errno, realPread cb = .error errno → errno ≠ 0) {cb : Aiocb} {val : Option ℕ}
    (h : enter realPread cb = some (0,val)) : ∃ n, val = some n ∧ realPread cb = .ok n := by
  unfold enter at h
  split at h
  · split at h
    · next errno hreal =>
      cases h
      exact absurd rfl (herrno cb _ hreal)
    · next n hreal =>
      cases h
      exact ⟨n,rfl,hreal⟩
  · cases h
  · cases h

theorem length_eq_available_iff (r : ReadReq) :
    r.length = available size r ↔ r.offset + r.length ≤ size r.gfid ∨ r.length = 0 := by
  unfold available
  omega

/-- `lio_listio` returns the number of bytes for all reads that complete exactly if none of them
goes beyond the end of its file. -/
theorem lioListio_returnsCounts_iff {realPread : Aiocb → Except Rc ℕ}
    (herrno : ∀ cb errno, realPread cb = .error errno → errno ≠ 0) {items : List Aiocb}
    {out : LioOut} (hf : FromFile c size (items.filterMap Aiocb.toRead) env)
    (h : lioListio c env items = some out) :
    ReturnsCounts c size realPread items out ↔
      ∀ rep ∈ out.reports, rep.errorCode = 0 →
        rep.req.offset + rep.req.length ≤ size rep.req.gfid ∨ rep.req.length = 0 := by
  obtain ⟨o,ho,rfl⟩ := map_eq_some_iff.mp h
  have hcounted := processGfidReads_allCounted hf (fresh_reads (.lioListio items)) ho
  have hreport : ∀ rep ∈ o.inReqs.map lioReport, rep.errorCode = 0 →
      rep.returnVal = some rep.req.length ∧ rep.req.nread = available size rep.req := by
    intro rep hrep hzero
    obtain ⟨r,hr,rfl⟩ := mem_map.mp hrep
    have hok := (Rc.errno_eq_zero_iff _).mp hzero
    exact ⟨if_pos hok,hcounted r hr hok⟩
  constructor
  · intro hreturns rep hrep hzero
    obtain ⟨hlength,hnread⟩ := hreport rep hrep hzero
    have hval := hreturns.counted rep hrep hzero
    rw [hlength,hnread] at hval
    exact (length_eq_available_iff rep.req).mp (some.inj hval)
  · intro hinside
    have hval : ∀ rep ∈ o.inReqs.map lioReport, rep.errorCode = 0 →
        rep.returnVal = some (available size rep.req) := by
      intro rep hrep hzero
      have hlength := (length_eq_available_iff rep.req).mpr (hinside rep hrep hzero)
      rw [(hreport rep hrep hzero).1,← hlength]
    refine ⟨fun cb _ val hcb => enter_counted herrno hcb,fun rep hrep hzero => ?_,?_⟩
    · rw [hval rep hrep hzero,(hreport rep hrep hzero).2]
    · intro rep hrep hzero env' buf addr n reads hf' hpread hn
      rw [hval rep hrep hzero,pread_available hf' hpread hn]
      rfl

def fourBytes (gfid : ℤ) : ℕ := if gfid = 1 then 4 else 0

/-- A read of so many bytes from the start of file 1 to a buffer. -/
def readFirst (b : Fin 16 × ℕ) : Aiocb :=
  ⟨.file 1,.read,0,b.1,b.2,List.replicate b.1 9,
    (Nat.zero_add _).symm ▸ b.1.isLt.trans (by decide)⟩

def firstReq (b : Fin 16 × ℕ) : ReadReq := preadReq 1 (List.replicate b.1 9) b.2 b.1 0

/-- The server sends each request what the file has for it. -/
def fourBytesEnv (bufs : List (Fin 16 × ℕ)) : ReadEnv :=
  { quiet (arrange (started (bufs.map firstReq)) (started (bufs.map firstReq))) with
    messages := bufs.zipIdx.flatMap fun (b,k) =>
      [.data k 0 ([1,2,3,4].take b.1) true fun _ => true,.complete k Rc.success]
    serverSize := fun _ => 4 }

theorem fromFile_fourBytes (bufs : List (Fin 16 × ℕ)) :
    FromFile remoteClient fourBytes (bufs.map firstReq) (fourBytesEnv bufs) := by
  have hfirst : ∀ r ∈ started (bufs.map firstReq), r.gfid = 1 ∧ r.offset = 0 := by
    intro r hr
    obtain ⟨q,hq,rfl⟩ := mem_map.mp hr
    obtain ⟨b,-,rfl⟩ := mem_map.mp hq
    exact ⟨rfl,rfl⟩
  have hserver : toServer remoteClient (bufs.map firstReq) = started (bufs.map firstReq) :=
    filter_eq_self.mpr fun _ _ => rfl
  have hsort : (fourBytesEnv bufs).sort (toServer remoteClient (bufs.map firstReq)) =
      started (bufs.map firstReq) := by
    rw [hserver]
    exact arrange_self _ _
  refine ⟨fun l => ?_,fun _ _ _ len => (length_replicate).le,?_,?_,?_,?_⟩
  · refine (arrange_sorts (.refl _) (pairwise_of_forall_mem_list fun a ha b hb => ?_) l).1
    unfold readKey
    rw [(hfirst a ha).1,(hfirst a ha).2,(hfirst b hb).1,(hfirst b hb).2]
  · intro g t ht
    cases ht
  · rw [hsort]
    intro msg hmsg
    obtain ⟨⟨b,k⟩,-,hmem⟩ := mem_flatMap.mp hmsg
    rcases mem_pair.mp hmem with rfl | rfl
    · intro _ r hr
      obtain ⟨hgfid,hoffset⟩ := hfirst r (mem_of_getElem? hr)
      rw [hgfid,hoffset,Nat.zero_add]
      exact length_take_le' _ _
    · trivial
  · intro k r hr
    have hlocal := of_mem_filter (mem_of_getElem? hr)
    cases hlocal
  · rw [hsort]
    intro k r hr
    rw [(hfirst r (mem_of_getElem? hr)).1]
    exact .inr rfl

theorem lioListio_two_reads :
    ∃ out, lioListio remoteClient (fourBytesEnv [(4,100),(2,200)])
        [readFirst (4,100),readFirst (2,200)] = some out ∧
      out.reports.map LioReport.returnVal = [some 4,some 2] ∧
      ReturnsCounts remoteClient fourBytes (fun _ => .ok 0)
        [readFirst (4,100),readFirst (2,200)] out := by
  have hrun : (lioListio remoteClient (fourBytesEnv [(4,100),(2,200)])
      [readFirst (4,100),readFirst (2,200)]).map LioOut.reports =
      some [⟨{ firstReq (4,100) with
        buf := [1,2,3,4], coverBegin := some 0, coverEnd := some 3, nread := 4 },0,some 4⟩,
        ⟨{ firstReq (2,200) with
        buf := [1,2], coverBegin := some 0, coverEnd := some 1, nread := 2 },0,some 2⟩] := by
    decide +kernel
  obtain ⟨out,hout,hreports⟩ := map_eq_some_iff.mp hrun
  refine ⟨out,hout,by rw [hreports]; rfl,?_⟩
  refine (lioListio_returnsCounts_iff (fun _ _ herr => by cases herr)
    (fromFile_fourBytes [(4,100),(2,200)]) hout).mpr ?_
  rw [hreports]
  exact forall_mem_cons.mpr ⟨fun _ => .inl (by decide),forall_mem_singleton.mpr
    fun _ => .inl (by decide)⟩

/-- Eight bytes are asked for, and four are read. `pread` returns four, `lio_listio` eight. -/
theorem lioListio_short_read :
    ∃ out reads, lioListio remoteClient (fourBytesEnv [(8,100)]) [readFirst (8,100)] = some out ∧
      FromFile remoteClient fourBytes ([readFirst (8,100)].filterMap Aiocb.toRead)
        (fourBytesEnv [(8,100)]) ∧
      (out.reports.map fun rep => (rep.req.nread,rep.errorCode,rep.returnVal)) =
        [(4,0,some 8)] ∧
      pread remoteClient (fourBytesEnv [(8,100)]) (some 1) (List.replicate 8 9) 100 8 0 =
        some (4,reads) ∧
      ¬ ReturnsCounts remoteClient fourBytes (fun _ => .ok 0) [readFirst (8,100)] out := by
  have hrun : (lioListio remoteClient (fourBytesEnv [(8,100)]) [readFirst (8,100)]).map
      LioOut.reports =
      some [⟨{ firstReq (8,100) with
        buf := [1,2,3,4,9,9,9,9], coverBegin := some 0, coverEnd := some 3, nread := 4 },0,
        some 8⟩] := by
    decide +kernel
  obtain ⟨out,hout,hreports⟩ := map_eq_some_iff.mp hrun
  have hn : (pread remoteClient (fourBytesEnv [(8,100)]) (some 1) (List.replicate 8 9) 100 8 0).map
      Prod.fst = some 4 := by
    decide +kernel
  obtain ⟨⟨n,reads⟩,hreads,rfl⟩ := map_eq_some_iff.mp hn
  refine ⟨out,reads,hout,fromFile_fourBytes [(8,100)],by rw [hreports]; rfl,hreads,
    fun hreturns => ?_⟩
  have hcounted := hreturns.counted
  rw [hreports] at hcounted
  have hval := forall_mem_singleton.mp hcounted rfl
  cases hval

end UnifyFS.LioReturns
