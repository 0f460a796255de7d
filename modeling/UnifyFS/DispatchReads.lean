import UnifyFS.DispatchIo

/-!
# Which batches of reads keep their results

For a batch of reads, the results are those of its own reads whatever happens in the
rest of the system exactly when the batch is `Untangled`. If it is not, some system
puts a result in a wrong place: one in which the client cannot ask the server after it
has served a request itself, or one that sorts the requests into another order and in
which the server fails one of them.
-/
namespace UnifyFS.DispatchReads
open ClientRead GfidReads DispatchIo SortedArrays ListUpdates List Option

section Tangled
variable {c : ReadClient} {env : ReadEnv} {rds : List ReadReq} {r done : ReadReq} {size : ℕ → ℤ}
  {i k : ℕ} {out : ReadsOut} {p : List ReadReq} {s : Served} {logRead : ℕ → ℕ → ℕ → Rc × List UInt8}
  {segs : List SegNode} {a b : ReadReq} {sort : List ReadReq → List ReadReq}

def readLe (a b : ReadReq) : Bool := decide (readKey a ≤ readKey b)

def quiet (sort : List ReadReq → List ReadReq) : ReadEnv :=
  ⟨true,true,true,fun _ _ _ len => (Rc.success,List.replicate len 0),sort,Rc.success,[],
    fun _ => 0,fun _ => 0⟩

theorem mergeSort_sorts (l : List ReadReq) :
    (l.mergeSort readLe).Perm l ∧ SortedBy readKey (l.mergeSort readLe) := by
  refine ⟨mergeSort_perm l readLe,?_⟩
  have hpair : (l.mergeSort readLe).Pairwise fun a b => readLe a b = true := by
    apply pairwise_mergeSort
    · intro a b d hab hbd
      exact decide_eq_true ((of_decide_eq_true hab).trans (of_decide_eq_true hbd))
    · intro a b
      rw [Bool.or_eq_true]
      exact (le_total _ _).imp decide_eq_true decide_eq_true
  apply hpair.imp
  intro a b hab
  exact of_decide_eq_true hab

theorem conforming_of_quiet (hsort : ∀ l, (env.sort l).Perm l ∧ SortedBy readKey (env.sort l))
    (hlog : env.logRead = (quiet id).logRead)
    (hmsg : ∀ msg ∈ env.messages, ∃ i rc, msg = .complete i rc) : Conforming c rds env := by
  constructor
  · exact fun l => (hsort l).1
  · intro l
    apply (hsort l).2.imp
    intro a b hab
    exact (compareReadReq_nonpos a b).mpr hab
  · intro i cl off
    rw [hlog]
    rfl
  · intro i cl off len
    rw [hlog]
    exact (length_replicate).le
  · intro msg hmem
    obtain ⟨i,rc,rfl⟩ := hmsg msg hmem
    trivial

theorem updateResults_mem {out : List ReadReq} (h : updateResults size i rds = some out)
    (hr : r ∈ rds) : ∃ k d, updateReadReqResult (size k) r = some d := by
  obtain ⟨d,-,k,hd⟩ := exists_of_mem_right (updateResults_forall₂ h).flip hr
  exact ⟨k,d,hd⟩

theorem updateReadReqResult_zero {size : ℤ} (hfresh : Fresh r) (hlen : r.length = 0)
    (herr : r.errcode = Rc.einprogress ∨ r.errcode = Rc.enodata) :
    updateReadReqResult size r = none := by
  obtain ⟨-,hnread,hlength,hbegin⟩ := assumeSuccess_eq r
  have hok : r.assumeSuccess.errcode = Rc.success ∨ r.assumeSuccess.errcode = Rc.enodata := by
    unfold ReadReq.assumeSuccess
    split
    · exact .inl rfl
    · next hne => exact .inr (herr.resolve_left hne)
  unfold updateReadReqResult
  rw [if_neg (by tauto),if_pos (by rw [hnread,hlength,hfresh.1,hlen]),hbegin,hfresh.2]

theorem serviceLocalReqs_mem (h : serviceLocalReqs c env i rds = some s) (hr : r ∈ rds)
    (hlocal : c.servesLocally r = true) :
    ∃ k, ∃ d ∈ s.localReqs, serveLocal c (env.logRead k) (c.segments r) r = some d := by
  have hmem := mem_filter.mpr ⟨hr,hlocal⟩
  obtain ⟨d,hd,k,hserve⟩ := exists_of_mem_right (serviceLocalReqs_forall₂ h).flip hmem
  exact ⟨k,d,hd,hserve⟩

theorem serveLocal_unavailable (hno : ∀ n ∈ segs, c.logAvailable n.clientId = false)
    (h : serveLocal c logRead segs r = some done) : done = r := by
  refine serveLocal_induct (P := (· = r)) rfl (fun n hn q u _ hq hu => ?_) h
  obtain ⟨x,-,hux⟩ := map_eq_some_iff.mp hu
  rw [hno n hn] at hux
  exact hux.symm.trans hq

theorem processGfidReads_steps (hne : rds ≠ []) (halloc : env.reqsAllocated = true)
    (h : processGfidReads c env rds = some out) :
    ∃ s done, serviceLocalReqs c env 0 (started rds) = some s ∧
      updateResults env.localSize 0 s.localReqs = some done ∧
      (s.serverReqs ≠ [] → readFromServer c env s.inReqs done s.serverReqs = some out) := by
  rw [processGfidReads_eq hne fun _ => halloc] at h
  obtain ⟨s,hs,h⟩ := bind_eq_some_iff.mp h
  obtain ⟨done,hdone,h⟩ := bind_eq_some_iff.mp h
  refine ⟨s,done,hs,hdone,fun hserver => ?_⟩
  rwa [if_neg hserver] at h

theorem attempts_of_servesLocally (h : c.servesLocally r = true) : c.attempts = true := by
  unfold ReadClient.servesLocally at h
  rw [Bool.and_eq_true] at h
  exact h.1

/-- A request served locally without coverage crashes the call. -/
theorem finishes_of_returns (halloc : env.reqsAllocated = true) (hr : r ∈ rds) (hfresh : Fresh r)
    (hlocal : c.servesLocally r = true) (h : processGfidReads c env rds = some out) :
    c.Finishes r := by
  by_contra hno
  unfold ReadClient.Finishes at hno
  push Not at hno
  obtain ⟨s,d,hs,hd,-⟩ := processGfidReads_steps (ne_nil_of_mem hr) halloc h
  have hstarted : r.withError Rc.einprogress ∈ started rds := List.mem_map_of_mem hr
  obtain ⟨k,e,he,hserve⟩ := serviceLocalReqs_mem hs hstarted hlocal
  have hsame := serveLocal_unavailable (fun n hn => by simpa using hno.2 n hn) hserve
  obtain ⟨j,x,hx⟩ := updateResults_mem hd he
  have hnone : updateReadReqResult (env.localSize j) (r.withError Rc.einprogress) = none :=
    updateReadReqResult_zero hfresh (Nat.le_zero.mp hno.1) (.inl rfl)
  rw [hsame,hnone] at hx
  cases hx

theorem serveLocal_errcode (hok : ∀ cl off len, (logRead cl off len).1 = Rc.success)
    (h : serveLocal c logRead segs r = some done) : done.errcode = r.errcode := by
  refine serveLocal_induct (P := (·.errcode = r.errcode)) rfl (fun n _ q u _ hq hu => ?_) h
  obtain ⟨⟨reqOffset,extOffset,len⟩,-,rfl⟩ := map_eq_some_iff.mp hu
  dsimp only
  rw [if_pos (hok _ _ _)]
  split
  · exact (coverage_frame _ _ _).2.2.1.trans hq
  · exact hq

theorem serviceLocalReqs_errcode {e : Rc}
    (hok : ∀ k cl off len, (env.logRead k cl off len).1 = Rc.success)
    (hrds : ∀ q ∈ rds, q.errcode = e) (h : serviceLocalReqs c env i rds = some s) :
    (∀ q ∈ s.inReqs, q.errcode = e) ∧ ∀ q ∈ s.localReqs, q.errcode = e := by
  constructor
  · intro q hq
    obtain ⟨r,hr,rfl | ⟨k,hd⟩⟩ := exists_of_mem_right (serviceLocalReqs_spec h).1 hq
    · exact hrds q hr
    · exact (serveLocal_errcode (hok k) hd).trans (hrds r hr)
  · intro q hq
    obtain ⟨r,hr,k,hd⟩ := exists_of_mem_right (serviceLocalReqs_forall₂ h) hq
    exact (serveLocal_errcode (hok k) hd).trans (hrds r (mem_of_mem_filter hr))

theorem updateResults_success {out : List ReadReq} (hsize : ∀ k, size k ≠ -1)
    (hrds : ∀ q ∈ rds, q.errcode = Rc.einprogress) (h : updateResults size i rds = some out) :
    ∀ q ∈ out, q.errcode = Rc.success := by
  intro q hq
  obtain ⟨r,hmem,k,hd⟩ := exists_of_mem_right (updateResults_forall₂ h) hq
  have hr : r.assumeSuccess.errcode = Rc.success := by
    unfold ReadReq.assumeSuccess
    rw [if_pos (hrds r hmem)]
  unfold updateReadReqResult at hd
  dsimp only at hd
  rw [if_neg (fun hne => hne.1 hr),if_neg (hsize k)] at hd
  split at hd
  · split at hd <;> cases hd <;> first | exact hr | rfl
  · split at hd
    · cases hd
      rfl
    · split at hd <;> cases hd <;> first | exact hr | rfl

theorem servesLocally_of_ident (h : a.ident = b.ident) :
    c.servesLocally a = c.servesLocally b := by
  simp only [ReadReq.ident,Prod.mk.injEq] at h
  unfold ReadClient.servesLocally haveLocal visited
  rw [h.1,h.2.1,h.2.2.1]

theorem readFromServer_refused {inReqs localReqs serverReqs : List ReadReq}
    (hno : env.mreadCreated = false) (hatt : c.attempts = true) (hsort : ∀ l, (env.sort l).Perm l)
    (h : readFromServer c env inReqs localReqs serverReqs = some out) :
    out.ret ≠ Rc.success ∧ out.inReqs = inReqs ∧ out.localReads = localReqs ∧
      out.serverReads ⊆ serverReqs := by
  unfold readFromServer at h
  split at h
  · cases h
    exact ⟨show Rc.enospc ≠ Rc.success by decide,rfl,rfl,List.Subset.refl _⟩
  · dsimp only at h
    rw [hno] at h
    cases h
    exact ⟨show Rc.enomem ≠ Rc.success by decide,rfl,rfl,(hsort serverReqs).subset⟩

theorem mixed_not_attributed {r₁ r₂ : ReadReq} (h₁ : r₁ ∈ rds) (h₂ : r₂ ∈ rds)
    (hlocal : c.servesLocally r₁ = true) (hserver : c.servesLocally r₂ = false)
    (h : processGfidReads c { quiet (·.mergeSort readLe) with mreadCreated := false } rds =
      some out) : ¬ Attributed rds out := by
  obtain ⟨s,done,hs,hdone,hrest⟩ := processGfidReads_steps (ne_nil_of_mem h₁) rfl h
  obtain ⟨hin,-,hsr⟩ := serviceLocalReqs_ident hs
  have hne : s.serverReqs ≠ [] := by
    have hmem : r₂.withError Rc.einprogress ∈ s.serverReqs := by
      rw [hsr,mem_filter]
      refine ⟨List.mem_map_of_mem h₂,?_⟩
      rw [servesLocally_withError,hserver]
      rfl
    exact ne_nil_of_mem hmem
  obtain ⟨hret,hinReqs,hlocals,hservers⟩ := readFromServer_refused rfl
    (attempts_of_servesLocally hlocal) (fun l => (mergeSort_sorts l).1) (hrest hne)
  intro hattr
  obtain ⟨k,hk⟩ := mem_iff_getElem?.mp h₁
  obtain ⟨a,ha⟩ : ∃ a, s.inReqs[k]? = some a := by
    have hlen := congrArg List.length hin
    have hlt := (List.getElem?_eq_some_iff.mp hk).choose
    simp only [length_map] at hlen
    exact ⟨_,getElem?_eq_getElem (by omega)⟩
  have hreported : (reported out)[k]? = some (a.withError out.ret) := by
    unfold reported
    rw [if_pos hret,getElem?_map,hinReqs,ha,map_some]
  obtain ⟨r,hr,hid,-,herr⟩ := hattr k _ _ hreported hk
  unfold issued at hr
  rw [if_pos hret,hlocals] at hr
  cases mem_append.mp hr with
  | inl hdoneMem =>
    have hstart : ∀ q ∈ s.localReqs, q.errcode = Rc.einprogress := by
      refine (serviceLocalReqs_errcode (fun _ _ _ _ => rfl) ?_ hs).2
      exact forall_mem_map.mpr fun _ _ => rfl
    have hok := updateResults_success (fun _ => show (0 : ℤ) ≠ -1 by decide) hstart hdone r hdoneMem
    exact hret (herr.trans hok)
  | inr hserverMem =>
    obtain ⟨q,hq,rfl⟩ := mem_map.mp hserverMem
    have hqs := hservers hq
    rw [hsr,mem_filter] at hqs
    have hsame : c.servesLocally q = c.servesLocally r₁ := servesLocally_of_ident hid
    rw [hsame,hlocal] at hqs
    exact absurd hqs.2 (by decide)

theorem processGfidReads_await (hne : rds ≠ []) (hmax : rds.length ≤ clientMaxReadCount)
    (hnone : ∀ r ∈ rds, c.servesLocally r = false) (halloc : env.reqsAllocated = true)
    (hm : env.mreadCreated = true) (hb : env.bufferAllocated = true)
    (h : processGfidReads c env rds = some out) :
    ∃ ret done, awaitServer env (env.sort (started rds)) = some (ret,done) ∧
      out = ⟨ret,done,[],done⟩ := by
  rw [processGfidReads_server hne (fun _ => halloc) hnone] at h
  unfold readFromServer at h
  rw [if_neg (by simpa using hmax),hm,hb] at h
  dsimp only at h
  obtain ⟨⟨ret,done⟩,hdone,rfl⟩ := map_eq_some_iff.mp h
  refine ⟨ret,done,hdone,?_⟩
  rw [nil_append,ite_self]

theorem length_pos_of_returns (hmax : rds.length ≤ clientMaxReadCount)
    (hnone : ∀ r ∈ rds, c.servesLocally r = false) (hr : r ∈ rds) (hfresh : Fresh r)
    (h : processGfidReads c { quiet (·.mergeSort readLe) with readRc := Rc.enodata } rds =
      some out) : 0 < r.length := by
  by_contra hzero
  obtain ⟨ret,done,hdone,-⟩ := processGfidReads_await (ne_nil_of_mem hr) hmax hnone rfl rfl
    rfl h
  obtain ⟨d,hd,-⟩ := map_eq_some_iff.mp hdone
  have hmem : (r.withError Rc.einprogress).withError Rc.enodata ∈
      ((started rds).mergeSort readLe).map (ReadReq.withError Rc.enodata) := by
    apply List.mem_map_of_mem
    exact (mergeSort_sorts _).1.symm.subset (List.mem_map_of_mem hr)
  obtain ⟨k,x,hx⟩ := updateResults_mem hd hmem
  have hno : updateReadReqResult 0 ((r.withError Rc.einprogress).withError Rc.enodata) = none :=
    updateReadReqResult_zero hfresh (Nat.eq_zero_of_not_pos hzero) (.inr rfl)
  cases hno.symm.trans hx

theorem updateResults_of_error
    (h : ∀ q ∈ rds, q.errcode ≠ Rc.einprogress ∧ q.errcode ≠ Rc.success ∧ q.errcode ≠ Rc.enodata) :
    updateResults size i rds = some rds := by
  induction rds generalizing i with
  | nil => rfl
  | cons r rest ih =>
    obtain ⟨h₁,h₂,h₃⟩ := h r mem_cons_self
    have hrest := ih (i := i + 1) fun q hq => h q (mem_cons_of_mem _ hq)
    simp [updateResults,updateReadReqResult_of_error h₁ h₂ h₃,hrest]

/-- One request of the mread fails and the others time out. -/
def failAt (k : ℕ) (p : List ReadReq) : List ReadReq :=
  (p.modify k fun r => { r with nread := 0, errcode := Rc.eio }).map ReadReq.expire

theorem getElem?_failAt {j : ℕ} (hp : ∀ q ∈ p, q.errcode = Rc.einprogress)
    (h : (failAt k p)[j]? = some r) : ∃ q, p[j]? = some q ∧ r.ident = q.ident ∧
      r.errcode = if k = j then Rc.eio else Rc.etimedout := by
  unfold failAt at h
  rw [getElem?_map,ListUpdates.getElem?_modify_ite] at h
  obtain ⟨x,hx,rfl⟩ := map_eq_some_iff.mp h
  split at hx
  · next hkj =>
    obtain ⟨q,hq,rfl⟩ := map_eq_some_iff.mp hx
    refine ⟨q,hq,rfl,?_⟩
    rw [if_pos hkj]
    rfl
  · next hkj =>
    refine ⟨x,hx,?_,?_⟩
    · unfold ReadReq.expire
      split <;> rfl
    · rw [if_neg hkj]
      unfold ReadReq.expire
      rw [if_pos (hp x (mem_of_getElem? hx))]
      rfl

theorem awaitServer_failAt (hk : k < p.length) (hlen : 1 < p.length)
    (hp : ∀ q ∈ p, q.errcode = Rc.einprogress) :
    awaitServer { quiet sort with messages := [.complete k Rc.eio] } p =
      some (Rc.success,failAt k p) := by
  have hmsgs : handleMsgs ⟨0,p,0,0⟩ [.complete k Rc.eio] =
      some ⟨0,p.modify k fun r => { r with nread := 0, errcode := Rc.eio },1,1⟩ := by
    simp [handleMsgs,handleMsg,mreadReqCompleteRpc,clientUpdateMreadRequest,ClientMread.nReads,hk,
      Rc.eio]
  have hdone : updateResults (fun _ => 0) 0 (failAt k p) = some (failAt k p) := by
    apply updateResults_of_error
    intro q hq
    obtain ⟨j,hj⟩ := mem_iff_getElem?.mp hq
    obtain ⟨x,-,-,herr⟩ := getElem?_failAt hp hj
    rw [herr]
    split <;> decide
  unfold awaitServer
  rw [if_neg (fun hne => hne rfl)]
  rw [hmsgs,bind_some,if_neg]
  · exact congrArg (Option.map _) hdone
  · simp only [ClientMread.nReads,length_modify]
    omega

/-- A failure of a request that sorting has moved is reported for another one. -/
theorem misplaced_not_attributed (hmax : rds.length ≤ clientMaxReadCount)
    (hnone : ∀ r ∈ rds, c.servesLocally r = false) (hp : p.Perm (started rds))
    (hsort : sort (started rds) = p) (ha : p[k]? = some a) (hb : rds[k]? = some b)
    (hab : a.ident ≠ b.ident)
    (h : processGfidReads c { quiet sort with messages := [.complete k Rc.eio] } rds = some out) :
    ¬ Attributed rds out := by
  have hprog : ∀ q ∈ p, q.errcode = Rc.einprogress := by
    intro q hq
    obtain ⟨x,-,rfl⟩ := mem_map.mp (hp.subset hq)
    rfl
  have hk := (List.getElem?_eq_some_iff.mp ha).choose
  have hlen : 1 < p.length := by
    -- a sorted arrangement of one request cannot move it
    by_contra hshort
    obtain ⟨x,hx⟩ := length_eq_one_iff.mp (show p.length = 1 by omega)
    have hk₀ : k = 0 := by omega
    subst hx hk₀
    have hone := singleton_perm.mp hp
    have hb' : (started rds)[0]? = some (b.withError Rc.einprogress) := by
      rw [getElem?_map,hb,map_some]
    rw [← hone] at hb'
    cases ha
    cases hb'
    exact hab rfl
  obtain ⟨ret,done,hdone,rfl⟩ := processGfidReads_await (ne_nil_of_mem
    (mem_of_getElem? hb)) hmax hnone rfl rfl rfl h
  have hawait : awaitServer { quiet sort with messages := [.complete k Rc.eio] } p =
    some (ret,done) := by
    rw [← hsort]
    exact hdone
  rw [awaitServer_failAt hk hlen hprog] at hawait
  cases hawait
  intro hattr
  obtain ⟨x,hx⟩ : ∃ x, (failAt k p)[k]? = some x := by
    apply ne_none_iff_exists'.mp
    rw [ne_eq,getElem?_eq_none_iff,not_le]
    unfold failAt
    rwa [length_map,length_modify]
  obtain ⟨r,hr,hid,-,herr⟩ := hattr k x b hx hb
  obtain ⟨j,hj⟩ := mem_iff_getElem?.mp hr
  obtain ⟨y,hy,hyid,hyerr⟩ := getElem?_failAt hprog hj
  obtain ⟨z,hz,hzid,hzerr⟩ := getElem?_failAt hprog hx
  by_cases hkj : k = j
  · subst hkj
    rw [ha] at hy
    cases hy
    exact hab (hyid.symm.trans hid)
  · rw [if_neg hkj] at hyerr
    rw [if_pos rfl,herr,hyerr] at hzerr
    cases hzerr

/-- A sort that arranges one given array in one given way. -/
def arrange (l p : List ReadReq) (x : List ReadReq) : List ReadReq :=
  if x = l then p else x.mergeSort readLe

theorem arrange_self (l p : List ReadReq) : arrange l p l = p := if_pos rfl

theorem arrange_sorts {l : List ReadReq} (hp : p.Perm l) (hps : SortedBy readKey p)
    (x : List ReadReq) : (arrange l p x).Perm x ∧ SortedBy readKey (arrange l p x) := by
  unfold arrange
  split
  · next hx =>
    rw [hx]
    exact ⟨hp,hps⟩
  · exact mergeSort_sorts x

/-- Results that stay with their reads in every system need an untangled array. -/
theorem untangled_of_attributed (hfresh : ∀ r ∈ rds, Fresh r) (h : ∀ env, Conforming c rds env →
      ∃ out, processGfidReads c env rds = some out ∧ Attributed rds out) : Untangled c rds := by
  have hquiet : ∀ env : ReadEnv, env.sort = (·.mergeSort readLe) →
      env.logRead = (quiet id).logRead → env.messages = [] → Conforming c rds env := by
    intro env hsort hlog hmsg
    apply conforming_of_quiet _ hlog
    · intro msg hmem
      rw [hmsg] at hmem
      cases hmem
    · intro l
      rw [hsort]
      exact mergeSort_sorts l
  by_cases hall : ∀ r ∈ rds, c.servesLocally r = true
  · obtain ⟨out,hout,-⟩ := h (quiet _) (hquiet _ rfl rfl rfl)
    left
    intro r hr
    exact ⟨hall r hr,finishes_of_returns rfl hr (hfresh r hr) (hall r hr) hout⟩
  · push Not at hall
    obtain ⟨r₂,hr₂,hserver⟩ := hall
    have hnone : ∀ r ∈ rds, c.servesLocally r = false := by
      intro r₁ hr₁
      by_contra hlocal
      obtain ⟨out,hout,hattr⟩ := h { quiet _ with mreadCreated := false } (hquiet _ rfl rfl rfl)
      exact mixed_not_attributed hr₁ hr₂ (by simpa using hlocal) (by simpa using hserver) hout hattr
    refine .inr ⟨hnone,?_⟩
    by_cases hmax : clientMaxReadCount < rds.length
    · exact .inl hmax
    · refine .inr ⟨?_,?_⟩
      · intro r hr
        obtain ⟨out,hout,-⟩ := h { quiet _ with readRc := Rc.enodata } (hquiet _ rfl rfl rfl)
        exact length_pos_of_returns (not_lt.mp hmax) hnone hr (hfresh r hr) hout
      · by_contra hplaced
        have hstarted : ¬ Placed readKey ReadReq.ident (started rds) := by
          intro hp
          exact hplaced (pairwise_map.mp hp)
        obtain ⟨hmp,hms⟩ := mergeSort_sorts _
        obtain ⟨p,hp,hps,k,a,b,ha,hb,hab⟩ :=
          exists_misplaced readKey_of_ident hstarted hmp hms
        rw [getElem?_map] at hb
        obtain ⟨b₀,hb₀,rfl⟩ := map_eq_some_iff.mp hb
        obtain ⟨out,hout,hattr⟩ := h { quiet _ with messages := [.complete k Rc.eio] }
          (conforming_of_quiet (arrange_sorts hp hps) rfl
            fun msg hmsg => ⟨k,Rc.eio,mem_singleton.mp hmsg⟩)
        exact misplaced_not_attributed (not_lt.mp hmax) hnone hp (arrange_self _ _) ha hb₀ hab
          hout hattr

end Tangled

theorem fresh_toRead (q : IoRequest) : Fresh q.toRead := ⟨rfl,rfl⟩

/-- The results of a batch of reads are those of its own reads, in every system
that conforms, exactly when the batch is untangled. -/
theorem resultsOwn_iff_untangled (c : ReadClient) (reqs : List IoRequest)
    (hread : ∀ q ∈ reqs, q.op = .read) :
    (∀ env : DispatchEnv, Conforming c (reqs.map IoRequest.toRead) env.toReadEnv →
      ResultsOwn c env reqs) ↔ Untangled c (reqs.map IoRequest.toRead) := by
  have hfresh : ∀ r ∈ reqs.map IoRequest.toRead, Fresh r :=
    forall_mem_map.mpr fun q _ => fresh_toRead q
  by_cases hne : reqs = []
  · subst hne
    constructor
    · intro _
      left
      intro r hr
      cases hr
    · intro _ env _
      refine ⟨_,rfl,?_⟩
      intro _ i q hq
      cases hq
  constructor
  · intro h
    apply untangled_of_attributed hfresh
    intro env hc
    exact (resultsOwn_iff_attributed hread hne rfl).mp (h ⟨env,true,id⟩ hc)
  · intro hu env hc
    by_cases halloc : env.arraysAllocated = true
    · rw [resultsOwn_iff_attributed hread hne halloc]
      obtain ⟨out,hout,hid,hsub⟩ := processGfidReads_untangled hc hfresh hu
      exact ⟨out,hout,attributed_of_ident hid hsub⟩
    · unfold ResultsOwn dispatchIo
      rw [if_neg hne,resetReqs_reads hread]
      dsimp only
      rw [if_neg (by decide),if_pos (by simpa using halloc)]
      refine ⟨_,rfl,?_⟩
      intro hrc
      exact absurd hrc (show Rc.enomem ≠ Rc.success by decide)

def remoteClient : ReadClient := ⟨false,false,fun _ => none,fun _ => false⟩

def readAt (offset : Fin 16) (userBuf : ℕ) : IoRequest :=
  ⟨userBuf,4,offset,1,.read,.invalid,⟨0,0,0⟩,[0,0,0,0],
    (Nat.add_lt_add_right offset.isLt 4).trans (by decide)⟩

theorem resultsOwn_increasing_batch :
    (∀ q ∈ [readAt 0 100,readAt 8 200], q.op = .read) ∧
    Conforming remoteClient ([readAt 0 100,readAt 8 200].map IoRequest.toRead)
      (quiet (·.mergeSort readLe)) ∧
    ∀ env : DispatchEnv, Conforming remoteClient
      ([readAt 0 100,readAt 8 200].map IoRequest.toRead) env.toReadEnv →
      ResultsOwn remoteClient env [readAt 0 100,readAt 8 200] := by
  have hread : ∀ q ∈ [readAt 0 100,readAt 8 200], q.op = .read := by decide
  refine ⟨hread,?_,?_⟩
  · apply conforming_of_quiet mergeSort_sorts
      (show (quiet (·.mergeSort readLe)).logRead = _ from rfl)
    intro msg hmsg
    cases hmsg
  · apply (resultsOwn_iff_untangled remoteClient _ hread).mpr
    refine .inr ⟨fun _ _ => rfl,.inr ⟨by decide,?_⟩⟩
    unfold Placed
    decide

/-- The mread of the batch below, sorted; its first request fails. -/
def swappedEnv : DispatchEnv where
  toReadEnv := { quiet (arrange (started [(readAt 8 200).toRead,(readAt 0 100).toRead])
      (started [(readAt 0 100).toRead,(readAt 8 200).toRead])) with
    messages := [.complete 0 Rc.eio,.complete 1 Rc.success] }
  arraysAllocated := true
  others := id

theorem swappedEnv_conforming : Conforming remoteClient
    ([readAt 8 200,readAt 0 100].map IoRequest.toRead) swappedEnv.toReadEnv := by
  apply conforming_of_quiet (arrange_sorts (List.Perm.swap _ _ _) _)
    (show swappedEnv.toReadEnv.logRead = _ from rfl)
  · intro msg hmsg
    rcases mem_pair.mp hmsg with rfl | rfl
    · exact ⟨0,Rc.eio,rfl⟩
    · exact ⟨1,Rc.success,rfl⟩
  · unfold SortedBy
    decide

/-- Two reads in decreasing order: each is given the result of the other. -/
theorem decreasing_batch_swapped :
    Conforming remoteClient ([readAt 8 200,readAt 0 100].map IoRequest.toRead)
      swappedEnv.toReadEnv ∧
    (∃ out, dispatchIo remoteClient swappedEnv [readAt 8 200,readAt 0 100] = some out ∧
      out.reqs.map (fun q => (q.toRead.ident,q.result.error)) =
        [((1,8,4,200),Rc.eio),((1,0,4,100),Rc.success)] ∧
      (issued out.reads).map (fun r => (r.ident,r.errcode)) =
        [((1,0,4,100),Rc.eio),((1,8,4,200),Rc.success)]) ∧
    ¬ ResultsOwn remoteClient swappedEnv [readAt 8 200,readAt 0 100] := by
  have hrun : (dispatchIo remoteClient swappedEnv [readAt 8 200,readAt 0 100]).map (fun out =>
      (out.rc,out.reqs.map (fun q => (q.toRead.ident,q.result.error)),out.reqs.map IoRequest.op,
        (issued out.reads).map fun r => (r.ident,r.errcode))) =
      some (Rc.success,[((1,8,4,200),Rc.eio),((1,0,4,100),Rc.success)],[.read,.read],
        [((1,0,4,100),Rc.eio),((1,8,4,200),Rc.success)]) := by
    rfl
  obtain ⟨out,hout,hvals⟩ := map_eq_some_iff.mp hrun
  simp only [Prod.mk.injEq] at hvals
  obtain ⟨hrc,hresults,hops,hissued⟩ := hvals
  refine ⟨swappedEnv_conforming,⟨out,hout,hresults,hissued⟩,?_⟩
  intro hres
  obtain ⟨out',hout',hown⟩ := hres
  cases hout.symm.trans hout'
  have hresult := congrArg (fun l => l[0]?) hresults
  have hop := congrArg (fun l => l[0]?) hops
  simp only [getElem?_map,getElem?_cons_zero] at hresult hop
  obtain ⟨q,hq,hqv⟩ := map_eq_some_iff.mp hresult
  rw [hq,map_some,some.injEq] at hop
  obtain ⟨r,hr,hid,-,herr⟩ := hown hrc 0 q hq hop
  have hmem : (r.ident,r.errcode) ∈ (issued out.reads).map fun r => (r.ident,r.errcode) :=
    List.mem_map_of_mem hr
  rw [hissued,hid,← herr,hqv] at hmem
  revert hmem
  decide

end UnifyFS.DispatchReads
