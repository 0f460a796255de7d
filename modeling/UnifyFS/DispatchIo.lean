import UnifyFS.GfidReads

/-!
# Dispatching a batch of I/O requests

`unifyfs_dispatch_io` copies the reads of a batch into an array of their own, has
that array processed, and copies counts and errors back by position.
`process_gfid_reads` keeps no position: it sorts the array, or gathers the
requests served locally at its front. The passes for writes, truncates and syncs
do not touch reads; what they leave in their requests is an argument.

An untangled batch is one that neither of the two can disturb: what is reported for
its requests is then about these requests.
-/
namespace UnifyFS.DispatchIo
open ClientRead GfidReads MachineWords SortedArrays List Option

inductive IoOp where
  | nop | read | write | zero | syncData | syncMeta | trunc | unknown
  deriving DecidableEq, Repr

structure IoResult where
  error : Rc
  rc : Rc
  count : ℕ
  deriving DecidableEq, Repr

structure IoRequest where
  userBuf : ℕ
  nbytes : ℕ
  offset : ℕ
  gfid : ℤ
  op : IoOp
  state : ReqState
  result : IoResult
  /-- The memory at `userBuf`. -/
  bytes : List UInt8
  /-- The sums of sizes do not wrap around; for those that do see `LocalService`. -/
  fits : offset + nbytes < wordSize
  deriving DecidableEq, Repr

structure DispatchEnv extends ReadEnv where
  arraysAllocated : Bool
  /-- A write, truncate or sync request after its pass. -/
  others : IoRequest → IoRequest

def IoRequest.reset (q : IoRequest) : IoRequest :=
  { q with state := .invalid, result := ⟨Rc.success,0,0⟩ }

def IoRequest.toRead (q : IoRequest) : ReadReq :=
  ⟨q.gfid,q.offset,q.nbytes,q.bytes,none,none,0,0,q.userBuf⟩

def IoRequest.complete (rd : ReadReq) (q : IoRequest) : IoRequest :=
  { q with
    state := .completed
    result := { q.result with count := rd.nread, error := rd.errcode } }

/-- The first loop, which stops at an operation it does not know. -/
def resetReqs : List IoRequest → Bool × List IoRequest
  | [] => (true,[])
  | q :: rest =>
    if q.op = .unknown then
      (false,{ q.reset with result := ⟨Rc.einval,0,0⟩ } :: rest)
    else
      let out := resetReqs rest
      (out.1,q.reset :: out.2)

/-- The last loop. Reads are taken from the front of the array of reads. -/
def copyBack (others : IoRequest → IoRequest) : List ReadReq → List IoRequest → List IoRequest
  | _, [] => []
  | rds, q :: rest =>
    match q.op with
    | .read =>
      match rds with
      | [] => [] -- there are as many reads as entries
      | rd :: rds => q.complete rd :: copyBack others rds rest
    | .nop | .unknown => { q with state := .completed } :: copyBack others rds rest
    | _ => others { q with state := .inProgress } :: copyBack others rds rest

structure DispatchOut where
  rc : Rc
  reqs : List IoRequest
  reads : ReadsOut

/-- The array of reads once an error of `process_gfid_reads` is written to it. -/
def reported (out : ReadsOut) : List ReadReq :=
  if out.ret ≠ Rc.success then out.inReqs.map (ReadReq.withError out.ret) else out.inReqs

/-- The reads that were issued, each with its own outcome: an error that stops the
requests for the server is theirs, and no request's that was served locally. -/
def issued (out : ReadsOut) : List ReadReq :=
  out.localReads ++
    if out.ret ≠ Rc.success then out.serverReads.map (ReadReq.withError out.ret)
    else out.serverReads

def dispatchIo (c : ReadClient) (env : DispatchEnv) (reqs : List IoRequest) :
    Option DispatchOut :=
  if reqs = [] then some ⟨Rc.success,[],⟨Rc.success,[],[],[]⟩⟩
  else
    let init := resetReqs reqs
    if init.1 = false then some ⟨Rc.einval,init.2,⟨Rc.success,[],[],[]⟩⟩
    else if env.arraysAllocated = false then some ⟨Rc.enomem,init.2,⟨Rc.success,[],[],[]⟩⟩
    else
      let rdReqs := (init.2.filter fun q => q.op = .read).map IoRequest.toRead
      (processGfidReads c env.toReadEnv rdReqs).map fun out =>
        ⟨Rc.success,copyBack env.others (reported out) init.2,out⟩

/-- The call returns. If it returns success, the count and the error of each read
are those of a read issued for its own file, range and buffer. -/
def ResultsOwn (c : ReadClient) (env : DispatchEnv) (reqs : List IoRequest) : Prop :=
  ∃ out, dispatchIo c env reqs = some out ∧
    (out.rc = Rc.success → ∀ (i : ℕ) (q : IoRequest), out.reqs[i]? = some q →
      q.op = .read → ∃ r ∈ issued out.reads, r.ident = q.toRead.ident ∧
        q.result.count = r.nread ∧ q.result.error = r.errcode)

/-- `compare_read_req` orders by this key. -/
def readKey (r : ReadReq) : ℤ ×ₗ ℕ := toLex (r.gfid,r.offset)

theorem compareReadReq_nonpos (a b : ReadReq) : compareReadReq a b ≤ 0 ↔ readKey a ≤ readKey b := by
  unfold compareReadReq readKey
  rw [Prod.Lex.toLex_le_toLex]
  split_ifs <;> omega

/-- What the rest of the system keeps to: `qsort` sorts, a log read of no bytes
succeeds and no log read returns more than it was asked for, and a server sends
data inside the requests of the mread. -/
structure Conforming (c : ReadClient) (rds : List ReadReq) (env : ReadEnv) : Prop where
  sort_perm : ∀ l, (env.sort l).Perm l
  sort_sorted : ∀ l, (env.sort l).Pairwise fun a b => compareReadReq a b ≤ 0
  logRead_zero : ∀ i cl off, (env.logRead i cl off 0).1 = Rc.success
  logRead_le : ∀ i cl off len, (env.logRead i cl off len).2.length ≤ len
  fits : ∀ msg ∈ env.messages, msg.Fits
    ((env.sort ((rds.filter fun r => !c.servesLocally r).map
      (ReadReq.withError Rc.einprogress))).map ReadReq.length)

/-- All reads are served locally, or none is and they need no sorting. -/
def Untangled (c : ReadClient) (rds : List ReadReq) : Prop :=
  (∀ r ∈ rds, c.servesLocally r = true ∧ c.Finishes r) ∨
  (∀ r ∈ rds, c.servesLocally r = false) ∧
    (clientMaxReadCount < rds.length ∨
      (∀ r ∈ rds, 0 < r.length) ∧ Placed readKey ReadReq.ident rds)

/-- `ResultsOwn` for the array of reads. -/
def Attributed (rds : List ReadReq) (out : ReadsOut) : Prop :=
  ∀ (i : ℕ) (a r₀ : ReadReq), (reported out)[i]? = some a → rds[i]? = some r₀ →
    ∃ r ∈ issued out, r.ident = r₀.ident ∧ a.nread = r.nread ∧ a.errcode = r.errcode

theorem resetReqs_known {reqs : List IoRequest} (h : ∀ q ∈ reqs, q.op ≠ .unknown) :
    resetReqs reqs = (true,reqs.map IoRequest.reset) := by
  induction reqs with
  | nil => rfl
  | cons q rest ih =>
    have hrest := ih fun q hq => h q (mem_cons_of_mem _ hq)
    rw [resetReqs,if_neg (h q mem_cons_self),hrest]
    rfl

section Batch
variable {c : ReadClient} {env : DispatchEnv} {reqs : List IoRequest}
  (hread : ∀ q ∈ reqs, q.op = .read)
include hread

theorem resetReqs_reads : resetReqs reqs = (true,reqs.map IoRequest.reset) := by
  refine resetReqs_known fun q hq => ?_
  rw [hread q hq]
  decide

theorem copyBack_reads (others : IoRequest → IoRequest) (rds : List ReadReq) :
    copyBack others rds (reqs.map IoRequest.reset) =
      List.zipWith (fun rd q => q.reset.complete rd) rds reqs := by
  induction reqs generalizing rds with
  | nil => cases rds <;> rfl
  | cons q rest ih =>
    have hq : q.reset.op = .read := hread q mem_cons_self
    have hrest := ih fun q hq => hread q (mem_cons_of_mem _ hq)
    cases rds with
    | nil => simp [copyBack,hq]
    | cons rd rds => simp [copyBack,hq,hrest]

theorem rdReqs_reads :
    ((reqs.map IoRequest.reset).filter fun q => q.op = .read).map IoRequest.toRead =
      reqs.map IoRequest.toRead := by
  rw [filter_eq_self.mpr,List.map_map]
  · rfl
  · exact forall_mem_map.mpr fun q₀ hq₀ => decide_eq_true (hread q₀ hq₀)

theorem resultsOwn_iff_attributed (hne : reqs ≠ []) (halloc : env.arraysAllocated = true) :
    ResultsOwn c env reqs ↔
      ∃ out, processGfidReads c env.toReadEnv (reqs.map IoRequest.toRead) = some out ∧
        Attributed (reqs.map IoRequest.toRead) out := by
  unfold ResultsOwn dispatchIo
  rw [if_neg hne,resetReqs_reads hread]
  simp only [Bool.true_eq_false,if_false,halloc,rdReqs_reads hread,copyBack_reads hread]
  constructor
  · intro hres
    obtain ⟨d,hd,hown⟩ := hres
    obtain ⟨out,hout,rfl⟩ := map_eq_some_iff.mp hd
    refine ⟨out,hout,?_⟩
    intro i a r₀ ha hr₀
    rw [getElem?_map] at hr₀
    obtain ⟨q,hq,rfl⟩ := map_eq_some_iff.mp hr₀
    apply hown rfl i (q.reset.complete a)
    · simp only [getElem?_zipWith,ha,hq]
    · exact hread q (mem_of_getElem? hq)
  · intro hattr
    obtain ⟨out,hout,hattr⟩ := hattr
    refine ⟨_,by rw [hout,map_some],?_⟩
    intro _ i q hq _
    obtain ⟨a,q₀,ha,hq₀,rfl⟩ := getElem?_zipWith_eq_some.mp hq
    apply hattr i a q₀.toRead ha
    rw [getElem?_map,hq₀,map_some]

end Batch

def Fresh (r : ReadReq) : Prop := r.nread = 0 ∧ r.coverBegin = none

section Untangled
variable {c : ReadClient} {env : ReadEnv} {rds : List ReadReq} {out : ReadsOut}

theorem attributed_of_ident (hident : (reported out).map ReadReq.ident = rds.map ReadReq.ident)
    (hsub : reported out ⊆ issued out) : Attributed rds out := by
  intro i a r₀ ha hr₀
  refine ⟨a,hsub (mem_of_getElem? ha),?_,rfl,rfl⟩
  have hi := congrArg (fun l => l[i]?) hident
  simpa [ha,hr₀] using hi

theorem map_ident_reported (out : ReadsOut) :
    (reported out).map ReadReq.ident = out.inReqs.map ReadReq.ident := by
  unfold reported
  split
  · exact map_ident_withError _
  · rfl

theorem reported_eq_issued (hlocal : out.localReads = []) (hserver : out.inReqs = out.serverReads) :
    reported out = issued out := by
  unfold reported issued
  rw [hlocal,hserver,nil_append]

theorem reported_subset_issued (hret : out.ret ≠ Rc.success)
    (hsub : out.inReqs ⊆ out.serverReads) : reported out ⊆ issued out := by
  unfold reported issued
  rw [if_pos hret,if_pos hret]
  apply subset_append_of_subset_right
  exact map_subset _ hsub

theorem servesLocally_withError (c : ReadClient) (rc : Rc) (r : ReadReq) :
    c.servesLocally (r.withError rc) = c.servesLocally r := rfl

theorem serviceLocalReqs_none {i : ℕ} (h : ∀ r ∈ rds, c.servesLocally r = false) :
    serviceLocalReqs c env i rds = some ⟨rds,[],rds⟩ := by
  induction rds generalizing i with
  | nil => rfl
  | cons r rest ih =>
    have hr := h r mem_cons_self
    have hrest := ih (i := i + 1) fun r hr => h r (mem_cons_of_mem _ hr)
    simp [serviceLocalReqs,hr,hrest]

theorem Conforming.sortedBy (hc : Conforming c rds env) (l : List ReadReq) :
    SortedBy readKey (env.sort l) := by
  apply (hc.sort_sorted l).imp
  intro a b hab
  exact (compareReadReq_nonpos a b).mp hab

theorem readKey_of_ident (a b : ReadReq) (h : a.ident = b.ident) : readKey a = readKey b := by
  simp only [ReadReq.ident,Prod.mk.injEq] at h
  unfold readKey
  rw [h.1,h.2.1]

/-- The array as `process_gfid_reads` marks it before anything else. -/
abbrev started (rds : List ReadReq) : List ReadReq :=
  rds.map (ReadReq.withError Rc.einprogress)

theorem placed_started (h : Placed readKey ReadReq.ident rds) :
    Placed readKey ReadReq.ident (started rds) := by
  apply pairwise_map.mpr
  exact h

/-- Requests for the server alone, which sorting does not move. -/
theorem readFromServer_placed (hc : Conforming c rds env) (hfresh : ∀ r ∈ rds, Fresh r)
    (hnone : ∀ r ∈ rds, c.servesLocally r = false) (h : clientMaxReadCount < rds.length ∨
      (∀ r ∈ rds, 0 < r.length) ∧ Placed readKey ReadReq.ident rds) :
    ∃ out, readFromServer c env (started rds) [] (started rds) = some out ∧
      (reported out).map ReadReq.ident = rds.map ReadReq.ident ∧ reported out ⊆ issued out := by
  have hstart : (started rds).map ReadReq.ident = rds.map ReadReq.ident :=
    map_ident_withError Rc.einprogress
  unfold readFromServer
  split
  · refine ⟨_,rfl,(map_ident_reported _).trans hstart,?_⟩
    exact List.Subset.refl _
  · next hmax =>
    rw [length_map] at hmax
    obtain ⟨hpos,hplaced⟩ := h.resolve_left hmax
    have hperm := hc.sort_perm (started rds)
    have hident :=
      ((placed_started hplaced).map_ident_eq readKey_of_ident hperm (hc.sortedBy _)).trans hstart
    dsimp only
    split
    · obtain ⟨⟨ret,done⟩,hdone⟩ : ∃ o, awaitServer env (env.sort (started rds)) = some o := by
        apply awaitServer_isSome
        · have hfilter : (rds.filter fun r => !c.servesLocally r) = rds := by
            apply filter_eq_self.mpr
            intro r hr
            rw [hnone r hr]
            rfl
          have hfits := hc.fits
          rw [hfilter] at hfits
          exact hfits
        · intro r hr _
          obtain ⟨q,hq,rfl⟩ := mem_map.mp (hperm.subset hr)
          exact (hfresh q hq).1
        · exact length_pos_of_ident hident hpos
      have hdi := (awaitServer_ident hdone).trans hident
      have hin : (if c.attempts = true then [] ++ done else done) = done := ite_self done
      rw [hdone,map_some]
      refine ⟨_,rfl,?_,?_⟩
      · rw [map_ident_reported,hin]
        exact hdi
      · rw [reported_eq_issued rfl hin]
        exact List.Subset.refl _
    · refine ⟨_,rfl,?_,?_⟩
      · rw [map_ident_reported]
        split
        · exact hstart
        · exact hident
      · apply reported_subset_issued (show Rc.enomem ≠ Rc.success by decide)
        split
        · exact hperm.symm.subset
        · exact List.Subset.refl _

theorem serviceLocalReqs_all (hc : Conforming c rds env) (hfresh : ∀ r ∈ rds, Fresh r)
    (hall : ∀ r ∈ rds, c.servesLocally r = true ∧ c.Finishes r) :
    ∃ s done, serviceLocalReqs c env 0 (started rds) = some s ∧
      updateResults env.localSize 0 s.localReqs = some done ∧ s.serverReqs = [] ∧
      done.map ReadReq.ident = rds.map ReadReq.ident := by
  obtain ⟨s,hs,hcover⟩ : ∃ s, serviceLocalReqs c env 0 (started rds) = some s ∧ _ := by
    apply serviceLocalReqs_isSome hc.logRead_zero
    · exact forall_mem_map.mpr fun q hq _ => (hfresh q hq).1
    · exact forall_mem_map.mpr fun q hq _ => (hall q hq).2
  obtain ⟨done,hdone⟩ := updateResults_isSome hcover
  have hlocal : ∀ r ∈ started rds, c.servesLocally r = true :=
    forall_mem_map.mpr fun q hq => (hall q hq).1
  obtain ⟨-,hid,hserver⟩ := serviceLocalReqs_ident hs
  refine ⟨s,done,hs,hdone,?_,?_⟩
  · rw [hserver]
    apply filter_eq_nil_iff.mpr
    intro r hr
    rw [hlocal r hr]
    decide
  · rw [updateResults_ident hdone,hid,filter_eq_self.mpr hlocal]
    exact map_ident_withError _

theorem processGfidReads_eq (hne : rds ≠ [])
    (halloc : c.attempts = true → env.reqsAllocated = true) : processGfidReads c env rds =
      (serviceLocalReqs c env 0 (started rds)).bind fun s =>
        (updateResults env.localSize 0 s.localReqs).bind fun done =>
          if s.serverReqs = [] then some ⟨Rc.success,done,done,[]⟩
          else readFromServer c env s.inReqs done s.serverReqs := by
  unfold processGfidReads
  rw [if_neg hne]
  split
  · next hatt => rw [if_pos (halloc hatt)]
  · next hatt =>
    have hnone : ∀ r ∈ started rds, c.servesLocally r = false := by
      intro r _
      unfold ReadClient.servesLocally
      rw [Bool.eq_false_iff.mpr hatt,Bool.false_and]
    rw [serviceLocalReqs_none hnone,bind_some,updateResults,bind_some,
      if_neg (mt map_eq_nil_iff.mp hne)]

theorem processGfidReads_no_memory (hne : rds ≠ [])
    (halloc : ¬ (c.attempts = true → env.reqsAllocated = true)) :
    processGfidReads c env rds = some ⟨Rc.enomem,started rds,[],started rds⟩ := by
  push Not at halloc
  unfold processGfidReads
  rw [if_neg hne]
  rw [if_pos halloc.1,if_neg halloc.2]

theorem processGfidReads_server (hne : rds ≠ [])
    (halloc : c.attempts = true → env.reqsAllocated = true)
    (hnone : ∀ r ∈ rds, c.servesLocally r = false) :
    processGfidReads c env rds = readFromServer c env (started rds) [] (started rds) := by
  have hstarted : ∀ r ∈ started rds, c.servesLocally r = false := forall_mem_map.mpr hnone
  rw [processGfidReads_eq hne halloc,serviceLocalReqs_none hstarted]
  exact if_neg (mt map_eq_nil_iff.mp hne)

/-- An untangled array is processed, and its results stay with its reads. -/
theorem processGfidReads_untangled (hc : Conforming c rds env) (hfresh : ∀ r ∈ rds, Fresh r)
    (hu : Untangled c rds) : ∃ out, processGfidReads c env rds = some out ∧
      (reported out).map ReadReq.ident = rds.map ReadReq.ident ∧ reported out ⊆ issued out := by
  by_cases hne : rds = []
  · subst hne
    exact ⟨_,rfl,rfl,List.Subset.refl _⟩
  · by_cases halloc : c.attempts = true → env.reqsAllocated = true
    · cases hu with
      | inl hall =>
        obtain ⟨s,done,hs,hdone,hserver,hid⟩ := serviceLocalReqs_all hc hfresh hall
        rw [processGfidReads_eq hne halloc,hs,bind_some,hdone,bind_some,if_pos hserver]
        exact ⟨_,rfl,hid,subset_append_of_subset_left _ (List.Subset.refl _)⟩
      | inr hserver =>
        rw [processGfidReads_server hne halloc hserver.1]
        exact readFromServer_placed hc hfresh hserver.1 hserver.2
    · refine ⟨_,processGfidReads_no_memory hne halloc,?_,?_⟩
      · exact (map_ident_reported _).trans (map_ident_withError _)
      · rw [reported_eq_issued rfl rfl]
        exact List.Subset.refl _

end Untangled

end UnifyFS.DispatchIo
