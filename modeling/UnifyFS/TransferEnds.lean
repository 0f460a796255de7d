import UnifyFS.TransferProgress

/-!
# How a transfer thread ends

A transfer thread is over for the rest of the server when it has finished the collective of its
broadcast, which sends the reply to the parent, and when it has handed itself to the service
manager, which then tells the client. All exits of the thread lead there, except the one after a
failed `open`.

The order of the operations depends on the extents and the size of the copy buffer only: a round
reads the extents that fit, then writes them. The thread stops at the first operation that fails.
The array of local extents has been allocated.
-/
namespace UnifyFS.TransferEnds
open ExtentTree RangeLists Collective ServerTransfer TransferProgress List Option

/-- The operations of the thread that can fail. Extents have their index. -/
inductive Operation where
  | openFile | allocChunks | allocBuffer
  | readExtent (i : ℕ) (ext : Extent)
  | writeChunk (i : ℕ) (ext : Extent)
  deriving DecidableEq, Repr

/-- What an operation returns, if it ends. -/
def outcome (env : ThreadEnv) (maxWrite : ℕ) : Operation → Option Rc
  | .openFile => some env.openErr
  | .allocChunks => some (if env.chunksAllocated then Rc.success else Rc.enomem)
  | .allocBuffer => some (if env.bufferAllocated then Rc.success else Rc.enomem)
  | .readExtent i _ => some (env.readExtent i).1
  | .writeChunk i ext => (writeTransferChunk maxWrite ext.start (readLocalExtent env i ext).2.data
      (env.pwrites i)).map Prod.fst

/-- The result of operations one after another, up to the first one that fails. -/
def firstFailure : List (Option Rc) → Option Rc
  | [] => some Rc.success
  | none :: _ => none
  | some rc :: rest => if rc ≠ Rc.success then some rc else firstFailure rest

def readOps (i : ℕ) (taken : List Extent) : List Operation :=
  (taken.zipIdx i).map fun e => .readExtent e.2 e.1

def writeOps (i : ℕ) (taken : List Extent) : List Operation :=
  (taken.zipIdx i).map fun e => .writeChunk e.2 e.1

def roundOps (bufSz : ℕ) : ℕ → ℕ → List Extent → List Operation
  | 0, _, _ => []
  | rounds + 1, i, exts =>
    let taken := takeFitting bufSz 0 exts
    let rest := exts.drop taken.length
    readOps i taken ++ (writeOps i taken ++
      if rest.isEmpty then [] else roundOps bufSz rounds (i + taken.length) rest)

def threadOps (sizes : Sizes) (exts : List Extent) : List Operation :=
  let args := (localArgs exts true).2
  if args.localDataSz = 0 then []
  else .openFile :: .allocChunks :: .allocBuffer ::
    roundOps ((copyBufferSize sizes args).getD 0) exts.length 0 exts

/-- The calls with which the thread tells others that it is done. -/
inductive EndCall where
  | collectiveSetLocalRetval (val : Rc)
  | collectiveFinish
  | collectiveCleanup
  | smCompleteTransferRequest (status : Rc)
  deriving DecidableEq, Repr

/-- The end of `transfer_helper_thread`, for the thread of a broadcast: `tta->status` and the
calls. -/
def endThread : Except Rc (Rc × List FileWrite) → Rc × List EndCall
  | .error err => (err,[])
  | .ok (ret,_) => (ret,[.collectiveSetLocalRetval ret,.collectiveFinish,.collectiveCleanup,
      .smCompleteTransferRequest ret])

def threadEnd (sizes : Sizes) (env : ThreadEnv) (exts : List Extent) : Option (Rc × List EndCall) :=
  (transferLocalData sizes env (localArgs exts true).2).map endThread

/-- The thread has finished its collective and submitted its transfer once, both with this
status. -/
def EndsWith (status : Rc) (calls : List EndCall) : Prop :=
  calls.count .collectiveFinish = 1 ∧
    calls.filter (fun c => c ≠ .collectiveFinish ∧ c ≠ .collectiveCleanup) =
      [.collectiveSetLocalRetval status,.smCompleteTransferRequest status]

instance (status : Rc) (calls : List EndCall) : Decidable (EndsWith status calls) :=
  inferInstanceAs (Decidable (_ ∧ _))

section Failures
variable {env : ThreadEnv} {maxWrite bufSz : ℕ} {exts : List Extent} {i : ℕ} {sizes : Sizes}

theorem firstFailure_cons (x : Option Rc) (l : List (Option Rc)) : firstFailure (x :: l) =
    x.bind fun rc => if rc ≠ Rc.success then some rc else firstFailure l := by
  cases x with
  | none => rfl
  | some rc => rfl

theorem firstFailure_append (l l' : List (Option Rc)) : firstFailure (l ++ l') =
    (firstFailure l).bind fun rc => if rc ≠ Rc.success then some rc else firstFailure l' := by
  induction l with
  | nil => rfl
  | cons x l ih =>
    rw [cons_append,firstFailure_cons,firstFailure_cons,ih,bind_assoc]
    congr 1
    funext rc
    by_cases hrc : rc = Rc.success
    · rw [if_neg (not_not.mpr hrc),if_neg (not_not.mpr hrc)]
    · rw [if_pos hrc,if_pos hrc,bind_some,if_pos hrc]

theorem readOps_cons (i : ℕ) (ext : Extent) (taken : List Extent) :
    readOps i (ext :: taken) = .readExtent i ext :: readOps (i + 1) taken := by
  rfl

theorem writeOps_cons (i : ℕ) (ext : Extent) (taken : List Extent) :
    writeOps i (ext :: taken) = .writeChunk i ext :: writeOps (i + 1) taken := by
  rfl

theorem andThen_status (first next : Option (Rc × List FileWrite)) :
    (andThen first next).map Prod.fst = (first.map Prod.fst).bind fun rc =>
      if rc ≠ Rc.success then some rc else next.map Prod.fst := by
  cases first with
  | none => rfl
  | some r =>
    rw [andThen,bind_some,map_some,bind_some]
    split
    · rfl
    · rw [Option.map_map]
      rfl

theorem fillBuffer_status (env : ThreadEnv) (maxWrite bufSz copySz i : ℕ) (exts : List Extent) :
    firstFailure ((readOps i (takeFitting bufSz copySz exts)).map (outcome env maxWrite)) =
      some (fillBuffer env bufSz copySz i exts).1 := by
  induction exts generalizing copySz i with
  | nil => rfl
  | cons ext exts ih =>
    rw [takeFitting,fillBuffer]
    by_cases hfits : copySz + ext.length ≤ bufSz
    · rw [if_pos hfits,if_pos hfits,readOps_cons,map_cons,firstFailure_cons,ih]
      change (if (readLocalExtent env i ext).1 ≠ Rc.success then _ else _) = _
      by_cases hread : (readLocalExtent env i ext).1 = Rc.success
      · rw [if_neg (not_not.mpr hread),if_neg (not_not.mpr hread)]
      · rw [if_pos hread,if_pos hread]
        rfl
    · rw [if_neg hfits,if_neg hfits]
      rfl

theorem writeChunks_status (env : ThreadEnv) (maxWrite i : ℕ) (taken : List Extent) :
    (writeChunks env maxWrite (chunksOf env i taken)).map Prod.fst =
      firstFailure ((writeOps i taken).map (outcome env maxWrite)) := by
  induction taken generalizing i with
  | nil => rfl
  | cons ext taken ih =>
    rw [chunksOf,writeChunks,andThen_status,ih,writeOps_cons,map_cons,firstFailure_cons]
    rfl

theorem copyLoop_status {rounds : ℕ} (hfits : ∀ ext ∈ exts, ext.length ≤ bufSz) (hne : exts ≠ [])
    (hrounds : exts.length ≤ rounds) : (copyLoop env maxWrite bufSz rounds i exts).map Prod.fst =
      firstFailure ((roundOps bufSz rounds i exts).map (outcome env maxWrite)) := by
  induction rounds generalizing i exts with
  | zero => exact absurd (eq_nil_of_length_eq_zero (by omega)) hne
  | succ rounds ih =>
    rw [copyLoop,roundOps,map_append,firstFailure_append,fillBuffer_status,bind_some]
    by_cases hrc : (fillBuffer env bufSz 0 i exts).1 = Rc.success
    · obtain ⟨hchunks,hsplit⟩ := fillBuffer_chunks env bufSz 0 i exts hrc
      have htaken : takeFitting bufSz 0 exts ≠ [] := by
        cases exts with
        | nil => exact absurd rfl hne
        | cons ext exts => exact takeFitting_ne_nil (hfits ext mem_cons_self)
      have hpos := length_pos_iff.mpr htaken
      rw [if_neg (not_not.mpr hrc),if_neg (not_not.mpr hrc),hchunks,length_chunksOf,
        andThen_status,writeChunks_status,map_append,firstFailure_append]
      generalize takeFitting bufSz 0 exts = taken at hsplit hpos ⊢
      generalize (fillBuffer env bufSz 0 i exts).2.2 = rest at hsplit ⊢
      subst hsplit
      rw [drop_left]
      by_cases hrest : rest = []
      · rw [hrest]
        rfl
      · have hempty : ¬ rest.isEmpty = true := by rwa [List.isEmpty_iff]
        rw [length_append] at hrounds
        rw [if_neg hempty,if_neg hempty,
          ih (fun e he => hfits e (mem_append_right _ he)) hrest (by omega)]
    · rw [if_pos hrc,if_pos hrc]
      rfl

theorem localArgs_allocated (hne : exts ≠ []) :
    (localArgs exts true).2 = ⟨some exts,(exts.map Range.length).sum⟩ := by
  have hempty := isEmpty_eq_false_iff.mpr hne
  simp [localArgs,hempty]

theorem copyExtents_status (hne : exts ≠ []) :
    (copyExtents sizes env ⟨some exts,(exts.map Range.length).sum⟩).map Prod.fst =
      firstFailure ((.allocChunks :: .allocBuffer :: roundOps ((copyBufferSize sizes
        ⟨some exts,(exts.map Range.length).sum⟩).getD 0) exts.length 0 exts).map
          (outcome env sizes.maxWrite)) := by
  obtain ⟨bufSz,hbuf⟩ := exists_copyBufferSize sizes exts (exts.map Range.length).sum
  have hloop : (copyLoop env sizes.maxWrite bufSz exts.length 0 exts).map Prod.fst =
      firstFailure ((roundOps bufSz exts.length 0 exts).map (outcome env sizes.maxWrite)) :=
    copyLoop_status (copyBufferSize_fits hbuf) hne (Nat.le_refl _)
  rw [hbuf,getD_some,map_cons,map_cons,firstFailure_cons,firstFailure_cons,← hloop]
  unfold copyExtents outcome
  rw [hbuf]
  cases env.chunksAllocated with
  | false => rfl
  | true =>
    cases env.bufferAllocated with
    | false => rfl
    | true => rfl

theorem transferLocalData_opened (sizes : Sizes) (env : ThreadEnv) (hne : exts ≠ []) :
    transferLocalData sizes env (localArgs exts true).2 =
      if env.openErr ≠ Rc.success then some (.error env.openErr)
      else (copyExtents sizes env ⟨some exts,(exts.map Range.length).sum⟩).map .ok := by
  have hsum := fun h => hne (sum_length_eq_zero h)
  rw [transferLocalData,localArgs_allocated hne,if_neg hsum]

theorem threadEnd_status (sizes : Sizes) (env : ThreadEnv) (exts : List Extent) :
    (threadEnd sizes env exts).map Prod.fst =
      firstFailure ((threadOps sizes exts).map (outcome env sizes.maxWrite)) := by
  unfold threadEnd threadOps
  by_cases hne : exts = []
  · rw [hne]
    rfl
  · have hsum := fun h => hne (sum_length_eq_zero h)
    rw [transferLocalData_opened sizes env hne,localArgs_allocated hne]
    rw [if_neg hsum,map_cons,firstFailure_cons,← copyExtents_status hne]
    change _ = if env.openErr ≠ Rc.success then _ else _
    by_cases hopen : env.openErr = Rc.success
    · rw [if_neg (not_not.mpr hopen),if_neg (not_not.mpr hopen),Option.map_map,Option.map_map]
      rfl
    · rw [if_pos hopen,if_pos hopen]
      rfl

theorem endsWith_end (ret : Rc) (writes : List FileWrite) :
    EndsWith ret (endThread (.ok (ret,writes))).2 := by
  constructor
  · rfl
  · rfl

theorem not_endsWith_return (err : Rc) : ¬ EndsWith err (endThread (.error err)).2 :=
  fun h => Nat.zero_ne_one h.1

/-- The thread returns at once if and only if the destination cannot be opened. -/
theorem transferLocalData_error {err : Rc}
    (h : transferLocalData sizes env (localArgs exts true).2 = some (.error err)) :
    exts ≠ [] ∧ env.openErr ≠ Rc.success := by
  unfold transferLocalData at h
  split at h
  · cases h
  · next hsize =>
    split at h
    · next hopen =>
      refine ⟨?_,hopen⟩
      rintro rfl
      exact hsize rfl
    · obtain ⟨out,-,hout⟩ := map_eq_some_iff.mp h
      cases hout

theorem transferLocalData_ok {out : Rc × List FileWrite}
    (h : transferLocalData sizes env (localArgs exts true).2 = some (.ok out)) :
    exts = [] ∨ env.openErr = Rc.success := by
  by_contra hno
  obtain ⟨hne,hopen⟩ := not_or.mp hno
  rw [transferLocalData_opened sizes env hne,if_pos hopen] at h
  cases h

theorem endsWith_iff {status : Rc} {endCalls : List EndCall}
    (h : threadEnd sizes env exts = some (status,endCalls)) :
    EndsWith status endCalls ↔ exts = [] ∨ env.openErr = Rc.success := by
  obtain ⟨r,hr,heq⟩ := map_eq_some_iff.mp h
  cases r with
  | error err =>
    cases heq
    exact iff_of_false (not_endsWith_return _) (not_or.mpr (transferLocalData_error hr))
  | ok out =>
    cases heq
    exact iff_of_true (endsWith_end out.1 out.2) (transferLocalData_ok hr)

theorem threadEnd_of_result {isRoot : Bool} {arrivals : List Arrival} {r : ThreadResult}
    (h : transferHelperThread sizes env (localArgs exts true).2 isRoot arrivals = some r) :
    ∃ endCalls, threadEnd sizes env exts = some (r.status,endCalls) ∧
      (r.finished.isSome = true ↔ .collectiveFinish ∈ endCalls) ∧
      (r.submitted = true ↔ .smCompleteTransferRequest r.status ∈ endCalls) := by
  obtain ⟨out,hout,rfl⟩ := map_eq_some_iff.mp h
  unfold threadEnd
  rw [hout]
  cases out with
  | error err => exact ⟨_,rfl,by simp,by simp⟩
  | ok out => exact ⟨_,rfl,by simp,by simp⟩

end Failures

section Threads
variable {exts : List Extent} {env : ThreadEnv} {calls : ℕ → ℕ → PwriteResult}

theorem exists_copyExtents (hne : exts ≠ []) (maxBuffer : ℕ)
    (hcalls : ∀ i j, ∃ k ≥ j, Fails (calls i k) ∨ Progresses (calls i k)) :
    ∃ n out, ∀ m ≥ n, copyExtents ⟨maxBuffer,transferMaxWrite⟩ (withCalls env calls m)
      ⟨some exts,(exts.map Range.length).sum⟩ = some out := by
  obtain ⟨bufSz,hbuf⟩ := exists_copyBufferSize ⟨maxBuffer,transferMaxWrite⟩ exts
    (exts.map Range.length).sum
  obtain ⟨n,out,hout,-⟩ : ∃ n out, (∀ m ≥ n, copyLoop (withCalls env calls m)
        transferMaxWrite bufSz exts.length 0 exts = some out) ∧
      Settled (withCalls env calls n) transferMaxWrite 0 exts :=
    exists_copyLoop_calls (by decide) (copyBufferSize_fits hbuf) hne hcalls
  unfold copyExtents
  rw [hbuf]
  change ∃ n out, ∀ m ≥ n, (if env.chunksAllocated = false then _ else
    if env.bufferAllocated = false then _ else copyLoop (withCalls env calls m) transferMaxWrite
      bufSz exts.length 0 exts) = some out
  split
  · exact ⟨0,_,fun _ _ => rfl⟩
  · split
    · exact ⟨0,_,fun _ _ => rfl⟩
    · exact ⟨n,out,hout⟩

theorem exists_threadEnd (maxBuffer : ℕ) (exts : List Extent) (env : ThreadEnv)
    (hcalls : ∀ i j, ∃ k ≥ j, Fails (calls i k) ∨ Progresses (calls i k)) : ∃ n out, ∀ m ≥ n,
      threadEnd ⟨maxBuffer,transferMaxWrite⟩ (withCalls env calls m) exts = some out := by
  by_cases hne : exts = []
  · subst hne
    exact ⟨0,_,fun _ _ => rfl⟩
  · have hdata : ∀ m, transferLocalData ⟨maxBuffer,transferMaxWrite⟩ (withCalls env calls m)
        (localArgs exts true).2 = if env.openErr ≠ Rc.success then some (.error env.openErr)
          else (copyExtents ⟨maxBuffer,transferMaxWrite⟩ (withCalls env calls m)
            ⟨some exts,(exts.map Range.length).sum⟩).map .ok :=
      fun m => transferLocalData_opened _ _ hne
    obtain ⟨n,out,hout⟩ := exists_copyExtents hne maxBuffer hcalls
    by_cases hopen : env.openErr = Rc.success
    · refine ⟨n,endThread (.ok out),fun m hm => ?_⟩
      rw [threadEnd,hdata,if_neg (not_not.mpr hopen),hout m hm,map_some,map_some]
    · refine ⟨0,endThread (.error env.openErr),fun m _ => ?_⟩
      rw [threadEnd,hdata,if_pos hopen,map_some]

/-- The thread finishes its collective and submits its transfer once, with the status of the first
operation that fails, if and only if the destination can be opened or there is nothing to copy. -/
theorem threadEnd_endsWith_iff (maxBuffer : ℕ) (exts : List Extent) (env : ThreadEnv)
    (calls : ℕ → ℕ → PwriteResult)
    (hcalls : ∀ i j, ∃ k ≥ j, Fails (calls i k) ∨ Progresses (calls i k)) :
    ∃ n status endCalls, (∀ m ≥ n,
        threadEnd ⟨maxBuffer,transferMaxWrite⟩ (withCalls env calls m) exts =
          some (status,endCalls) ∧
        firstFailure ((threadOps ⟨maxBuffer,transferMaxWrite⟩ exts).map
          (outcome (withCalls env calls m) transferMaxWrite)) = some status) ∧
      (EndsWith status endCalls ↔ exts = [] ∨ env.openErr = Rc.success) := by
  obtain ⟨n,⟨status,endCalls⟩,hout⟩ := exists_threadEnd maxBuffer exts env hcalls
  refine ⟨n,status,endCalls,fun m hm => ⟨hout m hm,?_⟩,?_⟩
  · have hstatus := threadEnd_status ⟨maxBuffer,transferMaxWrite⟩ (withCalls env calls m) exts
    rw [hout m hm] at hstatus
    exact hstatus.symm
  · have hends := endsWith_iff (hout n (Nat.le_refl _))
    exact hends

end Threads

def unopenedThread : ThreadEnv := { readingThread with openErr := Rc.eisdir }

theorem threadEnd_open_fails :
    threadEnd ⟨4,transferMaxWrite⟩ (withCalls unopenedThread interruptedCalls 10) twoLocalExtents =
        some (Rc.eisdir,[]) ∧
      firstFailure ((threadOps ⟨4,transferMaxWrite⟩ twoLocalExtents).map
          (outcome (withCalls unopenedThread interruptedCalls 10) transferMaxWrite)) =
        some Rc.eisdir ∧
      ¬ EndsWith Rc.eisdir [] := by
  decide

theorem threadEnd_opened : ∃ n status endCalls, (∀ m ≥ n,
      threadEnd ⟨4,transferMaxWrite⟩ (withCalls readingThread interruptedCalls m) twoLocalExtents =
          some (status,endCalls) ∧
        firstFailure ((threadOps ⟨4,transferMaxWrite⟩ twoLocalExtents).map
          (outcome (withCalls readingThread interruptedCalls m) transferMaxWrite)) = some status) ∧
      (EndsWith status endCalls ↔ twoLocalExtents = [] ∨ readingThread.openErr = Rc.success) :=
  threadEnd_endsWith_iff 4 twoLocalExtents readingThread interruptedCalls interruptedCalls_progress

end UnifyFS.TransferEnds
