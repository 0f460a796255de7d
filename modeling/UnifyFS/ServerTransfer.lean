import UnifyFS.Collective
import UnifyFS.ExtentTree
import Mathlib.Algebra.Order.BigOperators.Group.List
import Mathlib.Algebra.Order.Group.Nat

/-!
# The local part of a file transfer

A server copies the extents that it stores itself from the logs of its clients to the
destination file, in a thread of its own. The thread reads as many extents as fit into a buffer,
writes them out, and goes on until none is left. What the system calls and allocations give is
an argument; a thread that reads through a null pointer, or that waits for a `pwrite` which
never makes progress, has no result.
-/
namespace UnifyFS.ServerTransfer
open ExtentTree RangeLists Collective List Option

structure FileWrite where
  offset : ℕ
  data : List UInt8
  deriving DecidableEq, Repr

/-- A number of bytes, or -1 with an error number. -/
inductive PwriteResult where
  | wrote (n : ℕ)
  | error (err : Rc) (nonzero : err ≠ Rc.success)

/-- The results of the operations of a thread. Reads and writes belong to the extent at an
index; a read leaves bytes in the copy buffer. -/
structure ThreadEnv where
  openErr : Rc
  chunksAllocated : Bool
  bufferAllocated : Bool
  readExtent : ℕ → Rc × (ℕ → UInt8)
  pwrites : ℕ → List PwriteResult

structure Sizes where
  maxBuffer : ℕ
  maxWrite : ℕ

structure TransferChunk where
  index : ℕ
  data : List UInt8
  offset : ℕ
  deriving DecidableEq, Repr

/-- `transfer_thread_args`, as far as the local extents are concerned. -/
structure ThreadArgs where
  localExtents : Option (List Extent)
  localDataSz : ℕ
  deriving DecidableEq, Repr

def eintr : Rc := 4
def eagain : Rc := 11

/-- `write_transfer_chunk`: one `pwrite` after another until all data are written. -/
def writeTransferChunk (maxWrite : ℕ) :
    ℕ → List UInt8 → List PwriteResult → Option (Rc × List FileWrite)
  | _, _, [] => none
  | offset, data, .error err _ :: results =>
    if err ≠ eintr ∧ err ≠ eagain then some (err,[])
    else if data.isEmpty then some (Rc.success,[])
    else writeTransferChunk maxWrite offset data results
  | offset, data, .wrote n :: results =>
    let n := min n (min data.length maxWrite)
    let w : FileWrite := ⟨offset,data.take n⟩
    if (data.drop n).isEmpty then some (Rc.success,[w])
    else (writeTransferChunk maxWrite (offset + n) (data.drop n) results).map fun r =>
      (r.1,w :: r.2)

def readLocalExtent (env : ThreadEnv) (i : ℕ) (ext : Extent) : Rc × TransferChunk :=
  let r := env.readExtent i
  (r.1,⟨i,(List.range ext.length).map r.2,ext.start⟩)

/-- The loop that reads extents while they fit into the buffer: the result, the chunks and the
extents that are left. -/
def fillBuffer (env : ThreadEnv) (bufSz : ℕ) :
    ℕ → ℕ → List Extent → Rc × List TransferChunk × List Extent
  | _, _, [] => (Rc.success,[],[])
  | copySz, i, ext :: exts =>
    if copySz + ext.length ≤ bufSz then
      let r := readLocalExtent env i ext
      if r.1 ≠ Rc.success then (r.1,[],exts)
      else
        let out := fillBuffer env bufSz (copySz + ext.length) (i + 1) exts
        (out.1,r.2 :: out.2.1,out.2.2)
    else (Rc.success,[],ext :: exts)

def andThen (first next : Option (Rc × List FileWrite)) : Option (Rc × List FileWrite) :=
  first.bind fun r =>
    if r.1 ≠ Rc.success then some r else next.map fun out => (out.1,r.2 ++ out.2)

def writeChunks (env : ThreadEnv) (maxWrite : ℕ) :
    List TransferChunk → Option (Rc × List FileWrite)
  | [] => some (Rc.success,[])
  | chk :: chks =>
    andThen (writeTransferChunk maxWrite chk.offset chk.data (env.pwrites chk.index))
      (writeChunks env maxWrite chks)

/-- The loop over full buffers. A round that takes no extent would be repeated forever. -/
def copyLoop (env : ThreadEnv) (maxWrite bufSz : ℕ) :
    ℕ → ℕ → List Extent → Option (Rc × List FileWrite)
  | 0, _, _ => none
  | rounds + 1, i, exts =>
    let filled := fillBuffer env bufSz 0 i exts
    if filled.1 ≠ Rc.success then some (filled.1,[])
    else
      andThen (writeChunks env maxWrite filled.2.1)
        (if filled.2.2.isEmpty then some (Rc.success,[])
        else copyLoop env maxWrite bufSz rounds (i + filled.2.1.length) filled.2.2)

/-- The size of the copy buffer. The longest extent must fit. -/
def copyBufferSize (sizes : Sizes) (args : ThreadArgs) : Option ℕ :=
  if args.localDataSz ≤ sizes.maxBuffer then some args.localDataSz
  else args.localExtents.map fun exts =>
    exts.foldl (fun bufSz ext => if bufSz < ext.length then ext.length else bufSz) sizes.maxBuffer

def copyExtents (sizes : Sizes) (env : ThreadEnv) (args : ThreadArgs) :
    Option (Rc × List FileWrite) :=
  if env.chunksAllocated = false then some (Rc.enomem,[])
  else
    (copyBufferSize sizes args).bind fun bufSz =>
      if env.bufferAllocated = false then some (Rc.enomem,[])
      else args.localExtents.bind fun exts =>
        copyLoop env sizes.maxWrite bufSz exts.length 0 exts

/-- The thread up to its cleanup; an error means that it returns at once. -/
def transferLocalData (sizes : Sizes) (env : ThreadEnv) (args : ThreadArgs) :
    Option (Except Rc (Rc × List FileWrite)) :=
  if args.localDataSz = 0 then some (.ok (Rc.success,[]))
  else if env.openErr ≠ Rc.success then some (.error env.openErr)
  else (copyExtents sizes env args).map .ok

/-- What the thread leaves behind: its status, its writes, the end of the collective with the
reply to the parent, and whether it has reported its end. -/
structure ThreadResult where
  status : Rc
  writes : List FileWrite
  finished : Option (Rc × Option Rc)
  submitted : Bool
  deriving DecidableEq, Repr

/-- `transfer_helper_thread`. The collective of a server has an output and a parent unless it is
the root. -/
def transferHelperThread (sizes : Sizes) (env : ThreadEnv) (args : ThreadArgs) (isRoot : Bool)
    (arrivals : List Arrival) : Option ThreadResult :=
  (transferLocalData sizes env args).map fun
    | .error err => ⟨err,[],none,false⟩
    | .ok (ret,writes) =>
      let output := if isRoot then none else some Rc.success
      ⟨ret,writes,some (collectiveFinish (setLocalRetval output ret) (!isRoot) arrivals),true⟩

def ownExtents (rank : ℤ) (exts : List Extent) : List Extent :=
  exts.filter fun ext => ext.info.svrRank == rank

def localArgs (localExtents : List Extent) (allocated : Bool) : Rc × ThreadArgs :=
  let dataSz := (localExtents.map Range.length).sum
  if localExtents.isEmpty then (Rc.success,⟨none,dataSz⟩)
  else if allocated then (Rc.success,⟨some localExtents,dataSz⟩)
  else (Rc.enomem,⟨none,dataSz⟩)

/-- `create_local_transfers` on a server, given what `unifyfs_inode_get_extents` returns. -/
def createLocalTransfers (rank : ℤ) (found : Except Rc (List Extent)) (allocated : Bool) :
    Rc × ThreadArgs :=
  match found with
  | .error rc => (rc,⟨none,0⟩)
  | .ok exts => localArgs (ownExtents rank exts) allocated

section Copied
variable {env : ThreadEnv} {maxWrite bufSz : ℕ} {exts : List Extent} {i : ℕ}
  {writes : List FileWrite}

/-- The extents have been read and written without an error, with these writes. -/
def Copied (env : ThreadEnv) (maxWrite : ℕ) : ℕ → List Extent → List FileWrite → Prop
  | _, [], writes => writes = []
  | i, ext :: exts, writes => ∃ w rest, (env.readExtent i).1 = Rc.success ∧
      writeTransferChunk maxWrite ext.start (readLocalExtent env i ext).2.data (env.pwrites i) =
        some (Rc.success,w) ∧ Copied env maxWrite (i + 1) exts rest ∧ writes = w ++ rest

theorem andThen_eq_success {first next : Option (Rc × List FileWrite)} :
    andThen first next = some (Rc.success,writes) ↔ ∃ w w', first = some (Rc.success,w) ∧
      next = some (Rc.success,w') ∧ writes = w ++ w' := by
  constructor
  · intro h
    obtain ⟨⟨rc,w⟩,hfirst,hrest⟩ := bind_eq_some_iff.mp h
    dsimp only at hrest
    split at hrest
    · next hrc =>
      cases hrest
      exact absurd rfl hrc
    · next hrc =>
      obtain ⟨⟨rc',w'⟩,hnext,heq⟩ := map_eq_some_iff.mp hrest
      cases heq
      exact ⟨w,w',hfirst.trans (by rw [not_not.mp hrc]),hnext,rfl⟩
  · rintro ⟨w,w',rfl,rfl,rfl⟩
    rfl

theorem copied_append (env : ThreadEnv) (maxWrite i : ℕ) (exts exts' : List Extent)
    (writes : List FileWrite) : Copied env maxWrite i (exts ++ exts') writes ↔
      ∃ w w', Copied env maxWrite i exts w ∧ Copied env maxWrite (i + exts.length) exts' w' ∧
        writes = w ++ w' := by
  induction exts generalizing i writes with
  | nil =>
    exact ⟨fun h => ⟨[],writes,rfl,h,rfl⟩,fun ⟨w,w',hw,h,heq⟩ => by rwa [heq,hw]⟩
  | cons ext exts ih =>
    simp only [cons_append,Copied,ih]
    rw [length_cons,show i + (exts.length + 1) = i + 1 + exts.length by omega]
    constructor
    · rintro ⟨w,-,hread,hwrite,⟨v,v',hv,hv',rfl⟩,rfl⟩
      exact ⟨w ++ v,v',⟨w,v,hread,hwrite,hv,rfl⟩,hv',(append_assoc ..).symm⟩
    · rintro ⟨-,v',⟨w,v,hread,hwrite,hv,rfl⟩,hv',rfl⟩
      exact ⟨w,v ++ v',hread,hwrite,⟨v,v',hv,hv',rfl⟩,append_assoc ..⟩

theorem fillBuffer_spec (env : ThreadEnv) (bufSz copySz i : ℕ) (exts : List Extent) :
    ((fillBuffer env bufSz copySz i exts).1 ≠ Rc.success ∧
      ∀ maxWrite writes, ¬ Copied env maxWrite i exts writes) ∨
    ∃ taken, exts = taken ++ (fillBuffer env bufSz copySz i exts).2.2 ∧
      (fillBuffer env bufSz copySz i exts).1 = Rc.success ∧
      (fillBuffer env bufSz copySz i exts).2.1.length = taken.length ∧ (∀ maxWrite writes,
        writeChunks env maxWrite (fillBuffer env bufSz copySz i exts).2.1 =
          some (Rc.success,writes) ↔ Copied env maxWrite i taken writes) ∧
      (∀ ext ∈ exts.head?, copySz + ext.length ≤ bufSz → taken ≠ []) := by
  induction exts generalizing copySz i with
  | nil =>
    simp [fillBuffer,writeChunks,Copied,eq_comm]
  | cons ext exts ih =>
    rw [fillBuffer]
    split
    · next hfits =>
      dsimp only
      split
      · next hread =>
        exact .inl ⟨hread,fun _ _ ⟨_,_,hok,_⟩ => hread hok⟩
      · next hread =>
        have hread : (env.readExtent i).1 = Rc.success := not_not.mp hread
        rcases ih (copySz + ext.length) (i + 1) with ⟨hrc,hno⟩ | ⟨taken,hsplit,hrc,hlen,hwrite,-⟩
        · exact .inl ⟨hrc,fun maxWrite _ ⟨_,rest,_,_,hrest,_⟩ => hno maxWrite rest hrest⟩
        · refine .inr ⟨ext :: taken,?_,hrc,?_,fun maxWrite writes => ?_,fun _ _ _ => ?_⟩
          · rw [cons_append,← hsplit]
          · rw [length_cons,length_cons,hlen]
          · rw [writeChunks,andThen_eq_success,Copied]
            simp only [hwrite,hread,true_and]
            rfl
          · exact cons_ne_nil _ _
    · next hfits =>
      refine .inr ⟨[],rfl,rfl,rfl,fun maxWrite writes => ?_,fun e he hle => ?_⟩
      · simp [writeChunks,Copied,eq_comm]
      · cases he
        exact absurd hle hfits

theorem copied_nil : Copied env maxWrite i [] writes ↔ writes = [] := Iff.rfl

theorem copyLoop_eq_success {rounds : ℕ} (hfits : ∀ ext ∈ exts, ext.length ≤ bufSz)
    (hne : exts ≠ []) (hrounds : exts.length ≤ rounds) :
    copyLoop env maxWrite bufSz rounds i exts = some (Rc.success,writes) ↔
      Copied env maxWrite i exts writes := by
  induction rounds generalizing i exts writes with
  | zero => exact absurd (eq_nil_of_length_eq_zero (by omega)) hne
  | succ rounds ih =>
    rw [copyLoop]
    rcases fillBuffer_spec env bufSz 0 i exts with ⟨hrc,hno⟩ |
      ⟨taken,hsplit,hrc,hlen,hwrite,hprogress⟩
    · rw [if_pos hrc]
      refine iff_of_false (fun h => ?_) (hno maxWrite writes)
      exact hrc (congrArg Prod.fst (some.inj h))
    · generalize fillBuffer env bufSz 0 i exts = filled at hsplit hrc hlen hwrite
      obtain ⟨rc,chunks,rest⟩ := filled
      dsimp only at hsplit hrc hlen hwrite ⊢
      rw [if_neg (not_not.mpr hrc),andThen_eq_success,hsplit,copied_append,hlen]
      simp only [hwrite]
      have htaken : taken ≠ [] := by
        cases exts with
        | nil => exact absurd rfl hne
        | cons ext exts =>
          exact hprogress ext rfl (by simpa using hfits ext mem_cons_self)
      have hpos := length_pos_iff.mpr htaken
      cases rest with
      | nil => simp [copied_nil,eq_comm]
      | cons ext rest =>
        rw [hsplit,length_append] at hrounds
        have hih : ∀ w, copyLoop env maxWrite bufSz rounds (i + taken.length) (ext :: rest) =
            some (Rc.success,w) ↔ Copied env maxWrite (i + taken.length) (ext :: rest) w :=
          fun w => ih (fun e he => hfits e (hsplit ▸ mem_append_right _ he))
            (cons_ne_nil ext rest) (by omega)
        simp only [isEmpty_cons,Bool.false_eq_true,if_false,hih]

end Copied

section Status
variable {sizes : Sizes} {env : ThreadEnv} {exts : List Extent} {rank : ℤ}

theorem le_foldl_longest (exts : List Extent) (bufSz : ℕ) :
    bufSz ≤ exts.foldl (fun bufSz ext => if bufSz < ext.length then ext.length else bufSz) bufSz ∧
      ∀ ext ∈ exts, ext.length ≤
        exts.foldl (fun bufSz ext => if bufSz < ext.length then ext.length else bufSz) bufSz := by
  induction exts generalizing bufSz with
  | nil => exact ⟨Nat.le_refl _,nofun⟩
  | cons e exts ih =>
    obtain ⟨hle,hmem⟩ := ih (if bufSz < e.length then e.length else bufSz)
    have hstep : bufSz ≤ (if bufSz < e.length then e.length else bufSz) ∧
        e.length ≤ (if bufSz < e.length then e.length else bufSz) := by
      split <;> omega
    refine ⟨Nat.le_trans hstep.1 hle,fun ext hext => ?_⟩
    rcases mem_cons.mp hext with rfl | hext
    · exact Nat.le_trans hstep.2 hle
    · exact hmem ext hext

theorem copyBufferSize_fits {bufSz : ℕ}
    (h : copyBufferSize sizes ⟨some exts,(exts.map Range.length).sum⟩ = some bufSz) :
    ∀ ext ∈ exts, ext.length ≤ bufSz := by
  intro ext hext
  unfold copyBufferSize at h
  split at h
  · cases h
    exact single_le_sum (fun _ _ => Nat.zero_le _) _ (mem_map_of_mem hext)
  · cases h
    exact (le_foldl_longest exts sizes.maxBuffer).2 ext hext

theorem exists_copyBufferSize (sizes : Sizes) (exts : List Extent) (dataSz : ℕ) :
    ∃ bufSz, copyBufferSize sizes ⟨some exts,dataSz⟩ = some bufSz := by
  unfold copyBufferSize
  split
  · exact ⟨_,rfl⟩
  · exact ⟨_,rfl⟩

theorem copyExtents_eq_success (hne : exts ≠ []) {writes : List FileWrite} :
    copyExtents sizes env ⟨some exts,(exts.map Range.length).sum⟩ = some (Rc.success,writes) ↔
      env.chunksAllocated = true ∧ env.bufferAllocated = true ∧
        Copied env sizes.maxWrite 0 exts writes := by
  obtain ⟨bufSz,hbuf⟩ := exists_copyBufferSize sizes exts (exts.map Range.length).sum
  have hloop : copyLoop env sizes.maxWrite bufSz exts.length 0 exts = some (Rc.success,writes) ↔
      Copied env sizes.maxWrite 0 exts writes :=
    copyLoop_eq_success (copyBufferSize_fits hbuf) hne (Nat.le_refl _)
  unfold copyExtents
  rw [hbuf]
  cases env.chunksAllocated with
  | false => simp [Rc.enomem,Rc.success]
  | true =>
    cases env.bufferAllocated with
    | false => simp [Rc.enomem,Rc.success]
    | true => simpa using hloop

theorem sum_length_eq_zero {exts : List Extent} (h : (exts.map Range.length).sum = 0) :
    exts = [] := by
  cases exts with
  | nil => rfl
  | cons ext exts =>
    rw [map_cons,sum_cons,Range.length] at h
    omega

/-- All operations on the own extents succeed: there are none, or memory is allocated, the
destination can be opened, and every extent is read and written without an error. -/
def Succeeds (sizes : Sizes) (env : ThreadEnv) (allocated : Bool) (exts : List Extent)
    (writes : List FileWrite) : Prop :=
  exts = [] ∧ writes = [] ∨ exts ≠ [] ∧ allocated = true ∧ env.openErr = Rc.success ∧
    env.chunksAllocated = true ∧ env.bufferAllocated = true ∧
    Copied env sizes.maxWrite 0 exts writes

theorem transferLocalData_of_pos (sizes : Sizes) (env : ThreadEnv) {args : ThreadArgs}
    (hpos : args.localDataSz ≠ 0) {writes : List FileWrite} :
    transferLocalData sizes env args = some (.ok (Rc.success,writes)) ↔
      env.openErr = Rc.success ∧ copyExtents sizes env args = some (Rc.success,writes) := by
  unfold transferLocalData
  rw [if_neg hpos]
  by_cases hopen : env.openErr = Rc.success
  · simp [hopen]
  · simp [hopen]

theorem copyExtents_none_ne_success {dataSz : ℕ} (writes : List FileWrite) :
    copyExtents sizes env ⟨none,dataSz⟩ ≠ some (Rc.success,writes) := by
  unfold copyExtents
  split
  · simp [Rc.enomem,Rc.success]
  · cases copyBufferSize sizes ⟨none,dataSz⟩ with
    | none => simp
    | some bufSz =>
      split
      · simp [Rc.enomem,Rc.success]
      · simp

theorem transferLocalData_localArgs (sizes : Sizes) (env : ThreadEnv) (own : List Extent)
    (allocated : Bool) (writes : List FileWrite) :
    transferLocalData sizes env (localArgs own allocated).2 = some (.ok (Rc.success,writes)) ↔
      Succeeds sizes env allocated own writes := by
  unfold Succeeds
  by_cases hown : own = []
  · have hnil : transferLocalData sizes env (localArgs own allocated).2 =
        some (.ok (Rc.success,[])) := by rw [hown]; rfl
    rw [hnil]
    constructor
    · intro h
      cases h
      exact .inl ⟨hown,rfl⟩
    · rintro (⟨-,rfl⟩ | ⟨hne,-⟩)
      · rfl
      · exact absurd hown hne
  · have hsum : (own.map Range.length).sum ≠ 0 := fun h => hown (sum_length_eq_zero h)
    have hempty : own.isEmpty = false := by rwa [isEmpty_eq_false_iff]
    simp only [hown,false_and,false_or,ne_eq,not_false_eq_true,true_and]
    cases allocated with
    | true =>
      have hargs : (localArgs own true).2 = ⟨some own,(own.map Range.length).sum⟩ := by
        simp [localArgs,hempty]
      rw [hargs,transferLocalData_of_pos _ _ hsum,copyExtents_eq_success hown]
      simp
    | false =>
      have hargs : (localArgs own false).2 = ⟨none,(own.map Range.length).sum⟩ := by
        simp [localArgs,hempty]
      rw [hargs,transferLocalData_of_pos _ _ hsum]
      exact iff_of_false (fun h => copyExtents_none_ne_success _ h.2) nofun

end Status
end UnifyFS.ServerTransfer
