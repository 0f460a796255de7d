import UnifyFS.BroadcastTree
import UnifyFS.ServerTransfer

/-!
# The status that a client gets for a file transfer

A client's own server is the root of a broadcast that asks every server to transfer its local
data. Each server forwards the request, starts a thread for its local part, and replies to its
parent when the thread is done and the children have replied. The root has no output, so the
replies of the children end in the result of `collective_finish`, which is only logged, and the
client gets the status of the thread of its own server. A lookup of the extents that fails is
logged as well, and then there is nothing to transfer.

The ranks, the tree, and what the operations give on every server are arguments, and so are the
order in which the requests to the children complete and what becomes of their replies.
-/
namespace UnifyFS.TransferStatus
open BroadcastTree Collective ExtentTree ServerTransfer

/-- What becomes of the reply of a child. -/
inductive Delivery where
  | delivered
  | undecoded (rc : Rc)
  | lost
  deriving DecidableEq, Repr

/-- The outcomes of the operations on one server. -/
structure ServerEnv where
  /-- the allocations and the input of the handler, and `collective_create` -/
  createRc : Rc
  forwardRc : ℤ → Rc
  /-- `sm_submit_service_request` -/
  submitRc : Rc
  argsAllocated : Bool
  /-- `unifyfs_inode_get_extents` -/
  found : Except Rc (List Extent)
  extentsAllocated : Bool
  /-- `sm_submit_transfer_request` -/
  transferRc : Rc
  spawned : Bool
  /-- `invoke_bcast_progress_rpc` starts a thread that ends the collective -/
  progressed : Bool
  thread : ThreadEnv
  /-- the children in the order in which their requests complete -/
  order : List ℤ
  delivery : ℤ → Delivery

structure System where
  ranks : ℕ
  degree : ℤ
  root : ℤ
  sizes : Sizes
  env : ℤ → ServerEnv

variable (sys : System)

def children (r : ℤ) : List ℤ := forwardRanks sys.ranks sys.root sys.degree r

def collectiveForward (r : ℤ) : Rc :=
  (children sys r).foldl
    (fun ret c => if (sys.env r).forwardRc c ≠ Rc.success then (sys.env r).forwardRc c else ret)
    Rc.success

/-- `sm_transfer` for local data: an error, or the arguments of a thread. -/
def smTransfer (r : ℤ) : Except Rc ThreadArgs :=
  if (sys.env r).argsAllocated = false then .error Rc.enomem
  else if (sys.env r).transferRc ≠ Rc.success then .error (sys.env r).transferRc
  else .ok (createLocalTransfers r (sys.env r).found (sys.env r).extentsAllocated).2

def arrivals (replyOf : ℤ → Option Rc) (r : ℤ) : List Arrival :=
  (sys.env r).order.map fun c =>
    match (sys.env r).delivery c, replyOf c with
    | .delivered, some ret => .reply ret
    | .undecoded rc, some _ => .undecoded rc
    | _, _ => .waitError

def runThread (isRoot : Bool) (replyOf : ℤ → Option Rc) (r : ℤ) : Option ThreadResult :=
  match smTransfer sys r with
  | .error _ => none
  | .ok args =>
    if (sys.env r).spawned then
      transferHelperThread sys.sizes (sys.env r).thread args isRoot (arrivals sys replyOf r)
    else none

/-- `transfer_bcast_rpc` and `process_transfer_bcast_rpc`: what a server replies. -/
def serverReply (replyOf : ℤ → Option Rc) (r : ℤ) : Option Rc :=
  if (sys.env r).createRc ≠ Rc.success then some (sys.env r).createRc
  else if collectiveForward sys r ≠ Rc.success then some (collectiveForward sys r)
  else if (sys.env r).submitRc ≠ Rc.success then some (sys.env r).submitRc
  else
    match smTransfer sys r with
    | .error rc =>
      if (sys.env r).progressed then
        (collectiveFinish (setLocalRetval (some Rc.success) rc) true (arrivals sys replyOf r)).2
      else none
    | .ok _ => (runThread sys false replyOf r).bind fun res => res.finished.bind Prod.snd

/-- The replies of the servers within a number of levels. -/
def reply : ℕ → ℤ → Option Rc
  | 0, _ => none
  | levels + 1, r => serverReply sys (reply levels) r

def rootThread : Option ThreadResult :=
  if (sys.env sys.root).createRc ≠ Rc.success then none
  else if collectiveForward sys sys.root ≠ Rc.success then none
  else if (sys.env sys.root).submitRc ≠ Rc.success then none
  else runThread sys true (reply sys sys.ranks) sys.root

/-- The status in the message of `complete_local_transfers` to the client, if one is sent. -/
def completion : Option Rc :=
  (rootThread sys).bind fun res => if res.submitted then some res.status else none

inductive Reached : ℤ → Prop
  | root : Reached sys.root
  | child {p c : ℤ} : Reached p → (sys.env p).createRc = Rc.success → c ∈ children sys p →
      (sys.env p).forwardRc c = Rc.success → Reached c

structure Started (r : ℤ) : Prop where
  created : (sys.env r).createRc = Rc.success
  forwarded : collectiveForward sys r = Rc.success
  submitted : (sys.env r).submitRc = Rc.success
  args : (sys.env r).argsAllocated = true
  transfer : (sys.env r).transferRc = Rc.success
  spawned : (sys.env r).spawned = true

/-- A server that does not know the file has nothing to transfer. -/
def LookedUp (r : ℤ) : Prop := ∀ rc, (sys.env r).found = .error rc → rc = Rc.enoent

/-- The local part of a server has finished without an error: the request came there, the
extents were found, and the thread has ended with success. -/
def Finished (r : ℤ) : Prop :=
  Reached sys r ∧ Started sys r ∧ LookedUp sys r ∧ ∃ args writes,
    smTransfer sys r = .ok args ∧
    transferLocalData sys.sizes (sys.env r).thread args = some (.ok (Rc.success,writes))

/-- Every operation on the extents that a server has found succeeds. -/
def CopiesAll (r : ℤ) : Prop :=
  ∀ exts, (sys.env r).found = .ok exts → ∃ writes,
    Succeeds sys.sizes (sys.env r).thread (sys.env r).extentsAllocated (ownExtents r exts) writes

structure FaultFree (r : ℤ) : Prop where
  reached : Reached sys r
  started : Started sys r
  lookedUp : LookedUp sys r
  copies : CopiesAll sys r

variable {sys}

theorem smTransfer_eq_ok {r : ℤ} {args : ThreadArgs} : smTransfer sys r = .ok args ↔
    (sys.env r).argsAllocated = true ∧ (sys.env r).transferRc = Rc.success ∧
      args = (createLocalTransfers r (sys.env r).found (sys.env r).extentsAllocated).2 := by
  unfold smTransfer
  split
  · next hargs => simp [hargs]
  · next hargs =>
    split
    · next hrc => simp [hrc]
    · next hrc => simp [hargs,not_not.mp hrc,eq_comm]

theorem transferLocalData_iff_copiesAll (sys : System) (r : ℤ) :
    (∃ writes, transferLocalData sys.sizes (sys.env r).thread
      (createLocalTransfers r (sys.env r).found (sys.env r).extentsAllocated).2 =
        some (.ok (Rc.success,writes))) ↔ CopiesAll sys r := by
  unfold CopiesAll
  cases hfound : (sys.env r).found with
  | error rc => exact iff_of_true ⟨[],rfl⟩ nofun
  | ok exts =>
    simp only [createLocalTransfers,transferLocalData_localArgs]
    exact ⟨fun h exts' heq => by cases heq; exact h,fun h => h exts rfl⟩

theorem finished_iff_faultFree {r : ℤ} : Finished sys r ↔ FaultFree sys r := by
  constructor
  · rintro ⟨hreached,hstarted,hlookedUp,args,writes,hargs,hdata⟩
    obtain ⟨-,-,rfl⟩ := smTransfer_eq_ok.mp hargs
    exact ⟨hreached,hstarted,hlookedUp,(transferLocalData_iff_copiesAll sys r).mp ⟨writes,hdata⟩⟩
  · rintro ⟨hreached,hstarted,hlookedUp,hcopies⟩
    obtain ⟨writes,hdata⟩ := (transferLocalData_iff_copiesAll sys r).mpr hcopies
    exact ⟨hreached,hstarted,hlookedUp,_,writes,
      smTransfer_eq_ok.mpr ⟨hstarted.args,hstarted.transfer,rfl⟩,hdata⟩

theorem thread_reports_success {sizes : Sizes} {env : ThreadEnv} {args : ThreadArgs}
    {isRoot : Bool} {arrived : List Arrival} :
    (transferHelperThread sizes env args isRoot arrived).bind
        (fun res => if res.submitted then some res.status else none) = some Rc.success ↔
      ∃ writes, transferLocalData sizes env args = some (.ok (Rc.success,writes)) := by
  unfold transferHelperThread
  cases transferLocalData sizes env args with
  | none => simp
  | some out =>
    cases out with
    | error err => simp
    | ok r => simp [Prod.ext_iff]

theorem completion_eq_success_iff :
    completion sys = some Rc.success ↔ Started sys sys.root ∧ CopiesAll sys sys.root := by
  constructor
  · intro h
    unfold completion rootThread at h
    split at h
    · cases h
    · next hcreated =>
      split at h
      · cases h
      · next hforwarded =>
        split at h
        · cases h
        · next hsubmitted =>
          unfold runThread at h
          split at h
          · cases h
          · next args hargs =>
            split at h
            · next hspawned =>
              obtain ⟨hallocated,htransfer,rfl⟩ := smTransfer_eq_ok.mp hargs
              exact ⟨⟨not_not.mp hcreated,not_not.mp hforwarded,not_not.mp hsubmitted,
                hallocated,htransfer,hspawned⟩,
                (transferLocalData_iff_copiesAll sys sys.root).mp (thread_reports_success.mp h)⟩
            · cases h
  · rintro ⟨hstarted,hcopies⟩
    unfold completion rootThread runThread
    rw [if_neg (not_not.mpr hstarted.created),if_neg (not_not.mpr hstarted.forwarded),
      if_neg (not_not.mpr hstarted.submitted),
      smTransfer_eq_ok.mpr ⟨hstarted.args,hstarted.transfer,rfl⟩]
    dsimp only
    rw [if_pos hstarted.spawned]
    exact thread_reports_success.mpr ((transferLocalData_iff_copiesAll sys sys.root).mpr hcopies)

/-- A completion with status zero says that every server has finished its local part without an
error, if and only if this holds of the other servers, and the own lookup does not fail, whenever
no other operation on the own server fails. -/
theorem completion_covers_all_iff (sys : System)
    (hroot : 0 ≤ sys.root ∧ sys.root < sys.ranks) :
    (completion sys = some Rc.success →
      ∀ r : ℤ, 0 ≤ r → r < sys.ranks → Finished sys r) ↔
    (Started sys sys.root → CopiesAll sys sys.root → LookedUp sys sys.root ∧
      ∀ r : ℤ, 0 ≤ r → r < sys.ranks → r ≠ sys.root → FaultFree sys r) := by
  rw [completion_eq_success_iff]
  constructor
  · intro h hstarted hcopies
    have hall := h ⟨hstarted,hcopies⟩
    refine ⟨(hall sys.root hroot.1 hroot.2).2.2.1,fun r hr₀ hr₁ _ => ?_⟩
    exact finished_iff_faultFree.mp (hall r hr₀ hr₁)
  · rintro h ⟨hstarted,hcopies⟩ r hr₀ hr₁
    obtain ⟨hlookedUp,hothers⟩ := h hstarted hcopies
    rw [finished_iff_faultFree]
    by_cases heq : r = sys.root
    · rw [heq]
      exact ⟨.root,hstarted,hlookedUp,hcopies⟩
    · exact hothers r hr₀ hr₁ heq

def goodThread : ThreadEnv := ⟨Rc.success,true,true,fun _ => (Rc.success,fun _ => 7),
  fun _ => [.wrote 1]⟩

def oneByte (rank : ℤ) : Extent := ⟨rank.toNat,rank.toNat,⟨0,rank,1,1⟩⟩

def twoServers (remote : ThreadEnv) : System where
  ranks := 2
  degree := 2
  root := 0
  sizes := ⟨16,16⟩
  env r := ⟨Rc.success,fun _ => Rc.success,Rc.success,true,.ok [oneByte 0,oneByte 1],true,
    Rc.success,true,true,if r = 0 then goodThread else remote,if r = 0 then [1] else [],
    fun _ => .delivered⟩

theorem completion_covers_both :
    completion (twoServers goodThread) = some Rc.success ∧
      ∀ r : ℤ, 0 ≤ r → r < 2 → Finished (twoServers goodThread) r := by
  refine ⟨by decide,?_⟩
  refine (completion_covers_all_iff (twoServers goodThread) (by decide)).mpr ?_ (by decide)
  intro hstarted hcopies
  refine ⟨nofun,fun r hr₀ hr₁ hne => ?_⟩
  obtain rfl : r = 1 := by
    change r < 2 at hr₁
    change r ≠ 0 at hne
    omega
  refine ⟨.child .root rfl (by decide) rfl,⟨rfl,by decide,rfl,rfl,rfl,rfl⟩,nofun,?_⟩
  rintro exts ⟨⟩
  refine ⟨[⟨1,[7]⟩],.inr ⟨by decide,rfl,rfl,rfl,rfl,?_⟩⟩
  exact ⟨[⟨1,[7]⟩],[],rfl,by decide,rfl,rfl⟩

def fullDestination : ThreadEnv :=
  { goodThread with pwrites := fun _ => [.error Rc.enospc (by decide)] }

/-- The write of the other server fails for lack of space. This is what `collective_finish`
returns at the root, and the client is told that the transfer has succeeded. -/
theorem completion_hides_remote_error :
    completion (twoServers fullDestination) = some Rc.success ∧
    ¬ Finished (twoServers fullDestination) 1 ∧
    reply (twoServers fullDestination) 1 1 = some Rc.enospc ∧
    (rootThread (twoServers fullDestination)).bind ThreadResult.finished =
      some (Rc.enospc,none) := by
  refine ⟨by decide,?_,by decide,by decide⟩
  rintro ⟨-,-,-,args,writes,hargs,hdata⟩
  cases hargs
  cases hdata

end UnifyFS.TransferStatus
