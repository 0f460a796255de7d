import UnifyFS.ListUpdates
import UnifyFS.TransferStatus

/-!
# Replies to truncate and unlink broadcasts

A server that gets a truncate or unlink broadcast forwards it to its children, does the operation
itself, waits for the replies of the children and then sends one value to its parent: the last
error of a child if there is one, and its own result otherwise. A reply that gets lost is an error
of the collective, which is logged, but it does not change that value.

The servers form any tree. What the calls give on each server is an argument, and so is what
becomes of each reply. An error of the handler is sent at once. If the last step of the broadcast
cannot be started, nothing is sent at all.
-/
namespace UnifyFS.BroadcastReplies
open Collective ListUpdates TransferStatus List

/-- The outcomes of the calls on one server, and of those at its parent that are about it. -/
structure Outcomes where
  rank : ℤ
  /-- at the parent: `forward_child_request` -/
  forwardRc : Rc
  allocated : Bool
  inputTaken : Bool
  collectiveCreated : Bool
  /-- `sm_submit_service_request` -/
  submitRc : Rc
  /-- `unifyfs_inode_truncate` -/
  inodeTruncate : Rc
  /-- `unifyfs_inode_unlink` -/
  inodeUnlink : Rc
  /-- `invoke_bcast_progress_rpc` -/
  progressed : Bool
  /-- at the parent: what becomes of the reply -/
  delivery : Delivery

/-- A server with its children, in the order in which their requests complete. -/
inductive BcastServer where
  | mk (env : Outcomes) (children : List BcastServer)

def BcastServer.env : BcastServer → Outcomes
  | .mk env _ => env

inductive Operation where
  | truncate | unlink
  deriving DecidableEq, Repr

/-- The part that `process_truncate_bcast_rpc` and `process_unlink_bcast_rpc` share: it is ok if
the inode does not exist at a server other than the owner, which is the root. -/
def localRetval (root rank : ℤ) (ret : Rc) : Rc :=
  if ret ≠ Rc.success then
    if ret = Rc.enoent ∧ ¬ root = rank then Rc.success else ret
  else ret

def processTruncateBcastRpc (root : ℤ) (env : Outcomes) : Rc :=
  localRetval root env.rank env.inodeTruncate

def processUnlinkBcastRpc (root : ℤ) (env : Outcomes) : Rc :=
  localRetval root env.rank env.inodeUnlink

def Operation.process : Operation → ℤ → Outcomes → Rc
  | .truncate => processTruncateBcastRpc
  | .unlink => processUnlinkBcastRpc

/-- `collective_forward`: the last error if there is one. -/
def collectiveForward (children : List BcastServer) : Rc :=
  children.foldl (fun ret c => if c.env.forwardRc ≠ Rc.success then c.env.forwardRc else ret)
    Rc.success

/-- The result of `truncate_bcast_rpc` and of `unlink_bcast_rpc`, which do the same. -/
def bcastRpc (env : Outcomes) (children : List BcastServer) : Rc :=
  if ¬ env.allocated then Rc.enomem
  else if ¬ env.inputTaken then Rc.errorMargo
  else if ¬ env.collectiveCreated then Rc.enomem
  else
    let ret := collectiveForward children
    if ret = Rc.success then env.submitRc else ret

/-- What the wait for a child ends with. For a child that never replies the wait would block; here
it is an error of the wait. -/
def arrival : Delivery → Option Rc → Arrival
  | .delivered, some ret => .reply ret
  | .undecoded rc, some _ => .undecoded rc
  | _, _ => .waitError

section Reply
variable (op : Operation) (root : ℤ)

mutual

/-- The value that a server other than the root sends to its parent. -/
def reply : BcastServer → Option Rc
  | .mk env children =>
    if bcastRpc env children ≠ Rc.success then some (bcastRpc env children)
    else if env.progressed then
      (collectiveFinish (setLocalRetval (some Rc.success) (op.process root env)) true
        (arrivals children)).2
    else none

def arrivals : List BcastServer → List Arrival
  | [] => []
  | c :: children => arrival c.env.delivery (reply c) :: arrivals children

end

/-- The operation has succeeded on a server. A server other than the owner may have nothing to
do. -/
def Succeeded (env : Outcomes) : Prop :=
  let ret := match op with
    | .truncate => env.inodeTruncate
    | .unlink => env.inodeUnlink
  ret = Rc.success ∨ ret = Rc.enoent ∧ root ≠ env.rank

/-- A reply is sent, and the parent takes it. -/
def Received (c : BcastServer) : Prop :=
  ∃ ret, arrival c.env.delivery (reply op root c) = .reply ret

mutual

/-- A server knows that the operation has succeeded in its subtree: on itself, and it has got the
replies of its children, who know it for theirs. -/
def Known : BcastServer → Prop
  | .mk env children => Succeeded op root env ∧ KnownAll children

def KnownAll : List BcastServer → Prop
  | [] => True
  | c :: children => (Received op root c ∧ Known c) ∧ KnownAll children

end

mutual

/-- No reply in the subtree of a server is lost. -/
def NoneLost : BcastServer → Prop
  | .mk _ children => NoneLostOf children

def NoneLostOf : List BcastServer → Prop
  | [] => True
  | c :: children => (Received op root c ∧ NoneLost c) ∧ NoneLostOf children

end

end Reply

section Results
variable {op : Operation} {root : ℤ}

theorem localRetval_eq_success {rank : ℤ} {ret : Rc} : localRetval root rank ret = Rc.success ↔
    ret = Rc.success ∨ ret = Rc.enoent ∧ root ≠ rank := by
  unfold localRetval
  split_ifs with hret hnoent
  · exact iff_of_true rfl (.inr hnoent)
  · exact iff_of_false hret (not_or.mpr ⟨hret,hnoent⟩)
  · exact iff_of_true (not_not.mp hret) (.inl (not_not.mp hret))

theorem process_eq_success {env : Outcomes} :
    op.process root env = Rc.success ↔ Succeeded op root env := by
  cases op with
  | truncate => exact localRetval_eq_success
  | unlink => exact localRetval_eq_success

theorem reply_success {env : Outcomes} {children : List BcastServer}
    (h : reply op root (.mk env children) = some Rc.success) :
    (waitForChildren Rc.success (some (op.process root env)) (arrivals op root children)).2 =
      some Rc.success := by
  rw [reply] at h
  split_ifs at h with hrpc hprogress
  · exact absurd (Option.some.inj h) hrpc
  · exact h

theorem arrival_eq_reply {delivery : Delivery} {sent : Option Rc} {ret : Rc}
    (h : arrival delivery sent = .reply ret) : sent = some ret := by
  cases delivery with
  | delivered =>
    cases sent with
    | none => cases h
    | some ret' => exact congrArg some (Arrival.reply.inj h)
  | undecoded rc =>
    cases sent with
    | none => cases h
    | some ret' => cases h
  | lost => cases h

theorem arrivals_eq {cs : List BcastServer} (h : NoneLostOf op root cs) :
    ∃ rets : List Rc, arrivals op root cs = rets.map .reply ∧
      List.Forall₂ (fun ret c => reply op root c = some ret) rets cs := by
  induction cs with
  | nil => exact ⟨[],by rw [arrivals,map_nil],.nil⟩
  | cons c cs ih =>
    obtain ⟨⟨⟨ret,hret⟩,-⟩,hcs⟩ := h
    obtain ⟨rets,hrets,hforall⟩ := ih hcs
    exact ⟨ret :: rets,by rw [arrivals,hret,hrets,map_cons],.cons (arrival_eq_reply hret) hforall⟩

mutual

theorem noneLost_of_known : ∀ {s : BcastServer}, Known op root s → NoneLost op root s
  | .mk _ children, h => by
      rw [Known] at h
      rw [NoneLost]
      exact noneLostOf_of_known h.2

theorem noneLostOf_of_known : ∀ {cs : List BcastServer}, KnownAll op root cs → NoneLostOf op root cs
  | [], _ => by rw [NoneLostOf]; trivial
  | c :: cs, h => by
      rw [KnownAll] at h
      rw [NoneLostOf]
      exact ⟨⟨h.1.1,noneLost_of_known h.1.2⟩,noneLostOf_of_known h.2⟩

end

mutual

theorem known_of_reply : ∀ {s : BcastServer}, NoneLost op root s →
    reply op root s = some Rc.success → Known op root s
  | .mk env children, hlost, h => by
      rw [NoneLost] at hlost
      obtain ⟨rets,hrets,hforall⟩ := arrivals_eq hlost
      have hwait := reply_success h
      rw [hrets] at hwait
      obtain ⟨hlocal,hall⟩ := waitForChildren_success hwait
      rw [Known]
      refine ⟨process_eq_success.mp hlocal,knownAll_of_replies hlost fun c hc => ?_⟩
      obtain ⟨ret,hret,hreply⟩ := exists_of_mem_right hforall hc
      rw [hreply,hall ret hret]

theorem knownAll_of_replies : ∀ {cs : List BcastServer}, NoneLostOf op root cs →
    (∀ c ∈ cs, reply op root c = some Rc.success) → KnownAll op root cs
  | [], _, _ => by rw [KnownAll]; trivial
  | c :: cs, hlost, h => by
      rw [NoneLostOf] at hlost
      rw [List.forall_mem_cons] at h
      rw [KnownAll]
      exact ⟨⟨hlost.1.1,known_of_reply hlost.1.2 h.1⟩,knownAll_of_replies hlost.2 h.2⟩

end

/-- A success that a server sends is known to be one for its subtree if and only if no reply there
is lost. -/
theorem reply_success_known_iff {s : BcastServer} (h : reply op root s = some Rc.success) :
    Known op root s ↔ NoneLost op root s :=
  ⟨noneLost_of_known,fun hlost => known_of_reply hlost h⟩

end Results

def healthy (rank : ℤ) : Outcomes where
  rank := rank
  forwardRc := Rc.success
  allocated := true
  inputTaken := true
  collectiveCreated := true
  submitRc := Rc.success
  inodeTruncate := Rc.success
  inodeUnlink := Rc.success
  progressed := true
  delivery := .delivered

/-- The file cannot be truncated on server 2, and its reply cannot be decoded. -/
def failingChild : Outcomes :=
  { healthy 2 with inodeTruncate := Rc.einval, delivery := .undecoded Rc.errorMargo }

/-- Server 1 tells server 0 that all is well. -/
theorem reply_lost :
    reply .truncate 0 (.mk failingChild []) = some Rc.einval ∧
      reply .truncate 0 (.mk (healthy 1) [.mk failingChild []]) = some Rc.success ∧
      ¬ Known .truncate 0 (.mk (healthy 1) [.mk failingChild []]) := by
  refine ⟨by decide,by decide,fun h => ?_⟩
  obtain ⟨-,⟨-,hchild,-⟩,-⟩ := h
  rcases hchild with hret | ⟨hret,-⟩
  · cases hret
  · cases hret

def healthyTree : BcastServer :=
  .mk (healthy 1) [.mk (healthy 2) [],.mk (healthy 3) [.mk (healthy 4) []]]

theorem reply_healthy :
    reply .unlink 0 healthyTree = some Rc.success ∧ Known .unlink 0 healthyTree := by
  have hreply : reply .unlink 0 healthyTree = some Rc.success := by decide
  exact ⟨hreply,(reply_success_known_iff hreply).mpr ⟨⟨⟨_,rfl⟩,trivial⟩,
    ⟨⟨_,rfl⟩,⟨⟨_,rfl⟩,trivial⟩,trivial⟩,trivial⟩⟩

end UnifyFS.BroadcastReplies
