import UnifyFS.Arraylist
import UnifyFS.MachineWords
import UnifyFS.ReturnCodes

/-!
# Transfer requests of a client

The request state machine behind `unifyfs_dispatch_transfer`,
`unifyfs_cancel_transfer` and `unifyfs_wait_transfer`. The application owns the
array of request structures; the client's list of active transfers refers into
that array by index.

Transfer ids are kept as the running numbers that `transfer_id_generator` has
counted to. The code sees such a number as an `unsigned int`, through
`Client.idToListIndex`. The submit loop is cut at its RPC, because completion
messages may arrive before the RPC returns, and the wait loop is cut at the
single requests it polls. Transfer times, the parallel flag and log output are
left out.
-/
namespace UnifyFS.ClientTransfer
open MachineWords

abbrev Path := List Char

inductive TransferMode where
  | invalid | copy | move
  deriving DecidableEq, Repr

structure TransferResult where
  error : Rc
  rc : Rc
  fileSizeBytes : ℕ
  deriving DecidableEq, Repr

structure TransferRequest where
  srcPath : Path
  dstPath : Path
  mode : TransferMode
  state : ReqState
  result : TransferResult
  reqid : ℕ
  deriving DecidableEq, Repr

/-- `client_transfer_status`; the request is named by its index. -/
structure TransferStatus where
  req : ℕ
  srcInUnify : Bool
  complete : Bool
  deriving DecidableEq, Repr

/-- The mount point is a leading part of the path and ends at a separator. -/
def isUnifyfsPath (mount filepath : Path) : Bool :=
  List.isPrefixOf mount filepath && (filepath[mount.length]?).all (· == '/')

structure Client where
  mountPoint : Path
  activeTransfers : Arraylist TransferStatus
  transferIdGenerator : ℕ
  deriving DecidableEq, Repr

def Client.idToListIndex (c : Client) (id : ℕ) : ℕ :=
  id % uintRange % c.activeTransfers.capacity

/-- The id search of `client_create_transfer`: the id found and the number that
the generator has reached. -/
def Client.findTransferId (c : Client) : ℕ → ℕ → Option (ℕ × ℕ) :=
  c.activeTransfers.findFree c.idToListIndex (· + 1)

/-- What the client and the application share, with a record of the source files
removed (by the id of the request) and of the completion messages received. -/
structure TransferState where
  client : Client
  reqs : List TransferRequest
  /-- Requests whose transfer RPC has been sent and has not returned. -/
  calling : List ℕ
  removed : List ℕ
  completions : List (ℕ × Rc)
  deriving DecidableEq, Repr

namespace TransferState

def start (mount : Path) (capacity : ℕ) (reqs : List TransferRequest) : TransferState :=
  ⟨⟨mount,.create capacity,0⟩,reqs,[],[],[]⟩

def setReq (s : TransferState) (i : ℕ) (f : TransferRequest → TransferRequest) : TransferState :=
  { s with reqs := s.reqs.modify i f }

end TransferState

/-- The error exit that `client_submit_transfers` shares between its failures. -/
def TransferRequest.fail (rc : Rc) (r : TransferRequest) : TransferRequest :=
  { r with result := ⟨rc,Rc.failure,0⟩, state := .completed }

def TransferRequest.assign (id : ℕ) (r : TransferRequest) : TransferRequest :=
  { r with reqid := id }

def TransferRequest.start (r : TransferRequest) : TransferRequest :=
  { r with state := .inProgress }

def TransferRequest.complete (error : Rc) (size : ℕ) (r : TransferRequest) : TransferRequest :=
  { r with result := { r.result with error := error, fileSizeBytes := size }, state := .completed }

def TransferRequest.cancel (r : TransferRequest) : TransferRequest :=
  if r.state = .completed then r else { r with state := .canceled }

/-- `client_create_transfer`. The search has fuel for two rounds of the list. -/
def clientCreateTransfer (s : TransferState) (i : ℕ) (srcInUnify allocated : Bool) :
    Option (Rc × TransferState) :=
  let active := s.client.activeTransfers
  if active.size = active.capacity then some (Rc.failure,s)
  else (s.client.findTransferId (2 * active.capacity) s.client.transferIdGenerator).map
    fun (id,next) =>
      if allocated then
        (Rc.success,
          { s.setReq i (.assign id) with
            client := { s.client with
              activeTransfers := active.insert (s.client.idToListIndex id) ⟨i,srcInUnify,false⟩
              transferIdGenerator := next } })
      else (Rc.enomem,{ s with client := { s.client with transferIdGenerator := next } })

/-- `client_get_transfer`. Only the list index of the id is looked at. -/
def clientGetTransfer (c : Client) (id : ℕ) : Option TransferStatus :=
  c.activeTransfers.get (c.idToListIndex id)

def clientCheckTransferComplete (t : TransferStatus) (r : TransferRequest) : Bool :=
  match r.state with
  | .inProgress => t.complete
  | .canceled | .completed => true
  | .invalid => false

/-- The condition under which `client_cleanup_transfer` calls `unifyfs_remove`. -/
def removesSource (t : TransferStatus) (r : TransferRequest) : Bool :=
  decide (r.state = .completed ∧ r.mode = .move) && t.srcInUnify

/-- `client_cleanup_transfer` for a status found at list index `slot`. The list
item is dropped at the index of the request's own id; the code reports a failure
when this is another one. -/
def clientCleanupTransfer (s : TransferState) (slot : ℕ) (t : TransferStatus)
    (r : TransferRequest) : Rc × TransferState :=
  let index := s.client.idToListIndex r.reqid
  (if index = slot then Rc.success else Rc.failure,
    { s with
      client := { s.client with activeTransfers := s.client.activeTransfers.remove index }
      removed := if removesSource t r then r.reqid :: s.removed else s.removed })

/-- `client_complete_transfer`, called by the handler of a completion message. -/
def clientCompleteTransfer (s : TransferState) (id : ℕ) (error : Rc) (size : ℕ) :
    Rc × TransferState :=
  match clientGetTransfer s.client id with
  | none => (Rc.einval,s)
  | some t =>
    (Rc.success,
      { s.setReq t.req (.complete error size) with
        client := { s.client with
          activeTransfers := s.client.activeTransfers.modify (s.client.idToListIndex id)
            fun t => { t with complete := true } } })

/-- One turn of the loop of `client_submit_transfers` up to its RPC. A request
that fails earlier is finished here. -/
def submitTransfer (s : TransferState) (i : ℕ) (r : TransferRequest) (allocated : Bool) :
    Option TransferState :=
  if r.mode = .invalid then some (s.setReq i (.fail Rc.einval))
  else
    let srcInUnify := isUnifyfsPath s.client.mountPoint r.srcPath
    let dstInUnify := isUnifyfsPath s.client.mountPoint r.dstPath
    if srcInUnify = dstInUnify then some (s.setReq i (.fail Rc.einval))
    else (clientCreateTransfer (s.setReq i .start) i srcInUnify allocated).map
      fun (rc,u) =>
        if rc ≠ Rc.success then u.setReq i (.fail rc)
        else if srcInUnify then { u with calling := i :: u.calling }
        else u.setReq i (.fail Rc.errorNyi)

/-- The rest of the turn, once `invoke_client_transfer_rpc` has returned. -/
def transferRpcDone (s : TransferState) (i : ℕ) (rc : Rc) : TransferState :=
  let u := { s with calling := s.calling.erase i }
  if rc ≠ Rc.success then u.setReq i (.fail rc) else u

/-- The body of the inner loop of `unifyfs_wait_transfer`. -/
def pollTransfer (s : TransferState) (r : TransferRequest) : TransferState :=
  match clientGetTransfer s.client r.reqid with
  | none => s
  | some t =>
    match s.reqs[t.req]? with
    | none => s
    | some q =>
      if clientCheckTransferComplete t q then
        (clientCleanupTransfer s (s.client.idToListIndex r.reqid) t q).2
      else s

end UnifyFS.ClientTransfer
