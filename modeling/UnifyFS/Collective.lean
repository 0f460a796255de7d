import UnifyFS.ReturnCodes

/-!
# Collecting the replies of a broadcast

Every server of a broadcast waits for the replies of its children and sends its own reply to
the parent. The output of a request is its return value, which the root does not have. Replies
complete in any order. A reply that cannot be decoded is an error of the collective, but leaves
the output as it is, and so does an error of `margo_wait_any`, after which no further reply is
taken. The requests are those whose reply is a return value and nothing else.
-/
namespace UnifyFS.Collective

/-- What `margo_wait_any` and `margo_get_output` give: a child's return value, a reply that
cannot be taken, or an error of the wait. -/
inductive Arrival where
  | reply (ret : Rc)
  | undecoded (rc : Rc)
  | waitError
  deriving DecidableEq, Repr

/-- `get_child_response`: the result and the output afterwards. -/
def getChildResponse (output : Option Rc) (childRet : Rc) : Rc × Option Rc :=
  (childRet,if childRet ≠ Rc.success then output.map fun _ => childRet else output)

def waitForChildren : Rc → Option Rc → List Arrival → Rc × Option Rc
  | ret, output, [] => (ret,output)
  | _, output, .waitError :: _ => (Rc.errorMargo,output)
  | ret, output, .undecoded rc :: rest =>
    waitForChildren (if rc ≠ Rc.success then rc else ret) output rest
  | ret, output, .reply childRet :: rest =>
    let r := getChildResponse output childRet
    waitForChildren (if r.1 ≠ Rc.success then r.1 else ret) r.2 rest

def setLocalRetval (output : Option Rc) (val : Rc) : Option Rc := output.map fun _ => val

/-- `collective_finish`: the result and what is sent to the parent. -/
def collectiveFinish (output : Option Rc) (hasParent : Bool) (arrivals : List Arrival) :
    Rc × Option Rc :=
  let r := waitForChildren Rc.success output arrivals
  (r.1,if hasParent then r.2 else none)

theorem getChildResponse_output (output childRet : Rc) :
    (getChildResponse (some output) childRet).2 =
      some (if childRet ≠ Rc.success then childRet else output) := by
  by_cases h : childRet = Rc.success
  · rw [getChildResponse,if_neg fun hne => hne h,if_neg fun hne => hne h]
  · rw [getChildResponse,if_pos h,if_pos h]
    rfl

theorem waitForChildren_success {ret output : Rc} {rets : List Rc}
    (h : (waitForChildren ret (some output) (rets.map .reply)).2 = some Rc.success) :
    output = Rc.success ∧ ∀ childRet ∈ rets, childRet = Rc.success := by
  induction rets generalizing ret output with
  | nil => exact ⟨Option.some.inj h,nofun⟩
  | cons childRet rets ih =>
    rw [List.map_cons,waitForChildren,getChildResponse_output] at h
    obtain ⟨houtput,hrets⟩ := ih h
    by_cases hchild : childRet = Rc.success
    · rw [if_neg fun hne => hne hchild] at houtput
      exact ⟨houtput,List.forall_mem_cons.mpr ⟨hchild,hrets⟩⟩
    · rw [if_pos hchild] at houtput
      exact absurd houtput hchild

end UnifyFS.Collective
