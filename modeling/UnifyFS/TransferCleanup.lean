import UnifyFS.ClientTransfer
import UnifyFS.GuardedRuns

/-!
# Removing the source of a moved file

Histories of submissions, RPC results, completion messages, cancellations and
polls in any order. A source file removed by the client is recorded under the
running number of its transfer, so it can be compared with the completion
messages that have arrived for that number.

`client_cleanup_transfer` looks at the request state only, and a request is
`COMPLETED` after a failure too. `failed_move_removes_source` gives two short
histories that lose the source file.
-/
namespace UnifyFS.TransferCleanup
open ClientTransfer GuardedRuns ListUpdates List Option

inductive TransferOp where
  | submit (i : ℕ) (allocated : Bool)
  | rpcDone (i : ℕ) (rc : Rc)
  | complete (id : ℕ) (error : Rc) (size : ℕ)
  | cancel (i : ℕ)
  | poll (i : ℕ)
  deriving DecidableEq, Repr

def transferStep (s : TransferState) : TransferOp → Option TransferState
  | .submit i allocated => (s.reqs[i]?).bind fun r => submitTransfer s i r allocated
  | .rpcDone i rc => if i ∈ s.calling then some (transferRpcDone s i rc) else none
  | .complete id error size =>
    some { (clientCompleteTransfer s id error size).2 with
      completions := (id,error) :: s.completions }
  | .cancel i => some (s.setReq i .cancel)
  | .poll i => (s.reqs[i]?).map (pollTransfer s)

/-- The status in the list slot of an id, with its request. -/
def slotOwner (s : TransferState) (id : ℕ) : Option (TransferStatus × TransferRequest) :=
  (clientGetTransfer s.client id).bind fun t => (s.reqs[t.req]?).map fun r => (t,r)

/-- A request in the list is not submitted again, the RPC of a move succeeds, and a completion
message that meets a move was sent for it and has error code zero. -/
def transferGuard (s : TransferState) : TransferOp → Bool
  | .submit i _ => s.client.activeTransfers.elems.all fun slot => slot.all fun t => t.req != i
  | .rpcDone i rc => (s.reqs[i]?).all fun r => r.mode != .move || rc == Rc.success
  | .complete id error _ => (slotOwner s id).all fun (_,r) =>
    r.mode != .move || r.reqid == id && error == Rc.success
  | _ => true

/-- Every source file removed so far belongs to a transfer that has completed with
error code zero. -/
def RemovedAfterSuccess (s : TransferState) : Prop :=
  ∀ id ∈ s.removed, (id,Rc.success) ∈ s.completions

instance (s : TransferState) : Decidable (RemovedAfterSuccess s) :=
  inferInstanceAs (Decidable (∀ id ∈ s.removed, _))

/-- A move in the list whose request stands as completed has been completed by a message of its
own with error code zero. -/
def Settled (s : TransferState) : Prop :=
  ∀ t, some t ∈ s.client.activeTransfers.elems → t.srcInUnify = true →
    ∀ r, s.reqs[t.req]? = some r → r.mode = .move → r.state = .completed →
      (r.reqid,Rc.success) ∈ s.completions

structure TransferInv (s : TransferState) : Prop where
  settled : Settled s
  removed : RemovedAfterSuccess s

section Steps
variable {s u : TransferState} {i : ℕ} {r : TransferRequest} {allocated : Bool} {rc : Rc}

theorem clientCreateTransfer_cases {b : Bool}
    (h : clientCreateTransfer s i b allocated = some (rc,u)) : (rc ≠ Rc.success ∧ ∃ next, u =
      { s with client := { s.client with transferIdGenerator := next } }) ∨
    (rc = Rc.success ∧ ∃ id next, u = { s.setReq i (.assign id) with
        client := { s.client with
          activeTransfers := s.client.activeTransfers.insert (s.client.idToListIndex id) ⟨i,b,false⟩
          transferIdGenerator := next } }) := by
  unfold clientCreateTransfer at h
  dsimp only at h
  split at h
  · cases h
    exact .inl ⟨by decide,s.client.transferIdGenerator,rfl⟩
  · obtain ⟨⟨id,next⟩,-,hid⟩ := map_eq_some_iff.mp h
    split at hid
    · cases hid
      exact .inr ⟨rfl,id,next,rfl⟩
    · cases hid
      exact .inl ⟨by decide,next,rfl⟩

variable (hs : TransferInv s)
include hs

theorem TransferInv.setReq {f : TransferRequest → TransferRequest}
    (hf : ∀ q, s.reqs[i]? = some q → (f q).mode = .move → (f q).state = .completed → f q = q) :
    TransferInv (s.setReq i f) := by
  constructor
  · intro t ht hsrc r hr hmode hstate
    cases of_getElem?_modify hr with
    | inl hold => exact hs.settled t ht hsrc r hold hmode hstate
    | inr hnew =>
      obtain ⟨hi,q,hq,rfl⟩ := hnew
      have hsame := hf q (hi ▸ hq) hmode hstate
      rw [hsame] at hmode hstate ⊢
      exact hs.settled t ht hsrc q hq hmode hstate
  · exact hs.removed

/-- A submission changes its own request and adds at most one status, which is the request's. -/
theorem TransferInv.submitted (hfree : transferGuard s (.submit i allocated) = true)
    (hreqs : ∀ j, j ≠ i → u.reqs[j]? = s.reqs[j]?)
    (hactive : ∀ t, some t ∈ u.client.activeTransfers.elems →
      some t ∈ s.client.activeTransfers.elems ∨ t.req = i ∧ (t.srcInUnify = true →
        ∀ r, u.reqs[i]? = some r → r.state ≠ .completed))
    (hremoved : u.removed = s.removed) (hcomp : u.completions = s.completions) :
    TransferInv u := by
  constructor
  · intro t ht hsrc r hr hmode hstate
    rcases hactive t ht with hold | ⟨rfl,hnew⟩
    · have hne : t.req ≠ i := by
        simp only [transferGuard,List.all_eq_true] at hfree
        simpa using hfree _ hold
      rw [hreqs _ hne] at hr
      rw [hcomp]
      exact hs.settled t hold hsrc r hr hmode hstate
    · exact absurd hstate (hnew hsrc r hr)
  · rw [RemovedAfterSuccess,hremoved,hcomp]
    exact hs.removed

theorem inv_submit (hfree : transferGuard s (.submit i allocated) = true)
    (h : submitTransfer s i r allocated = some u) : TransferInv u := by
  have hreqs : ∀ (l : List TransferRequest) f j, j ≠ i → (l.modify i f)[j]? = l[j]? := by
    intro l f j hj
    rw [getElem?_modify_ite,if_neg (Ne.symm hj)]
  unfold submitTransfer at h
  split at h
  · cases h
    exact hs.submitted hfree (hreqs _ _) (fun t ht => .inl ht) rfl rfl
  · dsimp only at h
    split at h
    · cases h
      exact hs.submitted hfree (hreqs _ _) (fun t ht => .inl ht) rfl rfl
    · obtain ⟨⟨rc,v⟩,hv,hu⟩ := map_eq_some_iff.mp h
      cases clientCreateTransfer_cases hv with
      | inl hfail =>
        obtain ⟨hrc,next,rfl⟩ := hfail
        rw [if_pos hrc] at hu
        cases hu
        refine hs.submitted hfree (fun j hj => ?_) (fun t ht => .inl ht) rfl rfl
        exact (hreqs _ _ j hj).trans (hreqs _ _ j hj)
      | inr hdone =>
        obtain ⟨rfl,id,next,rfl⟩ := hdone
        rw [if_neg (not_not.mpr rfl)] at hu
        split at hu
        · cases hu
          refine hs.submitted hfree (fun j hj => ?_) (fun t ht => ?_) rfl rfl
          · exact (hreqs _ _ j hj).trans (hreqs _ _ j hj)
          · refine (Arraylist.mem_insert ht).imp_right fun heq => ⟨congrArg (·.req) heq,?_⟩
            -- the request has just been started
            intro _ r hr
            change ((s.reqs.modify i .start).modify i (.assign id))[i]? = some r at hr
            rw [getElem?_modify_ite,if_pos rfl,getElem?_modify_ite,if_pos rfl] at hr
            obtain ⟨q,hq,rfl⟩ := map_eq_some_iff.mp hr
            obtain ⟨p,-,rfl⟩ := map_eq_some_iff.mp hq
            nofun
        · next hsrc =>
          cases hu
          refine hs.submitted hfree (fun j hj => ?_) (fun t ht => ?_) rfl rfl
          · exact (hreqs _ _ j hj).trans ((hreqs _ _ j hj).trans (hreqs _ _ j hj))
          · refine (Arraylist.mem_insert ht).imp_right fun heq => ⟨congrArg (·.req) heq,?_⟩
            intro htrue
            rw [heq] at htrue
            exact absurd htrue hsrc

theorem inv_rpcDone (hg : transferGuard s (.rpcDone i rc) = true) :
    TransferInv (transferRpcDone s i rc) := by
  have hcalled : TransferInv { s with calling := s.calling.erase i } := ⟨hs.settled,hs.removed⟩
  unfold transferRpcDone
  split
  · next hrc =>
    apply hcalled.setReq
    intro q hq hmode _
    have hq' : s.reqs[i]? = some q := hq
    have hmove : q.mode = .move := hmode
    simp [transferGuard,hq',hmove,hrc] at hg
  · exact hcalled

theorem inv_complete {id size : ℕ} {error : Rc}
    (hg : transferGuard s (.complete id error size) = true)
    (h : transferStep s (.complete id error size) = some u) : TransferInv u := by
  cases h
  unfold clientCompleteTransfer
  cases hget : clientGetTransfer s.client id with
  | none =>
    constructor
    · intro t ht hsrc r hr hmode hstate
      exact mem_cons_of_mem _ (hs.settled t ht hsrc r hr hmode hstate)
    · exact fun n hn => mem_cons_of_mem _ (hs.removed n hn)
  | some t =>
    refine ⟨?_,fun n hn => mem_cons_of_mem _ (hs.removed n hn)⟩
    intro t' ht' hsrc r hr hmode hstate
    cases of_getElem?_modify hr with
    | inl hold =>
      obtain ⟨y,hy,hreq⟩ := Arraylist.mem_modify ht'
      have hsame : t'.req = y.req ∧ t'.srcInUnify = y.srcInUnify := by
        rcases hreq with rfl | rfl
        · exact ⟨rfl,rfl⟩
        · exact ⟨rfl,rfl⟩
      rw [hsame.1] at hold
      rw [hsame.2] at hsrc
      exact mem_cons_of_mem _ (hs.settled y hy hsrc r hold hmode hstate)
    | inr hnew =>
      obtain ⟨hreq,q,hq,rfl⟩ := hnew
      rw [← hreq] at hq
      have hmove : q.mode = .move := hmode
      have hown : q.reqid = id ∧ error = Rc.success := by
        simpa [transferGuard,slotOwner,hget,hq,hmove] using hg
      change (q.reqid,Rc.success) ∈ (id,error) :: s.completions
      rw [hown.1,hown.2]
      exact mem_cons_self

theorem inv_cleanup {slot : ℕ} {t : TransferStatus} (ht : some t ∈ s.client.activeTransfers.elems)
    (hr : s.reqs[t.req]? = some r) : TransferInv (clientCleanupTransfer s slot t r).2 := by
  constructor
  · intro t' ht'
    exact hs.settled t' (Arraylist.mem_remove ht')
  · intro n hn
    change n ∈ (if removesSource t r then r.reqid :: s.removed else s.removed) at hn
    split at hn
    · next hremove =>
      cases mem_cons.mp hn with
      | inl heq =>
        simp only [removesSource,Bool.and_eq_true,decide_eq_true_eq] at hremove
        obtain ⟨⟨hdone,hmove⟩,hsrc⟩ := hremove
        rw [heq]
        exact hs.settled t ht hsrc r hr hmove hdone
      | inr hold => exact hs.removed n hold
    · exact hs.removed n hn

theorem inv_poll : TransferInv (pollTransfer s r) := by
  unfold pollTransfer
  cases hget : clientGetTransfer s.client r.reqid with
  | none => exact hs
  | some t =>
    dsimp only
    cases hq : s.reqs[t.req]? with
    | none => exact hs
    | some q =>
      dsimp only
      split
      · exact inv_cleanup hs (Arraylist.mem_of_get hget) hq
      · exact hs

theorem inv_step {e : TransferOp} (hg : transferGuard s e = true) (h : transferStep s e = some u) :
    TransferInv u := by
  cases e with
  | submit i allocated =>
    obtain ⟨r,-,hu⟩ := bind_eq_some_iff.mp h
    exact inv_submit hs hg hu
  | rpcDone i rc =>
    change (if i ∈ s.calling then some (transferRpcDone s i rc) else none) = some u at h
    split at h
    · cases h
      exact inv_rpcDone hs hg
    · cases h
  | complete id error size => exact inv_complete hs hg h
  | cancel i =>
    cases h
    apply hs.setReq
    intro q _ _ hstate
    unfold TransferRequest.cancel at hstate ⊢
    split at hstate
    · next hdone => exact if_pos hdone
    · cases hstate
  | poll i =>
    obtain ⟨r,-,rfl⟩ := map_eq_some_iff.mp h
    exact inv_poll hs

end Steps

theorem inv_start (mount : Path) (capacity : ℕ) (reqs : List TransferRequest) :
    TransferInv (.start mount capacity reqs) := by
  constructor
  · intro t ht
    exact absurd ht Arraylist.mem_create
  · intro id hid
    cases hid

/-- A client removes the source file of a move only after the transfer has
completed with error code zero, along every run whose steps meet the guard. -/
theorem source_removed_only_after_success {mount : Path} {capacity : ℕ}
    {reqs : List TransferRequest} {es : List TransferOp} {s : TransferState}
    (h : Run transferStep (fun s e => transferGuard s e = true) (.start mount capacity reqs) es s) :
    RemovedAfterSuccess s := by
  have hinv : TransferInv s := by
    apply h.invariant _ (inv_start mount capacity reqs)
    intro s e u hs hg hu
    exact inv_step hs hg hu
  exact hinv.removed

def moveOut : TransferRequest :=
  ⟨['/','u','/','a'],['/','b'],.move,.invalid,⟨0,0,0⟩,0⟩

/-- A move that succeeds, next to a copy that fails and a move that is cancelled. -/
def mixedHistory : List TransferOp :=
  [.submit 0 true,.rpcDone 0 Rc.success,.submit 1 true,.submit 2 true,.rpcDone 1 Rc.success,
    .rpcDone 2 Rc.success,.complete 1 Rc.eio 0,.poll 1,.complete 0 Rc.success 10,.poll 0,
    .cancel 2,.poll 2]

theorem source_removed_mixed_history :
    ∃ s, Run transferStep (fun s e => transferGuard s e = true)
        (.start ['/','u'] 4 [moveOut,{ moveOut with mode := .copy },moveOut]) mixedHistory s ∧
      s.removed = [0] ∧ RemovedAfterSuccess s := by
  have hrun : (exec transferStep transferGuard
      (.start ['/','u'] 4 [moveOut,{ moveOut with mode := .copy },moveOut]) mixedHistory).any
      (fun s => s.removed == [0]) = true := by
    decide +kernel
  obtain ⟨s,hs,hremoved⟩ := Run.exists_of_exec hrun
  exact ⟨s,hs,beq_iff_eq.mp hremoved,source_removed_only_after_success hs⟩

theorem exists_loss {es : List TransferOp}
    (h : (exec transferStep (fun _ _ => true) (.start ['/','u'] 4 [moveOut]) es).any
      (fun s => decide (s.removed = [0] ∧ ¬ RemovedAfterSuccess s)) = true) :
    ∃ s, Run transferStep (fun _ _ => True) (.start ['/','u'] 4 [moveOut]) es s ∧
      s.removed = [0] ∧ ¬ RemovedAfterSuccess s := by
  obtain ⟨s,hs,hlost⟩ := Run.exists_of_exec h
  exact ⟨s,hs.weaken fun _ _ _ => trivial,of_decide_eq_true hlost⟩

/-- The RPC of a submitted move fails, or its completion message carries an error:
the next poll removes the source file all the same. -/
theorem failed_move_removes_source :
    (∃ s, Run transferStep (fun _ _ => True) (.start ['/','u'] 4 [moveOut])
        [.submit 0 true,.rpcDone 0 Rc.errorMargo,.poll 0] s ∧
      s.removed = [0] ∧ ¬ RemovedAfterSuccess s) ∧
    ∃ s, Run transferStep (fun _ _ => True) (.start ['/','u'] 4 [moveOut])
        [.submit 0 true,.rpcDone 0 Rc.success,.complete 0 Rc.eio 0,.poll 0] s ∧
      s.removed = [0] ∧ ¬ RemovedAfterSuccess s := by
  constructor
  · apply exists_loss
    decide +kernel
  · apply exists_loss
    decide +kernel

end UnifyFS.TransferCleanup
