import UnifyFS.TransferCleanup

/-!
# Completion messages for transfers

Histories as in `UnifyFS.TransferCleanup`, with a record of the ids that the requests have been
assigned. A completion message may come in at any time, also after its request has been cancelled
and cleaned up. `client_get_transfer` goes by the list index of the id alone, so such a message
meets whatever request has the same index now: the id itself is not compared.
-/
namespace UnifyFS.TransferCompletions
open ClientTransfer GuardedRuns ListUpdates MachineWords TransferCleanup List Option

/-- A state with the ids that requests were assigned so far, the last one first. -/
structure Ledger where
  state : TransferState
  assigned : List (ℕ × ℕ)
  deriving DecidableEq, Repr

/-- The id that a submission assigns: a transfer comes into the list at its index. -/
def newAssignment (s u : TransferState) : TransferOp → List (ℕ × ℕ)
  | .submit i _ =>
    match u.reqs[i]? with
    | none => []
    | some r =>
      if clientGetTransfer s.client r.reqid = none ∧
          (clientGetTransfer u.client r.reqid).isSome then [(r.reqid,i)]
      else []
  | _ => []

def ledgerStep (l : Ledger) (e : TransferOp) : Option Ledger :=
  (transferStep l.state e).map fun u => ⟨u,newAssignment l.state u e ++ l.assigned⟩

def ledgerStart (mount : Path) (capacity : ℕ) (reqs : List TransferRequest) : Ledger :=
  ⟨.start mount capacity reqs,[]⟩

/-- Whatever a completion message for the id says, it changes the state or the result only of
requests that were assigned the id. -/
def OnlyOwn (l : Ledger) (id : ℕ) : Prop :=
  ∀ (error : Rc) (size k : ℕ) (r r' : TransferRequest), l.state.reqs[k]? = some r →
    (clientCompleteTransfer l.state id error size).2.reqs[k]? = some r' →
    r'.state ≠ r.state ∨ r'.result ≠ r.result → (id,k) ∈ l.assigned

/-- The list index of the id is in use for a request that was not assigned the id but another one
with the same index. -/
def Reused (l : Ledger) (id : ℕ) : Prop :=
  ∃ t id', clientGetTransfer l.state.client id = some t ∧ (id',t.req) ∈ l.assigned ∧
    l.state.client.idToListIndex id' = l.state.client.idToListIndex id ∧
    (id,t.req) ∉ l.assigned

/-- Every transfer in the list is for a request that was assigned an id with this list index. -/
def Tracked (s : TransferState) (assigned : List (ℕ × ℕ)) : Prop :=
  ∀ (pos : ℕ) (t : TransferStatus),
    s.client.activeTransfers.elems[pos]? = some (some t) →
      t.req < s.reqs.length ∧ ∃ id, (id,t.req) ∈ assigned ∧ s.client.idToListIndex id = pos

section Tracking
variable {s u : TransferState} {i : ℕ} {r : TransferRequest} {assigned : List (ℕ × ℕ)} {id : ℕ}
  {allocated : Bool}

theorem Tracked.mono (hs : Tracked s assigned) (hlen : u.reqs.length = s.reqs.length)
    (hcap : u.client.activeTransfers.capacity = s.client.activeTransfers.capacity)
    (hold : ∀ (pos : ℕ) (t : TransferStatus), u.client.activeTransfers.elems[pos]? = some (some t) →
        ∃ t', s.client.activeTransfers.elems[pos]? = some (some t') ∧ t'.req = t.req) :
    Tracked u assigned := by
  intro pos t ht
  obtain ⟨t',ht',hreq⟩ := hold pos t ht
  obtain ⟨hlt,id,hid,hpos⟩ := hs pos t' ht'
  rw [hreq] at hlt hid
  refine ⟨hlen ▸ hlt,id,hid,?_⟩
  rw [← hpos,Client.idToListIndex,Client.idToListIndex,hcap]

theorem Tracked.of_eq (hs : Tracked s assigned) (hlen : u.reqs.length = s.reqs.length)
    (hactive : u.client.activeTransfers = s.client.activeTransfers) : Tracked u assigned := by
  apply hs.mono hlen (by rw [hactive])
  intro pos t ht
  exact ⟨t,by rwa [← hactive],rfl⟩

theorem length_setReq (s : TransferState) (i : ℕ) (f : TransferRequest → TransferRequest) :
    (s.setReq i f).reqs.length = s.reqs.length := length_modify f s.reqs i

theorem getElem?_setReq (f : TransferRequest → TransferRequest) (hr : s.reqs[i]? = some r) :
    (s.setReq i f).reqs[i]? = some (f r) := by
  change (s.reqs.modify i f)[i]? = _
  rw [getElem?_modify_ite,if_pos rfl,hr,map_some]

/-- A transfer is put at a free index for the request, which is assigned an id with this index. -/
def Inserts (s u : TransferState) (i : ℕ) : Prop :=
  ∃ id b q, s.client.activeTransfers.get (s.client.idToListIndex id) = none ∧
    u.client.activeTransfers =
      s.client.activeTransfers.insert (s.client.idToListIndex id) ⟨i,b,false⟩ ∧
    u.reqs[i]? = some q ∧ q.reqid = id

theorem create_cases {b : Bool} {rc : Rc} (hr : s.reqs[i]? = some r)
    (h : clientCreateTransfer s i b allocated = some (rc,u)) : u.reqs.length = s.reqs.length ∧
      (rc ≠ Rc.success ∧ u.client.activeTransfers = s.client.activeTransfers ∨
        rc = Rc.success ∧ Inserts s u i) := by
  unfold clientCreateTransfer at h
  dsimp only at h
  split at h
  · cases h
    exact ⟨rfl,.inl ⟨by decide,rfl⟩⟩
  · obtain ⟨⟨id,next⟩,hfound,hout⟩ := map_eq_some_iff.mp h
    split_ifs at hout
    · obtain ⟨rfl,rfl⟩ := Prod.mk.inj hout
      have hq := getElem?_setReq (.assign id) hr
      exact ⟨length_setReq s i _,.inr ⟨rfl,id,b,_,(Arraylist.findFree_spec hfound).1,rfl,hq,rfl⟩⟩
    · obtain ⟨rfl,rfl⟩ := Prod.mk.inj hout
      exact ⟨rfl,.inl ⟨by decide,rfl⟩⟩

theorem Inserts.fail {rc : Rc} (h : Inserts s u i) : Inserts s (u.setReq i (.fail rc)) i := by
  obtain ⟨id,b,q,hfree,hactive,hq,hid⟩ := h
  exact ⟨id,b,_,hfree,hactive,getElem?_setReq (.fail rc) hq,hid⟩

theorem submitTransfer_cases (hr : s.reqs[i]? = some r)
    (h : submitTransfer s i r allocated = some u) : u.reqs.length = s.reqs.length ∧
      (u.client.activeTransfers = s.client.activeTransfers ∨ Inserts s u i) := by
  unfold submitTransfer at h
  split at h
  · cases h
    exact ⟨length_setReq s i _,.inl rfl⟩
  · dsimp only at h
    split at h
    · cases h
      exact ⟨length_setReq s i _,.inl rfl⟩
    · obtain ⟨⟨rc,v⟩,hv,hu⟩ := map_eq_some_iff.mp h
      obtain ⟨hlen,hcases⟩ := create_cases (getElem?_setReq .start hr) hv
      rw [length_setReq] at hlen
      cases hcases with
      | inl hfail =>
        rw [if_pos hfail.1] at hu
        subst hu
        exact ⟨(length_setReq v i _).trans hlen,.inl hfail.2⟩
      | inr hdone =>
        have hins := hdone.2
        rw [if_neg (not_not.mpr hdone.1)] at hu
        split_ifs at hu
        · subst hu
          exact ⟨hlen,.inr hins⟩
        · subst hu
          exact ⟨(length_setReq v i _).trans hlen,.inr hins.fail⟩

theorem get_insert_self {α : Type} (a : Arraylist α) (pos : ℕ) (e : α) :
    (a.insert pos e).get pos = some e := by
  have hsize : ¬ (a.insert pos e).size ≤ pos := by
    change ¬ max a.size (pos + 1) ≤ pos
    omega
  have helem : (a.insert pos e).elems[pos]? = some (some e) := by
    change ((a.grown pos).set pos (some e))[pos]? = _
    rw [getElem?_set_self (a.lt_length_grown pos)]
  rw [Arraylist.get,if_neg hsize,helem]
  rfl

theorem idToListIndex_of_capacity (id : ℕ)
    (h : u.client.activeTransfers.capacity = s.client.activeTransfers.capacity) :
    u.client.idToListIndex id = s.client.idToListIndex id := by
  rw [Client.idToListIndex,Client.idToListIndex,h]

theorem idToListIndex_lt (c : Client) (id : ℕ) : c.idToListIndex id < c.activeTransfers.capacity :=
  Nat.mod_lt _ c.activeTransfers.capacity_pos

theorem newAssignment_of_eq (h : u.client.activeTransfers = s.client.activeTransfers) :
    newAssignment s u (.submit i allocated) = [] := by
  dsimp only [newAssignment]
  cases u.reqs[i]? with
  | none => rfl
  | some q =>
    apply if_neg
    intro hboth
    have hsame : clientGetTransfer u.client q.reqid = clientGetTransfer s.client q.reqid := by
      rw [clientGetTransfer,clientGetTransfer,h,
        idToListIndex_of_capacity q.reqid (congrArg Arraylist.capacity h)]
    rw [hsame,hboth.1] at hboth
    exact Bool.false_ne_true hboth.2

theorem newAssignment_of_insert {b : Bool} {q : TransferRequest}
    (hfree : s.client.activeTransfers.get (s.client.idToListIndex id) = none)
    (hactive : u.client.activeTransfers =
      s.client.activeTransfers.insert (s.client.idToListIndex id) ⟨i,b,false⟩)
    (hq : u.reqs[i]? = some q) (hid : q.reqid = id) :
    newAssignment s u (.submit i allocated) = [(id,i)] := by
  have hcap : u.client.activeTransfers.capacity = s.client.activeTransfers.capacity := by
    rw [hactive,Arraylist.capacity_insert (idToListIndex_lt s.client id)]
  dsimp only [newAssignment]
  rw [hq]
  dsimp only
  rw [hid,if_pos]
  refine ⟨hfree,?_⟩
  rw [clientGetTransfer,idToListIndex_of_capacity id hcap,hactive,get_insert_self]
  rfl

theorem tracked_submit (hs : Tracked s assigned) (hr : s.reqs[i]? = some r)
    (h : submitTransfer s i r allocated = some u) :
    Tracked u (newAssignment s u (.submit i allocated) ++ assigned) := by
  obtain ⟨hlen,hcases⟩ := submitTransfer_cases hr h
  cases hcases with
  | inl hsame =>
    rw [newAssignment_of_eq hsame]
    exact hs.of_eq hlen hsame
  | inr hins =>
    obtain ⟨id,b,q,hfree,hactive,hq,hid⟩ := hins
    have hpos := idToListIndex_lt s.client id
    have hcap : u.client.activeTransfers.capacity = s.client.activeTransfers.capacity := by
      rw [hactive,Arraylist.capacity_insert hpos]
    rw [newAssignment_of_insert hfree hactive hq hid]
    intro pos t ht
    rw [hactive,Arraylist.elems_insert hpos] at ht
    cases of_getElem?_set ht with
    | inl hnew =>
      obtain ⟨hnewpos,heq⟩ := hnew
      cases heq
      refine ⟨?_,id,mem_cons_self,(idToListIndex_of_capacity id hcap).trans hnewpos⟩
      rw [hlen]
      exact (List.getElem?_eq_some_iff.mp hr).1
    | inr hold =>
      obtain ⟨hlt,id',hid',hpos'⟩ := hs pos t hold.2
      exact ⟨hlen ▸ hlt,id',mem_cons_of_mem _ hid',
        (idToListIndex_of_capacity id' hcap).trans hpos'⟩

theorem tracked_complete {size : ℕ} {error : Rc} (hs : Tracked s assigned) :
    Tracked (clientCompleteTransfer s id error size).2 assigned := by
  unfold clientCompleteTransfer
  cases clientGetTransfer s.client id with
  | none => exact hs
  | some t =>
    apply hs.mono
    · exact length_setReq s t.req _
    · exact length_modify _ _ _
    · intro pos t' ht'
      cases of_getElem?_modify ht' with
      | inl hold => exact ⟨t',hold,rfl⟩
      | inr hnew =>
        obtain ⟨-,o,ho,hmap⟩ := hnew
        obtain ⟨y,rfl,rfl⟩ := map_eq_some_iff.mp hmap.symm
        exact ⟨y,ho,rfl⟩

theorem tracked_poll (hs : Tracked s assigned) : Tracked (pollTransfer s r) assigned := by
  unfold pollTransfer
  cases clientGetTransfer s.client r.reqid with
  | none => exact hs
  | some t =>
    dsimp only
    cases s.reqs[t.req]? with
    | none => exact hs
    | some q =>
      dsimp only
      split_ifs
      · apply hs.mono
        · rfl
        · exact Arraylist.capacity_remove
        · intro pos t' ht'
          refine ⟨t',?_,rfl⟩
          change (s.client.activeTransfers.remove _).elems[pos]? = _ at ht'
          unfold Arraylist.remove at ht'
          split at ht'
          · exact ht'
          · cases of_getElem?_set ht' with
            | inl hnone => cases hnone.2
            | inr hold => exact hold.2
      · exact hs

theorem tracked_step {l l' : Ledger} {e : TransferOp} (hl : Tracked l.state l.assigned)
    (h : ledgerStep l e = some l') : Tracked l'.state l'.assigned := by
  obtain ⟨u,hu,rfl⟩ := map_eq_some_iff.mp h
  cases e with
  | submit i allocated =>
    obtain ⟨r,hr,hsub⟩ := bind_eq_some_iff.mp hu
    exact tracked_submit hl hr hsub
  | rpcDone i rc =>
    change (if i ∈ l.state.calling then some (transferRpcDone l.state i rc) else none) = some u
      at hu
    split_ifs at hu
    cases hu
    unfold transferRpcDone
    split_ifs
    · exact hl.of_eq (length_setReq _ i _) rfl
    · exact hl.of_eq rfl rfl
  | complete id error size =>
    cases hu
    exact (tracked_complete hl).of_eq rfl rfl
  | cancel i =>
    cases hu
    exact hl.of_eq (length_setReq _ i _) rfl
  | poll i =>
    obtain ⟨r,-,rfl⟩ := map_eq_some_iff.mp hu
    exact tracked_poll hl

theorem tracked_start (mount : Path) (capacity : ℕ) (reqs : List TransferRequest) :
    Tracked (ledgerStart mount capacity reqs).state (ledgerStart mount capacity reqs).assigned := by
  intro pos t ht
  exact absurd (mem_of_getElem? ht) Arraylist.mem_create

end Tracking

theorem elems_of_clientGetTransfer {c : Client} {id : ℕ} {t : TransferStatus}
    (h : clientGetTransfer c id = some t) :
    c.activeTransfers.elems[c.idToListIndex id]? = some (some t) := by
  unfold clientGetTransfer Arraylist.get at h
  split_ifs at h
  exact join_eq_some_iff.mp h

theorem onlyOwn_iff {l : Ledger} {id : ℕ} (hl : Tracked l.state l.assigned) :
    OnlyOwn l id ↔ ∀ t, clientGetTransfer l.state.client id = some t → (id,t.req) ∈ l.assigned := by
  constructor
  · intro hown t ht
    have hlt := (hl _ t (elems_of_clientGetTransfer ht)).1
    have hr := getElem?_eq_getElem hlt
    -- some message says something that the request does not have yet
    have hr' : (clientCompleteTransfer l.state id Rc.success
        (l.state.reqs[t.req].result.fileSizeBytes + 1)).2.reqs[t.req]? =
        some (.complete Rc.success (l.state.reqs[t.req].result.fileSizeBytes + 1)
          l.state.reqs[t.req]) := by
      unfold clientCompleteTransfer
      rw [ht]
      exact getElem?_setReq (.complete _ _) hr
    apply hown _ _ t.req _ _ hr hr'
    right
    intro hsame
    have hsize := congrArg TransferResult.fileSizeBytes hsame
    change l.state.reqs[t.req].result.fileSizeBytes + 1 = _ at hsize
    omega
  · intro hslot error size k r r' hr hr' hchanged
    unfold clientCompleteTransfer at hr'
    cases ht : clientGetTransfer l.state.client id with
    | none =>
      rw [ht] at hr'
      obtain rfl := some.inj (hr.symm.trans hr')
      simp at hchanged
    | some t =>
      rw [ht] at hr'
      change (l.state.reqs.modify t.req _)[k]? = some r' at hr'
      rw [getElem?_modify_ite] at hr'
      split_ifs at hr' with hk
      · exact hk ▸ hslot t ht
      · obtain rfl := some.inj (hr.symm.trans hr')
        simp at hchanged

/-- After every history, completion messages for an id change only the request that was assigned
it, if and only if no other request has the list index of the id. -/
theorem completion_only_own_iff {mount : Path} {capacity : ℕ} {reqs : List TransferRequest}
    {es : List TransferOp} {l : Ledger}
    (h : Run ledgerStep (fun _ _ => True) (ledgerStart mount capacity reqs) es l) (id : ℕ) :
    OnlyOwn l id ↔ ¬ Reused l id := by
  have hl : Tracked l.state l.assigned := by
    apply h.invariant _ (tracked_start mount capacity reqs)
    intro s e u hs _ hu
    exact tracked_step hs hu
  rw [onlyOwn_iff hl]
  constructor
  · intro hown hreused
    obtain ⟨t,id',ht,-,-,hnot⟩ := hreused
    exact hnot (hown t ht)
  · intro hfree t ht
    by_contra hnot
    obtain ⟨-,id',hid',hindex⟩ := hl _ t (elems_of_clientGetTransfer ht)
    exact hfree ⟨t,id',ht,hid',hindex,hnot⟩

theorem completion_only_own_two : ∃ l,
    Run ledgerStep (fun _ _ => True) (ledgerStart ['/','u'] 128 [moveOut,moveOut])
        [.submit 0 true,.submit 1 true,.complete 1 Rc.success 10,.poll 1] l ∧
      l.assigned = [(1,1),(0,0)] ∧ (OnlyOwn l 0 ↔ ¬ Reused l 0) := by
  have hrun : (exec ledgerStep (fun _ _ => true) (ledgerStart ['/','u'] 128 [moveOut,moveOut])
      [.submit 0 true,.submit 1 true,.complete 1 Rc.success 10,.poll 1]).any
      (fun l => l.assigned == [(1,1),(0,0)]) = true := by
    decide +kernel
  obtain ⟨l,hl,hassigned⟩ := Run.exists_of_exec hrun
  have hl' := hl.weaken fun _ _ _ => trivial
  exact ⟨l,hl',beq_iff_eq.mp hassigned,completion_only_own_iff hl' 0⟩

def cancelledRound (i : ℕ) : List TransferOp :=
  [.submit i true,.rpcDone i Rc.success,.cancel i,.poll i]

def twoRequests (active : Arraylist TransferStatus) (next reqid : ℕ) (state : ReqState)
    (calling : List ℕ) : TransferState :=
  ⟨⟨['/','u'],active,next⟩,
    [{ moveOut with state := .canceled },{ moveOut with state := state, reqid := reqid }],calling,
    [],[]⟩

section Rounds
variable {n g : ℕ}

theorem findTransferId_create (hn : n ≠ 0) (mount : Path) :
    (Client.mk mount (.create n) g).findTransferId (2 * n) g = some (g,g + 1) := by
  obtain ⟨fuel,hfuel⟩ : ∃ fuel, 2 * n = fuel + 1 := ⟨2 * n - 1,by omega⟩
  rw [hfuel,Client.findTransferId,Arraylist.findFree]
  exact if_pos rfl

def secondActive (n g : ℕ) : Arraylist TransferStatus :=
  (Arraylist.create n).insert (g % uintRange % n) ⟨1,true,false⟩

theorem create_second (hn : n ≠ 0) (b : ℕ) (st : ReqState) :
    clientCreateTransfer ((twoRequests (.create n) g b st []).setReq 1 .start) 1 true true =
      some (Rc.success,twoRequests (secondActive n g) (g + 1) g .inProgress []) := by
  have hcap : (Arraylist.create n : Arraylist TransferStatus).capacity = n :=
    Arraylist.capacity_create hn
  change (if 0 = (Arraylist.create n : Arraylist TransferStatus).capacity then _
    else ((Client.mk ['/','u'] (.create n) g).findTransferId
      (2 * (Arraylist.create n : Arraylist TransferStatus).capacity) g).map _) = _
  rw [hcap,if_neg (Ne.symm hn),findTransferId_create hn]
  change some (Rc.success,twoRequests ((Arraylist.create n).insert (g % uintRange %
    (Arraylist.create n : Arraylist TransferStatus).capacity) ⟨1,true,false⟩) (g + 1) g
    .inProgress []) = _
  rw [hcap]
  rfl

theorem submit_second (hn : n ≠ 0) (b : ℕ) (st : ReqState) (assigned : List (ℕ × ℕ)) :
    ledgerStep ⟨twoRequests (.create n) g b st [],assigned⟩ (.submit 1 true) =
      some ⟨twoRequests (secondActive n g) (g + 1) g .inProgress [1],(g,1) :: assigned⟩ := by
  have hstep : transferStep (twoRequests (.create n) g b st []) (.submit 1 true) =
      some (twoRequests (secondActive n g) (g + 1) g .inProgress [1]) := by
    change submitTransfer (twoRequests (.create n) g b st []) 1
      { moveOut with state := st, reqid := b } true = _
    unfold submitTransfer
    rw [if_neg (show ¬ moveOut.mode = .invalid by decide)]
    change (if isUnifyfsPath ['/','u'] moveOut.srcPath = isUnifyfsPath ['/','u'] moveOut.dstPath
      then _ else (clientCreateTransfer ((twoRequests (.create n) g b st []).setReq 1 .start) 1
        true true).map _) = _
    rw [create_second hn b st]
    rfl
  have hindex : (twoRequests (.create n) g b st []).client.idToListIndex g = g % uintRange % n :=
    congrArg (g % uintRange % ·) (Arraylist.capacity_create hn)
  have hnew : newAssignment (twoRequests (.create n) g b st [])
      (twoRequests (secondActive n g) (g + 1) g .inProgress [1]) (.submit 1 true) = [(g,1)] := by
    apply newAssignment_of_insert rfl
    · rw [hindex]
      rfl
    · rfl
    · rfl
  rw [ledgerStep,hstep,map_some,hnew]
  rfl

theorem poll_second (hn : n ≠ 0) :
    transferStep (twoRequests (secondActive n g) (g + 1) g .canceled []) (.poll 1) =
      some (twoRequests (.create n) (g + 1) g .canceled []) := by
  have hpos : g % uintRange % n < (Arraylist.create n : Arraylist TransferStatus).capacity := by
    rw [Arraylist.capacity_create hn]
    exact Nat.mod_lt _ (Nat.pos_of_ne_zero hn)
  have hindex : (twoRequests (secondActive n g) (g + 1) g .canceled []).client.idToListIndex g =
      g % uintRange % n :=
    congrArg (g % uintRange % ·)
      ((Arraylist.capacity_insert hpos).trans (Arraylist.capacity_create hn))
  have hget : clientGetTransfer (twoRequests (secondActive n g) (g + 1) g .canceled []).client g =
      some ⟨1,true,false⟩ := by
    rw [clientGetTransfer,hindex]
    exact get_insert_self _ _ _
  have hremove : (secondActive n g).remove (g % uintRange % n) = .create n :=
    (Arraylist.tight_create n).insert_remove hpos (Arraylist.slot_create n _)
  change some (pollTransfer (twoRequests (secondActive n g) (g + 1) g .canceled [])
    { moveOut with state := .canceled, reqid := g }) = _
  unfold pollTransfer
  rw [hget]
  change some (twoRequests ((secondActive n g).remove
    ((twoRequests (secondActive n g) (g + 1) g .canceled []).client.idToListIndex g)) (g + 1) g
    .canceled []) = _
  rw [hindex,hremove]

theorem run_round (hn : n ≠ 0) (b : ℕ) (st : ReqState) (assigned : List (ℕ × ℕ)) :
    Run ledgerStep (fun _ _ => True) ⟨twoRequests (.create n) g b st [],assigned⟩ (cancelledRound 1)
      ⟨twoRequests (.create n) (g + 1) g .canceled [],(g,1) :: assigned⟩ := by
  apply Run.cons trivial (submit_second hn b st assigned)
  apply Run.cons trivial rfl
  apply Run.cons trivial rfl
  have hpoll : ledgerStep ⟨twoRequests (secondActive n g) (g + 1) g .canceled [],(g,1) :: assigned⟩
      (.poll 1) = some ⟨twoRequests (.create n) (g + 1) g .canceled [],(g,1) :: assigned⟩ := by
    rw [ledgerStep,poll_second hn]
    rfl
  exact Run.cons trivial hpoll (.nil _)

theorem run_rounds (hn : n ≠ 0) (assigned : List (ℕ × ℕ)) (k : ℕ) : ∃ st b,
    Run ledgerStep (fun _ _ => True) ⟨twoRequests (.create n) 1 0 .invalid [],assigned⟩
      (List.replicate k (cancelledRound 1)).flatten ⟨twoRequests (.create n) (k + 1) b st [],
        ((List.range k).map fun j => (j + 1,1)).reverse ++ assigned⟩ := by
  induction k with
  | zero => exact ⟨.invalid,0,.nil _⟩
  | succ k ih =>
    obtain ⟨st,b,hrun⟩ := ih
    refine ⟨.canceled,k + 1,?_⟩
    rw [replicate_succ',flatten_append,range_succ,map_append,reverse_append]
    exact hrun.append (run_round hn b st _)

end Rounds

/-- The first request is cancelled and waited for, and then the second one as often as it takes for
the list index to come up again. The list has room for 128 transfers, as in a client. -/
def lateHistory : List TransferOp :=
  cancelledRound 0 ++ ((List.replicate 127 (cancelledRound 1)).flatten ++ [.submit 1 true])

/-- A message for the first transfer comes late and completes the second request, which has never
been assigned this id. -/
theorem late_completion_hits_other : ∃ l,
    Run ledgerStep (fun _ _ => True) (ledgerStart ['/','u'] 128 [moveOut,moveOut]) lateHistory l ∧
      (0,1) ∉ l.assigned ∧
      (l.state.reqs[1]?).map TransferRequest.state = some .inProgress ∧
      ((clientCompleteTransfer l.state 0 Rc.success 10).2.reqs[1]?).map TransferRequest.state =
        some .completed := by
  have hfirst : Run ledgerStep (fun _ _ => True) (ledgerStart ['/','u'] 128 [moveOut,moveOut])
      (cancelledRound 0) ⟨twoRequests (.create 128) 1 0 .invalid [],[(0,0)]⟩ :=
    Run.of_foldlM (by decide +kernel)
  obtain ⟨st,b,hrounds⟩ := run_rounds (n := 128) (by decide) [(0,0)] 127
  have hlast := submit_second (n := 128) (g := 128) (by decide) b st
    (((List.range 127).map fun j => (j + 1,1)).reverse ++ [(0,0)])
  refine ⟨_,hfirst.append (hrounds.append (.cons trivial hlast (.nil _))),?_,rfl,?_⟩
  · simp
  · decide +kernel

end UnifyFS.TransferCompletions
