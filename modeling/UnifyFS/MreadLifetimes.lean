import UnifyFS.ActiveMreads

/-!
# The mread of a batch of reads

`process_gfid_reads` again, with the list of active mreads and the array of request copies. An mread
is created for the requests that are left to the server, and refers to them: they are in the array
of copies if requests are served from local extents, and in the array of the caller otherwise.
While the call waits, other threads create and remove mreads of their own.

An mread stays in the list if there is no memory for the buffer of extents: the call returns without
removing it. And the array of copies is released before the mread is removed, so messages that come
in meanwhile find requests in released memory.
-/
namespace UnifyFS.MreadLifetimes
open ActiveMreads ClientRead GfidReads GuardedRuns MreadClient Option

structure MreadEnv where
  reads : ReadEnv
  /-- The address of a new mread, if there is memory for it. -/
  address : Option ℕ
  others : List MreadEvent

structure Lifetime where
  created : Option ℕ
  /-- The mreads at the time when the array of copies is released. -/
  released : Option MreadClient
  table : MreadClient

/-- `client_create_mread_request`, with the memory for the mread. -/
def createMread (m : MreadClient) (reqs : List ReadReq) : Option ℕ → Option (Option ℕ × MreadClient)
  | some ptr => m.clientCreateMreadRequest ptr reqs
  | none =>
    if m.activeMreads.size = m.activeMreads.capacity then some (none,m)
    else (m.findMreadId (2 * m.activeMreads.capacity) m.mreadIdGenerator).map fun found =>
      (none,{ m with mreadIdGenerator := found.2 })

/-- Another thread creates an mread, or removes one of its own. -/
def otherStep (own : ℕ) (m : MreadClient) : MreadEvent → Option MreadClient
  | .create ptr reqs => if (m.heap ptr).isNone then step m (.create ptr reqs) else none
  | .remove none => some m
  | .remove (some ptr) =>
    if ptr ≠ own ∧ (m.heap ptr).isSome then step m (.remove (some ptr)) else none

def readFromServer (c : ReadClient) (env : MreadEnv) (m : MreadClient)
    (inReqs localReqs serverReqs : List ReadReq) : Option (ReadsOut × Lifetime) :=
  if serverReqs.length > clientMaxReadCount then
    some (⟨Rc.enospc,inReqs,localReqs,serverReqs⟩,⟨none,if c.attempts then some m else none,m⟩)
  else
    let sorted := env.reads.sort serverReqs
    let inReqs := if c.attempts then inReqs else sorted
    (createMread m sorted env.address).bind fun
      | (none,m) => some (⟨Rc.enomem,inReqs,localReqs,sorted⟩,⟨none,none,m⟩)
      | (some own,m) =>
        if env.reads.bufferAllocated then
          (awaitServer env.reads sorted).bind fun (ret,done) =>
            (env.others.foldlM (otherStep own) m).bind fun m =>
              (m.clientRemoveMreadRequest (some own)).map fun removed =>
                (⟨ret,if c.attempts then localReqs ++ done else done,localReqs,done⟩,
                  ⟨some own,if c.attempts then some m else none,removed.2⟩)
        else some (⟨Rc.enomem,inReqs,localReqs,sorted⟩,⟨some own,none,m⟩)

def processGfidReads (c : ReadClient) (env : MreadEnv) (m : MreadClient) (inReqs : List ReadReq) :
    Option (ReadsOut × Lifetime) :=
  if inReqs = [] then some (⟨Rc.success,[],[],[]⟩,⟨none,none,m⟩)
  else
    let inReqs := inReqs.map (ReadReq.withError Rc.einprogress)
    if c.attempts then
      if env.reads.reqsAllocated then
        (serviceLocalReqs c env.reads 0 inReqs).bind fun s =>
          (updateResults env.reads.localSize 0 s.localReqs).bind fun done =>
            if s.serverReqs = [] then some (⟨Rc.success,done,done,[]⟩,⟨none,some m,m⟩)
            else readFromServer c env m s.inReqs done s.serverReqs
      else some (⟨Rc.enomem,inReqs,[],inReqs⟩,⟨none,none,m⟩)
    else readFromServer c env m inReqs [] inReqs

def Active (m : MreadClient) (p : ℕ) : Prop := ∃ k, m.activeMreads.slot k = some p

/-- The mread of the call is no longer in the list at the end, nor when the array it refers to is
released. -/
def Lifetime.Retired (t : Lifetime) : Prop :=
  ∀ p, t.created = some p → ¬ Active t.table p ∧ ∀ m, t.released = some m → ¬ Active m p

variable {c : ReadClient} {env : MreadEnv} {m : MreadClient} {out : ReadsOut} {t : Lifetime}

theorem serviceLocalReqs_congr {env env' : ReadEnv} (h : env.logRead = env'.logRead) (i : ℕ)
    (reqs : List ReadReq) : serviceLocalReqs c env i reqs = serviceLocalReqs c env' i reqs := by
  induction reqs generalizing i with
  | nil => rfl
  | cons req rest ih => rw [serviceLocalReqs,serviceLocalReqs,h,ih]

/-- The end of a call that has created an mread, with the mreads after its creation. -/
def Ends (c : ReadClient) (env : MreadEnv) (own : ℕ) (u : MreadClient) (t : Lifetime) : Prop :=
  env.reads.bufferAllocated = false ∧ t.released = none ∧ t.table = u ∨
  env.reads.bufferAllocated = true ∧ ∃ v rc, env.others.foldlM (otherStep own) u = some v ∧
    v.clientRemoveMreadRequest (some own) = some (rc,t.table) ∧
    t.released = if c.attempts then some v else none

theorem readFromServer_cases {inReqs localReqs serverReqs : List ReadReq}
    (h : readFromServer c env m inReqs localReqs serverReqs = some (out,t)) :
    GfidReads.readFromServer c { env.reads with mreadCreated := t.created.isSome } inReqs localReqs
      serverReqs = some out ∧
    (t.created = none ∨ ∃ own u, t.created = some own ∧ Ends c env own u t ∧
      createMread m (env.reads.sort serverReqs) env.address = some (some own,u)) := by
  unfold readFromServer at h
  unfold GfidReads.readFromServer
  by_cases hmany : serverReqs.length > clientMaxReadCount
  · rw [if_pos hmany] at h ⊢
    cases h
    exact ⟨rfl,.inl rfl⟩
  · rw [if_neg hmany] at h ⊢
    obtain ⟨⟨created,u⟩,hcreate,h⟩ := bind_eq_some_iff.mp h
    cases created with
    | none =>
      cases h
      exact ⟨rfl,.inl rfl⟩
    | some own =>
      dsimp only at h
      by_cases hbuffer : env.reads.bufferAllocated = true
      · rw [if_pos hbuffer] at h
        obtain ⟨⟨ret,done⟩,hawait,h⟩ := bind_eq_some_iff.mp h
        obtain ⟨v,hothers,h⟩ := bind_eq_some_iff.mp h
        obtain ⟨⟨rc,w⟩,hremove,h⟩ := map_eq_some_iff.mp h
        obtain ⟨rfl,rfl⟩ := Prod.mk.inj h
        refine ⟨?_,.inr ⟨own,u,rfl,.inr ⟨hbuffer,v,rc,hothers,hremove,rfl⟩,hcreate⟩⟩
        simp only [isSome_some,Bool.true_and]
        rw [if_pos hbuffer]
        exact congrArg (Option.map fun out => (⟨out.1,if c.attempts then localReqs ++ out.2
          else out.2,localReqs,out.2⟩ : ReadsOut)) hawait
      · rw [if_neg hbuffer] at h
        cases h
        refine ⟨?_,.inr ⟨own,u,rfl,.inl ⟨by simpa using hbuffer,rfl,rfl⟩,hcreate⟩⟩
        simp [hbuffer]

theorem processGfidReads_cases {inReqs : List ReadReq}
    (h : processGfidReads c env m inReqs = some (out,t)) :
    GfidReads.processGfidReads c { env.reads with mreadCreated := t.created.isSome } inReqs =
      some out ∧ (t.created = none ∨ ∃ own u reqs, t.created = some own ∧ Ends c env own u t ∧
      createMread m reqs env.address = some (some own,u)) := by
  have hserver : ∀ {inReqs localReqs serverReqs},
      readFromServer c env m inReqs localReqs serverReqs = some (out,t) →
      GfidReads.readFromServer c { env.reads with mreadCreated := t.created.isSome } inReqs
        localReqs serverReqs = some out ∧
      (t.created = none ∨ ∃ own u reqs, t.created = some own ∧ Ends c env own u t ∧
        createMread m reqs env.address = some (some own,u)) := by
    intro inReqs localReqs serverReqs h
    obtain ⟨hreads,hcases⟩ := readFromServer_cases h
    refine ⟨hreads,hcases.imp_right ?_⟩
    rintro ⟨own,u,hcreated,hends,hcreate⟩
    exact ⟨own,u,_,hcreated,hends,hcreate⟩
  unfold processGfidReads at h
  unfold GfidReads.processGfidReads
  by_cases hnil : inReqs = []
  · rw [if_pos hnil] at h ⊢
    cases h
    exact ⟨rfl,.inl rfl⟩
  · rw [if_neg hnil] at h ⊢
    by_cases hattempts : c.attempts = true
    · rw [if_pos hattempts] at h ⊢
      by_cases hreqs : env.reads.reqsAllocated = true
      · rw [if_pos hreqs] at h ⊢
        obtain ⟨s,hs,h⟩ := bind_eq_some_iff.mp h
        obtain ⟨done,hdone,h⟩ := bind_eq_some_iff.mp h
        have hlocal : serviceLocalReqs c { env.reads with mreadCreated := t.created.isSome } 0
            (inReqs.map (ReadReq.withError Rc.einprogress)) = serviceLocalReqs c env.reads 0
            (inReqs.map (ReadReq.withError Rc.einprogress)) := by
          apply serviceLocalReqs_congr
          rfl
        rw [hlocal,hs,bind_some,hdone,bind_some]
        by_cases hall : s.serverReqs = []
        · rw [if_pos hall] at h ⊢
          cases h
          exact ⟨rfl,.inl rfl⟩
        · rw [if_neg hall] at h ⊢
          exact hserver h
      · rw [if_neg hreqs] at h ⊢
        cases h
        exact ⟨rfl,.inl rfl⟩
    · rw [if_neg hattempts] at h ⊢
      exact hserver h

section Tables
variable {u : MreadClient} {own : ℕ} {x : ClientMread}

theorem Active.of_heap (h : Listed m) (hx : m.heap own = some x) : Active m own :=
  ⟨_,h.placed own x hx⟩

theorem not_active_of_heap (h : Listed m) (hx : m.heap own = none) : ¬ Active m own := by
  rintro ⟨k,hk⟩
  obtain ⟨y,hy,-⟩ := h.owned k own hk
  rw [hx] at hy
  cases hy

theorem listed_otherStep {e : MreadEvent} (h : Listed m ∧ m.heap own = some x)
    (hstep : otherStep own m e = some u) : Listed u ∧ u.heap own = some x := by
  obtain ⟨hlisted,hx⟩ := h
  cases e with
  | create ptr reqs =>
    rw [otherStep] at hstep
    split_ifs at hstep with hfree
    have hptr := isNone_iff_eq_none.mp hfree
    have hne : own ≠ ptr := by
      rintro rfl
      rw [hptr] at hx
      cases hx
    rcases clientCreateMreadRequest_cases hlisted ptr reqs with
      ⟨-,hcall⟩ | ⟨-,id,next,hslot,hnext,hcall⟩
    · rw [step,hcall] at hstep
      cases hstep
      exact ⟨hlisted,hx⟩
    · rw [step,hcall] at hstep
      cases hstep
      exact ⟨hlisted.insert hptr hslot hnext,(Function.update_of_ne hne _ _).trans hx⟩
  | remove mread =>
    cases mread with
    | none =>
      cases hstep
      exact ⟨hlisted,hx⟩
    | some ptr =>
      rw [otherStep] at hstep
      split_ifs at hstep with hother
      obtain ⟨y,hy⟩ := isSome_iff_exists.mp hother.2
      rw [step,clientRemoveMreadRequest_eq hlisted hy] at hstep
      cases hstep
      exact ⟨hlisted.remove hy,(Function.update_of_ne hother.1.symm _ _).trans hx⟩

theorem listed_createMread {reqs : List ReadReq} {address : Option ℕ} (h : Listed m)
    (hfresh : ∀ p, address = some p → m.heap p = none)
    (hcreate : createMread m reqs address = some (some own,u)) :
    Listed u ∧ ∃ x, u.heap own = some x := by
  cases address with
  | none =>
    rw [createMread] at hcreate
    split_ifs at hcreate
    · cases hcreate
    · obtain ⟨found,-,hfound⟩ := map_eq_some_iff.mp hcreate
      cases hfound
  | some ptr =>
    rcases clientCreateMreadRequest_cases h ptr reqs with ⟨-,hcall⟩ | ⟨-,id,next,hslot,hnext,hcall⟩
    · cases hcall.symm.trans hcreate
    · obtain ⟨hown,rfl⟩ := Prod.mk.inj (some.inj (hcall.symm.trans hcreate))
      cases hown
      exact ⟨h.insert (hfresh own rfl) hslot hnext,_,Function.update_self _ _ _⟩

end Tables

theorem retired_of_not_created (h : t.created = none) : t.Retired := by
  intro p hp
  rw [h] at hp
  cases hp

theorem Ends.retired_iff {own : ℕ} {u : MreadClient} (h : Ends c env own u t)
    (hcreated : t.created = some own) (hu : Listed u) (hown : ∃ x, u.heap own = some x) :
    t.Retired ↔ env.reads.bufferAllocated = true ∧ c.attempts = false := by
  obtain ⟨x,hx⟩ := hown
  rcases h with ⟨hbuffer,-,htable⟩ | ⟨hbuffer,v,rc,hothers,hremove,hreleased⟩
  · rw [hbuffer]
    refine iff_of_false ?_ fun hboth => Bool.false_ne_true hboth.1
    intro hretired
    exact (hretired own hcreated).1 (htable ▸ Active.of_heap hu hx)
  · obtain ⟨hv,hvx⟩ := foldlM_invariant (fun _ _ _ _ => listed_otherStep) hothers ⟨hu,hx⟩
    have htable : ¬ Active t.table own := by
      rw [clientRemoveMreadRequest_eq hv hvx] at hremove
      rw [← (Prod.mk.inj (some.inj hremove)).2]
      exact not_active_of_heap (hv.remove hvx) (Function.update_self _ _ _)
    cases hattempts : c.attempts with
    | true =>
      refine iff_of_false ?_ fun hboth => Bool.false_ne_true hboth.2.symm
      intro hretired
      apply (hretired own hcreated).2 v
      · rw [hreleased,hattempts]
        rfl
      · exact Active.of_heap hv hvx
    | false =>
      refine iff_of_true ?_ ⟨hbuffer,rfl⟩
      intro p hp
      obtain rfl := some.inj (hcreated.symm.trans hp)
      refine ⟨htable,?_⟩
      intro w hw
      rw [hreleased,hattempts] at hw
      cases hw

/-- On every path through a call, the mread is removed before the array it refers to is released and
is gone at the end, if and only if none was created, or there was memory for the buffer and requests
are not served from local extents. -/
theorem mread_retired_iff {es : List MreadEvent} {inReqs : List ReadReq}
    (hrun : Run step Allowed start es m) (hfresh : ∀ p, env.address = some p → m.heap p = none)
    (h : processGfidReads c env m inReqs = some (out,t)) :
    t.Retired ↔ t.created = none ∨ env.reads.bufferAllocated = true ∧ c.attempts = false := by
  rcases (processGfidReads_cases h).2 with hnone | ⟨own,u,reqs,hcreated,hends,hcreate⟩
  · exact iff_of_true (retired_of_not_created hnone) (.inl hnone)
  · obtain ⟨hu,hown⟩ := listed_createMread (listed_of_run hrun) hfresh hcreate
    rw [hends.retired_iff hcreated hu hown,hcreated]
    simp

/-- A server that completes the first request of an mread without data. -/
def serverEnv (bufferAllocated : Bool) : MreadEnv where
  reads := ⟨true,true,bufferAllocated,fun _ _ _ _ => (Rc.success,[]),id,Rc.success,
    [.complete 0 Rc.success],fun _ => 0,fun _ => 0⟩
  address := some 5
  others := [.create 6 [],.remove (some 6)]

def bareClient (useLocalExtents : Bool) : ReadClient :=
  ⟨useLocalExtents,false,fun _ => none,fun _ => false⟩

def oneRead : List ReadReq := [.start 9 0 1 [0]]

/-- Two requests, one of which the server does not complete, beside the mread of another call. -/
theorem mread_retired_two_requests : ∃ m out t, Run step Allowed start [.create 7 oneRead] m ∧
    processGfidReads (bareClient false) (serverEnv true) m (oneRead ++ oneRead) = some (out,t) ∧
      t.created = some 5 ∧ t.Retired := by
  have hsome : ((step start (.create 7 oneRead)).any fun m =>
      (m.heap 5).isNone && (processGfidReads (bareClient false) (serverEnv true) m
        (oneRead ++ oneRead)).any fun out => decide (out.2.created = some 5)) = true := by
    decide +kernel
  obtain ⟨m,hm,hsome⟩ := (any_eq_true _ _).mp hsome
  obtain ⟨hheap,hsome⟩ := Bool.and_eq_true_iff.mp hsome
  obtain ⟨⟨out,t⟩,hout,hcreated⟩ := (any_eq_true _ _).mp hsome
  have hrun : Run step Allowed start [.create 7 oneRead] m := .cons rfl hm (.nil m)
  refine ⟨m,out,t,hrun,hout,of_decide_eq_true hcreated,(mread_retired_iff hrun ?_ hout).mpr
    (.inr ⟨rfl,rfl⟩)⟩
  intro p hp
  cases hp
  exact isNone_iff_eq_none.mp hheap

/-- Without memory for the buffer the call returns and leaves its mread in the list. With local
extents, the array of copies is released while the mread that refers to it is in the list. -/
theorem mread_outlives_requests :
    (∃ out t, processGfidReads (bareClient false) (serverEnv false) start oneRead = some (out,t) ∧
      out.ret = Rc.enomem ∧ t.created = some 5 ∧ t.table.activeMreads.slot 0 = some 5) ∧
    ∃ out t m, processGfidReads (bareClient true) (serverEnv true) start oneRead = some (out,t) ∧
      out.ret = Rc.success ∧ t.created = some 5 ∧ t.released = some m ∧
      m.activeMreads.slot 0 = some 5 := by
  constructor
  · have hsome : ((processGfidReads (bareClient false) (serverEnv false) start oneRead).any
        fun out => decide (out.1.ret = Rc.enomem ∧ out.2.created = some 5 ∧
          out.2.table.activeMreads.slot 0 = some 5)) = true := by
      decide +kernel
    obtain ⟨⟨out,t⟩,hout,hend⟩ := (any_eq_true _ _).mp hsome
    exact ⟨out,t,hout,of_decide_eq_true hend⟩
  · have hsome : ((processGfidReads (bareClient true) (serverEnv true) start oneRead).any
        fun out => decide (out.1.ret = Rc.success ∧ out.2.created = some 5) &&
          out.2.released.any fun m => decide (m.activeMreads.slot 0 = some 5)) = true := by
      decide +kernel
    obtain ⟨⟨out,t⟩,hout,hend⟩ := (any_eq_true _ _).mp hsome
    obtain ⟨hret,hreleased⟩ := Bool.and_eq_true_iff.mp hend
    obtain ⟨m,hm,hslot⟩ := (any_eq_true _ _).mp hreleased
    obtain ⟨hret,hcreated⟩ := of_decide_eq_true hret
    exact ⟨out,t,m,hout,hret,hcreated,hm,of_decide_eq_true hslot⟩

end UnifyFS.MreadLifetimes
