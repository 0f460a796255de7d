import UnifyFS.ReadRequests
import UnifyFS.ServerGroups

/-!
# Submitting the extents of an mread

`submit_read_request` takes the extents of an mread one after the other. It looks up
where the bytes of an extent are, and hands a read request to the request manager or, if
there are none, tells the client that the read is complete. A failed lookup ends the call.
The code of a submission is kept in one variable, which the next submission overwrites.

Everything that the call does not decide is in its environment: what the lookups return,
whether there is memory, whether the client is still known, and the request manager when
a request is submitted, since its thread goes on meanwhile.
-/
namespace UnifyFS.ReadSubmissions
open ListUpdates ChunkReads ReadRequests ExtentLookup ServerGroups List Option

/-- The environment of a call, by the index of the extent. -/
structure SubmitEnv where
  clientKnown : Bool
  findExtents : ℕ → Rc × List Chunk
  alloc : ℕ → Bool
  clientAt : ℕ → Bool
  reqmgr : ℕ → Reqmgr
  sound : ∀ k, (reqmgr k).Sound
  outcome : ℕ → RpcOutcome

/-- What becomes of an extent: the call ends with an error, the client is told that there is
no data, or the request is taken by the manager, which is then in the state given, or not. -/
inductive SubmitEvent where
  | failed (rc : Rc)
  | noData (outcome : RpcOutcome)
  | accepted (reqmgr : Reqmgr)
  | rejected (rc : Rc)
  deriving DecidableEq, Repr

/-- The servers of a request and the sizes asked of them. -/
def serversOf (groups : List ServerGroup) : List (ℕ × ℕ) :=
  groups.map fun s => (s.rank.toNat,s.totalSz)

/-- `rm_submit_read_request`, which looks the client up first. -/
def submitTo (env : SubmitEnv) (k : ℕ) (t : ReadTarget) (groups : List ServerGroup) :
    Option SubmitEvent :=
  if env.clientAt k then
    (rmSubmitReadRequest (env.reqmgr k) t (serversOf groups)).map fun (ret,rm) =>
      if ret = Rc.success then .accepted rm else .rejected ret
  else some (.rejected Rc.failure)

def submitExtent (env : SubmitEnv) (mread k : ℕ) (e : FileExtent) : Option SubmitEvent :=
  let (rc,chunks) := env.findExtents k
  if rc ≠ Rc.success then some (.failed rc)
  else if chunks.isEmpty then some (.noData (env.outcome k))
  else
    (createRemoteReadRequests (env.alloc k) chunks).bind fun (rc,groups) =>
      if rc ≠ Rc.success then some (.failed rc)
      else submitTo env k ⟨mread,k,e.offset⟩ groups

def submitLoop (env : SubmitEnv) (mread : ℕ) :
    ℕ → List FileExtent → Rc → Option (Rc × List SubmitEvent)
  | _, [], ret => some (ret,[])
  | k, e :: es, ret =>
    (submitExtent env mread k e).bind fun event =>
      match event with
      | .failed rc => some (rc,[event])
      | .noData _ => (submitLoop env mread (k + 1) es ret).map fun out => (out.1,event :: out.2)
      | .accepted _ =>
        (submitLoop env mread (k + 1) es Rc.success).map fun out => (out.1,event :: out.2)
      | .rejected rc =>
        (submitLoop env mread (k + 1) es rc).map fun out => (out.1,event :: out.2)

/-- The code and what became of the extents that the call got to. -/
def submitReadRequest (env : SubmitEnv) (mread : ℕ) (extents : List FileExtent) :
    Option (Rc × List SubmitEvent) :=
  if extents.isEmpty then some (Rc.einval,[])
  else if env.clientKnown then submitLoop env mread 0 extents Rc.success
  else some (Rc.failure,[])

/-- A request with the index of the extent is with the manager, or a completion was sent. -/
def Handled (mread k : ℕ) : SubmitEvent → Prop
  | .accepted rm => ∃ (i : ℕ) (q : ServerReadReq), rm.readReqs[i]? = some q ∧ q.inUse = true ∧
      q.status = .ready ∧ q.read = (mread,k)
  | .noData _ => True
  | _ => False

namespace SubmitEnv
variable (env : SubmitEnv)

/-- The call ends at the extent: its lookup fails, or there is no memory for its requests. -/
def Stops (k : ℕ) : Prop :=
  (env.findExtents k).1 ≠ Rc.success ∨ (env.findExtents k).2 ≠ [] ∧ env.alloc k = false

def HasData (k : ℕ) : Prop := (env.findExtents k).2 ≠ []

/-- When the request is submitted, the client is known and a slot is free. -/
def HasSlot (k : ℕ) : Prop :=
  env.clientAt k = true ∧ (env.reqmgr k).numReadReqs < (env.reqmgr k).readReqs.length

def NoData (lo hi : ℕ) : Prop := ∀ j, lo ≤ j → j < hi → ¬ env.HasData j

/-- Among the extents in a range, the last one with data finds no slot. -/
def EndsRejected (lo hi : ℕ) : Prop :=
  ∃ i, lo ≤ i ∧ i < hi ∧ (env.HasData i ∧ ¬ env.HasSlot i) ∧ env.NoData (i + 1) hi

/-- If the call gets to its end and some extent with data finds no slot, then the last extent
with data finds none. -/
def LastRejected (n : ℕ) : Prop :=
  env.clientKnown = true → (∀ k < n, ¬ env.Stops k) →
    (∃ k < n, env.HasData k ∧ ¬ env.HasSlot k) → env.EndsRejected 0 n

variable {env} {lo hi : ℕ}

theorem noData_cons (h : lo < hi) :
    env.NoData lo hi ↔ ¬ env.HasData lo ∧ env.NoData (lo + 1) hi := by
  constructor
  · exact fun hno => ⟨hno lo le_rfl h,fun j hj => hno j (by omega)⟩
  · rintro ⟨hlo,hno⟩ j hj
    rcases Nat.eq_or_lt_of_le hj with rfl | hlt
    · exact fun _ => hlo
    · exact hno j hlt

theorem endsRejected_cons (h : lo < hi) : env.EndsRejected lo hi ↔ env.EndsRejected (lo + 1) hi ∨
    (env.HasData lo ∧ ¬ env.HasSlot lo) ∧ env.NoData (lo + 1) hi := by
  constructor
  · rintro ⟨i,hlo,hhi,hrest⟩
    rcases Nat.eq_or_lt_of_le hlo with rfl | hlt
    · exact .inr hrest
    · exact .inl ⟨i,hlt,hhi,hrest⟩
  · rintro (⟨i,hlo,hrest⟩ | hrest)
    · exact ⟨i,by omega,hrest⟩
    · exact ⟨lo,le_rfl,h,hrest⟩

end SubmitEnv

open SubmitEnv

/-- What holds of an event for the extent with index `k`. -/
def EventOk (env : SubmitEnv) (mread k : ℕ) : SubmitEvent → Prop
  | .failed rc => env.Stops k ∧ rc ≠ Rc.success
  | .noData _ => ¬ env.Stops k ∧ ¬ env.HasData k
  | .accepted rm => ¬ env.Stops k ∧ env.HasData k ∧ env.HasSlot k ∧ Handled mread k (.accepted rm)
  | .rejected rc => ¬ env.Stops k ∧ (env.HasData k ∧ ¬ env.HasSlot k) ∧ rc ≠ Rc.success

section Extent
variable {env : SubmitEnv} {mread k : ℕ} {e : FileExtent} {event : SubmitEvent}

theorem submitTo_ok {offset : ℕ} {groups : List ServerGroup} (hgo : ¬ env.Stops k)
    (hdata : env.HasData k) (h : submitTo env k ⟨mread,k,offset⟩ groups = some event) :
    EventOk env mread k event := by
  unfold submitTo at h
  split_ifs at h with hclient
  · obtain ⟨⟨ret,rm⟩,hsub,rfl⟩ := map_eq_some_iff.mp h
    obtain ⟨⟨o,rm₁⟩,hres,hout⟩ := map_eq_some_iff.mp hsub
    rcases Reqmgr.reserve_cases (env.sound k) hres with ⟨rfl,rfl⟩ | ⟨i,q,next,rfl,hi,huse,rfl⟩
    · cases hout
      have hfull := (Reqmgr.reserve_eq_none_iff hres).mp rfl
      exact ⟨hgo,⟨hdata,fun hslot => absurd hslot.2 (not_lt.mpr hfull)⟩,by decide⟩
    · cases hout
      have hslot := not_le.mp (mt (Reqmgr.reserve_eq_none_iff hres).mpr (some_ne_none i))
      refine ⟨hgo,hdata,⟨hclient,hslot⟩,i,submitted i ⟨mread,k,offset⟩ (serversOf groups),?_,
        rfl,rfl,rfl⟩
      rw [modify_modify_eq,getElem?_modify_ite,if_pos rfl,hi]
      rfl
  · cases h
    exact ⟨hgo,⟨hdata,fun hslot => hclient hslot.1⟩,by decide⟩

theorem submitExtent_ok (h : submitExtent env mread k e = some event) :
    EventOk env mread k event := by
  unfold submitExtent at h
  dsimp only at h
  split_ifs at h with hfind hempty
  · cases h
    exact ⟨.inl hfind,hfind⟩
  · cases h
    have hnil := List.isEmpty_iff.mp hempty
    exact ⟨fun hstop => (hstop.resolve_left hfind).1 hnil,fun hdata => hdata hnil⟩
  · have hdata : env.HasData k := fun hnil => hempty (List.isEmpty_iff.mpr hnil)
    obtain ⟨⟨rc,groups⟩,hcreate,h⟩ := bind_eq_some_iff.mp h
    unfold createRemoteReadRequests at hcreate
    split_ifs at hcreate with halloc
    · obtain ⟨gs,-,hpair⟩ := map_eq_some_iff.mp hcreate
      cases hpair
      rw [if_neg (not_not.mpr rfl)] at h
      refine submitTo_ok (fun hstop => ?_) hdata h
      exact Bool.noConfusion (halloc.symm.trans (hstop.resolve_left hfind).2)
    · cases hcreate
      rw [if_pos (by decide)] at h
      cases h
      exact ⟨.inr ⟨hdata,Bool.not_eq_true _ ▸ halloc⟩,by decide⟩

end Extent

/-- What the loop leaves: every extent has its event, unless an error ended the loop. If it
gets to the end, the code is an error if the last submission was rejected, or if there was none
and it was an error before. -/
structure LoopOk (env : SubmitEnv) (mread k len : ℕ) (ret₀ ret : Rc) (events : List SubmitEvent) :
    Prop where
  error_iff : (∀ j, k ≤ j → j < k + len → ¬ env.Stops j) → (ret ≠ Rc.success ↔
    env.EndsRejected k (k + len) ∨ ret₀ ≠ Rc.success ∧ env.NoData k (k + len))
  events_ok : ∀ (n : ℕ) (event : SubmitEvent), events[n]? = some event →
    EventOk env mread (k + n) event
  length_le : events.length ≤ len
  complete : events.length < len → ∃ rc, .failed rc ∈ events
  failed : ∀ rc, .failed rc ∈ events → ret ≠ Rc.success

section Loop
variable {env : SubmitEnv} {mread k len : ℕ} {es : List FileExtent} {event : SubmitEvent}
  {ret ret₀ ret₁ : Rc} {events : List SubmitEvent}

theorem LoopOk.cons (h : LoopOk env mread (k + 1) len ret₁ ret events)
    (hevent : EventOk env mread k event) (hgo : ∀ rc, event ≠ .failed rc)
    (hcode : ∀ E N : Prop, (E ∨ ret₁ ≠ Rc.success ∧ N) ↔
      (E ∨ (env.HasData k ∧ ¬ env.HasSlot k) ∧ N) ∨ ret₀ ≠ Rc.success ∧ ¬ env.HasData k ∧ N) :
    LoopOk env mread k (len + 1) ret₀ ret (event :: events) := by
  constructor
  · intro hall
    have hlt : k < k + 1 + len := by omega
    rw [h.error_iff fun j hj hlt => hall j (by omega) (by omega),hcode,
      show k + (len + 1) = k + 1 + len by omega,endsRejected_cons hlt,noData_cons hlt]
  · intro n x hx
    cases n with
    | zero => exact some.inj hx ▸ hevent
    | succ n =>
      have hok := h.events_ok n x hx
      rwa [show k + 1 + n = k + (n + 1) by omega] at hok
  · exact Nat.succ_le_succ h.length_le
  · intro hlt
    obtain ⟨rc,hrc⟩ := h.complete (Nat.lt_of_succ_lt_succ hlt)
    exact ⟨rc,mem_cons_of_mem _ hrc⟩
  · intro rc hrc
    exact h.failed rc ((mem_cons.mp hrc).resolve_left fun heq => hgo rc heq.symm)

theorem submitLoop_ok (h : submitLoop env mread k es ret₀ = some (ret,events)) :
    LoopOk env mread k es.length ret₀ ret events := by
  induction es generalizing k ret₀ events with
  | nil =>
    cases h
    refine ⟨fun _ => ?_,fun n x hx => (nomatch hx),le_rfl,fun hlt => absurd hlt (lt_irrefl _),
      fun rc hrc => (nomatch hrc)⟩
    constructor
    · exact fun hret => .inr ⟨hret,fun j hj hlt => absurd hlt (not_lt.mpr hj)⟩
    · rintro (⟨i,hi,hlt,-⟩ | ⟨hret,-⟩)
      · exact absurd hlt (not_lt.mpr hi)
      · exact hret
  | cons e es ih =>
    obtain ⟨event,hevent,h⟩ := bind_eq_some_iff.mp h
    have hok := submitExtent_ok hevent
    cases event with
    | failed rc =>
      cases h
      refine ⟨fun hall => absurd hok.1 (hall k le_rfl (by simp)),?_,by simp,
        fun _ => ⟨ret,mem_cons_self⟩,fun _ _ => hok.2⟩
      intro n x hx
      cases n with
      | zero => exact some.inj hx ▸ hok
      | succ n => cases hx
    | noData outcome =>
      obtain ⟨⟨rc',rest⟩,hrest,hout⟩ := map_eq_some_iff.mp h
      cases hout
      exact (ih hrest).cons hok nofun fun E N => by simp [hok.2]
    | accepted rm =>
      obtain ⟨⟨rc',rest⟩,hrest,hout⟩ := map_eq_some_iff.mp h
      cases hout
      exact (ih hrest).cons hok nofun fun E N => by simp [hok.2.1,hok.2.2.1]
    | rejected rc =>
      obtain ⟨⟨rc',rest⟩,hrest,hout⟩ := map_eq_some_iff.mp h
      cases hout
      exact (ih hrest).cons hok nofun fun E N => by simp [hok.2.1.1,hok.2.1.2,hok.2.2]

theorem LoopOk.exists_event (h : LoopOk env mread k len ret₀ ret events)
    (hno : ∀ rc, .failed rc ∉ events) {n : ℕ} (hn : n < len) :
    ∃ event, events[n]? = some event ∧ EventOk env mread (k + n) event ∧ ¬ env.Stops (k + n) := by
  have hlen : len ≤ events.length := not_lt.mp fun hlt => (h.complete hlt).elim hno
  have hget := getElem?_eq_getElem (hn.trans_le hlen)
  have hok := h.events_ok n _ hget
  refine ⟨_,hget,hok,?_⟩
  have hmem := mem_of_getElem? hget
  generalize events[n] = event at hok hmem
  cases event with
  | failed rc => exact absurd hmem (hno rc)
  | noData outcome => exact hok.1
  | accepted rm => exact hok.1
  | rejected rc => exact hok.1

end Loop

/-- The call reports success only for extents that were all handled, and an error for a
rejected submission, exactly if it ends before the last extent, finds a slot for each that has
data, or finds none for the last of these. -/
theorem submission_reported_iff {env : SubmitEnv} {mread : ℕ} {extents : List FileExtent} {ret : Rc}
    {events : List SubmitEvent} (h : submitReadRequest env mread extents = some (ret,events)) :
    ((ret = Rc.success → ∀ k < extents.length,
        ∃ event, events[k]? = some event ∧ Handled mread k event) ∧
      ((∃ rc, .rejected rc ∈ events) → ret ≠ Rc.success)) ↔ env.LastRejected extents.length := by
  have hfailed : ret ≠ Rc.success → env.LastRejected extents.length →
      (((ret = Rc.success → ∀ k < extents.length,
          ∃ event, events[k]? = some event ∧ Handled mread k event) ∧
        ((∃ rc, .rejected rc ∈ events) → ret ≠ Rc.success)) ↔ env.LastRejected extents.length) :=
    fun hret hlast => iff_of_true ⟨fun h => absurd h hret,fun _ => hret⟩ hlast
  unfold submitReadRequest at h
  split_ifs at h with hempty hknown
  · cases h
    rw [List.isEmpty_iff.mp hempty] at hfailed ⊢
    exact hfailed (by decide) fun _ _ ⟨k,hk,_⟩ => absurd hk (Nat.not_lt_zero k)
  · have hloop := submitLoop_ok h
    by_cases hstop : ∃ rc, .failed rc ∈ events
    · obtain ⟨rc,hrc⟩ := hstop
      obtain ⟨n,hn⟩ := mem_iff_getElem?.mp hrc
      have hstops := (hloop.events_ok n _ hn).1
      rw [Nat.zero_add] at hstops
      have hlt := (List.getElem?_eq_some_iff.mp hn).choose.trans_le hloop.length_le
      exact hfailed (hloop.failed rc hrc) fun _ hgo => absurd hstops (hgo n hlt)
    · have hevent : ∀ n < extents.length, ∃ event, events[n]? = some event ∧
          EventOk env mread n event ∧ ¬ env.Stops n := by
        intro n hn
        have hevent := hloop.exists_event (not_exists.mp hstop) hn
        rwa [Nat.zero_add] at hevent
      have hgo : ∀ k < extents.length, ¬ env.Stops k := fun k hk => (hevent k hk).choose_spec.2.2
      have herror := hloop.error_iff fun j _ hj => hgo j (by omega)
      rw [Nat.zero_add,or_iff_left fun hret => hret.1 rfl] at herror
      have hrejected : (∃ rc, .rejected rc ∈ events) ↔
          ∃ k < extents.length, env.HasData k ∧ ¬ env.HasSlot k := by
        constructor
        · rintro ⟨rc,hrc⟩
          obtain ⟨n,hn⟩ := mem_iff_getElem?.mp hrc
          have hok := hloop.events_ok n _ hn
          rw [Nat.zero_add] at hok
          exact ⟨n,(List.getElem?_eq_some_iff.mp hn).choose.trans_le hloop.length_le,hok.2.1⟩
        · rintro ⟨n,hn,hdata,hslot⟩
          obtain ⟨event,hget,hok,-⟩ := hevent n hn
          cases event with
          | failed rc => exact absurd hok.1 (hgo n hn)
          | noData outcome => exact absurd hdata hok.2
          | accepted rm => exact absurd hok.2.2.1 hslot
          | rejected rc => exact ⟨rc,mem_of_getElem? hget⟩
      rw [herror,hrejected]
      refine ⟨fun hkeeps _ _ => hkeeps.2,fun hlast => ⟨fun hret k hk => ?_,hlast hknown hgo⟩⟩
      obtain ⟨event,hget,hok,-⟩ := hevent k hk
      refine ⟨event,hget,?_⟩
      cases event with
      | failed rc => exact absurd hok.1 (hgo k hk)
      | noData outcome => trivial
      | accepted rm => exact hok.2.2.2
      | rejected rc => exact absurd hret (herror.mpr (hlast hknown hgo ⟨k,hk,hok.2.1⟩))
  · cases h
    exact hfailed (by decide) fun hk => absurd hk hknown

def findsFour (reqmgr : ℕ → Reqmgr) (sound : ∀ k, (reqmgr k).Sound) : SubmitEnv where
  clientKnown := true
  findExtents _ := (Rc.success,[⟨9,4,0,0,0,1,0⟩])
  alloc _ := true
  clientAt _ := true
  reqmgr := reqmgr
  sound := sound
  outcome _ := .ok

def fourOnce : FileExtent := ⟨9,0,4⟩

def oneSlotTaken : Reqmgr := ⟨[submitted 0 ⟨4,0,0⟩ [(0,4)]],1,0⟩

theorem oneSlotTaken_sound : oneSlotTaken.Sound := by
  have hsubmit : rmSubmitReadRequest (.init 1) ⟨4,0,0⟩ [(0,4)] =
      some (Rc.success,oneSlotTaken) := by decide
  exact rmSubmitReadRequest_sound (Reqmgr.init_sound 1) hsubmit

/-- The slot is taken when the first request is submitted and free for the second. -/
def slotFreedBetween : SubmitEnv :=
  findsFour (fun k => if k = 0 then oneSlotTaken else .init 1) fun k => by
    split_ifs
    · exact oneSlotTaken_sound
    · exact Reqmgr.init_sound 1

/-- The slot is free for the first request and taken when the second is submitted. -/
def slotTakenBetween : SubmitEnv :=
  findsFour (fun k => if k = 0 then .init 1 else oneSlotTaken) fun k => by
    split_ifs
    · exact Reqmgr.init_sound 1
    · exact oneSlotTaken_sound

def acceptedRejected : List SubmitEvent :=
  [.accepted ⟨[submitted 0 ⟨5,0,0⟩ [(0,4)]],1,0⟩,.rejected Rc.failure]

theorem submission_reported_last_rejected :
    submitReadRequest slotTakenBetween 5 [fourOnce,fourOnce] = some (Rc.failure,acceptedRejected) ∧
    (Rc.failure = Rc.success → ∀ k < 2,
        ∃ event, acceptedRejected[k]? = some event ∧ Handled 5 k event) ∧
      ((∃ rc, .rejected rc ∈ acceptedRejected) → Rc.failure ≠ Rc.success) := by
  have hcall : submitReadRequest slotTakenBetween 5 [fourOnce,fourOnce] =
      some (Rc.failure,acceptedRejected) := by
    decide +kernel
  refine ⟨hcall,(submission_reported_iff hcall).mpr fun _ _ _ => ⟨1,by decide,by decide,?_,?_⟩⟩
  · exact ⟨cons_ne_nil _ _,fun hslot => absurd hslot.2 (by decide)⟩
  · exact fun j hj hlt => absurd hlt (not_lt.mpr hj)

/-- The first of two submissions is rejected, and the call returns success. -/
theorem rejected_submission_reported_as_success :
    submitReadRequest slotFreedBetween 5 [fourOnce,fourOnce] =
      some (Rc.success,[.rejected Rc.failure,.accepted ⟨[submitted 0 ⟨5,1,0⟩ [(0,4)]],1,0⟩]) := by
  decide +kernel

end UnifyFS.ReadSubmissions
