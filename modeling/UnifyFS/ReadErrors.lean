import UnifyFS.ReadSystem

/-!
# Failed data messages and the error code of a completion

Each response is handled in a call of its own, and the code of the call covers the
messages of that response only. The completion of a read carries the code of the
call that handles its last response, so a data message that failed earlier goes
unreported unless the last response has a failed message too. The condition under
which a run reports all of them is exact: `errorsReported_iff`.
-/
namespace UnifyFS.ReadErrors
open ClientRead ChunkReads ReadRequests ReadSystem GuardedRuns List

def reportsSuccess : ToClient → Bool
  | .complete _ _ error => error == Rc.success
  | .data _ _ _ _ => false

def dataFailed (read : ℕ × ℕ) (x : Sent) : Bool :=
  x.msg.isData && x.msg.read == read && x.outcome.rc != Rc.success

/-- A read is reported as successful only if every data message for it has been
delivered without error. -/
def Reported (l : List Sent) : Prop :=
  ∀ x ∈ l, reportsSuccess x.msg = true → ∀ y ∈ l, dataFailed x.msg.read y = false

def ErrorsReported (s : System) : Prop := Reported s.sent

instance (s : System) : Decidable (ErrorsReported s) :=
  inferInstanceAs (Decidable (∀ x ∈ s.sent, _ → ∀ y ∈ s.sent, _))

/-- Some message that is sent for the chunks of a response fails. -/
def ResponseFails (rpc : ℕ → RpcOutcome) (q : ServerReadReq) (resp : Response) : Prop :=
  ∃ rc sents, sendChunks rpc q.toReadTarget 0 resp.resps resp.data Rc.success = some (rc,sents) ∧
    ∃ x ∈ sents.flatten, x.outcome.rc ≠ Rc.success

/-- When the last response of a read is handled, no data message for the read has
failed before, or a message fails now. -/
def lastCovers (s : System) : ReadOp → Prop
  | .handle i j rpc =>
    ∀ q r resp, s.rm.readReqs[i]? = some q → q.remoteReads[j]? = some r → r.resp = some resp →
      r.status = .started → r.totalSz ≠ 0 → q.IsLast j →
      (∀ y ∈ s.sent, dataFailed q.read y = false) ∨ ResponseFails rpc q resp
  | _ => True

def ReportsSuccess (msg : ToClient) : Prop := reportsSuccess msg = true

/-- The completion for a failed chunk carries the error of its log read. -/
theorem not_reportsSuccess_of_chunks {t : ReadTarget} {resps : List ChunkReadResp}
    {msg : ToClient} (h : FromChunks t resps msg) : ¬ ReportsSuccess msg := by
  intro hmsg
  rcases h.2 with hdata | ⟨c,-,hneg,rfl⟩
  · cases msg with
    | data mread readNdx offset bytes => cases hmsg
    | complete mread readNdx error => cases hdata
  · have hzero : -c.readRc = 0 := eq_of_beq hmsg
    omega

section Steps
variable {s u : System} {e : ReadOp}

theorem tracked_step (h : Tracked ReportsSuccess s) (hs : readStep s e = some u) :
    Tracked ReportsSuccess u := by
  apply h.step hs
  intro i j rpc q r resp _ _ _ _ msg
  exact not_reportsSuccess_of_chunks

theorem errorsReported_back (hs : readStep s e = some u) (hu : ErrorsReported u) :
    ErrorsReported s := by
  have hsub := (readStep_sent hs).subset
  intro x hx hzero y hy
  exact hu x (hsub hx) hzero y (hsub hy)

theorem dataFailed_of_success {l : List Sent} (h : ∀ x ∈ l, x.outcome.rc = Rc.success)
    (read : ℕ × ℕ) : ∀ y ∈ l, dataFailed read y = false := by
  intro y hy
  simp [dataFailed,h y hy]

theorem dataFailed_of_read {l : List Sent} {read read' : ℕ × ℕ} (hne : read' ≠ read)
    (h : ∀ x ∈ l, x.msg.read = read') : ∀ y ∈ l, dataFailed read y = false := by
  intro y hy
  simp [dataFailed,h y hy,hne]

theorem reported_append {l l' : List Sent} (hl : Reported l)
    (hold : ∀ x ∈ l, reportsSuccess x.msg = true → ∀ y ∈ l', dataFailed x.msg.read y = false)
    (hnew : ∀ x ∈ l', reportsSuccess x.msg = true →
      (∀ y ∈ l, dataFailed x.msg.read y = false) ∧ ∀ y ∈ l', dataFailed x.msg.read y = false) :
    Reported (l ++ l') := by
  intro x hx hzero
  rw [forall_mem_append]
  rcases mem_append.mp hx with hx | hx
  · exact ⟨hl x hx hzero,hold x hx hzero⟩
  · exact hnew x hx hzero

theorem errorsReported_step (h : Tracked ReportsSuccess s) (he : ErrorsReported s)
    (hg : lastCovers s e) (hs : readStep s e = some u) : ErrorsReported u := by
  rcases readStep_log hs with ⟨hsent,-⟩ | ⟨m,o,-,rfl⟩ | ⟨i,j,rpc,q,ret,q',sent,rfl,hi,huse,hh,rfl⟩
  · rw [ErrorsReported,hsent]
    exact he
  · apply reported_append he
    · intro x _ _ y hy
      rw [mem_singleton.mp hy]
      rfl
    · intro x hx hzero
      rw [mem_singleton.mp hx] at hzero
      cases hzero
  · have hread := rmHandleChunkReadResponses_read hh
    rcases rmHandleChunkReadResponses_cases hh with
      ⟨-,rfl,-⟩ | ⟨r,resp,rc,sents,hr,hresp,hstarted,hsize,hsend,hend⟩
    · apply reported_append he <;> simp
    · have hmem := mem_of_getElem? hi
      have hopen := (h.sound.sound q hmem).isOpen huse hr (by rw [hstarted]; decide)
      have hspec := sendChunks_spec hsend
      apply reported_append he
      · intro x hx hzero
        have hne : q.read ≠ x.msg.read := fun hsame => h.silent q hmem hopen x hx hsame.symm hzero
        exact dataFailed_of_read hne hread
      · intro x hx hzero
        rw [hread x hx]
        rcases hend with ⟨hlast,-,o,rfl⟩ | ⟨-,-,rfl⟩
        · rcases mem_append.mp hx with hx | hx
          · exact absurd hzero (not_reportsSuccess_of_chunks (hspec.1 x hx))
          · -- the completion has the code of the call, so no message of it failed
            rw [mem_singleton.mp hx] at hzero
            have hok := (hspec.2.mp (eq_of_beq hzero)).2
            constructor
            · apply (hg q r resp hi hr hresp hstarted hsize hlast).resolve_right
              rintro ⟨rc',sents',hsend',y,hy,hfailed⟩
              obtain rfl := (Prod.mk.inj (Option.some.inj (hsend.symm.trans hsend'))).2
              exact hfailed (hok y hy)
            · rw [forall_mem_append,forall_mem_singleton]
              exact ⟨dataFailed_of_success hok q.read,rfl⟩
        · exact absurd hzero (not_reportsSuccess_of_chunks (hspec.1 x hx))

theorem lastCovers_of_reported (hs : readStep s e = some u) (hu : ErrorsReported u) :
    lastCovers s e := by
  cases e with
  | submit mread extentOffset servers => trivial
  | noData mread outcome => trivial
  | start => trivial
  | post reqId rank bulkSz resp => trivial
  | release i => trivial
  | handle i j rpc =>
    intro q r resp hi hr hresp hstarted hsize hlast
    by_cases hfails : ResponseFails rpc q resp
    · exact .inr hfails
    · left
      obtain ⟨q₁,ret,q',sent,hi₁,-,hh,rfl⟩ := readStep_handle hs
      obtain rfl := Option.some.inj (hi.symm.trans hi₁)
      rcases rmHandleChunkReadResponses_cases hh with
        ⟨-,-,r₁,hr₁,hnot⟩ | ⟨r₁,resp₁,rc,sents,hr₁,hresp₁,-,-,hsend,hend⟩
      · obtain rfl := Option.some.inj (hr.symm.trans hr₁)
        exact absurd hnot (not_or.mpr ⟨not_not.mpr hstarted,hsize⟩)
      · obtain rfl := Option.some.inj (hr.symm.trans hr₁)
        obtain rfl := Option.some.inj (hresp.symm.trans hresp₁)
        rcases hend with ⟨-,-,o,rfl⟩ | ⟨hnot,-,-⟩
        · have hok : rc = Rc.success := by
            apply (sendChunks_spec hsend).2.mpr
            refine ⟨rfl,fun x hx => ?_⟩
            by_contra hfailed
            exact hfails ⟨rc,sents,hsend,x,hx,hfailed⟩
          intro y hy
          apply hu ⟨.complete q.clientMread q.clientReadNdx rc,o⟩
          · exact mem_append_right _ (mem_append_right _ (mem_singleton_self _))
          · exact beq_iff_eq.mpr hok
          · exact mem_append_left _ hy
        · exact absurd hlast hnot

end Steps

/-- A run reports every failed data message exactly if, whenever the last response of
a read is handled, no data message of the read has failed before or a message of this
response fails. -/
theorem errorsReported_iff {maxReads : ℕ} {client : ClientMread} {es : List ReadOp} {u : System}
    (h : Run readStep (fun _ _ => True) (.init maxReads client) es u) :
    ErrorsReported u ↔ Run readStep lastCovers (.init maxReads client) es u := by
  have hinit := Tracked.init ReportsSuccess maxReads client
  constructor
  · intro hu
    apply (h.strengthen ?_ ?_ ?_ hinit hu).1
    · exact fun s e v hs _ hstep => tracked_step hs hstep
    · exact fun s e v => errorsReported_back
    · exact fun s e v _ => lastCovers_of_reported
  · intro hrun
    have hboth : Tracked ReportsSuccess u ∧ ErrorsReported u := by
      apply hrun.invariant
      · intro s e v hs hg hstep
        exact ⟨tracked_step hs.1 hstep,errorsReported_step hs.1 hs.2 hg hstep⟩
      · exact ⟨hinit,fun x hx => absurd hx not_mem_nil⟩
    exact hboth.2

def oneRead : ClientMread := ⟨1,[.start 1 0 2 [0,0]],0,0⟩

/-- Each of two servers holds one byte of the read; their responses are handled one
after the other, with the given outcomes of all messages. -/
def twoResponses (first second : RpcOutcome) : List ReadOp :=
  [.submit 1 0 [(0,1),(3,1)],.start,
    .post 0 3 33 ⟨[⟨1,1,1,1⟩],[8]⟩,.handle 0 1 fun _ => first,
    .post 0 0 33 ⟨[⟨1,0,1,1⟩],[7]⟩,.handle 0 0 fun _ => second]

/-- A message of the last response fails, and the completion says so. -/
theorem errorsReported_last_lost :
    ∃ u, Run readStep (fun _ _ => True) (.init 4 oneRead) (twoResponses .ok .lost) u ∧
      ErrorsReported u ∧ Run readStep lastCovers (.init 4 oneRead) (twoResponses .ok .lost) u := by
  have hrun : (exec readStep (fun _ _ => true) (.init 4 oneRead) (twoResponses .ok .lost)).any
      (fun u => decide (ErrorsReported u)) = true := by
    decide +kernel
  obtain ⟨u,hu,hreported⟩ := Run.exists_of_exec hrun
  have hany := hu.weaken fun _ _ _ => trivial
  exact ⟨u,hany,of_decide_eq_true hreported,
    (errorsReported_iff hany).mp (of_decide_eq_true hreported)⟩

/-- The data of the first response is lost, that of the second is delivered, and the
read is completed without error. -/
theorem lost_data_unreported :
    ∃ u, Run readStep (fun _ _ => True) (.init 4 oneRead) (twoResponses .lost .ok) u ∧
      (u.sent.map fun x => (x.msg,x.outcome.rc)) =
        [(.data 1 0 1 [8],Rc.errorMargo),(.data 1 0 0 [7],Rc.success),
          (.complete 1 0 Rc.success,Rc.success)] ∧
      ¬ ErrorsReported u := by
  have hrun : (exec readStep (fun _ _ => true) (.init 4 oneRead) (twoResponses .lost .ok)).any
      (fun u => decide ((u.sent.map fun x => (x.msg,x.outcome.rc)) =
        [(.data 1 0 1 [8],Rc.errorMargo),(.data 1 0 0 [7],Rc.success),
          (.complete 1 0 Rc.success,Rc.success)] ∧ ¬ ErrorsReported u)) = true := by
    decide +kernel
  obtain ⟨u,hu,htest⟩ := Run.exists_of_exec hrun
  exact ⟨u,hu.weaken fun _ _ _ => trivial,of_decide_eq_true htest⟩

end UnifyFS.ReadErrors
