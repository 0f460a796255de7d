import UnifyFS.GuardedRuns
import UnifyFS.ReturnCodes
import Mathlib.Data.List.Perm.Basic

/-!
# Answers to sync requests

A server parks an fsync request of a client on a list of the inode and asks the service manager to
process the list. The service manager takes the whole list, adds the extents, and answers all
requests on it. An unlink removes the inode. It does not look at the list, which is lost with the
requests on it.

One file is followed over the calls of all threads in any order. A lookup of the inode and what is
then done under its lock are one step. There is a service manager and allocations succeed. What
becomes of the extents is the result with which the requests are answered, and that is an
argument.
-/
namespace UnifyFS.PendingSyncs
open GuardedRuns List

/-- The part of `unifyfs_inode` that matters here. There is a list only if a request has been
parked since the last one was taken. -/
structure SyncInode (Q : Type) where
  isLaminated : Bool
  pendingExtents : Option (List Q)
  deriving DecidableEq, Repr

structure SyncState (Q : Type) where
  inode : Option (SyncInode Q)
  /-- handlers that have parked a request and not yet asked the service manager -/
  submitting : ℕ
  /-- queued requests of the type `UNIFYFS_SERVER_PENDING_SYNC` -/
  queued : ℕ
  /-- requests on the list that the service manager has taken, with the answer they will get -/
  taken : List (Q × Rc)
  accepted : List Q
  refused : List (Q × Rc)
  answered : List (Q × Rc)
  /-- requests on lists of destroyed inodes -/
  leaked : List Q
  deriving DecidableEq, Repr

inductive SyncEvent (Q : Type) where
  | create
  | laminate
  | fsync (req : Q)
  | submit
  | pendingSync (ret : Rc)
  | respond
  | unlink
  deriving DecidableEq, Repr

section Machine
variable {Q : Type}

def SyncState.init : SyncState Q := ⟨none,0,0,[],[],[],[],[]⟩

def SyncState.parked (s : SyncState Q) : List Q :=
  s.inode.elim [] fun ino => ino.pendingExtents.getD []

/-- `unifyfs_inode_add_pending_extents`: an error, or the inode with one more request. -/
def unifyfsInodeAddPendingExtents (inode : Option (SyncInode Q)) (req : Q) :
    Except Rc (SyncInode Q) :=
  match inode with
  | none => .error Rc.enoent
  | some ino =>
    if ino.isLaminated then .error Rc.einval
    else .ok { ino with pendingExtents := some (ino.pendingExtents.getD [] ++ [req]) }

/-- `unifyfs_inode_get_pending_extents`: the list, if there is one, and the inode without it. -/
def unifyfsInodeGetPendingExtents (inode : Option (SyncInode Q)) :
    Rc × Option (List Q) × Option (SyncInode Q) :=
  match inode with
  | none => (Rc.enoent,none,none)
  | some ino => (Rc.success,ino.pendingExtents,some { ino with pendingExtents := none })

/-- The first part of `process_fsync_rpc` and `rpc_fsync`. An error is the answer. -/
def processFsyncRpc (s : SyncState Q) (req : Q) : SyncState Q :=
  match unifyfsInodeAddPendingExtents s.inode req with
  | .error rc => { s with refused := s.refused ++ [(req,rc)] }
  | .ok ino => { s with
      inode := some ino
      submitting := s.submitting + 1
      accepted := s.accepted ++ [req] }

/-- `process_pending_sync` up to its answers. -/
def processPendingSync (s : SyncState Q) (ret : Rc) : SyncState Q :=
  let (_,pendingList,inode) := unifyfsInodeGetPendingExtents s.inode
  { s with
    inode := inode
    queued := s.queued - 1
    taken := (pendingList.getD []).map fun req => (req,ret) }

/-- `unifyfs_inode_unlink` with `unifyfs_inode_destroy`. -/
def unifyfsInodeUnlink (s : SyncState Q) : SyncState Q :=
  { s with inode := none, leaked := s.leaked ++ s.parked }

/-- A call or a part of one. The service manager processes one request at a time. -/
def step (s : SyncState Q) : SyncEvent Q → Option (SyncState Q)
  | .create => some { s with inode := some (s.inode.getD ⟨false,none⟩) }
  | .laminate => some { s with inode := s.inode.map fun ino => { ino with isLaminated := true } }
  | .fsync req => some (processFsyncRpc s req)
  | .submit =>
    if s.submitting = 0 then none
    else some { s with submitting := s.submitting - 1, queued := s.queued + 1 }
  | .pendingSync ret =>
    if s.queued = 0 ∨ s.taken ≠ [] then none else some (processPendingSync s ret)
  | .respond =>
    match s.taken with
    | [] => none
    | a :: rest => some { s with taken := rest, answered := s.answered ++ [a] }
  | .unlink => some (unifyfsInodeUnlink s)

/-- No request for the service manager is queued, on its way or being processed. -/
def Quiescent (s : SyncState Q) : Prop := s.submitting = 0 ∧ s.queued = 0 ∧ s.taken = []

instance (s : SyncState Q) [DecidableEq Q] : Decidable (Quiescent s) :=
  inferInstanceAs (Decidable (_ ∧ _ ∧ _))

def KeepsParked (s : SyncState Q) (e : SyncEvent Q) : Prop := e = .unlink → s.parked = []

end Machine

section Runs
variable {Q : Type} {s u : SyncState Q} {e : SyncEvent Q} {es : List (SyncEvent Q)}

theorem processFsyncRpc_cases (s : SyncState Q) (req : Q) :
    (∃ rc, processFsyncRpc s req = { s with refused := s.refused ++ [(req,rc)] }) ∨
    ∃ ino, processFsyncRpc s req = { s with
        inode := some ino
        submitting := s.submitting + 1
        accepted := s.accepted ++ [req] } ∧ ino.pendingExtents.getD [] = s.parked ++ [req] := by
  unfold processFsyncRpc unifyfsInodeAddPendingExtents SyncState.parked
  cases hino : s.inode with
  | none => exact .inl ⟨_,rfl⟩
  | some ino =>
    dsimp only
    by_cases hlam : ino.isLaminated = true
    · rw [if_pos hlam]
      exact .inl ⟨_,rfl⟩
    · rw [if_neg hlam]
      exact .inr ⟨_,rfl,rfl⟩

theorem processPendingSync_places (s : SyncState Q) (ret : Rc) :
    (processPendingSync s ret).parked = [] ∧
      (processPendingSync s ret).taken.map Prod.fst = s.parked := by
  unfold processPendingSync SyncState.parked
  cases s.inode with
  | none => exact ⟨rfl,rfl⟩
  | some ino => exact ⟨rfl,map_map.trans (map_id _)⟩

theorem parked_create (s : SyncState Q) :
    ({ s with inode := some (s.inode.getD ⟨false,none⟩) } : SyncState Q).parked = s.parked := by
  unfold SyncState.parked
  cases s.inode with
  | none => rfl
  | some ino => rfl

theorem parked_laminate (s : SyncState Q) :
    ({ s with inode := s.inode.map fun ino => { ino with isLaminated := true } } :
      SyncState Q).parked = s.parked := by
  unfold SyncState.parked
  cases s.inode with
  | none => rfl
  | some ino => rfl

/-- How the requests of a file move in a step. What is not mentioned stays. -/
inductive Moves (s u : SyncState Q) (e : SyncEvent Q) : Prop
  | stays (he : e ≠ .unlink) (haccepted : u.accepted = s.accepted)
      (hanswered : u.answered = s.answered) (htaken : u.taken = s.taken)
      (hparked : u.parked = s.parked) (hleaked : u.leaked = s.leaked)
      (hcalls : 0 < s.submitting + s.queued → 0 < u.submitting + u.queued)
  | parks (req : Q) (he : e ≠ .unlink) (haccepted : u.accepted = s.accepted ++ [req])
      (hanswered : u.answered = s.answered) (htaken : u.taken = s.taken)
      (hparked : u.parked = s.parked ++ [req]) (hleaked : u.leaked = s.leaked)
      (hcalls : 0 < u.submitting + u.queued)
  | takes (he : e ≠ .unlink) (haccepted : u.accepted = s.accepted)
      (hanswered : u.answered = s.answered) (hidle : s.taken = [])
      (htaken : u.taken.map Prod.fst = s.parked) (hparked : u.parked = [])
      (hleaked : u.leaked = s.leaked)
  | answers (a : Q × Rc) (he : e ≠ .unlink) (haccepted : u.accepted = s.accepted)
      (hanswered : u.answered = s.answered ++ [a]) (htaken : s.taken = a :: u.taken)
      (hparked : u.parked = s.parked) (hleaked : u.leaked = s.leaked)
      (hcalls : u.submitting + u.queued = s.submitting + s.queued)
  | leaks (he : e = .unlink) (haccepted : u.accepted = s.accepted)
      (hanswered : u.answered = s.answered) (htaken : u.taken = s.taken)
      (hparked : u.parked = []) (hleaked : u.leaked = s.leaked ++ s.parked)

theorem step_moves (h : step s e = some u) : Moves s u e := by
  cases e with
  | create =>
    cases h
    exact .stays nofun rfl rfl rfl (parked_create s) rfl id
  | laminate =>
    cases h
    exact .stays nofun rfl rfl rfl (parked_laminate s) rfl id
  | fsync req =>
    cases h
    rcases processFsyncRpc_cases s req with ⟨rc,heq⟩ | ⟨ino,heq,hparked⟩
    · rw [heq]
      exact .stays nofun rfl rfl rfl rfl rfl id
    · rw [heq]
      refine .parks req nofun rfl rfl rfl hparked rfl ?_
      change 0 < s.submitting + 1 + s.queued
      omega
  | submit =>
    rw [step] at h
    split_ifs at h with hzero
    cases h
    refine .stays nofun rfl rfl rfl rfl rfl fun _ => ?_
    change 0 < s.submitting - 1 + (s.queued + 1)
    omega
  | pendingSync ret =>
    rw [step] at h
    split_ifs at h with hidle
    cases h
    obtain ⟨hparked,htaken⟩ := processPendingSync_places s ret
    have hnil : s.taken = [] := by
      by_contra hne
      exact hidle (.inr hne)
    exact .takes nofun rfl rfl hnil htaken hparked rfl
  | respond =>
    rw [step] at h
    split at h
    · cases h
    · next a rest htaken =>
      cases h
      exact .answers a nofun rfl rfl htaken rfl rfl rfl
  | unlink =>
    cases h
    exact .leaks rfl rfl rfl rfl rfl rfl

/-- An accepted request is at exactly one place, and a parked one will be looked for. -/
structure Kept (s : SyncState Q) : Prop where
  places : s.accepted.Perm
    (s.answered.map Prod.fst ++ s.taken.map Prod.fst ++ s.parked ++ s.leaked)
  noticed : s.parked ≠ [] → 0 < s.submitting + s.queued

theorem init_kept : Kept (SyncState.init : SyncState Q) := ⟨.refl _,fun h => absurd rfl h⟩

theorem Kept.step (hs : Kept s) (h : step s e = some u) : Kept u := by
  have hplaces := hs.places
  cases step_moves h with
  | stays _ haccepted hanswered htaken hparked hleaked hcalls =>
    refine ⟨?_,fun hne => hcalls (hs.noticed (hparked ▸ hne))⟩
    rw [haccepted,hanswered,htaken,hparked,hleaked]
    exact hplaces
  | parks req _ haccepted hanswered htaken hparked hleaked hcalls =>
    refine ⟨?_,fun _ => hcalls⟩
    rw [haccepted,hanswered,htaken,hparked,hleaked]
    refine (hplaces.append_right [req]).trans ?_
    simp only [append_assoc]
    exact .append_left _ (.append_left _ (.append_left _ perm_append_comm))
  | takes _ haccepted hanswered hidle htaken hparked hleaked =>
    refine ⟨?_,fun hne => absurd hparked hne⟩
    rw [hidle,map_nil,append_nil] at hplaces
    rw [haccepted,hanswered,htaken,hparked,hleaked,append_nil]
    exact hplaces
  | answers a _ haccepted hanswered htaken hparked hleaked hcalls =>
    refine ⟨?_,fun hne => hcalls ▸ hs.noticed (hparked ▸ hne)⟩
    rw [htaken] at hplaces
    rw [haccepted,hanswered,hparked,hleaked,map_append,append_assoc (s.answered.map _)]
    exact hplaces
  | leaks _ haccepted hanswered htaken hparked hleaked =>
    refine ⟨?_,fun hne => absurd hparked hne⟩
    rw [haccepted,hanswered,htaken,hparked,hleaked,append_nil]
    refine hplaces.trans ?_
    rw [append_assoc]
    exact .append_left _ perm_append_comm

theorem step_leaked (h : step s e = some u) :
    e ≠ .unlink ∧ u.leaked = s.leaked ∨ e = .unlink ∧ u.leaked = s.leaked ++ s.parked := by
  cases step_moves h with
  | stays he _ _ _ _ hleaked _ => exact .inl ⟨he,hleaked⟩
  | parks _ he _ _ _ _ hleaked _ => exact .inl ⟨he,hleaked⟩
  | takes he _ _ _ _ _ hleaked => exact .inl ⟨he,hleaked⟩
  | answers _ he _ _ _ _ hleaked _ => exact .inl ⟨he,hleaked⟩
  | leaks he _ _ _ _ hleaked => exact .inr ⟨he,hleaked⟩

theorem leaked_eq_nil_iff (h : step s e = some u) :
    u.leaked = [] ↔ s.leaked = [] ∧ KeepsParked s e := by
  rcases step_leaked h with ⟨he,hleaked⟩ | ⟨rfl,hleaked⟩
  · rw [hleaked]
    exact ⟨fun hnil => ⟨hnil,fun hunlink => absurd hunlink he⟩,And.left⟩
  · rw [hleaked,append_eq_nil_iff]
    exact and_congr_right fun _ => ⟨fun hparked _ => hparked,fun hkeeps => hkeeps rfl⟩

theorem run_leaked_iff (h : Run step (fun _ _ => True) SyncState.init es u) :
    u.leaked = [] ↔ Run step KeepsParked SyncState.init es u := by
  constructor
  · intro hnil
    exact (h.strengthen (I := fun _ => True)
      (fun _ _ _ _ _ _ => trivial) (fun s e u hstep hu => ((leaked_eq_nil_iff hstep).mp hu).1)
      (fun s e u _ hstep hu => ((leaked_eq_nil_iff hstep).mp hu).2) trivial hnil).1
  · intro hrun
    exact hrun.invariant (I := fun s => s.leaked = [])
      (fun s e u hs hg hstep => (leaked_eq_nil_iff hstep).mpr ⟨hs,hg⟩) rfl

/-- When no request for the service manager is left, the requests that have been answered are
those that have been accepted, each as often, if and only if no unlink has found parked
requests. -/
theorem answered_perm_accepted_iff (h : Run step (fun _ _ => True) SyncState.init es u)
    (hu : Quiescent u) :
    (u.answered.map Prod.fst).Perm u.accepted ↔ Run step KeepsParked SyncState.init es u := by
  have hkept := h.invariant (fun _ _ _ hs _ hstep => hs.step hstep) init_kept
  obtain ⟨hsubmitting,hqueued,htaken⟩ := hu
  have hparked : u.parked = [] := by
    by_contra hne
    have := hkept.noticed hne
    omega
  have hplaces := hkept.places
  rw [hparked,htaken,map_nil,append_nil,append_nil] at hplaces
  rw [← run_leaked_iff h]
  constructor
  · intro hperm
    have hlen := (hperm.trans hplaces).length_eq
    rw [length_append] at hlen
    exact eq_nil_of_length_eq_zero (by omega)
  · intro hnil
    rw [hnil,append_nil] at hplaces
    exact hplaces.symm

/-- What is left to do. Each parked request is taken and answered. -/
def SyncState.work (s : SyncState Q) : ℕ :=
  2 * s.submitting + s.queued + s.taken.length + 2 * s.parked.length

theorem exists_step (h : ¬ Quiescent s) :
    ∃ e u, KeepsParked s e ∧ step s e = some u ∧ u.work < s.work := by
  by_cases hsubmitting : s.submitting = 0
  · cases htaken : s.taken with
    | cons a rest =>
      refine ⟨.respond,{ s with taken := rest, answered := s.answered ++ [a] },nofun,?_,?_⟩
      · rw [step,htaken]
      · rw [SyncState.work,SyncState.work,htaken]
        exact Nat.add_lt_add_right (Nat.add_lt_add_left (Nat.lt_succ_self _) _) _
    | nil =>
      have hqueued : s.queued ≠ 0 := fun hqueued => h ⟨hsubmitting,hqueued,htaken⟩
      obtain ⟨hparked,hmoved⟩ := processPendingSync_places s Rc.success
      have hlen := congrArg List.length hmoved
      rw [length_map] at hlen
      refine ⟨.pendingSync Rc.success,processPendingSync s Rc.success,nofun,?_,?_⟩
      · rw [step,if_neg (by simp [hqueued,htaken])]
      · rw [SyncState.work,SyncState.work,hparked,hlen]
        change 2 * s.submitting + (s.queued - 1) + s.parked.length + 2 * 0 < _
        omega
  · refine ⟨.submit,{ s with submitting := s.submitting - 1, queued := s.queued + 1 },nofun,?_,?_⟩
    · rw [step,if_neg hsubmitting]
    · change 2 * (s.submitting - 1) + (s.queued + 1) + s.taken.length + 2 * s.parked.length < s.work
      rw [SyncState.work]
      omega

theorem exists_drain (s : SyncState Q) : ∃ es u, Run step KeepsParked s es u ∧ Quiescent u := by
  induction hwork : s.work using Nat.strongRecOn generalizing s with
  | _ work ih =>
    by_cases hquiet : Quiescent s
    · exact ⟨[],s,.nil s,hquiet⟩
    · obtain ⟨e,v,hkeeps,hstep,hlt⟩ := exists_step hquiet
      obtain ⟨es,u,hrun,hu⟩ := ih v.work (hwork ▸ hlt) v rfl
      exact ⟨e :: es,u,.cons hkeeps hstep hrun,hu⟩

end Runs

/-- The file is unlinked while a request waits for the service manager. -/
def unlinkedEarly : List (SyncEvent ℕ) :=
  [.create,.fsync 1,.submit,.unlink,.pendingSync Rc.success]

theorem answered_unlinked_early : ∃ u : SyncState ℕ,
    Run step (fun _ _ => True) SyncState.init unlinkedEarly u ∧ Quiescent u ∧ u.accepted = [1] ∧
      u.answered = [] := by
  have hexec : (exec step (fun _ _ => true) SyncState.init unlinkedEarly).any (fun u =>
      decide (Quiescent u ∧ u.accepted = [1] ∧ u.answered = [])) = true := by decide
  obtain ⟨u,hrun,hu⟩ := Run.exists_of_exec hexec
  exact ⟨u,hrun.weaken fun _ _ _ => trivial,of_decide_eq_true hu⟩

/-- Two requests are answered together. The second call of the service manager finds no inode. -/
def unlinkedLate : List (SyncEvent ℕ) :=
  [.create,.fsync 1,.fsync 2,.submit,.pendingSync Rc.success,.submit,.respond,.respond,.unlink,
    .pendingSync Rc.success]

theorem answered_unlinked_late : ∃ u : SyncState ℕ,
    Run step (fun _ _ => True) SyncState.init unlinkedLate u ∧ Quiescent u ∧
      u.accepted = [1,2] ∧
      ((u.answered.map Prod.fst).Perm u.accepted ↔
        Run step KeepsParked SyncState.init unlinkedLate u) := by
  have hexec : (exec step (fun _ _ => true) SyncState.init unlinkedLate).any (fun u =>
      decide (Quiescent u ∧ u.accepted = [1,2])) = true := by decide
  obtain ⟨u,hrun,hu⟩ := Run.exists_of_exec hexec
  have hfree := hrun.weaken fun _ _ _ => trivial
  obtain ⟨hquiet,haccepted⟩ := of_decide_eq_true hu
  exact ⟨u,hfree,hquiet,haccepted,answered_perm_accepted_iff hfree hquiet⟩

end UnifyFS.PendingSyncs
