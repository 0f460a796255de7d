import UnifyFS.FileDescriptors
import UnifyFS.ListUpdates

/-!
# The access mode of a new descriptor

A descriptor slot is used again and again. `open` sets all flags of the slot, but it tests for
`O_RDONLY`, which is zero, and so every descriptor that it returns is readable. `creat` leaves the
append flag alone, as does the initialisation of the slot when it is given back: after a creation
the flag is the one of the last `open` that used the slot. The opens of a history are recorded with
the slots they got, the last one first.
-/
namespace UnifyFS.DescriptorFlags
open ClientFiles FileDescriptors Posix GuardedRuns ListUpdates List Option

structure Access where
  read : Bool
  write : Bool
  append : Bool
  deriving DecidableEq, Repr

def access (f : FileDesc) : Access := ⟨f.read,f.write,f.append⟩

def accessMode (flags : BitVec 32) : BitVec 32 := flags &&& 3

def requested : Call → Option Access
  | .openFile flags _ => some
      { read := accessMode flags == 0 || accessMode flags == oRdwr
        write := accessMode flags == oWronly || accessMode flags == oRdwr
        append := flags &&& oAppend ≠ 0 }
  | .creat _ => some ⟨false,true,false⟩
  | _ => none

structure History where
  posix : Posix
  opens : List (ℕ × BitVec 32)

def slotOf (lim : Limits) (ret : Ret) : ℕ := (ret.1 - lim.fdLimit).toNat

def recorded (lim : Limits) (ret : Ret) : Call → List (ℕ × BitVec 32)
  | .openFile flags _ => if ret.1 = -1 then [] else [(slotOf lim ret,flags)]
  | _ => []

def step (lim : Limits) (h : History) (c : Call) : Option History :=
  (c.run lim h.posix).map fun (ret,s) => ⟨s,recorded lim ret c ++ h.opens⟩

def start (lim : Limits) (sys : ℕ → Option SysFile) (sysCount : ℕ) : History :=
  ⟨posixClientInit lim sys sysCount,[]⟩

def openedForAppend (opens : List (ℕ × BitVec 32)) (i : ℕ) : Bool :=
  (opens.find? fun o => o.1 == i).any fun o => o.2 &&& oAppend ≠ 0

/-- The calls that give the descriptor the access that was asked for. -/
def Exact (lim : Limits) (opens : List (ℕ × BitVec 32)) (ret : Ret) : Call → Prop
  | .openFile flags _ => accessMode flags = 0 ∨ accessMode flags = oRdwr
  | .creat _ => openedForAppend opens (slotOf lim ret) = false
  | _ => True

/-- The append flags are the same, and a slot on the free stack is one of the table. -/
structure SameAppends (s t : Posix) : Prop where
  appends : t.fds.map FileDesc.append = s.fds.map FileDesc.append
  free : ∀ i ∈ t.freeFds, i ∈ s.freeFds ∨ i < s.fds.length

section Frames
variable {lim : Limits} {s t u : Posix}

theorem SameAppends.of_tables (h : SameTables s t) : SameAppends s t := by
  constructor
  · rw [h.fds]
  · intro i hi
    rw [h.freeFds] at hi
    exact .inl hi

theorem SameAppends.length_eq (h : SameAppends s t) : t.fds.length = s.fds.length := by
  simpa using congrArg List.length h.appends

theorem SameAppends.modify {i : ℕ} {g : FileDesc → FileDesc} (h : SameAppends s t)
    (hfds : u.fds = t.fds.modify i g) (hfree : u.freeFds = t.freeFds)
    (hg : ∀ f, (g f).append = f.append) : SameAppends s u := by
  constructor
  · rw [hfds,map_modify_of_eq hg]
    exact h.appends
  · rw [hfree]
    exact h.free

theorem SameAppends.setDup (h : SameTables s t) (n : ℤ) (i : ℕ) : SameAppends s (setDup t n i) :=
  (SameAppends.of_tables h).modify rfl rfl fun _ => rfl

theorem sysInstall_appends (err : Rc) (f : SysFile) : SameAppends s (s.sysInstall lim err f).2 := by
  rcases sysInstall_cases lim s err f with ⟨e,he⟩ | ⟨n,-,he⟩
  · rw [he]
    exact .of_tables (.refl s)
  · rw [he]
    exact .of_tables ((SameTables.refl s).setSys _ _)

theorem close_appends (fd : ℤ) (sync err : Rc) : SameAppends s (close lim s fd sync err).2 := by
  cases hfd : unifyfsInterceptFd lim s fd with
  | none =>
    rw [show close lim s fd sync err = s.sysClose fd err by rw [close,hfd]]
    exact .of_tables (sysClose_spec s fd err).1
  | some i =>
    cases hf : s.fds[i]? with
    | none =>
      rw [close_of_none sync err hfd hf]
      exact .of_tables (.refl s)
    | some f =>
      obtain ⟨hfds,hfree,-⟩ := clearDup_spec lim
        { s with fds := s.fds.modify i fun f => { f with useCount := f.useCount - 1 } } fd i
      have hrelease := (SameAppends.of_tables (.refl s)).modify hfds hfree fun _ => rfl
      have hlt := (List.getElem?_eq_some_iff.mp hf).choose
      rw [close_of_intercept sync err hfd hf]
      split_ifs
      · exact hrelease
      · exact hrelease
      · have hinit : SameAppends s { releaseFd lim s fd i with
            fds := (releaseFd lim s fd i).fds.modify i FileDesc.init } :=
          hrelease.modify rfl rfl fun _ => rfl
        unfold pushFd
        split_ifs
        · refine ⟨hinit.appends,fun j hj => ?_⟩
          rcases mem_cons.mp hj with rfl | hold
          · exact .inr hlt
          · exact hinit.free j hold
        · exact hinit
      · exact hrelease

theorem dup_appends {fd : ℤ} {err : Rc} {ret : Ret} (h : dup lim s fd err = some (ret,t)) :
    SameAppends s t := by
  rcases dup_cases h with ⟨-,hsys⟩ | ⟨-,hsame,-⟩ | ⟨i,n,u,-,-,-,-,-,-,hsame,-,rfl⟩
  · rcases sysDup_cases lim s fd err with ⟨e,he⟩ | ⟨n,f,-,he⟩
    · rw [hsys] at he
      cases he
      exact .of_tables (.refl s)
    · rw [hsys] at he
      cases he
      exact .of_tables ((SameTables.refl s).setSys _ _)
  · exact .of_tables hsame
  · exact .setDup hsame _ _

theorem dup2_appends {fd desired : ℤ} {err : Rc} {ret : Ret}
    (h : dup2 lim s fd desired err = some (ret,t)) : SameAppends s t := by
  rcases dup2_cases h with ⟨-,-,rfl⟩ | ⟨-,-,hsys⟩ | ⟨-,hsame,-⟩ | ⟨i,u,-,-,-,-,-,-,hsame,-,rfl⟩
  · exact .of_tables (.refl _)
  · rcases sysDup2_cases lim s fd desired err with ⟨e,he⟩ | ⟨f,-,-,-,he⟩
    · rw [hsys] at he
      cases he
      exact .of_tables (.refl s)
    · rw [hsys] at he
      cases he
      exact .of_tables ((SameTables.refl s).setSys _ _)
  · exact .of_tables hsame
  · exact .setDup hsame _ _

end Frames

/-- The append flag of every slot is the one of its last open. -/
structure Recorded (lim : Limits) (h : History) : Prop where
  length : h.posix.fds.length = lim.maxFiles
  free : ∀ i ∈ h.posix.freeFds, i < lim.maxFiles
  append : ∀ i f, h.posix.fds[i]? = some f → f.append = openedForAppend h.opens i

section Runs
variable {lim : Limits} {h h' : History} {c : Call}

theorem start_recorded (lim : Limits) (sys : ℕ → Option SysFile) (sysCount : ℕ) :
    Recorded lim (start lim sys sysCount) where
  length := List.length_replicate
  free i hi := List.mem_range.mp hi
  append i f hf := by
    obtain rfl := eq_of_mem_replicate (mem_of_getElem? hf)
    rfl

theorem Recorded.keep {t : Posix} (hr : Recorded lim h) (ht : SameAppends h.posix t) :
    Recorded lim ⟨t,h.opens⟩ where
  length := ht.length_eq.trans hr.length
  free i hi := by
    rcases ht.free i hi with hold | hnew
    · exact hr.free i hold
    · exact hr.length ▸ hnew
  append i f hf := by
    have hmap := congrArg (·[i]?) ht.appends
    simp only [getElem?_map] at hmap
    rw [show t.fds[i]? = some f from hf,eq_comm] at hmap
    obtain ⟨g,hg,happend⟩ := map_eq_some_iff.mp hmap
    rw [← happend]
    exact hr.append i g hg

theorem Recorded.alloc {i : ℕ} {rest : List ℕ} {set : FileDesc → FileDesc}
    (hr : Recorded lim h) (new : List (ℕ × BitVec 32)) (hfree : h.posix.freeFds = i :: rest)
    (hset : ∀ f, h.posix.fds[i]? = some f → (set f).append = openedForAppend (new ++ h.opens) i)
    (hother : ∀ j, j ≠ i → openedForAppend (new ++ h.opens) j = openedForAppend h.opens j) :
    Recorded lim
      ⟨{ h.posix with freeFds := rest, fds := h.posix.fds.modify i set },new ++ h.opens⟩ where
  length := (List.length_modify ..).trans hr.length
  free j hj := hr.free j (hfree ▸ List.mem_cons_of_mem i hj)
  append j f hf := by
    rw [getElem?_modify_ite] at hf
    split_ifs at hf with hj
    · subst hj
      obtain ⟨g,hg,rfl⟩ := map_eq_some_iff.mp hf
      exact hset g hg
    · exact (hr.append j f hf).trans (hother j (Ne.symm hj)).symm

theorem slotOf_alloc (lim : Limits) (i : ℕ) (err : Rc) :
    slotOf lim ((i : ℤ) + lim.fdLimit,err) = i := by
  unfold slotOf
  omega

theorem openedForAppend_cons (i : ℕ) (flags : BitVec 32) (opens : List (ℕ × BitVec 32)) (j : ℕ) :
    openedForAppend ((i,flags) :: opens) j =
      if i = j then decide (flags &&& oAppend ≠ 0) else openedForAppend opens j := by
  unfold openedForAppend
  by_cases hij : i = j
  · simp [hij]
  · simp [hij]

theorem step_recorded (hr : Recorded lim h) (hstep : step lim h c = some h') : Recorded lim h' := by
  obtain ⟨⟨ret,t⟩,hcall,rfl⟩ := map_eq_some_iff.mp hstep
  cases c with
  | openFile flags opened =>
    have hcall := some.inj hcall
    unfold posixOpen at hcall
    rcases allocFd_cases lim h.posix opened _ with ⟨e,he⟩ | ⟨fid,pos,i,rest,-,hfree,he⟩
    · rw [he] at hcall
      cases hcall
      exact hr
    · rw [he] at hcall
      cases hcall
      have hret : (i : ℤ) + lim.fdLimit ≠ -1 := by omega
      simp only [recorded,if_neg hret,slotOf_alloc]
      apply hr.alloc _ hfree
      · intro f _
        rw [singleton_append,openedForAppend_cons,if_pos rfl]
      · intro j hj
        rw [singleton_append,openedForAppend_cons,if_neg (Ne.symm hj)]
  | creat opened =>
    have hcall := some.inj hcall
    unfold posixCreate at hcall
    rcases allocFd_cases lim h.posix opened _ with ⟨e,he⟩ | ⟨fid,pos,i,rest,-,hfree,he⟩
    · rw [he] at hcall
      cases hcall
      exact hr
    · rw [he] at hcall
      cases hcall
      exact hr.alloc [] hfree (fun f hf => hr.append i f hf) fun _ _ => rfl
  | sysOpen err =>
    obtain rfl := congrArg Prod.snd (some.inj hcall)
    refine hr.keep ⟨?_,?_⟩
    · exact (sysInstall_appends err _).appends
    · exact (sysInstall_appends err _).free
  | dup fd err => exact hr.keep (dup_appends hcall)
  | dup2 fd desired err => exact hr.keep (dup2_appends hcall)
  | close fd sync err =>
    obtain rfl := congrArg Prod.snd (some.inj hcall)
    exact hr.keep (close_appends fd sync err)

theorem accessMode_cases (flags : BitVec 32) :
    (accessMode flags = 0 ∨ accessMode flags = oWronly ∨ accessMode flags = oRdwr ∨
      accessMode flags = 3) ∧ flags &&& oWronly = accessMode flags &&& oWronly ∧
    flags &&& oRdwr = accessMode flags &&& oRdwr := by
  have hle : (accessMode flags).toNat ≤ 3 := by
    rw [accessMode]
    exact Nat.and_le_right
  have hmode : ∀ m : BitVec 32, m.toNat ≤ 3 → m = 0 ∨ m = oWronly ∨ m = oRdwr ∨ m = 3 := by
    intro m hm
    rcases (by omega : m.toNat = 0 ∨ m.toNat = 1 ∨ m.toNat = 2 ∨ m.toNat = 3) with h | h | h | h
    · exact .inl (BitVec.eq_of_toNat_eq h)
    · exact .inr (.inl (BitVec.eq_of_toNat_eq h))
    · exact .inr (.inr (.inl (BitVec.eq_of_toNat_eq h)))
    · exact .inr (.inr (.inr (BitVec.eq_of_toNat_eq h)))
  refine ⟨hmode _ hle,?_,?_⟩
  · rw [accessMode,BitVec.and_assoc]
    rfl
  · rw [accessMode,BitVec.and_assoc]
    rfl

/-- The flags that `open` sets are those of the mode, but for reading. -/
theorem open_access_iff (flags : BitVec 32) (f : FileDesc) (fid pos : ℤ) : some (access { f with
      fid := fid
      pos := pos
      read := flags &&& 0 == 0 || flags &&& oRdwr == oRdwr
      write := flags &&& oWronly == oWronly || flags &&& oRdwr == oRdwr
      append := flags &&& oAppend ≠ 0
      useCount := 1 }) = requested (.openFile flags (.ok (fid,pos))) ↔
    accessMode flags = 0 ∨ accessMode flags = oRdwr := by
  obtain ⟨hmode,hwronly,hrdwr⟩ := accessMode_cases flags
  rw [requested,access,hwronly,hrdwr]
  rcases hmode with hm | hm | hm | hm
  · simp [hm,oWronly,oRdwr]
  · simp [hm,oWronly,oRdwr]
  · simp [hm,oWronly,oRdwr]
  · simp [hm,oWronly,oRdwr]

end Runs

/-- After any history of calls, a descriptor that `open` or `creat` returns has the access that was
asked for if and only if the call is exact. -/
theorem new_descriptor_access_iff (lim : Limits) (sys : ℕ → Option SysFile) (sysCount : ℕ)
    (calls : List Call) (h : History)
    (hrun : Run (step lim) (fun _ _ => True) (start lim sys sysCount) calls h)
    (c : Call) (a : Access) (ha : requested c = some a) (ret : Ret) (s : Posix)
    (hcall : c.run lim h.posix = some (ret,s)) (hok : ret.1 ≠ -1) :
    ∃ f, s.fds[slotOf lim ret]? = some f ∧ (access f = a ↔ Exact lim h.opens ret c) := by
  have hr : Recorded lim h := by
    apply hrun.invariant _ (start_recorded lim sys sysCount)
    intro s e u hs _ hstep
    exact step_recorded hs hstep
  have hslot : ∀ {i : ℕ} {rest : List ℕ}, h.posix.freeFds = i :: rest →
      ∃ f, h.posix.fds[i]? = some f := by
    intro i rest hfree
    have hlt := hr.free i (hfree ▸ mem_cons_self)
    exact ⟨_,getElem?_eq_getElem (hr.length.symm ▸ hlt)⟩
  cases c with
  | openFile flags opened =>
    have hcall := some.inj hcall
    unfold posixOpen at hcall
    rcases allocFd_cases lim h.posix opened _ with ⟨e,he⟩ | ⟨fid,pos,i,rest,-,hfree,he⟩
    · rw [he] at hcall
      cases hcall
      exact absurd rfl hok
    · rw [he] at hcall
      cases hcall
      obtain ⟨f,hf⟩ := hslot hfree
      rw [slotOf_alloc]
      refine ⟨_,by rw [getElem?_modify_ite,if_pos rfl,hf,map_some],?_⟩
      rw [← some_inj,← ha]
      exact open_access_iff flags f fid pos
  | creat opened =>
    have hcall := some.inj hcall
    unfold posixCreate at hcall
    rcases allocFd_cases lim h.posix opened _ with ⟨e,he⟩ | ⟨fid,pos,i,rest,-,hfree,he⟩
    · rw [he] at hcall
      cases hcall
      exact absurd rfl hok
    · rw [he] at hcall
      cases hcall
      obtain ⟨f,hf⟩ := hslot hfree
      rw [slotOf_alloc]
      refine ⟨_,by rw [getElem?_modify_ite,if_pos rfl,hf,map_some],?_⟩
      cases ha
      simp [access,Exact,slotOf_alloc,hr.append i f hf]
  | sysOpen err => cases ha
  | dup fd err => cases ha
  | dup2 fd desired err => cases ha
  | close fd sync err => cases ha

/-- The descriptor that a call returns after a history of calls, if the history can be run and the
call succeeds. -/
def accessAfter (calls : List Call) (c : Call) : Option Access :=
  (exec (step fewFiles) (fun _ _ => true) (start fewFiles (fun _ => none) 0) calls).bind fun h =>
    (c.run fewFiles h.posix).bind fun (ret,s) =>
      if ret.1 = -1 then none else (s.fds[slotOf fewFiles ret]?).map access

/-- A slot that was opened for reading and writing is used again by `creat`. -/
theorem new_descriptor_access_reused : ∃ h ret s f,
    Run (step fewFiles) (fun _ _ => True) (start fewFiles (fun _ => none) 0)
      [openOne,.close 8 Rc.success 0] h ∧
    (Call.creat (.ok (1,0))).run fewFiles h.posix = some (ret,s) ∧
    s.fds[slotOf fewFiles ret]? = some f ∧ access f = ⟨false,true,false⟩ := by
  have hexec : (exec (step fewFiles) (fun _ _ => true) (start fewFiles (fun _ => none) 0)
      [openOne,.close 8 Rc.success 0]).any (fun h =>
        ((Call.creat (.ok (1,0))).run fewFiles h.posix).any fun (ret,_) =>
          decide (ret.1 ≠ -1) && !openedForAppend h.opens (slotOf fewFiles ret)) = true := by
    decide
  obtain ⟨h,hrun,hlast⟩ := Run.exists_of_exec hexec
  rw [Option.any_eq_true] at hlast
  obtain ⟨⟨ret,s⟩,hcall,hexact⟩ := hlast
  have hexact : ret.1 ≠ -1 ∧ openedForAppend h.opens (slotOf fewFiles ret) = false := by
    simpa using hexact
  have hrun := hrun.weaken fun _ _ _ => trivial
  obtain ⟨f,hf,hiff⟩ := new_descriptor_access_iff fewFiles _ _ _ h hrun _ _ rfl ret s hcall hexact.1
  exact ⟨h,ret,s,f,hrun,hcall,hf,hiff.mpr hexact.2⟩

/-- A descriptor for writing only can be read, and a file created on a slot that was open for
appending is in append mode. -/
theorem stale_descriptor_flags :
    requested (.openFile oWronly (.ok (0,0))) = some ⟨false,true,false⟩ ∧
    accessAfter [] (.openFile oWronly (.ok (0,0))) = some ⟨true,true,false⟩ ∧
    requested (.creat (.ok (1,0))) = some ⟨false,true,false⟩ ∧
    accessAfter [.openFile (oRdwr ||| oAppend) (.ok (0,0)),.close 8 Rc.success 0]
      (.creat (.ok (1,0))) = some ⟨false,true,true⟩ := by
  decide

end UnifyFS.DescriptorFlags
