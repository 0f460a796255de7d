import UnifyFS.ClientFiles

/-!
# File descriptors of the POSIX wrappers

The wrappers of `open`, `creat`, `dup`, `dup2` and `close`. A descriptor number from the
system's limit on is the index of an internal descriptor, moved up by the limit. A number
below it belongs to the system, unless the table of duplicates maps it to an internal
descriptor; a duplicate made by `dup` reserves its number with a socket.

The system has a table of its own: which of its numbers are open, and for which file. A
call that needs a new number gets the lowest one that is not open. The system calls may
fail on their own account, with an error that is an argument here, as are the results of
`unifyfs_fid_open` and `unifyfs_fid_sync_extents`. The library is initialised. A wrapper
that would access the table of duplicates out of bounds has no result.
-/
namespace UnifyFS.FileDescriptors
open ClientFiles List

/-- The limit on open files and the size of the tables, `UNIFYFS_CLIENT_MAX_FILES`. All
descriptor numbers are of type `int`. -/
structure Limits where
  fdLimit : ℕ
  maxFiles : ℕ
  fits : fdLimit + maxFiles ≤ 2 ^ 31

structure FileDesc where
  pos : ℤ
  read : Bool
  write : Bool
  append : Bool
  fid : ℤ
  useCount : ℤ
  deriving DecidableEq, Repr

/-- `unifyfs_fd_init`, which leaves the append flag as it is. -/
def FileDesc.init (f : FileDesc) : FileDesc :=
  { f with fid := -1, pos := -1, read := false, write := false, useCount := 0 }

structure SysFile where
  id : ℕ
  isSocket : Bool
  deriving DecidableEq, Repr

structure Posix where
  fds : List FileDesc
  /-- the table of duplicates; a free entry is `none` -/
  dupFds : List (Option ℕ)
  /-- the stack of free descriptors, from its top down -/
  freeFds : List ℕ
  /-- what the system has open -/
  sys : ℕ → Option SysFile
  /-- how many files the system has opened so far -/
  sysCount : ℕ

def posixClientInit (lim : Limits) (sys : ℕ → Option SysFile) (sysCount : ℕ) : Posix where
  fds := List.replicate lim.maxFiles ⟨-1,false,false,false,-1,0⟩
  dupFds := List.replicate lim.maxFiles none
  freeFds := List.range lim.maxFiles
  sys := sys
  sysCount := sysCount

namespace Posix

def sysFile (s : Posix) (fd : ℤ) : Option SysFile := if fd < 0 then none else s.sys fd.toNat

def setSys (s : Posix) (fd : ℤ) (f : Option SysFile) : Posix :=
  { s with sys := Function.update s.sys fd.toNat f }

def lowestFree (lim : Limits) (s : Posix) : Option ℕ :=
  (List.range lim.fdLimit).find? fun n => (s.sys n).isNone

abbrev Ret := ℤ × Rc

/-- A file is opened on the lowest free number. -/
def sysInstall (lim : Limits) (s : Posix) (err : Rc) (f : SysFile) : Ret × Posix :=
  if err ≠ 0 then ((-1,err),s)
  else
    match s.lowestFree lim with
    | none => ((-1,Rc.emfile),s)
    | some n => ((n,0),s.setSys n (some f))

def sysOpen (lim : Limits) (s : Posix) (err : Rc) (isSocket : Bool) : Ret × Posix :=
  sysInstall lim { s with sysCount := s.sysCount + 1 } err ⟨s.sysCount,isSocket⟩

def sysDup (lim : Limits) (s : Posix) (fd : ℤ) (err : Rc) : Ret × Posix :=
  match s.sysFile fd with
  | none => ((-1,Rc.ebadf),s)
  | some f => sysInstall lim s err f

/-- The two numbers are different here. -/
def sysDup2 (lim : Limits) (s : Posix) (fd desired : ℤ) (err : Rc) : Ret × Posix :=
  match s.sysFile fd with
  | none => ((-1,Rc.ebadf),s)
  | some f =>
    if desired < 0 ∨ (lim.fdLimit : ℤ) ≤ desired then ((-1,Rc.ebadf),s)
    else if err ≠ 0 then ((-1,err),s)
    else ((desired,0),s.setSys desired (some f))

/-- The number is free afterwards even if an error is reported. -/
def sysClose (s : Posix) (fd : ℤ) (err : Rc) : Ret × Posix :=
  match s.sysFile fd with
  | none => ((-1,Rc.ebadf),s)
  | some _ => ((if err = 0 then (0,0) else (-1,err)),s.setSys fd none)

/-- The number is not open, or closing it succeeds. -/
def Closes (s : Posix) (fd : ℤ) (err : Rc) : Prop :=
  ¬ ((s.sysClose fd err).1.2 ≠ 0 ∧ (s.sysClose fd err).1.2 ≠ Rc.ebadf)

end Posix

section Wrappers
variable (lim : Limits) (s : Posix)

/-- `unifyfs_intercept_fd`, with the internal descriptor if there is one. -/
def unifyfsInterceptFd (fd : ℤ) : Option ℕ :=
  if fd < 0 then none
  else if fd < lim.fdLimit then
    if fd < lim.maxFiles then s.dupFds[fd.toNat]?.join else none
  else some (fd - lim.fdLimit).toNat

/-- An internal descriptor is taken from the stack for a file that was opened. -/
def allocFd (opened : Except Rc (ℤ × ℤ)) (set : ℤ → ℤ → FileDesc → FileDesc) :
    Posix.Ret × Posix :=
  match opened with
  | .error rc => ((-1,Rc.errno rc),s)
  | .ok (fid,pos) =>
    match s.freeFds with
    | [] => ((-1,Rc.emfile),s)
    | fd :: rest =>
      ((fd + lim.fdLimit,0),{ s with freeFds := rest, fds := s.fds.modify fd (set fid pos) })

/-- `O_RDONLY` is zero, so every descriptor can be read. -/
def posixOpen (flags : BitVec 32) (opened : Except Rc (ℤ × ℤ)) : Posix.Ret × Posix :=
  allocFd lim s opened fun fid pos f => { f with
    fid := fid
    pos := pos
    read := flags &&& 0 == 0 || flags &&& oRdwr == oRdwr
    write := flags &&& oWronly == oWronly || flags &&& oRdwr == oRdwr
    append := flags &&& oAppend ≠ 0
    useCount := 1 }

def posixCreate (opened : Except Rc (ℤ × ℤ)) : Posix.Ret × Posix :=
  allocFd lim s opened fun fid pos f =>
    { f with fid := fid, pos := pos, read := false, write := true, useCount := 1 }

def setDup (newfd : ℤ) (fd : ℕ) : Posix :=
  { s with
    dupFds := s.dupFds.set newfd.toNat (some fd)
    fds := s.fds.modify fd fun f => { f with useCount := f.useCount + 1 } }

def dup (fd : ℤ) (err : Rc) : Option (Posix.Ret × Posix) :=
  match unifyfsInterceptFd lim s fd with
  | none => some (s.sysDup lim fd err)
  | some i =>
    match s.fds[i]? with
    | none => some ((-1,Rc.ebadf),s)
    | some _ =>
      let r := s.sysOpen lim err true
      if r.1.1 = -1 then some ((-1,r.1.2),r.2)
      else
        match s.dupFds[r.1.1.toNat]? with
        | none => none
        | some none => some ((r.1.1,0),setDup r.2 r.1.1 i)
        | some (some _) => some ((-1,Rc.emfile),(r.2.sysClose r.1.1 0).2)

def dup2 (fd desired : ℤ) (err : Rc) : Option (Posix.Ret × Posix) :=
  if fd = desired then some ((desired,0),s)
  else
    match unifyfsInterceptFd lim s fd with
    | none => some (s.sysDup2 lim fd desired err)
    | some i =>
      match s.fds[i]? with
      | none => some ((-1,Rc.ebadf),s)
      | some _ =>
        let r := s.sysClose desired err
        if r.1.2 ≠ 0 ∧ r.1.2 ≠ Rc.ebadf then some ((-1,Rc.eio),r.2)
        else if desired < 0 then none
        else
          match s.dupFds[desired.toNat]? with
          | none => none
          | some none => some ((desired,0),setDup r.2 desired i)
          | some (some _) => some ((-1,Rc.emfile),r.2)

/-- A number in the table of duplicates is given up, with the socket behind it. -/
def clearDup (oldfd : ℤ) (fd : ℕ) : Posix :=
  if oldfd < lim.maxFiles ∧ s.dupFds[oldfd.toNat]? = some (some fd) then
    let s' := if (s.sysFile oldfd).any SysFile.isSocket then (s.sysClose oldfd 0).2 else s
    { s' with dupFds := s'.dupFds.set oldfd.toNat none }
  else s

/-- The first half of `close`, before any check: the descriptor is used once less, and the
number is no duplicate. -/
def releaseFd (oldfd : ℤ) (fd : ℕ) : Posix :=
  clearDup lim
    { s with fds := s.fds.modify fd fun f => { f with useCount := f.useCount - 1 } } oldfd fd

def pushFd (fd : ℕ) : Posix :=
  if s.freeFds.length < lim.maxFiles then { s with freeFds := fd :: s.freeFds } else s

/-- `sync` is what a sync of the file returns. -/
def close (oldfd : ℤ) (sync err : Rc) : Posix.Ret × Posix :=
  match unifyfsInterceptFd lim s oldfd with
  | none => s.sysClose oldfd err
  | some fd =>
    match s.fds[fd]? with
    | none => ((-1,Rc.ebadf),s)
    | some f =>
      let s := releaseFd lim s oldfd fd
      if f.fid < 0 then ((-1,Rc.ebadf),s)
      else if f.write = true ∧ sync ≠ Rc.success then ((-1,Rc.errno sync),s)
      else if f.useCount - 1 = 0 then
        ((0,0),pushFd lim { s with fds := s.fds.modify fd FileDesc.init } fd)
      else ((0,0),s)

end Wrappers

/-- The calls of an application. The path of an open or a creation is in the mount point
or belongs to the system. -/
inductive Call where
  | openFile (flags : BitVec 32) (opened : Except Rc (ℤ × ℤ))
  | creat (opened : Except Rc (ℤ × ℤ))
  | sysOpen (err : Rc)
  | dup (fd : ℤ) (err : Rc)
  | dup2 (fd desired : ℤ) (err : Rc)
  | close (fd : ℤ) (sync err : Rc)

def Call.run (lim : Limits) (s : Posix) : Call → Option (Posix.Ret × Posix)
  | .openFile flags opened => some (posixOpen lim s flags opened)
  | .creat opened => some (posixCreate lim s opened)
  | .sysOpen err => some (s.sysOpen lim err false)
  | .dup fd err => FileDescriptors.dup lim s fd err
  | .dup2 fd desired err => FileDescriptors.dup2 lim s fd desired err
  | .close fd sync err => some (FileDescriptors.close lim s fd sync err)

def runCalls (lim : Limits) (s : Posix) (calls : List Call) : Option Posix :=
  calls.foldlM (fun s c => (c.run lim s).map Prod.snd) s

def fewFiles : Limits := ⟨8,4,by decide⟩

def threeOpen : Posix :=
  posixClientInit fewFiles (fun n => if n < 3 then some ⟨n,false⟩ else none) 3

def openOne : Call := .openFile oRdwr (.ok (0,0))

namespace Posix
variable {lim : Limits} {s : Posix}

@[simp] theorem setSys_dupFds (fd : ℤ) (f : Option SysFile) :
    (s.setSys fd f).dupFds = s.dupFds := rfl

theorem sysFile_setSys {fd : ℤ} (h : 0 ≤ fd) (f : Option SysFile) (d : ℤ) :
    (s.setSys fd f).sysFile d = if d = fd then f else s.sysFile d := by
  unfold sysFile
  by_cases hd : d < 0
  · rw [if_pos hd,if_pos hd,if_neg (by omega)]
  · rw [if_neg hd,if_neg hd]
    by_cases heq : d = fd
    · rw [heq,if_pos rfl]
      exact Function.update_self ..
    · rw [if_neg heq]
      exact Function.update_of_ne (by omega) ..

theorem lowestFree_spec {n : ℕ} (h : s.lowestFree lim = some n) :
    n < lim.fdLimit ∧ s.sysFile n = none := by
  have hlt := mem_range.mp (mem_of_find?_eq_some h)
  have hnone := find?_some h
  rw [Option.isNone_iff_eq_none] at hnone
  exact ⟨hlt,by rw [sysFile]; exact hnone⟩

theorem sysInstall_cases (lim : Limits) (s : Posix) (err : Rc) (f : SysFile) :
    (∃ e, s.sysInstall lim err f = ((-1,e),s)) ∨ ∃ n : ℕ, (err = 0 ∧ s.lowestFree lim = some n) ∧
      s.sysInstall lim err f = (((n : ℤ),0),s.setSys n (some f)) := by
  unfold sysInstall
  split
  · exact .inl ⟨err,rfl⟩
  · next herr =>
    cases hn : s.lowestFree lim with
    | none => exact .inl ⟨Rc.emfile,rfl⟩
    | some n => exact .inr ⟨n,⟨not_not.mp herr,rfl⟩,rfl⟩

theorem sysOpen_cases (lim : Limits) (s : Posix) (err : Rc) (isSocket : Bool) :
    ∃ t : Posix, t.fds = s.fds ∧ t.dupFds = s.dupFds ∧ t.freeFds = s.freeFds ∧ t.sys = s.sys ∧
    ((∃ e, s.sysOpen lim err isSocket = ((-1,e),t)) ∨
      ∃ n : ℕ, (err = 0 ∧ s.lowestFree lim = some n) ∧
      s.sysOpen lim err isSocket = (((n : ℤ),0),t.setSys n (some ⟨s.sysCount,isSocket⟩))) :=
  ⟨{ s with sysCount := s.sysCount + 1 },rfl,rfl,rfl,rfl,sysInstall_cases lim _ err _⟩

theorem sysDup_cases (lim : Limits) (s : Posix) (fd : ℤ) (err : Rc) :
    (∃ e, s.sysDup lim fd err = ((-1,e),s)) ∨ ∃ (n : ℕ) (f : SysFile), s.lowestFree lim = some n ∧
      s.sysDup lim fd err = (((n : ℤ),0),s.setSys n (some f)) := by
  unfold sysDup
  cases s.sysFile fd with
  | none => exact .inl ⟨Rc.ebadf,rfl⟩
  | some f =>
    cases sysInstall_cases lim s err f with
    | inl h => exact .inl h
    | inr h =>
      obtain ⟨n,⟨-,hn⟩,he⟩ := h
      exact .inr ⟨n,f,hn,he⟩

theorem sysDup2_cases (lim : Limits) (s : Posix) (fd desired : ℤ) (err : Rc) :
    (∃ e, s.sysDup2 lim fd desired err = ((-1,e),s)) ∨
    ∃ f : SysFile, s.sysFile fd = some f ∧ 0 ≤ desired ∧ desired < lim.fdLimit ∧
      s.sysDup2 lim fd desired err = ((desired,0),s.setSys desired (some f)) := by
  unfold sysDup2
  cases s.sysFile fd with
  | none => exact .inl ⟨Rc.ebadf,rfl⟩
  | some f =>
    dsimp only
    split
    · exact .inl ⟨Rc.ebadf,rfl⟩
    · split
      · exact .inl ⟨err,rfl⟩
      · exact .inr ⟨f,rfl,by omega,by omega,rfl⟩

theorem sysClose_cases (s : Posix) (fd : ℤ) (err : Rc) :
    s.sysFile fd = none ∧ s.sysClose fd err = ((-1,Rc.ebadf),s) ∨
    ∃ ret, 0 ≤ fd ∧ (err = 0 → ret = (0,0)) ∧ s.sysClose fd err = (ret,s.setSys fd none) := by
  unfold sysClose
  cases hfile : s.sysFile fd with
  | none => exact .inl ⟨rfl,rfl⟩
  | some f =>
    unfold sysFile at hfile
    split at hfile
    · cases hfile
    · exact .inr ⟨_,by omega,fun h => if_pos h,rfl⟩

structure SameTables (s t : Posix) : Prop where
  fds : t.fds = s.fds
  dupFds : t.dupFds = s.dupFds
  freeFds : t.freeFds = s.freeFds

theorem SameTables.refl (s : Posix) : SameTables s s := ⟨rfl,rfl,rfl⟩

theorem SameTables.setSys {t : Posix} (h : SameTables s t) (fd : ℤ) (f : Option SysFile) :
    SameTables s (t.setSys fd f) := ⟨h.fds,h.dupFds,h.freeFds⟩

theorem sysClose_spec (s : Posix) (fd : ℤ) (err : Rc) :
    SameTables s (s.sysClose fd err).2 ∧ ∀ d, (s.sysClose fd err).2.sysFile d =
      if d = fd then none else s.sysFile d := by
  rcases sysClose_cases s fd err with ⟨hnone,h⟩ | ⟨ret,hfd,-,h⟩
  · rw [h]
    refine ⟨.refl s,fun d => ?_⟩
    split
    · next heq => rw [heq,hnone]
    · rfl
  · rw [h]
    exact ⟨(SameTables.refl s).setSys fd none,sysFile_setSys hfd none⟩

end Posix

section Wrappers
open Posix
variable {lim : Limits} {s s' : Posix} {ret : Posix.Ret} {d oldfd : ℤ} {fd : ℕ}

theorem unifyfsInterceptFd_congr (lim : Limits) (h : s'.dupFds[d.toNat]? = s.dupFds[d.toNat]?) :
    unifyfsInterceptFd lim s' d = unifyfsInterceptFd lim s d := by
  unfold unifyfsInterceptFd
  rw [h]

theorem unifyfsInterceptFd_of_lt (hnonneg : 0 ≤ d) (hmax : d < lim.maxFiles)
    (hlt : d < lim.fdLimit) : unifyfsInterceptFd lim s d = s.dupFds[d.toNat]?.join := by
  unfold unifyfsInterceptFd
  rw [if_neg (by omega),if_pos hlt,if_pos hmax]

theorem unifyfsInterceptFd_of_le (hnonneg : 0 ≤ d) (hle : (lim.fdLimit : ℤ) ≤ d) :
    unifyfsInterceptFd lim s d = some (d - lim.fdLimit).toNat := by
  unfold unifyfsInterceptFd
  rw [if_neg (by omega),if_neg (by omega)]

theorem dup_cases {fd : ℤ} {err : Rc} (h : dup lim s fd err = some (ret,s')) :
    (unifyfsInterceptFd lim s fd = none ∧ s.sysDup lim fd err = (ret,s')) ∨
    (ret.1 = -1 ∧ SameTables s s' ∧ ∀ d, s'.sysFile d = s.sysFile d) ∨
    ∃ (i n : ℕ) (t : Posix), unifyfsInterceptFd lim s fd = some i ∧ i < s.fds.length ∧
      err = 0 ∧ s.lowestFree lim = some n ∧ s.dupFds[n]? = some none ∧ ret.1 = n ∧
      SameTables s t ∧ (∀ d : ℤ, d ≠ n → t.sysFile d = s.sysFile d) ∧ s' = setDup t n i := by
  unfold dup at h
  split at h
  · next hi => exact .inl ⟨hi,Option.some.inj h⟩
  · next i hi =>
    right
    split at h
    · cases h
      exact .inl ⟨rfl,.refl _,fun _ => rfl⟩
    · next f hf =>
      obtain ⟨t,hfds,hdup,hfree,hsys,hopen⟩ := sysOpen_cases lim s err true
      have hst : SameTables s t := ⟨hfds,hdup,hfree⟩
      have hfile : ∀ d, t.sysFile d = s.sysFile d := fun d => by rw [sysFile,hsys,sysFile]
      rcases hopen with ⟨e,he⟩ | ⟨n,⟨herr,hlowest⟩,he⟩
      · rw [he] at h
        cases h
        exact .inl ⟨rfl,hst,hfile⟩
      · obtain ⟨hn,hnone⟩ := lowestFree_spec hlowest
        rw [he] at h
        dsimp only at h
        rw [if_neg (by omega)] at h
        have hothers : ∀ d, d ≠ (n : ℤ) →
            (t.setSys n (some ⟨s.sysCount,true⟩)).sysFile d = s.sysFile d := by
          intro d hd
          rw [sysFile_setSys (Int.natCast_nonneg n),if_neg hd,hfile]
        split at h
        · cases h
        · next hentry =>
          cases h
          exact .inr ⟨i,n,_,hi,(List.getElem?_eq_some_iff.mp hf).choose,herr,
            hlowest,hentry,rfl,hst.setSys _ _,hothers,rfl⟩
        · cases h
          left
          obtain ⟨hclose,hclosed⟩ := sysClose_spec (t.setSys n (some ⟨s.sysCount,true⟩)) n 0
          refine ⟨rfl,⟨hclose.fds.trans hfds,hclose.dupFds.trans hdup,
            hclose.freeFds.trans hfree⟩,fun d => ?_⟩
          rw [hclosed]
          split
          · next hd => rw [hd,hnone]
          · next hd => exact hothers d hd

theorem dup2_cases {fd desired : ℤ} {err : Rc} (h : dup2 lim s fd desired err = some (ret,s')) :
    (fd = desired ∧ ret = (desired,0) ∧ s' = s) ∨
    (fd ≠ desired ∧ unifyfsInterceptFd lim s fd = none ∧ s.sysDup2 lim fd desired err = (ret,s')) ∨
    (ret.1 = -1 ∧ SameTables s s' ∧ ∀ d, d ≠ desired → s'.sysFile d = s.sysFile d) ∨
    ∃ (i : ℕ) (t : Posix), fd ≠ desired ∧ unifyfsInterceptFd lim s fd = some i ∧
      i < s.fds.length ∧ (0 ≤ desired ∧ s.Closes desired err) ∧
      s.dupFds[desired.toNat]? = some none ∧ ret.1 = desired ∧ SameTables s t ∧
      (∀ d, d ≠ desired → t.sysFile d = s.sysFile d) ∧ s' = setDup t desired i := by
  unfold dup2 at h
  split at h
  · next heq =>
    cases h
    exact .inl ⟨heq,rfl,rfl⟩
  · next hne =>
    right
    split at h
    · next hi => exact .inl ⟨hne,hi,Option.some.inj h⟩
    · next i hi =>
      right
      split at h
      · cases h
        exact .inl ⟨rfl,.refl _,fun _ _ => rfl⟩
      · next f hf =>
        obtain ⟨hclose,hclosed⟩ := sysClose_spec s desired err
        have hothers : ∀ d, d ≠ desired → (s.sysClose desired err).2.sysFile d = s.sysFile d := by
          intro d hd
          rw [hclosed,if_neg hd]
        dsimp only at h
        split at h
        · cases h
          exact .inl ⟨rfl,hclose,hothers⟩
        · next hcloses =>
          split at h
          · cases h
          · next hnonneg =>
            split at h
            · cases h
            · next hentry =>
              cases h
              exact .inr ⟨i,_,hne,hi,(List.getElem?_eq_some_iff.mp hf).choose,
                ⟨not_lt.mp hnonneg,hcloses⟩,hentry,rfl,hclose,hothers,rfl⟩
            · cases h
              exact .inl ⟨rfl,hclose,hothers⟩

theorem clearDup_spec (lim : Limits) (s : Posix) (oldfd : ℤ) (fd : ℕ) :
    (clearDup lim s oldfd fd).fds = s.fds ∧ (clearDup lim s oldfd fd).freeFds = s.freeFds ∧
    (∀ d, d ≠ oldfd → (clearDup lim s oldfd fd).sysFile d = s.sysFile d) ∧
    (clearDup lim s oldfd fd).dupFds =
      if oldfd < lim.maxFiles ∧ s.dupFds[oldfd.toNat]? = some (some fd) then
        s.dupFds.set oldfd.toNat none
      else s.dupFds := by
  obtain ⟨hclose,hclosed⟩ := sysClose_spec s oldfd 0
  unfold clearDup
  split
  · split
    · refine ⟨hclose.fds,hclose.freeFds,fun d hd => ?_,?_⟩
      · exact (hclosed d).trans (if_neg hd)
      · exact congrArg (set · oldfd.toNat none) hclose.dupFds
    · exact ⟨rfl,rfl,fun _ _ => rfl,rfl⟩
  · exact ⟨rfl,rfl,fun _ _ => rfl,rfl⟩

theorem close_of_none (sync err : Rc) (hfd : unifyfsInterceptFd lim s oldfd = some fd)
    (hf : s.fds[fd]? = none) : close lim s oldfd sync err = ((-1,Rc.ebadf),s) := by
  unfold close
  rw [hfd]
  dsimp only
  rw [hf]

theorem close_of_intercept {f : FileDesc} (sync err : Rc)
    (hfd : unifyfsInterceptFd lim s oldfd = some fd) (hf : s.fds[fd]? = some f) :
    close lim s oldfd sync err =
      if f.fid < 0 then ((-1,Rc.ebadf),releaseFd lim s oldfd fd)
      else if f.write = true ∧ sync ≠ Rc.success then
        ((-1,Rc.errno sync),releaseFd lim s oldfd fd)
      else if f.useCount - 1 = 0 then
        ((0,0),pushFd lim { releaseFd lim s oldfd fd with
          fds := (releaseFd lim s oldfd fd).fds.modify fd FileDesc.init } fd)
      else ((0,0),releaseFd lim s oldfd fd) := by
  unfold close
  rw [hfd]
  dsimp only
  rw [hf]

theorem unifyfsInterceptFd_nonneg (h : unifyfsInterceptFd lim s oldfd = some fd) : 0 ≤ oldfd := by
  unfold unifyfsInterceptFd at h
  split at h
  · cases h
  · omega

theorem close_frame (lim : Limits) (s : Posix) (oldfd : ℤ) (sync err : Rc) (hd : 0 ≤ d)
    (hne : d ≠ oldfd) : (close lim s oldfd sync err).2.dupFds[d.toNat]? = s.dupFds[d.toNat]? ∧
      (close lim s oldfd sync err).2.sysFile d = s.sysFile d := by
  cases hfd : unifyfsInterceptFd lim s oldfd with
  | none =>
    obtain ⟨hsame,hfile⟩ := sysClose_spec s oldfd err
    have hclose : close lim s oldfd sync err = s.sysClose oldfd err := by rw [close,hfd]
    rw [hclose,hsame.dupFds,hfile,if_neg hne]
    exact ⟨rfl,rfl⟩
  | some fd =>
    cases hf : s.fds[fd]? with
    | none =>
      rw [close_of_none sync err hfd hf]
      exact ⟨rfl,rfl⟩
    | some f =>
      have hnonneg := unifyfsInterceptFd_nonneg hfd
      obtain ⟨-,-,hfile,hdup⟩ := clearDup_spec lim
        { s with fds := s.fds.modify fd fun f => { f with useCount := f.useCount - 1 } }
        oldfd fd
      have hrel : (releaseFd lim s oldfd fd).dupFds[d.toNat]? = s.dupFds[d.toNat]? := by
        unfold releaseFd
        rw [hdup]
        split
        · exact getElem?_set_ne (by omega)
        · rfl
      rw [close_of_intercept sync err hfd hf]
      split
      · exact ⟨hrel,hfile d hne⟩
      · split
        · exact ⟨hrel,hfile d hne⟩
        · split
          · unfold pushFd
            split
            · exact ⟨hrel,hfile d hne⟩
            · exact ⟨hrel,hfile d hne⟩
          · exact ⟨hrel,hfile d hne⟩

theorem allocFd_cases (lim : Limits) (s : Posix) (opened : Except Rc (ℤ × ℤ))
    (set : ℤ → ℤ → FileDesc → FileDesc) : (∃ e, allocFd lim s opened set = ((-1,e),s)) ∨
    ∃ fid pos fd rest, opened = .ok (fid,pos) ∧ s.freeFds = fd :: rest ∧ allocFd lim s opened set =
        (((fd : ℤ) + lim.fdLimit,0),
          { s with freeFds := rest, fds := s.fds.modify fd (set fid pos) }) := by
  unfold allocFd
  split
  · exact .inl ⟨_,rfl⟩
  · next fid pos =>
    split
    · exact .inl ⟨_,rfl⟩
    · next fd rest hfree => exact .inr ⟨fid,pos,fd,rest,rfl,hfree,rfl⟩

end Wrappers
end UnifyFS.FileDescriptors
