import UnifyFS.FileDescriptors

/-!
# Where a redirected descriptor number leads

Every wrapper first asks whether a number is intercepted, so the open file behind a number
is an internal descriptor or a file of the system. A call `dup2(fd, desired)` that succeeds
should make the desired number lead where the other one leads, until a later call closes
or redirects it. It does so unless the number belongs to the system and the desired one is
still in the table of duplicates, or the desired number is itself an index of an internal
descriptor.
-/
namespace UnifyFS.DescriptorRouting
open FileDescriptors Posix List

inductive Target where
  | unifyfs (fd : ℕ)
  | system (file : Option SysFile)
  deriving DecidableEq, Repr

def route (lim : Limits) (s : Posix) (fd : ℤ) : Target :=
  match unifyfsInterceptFd lim s fd with
  | some i => .unifyfs i
  | none => .system (s.sysFile fd)

def Redirects (d : ℤ) : Call → Prop
  | .dup2 _ desired _ => desired = d
  | .close fd _ _ => fd = d
  | _ => False

/-- The calls for which the desired number leads where the first one does. -/
def Redirectable (lim : Limits) (s : Posix) (fd desired : ℤ) : Prop :=
  fd ≠ desired →
    match unifyfsInterceptFd lim s fd with
    | some i => desired < lim.fdLimit ∨ desired = i + lim.fdLimit
    | none => s.dupFds[desired.toNat]?.join = none

variable {lim : Limits} {s s' : Posix} {d : ℤ} {ret : Ret} {err : Rc} {fd : ℤ} {i n : ℕ} {t : Posix}

theorem route_of_some (h : unifyfsInterceptFd lim s d = some i) :
    route lim s d = .unifyfs i := by
  rw [route,h]

theorem route_of_none (h : unifyfsInterceptFd lim s d = none) :
    route lim s d = .system (s.sysFile d) := by
  rw [route,h]

theorem route_congr (hdup : 0 ≤ d → s'.dupFds[d.toNat]? = s.dupFds[d.toNat]?)
    (hsys : s.sysFile d ≠ none → s'.sysFile d = s.sysFile d)
    (hopen : route lim s d ≠ .system none) : route lim s' d = route lim s d := by
  by_cases hd : 0 ≤ d
  · have hsame := unifyfsInterceptFd_congr lim (hdup hd)
    cases hi : unifyfsInterceptFd lim s d with
    | some i => rw [route_of_some hi,route_of_some (hsame.trans hi)]
    | none =>
      rw [route_of_none hi] at hopen
      rw [route_of_none hi,route_of_none (hsame.trans hi),hsys fun h => hopen (by rw [h])]
  · have hneg : ∀ t : Posix, route lim t d = .system none := by
      intro t
      rw [route_of_none,sysFile,if_pos (by omega)]
      rw [unifyfsInterceptFd,if_pos (by omega)]
    rw [hneg,hneg]

theorem route_setDup {n : ℤ} (hn : 0 ≤ n) (ht : SameTables s t)
    (hsys : ∀ d, d ≠ n → t.sysFile d = s.sysFile d) (hne : d ≠ n)
    (hopen : route lim s d ≠ .system none) : route lim (setDup t n i) d = route lim s d := by
  refine route_congr (fun hd => ?_) (fun _ => hsys d hne) hopen
  rw [← ht.dupFds]
  exact getElem?_set_ne (by omega)

theorem route_free (hn : n < lim.fdLimit) (hfile : s.sysFile n = none)
    (hentry : s.dupFds[n]? = some none) : route lim s n = .system none := by
  rw [route_of_none,hfile]
  unfold unifyfsInterceptFd
  rw [if_neg (by omega),if_pos (by omega),Int.toNat_natCast,hentry]
  exact ite_self none

theorem sysInstalled_route {f : SysFile} (ht : SameTables s t)
    (hsys : ∀ d, t.sysFile d = s.sysFile d) (hfree : s.sysFile n = none)
    (hopen : route lim s d ≠ .system none) : route lim (t.setSys n (some f)) d = route lim s d := by
  apply route_congr (fun _ => by rw [setSys_dupFds,ht.dupFds]) _ hopen
  intro hd
  rw [sysFile_setSys (Int.natCast_nonneg n),if_neg,hsys]
  intro heq
  rw [heq] at hd
  exact hd hfree

theorem sameTables_route (ht : SameTables s s') (hsys : s'.sysFile d = s.sysFile d)
    (hopen : route lim s d ≠ .system none) : route lim s' d = route lim s d :=
  route_congr (fun _ => by rw [ht.dupFds]) (fun _ => hsys) hopen

theorem allocFd_route {opened : Except Rc (ℤ × ℤ)} {set : ℤ → ℤ → FileDesc → FileDesc}
    (h : allocFd lim s opened set = (ret,s')) : route lim s' d = route lim s d := by
  rcases allocFd_cases lim s opened set with ⟨e,he⟩ | ⟨fid,pos,fd,rest,-,-,he⟩
  · cases he.symm.trans h
    rfl
  · cases he.symm.trans h
    rfl

theorem sysOpen_route (h : s.sysOpen lim err false = (ret,s'))
    (hopen : route lim s d ≠ .system none) : route lim s' d = route lim s d := by
  obtain ⟨t,hfds,hdup,hfree,hsys,hcases⟩ := sysOpen_cases lim s err false
  have hfile : ∀ d, t.sysFile d = s.sysFile d := fun d => by rw [sysFile,hsys,sysFile]
  rcases hcases with ⟨e,he⟩ | ⟨n,hn,he⟩
  · cases he.symm.trans h
    exact sameTables_route ⟨hfds,hdup,hfree⟩ (hfile d) hopen
  · cases he.symm.trans h
    exact sysInstalled_route ⟨hfds,hdup,hfree⟩ hfile (lowestFree_spec hn.2).2 hopen

theorem dup_route (h : dup lim s fd err = some (ret,s')) (hopen : route lim s d ≠ .system none) :
    route lim s' d = route lim s d := by
  rcases dup_cases h with ⟨-,hdup⟩ | ⟨-,ht,hsys⟩ | ⟨i,n,t,-,-,-,hn,hentry,-,ht,hsys,hs'⟩
  · rcases sysDup_cases lim s fd err with ⟨e,he⟩ | ⟨n,f,hn,he⟩
    · cases he.symm.trans hdup
      rfl
    · cases he.symm.trans hdup
      exact sysInstalled_route (.refl s) (fun _ => rfl) (lowestFree_spec hn).2 hopen
  · exact sameTables_route ht (hsys d) hopen
  · obtain ⟨hlt,hfile⟩ := lowestFree_spec hn
    rw [hs']
    apply route_setDup (Int.natCast_nonneg n) ht hsys _ hopen
    intro heq
    exact hopen (heq ▸ route_free hlt hfile hentry)

theorem dup2_route_of_ne {desired : ℤ} (h : dup2 lim s fd desired err = some (ret,s'))
    (hne : d ≠ desired) (hopen : route lim s d ≠ .system none) :
    route lim s' d = route lim s d := by
  rcases dup2_cases h with ⟨-,-,hs'⟩ | ⟨-,-,hdup⟩ | ⟨-,ht,hsys⟩ |
    ⟨i,t,-,-,-,hnonneg,-,-,ht,hsys,hs'⟩
  · rw [hs']
  · rcases sysDup2_cases lim s fd desired err with ⟨e,he⟩ | ⟨f,-,hnonneg,-,he⟩
    · cases he.symm.trans hdup
      rfl
    · cases he.symm.trans hdup
      refine route_congr (fun _ => by rw [setSys_dupFds]) (fun _ => ?_) hopen
      rw [sysFile_setSys hnonneg,if_neg hne]
  · exact sameTables_route ht (hsys d hne) hopen
  · rw [hs']
    exact route_setDup hnonneg.1 ht hsys hne hopen

theorem close_route (sync err : Rc) (hne : d ≠ fd) (hopen : route lim s d ≠ .system none) :
    route lim (close lim s fd sync err).2 d = route lim s d := by
  apply route_congr _ _ hopen
  · intro hd
    exact (close_frame lim s fd sync err hd hne).1
  · intro _
    by_cases hd : 0 ≤ d
    · exact (close_frame lim s fd sync err hd hne).2
    · rw [sysFile,sysFile,if_pos (by omega),if_pos (by omega)]

/-- An open number keeps its route in every call that does not redirect it. -/
theorem run_route {c : Call} (h : c.run lim s = some (ret,s')) (hc : ¬ Redirects d c)
    (hopen : route lim s d ≠ .system none) : route lim s' d = route lim s d := by
  cases c with
  | openFile flags opened => exact allocFd_route (Option.some.inj h)
  | creat opened => exact allocFd_route (Option.some.inj h)
  | sysOpen err => exact sysOpen_route (Option.some.inj h) hopen
  | dup fd err => exact dup_route h hopen
  | dup2 fd desired err => exact dup2_route_of_ne h (fun heq => hc heq.symm) hopen
  | close fd sync err =>
    obtain rfl : (close lim s fd sync err).2 = s' := congrArg Prod.snd (Option.some.inj h)
    exact close_route sync err (fun heq => hc heq.symm) hopen

theorem runCalls_route {calls : List Call} (h : runCalls lim s calls = some s')
    (hcalls : ∀ c ∈ calls, ¬ Redirects d c) (hopen : route lim s d ≠ .system none) :
    route lim s' d = route lim s d := by
  induction calls generalizing s with
  | nil =>
    cases h
    rfl
  | cons c calls ih =>
    rw [runCalls,foldlM_cons] at h
    cases hrun : c.run lim s with
    | none =>
      rw [hrun] at h
      cases h
    | some r =>
      rw [hrun] at h
      have hstep := run_route hrun (hcalls c mem_cons_self) hopen
      rw [ih h (fun c hc => hcalls c (mem_cons_of_mem _ hc)) (hstep ▸ hopen),hstep]

/-- In a successful call the first number is open. Afterwards the desired one is open, and it
leads where the first one led exactly for the calls above. -/
theorem dup2_route {e : Rc} (hnonneg : 0 ≤ d) (hmax : d < lim.maxFiles) (hne : fd ≠ d)
    (h : dup2 lim s fd d err = some ((d,e),s')) :
    route lim s fd ≠ .system none ∧ route lim s' d ≠ .system none ∧
      (route lim s' d = route lim s fd ↔ Redirectable lim s fd d) := by
  unfold Redirectable
  rcases dup2_cases h with ⟨heq,-,-⟩ | ⟨-,hnone,hdup⟩ | ⟨hret,-,-⟩ |
    ⟨i,t,-,hi,-,-,hentry,-,ht,-,hs'⟩
  · exact absurd heq hne
  · rcases sysDup2_cases lim s fd d err with ⟨e,he⟩ | ⟨f,hf,-,hlt,he⟩
    · cases he.symm.trans hdup
      omega
    · cases he.symm.trans hdup
      rw [route_of_none hnone,hnone,hf]
      have hroute := unifyfsInterceptFd_of_lt (s := s.setSys d (some f)) hnonneg hmax hlt
      -- the system redirects the number, but the table of duplicates is asked first
      cases hentry : s.dupFds[d.toNat]?.join with
      | none =>
        rw [route_of_none (hroute.trans hentry),sysFile_setSys hnonneg,if_pos rfl]
        exact ⟨nofun,nofun,fun _ _ => rfl,fun _ => rfl⟩
      | some j =>
        rw [route_of_some (hroute.trans hentry)]
        exact ⟨nofun,nofun,nofun,fun hok => absurd (hok hne) nofun⟩
  · omega
  · rw [route_of_some hi,hi,hs']
    by_cases hlt : d < lim.fdLimit
    · have hroute := unifyfsInterceptFd_of_lt (s := setDup t d i) hnonneg hmax hlt
      have hset : (setDup t d i).dupFds[d.toNat]? = some (some i) := by
        rw [setDup,ht.dupFds]
        exact getElem?_set_self (List.getElem?_eq_some_iff.mp hentry).choose
      rw [route_of_some (hroute.trans (by rw [hset]; rfl))]
      exact ⟨nofun,nofun,fun _ _ => .inl hlt,fun _ => rfl⟩
    · have hroute := unifyfsInterceptFd_of_le (s := setDup t d i) hnonneg (Int.not_lt.mp hlt)
      rw [route_of_some hroute]
      refine ⟨nofun,nofun,fun heq _ => .inr ?_,fun hok => ?_⟩
      · have := Target.unifyfs.inj heq
        omega
      · rcases hok hne with hlt' | heq
        · exact absurd hlt' hlt
        · rw [heq]
          congr 1
          omega

/-- A call `dup2(fd, desired)` succeeds, and after it any calls are made that neither close nor
redirect the desired number. Then this number leads to the open file that `fd` led to, and to
the one `fd` still leads to, if and only if the call is one of those above. -/
theorem dup2_routed_iff_redirectable {s₁ s₂ : Posix} {fd desired : ℤ} {err e : Rc}
    {later : List Call} (hdesired : 0 ≤ desired ∧ desired < lim.maxFiles)
    (hdup : dup2 lim s fd desired err = some ((desired,e),s₁))
    (hlater : runCalls lim s₁ later = some s₂) (hkept : ∀ c ∈ later, ¬ Redirects desired c) :
    ((fd ≠ desired → route lim s₂ desired = route lim s fd) ↔ Redirectable lim s fd desired) ∧
      ((∀ c ∈ later, ¬ Redirects fd c) → fd ≠ desired → route lim s₂ fd = route lim s fd) := by
  by_cases hne : fd = desired
  · exact ⟨⟨fun _ h => absurd hne h,fun _ h => absurd hne h⟩,fun _ h => absurd hne h⟩
  · obtain ⟨hfdopen,hopen,hiff⟩ := dup2_route hdesired.1 hdesired.2 hne hdup
    refine ⟨?_,fun hfd _ => ?_⟩
    · rw [runCalls_route hlater hkept hopen,← hiff]
      exact ⟨fun h => h hne,fun h _ => h⟩
    · have hstep := run_route (c := .dup2 fd desired err) hdup (fun h => hne h.symm) hfdopen
      rw [runCalls_route hlater hfd (hstep ▸ hfdopen),hstep]

def oneOpened : Posix := (posixOpen fewFiles threeOpen ClientFiles.oRdwr (.ok (0,0))).2

/-- The number 1 is redirected to a file and leads to it while another file is opened. -/
theorem dup2_routed_output : ∃ s₁ s₂ : Posix,
    runCalls fewFiles threeOpen [openOne] = some oneOpened ∧
    dup2 fewFiles oneOpened 8 1 0 = some ((1,0),s₁) ∧
    runCalls fewFiles s₁ [.sysOpen 0] = some s₂ ∧
    route fewFiles oneOpened 8 = .unifyfs 0 ∧
    route fewFiles s₂ 1 = route fewFiles oneOpened 8 := by
  obtain ⟨s₁,hdup⟩ : ∃ s₁, dup2 fewFiles oneOpened 8 1 0 = some ((1,0),s₁) := ⟨_,rfl⟩
  obtain ⟨s₂,hlater⟩ : ∃ s₂, runCalls fewFiles s₁ [.sysOpen 0] = some s₂ := ⟨_,rfl⟩
  refine ⟨s₁,s₂,rfl,hdup,hlater,rfl,?_⟩
  refine (dup2_routed_iff_redirectable (by decide) hdup hlater ?_).1.mpr ?_ (by decide)
  · intro c hc h
    rw [mem_singleton.mp hc] at h
    exact h
  · exact fun _ => .inl (by decide)

/-- The number 1 is redirected to a file and then back to the system's number 2. The second
call succeeds, but the number still leads to the file. -/
theorem dup2_restore_misrouted : ∃ s s₁ : Posix,
    runCalls fewFiles threeOpen [openOne,.dup2 8 1 0] = some s ∧
    dup2 fewFiles s 2 1 0 = some ((1,0),s₁) ∧
    route fewFiles s 2 = .system (some ⟨2,false⟩) ∧ route fewFiles s₁ 1 = .unifyfs 0 :=
  ⟨_,_,rfl,rfl,rfl,rfl⟩

end UnifyFS.DescriptorRouting
