import UnifyFS.FileDescriptors
import UnifyFS.HandleCounts
import UnifyFS.ListUpdates

/-!
# Which descriptor numbers an internal descriptor counts

The numbers that calls have returned to the application, and that no close has ended with
success, are the handles of the internal descriptors. An internal descriptor should be on the
free stack if and only if no such number leads to it, and only once, and `use_count` should be
the number of them. A close counts a number off before it has checked anything, so this is kept
only by closes of numbers that are open and whose sync succeeds, apart from a duplicate that is
not the last number. A duplicate needs an internal descriptor in use and a number of the system
that is in the table.
-/
namespace UnifyFS.DescriptorCounts
open FileDescriptors Posix HandleCounts GuardedRuns List

structure Process where
  posix : Posix
  held : Finset ℤ

/-- A close that fails leaves the number to the application. -/
def heldAfter (held : Finset ℤ) : Call → Ret → Finset ℤ
  | .close fd _ _, ret => if ret.1 = 0 then held.erase fd else held
  | _, ret => if ret.1 = -1 then held else insert ret.1 held

def step (lim : Limits) (p : Process) (c : Call) : Option Process :=
  (c.run lim p.posix).map fun (ret,s) => ⟨s,heldAfter p.held c ret⟩

def start (lim : Limits) (sys : ℕ → Option SysFile) (sysCount : ℕ) : Process :=
  ⟨posixClientInit lim sys sysCount,∅⟩

def useCount (s : Posix) (i : ℕ) : ℤ := s.fds[i]?.elim 0 FileDesc.useCount

def numbers (lim : Limits) (p : Process) (i : ℕ) : Finset ℤ :=
  holders (unifyfsInterceptFd lim p.posix) p.held i

/-- The internal descriptor is free if and only if no open number leads to it, is free only
once, and counts these numbers. -/
def Accounted (lim : Limits) (p : Process) (i : ℕ) : Prop :=
  (i ∈ p.posix.freeFds ↔ numbers lim p i = ∅) ∧ p.posix.freeFds.count i ≤ 1 ∧
    useCount p.posix i = (numbers lim p i).card

/-- The calls that keep every internal descriptor accounted for. -/
def Regular (lim : Limits) (p : Process) : Call → Prop
  | .dup fd err => ∀ i < lim.maxFiles, unifyfsInterceptFd lim p.posix fd = some i →
      err = 0 → ∀ n, p.posix.lowestFree lim = some n → useCount p.posix i ≠ 0 ∧ n < lim.maxFiles
  | .dup2 fd desired err => ∀ i < lim.maxFiles, unifyfsInterceptFd lim p.posix fd = some i →
      if fd = desired then fd ∈ p.held
      else p.posix.Closes desired err → useCount p.posix i ≠ 0 ∧ 0 ≤ desired ∧
        desired < lim.fdLimit ∧ desired < lim.maxFiles
  | .close fd sync _ => ∀ i f, unifyfsInterceptFd lim p.posix fd = some i →
      p.posix.fds[i]? = some f → fd ∈ p.held ∧
        (0 ≤ f.fid ∧ (f.write = true → sync = Rc.success) ∨ fd < lim.fdLimit ∧ 1 < f.useCount)
  | _ => True

/-- Entries of the table of duplicates are for open numbers of the system. -/
structure Inv (lim : Limits) (p : Process) : Prop where
  fdsLength : p.posix.fds.length = lim.maxFiles
  dupLength : p.posix.dupFds.length = lim.maxFiles
  dup : ∀ (m : ℕ) i, p.posix.dupFds[m]? = some (some i) →
    (m : ℤ) ∈ p.held ∧ m < lim.fdLimit ∧ i < lim.maxFiles
  free : ∀ i ∈ p.posix.freeFds, i < lim.maxFiles
  balanced : Balanced (· < lim.maxFiles) p.posix.freeFds (useCount p.posix) (numbers lim p)

variable {lim : Limits} {p : Process} {s t : Posix} {held : Finset ℤ} {i : ℕ} {f : FileDesc}
  {g : FileDesc → FileDesc}

theorem Inv.accounted (h : Inv lim p) (hi : i < lim.maxFiles) : Accounted lim p i :=
  ⟨h.balanced.free_iff i hi,nodup_iff_count_le_one.mp h.balanced.nodup i,
    h.balanced.count_eq i hi⟩

theorem start_inv (lim : Limits) (sys : ℕ → Option SysFile) (sysCount : ℕ) :
    Inv lim (start lim sys sysCount) where
  fdsLength := List.length_replicate
  dupLength := List.length_replicate
  dup m i h := by
    change (List.replicate lim.maxFiles (none : Option ℕ))[m]? = _ at h
    rw [getElem?_replicate] at h
    split at h
    · cases h
    · cases h
  free i hi := mem_range.mp hi
  balanced :=
    { free_iff := fun i hi => iff_of_true (mem_range.mpr hi) rfl
      nodup := nodup_range
      count_eq := fun i hi => by
        change ((List.replicate lim.maxFiles _)[i]?).elim 0 FileDesc.useCount = 0
        rw [getElem?_replicate,if_pos hi]
        rfl }

theorem useCount_of_getElem? (h : s.fds[i]? = some f) :
    useCount s i = f.useCount := by
  rw [useCount,h]
  rfl

theorem useCount_modify_self (ht : t.fds = s.fds.modify i g) (hf : s.fds[i]? = some f) :
    useCount t i = (g f).useCount := by
  apply useCount_of_getElem?
  rw [ht,getElem?_modify_eq,hf]
  rfl

theorem useCount_modify_of_ne {j : ℕ} (ht : t.fds = s.fds.modify i g) (hne : j ≠ i) :
    useCount t j = useCount s j := by
  rw [useCount,useCount,ht,ListUpdates.getElem?_modify_ite,if_neg (Ne.symm hne)]

/-- A number below the limit leads to an internal descriptor by its entry only. -/
theorem unifyfsInterceptFd_cases {m : ℤ} (h : unifyfsInterceptFd lim s m = some i) :
    0 ≤ m ∧ (m < lim.fdLimit ∧ m < lim.maxFiles ∧ s.dupFds[m.toNat]? = some (some i) ∨
      m = i + lim.fdLimit) := by
  have hnonneg := unifyfsInterceptFd_nonneg h
  refine ⟨hnonneg,?_⟩
  unfold unifyfsInterceptFd at h
  rw [if_neg (by omega)] at h
  split at h
  · next hlt =>
    split at h
    · next hmax => exact .inl ⟨hlt,hmax,Option.join_eq_some_iff.mp h⟩
    · cases h
  · right
    have := Option.some.inj h
    omega

namespace Inv
variable {i : ℕ}

theorem intercept_of_dup (h : Inv lim p) {m : ℕ} (hentry : p.posix.dupFds[m]? = some (some i)) :
    unifyfsInterceptFd lim p.posix m = some i := by
  have hmax : m < lim.maxFiles := h.dupLength ▸ (List.getElem?_eq_some_iff.mp hentry).choose
  obtain ⟨-,hlt,-⟩ := h.dup m i hentry
  rw [unifyfsInterceptFd_of_lt (by omega) (by omega) (by omega),Int.toNat_natCast,hentry]
  rfl

section
variable (h : Inv lim ⟨s,held⟩) {n : ℤ}
include h

theorem frame (ht : SameTables s t) {held' : Finset ℤ}
    (hheld : ∀ m, ∀ i < lim.maxFiles, unifyfsInterceptFd lim s m = some i →
      (m ∈ held' ↔ m ∈ held)) :
    Inv lim ⟨t,held'⟩ := by
  have hintercept : ∀ m, unifyfsInterceptFd lim t m = unifyfsInterceptFd lim s m := fun m =>
    unifyfsInterceptFd_congr lim (by rw [ht.dupFds])
  refine ⟨ht.fds ▸ h.fdsLength,ht.dupFds ▸ h.dupLength,?_,ht.freeFds ▸ h.free,?_⟩
  · intro m i hentry
    have hentry' : s.dupFds[m]? = some (some i) := ht.dupFds ▸ hentry
    obtain ⟨hm,hlt,hi⟩ := h.dup m i hentry'
    exact ⟨(hheld m i hi (h.intercept_of_dup hentry')).mpr hm,hlt,hi⟩
  · have hcount : useCount t = useCount s := by
      unfold useCount
      rw [ht.fds]
    rw [hcount,ht.freeFds]
    refine h.balanced.congr fun i hi => ?_
    ext m
    simp only [numbers,mem_holders,hintercept]
    exact and_congr_left fun hm => hheld m i hi hm

theorem insert_of_none (ht : SameTables s t)
    (hn : ∀ i < lim.maxFiles, unifyfsInterceptFd lim s n = some i → n ∈ held) :
    Inv lim ⟨t,insert n held⟩ := by
  refine h.frame ht fun m i hi hm => ⟨fun hmem => ?_,Finset.mem_insert_of_mem⟩
  rcases Finset.mem_insert.mp hmem with heq | hmem
  · rw [heq] at hm ⊢
    exact hn i hi hm
  · exact hmem

theorem mem_held_of_lt (hlt : n < lim.fdLimit) (hn : unifyfsInterceptFd lim s n = some i) :
    n ∈ held := by
  obtain ⟨hnonneg,⟨-,-,hentry⟩ | heq⟩ := unifyfsInterceptFd_cases hn
  · have := (h.dup n.toNat i hentry).1
    rwa [Int.toNat_of_nonneg hnonneg] at this
  · omega

theorem share (ht : SameTables s t) (hnonneg : 0 ≤ n) (hlt : n < lim.fdLimit)
    (hentry : s.dupFds[n.toNat]? = some none) (hi : i < lim.maxFiles) (hpos : useCount s i ≠ 0) :
    Inv lim ⟨setDup t n i,insert n held⟩ := by
  have hbound := (List.getElem?_eq_some_iff.mp hentry).choose
  have hmax : n < lim.maxFiles := by
    have := h.dupLength
    dsimp only at this
    omega
  have hnone : unifyfsInterceptFd lim s n = none := by
    rw [unifyfsInterceptFd_of_lt hnonneg hmax hlt,hentry]
    rfl
  have hdup : (setDup t n i).dupFds = s.dupFds.set n.toNat (some i) := by rw [setDup,ht.dupFds]
  have hfds : (setDup t n i).fds =
      s.fds.modify i fun f => { f with useCount := f.useCount + 1 } := by rw [setDup,ht.fds]
  have hself : unifyfsInterceptFd lim (setDup t n i) n = some i := by
    rw [unifyfsInterceptFd_of_lt hnonneg hmax hlt,hdup,getElem?_set_self hbound]
    rfl
  have hothers : ∀ m, m ≠ n → unifyfsInterceptFd lim (setDup t n i) m =
      unifyfsInterceptFd lim s m := by
    intro m hm
    by_cases hneg : m < 0
    · rw [unifyfsInterceptFd,unifyfsInterceptFd,if_pos hneg,if_pos hneg]
    · apply unifyfsInterceptFd_congr
      rw [hdup]
      exact getElem?_set_ne (by omega)
  have hf := getElem?_eq_getElem (h.fdsLength.symm ▸ hi : i < s.fds.length)
  refine ⟨?_,?_,?_,ht.freeFds ▸ h.free,?_⟩
  · rw [hfds,length_modify]
    exact h.fdsLength
  · rw [hdup,length_set]
    exact h.dupLength
  · intro m j hm
    rw [hdup] at hm
    by_cases heq : m = n.toNat
    · rw [heq,getElem?_set_self hbound] at hm
      cases hm
      rw [heq,Int.toNat_of_nonneg hnonneg]
      exact ⟨Finset.mem_insert_self n held,by omega,hi⟩
    · rw [getElem?_set_ne (Ne.symm heq)] at hm
      obtain ⟨hheld,hrest⟩ := h.dup m j hm
      exact ⟨Finset.mem_insert_of_mem hheld,hrest⟩
  · change Balanced _ t.freeFds _ _
    rw [ht.freeFds]
    have hnot : ∀ j, unifyfsInterceptFd lim s n ≠ some j := by simp [hnone]
    refine h.balanced.share hpos (fun hmem => hnot i (mem_holders.mp hmem).2)
      (holders_insert hothers hself) ?_ fun j hj => ⟨?_,useCount_modify_of_ne hfds hj⟩
    · rw [useCount_modify_self hfds hf,useCount_of_getElem? hf]
    · refine holders_of_ne hothers (fun m hm => ?_) (fun _ => hnot j) fun _ heq => ?_
      · exact Finset.mem_insert.trans (or_iff_right hm)
      · exact hj (Option.some.inj (heq.symm.trans hself))

theorem acquire {rest : List ℕ} (hfree : s.freeFds = i :: rest) {g : FileDesc → FileDesc}
    (hg : ∀ f, (g f).useCount = 1) :
    Inv lim ⟨{ s with freeFds := rest, fds := s.fds.modify i g },
      insert (i + lim.fdLimit : ℤ) held⟩ := by
  have hi : i < lim.maxFiles := h.free i (hfree ▸ mem_cons_self)
  have hself : unifyfsInterceptFd lim s (i + lim.fdLimit) = some i := by
    rw [unifyfsInterceptFd_of_le (by omega) (by omega)]
    congr 1
    omega
  have hrefs : ∀ m : ℤ, m ≠ i + lim.fdLimit →
      unifyfsInterceptFd lim s m = unifyfsInterceptFd lim s m := fun _ _ => rfl
  have hempty := (h.balanced.free_iff i hi).mp (hfree ▸ mem_cons_self)
  have hf := getElem?_eq_getElem (h.fdsLength.symm ▸ hi : i < s.fds.length)
  have hbalanced : Balanced (· < lim.maxFiles) (i :: rest) (useCount s) (numbers lim ⟨s,held⟩) :=
    hfree ▸ h.balanced
  refine ⟨(length_modify ..).trans h.fdsLength,h.dupLength,?_,?_,?_⟩
  · intro m j hm
    obtain ⟨hheld,hrest⟩ := h.dup m j hm
    exact ⟨Finset.mem_insert_of_mem hheld,hrest⟩
  · intro j hj
    exact h.free j (hfree ▸ mem_cons_of_mem _ hj)
  · refine hbalanced.acquire (n := i + lim.fdLimit) ?_ ?_ fun j hj =>
      ⟨?_,useCount_modify_of_ne rfl hj⟩
    · exact (holders_insert hrefs hself).trans (congrArg (insert (i + lim.fdLimit : ℤ)) hempty)
    · rw [useCount_modify_self rfl hf,hg]
    · refine holders_of_ne hrefs (fun m hm => ?_) ?_ ?_
      · exact Finset.mem_insert.trans (or_iff_right hm)
      · exact fun _ heq => hj (Option.some.inj (heq.symm.trans hself))
      · exact fun _ heq => hj (Option.some.inj (heq.symm.trans hself))

theorem releaseFd_spec {fd : ℤ} (hfd : unifyfsInterceptFd lim s fd = some i) :
    (releaseFd lim s fd i).fds = s.fds.modify i (fun f => { f with useCount := f.useCount - 1 }) ∧
    (releaseFd lim s fd i).freeFds = s.freeFds ∧
    (releaseFd lim s fd i).dupFds.length = lim.maxFiles ∧
    (∀ (m : ℕ) j, (releaseFd lim s fd i).dupFds[m]? = some (some j) →
      (m : ℤ) ≠ fd ∧ s.dupFds[m]? = some (some j)) ∧
    (∀ m, m ≠ fd → unifyfsInterceptFd lim (releaseFd lim s fd i) m =
      unifyfsInterceptFd lim s m) ∧
    (fd < lim.fdLimit → unifyfsInterceptFd lim (releaseFd lim s fd i) fd = none) := by
  obtain ⟨hfds,hfree,-,hdup⟩ := clearDup_spec lim
    { s with fds := s.fds.modify i fun f => { f with useCount := f.useCount - 1 } } fd i
  have hlen := h.dupLength
  obtain ⟨hnonneg,⟨hlt,hmax,hentry⟩ | heq⟩ := unifyfsInterceptFd_cases hfd
  · have hset : (releaseFd lim s fd i).dupFds = s.dupFds.set fd.toNat none :=
      hdup.trans (if_pos ⟨hmax,hentry⟩)
    refine ⟨hfds,hfree,?_,?_,?_,fun _ => ?_⟩
    · rw [hset,length_set]
      exact hlen
    · intro m j hm
      rw [hset] at hm
      by_cases heq : m = fd.toNat
      · rw [heq,getElem?_set_self (List.getElem?_eq_some_iff.mp hentry).choose] at hm
        cases hm
      · rw [getElem?_set_ne (Ne.symm heq)] at hm
        exact ⟨by omega,hm⟩
    · intro m hm
      by_cases hneg : m < 0
      · rw [unifyfsInterceptFd,unifyfsInterceptFd,if_pos hneg,if_pos hneg]
      · apply unifyfsInterceptFd_congr
        rw [hset]
        exact getElem?_set_ne (by omega)
    · rw [unifyfsInterceptFd_of_lt hnonneg hmax hlt,hset,
        getElem?_set_self (List.getElem?_eq_some_iff.mp hentry).choose]
      rfl
  · -- the number of an open file has no entry
    have hno : ∀ (m : ℕ) j, s.dupFds[m]? = some (some j) → (m : ℤ) ≠ fd := by
      intro m j hm hcontra
      obtain ⟨-,hlt,-⟩ := h.dup m j hm
      omega
    have hsame : (releaseFd lim s fd i).dupFds = s.dupFds := by
      refine hdup.trans (if_neg fun hcond => ?_)
      exact hno fd.toNat i hcond.2 (Int.toNat_of_nonneg hnonneg)
    refine ⟨hfds,hfree,hsame ▸ hlen,?_,?_,fun hlt => by omega⟩
    · intro m j hm
      rw [hsame] at hm
      exact ⟨hno m j hm,hm⟩
    · intro m _
      exact unifyfsInterceptFd_congr lim (by rw [hsame])

end

section Close
variable {fd : ℤ} {f : FileDesc}

variable (h : Inv lim ⟨s,held⟩) (hfd : unifyfsInterceptFd lim s fd = some i)
  (hf : s.fds[i]? = some f) (hheld : fd ∈ held)
include h hfd hf hheld

theorem drop (hone : f.useCount ≠ 1) {held' : Finset ℤ}
    (hothers : ∀ m, m ≠ fd → (m ∈ held' ↔ m ∈ held)) (hself : fd ∈ held' → fd < lim.fdLimit) :
    Inv lim ⟨releaseFd lim s fd i,held'⟩ := by
  obtain ⟨hfds,hfree,hlen,hdup,hrefs,hnone⟩ := h.releaseFd_spec hfd
  have hi : i < lim.maxFiles := h.fdsLength ▸ (List.getElem?_eq_some_iff.mp hf).choose
  refine ⟨?_,hlen,?_,hfree ▸ h.free,?_⟩
  · rw [hfds,length_modify]
    exact h.fdsLength
  · intro m j hm
    obtain ⟨hne,hentry⟩ := hdup m j hm
    obtain ⟨hmem,hrest⟩ := h.dup m j hentry
    exact ⟨(hothers m hne).mpr hmem,hrest⟩
  · rw [hfree]
    have hnew : ∀ j, fd ∈ held' → unifyfsInterceptFd lim (releaseFd lim s fd i) fd ≠ some j := by
      intro j hmem
      rw [hnone (hself hmem)]
      nofun
    refine h.balanced.drop hi (mem_holders.mpr ⟨hheld,hfd⟩) ?_
      (holders_erase hrefs hothers (hnew i)) ?_ fun j hj => ⟨?_,useCount_modify_of_ne hfds hj⟩
    · rw [useCount_of_getElem? hf]
      exact hone
    · rw [useCount_modify_self hfds hf,useCount_of_getElem? hf]
    · refine holders_of_ne hrefs hothers (fun _ heq => ?_) (hnew j)
      exact hj (Option.some.inj (heq.symm.trans hfd))

theorem release (hone : f.useCount = 1) :
    Inv lim ⟨pushFd lim { releaseFd lim s fd i with
      fds := (releaseFd lim s fd i).fds.modify i FileDesc.init } i,held.erase fd⟩ := by
  obtain ⟨hfds,hfree,hlen,hdup,hrefs,hnone⟩ := h.releaseFd_spec hfd
  have hi : i < lim.maxFiles := h.fdsLength ▸ (List.getElem?_eq_some_iff.mp hf).choose
  have hcount := (useCount_of_getElem? hf).trans hone
  have hnotfree := h.balanced.notMem_of_pos hi (by dsimp only; omega)
  have hroom : s.freeFds.length < lim.maxFiles := by
    have hsub : (i :: s.freeFds) ⊆ List.range lim.maxFiles := by
      intro j hj
      rcases mem_cons.mp hj with rfl | hj
      · exact mem_range.mpr hi
      · exact mem_range.mpr (h.free j hj)
    have hle := (subperm_of_subset
      (nodup_cons.mpr ⟨hnotfree,h.balanced.nodup⟩) hsub).length_le
    rw [length_range] at hle
    exact hle
  have hothers : ∀ m, m ≠ fd → (m ∈ held.erase fd ↔ m ∈ held) := fun m hm =>
    Finset.mem_erase.trans (and_iff_right hm)
  unfold pushFd
  rw [if_pos (hfree.symm ▸ hroom)]
  refine ⟨?_,hlen,?_,?_,?_⟩
  · dsimp only
    rw [length_modify,hfds,length_modify]
    exact h.fdsLength
  · intro m j hm
    obtain ⟨hne,hentry⟩ := hdup m j hm
    obtain ⟨hmem,hrest⟩ := h.dup m j hentry
    exact ⟨(hothers m hne).mpr hmem,hrest⟩
  · intro j hj
    rcases mem_cons.mp hj with rfl | hj
    · exact hi
    · exact h.free j (hfree ▸ hj)
  · have hfds' : (releaseFd lim s fd i).fds[i]? = some { f with useCount := f.useCount - 1 } := by
      rw [hfds,getElem?_modify_eq,hf]
      rfl
    rw [hfree]
    refine h.balanced.release hi (mem_holders.mpr ⟨hheld,hfd⟩) hcount
      (holders_erase hrefs hothers fun hmem => absurd hmem (Finset.notMem_erase fd held)) ?_
      fun j hj => ⟨?_,?_⟩
    · rw [useCount_modify_self rfl hfds']
      rfl
    · refine holders_of_ne hrefs hothers (fun _ heq => ?_)
        fun hmem => absurd hmem (Finset.notMem_erase fd held)
      exact hj (Option.some.inj (heq.symm.trans hfd))
    · rw [useCount_modify_of_ne rfl hj,useCount_modify_of_ne hfds hj]

end Close
end Inv

section
variable (h : Inv lim ⟨s,held⟩) {fd : ℤ} {err : Rc} {desired : ℤ} {ret : Ret}
include h

theorem exists_dup (hc : Regular lim ⟨s,held⟩ (.dup fd err)) : ∃ r, dup lim s fd err = some r := by
  unfold dup
  split
  · exact ⟨_,rfl⟩
  · next i hi =>
    split
    · exact ⟨_,rfl⟩
    · next f hf =>
      have hlt := h.fdsLength ▸ (List.getElem?_eq_some_iff.mp hf).choose
      obtain ⟨t,-,-,-,-,⟨e,he⟩ | ⟨n,⟨herr,hn⟩,he⟩⟩ := sysOpen_cases lim s err true
      · rw [he]
        exact ⟨_,rfl⟩
      · obtain ⟨e,hentry⟩ : ∃ e, s.dupFds[n]? = some e :=
          ⟨_,getElem?_eq_getElem (h.dupLength.symm ▸ (hc i hlt hi herr n hn).2)⟩
        rw [he]
        dsimp only
        rw [Int.toNat_natCast,hentry]
        cases e with
        | none => exact ⟨_,rfl⟩
        | some _ => exact ⟨_,rfl⟩

theorem exists_dup2 (hc : Regular lim ⟨s,held⟩ (.dup2 fd desired err)) :
    ∃ r, dup2 lim s fd desired err = some r := by
  unfold dup2
  split
  · exact ⟨_,rfl⟩
  · next hne =>
    split
    · exact ⟨_,rfl⟩
    · next i hi =>
      split
      · exact ⟨_,rfl⟩
      · next f hf =>
        have hlt := h.fdsLength ▸ (List.getElem?_eq_some_iff.mp hf).choose
        have hok := hc i hlt hi
        rw [if_neg hne] at hok
        have hlen : s.dupFds.length = lim.maxFiles := h.dupLength
        dsimp only
        split
        · exact ⟨_,rfl⟩
        · next hcloses =>
          obtain ⟨-,hnonneg,-,hmax⟩ := hok hcloses
          obtain ⟨e,hentry⟩ : ∃ e, s.dupFds[desired.toNat]? = some e :=
            ⟨_,getElem?_eq_getElem (by omega)⟩
          rw [if_neg (by omega),hentry]
          cases e with
          | none => exact ⟨_,rfl⟩
          | some _ => exact ⟨_,rfl⟩

theorem Inv.returned (ht : SameTables s t) {n : ℤ} (hlt : n < lim.fdLimit) :
    Inv lim ⟨t,insert n held⟩ :=
  h.insert_of_none ht fun _ _ hn => h.mem_held_of_lt hlt hn

theorem allocFd_inv (opened : Except Rc (ℤ × ℤ)) {set : ℤ → ℤ → FileDesc → FileDesc}
    (hset : ∀ fid pos f, (set fid pos f).useCount = 1) :
    Inv lim ⟨(allocFd lim s opened set).2,
      if (allocFd lim s opened set).1.1 = -1 then held
      else insert (allocFd lim s opened set).1.1 held⟩ := by
  rcases allocFd_cases lim s opened set with ⟨e,he⟩ | ⟨fid,pos,fd,rest,-,hfree,he⟩
  · rw [he]
    exact h
  · rw [he]
    exact h.acquire hfree fun f => hset fid pos f

theorem dup_inv (hc : Regular lim ⟨s,held⟩ (.dup fd err)) (hrun : dup lim s fd err = some (ret,t)) :
    Inv lim ⟨t,if ret.1 = -1 then held else insert ret.1 held⟩ := by
  rcases dup_cases hrun with ⟨-,hdup⟩ | ⟨hret,ht,-⟩ |
    ⟨i,n,u,hi,hlen,herr,hn,hentry,hret,hu,-,ht⟩
  · rcases sysDup_cases lim s fd err with ⟨e,he⟩ | ⟨n,f,hn,he⟩
    · cases he.symm.trans hdup
      exact h
    · cases he.symm.trans hdup
      exact h.returned ((SameTables.refl s).setSys _ _) (Int.ofNat_lt.mpr (lowestFree_spec hn).1)
  · rw [if_pos hret]
    exact h.frame ht fun _ _ _ _ => Iff.rfl
  · have hmax : i < lim.maxFiles := h.fdsLength ▸ hlen
    rw [hret,ht]
    exact h.share hu (Int.natCast_nonneg n) (Int.ofNat_lt.mpr (lowestFree_spec hn).1) hentry hmax
      (hc i hmax hi herr n hn).1

theorem dup2_inv (hc : Regular lim ⟨s,held⟩ (.dup2 fd desired err))
    (hrun : dup2 lim s fd desired err = some (ret,t)) :
    Inv lim ⟨t,if ret.1 = -1 then held else insert ret.1 held⟩ := by
  rcases dup2_cases hrun with ⟨heq,hret,ht⟩ | ⟨-,-,hdup⟩ | ⟨hret,ht,-⟩ |
    ⟨i,u,hne,hi,hlen,hnonneg,hentry,hret,hu,-,ht⟩
  · rw [hret,ht]
    split
    · exact h
    · refine h.insert_of_none (.refl s) fun i hi hn => ?_
      have hok := hc i hi (heq ▸ hn)
      rw [if_pos heq] at hok
      exact heq ▸ hok
  · rcases sysDup2_cases lim s fd desired err with ⟨e,he⟩ | ⟨f,-,hnonneg,hlt,he⟩
    · cases he.symm.trans hdup
      exact h
    · cases he.symm.trans hdup
      rw [if_neg (by dsimp only; omega)]
      exact h.returned ((SameTables.refl s).setSys _ _) hlt
  · rw [if_pos hret]
    exact h.frame ht fun _ _ _ _ => Iff.rfl
  · have hmax : i < lim.maxFiles := h.fdsLength ▸ hlen
    have hok := hc i hmax hi
    rw [if_neg hne] at hok
    obtain ⟨huse,-,hlt,-⟩ := hok hnonneg.2
    rw [hret,if_neg (by omega),ht]
    exact h.share hu hnonneg.1 hlt hentry hmax huse

theorem close_inv {sync : Rc} (hc : Regular lim ⟨s,held⟩ (.close fd sync err)) :
    Inv lim ⟨(close lim s fd sync err).2,
      if (close lim s fd sync err).1.1 = 0 then held.erase fd else held⟩ := by
  cases hfd : unifyfsInterceptFd lim s fd with
  | none =>
    have hclose : close lim s fd sync err = s.sysClose fd err := by rw [close,hfd]
    rw [hclose]
    refine h.frame (sysClose_spec s fd err).1 fun m i _ hm => ?_
    split
    · rw [Finset.mem_erase]
      refine and_iff_right fun heq => ?_
      rw [heq,hfd] at hm
      cases hm
    · exact Iff.rfl
  | some i =>
    cases hf : s.fds[i]? with
    | none =>
      rw [close_of_none sync err hfd hf]
      exact h
    | some f =>
      obtain ⟨hheld,hok⟩ := hc i f hfd hf
      have herase : ∀ m, m ≠ fd → (m ∈ held.erase fd ↔ m ∈ held) := fun m hm =>
        Finset.mem_erase.trans (and_iff_right hm)
      -- a failing close has taken the entry of a duplicate away
      have hfailed : (f.fid < 0 ∨ f.write = true ∧ sync ≠ Rc.success) →
          Inv lim ⟨releaseFd lim s fd i,held⟩ := by
        intro hfail
        rcases hok with ⟨hfid,hsync⟩ | ⟨hlt,hcount⟩
        · rcases hfail with hneg | ⟨hwrite,hne⟩
          · omega
          · exact absurd (hsync hwrite) hne
        · exact h.drop hfd hf hheld (by omega) (fun _ _ => Iff.rfl) fun _ => hlt
      rw [close_of_intercept sync err hfd hf]
      split
      · next hneg => exact hfailed (.inl hneg)
      · split
        · next hsync => exact hfailed (.inr hsync)
        · split
          · exact h.release hfd hf hheld (by omega)
          · refine h.drop hfd hf hheld (by omega) herase fun hmem => ?_
            exact absurd hmem (Finset.notMem_erase fd held)

end

/-- A regular call returns, and the invariant holds afterwards. -/
theorem step_inv {c : Call} (h : Inv lim p) (hc : Regular lim p c) :
    ∃ q, step lim p c = some q ∧ Inv lim q := by
  obtain ⟨s,held⟩ := p
  cases c with
  | openFile flags opened => exact ⟨_,rfl,allocFd_inv h opened fun _ _ _ => rfl⟩
  | creat opened => exact ⟨_,rfl,allocFd_inv h opened fun _ _ _ => rfl⟩
  | sysOpen err =>
    refine ⟨_,rfl,?_⟩
    obtain ⟨t,hfds,hdup,hfree,-,⟨e,he⟩ | ⟨n,hn,he⟩⟩ := sysOpen_cases lim s err false
    · rw [he]
      exact h.frame ⟨hfds,hdup,hfree⟩ fun _ _ _ _ => Iff.rfl
    · rw [he]
      dsimp only [heldAfter]
      exact h.returned (SameTables.setSys ⟨hfds,hdup,hfree⟩ _ _)
        (Int.ofNat_lt.mpr (lowestFree_spec hn.2).1)
  | dup fd err =>
    obtain ⟨⟨ret,t⟩,hrun⟩ := exists_dup h hc
    refine ⟨⟨t,_⟩,?_,dup_inv h hc hrun⟩
    rw [step,Call.run,hrun]
    rfl
  | dup2 fd desired err =>
    obtain ⟨⟨ret,t⟩,hrun⟩ := exists_dup2 h hc
    refine ⟨⟨t,_⟩,?_,dup2_inv h hc hrun⟩
    rw [step,Call.run,hrun]
    rfl
  | close fd sync err => exact ⟨_,rfl,close_inv h hc⟩

/-- In every sequence of regular calls from the start, every internal descriptor is accounted
for, and the next regular call returns as well. -/
theorem run_accounted {sys : ℕ → Option SysFile} {sysCount : ℕ} {calls : List Call}
    (h : Run (step lim) (Regular lim) (start lim sys sysCount) calls p) :
    (∀ i < lim.maxFiles, Accounted lim p i) ∧
      ∀ c, Regular lim p c → ∃ q, step lim p c = some q := by
  have hinv : Inv lim p := by
    refine h.invariant (fun p c q hp hc hstep => ?_) (start_inv lim sys sysCount)
    obtain ⟨q',hq',hinv⟩ := step_inv hp hc
    cases hstep.symm.trans hq'
    exact hinv
  refine ⟨fun i hi => hinv.accounted hi,fun c hc => ?_⟩
  obtain ⟨q,hq,-⟩ := step_inv hinv hc
  exact ⟨q,hq⟩

/-- A file is opened and duplicated, and the first number is closed. -/
theorem run_accounted_duplicate : ∃ p,
    Run (step fewFiles) (Regular fewFiles) ⟨threeOpen,∅⟩
      [openOne,.dup 8 0,.close 8 Rc.success 0] p ∧
    p.held = {3} ∧ useCount p.posix 0 = 1 ∧ ∀ i < 4, Accounted fewFiles p i := by
  obtain ⟨p,hrun,hheld,hcount⟩ : ∃ p, Run (step fewFiles) (Regular fewFiles) ⟨threeOpen,∅⟩
      [openOne,.dup 8 0,.close 8 Rc.success 0] p ∧ p.held = {3} ∧ useCount p.posix 0 = 1 := by
    refine ⟨_,.cons trivial rfl (.cons ?_ rfl (.cons ?_ rfl (.nil _))),by decide,by decide⟩
    · intro i _ hi _ n hn
      cases hi
      cases hn
      decide
    · intro i f hi hf
      cases hi
      cases hf
      exact ⟨by decide,.inl ⟨by decide,fun _ => rfl⟩⟩
  exact ⟨p,hrun,hheld,hcount,(run_accounted hrun).1⟩

/-- A close fails because the sync fails. The application still has the number, which the
internal descriptor does not count. And a number is closed twice while a duplicate of it is
open: both calls succeed, and the internal descriptor is free with the duplicate leading
to it. -/
theorem close_unaccounted :
    (∃ p, [openOne,.close 8 Rc.eio 0].foldlM (step fewFiles) ⟨threeOpen,∅⟩ = some p ∧
      numbers fewFiles p 0 = {8} ∧ useCount p.posix 0 = 0 ∧ 0 ∉ p.posix.freeFds) ∧
    ∃ p, [openOne,.dup 8 0,.close 8 Rc.success 0,.close 8 Rc.success 0].foldlM (step fewFiles)
        ⟨threeOpen,∅⟩ = some p ∧
      numbers fewFiles p 0 = {3} ∧ useCount p.posix 0 = 0 ∧ 0 ∈ p.posix.freeFds := by
  constructor
  · exact ⟨_,rfl,by decide,by decide,by decide⟩
  · exact ⟨_,rfl,by decide,by decide,by decide⟩

end UnifyFS.DescriptorCounts
