import UnifyFS.LogIOFragments

/-!
# What a return of the allocator leaves behind

An allocation that fails has made and taken back up to three reservations. The bits, the
counts and the reserved bytes of both regions are then what they were. The locks are not
always: when chunks at the end of shared memory were reserved, the chunks of the spill
file did not start at slot zero and the second attempt in the spill file fails too, the
spill header stays locked. This is the only way.
-/
namespace UnifyFS.LogIOReturns
open MachineWords Slotmap LogIO Spans GuardedRuns LogIORuns LogIOFragments Option

variable {ctx : LogioContext} {n : ℕ} {out : AllocOut} {h : LogHeader}

structure Accounts where
  useMap : UseMap
  usedSlots : ℕ
  reservedSz : ℕ
  deriving DecidableEq, Repr

def accounts (h : LogHeader) : Accounts :=
  ⟨h.chunkmap.useMap,h.chunkmap.usedSlots,h.reservedSz⟩

theorem accounts_map_unlock (r : Option LogHeader) :
    (r.map unlockLogHeader).map accounts = r.map accounts := by
  rw [map_map]
  rfl

theorem accounts_rolledBack {s chunks : ℕ} {m : SlotMap h.totalSlots}
    (hr : slotmapReserve h.chunkmap chunks = some (s,m)) :
    accounts (h.rolledBack m s chunks) = accounts h := by
  obtain ⟨hmap,hused⟩ := slotmapRelease_reserved hr
  rw [Accounts.mk.injEq]
  exact ⟨hmap,hused,rfl⟩

theorem outcome_failed_accounts (ho : Outcome ctx n out) (hrc : out.rc ≠ Rc.success) :
    out.ctx.shmem.map accounts = ctx.shmem.map accounts ∧
      out.ctx.spillHdr.map accounts = ctx.spillHdr.map accounts := by
  cases ho with
  | inShmem _ _ => exact absurd rfl hrc
  | noSpill _ _ => exact ⟨accounts_map_unlock _,rfl⟩
  | inSpill _ _ _ => exact absurd rfl hrc
  | spillFull _ hp =>
    rw [hp]
    exact ⟨accounts_map_unlock _,rfl⟩
  | notJoined ht _ =>
    rw [ht.shmem,ht.spill]
    exact ⟨congrArg some (accounts_rolledBack ht.tail),rfl⟩
  | joined _ _ => exact absurd rfl hrc
  | retried _ _ _ => exact absurd rfl hrc
  | stuck ht hr _ =>
    rw [ht.shmem,ht.spill]
    exact ⟨congrArg some (accounts_rolledBack ht.tail),congrArg some (accounts_rolledBack hr)⟩

/-- An allocation that fails for lack of space changes neither the bitmaps nor the counts nor
the reserved bytes. -/
theorem alloc_enospc_unchanged (ha : unifyfsLogioAlloc ctx n = some out)
    (hrc : out.rc = Rc.enospc) :
    out.ctx.shmem.map accounts = ctx.shmem.map accounts ∧
      out.ctx.spillHdr.map accounts = ctx.spillHdr.map accounts := by
  by_cases hz : n = 0
  · rw [unifyfsLogioAlloc,if_pos hz] at ha
    cases ha
    exact ⟨rfl,rfl⟩
  · refine outcome_failed_accounts (outcome_of_alloc hz ha) ?_
    rw [hrc]
    decide

/-- The end of shared memory is reserved and given back, since the spill file has no room for
the other nine bytes. -/
theorem alloc_enospc_unchanged_small : ∃ out, unifyfsLogioAlloc smallLog 17 = some out ∧
    out.rc = Rc.enospc ∧ out.ctx.shmem.map accounts = smallLog.shmem.map accounts ∧
      out.ctx.spillHdr.map accounts = smallLog.spillHdr.map accounts := by
  have heval : (unifyfsLogioAlloc smallLog 17).any (fun out => decide (out.rc = Rc.enospc)) =
      true := by decide +kernel
  obtain ⟨out,ha,hrc⟩ := (any_eq_true _ _).mp heval
  exact ⟨out,ha,of_decide_eq_true hrc,alloc_enospc_unchanged ha (of_decide_eq_true hrc)⟩

/-- The spill chunks that were reserved to be joined do not start at slot zero, and after they
were given back the spill file does not have the whole request either. -/
def StaysLocked (ctx : LogioContext) (n : ℕ) : Prop :=
  0 < n ∧ ∃ (h p : LogHeader) (s s' : ℕ) (m : SlotMap h.totalSlots) (m' : SlotMap p.totalSlots),
    JoinTried ctx n h p s m ∧
    slotmapReserve p.chunkmap (restChunks h p n) = some (s' + 1,m') ∧
    slotmapReserve (p.rolledBack m' (s' + 1) (restChunks h p n)).chunkmap
      (bytesToChunks n p.chunkSz) = none

theorem lockLogHeader_of_unlocked (hu : h.updating = false) :
    lockLogHeader h = some { h with updating := true } := by
  rw [lockLogHeader,hu]
  rfl

theorem allocSpill_returns (ctx : LogioContext) (hu : RegionUnlocked ctx.spillHdr) (n : ℕ) :
    ∃ out, allocSpill ctx n = some out := by
  unfold allocSpill
  split
  · exact ⟨_,rfl⟩
  · next p hp =>
    rw [lockLogHeader_of_unlocked (hu p hp)]
    dsimp only
    split
    · exact ⟨_,rfl⟩
    · exact ⟨_,rfl⟩

theorem allocJoined_returns (ctx : LogioContext) (hu : RegionUnlocked ctx.spillHdr)
    (h : LogHeader) (s chunks n : ℕ) : ∃ out, allocJoined ctx h s chunks n = some out := by
  unfold allocJoined
  split
  · exact ⟨_,rfl⟩
  · next p hp =>
    rw [lockLogHeader_of_unlocked (hu p hp)]
    dsimp only
    split
    · exact ⟨_,rfl⟩
    · exact ⟨_,rfl⟩
    · split
      · exact ⟨_,rfl⟩
      · exact ⟨_,rfl⟩

theorem allocShmem_returns (hu : h.updating = false) (n : ℕ) (haveSpill : Bool) :
    ∃ st, allocShmem h n haveSpill = some st := by
  unfold allocShmem
  rw [lockLogHeader_of_unlocked hu]
  dsimp only
  split
  · exact ⟨_,rfl⟩
  · split
    · split
      · exact ⟨_,rfl⟩
      · exact ⟨_,rfl⟩
    · exact ⟨_,rfl⟩

theorem alloc_returns (hu : Unlocked ctx) (n : ℕ) : ∃ out, unifyfsLogioAlloc ctx n = some out := by
  unfold unifyfsLogioAlloc
  split
  · exact ⟨_,rfl⟩
  · split
    · exact allocSpill_returns ctx hu.2 n
    · next h hh =>
      obtain ⟨st,hst⟩ := allocShmem_returns (hu.1 h hh) n ctx.spillHdr.isSome
      rw [hst]
      cases st with
      | full resOff h => exact ⟨_,rfl⟩
      | unserved h => exact allocSpill_returns { ctx with shmem := some h } hu.2 n
      | tail resSlot resChunks h =>
        exact allocJoined_returns { ctx with shmem := some h } hu.2 h resSlot resChunks n

theorem regionUnlocked_some (hu : h.updating = false) : RegionUnlocked (some h) := by
  intro g hg
  rw [← some.inj hg]
  exact hu

theorem regionUnlocked_map (r : Option LogHeader) : RegionUnlocked (r.map unlockLogHeader) := by
  intro g hg
  obtain ⟨h,-,rfl⟩ := map_eq_some_iff.mp hg
  rfl

theorem not_staysLocked_of_unserved (hmem : ShmemUnserved ctx n) : ¬ StaysLocked ctx n := by
  rintro ⟨-,h,p,s,s',m,m',ht,-⟩
  cases ((hmem h ht.shmem).2 (by rw [ht.spill]; rfl)).symm.trans ht.tail

theorem StaysLocked.at_headers {p : LogHeader} {s : ℕ} {m : SlotMap h.totalSlots}
    (hl : StaysLocked ctx n) (ht : JoinTried ctx n h p s m) : ∃ s' m',
      slotmapReserve p.chunkmap (restChunks h p n) = some (s' + 1,m') ∧
      slotmapReserve (p.rolledBack m' (s' + 1) (restChunks h p n)).chunkmap
        (bytesToChunks n p.chunkSz) = none := by
  obtain ⟨-,h',p',_,s',_,m',ht',hr,hfail⟩ := hl
  obtain rfl := some.inj (ht.shmem.symm.trans ht'.shmem)
  obtain rfl := some.inj (ht.spill.symm.trans ht'.spill)
  exact ⟨s',m',hr,hfail⟩

/-- An exit leaves a lock behind exactly under the condition above. -/
theorem outcome_unlocked_iff (hu : Unlocked ctx) (hn : 0 < n) (ho : Outcome ctx n out) :
    Unlocked out.ctx ↔ ¬ StaysLocked ctx n := by
  cases ho with
  | inShmem hh hr =>
    refine iff_of_true ⟨regionUnlocked_some rfl,hu.2⟩ ?_
    rintro ⟨-,h,p,s,s',m,m',ht,-⟩
    obtain rfl := some.inj (hh.symm.trans ht.shmem)
    cases hr.symm.trans ht.full
  | noSpill _ hp =>
    refine iff_of_true ⟨regionUnlocked_map _,hu.2⟩ ?_
    rintro ⟨-,h,p,s,s',m,m',ht,-⟩
    cases hp.symm.trans ht.spill
  | inSpill hmem hp _ =>
    exact iff_of_true ⟨regionUnlocked_map _,regionUnlocked_some rfl⟩
      (not_staysLocked_of_unserved hmem)
  | spillFull hmem hp =>
    exact iff_of_true ⟨regionUnlocked_map _,regionUnlocked_some rfl⟩
      (not_staysLocked_of_unserved hmem)
  | notJoined ht hr =>
    refine iff_of_true ⟨regionUnlocked_some rfl,regionUnlocked_some rfl⟩ fun hl => ?_
    obtain ⟨s',m',hr',-⟩ := hl.at_headers ht
    cases hr.symm.trans hr'
  | joined ht hr =>
    refine iff_of_true ⟨regionUnlocked_some rfl,regionUnlocked_some rfl⟩ fun hl => ?_
    obtain ⟨s',m',hr',-⟩ := hl.at_headers ht
    cases hr.symm.trans hr'
  | retried ht hr hretry =>
    refine iff_of_true ⟨regionUnlocked_some rfl,regionUnlocked_some rfl⟩ fun hl => ?_
    obtain ⟨s',m',hr',hfail⟩ := hl.at_headers ht
    cases hr.symm.trans hr'
    cases hretry.symm.trans hfail
  | stuck ht hr hfail =>
    refine iff_of_false ?_ (not_not.mpr ⟨hn,_,_,_,_,_,_,ht,hr,hfail⟩)
    rintro ⟨-,hspill⟩
    cases hspill _ rfl

/-- A call on a context without a locked header returns, and it leaves no header locked exactly
if it does not fail twice in the spill file. -/
theorem alloc_unlocks_iff (ctx : LogioContext) (hu : Unlocked ctx) (n : ℕ) :
    ∃ out, unifyfsLogioAlloc ctx n = some out ∧ (Unlocked out.ctx ↔ ¬ StaysLocked ctx n) := by
  obtain ⟨out,ha⟩ := alloc_returns hu n
  refine ⟨out,ha,?_⟩
  by_cases hz : n = 0
  · rw [unifyfsLogioAlloc,if_pos hz] at ha
    cases ha
    exact iff_of_true hu fun h => absurd hz (Nat.ne_of_gt h.1)
  · exact outcome_unlocked_iff hu (Nat.pos_of_ne_zero hz) (outcome_of_alloc hz ha)

theorem regionUnlocked_iff (r : Option LogHeader) :
    RegionUnlocked r ↔ r.all (fun h => !h.updating) = true := by
  cases r with
  | none => simp [RegionUnlocked]
  | some h => simp [RegionUnlocked]

instance (r : Option LogHeader) : Decidable (RegionUnlocked r) :=
  decidable_of_iff _ (regionUnlocked_iff r).symm

instance (ctx : LogioContext) : Decidable (Unlocked ctx) := inferInstanceAs (Decidable (_ ∧ _))

/-- Three bytes of the spill file are joined to all eight of shared memory. -/
theorem alloc_unlocks_small : Unlocked smallLog ∧ ¬ StaysLocked smallLog 11 ∧
    ∃ out, unifyfsLogioAlloc smallLog 11 = some out ∧ Unlocked out.ctx := by
  have hu : Unlocked smallLog := by decide +kernel
  have heval : (unifyfsLogioAlloc smallLog 11).any (fun out => decide (Unlocked out.ctx)) =
      true := by decide +kernel
  obtain ⟨out,ha,hiff⟩ := alloc_unlocks_iff smallLog hu 11
  have hout : Unlocked out.ctx := by simpa [ha] using heval
  exact ⟨hu,hiff.mp hout,out,ha,hout⟩

/-- Shared memory is free again after one byte went to the spill file. A request of nine bytes
fails, and the next one never returns. -/
theorem spill_header_stays_locked : ∃ s,
    Run logStep (fun _ _ => True) ⟨smallLog,[]⟩ [.alloc 8,.alloc 1,.free ⟨0,8⟩] s ∧
    Unlocked s.ctx ∧ ∃ out, unifyfsLogioAlloc s.ctx 9 = some out ∧ out.rc = Rc.enospc ∧
      ¬ Unlocked out.ctx ∧ unifyfsLogioAlloc out.ctx 9 = none := by
  have heval : (exec logStep (fun _ _ => true) ⟨smallLog,[]⟩
      [.alloc 8,.alloc 1,.free ⟨0,8⟩]).any (fun s => decide (Unlocked s.ctx) &&
        (unifyfsLogioAlloc s.ctx 9).any fun out => decide (out.rc = Rc.enospc ∧
          ¬ Unlocked out.ctx ∧ (unifyfsLogioAlloc out.ctx 9).isNone = true)) = true := by
    decide +kernel
  obtain ⟨s,hrun,htest⟩ := Run.exists_of_exec heval
  obtain ⟨hu,hany⟩ := (Bool.and_eq_true _ _).mp htest
  obtain ⟨out,ha,hout⟩ := (any_eq_true _ _).mp hany
  obtain ⟨hrc,hlocked,hnone⟩ := of_decide_eq_true hout
  exact ⟨s,hrun.weaken fun _ _ _ => trivial,of_decide_eq_true hu,out,ha,hrc,hlocked,
    isNone_iff_eq_none.mp hnone⟩

end UnifyFS.LogIOReturns
