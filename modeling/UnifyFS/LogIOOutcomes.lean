import UnifyFS.LogIO

/-!
# The ways in which an allocation ends

`unifyfs_logio_alloc` tries the shared memory region, then its free chunks at the end
together with the spill file, then the spill file alone, and takes back what it reserved
on the way. This module lists its exits once, each with the reservations that lead there
and the context that it leaves. Everything else about the allocator is read off the list.
-/
namespace UnifyFS.LogIO
open MachineWords Slotmap Option

section Stages
variable {h : LogHeader} {ctx : LogioContext} {n : ℕ}

theorem allocShmem_cases {haveSpill : Bool} {st : MemStage}
    (hs : allocShmem h n haveSpill = some st) :
    (∃ s m, slotmapReserve h.chunkmap (bytesToChunks n h.chunkSz) = some (s,m) ∧
      st = .full (s * h.chunkSz) (h.commit m (bytesToChunks n h.chunkSz))) ∨
    (slotmapReserve h.chunkmap (bytesToChunks n h.chunkSz) = none ∧ ∃ s m, haveSpill = true ∧
      slotmapReserve h.chunkmap (logEndChunks h) = some (s,m) ∧
      st = .tail s (logEndChunks h) { h with updating := true, chunkmap := m }) ∨
    (slotmapReserve h.chunkmap (bytesToChunks n h.chunkSz) = none ∧
      (haveSpill = true → slotmapReserve h.chunkmap (logEndChunks h) = none) ∧
      st = .unserved { h with updating := false }) := by
  unfold allocShmem at hs
  split at hs
  · simp at hs
  · next g hg =>
    obtain ⟨-,rfl⟩ := lockLogHeader_eq_some hg
    dsimp only at hs
    split at hs
    · next s m hr => exact .inl ⟨s,m,hr,(some.inj hs).symm⟩
    · next hr =>
      refine .inr ?_
      split_ifs at hs with hc
      · split at hs
        · next s m hr' => exact .inl ⟨hr,s,m,hc.1,hr',(some.inj hs).symm⟩
        · next hr' => exact .inr ⟨hr,fun _ => hr',(some.inj hs).symm⟩
      · refine .inr ⟨hr,fun hb => ?_,(some.inj hs).symm⟩
        have hz : logEndChunks h = 0 := Nat.eq_zero_of_not_pos fun hp => hc ⟨hb,hp⟩
        rw [hz]
        rfl

theorem allocSpill_cases {out : AllocOut} (hs : allocSpill ctx n = some out) :
    (ctx.spillHdr = none ∧ out = ⟨Rc.enospc,none,ctx⟩) ∨ ∃ p, ctx.spillHdr = some p ∧
      ((∃ s m, slotmapReserve p.chunkmap (bytesToChunks n p.chunkSz) = some (s,m) ∧
        out = ⟨Rc.success,some (s * p.chunkSz + ctx.memSize),
          { ctx with spillHdr := some (p.commit m (bytesToChunks n p.chunkSz)) }⟩) ∨
      out = ⟨Rc.enospc,none,{ ctx with spillHdr := some { p with updating := false } }⟩) := by
  unfold allocSpill at hs
  split at hs
  · next hp => exact .inl ⟨hp,(some.inj hs).symm⟩
  · next p hp =>
    refine .inr ⟨p,hp,?_⟩
    split at hs
    · simp at hs
    · next g hg =>
      obtain ⟨-,rfl⟩ := lockLogHeader_eq_some hg
      dsimp only at hs
      split at hs
      · next s m hr => exact .inl ⟨s,m,hr,(some.inj hs).symm⟩
      · exact .inr (some.inj hs).symm

theorem allocJoined_cases {memSlot memChunks : ℕ} {p : LogHeader} {out : AllocOut}
    (hp : ctx.spillHdr = some p) (hs : allocJoined ctx h memSlot memChunks n = some out) :
    let rest := bytesToChunks (wordSub n (memChunks * h.chunkSz)) p.chunkSz
    let all := bytesToChunks n p.chunkSz
    let rolledBack := some { h.giveBack memSlot memChunks with updating := false }
    (slotmapReserve p.chunkmap rest = none ∧
      out = ⟨Rc.enospc,none,⟨rolledBack,some { p with updating := false }⟩⟩) ∨
    (∃ m, slotmapReserve p.chunkmap rest = some (0,m) ∧
      out = ⟨Rc.success,some (memSlot * h.chunkSz),
        ⟨some (h.commit h.chunkmap memChunks),some (p.commit m rest)⟩⟩) ∨
    (∃ s m, slotmapReserve p.chunkmap rest = some (s + 1,m) ∧
      ((∃ slot m', slotmapReserve (slotmapRelease m (s + 1) rest).2 all = some (slot,m') ∧
        out = ⟨Rc.success,some (slot * p.chunkSz + h.dataSz),⟨rolledBack,some (LogHeader.commit
            (LogHeader.giveBack { p with chunkmap := m } (s + 1) rest) m' all)⟩⟩) ∨
      (slotmapReserve (slotmapRelease m (s + 1) rest).2 all = none ∧
        out = ⟨Rc.enospc,none,⟨rolledBack,some { LogHeader.giveBack { p with chunkmap := m }
          (s + 1) rest with updating := true }⟩⟩))) := by
  unfold allocJoined at hs
  rw [hp] at hs
  dsimp only at hs ⊢
  split at hs
  · simp at hs
  · next g hg =>
    obtain ⟨-,rfl⟩ := lockLogHeader_eq_some hg
    split at hs
    · next hr => exact .inl ⟨hr,(some.inj hs).symm⟩
    · next m hr => exact .inr (.inl ⟨m,hr,(some.inj hs).symm⟩)
    · next s m hr =>
      refine .inr (.inr ⟨s,m,hr,?_⟩)
      split at hs
      · next slot m' hr' => exact .inl ⟨slot,m',hr',(some.inj hs).symm⟩
      · next hr' => exact .inr ⟨hr',(some.inj hs).symm⟩

end Stages

/-- Shared memory, where there is some, has neither chunks for the whole request nor, with a
spill file behind it, chunks that are taken for its end. -/
def ShmemUnserved (ctx : LogioContext) (n : ℕ) : Prop :=
  ∀ h, ctx.shmem = some h → slotmapReserve h.chunkmap (bytesToChunks n h.chunkSz) = none ∧
    (ctx.spillHdr.isSome = true → slotmapReserve h.chunkmap (logEndChunks h) = none)

/-- The request does not fit shared memory, but chunks at `s` were reserved there to join them
to chunks of the spill file. -/
structure JoinTried (ctx : LogioContext) (n : ℕ) (h p : LogHeader) (s : ℕ)
    (m : SlotMap h.totalSlots) : Prop where
  shmem : ctx.shmem = some h
  spill : ctx.spillHdr = some p
  full : slotmapReserve h.chunkmap (bytesToChunks n h.chunkSz) = none
  tail : slotmapReserve h.chunkmap (logEndChunks h) = some (s,m)

def restChunks (h p : LogHeader) (n : ℕ) : ℕ :=
  bytesToChunks (wordSub n (logEndChunks h * h.chunkSz)) p.chunkSz

/-- The header after the chunks of a reservation, which led to the map `m`, were given back. -/
def LogHeader.rolledBack (h : LogHeader) (m : SlotMap h.totalSlots) (s chunks : ℕ) : LogHeader :=
  LogHeader.giveBack { h with chunkmap := m } s chunks

/-- Every exit of an allocation of at least one byte. -/
inductive Outcome (ctx : LogioContext) (n : ℕ) : AllocOut → Prop
  | inShmem {h : LogHeader} {s : ℕ} {m : SlotMap h.totalSlots} : ctx.shmem = some h →
      slotmapReserve h.chunkmap (bytesToChunks n h.chunkSz) = some (s,m) →
      Outcome ctx n ⟨Rc.success,some (s * h.chunkSz),
        { ctx with shmem := some (h.commit m (bytesToChunks n h.chunkSz)) }⟩
  | noSpill : ShmemUnserved ctx n → ctx.spillHdr = none →
      Outcome ctx n ⟨Rc.enospc,none,{ ctx with shmem := ctx.shmem.map unlockLogHeader }⟩
  | inSpill {p : LogHeader} {s : ℕ} {m : SlotMap p.totalSlots} : ShmemUnserved ctx n →
      ctx.spillHdr = some p →
      slotmapReserve p.chunkmap (bytesToChunks n p.chunkSz) = some (s,m) →
      Outcome ctx n ⟨Rc.success,some (s * p.chunkSz + ctx.memSize),
        ⟨ctx.shmem.map unlockLogHeader,some (p.commit m (bytesToChunks n p.chunkSz))⟩⟩
  | spillFull {p : LogHeader} : ShmemUnserved ctx n → ctx.spillHdr = some p →
      Outcome ctx n ⟨Rc.enospc,none,
        ⟨ctx.shmem.map unlockLogHeader,some (unlockLogHeader p)⟩⟩
  | notJoined {h p : LogHeader} {s : ℕ} {m : SlotMap h.totalSlots} : JoinTried ctx n h p s m →
      slotmapReserve p.chunkmap (restChunks h p n) = none →
      Outcome ctx n ⟨Rc.enospc,none,
        ⟨some (unlockLogHeader (h.rolledBack m s (logEndChunks h))),some (unlockLogHeader p)⟩⟩
  | joined {h p : LogHeader} {s : ℕ} {m : SlotMap h.totalSlots} {m' : SlotMap p.totalSlots} :
      JoinTried ctx n h p s m →
      slotmapReserve p.chunkmap (restChunks h p n) = some (0,m') →
      Outcome ctx n ⟨Rc.success,some (s * h.chunkSz),
        ⟨some (h.commit m (logEndChunks h)),some (p.commit m' (restChunks h p n))⟩⟩
  | retried {h p : LogHeader} {s : ℕ} {m : SlotMap h.totalSlots} {s' slot : ℕ}
      {m' m'' : SlotMap p.totalSlots} : JoinTried ctx n h p s m →
      slotmapReserve p.chunkmap (restChunks h p n) = some (s' + 1,m') →
      slotmapReserve (p.rolledBack m' (s' + 1) (restChunks h p n)).chunkmap
        (bytesToChunks n p.chunkSz) = some (slot,m'') →
      Outcome ctx n ⟨Rc.success,some (slot * p.chunkSz + h.dataSz),
        ⟨some (unlockLogHeader (h.rolledBack m s (logEndChunks h))),
          some ((p.rolledBack m' (s' + 1) (restChunks h p n)).commit m''
            (bytesToChunks n p.chunkSz))⟩⟩
  | stuck {h p : LogHeader} {s : ℕ} {m : SlotMap h.totalSlots} {s' : ℕ}
      {m' : SlotMap p.totalSlots} : JoinTried ctx n h p s m →
      slotmapReserve p.chunkmap (restChunks h p n) = some (s' + 1,m') →
      slotmapReserve (p.rolledBack m' (s' + 1) (restChunks h p n)).chunkmap
        (bytesToChunks n p.chunkSz) = none →
      Outcome ctx n ⟨Rc.enospc,none,
        ⟨some (unlockLogHeader (h.rolledBack m s (logEndChunks h))),
          some { p.rolledBack m' (s' + 1) (restChunks h p n) with updating := true }⟩⟩

section Outcomes
variable {ctx : LogioContext} {n : ℕ} {out : AllocOut}

theorem outcome_of_allocSpill {r : Option LogHeader} (hr : r = ctx.shmem.map unlockLogHeader)
    (hmem : ShmemUnserved ctx n) (ha : allocSpill { ctx with shmem := r } n = some out) :
    Outcome ctx n out := by
  subst hr
  have hsize : LogioContext.memSize { ctx with shmem := ctx.shmem.map unlockLogHeader } =
      ctx.memSize := by
    unfold LogioContext.memSize regionSize
    rw [map_map]
    rfl
  rcases allocSpill_cases ha with ⟨hp,rfl⟩ | ⟨p,hp,⟨s,m,hr,rfl⟩ | rfl⟩
  · exact .noSpill hmem hp
  · rw [hsize]
    exact .inSpill hmem hp hr
  · exact .spillFull hmem hp

theorem outcome_of_alloc (hn : n ≠ 0) (ha : unifyfsLogioAlloc ctx n = some out) :
    Outcome ctx n out := by
  unfold unifyfsLogioAlloc at ha
  rw [if_neg hn] at ha
  split at ha
  · next hsh =>
    refine outcome_of_allocSpill (by rw [hsh]; rfl) ?_ ha
    intro h hh
    rw [hsh] at hh
    cases hh
  · next h hsh =>
    cases hst : allocShmem h n ctx.spillHdr.isSome with
    | none => simp only [hst,reduceCtorEq] at ha
    | some st =>
      simp only [hst] at ha
      rcases allocShmem_cases hst with ⟨s,m,hr,rfl⟩ | ⟨hr,s,m,hb,hr',rfl⟩ | ⟨hr,hr',rfl⟩
      · cases ha
        exact .inShmem hsh hr
      · obtain ⟨p,hp⟩ := isSome_iff_exists.mp hb
        have htried : JoinTried ctx n h p s m := ⟨hsh,hp,hr,hr'⟩
        rcases allocJoined_cases hp ha with
          ⟨hp',rfl⟩ | ⟨m',hp',rfl⟩ | ⟨s',m',hp',⟨slot,m'',hp'',rfl⟩ | ⟨hp'',rfl⟩⟩
        · exact .notJoined htried hp'
        · exact .joined htried hp'
        · exact .retried htried hp' hp''
        · exact .stuck htried hp' hp''
      · refine outcome_of_allocSpill (by rw [hsh]; rfl) ?_ ha
        intro g hg
        obtain rfl := some.inj (hsh.symm.trans hg)
        exact ⟨hr,hr'⟩

end Outcomes
end UnifyFS.LogIO
