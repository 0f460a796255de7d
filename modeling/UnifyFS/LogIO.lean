import UnifyFS.Slotmap

/-!
# Log-based I/O contexts

Embedding of the allocator of `common/src/unifyfs_logio.c`. A context has a
shared memory region, a spill file, or both; each starts with a header whose
chunk map tracks the reserved chunks. Log offsets run through the data of the
shared memory region first and then through the data of the spill file.

Waiting for a header whose `updating` flag is set never ends here, since no
other process is modelled: such a call has no result. Offsets and sizes are
natural numbers; the region sizes come from `long` settings, so the data size of
a header is below `2 ^ 63`, and only the subtractions that can go below zero are
word subtractions.
-/
namespace UnifyFS.LogIO
open MachineWords Slotmap

def bytesToChunks (bytes chunkSz : ℕ) : ℕ :=
  let nChunks := bytes / chunkSz
  if bytes % chunkSz ≠ 0 then nChunks + 1 else nChunks

structure LogSizes where
  szInMem : ℕ
  szInSpill : ℕ
  spillOffset : ℕ
  deriving DecidableEq, Repr

def getLogSizes (logOffset nbytes shmemDataSz : ℕ) : LogSizes :=
  if logOffset + nbytes ≤ shmemDataSz then ⟨nbytes,0,0⟩
  else if logOffset < shmemDataSz then
    ⟨shmemDataSz - logOffset,nbytes - (shmemDataSz - logOffset),0⟩
  else ⟨0,nbytes,logOffset - shmemDataSz⟩

/-- The header at the start of a region, with the chunk map that follows it. -/
structure LogHeader where
  hdrSz : ℕ
  dataSz : ℕ
  reservedSz : ℕ
  chunkSz : ℕ
  dataOffset : ℕ
  updating : Bool
  totalSlots : ℕ
  chunkmap : SlotMap totalSlots
  chunk_pos : 0 < chunkSz
  data_eq : dataSz = totalSlots * chunkSz
  data_lt : dataSz < 2 ^ 63

def lockLogHeader (h : LogHeader) : Option LogHeader :=
  if h.updating then none else some { h with updating := true }

def unlockLogHeader (h : LogHeader) : LogHeader := { h with updating := false }

/-- `sizeof(log_header)`: five 64-bit fields and the padded flag. -/
def sizeofLogHeader : ℕ := 48

section Init
variable (regionSize chunkSize pgsz : ℕ) (hr : regionSize < 2 ^ 63) (hc : 0 < chunkSize)

/-- The loop of `init_log_header` over the number of header pages. -/
def initLogHeaderLoop : ℕ → ℕ → Option LogHeader
  | 0, _ => none
  | fuel + 1, hdrPages =>
    let hdrSize := hdrPages * pgsz
    if hdrSize ≥ regionSize then none
    else
      let dataSpace := regionSize - hdrSize
      let nChunks := dataSpace / chunkSize
      match slotmapInit nChunks (wordSub hdrSize sizeofLogHeader) with
      | none => initLogHeaderLoop fuel (hdrPages + 1)
      | some chunkmap => some
          { hdrSz := hdrSize
            dataSz := nChunks * chunkSize
            reservedSz := 0
            chunkSz := chunkSize
            dataOffset := hdrSize
            updating := false
            totalSlots := nChunks
            chunkmap := chunkmap
            chunk_pos := hc
            data_eq := rfl
            data_lt := lt_of_le_of_lt (Nat.div_mul_le_self _ _)
              (lt_of_le_of_lt (Nat.sub_le _ _) hr) }

def initLogHeader : Option LogHeader :=
  initLogHeaderLoop regionSize chunkSize pgsz hr hc regionSize 1

end Init

structure LogioContext where
  shmem : Option LogHeader
  spillHdr : Option LogHeader

def regionSize (r : Option LogHeader) : ℕ := (r.map LogHeader.dataSz).getD 0

/-- Log offsets from here on are in the spill file. -/
def LogioContext.memSize (ctx : LogioContext) : ℕ := regionSize ctx.shmem

def LogioContext.spillSize (ctx : LogioContext) : ℕ := regionSize ctx.spillHdr

structure AllocOut where
  rc : Rc
  /-- `*log_offset`, when the call sets it. -/
  logOffset : Option ℕ
  ctx : LogioContext

/-- How the attempt in shared memory ends. After `tail` the header stays locked. -/
inductive MemStage where
  | full (resOff : ℕ) (hdr : LogHeader)
  | tail (resSlot resChunks : ℕ) (hdr : LogHeader)
  | unserved (hdr : LogHeader)

def logEndChunks (h : LogHeader) : ℕ :=
  wordSub h.totalSlots (h.chunkmap.lastUsedSlot + 1).toNat

/-- Mark chunks as reserved, add their bytes and unlock the header. -/
def LogHeader.commit (h : LogHeader) (m : SlotMap h.totalSlots) (chunks : ℕ) : LogHeader :=
  { h with
    chunkmap := m
    reservedSz := h.reservedSz + chunks * h.chunkSz
    updating := false }

def allocShmem (h : LogHeader) (nbytes : ℕ) (haveSpill : Bool) : Option MemStage :=
  match lockLogHeader h with
  | none => none
  | some h =>
    let neededChunks := bytesToChunks nbytes h.chunkSz
    match slotmapReserve h.chunkmap neededChunks with
    | some (resSlot,m) => some (.full (resSlot * h.chunkSz) (h.commit m neededChunks))
    | none =>
      if haveSpill ∧ logEndChunks h > 0 then
        match slotmapReserve h.chunkmap (logEndChunks h) with
        | some (resSlot,m) => some (.tail resSlot (logEndChunks h) { h with chunkmap := m })
        | none => some (.unserved (unlockLogHeader h))
      else some (.unserved (unlockLogHeader h))

/-- The whole request is asked from the spill file. -/
def allocSpill (ctx : LogioContext) (nbytes : ℕ) : Option AllocOut :=
  match ctx.spillHdr with
  | none => some ⟨Rc.enospc,none,ctx⟩
  | some p =>
    match lockLogHeader p with
    | none => none
    | some p =>
      let neededChunks := bytesToChunks nbytes p.chunkSz
      match slotmapReserve p.chunkmap neededChunks with
      | some (resSlot,m) => some
          ⟨Rc.success,some (resSlot * p.chunkSz + ctx.memSize),
            { ctx with spillHdr := some (p.commit m neededChunks) }⟩
      | none => some ⟨Rc.enospc,none,{ ctx with spillHdr := some (unlockLogHeader p) }⟩

/-- Give back chunks that were reserved a moment ago; the byte count was not
changed yet. The return code of `slotmap_release` is only logged. -/
def LogHeader.giveBack (h : LogHeader) (slot chunks : ℕ) : LogHeader :=
  { h with chunkmap := (slotmapRelease h.chunkmap slot chunks).2 }

/-- The request goes on in the spill file after `memChunks` chunks at `memSlot`
were reserved in the locked header `h`. When the spill chunks do not start at
slot zero, both reservations are dropped and the whole request is tried in the
spill file; if this fails as well, the spill header stays locked. -/
def allocJoined (ctx : LogioContext) (h : LogHeader) (memSlot memChunks nbytes : ℕ) :
    Option AllocOut :=
  let memAllocation := memChunks * h.chunkSz
  let neededBytes := wordSub nbytes memAllocation
  let rolledBack := some (unlockLogHeader (h.giveBack memSlot memChunks))
  match ctx.spillHdr with
  | none => some ⟨Rc.enospc,none,{ ctx with shmem := rolledBack }⟩
  | some p =>
    match lockLogHeader p with
    | none => none
    | some p =>
      let neededChunks := bytesToChunks neededBytes p.chunkSz
      match slotmapReserve p.chunkmap neededChunks with
      | none => some ⟨Rc.enospc,none,⟨rolledBack,some (unlockLogHeader p)⟩⟩
      | some (0,m) => some
          ⟨Rc.success,some (memSlot * h.chunkSz),
            ⟨some (h.commit h.chunkmap memChunks),some (p.commit m neededChunks)⟩⟩
      | some (resSlot + 1,m) =>
        let p := LogHeader.giveBack { p with chunkmap := m } (resSlot + 1) neededChunks
        let allChunks := bytesToChunks nbytes p.chunkSz
        match slotmapReserve p.chunkmap allChunks with
        | some (slot,m) => some
            ⟨Rc.success,some (slot * p.chunkSz + h.dataSz),
              ⟨rolledBack,some (p.commit m allChunks)⟩⟩
        | none => some ⟨Rc.enospc,none,⟨rolledBack,some p⟩⟩

def unifyfsLogioAlloc (ctx : LogioContext) (nbytes : ℕ) : Option AllocOut :=
  if nbytes = 0 then some ⟨Rc.success,none,ctx⟩
  else match ctx.shmem with
    | none => allocSpill ctx nbytes
    | some h =>
      match allocShmem h nbytes ctx.spillHdr.isSome with
      | none => none
      | some (.full resOff h) => some ⟨Rc.success,some resOff,{ ctx with shmem := some h }⟩
      | some (.unserved h) => allocSpill { ctx with shmem := some h } nbytes
      | some (.tail resSlot resChunks h) =>
        allocJoined { ctx with shmem := some h } h resSlot resChunks nbytes

/-- Release the chunks of one region. The byte count goes down even when
`slotmap_release` refuses. -/
def freeChunks (h : LogHeader) (offset size : ℕ) : Option (Rc × LogHeader) :=
  match lockLogHeader h with
  | none => none
  | some h =>
    let chunkSlot := offset / h.chunkSz
    let numChunks := bytesToChunks size h.chunkSz
    let released := slotmapRelease h.chunkmap chunkSlot numChunks
    some (released.1,
      { h with
        chunkmap := released.2
        reservedSz := wordSub h.reservedSz (h.chunkSz * numChunks)
        updating := false })

/-- The part of a range that lies in one region; a missing header is never
dereferenced unless that part is non-empty, and then the call does not return. -/
def freeRegion (r : Option LogHeader) (offset size : ℕ) (rc : Rc) :
    Option (Rc × Option LogHeader) :=
  if size = 0 then some (rc,r)
  else match r with
    | none => none
    | some h => (freeChunks h offset size).map fun out => (out.1,some out.2)

def unifyfsLogioFree (ctx : LogioContext) (logOffset nbytes : ℕ) : Option (Rc × LogioContext) :=
  if nbytes = 0 then some (Rc.success,ctx)
  else
    let sizes := getLogSizes logOffset nbytes ctx.memSize
    match freeRegion ctx.shmem logOffset sizes.szInMem Rc.success with
    | none => none
    | some (rc,shmem) =>
      match freeRegion ctx.spillHdr sizes.spillOffset sizes.szInSpill rc with
      | none => none
      | some (rc,spillHdr) => some (rc,⟨shmem,spillHdr⟩)

variable {chunkSz off n memSz : ℕ}

theorem bytesToChunks_spec (bytes : ℕ) (hc : 0 < chunkSz) :
    bytes ≤ bytesToChunks bytes chunkSz * chunkSz ∧
      bytesToChunks bytes chunkSz * chunkSz < bytes + chunkSz := by
  have hdm := Nat.div_add_mod bytes chunkSz
  have hlt := Nat.mod_lt bytes hc
  rw [Nat.mul_comm] at hdm
  unfold bytesToChunks
  simp only
  split_ifs with h
  · rw [Nat.add_mul]
    omega
  · omega

theorem bytesToChunks_zero (chunkSz : ℕ) : bytesToChunks 0 chunkSz = 0 := by
  simp [bytesToChunks]

theorem bytesToChunks_mul (hc : 0 < chunkSz) (k : ℕ) : bytesToChunks (k * chunkSz) chunkSz = k := by
  simp [bytesToChunks,hc]

theorem bytesToChunks_pos {bytes : ℕ} (hc : 0 < chunkSz) (hb : 0 < bytes) :
    0 < bytesToChunks bytes chunkSz := by
  by_contra h
  have hs := (bytesToChunks_spec bytes hc).1
  rw [Nat.eq_zero_of_not_pos h] at hs
  omega

theorem getLogSizes_mem (h : off + n ≤ memSz) : getLogSizes off n memSz = ⟨n,0,0⟩ := if_pos h

theorem getLogSizes_both (h : off < memSz) (h' : memSz < off + n) :
    getLogSizes off n memSz = ⟨memSz - off,n - (memSz - off),0⟩ := by
  rw [getLogSizes,if_neg (by omega),if_pos h]

theorem getLogSizes_spill (h : memSz ≤ off) (hn : 0 < n) :
    getLogSizes off n memSz = ⟨0,n,off - memSz⟩ := by
  rw [getLogSizes,if_neg (by omega),if_neg (by omega)]

/-- The two parts make up the range, the first one ends inside shared memory, and the rest
starts in the spill file where the first part ends in the log. -/
structure Divides (off n memSz : ℕ) (sizes : LogSizes) : Prop where
  sum : sizes.szInMem + sizes.szInSpill = n
  front : 0 < sizes.szInMem → off + sizes.szInMem ≤ memSz
  rest : 0 < sizes.szInSpill → off + sizes.szInMem = memSz + sizes.spillOffset

theorem getLogSizes_divides (off n memSz : ℕ) : Divides off n memSz (getLogSizes off n memSz) := by
  unfold getLogSizes
  split_ifs <;> constructor <;> simp only <;> omega

theorem Divides.rest_fits {spillSz : ℕ} {sizes : LogSizes} (h : Divides off n memSz sizes)
    (hin : off + n ≤ memSz + spillSz) (hpos : 0 < sizes.szInSpill) :
    sizes.spillOffset + sizes.szInSpill ≤ spillSz := by
  have hsum := h.sum
  have hrest := h.rest hpos
  omega

theorem lockLogHeader_eq_some {h h' : LogHeader} (hl : lockLogHeader h = some h') :
    h.updating = false ∧ h' = { h with updating := true } := by
  unfold lockLogHeader at hl
  split_ifs at hl with hu
  exact ⟨by simpa using hu,(Option.some.inj hl).symm⟩

/-- A header as `init_log_header` leaves it. -/
def LogHeader.Fresh (h : LogHeader) : Prop :=
  h.chunkmap = slotmapClear h.totalSlots ∧ h.reservedSz = 0 ∧ h.updating = false

theorem initLogHeaderLoop_fresh {regionSize chunkSize pgsz : ℕ} {hr : regionSize < 2 ^ 63}
    {hc : 0 < chunkSize} {fuel hdrPages : ℕ} {h : LogHeader}
    (hi : initLogHeaderLoop regionSize chunkSize pgsz hr hc fuel hdrPages = some h) :
    h.Fresh := by
  induction fuel generalizing hdrPages with
  | zero => simp only [initLogHeaderLoop,reduceCtorEq] at hi
  | succ fuel ih =>
    rw [initLogHeaderLoop] at hi
    split at hi
    · simp only [reduceCtorEq] at hi
    · dsimp only at hi
      split at hi
      · exact ih hi
      · next m hm =>
        rw [← Option.some.inj hi]
        exact ⟨slotmapInit_eq_some hm,rfl,rfl⟩

def LogioContext.Fresh (ctx : LogioContext) : Prop :=
  (∀ h, ctx.shmem = some h → h.Fresh) ∧ ∀ p, ctx.spillHdr = some p → p.Fresh

end UnifyFS.LogIO
