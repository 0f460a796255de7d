import UnifyFS.ByteBuffers
import UnifyFS.LogIO

/-!
# Reading and writing a log

The data of a log lie in the shared memory region and in the spill file, each behind its
header. A range of log offsets is divided at the end of the shared memory data. Its first
part is copied in memory, the rest goes through one `pwrite` or `pread` call, whose
outcome is a parameter. A range that reaches outside the mapped region, or into a
region that the context does not have, has no result.

Seen from outside the log is one array of bytes: `logByte` says what is at an offset, a
write changes exactly the offsets of its range, and a read returns what is there.
-/
namespace UnifyFS.LogData
open ByteBuffers LogIO List

/-- The bytes of the shared memory region and of the spill file, headers included. -/
structure LogBytes where
  shmem : List UInt8
  spill : List UInt8
  deriving DecidableEq, Repr

/-- The result of `pread` and `pwrite` for a number of bytes: how many were moved, or `errno`. -/
abbrev Syscall := ℕ → Except Rc ℕ

def movesAll : Syscall := Except.ok

def writeShmem (r : Option LogHeader) (mem : List UInt8) (offset : ℕ) (data : List UInt8) :
    Option (List UInt8) :=
  if data.length > 0 then
    match r with
    | none => none
    | some h =>
      if h.dataOffset + offset + data.length ≤ mem.length then
        some (overwrite 0 mem (h.dataOffset + offset) data)
      else none
  else some mem

def writeSpill (r : Option LogHeader) (pwrite : Syscall) (file : List UInt8) (offset : ℕ)
    (data : List UInt8) : Option (Rc × ℕ × List UInt8) :=
  if data.length > 0 then
    match r with
    | none => none
    | some p =>
      match pwrite data.length with
      | .error errno => some (errno,0,file)
      | .ok k => some (Rc.success,k,overwrite 0 file (p.dataOffset + offset) (data.take k))
  else some (Rc.success,0,file)

/-- The return code, `*obytes` and the new bytes. -/
def unifyfsLogioWrite (ctx : LogioContext) (pwrite : Syscall) (d : LogBytes) (logOffset : ℕ)
    (ibuf : List UInt8) : Option (Rc × ℕ × LogBytes) :=
  if ibuf.length = 0 then some (Rc.success,0,d)
  else
    let sizes := getLogSizes logOffset ibuf.length ctx.memSize
    match writeShmem ctx.shmem d.shmem logOffset (ibuf.take sizes.szInMem) with
    | none => none
    | some shmem =>
      match writeSpill ctx.spillHdr pwrite d.spill sizes.spillOffset
        (ibuf.drop sizes.szInMem) with
      | none => none
      | some (errRc,count,spill) =>
        let nwrite := sizes.szInMem + count
        some (if nwrite ≠ 0 then Rc.success else errRc,nwrite,⟨shmem,spill⟩)

def readShmem (r : Option LogHeader) (mem : List UInt8) (offset size : ℕ) :
    Option (List UInt8) :=
  if size > 0 then
    match r with
    | none => none
    | some h =>
      if h.dataOffset + offset + size ≤ mem.length then
        some ((mem.drop (h.dataOffset + offset)).take size)
      else none
  else some []

def readSpill (r : Option LogHeader) (pread : Syscall) (file : List UInt8) (offset size : ℕ) :
    Option (Rc × List UInt8) :=
  if size > 0 then
    match r with
    | none => none
    | some p =>
      match pread size with
      | .error errno => some (errno,[])
      | .ok k => some (Rc.success,(file.drop (p.dataOffset + offset)).take k)
  else some (Rc.success,[])

/-- The return code and the bytes that were read; `*obytes` is their number. -/
def unifyfsLogioRead (ctx : LogioContext) (pread : Syscall) (d : LogBytes) (logOffset nbytes : ℕ) :
    Option (Rc × List UInt8) :=
  if nbytes = 0 then some (Rc.success,[])
  else
    let sizes := getLogSizes logOffset nbytes ctx.memSize
    match readShmem ctx.shmem d.shmem logOffset sizes.szInMem with
    | none => none
    | some front =>
      match readSpill ctx.spillHdr pread d.spill sizes.spillOffset sizes.szInSpill with
      | none => none
      | some (errRc,rest) =>
        some (if (front ++ rest).length ≠ 0 then Rc.success else errRc,front ++ rest)

def regionByte (r : Option LogHeader) (bytes : List UInt8) (i : ℕ) : Option UInt8 :=
  r.bind fun h => bytes[h.dataOffset + i]?

def logByte (ctx : LogioContext) (d : LogBytes) (i : ℕ) : Option UInt8 :=
  if i < ctx.memSize then regionByte ctx.shmem d.shmem i
  else regionByte ctx.spillHdr d.spill (i - ctx.memSize)

/-- The region holds all data bytes that its header speaks of. -/
def RegionStored (r : Option LogHeader) (bytes : List UInt8) : Prop :=
  ∀ h, r = some h → h.dataOffset + h.dataSz ≤ bytes.length

structure Stored (ctx : LogioContext) (d : LogBytes) : Prop where
  shmem : RegionStored ctx.shmem d.shmem
  spill : RegionStored ctx.spillHdr d.spill

section Regions
variable {r : Option LogHeader} {bytes data : List UInt8} {off i n : ℕ}

theorem exists_header (hs : RegionStored r bytes) (hn : 0 < n) (hin : off + n ≤ regionSize r) :
    ∃ h, r = some h ∧ h.dataOffset + off + n ≤ bytes.length := by
  cases r with
  | none =>
    have hzero : regionSize none = 0 := rfl
    omega
  | some h =>
    have hsize : regionSize (some h) = h.dataSz := rfl
    have := hs h rfl
    exact ⟨h,rfl,by omega⟩

theorem regionByte_overwrite {h : LogHeader}
    (hfit : h.dataOffset + off + data.length ≤ bytes.length) (i : ℕ) :
    regionByte (some h) (overwrite 0 bytes (h.dataOffset + off) data) i =
      if off ≤ i ∧ i < off + data.length then data[i - off]? else regionByte (some h) bytes i := by
  have hcell := getElem?_overwrite_inside 0 hfit (h.dataOffset + i)
  rw [show h.dataOffset + i - (h.dataOffset + off) = i - off by omega] at hcell
  refine hcell.trans ?_
  by_cases hi : off ≤ i ∧ i < off + data.length
  · rw [if_pos hi,if_pos (by omega)]
  · rw [if_neg hi,if_neg (by omega)]
    rfl

theorem RegionStored.overwrite (hs : RegionStored r bytes) (pos : ℕ) (data : List UInt8) :
    RegionStored r (overwrite 0 bytes pos data) := by
  intro h hh
  rw [length_overwrite]
  exact (hs h hh).trans (Nat.le_max_left _ _)

section
variable (hs : RegionStored r bytes) (hin : 0 < data.length → off + data.length ≤ regionSize r)
include hs hin

theorem writeShmem_spec :
    ∃ bytes', writeShmem r bytes off data = some bytes' ∧ RegionStored r bytes' ∧
      ∀ i, regionByte r bytes' i =
        if off ≤ i ∧ i < off + data.length then data[i - off]? else regionByte r bytes i := by
  unfold writeShmem
  split
  · next hpos =>
    obtain ⟨h,rfl,hfit⟩ := exists_header hs hpos (hin hpos)
    dsimp only
    rw [if_pos hfit]
    exact ⟨_,rfl,hs.overwrite _ _,regionByte_overwrite hfit⟩
  · refine ⟨bytes,rfl,hs,fun i => ?_⟩
    rw [if_neg (by omega)]

theorem writeSpill_spec :
    ∃ bytes', writeSpill r movesAll bytes off data = some (Rc.success,data.length,bytes') ∧
      RegionStored r bytes' ∧ ∀ i, regionByte r bytes' i =
        if off ≤ i ∧ i < off + data.length then data[i - off]? else regionByte r bytes i := by
  unfold writeSpill
  split
  · next hpos =>
    obtain ⟨h,rfl,hfit⟩ := exists_header hs hpos (hin hpos)
    refine ⟨_,rfl,hs.overwrite _ _,?_⟩
    rw [take_length]
    exact regionByte_overwrite hfit
  · next hpos =>
    have hzero : data.length = 0 := by omega
    refine ⟨bytes,by rw [hzero],hs,fun i => ?_⟩
    rw [if_neg (by omega)]

end

theorem getElem?_slice {h : LogHeader} (hi : i < n) :
    ((bytes.drop (h.dataOffset + off)).take n)[i]? = regionByte (some h) bytes (off + i) := by
  rw [getElem?_take_of_lt hi,getElem?_drop,Nat.add_assoc]
  rfl

theorem readShmem_spec (hs : RegionStored r bytes) (hin : 0 < n → off + n ≤ regionSize r) :
    ∃ front, readShmem r bytes off n = some front ∧ front.length = n ∧
      ∀ i < n, front[i]? = regionByte r bytes (off + i) := by
  unfold readShmem
  split
  · next hpos =>
    obtain ⟨h,rfl,hfit⟩ := exists_header hs hpos (hin hpos)
    dsimp only
    rw [if_pos hfit]
    refine ⟨_,rfl,?_,fun i hi => getElem?_slice hi⟩
    rw [length_take,length_drop]
    omega
  · exact ⟨[],rfl,by rw [length_nil]; omega,fun i hi => by omega⟩

theorem readSpill_spec (hs : RegionStored r bytes) (hin : 0 < n → off + n ≤ regionSize r) :
    ∃ rest, readSpill r movesAll bytes off n = some (Rc.success,rest) ∧ rest.length = n ∧
      ∀ i < n, rest[i]? = regionByte r bytes (off + i) := by
  unfold readSpill
  split
  · next hpos =>
    obtain ⟨h,rfl,hfit⟩ := exists_header hs hpos (hin hpos)
    refine ⟨_,rfl,?_,fun i hi => getElem?_slice hi⟩
    rw [length_take,length_drop]
    omega
  · exact ⟨[],rfl,by rw [length_nil]; omega,fun i hi => by omega⟩

end Regions

section Log
variable {ctx : LogioContext} {d : LogBytes} {off : ℕ} {data : List UInt8}

/-- The parts of a range, each written to its region, are the range in the log. -/
theorem logByte_of_parts {sizes : LogSizes} {d' : LogBytes}
    (hdiv : Divides off data.length ctx.memSize sizes)
    (hmem : ∀ i, regionByte ctx.shmem d'.shmem i =
      if off ≤ i ∧ i < off + sizes.szInMem then (data.take sizes.szInMem)[i - off]?
      else regionByte ctx.shmem d.shmem i) (hspill : ∀ i, regionByte ctx.spillHdr d'.spill i =
      if sizes.spillOffset ≤ i ∧ i < sizes.spillOffset + sizes.szInSpill then
        (data.drop sizes.szInMem)[i - sizes.spillOffset]?
      else regionByte ctx.spillHdr d.spill i) (i : ℕ) : logByte ctx d' i =
      if off ≤ i ∧ i < off + data.length then data[i - off]? else logByte ctx d i := by
  obtain ⟨front,rest,start⟩ := sizes
  obtain ⟨hsum,hfront,hrest⟩ := hdiv
  unfold logByte
  -- below the end of shared memory the range is its first part, from there on the rest
  by_cases hi : i < ctx.memSize
  · rw [if_pos hi,if_pos hi,hmem i]
    by_cases hr : off ≤ i ∧ i < off + data.length
    · rw [if_pos hr,if_pos (by omega),getElem?_take_of_lt (by omega)]
    · rw [if_neg hr,if_neg (by omega)]
  · rw [if_neg hi,if_neg hi,hspill (i - ctx.memSize)]
    by_cases hr : off ≤ i ∧ i < off + data.length
    · rw [if_pos hr,if_pos (by omega),getElem?_drop]
      congr 1
      omega
    · rw [if_neg hr,if_neg (by omega)]

theorem write_spec (hd : Stored ctx d) (hin : off + data.length ≤ ctx.memSize + ctx.spillSize) :
    ∃ d', unifyfsLogioWrite ctx movesAll d off data = some (Rc.success,data.length,d') ∧
      Stored ctx d' ∧ ∀ i, logByte ctx d' i =
        if off ≤ i ∧ i < off + data.length then data[i - off]? else logByte ctx d i := by
  unfold unifyfsLogioWrite
  split
  · next hzero =>
    refine ⟨d,by rw [hzero],hd,fun i => ?_⟩
    rw [if_neg (by omega)]
  · next hpos =>
    have hdiv := getLogSizes_divides off data.length ctx.memSize
    dsimp only
    generalize getLogSizes off data.length ctx.memSize = sizes at hdiv ⊢
    have hsum := hdiv.sum
    have htake : (data.take sizes.szInMem).length = sizes.szInMem := by
      rw [length_take]
      omega
    have hdrop : (data.drop sizes.szInMem).length = sizes.szInSpill := by
      rw [length_drop]
      omega
    have hmem : 0 < (data.take sizes.szInMem).length →
        off + (data.take sizes.szInMem).length ≤ regionSize ctx.shmem := by
      rw [htake]
      exact hdiv.front
    have hspill : 0 < (data.drop sizes.szInMem).length →
        sizes.spillOffset + (data.drop sizes.szInMem).length ≤ regionSize ctx.spillHdr := by
      rw [hdrop]
      exact hdiv.rest_fits hin
    obtain ⟨mem,hw,hs,hbytes⟩ := writeShmem_spec hd.shmem hmem
    obtain ⟨file,hw',hs',hbytes'⟩ := writeSpill_spec hd.spill hspill
    rw [htake] at hbytes
    rw [hdrop] at hw' hbytes'
    rw [hw]
    rw [hw']
    dsimp only
    rw [hsum,if_pos hpos]
    exact ⟨⟨mem,file⟩,rfl,⟨hs,hs'⟩,logByte_of_parts hdiv hbytes hbytes'⟩

theorem read_spec (hd : Stored ctx d) (off n : ℕ) (hin : off + n ≤ ctx.memSize + ctx.spillSize) :
    ∃ bytes, unifyfsLogioRead ctx movesAll d off n = some (Rc.success,bytes) ∧
      bytes.length = n ∧ ∀ i < n, bytes[i]? = logByte ctx d (off + i) := by
  unfold unifyfsLogioRead
  split
  · next hzero => exact ⟨[],rfl,by rw [hzero,length_nil],fun i hi => by omega⟩
  · next hpos =>
    have hdiv := getLogSizes_divides off n ctx.memSize
    dsimp only
    generalize getLogSizes off n ctx.memSize = sizes at hdiv ⊢
    obtain ⟨front,hr,hlen,hbytes⟩ := readShmem_spec hd.shmem hdiv.front
    obtain ⟨rest,hr',hlen',hbytes'⟩ := readSpill_spec hd.spill (hdiv.rest_fits hin)
    obtain ⟨hsum,hfront,hrest⟩ := hdiv
    have hjoined : (front ++ rest).length = n := by
      rw [length_append]
      omega
    rw [hr]
    rw [hr']
    dsimp only
    rw [hjoined,if_pos hpos]
    refine ⟨front ++ rest,rfl,hjoined,fun i hi => ?_⟩
    unfold logByte
    by_cases hlt : i < sizes.szInMem
    · rw [getElem?_append_left (by omega),hbytes i hlt,if_pos (by omega)]
    · rw [getElem?_append_right (by omega),hbytes' (i - front.length) (by omega),if_neg (by omega)]
      congr 1
      omega

/-- What is written to a range of the log is read back from every part of it, and all other
bytes of the log stay as they are. -/
theorem read_written (ctx : LogioContext) (d : LogBytes) (hd : Stored ctx d) (off : ℕ)
    (data : List UInt8) (hin : off + data.length ≤ ctx.memSize + ctx.spillSize) :
    ∃ d', unifyfsLogioWrite ctx movesAll d off data = some (Rc.success,data.length,d') ∧
      (∀ k n, k + n ≤ data.length → unifyfsLogioRead ctx movesAll d' (off + k) n =
        some (Rc.success,(data.drop k).take n)) ∧
      ∀ i, ¬ (off ≤ i ∧ i < off + data.length) → logByte ctx d' i = logByte ctx d i := by
  obtain ⟨d',hw,hd',hbytes⟩ := write_spec hd hin
  refine ⟨d',hw,fun k n hk => ?_,fun i hi => by rw [hbytes i,if_neg hi]⟩
  obtain ⟨bytes,hr,hlen,hread⟩ := read_spec hd' (off + k) n (by omega)
  have heq : bytes = (data.drop k).take n := by
    apply ext_getElem?
    intro i
    by_cases hi : i < n
    · rw [hread i hi,hbytes,if_pos (by omega),getElem?_take_of_lt hi,getElem?_drop]
      congr 1
      omega
    · rw [getElem?_eq_none (by omega),getElem?_eq_none]
      rw [length_take]
      omega
  rw [hr,heq]

/-- Eight data bytes in each region, behind pages of 96 bytes. -/
def bytesLog : LogioContext :=
  ⟨initLogHeader 104 1 96 (by norm_num) (by norm_num),
    initLogHeader 104 1 96 (by norm_num) (by norm_num)⟩

/-- Two of the four bytes are in shared memory, two in the spill file. -/
theorem read_written_across :
    ∃ d', unifyfsLogioWrite bytesLog movesAll ⟨List.replicate 104 0,List.replicate 104 0⟩
        6 [1,2,3,4] = some (Rc.success,4,d') ∧
      unifyfsLogioRead bytesLog movesAll d' 7 2 = some (Rc.success,[2,3]) ∧
      logByte bytesLog d' 10 = some 0 := by
  have hregion : ∀ h, initLogHeader 104 1 96 (by norm_num) (by norm_num) = some h →
      h.dataOffset + h.dataSz ≤ (List.replicate 104 (0 : UInt8)).length := by
    intro h hh
    have heval : (initLogHeader 104 1 96 (by norm_num) (by norm_num)).all
        (fun h => decide (h.dataOffset + h.dataSz ≤ 104)) = true := by decide +kernel
    rw [hh] at heval
    exact of_decide_eq_true heval
  obtain ⟨d',hw,hr,hkeep⟩ := read_written bytesLog ⟨List.replicate 104 0,List.replicate 104 0⟩
    ⟨hregion,hregion⟩ 6 [1,2,3,4] (by decide +kernel)
  exact ⟨d',hw,hr 1 2 (by decide),(hkeep 10 (by decide)).trans (by decide +kernel)⟩

end Log
end UnifyFS.LogData
