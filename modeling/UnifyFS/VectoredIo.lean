import UnifyFS.ByteBuffers
import Mathlib.Algebra.BigOperators.Group.List.Basic

/-!
# Reading and writing several buffers

The wrappers of `readv` and `writev` in `client/src/unifyfs-sysio.c`. Both call the wrapper for one
buffer after another. Reads and writes of single buffers are primitive here and behave as
documented: a read gets what the file has at the position, up to the size of the buffer, a write
puts some of the bytes at the position, or at the end of the file in append mode, and the position
moves by the number of bytes. A call for no bytes changes nothing. Any call may fail, and then it
changes nothing either.

`readv` takes the zero of an empty buffer for the end of the file, and `writev` returns -1 if a
buffer fails, no matter what the buffers before it have written.
-/
namespace UnifyFS.VectoredIo
open ByteBuffers List

structure Descriptor where
  bytes : List UInt8
  pos : ℕ
  append : Bool
  deriving DecidableEq, Repr

namespace Descriptor

def available (d : Descriptor) (count : ℕ) : List UInt8 := (d.bytes.drop d.pos).take count

def read (d : Descriptor) (fails : Bool) (count : ℕ) : Option (List UInt8) × Descriptor :=
  if fails then (none,d)
  else (some (d.available count),{ d with pos := d.pos + (d.available count).length })

def start (d : Descriptor) : ℕ := if d.append then d.bytes.length else d.pos

def store (d : Descriptor) (data : List UInt8) : Descriptor :=
  if data.isEmpty then d
  else { d with bytes := overwrite 0 d.bytes d.start data, pos := d.start + data.length }

/-- A write of one buffer, with the number of bytes that it takes if it does not fail. -/
def write (d : Descriptor) (answer : Option ℕ) (buf : List UInt8) : Option ℕ × Descriptor :=
  match answer with
  | none => (none,d)
  | some n => (some (min n buf.length),d.store (buf.take n))

end Descriptor

/-- The loop of `readv`: the return value, the bytes in each buffer, and the descriptor. -/
def readvLoop (fails : ℕ → Bool) : ℕ → Descriptor → ℤ → List ℕ → ℤ × List (List UInt8) × Descriptor
  | _, d, ret, [] => (ret,[],d)
  | i, d, ret, len :: lens =>
    match d.read (fails i) len with
    | (none,d) => (-1,List.replicate (lens.length + 1) [],d)
    | (some got,d) =>
      if got.length = 0 then (ret,List.replicate (lens.length + 1) [],d)
      else
        let out := readvLoop fails (i + 1) d (ret + got.length) lens
        (out.1,got :: out.2.1,out.2.2)

def readv (fails : ℕ → Bool) (d : Descriptor) (lens : List ℕ) :
    ℤ × List (List UInt8) × Descriptor :=
  readvLoop fails 0 d 0 lens

/-- The loop of `writev`: the return value and the descriptor. -/
def writevLoop (answers : ℕ → Option ℕ) :
    ℕ → Descriptor → ℤ → List (List UInt8) → ℤ × Descriptor
  | _, d, ret, [] => (ret,d)
  | i, d, ret, buf :: bufs =>
    match d.write (answers i) buf with
    | (none,d) => (-1,d)
    | (some n,d) =>
      if n ≠ buf.length then (ret + n,d) else writevLoop answers (i + 1) d (ret + n) bufs

def writev (answers : ℕ → Option ℕ) (d : Descriptor) (bufs : List (List UInt8)) : ℤ × Descriptor :=
  writevLoop answers 0 d 0 bufs

/-- Bytes put into buffers of the given sizes, one after another. -/
def scatter : List ℕ → List UInt8 → List (List UInt8)
  | [], _ => []
  | len :: lens, bytes => bytes.take len :: scatter lens (bytes.drop len)

def readOnce (fails : ℕ → Bool) (d : Descriptor) (lens : List ℕ) :
    ℤ × List (List UInt8) × Descriptor :=
  match d.read (!lens.isEmpty && fails 0) lens.sum with
  | (none,d) => (-1,List.replicate lens.length [],d)
  | (some got,d) => (got.length,scatter lens got,d)

/-- How many bytes the calls take, and whether the last one fails. -/
def taken (answers : ℕ → Option ℕ) : ℕ → List (List UInt8) → ℕ × Bool
  | _, [] => (0,false)
  | i, buf :: bufs =>
    match answers i with
    | none => (0,true)
    | some n =>
      if min n buf.length ≠ buf.length then (min n buf.length,false)
      else (buf.length + (taken answers (i + 1) bufs).1,(taken answers (i + 1) bufs).2)

/-- One write of all bytes that takes the same number of them. It fails if it takes none and some
call fails. -/
def writeOnce (answers : ℕ → Option ℕ) (d : Descriptor) (bufs : List (List UInt8)) :
    ℤ × Descriptor :=
  let (n,failed) := taken answers 0 bufs
  if failed = true ∧ n = 0 then (-1,d) else (n,d.store (bufs.flatten.take n))

/-- No call fails, and the first empty buffer has none but empty ones behind it, unless the file
ends before it. -/
def ReadsOn (fails : ℕ → Bool) (size : ℕ) : ℕ → ℕ → List ℕ → Prop
  | _, _, [] => True
  | i, pos, len :: lens => fails i = false ∧
      if size ≤ pos then True
      else if len = 0 then lens.sum = 0
      else ReadsOn fails size (i + 1) (pos + len) lens

/-- The reads that come out as one: the first one fails, or the reads go on to the end. -/
def ReadsAsOne (fails : ℕ → Bool) (d : Descriptor) (lens : List ℕ) : Prop :=
  fails 0 = true ∨ ReadsOn fails d.bytes.length 0 d.pos lens

/-- The writes that come out as one: none fails after bytes have been written. -/
def WritesAsOne (answers : ℕ → Option ℕ) (bufs : List (List UInt8)) : Prop :=
  (taken answers 0 bufs).2 = true → (taken answers 0 bufs).1 = 0

section Reads
variable {fails : ℕ → Bool} {d : Descriptor} {lens : List ℕ}

theorem scatter_nil (lens : List ℕ) : scatter lens [] = List.replicate lens.length [] := by
  induction lens with
  | nil => rfl
  | cons len lens ih => simp [scatter,ih,replicate_succ]

def Descriptor.advance (d : Descriptor) (n : ℕ) : Descriptor := { d with pos := d.pos + n }

theorem advance_advance (d : Descriptor) (m n : ℕ) :
    (d.advance m).advance n = d.advance (m + n) := by
  simp [Descriptor.advance,Nat.add_assoc]

theorem length_available (d : Descriptor) (count : ℕ) :
    (d.available count).length = min count (d.bytes.length - d.pos) := by
  simp [Descriptor.available]

theorem available_add (d : Descriptor) (m n : ℕ) :
    d.available (m + n) = d.available m ++ (d.advance (d.available m).length).available n := by
  have hlen := length_available d m
  unfold Descriptor.available Descriptor.advance at *
  rw [take_add,drop_drop]
  by_cases hm : m ≤ d.bytes.length - d.pos
  · rw [hlen,Nat.min_eq_left hm]
  · have hend : d.bytes.drop (d.pos + m) = [] := drop_eq_nil_of_le (by omega)
    have hend' : d.bytes.drop (d.pos + min m (d.bytes.length - d.pos)) = [] :=
      drop_eq_nil_of_le (by omega)
    rw [hlen,hend,hend']

theorem scatter_cons (d : Descriptor) (len : ℕ) (lens : List ℕ) (n : ℕ) :
    scatter (len :: lens) (d.available (len + n)) =
      d.available len :: scatter lens ((d.advance (d.available len).length).available n) := by
  have hlen := length_available d len
  have hrest := length_available (d.advance (d.available len).length) n
  have hpos : (d.advance (d.available len).length).pos = d.pos + (d.available len).length := rfl
  have hbytes : (d.advance (d.available len).length).bytes = d.bytes := rfl
  rw [available_add,scatter]
  by_cases hfull : (d.available len).length = len
  · rw [take_left' hfull,drop_left' hfull]
  · have hnil : (d.advance (d.available len).length).available n = [] := by
      apply eq_nil_of_length_eq_zero
      rw [hrest,hbytes]
      omega
    rw [hnil,append_nil,take_of_length_le (by omega),drop_eq_nil_of_le (by omega)]

theorem readsOn_of_le {size i p q : ℕ} (hp : size ≤ p) (hq : size ≤ q) :
    ReadsOn fails size i p lens ↔ ReadsOn fails size i q lens := by
  cases lens with
  | nil => exact Iff.rfl
  | cons len lens => simp [ReadsOn,hp,hq]

theorem read_of_not_fails (len : ℕ) :
    d.read false len = (some (d.available len),d.advance (d.available len).length) := rfl

theorem stopped_eq_iff {ret : ℤ} {len : ℕ} (hempty : (d.available len).length = 0) :
    (ret,List.replicate (lens.length + 1) ([] : List UInt8),d.advance (d.available len).length) =
      (ret + (d.available (len + lens.sum)).length,
        scatter (len :: lens) (d.available (len + lens.sum)),
        d.advance (d.available (len + lens.sum)).length) ↔
    if d.bytes.length ≤ d.pos then True else len = 0 ∧ lens.sum = 0 := by
  have htotal := length_available d (len + lens.sum)
  have hnone : (d.available (len + lens.sum)).length = 0 ↔
      if d.bytes.length ≤ d.pos then True else len = 0 ∧ lens.sum = 0 := by
    split_ifs with hend
    · simp only [iff_true]
      omega
    · omega
  rw [← hnone]
  constructor
  · intro h
    have hfst := congrArg Prod.fst h
    omega
  · intro h
    rw [hempty,eq_nil_of_length_eq_zero h,scatter_nil]
    simp

theorem readsOn_advance {i len : ℕ} : ReadsOn fails d.bytes.length i (d.pos + len) lens ↔
      ReadsOn fails (d.advance (d.available len).length).bytes.length i
        (d.advance (d.available len).length).pos lens := by
  have hlen := length_available d len
  by_cases hfull : len ≤ d.bytes.length - d.pos
  · rw [hlen,Nat.min_eq_left hfull]
    exact Iff.rfl
  · apply readsOn_of_le
    · omega
    · simp only [Descriptor.advance]
      omega

/-- The loop goes on to the end of the buffers or of the file, or it gets less. -/
theorem readvLoop_eq_iff {i : ℕ} {ret : ℤ} (hret : 0 ≤ ret) :
    readvLoop fails i d ret lens = (ret + (d.available lens.sum).length,
      scatter lens (d.available lens.sum),d.advance (d.available lens.sum).length) ↔
    ReadsOn fails d.bytes.length i d.pos lens := by
  induction lens generalizing i d ret with
  | nil => simp [readvLoop,ReadsOn,scatter,Descriptor.available,Descriptor.advance]
  | cons len lens ih =>
    rw [readvLoop,ReadsOn,sum_cons]
    cases fails i with
    | true =>
      simp only [Descriptor.read,if_true,Bool.true_eq_false,false_and,iff_false]
      intro h
      have hneg := congrArg Prod.fst h
      omega
    | false =>
      have hlen := length_available d len
      simp only [read_of_not_fails,true_and]
      by_cases hempty : (d.available len).length = 0
      · rw [if_pos hempty,stopped_eq_iff hempty]
        split_ifs with hend hzero
        · exact Iff.rfl
        · simp [hzero]
        · omega
      · have hnext : 0 ≤ ret + ((d.available len).length : ℤ) := by omega
        rw [if_neg hempty,if_neg (by omega),if_neg (by omega),scatter_cons,available_add,
          length_append,readsOn_advance,← ih hnext,advance_advance]
        simp only [Prod.ext_iff,List.cons.injEq,true_and,Int.natCast_add,Int.add_assoc]

theorem readv_eq_readOnce_iff : readv fails d lens = readOnce fails d lens ↔
    ReadsAsOne fails d lens := by
  unfold readv readOnce ReadsAsOne
  cases hf : fails 0 with
  | true =>
    cases lens with
    | nil => simp [readvLoop,scatter,Descriptor.read,Descriptor.available]
    | cons len lens => simp [readvLoop,hf,Descriptor.read]
  | false =>
    rw [Bool.and_false,read_of_not_fails]
    simp only [Bool.false_eq_true,false_or]
    rw [← readvLoop_eq_iff (Int.le_refl 0),Int.zero_add]

end Reads

section Writes
variable {answers : ℕ → Option ℕ} {d : Descriptor} {bufs : List (List UInt8)}

theorem start_store {d : Descriptor} {data : List UInt8} (h : data ≠ []) :
    (d.store data).start = d.start + data.length := by
  rw [Descriptor.store,if_neg (by simpa using h)]
  cases happend : d.append with
  | true =>
    have hstart : d.start = d.bytes.length := if_pos happend
    have hlen := length_overwrite 0 d.bytes d.start data
    rw [Descriptor.start,if_pos rfl]
    dsimp only
    omega
  | false => rw [Descriptor.start,if_neg (by simp)]

theorem store_store (d : Descriptor) (data data' : List UInt8) :
    (d.store data).store data' = d.store (data ++ data') := by
  by_cases h : data = []
  · simp [h,Descriptor.store]
  · by_cases h' : data' = []
    · simp [h',Descriptor.store]
    · have hstart := start_store (d := d) h
      have hne : data ++ data' ≠ [] := by simp [h]
      rw [Descriptor.store,if_neg (by simpa using h'),hstart,Descriptor.store,Descriptor.store,
        if_neg (by simpa using h),if_neg (by simpa using hne),overwrite_overwrite,
        length_append,Nat.add_assoc]

theorem writevLoop_eq (i : ℕ) (d : Descriptor) (ret : ℤ) (bufs : List (List UInt8)) :
    writevLoop answers i d ret bufs =
      (if (taken answers i bufs).2 = true then -1 else ret + (taken answers i bufs).1,
        d.store (bufs.flatten.take (taken answers i bufs).1)) := by
  induction bufs generalizing i d ret with
  | nil => simp [writevLoop,taken,Descriptor.store]
  | cons buf bufs ih =>
    rw [writevLoop,taken]
    cases answers i with
    | none => simp [Descriptor.write,Descriptor.store]
    | some n =>
      simp only [Descriptor.write]
      by_cases hfull : min n buf.length = buf.length
      · have htake : (buf :: bufs).flatten.take (buf.length + (taken answers (i + 1) bufs).1) =
            buf.take n ++ bufs.flatten.take (taken answers (i + 1) bufs).1 := by
          rw [flatten_cons,take_length_add_append]
          rw [take_of_length_le (l := buf) (by omega)]
        rw [if_neg (not_not.mpr hfull),if_neg (not_not.mpr hfull),ih,hfull,htake,store_store]
        simp only [Int.natCast_add,Int.add_assoc]
      · have htake : (buf :: bufs).flatten.take (min n buf.length) = buf.take n := by
          rw [flatten_cons,take_append_of_le_length (Nat.min_le_right _ _)]
          simp
        rw [if_pos hfull,if_pos hfull,htake]
        simp

theorem writev_eq_writeOnce_iff : writev answers d bufs = writeOnce answers d bufs ↔
    WritesAsOne answers bufs := by
  unfold writev writeOnce WritesAsOne
  rw [writevLoop_eq]
  generalize taken answers 0 bufs = out
  obtain ⟨n,failed⟩ := out
  cases failed with
  | false => simp
  | true =>
    by_cases hn : n = 0
    · simp [hn,Descriptor.store]
    · simp only [hn,true_and,if_true,if_false,Prod.mk.injEq,and_true,forall_true_left,iff_false]
      omega

end Writes

/-- `readv` and `writev` do what one call for all buffers does, if and only if no empty buffer
hides the ones behind it, no read fails after another, and no write fails after bytes have been
written. -/
theorem vectored_as_one_iff (d : Descriptor) :
    (∀ fails lens, readv fails d lens = readOnce fails d lens ↔ ReadsAsOne fails d lens) ∧
    ∀ answers bufs, writev answers d bufs = writeOnce answers d bufs ↔ WritesAsOne answers bufs :=
  ⟨fun _ _ => readv_eq_readOnce_iff,fun _ _ => writev_eq_writeOnce_iff⟩

/-- The second of three buffers is empty, and the third one is not filled. The second of two
buffers fails, and -1 is returned for a write of one byte. -/
theorem vectored_calls_differ :
    readv (fun _ => false) ⟨[1,2,3,4],0,false⟩ [2,0,2] = (2,[[1,2],[],[]],⟨[1,2,3,4],2,false⟩) ∧
    readOnce (fun _ => false) ⟨[1,2,3,4],0,false⟩ [2,0,2] =
      (4,[[1,2],[],[3,4]],⟨[1,2,3,4],4,false⟩) ∧
    writev (fun i => if i = 0 then some 1 else none) ⟨[],0,false⟩ [[7],[8]] =
      (-1,⟨[7],1,false⟩) ∧
    writeOnce (fun i => if i = 0 then some 1 else none) ⟨[],0,false⟩ [[7],[8]] =
      (1,⟨[7],1,false⟩) := by
  decide

end UnifyFS.VectoredIo
