import UnifyFS.GuardedRuns
import UnifyFS.LogIO
import UnifyFS.Spans

/-!
# Live allocations of a log

A live allocation is a byte range of the combined data area. Its part in each
region is what `get_log_sizes` computes, and its chunks there are what
`unifyfs_logio_free` would release. The invariant says, for each region, that
the chunk map holds exactly the chunks of the live allocations, each once, and
that every part starts on a chunk boundary. Non-overlap of the byte ranges is a
consequence.
-/
namespace UnifyFS.LogIOInvariant
open MachineWords Slotmap LogIO Spans GuardedRuns List

def chunkSpan (chunkSz : ℕ) (part : Span) : Span :=
  ⟨part.lo / chunkSz,bytesToChunks part.len chunkSz⟩

def memPart (memSz : ℕ) (a : Span) : Span := ⟨a.lo,(getLogSizes a.lo a.len memSz).szInMem⟩

def spillPart (memSz : ℕ) (a : Span) : Span :=
  ⟨(getLogSizes a.lo a.len memSz).spillOffset,(getLogSizes a.lo a.len memSz).szInSpill⟩

theorem memPart_eq (memSz : ℕ) (a : Span) :
    memPart memSz a = ⟨a.lo,min (a.lo + a.len) memSz - a.lo⟩ := by
  unfold memPart getLogSizes
  split_ifs <;> simp only [Span.mk.injEq,true_and] <;> omega

theorem spillPart_eq (memSz : ℕ) (a : Span) :
    spillPart memSz a = ⟨a.lo - memSz,a.lo + a.len - max a.lo memSz⟩ := by
  unfold spillPart getLogSizes
  split_ifs <;> simp only [Span.mk.injEq,true_and] <;> omega

variable {a : Span} {memSz x : ℕ}

theorem unifyfsLogioFree_iff {ctx ctx' : LogioContext} {rc : Rc} (ha : 0 < a.len) :
    unifyfsLogioFree ctx a.lo a.len = some (rc,ctx') ↔
    ∃ rc₁, freeRegion ctx.shmem (memPart ctx.memSize a).lo (memPart ctx.memSize a).len Rc.success =
        some (rc₁,ctx'.shmem) ∧
      freeRegion ctx.spillHdr (spillPart ctx.memSize a).lo (spillPart ctx.memSize a).len rc₁ =
        some (rc,ctx'.spillHdr) := by
  unfold unifyfsLogioFree
  rw [if_neg (by omega)]
  dsimp only
  constructor
  · intro hf
    split at hf
    · simp at hf
    · next rc₁ shmem hm =>
      split at hf
      · simp at hf
      · next rc₂ spill hs =>
        obtain ⟨rfl,rfl⟩ := hf
        exact ⟨rc₁,hm,hs⟩
  · rintro ⟨rc₁,hm,hs⟩
    simp only [memPart] at hm
    simp only [spillPart] at hs
    simp only [hm,hs]

/-- The chunk map holds exactly the chunks of `l`, and both counters agree. -/
structure HeaderInv (h : LogHeader) (l : List Span) : Prop where
  covers : Covers h.chunkmap.used h.totalSlots l
  used : h.chunkmap.usedSlots = total l
  fits : total l ≤ h.totalSlots
  reserved : h.reservedSz = h.chunkSz * h.chunkmap.usedSlots

namespace HeaderInv
variable {h : LogHeader} {l k : List Span} {s n : ℕ} {m : SlotMap h.totalSlots}

theorem fresh (hf : h.Fresh) : HeaderInv h [] where
  covers := Covers.nil fun i => by rw [hf.1,used_slotmapClear]
  used := by rw [hf.1]; rfl
  fits := Nat.zero_le _
  reserved := by rw [hf.1,hf.2.1]; rfl

theorem perm (hi : HeaderInv h l) (hp : l.Perm k) : HeaderInv h k :=
  ⟨hi.covers.perm hp,by rw [hi.used,total_perm hp],by rw [← total_perm hp]; exact hi.fits,
    hi.reserved⟩

theorem relock (hi : HeaderInv h l) (b : Bool) : HeaderInv { h with updating := b } l :=
  ⟨hi.covers,hi.used,hi.fits,hi.reserved⟩

theorem cons_empty (hi : HeaderInv h l) {s : Span} (hs : s.len = 0) : HeaderInv h (s :: l) where
  covers := hi.covers.cons_empty hs
  used := by rw [total_cons,hs,Nat.zero_add,hi.used]
  fits := by rw [total_cons,hs,Nat.zero_add]; exact hi.fits
  reserved := hi.reserved

theorem tail_empty {s : Span} (hi : HeaderInv h (s :: l)) (hs : s.len = 0) : HeaderInv h l where
  covers := hi.covers.tail fun i => by
    have hn : ¬ s.Mem i := fun hm => by unfold Span.Mem at hm; omega
    simp [hn]
  used := by rw [hi.used,total_cons,hs,Nat.zero_add]
  fits := by simpa [hs] using hi.fits
  reserved := hi.reserved

theorem search_le (hi : HeaderInv h l) (hs : h.chunkmap.search n = some s) :
    0 < n ∧ total l + n ≤ h.totalSlots := by
  obtain ⟨hpos,hle⟩ := h.chunkmap.search_free hs
  have hfit := hi.fits
  rw [getFreeSlots,hi.used,wordSub_of_le hfit] at hle
  exact ⟨hpos,by omega⟩

theorem commit (hi : HeaderInv h l) (hr : slotmapReserve h.chunkmap n = some (s,m))
    (hfit : s + n ≤ h.totalSlots) :
    HeaderInv (h.commit m n) (⟨s,n⟩ :: l) where
  covers := by
    refine hi.covers.cons (fun i hm => slotmapReserve_clear hr hm.1 hm.2) hfit fun i => ?_
    exact (slotmapReserve_spec hr).2.2 i
  used := by
    show m.usedSlots = _
    rw [(slotmapReserve_spec hr).2.1,hi.used,total_cons,Nat.add_comm]
  fits := by
    rw [total_cons,Nat.add_comm]
    exact (hi.search_le (slotmapReserve_spec hr).1).2
  reserved := by
    show h.reservedSz + n * h.chunkSz = h.chunkSz * m.usedSlots
    rw [(slotmapReserve_spec hr).2.1,hi.reserved,Nat.mul_add,Nat.mul_comm n]

theorem giveBack (hi : HeaderInv h l) (hr : slotmapReserve h.chunkmap n = some (s,m)) :
    HeaderInv (LogHeader.giveBack { h with chunkmap := m } s n) l := by
  obtain ⟨hmap,hused⟩ := slotmapRelease_reserved hr
  refine ⟨hi.covers.congr fun i => ?_,hused.trans hi.used,hi.fits,?_⟩
  · show (slotmapRelease m s n).2.used i = _
    rw [SlotMap.used,hmap]
    rfl
  · show h.reservedSz = h.chunkSz * (slotmapRelease m s n).2.usedSlots
    rw [hused]
    exact hi.reserved

/-- Freeing a range whose chunks head the list removes exactly these chunks. -/
theorem free {part : Span} (hi : HeaderInv h (chunkSpan h.chunkSz part :: l))
    (hpos : 0 < part.len) {rc : Rc} {h' : LogHeader}
    (hf : freeChunks h part.lo part.len = some (rc,h')) :
    rc = Rc.success ∧ h'.dataSz = h.dataSz ∧ h'.chunkSz = h.chunkSz ∧ HeaderInv h' l := by
  unfold freeChunks at hf
  split at hf
  · simp at hf
  · next g hg =>
    obtain ⟨-,rfl⟩ := lockLogHeader_eq_some hg
    simp only [Option.some.injEq,Prod.mk.injEq] at hf
    obtain ⟨rfl,rfl⟩ := hf
    have hn := bytesToChunks_pos h.chunk_pos hpos
    have hset : h.chunkmap.used (part.lo / h.chunkSz) = true :=
      hi.covers.bit_of_mem mem_cons_self ⟨le_rfl,Nat.lt_add_of_pos_right hn⟩
    obtain ⟨hrc,hused,hbits⟩ := slotmapRelease_spec (bytesToChunks part.len h.chunkSz) hset
    have hcount := hi.used
    have hfits := hi.fits
    rw [total_cons] at hcount hfits
    have hlen : (chunkSpan h.chunkSz part).len = bytesToChunks part.len h.chunkSz := rfl
    refine ⟨hrc,rfl,rfl,hi.covers.tail hbits,?_,Nat.le_trans (Nat.le_add_left _ _) hfits,?_⟩
    · show (slotmapRelease h.chunkmap _ _).2.usedSlots = _
      rw [hused,wordSub_of_le (by omega)]
      omega
    · show wordSub h.reservedSz _ = h.chunkSz * (slotmapRelease h.chunkmap _ _).2.usedSlots
      rw [hused,hi.reserved,wordSub_of_le (Nat.mul_le_mul_left _ (by omega)),
        wordSub_of_le (by omega),Nat.mul_sub]

end HeaderInv

/-- One region and the live allocations; `part` gives the range that an
allocation occupies there. -/
def RegionInv (r : Option LogHeader) (part : Span → Span) (live : List Span) : Prop :=
  match r with
  | none => ∀ a ∈ live, (part a).len = 0
  | some h => HeaderInv h (live.map fun a => chunkSpan h.chunkSz (part a)) ∧
      ∀ a ∈ live, 0 < (part a).len → h.chunkSz ∣ (part a).lo

theorem chunkSpan_mem {chunkSz : ℕ} (hc : 0 < chunkSz) {part : Span} (hd : chunkSz ∣ part.lo)
    {y : ℕ} (hy : part.Mem y) : (chunkSpan chunkSz part).Mem (y / chunkSz) := by
  obtain ⟨q,hq⟩ := hd
  have hlo : part.lo / chunkSz = q := by rw [hq,Nat.mul_div_cancel_left _ hc]
  refine ⟨Nat.div_le_div_right hy.1,?_⟩
  show y / chunkSz < part.lo / chunkSz + bytesToChunks part.len chunkSz
  rw [hlo,Nat.div_lt_iff_lt_mul hc,Nat.add_mul]
  have hs := (bytesToChunks_spec part.len hc).1
  have hy' := hy.2
  rw [hq,Nat.mul_comm] at hy'
  omega

namespace RegionInv
variable {r : Option LogHeader} {h : LogHeader} {part : Span → Span} {live live' : List Span}
  {a : Span} {n s : ℕ} {m : SlotMap h.totalSlots}

theorem nil (hf : ∀ h, r = some h → h.Fresh) : RegionInv r part [] := by
  cases r with
  | none => simp [RegionInv]
  | some h => exact ⟨HeaderInv.fresh (hf h rfl),by simp⟩

theorem perm (hi : RegionInv r part live) (hp : live.Perm live') : RegionInv r part live' := by
  cases r with
  | none => exact fun a ha => hi a (hp.mem_iff.mpr ha)
  | some h => exact ⟨hi.1.perm (hp.map _),fun a ha => hi.2 a (hp.mem_iff.mpr ha)⟩

theorem relock (hi : RegionInv (some h) part live) (b : Bool) :
    RegionInv (some { h with updating := b }) part live := ⟨hi.1.relock b,hi.2⟩

theorem skip (hi : RegionInv r part live) (ha : (part a).len = 0) :
    RegionInv r part (a :: live) := by
  cases r with
  | none => simpa [RegionInv,ha] using hi
  | some h =>
    have hspan : (chunkSpan h.chunkSz (part a)).len = 0 := by
      rw [chunkSpan,ha,bytesToChunks_zero]
    refine ⟨hi.1.cons_empty hspan,?_⟩
    intro b hb hpos
    rcases mem_cons.mp hb with rfl | hb
    · omega
    · exact hi.2 b hb hpos

theorem reserve (hi : RegionInv (some h) part live) (hr : slotmapReserve h.chunkmap n = some (s,m))
    (hfit : s + n ≤ h.totalSlots) (hlo : (part a).lo = s * h.chunkSz)
    (hlen : bytesToChunks (part a).len h.chunkSz = n) :
    RegionInv (some (h.commit m n)) part (a :: live) := by
  have hspan : chunkSpan h.chunkSz (part a) = ⟨s,n⟩ := by
    rw [chunkSpan,hlo,hlen,Nat.mul_div_cancel _ h.chunk_pos]
  refine ⟨?_,fun b hb hpos => ?_⟩
  · rw [map_cons]
    show HeaderInv _ (chunkSpan h.chunkSz (part a) :: _)
    rw [hspan]
    exact hi.1.commit hr hfit
  · rcases mem_cons.mp hb with rfl | hb
    · exact ⟨s,by rw [hlo,Nat.mul_comm]; rfl⟩
    · exact hi.2 b hb hpos

theorem giveBack (hi : RegionInv (some h) part live)
    (hr : slotmapReserve h.chunkmap n = some (s,m)) :
    RegionInv (some (LogHeader.giveBack { h with chunkmap := m } s n)) part live :=
  ⟨hi.1.giveBack hr,hi.2⟩

theorem free (hi : RegionInv r part (a :: live)) {rc rc' : Rc} {r' : Option LogHeader}
    (hf : freeRegion r (part a).lo (part a).len rc = some (rc',r')) :
    RegionInv r' part live ∧ regionSize r' = regionSize r ∧
      (rc = Rc.success → rc' = Rc.success) := by
  unfold freeRegion at hf
  split_ifs at hf with hz
  · simp only [Option.some.injEq,Prod.mk.injEq] at hf
    obtain ⟨rfl,rfl⟩ := hf
    refine ⟨?_,rfl,id⟩
    cases r with
    | none => exact fun b hb => hi b (mem_cons_of_mem _ hb)
    | some h =>
      have hspan : (chunkSpan h.chunkSz (part a)).len = 0 := by
        rw [chunkSpan,hz,bytesToChunks_zero]
      exact ⟨hi.1.tail_empty hspan,fun b hb => hi.2 b (mem_cons_of_mem _ hb)⟩
  · cases r with
    | none => simp at hf
    | some h =>
      simp only [Option.map_eq_some_iff,Prod.mk.injEq,Prod.exists] at hf
      obtain ⟨c,h',hc,rfl,rfl⟩ := hf
      have hh := hi.1
      obtain ⟨hrc,hdata,hchunk,hinv⟩ := hh.free (Nat.pos_of_ne_zero hz) hc
      refine ⟨⟨?_,fun b hb => ?_⟩,hdata,fun _ => hrc⟩
      · rw [hchunk]
        exact hinv
      · rw [hchunk]
        exact hi.2 b (mem_cons_of_mem _ hb)

theorem lt_size (hi : RegionInv r part live) (ha : a ∈ live) {y : ℕ} (hy : (part a).Mem y) :
    y < regionSize r := by
  have hpos : 0 < (part a).len := by unfold Span.Mem at hy; omega
  cases r with
  | none => exact absurd (hi a ha) (by omega)
  | some h =>
    show y < h.dataSz
    have hm := chunkSpan_mem h.chunk_pos (hi.2 a ha hpos) hy
    have hlt := hi.1.covers.inside _ (mem_map_of_mem ha) _ hm
    rw [h.data_eq]
    exact (Nat.div_lt_iff_lt_mul h.chunk_pos).mp hlt

theorem parts_apart (hi : RegionInv r part live) :
    live.Pairwise fun a b => (part a).Apart (part b) := by
  cases r with
  | none =>
    refine pairwise_of_forall_mem_list fun a _ b hb => ?_
    exact Span.apart_of_len_zero (hi b hb)
  | some h =>
    have hp := pairwise_map.mp hi.1.covers.apart
    refine hp.imp_of_mem fun {a b} ha hb hab y hya hyb => ?_
    have hpa : 0 < (part a).len := by unfold Span.Mem at hya; omega
    have hpb : 0 < (part b).len := by unfold Span.Mem at hyb; omega
    exact hab _ (chunkSpan_mem h.chunk_pos (hi.2 a ha hpa) hya)
      (chunkSpan_mem h.chunk_pos (hi.2 b hb hpb) hyb)

end RegionInv

theorem memPart_mem (hx : a.Mem x) (h : x < memSz) :
    (memPart memSz a).Mem x := by
  rw [memPart_eq]
  unfold Span.Mem at *
  simp only
  omega

theorem spillPart_mem (hx : a.Mem x) (h : memSz ≤ x) :
    (spillPart memSz a).Mem (x - memSz) := by
  rw [spillPart_eq]
  unfold Span.Mem at *
  simp only
  omega

/-- The invariant of a context whose regions hold `memSz` and `spillSz` bytes. -/
structure LogInv (memSz spillSz : ℕ) (ctx : LogioContext) (live : List Span) : Prop where
  memSize : ctx.memSize = memSz
  spillSize : ctx.spillSize = spillSz
  pos : ∀ a ∈ live, 0 < a.len
  shmem : RegionInv ctx.shmem (memPart memSz) live
  spill : RegionInv ctx.spillHdr (spillPart memSz) live

namespace LogInv
variable {memSz spillSz : ℕ} {ctx : LogioContext} {live live' : List Span} {a : Span}

theorem fresh (hf : ctx.Fresh) : LogInv ctx.memSize ctx.spillSize ctx [] :=
  ⟨rfl,rfl,by simp,RegionInv.nil hf.1,RegionInv.nil hf.2⟩

theorem perm (hi : LogInv memSz spillSz ctx live) (hp : live.Perm live') :
    LogInv memSz spillSz ctx live' :=
  ⟨hi.memSize,hi.spillSize,fun a ha => hi.pos a (hp.mem_iff.mpr ha),hi.shmem.perm hp,
    hi.spill.perm hp⟩

theorem unlock {sh sp : Option LogHeader} (hi : LogInv memSz spillSz ⟨sh,sp⟩ live) :
    LogInv memSz spillSz ⟨sh.map unlockLogHeader,sp⟩ live := by
  cases sh with
  | none => exact hi
  | some h => exact ⟨hi.memSize,hi.spillSize,hi.pos,hi.shmem.relock false,hi.spill⟩

theorem apart (hi : LogInv memSz spillSz ctx live) : live.Pairwise Span.Apart := by
  refine (hi.shmem.parts_apart.and hi.spill.parts_apart).imp fun {a b} ⟨hm,hs⟩ x hxa hxb => ?_
  rcases Nat.lt_or_ge x memSz with hx | hx
  · exact hm x (memPart_mem hxa hx) (memPart_mem hxb hx)
  · exact hs _ (spillPart_mem hxa hx) (spillPart_mem hxb hx)

theorem inside (hi : LogInv memSz spillSz ctx live) (ha : a ∈ live) :
    a.lo + a.len ≤ memSz + spillSz := by
  have hpos := hi.pos a ha
  -- The last byte is enough: it lies in one of the two regions.
  have hlast : a.Mem (a.lo + a.len - 1) := ⟨by omega,by omega⟩
  rcases Nat.lt_or_ge (a.lo + a.len - 1) memSz with hx | hx
  · omega
  · have hlt := hi.spill.lt_size ha (spillPart_mem hlast hx)
    have hsize : regionSize ctx.spillHdr = spillSz := hi.spillSize
    omega

end LogInv
end UnifyFS.LogIOInvariant
