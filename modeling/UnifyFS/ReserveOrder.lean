import UnifyFS.LogIOOutcomes
import UnifyFS.SlotSearch

/-!
# Reservations that fail for more slots

The search of a slot map has three rules: runs of bits in one byte, runs across two bytes, and
runs of zero bytes, which are looked for from another byte on. A place for some slots is a place
for fewer of them under each rule, and a run of zero bytes begins with a zero byte. So a number
of slots that cannot be reserved stands for all larger ones. The allocator relies on this when it
takes the chunks at the end of shared memory after the whole request has failed there.
-/
namespace UnifyFS.ReserveOrder
open MachineWords Slotmap SlotSearch LogIO

variable {t n k : ℕ} {usemap : UseMap} {mapBytes b : ℕ}

theorem zeroBits_mono {v : BitVec 8} {bit : ℕ} (hle : n ≤ k) (h : ZeroBits v bit k) :
    ZeroBits v bit n := by
  obtain ⟨hbits,hzero⟩ := h
  exact ⟨by omega,fun j hj => hzero j (by omega)⟩

theorem straddles_mono (hle : n ≤ k) (h : Straddles usemap mapBytes k b) :
    Straddles usemap mapBytes n b := by
  obtain ⟨hnext,htail,hhead,htotal⟩ := h
  exact ⟨hnext,htail,hhead,by omega⟩

theorem searchByte_of_lt (m : SlotMap t) (hn : 8 < n) (hk : 8 < k) :
    searchByte m n = searchByte m k := by
  have hn' := lt_slotMapBytes_iff.mpr hn
  have hk' := lt_slotMapBytes_iff.mpr hk
  unfold searchByte
  simp only [hn',hk']

/-- A place for `k` slots is, or begins with, one for fewer slots. -/
theorem findable_mono (m : SlotMap t) (hle : n ≤ k)
    (h : Findable m.useMap mapBytes k (searchByte m k)) :
    Findable m.useMap mapBytes n (searchByte m n) := by
  have hbytes := slotMapBytes_spec n
  have hbytes' := slotMapBytes_spec k
  rcases h with ⟨hsmall,b,hb,hplace⟩ | ⟨hlarge,b,hb,hstart,hend,hzero⟩
  · refine .inl ⟨hle.trans hsmall,b,hb,?_⟩
    rcases hplace with ⟨bit,hbit,hrun⟩ | hmeet
    · exact .inl ⟨bit,hbit,zeroBits_mono hle hrun⟩
    · exact .inr (straddles_mono hle hmeet)
  · by_cases hsmall : n ≤ 8
    · have hfirst : m.useMap.getD b 0#8 = 0#8 := hzero 0 (by omega)
      refine .inl ⟨hsmall,b,hb,.inl ⟨0,by decide,?_⟩⟩
      rw [hfirst]
      exact ⟨by omega,fun j _ => BitVec.getLsbD_zero⟩
    · have hn := Nat.lt_of_not_le hsmall
      refine .inr ⟨hn,b,hb,?_,by omega,fun j hj => hzero j (by omega)⟩
      rwa [searchByte_of_lt m hn hlarge]

theorem reserve_none_of_le (m : SlotMap t) (hn : 1 ≤ n) (hle : n ≤ k)
    (h : slotmapReserve m n = none) : slotmapReserve m k = none := by
  rw [slotmapReserve_eq_none] at h ⊢
  by_contra hk
  obtain ⟨hfree,hfind⟩ := (search_ne_none_iff m (hn.trans hle)).mp hk
  exact (search_ne_none_iff m hn).mpr ⟨hle.trans hfree,findable_mono m hle hfind⟩ h

theorem tail_lt {h g : LogHeader} {nbytes slot chunks : ℕ} {haveSpill : Bool} (hpos : 0 < nbytes)
    (hs : allocShmem h nbytes haveSpill = some (.tail slot chunks g)) :
    chunks < bytesToChunks nbytes h.chunkSz := by
  rcases allocShmem_cases hs with ⟨_,_,-,hst⟩ | ⟨hfull,s,m,-,htail,hst⟩ | ⟨-,-,hst⟩
  · cases hst
  · cases hst
    by_contra hge
    rw [reserve_none_of_le h.chunkmap (bytesToChunks_pos h.chunk_pos hpos) (Nat.not_lt.mp hge)
      hfull] at htail
    cases htail
  · cases hst

/-- A number of slots that cannot be reserved stands for all larger ones. What an allocation
takes at the end of shared memory is less than the request, so the rest does not wrap around. -/
theorem reserve_failures_upward :
    (∀ (t : ℕ) (m : SlotMap t) (n k : ℕ), 1 ≤ n → n ≤ k → slotmapReserve m n = none →
      slotmapReserve m k = none) ∧
    ∀ (h g : LogHeader) (nbytes slot chunks : ℕ) (haveSpill : Bool), 0 < nbytes →
      allocShmem h nbytes haveSpill = some (.tail slot chunks g) →
      chunks < bytesToChunks nbytes h.chunkSz ∧ chunks * h.chunkSz < nbytes ∧
        wordSub nbytes (chunks * h.chunkSz) = nbytes - chunks * h.chunkSz := by
  refine ⟨fun t m n k hn hle => reserve_none_of_le m hn hle,?_⟩
  intro h g nbytes slot chunks _ hpos hs
  have hlt := tail_lt hpos hs
  have hmul : (chunks + 1) * h.chunkSz ≤ bytesToChunks nbytes h.chunkSz * h.chunkSz :=
    Nat.mul_le_mul_right _ hlt
  have hneed := (bytesToChunks_spec nbytes h.chunk_pos).2
  rw [Nat.add_mul] at hmul
  exact ⟨hlt,by omega,wordSub_of_le (by omega)⟩

/-- Four chunks of one byte, all of them free. -/
def fourChunks : LogHeader where
  hdrSz := 4096
  dataSz := 4
  reservedSz := 0
  chunkSz := 1
  dataOffset := 4096
  updating := false
  totalSlots := 4
  chunkmap := slotmapClear 4
  chunk_pos := by decide
  data_eq := rfl
  data_lt := by decide

theorem reserve_failures_upward_four : slotmapReserve fourChunks.chunkmap 6 = none ∧
    ∃ g, allocShmem fourChunks 5 true = some (.tail 0 4 g) ∧ 4 < bytesToChunks 5 1 := by
  refine ⟨reserve_failures_upward.1 4 fourChunks.chunkmap 5 6 (by decide) (by decide) rfl,_,rfl,?_⟩
  exact (reserve_failures_upward.2 fourChunks _ 5 0 4 true (by decide) rfl).1

/-- No slots are never reserved, by the check at the start of the function. -/
theorem reserve_zero_fails : slotmapReserve (slotmapClear 1) 0 = none ∧
    slotmapReserve (slotmapClear 1) 1 ≠ none := by
  refine ⟨rfl,?_⟩
  rw [ne_eq]
  decide +kernel

end UnifyFS.ReserveOrder
