import UnifyFS.SpillHeaders

/-!
# The search of `init_log_header` in words

The loop of `init_log_header` once more, for every region and page size that a `size_t` can hold.
The number of header pages and their size are 64-bit words here. The loop ends before they wrap
around: a header of half of the address space is past the region or holds the map of all chunks,
because the map takes one bit for each chunk.
-/
namespace UnifyFS.HeaderSearch
open MachineWords Slotmap LogIO SpillHeaders

/-- What `init_log_header` writes, with the number of slots that the chunk map gets. -/
structure HeaderWords where
  hdrSz : ℕ
  dataSz : ℕ
  chunkSz : ℕ
  dataOffset : ℤ
  nChunks : ℕ
  deriving DecidableEq, Repr

/-- The conversion of a 64-bit word to `off_t`. -/
def toOfft (n : ℕ) : ℤ := Int.bmod n wordSize

section Search
variable (regionSize chunkSize pgsz : ℕ)

def wordsAt (hdrSize : ℕ) : HeaderWords :=
  let nChunks := (regionSize - hdrSize) / chunkSize
  ⟨hdrSize,wordMul nChunks chunkSize,chunkSize,toOfft hdrSize,nChunks⟩

/-- The loop of `init_log_header`. It has no result when it has not ended after so many turns; the
result of the function is a failure or the header. -/
def headerLoop : ℕ → ℕ → Option (Option HeaderWords)
  | 0, _ => none
  | turns + 1, hdrPages =>
    let hdrSize := wordMul hdrPages pgsz
    if hdrSize ≥ regionSize then some none
    else
      match slotmapInit ((regionSize - hdrSize) / chunkSize) (wordSub hdrSize sizeofLogHeader) with
      | none => headerLoop turns (wordAdd hdrPages 1)
      | some _ => some (some (wordsAt regionSize chunkSize hdrSize))

end Search

section Ends
variable {regionSize chunkSize pgsz last : ℕ}

/-- What the search returns: a failure, or the header on the first number of pages that is
accepted. -/
def Found (regionSize chunkSize pgsz first last : ℕ) (out : Option HeaderWords) : Prop :=
  ∀ h, out = some h → ∃ pages, first ≤ pages ∧ pages ≤ last ∧ pages * pgsz < regionSize ∧
    Accepts regionSize chunkSize pgsz pages ∧
    (pages = first ∨ ¬ Accepts regionSize chunkSize pgsz (pages - 1)) ∧
    h = wordsAt regionSize chunkSize (pages * pgsz)

theorem accepts_half {pages : ℕ} (hr : regionSize < wordSize) (hhalf : 2 ^ 63 ≤ pages * pgsz) :
    Accepts regionSize chunkSize pgsz pages := by
  have hbytes := (slotMapBytes_spec ((regionSize - pages * pgsz) / chunkSize)).2
  have hdiv := Nat.div_le_self (regionSize - pages * pgsz) chunkSize
  unfold wordSize at hr
  rw [accepts_iff (by rw [sizeofLogHeader,sizeofSlotMap]; omega),sizeofLogHeader,sizeofSlotMap]
  omega

variable (hr : regionSize < wordSize) (hpg : 0 < pgsz) (hhalf : 2 ^ 63 ≤ last * pgsz)
  (hlast : last * pgsz < wordSize)
include hr hpg hhalf hlast

/-- The search has ended when the header has half of the address space. -/
theorem headerLoop_found {turns first : ℕ} (hfirst : first ≤ last) (hturns : last < first + turns) :
    ∃ out, headerLoop regionSize chunkSize pgsz turns first = some out ∧
      Found regionSize chunkSize pgsz first last out := by
  induction turns generalizing first with
  | zero => omega
  | succ turns ih =>
    have hmul := Nat.mul_le_mul_right pgsz hfirst
    have hpages := Nat.le_mul_of_pos_right last hpg
    rw [headerLoop,wordMul_of_lt (by omega)]
    by_cases hend : first * pgsz ≥ regionSize
    · exact ⟨none,if_pos hend,nofun⟩
    rw [if_neg hend]
    have hinit := slotmapInit_isSome_iff ((regionSize - first * pgsz) / chunkSize)
      (wordSub (first * pgsz) sizeofLogHeader)
    cases hm : slotmapInit ((regionSize - first * pgsz) / chunkSize)
        (wordSub (first * pgsz) sizeofLogHeader) with
    | none =>
      have hnot : ¬ Accepts regionSize chunkSize pgsz first := by
        intro hacc
        rw [hm] at hinit
        exact Bool.false_ne_true (hinit.mpr hacc)
      have hne : first ≠ last := by
        rintro rfl
        exact hnot (accepts_half hr hhalf)
      have hnext : first + 1 ≤ last := by omega
      rw [wordAdd_of_lt (by omega)]
      obtain ⟨out,hout,hfound⟩ := ih hnext (by omega)
      refine ⟨out,hout,fun h hh => ?_⟩
      obtain ⟨pages,hle,hle',hlt,hacc,hprev,heq⟩ := hfound h hh
      refine ⟨pages,by omega,hle',hlt,hacc,.inr ?_,heq⟩
      rcases hprev with hfirst' | hrej
      · rwa [hfirst']
      · exact hrej
    | some m =>
      rw [hm] at hinit
      refine ⟨_,rfl,fun h hh => ?_⟩
      exact ⟨first,Nat.le_refl _,hfirst,Nat.lt_of_not_le hend,hinit.mp rfl,.inl rfl,
        (Option.some.inj hh).symm⟩

end Ends

variable {pgsz regionSize chunkSize n : ℕ}

theorem exists_half (hpg : 0 < pgsz) (hp : pgsz < wordSize) :
    ∃ last, 1 ≤ last ∧ 2 ^ 63 ≤ last * pgsz ∧ last * pgsz < wordSize := by
  unfold wordSize at *
  have hdiv := Nat.div_add_mod (2 ^ 63 - 1) pgsz
  have hmod := Nat.mod_lt (2 ^ 63 - 1) hpg
  refine ⟨(2 ^ 63 - 1) / pgsz + 1,Nat.succ_pos _,?_,?_⟩
  · rw [Nat.add_mul,Nat.mul_comm]
    omega
  · rw [Nat.add_mul,Nat.mul_comm]
    by_cases hsmall : pgsz ≤ 2 ^ 63
    · omega
    · rw [Nat.div_eq_of_lt (by omega)]
      omega

theorem hdrSz_lt_of_rejected {pages : ℕ} (hr : regionSize < wordSize)
    (hpg : sizeofLogHeader + sizeofSlotMap < pgsz) (hpages : 2 ≤ pages)
    (hlt : pages * pgsz < regionSize) (hrej : ¬ Accepts regionSize chunkSize pgsz (pages - 1)) :
    pages * pgsz < 2 ^ 63 := by
  obtain ⟨k,rfl⟩ : ∃ k, pages = k + 2 := ⟨pages - 2,by omega⟩
  have hsplit : (k + 2) * pgsz = (k + 1) * pgsz + pgsz := by rw [Nat.add_mul,Nat.add_mul]; omega
  have hone : pgsz ≤ (k + 1) * pgsz := Nat.le_mul_of_pos_left pgsz (Nat.succ_pos k)
  rw [show k + 2 - 1 = k + 1 from rfl,accepts_iff (by omega)] at hrej
  have hbytes := (slotMapBytes_spec ((regionSize - (k + 1) * pgsz) / chunkSize)).2
  have hdiv := Nat.div_le_self (regionSize - (k + 1) * pgsz) chunkSize
  unfold wordSize at hr
  rw [sizeofLogHeader,sizeofSlotMap] at hrej
  omega

theorem toOfft_of_lt (h : n < 2 ^ 63) : toOfft n = n := by
  unfold toOfft wordSize
  rw [Int.bmod_eq_of_le] <;> omega

theorem toOfft_emod (h : n < wordSize) : toOfft n % (wordSize : ℤ) = n := by
  rw [toOfft,Int.bmod_emod]
  exact Int.emod_eq_of_lt (Int.natCast_nonneg n) (Int.ofNat_lt.mpr h)

/-- For a region below 2^63 bytes the words do not wrap around: this is the header that
`initLogHeaderLoop` finds. -/
theorem headerLoop_of_initLogHeaderLoop {turns first : ℕ} {hr : regionSize < 2 ^ 63}
    {hc : 0 < chunkSize} {h : LogHeader} (hturns : first + turns < wordSize)
    (hi : initLogHeaderLoop regionSize chunkSize pgsz hr hc turns first = some h) :
    headerLoop regionSize chunkSize pgsz turns first =
      some (some ⟨h.hdrSz,h.dataSz,h.chunkSz,h.dataOffset,h.totalSlots⟩) := by
  induction turns generalizing first with
  | zero => simp only [initLogHeaderLoop,reduceCtorEq] at hi
  | succ turns ih =>
    rw [initLogHeaderLoop] at hi
    split_ifs at hi with hend
    have hlt : first * pgsz < 2 ^ 63 := by omega
    rw [headerLoop,wordMul_of_lt (hlt.trans (by decide)),if_neg hend]
    dsimp only at hi ⊢
    split at hi
    · next hnone =>
      rw [hnone,wordAdd_of_lt (by omega)]
      exact ih (by omega) hi
    · next m hm =>
      cases hi
      have hdata := Nat.div_mul_le_self (regionSize - first * pgsz) chunkSize
      rw [hm,wordsAt,wordMul_of_lt (by unfold wordSize; omega),toOfft_of_lt hlt]

/-- For every region, every chunk size and every page that is larger than the two structures, the
search ends, and a header that it finds has room for the structures and for the bits of all
chunks; the chunks lie behind it in the region. -/
theorem header_search_ends (regionSize chunkSize pgsz : ℕ) (hr : regionSize < wordSize)
    (_hc : 1 ≤ chunkSize) (hp : pgsz < wordSize) (hpg : sizeofLogHeader + sizeofSlotMap < pgsz) :
    ∀ turns, wordSize ≤ turns → ∃ out, headerLoop regionSize chunkSize pgsz turns 1 = some out ∧
      ∀ h, out = some h →
        sizeofLogHeader + sizeofSlotMap + slotMapBytes h.nChunks ≤ h.hdrSz ∧
        h.dataOffset % wordSize = h.hdrSz ∧ (pgsz < 2 ^ 63 → h.dataOffset = h.hdrSz) ∧
        h.dataSz = h.nChunks * chunkSize ∧ h.hdrSz + h.dataSz ≤ regionSize := by
  intro turns hturns
  have hpos : 0 < pgsz := by omega
  obtain ⟨last,hone,hhalf,hlast⟩ := exists_half hpos hp
  have hpages := Nat.le_mul_of_pos_right last hpos
  obtain ⟨out,hout,hfound⟩ : ∃ out, headerLoop regionSize chunkSize pgsz turns 1 = some out ∧
      Found regionSize chunkSize pgsz 1 last out :=
    headerLoop_found hr hpos hhalf hlast hone (by omega)
  refine ⟨out,hout,fun h hh => ?_⟩
  obtain ⟨pages,hfirst,-,hlt,hacc,hprev,rfl⟩ := hfound h hh
  have hroom := Nat.le_mul_of_pos_left pgsz hfirst
  rw [accepts_iff (by omega)] at hacc
  have hdata := Nat.div_mul_le_self (regionSize - pages * pgsz) chunkSize
  dsimp only [wordsAt]
  rw [wordMul_of_lt (by omega)]
  refine ⟨by omega,toOfft_emod (hlt.trans hr),fun hlong => toOfft_of_lt ?_,rfl,by omega⟩
  by_cases hsecond : 2 ≤ pages
  · exact hdrSz_lt_of_rejected hr hpg hsecond hlt (hprev.resolve_left (by omega))
  · rwa [show pages = 1 by omega,Nat.one_mul]

theorem header_search_ends_small : ∃ h,
    headerLoop (1024 * 4096) 4096 4096 wordSize 1 = some (some h) ∧
      sizeofLogHeader + sizeofSlotMap + slotMapBytes h.nChunks ≤ h.hdrSz ∧
      h.hdrSz + h.dataSz ≤ 1024 * 4096 := by
  obtain ⟨out,hout,hfound⟩ := header_search_ends (1024 * 4096) 4096 4096 (by decide) (by decide)
    (by decide) (by decide) wordSize (Nat.le_refl _)
  have hsome : (headerLoop (1024 * 4096) 4096 4096 wordSize 1).any Option.isSome = true := by
    decide +kernel
  rw [hout] at hsome
  obtain ⟨h,rfl⟩ := Option.isSome_iff_exists.mp hsome
  exact ⟨h,hout,(hfound h rfl).1,(hfound h rfl).2.2.2.2⟩

end UnifyFS.HeaderSearch
