import Mathlib
import UnifyFS.LogIO

/-!
# The mapped header of a spill file

A client maps the start of its spill file before it knows how large the header will be. It
divides the number of chunks of the whole file by the bits of a page, rounds down and adds one
page for the metadata. The bits that the rounding cuts off are on that page too.
`init_log_header` then looks for the first number of pages that holds the log header, the slot
map and its bits. The two numbers agree unless the bits that are needed come within 80 bytes of
a page boundary.

The estimate is a `size_t` but is passed to `map_spillfile` as an `int`. The outcome of
`mmap` for a number of bytes is a parameter.
-/
namespace UnifyFS.SpillHeaders
open MachineWords Slotmap LogIO Option

/-- The conversion of a 64-bit word to the C type `int`. -/
def toInt (n : ℕ) : ℤ := Int.bmod n (2 ^ 32)

/-- The number of bytes to map. The product is one of 64-bit words. -/
def mapSize (pgsz : ℕ) (nPages : ℤ) : ℕ := ((pgsz * nPages) % (wordSize : ℤ)).toNat

def mapSpillfile (mmap : ℕ → Bool) (pgsz : ℕ) (nPages : ℤ) : Option ℕ :=
  let mapsz := mapSize pgsz nPages
  if mmap mapsz then some mapsz else none

/-- The pages that a client maps: those for the bits of all chunks, rounded down, and one. -/
def headerPages (spillSize chunkSize pgsz : ℕ) : ℕ :=
  spillSize / chunkSize / (pgsz * 8 % wordSize) + 1

section InitClient
variable (mmap : ℕ → Bool) (spillSize chunkSize pgsz : ℕ) (hr : spillSize < 2 ^ 63)
  (hc : 0 < chunkSize)

/-- The part of `unifyfs_logio_init_client` that maps and initialises the header: the mapped
bytes and the header. The division by the bits of a page has no result when they are zero. -/
def initClientSpill : Option (ℕ × LogHeader) :=
  let chunksPerPage := pgsz * 8 % wordSize
  if chunksPerPage = 0 then none
  else
    match mapSpillfile mmap pgsz (toInt (headerPages spillSize chunkSize pgsz)) with
    | none => none
    | some mapped => (initLogHeader spillSize chunkSize pgsz hr hc).map fun h => (mapped,h)

end InitClient

section Search
variable {regionSize chunkSize pgsz : ℕ} {hr : regionSize < 2 ^ 63} {hc : 0 < chunkSize}

/-- `slotmap_init` accepts the room behind the log header on `pages` pages. -/
def Accepts (regionSize chunkSize pgsz pages : ℕ) : Prop :=
  slotMapBytes ((regionSize - pages * pgsz) / chunkSize) ≤
    wordSub (wordSub (pages * pgsz) sizeofLogHeader) sizeofSlotMap

theorem slotmapInit_isSome_iff (n sz : ℕ) :
    (slotmapInit n sz).isSome = true ↔ slotMapBytes n ≤ wordSub sz sizeofSlotMap := by
  unfold slotmapInit
  dsimp only
  split_ifs with h
  · simpa using h
  · simpa using h

theorem initLogHeaderLoop_eq_some {fuel first : ℕ} {h : LogHeader}
    (hi : initLogHeaderLoop regionSize chunkSize pgsz hr hc fuel first = some h) :
    ∃ pages, first ≤ pages ∧ h.hdrSz = pages * pgsz ∧ pages * pgsz < regionSize ∧
      Accepts regionSize chunkSize pgsz pages ∧
      ∀ j, first ≤ j → j < pages → ¬ Accepts regionSize chunkSize pgsz j := by
  induction fuel generalizing first with
  | zero => simp only [initLogHeaderLoop,reduceCtorEq] at hi
  | succ fuel ih =>
    rw [initLogHeaderLoop] at hi
    split_ifs at hi with hend
    have hinit := slotmapInit_isSome_iff ((regionSize - first * pgsz) / chunkSize)
      (wordSub (first * pgsz) sizeofLogHeader)
    dsimp only at hi
    split at hi
    · next hnone =>
      rw [hnone] at hinit
      obtain ⟨pages,hle,hsz,hlt,hacc,hleast⟩ := ih hi
      refine ⟨pages,by omega,hsz,hlt,hacc,fun j hj hjp => ?_⟩
      by_cases hj' : j = first
      · rw [hj']
        exact fun hacc' => Bool.noConfusion (hinit.mpr hacc')
      · exact hleast j (by omega) hjp
    · next m hm =>
      rw [hm] at hinit
      rw [← some.inj hi]
      exact ⟨first,le_rfl,rfl,by omega,hinit.mp rfl,fun j hj hjf => by omega⟩

/-- A page smaller than the two structures makes the room wrap around, so one page is enough. -/
theorem accepts_one (hr : regionSize < 2 ^ 63) (hpg : pgsz < sizeofLogHeader + sizeofSlotMap) :
    Accepts regionSize chunkSize pgsz 1 := by
  have hbytes := (slotMapBytes_spec ((regionSize - 1 * pgsz) / chunkSize)).2
  have hdiv := Nat.div_le_self (regionSize - 1 * pgsz) chunkSize
  unfold Accepts wordSub wordSize
  rw [sizeofLogHeader,sizeofSlotMap] at *
  split_ifs <;> omega

theorem accepts_iff {pages : ℕ} (hroom : sizeofLogHeader + sizeofSlotMap ≤ pages * pgsz) :
    Accepts regionSize chunkSize pgsz pages ↔
      slotMapBytes ((regionSize - pages * pgsz) / chunkSize) + sizeofLogHeader + sizeofSlotMap ≤
        pages * pgsz := by
  have hhdr : wordSub (pages * pgsz) sizeofLogHeader = pages * pgsz - sizeofLogHeader :=
    wordSub_of_le (by omega)
  unfold Accepts
  rw [wordSub_of_le (by omega)]
  omega

theorem slotMapBytes_mono {a b : ℕ} (h : a ≤ b) : slotMapBytes a ≤ slotMapBytes b := by
  have ha := slotMapBytes_spec a
  have hb := slotMapBytes_spec b
  omega

theorem Accepts.mono {p q : ℕ} (hpq : p ≤ q) (hroom : sizeofLogHeader + sizeofSlotMap ≤ p * pgsz)
    (h : Accepts regionSize chunkSize pgsz p) : Accepts regionSize chunkSize pgsz q := by
  have hmul := Nat.mul_le_mul_right pgsz hpq
  have hbytes : slotMapBytes ((regionSize - q * pgsz) / chunkSize) ≤
      slotMapBytes ((regionSize - p * pgsz) / chunkSize) :=
    slotMapBytes_mono (Nat.div_le_div_right (Nat.sub_le_sub_left hmul regionSize))
  rw [accepts_iff hroom] at h
  rw [accepts_iff (hroom.trans hmul)]
  omega

/-- The whole pages among the mapped bytes hold everything: there is at least one, and if the
file is longer they hold the structures and the bits of the chunks behind them. -/
def MappedSuffices (regionSize chunkSize pgsz mapped : ℕ) : Prop :=
  let whole := mapped / pgsz * pgsz
  pgsz ≤ mapped ∧ (pgsz < sizeofLogHeader + sizeofSlotMap ∨ regionSize ≤ whole ∨
    slotMapBytes ((regionSize - whole) / chunkSize) + sizeofLogHeader + sizeofSlotMap ≤ whole)

instance (regionSize chunkSize pgsz mapped : ℕ) :
    Decidable (MappedSuffices regionSize chunkSize pgsz mapped) :=
  inferInstanceAs (Decidable (_ ∧ _))

theorem hdrSz_le_iff (hpg : 0 < pgsz) {h : LogHeader}
    (hi : initLogHeader regionSize chunkSize pgsz hr hc = some h) (mapped : ℕ) :
    h.hdrSz ≤ mapped ↔ MappedSuffices regionSize chunkSize pgsz mapped := by
  obtain ⟨pages,hone,hsz,hlt,hacc,hleast⟩ := initLogHeaderLoop_eq_some hi
  have hpos : pgsz ≤ mapped ↔ 1 ≤ mapped / pgsz := by
    rw [Nat.le_div_iff_mul_le hpg,Nat.one_mul]
  rw [hsz,← Nat.le_div_iff_mul_le hpg]
  generalize hq : mapped / pgsz = q at *
  unfold MappedSuffices
  rw [hq]
  constructor
  · intro hle
    refine ⟨hpos.mpr (by omega),?_⟩
    by_cases hsmall : pgsz < sizeofLogHeader + sizeofSlotMap
    · exact Or.inl hsmall
    · have hroom : ∀ j, 1 ≤ j → sizeofLogHeader + sizeofSlotMap ≤ j * pgsz := fun j hj =>
        (Nat.le_of_not_lt hsmall).trans (Nat.le_mul_of_pos_left pgsz hj)
      refine Or.inr (Or.inr ((accepts_iff (hroom q (by omega))).mp ?_))
      exact hacc.mono hle (hroom pages hone)
  · rintro ⟨hmapped,hcase⟩
    by_contra hlt'
    have hless : q < pages := by omega
    -- the search went past the whole pages that are mapped
    have hrej := hleast q (hpos.mp hmapped) hless
    rcases hcase with hsmall | hend | hfit
    · exact hleast 1 le_rfl (by have := hpos.mp hmapped; omega) (accepts_one hr hsmall)
    · have hmul : q * pgsz ≤ pages * pgsz := Nat.mul_le_mul_right pgsz (by omega)
      omega
    · exact hrej ((accepts_iff (by omega)).mpr hfit)

end Search

/-- The chosen header is inside the mapped bytes exactly if the whole pages that were mapped
hold the structures and the bits of the chunks behind them. -/
theorem header_inside_mapping_iff (mmap : ℕ → Bool) (spillSize chunkSize pgsz : ℕ)
    (hr : spillSize < 2 ^ 63) (hc : 0 < chunkSize) (mapped : ℕ) (h : LogHeader)
    (hi : initClientSpill mmap spillSize chunkSize pgsz hr hc = some (mapped,h)) :
    h.hdrSz ≤ mapped ↔ MappedSuffices spillSize chunkSize pgsz
      (mapSize pgsz (toInt (headerPages spillSize chunkSize pgsz))) := by
  unfold initClientSpill mapSpillfile at hi
  dsimp only at hi
  split_ifs at hi with hzero
  obtain ⟨g,hg,heq⟩ := map_eq_some_iff.mp hi
  obtain ⟨rfl,rfl⟩ := Prod.mk.inj heq
  refine hdrSz_le_iff (Nat.pos_of_ne_zero ?_) hg _
  rintro rfl
  exact hzero rfl

/-- One page holds the bits of 1023 chunks. -/
theorem header_inside_mapping_small : ∃ h,
    initClientSpill (fun _ => true) (1024 * 4096) 4096 4096 (by norm_num) (by norm_num) =
      some (4096,h) ∧ h.hdrSz ≤ 4096 := by
  have heval : (initClientSpill (fun _ => true) (1024 * 4096) 4096 4096 (by norm_num)
      (by norm_num)).any (fun out => decide (out.1 = 4096)) = true := by decide +kernel
  obtain ⟨⟨mapped,h⟩,hi,hm⟩ := (any_eq_true _ _).mp heval
  obtain rfl : mapped = 4096 := of_decide_eq_true hm
  exact ⟨h,hi,(header_inside_mapping_iff _ _ _ _ _ _ _ _ hi).mpr (by decide +kernel)⟩

/-- 32130 pages of data in chunks of one page: the estimate is one page, which has room for the
bits of 32128 chunks and leaves 32129. The header takes a second page, which is not mapped. -/
theorem header_past_mapping : ∃ h,
    initClientSpill (fun _ => true) (32130 * 4096) 4096 4096 (by norm_num) (by norm_num) =
      some (4096,h) ∧ h.hdrSz = 8192 := by
  have heval : (initClientSpill (fun _ => true) (32130 * 4096) 4096 4096 (by norm_num)
      (by norm_num)).any (fun out => decide (out.1 = 4096 ∧ out.2.hdrSz = 8192)) = true := by
    decide +kernel
  obtain ⟨⟨mapped,h⟩,hi,hm⟩ := (any_eq_true _ _).mp heval
  obtain ⟨rfl,hsz⟩ := of_decide_eq_true hm
  exact ⟨h,hi,hsz⟩

end UnifyFS.SpillHeaders
