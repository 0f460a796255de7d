import Mathlib.Tactic.IntervalCases
import UnifyFS.MachineWords
import UnifyFS.PackedBits
import UnifyFS.ReturnCodes

/-!
# Slot maps

Embedding of `common/src/slotmap.c`. A slot map tracks the used slots of a
region in a byte array that follows the structure in memory; its length is
fixed at initialisation, so it is a field of the type. `NULL` arguments are not
modelled. A reservation that fails leaves the map unchanged, which is why
`slotmapReserve` returns the new map only together with a start slot.

The byte search of `slotmap_reserve` and its bit search in one byte are kept as
the loops of the source. The byte array is rounded up to whole bytes, and the
search never compares a slot with `total_slots`: what it guarantees is only that
the run it returns is clear and lies inside the byte array.
-/
namespace UnifyFS.Slotmap
open MachineWords

abbrev UseMap := List (BitVec 8)

def slotByte (slot : ℕ) : ℕ := slot >>> 3
def slotBit (slot : ℕ) : ℕ := slot &&& 0x7
def byteBitToSlot (byte bit : ℕ) : ℕ := byte * 8 + bit
def byteValBit (byteVal : BitVec 8) (bit : ℕ) : BitVec 8 := byteVal &&& (1#8 <<< bit)

def setUsemapByteBit (usemap : UseMap) (byte bit : ℕ) : UseMap :=
  usemap.set byte (usemap.getD byte 0#8 ||| (1#8 <<< bit))

def clearUsemapByteBit (usemap : UseMap) (byte bit : ℕ) : UseMap :=
  let byteMask := 0xFF#8 - (1#8 <<< bit)
  usemap.set byte (usemap.getD byte 0#8 &&& byteMask)

def checkSlot (usemap : UseMap) (slot : ℕ) : Bool :=
  byteValBit (usemap.getD (slotByte slot) 0#8) (slotBit slot) != 0#8

def useSlot (usemap : UseMap) (slot : ℕ) : UseMap :=
  setUsemapByteBit usemap (slotByte slot) (slotBit slot)

def releaseSlot (usemap : UseMap) (slot : ℕ) : UseMap :=
  clearUsemapByteBit usemap (slotByte slot) (slotBit slot)

/-- The two `for` loops over `start, …, start + n - 1`. -/
def useSlots (usemap : UseMap) (start : ℕ) : ℕ → UseMap
  | 0 => usemap
  | n + 1 => useSlots (useSlot usemap start) (start + 1) n

def releaseSlots (usemap : UseMap) (start : ℕ) : ℕ → UseMap
  | 0 => usemap
  | n + 1 => releaseSlots (releaseSlot usemap start) (start + 1) n

def slotMapBytes (totalSlots : ℕ) : ℕ :=
  if slotBit totalSlots ≠ 0 then slotByte totalSlots + 1 else slotByte totalSlots

theorem slotByte_eq (slot : ℕ) : slotByte slot = slot / 8 := by
  simp [slotByte,Nat.shiftRight_eq_div_pow]

theorem slotBit_eq (slot : ℕ) : slotBit slot = slot % 8 := by
  exact Nat.and_two_pow_sub_one_eq_mod slot 3

theorem slotMapBytes_spec (totalSlots : ℕ) :
    totalSlots ≤ slotMapBytes totalSlots * 8 ∧ slotMapBytes totalSlots * 8 < totalSlots + 8 := by
  unfold slotMapBytes
  rw [slotByte_eq,slotBit_eq]
  split_ifs <;> omega

theorem byteValBit_ne_zero {bit : ℕ} (hb : bit < 8) (v : BitVec 8) :
    (byteValBit v bit != 0#8) = v.getLsbD bit := by
  have hmask : 1#8 <<< bit ≠ 0#8 := by interval_cases bit <;> decide
  unfold byteValBit
  rw [← BitVec.twoPow_eq] at hmask ⊢
  rw [BitVec.and_twoPow]
  cases v.getLsbD bit with
  | false => rfl
  | true => exact bne_iff_ne.mpr hmask

theorem checkSlot_eq (usemap : UseMap) (slot : ℕ) :
    checkSlot usemap slot = PackedBits.get usemap slot := by
  unfold checkSlot PackedBits.get
  rw [slotByte_eq,slotBit_eq,byteValBit_ne_zero (Nat.mod_lt _ (by decide))]

theorem useSlot_eq (usemap : UseMap) (slot : ℕ) :
    useSlot usemap slot = PackedBits.insert usemap slot := by
  unfold useSlot setUsemapByteBit PackedBits.insert
  rw [slotByte_eq,slotBit_eq]

theorem releaseSlot_eq (usemap : UseMap) (slot : ℕ) :
    releaseSlot usemap slot = PackedBits.erase usemap slot := by
  unfold releaseSlot clearUsemapByteBit PackedBits.erase
  rw [slotByte_eq,slotBit_eq]
  have hb : slot % 8 < 8 := Nat.mod_lt _ (by decide)
  have hm : ∀ b < 8, (0xFF#8 - (1#8 <<< b)) = ~~~(1#8 <<< b) := by decide
  simp only [hm _ hb]

theorem useSlots_eq (usemap : UseMap) (start n : ℕ) :
    useSlots usemap start n = PackedBits.insertRange usemap start n := by
  induction n generalizing usemap start with
  | zero => rfl
  | succ n ih => rw [useSlots,ih,useSlot_eq,PackedBits.insertRange]

theorem releaseSlots_eq (usemap : UseMap) (start n : ℕ) :
    releaseSlots usemap start n = PackedBits.eraseRange usemap start n := by
  induction n generalizing usemap start with
  | zero => rfl
  | succ n ih => rw [releaseSlots,ih,releaseSlot_eq,PackedBits.eraseRange]

/-- `total_slots` never changes once the map is initialised, so it is an index
of the type; the use map always has the bytes that this many slots need. -/
structure SlotMap (totalSlots : ℕ) where
  usedSlots : ℕ
  firstUsedSlot : ℤ
  lastUsedSlot : ℤ
  useMap : UseMap
  mapLen : useMap.length = slotMapBytes totalSlots
  deriving DecidableEq, Repr

variable {t : ℕ} {numSlots s : ℕ} {m m' : SlotMap t}

def SlotMap.used (m : SlotMap t) (i : ℕ) : Bool := checkSlot m.useMap i

def getFreeSlots (m : SlotMap t) : ℕ := wordSub t m.usedSlots

def slotmapClear (t : ℕ) : SlotMap t where
  usedSlots := 0
  firstUsedSlot := -1
  lastUsedSlot := -1
  useMap := List.replicate (slotMapBytes t) 0#8
  mapLen := List.length_replicate

/-- `sizeof(slot_map)`: four 64-bit fields. -/
def sizeofSlotMap : ℕ := 32

def slotmapInit (numSlots regionSz : ℕ) : Option (SlotMap numSlots) :=
  let availUseBytes := wordSub regionSz sizeofSlotMap
  let neededUseBytes := slotMapBytes numSlots
  if neededUseBytes > availUseBytes then none else some (slotmapClear numSlots)

theorem slotmapInit_eq_some {regionSz : ℕ} {m : SlotMap numSlots}
    (h : slotmapInit numSlots regionSz = some m) : m = slotmapClear numSlots := by
  unfold slotmapInit at h
  rcases Nat.lt_or_ge (wordSub regionSz sizeofSlotMap) (slotMapBytes numSlots) with hlt | hge
  · rw [if_pos hlt] at h
    cases h
  · rw [if_neg (Nat.not_lt.mpr hge)] at h
    exact (Option.some.inj h).symm

/-- Inner `while` of `find_consecutive_zero_bits`; the first argument counts
down to the end of the byte. -/
def zeroRun (byteVal : BitVec 8) : ℕ → ℕ → ℕ
  | 0, _ => 0
  | left + 1, bit =>
    if byteValBit byteVal bit != 0#8 then 0 else zeroRun byteVal left (bit + 1) + 1

/-- Outer `for` of `find_consecutive_zero_bits`. A run ends on a set bit or on
the end of the byte, and the loop resumes one bit further on. -/
def zeroRuns (byteVal : BitVec 8) : ℕ → ℕ → ℕ × ℕ → ℕ × ℕ
  | 0, _, best => best
  | fuel + 1, bit, (maxFree, freeStart) =>
    if bit < 8 then
      let runMax := zeroRun byteVal (8 - bit) bit
      zeroRuns byteVal fuel (bit + runMax + 1)
        (if runMax > maxFree then (runMax,bit) else (maxFree,freeStart))
    else (maxFree,freeStart)

/-- Length of the first longest run of zero bits, and its start or `-1` when
fewer than `numBits` bits were found. -/
def findConsecutiveZeroBits (byteVal : BitVec 8) (numBits : ℕ) : ℕ × ℤ :=
  let best := zeroRuns byteVal 8 0 (0,0)
  (best.1,if best.1 ≥ numBits then (best.2 : ℤ) else -1)

/-- The last branch of the search: at most two bytes are looked at. -/
def reserveInBytes (usemap : UseMap) (mapBytes numSlots byteNdx : ℕ) : Option ℕ :=
  let byteVal := usemap.getD byteNdx 0#8
  let first := findConsecutiveZeroBits byteVal numSlots
  if first.1 ≥ numSlots then some (byteBitToSlot byteNdx first.2.toNat)
  else if byteNdx + 1 < mapBytes then
    let bitInByte := (findConsecutiveZeroBits byteVal first.1).2
    if bitInByte = 8 - (first.1 : ℤ) then
      let needBits := numSlots - first.1
      let second := findConsecutiveZeroBits (usemap.getD (byteNdx + 1) 0#8) needBits
      if second.1 ≥ needBits ∧ second.2 = 0 then some (byteBitToSlot byteNdx bitInByte.toNat)
      else none
    else none
  else none

/-- Zero bytes from `byteNdx` on, at most `want` of them. -/
def zeroBytes (usemap : UseMap) : ℕ → ℕ → ℕ
  | 0, _ => 0
  | want + 1, byteNdx =>
    if usemap.getD byteNdx 0#8 = 0#8 then zeroBytes usemap want (byteNdx + 1) + 1 else 0

/-- The search loop of `slotmap_reserve`. Each turn moves at least one byte on,
so `fuel = mapBytes` is never used up. -/
def reserveSearch (usemap : UseMap) (mapBytes numSlots slotBytes : ℕ) : ℕ → ℕ → Option ℕ
  | 0, _ => none
  | fuel + 1, byteNdx =>
    if byteNdx < mapBytes then
      if usemap.getD byteNdx 0#8 = 0xFF#8 then
        reserveSearch usemap mapBytes numSlots slotBytes fuel (byteNdx + 1)
      else if slotBytes > 1 ∧ byteNdx + slotBytes ≤ mapBytes then
        let runCount := zeroBytes usemap slotBytes byteNdx
        if runCount = slotBytes then some (byteBitToSlot byteNdx 0)
        else reserveSearch usemap mapBytes numSlots slotBytes fuel (byteNdx + runCount + 1)
      else match reserveInBytes usemap mapBytes numSlots byteNdx with
        | some slot => some slot
        | none => reserveSearch usemap mapBytes numSlots slotBytes fuel (byteNdx + 1)
    else none

/-- Everything `slotmap_reserve` does before it marks slots: the check of the
free count and the search from the byte of `last_used_slot` or from the start. -/
def SlotMap.search (m : SlotMap t) (numSlots : ℕ) : Option ℕ :=
  if numSlots = 0 then none
  else if getFreeSlots m < numSlots then none
  else
    let slotBytes := slotMapBytes numSlots
    let searchStart :=
      if m.lastUsedSlot ≠ -1 ∧ slotBytes > 1 then slotByte m.lastUsedSlot.toNat else 0
    let mapBytes := slotMapBytes t
    reserveSearch m.useMap mapBytes numSlots slotBytes mapBytes searchStart

def slotmapReserve (m : SlotMap t) (numSlots : ℕ) : Option (ℕ × SlotMap t) :=
  match m.search numSlots with
  | none => none
  | some startSlot =>
    let endSlot := startSlot + numSlots - 1
    some (startSlot,
      { usedSlots := m.usedSlots + numSlots
        firstUsedSlot :=
          if m.firstUsedSlot = -1 ∨ (startSlot : ℤ) < m.firstUsedSlot then (startSlot : ℤ)
          else m.firstUsedSlot
        lastUsedSlot :=
          if m.lastUsedSlot = -1 ∨ (endSlot : ℤ) > m.lastUsedSlot then (endSlot : ℤ)
          else m.lastUsedSlot
        useMap := useSlots m.useMap startSlot numSlots
        mapLen := by rw [useSlots_eq,PackedBits.length_insertRange,m.mapLen] })

/-- First used slot from `slot` on, or the first slot that is not below `t`. -/
def scanUp (usemap : UseMap) (t : ℕ) : ℕ → ℕ → ℕ
  | 0, slot => slot
  | fuel + 1, slot =>
    if slot < t ∧ checkSlot usemap slot = false then scanUp usemap t fuel (slot + 1) else slot

/-- Last used slot below `slot`, or `-1`. -/
def scanDown (usemap : UseMap) : ℕ → ℤ
  | 0 => -1
  | slot + 1 => if checkSlot usemap slot then (slot : ℤ) else scanDown usemap slot

/-- The new first used slot is stored in `last_used_slot`, as in the source. -/
def slotmapRelease (m : SlotMap t) (startIndex numSlots : ℕ) : Rc × SlotMap t :=
  if checkSlot m.useMap startIndex = false then (Rc.einval,m)
  else
    let endSlot := startIndex + numSlots - 1
    let usemap := releaseSlots m.useMap startIndex numSlots
    have mapLen : usemap.length = slotMapBytes t := by
      show (releaseSlots m.useMap startIndex numSlots).length = _
      rw [releaseSlots_eq,PackedBits.length_eraseRange,m.mapLen]
    let usedSlots := wordSub m.usedSlots numSlots
    if usedSlots = 0 then (Rc.success,⟨0,-1,-1,usemap,mapLen⟩)
    else
      let last :=
        if (startIndex : ℤ) = m.firstUsedSlot then
          let firstSlot := scanUp usemap t (t - (endSlot + 1)) (endSlot + 1)
          if firstSlot = t then (-1 : ℤ) else (firstSlot : ℤ)
        else m.lastUsedSlot
      let last := if (endSlot : ℤ) = last then scanDown usemap startIndex else last
      (Rc.success,⟨usedSlots,m.firstUsedSlot,last,usemap,mapLen⟩)

section Search

/-- Zero bits `bit, …, bit + n - 1` of one byte. -/
def ZeroBits (byteVal : BitVec 8) (bit n : ℕ) : Prop :=
  bit + n ≤ 8 ∧ ∀ k < n, byteVal.getLsbD (bit + k) = false

theorem zeroRun_spec (byteVal : BitVec 8) (left bit : ℕ) (h : bit + left = 8) :
    ZeroBits byteVal bit (zeroRun byteVal left bit) := by
  induction left generalizing bit with
  | zero => exact ⟨by simp only [zeroRun]; omega,by simp [zeroRun]⟩
  | succ left ih =>
    rw [zeroRun,byteValBit_ne_zero (by omega)]
    split_ifs with hb
    · exact ⟨by omega,by simp⟩
    · obtain ⟨hle,hz⟩ := ih (bit + 1) (by omega)
      refine ⟨by omega,fun k hk => ?_⟩
      cases k with
      | zero => simpa using hb
      | succ k =>
        rw [show bit + (k + 1) = bit + 1 + k by omega]
        exact hz k (by omega)

theorem zeroRuns_spec (byteVal : BitVec 8) (fuel bit : ℕ) (best : ℕ × ℕ)
    (h : ZeroBits byteVal best.2 best.1) :
    ZeroBits byteVal (zeroRuns byteVal fuel bit best).2 (zeroRuns byteVal fuel bit best).1 := by
  induction fuel generalizing bit best with
  | zero => exact h
  | succ fuel ih =>
    simp only [zeroRuns]
    split_ifs with hb hm
    · exact ih _ _ (zeroRun_spec byteVal (8 - bit) bit (by omega))
    · exact ih _ _ h
    · exact h

/-- When enough bits were found, the start returned is that of a zero run. -/
theorem findConsecutiveZeroBits_spec {byteVal : BitVec 8} {numBits : ℕ}
    (h : numBits ≤ (findConsecutiveZeroBits byteVal numBits).1) :
    ∃ bit : ℕ, (findConsecutiveZeroBits byteVal numBits).2 = bit ∧
      ZeroBits byteVal bit (findConsecutiveZeroBits byteVal numBits).1 := by
  refine ⟨(zeroRuns byteVal 8 0 (0,0)).2,?_,zeroRuns_spec _ _ _ _ ⟨by simp,by simp⟩⟩
  exact if_pos h

theorem findConsecutiveZeroBits_fst (byteVal : BitVec 8) (n k : ℕ) :
    (findConsecutiveZeroBits byteVal n).1 = (findConsecutiveZeroBits byteVal k).1 := rfl

/-- All slots `s, …, s + n - 1` are clear in the use map and inside it. -/
def ClearRun (usemap : UseMap) (s n : ℕ) : Prop :=
  s + n ≤ usemap.length * 8 ∧ ∀ i, s ≤ i → i < s + n → checkSlot usemap i = false

theorem checkSlot_byte (usemap : UseMap) (byteNdx bit : ℕ) (hb : bit < 8) :
    checkSlot usemap (byteNdx * 8 + bit) = (usemap.getD byteNdx 0#8).getLsbD bit := by
  rw [checkSlot_eq,PackedBits.get]
  have hd : (byteNdx * 8 + bit) / 8 = byteNdx := by omega
  have hm : (byteNdx * 8 + bit) % 8 = bit := by omega
  rw [hd,hm]

variable {usemap : UseMap} {byteNdx n k s numSlots : ℕ}

theorem clearRun_of_zeroBits {bit : ℕ} (hlt : byteNdx < usemap.length)
    (h : ZeroBits (usemap.getD byteNdx 0#8) bit n) (hk : k ≤ n) :
    ClearRun usemap (byteNdx * 8 + bit) k := by
  refine ⟨by have := h.1; omega,fun i hlo hhi => ?_⟩
  obtain ⟨j,rfl⟩ := Nat.exists_eq_add_of_le hlo
  have hj := h.1
  rw [Nat.add_assoc,checkSlot_byte usemap byteNdx (bit + j) (by omega)]
  exact h.2 j (by omega)

theorem ClearRun.append (h : ClearRun usemap s n) (h' : ClearRun usemap (s + n) k) :
    ClearRun usemap s (n + k) := by
  refine ⟨by have := h'.1; omega,fun i hlo hhi => ?_⟩
  rcases Nat.lt_or_ge i (s + n) with hi | hi
  · exact h.2 i hlo hi
  · exact h'.2 i hi (by omega)

theorem ClearRun.mono (h : ClearRun usemap s n) (hk : k ≤ n) : ClearRun usemap s k :=
  ⟨by have := h.1; omega,fun i hlo hhi => h.2 i hlo (by omega)⟩

theorem reserveInBytes_clear {mapBytes : ℕ} (hlen : usemap.length = mapBytes)
    (hlt : byteNdx < mapBytes) (h : reserveInBytes usemap mapBytes numSlots byteNdx = some s) :
    ClearRun usemap s numSlots := by
  unfold reserveInBytes at h
  simp only [byteBitToSlot] at h
  split_ifs at h with hfirst hnext htail hsecond
  · obtain ⟨bit,hbit,hz⟩ := findConsecutiveZeroBits_spec hfirst
    rw [hbit] at h
    cases h
    exact clearRun_of_zeroBits (by omega) hz hfirst
  · -- The run at the tail of this byte continues at the head of the next one.
    have hagain := le_of_eq (findConsecutiveZeroBits_fst (usemap.getD byteNdx 0#8) numSlots
      (findConsecutiveZeroBits (usemap.getD byteNdx 0#8) numSlots).1)
    obtain ⟨bit,hbit,hz⟩ := findConsecutiveZeroBits_spec hagain
    obtain ⟨bit',hbit',hz'⟩ := findConsecutiveZeroBits_spec hsecond.1
    rw [hbit,Int.toNat_natCast] at h
    cases h
    rw [findConsecutiveZeroBits_fst _ _ numSlots] at hz
    have hzero : bit' = 0 := by have := hsecond.2; omega
    subst hzero
    have hhead := clearRun_of_zeroBits (by omega) hz le_rfl
    have hrest := clearRun_of_zeroBits (by omega) hz' hsecond.1
    generalize (findConsecutiveZeroBits (usemap.getD byteNdx 0#8) numSlots).1 = free at *
    have hstart : (byteNdx + 1) * 8 + 0 = byteNdx * 8 + bit + free := by omega
    rw [hstart] at hrest
    simpa only [Nat.add_sub_cancel' (Nat.le_of_not_ge hfirst)] using hhead.append hrest

theorem zeroBytes_clear (usemap : UseMap) (want byteNdx : ℕ)
    (hle : byteNdx + want ≤ usemap.length) :
    ClearRun usemap (byteNdx * 8) (zeroBytes usemap want byteNdx * 8) := by
  induction want generalizing byteNdx with
  | zero => exact ⟨by simp only [zeroBytes]; omega,by simp only [zeroBytes]; omega⟩
  | succ want ih =>
    rw [zeroBytes]
    split_ifs with hz
    · have hhead : ClearRun usemap (byteNdx * 8 + 0) 8 :=
        clearRun_of_zeroBits (by omega) ⟨le_rfl,fun k _ => by rw [hz]; simp⟩ le_rfl
      have hrest := ih (byteNdx + 1) (by omega)
      rw [show (byteNdx + 1) * 8 = byteNdx * 8 + 0 + 8 by omega] at hrest
      simpa only [Nat.add_zero,Nat.add_mul,Nat.one_mul,Nat.add_comm 8] using hhead.append hrest
    · exact ⟨by omega,by omega⟩

theorem reserveSearch_clear {mapBytes slotBytes fuel : ℕ} (hlen : usemap.length = mapBytes)
    (hbytes : numSlots ≤ slotBytes * 8)
    (h : reserveSearch usemap mapBytes numSlots slotBytes fuel byteNdx = some s) :
    ClearRun usemap s numSlots := by
  induction fuel generalizing byteNdx with
  | zero => simp [reserveSearch] at h
  | succ fuel ih =>
    simp only [reserveSearch] at h
    split_ifs at h with hlt hfull hmulti hrun
    · exact ih h
    · cases h
      have hz := zeroBytes_clear usemap slotBytes byteNdx (by omega)
      rw [hrun] at hz
      simpa only [byteBitToSlot,Nat.add_zero] using hz.mono hbytes
    · exact ih h
    · split at h
      · next slot hin =>
        cases h
        exact reserveInBytes_clear hlen hlt hin
      · exact ih h

theorem SlotMap.search_clear {m : SlotMap t} (h : m.search numSlots = some s) :
    ClearRun m.useMap s numSlots := by
  unfold SlotMap.search at h
  split_ifs at h
  exact reserveSearch_clear m.mapLen (slotMapBytes_spec numSlots).1 h

theorem SlotMap.search_free {m : SlotMap t} (h : m.search numSlots = some s) :
    0 < numSlots ∧ numSlots ≤ getFreeSlots m := by
  unfold SlotMap.search at h
  split_ifs at h
  omega

end Search

@[simp] theorem used_slotmapClear (t i : ℕ) : (slotmapClear t).used i = false := by
  rw [SlotMap.used,checkSlot_eq]
  exact PackedBits.get_replicate_zero _ _

theorem slotmapReserve_eq_none : slotmapReserve m numSlots = none ↔ m.search numSlots = none := by
  unfold slotmapReserve
  split <;> simp_all

/-- A reservation marks the run that the search found and nothing else. -/
theorem slotmapReserve_spec (h : slotmapReserve m numSlots = some (s,m')) :
    m.search numSlots = some s ∧ m'.usedSlots = m.usedSlots + numSlots ∧
      ∀ i, m'.used i = (decide (s ≤ i ∧ i < s + numSlots) || m.used i) := by
  unfold slotmapReserve at h
  split at h
  · simp at h
  · next start hs =>
    obtain ⟨rfl,rfl⟩ := h
    refine ⟨hs,rfl,fun i => ?_⟩
    simp only [SlotMap.used,checkSlot_eq,useSlots_eq]
    exact PackedBits.get_insertRange (m.search_clear hs).1 i

theorem slotmapReserve_clear (h : slotmapReserve m numSlots = some (s,m')) {i : ℕ} (hlo : s ≤ i)
    (hhi : i < s + numSlots) : m.used i = false :=
  (m.search_clear (slotmapReserve_spec h).1).2 i hlo hhi

theorem slotmapRelease_spec {start : ℕ} (numSlots : ℕ) (h : m.used start = true) :
    (slotmapRelease m start numSlots).1 = Rc.success ∧
      (slotmapRelease m start numSlots).2.usedSlots = wordSub m.usedSlots numSlots ∧
      ∀ i, (slotmapRelease m start numSlots).2.used i =
        (m.used i && !decide (start ≤ i ∧ i < start + numSlots)) := by
  have hbits : ∀ i, checkSlot (releaseSlots m.useMap start numSlots) i =
      (m.used i && !decide (start ≤ i ∧ i < start + numSlots)) := by
    intro i
    rw [SlotMap.used,checkSlot_eq,checkSlot_eq,releaseSlots_eq]
    exact PackedBits.get_eraseRange (by decide) _ _ _ _
  rw [SlotMap.used] at h
  unfold slotmapRelease
  simp only [h,Bool.true_eq_false,if_false]
  split_ifs with hzero
  · exact ⟨rfl,hzero.symm,hbits⟩
  all_goals exact ⟨rfl,rfl,hbits⟩

theorem slotmapRelease_unset {start : ℕ} (numSlots : ℕ) (h : m.used start = false) :
    slotmapRelease m start numSlots = (Rc.einval,m) := by
  rw [SlotMap.used] at h
  rw [slotmapRelease,if_pos h]

theorem slotmapRelease_reserved {n : ℕ} (h : slotmapReserve m n = some (s,m')) :
    (slotmapRelease m' s n).2.useMap = m.useMap ∧
      (slotmapRelease m' s n).2.usedSlots = m.usedSlots := by
  obtain ⟨hsearch,hused,hbits⟩ := slotmapReserve_spec h
  have hn := (m.search_free hsearch).1
  have hset : m'.used s = true := by
    rw [hbits,decide_eq_true ⟨Nat.le_refl s,Nat.lt_add_of_pos_right hn⟩,Bool.true_or]
  obtain ⟨-,hused',hbits'⟩ := slotmapRelease_spec n hset
  constructor
  · apply PackedBits.ext_get (by decide)
    · rw [(slotmapRelease m' s n).2.mapLen,m.mapLen]
    · intro i
      rw [← checkSlot_eq,← checkSlot_eq]
      change (slotmapRelease m' s n).2.used i = m.used i
      rw [hbits',hbits]
      by_cases hi : s ≤ i ∧ i < s + n
      · rw [slotmapReserve_clear h hi.1 hi.2,decide_eq_true hi]
        rfl
      · simp [hi]
  · rw [hused',hused,wordSub_of_le (Nat.le_add_left _ _),Nat.add_sub_cancel]

end UnifyFS.Slotmap
