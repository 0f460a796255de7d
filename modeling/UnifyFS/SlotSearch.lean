import UnifyFS.Slotmap

/-!
# The slot search as a scan

The loop of `slotmap_reserve` looks at one byte of the use map after another and
sometimes skips bytes. What it returns is the place at the first byte that has one.
For at most eight slots a place is a run of zero bits in the byte, or the longest run
of the byte together with the longest run of the next, where these meet. For more
slots it is a run of zero bytes. Whether there is a place is a plain condition on the
bits.
-/
namespace UnifyFS.SlotSearch
open Slotmap List Option

/-- The longest run of zero bits that `find_consecutive_zero_bits` finds in a byte. -/
def freeBits (v : BitVec 8) : ℕ := (findConsecutiveZeroBits v 0).1

def freeStart (v : BitVec 8) : ℕ := (findConsecutiveZeroBits v 0).2.toNat

theorem findConsecutiveZeroBits_eq (v : BitVec 8) (n : ℕ) :
    findConsecutiveZeroBits v n = (freeBits v,if n ≤ freeBits v then (freeStart v : ℤ) else -1) :=
  rfl

theorem zeroBits_free (v : BitVec 8) : ZeroBits v (freeStart v) (freeBits v) :=
  zeroRuns_spec v 8 0 (0,0) ⟨by simp,by simp⟩

instance (v : BitVec 8) (bit n : ℕ) : Decidable (ZeroBits v bit n) :=
  inferInstanceAs (Decidable (_ ∧ ∀ k < n, _))

variable {v : BitVec 8} {bit : ℕ} {left k : ℕ}

theorem zeroRun_max (h : bit + left = 8) (hz : ZeroBits v bit k) :
    k ≤ zeroRun v left bit := by
  induction left generalizing bit k with
  | zero =>
    have := hz.1
    omega
  | succ left ih =>
    rw [zeroRun,byteValBit_ne_zero (by omega)]
    cases k with
    | zero => exact Nat.zero_le _
    | succ k =>
      have hbit : v.getLsbD bit = false := hz.2 0 (Nat.succ_pos k)
      rw [hbit]
      apply Nat.succ_le_succ
      apply ih (by omega)
      refine ⟨by have := hz.1; omega,?_⟩
      intro j hj
      rw [Nat.add_right_comm]
      exact hz.2 (j + 1) (by omega)

theorem zeroRun_stop (h : bit + left = 8) (hlt : bit + zeroRun v left bit < 8) :
    v.getLsbD (bit + zeroRun v left bit) = true := by
  by_contra hclear
  obtain ⟨hle,hz⟩ := zeroRun_spec v left bit h
  have hmore : ZeroBits v bit (zeroRun v left bit + 1) := by
    refine ⟨by omega,?_⟩
    intro k hk
    rcases Nat.lt_succ_iff_lt_or_eq.mp hk with hin | rfl
    · exact hz k hin
    · simpa using hclear
  have := zeroRun_max h hmore
  omega

/-- One turn of the outer loop keeps the longer one of two runs. -/
theorem zeroRuns_succ (fuel : ℕ) (best : ℕ × ℕ) (hbit : bit < 8) :
    ∃ best', zeroRuns v (fuel + 1) bit best =
        zeroRuns v fuel (bit + zeroRun v (8 - bit) bit + 1) best' ∧
      best.1 ≤ best'.1 ∧ zeroRun v (8 - bit) bit ≤ best'.1 := by
  refine ⟨_,by rw [zeroRuns,if_pos hbit],?_⟩
  split
  · next hmax => exact ⟨Nat.le_of_lt hmax,Nat.le_refl _⟩
  · next hmax => exact ⟨Nat.le_refl _,Nat.le_of_not_lt hmax⟩

theorem le_zeroRuns (v : BitVec 8) (fuel bit : ℕ) (best : ℕ × ℕ) :
    best.1 ≤ (zeroRuns v fuel bit best).1 := by
  induction fuel generalizing bit best with
  | zero => exact Nat.le_refl _
  | succ fuel ih =>
    by_cases hbit : bit < 8
    · obtain ⟨best',heq,hbest,-⟩ := zeroRuns_succ fuel best hbit
      rw [heq]
      exact Nat.le_trans hbest (ih _ best')
    · rw [zeroRuns,if_neg hbit]

theorem zeroRuns_max {fuel c : ℕ} (best : ℕ × ℕ) (hfuel : 8 ≤ bit + fuel) (hc : bit ≤ c)
    (hz : ZeroBits v c k) : k ≤ (zeroRuns v fuel bit best).1 := by
  have hend := hz.1
  induction fuel generalizing bit best with
  | zero => omega
  | succ fuel ih =>
    by_cases hbit : bit < 8
    · obtain ⟨best',heq,-,hrun⟩ := zeroRuns_succ fuel best hbit
      rw [heq]
      by_cases hin : c ≤ bit + zeroRun v (8 - bit) bit
      · -- a run that starts within this one also ends within it
        apply Nat.le_trans _ (Nat.le_trans hrun (le_zeroRuns v fuel _ best'))
        by_contra hlong
        have hset := zeroRun_stop (v := v) (Nat.add_sub_of_le (Nat.le_of_lt hbit)) (by omega)
        obtain ⟨j,hj⟩ := Nat.exists_eq_add_of_le hin
        rw [hj,hz.2 j (by omega)] at hset
        cases hset
      · exact ih best' (by omega) (by omega)
    · omega

theorem le_freeBits_iff {n : ℕ} (hn : 0 < n) : n ≤ freeBits v ↔ ∃ bit < 8, ZeroBits v bit n := by
  constructor
  · intro h
    obtain ⟨hle,hz⟩ := zeroBits_free v
    exact ⟨freeStart v,by omega,by omega,fun k hk => hz k (by omega)⟩
  · intro h
    obtain ⟨bit,-,hz⟩ := h
    exact zeroRuns_max (0,0) (by decide) (Nat.zero_le bit) hz

section Places
variable {usemap : UseMap} {mapBytes n byteNdx : ℕ} {s : ℕ} {f : ℕ → Option ℕ} {a b : ℕ}

/-- The longest run of the byte is at its end, that of the next one at its start, and together
they hold `n` slots. -/
def Straddles (usemap : UseMap) (mapBytes n byteNdx : ℕ) : Prop :=
  byteNdx + 1 < mapBytes ∧
    freeStart (usemap.getD byteNdx 0#8) + freeBits (usemap.getD byteNdx 0#8) = 8 ∧
    freeStart (usemap.getD (byteNdx + 1) 0#8) = 0 ∧
    n ≤ freeBits (usemap.getD byteNdx 0#8) + freeBits (usemap.getD (byteNdx + 1) 0#8)

instance (usemap : UseMap) (mapBytes n byteNdx : ℕ) :
    Decidable (Straddles usemap mapBytes n byteNdx) :=
  inferInstanceAs (Decidable (_ ∧ _ ∧ _ ∧ _))

theorem straddles_succ : Straddles usemap mapBytes n byteNdx ↔
      Straddles usemap (mapBytes + 1) n byteNdx ∧ byteNdx + 1 < mapBytes := by
  unfold Straddles
  omega

theorem reserveInBytes_eq (usemap : UseMap) (mapBytes n byteNdx : ℕ) :
    reserveInBytes usemap mapBytes n byteNdx =
      if n ≤ freeBits (usemap.getD byteNdx 0#8) ∨ Straddles usemap mapBytes n byteNdx then
        some (byteNdx * 8 + freeStart (usemap.getD byteNdx 0#8))
      else none := by
  unfold reserveInBytes
  simp only [findConsecutiveZeroBits_eq,byteBitToSlot,ge_iff_le,Nat.le_refl,if_true]
  by_cases hfit : n ≤ freeBits (usemap.getD byteNdx 0#8)
  · simp only [hfit,true_or,if_true,Int.toNat_natCast]
  · by_cases hmeet : Straddles usemap mapBytes n byteNdx
    · simp only [hfit,hmeet,or_true,if_true,if_false]
      obtain ⟨hnext,htail,hhead,htotal⟩ := hmeet
      have hneed : n - freeBits (usemap.getD byteNdx 0#8) ≤
          freeBits (usemap.getD (byteNdx + 1) 0#8) := by omega
      rw [if_pos hnext,if_pos (by omega),if_pos ⟨hneed,by omega⟩,Int.toNat_natCast]
    · simp only [hfit,hmeet,or_false,if_false]
      by_cases hneed : n - freeBits (usemap.getD byteNdx 0#8) ≤
          freeBits (usemap.getD (byteNdx + 1) 0#8)
      · simp only [hneed,if_true]
        split_ifs with hnext htail hhead
        · exact absurd ⟨hnext,by omega,by omega,by omega⟩ hmeet
        all_goals rfl
      · simp only [hneed,false_and,if_false,ite_self]

theorem freeBits_full : freeBits 0xFF#8 = 0 := by decide

theorem freeStart_full : freeStart 0xFF#8 = 0 := by decide

theorem freeBits_le (v : BitVec 8) : freeBits v ≤ 8 := by
  have := (zeroBits_free v).1
  omega

theorem reserveInBytes_full (hn : 0 < n) (hfull : usemap.getD byteNdx 0#8 = 0xFF#8) :
    reserveInBytes usemap mapBytes n byteNdx = none := by
  rw [reserveInBytes_eq,if_neg]
  unfold Straddles
  rw [hfull,freeBits_full,freeStart_full]
  omega

/-- Two bytes hold at most sixteen slots, and those only where there are two bytes left. -/
theorem reserveInBytes_large (hn : 8 < n) (hend : mapBytes < byteNdx + slotMapBytes n) :
    reserveInBytes usemap mapBytes n byteNdx = none := by
  have hbits := freeBits_le (usemap.getD byteNdx 0#8)
  have hbits' := freeBits_le (usemap.getD (byteNdx + 1) 0#8)
  have hbytes := slotMapBytes_spec n
  rw [reserveInBytes_eq,if_neg]
  unfold Straddles
  omega

/-- All bytes `byteNdx, …, byteNdx + k - 1` are zero. -/
def ZeroBytes (usemap : UseMap) (byteNdx k : ℕ) : Prop :=
  ∀ j < k, usemap.getD (byteNdx + j) 0#8 = 0#8

instance (usemap : UseMap) (byteNdx k : ℕ) : Decidable (ZeroBytes usemap byteNdx k) :=
  inferInstanceAs (Decidable (∀ j < k, _))

theorem zeroBytes_le (usemap : UseMap) (want byteNdx : ℕ) :
    zeroBytes usemap want byteNdx ≤ want := by
  induction want generalizing byteNdx with
  | zero => exact Nat.le_refl _
  | succ want ih =>
    rw [zeroBytes]
    split_ifs
    · exact Nat.succ_le_succ (ih _)
    · exact Nat.zero_le _

theorem zeroBytes_spec (usemap : UseMap) (want byteNdx : ℕ) :
    ZeroBytes usemap byteNdx (zeroBytes usemap want byteNdx) ∧
      (zeroBytes usemap want byteNdx < want →
        usemap.getD (byteNdx + zeroBytes usemap want byteNdx) 0#8 ≠ 0#8) := by
  induction want generalizing byteNdx with
  | zero => exact ⟨fun j hj => absurd hj (Nat.not_lt_zero j),fun h => absurd h (Nat.lt_irrefl 0)⟩
  | succ want ih =>
    rw [zeroBytes]
    split_ifs with hz
    · obtain ⟨hrun,hstop⟩ := ih (byteNdx + 1)
      refine ⟨?_,?_⟩
      · intro j hj
        cases j with
        | zero => exact hz
        | succ j =>
          rw [Nat.add_succ,← Nat.succ_add]
          exact hrun j (Nat.lt_of_succ_lt_succ hj)
      · intro hlt
        rw [← Nat.add_assoc,Nat.add_right_comm]
        exact hstop (Nat.lt_of_succ_lt_succ hlt)
    · exact ⟨fun j hj => absurd hj (Nat.not_lt_zero j),fun _ => hz⟩

theorem zeroBytes_eq_iff {k : ℕ} : zeroBytes usemap k byteNdx = k ↔ ZeroBytes usemap byteNdx k := by
  obtain ⟨hrun,hstop⟩ := zeroBytes_spec usemap k byteNdx
  constructor
  · intro h
    rwa [h] at hrun
  · intro h
    by_contra hne
    have hlt := Nat.lt_of_le_of_ne (zeroBytes_le usemap k byteNdx) hne
    exact hstop hlt (h _ hlt)

/-- What the search takes when it is at a byte. -/
def place (usemap : UseMap) (mapBytes n byteNdx : ℕ) : Option ℕ :=
  if n ≤ 8 then reserveInBytes usemap mapBytes n byteNdx
  else if byteNdx + slotMapBytes n ≤ mapBytes ∧ ZeroBytes usemap byteNdx (slotMapBytes n) then
    some (byteNdx * 8)
  else none

theorem lt_slotMapBytes_iff : 1 < slotMapBytes n ↔ 8 < n := by
  have := slotMapBytes_spec n
  omega

theorem place_full (hn : 0 < n) (hfull : usemap.getD byteNdx 0#8 = 0xFF#8) :
    place usemap mapBytes n byteNdx = none := by
  unfold place
  split_ifs with hsmall hzero
  · exact reserveInBytes_full hn hfull
  · have hfirst := hzero.2 0 (by have := slotMapBytes_spec n; omega)
    rw [Nat.add_zero,hfull] at hfirst
    cases hfirst
  · rfl

theorem place_eq_reserveInBytes (h : ¬ (1 < slotMapBytes n ∧ byteNdx + slotMapBytes n ≤ mapBytes)) :
    place usemap mapBytes n byteNdx = reserveInBytes usemap mapBytes n byteNdx := by
  unfold place
  by_cases hsmall : n ≤ 8
  · rw [if_pos hsmall]
  · have hlarge := Nat.lt_of_not_le hsmall
    have hend := Nat.lt_of_not_le fun hle => h ⟨lt_slotMapBytes_iff.mpr hlarge,hle⟩
    rw [if_neg hsmall,if_neg fun hfit => Nat.not_le_of_lt hend hfit.1,
      reserveInBytes_large hlarge hend]

theorem place_of_zeroBytes (hn : 8 < n) (hle : byteNdx + slotMapBytes n ≤ mapBytes)
    (hzero : ZeroBytes usemap byteNdx (slotMapBytes n)) :
    place usemap mapBytes n byteNdx = some (byteNdx * 8) := by
  rw [place,if_neg (Nat.not_le.mpr hn),if_pos ⟨hle,hzero⟩]

theorem place_of_ne_zero {c : ℕ} (hn : 8 < n) (hlo : byteNdx ≤ c)
    (hhi : c < byteNdx + slotMapBytes n) (hne : usemap.getD c 0#8 ≠ 0#8) :
    place usemap mapBytes n byteNdx = none := by
  rw [place,if_neg (Nat.not_le.mpr hn),if_neg]
  intro h
  apply hne
  rw [← Nat.add_sub_of_le hlo]
  exact h.2 (c - byteNdx) (by omega)

theorem findSome?_range'_skip {stop : ℕ} (k : ℕ) (h : ∀ c, a ≤ c → c < a + k → f c = none) :
    (List.range' a (stop - a)).findSome? f =
      (List.range' (a + k) (stop - (a + k))).findSome? f := by
  induction k with
  | zero => rfl
  | succ k ih =>
    rw [ih fun c hlo hhi => h c hlo (by omega)]
    by_cases hlt : a + k < stop
    · rw [show stop - (a + k) = stop - (a + (k + 1)) + 1 by omega,range'_succ,
        findSome?_cons,h (a + k) (by omega) (by omega)]
      rfl
    · rw [show stop - (a + k) = 0 by omega,show stop - (a + (k + 1)) = 0 by omega]
      rfl

theorem exists_of_findSome?_range' {len : ℕ} (h : (List.range' a len).findSome? f = some s) :
    ∃ b, a ≤ b ∧ b < a + len ∧ f b = some s ∧ ∀ c, a ≤ c → c < b → f c = none := by
  induction len generalizing a with
  | zero => cases h
  | succ len ih =>
    rw [range'_succ,findSome?_cons] at h
    cases hf : f a with
    | some x =>
      rw [hf] at h
      cases h
      exact ⟨a,Nat.le_refl a,by omega,hf,fun c hlo hhi => absurd hlo (by omega)⟩
    | none =>
      rw [hf] at h
      obtain ⟨b,hlo,hhi,hb,hfirst⟩ := ih h
      refine ⟨b,by omega,by omega,hb,?_⟩
      intro c hac hcb
      by_cases hc : c = a
      · rw [hc,hf]
      · exact hfirst c (by omega) hcb

/-- The search returns the place at the first byte that has one. -/
theorem reserveSearch_eq {fuel : ℕ} (hn : 0 < n) (hfuel : mapBytes ≤ byteNdx + fuel) :
    reserveSearch usemap mapBytes n (slotMapBytes n) fuel byteNdx =
      (List.range' byteNdx (mapBytes - byteNdx)).findSome? (place usemap mapBytes n) := by
  induction fuel generalizing byteNdx with
  | zero =>
    rw [Nat.sub_eq_zero_of_le (by omega)]
    rfl
  | succ fuel ih =>
    rw [reserveSearch]
    by_cases hlt : byteNdx < mapBytes
    · have hrange : range' byteNdx (mapBytes - byteNdx) =
          byteNdx :: range' (byteNdx + 1) (mapBytes - (byteNdx + 1)) := by
        rw [show mapBytes - byteNdx = mapBytes - (byteNdx + 1) + 1 by omega,range'_succ]
      rw [if_pos hlt]
      by_cases hfull : usemap.getD byteNdx 0#8 = 0xFF#8
      · rw [if_pos hfull,ih (by omega),hrange,findSome?_cons,place_full hn hfull]
      · rw [if_neg hfull]
        by_cases hmulti : slotMapBytes n > 1 ∧ byteNdx + slotMapBytes n ≤ mapBytes
        · have hlarge := lt_slotMapBytes_iff.mp hmulti.1
          dsimp only
          split_ifs with hrun
          · rw [hrange,findSome?_cons,
              place_of_zeroBytes hlarge hmulti.2 (zeroBytes_eq_iff.mp hrun)]
            rfl
          · -- the byte that ends the run is part of every place that is skipped
            have hlt := Nat.lt_of_le_of_ne (zeroBytes_le usemap _ byteNdx) hrun
            have hstop := (zeroBytes_spec usemap _ byteNdx).2 hlt
            rw [ih (by omega),Nat.add_assoc]
            symm
            apply findSome?_range'_skip
            intro c hlo hhi
            exact place_of_ne_zero hlarge (by omega) (by omega) hstop
        · rw [if_neg hmulti,hrange,findSome?_cons,place_eq_reserveInBytes hmulti,ih (by omega)]
          cases reserveInBytes usemap mapBytes n byteNdx with
          | none => rfl
          | some slot => rfl
    · rw [if_neg hlt,Nat.sub_eq_zero_of_le (by omega)]
      rfl

/-- There is a place: zero bits in one byte or on both sides of a border, or zero bytes from
`start` on. -/
def Findable (usemap : UseMap) (mapBytes n start : ℕ) : Prop :=
  n ≤ 8 ∧ (∃ b < mapBytes, (∃ bit < 8, ZeroBits (usemap.getD b 0#8) bit n) ∨
      Straddles usemap mapBytes n b) ∨
    8 < n ∧ ∃ b < mapBytes, start ≤ b ∧ b + slotMapBytes n ≤ mapBytes ∧
      ZeroBytes usemap b (slotMapBytes n)

instance (usemap : UseMap) (mapBytes n start : ℕ) :
    Decidable (Findable usemap mapBytes n start) :=
  inferInstanceAs (Decidable (_ ∧ (∃ b < _, _) ∨ _ ∧ ∃ b < _, _))

theorem place_ne_none_of_le (hsmall : n ≤ 8) : place usemap mapBytes n byteNdx ≠ none ↔
      n ≤ freeBits (usemap.getD byteNdx 0#8) ∨ Straddles usemap mapBytes n byteNdx := by
  rw [place,if_pos hsmall,reserveInBytes_eq]
  split
  · next h => exact iff_of_true (some_ne_none _) h
  · next h => exact iff_of_false (fun hne => hne rfl) h

theorem place_ne_none_of_lt (hlarge : 8 < n) : place usemap mapBytes n byteNdx ≠ none ↔
      byteNdx + slotMapBytes n ≤ mapBytes ∧ ZeroBytes usemap byteNdx (slotMapBytes n) := by
  rw [place,if_neg (Nat.not_le.mpr hlarge)]
  split
  · next h => exact iff_of_true (some_ne_none _) h
  · next h => exact iff_of_false (fun hne => hne rfl) h

theorem place_eq_some_of_le (hsmall : n ≤ 8) (h : place usemap mapBytes n b = some s) :
    s = b * 8 + freeStart (usemap.getD b 0#8) ∧
      (n ≤ freeBits (usemap.getD b 0#8) ∨ Straddles usemap mapBytes n b) := by
  rw [place,if_pos hsmall,reserveInBytes_eq] at h
  split at h
  · next hfit => exact ⟨(some.inj h).symm,hfit⟩
  · cases h

theorem place_eq_some_of_lt (hlarge : 8 < n) (h : place usemap mapBytes n b = some s) :
    s = b * 8 ∧ b + slotMapBytes n ≤ mapBytes ∧ ZeroBytes usemap b (slotMapBytes n) := by
  rw [place,if_neg (Nat.not_le.mpr hlarge)] at h
  split at h
  · next hfit => exact ⟨(some.inj h).symm,hfit⟩
  · cases h

theorem findable_iff {start : ℕ} (hn : 0 < n) (hstart : n ≤ 8 → start = 0) :
    Findable usemap mapBytes n start ↔
      ∃ b, start ≤ b ∧ b < mapBytes ∧ place usemap mapBytes n b ≠ none := by
  unfold Findable
  by_cases hsmall : n ≤ 8
  · simp only [place_ne_none_of_le hsmall,le_freeBits_iff hn,hstart hsmall,Nat.zero_le,
      true_and,hsmall,Nat.not_lt.mpr hsmall,false_and,or_false]
  · have hlarge := Nat.lt_of_not_le hsmall
    simp only [place_ne_none_of_lt hlarge,hsmall,false_and,false_or,hlarge,true_and]
    exact exists_congr fun b => and_left_comm

end Places

section Maps
variable {t n : ℕ}

def searchByte (m : SlotMap t) (n : ℕ) : ℕ :=
  if m.lastUsedSlot ≠ -1 ∧ slotMapBytes n > 1 then slotByte m.lastUsedSlot.toNat else 0

theorem searchByte_of_le (m : SlotMap t) (hsmall : n ≤ 8) : searchByte m n = 0 := by
  have hbytes : ¬ 1 < slotMapBytes n := fun h => Nat.not_lt.mpr hsmall (lt_slotMapBytes_iff.mp h)
  exact if_neg fun h => hbytes h.2

theorem search_eq (m : SlotMap t) (hn : 0 < n) (hfree : n ≤ getFreeSlots m) :
    m.search n = (List.range' (searchByte m n) (slotMapBytes t - searchByte m n)).findSome?
      (place m.useMap (slotMapBytes t) n) := by
  unfold SlotMap.search
  rw [if_neg (Nat.ne_of_gt hn),if_neg (Nat.not_lt.mpr hfree)]
  exact reserveSearch_eq hn (Nat.le_add_left _ _)

theorem search_first {m : SlotMap t} {s : ℕ} (h : m.search n = some s) :
    ∃ b, searchByte m n ≤ b ∧ b < slotMapBytes t ∧ place m.useMap (slotMapBytes t) n b = some s ∧
      ∀ c, searchByte m n ≤ c → c < b → place m.useMap (slotMapBytes t) n c = none := by
  obtain ⟨hn,hfree⟩ := m.search_free h
  rw [search_eq m hn hfree] at h
  obtain ⟨b,hlo,hhi,hb,hfirst⟩ := exists_of_findSome?_range' h
  exact ⟨b,hlo,by omega,hb,hfirst⟩

theorem search_ne_none_iff (m : SlotMap t) (hn : 0 < n) : m.search n ≠ none ↔ n ≤ getFreeSlots m ∧
      Findable m.useMap (slotMapBytes t) n (searchByte m n) := by
  rw [findable_iff hn (searchByte_of_le m)]
  by_cases hfree : n ≤ getFreeSlots m
  · rw [search_eq m hn hfree,ne_eq,findSome?_eq_none_iff]
    simp only [mem_range'_1,hfree,true_and,not_forall,exists_prop,ne_eq,and_assoc]
    apply exists_congr
    intro b
    apply and_congr_right
    intro hb
    rw [show b < searchByte m n + (slotMapBytes t - searchByte m n) ↔ b < slotMapBytes t by omega]
  · have hnone : m.search n = none := by
      unfold SlotMap.search
      rw [if_neg (Nat.ne_of_gt hn),if_pos (Nat.lt_of_not_le hfree)]
    simp [hnone,hfree]

end Maps
end UnifyFS.SlotSearch
