import Mathlib
import UnifyFS.SlotmapRuns

/-!
# The lowest and the highest used slot

A slot map remembers its lowest and its highest used slot, and both are brought up to
date with every call instead of being searched for. A reservation does this correctly.
A release does not when it gives back the lowest slots while others are used: the new
lowest slot is searched for, but it is stored as the highest one. So the two fields are
right throughout a history exactly if that never happens.
-/
namespace UnifyFS.SlotBounds
open MachineWords Slotmap Spans GuardedRuns SlotmapRuns List

variable {t : ℕ}

/-- Both fields are minus one and no slot is used, or they are the least and the greatest
used slot. -/
def Bounded (m : SlotMap t) : Prop :=
  m.firstUsedSlot = -1 ∧ m.lastUsedSlot = -1 ∧ (∀ i, m.used i = false) ∨
    ∃ lo hi : ℕ, m.firstUsedSlot = lo ∧ m.lastUsedSlot = hi ∧
      IsLeast {i | m.used i = true} lo ∧ IsGreatest {i | m.used i = true} hi

theorem slotmapClear_bounded (t : ℕ) : Bounded (slotmapClear t) :=
  .inl ⟨rfl,rfl,used_slotmapClear t⟩

section Reserve
variable {m m' : SlotMap t} {n s : ℕ}

theorem slotmapReserve_fields (h : slotmapReserve m n = some (s,m')) : m'.firstUsedSlot =
        (if m.firstUsedSlot = -1 ∨ (s : ℤ) < m.firstUsedSlot then (s : ℤ) else m.firstUsedSlot) ∧
      m'.lastUsedSlot =
        if m.lastUsedSlot = -1 ∨ ((s + n - 1 : ℕ) : ℤ) > m.lastUsedSlot
        then ((s + n - 1 : ℕ) : ℤ) else m.lastUsedSlot := by
  unfold slotmapReserve at h
  split at h
  · cases h
  · simp only [Option.some.injEq,Prod.mk.injEq] at h
    obtain ⟨rfl,rfl⟩ := h
    exact ⟨rfl,rfl⟩

theorem Bounded.reserve (hm : Bounded m) (h : slotmapReserve m n = some (s,m')) : Bounded m' := by
  obtain ⟨hsearch,-,hbits⟩ := slotmapReserve_spec h
  have hn := (m.search_free hsearch).1
  obtain ⟨hfirst,hlast⟩ := slotmapReserve_fields h
  have hset : {i | m'.used i = true} = {i | s ≤ i ∧ i < s + n} ∪ {i | m.used i = true} := by
    ext i
    change m'.used i = true ↔ (s ≤ i ∧ i < s + n) ∨ m.used i = true
    rw [hbits i,Bool.or_eq_true,decide_eq_true_eq]
  have hleast : IsLeast {i | s ≤ i ∧ i < s + n} s := ⟨⟨Nat.le_refl _,by omega⟩,fun _ hi => hi.1⟩
  have hgreatest : IsGreatest {i | s ≤ i ∧ i < s + n} (s + n - 1) :=
    ⟨⟨by omega,by omega⟩,fun _ hi => Nat.le_sub_one_of_lt hi.2⟩
  right
  rcases hm with ⟨hf,hl,hclear⟩ | ⟨lo,hi,hf,hl,hlo,hhi⟩
  · have hempty : {i | m.used i = true} = ∅ := by simp [hclear]
    rw [hset,hempty,Set.union_empty]
    refine ⟨s,s + n - 1,?_,?_,hleast,hgreatest⟩
    · rw [hfirst,if_pos (.inl hf)]
    · rw [hlast,if_pos (.inl hl)]
  · rw [hset]
    refine ⟨min s lo,max (s + n - 1) hi,?_,?_,hleast.union hlo,hgreatest.union hhi⟩
    · rw [hfirst]
      split <;> omega
    · rw [hlast]
      split <;> omega

end Reserve

section Release
variable {m : SlotMap t} {start n : ℕ}

theorem scanDown_spec (usemap : UseMap) (k : ℕ) :
    scanDown usemap k = -1 ∧ (∀ i < k, checkSlot usemap i = false) ∨
      ∃ j < k, scanDown usemap k = j ∧ checkSlot usemap j = true ∧
        ∀ i < k, checkSlot usemap i = true → i ≤ j := by
  induction k with
  | zero => exact .inl ⟨rfl,by simp⟩
  | succ k ih =>
    rw [scanDown]
    split
    · next hk => exact .inr ⟨k,Nat.lt_succ_self k,rfl,hk,fun i hi _ => Nat.le_of_lt_succ hi⟩
    · next hk =>
      have hclear : checkSlot usemap k = false := by simpa using hk
      rcases ih with ⟨hnone,hall⟩ | ⟨j,hj,hsome,hset,hmax⟩
      · refine .inl ⟨hnone,fun i hi => ?_⟩
        rcases Nat.lt_succ_iff_lt_or_eq.mp hi with hlt | rfl
        · exact hall i hlt
        · exact hclear
      · refine .inr ⟨j,Nat.lt_succ_of_lt hj,hsome,hset,fun i hi hused => ?_⟩
        rcases Nat.lt_succ_iff_lt_or_eq.mp hi with hlt | rfl
        · exact hmax i hlt hused
        · rw [hclear] at hused
          cases hused

theorem slotmapRelease_fields_zero (hused : m.used start = true)
    (hzero : wordSub m.usedSlots n = 0) : (slotmapRelease m start n).2.firstUsedSlot = -1 ∧
      (slotmapRelease m start n).2.lastUsedSlot = -1 := by
  rw [SlotMap.used] at hused
  simp only [slotmapRelease,hused,Bool.true_eq_false,if_false,hzero,if_true,and_self]

theorem slotmapRelease_first (hused : m.used start = true) (hne : wordSub m.usedSlots n ≠ 0) :
    (slotmapRelease m start n).2.firstUsedSlot = m.firstUsedSlot := by
  rw [SlotMap.used] at hused
  simp only [slotmapRelease,hused,Bool.true_eq_false,if_false,hne]

theorem slotmapRelease_last (hused : m.used start = true) (hne : wordSub m.usedSlots n ≠ 0)
    (hfirst : (start : ℤ) ≠ m.firstUsedSlot) : (slotmapRelease m start n).2.lastUsedSlot =
      if ((start + n - 1 : ℕ) : ℤ) = m.lastUsedSlot
      then scanDown (slotmapRelease m start n).2.useMap start else m.lastUsedSlot := by
  rw [SlotMap.used] at hused
  simp only [slotmapRelease,hused,Bool.true_eq_false,if_false,hne,hfirst]

/-- Slots that are not the lowest ones are given back, while others stay in use. -/
theorem Bounded.release (hm : Bounded m) (hused : ∀ i, start ≤ i → i < start + n → m.used i = true)
    (hn : 0 < n) (hne : wordSub m.usedSlots n ≠ 0)
    (hlow : ∃ i < start, m.used i = true) : Bounded (slotmapRelease m start n).2 := by
  have hstart := hused start (Nat.le_refl _) (by omega)
  obtain ⟨-,-,hbits⟩ := slotmapRelease_spec n hstart
  obtain ⟨low,hlow,hlowUsed⟩ := hlow
  have hset : ∀ i, (slotmapRelease m start n).2.used i = true ↔
      m.used i = true ∧ ¬ (start ≤ i ∧ i < start + n) := by
    intro i
    rw [hbits i,Bool.and_eq_true,Bool.not_eq_true',decide_eq_false_iff_not]
  rcases hm with ⟨-,-,hclear⟩ | ⟨lo,hi,hf,hl,hlo,hhi⟩
  · rw [hclear low] at hlowUsed
    cases hlowUsed
  · have hlole := hlo.2 hlowUsed
    have hend : start + n - 1 ≤ hi := hhi.2 (hused _ (by omega) (by omega))
    have hlo' : IsLeast {i | (slotmapRelease m start n).2.used i = true} lo := by
      refine ⟨(hset lo).mpr ⟨hlo.1,by omega⟩,fun i hi => ?_⟩
      exact hlo.2 ((hset i).mp hi).1
    have hlast := slotmapRelease_last hstart hne (by rw [hf]; omega)
    rw [hl] at hlast
    right
    by_cases heq : start + n - 1 = hi
    · -- the highest slots go: the next lower used slot is the one that the scan finds
      rw [if_pos (by rw [heq])] at hlast
      rcases scanDown_spec (slotmapRelease m start n).2.useMap start with
        ⟨-,hall⟩ | ⟨j,hj,hscan,hjset,hmax⟩
      · have hcontra := hall lo (by omega)
        rw [← SlotMap.used,hlo'.1] at hcontra
        cases hcontra
      · refine ⟨lo,j,(slotmapRelease_first hstart hne).trans hf,hlast.trans hscan,hlo',hjset,?_⟩
        intro i hi
        obtain ⟨hold,hout⟩ := (hset i).mp hi
        have hle := hhi.2 hold
        exact hmax i (by omega) hi
    · rw [if_neg (by omega)] at hlast
      refine ⟨lo,hi,(slotmapRelease_first hstart hne).trans hf,hlast,hlo',?_,?_⟩
      · exact (hset hi).mpr ⟨hhi.1,by omega⟩
      · intro i hi
        exact hhi.2 ((hset i).mp hi).1

theorem not_bounded_release (hm : Bounded m) (hstart : m.used start = true) (hn : 0 < n)
    (hne : wordSub m.usedSlots n ≠ 0) (hlow : ∀ i, m.used i = true → start ≤ i) :
    ¬ Bounded (slotmapRelease m start n).2 := by
  have hfirst : (slotmapRelease m start n).2.firstUsedSlot = start := by
    rw [slotmapRelease_first hstart hne]
    rcases hm with ⟨-,-,hclear⟩ | ⟨lo,hi,hf,-,hlo,-⟩
    · rw [hclear start] at hstart
      cases hstart
    · rw [hf,Nat.le_antisymm (hlo.2 hstart) (hlow lo hlo.1)]
  have hclear : (slotmapRelease m start n).2.used start = false := by
    rw [(slotmapRelease_spec n hstart).2.2 start,
      decide_eq_true ⟨Nat.le_refl start,Nat.lt_add_of_pos_right hn⟩,Bool.not_true,Bool.and_false]
  rintro (⟨hf,-⟩ | ⟨lo,hi,hf,-,hlo,-⟩)
  · omega
  · obtain rfl : lo = start := by omega
    exact Bool.false_ne_true (hclear.symm.trans hlo.1)

end Release

/-- A release is of the only reservation or not of the lowest one. -/
def SparesLowest (g : Ledger t) : SlotOp → Prop
  | .reserve _ => True
  | .release s => g.live = [s] ∨ ∃ r ∈ g.live, r.lo < s.lo

instance (g : Ledger t) : (op : SlotOp) → Decidable (SparesLowest g op)
  | .reserve _ => inferInstanceAs (Decidable True)
  | .release s => inferInstanceAs (Decidable (_ ∨ ∃ r ∈ g.live, r.lo < s.lo))

section Steps
variable {g g' : Ledger t}

/-- Nothing is left exactly after the release of the only reservation. -/
theorem wordSub_usedSlots_eq_zero_iff (h : Balanced g) {s : Span} (hs : s ∈ g.live) :
    wordSub g.map.usedSlots s.len = 0 ↔ g.live = [s] := by
  have hperm := perm_cons_erase hs
  have htotal := total_perm hperm
  rw [total_cons,← h.used_eq] at htotal
  rw [wordSub_of_le (by omega),show g.map.usedSlots - s.len = total (g.live.erase s) by omega]
  constructor
  · intro hzero
    cases herase : g.live.erase s with
    | nil =>
      rw [herase] at hperm
      exact perm_singleton.mp hperm
    | cons r rest =>
      have hr := mem_of_mem_erase (by rw [herase]; exact mem_cons_self)
      have hpos := h.nonempty r hr
      rw [herase,total_cons] at hzero
      omega
  · intro hlive
    rw [hlive,erase_cons_head]
    rfl

theorem bounded_release_iff (h : Balanced g) (hm : Bounded g.map) {s : Span} (hs : s ∈ g.live) :
    Bounded (slotmapRelease g.map s.lo s.len).2 ↔ SparesLowest g (.release s) := by
  have hlen := h.nonempty s hs
  have hstart := h.used_of_live hs
  have hused : ∀ i, s.lo ≤ i → i < s.lo + s.len → g.map.used i = true :=
    fun i hlo hhi => h.covers.bit_of_mem hs ⟨hlo,hhi⟩
  by_cases honly : g.live = [s]
  · refine iff_of_true ?_ (.inl honly)
    obtain ⟨hf,hl⟩ := slotmapRelease_fields_zero hstart
      ((wordSub_usedSlots_eq_zero_iff h hs).mpr honly)
    refine .inl ⟨hf,hl,fun i => ?_⟩
    have hempty := (h.release hs).covers.bits i
    rw [honly] at hempty
    simpa using hempty
  · have hne := mt (wordSub_usedSlots_eq_zero_iff h hs).mp honly
    constructor
    · intro hafter
      right
      by_contra hnone
      refine not_bounded_release hm hstart hlen hne (fun i hi => ?_) hafter
      obtain ⟨r,hr,hir⟩ := (h.covers.bits i).mp hi
      have : ¬ r.lo < s.lo := fun hlt => hnone ⟨r,hr,hlt⟩
      exact (Nat.le_of_not_lt this).trans hir.1
    · intro hspares
      obtain ⟨r,hr,hlt⟩ := hspares.resolve_left honly
      exact hm.release hused hlen hne ⟨r.lo,hlt,h.used_of_live hr⟩

theorem step_bounded_iff (h : Balanced g) (hm : Bounded g.map) {op : SlotOp}
    (hop : ReleasesLive g op) (hs : slotStep g op = some g') :
    Bounded g'.map ↔ SparesLowest g op := by
  cases op with
  | reserve n =>
    refine iff_of_true ?_ trivial
    rw [slotStep] at hs
    split at hs
    · rw [← Option.some.inj hs]
      exact hm
    · next start map hr =>
      rw [← Option.some.inj hs]
      exact hm.reserve hr
  | release s =>
    rw [← Option.some.inj hs]
    exact bounded_release_iff h hm hop

end Steps

/-- The two fields are right in every state of a history exactly if each release is of the
only reservation or not of the lowest one. -/
theorem bounds_cached_iff {ops : List SlotOp} {g : Ledger t}
    (h : Run slotStep ReleasesLive (slotmapStart t) ops g) :
    (∀ pre k, pre <+: ops → Run slotStep ReleasesLive (slotmapStart t) pre k → Bounded k.map) ↔
      Run slotStep (fun g op => ReleasesLive g op ∧ SparesLowest g op) (slotmapStart t) ops g :=
  h.always_iff SparesLowest (I := fun _ k => Balanced k) (P := fun _ k => Bounded k.map)
    (fun _ _ _ _ hk hop hs => hk.step hop hs)
    (fun _ _ _ _ hk hm hop hs => step_bounded_iff hk hm hop hs)
    (slotmapStart_balanced t) (slotmapClear_bounded t)

/-- Three reservations that are given back from the top down. -/
def stackHistory : List SlotOp :=
  [.reserve 3,.reserve 2,.reserve 4,.release ⟨5,4⟩,.release ⟨3,2⟩,.release ⟨0,3⟩]

theorem bounds_cached_stack : ∃ g : Ledger 16,
    Run slotStep ReleasesLive (slotmapStart 16) stackHistory g ∧
    ∀ pre k, pre <+: stackHistory → Run slotStep ReleasesLive (slotmapStart 16) pre k →
      Bounded k.map := by
  have hexec : (exec slotStep (fun g op => decide (ReleasesLive g op ∧ SparesLowest g op))
      (slotmapStart 16) stackHistory).any (fun g => decide (g.live = [])) = true := by
    decide +kernel
  obtain ⟨g,hrun,-⟩ := Run.exists_of_exec hexec
  have hboth := hrun.weaken fun _ _ hop => of_decide_eq_true hop
  have hlive := hboth.weaken fun _ _ hop => hop.1
  exact ⟨g,hlive,(bounds_cached_iff hlive).mpr hboth⟩

/-- Three slots are used and the lowest is given back: it stays recorded as the lowest one, and
the new lowest one, in the middle, is recorded as the highest. -/
theorem lowest_recorded_as_highest : ∃ g : Ledger 8,
    Run slotStep ReleasesLive (slotmapStart 8)
      [.reserve 1,.reserve 1,.reserve 1,.release ⟨0,1⟩] g ∧
    g.map.firstUsedSlot = 0 ∧ g.map.used 0 = false ∧
    g.map.lastUsedSlot = 1 ∧ g.map.used 2 = true ∧ ¬ Bounded g.map := by
  have hexec : (exec slotStep (fun g op => decide (ReleasesLive g op)) (slotmapStart 8)
      [.reserve 1,.reserve 1,.reserve 1,.release ⟨0,1⟩]).any (fun g =>
        decide (g.map.firstUsedSlot = 0 ∧ g.map.used 0 = false ∧
          g.map.lastUsedSlot = 1 ∧ g.map.used 2 = true)) = true := by
    decide +kernel
  obtain ⟨g,hrun,htest⟩ := Run.exists_of_exec hexec
  obtain ⟨hfirst,hclear,hlast,hset⟩ := of_decide_eq_true htest
  refine ⟨g,hrun.weaken fun _ _ hop => of_decide_eq_true hop,hfirst,hclear,hlast,hset,?_⟩
  rintro (⟨hf,-⟩ | ⟨lo,hi,-,hl,-,hhi⟩)
  · omega
  · have := hhi.2 hset
    omega

end UnifyFS.SlotBounds
