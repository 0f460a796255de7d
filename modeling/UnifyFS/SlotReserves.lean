import Mathlib
import UnifyFS.SlotSearch
import UnifyFS.SlotmapRuns

/-!
# Which reservations are found, and where

The search of a slot map does not look at every run of free slots, and it does not
know where the slots end: the last byte of the use map has bits that belong to no
slot if the number of slots is not a multiple of eight. This module says exactly when
a run of free slots is missed, and when the run that is returned reaches over the end.
-/
namespace UnifyFS.SlotReserves
open MachineWords Slotmap Spans GuardedRuns SlotmapRuns SlotSearch List

variable {t n : ℕ}

def HasFreeRun (m : SlotMap t) (n : ℕ) : Prop :=
  ∃ s, s + n ≤ t ∧ ∀ i, s ≤ i → i < s + n → m.used i = false

/-- A reservation fails only for lack of a free run, if and only if a map with such a run also
has a place that the search looks at. -/
theorem slotmapReserve_complete_iff (m : SlotMap t) (n : ℕ) (hn : 1 ≤ n) :
    (slotmapReserve m n = none → ¬ HasFreeRun m n) ↔
      (HasFreeRun m n → n ≤ getFreeSlots m ∧
        Findable m.useMap (slotMapBytes t) n (searchByte m n)) := by
  rw [slotmapReserve_eq_none,← search_ne_none_iff m hn]
  constructor
  · intro h hrun hnone
    exact h hnone hrun
  · intro h hnone hrun
    exact h hrun hnone

/-- A new map of sixteen slots has room for nine. -/
theorem slotmapReserve_complete_new : HasFreeRun (slotmapClear 16) 9 ∧
    (slotmapReserve (slotmapClear 16) 9 = none → ¬ HasFreeRun (slotmapClear 16) 9) :=
  ⟨⟨0,by decide,fun i _ _ => used_slotmapClear 16 i⟩,
    (slotmapReserve_complete_iff (slotmapClear 16) 9 (by decide)).mpr fun _ => by decide +kernel⟩

/-- A history, computed, after which a reservation misses the free run at `s`. -/
theorem missed_of_exec {ops : List SlotOp} (s : ℕ)
    (h : (exec slotStep (fun g op => decide (WellUsed g op)) (slotmapStart t) ops).any (fun g =>
      decide (s + n ≤ t ∧ (∀ i < s + n, s ≤ i → g.map.used i = false) ∧
        slotmapReserve g.map n = none)) = true) :
    ∃ g, Run slotStep WellUsed (slotmapStart t) ops g ∧ HasFreeRun g.map n ∧
      slotmapReserve g.map n = none := by
  obtain ⟨g,hrun,htest⟩ := Run.exists_of_exec h
  obtain ⟨hend,hclear,hfail⟩ := of_decide_eq_true htest
  exact ⟨g,hrun.weaken fun _ _ hop => of_decide_eq_true hop,
    ⟨s,hend,fun i hlo hhi => hclear i hhi hlo⟩,hfail⟩

/-- Four slots across the border of two bytes are released and cannot be reserved again, since
the first byte also has a longer run. After one slot is used, nine slots of the other fifteen
cannot be reserved, since they do not begin with a byte. -/
theorem free_run_missed :
    (∃ g : Ledger 16, Run slotStep WellUsed (slotmapStart 16)
        [.reserve 3,.reserve 3,.reserve 4,.reserve 6,.release ⟨0,3⟩,.release ⟨6,4⟩] g ∧
      HasFreeRun g.map 4 ∧ slotmapReserve g.map 4 = none) ∧
    ∃ g : Ledger 16, Run slotStep WellUsed (slotmapStart 16) [.reserve 1] g ∧
      HasFreeRun g.map 9 ∧ slotmapReserve g.map 9 = none :=
  ⟨missed_of_exec 6 (by decide +kernel),missed_of_exec 1 (by decide +kernel)⟩

section Ends
variable {m : SlotMap t} {s : ℕ}

/-- The bits that belong to no slot do not matter: there are none, or there is a place in the
complete bytes, or the place at the end needs no more than the last slots. -/
def Inside (m : SlotMap t) (n : ℕ) : Prop :=
  t % 8 = 0 ∨ Findable m.useMap (t / 8) n (searchByte m n) ∨
    n ≤ 8 ∧ (Straddles m.useMap (slotMapBytes t) n (t / 8 - 1) ∧
        n ≤ freeBits (m.useMap.getD (t / 8 - 1) 0#8) + t % 8 ∨
      ¬ Straddles m.useMap (slotMapBytes t) n (t / 8 - 1) ∧
        freeStart (m.useMap.getD (t / 8) 0#8) + n ≤ t % 8) ∨
    8 < n ∧ (t / 8 + 1 - slotMapBytes n) * 8 + n ≤ t

instance (m : SlotMap t) (n : ℕ) : Decidable (Inside m n) :=
  inferInstanceAs (Decidable (_ ∨ _ ∨ _ ∧ (_ ∧ _ ∨ _ ∧ _) ∨ _ ∧ _))

theorem slotMapBytes_eq (h : t % 8 ≠ 0) : slotMapBytes t = t / 8 + 1 := by
  have := slotMapBytes_spec t
  omega

theorem search_inside_of_le (hpad : t % 8 ≠ 0) (hn : 0 < n) (hsmall : n ≤ 8)
    (h : m.search n = some s) : s + n ≤ t ↔ Inside m n := by
  obtain ⟨b,-,hb,hplace,hfirst⟩ := search_first h
  obtain ⟨rfl,hfit⟩ := place_eq_some_of_le hsmall hplace
  have hrun := (zeroBits_free (m.useMap.getD b 0#8)).1
  unfold Inside
  rw [searchByte_of_le m hsmall] at hfirst
  rw [findable_iff hn (searchByte_of_le m),searchByte_of_le m hsmall]
  rw [slotMapBytes_eq hpad] at hb hfit hfirst ⊢
  by_cases hfound : ∃ c, 0 ≤ c ∧ c < t / 8 ∧ place m.useMap (t / 8) n c ≠ none
  · apply iff_of_true _ (.inr (.inl hfound))
    obtain ⟨c,-,hc,hcplace⟩ := hfound
    rw [place_ne_none_of_le hsmall,straddles_succ] at hcplace
    have hbc : b ≤ c := by
      by_contra hlt
      apply (place_ne_none_of_le hsmall).mpr _ (hfirst c (Nat.zero_le c) (by omega))
      exact hcplace.imp_right And.left
    cases hfit with
    | inl hbits => omega
    | inr hmeet =>
      by_cases hinner : b + 1 < t / 8
      · omega
      · obtain rfl : b = c := by omega
        cases hcplace with
        | inl hbits => omega
        | inr hmeet => omega
  · have hnone : ∀ c < t / 8, ¬ n ≤ freeBits (m.useMap.getD c 0#8) ∧
        ¬ Straddles m.useMap (t / 8) n c := by
      intro c hc
      rw [← not_or,← place_ne_none_of_le hsmall]
      exact fun hcplace => hfound ⟨c,Nat.zero_le c,hc,hcplace⟩
    simp only [hpad,hfound,hsmall,true_and,false_or,Nat.not_lt.mpr hsmall,false_and,or_false]
    by_cases hlast : b = t / 8
    · subst hlast
      have hbefore : ¬ Straddles m.useMap (t / 8 + 1) n (t / 8 - 1) := by
        intro hmeet
        have hinner := hmeet.1
        exact (place_ne_none_of_le hsmall).mpr (.inr hmeet) (hfirst _ (Nat.zero_le _) (by omega))
      simp only [hbefore,not_false_eq_true,true_and,false_and,false_or]
      omega
    · obtain ⟨hbits,hmeet⟩ := hnone b (by omega)
      have hborder := hfit.resolve_left hbits
      rw [straddles_succ] at hmeet
      obtain rfl : b = t / 8 - 1 := by
        by_contra hb'
        exact hmeet ⟨hborder,by omega⟩
      simp only [hborder,not_true_eq_false,true_and,false_and,or_false]
      have htail := hborder.2.1
      omega

theorem search_inside_of_lt (hpad : t % 8 ≠ 0) (hlarge : 8 < n) (h : m.search n = some s) :
    s + n ≤ t ↔ Inside m n := by
  obtain ⟨b,hlo,-,hplace,hfirst⟩ := search_first h
  obtain ⟨rfl,hle,hzero⟩ := place_eq_some_of_lt hlarge hplace
  have hbytes := slotMapBytes_spec n
  unfold Inside
  rw [findable_iff (by omega) (searchByte_of_le m)]
  rw [slotMapBytes_eq hpad] at hle hfirst
  by_cases hfound : ∃ c, searchByte m n ≤ c ∧ c < t / 8 ∧ place m.useMap (t / 8) n c ≠ none
  · apply iff_of_true _ (.inr (.inl hfound))
    obtain ⟨c,hc,-,hcplace⟩ := hfound
    rw [place_ne_none_of_lt hlarge] at hcplace
    have hbc : b ≤ c := by
      by_contra hlt
      exact (place_ne_none_of_lt hlarge).mpr ⟨by omega,hcplace.2⟩ (hfirst c hc (by omega))
    omega
  · have hend : ¬ b + slotMapBytes n ≤ t / 8 := by
      intro hinner
      exact hfound ⟨b,hlo,by omega,(place_ne_none_of_lt hlarge).mpr ⟨hinner,hzero⟩⟩
    simp only [hpad,hfound,hlarge,Nat.not_le.mpr hlarge,false_and,false_or,true_and]
    omega

/-- A reservation that succeeds lies within the slots if and only if it does not depend on bits
that belong to none. -/
theorem slotmapReserve_inside_iff {m' : SlotMap t} (h : slotmapReserve m n = some (s,m')) :
    s + n ≤ t ↔ Inside m n := by
  have hsearch := (slotmapReserve_spec h).1
  have hn := (m.search_free hsearch).1
  by_cases hpad : t % 8 = 0
  · have hclear := (m.search_clear hsearch).1
    have hbytes := slotMapBytes_spec t
    rw [m.mapLen] at hclear
    exact iff_of_true (by omega) (.inl hpad)
  · by_cases hsmall : n ≤ 8
    · exact search_inside_of_le hpad hn hsmall hsearch
    · exact search_inside_of_lt hpad (Nat.lt_of_not_le hsmall) hsearch

end Ends

/-- Every reservation is independent of the bits that belong to no slot. -/
def StaysInside (g : Ledger t) : SlotOp → Prop
  | .reserve n => Inside g.map n
  | .release _ => True

instance (g : Ledger t) : (op : SlotOp) → Decidable (StaysInside g op)
  | .reserve n => inferInstanceAs (Decidable (Inside g.map n))
  | .release _ => inferInstanceAs (Decidable True)

theorem step_inside {g g' : Ledger t} {op : SlotOp} (hlive : ∀ s ∈ g.live, s.lo + s.len ≤ t)
    (hop : StaysInside g op) (hstep : slotStep g op = some g') :
    ∀ s ∈ g'.live, s.lo + s.len ≤ t := by
  cases op with
  | reserve n =>
    rw [slotStep] at hstep
    split at hstep
    · rw [← Option.some.inj hstep]
      exact hlive
    · next start map hr =>
      rw [← Option.some.inj hstep]
      intro s hs
      cases mem_cons.mp hs with
      | inl heq => exact heq ▸ (slotmapReserve_inside_iff hr).mpr hop
      | inr hs => exact hlive s hs
  | release s =>
    rw [← Option.some.inj hstep]
    intro k hk
    exact hlive k (mem_of_mem_erase hk)

/-- In every history whose reservations are independent of the bits that belong to no slot, all
reservations lie within the slots. In each of its states a further reservation does so exactly
under this condition. -/
theorem run_inside {ops : List SlotOp} {g : Ledger t}
    (h : Run slotStep (fun g op => WellUsed g op ∧ StaysInside g op) (slotmapStart t) ops g) :
    (∀ s ∈ g.live, s.lo + s.len ≤ t) ∧
      ∀ n start map, slotmapReserve g.map n = some (start,map) →
        (start + n ≤ t ↔ Inside g.map n) := by
  refine ⟨?_,fun n start map hr => slotmapReserve_inside_iff hr⟩
  apply h.invariant
  · intro g op g' hlive hop hstep
    exact step_inside hlive hop.2 hstep
  · intro s hs
    cases hs

/-- Nine slots, three times three: the third reservation ends with the only slot of the last
byte. -/
theorem run_inside_nine : ∃ g : Ledger 9,
    Run slotStep (fun g op => WellUsed g op ∧ StaysInside g op) (slotmapStart 9)
      [.reserve 3,.reserve 3,.reserve 3] g ∧
    g.live = [⟨6,3⟩,⟨3,3⟩,⟨0,3⟩] ∧ ∀ s ∈ g.live, s.lo + s.len ≤ 9 := by
  have hexec : (exec slotStep (fun g op => decide (WellUsed g op ∧ StaysInside g op))
      (slotmapStart 9) [.reserve 3,.reserve 3,.reserve 3]).any (fun g =>
        decide (g.live = [⟨6,3⟩,⟨3,3⟩,⟨0,3⟩])) = true := by
    decide +kernel
  obtain ⟨g,hrun,htest⟩ := Run.exists_of_exec hexec
  have hinside := hrun.weaken fun _ _ hop => of_decide_eq_true hop
  exact ⟨g,hinside,of_decide_eq_true htest,(run_inside hinside).1⟩

/-- Nine slots, of which 1 to 5 are used: four slots are reserved from 6 on. -/
theorem reserve_over_end : ∃ (g : Ledger 9) (map : SlotMap 9),
    Run slotStep WellUsed (slotmapStart 9) [.reserve 1,.reserve 5,.release ⟨0,1⟩] g ∧
    slotmapReserve g.map 4 = some (6,map) ∧ ¬ 6 + 4 ≤ 9 := by
  have hexec : (exec slotStep (fun g op => decide (WellUsed g op)) (slotmapStart 9)
      [.reserve 1,.reserve 5,.release ⟨0,1⟩]).any (fun g =>
        decide ((slotmapReserve g.map 4).map Prod.fst = some 6)) = true := by
    decide +kernel
  obtain ⟨g,hrun,htest⟩ := Run.exists_of_exec hexec
  obtain ⟨⟨start,map⟩,hr,rfl⟩ := Option.map_eq_some_iff.mp (of_decide_eq_true htest)
  exact ⟨g,map,hrun.weaken fun _ _ hop => of_decide_eq_true hop,hr,by decide⟩

end UnifyFS.SlotReserves
