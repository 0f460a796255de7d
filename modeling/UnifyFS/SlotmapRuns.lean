import UnifyFS.GuardedRuns
import UnifyFS.Slotmap
import UnifyFS.Spans

/-!
# Histories of a slot map

A slot map together with the reservations that have not been released. Every
release names one of them, with the start and the count of its reserve call. The
bits of the map are exactly the slots of the live reservations throughout. The map
has whole bytes, so a reservation may reach into the last bits of the last byte
that belong to no slot; those bits are accounted for like the others.
-/
namespace UnifyFS.SlotmapRuns
open MachineWords Slotmap Spans GuardedRuns List

structure Ledger (t : ℕ) where
  map : SlotMap t
  live : List Span
  deriving DecidableEq

inductive SlotOp where
  | reserve (numSlots : ℕ)
  | release (s : Span)
  deriving DecidableEq

variable {t : ℕ}

def slotStep (g : Ledger t) : SlotOp → Option (Ledger t)
  | .reserve n =>
    match slotmapReserve g.map n with
    | none => some g
    | some (start,map) => some ⟨map,⟨start,n⟩ :: g.live⟩
  | .release s => some ⟨(slotmapRelease g.map s.lo s.len).2,g.live.erase s⟩

/-- A call reserves at least one slot or releases a live reservation. -/
def WellUsed (g : Ledger t) : SlotOp → Prop
  | .reserve n => 1 ≤ n
  | .release s => s ∈ g.live

instance (g : Ledger t) (op : SlotOp) : Decidable (WellUsed g op) := by
  cases op with
  | reserve n => exact inferInstanceAs (Decidable (1 ≤ n))
  | release s => exact inferInstanceAs (Decidable (s ∈ g.live))

/-- Only live reservations are released; a call may also reserve nothing. -/
def ReleasesLive (g : Ledger t) : SlotOp → Prop
  | .reserve _ => True
  | .release s => s ∈ g.live

instance (g : Ledger t) (op : SlotOp) : Decidable (ReleasesLive g op) := by
  cases op with
  | reserve n => exact inferInstanceAs (Decidable True)
  | release s => exact inferInstanceAs (Decidable (s ∈ g.live))

theorem WellUsed.releasesLive {g : Ledger t} {op : SlotOp} (h : WellUsed g op) :
    ReleasesLive g op := by
  cases op with
  | reserve n => trivial
  | release s => exact h

def slotmapStart (t : ℕ) : Ledger t := ⟨slotmapClear t,[]⟩

structure Balanced (g : Ledger t) : Prop where
  covers : Covers g.map.used (slotMapBytes t * 8) g.live
  used_eq : g.map.usedSlots = total g.live
  nonempty : ∀ s ∈ g.live, 0 < s.len

theorem slotmapStart_balanced (t : ℕ) : Balanced (slotmapStart t) :=
  ⟨Covers.nil (used_slotmapClear t),rfl,by simp [slotmapStart]⟩

namespace Balanced
variable {g g' : Ledger t}

theorem used_of_live (h : Balanced g) {s : Span} (hs : s ∈ g.live) : g.map.used s.lo = true :=
  h.covers.bit_of_mem hs ⟨Nat.le_refl _,Nat.lt_add_of_pos_right (h.nonempty s hs)⟩

theorem reserve (h : Balanced g) {n start : ℕ} {map : SlotMap t}
    (hr : slotmapReserve g.map n = some (start,map)) : Balanced ⟨map,⟨start,n⟩ :: g.live⟩ := by
  obtain ⟨hsearch,hused,hbits⟩ := slotmapReserve_spec hr
  have hinside := (g.map.search_clear hsearch).1
  rw [g.map.mapLen] at hinside
  refine ⟨?_,?_,?_⟩
  · exact h.covers.cons (fun i hi => slotmapReserve_clear hr hi.1 hi.2) hinside hbits
  · change map.usedSlots = _
    rw [hused,h.used_eq,total_cons,Nat.add_comm]
  · intro s hs
    cases mem_cons.mp hs with
    | inl heq => exact heq ▸ (g.map.search_free hsearch).1
    | inr hs => exact h.nonempty s hs

theorem release (h : Balanced g) {s : Span} (hs : s ∈ g.live) :
    Balanced ⟨(slotmapRelease g.map s.lo s.len).2,g.live.erase s⟩ := by
  obtain ⟨-,hused,hbits⟩ := slotmapRelease_spec s.len (h.used_of_live hs)
  have hperm := perm_cons_erase hs
  have htotal := total_perm hperm
  rw [total_cons] at htotal
  refine ⟨(h.covers.perm hperm).tail hbits,?_,?_⟩
  · change (slotmapRelease g.map s.lo s.len).2.usedSlots = _
    rw [hused,h.used_eq,wordSub_of_le (by omega)]
    change total g.live - s.len = total (g.live.erase s)
    omega
  · intro k hk
    exact h.nonempty k (mem_of_mem_erase hk)

theorem step (h : Balanced g) {op : SlotOp} (hop : ReleasesLive g op)
    (hs : slotStep g op = some g') : Balanced g' := by
  cases op with
  | reserve n =>
    rw [slotStep] at hs
    split at hs
    · rw [← Option.some.inj hs]
      exact h
    · next start map hr =>
      rw [← Option.some.inj hs]
      exact h.reserve hr
  | release s =>
    rw [← Option.some.inj hs]
    exact h.release hop

end Balanced

/-- In every state of every history the set bits are the disjoint union of the live
ranges and their number is the counter. A release of a live range succeeds there, and a
reservation that succeeds there returns clear slots. -/
theorem slotmap_balanced {ops : List SlotOp} {g : Ledger t}
    (h : Run slotStep WellUsed (slotmapStart t) ops g) :
    (∀ i, g.map.used i = true ↔ ∃ s ∈ g.live, s.lo ≤ i ∧ i < s.lo + s.len) ∧
    g.live.Pairwise Span.Apart ∧ g.map.usedSlots = (g.live.map Span.len).sum ∧
    (∀ s ∈ g.live, (slotmapRelease g.map s.lo s.len).1 = Rc.success) ∧
    ∀ n start map, slotmapReserve g.map n = some (start,map) →
      ∀ i, start ≤ i → i < start + n → g.map.used i = false := by
  have hbal :=
    h.invariant (fun g op g' hg hop hs => hg.step hop.releasesLive hs) (slotmapStart_balanced t)
  refine ⟨hbal.covers.bits,hbal.covers.apart,hbal.used_eq,?_,?_⟩
  · intro s hs
    exact (slotmapRelease_spec s.len (hbal.used_of_live hs)).1
  · intro n start map hr i hlo hhi
    exact slotmapReserve_clear hr hlo hhi

def nineSlotHistory : List SlotOp := [.reserve 3,.reserve 4,.release ⟨0,3⟩,.reserve 2]

theorem slotmap_balanced_nine :
    ∃ g : Ledger 9, Run slotStep WellUsed (slotmapStart 9) nineSlotHistory g ∧
      g.live = [⟨0,2⟩,⟨3,4⟩] ∧ g.map.usedSlots = 6 ∧ g.live.Pairwise Span.Apart := by
  have hexec : (exec slotStep (fun g op => decide (WellUsed g op)) (slotmapStart 9)
      nineSlotHistory).any (fun g => decide (g.live = [⟨0,2⟩,⟨3,4⟩] ∧ g.map.usedSlots = 6)) =
        true := by
    decide +kernel
  obtain ⟨g,hrun,htest⟩ := Run.exists_of_exec hexec
  have hused := hrun.weaken fun _ _ h => of_decide_eq_true h
  exact ⟨g,hused,(of_decide_eq_true htest).1,(of_decide_eq_true htest).2,
    (slotmap_balanced hused).2.1⟩

end UnifyFS.SlotmapRuns
