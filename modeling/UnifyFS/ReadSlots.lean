import UnifyFS.ReadRequests
import UnifyFS.GuardedRuns

/-!
# Reserving and releasing the slots of a request manager

Slots are handed out at a moving index. The index goes up with a reserve, down when
the request just below it is released, and back to zero when no request is left;
when it has reached the last slot, a reserve searches for a free slot instead. What
makes the index safe is that every slot from it up to the last but one is free,
whatever the order of the releases.
-/
namespace UnifyFS.ReadSlots
open GuardedRuns ListUpdates ChunkReads ReadRequests ServerReadReq List Option

def serverMaxReads : ℕ := 2048

/-- A call on the slots; a release names the slot of its request. -/
inductive SlotCall where
  | reserve
  | release (i : ℕ)
  deriving DecidableEq, Repr

def slotStep (rm : Reqmgr) : SlotCall → Option Reqmgr
  | .reserve => (rmReserveReadReq rm).map Prod.snd
  | .release i => (rm.readReqs[i]?).map fun q => releaseReadReq rm i q

/-- Only a reserved request is released. -/
def slotAllowed (rm : Reqmgr) : SlotCall → Bool
  | .reserve => true
  | .release i => (rm.readReqs[i]?).any ServerReadReq.inUse

structure HandsOut (maxReads : ℕ) (rm : Reqmgr) : Prop where
  sound : rm.Sound
  size : rm.readReqs.length = maxReads
  indexed : ∀ (i : ℕ) (q : ServerReadReq), rm.readReqs[i]? = some q → q.inUse = true → q.reqNdx = i
  next_le : rm.nextRdreqNdx ≤ maxReads - 1
  above : ∀ (i : ℕ) (q : ServerReadReq), rm.nextRdreqNdx ≤ i → i < maxReads - 1 →
    rm.readReqs[i]? = some q → q.inUse = false

theorem init_handsOut (maxReads : ℕ) : HandsOut maxReads (.init maxReads) := by
  have hempty : ∀ (i : ℕ) (q : ServerReadReq),
      (Reqmgr.init maxReads).readReqs[i]? = some q → q = .empty := fun i q hq =>
    eq_of_mem_replicate (mem_of_getElem? hq)
  constructor
  · exact Reqmgr.init_sound maxReads
  · exact length_replicate
  · intro i q hq huse
    rw [hempty i q hq] at huse
    cases huse
  · exact Nat.zero_le _
  · intro i q _ _ hq
    rw [hempty i q hq]
    rfl

section Calls
variable {maxReads i : ℕ} {rm rm' : Reqmgr} {q : ServerReadReq}

theorem isFree_of_inUse (h : rm.Sound) (hi : rm.readReqs[i]? = some q) (huse : q.inUse = false) :
    q.isFree = true := by
  rw [(h.sound q (mem_of_getElem? hi)).idle huse]
  rfl

theorem HandsOut.next_isFree (h : HandsOut maxReads rm) (hlt : rm.nextRdreqNdx < maxReads - 1) :
    (rm.readReqs[rm.nextRdreqNdx]?).any isFree = true := by
  have hin : rm.nextRdreqNdx < rm.readReqs.length := by
    rw [h.size]
    omega
  have hq := getElem?_eq_getElem hin
  rw [hq]
  exact isFree_of_inUse h.sound hq (h.above _ _ le_rfl hlt hq)

theorem HandsOut.exists_reserve (h : HandsOut maxReads rm) :
    ∃ o rm', rmReserveReadReq rm = some (o,rm') := by
  unfold rmReserveReadReq
  dsimp only
  split_ifs with hnum hnext hfree
  · exact ⟨_,_,rfl⟩
  · rw [h.size] at hnext
    exact absurd (h.next_isFree hnext) hfree
  · cases rm.readReqs.findIdx? isFree with
    | some i => exact ⟨_,_,rfl⟩
    | none => exact ⟨_,_,rfl⟩
  · exact ⟨_,_,rfl⟩

theorem reserve_next (hres : rmReserveReadReq rm = some (some i,rm')) :
    i = rm.nextRdreqNdx ∧ i < rm.readReqs.length - 1 ∧ rm'.nextRdreqNdx = i + 1 ∨
      rm.readReqs.length - 1 ≤ rm.nextRdreqNdx ∧ rm'.nextRdreqNdx = rm.nextRdreqNdx := by
  unfold rmReserveReadReq at hres
  dsimp only at hres
  split_ifs at hres with hnum hnext hfree
  · cases hres
    exact .inl ⟨rfl,hnext,rfl⟩
  · right
    refine ⟨not_lt.mp hnext,?_⟩
    split at hres <;> cases hres <;> rfl
  · cases hres

theorem reserve_full (h : rm.Sound) (hres : rmReserveReadReq rm = some (none,rm')) :
    rm.readReqs.countP ServerReadReq.inUse = rm.readReqs.length := by
  have hnum := (Reqmgr.reserve_eq_none_iff hres).mp rfl
  rw [h.counted] at hnum
  exact le_antisymm countP_le_length hnum

theorem HandsOut.reserve (h : HandsOut maxReads rm) {o : Option ℕ}
    (hres : rmReserveReadReq rm = some (o,rm')) : HandsOut maxReads rm' := by
  rcases Reqmgr.reserve_cases h.sound hres with ⟨rfl,rfl⟩ | ⟨i,q,next,rfl,hi,huse,rfl⟩
  · exact h
  · have hmove := reserve_next hres
    rw [h.size] at hmove
    dsimp only at hmove
    constructor
    · apply h.sound.modify
      · exact fun p hp => ⟨fun hidle => (by cases hidle),fun hdone => by
          obtain rfl := some.inj (hi.symm.trans hp)
          exact (h.sound.sound _ (mem_of_getElem? hi)).finished hdone⟩
      · have hcount := countP_modify (p := ServerReadReq.inUse) (f := .reserve i) hi
        rw [huse,← h.sound.counted] at hcount
        exact hcount.symm
    · exact (length_modify ..).trans h.size
    · intro k p hk hp
      cases of_getElem?_modify hk with
      | inl hold => exact h.indexed k p hold hp
      | inr hnew =>
        obtain ⟨rfl,p',-,rfl⟩ := hnew
        rfl
    · have := h.next_le
      change next ≤ _
      omega
    · intro k p hnext hk hp
      change next ≤ k at hnext
      cases of_getElem?_modify hp with
      | inl hold => exact h.above k p (by omega) hk hold
      | inr hnew => omega

theorem HandsOut.release (h : HandsOut maxReads rm) (hi : rm.readReqs[i]? = some q)
    (huse : q.inUse = true) : HandsOut maxReads (releaseReadReq rm i q) := by
  have hndx := h.indexed i q hi huse
  have hle := h.next_le
  have hsound := h.sound.release hi huse
  constructor
  · exact hsound
  · exact (length_modify ..).trans h.size
  · intro k p hk hp
    cases of_getElem?_modify hk with
    | inl hold => exact h.indexed k p hold hp
    | inr hnew =>
      obtain ⟨-,-,-,rfl⟩ := hnew
      cases hp
  · unfold releaseReadReq
    dsimp only
    split_ifs <;> omega
  · intro k p hnext hk hp
    have hmem := mem_of_getElem? hp
    by_cases hnum : rm.numReadReqs - 1 = 0
    · -- the last request is gone, so no slot is in use
      have hcount := hsound.counted
      change rm.numReadReqs - 1 = _ at hcount
      rw [hnum] at hcount
      exact Bool.eq_false_iff.mpr (countP_eq_zero.mp hcount.symm p hmem)
    · unfold releaseReadReq at hnext
      dsimp only at hnext
      cases of_getElem?_modify hp with
      | inl hold =>
        split_ifs at hnext with hroll
        · -- the slot under the index is the one released
          by_cases hki : i = k
          · change (rm.readReqs.modify i _)[k]? = _ at hp
            rw [getElem?_modify_ite,if_pos hki] at hp
            obtain ⟨-,-,rfl⟩ := map_eq_some_iff.mp hp
            rfl
          · exact h.above k p (by omega) hk hold
        · exact h.above k p hnext hk hold
      | inr hnew =>
        obtain ⟨-,-,-,rfl⟩ := hnew
        rfl

end Calls

theorem slotStep_handsOut {maxReads : ℕ} {rm rm' : Reqmgr} {c : SlotCall} (h : HandsOut maxReads rm)
    (hallowed : slotAllowed rm c = true) (hstep : slotStep rm c = some rm') :
    HandsOut maxReads rm' := by
  cases c with
  | reserve =>
    obtain ⟨⟨o,rm₁⟩,hres,rfl⟩ := map_eq_some_iff.mp hstep
    exact h.reserve hres
  | release i =>
    obtain ⟨q,hq,rfl⟩ := map_eq_some_iff.mp hstep
    have huse : (rm.readReqs[i]?).any ServerReadReq.inUse = true := hallowed
    rw [hq] at huse
    exact h.release hq huse

/-- Whatever has been reserved and released so far, the count is that of the slots in use
and the next reserve gets past its assertion. It takes a slot that was not in use and gives
it its index, unless every slot is in use. A release frees its slot and no other. -/
theorem reserve_after_calls {maxReads : ℕ} {calls : List SlotCall} {rm : Reqmgr}
    (h : Run slotStep (fun rm c => slotAllowed rm c = true) (.init maxReads) calls rm) :
    rm.numReadReqs = rm.readReqs.countP ServerReadReq.inUse ∧
    (∀ i q, rm.readReqs[i]? = some q → q.inUse = true → ∀ k,
      (releaseReadReq rm i q).readReqs[k]? = if i = k then some .empty else rm.readReqs[k]?) ∧
    ∃ o rm', rmReserveReadReq rm = some (o,rm') ∧
      (∀ i, o = some i → i < maxReads ∧ (∃ q, rm.readReqs[i]? = some q ∧ q.inUse = false) ∧
        ∃ q, rm'.readReqs[i]? = some q ∧ q.inUse = true ∧ q.reqNdx = i) ∧
      (o = none → rm.readReqs.countP ServerReadReq.inUse = maxReads) := by
  have hout := h.invariant (fun _ _ _ hs hallowed hstep => slotStep_handsOut hs hallowed hstep)
      (init_handsOut maxReads)
  refine ⟨hout.sound.counted,fun i q hi _ k => ?_,?_⟩
  · change (rm.readReqs.modify i _)[k]? = _
    rw [getElem?_modify_ite]
    split_ifs with hk
    · rw [← hk,hi,map_some]
    · rfl
  obtain ⟨o,rm',hres⟩ := hout.exists_reserve
  refine ⟨o,rm',hres,?_,?_⟩
  · rintro i rfl
    rcases Reqmgr.reserve_cases hout.sound hres with ⟨hnone,-⟩ | ⟨j,q,next,hj,hq,huse,rfl⟩
    · cases hnone
    · cases hj
      refine ⟨?_,⟨q,hq,huse⟩,q.reserve i,?_,rfl,rfl⟩
      · rw [← hout.size]
        exact (List.getElem?_eq_some_iff.mp hq).1
      · change (rm.readReqs.modify i _)[i]? = _
        rw [getElem?_modify_ite,if_pos rfl,hq]
        rfl
  · rintro rfl
    rw [reserve_full hout.sound hres,hout.size]

/-- Three reserves and the releases of the second and the first of them. -/
theorem reserve_after_two_releases : ∃ rm,
    Run slotStep (fun rm c => slotAllowed rm c = true) (.init serverMaxReads)
      [.reserve,.reserve,.reserve,.release 1,.release 0] rm ∧
    rm.nextRdreqNdx = 3 ∧ rm.numReadReqs = rm.readReqs.countP ServerReadReq.inUse ∧
    (∀ i q, rm.readReqs[i]? = some q → q.inUse = true → ∀ k,
      (releaseReadReq rm i q).readReqs[k]? = if i = k then some .empty else rm.readReqs[k]?) ∧
    ∃ o rm', rmReserveReadReq rm = some (o,rm') ∧
      (∀ i, o = some i → i < serverMaxReads ∧
        (∃ q, rm.readReqs[i]? = some q ∧ q.inUse = false) ∧
        ∃ q, rm'.readReqs[i]? = some q ∧ q.inUse = true ∧ q.reqNdx = i) ∧
      (o = none → rm.readReqs.countP ServerReadReq.inUse = serverMaxReads) := by
  have hexec : (exec slotStep slotAllowed (.init serverMaxReads)
      [.reserve,.reserve,.reserve,.release 1,.release 0]).any
        (fun rm => rm.nextRdreqNdx == 3) = true := by decide +kernel
  obtain ⟨rm,hrun,hnext⟩ := Run.exists_of_exec hexec
  exact ⟨rm,hrun,eq_of_beq hnext,reserve_after_calls hrun⟩

end UnifyFS.ReadSlots
