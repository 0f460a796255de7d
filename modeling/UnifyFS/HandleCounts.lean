import Mathlib.Data.Finset.Card
import Mathlib.Algebra.Order.Ring.Int

/-!
# Handles that share slots

A handle refers to at most one slot, and several handles may refer to the same one. A slot is
on the free list if no handle refers to it, and it counts the handles that do. The rules say
which changes of the list and of the counts go with a handle that gains or loses a slot.
-/
namespace UnifyFS.HandleCounts
open List

variable {ν ι : Type*}

def holders [DecidableEq ι] (refs : ν → Option ι) (held : Finset ν) (i : ι) : Finset ν :=
  held.filter fun n => refs n = some i

@[simp] theorem mem_holders [DecidableEq ι] {refs : ν → Option ι} {held : Finset ν} {i : ι}
    {n : ν} : n ∈ holders refs held i ↔ n ∈ held ∧ refs n = some i := Finset.mem_filter

section Change
variable [DecidableEq ν] [DecidableEq ι] {refs refs' : ν → Option ι} {held held' : Finset ν}
  {n : ν} {i : ι}

variable (hrefs : ∀ m, m ≠ n → refs' m = refs m)
include hrefs

theorem holders_of_ne (hheld : ∀ m, m ≠ n → (m ∈ held' ↔ m ∈ held))
    (hold : n ∈ held → refs n ≠ some i) (hnew : n ∈ held' → refs' n ≠ some i) :
    holders refs' held' i = holders refs held i := by
  ext m
  simp only [mem_holders]
  by_cases heq : m = n
  · rw [heq]
    exact iff_of_false (fun h => hnew h.1 h.2) (fun h => hold h.1 h.2)
  · rw [hrefs m heq,hheld m heq]

theorem holders_insert (hnew : refs' n = some i) :
    holders refs' (insert n held) i = insert n (holders refs held i) := by
  ext m
  simp only [mem_holders,Finset.mem_insert]
  by_cases heq : m = n
  · rw [heq]
    exact iff_of_true ⟨.inl rfl,hnew⟩ (.inl rfl)
  · rw [hrefs m heq,or_iff_right heq,or_iff_right heq]

theorem holders_erase (hheld : ∀ m, m ≠ n → (m ∈ held' ↔ m ∈ held))
    (hnew : n ∈ held' → refs' n ≠ some i) :
    holders refs' held' i = (holders refs held i).erase n := by
  ext m
  simp only [mem_holders,Finset.mem_erase]
  by_cases heq : m = n
  · rw [heq]
    exact iff_of_false (fun h => hnew h.1 h.2) (fun h => h.1 rfl)
  · rw [hrefs m heq,hheld m heq]
    exact (and_iff_right heq).symm

end Change

/-- The free list and the counts agree with the handles. -/
structure Balanced (slots : ι → Prop) (free : List ι) (count : ι → ℤ) (H : ι → Finset ν) :
    Prop where
  free_iff : ∀ i, slots i → (i ∈ free ↔ H i = ∅)
  nodup : free.Nodup
  count_eq : ∀ i, slots i → count i = (H i).card

namespace Balanced
variable {slots : ι → Prop} {free rest : List ι} {count count' : ι → ℤ} {H H' : ι → Finset ν}
  {i : ι} {n : ν}

theorem congr (h : Balanced slots free count H) (hH : ∀ j, slots j → H' j = H j) :
    Balanced slots free count H' where
  free_iff j hj := by rw [hH j hj]; exact h.free_iff j hj
  nodup := h.nodup
  count_eq j hj := by rw [hH j hj]; exact h.count_eq j hj

theorem pos_of_mem (h : Balanced slots free count H) (hi : slots i) (hn : n ∈ H i) :
    0 < count i := by
  rw [h.count_eq i hi]
  exact_mod_cast Finset.card_pos.mpr ⟨n,hn⟩

theorem notMem_of_pos (h : Balanced slots free count H) (hi : slots i) (hpos : count i ≠ 0) :
    i ∉ free := by
  rw [h.free_iff i hi,← Finset.card_eq_zero]
  rw [h.count_eq i hi] at hpos
  exact_mod_cast hpos

theorem acquire (h : Balanced slots (i :: rest) count H) (hH : H' i = {n})
    (hcount : count' i = 1) (hothers : ∀ j, j ≠ i → H' j = H j ∧ count' j = count j) :
    Balanced slots rest count' H' where
  nodup := (List.nodup_cons.mp h.nodup).2
  free_iff j hj := by
    by_cases heq : j = i
    · rw [heq,hH]
      exact iff_of_false (nodup_cons.mp h.nodup).1 (Finset.singleton_ne_empty n)
    · rw [(hothers j heq).1,← h.free_iff j hj,mem_cons]
      exact (or_iff_right heq).symm
  count_eq j hj := by
    by_cases heq : j = i
    · rw [heq,hH,hcount]
      rfl
    · rw [(hothers j heq).1,(hothers j heq).2,h.count_eq j hj]

variable [DecidableEq ν]

theorem share (h : Balanced slots free count H) (hpos : count i ≠ 0) (hn : n ∉ H i)
    (hH : H' i = insert n (H i)) (hcount : count' i = count i + 1)
    (hothers : ∀ j, j ≠ i → H' j = H j ∧ count' j = count j) : Balanced slots free count' H' where
  nodup := h.nodup
  free_iff j hj := by
    by_cases heq : j = i
    · rw [heq] at hj ⊢
      rw [hH]
      exact iff_of_false (h.notMem_of_pos hj hpos) (Finset.insert_ne_empty n _)
    · rw [(hothers j heq).1]
      exact h.free_iff j hj
  count_eq j hj := by
    by_cases heq : j = i
    · rw [heq] at hj ⊢
      rw [hH,hcount,h.count_eq i hj,Finset.card_insert_of_notMem hn]
      rfl
    · rw [(hothers j heq).1,(hothers j heq).2,h.count_eq j hj]

theorem drop (h : Balanced slots free count H) (hi : slots i) (hn : n ∈ H i)
    (hone : count i ≠ 1) (hH : H' i = (H i).erase n) (hcount : count' i = count i - 1)
    (hothers : ∀ j, j ≠ i → H' j = H j ∧ count' j = count j) : Balanced slots free count' H' := by
  have hpos := h.pos_of_mem hi hn
  have hcard : ((H' i).card : ℤ) = count i - 1 := by
    rw [hH,Finset.card_erase_of_mem hn,h.count_eq i hi]
    rw [h.count_eq i hi] at hpos
    omega
  refine ⟨fun j hj => ?_,h.nodup,fun j hj => ?_⟩
  · by_cases heq : j = i
    · rw [heq,← Finset.card_eq_zero]
      exact iff_of_false (h.notMem_of_pos hi (by omega)) (by omega)
    · rw [(hothers j heq).1]
      exact h.free_iff j hj
  · by_cases heq : j = i
    · rw [heq,hcount,hcard]
    · rw [(hothers j heq).1,(hothers j heq).2,h.count_eq j hj]

theorem release (h : Balanced slots free count H) (hi : slots i) (hn : n ∈ H i)
    (hone : count i = 1) (hH : H' i = (H i).erase n) (hcount : count' i = 0)
    (hothers : ∀ j, j ≠ i → H' j = H j ∧ count' j = count j) :
    Balanced slots (i :: free) count' H' := by
  have hcard : (H' i).card = 0 := by
    have := h.count_eq i hi
    rw [hH,Finset.card_erase_of_mem hn]
    omega
  refine ⟨fun j hj => ?_,?_,fun j hj => ?_⟩
  · by_cases heq : j = i
    · rw [heq,← Finset.card_eq_zero]
      exact iff_of_true mem_cons_self hcard
    · rw [(hothers j heq).1,← h.free_iff j hj,mem_cons]
      exact or_iff_right heq
  · exact nodup_cons.mpr ⟨h.notMem_of_pos hi (by omega),h.nodup⟩
  · by_cases heq : j = i
    · rw [heq,hcount,hcard]
      rfl
    · rw [(hothers j heq).1,(hothers j heq).2,h.count_eq j hj]

end Balanced
end UnifyFS.HandleCounts
