import UnifyFS.ByteBuffers
import Mathlib.Algebra.BigOperators.Group.List.Basic

/-!
# Partly filled slots in one buffer

Slots of fixed room lie one behind the other in a buffer, and each is filled
from its beginning with at most as many cells as it has room for. `unpack` reads
the buffer back by the numbers of filled cells alone, without the rooms. Both
agree exactly as far as no slot with data stands behind one that is not full.
-/
namespace UnifyFS.PackedSlots
open UnifyFS.ByteBuffers List
variable {α : Type*}

structure Slot (α : Type*) where
  room : ℕ
  data : List α
  fits : data.length ≤ room

def Slot.cells (gap : α) (s : Slot α) : List α :=
  s.data ++ List.replicate (s.room - s.data.length) gap

def pack (gap : α) (slots : List (Slot α)) : List α := slots.flatMap (Slot.cells gap)

def unpack : List ℕ → List α → List (List α)
  | [], _ => []
  | n :: ns, buf => buf.take n :: unpack ns (buf.drop n)

/-- A slot with data stands behind full slots only. -/
def Aligned (slots : List (Slot α)) : Prop :=
  slots.Pairwise fun a b => b.data ≠ [] → a.data.length = a.room

variable {gap : α} {s : Slot α} {slots : List (Slot α)}

@[simp] theorem pack_cons : pack gap (s :: slots) = s.cells gap ++ pack gap slots := rfl

theorem cells_of_full (h : s.data.length = s.room) : s.cells gap = s.data := by
  rw [Slot.cells,h,Nat.sub_self,replicate_zero,append_nil]

/-- Filling a slot at the beginning of the part not yet written. -/
theorem overwrite_slot (gap : α) (s : Slot α) (front : List α) (rest : ℕ) :
    overwrite gap (front ++ List.replicate (s.room + rest) gap) front.length s.data =
      (front ++ s.cells gap) ++ List.replicate rest gap := by
  have hfits := s.fits
  have hdrop : s.room + rest - s.data.length = (s.room - s.data.length) + rest := by omega
  rw [overwrite,take_left,length_append,drop_length_add_append,drop_replicate,hdrop,replicate_add]
  simp [Slot.cells]

theorem unpack_of_empty (h : ∀ s ∈ slots, s.data = []) (buf : List α) :
    unpack (slots.map fun s => s.data.length) buf = slots.map Slot.data := by
  induction slots generalizing buf with
  | nil => rfl
  | cons s slots ih =>
    have hs := h s mem_cons_self
    have hrest := ih (fun t ht => h t (mem_cons_of_mem s ht))
    simp only [map_cons,unpack,hs,length_nil,take_zero,hrest]

theorem unpack_pack (h : Aligned slots) :
    unpack (slots.map fun s => s.data.length) (pack gap slots) = slots.map Slot.data := by
  induction slots with
  | nil => rfl
  | cons s slots ih =>
    have hs := pairwise_cons.mp h
    rw [map_cons,unpack]
    congr 1
    · rw [pack_cons,Slot.cells,append_assoc,take_left]
    · by_cases hfull : s.data.length = s.room
      · rw [pack_cons,cells_of_full hfull,drop_left]
        exact ih hs.2
      · apply unpack_of_empty
        intro t ht
        by_contra hne
        exact hfull (hs.1 t ht hne)

theorem empty_of_unpack_gap (hgap : ∀ s ∈ slots, gap ∉ s.data) {buf : List α}
    (h : unpack (slots.map fun s => s.data.length) (gap :: buf) = slots.map Slot.data) :
    ∀ s ∈ slots, s.data = [] := by
  induction slots with
  | nil => simp
  | cons s slots ih =>
    rw [map_cons,unpack,map_cons,List.cons.injEq] at h
    have hs : s.data = [] := by
      cases hdata : s.data with
      | nil => rfl
      | cons a data =>
        have hhead := h.1
        rw [hdata,length_cons,take_succ_cons,List.cons.injEq] at hhead
        have hmem := hgap s mem_cons_self
        rw [hdata,hhead.1] at hmem
        exact absurd mem_cons_self hmem
    rw [hs,length_nil] at h
    have hrest := ih (fun t ht => hgap t (mem_cons_of_mem s ht)) h.2
    intro t ht
    rcases mem_cons.mp ht with rfl | ht
    · exact hs
    · exact hrest t ht

theorem aligned_of_unpack (hgap : ∀ s ∈ slots, gap ∉ s.data)
    (h : unpack (slots.map fun s => s.data.length) (pack gap slots) = slots.map Slot.data) :
    Aligned slots := by
  induction slots with
  | nil => exact .nil
  | cons s slots ih =>
    have hgaps : ∀ t ∈ slots, gap ∉ t.data := fun t ht => hgap t (mem_cons_of_mem s ht)
    rw [map_cons,unpack,map_cons,List.cons.injEq] at h
    by_cases hfull : s.data.length = s.room
    · rw [pack_cons,cells_of_full hfull,drop_left] at h
      exact pairwise_cons.mpr ⟨fun _ _ _ => hfull,ih hgaps h.2⟩
    · -- the first cell behind the data of a slot that is not full is a gap
      have hroom : s.room - s.data.length = s.room - s.data.length - 1 + 1 := by
        have hfits := s.fits
        omega
      rw [pack_cons,Slot.cells,append_assoc,drop_left,hroom,replicate_succ] at h
      have hempty := empty_of_unpack_gap hgaps h.2
      constructor
      · intro t ht hne
        exact absurd (hempty t ht) hne
      · apply List.Pairwise.imp_of_mem
        · intro a b _ hb _ hne
          exact absurd (hempty b hb) hne
        · exact pairwise_of_forall (fun _ _ => trivial)

end UnifyFS.PackedSlots
