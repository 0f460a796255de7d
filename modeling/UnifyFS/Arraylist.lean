import UnifyFS.ListUpdates

/-!
# Array lists

`arraylist_t`: a growing array of pointers with holes, where `size` is one more
than the last index in use. A null pointer is `none`, and the capacity is the
length of the element array. Allocation of the array itself never fails here.
-/
namespace UnifyFS
open List Option

structure Arraylist (α : Type*) where
  elems : List (Option α)
  size : ℕ
  capacity_pos : 0 < elems.length
  size_le : size ≤ elems.length
  deriving DecidableEq, Repr

namespace Arraylist
variable {α : Type*}

def capacity (a : Arraylist α) : ℕ := a.elems.length

def defaultCapacity : ℕ := 1024

/-- `arraylist_create`: a capacity of zero asks for the default. -/
def create (capacity : ℕ) : Arraylist α where
  elems := List.replicate (if capacity = 0 then defaultCapacity else capacity) none
  size := 0
  capacity_pos := by
    rw [List.length_replicate]
    split
    · decide
    · omega
  size_le := Nat.zero_le _

/-- `arraylist_get`. Nothing is found from `size` on. -/
def get (a : Arraylist α) (pos : ℕ) : Option α :=
  if a.size ≤ pos then none else (a.elems[pos]?).join

/-- The loop of `arraylist_remove` that drops trailing null entries below `i`. -/
def shrink (elems : List (Option α)) : ℕ → ℕ
  | 0 => 0
  | i + 1 => if ((elems[i]?).join).isNone then shrink elems i else i + 1

theorem shrink_le (elems : List (Option α)) (i : ℕ) : shrink elems i ≤ i := by
  induction i with
  | zero => exact Nat.le_refl _
  | succ i ih =>
    rw [shrink]
    split
    · exact Nat.le_succ_of_le ih
    · exact Nat.le_refl _

/-- `arraylist_remove`, for the list that it leaves behind. -/
def remove (a : Arraylist α) (pos : ℕ) : Arraylist α :=
  if (a.get pos).isNone then a
  else
    { elems := a.elems.set pos none
      size := if pos + 1 = a.size then shrink a.elems pos else a.size
      capacity_pos := by
        rw [List.length_set]
        exact a.capacity_pos
      size_le := by
        rw [List.length_set]
        split
        · have hsize := a.size_le
          have hshrink := shrink_le a.elems pos
          omega
        · exact a.size_le }

/-- The element array of `arraylist_insert`, doubled past the position if needed. -/
def grown (a : Arraylist α) (pos : ℕ) : List (Option α) :=
  if a.capacity ≤ pos then a.elems ++ List.replicate (2 * pos - a.capacity) none else a.elems

theorem lt_length_grown (a : Arraylist α) (pos : ℕ) : pos < (a.grown pos).length := by
  have hpos := a.capacity_pos
  unfold grown capacity
  split
  · rw [length_append,length_replicate]
    omega
  · omega

theorem capacity_le_grown (a : Arraylist α) (pos : ℕ) : a.capacity ≤ (a.grown pos).length := by
  unfold grown capacity
  split
  · rw [length_append]
    omega
  · exact Nat.le_refl _

/-- `arraylist_insert`, which replaces an element already there. -/
def insert (a : Arraylist α) (pos : ℕ) (e : α) : Arraylist α where
  elems := (a.grown pos).set pos (some e)
  size := max a.size (pos + 1)
  capacity_pos := by
    rw [List.length_set]
    exact Nat.zero_lt_of_lt (a.lt_length_grown pos)
  size_le := by
    rw [List.length_set]
    apply Nat.max_le.mpr
    exact ⟨Nat.le_trans a.size_le (a.capacity_le_grown pos),a.lt_length_grown pos⟩

def modify (a : Arraylist α) (pos : ℕ) (f : α → α) : Arraylist α where
  elems := a.elems.modify pos (Option.map f)
  size := a.size
  capacity_pos := by
    rw [List.length_modify]
    exact a.capacity_pos
  size_le := by
    rw [List.length_modify]
    exact a.size_le

/-- The first of the numbers `n`, `next n` and so on whose place is free, and the one after it. -/
def findFree (a : Arraylist α) (index next : ℕ → ℕ) : ℕ → ℕ → Option (ℕ × ℕ)
  | 0, _ => none
  | fuel + 1, n =>
    if (a.get (index n)).isNone then some (n,next n) else a.findFree index next fuel (next n)

section Contents
variable {a : Arraylist α} {pos : ℕ} {x e : α}

theorem findFree_spec {index next : ℕ → ℕ} {fuel n : ℕ} {found : ℕ × ℕ}
    (h : a.findFree index next fuel n = some found) :
    a.get (index found.1) = none ∧ found.2 = next found.1 := by
  induction fuel generalizing n with
  | zero => cases h
  | succ fuel ih =>
    rw [findFree] at h
    split at h
    · next hfree =>
      cases h
      exact ⟨isNone_iff_eq_none.mp hfree,rfl⟩
    · exact ih h

theorem mem_of_get (h : a.get pos = some x) : some x ∈ a.elems := by
  unfold get at h
  split at h
  · cases h
  · apply mem_of_getElem?
    exact join_eq_some_iff.mp h

theorem mem_create {n : ℕ} : some x ∉ (create n : Arraylist α).elems := by
  intro h
  cases eq_of_mem_replicate h

theorem mem_remove (h : some x ∈ (a.remove pos).elems) : some x ∈ a.elems := by
  unfold remove at h
  split at h
  · exact h
  · cases mem_or_eq_of_mem_set h with
    | inl hm => exact hm
    | inr he => cases he

theorem mem_grown (h : some x ∈ a.grown pos) : some x ∈ a.elems := by
  unfold grown at h
  split at h
  · cases mem_append.mp h with
    | inl hm => exact hm
    | inr hn => cases eq_of_mem_replicate hn
  · exact h

theorem mem_insert (h : some x ∈ (a.insert pos e).elems) : some x ∈ a.elems ∨ x = e := by
  cases mem_or_eq_of_mem_set h with
  | inl hm => exact .inl (mem_grown hm)
  | inr he => exact .inr (some.inj he)

theorem mem_modify {f : α → α} (h : some x ∈ (a.modify pos f).elems) :
    ∃ y, some y ∈ a.elems ∧ (x = y ∨ x = f y) := by
  cases ListUpdates.of_mem_modify h with
  | inl hold => exact ⟨x,hold,.inl rfl⟩
  | inr hnew =>
    obtain ⟨o,ho,hx⟩ := hnew
    obtain ⟨y,rfl,rfl⟩ := map_eq_some_iff.mp hx.symm
    exact ⟨y,ho,.inr rfl⟩

end Contents

def slot (a : Arraylist α) (k : ℕ) : Option α := (a.elems[k]?).join

/-- The size is one more than the last position in use. -/
structure Tight (a : Arraylist α) : Prop where
  beyond : ∀ k, a.size ≤ k → a.slot k = none
  last : a.size = 0 ∨ a.slot (a.size - 1) ≠ none

section Size
variable {a : Arraylist α} {elems : List (Option α)} {pos i : ℕ} {e : α}

theorem slot_create (n k : ℕ) : (create n : Arraylist α).slot k = none := by
  unfold slot
  cases h : (create n : Arraylist α).elems[k]? with
  | none => rfl
  | some o => exact eq_of_mem_replicate (mem_of_getElem? h)

theorem capacity_create {n : ℕ} (hn : n ≠ 0) : (create n : Arraylist α).capacity = n := by
  unfold create capacity
  rw [length_replicate,if_neg hn]

theorem tight_create (n : ℕ) : (create n : Arraylist α).Tight :=
  ⟨fun k _ => slot_create n k,.inl rfl⟩

theorem elems_insert (hpos : pos < a.capacity) :
    (a.insert pos e).elems = a.elems.set pos (some e) := by
  have hgrown : a.grown pos = a.elems := if_neg (Nat.not_le.mpr hpos)
  exact congrArg (·.set pos (some e)) hgrown

theorem capacity_insert (hpos : pos < a.capacity) : (a.insert pos e).capacity = a.capacity := by
  unfold capacity
  rw [elems_insert hpos,length_set]

theorem slot_grown (a : Arraylist α) (pos k : ℕ) : ((a.grown pos)[k]?).join = a.slot k := by
  unfold grown slot
  split
  · rw [getElem?_append]
    split_ifs with hk
    · rfl
    · rw [getElem?_eq_none (Nat.le_of_not_lt hk),getElem?_replicate]
      split <;> rfl
  · rfl

theorem slot_insert (k : ℕ) : (a.insert pos e).slot k = if pos = k then some e else a.slot k := by
  rw [← a.slot_grown]
  unfold slot insert
  rw [getElem?_set]
  split_ifs with heq hlt
  · rfl
  · exact absurd (a.lt_length_grown pos) hlt
  · rfl

theorem capacity_remove : (a.remove pos).capacity = a.capacity := by
  unfold remove
  split
  · rfl
  · exact length_set

theorem shrink_none {k : ℕ} (hk : shrink elems i ≤ k) (hi : k < i) : (elems[k]?).join = none := by
  induction i with
  | zero => omega
  | succ i ih =>
    rw [shrink] at hk
    split at hk
    · next hnone =>
      by_cases heq : k = i
      · rw [heq]
        exact isNone_iff_eq_none.mp hnone
      · exact ih hk (by omega)
    · omega

theorem shrink_last : shrink elems i = 0 ∨ (elems[shrink elems i - 1]?).join ≠ none := by
  induction i with
  | zero => exact .inl rfl
  | succ i ih =>
    rw [shrink]
    split
    · exact ih
    · next hsome =>
      right
      exact fun hnone => hsome (isNone_iff_eq_none.mpr hnone)

namespace Tight

theorem get_eq (h : a.Tight) (k : ℕ) : a.get k = a.slot k := by
  unfold get
  split
  · next hle => exact (h.beyond k hle).symm
  · rfl

theorem size_eq_capacity_iff (h : a.Tight) :
    a.size = a.capacity ↔ a.slot (a.capacity - 1) ≠ none := by
  have hpos : 0 < a.capacity := a.capacity_pos
  have hle : a.size ≤ a.capacity := a.size_le
  constructor
  · intro heq
    rw [← heq]
    exact h.last.resolve_left (by omega)
  · intro hlast
    by_contra hne
    exact hlast (h.beyond _ (by omega))

theorem insert (h : a.Tight) : (a.insert pos e).Tight := by
  have hsize : (a.insert pos e).size = max a.size (pos + 1) := rfl
  refine ⟨fun k hk => ?_,.inr ?_⟩
  · rw [slot_insert,if_neg (by omega)]
    exact h.beyond k (by omega)
  · rw [slot_insert,hsize]
    split_ifs with heq
    · exact some_ne_none _
    · rw [show max a.size (pos + 1) = a.size by omega]
      exact h.last.resolve_left (by omega)

theorem slot_remove (h : a.Tight) (pos k : ℕ) :
    (a.remove pos).slot k = if pos = k then none else a.slot k := by
  by_cases hnone : (a.get pos).isNone
  · rw [Arraylist.remove,if_pos hnone]
    split
    · next heq =>
      rw [← heq,← h.get_eq]
      exact isNone_iff_eq_none.mp hnone
    · rfl
  · have hslot : (a.remove pos).slot k = ((a.elems.set pos none)[k]?).join := by
      rw [Arraylist.remove,if_neg hnone]
      rfl
    rw [hslot,getElem?_set]
    split
    · split <;> rfl
    · rfl

theorem remove (h : a.Tight) : (a.remove pos).Tight := by
  by_cases hnone : (a.get pos).isNone
  · rw [Arraylist.remove,if_pos hnone]
    exact h
  have hlt : pos < a.size := by
    by_contra hle
    exact hnone (isNone_iff_eq_none.mpr (if_pos (Nat.le_of_not_lt hle)))
  have hsize : (a.remove pos).size = if pos + 1 = a.size then shrink a.elems pos else a.size := by
    rw [Arraylist.remove,if_neg hnone]
  by_cases hend : pos + 1 = a.size
  · -- below the position the loop has seen only null entries
    rw [if_pos hend] at hsize
    have hshrink := shrink_le a.elems pos
    refine ⟨fun k hk => ?_,?_⟩
    · rw [hsize] at hk
      rw [h.slot_remove]
      split
      · rfl
      · by_cases hbelow : k < pos
        · exact shrink_none hk hbelow
        · exact h.beyond k (by omega)
    · rw [hsize,h.slot_remove]
      by_cases hzero : shrink a.elems pos = 0
      · exact .inl hzero
      · rw [if_neg (by omega)]
        exact shrink_last
  · rw [if_neg hend] at hsize
    refine ⟨fun k hk => ?_,.inr ?_⟩
    · rw [hsize] at hk
      rw [h.slot_remove,if_neg (by omega)]
      exact h.beyond k hk
    · rw [hsize,h.slot_remove,if_neg (by omega)]
      exact h.last.resolve_left (by omega)

theorem ext {b : Arraylist α} (ha : a.Tight) (hb : b.Tight) (hcap : a.capacity = b.capacity)
    (hslot : ∀ k, a.slot k = b.slot k) : a = b := by
  have hsize : a.size = b.size := by
    have hlast := ha.last
    have hlast' := hb.last
    by_contra hne
    rcases Nat.lt_or_gt_of_ne hne with hlt | hlt
    · exact hlast'.resolve_left (by omega) ((hslot _).symm.trans (ha.beyond _ (by omega)))
    · exact hlast.resolve_left (by omega) ((hslot _).trans (hb.beyond _ (by omega)))
  have helems : a.elems = b.elems := by
    refine ext_getElem hcap fun k hk hk' => ?_
    have hboth := hslot k
    unfold slot at hboth
    rwa [getElem?_eq_getElem,getElem?_eq_getElem] at hboth
  cases a
  cases b
  simp only [mk.injEq]
  exact ⟨helems,hsize⟩

theorem insert_remove (h : a.Tight) (hpos : pos < a.capacity) (hfree : a.slot pos = none) :
    (a.insert pos e).remove pos = a := by
  refine h.insert.remove.ext h (capacity_remove.trans (capacity_insert hpos)) fun k => ?_
  rw [h.insert.slot_remove,slot_insert]
  split
  · next heq => rw [← heq,hfree]
  · rfl

end Tight
end Size
end Arraylist
end UnifyFS
