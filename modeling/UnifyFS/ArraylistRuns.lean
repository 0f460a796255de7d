import Mathlib.Data.List.Induction
import Mathlib.Data.List.ReduceOption
import UnifyFS.Arraylist

/-!
# Array lists through any sequence of calls

`arraylist_add` and `arraylist_sort` join `arraylist_insert` and
`arraylist_remove`. The library function `qsort` is a parameter: it works in place
on the whole element array, null pointers included, and rearranges it. After every
sequence of calls the size is one more than the last index in use, and
`arraylist_get` finds what was last placed at an index. An `insert` whose doubled
index exceeds the C type `int` asks for more memory than there is; it counts as
an allocation failure.
-/
namespace UnifyFS.Arraylist
open List
variable {α : Type*}

/-- What `qsort` asks of a comparison function, and a null pointer comes last. -/
structure NullsLast (cmpfn : Option α → Option α → ℤ) : Prop where
  total : ∀ x y, cmpfn x y ≤ 0 ∨ cmpfn y x ≤ 0
  trans : ∀ x y z, cmpfn x y ≤ 0 → cmpfn y z ≤ 0 → cmpfn x z ≤ 0
  null_last : ∀ x, 0 < cmpfn none (some x)

structure Qsort (α : Type*) where
  sort : (Option α → Option α → ℤ) → List (Option α) → List (Option α)
  length_sort : ∀ cmpfn elems, (sort cmpfn elems).length = elems.length
  perm_sort : ∀ cmpfn elems, NullsLast cmpfn → (sort cmpfn elems).Perm elems

instance : Inhabited (Qsort α) where
  default :=
    { sort := fun cmpfn elems => elems.mergeSort fun x y => cmpfn x y ≤ 0
      length_sort := fun _ _ => List.length_mergeSort _
      perm_sort := fun _ _ _ => List.mergeSort_perm _ _ }

/-- `arraylist_add`: the list and the index of the new element. -/
def add (a : Arraylist α) (e : α) : ℕ × Arraylist α := (a.size,a.insert a.size e)

/-- The loop of `arraylist_sort`: one more than the last index in use below `n`. -/
def lastUsed (elems : List (Option α)) (n : ℕ) : ℕ :=
  (List.range n).foldl (fun size i => if ((elems[i]?).join).isNone then size else i + 1) 0

/-- It finds from the front what `shrink` finds from the end. -/
theorem lastUsed_eq_shrink (elems : List (Option α)) (n : ℕ) :
    lastUsed elems n = shrink elems n := by
  induction n with
  | zero => rfl
  | succ n ih =>
    rw [lastUsed,range_succ,foldl_append]
    change (if ((elems[n]?).join).isNone then lastUsed elems n else n + 1) = _
    rw [ih,shrink]

/-- `arraylist_sort` -/
def sort (qsort : Qsort α) (a : Arraylist α) (cmpfn : Option α → Option α → ℤ) :
    Arraylist α where
  elems := qsort.sort cmpfn a.elems
  size := lastUsed (qsort.sort cmpfn a.elems) a.capacity
  capacity_pos := by
    rw [qsort.length_sort]
    exact a.capacity_pos
  size_le := by
    rw [qsort.length_sort,lastUsed_eq_shrink]
    exact shrink_le _ _

inductive ListOp (α : Type*) where
  | insert (pos : ℕ) (elem : α)
  | add (elem : α)
  | remove (pos : ℕ)
  | sort (cmpfn : Option α → Option α → ℤ)

variable (qsort : Qsort α)

def apply (a : Arraylist α) : ListOp α → Arraylist α
  | .insert pos e => a.insert pos e
  | .add e => (a.add e).2
  | .remove pos => a.remove pos
  | .sort cmpfn => a.sort qsort cmpfn

def run (a : Arraylist α) (ops : List (ListOp α)) : Arraylist α := ops.foldl (apply qsort) a

/-- The elements that are not null pointers, with their multiplicities. -/
def elements (a : Arraylist α) : List α := a.elems.reduceOption

/-- The call puts the element at index `k`. Sorting places every element anew. -/
def Places (a : Arraylist α) (k : ℕ) (x : α) : ListOp α → Prop
  | .insert pos e => pos = k ∧ e = x
  | .add e => (a.add e).1 = k ∧ e = x
  | .remove _ => False
  | .sort cmpfn => (qsort.sort cmpfn a.elems)[k]? = some (some x)

/-- The call has nothing to do with index `k`. -/
def Spares (a : Arraylist α) (k : ℕ) : ListOp α → Prop
  | .insert pos _ => pos ≠ k
  | .add e => (a.add e).1 ≠ k
  | .remove pos => pos ≠ k
  | .sort _ => False

/-- The element was placed at index `k`, and no later call has touched that index. -/
inductive LastPlaced (a : Arraylist α) (k : ℕ) (x : α) : List (ListOp α) → Prop
  | placed {ops : List (ListOp α)} {op : ListOp α} :
      Places qsort (a.run qsort ops) k x op → LastPlaced a k x (ops ++ [op])
  | spared {ops : List (ListOp α)} {op : ListOp α} :
      LastPlaced a k x ops → Spares (a.run qsort ops) k op → LastPlaced a k x (ops ++ [op])

variable {qsort} {a : Arraylist α} {ops : List (ListOp α)} {op : ListOp α} {k : ℕ} {x : α}

theorem run_concat : a.run qsort (ops ++ [op]) = apply qsort (a.run qsort ops) op :=
  foldl_concat _ _ _ _

theorem tight_sort (cmpfn : Option α → Option α → ℤ) : (a.sort qsort cmpfn).Tight := by
  have hsize : (a.sort qsort cmpfn).size = shrink (qsort.sort cmpfn a.elems) a.capacity :=
    lastUsed_eq_shrink _ _
  refine ⟨fun k hk => ?_,hsize ▸ shrink_last⟩
  rw [hsize] at hk
  by_cases hlt : k < a.capacity
  · exact shrink_none hk hlt
  · -- past the end of the array
    have hlen : (qsort.sort cmpfn a.elems).length ≤ k := by
      rw [qsort.length_sort]
      exact Nat.le_of_not_lt hlt
    unfold slot sort
    rw [getElem?_eq_none hlen]
    rfl

namespace Tight

theorem apply (h : a.Tight) : (a.apply qsort op).Tight := by
  cases op with
  | insert pos e => exact h.insert
  | add e => exact h.insert
  | remove pos => exact h.remove
  | sort cmpfn => exact tight_sort cmpfn

theorem run (h : a.Tight) (ops : List (ListOp α)) : (a.run qsort ops).Tight := by
  induction ops using reverseRecOn with
  | nil => exact h
  | append_singleton ops op ih =>
    rw [run_concat]
    exact ih.apply

/-- A call either puts the element there, or leaves it there. -/
theorem slot_apply (h : a.Tight) : (a.apply qsort op).slot k = some x ↔
      Places qsort a k x op ∨ Spares a k op ∧ a.slot k = some x := by
  cases op with
  | insert pos e =>
    change (a.insert pos e).slot k = some x ↔ _
    rw [slot_insert]
    by_cases hk : pos = k <;> simp [Places,Spares,hk]
  | add e =>
    change (a.insert a.size e).slot k = some x ↔ _
    rw [slot_insert]
    by_cases hk : a.size = k <;> simp [Places,Spares,add,hk]
  | remove pos =>
    change (a.remove pos).slot k = some x ↔ _
    rw [h.slot_remove]
    by_cases hk : pos = k <;> simp [Places,Spares,hk]
  | sort cmpfn =>
    change ((qsort.sort cmpfn a.elems)[k]?).join = some x ↔ _
    simp [Places,Spares,Option.join_eq_some_iff]

theorem slot_run (h : a.Tight) (hempty : a.slot k = none) (ops : List (ListOp α)) :
    (a.run qsort ops).slot k = some x ↔ LastPlaced qsort a k x ops := by
  constructor
  · -- backwards through the calls to the one that placed the element
    induction ops using reverseRecOn with
    | nil =>
      intro hx
      change a.slot k = some x at hx
      rw [hempty] at hx
      cases hx
    | append_singleton ops op ih =>
      rw [run_concat,(h.run ops).slot_apply]
      rintro (hplaces | ⟨hspares,hx⟩)
      · exact .placed hplaces
      · exact .spared (ih hx) hspares
  · intro hlast
    induction hlast with
    | @placed ops op hplaces =>
      rw [run_concat,(h.run ops).slot_apply]
      exact .inl hplaces
    | @spared ops op _ hspares ih =>
      rw [run_concat,(h.run ops).slot_apply]
      exact .inr ⟨hspares,ih⟩

end Tight

theorem elements_sort {cmpfn : Option α → Option α → ℤ} (h : NullsLast cmpfn) :
    (a.sort qsort cmpfn).elements.Perm a.elements :=
  (qsort.perm_sort cmpfn a.elems h).filterMap id

/-- From a new list on, after any sequence of calls. -/
theorem arraylist_calls (qsort : Qsort α) (capacity : ℕ) (ops : List (ListOp α)) :
    let a := (create capacity : Arraylist α).run qsort ops
    (a.size = 0 ∨ a.slot (a.size - 1) ≠ none) ∧
    (∀ k, a.size ≤ k → a.slot k = none) ∧
    (∀ k x, a.get k = some x ↔ LastPlaced qsort (create capacity) k x ops) ∧
    ∀ cmpfn, NullsLast cmpfn → (a.sort qsort cmpfn).elements.Perm a.elements := by
  intro a
  have htight : a.Tight := (tight_create capacity).run ops
  refine ⟨htight.last,htight.beyond,fun k x => ?_,fun cmpfn hcmp => elements_sort hcmp⟩
  rw [htight.get_eq]
  exact (tight_create capacity).slot_run (slot_create capacity k) ops

end UnifyFS.Arraylist
