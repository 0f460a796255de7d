import Mathlib.Data.List.Basic
import Mathlib.Algebra.Order.Ring.Int

/-!
# The stack of free indices

The functions of `common/src/unifyfs-stack.c`. The stack is an array in shared memory with an index
one past its top, and holds indices of a table that are free. Nothing is pushed when the array is
full. As long as it is not full, the stack is the list of its items, the top first.
-/
namespace UnifyFS
open List

structure FreeStack where
  last : ℕ
  entries : List ℕ
  fits : last ≤ entries.length
  deriving DecidableEq, Repr

namespace FreeStack

def size (st : FreeStack) : ℕ := st.entries.length

/-- `unifyfs_stack_init`. Low numbers are at the top. -/
def init (size : ℕ) : FreeStack where
  last := size
  entries := (List.range size).map fun i => size - 1 - i
  fits := by simp

/-- `unifyfs_stack_pop`. No value is the -1 of the source. -/
def pop (st : FreeStack) : Option ℕ × FreeStack :=
  if st.last > 0 then
    (st.entries[st.last - 1]?,{ st with
      last := st.last - 1
      fits := Nat.le_trans (Nat.sub_le _ _) st.fits })
  else (none,st)

def push (st : FreeStack) (value : ℕ) : FreeStack :=
  if h : st.last < st.size then
    { last := st.last + 1
      entries := st.entries.set st.last value
      fits := by rwa [List.length_set] }
  else st

def items (st : FreeStack) : List ℕ := (st.entries.take st.last).reverse

variable {st : FreeStack} {value : ℕ}

@[simp] theorem length_items (st : FreeStack) : st.items.length = st.last := by
  simp [items,st.fits]

@[simp] theorem size_pop (st : FreeStack) : st.pop.2.size = st.size := by
  unfold pop
  split_ifs <;> rfl

@[simp] theorem size_push (st : FreeStack) (value : ℕ) : (st.push value).size = st.size := by
  unfold push
  split_ifs
  · exact length_set
  · rfl

theorem items_init (n : ℕ) : (init n).items = List.range n := by
  apply ext_getElem
  · simp [init]
  · intro i hi hi'
    rw [length_range] at hi'
    simp only [items,init,getElem_reverse,getElem_take,getElem_map,
      getElem_range,length_take,length_map,length_range]
    omega

theorem items_of_pos (h : 0 < st.last) : ∃ top, st.entries[st.last - 1]? = some top ∧
    st.items = top :: (st.entries.take (st.last - 1)).reverse := by
  obtain ⟨n,hn⟩ : ∃ n, st.last = n + 1 := ⟨st.last - 1,by omega⟩
  have hlt : n < st.entries.length := by
    have := st.fits
    omega
  refine ⟨st.entries[n],?_,?_⟩
  · rw [hn]
    exact getElem?_eq_getElem hlt
  · rw [items,hn,take_succ_eq_append_getElem hlt,reverse_append]
    rfl

theorem pop_eq (st : FreeStack) : st.pop.1 = st.items.head? ∧ st.pop.2.items = st.items.tail := by
  unfold pop
  split_ifs with h
  · obtain ⟨top,htop,hitems⟩ := items_of_pos h
    rw [hitems]
    exact ⟨htop,rfl⟩
  · have hnil : st.items = [] := eq_nil_of_length_eq_zero (by simpa using h)
    rw [hnil]
    exact ⟨rfl,rfl⟩

theorem items_push (h : st.last < st.size) : (st.push value).items = value :: st.items := by
  have hlen : st.last < (st.entries.set st.last value).length := by simpa [size] using h
  rw [push,dif_pos h,items]
  rw [take_succ_eq_append_getElem hlen,reverse_append,getElem_set_self]
  rw [take_set_of_le (Nat.le_refl _)]
  rfl

end FreeStack
end UnifyFS
