import Mathlib.Algebra.Order.Ring.Int

/-!
# Lists in one concatenation

Lists with labels are stored as their concatenation and the offset at which each of them starts.
The end of a list is the start of the next one. Two such stores are joined by a shift of the
offsets of the second one.
-/
namespace UnifyFS.Concatenations

variable {ι α : Type*}

def starts : ℕ → List (ι × List α) → List (ι × ℕ)
  | _, [] => []
  | offset, (i,l) :: ls => (i,offset) :: starts (offset + l.length) ls

def joined (ls : List (ι × List α)) : List α := ls.flatMap Prod.snd

@[simp] theorem joined_nil : joined ([] : List (ι × List α)) = [] := rfl

@[simp] theorem joined_cons (l : ι × List α) (ls : List (ι × List α)) :
    joined (l :: ls) = l.2 ++ joined ls := rfl

@[simp] theorem joined_append (ls ls' : List (ι × List α)) :
    joined (ls ++ ls') = joined ls ++ joined ls' := List.flatMap_append

@[simp] theorem length_starts (offset : ℕ) (ls : List (ι × List α)) :
    (starts offset ls).length = ls.length := by
  induction ls generalizing offset with
  | nil => rfl
  | cons l ls ih => simp [starts,ih]

theorem starts_append (offset : ℕ) (ls ls' : List (ι × List α)) :
    starts offset (ls ++ ls') = starts offset ls ++ starts (offset + (joined ls).length) ls' := by
  induction ls generalizing offset with
  | nil => rfl
  | cons l ls ih => simp [starts,ih,Nat.add_assoc]

theorem starts_add (offset shift : ℕ) (ls : List (ι × List α)) :
    starts (offset + shift) ls = (starts offset ls).map fun s => (s.1,s.2 + shift) := by
  induction ls generalizing offset with
  | nil => rfl
  | cons l ls ih => simp [starts,← ih,Nat.add_right_comm]

end UnifyFS.Concatenations
